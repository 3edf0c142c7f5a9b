import WebSearch.TestRunner

/-! `blade/test_runner.py`: the runs in one source tree, one after the other. What a run
skips rests on an entry that some run before it wrote. -/
namespace WebSearch.TestRunner
open DependencyAnalyzer (TargetId)
open Library Library.PosixPath TestScheduler

/-- A test that was taken by a worker, with what it was made from. -/
structure Execution where
  target : TargetId
  outcome : Outcome
  stamps : Option (String × String)
  args : List String
  environ : Environ

structure History (D : Type) where
  stampFile : StampFile D
  executions : List Execution

/-- A run of `blade test` with the order of the steps of its threads. -/
structure Run where
  invocation : Invocation
  workers : Nat
  schedule : List (Action workers)

variable {D : Type} [DecidableEq D]

def executionOf (site : Site D) (inv : Invocation) : Job × Outcome → Execution
  | (job,o) => ⟨job.target.key,o,testStamps site inv job.target,inv.options.args,inv.environ⟩

def step (site : Site D) (h : History D) (r : Run) : Option (History D) := do
  let inv := r.invocation
  let runner ← prepare site h.stampFile inv
  if r.workers = getWorkersNum inv.cpuCoreNum inv.options.testJobs runner.testsRunList.length then
    let s ← (scheduling inv.popen r.workers runner.testsRunList runner.testsRunMap).run
      (start r.workers runner.testsRunList runner.testsRunMap) r.schedule
    if s.main = .done then return {
      stampFile := writeTestHistory site (summarize site runner s.failedTargets).2
      executions := h.executions ++ s.outcomes.map (executionOf site inv)}
    else none
  else none

/-- The histories of a source tree. -/
def history (site : Site D) : System (History D) Run where
  initial h := h = ⟨.absent,[]⟩
  step := step site

def lastExecution (executions : List Execution) (key : TargetId) : Option Execution :=
  executions.reverse.find? fun e => e.target = key

/-- The execution passed, and was made with what the test would be made with now. -/
structure UpToDate (site : Site D) (inv : Invocation) (target : Target) (e : Execution) : Prop where
  passed : e.outcome = .exited 0
  stamps : e.stamps = testStamps site inv target
  args : e.args = inv.options.args
  environ : ∀ key ∉ envIgnoreSet, e.environ.lookup key = inv.environ.lookup key

/-- The arguments and the environment are those that were recorded. -/
def Unchanged (site : Site D) (inv : Invocation) (last : Stamp D) : Prop :=
  (testStamp site inv).testarg = last.testarg ∧ sameDict (testStamp site inv).env last.env = true

instance (site : Site D) (inv : Invocation) (last : Stamp D) : Decidable (Unchanged site inv last) :=
  inferInstanceAs (Decidable (_ ∧ _))

/-- A run that reads the history and has other arguments or another environment loads every
test with an entry that is not `(0, 0)`; and no test that it schedules ends in an exception
that is no `OSError`. -/
def Careful (site : Site D) (h : History D) (r : Run) : Prop :=
  (¬Unchanged site r.invocation (lastTestStamp h.stampFile r.invocation.options.fulltest).1 →
    ∀ entry ∈ (lastTestStamp h.stampFile r.invocation.options.fulltest).1.md5, entry.2 ≠ .failed →
      ∃ target ∈ r.invocation.targets, target.type = "cc_test" ∧ runfile site target = entry.1) ∧
  ∀ runner ∈ prepare site h.stampFile r.invocation, ∀ job ∈ runner.testsRunList,
    runTest r.invocation.popen (job.queue.redirect r.workers) job ≠ .raised

instance (site : Site D) (h : History D) (r : Run) : Decidable (Careful site h r) := inferInstanceAs (Decidable (_ ∧ _))

omit [DecidableEq D] in
theorem runfile_injective (site : Site D) {t u : Target} (tidy : Tidy t.path ∧ Plain t.name.toList)
    (tidy' : Tidy u.path ∧ Plain u.name.toList) (same : runfile site t = runfile site u) : t.key = u.key := by
  obtain ⟨base,below⟩ := abspath_below site.cwd site.buildDir
  have text (v : Target) : runfile site v = normpath (base ++ "/" ++ v.path ++ "/" ++ v.name) := by
    have parts : executable site v = site.buildDir ++ "/" ++ (v.path ++ "/" ++ v.name) := by
      simp only [executable,String.append_assoc]
    rw [runfile,parts,below]
    simp only [String.append_assoc]
  rw [text,text] at same
  obtain ⟨path,name⟩ := normpath_below tidy.1 tidy.2 tidy'.1 tidy'.2 same
  exact Prod.ext path name

omit [DecidableEq D] in
theorem runfile_key (site : Site D) {t u : Target} (same : t.key = u.key) : runfile site t = runfile site u := by
  obtain ⟨path,name⟩ := Prod.mk.inj same
  rw [runfile,runfile,executable,executable,path,name]

/-! The plan: what is in the entries of the loaded tests, and which tests are left out. -/

section Plan
variable {site : Site D} {inv : Invocation} {last : Stamp D} {runAll : Option Reason}

structure Planned (site : Site D) (inv : Invocation) (last : Stamp D) (runAll : Option Reason) (done : List Target)
    (plan : Plan D) : Prop where
  loaded : ∀ target ∈ done, target.type = "cc_test" → ∃ new, getTestTargetMd5sum site inv target = some new ∧
    plan.md5.lookup (runfile site target) = some new ∧
    (runAll = none → target ∉ plan.inctestRunList → last.md5.lookup (runfile site target) = some new)
  others : ∀ file, (∀ target ∈ done, target.type = "cc_test" → runfile site target ≠ file) → plan.md5.lookup file = none

theorem runReason_none {target : Target} {file : String} {new : Md5 D}
    (skipped : runReason inv last none target file new = none) : last.md5.lookup file = some new := by
  unfold runReason at skipped
  dsimp only at skipped
  split at skipped
  · contradiction
  · split at skipped
    · contradiction
    · rename_i old found
      split at skipped
      · rename_i same
        rw [found,same]
      · split at skipped <;> contradiction

theorem generateStep_test {target : Target} {plan plan' : Plan D} (test : target.type = "cc_test")
    (stepped : generateStep site inv last runAll plan target = some plan') : ∃ new,
    getTestTargetMd5sum site inv target = some new ∧ plan'.md5 = put (runfile site target) new plan.md5 ∧
      (∀ other ∈ plan.inctestRunList, other ∈ plan'.inctestRunList) ∧
      (runAll = none → target ∉ plan'.inctestRunList → last.md5.lookup (runfile site target) = some new) := by
  rw [generateStep,if_neg (not_not.mpr test)] at stepped
  obtain ⟨new,sum,rest⟩ := Option.bind_eq_some_iff.mp stepped
  refine ⟨new,sum,?_⟩
  split at rest
  · rename_i skipped
    cases rest
    refine ⟨rfl,fun other member => member,fun none _ => ?_⟩
    rw [none] at skipped
    exact runReason_none skipped
  · rename_i reason run
    cases rest
    refine ⟨rfl,fun other member => ?_,fun none absent => ?_⟩
    · dsimp only
      split
      · exact List.mem_append_left _ member
      · exact member
    · rw [if_pos none] at absent
      exact absurd (List.mem_append_right _ (List.mem_singleton_self target)) absent

theorem generateStep_planned {done rest : List Target} {target : Target} {plan plan' : Plan D}
    (split : inv.targets = done ++ target :: rest) (before : Planned site inv last runAll done plan)
    (stepped : generateStep site inv last runAll plan target = some plan') :
    Planned site inv last runAll (done ++ [target]) plan' := by
  by_cases test : target.type = "cc_test"
  · obtain ⟨new,sum,md5,kept,skipped⟩ := generateStep_test test stepped
    have apart (other : Target) (member : other ∈ done) : runfile site other ≠ runfile site target := by
      intro same
      have listed : other ∈ inv.targets ∧ target ∈ inv.targets := by
        rw [split]
        exact ⟨List.mem_append_left _ member,List.mem_append_right _ List.mem_cons_self⟩
      have key := runfile_injective site (inv.tidy other listed.1) (inv.tidy target listed.2) same
      have distinct := inv.distinct
      rw [split,List.map_append,List.map_cons,List.nodup_append] at distinct
      exact distinct.2.2 _ (List.mem_map_of_mem member) _ List.mem_cons_self key
    constructor
    · intro other member cc
      rcases List.mem_append.mp member with old | now
      · obtain ⟨entry,summed,found,left⟩ := before.loaded other old cc
        refine ⟨entry,summed,?_,fun none absent => left none fun listed => absent (kept other listed)⟩
        rw [md5,lookup_put,if_neg (apart other old)]
        exact found
      · rw [List.mem_singleton.mp now]
        refine ⟨new,sum,?_,skipped⟩
        rw [md5,lookup_put,if_pos rfl]
    · intro file elsewhere
      have here := elsewhere target (List.mem_append_right _ (List.mem_singleton_self _)) test
      rw [md5,lookup_put,if_neg here.symm]
      exact before.others file fun other member => elsewhere other (List.mem_append_left _ member)
  · rw [generateStep,if_pos test] at stepped
    cases stepped
    constructor
    · intro other member cc
      rcases List.mem_append.mp member with old | now
      · exact before.loaded other old cc
      · exact absurd (List.mem_singleton.mp now ▸ cc) test
    · exact fun file elsewhere => before.others file fun other member => elsewhere other (List.mem_append_left _ member)

omit [DecidableEq D] in
theorem lookup_carryOver (last md5 : List (String × Md5 D)) (file : String) :
    (carryOver last md5).lookup file = (md5.lookup file).or (last.lookup file) := by
  unfold carryOver
  induction last generalizing md5 with
  | nil => simp
  | cons entry last ih =>
    obtain ⟨key,e⟩ := entry
    rw [List.foldl_cons,ih,lookup_cons_ite]
    by_cases here : file = key
    · subst here
      rw [if_pos rfl]
      cases found : md5.lookup file <;> simp [found]
    · rw [if_neg here]
      split
      · rfl
      · rw [lookup_put,if_neg here]

theorem generate_planned {plan : Plan D} (generated : generateInctestRunList site inv last runAll = some plan) :
    ∃ first, Planned site inv last runAll inv.targets first ∧ plan.inctestRunList = first.inctestRunList ∧
      ∀ file, plan.md5.lookup file = (first.md5.lookup file).or (last.md5.lookup file) := by
  obtain ⟨first,looped,rest⟩ := Option.bind_eq_some_iff.mp generated
  cases rest
  refine ⟨first,?_,rfl,fun file => lookup_carryOver _ _ file⟩
  apply foldlM_some (Planned site inv last runAll) _ _ looped
  · exact fun done target rest plan plan' split => generateStep_planned split
  · exact ⟨by simp,by simp⟩

omit [DecidableEq D] in
theorem lookup_markFailed {md5 : List (String × Md5 D)} {failedTargets : List Target} {file : String} {a b : D}
    (kept : (markFailed site md5 failedTargets).lookup file = some (.sums a b)) :
    md5.lookup file = some (.sums a b) ∧ ∀ target ∈ failedTargets, runfile site target ≠ file := by
  unfold markFailed at kept
  induction failedTargets generalizing md5 with
  | nil => exact ⟨kept,by simp⟩
  | cons target rest ih =>
    rw [List.foldl_cons] at kept
    obtain ⟨found,others⟩ := ih kept
    have here : md5.lookup file = some (.sums a b) ∧ runfile site target ≠ file := by
      split at found
      · rw [lookup_put] at found
        split at found
        · cases found
        · rename_i different
          exact ⟨found,fun same => different same.symm⟩
      · rename_i absent
        refine ⟨found,fun same => absent ?_⟩
        rw [same,found]
        rfl
    refine ⟨here.1,fun other member => ?_⟩
    rcases List.mem_cons.mp member with first | later
    · exact first ▸ here.2
    · exact others other later

end Plan

/-! Every entry with sums in it rests on the last execution of its test. -/

theorem lastExecution_append (executions new : List Execution) (key : TargetId) :
    lastExecution (executions ++ new) key = (lastExecution new key).or (lastExecution executions key) := by
  rw [lastExecution,List.reverse_append,List.find?_append]
  rfl

structure Backs (site : Site D) (stamp : Stamp D) (a b : D) (e : Execution) : Prop where
  passed : e.outcome = .exited 0
  stamps : ∃ st, e.stamps = some st ∧ a = site.md5sum st.1 ∧ b = site.md5sum st.2
  args : stamp.testarg = some (site.md5sum (PythonRepr.strList e.args))
  environ : ∀ key, stamp.env.lookup key = (stampEnv e.environ).lookup key

def Backed (site : Site D) (stamp : Stamp D) (executions : List Execution) : Prop :=
  ∀ target : Target, Tidy target.path ∧ Plain target.name.toList → ∀ a b,
    stamp.md5.lookup (runfile site target) = some (.sums a b) →
      ∃ e, lastExecution executions target.key = some e ∧ Backs site stamp a b e

section Step
variable {site : Site D} {inv : Invocation} {last stamp : Stamp D} {executions new : List Execution}

omit [DecidableEq D] in
theorem backed_empty (executions : List Execution) : Backed site .empty executions := by
  intro target tidy a b found
  cases found

omit [DecidableEq D] in
/-- An entry that is kept, under the same arguments and environment. -/
theorem Backed.kept (before : Backed site last executions) (args : stamp.testarg = last.testarg)
    (environ : sameDict stamp.env last.env = true) {target : Target} (tidy : Tidy target.path ∧ Plain target.name.toList)
    {a b : D} (found : last.md5.lookup (runfile site target) = some (.sums a b))
    (idle : lastExecution new target.key = none) :
    ∃ e, lastExecution (executions ++ new) target.key = some e ∧ Backs site stamp a b e := by
  obtain ⟨e,latest,passed,stamps,sameArgs,sameEnv⟩ := before target tidy a b found
  refine ⟨e,?_,passed,stamps,args.trans sameArgs,fun key => ?_⟩
  · rw [lastExecution_append,idle,latest]
    rfl
  · rw [sameDict_iff.mp environ key,sameEnv]

theorem runAllReason_none {new : Stamp D} {first : Option Reason} {fulltest : Bool}
    (none : runAllReason last new first fulltest = none) :
    fulltest = false ∧ new.testarg = last.testarg ∧ sameDict new.env last.env = true := by
  unfold runAllReason at none
  split at none
  · cases none
  · rename_i partly
    refine ⟨Bool.not_eq_true _ ▸ partly,?_⟩
    dsimp only at none
    split at none
    · cases none
    · split at none
      · rename_i same
        split at none
        · cases none
        · rename_i equal
          exact ⟨not_not.mp equal,same⟩
      · cases none

omit [DecidableEq D] in
theorem lastExecution_run {n : Nat} {popen : Popen} {tests : List Job} {s : State n} (inv' : TestScheduler.Inv popen tests s)
    {key : TargetId} {e : Execution} (latest : lastExecution (s.outcomes.map (executionOf site inv)) key = some e) :
    ∃ job ∈ tests, job.target.key = key ∧ e = executionOf site inv (job,runTest popen (job.queue.redirect n) job) := by
  have member := List.mem_of_find?_eq_some latest
  have same := List.find?_some latest
  obtain ⟨⟨job,o⟩,ran,made⟩ := List.mem_map.mp (List.mem_reverse.mp member)
  obtain ⟨scheduled,outcome⟩ := inv'.outcome_scheduled ran
  refine ⟨job,scheduled,?_,?_⟩
  · rw [← made] at same
    exact of_decide_eq_true same
  · rw [← made,outcome]

omit [DecidableEq D] in
theorem summarize_stamp {runner : Runner D} {failedTargets : List Target} {file : String} {a b : D}
    (found : (summarize site runner failedTargets).2.md5.lookup file = some (.sums a b)) :
    runner.stamp.md5.lookup file = some (.sums a b) ∧ ∀ target ∈ failedTargets, runfile site target ≠ file := by
  unfold summarize at found
  split at found
  · exact lookup_markFailed found
  · rename_i none
    rw [not_not.mp none]
    exact ⟨found,by simp⟩

omit [DecidableEq D] in
theorem summarize_same (site : Site D) (runner : Runner D) (failedTargets : List Target) :
    (summarize site runner failedTargets).2.testarg = runner.stamp.testarg ∧
      (summarize site runner failedTargets).2.env = runner.stamp.env := by
  unfold summarize
  split <;> exact ⟨rfl,rfl⟩

omit [DecidableEq D] in
theorem isRun_eq_false {runAll : Option Reason} {plan : Plan D} {target : Target} (skipped : isRun runAll plan target = false) :
    runAll = none ∧ target ∉ plan.inctestRunList := by
  unfold isRun at skipped
  rw [Bool.or_eq_false_iff,Bool.or_eq_false_iff,Option.isSome_eq_false_iff,Option.isNone_iff_eq_none,decide_eq_false_iff_not]
    at skipped
  exact skipped.1

end Step

section Completed
variable {site : Site D} {inv : Invocation} {last : Stamp D} {runAll : Option Reason} {plan : Plan D} {runner : Runner D}
  {n : Nat} {s : State n} {executions : List Execution}

/-- A test that ran and did not fail: its last execution is the one of this run. -/
theorem ran_backs (executions : List Execution) (prepared : Prepared site inv last runAll plan runner)
    (inv' : TestScheduler.Inv inv.popen runner.testsRunList s) (reported : Reported inv.popen runner.testsRunList s)
    {target : Target} (member : testJob site inv target ∈ runner.testsRunList) (unfailed : target ∉ s.failedTargets) :
    lastExecution (executions ++ s.outcomes.map (executionOf site inv)) target.key =
      some (executionOf site inv (testJob site inv target,.exited 0)) := by
  have passed : runTest inv.popen ((testJob site inv target).queue.redirect n) (testJob site inv target) = .exited 0 := by
    by_contra failing
    apply unfailed
    rw [reported.failed.mem_iff]
    exact List.mem_map.mpr ⟨testJob site inv target,List.mem_filter.mpr ⟨member,decide_eq_true failing⟩,rfl⟩
  have ran := reported.ran _ member
  rw [passed] at ran
  have listed : executionOf site inv (testJob site inv target,.exited 0) ∈
      (s.outcomes.map (executionOf site inv)).reverse := List.mem_reverse.mpr (List.mem_map_of_mem ran)
  obtain ⟨e,latest⟩ : ∃ e, lastExecution (s.outcomes.map (executionOf site inv)) target.key = some e := by
    rw [← Option.isSome_iff_exists,lastExecution,List.find?_isSome]
    exact ⟨_,listed,decide_eq_true rfl⟩
  obtain ⟨job,scheduled,key,made⟩ := lastExecution_run inv' latest
  have same : job = testJob site inv target := by
    obtain ⟨⟨known,_⟩,built⟩ := prepared.mem_jobs.mp scheduled
    have equal := List.inj_on_of_nodup_map inv.distinct known (prepared.mem_jobs.mp member).1.1 key
    exact built.trans (congrArg _ equal)
  rw [lastExecution_append,latest,made,same,passed]
  rfl

theorem not_executed (prepared : Prepared site inv last runAll plan runner)
    (inv' : TestScheduler.Inv inv.popen runner.testsRunList s) {key : TargetId}
    (idle : ∀ target ∈ inv.targets, target.type = "cc_test" → target.key = key → isRun runAll plan target = false) :
    lastExecution (s.outcomes.map (executionOf site inv)) key = none := by
  rw [Option.eq_none_iff_forall_ne_some]
  intro e latest
  obtain ⟨job,scheduled,same,_⟩ := lastExecution_run inv' latest
  obtain ⟨⟨listed,test,run⟩,_⟩ := prepared.mem_jobs.mp scheduled
  rw [idle job.target listed test same] at run
  exact Bool.false_ne_true run

theorem run_backed (prepared : Prepared site inv last runAll plan runner)
    (inv' : TestScheduler.Inv inv.popen runner.testsRunList s) (reported : Reported inv.popen runner.testsRunList s)
    (before : Backed site last executions) (fresh : runAll = none → Unchanged site inv last)
    (loads : ¬Unchanged site inv last → ∀ entry ∈ last.md5, entry.2 ≠ .failed →
      ∃ target ∈ inv.targets, target.type = "cc_test" ∧ runfile site target = entry.1) :
    Backed site (summarize site runner s.failedTargets).2 (executions ++ s.outcomes.map (executionOf site inv)) := by
  obtain ⟨first,planned,list,entries⟩ := generate_planned prepared.generated
  obtain ⟨args,environ⟩ := summarize_same site runner s.failedTargets
  rw [prepared.stamp] at args environ
  intro target tidy a b found
  obtain ⟨found,unfailed⟩ := summarize_stamp found
  rw [prepared.stamp] at found
  change plan.md5.lookup _ = _ at found
  rw [entries] at found
  by_cases here : ∃ loaded ∈ inv.targets, loaded.type = "cc_test" ∧ runfile site loaded = runfile site target
  · obtain ⟨loaded,listed,test,same⟩ := here
    have key : loaded.key = target.key := runfile_injective site (inv.tidy loaded listed) tidy same
    obtain ⟨new,sum,entry,left⟩ := planned.loaded loaded listed test
    rw [same] at entry left
    rw [entry,Option.some_or,Option.some.injEq] at found
    rw [found] at sum left
    cases run : isRun runAll plan loaded with
    | true =>
      have passed : loaded ∉ s.failedTargets := fun failed => unfailed loaded failed same
      have latest := ran_backs executions prepared inv' reported
        (prepared.mem_jobs.mpr ⟨⟨listed,test,run⟩,rfl⟩ : testJob site inv loaded ∈ runner.testsRunList) passed
      obtain ⟨st,stamps,sums⟩ := Option.map_eq_some_iff.mp sum
      obtain ⟨equalA,equalB⟩ := Md5.sums.inj sums
      rw [key] at latest
      exact ⟨_,latest,rfl,⟨st,stamps,equalA.symm,equalB.symm⟩,args,fun key => by rw [environ]; rfl⟩
    | false =>
      obtain ⟨runAll,absent⟩ := isRun_eq_false run
      rw [list] at absent
      apply before.kept (args.trans (fresh runAll).1) (by rw [environ]; exact (fresh runAll).2) tidy (left runAll absent)
      apply not_executed prepared inv'
      intro other known _ sameKey
      rw [List.inj_on_of_nodup_map inv.distinct known listed (sameKey.trans key.symm)]
      exact run
  · rw [planned.others (runfile site target) fun loaded listed test same => here ⟨loaded,listed,test,same⟩,
      Option.none_or] at found
    have unchanged : Unchanged site inv last := by
      by_contra changed
      obtain ⟨front,back,split,_⟩ := List.lookup_eq_some_iff.mp found
      have member : (runfile site target,Md5.sums a b) ∈ last.md5 := by
        rw [split]
        exact List.mem_append_right _ List.mem_cons_self
      have kept : (Md5.sums a b : Md5 D) ≠ .failed := by simp
      obtain ⟨loaded,listed,test,same⟩ := loads changed _ member kept
      dsimp only at same
      exact here ⟨loaded,listed,test,same⟩
    apply before.kept (args.trans unchanged.1) (by rw [environ]; exact unchanged.2) tidy found
    apply not_executed prepared inv'
    intro other known test sameKey
    exact absurd ⟨other,known,test,runfile_key site sameKey⟩ here

end Completed

/-! The runs. -/

section Runs
variable {site : Site D} {h h' : History D} {r : Run}

theorem step_spec (taken : step site h r = some h') : ∃ runner s,
    prepare site h.stampFile r.invocation = some runner ∧
    r.workers = getWorkersNum r.invocation.cpuCoreNum r.invocation.options.testJobs runner.testsRunList.length ∧
    (scheduling r.invocation.popen r.workers runner.testsRunList runner.testsRunMap).Reachable s ∧ s.main = .done ∧
    h' = ⟨writeTestHistory site (summarize site runner s.failedTargets).2,
      h.executions ++ s.outcomes.map (executionOf site r.invocation)⟩ := by
  obtain ⟨runner,prepared,rest⟩ := Option.bind_eq_some_iff.mp taken
  split at rest
  · rename_i workers
    obtain ⟨s,ran,rest⟩ := Option.bind_eq_some_iff.mp rest
    split at rest
    · rename_i done
      cases rest
      have started : (scheduling r.invocation.popen r.workers runner.testsRunList runner.testsRunMap).Reachable
        (start r.workers runner.testsRunList runner.testsRunMap) := .initial rfl
      exact ⟨runner,s,prepared,workers,started.run r.schedule ran,done,rfl⟩
    · contradiction
  · contradiction

omit [DecidableEq D] in
theorem backed_last {h : History D} (backed : Backed site (lastTestStamp h.stampFile false).1 h.executions) (fulltest : Bool) :
    Backed site (lastTestStamp h.stampFile fulltest).1 h.executions := by
  cases fulltest with
  | false => exact backed
  | true => exact backed_empty h.executions

theorem backed_step (before : Backed site (lastTestStamp h.stampFile false).1 h.executions) (careful : Careful site h r)
    (taken : step site h r = some h') : Backed site (lastTestStamp h'.stampFile false).1 h'.executions := by
  obtain ⟨runner,s,prepared,workers,reached,completed,rfl⟩ := step_spec taken
  have inv' := inv_reachable reached
  have reported := inv'.reported completed (fun some => workers ▸ getWorkersNum_pos _ _ (List.length_pos_iff.mpr some))
    (careful.2 runner prepared)
  obtain ⟨plan,planned⟩ := prepare_spec prepared
  have backed := run_backed planned inv' reported (backed_last before _) (fun none => (runAllReason_none none).2) careful.1
  change Backed site (lastTestStamp (writeTestHistory site _) false).1 _
  unfold writeTestHistory
  split
  · exact backed_empty _
  · exact backed

theorem backed_reachable (reached : ((history site).restrict (Careful site)).Reachable h) :
    Backed site (lastTestStamp h.stampFile false).1 h.executions := by
  apply reached.invariant fun h => Backed site (lastTestStamp h.stampFile false).1 h.executions
  · intro h initial
    rw [initial]
    exact backed_empty _
  · intro h r h' before taken
    obtain ⟨careful,taken⟩ := System.restrict_step.mp taken
    exact backed_step before careful taken

theorem lookup_stampEnv (environ : Environ) {key : String} (counts : key ∉ envIgnoreSet) :
    (stampEnv environ).lookup key = environ.lookup key := by
  rw [stampEnv,lookup_filter (fun key => key ∉ envIgnoreSet),if_pos (decide_eq_true counts)]

/-- Then a test is skipped only if its last execution passed and was made with the same
stamps, arguments and environment. -/
theorem skipped_up_to_date (distinct : Function.Injective site.md5sum)
    (reached : ((history site).restrict (Careful site)).Reachable h) {inv : Invocation} {runner : Runner D}
    (prepared : prepare site h.stampFile inv = some runner) {target : Target} (listed : target ∈ inv.targets)
    (skipped : target.key ∈ runner.skippedTests) :
    ∃ e, lastExecution h.executions target.key = some e ∧ UpToDate site inv target e := by
  obtain ⟨plan,made⟩ := prepare_spec prepared
  rw [made.skipped] at skipped
  obtain ⟨other,left,same⟩ := List.mem_map.mp skipped
  obtain ⟨loaded,idle⟩ := List.mem_filter.mp left
  obtain ⟨known,test⟩ := List.mem_filter.mp loaded
  have equal : other = target := List.inj_on_of_nodup_map inv.distinct known listed same
  subst equal
  obtain ⟨runAll,absent⟩ := isRun_eq_false (Bool.not_eq_true' _ ▸ idle)
  obtain ⟨fulltest,args,environ⟩ := runAllReason_none runAll
  obtain ⟨first,planned,list,_⟩ := generate_planned made.generated
  rw [list] at absent
  obtain ⟨new,sum,_,entry⟩ := planned.loaded other listed (of_decide_eq_true test)
  obtain ⟨st,stamps,rfl⟩ := Option.map_eq_some_iff.mp sum
  have backed := backed_last (backed_reachable reached) inv.options.fulltest
  obtain ⟨e,latest,passed,⟨st',stamps',equalA,equalB⟩,sameArgs,sameEnv⟩ :=
    backed other (inv.tidy other listed) _ _ (entry runAll absent)
  refine ⟨e,latest,passed,?_,?_,fun key counts => ?_⟩
  · rw [stamps,stamps',Prod.ext (distinct equalA) (distinct equalB)]
  · rw [sameArgs] at args
    exact PythonRepr.strList_injective (distinct (Option.some.inj args).symm)
  · rw [← lookup_stampEnv e.environ counts,← lookup_stampEnv inv.environ counts,← sameEnv]
    exact (sameDict_iff.mp environ key).symm

end Runs

/-- A run of one test of the tree with one worker. -/
def runOf (path name : String) (file : Tidy path ∧ Plain name.toList) (args : List String) : Run :=
  ⟨oneTest path name file args [("PWD","/src")] succeeds,1,oneWorker⟩

theorem skipped_up_to_date_again : ∃ (h : History String) (runner : Runner String),
    ("a","x") ∈ runner.skippedTests ∧ ∃ e, lastExecution h.executions ("a","x") = some e ∧ UpToDate tree passing (ccTest "a" "x") e := by
  have ran : (((history tree).restrict (Careful tree)).run ⟨.absent,[]⟩ [runOf "a" "x" (by decide) []]).any (fun h =>
      (prepare tree h.stampFile passing).any fun runner => ("a","x") ∈ runner.skippedTests) = true := by decide
  obtain ⟨h,ended,rest⟩ := (Option.any_eq_true _ _).mp ran
  obtain ⟨runner,prepared,skipped⟩ := (Option.any_eq_true _ _).mp rest
  have reached : ((history tree).restrict (Careful tree)).Reachable h := (System.Reachable.initial rfl).run _ ended
  exact ⟨h,runner,of_decide_eq_true skipped,skipped_up_to_date Function.injective_id reached prepared
    (List.mem_singleton_self (ccTest "a" "x")) (of_decide_eq_true skipped)⟩

/-- The entry of `x` outlives a run of `y` with other arguments. -/
theorem skipped_after_other_arguments : ¬∀ (site : Site String) (h : History String) (inv : Invocation) (runner : Runner String)
    (target : Target), Function.Injective site.md5sum → (history site).Reachable h → prepare site h.stampFile inv = some runner →
    target ∈ inv.targets → target.key ∈ runner.skippedTests →
    ∃ e, lastExecution h.executions target.key = some e ∧ UpToDate site inv target e := by
  intro always
  have ran : ((history tree).run ⟨.absent,[]⟩ [runOf "a" "x" (by decide) ["1"],runOf "b" "y" (by decide) ["2"]]).any (fun h =>
      (prepare tree h.stampFile (runOf "a" "x" (by decide) ["2"]).invocation).any (fun runner => ("a","x") ∈ runner.skippedTests) &&
        (lastExecution h.executions ("a","x")).any fun e => e.args = ["1"]) = true := by decide
  obtain ⟨h,ended,rest⟩ := (Option.any_eq_true _ _).mp ran
  obtain ⟨prepared,executed⟩ := (Bool.and_eq_true _ _).mp rest
  obtain ⟨runner,prepared,skipped⟩ := (Option.any_eq_true _ _).mp prepared
  obtain ⟨e,latest,args⟩ := (Option.any_eq_true _ _).mp executed
  have reached : (history tree).Reachable h := (System.Reachable.initial rfl).run _ ended
  obtain ⟨e',latest',upToDate⟩ := always tree h _ runner (ccTest "a" "x") Function.injective_id reached prepared
    (List.mem_singleton_self (ccTest "a" "x")) (of_decide_eq_true skipped)
  have same : e = e' := Option.some.inj (latest.symm.trans latest')
  have given := upToDate.args
  rw [← same,of_decide_eq_true args] at given
  exact absurd given (by decide)

end WebSearch.TestRunner
