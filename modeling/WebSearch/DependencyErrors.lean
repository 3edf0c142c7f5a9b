import WebSearch.TopologicalSort

/-! When the expansion of dependencies exits with an error. A target is cached only
after everything that it reaches has been gone through, so what is cached reaches
neither a cycle nor a missing target. -/
namespace WebSearch.DependencyAnalyzer
open Library Relation Function

/-- The target reaches a cycle or something that is not in the map. -/
def Broken (graph : Targets) (id : TargetId) : Prop :=
  (∃ x, ReflTransGen (Dep graph) id x ∧ TransGen (Dep graph) x x) ∨
    ∃ x, TransGen (Dep graph) id x ∧ (graph.find x).isSome = false

variable {graph targets : Targets}

theorem broken_iff {id : TargetId} :
    Broken graph id ↔ ∃ d, Dep graph id d ∧ ((graph.find d).isSome = false ∨ Broken graph d) := by
  constructor
  · intro broken
    rcases broken with ⟨x,reached,back⟩ | ⟨x,reached,missing⟩
    · rcases ReflTransGen.cases_head reached with here | ⟨d,edge,further⟩
      · rw [here]
        obtain ⟨d,edge,further⟩ := TransGen.head'_iff.mp back
        exact ⟨d,edge,.inr (.inl ⟨x,further,back⟩)⟩
      · exact ⟨d,edge,.inr (.inl ⟨x,further,back⟩)⟩
    · obtain ⟨d,edge,further⟩ := TransGen.head'_iff.mp reached
      rcases reflTransGen_iff_eq_or_transGen.mp further with here | longer
      · exact ⟨d,edge,.inl (here ▸ missing)⟩
      · exact ⟨d,edge,.inr (.inr ⟨x,longer,missing⟩)⟩
  · intro next
    obtain ⟨d,edge,missing | ⟨x,reached,back⟩ | ⟨x,reached,missing⟩⟩ := next
    · exact .inr ⟨d,.single edge,missing⟩
    · exact .inl ⟨x,.head edge reached,back⟩
    · exact .inr ⟨x,.head edge reached,missing⟩

/-- `console.error_exit` was called. -/
def Failure.Exits (failure : Failure) : Prop := failure.message.isSome = true

structure Sound (graph targets : Targets) (cache : Cache) : Prop where
  order : targets.order = graph.order
  fresh : ∀ id, cache id = none → targets.deps id = graph.deps id
  whole : ∀ id list, cache id = some list → ¬Broken graph id
  present : ∀ id list, cache id = some list → ∀ d ∈ list, (graph.find d).isSome = true

theorem Sound.find {cache : Cache} (sound : Sound graph targets cache) (id : TargetId) :
    (targets.find id).isSome = (graph.find id).isSome := by
  apply Bool.eq_iff_iff.mpr
  rw [← targets.mem_order,← graph.mem_order,sound.order]

/-- What a call that returns has found out. -/
structure Whole (graph targets : Targets) (id : TargetId) (memo : Memo) (result : List TargetId × Memo) : Prop where
  whole : ¬Broken graph id
  present : ∀ d ∈ result.1, (graph.find d).isSome = true
  cached : result.2.cache id = some result.1
  roots : result.2.roots = memo.roots
  sound : Sound graph targets result.2.cache

/-- The loop over the dependencies after some of them. -/
structure Going (graph targets : Targets) (roots : List TargetId) (done : List TargetId) (state : List TargetId × Memo) : Prop where
  whole : ∀ d ∈ done, (graph.find d).isSome = true ∧ ¬Broken graph d
  present : ∀ d ∈ state.1, (graph.find d).isSome = true
  roots : state.2.roots = roots
  sound : Sound graph targets state.2.cache

theorem Going.step {roots done : List TargetId} {d : TargetId} {state result : List TargetId × Memo}
    (before : Going graph targets roots done state) (present : (graph.find d).isSome = true)
    (found : Whole graph targets d state.2 result) :
    Going graph targets roots (done ++ [d]) ((d :: result.1).foldl moveLast state.1,result.2) := by
  refine ⟨fun e member => ?_,fun e member => ?_,found.roots.trans before.roots,found.sound⟩
  · rcases List.mem_append.mp member with older | new
    · exact before.whole e older
    · rw [List.mem_singleton.mp new]
      exact ⟨present,found.whole⟩
  · rcases mem_of_mem_moveLast member with older | new
    · exact before.present e older
    · rcases List.mem_cons.mp new with here | below
      · rw [here]
        exact present
      · exact found.present e below

theorem Going.whole_target {roots deps : List TargetId} {id : TargetId} {state : List TargetId × Memo}
    (going : Going graph targets roots deps state) (direct : graph.deps id = some deps) : ¬Broken graph id := by
  intro broken
  obtain ⟨d,edge,bad⟩ := broken_iff.mp broken
  obtain ⟨list,found,member⟩ := dep_iff.mp edge
  rw [direct] at found
  obtain ⟨present,whole⟩ := going.whole d (Option.some.inj found ▸ member)
  rcases bad with missing | bad
  · rw [present] at missing
    cases missing
  · exact whole bad

theorem Going.finish {memo : Memo} {id : TargetId} {deps : List TargetId} {state : List TargetId × Memo}
    (going : Going graph targets (memo.roots.insert id) deps state) (direct : graph.deps id = some deps) (fresh : id ∉ memo.roots) :
    Whole graph targets id memo (state.1,⟨update state.2.cache id (some state.1),state.2.roots.erase id⟩) := by
  have whole := going.whole_target direct
  refine ⟨whole,going.present,update_self ..,?_,going.sound.order,fun other uncached => ?_,fun other list cached => ?_,
    fun other list cached => ?_⟩
  · rw [going.roots,List.insert_of_not_mem fresh,List.erase_cons_head]
  · by_cases same : other = id
    · simp [same] at uncached
    · simp only [update_of_ne same] at uncached
      exact going.sound.fresh other uncached
  · by_cases same : other = id
    · rw [same]
      exact whole
    · simp only [update_of_ne same] at cached
      exact going.sound.whole other list cached
  · by_cases same : other = id
    · simp only [same,update_self,Option.some.injEq] at cached
      exact cached ▸ going.present
    · simp only [update_of_ne same] at cached
      exact going.sound.present other list cached

/-- A call ends. It finds that the target is whole, or exits because it is not. -/
theorem findAllDeps_ends (fuel : Nat) (id : TargetId) (memo : Memo) (sound : Sound graph targets memo.cache)
    (path : ∀ root ∈ memo.roots, TransGen (Dep graph) root id) (fresh : id ∉ memo.roots)
    (present : (graph.find id).isSome = true) (enough : pending targets memo.roots < fuel) :
    (∃ result, findAllDeps targets fuel id memo = .ok result ∧ Whole graph targets id memo result) ∨
      ∃ failure, findAllDeps targets fuel id memo = .error failure ∧ failure.Exits ∧ Broken graph id := by
  induction fuel generalizing id memo with
  | zero => exact absurd enough (Nat.not_lt_zero _)
  | succ fuel ih =>
    cases cached : memo.cache id with
    | some list =>
      refine .inl ⟨(list,memo),by simp only [findAllDeps,cached],?_⟩
      exact ⟨sound.whole id list cached,sound.present id list cached,cached,rfl,sound⟩
    | none =>
      have exists_id := present
      rw [← sound.find] at exists_id
      obtain ⟨target,located⟩ := Option.isSome_iff_exists.mp exists_id
      have direct : graph.deps id = some target.expandedDeps := by
        rw [← sound.fresh id cached,Targets.deps,located,Option.map_some]
      have room := pending_insert memo.roots id exists_id fresh
      obtain ⟨final,folded,going⟩ | ⟨failure,folded,exits,broken⟩ :
          (∃ final, target.expandedDeps.foldlM (appendDep (findAllDeps targets fuel) targets id)
            ([],{memo with roots := memo.roots.insert id}) = .ok final ∧
            Going graph targets (memo.roots.insert id) target.expandedDeps final) ∨
          ∃ failure, target.expandedDeps.foldlM (appendDep (findAllDeps targets fuel) targets id)
            ([],{memo with roots := memo.roots.insert id}) = .error failure ∧ failure.Exits ∧ Broken graph id := by
        apply foldlM_or_error fun done state => Going graph targets (memo.roots.insert id) done state
        · intro done d rest state split before
          obtain ⟨list,now⟩ := state
          have edge : Dep graph id d := dep_iff.mpr ⟨_,direct,by simp [split]⟩
          have roots : now.roots = memo.roots.insert id := before.roots
          have inside (root : TargetId) (member : root ∈ now.roots) : TransGen (Dep graph) root d := by
            rw [roots] at member
            obtain here | older := List.mem_insert_iff.mp member
            · exact here ▸ .single edge
            · exact (path root older).tail edge
          have same := before.sound.find d
          unfold appendDep
          dsimp only
          by_cases onPath : d ∈ now.roots
          · rw [if_pos onPath]
            exact .inr ⟨_,rfl,rfl,.inl ⟨d,.single edge,inside d onPath⟩⟩
          · rw [if_neg onPath]
            cases found : targets.find d with
            | none =>
              rw [found] at same
              exact .inr ⟨_,rfl,rfl,.inr ⟨d,.single edge,same.symm⟩⟩
            | some other =>
              rw [found] at same
              obtain ⟨result,called,whole⟩ | ⟨failure,called,exits,broken⟩ :=
                ih d now before.sound inside onPath same.symm (by rw [roots]; omega)
              · dsimp only
                rw [called]
                exact .inl ⟨_,rfl,before.step same.symm whole⟩
              · dsimp only
                rw [called]
                exact .inr ⟨failure,rfl,exits,broken_iff.mpr ⟨d,edge,.inr broken⟩⟩
        · have nothing (P : TargetId → Prop) : ∀ d ∈ [], P d := fun d member => absurd member List.not_mem_nil
          exact ⟨nothing _,nothing _,rfl,sound⟩
      · refine .inl ⟨(final.1,⟨update final.2.cache id (some final.1),final.2.roots.erase id⟩),?_,going.finish direct fresh⟩
        simp only [findAllDeps,cached,located]
        rw [folded]
        rfl
      · refine .inr ⟨failure,?_,exits,broken⟩
        simp only [findAllDeps,cached,located]
        rw [folded]
        rfl

/-! The loop over the targets. -/

structure Passed (graph : Targets) (done : List TargetId) (state : Targets × Cache) : Prop where
  sound : Sound graph state.1 state.2
  whole : ∀ id ∈ done, ¬Broken graph id

theorem expandTarget_ends {done : List TargetId} {state : Targets × Cache} {id : TargetId}
    (present : (graph.find id).isSome = true) (before : Passed graph done state) :
    (∃ next, expandTarget state id = .ok next ∧ Passed graph (done ++ [id]) next) ∨
      ∃ failure, expandTarget state id = .error failure ∧ failure.Exits ∧ Broken graph id := by
  obtain ⟨targets,cache⟩ := state
  obtain ⟨sound,whole⟩ := before
  have exists_id : (targets.find id).isSome = true := (sound.find id).trans present
  obtain ⟨target,located⟩ := Option.isSome_iff_exists.mp exists_id
  have enough : pending targets [] < targets.order.length + 1 := Nat.lt_succ_of_le (List.length_filter_le _ _)
  obtain ⟨⟨list,memo⟩,called,found⟩ | ⟨failure,called,exits,broken⟩ :=
    findAllDeps_ends _ id ⟨cache,[]⟩ sound nofun (List.not_mem_nil) present enough
  · have all_present : ∀ d ∈ list,
        ((targets.modify id fun target => {target with expandedDeps := list}).find d).isSome = true := by
      intro d member
      rw [find_modify,sound.find]
      exact found.present d member
    obtain ⟨marked,filled,same⟩ := fillOptions_ok target list _ all_present
    refine .inl ⟨(marked,memo.cache),?_,⟨same.order.trans sound.order,fun other uncached => ?_,found.sound.whole,found.sound.present⟩,
      fun other member => ?_⟩
    · simp only [expandTarget,located,called,bind,Except.bind,filled]
      rfl
    · have different : other ≠ id := by
        intro here
        have hit : memo.cache id = some list := found.cached
        change memo.cache other = none at uncached
        rw [← here,uncached] at hit
        cases hit
      rw [same.deps,deps_modify id list exists_id,if_neg different]
      exact found.sound.fresh other uncached
    · rcases List.mem_append.mp member with older | new
      · exact whole other older
      · exact List.mem_singleton.mp new ▸ found.whole
  · refine .inr ⟨failure,?_,exits,broken⟩
    simp only [expandTarget,located,called]
    rfl

theorem expandDeps_ends (graph : Targets) :
    (∃ expanded, expandDeps graph = .ok expanded ∧ ∀ id ∈ graph.order, ¬Broken graph id) ∨
      ∃ failure, expandDeps graph = .error failure ∧ failure.Exits ∧ ∃ id ∈ graph.order, Broken graph id := by
  obtain ⟨final,folded,passed⟩ | ⟨failure,folded,exits,broken⟩ :
      (∃ final, graph.order.foldlM expandTarget (graph,fun _ => none) = .ok final ∧ Passed graph graph.order final) ∨
      ∃ failure, graph.order.foldlM expandTarget (graph,fun _ => none) = .error failure ∧
        failure.Exits ∧ ∃ id ∈ graph.order, Broken graph id := by
    apply foldlM_or_error fun done state => Passed graph done state
    · intro done id rest state split before
      have member : id ∈ graph.order := by simp [split]
      rcases expandTarget_ends ((graph.mem_order id).mp member) before with passed | ⟨failure,called,exits,broken⟩
      · exact .inl passed
      · exact .inr ⟨failure,called,exits,id,member,broken⟩
    · exact ⟨⟨rfl,fun _ _ => rfl,fun _ _ => nofun,fun _ _ => nofun⟩,nofun⟩
  · refine .inl ⟨final.1,?_,passed.whole⟩
    simp only [expandDeps,folded]
    rfl
  · refine .inr ⟨failure,?_,exits,broken⟩
    simp only [expandDeps,folded]
    rfl

/-- A graph without broken targets is what the expansion is made for. -/
theorem acyclic_closed (whole : ∀ id ∈ graph.order, ¬Broken graph id) : Acyclic graph ∧ Closed graph := by
  have inMap (id d : TargetId) (edge : Dep graph id d) : id ∈ graph.order := by
    obtain ⟨target,located,_⟩ := edge
    exact (graph.mem_order id).mpr (by rw [located]; rfl)
  constructor
  · intro id back
    obtain ⟨d,edge,_⟩ := TransGen.head'_iff.mp back
    exact whole id (inMap id d edge) (.inl ⟨id,.refl,back⟩)
  · intro id d edge
    by_contra missing
    exact whole id (inMap id d edge) (.inr ⟨d,.single edge,by simpa using missing⟩)

/-- `analyze_deps` exits with an error just when some target reaches a cycle or a missing
target, and otherwise every target gets its expansion. -/
theorem analyzeDeps_exits_iff (graph : Targets) {keysOrder : List TargetId → List TargetId}
    (permutes : ∀ keys, (keysOrder keys).Perm keys) :
    expandDeps graph ≠ .error .outOfFuel ∧
      ((∃ failure, analyzeDeps keysOrder graph = .error (.failure failure) ∧ failure.message.isSome = true) ↔
        ∃ id ∈ graph.order, Broken graph id) ∧
      ((∀ id ∈ graph.order, ¬Broken graph id) → ∃ expanded, expandDeps graph = .ok expanded ∧ expanded.order = graph.order ∧
        ∀ id ∈ graph.order, ∃ target, expanded.find id = some target ∧ target.expandedDeps.Nodup ∧
          ∀ d, d ∈ target.expandedDeps ↔ TransGen (Dep graph) id d) := by
  obtain ⟨expanded,ran,whole⟩ | ⟨failure,ran,exits,broken⟩ := expandDeps_ends graph
  · obtain ⟨acyclic,closed⟩ := acyclic_closed whole
    obtain ⟨_,again,order,all⟩ := expandDeps_expanded graph acyclic closed
    have same := Except.ok.inj (ran.symm.trans again)
    subst same
    obtain ⟨sorted,ended,_⟩ := analyzeDeps_ok graph acyclic closed permutes
    refine ⟨by rw [ran]; nofun,⟨fun exit => ?_,fun bad => ?_⟩,fun _ => ⟨expanded,ran,order,fun id member => ?_⟩⟩
    · obtain ⟨failure,stopped,_⟩ := exit
      rw [ended] at stopped
      cases stopped
    · obtain ⟨id,member,broken⟩ := bad
      exact absurd broken (whole id member)
    · obtain ⟨target,located,listing⟩ := all id member
      exact ⟨target,located,listing.nodup,listing.mem_iff⟩
  · obtain ⟨id,member,bad⟩ := broken
    refine ⟨fun fuel => ?_,⟨fun _ => ⟨id,member,bad⟩,fun _ => ⟨failure,?_,exits⟩⟩,fun whole => absurd bad (whole id member)⟩
    · have same : failure = .outOfFuel := Except.error.inj (ran.symm.trans fuel)
      rw [same] at exits
      cases exits
    · simp only [analyzeDeps,ran]
      rfl

/-- Two targets that depend on each other, and one that depends on them. -/
def looped : Targets where
  order := [("a","user"),("a","x"),("a","y")]
  find id := List.lookup id [
    (("a","user"),⟨.pyBinary,⟨false,false,false,false,false⟩,[("a","x")]⟩),
    (("a","x"),⟨.other "cc_library",⟨false,false,false,false,false⟩,[("a","y")]⟩),
    (("a","y"),⟨.other "cc_library",⟨false,false,false,false,false⟩,[("a","x")]⟩)]
  nodup := by decide
  mem_order id := by
    rw [List.lookup_isSome_iff]
    simp only [List.mem_cons,List.not_mem_nil,or_false,exists_eq_or_imp,exists_eq_left,beq_iff_eq]

theorem analyzeDeps_exits_looped : ∃ failure, analyzeDeps List.reverse looped = .error (.failure failure) ∧
    failure.message.isSome = true := by
  have first : Dep looped ("a","user") ("a","x") := ⟨_,rfl,by decide⟩
  have there : Dep looped ("a","x") ("a","y") := ⟨_,rfl,by decide⟩
  have back : Dep looped ("a","y") ("a","x") := ⟨_,rfl,by decide⟩
  have broken : Broken looped ("a","user") := .inl ⟨("a","x"),.single first,.tail (.single there) back⟩
  exact (analyzeDeps_exits_iff looped List.reverse_perm).2.1.mpr ⟨("a","user"),by decide,broken⟩

end WebSearch.DependencyAnalyzer
