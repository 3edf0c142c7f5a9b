import WebSearch.DependencyAnalyzer
import WebSearch.Library.Loop

/-! Expansion of the dependencies of an acyclic, closed graph. What is cached is
the listing of everything a target reaches; what is not cached still has its
direct dependencies, although other targets were overwritten. -/
namespace WebSearch.DependencyAnalyzer
open Library Relation Function

def Dep (targets : Targets) (id d : TargetId) : Prop :=
  ∃ target, targets.find id = some target ∧ d ∈ target.expandedDeps

/-- Every dependency names an existing target. -/
def Closed (targets : Targets) : Prop := ∀ id d, Dep targets id d → (targets.find d).isSome = true

def Acyclic (targets : Targets) : Prop := ∀ id, ¬TransGen (Dep targets) id id

/-- The list is the expansion of the target: everything it depends on, directly or
not, each once and before its own dependencies. -/
def Expanded (targets : Targets) (id : TargetId) (list : List TargetId) : Prop :=
  Listing (Dep targets) (TransGen (Dep targets) id) list

def Targets.deps (targets : Targets) (id : TargetId) : Option (List TargetId) :=
  (targets.find id).map Target.expandedDeps

theorem dep_iff {targets : Targets} {id d : TargetId} :
    Dep targets id d ↔ ∃ list, targets.deps id = some list ∧ d ∈ list := by
  constructor
  · intro ⟨target,found,member⟩
    exact ⟨target.expandedDeps,by rw [Targets.deps,found,Option.map_some],member⟩
  · intro ⟨list,found,member⟩
    obtain ⟨target,present,rfl⟩ := Option.map_eq_some_iff.mp found
    exact ⟨target,present,member⟩

/-- Targets that differ in their data only. -/
structure SameDeps (targets other : Targets) : Prop where
  order : other.order = targets.order
  deps : ∀ id, other.deps id = targets.deps id

theorem SameDeps.find {targets other : Targets} (same : SameDeps targets other) (id : TargetId) :
    (other.find id).isSome = (targets.find id).isSome := by
  have equal := congrArg Option.isSome (same.deps id)
  simpa only [Targets.deps,Option.isSome_map] using equal

theorem sameDeps_data (targets : Targets) (id : TargetId) (mark : Data → Data) :
    SameDeps targets (targets.modify id fun target => {target with data := mark target.data}) := by
  refine ⟨rfl,fun other => ?_⟩
  simp only [Targets.deps,Targets.modify]
  split
  · rw [Option.map_map]
    rfl
  · rfl

/-- Marking the dependencies only changes data, and fails on no existing target. -/
theorem fillOptions_ok (target : Target) (deps : List TargetId) (targets : Targets)
    (present : ∀ d ∈ deps, (targets.find d).isSome = true) :
    ∃ marked, fillOptions target deps targets = .ok marked ∧ SameDeps targets marked := by
  have loop {f : Targets → TargetId → Except Failure Targets}
      (body : ∀ current d found, current.find d = some found →
        ∃ next, f current d = .ok next ∧ SameDeps current next) :
      ∃ marked, deps.foldlM f targets = .ok marked ∧ SameDeps targets marked := by
    apply foldlM_ok fun _ current => SameDeps targets current
    · intro done d rest current split same
      have exists_d := present d (by simp [split])
      rw [← same.find] at exists_d
      obtain ⟨found,located⟩ := Option.isSome_iff_exists.mp exists_d
      obtain ⟨next,stepped,after⟩ := body current d found located
      exact ⟨next,stepped,after.order.trans same.order,fun id => (after.deps id).trans (same.deps id)⟩
    · exact ⟨rfl,fun _ => rfl⟩
  have marks (mark : Data → Data) : ∃ marked, markDeps mark targets deps = .ok marked ∧ SameDeps targets marked := by
    apply loop
    intro current d found located
    exact ⟨_,by rw [located],sameDeps_data current d mark⟩
  unfold fillOptions
  split
  · exact marks _
  · split
    · apply loop
      intro current d found located
      rw [located]
      by_cases proto : found.type = .protoLibrary
      · exact ⟨_,if_pos proto,sameDeps_data current d fun data => {data with generatePhp := true}⟩
      · exact ⟨_,if_neg proto,rfl,fun _ => rfl⟩
    · exact marks _
    · exact marks _
    · exact ⟨targets,rfl,rfl,fun _ => rfl⟩

/-! The recursion. `graph` is the graph before the expansion, `targets` the state
of the targets now. -/
section Recursion
variable {graph targets : Targets}

structure Known (graph targets : Targets) (cache : Cache) : Prop where
  order : targets.order = graph.order
  cached : ∀ id list, cache id = some list → Expanded graph id list
  fresh : ∀ id, cache id = none → targets.deps id = graph.deps id

theorem Known.find {cache : Cache} (known : Known graph targets cache) (id : TargetId) :
    (targets.find id).isSome = (graph.find id).isSome := by
  apply Bool.eq_iff_iff.mpr
  rw [← targets.mem_order,← graph.mem_order,known.order]

/-- Entries are only added to the cache. -/
def Grows (cache later : Cache) : Prop := ∀ id list, cache id = some list → later id = some list

/-- How many targets can still be pushed on the recursion path. -/
def pending (targets : Targets) (roots : List TargetId) : Nat :=
  (targets.order.filter fun id => id ∉ roots).length

theorem pending_insert (roots : List TargetId) (id : TargetId) (present : (targets.find id).isSome = true)
    (fresh : id ∉ roots) : pending targets (roots.insert id) < pending targets roots := by
  have split : targets.order.filter (fun other => other ∉ roots.insert id) =
      (targets.order.filter fun other => other ∉ roots).filter fun other => other ≠ id := by
    rw [List.filter_filter]
    apply List.filter_congr
    intro other _
    simp [List.mem_insert_iff]
  unfold pending
  rw [split]
  apply List.length_filter_lt_length_iff_exists.mpr
  refine ⟨id,List.mem_filter.mpr ⟨(targets.mem_order id).mpr present,by simpa using fresh⟩,by simp⟩

/-- What a call promises: the expansion of its target, cached, with the roots as
they were. -/
def Finds (graph targets : Targets) (id : TargetId) (memo : Memo) (result : List TargetId × Memo) : Prop :=
  Expanded graph id result.1 ∧ result.2.cache id = some result.1 ∧ result.2.roots = memo.roots ∧
    Known graph targets result.2.cache ∧ Grows memo.cache result.2.cache

/-- After some of the dependencies the list has each of them and what it reaches. -/
structure Gathered (graph targets : Targets) (memo : Memo) (done : List TargetId)
    (state : List TargetId × Memo) : Prop where
  listing : Listing (Dep graph) (fun x => ∃ d ∈ done, ReflTransGen (Dep graph) d x) state.1
  roots : state.2.roots = memo.roots
  known : Known graph targets state.2.cache
  grows : Grows memo.cache state.2.cache

theorem Gathered.step (acyclic : Acyclic graph) {memo : Memo} {done : List TargetId} {d : TargetId}
    {state result : List TargetId × Memo} (before : Gathered graph targets memo done state)
    (found : Finds graph targets d state.2 result) :
    Gathered graph targets memo (done ++ [d]) ((d :: result.1).foldl Library.moveLast state.1,result.2) := by
  obtain ⟨expanded,_,roots,known,grows⟩ := found
  refine ⟨?_,roots.trans before.roots,known,fun id list cached => grows id list (before.grows id list cached)⟩
  apply (before.listing.moveLast (Listing.cons acyclic expanded) fun x y reached further => reached.trans further.to_reflTransGen).congr
  intro x
  simp only [List.mem_append,List.mem_singleton]
  constructor
  · intro found
    rcases found with ⟨e,member,reached⟩ | reached
    · exact ⟨e,.inl member,reached⟩
    · exact ⟨d,.inr rfl,reached⟩
  · intro ⟨e,member,reached⟩
    rcases member with member | rfl
    · exact .inl ⟨e,member,reached⟩
    · exact .inr reached

/-- The end of a call: the finished list goes into the cache and the target leaves
the path. -/
theorem Gathered.finds {memo : Memo} {id : TargetId} {deps : List TargetId} {state : List TargetId × Memo}
    (gathered : Gathered graph targets {memo with roots := memo.roots.insert id} deps state)
    (direct : graph.deps id = some deps) (fresh : id ∉ memo.roots) (uncached : memo.cache id = none) :
    Finds graph targets id memo (state.1,⟨update state.2.cache id (some state.1),state.2.roots.erase id⟩) := by
  have expanded : Expanded graph id state.1 := by
    apply gathered.listing.congr
    intro x
    rw [TransGen.head'_iff]
    apply exists_congr
    intro d
    apply and_congr_left
    intro _
    rw [dep_iff]
    simp [direct]
  refine ⟨expanded,update_self ..,?_,⟨gathered.known.order,?_,?_⟩,?_⟩
  · rw [gathered.roots,List.insert_of_not_mem fresh,List.erase_cons_head]
  · intro other list cached
    by_cases same : other = id
    · simp only [same,update_self,Option.some.injEq] at cached
      rw [same,← cached]
      exact expanded
    · simp only [update_of_ne same] at cached
      exact gathered.known.cached other list cached
  · intro other uncached
    by_cases same : other = id
    · simp [same] at uncached
    · simp only [update_of_ne same] at uncached
      exact gathered.known.fresh other uncached
  · intro other list cached
    have different : other ≠ id := by
      intro same
      simp [← same,cached] at uncached
    simp only [update_of_ne different]
    exact gathered.grows other list cached

theorem findAllDeps_ok (acyclic : Acyclic graph) (closed : Closed graph) (fuel : Nat) (id : TargetId) (memo : Memo)
    (known : Known graph targets memo.cache) (path : ∀ root ∈ memo.roots, TransGen (Dep graph) root id)
    (present : (graph.find id).isSome = true) (enough : pending targets memo.roots < fuel) :
    ∃ result, findAllDeps targets fuel id memo = .ok result ∧ Finds graph targets id memo result := by
  induction fuel generalizing id memo with
  | zero => exact absurd enough (Nat.not_lt_zero _)
  | succ fuel ih =>
    cases cached : memo.cache id with
    | some list =>
      refine ⟨(list,memo),by simp only [findAllDeps,cached],?_⟩
      exact ⟨known.cached id list cached,cached,rfl,known,fun _ _ entry => entry⟩
    | none =>
      have exists_id := present
      rw [← known.find] at exists_id
      obtain ⟨target,located⟩ := Option.isSome_iff_exists.mp exists_id
      have direct : graph.deps id = some target.expandedDeps := by
        rw [← known.fresh id cached,Targets.deps,located,Option.map_some]
      have fresh : id ∉ memo.roots := fun member => acyclic id (path id member)
      have room := pending_insert memo.roots id exists_id fresh
      let inner : Memo := {memo with roots := memo.roots.insert id}
      obtain ⟨final,folded,gathered⟩ : ∃ final, target.expandedDeps.foldlM
          (appendDep (findAllDeps targets fuel) targets id) ([],inner) = .ok final ∧
          Gathered graph targets inner target.expandedDeps final := by
        apply foldlM_ok fun done state => Gathered graph targets inner done state
        · intro done d rest state split before
          have edge : Dep graph id d := dep_iff.mpr ⟨_,direct,by simp [split]⟩
          have roots : state.2.roots = memo.roots.insert id := before.roots
          have inside (root : TargetId) (member : root ∈ state.2.roots) : TransGen (Dep graph) root d := by
            rw [roots] at member
            obtain rfl | older := List.mem_insert_iff.mp member
            · exact .single edge
            · exact (path root older).tail edge
          have offPath : d ∉ state.2.roots := fun member => acyclic d (inside d member)
          have exists_d := closed id d edge
          obtain ⟨result,called,found⟩ := ih d state.2 before.known inside exists_d (by rw [roots]; omega)
          rw [← known.find] at exists_d
          obtain ⟨_,located_d⟩ := Option.isSome_iff_exists.mp exists_d
          refine ⟨_,?_,before.step acyclic found⟩
          simp only [appendDep,if_neg offPath,located_d,called]
          rfl
        · refine ⟨?_,rfl,known,fun _ _ entry => entry⟩
          apply Listing.nil.congr
          simp
      refine ⟨(final.1,⟨update final.2.cache id (some final.1),final.2.roots.erase id⟩),?_,?_⟩
      · simp only [findAllDeps,cached,located,inner] at folded ⊢
        rw [folded]
        rfl
      · exact gathered.finds direct fresh cached

/-! The loop over the targets. -/

structure Progress (graph : Targets) (done : List TargetId) (state : Targets × Cache) : Prop where
  known : Known graph state.1 state.2
  expanded : ∀ id ∈ done, ∃ list, state.1.deps id = some list ∧ Expanded graph id list

theorem Closed.reached (closed : Closed graph) {id d : TargetId} (reached : TransGen (Dep graph) id d) :
    (graph.find d).isSome = true := by
  cases reached with
  | single edge => exact closed _ _ edge
  | tail _ edge => exact closed _ _ edge

theorem deps_modify (id : TargetId) (list : List TargetId) (present : (targets.find id).isSome = true)
    (other : TargetId) : (targets.modify id fun target => {target with expandedDeps := list}).deps other =
      if other = id then some list else targets.deps other := by
  by_cases same : other = id
  · obtain ⟨target,located⟩ := Option.isSome_iff_exists.mp present
    simp [Targets.deps,Targets.modify,same,located]
  · simp [Targets.deps,Targets.modify,same]

theorem find_modify (id : TargetId) (change : Target → Target) (other : TargetId) :
    ((targets.modify id change).find other).isSome = (targets.find other).isSome := by
  apply Bool.eq_iff_iff.mpr
  rw [← Targets.mem_order,← Targets.mem_order]
  rfl

theorem expandTarget_ok (acyclic : Acyclic graph) (closed : Closed graph) {done : List TargetId}
    {state : Targets × Cache} {id : TargetId} (present : (graph.find id).isSome = true)
    (before : Progress graph done state) :
    ∃ next, expandTarget state id = .ok next ∧ Progress graph (done ++ [id]) next := by
  obtain ⟨targets,cache⟩ := state
  obtain ⟨known,expanded⟩ := before
  have exists_id : (targets.find id).isSome = true := (known.find id).trans present
  obtain ⟨target,located⟩ := Option.isSome_iff_exists.mp exists_id
  have enough : pending targets [] < targets.order.length + 1 := Nat.lt_succ_of_le (List.length_filter_le _ _)
  obtain ⟨⟨list,memo⟩,called,listing,entry,_,later,grows⟩ :=
    findAllDeps_ok acyclic closed _ id ⟨cache,[]⟩ known (by simp) present enough
  have all_present : ∀ d ∈ list,
      ((targets.modify id fun target => {target with expandedDeps := list}).find d).isSome = true := by
    intro d member
    rw [find_modify,known.find]
    exact closed.reached ((listing.mem_iff d).mp member)
  obtain ⟨marked,filled,same⟩ := fillOptions_ok target list _ all_present
  have deps (other : TargetId) : marked.deps other = if other = id then some list else targets.deps other := by
    rw [same.deps,deps_modify id list exists_id]
  refine ⟨(marked,memo.cache),?_,⟨same.order.trans known.order,later.cached,?_⟩,?_⟩
  · have round : expandTarget (targets,cache) id =
        (fillOptions target list (targets.modify id fun target => {target with expandedDeps := list})).bind
          fun marked => .ok (marked,memo.cache) := by
      simp only [expandTarget,located,called]
      rfl
    rw [round,filled]
    rfl
  · intro other uncached
    have different : other ≠ id := by
      intro same
      subst same
      have hit : memo.cache other = some list := entry
      exact Option.some_ne_none list (hit.symm.trans uncached)
    rw [deps,if_neg different]
    exact later.fresh other uncached
  · intro other member
    rw [deps]
    by_cases own : other = id
    · rw [if_pos own]
      exact ⟨list,rfl,own ▸ listing⟩
    · rw [if_neg own]
      obtain older | new := List.mem_append.mp member
      · exact expanded other older
      · exact absurd (List.mem_singleton.mp new) own

end Recursion

theorem expandDeps_expanded (graph : Targets) (acyclic : Acyclic graph) (closed : Closed graph) :
    ∃ expanded, expandDeps graph = .ok expanded ∧ expanded.order = graph.order ∧
      ∀ id ∈ graph.order, ∃ target, expanded.find id = some target ∧ Expanded graph id target.expandedDeps := by
  obtain ⟨⟨expanded,cache⟩,folded,progress⟩ : ∃ final, graph.order.foldlM expandTarget (graph,fun _ => none) = .ok final ∧
      Progress graph graph.order final := by
    apply foldlM_ok fun done state => Progress graph done state
    · intro done id rest state split before
      have member : id ∈ graph.order := by simp [split]
      exact expandTarget_ok acyclic closed ((graph.mem_order id).mp member) before
    · exact ⟨⟨rfl,by simp,fun _ _ => rfl⟩,by simp⟩
  refine ⟨expanded,?_,progress.known.order,fun id member => ?_⟩
  · simp only [expandDeps,folded]
    rfl
  · obtain ⟨list,found,listing⟩ := progress.expanded id member
    obtain ⟨target,located,rfl⟩ := Option.map_eq_some_iff.mp found
    exact ⟨target,located,listing⟩

/-- Every target gets the list of exactly what it depends on, directly or not,
each once, and before its own dependencies. -/
theorem expandDeps_ok (graph : Targets) (acyclic : Acyclic graph) (closed : Closed graph) :
    ∃ expanded, expandDeps graph = .ok expanded ∧ expanded.order = graph.order ∧
      ∀ id ∈ graph.order, ∃ target, expanded.find id = some target ∧ target.expandedDeps.Nodup ∧
        (∀ d, d ∈ target.expandedDeps ↔ TransGen (Dep graph) id d) ∧
        target.expandedDeps.Pairwise fun first second => ¬TransGen (Dep graph) second first := by
  obtain ⟨expanded,ran,order,all⟩ := expandDeps_expanded graph acyclic closed
  refine ⟨expanded,ran,order,fun id member => ?_⟩
  obtain ⟨target,located,listing⟩ := all id member
  exact ⟨target,located,listing.nodup,listing.mem_iff,listing.ordered⟩

theorem acyclic_of_rank {graph : Targets} (rank : TargetId → Nat)
    (falls : ∀ id d, Dep graph id d → rank d < rank id) : Acyclic graph := by
  have reach {id d : TargetId} (reached : TransGen (Dep graph) id d) : rank d < rank id := by
    induction reached with
    | single edge => exact falls _ _ edge
    | tail _ edge ih => exact Nat.lt_trans (falls _ _ edge) ih
  exact fun id back => Nat.lt_irrefl _ (reach back)

theorem forall_dep {graph : Targets} {P : TargetId → TargetId → Prop}
    (all : ∀ id ∈ graph.order, ∀ list, graph.deps id = some list → ∀ d ∈ list, P id d) :
    ∀ id d, Dep graph id d → P id d := by
  intro id d ⟨target,located,member⟩
  apply all id ((graph.mem_order id).mpr (by rw [located]; rfl)) target.expandedDeps _ d member
  rw [Targets.deps,located,Option.map_some]

/-! What the expansion writes into the data of the targets. -/

def Dynamic (targets : Targets) (id : TargetId) : Prop :=
  ∃ target, targets.find id = some target ∧ target.data.dynamicLink = true

/-- The chosen targets, and no others, are marked to be built as dynamic libraries. -/
def Marked (targets marked : Targets) (chosen : TargetId → Prop) : Prop :=
  ∀ id found, targets.find id = some found → ∃ after, marked.find id = some after ∧
    after.data.dynamicLink = found.data.dynamicLink ∧
      (after.data.buildDynamic = true ↔ found.data.buildDynamic = true ∨ chosen id)

theorem Marked.refl (targets : Targets) : Marked targets targets fun _ => False :=
  fun _ found located => ⟨found,located,rfl,by rw [or_false]⟩

theorem Marked.trans {targets middle marked : Targets} {chosen more : TargetId → Prop} (first : Marked targets middle chosen)
    (second : Marked middle marked more) : Marked targets marked fun id => chosen id ∨ more id := by
  intro id found located
  obtain ⟨between,there,link,build⟩ := first id found located
  obtain ⟨after,here,same,built⟩ := second id between there
  exact ⟨after,here,same.trans link,by rw [built,build,or_assoc]⟩

theorem Marked.congr {targets marked : Targets} {chosen other : TargetId → Prop} (before : Marked targets marked chosen)
    (same : ∀ id, chosen id ↔ other id) : Marked targets marked other := by
  intro id found located
  obtain ⟨after,there,link,build⟩ := before id found located
  exact ⟨after,there,link,by rw [build,same]⟩

theorem marked_modify (targets : Targets) (id : TargetId) {change : Target → Target} {mark : Prop}
    (link : ∀ target, (change target).data.dynamicLink = target.data.dynamicLink)
    (build : ∀ target, (change target).data.buildDynamic = true ↔ target.data.buildDynamic = true ∨ mark) :
    Marked targets (targets.modify id change) fun other => mark ∧ other = id := by
  intro other found located
  by_cases same : other = id
  · refine ⟨change found,?_,link found,?_⟩
    · simp only [Targets.modify,if_pos same,located,Option.map_some]
    · rw [build]
      exact or_congr_right (and_iff_left same).symm
  · refine ⟨found,?_,rfl,by simp [same]⟩
    simp only [Targets.modify,if_neg same,located]

theorem loop_marked {f : Targets → TargetId → Except Failure Targets} {mark : Prop}
    (body : ∀ current d next, f current d = .ok next → SameDeps current next ∧ Marked current next fun id => mark ∧ id = d)
    {deps : List TargetId} {targets marked : Targets} (looped : deps.foldlM f targets = .ok marked) :
    SameDeps targets marked ∧ Marked targets marked fun id => mark ∧ id ∈ deps := by
  refine foldlM_except (fun done current => SameDeps targets current ∧ Marked targets current fun id => mark ∧ id ∈ done)
    ?_ ⟨⟨rfl,fun _ => rfl⟩,(Marked.refl targets).congr (by simp)⟩ looped
  intro done d rest current next _ ⟨same,before⟩ stepped
  obtain ⟨after,now⟩ := body current d next stepped
  refine ⟨⟨after.order.trans same.order,fun id => (after.deps id).trans (same.deps id)⟩,(before.trans now).congr ?_⟩
  intro id
  rw [List.mem_append,List.mem_singleton,and_or_left]

theorem markDeps_marked {mark : Data → Data} {chosen : Prop} {targets marked : Targets} {deps : List TargetId}
    (ran : markDeps mark targets deps = .ok marked) (link : ∀ data, (mark data).dynamicLink = data.dynamicLink)
    (build : ∀ data, (mark data).buildDynamic = true ↔ data.buildDynamic = true ∨ chosen) :
    SameDeps targets marked ∧ Marked targets marked fun id => chosen ∧ id ∈ deps := by
  apply loop_marked _ ran
  intro current d next stepped
  split at stepped
  · cases stepped
  · obtain rfl := Except.ok.inj stepped
    exact ⟨sameDeps_data current d mark,marked_modify current d (fun target => link target.data) fun target => build target.data⟩

theorem markProtoDeps_marked {targets marked : Targets} {deps : List TargetId} (ran : markProtoDeps targets deps = .ok marked) :
    SameDeps targets marked ∧ Marked targets marked fun id => False ∧ id ∈ deps := by
  apply loop_marked _ ran
  intro current d next stepped
  split at stepped
  · cases stepped
  · split at stepped
    · obtain rfl := Except.ok.inj stepped
      exact ⟨sameDeps_data current d fun data => {data with generatePhp := true},
        marked_modify current d (fun _ => rfl) fun _ => by rw [or_false]⟩
    · obtain rfl := Except.ok.inj stepped
      exact ⟨⟨rfl,fun _ => rfl⟩,(Marked.refl current).congr (by simp)⟩

theorem fillOptions_marked {target : Target} {deps : List TargetId} {targets marked : Targets}
    (filled : fillOptions target deps targets = .ok marked) : SameDeps targets marked ∧
      Marked targets marked fun id => target.data.dynamicLink = true ∧ id ∈ deps := by
  unfold fillOptions at filled
  split at filled
  · rename_i dynamic
    exact markDeps_marked filled (fun _ => rfl) fun _ => by simp [dynamic]
  · rename_i static
    have none_chosen : (target.data.dynamicLink = true) = False := eq_false static
    rw [none_chosen]
    split at filled
    · exact markProtoDeps_marked filled
    · exact markDeps_marked filled (fun _ => rfl) fun _ => by rw [or_false]
    · exact markDeps_marked filled (fun _ => rfl) fun _ => by rw [or_false]
    · obtain rfl := Except.ok.inj filled
      exact ⟨⟨rfl,fun _ => rfl⟩,(Marked.refl targets).congr (by simp)⟩

theorem expandTarget_marked {targets next : Targets} {cache later : Cache} {id : TargetId}
    (ran : expandTarget (targets,cache) id = .ok (next,later)) : ∃ target deps, targets.find id = some target ∧
      next.deps id = some deps ∧ Marked targets next fun other => target.data.dynamicLink = true ∧ other ∈ deps := by
  unfold expandTarget at ran
  dsimp only at ran
  split at ran
  · cases ran
  · rename_i target located
    cases called : findAllDeps targets (targets.order.length + 1) id ⟨cache,[]⟩ with
    | error failure =>
      rw [called] at ran
      cases ran
    | ok result =>
      obtain ⟨deps,memo⟩ := result
      rw [called] at ran
      cases filled : fillOptions target deps (targets.modify id fun target => {target with expandedDeps := deps}) with
      | error failure =>
        simp only [bind,Except.bind,filled] at ran
        cases ran
      | ok marked =>
        simp only [bind,Except.bind,filled] at ran
        obtain ⟨rfl,rfl⟩ := Prod.mk.inj (Except.ok.inj ran)
        obtain ⟨same,marks⟩ := fillOptions_marked filled
        refine ⟨target,deps,located,?_,?_⟩
        · rw [same.deps,deps_modify id deps (by rw [located]; rfl),if_pos rfl]
        · have written : Marked targets (targets.modify id fun target => {target with expandedDeps := deps})
              fun other => False ∧ other = id := marked_modify targets id (fun _ => rfl) fun _ => by rw [or_false]
          exact (written.trans marks).congr (by simp)

/-- What a dynamically linked target depends on is marked, and nothing else. -/
theorem expandDeps_marked {graph expanded : Targets} (acyclic : Acyclic graph) (closed : Closed graph)
    (ran : expandDeps graph = .ok expanded) :
    Marked graph expanded fun id => ∃ target, Dynamic graph target ∧ TransGen (Dep graph) target id := by
  cases folded : graph.order.foldlM expandTarget (graph,fun _ => none) with
  | error failure =>
    simp only [expandDeps,folded] at ran
    cases ran
  | ok final =>
    simp only [expandDeps,folded] at ran
    obtain rfl := Except.ok.inj ran
    obtain ⟨_,marked⟩ : Progress graph graph.order final ∧ Marked graph final.1 fun id =>
        ∃ target ∈ graph.order, Dynamic graph target ∧ TransGen (Dep graph) target id := by
      refine foldlM_except (fun done state => Progress graph done state ∧ Marked graph state.1 fun id =>
        ∃ target ∈ done, Dynamic graph target ∧ TransGen (Dep graph) target id) ?_ ?_ folded
      · intro done id rest state next split ⟨before,marks⟩ stepped
        have present : (graph.find id).isSome = true := (graph.mem_order id).mp (by simp [split])
        obtain ⟨_,again,progress⟩ := expandTarget_ok acyclic closed present before
        obtain rfl := Except.ok.inj (stepped.symm.trans again)
        obtain ⟨target,deps,located,listed,now⟩ := expandTarget_marked stepped
        obtain ⟨list,same,listing⟩ := progress.expanded id (by simp)
        obtain rfl := Option.some.inj (listed.symm.trans same)
        obtain ⟨original,found⟩ := Option.isSome_iff_exists.mp present
        obtain ⟨current,here,link,_⟩ := marks id original found
        obtain rfl := Option.some.inj (located.symm.trans here)
        have dynamic : Dynamic graph id ↔ target.data.dynamicLink = true := by
          rw [link]
          constructor
          · intro ⟨other,there,set⟩
            exact Option.some.inj (found.symm.trans there) ▸ set
          · intro set
            exact ⟨original,found,set⟩
        refine ⟨progress,(marks.trans now).congr fun other => ?_⟩
        rw [← dynamic,listing.mem_iff]
        simp only [List.mem_append,List.mem_singleton,or_and_right,exists_or,exists_eq_left]
      · exact ⟨⟨⟨rfl,by simp,fun _ _ => rfl⟩,by simp⟩,(Marked.refl graph).congr (by simp)⟩
    apply marked.congr
    intro id
    constructor
    · intro ⟨target,_,chosen⟩
      exact ⟨target,chosen⟩
    · intro ⟨target,⟨found,located,set⟩,reached⟩
      exact ⟨target,(graph.mem_order target).mpr (by rw [located]; rfl),⟨found,located,set⟩,reached⟩

/-- A swig library that needs a proto library directly and through another one. -/
def diamond : Targets where
  order := [("a","top"),("b","base"),("b","mid")]
  find id := List.lookup id [
    (("a","top"),⟨.swigLibrary,⟨false,false,false,false,false⟩,[("b","base"),("b","mid")]⟩),
    (("b","mid"),⟨.other "cc_library",⟨false,false,false,false,false⟩,[("b","base")]⟩),
    (("b","base"),⟨.protoLibrary,⟨false,false,false,false,false⟩,[]⟩)]
  nodup := by decide
  mem_order id := by
    rw [List.lookup_isSome_iff]
    simp only [List.mem_cons,List.not_mem_nil,or_false,exists_eq_or_imp,exists_eq_left,beq_iff_eq]
    tauto

theorem expandDeps_diamond : ∃ expanded, expandDeps diamond = .ok expanded ∧
    ∀ id ∈ diamond.order, ∃ target, expanded.find id = some target ∧ target.expandedDeps.Nodup := by
  have acyclic : Acyclic diamond :=
    acyclic_of_rank (fun id => if id = ("a","top") then 2 else if id = ("b","mid") then 1 else 0)
      (forall_dep (by decide))
  have closed : Closed diamond := forall_dep (by decide)
  obtain ⟨expanded,ran,_,all⟩ := expandDeps_ok diamond acyclic closed
  refine ⟨expanded,ran,fun id member => ?_⟩
  obtain ⟨target,located,distinct,_⟩ := all id member
  exact ⟨target,located,distinct⟩

end WebSearch.DependencyAnalyzer
