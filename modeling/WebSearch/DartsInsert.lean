import WebSearch.DartsFetch
import WebSearch.Library.Loop
import Mathlib.Algebra.Order.BigOperators.Group.List
import Mathlib.Algebra.Order.Ring.Nat

/-! `insert` places every node apart from all others. A place is marked used before the
nodes below are placed, and only cells with check zero are ever taken, so the cells
whose check is a used place are those of its siblings for good. -/
namespace WebSearch.Darts

structure Consistent (w : Units) : Prop where
  used_zero : w.used 0 = false
  used_lt : ∀ b, w.used b = true → b < w.size
  check_used : ∀ p, (w.array p).check ≠ 0 → w.used (w.array p).check = true
  check_end : ∀ p, w.size ≤ p → (w.array p).check = 0
  root : w.array 0 = ⟨1,0⟩

/-! The search for a place. -/

/-- The siblings with these codes can go there. -/
structure Free (w : Units) (begin : Nat) (codes : List Nat) : Prop where
  positive : 0 < begin
  unused : w.used begin = false
  cells : ∀ c ∈ codes, (w.array (begin + c)).check = 0

section Place
variable {w : Units} {first : Nat} {codes : List Nat}

theorem findPlace_free {fuel pos nonzero nextCheckPos : Nat} {moved : Bool} {place : Place}
    (found : findPlace w first codes fuel pos nonzero moved nextCheckPos = some place) (lower : first ≤ pos) :
    Free w place.begin (first :: codes) := by
  induction fuel generalizing pos nonzero moved nextCheckPos with
  | zero => exact nomatch found
  | succ fuel ih =>
    simp only [findPlace] at found
    split at found
    · exact ih found (by omega)
    · next empty =>
      split at found
      · exact ih found (by omega)
      · next free =>
        injection found with found
        rw [← found]
        simp only [Bool.or_eq_true,not_or,Bool.not_eq_true,List.any_eq_false,bne_iff_ne,ne_eq,not_not] at free
        refine ⟨by change 0 < pos + 1 - first; omega,free.1,?_⟩
        intro c member
        obtain here | other := List.mem_cons.mp member
        · change (w.array (pos + 1 - first + c)).check = 0
          rw [here,Nat.sub_add_cancel (by omega)]
          exact not_not.mp empty
        · exact free.2 c other

theorem findPlace_total (consistent : Consistent w) {fuel pos nonzero nextCheckPos : Nat} {moved : Bool}
    (some_fuel : 0 < fuel) (enough : w.size + first ≤ pos + fuel) :
    ∃ place, findPlace w first codes fuel pos nonzero moved nextCheckPos = some place := by
  induction fuel generalizing pos nonzero moved nextCheckPos with
  | zero => exact absurd some_fuel (Nat.lt_irrefl 0)
  | succ fuel ih =>
    have inside {p : Nat} (taken : (w.array p).check ≠ 0) : p < w.size := by
      apply Nat.lt_of_not_le
      intro beyond
      exact taken (consistent.check_end p beyond)
    simp only [findPlace]
    split
    · next taken =>
      have bound := inside taken
      exact ih (by omega) (by omega)
    · split
      · next blocked =>
        have bound : pos + 1 - first < w.size := by
          obtain used | taken := Bool.or_eq_true_iff.mp blocked
          · exact consistent.used_lt _ used
          · obtain ⟨c,_,taken⟩ := List.any_eq_true.mp taken
            have bound := inside (bne_iff_ne.mp taken)
            omega
        exact ih (by omega) (by omega)
      · exact ⟨_,rfl⟩

theorem place_free (consistent : Consistent w) (first : Nat) (codes : List Nat) :
    ∃ found, place w first codes = some found ∧ Free w found.begin (first :: codes) := by
  have total : ∃ found, place w first codes = some found := findPlace_total consistent (Nat.succ_pos _) (by omega)
  obtain ⟨found,same⟩ := total
  exact ⟨found,same,findPlace_free same (by omega)⟩

end Place

/-! What a step leaves alone. -/

/-- The cells of the used places that satisfy `S` are as before. -/
structure Keeps (S : Nat → Prop) (w after : Units) : Prop where
  used : ∀ b, w.used b = true → after.used b = true
  check : ∀ b, S b → w.used b = true → ∀ p, (after.array p).check = b ↔ (w.array p).check = b
  base : ∀ b, S b → w.used b = true → ∀ p, (w.array p).check = b → (after.array p).base = (w.array p).base

theorem Keeps.refl (S : Nat → Prop) (w : Units) : Keeps S w w where
  used _ used := used
  check _ _ _ _ := Iff.rfl
  base _ _ _ _ _ := rfl

theorem Keeps.trans {S T : Nat → Prop} {w middle after : Units} (first : Keeps S w middle) (second : Keeps T middle after)
    (within : ∀ b, S b → w.used b = true → T b) : Keeps S w after where
  used b used := second.used b (first.used b used)
  check b kept used p := (second.check b (within b kept used) (first.used b used) p).trans (first.check b kept used p)
  base b kept used p owned :=
    (second.base b (within b kept used) (first.used b used) p ((first.check b kept used p).mpr owned)).trans
      (first.base b kept used p owned)

theorem Keeps.mono {S T : Nat → Prop} {w after : Units} (keeps : Keeps T w after) (within : ∀ b, S b → T b) :
    Keeps S w after :=
  (Keeps.refl S w).trans keeps fun b kept _ => within b kept

section Mark
variable {w : Units}

theorem setCheck_array (begin : Nat) (codes : List Nat) (p : Nat) : (w.setCheck begin codes).array p =
    if p ∈ codes.map (begin + ·) then { w.array p with check := begin } else w.array p := by
  unfold Units.setCheck
  generalize w.array = array
  induction codes generalizing array with
  | nil => rfl
  | cons c codes ih =>
    rw [List.foldl_cons,ih]
    simp only [List.map_cons,List.mem_cons]
    by_cases here : p = begin + c
    · rw [here,Function.update_self]
      simp
    · rw [Function.update_of_ne here]
      simp [here]

section Taken
variable {place : Place} {codes : List Nat}

theorem mark_array (last p : Nat) : (w.mark place last codes).array p =
    if p ∈ codes.map (place.begin + ·) then { w.array p with check := place.begin } else w.array p :=
  setCheck_array place.begin codes p

theorem mark_used (last : Nat) (codes : List Nat) (b : Nat) : (w.mark place last codes).used b = if b = place.begin then true else w.used b :=
  Function.update_apply w.used place.begin true b

variable (consistent : Consistent w) (free : Free w place.begin codes)
include consistent free

theorem mark_cells (last p : Nat) :
    ((w.mark place last codes).array p).check = place.begin ↔ p ∈ codes.map (place.begin + ·) := by
  rw [mark_array]
  split
  · next here => exact ⟨fun _ => here,fun _ => rfl⟩
  · next other =>
    refine ⟨fun same => ?_,fun here => absurd here other⟩
    have positive := free.positive
    have used := consistent.check_used p (by omega)
    rw [same,free.unused] at used
    exact absurd used Bool.false_ne_true

theorem mark_keeps (last : Nat) : Keeps (fun _ => True) w (w.mark place last codes) := by
  refine ⟨?_,?_,?_⟩
  · intro b used
    rw [mark_used]
    split
    · rfl
    · exact used
  · intro b _ used p
    have other : place.begin ≠ b := by
      intro same
      rw [← same,free.unused] at used
      exact absurd used Bool.false_ne_true
    rw [mark_array]
    split
    · next here =>
      obtain ⟨c,inside,same⟩ := List.mem_map.mp here
      have empty := free.cells c inside
      rw [same] at empty
      have nonzero : 0 ≠ b := by
        intro zero
        rw [← zero,consistent.used_zero] at used
        exact absurd used Bool.false_ne_true
      rw [empty]
      exact ⟨fun equal => absurd equal other,fun equal => absurd equal nonzero⟩
    · exact Iff.rfl
  · intro b _ _ p _
    rw [mark_array]
    split <;> rfl

theorem mark_consistent {last : Nat} (greatest : ∀ c ∈ codes, c ≤ last) : Consistent (w.mark place last codes) := by
  have positive := free.positive
  have size : (w.mark place last codes).size = max w.size (place.begin + (last + 1)) := rfl
  refine ⟨?_,?_,?_,?_,?_⟩
  · rw [mark_used,if_neg (by omega)]
    exact consistent.used_zero
  · intro b used
    rw [mark_used] at used
    split at used
    · omega
    · have bound := consistent.used_lt b used
      omega
  · intro p taken
    rw [mark_array] at taken ⊢
    rw [mark_used]
    split at taken
    · next here => rw [if_pos here,if_pos rfl]
    · next other =>
      rw [if_neg other]
      split
      · rfl
      · exact consistent.check_used p taken
  · intro p beyond
    rw [mark_array,if_neg]
    · exact consistent.check_end p (by omega)
    · intro here
      obtain ⟨c,inside,same⟩ := List.mem_map.mp here
      have bound := greatest c inside
      omega
  · rw [mark_array,if_neg]
    · exact consistent.root
    · intro here
      obtain ⟨c,_,same⟩ := List.mem_map.mp here
      omega

end Taken

section Base
variable {b pos : Nat} (base : Int)

theorem setBase_array (p : Nat) :
    (w.setBase pos base).array p = if p = pos then { w.array p with base } else w.array p := by
  by_cases here : p = pos
  · rw [if_pos here,here]
    exact Function.update_self _ _ _
  · rw [if_neg here]
    exact Function.update_of_ne here _ _

theorem setBase_check (p : Nat) : ((w.setBase pos base).array p).check = (w.array p).check := by
  rw [setBase_array]
  split <;> rfl

/-- Writing the base of a cell keeps what belongs to other places. -/
theorem setBase_keeps (owned : (w.array pos).check = b) : Keeps (· ≠ b) w (w.setBase pos base) := by
  refine ⟨fun _ used => used,?_,?_⟩
  · intro c _ _ p
    rw [setBase_check]
  · intro c other _ p mine
    rw [setBase_array,if_neg]
    intro here
    rw [here,owned] at mine
    exact other mine.symm

theorem setBase_consistent (consistent : Consistent w) (positive : 0 < pos) : Consistent (w.setBase pos base) := by
  refine ⟨consistent.used_zero,consistent.used_lt,?_,?_,?_⟩
  · intro p taken
    rw [setBase_check] at taken ⊢
    exact consistent.check_used p taken
  · intro p beyond
    rw [setBase_check]
    exact consistent.check_end p beyond
  · rw [setBase_array,if_neg (by omega)]
    exact consistent.root

end Base
end Mark

/-! Placed nodes. -/

/-- The cell of a node has the index of its key when the key ends there, and else the
place of the siblings below. -/
def Linked (keys : List Bytes) (w : Units) (begin : Nat) (below : Nat → List Node → Prop) (node : Node) : Prop :=
  if (fetch keys node 0).2 = [] then (w.array (begin + node.code)).base = -node.left - 1
  else ∃ h : Nat, (w.array (begin + node.code)).base = h ∧ below h (fetch keys node 0).2

/-- The siblings have the place to themselves, and so have all nodes below; the places
satisfy `S`. -/
def Placed (keys : List Bytes) (S : Nat → Prop) (w : Units) : Nat → Nat → List Node → Prop
  | 0, _, _ => False
  | fuel + 1, begin, nodes =>
    S begin ∧ w.used begin = true ∧ (∀ p, (w.array p).check = begin ↔ p ∈ (nodes.map Node.code).map (begin + ·)) ∧
      ∀ node ∈ nodes, Linked keys w begin (Placed keys S w fuel) node

section Placed
variable {keys : List Bytes} {S : Nat → Prop} {w after : Units}

theorem Linked.imp {begin : Nat} {below below_after : Nat → List Node → Prop} {node : Node}
    (linked : Linked keys w begin below node)
    (base : (after.array (begin + node.code)).base = (w.array (begin + node.code)).base)
    (later : ∀ h children, below h children → below_after h children) :
    Linked keys after begin below_after node := by
  unfold Linked at linked ⊢
  rw [base]
  split at linked
  · next none => rwa [if_pos none]
  · next children =>
    obtain ⟨h,same,placed⟩ := linked
    rw [if_neg children]
    exact ⟨h,same,later h _ placed⟩

theorem Placed.keep {T : Nat → Prop} (keeps : Keeps S w after) (within : ∀ b, S b → T b) {fuel begin : Nat}
    {nodes : List Node} (placed : Placed keys S w fuel begin nodes) : Placed keys T after fuel begin nodes := by
  induction fuel generalizing begin nodes with
  | zero => exact placed
  | succ fuel ih =>
    obtain ⟨kept,used,cells,links⟩ := placed
    refine ⟨within begin kept,keeps.used begin used,?_,?_⟩
    · intro p
      rw [keeps.check begin kept used p,cells]
    · intro node member
      have mine : (w.array (begin + node.code)).check = begin :=
        (cells _).mpr (List.mem_map_of_mem (List.mem_map_of_mem member))
      exact (links node member).imp (keeps.base begin kept used _ mine) fun _ _ => ih

end Placed

section Insert
variable {keys : List Bytes} {pre : Bytes}

theorem Groups.greatest {codes : Nat → Nat} {depth left right : Nat} {nodes : List Node}
    (groups : Groups codes depth left right nodes) (some_node : nodes ≠ []) :
    ∀ c ∈ nodes.map Node.code, c ≤ (nodes.getLast some_node).code := by
  intro c member
  obtain ⟨node,inside,same⟩ := List.mem_map.mp member
  have ordered := groups.ordered
  rw [← List.dropLast_append_getLast some_node] at ordered inside
  rw [← same]
  obtain early | is_last := List.mem_append.mp inside
  · exact Nat.le_of_lt ((List.pairwise_append.mp ordered).2.2 node early _ (List.mem_singleton_self _))
  · exact Nat.le_of_eq (congrArg Node.code (List.mem_singleton.mp is_last))

theorem Groups.code_cases {left right : Nat} {nodes : List Node}
    (groups : Groups (keyCode keys pre.length) pre.length left right nodes) {node : Node} (member : node ∈ nodes) :
    node.code = 0 ∨ ∃ c : UInt8, node.code = c.toNat + 1 := by
  obtain ⟨lower,nonempty,upper⟩ := groups.bounds node member
  have coded := (groups.range node member node.left lower (by omega)).mpr ⟨Nat.le_refl _,nonempty⟩
  rw [← coded]
  unfold keyCode code
  split
  · exact .inr ⟨_,rfl⟩
  · exact .inl rfl

/-- `fetch` on a sibling: nothing below the end of a key, else the next siblings. -/
theorem Groups.fetch_child (sorted : keys.Pairwise (· ≤ ·)) {left right : Nat} {nodes : List Node}
    (range : Range keys pre left right) (groups : Groups (keyCode keys pre.length) pre.length left right nodes)
    {node : Node} (member : node ∈ nodes) :
    node.code = 0 ∧ fetch keys node 0 = (0,[]) ∨ ∃ (c : UInt8) (children : List Node), node.code = c.toNat + 1 ∧
      fetch keys node 0 = (0,children) ∧ children ≠ [] ∧ Range keys (pre ++ [c]) node.left node.right ∧
      Groups (keyCode keys (pre ++ [c]).length) (pre ++ [c]).length node.left node.right children := by
  obtain zero | ⟨c,coded⟩ := groups.code_cases member
  · refine .inl ⟨zero,fetch_leaf ?_ 0⟩
    intro i lower upper
    rw [groups.leaf range member zero lower upper,groups.depth_eq node member]
    exact Nat.lt_succ_self _
  · have child := groups.child range member coded
    have depth : node.depth = (pre ++ [c]).length := by
      rw [groups.depth_eq node member,List.length_append,List.length_singleton]
    obtain ⟨children,fetched,below⟩ := fetch_groups sorted node depth child (Int.lt_irrefl 0)
    refine .inr ⟨c,children,coded,fetched,?_,child,below⟩
    intro none
    obtain ⟨other,inside,_⟩ := below.covers node.left (Nat.le_refl _) child.nonempty
    rw [none] at inside
    exact absurd inside List.not_mem_nil

/-- What `insert` makes of the siblings of a node. -/
structure Inserted (keys : List Bytes) (fuel : Nat) (w : Units) (nodes : List Node) (begin : Nat) (after : Units) : Prop where
  consistent : Consistent after
  no_error : after.error = 0
  keeps : Keeps (fun _ => True) w after
  placed : Placed keys (fun b => w.used b = false) after fuel begin nodes

/-- The state of the loop over the siblings after those in `done`. -/
structure Filled (keys : List Bytes) (fuel : Nat) (marked : Units) (begin : Nat) (done : List Node) (w : Units) : Prop where
  consistent : Consistent w
  no_error : w.error = 0
  keeps : Keeps (· ≠ begin) marked w
  cells : ∀ p, (w.array p).check = begin ↔ (marked.array p).check = begin
  links : ∀ node ∈ done, Linked keys w begin (Placed keys (fun b => marked.used b = false) w fuel) node

section Fill
variable {fuel begin : Nat} {marked w : Units} {done : List Node} {node : Node} (used : marked.used begin = true)
include used

theorem Filled.setBase (filled : Filled keys fuel marked begin done w) (positive : 0 < begin)
    (mine : (marked.array (begin + node.code)).check = begin) (fresh : ∀ old ∈ done, old.code ≠ node.code) {base : Int}
    (link : ∀ after, (after.array (begin + node.code)).base = base → Keeps (· ≠ begin) w after →
      Linked keys after begin (Placed keys (fun b => marked.used b = false) after fuel) node) :
    Filled keys fuel marked begin (done ++ [node]) (w.setBase (begin + node.code) base) := by
  have owned := (filled.cells _).mpr mine
  have keeps := setBase_keeps base owned
  have other (b : Nat) (unused : marked.used b = false) : b ≠ begin := by
    intro same
    rw [same,used] at unused
    exact absurd unused.symm Bool.false_ne_true
  refine ⟨setBase_consistent base filled.consistent (by omega),filled.no_error,filled.keeps.trans keeps fun _ kept _ => kept,?_,?_⟩
  · intro p
    rw [setBase_check,filled.cells]
  · intro linked member
    obtain old | last := List.mem_append.mp member
    · apply (filled.links linked old).imp
      · rw [setBase_array,if_neg]
        have different := fresh linked old
        omega
      · intro h children placed
        exact placed.keep (keeps.mono other) fun _ kept => kept
    · rw [List.mem_singleton.mp last]
      apply link _ _ keeps
      rw [setBase_array,if_pos rfl]

theorem Filled.below (filled : Filled keys fuel marked begin done w) {h : Nat} {children : List Node} {after : Units}
    (mine : ∀ node ∈ done, (marked.array (begin + node.code)).check = begin)
    (inserted : Inserted keys fuel w children h after) : Filled keys fuel marked begin done after := by
  have still := filled.keeps.used begin used
  refine ⟨inserted.consistent,inserted.no_error,filled.keeps.trans inserted.keeps fun _ _ _ => trivial,?_,?_⟩
  · intro p
    rw [inserted.keeps.check begin trivial still,filled.cells]
  · intro node member
    apply (filled.links node member).imp
    · exact inserted.keeps.base begin trivial still _ ((filled.cells _).mpr (mine node member))
    · intro h children placed
      exact placed.keep (inserted.keeps.mono fun _ _ => trivial) fun _ kept => kept

theorem insertSibling_leaf (filled : Filled keys fuel marked begin done w) (positive : 0 < begin)
    (mine : (marked.array (begin + node.code)).check = begin) (fresh : ∀ old ∈ done, old.code ≠ node.code)
    (fetched : fetch keys node 0 = (0,[])) (below : Units → List Node → Option (Nat × Units)) :
    ∃ after, insertSibling keys below begin w node = some after ∧ Filled keys fuel marked begin (done ++ [node]) after := by
  have same : { w with error := 0 } = w := by
    rw [← filled.no_error]
  refine ⟨w.setBase (begin + node.code) (-node.left - 1),?_,?_⟩
  · rw [insertSibling,filled.no_error,fetched]
    simp only [same]
    rfl
  · apply filled.setBase used positive mine fresh
    intro after base _
    rw [Linked,fetched,if_pos rfl]
    exact base

theorem insertSibling_branch (filled : Filled keys fuel marked begin done w) (positive : 0 < begin)
    (mine : ∀ sibling ∈ done ++ [node], (marked.array (begin + sibling.code)).check = begin)
    (fresh : ∀ old ∈ done, old.code ≠ node.code) {children : List Node} (fetched : fetch keys node 0 = (0,children))
    (some_child : children ≠ []) {h : Nat} {middle : Units} (placed : insert keys fuel w children = some (h,middle))
    (inserted : Inserted keys fuel w children h middle) :
    ∃ after, insertSibling keys (insert keys fuel) begin w node = some after ∧
      Filled keys fuel marked begin (done ++ [node]) after := by
  have same : { w with error := 0 } = w := by
    rw [← filled.no_error]
  have not_empty : ¬children.isEmpty = true := by
    rw [List.isEmpty_iff]
    exact some_child
  have lower := filled.below used (fun old member => mine old (List.mem_append_left _ member)) inserted
  refine ⟨middle.setBase (begin + node.code) h,?_,?_⟩
  · rw [insertSibling,filled.no_error,fetched]
    simp only [same,if_neg not_empty,placed]
    rfl
  · apply lower.setBase used positive (mine node (List.mem_append_right _ (List.mem_singleton_self _))) fresh
    intro after base keeps
    rw [Linked,fetched,if_neg some_child]
    have unused (b : Nat) (new : w.used b = false) : marked.used b = false := by
      cases old : marked.used b with
      | false => rfl
      | true => exact absurd (new.symm.trans (filled.keeps.used b old)) Bool.false_ne_true
    have apart (b : Nat) (new : w.used b = false) : b ≠ begin := by
      intro same
      have old := unused b new
      rw [same,used] at old
      exact absurd old.symm Bool.false_ne_true
    exact ⟨h,base,inserted.placed.keep (keeps.mono apart) unused⟩

end Fill

theorem fill_siblings (sorted : keys.Pairwise (· ≤ ·)) {fuel begin left right : Nat} {nodes : List Node} {marked : Units}
    (range : Range keys pre left right) (groups : Groups (keyCode keys pre.length) pre.length left right nodes)
    (consistent : Consistent marked) (no_error : marked.error = 0) (used : marked.used begin = true) (positive : 0 < begin)
    (mine : ∀ node ∈ nodes, (marked.array (begin + node.code)).check = begin)
    (below : ∀ (c : UInt8) (node : Node) (children : List Node) (w : Units), Range keys (pre ++ [c]) node.left node.right →
      Groups (keyCode keys (pre ++ [c]).length) (pre ++ [c]).length node.left node.right children → Consistent w →
      w.error = 0 → ∃ h after, insert keys fuel w children = some (h,after) ∧ Inserted keys fuel w children h after) :
    ∃ after, nodes.foldlM (insertSibling keys (insert keys fuel) begin) marked = some after ∧
      Filled keys fuel marked begin nodes after := by
  apply Library.foldlM_ok (Filled keys fuel marked begin)
  · intro done node later w split filled
    have member : node ∈ nodes := by
      rw [split]
      exact List.mem_append_right _ List.mem_cons_self
    have early (sibling : Node) (inside : sibling ∈ done ++ [node]) : sibling ∈ nodes := by
      rw [split,← List.singleton_append,← List.append_assoc]
      exact List.mem_append_left _ inside
    have fresh : ∀ old ∈ done, old.code ≠ node.code := by
      intro old inside
      have ordered := groups.ordered
      rw [split] at ordered
      exact Nat.ne_of_lt ((List.pairwise_append.mp ordered).2.2 old inside node List.mem_cons_self)
    obtain ⟨_,fetched⟩ | ⟨c,children,_,fetched,some_child,child_range,child_groups⟩ := groups.fetch_child sorted range member
    · exact insertSibling_leaf used filled positive (mine node member) fresh fetched _
    · obtain ⟨h,middle,placed,inserted⟩ := below c node children w child_range child_groups filled.consistent filled.no_error
      exact insertSibling_branch used filled positive (fun sibling inside => mine sibling (early sibling inside)) fresh
        fetched some_child placed inserted
  · exact ⟨consistent,no_error,Keeps.refl _ _,fun _ => Iff.rfl,fun _ none => absurd none List.not_mem_nil⟩

theorem insert_placed (sorted : keys.Pairwise (· ≤ ·)) {fuel left right : Nat} {nodes : List Node} {w : Units}
    (range : Range keys pre left right) (groups : Groups (keyCode keys pre.length) pre.length left right nodes)
    (deep : ∀ i, i < keys.length → (keys.getD i []).length < pre.length + fuel)
    (consistent : Consistent w) (no_error : w.error = 0) :
    ∃ begin after, insert keys fuel w nodes = some (begin,after) ∧ Inserted keys fuel w nodes begin after := by
  have nonempty := range.nonempty
  have inside := range.inside
  induction fuel generalizing pre left right nodes w with
  | zero =>
    obtain ⟨rest,split⟩ := range.split (Nat.le_refl _) nonempty
    have short := deep left (by omega)
    rw [split,List.length_append] at short
    omega
  | succ fuel ih =>
    obtain ⟨node,member,_⟩ := groups.covers left (Nat.le_refl _) nonempty
    obtain ⟨first,rest,rfl⟩ := List.exists_cons_of_ne_nil (List.ne_nil_of_mem member)
    obtain ⟨found,placed,free⟩ := place_free consistent first.code (rest.map Node.code)
    obtain ⟨last,is_last⟩ : ∃ last, last = ((first :: rest).getLast (List.cons_ne_nil _ _)).code := ⟨_,rfl⟩
    have cells := mark_cells consistent free last
    have keeps := mark_keeps consistent free last
    have used : (w.mark found last (first.code :: rest.map Node.code)).used found.begin = true := by
      rw [mark_used,if_pos rfl]
    have mine (sibling : Node) (member : sibling ∈ first :: rest) :=
      (cells (found.begin + sibling.code)).mpr (List.mem_map_of_mem (List.mem_map_of_mem member))
    have below (c : UInt8) (node : Node) (children : List Node) (w : Units)
        (range : Range keys (pre ++ [c]) node.left node.right)
        (groups : Groups (keyCode keys (pre ++ [c]).length) (pre ++ [c]).length node.left node.right children)
        (consistent : Consistent w) (no_error : w.error = 0) :
        ∃ h after, insert keys fuel w children = some (h,after) ∧ Inserted keys fuel w children h after := by
      apply ih range groups _ consistent no_error range.nonempty range.inside
      intro i small
      have bound := deep i small
      rw [List.length_append,List.length_singleton]
      omega
    obtain ⟨after,looped,filled⟩ := fill_siblings sorted range groups
      (mark_consistent consistent free (is_last ▸ groups.greatest (List.cons_ne_nil first rest))) no_error used free.positive
      mine below
    refine ⟨found.begin,after,?_,filled.consistent,filled.no_error,?_,?_⟩
    · rw [insert,if_neg (by rw [no_error]; exact Int.lt_irrefl 0)]
      simp only [placed,← is_last,Option.bind_eq_bind,Option.bind_some]
      rw [List.map_cons,looped]
      rfl
    · apply keeps.trans filled.keeps
      intro b _ old same
      rw [same,free.unused] at old
      exact absurd old Bool.false_ne_true
    · refine ⟨free.unused,filled.keeps.used _ used,?_,?_⟩
      · intro p
        rw [filled.cells,cells]
        rfl
      · intro sibling member
        apply (filled.links sibling member).imp rfl
        intro h children placed
        apply placed.keep (Keeps.refl _ _)
        intro b unused
        cases old : w.used b with
        | false => rfl
        | true => exact absurd (unused.symm.trans (keeps.used b old)) Bool.false_ne_true

end Insert

/-! The whole array. -/

/-- What `build` leaves for sorted keys. -/
def Built (keys : List Bytes) (d : DoubleArray) : Prop :=
  ∃ w fuel nodes, d.array = some w.array ∧ w.array 0 = ⟨1,0⟩ ∧ Range keys [] 0 keys.length ∧
    Groups (keyCode keys 0) 0 0 keys.length nodes ∧ Placed keys (fun _ => True) w fuel 1 nodes

theorem start_check (d : DoubleArray) (p : Nat) : (d.start.array p).check = 0 := by
  unfold DoubleArray.start
  by_cases root : p = 0
  · simp only [root,Function.update_self]
  · simp only [Function.update_of_ne root]

theorem start_consistent (d : DoubleArray) : Consistent d.start := by
  refine ⟨rfl,?_,?_,fun p _ => start_check d p,rfl⟩
  · intro b used
    exact absurd used Bool.false_ne_true
  · intro p taken
    exact absurd (start_check d p) taken

theorem place_start (d : DoubleArray) (first : Nat) (codes : List Nat) :
    place d.start first codes = some ⟨1,first + 1,0,first + 1⟩ := by
  have pos : max (first + 1) d.start.nextCheckPos - 1 + 1 = first + 1 := by
    change max (first + 1) 0 - 1 + 1 = first + 1
    omega
  have begin : first + 1 - first = 1 := by omega
  have unused : d.start.used 1 = false := rfl
  have empty : (codes.any fun _ => (0 : Nat) != 0) = false := by
    rw [List.any_eq_false]
    intro c _ taken
    exact absurd taken Bool.false_ne_true
  rw [place,findPlace]
  simp only [pos,begin,start_check,unused,empty,ne_eq,not_true,if_false,Bool.or_self,Bool.false_eq_true]

theorem insert_start {keys : List Bytes} {d : DoubleArray} (no_error : d.error = 0) {fuel begin : Nat} {nodes : List Node}
    {after : Units} (inserted : insert keys fuel d.start nodes = some (begin,after)) : begin = 1 := by
  have not_failed : ¬d.start.error < 0 := by
    change ¬d.error < 0
    rw [no_error]
    exact Int.lt_irrefl 0
  cases fuel with
  | zero => exact nomatch inserted
  | succ fuel =>
    cases nodes with
    | nil =>
      rw [insert,if_neg not_failed] at inserted
      exact nomatch inserted
    | cons first rest =>
      rw [insert,if_neg not_failed] at inserted
      simp only [place_start,Option.bind_eq_bind,Option.bind_some] at inserted
      obtain ⟨filled,_,same⟩ := Option.bind_eq_some_iff.mp inserted
      injection same with same
      injection same with same
      exact same.symm

theorem length_le_sum {keys : List Bytes} {i : Nat} (inside : i < keys.length) :
    (keys.getD i []).length ≤ (keys.map List.length).sum := by
  rw [List.getD_eq_getElem _ _ inside]
  exact List.single_le_sum (fun _ _ => Nat.zero_le _) _ (List.mem_map_of_mem (List.getElem_mem inside))

theorem build_built {keys : List Bytes} (sorted : keys.Pairwise (· ≤ ·)) (some_key : keys ≠ []) {d : DoubleArray}
    (no_error : d.error = 0) : ∃ after, d.build keys = some (0,after) ∧ after.error = 0 ∧ Built keys after := by
  have range : Range keys [] 0 keys.length :=
    ⟨List.length_pos_of_ne_nil some_key,Nat.le_refl _,fun i inside => ⟨fun _ => ⟨Nat.zero_le i,inside⟩,fun _ => List.nil_prefix⟩⟩
  obtain ⟨nodes,fetched,groups⟩ := fetch_groups sorted (⟨0,0,0,keys.length⟩ : Node) rfl range (Int.lt_irrefl 0)
  have deep : ∀ i, i < keys.length → (keys.getD i []).length < ([] : Bytes).length + ((keys.map List.length).sum + 1) := by
    intro i inside
    have bound := length_le_sum inside
    rw [List.length_nil]
    omega
  obtain ⟨begin,w,inserted,placed⟩ := insert_placed sorted range groups deep (start_consistent d) no_error
  have first := insert_start no_error inserted
  subst first
  have same : { d.start with error := 0 } = d.start := by
    rw [← no_error]
    rfl
  have built : Placed keys (fun _ => True) w ((keys.map List.length).sum + 1) 1 nodes :=
    placed.placed.keep (Keeps.refl _ _) fun _ _ => trivial
  refine ⟨⟨some w.array,w.size + (2^8 + 1),w.error⟩,?_,placed.no_error,w,_,nodes,rfl,placed.consistent.root,range,groups,built⟩
  · rw [DoubleArray.build,if_neg (by rw [List.isEmpty_iff]; exact some_key),no_error,fetched]
    simp only [same,inserted,Option.bind_eq_bind,Option.bind_some]
    rw [placed.no_error]
    rfl

end WebSearch.Darts
