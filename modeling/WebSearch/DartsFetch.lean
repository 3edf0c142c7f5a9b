import WebSearch.Darts
import Mathlib.Data.List.GetD

/-! `fetch` on sorted keys: the siblings below a node are the groups of the keys with
its prefix by their next code. -/
namespace WebSearch.Darts

/-- The keys with the prefix are those from `left` on before `right`. -/
structure Range (keys : List Bytes) (pre : Bytes) (left right : Nat) : Prop where
  nonempty : left < right
  inside : right ≤ keys.length
  mem : ∀ i, i < keys.length → (pre <+: keys.getD i [] ↔ left ≤ i ∧ i < right)

/-- The nodes split the indices from `left` on before `right` by their codes. -/
structure Groups (codes : Nat → Nat) (depth left right : Nat) (nodes : List Node) : Prop where
  ordered : nodes.Pairwise fun a b => a.code < b.code
  depth_eq : ∀ node ∈ nodes, node.depth = depth + 1
  bounds : ∀ node ∈ nodes, left ≤ node.left ∧ node.left < node.right ∧ node.right ≤ right
  range : ∀ node ∈ nodes, ∀ i, left ≤ i → i < right → (codes i = node.code ↔ node.left ≤ i ∧ i < node.right)
  covers : ∀ i, left ≤ i → i < right → ∃ node ∈ nodes, node.code = codes i

section Loop
variable {codes : Nat → Nat} {depth left i : Nat}

theorem Groups.empty (depth left : Nat) : Groups codes depth left left [] where
  ordered := List.Pairwise.nil
  depth_eq _ member := absurd member List.not_mem_nil
  bounds _ member := absurd member List.not_mem_nil
  range _ member := absurd member List.not_mem_nil
  covers i lower upper := by omega

/-- A key with a new, greater code starts a group of its own. -/
theorem Groups.start {nodes : List Node} (groups : Groups codes depth left i nodes) (lower : left ≤ i)
    (new : ∀ j, left ≤ j → j < i → codes j < codes i) :
    Groups codes depth left (i + 1) (nodes ++ [⟨codes i,depth + 1,i,i + 1⟩]) where
  ordered := by
    rw [List.pairwise_append]
    refine ⟨groups.ordered,List.pairwise_singleton _ _,?_⟩
    intro node member last is_last
    rw [List.mem_singleton.mp is_last]
    obtain ⟨left_le,nonempty,right_le⟩ := groups.bounds node member
    have same := (groups.range node member node.left left_le (by omega)).mpr ⟨Nat.le_refl _,nonempty⟩
    rw [← same]
    exact new node.left left_le (by omega)
  depth_eq node member := by
    obtain old | last := List.mem_append.mp member
    · exact groups.depth_eq node old
    · rw [List.mem_singleton.mp last]
  bounds node member := by
    obtain old | last := List.mem_append.mp member
    · have bounds := groups.bounds node old
      omega
    · rw [List.mem_singleton.mp last]
      exact ⟨lower,Nat.lt_succ_self i,Nat.le_refl _⟩
  range node member j lower_j upper := by
    obtain old | last := List.mem_append.mp member
    · obtain ⟨left_le,nonempty,right_le⟩ := groups.bounds node old
      obtain before | here := Nat.lt_succ_iff_lt_or_eq.mp upper
      · exact groups.range node old j lower_j before
      · have same := (groups.range node old node.left left_le (by omega)).mpr ⟨Nat.le_refl _,nonempty⟩
        have less := new node.left left_le (by omega)
        rw [here]
        omega
    · rw [List.mem_singleton.mp last]
      obtain before | here := Nat.lt_succ_iff_lt_or_eq.mp upper
      · have less := new j lower_j before
        change codes j = codes i ↔ i ≤ j ∧ j < i + 1
        omega
      · rw [here]
        change codes i = codes i ↔ i ≤ i ∧ i < i + 1
        omega
  covers j lower_j upper := by
    obtain before | here := Nat.lt_succ_iff_lt_or_eq.mp upper
    · obtain ⟨node,member,same⟩ := groups.covers j lower_j before
      exact ⟨node,List.mem_append_left _ member,same⟩
    · exact ⟨_,List.mem_append_right _ (List.mem_singleton_self _),by rw [here]⟩

/-- A key with the code of the last group joins it. -/
theorem Groups.join {nodes : List Node} {last : Node}
    (groups : Groups codes depth left i (nodes ++ [{ last with right := i }])) (same : codes i = last.code) :
    Groups codes depth left (i + 1) (nodes ++ [{ last with right := i + 1 }]) := by
  have old_last : { last with right := i } ∈ nodes ++ [{ last with right := i }] :=
    List.mem_append_right _ (List.mem_singleton_self _)
  have new_last : { last with right := i + 1 } ∈ nodes ++ [{ last with right := i + 1 }] :=
    List.mem_append_right _ (List.mem_singleton_self _)
  have depth_last : last.depth = depth + 1 := groups.depth_eq { last with right := i } old_last
  have bounds_last : left ≤ last.left ∧ last.left < i ∧ i ≤ i := groups.bounds { last with right := i } old_last
  have range_last : ∀ j, left ≤ j → j < i → (codes j = last.code ↔ last.left ≤ j ∧ j < i) := groups.range { last with right := i } old_last
  obtain ⟨ordered,_,below⟩ := List.pairwise_append.mp groups.ordered
  have below_last : ∀ node ∈ nodes, node.code < last.code :=
    fun node member => below node member { last with right := i } (List.mem_singleton_self _)
  constructor
  · refine List.pairwise_append.mpr ⟨ordered,List.pairwise_singleton _ _,?_⟩
    intro node member other is_last
    rw [List.mem_singleton.mp is_last]
    exact below_last node member
  · intro node member
    obtain old | is_last := List.mem_append.mp member
    · exact groups.depth_eq node (List.mem_append_left _ old)
    · rw [List.mem_singleton.mp is_last]
      exact depth_last
  · intro node member
    obtain old | is_last := List.mem_append.mp member
    · have bounds := groups.bounds node (List.mem_append_left _ old)
      omega
    · rw [List.mem_singleton.mp is_last]
      change left ≤ last.left ∧ last.left < i + 1 ∧ i + 1 ≤ i + 1
      omega
  · intro node member j lower upper
    obtain old | is_last := List.mem_append.mp member
    · obtain before | here := Nat.lt_succ_iff_lt_or_eq.mp upper
      · exact groups.range node (List.mem_append_left _ old) j lower before
      · have bounds := groups.bounds node (List.mem_append_left _ old)
        have less := below_last node old
        rw [here]
        omega
    · rw [List.mem_singleton.mp is_last]
      change codes j = last.code ↔ last.left ≤ j ∧ j < i + 1
      obtain before | here := Nat.lt_succ_iff_lt_or_eq.mp upper
      · have range := range_last j lower before
        omega
      · rw [here]
        omega
  · intro j lower upper
    obtain before | here := Nat.lt_succ_iff_lt_or_eq.mp upper
    · obtain ⟨node,member,same_code⟩ := groups.covers j lower before
      obtain old | is_last := List.mem_append.mp member
      · exact ⟨node,List.mem_append_left _ old,same_code⟩
      · rw [List.mem_singleton.mp is_last] at same_code
        exact ⟨_,new_last,same_code⟩
    · exact ⟨_,new_last,by rw [here,same]⟩

/-- The loop from key `i` on, when the keys before it are grouped. -/
theorem fetchLoop_groups {right : Nat} (sorted : ∀ i j, left ≤ i → i ≤ j → j < right → codes i ≤ codes j)
    {keys : List Bytes} {prev : Nat} {siblings : List Node}
    (coded : ∀ j key, keys[j]? = some key → depth ≤ key.length ∧ code key depth = codes (i + j))
    (stop : i + keys.length = right) (lower : left ≤ i)
    (groups : Groups codes depth left i (closeLast i siblings).reverse)
    (first : siblings = [] → i = left ∧ prev = 0)
    (last : ∀ node nodes, siblings = node :: nodes → left < i ∧ node.code = prev ∧ codes (i - 1) = prev) :
    ∃ nodes, fetchLoop depth keys i prev siblings = some nodes ∧
      Groups codes depth left right (closeLast right nodes).reverse := by
  induction keys generalizing i prev siblings with
  | nil =>
    have here : i = right := stop
    exact ⟨siblings,rfl,here ▸ groups⟩
  | cons key keys ih =>
    rw [List.length_cons] at stop
    obtain ⟨reaches,cur⟩ := coded 0 key rfl
    rw [Nat.add_zero] at cur
    have coded_rest : ∀ j later, keys[j]? = some later → depth ≤ later.length ∧ code later depth = codes (i + 1 + j) := by
      intro j later found
      have coded := coded (j + 1) later (by rw [List.getElem?_cons_succ,found])
      rwa [show i + (j + 1) = i + 1 + j by omega] at coded
    have not_less : ¬codes i < prev := by
      cases siblings with
      | nil =>
        rw [(first rfl).2]
        exact Nat.not_lt_zero _
      | cons node nodes =>
        obtain ⟨inside,_,prev_eq⟩ := last node nodes rfl
        rw [← prev_eq]
        exact Nat.not_lt.mpr (sorted (i - 1) i (by omega) (by omega) (by omega))
    rw [fetchLoop,if_neg (Nat.not_lt.mpr reaches)]
    simp only [cur,if_neg not_less]
    split
    · next new =>
      apply ih coded_rest (by omega) (by omega)
      · change Groups codes depth left (i + 1) (⟨codes i,depth + 1,i,i + 1⟩ :: closeLast i siblings).reverse
        rw [List.reverse_cons]
        apply groups.start lower
        intro j lower_j before
        cases siblings with
        | nil =>
          have start := (first rfl).1
          omega
        | cons node nodes =>
          obtain ⟨inside,_,prev_eq⟩ := last node nodes rfl
          have different : codes i ≠ prev := new.resolve_right (List.cons_ne_nil _ _)
          have below := sorted j (i - 1) lower_j (by omega) (by omega)
          have above := sorted (i - 1) i (by omega) (by omega) (by omega)
          omega
      · intro none
        exact absurd none (List.cons_ne_nil _ _)
      · intro node nodes same
        injection same with same_node
        exact ⟨by omega,by rw [← same_node],by rw [Nat.add_sub_cancel]⟩
    · next old =>
      obtain ⟨same_code,some_node⟩ := not_or.mp old
      obtain ⟨node,nodes,rfl⟩ := List.exists_cons_of_ne_nil some_node
      obtain ⟨inside,node_code,_⟩ := last node nodes rfl
      have same : codes i = node.code := (not_not.mp same_code).trans node_code.symm
      apply ih coded_rest (by omega) (by omega)
      · simp only [closeLast,List.reverse_cons] at groups ⊢
        exact groups.join same
      · intro none
        exact absurd none (List.cons_ne_nil _ _)
      · intro other others split
        injection split with same_node
        exact ⟨by omega,by rw [← same_node,same],by rw [Nat.add_sub_cancel]⟩

end Loop

/-! Codes of keys. -/

theorem code_eq_zero {key : Bytes} {depth : Nat} : code key depth = 0 ↔ key.length ≤ depth := by
  unfold code
  split
  · next c found =>
    have inside := (List.getElem?_eq_some_iff.mp found).1
    omega
  · next missing =>
    have outside := List.getElem?_eq_none_iff.mp missing
    omega

theorem code_eq_succ {key : Bytes} {depth : Nat} {c : UInt8} : code key depth = c.toNat + 1 ↔ key[depth]? = some c := by
  unfold code
  cases found : key[depth]? with
  | none => exact ⟨fun zero => absurd zero.symm (Nat.succ_ne_zero _),fun none => nomatch none⟩
  | some d =>
    simp only [Option.some.injEq]
    rw [Nat.add_right_cancel_iff,UInt8.toNat_inj]

theorem prefix_concat_iff {pre key : Bytes} {c : UInt8} :
    pre ++ [c] <+: key ↔ pre <+: key ∧ code key pre.length = c.toNat + 1 := by
  rw [code_eq_succ]
  constructor
  · intro extends_
    refine ⟨(List.prefix_append pre [c]).trans extends_,?_⟩
    obtain ⟨rest,rfl⟩ := extends_
    rw [List.append_assoc,List.getElem?_append_right (Nat.le_refl _),Nat.sub_self]
    rfl
  · intro found
    obtain ⟨⟨rest,rfl⟩,next⟩ := found
    rw [List.getElem?_append_right (Nat.le_refl _),Nat.sub_self] at next
    cases rest with
    | nil => exact nomatch next
    | cons d rest =>
      injection next with same
      rw [same]
      exact ⟨rest,by rw [List.append_assoc,List.singleton_append]⟩

theorem code_le {pre a b : Bytes} (order : pre ++ a ≤ pre ++ b) :
    code (pre ++ a) pre.length ≤ code (pre ++ b) pre.length := by
  induction pre with
  | nil =>
    cases a with
    | nil => exact Nat.zero_le _
    | cons x a =>
      cases b with
      | nil => exact absurd order (by simp)
      | cons y b =>
        obtain less | ⟨same,_⟩ := List.cons_le_cons_iff.mp order
        · exact Nat.succ_le_succ (Nat.le_of_lt (UInt8.lt_iff_toNat_lt.mp less))
        · exact Nat.succ_le_succ (Nat.le_of_eq (congrArg UInt8.toNat same))
  | cons c pre ih =>
    obtain less | ⟨_,order⟩ := List.cons_le_cons_iff.mp order
    · exact absurd less (UInt8.lt_irrefl c)
    · exact ih order

/-! The siblings below a node. -/

def keyCode (keys : List Bytes) (depth i : Nat) : Nat := code (keys.getD i []) depth

variable {keys : List Bytes} {pre : Bytes}

theorem segment_get {left right j : Nat} {key : Bytes} (found : ((keys.drop left).take (right - left))[j]? = some key) :
    left + j < right ∧ keys.getD (left + j) [] = key := by
  rw [List.getElem?_take] at found
  split at found
  · next inside =>
    rw [List.getElem?_drop] at found
    exact ⟨by omega,by rw [List.getD_eq_getElem?_getD,found,Option.getD_some]⟩
  · exact nomatch found

theorem Range.split {left right : Nat} (range : Range keys pre left right) {i : Nat} (lower : left ≤ i) (upper : i < right) :
    ∃ rest, keys.getD i [] = pre ++ rest := by
  have inside := range.inside
  obtain ⟨rest,same⟩ := (range.mem i (by omega)).mpr ⟨lower,upper⟩
  exact ⟨rest,same.symm⟩

theorem fetch_groups (sorted : keys.Pairwise (· ≤ ·)) (node : Node) (depth : node.depth = pre.length)
    (range : Range keys pre node.left node.right) {error : Int} (no_error : ¬error < 0) :
    ∃ nodes, fetch keys node error = (error,nodes) ∧
      Groups (keyCode keys pre.length) pre.length node.left node.right nodes := by
  have inside := range.inside
  have nonempty := range.nonempty
  have ascending : ∀ i j, node.left ≤ i → i ≤ j → j < node.right → keyCode keys pre.length i ≤ keyCode keys pre.length j := by
    intro i j lower le upper
    obtain same | less := Nat.eq_or_lt_of_le le
    · exact Nat.le_of_eq (congrArg _ same)
    · obtain ⟨a,first⟩ := range.split lower (by omega)
      obtain ⟨b,second⟩ := range.split (by omega) upper
      have order := List.pairwise_iff_getElem.mp sorted i j (by omega) (by omega) less
      rw [← List.getD_eq_getElem _ [],← List.getD_eq_getElem _ [],first,second] at order
      rw [keyCode,keyCode,first,second]
      exact code_le order
  have coded : ∀ j key, ((keys.drop node.left).take (node.right - node.left))[j]? = some key →
      pre.length ≤ key.length ∧ code key pre.length = keyCode keys pre.length (node.left + j) := by
    intro j key found
    obtain ⟨upper,same⟩ := segment_get found
    obtain ⟨rest,split⟩ := range.split (Nat.le_add_right _ _) upper
    rw [keyCode,same]
    refine ⟨?_,rfl⟩
    rw [← same,split,List.length_append]
    exact Nat.le_add_right _ _
  have stop : node.left + ((keys.drop node.left).take (node.right - node.left)).length = node.right := by
    rw [List.length_take,List.length_drop]
    omega
  have start : Groups (keyCode keys pre.length) pre.length node.left node.left (closeLast node.left []).reverse :=
    Groups.empty _ _
  obtain ⟨siblings,fetched,groups⟩ := fetchLoop_groups ascending coded stop (Nat.le_refl _) start
    (fun _ => ⟨rfl,rfl⟩) (fun _ _ none => nomatch none)
  refine ⟨_,?_,groups⟩
  rw [fetch,if_neg no_error,depth,fetched]

theorem fetchLoop_short {depth : Nat} {keys : List Bytes} (short : ∀ key ∈ keys, key.length < depth) (i prev : Nat)
    (siblings : List Node) : fetchLoop depth keys i prev siblings = some siblings := by
  induction keys generalizing i with
  | nil => rfl
  | cons key keys ih =>
    rw [fetchLoop,if_pos (short key List.mem_cons_self)]
    exact ih (fun later member => short later (List.mem_cons_of_mem _ member)) (i + 1)

theorem fetch_leaf {node : Node} (short : ∀ i, node.left ≤ i → i < node.right → (keys.getD i []).length < node.depth)
    (error : Int) : fetch keys node error = (error,[]) := by
  have all : ∀ key ∈ (keys.drop node.left).take (node.right - node.left), key.length < node.depth := by
    intro key member
    obtain ⟨j,found⟩ := List.mem_iff_getElem?.mp member
    obtain ⟨upper,same⟩ := segment_get found
    rw [← same]
    exact short _ (Nat.le_add_right _ _) upper
  rw [fetch,fetchLoop_short all]
  split <;> rfl

theorem Groups.leaf {left right : Nat} {nodes : List Node} (range : Range keys pre left right)
    (groups : Groups (keyCode keys pre.length) pre.length left right nodes) {node : Node} (member : node ∈ nodes)
    (zero : node.code = 0) {i : Nat} (lower : node.left ≤ i) (upper : i < node.right) : keys.getD i [] = pre := by
  have bounds := groups.bounds node member
  have coded := (groups.range node member i (by omega) (by omega)).mpr ⟨lower,upper⟩
  obtain ⟨rest,split⟩ := range.split (i := i) (by omega) (by omega)
  rw [zero,keyCode,code_eq_zero,split,List.length_append] at coded
  have none : rest = [] := List.eq_nil_of_length_eq_zero (by omega)
  rw [split,none,List.append_nil]

theorem Groups.child {left right : Nat} {nodes : List Node} (range : Range keys pre left right)
    (groups : Groups (keyCode keys pre.length) pre.length left right nodes) {node : Node} (member : node ∈ nodes)
    {c : UInt8} (coded : node.code = c.toNat + 1) : Range keys (pre ++ [c]) node.left node.right := by
  have bounds := groups.bounds node member
  have inside := range.inside
  refine ⟨bounds.2.1,by omega,?_⟩
  intro i small
  have at_depth : keyCode keys pre.length i = code (keys.getD i []) pre.length := rfl
  rw [prefix_concat_iff,range.mem i small,← coded,← at_depth]
  constructor
  · intro found
    exact (groups.range node member i found.1.1 found.1.2).mp found.2
  · intro here
    have here_range : left ≤ i ∧ i < right := by omega
    exact ⟨here_range,(groups.range node member i here_range.1 here_range.2).mpr here⟩

theorem Groups.absent {left right : Nat} {nodes : List Node} (range : Range keys pre left right)
    (groups : Groups (keyCode keys pre.length) pre.length left right nodes) {c : UInt8}
    (none : ∀ node ∈ nodes, node.code ≠ c.toNat + 1) {i : Nat} (inside : i < keys.length) :
    ¬pre ++ [c] <+: keys.getD i [] := by
  rw [prefix_concat_iff,range.mem i inside]
  intro found
  obtain ⟨node,member,same⟩ := groups.covers i found.1.1 found.1.2
  exact none node member (same.trans found.2)

end WebSearch.Darts
