import WebSearch.Trie
import WebSearch.Library.Ascending
import Mathlib.Data.List.Infix
import Mathlib.Data.List.Lex

/-! `Trie::search` with a cap. The recursion goes back as soon as there are enough
strings, but the callers go on with their other edges, and each child is looked at
before the cap is. -/
namespace WebSearch
open Library

namespace TrieNode

mutual

/-- What is found below a node, when so many more strings are asked for. -/
def capped : Nat → TrieNode → List Chars
  | left, node count children =>
    let own : List Chars := if 0 < count then [[]] else []
    if left ≤ own.length then own else own ++ cappedEdges (left - own.length) children

def cappedEdges : Nat → List (Int8 × TrieNode) → List Chars
  | _, [] => []
  | left, (c,child) :: edges =>
    let here := (capped left child).map (List.cons c)
    here ++ cappedEdges (left - here.length) edges

end

mutual

theorem searchRecursively_capped {cap : UInt32} (positive : cap ≠ 0) (s : Chars) : ∀ (n : TrieNode) (results : List Chars),
    searchRecursively cap s n results = results ++ (capped (cap.toNat - results.length) n).map (s ++ ·)
  | node count children, results => by
    rw [searchRecursively,capped]
    by_cases counted : 0 < count
    · simp only [if_pos counted,List.length_append,List.length_singleton]
      by_cases full : cap.toNat ≤ results.length + 1
      · rw [if_pos ⟨positive,full⟩,if_pos (by omega)]
        simp
      · rw [if_neg fun reached => full reached.2,if_neg (by omega),searchEdges_capped positive s children]
        simp [Nat.sub_sub]
    · simp only [if_neg counted,List.length_nil]
      by_cases full : cap.toNat ≤ results.length
      · rw [if_pos ⟨positive,full⟩,if_pos (by omega)]
        simp
      · rw [if_neg fun reached => full reached.2,if_neg (by omega),searchEdges_capped positive s children]
        simp

theorem searchEdges_capped {cap : UInt32} (positive : cap ≠ 0) (s : Chars) : ∀ (children : List (Int8 × TrieNode)) (results : List Chars),
    searchEdges cap s children results = results ++ (cappedEdges (cap.toNat - results.length) children).map (s ++ ·)
  | [], results => by simp [searchEdges,cappedEdges]
  | (c,child) :: children, results => by
    rw [searchEdges,searchEdges_capped positive s children,searchRecursively_capped positive (s ++ [c]) child,cappedEdges]
    simp [Nat.sub_sub,Function.comp_def]

end

/-- A character more than what a string properly begins with. -/
def Beside (x t : Chars) : Prop := t ≠ [] ∧ t.dropLast <+: x ∧ t.dropLast ≠ x

instance besideDecidable (x t : Chars) : Decidable (Beside x t) :=
  inferInstanceAs (Decidable (t ≠ [] ∧ t.dropLast <+: x ∧ t.dropLast ≠ x))

/-- The first `k` strings, and those of the others that are beside the last of these. -/
def cut (k : Nat) (strings : List Chars) : List Chars :=
  strings.take k ++ (strings.drop k).filter fun t => strings[k - 1]?.any fun x => Beside x t

theorem beside_cons_self (c : Int8) (x : Chars) {t : Chars} (nonempty : t ≠ []) :
    Beside (c :: x) (c :: t) ↔ Beside x t := by
  simp [Beside,nonempty,List.dropLast_cons_of_ne_nil nonempty]

theorem beside_cons_other {c d : Int8} (other : d ≠ c) (x t : Chars) : Beside (c :: x) (d :: t) ↔ t = [] := by
  cases t with
  | nil => simp [Beside]
  | cons e t => simp [Beside,other]

theorem beside_append (p x : Chars) {t : Chars} (nonempty : t ≠ []) : Beside (p ++ x) (p ++ t) ↔ Beside x t := by
  induction p with
  | nil => rfl
  | cons c p ih =>
    rw [List.cons_append,List.cons_append,beside_cons_self c _ (by simp [nonempty]),ih]

theorem nil_not_mem_listings (children : List (Int8 × TrieNode)) : [] ∉ listings children := by
  simp [mem_listings]

theorem ne_nil_of_mem_drop {n : TrieNode} {k : Nat} (some_string : 1 ≤ k) {t : Chars} (later : t ∈ n.listing.drop k) :
    t ≠ [] := by
  obtain ⟨count,children⟩ := n
  obtain ⟨k,rfl⟩ := Nat.exists_eq_add_of_le' some_string
  have inner : t ∈ listings children := by
    rw [listing] at later
    split at later
    · exact List.mem_of_mem_drop later
    · exact List.mem_of_mem_drop later
  exact fun empty => nil_not_mem_listings children (empty ▸ inner)

theorem capped_zero (n : TrieNode) : capped 0 n = n.listing.filter (· = []) := by
  obtain ⟨count,children⟩ := n
  have inner : (listings children).filter (· = []) = [] := by
    apply List.filter_eq_nil_iff.mpr
    intro t member empty
    exact nil_not_mem_listings children (of_decide_eq_true empty ▸ member)
  rw [capped,listing,List.filter_append,inner,if_pos (Nat.zero_le _)]
  split <;> simp

/-- Of the children of a node that was not to be gone into, those that count. -/
theorem cappedEdges_zero (children : List (Int8 × TrieNode)) :
    cappedEdges 0 children = (listings children).filter fun t => t.tail = [] := by
  induction children with
  | nil => rfl
  | cons entry children ih =>
    obtain ⟨c,child⟩ := entry
    rw [cappedEdges,listings,List.filter_append,Nat.zero_sub,ih,capped_zero,List.filter_map]
    rfl

theorem cut_append_of_lt {k : Nat} {first second : List Chars} (short : first.length < k) :
    cut k (first ++ second) = first ++ cut (k - first.length) second := by
  have index : k - 1 - first.length = k - first.length - 1 := by omega
  rw [cut,cut,List.take_append,List.drop_append,List.take_of_length_le short.le,List.drop_of_length_le short.le,
    List.getElem?_append_right (by omega),index,List.nil_append,List.append_assoc]

theorem cut_append_of_le {k : Nat} {first second : List Chars} (some_string : 1 ≤ k) (long : k ≤ first.length) :
    cut k (first ++ second) =
      cut k first ++ second.filter fun t => first[k - 1]?.any fun x => Beside x t := by
  rw [cut,cut,List.take_append_of_le_length long,List.drop_append_of_le_length long,
    List.getElem?_append_left (by omega),List.filter_append,List.append_assoc]

/-- Going down a path. -/
theorem cut_map (p : Chars) (n : TrieNode) {k : Nat} (some_string : 1 ≤ k) :
    cut k (n.listing.map (p ++ ·)) = (cut k n.listing).map (p ++ ·) := by
  rw [cut,cut,List.map_append,List.map_take,← List.map_drop,List.filter_map]
  congr 2
  apply List.filter_congr
  intro t later
  have nonempty := ne_nil_of_mem_drop some_string later
  rw [Function.comp_apply,List.getElem?_map]
  cases n.listing[k - 1]? with
  | none => rfl
  | some x => exact decide_eq_decide.mpr (beside_append p x nonempty)

mutual

theorem capped_eq : ∀ {n : TrieNode}, n.Ordered → ∀ {k : Nat}, 1 ≤ k → capped k n = cut k n.listing
  | node count children, ordered, k, some_string => by
    have sorted : SortedKeys children := ordered.sorted
    have inner (child : Int8 × TrieNode) (member : child ∈ children) : child.2.Ordered := by
      cases ordered with
      | node sorted inner => exact inner child member
    rw [capped,listing]
    by_cases counted : 0 < count
    · simp only [if_pos counted,List.length_singleton]
      by_cases enough : k ≤ 1
      · obtain rfl : k = 1 := Nat.le_antisymm enough some_string
        simp [cut,Beside]
      · rw [if_neg enough,cut_append_of_lt (Nat.lt_of_not_le enough),List.length_singleton,
          cappedEdges_eq sorted inner (by omega)]
    · simp only [if_neg counted,List.length_nil,List.nil_append,Nat.sub_zero]
      rw [if_neg (by omega),cappedEdges_eq sorted inner some_string]

theorem cappedEdges_eq : ∀ {children : List (Int8 × TrieNode)}, SortedKeys children →
    (∀ entry ∈ children, entry.2.Ordered) → ∀ {k : Nat}, 1 ≤ k → cappedEdges k children = cut k (listings children)
  | [], _, _, k, _ => by simp [cappedEdges,listings,cut]
  | (c,child) :: children, sorted, inner, k, some_string => by
    obtain ⟨least,others⟩ := sortedKeys_cons.mp sorted
    have child_eq := capped_eq (inner (c,child) List.mem_cons_self) some_string
    rw [cappedEdges,listings,child_eq]
    by_cases short : child.listing.length < k
    · have whole : cut k child.listing = child.listing := by
        rw [cut,List.take_of_length_le short.le,List.drop_of_length_le short.le,List.filter_nil,List.append_nil]
      have remaining : 1 ≤ k - child.listing.length := by omega
      have later := cappedEdges_eq others (fun entry member => inner entry (List.mem_cons_of_mem _ member)) remaining
      rw [cut_append_of_lt (by rwa [List.length_map]),whole]
      simp only [List.length_map]
      rw [later]
    · have long : k ≤ child.listing.length := Nat.le_of_not_lt short
      have full : k ≤ (cut k child.listing).length := by
        rw [cut,List.length_append,List.length_take]
        omega
      have index : k - 1 < child.listing.length := by omega
      have mapped : cut k (child.listing.map (List.cons c)) = (cut k child.listing).map (List.cons c) :=
        cut_map [c] child some_string
      rw [cut_append_of_le some_string (by rwa [List.length_map]),mapped]
      simp only [List.length_map]
      rw [Nat.sub_eq_zero_of_le full,cappedEdges_zero]
      congr 1
      apply List.filter_congr
      intro t member
      obtain ⟨entry,among,u,_,rfl⟩ := mem_listings.mp member
      have other : entry.1 ≠ c := (least entry among).ne'
      rw [List.getElem?_map,List.getElem?_eq_getElem index]
      exact decide_eq_decide.mpr (beside_cons_other other _ u).symm

end

end TrieNode

namespace Trie
open TrieNode

/-- With a cap the search gives the strings up to the cap, and those beside the last of these. -/
theorem searchUpTo_eq (trie : Trie) (p : Chars) {cap : UInt32} (positive : 0 < cap) :
    trie.searchUpTo p cap = cut cap.toNat (trie.search p) := by
  have some_string : 1 ≤ cap.toNat := UInt32.lt_iff_toNat_lt.mp positive
  have nonzero : cap ≠ 0 := (UInt32.ne_of_lt positive).symm
  rw [search_eq,searchUpTo]
  cases reached : trie.reach p with
  | none => simp [cut]
  | some n =>
    have ordered : n.Ordered := trie.ordered.walk (walk_of_reach reached)
    change searchRecursively cap p n [] = cut cap.toNat (n.listing.map (p ++ ·))
    rw [searchRecursively_capped nonzero,List.nil_append,List.length_nil,Nat.sub_zero,capped_eq ordered some_string,
      cut_map p n some_string]

/-- The string begins with `p`, and the node at its end counts it. -/
def Stored (trie : Trie) (p t : Chars) : Prop := p <+: t ∧ ∃ n, trie.reach t = some n ∧ 0 < n.getCount

theorem insert_short {trie next : Trie} (short : ∀ t, 0 < trie.root.countOf t → t.length < 2^32) {str : Chars}
    (inserted : trie.insert str = some next) : ∀ t, 0 < next.root.countOf t → t.length < 2^32 := by
  have fits := (insert_isSome trie str).mp (Option.isSome_iff_exists.mpr ⟨next,inserted⟩)
  rw [insert,if_pos fits] at inserted
  intro t counted
  rw [← Option.some.inj inserted] at counted
  change 0 < (changeAt increment (trie.root.putAll str) str).countOf t at counted
  rw [countOf_changeAt children_increment] at counted
  split at counted
  · rename_i same
    exact same ▸ fits
  · rw [countOf_putAll trie.ordered] at counted
    exact short t counted

theorem remove_short {trie : Trie} (short : ∀ t, 0 < trie.root.countOf t → t.length < 2^32) (str : Chars) :
    ∀ t, 0 < (trie.remove str).root.countOf t → t.length < 2^32 := by
  intro t counted
  unfold remove at counted
  cases reached : trie.reach str with
  | none =>
    rw [reached] at counted
    exact short t counted
  | some n =>
    have fits : str.length < 2^32 := by
      by_contra long
      rw [reach,if_neg long] at reached
      cases reached
    rw [reached] at counted
    change 0 < (changeAt decrement trie.root str).countOf t at counted
    rw [countOf_changeAt children_decrement] at counted
    split at counted
    · rename_i same
      exact same ▸ fits
    · exact short t counted

/-- What counts was short enough to be inserted. -/
theorem run_short {calls : List Call} {trie next : Trie} (ran : calls.foldlM call trie = some next)
    (short : ∀ t, 0 < trie.root.countOf t → t.length < 2^32) : ∀ t, 0 < next.root.countOf t → t.length < 2^32 := by
  induction calls generalizing trie with
  | nil =>
    rw [← Option.some.inj ran]
    exact short
  | cons step calls ih =>
    rw [List.foldlM_cons] at ran
    obtain ⟨middle,called,ran⟩ := Option.bind_eq_some_iff.mp ran
    apply ih ran
    cases step with
    | insert str => exact insert_short short called
    | remove str =>
      rw [← Option.some.inj called]
      exact remove_short short str

theorem mem_search_iff {trie : Trie} (short : ∀ t, 0 < trie.root.countOf t → t.length < 2^32) (p t : Chars) :
    t ∈ trie.search p ↔ trie.Stored p t := by
  have holds : Holds trie trie.root.countOf := ⟨fun _ => rfl,short⟩
  have known := reach_count holds.same holds.short t
  rw [holds.mem_search,Stored,← known]
  cases trie.reach t with
  | none => simp
  | some n =>
    have positive : 0 < n.getCount ↔ 0 < n.getCount.toNat := UInt32.lt_iff_toNat_lt
    simp [positive]

/-- A capped search gives the first strings of the whole one, unless a later string is
beside the last of these. -/
theorem searchUpTo_eq_take_iff {calls : List Call} {trie : Trie} (ran : run calls = some trie) (p : Chars) {cap : UInt32}
    (positive : 0 < cap) : trie.searchUpTo p cap = (trie.search p).take cap.toNat ↔
      ∀ x, trie.Stored p x → {s | trie.Stored p s ∧ s < x}.ncard + 1 = cap.toNat →
        ∀ t, trie.Stored p t → x < t → ¬Beside x t := by
  have some_string : 1 ≤ cap.toNat := UInt32.lt_iff_toNat_lt.mp positive
  have short : ∀ t, 0 < trie.root.countOf t → t.length < 2^32 := by
    apply run_short ran
    intro t counted
    change 0 < TrieNode.fresh.countOf t at counted
    rw [countOf_fresh] at counted
    exact absurd counted (Nat.lt_irrefl 0)
  have stored := mem_search_iff short p
  have ascending := trie.search_sorted p
  have nth (x : Chars) : (trie.search p)[cap.toNat - 1]? = some x ↔
      trie.Stored p x ∧ {s | trie.Stored p s ∧ s < x}.ncard + 1 = cap.toNat := by
    rw [getElem?_iff_ncard ascending]
    simp only [stored]
    have shift : ∀ n, n = cap.toNat - 1 ↔ n + 1 = cap.toNat := by omega
    rw [shift]
  have only : trie.searchUpTo p cap = (trie.search p).take cap.toNat ↔
      ∀ x, (trie.search p)[cap.toNat - 1]? = some x → ∀ t ∈ (trie.search p).drop cap.toNat, ¬Beside x t := by
    rw [searchUpTo_eq trie p positive,cut,List.append_right_eq_self,List.filter_eq_nil_iff]
    cases (trie.search p)[cap.toNat - 1]? with
    | none => simp
    | some x => simp
  have after (x : Chars) (here : (trie.search p)[cap.toNat - 1]? = some x) (t : Chars) :
      t ∈ (trie.search p).drop cap.toNat ↔ trie.Stored p t ∧ x < t := by
    have drop := mem_drop_iff ascending here t
    rwa [Nat.sub_add_cancel some_string,stored] at drop
  rw [only]
  constructor
  · intro none x stored_x rank t stored_t later
    have here := (nth x).mpr ⟨stored_x,rank⟩
    exact none x here t ((after x here t).mpr ⟨stored_t,later⟩)
  · intro none x here t later
    obtain ⟨stored_x,rank⟩ := (nth x).mp here
    obtain ⟨stored_t,above⟩ := (after x here t).mp later
    exact none x stored_x rank t stored_t above

/-- With `a` and `ab` a search for one string finds `a`, which `ab` is not beside. -/
theorem searchUpTo_eq_take_below : ∃ trie, run [.insert [97,98],.insert [97]] = some trie ∧
    ∀ x, trie.Stored [] x → {s | trie.Stored [] s ∧ s < x}.ncard + 1 = 1 → ∀ t, trie.Stored [] t → x < t → ¬Beside x t := by
  have found : (run [.insert [97,98],.insert [97]]).map (fun trie => (trie.searchUpTo [] 1,trie.search [])) =
      some ([[97]],[[97],[97,98]]) := by decide
  obtain ⟨trie,ran,found⟩ := Option.map_eq_some_iff.mp found
  obtain ⟨capped,whole⟩ := Prod.mk.inj found
  have positive : (0 : UInt32) < 1 := by decide
  refine ⟨trie,ran,(searchUpTo_eq_take_iff ran [] positive).mp ?_⟩
  rw [capped,whole]
  rfl

/-- With `a` and `b` a search for one string finds both. -/
theorem searchUpTo_beside : ¬∀ (calls : List Call) (trie : Trie), run calls = some trie →
    ∀ (p : Chars) (cap : UInt32), 0 < cap → trie.searchUpTo p cap = (trie.search p).take cap.toNat := by
  intro all
  have found : (run [.insert [97],.insert [98]]).map (fun trie => (trie.searchUpTo [] 1,trie.search [])) =
      some ([[97],[98]],[[97],[98]]) := by decide
  obtain ⟨trie,ran,found⟩ := Option.map_eq_some_iff.mp found
  obtain ⟨capped,whole⟩ := Prod.mk.inj found
  have wrong := all _ trie ran [] 1 (by decide)
  rw [capped,whole] at wrong
  exact absurd wrong (by decide)

end Trie

end WebSearch
