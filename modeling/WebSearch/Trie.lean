import WebSearch.Library.OrderedMap
import WebSearch.Base.Bytes

/-! `util/prefix_tree/trie.cc` and `trie_node.cc`. A `char` is signed, a node owns
its children, and a change through a pointer to a node is a change at the end of
the path that leads to it. -/
namespace WebSearch
open Library

instance int8LinearOrder : LinearOrder Int8 where
  le_refl := Int8.le_refl
  le_trans _ _ _ := Int8.le_trans
  le_antisymm _ _ := Int8.le_antisymm
  le_total := Int8.le_total
  lt_iff_le_not_ge _ _ := Std.lt_iff_le_and_not_ge
  toDecidableLE := inferInstance
  toDecidableEq := inferInstance
  toDecidableLT := inferInstance

/-- A `std::string` as its characters. -/
abbrev Chars := List Int8

inductive TrieNode
  | node (count : UInt32) (children : List (Int8 × TrieNode))

namespace TrieNode

def getCount : TrieNode → UInt32
  | node count _ => count

def children : TrieNode → List (Int8 × TrieNode)
  | node _ children => children

def fresh : TrieNode := node 0 []

def get (n : TrieNode) (c : Int8) : Option TrieNode := n.children.lookup c

/-- The node afterwards, which has a child at `c`. -/
def put (n : TrieNode) (c : Int8) : TrieNode := node n.getCount (insertNew c fresh n.children)

def edges (n : TrieNode) : Chars := n.children.map Prod.fst

def has (n : TrieNode) (c : Int8) : Bool := (n.children.lookup c).isSome

def increment (n : TrieNode) : TrieNode := node (n.getCount + 1) n.children

def decrement (n : TrieNode) : TrieNode :=
  node (if n.getCount = 0 then 0 else n.getCount - 1) n.children

def within (n : TrieNode) (c : Int8) (change : TrieNode → TrieNode) : TrieNode :=
  node n.getCount (modify c change n.children)

/-- The loop of `insert` over the characters. -/
def putAll : TrieNode → Chars → TrieNode
  | n, [] => n
  | n, c :: str => (n.put c).within c fun child => child.putAll str

def changeAt (change : TrieNode → TrieNode) : TrieNode → Chars → TrieNode
  | n, [] => change n
  | n, c :: str => n.within c fun child => child.changeAt change str

/-- The loop of `reach`. -/
def walk : TrieNode → Chars → Option TrieNode
  | n, [] => some n
  | n, c :: str => if n.has c then (n.get c).bind fun child => child.walk str else none

mutual

def searchRecursively (cap : UInt32) (s : Chars) : TrieNode → List Chars → List Chars
  | node count children, results =>
    let results := if 0 < count then results ++ [s] else results
    if cap ≠ 0 ∧ cap.toNat ≤ results.length then results else searchEdges cap s children results

/-- The loop over the edges, each with its child. -/
def searchEdges (cap : UInt32) (s : Chars) : List (Int8 × TrieNode) → List Chars → List Chars
  | [], results => results
  | (next,child) :: edges, results =>
    searchEdges cap s edges (searchRecursively cap (s ++ [next]) child results)

end

inductive Ordered : TrieNode → Prop
  | node {count : UInt32} {children : List (Int8 × TrieNode)} (sorted : SortedKeys children)
    (inner : ∀ entry ∈ children, Ordered entry.2) : Ordered (node count children)

/-- Going through the children is going through the edges and getting each. -/
theorem Ordered.get_edges {n : TrieNode} (ordered : n.Ordered) :
    n.edges.map (fun c => (c,n.get c)) = n.children.map fun entry => (entry.1,some entry.2) := by
  cases ordered with
  | node sorted inner =>
    rw [edges,List.map_map]
    apply List.map_congr_left
    intro entry member
    exact congrArg (Prod.mk entry.1) (lookup_of_mem sorted member)

/-! What the nodes count. -/

def countOf (n : TrieNode) (t : Chars) : Nat := (n.walk t).elim 0 fun m => m.getCount.toNat

@[simp] theorem countOf_nil (n : TrieNode) : n.countOf [] = n.getCount.toNat := rfl

theorem walk_cons (n : TrieNode) (c : Int8) (t : Chars) : n.walk (c :: t) = (n.get c).bind fun child => child.walk t := by
  rw [walk,has,get]
  cases n.children.lookup c <;> simp

theorem countOf_cons (n : TrieNode) (c : Int8) (t : Chars) :
    n.countOf (c :: t) = (n.get c).elim 0 fun child => child.countOf t := by
  rw [countOf,walk_cons]
  cases n.get c <;> rfl

theorem countOf_append (n : TrieNode) (p t : Chars) :
    n.countOf (p ++ t) = (n.walk p).elim 0 fun m => m.countOf t := by
  induction p generalizing n with
  | nil => rfl
  | cons c p ih =>
    rw [List.cons_append,countOf_cons,walk_cons]
    cases n.get c with
    | none => rfl
    | some child => exact ih child

theorem countOf_fresh (t : Chars) : fresh.countOf t = 0 := by
  cases t with
  | nil => rfl
  | cons c t => rw [countOf_cons]; rfl

theorem fresh_ordered : fresh.Ordered := .node List.Pairwise.nil fun _ => nofun

theorem Ordered.sorted {n : TrieNode} (ordered : n.Ordered) : SortedKeys n.children := by
  cases ordered with
  | node sorted inner => exact sorted

theorem Ordered.child {n : TrieNode} (ordered : n.Ordered) {c : Int8} {child : TrieNode} (found : n.get c = some child) :
    child.Ordered := by
  cases ordered with
  | node sorted inner => exact inner _ (mem_of_lookup found)

theorem Ordered.walk {n m : TrieNode} (ordered : n.Ordered) {p : Chars} (walked : n.walk p = some m) : m.Ordered := by
  induction p generalizing n with
  | nil => exact Option.some.inj walked ▸ ordered
  | cons c p ih =>
    rw [walk_cons] at walked
    obtain ⟨child,found,walked⟩ := Option.bind_eq_some_iff.mp walked
    exact ih (ordered.child found) walked

theorem Ordered.put {n : TrieNode} (ordered : n.Ordered) (c : Int8) : (n.put c).Ordered := by
  cases ordered with
  | node sorted inner =>
    refine .node (sortedKeys_insertNew sorted) fun entry member => ?_
    rcases mem_insertNew member with here | before
    · rw [here]
      exact fresh_ordered
    · exact inner entry before

theorem Ordered.within {n : TrieNode} (ordered : n.Ordered) (c : Int8) {change : TrieNode → TrieNode}
    (kept : ∀ m, m.Ordered → (change m).Ordered) : (n.within c change).Ordered := by
  cases ordered with
  | node sorted inner =>
    refine .node (sortedKeys_modify sorted) fun entry member => ?_
    obtain ⟨before,member,same⟩ := List.mem_map.mp member
    rw [← same]
    split
    · exact kept _ (inner before member)
    · exact inner before member

theorem Ordered.putAll {n : TrieNode} (ordered : n.Ordered) (str : Chars) : (n.putAll str).Ordered := by
  induction str generalizing n with
  | nil => exact ordered
  | cons c str ih => exact (ordered.put c).within c fun _ inner => ih inner

theorem Ordered.changeAt {n : TrieNode} (ordered : n.Ordered) {change : TrieNode → TrieNode}
    (kept : ∀ m, m.Ordered → (change m).Ordered) (str : Chars) : (n.changeAt change str).Ordered := by
  induction str generalizing n with
  | nil => exact kept n ordered
  | cons c str ih => exact ordered.within c fun _ inner => ih inner

theorem Ordered.increment {n : TrieNode} (ordered : n.Ordered) : n.increment.Ordered := by
  cases ordered with
  | node sorted inner => exact .node sorted inner

theorem Ordered.decrement {n : TrieNode} (ordered : n.Ordered) : n.decrement.Ordered := by
  cases ordered with
  | node sorted inner => exact .node sorted inner

theorem get_put {n : TrieNode} (ordered : n.Ordered) (c d : Int8) :
    (n.put c).get d = if d = c then some ((n.get c).getD fresh) else n.get d :=
  lookup_insertNew ordered.sorted c fresh d

theorem get_within (n : TrieNode) (c : Int8) (change : TrieNode → TrieNode) (d : Int8) :
    (n.within c change).get d = if d = c then (n.get d).map change else n.get d :=
  lookup_modify c change n.children d

/-- `put` along a path adds nodes that count nothing. -/
theorem countOf_putAll {n : TrieNode} (ordered : n.Ordered) (str t : Chars) : (n.putAll str).countOf t = n.countOf t := by
  induction str generalizing n t with
  | nil => rfl
  | cons c str ih =>
    cases t with
    | nil => rfl
    | cons d t =>
      rw [putAll,countOf_cons,countOf_cons,get_within,get_put ordered]
      by_cases same : d = c
      · rw [if_pos same,if_pos same,same]
        cases found : n.get c with
        | none =>
          change (fresh.putAll str).countOf t = 0
          rw [ih fresh_ordered,countOf_fresh]
        | some child => exact ih (ordered.child found) t
      · rw [if_neg same,if_neg same]

theorem walk_putAll {n : TrieNode} (ordered : n.Ordered) (str : Chars) : ((n.putAll str).walk str).isSome = true := by
  induction str generalizing n with
  | nil => rfl
  | cons c str ih =>
    rw [putAll,walk_cons,get_within,if_pos rfl,get_put ordered,if_pos rfl]
    cases found : n.get c with
    | none => exact ih fresh_ordered
    | some child => exact ih (ordered.child found)

theorem children_increment (n : TrieNode) : n.increment.children = n.children := rfl

theorem children_decrement (n : TrieNode) : n.decrement.children = n.children := rfl

/-- Only the string of the path is counted otherwise. -/
theorem countOf_changeAt {change : TrieNode → TrieNode} (kept : ∀ m, (change m).children = m.children)
    (n : TrieNode) (str t : Chars) : (n.changeAt change str).countOf t =
      if t = str then (n.walk str).elim 0 (fun m => (change m).getCount.toNat) else n.countOf t := by
  induction str generalizing n t with
  | nil =>
    cases t with
    | nil => rfl
    | cons d t =>
      rw [if_neg (List.cons_ne_nil d t),changeAt,countOf_cons,countOf_cons,get,get,kept]
  | cons c str ih =>
    cases t with
    | nil => rfl
    | cons d t =>
      rw [changeAt,countOf_cons,get_within,walk_cons,countOf_cons]
      by_cases same : d = c
      · rw [if_pos same,same]
        cases found : n.get c with
        | none => simp
        | some child =>
          change (child.changeAt change str).countOf t = _
          rw [ih child t]
          simp
      · rw [if_neg same,if_neg fun equal => same (List.cons.inj equal).1]

/-! What the search finds below a node. -/

mutual

def listing : TrieNode → List Chars
  | node count children => (if 0 < count then [[]] else []) ++ listings children

def listings : List (Int8 × TrieNode) → List Chars
  | [] => []
  | (c,child) :: children => (listing child).map (List.cons c) ++ listings children

end

mutual

theorem searchRecursively_eq (s : Chars) : ∀ (n : TrieNode) (results : List Chars),
    searchRecursively 0 s n results = results ++ n.listing.map (s ++ ·)
  | node count children, results => by
    rw [searchRecursively,searchEdges_eq s children]
    by_cases counted : 0 < count <;> simp [listing,counted]

theorem searchEdges_eq (s : Chars) : ∀ (children : List (Int8 × TrieNode)) (results : List Chars),
    searchEdges 0 s children results = results ++ (listings children).map (s ++ ·)
  | [], results => by simp [searchEdges,listings]
  | (c,child) :: children, results => by
    rw [searchEdges,searchEdges_eq s children,searchRecursively_eq (s ++ [c]) child]
    simp [listings]

end

theorem mem_listings {children : List (Int8 × TrieNode)} {t : Chars} :
    t ∈ listings children ↔ ∃ entry ∈ children, ∃ u ∈ entry.2.listing, entry.1 :: u = t := by
  induction children with
  | nil => simp [listings]
  | cons entry children ih =>
    obtain ⟨c,child⟩ := entry
    rw [listings,List.mem_append,ih,List.mem_map,List.exists_mem_cons_iff]

theorem mem_listing {n : TrieNode} (ordered : n.Ordered) {t : Chars} : t ∈ n.listing ↔ 0 < n.countOf t := by
  induction t generalizing n with
  | nil =>
    obtain ⟨count,children⟩ := n
    have inner : [] ∉ listings children := by simp [mem_listings]
    have positive : 0 < count ↔ 0 < count.toNat := UInt32.lt_iff_toNat_lt
    rw [listing,List.mem_append,or_iff_left inner,countOf_nil,getCount,← positive]
    by_cases counted : 0 < count <;> simp [counted]
  | cons c t ih =>
    obtain ⟨count,children⟩ := n
    have here : c :: t ∉ (if 0 < count then [[]] else []) := by split <;> simp
    rw [listing,List.mem_append,or_iff_right here,mem_listings,countOf_cons]
    constructor
    · intro found
      obtain ⟨entry,member,u,listed,same⟩ := found
      obtain ⟨first,rest⟩ := List.cons.inj same
      subst first rest
      have reached : (node count children).get entry.1 = some entry.2 := lookup_of_mem ordered.sorted member
      rw [reached]
      exact (ih (ordered.child reached)).mp listed
    · intro counted
      cases found : (node count children).get c with
      | none =>
        rw [found] at counted
        exact absurd counted (Nat.lt_irrefl 0)
      | some child =>
        rw [found] at counted
        exact ⟨(c,child),mem_of_lookup found,t,(ih (ordered.child found)).mpr counted,rfl⟩

theorem listings_sorted {children : List (Int8 × TrieNode)} (sorted : SortedKeys children)
    (inner : ∀ entry ∈ children, entry.2.listing.Pairwise (· < ·)) : (listings children).Pairwise (· < ·) := by
  induction children with
  | nil => exact List.Pairwise.nil
  | cons entry children ih =>
    obtain ⟨c,child⟩ := entry
    obtain ⟨least,others⟩ := sortedKeys_cons.mp sorted
    rw [listings]
    refine List.pairwise_append.mpr ⟨?_,ih others fun other member => inner other (List.mem_cons_of_mem _ member),?_⟩
    · rw [List.pairwise_map]
      apply (inner (c,child) List.mem_cons_self).imp
      intro t u less
      exact List.cons_lt_cons_iff.mpr (.inr ⟨rfl,less⟩)
    · intro t first u second
      obtain ⟨_,_,same⟩ := List.mem_map.mp first
      obtain ⟨other,member,_,_,also⟩ := mem_listings.mp second
      rw [← same,← also]
      exact List.cons_lt_cons_iff.mpr (.inl (least other member))

theorem listing_sorted {n : TrieNode} (ordered : n.Ordered) : n.listing.Pairwise (· < ·) := by
  induction ordered with
  | @node count children sorted inner ih =>
    rw [listing]
    refine List.pairwise_append.mpr ⟨?_,listings_sorted sorted ih,?_⟩
    · split
      · exact List.pairwise_singleton _ _
      · exact List.Pairwise.nil
    · intro t first u second
      have root : t = [] := by
        split at first
        · exact List.mem_singleton.mp first
        · cases first
      obtain ⟨_,_,_,_,same⟩ := mem_listings.mp second
      rw [root,← same]
      exact List.nil_lt_cons _ _

end TrieNode

open TrieNode

/-- The root, with the children of every node in the order of a `std::map`. -/
structure Trie where
  root : TrieNode
  ordered : root.Ordered

namespace Trie

def fresh : Trie := ⟨TrieNode.fresh,fresh_ordered⟩

/-- The counter `i` is an `unsigned int`. It wraps before it has passed the characters of a
longer string, and then the loop takes them again until it finds no child. -/
def reach (trie : Trie) (str : Chars) : Option TrieNode :=
  if str.length < 2^32 then trie.root.walk str else none

/-- The loop over a longer string does not end, for it adds the children that it lacks. -/
def insert (trie : Trie) (str : Chars) : Option Trie :=
  if str.length < 2^32 then
    some ⟨(trie.root.putAll str).changeAt increment str,(trie.ordered.putAll str).changeAt (fun _ => Ordered.increment) str⟩
  else none

/-- The node that is reached is the root just when the string is empty. -/
def has (trie : Trie) (str : Chars) : Bool := match trie.reach str with
  | none => false
  | some n => str ≠ [] && 0 < n.getCount

def remove (trie : Trie) (str : Chars) : Trie := match trie.reach str with
  | none => trie
  | some _ => ⟨trie.root.changeAt decrement str,trie.ordered.changeAt (fun _ => Ordered.decrement) str⟩

def searchUpTo (trie : Trie) (str : Chars) (cap : UInt32) : List Chars := match trie.reach str with
  | none => []
  | some n => searchRecursively cap str n []

def search (trie : Trie) (str : Chars) : List Chars := trie.searchUpTo str 0

inductive Call
  | insert (str : Chars)
  | remove (str : Chars)
  deriving DecidableEq

def call (trie : Trie) : Call → Option Trie
  | .insert str => trie.insert str
  | .remove str => some (trie.remove str)

def run (calls : List Call) : Option Trie := calls.foldlM call fresh

/-! The counters that the calls stand for. -/

/-- Each string with its counter. -/
def apply (counts : Chars → Nat) : Call → Chars → Nat
  | .insert str => fun t => if t = str then counts t + 1 else counts t
  | .remove str => fun t => if t = str then counts t - 1 else counts t

def counter (calls : List Call) : Chars → Nat := calls.foldl apply fun _ => 0

def Counts (trie : Trie) (counts : Chars → Nat) : Prop := ∀ t, trie.root.countOf t = counts t

theorem walk_of_reach {trie : Trie} {str : Chars} {n : TrieNode} (reached : trie.reach str = some n) :
    trie.root.walk str = some n := by
  unfold reach at reached
  split at reached
  · exact reached
  · cases reached

theorem reach_append {trie : Trie} {counts : Chars → Nat} (same : trie.Counts counts)
    (short : ∀ t, 0 < counts t → t.length < 2^32) (p t : Chars) :
    (trie.reach p).elim 0 (fun n => n.countOf t) = counts (p ++ t) := by
  unfold reach
  split
  · rw [← same,countOf_append]
  · rename_i long
    refine (Nat.eq_zero_of_not_pos fun counted => long ?_).symm
    have bound := short _ counted
    rw [List.length_append] at bound
    omega

theorem reach_count {trie : Trie} {counts : Chars → Nat} (same : trie.Counts counts)
    (short : ∀ t, 0 < counts t → t.length < 2^32) (t : Chars) :
    (trie.reach t).elim 0 (fun n => n.getCount.toNat) = counts t := by
  have known := reach_append same short t []
  rw [List.append_nil] at known
  exact known

theorem insert_isSome (trie : Trie) (str : Chars) : (trie.insert str).isSome = true ↔ str.length < 2^32 := by
  unfold insert
  split
  · simpa using ‹str.length < 2^32›
  · simpa using ‹¬str.length < 2^32›

/-- Inserting adds one to the counter of the string, as long as it does not wrap. -/
theorem insert_counts {trie next : Trie} {counts : Chars → Nat} (same : trie.Counts counts) {str : Chars}
    (few : counts str + 1 < 2^32) (inserted : trie.insert str = some next) :
    next.Counts (apply counts (.insert str)) := by
  unfold insert at inserted
  split at inserted
  · intro t
    rw [← Option.some.inj inserted]
    change (changeAt increment (trie.root.putAll str) str).countOf t = if t = str then _ else _
    rw [countOf_changeAt children_increment]
    split
    · rename_i here
      obtain ⟨n,reached⟩ := Option.isSome_iff_exists.mp (walk_putAll trie.ordered str)
      have before := countOf_putAll trie.ordered str str
      rw [countOf,reached,same] at before
      change n.getCount.toNat = counts str at before
      rw [here,reached]
      change (n.getCount + 1).toNat = counts str + 1
      rw [UInt32.toNat_add,before]
      exact Nat.mod_eq_of_lt few
    · rw [countOf_putAll trie.ordered,same]
  · cases inserted

theorem remove_counts {trie : Trie} {counts : Chars → Nat} (same : trie.Counts counts)
    (short : ∀ t, 0 < counts t → t.length < 2^32) (str : Chars) :
    (trie.remove str).Counts (apply counts (.remove str)) := by
  have known := reach_count same short str
  intro t
  unfold remove apply
  cases reached : trie.reach str with
  | none =>
    rw [reached] at known
    change 0 = counts str at known
    change trie.root.countOf t = if t = str then _ else _
    rw [same]
    split
    · rename_i here
      rw [here,← known]
    · rfl
  | some n =>
    change (changeAt decrement trie.root str).countOf t = if t = str then _ else _
    rw [countOf_changeAt children_decrement]
    split
    · rename_i here
      rw [reached] at known
      change n.getCount.toNat = counts str at known
      rw [walk_of_reach reached,here,← known]
      change (if n.getCount = 0 then 0 else n.getCount - 1).toNat = _
      split
      · rename_i zero
        rw [zero]
        rfl
      · rename_i counted
        have positive : 1 ≤ n.getCount := by
          rw [UInt32.le_iff_toNat_le]
          exact Nat.one_le_iff_ne_zero.mpr fun zero => counted (UInt32.toNat_inj.mp zero)
        exact UInt32.toNat_sub_of_le _ _ positive
    · exact same t

theorem apply_le (counts : Chars → Nat) (step : Call) (t : Chars) :
    apply counts step t ≤ counts t + [step].count (.insert t) := by
  cases step with
  | insert str =>
    change (if t = str then _ else _) ≤ _
    split
    · rename_i here
      rw [here,List.count_singleton_self]
    · exact Nat.le_add_right _ _
  | remove str =>
    change (if t = str then _ else _) ≤ _
    split <;> omega

/-- A trie after some calls: it counts what they stand for, and what counts is short
enough to have been inserted. -/
structure Holds (trie : Trie) (counts : Chars → Nat) : Prop where
  same : trie.Counts counts
  short : ∀ t, 0 < counts t → t.length < 2^32

theorem holds_fresh : Holds fresh fun _ => 0 := ⟨countOf_fresh,fun _ => nofun⟩

theorem Holds.call {trie next : Trie} {counts : Chars → Nat} (holds : Holds trie counts) {step : Call}
    (few : ∀ t, counts t + [step].count (.insert t) < 2^32) (called : trie.call step = some next) :
    Holds next (apply counts step) := by
  cases step with
  | insert str =>
    refine ⟨insert_counts holds.same (by simpa using few str) called,fun t counted => ?_⟩
    by_cases here : t = str
    · rw [here]
      exact (insert_isSome trie str).mp (Option.isSome_iff_exists.mpr ⟨next,called⟩)
    · exact holds.short t (by simpa [apply,here] using counted)
  | remove str =>
    rw [← Option.some.inj called]
    refine ⟨remove_counts holds.same holds.short str,fun t counted => holds.short t ?_⟩
    change 0 < if t = str then _ else _ at counted
    split at counted <;> omega

theorem Holds.calls {trie next : Trie} {counts : Chars → Nat} (holds : Holds trie counts) {calls : List Call}
    (few : ∀ t, counts t + calls.count (.insert t) < 2^32) (ran : calls.foldlM Trie.call trie = some next) :
    Holds next (calls.foldl apply counts) := by
  induction calls generalizing trie counts with
  | nil =>
    rw [← Option.some.inj ran]
    exact holds
  | cons step calls ih =>
    have together (t : Chars) : (step :: calls).count (.insert t) = [step].count (.insert t) + calls.count (.insert t) := by
      rw [← List.singleton_append,List.count_append]
    rw [List.foldlM_cons] at ran
    obtain ⟨middle,called,ran⟩ := Option.bind_eq_some_iff.mp ran
    refine ih (holds.call (fun t => ?_) called) (fun t => ?_) ran
    · have bound := few t
      rw [together] at bound
      omega
    · have bound := few t
      have grown := apply_le counts step t
      rw [together] at bound
      omega

/-- The calls return when no string is so long that its insertion does not end. -/
theorem run_isSome (calls : List Call) :
    (run calls).isSome = true ↔ ∀ str, .insert str ∈ calls → str.length < 2^32 := by
  unfold run
  generalize fresh = trie
  induction calls generalizing trie with
  | nil => simp
  | cons step calls ih =>
    have first : (trie.call step).isSome = true ↔ ∀ str, .insert str = step → str.length < 2^32 := by
      cases step with
      | insert str =>
        change (trie.insert str).isSome = true ↔ _
        simp [insert_isSome]
      | remove str => simp [call]
    rw [List.foldlM_cons]
    cases called : trie.call step with
    | none =>
      rw [called] at first
      simp only [Option.bind_eq_bind,Option.bind_none,Option.isSome_none,Bool.false_eq_true,false_iff] at first ⊢
      exact fun all => first fun str here => all str (List.mem_cons.mpr (.inl here))
    | some next =>
      rw [called] at first
      simp only [Option.bind_eq_bind,Option.bind_some,ih,List.mem_cons]
      constructor
      · intro rest str member
        exact member.elim (first.mp rfl str) (rest str)
      · exact fun all str member => all str (.inr member)

theorem Holds.has_iff {trie : Trie} {counts : Chars → Nat} (holds : Holds trie counts) {t : Chars} (nonempty : t ≠ []) :
    trie.has t = true ↔ 0 < counts t := by
  have known := reach_count holds.same holds.short t
  unfold has
  cases reached : trie.reach t with
  | none =>
    rw [reached] at known
    simpa using known.symm.le
  | some n =>
    rw [reached] at known
    change n.getCount.toNat = counts t at known
    have positive : 0 < n.getCount ↔ 0 < n.getCount.toNat := UInt32.lt_iff_toNat_lt
    simp [nonempty,positive,known]

theorem search_eq (trie : Trie) (p : Chars) :
    trie.search p = (trie.reach p).elim [] fun n => n.listing.map (p ++ ·) := by
  unfold search searchUpTo
  cases trie.reach p with
  | none => rfl
  | some n => exact searchRecursively_eq p n []

theorem Holds.mem_search {trie : Trie} {counts : Chars → Nat} (holds : Holds trie counts) (p t : Chars) :
    t ∈ trie.search p ↔ p <+: t ∧ 0 < counts t := by
  have found (u : Chars) : p ++ u ∈ trie.search p ↔ 0 < counts (p ++ u) := by
    rw [search_eq,← reach_append holds.same holds.short p u]
    cases reached : trie.reach p with
    | none => simp
    | some n =>
      have ordered : n.Ordered := trie.ordered.walk (walk_of_reach reached)
      simpa using mem_listing ordered
  constructor
  · intro member
    have below : p <+: t := by
      rw [search_eq] at member
      cases reached : trie.reach p with
      | none =>
        rw [reached] at member
        cases member
      | some n =>
        rw [reached] at member
        obtain ⟨u,_,same⟩ := List.mem_map.mp member
        exact ⟨u,same⟩
    obtain ⟨u,same⟩ := below
    subst same
    exact ⟨⟨u,rfl⟩,(found u).mp member⟩
  · intro counted
    obtain ⟨⟨u,same⟩,counted⟩ := counted
    subst same
    exact (found u).mpr counted

theorem search_sorted (trie : Trie) (p : Chars) : (trie.search p).Pairwise (· < ·) := by
  rw [search_eq]
  cases reached : trie.reach p with
  | none => exact List.Pairwise.nil
  | some n =>
    change (n.listing.map (p ++ ·)).Pairwise (· < ·)
    rw [List.pairwise_map]
    apply (listing_sorted (trie.ordered.walk (walk_of_reach reached))).imp
    intro t u less
    exact List.append_left_lt less

/-- The calls return, and then the trie holds the strings whose counter is positive, in
their order. -/
def Abstracts (calls : List Call) : Prop := ∃ trie, run calls = some trie ∧
  (∀ t, t ≠ [] → (trie.has t = true ↔ 0 < counter calls t)) ∧
  ∀ p, (trie.search p).Pairwise (· < ·) ∧ ∀ t, t ∈ trie.search p ↔ p <+: t ∧ 0 < counter calls t

theorem abstracts_of_run {calls : List Call} {trie : Trie} (few : ∀ str, calls.count (.insert str) < 2^32)
    (ran : run calls = some trie) : Abstracts calls := by
  have holds : Holds trie (counter calls) := holds_fresh.calls (fun str => by simpa using few str) ran
  exact ⟨trie,ran,fun t nonempty => holds.has_iff nonempty,fun p => ⟨trie.search_sorted p,holds.mem_search p⟩⟩

/-- The trie is what it stands for exactly when every string is short enough to be inserted. -/
theorem trie_holds_iff (calls : List Call) (few : ∀ str, calls.count (.insert str) < 2^32) :
    Abstracts calls ↔ ∀ str, .insert str ∈ calls → str.length < 2^32 := by
  rw [← run_isSome]
  constructor
  · intro ⟨trie,ran,_⟩
    rw [ran]
    rfl
  · intro returns
    obtain ⟨trie,ran⟩ := Option.isSome_iff_exists.mp returns
    exact abstracts_of_run few ran

/-- `ab`, `a` and the byte 200 after it, which is a negative `char`. -/
def someCalls : List Call := [.insert [97,98],.insert [97],.insert [97,-56],.insert [97],.remove [97,99],.remove [97,98]]

theorem trie_holds_some : ∃ trie, run someCalls = some trie ∧ trie.has [97] = true ∧
    [97,98] ∉ trie.search [97] ∧ [97,-56] ∈ trie.search [97] := by
  have few (str : Chars) : someCalls.count (.insert str) < 2^32 :=
    Nat.lt_of_le_of_lt List.count_le_length (by decide)
  have short : ∀ str, .insert str ∈ someCalls → str.length < 2^32 :=
    (run_isSome someCalls).mp (by decide)
  obtain ⟨trie,ran,has,search⟩ := (trie_holds_iff someCalls few).mpr short
  have kept : 0 < counter someCalls [97] := by decide
  have removed : ¬0 < counter someCalls [97,98] := by decide
  have other : 0 < counter someCalls [97,-56] := by decide
  refine ⟨trie,ran,(has [97] (by decide)).mpr kept,fun found => ?_,?_⟩
  · exact removed (((search [97]).2 [97,98]).mp found).2
  · exact ((search [97]).2 [97,-56]).mpr ⟨⟨[-56],rfl⟩,other⟩

theorem long_insert_not_abstracts {letters : Chars} (long : 2^32 ≤ letters.length) : ¬Abstracts [.insert letters] := by
  intro ⟨trie,ran,_⟩
  have returned : (run [.insert letters]).isSome = true := by rw [ran]; rfl
  exact Nat.not_le.mpr ((run_isSome _).mp returned letters (List.mem_singleton_self _)) long

/-- The insertion of `2^32` letters does not return. -/
theorem trie_not_holds_long : (∀ str, [Call.insert (List.replicate (2^32) 97)].count (.insert str) < 2^32) ∧
    ¬Abstracts [.insert (List.replicate (2^32) 97)] := by
  refine ⟨fun str => ?_,long_insert_not_abstracts (Nat.le_of_eq List.length_replicate.symm)⟩
  apply Nat.lt_of_le_of_lt List.count_le_length
  rw [List.length_singleton]
  decide

end Trie

end WebSearch
