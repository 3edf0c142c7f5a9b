import WebSearch.Base.Bytes
import Mathlib.Logic.Function.Basic

/-! `util/darts/darts.h`. The array grows on demand: a cell that nothing was written
to is zero, and cells hold unbounded numbers. Keys are NUL-terminated, with no
`length` and no `value` array. -/
namespace WebSearch.Darts

/-- `unit_t`. -/
structure Cell where
  base : Int
  check : Nat

/-- `node_t`. -/
structure Node where
  code : Nat
  depth : Nat
  left : Nat
  right : Nat
  deriving DecidableEq

/-- The members that a build works on. -/
structure Units where
  array : Nat → Cell
  used : Nat → Bool
  size : Nat
  nextCheckPos : Nat
  error : Int

/-- `array` is `none` when the pointer is null. -/
structure DoubleArray where
  array : Option (Nat → Cell)
  size : Nat
  error : Int

/-- The code of a key at a depth that it reaches: zero at its end. -/
def code (key : Bytes) (depth : Nat) : Nat :=
  match key[depth]? with
  | some c => c.toNat + 1
  | none => 0

/-- Ends the last sibling; the vector is kept in reverse while it is filled. -/
def closeLast (right : Nat) : List Node → List Node
  | node :: nodes => { node with right } :: nodes
  | [] => []

/-- The loop of `fetch` over the keys from index `i`; `none` is error -3. -/
def fetchLoop (depth : Nat) : List Bytes → Nat → Nat → List Node → Option (List Node)
  | [], _, _, siblings => some siblings
  | key :: keys, i, prev, siblings =>
    if key.length < depth then fetchLoop depth keys (i + 1) prev siblings
    else
      let cur := code key depth
      if cur < prev then none
      else if cur ≠ prev ∨ siblings = [] then
        fetchLoop depth keys (i + 1) cur (⟨cur,depth + 1,i,0⟩ :: closeLast i siblings)
      else fetchLoop depth keys (i + 1) cur siblings

/-- `fetch`: the error and the siblings below `parent`. -/
def fetch (keys : List Bytes) (parent : Node) (error : Int) : Int × List Node :=
  if error < 0 then (error,[])
  else match fetchLoop parent.depth ((keys.drop parent.left).take (parent.right - parent.left)) parent.left 0 [] with
    | some siblings => (error,(closeLast parent.right siblings).reverse)
    | none => (-3,[])

/-- Where the search for a free place ended, and the counters of the loop. -/
structure Place where
  begin : Nat
  pos : Nat
  nonzero : Nat
  nextCheckPos : Nat

/-- The loop of `insert` from the position after `pos`, for siblings with codes
`first :: codes`; `moved` is `first` of the source. -/
def findPlace (w : Units) (first : Nat) (codes : List Nat) : Nat → Nat → Nat → Bool → Nat → Option Place
  | 0, _, _, _, _ => none
  | fuel + 1, pos, nonzero, moved, nextCheckPos =>
    let pos := pos + 1
    if (w.array pos).check ≠ 0 then findPlace w first codes fuel pos (nonzero + 1) moved nextCheckPos
    else
      let nextCheckPos := if moved then nextCheckPos else pos
      let begin := pos - first
      if w.used begin || codes.any fun c => (w.array (begin + c)).check != 0 then
        findPlace w first codes fuel pos nonzero true nextCheckPos
      else some ⟨begin,pos,nonzero,nextCheckPos⟩

/-- Beyond `size` every place is free. -/
def place (w : Units) (first : Nat) (codes : List Nat) : Option Place :=
  findPlace w first codes (w.size + first + 1) (max (first + 1) w.nextCheckPos - 1) 0 false w.nextCheckPos

namespace Units

def setCheck (w : Units) (begin : Nat) (codes : List Nat) : Units :=
  { w with array := codes.foldl (fun array c =>
      Function.update array (begin + c) { array (begin + c) with check := begin }) w.array }

def setBase (w : Units) (pos : Nat) (base : Int) : Units :=
  { w with array := Function.update w.array pos { w.array pos with base } }

def take (w : Units) (place : Place) (last : Nat) : Units :=
  { w with
    nextCheckPos :=
      if 19 * (place.pos - place.nextCheckPos + 1) ≤ 20 * place.nonzero then place.pos else place.nextCheckPos
    used := Function.update w.used place.begin true
    size := max w.size (place.begin + (last + 1)) }

def mark (w : Units) (place : Place) (last : Nat) (codes : List Nat) : Units :=
  (w.take place last).setCheck place.begin codes

end Units

/-- One sibling in the second loop of `insert`; `below` is the recursive call. -/
def insertSibling (keys : List Bytes) (below : Units → List Node → Option (Nat × Units)) (begin : Nat) (w : Units)
    (node : Node) : Option Units := do
  let (error,children) := fetch keys node w.error
  let w := { w with error }
  if children.isEmpty then return w.setBase (begin + node.code) (-node.left - 1)
  else
    let (h,w) ← below w children
    return w.setBase (begin + node.code) h

/-- `insert`: the place of the siblings. `none` when `fuel` is less than the depth of
the keys, which `build` rules out. -/
def insert (keys : List Bytes) : Nat → Units → List Node → Option (Nat × Units)
  | 0, _, _ => none
  | fuel + 1, w, siblings =>
    if w.error < 0 then some (0,w)
    else match siblings with
      | [] => none
      | first :: rest => do
        let place ← place w first.code (rest.map Node.code)
        let last := (first :: rest).getLast (List.cons_ne_nil _ _)
        let w := w.mark place last.code ((first :: rest).map Node.code)
        let w ← (first :: rest).foldlM (insertSibling keys (insert keys fuel) place.begin) w
        return (place.begin,w)

namespace DoubleArray

def clear (d : DoubleArray) : DoubleArray := { d with array := none, size := 0 }

/-- The members of a cleared array when `build` calls `fetch`. -/
def start (d : DoubleArray) : Units where
  array := Function.update (fun _ => ⟨0,0⟩) 0 ⟨1,0⟩
  used _ := false
  size := d.size
  nextCheckPos := 0
  error := d.error

/-- `build` on a cleared array: what it returns, and the array. -/
def build (d : DoubleArray) (keys : List Bytes) : Option (Int × DoubleArray) :=
  if keys.isEmpty then some (0,d)
  else do
    let (error,siblings) := fetch keys ⟨0,0,0,keys.length⟩ d.error
    let (_,w) ← insert keys ((keys.map List.length).sum + 1) { d.start with error } siblings
    return (w.error,⟨some w.array,w.size + (2^8 + 1),w.error⟩)

end DoubleArray

/-- Accesses that the program must not make, and a loop that runs out of fuel. -/
inductive Fault
  | nullArray
  | outsideArray
  | danglingKey
  | outsideResult
  | outsideData
  | noReturn
  deriving DecidableEq

/-- `result_pair_type`. -/
structure ResultPair where
  value : Int
  length : Nat
  deriving DecidableEq

/-- What `commonPrefixSearch` has counted and what it has stored. -/
structure Found where
  num : Nat
  result : List ResultPair

def Found.add (found : Found) (resultLen : Nat) (pair : ResultPair) : Found where
  num := found.num + 1
  result := if found.num < resultLen then found.result ++ [pair] else found.result

namespace DoubleArray

/-- A negative position wraps to one far behind the array. -/
def read (d : DoubleArray) (pos : Int) : Except Fault Cell :=
  match d.array with
  | none => .error .nullArray
  | some array => if pos < 0 then .error .outsideArray else .ok (array pos.toNat)

/-- The test for a key that ends at the node with place `b`. -/
def visit (d : DoubleArray) (resultLen i : Nat) (b : Int) (found : Found) : Except Fault Found := do
  let cell ← d.read b
  return if b = cell.check ∧ cell.base < 0 then found.add resultLen ⟨-cell.base - 1,i⟩ else found

def commonPrefixLoop (d : DoubleArray) (resultLen : Nat) : Bytes → Nat → Int → Found → Except Fault Found
  | [], i, b, found => d.visit resultLen i b found
  | c :: key, i, b, found => do
    let found ← d.visit resultLen i b found
    let cell ← d.read (b + c.toNat + 1)
    if b = cell.check then commonPrefixLoop d resultLen key (i + 1) cell.base found else return found

def commonPrefixSearch (d : DoubleArray) (key : Bytes) (resultLen : Nat) : Except Fault Found := do
  let root ← d.read 0
  commonPrefixLoop d resultLen key 0 root.base ⟨0,[]⟩

def exactMatchLoop (d : DoubleArray) (len : Nat) : Bytes → Int → Except Fault ResultPair
  | [], b => do
    let cell ← d.read b
    return if b = cell.check ∧ cell.base < 0 then ⟨-cell.base - 1,len⟩ else ⟨-1,0⟩
  | c :: key, b => do
    let cell ← d.read (b + c.toNat + 1)
    if b = cell.check then exactMatchLoop d len key cell.base else return ⟨-1,0⟩

def exactMatchSearch (d : DoubleArray) (key : Bytes) : Except Fault ResultPair := do
  let root ← d.read 0
  exactMatchLoop d key.length key root.base

end DoubleArray
end WebSearch.Darts
