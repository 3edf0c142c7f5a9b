import WebSearch.Darts
import Mathlib.Data.List.Sort

/-! `util/prefix_tree/prefix_tree.cc`. Strings that a vector moves may take their
buffers with them, as reference-counted strings do, or leave them behind; `stable`
says which, and the model does not choose. -/
namespace WebSearch
open Darts

/-- A `c_str()` pointer: what it pointed at, and the epoch in which it was taken. An
epoch ends when the strings are moved. -/
structure Pointer where
  text : Bytes
  epoch : Nat

structure PrefixTree where
  doubleArray : DoubleArray
  data : List Bytes
  keys : List Pointer
  epoch : Nat

namespace PrefixTree

def kMaxMatchNumber : Nat := 1024

/-- `sizeof(result_pair_type)`: an `int`, padding and a `size_t`. -/
def sizeofResultPair : Nat := 16

def fresh : PrefixTree := ⟨⟨none,0,0⟩,[],[],0⟩

def addString (tree : PrefixTree) (str : Bytes) : PrefixTree :=
  { tree with data := tree.data ++ [str], epoch := tree.epoch + 1 }

def readKey (pointer : Pointer) (stable : Bool) (epoch : Nat) : Except Fault Bytes :=
  if stable || pointer.epoch == epoch then .ok (cString pointer.text) else .error .danglingKey

/-- `Build`. The keys are not read when an earlier build has failed. -/
def build (stable : Bool) (tree : PrefixTree) : Except Fault (Bool × PrefixTree) := do
  let data := tree.data.insertionSort (· ≤ ·)
  let epoch := tree.epoch + 1
  let keys := tree.keys ++ data.map fun str => ⟨str,epoch⟩
  let texts ←
    if tree.doubleArray.error < 0 then pure (keys.map Pointer.text) else keys.mapM fun key => readKey key stable epoch
  match tree.doubleArray.clear.build texts with
  | none => .error .noReturn
  | some (error,doubleArray) => return (error == 0,⟨doubleArray,data,keys,epoch⟩)

/-- `data_[value]`. -/
def entry (tree : PrefixTree) (value : Int) : Except Fault Bytes :=
  if value < 0 then .error .outsideData
  else match tree.data[value.toNat]? with
    | some str => .ok str
    | none => .error .outsideData

/-- One turn of the loop over `result_pair`, which has `kMaxMatchNumber` elements. -/
def matchAt {α : Type} (tree : PrefixTree) (found : Found) (push : Nat → Bytes → α) (i : Nat) : Except Fault α :=
  match if i < kMaxMatchNumber then found.result[i]? else none with
  | none => .error .outsideResult
  | some pair => do return push pair.value.toNat (← tree.entry pair.value)

def search (tree : PrefixTree) (key : Bytes) : Except Fault Found :=
  tree.doubleArray.commonPrefixSearch (cString key) (kMaxMatchNumber * sizeofResultPair)

/-- What both `CommonMatch` and `CommonMatchKeyValue` do; `push` is what they append
for an index and its string. -/
def collect {α : Type} (push : Nat → Bytes → α) (tree : PrefixTree) (key : Bytes) (result : List α) :
    Except Fault (Bool × List α) := do
  let found ← tree.search key
  if kMaxMatchNumber < found.result.length then .error .outsideResult
  else if found.num = 0 then return (false,result)
  else return (true,result ++ (← (List.range found.num).mapM (tree.matchAt found push)))

def commonMatch (tree : PrefixTree) (key : Bytes) (result : List Bytes) : Except Fault (Bool × List Bytes) :=
  tree.collect (fun _ str => str) key result

/-- The overload with `const char*`. -/
def commonMatchCString (tree : PrefixTree) (key : Bytes) (result : List Bytes) : Except Fault (Bool × List Bytes) :=
  tree.collect (fun _ str => cString str) key result

/-- A `string*` into `data_` is its index. -/
def commonMatchKeyValue (tree : PrefixTree) (key : Bytes) (result : List Nat) : Except Fault (Bool × List Nat) :=
  tree.collect (fun i _ => i) key result

def exactMatch (tree : PrefixTree) (key : Bytes) : Except Fault Bool := do
  let pair ← tree.doubleArray.exactMatchSearch (cString key)
  return pair.value != -1

/-- The string that `*result` is set to, when the result is true. -/
def exactMatchKeyValue (tree : PrefixTree) (key : Bytes) : Except Fault (Option Bytes) := do
  let pair ← tree.doubleArray.exactMatchSearch (cString key)
  if pair.value = -1 then return none else return some (← tree.entry pair.value)

def suffixFirstCommonMatch (tree : PrefixTree) : Bytes → Except Fault (Option Bytes)
  | [] => .ok none
  | c :: key => do
    match ← tree.commonMatch (c :: key) [] with
    | (true,str :: _) => return some str
    | (true,[]) => .error .outsideResult
    | (false,_) => suffixFirstCommonMatch tree key

/-- The loop of `SuffixCommonMatchAll`. -/
def suffixMatches (tree : PrefixTree) : Bytes → List Bytes → Except Fault (List Bytes)
  | [], result => .ok result
  | c :: key, result => do
    let (matched,res) ← tree.commonMatch (c :: key) []
    suffixMatches tree key (if matched then result ++ res else result)

def suffixCommonMatchAll (tree : PrefixTree) (key : Bytes) (result : List Bytes) : Except Fault (Bool × List Bytes) := do
  let result ← tree.suffixMatches key result
  return (!result.isEmpty,result)

end PrefixTree
end WebSearch
