import WebSearch.Tokenize
import WebSearch.Library.Dictionary
import Mathlib.Data.List.Infix

/-! `web_util/url_parser/tld_cleanup.cc`: a file of domain rules becomes a list of rules for
`gperf`. `GURL` is a parameter, and so is the fixed text in front of the rules. Files can be
read and written. -/
namespace WebSearch.TldCleanup
open Library StringUtil

structure Rule where
  exception : Bool
  wildcard : Bool
  deriving DecidableEq

/-- What `GURL` makes of a text: the host in the canonical one, where its length is not
negative. -/
structure Gurl where
  host : Option Bytes
  isValid : Bool

inductive NormalizeResult
  | success
  | warning
  | error
  deriving DecidableEq

def NormalizeResult.severity : NormalizeResult → Nat
  | .success => 0
  | .warning => 1
  | .error => 2

def NormalizeResult.max (a b : NormalizeResult) : NormalizeResult := if a.severity < b.severity then b else a

/-- What is logged. -/
inductive Message
  | ignoringEmpty
  | keepingProbablyInvalid (domain : Bytes)
  | ignoringNotNormalized (domain : Bytes)
  | keepingInvalid (domain : Bytes)
  deriving DecidableEq

/-- The text and the domain behind it. -/
def Message.text : Message → String × Bytes
  | .ignoringEmpty => ("Ignoring empty rule",[])
  | .keepingProbablyInvalid domain => ("Keeping probably invalid rule: ",domain)
  | .ignoringNotNormalized domain => ("Ignoring rule that couldn't be normalized: ",domain)
  | .keepingInvalid domain => ("Keeping rule that GURL says is invalid: ",domain)

/-- `outOfRange` is thrown by a string, and `check` is a failed `CHECK`. -/
inductive Failure
  | outOfRange
  | check
  | outOfFuel
  deriving DecidableEq

def slash : UInt8 := 47
def dot : UInt8 := 46
def bang : UInt8 := 33
def star : UInt8 := 42

def lineBreaks : Bytes := [13,10]
def spaces : Bytes := [13,10,32,9]

/-- `http://`. -/
def scheme : Bytes := [104,116,116,112,58,47,47]

structure Normalized where
  result : NormalizeResult
  domain : Bytes
  rule : Rule
  log : List Message

def ignoredEmpty (domain : Bytes) (rule : Rule) : Normalized := ⟨.warning,domain,rule,[.ignoringEmpty]⟩

/-- The last part of `NormalizeRule`: the domain through `GURL`. -/
def canonicalize (gurl : Bytes → Gurl) (domain : Bytes) (rule : Rule) : Normalized :=
  let odd : Bool := [star,dot] <:+: domain || domain.contains bang
  let log := if odd then [Message.keepingProbablyInvalid domain] else []
  let canonical := gurl (scheme ++ domain)
  match canonical.host with
  | none => ⟨.error,domain,rule,log ++ [.ignoringNotNormalized domain]⟩
  | some host =>
    let log := if canonical.isValid then log else log ++ [.keepingInvalid domain]
    ⟨if odd || !canonical.isValid then .warning else .success,host,rule,log⟩

def stripMark (gurl : Bytes → Gurl) (domain : Bytes) (rule : Rule) : Normalized :=
  let (domain,rule) :=
    if domain.head? = some bang then (domain.drop 1,{rule with exception := true})
    else if [star,dot].isPrefixOf domain then (domain.drop 2,{rule with wildcard := true})
    else (domain,rule)
  if domain.length = 0 then ignoredEmpty domain rule else canonicalize gurl domain rule

def normalizeRule (gurl : Bytes → Gurl) (domain : Bytes) (rule : Rule) : Except Failure Normalized :=
  match domain with
  | [] => .error .outOfRange
  | first :: rest =>
    let domain := if first = dot then rest else first :: rest
    if domain.length = 0 then .ok (ignoredEmpty domain rule)
    else
      let domain := if domain.getLast? = some dot then domain.dropLast else domain
      if domain.length = 0 then .ok (ignoredEmpty domain rule) else .ok (stripMark gurl domain rule)

structure Cleaning where
  rules : List (Bytes × Rule)
  extraRules : List Bytes
  result : NormalizeResult
  log : List Message

/-- What follows the last dot, unless there is no dot or nothing follows. -/
def trueTld (domain : Bytes) : Option Bytes :=
  let label := (domain.reverse.takeWhile (· ≠ dot)).reverse
  if label.length < domain.length ∧ 0 < label.length then some label else none

def Cleaning.insertTld (state : Cleaning) (domain : Bytes) : Cleaning :=
  match trueTld domain with
  | some label => {state with extraRules := state.extraRules.insert label}
  | none => state

/-- One line that is no comment. -/
def addRule (gurl : Bytes → Gurl) (domain : Bytes) (state : Cleaning) : Except Failure Cleaning := do
  let normalized ← normalizeRule gurl domain ⟨false,false⟩
  let state := {state with result := state.result.max normalized.result, log := state.log ++ normalized.log}
  if normalized.result = .error then return state
  else if (state.rules.lookup normalized.domain).isSome then .error .check
  else return {state with rules := put normalized.domain normalized.rule state.rules}.insertTld normalized.domain

/-- `assign` takes the file for a C string, which ends at the first NUL. -/
def assignFrom (data : Bytes) (pos count : Nat) : Except Failure Bytes :=
  if pos ≤ (cString data).length then .ok (((cString data).drop pos).take count) else .error .outOfRange

/-- The loop over the file. -/
def normalizeLoop (gurl : Bytes → Gurl) (data : Bytes) : Nat → Nat → Cleaning → Except Failure Cleaning
  | 0,_,_ => .error .outOfFuel
  | fuel + 1,lineStart,state =>
    if lineStart < data.length then do
      let comment := data[lineStart]? = some slash ∧ data[lineStart + 1]? = some slash
      let lineEnd := (findFirstOf data (if comment then lineBreaks else spaces) lineStart).getD data.length
      let state ← if comment then pure state else do
        let domain ← assignFrom data lineStart (lineEnd - lineStart)
        addRule gurl domain state
      let lineStart := (findFirstOf data lineBreaks lineEnd).getD data.length
      let lineStart := (findFirstNotOf data lineBreaks lineStart).getD data.length
      normalizeLoop gurl data fuel lineStart state
    else .ok state

def addTld (rules : List (Bytes × Rule)) (label : Bytes) : List (Bytes × Rule) :=
  if (rules.lookup label).isNone then put label ⟨false,false⟩ rules else rules

def ruleType (rule : Rule) : UInt8 := if rule.exception then 49 else if rule.wildcard then 50 else 48

/-- `name, type` on lines of their own, between two lines `%%`. -/
def writeRules (header : Bytes) (rules : List (Bytes × Rule)) : Bytes :=
  header ++ (rules.flatMap fun entry => entry.1 ++ [44,32,ruleType entry.2,10]) ++ [37,37,10]

/-- The rules in the order of a map, and the file that is written. -/
structure Output where
  rules : List (Bytes × Rule)
  text : Bytes
  result : NormalizeResult
  log : List Message

def byName (entry other : Bytes × Rule) : Bool := entry.1 ≤ other.1

def normalizeFile (gurl : Bytes → Gurl) (header data : Bytes) : Except Failure Output := do
  let state ← normalizeLoop gurl data (data.length + 1) 0 ⟨[],[],.success,[]⟩
  let rules := (state.extraRules.mergeSort fun a b => decide (a ≤ b)).foldl addTld state.rules
  let rules := rules.mergeSort byName
  return ⟨rules,writeRules header rules,state.result,state.log⟩

end WebSearch.TldCleanup
