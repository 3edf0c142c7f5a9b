import WebSearch.DependencyAnalyzer
import WebSearch.Library.PosixPath
import Mathlib.Data.List.Infix

/-! `blade/target.py` and the classes of the targets: the names that a target and its
sources get in the generated script. Most of them have the text of a path and of a name in
them, with `_mAgIc_` between them. -/
namespace WebSearch.Blade
open DependencyAnalyzer Library

/-- The table of `string.maketrans`. -/
def regularChar (c : Char) : Char := if c ∈ [',','-','/','.','+','*'] then '_' else c

def regularVariableName (var : String) : String := String.ofList (var.toList.map regularChar)

def suffixStr (suffix : String) : String := if suffix = "" then "" else "_suFFix_" ++ suffix

def generateVariableName (path name suffix : String) : String :=
  "v_" ++ regularVariableName path ++ "_mAgIc_" ++ regularVariableName name ++ suffixStr suffix

def envName (id : TargetId) : String := "env_" ++ generateVariableName id.1 id.2 ""

def objsName (id : TargetId) : String := "objs_" ++ generateVariableName id.1 id.2 ""

/-- The object of one source file, in `_cc_objects_rules`. -/
def objName (id : TargetId) (src : String) : String :=
  generateVariableName id.1 src "" ++ "_" ++ regularVariableName id.2 ++ "_object"

/-- The type of a target, with what its rules ask besides the fields of `Target`. The
`cppFiles` are the paths, with the build path, of what `thrift` makes of a source. -/
inductive TargetType
  | ccLibrary
  | prebuiltCcLibrary (allowOnlyDynamic : Bool)
  | ccBinary
  | ccTest (noTest : Bool)
  | ccPlugin
  | lexYaccLibrary
  | protoLibrary (generatePython : Bool)
  | thriftLibrary (generatePython : Bool) (cppFiles : String → List String)
  | resourceLibrary
  | swigLibrary (generateJava generatePhp : Bool)
  | genRule
  | pyBinary (prebuilt : Bool)
  | javaJar (prebuilt : Bool)
  | systemLibrary

/-- A target as far as its names and its checks go. -/
structure Named where
  id : TargetId
  type : TargetType
  srcs : List String
  expandedDeps : List TargetId
  buildDynamic : Bool

def checkName (target : Named) : Bool := '/' ∉ target.id.2.toList

def checkSrcs (target : Named) : Bool :=
  target.srcs.all fun s => !(decide (['.','.'] <:+: s.toList) || decide (['/'] <+: s.toList))

/-- What one build accepts: distinct keys, and each target passes its checks. -/
def Accepted (targets : List Named) : Prop :=
  (targets.map Named.id).Nodup ∧ ∀ target ∈ targets, checkName target = true ∧ checkSrcs target = true

/-! The names. -/

/-- What is in front of the variable. -/
inductive Front
  | none
  | env
  | objs
  | lex
  | yacc
  deriving DecidableEq

def Front.text : Front → String
  | .none => ""
  | .env => "env_"
  | .objs => "objs_"
  | .lex => "lex_"
  | .yacc => "yacc_"

/-- A name of the script: a variable with something around it, or a text without a path. -/
inductive Name
  | withPath (front : Front) (path name suffix ending : String)
  | plain (text : String)

def Name.text : Name → String
  | .withPath front path name suffix ending => front.text ++ generateVariableName path name suffix ++ ending
  | .plain text => text

namespace Named
variable (t : Named)

def env : Name := .withPath .env t.id.1 t.id.2 "" ""
def objs (ending : String) : Name := .withPath .objs t.id.1 t.id.2 "" ending
def result (suffix ending : String) : Name := .withPath .none t.id.1 t.id.2 suffix ending

def object (src : String) : Name :=
  .withPath .none t.id.1 src "" ("_" ++ regularVariableName t.id.2 ++ "_object")

/-- The object of a file that a source is turned into. -/
def fileObject (file suffix : String) : Name := .withPath .none t.id.1 file suffix "_object"

/-- The object of a resource has no path in its name. -/
def resourceObject (src : String) : Name :=
  let baseSrcName := regularVariableName (regularVariableName (PosixPath.basename (PosixPath.join t.id.1 src)) ++ ".c")
  .plain (baseSrcName ++ "_" ++ regularVariableName t.id.2 ++ "_object")

/-- There is something to link. -/
def links : Prop := t.srcs ≠ [] ∨ t.expandedDeps ≠ []

instance : Decidable t.links := inferInstanceAs (Decidable (_ ∨ _))

/-- `_cc_library`, and `_dynamic_cc_library` where it is wanted. -/
def library : List Name :=
  [t.env,t.objs "",t.result "" ""] ++ if t.buildDynamic = true ∧ t.links then [t.result "dynamic" ""] else []

def pythonFiles (generatePython : Bool) : List Name :=
  if generatePython = true ∧ t.srcs ≠ [] then [t.result "" "_python"] else []

/-- The library of one language that `swig` is run for. -/
def swigged (ending suffix : String) : List Name := t.objs ending :: if t.links then [t.result suffix ""] else []

/-- The names that the rules of a target give to it, without those of builders and commands. -/
def names : List Name := match t.type with
  | .ccLibrary | .resourceLibrary => t.library
  | .prebuiltCcLibrary allowOnlyDynamic =>
    t.env :: (if allowOnlyDynamic then [] else [t.result "" ""]) ++ if t.buildDynamic then [t.result "dynamic" ""] else []
  | .ccBinary => [t.env,t.objs "",t.result "" ""]
  | .ccTest noTest => if noTest then [] else [t.env,t.objs "",t.result "" ""]
  | .ccPlugin => [t.env,t.objs ""] ++ if t.links then [t.result "dynamic" ""] else []
  | .lexYaccLibrary => t.library ++ [.withPath .lex t.id.1 t.id.2 "" "",.withPath .yacc t.id.1 t.id.2 "" ""]
  | .protoLibrary generatePython | .thriftLibrary generatePython _ => t.library ++ t.pythonFiles generatePython
  | .swigLibrary generateJava generatePhp =>
    t.env :: t.swigged "_py" "dynamic_py" ++ (if generateJava then t.swigged "_dynamic_java" "dynamic_java" else []) ++
      if generatePhp then t.swigged "_php" "" else []
  | .genRule => [t.env,t.result "" ""]
  | .pyBinary prebuilt => t.env :: if prebuilt then [] else [t.result "" "_python_binary_var"]
  | .javaJar prebuilt => t.env :: if prebuilt then [] else [t.result "" "_classes",t.result "" ("_" ++ t.id.2 ++ "_classes_jar")]
  | .systemLibrary => []

/-- The names that they give to the objects of a source. -/
def objectNames (src : String) : List Name := match t.type with
  | .ccLibrary | .ccBinary | .ccPlugin => [t.object src]
  | .ccTest noTest => if noTest then [] else [t.object src]
  | .lexYaccLibrary => [t.fileObject (src ++ ".cc") ""]
  | .protoLibrary _ => [t.fileObject src ""]
  | .thriftLibrary _ cppFiles => (cppFiles src).map fun file => t.fileObject file ""
  | .resourceLibrary => [t.resourceObject src]
  | .swigLibrary generateJava generatePhp =>
    t.fileObject src "python" :: (if generateJava then [t.fileObject src "dynamic_java"] else []) ++
      if generatePhp then [t.fileObject src "php"] else []
  | .prebuiltCcLibrary _ | .genRule | .pyBinary _ | .javaJar _ | .systemLibrary => []

/-- All of them, each with the target and the source that it belongs to. -/
def generated : List ((TargetId × Option String) × Name) :=
  t.names.map (fun name => ((t.id,none),name)) ++
    t.srcs.flatMap fun src => (t.objectNames src).map fun name => ((t.id,some src),name)

end Named

/-- The names of a C++ target are those of the functions above. -/
theorem names_text (t : Named) (src : String) :
    t.env.text = envName t.id ∧ (t.objs "").text = objsName t.id ∧ (t.object src).text = objName t.id src := by
  refine ⟨String.append_empty,String.append_empty,?_⟩
  simp [Named.object,Name.text,Front.text,objName,String.append_assoc]

/-- A name tells its target and its source. -/
def Distinguished (targets : List Named) : Prop :=
  ∀ t ∈ targets, ∀ u ∈ targets, ∀ x ∈ t.generated, ∀ y ∈ u.generated, x.2.text = y.2.text → x.1 = y.1

/-! When two names are the same. -/

def magic : List Char := ['_','m','A','g','I','c','_']

/-- The text of a path or a name as it is read in the script. -/
def reads (var : String) : List Char := var.toList.map regularChar

/-- The parts agree, or the second path is the first one continued by what the first
name begins with. -/
def Continues (path name : List Char) (otherPath otherName : List Char) : Prop :=
  (otherPath = path ∧ name = otherName) ∨
  (∃ middle, otherPath = path ++ magic ++ middle ∧ name = middle ++ magic ++ otherName) ∨
  (otherPath = path ++ ['_','m','A','g','I','c'] ∧ name = ['m','A','g','I','c','_'] ++ otherName)

/-- What stands behind the separator. -/
def readsBehind (name suffix ending : String) : List Char := reads name ++ ((suffixStr suffix).toList ++ ending.toList)

/-- Two names that read alike: the same is in front of the variables, and their parts agree
or continue each other; a name without a path is the same text. -/
def Name.ReadAlike : Name → Name → Prop
  | .withPath front path name suffix ending, .withPath front' path' name' suffix' ending' => front = front' ∧
    (Continues (reads path) (readsBehind name suffix ending) (reads path') (readsBehind name' suffix' ending') ∨
      Continues (reads path') (readsBehind name' suffix' ending') (reads path) (readsBehind name suffix ending))
  | x, y => x.text = y.text

theorem reads_eq (var : String) : (regularVariableName var).toList = reads var := by
  rw [regularVariableName,String.toList_ofList,reads]

theorem text_toList (front : Front) (path name suffix ending : String) :
    (Name.withPath front path name suffix ending).text.toList =
      front.text.toList ++ (['v','_'] ++ (reads path ++ (magic ++ readsBehind name suffix ending))) := by
  simp only [Name.text,generateVariableName,String.toList_append,reads_eq,List.append_assoc,readsBehind]
  rfl

/-- The only texts that both end a start of the separator and begin another one are
the whole separator and its last character. -/
theorem magic_overlap {x n m : List Char} (same : magic ++ n = x ++ (magic ++ m)) :
    (x = [] ∧ n = m) ∨ (∃ middle, x = magic ++ middle ∧ n = middle ++ magic ++ m) ∨
      (x = ['_','m','A','g','I','c'] ∧ n = ['m','A','g','I','c','_'] ++ m) := by
  rcases List.append_eq_append_iff.mp same with ⟨middle,longer,rest⟩ | ⟨y,shorter,rest⟩
  · exact .inr (.inl ⟨middle,longer,by rw [rest,List.append_assoc]⟩)
  · have start : x ∈ magic.inits := (List.mem_inits _ _).mpr ⟨y,shorter.symm⟩
    simp only [magic,List.inits,List.map_cons,List.map_nil,List.mem_cons,List.not_mem_nil,or_false] at start
    rcases start with rfl | rfl | rfl | rfl | rfl | rfl | rfl | rfl
    all_goals
      obtain rfl := List.append_cancel_left (shorter.symm.trans rfl)
      simp_all [magic]

theorem concat_eq_iff {p n q m : List Char} :
    p ++ (magic ++ n) = q ++ (magic ++ m) ↔ Continues p n q m ∨ Continues q m p n := by
  constructor
  · intro same
    rcases List.append_eq_append_iff.mp same with ⟨x,longer,rest⟩ | ⟨x,longer,rest⟩
    · left
      rcases magic_overlap rest with ⟨rfl,names⟩ | ⟨middle,rfl,name⟩ | ⟨rfl,name⟩
      · exact .inl ⟨by rw [longer,List.append_nil],names⟩
      · exact .inr (.inl ⟨middle,by rw [longer,List.append_assoc],name⟩)
      · exact .inr (.inr ⟨longer,name⟩)
    · right
      rcases magic_overlap rest with ⟨rfl,names⟩ | ⟨middle,rfl,name⟩ | ⟨rfl,name⟩
      · exact .inl ⟨by rw [longer,List.append_nil],names⟩
      · exact .inr (.inl ⟨middle,by rw [longer,List.append_assoc],name⟩)
      · exact .inr (.inr ⟨longer,name⟩)
  · have back {p n q m : List Char} (continued : Continues p n q m) : p ++ (magic ++ n) = q ++ (magic ++ m) := by
      rcases continued with ⟨rfl,rfl⟩ | ⟨middle,rfl,rfl⟩ | ⟨rfl,rfl⟩
      · rfl
      · simp only [List.append_assoc]
      · simp only [List.append_assoc,magic]
        rfl
    intro alike
    rcases alike with continued | continued
    · exact back continued
    · exact (back continued).symm

/-- What is in front of a variable is told by the first letter. -/
theorem front_unique {front front' : Front} {rest rest' : List Char}
    (same : front.text.toList ++ 'v' :: rest = front'.text.toList ++ 'v' :: rest') : front = front' := by
  have first := congrArg List.head? same
  cases front <;> cases front' <;> first | rfl | exact absurd first (by simp [Front.text])

theorem text_eq_iff {x y : Name} : x.text = y.text ↔ x.ReadAlike y := by
  cases x with
  | plain => rfl
  | withPath front path name suffix ending =>
    cases y with
    | plain => rfl
    | withPath front' path' name' suffix' ending' =>
      rw [← String.toList_inj,text_toList,text_toList,Name.ReadAlike,← concat_eq_iff]
      constructor
      · intro same
        obtain rfl := front_unique same
        rw [List.append_cancel_left_eq,List.append_cancel_left_eq] at same
        exact ⟨rfl,same⟩
      · rintro ⟨rfl,same⟩
        rw [same]

def ccLibrary (id : TargetId) (srcs : List String) : Named := ⟨id,.ccLibrary,srcs,[],false⟩

theorem not_distinguished {targets : List Named} {t u : Named} (one : t ∈ targets) (other : u ∈ targets)
    {item item' : TargetId × Option String} {x y : Name} (made : (item,x) ∈ t.generated) (made' : (item',y) ∈ u.generated)
    (same : x.text = y.text) (apart : item ≠ item') : ¬Distinguished targets :=
  fun distinguished => apart (distinguished t one u other _ made _ made' same)

end WebSearch.Blade
