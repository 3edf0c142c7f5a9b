import WebSearch.TargetNames
import WebSearch.TopologicalSort
import WebSearch.Library.PosixPath
import WebSearch.Library.PythonRepr
import WebSearch.Library.Script

/-! `blade/blade.py`, `blade/cc_targets.py` and `blade/gen_rule_target.py`: the rules of
the generated script. A rule is a text with variables in it, as the format strings of
the source have them. -/
namespace WebSearch.Blade
open DependencyAnalyzer Library Function

inductive Kind
  | ccLibrary
  | prebuiltCcLibrary
  | ccBinary
  | ccTest
  | ccPlugin
  | genRule
  | systemLibrary
  deriving DecidableEq

def Kind.type : Kind → String
  | .ccLibrary => "cc_library"
  | .prebuiltCcLibrary => "prebuilt_cc_library"
  | .ccBinary => "cc_binary"
  | .ccTest => "cc_test"
  | .ccPlugin => "cc_plugin"
  | .genRule => "gen_rule"
  | .systemLibrary => "system_library"

/-- What the rules of a target read of it besides what the analysis works on. The
flags are those that `_get_cc_flags` returns. -/
structure Source where
  kind : Kind
  srcs : List String
  linkAllSymbols : Bool
  exportDynamic : Bool
  warning : String
  cppFlags : List String
  incs : List String
  extraLinkflags : List String
  outs : List String
  cmd : String

structure Options where
  m : String
  profile : String
  generateDynamic : Bool
  noTest : Bool

structure Config where
  buildPath : String
  linkflags : List String
  recentGcc : Bool

/-! Rules. -/

inductive Var
  | env (id : TargetId)
  | objs (id : TargetId)
  | obj (id : TargetId) (src : String)
  | lib (id : TargetId) (suffix : String)
  deriving DecidableEq

def Var.text : Var → String
  | .env id => envName id
  | .objs id => objsName id
  | .obj id src => objName id src
  | .lib id suffix => generateVariableName id.1 id.2 suffix

inductive Piece
  | text (s : String)
  | var (v : Var)

def Piece.string : Piece → String
  | .text s => s
  | .var v => v.text

structure Rule where
  assigned : Option Var
  body : List Piece

/-- The line that `_write_rule` appends. -/
def Rule.line (rule : Rule) : String :=
  (match rule.assigned with
    | some v => v.text ++ " = "
    | none => "") ++ String.join (rule.body.map Piece.string) ++ "\n"

def vars (pieces : List Piece) : List Var := pieces.filterMap fun
  | .text _ => none
  | .var v => some v

def Rule.uses (rule : Rule) : List Var := vars rule.body

instance : Script.Command Rule Var := ⟨Rule.uses,Rule.assigned⟩

def joined (separator : String) (pieces : List Piece) : List Piece := pieces.intersperse (.text separator)

def append (id : TargetId) (key : String) (value : List Piece) : Rule :=
  ⟨none,[.var (.env id),.text (".Append(" ++ key ++ "=")] ++ value ++ [.text ")"]⟩

def depends (id : TargetId) (target needed : List Piece) : Rule :=
  ⟨none,[.var (.env id),.text ".Depends("] ++ target ++ [.text ", "] ++ needed ++ [.text ")"]⟩

/-- The format of `Library`, `SharedLibrary` and `Program`. -/
def construct (id : TargetId) (result : Var) (builder file : String) (libs : List Piece) : Rule :=
  ⟨some result,[.var (.env id),.text ("." ++ builder ++ "(\"" ++ file ++ "\", "),.var (.objs id)] ++ libs ++ [.text ")"]⟩

/-- Everything that the rules of one target may look at. -/
structure Context where
  options : Options
  config : Config
  targets : Targets
  source : TargetId → Source

section Rules
variable (context : Context) (id : TargetId)

def targetFilePath (name : String) : String :=
  PosixPath.join (PosixPath.join context.config.buildPath id.1) name

def cloneEnv : Rule := ⟨some (.env id),[.text "top_env.Clone()"]⟩

def cloneCcEnv : Rule :=
  ⟨some (.env id),[.text (if (context.source id).warning = "yes" then "env_with_error.Clone()" else "env_no_warning.Clone()")]⟩

def setupCcFlags : List Rule :=
  let source := context.source id
  (if source.cppFlags = [] then [] else [append id "CPPFLAGS" [.text (PythonRepr.strList source.cppFlags)]]) ++
  (if source.incs = [] then [] else [append id "CPPPATH" [.text (PythonRepr.strList source.incs)]])

def setupAsFlags : List Rule := [append id "ASFLAGS" [.text (PythonRepr.strList ["--" ++ context.options.m])]]

def setupExtraLinkFlags : List Rule :=
  let extraLinkflags := (context.source id).extraLinkflags
  if extraLinkflags = [] then [] else [append id "LINKFLAGS" [.text (PythonRepr.strList extraLinkflags)]]

def objectRules (src : String) : List Rule :=
  let targetPath := PosixPath.join (PosixPath.join (PosixPath.join context.config.buildPath id.1) (id.2 ++ ".objs")) src
  [⟨some (.obj id src),[.var (.env id),.text (".SharedObject(target = \"" ++ targetPath ++
      "\" + top_env[\"OBJSUFFIX\"], source = \"" ++ targetFilePath context id src ++ "\")")]⟩,
    depends id [.var (.obj id src)] [.text ("\"" ++ targetFilePath context id src ++ "\"")]]

def ccObjectsRules : List Rule :=
  let srcs := (context.source id).srcs
  setupCcFlags context id ++ setupAsFlags context id ++ srcs.flatMap (objectRules context id) ++
    [⟨some (.objs id),[.text "["] ++ joined "," (srcs.map fun src => .var (.obj id src)) ++ [.text "]"]⟩]

/-- One text is part of the other: `in` for strings. -/
def within (part whole : String) : Bool := decide (part.toList <:+: whole.toList)

def depIsLibrary (dep : TargetId) : Bool :=
  within "library" (context.source dep).kind.type || within "plugin" (context.source dep).kind.type

def libName (suffix : String) (dep : TargetId) : Piece :=
  if dep.1 = "#" then .text ("'" ++ dep.2 ++ "'") else .var (.lib dep suffix)

/-- The libraries whose symbols are all linked, and the others. -/
def staticDepsList (deps : List TargetId) : List Piece × List Piece :=
  let libs := deps.filter (depIsLibrary context)
  ((libs.filter fun dep => (context.source dep).linkAllSymbols).map (libName ""),
    (libs.filter fun dep => !(context.source dep).linkAllSymbols).map (libName ""))

def dynamicDepsList (deps : List TargetId) : List Piece :=
  (deps.filter fun dep => depIsLibrary context dep &&
    !((context.source dep).kind = .ccLibrary && (context.source dep).srcs = [])).map (libName "dynamic")

def libStr (libs : List Piece) : List Piece := [.text "LIBS=["] ++ joined "," libs ++ [.text "]"]

def wholeLinkFlags (libs : List Piece) : List Piece :=
  if libs = [] then []
  else joined ", " ([.text "\"-Wl,--whole-archive\""] ++ libs ++ [.text "\"-Wl,--no-whole-archive\""])

inductive RuleError
  | keyError (id : TargetId)
  | attributeError (id : TargetId)
  deriving DecidableEq

/-- The attribute `var_name` of the `gen_rule` targets among the dependencies: it is
set when their rules are written. -/
def genRuleVars (varName : TargetId → Option Var) (deps : List TargetId) : Except RuleError (List Var) :=
  (deps.filter fun d => (context.source d).kind = .genRule).mapM fun d => match varName d with
    | some v => .ok v
    | none => .error (.attributeError d)

def targetExplictDependency (file : Var) (genRules : List Var) : List Rule :=
  genRules.map fun srcsList => depends id [.text "[",.var file,.text "]"] [.text "[",.var srcsList,.text "]"]

def staticCcLibrary (genRules : List Var) : List Rule :=
  let varName := Var.lib id ""
  [construct id varName "Library" (targetFilePath context id id.2) [],
    depends id [.var varName] [.var (.objs id)]] ++ targetExplictDependency id varName genRules

def dynamicCcLibrary (deps : List TargetId) (genRules : List Var) : List Rule :=
  let varName := Var.lib id "dynamic"
  setupExtraLinkFlags context id ++
  (if (context.source id).srcs = [] ∧ deps = [] then [] else
    [append id "LINKFLAGS" [.text "[\"-Xlinker\", \"--no-undefined\"]"],
      construct id varName "SharedLibrary" (targetFilePath context id id.2) (.text ", " :: libStr (dynamicDepsList context deps)),
      depends id [.var varName] [.var (.objs id)]]) ++ targetExplictDependency id varName genRules

def prebuiltFile (suffix : String) : String := "lib" ++ id.2 ++ "." ++ suffix

def prebuiltRules (suffix : String) (varName : Var) : List Rule :=
  let buildPath := targetFilePath context id (prebuiltFile id suffix)
  let srcPath := PosixPath.join (PosixPath.join id.1 ("lib" ++ context.options.m ++ "_" ++ context.options.profile)) (prebuiltFile id suffix)
  [⟨none,[.text ("Command(\"" ++ buildPath ++ "\", \"" ++ srcPath ++ "\", Copy(\"$TARGET\", \"$SOURCE\"))")]⟩,
    ⟨some varName,[.text ("top_env.File(\"" ++ buildPath ++ "\")")]⟩]

def needStaticLibTargets : List String :=
  ["cc_test","cc_binary","cc_benchmark","cc_mapr","cc_plugin","swig_library"]

def allowOnlyDynamic : Bool :=
  context.targets.order.all fun key => !(id ∈ context.targets.preds key && (context.source key).kind.type ∈ needStaticLibTargets)

def prebuiltCcLibrary (dynamic : Bool) : List Rule :=
  (if allowOnlyDynamic context id then [] else prebuiltRules context id "a" (.lib id "")) ++
  (if dynamic then prebuiltRules context id "so" (.lib id "dynamic") else [])

def buildDynamic (target : Target) : Bool := context.options.generateDynamic || target.data.buildDynamic

def exportFlags : List Rule :=
  if (context.source id).exportDynamic then [append id "LINKFLAGS" [.text "\"-rdynamic\""]] else []

def wholeFlags (libs : List Piece) : List Rule :=
  if libs = [] then [] else [append id "LINKFLAGS" ([.text "["] ++ wholeLinkFlags libs ++ [.text "]"])]

/-- The libraries that are linked whole are waited for. -/
def wholeDepends (varName : Var) (libs : List Piece) : List Rule :=
  if libs = [] then [] else [depends id [.var varName] ([.text "["] ++ joined ", " libs ++ [.text "]"])]

def versionRules (varName : Var) : List Rule :=
  [append id "LINKFLAGS" [.text "str(version_obj[0])"],
    ⟨none,[.var (.env id),.text ".Requires(",.var varName,.text ", version_obj)"]⟩]

def staticCcBinary (deps : List TargetId) (genRules : List Var) : List Rule :=
  let varName := Var.lib id ""
  let (whole,libs) := staticDepsList context deps
  (if context.config.recentGcc then
    [append id "LINKFLAGS" [.text (PythonRepr.strList ["-static-libgcc","-static-libstdc++"])]] else []) ++
  wholeFlags id whole ++ exportFlags context id ++
  (if context.config.linkflags = [] then [] else
    [append id "LINKFLAGS" [.text (PythonRepr.strList context.config.linkflags)]]) ++
  setupExtraLinkFlags context id ++
  [construct id varName "Program" (targetFilePath context id id.2) (.text ", " :: libStr libs),
    depends id [.var varName] [.var (.objs id)]] ++
  targetExplictDependency id varName genRules ++ wholeDepends id varName whole ++ versionRules id varName

def dynamicCcBinary (deps : List TargetId) (genRules : List Var) : List Rule :=
  let varName := Var.lib id ""
  exportFlags context id ++ setupExtraLinkFlags context id ++
  [construct id varName "Program" (targetFilePath context id id.2) (.text ", " :: libStr (dynamicDepsList context deps)),
    depends id [.var varName] [.var (.objs id)]] ++
  versionRules id varName ++ targetExplictDependency id varName genRules

def ccPlugin (deps : List TargetId) (genRules : List Var) : List Rule :=
  let varName := Var.lib id "dynamic"
  let (whole,libs) := staticDepsList context deps
  setupExtraLinkFlags context id ++ wholeFlags id whole ++
  (if (context.source id).srcs = [] ∧ deps = [] then [] else
    [construct id varName "SharedLibrary" (targetFilePath context id id.2) (.text ", " :: libStr libs)]) ++
  wholeDepends id varName whole ++ targetExplictDependency id varName genRules

def srcsList (srcs : List String) : String :=
  String.intercalate "," (srcs.map fun src => "\"" ++ targetFilePath context id src ++ "\"")

def ruleCommand : String :=
  (((((context.source id).cmd.replace "$SRCS" "$SOURCES").replace "$OUTS" "$TARGETS").replace "$FIRST_SRC" "$SOURCE").replace
    "$FIRST_OUT" "$TARGET").replace "$BUILD_DIR" context.config.buildPath

def depSkipList : List String := ["system_library","prebuilt_cc_library"]

def genRule (deps : List TargetId) (genRules : List Var) : List Rule :=
  let source := context.source id
  let varName := Var.lib id ""
  let srcsStr := if source.srcs = [] then "time_value" else srcsList context id source.srcs
  [⟨some varName,[.var (.env id),.text (".Command([" ++ srcsList context id source.outs ++ "], [" ++ srcsStr ++ "], \"" ++
      ruleCommand context id ++ "\")")]⟩] ++
  targetExplictDependency id varName genRules ++
  (deps.filter fun d => (context.source d).kind.type ∉ depSkipList).map fun d => depends id [.var varName] [.var (.lib d "")]

/-- `scons_rules` of the class of the target. -/
def sconsRules (varName : TargetId → Option Var) (target : Target) : Except RuleError (List Rule) :=
  let deps := target.expandedDeps
  match (context.source id).kind with
  | .ccLibrary => do
    let genRules ← genRuleVars context varName deps
    return cloneCcEnv context id :: ccObjectsRules context id ++ staticCcLibrary context id genRules ++
      if buildDynamic context target then dynamicCcLibrary context id deps genRules else []
  | .prebuiltCcLibrary => .ok (cloneCcEnv context id :: prebuiltCcLibrary context id (buildDynamic context target))
  | .ccBinary | .ccTest => do
    let genRules ← genRuleVars context varName deps
    return cloneCcEnv context id :: ccObjectsRules context id ++
      if target.data.dynamicLink then dynamicCcBinary context id deps genRules else staticCcBinary context id deps genRules
  | .ccPlugin => do
    let genRules ← genRuleVars context varName deps
    return cloneCcEnv context id :: ccObjectsRules context id ++ ccPlugin context id deps genRules
  | .genRule => do
    let genRules ← genRuleVars context varName deps
    return cloneEnv id :: genRule context id deps genRules
  | .systemLibrary => .ok []

end Rules

/-- The buffer of the rules, and the attributes that the targets got on the way. -/
structure Generated where
  rulesBuf : List Rule
  varName : TargetId → Option Var

def isSconsObjectType (type : String) : Bool := type ≠ "system_library"

def genTarget (context : Context) (generated : Generated) (k : TargetId) : Except RuleError Generated :=
  match context.targets.find k with
  | none => .error (.keyError k)
  | some target =>
    let kind := (context.source k).kind
    if !isSconsObjectType kind.type then .ok generated
    else if context.options.noTest && kind.type = "cc_test" then .ok generated
    else do
      let rules ← sconsRules context k generated.varName target
      return ⟨generated.rulesBuf ++ rules,
        if kind = .genRule then update generated.varName k (some (.lib k "")) else generated.varName⟩

def genTargetsRules (context : Context) (sortedTargetsKeys : List TargetId) : Except RuleError (List Rule) := do
  let generated ← sortedTargetsKeys.foldlM (genTarget context) ⟨[],fun _ => none⟩
  return generated.rulesBuf

/-! A whole build. -/

inductive BuildError
  | analysis (stop : Stop)
  | rules (error : RuleError)
  deriving DecidableEq

/-- The targets of a build: what the analysis works on, and the rest of each target.
Only the constructors of binaries and tests set `dynamic_link`, and nothing but the
analysis sets `build_dynamic`. -/
structure Build where
  graph : Targets
  source : TargetId → Source
  typed : ∀ id target, graph.find id = some target → target.type = .other (source id).kind.type
  dynamic : ∀ id target, graph.find id = some target → target.data.dynamicLink = true →
    (source id).kind = .ccBinary ∨ (source id).kind = .ccTest
  unmarked : ∀ id target, graph.find id = some target → target.data.buildDynamic = false
  system : ∀ id, (source id).kind = .systemLibrary → id.1 = "#"

/-- `analyze_targets`, and then the rules. -/
def generateBuildRules (keysOrder : List TargetId → List TargetId) (build : Build) (options : Options) (config : Config) :
    Except BuildError (List Rule) := do
  let targets ← (expandDeps build.graph).mapError (.analysis ∘ .failure)
  let sorted ← (topologicalSort keysOrder targets).mapError .analysis
  (genTargetsRules ⟨options,config,targets,build.source⟩ sorted).mapError .rules

end WebSearch.Blade
