import WebSearch.SconsRules

/-! Which variables the rules of a target take from other targets, which ones they
assign, and when every variable is assigned before it is used. -/
namespace WebSearch.Blade
open DependencyAnalyzer Library Library.Script Relation Function

section Pieces

@[simp] theorem uses_eq (rule : Rule) : Command.uses rule = rule.uses := rfl
@[simp] theorem assigns_eq (rule : Rule) : Command.assigns rule = rule.assigned := rfl

@[simp] theorem uses_mk (assigned : Option Var) (body : List Piece) : (Rule.mk assigned body).uses = vars body := rfl

@[simp] theorem vars_nil : vars [] = [] := rfl
@[simp] theorem vars_text (s : String) (rest : List Piece) : vars (.text s :: rest) = vars rest := rfl
@[simp] theorem vars_var (v : Var) (rest : List Piece) : vars (.var v :: rest) = v :: vars rest := rfl

@[simp] theorem vars_append (first second : List Piece) : vars (first ++ second) = vars first ++ vars second :=
  List.filterMap_append

@[simp] theorem vars_joined (separator : String) (pieces : List Piece) : vars (joined separator pieces) = vars pieces := by
  induction pieces with
  | nil => rfl
  | cons piece rest ih =>
    cases rest with
    | nil => rfl
    | cons next rest =>
      have step : joined separator (piece :: next :: rest) = [piece,.text separator] ++ joined separator (next :: rest) := rfl
      rw [step,vars_append,ih]
      cases piece <;> rfl

@[simp] theorem vars_map_var {α : Type} (f : α → Var) (items : List α) :
    vars (items.map fun item => .var (f item)) = items.map f := by
  induction items with
  | nil => rfl
  | cons item items ih => rw [List.map_cons,vars_var,ih,List.map_cons]

@[simp] theorem append_uses (id : TargetId) (key : String) (value : List Piece) :
    (append id key value).uses = .env id :: vars value := by
  simp [Rule.uses,append]

@[simp] theorem depends_uses (id : TargetId) (target needed : List Piece) :
    (depends id target needed).uses = .env id :: (vars target ++ vars needed) := by
  simp [Rule.uses,depends]

@[simp] theorem construct_uses (id : TargetId) (result : Var) (builder file : String) (libs : List Piece) :
    (construct id result builder file libs).uses = .env id :: .objs id :: vars libs := by
  simp [Rule.uses,construct]

@[simp] theorem append_assigned (id : TargetId) (key : String) (value : List Piece) : (append id key value).assigned = none := rfl
@[simp] theorem depends_assigned (id : TargetId) (target needed : List Piece) : (depends id target needed).assigned = none := rfl
@[simp] theorem construct_assigned (id : TargetId) (result : Var) (builder file : String) (libs : List Piece) :
    (construct id result builder file libs).assigned = some result := rfl

@[simp] theorem vars_libStr (libs : List Piece) : vars (libStr libs) = vars libs := by
  simp [libStr]

@[simp] theorem vars_wholeLinkFlags (libs : List Piece) : vars (wholeLinkFlags libs) = vars libs := by
  unfold wholeLinkFlags
  split
  · rename_i empty
    rw [empty]
  · simp

theorem mem_vars_libName {suffix : String} {deps : List TargetId} {v : Var} :
    v ∈ vars (deps.map (libName suffix)) ↔ ∃ d ∈ deps, d.1 ≠ "#" ∧ v = .lib d suffix := by
  induction deps with
  | nil => simp
  | cons dep deps ih =>
    by_cases system : dep.1 = "#"
    · simp [libName,system,ih]
    · simp [libName,system,ih]

end Pieces

/-! The parts of the rules of a target. -/
section Parts
variable {context : Context} {id : TargetId} {known : Var → Prop}

@[simp] theorem setupCcFlags_silent (v : Var) : ¬Assigned (setupCcFlags context id) v := by
  simp only [setupCcFlags]
  split <;> split <;> simp

@[simp] theorem setupAsFlags_silent (v : Var) : ¬Assigned (setupAsFlags context id) v := by
  simp [setupAsFlags]

@[simp] theorem setupExtraLinkFlags_silent (v : Var) : ¬Assigned (setupExtraLinkFlags context id) v := by
  simp only [setupExtraLinkFlags]
  split <;> simp

@[simp] theorem exportFlags_silent (v : Var) : ¬Assigned (exportFlags context id) v := by
  simp only [exportFlags]
  split <;> simp

@[simp] theorem wholeFlags_silent (libs : List Piece) (v : Var) : ¬Assigned (wholeFlags id libs) v := by
  simp only [wholeFlags]
  split <;> simp

@[simp] theorem wholeDepends_silent (file : Var) (libs : List Piece) (v : Var) : ¬Assigned (wholeDepends id file libs) v := by
  simp only [wholeDepends]
  split <;> simp

@[simp] theorem versionRules_silent (file v : Var) : ¬Assigned (versionRules id file) v := by
  simp [versionRules]

@[simp] theorem targetExplictDependency_silent (file : Var) (genRules : List Var) (v : Var) :
    ¬Assigned (targetExplictDependency id file genRules) v := by
  simp [Assigned,targetExplictDependency]

@[simp] theorem assigned_objectRules {src : String} {v : Var} : Assigned (objectRules context id src) v ↔ v = .obj id src := by
  simp [objectRules,eq_comm]

@[simp] theorem assigned_ccObjectsRules {v : Var} : Assigned (ccObjectsRules context id) v ↔
    v = .objs id ∨ ∃ src ∈ (context.source id).srcs, v = .obj id src := by
  simp [ccObjectsRules,or_comm,eq_comm]

theorem setup_scoped (env : known (.env id)) : ScopedIn known (setupCcFlags context id ++ setupAsFlags context id) ∧
    ScopedIn known (setupExtraLinkFlags context id) ∧ ScopedIn known (exportFlags context id) := by
  refine ⟨?_,?_,?_⟩
  · simp only [setupCcFlags,setupAsFlags]
    split <;> split <;> simp [ScopedIn,env]
  · simp only [setupExtraLinkFlags]
    split <;> simp [ScopedIn,env]
  · simp only [exportFlags]
    split <;> simp [ScopedIn,env]

theorem ccObjectsRules_scoped (env : known (.env id)) : ScopedIn known (ccObjectsRules context id) := by
  have silent (v : Var) : ¬Assigned (setupCcFlags context id ++ setupAsFlags context id) v := by simp
  rw [ccObjectsRules,List.append_assoc,scopedIn_silent silent]
  refine ⟨(setup_scoped env).1,scopedIn_append.mpr ⟨?_,?_⟩⟩
  · rw [scopedIn_flatMap]
    intro before src after _
    simp [ScopedIn,objectRules,env]
  · simp [ScopedIn]
    exact fun src member => .inr member

theorem targetExplictDependency_scoped {file : Var} {genRules : List Var} (env : known (.env id)) (made : genRules ≠ [] → known file)
    (all : ∀ v ∈ genRules, known v) : ScopedIn known (targetExplictDependency id file genRules) := by
  apply scopedIn_known
  intro rule member v used
  obtain ⟨srcsList,inside,rfl⟩ := List.mem_map.mp member
  simp at used
  rcases used with rfl | rfl | rfl
  · exact env
  · exact made (List.ne_nil_of_mem inside)
  · exact all _ inside

theorem wholeFlags_scoped {libs : List Piece} (env : known (.env id)) (all : ∀ v ∈ vars libs, known v) :
    ScopedIn known (wholeFlags id libs) := by
  unfold wholeFlags
  split
  · trivial
  · simpa [ScopedIn,env] using all

theorem wholeDepends_scoped {file : Var} {libs : List Piece} (env : known (.env id)) (made : libs ≠ [] → known file)
    (all : ∀ v ∈ vars libs, known v) : ScopedIn known (wholeDepends id file libs) := by
  unfold wholeDepends
  split
  · trivial
  · rename_i some_lib
    simpa [ScopedIn,env,made some_lib] using all

theorem versionRules_scoped {file : Var} (env : known (.env id)) (made : known file) : ScopedIn known (versionRules id file) := by
  simp [ScopedIn,versionRules,env,made]

/-- The rules of a C++ target begin with its environment and its objects. -/
theorem cc_scoped {tail : List Rule} (rest : ScopedIn (fun v => known v ∨ v = .env id ∨ v = .objs id) tail) :
    ScopedIn known (cloneCcEnv context id :: ccObjectsRules context id ++ tail) := by
  rw [List.cons_append,ScopedIn]
  refine ⟨by simp [cloneCcEnv],scopedIn_append.mpr ⟨ccObjectsRules_scoped (.inr rfl),rest.mono ?_⟩⟩
  intro v given
  rcases given with given | rfl | rfl
  · exact .inl (.inl given)
  · exact .inl (.inr rfl)
  · exact .inr (assigned_ccObjectsRules.mpr (.inl rfl))

variable {genRules : List Var} {deps : List TargetId}

theorem staticCcLibrary_scoped (env : known (.env id)) (objs : known (.objs id)) (all : ∀ v ∈ genRules, known v) :
    ScopedIn known (staticCcLibrary context id genRules) := by
  refine scopedIn_append.mpr ⟨by simp [ScopedIn,env,objs],?_⟩
  exact targetExplictDependency_scoped (.inl env) (fun _ => .inr (by simp)) fun v member => .inl (all v member)

theorem dynamicCcLibrary_scoped (env : known (.env id)) (objs : known (.objs id)) (all : ∀ v ∈ genRules, known v)
    (libs : ∀ v ∈ vars (dynamicDepsList context deps), known v) (some_dep : genRules ≠ [] → deps ≠ []) :
    ScopedIn known (dynamicCcLibrary context id deps genRules) := by
  rw [dynamicCcLibrary,List.append_assoc,scopedIn_silent setupExtraLinkFlags_silent]
  refine ⟨(setup_scoped env).2.1,?_⟩
  split
  · rename_i nothing
    exact targetExplictDependency_scoped env (fun some_rule => absurd nothing.2 (some_dep some_rule)) all
  · refine scopedIn_append.mpr ⟨by simpa [ScopedIn,env,objs] using libs,?_⟩
    exact targetExplictDependency_scoped (.inl env) (fun _ => .inr (by simp)) fun v member => .inl (all v member)

theorem staticCcBinary_scoped (env : known (.env id)) (objs : known (.objs id)) (all : ∀ v ∈ genRules, known v)
    (whole : ∀ v ∈ vars (staticDepsList context deps).1, known v) (libs : ∀ v ∈ vars (staticDepsList context deps).2, known v) :
    ScopedIn known (staticCcBinary context id deps genRules) := by
  unfold staticCcBinary
  simp only [List.append_assoc]
  refine (scopedIn_silent fun v => by split <;> simp).mpr ⟨by split <;> simp [ScopedIn,env],?_⟩
  refine (scopedIn_silent (wholeFlags_silent _)).mpr ⟨wholeFlags_scoped env whole,?_⟩
  refine (scopedIn_silent exportFlags_silent).mpr ⟨(setup_scoped env).2.2,?_⟩
  refine (scopedIn_silent fun v => by split <;> simp).mpr ⟨by split <;> simp [ScopedIn,env],?_⟩
  refine (scopedIn_silent setupExtraLinkFlags_silent).mpr ⟨(setup_scoped env).2.1,?_⟩
  refine scopedIn_append.mpr ⟨by simpa [ScopedIn,env,objs] using libs,?_⟩
  refine (scopedIn_silent (targetExplictDependency_silent _ _)).mpr ⟨?_,?_⟩
  · exact targetExplictDependency_scoped (.inl env) (fun _ => .inr (by simp)) fun v member => .inl (all v member)
  · refine (scopedIn_silent (wholeDepends_silent _ _)).mpr ⟨?_,versionRules_scoped (.inl env) (.inr (by simp))⟩
    exact wholeDepends_scoped (.inl env) (fun _ => .inr (by simp)) fun v member => .inl (whole v member)

theorem dynamicCcBinary_scoped (env : known (.env id)) (objs : known (.objs id)) (all : ∀ v ∈ genRules, known v)
    (libs : ∀ v ∈ vars (dynamicDepsList context deps), known v) :
    ScopedIn known (dynamicCcBinary context id deps genRules) := by
  unfold dynamicCcBinary
  simp only [List.append_assoc]
  refine (scopedIn_silent exportFlags_silent).mpr ⟨(setup_scoped env).2.2,?_⟩
  refine (scopedIn_silent setupExtraLinkFlags_silent).mpr ⟨(setup_scoped env).2.1,?_⟩
  refine scopedIn_append.mpr ⟨by simpa [ScopedIn,env,objs] using libs,?_⟩
  refine (scopedIn_silent (versionRules_silent _)).mpr ⟨versionRules_scoped (.inl env) (.inr (by simp)),?_⟩
  exact targetExplictDependency_scoped (.inl env) (fun _ => .inr (by simp)) fun v member => .inl (all v member)

theorem ccPlugin_scoped (env : known (.env id)) (objs : known (.objs id)) (all : ∀ v ∈ genRules, known v)
    (whole : ∀ v ∈ vars (staticDepsList context deps).1, known v) (libs : ∀ v ∈ vars (staticDepsList context deps).2, known v)
    (some_dep : genRules ≠ [] → deps ≠ []) (some_whole : (staticDepsList context deps).1 ≠ [] → deps ≠ []) :
    ScopedIn known (ccPlugin context id deps genRules) := by
  unfold ccPlugin
  simp only [List.append_assoc]
  refine (scopedIn_silent setupExtraLinkFlags_silent).mpr ⟨(setup_scoped env).2.1,?_⟩
  refine (scopedIn_silent (wholeFlags_silent _)).mpr ⟨wholeFlags_scoped env whole,?_⟩
  split
  · rename_i nothing
    refine (scopedIn_silent (wholeDepends_silent _ _)).mpr ⟨?_,?_⟩
    · exact wholeDepends_scoped env (fun some_lib => absurd nothing.2 (some_whole some_lib)) whole
    · exact targetExplictDependency_scoped env (fun some_rule => absurd nothing.2 (some_dep some_rule)) all
  · refine scopedIn_append.mpr ⟨by simpa [ScopedIn,env,objs] using libs,?_⟩
    refine (scopedIn_silent (wholeDepends_silent _ _)).mpr ⟨?_,?_⟩
    · exact wholeDepends_scoped (.inl env) (fun _ => .inr (by simp)) fun v member => .inl (whole v member)
    · exact targetExplictDependency_scoped (.inl env) (fun _ => .inr (by simp)) fun v member => .inl (all v member)

theorem prebuilt_scoped (dynamic : Bool) : ScopedIn known (prebuiltCcLibrary context id dynamic) := by
  unfold prebuiltCcLibrary prebuiltRules
  split <;> split <;> simp [ScopedIn]

theorem genRule_scoped (env : known (.env id)) (all : ∀ v ∈ genRules, known v)
    (waited : ∀ d ∈ deps, (context.source d).kind.type ∉ depSkipList → known (.lib d "")) :
    ScopedIn known (genRule context id deps genRules) := by
  unfold genRule
  simp only [List.append_assoc]
  refine scopedIn_append.mpr ⟨by simp [ScopedIn,env],?_⟩
  refine (scopedIn_silent (targetExplictDependency_silent _ _)).mpr ⟨?_,?_⟩
  · exact targetExplictDependency_scoped (.inl env) (fun _ => .inr (by simp)) fun v member => .inl (all v member)
  · apply scopedIn_known
    intro rule member v used
    obtain ⟨d,inside,rfl⟩ := List.mem_map.mp member
    simp at used
    rcases used with rfl | rfl | rfl
    · exact .inl env
    · exact .inr (by simp)
    · obtain ⟨depends_on,linked⟩ := List.mem_filter.mp inside
      exact .inl (waited d depends_on (of_decide_eq_true linked))

theorem assigned_genRule {v : Var} : Assigned (genRule context id deps genRules) v ↔ v = .lib id "" := by
  have silent : ¬Assigned ((deps.filter fun d => (context.source d).kind.type ∉ depSkipList).map fun d =>
      depends id [.var (.lib id "")] [.var (.lib d "")]) v := by
    simp [Assigned]
  unfold genRule
  rw [assigned_append,or_iff_left silent]
  simp
  exact eq_comm

/-! What is used. -/
variable {v : Var}

theorem targetExplictDependency_used {file : Var} (member : v ∈ genRules) : Used (targetExplictDependency id file genRules) v :=
  ⟨_,List.mem_map_of_mem member,by simp⟩

theorem wholeFlags_used {libs : List Piece} (member : v ∈ vars libs) : Used (wholeFlags id libs) v := by
  unfold wholeFlags
  split
  · rename_i empty
    simp [empty] at member
  · simp [member]

theorem staticCcBinary_used (member : v ∈ genRules ∨ v ∈ vars (staticDepsList context deps).1 ∨ v ∈ vars (staticDepsList context deps).2) :
    Used (staticCcBinary context id deps genRules) v := by
  rcases member with member | member | member
  · simp [staticCcBinary,targetExplictDependency_used member]
  · simp [staticCcBinary,wholeFlags_used member]
  · simp [staticCcBinary,member]

theorem dynamicCcBinary_used (member : v ∈ genRules ∨ v ∈ vars (dynamicDepsList context deps)) :
    Used (dynamicCcBinary context id deps genRules) v := by
  rcases member with member | member
  · simp [dynamicCcBinary,targetExplictDependency_used member]
  · simp [dynamicCcBinary,member]

theorem dynamicCcLibrary_used (some_dep : deps ≠ []) (member : v ∈ vars (dynamicDepsList context deps)) :
    Used (dynamicCcLibrary context id deps genRules) v := by
  simp [dynamicCcLibrary,some_dep,member]

theorem ccPlugin_used (some_dep : deps ≠ [])
    (member : v ∈ genRules ∨ v ∈ vars (staticDepsList context deps).1 ∨ v ∈ vars (staticDepsList context deps).2) :
    Used (ccPlugin context id deps genRules) v := by
  rcases member with member | member | member
  · simp [ccPlugin,targetExplictDependency_used member]
  · simp [ccPlugin,wholeFlags_used member]
  · simp [ccPlugin,some_dep,member]

theorem genRule_used {d : TargetId} (listed : d ∈ deps) (kept : (context.source d).kind.type ∉ depSkipList) :
    Used (genRule context id deps genRules) (.lib d "") := by
  have last : Used ((deps.filter fun d => (context.source d).kind.type ∉ depSkipList).map fun d =>
      depends id [.var (.lib id "")] [.var (.lib d "")]) (.lib d "") :=
    ⟨_,List.mem_map_of_mem (List.mem_filter.mpr ⟨listed,decide_eq_true kept⟩),by simp⟩
  unfold genRule
  exact used_append.mpr (.inr last)

end Parts

/-! What a target takes from others and what it gives them. -/
section Interface
variable (context : Context) (id : TargetId) (target : Target)

def LinksStatically : Prop :=
  (context.source id).kind = .ccPlugin ∨
    ((context.source id).kind = .ccBinary ∨ (context.source id).kind = .ccTest) ∧ target.data.dynamicLink = false

def LinksDynamically : Prop :=
  ((context.source id).kind = .ccBinary ∨ (context.source id).kind = .ccTest) ∧ target.data.dynamicLink = true ∨
    (context.source id).kind = .ccLibrary ∧ buildDynamic context target = true

/-- A variable of a dependency, with this suffix, that the rules of the target use. -/
inductive Needs : TargetId → String → Prop
  | genRule {d : TargetId} (listed : d ∈ target.expandedDeps) (rule : (context.source d).kind = .genRule)
      (looks : (context.source id).kind ≠ .prebuiltCcLibrary ∧ (context.source id).kind ≠ .systemLibrary) : Needs d ""
  | static {d : TargetId} (listed : d ∈ target.expandedDeps) (links : LinksStatically context id target)
      (library : depIsLibrary context d = true) (named : d.1 ≠ "#") : Needs d ""
  | dynamic {d : TargetId} (listed : d ∈ target.expandedDeps) (links : LinksDynamically context id target)
      (library : depIsLibrary context d = true) (full : (context.source d).kind = .ccLibrary → (context.source d).srcs ≠ [])
      (named : d.1 ≠ "#") : Needs d "dynamic"
  | waited {d : TargetId} (listed : d ∈ target.expandedDeps) (rule : (context.source id).kind = .genRule)
      (kept : (context.source d).kind.type ∉ depSkipList) : Needs d ""

/-- The suffixes of the variables that the rules of a target assign. -/
def Provides (suffix : String) : Prop :=
  let full := (context.source id).srcs ≠ [] ∨ target.expandedDeps ≠ []
  match (context.source id).kind with
  | .ccLibrary => suffix = "" ∨ suffix = "dynamic" ∧ buildDynamic context target = true ∧ full
  | .prebuiltCcLibrary => suffix = "" ∧ allowOnlyDynamic context id = false ∨
      suffix = "dynamic" ∧ buildDynamic context target = true
  | .ccBinary | .ccTest | .genRule => suffix = ""
  | .ccPlugin => suffix = "dynamic" ∧ full
  | .systemLibrary => False

def needed (v : Var) : Prop := ∃ d suffix, v = .lib d suffix ∧ Needs context id target d suffix

/-- The rules of a target when every `gen_rule` it depends on has its variable. -/
def targetRules : List Rule :=
  ((sconsRules context id (fun d => some (.lib d "")) target).toOption).getD []

variable {context id target}

/-- The variables of the `gen_rule` targets among the dependencies. -/
def writtenVars (context : Context) (deps : List TargetId) : List Var :=
  (deps.filter fun d => (context.source d).kind = .genRule).map fun d => .lib d ""

theorem mem_writtenVars {deps : List TargetId} {v : Var} :
    v ∈ writtenVars context deps ↔ ∃ d ∈ deps, (context.source d).kind = .genRule ∧ v = .lib d "" := by
  simp [writtenVars,and_assoc,eq_comm]

theorem genRuleVars_ok {varName : TargetId → Option Var} {deps : List TargetId}
    (written : ∀ d ∈ deps, (context.source d).kind = .genRule → varName d = some (.lib d "")) :
    genRuleVars context varName deps = .ok (writtenVars context deps) := by
  unfold genRuleVars writtenVars
  conv_lhs => rw [← List.map_id (deps.filter fun d => (context.source d).kind = .genRule)]
  apply mapM_map_ok
  intro d member
  obtain ⟨inside,rule⟩ := List.mem_filter.mp member
  rw [id_eq,written d inside (of_decide_eq_true rule)]
  rfl

theorem genRuleVars_all (context : Context) (deps : List TargetId) :
    genRuleVars context (fun d => some (.lib d "")) deps = .ok (writtenVars context deps) :=
  genRuleVars_ok fun _ _ _ => rfl

theorem sconsRules_ok {varName : TargetId → Option Var}
    (written : ∀ d ∈ target.expandedDeps, (context.source d).kind = .genRule → varName d = some (.lib d "")) :
    sconsRules context id varName target = .ok (targetRules context id target) := by
  simp only [targetRules,sconsRules,genRuleVars_ok written,genRuleVars_all]
  cases (context.source id).kind <;> rfl

theorem targetRules_eq : targetRules context id target =
    let genRules := writtenVars context target.expandedDeps
    match (context.source id).kind with
    | .ccLibrary => cloneCcEnv context id :: ccObjectsRules context id ++ (staticCcLibrary context id genRules ++
        if buildDynamic context target then dynamicCcLibrary context id target.expandedDeps genRules else [])
    | .prebuiltCcLibrary => cloneCcEnv context id :: prebuiltCcLibrary context id (buildDynamic context target)
    | .ccBinary | .ccTest => cloneCcEnv context id :: ccObjectsRules context id ++
        if target.data.dynamicLink then dynamicCcBinary context id target.expandedDeps genRules
        else staticCcBinary context id target.expandedDeps genRules
    | .ccPlugin => cloneCcEnv context id :: ccObjectsRules context id ++ ccPlugin context id target.expandedDeps genRules
    | .genRule => cloneEnv id :: genRule context id target.expandedDeps genRules
    | .systemLibrary => [] := by
  simp only [targetRules,sconsRules,genRuleVars_all]
  cases (context.source id).kind with
  | ccLibrary => exact List.append_assoc _ _ _
  | _ => rfl

theorem genRules_needed (looks : (context.source id).kind ≠ .prebuiltCcLibrary ∧ (context.source id).kind ≠ .systemLibrary) :
    ∀ v ∈ writtenVars context target.expandedDeps, needed context id target v := by
  intro v member
  obtain ⟨d,listed,rule,rfl⟩ := mem_writtenVars.mp member
  exact ⟨d,"",rfl,.genRule listed rule looks⟩

theorem static_needed (links : LinksStatically context id target) :
    (∀ v ∈ vars (staticDepsList context target.expandedDeps).1, needed context id target v) ∧
      ∀ v ∈ vars (staticDepsList context target.expandedDeps).2, needed context id target v := by
  constructor <;>
  · intro v member
    obtain ⟨d,inside,named,rfl⟩ := mem_vars_libName.mp member
    obtain ⟨listed,library⟩ := List.mem_filter.mp (List.mem_of_mem_filter inside)
    exact ⟨d,"",rfl,.static listed links library named⟩

theorem dynamic_needed (links : LinksDynamically context id target) :
    ∀ v ∈ vars (dynamicDepsList context target.expandedDeps), needed context id target v := by
  intro v member
  obtain ⟨d,inside,named,rfl⟩ := mem_vars_libName.mp member
  obtain ⟨listed,library⟩ := List.mem_filter.mp inside
  simp only [Bool.and_eq_true,Bool.not_eq_true',Bool.and_eq_false_iff,decide_eq_false_iff_not] at library
  refine ⟨d,"dynamic",rfl,.dynamic listed links library.1 (fun plain => ?_) named⟩
  exact library.2.resolve_left fun other => other plain

theorem writtenVars_ne_nil (some_rule : writtenVars context target.expandedDeps ≠ []) : target.expandedDeps ≠ [] := by
  intro none
  simp [writtenVars,none] at some_rule

theorem whole_ne_nil (some_whole : (staticDepsList context target.expandedDeps).1 ≠ []) : target.expandedDeps ≠ [] := by
  intro none
  simp [staticDepsList,none] at some_whole

theorem binary_scoped (binary : (context.source id).kind = .ccBinary ∨ (context.source id).kind = .ccTest) :
    ScopedIn (needed context id target) (cloneCcEnv context id :: ccObjectsRules context id ++
      if target.data.dynamicLink then dynamicCcBinary context id target.expandedDeps (writtenVars context target.expandedDeps)
      else staticCcBinary context id target.expandedDeps (writtenVars context target.expandedDeps)) := by
  have rules : ∀ v ∈ writtenVars context target.expandedDeps, needed context id target v :=
    genRules_needed (by rcases binary with kind | kind <;> simp [kind])
  apply cc_scoped
  split
  · rename_i dynamic
    have libs := dynamic_needed (.inl ⟨binary,dynamic⟩)
    exact dynamicCcBinary_scoped (.inr (.inl rfl)) (.inr (.inr rfl)) (fun v member => .inl (rules v member))
      fun v member => .inl (libs v member)
  · rename_i static
    have libs := static_needed (.inr ⟨binary,eq_false_of_ne_true static⟩)
    exact staticCcBinary_scoped (.inr (.inl rfl)) (.inr (.inr rfl)) (fun v member => .inl (rules v member))
      (fun v member => .inl (libs.1 v member)) fun v member => .inl (libs.2 v member)

theorem targetRules_scoped : ScopedIn (needed context id target) (targetRules context id target) := by
  rw [targetRules_eq]
  dsimp only
  cases kind : (context.source id).kind with
  | ccLibrary =>
    have rules : ∀ v ∈ writtenVars context target.expandedDeps, needed context id target v := genRules_needed (by simp [kind])
    refine cc_scoped (scopedIn_append.mpr ⟨?_,?_⟩)
    · exact staticCcLibrary_scoped (.inr (.inl rfl)) (.inr (.inr rfl)) fun v member => .inl (rules v member)
    · split
      · rename_i dynamic
        have libs := dynamic_needed (.inr ⟨kind,dynamic⟩)
        exact dynamicCcLibrary_scoped (.inl (.inr (.inl rfl))) (.inl (.inr (.inr rfl))) (fun v member => .inl (.inl (rules v member)))
          (fun v member => .inl (.inl (libs v member))) writtenVars_ne_nil
      · trivial
  | prebuiltCcLibrary => exact ⟨by simp [cloneCcEnv],prebuilt_scoped _⟩
  | ccBinary => exact binary_scoped (.inl kind)
  | ccTest => exact binary_scoped (.inr kind)
  | ccPlugin =>
    have rules : ∀ v ∈ writtenVars context target.expandedDeps, needed context id target v := genRules_needed (by simp [kind])
    have links : LinksStatically context id target := .inl kind
    have libs := static_needed links
    apply cc_scoped
    exact ccPlugin_scoped (.inr (.inl rfl)) (.inr (.inr rfl)) (fun v member => .inl (rules v member))
      (fun v member => .inl (libs.1 v member)) (fun v member => .inl (libs.2 v member)) writtenVars_ne_nil whole_ne_nil
  | genRule =>
    have rules : ∀ v ∈ writtenVars context target.expandedDeps, needed context id target v := genRules_needed (by simp [kind])
    refine ⟨by simp [cloneEnv],genRule_scoped (.inr rfl) (fun v member => .inl (rules v member)) ?_⟩
    intro d listed kept
    exact .inl ⟨d,"",rfl,.waited listed kind kept⟩
  | systemLibrary => trivial

theorem targetRules_used {v : Var} (need : needed context id target v) : Used (targetRules context id target) v := by
  obtain ⟨d,suffix,rfl,need⟩ := need
  rw [targetRules_eq]
  dsimp only
  cases need with
  | genRule listed rule looks =>
    have member : Var.lib d "" ∈ writtenVars context target.expandedDeps := mem_writtenVars.mpr ⟨d,listed,rule,rfl⟩
    have some_dep := List.ne_nil_of_mem listed
    cases kind : (context.source id).kind with
    | ccLibrary => simp [staticCcLibrary,targetExplictDependency_used member]
    | prebuiltCcLibrary => exact absurd kind looks.1
    | ccBinary => cases target.data.dynamicLink <;> simp [staticCcBinary_used (.inl member),dynamicCcBinary_used (.inl member)]
    | ccTest => cases target.data.dynamicLink <;> simp [staticCcBinary_used (.inl member),dynamicCcBinary_used (.inl member)]
    | ccPlugin => simp [ccPlugin_used some_dep (.inl member)]
    | genRule => simp [genRule,targetExplictDependency_used member]
    | systemLibrary => exact absurd kind looks.2
  | static listed links library named =>
    have linked : Var.lib d "" ∈ vars (staticDepsList context target.expandedDeps).1 ∨
        Var.lib d "" ∈ vars (staticDepsList context target.expandedDeps).2 := by
      simp only [staticDepsList,mem_vars_libName]
      cases whole : (context.source d).linkAllSymbols
      · exact .inr ⟨d,by simp [listed,library,whole],named,rfl⟩
      · exact .inl ⟨d,by simp [listed,library,whole],named,rfl⟩
    rcases links with kind | ⟨kind | kind,static⟩
    · simp [kind,ccPlugin_used (List.ne_nil_of_mem listed) (.inr linked)]
    · simp [kind,static,staticCcBinary_used (.inr linked)]
    · simp [kind,static,staticCcBinary_used (.inr linked)]
  | dynamic listed links library full named =>
    have linked : Var.lib d "dynamic" ∈ vars (dynamicDepsList context target.expandedDeps) := by
      rw [dynamicDepsList,mem_vars_libName]
      exact ⟨d,List.mem_filter.mpr ⟨listed,by simpa [library,imp_iff_not_or] using full⟩,named,rfl⟩
    rcases links with ⟨kind | kind,dynamic⟩ | ⟨kind,dynamic⟩
    · simp [kind,dynamic,dynamicCcBinary_used (.inr linked)]
    · simp [kind,dynamic,dynamicCcBinary_used (.inr linked)]
    · simp [kind,dynamic,dynamicCcLibrary_used (List.ne_nil_of_mem listed) linked]
  | waited listed rule kept => simp [rule,genRule_used listed kept]

theorem assigned_targetRules {d : TargetId} {suffix : String} :
    Assigned (targetRules context id target) (.lib d suffix) ↔ d = id ∧ Provides context id target suffix := by
  rw [targetRules_eq]
  cases kind : (context.source id).kind with
  | ccLibrary =>
    simp [Provides,kind,staticCcLibrary,dynamicCcLibrary,cloneCcEnv]
    grind
  | prebuiltCcLibrary =>
    simp [Provides,kind,prebuiltCcLibrary,prebuiltRules,cloneCcEnv]
    grind
  | ccBinary =>
    simp [Provides,kind,staticCcBinary,dynamicCcBinary,cloneCcEnv]
    grind
  | ccTest =>
    simp [Provides,kind,staticCcBinary,dynamicCcBinary,cloneCcEnv]
    grind
  | ccPlugin =>
    simp [Provides,kind,ccPlugin,cloneCcEnv]
    grind
  | genRule => simp [Provides,kind,assigned_genRule,cloneEnv]
  | systemLibrary => simp [Provides,kind]

end Interface
/-! The script. -/
section Script
variable {context : Context} {sorted : List TargetId}

/-- The targets whose rules are written at all. -/
def Written (context : Context) (k : TargetId) : Prop :=
  (context.source k).kind ≠ .systemLibrary ∧ (context.options.noTest = true → (context.source k).kind ≠ .ccTest)

instance (context : Context) (k : TargetId) : Decidable (Written context k) := inferInstanceAs (Decidable (_ ∧ _))

/-- What the round of a target adds to the script. -/
def block (context : Context) (k : TargetId) : List Rule :=
  if Written context k then ((context.targets.find k).map (targetRules context k)).getD [] else []

/-- Every target once, after its dependencies. -/
structure Ordered (targets : Targets) (sorted : List TargetId) : Prop where
  mem_iff : ∀ k, k ∈ sorted ↔ k ∈ targets.order
  earlier : ∀ done k rest, sorted = done ++ k :: rest → ∀ d ∈ targets.preds k, d ∈ done

theorem Ordered.of_sorted {targets : Targets} (transitive : Transitive targets) (perm : sorted.Perm targets.order)
    (later : sorted.Pairwise fun first second => second ∉ targets.preds first) : Ordered targets sorted := by
  refine ⟨fun k => perm.mem_iff,fun done k rest split d depends => ?_⟩
  have member : d ∈ sorted := perm.mem_iff.mpr (transitive.inside k d depends)
  rw [split] at member later
  rcases List.mem_append.mp member with before | after
  · exact before
  · rcases List.mem_cons.mp after with rfl | after
    · exact absurd depends (transitive.irrefl d)
    · exact absurd depends (List.rel_of_pairwise_cons (List.pairwise_append.mp later).2.1 after)

theorem preds_eq {targets : Targets} {k : TargetId} {target : Target} (located : targets.find k = some target) :
    targets.preds k = target.expandedDeps := by
  rw [Targets.preds,Targets.deps,located]
  rfl

/-- The rules so far, with the attributes of the `gen_rule` targets among the targets
done. -/
structure Progressed (context : Context) (done : List TargetId) (generated : Generated) : Prop where
  rulesBuf : generated.rulesBuf = done.flatMap (block context)
  varName : ∀ d ∈ done, (context.source d).kind = .genRule → generated.varName d = some (.lib d "")

theorem genTarget_ok {generated : Generated} {done : List TargetId} {k : TargetId} {target : Target}
    (located : context.targets.find k = some target) (before : Progressed context done generated)
    (earlier : ∀ d ∈ target.expandedDeps, d ∈ done) :
    ∃ next, genTarget context generated k = .ok next ∧ Progressed context (done ++ [k]) next := by
  have rules : sconsRules context k generated.varName target = .ok (targetRules context k target) :=
    sconsRules_ok fun d listed rule => before.varName d (earlier d listed) rule
  have system : isSconsObjectType (context.source k).kind.type = true ↔ (context.source k).kind ≠ .systemLibrary := by
    cases (context.source k).kind <;> decide
  have test : (context.source k).kind.type = "cc_test" ↔ (context.source k).kind = .ccTest := by
    cases (context.source k).kind <;> decide
  have round : genTarget context generated k = .ok (if Written context k then ⟨generated.rulesBuf ++ targetRules context k target,
      if (context.source k).kind = .genRule then update generated.varName k (some (.lib k "")) else generated.varName⟩
      else generated) := by
    simp only [genTarget,located,rules,Bool.not_eq_true',← Bool.not_eq_true,system,test,Bool.and_eq_true,decide_eq_true_eq]
    by_cases library : (context.source k).kind = .systemLibrary
    · rw [if_pos (not_not_intro library),if_neg fun written : Written context k => written.1 library]
    · rw [if_neg (not_not_intro library)]
      by_cases skipped : context.options.noTest = true ∧ (context.source k).kind = .ccTest
      · rw [if_pos skipped,if_neg fun written : Written context k => written.2 skipped.1 skipped.2]
      · have written : Written context k := ⟨library,fun set kind => skipped ⟨set,kind⟩⟩
        rw [if_neg skipped,if_pos written]
        rfl
  refine ⟨_,round,?_,?_⟩
  · rw [List.flatMap_append,List.flatMap_singleton,block,located]
    split
    · rw [before.rulesBuf]
      rfl
    · rw [before.rulesBuf,List.append_nil]
  · intro d member rule
    by_cases own : d = k
    · subst own
      have written : Written context d := by simp [Written,rule]
      simp [written,rule]
    · have old := before.varName d ((List.mem_append.mp member).resolve_right fun new => own (List.mem_singleton.mp new)) rule
      split
      · split
        · exact (update_of_ne own _ _).trans old
        · exact old
      · exact old

theorem genTargetsRules_ok (ordered : Ordered context.targets sorted) :
    genTargetsRules context sorted = .ok (sorted.flatMap (block context)) := by
  obtain ⟨generated,folded,progressed⟩ : ∃ generated, sorted.foldlM (genTarget context) ⟨[],fun _ => none⟩ = .ok generated ∧
      Progressed context sorted generated := by
    apply foldlM_ok fun done generated => Progressed context done generated
    · intro done k rest generated split before
      have present : (context.targets.find k).isSome = true :=
        (context.targets.mem_order k).mp ((ordered.mem_iff k).mp (by simp [split]))
      obtain ⟨target,located⟩ := Option.isSome_iff_exists.mp present
      apply genTarget_ok located before
      rw [← preds_eq located]
      exact ordered.earlier done k rest split
    · exact ⟨rfl,by simp⟩
  simp only [genTargetsRules,folded]
  exact congrArg Except.ok progressed.rulesBuf

theorem assigned_block {k d : TargetId} {suffix : String} : Assigned (block context k) (.lib d suffix) ↔
    Written context k ∧ ∃ target, context.targets.find k = some target ∧ d = k ∧ Provides context k target suffix := by
  unfold block
  by_cases written : Written context k
  · cases located : context.targets.find k with
    | none => simp [written]
    | some target => simp [written,assigned_targetRules]
  · simp [written]

/-- The script is well scoped when every target gets from each dependency what it
needs. -/
theorem wellScoped_blocks (context : Context) (transitive : Transitive context.targets) (ordered : Ordered context.targets sorted) :
    WellScoped (sorted.flatMap (block context)) ↔
      ∀ k target, context.targets.find k = some target → Written context k → ∀ d suffix, Needs context k target d suffix →
        Written context d ∧ ∃ other, context.targets.find d = some other ∧ Provides context d other suffix := by
  have listed {k : TargetId} {target : Target} {d : TargetId} {suffix : String} (located : context.targets.find k = some target)
      (need : Needs context k target d suffix) : d ∈ context.targets.preds k := by
    rw [preds_eq located]
    cases need <;> assumption
  have one (known : Var → Prop) {k : TargetId} {target : Target} (located : context.targets.find k = some target)
      (written : Written context k) :
      ScopedIn known (block context k) ↔ ∀ d suffix, Needs context k target d suffix → known (.lib d suffix) := by
    have rules : block context k = targetRules context k target := by
      simp [block,written,located]
    rw [rules,scopedIn_imports targetRules_scoped (fun v => targetRules_used)]
    · constructor
      · intro all d suffix need
        exact all _ ⟨d,suffix,rfl,need⟩
      · intro all v ⟨d,suffix,same,need⟩
        exact same ▸ all d suffix need
    · intro v ⟨d,suffix,same,need⟩ own
      rw [same,assigned_targetRules] at own
      obtain ⟨rfl,_⟩ := own
      exact transitive.irrefl d (listed located need)
  rw [wellScoped_iff,scopedIn_flatMap]
  constructor
  · intro all k target located written d suffix need
    have present : k ∈ sorted := (ordered.mem_iff k).mpr ((context.targets.mem_order k).mpr (by rw [located]; rfl))
    obtain ⟨done,rest,split⟩ := List.append_of_mem present
    have given := (one _ located written).mp (all done k rest split) d suffix need
    obtain ⟨a,_,assigned⟩ := given.resolve_left id
    obtain ⟨written,other,found,rfl,provides⟩ := assigned_block.mp assigned
    exact ⟨written,other,found,provides⟩
  · intro all done k rest split
    by_cases written : Written context k
    · cases located : context.targets.find k with
      | none => simp [block,written,located,ScopedIn]
      | some target =>
        refine (one _ located written).mpr fun d suffix need => ?_
        obtain ⟨also,other,found,provides⟩ := all k target located written d suffix need
        exact .inr ⟨d,ordered.earlier done k rest split d (listed located need),assigned_block.mpr ⟨also,other,found,rfl,provides⟩⟩
    · simp [block,written,ScopedIn]

end Script
end WebSearch.Blade
