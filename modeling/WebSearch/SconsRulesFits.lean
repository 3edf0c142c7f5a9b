import WebSearch.SconsRulesScope

/-! When the targets of a build fit together: the condition on the BUILD files under which
every variable of the script is assigned before it is used. -/
namespace WebSearch.Blade
open DependencyAnalyzer Library Library.Script Relation Function

def Build.kind (build : Build) (id : TargetId) : Kind := (build.source id).kind

def Build.LinksStatically (build : Build) (id : TargetId) : Prop :=
  build.kind id = .ccPlugin ∨ (build.kind id = .ccBinary ∨ build.kind id = .ccTest) ∧ ¬Dynamic build.graph id

def Build.LinksDynamically (build : Build) (options : Options) (id : TargetId) : Prop :=
  (build.kind id = .ccBinary ∨ build.kind id = .ccTest) ∧ Dynamic build.graph id ∨
    build.kind id = .ccLibrary ∧ (options.generateDynamic = true ∨ ∃ user, Dynamic build.graph user ∧ TransGen (Dep build.graph) user id)

/-- A plugin has no static library, an empty one has no library at all, and tests that
are not built give nothing to wait for. -/
structure Fits (build : Build) (options : Options) : Prop where
  static : ∀ id d, TransGen (Dep build.graph) id d → build.LinksStatically id →
    (options.noTest = true → build.kind id ≠ .ccTest) → d.1 ≠ "#" → build.kind d ≠ .ccPlugin
  dynamic : ∀ id d, TransGen (Dep build.graph) id d → build.LinksDynamically options id →
    (options.noTest = true → build.kind id ≠ .ccTest) → d.1 ≠ "#" → build.kind d = .ccPlugin →
      (build.source d).srcs ≠ [] ∨ ∃ e, Dep build.graph d e
  rule : ∀ id d, TransGen (Dep build.graph) id d → build.kind id = .genRule →
    build.kind d ≠ .ccPlugin ∧ (options.noTest = true → build.kind d ≠ .ccTest)

/-- What the analysis leaves of the targets of a build. -/
structure Analysed (build : Build) (targets : Targets) : Prop where
  present : ∀ k, (targets.find k).isSome = (build.graph.find k).isSome
  deps : ∀ k target, targets.find k = some target → ∀ d, d ∈ target.expandedDeps ↔ TransGen (Dep build.graph) k d
  dynamic : ∀ k target, targets.find k = some target → (target.data.dynamicLink = true ↔ Dynamic build.graph k)
  marked : ∀ k target, targets.find k = some target →
    (target.data.buildDynamic = true ↔ ∃ user, Dynamic build.graph user ∧ TransGen (Dep build.graph) user k)

theorem Analysed.of_expanded {build : Build} {targets : Targets} (order : targets.order = build.graph.order)
    (all : ∀ id ∈ build.graph.order, ∃ target, targets.find id = some target ∧ Expanded build.graph id target.expandedDeps)
    (marked : Marked build.graph targets fun id => ∃ user, Dynamic build.graph user ∧ TransGen (Dep build.graph) user id) :
    Analysed build targets := by
  have present (k : TargetId) : (targets.find k).isSome = (build.graph.find k).isSome := by
    rw [Bool.eq_iff_iff,← targets.mem_order,← build.graph.mem_order,order]
  have original {k : TargetId} {target : Target} (located : targets.find k = some target) :
      ∃ found, build.graph.find k = some found ∧ target.data.dynamicLink = found.data.dynamicLink ∧
        (target.data.buildDynamic = true ↔ found.data.buildDynamic = true ∨
          ∃ user, Dynamic build.graph user ∧ TransGen (Dep build.graph) user k) := by
    have registered : (build.graph.find k).isSome = true := by
      rw [← present,located]
      rfl
    obtain ⟨found,there⟩ := Option.isSome_iff_exists.mp registered
    obtain ⟨after,here,link,build⟩ := marked k found there
    obtain rfl := Option.some.inj (located.symm.trans here)
    exact ⟨found,there,link,build⟩
  refine ⟨present,fun k target located d => ?_,fun k target located => ?_,fun k target located => ?_⟩
  · obtain ⟨_,here,listing⟩ := all k (order ▸ (targets.mem_order k).mpr (by rw [located]; rfl))
    obtain rfl := Option.some.inj (located.symm.trans here)
    exact listing.mem_iff d
  · obtain ⟨found,there,link,_⟩ := original located
    rw [link]
    constructor
    · intro set
      exact ⟨found,there,set⟩
    · intro ⟨other,here,set⟩
      exact Option.some.inj (there.symm.trans here) ▸ set
  · obtain ⟨found,there,_,built⟩ := original located
    rw [built,build.unmarked k found there]
    simp

section
variable {build : Build} {options : Options} {config : Config} {targets : Targets}

theorem depIsLibrary_iff {context : Context} {d : TargetId} : depIsLibrary context d = true ↔
    (context.source d).kind = .ccLibrary ∨ (context.source d).kind = .prebuiltCcLibrary ∨
      (context.source d).kind = .ccPlugin ∨ (context.source d).kind = .systemLibrary := by
  unfold depIsLibrary
  cases (context.source d).kind <;> decide

theorem linksStatically_iff (analysed : Analysed build targets) {k : TargetId} {target : Target}
    (located : targets.find k = some target) :
    LinksStatically ⟨options,config,targets,build.source⟩ k target ↔ build.LinksStatically k := by
  rw [LinksStatically,Build.LinksStatically,← analysed.dynamic k target located,Bool.not_eq_true]
  rfl

theorem linksDynamically_iff (analysed : Analysed build targets) {k : TargetId} {target : Target}
    (located : targets.find k = some target) :
    LinksDynamically ⟨options,config,targets,build.source⟩ k target ↔ build.LinksDynamically options k := by
  rw [LinksDynamically,Build.LinksDynamically,← analysed.dynamic k target located,← analysed.marked k target located,
    buildDynamic,Bool.or_eq_true]
  rfl

/-- Dependencies of what is linked dynamically are built as dynamic libraries. -/
theorem buildDynamic_dep (analysed : Analysed build targets) {k d : TargetId} {other : Target}
    (found : targets.find d = some other) (links : build.LinksDynamically options k) (reached : TransGen (Dep build.graph) k d) :
    buildDynamic ⟨options,config,targets,build.source⟩ other = true := by
  rw [buildDynamic,Bool.or_eq_true,analysed.marked d other found]
  rcases links with ⟨_,dynamic⟩ | ⟨_,set | ⟨user,dynamic,uses⟩⟩
  · exact .inr ⟨k,dynamic,reached⟩
  · exact .inl set
  · exact .inr ⟨user,dynamic,uses.trans reached⟩

theorem needStatic (analysed : Analysed build targets) {k d : TargetId} {target : Target} (located : targets.find k = some target)
    (links : build.LinksStatically k) (reached : TransGen (Dep build.graph) k d) :
    allowOnlyDynamic ⟨options,config,targets,build.source⟩ d = false := by
  have listed : d ∈ targets.preds k := by
    rw [preds_eq located]
    exact (analysed.deps k target located d).mpr reached
  have kind : (build.kind k).type ∈ needStaticLibTargets := by
    rcases links with plugin | ⟨binary | test,_⟩
    · rw [plugin]
      decide
    · rw [binary]
      decide
    · rw [test]
      decide
  have found : (build.source k).kind.type ∈ needStaticLibTargets := kind
  rw [allowOnlyDynamic,List.all_eq_false]
  exact ⟨k,(targets.mem_order k).mpr (by rw [located]; rfl),by simp [listed,found]⟩

theorem Fits.met (fits : Fits build options) (analysed : Analysed build targets) {k d : TargetId} {target other : Target}
    {suffix : String} (located : targets.find k = some target) (found : targets.find d = some other)
    (written : Written ⟨options,config,targets,build.source⟩ k)
    (need : Needs ⟨options,config,targets,build.source⟩ k target d suffix) :
    Written ⟨options,config,targets,build.source⟩ d ∧ Provides ⟨options,config,targets,build.source⟩ d other suffix := by
  cases need with
  | genRule listed rule looks =>
    dsimp only at rule
    simp [Written,Provides,rule]
  | static listed links library named =>
    have reached := (analysed.deps k target located d).mp listed
    have links := (linksStatically_iff analysed located).mp links
    rcases depIsLibrary_iff.mp library with kind | kind | kind | kind
    · dsimp only at kind
      simp [Written,Provides,kind]
    · dsimp only at kind
      simp [Written,Provides,kind,needStatic analysed located links reached]
    · exact absurd kind (fits.static k d reached links written.2 named)
    · exact absurd (build.system d kind) named
  | dynamic listed links library full named =>
    have reached := (analysed.deps k target located d).mp listed
    have links := (linksDynamically_iff analysed located).mp links
    have built : buildDynamic ⟨options,config,targets,build.source⟩ other = true := buildDynamic_dep analysed found links reached
    rcases depIsLibrary_iff.mp library with kind | kind | kind | kind
    · have some_src := full kind
      dsimp only at kind some_src
      simp [Written,Provides,kind,built,some_src]
    · dsimp only at kind
      simp [Written,Provides,kind,built]
    · have some_part : (build.source d).srcs ≠ [] ∨ other.expandedDeps ≠ [] := by
        rcases fits.dynamic k d reached links written.2 named kind with some_src | ⟨e,edge⟩
        · exact .inl some_src
        · exact .inr (List.ne_nil_of_mem ((analysed.deps d other found e).mpr (.single edge)))
      dsimp only at kind
      simpa [Written,Provides,kind] using some_part
    · exact absurd (build.system d kind) named
  | waited listed rule kept =>
    have reached := (analysed.deps k target located d).mp listed
    obtain ⟨plugin,test⟩ := fits.rule k d reached rule
    dsimp only at kept
    have kind : build.kind d = (build.source d).kind := rfl
    rw [kind] at plugin test
    cases same : (build.source d).kind <;> simp_all [Written,Provides,Kind.type,depSkipList]

theorem Analysed.locate (analysed : Analysed build targets) {k d : TargetId} (reached : TransGen (Dep build.graph) k d) :
    ∃ target, targets.find k = some target ∧ d ∈ target.expandedDeps := by
  have there : (targets.find k).isSome = true := by
    obtain ⟨_,⟨target,found,_⟩,_⟩ := TransGen.head'_iff.mp reached
    rw [analysed.present,found]
    rfl
  obtain ⟨target,located⟩ := Option.isSome_iff_exists.mp there
  exact ⟨target,located,(analysed.deps k target located d).mpr reached⟩

theorem needs_listed {context : Context} {k d : TargetId} {target : Target} {suffix : String}
    (need : Needs context k target d suffix) : d ∈ target.expandedDeps := by
  cases need <;> assumption

theorem fits_iff (closed : Closed build.graph) (analysed : Analysed build targets) :
    (∀ k target, targets.find k = some target → Written ⟨options,config,targets,build.source⟩ k → ∀ d suffix,
      Needs ⟨options,config,targets,build.source⟩ k target d suffix → Written ⟨options,config,targets,build.source⟩ d ∧
        ∃ other, targets.find d = some other ∧ Provides ⟨options,config,targets,build.source⟩ d other suffix) ↔
      Fits build options := by
  constructor
  · intro all
    refine ⟨fun id d reached links built named plugin => ?_,fun id d reached links built named plugin => ?_,
      fun id d reached rule => ⟨fun plugin => ?_,fun skipped test => ?_⟩⟩ <;>
      obtain ⟨target,located,listed⟩ := analysed.locate reached
    · have written : Written ⟨options,config,targets,build.source⟩ id := by
        refine ⟨fun system => ?_,built⟩
        have kind : build.kind id = .systemLibrary := system
        rcases links with other | ⟨other | other,_⟩ <;> rw [kind] at other <;> cases other
      have library : depIsLibrary ⟨options,config,targets,build.source⟩ d = true := depIsLibrary_iff.mpr (.inr (.inr (.inl plugin)))
      obtain ⟨_,other,found,provides⟩ := all id target located written d ""
        (.static listed ((linksStatically_iff analysed located).mpr links) library named)
      have kind : (build.source d).kind = .ccPlugin := plugin
      simp [Provides,kind] at provides
    · have written : Written ⟨options,config,targets,build.source⟩ id := by
        refine ⟨fun system => ?_,built⟩
        have kind : build.kind id = .systemLibrary := system
        rcases links with ⟨other | other,_⟩ | ⟨other,_⟩ <;> rw [kind] at other <;> cases other
      have library : depIsLibrary ⟨options,config,targets,build.source⟩ d = true := depIsLibrary_iff.mpr (.inr (.inr (.inl plugin)))
      have kind : (build.source d).kind = .ccPlugin := plugin
      have full : (build.source d).kind = .ccLibrary → (build.source d).srcs ≠ [] := by simp [kind]
      obtain ⟨_,other,found,provides⟩ := all id target located written d "dynamic"
        (.dynamic listed ((linksDynamically_iff analysed located).mpr links) library full named)
      simp only [Provides,kind,true_and] at provides
      refine provides.imp_right fun some_dep => ?_
      obtain ⟨e,member⟩ := List.exists_mem_of_ne_nil _ some_dep
      obtain ⟨next,edge,_⟩ := TransGen.head'_iff.mp ((analysed.deps d other found e).mp member)
      exact ⟨next,edge⟩
    · have kind : (build.source d).kind = .ccPlugin := plugin
      have own : (build.source id).kind = .genRule := rule
      obtain ⟨_,other,found,provides⟩ := all id target located (by simp [Written,own]) d ""
        (.waited listed rule (by simp only [kind]; decide))
      simp [Provides,kind] at provides
    · have kind : (build.source d).kind = .ccTest := test
      have own : (build.source id).kind = .genRule := rule
      obtain ⟨written,_⟩ := all id target located (by simp [Written,own]) d "" (.waited listed rule (by simp only [kind]; decide))
      exact written.2 skipped kind
  · intro fits k target located written d suffix need
    have reached := (analysed.deps k target located d).mp (needs_listed need)
    obtain ⟨other,found⟩ := Option.isSome_iff_exists.mp ((analysed.present d).trans (closed.reached reached))
    obtain ⟨also,provides⟩ := fits.met analysed located found written need
    exact ⟨also,other,found,provides⟩

end

/-- Every variable that a rule uses is assigned by an earlier rule exactly when the
targets fit. -/
theorem variables_assigned (build : Build) (options : Options) (config : Config) (acyclic : Acyclic build.graph)
    (closed : Closed build.graph) {keysOrder : List TargetId → List TargetId} (permutes : ∀ keys, (keysOrder keys).Perm keys) :
    ∃ rules, generateBuildRules keysOrder build options config = .ok rules ∧ (WellScoped rules ↔ Fits build options) := by
  obtain ⟨targets,expanded,order,all⟩ := expandDeps_expanded build.graph acyclic closed
  obtain ⟨transitive,_⟩ := expanded_transitive acyclic closed order all
  obtain ⟨sorted,ended,perm,later⟩ := topologicalSort_ok transitive permutes
  have ordered := Ordered.of_sorted transitive perm later
  have analysed := Analysed.of_expanded order all (expandDeps_marked acyclic closed expanded)
  have ran : genTargetsRules ⟨options,config,targets,build.source⟩ sorted = .ok _ := genTargetsRules_ok ordered
  refine ⟨_,?_,(wellScoped_blocks ⟨options,config,targets,build.source⟩ transitive ordered).trans (fits_iff closed analysed)⟩
  simp only [generateBuildRules,expanded,ended,ran,Except.mapError,bind,Except.bind]

/-- A program, a plugin and a library of the system. -/
def pluginTargets : List (TargetId × Target) := [
  (("a","main"),⟨.other "cc_binary",⟨false,false,false,false,false⟩,[("a","plug"),("#","m")]⟩),
  (("a","plug"),⟨.other "cc_plugin",⟨false,false,false,false,false⟩,[]⟩),
  (("#","m"),⟨.other "system_library",⟨false,false,false,false,false⟩,[]⟩)]

def pluginSource (id : TargetId) : Source where
  kind := if id = ("a","main") then .ccBinary else if id = ("#","m") then .systemLibrary else .ccPlugin
  srcs := if id = ("a","main") then ["main.cc"] else if id = ("a","plug") then ["plug.cc"] else []
  linkAllSymbols := false
  exportDynamic := false
  warning := "yes"
  cppFlags := ["-O2","-fno-omit-frame-pointer"]
  incs := []
  extraLinkflags := []
  outs := []
  cmd := ""

theorem forall_plugin {id : TargetId} {target : Target} (located : pluginTargets.lookup id = some target)
    {P : TargetId → Target → Prop} (all : ∀ entry ∈ pluginTargets, P entry.1 entry.2) : P id target := by
  obtain ⟨front,back,split,_⟩ := List.lookup_eq_some_iff.mp located
  exact all (id,target) (by simp [split])

/-- The program is linked with the plugin and the library. -/
def pluginBuild : Build where
  graph := {
    order := [("a","main"),("a","plug"),("#","m")]
    find := fun id => pluginTargets.lookup id
    nodup := by decide
    mem_order := fun id => by
      rw [List.lookup_isSome_iff,pluginTargets]
      simp only [List.mem_cons,List.not_mem_nil,or_false,exists_eq_or_imp,exists_eq_left,beq_iff_eq] }
  source := pluginSource
  typed _ _ located := forall_plugin located
    (P := fun id target => target.type = .other (pluginSource id).kind.type) (by decide)
  dynamic _ _ located := forall_plugin located
    (P := fun id target => target.data.dynamicLink = true → (pluginSource id).kind = .ccBinary ∨ (pluginSource id).kind = .ccTest)
    (by decide)
  unmarked _ _ located := forall_plugin located (P := fun _ target => target.data.buildDynamic = false) (by decide)
  system id kind := by
    simp only [pluginSource] at kind
    split at kind
    · cases kind
    · split at kind
      · rename_i same
        rw [same]
      · cases kind

/-- The program uses the static library of the plugin, which no rule makes. -/
theorem plugin_unassigned : ∃ rules, generateBuildRules (fun keys => keys) pluginBuild ⟨"64","release",false,false⟩
    ⟨"build64_release",[],false⟩ = .ok rules ∧ ¬WellScoped rules := by
  refine ⟨_,rfl,?_⟩
  decide

theorem variables_assigned_plugin : ∃ rules, generateBuildRules List.reverse pluginBuild ⟨"64","release",true,false⟩
    ⟨"build64_release",[],false⟩ = .ok rules ∧ (WellScoped rules ↔ Fits pluginBuild ⟨"64","release",true,false⟩) := by
  have acyclic : Acyclic pluginBuild.graph :=
    acyclic_of_rank (fun id => if id = ("a","main") then 1 else 0) (forall_dep (by decide))
  exact variables_assigned pluginBuild _ _ acyclic (forall_dep (by decide)) List.reverse_perm

end WebSearch.Blade
