import Lifeguard.ImportGraph
import Lifeguard.ModuleEffects
import Mathlib.Data.Finset.Union

/-!
# Implicit imports

A module that uses `a.b` without importing it relies on someone else to have loaded it: the
use is an implicit import unless what the module did import loads it (`implicit_imports.rs`).
Which modules are loaded is gathered from the hash sets of the analyses, and the orders of
these are a parameter (`HashOrders`).

- `mem_implicitImports`: which names are implicit, with the two places where an order is seen:
  the alias of several modules stands for the first of them (`AliasAccess`), and an import of
  a called function counts for those called after it;
- `implicitImports_order_free_iff`: the result is the same in every order exactly when what
  some order loads every order loads (`Steady`).
-/

namespace Lifeguard

open Lib

/-- `ModuleImportsMap`. -/
abbrev ModuleImportsMap := Table ModuleName (Finset ModuleName)

/-- `AnalysisMap`. -/
abbrev AnalysisMap := Table ModuleName AnalyzedModule

/-! ## The orders -/

/-- A hash set in the record of a module. -/
inductive ImportSet
  | pending (key : ModuleName)
  | called (scope : ModuleName)
  | allPending
  | calledFunctions

/-- The orders in which the sets of each module's record, and the scopes of its called
imports, are run through. -/
structure HashOrders where
  members : ModuleName → ImportSet → Finset ModuleName → List ModuleName
  nodup_members : ∀ m f s, (members m f s).Nodup
  mem_members : ∀ m f s x, x ∈ members m f s ↔ x ∈ s
  scopes : ModuleName → ModuleImportsMap → List (ModuleName × Finset ModuleName)
  perm_scopes : ∀ m t, (scopes m t).Perm t.entries

/-! ## What other modules load -/

section Model

variable (orders : HashOrders) (analysisMap : AnalysisMap)

/-- `collect_parent_module_imports`. -/
def collectParentModuleImports (currImport : ModuleName) : Finset ModuleName :=
  match analysisMap.get? currImport with
  | none => ∅
  | some output =>
    match output.moduleEffects.calledImports.get? currImport with
    | none => ∅
    | some importsToLoad =>
      match output.moduleEffects.pendingImports.get? currImport with
      | some parentPendingImport => parentPendingImport ∩ importsToLoad
      | none => ∅

/-- `collect_imports_in_function_module`: of the nearest package above that was analyzed. -/
def collectImportsInFunctionModule (currImport : ModuleName) : Finset ModuleName :=
  match (ancestors currImport).findSome? fun pkg =>
    (analysisMap.get? pkg).map fun output => (pkg, output) with
  | none => ∅
  | some (parentName, output) =>
    let otherModuleLevelImport := output.moduleEffects.pendingImports.setAt parentName
    let functionPendingImport := output.moduleEffects.pendingImports.setAt currImport
    let functionCalledImport := output.moduleEffects.calledImports.setAt currImport
    (functionCalledImport.filter fun imp =>
      imp ∈ functionPendingImport ∨ imp ∈ otherModuleLevelImport) ∪ functionPendingImport

/-- `is_called_attribute_loaded`. -/
def isCalledAttributeLoaded (currImport : ModuleName) (allPendingImports : Finset ModuleName)
    (importGraph : ImportGraph) : Bool :=
  decide (currImport ∉ importGraph.nodes) &&
    (ancestors currImport).any fun pkg => decide (pkg ∈ allPendingImports)

/-- `fill_import_as_map`, for the module `owner` that `pendingModule` stands for. What an
alias stands for is the first of its set. -/
def fillImportAsMap (owner pendingModule : ModuleName) (topLevelImports : Finset ModuleName)
    (modulePendingImports : ModuleImportsMap) (importAsMap : ModuleImportsMap) :
    ModuleImportsMap :=
  (orders.members owner (.pending owner) topLevelImports).foldl
    (fun importAsMap imp =>
      let key := appendStr pendingModule imp
      let entered := importAsMap.extend key {key}
      match modulePendingImports.get? imp with
      | some loadedModule =>
        match (orders.members owner (.pending imp) loadedModule).head? with
        | some moduleName => entered.extend key {moduleName}
        | none => entered
      | none => entered)
    importAsMap

/-- One called function in `collect_called_function_imports`: its own imports are pending from
here on, and those it uses and that are pending are loaded. -/
def callFunction (pendingImports calledImports : ModuleImportsMap)
    (st : Finset ModuleName × Finset ModuleName) (function : ModuleName) :
    Finset ModuleName × Finset ModuleName :=
  let pending := st.1 ∪ pendingImports.setAt function
  (pending, st.2 ∪ (calledImports.setAt function).filter fun imp => imp ∈ pending)

/-- `collect_called_function_imports`. -/
def collectCalledFunctionImports (pendingModuleName : ModuleName) : Finset ModuleName :=
  match analysisMap.get? pendingModuleName with
  | none => ∅
  | some output =>
    let effects := output.moduleEffects
    ((orders.members pendingModuleName .calledFunctions effects.calledFunctions).foldl
      (callFunction effects.pendingImports effects.calledImports)
      (effects.pendingImports.setAt pendingModuleName, ∅)).2

/-- `compute_additional_called_imports`, for one module. -/
def additionalCalledImportsOf (currModule : ModuleName) (output : AnalyzedModule) :
    Option (Finset ModuleName) :=
  let effects := output.moduleEffects
  match effects.calledImports.get? currModule with
  | none => none
  | some imports =>
    let additional := (orders.members currModule (.called currModule) imports).foldl
      (fun additional currImport =>
        if currImport ∉ effects.pendingImports.setAt currModule ∧
            currImport ∈ effects.calledFunctions then
          additional ∪ collectImportsInFunctionModule analysisMap currImport
        else additional)
      ∅
    if additional = ∅ then none else some additional

/-- `compute_additional_called_imports`. -/
def computeAdditionalCalledImports : Table ModuleName (Finset ModuleName) :=
  analysisMap.filterMapVals (additionalCalledImportsOf orders analysisMap)

/-- `str::strip_suffix`. -/
def stripSuffix (s suffix : Str) : Option Str :=
  if suffix.isSuffixOf s then some (s.take (s.length - suffix.length)) else none

/-- `build_init_module_map`. -/
def buildInitModuleMap : Table ModuleName ModuleName :=
  Table.ofList (analysisMap.keys.filterMap fun m =>
    (stripSuffix m "/__init__".toList).map fun base => (base, m))

/-- `PYTHON_STARTUP_SUBMODULES`. -/
def pythonStartupSubmodules : List ModuleName :=
  ["encodings.aliases".toList, "encodings.utf_8".toList, "os.path".toList]

/-- `scope_imports_module`. -/
def scopeImportsModule (effects : ModuleEffects) (scope imported : ModuleName) : Bool :=
  decide (imported ∈ effects.pendingImports.setAt scope) ||
    decide (imported ∈ effects.aliasedImports.setAt scope)

/-! ## What is implicit -/

/-- `ImplicitImportContext`, with the orders. -/
structure ImplicitImportContext where
  orders : HashOrders
  analysisMap : AnalysisMap
  additionalCalledImports : Table ModuleName (Finset ModuleName)
  initModuleMap : Table ModuleName ModuleName
  importGraph : ImportGraph

/-- The module a pending name stands for. -/
def ImplicitImportContext.initModule (ctx : ImplicitImportContext) (pendingModule : ModuleName) :
    ModuleName :=
  (ctx.initModuleMap.get? pendingModule).getD pendingModule

/-- The maps gathered from the pending modules. -/
structure Gathered where
  importAsMap : ModuleImportsMap := Table.empty
  allCalledFnImports : Finset ModuleName := ∅

/-- The pending imports of a module, none when it was not analyzed. -/
def pendingImportsOf (owner : ModuleName) : ModuleImportsMap :=
  match analysisMap.get? owner with
  | some output => output.moduleEffects.pendingImports
  | none => Table.empty

/-- One pending module. -/
def gatherPending (ctx : ImplicitImportContext) (st : Gathered) (pendingModule : ModuleName) :
    Gathered :=
  let pendingModuleName := ctx.initModule pendingModule
  let modulePendingImports := pendingImportsOf ctx.analysisMap pendingModuleName
  { importAsMap := fillImportAsMap ctx.orders pendingModuleName pendingModule
      (modulePendingImports.setAt pendingModuleName) modulePendingImports st.importAsMap
    allCalledFnImports := st.allCalledFnImports ∪
      collectCalledFunctionImports ctx.orders ctx.analysisMap pendingModuleName }

/-- The names that are not implicit, and whether some use was of none of the known kinds. -/
structure Judged where
  nonImplicitImports : Finset ModuleName := ∅
  hasUnresolvedImports : Bool := false

/-- Names that are loaded. -/
def Judged.load (st : Judged) (names : Finset ModuleName) : Judged :=
  { st with nonImplicitImports := st.nonImplicitImports ∪ names }

/-- `called_in_imported_set`. -/
def calledInImportedSet (ctx : ImplicitImportContext) (allPendingImports : Finset ModuleName) :
    Finset ModuleName :=
  allPendingImports.biUnion fun pendingModule =>
    ctx.additionalCalledImports.setAt (ctx.initModule pendingModule)

/-- One use of a name in a scope. -/
def judgeImport (ctx : ImplicitImportContext) (currModule : ModuleName) (effects : ModuleEffects)
    (importAsMap : ModuleImportsMap) (scope : ModuleName) (st : Judged) (currImport : ModuleName) :
    Judged :=
  if scopeImportsModule effects currModule currImport ||
      scopeImportsModule effects scope currImport then
    st.load (insert currImport (collectParentModuleImports ctx.analysisMap currImport))
  else if currImport ∈ effects.calledFunctions then
    st.load (insert currImport (collectImportsInFunctionModule ctx.analysisMap currImport))
  else
    let st := { st with hasUnresolvedImports := true }
    if currImport ∈ calledInImportedSet ctx effects.allPendingImportNames then
      st.load {currImport}
    else
      let attr := isCalledAttributeLoaded currImport effects.allPendingImportNames ctx.importGraph
      let st := if attr then st.load {currImport} else st
      match importAsMap.get? currImport with
      | some loaded => st.load loaded
      | none => st

/-- `compute_implicit_imports_for_module`. -/
def computeImplicitImportsForModule (ctx : ImplicitImportContext) (currModule : ModuleName)
    (output : AnalyzedModule) : List ModuleName :=
  let effects := output.moduleEffects
  let gathered := (ctx.orders.members currModule .allPending effects.allPendingImportNames).foldl
    (gatherPending ctx) {}
  let judged := (ctx.orders.scopes currModule effects.calledImports).foldl
    (fun st e => (ctx.orders.members currModule (.called e.1) e.2).foldl
      (judgeImport ctx currModule effects gathered.importAsMap e.1) st) ({} : Judged)
  let nonImplicitImports := if judged.hasUnresolvedImports then
      judged.nonImplicitImports ∪ gathered.allCalledFnImports
    else judged.nonImplicitImports
  ((ctx.orders.scopes currModule effects.calledImports).flatMap fun e =>
    ctx.orders.members currModule (.called e.1) e.2).filter fun imp =>
      decide (imp ∉ nonImplicitImports) && decide (imp ∉ pythonStartupSubmodules)

/-- The context of `compute_implicit_imports`. -/
def implicitImportContext (importGraph : ImportGraph) : ImplicitImportContext where
  orders := orders
  analysisMap := analysisMap
  additionalCalledImports := computeAdditionalCalledImports orders analysisMap
  initModuleMap := buildInitModuleMap analysisMap
  importGraph := importGraph

/-- `compute_implicit_imports`: the implicit imports of each module. -/
def computeImplicitImports (importGraph : ImportGraph) : Table ModuleName (Finset ModuleName) :=
  let ctx := implicitImportContext orders analysisMap importGraph
  analysisMap.mapVals fun currModule output =>
    (computeImplicitImportsForModule ctx currModule output).toFinset

end Model

/-! ## What each loop gathers -/

variable {orders : HashOrders} {analysisMap : AnalysisMap} {importGraph : ImportGraph}
  {x : ModuleName}

/-- A fold that adds a set for each item gathers all of them. -/
theorem mem_foldl_adds {α : Type} {f : Finset ModuleName → α → Finset ModuleName}
    {adds : α → Finset ModuleName} (hf : ∀ s a, f s a = s ∪ adds a) (l : List α)
    (s : Finset ModuleName) : x ∈ l.foldl f s ↔ x ∈ s ∨ ∃ a ∈ l, x ∈ adds a := by
  induction l generalizing s with
  | nil => simp
  | cons a l ih =>
    rw [List.foldl_cons, ih, hf, Finset.mem_union, or_assoc, List.exists_mem_cons_iff]

/-- An import that a called function uses is loaded when it is pending by the time of the
call: in the module, in the function, or in one that was run through before. -/
theorem mem_foldl_callFunction {pendingImports calledImports : ModuleImportsMap}
    (l : List ModuleName) (pending found : Finset ModuleName) :
    x ∈ (l.foldl (callFunction pendingImports calledImports) (pending, found)).2 ↔
      x ∈ found ∨ ∃ before f after, l = before ++ f :: after ∧ x ∈ calledImports.setAt f ∧
        (x ∈ pending ∨ ∃ g ∈ before ++ [f], x ∈ pendingImports.setAt g) := by
  induction l generalizing pending found with
  | nil => simp
  | cons a l ih =>
    rw [List.foldl_cons, callFunction, ih, Finset.mem_union, Finset.mem_filter, Finset.mem_union,
      or_assoc]
    refine or_congr_right ?_
    constructor
    · -- the function passed now is the one that uses it, or one before that
      rintro (⟨hcalled, hpending⟩ | ⟨before, f, after, rfl, hcalled, hpending⟩)
      · refine ⟨[], a, l, rfl, hcalled, hpending.imp id fun h => ⟨a, ?_, h⟩⟩
        rw [List.nil_append]
        exact List.mem_singleton_self a
      · refine ⟨a :: before, f, after, rfl, hcalled, ?_⟩
        rcases hpending with (hpending | hpending) | ⟨g, hg, hpending⟩
        · exact Or.inl hpending
        · exact Or.inr ⟨a, List.mem_cons_self, hpending⟩
        · exact Or.inr ⟨g, List.mem_cons_of_mem a hg, hpending⟩
    · rintro ⟨before, f, after, hl, hcalled, hpending⟩
      cases before with
      | nil =>
        obtain ⟨rfl, rfl⟩ := List.cons_eq_cons.mp hl
        refine Or.inl ⟨hcalled, hpending.imp id ?_⟩
        rintro ⟨g, hg, h⟩
        rwa [List.mem_singleton.mp hg] at h
      | cons b before =>
        obtain ⟨rfl, rfl⟩ := List.cons_eq_cons.mp hl
        refine Or.inr ⟨before, f, after, rfl, hcalled, ?_⟩
        rcases hpending with hpending | ⟨g, hg, hpending⟩
        · exact Or.inl (Or.inl hpending)
        · rcases List.mem_cons.mp hg with rfl | hg
          · exact Or.inl (Or.inr hpending)
          · exact Or.inr ⟨g, hg, hpending⟩

theorem mem_collectCalledFunctionImports {owner : ModuleName} :
    x ∈ collectCalledFunctionImports orders analysisMap owner ↔
      ∃ output, analysisMap.get? owner = some output ∧ ∃ before f after,
        orders.members owner .calledFunctions output.moduleEffects.calledFunctions =
          before ++ f :: after ∧ x ∈ output.moduleEffects.calledImports.setAt f ∧
        (x ∈ output.moduleEffects.pendingImports.setAt owner ∨
          ∃ g ∈ before ++ [f], x ∈ output.moduleEffects.pendingImports.setAt g) := by
  rw [collectCalledFunctionImports]
  cases analysisMap.get? owner with
  | none => simp
  | some output =>
    dsimp only
    rw [mem_foldl_callFunction]
    simp

/-- What the calls of a module that was analyzed load in other modules. -/
def CallsLoad (analysisMap : AnalysisMap) (m x : ModuleName) : Prop :=
  ∃ output, analysisMap.get? m = some output ∧
    ∃ c ∈ output.moduleEffects.calledImports.setAt m,
      (c ∉ output.moduleEffects.pendingImports.setAt m ∧
        c ∈ output.moduleEffects.calledFunctions) ∧
      x ∈ collectImportsInFunctionModule analysisMap c

theorem mem_computeAdditionalCalledImports {m : ModuleName} :
    x ∈ (computeAdditionalCalledImports orders analysisMap).setAt m ↔
      CallsLoad analysisMap m x := by
  rw [Table.setAt, computeAdditionalCalledImports, Table.get?_filterMapVals, CallsLoad]
  cases analysisMap.get? m with
  | none => simp
  | some output =>
    simp only [Option.bind_some, Option.some.injEq, exists_eq_left']
    unfold additionalCalledImportsOf Table.setAt
    dsimp only
    cases output.moduleEffects.calledImports.get? m with
    | none => simp
    | some imports =>
      dsimp only
      -- an empty set is not kept, and is the default
      have hkeep : ∀ s : Finset ModuleName, (if s = ∅ then none else some s).getD ∅ = s := by
        intro s
        split
        · next h => exact h.symm
        · rfl
      have hstep : ∀ (s : Finset ModuleName) (c : ModuleName),
          (if c ∉ (output.moduleEffects.pendingImports.get? m).getD ∅ ∧
              c ∈ output.moduleEffects.calledFunctions then
            s ∪ collectImportsInFunctionModule analysisMap c
          else s) = s ∪ if c ∉ (output.moduleEffects.pendingImports.get? m).getD ∅ ∧
              c ∈ output.moduleEffects.calledFunctions then
            collectImportsInFunctionModule analysisMap c
          else ∅ := by
        intro s c
        split
        · rfl
        · exact (Finset.union_empty s).symm
      rw [hkeep, mem_foldl_adds hstep]
      simp only [Finset.notMem_empty, false_or, orders.mem_members, Option.getD_some]
      refine exists_congr fun c => and_congr_right fun _ => ?_
      split
      · next h => exact (and_iff_right h).symm
      · next h => exact iff_of_false (Finset.notMem_empty x) fun h' => h h'.1

/-- The names under which the imports of a module are reached from outside, and for each what
it loads: itself, and the first of the modules it is an alias of. -/
theorem mem_fillImportAsMap {owner pendingModule key : ModuleName} {topLevel : Finset ModuleName}
    {modulePending importAsMap : ModuleImportsMap} :
    x ∈ (fillImportAsMap orders owner pendingModule topLevel modulePending importAsMap).setAt key ↔
      x ∈ importAsMap.setAt key ∨ ∃ imp ∈ topLevel, appendStr pendingModule imp = key ∧
        (x = key ∨ ∃ loaded, modulePending.get? imp = some loaded ∧
          (orders.members owner (.pending imp) loaded).head? = some x) := by
  have hfrom : ∀ (l : List ModuleName) (importAsMap : ModuleImportsMap),
      x ∈ (l.foldl
        (fun importAsMap imp =>
          let key := appendStr pendingModule imp
          let entered := importAsMap.extend key {key}
          match modulePending.get? imp with
          | some loadedModule =>
            match (orders.members owner (.pending imp) loadedModule).head? with
            | some moduleName => entered.extend key {moduleName}
            | none => entered
          | none => entered)
        importAsMap).setAt key ↔
      x ∈ importAsMap.setAt key ∨ ∃ imp ∈ l, appendStr pendingModule imp = key ∧
        (x = key ∨ ∃ loaded, modulePending.get? imp = some loaded ∧
          (orders.members owner (.pending imp) loaded).head? = some x) := by
    intro l
    induction l with
    | nil => intro importAsMap; simp
    | cons imp l ih =>
      intro importAsMap
      rw [List.foldl_cons, ih, List.exists_mem_cons_iff, ← or_assoc]
      refine or_congr_left ?_
      -- the name itself is entered whether or not it is an alias
      have hentered : x ∈ (importAsMap.extend (appendStr pendingModule imp)
          {appendStr pendingModule imp}).setAt key ↔
          x ∈ importAsMap.setAt key ∨ appendStr pendingModule imp = key ∧ x = key := by
        rw [Table.mem_setAt_extend, Finset.mem_singleton]
        refine or_congr_right (and_congr_right ?_)
        rintro rfl
        rfl
      cases hloaded : modulePending.get? imp with
      | none =>
        dsimp only
        rw [hentered]
        simp
      | some loaded =>
        dsimp only
        cases hfirst : (orders.members owner (.pending imp) loaded).head? with
        | none =>
          dsimp only
          rw [hentered]
          simp [hfirst]
        | some first =>
          dsimp only
          rw [Table.mem_setAt_extend, hentered, Finset.mem_singleton, or_assoc]
          refine or_congr_right ?_
          rw [← and_or_left]
          refine and_congr_right fun _ => or_congr_right ?_
          simp [hfirst, eq_comm]
  rw [fillImportAsMap, hfrom]
  simp only [orders.mem_members]

/-- What is gathered from the pending modules. -/
theorem gathered_spec (ctx : ImplicitImportContext) (l : List ModuleName) (key : ModuleName) :
    (x ∈ (l.foldl (gatherPending ctx) {}).importAsMap.setAt key ↔
      ∃ p ∈ l, ∃ imp ∈ (pendingImportsOf ctx.analysisMap (ctx.initModule p)).setAt
          (ctx.initModule p), appendStr p imp = key ∧
        (x = key ∨ ∃ loaded,
          (pendingImportsOf ctx.analysisMap (ctx.initModule p)).get? imp = some loaded ∧
          (ctx.orders.members (ctx.initModule p) (.pending imp) loaded).head? = some x)) ∧
    (x ∈ (l.foldl (gatherPending ctx) {}).allCalledFnImports ↔
      ∃ p ∈ l, x ∈ collectCalledFunctionImports ctx.orders ctx.analysisMap
        (ctx.initModule p)) := by
  have hfrom : ∀ (l : List ModuleName) (st : Gathered),
      (x ∈ (l.foldl (gatherPending ctx) st).importAsMap.setAt key ↔
        x ∈ st.importAsMap.setAt key ∨
        ∃ p ∈ l, ∃ imp ∈ (pendingImportsOf ctx.analysisMap (ctx.initModule p)).setAt
            (ctx.initModule p), appendStr p imp = key ∧
          (x = key ∨ ∃ loaded,
            (pendingImportsOf ctx.analysisMap (ctx.initModule p)).get? imp = some loaded ∧
            (ctx.orders.members (ctx.initModule p) (.pending imp) loaded).head? = some x)) ∧
      (x ∈ (l.foldl (gatherPending ctx) st).allCalledFnImports ↔
        x ∈ st.allCalledFnImports ∨ ∃ p ∈ l,
          x ∈ collectCalledFunctionImports ctx.orders ctx.analysisMap (ctx.initModule p)) := by
    intro l
    induction l with
    | nil => intro st; simp
    | cons p l ih =>
      intro st
      obtain ⟨himportAs, hcalled⟩ := ih (gatherPending ctx st p)
      rw [List.foldl_cons, himportAs, hcalled, List.exists_mem_cons_iff, List.exists_mem_cons_iff,
        ← or_assoc, ← or_assoc]
      refine ⟨or_congr_left ?_, or_congr_left ?_⟩
      · exact mem_fillImportAsMap
      · exact Finset.mem_union
  obtain ⟨himportAs, hcalled⟩ := hfrom l {}
  rw [himportAs, hcalled]
  simp [Table.setAt]

/-! ## What is loaded -/

section Loading

variable (orders : HashOrders) (analysisMap : AnalysisMap) (importGraph : ImportGraph)
  (m : ModuleName) (effects : ModuleEffects)

/-- The module a pending name stands for. -/
def initModuleOf (p : ModuleName) : ModuleName :=
  ((buildInitModuleMap analysisMap).get? p).getD p

/-- The name is imported by the module, or in the scope that uses it. -/
def ImportedIn (scope c : ModuleName) : Prop :=
  (scopeImportsModule effects m c || scopeImportsModule effects scope c) = true

instance (scope c : ModuleName) : Decidable (ImportedIn m effects scope c) :=
  inferInstanceAs (Decidable (_ = true))

/-- Some scope uses a name that is neither imported there nor a function that is called. -/
def UnresolvedUse (c : ModuleName) : Prop :=
  ∃ scope, c ∈ effects.calledImports.setAt scope ∧ ¬ImportedIn m effects scope c ∧
    c ∉ effects.calledFunctions

/-- The calls of a pending module load the name. -/
def LoadedByCalls (c : ModuleName) : Prop :=
  ∃ p ∈ effects.allPendingImportNames, CallsLoad analysisMap (initModuleOf analysisMap p) c

/-- The name is that of an import of a pending module, as it is reached from outside. -/
def ReachedAs (p imp c : ModuleName) : Prop :=
  p ∈ effects.allPendingImportNames ∧
    imp ∈ (pendingImportsOf analysisMap (initModuleOf analysisMap p)).setAt
      (initModuleOf analysisMap p) ∧
    appendStr p imp = c

/-- The uses of the module load the name whatever the orders: it is imported or called, or
what is imported or called imports it, or the pending modules load it. -/
def Settled (x : ModuleName) : Prop :=
  ∃ scope c, c ∈ effects.calledImports.setAt scope ∧
    (ImportedIn m effects scope c ∧ (x = c ∨ x ∈ collectParentModuleImports analysisMap c) ∨
      ¬ImportedIn m effects scope c ∧
        (c ∈ effects.calledFunctions ∧
            (x = c ∨ x ∈ collectImportsInFunctionModule analysisMap c) ∨
          c ∉ effects.calledFunctions ∧ x = c ∧
            (LoadedByCalls analysisMap effects c ∨
              isCalledAttributeLoaded c effects.allPendingImportNames importGraph = true ∨
              ∃ p imp, ReachedAs analysisMap effects p imp c)))

/-- A use that goes through the import `imp` of the module `owner`, which is bound to the
modules `loaded`. -/
def AliasAccess (owner imp : ModuleName) (loaded : Finset ModuleName) : Prop :=
  ∃ c, UnresolvedUse m effects c ∧ ¬LoadedByCalls analysisMap effects c ∧
    ∃ p, ReachedAs analysisMap effects p imp c ∧ initModuleOf analysisMap p = owner ∧
      (pendingImportsOf analysisMap owner).get? imp = some loaded

/-- What the uses of a module load in one order: what is settled, the first of what an alias
stands for, and once some use is unresolved, what the calls of the pending modules load. -/
def Loads (x : ModuleName) : Prop :=
  Settled analysisMap importGraph m effects x ∨
    (∃ owner imp loaded, AliasAccess analysisMap m effects owner imp loaded ∧
      (orders.members owner (.pending imp) loaded).head? = some x) ∨
    (∃ c, UnresolvedUse m effects c) ∧ ∃ p ∈ effects.allPendingImportNames,
      x ∈ collectCalledFunctionImports orders analysisMap (initModuleOf analysisMap p)

variable {orders analysisMap importGraph m effects}

theorem mem_calledInImportedSet {c : ModuleName} :
    c ∈ calledInImportedSet (implicitImportContext orders analysisMap importGraph)
        effects.allPendingImportNames ↔ LoadedByCalls analysisMap effects c := by
  rw [calledInImportedSet, Finset.mem_biUnion]
  exact exists_congr fun p => and_congr_right fun _ => mem_computeAdditionalCalledImports

/-- What one use loads. -/
def loadedBy (ctx : ImplicitImportContext) (currModule : ModuleName) (effects : ModuleEffects)
    (importAsMap : ModuleImportsMap) (scope c : ModuleName) : Finset ModuleName :=
  if ImportedIn currModule effects scope c then
    insert c (collectParentModuleImports ctx.analysisMap c)
  else if c ∈ effects.calledFunctions then
    insert c (collectImportsInFunctionModule ctx.analysisMap c)
  else if c ∈ calledInImportedSet ctx effects.allPendingImportNames then {c}
  else
    (if isCalledAttributeLoaded c effects.allPendingImportNames ctx.importGraph then {c} else ∅) ∪
      importAsMap.setAt c

theorem judgeImport_eq (ctx : ImplicitImportContext) (importAsMap : ModuleImportsMap)
    (scope : ModuleName) (st : Judged) (c : ModuleName) :
    judgeImport ctx m effects importAsMap scope st c =
      { nonImplicitImports := st.nonImplicitImports ∪ loadedBy ctx m effects importAsMap scope c
        hasUnresolvedImports := st.hasUnresolvedImports ||
          decide (¬ImportedIn m effects scope c ∧ c ∉ effects.calledFunctions) } := by
  unfold judgeImport loadedBy
  by_cases himported : ImportedIn m effects scope c
  · have hraw : (scopeImportsModule effects m c || scopeImportsModule effects scope c) = true :=
      himported
    rw [if_pos hraw, if_pos himported]
    simp [Judged.load, himported]
  · have hraw : ¬(scopeImportsModule effects m c || scopeImportsModule effects scope c) = true :=
      himported
    rw [if_neg hraw, if_neg himported]
    by_cases hcalled : c ∈ effects.calledFunctions
    · rw [if_pos hcalled, if_pos hcalled]
      simp [Judged.load, hcalled]
    · rw [if_neg hcalled, if_neg hcalled]
      dsimp only
      have hflag : (st.hasUnresolvedImports ||
          decide (¬ImportedIn m effects scope c ∧ c ∉ effects.calledFunctions)) = true := by
        simp [himported, hcalled]
      rw [hflag]
      by_cases hloaded : c ∈ calledInImportedSet ctx effects.allPendingImportNames
      · rw [if_pos hloaded, if_pos hloaded]
        rfl
      · rw [if_neg hloaded, if_neg hloaded, Table.setAt]
        cases isCalledAttributeLoaded c effects.allPendingImportNames ctx.importGraph <;>
          cases importAsMap.get? c <;> simp [Judged.load]

variable (orders m) in
/-- The scopes of a module's uses are the keys of its table. -/
theorem exists_scopes {t : ModuleImportsMap} (P : ModuleName → ModuleName → Prop) :
    (∃ e ∈ orders.scopes m t, ∃ c ∈ e.2, P e.1 c) ↔
      ∃ scope c, c ∈ t.setAt scope ∧ P scope c := by
  constructor
  · rintro ⟨⟨scope, s⟩, he, c, hc, h⟩
    have hget := Table.mem_entries.mp ((orders.perm_scopes m t).mem_iff.mp he)
    exact ⟨scope, c, by rwa [Table.setAt_of_get? hget], h⟩
  · rintro ⟨scope, c, hc, h⟩
    rw [Table.setAt] at hc
    cases hget : t.get? scope with
    | none =>
      rw [hget] at hc
      exact absurd hc (Finset.notMem_empty c)
    | some s =>
      rw [hget] at hc
      exact ⟨(scope, s), (orders.perm_scopes m t).mem_iff.mpr (Table.mem_entries.mpr hget), c, hc,
        h⟩

variable (m effects) in
/-- What all uses load, and whether some is unresolved. -/
theorem judged_spec (ctx : ImplicitImportContext) (importAsMap : ModuleImportsMap)
    (x : ModuleName) :
    let judged := (ctx.orders.scopes m effects.calledImports).foldl
      (fun st e => (ctx.orders.members m (.called e.1) e.2).foldl
        (judgeImport ctx m effects importAsMap e.1) st) ({} : Judged)
    (x ∈ judged.nonImplicitImports ↔ ∃ scope c, c ∈ effects.calledImports.setAt scope ∧
      x ∈ loadedBy ctx m effects importAsMap scope c) ∧
    (judged.hasUnresolvedImports = true ↔ ∃ c, UnresolvedUse m effects c) := by
  -- the uses of one scope, and then of all scopes, by what they add to any state
  have hscope : ∀ (scope : ModuleName) (l : List ModuleName) (st : Judged),
      (x ∈ (l.foldl (judgeImport ctx m effects importAsMap scope) st).nonImplicitImports ↔
        x ∈ st.nonImplicitImports ∨ ∃ c ∈ l, x ∈ loadedBy ctx m effects importAsMap scope c) ∧
      ((l.foldl (judgeImport ctx m effects importAsMap scope) st).hasUnresolvedImports = true ↔
        st.hasUnresolvedImports = true ∨
          ∃ c ∈ l, ¬ImportedIn m effects scope c ∧ c ∉ effects.calledFunctions) := by
    intro scope l
    induction l with
    | nil => intro st; simp
    | cons c l ih =>
      intro st
      obtain ⟨hloads, hflag⟩ := ih (judgeImport ctx m effects importAsMap scope st c)
      rw [List.foldl_cons, hloads, hflag, judgeImport_eq, List.exists_mem_cons_iff,
        List.exists_mem_cons_iff, ← or_assoc, ← or_assoc]
      refine ⟨or_congr_left Finset.mem_union, or_congr_left ?_⟩
      rw [Bool.or_eq_true, decide_eq_true_iff]
  have hscopes : ∀ (l : List (ModuleName × Finset ModuleName)) (st : Judged),
      (x ∈ (l.foldl (fun st e => (ctx.orders.members m (.called e.1) e.2).foldl
          (judgeImport ctx m effects importAsMap e.1) st) st).nonImplicitImports ↔
        x ∈ st.nonImplicitImports ∨
          ∃ e ∈ l, ∃ c ∈ e.2, x ∈ loadedBy ctx m effects importAsMap e.1 c) ∧
      ((l.foldl (fun st e => (ctx.orders.members m (.called e.1) e.2).foldl
          (judgeImport ctx m effects importAsMap e.1) st) st).hasUnresolvedImports = true ↔
        st.hasUnresolvedImports = true ∨
          ∃ e ∈ l, ∃ c ∈ e.2, ¬ImportedIn m effects e.1 c ∧ c ∉ effects.calledFunctions) := by
    intro l
    induction l with
    | nil => intro st; simp
    | cons e l ih =>
      intro st
      obtain ⟨hloads, hflag⟩ := ih ((ctx.orders.members m (.called e.1) e.2).foldl
        (judgeImport ctx m effects importAsMap e.1) st)
      obtain ⟨hloads', hflag'⟩ := hscope e.1 (ctx.orders.members m (.called e.1) e.2) st
      rw [List.foldl_cons, hloads, hflag, hloads', hflag', List.exists_mem_cons_iff,
        List.exists_mem_cons_iff, or_assoc, or_assoc]
      simp only [ctx.orders.mem_members, and_self]
  intro judged
  obtain ⟨hloads, hflag⟩ := hscopes (ctx.orders.scopes m effects.calledImports) {}
  refine ⟨hloads.trans ?_, hflag.trans ?_⟩
  · rw [exists_scopes ctx.orders m fun scope c => x ∈ loadedBy ctx m effects importAsMap scope c]
    simp
  · rw [exists_scopes ctx.orders m fun scope c =>
      ¬ImportedIn m effects scope c ∧ c ∉ effects.calledFunctions, exists_comm]
    simp [UnresolvedUse]

/-- What one use loads, by the kinds of use. -/
theorem mem_loadedBy {importAsMap : ModuleImportsMap} {scope c : ModuleName} :
    x ∈ loadedBy (implicitImportContext orders analysisMap importGraph) m effects importAsMap
        scope c ↔
      ImportedIn m effects scope c ∧ (x = c ∨ x ∈ collectParentModuleImports analysisMap c) ∨
      ¬ImportedIn m effects scope c ∧
        (c ∈ effects.calledFunctions ∧
            (x = c ∨ x ∈ collectImportsInFunctionModule analysisMap c) ∨
          c ∉ effects.calledFunctions ∧
            (LoadedByCalls analysisMap effects c ∧ x = c ∨
              ¬LoadedByCalls analysisMap effects c ∧
                (isCalledAttributeLoaded c effects.allPendingImportNames importGraph = true ∧
                    x = c ∨
                  x ∈ importAsMap.setAt c))) := by
  rw [loadedBy]
  -- the cases are the branches of the loop, in its order
  by_cases himported : ImportedIn m effects scope c
  · rw [if_pos himported, Finset.mem_insert]
    simp [himported, implicitImportContext]
  · rw [if_neg himported]
    by_cases hcalled : c ∈ effects.calledFunctions
    · rw [if_pos hcalled, Finset.mem_insert]
      simp [himported, hcalled, implicitImportContext]
    · rw [if_neg hcalled]
      by_cases hloaded : LoadedByCalls analysisMap effects c
      · rw [if_pos (mem_calledInImportedSet.mpr hloaded), Finset.mem_singleton]
        simp [himported, hcalled, hloaded]
      · rw [if_neg fun h => hloaded (mem_calledInImportedSet.mp h), Finset.mem_union]
        have hattr : x ∈ (if isCalledAttributeLoaded c effects.allPendingImportNames importGraph =
              true then {c} else (∅ : Finset ModuleName)) ↔
            isCalledAttributeLoaded c effects.allPendingImportNames importGraph = true ∧
              x = c := by
          split
          · next h => simp [h]
          · next h => simp [h]
        rw [show (implicitImportContext orders analysisMap importGraph).importGraph = importGraph
          from rfl, hattr]
        simp [himported, hcalled, hloaded]

/-- The names that the maps of the pending modules give a use. -/
theorem mem_importAsMap {c : ModuleName} :
    x ∈ ((orders.members m .allPending effects.allPendingImportNames).foldl
        (gatherPending (implicitImportContext orders analysisMap importGraph)) {}).importAsMap.setAt
          c ↔
      ∃ p imp, ReachedAs analysisMap effects p imp c ∧
        (x = c ∨ ∃ loaded,
          (pendingImportsOf analysisMap (initModuleOf analysisMap p)).get? imp = some loaded ∧
          (orders.members (initModuleOf analysisMap p) (.pending imp) loaded).head? = some x) := by
  rw [(gathered_spec _ _ c).1]
  simp only [orders.mem_members]
  constructor
  · rintro ⟨p, hp, imp, himp, hkey, hx⟩
    exact ⟨p, imp, ⟨hp, himp, hkey⟩, hx⟩
  · rintro ⟨p, imp, ⟨hp, himp, hkey⟩, hx⟩
    exact ⟨p, hp, imp, himp, hkey, hx⟩

/-- What the calls of the pending modules load. -/
theorem mem_allCalledFnImports :
    x ∈ ((orders.members m .allPending effects.allPendingImportNames).foldl
        (gatherPending (implicitImportContext orders analysisMap importGraph))
          {}).allCalledFnImports ↔
      ∃ p ∈ effects.allPendingImportNames,
        x ∈ collectCalledFunctionImports orders analysisMap (initModuleOf analysisMap p) := by
  rw [(gathered_spec _ _ x).2]
  simp only [orders.mem_members]
  rfl

/-- The names that are loaded, as the loops gather them. -/
theorem loads_iff :
    Loads orders analysisMap importGraph m effects x ↔
      (∃ scope c, c ∈ effects.calledImports.setAt scope ∧
        x ∈ loadedBy (implicitImportContext orders analysisMap importGraph) m effects
          ((orders.members m .allPending effects.allPendingImportNames).foldl
            (gatherPending (implicitImportContext orders analysisMap importGraph)) {}).importAsMap
          scope c) ∨
      (∃ c, UnresolvedUse m effects c) ∧ ∃ p ∈ effects.allPendingImportNames,
        x ∈ collectCalledFunctionImports orders analysisMap (initModuleOf analysisMap p) := by
  rw [Loads, ← or_assoc]
  refine or_congr_left ?_
  simp only [mem_loadedBy, mem_importAsMap]
  constructor
  · rintro (⟨scope, c, hc, h⟩ | ⟨owner, imp, loaded, ⟨c, hunresolved, hcalls, p, hreached, howner,
      hget⟩, hfirst⟩)
    · refine ⟨scope, c, hc, h.imp id (And.imp_right (Or.imp id (And.imp_right ?_)))⟩
      rintro ⟨rfl, hloaded⟩
      by_cases hcalls : LoadedByCalls analysisMap effects x
      · exact Or.inl ⟨hcalls, rfl⟩
      · refine Or.inr ⟨hcalls, ?_⟩
        rcases hloaded with hloaded | hattr | ⟨p, imp, hreached⟩
        · exact absurd hloaded hcalls
        · exact Or.inl ⟨hattr, rfl⟩
        · exact Or.inr ⟨p, imp, hreached, Or.inl rfl⟩
    · obtain ⟨scope, hc, himported, hfunction⟩ := hunresolved
      subst howner
      exact ⟨scope, c, hc, Or.inr ⟨himported, Or.inr ⟨hfunction, Or.inr ⟨hcalls, Or.inr
        ⟨p, imp, hreached, Or.inr ⟨loaded, hget, hfirst⟩⟩⟩⟩⟩⟩
  · rintro ⟨scope, c, hc, h | ⟨himported, h | ⟨hfunction, h | ⟨hcalls, h | h⟩⟩⟩⟩
    · exact Or.inl ⟨scope, c, hc, Or.inl h⟩
    · exact Or.inl ⟨scope, c, hc, Or.inr ⟨himported, Or.inl h⟩⟩
    · exact Or.inl ⟨scope, c, hc, Or.inr ⟨himported, Or.inr ⟨hfunction, h.2, Or.inl h.1⟩⟩⟩
    · exact Or.inl ⟨scope, c, hc, Or.inr ⟨himported, Or.inr
        ⟨hfunction, h.2, Or.inr (Or.inl h.1)⟩⟩⟩
    · obtain ⟨p, imp, hreached, rfl | ⟨loaded, hget, hfirst⟩⟩ := h
      · exact Or.inl ⟨scope, x, hc, Or.inr ⟨himported, Or.inr
          ⟨hfunction, rfl, Or.inr (Or.inr ⟨p, imp, hreached⟩)⟩⟩⟩
      · exact Or.inr ⟨initModuleOf analysisMap p, imp, loaded,
          ⟨c, ⟨scope, hc, himported, hfunction⟩, hcalls, p, hreached, rfl, hget⟩, hfirst⟩

/-- The implicit imports of a module are the names it uses that nothing loads. -/
theorem mem_computeImplicitImportsForModule {output : AnalyzedModule} :
    x ∈ computeImplicitImportsForModule (implicitImportContext orders analysisMap importGraph) m
        output ↔
      (∃ scope, x ∈ output.moduleEffects.calledImports.setAt scope) ∧
        x ∉ pythonStartupSubmodules ∧
        ¬Loads orders analysisMap importGraph m output.moduleEffects x := by
  have hjudged := judged_spec m output.moduleEffects
    (implicitImportContext orders analysisMap importGraph)
    ((orders.members m .allPending output.moduleEffects.allPendingImportNames).foldl
      (gatherPending (implicitImportContext orders analysisMap importGraph)) {}).importAsMap x
  obtain ⟨hloads, hflag⟩ := hjudged
  unfold computeImplicitImportsForModule
  dsimp only
  rw [List.mem_filter, List.mem_flatMap, Bool.and_eq_true, decide_eq_true_iff, decide_eq_true_iff,
    and_comm (a := _ ∉ _)]
  refine and_congr ?_ (and_congr_right fun _ => not_congr ?_)
  · constructor
    · rintro ⟨e, he, hx⟩
      obtain ⟨scope, c, hc, rfl⟩ := (exists_scopes orders m fun _ c => c = x).mp
        ⟨e, he, x, (orders.mem_members m (.called e.1) e.2 x).mp hx, rfl⟩
      exact ⟨scope, hc⟩
    · rintro ⟨scope, hx⟩
      obtain ⟨e, he, c, hc, rfl⟩ :=
        (exists_scopes orders m fun _ c => c = x).mpr ⟨scope, x, hx, rfl⟩
      exact ⟨e, he, (orders.mem_members m (.called e.1) e.2 c).mpr hc⟩
  · rw [loads_iff, ← hloads, ← hflag]
    split
    · next hsome =>
      rw [Finset.mem_union]
      exact or_congr_right ⟨fun h => ⟨hsome, mem_allCalledFnImports.mp h⟩,
        fun h => mem_allCalledFnImports.mpr h.2⟩
    · next hnone => exact ⟨Or.inl, fun h => h.elim id fun h => absurd h.1 hnone⟩

end Loading

/-! ## The order of one choice -/

/-- Those that are preferred before the others. -/
def preferred (first : ModuleName → Bool) (l : List ModuleName) : List ModuleName :=
  l.filter first ++ l.filter fun x => !first x

theorem mem_preferred {first : ModuleName → Bool} {l : List ModuleName} :
    x ∈ preferred first l ↔ x ∈ l := by
  rw [preferred, List.mem_append, List.mem_filter, List.mem_filter, ← and_or_left]
  cases first x <;> simp

theorem nodup_preferred {first : ModuleName → Bool} {l : List ModuleName} (h : l.Nodup) :
    (preferred first l).Nodup := by
  refine (h.filter _).append (h.filter _) fun x hx hx' => ?_
  have hfirst := (List.mem_filter.mp hx).2
  have hrest := (List.mem_filter.mp hx').2
  rw [hfirst] at hrest
  exact absurd hrest (by decide)

/-- Nothing that is preferred comes after something that is not. -/
theorem pairwise_preferred (first : ModuleName → Bool) (l : List ModuleName) :
    (preferred first l).Pairwise fun a b => first b = true → first a = true := by
  rw [preferred, List.pairwise_append]
  refine ⟨?_, ?_, ?_⟩
  · exact List.pairwise_of_forall_mem_list fun a ha _ _ _ => (List.mem_filter.mp ha).2
  · refine List.pairwise_of_forall_mem_list fun a _ b hb hfirst => ?_
    have hrest := (List.mem_filter.mp hb).2
    rw [hfirst] at hrest
    exact absurd hrest (by decide)
  · exact fun a ha _ _ _ => (List.mem_filter.mp ha).2

/-- The orders in which what is preferred comes first. -/
noncomputable def HashOrders.prefer (first : ModuleName → ImportSet → ModuleName → Bool) :
    HashOrders where
  members m f s := preferred (first m f) s.toList
  nodup_members _ _ s := nodup_preferred s.nodup_toList
  mem_members _ _ _ _ := mem_preferred.trans Finset.mem_toList
  scopes _ t := t.entries
  perm_scopes _ _ := List.Perm.refl _

section Prefer

variable {first : ModuleName → ImportSet → ModuleName → Bool} {m : ModuleName} {f : ImportSet}
  {s : Finset ModuleName} {y : ModuleName} {before after : List ModuleName}

/-- What comes before a preferred element is preferred. -/
theorem HashOrders.first_of_before
    (h : (HashOrders.prefer first).members m f s = before ++ y :: after)
    (hy : first m f y = true) (hx : x ∈ before) : first m f x = true := by
  have hpair := pairwise_preferred (first m f) s.toList
  rw [show preferred (first m f) s.toList = before ++ y :: after from h,
    List.pairwise_append] at hpair
  exact hpair.2.2 x hx y List.mem_cons_self hy

/-- What is preferred comes before all that is not. -/
theorem HashOrders.mem_before
    (h : (HashOrders.prefer first).members m f s = before ++ y :: after)
    (hy : first m f y ≠ true) (hx : x ∈ s) (hfirst : first m f x = true) : x ∈ before := by
  have hpair := pairwise_preferred (first m f) s.toList
  rw [show preferred (first m f) s.toList = before ++ y :: after from h, List.pairwise_append,
    List.pairwise_cons] at hpair
  have hmem : x ∈ before ++ y :: after := by
    rw [← h]
    exact ((HashOrders.prefer first).mem_members m f s x).mpr hx
  rcases List.mem_append.mp hmem with hbefore | hrest
  · exact hbefore
  · rcases List.mem_cons.mp hrest with rfl | hafter
    · exact absurd hfirst hy
    · exact absurd (hpair.2.1.1 x hafter hfirst) hy

end Prefer

/-! ## Freedom from the order -/

/-- Some order of the called functions of the module loads the name. -/
def MayCall (analysisMap : AnalysisMap) (owner x : ModuleName) : Prop :=
  ∃ output, analysisMap.get? owner = some output ∧
    (∃ f ∈ output.moduleEffects.calledFunctions, x ∈ output.moduleEffects.calledImports.setAt f) ∧
    (x ∈ output.moduleEffects.pendingImports.setAt owner ∨
      ∃ g ∈ output.moduleEffects.calledFunctions, x ∈ output.moduleEffects.pendingImports.setAt g)

/-- A function that the module calls uses the name, and it or the module imports it. -/
def MustCall (analysisMap : AnalysisMap) (owner x : ModuleName) : Prop :=
  ∃ output, analysisMap.get? owner = some output ∧
    ∃ f ∈ output.moduleEffects.calledFunctions,
      x ∈ output.moduleEffects.calledImports.setAt f ∧
      (x ∈ output.moduleEffects.pendingImports.setAt owner ∨
        x ∈ output.moduleEffects.pendingImports.setAt f)

section Freedom

variable (analysisMap : AnalysisMap) (m : ModuleName) (effects : ModuleEffects) (x : ModuleName)

/-- Some order loads the name: it is one of the modules an alias is bound to, or some order of
the calls of a pending module loads it. -/
def MayLoad : Prop :=
  (∃ owner imp loaded, AliasAccess analysisMap m effects owner imp loaded ∧ x ∈ loaded) ∨
    (∃ c, UnresolvedUse m effects c) ∧
      ∃ p ∈ effects.allPendingImportNames, MayCall analysisMap (initModuleOf analysisMap p) x

/-- Every order loads the name: an alias is bound to it alone, or every order of the calls of
a pending module loads it. -/
def MustLoad : Prop :=
  (∃ owner imp, AliasAccess analysisMap m effects owner imp {x}) ∨
    (∃ c, UnresolvedUse m effects c) ∧
      ∃ p ∈ effects.allPendingImportNames, MustCall analysisMap (initModuleOf analysisMap p) x

variable {analysisMap m effects x} {orders : HashOrders} {importGraph : ImportGraph}

/-- What a set is run through up to some place is in the set. -/
theorem mem_of_mem_upto {owner : ModuleName} {f : ImportSet} {s : Finset ModuleName}
    {y g : ModuleName} {before after : List ModuleName}
    (hl : orders.members owner f s = before ++ y :: after) (hg : g ∈ before ++ [y]) : g ∈ s := by
  rw [← orders.mem_members owner f, hl, List.append_cons]
  exact List.mem_append_left _ hg

/-- Calls load at most what some order of them loads. -/
theorem mayCall_of_mem {owner : ModuleName}
    (h : x ∈ collectCalledFunctionImports orders analysisMap owner) :
    MayCall analysisMap owner x := by
  obtain ⟨output, hget, before, f, after, hl, hcalled, hpending⟩ :=
    mem_collectCalledFunctionImports.mp h
  have hmem : ∀ g ∈ before ++ [f], g ∈ output.moduleEffects.calledFunctions :=
    fun g hg => mem_of_mem_upto hl hg
  refine ⟨output, hget, ⟨f, hmem f (List.mem_append_right _ (List.mem_singleton_self f)), hcalled⟩,
    hpending.imp_right ?_⟩
  rintro ⟨g, hg, hpending⟩
  exact ⟨g, hmem g hg, hpending⟩

/-- Calls load at least what every order of them loads. -/
theorem mem_of_mustCall {owner : ModuleName} (h : MustCall analysisMap owner x) :
    x ∈ collectCalledFunctionImports orders analysisMap owner := by
  obtain ⟨output, hget, f, hf, hcalled, hpending⟩ := h
  rw [← orders.mem_members owner .calledFunctions] at hf
  obtain ⟨before, after, hl⟩ := List.append_of_mem hf
  refine mem_collectCalledFunctionImports.mpr ⟨output, hget, before, f, after, hl, hcalled,
    hpending.imp_right fun h => ⟨f, ?_, h⟩⟩
  exact List.mem_append_right _ (List.mem_singleton_self f)

theorem mayLoad_of_loads (h : Loads orders analysisMap importGraph m effects x) :
    Settled analysisMap importGraph m effects x ∨ MayLoad analysisMap m effects x := by
  rcases h with hsettled | ⟨owner, imp, loaded, haccess, hfirst⟩ | ⟨hunresolved, p, hp, hx⟩
  · exact Or.inl hsettled
  · refine Or.inr (Or.inl ⟨owner, imp, loaded, haccess, ?_⟩)
    rw [← orders.mem_members owner (.pending imp)]
    exact List.mem_of_mem_head? hfirst
  · exact Or.inr (Or.inr ⟨hunresolved, p, hp, mayCall_of_mem hx⟩)

theorem loads_of_mustLoad (h : MustLoad analysisMap m effects x) :
    Loads orders analysisMap importGraph m effects x := by
  rcases h with ⟨owner, imp, haccess⟩ | ⟨hunresolved, p, hp, hx⟩
  · refine Or.inr (Or.inl ⟨owner, imp, {x}, haccess, ?_⟩)
    have hperm : (orders.members owner (.pending imp) {x}).Perm [x] :=
      (List.perm_ext_iff_of_nodup (orders.nodup_members _ _ _) (List.nodup_singleton x)).mpr
        fun y => by rw [orders.mem_members, Finset.mem_singleton, List.mem_singleton]
    rw [List.perm_singleton.mp hperm]
    rfl
  · exact Or.inr (Or.inr ⟨hunresolved, p, hp, mem_of_mustCall hx⟩)

variable (analysisMap x) in
/-- The name comes first in every set, and in the called functions those that import it. -/
def seeksFirst (owner : ModuleName) : ImportSet → ModuleName → Bool
  | .calledFunctions, g => decide (x ∈ (pendingImportsOf analysisMap owner).setAt g)
  | _, y => decide (y = x)

/-- Some order loads all that any order loads. -/
theorem loads_seeksFirst (h : MayLoad analysisMap m effects x) :
    Loads (HashOrders.prefer (seeksFirst analysisMap x)) analysisMap importGraph m effects x := by
  rcases h with ⟨owner, imp, loaded, haccess, hx⟩ | ⟨hunresolved, p, hp, output, hget,
    ⟨f, hf, hcalled⟩, hpending⟩
  · refine Or.inr (Or.inl ⟨owner, imp, loaded, haccess, ?_⟩)
    cases hl : (HashOrders.prefer (seeksFirst analysisMap x)).members owner (.pending imp)
        loaded with
    | nil =>
      have hmem := ((HashOrders.prefer (seeksFirst analysisMap x)).mem_members owner (.pending imp)
        loaded x).mpr hx
      rw [hl] at hmem
      exact absurd hmem List.not_mem_nil
    | cons y rest =>
      -- the alias loads its first module, and the order prefers the sought one
      by_cases hy : y = x
      · rw [hy]
        rfl
      · have hbefore : x ∈ ([] : List ModuleName) :=
          HashOrders.mem_before hl (by simp [seeksFirst, hy]) hx (by simp [seeksFirst])
        exact absurd hbefore List.not_mem_nil
  · refine Or.inr (Or.inr ⟨hunresolved, p, hp, ?_⟩)
    rcases hpending with hpending | ⟨g, hg, hpending⟩
    · exact mem_of_mustCall ⟨output, hget, f, hf, hcalled, Or.inl hpending⟩
    · by_cases hown : x ∈ output.moduleEffects.pendingImports.setAt f
      · exact mem_of_mustCall ⟨output, hget, f, hf, hcalled, Or.inr hown⟩
      · -- the function that imports the name comes before the one that uses it
        rw [← (HashOrders.prefer (seeksFirst analysisMap x)).mem_members
          (initModuleOf analysisMap p) .calledFunctions] at hf
        obtain ⟨before, after, hl⟩ := List.append_of_mem hf
        have hbefore : g ∈ before :=
          HashOrders.mem_before hl (by simp [seeksFirst, pendingImportsOf, hget, hown]) hg
            (by simp [seeksFirst, pendingImportsOf, hget, hpending])
        exact mem_collectCalledFunctionImports.mpr ⟨output, hget, before, f, after, hl, hcalled,
          Or.inr ⟨g, List.mem_append_left _ hbefore, hpending⟩⟩

/-- The called imports of a module, none when it was not analyzed. -/
def calledImportsOf (analysisMap : AnalysisMap) (owner : ModuleName) : ModuleImportsMap :=
  match analysisMap.get? owner with
  | some output => output.moduleEffects.calledImports
  | none => Table.empty

variable (analysisMap x) in
/-- The name comes last in every set, and in the called functions those that do not use it. -/
def seeksLast (owner : ModuleName) : ImportSet → ModuleName → Bool
  | .calledFunctions, f => decide (x ∈ (calledImportsOf analysisMap owner).setAt f)
  | _, y => decide (y ≠ x)

/-- Some order loads nothing that not every order loads. -/
theorem mustLoad_of_seeksLast
    (h : Loads (HashOrders.prefer (seeksLast analysisMap x)) analysisMap importGraph m effects x) :
    Settled analysisMap importGraph m effects x ∨ MustLoad analysisMap m effects x := by
  rcases h with hsettled | ⟨owner, imp, loaded, haccess, hfirst⟩ | ⟨hunresolved, p, hp, hx⟩
  · exact Or.inl hsettled
  · refine Or.inr (Or.inl ⟨owner, imp, ?_⟩)
    obtain ⟨rest, hl⟩ := List.head?_eq_some_iff.mp hfirst
    have hx : x ∈ loaded := by
      rw [← (HashOrders.prefer (seeksLast analysisMap x)).mem_members owner (.pending imp), hl]
      exact List.mem_cons_self
    -- any other module of the alias would come before it
    have honly : loaded = {x} := by
      refine Finset.eq_singleton_iff_unique_mem.mpr ⟨hx, fun y hy => by_contra fun hne => ?_⟩
      have hbefore : y ∈ ([] : List ModuleName) :=
        HashOrders.mem_before hl (by simp [seeksLast]) hy (by simp [seeksLast, hne])
      exact absurd hbefore List.not_mem_nil
    rwa [honly] at haccess
  · refine Or.inr (Or.inr ⟨hunresolved, p, hp, ?_⟩)
    obtain ⟨output, hget, before, f, after, hl, hcalled, hpending⟩ :=
      mem_collectCalledFunctionImports.mp hx
    have hmem : ∀ g ∈ before ++ [f], g ∈ output.moduleEffects.calledFunctions :=
      fun g hg => mem_of_mem_upto hl hg
    rcases hpending with hpending | ⟨g, hg, hpending⟩
    · exact ⟨output, hget, f, hmem f (List.mem_append_right _ (List.mem_singleton_self f)),
        hcalled, Or.inl hpending⟩
    · -- whatever comes before a function that uses the name uses it too
      refine ⟨output, hget, g, hmem g hg, ?_, Or.inr hpending⟩
      rcases List.mem_append.mp hg with hbefore | hlast
      · have hfirst := HashOrders.first_of_before hl
          (by simp [seeksLast, calledImportsOf, hget, hcalled]) hbefore
        simpa [seeksLast, calledImportsOf, hget] using hfirst
      · rwa [List.mem_singleton.mp hlast]

end Freedom

/-- Whatever some order loads for a module that was analyzed, of the names that are judged by
it, every order loads. -/
def Steady (analysisMap : AnalysisMap) (importGraph : ImportGraph) : Prop :=
  ∀ m output, analysisMap.get? m = some output →
    ∀ scope, ∀ x ∈ output.moduleEffects.calledImports.setAt scope,
      x ∉ pythonStartupSubmodules →
      ¬Settled analysisMap importGraph m output.moduleEffects x →
      MayLoad analysisMap m output.moduleEffects x →
      MustLoad analysisMap m output.moduleEffects x

theorem get?_computeImplicitImports {m : ModuleName} :
    (computeImplicitImports orders analysisMap importGraph).get? m =
      (analysisMap.get? m).map fun output => (computeImplicitImportsForModule
        (implicitImportContext orders analysisMap importGraph) m output).toFinset :=
  Table.get?_mapVals _ _ m

/-- The implicit imports of the modules. -/
theorem mem_implicitImports {m : ModuleName} :
    x ∈ (computeImplicitImports orders analysisMap importGraph).setAt m ↔
      ∃ output, analysisMap.get? m = some output ∧
        (∃ scope, x ∈ output.moduleEffects.calledImports.setAt scope) ∧
        x ∉ pythonStartupSubmodules ∧
        ¬Loads orders analysisMap importGraph m output.moduleEffects x := by
  rw [Table.setAt, get?_computeImplicitImports]
  cases analysisMap.get? m with
  | none => simp
  | some output => simp [mem_computeImplicitImportsForModule]

/-- The implicit imports of every module are the same in all orders exactly when what some
order loads every order loads. -/
theorem implicitImports_order_free_iff (analysisMap : AnalysisMap) (importGraph : ImportGraph) :
    (∀ (orders orders' : HashOrders) (m : ModuleName),
      (computeImplicitImports orders analysisMap importGraph).get? m =
        (computeImplicitImports orders' analysisMap importGraph).get? m) ↔
      Steady analysisMap importGraph := by
  constructor
  · intro hfree m output hget scope x hx hstartup hsettled hmay
    have hset : (computeImplicitImports (HashOrders.prefer (seeksFirst analysisMap x)) analysisMap
          importGraph).setAt m =
        (computeImplicitImports (HashOrders.prefer (seeksLast analysisMap x)) analysisMap
          importGraph).setAt m := by
      rw [Table.setAt, Table.setAt, hfree]
    -- in the order that seeks the name first it is loaded, so it is in the one that seeks it last
    have hlast : x ∉ (computeImplicitImports (HashOrders.prefer (seeksLast analysisMap x))
        analysisMap importGraph).setAt m := by
      rw [← hset, mem_implicitImports]
      rintro ⟨output', hget', -, -, hloads⟩
      rw [hget] at hget'
      cases hget'
      exact hloads (loads_seeksFirst hmay)
    have hloads : Loads (HashOrders.prefer (seeksLast analysisMap x)) analysisMap importGraph m
        output.moduleEffects x := by
      by_contra hnot
      exact hlast (mem_implicitImports.mpr ⟨output, hget, ⟨scope, hx⟩, hstartup, hnot⟩)
    exact (mustLoad_of_seeksLast hloads).resolve_left hsettled
  · intro hsteady orders orders' m
    rw [get?_computeImplicitImports, get?_computeImplicitImports]
    cases hget : analysisMap.get? m with
    | none => rw [Option.map_none, Option.map_none]
    | some output =>
      rw [Option.map_some, Option.map_some]
      refine congrArg some (Finset.ext fun x => ?_)
      rw [List.mem_toFinset, List.mem_toFinset, mem_computeImplicitImportsForModule,
        mem_computeImplicitImportsForModule]
      refine and_congr_right fun hused => and_congr_right fun hstartup => not_congr ?_
      have hall : ∀ {orders orders' : HashOrders},
          Loads orders analysisMap importGraph m output.moduleEffects x →
          Loads orders' analysisMap importGraph m output.moduleEffects x := by
        intro orders orders' hloads
        by_cases hsettled : Settled analysisMap importGraph m output.moduleEffects x
        · exact Or.inl hsettled
        · obtain ⟨scope, hx⟩ := hused
          exact loads_of_mustLoad (hsteady m output hget scope x hx hstartup hsettled
            ((mayLoad_of_loads hloads).resolve_left hsettled))
      exact ⟨hall, hall⟩

/-- The orders that follow a list, where it names all of a set. -/
noncomputable def HashOrders.along (l : List ModuleName) (hl : l.Nodup) : HashOrders where
  members _ _ s := if s ⊆ l.toFinset then l.filter fun x => decide (x ∈ s) else s.toList
  nodup_members _ _ s := by
    split
    · exact hl.filter _
    · exact s.nodup_toList
  mem_members _ _ s x := by
    split
    · next hsub =>
      rw [List.mem_filter, decide_eq_true_iff, and_iff_right_iff_imp]
      exact fun hx => List.mem_toFinset.mp (hsub hx)
    · exact Finset.mem_toList
  scopes _ t := t.entries
  perm_scopes _ _ := List.Perm.refl _

/-- The module `a` binds `z` to `x.y` and then to `w.v`, and `b` imports `a` and `x` and uses
`a.z` and `x.y`. -/
def reboundAlias : AnalysisMap :=
  Table.ofList
    [("a".toList,
      { moduleEffects :=
          { pendingImports := Table.ofList
              [("a".toList, {"z".toList}), ("z".toList, {"x.y".toList, "w.v".toList})]
            allPendingImportNames := {"z".toList, "x.y".toList, "w.v".toList} } }),
     ("b".toList,
      { moduleEffects :=
          { pendingImports := Table.ofList [("b".toList, {"a".toList, "x".toList})]
            calledImports := Table.ofList [("b".toList, {"a.z".toList, "x.y".toList})]
            allPendingImportNames := {"a".toList, "x".toList} } })]

/-- The modules of `reboundAlias`, and the edges of its imports. -/
def reboundGraph : ImportGraph where
  nodes := ["a".toList, "b".toList, "x".toList, "x.y".toList, "w".toList, "w.v".toList]
  nodes_nodup := by decide +kernel
  edges := [("a".toList, "x.y".toList), ("a".toList, "w.v".toList), ("b".toList, "a".toList),
    ("b".toList, "x".toList)]
  edges_closed := by decide +kernel
  missing := Table.empty
  missing_closed := by decide +kernel

/-- The submodule `x.y` that `b` uses is implicit or not by which of the modules of `z` comes
first. -/
theorem implicitImports_rebound_alias :
    ∃ orders orders' : HashOrders,
      "x.y".toList ∈ (computeImplicitImports orders reboundAlias reboundGraph).setAt "b".toList ∧
      "x.y".toList ∉ (computeImplicitImports orders' reboundAlias reboundGraph).setAt "b".toList :=
  ⟨HashOrders.along ["a".toList, "x".toList, "z".toList, "a.z".toList, "w.v".toList, "x.y".toList]
      (by decide +kernel),
    HashOrders.along ["a".toList, "x".toList, "z".toList, "a.z".toList, "x.y".toList, "w.v".toList]
      (by decide +kernel),
    by decide +kernel, by decide +kernel⟩

end Lifeguard
