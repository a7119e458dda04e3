import Lifeguard.Calls
import Lifeguard.ModuleEffects
import Lifeguard.SubclassRegistration

/-!
# The module-scope pass

Once the verdicts of the functions are known, what the eager scopes of every module run is
checked against them, all modules at once (`project/analysis.rs`, `project/safety.rs`). The
workers share the records of the modules and the verdicts (`project/state.rs`).

- `ModuleUpdate.apply`, `applyUpdates`: the record of a module, update after update;
- `collectErrorsFromScope`: the checks of an eager scope;
- `collectErrorsFromModule`: the worker of one module.

The errors an evaluation adds are told to the module's record when it ends. The sets and maps
of a module are run through in the order of their hashes, which is a parameter (`PassOrders`).
-/

namespace Lifeguard

open Lib

/-- `AnalysisMap`, with the implicit imports of each module. -/
structure PassInput where
  analysisMap : Table ModuleName AnalyzedModule := Table.empty
  implicitImports : ModuleName → Finset ModuleName := fun _ => ∅

/-- `ExecutionMode`. -/
inductive ExecutionMode
  | incremental
  | wholeProgram
  deriving DecidableEq, Repr

/-- `requires_eager_loading_imports`. -/
def ErrorKind.requiresEagerLoadingImports : ErrorKind → Bool
  | .customFinalizer | .execCall | .sysModulesAccess | .subclassesAccess | .builtinsImportOverride
  | .namesOnlyInStub => true
  | _ => false

/-! ## The records of the modules -/

/-- What is told to the record of a module. -/
inductive ModuleUpdate
  | addError (err : SafetyError)
  | addPropertyCandidate (candidate : PropertyCandidate)
  | addSubclassCandidate (candidate : SubclassCandidate)
  | addForceImportsEagerOverride (err : SafetyError)
  | addImplicitImports (implicitImports : List ModuleName)
  | setAnalysisError (message : Str)
  deriving DecidableEq, Repr

namespace ModuleUpdate

/-- The edits `update_module_safety` is called with; an analysis error is none. -/
def edit (safety : ModuleSafety) : ModuleUpdate → ModuleSafety
  | addError err => { safety with errors := safety.errors ++ [err] }
  | addPropertyCandidate candidate =>
    { safety with propertyCandidates := safety.propertyCandidates ++ [candidate] }
  | addSubclassCandidate candidate =>
    { safety with subclassCandidates := safety.subclassCandidates ++ [candidate] }
  | addForceImportsEagerOverride err =>
    { safety with forceImportsEagerOverrides := safety.forceImportsEagerOverrides ++ [err] }
  | addImplicitImports imports =>
    { safety with implicitImports := safety.implicitImports ++ imports }
  | setAnalysisError _ => safety

/-- `update_module_safety`, `set_analysis_error`: the record of a module after an update. -/
def apply (update : ModuleUpdate) (entry : Option SafetyResult) : Option SafetyResult :=
  match update, entry with
  | setAnalysisError message, _ => some (.analysisError message)
  | _, some (.analysisError message) => some (.analysisError message)
  | update, some (.ok safety) => some (.ok (update.edit safety))
  | update, none => some (.ok (update.edit {}))

end ModuleUpdate

/-- One update of the safety map. -/
def applyUpdate (safetyMap : SafetyMap) (update : ModuleName × ModuleUpdate) : SafetyMap :=
  match update.2.apply (safetyMap.get? update.1) with
  | some result => safetyMap.insert update.1 result
  | none => safetyMap

/-- One update after the other. -/
def applyUpdates (safetyMap : SafetyMap) (log : List (ModuleName × ModuleUpdate)) : SafetyMap :=
  log.foldl applyUpdate safetyMap

/-- `init_safety_map`. -/
def initSafetyMap (analysisMap : Table ModuleName AnalyzedModule) : SafetyMap :=
  analysisMap.mapVals fun _ _ => .ok {}

/-! ## One module -/

/-- The verdicts, and what has been told to the records. -/
structure PassState where
  analysis : AnalysisState
  updates : List (ModuleName × ModuleUpdate) := []

/-- Tell the record of a module. -/
def PassState.tell (st : PassState) (modName : ModuleName) (updates : List ModuleUpdate) :
    PassState :=
  { st with updates := st.updates ++ updates.map fun u => (modName, u) }

/-- Run an evaluation, and tell the records the errors it adds. -/
def PassState.evaluate (st : PassState) (check : AnalysisState → Outcome) :
    Except Failure Bool × PassState :=
  let out := check { st.analysis with errors := [] }
  (out.1,
    { analysis := out.2
      updates := st.updates ++ out.2.errors.map fun e => (e.1, .addError e.2) })

/-- The text of an analysis error, without the call it is about. -/
def Failure.message : Failure → Str
  | .unexpectedCall => "Unexpected call type".toList
  | .outOfFuel => "out of fuel".toList

/-- The order in which the sets and maps of a module are run through. -/
structure PassOrders (input : PassInput) where
  eagerScopes : ModuleName → List ModuleName
  effects : ModuleName → List (List Effect)
  implicitImports : ModuleName → List ModuleName
  nodup_eagerScopes : ∀ m, (eagerScopes m).Nodup
  mem_eagerScopes : ∀ m result, input.analysisMap.get? m = some result →
    ∀ scope, scope ∈ eagerScopes m ↔ scope ∈ result.definitions.eagerScopes
  perm_effects : ∀ m result, input.analysisMap.get? m = some result →
    (effects m).Perm (result.moduleEffects.effects.entries.map Prod.snd)
  nodup_implicitImports : ∀ m, (implicitImports m).Nodup
  mem_implicitImports : ∀ m x, x ∈ implicitImports m ↔ x ∈ input.implicitImports m

/-- There are such orders. -/
noncomputable def PassOrders.listed (input : PassInput) : PassOrders input where
  eagerScopes m :=
    ((input.analysisMap.get? m).elim ∅ fun result => result.definitions.eagerScopes).toList
  effects m :=
    (input.analysisMap.get? m).elim [] fun result =>
      result.moduleEffects.effects.entries.map Prod.snd
  implicitImports m := (input.implicitImports m).toList
  nodup_eagerScopes _ := Finset.nodup_toList _
  mem_eagerScopes m result h scope := by rw [h, Finset.mem_toList, Option.elim_some]
  perm_effects m result h := by rw [h, Option.elim_some]
  nodup_implicitImports _ := Finset.nodup_toList _
  mem_implicitImports m x := Finset.mem_toList

/-- The call an eager scope makes. -/
def scopeCall (modName scope : ModuleName) (eff : Effect) : Call where
  callerModule := modName
  effect := eff
  func := eff.name
  stack := [scope]
  isModuleScope := true

/-- The class a class statement of an eager scope creates. -/
def subclassCandidateOf (eff : Effect) : Option SubclassCandidate :=
  if eff.kind = .classCreation then
    (splitAttr eff.name).map fun p =>
      { candidateClass := p.1, range := eff.range, fromMainGuard := eff.fromMainGuard }
  else none

/-- The overrides an effect of the module asks for. -/
def overridesOf (eff : Effect) : List SafetyError :=
  match SafetyError.errorKindFor eff.kind with
  | some kind =>
    if kind.requiresEagerLoadingImports then [SafetyError.newFromEffect kind eff] else []
  | none => []

/-- The override of the names that only a stub defines. -/
def stubOverride (onlyInStub : List Str × TextRange) : SafetyError where
  kind := .namesOnlyInStub
  metadata := List.intercalate ", ".toList onlyInStub.1
  range := onlyInStub.2

/-- The overrides of `check_load_imports_eagerly`. -/
def eagerOverrides (effects : List (List Effect)) (result : AnalyzedModule) : List SafetyError :=
  effects.flatten.flatMap overridesOf ++
    (result.moduleEffects.namesOnlyInStub.map stubOverride).toList

namespace ProjectInfo

variable (info : ProjectInfo)

/-- The name is that of a property of a class. -/
def isPropertyAccess (name : ModuleName) : Bool :=
  ((splitAttr name).bind fun p =>
    (info.classes.get? p.1).bind fun cls => cls.getField p.2).any fun field =>
      decide (field.kind = .property)

/-- The evaluation of the call of an eager scope. -/
def checkScopeCall (modName scope : ModuleName) (eff : Effect) (st : PassState) :
    Except Failure Bool × PassState :=
  st.evaluate fun analysis =>
    info.checkCallSafety (info.checkCallBody info.bodyFuel) true (scopeCall modName scope eff)
      analysis

/-- One effect of `collect_errors_from_scope`. -/
def collectErrorsFromEffect (mode : ExecutionMode) (modName scope : ModuleName) (eff : Effect)
    (st : PassState) : Except Failure Bool × PassState :=
  match SafetyError.fromEffect eff with
  | some err => (.ok true, st.tell modName [.addError err])
  | none =>
    if eff.kind.isRunnable then
      info.checkScopeCall modName scope eff
        (st.tell modName ((subclassCandidateOf eff).toList.map .addSubclassCandidate))
    else
      match eff.kind with
      | .importedTypeAttr =>
        if info.isPropertyAccess eff.name then info.checkScopeCall modName scope eff st
        else (.ok true, st)
      | .unconfirmedTypeAttr =>
        -- the whole-program pass sees every class and needs no candidate
        if mode = .incremental then
          (.ok true, st.tell modName
            [.addPropertyCandidate
              { attributeName := eff.name
                range := eff.range
                fromMainGuard := eff.fromMainGuard }])
        else (.ok true, st)
      | .importedVarMutation =>
        (.ok true,
          st.tell modName [.addError (SafetyError.newFromEffect .importedModuleAssignment eff)])
      | _ => (.ok true, st)

/-- `collect_errors_from_scope`. Its loop, like that over the scopes, stops at a failure only;
what the checks answer is of no account. -/
def collectErrorsFromScope (mode : ExecutionMode) (modName scope : ModuleName)
    (st : PassState) : Except Failure Bool × PassState :=
  match info.effectTable.get? scope with
  | none => (.ok true, st)
  | some effs => checkAll (info.collectErrorsFromEffect mode modName scope) effs st

variable {input : PassInput} (orders : PassOrders input)

/-- `check_load_imports_eagerly`. -/
def checkLoadImportsEagerly (modName : ModuleName) (result : AnalyzedModule) (st : PassState) :
    PassState :=
  st.tell modName
    ((eagerOverrides (orders.effects modName) result).map .addForceImportsEagerOverride)

/-- `collect_implicit_imports`. -/
def collectImplicitImports (modName : ModuleName) (st : PassState) : PassState :=
  st.tell modName [.addImplicitImports (orders.implicitImports modName)]

/-- The worker of one module in `collect_errors_from_project`. -/
def collectErrorsFromModule (mode : ExecutionMode) (modName : ModuleName)
    (result : AnalyzedModule) (st : PassState) : PassState :=
  match checkAll (info.collectErrorsFromScope mode modName) (orders.eagerScopes modName) st with
  | (.error e, st) => st.tell modName [.setAnalysisError e.message]
  | (.ok _, st) =>
    collectImplicitImports orders modName (checkLoadImportsEagerly orders modName result st)

end ProjectInfo

end Lifeguard
