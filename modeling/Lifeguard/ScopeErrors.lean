import Lifeguard.CallGraphTheory
import Lifeguard.ScopeWorkers

/-!
# The errors of the eager scopes

What the module-scope pass leaves in the record of a module (`project/safety.rs`):

- `moduleRecord_of_ok`, `moduleRecord_of_error`: the record, in closed form;
- `EagerError`: why an effect of an eager scope is an error;
- `mem_errors_record`: the record has an error exactly for such an effect, and an analysis error
  exactly where a class statement or a property access meets a callee that does not resolve;
- `pass_order_free`: the records do not depend on how the workers run, nor on the orders of the
  hash sets, up to the order of what they hold (`SameRecord`).
-/

namespace Lifeguard

open Lib

/-! ## Updates that are edits -/

namespace ModuleUpdate

/-- The error an update adds. -/
def error? : ModuleUpdate → Option SafetyError
  | addError err => some err
  | _ => none

/-- The property candidate an update adds. -/
def property? : ModuleUpdate → Option PropertyCandidate
  | addPropertyCandidate candidate => some candidate
  | _ => none

/-- The subclass candidate an update adds. -/
def subclass? : ModuleUpdate → Option SubclassCandidate
  | addSubclassCandidate candidate => some candidate
  | _ => none

/-- The override an update adds. -/
def override? : ModuleUpdate → Option SafetyError
  | addForceImportsEagerOverride err => some err
  | _ => none

/-- The implicit imports an update adds. -/
def imports? : ModuleUpdate → List ModuleName
  | addImplicitImports imports => imports
  | _ => []

/-- The update edits the record, and does not replace it by an analysis error. -/
def isEdit : ModuleUpdate → Bool
  | setAnalysisError _ => false
  | _ => true

end ModuleUpdate

/-- What a list of edits leaves. -/
theorem foldl_edit (updates : List ModuleUpdate) (safety : ModuleSafety) :
    updates.foldl ModuleUpdate.edit safety =
      { safety with
        errors := safety.errors ++ updates.filterMap ModuleUpdate.error?
        propertyCandidates :=
          safety.propertyCandidates ++ updates.filterMap ModuleUpdate.property?
        subclassCandidates :=
          safety.subclassCandidates ++ updates.filterMap ModuleUpdate.subclass?
        forceImportsEagerOverrides :=
          safety.forceImportsEagerOverrides ++ updates.filterMap ModuleUpdate.override?
        implicitImports := safety.implicitImports ++ updates.flatMap ModuleUpdate.imports? } := by
  induction updates generalizing safety with
  | nil => simp
  | cons update updates ih =>
    rw [List.foldl_cons, ih]
    cases update <;>
      simp [ModuleUpdate.edit, List.filterMap_cons, ModuleUpdate.error?, ModuleUpdate.property?,
        ModuleUpdate.subclass?, ModuleUpdate.override?, ModuleUpdate.imports?]

namespace ProjectInfo

/-- Edits keep a record that is no analysis error. -/
theorem recordAfter_edits {updates : List ModuleUpdate}
    (h : ∀ update ∈ updates, update.isEdit = true) (safety : ModuleSafety) :
    recordAfter updates (some (.ok safety)) =
      some (.ok (updates.foldl ModuleUpdate.edit safety)) := by
  induction updates generalizing safety with
  | nil => rfl
  | cons update updates ih =>
    obtain ⟨hupdate, hrest⟩ := List.forall_mem_cons.mp h
    have happly : update.apply (some (.ok safety)) = some (.ok (update.edit safety)) := by
      cases update with
      | setAnalysisError message => cases hupdate
      | _ => rfl
    rw [recordAfter, List.foldl_cons, happly]
    exact ih hrest _

/-- An analysis error replaces the record. -/
theorem recordAfter_setAnalysisError (updates : List ModuleUpdate) (message : Str)
    (entry : Option SafetyResult) :
    recordAfter (updates ++ [.setAnalysisError message]) entry =
      some (.analysisError message) := by
  rw [recordAfter, List.foldl_append]
  rfl

/-! ## The record of a module -/

variable {info : ProjectInfo} {safety : Verdicts} {input : PassInput}
  {orders : PassOrders input} {mode : ExecutionMode} {modName scope : ModuleName} {eff : Effect}
  {result : AnalyzedModule}

/-- An effect adds errors and candidates, and nothing else. -/
theorem update_of_mem_effectUpdates {update : ModuleUpdate}
    (h : update ∈ info.effectUpdates safety mode modName scope eff) :
    update.isEdit = true ∧ update.override? = none ∧ update.imports? = [] := by
  unfold effectUpdates at h
  simp only [List.mem_append, List.mem_map, Option.mem_toList] at h
  rcases h with (((⟨err, -, rfl⟩ | ⟨candidate, -, rfl⟩) | h) | h) | h
  · exact ⟨rfl, rfl, rfl⟩
  · exact ⟨rfl, rfl, rfl⟩
  · split at h
    · obtain ⟨err, -, rfl⟩ := List.mem_map.mp h
      exact ⟨rfl, rfl, rfl⟩
    · cases h
  · split at h
    · rw [List.mem_singleton.mp h]
      exact ⟨rfl, rfl, rfl⟩
    · cases h
  · split at h
    · rw [List.mem_singleton.mp h]
      exact ⟨rfl, rfl, rfl⟩
    · cases h

/-- The evaluation of every effect of the module's eager scopes ends. -/
def AllEvaluated (info : ProjectInfo) (safety : Verdicts) (modName : ModuleName)
    (result : AnalyzedModule) : Prop :=
  ∀ scope ∈ result.definitions.eagerScopes, ∀ eff ∈ info.effectsOf scope,
    (info.effectAnswer safety modName scope eff).isOk = true

/-- What the eager scopes tell, over all their effects. -/
def eagerUpdates (info : ProjectInfo) (safety : Verdicts) (mode : ExecutionMode)
    (modName : ModuleName) (scopes : List ModuleName) : List ModuleUpdate :=
  scopes.flatMap fun scope =>
    (info.effectsOf scope).flatMap (info.effectUpdates safety mode modName scope)

/-- The record of a module whose evaluation ends. -/
def evaluatedRecord (info : ProjectInfo) (orders : PassOrders input) (safety : Verdicts)
    (mode : ExecutionMode) (modName : ModuleName) (result : AnalyzedModule) : ModuleSafety :=
  let updates := info.eagerUpdates safety mode modName (orders.eagerScopes modName)
  { errors := updates.filterMap ModuleUpdate.error?
    propertyCandidates := updates.filterMap ModuleUpdate.property?
    subclassCandidates := updates.filterMap ModuleUpdate.subclass?
    forceImportsEagerOverrides := eagerOverrides (orders.effects modName) result
    implicitImports := orders.implicitImports modName }

theorem isOk_scopeAnswer :
    (info.scopeAnswer safety modName scope).isOk = true ↔
      ∀ eff ∈ info.effectsOf scope, (info.effectAnswer safety modName scope eff).isOk = true :=
  isOk_answerAll

theorem allEvaluated_iff (orders : PassOrders input)
    (hget : input.analysisMap.get? modName = some result) :
    info.AllEvaluated safety modName result ↔
      (answerAll (info.scopeAnswer safety modName) (orders.eagerScopes modName)).isOk = true := by
  rw [isOk_answerAll]
  constructor
  · exact fun h scope hscope =>
      isOk_scopeAnswer.mpr (h scope ((orders.mem_eagerScopes modName result hget scope).mp hscope))
  · exact fun h scope hscope => isOk_scopeAnswer.mp
      (h scope ((orders.mem_eagerScopes modName result hget scope).mpr hscope))

/-- An evaluation that does not end leaves an analysis error. -/
theorem moduleRecord_of_error (hget : input.analysisMap.get? modName = some result)
    (hfail : ¬info.AllEvaluated safety modName result) :
    ∃ message, info.moduleRecord orders safety mode modName result =
      some (.analysisError message) := by
  rw [allEvaluated_iff orders hget] at hfail
  rw [moduleRecord, moduleUpdates]
  rcases hans : answerAll (info.scopeAnswer safety modName) (orders.eagerScopes modName) with e | b
  · exact ⟨e.message, recordAfter_setAnalysisError _ _ _⟩
  · rw [hans] at hfail
    exact absurd rfl hfail

/-- Otherwise the record holds what all the effects tell. -/
theorem moduleRecord_of_ok (hget : input.analysisMap.get? modName = some result)
    (hok : info.AllEvaluated safety modName result) :
    info.moduleRecord orders safety mode modName result =
      some (.ok (info.evaluatedRecord orders safety mode modName result)) := by
  have hscopes := (allEvaluated_iff orders hget).mp hok
  have hupdates : (orders.eagerScopes modName).flatMap (info.scopeUpdates safety mode modName) =
      info.eagerUpdates safety mode modName (orders.eagerScopes modName) :=
    List.flatMap_congr fun scope hscope => by
      rw [scopeUpdates, ran_of_ok (isOk_answerAll.mp hscopes scope hscope)]
  have hmem : ∀ update ∈ info.eagerUpdates safety mode modName (orders.eagerScopes modName),
      update.isEdit = true ∧ update.override? = none ∧ update.imports? = [] := by
    intro update hmem
    obtain ⟨scope, -, hmem⟩ := List.mem_flatMap.mp hmem
    obtain ⟨eff, -, hmem⟩ := List.mem_flatMap.mp hmem
    exact update_of_mem_effectUpdates hmem
  rw [moduleRecord, moduleUpdates, ran_of_ok hscopes, hupdates, evaluatedRecord]
  generalize info.eagerUpdates safety mode modName (orders.eagerScopes modName) = updates at hmem ⊢
  rcases hans : answerAll (info.scopeAnswer safety modName) (orders.eagerScopes modName) with e | b
  · rw [hans] at hscopes
    cases hscopes
  · dsimp only
    have hoverride : updates.filterMap ModuleUpdate.override? = [] :=
      List.filterMap_eq_nil_iff.mpr fun update h => (hmem update h).2.1
    have himports : updates.flatMap ModuleUpdate.imports? = [] :=
      List.flatMap_eq_nil_iff.mpr fun update h => (hmem update h).2.2
    rw [recordAfter_edits, foldl_edit]
    · simp [hoverride, himports, ModuleUpdate.error?, ModuleUpdate.property?,
        ModuleUpdate.subclass?, ModuleUpdate.override?, ModuleUpdate.imports?, List.filterMap_cons,
        Function.comp_def, List.flatMap_map]
    · intro update h
      rcases List.mem_append.mp h with h | h
      · exact (hmem update h).1
      · rcases List.mem_append.mp h with h | h
        · obtain ⟨err, -, rfl⟩ := List.mem_map.mp h
          rfl
        · rw [List.mem_singleton.mp h]
          rfl

/-! ## Why an effect is an error -/

/-- An effect of an eager scope of the module is reported as the error, over the verdicts. -/
inductive EagerError (info : ProjectInfo) (safety : Verdicts) (modName scope : ModuleName)
    (eff : Effect) : SafetyError → Prop
  /-- The effect is an error by itself. -/
  | own {err : SafetyError} : SafetyError.fromEffect eff = some err →
      EagerError info safety modName scope eff err
  | assignment : eff.kind = .importedVarMutation →
      EagerError info safety modName scope eff
        (SafetyError.newFromEffect .importedModuleAssignment eff)
  /-- A callee is unknown. -/
  | unknownCallee {callee : ModuleName} {err : SafetyError} : info.isChecked eff = true →
      callee ∈ info.dispatchCallees eff → info.resolves safety callee = false →
      checkUnknownCall (scopeCall modName scope eff) = .ok err →
      EagerError info safety modName scope eff err
  /-- A body mutates a parameter that an imported object is passed to. -/
  | importedArgument {callee : ModuleName} {call : Call} : info.isChecked eff = true →
      callee ∈ info.dispatchCallees eff → info.resolves safety callee = true →
      declaredSafe callee = false →
      call ∈ info.spawnedCalls { scopeCall modName scope eff with func := callee } →
      info.IsFunction call.func → info.callMutatesImportedArg call.effect = true →
      EagerError info safety modName scope eff
        (SafetyError.newFromEffect .importedVarArgument call.effect)
  /-- A body is unsafe to call. -/
  | unsafeCallee {callee : ModuleName} {err : SafetyError} : info.isChecked eff = true →
      callee ∈ info.dispatchCallees eff → info.resolves safety callee = true →
      info.callAnswer safety { scopeCall modName scope eff with func := callee } = false →
      SafetyError.fromUnsafeCall eff = some err →
      EagerError info safety modName scope eff
        (if info.namesCallee eff then { err with metadata := callee } else err)

theorem mem_bodyErrors {call : Call} {err : SafetyError} :
    err ∈ info.bodyErrors call ↔ info.IsFunction call.func ∧
      info.callMutatesImportedArg call.effect = true ∧
      err = SafetyError.newFromEffect .importedVarArgument call.effect := by
  unfold bodyErrors IsFunction
  split
  · next h =>
    obtain ⟨hfunc, hmut⟩ := Bool.and_eq_true_iff.mp h
    rw [List.mem_singleton]
    exact ⟨fun heq => ⟨hfunc, hmut, heq⟩, fun h => h.2.2⟩
  · next h =>
    refine ⟨fun h => absurd h List.not_mem_nil, fun h' => absurd ?_ h⟩
    rw [h'.1, h'.2.1]
    rfl

/-- The errors of a callee. -/
theorem mem_calleeErrors {callee : ModuleName} {err : SafetyError}
    (hchecked : info.isChecked eff = true) (hcallee : callee ∈ info.dispatchCallees eff)
    (h : err ∈ info.calleeErrors safety (info.namesCallee eff)
      { scopeCall modName scope eff with func := callee }) :
    info.EagerError safety modName scope eff err := by
  unfold calleeErrors at h
  split at h
  · next hres =>
    rcases List.mem_append.mp h with h | h
    · unfold callErrors at h
      split at h
      · cases h
      · next hsafe =>
        obtain ⟨call, hcall, h⟩ := List.mem_flatMap.mp h
        obtain ⟨hfunc, hmut, rfl⟩ := mem_bodyErrors.mp h
        exact .importedArgument hchecked hcallee hres (Bool.eq_false_iff.mpr hsafe) hcall hfunc hmut
    · split at h
      · cases h
      · next hans =>
        obtain ⟨unsafeErr, hunsafe, rfl⟩ := List.mem_map.mp h
        exact .unsafeCallee hchecked hcallee hres (Bool.eq_false_iff.mpr hans)
          (Option.mem_toList.mp hunsafe)
  · next hres =>
    split at h
    · next err' hunknown =>
      rw [List.mem_singleton.mp h]
      exact .unknownCallee hchecked hcallee (Bool.eq_false_iff.mpr hres) hunknown
    · cases h

/-- What an effect whose evaluation ends adds are its errors. -/
theorem addError_mem_effectUpdates {err : SafetyError}
    (hok : (info.effectAnswer safety modName scope eff).isOk = true) :
    .addError err ∈ info.effectUpdates safety mode modName scope eff ↔
      info.EagerError safety modName scope eff err := by
  have hran : info.isChecked eff = true → ran (fun callee => info.calleeAnswer safety
      { scopeCall modName scope eff with func := callee }) (info.dispatchCallees eff) =
        info.dispatchCallees eff := fun hchecked => by
    rw [effectAnswer, if_pos hchecked] at hok
    exact ran_of_ok hok
  unfold effectUpdates
  simp only [List.mem_append, List.mem_map, Option.mem_toList]
  constructor
  · rintro ((((⟨err', herr, heq⟩ | ⟨candidate, -, heq⟩) | h) | h) | h)
    · cases heq
      exact .own herr
    · cases heq
    · split at h
      · next hchecked =>
        obtain ⟨err', herr, heq⟩ := List.mem_map.mp h
        cases heq
        rw [scopeCallErrors, hran hchecked] at herr
        obtain ⟨callee, hcallee, herr⟩ := List.mem_flatMap.mp herr
        exact mem_calleeErrors hchecked hcallee herr
      · cases h
    · split at h
      · cases List.mem_singleton.mp h
      · cases h
    · split at h
      · next hkind =>
        cases List.mem_singleton.mp h
        exact .assignment hkind
      · cases h
  · -- a callee's error is among those of the call
    have hcall : ∀ callee ∈ info.dispatchCallees eff, info.isChecked eff = true →
        ∀ err ∈ info.calleeErrors safety (info.namesCallee eff)
          { scopeCall modName scope eff with func := callee },
        ModuleUpdate.addError err ∈ (if info.isChecked eff then
          (info.scopeCallErrors safety modName scope eff).map ModuleUpdate.addError else []) := by
      intro callee hcallee hchecked err herr
      rw [if_pos hchecked, scopeCallErrors, hran hchecked]
      exact List.mem_map.mpr ⟨err, List.mem_flatMap.mpr ⟨callee, hcallee, herr⟩, rfl⟩
    intro h
    cases h with
    | own herr => exact Or.inl (Or.inl (Or.inl (Or.inl ⟨err, herr, rfl⟩)))
    | assignment hkind =>
      refine Or.inr ?_
      rw [if_pos hkind]
      exact List.mem_singleton.mpr rfl
    | @unknownCallee callee _ hchecked hcallee hres hunknown =>
      refine Or.inl (Or.inl (Or.inr (hcall callee hcallee hchecked err ?_)))
      rw [calleeErrors, if_neg (by rw [hres]; exact Bool.false_ne_true)]
      have hsame : checkUnknownCall { scopeCall modName scope eff with func := callee } = .ok err :=
        hunknown
      rw [hsame]
      exact List.mem_singleton.mpr rfl
    | @importedArgument callee call hchecked hcallee hres hsafe hspawn hfunc hmut =>
      refine Or.inl (Or.inl (Or.inr (hcall callee hcallee hchecked _ ?_)))
      rw [calleeErrors, if_pos hres]
      refine List.mem_append_left _ ?_
      rw [callErrors, if_neg (by rw [hsafe]; exact Bool.false_ne_true)]
      exact List.mem_flatMap.mpr ⟨call, hspawn, mem_bodyErrors.mpr ⟨hfunc, hmut, rfl⟩⟩
    | @unsafeCallee callee unsafeErr hchecked hcallee hres hans hunsafe =>
      refine Or.inl (Or.inl (Or.inr (hcall callee hcallee hchecked _ ?_)))
      rw [calleeErrors, if_pos hres]
      refine List.mem_append_right _ ?_
      rw [if_neg (by rw [hans]; exact Bool.false_ne_true)]
      exact List.mem_map.mpr ⟨unsafeErr, Option.mem_toList.mpr hunsafe, rfl⟩

/-- The errors of an evaluated record are those of the effects of the eager scopes. -/
theorem mem_errors_evaluatedRecord (hget : input.analysisMap.get? modName = some result)
    (hok : info.AllEvaluated safety modName result) {err : SafetyError} :
    err ∈ (info.evaluatedRecord orders safety mode modName result).errors ↔
      ∃ scope ∈ result.definitions.eagerScopes, ∃ eff ∈ info.effectsOf scope,
        info.EagerError safety modName scope eff err := by
  have herror : ∀ update : ModuleUpdate, update.error? = some err ↔ update = .addError err := by
    intro update
    cases update <;> simp [ModuleUpdate.error?]
  rw [evaluatedRecord]
  simp only [List.mem_filterMap, herror, exists_eq_right, eagerUpdates, List.mem_flatMap,
    orders.mem_eagerScopes modName result hget]
  refine exists_congr fun scope => and_congr_right fun hscope => exists_congr fun eff =>
    and_congr_right fun heff => ?_
  exact addError_mem_effectUpdates (hok scope hscope eff heff)

/-! ## Where the evaluation ends -/

/-- The call of an eager scope meets a callee that does not resolve, in an effect that such a
callee is no known error of. -/
def Unreportable (info : ProjectInfo) (safety : Verdicts) (eff : Effect) : Prop :=
  info.isChecked eff = true ∧ (eff.kind = .classCreation ∨ eff.kind = .importedTypeAttr) ∧
    ∃ callee ∈ info.dispatchCallees eff, info.resolves safety callee = false

/-- A dispatch above a class only finds callables. -/
theorem containsCallable_of_resolveDispatchAbove {name callee : ModuleName}
    (h : info.resolveDispatchAbove name = some callee) : info.containsCallable callee = true := by
  obtain ⟨p, -, hinherited⟩ := Option.bind_eq_some_iff.mp h
  rw [resolveInherited] at hinherited
  split at hinherited
  · cases hinherited
  · exact List.find?_some hinherited

/-- Every kind of effect that is checked can be unsafe. -/
theorem fromUnsafeCall_isSome (h : info.isChecked eff = true) :
    (SafetyError.fromUnsafeCall eff).isSome = true := by
  unfold isChecked at h
  unfold SafetyError.fromUnsafeCall
  cases hkind : eff.kind <;> rw [hkind] at h <;> first | rfl | cases h

/-- A callee ends the evaluation only where it is unknown to a call that has no error for it. -/
theorem isOk_calleeAnswer {callee : ModuleName} (hchecked : info.isChecked eff = true) :
    (info.calleeAnswer safety { scopeCall modName scope eff with func := callee }).isOk = false ↔
      info.resolves safety callee = false ∧
        (eff.kind = .classCreation ∨ eff.kind = .superMethodCall ∨
          eff.kind = .importedTypeAttr) := by
  have hunsafe := fromUnsafeCall_isSome hchecked
  have hunknown : (checkUnknownCall { scopeCall modName scope eff with func := callee }).isOk =
      false ↔ eff.kind = .classCreation ∨ eff.kind = .superMethodCall ∨
        eff.kind = .importedTypeAttr := by
    unfold isChecked at hchecked
    unfold checkUnknownCall scopeCall
    dsimp only
    cases hkind : eff.kind <;> rw [hkind] at hchecked <;>
      simp_all [Except.isOk, Except.toBool, EffectKind.isRunnable]
  unfold calleeAnswer
  cases hres : info.resolves safety callee with
  | true =>
    rw [if_pos rfl]
    refine ⟨fun h => ?_, fun h => absurd h.1 (by simp)⟩
    split at h
    · cases h
    · split at h
      · cases h
      · next hnone => exact absurd hunsafe hnone
  | false =>
    rw [if_neg Bool.false_ne_true, ← hunknown]
    simp only [true_and]
    rcases checkUnknownCall { scopeCall modName scope eff with func := callee } with e | err <;> rfl

/-- An effect whose evaluation does not end. -/
theorem isOk_effectAnswer :
    (info.effectAnswer safety modName scope eff).isOk = false ↔ info.Unreportable safety eff := by
  unfold effectAnswer Unreportable
  cases hchecked : info.isChecked eff with
  | false =>
    rw [if_neg Bool.false_ne_true]
    exact ⟨fun h => absurd h (by simp [Except.isOk, Except.toBool]), fun h => absurd h.1 (by simp)⟩
  | true =>
    rw [if_pos rfl, scopeCallAnswer, ← Bool.not_eq_true, isOk_answerAll]
    push Not
    simp only [Bool.not_eq_true, isOk_calleeAnswer hchecked, true_and]
    constructor
    · rintro ⟨callee, hcallee, hres, hkind | hkind | hkind⟩
      · exact ⟨Or.inl hkind, callee, hcallee, hres⟩
      · -- a dispatch above a class resolves
        rw [dispatchCallees, hkind, Option.mem_toList] at hcallee
        rw [resolves, containsCallable_of_resolveDispatchAbove hcallee] at hres
        cases hres
      · exact ⟨Or.inr hkind, callee, hcallee, hres⟩
    · rintro ⟨hkind, callee, hcallee, hres⟩
      exact ⟨callee, hcallee, hres, hkind.imp_right Or.inr⟩

/-- The evaluation of a module ends unless an effect cannot be reported. -/
theorem not_allEvaluated :
    ¬info.AllEvaluated safety modName result ↔ ∃ scope ∈ result.definitions.eagerScopes,
      ∃ eff ∈ info.effectsOf scope, info.Unreportable safety eff := by
  unfold AllEvaluated
  push Not
  simp only [Bool.not_eq_true, isOk_effectAnswer]

/-! ## What a run leaves -/

/-- The overrides of a module are of the kinds the record takes. -/
theorem requires_of_mem_eagerOverrides {effects : List (List Effect)} {err : SafetyError}
    (h : err ∈ eagerOverrides effects result) : err.kind.requiresEagerLoadingImports = true := by
  rcases List.mem_append.mp h with h | h
  · obtain ⟨eff, -, h⟩ := List.mem_flatMap.mp h
    unfold overridesOf at h
    split at h
    · split at h
      · next hkind =>
        rw [List.mem_singleton.mp h]
        exact hkind
      · cases h
    · cases h
  · obtain ⟨onlyInStub, -, rfl⟩ := Option.map_eq_some_iff.mp (Option.mem_toList.mp h)
    rfl

variable {st : AnalysisState} {log : List (ModuleName × ModuleUpdate)}

/-- However the workers run over complete verdicts, the record of a module is an analysis error
exactly where an effect of its eager scopes cannot be reported; elsewhere its errors are those of
the effects of its eager scopes, and its overrides are all of the kinds that the record asserts. -/
theorem pass_record (hcomplete : info.Complete st.safety) (hrun : info.PassRun orders mode st log)
    (hget : input.analysisMap.get? modName = some result) :
    ((∃ message, (passSafetyMap input log).get? modName = some (.analysisError message)) ↔
      ∃ scope ∈ result.definitions.eagerScopes, ∃ eff ∈ info.effectsOf scope,
        info.Unreportable st.safety eff) ∧
      ∀ record, (passSafetyMap input log).get? modName = some (.ok record) →
        (∀ err, err ∈ record.errors ↔ ∃ scope ∈ result.definitions.eagerScopes,
          ∃ eff ∈ info.effectsOf scope, info.EagerError st.safety modName scope eff err) ∧
        ∀ err ∈ record.forceImportsEagerOverrides,
          err.kind.requiresEagerLoadingImports = true := by
  rw [record_eq hcomplete hrun, hget, Option.bind_some, ← not_allEvaluated]
  by_cases hok : info.AllEvaluated st.safety modName result
  · rw [moduleRecord_of_ok hget hok]
    refine ⟨⟨fun ⟨message, h⟩ => (nomatch h), fun h => absurd hok h⟩, fun record h => ?_⟩
    cases h
    exact ⟨fun err => mem_errors_evaluatedRecord hget hok,
      fun err herr => requires_of_mem_eagerOverrides herr⟩
  · have hfail : ∃ message, info.moduleRecord orders st.safety mode modName result =
        some (.analysisError message) := moduleRecord_of_error hget hok
    obtain ⟨message, hmessage⟩ := hfail
    rw [hmessage]
    exact ⟨⟨fun _ => hok, fun _ => ⟨message, rfl⟩⟩, fun record h => nomatch h⟩

/-! ## The order of the work -/

/-- Records that hold the same, in whatever order. -/
inductive SameRecord : SafetyResult → SafetyResult → Prop
  | ok {a b : ModuleSafety} : a.errors.Perm b.errors →
      a.propertyCandidates.Perm b.propertyCandidates →
      a.subclassCandidates.Perm b.subclassCandidates →
      a.forceImportsEagerOverrides.Perm b.forceImportsEagerOverrides →
      a.implicitImports.Perm b.implicitImports → SameRecord (.ok a) (.ok b)
  | analysisError (message message' : Str) :
      SameRecord (.analysisError message) (.analysisError message')

/-- The eager scopes of a module, in two orders. -/
theorem perm_eagerScopes (orders orders' : PassOrders input)
    (hget : input.analysisMap.get? modName = some result) :
    (orders.eagerScopes modName).Perm (orders'.eagerScopes modName) :=
  (List.perm_ext_iff_of_nodup (orders.nodup_eagerScopes modName)
    (orders'.nodup_eagerScopes modName)).mpr fun scope => by
      rw [orders.mem_eagerScopes modName result hget, orders'.mem_eagerScopes modName result hget]

/-- Whatever the orders of the hash sets, the record holds the same. -/
theorem sameRecord_evaluatedRecord (orders orders' : PassOrders input)
    (hget : input.analysisMap.get? modName = some result) :
    SameRecord (.ok (info.evaluatedRecord orders safety mode modName result))
      (.ok (info.evaluatedRecord orders' safety mode modName result)) := by
  have hupdates : (info.eagerUpdates safety mode modName (orders.eagerScopes modName)).Perm
      (info.eagerUpdates safety mode modName (orders'.eagerScopes modName)) :=
    (perm_eagerScopes orders orders' hget).flatMap_right _
  have heffects : (orders.effects modName).flatten.Perm (orders'.effects modName).flatten :=
    ((orders.perm_effects modName result hget).trans
      (orders'.perm_effects modName result hget).symm).flatten
  refine .ok (hupdates.filterMap _) (hupdates.filterMap _) (hupdates.filterMap _) ?_ ?_
  · exact (heffects.flatMap_right _).append_right _
  · refine (List.perm_ext_iff_of_nodup (orders.nodup_implicitImports modName)
      (orders'.nodup_implicitImports modName)).mpr fun x => ?_
    rw [orders.mem_implicitImports, orders'.mem_implicitImports]

/-- Two runs over the same complete verdicts leave the same records, whatever the orders of the
hash sets and however the workers run. -/
theorem pass_order_free {st st' : AnalysisState} {orders orders' : PassOrders input}
    {log log' : List (ModuleName × ModuleUpdate)} (hcomplete : info.Complete st.safety)
    (hsame : ∀ n, st'.safety n = st.safety n) (hrun : info.PassRun orders mode st log)
    (hrun' : info.PassRun orders' mode st' log') (modName : ModuleName) :
    Option.Rel SameRecord ((passSafetyMap input log).get? modName)
      ((passSafetyMap input log').get? modName) := by
  have hverdicts : st'.safety = st.safety := funext hsame
  have hcomplete' : info.Complete st'.safety := by rw [hverdicts]; exact hcomplete
  rw [record_eq hcomplete hrun, record_eq hcomplete' hrun', hverdicts]
  cases hget : input.analysisMap.get? modName with
  | none => exact .none
  | some result =>
    simp only [Option.bind_some]
    by_cases hok : info.AllEvaluated st.safety modName result
    · rw [moduleRecord_of_ok hget hok, moduleRecord_of_ok hget hok]
      exact .some (sameRecord_evaluatedRecord orders orders' hget)
    · obtain ⟨message, hmessage⟩ : ∃ message, info.moduleRecord orders st.safety mode modName
          result = some (.analysisError message) := moduleRecord_of_error hget hok
      obtain ⟨message', hmessage'⟩ : ∃ message, info.moduleRecord orders' st.safety mode modName
          result = some (.analysisError message) := moduleRecord_of_error hget hok
      rw [hmessage, hmessage']
      exact .some (.analysisError message message')

/-! ## A module that calls a function which raises -/

/-- A project where the module `app` calls `lib.f`, and `lib.f` does nothing but the given
effects. Beside it stands `lib.g`, which does nothing at all. -/
def importedCallee (effects : List Effect) : ProjectInfo where
  effectTable := Table.ofList
    [(fromStr "app", [{ kind := .importedFunctionCall, name := fromStr "lib.f" }]),
      (fromStr "lib.f", effects)]
  functions := Table.ofList
    [(fromStr "lib.f", fromStr "lib"), (fromStr "lib.g", fromStr "lib")]

/-- The analyses of its two modules. -/
def importedCalleeInput : PassInput where
  analysisMap := Table.ofList
    [(fromStr "app", { definitions := { eagerScopes := {fromStr "app"} } }),
      (fromStr "lib", { definitions := { eagerScopes := {fromStr "lib"} } })]

/-- The effect of a `raise` statement. -/
def raiseEffect : Effect where
  kind := .raise
  name := fromStr "raise"

/-- The verdicts that its precompute leaves. -/
def importedCalleeVerdicts (effects : List Effect) : AnalysisState :=
  (importedCallee effects).precompute (importedCallee effects).levels

/-- After every precompute the verdicts are complete. -/
theorem complete_precompute {order : List (List Nat)} (h : info.Schedule order) :
    info.Complete (info.precompute order).safety := fun _ hfunc =>
  isSome_safety_precompute h (isNode_of_function hfunc)

theorem schedule_levels (info : ProjectInfo) : info.Schedule info.levels :=
  List.forall₂_same.mpr fun _ _ => List.Perm.refl _

/-- The workers of the two modules, one after the other. -/
theorem passRun_importedCallee (effects : List Effect) (orders : PassOrders importedCalleeInput)
    {modules : List ModuleName} (h : modules.Perm [fromStr "app", fromStr "lib"]) :
    (importedCallee effects).PassRun orders .incremental (importedCalleeVerdicts effects)
      ((importedCallee effects).collectErrorsFromModules orders .incremental modules
        { analysis := importedCalleeVerdicts effects }).updates := by
  refine passRun_collectErrorsFromModules (complete_precompute (schedule_levels _))
    (h.nodup_iff.mpr (by decide)) fun m result hget => h.mem_iff.mpr ?_
  have hkey := Table.mem_keys.mpr (Option.isSome_iff_exists.mpr ⟨result, hget⟩)
  exact hkey

/-- The call of `app` is reported. -/
theorem pass_record_importedCallee :
    ∃ record,
      (passSafetyMap importedCalleeInput
          ((importedCallee [raiseEffect]).collectErrorsFromModules (.listed importedCalleeInput)
            .incremental [fromStr "app", fromStr "lib"]
            { analysis := importedCalleeVerdicts [raiseEffect] }).updates).get? (fromStr "app") =
        some (.ok record) ∧
      ∃ err ∈ record.errors, err.kind = .unsafeFunctionCall := by
  have hcomplete : (importedCallee [raiseEffect]).Complete
      (importedCalleeVerdicts [raiseEffect]).safety := complete_precompute (schedule_levels _)
  have hrun := passRun_importedCallee [raiseEffect] (.listed importedCalleeInput)
    (List.Perm.refl _)
  have hget : importedCalleeInput.analysisMap.get? (fromStr "app") =
      some { definitions := { eagerScopes := {fromStr "app"} } } := rfl
  have hspec := pass_record hcomplete hrun hget
  have hentry := record_eq hcomplete hrun (fromStr "app")
  rw [hget, Option.bind_some] at hentry
  by_cases hok : (importedCallee [raiseEffect]).AllEvaluated
      (importedCalleeVerdicts [raiseEffect]).safety (fromStr "app")
      { definitions := { eagerScopes := {fromStr "app"} } }
  · rw [moduleRecord_of_ok hget hok] at hentry
    refine ⟨_, hentry, ?_⟩
    exact ⟨_, ((hspec.2 _ hentry).1 _).mpr ⟨fromStr "app", by decide +kernel,
      { kind := .importedFunctionCall, name := fromStr "lib.f" }, by decide +kernel,
      .unsafeCallee (by decide +kernel) (by decide +kernel : fromStr "lib.f" ∈ _)
        (by decide +kernel) (by decide +kernel) rfl⟩, rfl⟩
  · -- the one effect of the module can be reported
    obtain ⟨message, hmessage⟩ := moduleRecord_of_error hget hok
    obtain ⟨scope, hscope, eff, heff, -, hkind, -⟩ := hspec.1.mp ⟨message, hentry.trans hmessage⟩
    cases Finset.mem_singleton.mp hscope
    cases List.mem_singleton.mp heff
    rcases hkind with hkind | hkind
    · cases hkind
    · cases hkind

/-- The workers of `app` and `lib` in either order. -/
theorem pass_order_free_importedCallee :
    Option.Rel SameRecord
      ((passSafetyMap importedCalleeInput
          ((importedCallee [raiseEffect]).collectErrorsFromModules (.listed importedCalleeInput)
            .incremental [fromStr "app", fromStr "lib"]
            { analysis := importedCalleeVerdicts [raiseEffect] }).updates).get? (fromStr "app"))
      ((passSafetyMap importedCalleeInput
          ((importedCallee [raiseEffect]).collectErrorsFromModules (.listed importedCalleeInput)
            .incremental [fromStr "lib", fromStr "app"]
            { analysis := importedCalleeVerdicts [raiseEffect] }).updates).get? (fromStr "app")) :=
  pass_order_free (complete_precompute (schedule_levels _)) (fun _ => rfl)
    (passRun_importedCallee [raiseEffect] _ (List.Perm.refl _))
    (passRun_importedCallee [raiseEffect] _ (List.Perm.swap _ _ _)) _

end ProjectInfo

end Lifeguard
