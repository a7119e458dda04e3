import Lifeguard.CandidateOrder
import Lifeguard.Reduce

/-!
# The errors a reduce leaves

Where an error of a resolved cache comes from. A record's own errors pass two clearings, one
while its imports are resolved and one over the settled verdicts; in between the module-scope
mutation candidates and the walked bases add errors, and after them the properties do.

- `NewlyResolved`: what the ambiguous and missing imports of a record resolve to, which is
  what the clearings are scoped to (`resolved_resolveImports`);
- `safety_settle`: the errors of a settled module as one list;
- `mem_errors_resolve`: each is a recorded one that no clearing takes, or one that a
  candidate of the module is reported as.
-/

namespace Lifeguard

open Lib

/-! ## What imports newly resolve to -/

/-- The module is what an ambiguous or a missing import of the record resolves to. -/
def NewlyResolved (names : Finset ModuleName) (m : CachedModule) (n : ModuleName) : Prop :=
  ∃ t, (t ∈ m.ambiguousImports ∨ t ∈ m.missingImports) ∧ LongestMerged names t n

theorem mem_drain_resolved {moduleNames : Finset ModuleName} {source n : ModuleName}
    {names : List ModuleName} {st : Resolving} :
    n ∈ (names.foldl (Resolving.drain moduleNames source) st).resolved ↔
      n ∈ st.resolved ∨ ∃ t ∈ names, LongestMerged moduleNames t n := by
  induction names generalizing st with
  | nil => simp
  | cons name names ih =>
    rw [List.foldl_cons, ih, List.exists_mem_cons_iff, ← or_assoc]
    refine or_congr_left ?_
    rw [← resolveToKnownModule_eq_some]
    unfold Resolving.drain resolveAndAddImportEdge
    cases resolveToKnownModule name fun m => decide (m ∈ moduleNames) with
    | none => simp
    | some resolved =>
      dsimp only
      rw [Finset.mem_insert, Option.some.injEq, or_comm, eq_comm]

theorem mem_resolveAmbiguousImports {names : Finset ModuleName} {m : CachedModule}
    {n : ModuleName} :
    n ∈ (m.resolveAmbiguousImports names).1 ↔
      ∃ t ∈ m.ambiguousImports, LongestMerged names t n := by
  refine mem_drain_resolved.trans ?_
  simp only [mem_elems]
  exact or_iff_right (Finset.notMem_empty n)

/-- What the pass answers of a record: nothing, when there was nothing to resolve, and
otherwise what its imports newly resolved to. -/
theorem resolved_resolveMissingImports (names fromAmbiguous : Finset ModuleName)
    (m : CachedModule) :
    ((m.resolveMissingImports names fromAmbiguous).1 = none ↔
      m.missingImports = ∅ ∧ fromAmbiguous = ∅) ∧
    ∀ resolved, (m.resolveMissingImports names fromAmbiguous).1 = some resolved → ∀ n,
      n ∈ resolved ↔ n ∈ fromAmbiguous ∨ ∃ t ∈ m.missingImports, LongestMerged names t n := by
  rw [CachedModule.resolveMissingImports]
  split
  · next hnothing => exact ⟨iff_of_true rfl hnothing, fun _ h => absurd h (by simp)⟩
  · next hsome =>
    refine ⟨iff_of_false (by simp) hsome, fun resolved h n => ?_⟩
    cases h
    refine mem_drain_resolved.trans ?_
    simp only [mem_elems]

namespace MergedFacts

variable (facts : MergedFacts) (m : CachedModule)

/-- What the imports of a module newly resolve to. -/
def newlyResolved : Option (Finset ModuleName) := (facts.resolveImports m).1

/-- The clearings are scoped to what the module's imports newly resolve to, and there is none
when it has no missing import and no ambiguous one resolves. -/
theorem resolved_resolveImports :
    (facts.newlyResolved m = none ↔
      m.missingImports = ∅ ∧ ∀ n, ¬NewlyResolved facts.moduleNames m n) ∧
    ∀ resolved, facts.newlyResolved m = some resolved →
      ∀ n, n ∈ resolved ↔ NewlyResolved facts.moduleNames m n := by
  obtain ⟨hnone, hsome⟩ := resolved_resolveMissingImports facts.moduleNames
    (m.resolveAmbiguousImports facts.moduleNames).1
    ((m.resolveAmbiguousImports facts.moduleNames).2.takeFunctionSafety.mapSafety
      dedupeImplicitImports)
  refine ⟨hnone.trans (and_congr_right fun hmissing => ?_), fun resolved h n => ?_⟩
  · replace hmissing : m.missingImports = ∅ := hmissing
    rw [Finset.eq_empty_iff_forall_notMem]
    refine forall_congr' fun n => not_congr (mem_resolveAmbiguousImports.trans ?_)
    simp [NewlyResolved, hmissing]
  · refine (hsome resolved h n).trans ?_
    rw [mem_resolveAmbiguousImports]
    simp only [NewlyResolved, or_and_right, exists_or]
    exact Iff.rfl

/-- The first clearing takes the error. -/
def clearsEarly (error : SafetyError) : Bool :=
  (facts.newlyResolved m).any fun resolved =>
    (facts.importResolver resolved).clears m.name error

/-- What the resolution of a module's imports does to what is known of its errors. -/
def clearEarly (safety : CachedModuleSafety) : CachedModuleSafety :=
  retainUnverifiedErrors (facts.clearsEarly m) (dedupeImplicitImports safety)

/-- Only the edges of a record, its verdicts and its safety change while its imports are
resolved. -/
theorem resolveImports_snd :
    ∃ imports missingImports, (facts.resolveImports m).2 =
      { m.mapSafety (facts.clearEarly m) with
        imports, missingImports
        ambiguousImports := ∅
        functionSafety := Table.empty } := by
  have hnewly : facts.newlyResolved m = ((CachedModule.resolveMissingImports facts.moduleNames
      (m.resolveAmbiguousImports facts.moduleNames).1
      ((m.resolveAmbiguousImports facts.moduleNames).2.takeFunctionSafety.mapSafety
        dedupeImplicitImports))).1 := rfl
  have hedit : ∀ (m' : CachedModule) names fromAmbiguous, ∃ imports missingImports,
      (m'.resolveMissingImports names fromAmbiguous).2 = { m' with imports, missingImports } := by
    intro m' names fromAmbiguous
    rw [CachedModule.resolveMissingImports]
    split
    · exact ⟨m'.imports, m'.missingImports, rfl⟩
    · exact ⟨_, _, rfl⟩
  obtain ⟨imports, missingImports, heq⟩ := hedit
    ((m.resolveAmbiguousImports facts.moduleNames).2.takeFunctionSafety.mapSafety
      dedupeImplicitImports) facts.moduleNames (m.resolveAmbiguousImports facts.moduleNames).1
  refine ⟨imports, missingImports, ?_⟩
  rw [resolveImports, resolveMissing]
  dsimp only
  rw [← hnewly, heq]
  cases hresolved : facts.newlyResolved m with
  | none =>
    have hkeep : facts.clearEarly m = dedupeImplicitImports := by
      funext safety
      have hall : ∀ e, facts.clearsEarly m e = false := fun e => by
        rw [clearsEarly, hresolved]; rfl
      simp [clearEarly, retainUnverifiedErrors, hall]
    rw [hkeep]
    rfl
  | some resolved =>
    have hclears : facts.clearsEarly m = (facts.importResolver resolved).clears m.name := by
      funext e
      rw [clearsEarly, hresolved]
      rfl
    have hname : (CachedModule.takeFunctionSafety
        (m.resolveAmbiguousImports facts.moduleNames).2).name = m.name := rfl
    dsimp only
    rw [hname, ← hclears]
    unfold CachedModule.mapSafety CachedModule.takeFunctionSafety
    have hsafety : (m.resolveAmbiguousImports facts.moduleNames).2.safety = m.safety := rfl
    rw [hsafety]
    cases m.safety <;> rfl

end MergedFacts

/-! ## The errors of a settled module -/

theorem WalkedBases.registrationErrors_of_entries_nil {walked : WalkedBases}
    (h : walked.entries = []) (m : ModuleName) (candidates : List SubclassCandidate)
    (classBases : ClassBases) (imports : ModuleName → ModuleName → Bool) :
    walked.registrationErrors m candidates classBases imports = [] := by
  rw [WalkedBases.registrationErrors, List.map_eq_nil_iff, List.filter_eq_nil_iff]
  intro candidate _ hinherits
  obtain ⟨base, -, hwalked⟩ := inheritsFrom_iff.mp hinherits
  obtain ⟨walker, hwalker, -⟩ := walkedElsewhere_iff.mp hwalked
  rw [setAt_of_entries_nil h] at hwalker
  exact Finset.notMem_empty walker hwalker

namespace SharedFacts

variable (shared : SharedFacts) (m : CachedModule)

/-- The second clearing takes the error. -/
def clearsLate (error : SafetyError) : Bool :=
  shared.settled.clears shared.outcome (shared.facts.newlyResolved m) m.name error

/-- What the walked bases make of the module's subclass candidates. -/
def registrations : List SafetyError :=
  shared.walked.registrationErrors m.name m.subclassCandidates shared.facts.classBases
    fun walker imported =>
      (shared.walkerImports.get? walker).any fun imports => decide (imported ∈ imports)

/-- The errors that pass both clearings or come after them. -/
def settledErrors (errors : List SafetyError) : List SafetyError :=
  ((errors.filter (fun e => !e.kind.couldBeCausedByMissingImport ||
        !shared.facts.clearsEarly m e) ++
      moduleScopeErrorsOf shared.outcome.moduleScopeErrors m.name ++
      shared.registrations m).filter fun e =>
        !e.kind.couldBeCausedByMissingImport || !shared.clearsLate m e) ++
    m.propertyCandidates.filterMap shared.properties.candidateError

/-- What is known of the errors of a settled module. -/
def settleSafety (safety : CachedModuleSafety) : CachedModuleSafety where
  errors := shared.settledErrors m safety.errors
  forceImportsEagerOverrides := safety.forceImportsEagerOverrides
  implicitImports := extendDeduped [] safety.implicitImports

variable {shared m}

/-- A module that was analyzed is settled to these errors. -/
theorem safety_settle {safety : CachedModuleSafety} (h : m.safety = .ok safety) :
    (shared.settle m).safety = .ok (shared.settleSafety m safety) := by
  obtain ⟨imports, missingImports, heq⟩ := shared.facts.resolveImports_snd m
  have hregister : ∀ m' : CachedModule, ∀ s, m'.safety = .ok s →
      m'.name = m.name → m'.subclassCandidates = m.subclassCandidates →
      (shared.register m').safety = .ok { s with errors := s.errors ++ shared.registrations m } ∧
        (shared.register m').propertyCandidates = m'.propertyCandidates := by
    intro m' s hs hname hcandidates
    rw [register]
    split
    · next hempty =>
      rw [registrations, WalkedBases.registrationErrors_of_entries_nil hempty, List.append_nil]
      exact ⟨hs, rfl⟩
    · rw [registerModule, hs, hname, hcandidates]
      exact ⟨rfl, rfl⟩
  have hproperties : ∀ m' : CachedModule, ∀ s, m'.safety = .ok s →
      m'.propertyCandidates = m.propertyCandidates →
      (shared.addProperties m').safety = .ok
        { s with
          errors := s.errors ++
            m.propertyCandidates.filterMap shared.properties.candidateError } := by
    intro m' s hs hcandidates
    rw [addProperties]
    split
    · next hempty =>
      have hnone : shared.properties.candidateError = fun _ => none :=
        funext fun _ => PropertyFacts.candidateError_of_isEmpty hempty
      rw [hnone, List.filterMap_none, List.append_nil]
      exact hs
    · rw [PropertyFacts.resolveModule, hs, hcandidates]
  have hmapped : ∀ (m' : CachedModule) s f, m'.safety = .ok s →
      (m'.mapSafety f).safety = .ok (f s) := by
    intro m' s f hs
    rw [CachedModule.mapSafety, hs]
  let added := ((shared.facts.resolveImports m).2.addModuleErrors
    shared.outcome.moduleScopeErrors)
  have hadded : added.safety = .ok
      { shared.facts.clearEarly m safety with
        errors := (shared.facts.clearEarly m safety).errors ++
          moduleScopeErrorsOf shared.outcome.moduleScopeErrors m.name } := by
    have hearly := hmapped m safety (shared.facts.clearEarly m) h
    show ((shared.facts.resolveImports m).2.mapSafety _).safety = _
    rw [shared.facts.name_resolveImports]
    refine hmapped _ _ _ ?_
    rw [heq]
    exact hearly
  have hfields : added.name = m.name ∧ added.subclassCandidates = m.subclassCandidates ∧
      added.propertyCandidates = m.propertyCandidates := by
    show (shared.facts.resolveImports m).2.name = _ ∧
      (shared.facts.resolveImports m).2.subclassCandidates = _ ∧
      (shared.facts.resolveImports m).2.propertyCandidates = _
    rw [heq]
    exact ⟨rfl, rfl, rfl⟩
  obtain ⟨hregistered, hkept⟩ := hregister added _ hadded hfields.1 hfields.2.1
  show (shared.addProperties _).safety = _
  refine (hproperties _ _ (hmapped _ _ _ hregistered) (hkept.trans hfields.2.2)).trans ?_
  rw [show (shared.register _).name = m.name from (shared.name_register _).trans hfields.1]
  rfl

/-- A module whose analysis failed stays so. -/
theorem safety_settle_of_error {message : Str} (h : m.safety = .analysisError message) :
    (shared.settle m).safety = .analysisError message := by
  obtain ⟨imports, missingImports, heq⟩ := shared.facts.resolveImports_snd m
  have hmapped : ∀ (m' : CachedModule) f, m'.safety = .analysisError message →
      (m'.mapSafety f).safety = .analysisError message := by
    intro m' f hs
    rw [CachedModule.mapSafety, hs]
  have hregister : ∀ m' : CachedModule, m'.safety = .analysisError message →
      (shared.register m').safety = .analysisError message := by
    intro m' hs
    rw [register]
    split
    · exact hs
    · rw [registerModule, hs]
  have hproperties : ∀ m' : CachedModule, m'.safety = .analysisError message →
      (shared.addProperties m').safety = .analysisError message := by
    intro m' hs
    rw [addProperties]
    split
    · exact hs
    · rw [PropertyFacts.resolveModule, hs]
  refine hproperties _ (hmapped _ _ (hregister _ (hmapped _ _ ?_)))
  rw [heq]
  exact hmapped m _ h

end SharedFacts

/-! ## Where an error comes from -/

/-- What a confirmed candidate at module scope is reported as. -/
def importedVarArgument (call : ModuleName) (range : TextRange) : SafetyError where
  kind := .importedVarArgument
  metadata := call
  range := range

theorem candidateError_eq_some {p : ModuleName × MutationCandidate} {e : ModuleScopeError} :
    candidateError p = some e ↔
      ∃ call, p.2.site = .moduleScope call ∧ e = ⟨p.1, call, p.2.range⟩ := by
  rw [candidateError]
  cases p.2.site with
  | moduleScope call => simp [eq_comm]
  | function name => simp

theorem mem_candidatePairs {modules : List (ModuleName × List MutationCandidate)}
    {m : ModuleName} {candidate : MutationCandidate} :
    (m, candidate) ∈ candidatePairs modules ↔
      ∃ candidates, (m, candidates) ∈ modules ∧ candidate ∈ candidates := by
  simp only [candidatePairs, List.mem_flatMap, List.mem_map, Prod.mk.injEq]
  constructor
  · rintro ⟨p, hp, c, hc, rfl, rfl⟩
    exact ⟨p.2, hp, hc⟩
  · rintro ⟨candidates, hp, hc⟩
    exact ⟨_, hp, candidate, hc, rfl, rfl⟩

/-- The errors reported for a module are those of its own confirmed candidates. -/
theorem mem_moduleScopeErrorsOf {modules : List CachedModule}
    (hnames : (moduleNames modules).Nodup) {m : CachedModule} (hm : m ∈ modules)
    {names : Finset ModuleName} {fs : FunctionSafetyMap} {e : SafetyError} :
    e ∈ moduleScopeErrorsOf (applyMutationCandidates
        (modules.map fun m => (m.name, m.mutationCandidates)) names fs).moduleScopeErrors
        m.name ↔
      ∃ candidate ∈ m.mutationCandidates, ∃ call, candidate.site = .moduleScope call ∧
        candidateMutates candidate ⟨names, fs⟩ = true ∧
        e = importedVarArgument call candidate.range := by
  have herrors : (applyMutationCandidates (modules.map fun m => (m.name, m.mutationCandidates))
      names fs).moduleScopeErrors =
        ((candidatePairs (modules.map fun m => (m.name, m.mutationCandidates))).filter
          fun p => candidateMutates p.2 ⟨names, fs⟩).filterMap candidateError := by
    show (confirmCandidates _ names fs).moduleScopeErrors = _
    rw [confirmCandidates, foldl_applyConfirmed]
    exact List.nil_append _
  rw [herrors, moduleScopeErrorsOf, List.mem_map]
  constructor
  · rintro ⟨error, herror, rfl⟩
    obtain ⟨hmem, hname⟩ := List.mem_filter.mp herror
    obtain ⟨⟨n, candidate⟩, hp, hsome⟩ := List.mem_filterMap.mp hmem
    obtain ⟨hpair, hmutates⟩ := List.mem_filter.mp hp
    obtain ⟨call, hsite, rfl⟩ := candidateError_eq_some.mp hsome
    obtain ⟨candidates, hin, hcandidate⟩ := mem_candidatePairs.mp hpair
    obtain ⟨m', hm', heq⟩ := List.mem_map.mp hin
    cases heq
    -- a module of the name is this one
    have hsame : m' = m := List.inj_on_of_nodup_map hnames hm' hm (of_decide_eq_true hname)
    subst hsame
    exact ⟨candidate, hcandidate, call, hsite, hmutates, rfl⟩
  · rintro ⟨candidate, hcandidate, call, hsite, hmutates, rfl⟩
    refine ⟨⟨m.name, call, candidate.range⟩, List.mem_filter.mpr ⟨?_, by simp⟩, rfl⟩
    refine List.mem_filterMap.mpr ⟨(m.name, candidate), List.mem_filter.mpr ⟨?_, hmutates⟩, ?_⟩
    · exact mem_candidatePairs.mpr ⟨_, List.mem_map_of_mem hm, hcandidate⟩
    · exact candidateError_eq_some.mpr ⟨call, hsite, rfl⟩

theorem kind_registrationError (candidate : SubclassCandidate) :
    (registrationError candidate).kind = .subclassRegistration := by
  rw [registrationError]
  cases candidate.fromMainGuard <;> rfl

/-- No registration is of a kind that is cleared. -/
theorem WalkedBases.kind_registrationErrors {walked : WalkedBases} {m : ModuleName}
    {candidates : List SubclassCandidate} {classBases : ClassBases}
    {imports : ModuleName → ModuleName → Bool} {e : SafetyError}
    (h : e ∈ walked.registrationErrors m candidates classBases imports) :
    e.kind = .subclassRegistration := by
  obtain ⟨candidate, -, rfl⟩ := List.mem_map.mp h
  exact kind_registrationError candidate

theorem mem_settledErrors {shared : SharedFacts} {m : CachedModule} {errors : List SafetyError}
    {e : SafetyError} :
    e ∈ shared.settledErrors m errors ↔
      (e ∈ errors ∧ ¬(e.kind.couldBeCausedByMissingImport = true ∧
        (shared.facts.clearsEarly m e = true ∨ shared.clearsLate m e = true))) ∨
      e ∈ moduleScopeErrorsOf shared.outcome.moduleScopeErrors m.name ∨
      e ∈ shared.registrations m ∨
      ∃ candidate ∈ m.propertyCandidates,
        shared.properties.candidateError candidate = some e := by
  have hkept : ∀ e, e ∈ moduleScopeErrorsOf shared.outcome.moduleScopeErrors m.name ∨
      e ∈ shared.registrations m → e.kind.couldBeCausedByMissingImport = false := by
    rintro e (hscope | hregistration)
    · obtain ⟨_, -, rfl⟩ := List.mem_map.mp hscope
      rfl
    · rw [WalkedBases.kind_registrationErrors hregistration]
      rfl
  rw [SharedFacts.settledErrors, List.mem_append, List.mem_filter, List.mem_append,
    List.mem_append, List.mem_filter, List.mem_filterMap, ← or_assoc, ← or_assoc]
  refine or_congr_left ?_
  simp only [Bool.or_eq_true, Bool.not_eq_true', ← Bool.not_eq_true, not_and_or, not_or]
  constructor
  · rintro ⟨((⟨he, hearly⟩ | hscope) | hregistration), hlate⟩
    · refine Or.inl (Or.inl ⟨he, ?_⟩)
      rcases hearly with hkind | hearly
      · exact Or.inl hkind
      · exact hlate.imp_right fun hlate => ⟨hearly, hlate⟩
    · exact Or.inl (Or.inr hscope)
    · exact Or.inr hregistration
  · rintro ((⟨he, hkind | ⟨hearly, hlate⟩⟩ | hscope) | hregistration)
    · exact ⟨Or.inl (Or.inl ⟨he, Or.inl hkind⟩), Or.inl hkind⟩
    · exact ⟨Or.inl (Or.inl ⟨he, Or.inr hearly⟩), Or.inr hlate⟩
    · exact ⟨Or.inl (Or.inr hscope),
        Or.inl (Bool.eq_false_iff.mp (hkept e (Or.inl hscope)))⟩
    · exact ⟨Or.inr hregistration,
        Or.inl (Bool.eq_false_iff.mp (hkept e (Or.inr hregistration)))⟩

/-! ## The errors of a resolved cache -/

namespace ReduceWorkspace

variable (w : ReduceWorkspace) (mainModule : Option ModuleName)

theorem facts_shared :
    (w.shared mainModule).facts = (w.entered mainModule).mergedFacts w.merged :=
  (LibraryCache.resolveImports_eq w.merged (w.names_entered mainModule)).1

/-- The unqualified names of the errors that the first clearing leaves. -/
def neededUnqualified : Finset Str :=
  unqualifiedErrorNames ((w.entered mainModule).resolveImports w.merged).2

/-- The mutation candidates of all the modules. -/
def candidates : List (ModuleName × List MutationCandidate) :=
  (w.entered mainModule).modules.map fun m => (m.name, m.mutationCandidates)

/-- The program is resolved over the candidates of the records. -/
theorem outcome_shared : (w.shared mainModule).outcome =
    resolveProgram (w.shared mainModule).facts.moduleNames
      (w.shared mainModule).facts.functionSafety (w.candidates mainModule)
      (w.neededUnqualified mainModule) .probeStr := by
  have hmodules := (LibraryCache.resolveImports_eq w.merged (w.names_entered mainModule)).2.1
  have hcandidates : (((w.entered mainModule).resolveImports w.merged).2.map fun m =>
      (m.name, m.mutationCandidates)) = w.candidates mainModule := by
    rw [hmodules, List.map_map]
    refine List.map_congr_left fun m _ => ?_
    obtain ⟨imports, missingImports, heq⟩ :=
      ((w.entered mainModule).mergedFacts w.merged).resolveImports_snd m
    rw [Function.comp_apply, heq]
    rfl
  show LibraryCache.resolveProgramOf _ _ = _
  rw [LibraryCache.resolveProgramOf, hcandidates]
  rfl

variable {w mainModule}

theorem mem_modules_resolve {final : CachedModule} :
    final ∈ (w.resolve mainModule).cache.modules ↔
      ∃ m ∈ (w.entered mainModule).modules, (w.shared mainModule).settle m = final := by
  rw [modules_resolve, List.mem_map]

/-- A settled module walks the bases its record walks. -/
theorem walks_settle {shared : SharedFacts} {m : CachedModule} {base : ModuleName} :
    (shared.settle m).Walks base ↔ m.Walks base := by
  rw [CachedModule.Walks, CachedModule.Walks]
  cases h : m.safety with
  | ok safety =>
    rw [SharedFacts.safety_settle h]
    simp [SharedFacts.settleSafety]
  | analysisError message =>
    rw [SharedFacts.safety_settle_of_error h]

/-- The errors of the candidates only come on top of what a record walks. -/
theorem walks_addModuleErrors {facts : MergedFacts} {emitted : List ModuleScopeError}
    {m : CachedModule} {base : ModuleName} :
    ((facts.resolveImports m).2.addModuleErrors emitted).Walks base ↔ m.Walks base := by
  obtain ⟨imports, missingImports, heq⟩ := facts.resolveImports_snd m
  rw [heq, CachedModule.addModuleErrors, CachedModule.Walks, CachedModule.Walks]
  unfold CachedModule.mapSafety
  cases m.safety with
  | ok safety => simp [MergedFacts.clearEarly, retainUnverifiedErrors, dedupeImplicitImports]
  | analysisError message => simp

/-- What the walked bases make of a module's candidates, read off the resolved cache. -/
theorem mem_registrations {m : CachedModule} {e : SafetyError} :
    e ∈ (w.shared mainModule).registrations m ↔ ∃ candidate ∈ m.subclassCandidates,
      Registers (BaseEdge (w.shared mainModule).facts.classBases)
        (CachedWalks (w.resolve mainModule).cache.modules)
        (CachedImports (w.resolve mainModule).cache.modules) m.name candidate.candidateClass ∧
      e = registrationError candidate := by
  let shared := w.shared mainModule
  let before : CachedModule → CachedModule := fun m =>
    (shared.facts.resolveImports m).2.addModuleErrors shared.outcome.moduleScopeErrors
  have hrecorded : recordModules ((w.entered mainModule).modules.map before) =
      (shared.walked, shared.walkerImports) := by
    have hbefore : ((w.entered mainModule).resolveImports w.merged).2.map
        (CachedModule.addModuleErrors shared.outcome.moduleScopeErrors) =
          (w.entered mainModule).modules.map before := by
      rw [(LibraryCache.resolveImports_eq w.merged (w.names_entered mainModule)).2.1,
        List.map_map, ← w.facts_shared mainModule]
      rfl
    rw [← hbefore]
    rfl
  have hname : ∀ m, (before m).name = m.name := shared.facts.name_resolveImports
  have hnames : (((w.entered mainModule).modules.map before).map CachedModule.name).Nodup := by
    rw [List.map_map, show CachedModule.name ∘ before = CachedModule.name from funext hname]
    exact w.names_entered mainModule
  have himports : ∀ m, (before m).imports = (shared.settle m).imports := fun m =>
    (shared.facts.edges_resolveImports m).1.trans (shared.edges_settle m).1.symm
  obtain ⟨hwalked, hwalker⟩ := recordModules_spec hnames
  rw [hrecorded] at hwalked hwalker
  have hwalks : ∀ walker base, walker ∈ shared.walked.setAt base ↔
      CachedWalks (w.resolve mainModule).cache.modules walker base := by
    intro walker base
    rw [hwalked, modules_resolve, CachedWalks, CachedWalks]
    simp only [List.mem_map, exists_exists_and_eq_and]
    refine exists_congr fun m => and_congr_right fun _ => ?_
    rw [hname, SharedFacts.name_settle, walks_addModuleErrors, walks_settle]
  have hedges : ∀ walker base n, walker ∈ shared.walked.setAt base →
      (((shared.walkerImports.get? walker).any fun imports => decide (n ∈ imports)) = true ↔
        CachedImports (w.resolve mainModule).cache.modules walker n) := by
    intro walker base n hwalk
    obtain ⟨m', hm', rfl, hwalk'⟩ := (hwalked walker base).mp hwalk
    obtain ⟨m, hm, rfl⟩ := List.mem_map.mp hm'
    rw [hwalker _ hm' ⟨base, _, hm', rfl, hwalk'⟩, himports, hname]
    constructor
    · intro hn
      exact ⟨shared.settle m, mem_modules_resolve.mpr ⟨m, hm, rfl⟩, shared.name_settle m,
        by simpa using hn⟩
    · rintro ⟨other, hother, heq, hn⟩
      -- a name stands for one record
      obtain ⟨m₀, hm₀, rfl⟩ := mem_modules_resolve.mp hother
      have hsame : m₀ = m := List.inj_on_of_nodup_map (w.names_entered mainModule) hm₀ hm
        ((shared.name_settle m₀).symm.trans heq)
      rw [hsame] at hn
      simpa using hn
  obtain ⟨registers, hregisters, heq⟩ := registrationErrors_eq shared.walked m.name
    m.subclassCandidates shared.facts.classBases fun walker imported =>
      (shared.walkerImports.get? walker).any fun imports => decide (imported ∈ imports)
  rw [show (w.shared mainModule).registrations m = _ from heq, List.mem_map]
  refine exists_congr fun candidate => ?_
  rw [List.mem_filter, hregisters, and_assoc, eq_comm,
    registers_congr (fun _ _ => Iff.rfl) hwalks hedges]

/-- The errors a module is left with. Those of its record stay, but for the ones a clearing
takes; the others are what its own candidates are reported as: an imported variable passed, at
module scope, to a function that mutates it; a class that registers with a base that is walked
elsewhere; an attribute that is a property with an unsafe getter. -/
theorem mem_errors_resolve {m : CachedModule} (hm : m ∈ (w.entered mainModule).modules)
    {safety : CachedModuleSafety} (h : m.safety = .ok safety) :
    ∃ final ∈ (w.resolve mainModule).cache.modules, ∃ settled,
      final.name = m.name ∧ final.safety = .ok settled ∧
      settled.forceImportsEagerOverrides = safety.forceImportsEagerOverrides ∧
      ∀ e, e ∈ settled.errors ↔
        (e ∈ safety.errors ∧ ¬(e.kind.couldBeCausedByMissingImport = true ∧
          ((w.shared mainModule).facts.clearsEarly m e = true ∨
            (w.shared mainModule).clearsLate m e = true))) ∨
        (∃ candidate ∈ m.mutationCandidates, ∃ call, candidate.site = .moduleScope call ∧
          candidateMutates candidate ⟨(w.shared mainModule).facts.moduleNames,
            (w.shared mainModule).facts.functionSafety⟩ = true ∧
          e = importedVarArgument call candidate.range) ∨
        (∃ candidate ∈ m.subclassCandidates,
          Registers (BaseEdge (w.shared mainModule).facts.classBases)
            (CachedWalks (w.resolve mainModule).cache.modules)
            (CachedImports (w.resolve mainModule).cache.modules) m.name
            candidate.candidateClass ∧
          e = registrationError candidate) ∨
        ∃ candidate ∈ m.propertyCandidates,
          (w.shared mainModule).properties.candidateError candidate = some e := by
  have hscope : ∀ e, e ∈ moduleScopeErrorsOf (applyMutationCandidates (w.candidates mainModule)
      (w.shared mainModule).facts.moduleNames
      (w.shared mainModule).facts.functionSafety).moduleScopeErrors m.name ↔ _ :=
    fun _ => mem_moduleScopeErrorsOf (w.names_entered mainModule) hm
  refine ⟨_, mem_modules_resolve.mpr ⟨m, hm, rfl⟩, _, SharedFacts.name_settle _ m,
    SharedFacts.safety_settle h, rfl, fun e => mem_settledErrors.trans ?_⟩
  refine or_congr_right (or_congr ?_ (or_congr_left mem_registrations))
  rw [← hscope, w.outcome_shared mainModule]
  rfl

/-- A call of a function that a module of another library has. -/
def unresolvedCall : SafetyError :=
  { kind := .unknownFunctionCall, metadata := fromStr "lib.f" }

/-- A class with a finalizer. -/
def finalizer : SafetyError :=
  { kind := .customFinalizer, metadata := fromStr "C" }

/-- A module that calls the function and could not find its module. -/
def callerModule : CachedModule :=
  { CachedModule.empty (fromStr "app") with
    missingImports := {fromStr "lib"}
    safety := .ok { errors := [unresolvedCall, finalizer] } }

/-- The module, in which the function is safe. -/
def calleeModule : CachedModule :=
  { CachedModule.empty (fromStr "lib") with
    functionSafety := Table.ofList [(fromStr "f", { verdict := ∅ })] }

/-- Both modules merged. -/
def callerWorkspace : ReduceWorkspace :=
  single { modules := [callerModule, calleeModule] }
    ⟨by decide, ⟨by decide, by decide⟩⟩ ⟨[], by decide⟩

/-- The call is cleared, and the other error is not. -/
theorem mem_errors_resolve_caller :
    ∃ final ∈ (callerWorkspace.resolve none).cache.modules, ∃ settled,
      final.name = fromStr "app" ∧ final.safety = .ok settled ∧
      ∀ e, e ∈ settled.errors ↔ e = finalizer := by
  have hmodule : callerModule ∈ (callerWorkspace.entered none).modules := List.mem_cons_self
  obtain ⟨final, hfinal, settled, hname, hsettled, -, herrors⟩ := mem_errors_resolve hmodule rfl
  refine ⟨final, hfinal, settled, hname, hsettled, fun e => ?_⟩
  have hcleared : (callerWorkspace.shared none).facts.clearsEarly callerModule unresolvedCall =
      true := by decide +kernel
  rw [herrors]
  constructor
  · rintro (⟨he, hkept⟩ | ⟨candidate, hcandidate, -⟩ | ⟨candidate, hcandidate, -⟩ |
      ⟨candidate, hcandidate, -⟩)
    · rcases List.mem_pair.mp he with rfl | rfl
      · exact absurd ⟨rfl, Or.inl hcleared⟩ hkept
      · rfl
    -- the module has no candidates
    all_goals exact absurd hcandidate List.not_mem_nil
  · rintro rfl
    exact Or.inl ⟨List.mem_pair.mpr (Or.inr rfl), fun h => by cases h.1⟩

end ReduceWorkspace

end Lifeguard
