import Lifeguard.LibraryRuns
import Lifeguard.ReportedModules

/-!
# Effects that a library reports

From an effect of a module to the output: what the analysis of one library finds in an eager scope
of a module is in its cache, and no merge with other libraries loses it. A module whose import has
an effect that no missing import could have caused is never made lazy.

- `carries_record`: the record of the module in the cache carries the error of the effect;
- `reported_effect_stays_out`: the module fails in every reduce, and gets no lazy-import set.
-/

namespace Lifeguard

open Lib ProjectInfo

namespace Library.Run

variable {lib : Library} (run : lib.Run)

/-- The cache, as the merge takes it. -/
def built : BuiltCache := ⟨run.cache, run.built_cache⟩

/-- The record of a module in the cache carries each error of its eager scopes, or the analysis of
the module failed. -/
theorem carries_record {m : ModuleName} {result : AnalyzedModule}
    (hget : lib.input.analysisMap.get? m = some result) (hshown : lib.sources.hidden m = false)
    {scope : ModuleName} (hscope : scope ∈ result.definitions.eagerScopes) {eff : Effect}
    (heff : eff ∈ lib.info.effectsOf scope) {err : SafetyError}
    (herr : lib.info.EagerError run.verdicts m scope eff err) :
    ∃ r ∈ run.cache.modules, r.name = m ∧ r.Carries err.key := by
  rcases run.record_cases hget with ⟨-, message, hrecord⟩ | ⟨heval, hrecord⟩
  · exact ⟨cachedModule lib.importGraph lib.sideEffectImports
        (m, run.settled m (.analysisError message)),
      run.mem_modules_cache.mpr ⟨hshown, _, hrecord, rfl⟩, rfl, trivial⟩
  · have hmem : err ∈
        (lib.info.evaluatedRecord run.passOrders run.verdicts .incremental m result).errors :=
      (mem_errors_evaluatedRecord hget heval).mpr ⟨scope, hscope, eff, heff, herr⟩
    exact ⟨cachedModule lib.importGraph lib.sideEffectImports (m, run.settled m (.ok _)),
      run.mem_modules_cache.mpr ⟨hshown, _, hrecord, rfl⟩, rfl, err, hmem, rfl⟩

/-- A module whose eager scopes have an effect that is an error, and one that no missing import
could have caused and no guard drops, fails in every reduce that takes the cache of its library,
and gets no lazy-import set. -/
theorem reported_effect_stays_out {m : ModuleName} {result : AnalyzedModule}
    (hget : lib.input.analysisMap.get? m = some result) (hshown : lib.sources.hidden m = false)
    {scope : ModuleName} (hscope : scope ∈ result.definitions.eagerScopes) {eff : Effect}
    (heff : eff ∈ lib.info.effectsOf scope) {err : SafetyError}
    (herr : lib.info.EagerError run.verdicts m scope eff err)
    (hkind : err.kind.couldBeCausedByMissingImport = false) (S : UnstableSort)
    {caches : List BuiltCache} (hcaches : run.built ∈ caches) (graph : StubGraph)
    (division : Division) (mainModule : Option ModuleName)
    (hguard : err.fromMainGuard = false ∨ ¬DropsGuard mainModule m) :
    ∃ w, ReduceWorkspace.merge S caches graph division = some w ∧
      ∀ sccs s, PolicyRun (ResolvedProgram.fromCache (w.resolve mainModule)) sccs s →
        m ∈ (ResolvedProgram.fromCache (w.resolve mainModule)).failing ∧ m ∉ s.final.keys := by
  obtain ⟨r, hr, rfl, hcarries⟩ := run.carries_record hget hshown hscope heff herr
  have hrecorded : r ∈ recordsOfCaches caches := List.mem_flatMap.mpr ⟨run.built, hcaches, hr⟩
  have hne : caches ≠ [] := List.ne_nil_of_mem hcaches
  obtain ⟨w, hw, hmerged⟩ := exists_mergedFrom S hne graph division
  refine ⟨w, hw, fun sccs s hrun => ?_⟩
  have hfailing := failing_of_carries hmerged hrecorded hcarries hkind hguard
  exact ⟨hfailing, fun hkey => Finset.disjoint_left.mp (ResolvedProgram.classified_once _) hfailing
    (hrun.passing_of_mem_final hkey)⟩

/-- A library of one module `app` that raises when it is imported. -/
def raisingLibrary : Library where
  info := { effectTable := Table.ofList [(fromStr "app", [raiseEffect])] }
  input :=
    { analysisMap := Table.ofList
        [(fromStr "app", { definitions := { eagerScopes := {fromStr "app"} } })] }
  sources := mutatingLibrary.sources
  importGraph := {}
  exports := { offsets := offsets_empty }
  sideEffectImports := Table.empty

/-- The module that raises has no lazy-import set. -/
theorem reported_effect_stays_out_raisingLibrary :
    ∃ w, ReduceWorkspace.merge insertionSort [raisingLibrary.listed.built] ⟨[], by decide⟩ .fold =
        some w ∧
      fromStr "app" ∉ (policy (ResolvedProgram.fromCache (w.resolve none)) []).final.keys := by
  obtain ⟨w, hw, hout⟩ := raisingLibrary.listed.reported_effect_stays_out
    (m := fromStr "app") (rfl : raisingLibrary.input.analysisMap.get? (fromStr "app") = some _)
    (by decide) (Finset.mem_singleton_self _)
    (List.mem_singleton_self _ : raiseEffect ∈ raisingLibrary.info.effectsOf (fromStr "app"))
    (.own rfl) rfl insertionSort (List.mem_singleton_self _) ⟨[], by decide⟩ .fold none (Or.inl rfl)
  exact ⟨w, hw, (hout [] _ (policyRun_policy _ [])).2⟩

end Library.Run

end Lifeguard
