import Lifeguard.CacheBuild
import Lifeguard.CandidateTheory
import Lifeguard.EntryUpdates
import Lifeguard.LibraryRecords

/-!
# The analysis of a library, run to its cache

A run takes the modules of a library, once each is analyzed, to the cache that is written
(`project/analysis.rs`, `commands/analyze_library.rs`): the verdicts in the order of a schedule,
the module-scope pass with its workers in any interleaving, the records settled, the cache built.

- `Library.Run`: the choices of a run, and `Run.cache`: what it writes;
- `mem_modules_cache`: the record of a module, in closed form;
- `lookup_cache`: the reduce finds in the cache the verdict of the function that a name names,
  and no other;
- `callee_judged_as_at_home`: so it judges a call into the library as the library itself does.
-/

namespace Lifeguard

open Lib ProjectInfo

/-! ## The entries that an argument can reach -/

/-- No constructor method has a dot in its name. -/
theorem dot_notMem_constructorMethods :
    ∀ method ∈ constructorMethods, '.' ∉ method := by decide

/-- The entry of a constructor method, right below the callee. -/
theorem lookupCallee_child (view : ModuleView) (callee : ModuleName) {method : Str}
    (hmethod : method ∈ constructorMethods) :
    view.lookupCallee (appendStr callee method) =
      if callee ∈ view.moduleNames then getFunctionSafety view.functionSafety callee method
      else (enclosingModule callee fun m => decide (m ∈ view.moduleNames)).bind fun p =>
        getFunctionSafety view.functionSafety p.1 (appendStr p.2 method) := by
  rw [lookupCallee_eq, enclosingModule_child (dot_notMem_constructorMethods method hmethod)]
  by_cases hmem : callee ∈ view.moduleNames
  · rw [decide_eq_true hmem, if_pos rfl, if_pos hmem]
    rfl
  · rw [decide_eq_false hmem, if_neg Bool.false_ne_true, if_neg hmem, Option.bind_map]
    rfl

/-- An argument reaches a parameter that the callee mutates, or that a constructor method of it
mutates, which is looked for right below the callee. -/
theorem mutatedArgReaches_eq_true {callee : ModuleName} (hcallee : callee.getLast? ≠ some '.')
    {argOffset : Nat} {args : ImportedArgs} {view : ModuleView} :
    mutatedArgReaches callee argOffset args view = true ↔
      ∃ p ∈ (callee, argOffset) ::
          constructorMethods.map fun method => (appendStr callee method, argOffset + 1),
        ∃ info, view.lookupCallee p.1 = some info ∧
          args.hitsAnyParam (info.mutatedParams.map fun q => (q.name, q.position)) p.2 := by
  have hlocal : ∀ m l, enclosingModule callee (fun m => decide (m ∈ view.moduleNames)) =
      some (m, l) → l ≠ [] := by
    rintro m l hsplit rfl
    obtain ⟨rfl, -, -⟩ := enclosingModule_eq_some.mp hsplit
    exact hcallee (by simp [appendStr])
  unfold mutatedArgReaches
  rw [ModuleView.get, split_eq]
  simp only [List.mem_cons, List.mem_map, exists_eq_or_imp, exists_exists_and_eq_and,
    Bool.or_eq_true, lookupCallee_eq view callee]
  refine or_congr ?_ ?_
  · cases enclosingModule callee fun m => decide (m ∈ view.moduleNames) with
    | none => simp
    | some p => simp [getFunctionSafety, Option.any_eq_true]
  · by_cases hmem : callee ∈ view.moduleNames
    · rw [if_pos hmem]
      simp only [Option.any_some, List.any_eq_true, if_true, Option.any_eq_true]
      refine exists_congr fun method => and_congr_right fun hmethod => ?_
      rw [lookupCallee_child view callee hmethod, if_pos hmem]
      rfl
    · rw [if_neg hmem]
      cases hsplit : enclosingModule callee fun m => decide (m ∈ view.moduleNames) with
      | none =>
        simp only [Option.map_none, Option.any_none, Bool.false_eq_true, false_iff]
        rintro ⟨method, hmethod, info, hinfo, -⟩
        rw [lookupCallee_child view callee hmethod, if_neg hmem, hsplit] at hinfo
        cases hinfo
      | some p =>
        simp only [Option.map_some, Option.any_some, List.any_eq_true, Option.any_eq_true,
          if_neg (hlocal p.1 p.2 hsplit)]
        refine exists_congr fun method => and_congr_right fun hmethod => ?_
        rw [lookupCallee_child view callee hmethod, if_neg hmem, hsplit]
        rfl

/-- The parameters that go into the cache judge a call as the library's own do. -/
theorem hitsAnyParam_withMutatedParams {info : ProjectInfo} {safety : Verdicts}
    (orders : LibraryOrders info safety) (callData : CallData) (func : ModuleName) (offset : Nat)
    {fi : FunctionSafetyInfo} (hfi : fi.mutatedParams = []) :
    callData.importedArgs.hitsAnyParam
        ((info.withMutatedParams orders func fi).mutatedParams.map fun q => (q.name, q.position))
        offset =
      info.calleeMutatesImportedArg callData func offset := by
  unfold withMutatedParams resolveCachedMutatedParamsFor calleeMutatesImportedArg
  cases info.mutatedParams.get? func with
  | none =>
    rw [Option.map_none]
    show callData.importedArgs.hitsAnyParam (fi.mutatedParams.map _) offset = false
    rw [hfi]
    rfl
  | some params =>
    rw [Option.map_some]
    dsimp only
    rw [List.map_map]
    exact ((orders.perm_params params).map _).any_eq

/-- They do not change the verdict. -/
theorem verdict_withMutatedParams {info : ProjectInfo} {safety : Verdicts}
    (orders : LibraryOrders info safety) (func : ModuleName) (fi : FunctionSafetyInfo) :
    (info.withMutatedParams orders func fi).verdict = fi.verdict := by
  unfold withMutatedParams
  split
  · rfl
  · rfl

/-! ## The runs -/

/-- A library, once its modules are analyzed. -/
structure Library where
  info : ProjectInfo
  input : PassInput
  sources : ModuleProvider
  importGraph : ImportGraphBuilder
  exports : ModuleExports
  sideEffectImports : Table ModuleName (Finset ModuleName)

namespace Library

/-- The modules of the analysis map. -/
def modules (lib : Library) : Finset ModuleName := lib.input.analysisMap.keys.toFinset

/-- The choices of a run: the order inside the levels, the interleaving of the workers, and the
orders of the hash maps and sets. -/
structure Run (lib : Library) where
  schedule : List (List Nat)
  scheduled : lib.info.Schedule schedule
  passOrders : PassOrders lib.input
  log : List (ModuleName × ModuleUpdate)
  pass : lib.info.PassRun passOrders .incremental (lib.info.precompute schedule) log
  orders : LibraryOrders lib.info (lib.info.precompute schedule).safety
  buildOrders : BuildOrders lib.exports

/-- Every library has a run: level by level, one worker after the other, the tables as they are
listed. -/
noncomputable def listed (lib : Library) : lib.Run where
  schedule := lib.info.levels
  scheduled := schedule_levels lib.info
  passOrders := .listed lib.input
  log := (lib.info.collectErrorsFromModules (.listed lib.input) .incremental
    lib.input.analysisMap.keys { analysis := lib.info.precompute lib.info.levels }).updates
  pass := passRun_collectErrorsFromModules (complete_precompute (schedule_levels lib.info))
    (Table.keys_nodup _) fun _ _ hget => Table.mem_keys.mpr (Option.isSome_iff_exists.mpr ⟨_, hget⟩)
  orders := .listed lib.info _
  buildOrders := .listed lib.exports

namespace Run

variable {lib : Library} (run : lib.Run)

/-- The verdicts. -/
def verdicts : Verdicts := (lib.info.precompute run.schedule).safety

/-- The record that the module-scope pass leaves of a module. -/
def record (m : ModuleName) : Option SafetyResult :=
  (passSafetyMap lib.input run.log).get? m

/-- What `run_analysis` hands on. -/
def output : AnalysisOutput :=
  lib.info.runAnalysis run.orders lib.sources lib.input lib.importGraph lib.sideEffectImports
    (passSafetyMap lib.input run.log)

/-- The cache that is written. -/
def cache : LibraryCache := analyzeLibrary run.buildOrders run.output lib.importGraph

theorem built_cache : run.cache.Built := built_analyzeLibrary run.buildOrders run.output

theorem complete : lib.info.Complete run.verdicts := complete_precompute run.scheduled

/-- The record of a module is that of its own worker. -/
theorem record_eq (m : ModuleName) :
    run.record m = (lib.input.analysisMap.get? m).bind fun result =>
      lib.info.moduleRecord run.passOrders run.verdicts .incremental m result :=
  ProjectInfo.record_eq run.complete run.pass m

/-- A module that was analyzed has a record: an analysis error where an effect cannot be
reported, and else what the effects of its eager scopes tell. -/
theorem record_cases {m : ModuleName} {result : AnalyzedModule}
    (hget : lib.input.analysisMap.get? m = some result) :
    (¬lib.info.AllEvaluated run.verdicts m result ∧
        ∃ message, run.record m = some (.analysisError message)) ∨
      (lib.info.AllEvaluated run.verdicts m result ∧
        run.record m = some (.ok
          (lib.info.evaluatedRecord run.passOrders run.verdicts .incremental m result))) := by
  rw [record_eq, hget, Option.bind_some]
  by_cases hall : lib.info.AllEvaluated run.verdicts m result
  · exact Or.inr ⟨hall, moduleRecord_of_ok hget hall⟩
  · exact Or.inl ⟨hall, moduleRecord_of_error hget hall⟩

theorem isSome_record {m : ModuleName} : (run.record m).isSome ↔ m ∈ lib.modules := by
  rw [modules, List.mem_toFinset, Table.mem_keys]
  cases hget : lib.input.analysisMap.get? m with
  | none =>
    rw [record_eq, hget, Option.bind_none]
    exact Iff.rfl
  | some result =>
    rcases run.record_cases hget with ⟨-, message, hrecord⟩ | ⟨-, hrecord⟩
    · rw [hrecord]
      simp
    · rw [hrecord]
      simp

theorem keys_records : (passSafetyMap lib.input run.log).keys.toFinset = lib.modules := by
  ext m
  rw [List.mem_toFinset, Table.mem_keys]
  exact run.isSome_record

/-- The pass leaves the verdicts and the candidates to the end of the analysis. -/
theorem fresh_records : Fresh (passSafetyMap lib.input run.log) := by
  intro m ms hrecord
  obtain ⟨result, hget⟩ : ∃ result, lib.input.analysisMap.get? m = some result := by
    rw [← Option.isSome_iff_exists, ← Table.mem_keys, ← List.mem_toFinset]
    exact run.isSome_record.mp (Option.isSome_iff_exists.mpr ⟨_, hrecord⟩)
  rcases run.record_cases hget with ⟨-, message, herror⟩ | ⟨-, hok⟩
  · rw [record, hrecord] at herror
    cases herror
  · rw [record, hrecord] at hok
    cases hok
    exact ⟨rfl, rfl⟩

/-- The record of a module, with its verdicts and candidates. -/
def settled (m : ModuleName) (result : SafetyResult) : SafetyResult :=
  settledRecord run.orders lib.modules lib.importGraph m result

theorem get?_safetyMap (m : ModuleName) :
    run.output.safetyMap.get? m =
      if lib.sources.hidden m then none else (run.record m).map (run.settled m) := by
  show (filterOutStubs lib.sources _).get? m = _
  rw [get?_filterOutStubs, ← modules, get?_settleRecords run.keys_records run.fresh_records]
  rfl

/-- The records of the cache: one of each module that is not a stub without its source. -/
theorem mem_modules_cache {r : CachedModule} :
    r ∈ run.cache.modules ↔ lib.sources.hidden r.name = false ∧
      ∃ result, run.record r.name = some result ∧
        r = cachedModule lib.importGraph lib.sideEffectImports
          (r.name, run.settled r.name result) := by
  show r ∈ (LibraryCache.build run.buildOrders _ _ _).modules ↔ _
  rw [LibraryCache.mem_modules_build, get?_safetyMap]
  cases lib.sources.hidden r.name with
  | true => simp
  | false =>
    simp only [Bool.false_eq_true, if_false, true_and]
    constructor
    · rintro ⟨settled, hsettled, hr⟩
      obtain ⟨result, hresult, rfl⟩ := Option.map_eq_some_iff.mp hsettled
      exact ⟨result, hresult, hr⟩
    · rintro ⟨result, hresult, hr⟩
      exact ⟨run.settled r.name result, by rw [hresult]; rfl, hr⟩

theorem mem_moduleNames_cache {m : ModuleName} :
    m ∈ moduleNames run.cache.modules ↔ lib.sources.hidden m = false ∧ m ∈ lib.modules := by
  rw [mem_moduleNames]
  constructor
  · rintro ⟨r, hr, rfl⟩
    obtain ⟨hhidden, result, hresult, -⟩ := run.mem_modules_cache.mp hr
    exact ⟨hhidden, run.isSome_record.mp (Option.isSome_iff_exists.mpr ⟨result, hresult⟩)⟩
  · rintro ⟨hhidden, hm⟩
    obtain ⟨result, hresult⟩ := Option.isSome_iff_exists.mp (run.isSome_record.mpr hm)
    exact ⟨cachedModule lib.importGraph lib.sideEffectImports (m, run.settled m result),
      run.mem_modules_cache.mpr ⟨hhidden, result, hresult, rfl⟩, rfl⟩

/-! ## The verdicts in the cache -/

/-- The verdicts of the module go into the cache: it has a record there, which is no analysis
error. -/
def Recorded (m : ModuleName) : Prop :=
  lib.sources.hidden m = false ∧ ∃ ms, run.record m = some (.ok ms)

/-- The cache as the reduce looks into it. -/
def view : ModuleView where
  moduleNames := (moduleNames run.cache.modules).toFinset
  functionSafety := run.cache.functionSafety

/-- A module's verdicts in the cache are those of the functions that it owns. -/
theorem getFunctionSafety_cache {m : ModuleName} {l : Str} {fi : FunctionSafetyInfo} :
    getFunctionSafety run.cache.functionSafety m l = some fi ↔
      run.Recorded m ∧ (ownedVerdicts run.orders lib.modules m).get? l = some fi := by
  rw [getFunctionSafety, Option.bind_eq_some_iff]
  constructor
  · rintro ⟨fns, hfns, hfi⟩
    obtain ⟨r, hr, rfl, rfl⟩ := (LibraryCache.get?_functionSafety run.built_cache.names).mp hfns
    obtain ⟨hhidden, result, hresult, hr⟩ := run.mem_modules_cache.mp hr
    rw [hr] at hfi
    cases result with
    | analysisError message => cases hfi
    | ok ms => exact ⟨⟨hhidden, ms, hresult⟩, hfi⟩
  · rintro ⟨⟨hhidden, ms, hresult⟩, hfi⟩
    exact ⟨_, (LibraryCache.get?_functionSafety run.built_cache.names).mpr
      ⟨cachedModule lib.importGraph lib.sideEffectImports (m, run.settled m (.ok ms)),
        run.mem_modules_cache.mpr ⟨hhidden, _, hresult, rfl⟩, rfl, rfl⟩, hfi⟩

/-- What the reduce finds of a name: the verdict of the function it names, when the module that
owns the function is recorded, and no other verdict. -/
theorem lookup_cache (func : ModuleName) (fi : FunctionSafetyInfo) :
    run.view.lookupCallee func = some fi ↔
      ∃ m l, enclosingModule func (fun m => decide (m ∈ lib.modules)) = some (m, l) ∧
        run.Recorded m ∧ ∃ fi₀, run.verdicts func = some fi₀ ∧
          fi = lib.info.withMutatedParams run.orders func fi₀ := by
  have hsub : ∀ m, m ∈ run.view.moduleNames → m ∈ lib.modules := fun m hm =>
    (run.mem_moduleNames_cache.mp (List.mem_toFinset.mp hm)).2
  rw [lookupCallee_eq, Option.bind_eq_some_iff]
  constructor
  · rintro ⟨⟨m, l⟩, hsplit, hfi⟩
    obtain ⟨hrecorded, howned⟩ := run.getFunctionSafety_cache.mp hfi
    obtain ⟨rfl, -, -⟩ := enclosingModule_eq_some.mp hsplit
    obtain ⟨hsplit', fi₀, hfi₀, heq⟩ := get?_ownedVerdicts.mp howned
    exact ⟨m, l, hsplit', hrecorded, fi₀, hfi₀, heq⟩
  · rintro ⟨m, l, hsplit, hrecorded, fi₀, hfi₀, heq⟩
    obtain ⟨rfl, hm, hlongest⟩ := enclosingModule_eq_some.mp hsplit
    -- the longest module above the name is still there, and no longer one has come
    have hview : enclosingModule (appendStr m l) (fun m => decide (m ∈ run.view.moduleNames)) =
        some (m, l) := by
      refine enclosingModule_eq_some.mpr ⟨rfl, ?_, fun m' r' hname hm' => ?_⟩
      · exact decide_eq_true (List.mem_toFinset.mpr
          (run.mem_moduleNames_cache.mpr ⟨hrecorded.1, of_decide_eq_true hm⟩))
      · exact hlongest m' r' hname (decide_eq_true (hsub m' (of_decide_eq_true hm')))
    exact ⟨(m, l), hview, run.getFunctionSafety_cache.mpr
      ⟨hrecorded, get?_ownedVerdicts.mpr ⟨hsplit, fi₀, hfi₀, heq⟩⟩⟩

/-- The reduce sees the verdict of the function: there is one, and the module that owns the
function is recorded. -/
def Visible (func : ModuleName) : Prop :=
  (run.verdicts func).isSome ∧
    ∃ m l, enclosingModule func (fun m => decide (m ∈ lib.modules)) = some (m, l) ∧
      run.Recorded m

/-- The reduce judges a call into the library as the library itself does, by the verdicts that it
sees: whether an argument reaches a parameter that the callee or a constructor method of it
mutates, and whether the callee is unsafe. -/
theorem callee_judged_as_at_home (callData : CallData) {callee : ModuleName} (offset : Nat)
    (hcallee : callee.getLast? ≠ some '.') :
    (mutatedArgReaches callee offset callData.importedArgs run.view = true ↔
      ∃ p ∈ (callee, offset) ::
          constructorMethods.map fun method => (appendStr callee method, offset + 1),
        run.Visible p.1 ∧ lib.info.calleeMutatesImportedArg callData p.1 p.2 = true) ∧
      (calleeResolvesUnsafe callee run.view = true ↔
        run.Visible callee ∧ ∃ fi, run.verdicts callee = some fi ∧ fi.verdict ≠ ∅) := by
  constructor
  · rw [mutatedArgReaches_eq_true hcallee]
    refine exists_congr fun p => and_congr_right fun _ => ?_
    constructor
    · rintro ⟨fi, hfi, hhits⟩
      obtain ⟨m, l, hsplit, hrecorded, fi₀, hfi₀, rfl⟩ := (run.lookup_cache p.1 fi).mp hfi
      have hparams : fi₀.mutatedParams = [] := noParams_precompute lib.info run.schedule _ _ hfi₀
      rw [hitsAnyParam_withMutatedParams run.orders callData p.1 p.2 hparams] at hhits
      exact ⟨⟨Option.isSome_iff_exists.mpr ⟨fi₀, hfi₀⟩, m, l, hsplit, hrecorded⟩, hhits⟩
    · rintro ⟨⟨hsome, m, l, hsplit, hrecorded⟩, hmutates⟩
      obtain ⟨fi₀, hfi₀⟩ := Option.isSome_iff_exists.mp hsome
      have hparams : fi₀.mutatedParams = [] := noParams_precompute lib.info run.schedule _ _ hfi₀
      refine ⟨_, (run.lookup_cache p.1 _).mpr ⟨m, l, hsplit, hrecorded, fi₀, hfi₀, rfl⟩, ?_⟩
      rw [hitsAnyParam_withMutatedParams run.orders callData p.1 p.2 hparams]
      exact hmutates
  · rw [calleeResolvesUnsafe, Option.any_eq_true]
    constructor
    · rintro ⟨fi, hfi, hunsafe⟩
      obtain ⟨m, l, hsplit, hrecorded, fi₀, hfi₀, rfl⟩ := (run.lookup_cache callee fi).mp hfi
      refine ⟨⟨Option.isSome_iff_exists.mpr ⟨fi₀, hfi₀⟩, m, l, hsplit, hrecorded⟩, fi₀, hfi₀, ?_⟩
      rw [verdict_withMutatedParams] at hunsafe
      simpa [FunctionSafety.isSafe] using hunsafe
    · rintro ⟨⟨-, m, l, hsplit, hrecorded⟩, fi₀, hfi₀, hunsafe⟩
      refine ⟨_, (run.lookup_cache callee _).mpr ⟨m, l, hsplit, hrecorded, fi₀, hfi₀, rfl⟩, ?_⟩
      rw [verdict_withMutatedParams]
      simpa [FunctionSafety.isSafe] using hunsafe

/-- A library of one module `lib`, whose function `lib.f` mutates its parameter `x`. -/
def mutatingLibrary : Library where
  info :=
    { effectTable := Table.ofList [(fromStr "lib.f", [])]
      functions := Table.ofList [(fromStr "lib.f", fromStr "lib")]
      mutatedParams := Table.ofList [(fromStr "lib.f", [fromStr "x"])]
      paramNames := Table.ofList
        [(fromStr "lib", Table.ofList [(fromStr "lib.f", [fromStr "x"])])] }
  input :=
    { analysisMap := Table.ofList
        [(fromStr "lib", { definitions := { eagerScopes := {fromStr "lib"} } })] }
  sources :=
    { moduleNames := [fromStr "lib"]
      parse := fun _ => none
      isStub := fun _ => false
      overridesSource := fun _ => false }
  importGraph := {}
  exports := { offsets := offsets_empty }
  sideEffectImports := Table.empty

/-- A call of `lib.f` elsewhere, with an imported object as its first argument. -/
def importedFirst : CallData where
  hasUnsafeArgs := true
  importedArgs := { unsafeArgIndices := 1 }

/-- Its one module has a record: no effect of an eager scope could fail to be reported. -/
theorem record_mutatingLibrary :
    ∃ ms, mutatingLibrary.listed.record (fromStr "lib") = some (.ok ms) := by
  have hget : mutatingLibrary.input.analysisMap.get? (fromStr "lib") =
      some { definitions := { eagerScopes := {fromStr "lib"} } } := rfl
  rcases mutatingLibrary.listed.record_cases hget with ⟨hfail, -⟩ | ⟨-, hrecord⟩
  · obtain ⟨scope, hscope, eff, heff, -⟩ := not_allEvaluated.mp hfail
    cases Finset.mem_singleton.mp hscope
    cases heff
  · exact ⟨_, hrecord⟩

/-- Another library's call of `lib.f` with an imported object is confirmed. -/
theorem callee_judged_as_at_home_mutatingLibrary :
    mutatedArgReaches (fromStr "lib.f") 0 importedFirst.importedArgs
      mutatingLibrary.listed.view = true := by
  have hrecorded : mutatingLibrary.listed.Recorded (fromStr "lib") :=
    ⟨by decide, record_mutatingLibrary⟩
  refine ((mutatingLibrary.listed.callee_judged_as_at_home importedFirst 0
    (by decide : (fromStr "lib.f").getLast? ≠ some '.')).1).mpr
    ⟨(fromStr "lib.f", 0), List.mem_cons_self,
      ⟨?_, fromStr "lib", fromStr "f", rfl, hrecorded⟩, rfl⟩
  exact mutatingLibrary.listed.complete _ rfl

end Run

end Library

end Lifeguard
