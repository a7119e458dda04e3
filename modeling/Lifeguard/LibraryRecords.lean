import Lifeguard.LibraryFacts
import Lifeguard.ScopeErrors

/-!
# The records of a library

What a library's analysis leaves in the record of each module, past the module-scope pass.

- `ownedVerdicts`: the verdicts of the functions a module owns; no two of them meet under one
  name, so the order in which they are handed to the records does not matter;
- `get?_settleRecords`: the record of a module, in closed form;
- `get?_filterOutStubs`: which modules have one.
-/

namespace Lifeguard

open Lib

namespace ProjectInfo

variable {info : ProjectInfo} {safety : Verdicts}

/-! ## The verdicts a module owns -/

section Owned

variable (orders : LibraryOrders info safety) (modules : Finset ModuleName)

theorem ownedVerdict_eq_some {func m : ModuleName} {l : Str} {fi' : FunctionSafetyInfo} :
    info.ownedVerdict orders modules func = some (m, l, fi') ↔
      enclosingModule func (fun m => decide (m ∈ modules)) = some (m, l) ∧
        ∃ fi, safety func = some fi ∧ fi' = info.withMutatedParams orders func fi := by
  rw [ownedVerdict, enclosingModuleStr_eq, Option.bind_eq_some_iff]
  constructor
  · rintro ⟨p, hp, hfi⟩
    obtain ⟨fi, hsafety, heq⟩ := Option.map_eq_some_iff.mp hfi
    cases heq
    exact ⟨hp, fi, hsafety, rfl⟩
  · rintro ⟨hp, fi, hsafety, rfl⟩
    exact ⟨(m, l), hp, by rw [hsafety]; rfl⟩

/-- The verdicts of the functions that a module owns, by their names there. -/
def ownedEntries (m : ModuleName) : List (Str × FunctionSafetyInfo) :=
  ((orders.verdicts.filterMap (info.ownedVerdict orders modules)).filter
    fun v => decide (v.1 = m)).map Prod.snd

variable {orders modules}

theorem mem_ownedEntries {m : ModuleName} {l : Str} {fi' : FunctionSafetyInfo} :
    (l, fi') ∈ ownedEntries orders modules m ↔
      enclosingModule (appendStr m l) (fun m => decide (m ∈ modules)) = some (m, l) ∧
        ∃ fi, safety (appendStr m l) = some fi ∧
          fi' = info.withMutatedParams orders (appendStr m l) fi := by
  rw [ownedEntries, List.mem_map]
  constructor
  · rintro ⟨v, hv, heq⟩
    obtain ⟨hmem, hm⟩ := List.mem_filter.mp hv
    obtain ⟨func, -, howned⟩ := List.mem_filterMap.mp hmem
    have hv' : v = (m, l, fi') := by
      rw [← heq, ← of_decide_eq_true hm]
    rw [hv', ownedVerdict_eq_some] at howned
    obtain ⟨hsplit, hfi⟩ := howned
    obtain ⟨rfl, -, -⟩ := enclosingModule_eq_some.mp hsplit
    exact ⟨hsplit, hfi⟩
  · rintro ⟨hsplit, fi, hsafety, rfl⟩
    refine ⟨(m, l, _), List.mem_filter.mpr ⟨List.mem_filterMap.mpr ⟨appendStr m l, ?_, ?_⟩,
      decide_eq_true rfl⟩, rfl⟩
    · rw [orders.mem_verdicts, hsafety]
      rfl
    · exact (ownedVerdict_eq_some orders modules).mpr ⟨hsplit, fi, hsafety, rfl⟩

/-- Two functions never have one name in one module. -/
theorem nodup_ownedEntries (m : ModuleName) :
    ((ownedEntries orders modules m).map Prod.fst).Nodup := by
  have hapart : (orders.verdicts.filterMap (info.ownedVerdict orders modules)).Pairwise
      fun v v' => v.1 = v'.1 → v.2.1 ≠ v'.2.1 := by
    refine List.pairwise_filterMap.mpr (orders.nodup_verdicts.imp ?_)
    rintro func func' hne v hv v' hv' hm hl
    obtain ⟨hsplit, -⟩ := (ownedVerdict_eq_some orders modules).mp (Option.mem_def.mp hv)
    obtain ⟨hsplit', -⟩ := (ownedVerdict_eq_some orders modules).mp (Option.mem_def.mp hv')
    -- both are the module, a dot, and the name
    apply hne
    rw [(enclosingModule_eq_some.mp hsplit).1, (enclosingModule_eq_some.mp hsplit').1, hm, hl]
  rw [ownedEntries, List.map_map]
  refine List.pairwise_map.mpr ((hapart.filter _).imp_of_mem fun hv hv' h => ?_)
  have hm := of_decide_eq_true (List.mem_filter.mp hv).2
  have hm' := of_decide_eq_true (List.mem_filter.mp hv').2
  exact h (hm.trans hm'.symm)

variable (orders modules)

/-- The verdicts of the functions that a module owns. -/
def ownedVerdicts (m : ModuleName) : ModuleVerdicts where
  entries := ownedEntries orders modules m
  nodup := nodup_ownedEntries m

variable {orders modules}

theorem get?_ownedVerdicts {m : ModuleName} {l : Str} {fi' : FunctionSafetyInfo} :
    (ownedVerdicts orders modules m).get? l = some fi' ↔
      enclosingModule (appendStr m l) (fun m => decide (m ∈ modules)) = some (m, l) ∧
        ∃ fi, safety (appendStr m l) = some fi ∧
          fi' = info.withMutatedParams orders (appendStr m l) fi := by
  rw [← Table.mem_entries]
  exact mem_ownedEntries

end Owned

/-! ## The records, settled -/

/-- The pass has left neither verdicts nor candidates in the records. -/
def Fresh (records : SafetyMap) : Prop :=
  ∀ m ms, records.get? m = some (.ok ms) → ms.functionSafety = Table.empty ∧
    ms.mutationCandidates = []

theorem foldl_putVerdict_ok (verdicts : List (ModuleName × Str × FunctionSafetyInfo))
    (ms : ModuleSafety) :
    verdicts.foldl (fun result v => putVerdict v result) (.ok ms) =
      .ok { ms with
        functionSafety := (verdicts.map Prod.snd).foldl (fun t e => t.insert e.1 e.2)
          ms.functionSafety } := by
  induction verdicts generalizing ms with
  | nil => rfl
  | cons v verdicts ih => exact ih _

theorem foldl_putVerdict_error (verdicts : List (ModuleName × Str × FunctionSafetyInfo))
    (message : Str) :
    verdicts.foldl (fun result v => putVerdict v result) (.analysisError message) =
      .analysisError message := by
  induction verdicts with
  | nil => rfl
  | cons v verdicts ih => exact ih

section Settled

variable (orders : LibraryOrders info safety) (modules : Finset ModuleName)
  (importGraph : ImportGraphBuilder)

/-- The candidates of one module. -/
def moduleCandidates (m : ModuleName) : List MutationCandidate :=
  (info.collectMutationCandidates orders modules importGraph).listAt m

/-- The record of a module, settled. -/
def settledRecord (m : ModuleName) : SafetyResult → SafetyResult
  | .ok ms =>
    .ok
      { ms with
        functionSafety := ownedVerdicts orders modules m
        mutationCandidates := moduleCandidates orders modules importGraph m }
  | .analysisError message => .analysisError message

variable {orders modules importGraph} {records : SafetyMap}

/-- The verdicts handed over, to the records that have none yet. -/
theorem get?_finalizeSafetyMap (hmodules : records.keys.toFinset = modules)
    (hfresh : Fresh records) (m : ModuleName) :
    (info.finalizeSafetyMap orders .incremental records).get? m =
      (records.get? m).map fun result =>
        match result with
        | .ok ms => .ok { ms with functionSafety := ownedVerdicts orders modules m }
        | .analysisError message => .analysisError message := by
  rw [finalizeSafetyMap, if_pos rfl, hmodules, Table.get?_foldl_modify]
  cases hget : records.get? m with
  | none => rfl
  | some result =>
    rw [Option.map_some, Option.map_some]
    cases result with
    | analysisError message => rw [foldl_putVerdict_error]
    | ok ms =>
      have hempty := (hfresh m ms hget).1
      rw [foldl_putVerdict_ok, hempty]
      have htable : (((orders.verdicts.filterMap (info.ownedVerdict orders modules)).filter
          fun v => decide (v.1 = m)).map Prod.snd).foldl (fun t e => t.insert e.1 e.2)
            (Table.empty : ModuleVerdicts) = ownedVerdicts orders modules m :=
        Table.eq_of_entries (Table.entries_foldl_insert _ (nodup_ownedEntries m))
      rw [htable]

/-- The record of a module is settled by itself. -/
theorem get?_settleRecords (hmodules : records.keys.toFinset = modules) (hfresh : Fresh records)
    (m : ModuleName) :
    (info.settleRecords orders modules importGraph records).get? m =
      (records.get? m).map (settledRecord orders modules importGraph m) := by
  rw [settleRecords, Table.get?_foldl_modify_entries, get?_finalizeSafetyMap hmodules hfresh,
    Option.map_map]
  cases hget : records.get? m with
  | none => rfl
  | some result =>
    rw [Option.map_some, Option.map_some]
    cases result with
    | analysisError message =>
      cases (info.collectMutationCandidates orders modules importGraph).get? m <;> rfl
    | ok ms =>
      have hnone := (hfresh m ms hget).2
      cases hcandidates : (info.collectMutationCandidates orders modules importGraph).get? m with
      | none => simp [settledRecord, moduleCandidates, Table.listAt, hcandidates, hnone]
      | some candidates =>
        simp [settledRecord, moduleCandidates, Table.listAt, hcandidates, putCandidates]

end Settled

end ProjectInfo

/-! ## The stubs -/

/-- A stub of a module whose source is not there. -/
def ModuleProvider.hidden (sources : ModuleProvider) (m : ModuleName) : Bool :=
  decide (m ∈ sources.moduleNames) && (sources.isStub m && !sources.overridesSource m)

theorem get?_filterOutStubs (sources : ModuleProvider) (safetyMap : SafetyMap) (m : ModuleName) :
    (filterOutStubs sources safetyMap).get? m =
      if sources.hidden m then none else safetyMap.get? m := by
  unfold filterOutStubs ModuleProvider.hidden
  generalize sources.moduleNames = names
  induction names generalizing safetyMap with
  | nil => rfl
  | cons name names ih =>
    rw [List.foldl_cons, ih]
    by_cases hname : m = name
    · subst hname
      by_cases hstub : (sources.isStub m && !sources.overridesSource m) = true
      · simp [hstub, Table.get?_erase]
      · simp [hstub]
    · by_cases hstub : (sources.isStub name && !sources.overridesSource name) = true
      · simp [hstub, Table.get?_erase, hname]
      · simp [hstub, hname]

end Lifeguard
