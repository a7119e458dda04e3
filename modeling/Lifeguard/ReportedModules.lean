import Lifeguard.PolicyInvariants
import Lifeguard.ReduceErrors

/-!
# Modules that a library reports

What a library reports of a module, and what becomes of it in the output. A finding is an
analysis that failed, or an error that no missing import could have caused. It outlives the
join of the records, the drop of what a guard wrote, the clearings and the classification, so
the module is not made lazy, and whoever imports it is guarded.

- `CachedModule.Carries`: the finding, by what identifies an error in a cache;
- `carries_mergeRecords`, `carries_dropMainGuarded`, `carries_settle`: one step each;
- `reported_module_stays_out`: from a library's record to the sets of the policy.

The import graph of the resolved cache is read off the records in the same way
(`MergedFrom.edges`, `reduced_graph`).
-/

namespace Lifeguard

open Lib
open scoped List

/-! ## A finding -/

/-- What identifies an error in a cache: all but its range. -/
abbrev ErrorKey := ErrorKind × Str × Bool × Bool

/-- The analysis of the module failed, or it has an error with this key. -/
def CachedModule.Carries (m : CachedModule) (key : ErrorKey) : Prop :=
  match m.safety with
  | .ok safety => ∃ e ∈ safety.errors, e.key = key
  | .analysisError _ => True

theorem carries_of_ok {m : CachedModule} {key : ErrorKey} {safety : CachedModuleSafety}
    (h : m.safety = .ok safety) : m.Carries key ↔ ∃ e ∈ safety.errors, e.key = key := by
  rw [CachedModule.Carries, h]

theorem carries_of_error {m : CachedModule} {key : ErrorKey} {message : Str}
    (h : m.safety = .analysisError message) : m.Carries key := by
  rw [CachedModule.Carries, h]
  trivial

theorem key_eq_iff {a b : SafetyError} : a.sortKey = b.sortKey ↔ a.key = b.key := by
  simp [SafetyError.sortKey, SafetyError.key]

/-- Joining two lists of errors loses no error but for its range. -/
theorem exists_mem_mergeErrors {target other : List SafetyError} {key : ErrorKey} :
    (∃ e ∈ mergeErrors target other, e.key = key) ↔
      (∃ e ∈ target, e.key = key) ∨ ∃ e ∈ other, e.key = key := by
  have hsplit : (∃ e ∈ target ++ other, e.key = key) ↔
      (∃ e ∈ target, e.key = key) ∨ ∃ e ∈ other, e.key = key := by
    simp only [List.mem_append, or_and_right, exists_or]
  rw [← hsplit]
  constructor
  · rintro ⟨e, he, hkey⟩
    exact ⟨e, (insertionSort.mem_sortOn (k := SafetyError.sortKey)).mp
      ((List.destutter_sublist _ _).subset he), hkey⟩
  · rintro ⟨e, he, rfl⟩
    obtain ⟨e', he', hkey⟩ := exists_mem_destutter (g := SafetyError.sortKey)
      ((insertionSort.mem_sortOn (k := SafetyError.sortKey)).mpr he)
    exact ⟨e', he', key_eq_iff.mp hkey⟩

theorem carries_merge (S : UnstableSort) (a b : CachedModule) (key : ErrorKey) :
    (a.merge S b).Carries key ↔ a.Carries key ∨ b.Carries key := by
  cases ha : a.safety with
  | analysisError message =>
    have hmerged : (a.merge S b).safety = .analysisError message := by
      rw [CachedModule.merge, ha]
      rfl
    exact iff_of_true (carries_of_error hmerged) (Or.inl (carries_of_error ha))
  | ok this =>
    cases hb : b.safety with
    | analysisError message =>
      have hmerged : (a.merge S b).safety = .analysisError message := by
        rw [CachedModule.merge, ha, hb]
        rfl
      exact iff_of_true (carries_of_error hmerged) (Or.inr (carries_of_error hb))
    | ok other =>
      have hmerged : (a.merge S b).safety = (CachedSafety.ok this).merge (.ok other) := by
        rw [CachedModule.merge, ha, hb]
      rw [carries_of_ok hmerged, carries_of_ok ha, carries_of_ok hb]
      exact exists_mem_mergeErrors

/-- A joined record carries what one of the records carries. -/
theorem carries_mergeRecords {S : UnstableSort} {first : CachedModule}
    {rest : List CachedModule} {key : ErrorKey} :
    (mergeRecords S first rest).Carries key ↔ ∃ r ∈ first :: rest, r.Carries key :=
  exists_mergeRecords (p := fun r => r.Carries key) fun a b => carries_merge S a b key

/-- What no guard wrote outlives the drop. -/
theorem carries_dropMainGuarded {m : CachedModule} {key : ErrorKey} (h : m.Carries key)
    (hguard : key.2.2.2 = false) : (dropMainGuarded m).2.Carries key := by
  cases hsafety : m.safety with
  | analysisError message =>
    have hdropped : (dropMainGuarded m).2.safety = .analysisError message := by
      unfold dropMainGuarded
      rw [hsafety]
    exact carries_of_error hdropped
  | ok safety =>
    obtain ⟨e, he, hkey⟩ := (carries_of_ok hsafety).mp h
    have hdropped : (dropMainGuarded m).2.safety = .ok
        { safety with
          errors := safety.errors.filter fun e => !e.fromMainGuard
          forceImportsEagerOverrides :=
            safety.forceImportsEagerOverrides.filter fun e => !e.fromMainGuard } := by
      unfold dropMainGuarded
      rw [hsafety]
      rfl
    refine (carries_of_ok hdropped).mpr ⟨e, List.mem_filter.mpr ⟨he, ?_⟩, hkey⟩
    have hflag : e.fromMainGuard = false := by
      rw [← hguard, ← hkey]
      rfl
    rw [hflag]
    rfl

/-- An error that no missing import could have caused is in no clearing's reach. -/
theorem carries_settle {shared : SharedFacts} {m : CachedModule} {key : ErrorKey}
    (h : m.Carries key) (hkind : key.1.couldBeCausedByMissingImport = false) :
    (shared.settle m).Carries key := by
  cases hsafety : m.safety with
  | analysisError message => exact carries_of_error (SharedFacts.safety_settle_of_error hsafety)
  | ok safety =>
    obtain ⟨e, he, rfl⟩ := (carries_of_ok hsafety).mp h
    refine (carries_of_ok (SharedFacts.safety_settle hsafety)).mpr
      ⟨e, mem_settledErrors.mpr (Or.inl ⟨he, fun hcleared => ?_⟩), rfl⟩
    exact Bool.eq_false_iff.mp hkind hcleared.1

theorem isSafe_of_carries {m : CachedModule} {key : ErrorKey} (h : m.Carries key) :
    m.safety.isSafe = false := by
  cases hsafety : m.safety with
  | analysisError message => rfl
  | ok safety =>
    obtain ⟨e, he, -⟩ := (carries_of_ok hsafety).mp h
    rw [CachedSafety.isSafe, List.isEmpty_eq_false_iff]
    exact List.ne_nil_of_mem he

/-! ## The graph -/

/-- The record of a module as `resolve` enters it. -/
def CachedModule.entered (mainModule : Option ModuleName) (m : CachedModule) : CachedModule :=
  match mainModule with
  | none => m
  | some main => if m.name ≠ main then (dropMainGuarded m).2 else m

@[simp] theorem CachedModule.name_entered (mainModule : Option ModuleName) (m : CachedModule) :
    (m.entered mainModule).name = m.name := by
  cases mainModule with
  | none => rfl
  | some main =>
    rw [entered]
    split
    · exact name_dropMainGuarded m
    · rfl

theorem ReduceWorkspace.modules_entered (w : ReduceWorkspace) (mainModule : Option ModuleName) :
    (w.entered mainModule).modules = w.cache.modules.map (CachedModule.entered mainModule) := by
  unfold ReduceWorkspace.entered LibraryCache.applyMainModule
  cases mainModule with
  | none => exact (List.map_id _).symm
  | some main => rfl

/-- What a guard wrote of this module is dropped: it is not the one run as `__main__`. -/
def DropsGuard (mainModule : Option ModuleName) (m : ModuleName) : Prop :=
  ∃ main, mainModule = some main ∧ m ≠ main

/-- The target is not dropped with the guards: none are, or some record has it outside. -/
def KeptTarget (mainModule : Option ModuleName) (records : List CachedModule)
    (m n : ModuleName) : Prop :=
  DropsGuard mainModule m → ∃ r ∈ records, n ∉ r.mainGuard.imports

theorem CachedModule.entered_of_drops {mainModule : Option ModuleName} {m : CachedModule}
    (h : DropsGuard mainModule m.name) : m.entered mainModule = (dropMainGuarded m).2 := by
  obtain ⟨main, rfl, hne⟩ := h
  exact if_pos hne

theorem CachedModule.entered_of_not_drops {mainModule : Option ModuleName} {m : CachedModule}
    (h : ¬DropsGuard mainModule m.name) : m.entered mainModule = m := by
  cases mainModule with
  | none => rfl
  | some main => exact if_neg fun hne => h ⟨main, rfl, hne⟩

section Entered

variable {S : UnstableSort} {mainModule : Option ModuleName} {first : CachedModule}
  {rest : List CachedModule} {name n : ModuleName}

/-- What is kept is what no guard of the joined record holds. -/
theorem keptTarget_iff (hname : (mergeRecords S first rest).name = name) :
    KeptTarget mainModule (first :: rest) name n ↔
      (DropsGuard mainModule (mergeRecords S first rest).name →
        n ∉ (mergeRecords S first rest).mainGuard.imports) := by
  rw [KeptTarget, hname, mem_mainGuard_mergeRecords]
  simp only [not_forall, exists_prop]

/-- The edges of a joined record as it is entered. -/
theorem edges_entered (mainModule : Option ModuleName)
    (hname : (mergeRecords S first rest).name = name) (n : ModuleName) :
    (n ∈ ((mergeRecords S first rest).entered mainModule).imports ↔
      (∃ r ∈ first :: rest, n ∈ r.imports) ∧ KeptTarget mainModule (first :: rest) name n) ∧
    (n ∈ ((mergeRecords S first rest).entered mainModule).ambiguousImports ↔
      (∃ r ∈ first :: rest, n ∈ r.ambiguousImports) ∧
        KeptTarget mainModule (first :: rest) name n) ∧
    (n ∈ ((mergeRecords S first rest).entered mainModule).missingImports ↔
      (∀ r ∈ first :: rest, n ∈ r.missingImports) ∧
        KeptTarget mainModule (first :: rest) name n) := by
  rw [keptTarget_iff hname, ← mem_imports_mergeRecords (S := S),
    ← mem_ambiguousImports_mergeRecords (S := S), ← mem_missingImports_mergeRecords (S := S)]
  generalize mergeRecords S first rest = m
  by_cases hguard : DropsGuard mainModule m.name
  · rw [CachedModule.entered_of_drops hguard, imports_dropMainGuarded,
      ambiguousImports_dropMainGuarded, missingImports_dropMainGuarded]
    simp [hguard, MainGuardFacts.unguarded]
  · rw [CachedModule.entered_of_not_drops hguard]
    simp [hguard]

end Entered

/-- The targets of a module that resolving makes an edge: some record has it as ambiguous, or
every record as missing. -/
def ToResolve (named : List CachedModule) (t : ModuleName) : Prop :=
  (∃ r ∈ named, t ∈ r.ambiguousImports) ∨ ∀ r ∈ named, t ∈ r.missingImports

/-- The edges a module ends with, read off the records: those some record has, and what the
targets to resolve resolve to, but for the module itself. -/
def EdgeOfRecords (mainModule : Option ModuleName) (records : List CachedModule)
    (m n : ModuleName) : Prop :=
  let named := recordsNamed records m
  ((∃ r ∈ named, n ∈ r.imports) ∧ KeptTarget mainModule named m n) ∨
    n ≠ m ∧ ∃ t, ToResolve named t ∧ KeptTarget mainModule named m t ∧
      LongestMerged (moduleNames records).toFinset t n

/-- The missing imports a module ends with: every record misses it, and no module or package
of the merge is a prefix of it. -/
def MissingOfRecords (mainModule : Option ModuleName) (records : List CachedModule)
    (m n : ModuleName) : Prop :=
  let named := recordsNamed records m
  ((∀ r ∈ named, n ∈ r.missingImports) ∧ KeptTarget mainModule named m n) ∧
    ∀ p ∈ (moduleNames records).toFinset, ¬DottedPrefix p n

section Graph

variable {S : UnstableSort} {caches : List BuiltCache} {graph : StubGraph} {w : ReduceWorkspace}
  {mainModule : Option ModuleName}

theorem moduleNames_resolve (w : ReduceWorkspace) (mainModule : Option ModuleName) :
    moduleNames (w.resolve mainModule).cache.modules = moduleNames w.cache.modules := by
  rw [ReduceWorkspace.modules_resolve, ReduceWorkspace.modules_entered, moduleNames,
    moduleNames, List.map_map, List.map_map]
  refine List.map_congr_left fun m _ => ?_
  simp

/-- A resolved module is the join of its records, entered and settled. -/
theorem MergedFrom.exists_records (hmerged : MergedFrom S caches graph w) {final : CachedModule}
    (hfinal : final ∈ (w.resolve mainModule).cache.modules) :
    ∃ first rest, (first :: rest) ~ recordsNamed (deliveredRecords caches graph) final.name ∧
      (mergeRecords S first rest).name = final.name ∧
      final = (w.shared mainModule).settle ((mergeRecords S first rest).entered mainModule) := by
  rw [ReduceWorkspace.modules_resolve, ReduceWorkspace.modules_entered, List.map_map] at hfinal
  obtain ⟨m, hm, rfl⟩ := List.mem_map.mp hfinal
  obtain ⟨first, rest, hperm, rfl⟩ := hmerged.joins m hm
  have hname : ((w.shared mainModule).settle ((mergeRecords S first rest).entered
      mainModule)).name = (mergeRecords S first rest).name := by simp
  refine ⟨first, rest, ?_, hname.symm, rfl⟩
  rw [Function.comp_apply, hname]
  exact hperm

/-- The edges and the missing imports of a resolved module. -/
theorem MergedFrom.edges (hmerged : MergedFrom S caches graph w) {final : CachedModule}
    (hfinal : final ∈ (w.resolve mainModule).cache.modules) (n : ModuleName) :
    (n ∈ final.imports ↔
      EdgeOfRecords mainModule (deliveredRecords caches graph) final.name n) ∧
    (n ∈ final.missingImports ↔
      MissingOfRecords mainModule (deliveredRecords caches graph) final.name n) := by
  obtain ⟨first, rest, hperm, hname, heq⟩ := hmerged.exists_records hfinal
  -- the order of the joined records has no part in what they have
  have hsome : ∀ q : CachedModule → Prop, (∃ r ∈ first :: rest, q r) ↔
      ∃ r ∈ recordsNamed (deliveredRecords caches graph) final.name, q r := fun q =>
    exists_congr fun r => and_congr_left fun _ => hperm.mem_iff
  have hall : ∀ q : CachedModule → Prop, (∀ r ∈ first :: rest, q r) ↔
      ∀ r ∈ recordsNamed (deliveredRecords caches graph) final.name, q r := fun q =>
    forall_congr' fun r => imp_congr_left hperm.mem_iff
  have hkept : ∀ t, KeptTarget mainModule (first :: rest) final.name t ↔
      KeptTarget mainModule (recordsNamed (deliveredRecords caches graph) final.name)
        final.name t := fun t => imp_congr_right fun _ => hsome _
  have hnames : (w.shared mainModule).facts.moduleNames =
      (moduleNames (deliveredRecords caches graph)).toFinset := by
    rw [ReduceWorkspace.moduleNames_shared]
    ext p
    rw [List.mem_toFinset, List.mem_toFinset, hmerged.names]
  have himports := fun t => (edges_entered mainModule hname t).1
  have hambiguous := fun t => (edges_entered mainModule hname t).2.1
  have hmissing := fun t => (edges_entered mainModule hname t).2.2
  have hedges := SharedFacts.edges_settle (w.shared mainModule)
    ((mergeRecords S first rest).entered mainModule)
  rw [← heq, hnames] at hedges
  have hown : ((mergeRecords S first rest).entered mainModule).name = final.name := by
    rw [CachedModule.name_entered, hname]
  constructor
  · rw [hedges.1, mem_imports_resolveImports, himports, hown, EdgeOfRecords, hsome, hkept]
    refine or_congr Iff.rfl (and_congr_right fun _ => exists_congr fun t => ?_)
    rw [hambiguous, hmissing, ← or_and_right, hsome, hall, hkept, ToResolve, and_assoc]
  · rw [hedges.2, mem_missingImports_resolveImports, hmissing, hall, hkept]
    exact Iff.rfl

/-- An edge of the program is an import of a resolved module, and goes to one. -/
theorem imports_fromCache {c : ResolvedCache} {m n : ModuleName} :
    (ResolvedProgram.fromCache c).importGraph.Imports m n ↔
      n ∈ moduleNames c.cache.modules ∧
        ∃ final ∈ c.cache.modules, final.name = m ∧ n ∈ final.imports := by
  show (m, n) ∈ cachedEdges c.cache.modules ↔ _
  rw [cachedEdges, List.mem_flatMap]
  constructor
  · rintro ⟨final, hfinal, hedge⟩
    obtain ⟨target, htarget, heq⟩ := List.mem_map.mp hedge
    obtain ⟨himport, hnode⟩ := List.mem_filter.mp htarget
    cases heq
    exact ⟨of_decide_eq_true hnode, final, hfinal, rfl, (Finset.mem_sort _).mp himport⟩
  · rintro ⟨hnode, final, hfinal, rfl, himport⟩
    refine ⟨final, hfinal, List.mem_map.mpr ⟨n, List.mem_filter.mpr ⟨?_, ?_⟩, rfl⟩⟩
    · exact (Finset.mem_sort _).mpr himport
    · exact decide_eq_true hnode

theorem missing_fromCache {c : ResolvedCache} {m n : ModuleName} :
    n ∈ (ResolvedProgram.fromCache c).importGraph.missing.setAt m ↔
      ∃ final ∈ c.cache.modules, final.name = m ∧ n ∈ final.missingImports := by
  show n ∈ (Table.empty.extendAll (c.cache.modules.map fun m =>
    (m.name, m.missingImports))).setAt m ↔ _
  rw [Table.mem_setAt_extendAll]
  constructor
  · rintro (hempty | ⟨w, hw, hname, hmissing⟩)
    · exact absurd hempty (by simp [Table.setAt])
    · obtain ⟨final, hfinal, rfl⟩ := List.mem_map.mp hw
      exact ⟨final, hfinal, hname, hmissing⟩
  · rintro ⟨final, hfinal, hname, hmissing⟩
    exact Or.inr ⟨_, List.mem_map_of_mem hfinal, hname, hmissing⟩

/-- The import graph of what a merge resolves to, read off the records of the caches: which
modules there are, which of them imports which, and what is missing. So it depends neither on
the order in which the caches come, nor on a cache that comes twice, nor on how the merge is
split or breaks ties. -/
theorem reduced_graph (S : UnstableSort) (cache : BuiltCache) (rest : List BuiltCache)
    (graph : StubGraph) (division : Division) (mainModule : Option ModuleName) :
    ∃ w, ReduceWorkspace.merge S (cache :: rest) graph division = some w ∧
      let p := ResolvedProgram.fromCache (w.resolve mainModule)
      let records := deliveredRecords (cache :: rest) graph
      (∀ n, n ∈ p.nodes ↔ n ∈ moduleNames records) ∧
      (∀ m n, p.importGraph.Imports m n ↔ m ∈ moduleNames records ∧ n ∈ moduleNames records ∧
        EdgeOfRecords mainModule records m n) ∧
      ∀ m n, n ∈ p.importGraph.missing.setAt m ↔ m ∈ moduleNames records ∧
        MissingOfRecords mainModule records m n := by
  obtain ⟨w, hw, hmerged⟩ := exists_mergedFrom S (List.cons_ne_nil cache rest) graph division
  have hnodes : ∀ n, n ∈ moduleNames (w.resolve mainModule).cache.modules ↔
      n ∈ moduleNames (deliveredRecords (cache :: rest) graph) := fun n => by
    rw [moduleNames_resolve, hmerged.names]
  refine ⟨w, hw, hnodes, fun m n => ?_, fun m n => ?_⟩
  · rw [imports_fromCache, hnodes]
    constructor
    · rintro ⟨hn, final, hfinal, rfl, himport⟩
      exact ⟨(hnodes _).mp (List.mem_map_of_mem hfinal), hn,
        ((hmerged.edges hfinal n).1).mp himport⟩
    · rintro ⟨hm, hn, hedge⟩
      obtain ⟨final, hfinal, rfl⟩ := mem_moduleNames.mp ((hnodes m).mpr hm)
      exact ⟨hn, final, hfinal, rfl, ((hmerged.edges hfinal n).1).mpr hedge⟩
  · rw [missing_fromCache]
    constructor
    · rintro ⟨final, hfinal, rfl, hmissing⟩
      exact ⟨(hnodes _).mp (List.mem_map_of_mem hfinal),
        ((hmerged.edges hfinal n).2).mp hmissing⟩
    · rintro ⟨hm, hmissing⟩
      obtain ⟨final, hfinal, rfl⟩ := mem_moduleNames.mp ((hnodes m).mpr hm)
      exact ⟨final, hfinal, rfl, ((hmerged.edges hfinal n).2).mpr hmissing⟩

end Graph

/-! ## From a record to the policy -/

theorem carries_entered {mainModule : Option ModuleName} {m : CachedModule} {key : ErrorKey}
    (h : m.Carries key) (hguard : key.2.2.2 = false ∨ ¬DropsGuard mainModule m.name) :
    (m.entered mainModule).Carries key := by
  by_cases hdrops : DropsGuard mainModule m.name
  · rw [CachedModule.entered_of_drops hdrops]
    exact carries_dropMainGuarded h (hguard.resolve_right (not_not_intro hdrops))
  · rw [CachedModule.entered_of_not_drops hdrops]
    exact h

theorem failing_fromCache {c : ResolvedCache} {final : CachedModule}
    (hfinal : final ∈ c.cache.modules) (hstub : final.name ∉ c.graphOnlyStubs)
    (hsafe : final.safety.isSafe = false) :
    final.name ∈ (ResolvedProgram.fromCache c).failing := by
  refine mem_foldl_classifyModule.2.mpr (Or.inr ⟨(final.name, final.safety), ?_, rfl, hsafe⟩)
  exact List.mem_map.mpr ⟨final, List.mem_filter.mpr ⟨hfinal, decide_eq_true hstub⟩, rfl⟩

theorem exists_of_mem_passing {c : ResolvedCache} {m : ModuleName}
    (hm : m ∈ (ResolvedProgram.fromCache c).passing) :
    ∃ final ∈ c.cache.modules, final.name = m := by
  rcases mem_foldl_classifyModule.1.mp hm with hempty | ⟨result, hresult, hname, -⟩
  · exact absurd hempty (Finset.notMem_empty m)
  · obtain ⟨final, hfinal, rfl⟩ := List.mem_map.mp hresult
    exact ⟨final, (List.mem_filter.mp hfinal).1, hname⟩

/-- The keys of the sets the policy ends with are passing modules. -/
theorem PolicyRun.passing_of_mem_final {p : ResolvedProgram} {sccs : List (List ModuleName)}
    {s : Stages} (h : PolicyRun p sccs s) {m : ModuleName} (hm : m ∈ s.final.keys) :
    m ∈ p.passing := by
  have hcycle := h.keysOk_scanned.pass h.cycleDeps fun _ => passing_of_mem_cycleDepWrites
  have hentry := hcycle.pass h.entryGuards fun _ => passing_of_mem_entryGuardWrites
  have himplicit := hentry.pass h.implicit fun _ => passing_of_mem_implicitWrites
  have hchains := himplicit.pass h.chains fun _ => passing_of_mem_chainWrites
  have hfinal := hchains.pass h.final fun _ => passing_of_mem_sideEffectWrites
  exact hfinal.passing m hm

/-- A recorded module is one of the resolved cache. -/
theorem name_mem_resolve {S : UnstableSort} {caches : List BuiltCache} {graph : StubGraph}
    {mainModule : Option ModuleName} {w : ReduceWorkspace}
    (hmerged : MergedFrom S caches graph w) {r : CachedModule} (hr : r ∈ recordsOfCaches caches) :
    r.name ∈ moduleNames (w.resolve mainModule).cache.modules := by
  rw [moduleNames_resolve, hmerged.names, mem_moduleNames_deliveredRecords]
  exact Or.inl (List.mem_map_of_mem hr)

/-- A module fails when one of its records has a finding that no missing import could have caused
and that is not dropped with the guards. -/
theorem failing_of_carries {S : UnstableSort} {caches : List BuiltCache} {graph : StubGraph}
    {mainModule : Option ModuleName} {w : ReduceWorkspace}
    (hmerged : MergedFrom S caches graph w) {r : CachedModule} (hr : r ∈ recordsOfCaches caches)
    {key : ErrorKey} (hcarries : r.Carries key)
    (hkind : key.1.couldBeCausedByMissingImport = false)
    (hguard : key.2.2.2 = false ∨ ¬DropsGuard mainModule r.name) :
    r.name ∈ (ResolvedProgram.fromCache (w.resolve mainModule)).failing := by
  have hrecorded : r.name ∈ moduleNames (recordsOfCaches caches) := List.mem_map_of_mem hr
  obtain ⟨final, hfinal, hname⟩ := mem_moduleNames.mp (name_mem_resolve hmerged hr)
  obtain ⟨first, rest, hperm, hjoined, heq⟩ := hmerged.exists_records hfinal
  -- the finding goes from the record to the join, past the guards and the clearings
  have hmem : r ∈ first :: rest := by
    rw [hperm.mem_iff, hname, recordsNamed_deliveredRecords hrecorded]
    exact List.mem_filter.mpr ⟨hr, decide_eq_true rfl⟩
  have hjoin : (mergeRecords S first rest).Carries key :=
    carries_mergeRecords.mpr ⟨r, hmem, hcarries⟩
  have hentered : ((mergeRecords S first rest).entered mainModule).Carries key := by
    refine carries_entered hjoin ?_
    rw [hjoined, hname]
    exact hguard
  have hsettled : final.Carries key := by
    rw [heq]
    exact carries_settle hentered hkind
  have hstub : final.name ∉ (w.resolve mainModule).graphOnlyStubs := by
    rw [hname]
    exact fun h => ((hmerged.stubs _).mp h).2 hrecorded
  rw [← hname]
  exact failing_fromCache hfinal hstub (isSafe_of_carries hsettled)

/-- A finding that one library records of a module, an analysis that failed or an error that no
missing import could have caused, and that is not dropped with the guards. Whatever the other
libraries record, the module fails, it gets no lazy-import set, and each passing module that
imports it is guarded by it. -/
theorem reported_module_stays_out (S : UnstableSort) {caches : List BuiltCache}
    (graph : StubGraph) (division : Division) (mainModule : Option ModuleName)
    {r : CachedModule} (hr : r ∈ recordsOfCaches caches) {key : ErrorKey}
    (hcarries : r.Carries key) (hkind : key.1.couldBeCausedByMissingImport = false)
    (hguard : key.2.2.2 = false ∨ ¬DropsGuard mainModule r.name) :
    ∃ w, ReduceWorkspace.merge S caches graph division = some w ∧
      ∀ sccs s, PolicyRun (ResolvedProgram.fromCache (w.resolve mainModule)) sccs s →
        r.name ∈ (ResolvedProgram.fromCache (w.resolve mainModule)).failing ∧
        r.name ∉ s.final.keys ∧
        ∀ m ∈ (ResolvedProgram.fromCache (w.resolve mainModule)).passing,
          EdgeOfRecords mainModule (deliveredRecords caches graph) m r.name →
            r.name ∈ s.final.setAt m := by
  have hne : caches ≠ [] := by
    rintro rfl
    exact absurd hr List.not_mem_nil
  obtain ⟨w, hw, hmerged⟩ := exists_mergedFrom S hne graph division
  refine ⟨w, hw, fun sccs s hrun => ?_⟩
  have hfailing := failing_of_carries hmerged hr hcarries hkind hguard
  refine ⟨hfailing, fun hkey => ?_, fun m hm hedge => ?_⟩
  · exact Finset.disjoint_left.mp (ResolvedProgram.classified_once _) hfailing
      (hrun.passing_of_mem_final hkey)
  · obtain ⟨importer, himporter, rfl⟩ := exists_of_mem_passing hm
    have himports : (ResolvedProgram.fromCache (w.resolve mainModule)).importGraph.Imports
        importer.name r.name :=
      imports_fromCache.mpr
        ⟨name_mem_resolve hmerged hr, importer, himporter, rfl, ((hmerged.edges himporter _).1).mpr hedge⟩
    exact hrun.mem_final_of_scanDep (List.mem_map_of_mem himporter) hm
      (Or.inl ⟨himports, hfailing⟩)

/-- What the first library of the sample records of the module. -/
def finalizerRecord : CachedModule :=
  { CachedModule.empty (fromStr "lib") with
    safety := .ok { errors := [ReduceWorkspace.finalizer] } }

/-- A module that imports it. -/
def importsFinalizer : CachedModule :=
  { CachedModule.empty (fromStr "app") with imports := {fromStr "lib"} }

/-- A library whose module has a class with a finalizer, and one that has nothing against the
module, and a module that imports it. -/
def finalizerCaches : List BuiltCache :=
  [⟨{ modules := [finalizerRecord] }, ⟨by decide, ⟨by decide, by decide⟩⟩⟩,
    ⟨{ modules := [importsFinalizer, CachedModule.empty (fromStr "lib")] },
      ⟨by decide, ⟨by decide, by decide⟩⟩⟩]

/-- The module of the sample has no lazy-import set, and is in that of the module that
imports it. -/
theorem reported_module_stays_out_finalizer :
    ∃ w, ReduceWorkspace.merge insertionSort finalizerCaches ⟨[], by decide⟩ .fold = some w ∧
      fromStr "lib" ∉
        (policy (ResolvedProgram.fromCache (w.resolve (some (fromStr "app")))) []).final.keys ∧
      fromStr "lib" ∈
        (policy (ResolvedProgram.fromCache (w.resolve (some (fromStr "app")))) []).final.setAt
          (fromStr "app") := by
  have hrecord : finalizerRecord ∈ recordsOfCaches finalizerCaches :=
    List.mem_flatMap.mpr ⟨_, List.mem_cons_self, List.mem_cons_self⟩
  have hcarries : finalizerRecord.Carries ReduceWorkspace.finalizer.key :=
    ⟨ReduceWorkspace.finalizer, List.mem_cons_self, rfl⟩
  have hpassing : (ReduceWorkspace.merge insertionSort finalizerCaches ⟨[], by decide⟩
      .fold).map (fun w => decide (fromStr "app" ∈
        (ResolvedProgram.fromCache (w.resolve (some (fromStr "app")))).passing)) = some true := by
    decide +kernel
  have himporter : importsFinalizer ∈ recordsOfCaches finalizerCaches :=
    List.mem_flatMap.mpr ⟨_, List.mem_cons_of_mem _ List.mem_cons_self, List.mem_cons_self⟩
  have hedge : EdgeOfRecords (some (fromStr "app"))
      (deliveredRecords finalizerCaches ⟨[], by decide⟩) (fromStr "app") (fromStr "lib") := by
    refine Or.inl ⟨⟨importsFinalizer, mem_recordsNamed.mpr
      ⟨List.mem_append_left _ himporter, rfl⟩, by decide⟩, ?_⟩
    rintro ⟨main, hmain, hne⟩
    exact absurd (Option.some.inj hmain) hne
  obtain ⟨w, hw, hout⟩ := reported_module_stays_out insertionSort ⟨[], by decide⟩ .fold
    (some (fromStr "app")) hrecord hcarries rfl (Or.inl rfl)
  obtain ⟨-, hnoSet, hguarded⟩ := hout [] _ (policyRun_policy _ [])
  rw [hw, Option.map_some] at hpassing
  exact ⟨w, hw, hnoSet, hguarded _ (of_decide_eq_true (Option.some.inj hpassing)) hedge⟩

end Lifeguard
