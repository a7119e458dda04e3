import Lifeguard.CacheWire
import Lifeguard.Lib.Compaction
import Mathlib.Data.List.Destutter

/-!
# Joining the records of a module

A module that several libraries contain has a record in each of their caches
(`cache/merge.rs`, `cache/main_guard.rs`). `CachedModule::merge` joins two of them: edges
are unioned, while missing imports and the edges only a `__main__` guard writes are
intersected. `drop_main_guarded` takes out what a guard wrote, for a module that is not
run as `__main__`.

- `mergeRecords`: the records of a group joined in turn; `mem_imports_mergeRecords` and the
  lemmas beside it say what each set of the result holds;
- `mergeDuplicateModules_eq`: the compaction in place of the records sorted by name joins
  the records of each name in turn, and drops none;
- `imports_dropMainGuarded`, `ambiguousImports_dropMainGuarded`: the edges the drop keeps.
-/

namespace Lifeguard

open Lib

variable (S : UnstableSort)

/-! ## The join -/

/-- `merge_errors`: a stable sort, and then one error of each run of equal ones. -/
def mergeErrors (target other : List SafetyError) : List SafetyError :=
  (insertionSort.sortOn SafetyError.sortKey (target ++ other)).destutter
    fun a b => a.sortKey ≠ b.sortKey

/-- `CachedSafety::merge`: an analysis error is kept over everything else. -/
def CachedSafety.merge (self other : CachedSafety) : CachedSafety :=
  match self, other with
  | analysisError message, _ => analysisError message
  | ok _, analysisError message => analysisError message
  | ok this, ok other =>
    ok
      { errors := mergeErrors this.errors other.errors
        forceImportsEagerOverrides :=
          mergeErrors this.forceImportsEagerOverrides other.forceImportsEagerOverrides
        implicitImports :=
          (insertionSort.sortOn (fun n : ModuleName => n)
            (this.implicitImports ++ other.implicitImports)).destutter (· ≠ ·) }

/-- `MainGuardFacts::merge`: one record that writes an edge outside a guard is enough to
keep it. -/
def MainGuardFacts.merge (self other : MainGuardFacts) : MainGuardFacts where
  imports := self.imports.filter (· ∈ other.imports)

/-- `extend_deduped`: append the items that are not there yet. -/
def extendDeduped {α : Type} [DecidableEq α] (target other : List α) : List α :=
  other.foldl (fun kept item => if item ∈ kept then kept else kept ++ [item]) target

/-- `CachedModule::merge`. -/
def CachedModule.merge (self other : CachedModule) : CachedModule where
  name := self.name
  safety := self.safety.merge other.safety
  imports := self.imports ∪ other.imports
  missingImports := self.missingImports.filter (· ∈ other.missingImports)
  ambiguousImports := self.ambiguousImports ∪ other.ambiguousImports
  sideEffectImports := self.sideEffectImports ∪ other.sideEffectImports
  functionSafety := other.functionSafety.entries.foldl
    (fun fs e => fs.upsert e.1 (fun existing => existing.mergeRef e.2) e.2) self.functionSafety
  mutationCandidates := extendDeduped self.mutationCandidates other.mutationCandidates
  propertyCandidates :=
    (S.sortOn PropertyCandidate.sortKey
      (self.propertyCandidates ++ other.propertyCandidates)).destutter (· ≠ ·)
  subclassCandidates :=
    (S.sortOn SubclassCandidate.sortKey
      (self.subclassCandidates ++ other.subclassCandidates)).destutter (· ≠ ·)
  mainGuard := self.mainGuard.merge other.mainGuard

/-- The records of a module, joined into the first. -/
def mergeRecords (first : CachedModule) (rest : List CachedModule) : CachedModule :=
  rest.foldl (CachedModule.merge S) first

/-- `CachedModule::empty`. -/
def CachedModule.empty (name : ModuleName) : CachedModule := { name }

/-- `merge_duplicate_modules`, of modules sorted by name: a compaction in place. No result is
an index out of range. -/
def mergeDuplicateModules (modules : List CachedModule) : Option (List CachedModule) :=
  compact CachedModule.name (CachedModule.merge S) CachedModule.empty modules

/-! ## What a `__main__` guard wrote -/

/-- `retain_unguarded`, with how many items went. -/
def retainUnguarded {α : Type} (items : List α) (guarded : α → Bool) : Nat × List α :=
  let kept := items.filter fun item => !guarded item
  (items.length - kept.length, kept)

/-- The edges `drop_main_guarded` keeps of a set. -/
def MainGuardFacts.unguarded (self : MainGuardFacts) (edges : Finset ModuleName) :
    Finset ModuleName :=
  edges.filter fun m => m ∉ self.imports

/-- `drop_main_guarded`, with how much went. -/
def dropMainGuarded (m : CachedModule) : Nat × CachedModule :=
  let imports := m.mainGuard.unguarded m.imports
  let missingImports := m.mainGuard.unguarded m.missingImports
  let sideEffectImports := m.mainGuard.unguarded m.sideEffectImports
  let ambiguousImports := m.mainGuard.unguarded m.ambiguousImports
  let before := m.imports.card + m.missingImports.card + m.sideEffectImports.card +
    m.ambiguousImports.card
  let edges := before - imports.card - missingImports.card - sideEffectImports.card -
    ambiguousImports.card
  let (mutations, mutationCandidates) :=
    retainUnguarded m.mutationCandidates MutationCandidate.fromMainGuard
  let (properties, propertyCandidates) :=
    retainUnguarded m.propertyCandidates PropertyCandidate.fromMainGuard
  let (subclasses, subclassCandidates) :=
    retainUnguarded m.subclassCandidates SubclassCandidate.fromMainGuard
  let dropped := edges + mutations + properties + subclasses
  let kept : CachedModule :=
    { m with imports, missingImports, sideEffectImports, ambiguousImports,
             mutationCandidates, propertyCandidates, subclassCandidates }
  match m.safety with
  | .analysisError _ => (dropped, kept)
  | .ok safety =>
    let (errors, keptErrors) := retainUnguarded safety.errors SafetyError.fromMainGuard
    let (overrides, keptOverrides) :=
      retainUnguarded safety.forceImportsEagerOverrides SafetyError.fromMainGuard
    let keptSafety : CachedModuleSafety :=
      { safety with errors := keptErrors, forceImportsEagerOverrides := keptOverrides }
    (dropped + errors + overrides, { kept with safety := .ok keptSafety })

/-! ## The sets of a joined record -/

variable {S} {first : CachedModule} {rest : List CachedModule} {n : ModuleName}

theorem name_mergeRecords : (mergeRecords S first rest).name = first.name := by
  induction rest generalizing first with
  | nil => rfl
  | cons r rest ih => exact @ih (first.merge S r)

/-- What a join has when one of its two records does, the joined record has when one of all
does. -/
theorem exists_mergeRecords {p : CachedModule → Prop}
    (hp : ∀ a b, p (a.merge S b) ↔ p a ∨ p b) :
    p (mergeRecords S first rest) ↔ ∃ r ∈ first :: rest, p r := by
  induction rest generalizing first with
  | nil => simp [mergeRecords]
  | cons r rest ih =>
    show p (mergeRecords S (first.merge S r) rest) ↔ _
    rw [ih]
    simp only [List.exists_mem_cons_iff, hp, or_assoc]

/-- What a join has when both of its records do, the joined record has when all do. -/
theorem forall_mergeRecords {p : CachedModule → Prop}
    (hp : ∀ a b, p (a.merge S b) ↔ p a ∧ p b) :
    p (mergeRecords S first rest) ↔ ∀ r ∈ first :: rest, p r := by
  induction rest generalizing first with
  | nil => simp [mergeRecords]
  | cons r rest ih =>
    show p (mergeRecords S (first.merge S r) rest) ↔ _
    rw [ih]
    simp only [List.forall_mem_cons, hp, and_assoc]

theorem mem_imports_mergeRecords :
    n ∈ (mergeRecords S first rest).imports ↔ ∃ r ∈ first :: rest, n ∈ r.imports :=
  exists_mergeRecords (p := fun r => n ∈ r.imports) fun _ _ => Finset.mem_union

theorem mem_ambiguousImports_mergeRecords :
    n ∈ (mergeRecords S first rest).ambiguousImports ↔
      ∃ r ∈ first :: rest, n ∈ r.ambiguousImports :=
  exists_mergeRecords (p := fun r => n ∈ r.ambiguousImports) fun _ _ => Finset.mem_union

-- a module is missing only where every record misses it
theorem mem_missingImports_mergeRecords :
    n ∈ (mergeRecords S first rest).missingImports ↔
      ∀ r ∈ first :: rest, n ∈ r.missingImports :=
  forall_mergeRecords (p := fun r => n ∈ r.missingImports) fun _ _ => Finset.mem_filter

theorem mem_sideEffectImports_mergeRecords :
    n ∈ (mergeRecords S first rest).sideEffectImports ↔
      ∃ r ∈ first :: rest, n ∈ r.sideEffectImports :=
  exists_mergeRecords (p := fun r => n ∈ r.sideEffectImports) fun _ _ => Finset.mem_union

theorem mem_mainGuard_mergeRecords :
    n ∈ (mergeRecords S first rest).mainGuard.imports ↔
      ∀ r ∈ first :: rest, n ∈ r.mainGuard.imports :=
  forall_mergeRecords (p := fun r => n ∈ r.mainGuard.imports) fun _ _ => Finset.mem_filter

/-! ## The records of a sorted vector -/

/-- The compaction cuts the vector into the records of each name and joins those of one name
from left to right. Each record is in one cut and once, each name has one, and it holds all
the records of the name. -/
theorem mergeDuplicateModules_eq (S : UnstableSort) {modules : List CachedModule}
    (hsorted : modules.Pairwise fun a b => a.name ≤ b.name) :
    ∃ (groups : List (CachedModule × List CachedModule)) (merged : List CachedModule),
      mergeDuplicateModules S modules = some merged ∧
      merged = groups.map (fun g => mergeRecords S g.1 g.2) ∧
      groups.flatMap (fun g => g.1 :: g.2) = modules ∧
      (∀ g ∈ groups, g.1 :: g.2 = modules.filter fun m => decide (m.name = g.1.name)) ∧
      (merged.map CachedModule.name).Nodup ∧
      ∀ n, n ∈ merged.map CachedModule.name ↔ n ∈ modules.map CachedModule.name := by
  obtain ⟨groups, hgroups, hmerged⟩ := compact_eq_groups CachedModule.empty
    (fun a b : CachedModule => (rfl : (a.merge S b).name = a.name)) hsorted
  -- joining keeps the name of the first record
  have hnames : (groups.map fun g => mergeRecords S g.1 g.2).map CachedModule.name =
      groups.map fun g => g.1.name := by
    rw [List.map_map]
    exact List.map_congr_left fun g _ => name_mergeRecords
  refine ⟨groups, _, hmerged, rfl, hgroups.covers, fun g hg => hgroups.group_eq hg, ?_, ?_⟩
  · show ((groups.map fun g => mergeRecords S g.1 g.2).map CachedModule.name).Nodup
    rw [hnames]
    exact List.pairwise_map.mpr (hgroups.increasing.imp fun hlt => ne_of_lt hlt)
  · intro n
    show n ∈ (groups.map fun g => mergeRecords S g.1 g.2).map CachedModule.name ↔ _
    rw [hnames]
    constructor
    · intro hn
      obtain ⟨g, hg, rfl⟩ := List.mem_map.mp hn
      refine List.mem_map.mpr ⟨g.1, ?_, rfl⟩
      rw [← hgroups.covers]
      exact List.mem_flatMap.mpr ⟨g, hg, List.mem_cons_self⟩
    · intro hn
      obtain ⟨m, hm, rfl⟩ := List.mem_map.mp hn
      rw [← hgroups.covers] at hm
      obtain ⟨g, hg, hmem⟩ := List.mem_flatMap.mp hm
      refine List.mem_map.mpr ⟨g, hg, ?_⟩
      rcases List.mem_cons.mp hmem with rfl | hrest
      · rfl
      · exact (hgroups.uniform g hg m hrest).symm

/-- What one library records of the module `a`: an import, one that is missing, and an error. -/
def firstRecord : CachedModule where
  name := fromStr "a"
  safety := .ok { errors := [{ kind := .unknownFunctionCall, metadata := fromStr "lib.f" }] }
  imports := {fromStr "b"}
  missingImports := {fromStr "lib"}

/-- What another one records of it, where the import is not missing. -/
def secondRecord : CachedModule where
  name := fromStr "a"
  imports := {fromStr "lib"}
  functionSafety := Table.ofList [("f".toList, { verdict := {.unsafeIfImported} })]

/-- A module that only one library has. -/
def thirdRecord : CachedModule where
  name := fromStr "b"
  sideEffectImports := {fromStr "a"}

theorem mergeDuplicateModules_eq_two_libraries :
    ∃ (groups : List (CachedModule × List CachedModule)) (merged : List CachedModule),
      mergeDuplicateModules insertionSort [firstRecord, secondRecord, thirdRecord] =
          some merged ∧
      merged = groups.map (fun g => mergeRecords insertionSort g.1 g.2) ∧
      groups.flatMap (fun g => g.1 :: g.2) = [firstRecord, secondRecord, thirdRecord] := by
  obtain ⟨groups, merged, hmerged, heq, hcovers, _⟩ := mergeDuplicateModules_eq insertionSort
    (by
      show List.Pairwise (fun a b : CachedModule => a.name ≤ b.name)
        [firstRecord, secondRecord, thirdRecord]
      have hab : ['a'] ≤ ['b'] := by decide
      simp [firstRecord, secondRecord, thirdRecord, fromStr, hab])
  exact ⟨groups, merged, hmerged, heq, hcovers⟩

/-! ## The sets after the drop -/

variable {m : CachedModule}

theorem imports_dropMainGuarded :
    (dropMainGuarded m).2.imports = m.mainGuard.unguarded m.imports := by
  unfold dropMainGuarded
  cases m.safety <;> rfl

theorem ambiguousImports_dropMainGuarded :
    (dropMainGuarded m).2.ambiguousImports = m.mainGuard.unguarded m.ambiguousImports := by
  unfold dropMainGuarded
  cases m.safety <;> rfl

theorem missingImports_dropMainGuarded :
    (dropMainGuarded m).2.missingImports = m.mainGuard.unguarded m.missingImports := by
  unfold dropMainGuarded
  cases m.safety <;> rfl

theorem sideEffectImports_dropMainGuarded :
    (dropMainGuarded m).2.sideEffectImports = m.mainGuard.unguarded m.sideEffectImports := by
  unfold dropMainGuarded
  cases m.safety <;> rfl

end Lifeguard
