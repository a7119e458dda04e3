import Lifeguard.ConstructorFold
import Lifeguard.ModuleMerge
import Lifeguard.PropertyCandidates
import Lifeguard.Lib.Growth
import Lifeguard.Lib.SortDedup

/-!
# Merging library caches

How the caches of several libraries become one (`LibraryCache::merge_dep_caches` in
`cache/merge.rs`). The records are put together, sorted by name and joined; the re-exports
are collected by parallel tasks, each with a map of its own, and the maps are united in
pairs; return types and class facts are concatenated or folded.

- `foldFqnLists`, `mergeClassProperties`: the folds of the class facts;
- `Division.dedup`: the re-exports the tasks keep, the first of each exported name in the map
  of its task;
- `CachedExports.deduped_sortAndDedup`: one record for each key is left;
- `MergedModules`: the joined records, and `exists_mergeDepCaches`: the merge never fails and
  leaves them.
-/

namespace Lifeguard

open Lib

variable (S : UnstableSort)

/-! ## The class facts -/

/-- `MergedClassFacts`. -/
structure MergedClassFacts where
  classBases : ClassBases := Table.empty
  constructorCallees : ConstructorTable := Table.empty

/-- `fold_fqn_lists`: the bases of a class that are not there yet are appended. -/
def foldFqnLists (merged : ClassBases) (entries : List (ModuleName × List ModuleName)) :
    ClassBases :=
  entries.foldl (fun merged e =>
    merged.insert e.1 (extendDeduped ((merged.get? e.1).getD []) e.2)) merged

/-- `merge_class_properties`. -/
def mergeClassProperties (entries : List (ModuleName × List Str)) : ClassProperties :=
  Table.empty.extendAll (entries.map fun e => (e.1, e.2.toFinset))

/-! ## The re-exports -/

/-- `ReExportDedupMap`: one record for each exported name. -/
abbrev ReExportDedupMap := Table Attribute CachedReExport

/-- Keep a record of a name that has none yet. -/
def keepFirst (map : ReExportDedupMap) (x : Attribute) (re : CachedReExport) :
    ReExportDedupMap :=
  if (map.get? x).isSome then map else map.insert x re

/-- A task folds one batch into its map. -/
def dedupBatch (map : ReExportDedupMap) (batch : List CachedReExport) : ReExportDedupMap :=
  batch.foldl (fun map re => keepFirst map re.exported re) map

/-- Two tasks' maps united: the smaller goes into the larger. -/
def uniteMaps (a b : ReExportDedupMap) : ReExportDedupMap :=
  let (large, small) :=
    if b.entries.length ≤ a.entries.length then (a, b) else (b, a)
  small.entries.foldl (fun dst e => keepFirst dst e.1 e.2) large

/-- How the batches are divided among the tasks: one task folds them all, or the first so
many are left to some tasks and the others to more. -/
inductive Division
  | fold
  | split (count : Nat) (left right : Division)

/-- What the tasks keep of the batches. -/
def Division.dedup : Division → List (List CachedReExport) → ReExportDedupMap
  | fold, batches => batches.foldl dedupBatch Table.empty
  | split count left right, batches =>
    uniteMaps (left.dedup (batches.take count)) (right.dedup (batches.drop count))

/-! ## Sorting and dropping repeats -/

/-- What `sort_and_dedup` sorts the re-exports by. -/
def CachedReExport.sortKey (re : CachedReExport) : ModuleName ×ₗ Str ×ₗ ModuleName ×ₗ Str :=
  toLex (re.exportedModule, toLex (re.exportedAttr, toLex (re.importedModule, re.importedAttr)))

/-- What `sort_and_dedup` keeps one re-export of. -/
def CachedReExport.dedupKey (re : CachedReExport) : ModuleName ×ₗ Str :=
  toLex (re.exportedModule, re.exportedAttr)

/-- What `sort_and_dedup` sorts the return types by. -/
def CachedReturnType.sortKey (rt : CachedReturnType) : ModuleName ×ₗ ModuleName :=
  toLex (rt.function, rt.returnClass)

/-- `CachedExports::sort_and_dedup`. -/
def CachedExports.sortAndDedup (exports : CachedExports) : CachedExports where
  reExports := (insertionSort.sortOn CachedReExport.sortKey exports.reExports).destutter
    fun a b => a.dedupKey ≠ b.dedupKey
  returnTypes := (insertionSort.sortOn CachedReturnType.sortKey exports.returnTypes).destutter
    fun a b => a.function ≠ b.function

/-! ## The merge -/

namespace LibraryCache

/-- `merge_dep_caches`, with the tasks that collect the re-exports. The bases and the
constructor callees of the dependencies are folded apart from those of the cache. -/
def mergeDepCaches (cache : LibraryCache) (deps : List LibraryCache) (division : Division) :
    Option (LibraryCache × MergedClassFacts) :=
  let batches := cache.exports.reExports :: deps.map fun dep => dep.exports.reExports
  let exports : CachedExports :=
    { reExports := (division.dedup batches).entries.map Prod.snd
      returnTypes := cache.exports.returnTypes ++ deps.flatMap fun dep => dep.exports.returnTypes }
  let facts : MergedClassFacts :=
    { classBases := foldFqnLists Table.empty (deps.flatMap LibraryCache.classBases)
      constructorCallees :=
        foldConstructorCallees Table.empty (deps.flatMap LibraryCache.constructorCallees) }
  (mergeDuplicateModules S (insertionSort.sortOn CachedModule.name
    (cache.modules ++ deps.flatMap LibraryCache.modules))).map fun modules =>
      ({ cache with
          modules
          exports := exports.sortAndDedup
          classProperties := cache.classProperties ++ deps.flatMap LibraryCache.classProperties },
        facts)

end LibraryCache

/-! ## What sorting and dropping leaves -/

theorem CachedReExport.sortKey_injective : Function.Injective CachedReExport.sortKey := by
  intro a b h
  obtain ⟨em, ea, im, ia⟩ := a
  obtain ⟨em', ea', im', ia'⟩ := b
  simpa [sortKey] using h

theorem CachedReExport.dedupKey_le {a b : CachedReExport} (h : a.sortKey ≤ b.sortKey) :
    a.dedupKey ≤ b.dedupKey := by
  unfold sortKey at h
  rw [Prod.Lex.toLex_le_toLex] at h
  rw [dedupKey, dedupKey, Prod.Lex.toLex_le_toLex]
  rcases h with hlt | ⟨heq, hle⟩
  · exact Or.inl hlt
  · rw [Prod.Lex.toLex_le_toLex] at hle
    refine Or.inr ⟨heq, ?_⟩
    rcases hle with hlt | ⟨heq', -⟩
    · exact le_of_lt hlt
    · exact le_of_eq heq'

theorem CachedReturnType.sortKey_injective : Function.Injective CachedReturnType.sortKey := by
  intro a b h
  obtain ⟨f, c⟩ := a
  obtain ⟨f', c'⟩ := b
  simpa [sortKey] using h

theorem CachedReturnType.function_le {a b : CachedReturnType} (h : a.sortKey ≤ b.sortKey) :
    a.function ≤ b.function := by
  unfold sortKey at h
  rw [Prod.Lex.toLex_le_toLex] at h
  rcases h with hlt | ⟨heq, -⟩
  · exact le_of_lt hlt
  · exact le_of_eq heq

namespace CachedExports

variable {exports : CachedExports}

/-- One record for each key is left. -/
theorem deduped_sortAndDedup (exports : CachedExports) : exports.sortAndDedup.Deduped where
  reExports := by
    have hlt := pairwise_destutter (g := CachedReExport.dedupKey)
      (insertionSort.pairwise_group_sortOn (k := CachedReExport.sortKey)
        (fun _ _ => CachedReExport.dedupKey_le) exports.reExports)
    refine List.pairwise_map.mpr (hlt.imp ?_)
    intro a b hab heq
    exact ne_of_lt hab (congrArg toLex heq)
  returnTypes := by
    have hlt := pairwise_destutter (g := CachedReturnType.function)
      (insertionSort.pairwise_group_sortOn (k := CachedReturnType.sortKey)
        (fun _ _ => CachedReturnType.function_le) exports.returnTypes)
    exact List.pairwise_map.mpr (hlt.imp fun {a b} hab heq => ne_of_lt hab heq)

end CachedExports

/-! ## The joined records -/

/-- The records of a name, in their order. -/
def recordsNamed (records : List CachedModule) (n : ModuleName) : List CachedModule :=
  records.filter fun r => decide (r.name = n)

theorem mem_recordsNamed {records : List CachedModule} {n : ModuleName} {r : CachedModule} :
    r ∈ recordsNamed records n ↔ r ∈ records ∧ r.name = n := by
  rw [recordsNamed, List.mem_filter, decide_eq_true_iff]

/-- The record is that of all the records of its name, joined in their order. -/
def JoinsNamed (records : List CachedModule) (m : CachedModule) : Prop :=
  ∃ first rest, recordsNamed records m.name = first :: rest ∧ m = mergeRecords S first rest

/-- The records of each name, joined in their order; the names come sorted. -/
structure MergedModules (records merged : List CachedModule) : Prop where
  sorted : merged.Pairwise fun a b => a.name < b.name
  joins : ∀ m ∈ merged, JoinsNamed S records m
  names : ∀ n, (∃ m ∈ merged, m.name = n) ↔ ∃ r ∈ records, r.name = n

theorem MergedModules.nodup {S : UnstableSort} {records merged : List CachedModule}
    (h : MergedModules S records merged) : (merged.map CachedModule.name).Nodup :=
  List.pairwise_map.mpr (h.sorted.imp fun hlt => ne_of_lt hlt)

/-- A stable sort by name keeps the order of the records of a name. -/
theorem recordsNamed_sortOn (records : List CachedModule) (n : ModuleName) :
    recordsNamed (insertionSort.sortOn CachedModule.name records) n = recordsNamed records n := by
  have hsub : (recordsNamed records n).Sublist
      (insertionSort.sortOn CachedModule.name records) := by
    have hTotal : Std.Total fun a b : CachedModule => (decide (a.name ≤ b.name) : Prop) :=
      ⟨fun a b => by simpa using le_total a.name b.name⟩
    have hTrans : IsTrans CachedModule fun a b => (decide (a.name ≤ b.name) : Prop) :=
      ⟨fun a b c hab hbc => decide_eq_true (le_trans (of_decide_eq_true hab)
        (of_decide_eq_true hbc))⟩
    refine List.sublist_insertionSort ?_ List.filter_sublist
    refine List.pairwise_of_forall_mem_list fun a ha b hb => decide_eq_true (le_of_eq ?_)
    exact (mem_recordsNamed.mp ha).2.trans (mem_recordsNamed.mp hb).2.symm
  have hself : recordsNamed (recordsNamed records n) n = recordsNamed records n :=
    List.filter_eq_self.mpr fun r hr => decide_eq_true (mem_recordsNamed.mp hr).2
  have hsub' : (recordsNamed records n).Sublist
      (recordsNamed (insertionSort.sortOn CachedModule.name records) n) := by
    have hfilter := hsub.filter fun r => decide (r.name = n)
    rwa [show (recordsNamed records n).filter (fun r => decide (r.name = n)) =
      recordsNamed records n from hself] at hfilter
  have hlen := ((insertionSort.sortOn_perm CachedModule.name records).filter
    fun r => decide (r.name = n)).length_eq
  exact (hsub'.eq_of_length hlen.symm).symm

/-- The compaction of the sorted records joins those of each name. -/
theorem exists_mergeDuplicateModules (records : List CachedModule) :
    ∃ merged, mergeDuplicateModules S (insertionSort.sortOn CachedModule.name records) =
      some merged ∧ MergedModules S records merged := by
  obtain ⟨groups, hgroups, hmerged⟩ := compact_eq_groups CachedModule.empty
    (fun a b : CachedModule => (rfl : (a.merge S b).name = a.name))
    (insertionSort.pairwise_sortOn CachedModule.name records)
  have hname : ∀ g : CachedModule × List CachedModule,
      (g.2.foldl (CachedModule.merge S) g.1).name = g.1.name := fun g => name_mergeRecords
  refine ⟨_, hmerged, ?_, ?_, fun n => ?_⟩
  · refine List.pairwise_map.mpr (hgroups.increasing.imp fun {g g'} hlt => ?_)
    rwa [hname, hname]
  · intro m hm
    obtain ⟨g, hg, rfl⟩ := List.mem_map.mp hm
    refine ⟨g.1, g.2, ?_, rfl⟩
    rw [hname, ← recordsNamed_sortOn]
    exact (hgroups.group_eq hg).symm
  · constructor
    · rintro ⟨m, hm, rfl⟩
      obtain ⟨g, hg, rfl⟩ := List.mem_map.mp hm
      refine ⟨g.1, (insertionSort.mem_sortOn (k := CachedModule.name)).mp ?_, (hname g).symm⟩
      rw [← hgroups.covers]
      exact List.mem_flatMap.mpr ⟨g, hg, List.mem_cons_self⟩
    · rintro ⟨r, hr, rfl⟩
      have hsorted := (insertionSort.mem_sortOn (k := CachedModule.name)).mpr hr
      rw [← hgroups.covers] at hsorted
      obtain ⟨g, hg, hmem⟩ := List.mem_flatMap.mp hsorted
      refine ⟨_, List.mem_map_of_mem hg, (hname g).trans ?_⟩
      rcases List.mem_cons.mp hmem with rfl | hrest
      · rfl
      · exact (hgroups.uniform g hg r hrest).symm

namespace LibraryCache

/-- The merge never fails: it joins the records of each name, and leaves one re-export of each
name and one return type of each function. -/
theorem exists_mergeDepCaches (cache : LibraryCache) (deps : List LibraryCache)
    (division : Division) :
    ∃ merged facts, cache.mergeDepCaches S deps division = some (merged, facts) ∧
      MergedModules S (cache.modules ++ deps.flatMap LibraryCache.modules) merged.modules ∧
      merged.exports.Deduped := by
  obtain ⟨modules, hmodules, hmerged⟩ := exists_mergeDuplicateModules S
    (cache.modules ++ deps.flatMap LibraryCache.modules)
  rw [mergeDepCaches, hmodules]
  exact ⟨_, _, rfl, hmerged, CachedExports.deduped_sortAndDedup _⟩

end LibraryCache

end Lifeguard
