import Lifeguard.ReExportMap

/-!
# The cached re-export map follows chains

The two ways to the re-export map (`ReExportMap`) compared, name by name and as maps.

- `Remembered`: what a worker remembers after any records;
- `Reduced`: the workers' maps joined in any order, each time the smaller map into the larger;
- `resolveReexportChain_follows`: a worker's answer is what following the chain step by step
  finds, and none just when the chain enters a cycle;
- `cached_map_follows_chains`: the cached map is the live one.
-/

namespace Lifeguard

open Lib Relation

/-- What a worker remembers once it has gone through some records. -/
def Remembered (reExports : List CachedReExport) (failing : Finset ModuleName)
    (done : List Nat) : ChainMemo :=
  (done.foldl (resolveRecord reExports failing) {}).memo

/-- The map of a worker that has gone through some records. -/
def workerMap (reExports : List CachedReExport) (failing : Finset ModuleName)
    (chunk : List Nat) : Table ModuleName (Finset ModuleName) :=
  (chunk.foldl (resolveRecord reExports failing) {}).map

/-- Two workers' maps joined, the smaller into the larger. -/
def joinMaps (a b : Table ModuleName (Finset ModuleName)) : Table ModuleName (Finset ModuleName) :=
  if b.entries.length ≤ a.entries.length then unionMaps a b else unionMaps b a

/-- `reduce`: neighbouring maps are joined in any order, down to one. -/
inductive Reduced : List (Table ModuleName (Finset ModuleName)) →
    Table ModuleName (Finset ModuleName) → Prop
  | identity : Reduced [] Table.empty
  | single (map : Table ModuleName (Finset ModuleName)) : Reduced [map] map
  | join {left right : List (Table ModuleName (Finset ModuleName))}
      {a b : Table ModuleName (Finset ModuleName)} :
      Reduced left a → Reduced right b → Reduced (left ++ right) (joinMaps a b)

/-! ## Chains -/

/-- The chain of a name runs into a cycle. -/
def EntersCycle (table : Table Attribute Attribute) (name : Attribute) : Prop :=
  ∃ c, ReflTransGen (Leads table.get?) name c ∧ TransGen (Leads table.get?) c c

theorem endsAt_or_entersCycle (table : Table Attribute Attribute) (name : Attribute) :
    (∃ last, EndsAt table.get? name last) ∨ EntersCycle table name := by
  refine endsAt_or_cycle (s := table.keys.toFinset) ?_ name
  intro c d hcd
  exact List.mem_toFinset.mpr (Table.mem_keys.mpr (by rw [hcd]; rfl))

theorem EntersCycle.not_endsAt {table : Table Attribute Attribute} {name last : Attribute}
    (h : EntersCycle table name) : ¬EndsAt table.get? name last := by
  obtain ⟨c, hreach, hcycle⟩ := h
  exact not_endsAt_of_enters hreach hcycle

/-- The live loop answers none just when the chain enters a cycle. -/
theorem resolveTransitive_eq_none {table : Table Attribute Attribute} {name : Attribute} :
    resolveTransitive table name = none ↔ EntersCycle table name := by
  constructor
  · intro hnone
    refine (endsAt_or_entersCycle table name).resolve_left ?_
    rintro ⟨last, hends⟩
    exact absurd (hnone.symm.trans (resolveTransitive_eq_some.mpr hends)) (by simp)
  · intro hcycle
    cases h : resolveTransitive table name with
    | none => rfl
    | some last => exact absurd (resolveTransitive_eq_some.mp h) hcycle.not_endsAt

/-- A right answer is the module of what the live loop answers. -/
theorem Answers.eq_resolveTransitive {table : Table Attribute Attribute} {name : Attribute}
    {answer : Option ModuleName} (h : Answers table.get? name answer) :
    answer = (resolveTransitive table name).map Prod.fst := by
  refine Option.ext fun s => ?_
  rw [h s, Option.map_eq_some_iff]
  simp only [resolveTransitive_eq_some]

/-! ## Workers -/

section Workers

variable {reExports : List CachedReExport} {failing : Finset ModuleName}

/-- What a worker remembers is right, whatever it has gone through. -/
theorem memoOk_resolveRecords (hkeys : (reExports.map CachedReExport.exported).Nodup)
    {done : List Nat} {acc : ChainScratch} (hmemo : MemoOk reExports acc.memo) :
    MemoOk reExports (done.foldl (resolveRecord reExports failing) acc).memo := by
  induction done generalizing acc with
  | nil => exact hmemo
  | cons start rest ih =>
    refine ih ?_
    cases hget : reExports[start]? with
    | none =>
      simp only [resolveRecord, hget]
      exact hmemo
    | some re =>
      simp only [resolveRecord, hget]
      exact (resolveReexportChain_spec hkeys hmemo hget).2

theorem memoOk_remembered (hkeys : (reExports.map CachedReExport.exported).Nodup)
    {done : List Nat} : MemoOk reExports (Remembered reExports failing done) := by
  refine memoOk_resolveRecords hkeys ?_
  intro idx answer h
  exact absurd h (by simp)

/-- The answer for a record, whatever the worker has gone through before. -/
theorem resolveReexportChain_follows (hkeys : (reExports.map CachedReExport.exported).Nodup)
    {done : List Nat} {start : Nat} {re : CachedReExport} (hget : reExports[start]? = some re) :
    (resolveReexportChain reExports (chainIndex reExports)
        (Remembered reExports failing done) start).1 =
      (resolveTransitive (Table.ofList (reExportPairs reExports)) re.imported).map Prod.fst :=
  (resolveReexportChain_spec hkeys (memoOk_remembered hkeys) hget).1.eq_resolveTransitive

/-! ## Maps -/

theorem reExportWrite_nonempty {m : ModuleName} {source : Option ModuleName}
    {w : ModuleName × Finset ModuleName} (hw : reExportWrite failing m source = some w) :
    w.2.Nonempty := by
  obtain ⟨s, _, _, rfl⟩ := reExportWrite_eq_some.mp hw
  exact Finset.singleton_nonempty s

theorem full_workerMap {chunk : List Nat} : (workerMap reExports failing chunk).Full := by
  have hrun : ∀ (chunk : List Nat) (acc : ChainScratch), acc.map.Full →
      (chunk.foldl (resolveRecord reExports failing) acc).map.Full := by
    intro chunk
    induction chunk with
    | nil => exact fun _ h => h
    | cons start rest ih =>
      intro acc hacc
      refine ih _ ?_
      cases hget : reExports[start]? with
      | none =>
        simp only [resolveRecord, hget]
        exact hacc
      | some re =>
        simp only [resolveRecord, hget]
        exact hacc.extendAll fun w hw => reExportWrite_nonempty (Option.mem_toList.mp hw)
  exact hrun chunk {} Table.full_empty

theorem full_unionMaps {a b : Table ModuleName (Finset ModuleName)} (ha : a.Full) (hb : b.Full) :
    (unionMaps a b).Full := by
  refine ha.extendAll ?_
  rintro ⟨k, set⟩ hentry
  have hget := Table.mem_entries.mp hentry
  have hset := hb k (Table.mem_keys.mpr (by rw [hget]; rfl))
  rwa [Table.setAt_of_get? hget] at hset

theorem full_joinMaps {a b : Table ModuleName (Finset ModuleName)} (ha : a.Full) (hb : b.Full) :
    (joinMaps a b).Full := by
  unfold joinMaps
  split
  · exact full_unionMaps ha hb
  · exact full_unionMaps hb ha

theorem mem_joinMaps {a b : Table ModuleName (Finset ModuleName)} {m s : ModuleName} :
    s ∈ (joinMaps a b).setAt m ↔ s ∈ a.setAt m ∨ s ∈ b.setAt m := by
  unfold joinMaps
  split
  · exact mem_unionMaps
  · rw [mem_unionMaps, or_comm]

theorem Reduced.full {maps : List (Table ModuleName (Finset ModuleName))}
    {map : Table ModuleName (Finset ModuleName)} (h : Reduced maps map)
    (hmaps : ∀ t ∈ maps, t.Full) : map.Full := by
  induction h with
  | identity => exact Table.full_empty
  | single map => exact hmaps map List.mem_cons_self
  | join _ _ iha ihb =>
    exact full_joinMaps (iha fun t ht => hmaps t (List.mem_append_left _ ht))
      (ihb fun t ht => hmaps t (List.mem_append_right _ ht))

/-- However the maps are joined, the result holds what one of them holds. -/
theorem Reduced.mem {maps : List (Table ModuleName (Finset ModuleName))}
    {map : Table ModuleName (Finset ModuleName)} (h : Reduced maps map) {m s : ModuleName} :
    s ∈ map.setAt m ↔ ∃ t ∈ maps, s ∈ t.setAt m := by
  induction h with
  | identity => simp [Table.setAt]
  | single map => simp
  | join _ _ iha ihb => simp only [mem_joinMaps, iha, ihb, List.mem_append, or_and_right, exists_or]

/-- The order in which the maps are joined does not matter. -/
theorem Reduced.mem_iff {chunks : List (List Nat)} {map : Table ModuleName (Finset ModuleName)}
    (h : Reduced (chunks.map (workerMap reExports failing)) map) {m s : ModuleName} :
    s ∈ map.setAt m ↔ s ∈ (buildReExportMapFromCache reExports chunks failing).setAt m := by
  rw [h.mem, buildReExportMapFromCache, mem_foldl_unionMaps]
  simp [Table.setAt, workerMap]

theorem full_buildReExportMap {table : Table Attribute Attribute}
    {order : List (Attribute × Attribute)} : (buildReExportMap table order failing).Full := by
  refine Table.full_empty.extendAll ?_
  intro w hw
  obtain ⟨re, _, hwrite⟩ := List.mem_filterMap.mp hw
  exact reExportWrite_nonempty hwrite

end Workers

/-- Records of the live re-exports, in any order, give the same table. -/
theorem get?_live {reExports : List CachedReExport} {live : Table Attribute Attribute}
    (hlive : live.entries.Perm (reExportPairs reExports)) (name : Attribute) :
    (Table.ofList (reExportPairs reExports)).get? name = live.get? name := by
  have hkeys : ((reExportPairs reExports).map Prod.fst).Nodup :=
    (hlive.map Prod.fst).nodup_iff.mp live.keys_nodup
  refine Option.ext fun target => ?_
  rw [Table.get?_ofList hkeys, ← hlive.mem_iff, Table.mem_entries]

/-- For every list of re-exports with unique keys: a worker answers for a record, whatever it
remembers by then, what following its chain one step at a time does, which is none just when
the chain enters a cycle; and however the records are split among workers and their maps
joined, the map is the one built from the live exports, in whatever order these are visited. -/
theorem cached_map_follows_chains (reExports : List CachedReExport)
    (hkeys : (reExports.map CachedReExport.exported).Nodup) (failing : Finset ModuleName) :
    let table := Table.ofList (reExportPairs reExports)
    (∀ (done : List Nat) start re, reExports[start]? = some re →
      let answer := (resolveReexportChain reExports (chainIndex reExports)
        (Remembered reExports failing done) start).1
      (∀ s, answer = some s ↔ ∃ last, EndsAt table.get? re.imported last ∧ last.1 = s) ∧
      (answer = none ↔ EntersCycle table re.imported) ∧
      answer = (resolveTransitive table re.imported).map Prod.fst) ∧
    ∀ chunks : List (List Nat), chunks.flatten.Perm (List.range reExports.length) →
      ∀ map, Reduced (chunks.map (workerMap reExports failing)) map →
        (∀ m s, s ∈ map.setAt m ↔ s ∈ failing ∧ EndSource table m s) ∧
        ∀ live : Table Attribute Attribute, live.entries.Perm (reExportPairs reExports) →
          ∀ order, order.Perm live.entries →
            ∀ m, map.get? m = (buildReExportMap live order failing).get? m := by
  intro table
  refine ⟨?_, ?_⟩
  · intro done start re hget answer
    have hanswer : answer = (resolveTransitive table re.imported).map Prod.fst :=
      resolveReexportChain_follows hkeys hget
    refine ⟨?_, ?_, hanswer⟩
    · exact (resolveReexportChain_spec hkeys (memoOk_remembered hkeys) hget).1
    · rw [hanswer, Option.map_eq_none_iff]
      exact resolveTransitive_eq_none
  · intro chunks hchunks map hmap
    have hmem : ∀ m s, s ∈ map.setAt m ↔ s ∈ failing ∧ EndSource table m s := by
      intro m s
      rw [hmap.mem_iff]
      exact mem_buildReExportMapFromCache hkeys hchunks
    refine ⟨hmem, ?_⟩
    intro live hlive order horder m
    have hfull : map.Full := hmap.full fun t ht => by
      obtain ⟨chunk, _, rfl⟩ := List.mem_map.mp ht
      exact full_workerMap
    refine hfull.get?_congr full_buildReExportMap ?_
    intro s
    have hget : table.get? = live.get? := funext (get?_live hlive)
    rw [hmem, mem_buildReExportMap horder, EndSource, EndSource, hget]

/-- Two names that stand for one another, a third that leads to them, and one that does not. -/
def tangledReExports : List CachedReExport :=
  [⟨fromStr "a", "x".toList, fromStr "b", "x".toList⟩,
    ⟨fromStr "b", "x".toList, fromStr "a", "x".toList⟩,
    ⟨fromStr "c", "x".toList, fromStr "a", "x".toList⟩,
    ⟨fromStr "c", "y".toList, fromStr "d", "y".toList⟩]

/-- The name that leads to the cycle, after a worker has seen the cycle from within. -/
theorem cached_map_follows_chains_cycle :
    (tangledReExports.map CachedReExport.exported).Nodup ∧
      (resolveReexportChain tangledReExports (chainIndex tangledReExports)
        (Remembered tangledReExports {fromStr "d"} [1, 3]) 2).1 =
          (resolveTransitive (Table.ofList (reExportPairs tangledReExports))
            (fromStr "a", "x".toList)).map Prod.fst :=
  ⟨by decide, ((cached_map_follows_chains tangledReExports (by decide)
    {fromStr "d"}).1 [1, 3] 2 _ rfl).2.2⟩

end Lifeguard
