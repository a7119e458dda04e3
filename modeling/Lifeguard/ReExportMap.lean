import Lifeguard.Cache
import Lifeguard.Lib.Chain
import Lifeguard.Lib.Growth

/-!
# The re-export map

A module that re-exports a name brings in the module the name comes from. The policy asks,
for each module, which failing modules its re-exports end at (`output/policy.rs`,
`exports.rs`). There are two ways to find out: from the live exports, by a loop that
follows each chain on its own (`buildReExportMap`), and from the cached records, in
parallel, each worker remembering the ends of the chains it has followed
(`buildReExportMapFromCache`).

- `ReExports.table`: the re-exports of either representation;
- `ReExports.EndSource`: a re-export of the module has a chain that ends in the other;
- `mem_buildReExportMap`, `mem_buildReExportMapFromCache`: both maps hold exactly the
  failing modules that chains end in, whatever the order and the split into workers.

The memo of a worker is right about every index it holds (`MemoOk`); a chain that runs
into a cycle has no end, and every index on the way is remembered as having none.
-/

namespace Lifeguard

open Lib Relation

/-- `ReExports`: the live exports or the cached records, each name being re-exported as
one other. -/
inductive ReExports
  | whole (reExports : Table Attribute Attribute)
  | cached (reExports : List CachedReExport)
      (nodup : (reExports.map CachedReExport.exported).Nodup)

/-- The pairs of a list of records. -/
def reExportPairs (reExports : List CachedReExport) : List (Attribute × Attribute) :=
  reExports.map fun re => (re.exported, re.imported)

/-- What each re-exported name stands for. -/
def ReExports.table : ReExports → Table Attribute Attribute
  | .whole reExports => reExports
  | .cached reExports _ => Table.ofList (reExportPairs reExports)

/-- A re-export of the module has a chain that ends at a name of `source`. -/
def EndSource (table : Table Attribute Attribute) (m source : ModuleName) : Prop :=
  ∃ attr target last, table.get? (m, attr) = some target ∧
    EndsAt table.get? target last ∧ last.1 = source

/-! ## From the live exports -/

/-- `resolve_transitive`: the end of a chain, and none when the chain has a cycle. -/
def resolveTransitive (reExports : Table Attribute Attribute) (name : Attribute) :
    Option Attribute :=
  follow reExports.get? (reExports.keys.length + 1) ∅ name

theorem resolveTransitive_eq_some {table : Table Attribute Attribute} {name last : Attribute} :
    resolveTransitive table name = some last ↔ EndsAt table.get? name last := by
  refine follow_eq_some (s := table.keys.toFinset) ?_ ?_
  · intro c d hcd
    exact List.mem_toFinset.mpr (Table.mem_keys.mpr (by rw [hcd]; rfl))
  · exact Nat.lt_succ_of_le (List.toFinset_card_le _)

/-- What one re-export adds to the map: the failing module its chain ends in. -/
def reExportWrite (failing : Finset ModuleName) (m : ModuleName)
    (source : Option ModuleName) : Option (ModuleName × Finset ModuleName) :=
  match source with
  | some source => if source ∈ failing then some (m, {source}) else none
  | none => none

/-- `build_re_export_map`, the re-exports visited in the order given. -/
def buildReExportMap (reExports : Table Attribute Attribute)
    (order : List (Attribute × Attribute)) (failing : Finset ModuleName) :
    Table ModuleName (Finset ModuleName) :=
  Table.empty.extendAll (order.filterMap fun re =>
    reExportWrite failing re.1.1 ((resolveTransitive reExports re.2).map Prod.fst))

theorem reExportWrite_eq_some {failing : Finset ModuleName} {m : ModuleName}
    {source : Option ModuleName} {w : ModuleName × Finset ModuleName} :
    reExportWrite failing m source = some w ↔ ∃ s ∈ failing, source = some s ∧ w = (m, {s}) := by
  unfold reExportWrite
  cases source with
  | none => simp
  | some s =>
    show (if s ∈ failing then some (m, {s}) else none) = some w ↔ _
    by_cases hs : s ∈ failing
    · rw [if_pos hs]
      constructor
      · intro h
        exact ⟨s, hs, rfl, (Option.some.inj h).symm⟩
      · rintro ⟨s', _, heq, rfl⟩
        rw [Option.some.inj heq]
    · rw [if_neg hs]
      constructor
      · intro h
        exact absurd h (by simp)
      · rintro ⟨s', hs', heq, _⟩
        exact absurd (Option.some.inj heq ▸ hs') hs

/-- The map from the live exports. -/
theorem mem_buildReExportMap {table : Table Attribute Attribute}
    {order : List (Attribute × Attribute)} (horder : order.Perm table.entries)
    {failing : Finset ModuleName} {m s : ModuleName} :
    s ∈ (buildReExportMap table order failing).setAt m ↔
      s ∈ failing ∧ EndSource table m s := by
  rw [buildReExportMap, Table.mem_setAt_extendAll]
  constructor
  · rintro (hempty | ⟨w, hw, rfl, hs⟩)
    · exact absurd hempty (by simp [Table.setAt])
    · obtain ⟨⟨⟨m, attr⟩, target⟩, hre, hwrite⟩ := List.mem_filterMap.mp hw
      obtain ⟨s', hfail, hend, rfl⟩ := reExportWrite_eq_some.mp hwrite
      obtain ⟨last, hlast, rfl⟩ := Option.map_eq_some_iff.mp hend
      have heq := Finset.mem_singleton.mp hs
      subst heq
      exact ⟨hfail, attr, target, last, Table.mem_entries.mp (horder.mem_iff.mp hre),
        resolveTransitive_eq_some.mp hlast, rfl⟩
  · rintro ⟨hfail, attr, target, last, hget, hends, rfl⟩
    refine Or.inr ⟨(m, {last.1}), ?_, rfl, Finset.mem_singleton_self _⟩
    refine List.mem_filterMap.mpr
      ⟨((m, attr), target), horder.mem_iff.mpr (Table.mem_entries.mpr hget), ?_⟩
    refine reExportWrite_eq_some.mpr ⟨last.1, hfail, ?_, rfl⟩
    rw [resolveTransitive_eq_some.mpr hends]
    rfl

/-! ## From the cached records -/

/-- What a worker remembers: for the index of a record, the module its chain ends in. -/
abbrev ChainMemo := Table Nat (Option ModuleName)

/-- The index of the record that exports a name. -/
def chainIndex (reExports : List CachedReExport) : Table Attribute Nat :=
  Table.ofList (reExports.zipIdx.map fun re => (re.1.exported, re.2))

/-- The loop of `resolve_reexport_chain`: from a name on, with the indices on the path
(`path` and `visited` hold the same ones). -/
def walkChain (reExports : List CachedReExport) (chain : Table Attribute Nat)
    (memo : ChainMemo) : Nat → List Nat → Attribute → Option ModuleName × List Nat
  | 0, path, _ => (none, path)
  | fuel + 1, path, current =>
    match chain.get? current with
    | none => (some current.1, path)
    | some idx =>
      match memo.get? idx with
      | some cached => (cached, path)
      | none =>
        if idx ∈ path then (none, path)
        else
          match reExports[idx]? with
          | none => (none, path)
          | some re => walkChain reExports chain memo fuel (path ++ [idx]) re.imported

/-- `resolve_reexport_chain`: the end of the chain of a record, with what the worker
remembers after it. -/
def resolveReexportChain (reExports : List CachedReExport) (chain : Table Attribute Nat)
    (memo : ChainMemo) (start : Nat) : Option ModuleName × ChainMemo :=
  match memo.get? start with
  | some cached => (cached, memo)
  | none =>
    match reExports[start]? with
    | none => (none, memo)
    | some re =>
      let out := walkChain reExports chain memo (reExports.length + 1) [] re.imported
      (out.1, out.2.foldl (fun memo idx => memo.insert idx out.1) (memo.insert start out.1))

/-- `ChainScratch`: the memo and the map of one worker. -/
structure ChainScratch where
  map : Table ModuleName (Finset ModuleName) := Table.empty
  memo : ChainMemo := Table.empty

/-- A worker's step: the record at an index. -/
def resolveRecord (reExports : List CachedReExport) (failing : Finset ModuleName)
    (acc : ChainScratch) (start : Nat) : ChainScratch :=
  let out := resolveReexportChain reExports (chainIndex reExports) acc.memo start
  match reExports[start]? with
  | none => acc
  | some re =>
    { map := acc.map.extendAll (reExportWrite failing re.exportedModule out.1).toList
      memo := out.2 }

/-- The union of two workers' maps. -/
def unionMaps (a b : Table ModuleName (Finset ModuleName)) : Table ModuleName (Finset ModuleName) :=
  a.extendAll b.entries

/-- `build_re_export_map_from_cache`, with the indices each worker goes through, in order. -/
def buildReExportMapFromCache (reExports : List CachedReExport) (chunks : List (List Nat))
    (failing : Finset ModuleName) : Table ModuleName (Finset ModuleName) :=
  (chunks.map fun chunk => (chunk.foldl (resolveRecord reExports failing) {}).map).foldl
    unionMaps Table.empty

section Cached

variable {reExports : List CachedReExport}

theorem keys_reExportPairs :
    (reExportPairs reExports).map Prod.fst = reExports.map CachedReExport.exported := by
  rw [reExportPairs, List.map_map]
  rfl

theorem get?_reExportTable (hkeys : (reExports.map CachedReExport.exported).Nodup)
    {a b : Attribute} :
    (Table.ofList (reExportPairs reExports)).get? a = some b ↔
      ∃ re ∈ reExports, re.exported = a ∧ re.imported = b := by
  rw [Table.get?_ofList (by rwa [keys_reExportPairs]), reExportPairs, List.mem_map]
  simp [Prod.ext_iff]

theorem get?_chainIndex (hkeys : (reExports.map CachedReExport.exported).Nodup)
    {a : Attribute} {idx : Nat} :
    (chainIndex reExports).get? a = some idx ↔
      ∃ re, reExports[idx]? = some re ∧ re.exported = a := by
  have hfst : ((reExports.zipIdx.map fun re => (re.1.exported, re.2)).map Prod.fst) =
      reExports.map CachedReExport.exported := by
    rw [List.map_map, ← List.zipIdx_map_fst 0 reExports, List.map_map]
    simp
  rw [chainIndex, Table.get?_ofList (by rwa [hfst]), List.mem_map]
  constructor
  · rintro ⟨⟨re, i⟩, hmem, heq⟩
    cases heq
    exact ⟨re, List.mem_zipIdx_iff_getElem?.mp hmem, rfl⟩
  · rintro ⟨re, hget, rfl⟩
    exact ⟨(re, idx), List.mem_zipIdx_iff_getElem?.mpr hget, rfl⟩

/-- The module the chain from a name ends in, and none when it has no end. -/
def Answers (next : Attribute → Option Attribute) (name : Attribute) (answer : Option ModuleName) :
    Prop :=
  ∀ s, answer = some s ↔ ∃ last, EndsAt next name last ∧ last.1 = s

theorem Answers.of_leads {next : Attribute → Option Attribute} {a b : Attribute}
    {answer : Option ModuleName} (h : ReflTransGen (Leads next) a b)
    (hb : Answers next b answer) : Answers next a answer := by
  intro s
  rw [hb s]
  simp [endsAt_of_leads h]

/-- Everything remembered is right. -/
def MemoOk (reExports : List CachedReExport) (memo : ChainMemo) : Prop :=
  ∀ idx answer, memo.get? idx = some answer → ∃ re, reExports[idx]? = some re ∧
    Answers (Table.ofList (reExportPairs reExports)).get? re.imported answer

section Steps

variable {chain : Table Attribute Nat} {memo : ChainMemo} {fuel idx : Nat} {path : List Nat}
  {current : Attribute}

theorem walkChain_stop (hchain : chain.get? current = none) :
    walkChain reExports chain memo (fuel + 1) path current = (some current.1, path) := by
  simp only [walkChain, hchain]

theorem walkChain_cached {cached : Option ModuleName} (hchain : chain.get? current = some idx)
    (hmemo : memo.get? idx = some cached) :
    walkChain reExports chain memo (fuel + 1) path current = (cached, path) := by
  simp only [walkChain, hchain, hmemo]

theorem walkChain_cycle (hchain : chain.get? current = some idx) (hmemo : memo.get? idx = none)
    (hseen : idx ∈ path) :
    walkChain reExports chain memo (fuel + 1) path current = (none, path) := by
  simp only [walkChain, hchain, hmemo, if_pos hseen]

theorem walkChain_step {re : CachedReExport} (hchain : chain.get? current = some idx)
    (hmemo : memo.get? idx = none) (hseen : idx ∉ path) (hget : reExports[idx]? = some re) :
    walkChain reExports chain memo (fuel + 1) path current =
      walkChain reExports chain memo fuel (path ++ [idx]) re.imported := by
  simp only [walkChain, hchain, hmemo, if_neg hseen, hget]

end Steps

/-- What the loop answers, and what it may remember of the path it took. -/
theorem walkChain_spec (hkeys : (reExports.map CachedReExport.exported).Nodup)
    {memo : ChainMemo} (hmemo : MemoOk reExports memo) (fuel : Nat) (path : List Nat)
    (current : Attribute) (hnodup : path.Nodup) (hfuel : reExports.length < path.length + fuel)
    (hpath : ∀ idx ∈ path, ∃ re, reExports[idx]? = some re ∧
      ReflTransGen (Leads (Table.ofList (reExportPairs reExports)).get?) re.imported current) :
    let next := (Table.ofList (reExportPairs reExports)).get?
    let out := walkChain reExports (chainIndex reExports) memo fuel path current
    Answers next current out.1 ∧ ∀ idx ∈ out.2, ∃ re, reExports[idx]? = some re ∧
      Answers next re.imported out.1 := by
  intro next
  -- the indices on the path are answered as the current name is
  have hanswer : ∀ {current : Attribute} {path : List Nat} {answer : Option ModuleName},
      Answers next current answer →
      (∀ idx ∈ path, ∃ re, reExports[idx]? = some re ∧
        ReflTransGen (Leads next) re.imported current) →
      ∀ idx ∈ path, ∃ re, reExports[idx]? = some re ∧ Answers next re.imported answer := by
    intro current path answer hcurrent hpath idx hidx
    obtain ⟨re, hget, hleads⟩ := hpath idx hidx
    exact ⟨re, hget, hcurrent.of_leads hleads⟩
  induction fuel generalizing path current with
  | zero =>
    -- there are no more indices than records
    have hsub : path.length ≤ reExports.length := by
      have hrange : path ⊆ List.range reExports.length := by
        intro idx hidx
        obtain ⟨re, hget, _⟩ := hpath idx hidx
        exact List.mem_range.mpr (List.getElem?_eq_some_iff.mp hget).1
      have := (hnodup.subperm hrange).length_le
      rwa [List.length_range] at this
    omega
  | succ fuel ih =>
    cases hchain : (chainIndex reExports).get? current with
    | none =>
      have hstop : next current = none := by
        cases hnext : next current with
        | none => rfl
        | some b =>
          obtain ⟨re, hre, hexp, _⟩ := (get?_reExportTable hkeys).mp hnext
          obtain ⟨idx, hidx⟩ := List.mem_iff_getElem?.mp hre
          exact absurd (hchain.symm.trans ((get?_chainIndex hkeys).mpr ⟨re, hidx, hexp⟩))
            (by simp)
      have hcurrent : Answers next current (some current.1) := by
        intro s
        simp [endsAt_stop hstop]
      rw [walkChain_stop hchain]
      exact ⟨hcurrent, hanswer hcurrent hpath⟩
    | some idx =>
      obtain ⟨re, hget, hexp⟩ := (get?_chainIndex hkeys).mp hchain
      have hstep : Leads next current re.imported :=
        (get?_reExportTable hkeys).mpr ⟨re, List.mem_of_getElem? hget, hexp, rfl⟩
      cases hcached : memo.get? idx with
      | some cached =>
        obtain ⟨re', hget', hre'⟩ := hmemo idx cached hcached
        have heq := Option.some.inj (hget.symm.trans hget')
        have hcurrent : Answers next current cached := (heq ▸ hre').of_leads (.single hstep)
        rw [walkChain_cached hchain hcached]
        exact ⟨hcurrent, hanswer hcurrent hpath⟩
      | none =>
        by_cases hseen : idx ∈ path
        · -- the chain came back to a record on its path: it has no end
          obtain ⟨re', hget', hleads⟩ := hpath idx hseen
          have heq := Option.some.inj (hget.symm.trans hget')
          have hcycle : TransGen (Leads next) current current :=
            TransGen.head' hstep (heq ▸ hleads)
          have hcurrent : Answers next current none := by
            intro s
            simp [not_endsAt_of_cycle hcycle]
          rw [walkChain_cycle hchain hcached hseen]
          exact ⟨hcurrent, hanswer hcurrent hpath⟩
        · rw [walkChain_step hchain hcached hseen hget]
          obtain ⟨hend, hpath'⟩ := ih (path ++ [idx]) re.imported
            (List.nodup_append.mpr ⟨hnodup, List.nodup_singleton idx, fun a ha b hb heq =>
              hseen (List.mem_singleton.mp hb ▸ heq ▸ ha)⟩)
            (by rw [List.length_append, List.length_singleton]; omega)
            (by
              intro i hi
              rcases List.mem_append.mp hi with hold | hnew
              · obtain ⟨re', hget', hleads⟩ := hpath i hold
                exact ⟨re', hget', hleads.tail hstep⟩
              · exact ⟨re, List.mem_singleton.mp hnew ▸ hget, .refl⟩)
          exact ⟨hend.of_leads (.single hstep), hpath'⟩

theorem MemoOk.insert {memo : ChainMemo} (h : MemoOk reExports memo) {idx : Nat}
    {answer : Option ModuleName} {re : CachedReExport} (hget : reExports[idx]? = some re)
    (hanswer : Answers (Table.ofList (reExportPairs reExports)).get? re.imported answer) :
    MemoOk reExports (memo.insert idx answer) := by
  intro i a hi
  rw [Table.get?_insert] at hi
  split at hi
  · next heq => exact ⟨re, heq ▸ hget, Option.some.inj hi ▸ hanswer⟩
  · exact h i a hi

theorem MemoOk.foldl {memo : ChainMemo} (h : MemoOk reExports memo) {path : List Nat}
    {answer : Option ModuleName}
    (hpath : ∀ idx ∈ path, ∃ re, reExports[idx]? = some re ∧
      Answers (Table.ofList (reExportPairs reExports)).get? re.imported answer) :
    MemoOk reExports (path.foldl (fun memo idx => memo.insert idx answer) memo) := by
  induction path generalizing memo with
  | nil => exact h
  | cons idx rest ih =>
    obtain ⟨re, hget, hanswer⟩ := hpath idx List.mem_cons_self
    exact ih (h.insert hget hanswer) fun i hi => hpath i (List.mem_cons_of_mem idx hi)

/-- The chain of a record, from any state of the memo that is right, is answered as
following it step by step would, and the memo stays right. -/
theorem resolveReexportChain_spec (hkeys : (reExports.map CachedReExport.exported).Nodup)
    {memo : ChainMemo} (hmemo : MemoOk reExports memo) {start : Nat} {re : CachedReExport}
    (hget : reExports[start]? = some re) :
    let out := resolveReexportChain reExports (chainIndex reExports) memo start
    Answers (Table.ofList (reExportPairs reExports)).get? re.imported out.1 ∧
      MemoOk reExports out.2 := by
  simp only [resolveReexportChain]
  cases hcached : memo.get? start with
  | some cached =>
    obtain ⟨re', hget', hanswer⟩ := hmemo start cached hcached
    exact ⟨Option.some.inj (hget.symm.trans hget') ▸ hanswer, hmemo⟩
  | none =>
    simp only [hget]
    obtain ⟨hanswer, hpath⟩ := walkChain_spec hkeys hmemo (reExports.length + 1) []
      re.imported List.nodup_nil (by simp) (by simp)
    exact ⟨hanswer, (hmemo.insert hget hanswer).foldl hpath⟩

/-- A worker's map after some indices: what it was, and the failing ends of their chains. -/
theorem resolveRecords_spec (hkeys : (reExports.map CachedReExport.exported).Nodup)
    {failing : Finset ModuleName} {chunk : List Nat} {acc : ChainScratch}
    (hmemo : MemoOk reExports acc.memo) {m s : ModuleName} :
    s ∈ (chunk.foldl (resolveRecord reExports failing) acc).map.setAt m ↔
      s ∈ acc.map.setAt m ∨ ∃ idx ∈ chunk, ∃ re, reExports[idx]? = some re ∧
        re.exportedModule = m ∧ s ∈ failing ∧ ∃ last,
          EndsAt (Table.ofList (reExportPairs reExports)).get? re.imported last ∧ last.1 = s := by
  induction chunk generalizing acc with
  | nil => simp
  | cons start rest ih =>
    rw [List.foldl_cons, List.exists_mem_cons_iff]
    cases hget : reExports[start]? with
    | none =>
      have hsame : resolveRecord reExports failing acc start = acc := by
        simp only [resolveRecord, hget]
      rw [hsame, ih hmemo]
      simp
    | some re =>
      obtain ⟨hanswer, hmemo'⟩ := resolveReexportChain_spec hkeys hmemo hget
      generalize hout : resolveReexportChain reExports (chainIndex reExports) acc.memo start = out
        at hanswer hmemo'
      have hnext : resolveRecord reExports failing acc start =
          { map := acc.map.extendAll (reExportWrite failing re.exportedModule out.1).toList
            memo := out.2 } := by
        simp only [resolveRecord, hget, hout]
      have hwrite : (∃ w ∈ (reExportWrite failing re.exportedModule out.1).toList,
          w.1 = m ∧ s ∈ w.2) ↔ re.exportedModule = m ∧ s ∈ failing ∧ out.1 = some s := by
        simp only [Option.mem_toList, reExportWrite_eq_some]
        constructor
        · rintro ⟨w, ⟨s', hfail, hend, rfl⟩, hm, hs⟩
          have heq := Finset.mem_singleton.mp hs
          subst heq
          exact ⟨hm, hfail, hend⟩
        · rintro ⟨hm, hfail, hend⟩
          exact ⟨(re.exportedModule, {s}), ⟨s, hfail, hend, rfl⟩, hm,
            Finset.mem_singleton_self s⟩
      rw [hnext, ih hmemo', Table.mem_setAt_extendAll, hwrite, hanswer s, or_assoc]
      simp

theorem mem_unionMaps {a b : Table ModuleName (Finset ModuleName)} {m s : ModuleName} :
    s ∈ (unionMaps a b).setAt m ↔ s ∈ a.setAt m ∨ s ∈ b.setAt m := by
  rw [unionMaps, Table.mem_setAt_extendAll]
  refine or_congr_right ?_
  constructor
  · rintro ⟨⟨k, set⟩, hentry, rfl, hs⟩
    rw [Table.setAt_of_get? (Table.mem_entries.mp hentry)]
    exact hs
  · intro hs
    cases hget : b.get? m with
    | none => simp [Table.setAt, hget] at hs
    | some set =>
      rw [Table.setAt_of_get? hget] at hs
      exact ⟨(m, set), Table.mem_entries.mpr hget, rfl, hs⟩

theorem mem_foldl_unionMaps {maps : List (Table ModuleName (Finset ModuleName))}
    {acc : Table ModuleName (Finset ModuleName)} {m s : ModuleName} :
    s ∈ (maps.foldl unionMaps acc).setAt m ↔ s ∈ acc.setAt m ∨ ∃ t ∈ maps, s ∈ t.setAt m := by
  induction maps generalizing acc with
  | nil => simp
  | cons t rest ih => rw [List.foldl_cons, ih, mem_unionMaps, List.exists_mem_cons_iff, or_assoc]

/-- The map from the cached records: every index goes to one worker. -/
theorem mem_buildReExportMapFromCache
    (hkeys : (reExports.map CachedReExport.exported).Nodup) {chunks : List (List Nat)}
    (hchunks : chunks.flatten.Perm (List.range reExports.length))
    {failing : Finset ModuleName} {m s : ModuleName} :
    s ∈ (buildReExportMapFromCache reExports chunks failing).setAt m ↔
      s ∈ failing ∧ EndSource (Table.ofList (reExportPairs reExports)) m s := by
  have hempty : MemoOk reExports ({} : ChainScratch).memo := by
    intro idx answer h
    exact absurd h (by simp)
  have hindex : ∀ idx, (∃ chunk ∈ chunks, idx ∈ chunk) ↔ idx < reExports.length := by
    intro idx
    rw [← List.mem_range, ← hchunks.mem_iff, List.mem_flatten]
  rw [buildReExportMapFromCache, mem_foldl_unionMaps]
  simp only [List.mem_map, exists_exists_and_eq_and, resolveRecords_spec hkeys hempty]
  constructor
  · rintro (h | ⟨chunk, hchunk, h | ⟨idx, hidx, re, hget, hm, hfail, last, hends, hlast⟩⟩)
    · exact absurd h (by simp [Table.setAt])
    · exact absurd h (by simp [Table.setAt])
    · refine ⟨hfail, re.exportedAttr, re.imported, last, ?_, hends, hlast⟩
      exact (get?_reExportTable hkeys).mpr
        ⟨re, List.mem_of_getElem? hget, Prod.ext hm rfl, rfl⟩
  · rintro ⟨hfail, attr, target, last, hget, hends, hlast⟩
    obtain ⟨re, hre, hexp, rfl⟩ := (get?_reExportTable hkeys).mp hget
    obtain ⟨idx, hidx⟩ := List.mem_iff_getElem?.mp hre
    obtain ⟨chunk, hchunk, hmem⟩ := (hindex idx).mpr (List.getElem?_eq_some_iff.mp hidx).1
    exact Or.inr ⟨chunk, hchunk, Or.inr ⟨idx, hmem, re, hidx, congrArg Prod.fst hexp, hfail,
      last, hends, hlast⟩⟩

end Cached

end Lifeguard
