import Lifeguard.CacheRoundTrip

/-!
# One file for one cache

Two caches that say the same are to be written as the same bytes. Every sequence is sorted
by a key that tells its records apart on the wire, with one exception: mutated parameters
are sorted by their name alone, so that two of one name stay in the order in which an
unstable sort leaves them.

- `LibraryCache.DistinctParams`: no function record lists two mutated parameters of one
  name with different positions.
- `write_of_contents_eq`: such a cache is written as the same bytes in every arrangement.
- `exists_arrangement`: any other has two arrangements that are written differently.
- `wire_canonical_iff`: the two together, for every serializer and every sort.
-/

namespace Lifeguard

open Lib
open scoped List

variable {P : Postcard} {S : UnstableSort} {table : NameTable} {cache cache' : LibraryCache}
  {bytes : List UInt8}

/-- Of the parameters of one name, one position. -/
def DistinctParams (params : List MutatedParam) : Prop :=
  ∀ p ∈ params, ∀ q ∈ params, p.name = q.name → p.position = q.position

/-- No function record lists two mutated parameters of one name with different positions. -/
def LibraryCache.DistinctParams (cache : LibraryCache) : Prop :=
  ∀ m ∈ cache.modules, ∀ e ∈ m.functionSafety.entries, Lifeguard.DistinctParams e.2.mutatedParams

/-! ## Ids and names -/

theorem NameTable.id_injOn {n n' : ModuleName} (hn : n ∈ table.names)
    (h : table.id n = table.id n') : n = n' := by
  have hget := List.getElem?_idxOf hn
  by_cases hn' : n' ∈ table.names
  · have hget' := List.getElem?_idxOf hn'
    rw [show table.names.idxOf n = table.names.idxOf n' from h, hget'] at hget
    exact (Option.some.inj hget).symm
  · have hlt : table.names.idxOf n < table.names.length := List.idxOf_lt_length_of_mem hn
    rw [show table.names.idxOf n = table.names.idxOf n' from h, List.idxOf_eq_length hn'] at hlt
    exact absurd hlt (Nat.lt_irrefl _)

/-- Ids are ranks: they order the names of the table. -/
theorem NameTable.id_le_id {n n' : ModuleName} (hn : n ∈ table.names) (hn' : n' ∈ table.names)
    (h : n ≤ n') : table.id n ≤ table.id n' := by
  by_contra hlt
  have hlen : table.names.idxOf n < table.names.length := List.idxOf_lt_length_of_mem hn
  have hlen' : table.names.idxOf n' < table.names.length := List.idxOf_lt_length_of_mem hn'
  have hsorted := List.pairwise_iff_getElem.mp table.sorted _ _ hlen' hlen (Nat.lt_of_not_le hlt)
  rw [List.getElem_idxOf, List.getElem_idxOf] at hsorted
  exact absurd h (not_le_of_gt hsorted)

/-! ## Distinct names give one file -/

theorem encodeMutatedParams_congr {params params' : List MutatedParam}
    (hnames : ∀ p ∈ params, p.name ∈ table.names) (hdistinct : DistinctParams params)
    (h : params.Perm params') :
    encodeMutatedParams S table params = encodeMutatedParams S table params' := by
  have hsort := S.map_sortOn_congr (k := WireMutatedParam.name) (q := WireMutatedParam.name)
    (f := fun p => p) (fun _ => rfl) (fun a ha b hb hab => ?_)
    ((h.map (WireMutatedParam.encode table)).map fun p => p)
  · rwa [List.map_id', List.map_id'] at hsort
  · obtain ⟨p, hp, rfl⟩ := List.mem_map.mp ha
    obtain ⟨q, hq, rfl⟩ := List.mem_map.mp hb
    have hname : p.name = q.name := NameTable.id_injOn (hnames p hp) hab
    rw [WireMutatedParam.encode, WireMutatedParam.encode, hname,
      hdistinct p hp q (h.symm.subset hq) hname]

/-- Caches that say the same are written the same when the names of the mutated parameters
tell them apart. -/
theorem write_of_contents_eq (hdistinct : cache.DistinctParams)
    (h : cache.contents = cache'.contents) : write P S cache = write P S cache' := by
  refine write_congr h fun table hbuild => ?_
  have hin := interned_of_build hbuild
  obtain ⟨hmodules, hre, hrt, hbases, hcallees, hproperties⟩ := CacheView.mk.inj h
  have hmodules' := map_perm_of_forall
    (g := CachedModule.view (encodeMutatedParams S table))
    (q := CachedModule.view (encodeMutatedParams S table))
    (Multiset.coe_eq_coe.mp hmodules) fun m hm m' _ hview => by
      obtain ⟨hname, hsafety, himports, hmissing, hambiguous, hside, hguard, hfunctions,
        hmutations, hproperties, hsubclasses⟩ := ModuleContents.mk.inj hview
      have hfunctions' := map_perm_of_forall
        (g := viewFunctionSafety (encodeMutatedParams S table))
        (q := viewFunctionSafety (encodeMutatedParams S table))
        (Multiset.coe_eq_coe.mp hfunctions) fun e he e' _ heq => by
          obtain ⟨hkey, hinfo⟩ := Prod.mk.inj heq
          obtain ⟨hverdict, hcallees, hparams⟩ := InfoView.mk.inj hinfo
          rw [viewFunctionSafety, viewFunctionSafety, FunctionSafetyInfo.view,
            FunctionSafetyInfo.view, hkey, hverdict, hcallees,
            encodeMutatedParams_congr ((hin.modules m hm).functions e he).2 (hdistinct m hm e he)
              (Multiset.coe_eq_coe.mp hparams)]
      rw [CachedModule.view, CachedModule.view, hname, hsafety, himports, hmissing, hambiguous,
        hside, hguard, hmutations, hproperties, hsubclasses,
        Multiset.coe_eq_coe.mpr hfunctions']
  rw [LibraryCache.view, LibraryCache.view, hre, hrt, hbases, hcallees, hproperties,
    Multiset.coe_eq_coe.mpr hmodules']

/-! ## Equal names give two files -/

/-- Two parameters of one name can stand in either order in a list that is sorted by
name. -/
theorem exists_sorted_pair {params : List MutatedParam} {p q : MutatedParam}
    (hp : p ∈ params) (hq : q ∈ params) (hne : p ≠ q) (hname : p.name = q.name) :
    ∃ before after, params.Perm (before ++ p :: q :: after) ∧
      (before ++ p :: q :: after).Pairwise (fun a b => a.name ≤ b.name) ∧
      (before ++ q :: p :: after).Pairwise fun a b => a.name ≤ b.name := by
  have hq' : q ∈ params.erase p := (List.mem_erase_of_ne hne.symm).mpr hq
  have hrest : params.Perm (p :: q :: (params.erase p).erase q) :=
    (List.perm_cons_erase hp).trans ((List.perm_cons_erase hq').cons p)
  let rest := insertionSort.sortOn MutatedParam.name ((params.erase p).erase q)
  have hrestPerm : rest.Perm ((params.erase p).erase q) := insertionSort.sortOn_perm _ _
  have hrestSorted : rest.Pairwise fun a b => a.name ≤ b.name := insertionSort.pairwise_sortOn _ _
  -- the two go between what is not above their name and what is
  let low := rest.filter fun a => decide (a.name ≤ p.name)
  let high := rest.filter fun a => !decide (a.name ≤ p.name)
  have hsorted : ∀ x y : MutatedParam, x.name = p.name → y.name = p.name →
      (low ++ x :: y :: high).Pairwise fun a b => a.name ≤ b.name := by
    intro x y hx hy
    have hlow : ∀ a ∈ low, a.name ≤ p.name := fun a ha => of_decide_eq_true
      (List.mem_filter.mp ha).2
    have hhigh : ∀ b ∈ high, p.name ≤ b.name := fun b hb => by
      have h := (List.mem_filter.mp hb).2
      rw [Bool.not_eq_true', decide_eq_false_iff_not] at h
      exact le_of_not_ge h
    refine List.pairwise_append.mpr ⟨hrestSorted.sublist List.filter_sublist,
      List.pairwise_cons.mpr ⟨?_, List.pairwise_cons.mpr
        ⟨?_, hrestSorted.sublist List.filter_sublist⟩⟩, ?_⟩
    · intro b hb
      rcases List.mem_cons.mp hb with rfl | hb
      · rw [hx, hy]
      · rw [hx]
        exact hhigh b hb
    · intro b hb
      rw [hy]
      exact hhigh b hb
    · intro a ha b hb
      refine (hlow a ha).trans ?_
      rcases List.mem_cons.mp hb with rfl | hb
      · rw [hx]
      · rcases List.mem_cons.mp hb with rfl | hb
        · rw [hy]
        · exact hhigh b hb
  refine ⟨low, high, hrest.trans ?_, hsorted p q rfl hname.symm, hsorted q p hname.symm rfl⟩
  have hsplit : (low ++ high).Perm ((params.erase p).erase q) :=
    (List.filter_append_perm _ rest).trans hrestPerm
  calc p :: q :: (params.erase p).erase q
    _ ~ p :: q :: (low ++ high) := ((hsplit.symm.cons q).cons p)
    _ ~ p :: (low ++ q :: high) := (List.perm_middle.symm.cons p)
    _ ~ low ++ p :: q :: high := List.perm_middle.symm

/-- A list that is sorted by name is written in its order. -/
theorem encodeMutatedParams_of_pairwise {params : List MutatedParam}
    (hnames : ∀ p ∈ params, p.name ∈ table.names)
    (hsorted : params.Pairwise fun a b => a.name ≤ b.name) :
    encodeMutatedParams S table params = params.map (WireMutatedParam.encode table) := by
  refine S.sortOn_of_pairwise (List.pairwise_map.mpr ?_)
  exact hsorted.imp_of_mem fun hp hq hle => NameTable.id_le_id (hnames _ hp) (hnames _ hq) hle

/-- The module with other mutated parameters of one function. -/
def setParams (m : CachedModule) (function : Str) (params : List MutatedParam) : CachedModule :=
  { m with
    functionSafety := m.functionSafety.modify function fun info =>
      { info with mutatedParams := params } }

section SetParams

variable {m : CachedModule} {e : Str × FunctionSafetyInfo} {params params' : List MutatedParam}

theorem view_setParams (he : e ∈ m.functionSafety.entries)
    (hperm : e.2.mutatedParams.Perm params) :
    (setParams m e.1 params).view paramSet = m.view paramSet := by
  obtain ⟨before, after, hsplit⟩ := List.append_of_mem he
  have hentries := Table.entries_modify (k := e.1) (a := e.2)
    (f := fun info => { info with mutatedParams := params }) hsplit
  have hinfo : viewFunctionSafety paramSet (e.1, { e.2 with mutatedParams := params }) =
      viewFunctionSafety paramSet e := by
    refine Prod.ext rfl ?_
    show InfoView.mk _ _ (paramSet params) = InfoView.mk _ _ (paramSet e.2.mutatedParams)
    rw [paramSet, paramSet, Multiset.coe_eq_coe.mpr hperm]
  have hview : (setParams m e.1 params).functionSafety.entries.map (viewFunctionSafety paramSet) =
      m.functionSafety.entries.map (viewFunctionSafety paramSet) := by
    rw [setParams, hentries, hsplit, List.map_append, List.map_append, List.map_cons,
      List.map_cons, hinfo]
  rw [CachedModule.view, CachedModule.view, hview]
  rfl

/-- Parameters that are written differently make the module's record different. -/
theorem encodeMutatedParams_of_encode_eq (he : e ∈ m.functionSafety.entries)
    (h : WireModule.encode S table (setParams m e.1 params) =
      WireModule.encode S table (setParams m e.1 params')) :
    encodeMutatedParams S table params = encodeMutatedParams S table params' := by
  obtain ⟨before, after, hsplit⟩ := List.append_of_mem he
  have hentries : ∀ params, (setParams m e.1 params).functionSafety.entries =
      before ++ (e.1, { e.2 with mutatedParams := params }) :: after := fun params =>
    Table.entries_modify (k := e.1) (a := e.2)
      (f := fun info => { info with mutatedParams := params }) hsplit
  have hfunctions : (S.sortOn Prod.fst (setParams m e.1 params).functionSafety.entries).map
        (fun e => (e.1, WireFunctionSafetyInfo.encode S table e.2)) =
      (S.sortOn Prod.fst (setParams m e.1 params').functionSafety.entries).map
        fun e => (e.1, WireFunctionSafetyInfo.encode S table e.2) :=
    congrArg WireModule.functionSafety h
  have hperm := (((S.sortOn_perm Prod.fst _).map _).symm.trans
    (List.Perm.of_eq hfunctions)).trans ((S.sortOn_perm Prod.fst _).map _)
  -- the other entries are the same on both sides
  rw [hentries, hentries, List.map_append, List.map_append, List.map_cons, List.map_cons] at hperm
  exact congrArg (fun e => WireFunctionSafetyInfo.mutatedParams e.2) (eq_of_append_cons_perm hperm)

end SetParams

/-- The cache with other mutated parameters of one function of one of its modules. -/
theorem contents_setParams {before after : List CachedModule} {m : CachedModule}
    {e : Str × FunctionSafetyInfo} {params : List MutatedParam}
    (hmodules : cache.modules = before ++ m :: after) (he : e ∈ m.functionSafety.entries)
    (hperm : e.2.mutatedParams.Perm params) :
    ({ cache with modules := before ++ setParams m e.1 params :: after } : LibraryCache).contents =
      cache.contents := by
  have hview : (before ++ setParams m e.1 params :: after).map (CachedModule.view paramSet) =
      cache.modules.map (CachedModule.view paramSet) := by
    rw [hmodules, List.map_append, List.map_append, List.map_cons, List.map_cons,
      view_setParams he hperm]
  rw [LibraryCache.contents, LibraryCache.contents, LibraryCache.view, LibraryCache.view, hview]

/-- A record with two positions for one name can be arranged in two ways that are not
written as the same bytes. -/
theorem exists_arrangement {m : CachedModule} {e : Str × FunctionSafetyInfo}
    {p q : MutatedParam} (hm : m ∈ cache.modules) (he : e ∈ m.functionSafety.entries)
    (hp : p ∈ e.2.mutatedParams) (hq : q ∈ e.2.mutatedParams) (hname : p.name = q.name)
    (hposition : p.position ≠ q.position) :
    ∃ cache₁ cache₂ : LibraryCache, cache₁.contents = cache.contents ∧
      cache₂.contents = cache.contents ∧
        ∀ bytes, write P S cache₁ = .ok bytes → write P S cache₂ ≠ .ok bytes := by
  obtain ⟨before, after, hmodules⟩ := List.append_of_mem hm
  have hne : p ≠ q := fun heq => hposition (congrArg MutatedParam.position heq)
  obtain ⟨low, high, hperm, hsorted, hsorted'⟩ := exists_sorted_pair hp hq hne hname
  have hperm' : e.2.mutatedParams.Perm (low ++ q :: p :: high) :=
    hperm.trans ((List.Perm.swap q p high).append_left low)
  have hcontents₁ := contents_setParams hmodules he hperm
  have hcontents₂ := contents_setParams hmodules he hperm'
  refine ⟨_, _, hcontents₁, hcontents₂, fun bytes hwrite₁ hwrite₂ => ?_⟩
  obtain ⟨table, hbuild₁, hframe₁⟩ := write_eq_ok.mp hwrite₁
  obtain ⟨table₂, hbuild₂, hframe₂⟩ := write_eq_ok.mp hwrite₂
  rw [NameTable.build_congr (hcontents₂.trans hcontents₁.symm), hbuild₁] at hbuild₂
  cases hbuild₂
  have hbuild : NameTable.build S cache = .ok table := by
    rw [← hbuild₁]
    exact NameTable.build_congr hcontents₁.symm
  have hnames := ((interned_of_build hbuild).modules m hm).functions e he |>.2
  -- equal bytes hold equal blobs, so the records of the two modules are equal
  obtain ⟨-, hblobs⟩ := frame_inj hframe₁ hframe₂
  have hblobsPerm := (((S.sortOn_perm _ _).map Prod.snd).symm.trans
    (List.Perm.of_eq hblobs)).trans ((S.sortOn_perm _ _).map Prod.snd)
  rw [List.map_map, List.map_map, List.map_append, List.map_append, List.map_cons,
    List.map_cons] at hblobsPerm
  have hrecord := P.record.put_injective (eq_of_append_cons_perm hblobsPerm)
  have hparams := encodeMutatedParams_of_encode_eq he hrecord
  rw [encodeMutatedParams_of_pairwise (fun r hr => hnames r (hperm.symm.subset hr)) hsorted,
    encodeMutatedParams_of_pairwise (fun r hr => hnames r (hperm'.symm.subset hr)) hsorted',
    List.map_append, List.map_append, List.map_cons, List.map_cons] at hparams
  have hpair := (List.cons.inj (List.append_cancel_left hparams)).1
  exact hposition (congrArg WireMutatedParam.position hpair)

/-! ## When a cache is written as one file -/

theorem wire_canonical_iff (P : Postcard) (S : UnstableSort) (cache : LibraryCache) :
    (∀ cache' : LibraryCache, cache'.contents = cache.contents →
        ∀ bytes, write P S cache = .ok bytes → write P S cache' = .ok bytes) ↔
      (cache.Fits P S → cache.DistinctParams) := by
  constructor
  · intro h hfits m hm e he p hp q hq hname
    by_contra hposition
    obtain ⟨bytes, hwrite⟩ := write_isOk_iff.mpr hfits
    obtain ⟨cache₁, cache₂, hcontents₁, hcontents₂, hdiffer⟩ :=
      exists_arrangement (P := P) (S := S) hm he hp hq hname hposition
    exact hdiffer bytes (h cache₁ hcontents₁ bytes hwrite) (h cache₂ hcontents₂ bytes hwrite)
  · intro h cache' hcontents bytes hwrite
    rw [← write_of_contents_eq (h (write_isOk_iff.mp ⟨bytes, hwrite⟩)) hcontents.symm]
    exact hwrite

/-- A function whose parameter `p` is recorded with two positions. -/
def twoPositions (params : List MutatedParam) : LibraryCache where
  modules :=
    [{ name := fromStr "app"
       functionSafety := Table.ofList
         [("f".toList, { verdict := ∅, mutatedParams := params })] }]

/-- The two positions of `p`. -/
def firstPosition : MutatedParam where
  name := fromStr "p"
  position := .positional 0

def secondPosition : MutatedParam where
  name := fromStr "p"
  position := .keywordOnly

theorem contents_twoPositions {params params' : List MutatedParam} (h : params.Perm params') :
    (twoPositions params).contents = (twoPositions params').contents := by
  have hentries : ∀ info : FunctionSafetyInfo,
      (Table.ofList [("f".toList, info)]).entries = [("f".toList, info)] := fun _ =>
    Table.entries_ofList (List.nodup_singleton _)
  have hparams : paramSet params = paramSet params' := Multiset.coe_eq_coe.mpr h
  simp only [LibraryCache.contents, LibraryCache.view, twoPositions, List.map_cons, List.map_nil,
    CachedModule.view, hentries, viewFunctionSafety, FunctionSafetyInfo.view, hparams]

theorem two_positions_two_files :
    (twoPositions [firstPosition, secondPosition]).contents =
        (twoPositions [secondPosition, firstPosition]).contents ∧
      ∃ bytes bytes',
        write .standard insertionSort (twoPositions [firstPosition, secondPosition]) =
          .ok bytes ∧
        write .standard insertionSort (twoPositions [secondPosition, firstPosition]) =
          .ok bytes' ∧ bytes ≠ bytes' := by
  have hdiffer : (write .standard insertionSort
        (twoPositions [firstPosition, secondPosition])).toOption ≠
      (write .standard insertionSort
        (twoPositions [secondPosition, firstPosition])).toOption := by
    decide +kernel
  have hfirst : (write .standard insertionSort
      (twoPositions [firstPosition, secondPosition])).toOption.isSome = true := by
    decide +kernel
  have hsecond : (write .standard insertionSort
      (twoPositions [secondPosition, firstPosition])).toOption.isSome = true := by
    decide +kernel
  refine ⟨contents_twoPositions (List.Perm.swap _ _ _), ?_⟩
  cases hwrite : write .standard insertionSort (twoPositions [firstPosition, secondPosition]) with
  | error e =>
    rw [hwrite] at hfirst
    cases hfirst
  | ok bytes =>
    cases hwrite' : write .standard insertionSort
        (twoPositions [secondPosition, firstPosition]) with
    | error e =>
      rw [hwrite'] at hsecond
      cases hsecond
    | ok bytes' =>
      rw [hwrite, hwrite'] at hdiffer
      exact ⟨bytes, bytes', rfl, rfl, fun heq => hdiffer (congrArg some heq)⟩

end Lifeguard
