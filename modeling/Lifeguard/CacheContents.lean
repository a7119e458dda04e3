import Lifeguard.CacheWire

/-!
# What a cache says

Two caches say the same when they differ only in source ranges and in the order of the
collections whose order carries no meaning. `LibraryCache.contents` is a cache without
these: a collection in no order is a multiset, and a range is dropped. The mutation
candidates and the bases of one class stay lists.

- `CacheView`: a cache without ranges and orders. What stands for a list of mutated
  parameters is left open (`γ`): the multiset of them for `contents`, and for the
  comparison of two files the list that the encoder writes.
- `mem_uniqueNames`: which names a cache has depends on its contents only, so the name
  tables of two caches that say the same are one table (`build_congr`).
- `WireModule.encode_congr`, `WireHeader.encode_congr`: each record's encoding depends on
  the view only.
-/

namespace Lifeguard

open Lib

/-! ## Views -/

/-- `ImportedArgs` with its keyword names in no order. -/
structure ImportedArgsView where
  unsafeArgIndices : BitVec 64
  unsafeKeywordNames : Multiset ModuleName
  hasUnsafeKwargsExpansion : Bool
  unsafeArgsExpansionMin : Option Nat

/-- `MutationCandidate` without its range. -/
structure MutationCandidateView where
  callee : ModuleName
  site : MutationCandidateSite
  argOffset : Nat
  importedArgs : ImportedArgsView
  fromMainGuard : Bool

/-- `CachedSafety` with errors and implicit imports in no order. -/
inductive SafetyView
  | ok (errors forceImportsEagerOverrides : Multiset SerializedSafetyError)
      (implicitImports : Multiset ModuleName)
  | analysisError (message : Str)

/-- `FunctionSafetyInfo`. -/
structure InfoView (γ : Type) where
  verdict : FunctionSafety
  missingDepCallees : Finset ModuleName
  mutatedParams : γ

/-- `CachedModule`. -/
structure ModuleContents (γ : Type) where
  name : ModuleName
  safety : SafetyView
  imports : Finset ModuleName
  missingImports : Finset ModuleName
  ambiguousImports : Finset ModuleName
  sideEffectImports : Finset ModuleName
  mainGuardImports : Finset ModuleName
  functionSafety : Multiset (Str × InfoView γ)
  mutationCandidates : List MutationCandidateView
  propertyCandidates : Multiset (ModuleName × Bool)
  subclassCandidates : Multiset (ModuleName × Bool)

/-- `LibraryCache`. -/
structure CacheView (γ : Type) where
  modules : Multiset (ModuleContents γ)
  reExports : Multiset CachedReExport
  returnTypes : Multiset CachedReturnType
  classBases : Multiset (ModuleName × List ModuleName)
  constructorCallees : Multiset (ModuleName × Option ModuleName × BitVec 8 × Multiset ModuleName)
  classProperties : Multiset (ModuleName × Multiset Str)

def ImportedArgs.view (args : ImportedArgs) : ImportedArgsView where
  unsafeArgIndices := args.unsafeArgIndices
  unsafeKeywordNames := args.unsafeKeywordNames
  hasUnsafeKwargsExpansion := args.hasUnsafeKwargsExpansion
  unsafeArgsExpansionMin := args.unsafeArgsExpansionMin

def MutationCandidate.view (candidate : MutationCandidate) : MutationCandidateView where
  callee := candidate.callee
  site := candidate.site
  argOffset := candidate.argOffset
  importedArgs := candidate.importedArgs.view
  fromMainGuard := candidate.fromMainGuard

def CachedSafety.view : CachedSafety → SafetyView
  | .ok safety =>
    .ok (safety.errors.map SafetyError.serialize : List SerializedSafetyError)
      (safety.forceImportsEagerOverrides.map SafetyError.serialize : List SerializedSafetyError)
      safety.implicitImports
  | .analysisError message => .analysisError message

def PropertyCandidate.view (c : PropertyCandidate) : ModuleName × Bool :=
  (c.attributeName, c.fromMainGuard)

def SubclassCandidate.view (c : SubclassCandidate) : ModuleName × Bool :=
  (c.candidateClass, c.fromMainGuard)

def viewConstructorCallees (e : ModuleName × ConstructorCallees) :
    ModuleName × Option ModuleName × BitVec 8 × Multiset ModuleName :=
  (e.1, e.2.metaclass, e.2.mask, e.2.extra)

def viewClassProperties (e : ModuleName × List Str) : ModuleName × Multiset Str :=
  (e.1, e.2)

section View

variable {γ : Type} (viewParams : List MutatedParam → γ)

def FunctionSafetyInfo.view (info : FunctionSafetyInfo) : InfoView γ where
  verdict := info.verdict
  missingDepCallees := info.missingDepCallees
  mutatedParams := viewParams info.mutatedParams

def viewFunctionSafety (e : Str × FunctionSafetyInfo) : Str × InfoView γ :=
  (e.1, e.2.view viewParams)

def CachedModule.view (m : CachedModule) : ModuleContents γ where
  name := m.name
  safety := m.safety.view
  imports := m.imports
  missingImports := m.missingImports
  ambiguousImports := m.ambiguousImports
  sideEffectImports := m.sideEffectImports
  mainGuardImports := m.mainGuard.imports
  functionSafety := (m.functionSafety.entries.map (viewFunctionSafety viewParams) : List _)
  mutationCandidates := m.mutationCandidates.map MutationCandidate.view
  propertyCandidates := (m.propertyCandidates.map PropertyCandidate.view : List _)
  subclassCandidates := (m.subclassCandidates.map SubclassCandidate.view : List _)

def LibraryCache.view (cache : LibraryCache) : CacheView γ where
  modules := (cache.modules.map (CachedModule.view viewParams) : List _)
  reExports := cache.exports.reExports
  returnTypes := cache.exports.returnTypes
  classBases := cache.classBases
  constructorCallees := (cache.constructorCallees.map viewConstructorCallees : List _)
  classProperties := (cache.classProperties.map viewClassProperties : List _)

end View

/-- Mutated parameters in no order. -/
def paramSet (params : List MutatedParam) : Multiset MutatedParam := params

/-- What the cache says, apart from ranges and orders. -/
def LibraryCache.contents (cache : LibraryCache) : CacheView (Multiset MutatedParam) :=
  cache.view paramSet

/-- A view that is read off another agrees where the other does. -/
theorem CachedModule.view_comp {γ δ : Type} {viewParams : List MutatedParam → γ} (g : γ → δ)
    {m m' : CachedModule} (h : m.view viewParams = m'.view viewParams) :
    m.view (fun params => g (viewParams params)) =
      m'.view fun params => g (viewParams params) := by
  obtain ⟨hname, hsafety, himports, hmissing, hambiguous, hside, hguard, hfunctions, hmutations,
    hproperties, hsubclasses⟩ := ModuleContents.mk.inj h
  have hfunctions' := map_perm_of_forall
    (g := viewFunctionSafety fun params => g (viewParams params))
    (q := viewFunctionSafety fun params => g (viewParams params))
    (Multiset.coe_eq_coe.mp hfunctions) fun a _ b _ hab => by
      obtain ⟨hkey, hinfo⟩ := Prod.mk.inj hab
      obtain ⟨hverdict, hcallees, hparams⟩ := InfoView.mk.inj hinfo
      rw [viewFunctionSafety, viewFunctionSafety, FunctionSafetyInfo.view,
        FunctionSafetyInfo.view, hkey, hverdict, hcallees, hparams]
  rw [view, view, hname, hsafety, himports, hmissing, hambiguous, hside, hguard, hmutations,
    hproperties, hsubclasses, Multiset.coe_eq_coe.mpr hfunctions']

theorem LibraryCache.view_comp {γ δ : Type} {viewParams : List MutatedParam → γ} (g : γ → δ)
    {cache cache' : LibraryCache} (h : cache.view viewParams = cache'.view viewParams) :
    cache.view (fun params => g (viewParams params)) =
      cache'.view fun params => g (viewParams params) := by
  obtain ⟨hmodules, hre, hrt, hbases, hcallees, hproperties⟩ := CacheView.mk.inj h
  have hmodules' := map_perm_of_forall
    (g := CachedModule.view fun params => g (viewParams params))
    (q := CachedModule.view fun params => g (viewParams params))
    (Multiset.coe_eq_coe.mp hmodules) fun a _ b _ hab => CachedModule.view_comp g hab
  rw [view, view, hre, hrt, hbases, hcallees, hproperties, Multiset.coe_eq_coe.mpr hmodules']

/-! ## The names of a cache -/

/-- The name stands somewhere in the module record. -/
def ModuleContents.Mentions (v : ModuleContents (Multiset MutatedParam)) (n : ModuleName) : Prop :=
  n = v.name ∨ n ∈ v.imports ∨ n ∈ v.missingImports ∨ n ∈ v.ambiguousImports ∨
    n ∈ v.sideEffectImports ∨ n ∈ v.mainGuardImports ∨
    (∃ errors overrides imports, v.safety = .ok errors overrides imports ∧ n ∈ imports) ∨
    (∃ e ∈ v.functionSafety, n ∈ e.2.missingDepCallees ∨
      ∃ param ∈ e.2.mutatedParams, n = param.name) ∨
    (∃ c ∈ v.mutationCandidates, n = c.callee ∨ n = c.site.name ∨
      n ∈ c.importedArgs.unsafeKeywordNames) ∨
    (∃ c ∈ v.propertyCandidates, n = c.1) ∨ ∃ c ∈ v.subclassCandidates, n = c.1

/-- The name stands somewhere in the cache. -/
def CacheView.Mentions (v : CacheView (Multiset MutatedParam)) (n : ModuleName) : Prop :=
  (∃ m ∈ v.modules, m.Mentions n) ∨
    (∃ re ∈ v.reExports, n = re.exportedModule ∨ n = re.importedModule) ∨
    (∃ rt ∈ v.returnTypes, n = rt.function ∨ n = rt.returnClass) ∨
    (∃ e ∈ v.classBases, n = e.1 ∨ n ∈ e.2) ∨
    (∃ e ∈ v.constructorCallees, n = e.1 ∨ n ∈ e.2.1 ∨ n ∈ e.2.2.2) ∨
    ∃ e ∈ v.classProperties, n = e.1

theorem mem_collectModuleNames {m : CachedModule} {n : ModuleName} :
    n ∈ collectModuleNames m ↔ (m.view paramSet).Mentions n := by
  have hsafety : n ∈ m.safety.implicitImports ↔
      ∃ errors overrides imports, m.safety.view = .ok errors overrides imports ∧ n ∈ imports := by
    cases m.safety with
    | ok safety => simp [CachedSafety.view, CachedSafety.implicitImports]
    | analysisError message => simp [CachedSafety.view, CachedSafety.implicitImports]
  rw [collectModuleNames]
  simp only [List.mem_cons, List.mem_append, mem_elems, hsafety, List.mem_flatMap, List.mem_map,
    or_assoc]
  simp [ModuleContents.Mentions, CachedModule.view, viewFunctionSafety, FunctionSafetyInfo.view,
    paramSet, MutationCandidate.view, ImportedArgs.view, PropertyCandidate.view,
    SubclassCandidate.view, eq_comm]

/-- Which names a cache has depends on its contents only. -/
theorem LibraryCache.mem_uniqueNames {cache : LibraryCache} {n : ModuleName} :
    n ∈ cache.uniqueNames ↔ cache.contents.Mentions n := by
  rw [uniqueNames, List.mem_dedup, collectNames]
  simp only [List.mem_append, List.mem_flatMap, mem_collectModuleNames, or_assoc]
  simp [CacheView.Mentions, contents, view, viewConstructorCallees, viewClassProperties, eq_comm]

theorem LibraryCache.uniqueNames_perm {cache cache' : LibraryCache}
    (h : cache.contents = cache'.contents) : cache.uniqueNames.Perm cache'.uniqueNames := by
  refine (List.perm_ext_iff_of_nodup (List.nodup_dedup _) (List.nodup_dedup _)).mpr fun n => ?_
  show n ∈ cache.uniqueNames ↔ n ∈ cache'.uniqueNames
  rw [LibraryCache.mem_uniqueNames, LibraryCache.mem_uniqueNames, h]

namespace NameTable

variable {S : UnstableSort} {table : NameTable} {cache cache' : LibraryCache} {n n' : ModuleName}

theorem ext {t t' : NameTable} (h : t.names = t'.names) : t = t' := by
  cases t
  cases t'
  cases h
  rfl

theorem build_eq_ok :
    build S cache = .ok table ↔ cache.uniqueNames.length ≤ nameIdMax ∧
      table.names = S.sortOn (fun n : ModuleName => n) cache.uniqueNames := by
  rw [build]
  split
  · next h =>
    constructor
    · intro heq
      cases heq
      exact ⟨h, rfl⟩
    · rintro ⟨-, hnames⟩
      exact congrArg Except.ok (ext hnames.symm)
  · next h =>
    constructor
    · intro heq
      cases heq
    · rintro ⟨hfits, -⟩
      exact absurd hfits h

/-- Caches that say the same have one name table. -/
theorem build_congr (h : cache.contents = cache'.contents) : build S cache = build S cache' := by
  have hperm := LibraryCache.uniqueNames_perm h
  have hnames := S.sortOn_eq_of_perm (k := fun n : ModuleName => n) Function.injective_id hperm
  rw [build, build]
  by_cases hfits : cache.uniqueNames.length ≤ nameIdMax
  · have hfits' : cache'.uniqueNames.length ≤ nameIdMax := by rwa [← hperm.length_eq]
    rw [dif_pos hfits, dif_pos hfits']
    exact congrArg Except.ok (ext hnames)
  · have hfits' : ¬cache'.uniqueNames.length ≤ nameIdMax := by rwa [← hperm.length_eq]
    rw [dif_neg hfits, dif_neg hfits']

end NameTable

/-! ## Encodings depend on the view -/

section Congr

variable {S : UnstableSort} {table : NameTable}

theorem NameTable.encodeSorted_congr {names names' : List ModuleName}
    (h : (names : Multiset ModuleName) = names') :
    table.encodeSorted S names = table.encodeSorted S names' :=
  S.sortOn_eq_of_perm Function.injective_id ((Multiset.coe_eq_coe.mp h).map table.id)

/-- `SerializedSafetyError`s are compared by all of their fields. -/
theorem sortedErrors_congr {errors errors' : List SafetyError}
    (h : (errors.map SafetyError.serialize).Perm (errors'.map SafetyError.serialize)) :
    sortedErrors S errors = sortedErrors S errors' := by
  refine S.map_sortOn_congr (q := fun e : SerializedSafetyError =>
    (toLex (e.kind, toLex (e.metadata, toLex (e.parameterizedDecorator, e.fromMainGuard))) :
      ErrorKind ×ₗ Str ×ₗ Bool ×ₗ Bool)) (fun _ => rfl) (fun a _ b _ hab => ?_) h
  simpa [SafetyError.serialize] using hab

theorem WireSafety.encode_congr {safety safety' : CachedSafety}
    (h : safety.view = safety'.view) :
    WireSafety.encode S table safety = WireSafety.encode S table safety' := by
  cases safety with
  | analysisError message =>
    cases safety' with
    | analysisError message' =>
      cases h
      rfl
    | ok safety' => cases h
  | ok safety =>
    cases safety' with
    | analysisError message' => cases h
    | ok safety' =>
      obtain ⟨herrors, hoverrides, himports⟩ := SafetyView.ok.inj h
      show WireSafety.ok _ _ _ = WireSafety.ok _ _ _
      rw [sortedErrors_congr (Multiset.coe_eq_coe.mp herrors),
        sortedErrors_congr (Multiset.coe_eq_coe.mp hoverrides),
        NameTable.encodeSorted_congr himports]

theorem WireMutationCandidate.encode_congr {c c' : MutationCandidate} (h : c.view = c'.view) :
    WireMutationCandidate.encode S table c = WireMutationCandidate.encode S table c' := by
  have hargs : c.importedArgs.view = c'.importedArgs.view :=
    congrArg MutationCandidateView.importedArgs h
  have hwire : WireImportedArgs.encode S table c.importedArgs =
      WireImportedArgs.encode S table c'.importedArgs := by
    rw [WireImportedArgs.encode, WireImportedArgs.encode]
    obtain ⟨hindices, hnames, hkwargs, hmin⟩ := ImportedArgsView.mk.inj hargs
    rw [hindices, NameTable.encodeSorted_congr hnames, hkwargs, hmin]
  obtain ⟨hcallee, hsite, hoffset, -, hguard⟩ := MutationCandidateView.mk.inj h
  rw [WireMutationCandidate.encode, WireMutationCandidate.encode, hwire, hcallee, hsite, hoffset,
    hguard]

theorem WireFunctionSafetyInfo.encode_congr {info info' : FunctionSafetyInfo}
    (h : info.view (encodeMutatedParams S table) = info'.view (encodeMutatedParams S table)) :
    WireFunctionSafetyInfo.encode S table info = WireFunctionSafetyInfo.encode S table info' := by
  obtain ⟨hverdict, hcallees, hparams⟩ := InfoView.mk.inj h
  rw [WireFunctionSafetyInfo.encode, WireFunctionSafetyInfo.encode, hverdict, hcallees, hparams]

/-- The encoding of a module depends on its view only. -/
theorem WireModule.encode_congr {m m' : CachedModule}
    (h : m.view (encodeMutatedParams S table) = m'.view (encodeMutatedParams S table)) :
    WireModule.encode S table m = WireModule.encode S table m' := by
  obtain ⟨hname, hsafety, himports, hmissing, hambiguous, hside, hguard, hfunctions, hmutations,
    hproperties, hsubclasses⟩ := ModuleContents.mk.inj h
  have hfunctions' : (S.sortOn Prod.fst m.functionSafety.entries).map
        (fun e => (e.1, WireFunctionSafetyInfo.encode S table e.2)) =
      (S.sortOn Prod.fst m'.functionSafety.entries).map
        fun e => (e.1, WireFunctionSafetyInfo.encode S table e.2) := by
    have hperm := map_perm_of_forall
      (g := fun e : Str × FunctionSafetyInfo => (e.1, WireFunctionSafetyInfo.encode S table e.2))
      (q := fun e : Str × FunctionSafetyInfo => (e.1, WireFunctionSafetyInfo.encode S table e.2))
      (Multiset.coe_eq_coe.mp hfunctions) fun a _ b _ hab => by
        obtain ⟨hkey, hinfo⟩ := Prod.mk.inj hab
        rw [hkey, WireFunctionSafetyInfo.encode_congr hinfo]
    refine S.map_sortOn_congr (q := Prod.fst) (fun _ => rfl) (fun a ha b hb hab => ?_) hperm
    -- the entry of the first table with the encoding of `b` has the key of `a`
    obtain ⟨a', ha', heq⟩ := List.mem_map.mp (hperm.symm.subset (List.mem_map_of_mem hb))
    have hkey : a'.1 = a.1 := (congrArg Prod.fst heq).trans hab.symm
    rw [← heq, List.inj_on_of_nodup_map m.functionSafety.nodup ha' ha hkey]
  have hmutations' : m.mutationCandidates.map (WireMutationCandidate.encode S table) =
      m'.mutationCandidates.map (WireMutationCandidate.encode S table) :=
    map_eq_map_of_forall hmutations fun _ _ _ _ => WireMutationCandidate.encode_congr
  have hproperties' := S.map_sortOn_congr (k := PropertyCandidate.sortKey)
    (f := PropertyCandidate.view) (q := fun p => (toLex p : ModuleName ×ₗ Bool)) (fun _ => rfl)
    (fun _ _ _ _ hab => toLex.injective hab) (Multiset.coe_eq_coe.mp hproperties)
  have hsubclasses' := S.map_sortOn_congr (k := SubclassCandidate.sortKey)
    (f := SubclassCandidate.view) (q := fun p => (toLex p : ModuleName ×ₗ Bool)) (fun _ => rfl)
    (fun _ _ _ _ hab => toLex.injective hab) (Multiset.coe_eq_coe.mp hsubclasses)
  have hproperties'' := map_eq_map_of_forall (g := WirePropertyCandidate.encode table)
    hproperties' fun a _ b _ hab => by
      obtain ⟨hattr, hmark⟩ := Prod.mk.inj hab
      rw [WirePropertyCandidate.encode, WirePropertyCandidate.encode, hattr, hmark]
  have hsubclasses'' := map_eq_map_of_forall (g := WireSubclassCandidate.encode table)
    hsubclasses' fun a _ b _ hab => by
      obtain ⟨hclass, hmark⟩ := Prod.mk.inj hab
      rw [WireSubclassCandidate.encode, WireSubclassCandidate.encode, hclass, hmark]
  rw [WireModule.encode, WireModule.encode, hname, WireSafety.encode_congr hsafety, himports,
    hmissing, hambiguous, hside, hguard, hfunctions', hmutations', hproperties'', hsubclasses'']

theorem encodeConstructorCallees_congr (S : UnstableSort) (table : NameTable)
    {e e' : ModuleName × ConstructorCallees}
    (h : viewConstructorCallees e = viewConstructorCallees e') :
    encodeConstructorCallees S table e = encodeConstructorCallees S table e' := by
  obtain ⟨hclass, hrest⟩ := Prod.mk.inj h
  obtain ⟨hmeta, hrest⟩ := Prod.mk.inj hrest
  obtain ⟨hmask, hextra⟩ := Prod.mk.inj hrest
  rw [encodeConstructorCallees, encodeConstructorCallees, hclass, hmeta, hmask,
    NameTable.encodeSorted_congr hextra]

theorem encodeClassProperties_congr (S : UnstableSort) (table : NameTable)
    {e e' : ModuleName × List Str}
    (h : viewClassProperties e = viewClassProperties e') :
    encodeClassProperties S table e = encodeClassProperties S table e' := by
  obtain ⟨hclass, hproperties⟩ := Prod.mk.inj h
  rw [encodeClassProperties, encodeClassProperties, hclass,
    S.sortOn_eq_of_perm (k := fun p : Str => p) Function.injective_id
      (Multiset.coe_eq_coe.mp hproperties)]

theorem WireReExport.sortKey_injective : Function.Injective WireReExport.sortKey := by
  intro a b h
  cases a
  cases b
  simpa [sortKey] using h

/-- The sort key of a constructor record tells the records apart. -/
theorem constructorKey_injective : Function.Injective constructorKey := by
  rintro ⟨cls, metaclass, mask, extra⟩ ⟨cls', metaclass', mask', extra'⟩ h
  obtain ⟨hcls, h⟩ := Prod.mk.inj (toLex.injective h)
  obtain ⟨hmeta, h⟩ := Prod.mk.inj (toLex.injective h)
  obtain ⟨hmask, hextra⟩ := Prod.mk.inj (toLex.injective h)
  rw [show cls = cls' from hcls, show metaclass = metaclass' from hmeta,
    show mask = mask' from BitVec.eq_of_toNat_eq hmask, show extra = extra' from hextra]

/-- The header depends on the view only. -/
theorem WireHeader.encode_congr {γ : Type} {viewParams : List MutatedParam → γ}
    {cache cache' : LibraryCache} (h : cache.view viewParams = cache'.view viewParams) :
    WireHeader.encode S table cache = WireHeader.encode S table cache' := by
  obtain ⟨-, hre, hrt, hbases, hcallees, hproperties⟩ := CacheView.mk.inj h
  have hcallees' := map_perm_of_forall (Multiset.coe_eq_coe.mp hcallees)
    fun _ _ _ _ => encodeConstructorCallees_congr S table
  have hproperties' := map_perm_of_forall (Multiset.coe_eq_coe.mp hproperties)
    fun _ _ _ _ => encodeClassProperties_congr S table
  rw [WireHeader.encode, WireHeader.encode,
    S.sortOn_eq_of_perm WireReExport.sortKey_injective ((Multiset.coe_eq_coe.mp hre).map _),
    S.sortOn_eq_of_perm toLex.injective
      ((Multiset.coe_eq_coe.mp hrt).map (encodeReturnType table)),
    S.sortOn_eq_of_perm toLex.injective
      ((Multiset.coe_eq_coe.mp hbases).map (encodeClassBases table)),
    S.sortOn_eq_of_perm constructorKey_injective hcallees',
    S.sortOn_eq_of_perm toLex.injective hproperties']

end Congr

/-- Two caches that say the same, and whose mutated parameters are written the same, are
written the same. -/
theorem write_congr {P : Postcard} {S : UnstableSort} {cache cache' : LibraryCache}
    (h : cache.contents = cache'.contents)
    (hparams : ∀ table, NameTable.build S cache = .ok table →
      cache.view (encodeMutatedParams S table) = cache'.view (encodeMutatedParams S table)) :
    write P S cache = write P S cache' := by
  rw [write, write, ← NameTable.build_congr h]
  cases hbuild : NameTable.build S cache with
  | error e => rfl
  | ok table =>
    have hview := hparams table hbuild
    have hmodules := map_perm_of_forall
      (g := fun m => (table.id m.name, P.record.put (.encode S table m)))
      (q := fun m => (table.id m.name, P.record.put (.encode S table m)))
      (Multiset.coe_eq_coe.mp (congrArg CacheView.modules hview)) fun a _ b _ hab => by
        rw [WireModule.encode_congr hab, show a.name = b.name from congrArg ModuleContents.name hab]
    show frame _ _ = frame _ _
    rw [WireHeader.encode_congr hview, moduleBlobs, moduleBlobs,
      S.sortOn_eq_of_perm toLex.injective hmodules]

end Lifeguard
