import Lifeguard.CacheFraming
import Lifeguard.CacheRecords
import Lifeguard.Postcard

/-!
# Reading back what was written

`read` undoes `write` up to ranges and orders, and writing what was read gives the same
bytes.

- `write_eq_ok`: what a successful `write` has built.
- `read_of_write`: `read` accepts it, and the cache that comes back has the view of the one
  that was written, as a value and as it is written.
- `unranged_read`: whatever is read has the default ranges.
- `wire_round_trip`: the round trip, for every cache that fits (`LibraryCache.Fits`).
- `crowded_refused`: a cache with more distinct names than ids is not written at all.
-/

namespace Lifeguard

open Lib

variable {P : Postcard} {S : UnstableSort} {cache : LibraryCache} {bytes : List UInt8}

/-! ## What is written -/

/-- The table is built, and every part is framed. -/
theorem write_eq_ok : write P S cache = .ok bytes ↔
    ∃ table, NameTable.build S cache = .ok table ∧
      frame (P.header.put (.encode S table cache))
        ((moduleBlobs P S table cache).map Prod.snd) = .ok bytes := by
  rw [write]
  cases hbuild : NameTable.build S cache with
  | error e =>
    constructor
    · intro h
      cases h
    · rintro ⟨table, htable, -⟩
      cases htable
  | ok table =>
    constructor
    · intro h
      exact ⟨table, rfl, h⟩
    · rintro ⟨table', htable, h⟩
      cases htable
      exact h

/-- What `write` checks: the ids are enough for the names, and every length fits eight
bytes. -/
structure LibraryCache.Fits (P : Postcard) (S : UnstableSort) (cache : LibraryCache) :
    Prop where
  names : cache.uniqueNames.length ≤ nameIdMax
  header : ∀ table, NameTable.build S cache = .ok table →
    (P.header.put (.encode S table cache)).length < 2 ^ 64
  modules : cache.modules.length < 2 ^ 64
  records : ∀ table, NameTable.build S cache = .ok table → ∀ m ∈ cache.modules,
    (P.record.put (.encode S table m)).length < 2 ^ 64

theorem mem_moduleBlobs {table : NameTable} {blob : List UInt8} :
    blob ∈ (moduleBlobs P S table cache).map Prod.snd ↔
      ∃ m ∈ cache.modules, P.record.put (.encode S table m) = blob := by
  rw [moduleBlobs, ((S.sortOn_perm _ _).map Prod.snd).mem_iff, List.map_map, List.mem_map]
  rfl

theorem length_moduleBlobs {table : NameTable} :
    ((moduleBlobs P S table cache).map Prod.snd).length = cache.modules.length := by
  rw [List.length_map, moduleBlobs, (S.sortOn_perm _ _).length_eq, List.length_map]

/-- `write` succeeds exactly on the caches that fit. -/
theorem write_isOk_iff : (∃ bytes, write P S cache = .ok bytes) ↔ cache.Fits P S := by
  constructor
  · rintro ⟨bytes, hwrite⟩
    obtain ⟨table, hbuild, hframe⟩ := write_eq_ok.mp hwrite
    obtain ⟨hheader, hcount, hall, -⟩ := frame_eq_ok.mp hframe
    have hunique : ∀ table', NameTable.build S cache = .ok table' → table' = table :=
      fun table' htable' => Except.ok.inj (htable'.symm.trans hbuild)
    refine ⟨(NameTable.build_eq_ok.mp hbuild).1, fun table' htable' => ?_, ?_,
      fun table' htable' m hm => ?_⟩
    · rwa [hunique table' htable']
    · rwa [length_moduleBlobs] at hcount
    · rw [hunique table' htable']
      exact hall _ (mem_moduleBlobs.mpr ⟨m, hm, rfl⟩)
  · rintro ⟨hnames, hheader, hmodules, hrecords⟩
    cases hbuild : NameTable.build S cache with
    | error e =>
      rw [NameTable.build, dif_pos hnames] at hbuild
      cases hbuild
    | ok table =>
      refine ⟨_, write_eq_ok.mpr ⟨table, hbuild, frame_eq_ok.mpr ⟨hheader table hbuild, ?_,
        fun blob hblob => ?_, rfl⟩⟩⟩
      · rwa [length_moduleBlobs]
      · obtain ⟨m, hm, rfl⟩ := mem_moduleBlobs.mp hblob
        exact hrecords table hbuild m hm

/-! ## What is read -/

theorem fromBytes_put {α : Type} (codec : Codec α) (a : α) :
    fromBytes codec (codec.put a) = .ok a := by
  rw [fromBytes, codec.get_put_nil]

/-- The framing is taken apart, and the records that were framed are decoded. -/
theorem read_frame {header : WireHeader} {headerBytes : List UInt8} {blobs : List (List UInt8)}
    (hframe : frame headerBytes blobs = .ok bytes)
    (hdecode : fromBytes P.header headerBytes = .ok header) :
    read P bytes = decodeCache P header blobs := by
  obtain ⟨hheaderLen, hheader, hcount, hfits, hblobs⟩ := unframed_of_frame hframe
  rw [read, hheaderLen]
  simp only [bind, Except.bind, hheader, hdecode, hcount, if_neg hfits, hblobs, ne_eq,
    not_true_eq_false, if_false]

/-- The records of a cache are decoded to a cache with the same view. -/
theorem decodeCache_encode {table : NameTable} (hin : cache.Interned table) :
    ∃ cache', decodeCache P (.encode S table cache)
        ((moduleBlobs P S table cache).map Prod.snd) = .ok cache' ∧
      cache'.view (writtenParams S table) = cache.view (writtenParams S table) := by
  -- each list is decoded in the order it was sorted to, and the view forgets the order
  obtain ⟨modules, hmodules, hmodulesView⟩ := S.exists_mapM_sortOn
    (k := fun p : NameId × List UInt8 => toLex p)
    (f := fun p => readModule P table.names p.2)
    (e := fun m => (table.id m.name, P.record.put (.encode S table m)))
    (v := CachedModule.view (writtenParams S table))
    (w := CachedModule.view (writtenParams S table)) (l := cache.modules) fun m hm => by
      obtain ⟨m', hdecode, hview⟩ := WireModule.decode_encode (S := S) (hin.modules m hm)
      refine ⟨m', ?_, hview⟩
      show readModule P table.names (P.record.put _) = _
      rw [readModule, fromBytes_put]
      exact hdecode
  have hmodules' : ((moduleBlobs P S table cache).map Prod.snd).mapM
      (readModule P table.names) = .ok modules := by
    rw [List.mapM_map]
    exact hmodules
  obtain ⟨reExports, hreExports, hreView⟩ := S.exists_mapM_sortOn
    (k := WireReExport.sortKey) (f := WireReExport.decode table.names)
    (e := WireReExport.encode table) (v := id) (w := id) fun re hre =>
      ⟨re, WireReExport.decode_encode (hin.reExports re hre), rfl⟩
  obtain ⟨returnTypes, hreturnTypes, hrtView⟩ := S.exists_mapM_sortOn
    (k := fun p : NameId × NameId => toLex p) (f := decodeReturnType table.names)
    (e := encodeReturnType table) (v := id) (w := id) fun rt hrt =>
      ⟨rt, decodeReturnType_encode (hin.returnTypes rt hrt), rfl⟩
  obtain ⟨bases, hbases, hbasesView⟩ := S.exists_mapM_sortOn
    (k := fun p : NameId × List NameId => toLex p) (f := decodeClassBases table.names)
    (e := encodeClassBases table) (v := id) (w := id) fun e he =>
      ⟨e, decodeClassBases_encode (hin.classBases e he), rfl⟩
  obtain ⟨callees, hcallees, hcalleesView⟩ := S.exists_mapM_sortOn
    (k := constructorKey) (f := decodeConstructorCallees table.names)
    (e := encodeConstructorCallees S table) (v := viewConstructorCallees)
    (w := viewConstructorCallees) fun e he =>
      decodeConstructorCallees_encode (hin.constructorCallees e he)
  obtain ⟨properties, hproperties, hpropertiesView⟩ := S.exists_mapM_sortOn
    (k := fun p : NameId × List Str => toLex p) (f := decodeClassProperties table.names)
    (e := encodeClassProperties S table) (v := viewClassProperties)
    (w := viewClassProperties) fun e he =>
      decodeClassProperties_encode (hin.classProperties e he)
  refine ⟨{
    modules := modules
    exports := { reExports := reExports, returnTypes := returnTypes }
    classBases := bases
    classProperties := properties
    constructorCallees := callees }, ?_, ?_⟩
  · rw [decodeCache, WireHeader.encode]
    simp only [bind, Except.bind, hmodules', hreExports, hreturnTypes, hbases, hcallees,
      hproperties]
    rfl
  · rw [List.map_id, List.map_id] at hreView hrtView hbasesView
    rw [LibraryCache.view, LibraryCache.view, Multiset.coe_eq_coe.mpr hmodulesView,
      Multiset.coe_eq_coe.mpr hreView, Multiset.coe_eq_coe.mpr hrtView,
      Multiset.coe_eq_coe.mpr hbasesView, Multiset.coe_eq_coe.mpr hcalleesView,
      Multiset.coe_eq_coe.mpr hpropertiesView]

/-- What was written is read back as a cache with the same view. -/
theorem read_of_write {table : NameTable} (hbuild : NameTable.build S cache = .ok table)
    (hframe : frame (P.header.put (.encode S table cache))
      ((moduleBlobs P S table cache).map Prod.snd) = .ok bytes) :
    ∃ cache', read P bytes = .ok cache' ∧
      cache'.view (writtenParams S table) = cache.view (writtenParams S table) := by
  rw [read_frame hframe (fromBytes_put _ _)]
  exact decodeCache_encode (interned_of_build hbuild)

/-! ## The ranges that are read -/

/-- What succeeds gives this. -/
def Gives {ε α : Type} (p : α → Prop) (result : Except ε α) : Prop :=
  ∀ a, result = .ok a → p a

namespace Gives

variable {ε α β : Type} {p : α → Prop} {q : β → Prop}

theorem pure {a : α} (h : p a) : Gives p (.ok a : Except ε α) := fun _ heq => by
  cases heq
  exact h

theorem bind {x : Except ε α} {f : α → Except ε β} (hx : Gives p x)
    (hf : ∀ a, p a → Gives q (f a)) : Gives q (x >>= f) := by
  intro b heq
  cases hfirst : x with
  | error e =>
    rw [hfirst] at heq
    cases heq
  | ok a =>
    rw [hfirst] at heq
    exact hf a (hx a hfirst) b heq

theorem trivial (x : Except ε α) : Gives (fun _ => True) x := fun _ _ => True.intro

theorem mapM {f : α → Except ε β} (hf : ∀ a, Gives q (f a)) (l : List α) :
    Gives (fun bs => ∀ b ∈ bs, q b) (l.mapM f) := by
  induction l with
  | nil => exact pure fun b hb => absurd hb List.not_mem_nil
  | cons a l ih =>
    rw [List.mapM_cons]
    exact (hf a).bind fun b hb => ih.bind fun bs hbs => pure (List.forall_mem_cons.mpr ⟨hb, hbs⟩)

end Gives

/-- Every range of the record is the default one. -/
structure CachedModule.Unranged (m : CachedModule) : Prop where
  errors : ∀ safety, m.safety = .ok safety →
    ∀ e ∈ safety.errors ++ safety.forceImportsEagerOverrides, e.range = {}
  mutations : ∀ candidate ∈ m.mutationCandidates, candidate.range = {}
  properties : ∀ candidate ∈ m.propertyCandidates, candidate.range = {}
  subclasses : ∀ candidate ∈ m.subclassCandidates, candidate.range = {}

/-- Every range of the cache is the default one. -/
def LibraryCache.Unranged (cache : LibraryCache) : Prop := ∀ m ∈ cache.modules, m.Unranged

theorem WireSafety.unranged_decode (names : List ModuleName) (safety : WireSafety) :
    Gives (fun safety => ∀ ok, safety = .ok ok →
      ∀ e ∈ ok.errors ++ ok.forceImportsEagerOverrides, e.range = {}) (safety.decode names) := by
  cases safety with
  | analysisError message =>
    refine Gives.pure fun ok heq => ?_
    cases heq
  | ok errors overrides implicitImports =>
    refine (Gives.trivial (decodeNames names implicitImports)).bind fun imports _ =>
      Gives.pure fun ok heq e he => ?_
    cases heq
    rw [← List.map_append] at he
    obtain ⟨serialized, -, rfl⟩ := List.mem_map.mp he
    rfl

/-- What is decoded has no ranges of its own, since none is written. -/
theorem WireModule.unranged_decode (names : List ModuleName) (m : WireModule) :
    Gives CachedModule.Unranged (m.decode names) := by
  have hmutation : ∀ candidate : WireMutationCandidate,
      Gives (fun candidate => candidate.range = {}) (candidate.decode names) := fun candidate =>
    (Gives.trivial (candidate.site.decode names)).bind fun _ _ =>
      (Gives.trivial (decodeName names candidate.callee)).bind fun _ _ =>
        (Gives.trivial (decodeNames names candidate.importedArgs.unsafeKeywordNames)).bind
          fun _ _ => Gives.pure rfl
  have hproperty : ∀ candidate : WirePropertyCandidate,
      Gives (fun candidate => candidate.range = {}) (candidate.decode names) := fun candidate =>
    (Gives.trivial (decodeName names candidate.attributeName)).bind fun _ _ => Gives.pure rfl
  have hsubclass : ∀ candidate : WireSubclassCandidate,
      Gives (fun candidate => candidate.range = {}) (candidate.decode names) := fun candidate =>
    (Gives.trivial (decodeName names candidate.candidateClass)).bind fun _ _ => Gives.pure rfl
  exact (Gives.trivial (decodeName names m.name)).bind fun _ _ =>
    (m.safety.unranged_decode names).bind fun _ herrors =>
    (Gives.trivial (decodeNameSet names m.imports)).bind fun _ _ =>
    (Gives.trivial (decodeNameSet names m.missingImports)).bind fun _ _ =>
    (Gives.trivial (decodeNameSet names m.ambiguousImports)).bind fun _ _ =>
    (Gives.trivial (decodeNameSet names m.sideEffectImports)).bind fun _ _ =>
    (Gives.trivial (decodeNameSet names m.mainGuardImports)).bind fun _ _ =>
    (Gives.trivial (m.functionSafety.mapM (decodeFunctionSafety names))).bind fun _ _ =>
    (Gives.mapM hmutation m.mutationCandidates).bind fun _ hmutations =>
    (Gives.mapM hproperty m.propertyCandidates).bind fun _ hproperties =>
    (Gives.mapM hsubclass m.subclassCandidates).bind fun _ hsubclasses =>
      Gives.pure ⟨herrors, hmutations, hproperties, hsubclasses⟩

/-- Whatever bytes are read, the ranges of the cache are the default ones. -/
theorem unranged_read : Gives LibraryCache.Unranged (read P bytes) := by
  have hmodule : ∀ names blob, Gives CachedModule.Unranged (readModule P names blob) :=
    fun names blob => (Gives.trivial (fromBytes P.record blob)).bind fun wire _ =>
      wire.unranged_decode names
  have hcache : ∀ header blobs, Gives LibraryCache.Unranged (decodeCache P header blobs) :=
    fun header blobs => (Gives.mapM (hmodule header.names) blobs).bind fun _ hmodules =>
      (Gives.trivial (header.reExports.mapM (WireReExport.decode header.names))).bind fun _ _ =>
      (Gives.trivial (header.returnTypes.mapM (decodeReturnType header.names))).bind fun _ _ =>
      (Gives.trivial (header.classBases.mapM (decodeClassBases header.names))).bind fun _ _ =>
      (Gives.trivial (header.constructorCallees.mapM
        (decodeConstructorCallees header.names))).bind fun _ _ =>
      (Gives.trivial (header.classProperties.mapM
        (decodeClassProperties header.names))).bind fun _ _ => Gives.pure hmodules
  refine (Gives.trivial (readLen bytes 0)).bind fun first _ => ?_
  refine (Gives.trivial (takeBytes bytes first.2 first.1 .headerOverflow .truncatedHeader)).bind
    fun second _ => ?_
  refine (Gives.trivial (fromBytes P.header second.1)).bind fun header _ => ?_
  refine (Gives.trivial (readLen bytes second.2)).bind fun third _ => ?_
  dsimp only
  split
  · exact fun _ heq => by cases heq
  refine (Gives.trivial (readBlobs bytes third.1 third.2)).bind fun last _ => ?_
  split
  · exact fun _ heq => by cases heq
  · exact hcache header last.1

/-! ## The round trip -/

theorem wire_round_trip (P : Postcard) (S : UnstableSort) (cache : LibraryCache)
    (hfits : cache.Fits P S) :
    ∃ bytes cache', write P S cache = .ok bytes ∧ read P bytes = .ok cache' ∧
      cache'.contents = cache.contents ∧ cache'.Unranged ∧ write P S cache' = .ok bytes := by
  obtain ⟨bytes, hwrite⟩ := write_isOk_iff.mpr hfits
  obtain ⟨table, hbuild, hframe⟩ := write_eq_ok.mp hwrite
  obtain ⟨cache', hread, hview⟩ := read_of_write hbuild hframe
  have hcontents : cache'.contents = cache.contents := LibraryCache.view_comp Prod.fst hview
  refine ⟨bytes, cache', hwrite, hread, hcontents, unranged_read cache' hread, ?_⟩
  rw [← hwrite]
  refine write_congr hcontents fun table' hbuild' => ?_
  -- the two caches have one name table, the one the view was taken with
  rw [NameTable.build_congr hcontents, hbuild] at hbuild'
  cases hbuild'
  exact LibraryCache.view_comp Prod.snd hview

/-- A package and the module it imports from, with a record of every kind. -/
def sampleCache : LibraryCache where
  modules :=
    [{ name := fromStr "pkg.b"
       imports := {fromStr "pkg"}
       functionSafety := Table.ofList
         [("g".toList, { verdict := {.unsafeIfImported} }),
           ("f".toList,
             { verdict := {.unsafeMissingDep}
               missingDepCallees := {fromStr "ext.h"}
               mutatedParams :=
                 [{ name := fromStr "q", position := .keywordOnly },
                   { name := fromStr "p", position := .positional 1 }] })]
       mutationCandidates :=
         [{ callee := fromStr "ext.h"
            site := .function (fromStr "f")
            argOffset := 1
            importedArgs :=
              { unsafeArgIndices := 2
                unsafeKeywordNames := [fromStr "q", fromStr "p"]
                unsafeArgsExpansionMin := some 3 } }]
       propertyCandidates :=
         [{ attributeName := fromStr "ext.K.p", range := { start := 4, stop := 9 } }] },
     { name := fromStr "pkg"
       safety := .ok
         { errors :=
             [{ kind := .unknownFunctionCall, metadata := "f()".toList, range := { stop := 3 } },
               { kind := .unsafeDecoratorCall, metadata := "d".toList }] } }]
  exports :=
    { reExports :=
        [{ exportedModule := fromStr "pkg"
           exportedAttr := "f".toList
           importedModule := fromStr "pkg.b"
           importedAttr := "f".toList }] }
  classBases := [(fromStr "pkg.b.K", [fromStr "ext.K", fromStr "ext.J"])]
  constructorCallees := [(fromStr "pkg.b.K", { mask := 16, extra := [fromStr "ext.K.__new__"] })]

theorem fits_sampleCache : sampleCache.Fits .standard insertionSort := by
  have hheader : (NameTable.build insertionSort sampleCache).toOption.all (fun table =>
      decide ((Postcard.standard.header.put
        (.encode insertionSort table sampleCache)).length < 2 ^ 64)) = true := by
    decide +kernel
  have hrecords : (NameTable.build insertionSort sampleCache).toOption.all (fun table =>
      sampleCache.modules.all fun m => decide ((Postcard.standard.record.put
        (.encode insertionSort table m)).length < 2 ^ 64)) = true := by
    decide +kernel
  refine ⟨by decide +kernel, fun table htable => ?_, by decide, fun table htable m hm => ?_⟩
  · rw [htable] at hheader
    exact of_decide_eq_true hheader
  · rw [htable] at hrecords
    exact of_decide_eq_true (List.all_eq_true.mp hrecords m hm)

theorem wire_round_trip_sample :
    sampleCache.Fits .standard insertionSort ∧
      ∃ bytes cache', write .standard insertionSort sampleCache = .ok bytes ∧
        read .standard bytes = .ok cache' ∧ cache'.contents = sampleCache.contents ∧
          cache'.Unranged ∧ write .standard insertionSort cache' = .ok bytes :=
  ⟨fits_sampleCache, wire_round_trip .standard insertionSort sampleCache fits_sampleCache⟩

/-! ## A cache that is not written -/

/-- A module that imports more names than there are ids. -/
def crowded : LibraryCache where
  modules :=
    [{ name := fromStr "app"
       imports := (Finset.range (2 ^ 32)).image fun n => List.replicate n 'a' }]

theorem crowded_refused :
    write .standard insertionSort crowded = .error .tooManyNames := by
  have hcard : ((Finset.range (2 ^ 32)).image fun n => List.replicate n 'a').card = 2 ^ 32 := by
    rw [Finset.card_image_of_injective _ (List.replicate_left_injective 'a'), Finset.card_range]
  have hsub : ((Finset.range (2 ^ 32)).image fun n => List.replicate n 'a') ⊆
      crowded.uniqueNames.toFinset := by
    intro n hn
    rw [List.mem_toFinset, LibraryCache.mem_uniqueNames]
    refine Or.inl ⟨_, List.mem_singleton.mpr rfl, Or.inr (Or.inl hn)⟩
  have hmany : ¬crowded.uniqueNames.length ≤ nameIdMax := by
    have hle := (Finset.card_le_card hsub).trans (List.toFinset_card_le _)
    rw [hcard] at hle
    rw [nameIdMax]
    omega
  rw [write, NameTable.build, dif_neg hmany]
  rfl

end Lifeguard
