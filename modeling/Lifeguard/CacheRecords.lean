import Lifeguard.CacheContents

/-!
# The records of a cache file

Each record's `decode` accepts what its `encode` gives, and the record that comes back has
the view of the one that was written: `WireModule.decode_encode` for a module, and one
lemma for each of the header's sequences. The view is taken with the mutated parameters
both as a multiset and as the list the encoder writes (`writtenParams`), so that writing
once more is compared by `write_congr`.

- `decodeName_id`: the id of a name of the table is decoded to the name.
- `Interned`: every name of a record is in the table; `interned_of_build` gives it for the
  table that `NameTable::build` makes.
-/

namespace Lifeguard

open Lib

/-! ## Names -/

section Names

variable {S : UnstableSort} {table : NameTable} {n : ModuleName} {names : List ModuleName}

theorem decodeName_id (hn : n ∈ table.names) :
    decodeName table.names (table.id n) = .ok n := by
  rw [decodeName, NameTable.id, List.getElem?_idxOf hn]

theorem decodeNames_map_id (hnames : ∀ n ∈ names, n ∈ table.names) :
    decodeNames table.names (names.map table.id) = .ok names :=
  mapM_ok fun n hn => decodeName_id (hnames n hn)

/-- A sorted encoding of names is decoded to an arrangement of them. -/
theorem decodeNames_encodeSorted (hnames : ∀ n ∈ names, n ∈ table.names) :
    ∃ names', decodeNames table.names (table.encodeSorted S names) = .ok names' ∧
      names'.Perm names := by
  obtain ⟨names', hperm, heq⟩ := exists_map_of_perm
    (S.sortOn_perm (fun id : NameId => id) (names.map table.id))
  refine ⟨names', ?_, hperm⟩
  rw [NameTable.encodeSorted, heq]
  exact decodeNames_map_id fun n hn => hnames n (hperm.subset hn)

theorem decodeNameSet_encodeSorted {s : Finset ModuleName} (hs : ∀ n ∈ s, n ∈ table.names) :
    decodeNameSet table.names (table.encodeSorted S (elems s)) = .ok s := by
  obtain ⟨names', hdecode, hperm⟩ :=
    decodeNames_encodeSorted (S := S) (fun n hn => hs n (mem_elems.mp hn))
  rw [decodeNameSet, hdecode]
  refine congrArg Except.ok ?_
  ext n
  rw [List.mem_toFinset, hperm.mem_iff, mem_elems]

end Names

/-! ## Records -/

section Records

variable {S : UnstableSort} {table : NameTable}

/-- Mutated parameters as what they are and as the list they are written as. -/
def writtenParams (S : UnstableSort) (table : NameTable) (params : List MutatedParam) :
    Multiset MutatedParam × List WireMutatedParam :=
  (params, encodeMutatedParams S table params)

/-- Errors come back sorted and without ranges. -/
theorem serialize_sortedErrors (errors : List SafetyError) :
    (((sortedErrors S errors).map SerializedSafetyError.deserialize).map
      SafetyError.serialize).Perm (errors.map SafetyError.serialize) := by
  rw [List.map_map]
  show ((sortedErrors S errors).map id).Perm _
  rw [List.map_id]
  exact (S.sortOn_perm _ errors).map _

theorem WireSafety.decode_encode {safety : CachedSafety}
    (hnames : ∀ n ∈ safety.implicitImports, n ∈ table.names) :
    ∃ safety', (WireSafety.encode S table safety).decode table.names = .ok safety' ∧
      safety'.view = safety.view := by
  cases safety with
  | analysisError message => exact ⟨.analysisError message, rfl, rfl⟩
  | ok safety =>
    obtain ⟨imports, hdecode, hperm⟩ :=
      decodeNames_encodeSorted (S := S) (show ∀ n ∈ safety.implicitImports, n ∈ _ from hnames)
    refine ⟨.ok
      { errors := (sortedErrors S safety.errors).map SerializedSafetyError.deserialize
        forceImportsEagerOverrides :=
          (sortedErrors S safety.forceImportsEagerOverrides).map SerializedSafetyError.deserialize
        implicitImports := imports }, ?_, ?_⟩
    · rw [WireSafety.encode, WireSafety.decode, hdecode]
      rfl
    · show SafetyView.ok _ _ _ = SafetyView.ok _ _ _
      rw [Multiset.coe_eq_coe.mpr (serialize_sortedErrors (S := S) safety.errors),
        Multiset.coe_eq_coe.mpr (serialize_sortedErrors (S := S) safety.forceImportsEagerOverrides),
        Multiset.coe_eq_coe.mpr hperm]

/-- Mutated parameters come back in the order they are written in, and are written in that
order again. -/
theorem decode_mutatedParams {params : List MutatedParam}
    (hnames : ∀ param ∈ params, param.name ∈ table.names) :
    ∃ params', (encodeMutatedParams S table params).mapM (WireMutatedParam.decode table.names) =
        .ok params' ∧ writtenParams S table params' = writtenParams S table params := by
  obtain ⟨params', hperm, heq⟩ := exists_map_of_perm
    (S.sortOn_perm WireMutatedParam.name (params.map (WireMutatedParam.encode table)))
  have henc : encodeMutatedParams S table params = params'.map (WireMutatedParam.encode table) :=
    heq
  refine ⟨params', ?_, Prod.ext (Multiset.coe_eq_coe.mpr hperm) ?_⟩
  · rw [henc]
    refine mapM_ok fun param hmem => ?_
    rw [WireMutatedParam.decode, WireMutatedParam.encode,
      decodeName_id (hnames param (hperm.subset hmem))]
    rfl
  · show encodeMutatedParams S table params' = encodeMutatedParams S table params
    -- what comes back is written sorted, so the second sort changes nothing
    rw [encodeMutatedParams, ← heq]
    exact S.sortOn_sortOn _ _

theorem WireFunctionSafetyInfo.decode_encode {info : FunctionSafetyInfo}
    (hcallees : ∀ n ∈ info.missingDepCallees, n ∈ table.names)
    (hparams : ∀ param ∈ info.mutatedParams, param.name ∈ table.names) :
    ∃ info', (WireFunctionSafetyInfo.encode S table info).decode table.names = .ok info' ∧
      info'.view (writtenParams S table) = info.view (writtenParams S table) := by
  obtain ⟨params, hdecode, hview⟩ := decode_mutatedParams (S := S) hparams
  refine ⟨{ info with mutatedParams := params }, ?_, ?_⟩
  · rw [WireFunctionSafetyInfo.encode, WireFunctionSafetyInfo.decode,
      decodeNameSet_encodeSorted hcallees, hdecode]
    rfl
  · rw [FunctionSafetyInfo.view, FunctionSafetyInfo.view, hview]

theorem WireMutationCandidate.decode_encode {candidate : MutationCandidate}
    (hcallee : candidate.callee ∈ table.names) (hsite : candidate.site.name ∈ table.names)
    (hkeywords : ∀ n ∈ candidate.importedArgs.unsafeKeywordNames, n ∈ table.names) :
    ∃ candidate', (WireMutationCandidate.encode S table candidate).decode table.names =
        .ok candidate' ∧ candidate'.view = candidate.view := by
  obtain ⟨keywords, hdecode, hperm⟩ := decodeNames_encodeSorted (S := S) hkeywords
  have hsite' : (WireMutationCandidateSite.encode table candidate.site).decode table.names =
      .ok candidate.site := by
    cases hcase : candidate.site with
    | moduleScope call =>
      rw [hcase] at hsite
      rw [WireMutationCandidateSite.encode, WireMutationCandidateSite.decode,
        decodeName_id (n := call) hsite]
      rfl
    | function name =>
      rw [hcase] at hsite
      rw [WireMutationCandidateSite.encode, WireMutationCandidateSite.decode,
        decodeName_id (n := name) hsite]
      rfl
  refine ⟨{ candidate with
    range := {}
    importedArgs := { candidate.importedArgs with unsafeKeywordNames := keywords } }, ?_, ?_⟩
  · rw [WireMutationCandidate.encode, WireMutationCandidate.decode, hsite', decodeName_id hcallee,
      WireImportedArgs.encode, hdecode]
    rfl
  · rw [MutationCandidate.view, MutationCandidate.view, ImportedArgs.view, ImportedArgs.view,
      Multiset.coe_eq_coe.mpr hperm]

theorem WirePropertyCandidate.decode_encode {candidate : PropertyCandidate}
    (h : candidate.attributeName ∈ table.names) :
    ∃ candidate', (WirePropertyCandidate.encode table candidate).decode table.names =
      .ok candidate' ∧ candidate'.view = candidate.view := by
  refine ⟨{ candidate with range := {} }, ?_, rfl⟩
  rw [WirePropertyCandidate.encode, WirePropertyCandidate.decode, decodeName_id h]
  rfl

theorem WireSubclassCandidate.decode_encode {candidate : SubclassCandidate}
    (h : candidate.candidateClass ∈ table.names) :
    ∃ candidate', (WireSubclassCandidate.encode table candidate).decode table.names =
      .ok candidate' ∧ candidate'.view = candidate.view := by
  refine ⟨{ candidate with range := {} }, ?_, rfl⟩
  rw [WireSubclassCandidate.encode, WireSubclassCandidate.decode, decodeName_id h]
  rfl

/-- The verdicts come back as a table with the same entries. -/
theorem decode_functionSafety {verdicts : ModuleVerdicts}
    (hnames : ∀ e ∈ verdicts.entries, (∀ n ∈ e.2.missingDepCallees, n ∈ table.names) ∧
      ∀ param ∈ e.2.mutatedParams, param.name ∈ table.names) :
    ∃ es, ((S.sortOn Prod.fst verdicts.entries).map fun e =>
          (e.1, WireFunctionSafetyInfo.encode S table e.2)).mapM
        (decodeFunctionSafety table.names) = .ok es ∧
      ((Table.ofList es).entries.map (viewFunctionSafety (writtenParams S table))).Perm
        (verdicts.entries.map (viewFunctionSafety (writtenParams S table))) := by
  have hsorted := S.sortOn_perm Prod.fst verdicts.entries
  obtain ⟨es, hes, hview⟩ := exists_mapM_ok
    (f := decodeFunctionSafety table.names)
    (e := fun e => (e.1, WireFunctionSafetyInfo.encode S table e.2))
    (v := viewFunctionSafety (writtenParams S table))
    (w := viewFunctionSafety (writtenParams S table)) fun e he => by
      obtain ⟨hcallees, hparams⟩ := hnames e (hsorted.subset he)
      obtain ⟨info, hdecode, hinfo⟩ :=
        WireFunctionSafetyInfo.decode_encode (S := S) hcallees hparams
      refine ⟨(e.1, info), ?_, Prod.ext rfl hinfo⟩
      rw [decodeFunctionSafety, hdecode]
      rfl
  have hperm : (es.map (viewFunctionSafety (writtenParams S table))).Perm
      (verdicts.entries.map (viewFunctionSafety (writtenParams S table))) := by
    rw [hview]
    exact hsorted.map _
  -- the keys are those of the table, so none of them is repeated
  have hkeys : (es.map Prod.fst).Nodup := by
    have hfst := hperm.map Prod.fst
    rw [List.map_map, List.map_map] at hfst
    exact hfst.nodup_iff.mpr verdicts.nodup
  refine ⟨es, hes, ?_⟩
  rwa [Table.entries_ofList hkeys]

/-- Every name of the module is in the table. -/
structure Interned (table : NameTable) (m : CachedModule) : Prop where
  name : m.name ∈ table.names
  imports : ∀ n ∈ m.imports, n ∈ table.names
  missingImports : ∀ n ∈ m.missingImports, n ∈ table.names
  ambiguousImports : ∀ n ∈ m.ambiguousImports, n ∈ table.names
  sideEffectImports : ∀ n ∈ m.sideEffectImports, n ∈ table.names
  mainGuard : ∀ n ∈ m.mainGuard.imports, n ∈ table.names
  implicitImports : ∀ n ∈ m.safety.implicitImports, n ∈ table.names
  functions : ∀ e ∈ m.functionSafety.entries,
    (∀ n ∈ e.2.missingDepCallees, n ∈ table.names) ∧
      ∀ param ∈ e.2.mutatedParams, param.name ∈ table.names
  mutations : ∀ c ∈ m.mutationCandidates, c.callee ∈ table.names ∧ c.site.name ∈ table.names ∧
    ∀ n ∈ c.importedArgs.unsafeKeywordNames, n ∈ table.names
  properties : ∀ c ∈ m.propertyCandidates, c.attributeName ∈ table.names
  subclasses : ∀ c ∈ m.subclassCandidates, c.candidateClass ∈ table.names

theorem interned_of_forall {m : CachedModule}
    (hnames : ∀ n ∈ collectModuleNames m, n ∈ table.names) : Interned table m := by
  simp only [collectModuleNames, List.mem_cons, List.mem_append, mem_elems, List.mem_flatMap,
    List.mem_map, or_assoc, or_imp, forall_and, forall_eq, forall_exists_index, and_imp,
    forall_apply_eq_imp_iff₂] at hnames
  obtain ⟨hname, himports, hmissing, hambiguous, hside, hguard, himplicit, ⟨hcallees, hparams⟩,
    ⟨hmutation, hsite, hkeywords⟩, hproperties, hsubclasses⟩ := hnames
  exact ⟨hname, himports, hmissing, hambiguous, hside, hguard, himplicit,
    fun e he => ⟨fun n hn => hcallees n e he hn, fun param hp => hparams _ e he param hp rfl⟩,
    fun c hc => ⟨hmutation _ c hc rfl, hsite _ c hc rfl, fun n hn => hkeywords n c hc hn⟩,
    hproperties, hsubclasses⟩

/-- A module comes back with the view it was written with. -/
theorem WireModule.decode_encode {m : CachedModule} (hm : Interned table m) :
    ∃ m', (WireModule.encode S table m).decode table.names = .ok m' ∧
      m'.view (writtenParams S table) = m.view (writtenParams S table) := by
  obtain ⟨safety, hsafety, hsafetyView⟩ := WireSafety.decode_encode (S := S) hm.implicitImports
  obtain ⟨functions, hfunctions, hfunctionsView⟩ := decode_functionSafety (S := S) hm.functions
  obtain ⟨mutations, hmutations, hmutationsView⟩ := exists_mapM_ok
    (f := WireMutationCandidate.decode table.names) (e := WireMutationCandidate.encode S table)
    (v := MutationCandidate.view) (w := MutationCandidate.view) (l := m.mutationCandidates)
    fun c hc => by
      obtain ⟨hcallee, hsite, hkeywords⟩ := hm.mutations c hc
      exact WireMutationCandidate.decode_encode hcallee hsite hkeywords
  have hproperties := S.sortOn_perm PropertyCandidate.sortKey m.propertyCandidates
  obtain ⟨properties, hdecodeProperties, hpropertiesView⟩ := exists_mapM_ok
    (f := WirePropertyCandidate.decode table.names) (e := WirePropertyCandidate.encode table)
    (v := PropertyCandidate.view) (w := PropertyCandidate.view)
    (l := S.sortOn PropertyCandidate.sortKey m.propertyCandidates) fun c hc =>
      WirePropertyCandidate.decode_encode (hm.properties c (hproperties.subset hc))
  have hsubclasses := S.sortOn_perm SubclassCandidate.sortKey m.subclassCandidates
  obtain ⟨subclasses, hdecodeSubclasses, hsubclassesView⟩ := exists_mapM_ok
    (f := WireSubclassCandidate.decode table.names) (e := WireSubclassCandidate.encode table)
    (v := SubclassCandidate.view) (w := SubclassCandidate.view)
    (l := S.sortOn SubclassCandidate.sortKey m.subclassCandidates) fun c hc =>
      WireSubclassCandidate.decode_encode (hm.subclasses c (hsubclasses.subset hc))
  refine ⟨{ m with
    safety := safety
    functionSafety := Table.ofList functions
    mutationCandidates := mutations
    propertyCandidates := properties
    subclassCandidates := subclasses }, ?_, ?_⟩
  · rw [WireModule.encode, WireModule.decode, decodeName_id hm.name, hsafety,
      decodeNameSet_encodeSorted hm.imports, decodeNameSet_encodeSorted hm.missingImports,
      decodeNameSet_encodeSorted hm.ambiguousImports,
      decodeNameSet_encodeSorted hm.sideEffectImports, decodeNameSet_encodeSorted hm.mainGuard,
      hfunctions, hmutations, hdecodeProperties, hdecodeSubclasses]
    rfl
  · have hpropertiesPerm := hpropertiesView ▸ hproperties.map PropertyCandidate.view
    have hsubclassesPerm := hsubclassesView ▸ hsubclasses.map SubclassCandidate.view
    rw [CachedModule.view, CachedModule.view, hsafetyView, hmutationsView,
      Multiset.coe_eq_coe.mpr hfunctionsView, Multiset.coe_eq_coe.mpr hpropertiesPerm,
      Multiset.coe_eq_coe.mpr hsubclassesPerm]

end Records

/-! ## The header -/

section Header

variable {S : UnstableSort} {table : NameTable}

theorem WireReExport.decode_encode {re : CachedReExport}
    (h : re.exportedModule ∈ table.names ∧ re.importedModule ∈ table.names) :
    (WireReExport.encode table re).decode table.names = .ok re := by
  rw [WireReExport.encode, WireReExport.decode, decodeName_id h.1, decodeName_id h.2]
  rfl

theorem decodeReturnType_encode {rt : CachedReturnType}
    (h : rt.function ∈ table.names ∧ rt.returnClass ∈ table.names) :
    decodeReturnType table.names (encodeReturnType table rt) = .ok rt := by
  rw [encodeReturnType, decodeReturnType, decodeName_id h.1, decodeName_id h.2]
  rfl

theorem decodeClassBases_encode {e : ModuleName × List ModuleName}
    (h : e.1 ∈ table.names ∧ ∀ n ∈ e.2, n ∈ table.names) :
    decodeClassBases table.names (encodeClassBases table e) = .ok e := by
  rw [encodeClassBases, decodeClassBases, decodeName_id h.1, decodeNames_map_id h.2]
  rfl

theorem decodeConstructorCallees_encode {e : ModuleName × ConstructorCallees}
    (h : e.1 ∈ table.names ∧ (∀ n ∈ e.2.metaclass, n ∈ table.names) ∧
      ∀ n ∈ e.2.extra, n ∈ table.names) :
    ∃ e', decodeConstructorCallees table.names (encodeConstructorCallees S table e) = .ok e' ∧
      viewConstructorCallees e' = viewConstructorCallees e := by
  obtain ⟨extra, hextra, hperm⟩ := decodeNames_encodeSorted (S := S) h.2.2
  have hmeta : decodeMetaclass table.names (e.2.metaclass.map table.id) = .ok e.2.metaclass := by
    cases hcase : e.2.metaclass with
    | none => rfl
    | some metaclass =>
      rw [Option.map_some, decodeMetaclass, decodeName_id (h.2.1 metaclass hcase)]
      rfl
  refine ⟨(e.1, { e.2 with extra := extra }), ?_, ?_⟩
  · rw [encodeConstructorCallees, decodeConstructorCallees, decodeName_id h.1, hmeta, hextra]
    rfl
  · rw [viewConstructorCallees, viewConstructorCallees, Multiset.coe_eq_coe.mpr hperm]

theorem decodeClassProperties_encode {e : ModuleName × List Str} (h : e.1 ∈ table.names) :
    ∃ e', decodeClassProperties table.names (encodeClassProperties S table e) = .ok e' ∧
      viewClassProperties e' = viewClassProperties e := by
  refine ⟨(e.1, S.sortOn (fun p : Str => p) e.2), ?_, ?_⟩
  · rw [encodeClassProperties, decodeClassProperties, decodeName_id h]
    rfl
  · rw [viewClassProperties, viewClassProperties, Multiset.coe_eq_coe.mpr (S.sortOn_perm _ e.2)]

/-- Every name of the cache is in the table. -/
structure LibraryCache.Interned (table : NameTable) (cache : LibraryCache) : Prop where
  modules : ∀ m ∈ cache.modules, Lifeguard.Interned table m
  reExports : ∀ re ∈ cache.exports.reExports,
    re.exportedModule ∈ table.names ∧ re.importedModule ∈ table.names
  returnTypes : ∀ rt ∈ cache.exports.returnTypes,
    rt.function ∈ table.names ∧ rt.returnClass ∈ table.names
  classBases : ∀ e ∈ cache.classBases, e.1 ∈ table.names ∧ ∀ n ∈ e.2, n ∈ table.names
  constructorCallees : ∀ e ∈ cache.constructorCallees, e.1 ∈ table.names ∧
    (∀ n ∈ e.2.metaclass, n ∈ table.names) ∧ ∀ n ∈ e.2.extra, n ∈ table.names
  classProperties : ∀ e ∈ cache.classProperties, e.1 ∈ table.names

/-- The table built for a cache holds its names. -/
theorem interned_of_build {cache : LibraryCache} (h : NameTable.build S cache = .ok table) :
    cache.Interned table := by
  have hnames : ∀ n ∈ cache.collectNames, n ∈ table.names := fun n hn => by
    rw [(NameTable.build_eq_ok.mp h).2, S.mem_sortOn]
    exact List.mem_dedup.mpr hn
  simp only [LibraryCache.collectNames, List.mem_cons, List.mem_append, List.mem_flatMap,
    List.mem_map, List.not_mem_nil, or_false, or_assoc, or_imp, forall_and,
    forall_exists_index, and_imp, forall_apply_eq_imp_iff₂, Option.mem_toList] at hnames
  obtain ⟨hmodules, ⟨hexported, himported⟩, ⟨hfunction, hreturn⟩, ⟨hclass, hbases⟩,
    ⟨howner, hmeta, hextra⟩, hproperties⟩ := hnames
  exact
    { modules := fun m hm => interned_of_forall fun n hn => hmodules n m hm hn
      reExports := fun re hre => ⟨hexported _ re hre rfl, himported _ re hre rfl⟩
      returnTypes := fun rt hrt => ⟨hfunction _ rt hrt rfl, hreturn _ rt hrt rfl⟩
      classBases := fun e he => ⟨hclass _ e he rfl, fun n hn => hbases n e he hn⟩
      constructorCallees := fun e he =>
        ⟨howner _ e he rfl, fun n hn => hmeta n e he hn, fun n hn => hextra n e he hn⟩
      classProperties := hproperties }

end Header

end Lifeguard
