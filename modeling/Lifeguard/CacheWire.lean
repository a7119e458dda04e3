import Lifeguard.Cache
import Lifeguard.Lib.Canon
import Lifeguard.Lib.Codec
import Mathlib.Data.Char
import Mathlib.Data.Finset.Sort
import Mathlib.Data.List.Dedup
import Mathlib.Data.List.Lex
import Mathlib.Data.Prod.Lex
import Mathlib.Order.WithBot

/-!
# The wire format of a cache

How a `LibraryCache` is written to bytes and read back (`cache_wire.rs`). Every name is
interned into one sorted table, and every record is rewritten in terms of the ids of its
names; the header holds the table and the export and class facts, and one length-prefixed
blob follows for each module.

- `Wire…`: the records as they are serialized.
- `NameTable`: the table of names, with its id lookup.
- `encode` / `decode`: the two halves of each record's conversion.
- `write`, `read`: the framing of the header and the module blobs.

The serializer is the parameter `Postcard`; its round trip is the field of a codec. The
sorts are those of an `UnstableSort`: nothing is used of the order they leave ties in. A
serialization of a `SafetyError` leaves its range out, so the records hold
`SerializedSafetyError`s.
-/

namespace Lifeguard

open Lib

/-! ## Orders -/

namespace ErrorKind

/-- Every kind, in declaration order. -/
def all : List ErrorKind :=
  [unsafeDecoratorCall, unsafeFunctionCall, unsafeMethodCall, prohibitedCall,
    unknownDecoratorCall, unknownFunctionCall, unknownMethodCall, unknownObject,
    unhandledException, customFinalizer, execCall, sysModulesAccess, subclassesAccess,
    importedModuleAssignment, importedVarArgument, unknownEffects, tooManyArgs,
    builtinsImportOverride, namesOnlyInStub, subclassRegistration]

/-- The place of the kind in its declaration. -/
def index (kind : ErrorKind) : Nat := all.idxOf kind

theorem all_index (kind : ErrorKind) : all[kind.index]? = some kind := by
  cases kind <;> rfl

theorem index_injective : Function.Injective index := by
  intro a b h
  have ha := all_index a
  rw [h, all_index b] at ha
  exact (Option.some.inj ha).symm

end ErrorKind

/-- The derived order of the kinds: that of their declaration. -/
instance : LinearOrder ErrorKind := LinearOrder.lift' ErrorKind.index ErrorKind.index_injective

/-- Bytes are compared as numbers. -/
instance linearOrderUInt8 : LinearOrder UInt8 := LinearOrder.lift' UInt8.toNat fun _ _ => UInt8.toNat_inj.mp

/-! ## The records -/

/-- A name in the table: a 32-bit unsigned integer. -/
abbrev NameId := Nat

/-- `NameId::MAX`. -/
def nameIdMax : Nat := 2 ^ 32 - 1

/-- `SerializedSafetyError`. -/
structure SerializedSafetyError where
  kind : ErrorKind
  metadata : Str
  parameterizedDecorator : Bool
  fromMainGuard : Bool
  deriving DecidableEq, Repr

/-- `WireReExport`. -/
structure WireReExport where
  exportedModule : NameId
  exportedAttr : Str
  importedModule : NameId
  importedAttr : Str
  deriving DecidableEq, Repr

/-- `WireImportedArgs`. -/
structure WireImportedArgs where
  unsafeArgIndices : BitVec 64
  unsafeKeywordNames : List NameId
  hasUnsafeKwargsExpansion : Bool
  unsafeArgsExpansionMin : Option Nat
  deriving DecidableEq, Repr

/-- `WireMutationCandidateSite`. -/
inductive WireMutationCandidateSite
  | moduleScope (call : NameId)
  | function (name : NameId)
  deriving DecidableEq, Repr

/-- `WireMutationCandidate`. -/
structure WireMutationCandidate where
  callee : NameId
  site : WireMutationCandidateSite
  argOffset : Nat
  importedArgs : WireImportedArgs
  fromMainGuard : Bool
  deriving DecidableEq, Repr

/-- `WirePropertyCandidate`. -/
structure WirePropertyCandidate where
  attributeName : NameId
  fromMainGuard : Bool
  deriving DecidableEq, Repr

/-- `WireSubclassCandidate`. -/
structure WireSubclassCandidate where
  candidateClass : NameId
  fromMainGuard : Bool
  deriving DecidableEq, Repr

/-- `WireMutatedParam`. -/
structure WireMutatedParam where
  name : NameId
  position : ParamPosition
  deriving DecidableEq, Repr

/-- `WireFunctionSafetyInfo`. -/
structure WireFunctionSafetyInfo where
  verdict : FunctionSafety
  missingDepCallees : List NameId
  mutatedParams : List WireMutatedParam
  deriving DecidableEq

/-- `WireSafety`. -/
inductive WireSafety
  | ok (errors forceImportsEagerOverrides : List SerializedSafetyError)
      (implicitImports : List NameId)
  | analysisError (message : Str)
  deriving DecidableEq, Repr

/-- `WireModule`. -/
structure WireModule where
  name : NameId
  safety : WireSafety
  imports : List NameId
  missingImports : List NameId
  ambiguousImports : List NameId
  sideEffectImports : List NameId
  mainGuardImports : List NameId
  functionSafety : List (Str × WireFunctionSafetyInfo)
  mutationCandidates : List WireMutationCandidate
  propertyCandidates : List WirePropertyCandidate
  subclassCandidates : List WireSubclassCandidate
  deriving DecidableEq

/-- `WireHeader`. -/
structure WireHeader where
  names : List ModuleName
  reExports : List WireReExport
  returnTypes : List (NameId × NameId)
  classBases : List (NameId × List NameId)
  /-- Class id, its metaclass id, the callee mask and the callees it cannot name. -/
  constructorCallees : List (NameId × Option NameId × BitVec 8 × List NameId)
  classProperties : List (NameId × List Str)
  deriving DecidableEq

/-- The serializer: what it writes of a record it reads back, and it leaves what follows. -/
structure Postcard where
  header : Codec WireHeader
  record : Codec WireModule

/-- What `write` and `read` refuse, in the order of the source. -/
inductive WireError
  | tooManyNames
  | lengthTooLarge
  | headerOverflow
  | truncatedHeader
  | moduleCount (count : Nat)
  | moduleOverflow
  | truncatedModule
  | trailingData
  | offsetOverflow
  | truncatedLength
  | nameOutOfBounds (id : NameId)
  /-- An error of the serializer, which names it. -/
  | postcard
  deriving DecidableEq, Repr

/-- The text the error is reported with. -/
def WireError.message : WireError → String
  | tooManyNames => "cache contains too many distinct module names"
  | lengthTooLarge => "cache length does not fit in u64"
  | headerOverflow => "cache header length overflow"
  | truncatedHeader => "truncated Lifeguard cache header"
  | moduleCount count => s!"cache module count {count} exceeds remaining bytes"
  | moduleOverflow => "cache module length overflow"
  | truncatedModule => "truncated Lifeguard cache module"
  | trailingData => "trailing data in Lifeguard cache"
  | offsetOverflow => "cache offset overflow"
  | truncatedLength => "truncated Lifeguard cache length"
  | nameOutOfBounds id => s!"cache module-name id {id} is out of bounds"
  | postcard => ""

/-! ## The name table -/

/-- `NameTable`: the distinct names in order. The id of a name is its place. -/
structure NameTable where
  names : List ModuleName
  sorted : names.Pairwise (· < ·)
  fits : names.length ≤ nameIdMax

/-- The members of a hash set. What reads them does not depend on their order. -/
def elems (s : Finset ModuleName) : List ModuleName := s.sort (· ≤ ·)

@[simp] theorem mem_elems {s : Finset ModuleName} {n : ModuleName} : n ∈ elems s ↔ n ∈ s :=
  Finset.mem_sort _

/-- The names of a site. -/
def MutationCandidateSite.name : MutationCandidateSite → ModuleName
  | moduleScope call => call
  | function name => name

/-- The implicit imports of a module whose analysis succeeded. -/
def CachedSafety.implicitImports : CachedSafety → List ModuleName
  | .ok safety => safety.implicitImports
  | .analysisError _ => []

/-- `collect_module_names`. -/
def collectModuleNames (m : CachedModule) : List ModuleName :=
  m.name :: (elems m.imports ++ elems m.missingImports ++ elems m.ambiguousImports ++
    elems m.sideEffectImports ++ elems m.mainGuard.imports ++
    m.safety.implicitImports ++
    (m.functionSafety.entries.flatMap fun e =>
      elems e.2.missingDepCallees ++ e.2.mutatedParams.map MutatedParam.name) ++
    (m.mutationCandidates.flatMap fun candidate =>
      candidate.callee :: candidate.site.name :: candidate.importedArgs.unsafeKeywordNames) ++
    m.propertyCandidates.map PropertyCandidate.attributeName ++
    m.subclassCandidates.map SubclassCandidate.candidateClass)

/-- Every name of the cache, with repetitions. -/
def LibraryCache.collectNames (cache : LibraryCache) : List ModuleName :=
  cache.modules.flatMap collectModuleNames ++
    (cache.exports.reExports.flatMap fun re => [re.exportedModule, re.importedModule]) ++
    (cache.exports.returnTypes.flatMap fun rt => [rt.function, rt.returnClass]) ++
    (cache.classBases.flatMap fun e => e.1 :: e.2) ++
    (cache.constructorCallees.flatMap fun e => e.1 :: (e.2.metaclass.toList ++ e.2.extra)) ++
    cache.classProperties.map Prod.fst

/-- The distinct names of the cache; a hash set in the source, sorted by what reads it. -/
def LibraryCache.uniqueNames (cache : LibraryCache) : List ModuleName :=
  cache.collectNames.dedup

namespace NameTable

variable (S : UnstableSort)

theorem sorted_uniqueNames (cache : LibraryCache) :
    (S.sortOn (fun n : ModuleName => n) cache.uniqueNames).Pairwise (· < ·) := by
  have hnodup : (S.sortOn (fun n : ModuleName => n) cache.uniqueNames).Nodup :=
    (S.sortOn_perm _ _).nodup_iff.mpr (List.nodup_dedup _)
  exact (S.pairwise_sortOn (fun n : ModuleName => n) _).imp₂ (fun _ _ => lt_of_le_of_ne) hnodup

/-- `NameTable::build`. -/
def build (cache : LibraryCache) : Except WireError NameTable :=
  if h : cache.uniqueNames.length ≤ nameIdMax then
    .ok
      { names := S.sortOn (fun n : ModuleName => n) cache.uniqueNames
        sorted := sorted_uniqueNames S cache
        fits := by
          rw [(S.sortOn_perm _ _).length_eq]
          exact h }
  else .error .tooManyNames

/-- `NameTable::id`. The source expects the name to be in the table; a name that is not
would get an id that no table holds, which `read` would refuse. -/
def id (table : NameTable) (name : ModuleName) : NameId := table.names.idxOf name

/-- `encode_sorted`. -/
def encodeSorted (table : NameTable) (names : List ModuleName) : List NameId :=
  S.sortOn (fun id : NameId => id) (names.map table.id)

end NameTable

/-! ## Encoding -/

/-- `Serialize for SafetyError`: the range is not written. -/
def SafetyError.serialize (e : SafetyError) : SerializedSafetyError where
  kind := e.kind
  metadata := e.metadata
  parameterizedDecorator := e.parameterizedDecorator
  fromMainGuard := e.fromMainGuard

/-- `SafetyError::cmp`, as a key. -/
def SafetyError.sortKey (e : SafetyError) : ErrorKind ×ₗ Str ×ₗ Bool ×ₗ Bool :=
  toLex (e.kind, toLex (e.metadata, toLex (e.parameterizedDecorator, e.fromMainGuard)))

/-- `PropertyCandidate::cmp`, as a key. -/
def PropertyCandidate.sortKey (c : PropertyCandidate) : ModuleName ×ₗ Bool :=
  toLex (c.attributeName, c.fromMainGuard)

/-- `SubclassCandidate::cmp`, as a key. -/
def SubclassCandidate.sortKey (c : SubclassCandidate) : ModuleName ×ₗ Bool :=
  toLex (c.candidateClass, c.fromMainGuard)

/-- `WireReExport::sort_key`. -/
def WireReExport.sortKey (re : WireReExport) : NameId ×ₗ Str ×ₗ NameId ×ₗ Str :=
  toLex (re.exportedModule, toLex (re.exportedAttr, toLex (re.importedModule, re.importedAttr)))

section Encode

variable (S : UnstableSort) (table : NameTable)

/-- `sorted_errors`, serialized. -/
def sortedErrors (errors : List SafetyError) : List SerializedSafetyError :=
  (S.sortOn SafetyError.sortKey errors).map SafetyError.serialize

/-- `WireSafety::encode`. -/
def WireSafety.encode : CachedSafety → WireSafety
  | .ok safety =>
    .ok (sortedErrors S safety.errors) (sortedErrors S safety.forceImportsEagerOverrides)
      (table.encodeSorted S safety.implicitImports)
  | .analysisError message => .analysisError message

def WireMutatedParam.encode (param : MutatedParam) : WireMutatedParam where
  name := table.id param.name
  position := param.position

/-- `mutated_params` of `WireFunctionSafetyInfo::encode`: sorted by the name alone. -/
def encodeMutatedParams (params : List MutatedParam) : List WireMutatedParam :=
  S.sortOn WireMutatedParam.name (params.map (WireMutatedParam.encode table))

/-- `WireFunctionSafetyInfo::encode`. -/
def WireFunctionSafetyInfo.encode (info : FunctionSafetyInfo) : WireFunctionSafetyInfo where
  verdict := info.verdict
  missingDepCallees := table.encodeSorted S (elems info.missingDepCallees)
  mutatedParams := encodeMutatedParams S table info.mutatedParams

def WireMutationCandidateSite.encode : MutationCandidateSite → WireMutationCandidateSite
  | .moduleScope call => .moduleScope (table.id call)
  | .function name => .function (table.id name)

def WireImportedArgs.encode (args : ImportedArgs) : WireImportedArgs where
  unsafeArgIndices := args.unsafeArgIndices
  unsafeKeywordNames := table.encodeSorted S args.unsafeKeywordNames
  hasUnsafeKwargsExpansion := args.hasUnsafeKwargsExpansion
  unsafeArgsExpansionMin := args.unsafeArgsExpansionMin

/-- `WireMutationCandidate::encode`. -/
def WireMutationCandidate.encode (candidate : MutationCandidate) : WireMutationCandidate where
  callee := table.id candidate.callee
  site := .encode table candidate.site
  argOffset := candidate.argOffset
  importedArgs := .encode S table candidate.importedArgs
  fromMainGuard := candidate.fromMainGuard

/-- `WirePropertyCandidate::encode`. -/
def WirePropertyCandidate.encode (candidate : PropertyCandidate) : WirePropertyCandidate where
  attributeName := table.id candidate.attributeName
  fromMainGuard := candidate.fromMainGuard

/-- `WireSubclassCandidate::encode`. -/
def WireSubclassCandidate.encode (candidate : SubclassCandidate) : WireSubclassCandidate where
  candidateClass := table.id candidate.candidateClass
  fromMainGuard := candidate.fromMainGuard

/-- `WireModule::encode`. The mutation candidates are order-sensitive and stay as they
are. -/
def WireModule.encode (m : CachedModule) : WireModule where
  name := table.id m.name
  safety := .encode S table m.safety
  imports := table.encodeSorted S (elems m.imports)
  missingImports := table.encodeSorted S (elems m.missingImports)
  ambiguousImports := table.encodeSorted S (elems m.ambiguousImports)
  sideEffectImports := table.encodeSorted S (elems m.sideEffectImports)
  mainGuardImports := table.encodeSorted S (elems m.mainGuard.imports)
  functionSafety := (S.sortOn Prod.fst m.functionSafety.entries).map fun e =>
    (e.1, .encode S table e.2)
  mutationCandidates := m.mutationCandidates.map (.encode S table)
  propertyCandidates :=
    (S.sortOn PropertyCandidate.sortKey m.propertyCandidates).map (.encode table)
  subclassCandidates :=
    (S.sortOn SubclassCandidate.sortKey m.subclassCandidates).map (.encode table)

/-- `WireReExport::encode`. -/
def WireReExport.encode (re : CachedReExport) : WireReExport where
  exportedModule := table.id re.exportedModule
  exportedAttr := re.exportedAttr
  importedModule := table.id re.importedModule
  importedAttr := re.importedAttr

def encodeReturnType (rt : CachedReturnType) : NameId × NameId :=
  (table.id rt.function, table.id rt.returnClass)

/-- A class's bases keep their declaration order. -/
def encodeClassBases (e : ModuleName × List ModuleName) : NameId × List NameId :=
  (table.id e.1, e.2.map table.id)

def encodeConstructorCallees (e : ModuleName × ConstructorCallees) :
    NameId × Option NameId × BitVec 8 × List NameId :=
  (table.id e.1, e.2.metaclass.map table.id, e.2.mask, table.encodeSorted S e.2.extra)

def encodeClassProperties (e : ModuleName × List Str) : NameId × List Str :=
  (table.id e.1, S.sortOn (fun p : Str => p) e.2)

/-- The whole constructor record, as a sort key. -/
def constructorKey (p : NameId × Option NameId × BitVec 8 × List NameId) :
    NameId ×ₗ WithBot NameId ×ₗ Nat ×ₗ List NameId :=
  toLex (p.1, toLex ((p.2.1 : WithBot NameId), toLex (p.2.2.1.toNat, p.2.2.2)))

/-- The header that `write` builds. -/
def WireHeader.encode (cache : LibraryCache) : WireHeader where
  names := table.names
  reExports := S.sortOn WireReExport.sortKey (cache.exports.reExports.map (.encode table))
  returnTypes := S.sortOn (fun p : NameId × NameId => toLex p)
    (cache.exports.returnTypes.map (encodeReturnType table))
  classBases := S.sortOn (fun p : NameId × List NameId => toLex p)
    (cache.classBases.map (encodeClassBases table))
  constructorCallees :=
    S.sortOn constructorKey (cache.constructorCallees.map (encodeConstructorCallees S table))
  classProperties := S.sortOn (fun p : NameId × List Str => toLex p)
    (cache.classProperties.map (encodeClassProperties S table))

end Encode

/-! ## Writing -/

/-- `write_len`. -/
def writeLen (len : Nat) : Except WireError (List UInt8) :=
  if len < 2 ^ 64 then .ok (Codec.leBytes 8 len) else .error .lengthTooLarge

/-- A blob after its length. -/
def writeBlob (blob : List UInt8) : Except WireError (List UInt8) :=
  (writeLen blob.length).map fun len => len ++ blob

/-- The file: the header after its length, the number of blobs, the blobs. -/
def frame (header : List UInt8) (blobs : List (List UInt8)) : Except WireError (List UInt8) := do
  let header ← writeBlob header
  let count ← writeLen blobs.length
  let blobs ← blobs.mapM writeBlob
  return header ++ count ++ blobs.flatten

section Write

variable (P : Postcard) (S : UnstableSort)

/-- The blobs of the modules in the order of their names, the blob breaking ties. -/
def moduleBlobs (table : NameTable) (cache : LibraryCache) : List (NameId × List UInt8) :=
  S.sortOn (fun p : NameId × List UInt8 => toLex p)
    (cache.modules.map fun m => (table.id m.name, P.record.put (.encode S table m)))

/-- `write`: the bytes of the file. -/
def write (cache : LibraryCache) : Except WireError (List UInt8) := do
  let table ← NameTable.build S cache
  frame (P.header.put (.encode S table cache)) ((moduleBlobs P S table cache).map Prod.snd)

end Write

/-! ## Decoding -/

section Decode

variable (names : List ModuleName)

/-- `decode_name`. -/
def decodeName (id : NameId) : Except WireError ModuleName :=
  match names[id]? with
  | some name => .ok name
  | none => .error (.nameOutOfBounds id)

/-- `decode_names`. -/
def decodeNames (ids : List NameId) : Except WireError (List ModuleName) :=
  ids.mapM (decodeName names)

/-- `decode_name_set`. -/
def decodeNameSet (ids : List NameId) : Except WireError (Finset ModuleName) :=
  (decodeNames names ids).map List.toFinset

/-- `Deserialize for SafetyError`: the range is the default one. -/
def SerializedSafetyError.deserialize (e : SerializedSafetyError) : SafetyError where
  kind := e.kind
  metadata := e.metadata
  parameterizedDecorator := e.parameterizedDecorator
  fromMainGuard := e.fromMainGuard

/-- `WireSafety::decode`. -/
def WireSafety.decode : WireSafety → Except WireError CachedSafety
  | .ok errors overrides implicitImports => do
    let implicitImports ← decodeNames names implicitImports
    return .ok
      { errors := errors.map SerializedSafetyError.deserialize
        forceImportsEagerOverrides := overrides.map SerializedSafetyError.deserialize
        implicitImports := implicitImports }
  | .analysisError message => .ok (.analysisError message)

def WireMutatedParam.decode (param : WireMutatedParam) : Except WireError MutatedParam := do
  return { name := ← decodeName names param.name, position := param.position }

/-- `WireFunctionSafetyInfo::decode`. -/
def WireFunctionSafetyInfo.decode (info : WireFunctionSafetyInfo) :
    Except WireError FunctionSafetyInfo := do
  let missingDepCallees ← decodeNameSet names info.missingDepCallees
  let mutatedParams ← info.mutatedParams.mapM (WireMutatedParam.decode names)
  return {
    verdict := info.verdict
    missingDepCallees := missingDepCallees
    mutatedParams := mutatedParams }

def WireMutationCandidateSite.decode :
    WireMutationCandidateSite → Except WireError MutationCandidateSite
  | .moduleScope call => (decodeName names call).map .moduleScope
  | .function name => (decodeName names name).map .function

/-- `WireMutationCandidate::decode`. -/
def WireMutationCandidate.decode (candidate : WireMutationCandidate) :
    Except WireError MutationCandidate := do
  let site ← candidate.site.decode names
  let callee ← decodeName names candidate.callee
  let keywords ← decodeNames names candidate.importedArgs.unsafeKeywordNames
  return {
    callee := callee
    site := site
    argOffset := candidate.argOffset
    fromMainGuard := candidate.fromMainGuard
    importedArgs :=
      { unsafeArgIndices := candidate.importedArgs.unsafeArgIndices
        unsafeKeywordNames := keywords
        hasUnsafeKwargsExpansion := candidate.importedArgs.hasUnsafeKwargsExpansion
        unsafeArgsExpansionMin := candidate.importedArgs.unsafeArgsExpansionMin } }

/-- `WirePropertyCandidate::decode`. -/
def WirePropertyCandidate.decode (candidate : WirePropertyCandidate) :
    Except WireError PropertyCandidate := do
  return {
    attributeName := ← decodeName names candidate.attributeName
    fromMainGuard := candidate.fromMainGuard }

/-- `WireSubclassCandidate::decode`. -/
def WireSubclassCandidate.decode (candidate : WireSubclassCandidate) :
    Except WireError SubclassCandidate := do
  return {
    candidateClass := ← decodeName names candidate.candidateClass
    fromMainGuard := candidate.fromMainGuard }

/-- An entry of `function_safety`. -/
def decodeFunctionSafety (e : Str × WireFunctionSafetyInfo) :
    Except WireError (Str × FunctionSafetyInfo) :=
  (e.2.decode names).map fun info => (e.1, info)

/-- `WireModule::decode`. -/
def WireModule.decode (m : WireModule) : Except WireError CachedModule := do
  let name ← decodeName names m.name
  let safety ← m.safety.decode names
  let imports ← decodeNameSet names m.imports
  let missingImports ← decodeNameSet names m.missingImports
  let ambiguousImports ← decodeNameSet names m.ambiguousImports
  let sideEffectImports ← decodeNameSet names m.sideEffectImports
  let mainGuardImports ← decodeNameSet names m.mainGuardImports
  let functionSafety ← m.functionSafety.mapM (decodeFunctionSafety names)
  let mutationCandidates ← m.mutationCandidates.mapM (WireMutationCandidate.decode names)
  let propertyCandidates ← m.propertyCandidates.mapM (WirePropertyCandidate.decode names)
  let subclassCandidates ← m.subclassCandidates.mapM (WireSubclassCandidate.decode names)
  return {
    name := name
    safety := safety
    imports := imports
    missingImports := missingImports
    ambiguousImports := ambiguousImports
    sideEffectImports := sideEffectImports
    mainGuard := { imports := mainGuardImports }
    functionSafety := Table.ofList functionSafety
    mutationCandidates := mutationCandidates
    propertyCandidates := propertyCandidates
    subclassCandidates := subclassCandidates }

/-- `WireReExport::decode`. -/
def WireReExport.decode (re : WireReExport) : Except WireError CachedReExport := do
  return {
    exportedModule := ← decodeName names re.exportedModule
    exportedAttr := re.exportedAttr
    importedModule := ← decodeName names re.importedModule
    importedAttr := re.importedAttr }

def decodeReturnType (rt : NameId × NameId) : Except WireError CachedReturnType := do
  return { function := ← decodeName names rt.1, returnClass := ← decodeName names rt.2 }

def decodeClassBases (e : NameId × List NameId) :
    Except WireError (ModuleName × List ModuleName) := do
  return (← decodeName names e.1, ← decodeNames names e.2)

/-- A metaclass id that is there has to decode. -/
def decodeMetaclass : Option NameId → Except WireError (Option ModuleName)
  | none => .ok none
  | some id => (decodeName names id).map some

def decodeConstructorCallees (e : NameId × Option NameId × BitVec 8 × List NameId) :
    Except WireError (ModuleName × ConstructorCallees) := do
  let cls ← decodeName names e.1
  let metaclass ← decodeMetaclass names e.2.1
  let extra ← decodeNames names e.2.2.2
  return (cls, { metaclass := metaclass, mask := e.2.2.1, extra := extra })

def decodeClassProperties (e : NameId × List Str) :
    Except WireError (ModuleName × List Str) := do
  return (← decodeName names e.1, e.2)

end Decode

/-! ## Reading -/

/-- The next so many bytes and the offset after them. A sum beyond a machine word is an
overflow; it lies beyond the end of any byte vector, so the bound is checked first. -/
def takeBytes (bytes : List UInt8) (offset len : Nat) (overflow truncated : WireError) :
    Except WireError (List UInt8 × Nat) :=
  if offset + len ≤ bytes.length then .ok ((bytes.drop offset).take len, offset + len)
  else if offset + len < 2 ^ 64 then .error truncated
  else .error overflow

/-- `read_len`. -/
def readLen (bytes : List UInt8) (offset : Nat) : Except WireError (Nat × Nat) := do
  let (raw, offset) ← takeBytes bytes offset 8 .offsetOverflow .truncatedLength
  return (Codec.ofLeBytes raw, offset)

/-- The loop over the module blobs. -/
def readBlobs (bytes : List UInt8) : Nat → Nat → Except WireError (List (List UInt8) × Nat)
  | 0, offset => .ok ([], offset)
  | count + 1, offset => do
    let (len, offset) ← readLen bytes offset
    let (blob, offset) ← takeBytes bytes offset len .moduleOverflow .truncatedModule
    let (blobs, offset) ← readBlobs bytes count offset
    return (blob :: blobs, offset)

/-- `postcard::from_bytes`, which ignores what follows the value. -/
def fromBytes {α : Type} (codec : Codec α) (bytes : List UInt8) : Except WireError α :=
  match codec.get bytes with
  | some (a, _) => .ok a
  | none => .error .postcard

/-- One module blob. -/
def readModule (P : Postcard) (names : List ModuleName) (blob : List UInt8) :
    Except WireError CachedModule := do
  let wire ← fromBytes P.record blob
  wire.decode names

/-- The part of `read` after the framing: every record decoded with the names of the
header. -/
def decodeCache (P : Postcard) (header : WireHeader) (blobs : List (List UInt8)) :
    Except WireError LibraryCache := do
  let modules ← blobs.mapM (readModule P header.names)
  let reExports ← header.reExports.mapM (WireReExport.decode header.names)
  let returnTypes ← header.returnTypes.mapM (decodeReturnType header.names)
  let classBases ← header.classBases.mapM (decodeClassBases header.names)
  let constructorCallees ←
    header.constructorCallees.mapM (decodeConstructorCallees header.names)
  let classProperties ← header.classProperties.mapM (decodeClassProperties header.names)
  return {
    modules := modules
    exports := { reExports := reExports, returnTypes := returnTypes }
    classBases := classBases
    classProperties := classProperties
    constructorCallees := constructorCallees }

/-- `read`, on the bytes of the file. -/
def read (P : Postcard) (bytes : List UInt8) : Except WireError LibraryCache := do
  let (headerLen, offset) ← readLen bytes 0
  let (headerBytes, offset) ← takeBytes bytes offset headerLen .headerOverflow .truncatedHeader
  let header ← fromBytes P.header headerBytes
  let (count, offset) ← readLen bytes offset
  -- each module has a length of eight bytes at least
  if (bytes.length - offset) / 8 < count then throw (.moduleCount count)
  let (blobs, offset) ← readBlobs bytes count offset
  if offset ≠ bytes.length then throw .trailingData
  decodeCache P header blobs

end Lifeguard
