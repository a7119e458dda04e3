import Lifeguard.CacheWire

/-!
# A serializer

The records of a cache file in the format of the `postcard` crate: numbers seven bits to a
byte, a sequence after its length, the variant of an enumeration before its data, the fields
of a record in their order with nothing between them. A text is its length and its
characters as numbers, which on ASCII are the bytes of the text.
-/

namespace Lifeguard

open Lib Codec

namespace Postcard

def bool : Codec Bool :=
  byte.via (fun b => if b then 1 else 0)
    (fun b => if b = 0 then some false else if b = 1 then some true else none)
    (by
      intro b
      cases b <;> rfl)

def char : Codec Char :=
  nat.via Char.toNat (fun n => some (Char.ofNat n)) fun c => congrArg some (Char.ofNat_toNat c)

def str : Codec Str := list char

def bits (w : Nat) : Codec (BitVec w) :=
  nat.via BitVec.toNat (fun n => some (BitVec.ofNat w n)) fun b =>
    congrArg some (BitVec.ofNat_toNat w b |>.trans (BitVec.setWidth_eq b))

/-- The mask is one byte. -/
def mask : Codec (BitVec 8) :=
  byte.via UInt8.ofBitVec (fun b => some b.toBitVec) fun _ => rfl

/-- `FunctionSafety(u8)`: one bit for each concern. -/
def verdictBits (v : FunctionSafety) : UInt8 :=
  (if .unsafeIfImported ∈ v then 1 else 0) + (if .unsafeMissingDep ∈ v then 2 else 0) +
    if .hardUnsafe ∈ v then 4 else 0

def verdictOfBits (b : UInt8) : FunctionSafety :=
  (if b % 2 = 1 then {.unsafeIfImported} else ∅) ∪
    (if b / 2 % 2 = 1 then {.unsafeMissingDep} else ∅) ∪
      if b / 4 % 2 = 1 then {.hardUnsafe} else ∅

theorem verdictOfBits_verdictBits (v : FunctionSafety) : verdictOfBits (verdictBits v) = v := by
  ext concern
  rw [verdictOfBits, verdictBits]
  by_cases h1 : Concern.unsafeIfImported ∈ v <;> by_cases h2 : Concern.unsafeMissingDep ∈ v <;>
    by_cases h4 : Concern.hardUnsafe ∈ v <;> cases concern <;> simp [h1, h2, h4]

def verdict : Codec FunctionSafety :=
  byte.via verdictBits (fun b => some (verdictOfBits b)) fun v =>
    congrArg some (verdictOfBits_verdictBits v)

def errorKind : Codec ErrorKind :=
  nat.via ErrorKind.index (fun n => ErrorKind.all[n]?) ErrorKind.all_index

def error : Codec SerializedSafetyError :=
  (errorKind.prod (str.prod (bool.prod bool))).via
    (fun e => (e.kind, e.metadata, e.parameterizedDecorator, e.fromMainGuard))
    (fun p => some ⟨p.1, p.2.1, p.2.2.1, p.2.2.2⟩) fun _ => rfl

/-- The data of the variants of `ParamPosition`. -/
def PositionData : Nat → Type
  | 0 => Nat
  | _ => Unit

def positionData : ∀ i, Codec (PositionData i)
  | 0 => nat
  | _ + 1 => unit

def position : Codec ParamPosition :=
  (tagged nat positionData).via
    (fun
      | .positional idx => ⟨0, idx⟩
      | .keywordOnly => ⟨1, ()⟩
      | .unresolved => ⟨2, ()⟩)
    (fun
      | ⟨0, idx⟩ => some (.positional idx)
      | ⟨1, _⟩ => some .keywordOnly
      | ⟨2, _⟩ => some .unresolved
      | ⟨_ + 3, _⟩ => none)
    (by
      intro position
      cases position <;> rfl)

def mutatedParam : Codec WireMutatedParam :=
  (nat.prod position).via (fun p => (p.name, p.position)) (fun p => some ⟨p.1, p.2⟩) fun _ => rfl

def functionSafetyInfo : Codec WireFunctionSafetyInfo :=
  (verdict.prod ((list nat).prod (list mutatedParam))).via
    (fun info => (info.verdict, info.missingDepCallees, info.mutatedParams))
    (fun p => some ⟨p.1, p.2.1, p.2.2⟩) fun _ => rfl

def site : Codec WireMutationCandidateSite :=
  (nat.prod nat).via
    (fun
      | .moduleScope call => (0, call)
      | .function name => (1, name))
    (fun
      | (0, call) => some (.moduleScope call)
      | (1, name) => some (.function name)
      | (_ + 2, _) => none)
    (by
      intro site
      cases site <;> rfl)

def importedArgs : Codec WireImportedArgs :=
  ((bits 64).prod ((list nat).prod (bool.prod (option nat)))).via
    (fun args => (args.unsafeArgIndices, args.unsafeKeywordNames,
      args.hasUnsafeKwargsExpansion, args.unsafeArgsExpansionMin))
    (fun p => some ⟨p.1, p.2.1, p.2.2.1, p.2.2.2⟩) fun _ => rfl

def mutationCandidate : Codec WireMutationCandidate :=
  (nat.prod (site.prod (nat.prod (importedArgs.prod bool)))).via
    (fun c => (c.callee, c.site, c.argOffset, c.importedArgs, c.fromMainGuard))
    (fun p => some ⟨p.1, p.2.1, p.2.2.1, p.2.2.2.1, p.2.2.2.2⟩) fun _ => rfl

def propertyCandidate : Codec WirePropertyCandidate :=
  (nat.prod bool).via (fun c => (c.attributeName, c.fromMainGuard)) (fun p => some ⟨p.1, p.2⟩)
    fun _ => rfl

def subclassCandidate : Codec WireSubclassCandidate :=
  (nat.prod bool).via (fun c => (c.candidateClass, c.fromMainGuard)) (fun p => some ⟨p.1, p.2⟩)
    fun _ => rfl

/-- The data of the variants of `WireSafety`. -/
def SafetyData : Nat → Type
  | 0 => List SerializedSafetyError × List SerializedSafetyError × List NameId
  | _ => Str

def safetyData : ∀ i, Codec (SafetyData i)
  | 0 => (list error).prod ((list error).prod (list nat))
  | _ + 1 => str

def safety : Codec WireSafety :=
  (tagged nat safetyData).via
    (fun
      | .ok errors overrides imports => ⟨0, (errors, overrides, imports)⟩
      | .analysisError message => ⟨1, message⟩)
    (fun
      | ⟨0, p⟩ => some (.ok p.1 p.2.1 p.2.2)
      | ⟨1, message⟩ => some (.analysisError message)
      | ⟨_ + 2, _⟩ => none)
    (by
      intro safety
      cases safety <;> rfl)

def wireModule : Codec WireModule :=
  (nat.prod (safety.prod ((list nat).prod ((list nat).prod ((list nat).prod ((list nat).prod
    ((list nat).prod ((list (str.prod functionSafetyInfo)).prod ((list mutationCandidate).prod
      ((list propertyCandidate).prod (list subclassCandidate))))))))))).via
    (fun m => (m.name, m.safety, m.imports, m.missingImports, m.ambiguousImports,
      m.sideEffectImports, m.mainGuardImports, m.functionSafety, m.mutationCandidates,
      m.propertyCandidates, m.subclassCandidates))
    (fun (name, safety, imports, missing, ambiguous, side, guarded, functions, mutations,
        properties, subclasses) =>
      some ⟨name, safety, imports, missing, ambiguous, side, guarded, functions, mutations,
        properties, subclasses⟩) fun _ => rfl

def reExport : Codec WireReExport :=
  (nat.prod (str.prod (nat.prod str))).via
    (fun re => (re.exportedModule, re.exportedAttr, re.importedModule, re.importedAttr))
    (fun p => some ⟨p.1, p.2.1, p.2.2.1, p.2.2.2⟩) fun _ => rfl

def wireHeader : Codec WireHeader :=
  ((list str).prod ((list reExport).prod ((list (nat.prod nat)).prod
    ((list (nat.prod (list nat))).prod
      ((list (nat.prod ((option nat).prod (mask.prod (list nat))))).prod
        (list (nat.prod (list str)))))))).via
    (fun h => (h.names, h.reExports, h.returnTypes, h.classBases, h.constructorCallees,
      h.classProperties))
    (fun (names, reExports, returnTypes, bases, callees, properties) =>
      some ⟨names, reExports, returnTypes, bases, callees, properties⟩) fun _ => rfl

/-- The format of the `postcard` crate. -/
def standard : Postcard where
  header := wireHeader
  record := wireModule

end Postcard

end Lifeguard
