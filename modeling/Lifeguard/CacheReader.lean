import Lifeguard.CacheRoundTrip

/-!
# Reading a file that may be damaged

`read` takes its offsets and lengths from the file. Here it is run with everything that could
panic on the way: the slices, the subtraction of an offset, the conversion of eight bytes
(`runRead`). What the allocator refuses is left out.

- `runRead_eq`: on every file it ends as `read` does, so in a cache or an error;
- `read_eq_ok_iff`: it accepts exactly the files whose header and records stand in segments
  that lie end to end over the file, and use no id beyond the table of names;
- `read_robust_iff`: what it does not check is that a value fills its segment, for the
  serializer ignores what follows a value. Such padding is all that is accepted and should
  not be.
-/

namespace Lifeguard

open Lib

/-! ## Runs -/

/-- How a run ends that gives no value. -/
inductive Halt
  | error (e : WireError)
  | panic
  deriving DecidableEq

/-- A run: a value, an error that is returned, or a panic. -/
abbrev Run := Except Halt

/-- What a `?` makes of a result. -/
def ofResult {α : Type} (result : Except WireError α) : Run α := result.mapError .error

/-- `Vec<u8>`: what holds it is never longer than `isize::MAX`. -/
structure ByteVec where
  bytes : List UInt8
  fits : bytes.length < 2 ^ 63

/-- `ensure!`. -/
def ensure (cond : Prop) [Decidable cond] (e : WireError) : Run Unit :=
  if cond then .ok () else .error (.error e)

/-- `checked_add`, with the error for an overflow. -/
def checkedAdd (a b : Nat) (overflow : WireError) : Run Nat :=
  if a + b < 2 ^ 64 then .ok (a + b) else .error (.error overflow)

/-- `bytes.get(start..stop)`. -/
def getRange (bytes : List UInt8) (start stop : Nat) : Option (List UInt8) :=
  if start ≤ stop ∧ stop ≤ bytes.length then some ((bytes.drop start).take (stop - start))
  else none

/-- `bytes[start..stop]`, which panics out of range. -/
def slice (bytes : List UInt8) (start stop : Nat) : Run (List UInt8) :=
  match getRange bytes start stop with
  | some part => .ok part
  | none => .error .panic

/-- `a - b`, which panics below zero. -/
def subtract (a b : Nat) : Run Nat := if b ≤ a then .ok (a - b) else .error .panic

/-- `read_len`, with the conversion to an array of eight bytes that it expects to succeed. -/
def runReadLen (bytes : List UInt8) (offset : Nat) : Run (Nat × Nat) := do
  let stop ← checkedAdd offset 8 .offsetOverflow
  match getRange bytes offset stop with
  | none => .error (.error .truncatedLength)
  | some raw => if raw.length = 8 then .ok (Codec.ofLeBytes raw, stop) else .error .panic

/-- A segment of the given length: its end is computed and checked before it is sliced. -/
def runTake (bytes : List UInt8) (offset len : Nat) (overflow truncated : WireError) :
    Run (List UInt8 × Nat) := do
  let stop ← checkedAdd offset len overflow
  ensure (stop ≤ bytes.length) truncated
  let segment ← slice bytes offset stop
  return (segment, stop)

/-- The loop over the module blobs. -/
def runReadBlobs (bytes : List UInt8) : Nat → Nat → Run (List (List UInt8) × Nat)
  | 0, offset => .ok ([], offset)
  | count + 1, offset => do
    let (len, offset) ← runReadLen bytes offset
    let (blob, offset) ← runTake bytes offset len .moduleOverflow .truncatedModule
    let (blobs, offset) ← runReadBlobs bytes count offset
    return (blob :: blobs, offset)

/-- `read`, with its panics. -/
def runRead (P : Postcard) (bytes : List UInt8) : Run LibraryCache := do
  let (headerLen, offset) ← runReadLen bytes 0
  let (headerBytes, offset) ← runTake bytes offset headerLen .headerOverflow .truncatedHeader
  let header ← ofResult (fromBytes P.header headerBytes)
  let (count, offset) ← runReadLen bytes offset
  let left ← subtract bytes.length offset
  ensure (count ≤ left / 8) (.moduleCount count)
  let (blobs, offset) ← runReadBlobs bytes count offset
  ensure (offset = bytes.length) .trailingData
  ofResult (decodeCache P header blobs)

/-! ## No run panics -/

variable {P : Postcard} {bytes : List UInt8} {offset offset' len : Nat}

/-- A bind of results is a bind of runs. -/
theorem ofResult_bind {α β : Type} (x : Except WireError α) (f : α → Except WireError β) :
    ofResult (x >>= f) = ofResult x >>= fun a => ofResult (f a) := by
  cases x <;> rfl

/-- What is taken, and where it ends. -/
theorem takeBytes_eq_ok {part : List UInt8} {overflow truncated : WireError} :
    takeBytes bytes offset len overflow truncated = .ok (part, offset') ↔
      offset + len ≤ bytes.length ∧ part = (bytes.drop offset).take len ∧
        offset' = offset + len := by
  rw [takeBytes]
  constructor
  · intro h
    split at h
    · next hle =>
      cases h
      exact ⟨hle, rfl, rfl⟩
    · split at h <;> cases h
  · rintro ⟨hle, rfl, rfl⟩
    rw [if_pos hle]

theorem readLen_eq_ok {n : Nat} :
    readLen bytes offset = .ok (n, offset') ↔
      offset + 8 ≤ bytes.length ∧ n = Codec.ofLeBytes ((bytes.drop offset).take 8) ∧
        offset' = offset + 8 := by
  rw [readLen]
  constructor
  · intro h
    cases htake : takeBytes bytes offset 8 .offsetOverflow .truncatedLength with
    | error e =>
      rw [htake] at h
      cases h
    | ok p =>
      obtain ⟨hle, hpart, hend⟩ := takeBytes_eq_ok.mp htake
      rw [htake] at h
      cases h
      exact ⟨hle, congrArg Codec.ofLeBytes hpart, hend⟩
  · rintro ⟨hle, rfl, rfl⟩
    rw [takeBytes_eq_ok.mpr ⟨hle, rfl, rfl⟩]
    rfl

theorem getRange_of_le (h : offset + len ≤ bytes.length) :
    getRange bytes offset (offset + len) = some ((bytes.drop offset).take len) := by
  rw [getRange, if_pos ⟨Nat.le_add_right _ _, h⟩, Nat.add_sub_cancel_left]

/-- The end that was checked keeps the slice in range. -/
theorem runTake_eq (hfits : bytes.length < 2 ^ 64) (overflow truncated : WireError) :
    runTake bytes offset len overflow truncated =
      ofResult (takeBytes bytes offset len overflow truncated) := by
  rw [runTake, takeBytes, checkedAdd]
  by_cases hle : offset + len ≤ bytes.length
  · have hlt : offset + len < 2 ^ 64 := by omega
    rw [if_pos hlt, if_pos hle]
    show (ensure (offset + len ≤ bytes.length) truncated >>= _) = _
    rw [ensure, if_pos hle]
    show (slice bytes offset (offset + len) >>= _) = _
    rw [slice, getRange_of_le hle]
    rfl
  · rw [if_neg hle]
    by_cases hlt : offset + len < 2 ^ 64
    · rw [if_pos hlt, if_pos hlt]
      show (ensure (offset + len ≤ bytes.length) truncated >>= _) = _
      rw [ensure, if_neg hle]
      rfl
    · rw [if_neg hlt, if_neg hlt]
      rfl

/-- A slice of eight bytes converts. -/
theorem runReadLen_eq (hfits : bytes.length < 2 ^ 64) :
    runReadLen bytes offset = ofResult (readLen bytes offset) := by
  rw [runReadLen, readLen, takeBytes, checkedAdd]
  by_cases hle : offset + 8 ≤ bytes.length
  · have hlt : offset + 8 < 2 ^ 64 := by omega
    have hlen : ((bytes.drop offset).take 8).length = 8 := by
      rw [List.length_take, List.length_drop]
      omega
    rw [if_pos hlt, if_pos hle]
    show (match getRange bytes offset (offset + 8) with
      | none => .error (.error .truncatedLength)
      | some raw => if raw.length = 8 then .ok (Codec.ofLeBytes raw, offset + 8)
        else .error .panic : Run (Nat × Nat)) = _
    rw [getRange_of_le hle]
    dsimp only
    rw [if_pos hlen]
    rfl
  · rw [if_neg hle]
    by_cases hlt : offset + 8 < 2 ^ 64
    · rw [if_pos hlt, if_pos hlt]
      show (match getRange bytes offset (offset + 8) with
        | none => .error (.error .truncatedLength)
        | some raw => if raw.length = 8 then .ok (Codec.ofLeBytes raw, offset + 8)
          else .error .panic : Run (Nat × Nat)) = _
      rw [getRange, if_neg fun h => hle h.2]
      rfl
    · rw [if_neg hlt, if_neg hlt]
      rfl

theorem runReadBlobs_eq (hfits : bytes.length < 2 ^ 64) (count : Nat) :
    runReadBlobs bytes count offset = ofResult (readBlobs bytes count offset) := by
  induction count generalizing offset with
  | zero => rfl
  | succ count ih =>
    rw [runReadBlobs, readBlobs, runReadLen_eq hfits, ofResult_bind]
    refine bind_congr fun p => ?_
    obtain ⟨blobLen, next⟩ := p
    dsimp only
    rw [ofResult_bind, runTake_eq hfits]
    refine bind_congr fun p => ?_
    obtain ⟨blob, after⟩ := p
    dsimp only
    rw [ofResult_bind, ih]
    rfl

/-- A length is followed by bytes of the file. -/
theorem offset_le_of_readLen {p : Nat × Nat} (h : readLen bytes offset = .ok p) :
    p.2 ≤ bytes.length := by
  obtain ⟨hle, -, hend⟩ := readLen_eq_ok.mp (show readLen bytes offset = .ok (p.1, p.2) from h)
  rwa [hend]

/-- Every run ends as `read` does: in a cache or an error. -/
theorem runRead_eq (P : Postcard) (hfits : bytes.length < 2 ^ 64) :
    runRead P bytes = ofResult (read P bytes) := by
  rw [runRead, read, runReadLen_eq hfits, ofResult_bind]
  refine bind_congr fun p => ?_
  obtain ⟨headerLen, start⟩ := p
  dsimp only
  rw [ofResult_bind, runTake_eq hfits]
  refine bind_congr fun p => ?_
  obtain ⟨headerBytes, next⟩ := p
  dsimp only
  rw [ofResult_bind]
  refine bind_congr fun header => ?_
  rw [ofResult_bind, runReadLen_eq hfits]
  cases hcount : readLen bytes next with
  | error e => rfl
  | ok p =>
    obtain ⟨count, after⟩ := p
    -- the offset is in the file, so that it can be subtracted
    have hle : after ≤ bytes.length := offset_le_of_readLen hcount
    show (subtract bytes.length after >>= _) = ofResult _
    rw [subtract, if_pos hle]
    show (ensure (count ≤ (bytes.length - after) / 8) (.moduleCount count) >>= _) = ofResult _
    rw [ensure]
    by_cases hfew : count ≤ (bytes.length - after) / 8
    · dsimp only
      rw [if_pos hfew, if_neg (Nat.not_lt.mpr hfew)]
      show (runReadBlobs bytes count after >>= _) = ofResult (readBlobs bytes count after >>= _)
      rw [runReadBlobs_eq hfits, ofResult_bind]
      refine bind_congr fun p => ?_
      obtain ⟨blobs, last⟩ := p
      dsimp only
      rw [ensure]
      by_cases hend : last = bytes.length
      · rw [if_pos hend, if_neg (not_not_intro hend)]
        rfl
      · rw [if_neg hend, if_pos hend]
        rfl
    · dsimp only
      rw [if_neg hfew, if_pos (Nat.lt_of_not_le hfew)]
      rfl

/-! ## The segments -/

/-- What was taken stands in front of the rest. -/
theorem drop_of_takeBytes {part : List UInt8} {overflow truncated : WireError}
    (h : takeBytes bytes offset len overflow truncated = .ok (part, offset')) :
    part.length = len ∧ bytes.drop offset = part ++ bytes.drop offset' := by
  obtain ⟨hle, rfl, rfl⟩ := takeBytes_eq_ok.mp h
  refine ⟨?_, ?_⟩
  · rw [List.length_take, List.length_drop]
    omega
  · rw [← List.drop_drop, List.take_append_drop]

theorem drop_of_readLen {n : Nat} (h : readLen bytes offset = .ok (n, offset')) :
    n < 2 ^ 64 ∧ bytes.drop offset = Codec.leBytes 8 n ++ bytes.drop offset' := by
  obtain ⟨hle, rfl, rfl⟩ := readLen_eq_ok.mp h
  have hlen : ((bytes.drop offset).take 8).length = 8 := by
    rw [List.length_take, List.length_drop]
    omega
  have hlt := Codec.ofLeBytes_lt ((bytes.drop offset).take 8)
  have hback := Codec.leBytes_ofLeBytes ((bytes.drop offset).take 8)
  rw [hlen] at hlt hback
  refine ⟨hlt, ?_⟩
  rw [hback, ← List.drop_drop, List.take_append_drop]

/-- The blobs stand one after the other, each after its length. -/
theorem drop_of_readBlobs {count : Nat} {blobs : List (List UInt8)}
    (h : readBlobs bytes count offset = .ok (blobs, offset')) :
    blobs.length = count ∧ (∀ blob ∈ blobs, blob.length < 2 ^ 64) ∧
      bytes.drop offset = blobs.flatMap prefixed ++ bytes.drop offset' := by
  induction count generalizing offset blobs with
  | zero =>
    cases h
    exact ⟨rfl, fun _ hblob => absurd hblob List.not_mem_nil, rfl⟩
  | succ count ih =>
    rw [readBlobs] at h
    cases hlen : readLen bytes offset with
    | error e =>
      rw [hlen] at h
      cases h
    | ok p =>
      obtain ⟨blobLen, next⟩ := p
      rw [hlen] at h
      obtain ⟨hlt, hlenDrop⟩ := drop_of_readLen hlen
      cases htake : takeBytes bytes next blobLen .moduleOverflow .truncatedModule with
      | error e =>
        simp only [bind, Except.bind, htake] at h
        cases h
      | ok q =>
        obtain ⟨blob, after⟩ := q
        obtain ⟨rfl, hblobDrop⟩ := drop_of_takeBytes htake
        cases hrest : readBlobs bytes count after with
        | error e =>
          simp only [bind, Except.bind, htake, hrest] at h
          cases h
        | ok r =>
          obtain ⟨rest, last⟩ := r
          simp only [bind, Except.bind, htake, hrest] at h
          cases h
          obtain ⟨hcount, hall, hrestDrop⟩ := ih hrest
          refine ⟨by rw [List.length_cons, hcount], List.forall_mem_cons.mpr ⟨hlt, hall⟩, ?_⟩
          rw [hlenDrop, hblobDrop, hrestDrop, List.flatMap_cons, prefixed, List.append_assoc,
            List.append_assoc]

/-- `read` accepts a file exactly when it is the framing of a header and blobs that decode. -/
theorem read_eq_ok_iff {cache : LibraryCache} :
    read P bytes = .ok cache ↔ ∃ header headerBytes blobs, frame headerBytes blobs = .ok bytes ∧
      fromBytes P.header headerBytes = .ok header ∧ decodeCache P header blobs = .ok cache := by
  constructor
  · intro h
    rw [read] at h
    cases hlen : readLen bytes 0 with
    | error e =>
      rw [hlen] at h
      cases h
    | ok p =>
      obtain ⟨headerLen, start⟩ := p
      rw [hlen] at h
      obtain ⟨hlt, hlenDrop⟩ := drop_of_readLen hlen
      cases htake : takeBytes bytes start headerLen .headerOverflow .truncatedHeader with
      | error e =>
        simp only [bind, Except.bind, htake] at h
        cases h
      | ok q =>
        obtain ⟨headerBytes, next⟩ := q
        obtain ⟨rfl, hheaderDrop⟩ := drop_of_takeBytes htake
        cases hheader : fromBytes P.header headerBytes with
        | error e =>
          simp only [bind, Except.bind, htake, hheader] at h
          cases h
        | ok header =>
          cases hcount : readLen bytes next with
          | error e =>
            simp only [bind, Except.bind, htake, hheader, hcount] at h
            cases h
          | ok r =>
            obtain ⟨count, after⟩ := r
            obtain ⟨hcountLt, hcountDrop⟩ := drop_of_readLen hcount
            simp only [bind, Except.bind, htake, hheader, hcount] at h
            -- a count of modules that is not that of the header is refused
            split at h
            · cases h
            · cases hblobs : readBlobs bytes count after with
              | error e =>
                simp only [hblobs] at h
                cases h
              | ok s =>
                obtain ⟨blobs, last⟩ := s
                obtain ⟨hblobsLen, hall, hblobsDrop⟩ := drop_of_readBlobs hblobs
                simp only [hblobs] at h
                split at h
                · cases h
                · next hend =>
                  rw [not_not] at hend
                  refine ⟨header, headerBytes, blobs, frame_eq_ok.mpr ⟨hlt, ?_, hall, ?_⟩,
                    hheader, h⟩
                  · rwa [hblobsLen]
                  · -- the segments one after the other are the file
                    rw [List.drop_zero] at hlenDrop
                    rw [hlenDrop, hheaderDrop, hcountDrop, hblobsDrop, hend, List.drop_length,
                      List.append_nil, hblobsLen, prefixed, List.append_assoc]
  · rintro ⟨header, headerBytes, blobs, hframe, hheader, hdecode⟩
    rw [read_frame hframe hheader]
    exact hdecode

/-! ## The ids that are used -/

/-- The ids a safety record uses. -/
def WireSafety.ids : WireSafety → List NameId
  | .ok _ _ implicitImports => implicitImports
  | .analysisError _ => []

/-- The ids of a function's record. -/
def WireFunctionSafetyInfo.ids (info : WireFunctionSafetyInfo) : List NameId :=
  info.missingDepCallees ++ info.mutatedParams.map WireMutatedParam.name

/-- The id of a site. -/
def WireMutationCandidateSite.id : WireMutationCandidateSite → NameId
  | .moduleScope call => call
  | .function name => name

/-- The ids of a mutation candidate. -/
def WireMutationCandidate.ids (candidate : WireMutationCandidate) : List NameId :=
  candidate.site.id :: candidate.callee :: candidate.importedArgs.unsafeKeywordNames

/-- Every id of a module record. -/
def WireModule.ids (m : WireModule) : List NameId :=
  m.name :: (m.safety.ids ++ m.imports ++ m.missingImports ++ m.ambiguousImports ++
    m.sideEffectImports ++ m.mainGuardImports ++ (m.functionSafety.flatMap fun e => e.2.ids) ++
    m.mutationCandidates.flatMap WireMutationCandidate.ids ++
    m.propertyCandidates.map WirePropertyCandidate.attributeName ++
    m.subclassCandidates.map WireSubclassCandidate.candidateClass)

/-- Every id of the records in the header. -/
def WireHeader.ids (header : WireHeader) : List NameId :=
  (header.reExports.flatMap fun re => [re.exportedModule, re.importedModule]) ++
    (header.returnTypes.flatMap fun rt => [rt.1, rt.2]) ++
    (header.classBases.flatMap fun e => e.1 :: e.2) ++
    (header.constructorCallees.flatMap fun e => e.1 :: (e.2.1.toList ++ e.2.2.2)) ++
    header.classProperties.map Prod.fst

/-- The result succeeds exactly when these ids are in the table. -/
def Needs {α : Type} (names : List ModuleName) (result : Except WireError α)
    (ids : List NameId) : Prop :=
  (∃ a, result = .ok a) ↔ ∀ id ∈ ids, id < names.length

namespace Needs

variable {α β : Type} {names : List ModuleName} {ids ids' : List NameId}

theorem congr {x : Except WireError α} (h : Needs names x ids)
    (hmem : ∀ id, id ∈ ids' ↔ id ∈ ids) : Needs names x ids' := by
  simp only [Needs, hmem]
  exact h

theorem pure (a : α) : Needs names (.ok a : Except WireError α) [] :=
  iff_of_true ⟨a, rfl⟩ fun _ h => absurd h List.not_mem_nil

theorem bind {x : Except WireError α} {f : α → Except WireError β} (hx : Needs names x ids)
    (hf : ∀ a, Needs names (f a) ids') : Needs names (x >>= f) (ids ++ ids') := by
  simp only [Needs, List.forall_mem_append] at hx hf ⊢
  cases x with
  | error e =>
    refine iff_of_false (fun ⟨b, hb⟩ => by cases hb) fun ⟨hids, _⟩ => ?_
    obtain ⟨a, ha⟩ := hx.mpr hids
    cases ha
  | ok a => exact (hf a).trans (and_iff_right (hx.mp ⟨a, rfl⟩)).symm

theorem map {x : Except WireError α} (f : α → β) (hx : Needs names x ids) :
    Needs names (x.map f) ids := by
  have h := hx.bind (f := fun a => .ok (f a)) fun a => Needs.pure (f a)
  rw [List.append_nil] at h
  cases x <;> exact h

theorem mapM_mem {f : α → Except WireError β} {g : α → List NameId} {l : List α}
    (hf : ∀ a ∈ l, Needs names (f a) (g a)) : Needs names (l.mapM f) (l.flatMap g) := by
  induction l with
  | nil => exact Needs.pure []
  | cons a l ih =>
    obtain ⟨hfirst, hrest⟩ := List.forall_mem_cons.mp hf
    rw [List.mapM_cons, List.flatMap_cons]
    refine hfirst.bind fun b => ?_
    have h := (ih hrest).bind (f := fun bs => .ok (b :: bs)) fun bs => Needs.pure (b :: bs)
    rwa [List.append_nil] at h

theorem mapM {f : α → Except WireError β} {g : α → List NameId}
    (hf : ∀ a, Needs names (f a) (g a)) (l : List α) :
    Needs names (l.mapM f) (l.flatMap g) :=
  mapM_mem fun a _ => hf a

end Needs

section Needed

variable (names : List ModuleName)

theorem needs_decodeName (id : NameId) : Needs names (decodeName names id) [id] := by
  rw [Needs, decodeName, List.forall_mem_singleton]
  by_cases h : id < names.length
  · rw [List.getElem?_eq_getElem h]
    exact iff_of_true ⟨_, rfl⟩ h
  · rw [List.getElem?_eq_none (Nat.le_of_not_lt h)]
    refine iff_of_false ?_ h
    rintro ⟨a, ha⟩
    cases ha

theorem needs_decodeNames (ids : List NameId) : Needs names (decodeNames names ids) ids := by
  have h := Needs.mapM (needs_decodeName names) ids
  rwa [List.flatMap_singleton'] at h

theorem needs_decodeNameSet (ids : List NameId) : Needs names (decodeNameSet names ids) ids :=
  (needs_decodeNames names ids).map _

theorem needs_safety (safety : WireSafety) : Needs names (safety.decode names) safety.ids := by
  cases safety with
  | ok errors overrides implicitImports =>
    have h := (needs_decodeNames names implicitImports).map fun names =>
      CachedSafety.ok
        { errors := errors.map SerializedSafetyError.deserialize
          forceImportsEagerOverrides := overrides.map SerializedSafetyError.deserialize
          implicitImports := names }
    exact h
  | analysisError message => exact Needs.pure _

theorem needs_mutatedParam (param : WireMutatedParam) :
    Needs names (param.decode names) [param.name] :=
  (needs_decodeName names param.name).bind fun _ => Needs.pure _

theorem needs_functionSafetyInfo (info : WireFunctionSafetyInfo) :
    Needs names (info.decode names) info.ids := by
  refine ((needs_decodeNameSet names info.missingDepCallees).bind fun _ =>
    (Needs.mapM (needs_mutatedParam names) info.mutatedParams).bind fun _ =>
      Needs.pure _).congr fun id => ?_
  simp [WireFunctionSafetyInfo.ids, eq_comm]

theorem needs_site (site : WireMutationCandidateSite) :
    Needs names (site.decode names) [site.id] := by
  cases site <;> exact (needs_decodeName names _).map _

theorem needs_mutationCandidate (candidate : WireMutationCandidate) :
    Needs names (candidate.decode names) candidate.ids := by
  refine ((needs_site names candidate.site).bind fun _ =>
    (needs_decodeName names candidate.callee).bind fun _ =>
      (needs_decodeNames names candidate.importedArgs.unsafeKeywordNames).bind fun _ =>
        Needs.pure _).congr fun id => ?_
  simp [WireMutationCandidate.ids]

theorem needs_propertyCandidate (candidate : WirePropertyCandidate) :
    Needs names (candidate.decode names) [candidate.attributeName] :=
  (needs_decodeName names candidate.attributeName).bind fun _ => Needs.pure _

theorem needs_subclassCandidate (candidate : WireSubclassCandidate) :
    Needs names (candidate.decode names) [candidate.candidateClass] :=
  (needs_decodeName names candidate.candidateClass).bind fun _ => Needs.pure _

/-- A module record decodes when all its ids are in the table. -/
theorem needs_module (m : WireModule) : Needs names (m.decode names) m.ids := by
  refine ((needs_decodeName names m.name).bind fun _ =>
    (needs_safety names m.safety).bind fun _ =>
    (needs_decodeNameSet names m.imports).bind fun _ =>
    (needs_decodeNameSet names m.missingImports).bind fun _ =>
    (needs_decodeNameSet names m.ambiguousImports).bind fun _ =>
    (needs_decodeNameSet names m.sideEffectImports).bind fun _ =>
    (needs_decodeNameSet names m.mainGuardImports).bind fun _ =>
    (Needs.mapM (fun e : Str × WireFunctionSafetyInfo =>
      (needs_functionSafetyInfo names e.2).map fun info => (e.1, info)) m.functionSafety).bind
        fun _ =>
    (Needs.mapM (needs_mutationCandidate names) m.mutationCandidates).bind fun _ =>
    (Needs.mapM (needs_propertyCandidate names) m.propertyCandidates).bind fun _ =>
    (Needs.mapM (needs_subclassCandidate names) m.subclassCandidates).bind fun _ =>
      Needs.pure _).congr fun id => ?_
  simp [WireModule.ids, eq_comm]

theorem needs_reExport (re : WireReExport) :
    Needs names (re.decode names) [re.exportedModule, re.importedModule] :=
  (needs_decodeName names re.exportedModule).bind fun _ =>
    (needs_decodeName names re.importedModule).bind fun _ => Needs.pure _

theorem needs_returnType (rt : NameId × NameId) :
    Needs names (decodeReturnType names rt) [rt.1, rt.2] :=
  (needs_decodeName names rt.1).bind fun _ =>
    (needs_decodeName names rt.2).bind fun _ => Needs.pure _

theorem needs_classBases (e : NameId × List NameId) :
    Needs names (decodeClassBases names e) (e.1 :: e.2) := by
  refine ((needs_decodeName names e.1).bind fun _ =>
    (needs_decodeNames names e.2).bind fun _ => Needs.pure _).congr fun id => ?_
  simp

theorem needs_metaclass (metaclass : Option NameId) :
    Needs names (decodeMetaclass names metaclass) metaclass.toList := by
  cases metaclass with
  | none => exact Needs.pure _
  | some id => exact (needs_decodeName names id).map some

theorem needs_constructorCallees (e : NameId × Option NameId × BitVec 8 × List NameId) :
    Needs names (decodeConstructorCallees names e) (e.1 :: (e.2.1.toList ++ e.2.2.2)) := by
  refine ((needs_decodeName names e.1).bind fun _ =>
    (needs_metaclass names e.2.1).bind fun _ =>
      (needs_decodeNames names e.2.2.2).bind fun _ => Needs.pure _).congr fun id => ?_
  simp

theorem needs_classProperties (e : NameId × List Str) :
    Needs names (decodeClassProperties names e) [e.1] :=
  (needs_decodeName names e.1).bind fun _ => Needs.pure _

end Needed

/-- What is decoded of a file's records, when each is given with its blob. -/
theorem needs_decodeCache {header : WireHeader} {records : List (WireModule × List UInt8)}
    (hrecords : ∀ r ∈ records, fromBytes P.record r.2 = .ok r.1) :
    Needs header.names (decodeCache P header (records.map Prod.snd))
      ((records.flatMap fun r => r.1.ids) ++ header.ids) := by
  have hmodules : Needs header.names
      ((records.map Prod.snd).mapM (readModule P header.names))
      (records.flatMap fun r => r.1.ids) := by
    rw [List.mapM_map]
    refine Needs.mapM_mem fun r hr => ?_
    show Needs _ (fromBytes P.record r.2 >>= _) _
    rw [hrecords r hr]
    exact needs_module header.names r.1
  refine (hmodules.bind fun _ =>
    (Needs.mapM (needs_reExport header.names) header.reExports).bind fun _ =>
    (Needs.mapM (needs_returnType header.names) header.returnTypes).bind fun _ =>
    (Needs.mapM (needs_classBases header.names) header.classBases).bind fun _ =>
    (Needs.mapM (needs_constructorCallees header.names) header.constructorCallees).bind fun _ =>
    (Needs.mapM (needs_classProperties header.names) header.classProperties).bind fun _ =>
      Needs.pure _).congr fun id => ?_
  simp [WireHeader.ids, eq_comm]

/-- Records that were decoded were read from their blobs. -/
theorem exists_records {names : List ModuleName} {blobs : List (List UInt8)}
    {modules : List CachedModule} (h : blobs.mapM (readModule P names) = .ok modules) :
    ∃ records : List (WireModule × List UInt8), records.map Prod.snd = blobs ∧
      ∀ r ∈ records, fromBytes P.record r.2 = .ok r.1 := by
  induction blobs generalizing modules with
  | nil => exact ⟨[], rfl, fun _ hr => absurd hr List.not_mem_nil⟩
  | cons blob blobs ih =>
    rw [List.mapM_cons] at h
    cases hwire : fromBytes P.record blob with
    | error e =>
      rw [readModule, hwire] at h
      cases h
    | ok wire =>
      cases hrest : blobs.mapM (readModule P names) with
      | error e =>
        rw [hrest] at h
        cases hfirst : readModule P names blob with
        | error e' =>
          rw [hfirst] at h
          cases h
        | ok m =>
          rw [hfirst] at h
          cases h
      | ok rest =>
        obtain ⟨records, rfl, hrecords⟩ := ih hrest
        exact ⟨(wire, blob) :: records, rfl, List.forall_mem_cons.mpr ⟨hwire, hrecords⟩⟩

/-! ## What is accepted -/

/-- A header and module records, each with the segment it stands in. -/
structure CacheParts where
  header : WireHeader
  headerBytes : List UInt8
  records : List (WireModule × List UInt8)

/-- The segments lie end to end over the file, each value is read from the front of its
segment, and every id is below the length of the table. -/
structure CacheParts.Tile (P : Postcard) (bytes : List UInt8) (parts : CacheParts) : Prop where
  bytes_eq : bytes = prefixed parts.headerBytes ++
    (Codec.leBytes 8 parts.records.length ++ parts.records.flatMap fun r => prefixed r.2)
  header_read : ∃ rest, P.header.get parts.headerBytes = some (parts.header, rest)
  records_read : ∀ r ∈ parts.records, ∃ rest, P.record.get r.2 = some (r.1, rest)
  header_ids : ∀ id ∈ parts.header.ids, id < parts.header.names.length
  record_ids : ∀ r ∈ parts.records, ∀ id ∈ r.1.ids, id < parts.header.names.length

/-- Every value fills its segment. -/
def CacheParts.Filled (P : Postcard) (parts : CacheParts) : Prop :=
  P.header.get parts.headerBytes = some (parts.header, []) ∧
    ∀ r ∈ parts.records, P.record.get r.2 = some (r.1, [])

theorem fromBytes_eq_ok {α : Type} {codec : Codec α} {a : α} :
    fromBytes codec bytes = .ok a ↔ ∃ rest, codec.get bytes = some (a, rest) := by
  rw [fromBytes]
  cases codec.get bytes with
  | none =>
    refine iff_of_false (fun h => by cases h) ?_
    rintro ⟨_, h⟩
    cases h
  | some p =>
    obtain ⟨b, rest⟩ := p
    constructor
    · intro h
      cases h
      exact ⟨rest, rfl⟩
    · rintro ⟨rest', h⟩
      cases h
      rfl

theorem flatMap_prefixed_map (records : List (WireModule × List UInt8)) :
    (records.map Prod.snd).flatMap prefixed = records.flatMap fun r => prefixed r.2 := by
  rw [List.flatMap_map]

/-- The parts of a file that fits are framed as the file: no length is too large. -/
theorem CacheParts.Tile.framed {parts : CacheParts} (h : parts.Tile P bytes)
    (hfits : bytes.length < 2 ^ 64) :
    frame parts.headerBytes (parts.records.map Prod.snd) = .ok bytes := by
  have hframe : bytes = prefixed parts.headerBytes ++
      (Codec.leBytes 8 (parts.records.map Prod.snd).length ++
        (parts.records.map Prod.snd).flatMap prefixed) := by
    rw [List.length_map, flatMap_prefixed_map]
    exact h.bytes_eq
  have hlen := congrArg List.length hframe
  have hmany := length_le_flatMap_prefixed (parts.records.map Prod.snd)
  rw [List.length_append, List.length_append, prefixed, List.length_append,
    Codec.length_leBytes, Codec.length_leBytes] at hlen
  have hall : ∀ blob ∈ parts.records.map Prod.snd, blob.length < 2 ^ 64 := by
    intro blob hblob
    have hsub : (prefixed blob).Sublist ((parts.records.map Prod.snd).flatMap prefixed) := by
      rw [List.flatMap_def]
      exact List.sublist_flatten_of_mem (List.mem_map_of_mem hblob)
    have hle := hsub.length_le
    rw [prefixed, List.length_append] at hle
    omega
  exact frame_eq_ok.mpr ⟨by omega, by omega, hall, hframe⟩

/-- A file is accepted exactly when it has parts that tile it. -/
theorem read_isOk_iff (hfits : bytes.length < 2 ^ 64) :
    (∃ cache, read P bytes = .ok cache) ↔ ∃ parts : CacheParts, parts.Tile P bytes := by
  constructor
  · rintro ⟨cache, hread⟩
    obtain ⟨header, headerBytes, blobs, hframe, hheader, hdecode⟩ := read_eq_ok_iff.mp hread
    obtain ⟨-, -, -, hbytes⟩ := frame_eq_ok.mp hframe
    -- the decoding got past the records, so each blob is one
    have hmodules : ∃ modules, blobs.mapM (readModule P header.names) = .ok modules := by
      rw [decodeCache] at hdecode
      cases hmapM : blobs.mapM (readModule P header.names) with
      | error e =>
        rw [hmapM] at hdecode
        cases hdecode
      | ok modules => exact ⟨modules, rfl⟩
    obtain ⟨modules, hmodules⟩ := hmodules
    obtain ⟨records, rfl, hrecords⟩ := exists_records hmodules
    have hids := (needs_decodeCache hrecords).mp ⟨cache, hdecode⟩
    refine ⟨⟨header, headerBytes, records⟩, ?_, fromBytes_eq_ok.mp hheader,
      fun r hr => fromBytes_eq_ok.mp (hrecords r hr), fun id hid => ?_, fun r hr id hid => ?_⟩
    · rwa [List.length_map, flatMap_prefixed_map] at hbytes
    · exact hids id (List.mem_append_right _ hid)
    · exact hids id (List.mem_append_left _ (List.mem_flatMap.mpr ⟨r, hr, hid⟩))
  · rintro ⟨⟨header, headerBytes, records⟩, htile⟩
    obtain ⟨-, hheader, hrecords, hheaderIds, hrecordIds⟩ := id htile
    obtain ⟨cache, hdecode⟩ := (needs_decodeCache fun r hr =>
      fromBytes_eq_ok.mpr (hrecords r hr)).mpr fun id hid => by
        rcases List.mem_append.mp hid with h | h
        · obtain ⟨r, hr, hid'⟩ := List.mem_flatMap.mp h
          exact hrecordIds r hr id hid'
        · exact hheaderIds id h
    exact ⟨cache, read_eq_ok_iff.mpr ⟨header, headerBytes, records.map Prod.snd, htile.framed hfits,
      fromBytes_eq_ok.mpr hheader, hdecode⟩⟩

/-- A file is tiled in one way at most. -/
theorem CacheParts.Tile.unique {parts parts' : CacheParts} (h : parts.Tile P bytes)
    (h' : parts'.Tile P bytes) (hfits : bytes.length < 2 ^ 64) : parts = parts' := by
  obtain ⟨hheaderBytes, hblobs⟩ := frame_inj (h.framed hfits) (h'.framed hfits)
  obtain ⟨header, headerBytes, records⟩ := parts
  obtain ⟨header', headerBytes', records'⟩ := parts'
  dsimp only at hheaderBytes hblobs
  subst hheaderBytes
  obtain ⟨rest, hheader⟩ := h.header_read
  obtain ⟨rest', hheader'⟩ := h'.header_read
  have hheaders : header = header' :=
    congrArg Prod.fst (Option.some.inj (hheader.symm.trans hheader'))
  -- the framing fixes the blobs, and a blob has one record at its front
  have hrecords : ∀ l l' : List (WireModule × List UInt8), l.map Prod.snd = l'.map Prod.snd →
      (∀ r ∈ l, ∃ rest, P.record.get r.2 = some (r.1, rest)) →
      (∀ r ∈ l', ∃ rest, P.record.get r.2 = some (r.1, rest)) → l = l' := by
    intro l
    induction l with
    | nil =>
      intro l' hmap _ _
      exact (List.map_eq_nil_iff.mp hmap.symm).symm
    | cons r l ih =>
      intro l' hmap hl hl'
      cases l' with
      | nil => cases hmap
      | cons r' l' =>
        obtain ⟨hblob, hrest⟩ := List.cons_eq_cons.mp hmap
        obtain ⟨hr, hl⟩ := List.forall_mem_cons.mp hl
        obtain ⟨hr', hl'⟩ := List.forall_mem_cons.mp hl'
        obtain ⟨after, hr⟩ := hr
        obtain ⟨after', hr'⟩ := hr'
        rw [hblob, hr'] at hr
        have hwire : r'.1 = r.1 := (Prod.mk.inj (Option.some.inj hr)).1
        rw [ih l' hrest hl hl', Prod.ext hwire.symm hblob]
  rw [hheaders, hrecords records records' hblobs h.records_read h'.records_read]

/-! ## The reader -/

/-- What is asked of the reader: that it ends in a cache or an error, and accepts a file only
when a header and records that fill their segments tile it, with all ids in the table. -/
def Robust (P : Postcard) (file : ByteVec) : Prop :=
  (∃ result, runRead P file.bytes = ofResult result) ∧
    ∀ cache, runRead P file.bytes = .ok cache →
      ∃ parts : CacheParts, parts.Tile P file.bytes ∧ parts.Filled P

/-- A file that is in order but for padding: in some segment bytes follow the value. -/
def Padded (P : Postcard) (file : ByteVec) : Prop :=
  ∃ parts : CacheParts, parts.Tile P file.bytes ∧ ¬parts.Filled P

/-- The reader does what is asked on every file but those with padding in a segment. -/
theorem read_robust_iff (P : Postcard) (file : ByteVec) : Robust P file ↔ ¬Padded P file := by
  have hfits : file.bytes.length < 2 ^ 64 := lt_trans file.fits (by decide)
  have hrun := runRead_eq P hfits
  have hok : ∀ cache, runRead P file.bytes = .ok cache ↔ read P file.bytes = .ok cache := by
    intro cache
    rw [hrun]
    cases read P file.bytes with
    | error e => exact iff_of_false (fun h => by cases h) fun h => by cases h
    | ok cache' =>
      exact ⟨fun h => congrArg Except.ok (Except.ok.inj h),
        fun h => congrArg Except.ok (Except.ok.inj h)⟩
  constructor
  · rintro ⟨-, haccepts⟩ ⟨parts, htile, hpadded⟩
    obtain ⟨cache, hread⟩ := (read_isOk_iff hfits).mpr ⟨parts, htile⟩
    obtain ⟨parts', htile', hfilled⟩ := haccepts cache ((hok cache).mpr hread)
    rw [htile'.unique htile hfits] at hfilled
    exact hpadded hfilled
  · intro hpadded
    refine ⟨⟨_, hrun⟩, fun cache hread => ?_⟩
    obtain ⟨parts, htile⟩ := (read_isOk_iff hfits).mp ⟨cache, (hok cache).mp hread⟩
    exact ⟨parts, htile, Classical.byContradiction fun h => hpadded ⟨parts, htile, h⟩⟩

/-- The file of a cache without modules, with one byte more in the header's segment than the
header takes: it is accepted. -/
theorem read_padded_header :
    let file : ByteVec :=
      ⟨[7, 0, 0, 0, 0, 0, 0, 0] ++ [0, 0, 0, 0, 0, 0, 42] ++ [0, 0, 0, 0, 0, 0, 0, 0], by decide⟩
    runRead Postcard.standard file.bytes = .ok {} ∧ ¬Robust Postcard.standard file := by
  intro file
  have hrun : runRead Postcard.standard file.bytes = .ok {} := rfl
  refine ⟨hrun, fun hrobust => ?_⟩
  obtain ⟨parts, htile, hfilled, -⟩ := hrobust.2 _ hrun
  have hframe : frame [0, 0, 0, 0, 0, 0, 42] [] = .ok file.bytes := rfl
  obtain ⟨hsegment, -⟩ := frame_inj (htile.framed (by decide)) hframe
  have hget : Postcard.standard.header.get [0, 0, 0, 0, 0, 0, 42] =
      some (⟨[], [], [], [], [], []⟩, [42]) := rfl
  rw [hsegment, hget] at hfilled
  cases Prod.ext_iff.mp (Option.some.inj hfilled) |>.2

end Lifeguard
