import Lifeguard.CacheWire

/-!
# The framing of a cache file

A file is the header after its length, the number of module blobs, and the blobs, each
after its length. `frame` refuses only a length that does not fit eight bytes
(`frame_eq_ok`); `takeBytes`, `readLen` and `readBlobs` take the parts back at the offsets
they stand at.
-/

namespace Lifeguard

open Lib

/-- A blob after its length, as bytes. -/
def prefixed (blob : List UInt8) : List UInt8 := Codec.leBytes 8 blob.length ++ blob

theorem writeBlob_eq_ok {blob bytes : List UInt8} :
    writeBlob blob = .ok bytes ↔ blob.length < 2 ^ 64 ∧ bytes = prefixed blob := by
  rw [writeBlob, writeLen]
  split
  · next h =>
    constructor
    · intro heq
      cases heq
      exact ⟨h, rfl⟩
    · rintro ⟨-, rfl⟩
      rfl
  · next h =>
    constructor
    · intro heq
      cases heq
    · rintro ⟨hlt, -⟩
      exact absurd hlt h

theorem mapM_writeBlob_eq_ok {blobs out : List (List UInt8)} :
    blobs.mapM writeBlob = .ok out ↔
      (∀ blob ∈ blobs, blob.length < 2 ^ 64) ∧ out = blobs.map prefixed := by
  induction blobs generalizing out with
  | nil =>
    constructor
    · intro heq
      cases heq
      exact ⟨fun _ h => absurd h List.not_mem_nil, rfl⟩
    · rintro ⟨-, rfl⟩
      rfl
  | cons blob blobs ih =>
    rw [List.mapM_cons, List.forall_mem_cons]
    cases hblob : writeBlob blob with
    | error e =>
      constructor
      · intro heq
        cases heq
      · rintro ⟨⟨hlt, -⟩, -⟩
        rw [writeBlob_eq_ok.mpr ⟨hlt, rfl⟩] at hblob
        cases hblob
    | ok first =>
      obtain ⟨hlt, rfl⟩ := writeBlob_eq_ok.mp hblob
      cases hrest : blobs.mapM writeBlob with
      | error e =>
        constructor
        · intro heq
          cases heq
        · rintro ⟨⟨-, hall⟩, -⟩
          rw [ih.mpr ⟨hall, rfl⟩] at hrest
          cases hrest
      | ok rest =>
        obtain ⟨hall, rfl⟩ := ih.mp hrest
        constructor
        · intro heq
          cases heq
          exact ⟨⟨hlt, hall⟩, rfl⟩
        · rintro ⟨-, rfl⟩
          rfl

/-- The framing succeeds when every length fits, and says what it writes. -/
theorem frame_eq_ok {header bytes : List UInt8} {blobs : List (List UInt8)} :
    frame header blobs = .ok bytes ↔
      header.length < 2 ^ 64 ∧ blobs.length < 2 ^ 64 ∧
        (∀ blob ∈ blobs, blob.length < 2 ^ 64) ∧
          bytes = prefixed header ++ (Codec.leBytes 8 blobs.length ++ blobs.flatMap prefixed) := by
  constructor
  · intro h
    cases hheader : writeBlob header with
    | error e =>
      rw [frame, hheader] at h
      cases h
    | ok first =>
      obtain ⟨hlt, rfl⟩ := writeBlob_eq_ok.mp hheader
      by_cases hcount : blobs.length < 2 ^ 64
      · cases hblobs : blobs.mapM writeBlob with
        | error e =>
          rw [frame, hheader, writeLen, if_pos hcount, hblobs] at h
          cases h
        | ok out =>
          obtain ⟨hall, rfl⟩ := mapM_writeBlob_eq_ok.mp hblobs
          rw [frame, hheader, writeLen, if_pos hcount, hblobs] at h
          cases h
          refine ⟨hlt, hcount, hall, ?_⟩
          rw [List.append_assoc, List.flatMap_def]
      · rw [frame, hheader, writeLen, if_neg hcount] at h
        cases h
  · rintro ⟨hheader, hcount, hall, rfl⟩
    rw [frame, writeBlob_eq_ok.mpr ⟨hheader, rfl⟩, writeLen, if_pos hcount,
      mapM_writeBlob_eq_ok.mpr ⟨hall, rfl⟩]
    show Except.ok (_ ++ _ ++ _) = _
    rw [List.append_assoc, List.flatMap_def]

/-- The bytes at an offset are those that were put after the bytes before it. -/
theorem takeBytes_append (before part after : List UInt8) (overflow truncated : WireError) :
    takeBytes (before ++ (part ++ after)) before.length part.length overflow truncated =
      .ok (part, before.length + part.length) := by
  rw [takeBytes, if_pos (by simp), List.drop_left, List.take_left]

theorem readLen_append {I J : List UInt8} {len : Nat} (hlen : len < 2 ^ 64) :
    readLen (I ++ (Codec.leBytes 8 len ++ J)) I.length = .ok (len, I.length + 8) := by
  have htake := takeBytes_append I (Codec.leBytes 8 len) J .offsetOverflow
    .truncatedLength
  rw [Codec.length_leBytes] at htake
  rw [readLen, htake]
  show Except.ok (Codec.ofLeBytes (Codec.leBytes 8 len), _) = _
  rw [Codec.ofLeBytes_leBytes hlen]

/-- The loop reads back the blobs that were written. -/
theorem readBlobs_append {blobs : List (List UInt8)}
    (hall : ∀ blob ∈ blobs, blob.length < 2 ^ 64) (before : List UInt8) :
    readBlobs (before ++ blobs.flatMap prefixed) blobs.length before.length =
      .ok (blobs, before.length + (blobs.flatMap prefixed).length) := by
  induction blobs generalizing before with
  | nil => rfl
  | cons blob blobs ih =>
    obtain ⟨hblob, hrest⟩ := List.forall_mem_cons.mp hall
    -- the bytes before the loop's next round are those of this blob and what came before
    have hbytes : before ++ (blob :: blobs).flatMap prefixed =
        before ++ (Codec.leBytes 8 blob.length ++ (blob ++ blobs.flatMap prefixed)) := by
      rw [List.flatMap_cons, prefixed, List.append_assoc]
    have hbytes' : before ++ (Codec.leBytes 8 blob.length ++ (blob ++ blobs.flatMap prefixed)) =
        (before ++ Codec.leBytes 8 blob.length) ++ (blob ++ blobs.flatMap prefixed) := by
      rw [List.append_assoc]
    have hbytes'' : (before ++ Codec.leBytes 8 blob.length) ++ (blob ++ blobs.flatMap prefixed) =
        (before ++ prefixed blob) ++ blobs.flatMap prefixed := by
      rw [prefixed, List.append_assoc, List.append_assoc, List.append_assoc]
    have hoffset : before.length + 8 = (before ++ Codec.leBytes 8 blob.length).length := by
      rw [List.length_append, Codec.length_leBytes]
    have hoffset' : (before ++ Codec.leBytes 8 blob.length).length + blob.length =
        (before ++ prefixed blob).length := by
      rw [prefixed, List.length_append, List.length_append, List.length_append]
      omega
    rw [hbytes, List.length_cons, readBlobs, readLen_append hblob]
    show (takeBytes _ (before.length + 8) blob.length _ _ >>= _) = _
    rw [hbytes', hoffset, takeBytes_append]
    show (readBlobs _ blobs.length ((before ++ Codec.leBytes 8 blob.length).length +
      blob.length) >>= _) = _
    rw [hbytes'', hoffset', ih hrest]
    show Except.ok (blob :: blobs, _) = _
    rw [List.length_append, List.flatMap_cons, List.length_append, Nat.add_assoc]

theorem length_le_flatMap_prefixed (blobs : List (List UInt8)) :
    8 * blobs.length ≤ (blobs.flatMap prefixed).length := by
  induction blobs with
  | nil => exact Nat.le_refl _
  | cons blob blobs ih =>
    rw [List.flatMap_cons, List.length_append, List.length_cons, prefixed, List.length_append,
      Codec.length_leBytes]
    omega

/-- What `read` finds in a framed file, part by part. -/
structure Unframed (bytes header : List UInt8) (blobs : List (List UInt8)) : Prop where
  headerLen : readLen bytes 0 = .ok (header.length, 8)
  headerBytes : takeBytes bytes 8 header.length .headerOverflow .truncatedHeader =
    .ok (header, 8 + header.length)
  count : readLen bytes (8 + header.length) = .ok (blobs.length, 8 + header.length + 8)
  countFits : ¬(bytes.length - (8 + header.length + 8)) / 8 < blobs.length
  blobBytes : readBlobs bytes blobs.length (8 + header.length + 8) = .ok (blobs, bytes.length)

theorem unframed_of_frame {header bytes : List UInt8} {blobs : List (List UInt8)}
    (h : frame header blobs = .ok bytes) : Unframed bytes header blobs := by
  obtain ⟨hheader, hcount, hall, rfl⟩ := frame_eq_ok.mp h
  have hbytes : prefixed header ++ (Codec.leBytes 8 blobs.length ++ blobs.flatMap prefixed) =
      Codec.leBytes 8 header.length ++
        (header ++ (Codec.leBytes 8 blobs.length ++ blobs.flatMap prefixed)) := by
    rw [prefixed, List.append_assoc]
  have hlen : (prefixed header).length = 8 + header.length := by
    rw [prefixed, List.length_append, Codec.length_leBytes]
  have hlen' : (prefixed header ++ Codec.leBytes 8 blobs.length).length =
      8 + header.length + 8 := by
    rw [List.length_append, hlen, Codec.length_leBytes]
  refine ⟨?_, ?_, ?_, ?_, ?_⟩
  · rw [hbytes]
    exact readLen_append (I := []) hheader
  · have htake := takeBytes_append (Codec.leBytes 8 header.length) header
      (Codec.leBytes 8 blobs.length ++ blobs.flatMap prefixed) .headerOverflow .truncatedHeader
    rw [Codec.length_leBytes] at htake
    rw [hbytes, htake]
  · have hread := readLen_append (I := prefixed header) (J := blobs.flatMap prefixed) hcount
    rwa [hlen] at hread
  · have hblobs := length_le_flatMap_prefixed blobs
    rw [List.length_append, List.length_append, hlen, Codec.length_leBytes]
    omega
  · have hread := readBlobs_append hall (prefixed header ++ Codec.leBytes 8 blobs.length)
    rw [hlen', List.append_assoc] at hread
    rw [hread, List.length_append, List.length_append, hlen, Codec.length_leBytes,
      Nat.add_assoc (8 + header.length)]

/-- A file holds one header and one list of blobs. -/
theorem frame_inj {header header' bytes : List UInt8} {blobs blobs' : List (List UInt8)}
    (h : frame header blobs = .ok bytes) (h' : frame header' blobs' = .ok bytes) :
    header = header' ∧ blobs = blobs' := by
  obtain ⟨hlen, hheader, hcount, -, hblobs⟩ := unframed_of_frame h
  obtain ⟨hlen', hheader', hcount', -, hblobs'⟩ := unframed_of_frame h'
  have hheaders : header.length = header'.length :=
    congrArg Prod.fst (Except.ok.inj (hlen.symm.trans hlen'))
  rw [hheaders] at hheader hcount hblobs
  have hblobsLen : blobs.length = blobs'.length :=
    congrArg Prod.fst (Except.ok.inj (hcount.symm.trans hcount'))
  rw [hblobsLen] at hblobs
  exact ⟨congrArg Prod.fst (Except.ok.inj (hheader.symm.trans hheader')),
    congrArg Prod.fst (Except.ok.inj (hblobs.symm.trans hblobs'))⟩

end Lifeguard
