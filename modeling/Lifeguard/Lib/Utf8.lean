import Mathlib.Data.List.Forall2
import Mathlib.Tactic.SplitIfs

/-!
# Text as bytes

The reading of UTF-8 that cuts off the longest piece that may begin a character, in full
(`utf8ToStr`) and with one replacement for each piece that is none (`utf8ToStringLossy`).

- `utf8EncodeChar_utf8Char`: a character that is read has the bytes it was read from;
- `utf8_of_utf8ToStr`: so has a text, and two strings of bytes that read alike are one, where
  each of them is text.
-/

namespace Lib

/-- The bytes that may follow the first byte of a character, none where it starts none. -/
def utf8Following (lead : UInt8) : Option (List (UInt8 × UInt8)) :=
  if lead < 0x80 then some []
  else if 0xC2 ≤ lead ∧ lead ≤ 0xDF then some [(0x80, 0xBF)]
  else if lead = 0xE0 then some [(0xA0, 0xBF), (0x80, 0xBF)]
  else if lead = 0xED then some [(0x80, 0x9F), (0x80, 0xBF)]
  else if 0xE1 ≤ lead ∧ lead ≤ 0xEF then some [(0x80, 0xBF), (0x80, 0xBF)]
  else if lead = 0xF0 then some [(0x90, 0xBF), (0x80, 0xBF), (0x80, 0xBF)]
  else if 0xF1 ≤ lead ∧ lead ≤ 0xF3 then some [(0x80, 0xBF), (0x80, 0xBF), (0x80, 0xBF)]
  else if lead = 0xF4 then some [(0x80, 0x8F), (0x80, 0xBF), (0x80, 0xBF)]
  else none

/-- The bytes that follow as they may, as far as they do. -/
def takeFollowing : List (UInt8 × UInt8) → List UInt8 → List UInt8
  | (least, greatest) :: ranges, byte :: bytes =>
    if least ≤ byte ∧ byte ≤ greatest then byte :: takeFollowing ranges bytes else []
  | _, _ => []

/-- The character of a first byte and those that follow it. -/
def utf8Char (lead : UInt8) (following : List UInt8) : Char :=
  let high := match following.length with
    | 0 => lead.toNat
    | 1 => lead.toNat % 32
    | 2 => lead.toNat % 16
    | _ => lead.toNat % 8
  Char.ofNat (following.foldl (fun value byte => value * 64 + byte.toNat % 64) high)

/-- The characters of the bytes, and for each longest piece that is cut off from one nothing.
The fuel is the number of bytes. -/
def utf8Units : Nat → List UInt8 → List (Option Char)
  | 0, _ | _, [] => []
  | fuel + 1, lead :: bytes =>
    match utf8Following lead with
    | none => none :: utf8Units fuel bytes
    | some ranges =>
      let following := takeFollowing ranges bytes
      (if following.length = ranges.length then some (utf8Char lead following) else none) ::
        utf8Units fuel (bytes.drop following.length)

/-- `OsStr::to_str`. -/
def utf8ToStr (bytes : List UInt8) : Option (List Char) := (utf8Units bytes.length bytes).mapM id

/-- `OsStr::to_string_lossy`. -/
def utf8ToStringLossy (bytes : List UInt8) : List Char :=
  (utf8Units bytes.length bytes).map fun unit => unit.getD (Char.ofNat 0xFFFD)

/-- The bytes of text. -/
def utf8 (text : List Char) : List UInt8 := text.flatMap String.utf8EncodeChar

/-! ## What is read back -/

theorem toNat_charOfNat {v : Nat} (h : v < 0xD800 ∨ 0xDFFF < v ∧ v < 0x110000) :
    (Char.ofNat v).val.toNat = v := by
  have hvalid : v.isValidChar := by
    unfold Nat.isValidChar
    omega
  unfold Char.ofNat
  rw [dif_pos hvalid]
  rfl

/-- The bytes that are taken are the first ones. -/
theorem takeFollowing_isPrefix (ranges : List (UInt8 × UInt8)) (bytes : List UInt8) :
    takeFollowing ranges bytes <+: bytes := by
  induction ranges generalizing bytes with
  | nil => cases bytes <;> exact List.nil_prefix
  | cons range ranges ih =>
    cases bytes with
    | nil => exact List.nil_prefix
    | cons byte bytes =>
      rw [takeFollowing]
      split
      · exact List.cons_prefix_cons.mpr ⟨rfl, ih bytes⟩
      · exact List.nil_prefix

/-- Each byte that is taken is in its range. -/
theorem takeFollowing_forall₂ {ranges : List (UInt8 × UInt8)} {bytes : List UInt8}
    (h : (takeFollowing ranges bytes).length = ranges.length) :
    List.Forall₂ (fun range byte => range.1.toNat ≤ byte.toNat ∧ byte.toNat ≤ range.2.toNat)
      ranges (takeFollowing ranges bytes) := by
  induction ranges generalizing bytes with
  | nil => cases bytes <;> exact .nil
  | cons range ranges ih =>
    cases bytes with
    | nil => cases h
    | cons byte bytes =>
      rw [takeFollowing] at h ⊢
      split at h
      · next hin =>
        rw [if_pos hin]
        exact .cons hin (ih (Nat.succ.inj h))
      · cases h

theorem ofNat_eq_byte {v : Nat} {b : UInt8} (h : v % 256 = b.toNat) : UInt8.ofNat v = b :=
  UInt8.toNat_inj.mp (UInt8.toNat_ofNat'.trans h)

theorem utf8EncodeChar_utf8Char_one {lead : UInt8} (hlead : lead.toNat < 0x80) :
    String.utf8EncodeChar (utf8Char lead []) = [lead] := by
  have hv : (utf8Char lead []).val.toNat = lead.toNat := toNat_charOfNat (by simp; omega)
  unfold String.utf8EncodeChar
  simp only [hv]
  rw [if_pos (by omega), ofNat_eq_byte (b := lead) (by omega)]

theorem utf8EncodeChar_utf8Char_two {lead a : UInt8}
    (hlead : 0xC2 ≤ lead.toNat ∧ lead.toNat ≤ 0xDF) (ha : 0x80 ≤ a.toNat ∧ a.toNat ≤ 0xBF) :
    String.utf8EncodeChar (utf8Char lead [a]) = [lead, a] := by
  have hv : (utf8Char lead [a]).val.toNat = lead.toNat % 32 * 64 + a.toNat % 64 :=
    toNat_charOfNat (by simp; omega)
  unfold String.utf8EncodeChar
  simp only [hv]
  rw [if_neg (by omega), if_pos (by omega), ofNat_eq_byte (b := lead) (by omega),
    ofNat_eq_byte (b := a) (by omega)]

theorem utf8EncodeChar_utf8Char_three {lead a b : UInt8}
    (hlead : 0xE0 ≤ lead.toNat ∧ lead.toNat ≤ 0xEF) (ha : 0x80 ≤ a.toNat ∧ a.toNat ≤ 0xBF)
    (hleast : lead.toNat = 0xE0 → 0xA0 ≤ a.toNat) (hgreatest : lead.toNat = 0xED → a.toNat ≤ 0x9F)
    (hb : 0x80 ≤ b.toNat ∧ b.toNat ≤ 0xBF) :
    String.utf8EncodeChar (utf8Char lead [a, b]) = [lead, a, b] := by
  have hv : (utf8Char lead [a, b]).val.toNat =
      (lead.toNat % 16 * 64 + a.toNat % 64) * 64 + b.toNat % 64 :=
    toNat_charOfNat (by simp; omega)
  unfold String.utf8EncodeChar
  simp only [hv]
  rw [if_neg (by omega), if_neg (by omega), if_pos (by omega), ofNat_eq_byte (b := lead) (by omega),
    ofNat_eq_byte (b := a) (by omega), ofNat_eq_byte (b := b) (by omega)]

theorem utf8EncodeChar_utf8Char_four {lead a b c : UInt8}
    (hlead : 0xF0 ≤ lead.toNat ∧ lead.toNat ≤ 0xF4) (ha : 0x80 ≤ a.toNat ∧ a.toNat ≤ 0xBF)
    (hleast : lead.toNat = 0xF0 → 0x90 ≤ a.toNat) (hgreatest : lead.toNat = 0xF4 → a.toNat ≤ 0x8F)
    (hb : 0x80 ≤ b.toNat ∧ b.toNat ≤ 0xBF) (hc : 0x80 ≤ c.toNat ∧ c.toNat ≤ 0xBF) :
    String.utf8EncodeChar (utf8Char lead [a, b, c]) = [lead, a, b, c] := by
  have hv : (utf8Char lead [a, b, c]).val.toNat =
      ((lead.toNat % 8 * 64 + a.toNat % 64) * 64 + b.toNat % 64) * 64 + c.toNat % 64 :=
    toNat_charOfNat (by simp; omega)
  unfold String.utf8EncodeChar
  simp only [hv]
  rw [if_neg (by omega), if_neg (by omega), if_neg (by omega), ofNat_eq_byte (b := lead) (by omega),
    ofNat_eq_byte (b := a) (by omega), ofNat_eq_byte (b := b) (by omega),
    ofNat_eq_byte (b := c) (by omega)]

/-- A character that is read from bytes has these bytes. -/
theorem utf8EncodeChar_utf8Char {lead : UInt8} {ranges : List (UInt8 × UInt8)}
    (hranges : utf8Following lead = some ranges) {following : List UInt8}
    (h : List.Forall₂ (fun range byte => range.1.toNat ≤ byte.toNat ∧ byte.toNat ≤ range.2.toNat)
      ranges following) :
    String.utf8EncodeChar (utf8Char lead following) = lead :: following := by
  have hlead := lead.toNat_lt
  unfold utf8Following at hranges
  simp only [UInt8.lt_iff_toNat_lt, UInt8.le_iff_toNat_le, ← UInt8.toNat_inj] at hranges
  simp only [UInt8.reduceToNat] at hranges
  split_ifs at hranges with h1 h2 h3 h4 h5 h6 h7 h8
  all_goals
    obtain rfl := Option.some.inj hranges
    clear hranges
  · cases h
    exact utf8EncodeChar_utf8Char_one h1
  · obtain - | ⟨ha, - | -⟩ := h
    simp only [UInt8.reduceToNat] at ha
    exact utf8EncodeChar_utf8Char_two h2 ha
  -- three bytes, the first of which may narrow what follows it
  · obtain - | ⟨ha, - | ⟨hb, - | -⟩⟩ := h
    simp only [UInt8.reduceToNat] at ha hb
    exact utf8EncodeChar_utf8Char_three (by omega) (by omega) (by omega) (by omega) hb
  · obtain - | ⟨ha, - | ⟨hb, - | -⟩⟩ := h
    simp only [UInt8.reduceToNat] at ha hb
    exact utf8EncodeChar_utf8Char_three (by omega) (by omega) (by omega) (by omega) hb
  · obtain - | ⟨ha, - | ⟨hb, - | -⟩⟩ := h
    simp only [UInt8.reduceToNat] at ha hb
    exact utf8EncodeChar_utf8Char_three (by omega) ha (by omega) (by omega) hb
  -- and four
  · obtain - | ⟨ha, - | ⟨hb, - | ⟨hc, - | -⟩⟩⟩ := h
    simp only [UInt8.reduceToNat] at ha hb hc
    exact utf8EncodeChar_utf8Char_four (by omega) (by omega) (by omega) (by omega) hb hc
  · obtain - | ⟨ha, - | ⟨hb, - | ⟨hc, - | -⟩⟩⟩ := h
    simp only [UInt8.reduceToNat] at ha hb hc
    exact utf8EncodeChar_utf8Char_four (by omega) ha (by omega) (by omega) hb hc
  · obtain - | ⟨ha, - | ⟨hb, - | ⟨hc, - | -⟩⟩⟩ := h
    simp only [UInt8.reduceToNat] at ha hb hc
    exact utf8EncodeChar_utf8Char_four (by omega) (by omega) (by omega) (by omega) hb hc

/-- Text that is read from bytes has these bytes. -/
theorem utf8_of_units {fuel : Nat} {bytes : List UInt8} (hfuel : bytes.length ≤ fuel) {text : List Char}
    (h : (utf8Units fuel bytes).mapM id = some text) : utf8 text = bytes := by
  induction fuel generalizing bytes text with
  | zero =>
    obtain rfl := List.length_eq_zero_iff.mp (Nat.le_zero.mp hfuel)
    cases h
    rfl
  | succ fuel ih =>
    cases bytes with
    | nil =>
      cases h
      rfl
    | cons lead bytes =>
      rw [utf8Units] at h
      cases hranges : utf8Following lead with
      | none =>
        rw [hranges] at h
        simp at h
      | some ranges =>
        rw [hranges] at h
        dsimp only at h
        rw [List.mapM_cons] at h
        obtain ⟨c, hc, h⟩ := Option.bind_eq_some_iff.mp h
        obtain ⟨rest, hrest, h⟩ := Option.bind_eq_some_iff.mp h
        cases h
        have hbytes := List.prefix_iff_eq_append.mp (takeFollowing_isPrefix ranges bytes)
        have hfull : (takeFollowing ranges bytes).length = ranges.length := by
          by_contra hne
          rw [if_neg hne] at hc
          cases hc
        rw [if_pos hfull] at hc
        cases hc
        have hlength : (bytes.drop (takeFollowing ranges bytes).length).length ≤ fuel := by
          rw [List.length_cons] at hfuel
          rw [List.length_drop]
          omega
        rw [utf8, List.flatMap_cons,
          utf8EncodeChar_utf8Char hranges (takeFollowing_forall₂ hfull), List.cons_append]
        exact congrArg (lead :: ·) ((congrArg _ (ih hlength hrest)).trans hbytes)

theorem utf8_of_utf8ToStr {bytes : List UInt8} {text : List Char} (h : utf8ToStr bytes = some text) :
    utf8 text = bytes :=
  utf8_of_units (Nat.le_refl _) h

/-- Where all of it is text nothing is replaced. -/
theorem utf8ToStringLossy_of_utf8ToStr {bytes : List UInt8} {text : List Char}
    (h : utf8ToStr bytes = some text) : utf8ToStringLossy bytes = text := by
  have hunits : ∀ (units : List (Option Char)) (text : List Char), units.mapM id = some text →
      units.map (fun unit => unit.getD (Char.ofNat 0xFFFD)) = text := by
    intro units
    induction units with
    | nil =>
      intro text h
      cases h
      rfl
    | cons unit units ih =>
      intro text h
      rw [List.mapM_cons] at h
      obtain ⟨c, hc, h⟩ := Option.bind_eq_some_iff.mp h
      obtain ⟨rest, hrest, h⟩ := Option.bind_eq_some_iff.mp h
      cases h
      cases hc
      rw [List.map_cons, ih rest hrest]
      rfl
  exact hunits _ text h

/-! ## Bytes of ASCII -/

/-- A byte of ASCII is that of its own character alone. -/
theorem eq_of_mem_utf8EncodeChar {byte : UInt8} (hbyte : byte.toNat < 128) {c : Char}
    (h : byte ∈ String.utf8EncodeChar c) : c.val.toNat = byte.toNat := by
  unfold String.utf8EncodeChar at h
  dsimp only at h
  have hc := c.val.toNat_lt
  split at h
  · next hle =>
    rw [List.mem_singleton.mp h, UInt8.toNat_ofNat']
    omega
  · exfalso
    split at h
    · next hgt hle =>
      simp only [List.mem_cons, List.not_mem_nil, or_false] at h
      rcases h with h | h <;> · rw [h, UInt8.toNat_ofNat'] at hbyte; omega
    · split at h
      · next hle =>
        simp only [List.mem_cons, List.not_mem_nil, or_false] at h
        rcases h with h | h | h <;> · rw [h, UInt8.toNat_ofNat'] at hbyte; omega
      · simp only [List.mem_cons, List.not_mem_nil, or_false] at h
        rcases h with h | h | h | h <;> · rw [h, UInt8.toNat_ofNat'] at hbyte; omega

/-- A byte of ASCII stands for its character. -/
theorem not_mem_utf8 {byte : UInt8} (hbyte : byte.toNat < 128) {text : List Char}
    (h : Char.ofNat byte.toNat ∉ text) : byte ∉ utf8 text := by
  intro hmem
  obtain ⟨c, hc, hbytes⟩ := List.mem_flatMap.mp hmem
  have hval := eq_of_mem_utf8EncodeChar hbyte hbytes
  refine h ?_
  rwa [← hval, show Char.ofNat c.val.toNat = c from Char.ofNat_toNat c]

end Lib
