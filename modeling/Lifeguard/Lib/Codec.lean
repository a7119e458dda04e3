import Mathlib.Algebra.Group.Nat.Defs
import Mathlib.Data.List.Basic
import Mathlib.Logic.Function.Basic

/-!
# Byte codecs

A codec writes a value as bytes and reads it back from the front of a byte string, leaving
what follows. That reading undoes writing, whatever follows, is a field (`get_put`), so a
codec built from codecs never needs a second proof:

- `byte`, `nat` (seven bits to a byte, the low ones first), `prod`, `list`, `option`;
- `leBytes`: a number in so many bytes, read back by `ofLeBytes`;
- `via`: a value written as another from which it can be recovered;
- `tagged`: a tag, and a value of the type that the tag selects.
-/

namespace Lib

/-- Writing to bytes and reading back from the front. -/
structure Codec (α : Type) where
  put : α → List UInt8
  get : List UInt8 → Option (α × List UInt8)
  get_put : ∀ a rest, get (put a ++ rest) = some (a, rest)

namespace Codec

variable {α β : Type}

theorem get_put_nil (A : Codec α) (a : α) : A.get (A.put a) = some (a, []) := by
  have h := A.get_put a []
  rwa [List.append_nil] at h

theorem put_injective (A : Codec α) : Function.Injective A.put := by
  intro a b h
  have ha := A.get_put_nil a
  rw [h, A.get_put_nil b] at ha
  exact (Prod.ext_iff.mp (Option.some.inj ha)).1.symm

/-- A byte as it is. -/
def byte : Codec UInt8 where
  put b := [b]
  get
    | [] => none
    | b :: rest => some (b, rest)
  get_put _ _ := rfl

/-- One value after the other. -/
def prod (A : Codec α) (B : Codec β) : Codec (α × β) where
  put p := A.put p.1 ++ B.put p.2
  get bytes := (A.get bytes).bind fun a => (B.get a.2).map fun b => ((a.1, b.1), b.2)
  get_put p rest := by
    rw [List.append_assoc, A.get_put]
    show (B.get (B.put p.2 ++ rest)).map _ = _
    rw [B.get_put]
    rfl

/-- A value written as another from which it can be recovered. -/
def via (A : Codec α) (code : β → α) (back : α → Option β) (h : ∀ b, back (code b) = some b) :
    Codec β where
  put b := A.put (code b)
  get bytes := (A.get bytes).bind fun a => (back a.1).map fun b => (b, a.2)
  get_put b rest := by
    rw [A.get_put]
    show (back (code b)).map _ = _
    rw [h]
    rfl

/-- The value that is not written at all. -/
def unit : Codec Unit where
  put _ := []
  get bytes := some ((), bytes)
  get_put _ _ := rfl

/-- A tag, and a value of the type that the tag selects. -/
def tagged {ι : Type} {A : ι → Type} (I : Codec ι) (B : ∀ i, Codec (A i)) :
    Codec (Σ i, A i) where
  put p := I.put p.1 ++ (B p.1).put p.2
  get bytes := (I.get bytes).bind fun i => ((B i.1).get i.2).map fun a => (⟨i.1, a.1⟩, a.2)
  get_put p rest := by
    rw [List.append_assoc, I.get_put]
    show ((B p.1).get ((B p.1).put p.2 ++ rest)).map _ = _
    rw [(B p.1).get_put]
    rfl

/-! ## Numbers -/

/-- The bytes of a number, the low seven bits first; all but the last carry the high bit.
The bound is any number not below it. -/
def putNat : Nat → Nat → List UInt8
  | 0, n => [UInt8.ofNat (n % 128)]
  | bound + 1, n =>
    if n < 128 then [UInt8.ofNat n] else UInt8.ofNat (n % 128 + 128) :: putNat bound (n / 128)

/-- Read a number, up to the first byte without the high bit. -/
def getNat : List UInt8 → Option (Nat × List UInt8)
  | [] => none
  | b :: rest =>
    if b.toNat < 128 then some (b.toNat, rest)
    else (getNat rest).map fun p => (b.toNat - 128 + 128 * p.1, p.2)

theorem getNat_putNat {bound n : Nat} (h : n ≤ bound) (rest : List UInt8) :
    getNat (putNat bound n ++ rest) = some (n, rest) := by
  induction bound generalizing n with
  | zero =>
    have hn : n = 0 := Nat.le_zero.mp h
    subst hn
    rfl
  | succ bound ih =>
    rw [putNat]
    by_cases hlt : n < 128
    · have hbyte : (UInt8.ofNat n).toNat = n := by
        rw [UInt8.toNat_ofNat']
        omega
      rw [if_pos hlt, List.singleton_append, getNat, hbyte, if_pos hlt]
    · have hbyte : (UInt8.ofNat (n % 128 + 128)).toNat = n % 128 + 128 := by
        rw [UInt8.toNat_ofNat']
        omega
      rw [if_neg hlt, List.cons_append, getNat, hbyte, if_neg (by omega), ih (by omega)]
      show some (n % 128 + 128 - 128 + 128 * (n / 128), rest) = _
      rw [Nat.add_sub_cancel, Nat.mod_add_div]

/-- A number, seven bits to a byte. -/
def nat : Codec Nat where
  put n := putNat n n
  get := getNat
  get_put _ rest := getNat_putNat (Nat.le_refl _) rest

/-! ## Fixed widths -/

/-- So many bytes of a number, the low ones first. -/
def leBytes : Nat → Nat → List UInt8
  | 0, _ => []
  | width + 1, n => UInt8.ofNat (n % 256) :: leBytes width (n / 256)

/-- The number these bytes are, the low ones first. -/
def ofLeBytes : List UInt8 → Nat
  | [] => 0
  | b :: rest => b.toNat + 256 * ofLeBytes rest

@[simp] theorem length_leBytes (width n : Nat) : (leBytes width n).length = width := by
  induction width generalizing n with
  | zero => rfl
  | succ width ih => rw [leBytes, List.length_cons, ih]

theorem ofLeBytes_leBytes {width n : Nat} (h : n < 256 ^ width) :
    ofLeBytes (leBytes width n) = n := by
  induction width generalizing n with
  | zero =>
    rw [Nat.pow_zero] at h
    rw [leBytes, ofLeBytes]
    omega
  | succ width ih =>
    have hbyte : (UInt8.ofNat (n % 256)).toNat = n % 256 := by
      rw [UInt8.toNat_ofNat']
      omega
    have hrest : n / 256 < 256 ^ width := by
      rw [Nat.div_lt_iff_lt_mul (by decide)]
      rwa [Nat.pow_succ] at h
    rw [leBytes, ofLeBytes, hbyte, ih hrest, Nat.mod_add_div]

theorem ofLeBytes_lt (bytes : List UInt8) : ofLeBytes bytes < 256 ^ bytes.length := by
  induction bytes with
  | nil => exact Nat.one_pos
  | cons b bytes ih =>
    have hb := b.toNat_lt
    rw [ofLeBytes, List.length_cons, Nat.pow_succ]
    omega

theorem leBytes_ofLeBytes (bytes : List UInt8) :
    leBytes bytes.length (ofLeBytes bytes) = bytes := by
  induction bytes with
  | nil => rfl
  | cons b bytes ih =>
    have hb := b.toNat_lt
    have hlow : (b.toNat + 256 * ofLeBytes bytes) % 256 = b.toNat := by omega
    have hhigh : (b.toNat + 256 * ofLeBytes bytes) / 256 = ofLeBytes bytes := by omega
    rw [ofLeBytes, List.length_cons, leBytes, hlow, hhigh, ih, UInt8.ofNat_toNat]

/-! ## Sequences and optional values -/

/-- Read so many values. -/
def getMany (A : Codec α) : Nat → List UInt8 → Option (List α × List UInt8)
  | 0, bytes => some ([], bytes)
  | n + 1, bytes =>
    (A.get bytes).bind fun a => (getMany A n a.2).map fun as => (a.1 :: as.1, as.2)

theorem getMany_flatMap (A : Codec α) (l : List α) (rest : List UInt8) :
    A.getMany l.length (l.flatMap A.put ++ rest) = some (l, rest) := by
  induction l with
  | nil => rfl
  | cons a l ih =>
    rw [List.length_cons, getMany, List.flatMap_cons, List.append_assoc, A.get_put]
    show (A.getMany l.length (l.flatMap A.put ++ rest)).map _ = _
    rw [ih]
    rfl

/-- The length, then the values. -/
def list (A : Codec α) : Codec (List α) where
  put l := nat.put l.length ++ l.flatMap A.put
  get bytes := (nat.get bytes).bind fun n => A.getMany n.1 n.2
  get_put l rest := by
    rw [List.append_assoc, nat.get_put]
    exact A.getMany_flatMap l rest

/-- A zero byte, or a one and the value. -/
def option (A : Codec α) : Codec (Option α) where
  put
    | none => [0]
    | some a => 1 :: A.put a
  get
    | [] => none
    | tag :: rest =>
      if tag = 0 then some (none, rest)
      else if tag = 1 then (A.get rest).map fun a => (some a.1, a.2) else none
  get_put o rest := by
    cases o with
    | none => rfl
    | some a =>
      show (A.get (A.put a ++ rest)).map _ = _
      rw [A.get_put]
      rfl

end Codec

end Lib
