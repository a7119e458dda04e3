import Lifeguard.ConstructorParity

/-!
# What a constructor record names

The record of a class (`ConstructorCallees`, `cache/artifact.rs`) names its constructor
callees by a mask over the methods of a metaclass and of the class, and by a list of extra
ones.

- `RecordedCallee`: one callee of a record;
- `names_mergedWith_own`: what does not depend on a metaclass survives every join;
- `names_mergedWith_of_agree`, `WellFormed.names_mergedWith`: records that agree on the
  metaclass lose nothing in a join, and well-formed ones gain nothing;
- `wellFormed_resolveConstructorCallees`: the records of the analysis are well formed.
-/

namespace Lifeguard

open Lib

/-! ## What a record names -/

/-- A callee of a record: a method of its metaclass, one of the class, by their place in
`CONSTRUCTOR_METHODS`, or an extra one. -/
inductive RecordedCallee
  | onMetaclass (metaclass : ModuleName) (i : Nat)
  | own (i : Nat)
  | extra (callee : ModuleName)

/-- The callee does not depend on a metaclass. -/
def RecordedCallee.IsOwn : RecordedCallee → Prop
  | onMetaclass _ _ => False
  | own _ | extra _ => True

namespace ConstructorCallees

/-- The record names the callee. -/
def Names (r : ConstructorCallees) : RecordedCallee → Prop
  | .onMetaclass m i => r.metaclass = some m ∧ i < 3 ∧ r.mask.getLsbD i = true
  | .own i => i < 3 ∧ r.mask.getLsbD (3 + i) = true
  | .extra callee => callee ∈ r.extra

/-- A record as the analysis writes it: six bits, and a metaclass exactly when one of its
bits is set. -/
structure WellFormed (r : ConstructorCallees) : Prop where
  width : ∀ i, 6 ≤ i → r.mask.getLsbD i = false
  metaclass : r.metaclass.isSome ↔ ∃ i < 3, r.mask.getLsbD i = true

/-- The record without its metaclass: what it names of the class itself. -/
def ownPart (r : ConstructorCallees) : ConstructorCallees := { r with metaclass := none }

variable {a b r : ConstructorCallees} {f : RecordedCallee}

theorem getLsbD_ownBits (i : Nat) : ownBits.getLsbD i = decide (3 ≤ i ∧ i < 6) := by
  by_cases hi : i < 8
  · have hall : ∀ i < 8, ownBits.getLsbD i = decide (3 ≤ i ∧ i < 6) := by decide
    exact hall i hi
  · rw [BitVec.getLsbD_of_ge _ _ (by omega), eq_comm, decide_eq_false_iff_not]
    omega

theorem getLsbD_mergedWith (i : Nat) :
    (a.mergedWith b).mask.getLsbD i =
      ((a.mask.getLsbD i || b.mask.getLsbD i) &&
        ((a.mergedWith b).metaclass.isSome || decide (3 ≤ i ∧ i < 6))) := by
  have hmeta : (a.mergedWith b).metaclass = mergedMetaclass a.metaclass b.metaclass := rfl
  have hmask : (a.mergedWith b).mask =
      if (mergedMetaclass a.metaclass b.metaclass).isNone then (a.mask ||| b.mask) &&& ownBits
      else a.mask ||| b.mask := rfl
  rw [hmask, hmeta]
  cases mergedMetaclass a.metaclass b.metaclass with
  | none => simp [getLsbD_ownBits]
  | some m => simp

theorem mem_extra_mergedWith {callee : ModuleName} :
    callee ∈ (a.mergedWith b).extra ↔ callee ∈ a.extra ∨ callee ∈ b.extra := by
  have hfold : ∀ (l extra : List ModuleName),
      callee ∈ l.foldl (fun extra c => if c ∈ extra then extra else extra ++ [c]) extra ↔
        callee ∈ extra ∨ callee ∈ l := by
    intro l
    induction l with
    | nil => simp
    | cons c l ih =>
      intro extra
      rw [List.foldl_cons, ih, List.mem_cons, ← or_assoc]
      refine or_congr_left ?_
      split
      · next hmem =>
        refine (or_iff_left_of_imp ?_).symm
        rintro rfl
        exact hmem
      · rw [List.mem_append, List.mem_singleton]
  exact hfold b.extra a.extra

/-- What does not depend on a metaclass is never lost. -/
theorem names_mergedWith_own (hf : f.IsOwn) :
    (a.mergedWith b).Names f ↔ a.Names f ∨ b.Names f := by
  cases f with
  | onMetaclass m i => exact hf.elim
  | own i =>
    show i < 3 ∧ (a.mergedWith b).mask.getLsbD (3 + i) = true ↔ (i < 3 ∧ _) ∨ (i < 3 ∧ _)
    rw [← and_or_left]
    refine and_congr_right fun hi => ?_
    have hown : decide (3 ≤ 3 + i ∧ 3 + i < 6) = true := decide_eq_true (by omega)
    rw [getLsbD_mergedWith, hown, Bool.or_true, Bool.and_true, Bool.or_eq_true]
  | extra callee => exact mem_extra_mergedWith

/-- The two records do not name different metaclasses. -/
def Agree (a b : ConstructorCallees) : Prop :=
  ∀ m ∈ a.metaclass, ∀ m' ∈ b.metaclass, m = m'

theorem metaclass_mergedWith (h : a.Agree b) (m : ModuleName) :
    (a.mergedWith b).metaclass = some m ↔ a.metaclass = some m ∨ b.metaclass = some m := by
  show mergedMetaclass a.metaclass b.metaclass = some m ↔ _
  unfold mergedMetaclass
  cases ha : a.metaclass with
  | none => simp
  | some p =>
    cases hb : b.metaclass with
    | none => simp
    | some q =>
      have hpq : p = q := h p ha q hb
      simp [hpq]

/-- Records that agree on the metaclass lose nothing. -/
theorem names_mergedWith_of_agree (h : a.Agree b) (hf : a.Names f ∨ b.Names f) :
    (a.mergedWith b).Names f := by
  cases f with
  | onMetaclass m i =>
    have hmeta : (a.mergedWith b).metaclass = some m :=
      (metaclass_mergedWith h m).mpr (hf.imp And.left And.left)
    have hbit : (a.mask.getLsbD i || b.mask.getLsbD i) = true :=
      Bool.or_eq_true_iff.mpr (hf.imp (fun h => h.2.2) fun h => h.2.2)
    refine ⟨hmeta, hf.elim (fun h => h.2.1) fun h => h.2.1, ?_⟩
    rw [getLsbD_mergedWith, hbit, hmeta]
    rfl
  | own i => exact (names_mergedWith_own (by trivial)).mpr hf
  | extra callee => exact (names_mergedWith_own (by trivial)).mpr hf

/-- An empty record names nothing. -/
theorem not_names_of_isEmpty (h : r.isEmpty = true) : ¬r.Names f := by
  rw [isEmpty, Bool.and_eq_true, decide_eq_true_iff, List.isEmpty_iff] at h
  obtain ⟨hmask, hextra⟩ := h
  cases f with
  | onMetaclass m i => simp [Names, hmask]
  | own i => simp [Names, hmask]
  | extra callee => simp [Names, hextra]

namespace WellFormed

/-- A well-formed record without a metaclass has own bits only. -/
theorem getLsbD_of_none (h : r.WellFormed) (hnone : r.metaclass = none) {i : Nat}
    (hi : ¬(3 ≤ i ∧ i < 6)) : r.mask.getLsbD i = false := by
  by_cases hlt : i < 3
  · rw [← Bool.not_eq_true]
    intro hbit
    have hsome := h.metaclass.mpr ⟨i, hlt, hbit⟩
    rw [hnone] at hsome
    cases hsome
  · exact h.width i (by omega)

/-- The bits of well-formed records that agree are the bits of the two. -/
theorem getLsbD_mergedWith (ha : a.WellFormed) (hb : b.WellFormed) (h : a.Agree b)
    (i : Nat) :
    (a.mergedWith b).mask.getLsbD i = (a.mask.getLsbD i || b.mask.getLsbD i) := by
  rw [ConstructorCallees.getLsbD_mergedWith]
  cases hmeta : (a.mergedWith b).metaclass with
  | some m => simp
  | none =>
    have hnone : ∀ m, ¬(a.metaclass = some m ∨ b.metaclass = some m) := by
      intro m hm
      have := (metaclass_mergedWith h m).mpr hm
      rw [hmeta] at this
      cases this
    have hanone : a.metaclass = none :=
      Option.eq_none_iff_forall_ne_some.mpr fun m hm => hnone m (Or.inl hm)
    have hbnone : b.metaclass = none :=
      Option.eq_none_iff_forall_ne_some.mpr fun m hm => hnone m (Or.inr hm)
    by_cases hi : 3 ≤ i ∧ i < 6
    · simp [hi]
    · simp [ha.getLsbD_of_none hanone hi, hb.getLsbD_of_none hbnone hi]

theorem mergedWith (ha : a.WellFormed) (hb : b.WellFormed) (h : a.Agree b) :
    (a.mergedWith b).WellFormed := by
  refine ⟨fun i hi => ?_, ?_⟩
  · rw [ha.getLsbD_mergedWith hb h, ha.width i hi, hb.width i hi]
    rfl
  · have hsome : (a.mergedWith b).metaclass.isSome ↔ a.metaclass.isSome ∨ b.metaclass.isSome := by
      rw [Option.isSome_iff_exists, Option.isSome_iff_exists, Option.isSome_iff_exists,
        ← exists_or]
      exact exists_congr fun m => metaclass_mergedWith h m
    rw [hsome, ha.metaclass, hb.metaclass, ← exists_or]
    refine exists_congr fun i => ?_
    rw [ha.getLsbD_mergedWith hb h, Bool.or_eq_true, ← and_or_left]

/-- Well-formed records that agree name together what they name apart. -/
theorem names_mergedWith (ha : a.WellFormed) (hb : b.WellFormed) (h : a.Agree b) :
    (a.mergedWith b).Names f ↔ a.Names f ∨ b.Names f := by
  refine ⟨fun hf => ?_, names_mergedWith_of_agree h⟩
  cases f with
  | onMetaclass m i =>
    obtain ⟨hmeta, hi, hbit⟩ := hf
    rw [ha.getLsbD_mergedWith hb h, Bool.or_eq_true] at hbit
    -- the record that has the bit has a metaclass, and it can only be `m`
    rcases hbit with hbit | hbit
    · obtain ⟨p, hp⟩ := Option.isSome_iff_exists.mp (ha.metaclass.mpr ⟨i, hi, hbit⟩)
      have hmp := (metaclass_mergedWith h p).mpr (Or.inl hp)
      rw [hmeta, Option.some.injEq] at hmp
      subst hmp
      exact Or.inl ⟨hp, hi, hbit⟩
    · obtain ⟨p, hp⟩ := Option.isSome_iff_exists.mp (hb.metaclass.mpr ⟨i, hi, hbit⟩)
      have hmp := (metaclass_mergedWith h p).mpr (Or.inr hp)
      rw [hmeta, Option.some.injEq] at hmp
      subst hmp
      exact Or.inr ⟨hp, hi, hbit⟩
  | own i => exact (names_mergedWith_own (by trivial)).mp hf
  | extra callee => exact (names_mergedWith_own (by trivial)).mp hf

/-- A well-formed record that names nothing is empty. -/
theorem exists_names (h : r.WellFormed) (hne : r.isEmpty = false) : ∃ f, r.Names f := by
  rw [isEmpty, Bool.and_eq_false_iff] at hne
  rcases hne with hmask | hextra
  · have hne : r.mask ≠ 0 := of_decide_eq_false hmask
    obtain ⟨i, hbit⟩ : ∃ i, r.mask.getLsbD i = true := by
      by_contra hno
      refine hne (BitVec.eq_of_getLsbD_eq fun i _ => ?_)
      show r.mask.getLsbD i = (0#8).getLsbD i
      rw [BitVec.getLsbD_zero, ← Bool.not_eq_true]
      exact fun hbit => hno ⟨i, hbit⟩
    by_cases hi : i < 3
    · obtain ⟨m, hm⟩ := Option.isSome_iff_exists.mp (h.metaclass.mpr ⟨i, hi, hbit⟩)
      exact ⟨.onMetaclass m i, hm, hi, hbit⟩
    · have hwidth : i < 6 := by
        by_contra hge
        rw [h.width i (by omega)] at hbit
        cases hbit
      refine ⟨.own (i - 3), by omega, ?_⟩
      rw [Nat.add_sub_cancel' (by omega)]
      exact hbit
  · obtain ⟨callee, hmem⟩ := List.exists_mem_of_ne_nil r.extra
      (fun hnil => by rw [hnil] at hextra; cases hextra)
    exact ⟨.extra callee, hmem⟩

/-- Well-formed records that name the same callees have the same metaclass and mask. -/
theorem ext_of_names (ha : a.WellFormed) (hb : b.WellFormed)
    (h : ∀ f, a.Names f ↔ b.Names f) : a.metaclass = b.metaclass ∧ a.mask = b.mask := by
  have hmeta : ∀ {a b : ConstructorCallees}, a.WellFormed → (∀ f, a.Names f → b.Names f) →
      ∀ m, a.metaclass = some m → b.metaclass = some m := by
    intro a b ha h m hm
    obtain ⟨i, hi, hbit⟩ := ha.metaclass.mp (Option.isSome_of_mem hm)
    exact (h (.onMetaclass m i) ⟨hm, hi, hbit⟩).1
  have hmask : ∀ {a b : ConstructorCallees}, a.WellFormed → (∀ f, a.Names f → b.Names f) →
      ∀ i, a.mask.getLsbD i = true → b.mask.getLsbD i = true := by
    intro a b ha h i hbit
    by_cases hi : i < 3
    · obtain ⟨m, hm⟩ := Option.isSome_iff_exists.mp (ha.metaclass.mpr ⟨i, hi, hbit⟩)
      exact (h (.onMetaclass m i) ⟨hm, hi, hbit⟩).2.2
    · have hwidth : i < 6 := by
        by_contra hge
        rw [ha.width i (by omega)] at hbit
        cases hbit
      have hplace : 3 + (i - 3) = i := by omega
      have hown := h (.own (i - 3)) ⟨by omega, by rw [hplace]; exact hbit⟩
      rw [← hplace]
      exact hown.2
  refine ⟨?_, BitVec.eq_of_getLsbD_eq fun i _ => ?_⟩
  · refine Option.ext fun m => ⟨hmeta ha (fun f => (h f).mp) m, ?_⟩
    exact hmeta hb (fun f => (h f).mpr) m
  · rw [Bool.eq_iff_iff]
    exact ⟨hmask ha (fun f => (h f).mp) i, hmask hb (fun f => (h f).mpr) i⟩

end WellFormed

theorem mem_selected_iff {mask : BitVec 8} {baseBit : Nat} {method : Str} :
    method ∈ ConstructorCallees.selected mask baseBit constructorMethods ↔
      ∃ i < 3, mask.getLsbD (baseBit + i) = true ∧ constructorMethods.getD i [] = method := by
  have hmethods : constructorMethods = [constructorMethods.getD 0 [],
      constructorMethods.getD 1 [], constructorMethods.getD 2 []] := rfl
  rw [hmethods, mem_selected, ← hmethods]
  constructor
  · rintro (⟨rfl, hbit⟩ | ⟨rfl, hbit⟩ | ⟨rfl, hbit⟩)
    · exact ⟨0, by omega, hbit, rfl⟩
    · exact ⟨1, by omega, hbit, rfl⟩
    · exact ⟨2, by omega, hbit, rfl⟩
  · rintro ⟨i, hi, hbit, rfl⟩
    obtain rfl | rfl | rfl : i = 0 ∨ i = 1 ∨ i = 2 := by omega
    · exact Or.inl ⟨rfl, hbit⟩
    · exact Or.inr (Or.inl ⟨rfl, hbit⟩)
    · exact Or.inr (Or.inr ⟨rfl, hbit⟩)

end ConstructorCallees

/-! ## The records of the analysis are well formed -/

theorem getLsbD_maskOf_of_ge (p₀ p₁ p₂ q₀ q₁ q₂ : Bool) {i : Nat} (hi : 6 ≤ i) :
    (maskOf 0 p₀ p₁ p₂ ||| maskOf 3 q₀ q₁ q₂).getLsbD i = false := by
  by_cases hlt : i < 8
  · have hall : ∀ p₀ p₁ p₂ q₀ q₁ q₂,
        (maskOf 0 p₀ p₁ p₂ ||| maskOf 3 q₀ q₁ q₂).getLsbD 6 = false ∧
          (maskOf 0 p₀ p₁ p₂ ||| maskOf 3 q₀ q₁ q₂).getLsbD 7 = false := by decide
    obtain rfl | rfl : i = 6 ∨ i = 7 := by omega
    · exact (hall p₀ p₁ p₂ q₀ q₁ q₂).1
    · exact (hall p₀ p₁ p₂ q₀ q₁ q₂).2
  · exact BitVec.getLsbD_of_ge _ _ (by omega)

theorem exists_maskOf (owner : ModuleName) (baseBit : Nat) (resolves : ModuleName → Bool) :
    ∃ b₀ b₁ b₂, constructorMaskBits owner baseBit constructorMethods resolves =
      maskOf baseBit b₀ b₁ b₂ :=
  ⟨_, _, _, constructorMaskBits_eq owner baseBit _ _ _ resolves⟩

theorem wellFormed_maskOf (p₀ p₁ p₂ q₀ q₁ q₂ : Bool) {r : ConstructorCallees}
    (hmask : r.mask = maskOf 0 p₀ p₁ p₂ ||| maskOf 3 q₀ q₁ q₂)
    (hmeta : r.metaclass.isSome ↔ maskOf 0 p₀ p₁ p₂ ≠ 0) : r.WellFormed := by
  obtain ⟨h0, h1, h2, -⟩ := getLsbD_maskOf p₀ p₁ p₂ q₀ q₁ q₂
  rw [← hmask] at h0 h1 h2
  refine ⟨fun i hi => ?_, ?_⟩
  · rw [hmask]
    exact getLsbD_maskOf_of_ge _ _ _ _ _ _ hi
  · rw [hmeta, ne_eq, maskOf_zero_iff, ← h0, ← h1, ← h2]
    constructor
    · intro hno
      by_contra hnone
      refine hno ⟨?_, ?_, ?_⟩ <;> rw [← Bool.not_eq_true]
      · exact fun hbit => hnone ⟨0, by omega, hbit⟩
      · exact fun hbit => hnone ⟨1, by omega, hbit⟩
      · exact fun hbit => hnone ⟨2, by omega, hbit⟩
    · rintro ⟨i, hi, hbit⟩ ⟨hn0, hn1, hn2⟩
      obtain rfl | rfl | rfl : i = 0 ∨ i = 1 ∨ i = 2 := by omega
      · exact absurd (hn0.symm.trans hbit) Bool.false_ne_true
      · exact absurd (hn1.symm.trans hbit) Bool.false_ne_true
      · exact absurd (hn2.symm.trans hbit) Bool.false_ne_true

theorem wellFormed_resolveConstructorCallees (info : ProjectInfo) (cls : ModuleName) :
    (info.resolveConstructorCallees cls).WellFormed := by
  obtain ⟨q₀, q₁, q₂, hown⟩ :=
    exists_maskOf cls constructorMethods.length info.containsCallable
  cases hmeta : declaredMetaclass info.classes cls with
  | none =>
    refine wellFormed_maskOf false false false q₀ q₁ q₂ ?_ ?_
    · simp only [ProjectInfo.resolveConstructorCallees, hmeta, hown]
      rfl
    · simp [ProjectInfo.resolveConstructorCallees, hmeta, maskOf]
  | some m =>
    obtain ⟨p₀, p₁, p₂, hbits⟩ := exists_maskOf m 0 info.containsCallable
    refine wellFormed_maskOf p₀ p₁ p₂ q₀ q₁ q₂ ?_ ?_
    · simp only [ProjectInfo.resolveConstructorCallees, hmeta, hown, hbits]
      rfl
    · simp only [ProjectInfo.resolveConstructorCallees, hmeta, hbits]
      split
      · next hne => exact iff_of_true rfl hne
      · next heq => exact iff_of_false nofun heq

end Lifeguard
