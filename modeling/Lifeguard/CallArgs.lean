import Lifeguard.Effects

/-!
# Recording the arguments of a call

The builder of `source_analyzer.rs` that turns the arguments of a call into its
`CallData`:

- `CallDataBuilder.recordPositional`, `recordKeyword`: one argument;
- `checkCallArgs`: the arguments of a call, in their order;
- `Recorded`: what the imported arguments of the result say, one field for each of its
  parts.

What the value of an argument is (`classify_call_arg`) is given with the argument.
-/

namespace Lifeguard

/-- `ArgClass`. -/
inductive ArgClass
  | imported
  | forwardedParam (param : ModuleName)
  /-- Neither imported nor a forwarded parameter. -/
  | other
  deriving DecidableEq, Repr

/-- A positional argument; a starred one is unpacked. -/
structure PosArg where
  starred : Bool := false
  cls : ArgClass
  deriving DecidableEq, Repr

/-- A keyword argument; a `**` expansion has no name. -/
structure KwArg where
  name : Option Str
  cls : ArgClass
  deriving DecidableEq, Repr

def PosArg.isImported (arg : PosArg) : Bool := decide (arg.cls = .imported)

def KwArg.isImported (arg : KwArg) : Bool := decide (arg.cls = .imported)

/-- `CallDataBuilder`. -/
structure CallDataBuilder where
  hasUnsafe : Bool := false
  unsafeIndices : BitVec 64 := 0
  unsafeKeywordNames : List ModuleName := []
  hasUnsafeKwargsExpansion : Bool := false
  unsafeArgsExpansionMin : Option Nat := none
  forwardedParams : List (ArgSlot × ModuleName) := []

namespace CallDataBuilder

/-- `record_positional`. The first star is the minimum affected index; the mask represents
the first `maxArgs` slots only. -/
def recordPositional (b : CallDataBuilder) (index : Nat) (isStarred : Bool)
    (cls : ArgClass) : CallDataBuilder :=
  match cls with
  | .imported =>
    let b := { b with hasUnsafe := true }
    if isStarred then
      { b with unsafeArgsExpansionMin := some (b.unsafeArgsExpansionMin.getD index) }
    else if index < maxArgs then
      { b with unsafeIndices := b.unsafeIndices ||| (1#64 <<< index) }
    else b
  | .forwardedParam param =>
    let slot := if isStarred then ArgSlot.starExpansion index else .positional index
    { b with forwardedParams := b.forwardedParams ++ [(slot, param)] }
  | .other => b

/-- `record_keyword`. -/
def recordKeyword (b : CallDataBuilder) (name : Option Str) (cls : ArgClass) :
    CallDataBuilder :=
  match cls with
  | .imported =>
    let b := { b with hasUnsafe := true }
    match name with
    | some name => { b with unsafeKeywordNames := b.unsafeKeywordNames ++ [name] }
    | none => { b with hasUnsafeKwargsExpansion := true }
  | .forwardedParam param =>
    match name with
    | some name => { b with forwardedParams := b.forwardedParams ++ [(.keyword name, param)] }
    | none => b
  | .other => b

/-- `finish`. -/
def finish (b : CallDataBuilder) : CallData where
  hasUnsafeArgs := b.hasUnsafe
  importedArgs :=
    { unsafeArgIndices := b.unsafeIndices
      unsafeKeywordNames := b.unsafeKeywordNames
      hasUnsafeKwargsExpansion := b.hasUnsafeKwargsExpansion
      unsafeArgsExpansionMin := b.unsafeArgsExpansionMin }
  forwardedParams := b.forwardedParams

/-- The first loop of `check_call_args`, from the argument at an index on. -/
def recordPositionals (b : CallDataBuilder) : Nat → List PosArg → CallDataBuilder
  | _, [] => b
  | index, arg :: args =>
    (b.recordPositional index arg.starred arg.cls).recordPositionals (index + 1) args

/-- The second loop of `check_call_args`. -/
def recordKeywords (b : CallDataBuilder) (keywords : List KwArg) : CallDataBuilder :=
  keywords.foldl (fun b arg => b.recordKeyword arg.name arg.cls) b

end CallDataBuilder

/-- `check_call_args`. -/
def checkCallArgs (args : List PosArg) (keywords : List KwArg) : CallData :=
  (((({} : CallDataBuilder).recordPositionals 0 args).recordKeywords keywords)).finish

/-! ## What the record says -/

/-- What the imported arguments of a call record of its arguments. -/
structure Recorded (args : List PosArg) (keywords : List KwArg) (a : ImportedArgs) :
    Prop where
  /-- A bit stands for an imported argument that is not unpacked. -/
  index : ∀ j < maxArgs, a.unsafeArgIndices.getLsbD j = true ↔
    ∃ arg, args[j]? = some arg ∧ arg.starred = false ∧ arg.isImported = true
  /-- The minimum is that of the imported arguments that are unpacked. -/
  expansion : ∀ j, (a.unsafeArgsExpansionMin.any fun lo => decide (lo ≤ j)) = true ↔
    ∃ i ≤ j, ∃ arg, args[i]? = some arg ∧ arg.starred = true ∧ arg.isImported = true
  keyword : ∀ name, name ∈ a.unsafeKeywordNames ↔
    ∃ arg ∈ keywords, arg.name = some name ∧ arg.isImported = true
  mapping : a.hasUnsafeKwargsExpansion = true ↔
    ∃ arg ∈ keywords, arg.name = none ∧ arg.isImported = true

namespace CallDataBuilder

theorem getLsbD_mask (indices : BitVec 64) {index j : Nat} (hj : j < maxArgs) :
    (indices ||| (1#64 <<< index)).getLsbD j = true ↔
      indices.getLsbD j = true ∨ index = j := by
  have hj' : j < 64 := hj
  simp only [BitVec.getLsbD_or, BitVec.getLsbD_shiftLeft, BitVec.getLsbD_one, Bool.or_eq_true]
  refine or_congr_right ?_
  simp only [hj', decide_true, Bool.true_and, Bool.and_eq_true, Bool.not_eq_true',
    decide_eq_false_iff_not, decide_eq_true_iff]
  omega

/-- The bits after one argument. -/
theorem getLsbD_recordPositional (b : CallDataBuilder) (index : Nat) (arg : PosArg) {j : Nat}
    (hj : j < maxArgs) :
    (b.recordPositional index arg.starred arg.cls).unsafeIndices.getLsbD j = true ↔
      b.unsafeIndices.getLsbD j = true ∨
        (index = j ∧ arg.starred = false ∧ arg.isImported = true) := by
  unfold PosArg.isImported
  rcases arg with ⟨starred, cls⟩
  cases cls with
  | imported =>
    cases starred with
    | true => simp [recordPositional]
    | false =>
      unfold recordPositional
      simp only [Bool.false_eq_true, if_false, decide_true, and_true]
      split
      · exact getLsbD_mask b.unsafeIndices hj
      · -- past the mask nothing is recorded
        refine (or_iff_left ?_).symm
        rintro rfl
        contradiction
  | forwardedParam param => simp [recordPositional]
  | other => simp [recordPositional]

/-- The bits after the loop: those before it, and the plain imported arguments. -/
theorem getLsbD_recordPositionals (args : List PosArg) (b : CallDataBuilder) (index : Nat)
    {j : Nat} (hj : j < maxArgs) :
    (b.recordPositionals index args).unsafeIndices.getLsbD j = true ↔
      b.unsafeIndices.getLsbD j = true ∨ ∃ i arg, args[i]? = some arg ∧ index + i = j ∧
        arg.starred = false ∧ arg.isImported = true := by
  induction args generalizing b index with
  | nil => simp [recordPositionals]
  | cons arg args ih =>
    rw [recordPositionals, ih, getLsbD_recordPositional b index arg hj, or_assoc]
    refine or_congr_right ?_
    constructor
    · rintro (⟨hindex, h⟩ | ⟨i, a, ha, hi, h⟩)
      · exact ⟨0, arg, rfl, hindex, h⟩
      · exact ⟨i + 1, a, ha, by omega, h⟩
    · rintro ⟨i, a, ha, hi, h⟩
      cases i with
      | zero =>
        cases ha
        exact Or.inl ⟨hi, h⟩
      | succ i => exact Or.inr ⟨i, a, ha, by omega, h⟩

/-- The minimum reaches a slot. -/
def Reaches (lo : Option Nat) (j : Nat) : Prop := (lo.any fun lo => decide (lo ≤ j)) = true

/-- The minimum after one argument, which comes after all that have been recorded. -/
theorem reaches_recordPositional (b : CallDataBuilder) (index : Nat) (arg : PosArg)
    (hb : ∀ lo, b.unsafeArgsExpansionMin = some lo → lo ≤ index) (j : Nat) :
    (Reaches (b.recordPositional index arg.starred arg.cls).unsafeArgsExpansionMin j ↔
      Reaches b.unsafeArgsExpansionMin j ∨
        (index ≤ j ∧ arg.starred = true ∧ arg.isImported = true)) ∧
      ∀ lo, (b.recordPositional index arg.starred arg.cls).unsafeArgsExpansionMin = some lo →
        lo ≤ index + 1 := by
  have hkeep : ∀ lo, b.unsafeArgsExpansionMin = some lo → lo ≤ index + 1 := fun lo h =>
    (hb lo h).trans (Nat.le_succ index)
  unfold Reaches PosArg.isImported
  rcases arg with ⟨starred, cls⟩
  cases cls with
  | imported =>
    cases starred with
    | true =>
      unfold recordPositional
      cases hmin : b.unsafeArgsExpansionMin with
      | none => simp
      | some lo =>
        have hle := hb lo hmin
        simp
        omega
    | false =>
      unfold recordPositional
      simp only [Bool.false_eq_true, if_false, false_and, and_false, or_false]
      split <;> exact ⟨Iff.rfl, hkeep⟩
  | forwardedParam param => simpa [recordPositional] using hkeep
  | other => simpa [recordPositional] using hkeep

/-- The minimum after the loop. -/
theorem reaches_recordPositionals (args : List PosArg) (b : CallDataBuilder) (index : Nat)
    (hb : ∀ lo, b.unsafeArgsExpansionMin = some lo → lo ≤ index) (j : Nat) :
    Reaches (b.recordPositionals index args).unsafeArgsExpansionMin j ↔
      Reaches b.unsafeArgsExpansionMin j ∨ ∃ i arg, args[i]? = some arg ∧ index + i ≤ j ∧
        arg.starred = true ∧ arg.isImported = true := by
  induction args generalizing b index with
  | nil => simp [recordPositionals]
  | cons arg args ih =>
    obtain ⟨hfirst, hmin⟩ := reaches_recordPositional b index arg hb j
    rw [recordPositionals, ih _ _ hmin, hfirst, or_assoc]
    refine or_congr_right ?_
    constructor
    · rintro (⟨hindex, h⟩ | ⟨i, a, ha, hi, h⟩)
      · exact ⟨0, arg, rfl, hindex, h⟩
      · exact ⟨i + 1, a, ha, by omega, h⟩
    · rintro ⟨i, a, ha, hi, h⟩
      cases i with
      | zero =>
        cases ha
        exact Or.inl ⟨hi, h⟩
      | succ i => exact Or.inr ⟨i, a, ha, by omega, h⟩

/-- The positional loop leaves the keywords alone. -/
theorem keywords_recordPositionals (args : List PosArg) (b : CallDataBuilder) (index : Nat) :
    (b.recordPositionals index args).unsafeKeywordNames = b.unsafeKeywordNames ∧
      (b.recordPositionals index args).hasUnsafeKwargsExpansion =
        b.hasUnsafeKwargsExpansion := by
  induction args generalizing b index with
  | nil => exact ⟨rfl, rfl⟩
  | cons arg args ih =>
    obtain ⟨hnames, hmapping⟩ := ih (b.recordPositional index arg.starred arg.cls) (index + 1)
    rw [recordPositionals, hnames, hmapping]
    unfold recordPositional
    split
    · dsimp only
      split
      · exact ⟨rfl, rfl⟩
      · split <;> exact ⟨rfl, rfl⟩
    · exact ⟨rfl, rfl⟩
    · exact ⟨rfl, rfl⟩

/-- The keywords after one argument, and what it leaves alone. -/
theorem recordKeyword_spec (b : CallDataBuilder) (arg : KwArg) :
    (b.recordKeyword arg.name arg.cls).unsafeIndices = b.unsafeIndices ∧
      (b.recordKeyword arg.name arg.cls).unsafeArgsExpansionMin = b.unsafeArgsExpansionMin ∧
      (∀ name, name ∈ (b.recordKeyword arg.name arg.cls).unsafeKeywordNames ↔
        name ∈ b.unsafeKeywordNames ∨ (arg.name = some name ∧ arg.isImported = true)) ∧
      ((b.recordKeyword arg.name arg.cls).hasUnsafeKwargsExpansion = true ↔
        b.hasUnsafeKwargsExpansion = true ∨ (arg.name = none ∧ arg.isImported = true)) := by
  unfold KwArg.isImported
  rcases arg with ⟨name, cls⟩
  cases cls with
  | imported =>
    cases name with
    | none =>
      refine ⟨rfl, rfl, fun n => (or_iff_left ?_).symm, ?_⟩
      · rintro ⟨hname, -⟩
        cases hname
      · exact iff_of_true rfl (Or.inr ⟨rfl, rfl⟩)
    | some name =>
      refine ⟨rfl, rfl, fun n => ?_, (or_iff_left ?_).symm⟩
      · refine List.mem_append.trans (or_congr_right ?_)
        rw [List.mem_singleton, Option.some.injEq, eq_comm]
        exact (and_iff_left rfl).symm
      · rintro ⟨hname, -⟩
        cases hname
  | forwardedParam param => cases name <;> simp [recordKeyword]
  | other => simp [recordKeyword]

theorem recordKeywords_spec (keywords : List KwArg) (b : CallDataBuilder) :
    (b.recordKeywords keywords).unsafeIndices = b.unsafeIndices ∧
      (b.recordKeywords keywords).unsafeArgsExpansionMin = b.unsafeArgsExpansionMin ∧
      (∀ name, name ∈ (b.recordKeywords keywords).unsafeKeywordNames ↔
        name ∈ b.unsafeKeywordNames ∨
          ∃ arg ∈ keywords, arg.name = some name ∧ arg.isImported = true) ∧
      ((b.recordKeywords keywords).hasUnsafeKwargsExpansion = true ↔
        b.hasUnsafeKwargsExpansion = true ∨
          ∃ arg ∈ keywords, arg.name = none ∧ arg.isImported = true) := by
  induction keywords generalizing b with
  | nil => simp [recordKeywords]
  | cons arg keywords ih =>
    obtain ⟨hindices, hmin, hnames, hmapping⟩ := recordKeyword_spec b arg
    obtain ⟨hindices', hmin', hnames', hmapping'⟩ := ih (b.recordKeyword arg.name arg.cls)
    have hstep : b.recordKeywords (arg :: keywords) =
        (b.recordKeyword arg.name arg.cls).recordKeywords keywords := rfl
    rw [hstep]
    refine ⟨hindices'.trans hindices, hmin'.trans hmin, fun name => ?_, ?_⟩
    · rw [hnames', hnames, or_assoc, List.exists_mem_cons_iff]
    · rw [hmapping', hmapping, or_assoc, List.exists_mem_cons_iff]

end CallDataBuilder

/-- The record of a call says what it should. -/
theorem recorded_checkCallArgs (args : List PosArg) (keywords : List KwArg) :
    Recorded args keywords (checkCallArgs args keywords).importedArgs := by
  obtain ⟨hnames₀, hmapping₀⟩ :=
    CallDataBuilder.keywords_recordPositionals args {} 0
  obtain ⟨hindices, hmin, hnames, hmapping⟩ :=
    CallDataBuilder.recordKeywords_spec keywords
      (({} : CallDataBuilder).recordPositionals 0 args)
  refine ⟨fun j hj => ?_, fun j => ?_, fun name => ?_, ?_⟩
  · have h := CallDataBuilder.getLsbD_recordPositionals args {} 0 hj
    rw [← hindices] at h
    refine h.trans ?_
    constructor
    · rintro (hzero | ⟨i, arg, harg, hi, h⟩)
      · have hbit : (0#64).getLsbD j = true := hzero
        rw [BitVec.getLsbD_zero] at hbit
        cases hbit
      · exact ⟨arg, by rwa [← hi, Nat.zero_add], h⟩
    · rintro ⟨arg, harg, h⟩
      exact Or.inr ⟨j, arg, harg, Nat.zero_add j, h⟩
  · have h := CallDataBuilder.reaches_recordPositionals args {} 0
      (fun _ hnone => by cases hnone) j
    rw [← hmin] at h
    refine h.trans ?_
    constructor
    · rintro (hnone | ⟨i, arg, harg, hi, h⟩)
      · cases hnone
      · exact ⟨i, by omega, arg, harg, h⟩
    · rintro ⟨i, hi, arg, harg, h⟩
      exact Or.inr ⟨i, arg, harg, by omega, h⟩
  · refine (hnames name).trans (or_iff_right ?_)
    rw [hnames₀]
    exact List.not_mem_nil
  · refine hmapping.trans (or_iff_right ?_)
    rw [hmapping₀]
    exact Bool.false_ne_true

end Lifeguard
