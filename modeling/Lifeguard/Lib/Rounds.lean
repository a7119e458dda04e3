import Mathlib.Order.FixedPoints
import Mathlib.Data.Set.Lattice
import Mathlib.Order.CompletePartialOrder

/-!
# Runs of synchronous rounds

A loop that reads a frozen state, commits everything the state allows at once, and
stops when there is nothing to commit (`runRounds`). The library gives such a loop
its rules:

- `runRounds_inv`: what every round preserves, the run preserves;
- `runRounds_stable`: a measure that every round decreases bounds the fuel a run
  needs to come to rest;
- `runRounds_rel`: two loops whose rounds stay in step end in step;
- `runRounds_lfp`: when a round stays within a monotone operator's image of the set
  a state stands for, and a state at rest is closed under the operator, a run at rest
  stands for the operator's least fixed point;
- `flagStep_foldl`, `foldl_rest`: a pass over a list whose steps raise a flag when they
  change the state.
-/

namespace Lib

universe u v w

variable {σ : Type u} {τ : Type v} {α : Type w}

/-- Repeat `round` until it answers `none`, at most `fuel` times. -/
def runRounds (round : σ → Option σ) : Nat → σ → σ
  | 0, s => s
  | fuel + 1, s =>
    match round s with
    | none => s
    | some s' => runRounds round fuel s'

theorem runRounds_zero (round : σ → Option σ) (s : σ) : runRounds round 0 s = s := rfl

theorem runRounds_of_none {round : σ → Option σ} {s : σ} (h : round s = none)
    (fuel : Nat) : runRounds round fuel s = s := by
  cases fuel with
  | zero => rfl
  | succ fuel => rw [runRounds, h]

theorem runRounds_of_some {round : σ → Option σ} {s s' : σ} (h : round s = some s')
    (fuel : Nat) : runRounds round (fuel + 1) s = runRounds round fuel s' := by
  rw [runRounds, h]

/-- What every round preserves, the run preserves. -/
theorem runRounds_inv {round : σ → Option σ} {P : σ → Prop}
    (step : ∀ s s', P s → round s = some s' → P s') (fuel : Nat) {s : σ} (h : P s) :
    P (runRounds round fuel s) := by
  induction fuel generalizing s with
  | zero => exact h
  | succ fuel ih =>
    cases hr : round s with
    | none =>
      rw [runRounds_of_none hr]
      exact h
    | some s' =>
      rw [runRounds_of_some hr]
      exact ih (step s s' h hr)

/-- A run with as much fuel as the measure of its first state comes to rest, where every
round decreases the measure of the states an invariant `P` allows. -/
theorem runRounds_stable_of_inv {round : σ → Option σ} {P : σ → Prop} (μ : σ → Nat)
    (step : ∀ s s', P s → round s = some s' → P s' ∧ μ s' < μ s) {fuel : Nat} {s : σ}
    (h : P s) (hfuel : μ s ≤ fuel) : round (runRounds round fuel s) = none := by
  induction fuel generalizing s with
  | zero =>
    cases hr : round s with
    | none => rw [runRounds_zero, hr]
    | some s' =>
      have := (step s s' h hr).2
      omega
  | succ fuel ih =>
    cases hr : round s with
    | none => rw [runRounds_of_none hr, hr]
    | some s' =>
      rw [runRounds_of_some hr]
      obtain ⟨h', hlt⟩ := step s s' h hr
      exact ih h' (by omega)

/-- A run with as much fuel as the measure of its first state comes to rest. -/
theorem runRounds_stable {round : σ → Option σ} (μ : σ → Nat)
    (hμ : ∀ s s', round s = some s' → μ s' < μ s) {fuel : Nat} {s : σ}
    (hfuel : μ s ≤ fuel) : round (runRounds round fuel s) = none :=
  runRounds_stable_of_inv (P := fun _ => True) μ
    (fun s s' _ hr => ⟨trivial, hμ s s' hr⟩) trivial hfuel

/-- Two loops that come to rest together and stay in step round by round end in
step. -/
theorem runRounds_rel {round₁ : σ → Option σ} {round₂ : τ → Option τ}
    {R : σ → τ → Prop}
    (hnone : ∀ s t, R s t → (round₁ s = none ↔ round₂ t = none))
    (hsome : ∀ s t s' t', R s t → round₁ s = some s' → round₂ t = some t' → R s' t')
    (fuel : Nat) {s : σ} {t : τ} (h : R s t) :
    R (runRounds round₁ fuel s) (runRounds round₂ fuel t) := by
  induction fuel generalizing s t with
  | zero => exact h
  | succ fuel ih =>
    cases hr : round₁ s with
    | none =>
      rw [runRounds_of_none hr, runRounds_of_none ((hnone s t h).mp hr)]
      exact h
    | some s' =>
      cases ht : round₂ t with
      | none =>
        rw [(hnone s t h).mpr ht] at hr
        cases hr
      | some t' =>
        rw [runRounds_of_some hr, runRounds_of_some ht]
        exact ih (hsome s t s' t' h hr ht)

/-! ## The least fixed point -/

variable (f : Set α →o Set α) {round : σ → Option σ} {V : σ → Set α} {P : σ → Prop}

/-- A run whose rounds add nothing `f` does not yield from the set `V` of their state
stays below the least fixed point of `f`. The invariant `P` carries what the side
condition needs to know of a state. -/
theorem runRounds_subset_lfp (hinv : ∀ s s', P s → round s = some s' → P s')
    (hstep : ∀ s s', P s → round s = some s' → V s' ⊆ f (V s)) {s : σ} (hP : P s)
    (hbelow : V s ⊆ f.lfp) (fuel : Nat) :
    P (runRounds round fuel s) ∧ V (runRounds round fuel s) ⊆ f.lfp := by
  refine runRounds_inv (P := fun t => P t ∧ V t ⊆ f.lfp) ?_ fuel ⟨hP, hbelow⟩
  rintro t t' ⟨ht, hle⟩ hr
  refine ⟨hinv t t' ht hr, ?_⟩
  calc V t' ⊆ f (V t) := hstep t t' ht hr
    _ ⊆ f f.lfp := f.monotone hle
    _ = f.lfp := f.map_lfp

/-- When, besides, a state at rest is closed under `f`, the run ends at the least fixed
point. -/
theorem runRounds_lfp (hinv : ∀ s s', P s → round s = some s' → P s')
    (hstep : ∀ s s', P s → round s = some s' → V s' ⊆ f (V s))
    (hrest : ∀ s, P s → round s = none → f (V s) ⊆ V s) {s : σ} (hP : P s)
    (hbelow : V s ⊆ f.lfp) {fuel : Nat}
    (hend : round (runRounds round fuel s) = none) :
    V (runRounds round fuel s) = f.lfp := by
  obtain ⟨hPend, hle⟩ := runRounds_subset_lfp f hinv hstep hP hbelow fuel
  exact Set.Subset.antisymm hle (f.lfp_le (hrest _ hPend hend))

/-! ## A pass with a flag -/

/-- A step from one state to another changes nothing, or raises the flag and decreases the
measure; it keeps the invariant. -/
structure FlagStep (P : σ → Prop) (μ : σ → Nat) (acc acc' : Bool × σ) : Prop where
  inv : P acc'.2
  change : acc' = acc ∨ acc'.1 = true ∧ μ acc'.2 < μ acc.2

section FlagStep

variable {β : Type v} {μ : σ → Nat} {f' : Bool × σ → β → Bool × σ} {l : List β}

theorem FlagStep.trans {acc acc' acc'' : Bool × σ} (h : FlagStep P μ acc acc')
    (h' : FlagStep P μ acc' acc'') : FlagStep P μ acc acc'' := by
  refine ⟨h'.inv, ?_⟩
  rcases h'.change with rfl | ⟨hflag, hlt⟩
  · exact h.change
  · refine Or.inr ⟨hflag, ?_⟩
    rcases h.change with rfl | ⟨-, hlt'⟩
    · exact hlt
    · exact hlt.trans hlt'

theorem flagStep_foldl (hstep : ∀ acc, P acc.2 → ∀ b ∈ l, FlagStep P μ acc (f' acc b))
    {acc : Bool × σ} (h : P acc.2) : FlagStep P μ acc (l.foldl f' acc) := by
  induction l generalizing acc with
  | nil => exact ⟨h, Or.inl rfl⟩
  | cons b l ih =>
    have hhead := hstep acc h b List.mem_cons_self
    exact hhead.trans (ih (fun acc h b hb => hstep acc h b (List.mem_cons_of_mem _ hb)) hhead.inv)

/-- A pass that leaves its flag down changed nothing, at any of its steps. -/
theorem foldl_rest (hstep : ∀ acc, P acc.2 → ∀ b ∈ l, FlagStep P μ acc (f' acc b)) {s : σ}
    (h : P s) (hrest : (l.foldl f' (false, s)).1 = false) :
    l.foldl f' (false, s) = (false, s) ∧ ∀ b ∈ l, f' (false, s) b = (false, s) := by
  induction l with
  | nil => exact ⟨rfl, fun _ hb => absurd hb List.not_mem_nil⟩
  | cons b l ih =>
    have htail : ∀ acc, P acc.2 → ∀ b ∈ l, FlagStep P μ acc (f' acc b) :=
      fun acc h b hb => hstep acc h b (List.mem_cons_of_mem _ hb)
    have hhead := hstep (false, s) h b List.mem_cons_self
    rw [List.foldl_cons] at hrest ⊢
    rcases hhead.change with heq | ⟨hflag, -⟩
    · rw [heq] at hrest ⊢
      obtain ⟨hfold, hall⟩ := ih htail hrest
      exact ⟨hfold, List.forall_mem_cons.mpr ⟨heq, hall⟩⟩
    · -- a flag that is up stays up
      rcases (flagStep_foldl htail hhead.inv).change with heq | ⟨hflag', -⟩
      · rw [heq, hflag] at hrest
        cases hrest
      · rw [hflag'] at hrest
        cases hrest

end FlagStep

end Lib
