import Mathlib.Logic.Basic

/-!
# Loops of checks

A loop that runs a check on every item of a list, threads a state through the checks, and
answers whether all of them passed (`checkAll`). A check that does not pass does not end
the loop; one that fails does. The state survives a failure.

- `checkAll_append`: a loop over two lists is one loop after the other;
- `checkAll_inv`, `checkAll_true`: what every check preserves, the loop preserves, and
  what every check that passes preserves, a loop that passes preserves;
- `checkAll_ok`: a loop of checks that never fail never fails;
- `checkAll_rel`: checks that answer alike in related states make loops that do;
- `checkAll_forall`: what a check establishes for its item and the other checks keep holds
  of every item in the end.
-/

namespace Lib

universe u v w

variable {ε : Type u} {σ : Type v} {α : Type w}

/-- Run the check on every item, until one fails. -/
def checkAll (check : α → σ → Except ε Bool × σ) : List α → σ → Except ε Bool × σ
  | [], s => (.ok true, s)
  | x :: xs, s =>
    match check x s with
    | (.error e, s) => (.error e, s)
    | (.ok b, s) =>
      match checkAll check xs s with
      | (.error e, s) => (.error e, s)
      | (.ok b', s) => (.ok (b && b'), s)

variable {check : α → σ → Except ε Bool × σ}

@[simp] theorem checkAll_nil (s : σ) : checkAll check [] s = (.ok true, s) := rfl

theorem checkAll_cons_error {x : α} {xs : List α} {s s' : σ} {e : ε}
    (h : check x s = (.error e, s')) : checkAll check (x :: xs) s = (.error e, s') := by
  rw [checkAll, h]

theorem checkAll_cons_ok {x : α} {xs : List α} {s s' : σ} {b : Bool}
    (h : check x s = (.ok b, s')) :
    checkAll check (x :: xs) s =
      match checkAll check xs s' with
      | (.error e, s) => (.error e, s)
      | (.ok b', s) => (.ok (b && b'), s) := by
  rw [checkAll, h]

/-- A loop over one item is its check. -/
theorem checkAll_singleton (x : α) (s : σ) : checkAll check [x] s = check x s := by
  rcases h : check x s with ⟨e | b, s'⟩
  · rw [checkAll_cons_error h]
  · rw [checkAll_cons_ok h, checkAll_nil]
    simp

/-- A loop over two lists runs over the second where the first has not failed. -/
theorem checkAll_append (xs ys : List α) (s : σ) :
    checkAll check (xs ++ ys) s =
      match checkAll check xs s with
      | (.error e, s) => (.error e, s)
      | (.ok b, s) =>
        match checkAll check ys s with
        | (.error e, s) => (.error e, s)
        | (.ok b', s) => (.ok (b && b'), s) := by
  induction xs generalizing s with
  | nil =>
    rw [List.nil_append, checkAll_nil]
    dsimp only
    rcases hys : checkAll check ys s with ⟨e | b, t⟩
    · rfl
    · simp only [Bool.true_and]
  | cons x xs ih =>
    rw [List.cons_append]
    rcases h : check x s with ⟨e | b, t⟩
    · rw [checkAll_cons_error h, checkAll_cons_error h]
    · rw [checkAll_cons_ok h, checkAll_cons_ok h, ih t]
      rcases hxs : checkAll check xs t with ⟨e | b', u⟩
      · rfl
      · dsimp only
        rcases hys : checkAll check ys u with ⟨e | b'', w⟩
        · rfl
        · simp only [Bool.and_assoc]

/-- A loop that runs an item's check through a map runs over the mapped list. -/
theorem checkAll_map {β : Type w} (f : β → α) (xs : List β) (s : σ) :
    checkAll check (xs.map f) s = checkAll (fun x => check (f x)) xs s := by
  induction xs generalizing s with
  | nil => rfl
  | cons x xs ih =>
    rw [List.map_cons, checkAll, checkAll]
    rcases check (f x) s with ⟨e | b, s'⟩
    · rfl
    · dsimp only
      rw [ih s']

/-- What every check preserves, the loop preserves. -/
theorem checkAll_inv {I : σ → Prop} {xs : List α}
    (step : ∀ x ∈ xs, ∀ s, I s → I (check x s).2) {s : σ} (h : I s) :
    I (checkAll check xs s).2 := by
  induction xs generalizing s with
  | nil => exact h
  | cons x xs ih =>
    have hx := step x List.mem_cons_self s h
    have ih' := fun {s} hs => ih (fun y hy => step y (List.mem_cons_of_mem x hy)) (s := s) hs
    rcases hr : check x s with ⟨e | b, s'⟩
    · rw [checkAll_cons_error hr]
      rw [hr] at hx
      exact hx
    · rw [hr] at hx
      have hrest := ih' hx
      rw [checkAll_cons_ok hr]
      rcases hr' : checkAll check xs s' with ⟨e | b', s''⟩
      · rw [hr'] at hrest
        exact hrest
      · rw [hr'] at hrest
        exact hrest

/-- A loop whose checks do not fail in the states an invariant allows does not fail. -/
theorem checkAll_ok {I : σ → Prop} {xs : List α}
    (step : ∀ x ∈ xs, ∀ s, I s → ∃ b s', check x s = (.ok b, s') ∧ I s') {s : σ} (h : I s) :
    ∃ b s', checkAll check xs s = (.ok b, s') ∧ I s' := by
  induction xs generalizing s with
  | nil => exact ⟨true, s, rfl, h⟩
  | cons x xs ih =>
    obtain ⟨b, s', hr, h'⟩ := step x List.mem_cons_self s h
    obtain ⟨b', s'', hr', h''⟩ := ih (fun y hy => step y (List.mem_cons_of_mem x hy)) h'
    exact ⟨b && b', s'', by rw [checkAll_cons_ok hr, hr'], h''⟩

/-- What every check that passes preserves, a loop that passes preserves. -/
theorem checkAll_true {I : σ → Prop} {xs : List α}
    (step : ∀ x ∈ xs, ∀ s s', I s → check x s = (.ok true, s') → I s') {s s' : σ} (h : I s)
    (hrun : checkAll check xs s = (.ok true, s')) : I s' := by
  induction xs generalizing s with
  | nil =>
    cases hrun
    exact h
  | cons x xs ih =>
    rcases hr : check x s with ⟨e | b, t⟩
    · rw [checkAll_cons_error hr] at hrun
      cases hrun
    · rw [checkAll_cons_ok hr] at hrun
      rcases hr' : checkAll check xs t with ⟨e | b', u⟩
      · rw [hr'] at hrun
        cases hrun
      · rw [hr'] at hrun
        obtain ⟨hb, rfl⟩ := Prod.mk.inj hrun
        obtain ⟨rfl, rfl⟩ := Bool.and_eq_true_iff.mp (Except.ok.inj hb)
        exact ih (fun y hy => step y (List.mem_cons_of_mem x hy))
          (step x List.mem_cons_self s t h hr) hr'

/-- Two loops whose checks answer alike in related states answer alike and end in related
states. -/
theorem checkAll_rel {R : σ → σ → Prop} {xs : List α}
    (step : ∀ x ∈ xs, ∀ s s', R s s' →
      (check x s).1 = (check x s').1 ∧ R (check x s).2 (check x s').2)
    {s s' : σ} (h : R s s') :
    (checkAll check xs s).1 = (checkAll check xs s').1 ∧
      R (checkAll check xs s).2 (checkAll check xs s').2 := by
  induction xs generalizing s s' with
  | nil => exact ⟨rfl, h⟩
  | cons x xs ih =>
    obtain ⟨hans, hrel⟩ := step x List.mem_cons_self s s' h
    have hrest : ∀ t t', R t t' → (checkAll check xs t).1 = (checkAll check xs t').1 ∧
        R (checkAll check xs t).2 (checkAll check xs t').2 := fun _ _ ht =>
      ih (fun y hy => step y (List.mem_cons_of_mem x hy)) ht
    rw [checkAll, checkAll]
    generalize check x s = out at hans hrel ⊢
    generalize check x s' = out' at hans hrel ⊢
    rcases out with ⟨a, t⟩
    rcases out' with ⟨a', t'⟩
    obtain rfl : a = a' := hans
    cases a with
    | error e => exact ⟨rfl, hrel⟩
    | ok b =>
      obtain ⟨hans', hrel'⟩ := hrest t t' hrel
      dsimp only
      generalize checkAll check xs t = out at hans' hrel' ⊢
      generalize checkAll check xs t' = out' at hans' hrel' ⊢
      rcases out with ⟨c, u⟩
      rcases out' with ⟨c', u'⟩
      obtain rfl : c = c' := hans'
      cases c with
      | error e => exact ⟨rfl, hrel'⟩
      | ok b' => exact ⟨rfl, hrel'⟩

/-- What each check establishes for its item, with what it answered, and every check
keeps, holds of every item in the end; the loop answers `true` only if all of them did. -/
theorem checkAll_forall {I : σ → Prop} {Q : α → Bool → σ → Prop} {xs : List α}
    (inv : ∀ x ∈ xs, ∀ s, I s → I (check x s).2)
    (establish : ∀ x ∈ xs, ∀ s b s', I s → check x s = (.ok b, s') → Q x b s')
    (keep : ∀ y ∈ xs, ∀ x ∈ xs, ∀ s b, I s → Q y b s → Q y b (check x s).2)
    {s s' : σ} {b : Bool} (h : I s) (hrun : checkAll check xs s = (.ok b, s')) :
    I s' ∧ ∀ x ∈ xs, ∃ b', Q x b' s' ∧ (b = true → b' = true) := by
  -- the items already checked are carried along as the list `done`
  suffices hgen : ∀ (todo : List α) (done : List α) (bd : Bool) (s : σ),
      (∀ x ∈ done, x ∈ xs) → (∀ x ∈ todo, x ∈ xs) → I s →
      (∀ x ∈ done, ∃ b', Q x b' s ∧ (bd = true → b' = true)) →
      ∀ b s', checkAll check todo s = (.ok b, s') →
        I s' ∧ ∀ x ∈ done ++ todo, ∃ b', Q x b' s' ∧ (bd = true → b = true → b' = true) by
    obtain ⟨h1, h2⟩ := hgen xs [] true s (fun _ hx => nomatch hx) (fun _ hx => hx) h
      (fun _ hx => nomatch hx) b s' hrun
    refine ⟨h1, fun x hx => ?_⟩
    obtain ⟨b', hq, hb⟩ := h2 x hx
    exact ⟨b', hq, hb rfl⟩
  intro todo
  induction todo with
  | nil =>
    intro done bd s _ _ hI hdone b s' hrun
    cases hrun
    refine ⟨hI, fun x hx => ?_⟩
    rw [List.append_nil] at hx
    obtain ⟨b', hq, hb⟩ := hdone x hx
    exact ⟨b', hq, fun hbd _ => hb hbd⟩
  | cons x todo ih =>
    intro done bd s hsub htodo hI hdone b s' hrun
    have hx := htodo x List.mem_cons_self
    rcases hr : check x s with ⟨e | bx, s₁⟩
    · rw [checkAll_cons_error hr] at hrun
      cases hrun
    · rw [checkAll_cons_ok hr] at hrun
      rcases hr' : checkAll check todo s₁ with ⟨e | bt, s₂⟩
      · rw [hr'] at hrun
        cases hrun
      · rw [hr'] at hrun
        cases hrun
        have hI' : I s₁ := by
          have := inv x hx s hI
          rwa [hr] at this
        have hsub' : ∀ y ∈ done ++ [x], y ∈ xs := by
          intro y hy
          rcases List.mem_append.mp hy with hy | hy
          · exact hsub y hy
          · rw [List.mem_singleton.mp hy]
            exact hx
        have hdone' : ∀ y ∈ done ++ [x], ∃ b', Q y b' s₁ ∧ ((bd && bx) = true → b' = true) := by
          intro y hy
          rcases List.mem_append.mp hy with hy | hy
          · obtain ⟨b', hq, hb⟩ := hdone y hy
            have hq' := keep y (hsub y hy) x hx s b' hI hq
            rw [hr] at hq'
            refine ⟨b', hq', fun hand => ?_⟩
            exact hb (Bool.and_eq_true_iff.mp hand).1
          · rw [List.mem_singleton.mp hy]
            refine ⟨bx, establish x hx s bx s₁ hI hr, fun hand => ?_⟩
            exact (Bool.and_eq_true_iff.mp hand).2
        obtain ⟨h1, h2⟩ := ih (done ++ [x]) (bd && bx) s₁ hsub'
          (fun y hy => htodo y (List.mem_cons_of_mem x hy)) hI' hdone' bt s' hr'
        refine ⟨h1, fun y hy => ?_⟩
        obtain ⟨b', hq, hb⟩ := h2 y (by simpa using hy)
        refine ⟨b', hq, fun hbd hb' => ?_⟩
        obtain ⟨hbx, hbt⟩ := Bool.and_eq_true_iff.mp hb'
        exact hb (Bool.and_eq_true_iff.mpr ⟨hbd, hbx⟩) hbt

end Lib
