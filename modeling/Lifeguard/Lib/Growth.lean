import Lifeguard.Lib.Table
import Mathlib.Data.Finset.Union

/-!
# Tables of growing sets

A map from keys to sets that is only written by adding elements to the set of a key, a key
without a set first getting an empty one. What such a table holds after any number of
writes depends on what was written and not on the order: `mem_setAt_extendAll` for the
sets and `mem_keys_extendAll` for the keys. `get?_congr` compares two tables by both, and
`Full.get?_congr` two without empty sets by the sets alone.
-/

namespace Lib

namespace Table

universe u v

variable {κ : Type u} {α : Type v} [DecidableEq κ] [DecidableEq α]

/-- The set of a key, empty when there is none. -/
def setAt (t : Table κ (Finset α)) (k : κ) : Finset α := (t.get? k).getD ∅

/-- Add elements to the set of a key. -/
def extend (t : Table κ (Finset α)) (k : κ) (s : Finset α) : Table κ (Finset α) :=
  t.upsert k (· ∪ s) s

/-- A sequence of additions. -/
def extendAll (t : Table κ (Finset α)) (writes : List (κ × Finset α)) : Table κ (Finset α) :=
  writes.foldl (fun t w => t.extend w.1 w.2) t

variable {t t' : Table κ (Finset α)} {k : κ} {x : α} {writes : List (κ × Finset α)}

omit [DecidableEq α] in
theorem setAt_of_get? {s : Finset α} (h : t.get? k = some s) : t.setAt k = s := by
  rw [setAt, h]
  rfl

theorem mem_setAt_extend {k' : κ} {s : Finset α} :
    x ∈ (t.extend k' s).setAt k ↔ x ∈ t.setAt k ∨ (k' = k ∧ x ∈ s) := by
  rw [setAt, extend, get?_upsert]
  by_cases hk : k = k'
  · subst hk
    rw [if_pos rfl, setAt]
    cases t.get? k with
    | none => simp
    | some old => simp
  · rw [if_neg hk, setAt]
    simp [Ne.symm hk]

theorem mem_keys_extend {k' : κ} {s : Finset α} :
    k ∈ (t.extend k' s).keys ↔ k ∈ t.keys ∨ k' = k := by
  rw [mem_keys, extend, get?_upsert]
  by_cases hk : k = k'
  · subst hk
    simp
  · rw [if_neg hk, ← mem_keys, or_iff_left (Ne.symm hk)]

/-- The set of a key after the writes: what it was, and what was written to the key. -/
theorem mem_setAt_extendAll :
    x ∈ (t.extendAll writes).setAt k ↔ x ∈ t.setAt k ∨ ∃ w ∈ writes, w.1 = k ∧ x ∈ w.2 := by
  induction writes generalizing t with
  | nil => simp [extendAll]
  | cons w rest ih =>
    show x ∈ ((t.extend w.1 w.2).extendAll rest).setAt k ↔ _
    rw [ih, mem_setAt_extend, or_assoc, List.exists_mem_cons_iff]

/-- The keys after the writes: those there were, and those written to. -/
theorem mem_keys_extendAll :
    k ∈ (t.extendAll writes).keys ↔ k ∈ t.keys ∨ ∃ w ∈ writes, w.1 = k := by
  induction writes generalizing t with
  | nil => simp [extendAll]
  | cons w rest ih =>
    show k ∈ ((t.extend w.1 w.2).extendAll rest).keys ↔ _
    rw [ih, mem_keys_extend, or_assoc, List.exists_mem_cons_iff]

omit [DecidableEq α] in
/-- Tables with the same keys and the same sets answer the same. -/
theorem get?_congr (hkeys : k ∈ t.keys ↔ k ∈ t'.keys)
    (hsets : ∀ x, x ∈ t.setAt k ↔ x ∈ t'.setAt k) :
    t.get? k = t'.get? k := by
  have hset : t.setAt k = t'.setAt k := Finset.ext hsets
  rw [mem_keys, mem_keys] at hkeys
  rw [setAt, setAt] at hset
  cases h : t.get? k with
  | none =>
    cases h' : t'.get? k with
    | none => rfl
    | some s' =>
      rw [h, h'] at hkeys
      exact absurd (hkeys.mpr rfl) (by simp)
  | some s =>
    cases h' : t'.get? k with
    | none =>
      rw [h, h'] at hkeys
      exact absurd (hkeys.mp rfl) (by simp)
    | some s' =>
      rw [h, h'] at hset
      exact congrArg some hset

/-- Every key has something in its set. -/
def Full (t : Table κ (Finset α)) : Prop := ∀ k ∈ t.keys, (t.setAt k).Nonempty

omit [DecidableEq α] in
theorem full_empty : (empty : Table κ (Finset α)).Full := by
  intro k hk
  exact absurd (mem_keys.mp hk) (by simp)

theorem Full.extendAll (h : t.Full) (hwrites : ∀ w ∈ writes, w.2.Nonempty) :
    (t.extendAll writes).Full := by
  intro k hk
  rcases mem_keys_extendAll.mp hk with hold | ⟨w, hw, rfl⟩
  · obtain ⟨x, hx⟩ := h k hold
    exact ⟨x, mem_setAt_extendAll.mpr (Or.inl hx)⟩
  · obtain ⟨x, hx⟩ := hwrites w hw
    exact ⟨x, mem_setAt_extendAll.mpr (Or.inr ⟨w, hw, rfl, hx⟩)⟩

omit [DecidableEq α] in
theorem Full.mem_keys_iff (h : t.Full) : k ∈ t.keys ↔ ∃ x, x ∈ t.setAt k := by
  constructor
  · exact h k
  · rintro ⟨x, hx⟩
    rw [mem_keys]
    cases hget : t.get? k with
    | none =>
      rw [setAt, hget] at hx
      exact absurd hx (Finset.notMem_empty x)
    | some s => rfl

omit [DecidableEq α] in
/-- Full tables are compared by their sets alone. -/
theorem Full.get?_congr (h : t.Full) (h' : t'.Full)
    (hsets : ∀ x, x ∈ t.setAt k ↔ x ∈ t'.setAt k) : t.get? k = t'.get? k := by
  refine Table.get?_congr ?_ hsets
  rw [h.mem_keys_iff, h'.mem_keys_iff]
  exact exists_congr hsets

end Table

end Lib
