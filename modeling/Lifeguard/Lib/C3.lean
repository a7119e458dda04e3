import Mathlib.Data.List.Nodup
import Mathlib.Data.List.Sublists

/-!
# C3 merges

The merge of the C3 linearization, said without a program: at each turn the first of the
heads that stands in no sequence's tail is taken and removed from the front of every
sequence, until all are empty. Not every family of sequences has a merge.

- `Merged.unique`: there is one merge at most;
- `Merged.sublist`: it keeps the order of every sequence;
- `Merged.mem_iff`, `Merged.nodup`: it lists what the sequences do, each thing once.
-/

namespace Lib

universe u

variable {α : Type u} {sequences : List (List α)} {head : α} {order : List α}

/-- The first head that stands in no sequence's tail: every head before it stands in one. -/
structure FirstGood (sequences : List (List α)) (head : α) : Prop where
  isHead : ∃ before tail after, sequences = before ++ (head :: tail) :: after ∧
    ∀ h t, h :: t ∈ before → ∃ seq ∈ sequences, h ∈ seq.tail
  good : ∀ seq ∈ sequences, head ∉ seq.tail

/-- The first of the good heads is one only. -/
theorem FirstGood.unique {head' : α} (h : FirstGood sequences head)
    (h' : FirstGood sequences head') : head = head' := by
  obtain ⟨before, tail, after, heq, hbefore⟩ := h.isHead
  obtain ⟨before', tail', after', heq', hbefore'⟩ := h'.isHead
  rcases List.append_eq_append_iff.mp (heq.symm.trans heq') with
    ⟨mid, hmid, hmid'⟩ | ⟨mid, hmid, hmid'⟩
  · cases mid with
    | nil => exact (List.cons.inj (List.cons.inj hmid').1).1
    | cons seq mid =>
      -- the first one would stand before the second, and so in a tail
      have hseq := (List.cons.inj hmid').1
      obtain ⟨seq', hseq', htail⟩ := hbefore' head tail (by rw [hmid, hseq]; simp)
      exact absurd htail (h.good seq' hseq')
  · cases mid with
    | nil => exact (List.cons.inj (List.cons.inj hmid').1).1.symm
    | cons seq mid =>
      have hseq := (List.cons.inj hmid').1
      obtain ⟨seq', hseq', htail⟩ := hbefore head' tail' (by rw [hmid, hseq]; simp)
      exact absurd htail (h'.good seq' hseq')

theorem FirstGood.ne_nil (h : FirstGood sequences head) : ¬∀ seq ∈ sequences, seq = [] := by
  obtain ⟨before, tail, after, heq, -⟩ := h.isHead
  intro hnil
  exact absurd (hnil (head :: tail) (by rw [heq]; simp)) (by simp)

theorem FirstGood.mem (h : FirstGood sequences head) : ∃ seq ∈ sequences, head ∈ seq := by
  obtain ⟨before, tail, after, heq, -⟩ := h.isHead
  exact ⟨head :: tail, by rw [heq]; simp, List.mem_cons_self⟩

variable [DecidableEq α]

/-- A sequence without the head, where it begins with it. -/
def dropHead (head : α) (seq : List α) : List α :=
  if seq.head? = some head then seq.tail else seq

@[simp] theorem dropHead_self {tail : List α} : dropHead head (head :: tail) = tail :=
  if_pos rfl

theorem dropHead_of_ne {a : α} {tail : List α} (h : a ≠ head) :
    dropHead head (a :: tail) = a :: tail := by
  refine if_neg ?_
  intro heq
  exact h (Option.some.inj heq)

theorem mem_of_mem_dropHead {seq : List α} {x : α} (h : x ∈ dropHead head seq) : x ∈ seq := by
  unfold dropHead at h
  split at h
  · exact List.mem_of_mem_tail h
  · exact h

theorem mem_dropHead_or {seq : List α} {x : α} (h : x ∈ seq) :
    x = head ∨ x ∈ dropHead head seq := by
  cases seq with
  | nil => cases h
  | cons a tail =>
    by_cases ha : a = head
    · subst ha
      rw [dropHead_self]
      exact List.mem_cons.mp h
    · exact Or.inr (by rwa [dropHead_of_ne ha])

/-- The merge of the sequences. -/
inductive Merged : List (List α) → List α → Prop
  | done {sequences : List (List α)} : (∀ seq ∈ sequences, seq = []) → Merged sequences []
  | take {sequences : List (List α)} {head : α} {rest : List α} : FirstGood sequences head →
      Merged (sequences.map (dropHead head)) rest → Merged sequences (head :: rest)

theorem Merged.unique {order' : List α} (h : Merged sequences order)
    (h' : Merged sequences order') : order = order' := by
  induction h generalizing order' with
  | done hnil =>
    cases h' with
    | done => rfl
    | take hgood => exact absurd hnil hgood.ne_nil
  | take hgood _ ih =>
    cases h' with
    | done hnil => exact absurd hnil hgood.ne_nil
    | take hgood' hrest' =>
      obtain rfl := hgood.unique hgood'
      rw [ih hrest']

/-- The merge keeps the order of each of its sequences. -/
theorem Merged.sublist (h : Merged sequences order) {seq : List α} (hseq : seq ∈ sequences) :
    seq.Sublist order := by
  induction h generalizing seq with
  | done hnil => rw [hnil seq hseq]
  | @take sequences head rest _ _ ih =>
    have hdrop : (dropHead head seq).Sublist rest := ih (List.mem_map.mpr ⟨seq, hseq, rfl⟩)
    cases seq with
    | nil => exact List.nil_sublist _
    | cons a tail =>
      by_cases ha : a = head
      · subst ha
        rw [dropHead_self] at hdrop
        exact hdrop.cons_cons a
      · rw [dropHead_of_ne ha] at hdrop
        exact hdrop.cons head

/-- The merge lists what its sequences do. -/
theorem Merged.mem_iff (h : Merged sequences order) {x : α} :
    x ∈ order ↔ ∃ seq ∈ sequences, x ∈ seq := by
  constructor
  · intro hx
    induction h with
    | done => cases hx
    | take hgood _ ih =>
      rcases List.mem_cons.mp hx with rfl | hrest
      · exact hgood.mem
      · obtain ⟨seq, hseq, hmem⟩ := ih hrest
        obtain ⟨whole, hwhole, rfl⟩ := List.mem_map.mp hseq
        exact ⟨whole, hwhole, mem_of_mem_dropHead hmem⟩
  · rintro ⟨seq, hseq, hx⟩
    exact (h.sublist hseq).subset hx

/-- What is taken is gone from every sequence. -/
theorem FirstGood.notMem_dropHead (h : FirstGood sequences head) {seq : List α}
    (hseq : seq ∈ sequences) : head ∉ dropHead head seq := by
  intro hmem
  refine h.good seq hseq ?_
  cases seq with
  | nil => exact hmem
  | cons a tail =>
    by_cases ha : a = head
    · subst ha
      rwa [dropHead_self] at hmem
    · rw [dropHead_of_ne ha] at hmem
      exact (List.mem_cons.mp hmem).resolve_left (Ne.symm ha)

theorem Merged.nodup (h : Merged sequences order) : order.Nodup := by
  induction h with
  | done => exact List.nodup_nil
  | take hgood hrest ih =>
    refine List.nodup_cons.mpr ⟨?_, ih⟩
    intro hmem
    obtain ⟨seq, hseq, hx⟩ := hrest.mem_iff.mp hmem
    obtain ⟨whole, hwhole, rfl⟩ := List.mem_map.mp hseq
    exact hgood.notMem_dropHead hwhole hx

end Lib
