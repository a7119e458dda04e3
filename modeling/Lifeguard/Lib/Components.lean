import Mathlib.Logic.Relation
import Mathlib.Data.List.Nodup

/-!
# Strongly connected components

What an enumeration of the strongly connected components of a directed graph is, apart
from any algorithm that computes one: lists of nodes, each holding with a node exactly
those that reach it and are reached from it.

- `IsSccs`: the enumeration, in any order;
- `IsSccs.exists_mem`, `IsSccs.one_lt_length`: which nodes share a list;
- `IsSccs.of_rank`: in a graph without cycles every node is a component of its own;
- `IsSccs.exists_perm`: two enumerations of one graph have the same lists, up to order.
-/

namespace Lib

open Relation

universe u

variable {α : Type u}

/-- Each of the two nodes is reached from the other. -/
def Mutual (edge : α → α → Prop) (a b : α) : Prop :=
  ReflTransGen edge a b ∧ ReflTransGen edge b a

theorem Mutual.refl (edge : α → α → Prop) (a : α) : Mutual edge a a := ⟨.refl, .refl⟩

theorem Mutual.congr {edge edge' : α → α → Prop} {a b : α} (h : ∀ a b, edge a b ↔ edge' a b) :
    Mutual edge a b ↔ Mutual edge' a b := by
  rw [funext fun a => funext fun b => propext (h a b)]

/-- The lists are the strongly connected components of the graph. -/
structure IsSccs (nodes : List α) (edge : α → α → Prop) (sccs : List (List α)) : Prop where
  covers : ∀ a ∈ nodes, ∃ c ∈ sccs, a ∈ c
  nodup : ∀ c ∈ sccs, c.Nodup
  within : ∀ c ∈ sccs, ∀ a ∈ c, a ∈ nodes
  mutual_iff : ∀ c ∈ sccs, ∀ a ∈ c, ∀ b, b ∈ c ↔ Mutual edge a b

namespace IsSccs

variable {nodes nodes' : List α} {edge edge' : α → α → Prop} {sccs sccs' : List (List α)}

/-- A node's component holds what the node and it reach. -/
theorem exists_mem (h : IsSccs nodes edge sccs) {a : α} (ha : a ∈ nodes) :
    ∃ c ∈ sccs, ∀ b, b ∈ c ↔ Mutual edge a b := by
  obtain ⟨c, hc, hac⟩ := h.covers a ha
  exact ⟨c, hc, h.mutual_iff c hc a hac⟩

/-- A component with two nodes in it has more than one. -/
theorem one_lt_length {c : List α} {a b : α} (ha : a ∈ c) (hb : b ∈ c) (hne : a ≠ b) :
    1 < c.length := by
  cases c with
  | nil => exact absurd ha List.not_mem_nil
  | cons x rest =>
    cases rest with
    | nil =>
      have hax := List.mem_singleton.mp ha
      have hbx := List.mem_singleton.mp hb
      exact absurd (hax.trans hbx.symm) hne
    | cons y rest => simp

/-- Enumerations of one graph have the same components, each in some order. -/
theorem exists_perm (h : IsSccs nodes edge sccs) (h' : IsSccs nodes' edge' sccs')
    (hnodes : ∀ a ∈ nodes, a ∈ nodes') (hedge : ∀ a b, edge a b ↔ edge' a b)
    {c : List α} (hc : c ∈ sccs) (hne : c ≠ []) : ∃ c' ∈ sccs', c.Perm c' := by
  obtain ⟨a, ha⟩ := List.exists_mem_of_ne_nil c hne
  obtain ⟨c', hc', hmem⟩ := h'.exists_mem (hnodes a (h.within c hc a ha))
  refine ⟨c', hc', (List.perm_ext_iff_of_nodup (h.nodup c hc) (h'.nodup c' hc')).mpr fun b => ?_⟩
  rw [h.mutual_iff c hc a ha b, hmem b, Mutual.congr hedge]

/-- Along edges that go down in rank, only a node itself is reached and reaches back. -/
theorem of_rank (rank : α → Nat) (h : ∀ a b, edge a b → rank b < rank a) :
    IsSccs nodes edge (nodes.map fun a => [a]) := by
  have hdown : ∀ {a b}, ReflTransGen edge a b → a = b ∨ rank b < rank a := by
    intro a b hreach
    induction hreach with
    | refl => exact Or.inl rfl
    | tail _ hstep ih =>
      have hlast := h _ _ hstep
      rcases ih with rfl | hlt
      · exact Or.inr hlast
      · exact Or.inr (Nat.lt_trans hlast hlt)
  have hmem : ∀ {c}, c ∈ nodes.map (fun a => [a]) → ∃ a ∈ nodes, c = [a] := by
    intro c hc
    obtain ⟨a, ha, rfl⟩ := List.mem_map.mp hc
    exact ⟨a, ha, rfl⟩
  refine ⟨?_, ?_, ?_, ?_⟩
  · intro a ha
    exact ⟨[a], List.mem_map.mpr ⟨a, ha, rfl⟩, List.mem_singleton_self a⟩
  · intro c hc
    obtain ⟨a, _, rfl⟩ := hmem hc
    exact List.nodup_singleton a
  · intro c hc b hb
    obtain ⟨a, ha, rfl⟩ := hmem hc
    exact List.mem_singleton.mp hb ▸ ha
  · intro c hc b hb d
    obtain ⟨a, _, rfl⟩ := hmem hc
    rw [List.mem_singleton.mp hb, List.mem_singleton]
    constructor
    · rintro rfl
      exact Mutual.refl edge d
    · rintro ⟨hto, hback⟩
      rcases hdown hto with heq | hlt
      · exact heq.symm
      · rcases hdown hback with heq | hlt'
        · exact heq
        · omega

end IsSccs

end Lib
