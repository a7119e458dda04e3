import Lifeguard.PolicyWrites

/-!
# The entry guards of a cycle

A cycle may only initialize correctly when it is entered through a certain member, and a
deferred import can move which one that is. Once outsiders enter a cycle through two
members or more, each passing outsider is guarded by the entries it reaches.

- `Outsider`, `IsEntry`, `Reaches`, `Contested`: the rule, in terms of the packages and
  the imports;
- `mem_cycleEntries`: the loop over members and importers notes for each outsider exactly
  the entries it reaches;
- `entry_guards_exact`: what the pass does to the sets, over all cycles and in any order.
-/

namespace Lifeguard

open Lib ImportGraph

/-- Neither a member of the cycle nor below one: a module below a member only runs after
it. -/
def Outsider (cycle : List ModuleName) (m : ModuleName) : Prop :=
  m ∉ cycle ∧ ∀ b ∈ cycle, isAncestorOf b m = false

/-- The member that runs first when the given one is imported: of the members above it the
one above the others, or itself. -/
def IsEntry (cycle : List ModuleName) (member e : ModuleName) : Prop :=
  (e ∈ cycle ∧ isAncestorOf e member = true ∧
      ∀ b ∈ cycle, isAncestorOf b member = true → b = e ∨ isAncestorOf e b = true) ∨
    (e = member ∧ ∀ b ∈ cycle, isAncestorOf b member = false)

/-- Importing the module enters the cycle at `e`. -/
def Reaches (p : ResolvedProgram) (cycle : List ModuleName) (m e : ModuleName) : Prop :=
  ∃ member ∈ cycle, p.Runs m member ∧ IsEntry cycle member e

/-- Outsiders enter the cycle at two members. -/
def Contested (p : ResolvedProgram) (cycle : List ModuleName) : Prop :=
  ∃ i a j b, (Outsider cycle i ∧ Reaches p cycle i a) ∧
    (Outsider cycle j ∧ Reaches p cycle j b) ∧ a ≠ b

variable {p : ResolvedProgram} {cycle : List ModuleName} {m x : ModuleName}

theorem isOutsider_iff : isOutsider cycle m = true ↔ Outsider cycle m := by
  rw [isOutsider, Outsider, Bool.and_eq_true, decide_eq_true_iff, Option.isNone_iff_eq_none,
    outermostMemberAncestor_eq_none]

theorem entryOf_eq {member e : ModuleName} :
    entryOf cycle member = e ↔ IsEntry cycle member e := by
  rw [entryOf, IsEntry]
  cases h : outermostMemberAncestor member cycle with
  | none =>
    have hnone := outermostMemberAncestor_eq_none.mp h
    show member = e ↔ _
    constructor
    · intro heq
      exact Or.inr ⟨heq.symm, hnone⟩
    · rintro (⟨hmem, habove, _⟩ | ⟨heq, _⟩)
      · exact absurd (habove.symm.trans (hnone e hmem)) (by simp)
      · exact heq.symm
  | some a =>
    have hsome := outermostMemberAncestor_eq_some.mp h
    show a = e ↔ _
    constructor
    · intro heq
      exact Or.inl (heq ▸ hsome)
    · rintro (hentry | ⟨_, hnone⟩)
      · exact Option.some.inj (h.symm.trans (outermostMemberAncestor_eq_some.mpr hentry))
      · exact absurd (hsome.2.1.symm.trans (hnone a hsome.1)) (by simp)

theorem mem_importersOf {member : ModuleName} : m ∈ importersOf p member ↔ p.Runs m member := by
  rw [importersOf, List.mem_append, mem_getImporters, mem_keysHolding,
    mem_get?_implicitParentImports, ResolvedProgram.Runs]

/-! ## The loop over members and importers -/

/-- What holds of the entries noted: they are those of outsiders, each of which has one. -/
def OutsidersOnly (cycle : List ModuleName) (entries : LazyEligible) : Prop :=
  ∀ k ∈ entries.keys, isOutsider cycle k = true ∧ (entries.setAt k).Nonempty

theorem recordEntry_spec {e i : ModuleName} {entries : LazyEligible}
    (hinv : OutsidersOnly cycle entries) :
    OutsidersOnly cycle (recordEntry cycle e entries i) ∧
      (x ∈ (recordEntry cycle e entries i).setAt m ↔
        x ∈ entries.setAt m ∨ (isOutsider cycle m = true ∧ m = i ∧ e = x)) := by
  have hinsert : ∀ s : Finset ModuleName, s.Nonempty → isOutsider cycle i = true →
      OutsidersOnly cycle (entries.insert i s) := by
    intro s hs hi k hk
    rw [Table.mem_keys, Table.get?_insert] at hk
    rw [Table.setAt, Table.get?_insert]
    by_cases hki : k = i
    · rw [if_pos hki]
      exact ⟨hki ▸ hi, hs⟩
    · rw [if_neg hki] at hk ⊢
      exact hinv k (Table.mem_keys.mpr hk)
  have hset : ∀ s : Finset ModuleName, x ∈ (entries.insert i s).setAt m ↔
      if m = i then x ∈ s else x ∈ entries.setAt m := by
    intro s
    rw [Table.setAt, Table.get?_insert]
    split
    · rfl
    · rfl
  rw [recordEntry]
  cases hget : entries.get? i with
  | some seen =>
    -- an importer seen before is an outsider
    have hi := (hinv i (Table.mem_keys.mpr (by rw [hget]; rfl))).1
    refine ⟨hinsert _ (Finset.insert_nonempty e seen) hi, ?_⟩
    show x ∈ (entries.insert i (insert e seen)).setAt m ↔ _
    rw [hset]
    by_cases hm : m = i
    · subst hm
      rw [if_pos rfl, Table.setAt_of_get? hget, Finset.mem_insert, or_comm]
      simp [hi, eq_comm]
    · simp [hm]
  | none =>
    show OutsidersOnly cycle (if isOutsider cycle i then _ else _) ∧
      (x ∈ (if isOutsider cycle i = true then entries.insert i {e} else entries).setAt m ↔ _)
    by_cases hi : isOutsider cycle i = true
    · rw [if_pos hi, hset]
      refine ⟨hinsert _ (Finset.singleton_nonempty e) hi, ?_⟩
      by_cases hm : m = i
      · subst hm
        simp [Table.setAt, hget, hi, eq_comm]
      · simp [hm]
    · rw [if_neg hi]
      refine ⟨hinv, ?_⟩
      constructor
      · exact Or.inl
      · rintro (hold | ⟨hm, rfl, _⟩)
        · exact hold
        · exact absurd hm hi

theorem recordMember_spec {e : ModuleName} (importers : List ModuleName) {entries : LazyEligible}
    (hinv : OutsidersOnly cycle entries) :
    OutsidersOnly cycle (importers.foldl (recordEntry cycle e) entries) ∧
      (x ∈ (importers.foldl (recordEntry cycle e) entries).setAt m ↔
        x ∈ entries.setAt m ∨ (isOutsider cycle m = true ∧ m ∈ importers ∧ e = x)) := by
  induction importers generalizing entries with
  | nil => exact ⟨hinv, by simp⟩
  | cons i rest ih =>
    obtain ⟨hinv', hstep⟩ := recordEntry_spec (x := x) (m := m) (e := e) (i := i) hinv
    obtain ⟨hinv'', hrest⟩ := ih hinv'
    refine ⟨hinv'', ?_⟩
    rw [List.foldl_cons, hrest, hstep, List.mem_cons, or_assoc, ← and_or_left, ← or_and_right]

theorem cycleEntries_spec {members : List ModuleName} {entries : LazyEligible}
    (hinv : OutsidersOnly cycle entries) :
    OutsidersOnly cycle (members.foldl (recordMember p cycle) entries) ∧
      (x ∈ (members.foldl (recordMember p cycle) entries).setAt m ↔
        x ∈ entries.setAt m ∨
          (isOutsider cycle m = true ∧
            ∃ b ∈ members, m ∈ importersOf p b ∧ entryOf cycle b = x)) := by
  induction members generalizing entries with
  | nil => exact ⟨hinv, by simp⟩
  | cons b rest ih =>
    obtain ⟨hinv', hstep⟩ := recordMember_spec (x := x) (m := m) (e := entryOf cycle b)
      (importersOf p b) hinv
    obtain ⟨hinv'', hrest⟩ := ih hinv'
    refine ⟨hinv'', ?_⟩
    show x ∈ (rest.foldl _ (recordMember p cycle entries b)).setAt m ↔ _
    rw [recordMember, hrest, hstep, or_assoc, ← and_or_left, List.exists_mem_cons_iff]

theorem outsidersOnly_empty : OutsidersOnly cycle Table.empty := fun _ hk =>
  absurd hk List.not_mem_nil

/-- The entries noted for a module are those it reaches, when it is an outsider. -/
theorem mem_cycleEntries :
    x ∈ (cycleEntries p cycle).setAt m ↔ Outsider cycle m ∧ Reaches p cycle m x := by
  rw [cycleEntries, (cycleEntries_spec outsidersOnly_empty).2, isOutsider_iff, Reaches]
  simp only [mem_importersOf, entryOf_eq]
  refine or_iff_right ?_
  simp [Table.setAt]

/-! ## The writes -/

theorem mem_foldr_union {sets : List (Finset ModuleName)} :
    x ∈ sets.foldr (· ∪ ·) ∅ ↔ ∃ s ∈ sets, x ∈ s := by
  induction sets with
  | nil => simp
  | cons s rest ih => rw [List.foldr_cons, Finset.mem_union, ih, List.exists_mem_cons_iff]

theorem mem_enteredMembers :
    x ∈ enteredMembers (cycleEntries p cycle) ↔
      ∃ m, Outsider cycle m ∧ Reaches p cycle m x := by
  rw [enteredMembers, mem_foldr_union]
  simp only [← mem_cycleEntries, List.mem_map]
  constructor
  · rintro ⟨s, ⟨⟨m, s'⟩, hentry, rfl⟩, hx⟩
    exact ⟨m, (Table.setAt_of_get? (Table.mem_entries.mp hentry)).symm ▸ hx⟩
  · rintro ⟨m, hx⟩
    cases hget : (cycleEntries p cycle).get? m with
    | none => exact absurd hx (by simp [Table.setAt, hget])
    | some s =>
      rw [Table.setAt_of_get? hget] at hx
      exact ⟨s, ⟨(m, s), Table.mem_entries.mpr hget, rfl⟩, hx⟩

theorem contested_iff :
    Contested p cycle ↔ ¬∀ a ∈ enteredMembers (cycleEntries p cycle),
      ∀ b ∈ enteredMembers (cycleEntries p cycle), a = b := by
  simp only [mem_enteredMembers, not_forall]
  constructor
  · rintro ⟨i, a, j, b, hi, hj, hne⟩
    exact ⟨a, ⟨i, hi⟩, b, ⟨j, hj⟩, hne⟩
  · rintro ⟨a, ⟨i, hi⟩, b, ⟨j, hj⟩, hne⟩
    exact ⟨i, a, j, b, hi, hj, hne⟩

theorem entryWrites_of_contested (h : Contested p cycle) :
    entryWrites p cycle =
      (cycleEntries p cycle).entries.filter fun entry => decide (entry.1 ∈ p.passing) :=
  if_neg (contested_iff.mp h)

theorem entryWrites_of_not_contested (h : ¬Contested p cycle) : entryWrites p cycle = [] :=
  if_pos (not_not.mp (mt contested_iff.mpr h))

/-- What a cycle adds to the set of a passing outsider. -/
def EntryDep (p : ResolvedProgram) (cycle : List ModuleName) (m x : ModuleName) : Prop :=
  Contested p cycle ∧ m ∈ p.passing ∧ Outsider cycle m ∧ Reaches p cycle m x

theorem written_entryWrites : Written (entryWrites p cycle) m x ↔ EntryDep p cycle m x := by
  by_cases h : Contested p cycle
  · rw [entryWrites_of_contested h, EntryDep, ← mem_cycleEntries, Written]
    constructor
    · rintro ⟨⟨a, s⟩, hw, rfl, hx⟩
      obtain ⟨hentry, hpass⟩ := List.mem_filter.mp hw
      refine ⟨h, of_decide_eq_true hpass, ?_⟩
      rw [Table.setAt_of_get? (Table.mem_entries.mp hentry)]
      exact hx
    · rintro ⟨_, hpass, hx⟩
      cases hget : (cycleEntries p cycle).get? m with
      | none => exact absurd hx (by simp [Table.setAt, hget])
      | some s =>
        rw [Table.setAt_of_get? hget] at hx
        exact ⟨(m, s), List.mem_filter.mpr ⟨Table.mem_entries.mpr hget, decide_eq_true hpass⟩,
          rfl, hx⟩
  · rw [entryWrites_of_not_contested h]
    simp [Written, EntryDep, h]

theorem written_entryGuardWrites {cycles : List (List ModuleName)} :
    Written (entryGuardWrites p cycles) m x ↔ ∃ c ∈ cycles, EntryDep p c m x := by
  rw [entryGuardWrites, written_flatMap]
  simp only [written_entryWrites]

theorem passing_of_mem_entryGuardWrites {cycles : List (List ModuleName)} {w : Write}
    (h : w ∈ entryGuardWrites p cycles) : w.1 ∈ p.passing := by
  obtain ⟨c, _, hw⟩ := List.mem_flatMap.mp h
  rw [entryWrites] at hw
  split at hw
  · exact absurd hw List.not_mem_nil
  · exact of_decide_eq_true (List.mem_filter.mp hw).2

theorem nonempty_of_mem_entryGuardWrites {cycles : List (List ModuleName)} {w : Write}
    (h : w ∈ entryGuardWrites p cycles) : w.2.Nonempty := by
  obtain ⟨c, _, hw⟩ := List.mem_flatMap.mp h
  rw [entryWrites] at hw
  split at hw
  · exact absurd hw List.not_mem_nil
  · have hget := Table.mem_entries.mp (List.mem_filter.mp hw).1
    have hkey : w.1 ∈ (cycleEntries p c).keys := Table.mem_keys.mpr (by rw [hget]; rfl)
    have hsome := ((cycleEntries_spec (x := w.1) (m := w.1) outsidersOnly_empty).1 w.1 hkey).2
    rw [← cycleEntries, Table.setAt_of_get? hget] at hsome
    exact hsome

/-- An entry that an outsider reaches is a member, so no module is its own entry. -/
theorem Reaches.mem {e : ModuleName} (h : Reaches p cycle m e) : e ∈ cycle := by
  obtain ⟨member, hmember, _, ⟨he, _⟩ | ⟨he, _⟩⟩ := h
  · exact he
  · exact he ▸ hmember

theorem EntryDep.ne (h : EntryDep p cycle m x) : x ≠ m := by
  obtain ⟨_, _, houtside, hreaches⟩ := h
  intro heq
  exact houtside.1 (heq ▸ hreaches.mem)

/-- The pass over the cycles, in any order: a cycle that outsiders do not enter through
two members writes nothing, and of the others each passing outsider gets exactly the
entries it reaches. -/
theorem entry_guards_exact (p : ResolvedProgram) (cycles : List (List ModuleName))
    (before after : LazyEligible) (h : Pass (entryGuardWrites p cycles) before after) :
    (∀ c ∈ cycles, ¬Contested p c → entryWrites p c = []) ∧
      ∀ m x, x ∈ after.setAt m ↔
        x ∈ before.setAt m ∨
          ∃ c ∈ cycles, Contested p c ∧ m ∈ p.passing ∧ Outsider c m ∧ Reaches p c m x := by
  refine ⟨fun c _ hcalm => entryWrites_of_not_contested hcalm, fun m x => ?_⟩
  rw [h.mem_setAt, written_entryGuardWrites]
  rfl

/-- Two modules that import each other, and two outsiders, each importing one of them: `y`
imports a name of `b`, which was missing as a module. -/
def crossEntered : ResolvedProgram :=
  .fromWholeProgram
    (Table.ofList
      [(fromStr "a", .ok {}), (fromStr "b", .ok {}), (fromStr "x", .ok {}), (fromStr "y", .ok {})])
    { nodes := [fromStr "a", fromStr "b", fromStr "x", fromStr "y"]
      nodes_nodup := by decide
      edges := [(fromStr "a", fromStr "b"), (fromStr "b", fromStr "a"),
        (fromStr "x", fromStr "a")]
      edges_closed := by decide
      missing := Table.ofList [(fromStr "y", {fromStr "b.f"})]
      missing_closed := by decide }
    Table.empty Table.empty

/-- The cycle is entered at both members, and the outsider that imports `b` is guarded by
`b`. -/
theorem entry_guards_exact_cross :
    fromStr "b" ∈
      (Table.empty.extendAll (entryGuardWrites crossEntered [[fromStr "a", fromStr "b"]])).setAt
        (fromStr "y") := by
  have hexact := entry_guards_exact crossEntered [[fromStr "a", fromStr "b"]] Table.empty _
    ⟨_, List.Perm.refl _, rfl⟩
  have houtside : ∀ m ∈ [fromStr "x", fromStr "y"], Outsider [fromStr "a", fromStr "b"] m := by
    unfold Outsider
    decide
  have hreaches : ∀ e ∈ [(fromStr "x", fromStr "a"), (fromStr "y", fromStr "b")],
      Reaches crossEntered [fromStr "a", fromStr "b"] e.1 e.2 := by
    intro e he
    refine ⟨e.2, ?_, Or.inl ?_, Or.inr ⟨rfl, ?_⟩⟩
    · revert e
      decide +kernel
    · revert e
      decide +kernel
    · revert e
      decide
  refine (hexact.2 _ _).mpr (Or.inr ⟨_, List.mem_singleton_self _, ?_, by decide, ?_, ?_⟩)
  · exact ⟨fromStr "x", fromStr "a", fromStr "y", fromStr "b",
      ⟨houtside _ (by decide), hreaches (_, _) (by decide)⟩,
      ⟨houtside _ (by decide), hreaches (_, _) (by decide)⟩, by decide⟩
  · exact houtside _ (by decide)
  · exact hreaches (_, _) (by decide)

end Lifeguard
