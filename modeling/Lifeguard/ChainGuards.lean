import Lifeguard.PolicyWrites

/-!
# Shortest import chains

The search back from the importers of a target gives each module it reaches its distance
to the target's direct importers, and the walk from a consumer takes an import with the
least distance at each step, of several the one with the lowest name.

- `hopsToTarget_eq_some`: the distances the search finds, in spite of its early stop;
- `nextHop_eq_some`, `nextHop_congr`: the step of the walk is a minimum, so that the order
  of the imports does not matter;
- `nextHop_of_hops`: from a module at some distance the walk goes exactly one nearer;
- `shortestChain_fuel`: the walk is over after as many steps as there are nodes.
-/

namespace Lifeguard

open Lib ImportGraph

variable {g g' : ImportGraph} {target m n : ModuleName} {consumers : List ModuleName}

/-- The module leads to a direct importer of the target in this many imports and no
fewer. -/
def HopsTo (g : ImportGraph) (target : ModuleName) (k : Nat) (m : ModuleName) : Prop :=
  AtLevel (g.Imports · target) (fun a b => g.Imports b a) k m

/-- Some consumer is not nearer than this. -/
def Awaited (g : ImportGraph) (target : ModuleName) (consumers : List ModuleName) (k : Nat) :
    Prop :=
  ∃ c ∈ consumers, ∀ j < k, ¬HopsTo g target j c

theorem HopsTo.mem_nodes {k : Nat} (h : HopsTo g target k m) : m ∈ g.nodes := by
  cases h.1 with
  | start himport => exact himport.source_mem
  | step _ himport => exact himport.source_mem

theorem HopsTo.lt_length {k : Nat} (h : HopsTo g target k m) : k < g.nodes.length := by
  refine Nat.lt_of_lt_of_le (h.lt_card (s := g.nodes.toFinset) ?_) (List.toFinset_card_le _)
  intro j b hb
  exact List.mem_toFinset.mpr (HopsTo.mem_nodes hb)

theorem hopsTo_eq {k : Nat} :
    AtLevel (· ∈ g.getImporters target) (Follows g.getImporters) k m ↔ HopsTo g target k m :=
  AtLevel.congr (fun _ => mem_getImporters) (fun _ _ => mem_getImporters)

/-- The distances found: those up to the first at which every consumer is reached. -/
theorem hopsToTarget_eq_some {k : Nat} :
    (hopsToTarget g target consumers).get? m = some k ↔
      HopsTo g target k m ∧ Awaited g target consumers k := by
  rw [hopsToTarget, levels_eq_some (s := g.nodes.toFinset)
    (fun k a h => List.mem_toFinset.mpr (hopsTo_eq.mp h).mem_nodes)
    (Nat.le_succ_of_le (List.toFinset_card_le _)), hopsTo_eq, Awaited]
  simp only [List.mem_dedup, hopsTo_eq]

theorem Awaited.mono {j k : Nat} (h : Awaited g target consumers k) (hj : j ≤ k) :
    Awaited g target consumers j := by
  obtain ⟨c, hc, hfar⟩ := h
  exact ⟨c, hc, fun i hi => hfar i (Nat.lt_of_lt_of_le hi hj)⟩

/-! ## The walk -/

/-- The least of a list depends on its members only. -/
theorem min?_congr {α : Type} [LinearOrder α] {l l' : List α} (h : ∀ a, a ∈ l ↔ a ∈ l') :
    l.min? = l'.min? := by
  have hle : ∀ {l : List α} {a : α}, l.min? = some a ↔ a ∈ l ∧ ∀ b ∈ l, a ≤ b :=
    List.min?_eq_some_iff
  cases hmin : l.min? with
  | none =>
    have hnil : l = [] := List.min?_eq_none_iff.mp hmin
    have hnil' : l' = [] :=
      List.eq_nil_iff_forall_not_mem.mpr fun a ha =>
        absurd ((h a).mpr ha) (by simp [hnil])
    rw [hnil']
    rfl
  | some a =>
    obtain ⟨ha, hleast⟩ := hle.mp hmin
    exact (hle.mpr ⟨(h a).mp ha, fun b hb => hleast b ((h b).mpr hb)⟩).symm

/-- The imports the walk chooses from. -/
theorem mem_candidates {hops : Table ModuleName Nat} {k : Nat} :
    toLex (k, n) ∈ ((g.getImports m).filterMap fun a => (hops.get? a).map fun h => toLex (h, a)) ↔
      g.Imports m n ∧ hops.get? n = some k := by
  rw [List.mem_filterMap]
  constructor
  · rintro ⟨a, ha, hmap⟩
    obtain ⟨h, hget, heq⟩ := Option.map_eq_some_iff.mp hmap
    have hpair : (h, a) = (k, n) := heq
    cases hpair
    exact ⟨mem_getImports.mp ha, hget⟩
  · rintro ⟨himport, hget⟩
    exact ⟨n, mem_getImports.mpr himport, by rw [hget]; rfl⟩

/-- The step of the walk: the least distance, then the lowest name. -/
theorem nextHop_eq_some {hops : Table ModuleName Nat} {k : Nat} :
    nextHop g hops m = some (toLex (k, n)) ↔
      (g.Imports m n ∧ hops.get? n = some k) ∧
        ∀ j a, g.Imports m a → hops.get? a = some j → toLex (k, n) ≤ toLex (j, a) := by
  rw [nextHop, List.min?_eq_some_iff, mem_candidates]
  refine and_congr_right fun _ => ?_
  constructor
  · intro h j a himport hget
    exact h _ (mem_candidates.mpr ⟨himport, hget⟩)
  · intro h b hb
    obtain ⟨himport, hget⟩ := mem_candidates.mp (show toLex (ofLex b) ∈ _ from hb)
    exact h _ _ himport hget

theorem nextHop_congr {hops hops' : Table ModuleName Nat}
    (himports : ∀ a, g.Imports m a ↔ g'.Imports m a) (hhops : ∀ a, hops.get? a = hops'.get? a) :
    nextHop g hops m = nextHop g' hops' m := by
  refine min?_congr fun b => ?_
  show toLex (ofLex b) ∈ _ ↔ toLex (ofLex b) ∈ _
  obtain ⟨k, n⟩ := ofLex b
  rw [mem_candidates, mem_candidates, himports, hhops]

theorem shortestChain_congr {hops hops' : Table ModuleName Nat}
    (himports : ∀ m a, g.Imports m a ↔ g'.Imports m a)
    (hhops : ∀ a, hops.get? a = hops'.get? a) (fuel : Nat) :
    shortestChain g hops fuel m = shortestChain g' hops' fuel m := by
  induction fuel generalizing m with
  | zero => rfl
  | succ fuel ih =>
    rw [shortestChain, shortestChain, nextHop_congr (himports m) hhops]
    cases nextHop g' hops' m with
    | none => rfl
    | some hop =>
      show (ofLex hop).2 :: (if (ofLex hop).1 = 0 then [] else _) = (ofLex hop).2 :: _
      rw [ih]

/-- From a module at some distance the walk goes exactly one nearer. -/
theorem nextHop_of_hops {k : Nat}
    (h : (hopsToTarget g target consumers).get? m = some (k + 1)) :
    ∃ n, nextHop g (hopsToTarget g target consumers) m = some (toLex (k, n)) := by
  obtain ⟨hlevel, hawait⟩ := hopsToTarget_eq_some.mp h
  obtain ⟨b, hb, himport⟩ := hlevel.pred
  have hget : (hopsToTarget g target consumers).get? b = some k :=
    hopsToTarget_eq_some.mpr ⟨hb, hawait.mono (Nat.le_succ k)⟩
  have hsome : (nextHop g (hopsToTarget g target consumers) m).isSome :=
    List.isSome_min?_of_mem (mem_candidates.mpr ⟨himport, hget⟩)
  obtain ⟨hop, hhop⟩ := Option.isSome_iff_exists.mp hsome
  have hspec := nextHop_eq_some.mp (show _ = some (toLex (ofLex hop)) from hhop)
  refine ⟨(ofLex hop).2, hhop.trans (congrArg some ?_)⟩
  -- no import is nearer than `k`, and `b` is at `k`
  obtain ⟨⟨hstep, hfound⟩, hleast⟩ := hspec
  have hlower : k + 1 ≤ (ofLex hop).1 + 1 :=
    (hopsToTarget_eq_some.mp hfound).1.succ_le hstep hlevel
  have hupper : (ofLex hop).1 ≤ k := by
    rcases Prod.Lex.le_iff.mp (hleast k b himport hget) with hlt | ⟨heq, _⟩
    · exact Nat.le_of_lt hlt
    · exact Nat.le_of_eq heq
  have hdist : (ofLex hop).1 = k := Nat.le_antisymm hupper (Nat.le_of_succ_le_succ hlower)
  show toLex ((ofLex hop).1, (ofLex hop).2) = _
  rw [hdist]

/-- From a module at a distance of its own the walk takes that many steps. -/
theorem shortestChain_of_hops {k extra : Nat}
    (h : (hopsToTarget g target consumers).get? m = some (k + 1)) :
    shortestChain g (hopsToTarget g target consumers) (k + 1 + extra) m =
      shortestChain g (hopsToTarget g target consumers) (k + 1) m := by
  induction k generalizing m with
  | zero =>
    obtain ⟨n, hnext⟩ := nextHop_of_hops h
    rw [Nat.add_right_comm, shortestChain, shortestChain, hnext]
    rfl
  | succ k ih =>
    obtain ⟨n, hnext⟩ := nextHop_of_hops h
    have hget := (nextHop_eq_some.mp hnext).1.2
    rw [Nat.add_right_comm, shortestChain, shortestChain, hnext]
    show n :: shortestChain g _ (k + 1 + extra) n = n :: shortestChain g _ (k + 1) n
    rw [ih hget]

/-- The walk is over after as many steps as there are nodes: more would change nothing. -/
theorem shortestChain_fuel {fuel : Nat} (hfuel : g.nodes.length ≤ fuel) :
    shortestChain g (hopsToTarget g target consumers) (fuel + 1) m =
      shortestChain g (hopsToTarget g target consumers) (g.nodes.length + 1) m := by
  rw [shortestChain, shortestChain]
  cases hnext : nextHop g (hopsToTarget g target consumers) m with
  | none => rfl
  | some hop =>
    obtain ⟨⟨k, n⟩, rfl⟩ := toLex.surjective hop
    have hget := (nextHop_eq_some.mp hnext).1.2
    have hlt := (hopsToTarget_eq_some.mp hget).1.lt_length
    cases k with
    | zero => rfl
    | succ k =>
      have hsteps : ∀ fuel, g.nodes.length ≤ fuel →
          shortestChain g (hopsToTarget g target consumers) fuel n =
            shortestChain g (hopsToTarget g target consumers) (k + 1) n := by
        intro fuel hfuel
        obtain ⟨extra, rfl⟩ := Nat.exists_eq_add_of_le (Nat.le_of_lt (Nat.lt_of_lt_of_le hlt hfuel))
        exact shortestChain_of_hops hget
      show n :: shortestChain g _ fuel n = n :: shortestChain g _ g.nodes.length n
      rw [hsteps fuel hfuel, hsteps _ (Nat.le_refl _)]

end Lifeguard
