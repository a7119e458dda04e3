import Lifeguard.PolicyOrder
import Mathlib.Data.List.Lex

/-!
# Routes to implicit imports

What the search and the walk of `ChainGuards` come to: the modules guarded for a consumer
and a target are a shortest import path to a direct importer of the target, of several the
one that comes first by name.

- `Route`: the import paths from a module to a direct importer of the target;
- `Route.exists_hops`, `HopsTo.exists_route`: routes and distances;
- `isRoute_shortestChain`, `shortestChain_le`: the walk from a module at a distance is a
  route, and no route of its length comes before it;
- `chain_guards`: what the pass does to the table.
-/

namespace Lifeguard

open Lib ImportGraph

variable {g : ImportGraph} {target m n : ModuleName} {consumers : List ModuleName}

/-- The modules on an import path from the module, which is left out, to a direct importer of
the target. -/
inductive Route (g : ImportGraph) (target : ModuleName) : ModuleName → List ModuleName → Prop
  | last {m n : ModuleName} : g.Imports m n → g.Imports n target → Route g target m [n]
  | step {m n : ModuleName} {rest : List ModuleName} :
      g.Imports m n → Route g target n rest → Route g target m (n :: rest)

/-- Routes are compared from the front. -/
theorem cons_le_of_le {a b : ModuleName} {l l' : List ModuleName} (hle : a ≤ b)
    (htail : a = b → l ≤ l') : a :: l ≤ b :: l' := by
  rcases lt_or_eq_of_le hle with hlt | rfl
  · exact le_of_lt (List.Lex.rel hlt)
  · exact List.cons_le_cons a (htail rfl)

/-- A route bounds the distance. -/
theorem Route.exists_hops {route : List ModuleName} (h : Route g target m route) :
    ∃ k ≤ route.length, HopsTo g target k m := by
  have hreach : ReachIn (g.Imports · target) (fun a b => g.Imports b a) route.length m := by
    induction h with
    | last himport htarget => exact .step (.start htarget) himport
    | step himport _ ih => exact .step ih himport
  exact hreach.exists_level

/-- At a distance of its own a module has a route of that length. -/
theorem HopsTo.exists_route {k : Nat} (h : HopsTo g target (k + 1) m) :
    ∃ route, Route g target m route ∧ route.length = k + 1 := by
  induction k generalizing m with
  | zero =>
    obtain ⟨n, hn, himport⟩ := h.pred
    cases hn.1 with
    | start htarget => exact ⟨[n], .last himport htarget, rfl⟩
  | succ k ih =>
    obtain ⟨n, hn, himport⟩ := h.pred
    obtain ⟨route, hroute, hlen⟩ := ih hn
    exact ⟨n :: route, .step himport hroute, congrArg (· + 1) hlen⟩

/-- A module that does not import the target is at a distance of its own, if at any. -/
theorem HopsTo.exists_succ {k : Nat} (h : HopsTo g target k m) (hdirect : ¬g.Imports m target) :
    ∃ j, k = j + 1 := by
  cases k with
  | zero =>
    cases h.1 with
    | start htarget => exact absurd htarget hdirect
  | succ j => exact ⟨j, rfl⟩

/-! ## The walk -/

/-- The walk from a module at some distance is a route of that length. -/
theorem isRoute_shortestChain {k : Nat}
    (h : (hopsToTarget g target consumers).get? m = some (k + 1)) :
    Route g target m (shortestChain g (hopsToTarget g target consumers) (k + 1) m) ∧
      (shortestChain g (hopsToTarget g target consumers) (k + 1) m).length = k + 1 := by
  induction k generalizing m with
  | zero =>
    obtain ⟨n, hnext⟩ := nextHop_of_hops h
    obtain ⟨himport, hget⟩ := (nextHop_eq_some.mp hnext).1
    rw [shortestChain, hnext]
    show Route g target m [n] ∧ [n].length = 1
    cases (hopsToTarget_eq_some.mp hget).1.1 with
    | start htarget => exact ⟨.last himport htarget, rfl⟩
  | succ k ih =>
    obtain ⟨n, hnext⟩ := nextHop_of_hops h
    obtain ⟨himport, hget⟩ := (nextHop_eq_some.mp hnext).1
    obtain ⟨hroute, hlen⟩ := ih hget
    rw [shortestChain, hnext]
    exact ⟨.step himport hroute, congrArg (· + 1) hlen⟩

/-- The first module of a route of the least length is one nearer, and so are those after
it. -/
theorem Route.head_hops {k : Nat} {rest : List ModuleName}
    (h : (hopsToTarget g target consumers).get? m = some (k + 1))
    (hroute : Route g target m (n :: rest)) (hlen : (n :: rest).length = k + 1) :
    g.Imports m n ∧ (hopsToTarget g target consumers).get? n = some k := by
  obtain ⟨hlevel, hawait⟩ := hopsToTarget_eq_some.mp h
  have hrest : rest.length = k := Nat.succ.inj hlen
  have himport : g.Imports m n ∧ ∃ j ≤ k, HopsTo g target j n := by
    cases hroute with
    | last himport htarget =>
      exact ⟨himport, 0, Nat.zero_le k, .start htarget, fun j hj => absurd hj (Nat.not_lt_zero j)⟩
    | step himport hroute => exact ⟨himport, hrest ▸ hroute.exists_hops⟩
  obtain ⟨himport, j, hj, hn⟩ := himport
  have hge : k + 1 ≤ j + 1 := hn.succ_le himport hlevel
  have heq : j = k := by omega
  exact ⟨himport, hopsToTarget_eq_some.mpr ⟨heq ▸ hn, hawait.mono (Nat.le_succ k)⟩⟩

/-- No route of the length of the walk comes before it by name. -/
theorem shortestChain_le {k : Nat} {route : List ModuleName}
    (h : (hopsToTarget g target consumers).get? m = some (k + 1))
    (hroute : Route g target m route) (hlen : route.length = k + 1) :
    shortestChain g (hopsToTarget g target consumers) (k + 1) m ≤ route := by
  induction k generalizing m route with
  | zero =>
    obtain ⟨n, hnext⟩ := nextHop_of_hops h
    obtain ⟨a, rfl⟩ := List.length_eq_one_iff.mp hlen
    obtain ⟨himport, hget⟩ := hroute.head_hops h hlen
    rw [shortestChain, hnext]
    show [n] ≤ [a]
    rcases Prod.Lex.le_iff.mp ((nextHop_eq_some.mp hnext).2 0 a himport hget) with hlt | ⟨_, hle⟩
    · exact absurd hlt (Nat.lt_irrefl 0)
    · exact cons_le_of_le hle fun _ => le_refl _
  | succ k ih =>
    obtain ⟨n, hnext⟩ := nextHop_of_hops h
    have hn := (nextHop_eq_some.mp hnext).1.2
    cases route with
    | nil => exact absurd hlen (by simp)
    | cons a rest =>
      obtain ⟨himport, hget⟩ := hroute.head_hops h hlen
      have hrest : Route g target a rest := by
        cases hroute with
        | last => exact absurd hlen (by simp)
        | step _ hrest => exact hrest
      rw [shortestChain, hnext]
      show n :: shortestChain g _ (k + 1) n ≤ a :: rest
      rcases Prod.Lex.le_iff.mp ((nextHop_eq_some.mp hnext).2 (k + 1) a himport hget) with
        hlt | ⟨_, hle⟩
      · exact absurd hlt (Nat.lt_irrefl (k + 1))
      · exact cons_le_of_le hle fun heq => ih hn (heq ▸ hrest) (Nat.succ.inj hlen)

/-! ## The pass -/

variable {p : ResolvedProgram} {consumer : ModuleName}

/-- The route is a shortest one, and of the shortest the first by name. -/
structure FirstShortest (g : ImportGraph) (target consumer : ModuleName)
    (route : List ModuleName) : Prop where
  isRoute : Route g target consumer route
  shortest : ∀ other, Route g target consumer other → route.length ≤ other.length
  first : ∀ other, Route g target consumer other → other.length = route.length → route ≤ other

/-- The distances are final up to that of any consumer that needs a chain. -/
theorem hops_of_route {route : List ModuleName} (hneeds : NeedsChain p target consumer)
    (hroute : Route p.importGraph target consumer route) :
    ∃ k < route.length,
      (hopsToTarget p.importGraph target (needsChain p target)).get? consumer = some (k + 1) := by
  obtain ⟨k, hk, hops⟩ := hroute.exists_hops
  obtain ⟨j, rfl⟩ := hops.exists_succ hneeds.2
  refine ⟨j, hk, hopsToTarget_eq_some.mpr ⟨hops, consumer, mem_needsChain.mpr hneeds, ?_⟩⟩
  intro i hi hnear
  exact absurd (hnear.unique hops) (Nat.ne_of_lt hi)

/-- The chain of a consumer that leads to an importer of the target. -/
theorem firstShortest_chainTo {route : List ModuleName} (hneeds : NeedsChain p target consumer)
    (hroute : Route p.importGraph target consumer route) :
    FirstShortest p.importGraph target consumer (chainTo p target consumer) := by
  obtain ⟨k, _, hget⟩ := hops_of_route hneeds hroute
  have hlt := (hopsToTarget_eq_some.mp hget).1.lt_length
  obtain ⟨extra, hextra⟩ := Nat.exists_eq_add_of_le (Nat.le_succ_of_le (Nat.le_of_lt hlt))
  have hchain : chainTo p target consumer =
      shortestChain p.importGraph (hopsToTarget p.importGraph target (needsChain p target))
        (k + 1) consumer := by
    rw [chainTo, show p.nodes.length + 1 = k + 1 + extra from hextra]
    exact shortestChain_of_hops hget
  obtain ⟨hwalk, hlen⟩ := isRoute_shortestChain hget
  rw [hchain]
  refine ⟨hwalk, ?_, ?_⟩
  · intro other hother
    obtain ⟨j, hj, hget'⟩ := hops_of_route hneeds hother
    have heq := Option.some.inj (hget.symm.trans hget')
    omega
  · intro other hother hother'
    exact shortestChain_le hget hother (hother'.trans hlen)

/-- A consumer that leads to no importer of the target has no chain. -/
theorem chainTo_eq_nil (hfar : ∀ route, ¬Route p.importGraph target consumer route) :
    chainTo p target consumer = [] := by
  have hnone : nextHop p.importGraph
      (hopsToTarget p.importGraph target (needsChain p target)) consumer = none := by
    cases hnext : nextHop p.importGraph
        (hopsToTarget p.importGraph target (needsChain p target)) consumer with
    | none => rfl
    | some hop =>
      obtain ⟨⟨k, n⟩, rfl⟩ := toLex.surjective hop
      obtain ⟨himport, hget⟩ := (nextHop_eq_some.mp hnext).1
      have hops := (hopsToTarget_eq_some.mp hget).1
      cases k with
      | zero =>
        cases hops.1 with
        | start htarget => exact absurd (.last himport htarget) (hfar [n])
      | succ k =>
        obtain ⟨route, hroute, _⟩ := hops.exists_route
        exact absurd (.step himport hroute) (hfar (n :: route))
  rw [chainTo, shortestChain, hnone]

/-- More rounds of the search find nothing more. -/
theorem hopsToTarget_fuel {fuel : Nat} (hfuel : g.nodes.length ≤ fuel) :
    (levels g.getImporters fuel Table.empty consumers.dedup (g.getImporters target) 0).get? m =
      (hopsToTarget g target consumers).get? m := by
  refine Option.ext fun k => ?_
  rw [hopsToTarget_eq_some, levels_eq_some (s := g.nodes.toFinset)
    (fun k a h => List.mem_toFinset.mpr (hopsTo_eq.mp h).mem_nodes)
    (Nat.le_trans (List.toFinset_card_le _) hfuel), hopsTo_eq, Awaited]
  simp only [List.mem_dedup, hopsTo_eq]

theorem FirstShortest.unique {route other : List ModuleName}
    (h : FirstShortest g target m route) (h' : FirstShortest g target m other) : route = other := by
  have hlen : route.length = other.length :=
    Nat.le_antisymm (h.shortest other h'.isRoute) (h'.shortest route h.isRoute)
  exact le_antisymm (h.first other h'.isRoute hlen.symm) (h'.first route h.isRoute hlen)

/-- The modules on the chain of a consumer are those of its first shortest route. -/
theorem mem_chainTo (hneeds : NeedsChain p target consumer) :
    m ∈ chainTo p target consumer ↔
      ∃ route, FirstShortest p.importGraph target consumer route ∧ m ∈ route := by
  constructor
  · intro hm
    by_cases hfar : ∀ route, ¬Route p.importGraph target consumer route
    · rw [chainTo_eq_nil hfar] at hm
      exact absurd hm List.not_mem_nil
    · obtain ⟨route, hroute⟩ := not_forall_not.mp hfar
      exact ⟨_, firstShortest_chainTo hneeds hroute, hm⟩
  · rintro ⟨route, hfirst, hm⟩
    rwa [(firstShortest_chainTo hneeds hfirst.isRoute).unique hfirst]

/-- Something uses the target, and the module is guarded with it: it is the target itself, or
it lies on the first shortest route of a consumer that does not import the target. -/
def RouteDep (p : ResolvedProgram) (m target : ModuleName) : Prop :=
  m ∈ p.passing ∧
    ((m = target ∧ ∃ consumer, ImplicitImport p consumer target) ∨
      ∃ consumer route, NeedsChain p target consumer ∧
        FirstShortest p.importGraph target consumer route ∧ m ∈ route)

theorem chainDep_iff : ChainDep p m target ↔ RouteDep p m target := by
  unfold ChainDep RouteDep
  constructor
  · rintro ⟨huses, hpass, heq | ⟨consumer, hneeds, hm⟩⟩
    · exact ⟨hpass, Or.inl ⟨heq, huses⟩⟩
    · obtain ⟨route, hfirst, hmem⟩ := (mem_chainTo hneeds).mp hm
      exact ⟨hpass, Or.inr ⟨consumer, route, hneeds, hfirst, hmem⟩⟩
  · rintro ⟨hpass, ⟨heq, huses⟩ | ⟨consumer, route, hneeds, hfirst, hmem⟩⟩
    · exact ⟨huses, hpass, Or.inl heq⟩
    · exact ⟨⟨consumer, hneeds.1⟩, hpass,
        Or.inr ⟨consumer, hneeds, (mem_chainTo hneeds).mpr ⟨route, hfirst, hmem⟩⟩⟩

/-- The chains of a pass, in any order of its writes. From a consumer that leads to a direct
importer of the target the walk is the first shortest route to one, and from any other it is
empty; neither the search nor the walk uses up its rounds; and the table grows by what the
first shortest routes and the targets themselves are guarded with, and by nothing else. -/
theorem chain_guards (p : ResolvedProgram) (before after : LazyEligible)
    (h : Pass (chainWrites p) before after) :
    (∀ target consumer, NeedsChain p target consumer →
      ((∃ route, Route p.importGraph target consumer route) →
        FirstShortest p.importGraph target consumer (chainTo p target consumer)) ∧
      ((∀ route, ¬Route p.importGraph target consumer route) →
        chainTo p target consumer = []) ∧
      ∀ fuel, p.nodes.length < fuel →
        (∀ m, (levels p.importGraph.getImporters fuel Table.empty (needsChain p target).dedup
            (p.importGraph.getImporters target) 0).get? m =
          (hopsToTarget p.importGraph target (needsChain p target)).get? m) ∧
        shortestChain p.importGraph (hopsToTarget p.importGraph target (needsChain p target))
          fuel consumer = chainTo p target consumer) ∧
    (∀ m x, x ∈ after.setAt m ↔ x ∈ before.setAt m ∨ RouteDep p m x) ∧
    ∀ m, m ∈ after.keys ↔ m ∈ before.keys ∨ ∃ x, RouteDep p m x := by
  refine ⟨fun target consumer hneeds => ⟨?_, chainTo_eq_nil, ?_⟩, ?_, ?_⟩
  · rintro ⟨route, hroute⟩
    exact firstShortest_chainTo hneeds hroute
  · intro fuel hfuel
    refine ⟨fun m => hopsToTarget_fuel (Nat.le_of_lt hfuel), ?_⟩
    obtain ⟨fuel, rfl⟩ := Nat.exists_eq_succ_of_ne_zero (Nat.ne_zero_of_lt hfuel)
    exact shortestChain_fuel (Nat.le_of_lt_succ hfuel)
  · intro m x
    rw [h.mem_setAt, written_chainWrites, chainDep_iff]
  · intro m
    rw [h.mem_keys]
    simp only [mem_chainWrites, ← chainDep_iff]
    refine or_congr_right ?_
    constructor
    · rintro ⟨w, ⟨target, _, hdep⟩, rfl⟩
      exact ⟨target, hdep⟩
    · rintro ⟨x, hdep⟩
      exact ⟨(m, {x}), ⟨x, rfl, hdep⟩, rfl⟩

/-- Of the two chains of the sample the one that comes first by name is walked. -/
theorem chain_guards_twoChains :
    FirstShortest twoChainsUp.importGraph (fromStr "t") (fromStr "c")
      (chainTo twoChainsUp (fromStr "t") (fromStr "c")) := by
  have hneeds : NeedsChain twoChainsUp (fromStr "t") (fromStr "c") :=
    mem_needsChain.mp (by decide +kernel)
  have hroute : Route twoChainsUp.importGraph (fromStr "t") (fromStr "c") [fromStr "b"] :=
    .last (by decide +kernel) (by decide +kernel)
  exact ((chain_guards twoChainsUp Table.empty _ ⟨_, List.Perm.refl _, rfl⟩).1 _ _ hneeds).1
    ⟨_, hroute⟩

/-- A consumer of `t`, which nothing imports. -/
def unimportedTarget : ResolvedProgram where
  classified :=
    { passingModules := {fromStr "c", fromStr "t"}
      implicitImports := Table.ofList [(fromStr "c", [fromStr "t"])] }
  importGraph :=
    { nodes := [fromStr "t", fromStr "c"], nodes_nodup := by decide
      edges := [], edges_closed := fun _ he => absurd he List.not_mem_nil
      missing := Table.empty
      missing_closed := fun _ hm => absurd hm List.not_mem_nil }
  reExports := .whole Table.empty
  sideEffects := .whole Table.empty
  classified_once := Finset.disjoint_empty_left _
  missing_unknown := by simp [Table.setAt]

/-- No importer of the target is there to be reached, and yet the pass changes the set of the
target itself. -/
theorem unimported_target_guards_itself :
    NeedsChain unimportedTarget (fromStr "t") (fromStr "c") ∧
      (∀ route, ¬Route unimportedTarget.importGraph (fromStr "t") (fromStr "c") route) ∧
      (policy unimportedTarget [[fromStr "t"], [fromStr "c"]]).implicit.setAt (fromStr "t") = ∅ ∧
      (policy unimportedTarget [[fromStr "t"], [fromStr "c"]]).chains.setAt (fromStr "t") =
        {fromStr "t"} := by
  refine ⟨mem_needsChain.mp (by decide +kernel), ?_, by decide +kernel, by decide +kernel⟩
  rintro route (⟨himport, _⟩ | ⟨himport, _⟩)
  · exact absurd himport List.not_mem_nil
  · exact absurd himport List.not_mem_nil

end Lifeguard
