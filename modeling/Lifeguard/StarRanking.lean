import Lifeguard.StarExpansion
import Mathlib.Order.WellFounded

/-!
# Stars in any order

The loop of `expand_star_re_exports` goes over the stars in the order of their modules and
their places. Whatever the order in which the stars bind the names of their sources, one at a
time, they come to rest at the same re-exports, and the loop is one such order.

- `BindsName`: a star binds one name, as far as its rank lets it;
- `reaches_starLoop`, `acc_bindsName`: the loop binds one name after another, and every such
  run ends;
- `TopStarAfter`: the star of highest rank among those whose source has the name when all is
  done;
- `star_expansion_ranked_fixpoint`: every run that is over ends with these.
-/

namespace Lifeguard

open Lib Relation

namespace Exports

variable {E : Exports} {graph : Finset ModuleName}

/-! ## Runs -/

/-- A star binds a name of its source that is no submodule, over nothing or over what a star of
lower rank bound. -/
inductive BindsName (E : Exports) (graph : Finset ModuleName) : StarState → StarState → Prop
  | bind {st : StarState} {m : ModuleName} {star : StarImport} {n : Str}
    (hedge : (m, star) ∈ E.starEdges)
    (hname : n ∈ starBoundNames star.source E.all st.members)
    (hgraph : asModuleName (star.source, n) ∉ graph)
    (hcan : starCanReplace (st.members.get? (m, n)) star.rank = true) :
    BindsName E graph st (bindState st m star n)

/-- A state that some order of binding names leads to. -/
abbrev StarReachable (E : Exports) (graph : Finset ModuleName) (st : StarState) : Prop :=
  ReflTransGen (BindsName E graph) E.starStart st

theorem StarInv.step {st st' : StarState} (h : StarInv E graph st)
    (hstep : BindsName E graph st st') :
    StarInv E graph st' ∧ (E.starSlots st').card < (E.starSlots st).card := by
  cases hstep with
  | bind hedge hname hgraph hcan =>
    have hlists := h.lists hname
    exact ⟨h.bind hedge ⟨hlists, hgraph⟩ hcan, starSlots_bind hedge hlists.mem_starNames hcan⟩

theorem StarReachable.inv {st : StarState} (h : StarReachable E graph st) :
    StarInv E graph st := by
  induction h with
  | refl => exact starInv_start
  | tail _ hstep ih => exact (ih.step hstep).1

/-- A state where no star binds a name is at rest. -/
theorem atRest_of_stuck {st : StarState} (h : ∀ st', ¬BindsName E graph st st') :
    AtRest E graph st := by
  intro m star n hedge hname hgraph
  by_contra hcan
  exact h _ (.bind hedge hname hgraph (Bool.eq_true_of_not_eq_false hcan))

/-- However the stars go on, they come to rest. -/
theorem acc_bindsName {st : StarState} (h : StarInv E graph st) :
    Acc (fun st' st => BindsName E graph st st') st := by
  induction hn : (E.starSlots st).card using Nat.strong_induction_on generalizing st with
  | _ n ih =>
    refine Acc.intro st fun st' hstep => ?_
    obtain ⟨hinv, hlt⟩ := h.step hstep
    exact ih _ (hn ▸ hlt) hinv rfl

/-! ## The loop is such a run -/

/-- The names of a source only grow. -/
theorem mem_starBoundNames_of_reaches {st st' : StarState}
    (h : ReflTransGen (BindsName E graph) st st') {source : ModuleName} {n : Str}
    (hn : n ∈ starBoundNames source E.all st.members) :
    n ∈ starBoundNames source E.all st'.members := by
  induction h with
  | refl => exact hn
  | tail _ hstep ih =>
    cases hstep with
    | @bind m star name hedge hname hgraph hcan =>
      cases hall : E.all.get? source with
      | some names =>
        simp only [starBoundNames, hall] at ih ⊢
        exact ih
      | none =>
        rw [mem_starBoundNames_of_none hall] at ih ⊢
        refine ⟨?_, ih.2⟩
        show ((Table.insert _ (m, name) (some star.rank)).get? (source, n)).isSome = true
        rw [Table.get?_insert]
        split
        · rfl
        · exact ih.1

theorem reaches_bindStarName {m : ModuleName} {star : StarImport} {n : Str}
    (hedge : (m, star) ∈ E.starEdges) (acc : Bool × StarState)
    (hname : n ∈ starBoundNames star.source E.all acc.2.members) :
    ReflTransGen (BindsName E graph) acc.2 (bindStarName graph m star acc n).2 := by
  unfold bindStarName
  by_cases hcan : starCanReplace (acc.2.members.get? (m, n)) star.rank = true
  · rw [if_neg (by simp [hcan])]
    split
    · exact .refl
    · next hgraph => exact .single (.bind hedge hname hgraph hcan)
  · rw [if_pos (by simp [hcan])]

/-- The names of one star, listed before it binds the first of them. -/
theorem reaches_bindStar {edge : ModuleName × StarImport} (hedge : edge ∈ E.starEdges)
    (acc : Bool × StarState) :
    ReflTransGen (BindsName E graph) acc.2 (bindStar graph E.all acc edge).2 := by
  have hfold : ∀ (names : List Str) (acc : Bool × StarState),
      (∀ n ∈ names, n ∈ starBoundNames edge.2.source E.all acc.2.members) →
      ReflTransGen (BindsName E graph) acc.2
        (names.foldl (bindStarName graph edge.1 edge.2) acc).2 := by
    intro names
    induction names with
    | nil => exact fun _ _ => .refl
    | cons n names ih =>
      intro acc hnames
      have hfirst : ReflTransGen (BindsName E graph) acc.2
          (bindStarName graph edge.1 edge.2 acc n).2 :=
        reaches_bindStarName hedge acc (hnames n (List.mem_cons_self ..))
      exact hfirst.trans (ih _ fun n hn =>
        mem_starBoundNames_of_reaches hfirst (hnames n (List.mem_cons_of_mem _ hn)))
  exact hfold _ acc fun _ hn => hn

theorem reaches_edges {edges : List (ModuleName × StarImport)}
    (hedges : ∀ edge ∈ edges, edge ∈ E.starEdges) (acc : Bool × StarState) :
    ReflTransGen (BindsName E graph) acc.2 (edges.foldl (bindStar graph E.all) acc).2 := by
  induction edges generalizing acc with
  | nil => exact .refl
  | cons edge edges ih =>
    exact (reaches_bindStar (hedges edge (List.mem_cons_self ..)) acc).trans
      (ih (fun e he => hedges e (List.mem_cons_of_mem _ he)) _)

/-- The loop binds one name after another. -/
theorem reaches_starLoop : E.StarReachable graph (E.starLoop graph) := by
  refine runRounds_inv (P := E.StarReachable graph) (fun st st' hst hround => ?_) _ .refl
  have hround' : ReflTransGen (BindsName E graph) st
      (E.sortedStarEdges.foldl (bindStar graph E.all) (false, st)).2 :=
    reaches_edges (fun edge hedge => mem_sortedStarEdges.mp hedge) (false, st)
  rw [starRound_eq] at hround
  split at hround
  · obtain rfl := Option.some.inj hround
    exact ReflTransGen.trans hst hround'
  · cases hround

/-! ## When all is done -/

/-- The module has the name when all is done: it binds it without a star, or a star bound
it. -/
def HasAfter (E : Exports) (graph : Finset ModuleName) (x : Attribute) : Prop :=
  x ∈ E.ownNames ∨ ((E.expandStarReExports graph).reExports.get? x).isSome

/-- The source provides the name when all is done: `__all__` lists it, or there is none, and
the module has it and it does not start with an underscore. -/
def ProvidesAfter (E : Exports) (graph : Finset ModuleName) (source : ModuleName) (n : Str) :
    Prop :=
  match E.all.get? source with
  | some names => n ∈ names
  | none => E.HasAfter graph (source, n) ∧ isPrivate n = false

/-- The star of highest rank among those of the module whose source provides the name, which is
no submodule there. -/
structure TopStarAfter (E : Exports) (graph : Finset ModuleName) (x : Attribute)
    (star : StarImport) : Prop where
  edge : (x.1, star) ∈ E.starEdges
  provides : E.ProvidesAfter graph star.source x.2
  noSubmodule : asModuleName (star.source, x.2) ∉ graph
  top : ∀ other, (x.1, other) ∈ E.starEdges → E.ProvidesAfter graph other.source x.2 →
    asModuleName (other.source, x.2) ∉ graph → other.rank ≤ star.rank

theorem hasAfter_iff {x : Attribute} : E.HasAfter graph x ↔ E.Provides graph x := by
  unfold HasAfter
  rw [provides_iff]
  constructor
  · rintro (hown | hsome)
    · exact Or.inl hown
    · obtain ⟨y, hy⟩ := Option.isSome_iff_exists.mp hsome
      rcases get?_expandStarReExports.mp hy with hre | ⟨star, hstar, -⟩
      · exact Or.inl (mem_ownNames_of_reExport hre)
      · exact Or.inr ⟨star, hstar.edge, hstar.offers⟩
  · rintro (hown | hoffered)
    · exact Or.inl hown
    · by_cases hown : x ∈ E.ownNames
      · exact Or.inl hown
      · exact Or.inr (starBound_iff.mp ⟨hown, hoffered⟩).2

theorem providesAfter_iff {source : ModuleName} {n : Str} :
    E.ProvidesAfter graph source n ↔ E.Lists graph source n := by
  unfold ProvidesAfter Lists
  cases E.all.get? source with
  | some names => exact Iff.rfl
  | none =>
    show E.HasAfter graph (source, n) ∧ _ ↔ _
    rw [hasAfter_iff]

theorem topStarAfter_iff {x : Attribute} (hfree : x ∉ E.ownNames) {star : StarImport} :
    E.TopStarAfter graph x star ↔ E.TopStar graph x star := by
  constructor
  · intro h
    exact ⟨h.edge, ⟨providesAfter_iff.mp h.provides, h.noSubmodule⟩, fun other hother hoffers =>
      h.top other hother (providesAfter_iff.mpr hoffers.1) hoffers.2, hfree⟩
  · intro h
    exact ⟨h.edge, providesAfter_iff.mpr h.offers.1, h.offers.2, fun other hother hprovides hsub =>
      h.top other hother ⟨providesAfter_iff.mp hprovides, hsub⟩⟩

/-- The stars come to rest, in whatever order they bind the names of their sources, and always
at the same re-exports: a name that its module does not bind otherwise is bound by the star of
highest rank among those whose source provides it in the end, and what a definition or an
explicit re-export binds stays as it is. -/
theorem star_expansion_ranked_fixpoint (E : Exports) (graph : Finset ModuleName) :
    -- the loop is over, and it is a run that binds one name after another
    E.starRound graph (E.starLoop graph) = none ∧
    E.StarReachable graph (E.starLoop graph) ∧
    -- every run ends, and ends at the same re-exports
    (∀ st, E.StarReachable graph st → Acc (fun st' st => BindsName E graph st st') st ∧
      ((∀ st', ¬BindsName E graph st st') →
        ∀ x, st.reExports.get? x = (E.expandStarReExports graph).reExports.get? x)) ∧
    -- no binding of a module that is not that of a star is displaced
    (∀ x ∈ E.ownNames,
      (E.expandStarReExports graph).reExports.get? x = E.reExports.get? x) ∧
    -- every other name is bound by its top star
    ∀ x, x ∉ E.ownNames → ∀ y, (E.expandStarReExports graph).reExports.get? x = some y ↔
      ∃ star, E.TopStarAfter graph x star ∧ y = (star.source, x.2) := by
  refine ⟨starLoop_rest, reaches_starLoop, fun st hst => ⟨acc_bindsName hst.inv, ?_⟩, ?_, ?_⟩
  · intro hstuck x
    refine Option.ext fun y => ?_
    rw [rest_reExports hst.inv (atRest_of_stuck hstuck), get?_expandStarReExports]
  · intro x hown
    refine Option.ext fun y => ?_
    rw [get?_expandStarReExports]
    exact or_iff_left fun ⟨star, hstar, _⟩ => hstar.free hown
  · intro x hfree y
    rw [get?_expandStarReExports]
    constructor
    · rintro (hre | ⟨star, hstar, rfl⟩)
      · exact absurd (mem_ownNames_of_reExport hre) hfree
      · exact ⟨star, (topStarAfter_iff hfree).mpr hstar, rfl⟩
    · rintro ⟨star, hstar, rfl⟩
      exact Or.inr ⟨star, (topStarAfter_iff hfree).mp hstar, rfl⟩

end Exports

end Lifeguard
