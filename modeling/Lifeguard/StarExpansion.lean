import Lifeguard.StarExports
import Mathlib.Data.Finset.Card
import Mathlib.Data.Finset.Max
import Mathlib.Data.Finset.Prod

/-!
# What the stars bind

What `expand_star_re_exports` computes, told without its loop. A module provides the names
it binds itself and those its stars offer (`Provides`); of the stars that offer a name, the
one of highest rank binds it (`TopStar`).

- `StarInv`: what holds in every state of the loop;
- `starLoop_rest`: the loop comes to rest;
- `get?_expandStarReExports`: the re-exports it leaves are the explicit ones and, for each
  other name the stars offer, the one of its top star;
- `star_names_resolve_iff`: when the names that stars bind can be followed to their
  definitions.
-/

namespace Lifeguard

open Lib Relation

namespace Exports

/-! ## The names of a module -/

/-- The module provides the name: it binds it itself, or one of its stars brings it in. -/
inductive Provides (E : Exports) (graph : Finset ModuleName) : Attribute → Prop
  | own {x : Attribute} : x ∈ E.ownNames → Provides E graph x
  | listed {m : ModuleName} {star : StarImport} {names : List Str} {n : Str} :
      (m, star) ∈ E.starEdges → E.all.get? star.source = some names → n ∈ names →
      asModuleName (star.source, n) ∉ graph → Provides E graph (m, n)
  | passed {m : ModuleName} {star : StarImport} {n : Str} :
      (m, star) ∈ E.starEdges → E.all.get? star.source = none →
      Provides E graph (star.source, n) → isPrivate n = false →
      asModuleName (star.source, n) ∉ graph → Provides E graph (m, n)

/-- `from source import *` lists the name: `__all__` does, or there is none and the module
provides it in public. -/
def Lists (E : Exports) (graph : Finset ModuleName) (source : ModuleName) (n : Str) : Prop :=
  match E.all.get? source with
  | some names => n ∈ names
  | none => E.Provides graph (source, n) ∧ isPrivate n = false

/-- The star offers the name, which is not a submodule of its source. -/
def Offers (E : Exports) (graph : Finset ModuleName) (star : StarImport) (n : Str) : Prop :=
  E.Lists graph star.source n ∧ asModuleName (star.source, n) ∉ graph

/-- A star of the module offers the name, which the module does not bind itself. -/
def StarBound (E : Exports) (graph : Finset ModuleName) (x : Attribute) : Prop :=
  x ∉ E.ownNames ∧ ∃ star, (x.1, star) ∈ E.starEdges ∧ E.Offers graph star x.2

/-- The star that binds the name: no star of the module that offers it has a higher rank. -/
structure TopStar (E : Exports) (graph : Finset ModuleName) (x : Attribute)
    (star : StarImport) : Prop where
  edge : (x.1, star) ∈ E.starEdges
  offers : E.Offers graph star x.2
  top : ∀ other, (x.1, other) ∈ E.starEdges → E.Offers graph other x.2 → other.rank ≤ star.rank
  free : x ∉ E.ownNames

variable {E : Exports} {graph : Finset ModuleName}

theorem mem_starEdges {m : ModuleName} {star : StarImport} :
    (m, star) ∈ E.starEdges ↔ ∃ stars, (m, stars) ∈ E.starImports.entries ∧ star ∈ stars := by
  unfold starEdges
  simp only [List.mem_flatMap, List.mem_map, Prod.mk.injEq, Prod.exists]
  constructor
  · rintro ⟨m', stars, hentry, star', hstar, rfl, rfl⟩
    exact ⟨stars, hentry, hstar⟩
  · rintro ⟨stars, hentry, hstar⟩
    exact ⟨m, stars, hentry, star, hstar, rfl, rfl⟩

theorem mem_sortedStarEdges {edge : ModuleName × StarImport} :
    edge ∈ E.sortedStarEdges ↔ edge ∈ E.starEdges :=
  UnstableSort.mem_sortOn _

/-- The rank tells the stars of a module apart. -/
theorem rank_injective {m : ModuleName} {star other : StarImport}
    (h : (m, star) ∈ E.starEdges) (h' : (m, other) ∈ E.starEdges)
    (hrank : star.rank = other.rank) : star = other := by
  obtain ⟨stars, hentry, hstar⟩ := mem_starEdges.mp h
  obtain ⟨stars', hentry', hother⟩ := mem_starEdges.mp h'
  have hsame : stars' = stars :=
    Option.some.inj ((Table.mem_entries.mp hentry').symm.trans (Table.mem_entries.mp hentry))
  subst hsame
  have hoffset : star.offset = other.offset := congrArg (fun r => (ofLex r).2) hrank
  exact List.inj_on_of_nodup_map (E.offsets _ hentry) hstar hother hoffset

theorem TopStar.unique {x : Attribute} {star other : StarImport} (h : E.TopStar graph x star)
    (h' : E.TopStar graph x other) : star = other :=
  rank_injective h.edge h'.edge
    (le_antisymm (h'.top _ h.edge h.offers) (h.top _ h'.edge h'.offers))

theorem mem_relevant {m : ModuleName} :
    m ∈ E.relevant ↔ ∃ edge ∈ E.starEdges, m = edge.1 ∨ m = edge.2.source := by
  unfold relevant
  simp only [List.mem_flatMap, mem_sortedStarEdges, List.mem_cons, List.not_mem_nil, or_false]

theorem mem_ownNames_of_reExport {x y : Attribute} (h : E.reExports.get? x = some y) :
    x ∈ E.ownNames := by
  refine List.mem_append_right _ (Table.mem_keys.mpr ?_)
  rw [h]
  rfl

theorem provides_iff {x : Attribute} :
    E.Provides graph x ↔
      x ∈ E.ownNames ∨ ∃ star, (x.1, star) ∈ E.starEdges ∧ E.Offers graph star x.2 := by
  constructor
  · intro h
    cases h with
    | own hown => exact Or.inl hown
    | listed hedge hall hn hgraph =>
      refine Or.inr ⟨_, hedge, ?_, hgraph⟩
      simp only [Lists, hall]
      exact hn
    | passed hedge hall hsource hpublic hgraph =>
      refine Or.inr ⟨_, hedge, ?_, hgraph⟩
      simp only [Lists, hall]
      exact ⟨hsource, hpublic⟩
  · rintro (hown | ⟨star, hedge, hlists, hgraph⟩)
    · exact .own hown
    · unfold Lists at hlists
      cases hall : E.all.get? star.source with
      | some names =>
        simp only [hall] at hlists
        exact .listed hedge hall hlists hgraph
      | none =>
        simp only [hall] at hlists
        exact .passed hedge hall hlists.1 hlists.2 hgraph

theorem Provides.mem_starNames {x : Attribute} (h : E.Provides graph x) :
    x.2 ∈ E.starNames := by
  induction h with
  | own hown => exact List.mem_append_right _ (List.mem_map_of_mem hown)
  | listed _ hall hn _ =>
    exact List.mem_append_left _ (List.mem_flatMap.mpr ⟨_, Table.mem_entries.mpr hall, hn⟩)
  | passed _ _ _ _ _ ih => exact ih

/-! ## A state of the loop -/

/-- What holds in every state of the loop. -/
structure StarInv (E : Exports) (graph : Finset ModuleName) (st : StarState) : Prop where
  /-- The names a module binds itself stay its own, -/
  own : ∀ x ∈ E.ownNames, x.1 ∈ E.relevant → st.members.get? x = some none
  /-- and no other name becomes one of them. -/
  fixed : ∀ x, st.members.get? x = some none → x ∈ E.ownNames
  /-- A name bound at a rank was bound by the star of that rank, -/
  bound : ∀ x rank, st.members.get? x = some (some rank) →
    x ∉ E.ownNames ∧ ∃ star, (x.1, star) ∈ E.starEdges ∧ star.rank = rank ∧
      E.Offers graph star x.2 ∧ st.reExports.get? x = some (star.source, x.2)
  /-- and the re-exports of the others are those of the start. -/
  unbound : ∀ x, (∀ rank, st.members.get? x ≠ some (some rank)) →
    st.reExports.get? x = E.reExports.get? x

theorem get?_foldl_seed {l : List Attribute} {members : StarMembers} {x : Attribute} :
    (l.foldl (fun members x => members.insert x none) members).get? x =
      if x ∈ l then some none else members.get? x := by
  induction l generalizing members with
  | nil => simp
  | cons y l ih =>
    rw [List.foldl_cons, ih, Table.get?_insert]
    by_cases hl : x ∈ l
    · rw [if_pos hl, if_pos (List.mem_cons_of_mem _ hl)]
    · by_cases hy : x = y
      · rw [if_neg hl, if_pos hy, if_pos (hy ▸ List.mem_cons_self)]
      · rw [if_neg hl, if_neg hy, if_neg (by simp [hl, hy])]

theorem get?_seedStarMembers {x : Attribute} :
    E.seedStarMembers.get? x =
      if x ∈ E.ownNames ∧ x.1 ∈ E.relevant then some none else none := by
  rw [seedStarMembers, get?_foldl_seed, Table.get?_empty]
  simp only [List.mem_filter, decide_eq_true_eq]

theorem starInv_start : StarInv E graph E.starStart where
  own x hown hrelevant := by
    show E.seedStarMembers.get? x = some none
    rw [get?_seedStarMembers, if_pos ⟨hown, hrelevant⟩]
  fixed x hx := by
    replace hx : E.seedStarMembers.get? x = some none := hx
    rw [get?_seedStarMembers] at hx
    split at hx
    · next h => exact h.1
    · cases hx
  bound x rank hx := by
    replace hx : E.seedStarMembers.get? x = some (some rank) := hx
    rw [get?_seedStarMembers] at hx
    split at hx <;> cases hx
  unbound _ _ := rfl

theorem StarInv.provides {st : StarState} (h : StarInv E graph st) {x : Attribute}
    (hx : (st.members.get? x).isSome) : E.Provides graph x := by
  obtain ⟨value, hvalue⟩ := Option.isSome_iff_exists.mp hx
  cases value with
  | none => exact .own (h.fixed x hvalue)
  | some rank =>
    obtain ⟨-, star, hedge, -, hoffers, -⟩ := h.bound x rank hvalue
    exact provides_iff.mpr (Or.inr ⟨star, hedge, hoffers⟩)

/-- What the loop takes for the names of a source is listed there. -/
theorem StarInv.lists {st : StarState} (h : StarInv E graph st) {source : ModuleName} {n : Str}
    (hn : n ∈ starBoundNames source E.all st.members) : E.Lists graph source n := by
  unfold Lists
  cases hall : E.all.get? source with
  | some names =>
    rw [starBoundNames, hall] at hn
    exact hn
  | none =>
    obtain ⟨hmember, hpublic⟩ := (mem_starBoundNames_of_none hall).mp hn
    exact ⟨h.provides hmember, hpublic⟩

theorem Lists.mem_starNames {source : ModuleName} {n : Str} (h : E.Lists graph source n) :
    n ∈ E.starNames := by
  unfold Lists at h
  cases hall : E.all.get? source with
  | some names =>
    simp only [hall] at h
    exact List.mem_append_left _ (List.mem_flatMap.mpr ⟨_, Table.mem_entries.mpr hall, h⟩)
  | none =>
    simp only [hall] at h
    exact h.1.mem_starNames

/-! ## Coming to rest -/

/-- What is left to bind: a name of a module at a rank above the one it has. -/
def starSlots (E : Exports) (st : StarState) : Finset (Attribute × StarRank) :=
  (((E.sortedStarEdges.map Prod.fst).toFinset ×ˢ E.starNames.toFinset) ×ˢ
      (E.sortedStarEdges.map fun edge => edge.2.rank).toFinset).filter
    fun slot => starCanReplace (st.members.get? slot.1) slot.2 = true

theorem card_starSlots_le (st : StarState) : (E.starSlots st).card ≤ E.starFuel := by
  unfold starSlots starFuel
  refine (Finset.card_filter_le _ _).trans ?_
  rw [Finset.card_product, Finset.card_product]
  have hedges : (E.sortedStarEdges.map Prod.fst).toFinset.card ≤ E.sortedStarEdges.length :=
    (List.toFinset_card_le _).trans_eq (List.length_map _)
  have hranks : (E.sortedStarEdges.map fun edge => edge.2.rank).toFinset.card ≤
      E.sortedStarEdges.length := (List.toFinset_card_le _).trans_eq (List.length_map _)
  exact Nat.mul_le_mul (Nat.mul_le_mul hedges (List.toFinset_card_le _)) hranks

/-- A name that a rank can be bound over can be bound over by what replaced it, too. -/
theorem starCanReplace_trans {existing : Option (Option StarRank)} {bound rank : StarRank}
    (h : starCanReplace existing bound = true)
    (h' : starCanReplace (some (some bound)) rank = true) :
    starCanReplace existing rank = true := by
  have hlt : bound < rank := of_decide_eq_true h'
  match existing, h with
  | none, _ => rfl
  | some (some old), h =>
    have hold : old < bound := of_decide_eq_true h
    exact decide_eq_true (hold.trans hlt)

theorem isSome_of_not_replace {existing : Option (Option StarRank)} {rank : StarRank}
    (hcan : starCanReplace existing rank = false) : existing.isSome := by
  cases existing with
  | none => cases hcan
  | some _ => rfl

section Bind

variable {st : StarState} {m : ModuleName} {star : StarImport} {n : Str}

/-- The state after a star bound a name. -/
def bindState (st : StarState) (m : ModuleName) (star : StarImport) (n : Str) : StarState where
  members := st.members.insert (m, n) (some star.rank)
  reExports := st.reExports.insert (m, n) (star.source, n)

theorem StarInv.bind (h : StarInv E graph st) (hedge : (m, star) ∈ E.starEdges)
    (hoffers : E.Offers graph star n)
    (hcan : starCanReplace (st.members.get? (m, n)) star.rank = true) :
    StarInv E graph (bindState st m star n) := by
  have hrelevant : m ∈ E.relevant := mem_relevant.mpr ⟨_, hedge, Or.inl rfl⟩
  -- a star replaces no name of the module's own
  have hfree : (m, n) ∉ E.ownNames := by
    intro hown
    rw [h.own _ hown hrelevant] at hcan
    cases hcan
  refine ⟨?_, ?_, ?_, ?_⟩
  · intro x hown hx
    have hne : x ≠ (m, n) := fun heq => hfree (heq ▸ hown)
    show (st.members.insert _ _).get? x = some none
    rw [Table.get?_insert_of_ne _ _ hne]
    exact h.own x hown hx
  · intro x hx
    replace hx : (st.members.insert (m, n) (some star.rank)).get? x = some none := hx
    rw [Table.get?_insert] at hx
    split at hx
    · cases hx
    · exact h.fixed x hx
  · intro x rank hx
    replace hx : (st.members.insert (m, n) (some star.rank)).get? x = some (some rank) := hx
    -- the new binding has this star behind it, the others their old ones
    show _ ∧ ∃ star', _ ∧ _ ∧ _ ∧ (st.reExports.insert (m, n) (star.source, n)).get? x = _
    rw [Table.get?_insert] at hx ⊢
    split at hx
    · next heq =>
      subst heq
      cases hx
      exact ⟨hfree, star, hedge, rfl, hoffers, if_pos rfl⟩
    · next hne =>
      rw [if_neg hne]
      exact h.bound x rank hx
  · intro x hx
    have hne : x ≠ (m, n) := by
      rintro rfl
      exact hx star.rank (Table.get?_insert_self _ _ _)
    show (st.reExports.insert _ _).get? x = _
    rw [Table.get?_insert_of_ne _ _ hne]
    refine h.unbound x fun rank => ?_
    have hrank := hx rank
    rwa [bindState, Table.get?_insert_of_ne _ _ hne] at hrank

theorem starSlots_bind (hedge : (m, star) ∈ E.starEdges) (hn : n ∈ E.starNames)
    (hcan : starCanReplace (st.members.get? (m, n)) star.rank = true) :
    (E.starSlots (bindState st m star n)).card < (E.starSlots st).card := by
  have hsorted := mem_sortedStarEdges.mpr hedge
  refine Finset.card_lt_card (Finset.ssubset_iff_subset_ne.mpr ⟨?_, ?_⟩)
  · intro slot hslot
    obtain ⟨hmem, hslot⟩ := Finset.mem_filter.mp hslot
    refine Finset.mem_filter.mpr ⟨hmem, ?_⟩
    replace hslot : starCanReplace ((st.members.insert (m, n) (some star.rank)).get? slot.1)
      slot.2 = true := hslot
    rw [Table.get?_insert] at hslot
    split at hslot
    · next heq => exact starCanReplace_trans (heq ▸ hcan) hslot
    · exact hslot
  · -- the slot that was filled is gone
    intro heq
    have hslot : ((m, n), star.rank) ∈ E.starSlots st := by
      refine Finset.mem_filter.mpr ⟨?_, hcan⟩
      simp only [Finset.mem_product, List.mem_toFinset]
      exact ⟨⟨List.mem_map_of_mem hsorted, hn⟩,
        List.mem_map_of_mem (f := fun edge => edge.2.rank) hsorted⟩
    rw [← heq] at hslot
    have hself := (Finset.mem_filter.mp hslot).2
    replace hself : starCanReplace
      ((st.members.insert (m, n) (some star.rank)).get? (m, n)) star.rank = true := hself
    rw [Table.get?_insert_self] at hself
    exact lt_irrefl _ (of_decide_eq_true hself)

end Bind

/-- A step of the loop of the kind `FlagStep` describes. -/
abbrev StarStep (E : Exports) (graph : Finset ModuleName) (acc acc' : Bool × StarState) : Prop :=
  FlagStep (StarInv E graph) (fun st => (E.starSlots st).card) acc acc'

theorem starStep_bindStarName {m : ModuleName} {star : StarImport} {n : Str}
    {acc : Bool × StarState} (hedge : (m, star) ∈ E.starEdges)
    (hlists : E.Lists graph star.source n) (h : StarInv E graph acc.2) :
    StarStep E graph acc (bindStarName graph m star acc n) := by
  unfold bindStarName
  by_cases hcan : starCanReplace (acc.2.members.get? (m, n)) star.rank = true
  · by_cases hgraph : asModuleName (star.source, n) ∈ graph
    · rw [if_neg (by simp [hcan]), if_pos hgraph]
      exact ⟨h, Or.inl rfl⟩
    · rw [if_neg (by simp [hcan]), if_neg hgraph]
      exact ⟨h.bind hedge ⟨hlists, hgraph⟩ hcan,
        Or.inr ⟨rfl, starSlots_bind hedge hlists.mem_starNames hcan⟩⟩
  · rw [if_pos (by simp [hcan])]
    exact ⟨h, Or.inl rfl⟩

theorem starStep_bindStar {edge : ModuleName × StarImport} {acc : Bool × StarState}
    (hedge : edge ∈ E.starEdges) (h : StarInv E graph acc.2) :
    StarStep E graph acc (bindStar graph E.all acc edge) := by
  unfold bindStar
  have hlists : ∀ n ∈ starBoundNames edge.2.source E.all acc.2.members,
      E.Lists graph edge.2.source n := fun n hn => h.lists hn
  exact flagStep_foldl (fun _ h' n hn => starStep_bindStarName hedge (hlists n hn) h') h

theorem starStep_edges {acc : Bool × StarState} (h : StarInv E graph acc.2) :
    StarStep E graph acc (E.sortedStarEdges.foldl (bindStar graph E.all) acc) :=
  flagStep_foldl (fun _ h' _ hedge => starStep_bindStar (mem_sortedStarEdges.mp hedge) h') h

theorem starRound_eq (st : StarState) :
    E.starRound graph st =
      if (E.sortedStarEdges.foldl (bindStar graph E.all) (false, st)).1 then
        some (E.sortedStarEdges.foldl (bindStar graph E.all) (false, st)).2
      else none := rfl

theorem starRound_some {st st' : StarState} (h : StarInv E graph st)
    (hround : E.starRound graph st = some st') :
    StarInv E graph st' ∧ (E.starSlots st').card < (E.starSlots st).card := by
  have hstep : StarStep E graph (false, st)
      (E.sortedStarEdges.foldl (bindStar graph E.all) (false, st)) := starStep_edges h
  rw [starRound_eq] at hround
  split at hround
  · next hflag =>
    cases hround
    rcases hstep.change with heq | ⟨-, hlt⟩
    · rw [heq] at hflag
      cases hflag
    · exact ⟨hstep.inv, hlt⟩
  · cases hround

/-- The loop ends because nothing changes any more. -/
theorem starLoop_rest : E.starRound graph (E.starLoop graph) = none :=
  runRounds_stable_of_inv (P := StarInv E graph) (fun st => (E.starSlots st).card)
    (fun _ _ h hround => starRound_some h hround) starInv_start (card_starSlots_le _)

theorem starInv_starLoop : StarInv E graph (E.starLoop graph) :=
  runRounds_inv (fun _ _ h hround => (starRound_some h hround).1) _ starInv_start

/-! ## At rest -/

/-- No star can bind a name of its source any more. -/
def AtRest (E : Exports) (graph : Finset ModuleName) (st : StarState) : Prop :=
  ∀ m star n, (m, star) ∈ E.starEdges → n ∈ starBoundNames star.source E.all st.members →
    asModuleName (star.source, n) ∉ graph →
    starCanReplace (st.members.get? (m, n)) star.rank = false

/-- A turn of the loop that changes nothing leaves nothing to bind. -/
theorem atRest_of_round {st : StarState} (h : StarInv E graph st)
    (hround : E.starRound graph st = none) : AtRest E graph st := by
  intro m star n hedge hn hgraph
  have hflag : (E.sortedStarEdges.foldl (bindStar graph E.all) (false, st)).1 = false := by
    rw [starRound_eq] at hround
    split at hround
    · cases hround
    · next hflag => exact Bool.eq_false_iff.mpr hflag
  have hstar := (foldl_rest (P := StarInv E graph) (μ := fun st => (E.starSlots st).card)
    (fun _ h' _ hedge => starStep_bindStar (mem_sortedStarEdges.mp hedge) h') h hflag).2
    (m, star) (mem_sortedStarEdges.mpr hedge)
  have hlists : ∀ n ∈ starBoundNames star.source E.all st.members,
      E.Lists graph star.source n := fun n hn => h.lists hn
  have hname := (foldl_rest (P := StarInv E graph) (μ := fun st => (E.starSlots st).card)
    (fun _ h' n hn => starStep_bindStarName hedge (hlists n hn) h') h
    (congrArg Prod.fst hstar)).2 n hn
  by_contra hcan
  rw [bindStarName, if_neg (by simp [hcan]), if_neg hgraph] at hname
  exact absurd (congrArg Prod.fst hname) (by simp)

section Rest

variable {st : StarState} (h : StarInv E graph st) (hrest : AtRest E graph st)

include h hrest

/-- At rest, the names of a module of a star are those it provides. -/
theorem rest_provides {x : Attribute} (hx : E.Provides graph x) (hrelevant : x.1 ∈ E.relevant) :
    (st.members.get? x).isSome := by
  induction hx with
  | own hown =>
    rw [h.own _ hown hrelevant]
    rfl
  | listed hedge hall hn hgraph =>
    refine isSome_of_not_replace (hrest _ _ _ hedge ?_ hgraph)
    simp only [starBoundNames, hall]
    exact hn
  | @passed m star n hedge hall hsource hpublic hgraph ih =>
    refine isSome_of_not_replace (hrest _ _ _ hedge ?_ hgraph)
    have hmember := ih (mem_relevant.mpr ⟨_, hedge, Or.inr rfl⟩)
    exact (mem_starBoundNames_of_none hall).mpr ⟨hmember, hpublic⟩

theorem rest_offers {m : ModuleName} {star : StarImport} {n : Str}
    (hedge : (m, star) ∈ E.starEdges) (hoffers : E.Offers graph star n) :
    starCanReplace (st.members.get? (m, n)) star.rank = false := by
  obtain ⟨hlists, hgraph⟩ := hoffers
  refine hrest _ _ _ hedge ?_ hgraph
  unfold Lists at hlists
  cases hall : E.all.get? star.source with
  | some names =>
    simp only [hall] at hlists
    simp only [starBoundNames, hall]
    exact hlists
  | none =>
    simp only [hall] at hlists
    have hmember := rest_provides h hrest hlists.1 (mem_relevant.mpr ⟨_, hedge, Or.inr rfl⟩)
    exact (mem_starBoundNames_of_none hall).mpr ⟨hmember, hlists.2⟩

/-- At rest, a name is bound by the top star that offers it. -/
theorem rest_bound {x : Attribute} {rank : StarRank}
    (hx : st.members.get? x = some (some rank)) :
    ∃ star, E.TopStar graph x star ∧ st.reExports.get? x = some (star.source, x.2) := by
  obtain ⟨hfree, star, hedge, rfl, hoffers, hre⟩ := h.bound x rank hx
  refine ⟨star, ⟨hedge, hoffers, ?_, hfree⟩, hre⟩
  intro other hother hoffers'
  have hcan := rest_offers h hrest hother hoffers'
  rw [hx] at hcan
  exact not_lt.mp (of_decide_eq_false hcan)

/-- At rest, a name that a top star offers is bound by it. -/
theorem rest_top {x : Attribute} {star : StarImport} (hstar : E.TopStar graph x star) :
    st.reExports.get? x = some (star.source, x.2) := by
  have hmember := isSome_of_not_replace (rest_offers h hrest hstar.edge hstar.offers)
  obtain ⟨value, hvalue⟩ := Option.isSome_iff_exists.mp hmember
  cases value with
  | none => exact absurd (h.fixed x hvalue) hstar.free
  | some rank =>
    obtain ⟨other, hother, hre⟩ := rest_bound h hrest hvalue
    rwa [hstar.unique hother]

/-- The re-exports at rest: those of before, and for every other name the stars of its module
offer, the one of the top star. -/
theorem rest_reExports {x y : Attribute} :
    st.reExports.get? x = some y ↔
      E.reExports.get? x = some y ∨ ∃ star, E.TopStar graph x star ∧ y = (star.source, x.2) := by
  constructor
  · intro hx
    by_cases hbound : ∃ rank, st.members.get? x = some (some rank)
    · obtain ⟨rank, hrank⟩ := hbound
      obtain ⟨star, hstar, hre⟩ := rest_bound h hrest hrank
      exact Or.inr ⟨star, hstar, Option.some.inj (hx.symm.trans hre)⟩
    · rw [h.unbound x fun rank hrank => hbound ⟨rank, hrank⟩] at hx
      exact Or.inl hx
  · rintro (hx | ⟨star, hstar, rfl⟩)
    · -- an explicit re-export is the module's own
      rw [h.unbound x, hx]
      intro rank hrank
      exact (h.bound x rank hrank).1 (mem_ownNames_of_reExport hx)
    · exact rest_top h hrest hstar

end Rest

/-- The re-exports after the expansion: those of before, and for every other name the stars
of its module offer, the one of the top star. -/
theorem get?_expandStarReExports {x y : Attribute} :
    (E.expandStarReExports graph).reExports.get? x = some y ↔
      E.reExports.get? x = some y ∨ ∃ star, E.TopStar graph x star ∧ y = (star.source, x.2) := by
  unfold expandStarReExports
  by_cases hempty : E.starImports.entries.isEmpty = true
  · rw [if_pos hempty]
    refine (or_iff_left ?_).symm
    rintro ⟨star, hstar, -⟩
    obtain ⟨stars, hentry, -⟩ := mem_starEdges.mp hstar.edge
    rw [List.isEmpty_iff.mp hempty] at hentry
    cases hentry
  · rw [if_neg hempty]
    exact rest_reExports starInv_starLoop (atRest_of_round starInv_starLoop starLoop_rest)

/-! ## Following a name -/

/-- Following the name from module to module reaches its definition: by the top star that
offers it, where no definition or explicit re-export binds it, and by the explicit re-export,
where there is one. -/
inductive LeadsToDefinition (E : Exports) (graph : Finset ModuleName) : Attribute → Prop
  | here {x : Attribute} : E.reExports.get? x = none → ¬E.StarBound graph x → E.Defines x →
      LeadsToDefinition E graph x
  | explicit {x y : Attribute} : E.reExports.get? x = some y → LeadsToDefinition E graph y →
      LeadsToDefinition E graph x
  | star {x : Attribute} {star : StarImport} : E.TopStar graph x star →
      LeadsToDefinition E graph (star.source, x.2) → LeadsToDefinition E graph x

/-- Some module defines the name that the stars lead to from the module. -/
def DefinedAcrossStars (E : Exports) (x : Attribute) : Prop :=
  ∃ d, ReflTransGen (fun m d => ∃ star, (m, star) ∈ E.starEdges ∧ star.source = d) x.1 d ∧
    E.Defines (d, x.2)

/-- Every name that the expansion binds through a star, and that a module across the stars
defines, is resolved to a definition. -/
def StarsResolve (E : Exports) (graph : Finset ModuleName) : Prop :=
  ∀ x, E.reExports.get? x = none →
    ((E.expandStarReExports graph).reExports.get? x).isSome → E.DefinedAcrossStars x →
    ∃ y, resolveTransitive (E.expandStarReExports graph).reExports x = some y ∧ E.Defines y

/-- Of the stars that offer a name, one has the highest rank. -/
theorem exists_topStar {x : Attribute} (h : E.StarBound graph x) :
    ∃ star, E.TopStar graph x star := by
  classical
  obtain ⟨hfree, star, hedge, hoffers⟩ := h
  let offering := (E.starEdges.filter fun edge =>
    decide (edge.1 = x.1 ∧ E.Offers graph edge.2 x.2)).toFinset
  have hmem : ∀ edge, edge ∈ offering ↔
      edge ∈ E.starEdges ∧ edge.1 = x.1 ∧ E.Offers graph edge.2 x.2 := by
    intro edge
    simp only [offering, List.mem_toFinset, List.mem_filter, decide_eq_true_eq]
  obtain ⟨⟨m, best⟩, hbest, hmax⟩ := offering.exists_max_image (fun edge => edge.2.rank)
    ⟨(x.1, star), (hmem _).mpr ⟨hedge, rfl, hoffers⟩⟩
  obtain ⟨hbestEdge, rfl, hbestOffers⟩ := (hmem _).mp hbest
  exact ⟨best, hbestEdge, hbestOffers,
    fun other hother hoffers' => hmax (x.1, other) ((hmem _).mpr ⟨hother, rfl, hoffers'⟩), hfree⟩

theorem TopStar.starBound {x : Attribute} {star : StarImport} (h : E.TopStar graph x star) :
    E.StarBound graph x :=
  ⟨h.free, star, h.edge, h.offers⟩

theorem expand_eq_none {x : Attribute} :
    (E.expandStarReExports graph).reExports.get? x = none ↔
      E.reExports.get? x = none ∧ ¬E.StarBound graph x := by
  rw [Option.eq_none_iff_forall_ne_some, Option.eq_none_iff_forall_ne_some]
  simp only [ne_eq, get?_expandStarReExports, not_or, forall_and]
  refine and_congr_right fun _ => ?_
  constructor
  · intro hnone hbound
    obtain ⟨star, hstar⟩ := exists_topStar hbound
    exact hnone _ ⟨star, hstar, rfl⟩
  · rintro hbound y ⟨star, hstar, -⟩
    exact hbound hstar.starBound

/-- The names the expansion binds are those of the stars. -/
theorem starBound_iff {x : Attribute} :
    E.StarBound graph x ↔ E.reExports.get? x = none ∧
      ((E.expandStarReExports graph).reExports.get? x).isSome := by
  have hiff : (E.expandStarReExports graph).reExports.get? x = none ↔
      E.reExports.get? x = none ∧ ¬E.StarBound graph x := expand_eq_none
  constructor
  · intro hbound
    have hnone : E.reExports.get? x = none := by
      cases hx : E.reExports.get? x with
      | none => rfl
      | some y => exact absurd (mem_ownNames_of_reExport hx) hbound.1
    refine ⟨hnone, Option.isSome_iff_ne_none.mpr fun hexpand => ?_⟩
    exact (hiff.mp hexpand).2 hbound
  · rintro ⟨hnone, hsome⟩
    by_contra hbound
    exact Option.isSome_iff_ne_none.mp hsome (hiff.mpr ⟨hnone, hbound⟩)

theorem leadsToDefinition_iff {x : Attribute} :
    E.LeadsToDefinition graph x ↔
      ∃ y, resolveTransitive (E.expandStarReExports graph).reExports x = some y ∧
        E.Defines y := by
  simp only [resolveTransitive_eq_some]
  constructor
  · intro h
    induction h with
    | here hnone hbound hdef =>
      exact ⟨_, (endsAt_stop (expand_eq_none.mpr ⟨hnone, hbound⟩)).mpr rfl, hdef⟩
    | explicit hre _ ih =>
      obtain ⟨y, hends, hdef⟩ := ih
      refine ⟨y, (endsAt_step ?_).mpr hends, hdef⟩
      exact get?_expandStarReExports.mpr (Or.inl hre)
    | star hstar _ ih =>
      obtain ⟨y, hends, hdef⟩ := ih
      refine ⟨y, (endsAt_step ?_).mpr hends, hdef⟩
      exact get?_expandStarReExports.mpr (Or.inr ⟨_, hstar, rfl⟩)
  · rintro ⟨y, ⟨n, hends⟩, hdef⟩
    induction hends with
    | stop hstop =>
      obtain ⟨hnone, hbound⟩ := expand_eq_none.mp hstop
      exact .here hnone hbound hdef
    | step hstep _ ih =>
      rcases get?_expandStarReExports.mp hstep with hre | ⟨star, hstar, rfl⟩
      · exact .explicit hre (ih hdef)
      · exact .star hstar (ih hdef)

/-- The names bound through stars are resolved to their definitions exactly when each of them
leads to a definition by the stars of highest rank. -/
theorem star_names_resolve_iff (E : Exports) (graph : Finset ModuleName) :
    E.starRound graph (E.starLoop graph) = none ∧
      (E.StarsResolve graph ↔ ∀ x, E.StarBound graph x → E.DefinedAcrossStars x →
        E.LeadsToDefinition graph x) := by
  refine ⟨starLoop_rest, ?_⟩
  constructor
  · intro h x hbound hdefined
    obtain ⟨hnone, hsome⟩ := starBound_iff.mp hbound
    exact leadsToDefinition_iff.mpr (h x hnone hsome hdefined)
  · intro h x hnone hsome hdefined
    exact leadsToDefinition_iff.mp (h x (starBound_iff.mpr ⟨hnone, hsome⟩) hdefined)

/-- Two modules that import each other and a third one, the other last. -/
def starCycle : Exports where
  exports := Table.ofList [(fromStr "d.X", .classType)]
  starImports := Table.ofList
    [(fromStr "a", [⟨fromStr "d", 0, false⟩, ⟨fromStr "b", 16, false⟩]),
     (fromStr "b", [⟨fromStr "d", 0, false⟩, ⟨fromStr "a", 16, false⟩])]
  offsets := by decide +kernel

/-- The two modules pick each other, and the definition in the third is never reached. -/
theorem star_cycle_hides_definition : ¬starCycle.StarsResolve ∅ := by
  intro h
  obtain ⟨y, hresolve, -⟩ := h (fromStr "a", fromStr "X") (by decide +kernel) (by decide +kernel)
    ⟨fromStr "d", .single ⟨⟨fromStr "d", 0, false⟩, by decide +kernel, rfl⟩, by
      show _ ∈ _
      decide +kernel⟩
  have hnone : resolveTransitive (starCycle.expandStarReExports ∅).reExports
      (fromStr "a", fromStr "X") = none := by decide +kernel
  rw [hnone] at hresolve
  cases hresolve

end Exports

end Lifeguard
