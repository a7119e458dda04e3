import Lifeguard.Packages
import Lifeguard.Lib.Components
import Lifeguard.Lib.Growth
import Mathlib.Data.Char
import Mathlib.Data.Finset.Sort
import Mathlib.Data.List.Lex

/-!
# The import graph

The modules that were analyzed, with an edge from each to the modules it imports
(`imports.rs`, `graph.rs`). An import of a module that is no node is kept apart, as
missing. Importing a module also runs the packages above it: these are its implicit
parent imports. The components of the graph are those of a library for graphs, which
the model takes as given (`Lib.IsSccs`).

- `resolveMissingToKnown`: what is missing in the end is no node (`mem_missing_resolve`);
- `mem_implicitParentsOf`: the walk that stops at the first package already seen finds
  every implicit parent import, and `nodup_implicitParentsOf`: finds it once;
- `ImportGraph.CycleEdge`: the edges along which cycles are looked for, those to a
  module's own packages left out;
- `mem_collectCycles`: which modules share an import cycle.
-/

namespace Lifeguard

open Lib

/-- `ImportGraph`: the nodes, the edges, and for each node the imports that are no
nodes. -/
structure ImportGraph where
  nodes : List ModuleName
  nodes_nodup : nodes.Nodup
  edges : List (ModuleName × ModuleName)
  edges_closed : ∀ e ∈ edges, e.1 ∈ nodes ∧ e.2 ∈ nodes
  missing : Table ModuleName (Finset ModuleName)
  missing_closed : ∀ m ∈ missing.keys, m ∈ nodes

namespace ImportGraph

/-- The first module imports the second. -/
def Imports (g : ImportGraph) (m n : ModuleName) : Prop := (m, n) ∈ g.edges

instance (g : ImportGraph) (m n : ModuleName) : Decidable (g.Imports m n) :=
  inferInstanceAs (Decidable ((m, n) ∈ g.edges))

/-- `get_imports`. -/
def getImports (g : ImportGraph) (name : ModuleName) : List ModuleName :=
  (g.edges.filter fun e => e.1 = name).map Prod.snd

/-- `get_importers`. -/
def getImporters (g : ImportGraph) (name : ModuleName) : List ModuleName :=
  (g.edges.filter fun e => e.2 = name).map Prod.fst

/-- `get_missing_imports`. -/
def getMissingImports (g : ImportGraph) (name : ModuleName) : Option (Finset ModuleName) :=
  g.missing.get? name

variable {g : ImportGraph} {m n p : ModuleName}

@[simp] theorem mem_getImports : n ∈ g.getImports m ↔ g.Imports m n := by
  rw [getImports, Imports, List.mem_map]
  constructor
  · rintro ⟨⟨a, b⟩, hmem, rfl⟩
    obtain ⟨hedge, hm⟩ := List.mem_filter.mp hmem
    exact of_decide_eq_true hm ▸ hedge
  · intro h
    exact ⟨(m, n), List.mem_filter.mpr ⟨h, decide_eq_true rfl⟩, rfl⟩

@[simp] theorem mem_getImporters : m ∈ g.getImporters n ↔ g.Imports m n := by
  rw [getImporters, Imports, List.mem_map]
  constructor
  · rintro ⟨⟨a, b⟩, hmem, rfl⟩
    obtain ⟨hedge, hn⟩ := List.mem_filter.mp hmem
    exact of_decide_eq_true hn ▸ hedge
  · intro h
    exact ⟨(m, n), List.mem_filter.mpr ⟨h, decide_eq_true rfl⟩, rfl⟩

theorem Imports.source_mem (h : g.Imports m n) : m ∈ g.nodes := (g.edges_closed _ h).1

/-! ## Missing imports that are known after all -/

/-- `try_add_edge`: an edge that is new and not from a module to itself. Its source is a
node, as every module with missing imports is. -/
def tryAddEdge (g : ImportGraph) (source target : ModuleName) : ImportGraph :=
  if source = target ∨ g.Imports source target then g
  else if h : source ∈ g.nodes ∧ target ∈ g.nodes then
    { g with
      edges := g.edges ++ [(source, target)]
      edges_closed := by
        intro e he
        rcases List.mem_append.mp he with hold | hnew
        · exact g.edges_closed e hold
        · rw [List.mem_singleton.mp hnew]
          exact h }
  else g

/-- `add_missing`, of a node. -/
def addMissing (g : ImportGraph) (source target : ModuleName) : ImportGraph :=
  if h : source ∈ g.nodes then
    { g with
      missing := g.missing.extend source {target}
      missing_closed := by
        intro m hm
        rcases Table.mem_keys_extend.mp hm with hold | heq
        · exact g.missing_closed m hold
        · exact heq ▸ h }
  else g

/-- One missing import in `resolve_missing_to_known`: an edge to the nearest package above
it that is a node, or still missing. -/
def resolveMissing (known : List ModuleName) (g : ImportGraph)
    (imp : ModuleName × ModuleName) : ImportGraph :=
  match resolveToKnownModule imp.2 fun name => decide (name ∈ known) with
  | some resolved => g.tryAddEdge imp.1 resolved
  | none => g.addMissing imp.1 imp.2

/-- The missing imports, one by one. -/
def missingImports (g : ImportGraph) : List (ModuleName × ModuleName) :=
  g.missing.entries.flatMap fun entry => (entry.2.sort).map fun target => (entry.1, target)

/-- `std::mem::take` of the missing imports. -/
def takeMissing (g : ImportGraph) : ImportGraph :=
  { g with
    missing := Table.empty
    missing_closed := fun _ hm => absurd hm List.not_mem_nil }

/-- `resolve_missing_to_known`. -/
def resolveMissingToKnown (g : ImportGraph) : ImportGraph :=
  g.missingImports.foldl (resolveMissing g.nodes) g.takeMissing

theorem nodes_tryAddEdge : (g.tryAddEdge m n).nodes = g.nodes := by
  unfold tryAddEdge
  split
  · rfl
  · split <;> rfl

theorem missing_tryAddEdge : (g.tryAddEdge m n).missing = g.missing := by
  unfold tryAddEdge
  split
  · rfl
  · split <;> rfl

theorem not_known_of_resolve {known : ModuleName → Bool} (h : resolveToKnownModule m known = none) :
    known m = false := by
  rw [resolveToKnownModule] at h
  split at h
  · exact absurd h (by simp)
  · next hnot => exact Bool.eq_false_iff.mpr hnot

/-- The nodes stay, and what is still missing is none of them. -/
theorem resolveMissing_spec {known : List ModuleName} (imp : ModuleName × ModuleName)
    (hmissing : ∀ m t, t ∈ g.missing.setAt m → t ∉ known) :
    (resolveMissing known g imp).nodes = g.nodes ∧
      ∀ m t, t ∈ (resolveMissing known g imp).missing.setAt m → t ∉ known := by
  unfold resolveMissing
  split
  · next resolved _ =>
    refine ⟨nodes_tryAddEdge, ?_⟩
    rw [missing_tryAddEdge]
    exact hmissing
  · next hnone =>
    unfold addMissing
    split
    · refine ⟨rfl, ?_⟩
      intro m t ht
      rcases Table.mem_setAt_extend.mp ht with hold | ⟨_, hnew⟩
      · exact hmissing m t hold
      · rw [Finset.mem_singleton.mp hnew]
        exact of_decide_eq_false (not_known_of_resolve hnone)
    · exact ⟨rfl, hmissing⟩

theorem resolveMissing_foldl {known : List ModuleName} {imps : List (ModuleName × ModuleName)}
    (hmissing : ∀ m t, t ∈ g.missing.setAt m → t ∉ known) :
    (imps.foldl (resolveMissing known) g).nodes = g.nodes ∧
      ∀ m t, t ∈ (imps.foldl (resolveMissing known) g).missing.setAt m → t ∉ known := by
  induction imps generalizing g with
  | nil => exact ⟨rfl, hmissing⟩
  | cons imp rest ih =>
    obtain ⟨hnodes, hstill⟩ := resolveMissing_spec imp hmissing
    obtain ⟨hnodes', hstill'⟩ := ih hstill
    exact ⟨hnodes'.trans hnodes, hstill'⟩

theorem resolveMissingToKnown_spec :
    g.resolveMissingToKnown.nodes = g.nodes ∧
      ∀ m t, t ∈ g.resolveMissingToKnown.missing.setAt m → t ∉ g.nodes := by
  refine resolveMissing_foldl (g := g.takeMissing) ?_
  intro m t ht
  exact absurd ht (by simp [takeMissing, Table.setAt])

/-- What is still missing is no node. -/
theorem mem_missing_resolve {t : ModuleName}
    (h : t ∈ g.resolveMissingToKnown.missing.setAt m) : t ∉ g.resolveMissingToKnown.nodes := by
  rw [resolveMissingToKnown_spec.1]
  exact resolveMissingToKnown_spec.2 m t h

/-! ## Implicit parent imports -/

/-- A walk up the packages of one imported module, up to the first that was seen. -/
def pushParents (keep : ModuleName → Bool) :
    List ModuleName → Finset ModuleName × List ModuleName → Finset ModuleName × List ModuleName
  | [], st => st
  | pkg :: rest, (seen, parents) =>
    if pkg ∈ seen then (seen, parents)
    else
      pushParents keep rest
        (insert pkg seen, if keep pkg then parents ++ [pkg] else parents)

/-- Namespace packages are not nodes, and the importer's own packages ran already. -/
def keepsParent (g : ImportGraph) (importer pkg : ModuleName) : Bool :=
  decide (pkg ∈ g.nodes) && decide (pkg ≠ importer) && !isAncestorOf pkg importer

/-- The list `implicit_parent_imports` makes for one importer. -/
def implicitParentsOf (g : ImportGraph) (importer : ModuleName) : List ModuleName :=
  ((g.getImports importer).foldl
    (fun st target => pushParents (g.keepsParent importer) (ancestors target) st) (∅, [])).2

/-- `implicit_parent_imports`: the lists that are not empty. -/
def implicitParentImports (g : ImportGraph) : Table ModuleName (List ModuleName) :=
  Table.ofList (g.nodes.filterMap fun importer =>
    let parents := g.implicitParentsOf importer
    if parents = [] then none else some (importer, parents))

/-- What holds between two walks: a package that was seen was seen with all those above
it, and of those seen exactly the ones to keep were pushed, each once. -/
structure ParentsInv (keep : ModuleName → Bool) (st : Finset ModuleName × List ModuleName) :
    Prop where
  closed : ∀ a ∈ st.1, ∀ b, isAncestorOf b a = true → b ∈ st.1
  pushed : ∀ a, a ∈ st.2 ↔ a ∈ st.1 ∧ keep a = true
  nodup : st.2.Nodup

/-- A walk up a list of packages sees all of them, when those after a seen one are seen. -/
theorem pushParents_spec {keep : ModuleName → Bool} {l : List ModuleName}
    (seen : Finset ModuleName) (parents : List ModuleName) (hl : l.Nodup)
    (hseen : l.Pairwise fun a b => a ∈ seen → b ∈ seen)
    (hpushed : ∀ a, a ∈ parents ↔ a ∈ seen ∧ keep a = true) (hnodup : parents.Nodup) :
    (pushParents keep l (seen, parents)).1 = seen ∪ l.toFinset ∧
      (∀ a, a ∈ (pushParents keep l (seen, parents)).2 ↔
        a ∈ seen ∪ l.toFinset ∧ keep a = true) ∧
      (pushParents keep l (seen, parents)).2.Nodup := by
  induction l generalizing seen parents with
  | nil =>
    rw [pushParents, List.toFinset_nil, Finset.union_empty]
    exact ⟨rfl, hpushed, hnodup⟩
  | cons pkg rest ih =>
    obtain ⟨hfresh, hrest⟩ := List.nodup_cons.mp hl
    obtain ⟨hafter, hseen'⟩ := List.pairwise_cons.mp hseen
    rw [pushParents]
    by_cases hpkg : pkg ∈ seen
    · -- the walk stops: everything further up was seen
      rw [if_pos hpkg]
      have hall : seen ∪ (pkg :: rest).toFinset = seen := by
        refine Finset.union_eq_left.mpr fun a ha => ?_
        rcases List.mem_cons.mp (List.mem_toFinset.mp ha) with rfl | hmem
        · exact hpkg
        · exact hafter a hmem hpkg
      rw [hall]
      exact ⟨rfl, hpushed, hnodup⟩
    · rw [if_neg hpkg]
      have hnew : pkg ∉ parents := fun hmem => hpkg ((hpushed pkg).mp hmem).1
      have hunion : insert pkg seen ∪ rest.toFinset = seen ∪ (pkg :: rest).toFinset := by
        rw [List.toFinset_cons, Finset.insert_union, Finset.union_insert]
      rw [← hunion]
      refine ih _ _ hrest ?_ ?_ ?_
      · -- what follows a package on the walk is above it, and no package comes twice
        refine hseen'.imp_of_mem ?_
        intro a b ha _ himp hmem
        rcases Finset.mem_insert.mp hmem with rfl | hold
        · exact absurd ha hfresh
        · exact Finset.mem_insert_of_mem (himp hold)
      · intro a
        by_cases hkeep : keep pkg = true
        · rw [if_pos hkeep, List.mem_append, List.mem_singleton, hpushed, Finset.mem_insert]
          constructor
          · rintro (⟨hold, hk⟩ | rfl)
            · exact ⟨Or.inr hold, hk⟩
            · exact ⟨Or.inl rfl, hkeep⟩
          · rintro ⟨rfl | hold, hk⟩
            · exact Or.inr rfl
            · exact Or.inl ⟨hold, hk⟩
        · rw [if_neg hkeep, hpushed, Finset.mem_insert]
          constructor
          · rintro ⟨hold, hk⟩
            exact ⟨Or.inr hold, hk⟩
          · rintro ⟨rfl | hold, hk⟩
            · exact absurd hk hkeep
            · exact ⟨hold, hk⟩
      · by_cases hkeep : keep pkg = true
        · rw [if_pos hkeep]
          refine List.nodup_append.mpr ⟨hnodup, List.nodup_singleton pkg, ?_⟩
          intro a ha b hb heq
          exact hnew (List.mem_singleton.mp hb ▸ heq ▸ ha)
        · rw [if_neg hkeep]
          exact hnodup

theorem ParentsInv.step {keep : ModuleName → Bool} {st : Finset ModuleName × List ModuleName}
    (hinv : ParentsInv keep st) (target : ModuleName) :
    ParentsInv keep (pushParents keep (ancestors target) st) ∧
      (pushParents keep (ancestors target) st).1 = st.1 ∪ (ancestors target).toFinset := by
  have hwalk : (ancestors target).Pairwise fun a b => a ∈ st.1 → b ∈ st.1 :=
    (ancestors_pairwise target).imp fun habove ha => hinv.closed _ ha _ habove
  obtain ⟨hseen, hpushed, hnodup⟩ := pushParents_spec st.1 st.2
    (ancestors_nodup target) hwalk hinv.pushed hinv.nodup
  refine ⟨⟨?_, ?_, hnodup⟩, hseen⟩
  · rw [hseen]
    intro a ha b hb
    rcases Finset.mem_union.mp ha with hold | hnew
    · exact Finset.mem_union_left _ (hinv.closed a hold b hb)
    · have habove := mem_ancestors.mp (List.mem_toFinset.mp hnew)
      exact Finset.mem_union_right _
        (List.mem_toFinset.mpr (mem_ancestors.mpr (isAncestorOf_trans hb habove)))
  · rw [hseen]
    exact hpushed

theorem ParentsInv.foldl {keep : ModuleName → Bool} {st : Finset ModuleName × List ModuleName}
    (hinv : ParentsInv keep st) (targets : List ModuleName) :
    ParentsInv keep
        (targets.foldl (fun st target => pushParents keep (ancestors target) st) st) ∧
      ∀ a, a ∈ (targets.foldl (fun st target => pushParents keep (ancestors target) st) st).1 ↔
        a ∈ st.1 ∨ ∃ t ∈ targets, isAncestorOf a t = true := by
  induction targets generalizing st with
  | nil => exact ⟨hinv, by simp⟩
  | cons target rest ih =>
    obtain ⟨hnext, hseen⟩ := hinv.step target
    obtain ⟨hend, hmem⟩ := ih hnext
    refine ⟨hend, fun a => ?_⟩
    show a ∈ (rest.foldl _ (pushParents keep (ancestors target) st)).1 ↔ _
    rw [hmem, hseen, Finset.mem_union, List.mem_toFinset, mem_ancestors,
      List.exists_mem_cons_iff, or_assoc]

theorem parentsInv_empty (keep : ModuleName → Bool) : ParentsInv keep (∅, []) where
  closed := by simp
  pushed := by simp
  nodup := List.nodup_nil

/-- The first module's imports run the package `p`, and its own import did not. -/
def ImplicitParent (g : ImportGraph) (m p : ModuleName) : Prop :=
  (∃ t, g.Imports m t ∧ isAncestorOf p t = true) ∧
    p ∈ g.nodes ∧ p ≠ m ∧ isAncestorOf p m = false

/-- The walks find exactly the implicit parent imports. -/
theorem mem_implicitParentsOf : p ∈ g.implicitParentsOf m ↔ g.ImplicitParent m p := by
  obtain ⟨hinv, hseen⟩ := (parentsInv_empty (g.keepsParent m)).foldl (g.getImports m)
  rw [implicitParentsOf, hinv.pushed, hseen, ImplicitParent]
  simp [keepsParent, and_assoc]

theorem nodup_implicitParentsOf : (g.implicitParentsOf m).Nodup :=
  ((parentsInv_empty (g.keepsParent m)).foldl (g.getImports m)).1.nodup

theorem implicitParentsOf_of_not_mem (h : m ∉ g.nodes) : g.implicitParentsOf m = [] := by
  refine List.eq_nil_iff_forall_not_mem.mpr fun p hp => ?_
  obtain ⟨⟨t, ht, _⟩, _⟩ := mem_implicitParentsOf.mp hp
  exact h ht.source_mem

theorem implicitParentImports_keys :
    ((g.nodes.filterMap fun importer =>
      let parents := g.implicitParentsOf importer
      if parents = [] then none else some (importer, parents)).map Prod.fst).Nodup := by
  refine (g.nodes_nodup.sublist ?_)
  generalize g.nodes = nodes
  induction nodes with
  | nil => exact List.Sublist.refl _
  | cons a rest ih =>
    rw [List.filterMap_cons]
    by_cases hempty : g.implicitParentsOf a = []
    · simp only [hempty, if_true]
      exact ih.cons a
    · simp only [hempty, if_false, List.map_cons]
      exact ih.cons_cons a

/-- What a lookup in the table answers. -/
theorem get?_implicitParentImports {parents : List ModuleName} :
    g.implicitParentImports.get? m = some parents ↔
      parents = g.implicitParentsOf m ∧ parents ≠ [] := by
  rw [implicitParentImports, Table.get?_ofList implicitParentImports_keys, List.mem_filterMap]
  constructor
  · rintro ⟨a, _, ha⟩
    by_cases hempty : g.implicitParentsOf a = []
    · simp [hempty] at ha
    · simp only [hempty, if_false, Option.some.injEq, Prod.mk.injEq] at ha
      obtain ⟨rfl, rfl⟩ := ha
      exact ⟨rfl, hempty⟩
  · rintro ⟨rfl, hne⟩
    refine ⟨m, ?_, by simp [hne]⟩
    by_contra hnode
    exact hne (implicitParentsOf_of_not_mem hnode)

theorem mem_get?_implicitParentImports :
    (∃ parents, g.implicitParentImports.get? m = some parents ∧ p ∈ parents) ↔
      g.ImplicitParent m p := by
  rw [← mem_implicitParentsOf]
  constructor
  · rintro ⟨parents, hget, hp⟩
    exact (get?_implicitParentImports.mp hget).1 ▸ hp
  · intro hp
    exact ⟨_, get?_implicitParentImports.mpr ⟨rfl, List.ne_nil_of_mem hp⟩, hp⟩

/-- What `implicit_parent_imports` lists for a module: each once, the nodes that are packages
above some module it imports and neither it nor a package above it. -/
theorem implicitParentImports_exact (g : ImportGraph) (m : ModuleName) :
    g.implicitParentImports.get? m ≠ some [] ∧
      ((g.implicitParentImports.get? m).getD []).Nodup ∧
      ∀ p, p ∈ (g.implicitParentImports.get? m).getD [] ↔
        p ∈ g.nodes ∧ (∃ t r, g.Imports m t ∧ t = appendStr p r) ∧
          p ≠ m ∧ ¬ ∃ r, m = appendStr p r := by
  have hspec : ∀ p, g.ImplicitParent m p ↔
      p ∈ g.nodes ∧ (∃ t r, g.Imports m t ∧ t = appendStr p r) ∧
        p ≠ m ∧ ¬ ∃ r, m = appendStr p r := by
    intro p
    rw [ImplicitParent, ← Bool.not_eq_true, isAncestorOf_iff]
    simp only [isAncestorOf_iff, exists_and_left]
    exact ⟨fun ⟨ht, hp, hrest⟩ => ⟨hp, ht, hrest⟩, fun ⟨hp, ht, hrest⟩ => ⟨ht, hp, hrest⟩⟩
  cases hget : g.implicitParentImports.get? m with
  | none =>
    refine ⟨by simp, List.nodup_nil, fun p => ?_⟩
    rw [← hspec, ← mem_get?_implicitParentImports, hget]
    simp
  | some parents =>
    obtain ⟨rfl, hne⟩ := get?_implicitParentImports.mp hget
    refine ⟨by simpa using hne, nodup_implicitParentsOf, fun p => ?_⟩
    rw [← hspec]
    exact mem_implicitParentsOf

/-! ## Cycles -/

/-- The edges `find_cycles` looks at: those of the graph and those of `extra` between nodes,
without the ones to a module's own package, which CPython runs first. -/
def keptEdges (g : ImportGraph) (extra : Table ModuleName (List ModuleName)) :
    List (ModuleName × ModuleName) :=
  (g.edges ++ extra.entries.flatMap fun entry =>
    if entry.1 ∈ g.nodes then
      (entry.2.filter fun target => decide (target ∈ g.nodes)).map fun target => (entry.1, target)
    else []).filter fun e => !isAncestorOf e.2 e.1

/-- An import, direct or of an implicit parent, that is not of the module's own package. -/
def CycleEdge (g : ImportGraph) (m n : ModuleName) : Prop :=
  (g.Imports m n ∨ g.ImplicitParent m n) ∧ isAncestorOf n m = false

theorem mem_keptEdges : (m, n) ∈ g.keptEdges g.implicitParentImports ↔ g.CycleEdge m n := by
  rw [keptEdges, List.mem_filter, List.mem_append, CycleEdge]
  refine and_congr (or_congr_right ?_) (by simp)
  rw [← mem_get?_implicitParentImports, List.mem_flatMap]
  constructor
  · rintro ⟨⟨a, parents⟩, hentry, hmem⟩
    have hget := Table.mem_entries.mp hentry
    have hnode : a ∈ g.nodes := by
      by_contra hnot
      rw [if_neg hnot] at hmem
      exact absurd hmem List.not_mem_nil
    rw [if_pos hnode] at hmem
    obtain ⟨target, htarget, heq⟩ := List.mem_map.mp hmem
    cases heq
    exact ⟨parents, hget, (List.mem_filter.mp htarget).1⟩
  · rintro ⟨parents, hget, hn⟩
    have himplicit := mem_get?_implicitParentImports.mp ⟨parents, hget, hn⟩
    obtain ⟨⟨t, ht, _⟩, hnode, _⟩ := himplicit
    refine ⟨(m, parents), Table.mem_entries.mpr hget, ?_⟩
    rw [if_pos ht.source_mem]
    exact List.mem_map.mpr ⟨n, List.mem_filter.mpr ⟨hn, decide_eq_true hnode⟩, rfl⟩

/-- What `kosaraju_scc` answers on the kept edges. -/
def Sccs (g : ImportGraph) (sccs : List (List ModuleName)) : Prop :=
  IsSccs g.nodes (fun m n => (m, n) ∈ g.keptEdges g.implicitParentImports) sccs

/-- `multi_node_sccs`: a module that imports itself is no cycle. -/
def multiNodeSccs (sccs : List (List ModuleName)) : List (List ModuleName) :=
  sccs.filter fun scc => 1 < scc.length

/-- `collect_cycles`: the cycles, of each the modules that have sources. -/
def collectCycles (sccs : List (List ModuleName)) (sourceModules : Finset ModuleName) :
    List (List ModuleName) :=
  (multiNodeSccs sccs).filterMap fun cycle =>
    let members := cycle.filter fun name => decide (name ∈ sourceModules)
    if members = [] then none else some members

theorem mem_collectCycles {sccs : List (List ModuleName)} {sourceModules : Finset ModuleName}
    {c : List ModuleName} :
    c ∈ collectCycles sccs sourceModules ↔
      ∃ scc ∈ sccs, 1 < scc.length ∧ c ≠ [] ∧
        c = scc.filter fun name => decide (name ∈ sourceModules) := by
  rw [collectCycles, List.mem_filterMap]
  constructor
  · rintro ⟨scc, hscc, h⟩
    obtain ⟨hmem, hlen⟩ := List.mem_filter.mp hscc
    by_cases hempty : (scc.filter fun name => decide (name ∈ sourceModules)) = []
    · simp [hempty] at h
    · simp only [hempty, if_false, Option.some.injEq] at h
      exact ⟨scc, hmem, of_decide_eq_true hlen, h ▸ hempty, h.symm⟩
  · rintro ⟨scc, hscc, hlen, hne, rfl⟩
    exact ⟨scc, List.mem_filter.mpr ⟨hscc, decide_eq_true hlen⟩, by simp [hne]⟩

theorem Sccs.mutual {sccs : List (List ModuleName)} (h : g.Sccs sccs) :
    IsSccs g.nodes g.CycleEdge sccs := by
  have hedge : (fun m n => (m, n) ∈ g.keptEdges g.implicitParentImports) = g.CycleEdge :=
    funext fun m => funext fun n => propext mem_keptEdges
  rwa [Sccs, hedge] at h

/-- In a graph listed from the imported modules up no two modules share a component. -/
theorem sccs_of_order (h : ∀ e ∈ g.keptEdges g.implicitParentImports,
    g.nodes.idxOf e.2 < g.nodes.idxOf e.1) : g.Sccs (g.nodes.map fun m => [m]) :=
  IsSccs.of_rank (fun m => g.nodes.idxOf m) fun a b hab => h (a, b) hab

/-- Two modules with sources that reach each other share a cycle. -/
theorem Sccs.exists_cycle {sccs : List (List ModuleName)} (h : g.Sccs sccs)
    {sourceModules : Finset ModuleName} (hm : m ∈ g.nodes) (hne : m ≠ n)
    (hmutual : Mutual g.CycleEdge m n) (hms : m ∈ sourceModules) (hns : n ∈ sourceModules) :
    ∃ c ∈ collectCycles sccs sourceModules, m ∈ c ∧ n ∈ c := by
  obtain ⟨scc, hscc, hmem⟩ := h.mutual.exists_mem hm
  have hmm : m ∈ scc := (hmem m).mpr (Mutual.refl _ m)
  have hmn : n ∈ scc := (hmem n).mpr hmutual
  have hfilter : ∀ a ∈ scc, a ∈ sourceModules →
      a ∈ scc.filter fun name => decide (name ∈ sourceModules) := fun a ha hsource =>
    List.mem_filter.mpr ⟨ha, decide_eq_true hsource⟩
  refine ⟨_, mem_collectCycles.mpr ⟨scc, hscc, IsSccs.one_lt_length hmm hmn hne, ?_, rfl⟩, ?_⟩
  · exact List.ne_nil_of_mem (hfilter m hmm hms)
  · exact ⟨hfilter m hmm hms, hfilter n hmn hns⟩

end ImportGraph

end Lifeguard
