import Lifeguard.EntryGuards

/-!
# Invariants of the policy

What holds of every run of the policy, in any order of its steps:

- `mem_scanned`, `keys_scanned`: the scan makes a set for each passing node;
- `lazy_eligible_keys`: after each pass the keys are passing modules and all passing nodes
  are keys, and each pass only adds;
- `guards_complete`: the set of a passing module holds every failing module it imports,
  every failing module that a chain of re-exports of an import ends in, every missing
  import, and every other module of an import cycle that its imports run; and no pass up
  to the entry guards puts a module into its own set.
-/

namespace Lifeguard

open Lib ImportGraph

variable {p : ResolvedProgram} {sccs : List (List ModuleName)} {s : Stages} {m x : ModuleName}

/-- The tables of a run, in the order in which they are made. -/
def Stages.tables (s : Stages) : List LazyEligible :=
  [s.scanned, s.cycleDeps, s.entryGuards, s.implicit, s.chains, s.final]

/-! ## The scan -/

/-- Each node is scanned once, in whatever order. -/
theorem PolicyRun.get?_scanned (h : PolicyRun p sccs s) :
    ∃ reMap, ReExportRun p.failing p.reExports reMap ∧ ∀ m, s.scanned.get? m =
      if m ∈ p.nodes ∧ m ∈ p.passing then
        some (failingImportedModules p reMap (p.cycles sccs) m)
      else none := by
  obtain ⟨order, reMap, horder, hmap, hscan⟩ := h.scan
  refine ⟨reMap, hmap, fun m => ?_⟩
  rw [hscan, get?_scan]
  simp only [horder.mem_iff]

theorem PolicyRun.mem_scanned (h : PolicyRun p sccs s) :
    x ∈ s.scanned.setAt m ↔ m ∈ p.nodes ∧ m ∈ p.passing ∧ ScanDep p (p.cycles sccs) m x := by
  obtain ⟨reMap, hmap, hget⟩ := h.get?_scanned
  rw [Table.setAt, hget]
  by_cases hm : m ∈ p.nodes ∧ m ∈ p.passing
  · rw [if_pos hm, Option.getD_some, mem_failingImportedModules hmap]
    exact ⟨fun hx => ⟨hm.1, hm.2, hx⟩, fun hx => hx.2.2⟩
  · rw [if_neg hm]
    exact ⟨fun hx => absurd hx (Finset.notMem_empty x), fun hx => absurd ⟨hx.1, hx.2.1⟩ hm⟩

theorem PolicyRun.keys_scanned (h : PolicyRun p sccs s) :
    m ∈ s.scanned.keys ↔ m ∈ p.nodes ∧ m ∈ p.passing := by
  obtain ⟨reMap, _, hget⟩ := h.get?_scanned
  rw [Table.mem_keys, hget]
  by_cases hm : m ∈ p.nodes ∧ m ∈ p.passing
  · rw [if_pos hm]
    exact ⟨fun _ => hm, fun _ => rfl⟩
  · rw [if_neg hm]
    exact ⟨fun hx => absurd hx (by simp), fun hx => absurd hx hm⟩

/-! ## The keys -/

/-- The keys are passing modules, and every passing node is one. -/
structure KeysOk (p : ResolvedProgram) (t : LazyEligible) : Prop where
  passing : ∀ m ∈ t.keys, m ∈ p.passing
  nodes : ∀ m ∈ p.nodes, m ∈ p.passing → m ∈ t.keys

/-- Nothing is removed, neither a key nor an element of a set. -/
structure GrowsTo (t t' : LazyEligible) : Prop where
  keys : ∀ m ∈ t.keys, m ∈ t'.keys
  sets : ∀ m x, x ∈ t.setAt m → x ∈ t'.setAt m

theorem GrowsTo.trans {t t' t'' : LazyEligible} (h : GrowsTo t t') (h' : GrowsTo t' t'') :
    GrowsTo t t'' where
  keys m hm := h'.keys m (h.keys m hm)
  sets m x hx := h'.sets m x (h.sets m x hx)

theorem Pass.grows {writes : List Write} {before after : LazyEligible}
    (h : Pass writes before after) : GrowsTo before after where
  keys _ hm := h.mem_keys.mpr (Or.inl hm)
  sets _ _ hx := h.mem_setAt.mpr (Or.inl hx)

theorem KeysOk.pass {writes : List Write} {before after : LazyEligible} (hok : KeysOk p before)
    (h : Pass writes before after) (hwrites : ∀ w ∈ writes, w.1 ∈ p.passing) :
    KeysOk p after where
  passing := by
    intro m hm
    rcases h.mem_keys.mp hm with hold | ⟨w, hw, rfl⟩
    · exact hok.passing m hold
    · exact hwrites w hw
  nodes m hm hpass := h.mem_keys.mpr (Or.inl (hok.nodes m hm hpass))

theorem PolicyRun.keysOk_scanned (h : PolicyRun p sccs s) : KeysOk p s.scanned where
  passing _ hm := (h.keys_scanned.mp hm).2
  nodes _ hm hpass := h.keys_scanned.mpr ⟨hm, hpass⟩

/-- The tables of a run only grow. -/
theorem PolicyRun.pairwise_grows (h : PolicyRun p sccs s) : s.tables.Pairwise GrowsTo := by
  have hcycle := h.cycleDeps.grows
  have hentry := h.entryGuards.grows
  have himplicit := h.implicit.grows
  have hchains := h.chains.grows
  have hfinal := h.final.grows
  -- what grows in one pass grows through the passes after it
  have hstep : List.IsChain GrowsTo s.tables := by
    simp only [Stages.tables, List.isChain_cons_cons, List.isChain_singleton, and_true]
    exact ⟨hcycle, hentry, himplicit, hchains, hfinal⟩
  have : IsTrans LazyEligible GrowsTo := ⟨fun _ _ _ => GrowsTo.trans⟩
  exact List.isChain_iff_pairwise.mp hstep

theorem PolicyRun.grows_final (h : PolicyRun p sccs s) {t : LazyEligible}
    (ht : t ∈ s.tables.dropLast) : GrowsTo t s.final := by
  have hpair := h.pairwise_grows
  have hsplit : s.tables = s.tables.dropLast ++ [s.final] := rfl
  rw [hsplit, List.pairwise_append] at hpair
  exact hpair.2.2 t ht s.final (List.mem_singleton_self _)

/-- After each pass the keys are passing modules, all passing nodes are keys, and no pass
removes a key or an element of a set. -/
theorem lazy_eligible_keys (p : ResolvedProgram) (sccs : List (List ModuleName)) (s : Stages)
    (h : PolicyRun p sccs s) :
    (∀ t ∈ s.tables, (∀ m ∈ t.keys, m ∈ p.passing) ∧
      ∀ m ∈ p.nodes, m ∈ p.passing → m ∈ t.keys) ∧
    s.tables.Pairwise GrowsTo := by
  have hscan := h.keysOk_scanned
  have hcycle := hscan.pass h.cycleDeps fun _ => passing_of_mem_cycleDepWrites
  have hentry := hcycle.pass h.entryGuards fun _ => passing_of_mem_entryGuardWrites
  have himplicit := hentry.pass h.implicit fun _ => passing_of_mem_implicitWrites
  have hchains := himplicit.pass h.chains fun _ => passing_of_mem_chainWrites
  have hfinal := hchains.pass h.final fun _ => passing_of_mem_sideEffectWrites
  refine ⟨?_, h.pairwise_grows⟩
  intro t ht
  have hok : KeysOk p t := by
    simp only [Stages.tables, List.mem_cons, List.not_mem_nil, or_false] at ht
    rcases ht with rfl | rfl | rfl | rfl | rfl | rfl
    · exact hscan
    · exact hcycle
    · exact hentry
    · exact himplicit
    · exact hchains
    · exact hfinal
  exact ⟨hok.passing, hok.nodes⟩

/-- A passing node of the sample is a key in the end. -/
theorem lazy_eligible_keys_cross :
    fromStr "x" ∈ (policy crossEntered []).final.keys :=
  ((lazy_eligible_keys crossEntered [] _ (policyRun_policy crossEntered [])).1 _
    (by simp [Stages.tables])).2 _ (by decide +kernel) (by decide +kernel)

/-! ## No module guards itself -/

theorem ScanDep.ne {cycles : List (List ModuleName)} (h : ScanDep p cycles m x)
    (hnode : m ∈ p.nodes) (hpass : m ∈ p.passing) : x ≠ m := by
  have hnotfail : m ∉ p.failing := Finset.disjoint_right.mp p.classified_once hpass
  rintro rfl
  rcases h with ⟨_, hfail⟩ | ⟨_, _, hfail, _⟩ | hmissing | ⟨habove, _⟩
  · exact hnotfail hfail
  · exact hnotfail hfail
  · exact p.missing_unknown x x hmissing hnode
  · exact isAncestorOf_ne (mem_ancestors_tail.mp habove).1 rfl

/-- A child that is a dependency of its package gets the package. -/
theorem CycleDep.ne {cycle : List ModuleName} (h : CycleDep p cycle m x) : x ≠ m := by
  rcases h with ⟨_, _, _, hne, _⟩ | ⟨member, _, ⟨_, hparent, _⟩, d, _, hdep⟩
  · exact hne
  · intro heq
    rw [childDep] at hdep
    split at hdep
    · exact isAncestorOf_ne (isAncestorOf_of_parent hparent) (hdep.trans heq)
    · next hd => exact hd (hdep.trans heq)

theorem PolicyRun.not_self (h : PolicyRun p sccs s) :
    m ∉ s.scanned.setAt m ∧ m ∉ s.cycleDeps.setAt m ∧ m ∉ s.entryGuards.setAt m := by
  have hscan : m ∉ s.scanned.setAt m := by
    intro hm
    obtain ⟨hnode, hpass, hdep⟩ := h.mem_scanned.mp hm
    exact hdep.ne hnode hpass rfl
  have hcycle : m ∉ s.cycleDeps.setAt m := by
    intro hm
    rcases h.cycleDeps.mem_setAt.mp hm with hold | hnew
    · exact hscan hold
    · obtain ⟨c, _, hdep⟩ := written_cycleDepWrites.mp hnew
      exact hdep.ne rfl
  refine ⟨hscan, hcycle, ?_⟩
  intro hm
  rcases h.entryGuards.mem_setAt.mp hm with hold | hnew
  · exact hcycle hold
  · obtain ⟨c, _, hdep⟩ := written_entryGuardWrites.mp hnew
    exact hdep.ne rfl

/-! ## The sets are complete -/

theorem PolicyRun.mem_final_of_scanDep (h : PolicyRun p sccs s) (hnode : m ∈ p.nodes)
    (hpass : m ∈ p.passing) (hdep : ScanDep p (p.cycles sccs) m x) : x ∈ s.final.setAt m :=
  (h.grows_final (by simp [Stages.tables])).sets m x (h.mem_scanned.mpr ⟨hnode, hpass, hdep⟩)

theorem ResolvedProgram.Runs.source_mem (h : p.Runs m x) : m ∈ p.nodes := by
  rcases h with himport | ⟨⟨t, ht, _⟩, _⟩
  · exact himport.source_mem
  · exact ht.source_mem

/-- A member's set holds the other members that its imports run. -/
theorem PolicyRun.mem_final_of_cycle (h : PolicyRun p sccs s) (hsccs : p.importGraph.Sccs sccs)
    (hpass : m ∈ p.passing) (hx : x ∈ p.sourceModules) (hne : x ≠ m) (hruns : p.Runs m x)
    (hmutual : Mutual p.importGraph.CycleEdge m x) : x ∈ s.final.setAt m := by
  have hsource : m ∈ p.sourceModules := Finset.mem_union_left _ hpass
  obtain ⟨c, hc, hmc, hxc⟩ :=
    hsccs.exists_cycle hruns.source_mem hne.symm hmutual hsource hx
  have hdep : CycleDep p c m x := Or.inl ⟨hmc, hpass, hruns, hne, hxc⟩
  have hstage : x ∈ s.cycleDeps.setAt m :=
    h.cycleDeps.mem_setAt.mpr (Or.inr (written_cycleDepWrites.mpr ⟨c, hc, hdep⟩))
  exact (h.grows_final (by simp [Stages.tables])).sets m x hstage

/-- What the set of a passing module holds in the end, and what no set holds up to the
entry guards. The cycles are those along imports, direct or of implicit parents, of other
than a module's own packages. -/
theorem guards_complete (p : ResolvedProgram) (sccs : List (List ModuleName))
    (hsccs : p.importGraph.Sccs sccs) (s : Stages) (h : PolicyRun p sccs s) :
    (∀ m ∈ p.passing,
      (∀ x, p.importGraph.Imports m x → x ∈ p.failing → x ∈ s.final.setAt m) ∧
      (∀ i x, p.importGraph.Imports m i → x ∈ p.failing → EndSource p.reExports.table i x →
        x ∈ s.final.setAt m) ∧
      (∀ x ∈ p.importGraph.missing.setAt m, x ∈ s.final.setAt m) ∧
      (∀ x ∈ p.sourceModules, x ≠ m → p.Runs m x → Mutual p.importGraph.CycleEdge m x →
        x ∈ s.final.setAt m)) ∧
    (∀ m, m ∉ s.scanned.setAt m ∧ m ∉ s.cycleDeps.setAt m ∧ m ∉ s.entryGuards.setAt m) := by
  refine ⟨fun m hpass => ⟨?_, ?_, ?_, ?_⟩, fun m => h.not_self⟩
  · intro x himport hfail
    exact h.mem_final_of_scanDep himport.source_mem hpass (Or.inl ⟨himport, hfail⟩)
  · intro i x himport hfail hend
    exact h.mem_final_of_scanDep himport.source_mem hpass
      (Or.inr (Or.inl ⟨i, himport, hfail, hend⟩))
  · intro x hmissing
    -- only nodes have missing imports
    have hkey : m ∈ p.importGraph.missing.keys := by
      rw [Table.mem_keys]
      cases hget : p.importGraph.missing.get? m with
      | none => exact absurd hmissing (by simp [Table.setAt, hget])
      | some set => rfl
    exact h.mem_final_of_scanDep (p.importGraph.missing_closed m hkey) hpass
      (Or.inr (Or.inr (Or.inl hmissing)))
  · intro x hx hne hruns hmutual
    exact h.mem_final_of_cycle hsccs hpass hx hne hruns hmutual

/-- A package and a module of it that import each other; and a module whose import
re-exports a name of a failing module, which re-exports it of another. -/
def ownPackage : ResolvedProgram where
  classified :=
    { failingModules := {fromStr "mid", fromStr "base"}
      passingModules := {fromStr "pkg", fromStr "pkg.a", fromStr "user", fromStr "hub"} }
  importGraph :=
    { nodes := [fromStr "base", fromStr "mid", fromStr "hub", fromStr "user", fromStr "pkg.a",
        fromStr "pkg"]
      nodes_nodup := by decide
      edges := [(fromStr "mid", fromStr "base"), (fromStr "hub", fromStr "mid"),
        (fromStr "user", fromStr "hub"), (fromStr "pkg", fromStr "pkg.a"),
        (fromStr "pkg.a", fromStr "pkg")]
      edges_closed := by decide
      missing := Table.empty
      missing_closed := by decide }
  reExports := .whole (Table.ofList
    [((fromStr "hub", fromStr "x"), (fromStr "mid", fromStr "x")),
      ((fromStr "mid", fromStr "x"), (fromStr "base", fromStr "x"))])
  sideEffects := .whole Table.empty
  classified_once := by decide
  missing_unknown := by simp [Table.setAt]

/-- Without the edge back to the package no cycle is left. -/
theorem sccs_ownPackage :
    ownPackage.importGraph.Sccs (ownPackage.nodes.map fun m => [m]) := by
  exact sccs_of_order (by decide +kernel)

/-- A module in a cycle with its own package is not guarded by the package, and a failing
module in the middle of a chain of re-exports guards nothing. -/
theorem own_package_unguarded :
    ownPackage.importGraph.Sccs (ownPackage.nodes.map fun m => [m]) ∧
      PolicyRun ownPackage (ownPackage.nodes.map fun m => [m])
        (policy ownPackage (ownPackage.nodes.map fun m => [m])) ∧
      (fromStr "pkg.a" ∈ ownPackage.passing ∧ fromStr "pkg" ∈ ownPackage.sourceModules ∧
        ownPackage.importGraph.Imports (fromStr "pkg.a") (fromStr "pkg") ∧
        ownPackage.importGraph.Imports (fromStr "pkg") (fromStr "pkg.a") ∧
        fromStr "pkg" ∉
          (policy ownPackage (ownPackage.nodes.map fun m => [m])).final.setAt
            (fromStr "pkg.a")) ∧
      (fromStr "user" ∈ ownPackage.passing ∧ fromStr "mid" ∈ ownPackage.failing ∧
        ownPackage.importGraph.Imports (fromStr "user") (fromStr "hub") ∧
        ownPackage.reExports.table.get? (fromStr "hub", fromStr "x") =
          some (fromStr "mid", fromStr "x") ∧
        fromStr "mid" ∉
          (policy ownPackage (ownPackage.nodes.map fun m => [m])).final.setAt
            (fromStr "user")) := by
  refine ⟨sccs_ownPackage, policyRun_policy _ _, ?_, ?_⟩
  · decide +kernel
  · decide +kernel

/-- What the chain of the sample ends in guards the module that imports its start. -/
theorem guards_complete_ownPackage :
    fromStr "base" ∈
      (policy ownPackage (ownPackage.nodes.map fun m => [m])).final.setAt (fromStr "user") := by
  have hcomplete := guards_complete ownPackage _ sccs_ownPackage _ (policyRun_policy _ _)
  refine (hcomplete.1 (fromStr "user") (by decide)).2.1 (fromStr "hub") _ (by decide) (by decide) ?_
  refine ⟨fromStr "x", (fromStr "mid", fromStr "x"), (fromStr "base", fromStr "x"),
    by decide +kernel, ⟨1, .step (b := (fromStr "base", fromStr "x")) ?_ (.stop ?_)⟩, rfl⟩
  · decide +kernel
  · decide +kernel

end Lifeguard
