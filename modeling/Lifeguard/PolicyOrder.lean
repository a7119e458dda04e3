import Lifeguard.ChainGuards
import Lifeguard.PolicyInvariants

/-!
# The policy does not depend on the order

Two runs of the policy on one resolved program, each visiting modules, cycles, targets,
consumers and the entries of the hash maps in an order of its own, make the same table.

- `SameProgram`: the same nodes, edges, verdicts, re-exports and implicit and side-effect
  imports, each listed in some order;
- `SameProgram.cycles`: the components may come in any order, and the members of each;
- `ScanDep.congr`, `CycleDep.congr`, `EntryDep.congr`, `chainTo_congr`: what each pass
  writes is the same;
- `Pass.same`: a pass that writes the same to the same table makes the same table, from
  which `policy_order_free` follows pass by pass.
-/

namespace Lifeguard

open Lib ImportGraph

/-- One resolved program, listed in two ways. -/
structure SameProgram (p p' : ResolvedProgram) : Prop where
  nodes : p.nodes.Perm p'.nodes
  edges : ∀ e, e ∈ p.importGraph.edges ↔ e ∈ p'.importGraph.edges
  missing : ∀ m, p.importGraph.missing.get? m = p'.importGraph.missing.get? m
  passing : p.passing = p'.passing
  failing : p.failing = p'.failing
  implicitKeys : ∀ m, m ∈ p.classified.implicitImports.keys ↔
    m ∈ p'.classified.implicitImports.keys
  implicitImports : ∀ m x, ImplicitImport p m x ↔ ImplicitImport p' m x
  reExports : ∀ a, p.reExports.table.get? a = p'.reExports.table.get? a
  sideEffects : ∀ e, e ∈ p.sideEffects.entries ↔ e ∈ p'.sideEffects.entries

/-- The two lists of cycles hold the same ones. -/
def SameCycles (cycles cycles' : List (List ModuleName)) : Prop :=
  (∀ c ∈ cycles, ∃ c' ∈ cycles', c.Perm c') ∧ ∀ c' ∈ cycles', ∃ c ∈ cycles, c.Perm c'

/-- The two tables answer the same. -/
def SameTable (t t' : LazyEligible) : Prop := ∀ m, t.get? m = t'.get? m

theorem SameTable.mem_setAt {t t' : LazyEligible} (h : SameTable t t') {m x : ModuleName} :
    x ∈ t.setAt m ↔ x ∈ t'.setAt m := by
  rw [Table.setAt, Table.setAt, h m]

theorem SameTable.mem_keys {t t' : LazyEligible} (h : SameTable t t') {m : ModuleName} :
    m ∈ t.keys ↔ m ∈ t'.keys := by
  rw [Table.mem_keys, Table.mem_keys, h m]

/-- Passes that write the same to the same table. -/
theorem Pass.same {writes writes' : List Write} {before before' after after' : LazyEligible}
    (h : Pass writes before after) (h' : Pass writes' before' after')
    (hbefore : SameTable before before')
    (hsets : ∀ m x, Written writes m x ↔ Written writes' m x)
    (hkeys : ∀ m, (∃ w ∈ writes, w.1 = m) ↔ ∃ w ∈ writes', w.1 = m) :
    SameTable after after' := by
  intro m
  refine Table.get?_congr ?_ ?_
  · rw [h.mem_keys, h'.mem_keys, hbefore.mem_keys, hkeys]
  · intro x
    rw [h.mem_setAt, h'.mem_setAt, hbefore.mem_setAt, hsets]

/-- When no write is empty, what is written says what is written to. -/
theorem Pass.same_of_nonempty {writes writes' : List Write}
    {before before' after after' : LazyEligible} (h : Pass writes before after)
    (h' : Pass writes' before' after') (hbefore : SameTable before before')
    (hsets : ∀ m x, Written writes m x ↔ Written writes' m x)
    (hne : ∀ w ∈ writes, w.2.Nonempty) (hne' : ∀ w ∈ writes', w.2.Nonempty) :
    SameTable after after' := by
  refine h.same h' hbefore hsets fun m => ?_
  rw [mem_keys_iff_written hne, mem_keys_iff_written hne']
  exact exists_congr fun x => hsets m x

namespace SameProgram

variable {p p' : ResolvedProgram} {m n x : ModuleName}

theorem imports (h : SameProgram p p') :
    p.importGraph.Imports m n ↔ p'.importGraph.Imports m n :=
  h.edges (m, n)

theorem mem_nodes (h : SameProgram p p') : m ∈ p.nodes ↔ m ∈ p'.nodes := h.nodes.mem_iff

theorem implicitParent (h : SameProgram p p') :
    p.importGraph.ImplicitParent m n ↔ p'.importGraph.ImplicitParent m n := by
  unfold ImplicitParent
  rw [h.nodes.mem_iff]
  simp only [h.imports]

theorem runs (h : SameProgram p p') : p.Runs m n ↔ p'.Runs m n :=
  or_congr h.imports h.implicitParent

theorem cycleEdge (h : SameProgram p p') :
    p.importGraph.CycleEdge m n ↔ p'.importGraph.CycleEdge m n :=
  and_congr_left fun _ => or_congr h.imports h.implicitParent

theorem sourceModules (h : SameProgram p p') : p.sourceModules = p'.sourceModules := by
  rw [ResolvedProgram.sourceModules, ResolvedProgram.sourceModules, h.passing, h.failing]

theorem endSource (h : SameProgram p p') :
    EndSource p.reExports.table m n ↔ EndSource p'.reExports.table m n := by
  have htable : p.reExports.table.get? = p'.reExports.table.get? := funext h.reExports
  rw [EndSource, EndSource, htable]

theorem symm (h : SameProgram p p') : SameProgram p' p where
  nodes := h.nodes.symm
  edges e := (h.edges e).symm
  missing m := (h.missing m).symm
  passing := h.passing.symm
  failing := h.failing.symm
  implicitKeys m := (h.implicitKeys m).symm
  implicitImports m x := (h.implicitImports m x).symm
  reExports a := (h.reExports a).symm
  sideEffects e := (h.sideEffects e).symm

/-- A cycle of the one program, in the order in which the other lists it. -/
theorem exists_cycle (h : SameProgram p p') {sccs sccs' : List (List ModuleName)}
    (hs : p.importGraph.Sccs sccs) (hs' : p'.importGraph.Sccs sccs') {c : List ModuleName}
    (hc : c ∈ p.cycles sccs) : ∃ c' ∈ p'.cycles sccs', c.Perm c' := by
  obtain ⟨scc, hscc, hlen, hne, rfl⟩ := mem_collectCycles.mp hc
  have hsome : scc ≠ [] := by
    rintro rfl
    exact absurd hlen (by simp)
  obtain ⟨scc', hscc', hperm⟩ := hs.mutual.exists_perm hs'.mutual
    (fun a ha => h.mem_nodes.mp ha) (fun _ _ => h.cycleEdge) hscc hsome
  have hfilter := hperm.filter fun name => decide (name ∈ p.sourceModules)
  refine ⟨scc'.filter fun name => decide (name ∈ p.sourceModules), ?_, hfilter⟩
  rw [ResolvedProgram.cycles, ← h.sourceModules]
  exact mem_collectCycles.mpr ⟨scc', hscc', hperm.length_eq ▸ hlen,
    fun hnil => hne (hnil ▸ hfilter).eq_nil, rfl⟩

theorem cycles (h : SameProgram p p') {sccs sccs' : List (List ModuleName)}
    (hs : p.importGraph.Sccs sccs) (hs' : p'.importGraph.Sccs sccs') :
    SameCycles (p.cycles sccs) (p'.cycles sccs') := by
  refine ⟨fun c hc => h.exists_cycle hs hs' hc, fun c' hc' => ?_⟩
  obtain ⟨c, hc, hperm⟩ := h.symm.exists_cycle hs' hs hc'
  exact ⟨c, hc, hperm.symm⟩

end SameProgram

/-- What holds of some cycle of the one list holds of some cycle of the other. -/
theorem SameCycles.exists_congr {cycles cycles' : List (List ModuleName)}
    (h : SameCycles cycles cycles') {P P' : List ModuleName → Prop}
    (hP : ∀ c c', c.Perm c' → (P c ↔ P' c')) : (∃ c ∈ cycles, P c) ↔ ∃ c' ∈ cycles', P' c' := by
  constructor
  · rintro ⟨c, hc, hPc⟩
    obtain ⟨c', hc', hperm⟩ := h.1 c hc
    exact ⟨c', hc', (hP c c' hperm).mp hPc⟩
  · rintro ⟨c', hc', hPc⟩
    obtain ⟨c, hc, hperm⟩ := h.2 c' hc'
    exact ⟨c, hc, (hP c c' hperm).mpr hPc⟩

section Congr

variable {p p' : ResolvedProgram} {m x : ModuleName}

theorem ScanDep.congr (h : SameProgram p p') {cycles cycles' : List (List ModuleName)}
    (hcycles : SameCycles cycles cycles') : ScanDep p cycles m x ↔ ScanDep p' cycles' m x := by
  have hmissing : p.importGraph.missing.setAt m = p'.importGraph.missing.setAt m := by
    rw [Table.setAt, Table.setAt, h.missing]
  have hmember : (∃ c ∈ cycles, x ∈ c) ↔ ∃ c ∈ cycles', x ∈ c :=
    hcycles.exists_congr fun _ _ hperm => hperm.mem_iff
  rw [ScanDep, ScanDep, hmissing, hmember, h.failing]
  simp only [h.imports, h.endSource]

theorem CycleImport.congr (h : SameProgram p p') {c c' : List ModuleName} (hc : c.Perm c') :
    CycleImport p c m x ↔ CycleImport p' c' m x := by
  rw [CycleImport, CycleImport, h.runs, hc.mem_iff]

theorem CycleDep.congr (h : SameProgram p p') {c c' : List ModuleName} (hc : c.Perm c') :
    CycleDep p c m x ↔ CycleDep p' c' m x := by
  have hdep : ∀ member d, MemberDep p c member d ↔ MemberDep p' c' member d := by
    intro member d
    rw [MemberDep, MemberDep, CycleImport.congr h hc, h.passing]
  have hchild : ∀ member, PassingChild p member m ↔ PassingChild p' member m := by
    intro member
    rw [PassingChild, PassingChild, h.nodes.mem_iff, h.passing]
  rw [CycleDep, CycleDep, CycleImport.congr h hc, hc.mem_iff, h.passing]
  simp only [hdep, hchild, hc.mem_iff]

theorem Outsider.congr {c c' : List ModuleName} (hc : c.Perm c') :
    Outsider c m ↔ Outsider c' m := by
  rw [Outsider, Outsider, hc.mem_iff]
  simp only [hc.mem_iff]

theorem Reaches.congr (h : SameProgram p p') {c c' : List ModuleName} (hc : c.Perm c') :
    Reaches p c m x ↔ Reaches p' c' m x := by
  have hentry : ∀ member, IsEntry c member x ↔ IsEntry c' member x := by
    intro member
    rw [IsEntry, IsEntry]
    simp only [hc.mem_iff]
  rw [Reaches, Reaches]
  simp only [hc.mem_iff, h.runs, hentry]

theorem EntryDep.congr (h : SameProgram p p') {c c' : List ModuleName} (hc : c.Perm c') :
    EntryDep p c m x ↔ EntryDep p' c' m x := by
  have hcontested : Contested p c ↔ Contested p' c' := by
    rw [Contested, Contested]
    simp only [Outsider.congr hc, Reaches.congr h hc]
  rw [EntryDep, EntryDep, hcontested, h.passing, Outsider.congr hc, Reaches.congr h hc]

theorem NeedsChain.congr (h : SameProgram p p') {target : ModuleName} :
    NeedsChain p target m ↔ NeedsChain p' target m := by
  rw [NeedsChain, NeedsChain, h.implicitImports, h.imports]

/-- The search finds the same distances. -/
theorem hopsToTarget_congr (h : SameProgram p p') (target : ModuleName) :
    (hopsToTarget p.importGraph target (needsChain p target)).get? m =
      (hopsToTarget p'.importGraph target (needsChain p' target)).get? m := by
  have hlevel : ∀ k n, HopsTo p.importGraph target k n ↔ HopsTo p'.importGraph target k n :=
    fun k n => AtLevel.congr (fun _ => h.imports) (fun _ _ => h.imports)
  refine Option.ext fun k => ?_
  rw [hopsToTarget_eq_some, hopsToTarget_eq_some, hlevel, Awaited, Awaited]
  simp only [mem_needsChain, NeedsChain.congr h, hlevel]

/-- Of several shortest chains the walk takes the same one. -/
theorem chainTo_congr (h : SameProgram p p') (target consumer : ModuleName) :
    chainTo p target consumer = chainTo p' target consumer := by
  rw [chainTo, chainTo, h.nodes.length_eq]
  exact shortestChain_congr (fun _ _ => h.imports) (fun _ => hopsToTarget_congr h target) _

theorem ChainDep.congr (h : SameProgram p p') : ChainDep p m x ↔ ChainDep p' m x := by
  rw [ChainDep, ChainDep, h.passing]
  simp only [h.implicitImports, NeedsChain.congr h, chainTo_congr h]

end Congr

/-! ## The runs -/

section Runs

variable {p p' : ResolvedProgram} {sccs sccs' : List (List ModuleName)} {s s' : Stages}

theorem PolicyRun.same_scanned (hsame : SameProgram p p') (hs : p.importGraph.Sccs sccs)
    (hs' : p'.importGraph.Sccs sccs') (h : PolicyRun p sccs s) (h' : PolicyRun p' sccs' s') :
    SameTable s.scanned s'.scanned := by
  intro m
  refine Table.get?_congr ?_ fun x => ?_
  · rw [h.keys_scanned, h'.keys_scanned, hsame.mem_nodes, hsame.passing]
  · rw [h.mem_scanned, h'.mem_scanned, hsame.mem_nodes, hsame.passing,
      ScanDep.congr hsame (hsame.cycles hs hs')]

/-- The last pass reads the sets before it, of which only the empty ones matter. -/
theorem Pass.same_sideEffects (hsame : SameProgram p p') {before before' after after' : LazyEligible}
    (h : Pass (sideEffectWrites p before) before after)
    (h' : Pass (sideEffectWrites p' before') before' after')
    (hbefore : SameTable before before') : SameTable after after' := by
  have hsnapshot : (fun imp => hasFailingDeps before imp = true) =
      fun imp => hasFailingDeps before' imp = true := by
    funext m
    rw [hasFailingDeps, hasFailingDeps, Table.setAt, Table.setAt, hbefore m]
  have hwrites : ∀ w, w ∈ sideEffectWrites p before ↔ w ∈ sideEffectWrites p' before' := by
    intro w
    rw [mem_sideEffectWrites, mem_sideEffectWrites]
    simp only [hsame.sideEffects, hsame.passing, congrFun hsnapshot]
  refine h.same h' hbefore (fun m x => ?_) fun m => ?_
  · simp only [Written, hwrites]
  · simp only [hwrites]

/-- Two runs on one program, in any orders, make the same table, and the chains they
guard are the same. -/
theorem policy_order_free (p p' : ResolvedProgram) (hsame : SameProgram p p')
    (sccs sccs' : List (List ModuleName)) (hs : p.importGraph.Sccs sccs)
    (hs' : p'.importGraph.Sccs sccs') (s s' : Stages) (h : PolicyRun p sccs s)
    (h' : PolicyRun p' sccs' s') :
    (∀ m, s.final.get? m = s'.final.get? m) ∧
      ∀ target consumer, chainTo p target consumer = chainTo p' target consumer := by
  have hcycles := hsame.cycles hs hs'
  have hscanned := h.same_scanned hsame hs hs' h'
  have hcycleDeps : SameTable s.cycleDeps s'.cycleDeps := by
    refine h.cycleDeps.same_of_nonempty h'.cycleDeps hscanned (fun m x => ?_)
      (fun _ => nonempty_of_mem_cycleDepWrites) (fun _ => nonempty_of_mem_cycleDepWrites)
    rw [written_cycleDepWrites, written_cycleDepWrites]
    exact hcycles.exists_congr fun _ _ hc => CycleDep.congr hsame hc
  have hentryGuards : SameTable s.entryGuards s'.entryGuards := by
    refine h.entryGuards.same_of_nonempty h'.entryGuards hcycleDeps (fun m x => ?_)
      (fun _ => nonempty_of_mem_entryGuardWrites) (fun _ => nonempty_of_mem_entryGuardWrites)
    rw [written_entryGuardWrites, written_entryGuardWrites]
    exact hcycles.exists_congr fun _ _ hc => EntryDep.congr hsame hc
  have himplicit : SameTable s.implicit s'.implicit := by
    refine h.implicit.same h'.implicit hentryGuards (fun m x => ?_) fun m => ?_
    · rw [written_implicitWrites, written_implicitWrites, hsame.passing, hsame.implicitImports]
    · rw [mem_keys_implicitWrites, mem_keys_implicitWrites, hsame.passing, hsame.implicitKeys]
  have hchains : SameTable s.chains s'.chains := by
    refine h.chains.same_of_nonempty h'.chains himplicit (fun m x => ?_)
      (fun _ => nonempty_of_mem_chainWrites) (fun _ => nonempty_of_mem_chainWrites)
    rw [written_chainWrites, written_chainWrites, ChainDep.congr hsame]
  exact ⟨Pass.same_sideEffects hsame h.final h'.final hchains,
    fun target consumer => chainTo_congr hsame target consumer⟩

end Runs

/-- A consumer of `t` with two shortest import chains to it. -/
def twoChains (nodes : List ModuleName) (edges : List (ModuleName × ModuleName))
    (hnodup : nodes.Nodup) (hclosed : ∀ e ∈ edges, e.1 ∈ nodes ∧ e.2 ∈ nodes) :
    ResolvedProgram where
  classified :=
    { passingModules := {fromStr "c", fromStr "a", fromStr "b", fromStr "t"}
      implicitImports := Table.ofList [(fromStr "c", [fromStr "t"])] }
  importGraph :=
    { nodes, nodes_nodup := hnodup, edges, edges_closed := hclosed
      missing := Table.empty
      missing_closed := fun _ hm => absurd hm List.not_mem_nil }
  reExports := .whole Table.empty
  sideEffects := .whole Table.empty
  classified_once := Finset.disjoint_empty_left _
  missing_unknown := by simp [Table.setAt]

/-- Listed from the target up. -/
def twoChainsUp : ResolvedProgram :=
  twoChains [fromStr "t", fromStr "a", fromStr "b", fromStr "c"]
    [(fromStr "a", fromStr "t"), (fromStr "b", fromStr "t"), (fromStr "c", fromStr "a"),
      (fromStr "c", fromStr "b")] (by decide) (by decide)

/-- Listed the other way, with the other chain first. -/
def twoChainsDown : ResolvedProgram :=
  twoChains [fromStr "t", fromStr "b", fromStr "a", fromStr "c"]
    [(fromStr "c", fromStr "b"), (fromStr "c", fromStr "a"), (fromStr "b", fromStr "t"),
      (fromStr "a", fromStr "t")] (by decide) (by decide)

/-- The set of a module on one of the two chains is the same in both, and the chain is. -/
theorem policy_order_free_twoChains :
    (policy twoChainsUp (twoChainsUp.nodes.map fun m => [m])).final.get? (fromStr "b") =
        (policy twoChainsDown (twoChainsDown.nodes.map fun m => [m])).final.get? (fromStr "b") ∧
      chainTo twoChainsUp (fromStr "t") (fromStr "c") =
        chainTo twoChainsDown (fromStr "t") (fromStr "c") := by
  have hsame : SameProgram twoChainsUp twoChainsDown :=
    { nodes := by decide
      edges := by
        intro e
        simp [twoChainsUp, twoChainsDown, twoChains]
        tauto
      missing := fun _ => rfl
      passing := rfl
      failing := rfl
      implicitKeys := fun _ => Iff.rfl
      implicitImports := fun _ _ => Iff.rfl
      reExports := fun _ => rfl
      sideEffects := fun _ => Iff.rfl }
  have hup : twoChainsUp.importGraph.Sccs (twoChainsUp.nodes.map fun m => [m]) :=
    sccs_of_order (by decide +kernel)
  have hdown : twoChainsDown.importGraph.Sccs (twoChainsDown.nodes.map fun m => [m]) :=
    sccs_of_order (by decide +kernel)
  have hfree := policy_order_free _ _ hsame _ _ hup hdown _ _ (policyRun_policy _ _)
    (policyRun_policy _ _)
  exact ⟨hfree.1 _, hfree.2 _ _⟩

end Lifeguard
