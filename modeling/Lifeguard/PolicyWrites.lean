import Lifeguard.LazyPolicy

/-!
# What the passes write

Each pass of the policy described by what it adds to which set, in terms of the import
graph, the verdicts and the cycles only, and not of the order in which anything is
visited:

- `get?_scan`, `mem_failingImportedModules`: the scan (`ScanDep`);
- `written_cycleDepWrites`: the cycle dependencies (`CycleDep`);
- `written_implicitWrites`, `written_chainWrites`, `written_sideEffectWrites`: the others,
  but for the entry guards, which have a module of their own.

`Pass.mem_setAt` and `Pass.mem_keys` say what a pass leaves, in any order of its writes.
-/

namespace Lifeguard

open Lib ImportGraph

/-- Some write adds the module `x` to the set of `m`. -/
def Written (writes : List Write) (m x : ModuleName) : Prop :=
  ∃ w ∈ writes, w.1 = m ∧ x ∈ w.2

theorem Written.append {writes writes' : List Write} {m x : ModuleName} :
    Written (writes ++ writes') m x ↔ Written writes m x ∨ Written writes' m x := by
  simp [Written, or_and_right, exists_or]

/-- The keys written to, when nothing empty is written. -/
theorem mem_keys_iff_written {writes : List Write} (h : ∀ w ∈ writes, w.2.Nonempty)
    {m : ModuleName} : (∃ w ∈ writes, w.1 = m) ↔ ∃ x, Written writes m x := by
  constructor
  · rintro ⟨w, hw, hm⟩
    obtain ⟨x, hx⟩ := h w hw
    exact ⟨x, w, hw, hm, hx⟩
  · rintro ⟨x, w, hw, hm, _⟩
    exact ⟨w, hw, hm⟩

theorem written_flatMap {α : Type} {l : List α} {f : α → List Write} {m x : ModuleName} :
    Written (l.flatMap f) m x ↔ ∃ a ∈ l, Written (f a) m x := by
  constructor
  · rintro ⟨w, hw, hm, hx⟩
    obtain ⟨a, ha, hwa⟩ := List.mem_flatMap.mp hw
    exact ⟨a, ha, w, hwa, hm, hx⟩
  · rintro ⟨a, ha, w, hw, hm, hx⟩
    exact ⟨w, List.mem_flatMap.mpr ⟨a, ha, hw⟩, hm, hx⟩

namespace Pass

variable {writes : List Write} {before after : LazyEligible} {m x : ModuleName}

theorem mem_setAt (h : Pass writes before after) :
    x ∈ after.setAt m ↔ x ∈ before.setAt m ∨ Written writes m x := by
  obtain ⟨order, hperm, rfl⟩ := h
  rw [Table.mem_setAt_extendAll, Written]
  simp only [hperm.mem_iff]

theorem mem_keys (h : Pass writes before after) :
    m ∈ after.keys ↔ m ∈ before.keys ∨ ∃ w ∈ writes, w.1 = m := by
  obtain ⟨order, hperm, rfl⟩ := h
  rw [Table.mem_keys_extendAll]
  simp only [hperm.mem_iff]

end Pass

variable {p : ResolvedProgram} {cycles : List (List ModuleName)} {m x : ModuleName}

/-- Importing the first module runs the second: an import of it or of a module below it. -/
def ResolvedProgram.Runs (p : ResolvedProgram) (m x : ModuleName) : Prop :=
  p.importGraph.Imports m x ∨ p.importGraph.ImplicitParent m x

/-! ## The scan -/

theorem ReExportRun.mem {failing : Finset ModuleName} {reExports : ReExports}
    {reMap : LazyEligible} (h : ReExportRun failing reExports reMap) {s : ModuleName} :
    s ∈ reMap.setAt m ↔ s ∈ failing ∧ EndSource reExports.table m s := by
  cases h with
  | whole order horder => exact mem_buildReExportMap horder
  | @cached _ nodup chunks hchunks => exact mem_buildReExportMapFromCache nodup hchunks

/-- What the scan puts into the set of a module. -/
def ScanDep (p : ResolvedProgram) (cycles : List (List ModuleName)) (m x : ModuleName) : Prop :=
  (p.importGraph.Imports m x ∧ x ∈ p.failing) ∨
    (∃ i, p.importGraph.Imports m i ∧ x ∈ p.failing ∧ EndSource p.reExports.table i x) ∨
    x ∈ p.importGraph.missing.setAt m ∨
    (x ∈ (ancestors m).tail ∧ ∃ c ∈ cycles, x ∈ c)

theorem mem_foldl_importGuards {reMap : LazyEligible} {imports : List ModuleName}
    {acc : Finset ModuleName} :
    x ∈ imports.foldl (importGuards p reMap) acc ↔
      x ∈ acc ∨ ∃ i ∈ imports, (x = i ∧ i ∈ p.failing) ∨ x ∈ reMap.setAt i := by
  induction imports generalizing acc with
  | nil => simp
  | cons i rest ih =>
    have hstep : x ∈ importGuards p reMap acc i ↔
        x ∈ acc ∨ ((x = i ∧ i ∈ p.failing) ∨ x ∈ reMap.setAt i) := by
      rw [importGuards, Finset.mem_union, ← or_assoc]
      refine or_congr_left ?_
      by_cases hi : i ∈ p.failing
      · simp [hi, or_comm]
      · simp [hi]
    rw [List.foldl_cons, ih, hstep, List.exists_mem_cons_iff, or_assoc]

theorem mem_failingImportedModules {reMap : LazyEligible}
    (hmap : ReExportRun p.failing p.reExports reMap) :
    x ∈ failingImportedModules p reMap cycles m ↔ ScanDep p cycles m x := by
  rw [failingImportedModules, Finset.mem_union, Finset.mem_union, mem_foldl_importGuards,
    ScanDep, getMissingImports, List.mem_toFinset, List.mem_filter]
  constructor
  · rintro (((hempty | ⟨i, hi, ⟨rfl, hfail⟩ | hsource⟩) | hmissing) | ⟨habove, hcycle⟩)
    · exact absurd hempty (Finset.notMem_empty x)
    · exact Or.inl ⟨mem_getImports.mp hi, hfail⟩
    · obtain ⟨hfail, hend⟩ := hmap.mem.mp hsource
      exact Or.inr (Or.inl ⟨i, mem_getImports.mp hi, hfail, hend⟩)
    · exact Or.inr (Or.inr (Or.inl hmissing))
    · exact Or.inr (Or.inr (Or.inr ⟨habove, List.mem_flatten.mp (of_decide_eq_true hcycle)⟩))
  · rintro (⟨himport, hfail⟩ | ⟨i, himport, hfail, hend⟩ | hmissing | ⟨habove, hcycle⟩)
    · exact Or.inl (Or.inl (Or.inr ⟨x, mem_getImports.mpr himport, Or.inl ⟨rfl, hfail⟩⟩))
    · exact Or.inl (Or.inl (Or.inr
        ⟨i, mem_getImports.mpr himport, Or.inr (hmap.mem.mpr ⟨hfail, hend⟩)⟩))
    · exact Or.inl (Or.inr hmissing)
    · exact Or.inr ⟨habove, decide_eq_true (List.mem_flatten.mpr hcycle)⟩

/-- The table the scan leaves, whatever the order. -/
theorem get?_scan {reMap : LazyEligible} {order : List ModuleName} :
    (scan p reMap cycles order).get? m =
      if m ∈ order ∧ m ∈ p.passing then some (failingImportedModules p reMap cycles m)
      else none := by
  have hfold : ∀ t : LazyEligible, (order.foldl (scanModule p reMap cycles) t).get? m =
      if m ∈ order ∧ m ∈ p.passing then some (failingImportedModules p reMap cycles m)
      else t.get? m := by
    induction order with
    | nil => simp
    | cons a rest ih =>
      intro t
      rw [List.foldl_cons, ih]
      by_cases hrest : m ∈ rest ∧ m ∈ p.passing
      · rw [if_pos hrest, if_pos ⟨List.mem_cons_of_mem a hrest.1, hrest.2⟩]
      · rw [if_neg hrest, scanModule]
        by_cases hm : m = a
        · subst hm
          by_cases hpass : m ∈ p.passing
          · simp [hpass]
          · simp [hpass]
        · have hiff : (m ∈ a :: rest ∧ m ∈ p.passing) ↔ (m ∈ rest ∧ m ∈ p.passing) := by
            rw [List.mem_cons, or_iff_right hm]
          rw [if_neg (hiff.not.mpr hrest)]
          split
          · rw [Table.get?_insert_of_ne _ _ hm]
          · rfl
  exact hfold Table.empty

/-! ## Cycle dependencies -/

/-- The member's set gets this other member of its cycle. -/
def CycleImport (p : ResolvedProgram) (cycle : List ModuleName) (member x : ModuleName) : Prop :=
  p.Runs member x ∧ x ≠ member ∧ x ∈ cycle

/-- The children of the member get this, those that are not it. -/
def MemberDep (p : ResolvedProgram) (cycle : List ModuleName) (member d : ModuleName) : Prop :=
  (member ∈ p.passing ∧ CycleImport p cycle member d) ∨ (member ∉ p.passing ∧ d = member)

/-- The module is a child that is passing. -/
def PassingChild (p : ResolvedProgram) (member child : ModuleName) : Prop :=
  child ∈ p.nodes ∧ parent child = some member ∧ child ∈ p.passing

/-- What the pass adds on account of one cycle. -/
def CycleDep (p : ResolvedProgram) (cycle : List ModuleName) (m x : ModuleName) : Prop :=
  (m ∈ cycle ∧ m ∈ p.passing ∧ CycleImport p cycle m x) ∨
    ∃ member ∈ cycle, PassingChild p member m ∧
      ∃ d, MemberDep p cycle member d ∧ childDep member m d = x

theorem mem_implicitParents : x ∈ p.implicitParents m ↔ p.importGraph.ImplicitParent m x := by
  rw [← mem_get?_implicitParentImports, ResolvedProgram.implicitParents]
  cases p.importGraph.implicitParentImports.get? m with
  | none => simp
  | some parents => simp

theorem mem_cycleImports {cycle : List ModuleName} :
    x ∈ cycleImports p cycle m ↔ CycleImport p cycle m x := by
  rw [cycleImports, List.mem_toFinset, List.mem_filter, List.mem_append, mem_getImports,
    mem_implicitParents, CycleImport, ResolvedProgram.Runs]
  simp

theorem written_propagateToChildren {member : ModuleName} {deps : Finset ModuleName} :
    Written (propagateToChildren p member deps) m x ↔
      PassingChild p member m ∧ ∃ d ∈ deps, childDep member m d = x := by
  rw [Written, propagateToChildren]
  constructor
  · rintro ⟨w, hw, hm, hx⟩
    obtain ⟨child, hchild, rfl⟩ := List.mem_map.mp hw
    obtain ⟨hbelow, hpass⟩ := List.mem_filter.mp hchild
    obtain ⟨hnode, hparent⟩ := List.mem_filter.mp hbelow
    subst hm
    exact ⟨⟨hnode, of_decide_eq_true hparent, of_decide_eq_true hpass⟩, Finset.mem_image.mp hx⟩
  · rintro ⟨⟨hnode, hparent, hpass⟩, hdep⟩
    refine ⟨(m, deps.image (childDep member m)), ?_, rfl, Finset.mem_image.mpr hdep⟩
    refine List.mem_map.mpr ⟨m, ?_, rfl⟩
    exact List.mem_filter.mpr ⟨List.mem_filter.mpr ⟨hnode, decide_eq_true hparent⟩,
      decide_eq_true hpass⟩

/-- What one member writes: its own set, and its children's. -/
theorem written_memberWrites {cycle : List ModuleName} {member : ModuleName} :
    Written (memberWrites p cycle member) m x ↔
      (m = member ∧ member ∈ p.passing ∧ CycleImport p cycle member x) ∨
        (PassingChild p member m ∧ ∃ d, MemberDep p cycle member d ∧ childDep member m d = x) := by
  rw [memberWrites]
  by_cases hpass : member ∈ p.passing
  · rw [if_pos hpass]
    have hdep : ∀ d, MemberDep p cycle member d ↔ d ∈ cycleImports p cycle member := by
      intro d
      rw [MemberDep, mem_cycleImports]
      simp [hpass]
    by_cases hempty : cycleImports p cycle member = ∅
    · rw [if_pos hempty]
      have hnone : ∀ d, ¬CycleImport p cycle member d := by
        intro d hd
        exact absurd (hempty ▸ mem_cycleImports.mpr hd) (Finset.notMem_empty d)
      simp [Written, hnone, MemberDep, hpass]
    · rw [if_neg hempty, ← List.singleton_append, Written.append, written_propagateToChildren]
      simp only [hdep]
      refine or_congr_left ?_
      simp [Written, hpass, mem_cycleImports, eq_comm]
  · rw [if_neg hpass, written_propagateToChildren]
    simp [MemberDep, hpass]

theorem written_cycleDepWrites :
    Written (cycleDepWrites p cycles) m x ↔ ∃ c ∈ cycles, CycleDep p c m x := by
  rw [cycleDepWrites, written_flatMap]
  refine exists_congr fun c => and_congr_right fun _ => ?_
  rw [written_flatMap, CycleDep]
  simp only [written_memberWrites]
  constructor
  · rintro ⟨member, hmem, ⟨rfl, hpass, himport⟩ | hchild⟩
    · exact Or.inl ⟨hmem, hpass, himport⟩
    · exact Or.inr ⟨member, hmem, hchild⟩
  · rintro (⟨hmem, hpass, himport⟩ | ⟨member, hmem, hchild⟩)
    · exact ⟨m, hmem, Or.inl ⟨rfl, hpass, himport⟩⟩
    · exact ⟨member, hmem, Or.inr hchild⟩

theorem passing_of_mem_propagate {member : ModuleName} {deps : Finset ModuleName} {w : Write}
    (h : w ∈ propagateToChildren p member deps) : w.1 ∈ p.passing := by
  obtain ⟨child, hchild, rfl⟩ := List.mem_map.mp h
  exact of_decide_eq_true (List.mem_filter.mp hchild).2

theorem nonempty_of_mem_cycleDepWrites {w : Write} (h : w ∈ cycleDepWrites p cycles) :
    w.2.Nonempty := by
  have hchildren : ∀ {member : ModuleName} {deps : Finset ModuleName}, deps.Nonempty →
      w ∈ propagateToChildren p member deps → w.2.Nonempty := by
    intro member deps hdeps hw
    obtain ⟨child, _, rfl⟩ := List.mem_map.mp hw
    exact hdeps.image _
  obtain ⟨c, _, hc⟩ := List.mem_flatMap.mp h
  obtain ⟨member, _, hmember⟩ := List.mem_flatMap.mp hc
  rw [memberWrites] at hmember
  split at hmember
  · split at hmember
    · exact absurd hmember List.not_mem_nil
    · next hne =>
      have himports := Finset.nonempty_iff_ne_empty.mpr hne
      rcases List.mem_cons.mp hmember with rfl | hchild
      · exact himports
      · exact hchildren himports hchild
  · exact hchildren (Finset.singleton_nonempty member) hmember

theorem passing_of_mem_cycleDepWrites {w : Write} (h : w ∈ cycleDepWrites p cycles) :
    w.1 ∈ p.passing := by
  obtain ⟨c, _, hc⟩ := List.mem_flatMap.mp h
  obtain ⟨member, _, hmember⟩ := List.mem_flatMap.mp hc
  rw [memberWrites] at hmember
  split at hmember
  · next hpass =>
    split at hmember
    · exact absurd hmember List.not_mem_nil
    · rcases List.mem_cons.mp hmember with rfl | hchild
      · exact hpass
      · exact passing_of_mem_propagate hchild
  · exact passing_of_mem_propagate hmember

/-! ## Implicit imports -/

/-- The module's implicit imports hold the other. -/
def ImplicitImport (p : ResolvedProgram) (m x : ModuleName) : Prop :=
  ∃ targets, p.classified.implicitImports.get? m = some targets ∧ x ∈ targets

theorem mem_keysHolding {t : Table ModuleName (List ModuleName)} :
    m ∈ keysHolding t x ↔ ∃ l, t.get? m = some l ∧ x ∈ l := by
  rw [keysHolding, List.mem_flatMap]
  constructor
  · rintro ⟨⟨a, l⟩, hentry, hmem⟩
    obtain ⟨y, hy, rfl⟩ := List.mem_map.mp hmem
    obtain ⟨hyl, hyx⟩ := List.mem_filter.mp hy
    exact ⟨l, Table.mem_entries.mp hentry, of_decide_eq_true hyx ▸ hyl⟩
  · rintro ⟨l, hget, hx⟩
    exact ⟨(m, l), Table.mem_entries.mpr hget,
      List.mem_map.mpr ⟨x, List.mem_filter.mpr ⟨hx, decide_eq_true rfl⟩, rfl⟩⟩

theorem written_implicitWrites :
    Written (implicitWrites p) m x ↔ m ∈ p.passing ∧ ImplicitImport p m x := by
  rw [Written, implicitWrites]
  constructor
  · rintro ⟨w, hw, hm, hx⟩
    obtain ⟨⟨a, l⟩, hentry, rfl⟩ := List.mem_map.mp hw
    obtain ⟨hmem, hpass⟩ := List.mem_filter.mp hentry
    subst hm
    exact ⟨of_decide_eq_true hpass, l, Table.mem_entries.mp hmem, List.mem_toFinset.mp hx⟩
  · rintro ⟨hpass, l, hget, hx⟩
    refine ⟨(m, l.toFinset), List.mem_map.mpr ⟨(m, l), ?_, rfl⟩, rfl, List.mem_toFinset.mpr hx⟩
    exact List.mem_filter.mpr ⟨Table.mem_entries.mpr hget, decide_eq_true hpass⟩

theorem mem_keys_implicitWrites :
    (∃ w ∈ implicitWrites p, w.1 = m) ↔
      m ∈ p.passing ∧ m ∈ p.classified.implicitImports.keys := by
  rw [implicitWrites, Table.mem_keys, Option.isSome_iff_exists]
  constructor
  · rintro ⟨w, hw, hm⟩
    obtain ⟨⟨a, l⟩, hentry, rfl⟩ := List.mem_map.mp hw
    obtain ⟨hmem, hpass⟩ := List.mem_filter.mp hentry
    subst hm
    exact ⟨of_decide_eq_true hpass, l, Table.mem_entries.mp hmem⟩
  · rintro ⟨hpass, l, hget⟩
    exact ⟨(m, l.toFinset), List.mem_map.mpr ⟨(m, l), List.mem_filter.mpr
      ⟨Table.mem_entries.mpr hget, decide_eq_true hpass⟩, rfl⟩, rfl⟩

theorem passing_of_mem_implicitWrites {w : Write} (h : w ∈ implicitWrites p) :
    w.1 ∈ p.passing :=
  (mem_keys_implicitWrites.mp ⟨w, h, rfl⟩).1

/-! ## Chains -/

/-- The chain the walk takes from a consumer to a target. -/
def chainTo (p : ResolvedProgram) (target consumer : ModuleName) : List ModuleName :=
  shortestChain p.importGraph (hopsToTarget p.importGraph target (needsChain p target))
    (p.nodes.length + 1) consumer

/-- The module uses the target without importing it. -/
def NeedsChain (p : ResolvedProgram) (target consumer : ModuleName) : Prop :=
  ImplicitImport p consumer target ∧ ¬p.importGraph.Imports consumer target

theorem mem_needsChain {target : ModuleName} : m ∈ needsChain p target ↔ NeedsChain p target m := by
  rw [needsChain, List.mem_filter, mem_keysHolding, NeedsChain, ImplicitImport]
  simp

theorem mem_implicitTargets : x ∈ implicitTargets p ↔ ∃ consumer, ImplicitImport p consumer x := by
  rw [implicitTargets, List.mem_dedup, List.mem_flatMap]
  constructor
  · rintro ⟨⟨a, l⟩, hentry, hx⟩
    exact ⟨a, l, Table.mem_entries.mp hentry, hx⟩
  · rintro ⟨a, l, hget, hx⟩
    exact ⟨(a, l), Table.mem_entries.mpr hget, hx⟩

theorem mem_targetWrites {target : ModuleName} {w : Write} :
    w ∈ targetWrites p target ↔
      w.2 = {target} ∧ w.1 ∈ p.passing ∧
        (w.1 = target ∨ ∃ consumer, NeedsChain p target consumer ∧
          w.1 ∈ chainTo p target consumer) := by
  obtain ⟨a, set⟩ := w
  rw [targetWrites, List.mem_append, List.mem_flatMap]
  constructor
  · rintro (hself | ⟨consumer, hconsumer, hchain⟩)
    · split at hself
      · next hpass =>
        cases List.mem_singleton.mp hself
        exact ⟨rfl, hpass, Or.inl rfl⟩
      · exact absurd hself List.not_mem_nil
    · obtain ⟨y, hy, heq⟩ := List.mem_map.mp hchain
      cases heq
      obtain ⟨hmem, hpass⟩ := List.mem_filter.mp hy
      exact ⟨rfl, of_decide_eq_true hpass,
        Or.inr ⟨consumer, mem_needsChain.mp hconsumer, hmem⟩⟩
  · rintro ⟨hset, hpass, htarget | ⟨consumer, hneeds, hmem⟩⟩
    · have heq : (a, set) = (target, {target}) := Prod.ext htarget hset
      rw [heq, if_pos ((show a = target from htarget) ▸ hpass)]
      exact Or.inl (List.mem_singleton_self _)
    · refine Or.inr ⟨consumer, mem_needsChain.mpr hneeds, ?_⟩
      exact List.mem_map.mpr ⟨a, List.mem_filter.mpr ⟨hmem, decide_eq_true hpass⟩,
        Prod.ext rfl hset.symm⟩

/-- A target guards itself and the passing modules on the chains to it. -/
def ChainDep (p : ResolvedProgram) (m target : ModuleName) : Prop :=
  (∃ consumer, ImplicitImport p consumer target) ∧ m ∈ p.passing ∧
    (m = target ∨ ∃ consumer, NeedsChain p target consumer ∧ m ∈ chainTo p target consumer)

theorem mem_chainWrites {w : Write} :
    w ∈ chainWrites p ↔ ∃ target, w.2 = {target} ∧ ChainDep p w.1 target := by
  rw [chainWrites, List.mem_flatMap]
  simp only [mem_implicitTargets, mem_targetWrites, ChainDep]
  constructor
  · rintro ⟨target, himplicit, hset, hrest⟩
    exact ⟨target, hset, himplicit, hrest⟩
  · rintro ⟨target, hset, himplicit, hrest⟩
    exact ⟨target, himplicit, hset, hrest⟩

theorem written_chainWrites : Written (chainWrites p) m x ↔ ChainDep p m x := by
  rw [Written]
  simp only [mem_chainWrites]
  constructor
  · rintro ⟨⟨a, set⟩, ⟨target, hset, hdep⟩, rfl, hx⟩
    rw [show set = {target} from hset] at hx
    exact Finset.mem_singleton.mp hx ▸ hdep
  · intro hdep
    exact ⟨(m, {x}), ⟨x, rfl, hdep⟩, rfl, Finset.mem_singleton_self x⟩

theorem nonempty_of_mem_chainWrites {w : Write} (h : w ∈ chainWrites p) : w.2.Nonempty := by
  obtain ⟨target, hset, _⟩ := mem_chainWrites.mp h
  rw [hset]
  exact Finset.singleton_nonempty target

theorem passing_of_mem_chainWrites {w : Write} (h : w ∈ chainWrites p) : w.1 ∈ p.passing := by
  obtain ⟨_, _, _, hpass, _⟩ := mem_chainWrites.mp h
  exact hpass

/-! ## Side-effect imports -/

theorem mem_sideEffectWrites {snapshot : LazyEligible} {w : Write} :
    w ∈ sideEffectWrites p snapshot ↔
      ∃ e ∈ p.sideEffects.entries, e.2 ≠ ∅ ∧ e.1 ∈ p.passing ∧
        w = (e.1, e.2.filter fun imp => hasFailingDeps snapshot imp = true) := by
  rw [sideEffectWrites, List.mem_filterMap]
  refine exists_congr fun e => and_congr_right fun _ => ?_
  unfold sideEffectWrite
  by_cases hskip : e.2 = ∅ ∨ e.1 ∉ p.passing
  · rw [if_pos hskip]
    constructor
    · intro h
      exact absurd h (by simp)
    · rintro ⟨hne, hpass, _⟩
      exact absurd hskip (by simp [hne, hpass])
  · rw [if_neg hskip]
    obtain ⟨hne, hpass⟩ := not_or.mp hskip
    rw [Option.some.injEq, eq_comm]
    exact ⟨fun h => ⟨hne, not_not.mp hpass, h⟩, fun h => h.2.2⟩

theorem passing_of_mem_sideEffectWrites {snapshot : LazyEligible} {w : Write}
    (h : w ∈ sideEffectWrites p snapshot) : w.1 ∈ p.passing := by
  obtain ⟨e, _, _, hpass, rfl⟩ := mem_sideEffectWrites.mp h
  exact hpass

end Lifeguard
