import Lifeguard.ImportCollector
import Lifeguard.ModuleMerge

/-!
# Edges outside the `__main__` guard

A library does not know which module a binary starts from, so it walks the guards and tags
the edges that only a guard writes; the reduce, which knows, drops them.

- `unguarded_edges_survive`: tagging and dropping loses no edge that pruning the guards
  would have collected, nor one that some copy of the module writes outside every guard.
-/

namespace Lifeguard

open Lib ModuleImportCollector

/-- What one record writes outside every guard outlives the join and the drop, as the kind
of import that record has it as; a missing one where no record finds it. -/
theorem survives_dropMainGuarded {S : UnstableSort} {first r : CachedModule}
    {rest : List CachedModule} {n : ModuleName} (hr : r ∈ first :: rest)
    (hguard : n ∉ r.mainGuard.imports) :
    (n ∈ r.imports → n ∈ (dropMainGuarded (mergeRecords S first rest)).2.imports) ∧
    (n ∈ r.ambiguousImports →
      n ∈ (dropMainGuarded (mergeRecords S first rest)).2.ambiguousImports) ∧
    (n ∈ r.sideEffectImports →
      n ∈ (dropMainGuarded (mergeRecords S first rest)).2.sideEffectImports) ∧
    ((∀ r ∈ first :: rest, n ∈ r.missingImports) →
      n ∈ (dropMainGuarded (mergeRecords S first rest)).2.missingImports) := by
  have hmerged : n ∉ (mergeRecords S first rest).mainGuard.imports := fun h =>
    hguard (mem_mainGuard_mergeRecords.mp h r hr)
  rw [imports_dropMainGuarded, ambiguousImports_dropMainGuarded,
    sideEffectImports_dropMainGuarded, missingImports_dropMainGuarded]
  refine ⟨fun h => ?_, fun h => ?_, fun h => ?_, fun h => ?_⟩
  · exact Finset.mem_filter.mpr ⟨mem_imports_mergeRecords.mpr ⟨r, hr, h⟩, hmerged⟩
  · exact Finset.mem_filter.mpr ⟨mem_ambiguousImports_mergeRecords.mpr ⟨r, hr, h⟩, hmerged⟩
  · exact Finset.mem_filter.mpr ⟨mem_sideEffectImports_mergeRecords.mpr ⟨r, hr, h⟩, hmerged⟩
  · exact Finset.mem_filter.mpr ⟨mem_missingImports_mergeRecords.mpr h, hmerged⟩

/-- Tagging the guards loses no edge outside them: what is collected when they are pruned is
collected when they are kept, and not as guard-only; and what one copy of a module writes
outside every guard outlives `drop_main_guarded` on the joined copies, as an edge, an ambiguous
or a side-effect import, or as a missing one where all the copies miss it. -/
theorem unguarded_edges_survive (S : UnstableSort) :
    (∀ (ctx : CollectorContext) (main : ModuleName) (body : List Stmt),
      main ≠ ctx.currentModule →
        (collect (ctx.withMain (some main)) body).imports ⊆
            (collect (ctx.withMain none) body).imports ∧
          (collect (ctx.withMain (some main)) body).ambiguous ⊆
            (collect (ctx.withMain none) body).ambiguous ∧
          ∀ n, n ∈ (collect (ctx.withMain (some main)) body).imports ∨
              n ∈ (collect (ctx.withMain (some main)) body).ambiguous →
            n ∉ (collect (ctx.withMain none) body).mainGuardOnly) ∧
    ∀ (first : CachedModule) (rest : List CachedModule), ∀ r ∈ first :: rest, ∀ n,
      n ∉ r.mainGuard.imports →
        (n ∈ r.imports → n ∈ (dropMainGuarded (mergeRecords S first rest)).2.imports) ∧
        (n ∈ r.ambiguousImports →
          n ∈ (dropMainGuarded (mergeRecords S first rest)).2.ambiguousImports) ∧
        (n ∈ r.sideEffectImports →
          n ∈ (dropMainGuarded (mergeRecords S first rest)).2.sideEffectImports) ∧
        ((∀ r ∈ first :: rest, n ∈ r.missingImports) →
          n ∈ (dropMainGuarded (mergeRecords S first rest)).2.missingImports) :=
  ⟨fun _ _ body hmain => collect_pruned hmain body,
    fun _ _ _ hr _ hguard => survives_dropMainGuarded hr hguard⟩

end Lifeguard
