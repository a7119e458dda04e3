import Lifeguard.TableAgreement

/-!
# Statements under different tables

Two analyzers of one module write the same effects for a statement, as long as their tables
say the same about the names that are looked up for it.

- `PlaceAgrees`: both analyzers find out the same about a statement at a place;
- `PlaceAgrees.ownWrites_congr`: then they have the same effects for it.

What a statement imports, and what it says of the names that the module exports again, does
not depend on the tables.
-/

namespace Lifeguard

open Lib

namespace SourceAnalyzer

/-- The analyzers agree on a statement at a place: on what is looked up for it, and on the
modules that its expressions import. -/
structure PlaceAgrees (p k : SourceAnalyzer) (evals : Nat) (cursor : Cursor) (s : Stmt) :
    Prop where
  lookups : ∀ e ∈ p.lookups evals s, Agrees p k cursor e
  imported : ∀ node ∈ p.nodes evals s,
    p.importedByCall cursor node = k.importedByCall cursor node

theorem PlaceAgrees.decorator_queried {p k : SourceAnalyzer} {evals : Nat} {cursor : Cursor}
    {s : Stmt} (h : PlaceAgrees p k evals cursor s) {dec : Decorator}
    (hdec : dec ∈ s.decorators) : ∀ e ∈ dec.queried, Agrees p k cursor e := fun e he =>
  h.lookups e (List.mem_append_left _ (List.mem_flatMap.mpr ⟨dec, hdec, he⟩))

section Statements

variable {p k : SourceAnalyzer} {evals : Nat} {cursor : Cursor} {s : Stmt}
  (hpk : SameModule p k) (h : PlaceAgrees p k evals cursor s)
include hpk h

theorem PlaceAgrees.expr_congr {x : Expr} (hx : x ∈ p.evaluatedExprs s) :
    effectsOf (p.expr cursor evals x) = effectsOf (k.expr cursor evals x) := by
  refine effectsOf_expr_congr hpk evals x fun node hnode => ?_
  have hmem : node ∈ p.nodes evals s := by
    rw [nodes, library, hpk.library]
    exact List.mem_flatMap.mpr ⟨x, hx, hnode⟩
  refine ⟨fun e he => h.lookups e ?_, h.imported node hmem⟩
  exact List.mem_append_right _ (List.mem_append_right _ (List.mem_flatMap.mpr ⟨node, hmem, he⟩))

theorem PlaceAgrees.exprs_congr {xs : List Expr} (hxs : ∀ x ∈ xs, x ∈ p.evaluatedExprs s) :
    effectsOf (p.exprs evals cursor xs) = effectsOf (k.exprs evals cursor xs) := by
  unfold exprs
  rw [effectsOf_flatMap, effectsOf_flatMap]
  exact List.flatMap_congr fun x hx => h.expr_congr hpk (hxs x hx)

theorem PlaceAgrees.operands_congr {target : Expr} (htarget : target ∈ s.evaluatedTargets) :
    effectsOf (p.checkTargetOperands evals cursor target) =
      effectsOf (k.checkTargetOperands evals cursor target) := by
  refine h.exprs_congr hpk fun x hx => ?_
  obtain ⟨leaf, hleaf, hx⟩ := List.mem_flatMap.mp hx
  refine List.mem_append_right _ (List.mem_append_left _ (List.mem_flatMap.mpr ⟨leaf, ?_, hx⟩))
  exact List.mem_flatMap.mpr ⟨target, htarget, hleaf⟩

theorem PlaceAgrees.target_congr {target : Expr} (htarget : target ∈ s.storedTargets) :
    p.checkAssignTarget cursor target = k.checkAssignTarget cursor target := by
  refine checkAssignTarget_congr hpk fun leaf hleaf e he => h.lookups e ?_
  refine List.mem_append_right _ (List.mem_append_left _ (List.mem_flatMap.mpr ⟨leaf, ?_, he⟩))
  exact List.mem_flatMap.mpr ⟨target, htarget, hleaf⟩

/-- A decorator by itself, without what it is called with. -/
theorem PlaceAgrees.decoratorEffect_congr {dec : Decorator} (hdec : dec ∈ s.decorators)
    (data : CallData) (range : TextRange) :
    p.decoratorEffect evals cursor dec.call.1 dec.call.2 data range =
      k.decoratorEffect evals cursor dec.call.1 dec.call.2 data range := by
  have hcall := CallAgrees.of_queried (h.decorator_queried hdec)
  have htext : ∀ e, calledText k.library dec.call.1 (argsOf dec.call.2) = some e →
      effectsOf (p.expr cursor evals e) = effectsOf (k.expr cursor evals e) := by
    intro e he
    refine h.expr_congr hpk (List.mem_append_left _ (List.mem_flatMap.mpr ⟨dec, hdec, ?_⟩))
    have hlibrary : p.library = k.library := hpk.library
    rw [Decorator.evaluated, hlibrary, he]
    exact List.mem_append_right _ (List.mem_append_right _ (List.mem_singleton.mpr rfl))
  have harguments : ∀ a, dec.call.2 = some a →
      CallAgrees p k cursor dec.call.1 a.args a.keywords := by
    intro a ha
    rw [ha] at hcall
    exact hcall
  unfold decoratorEffect
  rcases hcall.target.cases with ⟨hp, hk⟩ | ⟨r, r', hp, hk, hname⟩
  · rw [hp, hk]
    exact checkUnresolvedCall_congr hpk htext harguments hcall.receiver _
  · rw [hp, hk]
    simp only [hname.resolvedFname hpk, hname.isImport]

theorem PlaceAgrees.decorator_congr {dec : Decorator} (hdec : dec ∈ s.decorators) :
    effectsOf (p.checkDecorator evals cursor dec) =
      effectsOf (k.checkDecorator evals cursor dec) := by
  have hcall := CallAgrees.of_queried (h.decorator_queried hdec)
  have hevaluated : ∀ x ∈ dec.evaluated p.library, x ∈ p.evaluatedExprs s := fun x hx =>
    List.mem_append_left _ (List.mem_flatMap.mpr ⟨dec, hdec, hx⟩)
  -- the arguments of the decorator are among what the place evaluates
  have hoperands : effectsOf (p.exprs evals cursor (dec.call.2.elim [] fun a =>
        a.args ++ a.keywords.map Prod.snd)) =
      effectsOf (k.exprs evals cursor (dec.call.2.elim [] fun a =>
        a.args ++ a.keywords.map Prod.snd)) := by
    refine h.exprs_congr hpk fun x hx => hevaluated x ?_
    unfold Decorator.evaluated argsOf keywordsOf
    cases hargs : dec.call.2 with
    | none =>
      rw [hargs] at hx
      cases hx
    | some a =>
      rw [hargs] at hx
      rcases List.mem_append.mp hx with hx | hx
      · exact List.mem_append_left _ hx
      · exact List.mem_append_right _ (List.mem_append_left _ hx)
  have hchecked : dec.call.2.map (p.checkCallArgs cursor) =
      dec.call.2.map (k.checkCallArgs cursor) := by
    cases hargs : dec.call.2 with
    | none => rfl
    | some a =>
      rw [hargs] at hcall
      exact congrArg some (checkCallArgs_congr hcall.positional hcall.keyword)
  have hfname : (p.info.resolve cursor dec.call.1).bind p.resolvedFname =
      (k.info.resolve cursor dec.call.1).bind k.resolvedFname := by
    rcases hcall.target.cases with ⟨hp, hk⟩ | ⟨r, r', hp, hk, hname⟩
    · rw [hp, hk]
      rfl
    · rw [hp, hk]
      exact hname.resolvedFname hpk
  have hchain : p.decoratorChain cursor dec.call.1 = k.decoratorChain cursor dec.call.1 := by
    have hreceiver := hcall.receiver
    unfold decoratorChain
    split
    · next value _ _ _ _ _ _ _ _ heq =>
      rw [heq] at hreceiver
      exact checkAttrImpl_congr hpk
        (hreceiver value (List.mem_cons_of_mem _ (List.mem_cons_self ..))) ..
    · rfl
  unfold checkDecorator
  dsimp only
  simp only [effectsOf_append, hoperands, hchecked, hfname, hchain,
    checkCallArgLimit_congr hpk, h.decoratorEffect_congr hpk hdec]

theorem PlaceAgrees.storeTo_congr {target : Expr} (htarget : target ∈ s.storedTargets)
    (hevaluated : target ∈ s.evaluatedTargets) :
    effectsOf (p.storeTo evals cursor target) = effectsOf (k.storeTo evals cursor target) := by
  unfold storeTo
  rw [effectsOf_append, effectsOf_append, h.target_congr hpk htarget,
    h.operands_congr hpk hevaluated]

end Statements

section Imports

variable {p k : SourceAnalyzer} (hpk : SameModule p k) (cursor : Cursor)
include hpk

theorem importSource_congr (source : Option Str) (level : Nat) :
    p.importSource source level = k.importSource source level := by
  unfold importSource
  rw [library, library, hpk.library, hpk.moduleName, hpk.parsed]

theorem checkReExports_congr (name : Str) (range : TextRange) :
    p.checkReExports cursor name range = k.checkReExports cursor name range := by
  unfold checkReExports
  rw [hpk.moduleName, hpk.exports]

theorem addImportFrom_congr (source : Option Str) (level : Nat) (names : List ImportAlias)
    (isLazy isCalled : Bool) :
    p.addImportFrom cursor source level names isLazy isCalled =
      k.addImportFrom cursor source level names isLazy isCalled := by
  have hsub : p.addSubImport = k.addSubImport := by
    unfold addSubImport isModule
    rw [library, library, hpk.library, hpk.moduleName, hpk.importGraph]
  unfold addImportFrom
  rw [importSource_congr hpk, hsub, hpk.exports]

theorem importFrom_congr (source : Option Str) (level : Nat) (names : List ImportAlias)
    (isLazy : Bool) (range : TextRange) :
    p.importFrom cursor source level names isLazy range =
      k.importFrom cursor source level names isLazy range := by
  have hmulti : p.checkMultiReexport = k.checkMultiReexport := by
    unfold checkMultiReexport
    rw [hpk.moduleName, hpk.exports]
  unfold importFrom
  rw [importSource_congr hpk, addImportFrom_congr hpk, hmulti, hpk.exports]

theorem calledImportWrites_congr (s : Stmt) :
    p.calledImportWrites cursor s = k.calledImportWrites cursor s := by
  unfold calledImportWrites
  simp only [importFrom_congr hpk, addImportFrom_congr hpk]

/-- The imports in a function body are the same effects in both. -/
theorem checkFunctionBodyForImports_congr (body : List Stmt) :
    effectsOf (p.checkFunctionBodyForImports cursor body) =
      effectsOf (k.checkFunctionBodyForImports cursor body) := by
  have hstatement : p.checkFunctionStatement cursor = k.checkFunctionStatement cursor := by
    funext s
    unfold checkFunctionStatement
    simp only [importFrom_congr hpk]
  have hchain : ∀ (self : SourceAnalyzer) x, effectsOf (self.checkFunctionChain cursor x) = [] := by
    intro self x
    unfold checkFunctionChain
    cases (self.importedChain cursor x).bind Prod.snd <;> rfl
  unfold checkFunctionBodyForImports
  simp only [effectsOf_flatMap, effectsOf_append, hstatement, hchain]

end Imports

section Statements

variable {p k : SourceAnalyzer} {evals : Nat} {cursor : Cursor} {s : Stmt}
  (hpk : SameModule p k) (h : PlaceAgrees p k evals cursor s)
include hpk h

theorem PlaceAgrees.assignTarget_congr {targets : List Expr} {value : Expr} {range : TextRange}
    (hs : s = .assign targets value range) {target : Expr} (htarget : target ∈ targets) :
    p.assignTarget cursor value target = k.assignTarget cursor value target := by
  subst hs
  have hvalue : value ∈ p.evaluatedExprs (.assign targets value range) :=
    List.mem_append_right _ (List.mem_append_right _ (List.mem_singleton.mpr rfl))
  have himported : p.importedByCall cursor value = k.importedByCall cursor value :=
    h.imported value (List.mem_flatMap.mpr ⟨value, hvalue, self_mem_exprNodes ..⟩)
  unfold assignTarget
  rw [himported, h.target_congr hpk htarget]

/-- A statement by itself has the same effects where both analyzers agree on it. -/
theorem PlaceAgrees.ownWrites_congr :
    effectsOf (p.ownWrites evals cursor s) = effectsOf (k.ownWrites evals cursor s) := by
  have hvalue : ∀ x ∈ p.evaluatedValues s, effectsOf (p.expr cursor evals x) =
      effectsOf (k.expr cursor evals x) := fun x hx =>
    h.expr_congr hpk (List.mem_append_right _ (List.mem_append_right _ hx))
  have hvalues : ∀ xs : List Expr, (∀ x ∈ xs, x ∈ p.evaluatedValues s) →
      effectsOf (p.exprs evals cursor xs) = effectsOf (k.exprs evals cursor xs) := fun xs hxs =>
    h.exprs_congr hpk fun x hx => List.mem_append_right _ (List.mem_append_right _ (hxs x hx))
  have hdecorators : effectsOf (p.checkDecorators evals cursor s.decorators) =
      effectsOf (k.checkDecorators evals cursor s.decorators) := by
    unfold checkDecorators
    rw [effectsOf_flatMap, effectsOf_flatMap]
    exact List.flatMap_congr fun dec hdec => h.decorator_congr hpk hdec
  -- each kind of statement evaluates, calls and stores only what the place agrees on
  cases s with
  | assign targets value range =>
    show effectsOf (p.assign evals cursor targets value range) =
      effectsOf (k.assign evals cursor targets value range)
    unfold assign
    simp only [effectsOf_append, effectsOf_flatMap, hpk.moduleName, checkReExports_congr hpk,
      hvalue value (List.mem_singleton.mpr rfl)]
    refine congrArg (· ++ _) (List.flatMap_congr fun target htarget => ?_)
    rw [h.assignTarget_congr hpk rfl htarget, h.operands_congr hpk htarget]
  | annAssign target annotation value =>
    show effectsOf (p.annAssign evals cursor target value) =
      effectsOf (k.annAssign evals cursor target value)
    unfold annAssign
    rw [effectsOf_append, effectsOf_append, effectsOf_append, effectsOf_append,
      h.operands_congr hpk (List.mem_singleton.mpr rfl), hvalues value.toList fun x hx => hx]
    cases value with
    | none => rfl
    | some v =>
      have htarget : p.checkAssignTarget cursor target = k.checkAssignTarget cursor target :=
        h.target_congr hpk (List.mem_singleton.mpr rfl)
      simp only [Option.isSome_some, if_true, htarget]
  | augAssign target isAdd value =>
    show effectsOf (p.storeTo evals cursor target ++ p.expr cursor evals value) =
      effectsOf (k.storeTo evals cursor target ++ k.expr cursor evals value)
    rw [effectsOf_append, effectsOf_append, hvalue value (List.mem_singleton.mpr rfl),
      h.storeTo_congr hpk (List.mem_singleton.mpr rfl) (List.mem_singleton.mpr rfl)]
  | delete targets =>
    show effectsOf (targets.flatMap (p.storeTo evals cursor)) =
      effectsOf (targets.flatMap (k.storeTo evals cursor))
    rw [effectsOf_flatMap, effectsOf_flatMap]
    exact List.flatMap_congr fun target htarget => h.storeTo_congr hpk htarget htarget
  | expr value => exact hvalue value (List.mem_singleton.mpr rfl)
  | returnValue value => exact hvalues value.toList fun x hx => hx
  | classDef name arguments decorators body range =>
    show effectsOf (p.checkDecorators evals cursor decorators ++
        arguments.elim [] fun a => p.classHead evals cursor name.id a range) =
      effectsOf (k.checkDecorators evals cursor decorators ++
        arguments.elim [] fun a => k.classHead evals cursor name.id a range)
    rw [effectsOf_append, effectsOf_append, show effectsOf (p.checkDecorators evals cursor
      decorators) = effectsOf (k.checkDecorators evals cursor decorators) from hdecorators]
    cases arguments with
    | none => rfl
    | some a =>
      show _ ++ effectsOf (p.classHead evals cursor name.id a range) =
        _ ++ effectsOf (k.classHead evals cursor name.id a range)
      -- a base that is a plain name is not evaluated here
      have hbases : effectsOf (p.exprs evals cursor ((a.args ++ a.keywords.map Prod.snd).filter
            fun e => e.asVarName.isNone)) =
          effectsOf (k.exprs evals cursor ((a.args ++ a.keywords.map Prod.snd).filter
            fun e => e.asVarName.isNone)) := hvalues _ fun x hx => hx
      unfold classHead
      dsimp only
      rw [effectsOf_append, effectsOf_append, hbases]
  | functionDef name params decorators body range =>
    have hdefaults : effectsOf (p.exprs evals cursor (params.filterMap Parameter.default)) =
        effectsOf (k.exprs evals cursor (params.filterMap Parameter.default)) :=
      hvalues _ fun x hx => hx
    show effectsOf (p.checkDecorators evals cursor decorators ++ _) =
      effectsOf (k.checkDecorators evals cursor decorators ++ _)
    rw [effectsOf_append, effectsOf_append, effectsOf_append, effectsOf_append,
      show effectsOf (p.checkDecorators evals cursor decorators) =
        effectsOf (k.checkDecorators evals cursor decorators) from hdecorators,
      hdefaults, hpk.moduleName, checkReExports_congr hpk]
  | raise exc cause range =>
    show effectsOf (p.raise evals cursor exc cause range) =
      effectsOf (k.raise evals cursor exc cause range)
    unfold raise
    cases exc with
    | none => rfl
    | some e =>
      dsimp only
      rw [effectsOf_append, effectsOf_append, hvalues (e :: cause.toList) fun x hx => hx]
  | forLoop target iter body orelse => exact hvalues [target, iter] fun x hx => hx
  | whileLoop test body orelse => exact hvalue test (List.mem_singleton.mpr rfl)
  | withBlock items body =>
    show effectsOf (items.flatMap fun item =>
        p.expr cursor evals item.1 ++ item.2.elim [] (p.storeTo evals cursor)) =
      effectsOf (items.flatMap fun item =>
        k.expr cursor evals item.1 ++ item.2.elim [] (k.storeTo evals cursor))
    rw [effectsOf_flatMap, effectsOf_flatMap]
    refine List.flatMap_congr fun item hitem => ?_
    rw [effectsOf_append, effectsOf_append, hvalue item.1 (List.mem_map_of_mem hitem)]
    refine congrArg (_ ++ ·) ?_
    cases htarget : item.2 with
    | none => rfl
    | some target =>
      have hstored : target ∈ items.filterMap Prod.snd :=
        List.mem_filterMap.mpr ⟨item, hitem, htarget⟩
      exact h.storeTo_congr hpk hstored hstored
  | matchCases subject _ => exact hvalue subject (List.mem_singleton.mpr rfl)
  | importNames names isLazy => rfl
  | importFrom source level names isLazy range =>
    exact congrArg effectsOf (importFrom_congr hpk cursor source level names isLazy range)
  | assert test msg => exact hvalues (test :: msg.toList) fun x hx => hx
  | _ => rfl

end Statements

end SourceAnalyzer

end Lifeguard
