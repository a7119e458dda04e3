import Lifeguard.Lookups

/-!
# The scopes of effects

The effects of a statement are recorded in the scope it stands in. The one exception is a
mutation of a parameter, which is recorded in the scope of the parameter.

- `LandsIn`: the effects that are written are of the scope, or of that of a parameter that
  one of the expressions looked up stands for;
- `lands_ownWrites`: so are those of every statement.
-/

namespace Lifeguard

open Lib

namespace SourceAnalyzer

/-- Every effect is of the scope, or of that of a parameter one of the expressions is. -/
def LandsIn (self : SourceAnalyzer) (cursor : Cursor) (queried : List Expr)
    (ws : List OutputWrite) : Prop :=
  ∀ e ∈ effectsOf ws, e.1 = cursor.scope ∨ ∃ q ∈ queried, ∃ param,
    (self.info.resolve cursor q).bind self.receiverParam = some param ∧ e.1 = param.1

namespace LandsIn

variable {self : SourceAnalyzer} {cursor : Cursor} {queried queried' : List Expr}
  {ws ws' : List OutputWrite}

theorem nil : LandsIn self cursor queried [] := fun _ he => by cases he

theorem append (h : LandsIn self cursor queried ws) (h' : LandsIn self cursor queried ws') :
    LandsIn self cursor queried (ws ++ ws') := by
  intro e he
  rw [effectsOf_append] at he
  rcases List.mem_append.mp he with he | he
  · exact h e he
  · exact h' e he

/-- An effect of the scope itself. -/
theorem here (eff : Effect) : LandsIn self cursor queried (addEffect cursor eff) := by
  intro e he
  obtain rfl := List.mem_singleton.mp he
  exact Or.inl rfl

/-- A write that is no effect. -/
theorem other {w : OutputWrite} (hw : w.effect? = none) : LandsIn self cursor queried [w] := by
  intro e he
  simp [effectsOf, hw] at he

theorem cons_other {w : OutputWrite} (hw : w.effect? = none)
    (h : LandsIn self cursor queried ws) : LandsIn self cursor queried (w :: ws) := by
  intro e he
  unfold effectsOf at he
  rw [List.filterMap_cons_none hw] at he
  exact h e he

/-- The mutation of a parameter that an expression is. -/
theorem param {q : Expr} (hq : q ∈ queried) {res : ResolvedName}
    (hres : self.info.resolve cursor q = some res) (range : TextRange) :
    LandsIn self cursor queried
      ((self.receiverParam res).elim [] fun param => addParamMethodCall param range) := by
  cases hparam : self.receiverParam res with
  | none => exact nil
  | some param =>
    intro e he
    obtain rfl := List.mem_singleton.mp he
    refine Or.inr ⟨q, hq, param, ?_, rfl⟩
    rw [hres, Option.bind_some, hparam]

theorem ite {c : Prop} [Decidable c] (h : c → LandsIn self cursor queried ws)
    (h' : ¬ c → LandsIn self cursor queried ws') :
    LandsIn self cursor queried (if c then ws else ws') := by
  split
  · next hc => exact h hc
  · next hc => exact h' hc

theorem elim {α : Type} {o : Option α} {f : α → List OutputWrite}
    (h : ∀ a, o = some a → LandsIn self cursor queried (f a)) :
    LandsIn self cursor queried (o.elim [] f) := by
  cases o with
  | none => exact nil
  | some a => exact h a rfl

theorem flatMap {α : Type} {xs : List α} {f : α → List OutputWrite}
    (h : ∀ x ∈ xs, LandsIn self cursor queried (f x)) :
    LandsIn self cursor queried (xs.flatMap f) := by
  intro e he
  rw [effectsOf_flatMap] at he
  obtain ⟨x, hx, he⟩ := List.mem_flatMap.mp he
  exact h x hx e he

/-- The effects of an evaluated text are of the same scopes. -/
theorem evaluated (h : LandsIn self cursor queried ws) (range : TextRange) :
    LandsIn self cursor queried (evaluatedAt range ws) := by
  intro e he
  unfold effectsOf evaluatedAt at he
  rw [List.filterMap_map] at he
  obtain ⟨e', he', heq⟩ := List.mem_filterMap.mp he
  obtain rfl := Option.some.inj heq
  exact h e' he'

end LandsIn

section Checks

variable {self : SourceAnalyzer} {cursor : Cursor} {queried : List Expr}

/-! ## Attributes, subscripts and stores -/

theorem lands_checkThreadLocalStore (obj : Expr) (ctx : ExprContext) (range : TextRange) :
    LandsIn self cursor queried (self.checkThreadLocalStore cursor obj ctx range) :=
  LandsIn.elim fun _ _ => LandsIn.here _

theorem lands_checkTypedAttr (obj : Expr) (attr : Str) (res : ResolvedName) :
    LandsIn self cursor queried (self.checkTypedAttr cursor obj attr res) := by
  unfold checkTypedAttr
  dsimp only
  split
  · split
    · exact LandsIn.ite (fun _ => LandsIn.here _) fun _ => LandsIn.nil
    · refine LandsIn.ite (fun _ => ?_) fun _ => LandsIn.nil
      exact LandsIn.ite (fun _ => LandsIn.nil) fun _ => LandsIn.here _
  · refine LandsIn.elim fun _ _ => ?_
    exact LandsIn.ite (fun _ => LandsIn.nil) fun _ => LandsIn.here _

theorem lands_checkAttrImpl (obj : Expr) (attr : Str) (attrRange : TextRange)
    (ctx : ExprContext) :
    LandsIn self cursor queried (self.checkAttrImpl cursor obj attr attrRange ctx) := by
  unfold checkAttrImpl
  split
  · exact LandsIn.elim fun _ _ => LandsIn.here _
  · next res _ =>
    have haccess : LandsIn self cursor queried (self.checkImportAccess cursor obj attr res) := by
      unfold checkImportAccess
      refine LandsIn.elim fun _ _ => ?_
      exact LandsIn.ite (fun _ => LandsIn.nil) fun _ => LandsIn.other rfl
    refine (lands_checkTypedAttr obj attr res).append (LandsIn.append ?_ ?_)
    · refine LandsIn.ite (fun _ => haccess.append ?_) fun _ => LandsIn.nil
      exact LandsIn.ite (fun _ => LandsIn.here _) fun _ => LandsIn.nil
    · exact LandsIn.ite (fun _ => lands_checkThreadLocalStore obj ctx _) fun _ => LandsIn.nil

theorem lands_checkSubscript {value : Expr} (hvalue : value ∈ queried) (slice : Expr)
    (ctx : ExprContext) (range : TextRange) :
    LandsIn self cursor queried (self.checkSubscript cursor value slice ctx range) := by
  unfold checkSubscript
  refine LandsIn.ite (fun _ => LandsIn.ite (fun _ => LandsIn.nil) fun _ => LandsIn.here _)
    fun _ => LandsIn.ite (fun _ => LandsIn.nil) fun _ => ?_
  split
  · exact LandsIn.nil
  · next res hres =>
    exact (LandsIn.ite (fun _ => LandsIn.here _) fun _ => LandsIn.nil).append
      (LandsIn.param hvalue hres _)

theorem lands_checkCompare (left : Expr) (comparators : List Expr) :
    LandsIn self cursor queried (self.checkCompare cursor left comparators) := by
  refine LandsIn.flatMap fun e _ => ?_
  split
  · exact LandsIn.ite (fun _ => LandsIn.here _) fun _ => LandsIn.nil
  · exact LandsIn.nil

theorem lands_checkTargetLeaf {target : Expr} (htarget : ∀ e ∈ target.storeQueried, e ∈ queried) :
    LandsIn self cursor queried (self.checkTargetLeaf cursor target) := by
  have hself : target ∈ queried := htarget target (List.mem_cons_self ..)
  have hlocal : ∀ res, self.info.resolve cursor target = some res →
      LandsIn self cursor queried (self.checkLocalTarget cursor target res) := by
    intro res hres
    unfold checkLocalTarget
    split
    · next value slice ctx range =>
      exact lands_checkSubscript
        (htarget value (List.mem_cons_of_mem _ (List.mem_cons_self ..))) slice ctx range
    · exact LandsIn.param hself hres _
    · exact LandsIn.nil
  have hresolved : ∀ res, self.info.resolve cursor target = some res →
      LandsIn self cursor queried (self.checkResolvedTarget cursor target res) := by
    intro res hres
    unfold checkResolvedTarget
    refine LandsIn.ite (fun _ => LandsIn.here _) fun _ => LandsIn.append ?_ ?_
    · split
      · exact lands_checkThreadLocalStore _ _ _
      · exact LandsIn.nil
    · exact LandsIn.ite (fun _ => LandsIn.here _) fun _ =>
        LandsIn.ite (fun _ => LandsIn.here _) fun _ => hlocal res hres
  unfold checkTargetLeaf
  split
  · exact LandsIn.nil
  · exact LandsIn.ite (fun _ => LandsIn.here _) fun _ => LandsIn.elim hresolved

theorem lands_checkAssignTarget {target : Expr}
    (h : ∀ leaf ∈ target.targetLeaves, ∀ e ∈ leaf.storeQueried, e ∈ queried) :
    LandsIn self cursor queried (self.checkAssignTarget cursor target) :=
  LandsIn.flatMap fun leaf hleaf => lands_checkTargetLeaf (h leaf hleaf)

/-! ## Calls -/

theorem lands_classifyCallArg (arg : Expr) :
    LandsIn self cursor queried (self.classifyCallArg cursor arg).1 := by
  unfold classifyCallArg
  split
  · exact LandsIn.nil
  · split
    · exact LandsIn.here _
    · split
      · split <;> exact LandsIn.nil
      · exact LandsIn.nil

theorem lands_checkCallArgs (arguments : CallArguments) :
    LandsIn self cursor queried (self.checkCallArgs cursor arguments).1 := by
  unfold checkCallArgs
  refine LandsIn.append (LandsIn.flatMap fun a ha => ?_) (LandsIn.flatMap fun a ha => ?_)
  · obtain ⟨arg, _, rfl⟩ := List.mem_map.mp ha
    exact lands_classifyCallArg _
  · obtain ⟨kw, _, rfl⟩ := List.mem_map.mp ha
    exact lands_classifyCallArg _

theorem lands_checkCallArgLimit (arguments : Option CallArguments) (fname : Option ModuleName) :
    LandsIn self cursor queried (self.checkCallArgLimit cursor arguments fname) :=
  LandsIn.elim fun _ _ => LandsIn.ite (fun _ => LandsIn.here _) fun _ => LandsIn.nil

theorem lands_unknownFunctionName (func : Expr) :
    LandsIn self cursor queried (unknownFunctionName cursor func) :=
  LandsIn.elim fun _ _ => LandsIn.here _

theorem lands_checkGetattr (arguments : CallArguments) :
    LandsIn self cursor queried (self.checkGetattr cursor arguments) := by
  unfold checkGetattr
  split
  · split
    · exact lands_checkAttrImpl _ _ _ _
    · exact LandsIn.here _
  · exact LandsIn.nil

theorem lands_checkSetattr {arguments : CallArguments}
    (h : ∀ obj ∈ arguments.args.take 1, ∀ leaf ∈ obj.targetLeaves,
      ∀ e ∈ leaf.storeQueried, e ∈ queried) :
    LandsIn self cursor queried (self.checkSetattr cursor arguments) := by
  unfold checkSetattr
  split
  · next obj attr _ _ hargs =>
    have htarget : LandsIn self cursor queried (self.checkAssignTarget cursor obj) := by
      refine lands_checkAssignTarget (h obj ?_)
      rw [hargs]
      exact List.mem_cons_self ..
    split
    · refine (lands_checkAttrImpl _ _ _ _).append ?_
      exact LandsIn.ite (fun _ => LandsIn.nil) fun _ => htarget
    · exact (LandsIn.here _).append htarget
  · exact LandsIn.nil

end Checks

section Texts

variable {self : SourceAnalyzer} {cursor : Cursor} {queried : List Expr} {func : Expr}
  {ev : Expr → List OutputWrite}

/-- What is asked of what an expression is called with: the evaluated text lands, and so do
the stores of a `setattr`. -/
structure CallLands (p : SourceAnalyzer) (cursor : Cursor) (queried : List Expr)
    (ev : Expr → List OutputWrite) (func : Expr) (args : List Expr) : Prop where
  target : func ∈ queried
  stored : func.fullName = some "setattr".toList → ∀ obj ∈ args.take 1,
    ∀ leaf ∈ obj.targetLeaves, ∀ e ∈ leaf.storeQueried, e ∈ queried
  text : ∀ e, calledText p.library func args = some e → LandsIn p cursor queried (ev e)

theorem lands_checkEval {arguments : Option CallArguments}
    (h : CallLands self cursor queried ev func (argsOf arguments))
    (heval : func.fullName = some "eval".toList) (fname : ModuleName) (range : TextRange) :
    LandsIn self cursor queried (self.checkEval cursor ev arguments fname range) := by
  unfold checkEval
  split
  · exact LandsIn.nil
  · next code literal rest hargs =>
    refine LandsIn.ite (fun _ => LandsIn.nil) fun hcode => ?_
    split
    · next e he =>
      refine (h.text e ?_).evaluated range
      unfold calledText argsOf
      rw [if_pos heval, hargs]
      simp only [if_neg hcode, he]
    · exact LandsIn.here _
  · exact LandsIn.here _

theorem lands_checkUnresolvedCall {arguments : Option CallArguments}
    (h : CallLands self cursor queried ev func (argsOf arguments)) (callKind : Option CallKind) :
    LandsIn self cursor queried (self.checkUnresolvedCall cursor ev func arguments callKind) := by
  unfold checkUnresolvedCall
  split
  · exact lands_unknownFunctionName func
  · next fname hfname =>
    refine LandsIn.ite (fun _ => LandsIn.here _) fun _ => ?_
    unfold checkBuiltinCall
    dsimp only
    refine LandsIn.ite (fun _ => LandsIn.elim fun a _ => lands_checkGetattr a) fun _ =>
      LandsIn.ite (fun hset => LandsIn.elim fun a ha => ?_) fun _ =>
      LandsIn.ite (fun _ => LandsIn.here _) fun _ =>
      LandsIn.ite (fun heval => lands_checkEval h (heval ▸ hfname) _ _) fun _ => ?_
    · subst ha
      exact lands_checkSetattr (h.stored (hset ▸ hfname))
    · split
      · exact LandsIn.here _
      · exact LandsIn.ite (fun _ => LandsIn.nil) fun _ =>
          LandsIn.ite (fun _ => LandsIn.nil) fun _ => LandsIn.here _

theorem lands_methodCall {res : ResolvedName} (hfunc : func ∈ queried)
    (hres : self.info.resolve cursor func = some res) (attr : Str) (fname : ModuleName)
    (range : TextRange) (data : EffectData) :
    LandsIn self cursor queried (self.methodCall cursor attr res fname range data) := by
  unfold methodCall
  dsimp only
  refine LandsIn.append (LandsIn.ite (fun _ => LandsIn.nil) fun _ => LandsIn.here _) ?_
  refine LandsIn.append (LandsIn.elim fun _ _ => LandsIn.other rfl) (LandsIn.append ?_ ?_)
  · refine LandsIn.ite (fun _ => LandsIn.nil) fun _ => LandsIn.elim fun param hparam => ?_
    refine LandsIn.ite (fun _ => ?_) fun _ => LandsIn.nil
    have hlands : LandsIn self cursor queried _ := LandsIn.param hfunc hres range
    rw [hparam] at hlands
    exact hlands
  · exact LandsIn.ite (fun _ => LandsIn.here _) fun _ => LandsIn.nil

theorem lands_namedCall {res : ResolvedName} (hfunc : func ∈ queried)
    (hres : self.info.resolve cursor func = some res) (fname : ModuleName) (range : TextRange)
    (data : EffectData) :
    LandsIn self cursor queried (self.namedCall cursor func res fname range data) := by
  refine LandsIn.cons_other rfl ?_
  refine LandsIn.ite (fun _ => LandsIn.nil) fun _ => ?_
  unfold handleMethodCall
  split
  · split
    · exact lands_methodCall hfunc hres _ _ _ _
    · exact lands_methodCall hfunc hres _ _ _ _
    · exact LandsIn.here _
  · exact LandsIn.here _

/-- A function with a name is what its expression resolves to. -/
theorem resolve_of_resolveFunctionName {arguments : Option CallArguments}
    {r : ResolvedName × ModuleName}
    (h : (self.resolveFunctionName cursor ev func arguments).2 = some r) :
    self.info.resolve cursor func = some r.1 := by
  unfold resolveFunctionName at h
  split at h
  · cases h
  · next res hres =>
    split at h
    · cases h
    · split at h
      · cases h
      · obtain rfl := Option.some.inj h
        exact hres

theorem lands_checkCall {call : Expr} {arguments : CallArguments}
    (h : CallLands self cursor queried ev func arguments.args) :
    LandsIn self cursor queried (self.checkCall cursor ev call func arguments) := by
  have hresolved : LandsIn self cursor queried
      (self.resolveFunctionName cursor ev func (some arguments)).1 := by
    have hunresolved : LandsIn self cursor queried
        (self.checkUnresolvedCall cursor ev func (some arguments) none) :=
      lands_checkUnresolvedCall h none
    unfold resolveFunctionName
    split
    · exact hunresolved
    · split
      · exact hunresolved
      · split
        · exact lands_unknownFunctionName func
        · exact LandsIn.nil
  -- a call by name is resolved where its function is looked up
  have hnamed : ∀ data, LandsIn self cursor queried
      ((self.resolveFunctionName cursor ev func (some arguments)).2.elim [] fun r =>
        self.namedCall cursor func r.1 r.2 call.range data) := by
    intro data
    refine LandsIn.elim fun r hr => ?_
    exact lands_namedCall h.target (resolve_of_resolveFunctionName hr) _ _ _
  unfold checkCall
  refine LandsIn.append ?_ ?_
  · unfold checkSubclassesAccess
    split
    · exact LandsIn.ite (fun _ => LandsIn.here _) fun _ => LandsIn.nil
    · exact LandsIn.nil
  · split
    · exact LandsIn.other rfl
    · refine (lands_checkCallArgs arguments).append ?_
      unfold unpackedCall
      refine LandsIn.ite (fun _ => LandsIn.here _) fun _ => ?_
      dsimp only
      split
      · exact LandsIn.here _
      · split
        · exact LandsIn.cons_other rfl (LandsIn.here _)
        · exact hresolved.append ((lands_checkCallArgLimit _ _).append (hnamed _))

end Texts

/-! ## Expressions -/

section Expressions

variable {self : SourceAnalyzer} {cursor : Cursor} {queried : List Expr}

theorem lands_checkNode {ev : Expr → List OutputWrite} {x : Expr}
    (h : ∀ e ∈ x.queried, e ∈ queried)
    (htext : ∀ e, x.evaluatedText self.library = some e → LandsIn self cursor queried (ev e)) :
    LandsIn self cursor queried (self.checkNode cursor ev x) := by
  unfold checkNode
  split
  · next func args keywords argsRange range =>
    refine lands_checkCall ⟨h func (List.mem_cons_self ..), ?_, htext⟩
    intro hset obj hobj leaf hleaf e he
    refine h e (List.mem_cons_of_mem _ (List.mem_append_right _ (List.mem_append_right _
      (List.mem_append_right _ (List.mem_append_right _ ?_)))))
    rw [if_pos hset]
    exact List.mem_flatMap.mpr ⟨leaf, List.mem_flatMap.mpr ⟨obj, hobj, hleaf⟩, he⟩
  · exact lands_checkAttrImpl _ _ _ _
  · next value slice ctx range =>
    exact lands_checkSubscript (h value (List.mem_cons_self ..)) slice ctx range
  · exact lands_checkCompare _ _
  · exact LandsIn.other rfl
  · exact LandsIn.nil

/-- The effects of an expression land where what is looked up for it says. -/
theorem lands_expr {evals : Nat} {x : Expr}
    (h : ∀ node ∈ exprNodes self.library evals x, ∀ e ∈ node.queried, e ∈ queried) :
    LandsIn self cursor queried (self.expr cursor evals x) := by
  induction evals generalizing x with
  | zero =>
    exact LandsIn.flatMap fun node hnode => lands_checkNode (h node hnode) fun _ _ => LandsIn.nil
  | succ evals ih =>
    refine LandsIn.flatMap fun node hnode => ?_
    refine lands_checkNode (h node (List.mem_flatMap.mpr ⟨node, hnode, List.mem_cons_self ..⟩))
      fun e he => ih fun inner hinner => h inner (List.mem_flatMap.mpr ⟨node, hnode, ?_⟩)
    rw [he]
    exact List.mem_cons_of_mem _ hinner

end Expressions

/-! ## Statements -/

section Statements

variable {self : SourceAnalyzer} {evals : Nat} {cursor : Cursor} {s : Stmt}

theorem lands_evaluated {x : Expr} (hx : x ∈ self.evaluatedExprs s) :
    LandsIn self cursor (self.lookups evals s) (self.expr cursor evals x) := by
  refine lands_expr fun node hnode e he => ?_
  refine List.mem_append_right _ (List.mem_append_right _ (List.mem_flatMap.mpr ⟨node, ?_, he⟩))
  exact List.mem_flatMap.mpr ⟨x, hx, hnode⟩

theorem lands_evaluatedAll {xs : List Expr} (hxs : ∀ x ∈ xs, x ∈ self.evaluatedExprs s) :
    LandsIn self cursor (self.lookups evals s) (self.exprs evals cursor xs) :=
  LandsIn.flatMap fun x hx => lands_evaluated (hxs x hx)

theorem lands_operands {target : Expr} (htarget : target ∈ s.evaluatedTargets) :
    LandsIn self cursor (self.lookups evals s) (self.checkTargetOperands evals cursor target) := by
  refine lands_evaluatedAll fun x hx => ?_
  obtain ⟨leaf, hleaf, hx⟩ := List.mem_flatMap.mp hx
  refine List.mem_append_right _ (List.mem_append_left _ (List.mem_flatMap.mpr ⟨leaf, ?_, hx⟩))
  exact List.mem_flatMap.mpr ⟨target, htarget, hleaf⟩

theorem lands_target {target : Expr} (htarget : target ∈ s.storedTargets) :
    LandsIn self cursor (self.lookups evals s) (self.checkAssignTarget cursor target) := by
  refine lands_checkAssignTarget fun leaf hleaf e he => ?_
  refine List.mem_append_right _ (List.mem_append_left _ (List.mem_flatMap.mpr ⟨leaf, ?_, he⟩))
  exact List.mem_flatMap.mpr ⟨target, htarget, hleaf⟩

theorem lands_checkDecorator {dec : Decorator} (hdec : dec ∈ s.decorators) :
    LandsIn self cursor (self.lookups evals s) (self.checkDecorator evals cursor dec) := by
  have hevaluated : ∀ x ∈ dec.evaluated self.library, x ∈ self.evaluatedExprs s := fun x hx =>
    List.mem_append_left _ (List.mem_flatMap.mpr ⟨dec, hdec, hx⟩)
  have hqueried : ∀ e ∈ dec.queried, e ∈ self.lookups evals s := fun e he =>
    List.mem_append_left _ (List.mem_flatMap.mpr ⟨dec, hdec, he⟩)
  -- a decorator is looked up as a call of itself is
  have hcall : CallLands self cursor (self.lookups evals s) (self.expr cursor evals) dec.call.1
      (argsOf dec.call.2) := by
    refine ⟨hqueried _ (List.mem_cons_self ..), ?_, ?_⟩
    · intro hset obj hobj leaf hleaf e he
      refine hqueried e (List.mem_cons_of_mem _ (List.mem_append_right _
        (List.mem_append_right _ (List.mem_append_right _ (List.mem_append_right _ ?_)))))
      rw [if_pos hset]
      exact List.mem_flatMap.mpr ⟨leaf, List.mem_flatMap.mpr ⟨obj, hobj, hleaf⟩, he⟩
    · intro e he
      refine lands_evaluated (hevaluated e ?_)
      rw [Decorator.evaluated, he]
      exact List.mem_append_right _ (List.mem_append_right _ (List.mem_singleton.mpr rfl))
  have hoperands : ∀ x ∈ dec.call.2.elim [] fun a => a.args ++ a.keywords.map Prod.snd,
      x ∈ dec.evaluated self.library := by
    intro x hx
    unfold Decorator.evaluated argsOf keywordsOf
    cases hargs : dec.call.2 with
    | none =>
      rw [hargs] at hx
      cases hx
    | some a =>
      rw [hargs] at hx
      rcases List.mem_append.mp hx with hx | hx
      · exact List.mem_append_left _ hx
      · exact List.mem_append_right _ (List.mem_append_left _ hx)
  have heffect : ∀ data, LandsIn self cursor (self.lookups evals s)
      (self.decoratorEffect evals cursor dec.call.1 dec.call.2 data dec.range) := by
    intro data
    unfold decoratorEffect
    split
    · exact lands_checkUnresolvedCall hcall _
    · split
      · exact LandsIn.here _
      · exact LandsIn.ite (fun _ => LandsIn.nil) fun _ =>
          LandsIn.cons_other rfl (LandsIn.here _)
  have hchain : LandsIn self cursor (self.lookups evals s)
      (self.decoratorChain cursor dec.call.1) := by
    unfold decoratorChain
    split
    · exact lands_checkAttrImpl _ _ _ _
    · exact LandsIn.nil
  unfold checkDecorator
  refine (lands_evaluatedAll fun x hx => hevaluated x (hoperands x hx)).append
    (LandsIn.append ?_ ?_)
  · show LandsIn self cursor _ ((dec.call.2.map (self.checkCallArgs cursor)).getD ([], {})).1
    cases dec.call.2 with
    | none => exact LandsIn.nil
    | some a => exact lands_checkCallArgs a
  · refine LandsIn.ite (fun _ => LandsIn.nil) fun _ => LandsIn.append ?_ (hchain.append ?_)
    · exact LandsIn.ite (fun _ => LandsIn.nil) fun _ => lands_checkCallArgLimit _ _
    · exact heffect _

theorem lands_checkReExports (queried : List Expr) (name : Str) (range : TextRange) :
    LandsIn self cursor queried (self.checkReExports cursor name range) :=
  LandsIn.ite (fun _ => LandsIn.here _) fun _ => LandsIn.nil

theorem lands_addImportFrom (queried : List Expr) (source : Option Str) (level : Nat)
    (names : List ImportAlias) (isLazy isCalled : Bool) :
    LandsIn self cursor queried
      (self.addImportFrom cursor source level names isLazy isCalled) := by
  have hadd : ∀ imported, (addImport cursor isCalled imported).effect? = none := by
    intro imported
    cases isCalled <;> rfl
  have hsub : ∀ m name, LandsIn self cursor queried (self.addSubImport cursor m isCalled name) :=
    fun _ _ => LandsIn.ite (fun _ => LandsIn.other (hadd _)) fun _ => LandsIn.nil
  refine LandsIn.elim fun m _ => LandsIn.append ?_ (LandsIn.append ?_ ?_)
  · exact LandsIn.ite (fun _ => LandsIn.nil) fun _ => LandsIn.other rfl
  · exact LandsIn.ite (fun _ => LandsIn.nil) fun _ => LandsIn.other (hadd m)
  · refine LandsIn.flatMap fun a _ => ?_
    exact LandsIn.ite (fun _ => LandsIn.flatMap fun name _ => hsub m name) fun _ => hsub m _

theorem lands_importFrom (queried : List Expr) (source : Option Str) (level : Nat)
    (names : List ImportAlias) (isLazy : Bool) (range : TextRange) :
    LandsIn self cursor queried (self.importFrom cursor source level names isLazy range) := by
  have hmulti : ∀ name, LandsIn self cursor queried (self.checkMultiReexport cursor range name) :=
    fun _ => LandsIn.ite (fun _ => LandsIn.here _) fun _ => LandsIn.nil
  refine (lands_addImportFrom queried source level names isLazy false).append
    (LandsIn.flatMap fun a _ => ?_)
  exact LandsIn.ite (fun _ => LandsIn.flatMap fun name _ => hmulti name) fun _ => hmulti _

theorem lands_addPendingImport (queried : List Expr) (names : List ImportAlias) (isLazy : Bool) :
    LandsIn self cursor queried (addPendingImport cursor names isLazy) := by
  refine LandsIn.flatMap fun a _ => LandsIn.append ?_ ?_
  · exact LandsIn.ite (fun _ => LandsIn.nil) fun _ => LandsIn.other rfl
  · split
    · exact LandsIn.other rfl
    · intro e he
      cases he

/-- The effects of a statement land where what is looked up for it says. -/
theorem lands_ownWrites : LandsIn self cursor (self.lookups evals s)
    (self.ownWrites evals cursor s) := by
  have hvalue : ∀ x ∈ self.evaluatedValues s, LandsIn self cursor (self.lookups evals s)
      (self.expr cursor evals x) := fun x hx =>
    lands_evaluated (List.mem_append_right _ (List.mem_append_right _ hx))
  have hvalues : ∀ xs : List Expr, (∀ x ∈ xs, x ∈ self.evaluatedValues s) →
      LandsIn self cursor (self.lookups evals s) (self.exprs evals cursor xs) := fun xs hxs =>
    LandsIn.flatMap fun x hx => hvalue x (hxs x hx)
  have hstore : ∀ target, target ∈ s.storedTargets → target ∈ s.evaluatedTargets →
      LandsIn self cursor (self.lookups evals s) (self.storeTo evals cursor target) :=
    fun target hstored hevaluated => (lands_target hstored).append (lands_operands hevaluated)
  have hdecorators : LandsIn self cursor (self.lookups evals s)
      (self.checkDecorators evals cursor s.decorators) :=
    LandsIn.flatMap fun dec hdec => lands_checkDecorator hdec
  -- a statement stores to its targets and evaluates its values, and does no more by itself
  cases s with
  | assign targets value range =>
    refine LandsIn.append (LandsIn.flatMap fun target htarget => LandsIn.append ?_ ?_)
      (LandsIn.append ?_ (hvalue value (List.mem_singleton.mpr rfl)))
    · unfold assignTarget
      split
      · intro e he
        cases he
      · exact lands_target htarget
    · exact lands_operands htarget
    · refine LandsIn.ite (fun _ => ?_) fun _ => LandsIn.nil
      split
      · exact lands_checkReExports _ _ _
      · exact LandsIn.nil
  | annAssign target annotation value =>
    refine LandsIn.append ?_ ((lands_operands (List.mem_singleton.mpr rfl)).append
      (hvalues _ fun x hx => hx))
    refine LandsIn.ite (fun hsome => lands_target ?_) fun _ => LandsIn.nil
    show target ∈ if value.isSome then [target] else []
    rw [if_pos hsome]
    exact List.mem_singleton.mpr rfl
  | augAssign target isAdd value =>
    exact (hstore target (List.mem_singleton.mpr rfl) (List.mem_singleton.mpr rfl)).append
      (hvalue value (List.mem_singleton.mpr rfl))
  | delete targets => exact LandsIn.flatMap fun target htarget => hstore target htarget htarget
  | expr value => exact hvalue value (List.mem_singleton.mpr rfl)
  | returnValue value => exact hvalues _ fun x hx => hx
  | classDef name arguments decorators body range =>
    refine LandsIn.append hdecorators ?_
    cases arguments with
    | none => exact LandsIn.nil
    | some a =>
      refine LandsIn.append (hvalues _ fun x hx => hx) ?_
      exact LandsIn.ite (fun _ => LandsIn.here _) fun _ => LandsIn.nil
  | functionDef name params decorators body range =>
    refine LandsIn.append hdecorators (LandsIn.append (hvalues _ fun x hx => hx) ?_)
    exact LandsIn.ite (fun _ => lands_checkReExports _ _ _) fun _ => LandsIn.nil
  | raise exc cause range =>
    show LandsIn self cursor _ (self.raise evals cursor exc cause range)
    unfold raise
    cases exc with
    | none =>
      refine LandsIn.ite (fun _ => LandsIn.nil) fun _ => ?_
      exact LandsIn.ite (fun _ => LandsIn.nil) fun _ => LandsIn.here _
    | some e =>
      refine LandsIn.append (hvalues (e :: cause.toList) fun x hx => hx) ?_
      exact LandsIn.ite (fun _ => LandsIn.nil) fun _ => LandsIn.here _
  | forLoop target iter body orelse => exact hvalues [target, iter] fun x hx => hx
  | whileLoop test body orelse => exact hvalue test (List.mem_singleton.mpr rfl)
  | withBlock items body =>
    refine LandsIn.flatMap fun item hitem => ?_
    refine (hvalue item.1 (List.mem_map_of_mem hitem)).append (LandsIn.elim fun target htarget => ?_)
    have hstored : target ∈ items.filterMap Prod.snd :=
      List.mem_filterMap.mpr ⟨item, hitem, htarget⟩
    exact hstore target hstored hstored
  | matchCases subject _ => exact hvalue subject (List.mem_singleton.mpr rfl)
  | importNames names isLazy => exact lands_addPendingImport _ _ _
  | importFrom source level names isLazy range => exact lands_importFrom _ _ _ _ _ _
  | assert test msg => exact hvalues (test :: msg.toList) fun x hx => hx
  | _ => exact LandsIn.nil

end Statements

end SourceAnalyzer

end Lifeguard
