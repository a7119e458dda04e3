import Lifeguard.EffectScopes
import Lifeguard.StatementAgreement

/-!
# Effects outside the `__main__` guard

A module is analyzed once with its guards pruned, where the main module is known, and once with
the guards kept and what is in them marked. A guard that is kept also binds its names, so the
two analyses may resolve a name outside the guards differently.

- `Covers`: one record has, unmarked, the effects of another in the scopes that count;
- `covers_stmt`: the walk with the guards kept covers the walk without them, where both agree
  on what reaches these scopes;
- `effects_survive_marking`: so it is for a whole module.
-/

namespace Lifeguard

open Lib

namespace ModuleEffects

/-- The effects of a record are in another one, and both are at the same depth of guards. -/
structure Extends (o o' : ModuleEffects) : Prop where
  guard : o'.inMainGuard = o.inMainGuard
  effects : ∀ scope, ∀ eff ∈ o.effectsIn scope, eff ∈ o'.effectsIn scope

/-- Outside every guard: the effects of a record in the scopes that count are unmarked, and
another record has them. -/
structure Covers (counts : ModuleName → Prop) (o o' : ModuleEffects) : Prop where
  outside : o.inMainGuard = false
  outside' : o'.inMainGuard = false
  effects : ∀ scope, counts scope → ∀ eff ∈ o.effectsIn scope,
    eff.fromMainGuard = false ∧ eff ∈ o'.effectsIn scope

/-- A record together with the effects and the called imports of a function body. -/
def withBody (output out : ModuleEffects) : ModuleEffects :=
  { output with
    effects := output.effects.merge out.effects
    allCalledImportNames := output.allCalledImportNames ∪ out.allCalledImportNames }

theorem effectsIn_withBody (output out : ModuleEffects) (scope : ModuleName) :
    (output.withBody out).effectsIn scope = output.effectsIn scope ++ out.effectsIn scope :=
  EffectTable.effectsOf_merge output.effects out.effects scope

/-! ## Records that grow -/

namespace Extends

variable {o o' o'' : ModuleEffects}

theorem refl (o : ModuleEffects) : Extends o o := ⟨rfl, fun _ _ h => h⟩

theorem trans (h : Extends o o') (h' : Extends o' o'') : Extends o o'' :=
  ⟨h'.guard.trans h.guard, fun scope eff heff => h'.effects scope eff (h.effects scope eff heff)⟩

theorem apply (o : ModuleEffects) (ws : List OutputWrite) : Extends o (o.apply ws) :=
  ⟨inMainGuard_apply o ws, fun _ _ heff => mem_effectsIn_apply.mpr (Or.inl heff)⟩

theorem withBody (o out : ModuleEffects) : Extends o (o.withBody out) := by
  refine ⟨rfl, fun scope eff heff => ?_⟩
  rw [effectsIn_withBody]
  exact List.mem_append_left _ heff

theorem foldl {α : Type} {f : ModuleEffects → α → ModuleEffects}
    (hf : ∀ o a, Extends o (f o a)) (xs : List α) (o : ModuleEffects) :
    Extends o (xs.foldl f o) := by
  induction xs generalizing o with
  | nil => exact refl o
  | cons a xs ih => exact (hf o a).trans (ih (f o a))

end Extends

/-! ## Records that cover one another -/

namespace Covers

variable {counts : ModuleName → Prop} {o o' o'' : ModuleEffects}

theorem empty : Covers counts {} {} := ⟨rfl, rfl, fun _ _ _ heff => by cases heff⟩

theorem extended (h : Covers counts o o') (h' : Extends o' o'') : Covers counts o o'' :=
  ⟨h.outside, h'.guard.trans h.outside', fun scope hscope eff heff =>
    ⟨(h.effects scope hscope eff heff).1, h'.effects scope eff (h.effects scope hscope eff heff).2⟩⟩

/-- Writes keep it up that are, in the scopes that count, among those of the other side. -/
theorem apply (h : Covers counts o o') {ws ws' : List OutputWrite}
    (hws : ∀ e ∈ effectsOf ws, counts e.1 → e ∈ effectsOf ws') :
    Covers counts (o.apply ws) (o'.apply ws') := by
  refine ⟨?_, ?_, fun scope hscope eff heff => ?_⟩
  · rw [inMainGuard_apply, h.outside]
  · rw [inMainGuard_apply, h.outside']
  · rcases mem_effectsIn_apply.mp heff with hold | ⟨e, he, hs, rfl⟩
    · obtain ⟨hunmarked, hmem⟩ := h.effects scope hscope eff hold
      exact ⟨hunmarked, mem_effectsIn_apply.mpr (Or.inl hmem)⟩
    · refine ⟨h.outside, mem_effectsIn_apply.mpr (Or.inr ⟨e, hws e he (hs ▸ hscope), hs, ?_⟩)⟩
      rw [h.outside, h.outside']

theorem apply_eq (h : Covers counts o o') {ws ws' : List OutputWrite}
    (hws : effectsOf ws = effectsOf ws') : Covers counts (o.apply ws) (o'.apply ws') :=
  h.apply fun _ he _ => hws ▸ he

theorem withBody (h : Covers counts o o') {out out' : ModuleEffects}
    (hout : Covers counts out out') :
    Covers counts (o.withBody out) (o'.withBody out') := by
  refine ⟨h.outside, h.outside', fun scope hscope eff heff => ?_⟩
  rw [effectsIn_withBody] at heff ⊢
  rcases List.mem_append.mp heff with heff | heff
  · obtain ⟨hunmarked, hmem⟩ := h.effects scope hscope eff heff
    exact ⟨hunmarked, List.mem_append_left _ hmem⟩
  · obtain ⟨hunmarked, hmem⟩ := hout.effects scope hscope eff heff
    exact ⟨hunmarked, List.mem_append_right _ hmem⟩

theorem foldl {α : Type} {f g : ModuleEffects → α → ModuleEffects} {xs : List α}
    (hstep : ∀ a ∈ xs, ∀ o o', Covers counts o o' → Covers counts (f o a) (g o' a))
    (h : Covers counts o o') : Covers counts (xs.foldl f o) (xs.foldl g o') := by
  induction xs generalizing o o' with
  | nil => exact h
  | cons a xs ih =>
    exact ih (fun b hb => hstep b (List.mem_cons_of_mem _ hb))
      (hstep a (List.mem_cons_self ..) o o' h)

end Covers

end ModuleEffects

namespace SourceAnalyzer

open ModuleEffects

/-! ## The walk only adds effects -/

section Growth

variable (self : SourceAnalyzer) (evals : Nat) (cursor : Cursor)

theorem extends_ifBranch {walk : Walk} (hwalk : ∀ c o s, Extends o (walk c o s))
    (branches : List (Option Expr × List Stmt)) (o : ModuleEffects)
    (branch : Nat × Option Expr) :
    Extends o (self.ifBranch evals cursor walk branches o branch) := by
  have htest : Extends o (o.apply (self.exprs evals cursor branch.2.toList)) := Extends.apply o _
  refine htest.trans ⟨rfl, fun scope eff heff => ?_⟩
  exact (Extends.foldl (hwalk cursor) _ _).effects scope eff heff

theorem extends_stmtsWithCalledImports {walk : Walk} (hwalk : ∀ c o s, Extends o (walk c o s))
    (o : ModuleEffects) (body : List Stmt) :
    Extends o (self.stmtsWithCalledImports cursor walk o body) :=
  Extends.foldl (fun o s => (Extends.apply o _).trans (hwalk cursor _ s)) body o

theorem extends_runBody (walk : Walk) (name : Str) (body : List Stmt) (o : ModuleEffects) :
    Extends o (self.runBody cursor walk name body o) := by
  show Extends o (ModuleEffects.withBody (if _ then _ else _) _)
  refine Extends.trans ?_ (Extends.withBody _ _)
  split
  · exact Extends.apply o _
  · exact Extends.refl o

theorem extends_classBody {walk : Walk} (hwalk : ∀ c o s, Extends o (walk c o s)) (name : Str)
    (body : List Stmt) (range : TextRange) (o : ModuleEffects) :
    Extends o (self.classBody cursor walk name body range o) :=
  (Extends.apply o _).trans
    (Extends.foldl (fun o s => (Extends.apply o _).trans (hwalk _ _ s)) body _)

/-- The walk of a statement only adds effects, and leaves every guard it enters. -/
theorem extends_stmt (fuel : Nat) (o : ModuleEffects) (s : Stmt) :
    Extends o (self.stmt evals fuel cursor o s) := by
  induction fuel generalizing cursor o s with
  | zero => exact Extends.refl o
  | succ fuel ih =>
    have hwalk : ∀ c o s, Extends o (self.stmt evals fuel c o s) := fun c o s => ih c o s
    have hown : Extends o (o.apply (self.ownWrites evals cursor s)) := Extends.apply o _
    unfold stmt
    refine hown.trans ?_
    split
    · exact self.extends_runBody cursor _ _ _ _
    · exact self.extends_classBody cursor hwalk _ _ _ _
    · exact self.extends_stmtsWithCalledImports cursor hwalk _ _
    · exact (self.extends_stmtsWithCalledImports _ hwalk _ _).trans
        (Extends.foldl (hwalk cursor) _ _)
    · exact Extends.foldl (self.extends_ifBranch evals cursor hwalk _) _ _
    · exact Extends.foldl (hwalk cursor) _ _
    · exact Extends.foldl (hwalk cursor) _ _
    · exact Extends.foldl (hwalk cursor) _ _
    · exact Extends.refl _

end Growth

/-! ## Pruning against marking -/

/-- An analyzer that leaves out the guards another one keeps. -/
structure PrunesGuards (p k : SourceAnalyzer) : Prop extends SameModule p k where
  branches : ∀ branches, p.info.config.lgPrunedIfBranches branches p.info.moduleName =
    (k.info.config.lgPrunedIfBranches branches k.info.moduleName).filter fun b =>
      !b.2.any AnalysisConfig.isMainGuard

/-- A statement may have an effect in one of the scopes that count: its own scope is one, or a
parameter of one is looked up for it. -/
def Reaches (self : SourceAnalyzer) (counts : ModuleName → Prop) (evals : Nat)
    (cursor : Cursor) (s : Stmt) : Prop :=
  counts cursor.scope ∨ ∃ q ∈ self.lookups evals s, ∃ param,
    (self.info.resolve cursor q).bind self.receiverParam = some param ∧ counts param.1

/-- Both analyzers agree on a place, as far as its effects reach the scopes that count. -/
def AgreesWhere (p k : SourceAnalyzer) (counts : ModuleName → Prop) (evals : Nat)
    (place : Cursor × Stmt) : Prop :=
  p.Reaches counts evals place.1 place.2 → PlaceAgrees p k evals place.1 place.2

section Places

variable {p k : SourceAnalyzer} {counts : ModuleName → Prop} {evals : Nat} {cursor : Cursor}
  {s : Stmt} (hpk : SameModule p k) (h : AgreesWhere p k counts evals (cursor, s))
include h

/-- Where effects count, they land in reach. -/
theorem AgreesWhere.agrees {ws : List OutputWrite}
    (hlands : LandsIn p cursor (p.lookups evals s) ws) {e : ModuleName × Effect}
    (he : e ∈ effectsOf ws) (hcounts : counts e.1) : PlaceAgrees p k evals cursor s := by
  refine h ?_
  rcases hlands e he with hscope | ⟨q, hq, param, hparam, heq⟩
  · exact Or.inl (hscope ▸ hcounts)
  · exact Or.inr ⟨q, hq, param, hparam, heq ▸ hcounts⟩

include hpk

theorem AgreesWhere.ownWrites : ∀ e ∈ effectsOf (p.ownWrites evals cursor s), counts e.1 →
    e ∈ effectsOf (k.ownWrites evals cursor s) := by
  intro e he hcounts
  rw [← (h.agrees lands_ownWrites he hcounts).ownWrites_congr hpk]
  exact he

theorem AgreesWhere.exprs {xs : List Expr} (hxs : ∀ x ∈ xs, x ∈ p.evaluatedExprs s) :
    ∀ e ∈ effectsOf (p.exprs evals cursor xs), counts e.1 →
      e ∈ effectsOf (k.exprs evals cursor xs) := by
  intro e he hcounts
  rw [← (h.agrees (lands_evaluatedAll hxs) he hcounts).exprs_congr hpk hxs]
  exact he

end Places

section Walk

variable {p k : SourceAnalyzer} {counts : ModuleName → Prop} {evals : Nat}
  {walk walk' : Walk} {cursor : Cursor} {o o' : ModuleEffects}

theorem covers_stmtsWithCalledImports (hpk : SameModule p k) {body : List Stmt}
    (hwalk : ∀ s ∈ body, ∀ o o', Covers counts o o' →
      Covers counts (walk cursor o s) (walk' cursor o' s))
    (h : Covers counts o o') :
    Covers counts (p.stmtsWithCalledImports cursor walk o body)
      (k.stmtsWithCalledImports cursor walk' o' body) := by
  refine h.foldl fun s hs o o' ho => hwalk s hs _ _ (ho.apply_eq ?_)
  rw [calledImportWrites_congr hpk]

theorem covers_runBody (hpk : SameModule p k) {name : Str} {body : List Stmt}
    (hwalk : ∀ s ∈ body, ∀ o o', Covers counts o o' →
      Covers counts (walk (cursor.enterFunctionScope p.library name) o s)
        (walk' (cursor.enterFunctionScope p.library name) o' s))
    (h : Covers counts o o') :
    Covers counts (p.runBody cursor walk name body o) (k.runBody cursor walk' name body o') := by
  have hlibrary : k.library = p.library := hpk.library.symm
  have hbody : Covers counts
      (body.foldl (walk (cursor.enterFunctionScope p.library name)) {})
      (body.foldl (walk' (cursor.enterFunctionScope p.library name)) {}) :=
    Covers.empty.foldl hwalk
  unfold runBody
  rw [hlibrary]
  refine Covers.withBody ?_ hbody
  split
  · exact h.apply_eq (checkFunctionBodyForImports_congr hpk _ body)
  · exact h

theorem covers_classBody (hpk : SameModule p k) {name : Str} {body : List Stmt}
    (hwalk : ∀ s ∈ body, ∀ o o', Covers counts o o' →
      Covers counts (walk (cursor.enterClassScope p.library name) o s)
        (walk' (cursor.enterClassScope p.library name) o' s))
    (range : TextRange) (h : Covers counts o o') :
    Covers counts (p.classBody cursor walk name body range o)
      (k.classBody cursor walk' name body range o') := by
  have hlibrary : k.library = p.library := hpk.library.symm
  unfold classBody
  dsimp only
  rw [hlibrary, checkReExports_congr hpk]
  exact (h.apply_eq rfl).foldl fun s hs o o' ho => hwalk s hs _ _ (ho.apply_eq rfl)

/-- A branch that both keep, which is no guard. -/
theorem covers_ifBranch (branches : List (Option Expr × List Stmt)) {branch : Nat × Option Expr}
    (hguard : branch.2.any AnalysisConfig.isMainGuard = false)
    (htest : ∀ e ∈ effectsOf (p.exprs evals cursor branch.2.toList), counts e.1 →
      e ∈ effectsOf (k.exprs evals cursor branch.2.toList))
    (hwalk : ∀ s ∈ ((branches[branch.1]?).map Prod.snd).getD [], ∀ o o', Covers counts o o' →
      Covers counts (walk cursor o s) (walk' cursor o' s))
    (h : Covers counts o o') :
    Covers counts (p.ifBranch evals cursor walk branches o branch)
      (k.ifBranch evals cursor walk' branches o' branch) := by
  have happlied := h.apply htest
  have hentered : Covers counts
      ((o.apply (p.exprs evals cursor branch.2.toList)).enterMainGuard false)
      ((o'.apply (k.exprs evals cursor branch.2.toList)).enterMainGuard false) := by
    refine ⟨?_, ?_, happlied.effects⟩
    · show (_ || false) = false
      rw [happlied.outside, Bool.or_false]
    · show (_ || false) = false
      rw [happlied.outside', Bool.or_false]
  have hbody := hentered.foldl hwalk
  unfold ifBranch
  dsimp only
  rw [hguard]
  exact ⟨happlied.outside, happlied.outside', hbody.effects⟩

/-- The branches of an `if`: the guards are walked on the one side only. -/
theorem covers_branches (branches : List (Option Expr × List Stmt))
    (hwalk' : ∀ c o s, Extends o (walk' c o s)) (taken : List (Nat × Option Expr))
    (hbranch : ∀ branch ∈ taken.filter fun b => !b.2.any AnalysisConfig.isMainGuard,
      ∀ o o', Covers counts o o' →
        Covers counts (p.ifBranch evals cursor walk branches o branch)
          (k.ifBranch evals cursor walk' branches o' branch))
    (h : Covers counts o o') :
    Covers counts
      ((taken.filter fun b => !b.2.any AnalysisConfig.isMainGuard).foldl
        (p.ifBranch evals cursor walk branches) o)
      (taken.foldl (k.ifBranch evals cursor walk' branches) o') := by
  induction taken generalizing o o' with
  | nil => exact h
  | cons branch taken ih =>
    rw [List.foldl_cons]
    cases hguard : branch.2.any AnalysisConfig.isMainGuard with
    | true =>
      rw [List.filter_cons_of_neg (by simp [hguard])] at hbranch ⊢
      exact ih hbranch (h.extended (k.extends_ifBranch evals cursor hwalk' branches o' branch))
    | false =>
      rw [List.filter_cons_of_pos (by simp [hguard])] at hbranch ⊢
      exact ih (fun b hb => hbranch b (List.mem_cons_of_mem _ hb))
        (hbranch branch (List.mem_cons_self ..) o o' h)

end Walk

/-- The walk with the guards kept covers the walk without them, where both analyzers agree on
the places of the latter. -/
theorem covers_stmt {p k : SourceAnalyzer} {counts : ModuleName → Prop} {evals : Nat}
    (hpk : PrunesGuards p k) (fuel : Nat) {cursor : Cursor} {s : Stmt} {o o' : ModuleEffects}
    (hplaces : ∀ place ∈ p.places fuel cursor s, AgreesWhere p k counts evals place)
    (h : Covers counts o o') :
    Covers counts (p.stmt evals fuel cursor o s) (k.stmt evals fuel cursor o' s) := by
  induction fuel generalizing cursor s o o' with
  | zero => exact h
  | succ fuel ih =>
    have hsame : SameModule p k := hpk.toSameModule
    have hhere : AgreesWhere p k counts evals (cursor, s) := hplaces _ (List.mem_cons_self ..)
    have hown := h.apply (hhere.ownWrites hsame)
    have hinner := fun place hplace => hplaces place (List.mem_cons_of_mem _ hplace)
    -- the statements of a list whose places are among those of `s`
    have hbody : ∀ (c : Cursor) (body : List Stmt),
        (∀ place ∈ body.flatMap (p.places fuel c), AgreesWhere p k counts evals place) →
        ∀ t ∈ body, ∀ o o', Covers counts o o' →
          Covers counts (p.stmt evals fuel c o t) (k.stmt evals fuel c o' t) :=
      fun c body hall t ht o o' ho =>
        ih (fun place hplace => hall place (List.mem_flatMap.mpr ⟨t, ht, hplace⟩)) ho
    unfold stmt
    cases s with
    | functionDef name params decorators body range =>
      exact covers_runBody hsame (hbody _ body hinner) hown
    | classDef name arguments decorators body range =>
      exact covers_classBody hsame (hbody _ body hinner) range hown
    | withBlock items body =>
      exact covers_stmtsWithCalledImports hsame (hbody cursor body hinner) hown
    | tryExcept body handlers orelse finalbody =>
      have htry := covers_stmtsWithCalledImports hsame (hbody _ body fun place hplace =>
        hinner place (List.mem_append_left _ hplace)) hown
      exact htry.foldl (hbody cursor _ fun place hplace =>
        hinner place (List.mem_append_right _ hplace))
    | ifElse branches =>
      have htaken := hpk.branches branches
      show Covers counts
        ((p.info.config.lgPrunedIfBranches branches p.info.moduleName).foldl _ _) _
      rw [htaken]
      refine covers_branches branches (fun c o s => k.extends_stmt evals c fuel o s) _ ?_ hown
      intro branch hmem
      have hbranch : branch ∈ p.info.config.lgPrunedIfBranches branches p.info.moduleName :=
        htaken ▸ hmem
      have hguard : branch.2.any AnalysisConfig.isMainGuard = false := by
        simpa using (List.mem_filter.mp hmem).2
      refine fun o o' ho => covers_ifBranch branches hguard (hhere.exprs hsame fun x hx => ?_)
        (hbody cursor _ fun place hplace =>
          hinner place (List.mem_flatMap.mpr ⟨branch, hbranch, hplace⟩)) ho
      exact List.mem_append_right _ (List.mem_append_right _
        (List.mem_filterMap.mpr ⟨branch, hbranch, Option.mem_toList.mp hx⟩))
    | forLoop target iter body orelse => exact hown.foldl (hbody cursor _ hinner)
    | whileLoop test body orelse => exact hown.foldl (hbody cursor _ hinner)
    | matchCases subject cases => exact hown.foldl (hbody cursor _ hinner)
    | _ => exact hown

end SourceAnalyzer

/-! ## The import-time scopes -/

namespace ModuleTables

theorem eagerScopes_foldl {α : Type} {f g : ModuleTables → α → ModuleTables}
    (hstep : ∀ a t t', t.definitions.eagerScopes = t'.definitions.eagerScopes →
      (f t a).definitions.eagerScopes = (g t' a).definitions.eagerScopes)
    (xs : List α) {t t' : ModuleTables}
    (h : t.definitions.eagerScopes = t'.definitions.eagerScopes) :
    (xs.foldl f t).definitions.eagerScopes = (xs.foldl g t').definitions.eagerScopes := by
  induction xs generalizing t t' with
  | nil => exact h
  | cons a xs ih => exact ih (hstep a t t' h)

theorem eagerScopes_processAssign (ctx : DefinitionsContext) (self : ModuleTables)
    (cursor : Cursor) (targets : List Expr) (value : Expr) :
    (self.processAssign ctx cursor targets value).definitions.eagerScopes =
      self.definitions.eagerScopes := by
  have hadd : ∀ (imported : ModuleName) (targets : List Expr) (t : ModuleTables),
      (targets.foldl (addAliasTarget cursor.scope imported) t).definitions.eagerScopes =
        t.definitions.eagerScopes := by
    intro imported targets
    induction targets with
    | nil => exact fun _ => rfl
    | cons target targets ih =>
      intro t
      rw [List.foldl_cons, ih]
      unfold addAliasTarget
      split <;> rfl
  unfold processAssign
  split
  · exact hadd _ targets self
  · rfl

/-- Which scopes are run at import time does not depend on the main module: the walk of the
tables goes into the guards either way. -/
theorem eagerScopes_processStmt {ctx ctx' : DefinitionsContext}
    (hlibrary : ctx.config.library = ctx'.config.library) (fuel : Nat) {cursor : Cursor}
    {self self' : ModuleTables} (s : Stmt)
    (h : self.definitions.eagerScopes = self'.definitions.eagerScopes) :
    (self.processStmt ctx fuel cursor s).definitions.eagerScopes =
      (self'.processStmt ctx' fuel cursor s).definitions.eagerScopes := by
  induction fuel generalizing cursor self self' s with
  | zero => exact h
  | succ fuel ih =>
    have hscope : ∀ (c : Cursor) (body : List Stmt) (t t' : ModuleTables),
        t.definitions.eagerScopes = t'.definitions.eagerScopes →
        (t.addScope ctx c body).definitions.eagerScopes =
          (t'.addScope ctx' c body).definitions.eagerScopes := by
      intro c body t t' ht
      show (if _ then insert _ t.definitions.eagerScopes else t.definitions.eagerScopes) =
        if _ then insert _ t'.definitions.eagerScopes else t'.definitions.eagerScopes
      rw [ht]
    unfold processStmt
    cases s with
    | classDef name arguments decorators body range =>
      dsimp only
      rw [hlibrary]
      exact eagerScopes_foldl (fun s _ _ ht => ih s ht) body (hscope _ body _ _ h)
    | functionDef name params decorators body range =>
      dsimp only
      rw [hlibrary]
      exact eagerScopes_foldl (fun s _ _ ht => ih s ht) body (hscope _ body _ _ h)
    | assign targets value range =>
      dsimp only
      rw [eagerScopes_processAssign, eagerScopes_processAssign, h]
    | _ => exact eagerScopes_foldl (fun s _ _ ht => ih s ht) _ h

end ModuleTables

theorem eagerScopes_withMain (parsed : ParsedModule) (config : AnalysisConfig)
    (main main' : Option ModuleName) :
    (buildDefinitionsAndClasses parsed (config.withMain main)).definitions.eagerScopes =
      (buildDefinitionsAndClasses parsed (config.withMain main')).definitions.eagerScopes := by
  refine ModuleTables.eagerScopes_foldl (fun s t t' h => ?_) parsed.body rfl
  have hlibrary : (config.withMain main).library = (config.withMain main').library := rfl
  refine ModuleTables.eagerScopes_processStmt ?_ _ s h
  exact hlibrary

namespace SourceAnalyzer

open ModuleEffects

/-! ## A module -/

/-- `SourceAnalyzer::new`. -/
def make (parsed : ParsedModule) (exports : ModuleExports) (graph : ImportGraph) (stubs : Stubs)
    (config : AnalysisConfig) : SourceAnalyzer :=
  { parsed := parsed
    info := ModuleInfo.make parsed exports graph stubs config
    importGraph := graph }

/-- The scopes that run when the module is imported. -/
def importTime (self : SourceAnalyzer) (scope : ModuleName) : Prop :=
  scope ∈ self.info.definitions.eagerScopes

/-- Outside the main module, its guards are pruned, and kept where no main module is known. -/
theorem prunesGuards_make (parsed : ParsedModule) (exports : ModuleExports) (graph : ImportGraph)
    (stubs : Stubs) (config : AnalysisConfig) {main : ModuleName} (hmain : main ≠ parsed.name) :
    PrunesGuards (make parsed exports graph stubs (config.withMain (some main)))
      (make parsed exports graph stubs (config.withMain none)) where
  parsed := rfl
  importGraph := rfl
  moduleName := rfl
  library := rfl
  exports := rfl
  stubs := rfl
  branches := by
    intro branches
    show (config.withMain (some main)).lgPrunedIfBranches branches parsed.name =
      ((config.withMain none).lgPrunedIfBranches branches parsed.name).filter _
    rw [config.lgPrunedIfBranches_other hmain, config.lgPrunedIfBranches_none]

/-- The record of a module with its guards kept covers the record without them. -/
theorem covers_analyze {p k : SourceAnalyzer} {evals : Nat} (hpk : PrunesGuards p k)
    {counts : ModuleName → Prop}
    (hplaces : ∀ place ∈ p.modulePlaces, AgreesWhere p k counts evals place) :
    Covers counts (p.analyze evals) (k.analyze evals) := by
  have hbody : Covers counts
      (p.parsed.body.foldl (p.stmt evals (Stmt.depths p.parsed.body)
        (Cursor.enterModuleScope p.info.moduleName)) {})
      (p.parsed.body.foldl (k.stmt evals (Stmt.depths p.parsed.body)
        (Cursor.enterModuleScope p.info.moduleName)) {}) :=
    Covers.empty.foldl fun s hs o o' ho =>
      covers_stmt hpk _ (fun place hplace =>
        hplaces place (List.mem_flatMap.mpr ⟨s, hs, hplace⟩)) ho
  unfold analyze
  rw [← hpk.parsed, ← hpk.moduleName]
  exact ⟨hbody.outside, hbody.outside', hbody.effects⟩

end SourceAnalyzer

open SourceAnalyzer

/-- The guards of a module hide nothing that is looked up at import time: what is looked up
outside them for an effect of an import-time scope, is found to be the same with the guards
pruned and with the guards kept. -/
def GuardsHideNothing (evals : Nat) (parsed : ParsedModule) (exports : ModuleExports)
    (graph : ImportGraph) (stubs : Stubs) (config : AnalysisConfig) (main : ModuleName) : Prop :=
  let pruned := SourceAnalyzer.make parsed exports graph stubs (config.withMain (some main))
  let kept := SourceAnalyzer.make parsed exports graph stubs (config.withMain none)
  ∀ place ∈ pruned.modulePlaces, AgreesWhere pruned kept pruned.importTime evals place

/-- Guards that leave the tables as they are hide nothing. -/
theorem guardsHideNothing_of_tables {evals : Nat} {parsed : ParsedModule}
    {exports : ModuleExports} {graph : ImportGraph} {stubs : Stubs} {config : AnalysisConfig}
    {main : ModuleName}
    (h : SameTables
      (SourceAnalyzer.make parsed exports graph stubs (config.withMain (some main)))
      (SourceAnalyzer.make parsed exports graph stubs (config.withMain none))) :
    GuardsHideNothing evals parsed exports graph stubs config main :=
  fun _ _ _ => ⟨fun e _ => h.agrees _ e, fun node _ => h.importedByCall _ node⟩

/-- Marking the guards is as conservative as pruning them where they hide nothing: an effect
that is recorded in an import-time scope with the guards pruned, is among those that are left
of this import-time scope when what is marked is dropped from the record with the guards
kept. -/
theorem effects_survive_marking (evals : Nat) (parsed : ParsedModule) (exports : ModuleExports)
    (graph : ImportGraph) (stubs : Stubs) (config : AnalysisConfig) {main : ModuleName}
    (hmain : main ≠ parsed.name)
    (h : GuardsHideNothing evals parsed exports graph stubs config main) :
    let pruned := Lifeguard.analyze evals parsed exports graph stubs (config.withMain (some main))
    let kept := Lifeguard.analyze evals parsed exports graph stubs (config.withMain none)
    ∀ scope ∈ pruned.definitions.eagerScopes, scope ∈ kept.definitions.eagerScopes ∧
      ∀ eff ∈ pruned.moduleEffects.effectsIn scope,
        eff ∈ (kept.moduleEffects.effectsIn scope).filter fun e => !e.fromMainGuard := by
  intro pruned kept scope hscope
  refine ⟨eagerScopes_withMain parsed config (some main) none ▸ hscope, fun eff heff => ?_⟩
  have hcovers := covers_analyze (prunesGuards_make parsed exports graph stubs config hmain) h
  by_cases hthrift : parsed.isThriftGenerated = true
  · -- a module generated from Thrift has no effects
    have hnone : pruned.moduleEffects.effectsIn scope = [] := by
      show (if parsed.isThriftGenerated = true then _ else _ : ModuleEffects).effectsIn scope = []
      rw [if_pos hthrift]
      rfl
    rw [hnone] at heff
    cases heff
  · have hpruned : pruned.moduleEffects =
        (make parsed exports graph stubs (config.withMain (some main))).analyze evals :=
      if_neg hthrift
    have hkept : kept.moduleEffects =
        (make parsed exports graph stubs (config.withMain none)).analyze evals :=
      if_neg hthrift
    rw [hpruned] at heff
    obtain ⟨hunmarked, hmem⟩ := hcovers.effects scope hscope eff heff
    rw [hkept]
    exact List.mem_filter.mpr ⟨hmem, by rw [hunmarked]; rfl⟩

/-- No module is known but the one at hand. -/
def aloneGraph : ImportGraph where
  nodes := []
  nodes_nodup := List.nodup_nil
  edges := []
  edges_closed := fun _ h => by cases h
  missing := Table.empty
  missing_closed := fun _ h => by cases h

/-- Nothing is exported. -/
def noExports : ModuleExports where
  offsets := offsets_empty

/-- Stubs of nothing. -/
def noStubs : Stubs where
  modules := Table.empty.insert builtinsName {}
  builtins := {}
  get_builtins := rfl

/-- `foo()`, and then `if __name__ == "__main__":` with a body. -/
def callThenGuard (body : List Stmt) : ParsedModule where
  name := "m".toList
  body :=
    [.expr (.call (.name "foo".toList .load ⟨0, 3⟩) [] [] ⟨3, 5⟩ ⟨0, 5⟩),
      .ifElse
        [(some (.compare (.name "__name__".toList .load ⟨9, 17⟩) [.eq]
            [.stringLiteral "__main__".toList ⟨21, 31⟩] ⟨9, 31⟩), body)]]

/-- The configuration without a main module. -/
def dottedConfig : AnalysisConfig := { library := dottedNames }

/-- A guard that only calls something: the tables are the same with it and without it. -/
theorem effects_survive_marking_call :
    let parsed := callThenGuard
      [.expr (.call (.name "bar".toList .load ⟨37, 40⟩) [] [] ⟨40, 42⟩ ⟨37, 42⟩)]
    let pruned := Lifeguard.analyze 0 parsed noExports aloneGraph noStubs
      (dottedConfig.withMain (some "start".toList))
    let kept := Lifeguard.analyze 0 parsed noExports aloneGraph noStubs (dottedConfig.withMain none)
    ∀ scope ∈ pruned.definitions.eagerScopes, scope ∈ kept.definitions.eagerScopes ∧
      ∀ eff ∈ pruned.moduleEffects.effectsIn scope,
        eff ∈ (kept.moduleEffects.effectsIn scope).filter fun e => !e.fromMainGuard := by
  refine effects_survive_marking 0 _ noExports aloneGraph noStubs dottedConfig (by decide) ?_
  refine guardsHideNothing_of_tables ⟨⟨rfl, rfl, rfl, rfl, rfl, rfl⟩, ?_, ?_, ?_⟩ <;>
    decide +kernel

/-- A guard that defines the function that is called above it: with the guard pruned the call
is one of an unknown function, and that effect is not there with the guard kept. -/
theorem kept_guard_hides_effect :
    let parsed := callThenGuard
      [.functionDef { id := "foo".toList, range := ⟨41, 44⟩ } [] [] [.other] ⟨37, 53⟩]
    let pruned := Lifeguard.analyze 0 parsed noExports aloneGraph noStubs
      (dottedConfig.withMain (some "start".toList))
    let kept := Lifeguard.analyze 0 parsed noExports aloneGraph noStubs (dottedConfig.withMain none)
    let eff : Effect := { kind := .unknownFunctionCall, name := "foo".toList, range := ⟨0, 3⟩ }
    "m".toList ∈ pruned.definitions.eagerScopes ∧
      eff ∈ pruned.moduleEffects.effectsIn "m".toList ∧
      eff ∉ kept.moduleEffects.effectsIn "m".toList := by
  decide +kernel

end Lifeguard
