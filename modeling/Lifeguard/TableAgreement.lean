import Lifeguard.Lookups

/-!
# Analyzers with different tables

Two analyzers of one module write the same as long as their tables say the same about the
names that are looked up: which definition is in effect, up to its place, and what its alias,
its type and the class of its type are.

- `Agrees`: both analyzers find out the same about an expression;
- `effectsOf_checkNode_congr`, `effectsOf_expr_congr`: agreement on what is looked up for an
  expression is enough.
-/

namespace Lifeguard

open Lib

/-- The name, but for where its definition is. -/
def ResolvedName.plain (res : ResolvedName) : ResolvedName :=
  { res with definition := { style := res.definition.style, range := {}, firstBinding := 0 } }

namespace SourceAnalyzer

/-- Two analyzers of one module, with what is known of the other modules. -/
structure SameModule (p k : SourceAnalyzer) : Prop where
  parsed : p.parsed = k.parsed
  importGraph : p.importGraph = k.importGraph
  moduleName : p.info.moduleName = k.info.moduleName
  library : p.info.config.library = k.info.config.library
  exports : p.info.exports = k.info.exports
  stubs : p.info.stubs = k.info.stubs

/-- Both class tables say the same about instances of the class. -/
structure SameClass (p k : SourceAnalyzer) (typ : ModuleName) : Prop where
  fields : (p.info.classes.get? typ).map (fun cls => (cls.name, cls.fields)) =
    (k.info.classes.get? typ).map fun cls => (cls.name, cls.fields)
  threadLocal : p.threadLocalBase typ = k.threadLocalBase typ

/-- Both analyzers know the same of the value of a name of a scope. -/
structure SameEntry (p k : SourceAnalyzer) (scope : ModuleName) (name : Str) : Prop where
  binding : p.info.bindings.lookup scope name = k.info.bindings.lookup scope name
  directAlias : p.info.bindings.lookupAlias scope name = k.info.bindings.lookupAlias scope name
  endAlias : p.info.bindings.resolve scope name = k.info.bindings.resolve scope name
  localEnd : ∀ s n, p.info.bindings.resolve scope name = some (.localName s n) →
    (p.info.definitions.get s n).map Definition.style =
        (k.info.definitions.get s n).map Definition.style ∧
      p.boundToClass s n = k.boundToClass s n
  type : ∀ typ, p.info.bindings.getType scope name = some typ → SameClass p k typ

/-- Both analyzers find out the same about an expression. -/
structure Agrees (p k : SourceAnalyzer) (cursor : Cursor) (e : Expr) : Prop where
  resolved : (p.info.resolve cursor e).map ResolvedName.plain =
    (k.info.resolve cursor e).map ResolvedName.plain
  entry : ∀ res, p.info.resolve cursor e = some res → SameEntry p k res.scope res.name
  importAlias : p.isImportAlias cursor e = k.isImportAlias cursor e

/-- Both analyzers have the same tables. -/
structure SameTables (p k : SourceAnalyzer) : Prop extends SameModule p k where
  definitions : p.info.definitions = k.info.definitions
  bindings : p.info.bindings = k.info.bindings
  classes : p.info.classes = k.info.classes

/-- With the same tables, everything is found out the same. -/
theorem SameTables.agrees {p k : SourceAnalyzer} (h : SameTables p k) (cursor : Cursor)
    (e : Expr) : Agrees p k cursor e := by
  have hresolve : p.info.resolve cursor e = k.info.resolve cursor e := by
    unfold ModuleInfo.resolve ModuleInfo.resolveBuiltins
    rw [h.definitions, h.stubs]
  have hclass : ∀ typ, SameClass p k typ := by
    intro typ
    refine ⟨by rw [h.classes], ?_⟩
    unfold threadLocalBase
    rw [h.classes]
  refine ⟨by rw [hresolve], fun res _ => ⟨?_, ?_, ?_, ?_, fun typ _ => hclass typ⟩, ?_⟩
  · rw [h.bindings]
  · rw [h.bindings]
  · rw [h.bindings]
  · intro s n _
    unfold boundToClass
    rw [h.definitions, h.bindings]
    exact ⟨rfl, rfl⟩
  · unfold isImportAlias
    rw [h.bindings]

theorem SameTables.importedByCall {p k : SourceAnalyzer} (h : SameTables p k) (cursor : Cursor)
    (x : Expr) : p.importedByCall cursor x = k.importedByCall cursor x := by
  unfold SourceAnalyzer.importedByCall
  rw [h.definitions, library, library, h.library]

/-- Two resolved names of which the analyzers know the same. -/
structure SameName (p k : SourceAnalyzer) (r r' : ResolvedName) : Prop where
  plain : r.plain = r'.plain
  entry : SameEntry p k r.scope r.name

section Names

variable {p k : SourceAnalyzer} {cursor : Cursor} {e : Expr} {r r' : ResolvedName}

/-- Either the name is not found, or the same is known of what is found. -/
theorem Agrees.cases (h : Agrees p k cursor e) :
    (p.info.resolve cursor e = none ∧ k.info.resolve cursor e = none) ∨
      ∃ r r', p.info.resolve cursor e = some r ∧ k.info.resolve cursor e = some r' ∧
        SameName p k r r' := by
  have hresolved := h.resolved
  cases hp : p.info.resolve cursor e with
  | none =>
    rw [hp, Option.map_none] at hresolved
    exact Or.inl ⟨rfl, Option.map_eq_none_iff.mp hresolved.symm⟩
  | some r =>
    rw [hp, Option.map_some] at hresolved
    obtain ⟨r', hr', hplain⟩ := Option.map_eq_some_iff.mp hresolved.symm
    exact Or.inr ⟨r, r', rfl, hr', hplain.symm, h.entry r hp⟩

namespace SameName

/-- What does not depend on where the definition is. -/
theorem congr {α : Type} (h : SameName p k r r') (f : ResolvedName → α)
    (hf : ∀ x : ResolvedName, f x.plain = f x) : f r = f r' := by
  rw [← hf r, h.plain, hf r']

theorem name (h : SameName p k r r') : r.name = r'.name :=
  h.congr ResolvedName.name fun _ => rfl

theorem scope (h : SameName p k r r') : r.scope = r'.scope :=
  h.congr ResolvedName.scope fun _ => rfl

theorem exprFullName (h : SameName p k r r') : r.exprFullName = r'.exprFullName :=
  h.congr ResolvedName.exprFullName fun _ => rfl

theorem style (h : SameName p k r r') : r.definition.style = r'.definition.style :=
  h.congr (fun x => x.definition.style) fun _ => rfl

theorem isParam (h : SameName p k r r') : r.definition.isParam = r'.definition.isParam :=
  h.congr (fun x => x.definition.isParam) fun _ => rfl

theorem isClass (h : SameName p k r r') : r.definition.isClass = r'.definition.isClass :=
  h.congr (fun x => x.definition.isClass) fun _ => rfl

theorem isImport (h : SameName p k r r') : r.isImport = r'.isImport :=
  h.congr ResolvedName.isImport fun _ => rfl

theorem isGlobal (h : SameName p k r r') : r.isGlobal = r'.isGlobal :=
  h.congr ResolvedName.isGlobal fun _ => rfl

theorem importParent (h : SameName p k r r') : r.importParent = r'.importParent :=
  h.congr ResolvedName.importParent fun _ => rfl

theorem importedTarget (h : SameName p k r r') (library : ParserLibrary) :
    r.importedTarget library = r'.importedTarget library :=
  h.congr (ResolvedName.importedTarget library) fun _ => rfl

theorem qualifyImportAccess (h : SameName p k r r') (library : ParserLibrary)
    (access : ModuleName) :
    r.qualifyImportAccess library access = r'.qualifyImportAccess library access :=
  h.congr (fun x => x.qualifyImportAccess library access) fun _ => rfl

theorem qualifyName (h : SameName p k r r') (name : ModuleName) :
    r.qualifyName name = r'.qualifyName name :=
  h.congr (fun x => x.qualifyName name) fun _ => rfl

theorem qualifiedName (h : SameName p k r r') (library : ParserLibrary) :
    r.qualifiedName library = r'.qualifiedName library :=
  h.congr (ResolvedName.qualifiedName library) fun _ => rfl

theorem tryQualifiedName (h : SameName p k r r') (library : ParserLibrary) :
    r.tryQualifiedName library = r'.tryQualifiedName library :=
  h.congr (ResolvedName.tryQualifiedName library) fun _ => rfl

theorem binding (h : SameName p k r r') :
    p.info.bindings.lookup r.scope r.name = k.info.bindings.lookup r'.scope r'.name := by
  rw [h.entry.binding, h.scope, h.name]

theorem typeOf (h : SameName p k r r') : p.typeOf r = k.typeOf r' := by
  unfold SourceAnalyzer.typeOf BindingsTable.getType
  rw [h.binding]

theorem unconfirmedType (h : SameName p k r r') :
    p.info.bindings.getUnconfirmedType r.scope r.name =
      k.info.bindings.getUnconfirmedType r'.scope r'.name := by
  unfold BindingsTable.getUnconfirmedType
  rw [h.binding]

theorem sameClass (h : SameName p k r r') {typ : ModuleName} (htyp : p.typeOf r = some typ) :
    SameClass p k typ :=
  h.entry.type typ htyp

theorem endAlias (h : SameName p k r r') :
    p.info.bindings.resolve r.scope r.name = k.info.bindings.resolve r'.scope r'.name := by
  rw [h.entry.endAlias, h.scope, h.name]

theorem receiverParam (h : SameName p k r r') : p.receiverParam r = k.receiverParam r' := by
  unfold SourceAnalyzer.receiverParam
  rw [h.isParam, h.scope, h.name, ← h.scope, ← h.name]
  split
  · rfl
  · have hends := h.entry.localEnd
    have heq := h.entry.endAlias
    cases hp : p.info.bindings.resolve r.scope r.name with
    | none =>
      rw [hp] at heq
      rw [← heq]
    | some a =>
      rw [hp] at heq
      rw [← heq]
      cases a with
      | global _ => rfl
      | localName s n =>
        have hstyle := (hends s n hp).1
        have hparam : (p.info.definitions.get s n).any Definition.isParam =
            (k.info.definitions.get s n).any Definition.isParam := by
          have hany : ∀ d : Option Definition, d.any Definition.isParam =
              (d.map Definition.style).any fun style => style.hasKind .parameter := by
            intro d
            cases d <;> rfl
          rw [hany, hany, hstyle]
        simp only [hparam]

theorem receiverIsClass (h : SameName p k r r') :
    p.receiverIsClass r = k.receiverIsClass r' := by
  have hbound : p.boundToClass r.scope r.name = k.boundToClass r'.scope r'.name := by
    unfold boundToClass
    rw [h.binding]
  unfold SourceAnalyzer.receiverIsClass
  rw [h.isClass, hbound, ← h.endAlias]
  split
  · rfl
  · split
    · rfl
    · cases hp : p.info.bindings.resolve r.scope r.name with
      | none => rfl
      | some a =>
        cases a with
        | global value => cases value <;> rfl
        | localName s n =>
          obtain ⟨hstyle, hclass⟩ := h.entry.localEnd s n hp
          have hany : ∀ d : Option Definition, d.any Definition.isClass =
              (d.map Definition.style).any fun style => style.hasKind .classType := by
            intro d
            cases d <;> rfl
          show ((p.info.definitions.get s n).any Definition.isClass || p.boundToClass s n) =
            ((k.info.definitions.get s n).any Definition.isClass || k.boundToClass s n)
          rw [hany, hany, hstyle, hclass]

theorem resolvedFname (hpk : SameModule p k) (h : SameName p k r r') :
    p.resolvedFname r = k.resolvedFname r' := by
  have hreplace : ∀ callName, p.fnameReplaceImportAlias callName r =
      k.fnameReplaceImportAlias callName r' := by
    intro callName
    have halias : p.info.bindings.aliasTable.resolveQualifiedGlobalAlias p.library r callName =
        k.info.bindings.aliasTable.resolveQualifiedGlobalAlias k.library r' callName := by
      have hdirect : p.info.bindings.aliasTable.lookupAlias r.scope r.name =
          k.info.bindings.aliasTable.lookupAlias r'.scope r'.name := by
        rw [← h.scope, ← h.name]
        exact h.entry.directAlias
      have hend : p.info.bindings.aliasTable.resolve r.scope r.name =
          k.info.bindings.aliasTable.resolve r'.scope r'.name := h.endAlias
      unfold AliasTable.resolveQualifiedGlobalAlias
      rw [hdirect, hend, h.name, library, library, hpk.library]
    unfold SourceAnalyzer.fnameReplaceImportAlias
    rw [halias]
  unfold SourceAnalyzer.resolvedFname
  rw [h.exprFullName]
  simp only [hreplace, library, hpk.library, h.qualifiedName]

end SameName

end Names

end SourceAnalyzer

namespace SourceAnalyzer

section Checks

variable {p k : SourceAnalyzer} {cursor : Cursor} (hpk : SameModule p k)
include hpk

omit hpk in
theorem checkThreadLocalStore_congr {obj : Expr} (h : Agrees p k cursor obj)
    (ctx : ExprContext) (range : TextRange) :
    p.checkThreadLocalStore cursor obj ctx range = k.checkThreadLocalStore cursor obj ctx range := by
  have hbase : ((p.info.resolve cursor obj).bind fun res => (p.typeOf res).bind p.threadLocalBase) =
      (k.info.resolve cursor obj).bind fun res => (k.typeOf res).bind k.threadLocalBase := by
    rcases h.cases with ⟨hp, hk⟩ | ⟨r, r', hp, hk, hname⟩
    · rw [hp, hk]
      rfl
    · rw [hp, hk, Option.bind_some, Option.bind_some, ← hname.typeOf]
      cases htyp : p.typeOf r with
      | none => rfl
      | some typ => exact (hname.sameClass htyp).threadLocal
  unfold checkThreadLocalStore
  simp only [hbase]

theorem isSysModulesAccess_congr {e : Expr}
    (h : ∀ value, modulesAttrReceiver e = some value → Agrees p k cursor value) :
    p.isSysModulesAccess cursor e = k.isSysModulesAccess cursor e := by
  unfold isSysModulesAccess
  cases hvalue : modulesAttrReceiver e with
  | none => rfl
  | some value =>
    rw [Option.bind_some, Option.bind_some]
    rcases (h value hvalue).cases with ⟨hp, hk⟩ | ⟨r, r', hp, hk, hname⟩
    · rw [hp, hk]
      rfl
    · have htarget : r.importedTarget p.info.config.library =
          r'.importedTarget k.info.config.library := by
        rw [hpk.library, hname.importedTarget]
      rw [hp, hk]
      simp only [Option.any_some, library, htarget]

theorem mayMutateReceiver_congr (typ : ModuleName) (method : Str) :
    p.mayMutateReceiver typ method = k.mayMutateReceiver typ method := by
  unfold mayMutateReceiver
  rw [library, library, hpk.library, hpk.stubs]

theorem callEffectFromStub_congr (fname : ModuleName) :
    p.callEffectFromStub fname = k.callEffectFromStub fname := by
  unfold callEffectFromStub
  rw [hpk.stubs]

theorem checkCallArgLimit_congr (arguments : Option CallArguments) (fname : Option ModuleName) :
    p.checkCallArgLimit cursor arguments fname = k.checkCallArgLimit cursor arguments fname := by
  have hstub : p.callEffectFromStub = k.callEffectFromStub :=
    funext fun fname => callEffectFromStub_congr hpk fname
  unfold checkCallArgLimit
  rw [hstub]

theorem resultClass_congr (name : ModuleName) : p.resultClass name = k.resultClass name := by
  unfold resultClass
  rw [hpk.exports]

theorem checkTypedAttr_congr {r r' : ResolvedName} (h : SameName p k r r') (obj : Expr)
    (attr : Str) : p.checkTypedAttr cursor obj attr r = k.checkTypedAttr cursor obj attr r' := by
  unfold checkTypedAttr
  simp only [library, hpk.library, hpk.exports, h.unconfirmedType, ← h.typeOf]
  cases htyp : p.typeOf r with
  | none => rfl
  | some typ =>
    have hfields := (h.sameClass htyp).fields
    dsimp only
    cases hp : p.info.classes.get? typ with
    | none =>
      rw [hp, Option.map_none] at hfields
      rw [Option.map_eq_none_iff.mp hfields.symm]
    | some cls =>
      rw [hp, Option.map_some] at hfields
      obtain ⟨cls', hk, heq⟩ := Option.map_eq_some_iff.mp hfields.symm
      obtain ⟨hname, hflds⟩ := Prod.mk.injEq .. ▸ heq
      rw [hk]
      show (if (cls.toClass.getField attr).any _ then _ else _) =
        if (cls'.toClass.getField attr).any _ then _ else _
      unfold Class.getField
      rw [hflds, hname, h.qualifyName]

theorem checkAttrImpl_congr {obj : Expr} (h : Agrees p k cursor obj) (attr : Str)
    (attrRange : TextRange) (ctx : ExprContext) :
    p.checkAttrImpl cursor obj attr attrRange ctx = k.checkAttrImpl cursor obj attr attrRange ctx := by
  have hstore := checkThreadLocalStore_congr h
  unfold checkAttrImpl
  rcases h.cases with ⟨hp, hk⟩ | ⟨r, r', hp, hk, hname⟩
  · rw [hp, hk]
  · have haccess : p.checkImportAccess cursor obj attr r = k.checkImportAccess cursor obj attr r' := by
      unfold checkImportAccess
      simp only [library, hpk.library, hname.name, hname.qualifyImportAccess,
        hname.importedTarget]
    have heff : ∀ a range, importedStoreEffect r a range = importedStoreEffect r' a range := by
      intro a range
      unfold importedStoreEffect
      rw [hname.importParent, hname.name]
    rw [hp, hk]
    simp only [checkTypedAttr_congr hpk hname, hname.isImport, haccess, heff, hstore]

theorem checkSubscript_congr {value : Expr} (h : Agrees p k cursor value)
    (hreceiver : ∀ e ∈ value.receivers, Agrees p k cursor e) (slice : Expr) (ctx : ExprContext)
    (range : TextRange) :
    p.checkSubscript cursor value slice ctx range = k.checkSubscript cursor value slice ctx range := by
  have hsys : p.isSysModulesAccess cursor value = k.isSysModulesAccess cursor value :=
    isSysModulesAccess_congr hpk fun e he => hreceiver e (mem_receivers_of_modulesAttrReceiver he)
  have hsafe : p.sysModulesReadLikelySafe cursor slice ctx =
      k.sysModulesReadLikelySafe cursor slice ctx := by
    unfold sysModulesReadLikelySafe
    rw [hpk.moduleName, hpk.parsed]
  unfold checkSubscript
  rw [hsys, hsafe, h.importAlias]
  rcases h.cases with ⟨hp, hk⟩ | ⟨r, r', hp, hk, hname⟩
  · rw [hp, hk]
  · rw [hp, hk]
    simp only [hname.isImport, hname.name, hname.receiverParam]

omit hpk in
theorem checkCompare_congr {left : Expr} {comparators : List Expr}
    (h : ∀ e ∈ left :: comparators, Agrees p k cursor e) :
    p.checkCompare cursor left comparators = k.checkCompare cursor left comparators := by
  unfold checkCompare
  refine List.flatMap_congr fun e he => ?_
  rcases (h e he).cases with ⟨hp, hk⟩ | ⟨r, r', hp, hk, hname⟩
  · rw [hp, hk]
  · rw [hp, hk]
    simp only [hname.isImport, hname.name]

theorem checkLocalTarget_congr {target : Expr}
    (h : ∀ e ∈ target.storeQueried, Agrees p k cursor e) {r r' : ResolvedName}
    (hname : SameName p k r r') :
    p.checkLocalTarget cursor target r = k.checkLocalTarget cursor target r' := by
  unfold checkLocalTarget
  split
  · next value slice ctx range =>
    have hvalue : ∀ e ∈ value :: value.receivers, Agrees p k cursor e := fun e he =>
      h e (List.mem_cons_of_mem _ he)
    exact checkSubscript_congr hpk (hvalue _ (List.mem_cons_self ..))
      (fun e he => hvalue e (List.mem_cons_of_mem _ he)) slice ctx range
  · rw [hname.receiverParam]
  · rfl

theorem checkResolvedTarget_congr {target : Expr}
    (h : ∀ e ∈ target.storeQueried, Agrees p k cursor e) {r r' : ResolvedName}
    (hname : SameName p k r r') :
    p.checkResolvedTarget cursor target r = k.checkResolvedTarget cursor target r' := by
  have heff : ∀ a range, importedStoreEffect r a range = importedStoreEffect r' a range := by
    intro a range
    unfold importedStoreEffect
    rw [hname.importParent, hname.name]
  have hlocal := checkLocalTarget_congr hpk h hname
  unfold checkResolvedTarget
  simp only [hname.isImport, heff, hname.isGlobal, hname.name, hname.scope, hpk.moduleName,
    hlocal]
  split
  · rfl
  · refine congrArg (· ++ _) ?_
    split
    · next value _ _ ctx _ =>
      exact checkThreadLocalStore_congr (h value (List.mem_cons_of_mem _ (List.mem_cons_self ..)))
        ctx _
    · rfl

/-- A store to a place: what is looked up for it is enough. -/
theorem checkTargetLeaf_congr {target : Expr}
    (h : ∀ e ∈ target.storeQueried, Agrees p k cursor e) :
    p.checkTargetLeaf cursor target = k.checkTargetLeaf cursor target := by
  have hresolved : (p.info.resolve cursor target).elim [] (p.checkResolvedTarget cursor target) =
      (k.info.resolve cursor target).elim [] (k.checkResolvedTarget cursor target) := by
    rcases (h target (List.mem_cons_self ..)).cases with ⟨hp, hk⟩ | ⟨r, r', hp, hk, hname⟩
    · rw [hp, hk]
      rfl
    · rw [hp, hk]
      exact checkResolvedTarget_congr hpk h hname
  unfold checkTargetLeaf
  split
  · rfl
  · rw [hresolved]
    split
    · next value _ _ _ =>
      rw [isSysModulesAccess_congr hpk fun e he => h e (List.mem_cons_of_mem _
        (List.mem_cons_of_mem _ (mem_receivers_of_modulesAttrReceiver he)))]
    · rfl

theorem checkAssignTarget_congr {target : Expr}
    (h : ∀ leaf ∈ target.targetLeaves, ∀ e ∈ leaf.storeQueried, Agrees p k cursor e) :
    p.checkAssignTarget cursor target = k.checkAssignTarget cursor target :=
  List.flatMap_congr fun leaf hleaf => checkTargetLeaf_congr hpk (h leaf hleaf)

/-! ### Calls -/

omit hpk in
theorem classifyCallArg_congr {arg : Expr} (h : Agrees p k cursor arg) :
    p.classifyCallArg cursor arg = k.classifyCallArg cursor arg := by
  unfold classifyCallArg
  rw [h.importAlias]
  rcases h.cases with ⟨hp, hk⟩ | ⟨r, r', hp, hk, hname⟩
  · rw [hp, hk]
  · rw [hp, hk]
    simp only [hname.isImport, hname.name, hname.receiverParam]

omit hpk in
theorem checkCallArgs_congr {arguments : CallArguments}
    (hargs : ∀ arg ∈ arguments.args, Agrees p k cursor (unstarred arg).2)
    (hkeywords : ∀ kw ∈ arguments.keywords, Agrees p k cursor kw.2) :
    p.checkCallArgs cursor arguments = k.checkCallArgs cursor arguments := by
  have hpositional : (arguments.args.map fun arg =>
        ((unstarred arg).1, p.classifyCallArg cursor (unstarred arg).2)) =
      arguments.args.map fun arg =>
        ((unstarred arg).1, k.classifyCallArg cursor (unstarred arg).2) :=
    List.map_congr_left fun arg harg => by
      rw [classifyCallArg_congr (hargs arg harg)]
  have hkeyword : (arguments.keywords.map fun kw => (kw.1, p.classifyCallArg cursor kw.2)) =
      arguments.keywords.map fun kw => (kw.1, k.classifyCallArg cursor kw.2) :=
    List.map_congr_left fun kw hkw => by
      rw [classifyCallArg_congr (hkeywords kw hkw)]
  unfold checkCallArgs
  simp only [hpositional, hkeyword]

theorem callTargetName_congr {func : Expr} (h : Agrees p k cursor func) :
    p.callTargetName cursor func = k.callTargetName cursor func := by
  unfold callTargetName
  rcases h.cases with ⟨hp, hk⟩ | ⟨r, r', hp, hk, hname⟩
  · rw [hp, hk]
    rfl
  · rw [hp, hk, Option.bind_some, Option.bind_some]
    simp only [hname.typeOf, hname.resolvedFname hpk]

theorem chainedCallMethod_congr {func : Expr} (h : ∀ e ∈ func.receivers, Agrees p k cursor e) :
    p.chainedCallMethod cursor func = k.chainedCallMethod cursor func := by
  have hclass : p.resultClass = k.resultClass := funext fun name => resultClass_congr hpk name
  fun_induction chainedCallMethod p cursor func with
  | case1 receiver _ _ _ _ attr _ _ _ ih =>
    have hreceiver : ∀ e ∈ receiver :: receiver.receivers, Agrees p k cursor e := fun e he =>
      h e (List.mem_cons_of_mem _ he)
    have hchained := ih fun e he => hreceiver e (List.mem_cons_of_mem _ he)
    have htarget := callTargetName_congr hpk (hreceiver receiver (List.mem_cons_self ..))
    rw [chainedCallMethod, hchained, htarget, hclass]
  | case2 e he => rw [chainedCallMethod]; exact he

theorem superCallMethod_congr {func : Expr} (h : ∀ e ∈ func.receivers, Agrees p k cursor e) :
    p.superCallMethod cursor func = k.superCallMethod cursor func := by
  unfold superCallMethod
  split
  · next receiver _ _ _ _ _ _ _ =>
    rw [callTargetName_congr hpk (h receiver (List.mem_cons_of_mem _ (List.mem_cons_self ..)))]
  · rfl

theorem checkSubclassesAccess_congr {func : Expr}
    (h : ∀ e ∈ func.receivers, Agrees p k cursor e) :
    p.checkSubclassesAccess cursor func = k.checkSubclassesAccess cursor func := by
  unfold checkSubclassesAccess
  split
  · next value _ _ _ _ =>
    have hbase : ((p.info.resolve cursor value).filter fun res =>
          res.definition.isClass || res.isImport).bind (ResolvedName.tryQualifiedName p.library) =
        ((k.info.resolve cursor value).filter fun res =>
          res.definition.isClass || res.isImport).bind
            (ResolvedName.tryQualifiedName k.library) := by
      rcases (h value (List.mem_cons_self ..)).cases with ⟨hp, hk⟩ | ⟨r, r', hp, hk, hname⟩
      · rw [hp, hk]
        rfl
      · rw [hp, hk, Option.filter_some, Option.filter_some, hname.isClass, hname.isImport]
        split
        · rw [Option.bind_some, Option.bind_some, library, library, hpk.library,
            hname.tryQualifiedName]
        · rfl
    simp only [hbase]
  · rfl

theorem isSysModulesMethod_congr {func : Expr} (h : ∀ e ∈ func.receivers, Agrees p k cursor e) :
    p.isSysModulesMethod cursor func = k.isSysModulesMethod cursor func := by
  unfold isSysModulesMethod
  split
  · exact isSysModulesAccess_congr hpk fun e he =>
      h e (List.mem_cons_of_mem _ (mem_receivers_of_modulesAttrReceiver he))
  · rfl

theorem methodCall_congr {r r' : ResolvedName} (h : SameName p k r r') (attr : Str)
    (fname : ModuleName) (range : TextRange) (data : EffectData) :
    p.methodCall cursor attr r fname range data = k.methodCall cursor attr r' fname range data := by
  have hmutate : p.mayMutateReceiver = k.mayMutateReceiver :=
    funext fun typ => funext fun method => mayMutateReceiver_congr hpk typ method
  have hparam : p.checkParamMethodMutation = k.checkParamMethodMutation := by
    unfold checkParamMethodMutation
    rw [hmutate]
  have hglobal : ∀ typ, p.checkGlobalReceiverMutation cursor r typ attr range =
      k.checkGlobalReceiverMutation cursor r' typ attr range := by
    intro typ
    unfold checkGlobalReceiverMutation
    simp only [hmutate, h.isGlobal, h.scope, h.name, hpk.moduleName]
  have hindirect : ∀ f, p.checkIndirectlyCalledMethod f r attr =
      k.checkIndirectlyCalledMethod f r' attr := by
    intro f
    have hsource : p.getMethodDefinitionSourceName attr = k.getMethodDefinitionSourceName attr := by
      unfold getMethodDefinitionSourceName
      rw [library, library, hpk.library, hpk.exports]
    unfold checkIndirectlyCalledMethod
    rw [h.binding, hsource]
  unfold methodCall
  simp only [h.typeOf, h.receiverParam, h.receiverIsClass, library, hpk.library, hpk.stubs, hparam,
    hglobal, hindirect]

theorem namedCall_congr {r r' : ResolvedName} (h : SameName p k r r') (func : Expr)
    (fname : ModuleName) (range : TextRange) (data : EffectData) :
    p.namedCall cursor func r fname range data = k.namedCall cursor func r' fname range data := by
  have hmethod : p.handleMethodCall cursor func r fname range data =
      k.handleMethodCall cursor func r' fname range data := by
    unfold handleMethodCall
    rw [h.style]
    simp only [methodCall_congr hpk h]
  unfold namedCall
  rw [hmethod, h.isImport]

end Checks

/-- The analyzers agree on what is looked up for a call. -/
structure CallAgrees (p k : SourceAnalyzer) (cursor : Cursor) (func : Expr) (args : List Expr)
    (keywords : List (Option Str × Expr)) : Prop where
  target : Agrees p k cursor func
  receiver : ∀ e ∈ func.receivers, Agrees p k cursor e
  positional : ∀ arg ∈ args, Agrees p k cursor (unstarred arg).2
  keyword : ∀ kw ∈ keywords, Agrees p k cursor kw.2
  first : ∀ obj ∈ args.take 1, Agrees p k cursor obj
  stored : func.fullName = some "setattr".toList → ∀ obj ∈ args.take 1,
    ∀ leaf ∈ obj.targetLeaves, ∀ e ∈ leaf.storeQueried, Agrees p k cursor e

theorem CallAgrees.of_queried {p k : SourceAnalyzer} {cursor : Cursor} {func : Expr}
    {args : List Expr} {keywords : List (Option Str × Expr)}
    (h : ∀ e ∈ callQueried func args keywords, Agrees p k cursor e) :
    CallAgrees p k cursor func args keywords := by
  simp only [callQueried, List.mem_cons, List.mem_append, List.mem_map] at h
  constructor
  · exact h _ (Or.inl rfl)
  · exact fun e he => h e (Or.inr (Or.inl he))
  · exact fun arg harg => h _ (Or.inr (Or.inr (Or.inl ⟨arg, harg, rfl⟩)))
  · exact fun kw hkw => h _ (Or.inr (Or.inr (Or.inr (Or.inl ⟨kw, hkw, rfl⟩))))
  · exact fun obj hobj => h obj (Or.inr (Or.inr (Or.inr (Or.inr (Or.inl hobj)))))
  · intro hset obj hobj leaf hleaf e he
    refine h e (Or.inr (Or.inr (Or.inr (Or.inr (Or.inr ?_)))))
    rw [if_pos hset]
    exact List.mem_flatMap.mpr ⟨leaf, List.mem_flatMap.mpr ⟨obj, hobj, hleaf⟩, he⟩

section Calls

variable {p k : SourceAnalyzer} {cursor : Cursor} {func : Expr} {arguments : CallArguments}
  (hpk : SameModule p k) (h : CallAgrees p k cursor func arguments.args arguments.keywords)
include hpk h

theorem checkGetattr_congr : p.checkGetattr cursor arguments = k.checkGetattr cursor arguments := by
  unfold checkGetattr
  split
  · next obj attr _ hargs =>
    split
    · exact checkAttrImpl_congr hpk (h.first obj (by rw [hargs]; exact List.mem_cons_self ..)) ..
    · rfl
  · rfl

theorem checkSetattr_congr (hset : func.fullName = some "setattr".toList) :
    p.checkSetattr cursor arguments = k.checkSetattr cursor arguments := by
  unfold checkSetattr
  split
  · next obj attr _ _ hargs =>
    have hmem : obj ∈ arguments.args.take 1 := by
      rw [hargs]
      exact List.mem_cons_self ..
    have hobj := h.first obj hmem
    have htarget := checkAssignTarget_congr hpk (h.stored hset obj hmem)
    have himport : p.resolvesToImport cursor obj = k.resolvesToImport cursor obj := by
      unfold resolvesToImport
      rcases hobj.cases with ⟨hp, hk⟩ | ⟨r, r', hp, hk, hname⟩
      · rw [hp, hk]
      · rw [hp, hk, Option.any_some, Option.any_some, hname.isImport]
    rw [htarget, himport]
    split
    · rw [checkAttrImpl_congr hpk hobj]
    · rfl
  · rfl

end Calls

section Texts

variable {p k : SourceAnalyzer} {cursor : Cursor} {func : Expr} {arguments : Option CallArguments}
  {ev ev' : Expr → List OutputWrite} (hpk : SameModule p k)
  (htext : ∀ e, calledText k.library func (argsOf arguments) = some e →
    effectsOf (ev e) = effectsOf (ev' e))
include hpk htext

/-- Of an evaluated text only the effects matter. -/
theorem checkEval_congr (heval : func.fullName = some "eval".toList) (fname : ModuleName)
    (range : TextRange) :
    p.checkEval cursor ev arguments fname range = k.checkEval cursor ev' arguments fname range := by
  unfold checkEval
  rw [library, hpk.library]
  split
  · rfl
  · next code literal rest hargs =>
    by_cases hcode : code = []
    · rw [if_pos hcode, if_pos hcode]
    · rw [if_neg hcode, if_neg hcode]
      cases hparse : k.library.parseExpr code with
      | none => rfl
      | some e =>
        have hcalled : calledText k.library func (argsOf arguments) = some e := by
          unfold calledText argsOf
          rw [if_pos heval, hargs]
          simp only [if_neg hcode, hparse]
        show evaluatedAt range (ev e) = evaluatedAt range (ev' e)
        unfold evaluatedAt
        rw [htext e hcalled]
  · rfl

theorem checkBuiltinCall_congr
    (h : ∀ a, arguments = some a → CallAgrees p k cursor func a.args a.keywords)
    (callKind : Option CallKind) {fname : ModuleName} (hfname : func.fullName = some fname) :
    p.checkBuiltinCall cursor ev func arguments callKind fname =
      k.checkBuiltinCall cursor ev' func arguments callKind fname := by
  unfold checkBuiltinCall
  dsimp only
  rw [hpk.stubs, library, hpk.library]
  split
  · cases arguments with
    | none => rfl
    | some a => exact checkGetattr_congr hpk (h a rfl)
  · split
    · next hset =>
      cases arguments with
      | none => rfl
      | some a => exact checkSetattr_congr hpk (h a rfl) (hset ▸ hfname)
    · split
      · rfl
      · split
        · next heval => exact checkEval_congr hpk htext (heval ▸ hfname) ..
        · rfl

theorem checkUnresolvedCall_congr
    (h : ∀ a, arguments = some a → CallAgrees p k cursor func a.args a.keywords)
    (hreceiver : ∀ e ∈ func.receivers, Agrees p k cursor e) (callKind : Option CallKind) :
    p.checkUnresolvedCall cursor ev func arguments callKind =
      k.checkUnresolvedCall cursor ev' func arguments callKind := by
  unfold checkUnresolvedCall
  rw [isSysModulesMethod_congr hpk hreceiver]
  split
  · rfl
  · next fname hfname =>
    rw [checkBuiltinCall_congr hpk htext h callKind hfname]

end Texts

section UnpackedCalls

variable {p k : SourceAnalyzer} {cursor : Cursor} {func : Expr} {arguments : CallArguments}
  {ev ev' : Expr → List OutputWrite} (hpk : SameModule p k)
  (h : CallAgrees p k cursor func arguments.args arguments.keywords)
  (htext : ∀ e, calledText k.library func arguments.args = some e →
    effectsOf (ev e) = effectsOf (ev' e))
include hpk h htext

/-- A function with a name has the same name in both, or none. -/
theorem resolveFunctionName_congr :
    (p.resolveFunctionName cursor ev func (some arguments)).1 =
        (k.resolveFunctionName cursor ev' func (some arguments)).1 ∧
      (((p.resolveFunctionName cursor ev func (some arguments)).2 = none ∧
          (k.resolveFunctionName cursor ev' func (some arguments)).2 = none) ∨
        ∃ r r' fname, SameName p k r r' ∧
          (p.resolveFunctionName cursor ev func (some arguments)).2 = some (r, fname) ∧
          (k.resolveFunctionName cursor ev' func (some arguments)).2 = some (r', fname)) := by
  have hunresolved : p.checkUnresolvedCall cursor ev func (some arguments) none =
      k.checkUnresolvedCall cursor ev' func (some arguments) none :=
    checkUnresolvedCall_congr hpk htext (fun a ha => by cases ha; exact h) h.receiver none
  unfold resolveFunctionName
  rcases h.target.cases with ⟨hp, hk⟩ | ⟨r, r', hp, hk, hname⟩
  · rw [hp, hk]
    exact ⟨hunresolved, Or.inl ⟨rfl, rfl⟩⟩
  · rw [hp, hk]
    dsimp only
    rw [← hname.scope, ← hname.resolvedFname hpk]
    split
    · exact ⟨hunresolved, Or.inl ⟨rfl, rfl⟩⟩
    · cases p.resolvedFname r with
      | none => exact ⟨rfl, Or.inl ⟨rfl, rfl⟩⟩
      | some fname => exact ⟨rfl, Or.inr ⟨r, r', fname, hname, rfl, rfl⟩⟩

theorem unpackedCall_congr (range : TextRange) (data : CallData) :
    p.unpackedCall cursor ev func arguments range data =
      k.unpackedCall cursor ev' func arguments range data := by
  obtain ⟨hwrites, hfound⟩ := resolveFunctionName_congr hpk h htext
  unfold unpackedCall
  dsimp only
  rw [isSysModulesMethod_congr hpk h.receiver, superCallMethod_congr hpk h.receiver,
    chainedCallMethod_congr hpk h.receiver, hwrites]
  rcases hfound with ⟨hp, hk⟩ | ⟨r, r', fname, hname, hp, hk⟩
  · rw [hp, hk]
    simp only [checkCallArgLimit_congr hpk, Option.elim_none]
  · rw [hp, hk]
    simp only [checkCallArgLimit_congr hpk, Option.elim_some, Option.map_some,
      namedCall_congr hpk hname]

theorem checkUnpackedCall_congr (range : TextRange) :
    p.checkUnpackedCall cursor ev func arguments range =
      k.checkUnpackedCall cursor ev' func arguments range := by
  unfold checkUnpackedCall
  simp only [checkCallArgs_congr h.positional h.keyword, unpackedCall_congr hpk h htext]

theorem checkCall_congr {call : Expr}
    (himported : p.importedByCall cursor call = k.importedByCall cursor call) :
    p.checkCall cursor ev call func arguments = k.checkCall cursor ev' call func arguments := by
  unfold checkCall
  rw [checkSubclassesAccess_congr hpk h.receiver, himported,
    checkUnpackedCall_congr hpk h htext]

end UnpackedCalls

/-! ## Expressions -/

/-- The analyzers agree on an expression by itself: on what is looked up for it, and on the
module it imports. -/
structure NodeAgrees (p k : SourceAnalyzer) (cursor : Cursor) (x : Expr) : Prop where
  queried : ∀ e ∈ x.queried, Agrees p k cursor e
  imported : p.importedByCall cursor x = k.importedByCall cursor x

/-- The effects of one expression. A bare name has none. -/
theorem effectsOf_checkNode_congr {p k : SourceAnalyzer} {cursor : Cursor}
    {ev ev' : Expr → List OutputWrite} (hpk : SameModule p k) {x : Expr}
    (h : NodeAgrees p k cursor x)
    (htext : ∀ e, x.evaluatedText k.library = some e → effectsOf (ev e) = effectsOf (ev' e)) :
    effectsOf (p.checkNode cursor ev x) = effectsOf (k.checkNode cursor ev' x) := by
  have hqueried := h.queried
  unfold checkNode
  split
  · next func args keywords argsRange range =>
    have hcall : CallAgrees p k cursor func args keywords := CallAgrees.of_queried hqueried
    refine congrArg effectsOf (checkCall_congr hpk ?_ ?_ h.imported)
    · exact hcall
    · exact htext
  · next value attr attrRange ctx range =>
    exact congrArg effectsOf
      (checkAttrImpl_congr hpk (hqueried value (List.mem_cons_self ..)) attr attrRange ctx)
  · next value slice ctx range =>
    exact congrArg effectsOf
      (checkSubscript_congr hpk (hqueried value (List.mem_cons_self ..))
        (fun e he => hqueried e (List.mem_cons_of_mem _ he)) slice ctx range)
  · exact congrArg effectsOf (checkCompare_congr hqueried)
  · rfl
  · rfl

/-- An expression has the same effects where both analyzers agree on all that is checked
with it. -/
theorem effectsOf_expr_congr {p k : SourceAnalyzer} {cursor : Cursor} (hpk : SameModule p k)
    (evals : Nat) (x : Expr)
    (h : ∀ node ∈ exprNodes k.library evals x, NodeAgrees p k cursor node) :
    effectsOf (p.expr cursor evals x) = effectsOf (k.expr cursor evals x) := by
  induction evals generalizing x with
  | zero =>
    unfold expr
    rw [effectsOf_flatMap, effectsOf_flatMap]
    refine List.flatMap_congr fun node hnode => ?_
    exact effectsOf_checkNode_congr hpk (h node hnode) fun _ _ => rfl
  | succ evals ih =>
    unfold expr
    rw [effectsOf_flatMap, effectsOf_flatMap]
    refine List.flatMap_congr fun node hnode => ?_
    refine effectsOf_checkNode_congr hpk
      (h node (List.mem_flatMap.mpr ⟨node, hnode, List.mem_cons_self ..⟩)) fun e he => ?_
    refine ih e fun inner hinner => h inner (List.mem_flatMap.mpr ⟨node, hnode, ?_⟩)
    rw [he]
    exact List.mem_cons_of_mem _ hinner

end SourceAnalyzer

end Lifeguard
