import Lifeguard.SourceAnalyzer

/-!
# The targets of import aliases

What `from … import name as alias` binds is read off the statement more than once: by the
alias table, by the definitions of the scope, and by the exports, from the definitions.

- `ParserLibrary.Dotted`: the operations of the parser library on dotted names;
- `Definitions.make_eq_foldl`, `AliasTable.make_eq_foldl`: the walks that build the tables, as
  folds over the statements they reach;
- `processDefinition`: what the exports record of a definition (`exports.rs`);
- `alias_targets_agree_iff`: the readers agree on the target, if and only if the module is
  the one that is written and the imported name is not written like it.

The alias table takes the module as it is written, whatever the level (`importFrom`); and
`from x import x as y` is taken for `import x as y` (`aliasTarget`).
-/

namespace Lifeguard

open Lib

/-! ## Dotted names -/

/-- The operations of the parser library on dotted names. -/
structure ParserLibrary.Dotted (library : ParserLibrary) : Prop where
  append : ∀ m x, library.append m x = asModuleName (m, x)
  components : ∀ m, m ≠ [] → library.components m = m.splitOn '.'
  fromParts : ∀ parts, library.fromParts parts = ['.'].intercalate parts

/-- The parts of the package that a relative level leads to: a module starts from the package
it is in, and each level but the first goes one up. -/
def relativePackage (m : ModuleName) (isInit : Bool) (level : Nat) : List Str :=
  (m.splitOn '.').take ((m.splitOn '.').length - (if isInit then level - 1 else level))

/-- The parser library resolves a level as Python does. Above the topmost package there is
nothing to import from. -/
structure ParserLibrary.Relative (library : ParserLibrary) : Prop where
  absolute : ∀ m isInit source, library.newMaybeRelative m isInit 0 (some source) = some source
  relative : ∀ m isInit level source, level ≠ 0 → relativePackage m isInit level ≠ [] →
    library.newMaybeRelative m isInit level source =
      some (['.'].intercalate (relativePackage m isInit level ++ source.toList))

theorem asModuleName_ne_nil {m : ModuleName} {x : Str} (hx : x ≠ []) :
    asModuleName (m, x) ≠ [] := by
  unfold asModuleName
  split
  · exact hx
  · exact List.append_ne_nil_of_right_ne_nil _ (List.cons_ne_nil _ _)

/-- A name has one module in front of its last part. -/
theorem asModuleName_left_inj {m n : ModuleName} {x : Str}
    (h : asModuleName (m, x) = asModuleName (n, x)) : m = n := by
  unfold asModuleName appendStr at h
  dsimp only at h
  split at h <;> split at h
  · next hm hn => rw [hm, hn]
  · next hm hn =>
    have hlength := congrArg List.length h
    rw [List.length_append, List.length_cons] at hlength
    omega
  · next hm hn =>
    have hlength := congrArg List.length h
    rw [List.length_append, List.length_cons] at hlength
    omega
  · exact (List.append_inj' h rfl).1

/-- No name is that of a module inside itself. -/
theorem ne_asModuleName_self {x : Str} (hx : x ≠ []) : x ≠ asModuleName (x, x) := by
  intro h
  unfold asModuleName appendStr at h
  dsimp only at h
  rw [if_neg hx] at h
  have hlength := congrArg List.length h
  rw [List.length_append, List.length_cons] at hlength
  omega

/-- The parts of a chain of attributes. -/
theorem ParserLibrary.Dotted.components_appendStr {library : ParserLibrary}
    (h : library.Dotted) (m suffix : Str) :
    library.components (appendStr m suffix) = m.splitOn '.' ++ suffix.splitOn '.' := by
  have hne : appendStr m suffix ≠ [] :=
    List.append_ne_nil_of_right_ne_nil _ (List.cons_ne_nil _ _)
  rw [h.components _ hne, appendStr, List.splitOn_append_cons_self]

theorem intercalate_append_singleton {parts : List Str} (h : parts ≠ []) (s : Str) :
    ['.'].intercalate (parts ++ [s]) = ['.'].intercalate parts ++ '.' :: s := by
  induction parts with
  | nil => exact absurd rfl h
  | cons part rest ih =>
    cases rest with
    | nil => simp
    | cons next rest =>
      have hih := ih (List.cons_ne_nil _ _)
      rw [List.cons_append] at hih
      rw [List.cons_append, List.cons_append, List.intercalate_cons_cons, hih,
        List.intercalate_cons_cons]
      simp

/-- A level that leads to a package leads to another module than the one that is written. -/
theorem ParserLibrary.Relative.ne_written {library : ParserLibrary} (h : library.Relative)
    {m : ModuleName} (hm : ∀ part ∈ m.splitOn '.', part ≠ []) {isInit : Bool} {level : Nat}
    (source : Option Str) (hlevel : level ≠ 0) (hpackage : relativePackage m isInit level ≠ []) :
    library.newMaybeRelative m isInit level source ≠ some (source.getD []) := by
  rw [h.relative m isInit level source hlevel hpackage]
  intro heq
  have heq := Option.some.inj heq
  obtain ⟨part, parts, hcons⟩ := List.exists_cons_of_ne_nil hpackage
  have hpart : part ≠ [] := by
    refine hm part (List.mem_of_mem_take (i := ?_) ?_)
    rotate_left
    · show part ∈ relativePackage m isInit level
      rw [hcons]
      exact List.mem_cons_self ..
  cases source with
  | none =>
    rw [Option.toList_none, List.append_nil, hcons] at heq
    cases parts with
    | nil => exact hpart (by simpa using heq)
    | cons next parts => simp [List.intercalate_cons_cons] at heq
  | some source =>
    rw [Option.toList_some, intercalate_append_singleton hpackage] at heq
    have hlength := congrArg List.length heq
    rw [List.length_append, List.length_cons, Option.getD_some] at hlength
    omega

/-! ## The definitions -/

namespace Definitions

variable (ctx : DefinitionsContext)

/-- The statements that the walk over a statement nested at most `fuel` deep reaches, in
their order. -/
def reached : Nat → Stmt → List Stmt
  | 0, _ => []
  | fuel + 1, s => s :: (visited ctx s).flatMap (reached fuel)

/-- The statements that the walk over a body reaches. -/
def reachedIn (body : List Stmt) : List Stmt := body.flatMap (reached ctx (Stmt.depths body))

variable {ctx}

theorem stmt_eq_foldl (fuel : Nat) (defs : Definitions) (s : Stmt) :
    stmt ctx fuel defs s = (reached ctx fuel s).foldl (addStmt ctx) defs := by
  induction fuel generalizing defs s with
  | zero => rfl
  | succ fuel ih =>
    show (visited ctx s).foldl (stmt ctx fuel) (defs.addStmt ctx s) = _
    rw [reached, List.foldl_cons, List.foldl_flatMap]
    exact congrArg (fun f => (visited ctx s).foldl f (defs.addStmt ctx s))
      (funext fun defs => funext fun s => ih defs s)

theorem make_eq_foldl (body : List Stmt) :
    make ctx body = (reachedIn ctx body).foldl (addStmt ctx) {} := by
  rw [make, reachedIn, List.foldl_flatMap]
  exact congrArg (fun f => body.foldl f {})
    (funext fun defs => funext fun s => stmt_eq_foldl _ defs s)

variable (ctx) in
/-- The statement defines nothing under the name. -/
def LeavesName (x : Str) (s : Stmt) : Prop :=
  ∀ defs : Definitions, (defs.addStmt ctx s).definitions.get? x = defs.definitions.get? x

theorem get?_foldl_of_leaves {x : Str} {l : List Stmt} (h : ∀ s ∈ l, LeavesName ctx x s)
    (defs : Definitions) :
    (l.foldl (addStmt ctx) defs).definitions.get? x = defs.definitions.get? x := by
  induction l generalizing defs with
  | nil => rfl
  | cons s rest ih =>
    rw [List.foldl_cons, ih fun s hs => h s (List.mem_cons_of_mem _ hs)]
    exact h s (List.mem_cons_self ..) defs

/-- The name is defined, and in the style. -/
def HasStyle (defs : Definitions) (x : Str) (style : DefinitionStyle) : Prop :=
  (defs.definitions.get? x).map Definition.style = some style

theorem get?_addIdentifier (defs : Definitions) (x : Identifier) (style : DefinitionStyle)
    (y : Str) :
    (defs.addIdentifier ctx x style).definitions.get? y =
      if y = x.id then
        some (((defs.definitions.get? y).map fun d =>
          d.merge ctx.config.library style x.range).getD (.first style x.range))
      else defs.definitions.get? y :=
  Table.get?_upsert ..

/-- A name of the statement that binds another name. -/
theorem get?_addImportFrom_of_ne {source : Option ModuleName} (defs : Definitions)
    {a : ImportAlias} {x : Str} (h : a.bound.id ≠ x) :
    (addImportFrom ctx source defs a).definitions.get? x = defs.definitions.get? x := by
  unfold addImportFrom
  dsimp only
  split_ifs
  · rfl
  · rfl
  · rw [get?_addIdentifier, if_neg h.symm]
  · rw [get?_addIdentifier, if_neg h.symm]

/-- The name of the statement itself: again and again it is defined in the same style. -/
theorem hasStyle_addImportFrom {source : Option ModuleName} {defs : Definitions}
    {a : ImportAlias} (hstar : a.name.id ≠ "*".toList)
    (h : defs.definitions.get? a.bound.id = none ∨
      defs.HasStyle a.bound.id (importStyle source a)) :
    (addImportFrom ctx source defs a).HasStyle a.bound.id (importStyle source a) := by
  have hadd : ∀ defs' : Definitions, defs'.definitions = defs.definitions →
      (defs'.addIdentifier ctx a.bound (importStyle source a)).HasStyle a.bound.id
        (importStyle source a) := by
    intro defs' hsame
    rw [HasStyle, get?_addIdentifier, if_pos rfl, hsame]
    rcases h with hnone | hstyle
    · rw [hnone]
      rfl
    · obtain ⟨d, hd, hstyle⟩ := Option.map_eq_some_iff.mp hstyle
      rw [hd, ← hstyle]
      show some (if DefinitionStyle.lt _ d.style d.style then d.style else d.style) = _
      rw [ite_self]
  unfold addImportFrom
  dsimp only
  rw [if_neg hstar]
  split_ifs
  · exact hadd _ rfl
  · exact hadd _ rfl

/-- The names of the statement, where one alone binds the name. -/
theorem hasStyle_foldl_addImportFrom {source : Option ModuleName} {defs : Definitions}
    {names : List ImportAlias} {a : ImportAlias} (hstar : a.name.id ≠ "*".toList)
    (honly : ∀ b ∈ names, b.bound.id = a.bound.id → b = a)
    (h : defs.HasStyle a.bound.id (importStyle source a) ∨
      defs.definitions.get? a.bound.id = none ∧ a ∈ names) :
    (names.foldl (addImportFrom ctx source) defs).HasStyle a.bound.id (importStyle source a) := by
  induction names generalizing defs with
  | nil => exact h.resolve_right fun hnone => List.not_mem_nil hnone.2
  | cons b rest ih =>
    rw [List.foldl_cons]
    refine ih (fun c hc => honly c (List.mem_cons_of_mem _ hc)) ?_
    -- either it is the name again, or it binds another one
    by_cases hb : b.bound.id = a.bound.id
    · obtain rfl := honly b (List.mem_cons_self ..) hb
      exact Or.inl (hasStyle_addImportFrom hstar (h.symm.imp_left And.left))
    · rw [HasStyle, get?_addImportFrom_of_ne defs hb]
      refine h.imp_right fun hnone => ⟨hnone.1, ?_⟩
      exact (List.mem_cons.mp hnone.2).resolve_left fun heq => hb (by rw [heq])

end Definitions

/-! ## The alias table -/

/-- The cursor for the statements right inside a statement. -/
def Cursor.inside (library : ParserLibrary) (cursor : Cursor) : Stmt → Cursor
  | .classDef name _ _ _ _ => cursor.enterClassScope library name.id
  | .functionDef name _ _ _ _ => cursor.enterFunctionScope library name.id
  | _ => cursor

namespace AliasTable

section Lookups

variable (self : AliasTable) (cursor : Cursor) (name : Str) (scope : ModuleName) (x : Str)

theorem lookupAlias_addAlias (rhs : Alias) :
    (self.addAlias cursor name rhs).lookupAlias scope x =
      if scope = cursor.scope ∧ x = name then some rhs else self.lookupAlias scope x := by
  unfold lookupAlias getNested addAlias insertNested
  dsimp only
  rw [Table.get?_upsert]
  by_cases hscope : scope = cursor.scope
  · subst hscope
    rw [if_pos rfl, Option.bind_some]
    by_cases hx : x = name
    · subst hx
      rw [if_pos ⟨rfl, rfl⟩]
      cases self.aliases.get? cursor.scope <;> simp
    · rw [if_neg fun h => hx h.2]
      cases self.aliases.get? cursor.scope with
      | none => simp [Table.get?_insert_of_ne _ _ hx]
      | some entries => simp [Table.get?_insert_of_ne _ _ hx]
  · rw [if_neg hscope, if_neg fun h => hscope h.1]

theorem lookupAlias_clearAlias :
    (self.clearAlias cursor name).lookupAlias scope x =
      if scope = cursor.scope ∧ x = name then none else self.lookupAlias scope x := by
  unfold lookupAlias getNested clearAlias
  dsimp only
  rw [Table.get?_modify]
  by_cases hscope : scope = cursor.scope
  · subst hscope
    rw [if_pos rfl, Option.bind_map]
    by_cases hx : x = name
    · rw [if_pos ⟨rfl, hx⟩]
      cases self.aliases.get? cursor.scope with
      | none => rfl
      | some entries => exact (Table.get?_erase ..).trans (if_pos hx)
    · rw [if_neg fun h => hx h.2]
      cases self.aliases.get? cursor.scope with
      | none => rfl
      | some entries => exact (Table.get?_erase ..).trans (if_neg hx)
  · rw [if_neg hscope, if_neg fun h => hscope h.1]

end Lookups

variable (ctx : BindingsContext)

/-- What a statement itself says, but for the statements in it. -/
def addStmt (self : AliasTable) (cursor : Cursor) : Stmt → AliasTable
  | .assign [target] value _ => self.assignSingle ctx cursor target value
  | .annAssign target _ value =>
    value.elim self fun value => self.assignSingle ctx cursor target value
  | .importNames names _ => self.importNames cursor names
  | .importFrom source _ names _ _ => self.importFrom ctx cursor source names
  | _ => self

/-- The statements that the walk over a statement nested at most `fuel` deep reaches, in
their order, each with the cursor there. -/
def reached : Nat → Cursor → Stmt → List (Cursor × Stmt)
  | 0, _, _ => []
  | fuel + 1, cursor, s =>
    (cursor, s) :: s.children.flatMap (reached fuel (cursor.inside ctx.library s))

/-- The statements that the walk over a module reaches. -/
def reachedIn (parsed : ParsedModule) : List (Cursor × Stmt) :=
  parsed.body.flatMap (reached ctx (Stmt.depths parsed.body) (Cursor.enterModuleScope parsed.name))

variable {ctx}

theorem stmt_succ (fuel : Nat) (cursor : Cursor) (self : AliasTable) (s : Stmt) :
    stmt ctx (fuel + 1) cursor self s =
      s.children.foldl (stmt ctx fuel (cursor.inside ctx.library s))
        (self.addStmt ctx cursor s) := by
  cases s with
  | assign targets value range =>
    match targets with
    | [] => rfl
    | [target] => rfl
    | _ :: _ :: _ => rfl
  | _ => rfl

theorem stmt_eq_foldl (fuel : Nat) (cursor : Cursor) (self : AliasTable) (s : Stmt) :
    stmt ctx fuel cursor self s =
      (reached ctx fuel cursor s).foldl (fun table at' => table.addStmt ctx at'.1 at'.2) self := by
  induction fuel generalizing cursor self s with
  | zero => rfl
  | succ fuel ih =>
    rw [stmt_succ, reached, List.foldl_cons, List.foldl_flatMap]
    exact congrArg (fun f => s.children.foldl f (self.addStmt ctx cursor s))
      (funext fun self => funext fun s => ih _ self s)

theorem make_eq_foldl (parsed : ParsedModule) :
    make ctx parsed =
      (reachedIn ctx parsed).foldl (fun table at' => table.addStmt ctx at'.1 at'.2) {} := by
  rw [make, reachedIn, List.foldl_flatMap]
  exact congrArg (fun f => parsed.body.foldl f {})
    (funext fun self => funext fun s => stmt_eq_foldl _ _ self s)

variable (ctx) in
/-- The statement says nothing of the name of the scope. -/
def LeavesName (scope : ModuleName) (x : Str) (at' : Cursor × Stmt) : Prop :=
  ∀ table : AliasTable,
    (table.addStmt ctx at'.1 at'.2).lookupAlias scope x = table.lookupAlias scope x

theorem lookupAlias_foldl {α : Type} {f : AliasTable → α → AliasTable} {scope : ModuleName}
    {x : Str} {l : List α}
    (h : ∀ a ∈ l, ∀ table : AliasTable, (f table a).lookupAlias scope x = table.lookupAlias scope x)
    (self : AliasTable) : (l.foldl f self).lookupAlias scope x = self.lookupAlias scope x := by
  induction l generalizing self with
  | nil => rfl
  | cons a rest ih =>
    rw [List.foldl_cons, ih fun a ha => h a (List.mem_cons_of_mem _ ha)]
    exact h a (List.mem_cons_self ..) self

/-- The alias of an imported name, of the module as it is written. -/
def writtenAlias (ctx : BindingsContext) (source : Option Str) (name : Str) : Alias :=
  .global ((lookupExternalName ctx (ctx.library.append (source.getD []) name)).getD
    (.variable (ctx.library.append (source.getD []) name)))

/-- Whatever its kind, the target of the alias is the imported name. -/
theorem asModuleName_lookupExternalName (name : ModuleName) :
    ((lookupExternalName ctx name).getD (.variable name)).asModuleName = some name := by
  unfold lookupExternalName
  split_ifs <;> rfl

/-- The names of a statement, where one alone binds the name. -/
theorem lookupAlias_importFrom {cursor : Cursor} {source : Option Str} {names : List ImportAlias}
    {name asname : Identifier}
    (honly : ∀ b ∈ names, b.bound.id = asname.id → b = ⟨name, some asname⟩) (self : AliasTable)
    (h : self.lookupAlias cursor.scope asname.id = some (writtenAlias ctx source name.id) ∨
      (⟨name, some asname⟩ : ImportAlias) ∈ names) :
    (self.importFrom ctx cursor source names).lookupAlias cursor.scope asname.id =
      some (writtenAlias ctx source name.id) := by
  unfold importFrom
  induction names generalizing self with
  | nil => exact h.resolve_right List.not_mem_nil
  | cons b rest ih =>
    rw [List.foldl_cons]
    refine ih (fun c hc => honly c (List.mem_cons_of_mem _ hc)) _ ?_
    by_cases hb : b.bound.id = asname.id
    · obtain rfl := honly b (List.mem_cons_self ..) hb
      refine Or.inl ((lookupAlias_addAlias ..).trans (if_pos ⟨rfl, rfl⟩))
    · refine h.imp (fun hself => ?_) fun hmem =>
        (List.mem_cons.mp hmem).resolve_left fun heq => hb (by rw [← heq]; rfl)
      cases hasname : b.asname with
      | none => exact hself
      | some other =>
        have hne : asname.id ≠ other.id := by
          intro heq
          refine hb ?_
          rw [ImportAlias.bound, hasname, heq]
          rfl
        exact (lookupAlias_addAlias ..).trans ((if_neg fun heq => hne heq.2).trans hself)

end AliasTable

/-! ## The exports -/

/-- `symbol_kind_to_export_type`. -/
def symbolKindToExportType : SymbolKind → ExportType
  | .classType => .classType
  | .function => .function
  | .variable | .parameter => .globalVariable

/-- What `ExportsBuilder` reads, but for the module itself: without an import graph, modules
are kept among the re-exports, and filtered out later. -/
structure ExportsContext where
  library : ParserLibrary
  moduleName : ModuleName
  graph : Option (List ModuleName) := none

namespace ModuleExports

/-- `Exports::empty`. -/
def empty : ModuleExports where
  offsets := offsets_empty

variable (ctx : ExportsContext)

/-- `add_re_export`. -/
def addReExport (self : ModuleExports) (exported imported : Attribute) (range : TextRange) :
    ModuleExports :=
  if (ctx.graph.any fun graph => decide (asModuleName imported ∈ graph)) then self
  else
    { self with
      reExports := self.reExports.insert exported imported
      reExportRanges := self.reExportRanges.insert exported range }

/-- `process_definition`. -/
def processDefinition (self : ModuleExports) (name : Str) (d : Definition) : ModuleExports :=
  match d.style with
  | .unannotated kind | .annotated kind _ =>
    { self with
      exports := self.exports.insert (ctx.library.append ctx.moduleName name)
        (symbolKindToExportType kind) }
  | .importName parent | .importAsEq parent =>
    self.addReExport ctx (ctx.moduleName, name) (parent, name) d.range
  | .importAs parent original =>
    self.addReExport ctx (ctx.moduleName, name) (parent, original) d.range
  | .importModule _ | .importInvalidRelative | .mutableCapture _ | .implicitGlobal | .delete =>
    self

/-- The loop of `build` over the definitions of the module. -/
def processDefinitions (defs : Definitions) : ModuleExports :=
  defs.definitions.entries.foldl (fun self e => self.processDefinition ctx e.1 e.2) empty

end ModuleExports

/-- What a name that is defined in the style is a re-export of. -/
def DefinitionStyle.reExported (name : Str) : DefinitionStyle → Option Attribute
  | .importName parent | .importAsEq parent => some (parent, name)
  | .importAs parent original => some (parent, original)
  | _ => none

/-- An imported name is a re-export, unless its level leads nowhere. -/
theorem DefinitionStyle.reExported_importStyle (source : Option ModuleName)
    (name asname : Identifier) :
    (Definitions.importStyle source ⟨name, some asname⟩).reExported asname.id =
      source.map fun m => (m, name.id) := by
  unfold Definitions.importStyle
  cases source with
  | none => rfl
  | some m =>
    dsimp only
    split_ifs with hsame
    · rw [hsame]
      rfl
    · rfl

namespace ModuleExports

variable {ctx : ExportsContext} (hgraph : ctx.graph = none)
include hgraph

theorem reExports_processDefinition (self : ModuleExports) (name : Str) (d : Definition)
    (x : Str) :
    (self.processDefinition ctx name d).reExports.get? (ctx.moduleName, x) =
      if x = name then (d.style.reExported name).or (self.reExports.get? (ctx.moduleName, x))
      else self.reExports.get? (ctx.moduleName, x) := by
  have hadd : ∀ (imported : Attribute) (range : TextRange),
      (self.addReExport ctx (ctx.moduleName, name) imported range).reExports.get?
          (ctx.moduleName, x) =
        if x = name then some imported else self.reExports.get? (ctx.moduleName, x) := by
    intro imported range
    unfold addReExport
    rw [hgraph, Option.any_none, if_neg Bool.false_ne_true]
    show (self.reExports.insert (ctx.moduleName, name) imported).get? (ctx.moduleName, x) = _
    rw [Table.get?_insert]
    exact if_congr (by rw [Prod.mk.injEq, and_iff_right rfl]) rfl rfl
  unfold processDefinition DefinitionStyle.reExported
  split <;> first | exact hadd .. | simp [*]

theorem reExports_foldl {l : List (Str × Definition)} (hl : (l.map Prod.fst).Nodup)
    (self : ModuleExports) (x : Str) :
    (l.foldl (fun self e => self.processDefinition ctx e.1 e.2) self).reExports.get?
        (ctx.moduleName, x) =
      ((Table.find l x).bind fun d => d.style.reExported x).or
        (self.reExports.get? (ctx.moduleName, x)) := by
  induction l generalizing self with
  | nil => rfl
  | cons e rest ih =>
    rw [List.map_cons, List.nodup_cons] at hl
    rw [List.foldl_cons, ih hl.2, reExports_processDefinition hgraph]
    obtain ⟨name, d⟩ := e
    show _ = ((if name = x then some d else Table.find rest x).bind _).or _
    by_cases hx : x = name
    · -- no later entry is of the same name
      subst hx
      have hnone : Table.find rest x = none := Table.find_eq_none_iff.mpr hl.1
      rw [hnone, if_pos rfl, if_pos rfl]
      rfl
    · rw [if_neg hx, if_neg (Ne.symm hx)]

/-- The re-exports of the module are those of its definitions. -/
theorem reExports_processDefinitions (defs : Definitions) (x : Str) :
    (processDefinitions ctx defs).reExports.get? (ctx.moduleName, x) =
      (defs.definitions.get? x).bind fun d => d.style.reExported x := by
  refine (reExports_foldl hgraph defs.definitions.nodup empty x).trans ?_
  exact Option.or_none ..

end ModuleExports

/-! ## Names through an alias -/

namespace ResolvedName

variable {library : ParserLibrary} {res : ResolvedName}

theorem rebaseAccess_name (target : ModuleName) : res.rebaseAccess target res.name = target := by
  unfold rebaseAccess
  rw [if_pos (by simp), List.drop_length]

theorem rebaseAccess_appendStr (target suffix : ModuleName) :
    res.rebaseAccess target (appendStr res.name suffix) = appendStr target suffix := by
  unfold rebaseAccess
  rw [if_pos (by simp [appendStr]), appendStr, List.drop_left]
  rfl

/-- The name of an import with an alias. -/
theorem recordedName_importStyle {m : ModuleName} {name asname : Identifier}
    (hname : res.name = asname.id)
    (hstyle : res.definition.style = Definitions.importStyle (some m) ⟨name, some asname⟩)
    (access : ModuleName) :
    res.recordedName library access =
      res.rebaseAccess (aliasTarget library m name.id) access := by
  unfold Definitions.importStyle at hstyle
  dsimp only at hstyle
  unfold recordedName isImport Definition.isImport qualifyImportAccess
  rw [hstyle]
  split_ifs with hsame <;> simp_all [DefinitionStyle.isImport, DefinitionStyle.importedModule]

end ResolvedName

/-- The end of a chain that is an alias of a global value. -/
theorem AliasTable.resolve_of_global {self : AliasTable} {scope : ModuleName} {name : Str}
    {value : Value} (h : self.lookupAlias scope name = some (.global value)) :
    self.resolve scope name = some (.global value) := by
  show resolveAliasFrom self.aliases 32 [] scope name none = _
  rw [resolveAliasFrom, if_neg List.not_mem_nil]
  have h : getNested self.aliases scope name = some (.global value) := h
  rw [h]

/-- A chain of attributes through an alias, with the target in the place of the alias. -/
theorem AliasTable.resolveQualifiedGlobalAlias_eq {library : ParserLibrary}
    (hlibrary : library.Dotted) {self : AliasTable} {res : ResolvedName} {value : Value}
    {target : ModuleName} (hname : res.name ≠ [] ∧ '.' ∉ res.name) (htarget : target ≠ [])
    (halias : self.lookupAlias res.scope res.name = some (.global value))
    (hvalue : value.asModuleName = some target) {access : ModuleName}
    (haccess : access = res.name ∨ ∃ suffix, access = appendStr res.name suffix) :
    ∃ hasSuffix, self.resolveQualifiedGlobalAlias library res access =
      .resolved value (res.rebaseAccess target access) hasSuffix := by
  have hsplit : res.name.splitOn '.' = [res.name] := List.splitOn_eq_singleton hname.2
  unfold resolveQualifiedGlobalAlias
  rw [halias, AliasTable.resolve_of_global halias]
  unfold qualifyAlias
  dsimp only
  rw [hvalue]
  dsimp only
  rw [if_neg htarget]
  rcases haccess with rfl | ⟨suffix, rfl⟩
  · rw [hlibrary.components _ hname.1, hsplit, List.head?_cons, if_pos rfl, List.tail_cons,
      List.append_nil, hlibrary.components _ htarget, hlibrary.fromParts,
      List.intercalate_splitOn, ResolvedName.rebaseAccess_name]
    exact ⟨_, rfl⟩
  · rw [hlibrary.components_appendStr, hsplit, List.singleton_append, List.head?_cons, if_pos rfl,
      List.tail_cons,
      hlibrary.components _ htarget, hlibrary.fromParts, ← List.splitOn_append_cons_self,
      List.intercalate_splitOn, ResolvedName.rebaseAccess_appendStr]
    exact ⟨_, rfl⟩

/-! ## The agreement -/

/-- A statement `from … import name as asname`, as the parser gives it. -/
structure FromImport where
  source : Option Str
  level : Nat
  names : List ImportAlias
  isLazy : Bool := false
  range : TextRange := {}
  name : Identifier
  asname : Identifier
  mem : ⟨name, some asname⟩ ∈ names
  /-- No other name of the statement is bound to the same. -/
  once : ∀ b ∈ names, b.bound.id = asname.id → b = ⟨name, some asname⟩
  isName : name.id ≠ [] ∧ name.id ≠ "*".toList
  isPlain : asname.id ≠ [] ∧ '.' ∉ asname.id
  absolute : level = 0 → source.isSome

namespace FromImport

variable (f : FromImport)

def toStmt : Stmt := .importFrom f.source f.level f.names f.isLazy f.range

/-- The module as it is written, without the dots of its level. -/
def written : ModuleName := f.source.getD []

end FromImport

/-- A scope of a module: where the walks are in its body, and the body. -/
structure Scope where
  cursor : Cursor
  body : List Stmt

/-- A module, and what its tables are built from. -/
structure ModuleSource where
  parsed : ParsedModule
  config : AnalysisConfig
  exports : ModuleExports
  graph : List ModuleName

namespace ModuleSource

variable (source : ModuleSource)

/-- What the definitions of the module are built from. -/
def definitionsContext : DefinitionsContext :=
  ⟨source.parsed.name, source.parsed.isInit, source.config⟩

/-- The exports are built without a main module. -/
def exportsDefinitionsContext : DefinitionsContext :=
  ⟨source.parsed.name, source.parsed.isInit, source.config.withMain none⟩

/-- What the alias table is built from. -/
def bindingsContext : BindingsContext :=
  ⟨source.config.library, (buildDefinitionsAndClasses source.parsed source.config).definitions,
    source.exports, source.graph⟩

/-- The module's own scope. -/
def moduleScope : Scope := ⟨.enterModuleScope source.parsed.name, source.parsed.body⟩

/-- The definitions that are made of the body of a scope. -/
def definitionsOf (scope : Scope) : Definitions := .make source.definitionsContext scope.body

/-- The alias table. -/
def aliases : AliasTable := .make source.bindingsContext source.parsed

/-- The module that the level of a statement leads to. -/
def resolved (f : FromImport) : Option ModuleName :=
  source.config.library.newMaybeRelative source.parsed.name source.parsed.isInit f.level f.source

/-- What the exports record of the module. -/
def ownExports : ModuleExports :=
  .processDefinitions ⟨source.config.library, source.parsed.name, none⟩
    (.make source.exportsDefinitionsContext source.parsed.body)

variable (scope : Scope)

/-- The statement is one of the scope that all walks reach, and none of the others that they
reach says anything of the alias. -/
structure Binds (f : FromImport) : Prop where
  defined : ∃ before after,
    Definitions.reachedIn source.definitionsContext scope.body = before ++ f.toStmt :: after ∧
    ∀ s ∈ before ++ after, Definitions.LeavesName source.definitionsContext f.asname.id s
  exported : scope = source.moduleScope → ∃ before after,
    Definitions.reachedIn source.exportsDefinitionsContext source.parsed.body =
      before ++ f.toStmt :: after ∧
    ∀ s ∈ before ++ after, Definitions.LeavesName source.exportsDefinitionsContext f.asname.id s
  aliased : ∃ before after, AliasTable.reachedIn source.bindingsContext source.parsed =
      before ++ (scope.cursor, f.toStmt) :: after ∧
    ∀ s ∈ after,
      AliasTable.LeavesName source.bindingsContext scope.cursor.scope f.asname.id s

/-- The name as it is resolved in the scope. -/
structure Resolves (x : Str) (res : ResolvedName) : Prop where
  name : res.name = x
  inScope : res.scope = scope.cursor.scope
  definition : (source.definitionsOf scope).definitions.get? x = some res.definition

/-- All that is recorded of an alias names the target: its entry in the alias table, the source
of the re-export, where it is one of the module, and its definition; and a call through it has
the same name through the alias table as through the definition. -/
structure Targets (x : Str) (target : ModuleName) : Prop where
  aliased : ∃ value, source.aliases.lookupAlias scope.cursor.scope x = some (.global value) ∧
    value.asModuleName = some target
  exported : scope = source.moduleScope → ∃ origin,
    source.ownExports.reExports.get? (source.parsed.name, x) = some origin ∧
      asModuleName origin = target
  defined : ∃ res, source.Resolves scope x res
  qualified : ∀ res, source.Resolves scope x res →
    res.exprFullName = none ∨ res.exprFullName = some x →
      res.qualifiedName source.config.library = target
  called : ∀ res, source.Resolves scope x res → ∀ access, res.exprFullName = some access →
    (access = x ∨ ∃ suffix, access = appendStr x suffix) → ∀ self : SourceAnalyzer,
      self.library = source.config.library → self.info.bindings.aliasTable = source.aliases →
        self.fnameReplaceImportAlias access res = some (res.qualifiedName source.config.library)

/-! ## The readers of the statement -/

variable {source scope} {f : FromImport}

/-- The definitions of a walk in which no other statement defines the alias. -/
theorem style_of_reached {ctx : DefinitionsContext} {body before after : List Stmt}
    (hreached : Definitions.reachedIn ctx body = before ++ f.toStmt :: after)
    (hleaves : ∀ s ∈ before ++ after, Definitions.LeavesName ctx f.asname.id s) :
    (Definitions.make ctx body).HasStyle f.asname.id
      (Definitions.importStyle
        (ctx.config.library.newMaybeRelative ctx.moduleName ctx.isInit f.level f.source)
        ⟨f.name, some f.asname⟩) := by
  rw [Definitions.make_eq_foldl, hreached, List.foldl_append, List.foldl_cons,
    Definitions.HasStyle,
    Definitions.get?_foldl_of_leaves fun s hs => hleaves s (List.mem_append_right _ hs)]
  refine Definitions.hasStyle_foldl_addImportFrom f.isName.2 f.once (Or.inr ⟨?_, f.mem⟩)
  exact Definitions.get?_foldl_of_leaves (fun s hs => hleaves s (List.mem_append_left _ hs)) {}

/-- The alias table has the name under the module as it is written. -/
theorem Binds.lookupAlias (h : source.Binds scope f) :
    source.aliases.lookupAlias scope.cursor.scope f.asname.id =
      some (AliasTable.writtenAlias source.bindingsContext f.source f.name.id) := by
  obtain ⟨before, after, hreached, hleaves⟩ := h.aliased
  unfold aliases
  rw [AliasTable.make_eq_foldl, hreached, List.foldl_append, List.foldl_cons,
    AliasTable.lookupAlias_foldl hleaves]
  exact AliasTable.lookupAlias_importFrom f.once _ (Or.inr f.mem)

/-- The exports have the name under the module that the level leads to. -/
theorem Binds.reExported (h : source.Binds source.moduleScope f) :
    source.ownExports.reExports.get? (source.parsed.name, f.asname.id) =
      (source.resolved f).map fun m => (m, f.name.id) := by
  obtain ⟨before, after, hreached, hleaves⟩ := h.exported rfl
  obtain ⟨d, hd, hstyle⟩ := Option.map_eq_some_iff.mp (style_of_reached hreached hleaves)
  refine (ModuleExports.reExports_processDefinitions rfl _ _).trans ?_
  rw [hd, Option.bind_some, hstyle]
  exact DefinitionStyle.reExported_importStyle ..

/-- The definition of the name has the module that the level leads to. -/
theorem Binds.style (h : source.Binds scope f) {res : ResolvedName}
    (hres : source.Resolves scope f.asname.id res) :
    res.definition.style =
      Definitions.importStyle (source.resolved f) ⟨f.name, some f.asname⟩ := by
  obtain ⟨before, after, hreached, hleaves⟩ := h.defined
  have hstyle := style_of_reached hreached hleaves
  have hget : (Definitions.make source.definitionsContext scope.body).definitions.get?
      f.asname.id = some res.definition := hres.definition
  rw [Definitions.HasStyle, hget] at hstyle
  exact Option.some.inj hstyle

theorem Binds.resolves (h : source.Binds scope f) :
    ∃ res, source.Resolves scope f.asname.id res ∧ res.exprFullName = none := by
  obtain ⟨before, after, hreached, hleaves⟩ := h.defined
  obtain ⟨d, hd, -⟩ := Option.map_eq_some_iff.mp (style_of_reached hreached hleaves)
  exact ⟨⟨f.asname.id, d, scope.cursor.scope, none⟩, ⟨rfl, rfl, hd⟩, rfl⟩

/-- Where the definition and the alias table have the same module, all that is recorded of the
alias names the imported name in it. -/
theorem Binds.targets (hf : source.Binds scope f) (hlibrary : source.config.library.Dotted)
    (h : source.resolved f = some f.written ∧ f.name.id ≠ f.written) :
    ∃ target, source.Targets scope f.asname.id target := by
  obtain ⟨hm, hne⟩ := h
  have htarget : aliasTarget source.config.library f.written f.name.id =
      asModuleName (f.written, f.name.id) := by
    rw [aliasTarget, if_neg hne, hlibrary.append]
  have hrecorded : ∀ res, source.Resolves scope f.asname.id res → ∀ access,
      res.recordedName source.config.library access =
        res.rebaseAccess (asModuleName (f.written, f.name.id)) access := by
    intro res hres access
    have hstyle := hf.style hres
    rw [hm] at hstyle
    rw [ResolvedName.recordedName_importStyle hres.name hstyle, htarget]
  obtain ⟨value, halias, hvalue⟩ : ∃ value,
      source.aliases.lookupAlias scope.cursor.scope f.asname.id = some (.global value) ∧
        value.asModuleName = some (asModuleName (f.written, f.name.id)) := by
    refine ⟨_, hf.lookupAlias, (AliasTable.asModuleName_lookupExternalName _).trans ?_⟩
    exact congrArg some (hlibrary.append _ _)
  refine ⟨asModuleName (f.written, f.name.id), ⟨value, halias, hvalue⟩, ?_, ?_, ?_, ?_⟩
  · rintro rfl
    rw [hf.reExported, hm]
    exact ⟨_, rfl, rfl⟩
  · obtain ⟨res, hres, -⟩ := hf.resolves
    exact ⟨res, hres⟩
  · intro res hres hfull
    have hname : res.exprFullName.getD res.name = res.name := by
      rcases hfull with hnone | hsome
      · rw [hnone]
        rfl
      · rw [hsome, hres.name]
        rfl
    rw [ResolvedName.qualifiedName, hrecorded res hres, hname, ResolvedName.rebaseAccess_name]
  · intro res hres access hfull haccess self hself htable
    rw [← hres.name] at haccess
    rw [← hres.name, ← hres.inScope] at halias
    obtain ⟨hasSuffix, hresolved⟩ := AliasTable.resolveQualifiedGlobalAlias_eq hlibrary
      (hres.name ▸ f.isPlain) (asModuleName_ne_nil f.isName.1) halias hvalue haccess
    rw [SourceAnalyzer.fnameReplaceImportAlias, hself, htable, hresolved,
      ResolvedName.qualifiedName, hfull, Option.getD_some, hrecorded res hres]

/-- In the scope of the module, the exports and the definition tell whether the level leads to
the module as it is written, and the name is not written like it. -/
theorem Binds.of_targets (hf : source.Binds source.moduleScope f)
    (hlibrary : source.config.library.Dotted) {target : ModuleName}
    (htargets : source.Targets source.moduleScope f.asname.id target) :
    source.resolved f = some f.written ∧ f.name.id ≠ f.written := by
  obtain ⟨value, hvalue, htarget⟩ := htargets.aliased
  rw [hf.lookupAlias] at hvalue
  have hvalue := Alias.global.inj (Option.some.inj hvalue)
  rw [← hvalue, AliasTable.asModuleName_lookupExternalName] at htarget
  have htarget : asModuleName (f.written, f.name.id) = target :=
    (hlibrary.append _ _).symm.trans (Option.some.inj htarget)
  -- the exports have the module that the level leads to
  obtain ⟨origin, horigin, hsame⟩ := htargets.exported rfl
  rw [hf.reExported, Option.map_eq_some_iff] at horigin
  obtain ⟨m, hm, rfl⟩ := horigin
  obtain rfl : m = f.written := asModuleName_left_inj (hsame.trans htarget.symm)
  refine ⟨hm, fun hwritten => ?_⟩
  -- the definition has that module itself, where the name is written like it
  obtain ⟨res, hres, hnone⟩ := hf.resolves
  have hqualified := htargets.qualified res hres (Or.inl hnone)
  have hstyle := hf.style hres
  rw [hm] at hstyle
  rw [ResolvedName.qualifiedName, hnone, Option.getD_none,
    ResolvedName.recordedName_importStyle hres.name hstyle, ResolvedName.rebaseAccess_name,
    aliasTarget, if_pos hwritten, ← htarget, ← hwritten] at hqualified
  exact ne_asModuleName_self f.isName.1 hqualified

end ModuleSource

open ModuleSource

/-- For every module, every scope of it and every `from … import name as asname` in the scope:
all that is recorded of the alias names one target, if the level leads to the module as it is
written and the imported name is not written like that module; and in the scope of the module
itself only if so. An absolute import leads to the module as it is written, and a relative one
that leads to a package does not. -/
theorem alias_targets_agree_iff (source : ModuleSource) (hlibrary : source.config.library.Dotted)
    (hrelative : source.config.library.Relative)
    (hmodule : ∀ part ∈ source.parsed.name.splitOn '.', part ≠ []) (scope : Scope)
    (f : FromImport) (hf : source.Binds scope f) :
    (source.resolved f = some f.written ∧ f.name.id ≠ f.written →
      ∃ target, source.Targets scope f.asname.id target) ∧
    (scope = source.moduleScope → (∃ target, source.Targets scope f.asname.id target) →
      source.resolved f = some f.written ∧ f.name.id ≠ f.written) ∧
    (f.level = 0 → source.resolved f = some f.written) ∧
    (f.level ≠ 0 → relativePackage source.parsed.name source.parsed.isInit f.level ≠ [] →
      source.resolved f ≠ some f.written) := by
  refine ⟨hf.targets hlibrary, ?_, ?_, fun hlevel hpackage =>
    hrelative.ne_written hmodule f.source hlevel hpackage⟩
  · rintro rfl ⟨target, htargets⟩
    exact hf.of_targets hlibrary htargets
  · intro hlevel
    obtain ⟨written, hwritten⟩ := Option.isSome_iff_exists.mp (f.absolute hlevel)
    rw [resolved, hlevel, FromImport.written, hwritten]
    exact hrelative.absolute _ _ _

/-! ## A relative import -/

/-- Dotted names, with the relative ones resolved as Python does it. -/
def pythonNames : ParserLibrary :=
  { dottedNames with
    newMaybeRelative m isInit level source :=
      if level = 0 then source
      else if relativePackage m isInit level = [] then none
      else some (['.'].intercalate (relativePackage m isInit level ++ source.toList))
    append m x := asModuleName (m, x)
    components m := m.splitOn '.'
    fromParts parts := ['.'].intercalate parts }

theorem pythonNames_dotted : pythonNames.Dotted :=
  ⟨fun _ _ => rfl, fun _ _ => rfl, fun _ => rfl⟩

theorem pythonNames_relative : pythonNames.Relative where
  absolute _ _ _ := rfl
  relative _ _ _ _ hlevel hpackage := (if_neg hlevel).trans (if_neg hpackage)

/-- `from m2 import f as g`, at a level. -/
def importG (level : Nat) : FromImport where
  source := some "m2".toList
  level := level
  names := [⟨⟨"f".toList, {}⟩, some ⟨"g".toList, {}⟩⟩]
  name := ⟨"f".toList, {}⟩
  asname := ⟨"g".toList, {}⟩
  mem := List.mem_singleton_self _
  once := fun _ hb _ => List.mem_singleton.mp hb
  isName := by decide
  isPlain := by decide
  absolute := fun _ => rfl

/-- A module `pkg.m` of the statement alone. -/
def sourceG (level : Nat) : ModuleSource where
  parsed := { name := "pkg.m".toList, body := [(importG level).toStmt] }
  config := { library := pythonNames }
  exports := .empty
  graph := []

theorem sourceG_binds (level : Nat) :
    (sourceG level).Binds (sourceG level).moduleScope (importG level) :=
  ⟨⟨[], [], rfl, fun _ h => absurd h List.not_mem_nil⟩,
    fun _ => ⟨[], [], rfl, fun _ h => absurd h List.not_mem_nil⟩,
    ⟨[], [], rfl, fun _ h => absurd h List.not_mem_nil⟩⟩

/-- `from .m2 import f as g` in `pkg.m`: the alias is of `m2.f`, and the re-export of
`pkg.m2.f`. -/
theorem relative_alias_disagrees :
    (sourceG 1).Binds (sourceG 1).moduleScope (importG 1) ∧
      ¬∃ target, (sourceG 1).Targets (sourceG 1).moduleScope "g".toList target := by
  refine ⟨sourceG_binds 1, ?_⟩
  rintro ⟨target, htargets⟩
  obtain ⟨value, hvalue, htarget⟩ := htargets.aliased
  obtain ⟨origin, horigin, hsame⟩ := htargets.exported rfl
  have halias : (sourceG 1).aliases.lookupAlias "pkg.m".toList "g".toList =
      some (.global (.variable "m2.f".toList)) := by decide +kernel
  have hexport : (sourceG 1).ownExports.reExports.get? ("pkg.m".toList, "g".toList) =
      some ("pkg.m2".toList, "f".toList) := by decide +kernel
  obtain rfl := Alias.global.inj (Option.some.inj (halias.symm.trans hvalue))
  obtain rfl := Option.some.inj (hexport.symm.trans horigin)
  rw [← Option.some.inj htarget] at hsame
  exact absurd hsame (by decide)

/-- `from m2 import f as g` in `pkg.m`. -/
theorem absolute_alias_agrees :
    ∃ target, (sourceG 0).Targets (sourceG 0).moduleScope "g".toList target :=
  (alias_targets_agree_iff (sourceG 0) pythonNames_dotted pythonNames_relative
    (by decide +kernel) _ (importG 0) (sourceG_binds 0)).1 ⟨rfl, by decide⟩

end Lifeguard
