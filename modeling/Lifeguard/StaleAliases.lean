import Lifeguard.AliasTargets
import Lifeguard.ScopeResolution

/-!
# Stale aliases

An alias is stale once its name is bound to something else. Here the statements of a body that
has no branches are run twice: by the builder of the alias table, and by what Python binds.

- `Leads`: where the aliases of a table lead to;
- `BodySemantics.binds`: the names a statement binds, each with what it gets;
- `Sound`, `Rebinds`: what holds of the table throughout, and what one name bound anew
  may change of it;
- `no_stale_alias`: in a body whose statements meet `Allowed`, no alias is stale.

The builder forgets an alias where one name is assigned (`clearAlias`), and there alone: the
other statements that bind a name leave its alias (`function_leaves_stale_alias`). And an alias
of a name without an alias of its own is followed when it is looked up.
-/

namespace Lifeguard

open Lib

/-! ## Where aliases lead -/

namespace AliasTable

/-- The aliases lead from the name to the value. -/
inductive Leads (self : AliasTable) : ModuleName → Str → Value → Prop
  | here {scope : ModuleName} {name : Str} {value : Value}
    (h : self.lookupAlias scope name = some (.global value)) : Leads self scope name value
  | next {scope scope' : ModuleName} {name name' : Str} {value : Value}
    (h : self.lookupAlias scope name = some (.localName scope' name'))
    (hrest : Leads self scope' name' value) : Leads self scope name value

/-- A lookup that finds a value has followed the aliases to it. -/
theorem leads_of_resolve {self : AliasTable} {scope : ModuleName} {name : Str} {value : Value}
    (h : self.resolve scope name = some (.global value)) : self.Leads scope name value := by
  -- the walk ends at a value, or with the last link that it met
  have hwalk : ∀ (hops : Nat) (visited : List (ModuleName × Str)) (scope : ModuleName)
      (name : Str) (last : Option Alias), last ≠ some (.global value) →
        resolveAliasFrom self.aliases hops visited scope name last = some (.global value) →
          self.Leads scope name value := by
    intro hops
    induction hops with
    | zero => exact fun _ _ _ _ hlast heq => absurd heq hlast
    | succ hops ih =>
      intro visited scope name last hlast heq
      rw [resolveAliasFrom] at heq
      split at heq
      · exact absurd heq hlast
      · split at heq
        · exact absurd heq hlast
        · next hnext => exact .next hnext (ih _ _ _ _ (fun h => by cases h) heq)
        · next hvalue => exact .here (hvalue.trans (congrArg some (Option.some.inj heq)))
  exact hwalk maxHops [] scope name none (fun h => by cases h) h

/-- Two tables agree on names that lead to such names only. -/
structure Agrees (table other : AliasTable) (K : ModuleName → Str → Prop) : Prop where
  same : ∀ s y, K s y → other.lookupAlias s y = table.lookupAlias s y
  closed : ∀ s y s' y', K s y → table.lookupAlias s y = some (.localName s' y') → K s' y'

namespace Agrees

variable {table other : AliasTable} {K : ModuleName → Str → Prop} (h : Agrees table other K)
include h

theorem leads {scope : ModuleName} {name : Str} {value : Value} (hname : K scope name)
    (hleads : other.Leads scope name value) : table.Leads scope name value := by
  induction hleads with
  | here hvalue => exact .here ((h.same _ _ hname).symm.trans hvalue)
  | next hnext _ ih =>
    have hnext := (h.same _ _ hname).symm.trans hnext
    exact .next hnext (ih (h.closed _ _ _ _ hname hnext))

theorem resolve {scope : ModuleName} {name : Str} (hname : K scope name) :
    other.resolve scope name = table.resolve scope name := by
  have hwalk : ∀ (hops : Nat) (visited : List (ModuleName × Str)) (scope : ModuleName)
      (name : Str) (last : Option Alias), K scope name →
        resolveAliasFrom other.aliases hops visited scope name last =
          resolveAliasFrom table.aliases hops visited scope name last := by
    intro hops
    induction hops with
    | zero => exact fun _ _ _ _ _ => rfl
    | succ hops ih =>
      intro visited scope name last hname
      have hsame : getNested other.aliases scope name = getNested table.aliases scope name :=
        h.same scope name hname
      rw [resolveAliasFrom, resolveAliasFrom, hsame]
      split
      · rfl
      · split
        · rfl
        · next hnext => exact ih _ _ _ _ (h.closed _ _ _ _ hname hnext)
        · rfl
  exact hwalk maxHops [] scope name none hname

end Agrees

/-! ## The alias an assignment makes -/

variable (ctx : BindingsContext) (cursor : Cursor)

/-- What the right side is taken for, by a call of `import_module` or by its definition. -/
def recognized (rhs : Expr) : Option Value :=
  match (ctx.definitions.importModuleState cursor.scope).matchCall ctx.library rhs with
  | some imported => some (.imported imported)
  | none =>
    match exprDef ctx cursor rhs with
    | some (.classOf m) => some (.classOf m)
    | some (.imported m) => some (.imported m)
    | _ => none

/-- The alias that is made of the right side, with that of the left side cleared. -/
def assignedAlias (self : AliasTable) (rhs : Expr) : Option Alias :=
  match recognized ctx cursor rhs with
  | some value => some (.global value)
  | none =>
    (ctx.definitions.resolve cursor rhs).bind fun res =>
      if res.isImport then some (self.importAlias ctx res)
      else rhs.asVarName.map fun _ => self.nameAlias res

variable {ctx cursor}

theorem assignVariable_eq (self : AliasTable) (name : Str) (rhs : Expr) :
    self.assignVariable ctx cursor name rhs =
      ((ctx.definitions.resolve cursor rhs).bind fun res =>
        if res.isImport then some (self.importAlias ctx res)
        else rhs.asVarName.map fun _ => self.nameAlias res).elim self
          (self.addAlias cursor name) := by
  unfold assignVariable
  cases ctx.definitions.resolve cursor rhs with
  | none => rfl
  | some res =>
    dsimp only [Option.bind_some]
    split
    · rfl
    · cases rhs <;> rfl

theorem assignName_eq (self : AliasTable) (name : Str) (rhs : Expr) :
    self.assignName ctx cursor name rhs =
      (self.assignedAlias ctx cursor rhs).elim self (self.addAlias cursor name) := by
  unfold assignName assignedAlias recognized
  cases (ctx.definitions.importModuleState cursor.scope).matchCall ctx.library rhs with
  | some imported => rfl
  | none =>
    cases exprDef ctx cursor rhs with
    | none => exact assignVariable_eq self name rhs
    | some value =>
      cases value with
      | classOf m => rfl
      | imported m => rfl
      | _ => exact assignVariable_eq self name rhs

/-- What an assignment makes of an alias depends on the aliases alone. -/
theorem assignedAlias_congr {self other : AliasTable}
    (h : ∀ s y, other.lookupAlias s y = self.lookupAlias s y) (rhs : Expr) :
    other.assignedAlias ctx cursor rhs = self.assignedAlias ctx cursor rhs := by
  unfold assignedAlias importAlias nameAlias
  simp only [h]

/-- An assignment changes the alias of its name alone. -/
theorem lookupAlias_assignSingle {self : AliasTable} {lhs rhs : Expr} {name : Str}
    (hname : lhs.asVarName = some name) (hself : rhs.asVarName ≠ some name)
    (scope : ModuleName) (x : Str) :
    (self.assignSingle ctx cursor lhs rhs).lookupAlias scope x =
      if scope = cursor.scope ∧ x = name then
        (self.clearAlias cursor name).assignedAlias ctx cursor rhs
      else self.lookupAlias scope x := by
  unfold assignSingle
  rw [hname]
  dsimp only
  rw [if_neg hself, assignName_eq]
  cases (self.clearAlias cursor name).assignedAlias ctx cursor rhs with
  | none => exact lookupAlias_clearAlias ..
  | some made =>
    rw [Option.elim_some, lookupAlias_addAlias]
    split
    · rfl
    · next hne => rw [lookupAlias_clearAlias, if_neg hne]

/-- The aliases of other scopes are left alone. -/
theorem lookupAlias_addStmt_of_ne {self : AliasTable} {scope : ModuleName}
    (hscope : scope ≠ cursor.scope) (x : Str) (s : Stmt) :
    (self.addStmt ctx cursor s).lookupAlias scope x = self.lookupAlias scope x := by
  have hsingle : ∀ lhs rhs : Expr,
      (self.assignSingle ctx cursor lhs rhs).lookupAlias scope x = self.lookupAlias scope x := by
    intro lhs rhs
    cases hname : lhs.asVarName with
    | none =>
      unfold assignSingle
      rw [hname]
    | some name =>
      by_cases hself : rhs.asVarName = some name
      · unfold assignSingle
        rw [hname]
        dsimp only
        rw [if_pos hself]
      · rw [lookupAlias_assignSingle hname hself, if_neg fun h => hscope h.1]
  -- every branch writes in the scope of the cursor
  have hadd : ∀ (table : AliasTable) (asname : Option Identifier) (rhs : Alias),
      (asname.elim table fun asname => table.addAlias cursor asname.id rhs).lookupAlias scope x =
        table.lookupAlias scope x := by
    intro table asname rhs
    cases asname with
    | none => rfl
    | some asname => exact (lookupAlias_addAlias ..).trans (if_neg fun h => hscope h.1)
  unfold addStmt
  split
  · exact hsingle _ _
  · next value =>
    cases value with
    | none => rfl
    | some value => exact hsingle _ _
  · exact lookupAlias_foldl (fun a _ table => hadd table a.asname _) self
  · exact lookupAlias_foldl (fun a _ table => hadd table a.asname _) self
  · rfl

/-! ## The bodies of other scopes -/

theorem length_lt_append {library : ParserLibrary} (hlibrary : library.Dotted) {m : ModuleName}
    {name : Str} (hne : m ≠ [] ∨ name ≠ []) : m.length < (library.append m name).length := by
  rw [hlibrary.append, asModuleName]
  dsimp only
  split
  · next hm =>
    rw [hm]
    exact List.length_pos_of_ne_nil (hne.resolve_left fun h => h hm)
  · rw [appendStr, List.length_append, List.length_cons]
    omega

/-- A scope with a shorter name is left alone by the walk over a statement. -/
theorem lookupAlias_stmt_of_shorter (hlibrary : ctx.library.Dotted) {scope : ModuleName}
    (x : Str) (fuel : Nat) :
    ∀ (cursor : Cursor) (self : AliasTable) (s : Stmt), scope.length < cursor.scope.length →
      (stmt ctx fuel cursor self s).lookupAlias scope x = self.lookupAlias scope x := by
  induction fuel with
  | zero => exact fun _ _ _ _ => rfl
  | succ fuel ih =>
    intro cursor self s hshorter
    have hne : cursor.scope ≠ [] := by
      intro h
      rw [h] at hshorter
      exact absurd hshorter (Nat.not_lt_zero _)
    have hinside : scope.length < (cursor.inside ctx.library s).scope.length := by
      unfold Cursor.inside
      split
      · exact hshorter.trans (length_lt_append hlibrary (Or.inl hne))
      · exact hshorter.trans (length_lt_append hlibrary (Or.inl hne))
      · exact hshorter
    rw [stmt_succ, lookupAlias_foldl fun child _ table => ih _ table child hinside]
    exact lookupAlias_addStmt_of_ne (fun h => by rw [h] at hshorter; exact lt_irrefl _ hshorter) x s

/-- The forms of a statement in a body without branches. -/
def IsStraight : Stmt → Prop
  | .assign _ _ _ | .annAssign _ _ _ | .importNames _ _ | .importFrom _ _ _ _ _
  | .functionDef _ _ _ _ _ | .classDef _ _ _ _ _ | .delete _ => True
  | _ => False

/-- In such a body, what is in a function or a class changes nothing of the scopes around. -/
theorem lookupAlias_stmt (hlibrary : ctx.library.Dotted) (hcursor : cursor.scope ≠ [])
    (fuel : Nat) (self : AliasTable) {s : Stmt} (hs : IsStraight s) {scope : ModuleName}
    (hscope : scope.length ≤ cursor.scope.length) (x : Str) :
    (stmt ctx (fuel + 1) cursor self s).lookupAlias scope x =
      (self.addStmt ctx cursor s).lookupAlias scope x := by
  rw [stmt_succ]
  refine lookupAlias_foldl (fun child hchild table => ?_) _
  refine lookupAlias_stmt_of_shorter hlibrary x fuel _ table child ?_
  have hinner : ∀ name, scope.length < (ctx.library.append cursor.scope name).length :=
    fun name => hscope.trans_lt (length_lt_append hlibrary (Or.inl hcursor))
  cases s with
  | functionDef name _ _ _ _ => exact hinner name.id
  | classDef name _ _ _ _ => exact hinner name.id
  | assign | annAssign | importNames | importFrom | delete => cases hchild
  | _ => exact hs.elim

end AliasTable

/-! ## What Python binds -/

/-- What the names of the scopes hold: a module, or what goes by a name of one, where that is
known. -/
abbrev Holdings := ModuleName → Str → Option ModuleName

/-- A name of a scope is bound. -/
def Holdings.bind (E : Holdings) (scope : ModuleName) (b : Str × Option ModuleName) : Holdings :=
  fun s y => if s = scope ∧ y = b.1 then b.2 else E s y

/-- The meaning of the statements of a body, where the aliases and the definitions do not say
it: what an expression comes to, what a name gets of a value that is taken apart, and which
names a star import binds. A name has what it holds in its scope. -/
structure BodySemantics (ctx : BindingsContext) (cursor : Cursor) where
  moduleName : ModuleName
  isInit : Bool
  eval : Holdings → Expr → Option ModuleName
  unpack : Holdings → Expr → Expr → Str → Option ModuleName
  star : Option ModuleName → List (Str × Option ModuleName)
  eval_name : ∀ E id c r res, ctx.definitions.resolve cursor (.name id c r) = some res →
    eval E (.name id c r) = E res.scope id

namespace BodySemantics

variable {ctx : BindingsContext} {cursor : Cursor} (sem : BodySemantics ctx cursor)

/-- The names a target binds. -/
def targetBinds (E : Holdings) (value target : Expr) : List (Str × Option ModuleName) :=
  match target.asVarName with
  | some x => [(x, sem.eval E value)]
  | none => target.lvalues.map fun x => (x.1, sem.unpack E target value x.1)

/-- The name that one name of `import` binds: of a dotted one, the first part. -/
def importBinds (ctx : BindingsContext) (a : ImportAlias) : List (Str × Option ModuleName) :=
  match a.asname with
  | some asname => [(asname.id, some a.name.id)]
  | none =>
    [(ctx.library.firstComponent a.name.id, some (ctx.library.firstComponent a.name.id))]

/-- The names that one name of `from … import` binds, of the module its level leads to. -/
def importFromBinds (source : Option ModuleName) (a : ImportAlias) :
    List (Str × Option ModuleName) :=
  match a.asname with
  | some asname => [(asname.id, source.map fun m => ctx.library.append m a.name.id)]
  | none =>
    if a.name.id = "*".toList then sem.star source
    else [(a.name.id, source.map fun m => ctx.library.append m a.name.id)]

/-- The names a statement binds or unbinds, in order, each with what it gets. -/
def binds (E : Holdings) : Stmt → List (Str × Option ModuleName)
  | .assign targets value _ => targets.flatMap (sem.targetBinds E value)
  | .annAssign target _ value => value.elim [] fun value => sem.targetBinds E value target
  | .importNames names _ => names.flatMap (importBinds ctx)
  | .importFrom source level names _ _ =>
    names.flatMap (sem.importFromBinds
      (ctx.library.newMaybeRelative sem.moduleName sem.isInit level source))
  | .functionDef name _ _ _ _ | .classDef name _ _ _ _ =>
    [(name.id, some (ctx.library.append cursor.scope name.id))]
  | .delete targets => targets.flatMap fun target => target.lvalues.map fun x => (x.1, none)
  | _ => []

/-- What the names hold after a statement. -/
def exec (E : Holdings) (s : Stmt) : Holdings :=
  (sem.binds E s).foldl (fun E b => E.bind cursor.scope b) E

/-- The statement binds or unbinds the name, whatever the names hold. -/
def Binds (s : Stmt) (x : Str) : Prop := ∃ E, x ∈ (sem.binds E s).map Prod.fst

/-- The last statement of the body that binds or unbinds the name gives it `p`. -/
inductive LastBinds (x : Str) (p : Option ModuleName) : Holdings → List Stmt → Prop
  | here {E : Holdings} {s : Stmt} {rest : List Stmt}
    {before after : List (Str × Option ModuleName)}
    (hlast : sem.binds E s = before ++ (x, p) :: after) (hafter : x ∉ after.map Prod.fst)
    (hrest : ∀ t ∈ rest, ¬sem.Binds t x) : LastBinds x p E (s :: rest)
  | later {E : Holdings} {s : Stmt} {rest : List Stmt}
    (hlater : LastBinds x p (sem.exec E s) rest) : LastBinds x p E (s :: rest)

end BodySemantics

/-! ## One name -/

/-- A module, a class or a function. -/
def Value.isTarget : Value → Bool
  | .imported _ | .classOf _ | .function _ => true
  | _ => false

/-- The scope is the current one, or one that may be around it. -/
def Cursor.Around (cursor : Cursor) (scope : ModuleName) : Prop :=
  scope.length ≤ cursor.scope.length

/-- The alias of another name leads to the name. -/
def AliasTable.Followed (cursor : Cursor) (self : AliasTable) (x : Str) : Prop :=
  ∃ s y, cursor.Around s ∧ ¬(s = cursor.scope ∧ y = x) ∧
    self.lookupAlias s y = some (.localName cursor.scope x)

/-- The aliases lead outwards, and to what the names hold. -/
structure Sound (cursor : Cursor) (table : AliasTable) (E : Holdings) : Prop where
  closed : ∀ s y s' y', cursor.Around s → table.lookupAlias s y = some (.localName s' y') →
    cursor.Around s'
  right : ∀ s y value, cursor.Around s → table.Leads s y value → value.isTarget = true →
    E s y = value.asModuleName

/-- A name is bound, and its alias with it: nothing changes, for it had no alias or what it
had is still right; or no other alias led to it, and its own is right again. -/
inductive Rebinds (cursor : Cursor) (table : AliasTable) (E : Holdings)
    (b : Str × Option ModuleName) : AliasTable → Prop
  | unchanged {other : AliasTable}
    (same : ∀ s y, cursor.Around s → other.lookupAlias s y = table.lookupAlias s y)
    (h : table.lookupAlias cursor.scope b.1 = none ∨ b.2 = E cursor.scope b.1) :
    Rebinds cursor table E b other
  | changed {other : AliasTable}
    (others : ∀ s y, cursor.Around s → ¬(s = cursor.scope ∧ y = b.1) →
      other.lookupAlias s y = table.lookupAlias s y)
    (free : ¬table.Followed cursor b.1)
    (value : ∀ value, other.lookupAlias cursor.scope b.1 = some (.global value) →
      value.isTarget = true → b.2 = value.asModuleName)
    (link : ∀ s y, other.lookupAlias cursor.scope b.1 = some (.localName s y) →
      cursor.Around s ∧ ¬(s = cursor.scope ∧ y = b.1) ∧
        ∀ value, table.Leads s y value → value.isTarget = true → b.2 = value.asModuleName) :
    Rebinds cursor table E b other

section

variable {cursor : Cursor} {table other : AliasTable} {E : Holdings}

theorem AliasTable.not_leads_of_none {scope : ModuleName} {name : Str} {value : Value}
    (h : table.lookupAlias scope name = none) : ¬table.Leads scope name value := by
  intro hleads
  cases hleads with
  | here hvalue => exact absurd (h.symm.trans hvalue) (by simp)
  | next hnext _ => exact absurd (h.symm.trans hnext) (by simp)

/-- Tables that are the same around a scope. -/
theorem Sound.agrees_around (hsound : Sound cursor table E)
    (same : ∀ s y, cursor.Around s → other.lookupAlias s y = table.lookupAlias s y) :
    table.Agrees other fun s _ => cursor.Around s :=
  ⟨fun s y hs => same s y hs, fun s y s' y' hs => hsound.closed s y s' y' hs⟩

/-- Tables that are the same but for a name that no alias leads to. -/
theorem Sound.agrees_others (hsound : Sound cursor table E) {x : Str}
    (others : ∀ s y, cursor.Around s → ¬(s = cursor.scope ∧ y = x) →
      other.lookupAlias s y = table.lookupAlias s y) (free : ¬table.Followed cursor x) :
    table.Agrees other fun s y => cursor.Around s ∧ ¬(s = cursor.scope ∧ y = x) := by
  refine ⟨fun s y h => others s y h.1 h.2, fun s y s' y' h hnext => ?_⟩
  refine ⟨hsound.closed s y s' y' h.1 hnext, ?_⟩
  rintro ⟨rfl, rfl⟩
  exact free ⟨s, y, h.1, h.2, hnext⟩

theorem Sound.congr (hsound : Sound cursor table E)
    (same : ∀ s y, cursor.Around s → other.lookupAlias s y = table.lookupAlias s y) :
    Sound cursor other E := by
  refine ⟨fun s y s' y' hs hnext => ?_, fun s y value hs hleads htarget => ?_⟩
  · exact hsound.closed s y s' y' hs ((same s y hs).symm.trans hnext)
  · exact hsound.right s y value hs ((hsound.agrees_around same).leads hs hleads) htarget

namespace Rebinds

variable {b : Str × Option ModuleName} (h : Rebinds cursor table E b other)
include h

/-- The aliases of the other names stay. -/
theorem lookup_of_ne {y : Str} (hy : y ≠ b.1) :
    other.lookupAlias cursor.scope y = table.lookupAlias cursor.scope y := by
  cases h with
  | unchanged same _ => exact same _ y le_rfl
  | changed others _ _ _ => exact others _ y le_rfl fun heq => hy heq.2

/-- What the other names resolve to stays. -/
theorem resolve_of_ne (hsound : Sound cursor table E) {y : Str} (hy : y ≠ b.1) :
    other.resolve cursor.scope y = table.resolve cursor.scope y := by
  have haround : cursor.Around cursor.scope := le_rfl
  cases h with
  | unchanged same _ => exact (hsound.agrees_around same).resolve haround
  | changed others free _ _ =>
    exact (hsound.agrees_others others free).resolve ⟨haround, fun heq => hy heq.2⟩

theorem sound (hsound : Sound cursor table E) :
    Sound cursor other (E.bind cursor.scope b) := by
  cases h with
  | unchanged same h =>
    have hother := hsound.congr same
    refine ⟨hother.closed, fun s y value hs hleads htarget => ?_⟩
    unfold Holdings.bind
    split
    · next heq =>
      obtain ⟨rfl, rfl⟩ := heq
      have hleads := (hsound.agrees_around same).leads hs hleads
      rcases h with hnone | hsame
      · exact absurd hleads (AliasTable.not_leads_of_none hnone)
      · exact hsame.trans (hsound.right _ _ value hs hleads htarget)
    · exact hother.right s y value hs hleads htarget
  | changed others free hvalue hlink =>
    -- no chain from another name comes through the one that is bound
    have hagrees := hsound.agrees_others others free
    refine ⟨fun s y s' y' hs hnext => ?_, fun s y value hs hleads htarget => ?_⟩
    · by_cases heq : s = cursor.scope ∧ y = b.1
      · obtain ⟨rfl, rfl⟩ := heq
        exact (hlink s' y' hnext).1
      · exact hsound.closed s y s' y' hs ((others s y hs heq).symm.trans hnext)
    · unfold Holdings.bind
      split
      · next heq =>
        obtain ⟨rfl, rfl⟩ := heq
        cases hleads with
        | here hglobal => exact hvalue value hglobal htarget
        | next hnext hrest =>
          -- from the second name on the chain is one of the table before
          obtain ⟨hs', hne, hright⟩ := hlink _ _ hnext
          exact hright value (hagrees.leads ⟨hs', hne⟩ hrest) htarget
      · next hne => exact hsound.right s y value hs (hagrees.leads ⟨hs, hne⟩ hleads) htarget

end Rebinds

/-! ## Several names -/

/-- Names are bound one after the other. -/
inductive RebindsAll (cursor : Cursor) :
    AliasTable → Holdings → List (Str × Option ModuleName) → AliasTable → Prop
  | nil {table : AliasTable} {E : Holdings} : RebindsAll cursor table E [] table
  | cons {table mid other : AliasTable} {E : Holdings} {b : Str × Option ModuleName}
    {rest : List (Str × Option ModuleName)} (hstep : Rebinds cursor table E b mid)
    (hrest : RebindsAll cursor mid (E.bind cursor.scope b) rest other) :
    RebindsAll cursor table E (b :: rest) other

namespace RebindsAll

variable {l : List (Str × Option ModuleName)}

theorem append {mid : AliasTable} {l' : List (Str × Option ModuleName)}
    (h : RebindsAll cursor table E l mid)
    (h' : RebindsAll cursor mid (l.foldl (fun E b => E.bind cursor.scope b) E) l' other) :
    RebindsAll cursor table E (l ++ l') other := by
  induction h with
  | nil => exact h'
  | cons hstep _ ih => exact .cons hstep (ih h')

/-- Names without an alias get none. -/
theorem kept (h : ∀ b ∈ l, table.lookupAlias cursor.scope b.1 = none) :
    RebindsAll cursor table E l table := by
  induction l generalizing E with
  | nil => exact .nil
  | cons b rest ih =>
    exact .cons (.unchanged (fun _ _ _ => rfl) (Or.inl (h b (List.mem_cons_self ..))))
      (ih fun b hb => h b (List.mem_cons_of_mem _ hb))

variable (h : RebindsAll cursor table E l other)
include h

theorem lookup_of_not_mem {y : Str} (hy : y ∉ l.map Prod.fst) :
    other.lookupAlias cursor.scope y = table.lookupAlias cursor.scope y := by
  induction h with
  | nil => rfl
  | cons hstep _ ih =>
    rw [List.map_cons, List.mem_cons, not_or] at hy
    exact (ih hy.2).trans (hstep.lookup_of_ne hy.1)

theorem sound (hsound : Sound cursor table E) :
    Sound cursor other (l.foldl (fun E b => E.bind cursor.scope b) E) := by
  induction h with
  | nil => exact hsound
  | cons hstep _ ih => exact ih (hstep.sound hsound)

theorem resolve_of_not_mem (hsound : Sound cursor table E) {y : Str}
    (hy : y ∉ l.map Prod.fst) :
    other.resolve cursor.scope y = table.resolve cursor.scope y := by
  induction h with
  | nil => rfl
  | cons hstep _ ih =>
    rw [List.map_cons, List.mem_cons, not_or] at hy
    exact (ih (hstep.sound hsound) hy.2).trans (hstep.resolve_of_ne hsound hy.1)

end RebindsAll

end

/-! ## The condition -/

/-- An alias is made of the right side. -/
def Aliasable (ctx : BindingsContext) (cursor : Cursor) (rhs : Expr) : Prop :=
  (AliasTable.recognized ctx cursor rhs).isSome ∨
    ∃ res, ctx.definitions.resolve cursor rhs = some res ∧
      (res.isImport = true ∨ rhs.asVarName.isSome)

namespace BodySemantics

variable {ctx : BindingsContext} {cursor : Cursor} (sem : BodySemantics ctx cursor)
  (table : AliasTable) (E : Holdings)

/-- No name that is bound has an alias. -/
def NoAlias (cursor : Cursor) (table : AliasTable) (l : List (Str × Option ModuleName)) : Prop :=
  ∀ b ∈ l, table.lookupAlias cursor.scope b.1 = none

/-- A value may be assigned to a name: to itself, where the scope has it; or another one, where
no alias leads to the name, or none is there and none is made; where what the definitions take
the value for is what it comes to; and where it is no attribute of an import with an alias. -/
inductive AllowedAssign (x : Str) (rhs : Expr) : Prop
  | itself (hself : rhs.asVarName = some x) (h : sem.eval E rhs = E cursor.scope x) :
    AllowedAssign x rhs
  | other (hother : rhs.asVarName ≠ some x)
    (free : ¬table.Followed cursor x ∨
      table.lookupAlias cursor.scope x = none ∧ ¬Aliasable ctx cursor rhs)
    (recognized : ∀ value, AliasTable.recognized ctx cursor rhs = some value →
      sem.eval E rhs = value.asModuleName)
    (chain : AliasTable.recognized ctx cursor rhs = none → ∀ res,
      ctx.definitions.resolve cursor rhs = some res → res.isImport = true →
        rhs.asVarName = none → ¬(res.scope = cursor.scope ∧ res.name = x) →
          table.lookupAlias res.scope res.name = none) :
    AllowedAssign x rhs

/-- A value may be assigned to a target: where the target is no name, none that it binds has an
alias. -/
def AllowedTarget (value target : Expr) : Prop :=
  match target.asVarName with
  | some x => sem.AllowedAssign table E x value
  | none => NoAlias cursor table (sem.targetBinds E value target)

/-- One name of an import statement: without `as` it has no alias; with `as` no alias leads to
it, and if its alias is one of a module, a class or a function, it is of what is bound. -/
def AllowedName (cursor : Cursor) (table : AliasTable) (value : ImportAlias → Value)
    (bound : ImportAlias → List (Str × Option ModuleName)) (a : ImportAlias) : Prop :=
  match a.asname with
  | none => NoAlias cursor table (bound a)
  | some asname => ¬table.Followed cursor asname.id ∧
    ∀ b ∈ bound a, (value a).isTarget = true → b.2 = (value a).asModuleName

/-- The table after one name of an import statement. -/
def addName (cursor : Cursor) (value : ImportAlias → Value) (table : AliasTable)
    (a : ImportAlias) : AliasTable :=
  a.asname.elim table fun asname => table.addAlias cursor asname.id (.global (value a))

/-- The names of an import statement, one after the other. -/
def AllowedNames (cursor : Cursor) (value : ImportAlias → Value)
    (bound : ImportAlias → List (Str × Option ModuleName)) :
    AliasTable → List ImportAlias → Prop
  | _, [] => True
  | table, a :: rest =>
    AllowedName cursor table value bound a ∧
      AllowedNames cursor value bound (addName cursor value table a) rest

/-- The alias that `import` makes. -/
def importValue (a : ImportAlias) : Value := .imported a.name.id

/-- The alias that `from … import` makes, of the module as it is written. -/
def importFromValue (ctx : BindingsContext) (source : Option Str) (a : ImportAlias) : Value :=
  (AliasTable.lookupExternalName ctx (ctx.library.append (source.getD []) a.name.id)).getD
    (.variable (ctx.library.append (source.getD []) a.name.id))

/-- What is asked of a statement, of the table before it and of what the names hold. A statement
that clears no alias binds names without one. -/
def Allowed : Stmt → Prop
  | .assign [target] value _ => sem.AllowedTarget table E value target
  | .annAssign target _ value => ∀ v ∈ value, sem.AllowedTarget table E v target
  | .importNames names _ => AllowedNames cursor importValue (importBinds ctx) table names
  | .importFrom source level names _ _ =>
    AllowedNames cursor (importFromValue ctx source)
      (sem.importFromBinds
        (ctx.library.newMaybeRelative sem.moduleName sem.isInit level source)) table names
  | s => NoAlias cursor table (sem.binds E s)

/-- The table after a body. -/
def runTable (ctx : BindingsContext) (cursor : Cursor) (fuel : Nat) (table : AliasTable)
    (body : List Stmt) : AliasTable :=
  body.foldl (AliasTable.stmt ctx (fuel + 1) cursor) table

/-- Every statement of a body is of one of the forms, and what is asked of it holds. -/
def Meets (fuel : Nat) : AliasTable → Holdings → List Stmt → Prop
  | _, _, [] => True
  | table, E, s :: rest =>
    AliasTable.IsStraight s ∧ sem.Allowed table E s ∧
      Meets fuel (AliasTable.stmt ctx (fuel + 1) cursor table s) (sem.exec E s) rest

end BodySemantics

/-! ## One statement -/

theorem AliasTable.assignedAlias_eq_none {ctx : BindingsContext} {cursor : Cursor} {rhs : Expr}
    (h : ¬Aliasable ctx cursor rhs) (self : AliasTable) :
    self.assignedAlias ctx cursor rhs = none := by
  unfold Aliasable at h
  rw [not_or, Option.not_isSome_iff_eq_none, not_exists] at h
  unfold assignedAlias
  rw [h.1]
  cases hres : ctx.definitions.resolve cursor rhs with
  | none => rfl
  | some res =>
    have hno := h.2 res
    rw [hres, and_iff_right rfl, not_or, Option.not_isSome_iff_eq_none] at hno
    rw [Option.bind_some, if_neg hno.1, hno.2]
    rfl

/-- A name is resolved in one of the scopes of the cursor. -/
theorem Cursor.around_of_resolve {definitions : DefinitionTable} {cursor : Cursor}
    (hnested : Cursor.Nested cursor.scopes) {e : Expr} {res : ResolvedName}
    (h : definitions.resolve cursor e = some res) : cursor.Around res.scope := by
  have hlegb : ∀ (inFunction : Bool) (scopes : List (ScopeKind × ModuleName)),
      ∀ s ∈ legbFrom inFunction scopes, (s.2, s.1) ∈ scopes := by
    intro inFunction scopes
    induction scopes generalizing inFunction with
    | nil => exact fun s hs => absurd hs List.not_mem_nil
    | cons t rest ih =>
      intro s hs
      rw [legbFrom] at hs
      split at hs
      · exact List.mem_cons_of_mem _ (ih _ s hs)
      · rcases List.mem_cons.mp hs with rfl | hs
        · exact List.mem_cons_self ..
        · exact List.mem_cons_of_mem _ (ih _ s hs)
  obtain ⟨name, -, hmap⟩ := Option.bind_eq_some_iff.mp h
  obtain ⟨found, hfound, rfl⟩ := Option.map_eq_some_iff.mp hmap
  have hscope : (definitions.scopeResolver.resolveName cursor name e.range).map
      ResolvedName.scope = _ := ScopeResolver.scope_resolveName
  rw [hfound, Option.map_some, eq_comm, Option.map_eq_some_iff] at hscope
  obtain ⟨s, hs, hname⟩ := hscope
  have hmem := hlegb _ _ s (List.mem_of_find?_eq_some hs)
  show found.scope.length ≤ _
  rw [← hname]
  rcases List.mem_cons.mp hmem with hcurrent | houter
  · exact le_of_eq (congrArg (fun t => t.2.length) hcurrent)
  · exact ((List.pairwise_cons.mp hnested.longer).1 _ houter).le

/-- What a name is resolved to has the name. -/
theorem name_of_resolve {definitions : DefinitionTable} {cursor : Cursor} {e : Expr}
    {res : ResolvedName} (h : definitions.resolve cursor e = some res) :
    e.baseName = some res.name := by
  obtain ⟨name, hname, hmap⟩ := Option.bind_eq_some_iff.mp h
  obtain ⟨found, hfound, rfl⟩ := Option.map_eq_some_iff.mp hmap
  obtain ⟨s, -, hs⟩ := List.exists_of_findSome?_eq_some hfound
  obtain ⟨defs, -, hd⟩ := Option.bind_eq_some_iff.mp hs
  obtain ⟨d, -, rfl⟩ := Option.map_eq_some_iff.mp hd
  exact hname

namespace BodySemantics

variable {ctx : BindingsContext} {cursor : Cursor} {sem : BodySemantics ctx cursor}
  {table : AliasTable} {E : Holdings}

/-- What a name that is read holds is where its alias leads. -/
theorem eval_of_leads (hsound : Sound cursor table E) (hnested : Cursor.Nested cursor.scopes)
    {rhs : Expr} {id : Str} (hrhs : rhs.asVarName = some id) {res : ResolvedName}
    (hres : ctx.definitions.resolve cursor rhs = some res) {value : Value}
    (hleads : table.Leads res.scope res.name value) (htarget : value.isTarget = true) :
    sem.eval E rhs = value.asModuleName := by
  cases rhs with
  | name id c r =>
    have hname : some id = some res.name := name_of_resolve hres
    rw [sem.eval_name E id c r res hres, Option.some.inj hname]
    exact hsound.right _ _ value (Cursor.around_of_resolve hnested hres) hleads htarget
  | _ => cases hrhs

/-- Where the alias that is made of a right side comes from: what the definitions take it for,
an import without an alias, or a name, whose alias is taken over, or followed from now on. -/
inductive Made (ctx : BindingsContext) (cursor : Cursor) (table : AliasTable) (rhs : Expr) :
    Alias → Prop
  | recognized {value : Value} (h : AliasTable.recognized ctx cursor rhs = some value) :
    Made ctx cursor table rhs (.global value)
  | imported {value : Value} (h : value.isTarget = false) :
    Made ctx cursor table rhs (.global value)
  | taken {res : ResolvedName} {id : Str} {made : Alias} (hname : rhs.asVarName = some id)
    (hres : ctx.definitions.resolve cursor rhs = some res)
    (h : table.lookupAlias res.scope res.name = some made) : Made ctx cursor table rhs made
  | link {res : ResolvedName} {id : Str} (hname : rhs.asVarName = some id)
    (hres : ctx.definitions.resolve cursor rhs = some res) :
    Made ctx cursor table rhs (.localName res.scope res.name)

theorem resName_of_asVarName {rhs : Expr} {id : Str} (hname : rhs.asVarName = some id)
    {res : ResolvedName} (hres : ctx.definitions.resolve cursor rhs = some res) :
    res.name = id := by
  cases rhs with
  | name other c r =>
    have hbase : some other = some res.name := name_of_resolve hres
    exact (Option.some.inj hbase).symm.trans (Option.some.inj hname)
  | _ => cases hname

theorem made_of_assignedAlias {x : Str} {rhs : Expr} (hother : rhs.asVarName ≠ some x)
    (chain : AliasTable.recognized ctx cursor rhs = none → ∀ res,
      ctx.definitions.resolve cursor rhs = some res → res.isImport = true →
        rhs.asVarName = none → ¬(res.scope = cursor.scope ∧ res.name = x) →
          table.lookupAlias res.scope res.name = none) {made : Alias}
    (hmade : (table.clearAlias cursor x).assignedAlias ctx cursor rhs = some made) :
    Made ctx cursor table rhs made := by
  -- the name that is read is not the one that is assigned
  have hread : ∀ {res id}, rhs.asVarName = some id →
      ctx.definitions.resolve cursor rhs = some res →
        (table.clearAlias cursor x).lookupAlias res.scope res.name =
          table.lookupAlias res.scope res.name := by
    intro res id hname hres
    refine (AliasTable.lookupAlias_clearAlias ..).trans (if_neg fun heq => hother ?_)
    rw [hname, ← resName_of_asVarName hname hres, heq.2]
  unfold AliasTable.assignedAlias at hmade
  split at hmade
  · next value hvalue =>
    cases hmade
    exact .recognized hvalue
  next hnone =>
  obtain ⟨res, hres, hmade⟩ := Option.bind_eq_some_iff.mp hmade
  split at hmade
  · next himport =>
    have hmade : AliasTable.importAlias ctx _ res = made := Option.some.inj hmade
    unfold AliasTable.importAlias at hmade
    cases hlookup : (table.clearAlias cursor x).lookupAlias res.scope res.name with
    | none =>
      rw [hlookup, Option.none_or] at hmade
      cases hfull : res.tryQualifiedName ctx.library with
      | none =>
        rw [hfull] at hmade
        exact hmade ▸ .imported rfl
      | some name =>
        rw [hfull] at hmade
        exact hmade ▸ .imported rfl
    | some existing =>
      rw [hlookup] at hmade
      obtain rfl : existing = made := hmade
      cases hname : rhs.asVarName with
      | none =>
        -- an attribute of an import, which has the alias of the import itself
        exfalso
        rw [AliasTable.lookupAlias_clearAlias] at hlookup
        split at hlookup
        · cases hlookup
        · next hne =>
          rw [chain hnone res hres himport hname hne] at hlookup
          cases hlookup
      | some id => exact .taken hname hres ((hread hname hres).symm.trans hlookup)
  · obtain ⟨id, hname, hmade⟩ := Option.map_eq_some_iff.mp hmade
    unfold AliasTable.nameAlias at hmade
    split at hmade
    · next value hvalue =>
      exact hmade ▸ .taken hname hres ((hread hname hres).symm.trans hvalue)
    · exact hmade ▸ .link hname hres

/-- An assignment to a name. -/
theorem rebinds_assignSingle (hsound : Sound cursor table E)
    (hnested : Cursor.Nested cursor.scopes) {lhs rhs : Expr} {x : Str}
    (hlhs : lhs.asVarName = some x) (h : sem.AllowedAssign table E x rhs) :
    Rebinds cursor table E (x, sem.eval E rhs) (table.assignSingle ctx cursor lhs rhs) := by
  cases h with
  | itself hself h =>
    have hkeep : table.assignSingle ctx cursor lhs rhs = table := by
      unfold AliasTable.assignSingle
      rw [hlhs]
      dsimp only
      rw [if_pos hself]
    rw [hkeep]
    exact .unchanged (fun _ _ _ => rfl) (Or.inr h)
  | other hother free recognized chain =>
    -- the assignment changes the alias of the one name only
    have hlookup : ∀ s y, (table.assignSingle ctx cursor lhs rhs).lookupAlias s y = _ :=
      AliasTable.lookupAlias_assignSingle hlhs hother
    rcases free with free | ⟨hnone, hplain⟩
    · -- wherever the alias comes from, it leads to what the right side comes to
      have hmade : ∀ made, (table.assignSingle ctx cursor lhs rhs).lookupAlias cursor.scope x =
          some made → Made ctx cursor table rhs made := by
        intro made heq
        rw [hlookup, if_pos ⟨rfl, rfl⟩] at heq
        exact made_of_assignedAlias hother chain heq
      refine .changed (fun s y _ hne => (hlookup s y).trans (if_neg hne)) free ?_ ?_
      · intro value hvalue htarget
        cases hmade _ hvalue with
        | recognized h => exact recognized value h
        | imported h => rw [h] at htarget; cases htarget
        | taken hname hres h => exact eval_of_leads hsound hnested hname hres (.here h) htarget
      · intro s y hlink
        cases hmade _ hlink with
        | @taken res id _ hname hres h =>
          have haround := Cursor.around_of_resolve hnested hres
          refine ⟨hsound.closed _ _ s y haround h, ?_, fun value hleads htarget =>
            eval_of_leads hsound hnested hname hres (.next h hleads) htarget⟩
          rintro ⟨rfl, rfl⟩
          refine free ⟨res.scope, res.name, haround, fun heq => hother ?_, h⟩
          rw [hname, ← resName_of_asVarName hname hres, heq.2]
        | link hname hres =>
          refine ⟨Cursor.around_of_resolve hnested hres, fun heq => hother ?_,
            fun value hleads htarget => eval_of_leads hsound hnested hname hres hleads htarget⟩
          rw [hname, ← resName_of_asVarName hname hres, heq.2]
    · -- there was no alias, and there is none
      refine .unchanged (fun s y _ => ?_) (Or.inl hnone)
      rw [hlookup, AliasTable.assignedAlias_eq_none hplain]
      split
      · next heq => rw [heq.1, heq.2, hnone]
      · rfl

theorem rebindsAll_target (hsound : Sound cursor table E)
    (hnested : Cursor.Nested cursor.scopes) {value target : Expr}
    (h : sem.AllowedTarget table E value target) :
    RebindsAll cursor table E (sem.targetBinds E value target)
      (table.assignSingle ctx cursor target value) := by
  unfold AllowedTarget at h
  unfold targetBinds at h ⊢
  cases htarget : target.asVarName with
  | some x =>
    rw [htarget] at h
    exact .cons (rebinds_assignSingle hsound hnested htarget h) .nil
  | none =>
    rw [htarget] at h
    -- a target that is no name is left to its parts, which make no alias
    have hkeep : table.assignSingle ctx cursor target value = table := by
      unfold AliasTable.assignSingle
      rw [htarget]
    rw [hkeep]
    exact .kept h

theorem addName_of_none {value : ImportAlias → Value} {a : ImportAlias} (h : a.asname = none) :
    addName cursor value table a = table := by
  rw [addName, h]
  rfl

theorem lookupAlias_addName {value : ImportAlias → Value} {a : ImportAlias} {asname : Identifier}
    (h : a.asname = some asname) (s : ModuleName) (y : Str) :
    (addName cursor value table a).lookupAlias s y =
      if s = cursor.scope ∧ y = asname.id then some (.global (value a))
      else table.lookupAlias s y := by
  rw [addName, h]
  exact AliasTable.lookupAlias_addAlias ..

/-- The names of an import statement. -/
theorem rebindsAll_names {value : ImportAlias → Value}
    {bound : ImportAlias → List (Str × Option ModuleName)}
    (hbound : ∀ a asname, a.asname = some asname → ∃ p, bound a = [(asname.id, p)])
    {names : List ImportAlias} (h : AllowedNames cursor value bound table names) :
    RebindsAll cursor table E (names.flatMap bound) (names.foldl (addName cursor value) table) := by
  induction names generalizing table E with
  | nil => exact .nil
  | cons a rest ih =>
    obtain ⟨hname, hrest⟩ := h
    rw [List.flatMap_cons, List.foldl_cons]
    refine RebindsAll.append ?_ (ih hrest)
    unfold AllowedName at hname
    cases hasname : a.asname with
    | none =>
      rw [hasname] at hname
      rw [addName_of_none hasname]
      exact .kept hname
    | some asname =>
      rw [hasname] at hname
      obtain ⟨p, hp⟩ := hbound a asname hasname
      obtain ⟨hfree, hright⟩ := hname
      rw [hp] at hright ⊢
      -- the alias made is a global one, so it links to no other name
      have hself : (addName cursor value table a).lookupAlias cursor.scope asname.id =
          some (.global (value a)) := (lookupAlias_addName hasname ..).trans (if_pos ⟨rfl, rfl⟩)
      refine .cons (.changed (fun s y _ hne => ?_) hfree ?_ ?_) .nil
      · exact (lookupAlias_addName hasname s y).trans (if_neg hne)
      · intro v hv htarget
        obtain rfl := Alias.global.inj (Option.some.inj (hself.symm.trans hv))
        exact hright _ (List.mem_singleton_self _) htarget
      · intro s y hlink
        cases hself.symm.trans hlink

theorem importNames_eq (names : List ImportAlias) :
    table.importNames cursor names = names.foldl (addName cursor importValue) table := rfl

theorem importFrom_eq (source : Option Str) (names : List ImportAlias) :
    table.importFrom ctx cursor source names =
      names.foldl (addName cursor (importFromValue ctx source)) table := rfl

theorem importBinds_of_some {a : ImportAlias} {asname : Identifier} (h : a.asname = some asname) :
    ∃ p, importBinds ctx a = [(asname.id, p)] := by
  rw [importBinds, h]
  exact ⟨_, rfl⟩

theorem importFromBinds_of_some {source : Option ModuleName} {a : ImportAlias}
    {asname : Identifier} (h : a.asname = some asname) :
    ∃ p, sem.importFromBinds source a = [(asname.id, p)] := by
  rw [importFromBinds, h]
  exact ⟨_, rfl⟩

/-- A statement of which what is asked holds binds its names. -/
theorem rebindsAll_addStmt (hsound : Sound cursor table E)
    (hnested : Cursor.Nested cursor.scopes) {s : Stmt} (hs : AliasTable.IsStraight s)
    (h : sem.Allowed table E s) :
    RebindsAll cursor table E (sem.binds E s) (table.addStmt ctx cursor s) := by
  cases s with
  | assign targets value range =>
    match targets, h with
    | [], h => exact .nil
    | [target], h =>
      show RebindsAll cursor table E ([target].flatMap (sem.targetBinds E value)) _
      rw [List.flatMap_singleton]
      exact rebindsAll_target hsound hnested h
    | _ :: _ :: _, h => exact .kept h
  | annAssign target annotation value =>
    cases value with
    | none => exact .nil
    | some value => exact rebindsAll_target hsound hnested (h value rfl)
  | importNames names isLazy =>
    show RebindsAll cursor table E (names.flatMap (importBinds ctx)) (table.importNames cursor names)
    rw [importNames_eq]
    exact rebindsAll_names (fun a asname => importBinds_of_some) h
  | importFrom source level names isLazy range =>
    show RebindsAll cursor table E _ (table.importFrom ctx cursor source names)
    rw [importFrom_eq]
    exact rebindsAll_names (fun a asname => importFromBinds_of_some) h
  -- the builder has no case for the other forms: the table stays
  | functionDef name params decorators body range => exact .kept h
  | classDef name arguments decorators body range => exact .kept h
  | delete targets => exact .kept h
  | _ => exact hs.elim

/-! ## Earlier aliases -/

variable (sem) in
/-- Which names a statement binds does not depend on what the names hold. -/
theorem map_fst_binds (E E' : Holdings) (s : Stmt) :
    (sem.binds E s).map Prod.fst = (sem.binds E' s).map Prod.fst := by
  have htarget : ∀ value target,
      (sem.targetBinds E value target).map Prod.fst =
        (sem.targetBinds E' value target).map Prod.fst := by
    intro value target
    unfold targetBinds
    split
    · rfl
    · rw [List.map_map, List.map_map]
      rfl
  cases s with
  | assign targets value range =>
    show (targets.flatMap _).map _ = (targets.flatMap _).map _
    rw [List.map_flatMap, List.map_flatMap]
    simp only [htarget]
  | annAssign target annotation value =>
    cases value with
    | none => rfl
    | some value => exact htarget value target
  | _ => rfl

theorem mem_of_binds {s : Stmt} {x : Str} (h : sem.Binds s x) (E : Holdings) :
    x ∈ (sem.binds E s).map Prod.fst := by
  obtain ⟨E', hE'⟩ := h
  rw [sem.map_fst_binds E E']
  exact hE'

/-- A single name is assigned to itself. -/
def AssignsToItself (x : Str) : Stmt → Prop
  | .assign [target] value _ => target.asVarName = some x ∧ value.asVarName = some x
  | .annAssign target _ value =>
    target.asVarName = some x ∧ ∃ v ∈ value, v.asVarName = some x
  | _ => False

/-- A name without an alias is as it is in a table that is cleared of it. -/
theorem lookup_cleared {l : List (Str × Option ModuleName)} (h : NoAlias cursor table l)
    {x : Str} (hx : x ∈ l.map Prod.fst) :
    table.lookupAlias cursor.scope x =
      (table.clearAlias cursor x).lookupAlias cursor.scope x := by
  obtain ⟨b, hb, rfl⟩ := List.mem_map.mp hx
  rw [h b hb, AliasTable.lookupAlias_clearAlias, if_pos ⟨rfl, rfl⟩]

theorem lookup_target_cleared {value target : Expr} (h : sem.AllowedTarget table E value target)
    {x : Str} (hx : x ∈ (sem.targetBinds E value target).map Prod.fst)
    (hother : ¬(target.asVarName = some x ∧ value.asVarName = some x)) :
    (table.assignSingle ctx cursor target value).lookupAlias cursor.scope x =
      ((table.clearAlias cursor x).assignSingle ctx cursor target value).lookupAlias
        cursor.scope x := by
  unfold AllowedTarget at h
  unfold targetBinds at h hx
  cases htarget : target.asVarName with
  | some y =>
    rw [htarget] at hx hother
    obtain rfl : x = y := List.mem_singleton.mp hx
    have hother : value.asVarName ≠ some x := fun heq => hother ⟨rfl, heq⟩
    rw [AliasTable.lookupAlias_assignSingle htarget hother,
      AliasTable.lookupAlias_assignSingle htarget hother, if_pos ⟨rfl, rfl⟩, if_pos ⟨rfl, rfl⟩]
    refine AliasTable.assignedAlias_congr (fun s y => ?_) value
    rw [AliasTable.lookupAlias_clearAlias, AliasTable.lookupAlias_clearAlias]
    split
    · rfl
    · next hne => exact ((AliasTable.lookupAlias_clearAlias ..).trans (if_neg hne)).symm
  | none =>
    rw [htarget] at h hx
    unfold AliasTable.assignSingle
    rw [htarget]
    exact lookup_cleared h hx

/-- The names of an import statement leave no earlier alias of one of them. -/
theorem lookup_names_cleared {value : ImportAlias → Value}
    {bound : ImportAlias → List (Str × Option ModuleName)}
    (hbound : ∀ a asname, a.asname = some asname → ∃ p, bound a = [(asname.id, p)])
    {names : List ImportAlias} (h : AllowedNames cursor value bound table names) {x : Str}
    {other : AliasTable}
    (hx : table.lookupAlias cursor.scope x = other.lookupAlias cursor.scope x ∨
      x ∈ (names.flatMap bound).map Prod.fst ∧ other.lookupAlias cursor.scope x = none) :
    (names.foldl (addName cursor value) table).lookupAlias cursor.scope x =
      (names.foldl (addName cursor value) other).lookupAlias cursor.scope x := by
  induction names generalizing table other with
  | nil => exact hx.resolve_right fun h => List.not_mem_nil h.1
  | cons a rest ih =>
    obtain ⟨hname, hrest⟩ := h
    rw [List.foldl_cons, List.foldl_cons]
    refine ih hrest ?_
    rw [List.flatMap_cons, List.map_append, List.mem_append] at hx
    unfold AllowedName at hname
    cases hasname : a.asname with
    | none =>
      rw [hasname] at hname
      rw [addName_of_none hasname, addName_of_none hasname]
      -- without `as` the name had no alias, so that there was nothing to clear
      rcases hx with hsame | ⟨hmem | hmem, hnone⟩
      · exact Or.inl hsame
      · obtain ⟨b, hb, rfl⟩ := List.mem_map.mp hmem
        exact Or.inl ((hname b hb).trans hnone.symm)
      · exact Or.inr ⟨hmem, hnone⟩
    | some asname =>
      obtain ⟨p, hp⟩ := hbound a asname hasname
      rw [lookupAlias_addName hasname, lookupAlias_addName hasname]
      by_cases heq : x = asname.id
      · rw [if_pos ⟨rfl, heq⟩, if_pos ⟨rfl, heq⟩]
        exact Or.inl rfl
      · rw [if_neg fun h => heq h.2, if_neg fun h => heq h.2]
        refine hx.imp_right fun hmem => ⟨hmem.1.resolve_left fun hin => heq ?_, hmem.2⟩
        rw [hp] at hin
        exact List.mem_singleton.mp hin

/-- A name that is bound has the alias that it would have without an earlier one. -/
theorem lookup_addStmt_cleared {s : Stmt} (hs : AliasTable.IsStraight s)
    (h : sem.Allowed table E s) {x : Str} (hx : sem.Binds s x) (hother : ¬AssignsToItself x s) :
    (table.addStmt ctx cursor s).lookupAlias cursor.scope x =
      ((table.clearAlias cursor x).addStmt ctx cursor s).lookupAlias cursor.scope x := by
  have hmem := mem_of_binds hx E
  -- with the earlier alias cleared there is none to begin with
  have hnone : (table.clearAlias cursor x).lookupAlias cursor.scope x = none :=
    (AliasTable.lookupAlias_clearAlias ..).trans (if_pos ⟨rfl, rfl⟩)
  cases s with
  | assign targets value range =>
    match targets, h, hother with
    | [], h, _ => exact absurd hmem List.not_mem_nil
    | [target], h, hother =>
      refine lookup_target_cleared h ?_ hother
      have hmem : x ∈ ([target].flatMap (sem.targetBinds E value)).map Prod.fst := hmem
      rwa [List.flatMap_singleton] at hmem
    | _ :: _ :: _, h, _ => exact lookup_cleared h hmem
  | annAssign target annotation value =>
    cases value with
    | none => exact absurd hmem List.not_mem_nil
    | some value =>
      exact lookup_target_cleared (h value rfl) hmem fun heq =>
        hother ⟨heq.1, value, rfl, heq.2⟩
  | importNames names isLazy =>
    exact lookup_names_cleared (fun a asname => importBinds_of_some) h (Or.inr ⟨hmem, hnone⟩)
  | importFrom source level names isLazy range =>
    exact lookup_names_cleared (fun a asname => importFromBinds_of_some) h (Or.inr ⟨hmem, hnone⟩)
  | functionDef name params decorators body range => exact lookup_cleared h hmem
  | classDef name arguments decorators body range => exact lookup_cleared h hmem
  | delete targets => exact lookup_cleared h hmem
  | _ => exact hs.elim

/-! ## Runs -/

section Runs

variable (hlibrary : ctx.library.Dotted) (hscope : cursor.scope ≠ [])
  (hnested : Cursor.Nested cursor.scopes) (fuel : Nat)
include hlibrary hscope hnested

theorem sound_stmt (hsound : Sound cursor table E) {s : Stmt} (hs : AliasTable.IsStraight s)
    (h : sem.Allowed table E s) :
    Sound cursor (AliasTable.stmt ctx (fuel + 1) cursor table s) (sem.exec E s) :=
  ((rebindsAll_addStmt hsound hnested hs h).sound hsound).congr fun _ y hscope' =>
    AliasTable.lookupAlias_stmt hlibrary hscope fuel table hs hscope' y

theorem lookup_stmt_of_not_binds (hsound : Sound cursor table E) {s : Stmt}
    (hs : AliasTable.IsStraight s) (h : sem.Allowed table E s) {x : Str} (hx : ¬sem.Binds s x) :
    (AliasTable.stmt ctx (fuel + 1) cursor table s).lookupAlias cursor.scope x =
      table.lookupAlias cursor.scope x :=
  (AliasTable.lookupAlias_stmt hlibrary hscope fuel table hs le_rfl x).trans
    ((rebindsAll_addStmt hsound hnested hs h).lookup_of_not_mem fun hmem => hx ⟨E, hmem⟩)

theorem resolve_stmt_of_not_binds (hsound : Sound cursor table E) {s : Stmt}
    (hs : AliasTable.IsStraight s) (h : sem.Allowed table E s) {x : Str} (hx : ¬sem.Binds s x) :
    (AliasTable.stmt ctx (fuel + 1) cursor table s).resolve cursor.scope x =
      table.resolve cursor.scope x := by
  have hstep := rebindsAll_addStmt hsound hnested hs h
  have hinner := (hstep.sound hsound).agrees_around fun _ y hscope' =>
    AliasTable.lookupAlias_stmt hlibrary hscope fuel table hs hscope' y
  have haround : cursor.Around cursor.scope := le_rfl
  exact (hinner.resolve haround).trans
    (hstep.resolve_of_not_mem hsound fun hmem => hx ⟨E, hmem⟩)

/-- Throughout a body, the aliases lead to what the names hold. -/
theorem sound_runTable (hsound : Sound cursor table E) {body : List Stmt}
    (h : sem.Meets fuel table E body) :
    Sound cursor (runTable ctx cursor fuel table body) (body.foldl sem.exec E) := by
  induction body generalizing table E with
  | nil => exact hsound
  | cons s rest ih =>
    obtain ⟨hs, hallowed, hrest⟩ := h
    exact ih (sound_stmt hlibrary hscope hnested fuel hsound hs hallowed) hrest

/-- A name that no statement binds keeps its alias. -/
theorem lookup_runTable_of_not_binds (hsound : Sound cursor table E) {body : List Stmt}
    (h : sem.Meets fuel table E body) {x : Str} (hx : ∀ s ∈ body, ¬sem.Binds s x) :
    (runTable ctx cursor fuel table body).lookupAlias cursor.scope x =
      table.lookupAlias cursor.scope x := by
  induction body generalizing table E with
  | nil => rfl
  | cons s rest ih =>
    obtain ⟨hs, hallowed, hrest⟩ := h
    have hstep := sound_stmt hlibrary hscope hnested fuel hsound hs hallowed
    exact (ih hstep hrest fun t ht => hx t (List.mem_cons_of_mem _ ht)).trans
      (lookup_stmt_of_not_binds hlibrary hscope hnested fuel hsound hs hallowed
        (hx s (List.mem_cons_self ..)))

/-- What is asked of a body holds of what comes before one of its statements, and of the
statement. -/
theorem meets_append (hsound : Sound cursor table E) {before : List Stmt} {s : Stmt}
    {after : List Stmt} (h : sem.Meets fuel table E (before ++ s :: after)) :
    AliasTable.IsStraight s ∧
      sem.Allowed (runTable ctx cursor fuel table before) (before.foldl sem.exec E) s ∧
      Sound cursor (runTable ctx cursor fuel table before) (before.foldl sem.exec E) := by
  induction before generalizing table E with
  | nil => exact ⟨h.1, h.2.1, hsound⟩
  | cons t rest ih =>
    obtain ⟨ht, hallowed, hrest⟩ := h
    exact ih (sound_stmt hlibrary hscope hnested fuel hsound ht hallowed) hrest

end Runs

/-- What a name holds after bindings: what it held, or what the last of them gave it. -/
theorem foldl_bind_cases (l : List (Str × Option ModuleName)) (E : Holdings) (x : Str) :
    (x ∉ l.map Prod.fst ∧
      l.foldl (fun E b => E.bind cursor.scope b) E cursor.scope x = E cursor.scope x) ∨
    ∃ before p after, l = before ++ (x, p) :: after ∧ x ∉ after.map Prod.fst ∧
      l.foldl (fun E b => E.bind cursor.scope b) E cursor.scope x = p := by
  induction l generalizing E with
  | nil => exact Or.inl ⟨List.not_mem_nil, rfl⟩
  | cons b rest ih =>
    rw [List.foldl_cons]
    rcases ih (E.bind cursor.scope b) with ⟨hno, hsame⟩ | ⟨before, p, after, rfl, hafter, hval⟩
    · by_cases hx : x = b.1
      · refine Or.inr ⟨[], b.2, rest, by rw [hx]; rfl, hno, hsame.trans ?_⟩
        exact if_pos ⟨rfl, hx⟩
      · refine Or.inl ⟨?_, hsame.trans (if_neg fun h => hx h.2)⟩
        rw [List.map_cons, List.mem_cons, not_or]
        exact ⟨hx, hno⟩
    · exact Or.inr ⟨b :: before, p, after, rfl, hafter, hval⟩

/-- A name that a body binds ends with what the last statement that binds it gives. -/
theorem lastBinds_or (body : List Stmt) (E : Holdings) (x : Str) :
    ((∀ s ∈ body, ¬sem.Binds s x) ∧
      body.foldl sem.exec E cursor.scope x = E cursor.scope x) ∨
    sem.LastBinds x (body.foldl sem.exec E cursor.scope x) E body := by
  induction body generalizing E with
  | nil => exact Or.inl ⟨fun _ hs => absurd hs List.not_mem_nil, rfl⟩
  | cons s rest ih =>
    rw [List.foldl_cons]
    rcases ih (sem.exec E s) with ⟨hno, hsame⟩ | hlater
    · rw [hsame]
      rcases foldl_bind_cases (sem.binds E s) E x with
        ⟨hnot, hkept⟩ | ⟨before, p, after, hlast, hafter, hval⟩
      · refine Or.inl ⟨fun t ht => ?_, hkept⟩
        rcases List.mem_cons.mp ht with rfl | ht
        · exact fun hbinds => hnot (mem_of_binds hbinds E)
        · exact hno t ht
      · have hval : sem.exec E s cursor.scope x = p := hval
        rw [hval]
        exact Or.inr (.here hlast hafter hno)
    · exact Or.inr (.later hlater)

end BodySemantics

/-- A scope whose body is walked first, in aliases that are right around it. -/
structure Fresh (cursor : Cursor) (table : AliasTable) (E : Holdings) : Prop where
  sound : Sound cursor table E
  unaliased : ∀ x, table.lookupAlias cursor.scope x = none

/-- The alias table of a module is that of a run of its body. -/
theorem AliasTable.make_eq_runTable (ctx : BindingsContext) (parsed : ParsedModule) :
    make ctx parsed = BodySemantics.runTable ctx (.enterModuleScope parsed.name)
      (Stmt.depths parsed.body - 1) {} parsed.body := by
  unfold make
  cases hbody : parsed.body with
  | nil => rfl
  | cons s rest =>
    have hpos : 0 < Stmt.depths (s :: rest) := by
      have hdepth : 0 < s.depth := by cases s <;> simp [Stmt.depth]
      rw [Stmt.depths]
      omega
    rw [BodySemantics.runTable, Nat.sub_add_cancel hpos]

/-- The walk over a module starts without an alias. -/
theorem fresh_empty (cursor : Cursor) (E : Holdings) : Fresh cursor {} E :=
  ⟨⟨fun _ _ _ _ _ h => (by cases h),
    fun _ _ _ _ h => absurd h (AliasTable.not_leads_of_none rfl)⟩, fun _ => rfl⟩

open BodySemantics

/-- For every body of assignments, imports, `def`, `class` and `del` statements in a scope that
is fresh: where every statement meets the condition, a name whose aliases lead to a module, a
class or a function is one that the last statement to bind it gives just that; no statement that
binds a name leaves an earlier alias of it, unless it assigns the name to itself; and what a name
resolves to is changed by no statement that does not bind it. The run over the whole body of a
module leaves the table that `AliasTable::make` builds. -/
theorem no_stale_alias {ctx : BindingsContext} (hlibrary : ctx.library.Dotted) {cursor : Cursor}
    (hcursor : cursor.Entered ctx.library) (hscope : cursor.scope ≠ [])
    (sem : BodySemantics ctx cursor) (fuel : Nat) (table : AliasTable) (E : Holdings)
    (hfresh : Fresh cursor table E) (body : List Stmt) (hmeets : sem.Meets fuel table E body) :
    (∀ x value, value.isTarget = true →
      (runTable ctx cursor fuel table body).resolve cursor.scope x = some (.global value) →
        sem.LastBinds x value.asModuleName E body) ∧
    (∀ before s after, body = before ++ s :: after →
      (∀ x, sem.Binds s x → ¬AssignsToItself x s →
        (runTable ctx cursor fuel table (before ++ [s])).lookupAlias cursor.scope x =
          (AliasTable.stmt ctx (fuel + 1) cursor
            ((runTable ctx cursor fuel table before).clearAlias cursor x) s).lookupAlias
              cursor.scope x) ∧
      ∀ x, ¬sem.Binds s x →
        (runTable ctx cursor fuel table (before ++ [s])).resolve cursor.scope x =
          (runTable ctx cursor fuel table before).resolve cursor.scope x) ∧
    ∀ parsed : ParsedModule, cursor = .enterModuleScope parsed.name → body = parsed.body →
      table = {} → fuel = Stmt.depths body - 1 →
        AliasTable.make ctx parsed = runTable ctx cursor fuel table body := by
  have hnested := hcursor.nested fun m x hx =>
    AliasTable.length_lt_append hlibrary (Or.inr hx)
  have hsound := hfresh.sound
  refine ⟨fun x value htarget hresolve => ?_, ?_, ?_⟩
  · have hfinal := sound_runTable hlibrary hscope hnested fuel hsound hmeets
    have hleads := AliasTable.leads_of_resolve hresolve
    have hholds := hfinal.right cursor.scope x value le_rfl hleads htarget
    rcases lastBinds_or body E x with ⟨hno, -⟩ | hlast
    · -- a name that is never bound has no alias in a scope that is fresh
      have hnone := lookup_runTable_of_not_binds hlibrary hscope hnested fuel hsound hmeets hno
      exact absurd hleads (AliasTable.not_leads_of_none (hnone.trans (hfresh.unaliased x)))
    · rwa [hholds] at hlast
  · rintro before s after rfl
    obtain ⟨hs, hallowed, hbefore⟩ := meets_append hlibrary hscope hnested fuel hsound hmeets
    have hrun : runTable ctx cursor fuel table (before ++ [s]) =
        AliasTable.stmt ctx (fuel + 1) cursor (runTable ctx cursor fuel table before) s :=
      List.foldl_append ..
    rw [hrun]
    refine ⟨fun x hx hother => ?_, fun x hx => ?_⟩
    · rw [AliasTable.lookupAlias_stmt hlibrary hscope fuel _ hs le_rfl,
        AliasTable.lookupAlias_stmt hlibrary hscope fuel _ hs le_rfl]
      exact lookup_addStmt_cleared hs hallowed hx hother
    · exact resolve_stmt_of_not_binds hlibrary hscope hnested fuel hbefore hs hallowed hx
  · rintro parsed rfl rfl rfl rfl
    exact AliasTable.make_eq_runTable ctx parsed

/-! ## An alias that is stale -/

/-- `from m2 import C as x`. -/
def importX : Stmt :=
  .importFrom (some "m2".toList) 0 [⟨⟨"C".toList, {}⟩, some ⟨"x".toList, {}⟩⟩] false {}

/-- A module `m` that imports a class of `m2` as `x`, and then binds the name again. -/
def rebindingX (s : Stmt) : ModuleSource where
  parsed := { name := "m".toList, body := [importX, s] }
  config := { library := pythonNames }
  exports := { ModuleExports.empty with
    exports := Table.empty.insert "m2.C".toList .classType }
  graph := []

/-- `def x(): ...`. -/
def functionX : Stmt := .functionDef ⟨"x".toList, {}⟩ [] [] [] {}

/-- `x = 0`. -/
def zeroX : Stmt := .assign [.name "x".toList .store {}] (.literal .int {}) {}

/-- Names have what they hold, and nothing is known of other expressions. -/
def knownNames (ctx : BindingsContext) (cursor : Cursor) : BodySemantics ctx cursor where
  moduleName := "m".toList
  isInit := false
  eval E e :=
    e.asVarName.bind fun id => (ctx.definitions.resolve cursor e).bind fun res => E res.scope id
  unpack _ _ _ _ := none
  star _ := []
  eval_name E id c r res h := by
    rw [h]
    rfl

/-- At first nothing is known. -/
def nothingHeld : Holdings := fun _ _ => none

/-- After `def x` the alias table still has the class for `x`. -/
theorem function_leaves_stale_alias :
    (rebindingX functionX).aliases.resolve "m".toList "x".toList =
        some (.global (.classOf "m2.C".toList)) ∧
      ¬(knownNames (rebindingX functionX).bindingsContext
        (.enterModuleScope "m".toList)).LastBinds "x".toList (some "m2.C".toList) nothingHeld
          [importX, functionX] := by
  refine ⟨by decide +kernel, fun hlast => ?_⟩
  cases hlast with
  | here _ _ hrest =>
    exact hrest functionX (List.mem_singleton_self _) ⟨nothingHeld, List.mem_singleton_self _⟩
  | later hlater =>
    cases hlater with
    | here hlast _ _ =>
      have hmem := hlast ▸ List.mem_append_right _ (List.mem_cons_self ..)
      exact absurd (congrArg Prod.snd (List.mem_singleton.mp hmem)) (by decide)
    | later hlater => cases hlater

/-- After `x = 0` no alias of it is left in the table of the module. -/
theorem assignment_leaves_no_alias :
    (rebindingX zeroX).aliases.lookupAlias "m".toList "x".toList = none := by
  have hmeets : (knownNames (rebindingX zeroX).bindingsContext
      (.enterModuleScope "m".toList)).Meets 0 {} nothingHeld [importX, zeroX] := by
    refine ⟨trivial, ⟨⟨?_, ?_⟩, trivial⟩, trivial, ?_, trivial⟩
    · rintro ⟨s, y, -, -, h⟩
      cases h
    · intro b hb _
      rw [List.mem_singleton.mp hb]
      decide +kernel
    · refine .other (fun h => by cases h) (Or.inl ?_) (fun _ h => by cases h)
        fun _ _ h => by cases h
      rintro ⟨s, y, -, -, h⟩
      have h : (addName (.enterModuleScope "m".toList) (importFromValue
          (rebindingX zeroX).bindingsContext (some "m2".toList)) {}
            ⟨⟨"C".toList, {}⟩, some ⟨"x".toList, {}⟩⟩).lookupAlias s y = _ := h
      rw [lookupAlias_addName rfl] at h
      split at h
      · cases h
      · cases h
  obtain ⟨-, hstep, hmake⟩ := no_stale_alias pythonNames_dotted (.moduleScope "m".toList)
    (by decide) (knownNames (rebindingX zeroX).bindingsContext _) 0 {} nothingHeld
    (fresh_empty _ _) [importX, zeroX] hmeets
  rw [ModuleSource.aliases, hmake (rebindingX zeroX).parsed rfl rfl rfl (by decide)]
  exact ((hstep [importX] zeroX [] rfl).1 "x".toList
    ⟨nothingHeld, List.mem_singleton_self _⟩ fun h => by cases h.2).trans (by decide +kernel)

end Lifeguard
