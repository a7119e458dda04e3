import Lifeguard.ModuleInfo

/-!
# Where a name is found

A name that is read in a scope is looked up in that scope, then in the functions around it,
and at last in the module; the body of a class is seen from nowhere but itself.

- `Binds`: a scope binds the name where it is read;
- `FollowsPython`: the scope that `resolveName` finds the name in is the first of these;
- `resolve_name_follows_python_iff`: so it is, unless the body of a class is looked up from
  that of a class right inside it.
-/

namespace Lifeguard

open Lib

/-! ## The scopes -/

/-- The cursors a walk has: it starts at the module, and enters the scopes of named classes
and functions, and `try` bodies. -/
inductive Cursor.Entered (library : ParserLibrary) : Cursor → Prop
  | moduleScope (name : ModuleName) : Entered library (enterModuleScope name)
  | classScope {cursor : Cursor} {name : Str} (h : Entered library cursor) (hname : name ≠ []) :
    Entered library (cursor.enterClassScope library name)
  | function {cursor : Cursor} {name : Str} (h : Entered library cursor) (hname : name ≠ []) :
    Entered library (cursor.enterFunctionScope library name)
  | tryBody {cursor : Cursor} (h : Entered library cursor) (handlers : List TryHandler) :
    Entered library (cursor.enterTryBody handlers)

/-- The scopes a name is looked up in: the current one, then the functions around it from the
inside, and the module, which is around everything. -/
def Cursor.pythonScopes (cursor : Cursor) : List (ScopeKind × ModuleName) :=
  cursor.current :: cursor.outer.filter fun s => decide (s.1 ≠ .classScope)

/-- The classes that the current scope stands in, with no function in between. -/
def Cursor.classesAround (cursor : Cursor) : List (ScopeKind × ModuleName) :=
  cursor.outer.takeWhile fun s => decide (s.1 = .classScope)

/-- The binding of a name in a scope is one that a read sees: the body of a class that is run
has it from its first binding on, unless a declaration makes it a name of another scope, and
the target of a comprehension is seen inside of it. -/
inductive SeenIn (isStub : Bool) (defs : Definitions) (kind : ScopeKind) (name : Str)
    (readAt : TextRange) : Prop
  | importAlias {site : ScopedDefinition} (hmem : site ∈ scopedSites defs name)
    (halias : site.visibility = .importAlias)
    (hplace : kind = .classScope → isStub = false →
      site.definition.range.start ≤ readAt.start)
  | definition {d : Definition} (hget : defs.definitions.get? name = some d)
    (hplace : kind = .classScope → isStub = false →
      (∃ capture, d.style = .mutableCapture capture) ∨ d.firstBinding ≤ readAt.start)
  | comprehension {site : ScopedDefinition} {range : TextRange}
    (hmem : site ∈ scopedSites defs name) (htarget : site.visibility = .comprehension range)
    (hinside : range.containsRange readAt = true)

namespace ScopeResolver

variable (self : ScopeResolver)

/-- A scope binds the name where it is read. -/
def Binds (s : ScopeKind × ModuleName) (name : Str) (readAt : TextRange) : Prop :=
  ∃ defs, self.definitions.get? s.2 = some defs ∧ SeenIn self.isStub defs s.1 name readAt

/-- The first of the scopes that bind the name has this name. -/
def FirstBinds (scopes : List (ScopeKind × ModuleName)) (name : Str) (readAt : TextRange)
    (scope : ModuleName) : Prop :=
  ∃ before s after, scopes = before ++ s :: after ∧ s.2 = scope ∧ self.Binds s name readAt ∧
    ∀ t ∈ before, ¬self.Binds t name readAt

/-- The name is found in the first scope that binds it, of those that are looked up. -/
def FollowsPython (cursor : Cursor) (name : Str) (readAt : TextRange) : Prop :=
  ∀ scope, (∃ res, self.resolveName cursor name readAt = some res ∧ res.scope = scope) ↔
    self.FirstBinds cursor.pythonScopes name readAt scope

/-- Where the current scope is a class that does not bind the name, none of the classes it
stands in binds it, with no function in between. -/
def NoClassAroundBinds (cursor : Cursor) (name : Str) (readAt : TextRange) : Prop :=
  cursor.current.1 = .classScope → self.Binds cursor.current name readAt ∨
    ∀ s ∈ cursor.classesAround, ¬self.Binds s name readAt

variable {self} {cursor : Cursor} {name : Str} {readAt : TextRange}

/-! ## One scope -/

theorem aliasInEffect_isSome {defs : Definitions} {positionBounded : Bool} :
    (aliasInEffect defs name readAt positionBounded).isSome = true ↔
      ∃ site ∈ scopedSites defs name, site.visibility = .importAlias ∧
        (positionBounded = true → site.definition.range.start ≤ readAt.start) := by
  unfold aliasInEffect
  rw [Option.isSome_map, List.find?_isSome]
  refine exists_congr fun site => and_congr List.mem_reverse ?_
  rw [Bool.and_eq_true, decide_eq_true_iff, Bool.or_eq_true, Bool.not_eq_true',
    decide_eq_true_iff]
  refine and_congr_right fun _ => ?_
  cases positionBounded <;> simp

theorem compTargetAt_isSome {defs : Definitions} :
    (compTargetAt defs name readAt).isSome = true ↔
      ∃ site ∈ scopedSites defs name, ∃ range, site.visibility = .comprehension range ∧
        range.containsRange readAt = true := by
  unfold compTargetAt
  rw [List.findSome?_isSome_iff]
  refine exists_congr fun site => and_congr_right fun _ => ?_
  cases site.visibility with
  | comprehension range =>
    cases hinside : range.containsRange readAt <;> simp [hinside]
  | importAlias => simp

theorem visibleInClassBody_iff {d : Definition} :
    visibleInClassBody d readAt = true ↔
      (∃ capture, d.style = .mutableCapture capture) ∨ d.firstBinding ≤ readAt.start := by
  unfold visibleInClassBody
  split
  · next capture hstyle => exact iff_of_true rfl (Or.inl ⟨capture, hstyle⟩)
  · next hstyle =>
    rw [decide_eq_true_iff]
    exact ⟨Or.inr, fun h => h.resolve_left fun ⟨capture, heq⟩ => hstyle capture heq⟩

/-- What the walk looks for in one scope is a binding that the read sees. -/
theorem definitionIn_isSome {defs : Definitions} {kind : ScopeKind} :
    (self.definitionIn defs kind name readAt).isSome = true ↔
      SeenIn self.isStub defs kind name readAt := by
  have hbounded : (decide (kind = .classScope) && !self.isStub) = true ↔
      kind = .classScope ∧ self.isStub = false := by
    rw [Bool.and_eq_true, decide_eq_true_iff, Bool.not_eq_true']
  have hdefined : ((defs.definitions.get? name).filter fun d =>
        !(decide (kind = .classScope) && !self.isStub) || visibleInClassBody d readAt).isSome =
      true ↔ ∃ d, defs.definitions.get? name = some d ∧
        (kind = .classScope → self.isStub = false →
          (∃ capture, d.style = .mutableCapture capture) ∨ d.firstBinding ≤ readAt.start) := by
    rw [Option.isSome_iff_exists]
    refine exists_congr fun d => ?_
    rw [Option.filter_eq_some_iff, Bool.or_eq_true, Bool.not_eq_true', visibleInClassBody_iff]
    refine and_congr_right fun _ => ?_
    rw [← Bool.not_eq_true, hbounded, ← and_imp, imp_iff_not_or]
  unfold definitionIn
  dsimp only
  rw [Option.isSome_or, Option.isSome_or, Bool.or_eq_true, Bool.or_eq_true, aliasInEffect_isSome,
    compTargetAt_isSome, hdefined, hbounded]
  constructor
  · rintro (⟨site, hmem, halias, hplace⟩ | ⟨d, hget, hplace⟩ |
      ⟨site, hmem, range, htarget, hinside⟩)
    · exact .importAlias hmem halias fun hkind hstub => hplace ⟨hkind, hstub⟩
    · exact .definition hget hplace
    · exact .comprehension hmem htarget hinside
  · intro h
    cases h with
    | importAlias hmem halias hplace =>
      exact Or.inl ⟨_, hmem, halias, fun h => hplace h.1 h.2⟩
    | definition hget hplace => exact Or.inr (Or.inl ⟨_, hget, hplace⟩)
    | comprehension hmem htarget hinside =>
      exact Or.inr (Or.inr ⟨_, hmem, _, htarget, hinside⟩)

/-! ## The walk outwards -/

/-- What the walk finds in a scope. -/
def foundIn (self : ScopeResolver) (name : Str) (readAt : TextRange)
    (s : ScopeKind × ModuleName) : Bool :=
  ((self.definitions.get? s.2).bind fun defs =>
    self.definitionIn defs s.1 name readAt).isSome

theorem foundIn_iff {s : ScopeKind × ModuleName} :
    self.foundIn name readAt s = true ↔ self.Binds s name readAt := by
  unfold foundIn Binds
  cases hget : self.definitions.get? s.2 with
  | none => simp
  | some defs =>
    rw [Option.bind_some, definitionIn_isSome]
    exact ⟨fun h => ⟨defs, rfl, h⟩, fun ⟨_, heq, h⟩ => Option.some.inj heq ▸ h⟩

/-- The scope of the name that is found is the first one it is found in. -/
theorem scope_resolveName :
    (self.resolveName cursor name readAt).map ResolvedName.scope =
      (cursor.legbScopes.find? fun s => self.foundIn name readAt (s.2, s.1)).map Prod.fst := by
  unfold resolveName
  induction cursor.legbScopes with
  | nil => rfl
  | cons s rest ih =>
    rw [List.findSome?_cons, List.find?_cons]
    have hmap : ((self.definitions.get? s.1).bind fun defs =>
          (self.definitionIn defs s.2 name readAt).map fun d =>
            ({ name := name, definition := d, scope := s.1 } : ResolvedName)) =
        ((self.definitions.get? s.1).bind fun defs =>
          self.definitionIn defs s.2 name readAt).map fun d =>
            { name := name, definition := d, scope := s.1 } := by
      cases self.definitions.get? s.1 <;> rfl
    unfold foundIn
    rw [hmap]
    cases (self.definitions.get? s.1).bind fun defs => self.definitionIn defs s.2 name readAt with
    | none => exact ih
    | some d => rfl

theorem find?_foundIn_iff {scopes : List (ScopeKind × ModuleName)} {scope : ModuleName} :
    (scopes.find? (self.foundIn name readAt)).map Prod.snd = some scope ↔
      self.FirstBinds scopes name readAt scope := by
  rw [Option.map_eq_some_iff]
  constructor
  · rintro ⟨s, hfind, rfl⟩
    obtain ⟨hfound, before, after, heq, hbefore⟩ := List.find?_eq_some_iff_append.mp hfind
    refine ⟨before, s, after, heq, rfl, foundIn_iff.mp hfound, fun t ht hbinds => ?_⟩
    have hnot := hbefore t ht
    rw [foundIn_iff.mpr hbinds] at hnot
    cases hnot
  · rintro ⟨before, s, after, heq, rfl, hbinds, hbefore⟩
    refine ⟨s, List.find?_eq_some_iff_append.mpr ⟨foundIn_iff.mpr hbinds, before, after, heq,
      fun t ht => ?_⟩, rfl⟩
    rw [Bool.not_eq_true', ← Bool.not_eq_true, foundIn_iff]
    exact hbefore t ht

end ScopeResolver

/-! ## Nesting -/

/-- From inside a function, classes are skipped. -/
theorem Cursor.legbFrom_true (scopes : List (ScopeKind × ModuleName)) :
    legbFrom true scopes =
      (scopes.filter fun s => decide (s.1 ≠ .classScope)).map Prod.swap := by
  induction scopes with
  | nil => rfl
  | cons s rest ih =>
    obtain ⟨kind, name⟩ := s
    rw [legbFrom]
    simp only [Bool.true_or, and_true, ih]
    by_cases hkind : kind = .classScope
    · rw [if_pos hkind, List.filter_cons_of_neg (by simp [hkind])]
    · rw [if_neg hkind, List.filter_cons_of_pos (by simp [hkind])]
      rfl

/-- The scopes of a cursor, each inside the next: a name inside another is longer, and the
module is the last of them. -/
structure Cursor.Nested (scopes : List (ScopeKind × ModuleName)) : Prop where
  longer : scopes.Pairwise fun s t => t.2.length < s.2.length
  moduleLast : ∀ before s after, scopes = before ++ s :: after → s.1 = .moduleScope → after = []

namespace Cursor

theorem Nested.tail {s : ScopeKind × ModuleName} {scopes : List (ScopeKind × ModuleName)}
    (h : Nested (s :: scopes)) : Nested scopes :=
  ⟨(List.pairwise_cons.mp h.longer).2, fun before t after heq => h.moduleLast (s :: before) t after
    (by rw [heq, List.cons_append])⟩

theorem Nested.push {scopes : List (ScopeKind × ModuleName)} (h : Nested scopes)
    {s : ScopeKind × ModuleName} (hkind : s.1 ≠ .moduleScope)
    (hlonger : ∀ t ∈ scopes, t.2.length < s.2.length) : Nested (s :: scopes) := by
  refine ⟨List.pairwise_cons.mpr ⟨hlonger, h.longer⟩, fun before t after heq ht => ?_⟩
  cases before with
  | nil =>
    obtain ⟨rfl, -⟩ := List.cons.inj heq
    exact absurd ht hkind
  | cons b before =>
    obtain ⟨-, hrest⟩ := List.cons.inj heq
    exact h.moduleLast before t after hrest ht

/-- Scopes of one name are the same. -/
theorem Nested.eq_of_name {scopes : List (ScopeKind × ModuleName)} (h : Nested scopes)
    {s t : ScopeKind × ModuleName} (hs : s ∈ scopes) (ht : t ∈ scopes) (hname : s.2 = t.2) :
    s = t := by
  induction scopes with
  | nil => cases hs
  | cons a scopes ih =>
    have hlonger := (List.pairwise_cons.mp h.longer).1
    rcases List.mem_cons.mp hs with rfl | hs' <;> rcases List.mem_cons.mp ht with rfl | ht'
    · rfl
    · have := hlonger t ht'
      rw [hname] at this
      omega
    · have := hlonger s hs'
      rw [hname] at this
      omega
    · exact ih h.tail hs' ht'

/-- The scopes of a walk are nested. -/
theorem Entered.nested {library : ParserLibrary} {cursor : Cursor} (h : Entered library cursor)
    (happend : ∀ m x, x ≠ [] → m.length < (library.append m x).length) :
    Nested cursor.scopes := by
  have hinner : ∀ (c : Cursor) (name : Str), name ≠ [] → Nested c.scopes → ∀ t ∈ c.scopes,
      t.2.length < (library.append c.scope name).length := by
    intro c name hname hnested t ht
    have hcurrent := happend c.scope name hname
    rcases List.mem_cons.mp ht with rfl | ht
    · exact hcurrent
    · exact ((List.pairwise_cons.mp hnested.longer).1 t ht).trans hcurrent
  induction h with
  | moduleScope name =>
    refine ⟨List.pairwise_singleton .., fun before s after heq _ => ?_⟩
    have hlength := congrArg List.length heq
    rw [List.length_append, List.length_cons] at hlength
    have hone : (enterModuleScope name).scopes.length = 1 := rfl
    exact List.eq_nil_of_length_eq_zero (by omega)
  | classScope h hname ih => exact ih.push (fun h => by cases h) (hinner _ _ hname ih)
  | function h hname ih => exact ih.push (fun h => by cases h) (hinner _ _ hname ih)
  | tryBody h handlers ih => exact ih

end Cursor

namespace ScopeResolver

open Cursor

variable {self : ScopeResolver} {cursor : Cursor} {name : Str} {readAt : TextRange}

theorem find?_map_swap (scopes : List (ScopeKind × ModuleName)) :
    (((scopes.map Prod.swap).find? fun s => self.foundIn name readAt (s.2, s.1)).map Prod.fst) =
      (scopes.find? (self.foundIn name readAt)).map Prod.snd := by
  rw [List.find?_map, Option.map_map]
  rfl

/-- Where none of the classes at the front binds the name, it is as if all classes were
skipped. -/
theorem find?_legbFrom {scopes : List (ScopeKind × ModuleName)} (hnested : Nested scopes)
    (h : ∀ s ∈ scopes.takeWhile (fun s => decide (s.1 = .classScope)),
      self.foundIn name readAt s = false) :
    ((legbFrom false scopes).find? fun s => self.foundIn name readAt (s.2, s.1)).map Prod.fst =
      ((scopes.filter fun s => decide (s.1 ≠ .classScope)).find?
        (self.foundIn name readAt)).map Prod.snd := by
  induction scopes with
  | nil => rfl
  | cons s rest ih =>
    obtain ⟨kind, m⟩ := s
    cases kind with
    | classScope =>
      have hclass : self.foundIn name readAt (.classScope, m) = false :=
        h _ (List.mem_cons_self ..)
      have hrest := ih hnested.tail fun s hs => h s (List.mem_cons_of_mem _ hs)
      have hfilter : ((ScopeKind.classScope, m) :: rest).filter
          (fun s => decide (s.1 ≠ .classScope)) =
            rest.filter fun s => decide (s.1 ≠ .classScope) := rfl
      rw [hfilter, ← hrest]
      show (((m, ScopeKind.classScope) :: legbFrom false rest).find? _).map _ = _
      rw [List.find?_cons_of_neg]
      show ¬self.foundIn name readAt (.classScope, m) = true
      rw [hclass]
      exact Bool.false_ne_true
    | function =>
      have hlegb : legbFrom false ((.function, m) :: rest) =
          (((.function, m) :: rest).filter fun s => decide (s.1 ≠ .classScope)).map Prod.swap := by
        show (m, ScopeKind.function) :: legbFrom true rest = _
        rw [legbFrom_true]
        rfl
      rw [hlegb, find?_map_swap]
    | moduleScope =>
      -- the module is the last scope
      obtain rfl := hnested.moduleLast [] _ rest rfl rfl
      have hlegb : legbFrom false [(.moduleScope, m)] =
        [(ScopeKind.moduleScope, m)].map Prod.swap := rfl
      rw [hlegb, find?_map_swap]
      rfl

/-- The class around the current one that the walk ends at, where there is one: it has another
name than every scope that is to be looked up. -/
theorem find?_legbFrom_class {scopes : List (ScopeKind × ModuleName)}
    (h : ∃ s ∈ scopes.takeWhile (fun s => decide (s.1 = .classScope)),
      self.foundIn name readAt s = true) :
    ∃ s ∈ scopes, s.1 = .classScope ∧
      ((legbFrom false scopes).find? fun s => self.foundIn name readAt (s.2, s.1)).map Prod.fst =
        some s.2 := by
  induction scopes with
  | nil =>
    obtain ⟨s, hs, -⟩ := h
    cases hs
  | cons s rest ih =>
    obtain ⟨kind, m⟩ := s
    obtain ⟨t, ht, hfound⟩ := h
    cases kind with
    | classScope =>
      by_cases hclass : self.foundIn name readAt (.classScope, m) = true
      · refine ⟨_, List.mem_cons_self .., rfl, ?_⟩
        show (((m, ScopeKind.classScope) :: legbFrom false rest).find? _).map _ = _
        rw [List.find?_cons_of_pos]
        · rfl
        · exact hclass
      · have hrest : t ∈ rest.takeWhile fun s => decide (s.1 = .classScope) := by
          rcases List.mem_cons.mp ht with rfl | ht
          · exact absurd hfound hclass
          · exact ht
        obtain ⟨s, hs, hkind, hfind⟩ := ih ⟨t, hrest, hfound⟩
        refine ⟨s, List.mem_cons_of_mem _ hs, hkind, ?_⟩
        show (((m, ScopeKind.classScope) :: legbFrom false rest).find? _).map _ = _
        rw [List.find?_cons_of_neg]
        · exact hfind
        · exact hclass
    | function => cases ht
    | moduleScope => cases ht

/-- A name that is not in the current scope is looked up as if every class were skipped,
unless a class around the current one binds it. -/
theorem followsPython_iff_find? :
    self.FollowsPython cursor name readAt ↔
      (cursor.legbScopes.find? fun s => self.foundIn name readAt (s.2, s.1)).map Prod.fst =
        (cursor.pythonScopes.find? (self.foundIn name readAt)).map Prod.snd := by
  unfold FollowsPython
  rw [← scope_resolveName, Option.ext_iff]
  refine forall_congr' fun scope => ?_
  rw [Option.map_eq_some_iff, find?_foundIn_iff]

end ScopeResolver

open Cursor ScopeResolver

/-- A name is found where Python finds it if and only if the current scope binds it, is no
class, or no class it stands in, with no function in between, binds it. -/
theorem resolve_name_follows_python_iff {library : ParserLibrary}
    (happend : ∀ m x, x ≠ [] → m.length < (library.append m x).length)
    (self : ScopeResolver) {cursor : Cursor} (hcursor : cursor.Entered library) (name : Str)
    (readAt : TextRange) :
    self.FollowsPython cursor name readAt ↔ self.NoClassAroundBinds cursor name readAt := by
  have hnested := hcursor.nested happend
  have houter : Nested cursor.outer := hnested.tail
  rw [followsPython_iff_find?]
  obtain ⟨⟨kind, m⟩, outer, blocks⟩ := cursor
  have hpython : pythonScopes ⟨(kind, m), outer, blocks⟩ =
    (kind, m) :: outer.filter fun s => decide (s.1 ≠ .classScope) := rfl
  have hlegb : legbScopes ⟨(kind, m), outer, blocks⟩ =
      (m, kind) :: legbFrom (decide (kind = .function)) outer := by
    unfold legbScopes scopes
    rw [legbFrom, Bool.false_or, if_neg fun h => by cases h.2]
  rw [hlegb, hpython]
  -- the current scope comes first in both lookups
  by_cases hcurrent : self.foundIn name readAt (kind, m) = true
  · rw [List.find?_cons_of_pos hcurrent, List.find?_cons_of_pos]
    · exact iff_of_true rfl fun _ => Or.inl (foundIn_iff.mp hcurrent)
    · exact hcurrent
  rw [List.find?_cons_of_neg hcurrent, List.find?_cons_of_neg]
  · cases kind with
    | function =>
      refine iff_of_true ?_ fun h => by cases h
      show ((legbFrom true outer).find? _).map _ = _
      rw [legbFrom_true, find?_map_swap]
    | moduleScope =>
      obtain rfl := hnested.moduleLast [] _ outer rfl rfl
      exact iff_of_true rfl fun h => by cases h
    | classScope =>
      show ((legbFrom false outer).find? _).map _ = _ ↔ _
      -- from a class, the source looks into the classes it stands in and Python does not
      by_cases haround : ∃ s ∈ outer.takeWhile (fun s => decide (s.1 = .classScope)),
          self.foundIn name readAt s = true
      · obtain ⟨s, hs, hkind, hfind⟩ := find?_legbFrom_class haround
        refine iff_of_false (fun heq => ?_) fun hnone => ?_
        · rw [hfind, eq_comm, Option.map_eq_some_iff] at heq
          obtain ⟨t, ht, hname⟩ := heq
          obtain ⟨hmem, hnoClass⟩ := List.mem_filter.mp (List.mem_of_find?_eq_some ht)
          rw [houter.eq_of_name hmem hs hname, hkind] at hnoClass
          cases hnoClass
        · obtain ⟨t, ht, hfound⟩ := haround
          rcases hnone rfl with hbinds | hnone
          · exact hcurrent (foundIn_iff.mpr hbinds)
          · exact hnone t ht (foundIn_iff.mp hfound)
      · have hnone : ∀ s ∈ outer.takeWhile (fun s => decide (s.1 = .classScope)),
            ¬self.foundIn name readAt s = true := fun s hs hfound => haround ⟨s, hs, hfound⟩
        refine iff_of_true (find?_legbFrom houter fun s hs => Bool.eq_false_iff.mpr (hnone s hs))
          fun _ => Or.inr fun s hs hbinds => hnone s hs (foundIn_iff.mpr hbinds)
  · exact hcurrent

/-- `x = 0`, and a class with a class in it that reads `x`: the outer class has an `x` of its
own. -/
def classInClass : ParsedModule where
  name := "m".toList
  body :=
    [.assign [.name "x".toList .store ⟨0, 1⟩] (.literal .int ⟨4, 5⟩) ⟨0, 5⟩,
      .classDef { id := "A".toList, range := ⟨12, 13⟩ } none []
        [.assign [.name "x".toList .store ⟨19, 20⟩] (.literal .int ⟨23, 24⟩) ⟨19, 24⟩,
          .classDef { id := "B".toList, range := ⟨35, 36⟩ } none []
            [.assign [.name "y".toList .store ⟨46, 47⟩] (.name "x".toList .load ⟨50, 51⟩)
              ⟨46, 51⟩] ⟨29, 51⟩] ⟨6, 51⟩]

/-- The tables of the module. -/
def classInClassResolver : ScopeResolver :=
  (buildDefinitionsAndClasses classInClass { library := dottedNames }).definitions.scopeResolver

/-- Inside the inner class. -/
def innerClass : Cursor :=
  ((enterModuleScope "m".toList).enterClassScope dottedNames "A".toList).enterClassScope
    dottedNames "B".toList

/-- In the body of the inner class the name is found in that of the outer one. -/
theorem outer_class_is_searched :
    ¬classInClassResolver.FollowsPython innerClass "x".toList ⟨50, 51⟩ := by
  intro h
  have hscope : (classInClassResolver.resolveName innerClass "x".toList ⟨50, 51⟩).map
      ResolvedName.scope = some "m.A".toList := by decide +kernel
  obtain ⟨before, s, after, heq, hname, -, -⟩ :=
    (h "m.A".toList).mp (Option.map_eq_some_iff.mp hscope)
  have hmem : s ∈ innerClass.pythonScopes := by
    rw [heq]
    exact List.mem_append_right _ (List.mem_cons_self ..)
  have hnone : ∀ t ∈ innerClass.pythonScopes, t.2 ≠ "m.A".toList := by decide +kernel
  exact hnone s hmem hname

/-- In the body of the outer class its own name is read. -/
theorem resolve_name_follows_python_outer :
    classInClassResolver.FollowsPython
        ((enterModuleScope "m".toList).enterClassScope dottedNames "A".toList) "x".toList
        ⟨30, 31⟩ ↔
      classInClassResolver.NoClassAroundBinds
        ((enterModuleScope "m".toList).enterClassScope dottedNames "A".toList) "x".toList
        ⟨30, 31⟩ := by
  refine resolve_name_follows_python_iff (fun m x hx => ?_) classInClassResolver
    (.classScope (.moduleScope "m".toList) (by decide)) "x".toList ⟨30, 31⟩
  show m.length < (if m = [] then x else appendStr m x).length
  split
  · next hm =>
    rw [hm]
    exact List.length_pos_of_ne_nil hx
  · unfold appendStr
    rw [List.length_append, List.length_cons]
    omega

end Lifeguard
