import Lifeguard.Lib.Growth
import Lifeguard.ModuleInfo

/-!
# What an analysis records of a module

The record an analyzer writes (`module_effects.rs`, `effects.rs`): the effects of each scope,
and the imports of each scope with those among them that are needed there. The checks of the
analyzer only add to it, one `OutputWrite` after another; `ModuleEffects.apply` adds what they
write.

- `enterMainGuard`, `leaveMainGuard`: what is added in between is marked;
- `effectsIn_apply`: what a write adds to the effects of a scope.
-/

namespace Lifeguard

open Lib

/-- `EffectTable`. -/
abbrev EffectTable := Table ModuleName (List Effect)

namespace EffectTable

/-- The effects of a scope. -/
def effectsOf (table : EffectTable) (scope : ModuleName) : List Effect :=
  (table.get? scope).getD []

/-- Effects added to those of a scope. -/
def extend (table : EffectTable) (scope : ModuleName) (effs : List Effect) : EffectTable :=
  table.upsert scope (fun old => old ++ effs) effs

/-- `merge`. -/
def merge (table other : EffectTable) : EffectTable :=
  other.entries.foldl (fun t e => extend t e.1 e.2) table

theorem effectsOf_extend (table : EffectTable) (scope s : ModuleName) (effs : List Effect) :
    effectsOf (extend table scope effs) s =
      effectsOf table s ++ if s = scope then effs else [] := by
  rw [effectsOf, extend, Table.get?_upsert]
  by_cases hs : s = scope
  · rw [if_pos hs, if_pos hs, effectsOf]
    cases table.get? s <;> rfl
  · rw [if_neg hs, if_neg hs, List.append_nil, effectsOf]

/-- A merged table has the effects of both. -/
theorem effectsOf_merge (table other : EffectTable) (s : ModuleName) :
    effectsOf (merge table other) s = effectsOf table s ++ effectsOf other s := by
  have hfold : ∀ (l : List (ModuleName × List Effect)) (t : EffectTable),
      (l.map Prod.fst).Nodup →
      effectsOf (l.foldl (fun t e => extend t e.1 e.2) t) s =
        effectsOf t s ++ (Table.find l s).getD [] := by
    intro l
    induction l with
    | nil =>
      intro t _
      exact (List.append_nil _).symm
    | cons e l ih =>
      intro t hnodup
      obtain ⟨scope, effs⟩ := e
      rw [List.map_cons, List.nodup_cons] at hnodup
      rw [List.foldl_cons, ih _ hnodup.2, effectsOf_extend]
      by_cases hs : s = scope
      · have hrest : Table.find l s = none := Table.find_eq_none_iff.mpr (hs ▸ hnodup.1)
        have hfind : Table.find ((scope, effs) :: l) s = some effs := by simp [Table.find, hs]
        rw [if_pos hs, hrest, hfind]
        exact List.append_nil _
      · have hfind : Table.find ((scope, effs) :: l) s = Table.find l s := by
          simp [Table.find, Ne.symm hs]
        rw [if_neg hs, hfind, List.append_nil]
  exact hfold other.entries table other.nodup

end EffectTable

/-- What a check adds to the record. -/
inductive OutputWrite
  | effect (scope : ModuleName) (eff : Effect)
  | pendingImport (imported scope : ModuleName)
  | calledImport (imported scope : ModuleName)
  /-- A name is read: it is needed where it is imported somewhere, or else the module it is
  from is. -/
  | readName (name scope : ModuleName) (parent : Option ModuleName)
  | aliasedImport (imported scope : ModuleName)
  | eagerImport (imported : ModuleName)
  | calledFunction (func : ModuleName)
  | indirectMethod (method source : ModuleName)
  deriving DecidableEq, Repr

/-- The effect that is written, with its scope. -/
def OutputWrite.effect? : OutputWrite → Option (ModuleName × Effect)
  | .effect scope eff => some (scope, eff)
  | _ => none

/-- The effects among what is written. -/
def effectsOf (ws : List OutputWrite) : List (ModuleName × Effect) :=
  ws.filterMap OutputWrite.effect?

@[simp] theorem effectsOf_append (ws ws' : List OutputWrite) :
    effectsOf (ws ++ ws') = effectsOf ws ++ effectsOf ws' := List.filterMap_append

theorem effectsOf_flatMap {α : Type} (xs : List α) (f : α → List OutputWrite) :
    effectsOf (xs.flatMap f) = xs.flatMap fun x => effectsOf (f x) := by
  unfold effectsOf
  rw [List.filterMap_flatMap]

/-- `ModuleEffects`. -/
structure ModuleEffects where
  effects : EffectTable := Table.empty
  inMainGuard : Bool := false
  calledImports : Table ModuleName (Finset ModuleName) := Table.empty
  pendingImports : Table ModuleName (Finset ModuleName) := Table.empty
  aliasedImports : Table ModuleName (Finset ModuleName) := Table.empty
  allPendingImportNames : Finset ModuleName := ∅
  allCalledImportNames : Finset ModuleName := ∅
  calledFunctions : Finset ModuleName := ∅
  indirectlyCalledMethods : Table ModuleName ModuleName := Table.empty
  eagerImports : Finset ModuleName := ∅
  namesOnlyInStub : Option (List Str × TextRange) := none

namespace ModuleEffects

variable (output : ModuleEffects)

/-- The effects of a scope. -/
def effectsIn (scope : ModuleName) : List Effect := output.effects.effectsOf scope

/-- `add_effect`. -/
def addEffect (scope : ModuleName) (eff : Effect) : ModuleEffects :=
  { output with
    effects := output.effects.extend scope [{ eff with fromMainGuard := output.inMainGuard }] }

/-- `enter_main_guard`. -/
def enterMainGuard (guarded : Bool) : ModuleEffects :=
  { output with inMainGuard := output.inMainGuard || guarded }

/-- `leave_main_guard`. -/
def leaveMainGuard (outer : Bool) : ModuleEffects := { output with inMainGuard := outer }

/-- `add_pending_import`. -/
def addPendingImport (imported scope : ModuleName) : ModuleEffects :=
  { output with
    pendingImports := output.pendingImports.extend scope {imported}
    allPendingImportNames := insert imported output.allPendingImportNames }

/-- `add_called_import`. -/
def addCalledImport (imported scope : ModuleName) : ModuleEffects :=
  { output with
    calledImports := output.calledImports.extend scope {imported}
    allCalledImportNames := insert imported output.allCalledImportNames }

/-- One write. -/
def write : OutputWrite → ModuleEffects
  | .effect scope eff => output.addEffect scope eff
  | .pendingImport imported scope => output.addPendingImport imported scope
  | .calledImport imported scope => output.addCalledImport imported scope
  | .readName name scope parent =>
    if name ∈ output.allPendingImportNames then output.addCalledImport name scope
    else parent.elim output fun m => output.addCalledImport m scope
  | .aliasedImport imported scope =>
    { output with aliasedImports := output.aliasedImports.extend scope {imported} }
  | .eagerImport imported => { output with eagerImports := insert imported output.eagerImports }
  | .calledFunction func =>
    { output with calledFunctions := insert func output.calledFunctions }
  | .indirectMethod method source =>
    { output with
      indirectlyCalledMethods := output.indirectlyCalledMethods.upsert method id source }

/-- One write after another. -/
def apply (ws : List OutputWrite) : ModuleEffects := ws.foldl write output

/-- `mark_called_imports`: the imports of the functions that are called. -/
def markCalledImports : ModuleEffects :=
  { output with
    calledImports := output.pendingImports.entries.foldl (fun called e =>
      if e.1 ∈ output.calledFunctions then called.extend e.1 e.2 else called)
      output.calledImports }

/-! ## What a write adds -/

@[simp] theorem inMainGuard_write (w : OutputWrite) :
    (output.write w).inMainGuard = output.inMainGuard := by
  cases w with
  | readName name scope parent =>
    rw [write]
    split
    · rfl
    · cases parent <;> rfl
  | _ => rfl

/-- A write of an effect adds it to those of its scope, marked inside a guard; another write
adds none. -/
theorem effectsIn_write (w : OutputWrite) (s : ModuleName) :
    (output.write w).effectsIn s = output.effectsIn s ++
      (w.effect?.toList.filter fun e => decide (e.1 = s)).map fun e =>
        { e.2 with fromMainGuard := output.inMainGuard } := by
  cases w with
  | effect scope eff =>
    show (output.effects.extend scope _).effectsOf s = _
    rw [EffectTable.effectsOf_extend]
    by_cases hs : s = scope
    · simp [OutputWrite.effect?, hs, effectsIn]
    · simp [OutputWrite.effect?, Ne.symm hs, hs, effectsIn]
  | readName name scope parent =>
    have hsame : (output.write (.readName name scope parent)).effects = output.effects := by
      rw [write]
      split
      · rfl
      · cases parent <;> rfl
    show (output.write _).effects.effectsOf s = _
    rw [hsame]
    exact (List.append_nil _).symm
  | _ => exact (List.append_nil _).symm

@[simp] theorem inMainGuard_apply (ws : List OutputWrite) :
    (output.apply ws).inMainGuard = output.inMainGuard := by
  induction ws generalizing output with
  | nil => rfl
  | cons w ws ih =>
    show ((output.write w).apply ws).inMainGuard = _
    rw [ih, inMainGuard_write]

/-- What writes add to the effects of a scope. -/
theorem effectsIn_apply (ws : List OutputWrite) (s : ModuleName) :
    (output.apply ws).effectsIn s = output.effectsIn s ++
      ((effectsOf ws).filter fun e => decide (e.1 = s)).map fun e =>
        { e.2 with fromMainGuard := output.inMainGuard } := by
  induction ws generalizing output with
  | nil => exact (List.append_nil _).symm
  | cons w ws ih =>
    show ((output.write w).apply ws).effectsIn s = _
    rw [ih, effectsIn_write, inMainGuard_write, List.append_assoc, ← List.map_append,
      ← List.filter_append]
    have hcons : effectsOf (w :: ws) = w.effect?.toList ++ effectsOf ws := by
      rw [effectsOf, List.filterMap_cons]
      cases w.effect? <;> rfl
    rw [hcons]

theorem mem_effectsIn_apply {output : ModuleEffects} {ws : List OutputWrite} {s : ModuleName}
    {eff : Effect} :
    eff ∈ (output.apply ws).effectsIn s ↔ eff ∈ output.effectsIn s ∨
      ∃ e ∈ effectsOf ws, e.1 = s ∧ eff = { e.2 with fromMainGuard := output.inMainGuard } := by
  rw [effectsIn_apply, List.mem_append, List.mem_map]
  refine or_congr_right ⟨?_, ?_⟩
  · rintro ⟨e, he, rfl⟩
    obtain ⟨hmem, hs⟩ := List.mem_filter.mp he
    exact ⟨e, hmem, of_decide_eq_true hs, rfl⟩
  · rintro ⟨e, hmem, hs, rfl⟩
    exact ⟨e, List.mem_filter.mpr ⟨hmem, decide_eq_true hs⟩, rfl⟩

end ModuleEffects

/-- `AnalyzedModule`. -/
structure AnalyzedModule where
  moduleEffects : ModuleEffects := {}
  definitions : DefinitionTable := {}
  classes : Table ModuleName ClassInfo := Table.empty

end Lifeguard
