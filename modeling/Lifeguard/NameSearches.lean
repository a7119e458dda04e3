import Lifeguard.CandidateTheory

/-!
# One split of a name, found three ways

A dotted name belongs to the longest module its dotted prefixes name. The reduce looks for
that module through interned names (`enclosing_module`), through string slices
(`enclosing_module_str`) and through its view of the merged modules (`ModuleView::split`).
The candidate pass uses the view, the promotion pass one of the other two.

- `LongestModule`: the split all of them look for, which is only one
  (`LongestModule.unique`);
- `splits_agree_and_resolveProgram_eq`: each finds it, so the phases end the same with
  either search.
-/

namespace Lifeguard

open Lib

/-- The split of a name that is looked for: at the longest of its proper dotted prefixes
that is a module, if any is. -/
def LongestModule (moduleNames : Finset ModuleName) (name : Str) :
    Option (ModuleName × Str) → Prop
  | some (m, r) =>
    name = appendStr m r ∧ m ∈ moduleNames ∧
      ∀ m' r', name = appendStr m' r' → m' ∈ moduleNames → m'.length ≤ m.length
  | none => ∀ m r, name = appendStr m r → m ∉ moduleNames

section Splits

variable {moduleNames : Finset ModuleName} {name : Str} {split split' : Option (ModuleName × Str)}

/-- The search through the interned names finds the split. -/
theorem longestModule_enclosingModule :
    LongestModule moduleNames name (enclosingModule name fun m => decide (m ∈ moduleNames)) := by
  cases h : enclosingModule name fun m => decide (m ∈ moduleNames) with
  | none =>
    intro m r hname
    exact of_decide_eq_false (enclosingModule_eq_none.mp h m r hname)
  | some p =>
    obtain ⟨hname, hm, hmax⟩ := enclosingModule_eq_some.mp h
    refine ⟨hname, of_decide_eq_true hm, ?_⟩
    intro m' r' hname' hm'
    exact hmax m' r' hname' (decide_eq_true hm')

/-- Two splits at a longest module are one. -/
theorem LongestModule.unique (h : LongestModule moduleNames name split)
    (h' : LongestModule moduleNames name split') : split = split' := by
  rcases split with _ | ⟨m, r⟩
  · rcases split' with _ | ⟨m', r'⟩
    · rfl
    · exact absurd h'.2.1 (h m' r' h'.1)
  · obtain ⟨hname, hm, hmax⟩ := h
    rcases split' with _ | ⟨m', r'⟩
    · exact absurd hm (h' m r hname)
    · obtain ⟨hname', hm', hmax'⟩ := h'
      have hlen : m.length = m'.length :=
        Nat.le_antisymm (hmax' m r hname hm) (hmax m' r' hname' hm')
      obtain ⟨rfl, rfl⟩ := appendStr_inj_length (hname.symm.trans hname') hlen
      rfl

end Splits

/-! ## The phases with either search -/

variable {moduleNames : Finset ModuleName} {needed : Finset Str}

/-- The promotion reads the search only to split callees. -/
theorem promoteFixpoint_search (st : CandidateState) (search search' : NameSearch) :
    promoteFixpoint (promotionInput moduleNames st needed search) =
      promoteFixpoint (promotionInput moduleNames st needed search') := by
  have hsplit : splitCallee moduleNames search = splitCallee moduleNames search' := by
    funext name
    rw [splitCallee_eq, splitCallee_eq]
  have hcandidates : (promotionInput moduleNames st needed search).candidates =
      (promotionInput moduleNames st needed search').candidates := by
    show collectPromotionCandidates moduleNames st.functionSafety
        (splitCallee moduleNames search) =
      collectPromotionCandidates moduleNames st.functionSafety (splitCallee moduleNames search')
    rw [hsplit]
  have hneeded : (promotionInput moduleNames st needed search).needed =
      (promotionInput moduleNames st needed search').needed := by
    rw [PromotionInput.needed, PromotionInput.needed, hcandidates]
    rfl
  have hstart : (promotionInput moduleNames st needed search).start =
      (promotionInput moduleNames st needed search').start := by
    rw [PromotionInput.start, PromotionInput.start, hcandidates, hneeded]
    rfl
  rw [promoteFixpoint, promoteFixpoint, PromotionInput.stateAfter, PromotionInput.stateAfter,
    hcandidates, hneeded, hstart]

/-- The three searches split every name at its longest module, and the resolution phases
end the same whichever of the two the promotion uses. -/
theorem splits_agree_and_resolveProgram_eq (moduleNames : Finset ModuleName)
    (fs : FunctionSafetyMap) :
    (∀ name : Str, ∃ split : Option (ModuleName × Str),
      LongestModule moduleNames name split ∧
      (∀ split', LongestModule moduleNames name split' → split' = split) ∧
      enclosingModule name (fun m => decide (m ∈ moduleNames)) = split ∧
      enclosingModuleStr name (fun m => decide (m ∈ moduleNames)) = split ∧
      (ModuleView.mk moduleNames fs).split name =
        split.map fun p => ⟨fs.get? p.1, p.2⟩) ∧
    ∀ (candidates : List (ModuleName × List MutationCandidate)) (needed : Finset Str),
      resolveProgram moduleNames fs candidates needed .intern =
        resolveProgram moduleNames fs candidates needed .probeStr := by
  constructor
  · intro name
    refine ⟨_, longestModule_enclosingModule, ?_, rfl, enclosingModuleStr_eq _ _, split_eq _ _⟩
    intro split' h
    exact h.unique longestModule_enclosingModule
  · intro candidates needed
    have hfinal : ∀ st : CandidateState,
        promoteFixpoint (promotionInput moduleNames st needed .intern) =
          promoteFixpoint (promotionInput moduleNames st needed .probeStr) :=
      fun st => promoteFixpoint_search st .intern .probeStr
    unfold resolveProgram
    dsimp only
    rw [hfinal]

end Lifeguard
