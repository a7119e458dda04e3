import Lifeguard.CallGraphTheory

/-!
# Evaluation in lockstep

Two walks over the same body that start from states which agree on the names it looks up
answer alike, and leave states which agree (`lockstep_walk`). With all names looked at, a
walk does not depend on the log of its lookups (`lockstep_checkCallBody`).
-/

namespace Lifeguard

open Lib

namespace ProjectInfo

variable {info : ProjectInfo} {D B : ModuleName → Prop} {st st' : AnalysisState}

/-- The states have entries for nodes alone, agree on the names of `D`, and have an entry
for those of `B`. -/
structure Lockstep (info : ProjectInfo) (D B : ModuleName → Prop) (st st' : AnalysisState) :
    Prop where
  nodes : ∀ n, info.isNode n = false → st.safety n = none ∧ st'.safety n = none
  agree : ∀ n, D n → st.safety n = st'.safety n
  present : ∀ n, B n → (st.safety n).isSome ∧ (st'.safety n).isSome

/-- Equal answers, and states in lockstep. -/
def OutcomeLockstep (info : ProjectInfo) (D B : ModuleName → Prop) (out out' : Outcome) : Prop :=
  out.1 = out'.1 ∧ info.Lockstep D B out.2 out'.2

namespace Lockstep

variable {func name : ModuleName}

/-- Nothing but the log has changed. -/
theorem of_safety {t t' : AnalysisState} (h : info.Lockstep D B st st')
    (ht : ∀ n, t.safety n = st.safety n) (ht' : ∀ n, t'.safety n = st'.safety n) :
    info.Lockstep D B t t' where
  nodes n hn := by
    rw [ht, ht']
    exact h.nodes n hn
  agree n hn := by rw [ht, ht', h.agree n hn]
  present n hn := by
    rw [ht, ht']
    exact h.present n hn

theorem read (h : info.Lockstep D B st st') :
    info.Lockstep D B (st.read name) (st'.read name) :=
  h.of_safety (fun _ => rfl) fun _ => rfl

/-- The entry of one node has changed, in the same way on both sides. -/
theorem update {t t' : AnalysisState} {fi fi' : FunctionSafetyInfo}
    (h : info.Lockstep D B st st') (hnode : info.isNode func = true)
    (ht : ∀ n, t.safety n = if n = func then some fi else st.safety n)
    (ht' : ∀ n, t'.safety n = if n = func then some fi' else st'.safety n)
    (hfi : D func → fi = fi') : info.Lockstep D B t t' where
  nodes n hn := by
    have hne : n ≠ func := by
      rintro rfl
      rw [hnode] at hn
      cases hn
    rw [ht, ht', if_neg hne, if_neg hne]
    exact h.nodes n hn
  agree n hn := by
    rw [ht, ht']
    split
    · next heq => rw [hfi (heq ▸ hn)]
    · exact h.agree n hn
  present n hn := by
    rw [ht, ht']
    split
    · exact ⟨rfl, rfl⟩
    · exact h.present n hn

theorem setFunctionSafety {fi : FunctionSafetyInfo} (h : info.Lockstep D B st st')
    (hnode : info.isNode func = true) :
    info.Lockstep D B (st.setFunctionSafety func fi) (st'.setFunctionSafety func fi) :=
  h.update hnode (AnalysisState.safety_setFunctionSafety st func · fi)
    (AnalysisState.safety_setFunctionSafety st' func · fi) fun _ => rfl

theorem markUnsafe (h : info.Lockstep D B st st') (hnode : info.isNode func = true) :
    info.Lockstep D B (st.markUnsafe func) (st'.markUnsafe func) :=
  h.setFunctionSafety hnode

theorem markSafe (h : info.Lockstep D B st st') (hnode : info.isNode func = true) :
    info.Lockstep D B (st.markSafe func) (st'.markSafe func) :=
  h.setFunctionSafety hnode

theorem markUnsafeMissingDep (h : info.Lockstep D B st st') (hnode : info.isNode func = true) :
    info.Lockstep D B (st.markUnsafeMissingDep func name)
      (st'.markUnsafeMissingDep func name) :=
  h.update hnode (AnalysisState.safety_markUnsafeMissingDep st func name)
    (AnalysisState.safety_markUnsafeMissingDep st' func name) fun hD => by rw [h.agree func hD]

theorem markUnsafeIfImported (h : info.Lockstep D B st st') (hnode : info.isNode func = true) :
    info.Lockstep D B (st.markUnsafeIfImported func) (st'.markUnsafeIfImported func) :=
  h.update hnode (AnalysisState.safety_markUnsafeIfImported st func)
    (AnalysisState.safety_markUnsafeIfImported st' func) fun hD => by rw [h.agree func hD]

theorem isUnsafe (h : info.Lockstep D B st st') (hfunc : D func) :
    st.isUnsafe func = st'.isUnsafe func := by
  rw [AnalysisState.isUnsafe, AnalysisState.isUnsafe, h.agree func hfunc]

theorem recoverable (h : info.Lockstep D B st st') (hname : D name) :
    st.recoverable name = st'.recoverable name := by
  rw [AnalysisState.recoverable, AnalysisState.recoverable, h.agree name hname]

theorem canResolveCall (info : ProjectInfo) (h : info.Lockstep D B st st') (hname : D name) :
    info.canResolveCall name st = info.canResolveCall name st' := by
  rw [ProjectInfo.canResolveCall, ProjectInfo.canResolveCall, h.agree name hname]

end Lockstep

variable {body : Call → AnalysisState → Outcome} {call : Call} {callModule : ModuleName}
  {crossModule : Bool} {eff : Effect}

theorem lockstep_markCaller {func callee : ModuleName} (h : info.Lockstep D B st st')
    (hfunc : D func) (hnode : info.isNode func = true) (hcallee : D callee) :
    info.Lockstep D B (info.markCallerUnsafeForFailedCallee func callee st)
      (info.markCallerUnsafeForFailedCallee func callee st') := by
  have hread : info.Lockstep D B (st.read callee) (st'.read callee) := h.read
  unfold markCallerUnsafeForFailedCallee
  dsimp only
  rw [← hread.recoverable hcallee, ← hread.isUnsafe hfunc, ← hread.canResolveCall info hcallee]
  split
  · split
    · exact hread.markUnsafeMissingDep hnode
    · exact hread
  · split
    · exact hread.markUnsafe hnode
    · split
      · exact hread.markUnsafeMissingDep hnode
      · exact hread

theorem lockstep_deferMutations {func : ModuleName} (h : info.Lockstep D B st st')
    (hnode : info.isNode func = true) :
    info.Lockstep D B (info.deferMutations func eff st) (info.deferMutations func eff st') := by
  unfold deferMutations
  induction info.deferredCallees eff generalizing st st' with
  | nil => exact h
  | cons callee callees ih => exact ih (h.markUnsafeMissingDep hnode)

theorem lockstep_checkArgs (h : info.Lockstep D B st st')
    (hnode : info.isNode call.func = true) :
    (info.checkArgs call eff st).1 = (info.checkArgs call eff st').1 ∧
      info.Lockstep D B (info.checkArgs call eff st).2 (info.checkArgs call eff st').2 := by
  unfold checkArgs
  split
  · exact ⟨rfl, h.markUnsafe hnode⟩
  · split
    · exact ⟨rfl, lockstep_deferMutations h hnode⟩
    · exact ⟨rfl, h⟩

/-- A call whose bodies run in lockstep runs in lockstep. -/
theorem lockstep_checkCallSafety {call : Call}
    (hcallees : ∀ callee ∈ info.dispatchCallees call.effect, D callee)
    (hbody : ∀ callee ∈ info.dispatchCallees call.effect,
      info.ResolvesIn (fun s => ∃ s', info.Lockstep D B s s') callee → declaredSafe callee = false →
      ∀ call' ∈ info.spawnedCalls { call with func := callee }, ∀ s s', info.Lockstep D B s s' →
        info.OutcomeLockstep D B (body call' s) (body call' s'))
    (h : info.Lockstep D B st st') :
    info.OutcomeLockstep D B (info.checkCallSafety body false call st)
      (info.checkCallSafety body false call st') := by
  refine checkAll_rel (R := info.Lockstep D B) (fun callee hcallee s s' hs => ?_) h
  rw [checkResolvedCall_eq, checkResolvedCall_eq]
  dsimp only
  rw [← hs.canResolveCall info (hcallees callee hcallee)]
  split
  · exact ⟨rfl, hs⟩
  · next hres =>
    rw [checkCall_eq, checkCall_eq]
    split
    · exact ⟨rfl, hs⟩
    · next hsafe =>
      exact checkAll_rel (R := info.Lockstep D B)
        (hbody callee hcallee ⟨s, ⟨s', hs⟩, by simpa using hres⟩ (Bool.eq_false_iff.mpr hsafe))
        hs

/-- The branch that runs a call runs in lockstep. -/
theorem lockstep_runCall (hfunc : D call.func) (hnode : info.isNode call.func = true)
    (hname : D (info.dispatchedName eff))
    (hsafety : info.OutcomeLockstep D B
      (info.checkCallSafety body false (childCall call callModule eff) st)
      (info.checkCallSafety body false (childCall call callModule eff) st')) :
    info.OutcomeLockstep D B (info.runCall body call callModule crossModule eff st)
      (info.runCall body call callModule crossModule eff st') := by
  unfold runCall
  generalize info.checkCallSafety body false (childCall call callModule eff) st = out
    at hsafety ⊢
  generalize info.checkCallSafety body false (childCall call callModule eff) st' = out'
    at hsafety ⊢
  rcases out with ⟨a, t⟩
  rcases out' with ⟨a', t'⟩
  obtain ⟨hans, ht⟩ := hsafety
  obtain rfl : a = a' := hans
  replace ht : info.Lockstep D B t t' := ht
  rcases a with e | _ | _
  · exact ⟨rfl, ht⟩
  · exact ⟨rfl, lockstep_markCaller ht hfunc hnode hname⟩
  · dsimp only
    rw [AnalysisState.safety_read, AnalysisState.safety_read, ht.agree _ hname]
    split
    · exact ⟨rfl, ht.read.markUnsafeIfImported hnode⟩
    · exact ⟨rfl, ht.read⟩

/-- An effect runs in lockstep. -/
theorem lockstep_runEffect (hfunc : D call.func) (hnode : info.isNode call.func = true)
    (hname : eff.kind.isRunnable = true → D (info.dispatchedName eff))
    (hsafety : eff.kind.isRunnable = true → ∀ s s', info.Lockstep D B s s' →
      info.OutcomeLockstep D B (info.checkCallSafety body false (childCall call callModule eff) s)
        (info.checkCallSafety body false (childCall call callModule eff) s'))
    (h : info.Lockstep D B st st') :
    info.OutcomeLockstep D B (info.runEffect body call callModule crossModule eff st)
      (info.runEffect body call callModule crossModule eff st') := by
  unfold runEffect
  split
  · exact ⟨rfl, h.markUnsafe hnode⟩
  · split
    · next hrun =>
      -- first the arguments, then the call: both halves answer the same
      obtain ⟨hargs, hs⟩ : (info.checkArgs call eff st).1 = (info.checkArgs call eff st').1 ∧
          info.Lockstep D B (info.checkArgs call eff st).2 (info.checkArgs call eff st').2 :=
        lockstep_checkArgs h hnode
      generalize info.checkArgs call eff st = args at hargs hs ⊢
      generalize info.checkArgs call eff st' = args' at hargs hs ⊢
      rcases args with ⟨a, s⟩
      rcases args' with ⟨a', s'⟩
      obtain rfl : a = a' := hargs
      dsimp only
      split
      · exact ⟨rfl, hs.markUnsafe hnode⟩
      · have hcall : info.OutcomeLockstep D B (info.runCall body call callModule crossModule eff s)
            (info.runCall body call callModule crossModule eff s') :=
          lockstep_runCall hfunc hnode (hname hrun) (hsafety hrun s s' hs)
        generalize info.runCall body call callModule crossModule eff s = out at hcall ⊢
        generalize info.runCall body call callModule crossModule eff s' = out' at hcall ⊢
        rcases out with ⟨c, t⟩
        rcases out' with ⟨c', t'⟩
        obtain ⟨hans, ht⟩ := hcall
        obtain rfl : c = c' := hans
        cases c with
        | error e => exact ⟨rfl, ht⟩
        | ok b => exact ⟨rfl, ht⟩
    · split
      · exact ⟨rfl, h.markUnsafe hnode⟩
      · rw [← h.agree call.func hfunc]
        exact ⟨rfl, h.markUnsafeIfImported hnode⟩
      · rw [← h.agree call.func hfunc]
        exact ⟨rfl, h.markUnsafeIfImported hnode⟩
      · exact ⟨rfl, h⟩

/-- A walk whose effects run in lockstep runs in lockstep. -/
theorem lockstep_walk {fuel : Nat} (hfunc : info.functions.get? call.func = some callModule)
    (hD : D call.func)
    (hname : ∀ eff ∈ info.runnableEffects call.func, D (info.dispatchedName eff))
    (hsafety : ∀ eff ∈ info.runnableEffects call.func, ∀ s s', info.Lockstep D B s s' →
      info.OutcomeLockstep D B
        (info.checkCallSafety (info.checkCallBody fuel) false (childCall call callModule eff) s)
        (info.checkCallSafety (info.checkCallBody fuel) false (childCall call callModule eff)
          s'))
    (h : info.Lockstep D B st st') :
    info.OutcomeLockstep D B (info.checkCallBody (fuel + 1) call st)
      (info.checkCallBody (fuel + 1) call st') := by
  have henter : info.Lockstep D B (info.enterBody call st) (info.enterBody call st') :=
    h.of_safety (safety_enterBody call st) (safety_enterBody call st')
  cases hst : st.safety call.func with
  | some fi =>
    rw [checkCallBody_of_recorded hfunc hst,
      checkCallBody_of_recorded hfunc ((h.agree _ hD).symm.trans hst)]
    exact ⟨rfl, henter⟩
  | none =>
    rw [checkCallBody_walk hfunc hst,
      checkCallBody_walk hfunc ((h.agree _ hD).symm.trans hst)]
    -- each effect is looked up alike in both states
    have hstep : ∀ eff ∈ info.effectsOf call.func, ∀ s s', info.Lockstep D B s s' →
        info.OutcomeLockstep D B
          (info.runEffect (info.checkCallBody fuel) call callModule (crosses call callModule)
            eff s)
          (info.runEffect (info.checkCallBody fuel) call callModule (crosses call callModule)
            eff s') := fun eff heff s s' hs =>
      lockstep_runEffect hD (isNode_of_function (hasKey_of_get? hfunc)) (fun hrun => hname eff (List.mem_filter.mpr ⟨heff, hrun⟩))
        (fun hrun => hsafety eff (List.mem_filter.mpr ⟨heff, hrun⟩)) hs
    have hloop : info.OutcomeLockstep D B
        (checkAll (info.runEffect (info.checkCallBody fuel) call callModule
          (crosses call callModule)) (info.effectsOf call.func) (info.enterBody call st))
        (checkAll (info.runEffect (info.checkCallBody fuel) call callModule
          (crosses call callModule)) (info.effectsOf call.func) (info.enterBody call st')) :=
      checkAll_rel (R := info.Lockstep D B) hstep henter
    generalize checkAll _ _ (info.enterBody call st) = out at hloop ⊢
    generalize checkAll _ _ (info.enterBody call st') = out' at hloop ⊢
    rcases out with ⟨a, s⟩
    rcases out' with ⟨a', s'⟩
    obtain ⟨hans, hs⟩ := hloop
    obtain rfl : a = a' := hans
    replace hs : info.Lockstep D B s s' := hs
    cases a with
    | error e => exact ⟨rfl, hs⟩
    | ok b =>
      refine ⟨rfl, ?_⟩
      unfold leaveBody
      dsimp only
      rw [← hs.agree _ hD]
      split
      · exact hs.markSafe (isNode_of_function (hasKey_of_get? hfunc))
      · exact hs

/-- A walk does not depend on the log. -/
theorem lockstep_checkCallBody (info : ProjectInfo) (fuel : Nat) (call : Call)
    (h : info.Lockstep (fun _ => True) (fun _ => False) st st') :
    info.OutcomeLockstep (fun _ => True) (fun _ => False) (info.checkCallBody fuel call st)
      (info.checkCallBody fuel call st') := by
  induction fuel generalizing call st st' with
  | zero => exact ⟨rfl, h⟩
  | succ fuel ih =>
    cases hfunc : info.functions.get? call.func with
    | none =>
      rw [checkCallBody_of_no_function hfunc, checkCallBody_of_no_function hfunc]
      exact ⟨rfl, h⟩
    | some callModule =>
      exact lockstep_walk hfunc trivial (fun _ _ => trivial)
        (fun _ _ _ _ hs => lockstep_checkCallSafety (fun _ _ => trivial)
          (fun _ _ _ _ call' _ _ _ ht => ih call' ht) hs) h

/-- Where every body a call runs has an entry on both sides, the call runs in lockstep. -/
theorem lockstep_recorded {fuel : Nat} {n : ModuleName} (hcall : call.func = n)
    (hn : hasKey info.functions n = true → D n ∧ B n) (h : info.Lockstep D B st st') :
    info.OutcomeLockstep D B (info.checkCallBody (fuel + 1) call st)
      (info.checkCallBody (fuel + 1) call st') := by
  subst hcall
  cases hfunc : info.functions.get? call.func with
  | none =>
    rw [checkCallBody_of_no_function hfunc, checkCallBody_of_no_function hfunc]
    exact ⟨rfl, h⟩
  | some callModule =>
    obtain ⟨hD, hB⟩ := hn (hasKey_of_get? hfunc)
    obtain ⟨fi, hfi⟩ := Option.isSome_iff_exists.mp (h.present _ hB).1
    rw [checkCallBody_of_recorded hfunc hfi,
      checkCallBody_of_recorded hfunc ((h.agree _ hD).symm.trans hfi)]
    exact ⟨rfl, h.of_safety (safety_enterBody call st) (safety_enterBody call st')⟩

end ProjectInfo

end Lifeguard
