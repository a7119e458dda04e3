import Lifeguard.CallGraph

/-!
# What the walk over a body changes

The rules of the evaluator of `Calls`, which every later fact about the verdict precompute
uses in place of its definitions:

- `checkCallSafety_inv`, `checkCallSafety_forall`: a call runs the bodies
  `spawnedCalls` lists, and no other;
- `Frame`, `frame_checkCallBody`: a walk only adds entries, and only for functions;
- `checkCallBody_total`: a walk with `bodyFuel` never fails;
- `cleanAdd_checkCallBody`: a walk that answers `true` adds no verdict that waits on a
  dependency or is unsafe.
-/

namespace Lifeguard

open Lib

/-! ## Reading a state after an update -/

namespace AnalysisState

variable (st : AnalysisState) (func callee name : ModuleName)

@[simp] theorem safety_read : (st.read func).safety name = st.safety name := rfl

@[simp] theorem reads_read : (st.read func).reads = func :: st.reads := rfl

theorem safety_setFunctionSafety (fi : FunctionSafetyInfo) :
    (st.setFunctionSafety func fi).safety name =
      if name = func then some fi else st.safety name :=
  Table.get?_insert ..

theorem safety_markSafe :
    (st.markSafe func).safety name = if name = func then some (.new ∅) else st.safety name :=
  safety_setFunctionSafety ..

theorem safety_markUnsafe :
    (st.markUnsafe func).safety name =
      if name = func then some (.new {.hardUnsafe}) else st.safety name :=
  safety_setFunctionSafety ..

theorem safety_markUnsafeMissingDep :
    (st.markUnsafeMissingDep func callee).safety name =
      if name = func then
        some ((st.safety func).elim (.unsafeMissingDep callee) (addMissingDep callee))
      else st.safety name := by
  unfold markUnsafeMissingDep safety
  rw [Table.get?_upsert]
  split
  · next h =>
    rw [h]
    cases st.functionSafety.get? func <;> rfl
  · rfl

theorem safety_markUnsafeIfImported :
    (st.markUnsafeIfImported func).safety name =
      if name = func then
        some ((st.safety func).elim (.new {.unsafeIfImported}) addIfImported)
      else st.safety name := by
  unfold markUnsafeIfImported safety
  rw [Table.get?_upsert]
  split
  · next h =>
    rw [h]
    cases st.functionSafety.get? func <;> rfl
  · rfl

end AnalysisState

/-- A later record of a function keeps what an earlier one says: once unsafe it stays
unsafe, and short of that no concern and no callee is lost. -/
structure Grows (fi fi' : FunctionSafetyInfo) : Prop where
  hard : .hardUnsafe ∈ fi.verdict → .hardUnsafe ∈ fi'.verdict
  rest : .hardUnsafe ∈ fi'.verdict ∨
    (fi.verdict ⊆ fi'.verdict ∧ fi.missingDepCallees ⊆ fi'.missingDepCallees)

theorem Grows.refl (fi : FunctionSafetyInfo) : Grows fi fi :=
  ⟨id, Or.inr ⟨Finset.Subset.refl _, Finset.Subset.refl _⟩⟩

theorem Grows.trans {fi fi' fi'' : FunctionSafetyInfo} (h : Grows fi fi')
    (h' : Grows fi' fi'') : Grows fi fi'' where
  hard hmem := h'.hard (h.hard hmem)
  rest := by
    rcases h.rest with hhard | ⟨hv, hm⟩
    · exact Or.inl (h'.hard hhard)
    · exact h'.rest.imp_right fun ⟨hv', hm'⟩ => ⟨hv.trans hv', hm.trans hm'⟩

/-- Only the entry of `func` may have changed, and lookups may have been logged. -/
structure ChangesOnly (func : ModuleName) (st st' : AnalysisState) : Prop where
  other : ∀ n, n ≠ func → st'.safety n = st.safety n
  reads : ∀ n ∈ st.reads, n ∈ st'.reads

/-- An update of a function's own entry while its body is walked. -/
structure OwnUpdate (func : ModuleName) (st st' : AnalysisState) : Prop
    extends ChangesOnly func st st' where
  grows : ∀ fi, st.safety func = some fi → ∃ fi', st'.safety func = some fi' ∧ Grows fi fi'

theorem ChangesOnly.setFunctionSafety {func : ModuleName} {st : AnalysisState}
    {fi : FunctionSafetyInfo} : ChangesOnly func st (st.setFunctionSafety func fi) :=
  ⟨fun n hn => by rw [AnalysisState.safety_setFunctionSafety, if_neg hn], fun _ h => h⟩

theorem ChangesOnly.trans {func : ModuleName} {st st' st'' : AnalysisState}
    (h : ChangesOnly func st st') (h' : ChangesOnly func st' st'') :
    ChangesOnly func st st'' :=
  ⟨fun n hn => (h'.other n hn).trans (h.other n hn), fun n hn => h'.reads n (h.reads n hn)⟩

namespace OwnUpdate

variable {func callee : ModuleName} {st st' st'' : AnalysisState}

theorem refl : OwnUpdate func st st where
  other _ _ := rfl
  reads _ h := h
  grows fi h := ⟨fi, h, .refl fi⟩

theorem trans (h : OwnUpdate func st st') (h' : OwnUpdate func st' st'') :
    OwnUpdate func st st'' where
  toChangesOnly := h.toChangesOnly.trans h'.toChangesOnly
  grows fi hfi := by
    obtain ⟨fi', hfi', hgrows⟩ := h.grows fi hfi
    obtain ⟨fi'', hfi'', hgrows'⟩ := h'.grows fi' hfi'
    exact ⟨fi'', hfi'', hgrows.trans hgrows'⟩

theorem read : OwnUpdate func st (st.read callee) where
  other _ _ := rfl
  reads _ hn := List.mem_cons_of_mem _ hn
  grows fi h := ⟨fi, h, .refl fi⟩

theorem markSafe (h : st.safety func = none) : OwnUpdate func st (st.markSafe func) where
  toChangesOnly := .setFunctionSafety
  grows fi hfi := by
    rw [h] at hfi
    cases hfi

theorem markUnsafe : OwnUpdate func st (st.markUnsafe func) where
  toChangesOnly := .setFunctionSafety
  grows fi _ := by
    have hhard : Concern.hardUnsafe ∈ (FunctionSafetyInfo.new {.hardUnsafe}).verdict :=
      Finset.mem_singleton_self _
    refine ⟨.new {.hardUnsafe}, ?_, fun _ => hhard, Or.inl hhard⟩
    rw [AnalysisState.safety_markUnsafe, if_pos rfl]

theorem markUnsafeMissingDep : OwnUpdate func st (st.markUnsafeMissingDep func callee) where
  other n hn := by rw [AnalysisState.safety_markUnsafeMissingDep, if_neg hn]
  reads _ h := h
  grows fi hfi := by
    refine ⟨AnalysisState.addMissingDep callee fi, ?_, fun h => Finset.mem_insert_of_mem h,
      Or.inr ⟨Finset.subset_insert _ _, Finset.subset_insert _ _⟩⟩
    rw [AnalysisState.safety_markUnsafeMissingDep, if_pos rfl, hfi]
    rfl

theorem markUnsafeIfImported : OwnUpdate func st (st.markUnsafeIfImported func) where
  other n hn := by rw [AnalysisState.safety_markUnsafeIfImported, if_neg hn]
  reads _ h := h
  grows fi hfi := by
    refine ⟨AnalysisState.addIfImported fi, ?_, fun h => Finset.mem_insert_of_mem h,
      Or.inr ⟨Finset.subset_insert _ _, Finset.Subset.refl _⟩⟩
    rw [AnalysisState.safety_markUnsafeIfImported, if_pos rfl, hfi]
    rfl

end OwnUpdate

namespace ProjectInfo

variable {info : ProjectInfo} {body : Call → AnalysisState → Outcome}

theorem ownUpdate_markCaller (func callee : ModuleName) (st : AnalysisState) :
    OwnUpdate func st (info.markCallerUnsafeForFailedCallee func callee st) := by
  unfold markCallerUnsafeForFailedCallee
  dsimp only
  refine OwnUpdate.trans (.read : OwnUpdate func st (st.read callee)) ?_
  split
  · split
    · exact .markUnsafeMissingDep
    · exact .refl
  · split
    · exact .markUnsafe
    · split
      · exact .markUnsafeMissingDep
      · exact .refl

theorem ownUpdate_deferMutations (func : ModuleName) (eff : Effect) (st : AnalysisState) :
    OwnUpdate func st (info.deferMutations func eff st) := by
  unfold deferMutations
  generalize info.deferredCallees eff = callees
  induction callees generalizing st with
  | nil => exact .refl
  | cons callee callees ih => exact OwnUpdate.markUnsafeMissingDep.trans (ih _)

theorem ownUpdate_checkArgs (call : Call) (eff : Effect) (st : AnalysisState) :
    OwnUpdate call.func st (info.checkArgs call eff st).2 := by
  unfold checkArgs
  split
  · exact .markUnsafe
  · split
    · exact ownUpdate_deferMutations ..
    · exact .refl

/-! ## The bodies a call runs -/

/-- The names of the bodies a resolved call runs. -/
def runNames (info : ProjectInfo) (eff : Effect) (callee : ModuleName) : List ModuleName :=
  (if hasKey info.classes callee then info.constructorMethodsOf callee else [callee]) ++
    (if isParameterizedDecoratorEffect eff then
      (info.nestedFunctions.get? callee).getD []
    else [])

/-- The calls of bodies a resolved call makes, in their order. -/
def spawnedCalls (info : ProjectInfo) (call : Call) : List Call :=
  (if hasKey info.classes call.func then
      (info.constructorMethodsOf call.func).map fun method => { call with func := method }
    else [call]) ++
    (if isParameterizedDecoratorEffect call.effect then
      ((info.nestedFunctions.get? call.func).getD []).map fun child =>
        { call with
          effect := { kind := .functionCall, name := child, range := call.effect.range }
          func := child }
    else [])

/-- A spawned call is made at the site of the call that spawns it. -/
structure Spawned (call call' : Call) : Prop where
  callerModule : call'.callerModule = call.callerModule
  stack : call'.stack = call.stack
  isModuleScope : call'.isModuleScope = call.isModuleScope

theorem mem_spawnedCalls {call call' : Call} (h : call' ∈ info.spawnedCalls call) :
    Spawned call call' ∧ call'.func ∈ info.runNames call.effect call.func := by
  unfold spawnedCalls at h
  unfold runNames
  rcases List.mem_append.mp h with h | h
  · split at h
    · next hcls =>
      obtain ⟨method, hmethod, rfl⟩ := List.mem_map.mp h
      rw [if_pos hcls]
      exact ⟨⟨rfl, rfl, rfl⟩, List.mem_append_left _ hmethod⟩
    · next hcls =>
      rw [List.mem_singleton.mp h, if_neg hcls]
      exact ⟨⟨rfl, rfl, rfl⟩, List.mem_append_left _ (List.mem_singleton.mpr rfl)⟩
  · split at h
    · next hdec =>
      obtain ⟨child, hchild, rfl⟩ := List.mem_map.mp h
      rw [if_pos hdec]
      exact ⟨⟨rfl, rfl, rfl⟩, List.mem_append_right _ hchild⟩
    · cases h

theorem exists_spawnedCall {call : Call} {name : ModuleName}
    (h : name ∈ info.runNames call.effect call.func) :
    ∃ call' ∈ info.spawnedCalls call, call'.func = name := by
  unfold runNames at h
  unfold spawnedCalls
  rcases List.mem_append.mp h with h | h
  · split at h
    · next hcls =>
      rw [if_pos hcls]
      exact ⟨_, List.mem_append_left _ (List.mem_map.mpr ⟨name, h, rfl⟩), rfl⟩
    · next hcls =>
      rw [if_neg hcls]
      refine ⟨call, List.mem_append_left _ (List.mem_singleton.mpr rfl), ?_⟩
      exact (List.mem_singleton.mp h).symm
  · split at h
    · next hdec =>
      rw [if_pos hdec]
      exact ⟨_, List.mem_append_right _ (List.mem_map.mpr ⟨name, h, rfl⟩), rfl⟩
    · cases h

/-- `check_call` runs the spawned calls in their order. -/
theorem checkCall_eq (call : Call) (st : AnalysisState) :
    info.checkCall body call st =
      if declaredSafe call.func then (.ok true, st)
      else checkAll body (info.spawnedCalls call) st := by
  unfold checkCall
  split
  · rfl
  · have hfirst : (if hasKey info.classes call.func then info.checkConstructorCall body call st
        else body call st) =
        checkAll body
          (if hasKey info.classes call.func then
            (info.constructorMethodsOf call.func).map fun method => { call with func := method }
          else [call]) st := by
      split
      · rw [checkAll_map]
        rfl
      · rw [checkAll_singleton]
    -- the nested functions of a decorator run after the calls themselves
    have hnested : ∀ s, info.checkDecoratorNestedFunctions body call s =
        checkAll body
          (((info.nestedFunctions.get? call.func).getD []).map fun child =>
            { call with
              effect := { kind := .functionCall, name := child, range := call.effect.range }
              func := child }) s := by
      intro s
      unfold checkDecoratorNestedFunctions
      cases info.nestedFunctions.get? call.func with
      | none => rfl
      | some children =>
        rw [Option.getD_some, checkAll_map]
    unfold spawnedCalls
    rw [checkAll_append, ← hfirst]
    dsimp only
    generalize (if hasKey info.classes call.func = true then _ else _) = checked
    rcases checked with ⟨e | b, s⟩
    · rfl
    · dsimp only
      split
      · rw [hnested]
        generalize checkAll body _ s = nested
        rcases nested with ⟨e | b', t⟩
        · rfl
        · rfl
      · simp only [checkAll_nil, Bool.and_true]

/-- Without publication, a call that does not resolve is unsafe and runs nothing. -/
theorem checkResolvedCall_eq (nameCallee : Bool) (call : Call) (st : AnalysisState) :
    info.checkResolvedCall body false nameCallee call st =
      if !info.canResolveCall call.func st then (.ok false, st)
      else info.checkCall body call st := by
  unfold checkResolvedCall
  split
  · rw [if_neg Bool.false_ne_true]
  · rcases info.checkCall body call st with ⟨e | _ | _, s⟩
    · rfl
    · dsimp only
      rw [if_neg Bool.false_ne_true]
    · rfl

/-- The callee resolves in some state the invariant allows. -/
def ResolvesIn (info : ProjectInfo) (I : AnalysisState → Prop) (callee : ModuleName) : Prop :=
  ∃ st, I st ∧ info.canResolveCall callee st = true

/-- What the bodies a call runs preserve, the call preserves. -/
theorem checkCallSafety_inv {I : AnalysisState → Prop} {call : Call}
    (step : ∀ callee ∈ info.dispatchCallees call.effect, info.ResolvesIn I callee →
      declaredSafe callee = false → ∀ call' ∈ info.spawnedCalls { call with func := callee }, ∀ st, I st →
        I (body call' st).2)
    {st : AnalysisState} (h : I st) : I (info.checkCallSafety body false call st).2 := by
  refine checkAll_inv (fun callee hcallee s hs => ?_) h
  rw [checkResolvedCall_eq]
  split
  · exact hs
  · next hres =>
    rw [checkCall_eq]
    split
    · exact hs
    · next hsafe =>
      exact checkAll_inv
        (step callee hcallee ⟨s, hs, by simpa using hres⟩ (Bool.eq_false_iff.mpr hsafe)) hs

/-- What the bodies a call runs preserve when they pass, a call that passes preserves. -/
theorem checkCallSafety_true {I : AnalysisState → Prop} {call : Call}
    (step : ∀ callee ∈ info.dispatchCallees call.effect, info.ResolvesIn I callee →
      declaredSafe callee = false → ∀ call' ∈ info.spawnedCalls { call with func := callee }, ∀ st st', I st →
        body call' st = (.ok true, st') → I st')
    {st st' : AnalysisState} (h : I st)
    (hrun : info.checkCallSafety body false call st = (.ok true, st')) : I st' := by
  refine checkAll_true (fun callee hcallee s s' hs hr => ?_) h hrun
  rw [checkResolvedCall_eq] at hr
  split at hr
  · cases hr
  · next hres =>
    rw [checkCall_eq] at hr
    split at hr
    · cases hr
      exact hs
    · next hsafe =>
      exact checkAll_true
        (step callee hcallee ⟨s, hs, by simpa using hres⟩ (Bool.eq_false_iff.mpr hsafe)) hs hr

/-- A call whose bodies never fail never fails. -/
theorem checkCallSafety_ok {I : AnalysisState → Prop} {call : Call}
    (step : ∀ callee ∈ info.dispatchCallees call.effect, info.ResolvesIn I callee →
      declaredSafe callee = false → ∀ call' ∈ info.spawnedCalls { call with func := callee }, ∀ st, I st →
        ∃ b st', body call' st = (.ok b, st') ∧ I st')
    {st : AnalysisState} (h : I st) :
    ∃ b st', info.checkCallSafety body false call st = (.ok b, st') ∧ I st' := by
  refine checkAll_ok (fun callee hcallee s hs => ?_) h
  rw [checkResolvedCall_eq]
  split
  · exact ⟨false, s, rfl, hs⟩
  · next hres =>
    rw [checkCall_eq]
    split
    · exact ⟨true, s, rfl, hs⟩
    · next hsafe =>
      exact checkAll_ok
        (step callee hcallee ⟨s, hs, by simpa using hres⟩ (Bool.eq_false_iff.mpr hsafe)) hs

/-- What each body establishes for its name and the others keep holds of every body a
call runs, and a call that passes only ran bodies that pass. -/
theorem checkCallSafety_forall {I : AnalysisState → Prop}
    {Q : ModuleName → Bool → AnalysisState → Prop} {call : Call}
    (inv : ∀ callee ∈ info.dispatchCallees call.effect, info.ResolvesIn I callee →
      declaredSafe callee = false → ∀ call' ∈ info.spawnedCalls { call with func := callee }, ∀ st, I st →
        I (body call' st).2)
    (establish : ∀ callee ∈ info.dispatchCallees call.effect, info.ResolvesIn I callee →
      declaredSafe callee = false → ∀ call' ∈ info.spawnedCalls { call with func := callee }, ∀ st b st', I st →
        body call' st = (.ok b, st') → Q call'.func b st')
    (keep : ∀ callee ∈ info.dispatchCallees call.effect, info.ResolvesIn I callee →
      declaredSafe callee = false → ∀ call' ∈ info.spawnedCalls { call with func := callee }, ∀ st, I st →
        ∀ n b, Q n b st → Q n b (body call' st).2)
    {st st' : AnalysisState} {b : Bool} (h : I st)
    (hrun : info.checkCallSafety body false call st = (.ok b, st')) :
    ∀ callee ∈ info.dispatchCallees call.effect, info.containsCallable callee = true →
      declaredSafe callee = false → ∀ n ∈ info.runNames call.effect callee,
        ∃ b', Q n b' st' ∧ (b = true → b' = true) := by
  -- the invariant first, over every callee, then what later callees keep
  have hinv : ∀ callee ∈ info.dispatchCallees call.effect, ∀ nc s, I s →
      I (info.checkResolvedCall body false nc { call with func := callee } s).2 := by
    intro callee hcallee nc s hs
    rw [checkResolvedCall_eq]
    split
    · exact hs
    · next hres =>
      rw [checkCall_eq]
      split
      · exact hs
      · next hsafe =>
        exact checkAll_inv
          (inv callee hcallee ⟨s, hs, by simpa using hres⟩ (Bool.eq_false_iff.mpr hsafe)) hs
  have hkeep : ∀ callee ∈ info.dispatchCallees call.effect, ∀ nc s, I s →
      ∀ n b, Q n b s →
        Q n b (info.checkResolvedCall body false nc { call with func := callee } s).2 := by
    intro callee hcallee nc s hs n b hq
    rw [checkResolvedCall_eq]
    split
    · exact hq
    · next hres =>
      rw [checkCall_eq]
      split
      · exact hq
      · next hsafe =>
        have hsafe' := Bool.eq_false_iff.mpr hsafe
        have hres' : info.ResolvesIn I callee := ⟨s, hs, by simpa using hres⟩
        exact (checkAll_inv (I := fun t => I t ∧ Q n b t)
          (fun call' hcall' t ht =>
            ⟨inv callee hcallee hres' hsafe' call' hcall' t ht.1,
              keep callee hcallee hres' hsafe' call' hcall' t ht.1 n b ht.2⟩) ⟨hs, hq⟩).2
  -- one callee after the other: each establishes its own, and the rest keep it
  have houter := checkAll_forall
    (Q := fun callee b s => info.containsCallable callee = true →
      declaredSafe callee = false → ∀ n ∈ info.runNames call.effect callee,
        ∃ b', Q n b' s ∧ (b = true → b' = true))
    (fun callee hcallee s hs => hinv callee hcallee _ s hs) ?_ ?_ h hrun
  · intro callee hcallee hcall hsafe n hn
    obtain ⟨b', hb', hall⟩ := houter.2 callee hcallee
    obtain ⟨b'', hq, hb''⟩ := hb' hcall hsafe n hn
    exact ⟨b'', hq, fun hb => hb'' (hall hb)⟩
  · intro callee hcallee s b s' hs hr hcall hsafe n hn
    rw [checkResolvedCall_eq] at hr
    split at hr
    · next hres =>
      rw [Bool.not_eq_true', canResolveCall, hcall, Bool.true_or] at hres
      cases hres
    · rw [checkCall_eq] at hr
      split at hr
      · next hsafe' =>
        rw [hsafe] at hsafe'
        cases hsafe'
      · obtain ⟨call', hcall', rfl⟩ : ∃ call' ∈ info.spawnedCalls { call with func := callee },
            call'.func = n := exists_spawnedCall hn
        have hres : info.ResolvesIn I callee :=
          ⟨s, hs, by rw [canResolveCall, hcall, Bool.true_or]⟩
        exact (checkAll_forall (Q := fun call' b s => Q call'.func b s)
          (inv callee hcallee hres hsafe) (establish callee hcallee hres hsafe)
          (fun y _ call'' hcall'' t b' ht hq =>
            keep callee hcallee hres hsafe call'' hcall'' t ht y.func b' hq) hs hr).2 call' hcall'
  · intro y hy callee hcallee s b hs hq hcall hsafe n hn
    obtain ⟨b', hq', hb'⟩ := hq hcall hsafe n hn
    exact ⟨b', hkeep callee hcallee _ s hs n b' hq', hb'⟩

/-! ## The walk over a body -/

/-- The state a walk starts from: the body's own entry has been looked up. -/
def enterBody (info : ProjectInfo) (call : Call) (st : AnalysisState) : AnalysisState :=
  (if call.isModuleScope then info.checkCallParams call st else st).read call.func

/-- What a walk leaves: a body nothing was recorded for is safe. -/
def leaveBody (func : ModuleName) : Outcome → Outcome
  | (.error e, st) => (.error e, st)
  | (.ok ret, st) => (.ok ret, if (st.safety func).isNone then st.markSafe func else st)

/-- Whether a call crosses into the module of the body. -/
def crosses (call : Call) (callModule : ModuleName) : Bool :=
  decide (call.callerModule ≠ callModule)

@[simp] theorem safety_enterBody (call : Call) (st : AnalysisState) (name : ModuleName) :
    (info.enterBody call st).safety name = st.safety name := by
  unfold enterBody checkCallParams
  split
  · split <;> rfl
  · rfl

theorem reads_enterBody (call : Call) (st : AnalysisState) :
    (info.enterBody call st).reads = call.func :: st.reads := by
  unfold enterBody checkCallParams
  split
  · split <;> rfl
  · rfl

theorem ownUpdate_enterBody (call : Call) (st : AnalysisState) :
    OwnUpdate call.func st (info.enterBody call st) where
  other n _ := safety_enterBody call st n
  reads n hn := by
    rw [reads_enterBody]
    exact List.mem_cons_of_mem _ hn
  grows fi h := ⟨fi, by rw [safety_enterBody, h], .refl fi⟩

variable {fuel : Nat} {call : Call} {st : AnalysisState} {callModule : ModuleName}

theorem checkCallBody_of_no_function (h : info.functions.get? call.func = none) :
    info.checkCallBody (fuel + 1) call st = (.ok true, st) := by
  rw [checkCallBody, h]

/-- A recorded verdict answers the call. -/
theorem checkCallBody_of_recorded {fi : FunctionSafetyInfo}
    (h : info.functions.get? call.func = some callModule)
    (hst : st.safety call.func = some fi) :
    info.checkCallBody (fuel + 1) call st =
      (.ok (verdictAnswer fi.verdict (crosses call callModule)), info.enterBody call st) := by
  have hst' : (info.enterBody call st).safety call.func = some fi := by
    rw [safety_enterBody, hst]
  rw [checkCallBody, h]
  dsimp only
  rw [show AnalysisState.safety (AnalysisState.read _ call.func) call.func = some fi from hst']
  rfl

/-- Without one, the body is walked. -/
theorem checkCallBody_walk (h : info.functions.get? call.func = some callModule)
    (hst : st.safety call.func = none) :
    info.checkCallBody (fuel + 1) call st =
      leaveBody call.func
        (checkAll
          (info.runEffect (info.checkCallBody fuel) call callModule (crosses call callModule))
          (info.effectsOf call.func) (info.enterBody call st)) := by
  have hst' : (info.enterBody call st).safety call.func = none := by
    rw [safety_enterBody, hst]
  rw [checkCallBody, h]
  dsimp only
  rw [show AnalysisState.safety (AnalysisState.read _ call.func) call.func = none from hst']
  generalize hrun : checkAll _ _ _ = out
  have hrun' : checkAll
      (info.runEffect (info.checkCallBody fuel) call callModule (crosses call callModule))
      (info.effectsOf call.func) (info.enterBody call st) = out := hrun
  rw [hrun']
  rcases out with ⟨e | b, s⟩
  · rfl
  · rfl

theorem ownUpdate_leaveBody (func : ModuleName) (out : Outcome) :
    OwnUpdate func out.2 (leaveBody func out).2 := by
  rcases out with ⟨e | b, s⟩
  · exact .refl
  · unfold leaveBody
    dsimp only
    split
    · next hnone => exact .markSafe (Option.isNone_iff_eq_none.mp hnone)
    · exact .refl

/-- At most the given names have been looked up between the states. -/
def ReadsWithin (names : ModuleName → Prop) (st st' : AnalysisState) : Prop :=
  ∀ n ∈ st'.reads, n ∈ st.reads ∨ names n

theorem ReadsWithin.of_eq {names : ModuleName → Prop} {st' : AnalysisState}
    (h : st'.reads = st.reads) : ReadsWithin names st st' := fun _ hn => Or.inl (h ▸ hn)

theorem ReadsWithin.read {name : ModuleName} :
    ReadsWithin (fun n => n = name) st (st.read name) :=
  fun _ hn => (List.mem_cons.mp hn).symm

theorem reads_deferMutations (func : ModuleName) (eff : Effect) (st : AnalysisState) :
    (info.deferMutations func eff st).reads = st.reads := by
  unfold deferMutations
  generalize info.deferredCallees eff = callees
  induction callees generalizing st with
  | nil => rfl
  | cons callee callees ih => exact ih (st.markUnsafeMissingDep func callee)

theorem reads_checkArgs (call : Call) (eff : Effect) (st : AnalysisState) :
    (info.checkArgs call eff st).2.reads = st.reads := by
  unfold checkArgs
  split
  · rfl
  · split
    · exact reads_deferMutations ..
    · rfl

/-- A failed call looks its callee up, and nothing else. -/
theorem reads_markCaller (func callee : ModuleName) (st : AnalysisState) :
    (info.markCallerUnsafeForFailedCallee func callee st).reads = callee :: st.reads := by
  unfold markCallerUnsafeForFailedCallee
  dsimp only
  split
  · split <;> rfl
  · split
    · rfl
    · split <;> rfl

/-- What the walk's own updates and the call of the effect preserve, the branch that runs
the call preserves. -/
theorem runCall_inv {I : AnalysisState → Prop} {crossModule : Bool} {eff : Effect}
    (own : ∀ st st', I st → OwnUpdate call.func st st' →
      ReadsWithin (fun n => n = info.dispatchedName eff) st st' → I st')
    (h : I (info.checkCallSafety body false (childCall call callModule eff) st).2) :
    I (info.runCall body call callModule crossModule eff st).2 := by
  unfold runCall
  rcases hsafe : info.checkCallSafety body false (childCall call callModule eff) st with
    ⟨e | _ | _, t⟩ <;> rw [hsafe] at h
  · exact h
  · refine own _ _ h (ownUpdate_markCaller ..) fun n hn => ?_
    rw [reads_markCaller] at hn
    exact (List.mem_cons.mp hn).symm
  · dsimp only
    split
    · exact own _ _ h (OwnUpdate.trans .read .markUnsafeIfImported) .read
    · exact own _ _ h .read .read

/-- What the walk's own updates and the call of the effect preserve, the effect
preserves. -/
theorem runEffect_inv {I : AnalysisState → Prop} {crossModule : Bool} {eff : Effect}
    (own : ∀ st st', I st → OwnUpdate call.func st st' →
      ReadsWithin (fun n => eff.kind.isRunnable = true ∧ n = info.dispatchedName eff) st st' →
        I st')
    (safety : eff.kind.isRunnable = true → eff.name ∉ call.stack → ∀ st, I st →
      I (info.checkCallSafety body false (childCall call callModule eff) st).2)
    (h : I st) : I (info.runEffect body call callModule crossModule eff st).2 := by
  unfold runEffect
  split
  · exact own _ _ h .markUnsafe (.of_eq rfl)
  · split
    · next hrun =>
      have hargs : I (info.checkArgs call eff st).2 :=
        own _ _ h (ownUpdate_checkArgs call eff st) (.of_eq (reads_checkArgs call eff st))
      rcases hcheck : info.checkArgs call eff st with ⟨argsOk, s⟩
      rw [hcheck] at hargs
      dsimp only
      split
      · exact own _ _ hargs .markUnsafe (.of_eq rfl)
      · next hstack =>
        have hcall : I (info.runCall body call callModule crossModule eff s).2 :=
          runCall_inv
            (fun _ _ ht hown hreads => own _ _ ht hown
              fun n hn => (hreads n hn).imp_right fun heq => ⟨hrun, heq⟩)
            (safety hrun (by simpa using hstack) s hargs)
        rcases hr : info.runCall body call callModule crossModule eff s with ⟨e | b, t⟩ <;>
          rw [hr] at hcall
        · exact hcall
        · exact hcall
    · split
      · exact own _ _ h .markUnsafe (.of_eq rfl)
      · exact own _ _ h .markUnsafeIfImported (.of_eq rfl)
      · exact own _ _ h .markUnsafeIfImported (.of_eq rfl)
      · exact h

/-! ## What a walk leaves alone -/

/-- Entries outside `free` stay; only names `new` allows get one; lookups stay logged. -/
structure Frame (new free : ModuleName → Prop) (st st' : AnalysisState) : Prop where
  kept : ∀ n fi, ¬free n → st.safety n = some fi → st'.safety n = some fi
  added : ∀ n, (st'.safety n).isSome → (st.safety n).isSome ∨ new n
  reads : ∀ n ∈ st.reads, n ∈ st'.reads

namespace Frame

variable {new new' free : ModuleName → Prop} {st' st'' : AnalysisState}

theorem refl : Frame new free st st := ⟨fun _ _ _ h => h, fun _ => Or.inl, fun _ h => h⟩

theorem trans (h : Frame new free st st') (h' : Frame new free st' st'') :
    Frame new free st st'' where
  kept n fi hn hst := h'.kept n fi hn (h.kept n fi hn hst)
  added n hn := (h'.added n hn).elim (h.added n) Or.inr
  reads n hn := h'.reads n (h.reads n hn)

theorem weaken (h : Frame new (fun _ => False) st st') : Frame new free st st' :=
  ⟨fun n fi _ => h.kept n fi id, h.added, h.reads⟩

theorem mono (h : Frame new free st st') (hnew : ∀ n, new n → new' n) :
    Frame new' free st st' :=
  ⟨h.kept, fun n hn => (h.added n hn).imp_right (hnew n), h.reads⟩

/-- An update of one entry frees that entry alone. -/
theorem of_changesOnly {func : ModuleName} (hfunc : new func)
    (h : ChangesOnly func st st') : Frame new (fun n => n = func) st st' where
  kept n fi hn hst := by rw [h.other n hn, hst]
  added n hn := by
    by_cases heq : n = func
    · rw [heq]
      exact Or.inr hfunc
    · rw [h.other n heq] at hn
      exact Or.inl hn
  reads := h.reads

/-- Where the freed entry did not exist, nothing was freed. -/
theorem of_absent {func : ModuleName} (h : Frame new (fun n => n = func) st st')
    (hst : st.safety func = none) : Frame new (fun _ => False) st st' where
  kept n fi _ hn := by
    refine h.kept n fi ?_ hn
    rintro rfl
    rw [hst] at hn
    cases hn
  added := h.added
  reads := h.reads

end Frame

theorem hasKey_of_get? {α : Type} {t : Table ModuleName α} {name : ModuleName} {a : α}
    (h : t.get? name = some a) : hasKey t name = true := by
  rw [hasKey, h]
  rfl

theorem isNode_of_function {n : ModuleName} (h : hasKey info.functions n = true) :
    info.isNode n = true := by
  rw [isNode, h, Bool.true_or]

theorem isNode_of_class {n : ModuleName} (h : hasKey info.classes n = true) :
    info.isNode n = true := by
  rw [isNode, h, Bool.or_true]

/-- The name is that of a function. -/
def IsFunction (info : ProjectInfo) (n : ModuleName) : Prop := hasKey info.functions n = true

/-- A call whose bodies are framed is framed. -/
theorem frame_checkCallSafety {new free : ModuleName → Prop}
    (hbody : ∀ call st, Frame new (fun _ => False) st (body call st).2) (call : Call)
    (st : AnalysisState) :
    Frame new free st (info.checkCallSafety body false call st).2 :=
  checkCallSafety_inv (I := fun s => Frame new free st s)
    (fun _ _ _ _ call' _ _ hs => hs.trans (hbody call' _).weaken) .refl

/-- A walk changes no recorded entry, and adds entries for functions only. -/
theorem frame_checkCallBody (info : ProjectInfo) (fuel : Nat) (call : Call)
    (st : AnalysisState) :
    Frame info.IsFunction (fun _ => False) st (info.checkCallBody fuel call st).2 := by
  induction fuel generalizing call st with
  | zero => exact .refl
  | succ fuel ih =>
    cases hfunc : info.functions.get? call.func with
    | none =>
      rw [checkCallBody_of_no_function hfunc]
      exact .refl
    | some callModule =>
      have hkey : info.IsFunction call.func := hasKey_of_get? hfunc
      cases hst : st.safety call.func with
      | some fi =>
        rw [checkCallBody_of_recorded hfunc hst]
        refine ⟨fun n fi _ h => ?_, fun n h => ?_, fun n h => ?_⟩
        · rw [safety_enterBody, h]
        · rw [safety_enterBody] at h
          exact Or.inl h
        · rw [reads_enterBody]
          exact List.mem_cons_of_mem _ h
      | none =>
        rw [checkCallBody_walk hfunc hst]
        refine Frame.of_absent ?_ hst
        have henter : Frame info.IsFunction (fun n => n = call.func) st (info.enterBody call st) :=
          .of_changesOnly hkey (ownUpdate_enterBody call st).toChangesOnly
        have hloop : Frame info.IsFunction (fun n => n = call.func) st
            (checkAll (info.runEffect (info.checkCallBody fuel) call callModule
              (crosses call callModule)) (info.effectsOf call.func)
              (info.enterBody call st)).2 := checkAll_inv
          (I := fun s => Frame info.IsFunction (fun n => n = call.func) st s)
          (fun eff _ s hs => runEffect_inv
            (fun _ _ ht hown _ => ht.trans (.of_changesOnly hkey hown.toChangesOnly))
            (fun _ _ t ht => ht.trans (frame_checkCallSafety ih _ t)) hs)
          henter
        exact hloop.trans (.of_changesOnly hkey (ownUpdate_leaveBody ..).toChangesOnly)

/-- So does the call of an effect. -/
theorem frame_call (info : ProjectInfo) (fuel : Nat) (call : Call) (st : AnalysisState) :
    Frame info.IsFunction (fun _ => False) st
      (info.checkCallSafety (info.checkCallBody fuel) false call st).2 :=
  frame_checkCallSafety (frame_checkCallBody info fuel) call st

/-- A walk that ends leaves a verdict for its function. -/
theorem isSome_checkCallBody {b : Bool} {st' : AnalysisState}
    (hkey : hasKey info.functions call.func = true)
    (hrun : info.checkCallBody fuel call st = (.ok b, st')) :
    (st'.safety call.func).isSome := by
  cases fuel with
  | zero => cases hrun
  | succ fuel =>
    obtain ⟨callModule, hfunc⟩ := Option.isSome_iff_exists.mp hkey
    cases hst : st.safety call.func with
    | some fi =>
      rw [checkCallBody_of_recorded hfunc hst] at hrun
      cases hrun
      rw [safety_enterBody, hst]
      rfl
    | none =>
      rw [checkCallBody_walk hfunc hst] at hrun
      generalize checkAll _ _ _ = out at hrun
      rcases out with ⟨e | b', s⟩
      · cases hrun
      · cases hrun
        split
        · rw [AnalysisState.safety_markSafe, if_pos rfl]
          rfl
        · next hsome => exact Option.isSome_iff_ne_none.mpr fun h => hsome (by rw [h]; rfl)

/-! ## The fuel is enough -/

/-- The stack holds distinct effect names, and the fuel covers the remaining ones. -/
structure Fueled (info : ProjectInfo) (fuel : Nat) (call : Call) : Prop where
  nodup : call.stack.Nodup
  names : ∀ n ∈ call.stack, n ∈ info.effectNames
  enough : info.effectNames.length + 1 ≤ fuel + call.stack.length

theorem mem_effectNames {func : ModuleName} {eff : Effect} (h : eff ∈ info.effectsOf func) :
    eff.name ∈ info.effectNames := by
  unfold effectsOf at h
  cases hget : info.effectTable.get? func with
  | none =>
    rw [hget] at h
    cases h
  | some effs =>
    rw [hget] at h
    refine List.mem_map.mpr ⟨eff, List.mem_flatMap.mpr ⟨(func, effs), ?_, h⟩, rfl⟩
    exact Table.mem_entries.mpr hget

theorem fueled_start (h : call.stack = []) : Fueled info info.bodyFuel call where
  nodup := by rw [h]; exact List.nodup_nil
  names := by rw [h]; exact fun _ hn => nomatch hn
  enough := by
    unfold bodyFuel
    omega

theorem Fueled.child {eff : Effect} (h : Fueled info (fuel + 1) call)
    (heff : eff.name ∈ info.effectNames) (hstack : eff.name ∉ call.stack)
    (callModule : ModuleName) : Fueled info fuel (childCall call callModule eff) where
  nodup := List.nodup_cons.mpr ⟨hstack, h.nodup⟩
  names n hn := by
    rcases List.mem_cons.mp hn with rfl | hn
    · exact heff
    · exact h.names n hn
  enough := by
    have := h.enough
    show _ ≤ fuel + (call.stack.length + 1)
    omega

theorem Fueled.of_stack {call' : Call} (h : Fueled info fuel call)
    (hstack : call'.stack = call.stack) : Fueled info fuel call' where
  nodup := by rw [hstack]; exact h.nodup
  names := by rw [hstack]; exact h.names
  enough := by rw [hstack]; exact h.enough

/-- There are no more stack entries than effect names, so there is fuel left. -/
theorem Fueled.pos (h : Fueled info fuel call) : 0 < fuel := by
  have hle : call.stack.length ≤ info.effectNames.length :=
    (List.subperm_of_subset h.nodup h.names).length_le
  have := h.enough
  omega

theorem runEffect_ok {crossModule : Bool} {eff : Effect}
    (safety : eff.kind.isRunnable = true → eff.name ∉ call.stack → ∀ st, ∃ b st',
      info.checkCallSafety body false (childCall call callModule eff) st = (.ok b, st')) :
    ∃ b st', info.runEffect body call callModule crossModule eff st = (.ok b, st') := by
  unfold runEffect
  split
  · exact ⟨_, _, rfl⟩
  · split
    · next hrun =>
      rcases info.checkArgs call eff st with ⟨argsOk, s⟩
      dsimp only
      split
      · exact ⟨_, _, rfl⟩
      · next hstack =>
        obtain ⟨b, t, hsafe⟩ := safety hrun (by simpa using hstack) s
        have hcall : ∃ b t, info.runCall body call callModule crossModule eff s = (.ok b, t) := by
          unfold runCall
          rw [hsafe]
          cases b
          · exact ⟨_, _, rfl⟩
          · dsimp only
            split
            · exact ⟨_, _, rfl⟩
            · exact ⟨_, _, rfl⟩
        obtain ⟨b', t', hcall⟩ := hcall
        rw [hcall]
        exact ⟨_, _, rfl⟩
    · split <;> exact ⟨_, _, rfl⟩

/-- An effect whose bodies have enough fuel does not fail. -/
theorem runEffect_total {crossModule : Bool} {eff : Effect}
    (hbody : ∀ call' : Call, Fueled info fuel call' → ∀ st, ∃ b st',
      info.checkCallBody fuel call' st = (.ok b, st'))
    (h : Fueled info (fuel + 1) call) (heff : eff ∈ info.effectsOf call.func)
    (st : AnalysisState) :
    ∃ b st', info.runEffect (info.checkCallBody fuel) call callModule crossModule eff st =
      (.ok b, st') := by
  refine runEffect_ok fun _ hstack t => ?_
  -- the effect's name is new on the stack, so the child has fuel left
  have hchild := h.child (mem_effectNames heff) hstack callModule
  have hsafety : ∃ b t', info.checkCallSafety (info.checkCallBody fuel) false
      (childCall call callModule eff) t = (.ok b, t') ∧ True := by
    refine checkCallSafety_ok (I := fun _ => True) (fun _ _ _ _ call' hcall' u _ => ?_) trivial
    obtain ⟨b, u', hr⟩ := hbody call' (hchild.of_stack (mem_spawnedCalls hcall').1.stack) u
    exact ⟨b, u', hr, trivial⟩
  obtain ⟨b, t', hr, -⟩ := hsafety
  exact ⟨b, t', hr⟩

/-- A walk with enough fuel does not fail. -/
theorem checkCallBody_total (h : Fueled info fuel call) (st : AnalysisState) :
    ∃ b st', info.checkCallBody fuel call st = (.ok b, st') := by
  induction fuel generalizing call st with
  | zero => exact absurd h.pos (Nat.lt_irrefl 0)
  | succ fuel ih =>
    cases hfunc : info.functions.get? call.func with
    | none => exact ⟨_, _, checkCallBody_of_no_function hfunc⟩
    | some callModule =>
      cases hst : st.safety call.func with
      | some fi => exact ⟨_, _, checkCallBody_of_recorded hfunc hst⟩
      | none =>
        have heffect : ∀ eff ∈ info.effectsOf call.func, ∀ s, True → ∃ b s',
            info.runEffect (info.checkCallBody fuel) call callModule (crosses call callModule)
              eff s = (.ok b, s') ∧ True := by
          intro eff heff s _
          obtain ⟨b, s', hr⟩ : ∃ b s', info.runEffect (info.checkCallBody fuel) call callModule
              (crosses call callModule) eff s = (.ok b, s') :=
            runEffect_total (fun _ hcall' u => ih hcall' u) h heff s
          exact ⟨b, s', hr, trivial⟩
        have hloop : ∃ b s, checkAll _ _ (info.enterBody call st) = (.ok b, s) ∧ True :=
          checkAll_ok heffect trivial
        obtain ⟨b, s, hloop, -⟩ := hloop
        rw [checkCallBody_walk hfunc hst, hloop]
        exact ⟨_, _, rfl⟩

/-! ## What a walk that passes records -/

/-- The verdict neither is unsafe nor waits on a dependency. -/
def Clean (fi : FunctionSafetyInfo) : Prop :=
  .hardUnsafe ∉ fi.verdict ∧ .unsafeMissingDep ∉ fi.verdict

theorem clean_of_verdictAnswer {fi : FunctionSafetyInfo} {crossModule : Bool}
    (h : verdictAnswer fi.verdict crossModule = true) : Clean fi := by
  unfold verdictAnswer at h
  split at h
  · cases h
  · next hnot => exact not_or.mp hnot

theorem clean_new_empty : Clean (.new ∅) := ⟨Finset.notMem_empty _, Finset.notMem_empty _⟩

theorem Clean.addIfImported {fi : FunctionSafetyInfo} (h : Clean fi) :
    Clean (AnalysisState.addIfImported fi) := by
  obtain ⟨h1, h2⟩ := h
  unfold AnalysisState.addIfImported
  exact ⟨by simpa using h1, by simpa using h2⟩

/-- Every entry that is new is clean. -/
def CleanAdd (st st' : AnalysisState) : Prop :=
  ∀ n fi, st'.safety n = some fi → st.safety n = some fi ∨ Clean fi

theorem CleanAdd.trans {st st' st'' : AnalysisState} (h : CleanAdd st st')
    (h' : CleanAdd st' st'') : CleanAdd st st'' := by
  intro n fi hn
  rcases h' n fi hn with h' | h'
  · exact h n fi h'
  · exact Or.inr h'

/-- An effect that passes: either a call that passes, or no call at all; the own entry is
at most marked unsafe if imported. -/
theorem runEffect_true {crossModule : Bool} {eff : Effect} {st' : AnalysisState}
    (h : info.runEffect body call callModule crossModule eff st = (.ok true, st')) :
    (eff.kind.isRunnable = true ∧ eff.name ∉ call.stack ∧
      info.callMutatesImportedArg eff = false ∧
      (call.isModuleScope = false → info.deferredCallees eff = []) ∧
      ∃ s, info.checkCallSafety body false (childCall call callModule eff) st = (.ok true, s) ∧
        (st' = s.read (info.dispatchedName eff) ∨
          st' = (s.read (info.dispatchedName eff)).markUnsafeIfImported call.func)) ∨
    (eff.kind.isRunnable = false ∧ (st' = st ∨ st' = st.markUnsafeIfImported call.func)) := by
  unfold runEffect at h
  split at h
  · cases h
  · split at h
    · next hrun =>
      left
      -- arguments that pass left the state alone
      have hargs : ∀ b s, info.checkArgs call eff st = (b, s) → b = true → s = st ∧
          info.callMutatesImportedArg eff = false ∧
          (call.isModuleScope = false → info.deferredCallees eff = []) := by
        intro b s hcheck hb
        unfold checkArgs at hcheck
        split at hcheck
        · cases hcheck
          cases hb
        · next hmut =>
          have hmut' := Bool.eq_false_iff.mpr hmut
          split at hcheck
          · cases hcheck
            have hnil := List.isEmpty_iff.mp hb
            refine ⟨?_, hmut', fun _ => hnil⟩
            rw [deferMutations, hnil]
            rfl
          · next hscope =>
            cases hcheck
            refine ⟨rfl, hmut', fun hfalse => ?_⟩
            rw [hfalse] at hscope
            exact absurd rfl hscope
      rcases hcheck : info.checkArgs call eff st with ⟨argsOk, s⟩
      rw [hcheck] at h
      dsimp only at h
      split at h
      · cases h
      · next hstack =>
        rcases hcall : info.runCall body call callModule crossModule eff s with ⟨e | b, t⟩
        · rw [hcall] at h
          cases h
        · rw [hcall] at h
          obtain ⟨hb, rfl⟩ := Prod.mk.inj h
          obtain ⟨hargsOk, rfl⟩ := Bool.and_eq_true_iff.mp (Except.ok.inj hb)
          obtain ⟨rfl, hmut, hdefer⟩ := hargs argsOk s hcheck hargsOk
          refine ⟨hrun, by simpa using hstack, hmut, hdefer, ?_⟩
          unfold runCall at hcall
          -- a call that fails or is unsafe answers no, so only the last case is left
          rcases hsafe : info.checkCallSafety body false (childCall call callModule eff) s with
            ⟨e | _ | _, u⟩
          · rw [hsafe] at hcall
            cases hcall
          · rw [hsafe] at hcall
            cases hcall
          · rw [hsafe] at hcall
            dsimp only at hcall
            split at hcall
            · exact ⟨u, rfl, Or.inr (Prod.mk.inj hcall).2.symm⟩
            · exact ⟨u, rfl, Or.inl (Prod.mk.inj hcall).2.symm⟩
    · next hrun =>
      refine Or.inr ⟨Bool.eq_false_iff.mpr hrun, ?_⟩
      split at h
      · cases h
      · exact Or.inr (Prod.mk.inj h).2.symm
      · exact Or.inr (Prod.mk.inj h).2.symm
      · exact Or.inl (Prod.mk.inj h).2.symm

/-- Marking a function that had no entry unsafe if imported keeps the new entries
clean. -/
theorem CleanAdd.markUnsafeIfImported {st st' : AnalysisState} {func : ModuleName}
    (h : CleanAdd st st') (hst : st.safety func = none) :
    CleanAdd st (st'.markUnsafeIfImported func) := by
  intro n fi hn
  rw [AnalysisState.safety_markUnsafeIfImported] at hn
  split at hn
  · right
    cases hn
    cases hfunc : st'.safety func with
    | none =>
      refine ⟨?_, ?_⟩ <;> simp [FunctionSafetyInfo.new]
    | some fi =>
      rcases h func fi hfunc with hold | hclean
      · rw [hst] at hold
        cases hold
      · exact hclean.addIfImported
  · exact h n fi hn

/-- A walk that answers `true` records clean verdicts only. -/
theorem cleanAdd_checkCallBody {st' : AnalysisState}
    (hrun : info.checkCallBody fuel call st = (.ok true, st')) : CleanAdd st st' := by
  induction fuel generalizing call st st' with
  | zero => cases hrun
  | succ fuel ih =>
    cases hfunc : info.functions.get? call.func with
    | none =>
      rw [checkCallBody_of_no_function hfunc] at hrun
      cases hrun
      exact fun _ _ h => Or.inl h
    | some callModule =>
      cases hst : st.safety call.func with
      -- recorded before: the walk stops at the entry
      | some fi =>
        rw [checkCallBody_of_recorded hfunc hst] at hrun
        obtain ⟨-, rfl⟩ := Prod.mk.inj hrun
        intro n fi h
        rw [safety_enterBody] at h
        exact Or.inl h
      | none =>
        rw [checkCallBody_walk hfunc hst] at hrun
        rcases hloop : checkAll
            (info.runEffect (info.checkCallBody fuel) call callModule
              (crosses call callModule))
            (info.effectsOf call.func) (info.enterBody call st) with ⟨e | b, s⟩
        · rw [hloop] at hrun
          cases hrun
        · rw [hloop] at hrun
          obtain ⟨hb, rfl⟩ := Prod.mk.inj hrun
          obtain rfl := Except.ok.inj hb
          -- over the loop, by the hypothesis on the bodies it calls
          have hadd : CleanAdd st s := by
            refine checkAll_true (I := fun t => CleanAdd st t) ?_ ?_ hloop
            · intro eff _ t t' ht hr
              rcases runEffect_true hr with ⟨-, -, -, -, u, hsafe, hu⟩ | ⟨-, ht'⟩
              · have hsafety := checkCallSafety_true (I := fun t => CleanAdd st t)
                  (fun _ _ _ _ call' _ v v' hv hr => hv.trans (ih hr)) ht hsafe
                rcases hu with rfl | rfl
                · exact hsafety
                · have hread : CleanAdd st (u.read (info.dispatchedName eff)) := hsafety
                  exact hread.markUnsafeIfImported hst
              · rcases ht' with rfl | rfl
                · exact ht
                · exact ht.markUnsafeIfImported hst
            · intro n fi h
              rw [safety_enterBody] at h
              exact Or.inl h
          split
          · intro n fi h
            rw [AnalysisState.safety_markSafe] at h
            split at h
            · cases h
              exact Or.inr clean_new_empty
            · exact hadd n fi h
          · exact hadd

/-- A function whose walk answers `true` has a clean verdict. -/
theorem clean_of_checkCallBody {st' : AnalysisState}
    (hkey : hasKey info.functions call.func = true)
    (hrun : info.checkCallBody fuel call st = (.ok true, st')) :
    ∃ fi, st'.safety call.func = some fi ∧ Clean fi := by
  obtain ⟨fi, hfi⟩ := Option.isSome_iff_exists.mp (isSome_checkCallBody hkey hrun)
  refine ⟨fi, hfi, ?_⟩
  rcases cleanAdd_checkCallBody hrun call.func fi hfi with hold | hclean
  · cases fuel with
    -- the entry was there before, and was read for the answer
    | zero => cases hrun
    | succ fuel =>
      obtain ⟨callModule, hfunc⟩ := Option.isSome_iff_exists.mp hkey
      rw [checkCallBody_of_recorded hfunc hold] at hrun
      exact clean_of_verdictAnswer (Except.ok.inj (Prod.mk.inj hrun).1)
  · exact hclean

end ProjectInfo

end Lifeguard
