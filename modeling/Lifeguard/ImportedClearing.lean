import Lifeguard.PromotionRun
import Lifeguard.SafetyResolver

/-!
# `UnsafeIfImported` across modules

`UnsafeIfImported` means safe within the module that defines the function. Promotion
unions such a verdict into a caller of another module, where the resolver then reads it
as the caller's own: an error may clear in the caller's module although the callee's
module is a different one. This module says exactly when that happens
(`never_cleared_iff`).

`PromotedAcross` is the situation: a promoted function one of whose callees is an
`UnsafeIfImported` function of another module.
-/

namespace Lifeguard

open Lib

/-! ## Errors that reach a function -/

namespace SafetyResolver

/-- The resolver has the constructor record of the class `K`. -/
def HasRecord (self : SafetyResolver) (K : ModuleName) (recorded : ConstructorCallees) :
    Prop :=
  (self.constructorCallees.bind fun table => table.get? K) = some recorded

/-- The record of the class `K` has the function `(m, n)` among its callees. -/
def Includes (self : SafetyResolver) (m : ModuleName) (n : Str) (K : ModuleName)
    (recorded : ConstructorCallees) : Prop :=
  (∃ owner method localName, (owner, method) ∈ recorded.iter K ∧
      self.splitAtModule owner = some (m, localName) ∧ appendStr localName method = n) ∨
    ∃ callee ∈ recorded.extra, self.splitAtModule callee = some (m, n)

/-- The error names the function `(m, n)`, or a class whose record includes it. -/
def Concerns (self : SafetyResolver) (m : ModuleName) (n : Str) (error : SafetyError) :
    Prop :=
  self.splitAtModule (trimCalls error.metadata) = some (m, n) ∨
    ∃ recorded, self.HasRecord (trimCalls error.metadata) recorded ∧
      self.Includes m n (trimCalls error.metadata) recorded

/-- No error that concerns `(m, n)` clears, whatever the erroring module. -/
def NeverClears (self : SafetyResolver) (m : ModuleName) (n : Str) : Prop :=
  ∀ caller error, self.Concerns m n error → self.clears caller error = false

/-- A recorded callee that is neither `Safe` nor an `UnsafeIfImported` function of
`caller`. -/
def Blocks (self : SafetyResolver) (caller : ModuleName)
    (p : ModuleName × FunctionSafety) : Prop :=
  p.2 ≠ ∅ ∧ (p.2 = {.unsafeIfImported} →
    ∀ localName, self.splitAtModule p.1 ≠ some (caller, localName))

theorem calleeVerdictClears_eq_false {self : SafetyResolver} {caller : ModuleName}
    {p : ModuleName × FunctionSafety} :
    self.calleeVerdictClears p.2 caller p.1 = false ↔ self.Blocks caller p := by
  unfold calleeVerdictClears Blocks
  split
  · next h => simp [h]
  · next h =>
    simp only [Bool.and_eq_false_iff, decide_eq_false_iff_not, ne_eq, h, not_false_eq_true,
      true_and]
    cases hs : self.splitAtModule p.1 with
    | none => simp
    | some q =>
      obtain ⟨defining, l⟩ := q
      simp only [Option.any_some, decide_eq_false_iff_not, Option.some.injEq, Prod.mk.injEq,
        not_and]
      constructor
      · rintro (hv | hd) hv' localName hdef
        · exact absurd hv' hv
        · exact absurd hdef hd
      · intro hall
        by_cases hv : p.2 = {.unsafeIfImported}
        · exact Or.inr fun hdef => hall hv l hdef rfl
        · exact Or.inl hv

theorem mem_selected {mask : BitVec 8} {baseBit : Nat} {methods : List Str} {method : Str}
    (h : method ∈ ConstructorCallees.selected mask baseBit methods) : mask ≠ 0 := by
  unfold ConstructorCallees.selected at h
  obtain ⟨p, hp, -⟩ := List.mem_map.mp h
  have hbit := (List.mem_filter.mp hp).2
  rintro rfl
  simp at hbit

/-- A record that names a callee is not empty. -/
theorem Includes.not_isEmpty {self : SafetyResolver} {m : ModuleName} {n : Str}
    {K : ModuleName} {recorded : ConstructorCallees} (h : self.Includes m n K recorded) :
    recorded.isEmpty = false := by
  unfold ConstructorCallees.isEmpty
  rw [Bool.and_eq_false_iff]
  rcases h with ⟨owner, method, -, hmem, -⟩ | ⟨callee, hmem, -⟩
  · left
    rw [decide_eq_false_iff_not]
    unfold ConstructorCallees.iter at hmem
    rcases List.mem_append.mp hmem with hmem | hmem
    · obtain ⟨_, -, hmem⟩ := List.mem_flatMap.mp hmem
      obtain ⟨_, hsel, -⟩ := List.mem_map.mp hmem
      exact mem_selected hsel
    · obtain ⟨_, hsel, -⟩ := List.mem_map.mp hmem
      exact mem_selected hsel
  · right
    cases hx : recorded.extra with
    | nil =>
      rw [hx] at hmem
      cases hmem
    | cons _ _ => rfl

/-- A nonempty record decides: it clears unless one of its callees blocks. -/
theorem recordedConstructorClearsAll_of_record {self : SafetyResolver} {K : ModuleName}
    {recorded : ConstructorCallees} (hrec : self.HasRecord K recorded)
    (hne : recorded.isEmpty = false) (caller : ModuleName) :
    self.recordedConstructorClearsAll K caller =
      some ((self.recordedVerdicts K recorded).all fun p =>
        self.calleeVerdictClears p.2 caller p.1) := by
  unfold recordedConstructorClearsAll
  unfold HasRecord at hrec
  rw [hrec, Option.bind_some, hne]
  rfl

theorem all_clears_eq_false {self : SafetyResolver} {caller : ModuleName}
    {ps : List (ModuleName × FunctionSafety)} :
    (ps.all fun p => self.calleeVerdictClears p.2 caller p.1) = false ↔
      ∃ p ∈ ps, self.Blocks caller p := by
  simp only [List.all_eq_false, Bool.not_eq_true, calleeVerdictClears_eq_false]

/-- The kinds a constructor record decides. -/
def RecordKind (kind : ErrorKind) : Prop :=
  kind = .unsafeFunctionCall ∨ kind = .unknownFunctionCall ∨
    kind = .unsafeDecoratorCall ∨ kind = .unknownDecoratorCall

theorem recordedConstructorClears_of_kind {self : SafetyResolver} {error : SafetyError}
    (h : RecordKind error.kind) (caller : ModuleName) :
    self.recordedConstructorClears caller error =
      self.recordedConstructorClearsAll (trimCalls error.metadata) caller := by
  unfold recordedConstructorClears
  rcases h with h | h | h | h <;> rw [h]

theorem recordedConstructorClears_of_other {self : SafetyResolver} {error : SafetyError}
    (h : ¬RecordKind error.kind) (caller : ModuleName) :
    self.recordedConstructorClears caller error = none := by
  unfold recordedConstructorClears
  cases hk : error.kind <;> simp_all [RecordKind]

theorem isCallVerifiedSafe_of_noUnqualified {self : SafetyResolver} {name : Str}
    (h : self.isCallVerifiedSafeNoUnqualified name = true) :
    self.isCallVerifiedSafe name = true := by
  unfold isCallVerifiedSafeNoUnqualified at h
  unfold isCallVerifiedSafe
  cases hs : self.splitAtModule name with
  | none =>
    rw [hs] at h
    cases h
  | some k =>
    rw [hs] at h
    exact h

/-- Outside the record's kinds the check is the plain one, or the stricter one that no
bare name passes. -/
theorem isErrorVerifiedSafe_of_other {self : SafetyResolver} {error : SafetyError}
    (h : ¬RecordKind error.kind) (hsafe : self.isErrorVerifiedSafe error = true) :
    self.isCallVerifiedSafe (trimCalls error.metadata) = true := by
  have hdeco : (error.parameterizedDecorator && error.isDecoratorCall) = false := by
    unfold SafetyError.isDecoratorCall
    cases hk : error.kind <;> simp_all [RecordKind]
  unfold isErrorVerifiedSafe at hsafe
  rw [hdeco] at hsafe
  cases hk : error.kind <;> rw [hk] at hsafe <;>
    first
    | exact hsafe
    | exact isCallVerifiedSafe_of_noUnqualified hsafe

/-- A function whose own entry is not `Safe` passes no check under its qualified name. -/
theorem isErrorVerifiedSafe_of_own {self : SafetyResolver} {error : SafetyError}
    {m : ModuleName} {n : Str} {v : FunctionSafety}
    (hsplit : self.splitAtModule (trimCalls error.metadata) = some (m, n))
    (hown : self.ownVerdict m n = some v) (hv : v ≠ ∅) :
    self.isErrorVerifiedSafe error = false := by
  have hqualified : self.qualifiedSafe m n = false := by
    unfold qualifiedSafe
    rw [hown]
    simpa [FunctionSafety.isSafe] using hv
  -- a decorator has more to pass than a call
  have hdecorator : self.decoratorSafeIn m n = false := by
    unfold ownVerdict getFunctionSafety at hown
    unfold decoratorSafeIn
    cases hm : self.byModule.get? m with
    | none => rfl
    | some fs =>
      rw [hm] at hown
      have hlookup : lookupInSafetyMap n fs = false := by
        obtain ⟨info, hget, rfl⟩ := Option.map_eq_some_iff.mp hown
        unfold lookupInSafetyMap
        rw [show fs.get? n = some info from hget]
        simpa [FunctionSafety.isSafe] using hv
      simp [lookupDecoratorInSafetyMap, hlookup]
  have hcall : self.isCallVerifiedSafe (trimCalls error.metadata) = false := by
    unfold isCallVerifiedSafe
    rw [hsplit]
    exact hqualified
  have hcallNo : self.isCallVerifiedSafeNoUnqualified (trimCalls error.metadata) = false := by
    unfold isCallVerifiedSafeNoUnqualified
    rw [hsplit]
    exact hqualified
  have hdeco : self.isDecoratorCallVerifiedSafe (trimCalls error.metadata) = false := by
    unfold isDecoratorCallVerifiedSafe
    rw [hsplit]
    exact hdecorator
  have hdecoNo :
      self.isDecoratorCallVerifiedSafeNoUnqualified (trimCalls error.metadata) = false := by
    unfold isDecoratorCallVerifiedSafeNoUnqualified
    rw [hsplit]
    exact hdecorator
  unfold isErrorVerifiedSafe
  cases (error.parameterizedDecorator && error.isDecoratorCall) <;> cases error.kind <;>
    first
    | exact hcall
    | exact hcallNo
    | exact hdeco
    | exact hdecoNo

end SafetyResolver

/-! ## Promotion over a module boundary -/

/-- The function `(m, n)` is promoted although its callee `d` is the `UnsafeIfImported`
function `(m', l)` of another module. -/
structure PromotedAcross (P : PromotionInput) (m : ModuleName) (n : Str) (d : ModuleName)
    (m' : ModuleName) (l : Str) : Prop where
  promoted : (m, n) ∈ (promoteFixpoint P).promoted
  waits : ∃ info, getFunctionSafety P.functionSafety m n = some info ∧
    d ∈ info.missingDepCallees
  splits : (enclosingModule d fun m => decide (m ∈ P.moduleNames)) = some (m', l)
  imported : ∃ info, getFunctionSafety (promoteFixpoint P).functionSafety m' l = some info ∧
    info.verdict = {.unsafeIfImported}
  across : m' ≠ m

/-- Such a function ends `UnsafeIfImported`, whoever its callee belongs to. -/
theorem PromotedAcross.verdict {P : PromotionInput} {m : ModuleName} {n : Str}
    {d : ModuleName} {m' : ModuleName} {l : Str} (h : PromotedAcross P m n d m' l) :
    ∃ info, getFunctionSafety (promoteFixpoint P).functionSafety m n = some info ∧
      info.verdict = {.unsafeIfImported} := by
  obtain ⟨info, v, hentry⟩ := (promoteFixpoint_inv P).promotedEntry m n h.promoted
  refine ⟨_, hentry.now, Finset.Subset.antisymm hentry.nonBlocking ?_⟩
  obtain ⟨info₀, hget, hd⟩ := h.waits
  rw [hentry.initial] at hget
  cases hget
  obtain ⟨infol, hgetl, hvl⟩ := h.imported
  have hclears := hentry.callees d hd
  rw [splitCallee_eq, h.splits] at hclears
  obtain ⟨infol', hgetl', -, hle⟩ := hclears
  rw [hgetl] at hgetl'
  cases hgetl'
  rw [← hvl]
  exact hle

/-- A resolver over the modules and the final verdicts of a promotion. -/
structure ResolvesOver (P : PromotionInput) (R : SafetyResolver) : Prop where
  modules : R.modules = P.moduleNames
  byModule : R.byModule = (promoteFixpoint P).functionSafety

/-- The state of the resolver in which nothing that concerns `(m, n)` can clear: every
record that includes it also names a callee that blocks `m`, and its class passes no
plain lookup; and if `(m, n)` is itself a class with a record, that record names a
blocking callee for every caller. -/
structure EveryRecordBlocks (R : SafetyResolver) (m : ModuleName) (n : Str) : Prop where
  records : ∀ K recorded, trimCalls K = K → R.HasRecord K recorded →
    R.Includes m n K recorded → ∃ p ∈ R.recordedVerdicts K recorded, R.Blocks m p
  plain : ∀ K recorded, trimCalls K = K → R.HasRecord K recorded →
    R.Includes m n K recorded → R.isCallVerifiedSafe K = false
  own : ∀ K recorded, trimCalls K = K → R.splitAtModule K = some (m, n) →
    R.HasRecord K recorded → recorded.isEmpty = false →
      ∀ caller, ∃ p ∈ R.recordedVerdicts K recorded, R.Blocks caller p

/-- A recorded callee that is the `UnsafeIfImported` function `(m, n)` blocks every
caller but `m`. -/
theorem blocks_of_includes {R : SafetyResolver} {m : ModuleName} {n : Str}
    {K : ModuleName} {recorded : ConstructorCallees}
    (hown : R.ownVerdict m n = some {.unsafeIfImported}) (h : R.Includes m n K recorded)
    {caller : ModuleName} (hne : caller ≠ m) :
    ∃ p ∈ R.recordedVerdicts K recorded, R.Blocks caller p := by
  rcases h with ⟨owner, method, l, hmem, hsplit, rfl⟩ | ⟨callee, hmem, hsplit⟩
  · refine ⟨(owner, R.calleeVerdict owner method),
      List.mem_append_left _ (List.mem_map.mpr ⟨_, hmem, rfl⟩), ?_⟩
    have hv : R.calleeVerdict owner method = {.unsafeIfImported} := by
      unfold SafetyResolver.calleeVerdict
      rw [hsplit, Option.bind_some]
      show (R.ownVerdict m (appendStr l method)).getD _ = _
      rw [hown]
      rfl
    refine ⟨?_, fun _ localName heq => ?_⟩
    · show R.calleeVerdict owner method ≠ ∅
      rw [hv]
      exact Finset.singleton_ne_empty _
    · -- the callee is owned by its own module, and not by the caller
      have hsome : R.splitAtModule owner = some (caller, localName) := heq
      rw [hsplit] at hsome
      cases hsome
      exact hne rfl
  · refine ⟨(callee, R.recordedCalleeVerdict callee),
      List.mem_append_right _ (List.mem_map.mpr ⟨_, hmem, rfl⟩), ?_⟩
    have hv : R.recordedCalleeVerdict callee = {.unsafeIfImported} := by
      unfold SafetyResolver.recordedCalleeVerdict
      rw [hsplit, Option.bind_some]
      show (R.ownVerdict m n).getD _ = _
      rw [hown]
      rfl
    refine ⟨?_, fun _ localName heq => ?_⟩
    · show R.recordedCalleeVerdict callee ≠ ∅
      rw [hv]
      exact Finset.singleton_ne_empty _
    · have hsome : R.splitAtModule callee = some (caller, localName) := heq
      rw [hsplit] at hsome
      cases hsome
      exact hne rfl

theorem trimCallsRev_idem (s : Str) : trimCallsRev (trimCallsRev s) = trimCallsRev s := by
  induction s using trimCallsRev.induct with
  | case1 rest ih =>
    rw [trimCallsRev]
    exact ih
  | case2 s h =>
    have hs : trimCallsRev s = s := by
      unfold trimCallsRev
      split
      · next rest => exact absurd rfl (h rest)
      · rfl
    rw [hs, hs]

/-- The name an error carries has no trailing `()` left. -/
theorem trimCalls_idem (s : Str) : trimCalls (trimCalls s) = trimCalls s := by
  unfold trimCalls
  rw [List.reverse_reverse, trimCallsRev_idem]

/-- A function promoted over a module boundary is never cleared by the resolver exactly
when every record that reaches it names another callee that blocks. -/
theorem never_cleared_iff {P : PromotionInput} {R : SafetyResolver} {m : ModuleName}
    {n : Str} {d : ModuleName} {m' : ModuleName} {l : Str}
    (h : PromotedAcross P m n d m' l) (hR : ResolvesOver P R) :
    R.NeverClears m n ↔ EveryRecordBlocks R m n := by
  have hown : R.ownVerdict m n = some {.unsafeIfImported} := by
    obtain ⟨info, hget, hv⟩ := h.verdict
    unfold SafetyResolver.ownVerdict
    rw [hR.byModule, hget, ← hv]
    rfl
  constructor
  · intro hnever
    -- each clause speaks of one error: a call of the class from `m`, a method call
    -- under the class's name, and a call of `(m, n)` itself
    refine ⟨fun K recorded hK hrec hinc => ?_, fun K recorded hK hrec hinc => ?_,
      fun K recorded hK hsplit hrec hne caller => ?_⟩
    · have hfalse := hnever m { kind := .unsafeFunctionCall, metadata := K }
        (Or.inr ⟨recorded, by rw [hK]; exact hrec, by rw [hK]; exact hinc⟩)
      unfold SafetyResolver.clears at hfalse
      rw [SafetyResolver.recordedConstructorClears_of_kind (Or.inl rfl), hK,
        SafetyResolver.recordedConstructorClearsAll_of_record hrec hinc.not_isEmpty] at hfalse
      exact SafetyResolver.all_clears_eq_false.mp hfalse
    · have hfalse := hnever m { kind := .unsafeMethodCall, metadata := K }
        (Or.inr ⟨recorded, by rw [hK]; exact hrec, by rw [hK]; exact hinc⟩)
      unfold SafetyResolver.clears at hfalse
      rw [SafetyResolver.recordedConstructorClears_of_other
        (by simp [SafetyResolver.RecordKind])] at hfalse
      rw [← hK]
      exact hfalse
    · have hfalse := hnever caller { kind := .unsafeFunctionCall, metadata := K }
        (Or.inl (by rw [hK]; exact hsplit))
      unfold SafetyResolver.clears at hfalse
      rw [SafetyResolver.recordedConstructorClears_of_kind (Or.inl rfl), hK,
        SafetyResolver.recordedConstructorClearsAll_of_record hrec hne] at hfalse
      exact SafetyResolver.all_clears_eq_false.mp hfalse
  · intro hblocks caller error hcon
    have hK := trimCalls_idem error.metadata
    unfold SafetyResolver.clears
    by_cases hkind : SafetyResolver.RecordKind error.kind
    · rw [SafetyResolver.recordedConstructorClears_of_kind hkind]
      rcases hcon with hsplit | ⟨recorded, hrec, hinc⟩
      · -- the function itself: its record decides when there is one, else its own entry
        by_cases hsome : ∃ recorded, R.HasRecord (trimCalls error.metadata) recorded ∧
            recorded.isEmpty = false
        · obtain ⟨recorded, hrec, hne⟩ := hsome
          rw [SafetyResolver.recordedConstructorClearsAll_of_record hrec hne]
          exact SafetyResolver.all_clears_eq_false.mpr
            (hblocks.own _ recorded hK hsplit hrec hne caller)
        · have hnone : R.recordedConstructorClearsAll (trimCalls error.metadata) caller
              = none := by
            unfold SafetyResolver.recordedConstructorClearsAll
            rw [Option.bind_eq_none_iff]
            intro recorded hrec
            rw [if_pos]
            by_contra hne
            exact hsome ⟨recorded, hrec, Bool.eq_false_iff.mpr hne⟩
          rw [hnone]
          exact SafetyResolver.isErrorVerifiedSafe_of_own hsplit hown
            (Finset.singleton_ne_empty _)
      · rw [SafetyResolver.recordedConstructorClearsAll_of_record hrec hinc.not_isEmpty]
        refine SafetyResolver.all_clears_eq_false.mpr ?_
        by_cases hcaller : caller = m
        · rw [hcaller]
          exact hblocks.records _ recorded hK hrec hinc
        · exact blocks_of_includes hown hinc hcaller
    · rw [SafetyResolver.recordedConstructorClears_of_other hkind]
      show R.isErrorVerifiedSafe error = false
      rcases hcon with hsplit | ⟨recorded, hrec, hinc⟩
      · exact SafetyResolver.isErrorVerifiedSafe_of_own hsplit hown
          (Finset.singleton_ne_empty _)
      · rw [Bool.eq_false_iff]
        intro hsafe
        have hplain := hblocks.plain _ recorded hK hrec hinc
        rw [SafetyResolver.isErrorVerifiedSafe_of_other hkind hsafe] at hplain
        cases hplain

/-- A class of `m` whose constructor waits for the `UnsafeIfImported` function `n.g`. -/
def importedConstructor : PromotionInput where
  moduleNames := {fromStr "m", fromStr "n"}
  functionSafety := Table.ofList
    [(fromStr "m", Table.ofList
      [(fromStr "C.__init__", FunctionSafetyInfo.unsafeMissingDep (fromStr "n.g"))]),
     (fromStr "n", Table.ofList
      [(fromStr "g", FunctionSafetyInfo.new {.unsafeIfImported})])]
  neededUnqualified := ∅
  search := .probeStr

/-- The resolver over `importedConstructor` that knows `m.C` to run its own `__init__`. -/
def importedConstructorResolver : SafetyResolver where
  modules := importedConstructor.moduleNames
  byModule := (promoteFixpoint importedConstructor).functionSafety
  constructorCallees := some (Table.ofList [(fromStr "m.C", { mask := 0b010000 })])

theorem importedConstructor_promotedAcross :
    PromotedAcross importedConstructor (fromStr "m") (fromStr "C.__init__")
      (fromStr "n.g") (fromStr "n") (fromStr "g") :=
  ⟨by decide +kernel,
    ⟨FunctionSafetyInfo.unsafeMissingDep (fromStr "n.g"), by decide +kernel, by decide⟩,
    by decide +kernel,
    ⟨FunctionSafetyInfo.new {.unsafeIfImported}, by decide +kernel, rfl⟩, by decide⟩

theorem never_cleared_iff_importedConstructor :
    importedConstructorResolver.NeverClears (fromStr "m") (fromStr "C.__init__") ↔
      EveryRecordBlocks importedConstructorResolver (fromStr "m") (fromStr "C.__init__") :=
  never_cleared_iff importedConstructor_promotedAcross ⟨rfl, rfl⟩

/-- The call `m.C()` clears in `m`, although the constructor reaches an
`UnsafeIfImported` function of `n`. -/
theorem importedConstructor_clears :
    PromotedAcross importedConstructor (fromStr "m") (fromStr "C.__init__")
        (fromStr "n.g") (fromStr "n") (fromStr "g") ∧
      ResolvesOver importedConstructor importedConstructorResolver ∧
      ¬importedConstructorResolver.NeverClears (fromStr "m") (fromStr "C.__init__") := by
  refine ⟨importedConstructor_promotedAcross, ⟨rfl, rfl⟩, fun hnever => ?_⟩
  have hclears : importedConstructorResolver.clears (fromStr "m")
      { kind := .unsafeFunctionCall, metadata := fromStr "m.C" } = true := by
    decide +kernel
  have hfalse := hnever (fromStr "m") { kind := .unsafeFunctionCall, metadata := fromStr "m.C" }
    (Or.inr ⟨{ mask := 0b010000 }, by unfold SafetyResolver.HasRecord; decide +kernel,
      Or.inl ⟨fromStr "m.C", fromStr "__init__", fromStr "C", by decide +kernel,
        by decide +kernel, by decide⟩⟩)
  rw [hclears] at hfalse
  cases hfalse

end Lifeguard
