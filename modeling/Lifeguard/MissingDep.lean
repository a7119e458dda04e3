import Lifeguard.PromotionRun

/-!
# The missing-dependency concern

A function whose map phase met an unresolved callee carries `UnsafeMissingDep` and the
callee's name. This module says when `resolveProgram` may take that concern away:

- `resolves_of_cleared`: what stands behind a function that ends with neither
  `UnsafeMissingDep` nor `Unsafe`, callee by callee;
- `dotted_callee_blocks_iff`: when a dotted name that no merged module is a prefix of
  keeps blocking the function that waits for it.
-/

namespace Lifeguard

open Lib

/-! ## Entries through the phases -/

/-- Promotion neither adds nor removes an entry. -/
theorem getFunctionSafety_promote_eq_none {P : PromotionInput} {st : PromotionState}
    (hinv : PromotionInv P st) {m : ModuleName} {n : Str} :
    getFunctionSafety st.functionSafety m n = none ↔
      getFunctionSafety P.functionSafety m n = none := by
  by_cases hp : (m, n) ∈ st.promoted
  · obtain ⟨info, v, h⟩ := hinv.promotedEntry m n hp
    rw [h.now, h.initial]
    simp
  · rw [hinv.unpromoted m n hp]

/-! ## What stands behind a cleared function -/

section Cleared

variable (moduleNames : Finset ModuleName) (fs : FunctionSafetyMap)
  (candidates : List (ModuleName × List MutationCandidate)) (needed : Finset Str)
  (search : NameSearch)

/-- The verdicts `resolve_program` leaves. -/
def resolvedSafety : FunctionSafetyMap :=
  (resolveProgram moduleNames fs candidates needed search).functionSafety

/-- The entry `(m, n)` starts as `info`, recoverable, and ends with no concern but
`UnsafeIfImported`. -/
structure Cleared (m : ModuleName) (n : Str) (info : FunctionSafetyInfo) : Prop where
  initial : getFunctionSafety fs m n = some info
  missingDep : Concern.unsafeMissingDep ∈ info.verdict
  notHard : Concern.hardUnsafe ∉ info.verdict
  final : ∃ info', getFunctionSafety
    (resolvedSafety moduleNames fs candidates needed search) m n = some info' ∧
      Concern.unsafeMissingDep ∉ info'.verdict ∧ Concern.hardUnsafe ∉ info'.verdict

/-- The callee `d` resolves to a `Safe` or `UnsafeIfImported` entry: under the
longest-module-prefix lookup, or as a bare name some merged module defines so. -/
def ResolvesClear (moduleNames : Finset ModuleName) (fs : FunctionSafetyMap) (d : Str) :
    Prop :=
  (∃ info, ModuleView.lookupCallee ⟨moduleNames, fs⟩ d = some info ∧
      NonBlocking info.verdict) ∨
    ('.' ∉ d ∧ ∃ m ∈ moduleNames, ∃ info, getFunctionSafety fs m d = some info ∧
      NonBlocking info.verdict)

/-- A mutation candidate of the function `(m, n)` records `d` as its callee. -/
def CandidateAt (m : ModuleName) (n : Str) (d : ModuleName) : Prop :=
  ∃ cand, (m, cand) ∈ candidatePairs candidates ∧ cand.site = .function n ∧
    cand.callee = d

variable {moduleNames fs candidates needed search}

/-- No candidate of a cleared function was confirmed. -/
theorem Cleared.confirmedAt_eq_empty {m : ModuleName} {n : Str}
    {info : FunctionSafetyInfo}
    (h : Cleared moduleNames fs candidates needed search m n info) :
    confirmedAt (candidatePairs candidates) moduleNames fs m n = ∅ := by
  by_contra hne
  obtain ⟨info', hfinal, -, hnotHard⟩ := h.final
  set P := promotionInput moduleNames
    (applyMutationCandidates candidates moduleNames fs) needed search with hP
  have hinv := promoteFixpoint_inv P
  -- the confirmation leaves `Unsafe`, which neither later phase takes away
  have hmid : ∃ info₂, getFunctionSafety P.functionSafety m n = some info₂ ∧
      Concern.hardUnsafe ∈ info₂.verdict := by
    rw [hP]
    show ∃ info₂, getFunctionSafety (applyMutationCandidates _ _ _).functionSafety m n = _ ∧ _
    rw [getFunctionSafety_applyMutationCandidates, getFunctionSafety_confirmCandidates,
      h.initial]
    exact ⟨_, rfl, hardUnsafe_mem_dischargeAll.mpr (hardUnsafe_mem_confirmAll hne info)⟩
  obtain ⟨info₂, hget, hhard⟩ := hmid
  by_cases hp : (m, n) ∈ (promoteFixpoint P).promoted
  · obtain ⟨info₀, v, hentry⟩ := hinv.promotedEntry m n hp
    rw [hentry.initial] at hget
    cases hget
    exact hentry.promotable.notHard hhard
  · have hsame := hinv.unpromoted m n hp
    have : getFunctionSafety (promoteFixpoint P).functionSafety m n = some info' := hfinal
    rw [hsame, hget] at this
    cases this
    exact hnotHard hhard

/-- A callee discharged because it resolved `Safe` is `Safe` to the end; one discharged
because it did not resolve never does. -/
theorem lookup_of_discharged (needed : Finset Str) (search : NameSearch) {m : ModuleName} {n : Str} {d : ModuleName}
    (hd : d ∈ dischargedAt (candidatePairs candidates) moduleNames fs
      (confirmCandidates (candidatePairs candidates) moduleNames fs).functionSafety m n) :
    (∃ info, ModuleView.lookupCallee
        ⟨moduleNames, resolvedSafety moduleNames fs candidates needed search⟩ d = some info ∧
          info.verdict = ∅) ∨
      ModuleView.lookupCallee
        ⟨moduleNames, resolvedSafety moduleNames fs candidates needed search⟩ d = none := by
  obtain ⟨cand, -, -, -, -, hsafe⟩ := mem_dischargedAt.mp hd
  rw [lookupCallee_eq] at hsafe ⊢
  dsimp only at hsafe ⊢
  set P := promotionInput moduleNames
    (applyMutationCandidates candidates moduleNames fs) needed search with hP
  have hinv := promoteFixpoint_inv P
  cases hsplit : enclosingModule d fun m => decide (m ∈ moduleNames) with
  | none => exact Or.inr rfl
  | some k =>
    rw [hsplit] at hsafe
    show (∃ info, getFunctionSafety (promoteFixpoint P).functionSafety k.1 k.2 = some info ∧
      _) ∨ getFunctionSafety (promoteFixpoint P).functionSafety k.1 k.2 = none
    -- an entry may be missing when it is asked for, and then no later pass makes one
    cases hconf : getFunctionSafety
        (confirmCandidates (candidatePairs candidates) moduleNames fs).functionSafety
        k.1 k.2 with
    | none =>
      right
      rw [getFunctionSafety_promote_eq_none hinv, hP]
      show getFunctionSafety (applyMutationCandidates _ _ _).functionSafety k.1 k.2 = none
      rw [getFunctionSafety_applyMutationCandidates, hconf]
      rfl
    | some info₁ =>
      left
      have hv₁ : info₁.verdict = ∅ := hsafe info₁ hconf
      have hmid : ∃ info₂, getFunctionSafety P.functionSafety k.1 k.2 = some info₂ ∧
          info₂.verdict = ∅ := by
        rw [hP]
        show ∃ info₂, getFunctionSafety (applyMutationCandidates _ _ _).functionSafety
          k.1 k.2 = _ ∧ _
        rw [getFunctionSafety_applyMutationCandidates, hconf]
        refine ⟨_, rfl, ?_⟩
        -- a discharge removes concerns, so a safe entry stays safe
        have hsub := dischargeAll_verdict_subset
          (dischargedAt (candidatePairs candidates) moduleNames fs
            (confirmCandidates (candidatePairs candidates) moduleNames fs).functionSafety
            k.1 k.2) info₁
        rw [hv₁] at hsub
        exact Finset.subset_empty.mp hsub
      obtain ⟨info₂, hget, hv₂⟩ := hmid
      have hnb : NonBlocking info₂.verdict := hv₂ ▸ nonBlocking_empty
      exact ⟨info₂, keepsClear_promoteFixpoint P k.1 k.2 info₂ hget hnb, hv₂⟩

/-- Behind a function that `resolve_program` clears of `UnsafeMissingDep`, every initial
callee that is bare or has a merged module as a strict prefix resolves to a `Safe` or
`UnsafeIfImported` entry; or no entry answers for it and a mutation candidate of the same
function records it, which discharges it. -/
theorem resolves_of_cleared {m : ModuleName} {n : Str} {info : FunctionSafetyInfo}
    (h : Cleared moduleNames fs candidates needed search m n info) {d : ModuleName}
    (hd : d ∈ info.missingDepCallees)
    (hname : '.' ∉ d ∨ (enclosingModule d fun m => decide (m ∈ moduleNames)).isSome) :
    ResolvesClear moduleNames (resolvedSafety moduleNames fs candidates needed search) d ∨
      (ModuleView.lookupCallee
          ⟨moduleNames, resolvedSafety moduleNames fs candidates needed search⟩ d = none ∧
        CandidateAt candidates m n d) := by
  by_cases hdis : d ∈ dischargedAt (candidatePairs candidates) moduleNames fs
      (confirmCandidates (candidatePairs candidates) moduleNames fs).functionSafety m n
  · rcases lookup_of_discharged needed search hdis with
      ⟨infod, hget, hv⟩ | hnone
    · exact Or.inl (Or.inl ⟨infod, hget, hv ▸ nonBlocking_empty⟩)
    · obtain ⟨cand, hmem, hsite, hcallee, -⟩ := mem_dischargedAt.mp hdis
      exact Or.inr ⟨hnone, cand, hmem, hsite, hcallee⟩
  -- a callee that was not discharged still blocks when promotion starts
  left
  obtain ⟨info', hfinal, hnotMissing, -⟩ := h.final
  set P := promotionInput moduleNames
    (applyMutationCandidates candidates moduleNames fs) needed search with hP
  have hinv := promoteFixpoint_inv P
  have hmid : ∃ info₂, getFunctionSafety P.functionSafety m n = some info₂ ∧
      d ∈ info₂.missingDepCallees ∧ Concern.unsafeMissingDep ∈ info₂.verdict := by
    rw [hP]
    show ∃ info₂, getFunctionSafety (applyMutationCandidates _ _ _).functionSafety m n = _ ∧ _
    rw [getFunctionSafety_applyMutationCandidates, getFunctionSafety_confirmCandidates,
      h.initial, h.confirmedAt_eq_empty]
    refine ⟨_, rfl, ?_, ?_⟩
    · rw [confirmAll_empty, dischargeAll_missingDepCallees]
      exact Finset.mem_sdiff.mpr ⟨hd, hdis⟩
    · rw [confirmAll_empty, dischargeAll_verdict_of_mem hd hdis]
      exact h.missingDep
  obtain ⟨info₂, hget, hd₂, hmissing⟩ := hmid
  by_cases hp : (m, n) ∈ (promoteFixpoint P).promoted
  case neg =>
    have hsame : getFunctionSafety (promoteFixpoint P).functionSafety m n = some info' :=
      hfinal
    rw [hinv.unpromoted m n hp, hget] at hsame
    cases hsame
    exact absurd hmissing hnotMissing
  obtain ⟨info₀, v, hentry⟩ := hinv.promotedEntry m n hp
  rw [hentry.initial] at hget
  cases hget
  have hclear : CalleeIn moduleNames (clearSet (promoteFixpoint P).functionSafety) d :=
    (calleeClears_iff _).mp ((hentry.callees d hd₂).mono hentry.nonBlocking)
  unfold CalleeIn at hclear
  unfold ResolvesClear
  rw [lookupCallee_eq]
  dsimp only
  cases hsplit : enclosingModule d fun m => decide (m ∈ moduleNames) with
  | some k =>
    rw [hsplit] at hclear
    obtain ⟨infok, hgetk, hnb⟩ := hclear
    exact Or.inl ⟨infok, hgetk, hnb⟩
  | none =>
    rw [hsplit] at hclear hname
    obtain ⟨m', hm', infok, hgetk, hnb⟩ := hclear
    refine Or.inr ⟨?_, m', hm', infok, hgetk, hnb⟩
    rcases hname with hdot | hsome
    · exact hdot
    · cases hsome

end Cleared

/-- The verdicts of a program whose function `m.f` waits for `callee`. -/
def waitingProgram (callee : String) : FunctionSafetyMap :=
  Table.ofList
    [(fromStr "m", Table.ofList
      [(fromStr "f", FunctionSafetyInfo.unsafeMissingDep (fromStr callee))]),
     (fromStr "lib", Table.ofList [(fromStr "g", FunctionSafetyInfo.new ∅)])]

/-- A call in `m.f` that passes an imported object to `x.g`. -/
def unresolvedCall : List (ModuleName × List MutationCandidate) :=
  [(fromStr "m",
    [{ callee := fromStr "x.g", site := .function (fromStr "f"), argOffset := 0
       importedArgs := {} }])]

theorem resolves_of_cleared_lib :
    ResolvesClear {fromStr "m", fromStr "lib"}
        (resolvedSafety {fromStr "m", fromStr "lib"} (waitingProgram "lib.g") [] ∅ .probeStr)
        (fromStr "lib.g") ∨
      (ModuleView.lookupCallee ⟨{fromStr "m", fromStr "lib"},
          resolvedSafety {fromStr "m", fromStr "lib"} (waitingProgram "lib.g") [] ∅ .probeStr⟩
          (fromStr "lib.g") = none ∧
        CandidateAt [] (fromStr "m") (fromStr "f") (fromStr "lib.g")) := by
  have hcleared : Cleared {fromStr "m", fromStr "lib"} (waitingProgram "lib.g") [] ∅
      .probeStr (fromStr "m") (fromStr "f")
      (FunctionSafetyInfo.unsafeMissingDep (fromStr "lib.g")) :=
    ⟨by decide +kernel, by decide, by decide,
      { verdict := ∅, missingDepCallees := {fromStr "lib.g"} },
      by decide +kernel, by decide, by decide⟩
  exact resolves_of_cleared hcleared (by decide) (Or.inr (by decide +kernel))

/-- A callee that resolves nowhere does not keep its caller blocked when a candidate of
the caller records it: the candidate is discharged. -/
theorem cleared_with_unresolved_callee :
    Cleared {fromStr "m", fromStr "lib"} (waitingProgram "x.g") unresolvedCall ∅ .probeStr (fromStr "m")
        (fromStr "f") (FunctionSafetyInfo.unsafeMissingDep (fromStr "x.g")) ∧
      fromStr "x.g" ∈
        (FunctionSafetyInfo.unsafeMissingDep (fromStr "x.g")).missingDepCallees ∧
      ¬ResolvesClear {fromStr "m", fromStr "lib"}
        (resolvedSafety {fromStr "m", fromStr "lib"} (waitingProgram "x.g") unresolvedCall ∅ .probeStr)
        (fromStr "x.g") := by
  refine ⟨⟨by decide +kernel, by decide, by decide, FunctionSafetyInfo.new ∅,
    by decide +kernel, by decide, by decide⟩, by decide, ?_⟩
  rintro (⟨info, hget, -⟩ | ⟨hdot, -⟩)
  · have hnone : ModuleView.lookupCallee ⟨{fromStr "m", fromStr "lib"}, resolvedSafety {fromStr "m", fromStr "lib"}
        (waitingProgram "x.g") unresolvedCall ∅ .probeStr⟩ (fromStr "x.g") = none := by
      decide +kernel
    rw [hnone] at hget
    cases hget
  · exact hdot (by decide)

/-! ## Dotted names without a merged prefix -/

/-- A name that contains a dot but has no merged module among its strict prefixes. -/
structure DottedUnmerged (moduleNames : Finset ModuleName) (d : Str) : Prop where
  dotted : '.' ∈ d
  unmerged : (enclosingModule d fun m => decide (m ∈ moduleNames)) = none

/-- The entry `(m, n)` is one that promotion might clear. -/
structure IsCandidate (P : PromotionInput) (m : ModuleName) (n : Str)
    (info : FunctionSafetyInfo) : Prop where
  merged : m ∈ P.moduleNames
  entry : getFunctionSafety P.functionSafety m n = some info
  promotable : Promotable info

/-- The callee `d` of the entry `(m, n)` stays unresolved in every round that looks at
it, and the entry keeps `UnsafeMissingDep`. -/
structure KeepsBlocking (P : PromotionInput) (m : ModuleName) (n : Str)
    (info : FunctionSafetyInfo) (d : Str) : Prop where
  unresolved : IsCandidate P m n info → ∀ fuel,
    (P.stateAfter fuel).resolve (splitCallee P.moduleNames P.search d) = none
  keeps : ∃ info', getFunctionSafety (promoteFixpoint P).functionSafety m n = some info' ∧
    (Concern.unsafeMissingDep ∈ info.verdict → Concern.unsafeMissingDep ∈ info'.verdict)

/-- Some merged module has an entry named exactly `d` that starts `Safe` or
`UnsafeIfImported`, or that promotion can bring there. -/
def SomeEntryClears (P : PromotionInput) (d : Str) : Prop :=
  ∃ m ∈ P.moduleNames, (m, d) ∈ (clears P).lfp

theorem IsCandidate.candidate {P : PromotionInput} {m : ModuleName} {n : Str}
    {info : FunctionSafetyInfo} (h : IsCandidate P m n info) {d : ModuleName}
    (hd : d ∈ info.missingDepCallees) :
    ∃ c ∈ P.candidates, splitCallee P.moduleNames P.search d ∈ c.callees := by
  obtain ⟨c, hcand⟩ : ∃ c, promotionCandidate (splitCallee P.moduleNames P.search) m n info
      = some c := ⟨_, promotionCandidate_eq_some.mpr ⟨h.promotable, rfl⟩⟩
  have hceq := (promotionCandidate_eq_some.mp hcand).2
  have hkey : c.moduleName = m ∧ c.name = n := by
    rw [hceq]
    exact ⟨rfl, rfl⟩
  refine ⟨c, PromotionInput.mem_candidates.mpr ?_, ?_⟩
  · rw [hkey.1, hkey.2]
    exact ⟨h.merged, info, h.entry, hcand⟩
  · rw [hceq]
    exact Finset.mem_image_of_mem _ hd

/-- An entry that is no promotion candidate is left as it is. -/
theorem promoteFixpoint_of_not_candidate {P : PromotionInput} {m : ModuleName} {n : Str}
    {info : FunctionSafetyInfo} (hget : getFunctionSafety P.functionSafety m n = some info)
    (h : ¬IsCandidate P m n info) :
    getFunctionSafety (promoteFixpoint P).functionSafety m n = some info := by
  have hinv := promoteFixpoint_inv P
  by_cases hp : (m, n) ∈ (promoteFixpoint P).promoted
  · obtain ⟨info₀, v, hentry⟩ := hinv.promotedEntry m n hp
    have heq := hentry.initial
    rw [hget] at heq
    cases heq
    exact absurd ⟨hentry.merged, hget, hentry.promotable⟩ h
  · rw [hinv.unpromoted m n hp, hget]

/-- Such a callee of a promotion candidate stands for any merged module's entry of its
very name. -/
theorem resolve_dotted_isSome_iff {P : PromotionInput} {m : ModuleName} {n : Str}
    {info : FunctionSafetyInfo} (h : IsCandidate P m n info) {d : ModuleName}
    (hd : d ∈ info.missingDepCallees) (hname : DottedUnmerged P.moduleNames d)
    {st : PromotionState} (hinv : PromotionInv P st) :
    (st.resolve (splitCallee P.moduleNames P.search d)).isSome ↔
      ∃ m' ∈ P.moduleNames, (m', d) ∈ clearSet st.functionSafety := by
  obtain ⟨c, hc, hcallee⟩ := h.candidate hd
  rw [resolve_isSome_iff hinv hc hcallee]
  unfold CalleeIn
  rw [hname.unmerged]

/-- A dotted callee without a merged prefix keeps blocking the function that waits for it
exactly when that function is no promotion candidate, or no merged module has an entry of
that very name that clears: otherwise the global name index answers for the dotted
name. -/
theorem dotted_callee_blocks_iff {P : PromotionInput} {m : ModuleName} {n : Str}
    {info : FunctionSafetyInfo} (hget : getFunctionSafety P.functionSafety m n = some info)
    {d : ModuleName} (hd : d ∈ info.missingDepCallees)
    (hname : DottedUnmerged P.moduleNames d) :
    KeepsBlocking P m n info d ↔ (IsCandidate P m n info → ¬SomeEntryClears P d) := by
  have hinv := promoteFixpoint_inv P
  constructor
  · rintro ⟨hnever, -⟩ h ⟨m', hm', hmem⟩
    rw [← clearSet_promoteFixpoint] at hmem
    have hsome := (resolve_dotted_isSome_iff h hd hname hinv).mpr ⟨m', hm', hmem⟩
    have hnone := hnever h P.candidates.length
    rw [show P.stateAfter P.candidates.length = promoteFixpoint P from rfl] at hnone
    rw [hnone] at hsome
    cases hsome
  intro hno
  by_cases h : IsCandidate P m n info
  case neg =>
    exact ⟨fun h' => absurd h' h, info, promoteFixpoint_of_not_candidate hget h, id⟩
  refine ⟨fun _ fuel => ?_, info, ?_, id⟩
  · rw [← Option.not_isSome_iff_eq_none]
    intro hsome
    obtain ⟨m', hm', hmem⟩ :=
      (resolve_dotted_isSome_iff h hd hname (stateAfter_inv P fuel)).mp hsome
    exact hno h ⟨m', hm', clearSet_stateAfter_subset P fuel hmem⟩
  · by_cases hp : (m, n) ∈ (promoteFixpoint P).promoted
    · obtain ⟨info₀, v, hentry⟩ := hinv.promotedEntry m n hp
      have heq := hentry.initial
      rw [hget] at heq
      cases heq
      -- a promoted function has all its callees clear, this one by its very name
      have hclear := (calleeClears_iff _).mp ((hentry.callees d hd).mono hentry.nonBlocking)
      unfold CalleeIn at hclear
      rw [hname.unmerged] at hclear
      obtain ⟨m', hm', hmem⟩ := hclear
      rw [clearSet_promoteFixpoint] at hmem
      exact absurd ⟨m', hm', hmem⟩ (hno h)
    · rw [hinv.unpromoted m n hp, hget]

/-- A caller in `a` that waits for `C.m`, and a class method stored as `C.m` in `b`. -/
def methodNamedLikeCallee : PromotionInput where
  moduleNames := {fromStr "a", fromStr "b"}
  functionSafety := Table.ofList
    [(fromStr "a", Table.ofList
      [(fromStr "f", FunctionSafetyInfo.unsafeMissingDep (fromStr "C.m"))]),
     (fromStr "b", Table.ofList [(fromStr "C.m", FunctionSafetyInfo.new ∅)])]
  neededUnqualified := ∅
  search := .probeStr

theorem dotted_callee_blocks_iff_method :
    KeepsBlocking methodNamedLikeCallee (fromStr "a") (fromStr "f")
        (FunctionSafetyInfo.unsafeMissingDep (fromStr "C.m")) (fromStr "C.m") ↔
      (IsCandidate methodNamedLikeCallee (fromStr "a") (fromStr "f")
          (FunctionSafetyInfo.unsafeMissingDep (fromStr "C.m")) →
        ¬SomeEntryClears methodNamedLikeCallee (fromStr "C.m")) :=
  dotted_callee_blocks_iff (by decide +kernel) (by decide)
    ⟨by decide, by decide +kernel⟩

/-- The method stored as `C.m` in another module clears the caller. -/
theorem method_clears_dotted_callee :
    getFunctionSafety methodNamedLikeCallee.functionSafety (fromStr "a") (fromStr "f") =
        some (FunctionSafetyInfo.unsafeMissingDep (fromStr "C.m")) ∧
      DottedUnmerged methodNamedLikeCallee.moduleNames (fromStr "C.m") ∧
      ¬KeepsBlocking methodNamedLikeCallee (fromStr "a") (fromStr "f")
        (FunctionSafetyInfo.unsafeMissingDep (fromStr "C.m")) (fromStr "C.m") := by
  refine ⟨by decide +kernel, ⟨by decide, by decide +kernel⟩, ?_⟩
  rintro ⟨-, info, hget, hkeeps⟩
  have hfinal : getFunctionSafety (promoteFixpoint methodNamedLikeCallee).functionSafety
      (fromStr "a") (fromStr "f") =
        some { verdict := ∅, missingDepCallees := {fromStr "C.m"} } := by decide +kernel
  rw [hfinal] at hget
  cases hget
  exact absurd (hkeeps (by decide)) (by decide)

end Lifeguard
