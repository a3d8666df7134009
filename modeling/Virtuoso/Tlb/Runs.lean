import Virtuoso.Tlb.Translation

/-
  Runs of translations.

  The pages that translations fill in are fresh. So a TLB has
  two blocks of a page exactly when a victim was pushed to
  it, or a prefetch was put into it, while it held the page.

  Main declarations:
    * `Mmu.uniqueAlong_iff`
-/

namespace Virtuoso

namespace Mmu

variable {σ : Type}

/- Every TLB is as it is constructed. -/
def New (h : TlbSubsystem σ) : Prop :=
  Each (fun t => ∃ config policy replacement,
    Tlb.construct config policy replacement = some t) h

/- Every state of a run has one block for each page. -/
def UniqueAlong
    (h : TlbSubsystem σ)
    (ops : List Op) : Prop :=
  ∀ front, front <+: ops →
    ∀ h', Run.run step h front = some h' → Each Tlb.Unique h'

theorem inv_of_new
    {h : TlbSubsystem σ}
    (hNew : New h) :
    Inv h := by
  refine ⟨?_, ?_⟩
  · intro i j t hAt
    rcases hNew i j t hAt with ⟨_, _, _, hConstruct⟩
    exact Tlb.shaped_construct hConstruct
  · intro i j t hAt
    rcases hNew i j t hAt with ⟨_, _, _, hConstruct⟩
    exact Tlb.unique_construct hConstruct

/- A run of translations is a run of single operations. -/
theorem steps_of_run
    {s s' : Session σ}
    {requests : List Request}
    (hShaped : Each Tlb.Shaped s.tlbs)
    (hRun : Run.run performAddressTranslation s requests =
      some s') :
    Steps s s' := by
  induction requests generalizing s with
  | nil =>
      rw [Run.run_nil, Option.some.injEq] at hRun
      rw [hRun]
      exact .refl s'
  | cons r requests ih =>
      rcases Run.run_cons_eq_some hRun with
        ⟨s₁, hCall, hRest⟩
      have hFirst :=
        steps_performAddressTranslation hShaped hCall
      exact hFirst.trans (ih (hFirst.shaped hShaped) hRest)

/-
  In a run of translations from a new hierarchy, with any
  levels, TLBs, page sizes and replacement policies, every
  page has at most one block in each TLB all the time exactly
  when no victim that is pushed, and no prefetch, is of a
  page that its TLB holds in a way that is not replaced.
-/
theorem uniqueAlong_iff
    (h₀ : TlbSubsystem σ)
    (hNew : New h₀)
    (requests : List Request)
    (s : Session σ)
    (hRun : Run.run performAddressTranslation ⟨h₀, []⟩
      requests = some s) :
    Run.run step h₀ s.trail = some s.tlbs ∧
      (UniqueAlong h₀ s.trail ↔
        Run.Along step OffersFresh h₀ s.trail) := by
  have hInv := inv_of_new hNew
  rcases steps_of_run hInv.shaped hRun with
    ⟨ops, hTrail, hOps, hAlong⟩
  rw [List.nil_append] at hTrail
  rw [hTrail]
  refine ⟨hOps, ?_⟩
  exact (Run.along_iff_of_run
    (fun _ hInv => hInv.unique)
    (fun _ _ _ hInv hFills hOffers hStep =>
      inv_step hInv hFills hOffers hStep)
    (fun _ _ _ hInv _ hStale hStep =>
      not_unique_of_step hInv hStale hStep)
    hInv hAlong hOps).symm

theorem new_pair
    {t₁ t₂ : Tlb σ}
    {config₁ config₂ : TlbConfig}
    {policy₁ policy₂ : Replacement σ}
    {replacement₁ replacement₂ : σ}
    (hFirst : Tlb.construct config₁ policy₁ replacement₁ = some t₁)
    (hSecond : Tlb.construct config₂ policy₂ replacement₂ =
      some t₂) :
    New [[t₁], [t₂]] := by
  intro i j t hAt
  rcases Option.bind_eq_some_iff.mp hAt with
    ⟨tlbs, hLevel, hIndex⟩
  have hTlbs := List.mem_of_getElem? hLevel
  have hTlb := List.mem_of_getElem? hIndex
  simp only [List.mem_cons, List.not_mem_nil, or_false] at hTlbs
  rcases hTlbs with hEq | hEq
  · rw [hEq, List.mem_singleton] at hTlb
    rw [hTlb]
    exact ⟨_, _, _, hFirst⟩
  · rw [hEq, List.mem_singleton] at hTlb
    rw [hTlb]
    exact ⟨_, _, _, hSecond⟩

/- The second level is filled with victims only: the first
   page moves down to it when the second page is filled in. -/
theorem uniqueAlong_twoPages :
    ∃ t₁ ∈ Tlb.construct ⟨1, 1, [12], .data, true, false, 0⟩
        Replacement.lru (Replacement.lruInit 1 1),
      ∃ t₂ ∈ Tlb.construct
          ⟨4, 4, [12], .unified, false, false, 0⟩
          Replacement.lru (Replacement.lruInit 1 4),
        ∃ s ∈ Run.run performAddressTranslation
            ⟨[[t₁], [t₂]], []⟩
            [⟨0x1000, false, 0, fun _ _ _ => 0, fun _ _ => [],
                some (7, 12)⟩,
              ⟨0x2000, false, 0, fun _ _ _ => 0, fun _ _ => [],
                some (8, 12)⟩],
          (tlbAt s.tlbs 0 0).bind (fun t => t.blockAt 0 0) =
              some ⟨2, 12, 8, true⟩ ∧
            (tlbAt s.tlbs 1 0).bind (fun t => t.blockAt 0 0) =
              some ⟨1, 12, 7, true⟩ ∧
            UniqueAlong [[t₁], [t₂]] s.trail := by
  refine ⟨_, Option.get_mem ?_, _, Option.get_mem ?_,
    _, Option.get_mem ?_, ?_, ?_, ?_⟩
  iterate 5 decide +kernel
  refine (uniqueAlong_iff _ (new_pair (Option.get_mem _)
    (Option.get_mem _)) _ _ (Option.get_mem _)).2.mpr ?_
  decide +kernel

/-
  A page is filled into both levels. When the first level
  evicts it, it is pushed to the second level, which has it.
-/
theorem not_unique_pushedVictim :
    ∃ t₁ ∈ Tlb.construct ⟨1, 1, [12], .data, true, false, 0⟩
        Replacement.lru (Replacement.lruInit 1 1),
      ∃ t₂ ∈ Tlb.construct
          ⟨4, 4, [12], .unified, true, false, 0⟩
          Replacement.lru (Replacement.lruInit 1 4),
        ∃ s ∈ Run.run performAddressTranslation
            ⟨[[t₁], [t₂]], []⟩
            [⟨0x1000, false, 0, fun _ _ _ => 0, fun _ _ => [],
                some (7, 12)⟩,
              ⟨0x2000, false, 0, fun _ _ _ => 0, fun _ _ => [],
                some (8, 12)⟩],
          (tlbAt s.tlbs 1 0).bind (fun t => t.blockAt 0 0) =
              some ⟨1, 12, 7, true⟩ ∧
            (tlbAt s.tlbs 1 0).bind (fun t => t.blockAt 0 1) =
              some ⟨1, 12, 7, true⟩ ∧
            ¬ Each Tlb.Unique s.tlbs := by
  refine ⟨_, Option.get_mem ?_, _, Option.get_mem ?_,
    _, Option.get_mem ?_, ?_, ?_, fun hUnique => ?_⟩
  iterate 5 decide +kernel
  have hSame := hUnique 1 0 _ (Option.get_mem ?_) 0 0 0 1
    ⟨1, 12, 7, true⟩ ⟨1, 12, 7, true⟩ ?_ ?_ rfl rfl
  · exact absurd hSame.2 (by decide)
  all_goals decide +kernel

end Mmu

end Virtuoso
