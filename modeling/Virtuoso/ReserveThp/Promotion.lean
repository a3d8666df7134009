import Virtuoso.Lib.Run
import Virtuoso.ReserveThp.Outcomes

/-
  Promotion and the translations that were given out before.

  When a region is promoted its pages are mapped by one 2MB
  entry at the begin of the region. Every page of the region
  that was mapped before lies at its offset from the begin, so
  the 2MB entry translates it to the same address. A page of
  the region can have been served elsewhere only when no 2MB
  block was left, and then the region is never reserved again.

  Main declarations:
    * `ReserveThp.Mapper`
    * `ReserveThp.keepsTranslation_run`
-/

namespace Virtuoso

/-
  The physical address that the MMU computes from the frame
  and the page size of an entry.
-/
def finalPhysicalAddress
    (ppnResult pageSize address : Nat) : Nat :=
  (ppnResult * 4096 + address % 2 ^ pageSize) % 2 ^ 64

namespace ReserveThp

/- The answer to the request of one address. -/
structure Answer where
  va : Nat
  frame : Option Nat
  pageSize : Nat
deriving DecidableEq

namespace Answer

/- The region of the address. -/
def region (a : Answer) : Nat :=
  a.va / 2 ^ 21

/- The place of the page in its region. -/
def offset (a : Answer) : Nat :=
  a.va / 2 ^ 12 % 512

end Answer

/- The allocator and its answers, with the latest first. -/
structure Mapper where
  thp : ReserveThp
  answers : List Answer

/- A user request, or one that only takes a frame. -/
inductive Mapper.Op
  | allocate (va pick : Nat)
  | pagetable (va pick : Nat)
  | givePageFast

/- Serve one request of 4KB and log the answers to users. -/
def Mapper.step (s : Mapper) : Mapper.Op → Option Mapper
| .allocate va pick =>
    (s.thp.allocate 4096 va false pick).map
      (fun r =>
        ⟨r.2, ⟨va, r.1.frame, r.1.pageSize⟩ :: s.answers⟩)
| .pagetable va pick =>
    (s.thp.allocate 4096 va true pick).map
      (fun r => ⟨r.2, s.answers⟩)
| .givePageFast =>
    (s.thp.givePageFast 4096).map (fun r => ⟨r.2, s.answers⟩)

/-
  A 2MB answer maps the pages of its region that were mapped
  before to where their 4KB entries map them.
-/
def KeepsTranslation (later earlier : Answer) : Prop :=
  later.pageSize = 21 → earlier.region = later.region →
    ∃ base,
      later.frame = some base ∧
      earlier.frame = some (base + earlier.offset) ∧
      earlier.pageSize = 12 ∧
      ∀ va, va / 2 ^ 12 = earlier.va / 2 ^ 12 →
        finalPhysicalAddress base 21 va =
          finalPhysicalAddress (base + earlier.offset) 12 va

/- Both entries give the same physical address. -/
theorem finalPhysicalAddress_promoted
    (base : Nat)
    {va va' : Nat}
    (hPage : va / 2 ^ 12 = va' / 2 ^ 12) :
    finalPhysicalAddress base 21 va =
      finalPhysicalAddress (base + va' / 2 ^ 12 % 512) 12 va := by
  have hSame :
      base * 4096 + va % 2 ^ 21 =
        (base + va' / 2 ^ 12 % 512) * 4096 + va % 2 ^ 12 := by
    omega
  unfold finalPhysicalAddress
  rw [hSame]

/- The page was answered at its offset in the region. -/
def Answer.At (a : Answer) (region : Region) : Prop :=
  a.frame = some (region.regionBegin + a.offset) ∧ a.pageSize = 12

/-
  The answers in a region that may still be promoted are at
  their offsets, and while a 2MB block is left every answer
  belongs to a region of the map.
-/
structure Mapper.Inv (s : Mapper) : Prop where
  placed :
    ∀ key region, s.thp.twoMbMap.lookup key = some region →
      region.promoted = false →
        ∀ a ∈ s.answers, a.region = key → a.At region
  tracked :
    ∀ a ∈ s.answers,
      s.thp.twoMbMap.lookup a.region ≠ none ∨ s.thp.buddy.Depleted
  kept : s.answers.Pairwise KeepsTranslation

variable {s s' : Mapper} {thp' : ReserveThp}

/- A request that only takes a frame from the free lists. -/
theorem Mapper.inv_fromBuddy
    (hInv : s.Inv)
    {frame : Option Nat}
    (hCall : fromBuddy s.thp 4096 = some (frame, thp')) :
    Mapper.Inv ⟨thp', s.answers⟩ := by
  have hMap : thp'.twoMbMap = s.thp.twoMbMap := by
    rw [(eq_of_fromBuddy hCall).1]
  refine ⟨?_, ?_, hInv.kept⟩
  · simp only [hMap]
    exact hInv.placed
  · intro a hMem
    simp only [hMap]
    rcases hInv.tracked a hMem with hTracked | hDepleted
    · exact Or.inl hTracked
    · exact Or.inr (depleted_fromBuddy hDepleted hCall)

/-
  The answers in the region of a request, found or reserved
  for it, are all at their offsets.
-/
theorem Mapper.Inv.at_of_found
    (hInv : s.Inv)
    {key : Nat}
    {region : Region}
    {b : Buddy}
    (hFound : Found s.thp key region b)
    (hOpen : region.promoted = false) :
    ∀ a ∈ s.answers, a.region = key → a.At region := by
  intro a hMem hKey
  cases hFound with
  | tracked hLookup =>
      exact hInv.placed key region hLookup hOpen a hMem hKey
  | reserved hLookup hReserve =>
      rcases hInv.tracked a hMem with hTracked | hDepleted
      · rw [hKey] at hTracked
        exact absurd hLookup hTracked
      · exact absurd hReserve hDepleted.reserve2mbPage

/- A request that is served in its region. -/
theorem Mapper.inv_inRegion
    (hInv : s.Inv)
    {va : Nat}
    {region : Region}
    {b : Buddy}
    (hFound : Found s.thp (va / 2 ^ 21) region b)
    (hOpen : region.promoted = false)
    (promoted : Bool) :
    Mapper.Inv
      ⟨afterUse s.thp b (va / 2 ^ 21)
          (useOf region (va / 2 ^ 12 % 512) promoted),
        ⟨va, some (frameIn region (va / 2 ^ 12 % 512)
            promoted), if promoted then 21 else 12⟩ ::
          s.answers⟩ := by
  have hAt := hInv.at_of_found hFound hOpen
  refine ⟨?_, ?_, ?_⟩
  · intro key region' hLookup hOpen' a hMem hKey
    simp only [afterUse, TwoMbMap.lookup_cons_erase] at hLookup
    by_cases hOwn : key = va / 2 ^ 21
    · rw [if_pos hOwn, Option.some.injEq] at hLookup
      subst hLookup
      have hSmall : promoted = false := hOpen'
      subst hSmall
      rcases List.mem_cons.mp hMem with hEq | hOld
      · subst hEq
        exact ⟨rfl, rfl⟩
      · exact hAt a hOld (hKey.trans hOwn)
    · rw [if_neg hOwn] at hLookup
      rcases List.mem_cons.mp hMem with hEq | hOld
      · subst hEq
        exact absurd hKey.symm hOwn
      · exact hInv.placed key region' hLookup hOpen' a hOld hKey
  · intro a hMem
    simp only [afterUse, TwoMbMap.lookup_cons_erase]
    by_cases hOwn : a.region = va / 2 ^ 21
    · left
      rw [if_pos hOwn]
      simp
    · rcases List.mem_cons.mp hMem with hEq | hOld
      · subst hEq
        exact absurd rfl hOwn
      · rw [if_neg hOwn]
        rcases hInv.tracked a hOld with hTracked | hDepleted
        · exact Or.inl hTracked
        · cases hFound with
          | tracked hLookup => exact Or.inr hDepleted
          | reserved hLookup hReserve =>
              exact absurd hReserve hDepleted.reserve2mbPage
  · refine List.Pairwise.cons ?_ hInv.kept
    intro a hMem hLarge hRegion
    cases promoted with
    | false => simp at hLarge
    | true =>
        rcases hAt a hMem hRegion with ⟨hFrame, hSize⟩
        refine ⟨region.regionBegin, rfl, hFrame, hSize, ?_⟩
        intro va' hPage
        exact finalPhysicalAddress_promoted _ hPage

/- An answer from the free lists once no 2MB block is left. -/
theorem Mapper.inv_answer
    {thp : ReserveThp}
    {answers : List Answer}
    (hInv : Mapper.Inv ⟨thp, answers⟩)
    (hDepleted : thp.buddy.Depleted)
    {va : Nat}
    (hLookup : thp.twoMbMap.lookup (va / 2 ^ 21) = none)
    (frame : Option Nat) :
    Mapper.Inv ⟨thp, ⟨va, frame, 12⟩ :: answers⟩ := by
  refine ⟨?_, fun _ _ => Or.inr hDepleted, ?_⟩
  · intro key region hFound hOpen a hMem hKey
    rcases List.mem_cons.mp hMem with hEq | hOld
    · subst hEq
      subst hKey
      have hSome : thp.twoMbMap.lookup (va / 2 ^ 21) =
          some region := hFound
      rw [hLookup] at hSome
      cases hSome
    · exact hInv.placed key region hFound hOpen a hOld hKey
  · refine List.Pairwise.cons ?_ hInv.kept
    intro a hMem hLarge
    exact absurd hLarge (by simp)

/- A demotion forgets one region. -/
theorem lookup_of_demotePage
    {thp thp' : ReserveThp}
    {pick : Nat}
    {demoted : Region}
    (hDemote : demotePage thp pick = some (demoted, thp'))
    (key : Nat) :
    thp'.twoMbMap.lookup key = none ∨
      thp'.twoMbMap.lookup key = thp.twoMbMap.lookup key := by
  unfold demotePage at hDemote
  cases hFront : utilizationFront thp.twoMbMap pick with
  | none => simp [hFront] at hDemote
  | some e =>
      simp only [hFront, Option.some.injEq,
        Prod.mk.injEq] at hDemote
      rw [← hDemote.2]
      simp only [TwoMbMap.lookup_erase]
      split_ifs
      · exact Or.inl rfl
      · exact Or.inr rfl

theorem Mapper.inv_demotePage
    (hInv : s.Inv)
    (hDepleted : s.thp.buddy.Depleted)
    {pick : Nat}
    {demoted : Region}
    (hDemote : demotePage s.thp pick = some (demoted, thp')) :
    Mapper.Inv ⟨thp', s.answers⟩ := by
  refine ⟨?_, ?_, hInv.kept⟩
  · intro key region hLookup
    rcases lookup_of_demotePage hDemote key with
      hNone | hSame
    · rw [hNone] at hLookup
      cases hLookup
    · rw [hSame] at hLookup
      exact hInv.placed key region hLookup
  · intro a hMem
    exact Or.inr (depleted_demotePage hDepleted hDemote)

/- Every user request keeps the invariant. -/
theorem Mapper.inv_serves
    (hInv : s.Inv)
    {va pick : Nat}
    {placement : Placement}
    (hServes : Serves s.thp va pick placement thp') :
    Mapper.Inv
      ⟨thp', ⟨va, placement.frame, placement.pageSize⟩ ::
        s.answers⟩ := by
  cases hServes with
  | inRegion hFound hOpen hPromotes =>
      exact Mapper.inv_inRegion hInv hFound hOpen _
  | fallback hLookup hDepleted hCall =>
      have hNext := Mapper.inv_fromBuddy hInv hCall
      have hEmpty := depleted_fromBuddy hDepleted hCall
      have hMap : thp'.twoMbMap = s.thp.twoMbMap := by
        rw [(eq_of_fromBuddy hCall).1]
      exact Mapper.inv_answer hNext hEmpty (hMap ▸ hLookup) _
  | @demotion region frame thp₁ thp₂ thp₃ hLookup hDepleted
      hCall hDemote hRetry =>
      have hInv₁ := Mapper.inv_fromBuddy hInv hCall
      have hEmpty₁ := depleted_fromBuddy hDepleted hCall
      have hInv₂ := Mapper.inv_demotePage hInv₁ hEmpty₁ hDemote
      have hEmpty₂ := depleted_demotePage hEmpty₁ hDemote
      have hInv₃ := Mapper.inv_fromBuddy hInv₂ hRetry
      have hEmpty₃ := depleted_fromBuddy hEmpty₂ hRetry
      have hMap₁ : thp₁.twoMbMap = s.thp.twoMbMap := by
        rw [(eq_of_fromBuddy hCall).1]
      have hMap₃ : thp'.twoMbMap = thp₂.twoMbMap := by
        rw [(eq_of_fromBuddy hRetry).1]
      refine Mapper.inv_answer hInv₃ hEmpty₃ ?_ _
      rw [hMap₃]
      rcases lookup_of_demotePage hDemote (va / 2 ^ 21) with
        hNone | hSame
      · exact hNone
      · rw [hSame, hMap₁]
        exact hLookup

theorem Mapper.inv_step
    (hInv : s.Inv)
    {op : Mapper.Op}
    (hStep : s.step op = some s') :
    s'.Inv := by
  cases op with
  | allocate va pick =>
      rcases Option.map_eq_some_iff.mp hStep with
        ⟨⟨placement, thp'⟩, hCall, hEq⟩
      subst hEq
      exact Mapper.inv_serves hInv (serves_of_allocate hCall)
  | pagetable va pick =>
      rcases Option.map_eq_some_iff.mp hStep with
        ⟨r, hCall, hEq⟩
      rcases Option.map_eq_some_iff.mp hCall with
        ⟨⟨frame, thp'⟩, hBuddy, hEq'⟩
      subst hEq'
      subst hEq
      exact Mapper.inv_fromBuddy hInv hBuddy
  | givePageFast =>
      rcases Option.map_eq_some_iff.mp hStep with
        ⟨⟨frame, thp'⟩, hBuddy, hEq⟩
      subst hEq
      exact Mapper.inv_fromBuddy hInv hBuddy

/-
  In every run, from any free lists and with any threshold,
  a 2MB answer keeps the translation of every page of its
  region that was answered before.
-/
theorem keepsTranslation_run
    (b : Buddy)
    (threshold : ℚ)
    (ops : List Mapper.Op)
    (s : Mapper)
    (hRun :
      Run.run Mapper.step ⟨⟨b, [], threshold⟩, []⟩ ops = some s) :
    s.answers.Pairwise KeepsTranslation := by
  have hInit : Mapper.Inv ⟨⟨b, [], threshold⟩, []⟩ := by
    refine ⟨?_, by simp, List.Pairwise.nil⟩
    intro key region hLookup
    simp at hLookup
  have hInv : s.Inv :=
    Run.run_invariant
      (fun _ _ _ hInv hStep => Mapper.inv_step hInv hStep)
      hInit hRun
  exact hInv.kept

/- The second page of a region promotes it. -/
theorem keepsTranslation_run_promotes :
    ∃ b s,
      Buddy.construct 4 9 0 = some b ∧
        Run.run Mapper.step ⟨⟨b, [], 1 / 512⟩, []⟩
          [.allocate 4096 0, .givePageFast, .allocate 8192 0] =
          some s ∧
        s.answers = [⟨8192, some 512, 21⟩, ⟨4096, some 513, 12⟩] ∧
        s.answers.Pairwise KeepsTranslation := by
  have hRuns : ∀ b, Buddy.construct 4 9 0 = some b →
      (Run.run Mapper.step ⟨⟨b, [], 1 / 512⟩, []⟩
          [.allocate 4096 0, .givePageFast,
            .allocate 8192 0]).map Mapper.answers =
        some [⟨8192, some 512, 21⟩, ⟨4096, some 513, 12⟩] := by
    intro b hConstruct
    cases hConstruct
    decide +kernel
  rcases Option.isSome_iff_exists.mp
      (show (Buddy.construct 4 9 0).isSome by decide +kernel)
    with ⟨b, hConstruct⟩
  rcases Option.map_eq_some_iff.mp (hRuns b hConstruct) with
    ⟨s, hRun, hAnswers⟩
  exact ⟨b, s, hConstruct, hRun, hAnswers,
    keepsTranslation_run b (1 / 512) _ s hRun⟩

end ReserveThp

end Virtuoso
