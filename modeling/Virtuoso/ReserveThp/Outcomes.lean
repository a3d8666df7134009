import Virtuoso.Buddy.Depleted
import Virtuoso.ReserveThp.Basic

/-
  What a user request to the reservation allocator can do.

  A request is served in the region of its address, which may
  be reserved for it on the way, or by the buddy allocator.
  The latter happens only when no 2MB block is left, and none
  comes back after that.

  Main declarations:
    * `ReserveThp.serves_of_allocate`
-/

namespace Virtuoso

namespace ReserveThp

/-
  The region of a request, with the buddy allocator after it
  was found or reserved.
-/
inductive Found
    (s : ReserveThp)
    (key : Nat) :
    Region → Buddy → Prop
  | tracked
      {region : Region}
      (hLookup : s.twoMbMap.lookup key = some region) :
      Found s key region s.buddy
  | reserved
      {block : Span}
      {b : Buddy}
      (hLookup : s.twoMbMap.lookup key = none)
      (hReserve : s.buddy.reserve2mbPage = some (some block, b)) :
      Found s key ⟨block.start, fun _ => false, false⟩ b

/- A region with one more page in use. -/
def useOf
    (region : Region)
    (offset : Nat)
    (promoted : Bool) : Region :=
  ⟨region.regionBegin,
    Function.update region.bitset offset true, promoted⟩

/- The region is used above the threshold. -/
def promotes
    (s : ReserveThp)
    (region : Region)
    (offset : Nat) : Bool :=
  decide (((useOf region offset false).count : ℚ) / 512 >
    s.thresholdForPromotion)

/- The frame of a request that is served in its region. -/
def frameIn
    (region : Region)
    (offset : Nat)
    (promoted : Bool) : Nat :=
  if promoted then region.regionBegin
  else region.regionBegin + offset

/- The allocator after a request was served in its region. -/
def afterUse
    (s : ReserveThp)
    (b : Buddy)
    (key : Nat)
    (region : Region) : ReserveThp :=
  { s with
    buddy := b
    twoMbMap :=
      (key, region) :: TwoMbMap.erase s.twoMbMap key }

/- The outcomes of a user request of 4KB. -/
inductive Serves
    (s : ReserveThp)
    (va pick : Nat) :
    Placement → ReserveThp → Prop
  | inRegion
      {region : Region}
      {b : Buddy}
      (hFound : Found s (va / 2 ^ 21) region b)
      (hOpen : region.promoted = false)
      {promoted : Bool}
      (hPromotes :
        promotes s region (va / 2 ^ 12 % 512) = promoted) :
      Serves s va pick
        ⟨some (frameIn region (va / 2 ^ 12 % 512) promoted),
          if promoted then 21 else 12, none⟩
        (afterUse s b (va / 2 ^ 21)
          (useOf region (va / 2 ^ 12 % 512) promoted))
  | fallback
      {frame : Nat}
      {s' : ReserveThp}
      (hLookup : s.twoMbMap.lookup (va / 2 ^ 21) = none)
      (hDepleted : s.buddy.Depleted)
      (hCall : fromBuddy s 4096 = some (some frame, s')) :
      Serves s va pick ⟨some frame, 12, none⟩ s'
  | demotion
      {region : Region}
      {frame : Option Nat}
      {s₁ s₂ s' : ReserveThp}
      (hLookup : s.twoMbMap.lookup (va / 2 ^ 21) = none)
      (hDepleted : s.buddy.Depleted)
      (hCall : fromBuddy s 4096 = some (none, s₁))
      (hDemote : demotePage s₁ pick = some (region, s₂))
      (hRetry : fromBuddy s₂ 4096 = some (frame, s')) :
      Serves s va pick ⟨frame, 12, some region⟩ s'

variable {s s' : ReserveThp}

/- A region that was just reserved is found when marking. -/
theorem afterUse_reserved
    (s : ReserveThp)
    (b : Buddy)
    (key : Nat)
    (block : Span)
    (region : Region) :
    afterUse (reserved s b key block) b key region =
      afterUse s b key region := by
  simp [afterUse, reserved, TwoMbMap.erase]

/- Marking a page answers with the region of the page. -/
theorem eq_of_markPage
    {key offset : Nat}
    {region : Region}
    {placed : Nat × Bool}
    (hMark : markPage s key region offset = some (placed, s')) :
    region.promoted = false ∧
      placed = (frameIn region offset
        (promotes s region offset), promotes s region offset) ∧
      s' = afterUse s s.buddy key
        (useOf region offset (promotes s region offset)) := by
  unfold markPage at hMark
  cases hOpen : region.promoted with
  | true => simp [hOpen] at hMark
  | false =>
      rw [hOpen, if_neg (by decide)] at hMark
      simp only at hMark
      split_ifs at hMark with hAbove
      · have hPromotes : promotes s region offset = true :=
          decide_eq_true hAbove
        simp only [Option.some.injEq, Prod.mk.injEq] at hMark
        rw [hPromotes]
        exact ⟨rfl, hMark.1.symm, hMark.2.symm⟩
      · have hPromotes : promotes s region offset = false :=
          decide_eq_false hAbove
        simp only [Option.some.injEq, Prod.mk.injEq] at hMark
        rw [hPromotes]
        refine ⟨rfl, hMark.1.symm, ?_⟩
        rw [← hMark.2, ← hOpen]
        rfl

/- The outcomes of `checkFor2MBAllocation`. -/
theorem found_of_checkFor2MBAllocation
    {va : Nat}
    {placed : Option (Nat × Bool)}
    (hCheck : checkFor2MBAllocation s va = some (placed, s')) :
    (placed = none ∧ s' = s ∧ s.buddy.Depleted ∧
        s.twoMbMap.lookup (va / 2 ^ 21) = none) ∨
      ∃ region b promoted,
        Found s (va / 2 ^ 21) region b ∧
        region.promoted = false ∧
        promotes s region (va / 2 ^ 12 % 512) = promoted ∧
        placed = some (frameIn region (va / 2 ^ 12 % 512)
          promoted, promoted) ∧
        s' = afterUse s b (va / 2 ^ 21)
          (useOf region (va / 2 ^ 12 % 512) promoted) := by
  unfold checkFor2MBAllocation at hCheck
  cases hLookup : s.twoMbMap.lookup (va / 2 ^ 21) with
  | some region =>
      right
      simp only [hLookup] at hCheck
      rcases Option.map_eq_some_iff.mp hCheck with
        ⟨⟨placed', s₁⟩, hMark, hEq⟩
      rcases eq_of_markPage hMark with
        ⟨hOpen, hPlaced, hState⟩
      simp only [Prod.mk.injEq] at hEq
      refine ⟨region, s.buddy, _, .tracked hLookup, hOpen,
        rfl, ?_, ?_⟩
      · rw [← hEq.1, hPlaced]
      · rw [← hEq.2, hState]
  | none =>
      simp only [hLookup] at hCheck
      cases hReserve : s.buddy.reserve2mbPage with
      | none => simp [hReserve] at hCheck
      | some r =>
          rcases r with ⟨block, b⟩
          simp only [hReserve] at hCheck
          cases block with
          | none =>
              left
              simp only [Option.some.injEq, Prod.mk.injEq] at hCheck
              have hSame := Buddy.reserve2mbPage_none hReserve
              refine ⟨hCheck.1.symm, ?_,
                Buddy.depleted_of_reserve2mbPage hReserve, rfl⟩
              rw [← hCheck.2, hSame]
          | some block =>
              right
              simp only at hCheck
              rcases Option.map_eq_some_iff.mp hCheck with
                ⟨⟨placed', s₁⟩, hMark, hEq⟩
              rcases eq_of_markPage hMark with
                ⟨-, hPlaced, hState⟩
              simp only [Prod.mk.injEq] at hEq
              refine ⟨_, b, _, .reserved hLookup hReserve, rfl,
                rfl, ?_, ?_⟩
              · rw [← hEq.1, hPlaced]
                rfl
              · rw [← hEq.2, hState]
                exact afterUse_reserved s b _ block _

/- Every user request has one of the outcomes. -/
theorem serves_of_allocate
    {va pick : Nat}
    {placement : Placement}
    (hCall : s.allocate 4096 va false pick = some (placement, s')) :
    Serves s va pick placement s' := by
  simp only [allocate, Bool.false_eq_true, if_false] at hCall
  cases hCheck : checkFor2MBAllocation s va with
  | none => simp [hCheck] at hCall
  | some r =>
      rcases r with ⟨placed, s₁⟩
      simp only [hCheck] at hCall
      rcases found_of_checkFor2MBAllocation hCheck with
        ⟨hNone, hSame, hDepleted, hLookup⟩ |
          ⟨region, b, promoted, hFound, hOpen, hPromotes,
            hPlaced, hState⟩
      · subst hNone
        subst hSame
        simp only at hCall
        cases hBuddy : fromBuddy s₁ 4096 with
        | none => simp [hBuddy] at hCall
        | some r =>
            rcases r with ⟨frame, s₂⟩
            simp only [hBuddy] at hCall
            cases frame with
            | some frame =>
                simp only [Option.some.injEq,
                  Prod.mk.injEq] at hCall
                rw [← hCall.1, ← hCall.2]
                exact .fallback hLookup hDepleted hBuddy
            | none =>
                simp only at hCall
                cases hDemote : demotePage s₂ pick with
                | none => simp [hDemote] at hCall
                | some r =>
                    rcases r with ⟨region, s₃⟩
                    simp only [hDemote] at hCall
                    rcases Option.map_eq_some_iff.mp hCall with
                      ⟨⟨frame, s₄⟩, hRetry, hEq⟩
                    simp only [Prod.mk.injEq] at hEq
                    rw [← hEq.1, ← hEq.2]
                    exact .demotion hLookup hDepleted hBuddy
                      hDemote hRetry
      · subst hPlaced
        subst hState
        simp only [Option.some.injEq, Prod.mk.injEq] at hCall
        rw [← hCall.1, ← hCall.2]
        exact .inRegion hFound hOpen hPromotes

/- A buddy allocation changes nothing but the free lists. -/
theorem eq_of_fromBuddy
    {bytes : Nat}
    {frame : Option Nat}
    (hCall : fromBuddy s bytes = some (frame, s')) :
    s' = { s with buddy := s'.buddy } ∧
      s.buddy.allocate bytes = some (frame, s'.buddy) := by
  rcases Option.map_eq_some_iff.mp hCall with
    ⟨⟨frame', b⟩, hBuddy, hEq⟩
  simp only [Prod.mk.injEq] at hEq
  rcases hEq with ⟨hFrame, hState⟩
  subst hFrame
  subst hState
  exact ⟨rfl, hBuddy⟩

theorem depleted_fromBuddy
    (hDepleted : s.buddy.Depleted)
    {bytes : Nat}
    {frame : Option Nat}
    (hCall : fromBuddy s bytes = some (frame, s')) :
    s'.buddy.Depleted :=
  hDepleted.allocate (eq_of_fromBuddy hCall).2

/- What a demotion puts back are blocks of two pages. -/
theorem depleted_freeAll
    {b : Buddy}
    (hDepleted : b.Depleted)
    {blocks : List Span}
    (hSmall : ∀ t ∈ blocks, t.stop = t.start + 1) :
    (freeAll b blocks).Depleted := by
  unfold freeAll
  induction blocks generalizing b with
  | nil => exact hDepleted
  | cons t blocks ih =>
      refine ih (hDepleted.free ?_) ?_
      · have hPages : t.stop - t.start + 1 = 2 := by
          have := hSmall t (by simp)
          omega
        rw [hPages]
        decide
      · intro t' hMem
        exact hSmall t' (List.mem_cons_of_mem t hMem)

theorem depleted_demotePage
    (hDepleted : s.buddy.Depleted)
    {pick : Nat}
    {region : Region}
    (hDemote : demotePage s pick = some (region, s')) :
    s'.buddy.Depleted := by
  unfold demotePage at hDemote
  cases hFront : utilizationFront s.twoMbMap pick with
  | none => simp [hFront] at hDemote
  | some e =>
      simp only [hFront, Option.some.injEq,
        Prod.mk.injEq] at hDemote
      rw [← hDemote.2]
      apply depleted_freeAll hDepleted
      intro t hMem
      rcases List.mem_map.mp hMem with ⟨j, -, hEq⟩
      rw [← hEq]
      simp only
      omega

end ReserveThp

end Virtuoso
