import Mathlib.Data.Nat.Find
import Virtuoso.Lib.Run
import Virtuoso.ReserveThp.Invariant

/-
  Runs of the reservation allocator.

  A run hands no frame to two live uses exactly when every
  demotion on the way meets a fully used region. A demotion
  of a partly used region puts back blocks of two frames, and
  the last of them always reaches a used frame or a frame
  outside the region.

  Main declarations:
    * `ReserveThp.Machine`
    * `ReserveThp.exclusive_run_iff`
-/

------------------------------------------------------------
-- The System And Full Regions
------------------------------------------------------------

namespace Virtuoso

namespace ReserveThp

open Span Buddy

/-
  The allocator, the frames returned so far with the latest
  first, and the regions as they were when demoted.
-/
structure Machine where
  thp : ReserveThp
  uses : List Use
  demoted : List Region

/- The calls of the allocator. -/
inductive Request
  | allocate (va : Nat) (isPagetable : Bool) (pick : Nat)
  | givePageFast
deriving DecidableEq

/- The virtual page of a user request. -/
def Request.userPage :
    Request → Option Nat
| .allocate va false _ => some (va / 2 ^ 12)
| _ => none

/- The use that a returned frame stands for. -/
def usesOf
    (page : Option Nat)
    (pageSize : Nat)
    (frame : Option Nat) : List Use :=
  match frame with
  | none => []
  | some f =>
      [⟨page, pageSize, ⟨f, f + (2 ^ (pageSize - 12) - 1)⟩⟩]

/- Serve one request of 4KB. -/
def step (s : Machine) : Request → Option Machine
| .allocate va isPagetable pick =>
    (s.thp.allocate 4096 va isPagetable pick).map
      (fun r =>
        ⟨r.2,
          usesOf
              (Request.userPage (.allocate va isPagetable pick))
              r.1.pageSize r.1.frame ++ s.uses,
          r.1.demoted.toList ++ s.demoted⟩)
| .givePageFast =>
    (s.thp.givePageFast 4096).map
      (fun r =>
        ⟨r.2, usesOf none 12 r.1 ++ s.uses, s.demoted⟩)

/- What a demotion puts back was unused in the region. -/
def PutBackUnused (r : Region) : Prop :=
  ∀ block ∈ r.putBack, ∀ p, block.Has p →
    r.span.Has p ∧ r.bitset (p - r.regionBegin) = false

/- No frame is handed to two live uses. -/
structure Exclusive (s : Machine) : Prop where
  uses : s.uses.Pairwise Use.Compatible
  putBack : ∀ r ∈ s.demoted, PutBackUnused r

/- No free list holds a block. -/
def Exhausted (b : Buddy) : Prop :=
  ∀ k < 2 * (b.maxOrder + 1), b.freeList k = []

/- Every region that may be demoted is fully used. -/
def RegionsFull (m : TwoMbMap) : Prop :=
  ∀ e ∈ m, e.2.promoted = false → ∀ j < 512, e.2.bitset j = true

/-
  When the memory is exhausted and a page of a region without
  reservation is requested, a demotion meets a full region.
-/
def DemotesFull (s : Machine) : Request → Prop
| .allocate va false _ =>
    s.thp.twoMbMap.lookup (va / 2 ^ 21) = none →
      Exhausted s.thp.buddy → RegionsFull s.thp.twoMbMap
| _ => True

/- A user page that was not placed before. -/
def Fresh (s : Machine) (request : Request) : Prop :=
  ∀ page, request.userPage = some page →
    ∀ u ∈ s.uses, u.page ≠ some page

/- The invariant of runs that demote full regions only. -/
def Inv (s : Machine) : Prop :=
  Held s.thp s.uses ∧ ∀ r ∈ s.demoted, r.putBack = []

variable {s s' : Machine}

theorem region_eq
    (va : Nat) :
    va / 2 ^ 21 = va / 2 ^ 12 / 512 := by
  rw [Nat.div_div_eq_div_mul]
  norm_num

/- The outcomes of `checkFor2MBAllocation`. -/
theorem checkFor2MBAllocation_spec
    {thp thp' : ReserveThp}
    {uses : List Use}
    (hHeld : Held thp uses)
    {va : Nat}
    (hFresh : ∀ u ∈ uses, u.page ≠ some (va / 2 ^ 12))
    {placed : Option (Nat × Bool)}
    (hCheck : checkFor2MBAllocation thp va = some (placed, thp')) :
    (placed = none ∧ thp' = thp ∧
        thp.twoMbMap.lookup (va / 2 ^ 21) = none) ∨
      ∃ r, placed = some r ∧
        Held thp' (regionUse (va / 2 ^ 12) r :: uses) := by
  have hMarked : ∀ {thp₀ : ReserveThp} {region : Region},
      Held thp₀ uses →
        (va / 2 ^ 21, region) ∈ thp₀.twoMbMap →
          (markPage thp₀ (va / 2 ^ 21) region
            (va / 2 ^ 12 % 512)).map (fun r => (some r.1, r.2)) =
            some (placed, thp') →
          ∃ r, placed = some r ∧
            Held thp' (regionUse (va / 2 ^ 12) r :: uses) := by
    intro thp₀ region hHeld₀ hMem hMap
    rcases Option.map_eq_some_iff.mp hMap with
      ⟨r, hMark, hEq⟩
    simp only [Prod.mk.injEq] at hEq
    rw [region_eq] at hMem hMark
    refine ⟨r.1, hEq.1.symm, ?_⟩
    exact held_markPage hHeld₀ hMem hFresh
      (hMark.trans (by rw [← hEq.2]))
  unfold checkFor2MBAllocation at hCheck
  cases hLookup : thp.twoMbMap.lookup (va / 2 ^ 21) with
  | some region =>
      right
      simp only [hLookup] at hCheck
      exact hMarked hHeld (mem_of_lookup hLookup) hCheck
  | none =>
      simp only [hLookup] at hCheck
      cases hReserve : thp.buddy.reserve2mbPage with
      | none => simp [hReserve] at hCheck
      | some r =>
          rcases r with ⟨block, b⟩
          cases block with
          | none =>
              left
              simp only [hReserve, Option.some.injEq,
                Prod.mk.injEq] at hCheck
              have hSame := reserve2mbPage_none hReserve
              refine ⟨hCheck.1.symm, ?_, rfl⟩
              rw [← hCheck.2, hSame]
          | some block =>
              right
              simp only [hReserve] at hCheck
              exact hMarked
                (held_reserved hHeld hLookup hReserve)
                (by simp [reserved]) hCheck

/- A user request that demotes full regions only. -/
theorem inv_allocate_user
    (hInv : Inv s)
    {va pick : Nat}
    (hFresh : Fresh s (.allocate va false pick))
    (hFull : DemotesFull s (.allocate va false pick))
    (hStep : step s (.allocate va false pick) = some s') :
    Inv s' := by
  rcases hInv with ⟨hHeld, hDemoted⟩
  have hNew := hFresh (va / 2 ^ 12) rfl
  rcases Option.map_eq_some_iff.mp hStep with
    ⟨⟨placement, thp'⟩, hCall, hEq⟩
  subst hEq
  simp only [allocate, Bool.false_eq_true, if_false] at hCall
  cases hCheck : checkFor2MBAllocation s.thp va with
  | none => simp [hCheck] at hCall
  | some r =>
      rcases r with ⟨placed, thp₁⟩
      simp only [hCheck] at hCall
      rcases checkFor2MBAllocation_spec hHeld hNew hCheck with
        ⟨hNone, hSame, hLookup⟩ | ⟨⟨frame, large⟩, hSome, hIn⟩
      · subst hNone
        subst hSame
        simp only at hCall
        cases hBuddy : fromBuddy s.thp 4096 with
        | none => simp [hBuddy] at hCall
        | some r =>
            rcases r with ⟨frame, thp₂⟩
            simp only [hBuddy] at hCall
            rcases held_fromBuddy hHeld hBuddy with
              ⟨hNone, hSame, hEmpty⟩ | ⟨f, hSome, hIn⟩
            · subst hNone
              subst hSame
              simp only at hCall
              cases hDemote : demotePage s.thp pick with
              | none => simp [hDemote] at hCall
              | some r =>
                  rcases r with ⟨region, thp₃⟩
                  simp only [hDemote] at hCall
                  rcases held_demotePage hHeld
                      (hFull hLookup (fun k _ => hEmpty k))
                      hDemote with ⟨hNil, hHeld'⟩
                  rcases Option.map_eq_some_iff.mp hCall with
                    ⟨⟨frame, thp₄⟩, hRetry, hEq⟩
                  simp only [Prod.mk.injEq] at hEq
                  rcases hEq with ⟨hPlacement, hState⟩
                  subst hPlacement
                  subst hState
                  refine ⟨?_, ?_⟩
                  · rcases held_fromBuddy hHeld' hRetry with
                      ⟨hNone, hSame, -⟩ | ⟨f, hSome, hIn⟩
                    · subst hNone
                      subst hSame
                      exact hHeld'
                    · subst hSome
                      exact hIn _
                  · intro r hMem
                    rcases List.mem_cons.mp hMem with
                      hEq | hOld
                    · exact hEq ▸ hNil
                    · exact hDemoted r hOld
            · subst hSome
              cases hCall
              exact ⟨hIn _, hDemoted⟩
      · subst hSome
        cases hCall
        refine ⟨?_, hDemoted⟩
        cases large with
        | true => exact hIn
        | false => exact hIn

/- A request that goes to the buddy allocator. -/
theorem inv_fromBuddy
    (hInv : Inv s)
    {frame : Option Nat}
    {thp' : ReserveThp}
    (hCall : fromBuddy s.thp 4096 = some (frame, thp')) :
    Inv ⟨thp', usesOf none 12 frame ++ s.uses, s.demoted⟩ := by
  rcases hInv with ⟨hHeld, hDemoted⟩
  refine ⟨?_, hDemoted⟩
  rcases held_fromBuddy hHeld hCall with
    ⟨hNone, hSame, -⟩ | ⟨f, hSome, hIn⟩
  · subst hNone
    subst hSame
    exact hHeld
  · subst hSome
    exact hIn none

/- Every request that demotes full regions only. -/
theorem inv_step
    {request : Request}
    (hInv : Inv s)
    (hFresh : Fresh s request)
    (hFull : DemotesFull s request)
    (hStep : step s request = some s') :
    Inv s' := by
  cases request with
  | allocate va isPagetable pick =>
      cases isPagetable with
      | false =>
          exact inv_allocate_user hInv hFresh hFull hStep
      | true =>
          rcases Option.map_eq_some_iff.mp hStep with
            ⟨r, hCall, hEq⟩
          rcases Option.map_eq_some_iff.mp hCall with
            ⟨⟨frame, thp'⟩, hBuddy, hEq'⟩
          subst hEq'
          subst hEq
          exact inv_fromBuddy hInv hBuddy
  | givePageFast =>
      rcases Option.map_eq_some_iff.mp hStep with
        ⟨⟨frame, thp'⟩, hBuddy, hEq⟩
      subst hEq
      exact inv_fromBuddy hInv hBuddy

/- The invariant says that no frame has two live uses. -/
theorem exclusive_of_inv
    (hInv : Inv s) :
    Exclusive s := by
  refine ⟨hInv.1.compatible, ?_⟩
  intro r hMem block hBlock
  rw [hInv.2 r hMem] at hBlock
  simp at hBlock

------------------------------------------------------------
-- Partly Used Regions And Runs
------------------------------------------------------------

/-
  Above the last unused page of a region there is a used page
  or the end of the region.
-/
theorem not_putBackUnused
    {r : Region}
    {j : Nat}
    (hLt : j < 512)
    (hUnset : r.bitset j = false) :
    ¬ PutBackUnused r := by
  intro hUnused
  let last := Nat.findGreatest (fun i => r.bitset i = false) 511
  have hLast : r.bitset last = false :=
    Nat.findGreatest_spec
      (P := fun i => r.bitset i = false)
      (Nat.le_of_lt_succ hLt) hUnset
  have hBound : last ≤ 511 := Nat.findGreatest_le 511
  have hMem :
      (⟨r.regionBegin + last, r.regionBegin + (last + 1)⟩ :
        Span) ∈ r.putBack := by
    unfold Region.putBack
    apply List.mem_map_of_mem
    rw [List.mem_filter]
    exact ⟨List.mem_range.mpr (by omega), by simp [hLast]⟩
  rcases hUnused _ hMem (r.regionBegin + (last + 1))
      ⟨by simp, Nat.le_refl _⟩ with ⟨hSpan, hBit⟩
  rw [Nat.add_sub_cancel_left] at hBit
  have hNext : last + 1 ≤ 511 := by
    have := hSpan.2
    simp only [Region.span] at this
    omega
  exact Nat.findGreatest_is_greatest
    (P := fun i => r.bitset i = false)
    (Nat.lt_succ_self last) hNext hBit

theorem count_lt_iff
    (r : Region) :
    r.count < 512 ↔ ∃ j < 512, r.bitset j = false := by
  have hAll := List.countP_eq_length
    (p := r.bitset) (l := List.range 512)
  have hLe := List.countP_le_length
    (p := r.bitset) (l := List.range 512)
  simp only [List.length_range, List.mem_range] at hAll hLe
  unfold Region.count
  constructor
  · intro hLt
    by_contra hNone
    push Not at hNone
    have hEq := hAll.mpr (by simpa using hNone)
    omega
  · rintro ⟨j, hLt, hUnset⟩
    refine lt_of_le_of_ne hLe ?_
    intro hEq
    have hSet := hAll.mp hEq j hLt
    simp [hUnset] at hSet

/- Exhausted memory serves neither 2MB nor 4KB. -/
theorem reserve2mbPage_of_exhausted
    {b : Buddy}
    (hEmpty : Exhausted b)
    (hLists : 4 ≤ b.maxOrder) :
    b.reserve2mbPage = some (none, b) := by
  have hNine : b.freeList 9 = [] := hEmpty 9 (by omega)
  have hScan : b.firstNonEmpty 10 = none :=
    firstNonEmpty_eq_none.mpr (fun i _ hLe => hEmpty i (by omega))
  have hSize : ¬ 2 * (b.maxOrder + 1) ≤ 9 := by omega
  simp [reserve2mbPage, hSize, hNine, hScan]

theorem fromBuddy_of_exhausted
    {thp : ReserveThp}
    (hEmpty : Exhausted thp.buddy) :
    fromBuddy thp 4096 = some (none, thp) := by
  have hOrder : Buddy.orderOf (4096 / 4096) = 0 := by decide
  have hScan : thp.buddy.firstNonEmpty 0 = none :=
    firstNonEmpty_eq_none.mpr (fun i _ hLe => hEmpty i (by omega))
  have hCall :
      thp.buddy.allocate 4096 = some (none, thp.buddy) := by
    unfold Buddy.allocate
    simp only [hOrder, hScan, Option.getD_none,
      Nat.zero_max, if_true]
  simp [fromBuddy, hCall]

/- The use a step adds carries the page of its request. -/
theorem mem_uses_of_step
    {request : Request}
    (hStep : step s request = some s')
    {u : Use}
    (hMem : u ∈ s'.uses) :
    (u.page = none ∨ u.page = request.userPage) ∨ u ∈ s.uses := by
  have hRecord : ∀ {page pageSize frame} {uses : List Use},
      u ∈ usesOf page pageSize frame ++ uses →
        u.page = page ∨ u ∈ uses := by
    intro page pageSize frame uses hIn
    cases frame with
    | none => exact Or.inr hIn
    | some f =>
        rcases List.mem_cons.mp hIn with hEq | hOld
        · exact Or.inl (hEq ▸ rfl)
        · exact Or.inr hOld
  cases request with
  | allocate va isPagetable pick =>
      rcases Option.map_eq_some_iff.mp hStep with
        ⟨r, -, hEq⟩
      subst hEq
      rcases hRecord hMem with hPage | hOld
      · exact Or.inl (Or.inr hPage)
      · exact Or.inr hOld
  | givePageFast =>
      rcases Option.map_eq_some_iff.mp hStep with
        ⟨r, -, hEq⟩
      subst hEq
      rcases hRecord hMem with hPage | hOld
      · exact Or.inl (Or.inl hPage)
      · exact Or.inr hOld

/- A step records its demotion, and no step forgets one. -/
theorem demoted_subset
    {request : Request}
    (hStep : step s request = some s') :
    s.demoted ⊆ s'.demoted := by
  cases request with
  | allocate va isPagetable pick =>
      rcases Option.map_eq_some_iff.mp hStep with
        ⟨r, -, hEq⟩
      subst hEq
      exact List.subset_append_right _ _
  | givePageFast =>
      rcases Option.map_eq_some_iff.mp hStep with
        ⟨r, -, hEq⟩
      subst hEq
      exact List.Subset.refl _

/- A step that meets a partly used region puts it back wrongly. -/
theorem demotesFull_or_bad
    {request : Request}
    (hStep : step s request = some s') :
    DemotesFull s request ∨
      ∃ r ∈ s'.demoted, ¬ PutBackUnused r := by
  cases request with
  | givePageFast => exact Or.inl trivial
  | allocate va isPagetable pick =>
      cases isPagetable with
      | true => exact Or.inl trivial
      | false =>
          by_contra hNeither
          rw [not_or] at hNeither
          rcases hNeither with ⟨hPartly, hGood⟩
          apply hPartly
          intro hLookup hEmpty e hMem hOpen j hLt
          by_contra hUnset
          apply hGood
          rw [Bool.not_eq_true] at hUnset
          have hLists : 4 ≤ s.thp.buddy.maxOrder := by
            by_contra hFew
            have hNone : s.thp.buddy.reserve2mbPage = none := by
              unfold reserve2mbPage
              rw [if_pos (by omega)]
            have hCheck :
                checkFor2MBAllocation s.thp va = none := by
              simp only [checkFor2MBAllocation, hLookup, hNone]
            simp [step, allocate, hCheck] at hStep
          have hCheck :
              checkFor2MBAllocation s.thp va =
                some (none, s.thp) := by
            simp only [checkFor2MBAllocation, hLookup,
              reserve2mbPage_of_exhausted hEmpty hLists]
          have hBuddy := fromBuddy_of_exhausted hEmpty
          rcases Option.map_eq_some_iff.mp hStep with
            ⟨⟨placement, thp'⟩, hCall, hEq⟩
          subst hEq
          simp only [allocate, Bool.false_eq_true, if_false,
            hCheck, hBuddy] at hCall
          unfold demotePage at hCall
          cases hFront : utilizationFront s.thp.twoMbMap pick with
          | none => simp [hFront] at hCall
          | some front =>
              simp only [hFront] at hCall
              rcases Option.map_eq_some_iff.mp hCall with
                ⟨r, -, hEq⟩
              simp only [Prod.mk.injEq] at hEq
              rcases hEq with ⟨hPlacement, -⟩
              subst hPlacement
              refine ⟨front.2, by simp, ?_⟩
              have hLeast :=
                (mem_of_utilizationFront hFront).2.2 e hMem hOpen
              have hCount :=
                (count_lt_iff e.2).mpr ⟨j, hLt, hUnset⟩
              rcases (count_lt_iff front.2).mp (by omega) with
                ⟨i, hLt', hUnset'⟩
              exact not_putBackUnused hLt' hUnset'

/- The user pages of distinct requests are fresh in turn. -/
theorem fresh_along
    (requests : List Request)
    (hDistinct : (requests.filterMap Request.userPage).Nodup)
    (hFresh : ∀ request ∈ requests, Fresh s request) :
    Run.Along step Fresh s requests := by
  induction requests generalizing s with
  | nil => trivial
  | cons request requests ih =>
      refine ⟨hFresh request (by simp), ?_⟩
      intro s' hStep
      have hRest : (requests.filterMap Request.userPage).Nodup :=
        hDistinct.sublist ((List.sublist_cons_self _ _).filterMap _)
      apply ih hRest
      intro later hLater page hPage u hMem
      have hOld := hFresh later (by simp [hLater]) page hPage u
      have hMemLater : page ∈ requests.filterMap Request.userPage :=
        List.mem_filterMap.mpr ⟨later, hLater, hPage⟩
      have hNew : request.userPage ≠ some page := by
        intro hSame
        rw [List.filterMap_cons_some hSame,
          List.nodup_cons] at hDistinct
        exact hDistinct.1 hMemLater
      rcases mem_uses_of_step hStep hMem with hEq | hBefore
      · rcases hEq with hEq | hEq
        · rw [hEq]
          simp
        · rw [hEq]
          exact hNew
      · exact hOld hBefore

/-
  In every run of requests to distinct user pages, no frame
  has two live uses exactly when every demotion meets a fully
  used region.
-/
theorem exclusive_run_iff
    (memorySize maxOrder kernelSize : Nat)
    (threshold : ℚ)
    (thp : ReserveThp)
    (hConstruct :
      construct memorySize maxOrder kernelSize threshold = some thp)
    (requests : List Request)
    (hDistinct : (requests.filterMap Request.userPage).Nodup)
    (s : Machine)
    (hRun : Run.run step ⟨thp, [], []⟩ requests = some s) :
    Exclusive s ↔
      Run.Along step DemotesFull ⟨thp, [], []⟩ requests := by
  constructor
  · intro hExclusive
    refine Run.along_of_run
      (fun s request s' hStep => demotesFull_or_bad hStep)
      ?_ hRun ?_
    · rintro s request s' hStep ⟨r, hMem, hBad⟩
      exact ⟨r, demoted_subset hStep hMem, hBad⟩
    · rintro ⟨r, hMem, hBad⟩
      exact hBad (hExclusive.putBack r hMem)
  · intro hFull
    have hFresh : Run.Along step Fresh ⟨thp, [], []⟩ requests := by
      apply fresh_along requests hDistinct
      intro request hMem page hPage u hUse
      simp at hUse
    have hInit : Inv ⟨thp, [], []⟩ := by
      rcases Option.map_eq_some_iff.mp hConstruct with
        ⟨b, hBuddy, hEq⟩
      subst hEq
      refine ⟨⟨by simp, ⟨[], ?_, by simp⟩, by simp⟩, by simp⟩
      simpa [spans] using tiled_construct hBuddy
    apply exclusive_of_inv
    exact Run.run_inv
      (fun s request s' hInv hCond hStep =>
        inv_step hInv hCond.1 hCond.2 hStep)
      hInit (hFresh.and hFull) hRun

instance (b : Buddy) : Decidable (Exhausted b) :=
  inferInstanceAs
    (Decidable (∀ k < 2 * (b.maxOrder + 1), b.freeList k = []))

instance (m : TwoMbMap) : Decidable (RegionsFull m) :=
  inferInstanceAs
    (Decidable (∀ e ∈ m, e.2.promoted = false →
      ∀ j < 512, e.2.bitset j = true))

instance
    (s : Machine)
    (request : Request) :
    Decidable (DemotesFull s request) :=
  match request with
  | .allocate va false _ =>
      inferInstanceAs
        (Decidable
          (s.thp.twoMbMap.lookup (va / 2 ^ 21) = none →
            Exhausted s.thp.buddy → RegionsFull s.thp.twoMbMap))
  | .allocate _ true _ => isTrue trivial
  | .givePageFast => isTrue trivial

/- Three requests to four megabytes. -/
theorem exclusive_run_small :
    ∃ thp s,
      construct 4 9 0 (1 / 2) = some thp ∧
        Run.run step ⟨thp, [], []⟩
          [.allocate 0 false 0, .allocate 4096 false 0,
            .allocate 0 true 0, .givePageFast] = some s ∧
        Exclusive s := by
  let requests : List Request :=
    [.allocate 0 false 0, .allocate 4096 false 0,
      .allocate 0 true 0, .givePageFast]
  have hRuns : ∀ thp, construct 4 9 0 (1 / 2) = some thp →
      (Run.run step ⟨thp, [], []⟩ requests).isSome ∧
        Run.Along step DemotesFull ⟨thp, [], []⟩ requests := by
    intro thp hConstruct
    cases hConstruct
    decide +kernel
  rcases Option.isSome_iff_exists.mp
      (show (construct 4 9 0 (1 / 2)).isSome by decide +kernel)
    with ⟨thp, hConstruct⟩
  rcases hRuns thp hConstruct with ⟨hSome, hFull⟩
  rcases Option.isSome_iff_exists.mp hSome with ⟨s, hRun⟩
  exact ⟨thp, s, hConstruct, hRun,
    (exclusive_run_iff 4 9 0 (1 / 2) thp hConstruct requests
      (by decide) s hRun).mpr hFull⟩

/-
  Two megabytes with one region reserved: the second region
  demotes it, and the frame 511 is then returned twice.
-/
theorem exclusive_run_demotion :
    ∃ requests thp s,
      (requests.filterMap Request.userPage).Nodup ∧
        construct 2 9 0 (1 / 2) = some thp ∧
        Run.run step ⟨thp, [], []⟩ requests = some s ∧
        ¬ Exclusive s := by
  let requests : List Request :=
    [.allocate 0 false 0, .allocate (2 ^ 21) false 0,
      .givePageFast, .givePageFast]
  have hRuns : ∀ thp, construct 2 9 0 (1 / 2) = some thp →
      (Run.run step ⟨thp, [], []⟩ requests).map
          (fun s => s.uses.map (fun u => (u.pageSize, u.frames))) =
        some [(12, ⟨511, 511⟩), (12, ⟨511, 511⟩),
          (12, ⟨512, 512⟩), (12, ⟨0, 0⟩)] := by
    intro thp hConstruct
    cases hConstruct
    decide +kernel
  rcases Option.isSome_iff_exists.mp
      (show (construct 2 9 0 (1 / 2)).isSome by decide +kernel)
    with ⟨thp, hConstruct⟩
  rcases Option.map_eq_some_iff.mp (hRuns thp hConstruct) with
    ⟨s, hRun, hFrames⟩
  refine ⟨requests, thp, s, by decide, hConstruct, hRun, ?_⟩
  intro hExclusive
  have hUses :
      (s.uses.map (fun u => (u.pageSize, u.frames))).Pairwise
        (fun x y => x.2.Apart y.2 ∨ x.1 = 21) := by
    refine hExclusive.uses.map _ (fun u v hPair => ?_)
    exact Or.imp_right (fun h => h.1) hPair
  rw [hFrames] at hUses
  rcases (List.pairwise_cons.mp hUses).1 (12, ⟨511, 511⟩)
      (by simp) with hApart | hLarge
  · exact hApart 511 ⟨by decide, by decide⟩ ⟨by decide, by decide⟩
  · exact absurd hLarge (by decide)

end ReserveThp

end Virtuoso
