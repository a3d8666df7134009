import Virtuoso.ReserveThp.Backing
import Virtuoso.Utopia.Allocator.Basic

/-
  Applications that share an allocator with 2MB regions.

  `ReservationTHPAllocator` and `UtopiaAllocator` keep one
  map of regions for all address spaces, keyed by the region
  number of the virtual address. A fault of one application
  in a region that another application uses is therefore
  answered from the frames of the other. The frames of two
  applications stay apart in every run in which no fault
  names a page of another application in a tracked region, no
  fault promotes such a region, and no partly used region is
  demoted.

  Main declarations:
    * `Thp.answers_of_fault`
    * `Thp.isolated_along`
-/

------------------------------------------------------------
-- The System And Its Faults
------------------------------------------------------------

namespace Virtuoso

open ReserveThp

/- An allocator that reserves 2MB regions. -/
inductive ThpAllocator
  | reserve (thp : ReserveThp)
  | utopia (a : Utopia.Allocator)

namespace ThpAllocator

/- The free lists and the regions of an allocator. -/
def pool :
    ThpAllocator → ReserveThp
| .reserve thp => thp
| .utopia a => ⟨a.buddy, a.thpRegions, 0⟩

/- Using one more page of a region promotes it. -/
def promotes
    (t : ThpAllocator)
    (region : Region)
    (offset : Nat) : Bool :=
  match t with
  | .reserve thp => ReserveThp.promotes thp region offset
  | .utopia a =>
      !region.bitset offset &&
        decide (a.thpPromotionThreshold * 512 ≤
          100 * (useOf region offset false).count)

/-
  A fault of 4KB: `ReservationTHPAllocator::allocate`, or
  `UtopiaAllocator::tryAllocateTHP`. The answer is the frame
  and the page size.
-/
def fault
    (t : ThpAllocator)
    (va pick : Nat) :
    Option ((Option Nat × Nat) × ThpAllocator) :=
  match t with
  | .reserve thp =>
      (thp.allocate 4096 va false pick).map
        (fun r => ((r.1.frame, r.1.pageSize), .reserve r.2))
  | .utopia a =>
      (a.tryAllocateTHP va).map
        (fun r =>
          ((r.1.map Prod.fst,
            if r.1.any Prod.snd then 21 else 12),
            .utopia r.2))

/- A frame that comes straight from the free lists. -/
def frame :
    ThpAllocator → Option ((Option Nat × Nat) × ThpAllocator)
| .reserve thp =>
    (ReserveThp.fromBuddy thp 4096).map
      (fun r => ((r.1, 12), .reserve r.2))
| .utopia a =>
    (a.fromBuddy 4096).map (fun r => ((r.1.1, 12), .utopia r.2))

/- An allocator as it was constructed. -/
def Constructed :
    ThpAllocator → Prop
| .reserve thp =>
    ∃ memorySize maxOrder kernelSize threshold,
      ReserveThp.construct memorySize maxOrder kernelSize
        threshold = some thp
| .utopia a =>
    ∃ memorySize maxOrder kernelSize buddy configs
        fingerprintBits percent config,
      Buddy.construct memorySize maxOrder kernelSize = some buddy ∧
        Utopia.Allocator.construct buddy configs
          fingerprintBits percent config = some a

end ThpAllocator

namespace Thp

/- The frames that one request of an application received. -/
structure Grant where
  app : Nat
  use : Use

/- The page of the grant belongs to a region. -/
def Grant.Within (g : Grant) (key : Nat) : Prop :=
  g.use.page.map (fun page => page / 512) = some key

instance
    (g : Grant)
    (key : Nat) :
    Decidable (g.Within key) :=
  inferInstanceAs (Decidable (_ = _))

/- The allocator and all grants, with the latest first. -/
structure System where
  allocator : ThpAllocator
  grants : List Grant

/- The faults, and other frames that are taken. -/
inductive Op
  | fault (app va pick : Nat)
  | frame (app : Nat)

/- The system after a request was answered. -/
def answered
    (s : System)
    (app : Nat)
    (page : Option Nat)
    (r : (Option Nat × Nat) × ThpAllocator) : System :=
  ⟨r.2, (usesOf page r.1.2 r.1.1).map (Grant.mk app) ++ s.grants⟩

/- One call, with what it grants to the application. -/
def step (s : System) : Op → Option System
| .fault app va pick =>
    (s.allocator.fault va pick).map
      (answered s app (some (va / 2 ^ 12)))
| .frame app => s.allocator.frame.map (answered s app none)

/- No frame is granted to two applications. -/
def Isolated (s : System) : Prop :=
  s.grants.Pairwise (fun g g' =>
    g.app ≠ g'.app → g.use.frames.Apart g'.use.frames)

/-
  The fault aborts in a region that was promoted by a fault
  of another application.
-/
def Blocked (s : System) : Op → Prop
| .fault app va pick =>
    (s.allocator.fault va pick).isNone = true ∧
      ∃ region ∈ s.allocator.pool.twoMbMap.lookup (va / 2 ^ 21),
        region.promoted = true ∧
          ∃ g ∈ s.grants, g.app ≠ app ∧
            g.Within (va / 2 ^ 21) ∧ g.use.pageSize = 21
| .frame _ => False

/-
  Where other applications use pages of the tracked region of
  a fault, the region is not and does not become promoted,
  and the page is none of theirs.
-/
def Separate (s : System) : Op → Prop
| .fault app va _ =>
    ∀ region ∈ s.allocator.pool.twoMbMap.lookup (va / 2 ^ 21),
      ∀ g ∈ s.grants, g.app ≠ app →
        g.Within (va / 2 ^ 21) →
          region.promoted = false ∧
            s.allocator.promotes region
              (va / 2 ^ 12 % 512) = false ∧
            g.use.page ≠ some (va / 2 ^ 12)
| .frame _ => True

/- No partly used region is demoted. -/
def Spares (s : System) : Op → Prop
| .fault _ va pick =>
    match s.allocator with
    | .reserve thp =>
        DemotesFull ⟨thp, [], []⟩ (.allocate va false pick)
    | .utopia _ => True
| .frame _ => True

/- What a fault can do, for both allocators. -/
inductive Answers
    (t : ThpAllocator)
    (va pick : Nat) :
    Option Nat × Nat → ThpAllocator → Prop
  | inRegion
      {region region' : Region}
      {b : Buddy}
      {t' : ThpAllocator}
      (hFound : Found t.pool (va / 2 ^ 21) region b)
      (hBegin : region'.regionBegin = region.regionBegin)
      (hPromoted :
        region'.promoted =
          (region.promoted ||
            t.promotes region (va / 2 ^ 12 % 512)))
      (hPool : t'.pool = afterUse t.pool b (va / 2 ^ 21) region') :
      Answers t va pick
        (some (frameIn region (va / 2 ^ 12 % 512) region'.promoted),
          if region'.promoted then 21 else 12) t'
  | fallback
      {f : Nat}
      {t' : ThpAllocator}
      (hCall : fromBuddy t.pool 4096 = some (some f, t'.pool)) :
      Answers t va pick (some f, 12) t'
  | demotion
      {thp₁ thp₂ : ReserveThp}
      {region : Region}
      {frame : Option Nat}
      {t' : ThpAllocator}
      (hSelf : t = .reserve t.pool)
      (hLookup : t.pool.twoMbMap.lookup (va / 2 ^ 21) = none)
      (hCall : fromBuddy t.pool 4096 = some (none, thp₁))
      (hDemote : demotePage thp₁ pick = some (region, thp₂))
      (hRetry : fromBuddy thp₂ 4096 = some (frame, t'.pool)) :
      Answers t va pick (frame, 12) t'
  | refused
      {t' : ThpAllocator}
      (hPool : t'.pool = t.pool) :
      Answers t va pick (none, 12) t'

theorem answers_reserve
    {thp thp' : ReserveThp}
    {va pick : Nat}
    {placement : Placement}
    (hCall : thp.allocate 4096 va false pick =
      some (placement, thp')) :
    Answers (.reserve thp) va pick
      (placement.frame, placement.pageSize)
      (.reserve thp') := by
  cases serves_of_allocate hCall with
  | @inRegion region b hFound hOpen promoted hPromotes =>
      have hPromoted : promoted =
          (region.promoted ||
            (ThpAllocator.reserve thp).promotes region
              (va / 2 ^ 12 % 512)) := by
        rw [hOpen, Bool.false_or]
        exact hPromotes.symm
      exact @Answers.inRegion (.reserve thp) va pick region
        (useOf region (va / 2 ^ 12 % 512) promoted) b
        (.reserve _) hFound rfl hPromoted rfl
  | fallback hLookup hDepleted hBuddy =>
      exact .fallback hBuddy
  | demotion hLookup hDepleted hBuddy hDemote hRetry =>
      exact .demotion rfl hLookup hBuddy hDemote hRetry

/- A page that is used in a region of `UtopiaAllocator`. -/
theorem useRegion_spec
    (a : Utopia.Allocator)
    (region : Region)
    (offset : Nat) :
    let r := Utopia.Allocator.useRegion
      a.thpPromotionThreshold region offset
    r.2.regionBegin = region.regionBegin ∧
      r.2.promoted =
        (region.promoted ||
          (ThpAllocator.utopia a).promotes region offset) ∧
      r.1 = (frameIn region offset r.2.promoted, r.2.promoted) := by
  intro r
  have hUse :
      r = Utopia.Allocator.useRegion
        a.thpPromotionThreshold region offset := rfl
  clear_value r
  unfold Utopia.Allocator.useRegion at hUse
  simp only at hUse
  split_ifs at hUse with hPromoted hBit hEnough
  · subst hUse
    simp [hPromoted, frameIn]
  · subst hUse
    rw [Bool.not_eq_true] at hPromoted
    simp [hPromoted, hBit, ThpAllocator.promotes, frameIn]
  · subst hUse
    rw [Bool.not_eq_true] at hPromoted hBit
    have hAbove : a.thpPromotionThreshold * 512 ≤
        100 * (useOf region offset false).count := hEnough
    simp [hPromoted, hBit, ThpAllocator.promotes, frameIn, hAbove]
  · subst hUse
    rw [Bool.not_eq_true] at hPromoted hBit
    have hBelow : ¬ a.thpPromotionThreshold * 512 ≤
        100 * (useOf region offset false).count := hEnough
    simp [hPromoted, hBit, ThpAllocator.promotes, frameIn, hBelow]

/- A page that is used in a region that was found for it. -/
theorem answers_useTracked
    {a : Utopia.Allocator}
    {va : Nat}
    (pick : Nat)
    {region : Region}
    {b : Buddy}
    (hFound : Found (ThpAllocator.utopia a).pool (va / 2 ^ 21)
      region b) :
    let r := Utopia.Allocator.useTracked
      { a with buddy := b } va region
    Answers (.utopia a) va pick
      (some r.1.1, if r.1.2 then 21 else 12)
      (.utopia r.2) := by
  intro r
  rcases useRegion_spec a region (va / 2 ^ 12 % 512) with
    ⟨hBegin, hPromoted, hPlaced⟩
  have hAnswer : r.1 = _ := hPlaced
  rw [hAnswer]
  exact .inRegion hFound hBegin hPromoted rfl

theorem answers_utopia
    {a a' : Utopia.Allocator}
    {va : Nat}
    (pick : Nat)
    {answer : Option (Nat × Bool)}
    (hCall : a.tryAllocateTHP va = some (answer, a')) :
    Answers (.utopia a) va pick
      (answer.map Prod.fst,
        if answer.any Prod.snd then 21 else 12)
      (.utopia a') := by
  unfold Utopia.Allocator.tryAllocateTHP at hCall
  cases hLookup : a.thpRegions.lookup (va / 2 ^ 21) with
  | some region =>
      simp only [hLookup, Option.some.injEq, Prod.mk.injEq] at hCall
      rcases hCall with ⟨hAnswer, hState⟩
      subst hAnswer
      subst hState
      exact answers_useTracked pick (.tracked hLookup)
  | none =>
      simp only [hLookup] at hCall
      cases hReserve : a.buddy.reserve2mbPage with
      | none => simp [hReserve] at hCall
      | some r =>
          rcases r with ⟨block, b⟩
          cases block with
          | none =>
              simp only [hReserve, Option.some.injEq,
                Prod.mk.injEq] at hCall
              rcases hCall with ⟨hAnswer, hState⟩
              subst hAnswer
              subst hState
              have hSame := Buddy.reserve2mbPage_none hReserve
              exact .refused (by simp [ThpAllocator.pool, hSame])
          | some block =>
              simp only [hReserve, Option.some.injEq,
                Prod.mk.injEq] at hCall
              rcases hCall with ⟨hAnswer, hState⟩
              subst hAnswer
              subst hState
              exact answers_useTracked pick
                (.reserved hLookup hReserve)

/- Every fault has one of the outcomes. -/
theorem answers_of_fault
    {t t' : ThpAllocator}
    {va pick : Nat}
    {answer : Option Nat × Nat}
    (hFault : t.fault va pick = some (answer, t')) :
    Answers t va pick answer t' := by
  cases t with
  | reserve thp =>
      rcases Option.map_eq_some_iff.mp hFault with
        ⟨⟨placement, thp'⟩, hCall, hEq⟩
      simp only [Prod.mk.injEq] at hEq
      rw [← hEq.1, ← hEq.2]
      exact answers_reserve hCall
  | utopia a =>
      rcases Option.map_eq_some_iff.mp hFault with
        ⟨⟨placed, a'⟩, hCall, hEq⟩
      simp only [Prod.mk.injEq] at hEq
      rw [← hEq.1, ← hEq.2]
      exact answers_utopia pick hCall

/- A frame from the free lists, for both allocators. -/
theorem fromBuddy_of_frame
    {t t' : ThpAllocator}
    {answer : Option Nat × Nat}
    (hFrame : t.frame = some (answer, t')) :
    ∃ frame, answer = (frame, 12) ∧
      fromBuddy t.pool 4096 = some (frame, t'.pool) := by
  cases t with
  | reserve thp =>
      rcases Option.map_eq_some_iff.mp hFrame with
        ⟨⟨frame, thp'⟩, hCall, hEq⟩
      simp only [Prod.mk.injEq] at hEq
      rw [← hEq.1, ← hEq.2]
      exact ⟨frame, rfl, hCall⟩
  | utopia a =>
      rcases Option.map_eq_some_iff.mp hFrame with
        ⟨r, hCall, hEq⟩
      rcases Option.map_eq_some_iff.mp hCall with
        ⟨⟨frame, b⟩, hBuddy, hEq'⟩
      subst hEq'
      simp only [Prod.mk.injEq] at hEq
      rw [← hEq.1, ← hEq.2]
      refine ⟨frame, rfl, ?_⟩
      simp [fromBuddy, ThpAllocator.pool, hBuddy]

------------------------------------------------------------
-- Steps And Runs
------------------------------------------------------------

/- The invariant of runs without sharing. -/
structure Inv (s : System) : Prop where
  backing : Backing s.allocator.pool (s.grants.map Grant.use)
  isolated : Isolated s

/- A grant that no other grant meets. -/
theorem inv_cons
    {s : System}
    (hIsolated : Isolated s)
    {t : ThpAllocator}
    {g : Grant}
    (hBacking : Backing t.pool ((g :: s.grants).map Grant.use))
    (hApart : ∀ g' ∈ s.grants, g.app ≠ g'.app →
      g.use.frames.Apart g'.use.frames) :
    Inv ⟨t, g :: s.grants⟩ :=
  ⟨hBacking, List.Pairwise.cons hApart hIsolated⟩

variable {s s' : System}

/- A frame from the free lists, or none when they are empty. -/
theorem inv_fromBuddy
    (hInv : Inv s)
    {thp : ReserveThp}
    (hBacking : Backing thp (s.grants.map Grant.use))
    {frame : Option Nat}
    {t' : ThpAllocator}
    (hCall : fromBuddy thp 4096 = some (frame, t'.pool))
    (app : Nat)
    (page : Option Nat) :
    Inv (answered s app page ((frame, 12), t')) := by
  rcases backing_fromBuddy hBacking hCall with
    ⟨hNone, hSame, -⟩ | ⟨f, hFrame, hNext, hApart⟩
  · subst hNone
    refine ⟨?_, hInv.isolated⟩
    simpa [answered, usesOf, hSame] using hBacking
  · subst hFrame
    refine inv_cons hInv.isolated (hNext page) ?_
    intro g hMem _
    exact hApart g.use (List.mem_map_of_mem hMem)

/-
  In a region that is not promoted a use of another page is a
  use of another frame.
-/
theorem apart_of_inRegion
    {key : Nat}
    {region : Region}
    {page : Nat}
    (hKey : page / 512 = key)
    {v : Use}
    (hIn : InRegion (key, region) v)
    (hOpen : region.promoted = false)
    (hNe : v.page ≠ some page) :
    Span.Apart ⟨region.regionBegin + page % 512,
      region.regionBegin + page % 512⟩ v.frames := by
  rcases hIn with ⟨q, hPage, hKey', hSmall | hLarge⟩
  · rw [hSmall.2, Span.apart_iff]
    have hDiff : q ≠ page := by
      intro hEq
      exact hNe (hEq ▸ hPage)
    simp only at hKey' ⊢
    omega
  · rw [hOpen] at hLarge
    exact absurd hLarge.1 (by decide)

/- A fault that keeps the applications separate. -/
theorem inv_fault
    (hInv : Inv s)
    {app va pick : Nat}
    (hSeparate : Separate s (.fault app va pick))
    (hSpares : Spares s (.fault app va pick))
    {answer : Option Nat × Nat}
    {t' : ThpAllocator}
    (hAnswers : Answers s.allocator va pick answer t') :
    Inv (answered s app (some (va / 2 ^ 12)) (answer, t')) := by
  have hKey : va / 2 ^ 12 / 512 = va / 2 ^ 21 :=
    (region_eq va).symm
  cases hAnswers with
  | @inRegion region region' b t' hFound hBegin hPromoted
      hPool =>
      have hStays :
          region.promoted = true → region'.promoted = true := by
        intro hLarge
        rw [hPromoted, hLarge, Bool.true_or]
      have hFrame : ∀ offset,
          frameIn region offset region'.promoted =
            frameIn region' offset region'.promoted := by
        intro offset
        simp only [frameIn, hBegin]
      have hNew := inRegion_usesOf region' va _ hKey
      rw [← hFrame] at hNew
      rcases backing_found hInv.backing hFound hBegin hStays
          hNew with ⟨hNext, hOthers⟩
      refine inv_cons hInv.isolated ?_ ?_
      · rw [hPool]
        exact hNext
      · intro g hMem hNe
        rcases hOthers g.use (List.mem_map_of_mem hMem) with
          ⟨hLookup, hRegion⟩ | hApart
        · have hWithin : g.Within (va / 2 ^ 21) := by
            rcases hRegion with ⟨q, hPage, hQ, -⟩
            simp [Grant.Within, hPage, hQ]
          rcases hSeparate region hLookup g hMem hNe.symm hWithin
            with
            ⟨hOpen, hBelow, hPage⟩
          have hSmall : region'.promoted = false := by
            rw [hPromoted, hOpen, hBelow]
            rfl
          rw [hSmall]
          exact apart_of_inRegion hKey hRegion hOpen hPage
        · exact hApart
  | fallback hCall =>
      exact inv_fromBuddy hInv hInv.backing hCall app _
  | @demotion thp₁ thp₂ region frame t' hSelf hLookup hCall
      hDemote hRetry =>
      rcases backing_fromBuddy hInv.backing hCall with
        ⟨-, hSame, hEmpty⟩ | ⟨f, hFrame, -, -⟩
      · subst hSame
        simp only [Spares] at hSpares
        rw [hSelf] at hSpares
        have hFull := hSpares hLookup (fun k _ => hEmpty k)
        rcases backing_demotePage hInv.backing hFull hDemote
          with ⟨-, hNext⟩
        exact inv_fromBuddy hInv hNext hRetry app _
      · cases hFrame
  | refused hPool =>
      refine ⟨?_, hInv.isolated⟩
      simpa [answered, usesOf, hPool] using hInv.backing

theorem inv_step
    {op : Op}
    (hInv : Inv s)
    (hCond : Separate s op ∧ Spares s op)
    (hStep : step s op = some s') :
    Inv s' := by
  cases op with
  | fault app va pick =>
      rcases Option.map_eq_some_iff.mp hStep with
        ⟨⟨answer, t'⟩, hFault, hEq⟩
      subst hEq
      exact inv_fault hInv hCond.1 hCond.2 (answers_of_fault hFault)
  | frame app =>
      rcases Option.map_eq_some_iff.mp hStep with
        ⟨⟨answer, t'⟩, hFrame, hEq⟩
      subst hEq
      rcases fromBuddy_of_frame hFrame with
        ⟨frame, hAnswer, hCall⟩
      subst hAnswer
      exact inv_fromBuddy hInv hInv.backing hCall app none

/- The segments are added beside the free lists. -/
theorem pool_addRestSegs
    {fingerprintBits : Nat}
    {configs : List Utopia.RestSegConfig}
    {a a' : Utopia.Allocator}
    (hAdd : Utopia.Allocator.addRestSegs fingerprintBits
      configs a = some a') :
    (ThpAllocator.utopia a').pool =
      (ThpAllocator.utopia a).pool := by
  induction configs generalizing a with
  | nil =>
      rw [Utopia.Allocator.addRestSegs, Option.some.injEq] at hAdd
      rw [hAdd]
  | cons c configs ih =>
      rw [Utopia.Allocator.addRestSegs] at hAdd
      rcases Option.bind_eq_some_iff.mp hAdd with
        ⟨next, hFirst, hRest⟩
      rcases Option.map_eq_some_iff.mp hFirst with
        ⟨r, -, hEq⟩
      rw [ih hRest, ← hEq]
      rfl

/- A constructed allocator tracks no region. -/
theorem backing_constructed
    {t : ThpAllocator}
    (hConstructed : t.Constructed) :
    Backing t.pool [] := by
  cases t with
  | reserve thp =>
      rcases hConstructed with
        ⟨memorySize, maxOrder, kernelSize, threshold, hConstruct⟩
      rcases Option.map_eq_some_iff.mp hConstruct with
        ⟨b, hBuddy, hEq⟩
      subst hEq
      refine ⟨by simp [ThpAllocator.pool], [], ?_, by simp⟩
      simpa [spans, ThpAllocator.pool]
        using Buddy.tiled_construct hBuddy
  | utopia a =>
      rcases hConstructed with
        ⟨memorySize, maxOrder, kernelSize, buddy, configs,
          fingerprintBits, percent, config, hBuddy, hConstruct⟩
      rw [pool_addRestSegs hConstruct]
      refine ⟨by simp [ThpAllocator.pool], [], ?_, by simp⟩
      simpa [spans, ThpAllocator.pool]
        using Buddy.tiled_construct hBuddy

/-
  In every run whose faults keep the applications separate
  and demote no partly used region, no frame is granted to
  two applications and no fault is blocked by a promotion of
  another application.
-/
theorem isolated_along
    (t : ThpAllocator)
    (hConstructed : t.Constructed)
    (ops : List Op)
    (hAlong :
      Run.Along step (fun s op => Separate s op ∧ Spares s op)
        ⟨t, []⟩ ops) :
    ∀ front, front <+: ops →
      ∀ s, Run.run step ⟨t, []⟩ front = some s →
        Isolated s ∧
          ∀ op, front ++ [op] <+: ops → ¬ Blocked s op := by
  intro front hFront s hRun
  have hInit : Inv ⟨t, []⟩ :=
    ⟨backing_constructed hConstructed, List.Pairwise.nil⟩
  rcases Run.along_inv
      (fun _ _ _ hInv hCond hStep => inv_step hInv hCond hStep)
      hInit hAlong hFront hRun with ⟨hInv, hNext⟩
  refine ⟨hInv.isolated, fun op hOp => ?_⟩
  cases op with
  | frame app => exact id
  | fault app va pick =>
      rintro ⟨-, region, hLookup, hPromoted, g, hMem, hNe,
        hWithin, -⟩
      have hOpen := ((hNext _ hOp).1 region hLookup g hMem hNe
        hWithin).1
      rw [hPromoted] at hOpen
      cases hOpen

instance
    (s : System)
    (op : Op) :
    Decidable (Separate s op) :=
  match op with
  | .frame _ => isTrue trivial
  | .fault app va _ =>
      inferInstanceAs (Decidable
        (∀ region ∈ s.allocator.pool.twoMbMap.lookup (va / 2 ^ 21),
          ∀ g ∈ s.grants, g.app ≠ app →
            g.Within (va / 2 ^ 21) →
              region.promoted = false ∧
                s.allocator.promotes region
                  (va / 2 ^ 12 % 512) = false ∧
                g.use.page ≠ some (va / 2 ^ 12)))

instance
    (s : System)
    (op : Op) :
    Decidable (Blocked s op) :=
  match op with
  | .frame _ => isFalse id
  | .fault app va pick =>
      inferInstanceAs (Decidable
        ((s.allocator.fault va pick).isNone = true ∧
          ∃ region ∈ s.allocator.pool.twoMbMap.lookup (va / 2 ^ 21),
            region.promoted = true ∧
              ∃ g ∈ s.grants, g.app ≠ app ∧
                g.Within (va / 2 ^ 21) ∧ g.use.pageSize = 21))

instance (s : System) (op : Op) : Decidable (Spares s op) :=
  match op with
  | .frame _ => isTrue trivial
  | .fault _ va pick =>
      match hAllocator : s.allocator with
      | .utopia _ => isTrue (by simp [Spares, hAllocator])
      | .reserve thp =>
          decidable_of_iff
            (DemotesFull ⟨thp, [], []⟩ (.allocate va false pick))
            (by simp only [Spares, hAllocator])

instance (s : System) : Decidable (Isolated s) :=
  inferInstanceAs (Decidable (s.grants.Pairwise _))

/- Two applications in one region that stays in 4KB pages. -/
theorem isolated_along_pages :
    ∃ thp ∈ ReserveThp.construct 4 9 0 (1 / 2),
      ∃ s ∈ Run.run step ⟨.reserve thp, []⟩
          [.fault 0 0 0, .fault 1 4096 0, .frame 1],
        s.grants.length = 3 ∧ Isolated s := by
  refine ⟨_, Option.get_mem ?_, _, Option.get_mem ?_, ?_,
    (isolated_along (.reserve _)
      ⟨4, 9, 0, 1 / 2, Option.get_mem _⟩ _ ?_ _
      (List.prefix_refl _) _ (Option.get_mem _)).1⟩
  iterate 4 decide +kernel

/-
  A fault on the page of another application returns its
  frame, and a fault in a region that another application has
  promoted aborts.
-/
theorem isolated_along_shared :
    (∃ thp ∈ ReserveThp.construct 4 9 0 (1 / 2),
      ∃ s ∈ Run.run step ⟨.reserve thp, []⟩
          [.fault 0 0 0, .fault 1 0 0],
        ¬ Isolated s) ∧
      (∃ thp ∈ ReserveThp.construct 4 9 0 0,
        ∃ s ∈ Run.run step ⟨.reserve thp, []⟩ [.fault 0 0 0],
          Blocked s (.fault 1 4096 0)) ∧
      ∃ b ∈ Buddy.construct 4 9 0,
        ∃ a ∈ Utopia.Allocator.construct b [] 0 75
            ⟨false, 12, 10, 1, 3, 16, 2, 2, 1024, 8192, 4, 1, 32,
              2⟩,
          ∃ s ∈ Run.run step ⟨.utopia a, []⟩
              [.fault 0 0 0, .fault 1 0 0],
            ¬ Isolated s := by
  decide +kernel

end Thp

end Virtuoso
