import Virtuoso.Lib.Retry
import Virtuoso.PageTable.Basic
import Virtuoso.ReserveThp.Promotion

/-
  Walks that restart after a page fault.

  `initializeWalk` with `restart_walk_after_fault` goes back
  to the label `restart_walk` after a fault, with whatever
  the page table does before that. Without the flag it makes
  one pass. `performPTW` and `translateWithoutTiming` are its
  two callers in `mmu_base.cc`; the latencies, the counters
  and the payload of the prefetcher are left out.

  Main declarations:
    * `WalkDesign.perfect_iff_mapped`
    * `WalkDesign.perfect_iff_of_handled`
-/

namespace Virtuoso

/-
  A page table in the state `σ`: one pass of its walk, and
  what it does before it restarts one. The second gives the
  pages that the fault handler installed, one for each time
  it ran. `none` says that the program ends.
-/
structure WalkDesign (σ : Type) where
  walk : σ → Nat → Option PTWResult
  beforeRestart : σ → Nat → Option (List (Nat × Nat) × σ)

/-
  How a call ended: still in its loop, with the end of the
  program, or with a result, after the fault handler has
  installed some pages.
-/
inductive CallOutcome
    (σ β : Type)
  | running
  | exited
  | returned (result : β) (handled : List (Nat × Nat))
      (state : σ)
deriving DecidableEq

/- What a call returns is changed. -/
def CallOutcome.map
    {σ β γ : Type}
    (f : β → γ) :
    CallOutcome σ β → CallOutcome σ γ
| .running => .running
| .exited => .exited
| .returned result handled state =>
    .returned (f result) handled state

namespace WalkDesign

variable {σ : Type}

/- The loop from `restart_walk`, and the pages installed. -/
def loop
    (d : WalkDesign σ)
    (address : Nat)
    (restartWalkAfterFault : Bool) :
    Retry (σ × List (Nat × Nat)) PTWResult where
  attempt := fun s => d.walk s.1 address
  failed := fun r => restartWalkAfterFault && r.isPagefault
  recover := fun s =>
    (d.beforeRestart s.1 address).map (fun out =>
      (out.2, s.2 ++ out.1))

/-
  The visited entries and `is_pagefault` are not reset when a
  walk restarts.
-/
def combine
    (failures : List PTWResult)
    (r : PTWResult) : PTWResult :=
  { r with
    accesses := failures.flatMap PTWResult.accesses ++ r.accesses
    isPagefault := r.isPagefault || !failures.isEmpty }

/- `PageTable::initializeWalk`, for at most `fuel` passes. -/
def initializeWalk
    (d : WalkDesign σ)
    (address : Nat)
    (restartWalkAfterFault : Bool)
    (fuel : Nat)
    (s : σ) : CallOutcome σ PTWResult :=
  match (d.loop address restartWalkAfterFault).run fuel
      (s, []) with
  | .running => .running
  | .ended => .exited
  | .returned failures r t =>
      .returned (combine failures r) t.2 t.1

/-
  `performPTW` of the timed translation, which does not ask
  for a restart.
-/
def performPTW
    (d : WalkDesign σ)
    (address fuel : Nat)
    (s : σ) : CallOutcome σ PTWResult :=
  d.initializeWalk address false fuel s

/- The address and the page size of a translation. -/
def addressOf
    (address : Nat)
    (page : Nat × Nat) :
    Nat × Nat :=
  (finalPhysicalAddress page.1 page.2 address, page.2)

/-
  `translateWithoutTiming`: the physical address, which is
  computed as in the timed translation, and the page size.
-/
def translateWithoutTiming
    (d : WalkDesign σ)
    (address fuel : Nat)
    (s : σ) : CallOutcome σ (Option (Nat × Nat)) :=
  (d.initializeWalk address true fuel s).map (fun r =>
    r.translation.map (addressOf address))

/- What the timed translation makes of its walk. -/
def timedAddress
    (d : WalkDesign σ)
    (address : Nat)
    (s : σ) : Option (Nat × Nat) :=
  match d.performPTW address 1 s with
  | .returned r _ _ =>
      if r.isPagefault then none
      else r.translation.map (addressOf address)
  | _ => none

/- The walk of the address faults. -/
def Faults
    (d : WalkDesign σ)
    (s : σ)
    (address : Nat) : Prop :=
  ∃ r, d.walk s address = some r ∧ r.isPagefault = true

/- The walk of the address finds the page. -/
def MapsTo
    (d : WalkDesign σ)
    (s : σ)
    (address : Nat)
    (page : Nat × Nat) : Prop :=
  ∃ r, d.walk s address = some r ∧ r.isPagefault = false ∧
    r.translation = some page

/- The table has a page for the address. -/
def Mapped
    (d : WalkDesign σ)
    (s : σ)
    (address : Nat) : Prop :=
  ∃ page, d.MapsTo s address page

/-
  The untimed translation returns. If the address is mapped
  it agrees with the timed one and no fault is handled; if
  not, one fault is handled, and the result is in the page
  that was installed for it.
-/
def Perfect
    (d : WalkDesign σ)
    (s : σ)
    (address : Nat) : Prop :=
  ∃ fuel answer handled t,
    d.translateWithoutTiming address fuel s =
        .returned answer handled t ∧
      (d.Mapped s address →
        handled = [] ∧ answer = d.timedAddress address s ∧
          answer.isSome) ∧
      (¬ d.Mapped s address →
        ∃ page, handled = [page] ∧
          d.MapsTo t address page ∧
          answer = some (addressOf address page))

variable {d : WalkDesign σ} {s t : σ} {address : Nat}

theorem not_mapped_of_faults
    (hFaults : d.Faults s address) :
    ¬ d.Mapped s address := by
  rcases hFaults with ⟨r, hWalk, hFault⟩
  rintro ⟨page, r', hWalk', hFine, -⟩
  rw [hWalk, Option.some.injEq] at hWalk'
  rw [← hWalk', hFault] at hFine
  cases hFine

/- The untimed translation in terms of the loop. -/
theorem translateWithoutTiming_returned_iff
    {answer : Option (Nat × Nat)}
    {handled : List (Nat × Nat)} :
    (∃ fuel, d.translateWithoutTiming address fuel s =
        .returned answer handled t) ↔
      ∃ failures r,
        (d.loop address true).Returns (s, []) failures r
            (t, handled) ∧
          answer = r.translation.map (addressOf address) := by
  constructor
  · rintro ⟨fuel, hCall⟩
    unfold translateWithoutTiming initializeWalk at hCall
    cases hRun : (d.loop address true).run fuel (s, []) with
    | running =>
        rw [hRun] at hCall
        cases hCall
    | ended =>
        rw [hRun] at hCall
        cases hCall
    | returned failures r state =>
        rw [hRun] at hCall
        cases hCall
        exact ⟨failures, r, ⟨fuel, hRun⟩, rfl⟩
  · rintro ⟨failures, r, ⟨fuel, hRun⟩, hAnswer⟩
    refine ⟨fuel, ?_⟩
    unfold translateWithoutTiming initializeWalk
    rw [hRun, hAnswer]
    rfl

/- The timed translation of a mapped address. -/
theorem timedAddress_of_mapsTo
    {page : Nat × Nat}
    (hMaps : d.MapsTo s address page) :
    d.timedAddress address s = some (addressOf address page) := by
  rcases hMaps with ⟨r, hWalk, hFine, hFound⟩
  have hRun : (d.loop address false).run 1 (s, []) =
      .returned [] r (s, []) :=
    Retry.run_of_passed hWalk rfl 0
  simp [timedAddress, performPTW, initializeWalk, hRun,
    combine, hFine, hFound]

/- Every design translates its mapped addresses. -/
theorem perfect_of_mapped
    (hMapped : d.Mapped s address) :
    d.Perfect s address := by
  rcases hMapped with ⟨page, hMaps⟩
  rcases hMaps with ⟨r, hWalk, hFine, hFound⟩
  have hReturns : (d.loop address true).Returns (s, []) [] r
      (s, []) :=
    ⟨1, Retry.run_of_passed hWalk (by simp [loop, hFine]) 0⟩
  have hMaps : d.MapsTo s address page :=
    ⟨r, hWalk, hFine, hFound⟩
  rcases translateWithoutTiming_returned_iff.mpr
    ⟨[], r, hReturns, rfl⟩ with ⟨fuel, hCall⟩
  refine ⟨fuel, _, _, _, hCall, ?_, ?_⟩
  · intro _
    rw [timedAddress_of_mapsTo hMaps, hFound]
    exact ⟨rfl, rfl, rfl⟩
  · intro hNot
    exact absurd ⟨page, hMaps⟩ hNot

/-
  A design that restarts its walk without handling the fault
  translates the mapped addresses only.
-/
theorem perfect_iff_mapped
    (hUnhandled : ∀ s, d.beforeRestart s address = some ([], s)) :
    d.Perfect s address ↔ d.Mapped s address := by
  constructor
  · rintro ⟨fuel, answer, handled, t, hCall, -, hFresh⟩
    by_contra hNot
    rcases hFresh hNot with ⟨page, hHandled, -⟩
    rcases translateWithoutTiming_returned_iff.mp
      ⟨fuel, hCall⟩ with ⟨failures, r, hReturns, -⟩
    have hNone : handled = [] := by
      refine hReturns.invariant (I := fun s => s.2 = []) ?_ rfl
      intro u u' hEmpty hRecover
      simp only [loop, hUnhandled, Option.map_some,
        Option.some.injEq] at hRecover
      rw [← hRecover, List.append_nil]
      exact hEmpty
    rw [hNone] at hHandled
    cases hHandled
  · exact perfect_of_mapped

theorem not_perfect_of_faults
    (hUnhandled : ∀ s, d.beforeRestart s address = some ([], s))
    (hFaults : d.Faults s address) :
    ¬ d.Perfect s address := by
  rw [perfect_iff_mapped hUnhandled]
  exact not_mapped_of_faults hFaults

/- Its walk of any other address is restarted for ever. -/
theorem translateWithoutTiming_eq_running
    (hUnhandled : d.beforeRestart s address = some ([], s))
    (hFaults : d.Faults s address)
    (fuel : Nat) :
    d.translateWithoutTiming address fuel s = .running := by
  rcases hFaults with ⟨r, hWalk, hFault⟩
  have hRun : (d.loop address true).run fuel (s, []) = .running :=
    Retry.run_eq_running hWalk (by simp [loop, hFault])
      (by simp [loop, hUnhandled]) fuel
  rw [translateWithoutTiming, initializeWalk, hRun]
  rfl

/-
  A design that handles one fault before each restart
  translates a faulting address exactly when the page that is
  installed for the first fault is found.
-/
theorem perfect_iff_of_handled
    (hOne : ∀ s out, d.beforeRestart s address = some out →
      out.1.length = 1)
    (hFaults : d.Faults s address) :
    d.Perfect s address ↔
      ∃ page s', d.beforeRestart s address = some ([page], s') ∧
        d.MapsTo s' address page := by
  have hNot := not_mapped_of_faults hFaults
  rcases hFaults with ⟨r, hWalk, hFault⟩
  have hFailed : (d.loop address true).failed r = true := by
    simp [loop, hFault]
  constructor
  · rintro ⟨fuel, answer, handled, t, hCall, -, hFresh⟩
    rcases hFresh hNot with ⟨page, rfl, hMaps, -⟩
    rcases translateWithoutTiming_returned_iff.mp
      ⟨fuel, hCall⟩ with ⟨failures, result, hReturns, -⟩
    -- one page was installed, so one pass has failed
    have hLength := hReturns.length
      (fun s => s.2.length) (by
        intro u u' hRecover
        rcases Option.map_eq_some_iff.mp hRecover with
          ⟨out, hBefore, rfl⟩
        rw [List.length_append, hOne _ _ hBefore])
    rcases Retry.returns_iff.mp hReturns with
      ⟨-, hAttempt, hPassed, -⟩ |
        ⟨q, s', rest, rfl, hAttempt, -, hRecover, hRest⟩
    · have hSame : r = result :=
        Option.some.inj (hWalk.symm.trans hAttempt)
      rw [← hSame, hFailed] at hPassed
      cases hPassed
    · rcases Option.map_eq_some_iff.mp hRecover with
        ⟨out, hBefore, rfl⟩
      have hNil : rest = [] := by
        simpa using hLength
      subst hNil
      rcases Retry.returns_iff.mp hRest with
        ⟨-, -, -, hState⟩ | ⟨_, _, _, hList, -⟩
      · rw [List.nil_append, Prod.mk.injEq] at hState
        rcases hState with ⟨rfl, hPage⟩
        exact ⟨page, out.2, by rw [hBefore, hPage], hMaps⟩
      · cases hList
  · rintro ⟨page, s', hBefore, hMaps⟩
    have hMapsHere := hMaps
    rcases hMaps with ⟨r', hWalk', hFine, hFound⟩
    have hReturns : (d.loop address true).Returns (s, []) [r]
        r' (s', [page]) := by
      refine Retry.returns_iff.mpr (Or.inr ⟨r, (s', [page]),
        [], rfl, hWalk, hFailed, ?_, ?_⟩)
      · simp [loop, hBefore]
      · exact ⟨1, Retry.run_of_passed hWalk'
          (by simp [loop, hFine]) 0⟩
    rcases translateWithoutTiming_returned_iff.mpr
      ⟨_, _, hReturns, rfl⟩ with ⟨fuel, hCall⟩
    refine ⟨fuel, _, _, _, hCall, ?_, ?_⟩
    · intro hMapped
      exact absurd hMapped hNot
    · intro _
      exact ⟨page, rfl, hMapsHere, by rw [hFound]; rfl⟩

/- A program that ends in its walk has not translated. -/
theorem not_perfect_of_walk
    (hWalk : d.walk s address = none) :
    ¬ d.Perfect s address := by
  rintro ⟨fuel, answer, handled, t, hCall, -⟩
  rcases translateWithoutTiming_returned_iff.mp
    ⟨fuel, hCall⟩ with ⟨failures, result, hReturns, -⟩
  have hNone : (d.loop address true).attempt (s, []) = none :=
    hWalk
  rcases Retry.returns_iff.mp hReturns with
    ⟨-, hAttempt, -⟩ | ⟨_, _, _, -, hAttempt, -⟩
  · rw [hNone] at hAttempt
    cases hAttempt
  · rw [hNone] at hAttempt
    cases hAttempt

end WalkDesign

end Virtuoso
