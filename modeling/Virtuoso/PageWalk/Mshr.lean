import Mathlib.Order.WellFounded
import Virtuoso.Lib.Run

/-
  The registers of `ptmshrs.h` that count the page walks in
  flight, as the MMUs use them.

  A walk asks for the delay until a walker is free, starts
  after it and is recorded with the time at which it ends.
  Completed walks are taken from the front of the queue.

  Times are 64-bit numbers of femtoseconds. The constructor
  leaves the field `min_time` at zero, the default of a
  `SubsecondTime`; no walk ends before that, so the field
  keeps this value and the delay is always zero. The field
  `max_time`, which nothing reads, is left out.

  Main declarations:
    * `Mshr.getSlotAllocationDelay_eq_zero`
    * `MshrSession.bounds_iff`
-/

namespace Virtuoso

/- A walk that a register waits for. -/
structure MshrEntry where
  requestTime : BitVec 64
  completionTime : BitVec 64
deriving DecidableEq

/- `MSHR`, with the oldest entry first. -/
structure Mshr where
  maxEntries : Nat
  entries : List MshrEntry
  minTime : BitVec 64
deriving DecidableEq

namespace Mshr

/- `MSHR::MSHR`. -/
def construct (maxEntries : Nat) : Mshr :=
  ⟨maxEntries, [], 0#64⟩

/- `MSHR::allocate`. -/
def allocate (m : Mshr) (entry : MshrEntry) : Mshr :=
  { m with
    entries := m.entries ++ [entry]
    minTime :=
      if entry.completionTime < m.minTime then
        entry.completionTime
      else
        m.minTime }

/- `MSHR::getSlotAllocationDelay`. -/
def getSlotAllocationDelay
    (m : Mshr)
    (requestIncoming : BitVec 64) : BitVec 64 :=
  if m.entries = [] then
    0#64
  else if m.maxEntries < m.entries.length + 1 then
    if requestIncoming < m.minTime then
      m.minTime - requestIncoming
    else
      0#64
  else
    0#64

/- `MSHR::removeCompletedEntries`. -/
def removeCompletedEntries
    (m : Mshr)
    (now : BitVec 64) : Mshr :=
  { m with
    entries := m.entries.dropWhile
      (fun entry => decide (entry.completionTime ≤ now)) }

theorem getSlotAllocationDelay_eq_zero
    {m : Mshr}
    (hMin : m.minTime = 0#64)
    (requestIncoming : BitVec 64) :
    m.getSlotAllocationDelay requestIncoming = 0#64 := by
  unfold getSlotAllocationDelay
  rw [hMin, if_neg BitVec.not_lt_zero]
  split_ifs <;> rfl

theorem minTime_allocate
    {m : Mshr}
    (hMin : m.minTime = 0#64)
    (entry : MshrEntry) :
    (m.allocate entry).minTime = 0#64 := by
  simp only [allocate]
  rw [hMin, if_neg BitVec.not_lt_zero]

end Mshr

/- A recorded walk, from its start to its completion. -/
structure TimedWalk where
  start : BitVec 64
  completion : BitVec 64
deriving DecidableEq

/- The walk is under way at a time. -/
def TimedWalk.Running
    (w : TimedWalk)
    (t : BitVec 64) : Prop :=
  w.start ≤ t ∧ t < w.completion

instance
    (w : TimedWalk)
    (t : BitVec 64) :
    Decidable (w.Running t) :=
  inferInstanceAs (Decidable (_ ∧ _))

/- A walk under way has not ended, so it has time left. -/
theorem TimedWalk.Running.sub_ne_zero
    {w : TimedWalk}
    {t : BitVec 64}
    (hRunning : w.Running t) :
    w.completion - t ≠ 0#64 := by
  intro hZero
  have hEq : w.completion = t := by
    rw [← BitVec.sub_add_cancel w.completion t, hZero,
      BitVec.zero_add]
  exact BitVec.lt_irrefl t (hEq ▸ hRunning.2)

/- What an MMU does: remove completed walks, or walk. -/
inductive MshrOp
  | removeCompleted (now : BitVec 64)
  | walk (request latency : BitVec 64)
deriving DecidableEq

/- The registers, and all walks that were recorded. -/
structure MshrSession where
  mshr : Mshr
  walks : List TimedWalk
deriving DecidableEq

namespace MshrSession

/- The registers of a new MMU. -/
def construct (maxEntries : Nat) : MshrSession :=
  ⟨Mshr.construct maxEntries, []⟩

/- The walk that a request leads to. -/
def timed
    (s : MshrSession)
    (request latency : BitVec 64) : TimedWalk :=
  let delay := s.mshr.getSlotAllocationDelay request
  ⟨request + delay, request + delay + latency⟩

/-
  One operation of `performAddressTranslation` on the
  registers.
-/
def step (s : MshrSession) : MshrOp → Option MshrSession
| .removeCompleted now =>
    some { s with mshr := s.mshr.removeCompletedEntries now }
| .walk request latency =>
    let w := s.timed request latency
    some ⟨s.mshr.allocate ⟨request, w.completion⟩, s.walks ++ [w]⟩

/- The number of recorded walks under way at a time. -/
def runningAt (s : MshrSession) (t : BitVec 64) : Nat :=
  s.walks.countP (fun w => decide (w.Running t))

/- All walkers are busy. -/
def Busy (s : MshrSession) (t : BitVec 64) : Prop :=
  s.mshr.maxEntries ≤ s.runningAt t

/- At no time do more walks overlap than there are walkers. -/
def Within (s : MshrSession) : Prop :=
  ∀ t, s.runningAt t ≤ s.mshr.maxEntries

/-
  When all walkers are busy, the delay is the time to the
  earliest completion of the walks under way.
-/
def WaitsForFirst (s : MshrSession) : MshrOp → Prop
| .removeCompleted _ => True
| .walk request _ =>
    s.Busy request →
      ∀ w ∈ s.walks, w.Running request →
        (∀ w' ∈ s.walks, w'.Running request →
          w.completion ≤ w'.completion) →
        s.mshr.getSlotAllocationDelay request =
          w.completion - request

/-
  What is asked of an operation: the walks recorded then stay
  within the walkers, and a request waits for the first
  walker that gets free.
-/
def Bounds (s : MshrSession) (op : MshrOp) : Prop :=
  (∀ s', s.step op = some s' → s'.Within) ∧ s.WaitsForFirst op

/- A walker is free when the request comes. -/
def FreeSlot (s : MshrSession) : MshrOp → Prop
| .removeCompleted _ => True
| .walk request _ => ¬ s.Busy request

instance
    (s : MshrSession)
    (op : MshrOp) :
    Decidable (s.FreeSlot op) :=
  match op with
  | .removeCompleted _ => inferInstanceAs (Decidable True)
  | .walk _ _ => inferInstanceAs (Decidable (¬ _ ≤ _))

/- The request times of the walks. -/
def requests (ops : List MshrOp) : List (BitVec 64) :=
  ops.filterMap (fun
    | .removeCompleted _ => none
    | .walk request _ => some request)

variable {s : MshrSession}

theorem timed_of_minTime
    (hMin : s.mshr.minTime = 0#64)
    (request latency : BitVec 64) :
    s.timed request latency = ⟨request, request + latency⟩ := by
  simp only [timed,
    Mshr.getSlotAllocationDelay_eq_zero hMin,
    BitVec.add_zero]

theorem minTime_step
    {s s' : MshrSession}
    {op : MshrOp}
    (hMin : s.mshr.minTime = 0#64)
    (hStep : s.step op = some s') :
    s'.mshr.minTime = 0#64 := by
  cases op with
  | removeCompleted now =>
      cases hStep
      exact hMin
  | walk request latency =>
      cases hStep
      exact Mshr.minTime_allocate hMin _

theorem maxEntries_step
    {s s' : MshrSession}
    {op : MshrOp}
    (hStep : s.step op = some s') :
    s'.mshr.maxEntries = s.mshr.maxEntries := by
  cases op with
  | removeCompleted now =>
      cases hStep
      rfl
  | walk request latency =>
      cases hStep
      rfl

/- Among the walks under way, one ends first. -/
theorem exists_first
    {t : BitVec 64}
    (hSome : 0 < s.runningAt t) :
    ∃ w ∈ s.walks, w.Running t ∧
      ∀ w' ∈ s.walks, w'.Running t →
        w.completion ≤ w'.completion := by
  rcases List.countP_pos_iff.mp hSome with
    ⟨w₀, hMem₀, hRunning₀⟩
  have hWf :=
    (measure fun w : TimedWalk => w.completion.toNat).wf
  rcases hWf.has_min {w | w ∈ s.walks ∧ w.Running t}
      ⟨w₀, hMem₀, of_decide_eq_true hRunning₀⟩ with
    ⟨w, ⟨hMem, hRunning⟩, hMin⟩
  refine ⟨w, hMem, hRunning, ?_⟩
  intro w' hMem' hRunning'
  exact BitVec.not_lt.mp (hMin w' ⟨hMem', hRunning'⟩)

/-
  A walk that starts while a walker is free keeps the walks
  within the walkers: the walks that overlap it later were
  under way when it started.
-/
theorem within_walk
    {w : TimedWalk}
    (hWithin : s.Within)
    (hOrdered : ∀ w' ∈ s.walks, w'.start ≤ w.start)
    (hFree : s.runningAt w.start < s.mshr.maxEntries)
    (t : BitVec 64) :
    (s.walks ++ [w]).countP
      (fun w' => decide (w'.Running t)) ≤ s.mshr.maxEntries := by
  rw [List.countP_append, List.countP_singleton]
  by_cases hRunning : w.Running t
  · have hLe : s.walks.countP
        (fun w' => decide (w'.Running t)) ≤
          s.runningAt w.start := by
      apply List.countP_mono_left
      intro w' hMem hLater
      have hLate := of_decide_eq_true hLater
      exact decide_eq_true ⟨hOrdered w' hMem,
        Nat.lt_of_le_of_lt hRunning.1 hLate.2⟩
    simp only [hRunning, decide_true, if_true]
    omega
  · simp only [hRunning, decide_false, Bool.false_eq_true,
      if_false, Nat.add_zero]
    exact hWithin t

/- A removal records nothing. -/
theorem bounds_removeCompleted
    (hWithin : s.Within)
    (now : BitVec 64) :
    s.Bounds (.removeCompleted now) := by
  refine ⟨?_, ?_⟩
  · intro s' hStep
    cases hStep
    exact hWithin
  · trivial

/-
  A walk is served as asked exactly when a walker is free. A
  request that finds all of them busy gets no delay, while a
  walk under way still has time left.
-/
theorem bounds_walk_iff
    {request latency : BitVec 64}
    (hMin : s.mshr.minTime = 0#64)
    (hWithin : s.Within)
    (hLeast : 1 ≤ s.mshr.maxEntries)
    (hOrdered : ∀ w ∈ s.walks, w.start ≤ request) :
    s.Bounds (.walk request latency) ↔ ¬ s.Busy request := by
  constructor
  · rintro ⟨-, hWaits⟩ hBusy
    rcases exists_first (Nat.lt_of_lt_of_le hLeast hBusy) with
      ⟨w, hMem, hRunning, hFirst⟩
    have hDelay := hWaits hBusy w hMem hRunning hFirst
    rw [Mshr.getSlotAllocationDelay_eq_zero hMin] at hDelay
    exact TimedWalk.Running.sub_ne_zero hRunning hDelay.symm
  · intro hFree
    refine ⟨?_, ?_⟩
    · intro s' hStep t
      cases hStep
      rw [timed_of_minTime hMin]
      have hLt : s.runningAt request < s.mshr.maxEntries :=
        Nat.lt_of_not_le hFree
      exact within_walk (w := ⟨request, request + latency⟩)
        hWithin hOrdered hLt t
    · intro hBusy
      exact absurd hBusy hFree

/- Requests come after the start of every recorded walk. -/
def Ordered (s : MshrSession) : MshrOp → Prop
| .removeCompleted _ => True
| .walk request _ => ∀ w ∈ s.walks, w.start ≤ request

/- The invariant of the runs. -/
structure Inv
    (maxEntries : Nat)
    (s : MshrSession) : Prop where
  maxEntries_eq : s.mshr.maxEntries = maxEntries
  minTime_eq : s.mshr.minTime = 0#64
  within : s.Within

theorem inv_construct
    (maxEntries : Nat) :
    Inv maxEntries (construct maxEntries) :=
  ⟨rfl, rfl, fun _ => Nat.zero_le _⟩

theorem bounds_iff_freeSlot
    {maxEntries : Nat}
    {op : MshrOp}
    (hLeast : 1 ≤ maxEntries)
    (hInv : Inv maxEntries s)
    (hOrdered : s.Ordered op) :
    s.Bounds op ↔ s.FreeSlot op := by
  cases op with
  | removeCompleted now =>
      exact iff_of_true
        (bounds_removeCompleted hInv.within now) trivial
  | walk request latency =>
      exact bounds_walk_iff hInv.minTime_eq hInv.within
        (hInv.maxEntries_eq ▸ hLeast) hOrdered

/- Requests that do not go back in time are ordered. -/
theorem along_ordered
    {ops : List MshrOp}
    (hMin : s.mshr.minTime = 0#64)
    (hTimes : (requests ops).Pairwise (· ≤ ·))
    (hPast : ∀ w ∈ s.walks, ∀ t ∈ requests ops, w.start ≤ t) :
    Run.Along step Ordered s ops := by
  induction ops generalizing s with
  | nil => trivial
  | cons op ops ih =>
      refine ⟨?_, fun s' hStep => ?_⟩
      · cases op with
        | removeCompleted now => trivial
        | walk request latency =>
            intro w hMem
            exact hPast w hMem request (List.mem_cons_self ..)
      · have hMin' := minTime_step hMin hStep
        cases op with
        | removeCompleted now =>
            cases hStep
            exact ih hMin' hTimes hPast
        | walk request latency =>
            have hSplit := List.pairwise_cons.mp hTimes
            cases hStep
            apply ih hMin' hSplit.2
            intro w hMem t hTime
            rcases List.mem_append.mp hMem with hOld | hNew
            · exact hPast w hOld t (List.mem_cons_of_mem _ hTime)
            · rw [List.mem_singleton.mp hNew, timed_of_minTime hMin]
              exact hSplit.1 t hTime

/-
  Every walk of a run is served as asked exactly when every
  request finds a free walker.
-/
theorem bounds_iff
    {maxEntries : Nat}
    {ops : List MshrOp}
    (hLeast : 1 ≤ maxEntries)
    (hTimes : (requests ops).Pairwise (· ≤ ·)) :
    Run.Along step Bounds (construct maxEntries) ops ↔
      Run.Along step FreeSlot (construct maxEntries) ops := by
  have hOrdered : Run.Along step Ordered
      (construct maxEntries) ops :=
    along_ordered rfl hTimes
      (fun w hMem => absurd hMem List.not_mem_nil)
  apply Run.along_iff_along _ _ (inv_construct maxEntries) hOrdered
  · intro s op s' hInv _ hBounds hStep
    exact ⟨(maxEntries_step hStep).trans hInv.maxEntries_eq,
      minTime_step hInv.minTime_eq hStep,
      hBounds.1 s' hStep⟩
  · intro s op hInv hOp
    exact bounds_iff_freeSlot hLeast hInv hOp

/- Two walkers, and a third walk after the first. -/
theorem bounds_run_two :
    Run.Along step Bounds (construct 2)
      [.walk 0 100, .walk 10 20, .removeCompleted 40,
        .walk 40 100] :=
  (bounds_iff (by decide) (by decide)).mpr (by decide)

/- One walker, and a second walk during the first. -/
theorem not_bounds_run_one :
    ¬ Run.Along step Bounds (construct 1)
      [.removeCompleted 0, .walk 0 100, .removeCompleted 10,
        .walk 10 100] := by
  rintro ⟨-, hAfter⟩
  have hFirst := (hAfter _ rfl).2 _ rfl
  have hSecond := (hFirst.2 _ rfl).1
  exact absurd (hSecond.1 _ rfl 50) (by decide)

end MshrSession

end Virtuoso
