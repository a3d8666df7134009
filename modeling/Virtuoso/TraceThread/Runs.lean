import Virtuoso.TraceThread.Basic

/-
  What the main loop loses and repeats.

  A command at which `Read` returns early leaves its argument
  unfilled, and the instruction of the kernel that the loop
  holds at a context switch is never executed. So the loop is
  faithful exactly to kernel traces without such commands.

  Where each context switch comes after an instruction, the
  instructions of the application are still executed in their
  order, a faulting one again after its handling, and those
  of the kernel are executed in their order but for the last
  one before each switch.

  Main declarations:
    * `TraceThread.faithful_iff`
-/

------------------------------------------------------------
-- Traces And Logs
------------------------------------------------------------

namespace Virtuoso

namespace TraceReader

variable {ι : Type}

/- The instructions of a trace before its end. -/
def instructions :
    List (TraceRecord ι) → List ι
| [] => []
| .instruction i :: records => i :: instructions records
| .magic _ :: records => instructions records
| .ending :: _ => []

/- No command before the end makes `Read` return. -/
def Unswitched :
    List (TraceRecord ι) → Prop
| [] => True
| .instruction _ :: records => Unswitched records
| .magic command :: records =>
    command.result ≠ 42 ∧ Unswitched records
| .ending :: _ => True

/- The next `Read` is not one that returns at a command. -/
def Opens (records : List (TraceRecord ι)) : Prop :=
  ∀ switched, (readFrom records).1 ≠ .unfilled switched

/-
  The commands at which `Read` returns before the end are
  context switches, none of them right after another.
-/
def Handled :
    List (TraceRecord ι) → Prop
| [] => True
| .instruction _ :: records => Handled records
| .magic command :: records =>
    (command.result = 42 →
      command = .contextSwitch ∧ Opens records) ∧
    Handled records
| .ending :: _ => True

/-
  All that a `Read` can do: it fills its argument with the
  next instruction, returns at a command, or finds the end.
-/
inductive Reads
    (records : List (TraceRecord ι)) :
    ReadOutcome ι × TraceReader ι → Prop
  | filled {i : ι} {rest : List (TraceRecord ι)} :
      instructions records = i :: instructions rest →
      rest.length < records.length →
      (Unswitched records ↔ Unswitched rest) →
      (Handled records → Handled rest) →
      Reads records (.filled i, ⟨rest, false⟩)
  | unfilled {switched : Bool}
      {rest : List (TraceRecord ι)} :
      ¬ Unswitched records →
      instructions records = instructions rest →
      (Handled records →
        switched = true ∧ Opens rest ∧ Handled rest) →
      Reads records (.unfilled switched, ⟨rest, false⟩)
  | ended {r : TraceReader ι} :
      instructions records = [] → Unswitched records →
      Reads records (.ended, r)

theorem reads_readFrom
    (records : List (TraceRecord ι)) :
    Reads records (readFrom records) := by
  induction records with
  | nil => exact .ended rfl trivial
  | cons record records ih =>
      cases record with
      | instruction i =>
          exact .filled rfl (by simp) Iff.rfl
            (fun hHandled => hHandled)
      | ending => exact .ended rfl trivial
      | magic command =>
          unfold readFrom
          split_ifs with hResult
          · refine .unfilled (fun hUn => hUn.1 hResult) rfl ?_
            rintro ⟨hSwitch, hRest⟩
            rcases hSwitch hResult with ⟨hEq, hOpens⟩
            exact ⟨by rw [hEq]; rfl, hOpens, hRest⟩
          · generalize readFrom records = result at ih ⊢
            cases ih with
            | filled hNext hLess hUn hHandled =>
                refine .filled hNext ?_ ?_ ?_
                · exact Nat.lt_succ_of_lt hLess
                · exact (and_iff_right hResult).trans hUn
                · exact fun hBoth => hHandled hBoth.2
            | unfilled hUn hSame hHandled =>
                exact .unfilled (fun hBoth => hUn hBoth.2) hSame
                  (fun hBoth => hHandled hBoth.2)
            | ended hNone hUn =>
                exact .ended hNone ⟨hResult, hUn⟩

end TraceReader

namespace TraceThread

open TraceReader hiding read

variable {κ α : Type}

/- The instructions read from the kernel trace. -/
def decodedKernel (log : List (TraceEvent κ α)) : List κ :=
  log.filterMap (fun
    | .decodedKernel i => some i
    | _ => none)

/- The instructions of the kernel that are executed. -/
def executedKernel (log : List (TraceEvent κ α)) : List κ :=
  log.filterMap (fun
    | .executed (.kernel i) _ => some i
    | _ => none)

/- The executions of the application, and which fault. -/
def executedApp
    (log : List (TraceEvent κ α)) :
    List (α × Bool) :=
  log.filterMap (fun
    | .executed (.app i) faults => some (i, faults)
    | _ => none)

/- A `Read` that leaves its argument drops the last one. -/
def undrop (kept : List κ) : TraceEvent κ α → List κ
| .decodedKernel i => kept ++ [i]
| .unfilled => kept.dropLast
| _ => kept

/-
  The instructions read from the kernel trace but for the
  last one before each `Read` that left its argument.
-/
def undropped (log : List (TraceEvent κ α)) : List κ :=
  log.foldl undrop []

/-
  Executions go through a trace in its order and leave a rest
  of it: one that faults is followed by one of the same
  instruction, any other one by one of the next.
-/
inductive Serves
    (trace : List α) :
    List (α × Bool) → List α → Prop
  | start : Serves trace [] trace
  | faults {done : List (α × Bool)} {i : α} {rest : List α} :
      Serves trace done (i :: rest) →
      Serves trace (done ++ [(i, true)]) (i :: rest)
  | completes {done : List (α × Bool)} {i : α}
      {rest : List α} :
      Serves trace done (i :: rest) →
      Serves trace (done ++ [(i, false)]) rest

/- The kernel instruction that is to be executed next. -/
def pendingKernel (t : TraceThread κ α) : List κ :=
  match t.onApp, t.inst with
  | false, some (.kernel i) => [i]
  | _, _ => []

/-
  The instructions of the application are executed in order,
  and all are completed but the last one if its trace ends.
-/
def AppInOrder
    (trace : List α)
    (t : TraceThread κ α) : Prop :=
  ∃ rest, Serves trace (executedApp t.log) rest ∧
    (t.stopped = true → t.onApp = true → rest.length ≤ 1)

/-
  No instruction is lost or repeated: those of the kernel are
  executed as they are read, but for the one that is next,
  and each `Read` that returns true fills its argument.
-/
structure Faithful
    (trace : List α)
    (t : TraceThread κ α) : Prop where
  app : t.AppInOrder trace
  kernel : decodedKernel t.log =
    executedKernel t.log ++ t.pendingKernel
  filled : TraceEvent.unfilled ∉ t.log

/-
  The order of the application is kept, and of the kernel
  instructions only the last one before each context switch
  is lost.
-/
structure InOrder
    (trace : List α)
    (t : TraceThread κ α) : Prop where
  app : t.AppInOrder trace
  kernel : undropped t.log = executedKernel t.log ++ t.pendingKernel

section Logs

variable (log : List (TraceEvent κ α))

@[simp] theorem decodedKernel_append
    (events : List (TraceEvent κ α)) :
    decodedKernel (log ++ events) =
      decodedKernel log ++ decodedKernel events := by
  simp [decodedKernel]

@[simp] theorem executedKernel_append
    (events : List (TraceEvent κ α)) :
    executedKernel (log ++ events) =
      executedKernel log ++ executedKernel events := by
  simp [executedKernel]

@[simp] theorem executedApp_append
    (events : List (TraceEvent κ α)) :
    executedApp (log ++ events) =
      executedApp log ++ executedApp events := by
  simp [executedApp]

@[simp] theorem undropped_append
    (events : List (TraceEvent κ α)) :
    undropped (log ++ events) =
      events.foldl undrop (undropped log) := by
  simp [undropped]

end Logs

variable {t : TraceThread κ α}

/- `next_inst_kernel` is read from the kernel trace. -/
theorem readNextInstKernel_eq
    (hOpen : t.kernelTrace.seenEnd = false) :
    t.readNextInstKernel =
      match readFrom t.kernelTrace.records with
      | (.filled i, r) =>
          (true,
            { t.note [.decodedKernel i] with
              kernelTrace := r
              nextInstKernel := some i })
      | (.unfilled switched, r) =>
          (true,
            { t.note [.unfilled] with
              kernelTrace := r
              onApp := t.onApp || switched })
      | (.ended, r) =>
          (false, { t with kernelTrace := r }) := by
  unfold readNextInstKernel readKernel TraceReader.read
  rw [hOpen]
  simp only [Bool.false_eq_true, if_false]
  cases readFrom t.kernelTrace.records with
  | mk outcome r =>
      cases outcome with
      | filled i =>
          simp [ReadOutcome.returned, ReadOutcome.argument,
            ReadOutcome.switched, kernelEvents, note]
      | unfilled switched =>
          simp [ReadOutcome.returned, ReadOutcome.argument,
            ReadOutcome.switched, kernelEvents, note]
      | ended =>
          simp [ReadOutcome.returned, ReadOutcome.argument,
            ReadOutcome.switched, kernelEvents, note]

/- A call for the look-ahead of the application. -/
theorem readApp_eq
    (hOpen : t.appTrace.seenEnd = false)
    (hUn : Unswitched t.appTrace.records) :
    (∃ i rest, t.readApp =
        (.filled i,
          { t.note [.decodedApp i] with
            appTrace := ⟨rest, false⟩ }) ∧
      instructions t.appTrace.records =
        i :: instructions rest ∧ Unswitched rest) ∨
    ∃ r, t.readApp = (.ended, { t with appTrace := r }) ∧
      instructions t.appTrace.records = [] := by
  have hReads := reads_readFrom t.appTrace.records
  unfold readApp TraceReader.read
  rw [hOpen]
  simp only [Bool.false_eq_true, if_false]
  generalize readFrom t.appTrace.records = result at hReads ⊢
  cases hReads with
  | @filled i rest hNext _ hRest _ =>
      left
      exact ⟨i, rest, by simp [ReadOutcome.switched, appEvents,
        note], hNext, hRest.mp hUn⟩
  | unfilled hNot _ _ => exact absurd hUn hNot
  | @ended r hNone _ =>
      right
      exact ⟨r, by simp [ReadOutcome.switched, appEvents, note],
        hNone⟩

/-
  What holds as long as no command has made a `Read` return:
  the loop executes the kernel trace alone.
-/
structure OnKernel (t : TraceThread κ α) : Prop where
  onApp : t.onApp = false
  records : t.stopped = false →
    Unswitched t.kernelTrace.records ∧
      t.kernelTrace.seenEnd = false ∧
      ∃ i, t.inst = some (.kernel i)
  app : executedApp t.log = []
  kernel : decodedKernel t.log =
    executedKernel t.log ++ t.pendingKernel
  filled : TraceEvent.unfilled ∉ t.log

theorem OnKernel.faithful
    (hKernel : t.OnKernel)
    (trace : List α) :
    t.Faithful trace := by
  refine ⟨⟨trace, ?_, ?_⟩, hKernel.kernel, hKernel.filled⟩
  · rw [hKernel.app]
    exact .start
  · intro _ hOn
    rw [hKernel.onApp] at hOn
    exact absurd hOn (by simp)

theorem onKernel_start
    {records : List (TraceRecord κ)}
    (hUn : Unswitched records)
    (appTrace : TraceReader α) :
    (start ⟨records, false⟩ appTrace).OnKernel := by
  have hReads := reads_readFrom records
  unfold start readKernel TraceReader.read
  simp only [Bool.false_eq_true, if_false]
  generalize readFrom records = result at hReads ⊢
  cases hReads with
  | filled _ _ hRest _ =>
      exact ⟨rfl, fun _ => ⟨hRest.mp hUn, rfl, _, rfl⟩, rfl,
        rfl, by simp [kernelEvents, note]⟩
  | unfilled hNot _ _ => exact absurd hUn hNot
  | ended _ _ =>
      exact ⟨rfl, fun hRuns => by simp [ReadOutcome.returned]
        at hRuns, rfl, rfl, by simp [kernelEvents, note]⟩

theorem onKernel_step
    (hKernel : t.OnKernel)
    (fault : Bool) :
    ∃ t', t.step fault = some t' ∧ t'.OnKernel := by
  unfold step
  by_cases hStopped : t.stopped = true
  · rw [if_pos hStopped]
    exact ⟨t, rfl, hKernel⟩
  · rw [if_neg hStopped]
    rw [Bool.not_eq_true] at hStopped
    rcases hKernel.records hStopped with
      ⟨hUn, hOpen, i, hInst⟩
    have hReads := reads_readFrom t.kernelTrace.records
    unfold fetch
    rw [hKernel.onApp, readNextInstKernel_eq hOpen]
    simp only [Bool.false_eq_true, if_false]
    generalize readFrom t.kernelTrace.records = result at hReads ⊢
    cases hReads with
    | @filled next rest _ _ hRest _ =>
        have hPending : t.pendingKernel = [i] := by
          unfold pendingKernel
          rw [hKernel.onApp, hInst]
        simp only [note, hKernel.onApp, hInst, faultsAt,
          Bool.false_eq_true, if_false, Option.map_some]
        refine ⟨_, rfl, rfl,
          fun _ => ⟨hRest.mp hUn, rfl, next, rfl⟩, ?_, ?_, ?_⟩
        · rw [executedApp_append, executedApp_append, hKernel.app]
          rfl
        · rw [decodedKernel_append, decodedKernel_append,
            executedKernel_append, executedKernel_append,
            hKernel.kernel, hPending]
          simp [decodedKernel, executedKernel, pendingKernel]
        · simpa using hKernel.filled
    | unfilled hNot _ _ => exact absurd hUn hNot
    | ended _ _ =>
        exact ⟨_, rfl, hKernel.onApp,
          fun hRuns => absurd hRuns (by simp), hKernel.app,
          hKernel.kernel, hKernel.filled⟩

------------------------------------------------------------
-- Turns And Their Phases
------------------------------------------------------------

/- Nothing is taken from the log. -/
def Extends (t t' : TraceThread κ α) : Prop :=
  ∃ events, t'.log = t.log ++ events

theorem Extends.refl
    (t : TraceThread κ α) :
    t.Extends t :=
  ⟨[], by simp⟩

theorem Extends.trans
    {t t' t'' : TraceThread κ α}
    (hFirst : t.Extends t')
    (hSecond : t'.Extends t'') :
    t.Extends t'' := by
  rcases hFirst with ⟨events, hEq⟩
  rcases hSecond with ⟨events', hEq'⟩
  exact ⟨events ++ events', by
    rw [hEq', hEq, List.append_assoc]⟩

theorem Extends.unfilled
    {t t' : TraceThread κ α}
    (hExtends : t.Extends t')
    (hUnfilled : TraceEvent.unfilled ∈ t.log) :
    TraceEvent.unfilled ∈ t'.log := by
  rcases hExtends with ⟨events, hEq⟩
  rw [hEq]
  exact List.mem_append_left _ hUnfilled

/- The thread after the selection of a reader. -/
def Fetched.thread :
    Fetched κ α → TraceThread κ α
| .stop t => t
| .go t _ => t

theorem extends_readNextInstKernel
    (t : TraceThread κ α) :
    t.Extends t.readNextInstKernel.2 :=
  ⟨_, rfl⟩

theorem extends_readInstApp
    (t : TraceThread κ α) :
    t.Extends t.readInstApp.2 :=
  ⟨_, rfl⟩

theorem extends_readNextInstApp
    (t : TraceThread κ α) :
    t.Extends t.readNextInstApp.2 :=
  ⟨_, rfl⟩

theorem extends_shiftApp
    (t : TraceThread κ α) :
    t.Extends t.shiftApp.2 :=
  ⟨_, rfl⟩

theorem extends_initializeApp
    (t : TraceThread κ α) :
    t.Extends t.initializeApp.thread := by
  have hFirst := extends_readInstApp t
  unfold initializeApp
  generalize t.readInstApp = first at hFirst ⊢
  rcases first with ⟨hasFirst, t'⟩
  cases hasFirst with
  | false => exact hFirst
  | true =>
      have hSecond := extends_readNextInstApp t'
      simp only
      generalize t'.readNextInstApp = second at hSecond ⊢
      rcases second with ⟨hasSecond, t''⟩
      cases hasSecond with
      | false => exact hFirst.trans hSecond
      | true => exact hFirst.trans hSecond

theorem extends_resume
    (t : TraceThread κ α) :
    t.Extends t.resume.thread := by
  unfold resume
  cases t.toBeReplayedInst with
  | some inst => exact Extends.refl t
  | none =>
      simp only
      split
      · have hShift := extends_shiftApp t
        generalize t.shiftApp = shifted at hShift ⊢
        rcases shifted with ⟨hasNext, t'⟩
        cases hasNext with
        | false => exact hShift
        | true => exact hShift
      · exact extends_initializeApp t

theorem extends_handlePageFault
    (t : TraceThread κ α) :
    t.Extends t.handlePageFault := by
  unfold handlePageFault
  have hRead := extends_readNextInstKernel
    { t with
      toBeReplayedInst := t.instApp
      toBeReplayedNextInst := t.nextInstApp
      onApp := false }
  generalize readNextInstKernel
    { t with
      toBeReplayedInst := t.instApp
      toBeReplayedNextInst := t.nextInstApp
      onApp := false } = result at hRead ⊢
  rcases result with ⟨hasNext, t'⟩
  cases hasNext with
  | false => exact hRead
  | true => exact hRead

/- The end of a turn keeps the log of its selection. -/
theorem extends_step
    {t t' : TraceThread κ α}
    {fault : Bool}
    (hRuns : t.stopped = false)
    (hStep : t.step fault = some t') :
    t.fetch.thread.Extends t' := by
  unfold step at hStep
  rw [hRuns] at hStep
  simp only [Bool.false_eq_true, if_false] at hStep
  generalize t.fetch = fetched at hStep ⊢
  cases fetched with
  | stop after =>
      rw [← Option.some.inj hStep]
      exact Extends.refl after
  | go after nextInst =>
      simp only at hStep
      cases hInst : after.inst with
      | none => simp [hInst] at hStep
      | some i =>
          simp only [hInst] at hStep
          have hNote : after.Extends
              (after.note [.executed i (faultsAt fault i)]) :=
            ⟨_, rfl⟩
          split_ifs at hStep
          · rw [← Option.some.inj hStep]
            exact hNote.trans (extends_handlePageFault _)
          · rw [← Option.some.inj hStep]
            exact hNote

/-
  A thread on a kernel trace with such a command comes to it,
  if it does not execute an unfilled instruction before.
-/
theorem exists_unfilled
    {i : κ}
    (hRuns : t.stopped = false)
    (hOnApp : t.onApp = false)
    (hInst : t.inst = some (.kernel i))
    (hOpen : t.kernelTrace.seenEnd = false)
    (hSwitched : ¬ Unswitched t.kernelTrace.records) :
    ∃ n, ∀ t', Run.run step t (List.replicate n false) =
      some t' → TraceEvent.unfilled ∈ t'.log := by
  generalize hLength : t.kernelTrace.records.length = n
  induction n using Nat.strongRecOn generalizing t i with
  | ind n ih =>
      have hReads := reads_readFrom t.kernelTrace.records
      have hEq := readNextInstKernel_eq hOpen
      generalize readFrom t.kernelTrace.records = result
        at hReads hEq
      cases hReads with
      | @filled next rest _ hLess hRest _ =>
          have hStep : t.step false = some
              { (t.note [.decodedKernel next]).note
                  [.executed (.kernel i) false] with
                kernelTrace := ⟨rest, false⟩
                nextInstKernel := some next
                inst := some (.kernel next) } := by
            unfold step fetch
            rw [hRuns, hOnApp, hEq]
            simp [note, hOnApp, hInst, faultsAt]
          rcases ih rest.length (hLength ▸ hLess)
              (t := { (t.note [.decodedKernel next]).note
                  [.executed (.kernel i) false] with
                kernelTrace := ⟨rest, false⟩
                nextInstKernel := some next
                inst := some (.kernel next) })
              hRuns hOnApp rfl rfl
              (fun hUn => hSwitched (hRest.mpr hUn)) rfl with
            ⟨m, hAfter⟩
          refine ⟨m + 1, fun t' hRun => ?_⟩
          rw [List.replicate_succ,
            Run.run_cons_of_some _ hStep] at hRun
          exact hAfter t' hRun
      | @unfilled switched rest _ _ _ =>
          refine ⟨1, fun t' hRun => ?_⟩
          rcases Run.run_cons_eq_some hRun with
            ⟨next, hStep, hEnd⟩
          have hLast : next = t' := Option.some.inj hEnd
          subst hLast
          apply (extends_step hRuns hStep).unfilled
          unfold fetch
          rw [hOnApp, hEq]
          simp only [Bool.false_eq_true, if_false]
          have hNoted : TraceEvent.unfilled ∈
              (t.note [.unfilled]).log := by
            simp [note]
          split
          · exact (extends_resume _).unfilled hNoted
          · exact hNoted
      | ended _ hUn => exact absurd hUn hSwitched

theorem exists_unfilled_start
    {records : List (TraceRecord κ)}
    (hSwitched : ¬ Unswitched records)
    (appTrace : TraceReader α) :
    ∃ n, ∀ t', Run.run step
      (start ⟨records, false⟩ appTrace)
      (List.replicate n false) = some t' →
        TraceEvent.unfilled ∈ t'.log := by
  have hReads := reads_readFrom records
  unfold start readKernel TraceReader.read
  simp only [Bool.false_eq_true, if_false]
  generalize readFrom records = result at hReads ⊢
  cases hReads with
  | filled _ _ hRest _ =>
      exact exists_unfilled rfl rfl rfl rfl
        (fun hUn => hSwitched (hRest.mpr hUn))
  | unfilled _ _ _ =>
      refine ⟨0, fun t' hRun => ?_⟩
      rw [← Option.some.inj hRun]
      simp [kernelEvents, note]
  | ended _ hUn => exact absurd hUn hSwitched

/- The readers of a thread that has not left the loop. -/
structure Ready (t : TraceThread κ α) : Prop where
  running : t.stopped = false
  kernelOpen : t.kernelTrace.seenEnd = false
  handled : Handled t.kernelTrace.records
  appOpen : t.appTrace.seenEnd = false
  unswitched : Unswitched t.appTrace.records

/- The next two instructions of the application are held. -/
structure AppPair
    (trace : List α)
    (t : TraceThread κ α)
    (a b : α) : Prop where
  instApp : t.instApp = some a
  nextInstApp : t.nextInstApp = some b
  serves : Serves trace (executedApp t.log)
    (a :: b :: instructions t.appTrace.records)

/- The kernel instructions but the dropped ones are executed. -/
def Kept (t : TraceThread κ α) : Prop :=
  undropped t.log = executedKernel t.log ++ t.pendingKernel

/-
  The states between two turns: before the application has
  begun, in the handling of a page fault, in the application,
  and after the loop.
-/
inductive Phase
    (trace : List α)
    (t : TraceThread κ α) : Prop
  | first {i : κ} :
      t.Ready → t.onApp = false →
      t.inst = some (.kernel i) →
      t.toBeReplayedInst = none →
      t.appInitialized = false →
      Serves trace (executedApp t.log)
        (instructions t.appTrace.records) →
      t.Kept → Phase trace t
  | handling {i : κ} {a b : α} :
      t.Ready → t.onApp = false →
      t.inst = some (.kernel i) →
      t.toBeReplayedInst = some a →
      t.toBeReplayedNextInst = some b →
      AppPair trace t a b →
      t.Kept → Phase trace t
  | onApp {b : α} :
      t.Ready → t.onApp = true →
      t.inst = some (.app b) →
      t.toBeReplayedInst = none →
      t.nextInstApp = some b →
      Opens t.kernelTrace.records →
      Serves trace (executedApp t.log)
        (b :: instructions t.appTrace.records) →
      t.Kept → Phase trace t
  | left :
      t.stopped = true → t.AppInOrder trace →
      t.Kept → Phase trace t

/- The pair of the application is about to be executed. -/
structure Executing
    (trace : List α)
    (t : TraceThread κ α)
    (a b : α) : Prop where
  ready : t.Ready
  onApp : t.onApp = true
  inst : t.inst = some (.app a)
  toBeReplayed : t.toBeReplayedInst = none
  pair : AppPair trace t a b
  opens : Opens t.kernelTrace.records
  kept : undropped t.log = executedKernel t.log

/- On the application no kernel instruction is next. -/
theorem pendingKernel_onApp
    (hOnApp : t.onApp = true) :
    t.pendingKernel = [] := by
  unfold pendingKernel
  rw [hOnApp]

theorem pendingKernel_kernel
    {i : κ}
    (hOnApp : t.onApp = false)
    (hInst : t.inst = some (.kernel i)) :
    t.pendingKernel = [i] := by
  unfold pendingKernel
  rw [hOnApp, hInst]

variable {trace : List α}

/- An instruction of the application that completes. -/
theorem Executing.completes
    {a b : α}
    (hExecuting : Executing trace t a b) :
    Phase trace
      { t.note [.executed (.app a) false] with
        inst := some (.app b) } := by
  rcases hExecuting with
    ⟨⟨hRuns, hOpen, hHandled, hAppOpen, hUn⟩, hOnApp, hInst,
      hReplay, ⟨hFirst, hSecond, hServes⟩, hOpens, hKept⟩
  refine .onApp ⟨hRuns, hOpen, hHandled, hAppOpen, hUn⟩ hOnApp
    rfl hReplay hSecond hOpens ?_ ?_
  · exact (executedApp_append _ _).symm ▸ hServes.completes
  · simpa [Kept, pendingKernel, note, undrop, executedKernel]
      using hKept

/- The switch to the kernel, by what its `Read` does. -/
theorem handlePageFault_eq
    (hOpen : t.kernelTrace.seenEnd = false) :
    t.handlePageFault =
      match readFrom t.kernelTrace.records with
      | (.filled i, r) =>
          { t.note [.decodedKernel i] with
            kernelTrace := r
            onApp := false
            inst := some (.kernel i)
            nextInstKernel := some i
            toBeReplayedInst := t.instApp
            toBeReplayedNextInst := t.nextInstApp }
      | (.unfilled switched, r) =>
          { t.note [.unfilled] with
            kernelTrace := r
            onApp := switched
            inst := t.nextInstKernel.map .kernel
            toBeReplayedInst := t.instApp
            toBeReplayedNextInst := t.nextInstApp }
      | (.ended, r) =>
          { t with
            kernelTrace := r
            onApp := false
            toBeReplayedInst := t.instApp
            toBeReplayedNextInst := t.nextInstApp
            stopped := true } := by
  rw [handlePageFault, readNextInstKernel_eq]
  · cases readFrom t.kernelTrace.records with
    | mk outcome r => cases outcome <;> simp [note]
  · exact hOpen

/- An instruction of the application that faults. -/
theorem Executing.faults
    {a b : α}
    (hExecuting : Executing trace t a b) :
    Phase trace
      (t.note [.executed (.app a) true]).handlePageFault := by
  rcases hExecuting with
    ⟨⟨hRuns, hOpen, hHandled, hAppOpen, hUn⟩, hOnApp, hInst,
      hReplay, ⟨hFirst, hSecond, hServes⟩, hOpens, hKept⟩
  have hFaults : Serves trace
      (executedApp (t.log ++ [.executed (.app a) true]))
      (a :: b :: instructions t.appTrace.records) :=
    (executedApp_append _ _).symm ▸ hServes.faults
  have hReads := reads_readFrom t.kernelTrace.records
  unfold Opens at hOpens
  rw [handlePageFault_eq
    (t := t.note [.executed (.app a) true]) hOpen]
  simp only [note]
  generalize readFrom t.kernelTrace.records = result
    at hReads hOpens ⊢
  cases hReads with
  | @filled i rest _ _ _ hRest =>
      refine .handling (i := i)
        ⟨hRuns, rfl, hRest hHandled, hAppOpen, hUn⟩ rfl rfl
        hFirst hSecond ⟨hFirst, hSecond, ?_⟩ ?_
      · rw [executedApp_append]
        simpa [executedApp] using hFaults
      · simpa [Kept, pendingKernel, undrop, executedKernel]
          using hKept
  | unfilled _ _ _ => exact absurd rfl (hOpens _)
  | ended _ _ =>
      refine .left rfl ⟨_, hFaults, fun _ hOn => ?_⟩ ?_
      · exact absurd hOn (by simp)
      · simpa [Kept, pendingKernel, undrop, executedKernel,
          hInst] using hKept

------------------------------------------------------------
-- Runs
------------------------------------------------------------

/- The look-ahead of the application is shifted, or ends. -/
theorem shiftApp_eq
    (hOpen : t.appTrace.seenEnd = false)
    (hUn : Unswitched t.appTrace.records) :
    (∃ i rest, t.shiftApp =
        (true,
          { t.note [.decodedApp i] with
            appTrace := ⟨rest, false⟩
            instApp := t.nextInstApp
            nextInstApp := some i }) ∧
      instructions t.appTrace.records =
        i :: instructions rest ∧ Unswitched rest) ∨
    ∃ r, t.shiftApp =
        (false,
          { t with
            appTrace := r
            instApp := t.nextInstApp }) ∧
      instructions t.appTrace.records = [] := by
  unfold shiftApp readNextInstApp
  rcases readApp_eq
      (t := { t with instApp := t.nextInstApp }) hOpen hUn with
    ⟨i, rest, hEq, hNext, hRest⟩ | ⟨r, hEq, hNone⟩
  · left
    refine ⟨i, rest, ?_, hNext, hRest⟩
    rw [hEq]
    rfl
  · right
    refine ⟨r, ?_, hNone⟩
    rw [hEq]
    rfl

/-
  What the selection of a reader ends in: the loop ends, a
  kernel instruction is executed, or the application's pair.
-/
inductive Fetches (trace : List α) : Fetched κ α → Prop
  | stop {t : TraceThread κ α} :
      { t with stopped := true }.AppInOrder trace → t.Kept →
      Fetches trace (.stop t)
  | kernel {t : TraceThread κ α} {i next : κ} :
      t.inst = some (.kernel i) →
      Phase trace
        { t.note [.executed (.kernel i) false] with
          inst := some (.kernel next) } →
      Fetches trace (.go t (some (.kernel next)))
  | app {t : TraceThread κ α} {a b : α} :
      Executing trace t a b →
      Fetches trace (.go t (some (.app b)))

/- The first time on the reader of the application. -/
theorem fetches_initializeApp
    (hReady : t.Ready)
    (hOnApp : t.onApp = true)
    (hReplay : t.toBeReplayedInst = none)
    (hOpens : Opens t.kernelTrace.records)
    (hServes : Serves trace (executedApp t.log)
      (instructions t.appTrace.records))
    (hKept : undropped t.log = executedKernel t.log) :
    Fetches trace t.initializeApp := by
  rcases hReady with ⟨hRuns, hOpen, hHandled, hAppOpen, hUn⟩
  unfold initializeApp readInstApp
  rcases readApp_eq hAppOpen hUn with
    ⟨a, rest, hEq, hNext, hRest⟩ | ⟨r, hEq, hNone⟩
  · rw [hEq]
    simp only [ReadOutcome.returned, ReadOutcome.argument]
    unfold readNextInstApp
    rcases readApp_eq
        (t := { t.note [.decodedApp a] with
          appTrace := ⟨rest, false⟩
          instApp := some a }) rfl hRest with
      ⟨b, rest', hEq', hNext', hRest'⟩ | ⟨r, hEq', hNone⟩
    · rw [hEq']
      simp only [ReadOutcome.returned, ReadOutcome.argument]
      refine .app ⟨⟨hRuns, hOpen, hHandled, rfl, hRest'⟩,
        hOnApp, rfl, hReplay, ⟨rfl, rfl, ?_⟩, hOpens, ?_⟩
      · rw [hNext, hNext'] at hServes
        simpa [note, executedApp] using hServes
      · simpa [note, undrop, executedKernel] using hKept
    · rw [hEq']
      simp only [ReadOutcome.returned, ReadOutcome.argument]
      refine .stop ⟨[a], ?_, fun _ _ => by simp⟩ ?_
      · rw [hNext, hNone] at hServes
        simpa [note, executedApp] using hServes
      · simpa [Kept, pendingKernel, note, undrop,
          executedKernel, hOnApp] using hKept
  · rw [hEq]
    simp only [ReadOutcome.returned, ReadOutcome.argument]
    refine .stop ⟨[], ?_, fun _ _ => by simp⟩ ?_
    · rw [hNone] at hServes
      exact hServes
    · simpa [Kept, pendingKernel, hOnApp] using hKept

/- The selection of a reader on the kernel trace. -/
theorem fetch_kernel_eq
    (hOnApp : t.onApp = false)
    (hOpen : t.kernelTrace.seenEnd = false) :
    t.fetch =
      match readFrom t.kernelTrace.records with
      | (.filled i, r) =>
          .go
            { t.note [.decodedKernel i] with
              kernelTrace := r
              nextInstKernel := some i }
            (some (.kernel i))
      | (.unfilled true, r) =>
          resume
            { t.note [.unfilled] with
              kernelTrace := r
              onApp := true }
      | (.unfilled false, r) =>
          .go
            { t.note [.unfilled] with kernelTrace := r }
            (t.nextInstKernel.map .kernel)
      | (.ended, r) => .stop { t with kernelTrace := r } := by
  unfold fetch
  rw [hOnApp, readNextInstKernel_eq hOpen]
  simp only [Bool.false_eq_true, if_false]
  cases readFrom t.kernelTrace.records with
  | mk outcome r =>
      cases outcome with
      | filled i => simp [note, hOnApp]
      | unfilled switched =>
          cases switched with
          | false => simp [note, hOnApp]
          | true => simp [note, hOnApp]
      | ended => simp [hOnApp]

theorem fetches_fetch
    (hPhase : Phase trace t)
    (hRuns : t.stopped = false) :
    Fetches trace t.fetch := by
  cases hPhase with
  | @first i hReady hOnApp hInst hReplay hFresh hServes hKept =>
      rcases hReady with
        ⟨_, hOpen, hHandled, hAppOpen, hUn⟩
      have hReads := reads_readFrom t.kernelTrace.records
      rw [fetch_kernel_eq hOnApp hOpen]
      unfold Kept at hKept
      rw [pendingKernel_kernel hOnApp hInst] at hKept
      generalize readFrom t.kernelTrace.records = result at hReads ⊢
      cases hReads with
      | @filled next rest _ _ _ hRest =>
          refine .kernel hInst (.first
            ⟨hRuns, rfl, hRest hHandled, hAppOpen, hUn⟩ hOnApp
            rfl hReplay hFresh ?_ ?_)
          · simpa [note, executedApp] using hServes
          · simp [Kept, pendingKernel, note, undrop, hOnApp,
              hKept, executedKernel]
      | @unfilled switched rest _ _ hSwitch =>
          rcases hSwitch hHandled with ⟨hEq, hOpens, hRest⟩
          subst hEq
          simp only
          unfold resume
          simp only [note, hReplay, hFresh, Bool.false_eq_true,
            if_false]
          refine fetches_initializeApp ?_ rfl rfl hOpens ?_ ?_
          · exact ⟨hRuns, rfl, hRest, hAppOpen, hUn⟩
          · simpa [executedApp] using hServes
          · simp [undrop, hKept, executedKernel]
      | ended _ _ =>
          refine .stop ⟨_, hServes, fun _ hOn => ?_⟩ ?_
          · simp only [hOnApp] at hOn
            exact absurd hOn (by simp)
          · simp [Kept, pendingKernel, hOnApp, hInst, hKept]
  | @handling i a b hReady hOnApp hInst hReplay hReplayNext hPair
      hKept =>
      rcases hReady with
        ⟨_, hOpen, hHandled, hAppOpen, hUn⟩
      rcases hPair with ⟨hFirst, hSecond, hServes⟩
      have hReads := reads_readFrom t.kernelTrace.records
      rw [fetch_kernel_eq hOnApp hOpen]
      unfold Kept at hKept
      rw [pendingKernel_kernel hOnApp hInst] at hKept
      generalize readFrom t.kernelTrace.records = result at hReads ⊢
      cases hReads with
      | @filled next rest _ _ _ hRest =>
          refine .kernel hInst (.handling
            ⟨hRuns, rfl, hRest hHandled, hAppOpen, hUn⟩ hOnApp
            rfl hReplay hReplayNext
            ⟨hFirst, hSecond, ?_⟩ ?_)
          · simpa [note, executedApp] using hServes
          · simp [Kept, pendingKernel, note, undrop, hOnApp,
              hKept, executedKernel]
      | @unfilled switched rest _ _ hSwitch =>
          rcases hSwitch hHandled with ⟨hEq, hOpens, hRest⟩
          subst hEq
          simp only
          unfold resume
          simp only [note, hReplay, hReplayNext, Option.map_some]
          refine .app ⟨⟨hRuns, rfl, hRest, hAppOpen, hUn⟩, rfl,
            rfl, rfl, ⟨hFirst, hSecond, ?_⟩, hOpens, ?_⟩
          · simpa [executedApp] using hServes
          · simp [undrop, hKept, executedKernel]
      | ended _ _ =>
          refine .stop ⟨_, hServes, fun _ hOn => ?_⟩ ?_
          · simp only [hOnApp] at hOn
            exact absurd hOn (by simp)
          · simp [Kept, pendingKernel, hOnApp, hInst, hKept]
  | @onApp b hReady hOnApp hInst hReplay hSecond hOpens hServes
      hKept =>
      rcases hReady with
        ⟨_, hOpen, hHandled, hAppOpen, hUn⟩
      unfold Kept at hKept
      rw [pendingKernel_onApp hOnApp, List.append_nil] at hKept
      unfold fetch
      rw [if_pos hOnApp]
      rcases shiftApp_eq hAppOpen hUn with
        ⟨c, rest, hEq, hNext, hRest⟩ | ⟨r, hEq, hNone⟩
      · rw [hEq]
        refine .app ⟨⟨hRuns, hOpen, hHandled, rfl, hRest⟩,
          hOnApp, hInst, hReplay, ⟨hSecond, rfl, ?_⟩, hOpens,
          ?_⟩
        · rw [hNext] at hServes
          simpa [note, executedApp] using hServes
        · simpa [note, undrop, executedKernel] using hKept
      · rw [hEq]
        refine .stop ⟨[b], ?_, fun _ _ => by simp⟩ ?_
        · rw [hNone] at hServes
          exact hServes
        · simpa [Kept, pendingKernel, hOnApp] using hKept
  | left hStopped _ _ =>
      rw [hRuns] at hStopped
      exact absurd hStopped (by simp)

/- A turn leads from a phase to a phase. -/
theorem phase_step
    (hPhase : Phase trace t)
    (fault : Bool) :
    ∃ t', t.step fault = some t' ∧ Phase trace t' := by
  unfold step
  by_cases hStopped : t.stopped = true
  · rw [if_pos hStopped]
    exact ⟨t, rfl, hPhase⟩
  · rw [if_neg hStopped]
    rw [Bool.not_eq_true] at hStopped
    have hFetches := fetches_fetch hPhase hStopped
    generalize t.fetch = fetched at hFetches ⊢
    cases hFetches with
    | stop hApp hKept => exact ⟨_, rfl, .left rfl hApp hKept⟩
    | kernel hInst hNext =>
        simp only [hInst, faultsAt, Bool.false_eq_true, if_false]
        exact ⟨_, rfl, hNext⟩
    | app hExecuting =>
        simp only [hExecuting.inst, faultsAt]
        cases fault with
        | false => exact ⟨_, rfl, hExecuting.completes⟩
        | true => exact ⟨_, rfl, hExecuting.faults⟩

theorem Phase.inOrder
    (hPhase : Phase trace t) :
    t.InOrder trace := by
  cases hPhase with
  | first hReady _ _ _ _ hServes hKept =>
      exact ⟨⟨_, hServes, fun hStopped => by
        rw [hReady.running] at hStopped
        exact absurd hStopped (by simp)⟩, hKept⟩
  | handling hReady _ _ _ _ hPair hKept =>
      exact ⟨⟨_, hPair.serves, fun hStopped => by
        rw [hReady.running] at hStopped
        exact absurd hStopped (by simp)⟩, hKept⟩
  | onApp hReady _ _ _ _ _ hServes hKept =>
      exact ⟨⟨_, hServes, fun hStopped => by
        rw [hReady.running] at hStopped
        exact absurd hStopped (by simp)⟩, hKept⟩
  | left _ hApp hKept => exact ⟨hApp, hKept⟩

theorem phase_start
    {kernelRecords : List (TraceRecord κ)}
    {appRecords : List (TraceRecord α)}
    (hOpens : Opens kernelRecords)
    (hHandled : Handled kernelRecords)
    (hUn : Unswitched appRecords) :
    Phase (instructions appRecords)
      (start ⟨kernelRecords, false⟩ ⟨appRecords, false⟩) := by
  have hReads := reads_readFrom kernelRecords
  unfold Opens at hOpens
  unfold start readKernel TraceReader.read
  simp only [Bool.false_eq_true, if_false]
  generalize readFrom kernelRecords = result at hReads hOpens ⊢
  cases hReads with
  | filled _ _ _ hRest =>
      exact .first ⟨rfl, rfl, hRest hHandled, rfl, hUn⟩ rfl rfl
        rfl rfl .start rfl
  | unfilled _ _ _ => exact absurd rfl (hOpens _)
  | ended _ _ =>
      exact .left rfl ⟨_, .start, fun _ hOn => by
        simp [ReadOutcome.switched] at hOn⟩ rfl

/-
  The loop loses and repeats nothing, whatever instructions
  fault, exactly if no command of the kernel trace makes a
  `Read` return. With context switches each of which comes
  after an instruction, the order is kept and the last kernel
  instruction before each of them is lost.
-/
theorem faithful_iff
    (kernelRecords : List (TraceRecord κ))
    (appRecords : List (TraceRecord α)) :
    ((∀ faults, ∃ t,
        Run.run step
          (start ⟨kernelRecords, false⟩ ⟨appRecords, false⟩)
          faults = some t ∧
          t.Faithful (instructions appRecords)) ↔
      Unswitched kernelRecords) ∧
    (Opens kernelRecords → Handled kernelRecords →
      Unswitched appRecords →
      ∀ faults, ∃ t,
        Run.run step
          (start ⟨kernelRecords, false⟩ ⟨appRecords, false⟩)
          faults = some t ∧
          t.InOrder (instructions appRecords)) := by
  refine ⟨⟨?_, ?_⟩, ?_⟩
  · intro hAll
    by_contra hSwitched
    rcases exists_unfilled_start hSwitched
        ⟨appRecords, false⟩ with ⟨n, hUnfilled⟩
    rcases hAll (List.replicate n false) with
      ⟨t, hRun, hFaithful⟩
    exact hFaithful.filled (hUnfilled t hRun)
  · intro hUn faults
    rcases Run.run_total (I := OnKernel) (C := fun _ _ => True)
        (fun _ fault hKernel _ => onKernel_step hKernel fault)
        _ faults (onKernel_start hUn ⟨appRecords, false⟩)
        (Run.along_of_forall_mem _ (fun _ _ => trivial)) with
      ⟨t, hRun, hKernel⟩
    exact ⟨t, hRun, hKernel.faithful _⟩
  · intro hOpens hHandled hUn faults
    rcases Run.run_total (I := Phase (instructions appRecords))
        (C := fun _ _ => True)
        (fun _ fault hPhase _ => phase_step hPhase fault)
        _ faults (phase_start hOpens hHandled hUn)
        (Run.along_of_forall_mem _ (fun _ _ => trivial)) with
      ⟨t, hRun, hPhase⟩
    exact ⟨t, hRun, hPhase.inOrder⟩

/-
  A kernel trace of two instructions and a context switch:
  the second instruction is read and never executed.
-/
theorem not_faithful_contextSwitch :
    ¬ ∀ faults, ∃ t : TraceThread Nat Nat,
      Run.run step
        (start
          ⟨[.instruction 0, .instruction 1,
            .magic .contextSwitch], false⟩
          ⟨[.instruction 10, .instruction 11,
            .instruction 12], false⟩)
        faults = some t ∧ t.Faithful [10, 11, 12] := by
  intro hAll
  rcases hAll [false, false] with ⟨t, hRun, hFaithful⟩
  have hKernel := hFaithful.kernel
  rw [← Option.some.inj hRun] at hKernel
  exact absurd hKernel (by decide)

end TraceThread

end Virtuoso
