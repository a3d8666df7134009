import Mathlib.Data.List.Basic
import Virtuoso.Lib.Run

/-
  The main loop of `TraceThread::run` with a userspace
  MimicOS, which merges the trace of the kernel with that of
  an application.

  A reader is modelled at its records: the instructions, the
  magic commands with the results of their handlers, and the
  end. All other records are handled within `Read`. The
  fields of an instruction are those of its record, of any
  type, and an instruction that no `Read` has filled is
  `none`; to execute it is undefined.

  Whether an instruction of the application faults is given
  at each turn of the loop. Timing, statistics and the asserts
  are left out.

  Key definitions include:
    * `TraceThread.Reader.read`
    * `TraceThread.step`
-/

namespace Virtuoso

/- A magic command, by what `handleMagicFunc` does. -/
inductive MagicCommand
  | contextSwitch
  | other (result : Nat)
deriving DecidableEq

namespace MagicCommand

/- What the handler returns. -/
def result :
    MagicCommand → Nat
| contextSwitch => 42
| other result => result

/- The handler sets the reader of the application. -/
def switches :
    MagicCommand → Bool
| contextSwitch => true
| other _ => false

end MagicCommand

/- A record of a trace. -/
inductive TraceRecord
    (ι : Type)
  | instruction (i : ι)
  | magic (command : MagicCommand)
  | ending

/-
  What `Read` does: it returns true with its argument filled,
  true with its argument as it was, or false.
-/
inductive ReadOutcome
    (ι : Type)
  | filled (i : ι)
  | unfilled (switched : Bool)
  | ended

namespace ReadOutcome

variable {ι : Type}

/- The value that is returned. -/
def returned :
    ReadOutcome ι → Bool
| filled _ => true
| unfilled _ => true
| ended => false

/- The argument after the call. -/
def argument :
    ReadOutcome ι → Option ι → Option ι
| filled i, _ => some i
| unfilled _, before => before
| ended, before => before

/- The call has set the reader of the application. -/
def switched :
    ReadOutcome ι → Bool
| filled _ => false
| unfilled switched => switched
| ended => false

end ReadOutcome

/- `Sift::Reader`, with its records left. -/
structure TraceReader (ι : Type) where
  records : List (TraceRecord ι)
  seenEnd : Bool

namespace TraceReader

variable {ι : Type}

/- The loop of `Read`, over the records left. -/
def readFrom :
    List (TraceRecord ι) → ReadOutcome ι × TraceReader ι
| [] => (.ended, ⟨[], false⟩)
| .instruction i :: records => (.filled i, ⟨records, false⟩)
| .magic command :: records =>
    if command.result = 42 then
      (.unfilled command.switches, ⟨records, false⟩)
    else
      readFrom records
| .ending :: records => (.ended, ⟨records, true⟩)

/- `Reader::Read`. After the end it returns true. -/
def read
    (r : TraceReader ι) :
    ReadOutcome ι × TraceReader ι :=
  if r.seenEnd then
    (.unfilled false, r)
  else
    readFrom r.records

end TraceReader

/- An instruction of the kernel or of the application. -/
inductive TraceInst
    (κ α : Type)
  | kernel (i : κ)
  | app (i : α)
deriving DecidableEq

/- What the loop does, in its order. -/
inductive TraceEvent
    (κ α : Type)
  | decodedKernel (i : κ)
  | decodedApp (i : α)
  | unfilled
  | executed (i : TraceInst κ α) (faults : Bool)
deriving DecidableEq

/-
  The members and local variables that a turn of the loop
  leaves to the next one, and what the loop has done so far.
-/
structure TraceThread (κ α : Type) where
  kernelTrace : TraceReader κ
  appTrace : TraceReader α
  onApp : Bool
  inst : Option (TraceInst κ α)
  nextInstKernel : Option κ
  instApp : Option α
  nextInstApp : Option α
  toBeReplayedInst : Option α
  toBeReplayedNextInst : Option α
  appInitialized : Bool
  stopped : Bool
  log : List (TraceEvent κ α)

namespace TraceThread

variable {κ α : Type}

/- Do something and go on. -/
def note
    (t : TraceThread κ α)
    (events : List (TraceEvent κ α)) :
    TraceThread κ α :=
  { t with log := t.log ++ events }

/- What the log keeps of a `Read` of the kernel trace. -/
def kernelEvents :
    ReadOutcome κ → List (TraceEvent κ α)
| .filled i => [.decodedKernel i]
| .unfilled _ => [.unfilled]
| .ended => []

/- What the log keeps of a `Read` of the application. -/
def appEvents :
    ReadOutcome α → List (TraceEvent κ α)
| .filled i => [.decodedApp i]
| .unfilled _ => [.unfilled]
| .ended => []

/- `m_current_sift_reader->Read` of the kernel trace. -/
def readKernel
    (t : TraceThread κ α) :
    ReadOutcome κ × TraceThread κ α :=
  let result := t.kernelTrace.read
  (result.1,
    { t.note (kernelEvents result.1) with
      kernelTrace := result.2
      onApp := t.onApp || result.1.switched })

/- `m_current_sift_reader->Read` of the application. -/
def readApp
    (t : TraceThread κ α) :
    ReadOutcome α × TraceThread κ α :=
  let result := t.appTrace.read
  (result.1,
    { t.note (appEvents result.1) with
      appTrace := result.2
      onApp := t.onApp || result.1.switched })

/- `Read(next_inst_kernel)`. -/
def readNextInstKernel
    (t : TraceThread κ α) :
    Bool × TraceThread κ α :=
  let result := t.readKernel
  (result.1.returned,
    { result.2 with
      nextInstKernel := result.1.argument t.nextInstKernel })

/- `Read(inst_app)`. -/
def readInstApp
    (t : TraceThread κ α) :
    Bool × TraceThread κ α :=
  let result := t.readApp
  (result.1.returned,
    { result.2 with
      instApp := result.1.argument t.instApp })

/- `Read(next_inst_app)`. -/
def readNextInstApp
    (t : TraceThread κ α) :
    Bool × TraceThread κ α :=
  let result := t.readApp
  (result.1.returned,
    { result.2 with
      nextInstApp := result.1.argument t.nextInstApp })

/-
  The thread after the initial `Read(inst_kernel)`. The
  members of the pair to be replayed are null.
-/
def start
    (kernelTrace : TraceReader κ)
    (appTrace : TraceReader α) :
    TraceThread κ α :=
  let result :=
    readKernel
      { kernelTrace := kernelTrace
        appTrace := appTrace
        onApp := false
        inst := none
        nextInstKernel := none
        instApp := none
        nextInstApp := none
        toBeReplayedInst := none
        toBeReplayedNextInst := none
        appInitialized := false
        stopped := false
        log := [] }
  { result.2 with
    inst := (result.1.argument none).map .kernel
    stopped := !result.1.returned }

/-
  What the selection of the reader ends in: the thread leaves
  the loop or executes `inst`, with `next_inst` after it.
-/
inductive Fetched
    (κ α : Type)
  | stop (t : TraceThread κ α)
  | go (t : TraceThread κ α) (nextInst : Option (TraceInst κ α))

/- Execute the pair of the application. -/
def goApp (t : TraceThread κ α) : Fetched κ α :=
  .go { t with inst := t.instApp.map .app } (t.nextInstApp.map .app)

/- The first time on the reader of the application. -/
def initializeApp (t : TraceThread κ α) : Fetched κ α :=
  match t.readInstApp with
  | (false, t') => .stop t'
  | (true, t') =>
      match t'.readNextInstApp with
      | (false, t'') => .stop t''
      | (true, t'') => goApp { t'' with appInitialized := true }

/- Shift the look-ahead and read a new one. -/
def shiftApp
    (t : TraceThread κ α) :
    Bool × TraceThread κ α :=
  readNextInstApp { t with instApp := t.nextInstApp }

/- A context switch has set the reader of the application. -/
def resume (t : TraceThread κ α) : Fetched κ α :=
  match t.toBeReplayedInst with
  | some inst =>
      .go
        { t with
          inst := some (.app inst)
          toBeReplayedInst := none
          toBeReplayedNextInst := none }
        (t.toBeReplayedNextInst.map .app)
  | none =>
      if t.appInitialized then
        match t.shiftApp with
        | (false, t') => .stop t'
        | (true, t') => goApp t'
      else
        t.initializeApp

/- The selection of the reader. -/
def fetch (t : TraceThread κ α) : Fetched κ α :=
  if t.onApp then
    match t.shiftApp with
    | (false, t') => .stop t'
    | (true, t') => .go t' (t'.nextInstApp.map .app)
  else
    match t.readNextInstKernel with
    | (false, t') => .stop t'
    | (true, t') =>
        if t'.onApp then
          t'.resume
        else
          .go t' (t'.nextInstKernel.map .kernel)

/- The switch to the kernel at a page fault. -/
def handlePageFault
    (t : TraceThread κ α) :
    TraceThread κ α :=
  match readNextInstKernel
      { t with
        toBeReplayedInst := t.instApp
        toBeReplayedNextInst := t.nextInstApp
        onApp := false } with
  | (false, t') => { t' with stopped := true }
  | (true, t') =>
      { t' with inst := t'.nextInstKernel.map .kernel }

/- An instruction faults only in the application. -/
def faultsAt (fault : Bool) : TraceInst κ α → Bool
| .kernel _ => false
| .app _ => fault

/-
  One turn of the loop, in which an instruction of the
  application faults or not. A thread that has left the loop
  does nothing.
-/
def step
    (t : TraceThread κ α)
    (fault : Bool) :
    Option (TraceThread κ α) :=
  if t.stopped then
    some t
  else
    match t.fetch with
    | .stop t' => some { t' with stopped := true }
    | .go t' nextInst =>
        match t'.inst with
        | none => none
        | some i =>
            let after :=
              t'.note [.executed i (faultsAt fault i)]
            if faultsAt fault i then
              some after.handlePageFault
            else
              some { after with inst := nextInst }

end TraceThread

end Virtuoso
