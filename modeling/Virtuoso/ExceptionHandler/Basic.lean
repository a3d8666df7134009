import Virtuoso.Baseline.Basic
import Virtuoso.PageTable.Radix.Frames
import Virtuoso.ReserveThp.Outcomes

/-
  The page faults of `SniperExceptionHandler`, with
  `BaselineAllocator` or `ReservationTHPAllocator` and one
  radix page table for each application.

  The handler allocates the page, takes as many page-table
  frames as the walk requested, updates the page table and
  gives the frames back that the update did not use. The
  frames come from the pointer of the base class, which both
  allocators inherit.

  A page that the allocator could not provide is `none`; the
  source installs it as the page number `-1`. The lock, the
  log and the output parameters that nothing reads are left
  out.

  Key definitions include:
    * `FaultAllocator`
    * `SniperExceptionHandler.step`
-/

namespace Virtuoso

/- `ReservationTHPAllocator` comes with its base class. -/
inductive FaultAllocator
  | baseline (a : BaselineAllocator)
  | reserve (thp : ReserveThp)
      (memory : PhysicalMemoryAllocator)

namespace FaultAllocator

/- The kernel's memory. -/
def memory :
    FaultAllocator → PhysicalMemoryAllocator
| .baseline a => a.memory
| .reserve _ memory => memory

/- The kernel's memory has changed. -/
def setMemory
    (m : PhysicalMemoryAllocator) :
    FaultAllocator → FaultAllocator
| .baseline a => .baseline { a with memory := m }
| .reserve thp _ => .reserve thp m

@[simp] theorem memory_setMemory
    (m : PhysicalMemoryAllocator)
    (a : FaultAllocator) :
    (a.setMemory m).memory = m := by
  cases a with
  | baseline a => rfl
  | reserve thp memory => rfl

/- The allocation of the page of a fault, of 4KB. -/
def allocate
    (address : Nat)
    (isInstruction : Bool)
    (pick : Nat) :
    FaultAllocator →
      Option ((Option Nat × PageSize) × FaultAllocator)
| .baseline a =>
    (a.allocate 4096 false isInstruction).map (fun r =>
      ((r.1, .fourKb), .baseline r.2))
| .reserve thp memory =>
    (thp.allocate 4096 address false pick).map (fun r =>
      ((r.1.frame,
        if r.1.pageSize = 21 then .twoMb else .fourKb),
        .reserve r.2 memory))

/- Rounds of artificial fragmentation, of both kinds. -/
def fragment
    (rounds : List (Bool × Nat))
    (b : Buddy) : Buddy :=
  rounds.foldl
    (fun (b : Buddy) round =>
      if round.1 then
        b.fragmentMemoryToTargetCountStep round.2
      else
        b.fragmentMemoryStep round.2)
    b

/- An allocator before the first fault. -/
inductive Constructed
    (memorySize maxOrder kernelSize : Nat) :
    FaultAllocator → Prop
  | baseline
      {a : BaselineAllocator}
      (hConstruct : BaselineAllocator.construct memorySize
        maxOrder kernelSize = some a)
      (rounds : List (Bool × Nat)) :
      Constructed memorySize maxOrder kernelSize
        (.baseline { a with buddy := fragment rounds a.buddy })
  | reserve
      {threshold : ℚ}
      {thp : ReserveThp}
      (hConstruct : ReserveThp.construct memorySize maxOrder
        kernelSize threshold = some thp)
      (rounds : List (Bool × Nat)) :
      Constructed memorySize maxOrder kernelSize
        (.reserve
          { thp with buddy := fragment rounds thp.buddy }
          (PhysicalMemoryAllocator.construct kernelSize))

end FaultAllocator

namespace SniperExceptionHandler

/- The loop that takes frames; the frame `-1` is fatal. -/
def takeFrames :
    Nat → PhysicalMemoryAllocator →
      Option (List Nat × PhysicalMemoryAllocator)
| 0, m => some ([], m)
| n + 1, m =>
    let taken := m.handlePageTableAllocations 4096
    if taken.1 = invalidPpn then
      none
    else
      (takeFrames n taken.2).map (fun rest =>
        (taken.1 :: rest.1, rest.2))

/- The loop that gives frames back. -/
def giveBack :
    Nat → PhysicalMemoryAllocator → PhysicalMemoryAllocator
| 0, m => m
| n + 1, m => giveBack n (m.handlePageTableDeallocations 4096)

/- The allocator, and the page tables with their updates. -/
structure System where
  allocator : FaultAllocator
  tables : Nat → Radix.Session

/- An access of an application. -/
structure Access where
  app : Nat
  va : Nat
  isInstruction : Bool
  pick : Nat

/- What the handler has done. -/
structure Handled where
  ppn : Option Nat
  pageSize : PageSize
  frames : List Nat
  used : Nat

/- The address that the handler sees, `vpn << 12`. -/
def Access.address (x : Access) : Nat :=
  x.va / 2 ^ 12 * 2 ^ 12

/-
  `handle_page_fault` with `allocate_page_table_frames`, for
  a walk that requested `metadataFrames` frames.
-/
def handlePageFault
    (s : System)
    (x : Access)
    (metadataFrames : Nat) : Option (Handled × System) :=
  let session := s.tables x.app
  (s.allocator.allocate x.address x.isInstruction
      x.pick).bind (fun placed =>
    (takeFrames metadataFrames placed.2.memory).bind
      (fun taken =>
        let ppn := placed.1.1.getD invalidPpn
        (Radix.updatePageTableFrames session.table x.address
            ppn placed.1.2 taken.1).map (fun updated =>
          (⟨placed.1.1, placed.1.2, taken.1, updated.1⟩,
            ⟨placed.2.setMemory
              (giveBack (metadataFrames - updated.1) taken.2),
              Function.update s.tables x.app
                ⟨updated.2, .update x.address ppn placed.1.2
                  taken.1 :: session.past⟩⟩))))

/- The walk of an access. -/
def walk (s : System) (x : Access) : Option PTWResult :=
  Radix.initializeWalk (s.tables x.app).table x.va

/- An access, which is handled if its walk faults. -/
def step (s : System) (x : Access) : Option System :=
  (walk s x).bind (fun r =>
    if r.isPagefault then
      (handlePageFault s x r.requestedFrames).map Prod.snd
    else
      some s)

/- All page tables are empty. -/
def start (a : FaultAllocator) : System :=
  ⟨a, fun _ => Radix.start 4⟩

end SniperExceptionHandler

end Virtuoso
