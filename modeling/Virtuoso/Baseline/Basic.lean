import Virtuoso.Buddy.Runs
import Virtuoso.Lib.Bump
import Virtuoso.PhysicalMemory.Basic

/-
  The allocator of `baseline.h`.

  Data pages come from the buddy allocator, instruction pages
  from the instruction area of the base class. The frames of
  page tables come from the pointer of the base class: the
  class has a method of the same name with fewer parameters,
  which is not the virtual one that the handlers call.

  The system is the allocator together with the memory that
  it has handed out and that is in use. Page-table frames are
  given back in the reverse order.

  Key definitions include:
    * `BaselineAllocator`
    * `Baseline.FramesApart`
-/

namespace Virtuoso

/- A buddy allocator beside the kernel's memory. -/
structure BaselineAllocator where
  memory : PhysicalMemoryAllocator
  buddy : Buddy

namespace BaselineAllocator

/- `BaselineAllocator::BaselineAllocator`. -/
def construct
    (memorySize maxOrder kernelSize : Nat) :
    Option BaselineAllocator :=
  (Buddy.construct memorySize maxOrder kernelSize).map
    (fun b => ⟨PhysicalMemoryAllocator.construct kernelSize, b⟩)

/- A block of the buddy allocator. -/
def fromBuddy
    (a : BaselineAllocator)
    (bytes : Nat) :
    Option (Option Nat × BaselineAllocator) :=
  (a.buddy.allocate bytes).map
    (fun r => (r.1, { a with buddy := r.2 }))

/- `BaselineAllocator::allocate`: the page number. -/
def allocate
    (a : BaselineAllocator)
    (bytes : Nat)
    (isPagetableAlloc isInstructionAlloc : Bool) :
    Option (Option Nat × BaselineAllocator) :=
  if isPagetableAlloc then
    a.fromBuddy bytes
  else if isInstructionAlloc then
    let r := a.memory.allocateInstruction bytes
    some (r.1, { a with memory := r.2 })
  else
    a.fromBuddy bytes

end BaselineAllocator

namespace Baseline

/-
  The allocator, the blocks of data pages, and the bytes of
  the instruction pages and of the page tables, with the last
  ones first.
-/
structure System where
  allocator : BaselineAllocator
  data : List Span
  instructions : List Span
  pageTables : List Span

/- A call of the allocator. -/
inductive Op
  | data (bytes : Nat)
  | instruction (bytes : Nat)
  | pageTable (bytes : Nat)
  | giveBack
deriving DecidableEq

/- The bytes of a region that starts at a page. -/
def bytesAt (page bytes : Nat) : Span :=
  ⟨page * 4096, page * 4096 + bytes - 1⟩

/-
  Perform one call and record what it returns. `giveBack` is
  the return of a frame that the last fault did not use.
-/
def step (s : System) : Op → Option System
| .data bytes =>
    (s.allocator.allocate bytes false false).map
      (fun r =>
        { s with
          allocator := r.2
          data := match r.1 with
            | none => s.data
            | some page =>
                ⟨page, page +
                  2 ^ Buddy.orderOf (bytes / 4096) - 1⟩ :: s.data })
| .instruction bytes =>
    (s.allocator.allocate bytes false true).map
      (fun r =>
        { s with
          allocator := r.2
          instructions := match r.1 with
            | none => s.instructions
            | some page =>
                bytesAt page bytes :: s.instructions })
| .pageTable bytes =>
    let r := s.allocator.memory.handlePageTableAllocations
      bytes
    some
      { s with
        allocator := { s.allocator with memory := r.2 }
        pageTables := bytesAt r.1 bytes :: s.pageTables }
| .giveBack =>
    some
      { s with
        allocator :=
          { s.allocator with
            memory :=
              s.allocator.memory.handlePageTableDeallocations 4096 }
        pageTables := s.pageTables.tail }

/-
  The calls that are made: byte counts are positive, sizes of
  instruction pages are no half of the address space, and the
  last frame is given back.
-/
def Permitted (s : System) : Op → Prop
| .data _ => True
| .instruction bytes => 0 < bytes ∧ bytes < 2 ^ 63
| .pageTable bytes => 0 < bytes
| .giveBack =>
    ∃ frame ∈ s.pageTables.head?,
      frame.stop + 1 = frame.start + 4096

instance
    (s : System)
    (op : Op) :
    Decidable (Permitted s op) :=
  match op with
  | .data _ => isTrue trivial
  | .instruction bytes =>
      inferInstanceAs (Decidable (0 < bytes ∧ bytes < 2 ^ 63))
  | .pageTable bytes => inferInstanceAs (Decidable (0 < bytes))
  | .giveBack =>
      inferInstanceAs (Decidable
        (∃ frame ∈ s.pageTables.head?,
          frame.stop + 1 = frame.start + 4096))

/-
  The bytes in use are pairwise disjoint, and page tables are
  below the end of the kernel.
-/
def FramesApart (s : System) : Prop :=
  (s.instructions ++ s.pageTables ++
      s.data.map blockBytes).Pairwise Span.Apart ∧
    ∀ frame ∈ s.pageTables,
      frame.stop < s.allocator.memory.kernelEndAddress

/- The system before the first call. -/
def start (a : BaselineAllocator) : System :=
  ⟨a, [], [], []⟩

end Baseline

end Virtuoso
