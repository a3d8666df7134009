import Virtuoso.Lib.Span

/-
  The base class of the physical memory allocators, from
  `physical_memory_allocator.h`.

  Memory of the kernel is handed out by a pointer that starts
  behind the first page and is never compared with the end of
  the kernel. Instruction pages have a pointer of their own,
  which starts at the end of the kernel and is compared with
  the end of its area. All members are 64-bit numbers of
  bytes. A page that the source reports as `-1` is `none`.

  Key definitions include:
    * `PhysicalMemoryAllocator`
    * `blockBytes`
-/

namespace Virtuoso

/- The memory of the kernel and its next pages. -/
structure PhysicalMemoryAllocator where
  kernelStartAddress : Nat
  kernelEndAddress : Nat
  instructionCurrentAddress : Nat
  instructionEndAddress : Nat
deriving DecidableEq, Repr

namespace PhysicalMemoryAllocator

/- `PhysicalMemoryAllocator::PhysicalMemoryAllocator`. -/
def construct
    (kernelSize : Nat) : PhysicalMemoryAllocator :=
  let kernelEnd := kernelSize * 2 ^ 20 % 2 ^ 64
  { kernelStartAddress := 4096
    kernelEndAddress := kernelEnd
    instructionCurrentAddress := kernelEnd
    instructionEndAddress :=
      (kernelEnd + 100 * 2 ^ 20) % 2 ^ 64 }

/- `handle_page_table_allocations`: the page number. -/
def handlePageTableAllocations
    (m : PhysicalMemoryAllocator)
    (bytes : Nat) :
    Nat × PhysicalMemoryAllocator :=
  (m.kernelStartAddress / 4096,
    { m with
      kernelStartAddress :=
        (m.kernelStartAddress + bytes) % 2 ^ 64 })

/- `handle_page_table_deallocations`. -/
def handlePageTableDeallocations
    (m : PhysicalMemoryAllocator)
    (bytes : Nat) : PhysicalMemoryAllocator :=
  { m with
    kernelStartAddress :=
      (m.kernelStartAddress + (2 ^ 64 - bytes % 2 ^ 64)) % 2 ^ 64 }

/- `allocateInstruction`: a page of the instruction area. -/
def allocateInstruction
    (m : PhysicalMemoryAllocator)
    (size : Nat) :
    Option Nat × PhysicalMemoryAllocator :=
  let next := (m.instructionCurrentAddress + size) % 2 ^ 64
  if m.instructionEndAddress < next then
    (none, m)
  else
    (some (m.instructionCurrentAddress / 4096),
      { m with instructionCurrentAddress := next })

end PhysicalMemoryAllocator

/- The bytes of a block of pages. -/
def blockBytes (block : Span) : Span :=
  ⟨block.start * 4096, block.stop * 4096 + 4095⟩

end Virtuoso
