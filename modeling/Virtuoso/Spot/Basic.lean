import Virtuoso.Buddy.Basic
import Virtuoso.PhysicalMemory.Basic

/-
  The allocator of `spot.h`.

  The pages of a VMA are placed at one offset from their
  virtual pages. The offset is chosen at the first fault of
  the VMA, from a map of contiguous free ranges, and a page
  that is not free at its offset comes from the buddy
  allocator.

  A range of the contiguity map is a `Span` from `ppn` to
  `bounds`. The offset of a VMA is an integer, with -1 for
  none, as in the source; the page that it leads to is taken
  modulo `2 ^ 64`. The VMAs of an application are passed and
  returned by `allocate`. Fragmentation, the counter of the
  allocations at the offset and the log are left out. The
  operation has no outcome where the search reads behind the
  end of the contiguity map.

  Key definitions include:
    * `Vma`
    * `SpotAllocator.allocate`
-/

namespace Virtuoso

/- A memory area, with the offset it is placed at. -/
structure Vma where
  vbase : Nat
  vend : Nat
  allocated : Bool
  physicalOffset : Int
deriving DecidableEq

namespace Vma

/- `VMA::VMA`. -/
def construct (base stop : Nat) : Vma :=
  ⟨base, stop, false, -1⟩

/- The address lies in the area. -/
def contains (vma : Vma) (address : Nat) : Bool :=
  decide (vma.vbase ≤ address ∧ address < vma.vend)

end Vma

/- `setVMAPhysicalOffset`. -/
def setPhysicalOffset
    (vmas : List Vma)
    (vmaIndex : Nat)
    (offset : Int) : List Vma :=
  vmas.modify vmaIndex
    (fun vma => { vma with physicalOffset := offset })

/-
  `find_VMA_specs`: the index, the offset and the size of the
  VMA with an address, which is marked as allocated.
-/
def findVmaSpecs
    (vmas : List Vma)
    (address : Nat) :
    Option (Nat × Int × Nat) × List Vma :=
  match vmas.findIdx? (fun vma => vma.contains address) with
  | none => (none, vmas)
  | some vmaIndex =>
      match vmas[vmaIndex]? with
      | none => (none, vmas)
      | some vma =>
          (some (vmaIndex,
            if vma.allocated then vma.physicalOffset else -1,
            vma.vend - vma.vbase),
            vmas.modify vmaIndex
              (fun vma => { vma with allocated := true }))

/- The allocator, with its map of free spans. -/
structure SpotAllocator where
  memory : PhysicalMemoryAllocator
  buddy : Buddy
  contiguityMap : List Span
  contiguityMapPointer : Nat

/- Where a fault is to be placed. -/
inductive SpotTarget
  | noVma
  | noRange
  | page (requestedPpn : Nat)
deriving DecidableEq

namespace SpotAllocator

/- `SpotAllocator::SpotAllocator`. -/
def construct
    (memorySize maxOrder kernelSize : Nat) :
    Option SpotAllocator :=
  (Buddy.construct memorySize maxOrder kernelSize).map
    (fun b =>
      { memory := PhysicalMemoryAllocator.construct kernelSize
        buddy := b
        contiguityMap :=
          [⟨Buddy.pagesInMb kernelSize, Buddy.pagesInMb memorySize⟩]
        contiguityMapPointer := 0 })

/- A 64-bit value as a signed number. -/
def toInt64 (n : Nat) : Int :=
  if n < 2 ^ 63 then (n : Int) else (n : Int) - 2 ^ 64

/-
  The search for a range of at least `pages` pages, with the
  ranges left to visit, the index, and the largest range so
  far with its index. The result is whether a range was found
  and the index of that range or of the largest one.
-/
def searchFrom
    (ranges : List Span)
    (pages : Nat) :
    Nat → Nat → Int → Option Nat → Option (Bool × Option Nat)
| 0, _, _, largestIndex => some (false, largestIndex)
| left + 1, i, largest, largestIndex =>
    match ranges[i]? with
    | none => none
    | some range =>
        let size := Buddy.sub64 range.stop range.start
        if pages ≤ Buddy.add64 size 1 then
          some (true, some i)
        else if largest < toInt64 (Buddy.add64 size 1) then
          searchFrom ranges pages left
            ((i + 1) % ranges.length) (toInt64 size) (some i)
        else
          searchFrom ranges pages left
            ((i + 1) % ranges.length) largest largestIndex

/- The search from the pointer on. -/
def search
    (a : SpotAllocator)
    (vmaSize : Nat) :
    Option (Bool × Option Nat) :=
  searchFrom a.contiguityMap (vmaSize / 4096)
    a.contiguityMap.length a.contiguityMapPointer (-1) none

/- The physical page at an offset. -/
def requestedPpn (address : Nat) (offset : Int) : Nat :=
  (((address / 4096 : Nat) - offset) % 2 ^ 64).toNat

/-
  The first half of `allocate`: the page at the offset of the
  VMA, which is chosen first where there is none.
-/
def locate
    (a : SpotAllocator)
    (vmas : List Vma)
    (address : Nat) :
    Option (SpotTarget × SpotAllocator × List Vma) :=
  match findVmaSpecs vmas address with
  | (none, vmas') => some (.noVma, a, vmas')
  | (some (vmaIndex, currentOffset, vmaSize), vmas') =>
      if currentOffset = -1 then
        match a.search vmaSize with
        | none => none
        | some (_, none) => some (.noRange, a, vmas')
        | some (found, some i) =>
            match a.contiguityMap[i]? with
            | none => none
            | some range =>
                let offset : Int :=
                  (address / 4096 : Nat) - range.start
                let pointer :=
                  if found then
                    (i + 1) % a.contiguityMap.length
                  else
                    i
                some (.page (requestedPpn address offset),
                  { a with contiguityMapPointer := pointer },
                  setPhysicalOffset vmas' vmaIndex offset)
      else
        some (.page (requestedPpn address currentOffset), a, vmas')

/- Take a page out of the contiguity map. -/
def updateContiguityMap
    (a : SpotAllocator)
    (finalPpn : Nat) : SpotAllocator :=
  { a with contiguityMap := Span.punch finalPpn a.contiguityMap }

/- A page of the buddy allocator. -/
def fromBuddy
    (a : SpotAllocator)
    (bytes : Nat) :
    Option (Option Nat × SpotAllocator) :=
  (a.buddy.allocate bytes).map
    (fun r => (r.1, { a with buddy := r.2 }))

/-
  The second half of `allocate`. The test for a free page
  leaves it in the free lists, and a page that is taken for
  an address without VMA stays in the contiguity map.
-/
def serve
    (a : SpotAllocator)
    (bytes : Nat) :
    SpotTarget → Option (Option Nat × SpotAllocator)
| .noVma => a.fromBuddy 4096
| .noRange => some (none, a)
| .page requestedPpn =>
    let r := a.buddy.checkIfFree requestedPpn false
    if r.1 then
      some (some requestedPpn,
        { a with buddy := r.2 }.updateContiguityMap requestedPpn)
    else
      (a.fromBuddy bytes).map
        (fun r =>
          (r.1, r.1.elim r.2 r.2.updateContiguityMap))

/-
  `SpotAllocator::allocate`: the page number, the allocator
  and the VMAs of the application.
-/
def allocate
    (a : SpotAllocator)
    (vmas : List Vma)
    (bytes address : Nat)
    (isPagetableAllocation isInstructionAllocation : Bool) :
    Option (Option Nat × SpotAllocator × List Vma) :=
  if isPagetableAllocation then
    let r := a.memory.handlePageTableAllocations bytes
    some (some r.1, { a with memory := r.2 }, vmas)
  else if isInstructionAllocation then
    let r := a.memory.allocateInstruction bytes
    some (r.1, { a with memory := r.2 }, vmas)
  else
    match a.locate vmas address with
    | none => none
    | some (target, a', vmas') =>
        (a'.serve bytes target).map (fun r => (r.1, r.2, vmas'))

end SpotAllocator

end Virtuoso
