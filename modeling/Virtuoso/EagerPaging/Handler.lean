import Virtuoso.EagerPaging.Basic
import Virtuoso.ExceptionHandler.Basic

/-
  The page faults of `EagerPagingExceptionHandler`, with the
  allocator of `eager_paging.h` and the radix page table of
  one application.

  The handler backs the VMA of the faulting page by ranges
  and installs the pages of all ranges one after the other.
  For each page it takes as many page-table frames as the
  walk of the faulting page requested, and gives back those
  that the page did not need.

  The range table, which the ranges are also entered into,
  the members of the VMA that nothing reads, the lock and the
  log are left out. A failed assertion and undefined
  behaviour are `none`.

  Key definitions include:
    * `EagerPaging.Vma`
    * `EagerPaging.handlePageFault`
-/

namespace Virtuoso

namespace EagerPaging

open SniperExceptionHandler (takeFrames giveBack)

/- A memory area of an application. -/
structure Vma where
  vbase : Nat
  vend : Nat
deriving DecidableEq

namespace Vma

/- `VMA::contains`. -/
def contains (v : Vma) (address : Nat) : Bool :=
  decide (v.vbase ≤ address ∧ address < v.vend)

/- The first page of a VMA. -/
def first (v : Vma) : Nat :=
  v.vbase / 4096

/-
  The pages that `allocate_ranges` counts in an `int`. The
  loop does not start with a negative number.
-/
def remainingPages (v : Vma) : Nat :=
  let pages := (v.vend - v.vbase) / 4096 % 2 ^ 32
  if pages < 2 ^ 31 then pages else 0

/- `allocate_ranges` for the bounds of a VMA. -/
def allocateRanges
    (v : Vma)
    (b : Buddy) : Option (List Range × Buddy) :=
  allocateFrom v.remainingPages v.first v.remainingPages b

end Vma

/- The pages of a range, each with its frame. -/
def Range.mappings (range : Range) : List (Nat × Nat) :=
  (List.range range.bounds).map
    (fun j => (range.vpn + j, range.offset + j))

/- The allocator, and the page table with its updates. -/
structure System where
  buddy : Buddy
  memory : PhysicalMemoryAllocator
  table : Radix.Session

/- The state before the first fault. -/
def System.start (b : Buddy) (kernelSize : Nat) : System :=
  ⟨b, PhysicalMemoryAllocator.construct kernelSize, Radix.start 4⟩

/-
  `allocate_page_table_frames` for a 4KB page, with
  `update_page_table_frames`.
-/
def allocatePageTableFrames
    (s : System)
    (address ppn numRequestedFrames : Nat) : Option System :=
  (takeFrames numRequestedFrames s.memory).bind (fun taken =>
    (Radix.updatePageTableFrames s.table.table address ppn
        .fourKb taken.1).map (fun updated =>
      { s with
        memory :=
          giveBack (numRequestedFrames - updated.1) taken.2
        table :=
          ⟨updated.2, .update address ppn .fourKb taken.1 ::
            s.table.past⟩ }))

/- The inner loops of `allocate_vma_eagerly`. -/
def installPages
    (frames : Nat) :
    List (Nat × Nat) → System → Option System
| [], s => some s
| page :: pages, s =>
    (allocatePageTableFrames s (page.1 * 4096) page.2
      frames).bind (installPages frames pages)

/-
  `allocate_vma_eagerly`, with the ranges that it allocates.
  An address without a VMA is fatal.
-/
def allocateVmaEagerly
    (s : System)
    (vmas : List Vma)
    (address frames : Nat) :
    Option (List Range × System) :=
  (vmas.find? (fun v => v.contains address)).bind (fun vma =>
    (vma.allocateRanges s.buddy).bind (fun allocated =>
      (installPages frames
          (allocated.1.flatMap Range.mappings)
          { s with buddy := allocated.2 }).map (fun s' =>
        (allocated.1, s'))))

/- The frame of the faulting page, the output `ppn`. -/
def ppnOf
    (ranges : List Range)
    (address : Nat) : Option Nat :=
  (ranges.find? (fun range =>
      decide (range.vpn * 4096 ≤ address ∧
        address < range.vpn * 4096 + range.bounds * 4096))).map
    (fun range =>
      range.offset + (address - range.vpn * 4096) / 4096)

/- `handle_page_fault`, with the output `ppn`. -/
def handlePageFault
    (s : System)
    (vmas : List Vma)
    (vpn metadataFrames : Nat) :
    Option (Option Nat × System) :=
  (allocateVmaEagerly s vmas (vpn * 2 ^ 12)
      metadataFrames).map (fun r =>
    (ppnOf r.1 (vpn * 2 ^ 12), r.2))

end EagerPaging

end Virtuoso
