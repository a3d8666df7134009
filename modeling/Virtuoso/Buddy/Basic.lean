import Mathlib.Data.Nat.Log
import Mathlib.Logic.Function.Basic
import Virtuoso.Lib.Span

/-
  The buddy allocator of `buddy.h`.

  `free_list[k]` is `freeList k`. A block is the span of its
  page numbers; the flag and the owner of the source's tuple
  are the constants `false` and `-1` and are left out, and so
  are the log, the printed counters and the metric that ends
  a fragmentation run.

  An operation returns `none` where the source has undefined
  behaviour or fails an assertion. A page number that the
  source reports as `-1` is a returned `none`.

  Key definitions include:
    * `Buddy`
    * `Buddy.fragmentMemoryToTargetCountStep`
-/

namespace Virtuoso

/- The free lists, indexed by the order of their blocks. -/
abbrev FreeList :=
  Nat → List Span

/- The allocator, with its lists of free blocks. -/
structure Buddy where
  memorySize : Nat
  maxOrder : Nat
  kernelSize : Nat
  totalPages : Nat
  freePages : Nat
  freeList : FreeList

namespace Buddy

/- The sizes fixed at construction. -/
def geometry (b : Buddy) : Nat × Nat × Nat :=
  (b.memorySize, b.maxOrder, b.kernelSize)

/- The number of 4KB pages in `mb` megabytes. -/
def pagesInMb (mb : Nat) : Nat :=
  mb * 1024 / 4

/- The first non-kernel page. -/
def base (b : Buddy) : Nat :=
  pagesInMb b.kernelSize

/- The page after the last page of memory. -/
def limit (b : Buddy) : Nat :=
  pagesInMb b.memorySize

/- `free_list[k].push_back(block)`. -/
def pushBack
    (fl : FreeList)
    (k : Nat)
    (block : Span) : FreeList :=
  Function.update fl k (fl k ++ [block])

/- `free_list[k].pop_back()`. -/
def popBack (fl : FreeList) (k : Nat) : FreeList :=
  Function.update fl k (fl k).dropLast

/- The upper end of the first half of a block. -/
def midPoint (block : Span) : Nat :=
  block.start + (block.stop - block.start) / 2

/-
  `ceil(log2(pages))`. The source rounds in double precision,
  which is exact below `2 ^ 48` pages.
-/
def orderOf (pages : Nat) : Nat :=
  Nat.clog 2 pages

/- Add to a 64-bit counter. -/
def add64 (counter n : Nat) : Nat :=
  (counter + n) % 2 ^ 64

/- Subtract from a 64-bit counter. -/
def sub64 (counter n : Nat) : Nat :=
  (counter + (2 ^ 64 - n % 2 ^ 64)) % 2 ^ 64

/- Within 64 bits the counters are those of arithmetic. -/
theorem add64_of_lt
    {m n : Nat}
    (hLt : m + n < 2 ^ 64) :
    add64 m n = m + n :=
  Nat.mod_eq_of_lt hLt

theorem sub64_of_le
    {m n : Nat}
    (hLe : n ≤ m)
    (hLt : m < 2 ^ 64) :
    sub64 m n = m - n := by
  have hMod : n % 2 ^ 64 = n :=
    Nat.mod_eq_of_lt (by omega)
  have hSum : m + (2 ^ 64 - n) = m - n + 2 ^ 64 := by omega
  rw [sub64, hMod, hSum, Nat.add_mod_right]
  exact Nat.mod_eq_of_lt (by omega)

/- The local variables of the constructor's loops. -/
structure Fill where
  currentFree : Nat
  available : Nat
  freeList : FreeList

/-
  The inner loop: push blocks of one order while they fit.
  `fuel` bounds the iterations; `available` of them suffice.
-/
def fillOrder (order : Nat) : Nat → Fill → Fill
| 0, s => s
| fuel + 1, s =>
    if 2 ^ order ≤ s.available then
      fillOrder order fuel
        { currentFree := s.currentFree + 2 ^ order
          available := s.available - 2 ^ order
          freeList := pushBack s.freeList order
            ⟨s.currentFree, s.currentFree + 2 ^ order - 1⟩ }
    else
      s

/- The outer loop, from order `order` downwards. -/
def fillFrom (limit : Nat) : Nat → Fill → Fill
| 0, s =>
    if s.currentFree < limit then
      fillOrder 0 s.available s
    else
      s
| order + 1, s =>
    if s.currentFree < limit then
      fillFrom limit order (fillOrder (order + 1) s.available s)
    else
      s

/-
  `Buddy::Buddy`. Shifting a 64-bit one by 64 or more is
  undefined.
-/
def construct
    (memorySize maxOrder kernelSize : Nat) :
    Option Buddy :=
  if maxOrder < 64 then
    let total :=
      pagesInMb memorySize - pagesInMb kernelSize
    let filled := fillFrom (pagesInMb memorySize) maxOrder
      { currentFree := pagesInMb kernelSize
        available := total
        freeList := fun _ => [] }
    some
      { memorySize := memorySize
        maxOrder := maxOrder
        kernelSize := kernelSize
        totalPages := total
        freePages := total
        freeList := filled.freeList }
  else
    none

/- The order and the index of the first block with a page. -/
def findBlock
    (b : Buddy)
    (page : Nat) :
    Option (Nat × Nat) :=
  (List.range (b.maxOrder + 1)).findSome? (fun i =>
    ((b.freeList i).findIdx?
      (fun block => decide (block.Has page))).map (fun j => (i, j)))

/-
  Halve the block until one page is left, returning the
  halves without the page to the free lists.
-/
def isolate (page : Nat) : Nat → Span → FreeList → FreeList
| 0, _, fl => fl
| order + 1, block, fl =>
    let mid := midPoint block
    if page ≤ mid then
      isolate page order ⟨block.start, mid⟩
        (pushBack fl order ⟨mid + 1, block.stop⟩)
    else
      isolate page order ⟨mid + 1, block.stop⟩
        (pushBack fl order ⟨block.start, mid⟩)

/- `Buddy::checkIfFree`. -/
def checkIfFree
    (b : Buddy)
    (page : Nat)
    (allocate : Bool) :
    Bool × Buddy :=
  match b.findBlock page with
  | none => (false, b)
  | some (order, j) =>
      match (b.freeList order)[j]? with
      | none => (false, b)
      | some block =>
          if allocate then
            let fl := Function.update b.freeList order
              ((b.freeList order).eraseIdx j)
            (true,
              { b with
                freeList := isolate page order block fl
                freePages := sub64 b.freePages 1 })
          else
            (true, b)

/- The first order from `lo` to the maximum with a block. -/
def firstNonEmpty (b : Buddy) (lo : Nat) : Option Nat :=
  (List.range' lo (b.maxOrder + 1 - lo)).find?
    (fun i => !(b.freeList i).isEmpty)

/-
  Split the block down to order `ind`, keeping the upper half
  each time. The source pushes both halves and takes the
  second one back.
-/
def splitTail
    (ind : Nat) :
    Nat → Span → FreeList → Option (Span × FreeList)
| 0, block, fl => some (block, fl)
| n + 1, block, fl =>
    let mid := midPoint block
    let pair1 : Span := ⟨block.start, mid⟩
    let pair2 : Span := ⟨mid + 1, block.stop⟩
    if pair2.stop - pair2.start + 1 = 2 ^ (ind + n) then
      splitTail ind n pair2 (pushBack fl (ind + n) pair1)
    else
      none

/-
  `Buddy::allocate`. The scan leaves `i` at the first order
  with a block. Without one it stops at `maxOrder + 1`, and
  it stays at `ind` when `ind` is already larger; the test
  for exhaustion is an equality, so the last case goes on to
  take the back of an empty (or missing) list. A request is
  for one page at least: below that the source converts the
  logarithm of zero, and its scan has no first list.
-/
def allocate
    (b : Buddy)
    (bytes : Nat) :
    Option (Option Nat × Buddy) :=
  let ind := orderOf (bytes / 4096)
  let i := (b.firstNonEmpty ind).getD
    (max ind (b.maxOrder + 1))
  if i = b.maxOrder + 1 then
    some (none, b)
  else
    match (b.freeList i).getLast? with
    | none => none
    | some block =>
        match splitTail ind (i - ind) block
            (popBack b.freeList i) with
        | none => none
        | some (block', fl) =>
            some (some block'.start,
              { b with
                freeList := fl
                freePages := sub64 b.freePages (2 ^ ind) })

/-
  `Buddy::reserve_2mb_page`. The vector of free lists has
  `2 * (maxOrder + 1)` members, and `free_list[9]` has to be
  one of them.
-/
def reserve2mbPage
    (b : Buddy) :
    Option (Option Span × Buddy) :=
  if 2 * (b.maxOrder + 1) ≤ 9 then
    none
  else
    match (b.freeList 9).getLast? with
    | some block =>
        some (some block,
          { b with freeList := popBack b.freeList 9 })
    | none =>
        match b.firstNonEmpty 10 with
        | none => some (none, b)
        | some i =>
            match b.freeList i with
            | [] => none
            | temp :: rest =>
                let size := temp.stop - temp.start + 1
                let fl := Function.update b.freeList i rest
                let fl' := Function.update fl 9
                  (fl 9 ++ Span.chop temp.start 512 (size / 512))
                match (fl' 9).getLast? with
                | none => none
                | some block =>
                    some (some block,
                      { b with freeList := popBack fl' 9 })

/-
  `Buddy::free`. The source has `2 * (maxOrder + 1)` lists
  and no check, so the order of a block has to be below that.
-/
def free (b : Buddy) (start stop : Nat) : Buddy :=
  let order := orderOf (stop - start + 1)
  { b with
    freeList := pushBack b.freeList order ⟨start, stop⟩
    freePages := add64 b.freePages (2 ^ order) }

/-
  `std::uniform_int_distribution(lo, hi)` at a generator
  value. Every member of the interval is the outcome of some
  `draw`.
-/
def uniform (lo hi draw : Nat) : Nat :=
  lo + draw % (hi - lo + 1)

/- The largest order of at least 9 with a block. -/
def lastNonEmpty (b : Buddy) : Option Nat :=
  (List.range' 9 (b.maxOrder + 1 - 9)).reverse.find?
    (fun i => !(b.freeList i).isEmpty)

/-
  One round of a fragmentation loop: chop the first block of
  the largest non-empty order into blocks of order `pick i`.
-/
def splitLargest (b : Buddy) (pick : Nat → Nat) : Buddy :=
  match b.lastNonEmpty with
  | none => b
  | some i =>
      match b.freeList i with
      | [] => b
      | temp :: rest =>
          let size := temp.stop - temp.start + 1
          let order := pick i
          let fl := Function.update b.freeList i rest
          { b with
            freeList := Function.update fl order
              (fl order ++
                Span.chop temp.start (2 ^ order)
                  (size / 2 ^ order)) }

/- One round of `Buddy::fragmentMemory`. -/
def fragmentMemoryStep (b : Buddy) (draw : Nat) : Buddy :=
  b.splitLargest (fun i => uniform 8 (i - 1) draw)

/- One round of `Buddy::fragmentMemoryToTargetCount`. -/
def fragmentMemoryToTargetCountStep
    (b : Buddy)
    (draw : Nat) : Buddy :=
  b.splitLargest (fun i => uniform 8 (min (i - 1) 8) draw)

end Buddy

end Virtuoso
