import Mathlib.Algebra.Order.Field.Rat
import Virtuoso.Buddy.Accounting
import Virtuoso.Lib.Ranked

/-
  Artificial fragmentation of the free lists.

  A round takes the first block of the largest non-empty
  order from 9 on and cuts it into blocks of one smaller
  order. The loops repeat rounds until a metric of the block
  sizes, or the count of free 2MB pages, has fallen to a
  target.

  Key theorems include:
    * `Buddy.splits_splitLargest`
-/

namespace Virtuoso

namespace Buddy

open Span

/- The sizes of the free blocks, in the order of the lists. -/
def blockSizes (b : Buddy) : List Nat :=
  b.listed.map size

/- The 2MB pages in blocks of the given sizes. -/
def largePages (sizes : List Nat) : Nat :=
  (sizes.map (fun size =>
    if 512 ≤ size then size / 512 else 0)).sum

/- `Buddy::getFreeLargePageCount`. -/
def getFreeLargePageCount (b : Buddy) : Nat :=
  largePages b.blockSizes

/-
  The average of the 50 largest sizes, or of all if there are
  fewer, relative to a block three orders below the largest.
-/
def averageRatio (maxOrder : Nat) (sizes : List Nat) : ℚ :=
  let count := min 50 sizes.length
  let averageSize : ℚ :=
    if 0 < count then
      ((Ranked.topSum 50 sizes : Nat) : ℚ) / (count : ℚ)
    else
      0
  averageSize / 2 ^ (maxOrder - 3)

/- `Buddy::getAverageSizeRatio`. -/
def getAverageSizeRatio (b : Buddy) : ℚ :=
  averageRatio b.maxOrder b.blockSizes

/-
  `Buddy::getLargePageRatio`. Without a whole 2MB page of
  memory the source divides zero by zero, and no comparison
  with the outcome holds; the ratio is zero here.
-/
def getLargePageRatio (b : Buddy) : ℚ :=
  (b.getFreeLargePageCount : ℚ) / ((b.totalPages / 512 : Nat) : ℚ)

/-
  The values of `frag_type`. Every other text selects the
  same metric as `largepage`.
-/
inductive FragType
  | contiguity
  | largepage
deriving DecidableEq

/- The metric that `frag_fun` points to. -/
def fragFun (b : Buddy) : FragType → ℚ
| .contiguity => b.getAverageSizeRatio
| .largepage => b.getLargePageRatio

/-
  `Buddy::fragmentMemory`, with the values of the generator
  in the order of the rounds. No outcome means that the loop
  has not ended within `fuel` tests of its condition.
-/
def fragmentMemory
    (fragType : FragType)
    (target : ℚ) :
    Nat → (Nat → Nat) → Buddy → Option Buddy
| 0, _, _ => none
| fuel + 1, draws, b =>
    if target < b.fragFun fragType then
      fragmentMemory fragType target fuel
        (fun round => draws (round + 1))
        (b.fragmentMemoryStep (draws 0))
    else
      some b

/-
  `Buddy::fragmentMemoryToTargetCount`. A round without a
  block to split ends the loop.
-/
def fragmentMemoryToTargetCount
    (target : Nat) :
    Nat → (Nat → Nat) → Buddy → Option Buddy
| 0, _, _ => none
| fuel + 1, draws, b =>
    if target < b.getFreeLargePageCount then
      if b.lastNonEmpty = none then
        some b
      else
        fragmentMemoryToTargetCount target fuel
          (fun round => draws (round + 1))
          (b.fragmentMemoryToTargetCountStep (draws 0))
    else
      some b

/-
  One block of order `i` is replaced by blocks of order `r`.
-/
def Splits (i r : Nat) (sizes sizes' : List Nat) : Prop :=
  ∃ others : List Nat,
    sizes.Perm (2 ^ i :: others) ∧
      sizes'.Perm (List.replicate (2 ^ (i - r)) (2 ^ r) ++ others)

section Round

variable {b : Buddy} {base : Nat} {pick : Nat → Nat} {i : Nat}

/- The scan from above stops at a list with a first block. -/
theorem exists_first_of_lastNonEmpty
    (hFound : b.lastNonEmpty = some i) :
    ∃ temp rest, b.freeList i = temp :: rest := by
  have hTest := List.find?_some hFound
  cases hList : b.freeList i with
  | nil => simp [hList] at hTest
  | cons temp rest => exact ⟨temp, rest, rfl⟩

/- Without a block of order 9 a round does nothing. -/
theorem splitLargest_of_none
    (hNone : b.lastNonEmpty = none) :
    b.splitLargest pick = b := by
  rw [splitLargest, hNone]

/- What a round does to the lists. -/
theorem freeList_splitLargest
    (hFound : b.lastNonEmpty = some i)
    {temp : Span}
    {rest : List Span}
    (hList : b.freeList i = temp :: rest) :
    b.splitLargest pick =
      { b with
        freeList :=
          Function.update
            (Function.update b.freeList i rest) (pick i)
            (Function.update b.freeList i rest (pick i) ++
              chop temp.start (2 ^ pick i)
                (temp.size / 2 ^ pick i)) } := by
  rw [splitLargest, hFound]
  simp only [hList, Span.size]

/- A round splits one block of the largest order. -/
theorem splits_splitLargest
    (hShelved : Shelved base b.maxOrder b.freeList)
    (hPick : ∀ i, 9 ≤ i → pick i < i)
    (hFound : b.lastNonEmpty = some i) :
    Splits i (pick i) b.blockSizes
      (b.splitLargest pick).blockSizes := by
  rcases lastNonEmpty_eq_some hFound with ⟨hLow, hHigh⟩
  have hLt := hPick i hLow
  rcases exists_first_of_lastNonEmpty hFound with
    ⟨temp, rest, hList⟩
  have hTemp := (hShelved i temp (by simp [hList])).2
  rw [freeList_splitLargest hFound hList]
  set fl := Function.update b.freeList i rest with hFl
  set pieces := chop temp.start (2 ^ pick i)
    (temp.size / 2 ^ pick i) with hPieces
  -- the blocks that stay are those of the lists without `temp`
  have hTaken : (shelves fl (2 * (b.maxOrder + 1)) ++
      temp :: rest).Perm (b.listed ++ rest) := by
    have hSwap := shelves_update_perm b.freeList
      (show i < 2 * (b.maxOrder + 1) by omega) rest
    rwa [hList] at hSwap
  have hBefore : b.listed.Perm
      (temp :: shelves fl (2 * (b.maxOrder + 1))) := by
    have hFront : (temp :: shelves fl
        (2 * (b.maxOrder + 1)) ++ rest).Perm (b.listed ++ rest) :=
      List.perm_middle.symm.trans hTaken
    exact ((List.perm_append_right_iff rest).mp hFront).symm
  have hAfter : (shelves (Function.update fl (pick i)
      (fl (pick i) ++ pieces)) (2 * (b.maxOrder + 1))).Perm
        (pieces ++ shelves fl (2 * (b.maxOrder + 1))) := by
    have hSwap := shelves_update_perm fl
      (show pick i < 2 * (b.maxOrder + 1) by omega)
      (fl (pick i) ++ pieces)
    have hFront :
        (shelves (Function.update fl (pick i)
            (fl (pick i) ++ pieces)) (2 * (b.maxOrder + 1)) ++
              fl (pick i)).Perm
          (pieces ++ shelves fl (2 * (b.maxOrder + 1)) ++
            fl (pick i)) := by
      refine hSwap.trans ?_
      refine (List.perm_append_comm.append_left _).trans ?_
      rw [← List.append_assoc]
      exact List.perm_append_comm.append_right _
    exact (List.perm_append_right_iff _).mp hFront
  have hSizes : pieces.map size =
      List.replicate (2 ^ (i - pick i)) (2 ^ pick i) := by
    have hCount := hTemp.pieces_eq (Nat.le_of_lt hLt)
    rw [hPieces, map_size_chop _ (Nat.two_pow_pos _)]
    rw [Span.size, hCount]
  refine ⟨(shelves fl (2 * (b.maxOrder + 1))).map size, ?_, ?_⟩
  · have hMap := hBefore.map size
    rwa [List.map_cons, hTemp.size_eq] at hMap
  · have hMap := hAfter.map size
    rwa [List.map_append, hSizes] at hMap

end Round

end Buddy

end Virtuoso
