import Mathlib.Data.Nat.ModEq
import Virtuoso.Buddy.Basic

/-
  The free-list invariant of the buddy allocator and what
  each way of splitting a block does to it.

  A block of order `k` has `2 ^ k` pages and starts at a
  multiple of `2 ^ k` from the first non-kernel page. The
  free lists and the blocks that have been handed out cover
  every non-kernel page once and no other page.

  Key definitions include:
    * `Buddy.IsBlock`

  The specification of each operation is:
    * `Buddy.tiled_splitLargest`
-/

------------------------------------------------------------
-- Blocks And Free Lists
------------------------------------------------------------

namespace Virtuoso

namespace Buddy

open Span

/- A block of order `k`, aligned relative to `base`. -/
structure IsBlock (base k : Nat) (block : Span) : Prop where
  size : block.stop + 1 = block.start + 2 ^ k
  aligned : block.start ≡ base [MOD 2 ^ k]

/- The order of a block is the order of its page count. -/
theorem IsBlock.orderOf_eq
    {base k : Nat}
    {block : Span}
    (hBlock : IsBlock base k block) :
    orderOf (block.stop - block.start + 1) = k := by
  have hSize := hBlock.size
  have hPos : 0 < 2 ^ k := Nat.two_pow_pos k
  have hPages : block.stop - block.start + 1 = 2 ^ k := by
    omega
  rw [orderOf, hPages]
  exact Nat.clog_pow 2 k (by omega)

/- A block is a block of the order of its page count. -/
theorem IsBlock.ofStart
    {base k : Nat}
    {block : Span}
    (hBlock : IsBlock base k block) :
    (⟨block.start, block.start + 2 ^ k - 1⟩ : Span) = block := by
  have hSize := hBlock.size
  cases block with
  | mk start stop =>
      congr
      dsimp only at hSize ⊢
      omega

/- The two halves of a block of positive order. -/
theorem IsBlock.halves
    {base k : Nat}
    {block : Span}
    (hBlock : IsBlock base (k + 1) block) :
    IsBlock base k ⟨block.start, midPoint block⟩ ∧
      IsBlock base k ⟨midPoint block + 1, block.stop⟩ := by
  have hSize := hBlock.size
  have hPos : 0 < 2 ^ k := Nat.two_pow_pos k
  have hPow : 2 ^ (k + 1) = 2 ^ k + 2 ^ k := by
    rw [Nat.pow_succ]
    omega
  have hMid : midPoint block + 1 = block.start + 2 ^ k := by
    unfold midPoint
    omega
  have hAligned : block.start ≡ base [MOD 2 ^ k] :=
    hBlock.aligned.of_dvd (pow_dvd_pow 2 (Nat.le_succ k))
  refine ⟨⟨hMid, hAligned⟩, ⟨?_, ?_⟩⟩
  · dsimp only
    omega
  · dsimp only
    rw [hMid]
    simpa [Nat.ModEq] using hAligned

/- Halving a block keeps its coverage. -/
theorem IsBlock.covers_halves
    {base k : Nat}
    {block : Span}
    (hBlock : IsBlock base (k + 1) block)
    (p : Nat) :
    covers ⟨block.start, midPoint block⟩ p +
        covers ⟨midPoint block + 1, block.stop⟩ p =
      block.covers p := by
  have hSize := hBlock.size
  have hPos : 0 < 2 ^ (k + 1) := Nat.two_pow_pos (k + 1)
  apply covers_split
  · unfold midPoint
    omega
  · unfold midPoint
    omega

/- The number of pieces of order `r` of a block. -/
theorem IsBlock.pieces_eq
    {base k r : Nat}
    {block : Span}
    (hBlock : IsBlock base k block)
    (hLe : r ≤ k) :
    (block.stop - block.start + 1) / 2 ^ r = 2 ^ (k - r) := by
  have hSize := hBlock.size
  have hPos : 0 < 2 ^ k := Nat.two_pow_pos k
  have hPages : block.stop - block.start + 1 = 2 ^ k := by
    omega
  rw [hPages, Nat.pow_div hLe (by omega)]

/- Chopping a block into smaller orders keeps its coverage. -/
theorem IsBlock.coverage_pieces
    {base k r : Nat}
    {block : Span}
    (hBlock : IsBlock base k block)
    (hLe : r ≤ k)
    (p : Nat) :
    coverage
        (chop block.start (2 ^ r)
          ((block.stop - block.start + 1) / 2 ^ r)) p =
      block.covers p := by
  rw [hBlock.pieces_eq hLe,
    coverage_chop block.start (Nat.two_pow_pos r)
      (Nat.two_pow_pos (k - r)),
    ← Nat.pow_add, Nat.sub_add_cancel hLe]
  congr 1
  exact hBlock.ofStart

/- The pieces of a chopped block are blocks. -/
theorem IsBlock.isBlock_piece
    {base k r : Nat}
    {block piece : Span}
    (hBlock : IsBlock base k block)
    (hLe : r ≤ k)
    {count : Nat}
    (hMem : piece ∈ chop block.start (2 ^ r) count) :
    IsBlock base r piece := by
  rcases mem_chop hMem with ⟨j, -, rfl⟩
  have hPos : 0 < 2 ^ r := Nat.two_pow_pos r
  have hNext : (j + 1) * 2 ^ r = j * 2 ^ r + 2 ^ r := by
    rw [Nat.add_mul, Nat.one_mul]
  have hAligned : block.start ≡ base [MOD 2 ^ r] :=
    hBlock.aligned.of_dvd (pow_dvd_pow 2 hLe)
  refine ⟨?_, ?_⟩
  · dsimp only
    omega
  · simpa [Nat.ModEq] using hAligned

/- Every listed block is on the list of its order. -/
def Shelved (base maxOrder : Nat) (fl : FreeList) : Prop :=
  ∀ k, ∀ block ∈ fl k, k ≤ maxOrder ∧ IsBlock base k block

/- Coverage of the free lists up to the maximum order. -/
def freeCoverage
    (maxOrder : Nat)
    (fl : FreeList)
    (p : Nat) : Nat :=
  coverage (shelves fl (maxOrder + 1)) p

variable {base maxOrder : Nat} {fl : FreeList} {k : Nat}

theorem Shelved.update
    (hShelved : Shelved base maxOrder fl)
    {l : List Span}
    (hList : ∀ block ∈ l, k ≤ maxOrder ∧ IsBlock base k block) :
    Shelved base maxOrder (Function.update fl k l) := by
  intro i block hMem
  by_cases hEq : i = k
  · subst hEq
    rw [Function.update_self] at hMem
    exact hList block hMem
  · rw [Function.update_of_ne hEq] at hMem
    exact hShelved i block hMem

theorem Shelved.pushBack
    (hShelved : Shelved base maxOrder fl)
    {block : Span}
    (hLe : k ≤ maxOrder)
    (hBlock : IsBlock base k block) :
    Shelved base maxOrder (Buddy.pushBack fl k block) := by
  apply hShelved.update
  intro other hMem
  rcases List.mem_append.mp hMem with hOld | hNew
  · exact hShelved k other hOld
  · rw [List.mem_singleton.mp hNew]
    exact ⟨hLe, hBlock⟩

theorem Shelved.popBack
    (hShelved : Shelved base maxOrder fl)
    (k : Nat) :
    Shelved base maxOrder (Buddy.popBack fl k) := by
  apply hShelved.update
  intro block hMem
  exact hShelved k block (List.dropLast_subset _ hMem)

/- Replacing one list exchanges its coverage. -/
theorem freeCoverage_update
    (fl : FreeList)
    (hLe : k ≤ maxOrder)
    (l : List Span)
    (p : Nat) :
    freeCoverage maxOrder (Function.update fl k l) p +
        coverage (fl k) p =
      freeCoverage maxOrder fl p + coverage l p :=
  coverage_shelves_update fl (Nat.lt_succ_of_le hLe) l p

theorem freeCoverage_pushBack
    (fl : FreeList)
    (hLe : k ≤ maxOrder)
    (block : Span)
    (p : Nat) :
    freeCoverage maxOrder (pushBack fl k block) p =
      freeCoverage maxOrder fl p + block.covers p := by
  have hSwap := freeCoverage_update fl hLe (fl k ++ [block]) p
  simp only [coverage_append, coverage_cons, coverage_nil] at hSwap
  unfold pushBack
  omega

theorem freeCoverage_popBack
    (fl : FreeList)
    (hLe : k ≤ maxOrder)
    {block : Span}
    (hLast : (fl k).getLast? = some block)
    (p : Nat) :
    freeCoverage maxOrder (popBack fl k) p + block.covers p =
      freeCoverage maxOrder fl p := by
  have hSwap := freeCoverage_update fl hLe (fl k).dropLast p
  have hDrop := coverage_dropLast hLast p
  unfold popBack
  omega

/- The last block of a list is a block of its order. -/
theorem Shelved.of_getLast?
    (hShelved : Shelved base maxOrder fl)
    {block : Span}
    (hLast : (fl k).getLast? = some block) :
    k ≤ maxOrder ∧ IsBlock base k block :=
  hShelved k block (List.mem_of_getLast? hLast)

/-
  Splitting down to order `ind` succeeds and moves coverage
  between the kept block and the free lists.
-/
theorem splitTail_spec
    {ind n : Nat}
    {block : Span}
    (hShelved : Shelved base maxOrder fl)
    (hLe : ind + n ≤ maxOrder)
    (hBlock : IsBlock base (ind + n) block) :
    ∃ block' fl',
      splitTail ind n block fl = some (block', fl') ∧
        Shelved base maxOrder fl' ∧
        IsBlock base ind block' ∧
        ∀ p, freeCoverage maxOrder fl' p + block'.covers p =
          freeCoverage maxOrder fl p + block.covers p := by
  induction n generalizing block fl with
  | zero =>
      exact ⟨block, fl, rfl, hShelved, hBlock, fun p => rfl⟩
  | succ n ih =>
      have hNext : IsBlock base (ind + n + 1) block := hBlock
      have hHalves := hNext.halves
      have hSize := hHalves.2.size
      have hPos : 0 < 2 ^ (ind + n) :=
        Nat.two_pow_pos (ind + n)
      have hAssert :
          block.stop - (midPoint block + 1) + 1 =
            2 ^ (ind + n) := by
        dsimp only at hSize
        omega
      have hOrder : ind + n ≤ maxOrder := by omega
      rcases ih (hShelved.pushBack hOrder hHalves.1)
          hOrder hHalves.2 with
        ⟨block', fl', hSplit, hShelved', hBlock', hCover⟩
      refine ⟨block', fl', ?_, hShelved', hBlock', ?_⟩
      · simpa [splitTail, hAssert] using hSplit
      · intro p
        have hPush := freeCoverage_pushBack fl
          hOrder ⟨block.start, midPoint block⟩ p
        have hWhole := hNext.covers_halves p
        have := hCover p
        omega

/-
  Isolating a page of a block takes exactly that page out of
  the block and puts the rest on the free lists.
-/
theorem isolate_spec
    {page order : Nat}
    {block : Span}
    (hShelved : Shelved base maxOrder fl)
    (hLe : order ≤ maxOrder)
    (hBlock : IsBlock base order block)
    (hHas : block.Has page) :
    Shelved base maxOrder (isolate page order block fl) ∧
      ∀ p, freeCoverage maxOrder (isolate page order block fl) p +
          covers ⟨page, page⟩ p =
        freeCoverage maxOrder fl p + block.covers p := by
  induction order generalizing block fl with
  | zero =>
      refine ⟨hShelved, fun p => ?_⟩
      have hSize := hBlock.size
      rcases hHas with ⟨hLow, hHigh⟩
      have hEq : block = ⟨page, page⟩ := by
        cases block with
        | mk start stop =>
            dsimp only at hSize hLow hHigh
            congr <;> omega
      rw [hEq]
      rfl
  | succ order ih =>
      have hHalves := hBlock.halves
      have hOrder : order ≤ maxOrder := by omega
      have hWhole := hBlock.covers_halves
      by_cases hLower : page ≤ midPoint block
      · rcases ih (hShelved.pushBack hOrder hHalves.2)
            hOrder hHalves.1 ⟨hHas.1, hLower⟩ with
          ⟨hShelved', hCover⟩
        simp only [isolate, hLower, if_true]
        refine ⟨hShelved', fun p => ?_⟩
        have hPush := freeCoverage_pushBack fl
          hOrder ⟨midPoint block + 1, block.stop⟩ p
        have := hCover p
        have := hWhole p
        omega
      · have hUpper : midPoint block + 1 ≤ page := by omega
        rcases ih (hShelved.pushBack hOrder hHalves.1)
            hOrder hHalves.2 ⟨hUpper, hHas.2⟩ with
          ⟨hShelved', hCover⟩
        simp only [isolate, hLower, if_false]
        refine ⟨hShelved', fun p => ?_⟩
        have hPush := freeCoverage_pushBack fl
          hOrder ⟨block.start, midPoint block⟩ p
        have := hCover p
        have := hWhole p
        omega

/-
  Chopping the first block of a list into blocks of a smaller
  order keeps the invariant and the coverage.
-/
theorem chopFirst_spec
    {i r : Nat}
    {temp : Span}
    {rest : List Span}
    (hShelved : Shelved base maxOrder fl)
    (hList : fl i = temp :: rest)
    (hLt : r < i) :
    let fl' := Function.update fl i rest
    let fl'' := Function.update fl' r
      (fl' r ++ chop temp.start (2 ^ r)
        ((temp.stop - temp.start + 1) / 2 ^ r))
    Shelved base maxOrder fl'' ∧
      ∀ p, freeCoverage maxOrder fl'' p =
        freeCoverage maxOrder fl p := by
  intro fl' fl''
  have hTemp := hShelved i temp (by simp [hList])
  have hOrder : r ≤ maxOrder := by omega
  have hShelved' : Shelved base maxOrder fl' := by
    apply hShelved.update
    intro block hMem
    exact hShelved i block (by simp [hList, hMem])
  refine ⟨?_, fun p => ?_⟩
  · apply hShelved'.update
    intro block hMem
    rcases List.mem_append.mp hMem with hOld | hNew
    · exact hShelved' r block hOld
    · exact ⟨hOrder, hTemp.2.isBlock_piece (Nat.le_of_lt hLt) hNew⟩
  · have hRemove :
        freeCoverage maxOrder fl' p + coverage (fl i) p =
          freeCoverage maxOrder fl p + coverage rest p :=
      freeCoverage_update fl hTemp.1 rest p
    have hInsert :
        freeCoverage maxOrder fl'' p + coverage (fl' r) p =
          freeCoverage maxOrder fl' p + coverage
            (fl' r ++ chop temp.start (2 ^ r)
              ((temp.stop - temp.start + 1) / 2 ^ r)) p :=
      freeCoverage_update fl' hOrder _ p
    have hPieces :=
      hTemp.2.coverage_pieces (Nat.le_of_lt hLt) p
    rw [hList, coverage_cons] at hRemove
    rw [coverage_append, hPieces] at hInsert
    omega

/-
  The free lists and the blocks in `out` tile the non-kernel
  pages, and every block is aligned to its size.
-/
structure Tiled (b : Buddy) (out : List Span) : Prop where
  shelved : Shelved b.base b.maxOrder b.freeList
  handed : ∀ block ∈ out, ∃ k ≤ b.maxOrder, IsBlock b.base k block
  tiled : ∀ p,
    freeCoverage b.maxOrder b.freeList p + coverage out p =
      if b.base ≤ p ∧ p < b.limit then 1 else 0

variable {b : Buddy} {out : List Span}

/- No page is covered twice. -/
theorem Tiled.once
    (hTiled : Tiled b out)
    (p : Nat) :
    freeCoverage b.maxOrder b.freeList p + coverage out p ≤ 1 := by
  rw [hTiled.tiled p]
  split <;> omega

/- Only non-kernel pages are covered. -/
theorem Tiled.in_range
    (hTiled : Tiled b out)
    {p : Nat}
    (hPos :
      0 < freeCoverage b.maxOrder b.freeList p + coverage out p) :
    b.base ≤ p ∧ p < b.limit := by
  by_contra hOut
  rw [hTiled.tiled p, if_neg hOut] at hPos
  exact lt_irrefl 0 hPos

/- The handed-out blocks may be listed in any order. -/
theorem Tiled.perm
    {out' : List Span}
    (hTiled : Tiled b out)
    (hPerm : out.Perm out') :
    Tiled b out' := by
  refine ⟨hTiled.shelved, ?_, ?_⟩
  · intro block hMem
    exact hTiled.handed block (hPerm.mem_iff.mpr hMem)
  · intro p
    rw [← coverage_perm hPerm p]
    exact hTiled.tiled p

/-
  An operation that changes only the free lists keeps the
  invariant when it moves the coverage of one block from the
  free lists to the handed-out blocks.
-/
theorem Tiled.handOut
    {fl : FreeList}
    (hTiled : Tiled b out)
    {block : Span}
    {pages : Nat}
    (hShelved : Shelved b.base b.maxOrder fl)
    (hLe : k ≤ b.maxOrder)
    (hBlock : IsBlock b.base k block)
    (hMoved : ∀ p,
      freeCoverage b.maxOrder fl p + block.covers p =
        freeCoverage b.maxOrder b.freeList p) :
    Tiled { b with freeList := fl, freePages := pages }
      (block :: out) := by
  refine ⟨hShelved, ?_, ?_⟩
  · intro other hMem
    rcases List.mem_cons.mp hMem with hEq | hOld
    · exact ⟨k, hLe, hEq ▸ hBlock⟩
    · exact hTiled.handed other hOld
  · intro p
    have hHere := hTiled.tiled p
    have := hMoved p
    change freeCoverage b.maxOrder fl p +
        coverage (block :: out) p =
      if b.base ≤ p ∧ p < b.limit then 1 else 0
    rw [← hHere, coverage_cons]
    omega

/- What holds between two iterations of the constructor. -/
structure FillInv
    (base limit maxOrder : Nat)
    (s : Fill) : Prop where
  shelved : Shelved base maxOrder s.freeList
  low : base ≤ s.currentFree
  sum : s.currentFree + s.available = limit
  tiled : ∀ p,
    freeCoverage maxOrder s.freeList p =
      if base ≤ p ∧ p < s.currentFree then 1 else 0

variable {limit : Nat} {s : Fill} {order : Nat}

/- One push of the inner loop. -/
theorem FillInv.push
    (hInv : FillInv base limit maxOrder s)
    (hLe : order ≤ maxOrder)
    (hAligned : s.currentFree ≡ base [MOD 2 ^ order])
    (hFits : 2 ^ order ≤ s.available) :
    FillInv base limit maxOrder
      { currentFree := s.currentFree + 2 ^ order
        available := s.available - 2 ^ order
        freeList := Buddy.pushBack s.freeList order
          ⟨s.currentFree, s.currentFree + 2 ^ order - 1⟩ } := by
  have hPos : 0 < 2 ^ order := Nat.two_pow_pos order
  have hLow := hInv.low
  have hSum := hInv.sum
  have hBlock : IsBlock base order
      ⟨s.currentFree, s.currentFree + 2 ^ order - 1⟩ := by
    refine ⟨?_, hAligned⟩
    dsimp only
    omega
  refine ⟨hInv.shelved.pushBack hLe hBlock, ?_, ?_, ?_⟩
  · dsimp only
    omega
  · dsimp only
    omega
  · intro p
    rw [freeCoverage_pushBack s.freeList hLe,
      hInv.tiled p, covers_mk]
    dsimp only
    split_ifs <;> omega

/- The inner loop stops when no further block fits. -/
theorem fillOrder_spec
    {order fuel : Nat}
    (hInv : FillInv base limit maxOrder s)
    (hLe : order ≤ maxOrder)
    (hAligned : s.currentFree ≡ base [MOD 2 ^ order])
    (hFuel : s.available ≤ fuel) :
    FillInv base limit maxOrder (fillOrder order fuel s) ∧
      (fillOrder order fuel s).currentFree ≡ base
        [MOD 2 ^ order] ∧
      (fillOrder order fuel s).available < 2 ^ order := by
  have hPos : 0 < 2 ^ order := Nat.two_pow_pos order
  induction fuel generalizing s with
  | zero =>
      refine ⟨hInv, hAligned, ?_⟩
      simp only [fillOrder]
      omega
  | succ fuel ih =>
      by_cases hFits : 2 ^ order ≤ s.available
      · simp only [fillOrder, hFits, if_true]
        apply ih (hInv.push hLe hAligned hFits)
        · simpa [Nat.ModEq] using hAligned
        · dsimp only
          omega
      · simp only [fillOrder, hFits, if_false]
        exact ⟨hInv, hAligned, by omega⟩

/- The outer loop places every available page. -/
theorem fillFrom_spec
    (hInv : FillInv base limit maxOrder s)
    (hLe : order ≤ maxOrder)
    (hAligned : s.currentFree ≡ base [MOD 2 ^ order]) :
    FillInv base limit maxOrder (fillFrom limit order s) ∧
      (fillFrom limit order s).currentFree = limit := by
  induction order generalizing s with
  | zero =>
      have hSum := hInv.sum
      by_cases hMore : s.currentFree < limit
      · rcases fillOrder_spec hInv hLe hAligned
            (Nat.le_refl s.available) with
          ⟨hInv', -, hNone⟩
        simp only [fillFrom, hMore, if_true]
        have hSum' := hInv'.sum
        exact ⟨hInv', by omega⟩
      · simp only [fillFrom, hMore, if_false]
        exact ⟨hInv, by omega⟩
  | succ order ih =>
      have hSum := hInv.sum
      by_cases hMore : s.currentFree < limit
      · rcases fillOrder_spec hInv hLe hAligned
            (Nat.le_refl s.available) with
          ⟨hInv', hAligned', -⟩
        simp only [fillFrom, hMore, if_true]
        apply ih hInv' (by omega)
        exact hAligned'.of_dvd (pow_dvd_pow 2 (Nat.le_succ order))
      · simp only [fillFrom, hMore, if_false]
        exact ⟨hInv, by omega⟩

/- Without non-kernel pages the loops place no block. -/
theorem fillFrom_of_le
    (hFull : limit ≤ s.currentFree) :
    fillFrom limit order s = s := by
  have hNot : ¬ s.currentFree < limit := by omega
  cases order with
  | zero => simp [fillFrom, hNot]
  | succ order => simp [fillFrom, hNot]

theorem shelves_nil
    (n : Nat) :
    shelves (fun _ => []) n = [] := by
  simp [shelves]

theorem construct_eq_some
    {memorySize kernelSize : Nat}
    (hConstruct :
      construct memorySize maxOrder kernelSize = some b) :
    maxOrder < 64 ∧
      b.geometry = (memorySize, maxOrder, kernelSize) := by
  unfold construct at hConstruct
  split at hConstruct
  · rename_i hLt
    rw [Option.some.injEq] at hConstruct
    subst hConstruct
    exact ⟨hLt, rfl⟩
  · simp at hConstruct

/- A constructed allocator tiles the non-kernel pages. -/
theorem tiled_construct
    {memorySize kernelSize : Nat}
    (hConstruct :
      construct memorySize maxOrder kernelSize = some b) :
    Tiled b [] := by
  unfold construct at hConstruct
  split at hConstruct
  · rw [Option.some.injEq] at hConstruct
    subst hConstruct
    set s : Fill :=
      { currentFree := pagesInMb kernelSize
        available :=
          pagesInMb memorySize - pagesInMb kernelSize
        freeList := fun _ => [] }
    have hEmpty : Shelved (pagesInMb kernelSize) maxOrder
        s.freeList := by
      intro k block hMem
      exact absurd hMem List.not_mem_nil
    rcases Nat.lt_or_ge (pagesInMb kernelSize)
        (pagesInMb memorySize) with hSome | hNone
    · have hInv : FillInv (pagesInMb kernelSize)
          (pagesInMb memorySize) maxOrder s := by
        refine ⟨hEmpty, Nat.le_refl _, ?_, fun p => ?_⟩
        · simp only [s]
          omega
        · have hNot : ¬ (pagesInMb kernelSize ≤ p ∧
              p < s.currentFree) := by
            simp only [s]
            omega
          rw [if_neg hNot, freeCoverage, shelves_nil]
          rfl
      rcases fillFrom_spec hInv (Nat.le_refl maxOrder)
          rfl with ⟨hInv', hDone⟩
      refine ⟨hInv'.shelved, by simp, fun p => ?_⟩
      have hTiled := hInv'.tiled p
      rw [hDone] at hTiled
      rw [coverage_nil, Nat.add_zero]
      exact hTiled
    · rw [fillFrom_of_le (show pagesInMb memorySize ≤
        s.currentFree from hNone)]
      refine ⟨hEmpty, by simp, fun p => ?_⟩
      have hNot : ¬ (pagesInMb kernelSize ≤ p ∧
          p < pagesInMb memorySize) := by
        omega
      simp [Buddy.base, Buddy.limit, hNot, freeCoverage, s,
        shelves_nil]
  · simp at hConstruct

------------------------------------------------------------
-- Operations
------------------------------------------------------------

/- A scan from below ends at a non-empty list in range. -/
theorem firstNonEmpty_eq_some
    {lo i : Nat}
    (hFound : b.firstNonEmpty lo = some i) :
    lo ≤ i ∧ i ≤ b.maxOrder ∧ b.freeList i ≠ [] := by
  have hMem := List.mem_of_find?_eq_some hFound
  have hTest := List.find?_some hFound
  rw [List.mem_range'_1] at hMem
  refine ⟨hMem.1, by omega, ?_⟩
  simpa using hTest

/- A scan from below that finds nothing saw empty lists. -/
theorem firstNonEmpty_eq_none
    {lo : Nat} :
    b.firstNonEmpty lo = none ↔
      ∀ i, lo ≤ i → i ≤ b.maxOrder → b.freeList i = [] := by
  unfold firstNonEmpty
  rw [List.find?_eq_none]
  constructor
  · intro hNone i hLow hHigh
    have hTest := hNone i (List.mem_range'_1.mpr ⟨hLow, by omega⟩)
    simpa using hTest
  · intro hEmpty i hMem
    rw [List.mem_range'_1] at hMem
    simp [hEmpty i hMem.1 (by omega)]

theorem lastNonEmpty_eq_some
    {i : Nat}
    (hFound : b.lastNonEmpty = some i) :
    9 ≤ i ∧ i ≤ b.maxOrder := by
  have hMem := List.mem_of_find?_eq_some hFound
  rw [List.mem_reverse, List.mem_range'_1] at hMem
  omega

/- The block found for a page is a listed block with it. -/
theorem findBlock_eq_some
    {page order j : Nat}
    (hFound : b.findBlock page = some (order, j)) :
    ∃ block, (b.freeList order)[j]? = some block ∧
      block.Has page := by
  unfold findBlock at hFound
  rcases List.exists_of_findSome?_eq_some hFound with
    ⟨i, -, hIdx⟩
  rcases Option.map_eq_some_iff.mp hIdx with
    ⟨j', hSearch, hPair⟩
  cases hPair
  rcases List.findIdx?_eq_some_iff_getElem.mp hSearch with
    ⟨hLt, hHas, -⟩
  refine ⟨(b.freeList order)[j], ?_, by simpa using hHas⟩
  exact List.getElem?_eq_getElem hLt

/-
  `checkIfFree` either leaves the allocator alone or hands
  out exactly the page it was asked for.
-/
theorem checkIfFree_spec
    (hTiled : Tiled b out)
    (page : Nat)
    (allocate : Bool) :
    Tiled (b.checkIfFree page allocate).2
      (if (b.checkIfFree page allocate).1 && allocate then
        ⟨page, page⟩ :: out
      else
        out) := by
  unfold checkIfFree
  cases hFind : b.findBlock page with
  | none => simpa using hTiled
  | some found =>
      rcases found with ⟨order, j⟩
      rcases findBlock_eq_some hFind with
        ⟨block, hGet, hHas⟩
      have hBlock := hTiled.shelved order block
        (List.mem_of_getElem? hGet)
      cases allocate with
      | false => simpa [hGet] using hTiled
      | true =>
          simp only [hGet, if_true, Bool.and_true]
          have hErase : Shelved b.base b.maxOrder
              (Function.update b.freeList order
                ((b.freeList order).eraseIdx j)) := by
            apply hTiled.shelved.update
            intro other hMem
            exact hTiled.shelved order other
              (List.mem_of_mem_eraseIdx hMem)
          rcases isolate_spec hErase hBlock.1 hBlock.2
              hHas with ⟨hShelved, hCover⟩
          refine hTiled.handOut hShelved
            (Nat.zero_le b.maxOrder) ⟨rfl, ?_⟩ ?_
          · simp [Nat.ModEq, Nat.mod_one]
          · intro p
            have hSwap := freeCoverage_update b.freeList
              hBlock.1 ((b.freeList order).eraseIdx j) p
            have hDrop := coverage_eraseIdx hGet p
            have := hCover p
            omega

theorem checkIfFree_geometry
    (page : Nat)
    (allocate : Bool) :
    (b.checkIfFree page allocate).2.geometry = b.geometry := by
  unfold checkIfFree
  cases b.findBlock page with
  | none => rfl
  | some found =>
      cases hGet : (b.freeList found.1)[found.2]? with
      | none => simp [hGet]
      | some block =>
          cases allocate with
          | false => simp [hGet]
          | true => simp [hGet, geometry]

/-
  Within `maxOrder + 1` the allocation is defined. It returns
  nothing and changes nothing when no list from `ind` on has
  a block, and otherwise hands out a block of order `ind`.
-/
theorem allocate_spec
    (hTiled : Tiled b out)
    (bytes : Nat)
    (hOrder : orderOf (bytes / 4096) ≤ b.maxOrder + 1) :
    (b.allocate bytes = some (none, b) ∧
        ∀ i, orderOf (bytes / 4096) ≤ i → i ≤ b.maxOrder →
          b.freeList i = []) ∨
      ∃ page b',
        b.allocate bytes = some (some page, b') ∧
          b'.geometry = b.geometry ∧
          Tiled b' (⟨page,
            page + 2 ^ orderOf (bytes / 4096) - 1⟩ :: out)
          := by
  set ind := orderOf (bytes / 4096) with hInd
  cases hScan : b.firstNonEmpty ind with
  | none =>
      left
      refine ⟨?_, firstNonEmpty_eq_none.mp hScan⟩
      have hMax : max ind (b.maxOrder + 1) = b.maxOrder + 1 :=
        Nat.max_eq_right hOrder
      simp [allocate, ← hInd, hScan, hMax]
  | some i =>
      right
      rcases firstNonEmpty_eq_some hScan with
        ⟨hLow, hHigh, hSome⟩
      have hNe : i ≠ b.maxOrder + 1 := by omega
      rcases Option.ne_none_iff_exists'.mp
          (mt List.getLast?_eq_none_iff.mp hSome) with
        ⟨block, hLast⟩
      have hBlock := (hTiled.shelved.of_getLast? hLast).2
      have hSum : ind + (i - ind) = i := by omega
      rcases splitTail_spec (n := i - ind)
          (hTiled.shelved.popBack i)
          (by omega) (hSum.symm ▸ hBlock) with
        ⟨block', fl, hSplit, hShelved, hBlock', hCover⟩
      refine ⟨block'.start,
        { b with
          freeList := fl
          freePages := sub64 b.freePages (2 ^ ind) },
        ?_, rfl, ?_⟩
      · simp [allocate, ← hInd, hScan, hNe, hLast, hSplit]
      · rw [hBlock'.ofStart]
        refine hTiled.handOut hShelved (by omega) hBlock' ?_
        intro p
        have hPop := freeCoverage_popBack b.freeList hHigh hLast p
        have := hCover p
        omega

/- Beyond `maxOrder + 1` the allocation is undefined. -/
theorem allocate_eq_none
    (hTiled : Tiled b out)
    {bytes : Nat}
    (hOrder : b.maxOrder + 1 < orderOf (bytes / 4096)) :
    b.allocate bytes = none := by
  have hScan : b.firstNonEmpty (orderOf (bytes / 4096)) = none := by
    rw [firstNonEmpty_eq_none]
    intro i hLow hHigh
    omega
  have hMax :
      max (orderOf (bytes / 4096)) (b.maxOrder + 1) =
        orderOf (bytes / 4096) :=
    Nat.max_eq_left (Nat.le_of_lt hOrder)
  have hEmpty : b.freeList (orderOf (bytes / 4096)) = [] := by
    apply List.eq_nil_iff_forall_not_mem.mpr
    intro block hMem
    have := (hTiled.shelved _ block hMem).1
    omega
  have hNe : orderOf (bytes / 4096) ≠ b.maxOrder + 1 := by
    omega
  simp [allocate, hScan, hNe, hEmpty, Nat.le_of_lt hOrder]

/-
  A reservation returns nothing and changes nothing when no
  block has 512 pages, and otherwise hands out 512 pages.
-/
theorem reserve2mbPage_spec
    (hTiled : Tiled b out)
    (hLists : 4 ≤ b.maxOrder) :
    (b.reserve2mbPage = some (none, b) ∧
        ∀ i, 9 ≤ i → i ≤ b.maxOrder → b.freeList i = []) ∨
      ∃ block b',
        b.reserve2mbPage = some (some block, b') ∧
          b'.geometry = b.geometry ∧
          IsBlock b.base 9 block ∧
          Tiled b' (block :: out) := by
  have hSize : ¬ 2 * (b.maxOrder + 1) ≤ 9 := by omega
  cases hLast : (b.freeList 9).getLast? with
  | some block =>
      right
      have hBlock := hTiled.shelved.of_getLast? hLast
      refine ⟨block,
        { b with freeList := popBack b.freeList 9 },
        ?_, rfl, hBlock.2, ?_⟩
      · simp [reserve2mbPage, hSize, hLast]
      · exact hTiled.handOut (hTiled.shelved.popBack 9)
          hBlock.1 hBlock.2
          (freeCoverage_popBack b.freeList hBlock.1 hLast)
  | none =>
      have hNine : b.freeList 9 = [] :=
        List.getLast?_eq_none_iff.mp hLast
      cases hScan : b.firstNonEmpty 10 with
      | none =>
          left
          refine ⟨by
            simp [reserve2mbPage, hSize, hLast, hScan], ?_⟩
          intro i hLow hHigh
          rcases Nat.eq_or_lt_of_le hLow with hEq | hLt
          · exact hEq ▸ hNine
          · exact firstNonEmpty_eq_none.mp hScan i hLt hHigh
      | some i =>
          right
          rcases firstNonEmpty_eq_some hScan with
            ⟨hLow, hHigh, hSome⟩
          rcases List.exists_cons_of_ne_nil hSome with
            ⟨temp, rest, hList⟩
          have hTemp := hTiled.shelved i temp (by simp [hList])
          rcases chopFirst_spec (r := 9) hTiled.shelved hList
              (by omega) with ⟨hShelved, hCover⟩
          simp only [Nat.reducePow] at hShelved hCover
          set fl := Function.update b.freeList i rest
          set fl' := Function.update fl 9
            (fl 9 ++ chop temp.start 512
              ((temp.stop - temp.start + 1) / 512))
            with hFl'
          have hPieces : fl' 9 ≠ [] := by
            have hCount :=
              hTemp.2.pieces_eq (r := 9) (by omega)
            have hPos : 0 < 2 ^ (i - 9) :=
              Nat.two_pow_pos (i - 9)
            rw [hFl', Function.update_self]
            simp only [Nat.reducePow] at hCount
            rw [hCount, chop]
            simp
          rcases Option.ne_none_iff_exists'.mp
              (mt List.getLast?_eq_none_iff.mp hPieces) with
            ⟨block, hLast'⟩
          have hBlock := hShelved.of_getLast? hLast'
          refine ⟨block,
            { b with freeList := popBack fl' 9 },
            ?_, rfl, hBlock.2, ?_⟩
          · simp only [reserve2mbPage, hSize, hLast, hScan,
              hList, if_false]
            simp only [show Function.update b.freeList i rest =
              fl from rfl, ← hFl', hLast']
          · refine hTiled.handOut (hShelved.popBack 9)
              hBlock.1 hBlock.2 ?_
            intro p
            rw [freeCoverage_popBack fl' hBlock.1 hLast', hCover p]

/- A failed reservation changes nothing. -/
theorem reserve2mbPage_none
    {b' : Buddy}
    (hReserve : b.reserve2mbPage = some (none, b')) :
    b' = b := by
  unfold reserve2mbPage at hReserve
  split at hReserve
  · cases hReserve
  · split at hReserve
    · simp at hReserve
    · split at hReserve
      · simpa using hReserve.symm
      · split at hReserve
        · cases hReserve
        · dsimp only at hReserve
          split at hReserve
          · cases hReserve
          · simp at hReserve

/- Freeing a handed-out block gives it back. -/
theorem tiled_free
    {block : Span}
    (hTiled : Tiled b (block :: out)) :
    Tiled (b.free block.start block.stop) out := by
  rcases hTiled.handed block (by simp) with
    ⟨k, hLe, hBlock⟩
  have hOrder := hBlock.orderOf_eq
  unfold free
  rw [hOrder]
  refine ⟨hTiled.shelved.pushBack hLe hBlock, ?_, ?_⟩
  · intro other hMem
    exact hTiled.handed other (List.mem_cons_of_mem block hMem)
  · intro p
    have hHere := hTiled.tiled p
    have hPush :=
      freeCoverage_pushBack b.freeList hLe block p
    rw [coverage_cons] at hHere
    change freeCoverage b.maxOrder (pushBack b.freeList k block) p +
        coverage out p =
      if b.base ≤ p ∧ p < b.limit then 1 else 0
    rw [← hHere, hPush]
    omega

/- A fragmentation round keeps the lists and their pages. -/
theorem shelved_splitLargest
    {base : Nat}
    (hShelved : Shelved base b.maxOrder b.freeList)
    {pick : Nat → Nat}
    (hPick : ∀ i, 9 ≤ i → pick i < i) :
    Shelved base b.maxOrder (b.splitLargest pick).freeList ∧
      ∀ p, freeCoverage b.maxOrder
          (b.splitLargest pick).freeList p =
        freeCoverage b.maxOrder b.freeList p := by
  unfold splitLargest
  cases hScan : b.lastNonEmpty with
  | none => exact ⟨hShelved, fun _ => rfl⟩
  | some i =>
      have hLow := (lastNonEmpty_eq_some hScan).1
      cases hList : b.freeList i with
      | nil =>
          simp only [hList]
          exact ⟨hShelved, fun _ => trivial⟩
      | cons temp rest =>
          simp only [hList]
          exact chopFirst_spec hShelved hList (hPick i hLow)

theorem splitLargest_geometry
    (pick : Nat → Nat) :
    (b.splitLargest pick).geometry = b.geometry := by
  unfold splitLargest
  split
  · rfl
  · split <;> rfl

/- A fragmentation round keeps the invariant. -/
theorem tiled_splitLargest
    (hTiled : Tiled b out)
    {pick : Nat → Nat}
    (hPick : ∀ i, 9 ≤ i → pick i < i) :
    Tiled (b.splitLargest pick) out := by
  have hSame := splitLargest_geometry (b := b) pick
  simp only [geometry, Prod.mk.injEq] at hSame
  rcases hSame with ⟨hMemory, hOrder, hKernel⟩
  have hBase : (b.splitLargest pick).base = b.base := by
    rw [base, hKernel, ← base]
  have hLimit : (b.splitLargest pick).limit = b.limit := by
    rw [limit, hMemory, ← limit]
  rcases shelved_splitLargest hTiled.shelved hPick with
    ⟨hShelved, hCover⟩
  refine ⟨?_, ?_, ?_⟩
  · rw [hBase, hOrder]
    exact hShelved
  · rw [hBase, hOrder]
    exact hTiled.handed
  · intro p
    rw [hOrder, hBase, hLimit, hCover p]
    exact hTiled.tiled p

/- An outcome of the distribution is in its interval. -/
theorem uniform_le
    (lo hi draw : Nat)
    (hLe : lo ≤ hi) :
    uniform lo hi draw ≤ hi := by
  have := Nat.mod_lt draw (Nat.succ_pos (hi - lo))
  unfold uniform
  simp only [Nat.succ_eq_add_one] at this
  omega

end Buddy

end Virtuoso
