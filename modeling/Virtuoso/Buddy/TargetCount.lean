import Virtuoso.Buddy.Fragmentation

/-
  Fragmentation to a count of free 2MB pages.

  The rounds split the blocks of at least 2MB in a fixed
  order, the largest first, and the loop stops when at most
  the target is left. Each round spends all 2MB pages of its
  block at once. So the count that is left is the target, or
  the initial count if that is smaller, exactly when some
  blocks at the end of the order hold the target.

  Main declarations:
    * `Buddy.splitOrder`
    * `Buddy.targetCount_iff`
-/

namespace Virtuoso

namespace Buddy

open Span

/- Drop the first counts while more than `target` is left. -/
def spend (target : Nat) : List Nat → List Nat
| [] => []
| count :: counts =>
    if target < (count :: counts).sum then
      spend target counts
    else
      count :: counts

section Spend

variable {target : Nat}

theorem spend_of_le
    {counts : List Nat}
    (hLe : counts.sum ≤ target) :
    spend target counts = counts := by
  cases counts with
  | nil => rfl
  | cons count counts => rw [spend, if_neg (by omega)]

theorem spend_suffix
    (target : Nat)
    (counts : List Nat) :
    spend target counts <:+ counts := by
  induction counts with
  | nil => exact List.suffix_refl []
  | cons count counts ih =>
      rw [spend]
      split
      · exact ih.trans (List.suffix_cons count counts)
      · exact List.suffix_refl _

/- What is left is a suffix with the target if there is one. -/
theorem sum_spend_of_suffix
    {left counts : List Nat}
    (hSuffix : left <:+ counts)
    (hSum : left.sum = target) :
    (spend target counts).sum = target := by
  induction counts with
  | nil =>
      rw [List.suffix_nil.mp hSuffix] at hSum
      exact hSum
  | cons count counts ih =>
      rcases List.suffix_cons_iff.mp hSuffix with hEq | hTail
      · rw [spend_of_le (by rw [← hEq, hSum]), ← hEq, hSum]
      · rw [spend]
        split
        · exact ih hTail
        · rename_i hStop
          have hLeft : left.sum ≤ (count :: counts).sum :=
            hSuffix.sublist.sum_le_sum (fun _ _ => Nat.zero_le _)
          omega

/- What is left is exact when a suffix has the target. -/
theorem sum_spend_iff
    (target : Nat)
    (counts : List Nat) :
    (spend target counts).sum = min target counts.sum ↔
      counts.sum ≤ target ∨
        ∃ left, left <:+ counts ∧ left.sum = target := by
  by_cases hLe : counts.sum ≤ target
  · rw [spend_of_le hLe, Nat.min_eq_right hLe]
    exact ⟨fun _ => Or.inl hLe, fun _ => rfl⟩
  · rw [Nat.min_eq_left (by omega)]
    constructor
    · intro hSum
      exact Or.inr ⟨_, spend_suffix target counts, hSum⟩
    · rintro (hFew | ⟨left, hSuffix, hSum⟩)
      · exact absurd hFew hLe
      · exact sum_spend_of_suffix hSuffix hSum

end Spend

/-
  The 2MB pages of the blocks of order 9 and more, in the
  order in which rounds split the blocks.
-/
def splitOrder (b : Buddy) : List Nat :=
  (List.range' 9 (b.maxOrder + 1 - 9)).reverse.flatMap
    (fun i => (b.freeList i).map (fun block => block.size / 512))

section Order

variable {b b' : Buddy} {base : Nat}

/- A scan that finds no block sees an empty order. -/
theorem splitOrder_of_none
    (hNone : b.lastNonEmpty = none) :
    b.splitOrder = [] := by
  unfold lastNonEmpty at hNone
  rw [List.find?_eq_none] at hNone
  rw [splitOrder, List.flatMap_eq_nil_iff]
  intro i hMem
  have hEmpty := hNone i hMem
  simp only [Bool.not_eq_true', Bool.not_eq_false,
    List.isEmpty_iff] at hEmpty
  rw [hEmpty, List.map_nil]

/- A round splits the first block of the order. -/
theorem splitOrder_splitLargest
    {pick : Nat → Nat}
    {i : Nat}
    (hFound : b.lastNonEmpty = some i)
    (hPick : pick i = 8) :
    ∃ count,
      b.splitOrder = count :: (b.splitLargest pick).splitOrder := by
  rcases exists_first_of_lastNonEmpty hFound with
    ⟨temp, rest, hList⟩
  refine ⟨temp.size / 512, ?_⟩
  rw [freeList_splitLargest hFound hList, hPick]
  unfold lastNonEmpty at hFound
  rcases List.find?_eq_some_iff_append.mp hFound with
    ⟨-, above, below, hScan, hEmpty⟩
  have hNodup : (above ++ i :: below).Nodup := by
    rw [← hScan]
    exact List.nodup_reverse.mpr List.nodup_range'
  have hAtLeast : ∀ k ∈ above ++ i :: below, 9 ≤ k := by
    intro k hMem
    rw [← hScan, List.mem_reverse, List.mem_range'_1] at hMem
    exact hMem.1
  have hNil : ∀ k ∈ above, b.freeList k = [] := by
    intro k hMem
    simpa using hEmpty k hMem
  -- the other lists of the scan stay as they are
  have hSame : ∀ k ∈ above ++ i :: below, k ≠ i →
      ∀ l, Function.update
        (Function.update b.freeList i rest) 8 l k =
          b.freeList k := by
    intro k hMem hNe l
    have hLow := hAtLeast k hMem
    rw [Function.update_of_ne (by omega), Function.update_of_ne hNe]
  have hLow := hAtLeast i (by simp)
  rw [List.nodup_append] at hNodup
  simp only [splitOrder, hScan, List.flatMap_append,
    List.flatMap_cons]
  have hAbove : ∀ fl : FreeList,
      (∀ k ∈ above, fl k = []) →
        above.flatMap (fun k => (fl k).map
          (fun block => block.size / 512)) = [] := by
    intro fl hAll
    rw [List.flatMap_eq_nil_iff]
    intro k hMem
    rw [hAll k hMem, List.map_nil]
  rw [hAbove b.freeList hNil, hAbove]
  · rw [Function.update_of_ne (by omega : i ≠ 8),
      Function.update_self, hList]
    simp only [List.nil_append, List.map_cons,
      List.cons_append, List.cons.injEq, true_and,
      List.append_cancel_left_eq]
    apply List.flatMap_congr
    intro k hMem
    rw [hSame k (by simp [hMem])]
    intro hEq
    have hOnce := (List.nodup_cons.mp hNodup.2.1).1
    exact hOnce (hEq ▸ hMem)
  · intro k hMem
    rw [hSame k (by simp [hMem])]
    · exact hNil k hMem
    · intro hEq
      exact hNodup.2.2 k hMem i (by simp) hEq

/- The 2MB pages of one list. -/
theorem largePages_list
    (hShelved : Shelved base b.maxOrder b.freeList)
    (k : Nat) :
    largePages ((b.freeList k).map size) =
      if 9 ≤ k then
        ((b.freeList k).map (fun block => block.size / 512)).sum
      else
        0 := by
  have hSize : ∀ block ∈ b.freeList k, block.size = 2 ^ k :=
    fun block hMem => (hShelved k block hMem).2.size_eq
  rw [largePages, List.map_map]
  split
  · rename_i hLarge
    congr 1
    apply List.map_congr_left
    intro block hMem
    have hPow : 2 ^ 9 ≤ 2 ^ k :=
      Nat.pow_le_pow_right (by omega) hLarge
    rw [Function.comp_apply, if_pos]
    rw [hSize block hMem]
    omega
  · rename_i hSmall
    rw [List.sum_eq_zero]
    intro count hMem
    rcases List.mem_map.mp hMem with ⟨block, hBlock, hEq⟩
    have hPow : 2 ^ k < 2 ^ 9 :=
      Nat.pow_lt_pow_right (by omega) (by omega)
    rw [Function.comp_apply, if_neg] at hEq
    · exact hEq.symm
    · rw [hSize block hBlock]
      omega

/- The count of free 2MB pages is the sum over the order. -/
theorem getFreeLargePageCount_eq
    (hShelved : Shelved base b.maxOrder b.freeList) :
    b.getFreeLargePageCount = b.splitOrder.sum := by
  have hBelow : ∀ n,
      largePages ((shelves b.freeList n).map size) =
        ((List.range' 9 (n - 9)).reverse.flatMap
          (fun i => (b.freeList i).map
            (fun block => block.size / 512))).sum := by
    intro n
    induction n with
    | zero => rfl
    | succ n ih =>
        rw [shelves_succ, List.map_append]
        have hSum : ∀ sizes sizes' : List Nat,
            largePages (sizes ++ sizes') =
              largePages sizes + largePages sizes' := by
          intro sizes sizes'
          simp [largePages]
        rw [hSum, ih, largePages_list hShelved]
        by_cases hLarge : 9 ≤ n
        · rw [if_pos hLarge,
            show n + 1 - 9 = n - 9 + 1 by omega,
            List.range'_concat,
            show 9 + 1 * (n - 9) = n by omega,
            List.reverse_append, List.flatMap_append,
            List.sum_append]
          simp only [List.reverse_singleton, List.flatMap_singleton]
          omega
        · rw [if_neg hLarge, show n + 1 - 9 = n - 9 by omega]
          rfl
  rw [getFreeLargePageCount, blockSizes,
    listed_of_shelved hShelved, hBelow, splitOrder]

end Order

section Loop

variable {b b' : Buddy} {base target : Nat}

/- The distribution of a round has one outcome. -/
theorem uniform_eight
    (i draw : Nat)
    (hLow : 9 ≤ i) :
    uniform 8 (min (i - 1) 8) draw = 8 := by
  have hHigh : min (i - 1) 8 = 8 := by omega
  rw [uniform, hHigh, Nat.sub_self, Nat.mod_one]

/- The lists of `b'` are valid and hold the pages of `b`. -/
structure Keeps (base : Nat) (b b' : Buddy) : Prop where
  shelved : Shelved base b'.maxOrder b'.freeList
  order : b'.maxOrder = b.maxOrder
  cover : ∀ p,
    freeCoverage b'.maxOrder b'.freeList p =
      freeCoverage b.maxOrder b.freeList p

theorem Keeps.refl
    (hShelved : Shelved base b.maxOrder b.freeList) :
    Keeps base b b :=
  ⟨hShelved, rfl, fun _ => rfl⟩

theorem Keeps.trans
    {b'' : Buddy}
    (hFirst : Keeps base b b')
    (hSecond : Keeps base b' b'') :
    Keeps base b b'' :=
  ⟨hSecond.shelved, hSecond.order.trans hFirst.order,
    fun p => (hSecond.cover p).trans (hFirst.cover p)⟩

/- What a round of the loop does. -/
theorem keeps_round
    (hShelved : Shelved base b.maxOrder b.freeList)
    {i : Nat}
    (hFound : b.lastNonEmpty = some i)
    (draw : Nat) :
    Keeps base b (b.fragmentMemoryToTargetCountStep draw) ∧
      ∃ count,
        b.splitOrder = count ::
          (b.fragmentMemoryToTargetCountStep draw).splitOrder
      := by
  have hPick : ∀ i, 9 ≤ i → uniform 8 (min (i - 1) 8) draw < i := by
    intro i hLow
    rw [uniform_eight i draw hLow]
    omega
  have hSame := splitLargest_geometry (b := b)
    (fun i => uniform 8 (min (i - 1) 8) draw)
  simp only [geometry, Prod.mk.injEq] at hSame
  rcases shelved_splitLargest hShelved hPick with
    ⟨hShelved', hCover⟩
  refine ⟨⟨?_, hSame.2.1, ?_⟩, ?_⟩
  · rw [fragmentMemoryToTargetCountStep, hSame.2.1]
    exact hShelved'
  · intro p
    rw [fragmentMemoryToTargetCountStep, hSame.2.1]
    exact hCover p
  · apply splitOrder_splitLargest hFound
    exact uniform_eight i draw (lastNonEmpty_eq_some hFound).1

/- Whatever the loop ends with has spent from the front. -/
theorem splitOrder_of_targetCount
    (hShelved : Shelved base b.maxOrder b.freeList)
    {fuel : Nat}
    {draws : Nat → Nat}
    (hEnd : fragmentMemoryToTargetCount target fuel draws b =
      some b') :
    Keeps base b b' ∧
      b'.splitOrder = spend target b.splitOrder := by
  induction fuel generalizing b draws with
  | zero => cases hEnd
  | succ fuel ih =>
      have hCount := getFreeLargePageCount_eq hShelved
      rw [fragmentMemoryToTargetCount] at hEnd
      split at hEnd
      · rename_i hMore
        cases hFound : b.lastNonEmpty with
        | none =>
            rw [hCount, splitOrder_of_none hFound] at hMore
            simp at hMore
        | some i =>
            rw [if_neg (by simp [hFound])] at hEnd
            rcases keeps_round hShelved hFound (draws 0) with
              ⟨hRound, count, hOrder⟩
            rcases ih hRound.shelved hEnd with ⟨hRest, hLeft⟩
            refine ⟨hRound.trans hRest, ?_⟩
            rw [hLeft, hOrder, spend, if_pos]
            rw [← hOrder, ← hCount]
            exact hMore
      · rename_i hFew
        rw [Option.some.injEq] at hEnd
        subst hEnd
        refine ⟨Keeps.refl hShelved, (spend_of_le ?_).symm⟩
        omega

/- The loop ends, after at most one round for each block. -/
theorem exists_targetCount
    (hShelved : Shelved base b.maxOrder b.freeList)
    (target : Nat)
    (draws : Nat → Nat) :
    ∃ b', fragmentMemoryToTargetCount target
      (b.splitOrder.length + 1) draws b = some b' := by
  generalize hOrder : b.splitOrder = counts
  induction counts generalizing b draws with
  | nil =>
      refine ⟨b, ?_⟩
      have hNone : ¬ target < b.getFreeLargePageCount := by
        rw [getFreeLargePageCount_eq hShelved, hOrder]
        simp
      rw [fragmentMemoryToTargetCount, if_neg hNone]
  | cons count counts ih =>
      by_cases hMore : target < b.getFreeLargePageCount
      · cases hFound : b.lastNonEmpty with
        | none =>
            rw [splitOrder_of_none hFound] at hOrder
            cases hOrder
        | some i =>
            rcases keeps_round hShelved hFound (draws 0) with
              ⟨hRound, first, hFirst⟩
            rw [hOrder] at hFirst
            have hRest := (List.cons.inj hFirst).2.symm
            rcases ih hRound.shelved
                (fun round => draws (round + 1)) hRest with
              ⟨b', hEnd⟩
            refine ⟨b', ?_⟩
            rw [List.length_cons, fragmentMemoryToTargetCount,
              if_pos hMore, if_neg (by simp [hFound])]
            exact hEnd
      · refine ⟨b, ?_⟩
        rw [fragmentMemoryToTargetCount, if_neg hMore]

/- Kept lists have the same free pages. -/
theorem Keeps.has_iff
    (hShelved : Shelved base b.maxOrder b.freeList)
    (hKeeps : Keeps base b b')
    (p : Nat) :
    (∃ block ∈ b'.listed, block.Has p) ↔
      ∃ block ∈ b.listed, block.Has p := by
  have hCover := hKeeps.cover p
  unfold freeCoverage at hCover
  rw [listed_of_shelved hShelved,
    listed_of_shelved hKeeps.shelved, exists_has_iff,
    exists_has_iff, hCover]

/-
  From lists that satisfy the invariant the loop ends with
  the target count, or the initial count if it is smaller,
  and the same free pages exactly when the target is not
  below the initial count or some blocks at the end of the
  order of the rounds hold it.
-/
theorem targetCount_iff
    {b : Buddy}
    {out : List Span}
    (hInv : FreeListInv b.memorySize b.maxOrder b.kernelSize
      ⟨b, out⟩)
    (target : Nat)
    (draws : Nat → Nat) :
    (∃ fuel b',
      fragmentMemoryToTargetCount target fuel draws b = some b' ∧
        b'.getFreeLargePageCount =
          min target b.getFreeLargePageCount ∧
        ∀ p, (∃ block ∈ b'.listed, block.Has p) ↔
          ∃ block ∈ b.listed, block.Has p) ↔
      b.getFreeLargePageCount ≤ target ∨
        ∃ left, left <:+ b.splitOrder ∧ left.sum = target := by
  have hShelved := hInv.shelved
  rw [getFreeLargePageCount_eq hShelved, ← sum_spend_iff]
  constructor
  · rintro ⟨fuel, b', hEnd, hCount, -⟩
    rcases splitOrder_of_targetCount hShelved hEnd with
      ⟨hKeeps, hLeft⟩
    rw [← hLeft, ← hCount]
    exact (getFreeLargePageCount_eq hKeeps.shelved).symm
  · intro hSum
    rcases exists_targetCount hShelved target draws with
      ⟨b', hEnd⟩
    rcases splitOrder_of_targetCount hShelved hEnd with
      ⟨hKeeps, hLeft⟩
    refine ⟨_, b', hEnd, ?_, hKeeps.has_iff hShelved⟩
    rw [getFreeLargePageCount_eq hKeeps.shelved, hLeft, hSum]

/- Two blocks of 4MB, of which one is split. -/
theorem targetCount_half :
    ∃ b, construct 8 10 0 = some b ∧
      ∃ fuel b',
        fragmentMemoryToTargetCount 2 fuel id b = some b' ∧
          b'.getFreeLargePageCount = min 2 b.getFreeLargePageCount ∧
          ∀ p, (∃ block ∈ b'.listed, block.Has p) ↔
            ∃ block ∈ b.listed, block.Has p := by
  have hSome : ∃ b, construct 8 10 0 = some b := ⟨_, rfl⟩
  rcases hSome with ⟨b, hConstruct⟩
  refine ⟨b, hConstruct, ?_⟩
  refine (targetCount_iff (freeListInv_construct hConstruct)
    2 id).mpr (Or.inr ⟨[2], ?_, rfl⟩)
  cases hConstruct
  decide +kernel

/-
  In a memory of one block of 4MB the target of one 2MB page
  is passed: no 2MB page is left.
-/
theorem targetCount_passed :
    ∃ b, construct 4 10 0 = some b ∧
      FreeListInv b.memorySize b.maxOrder b.kernelSize ⟨b, []⟩ ∧
      (∃ b', fragmentMemoryToTargetCount 1 2 id b =
          some b' ∧ b'.getFreeLargePageCount = 0) ∧
      ¬ ∃ fuel b',
        fragmentMemoryToTargetCount 1 fuel id b = some b' ∧
          b'.getFreeLargePageCount =
            min 1 b.getFreeLargePageCount := by
  have hSome : ∃ b, construct 4 10 0 = some b := ⟨_, rfl⟩
  rcases hSome with ⟨b, hConstruct⟩
  have hInv := freeListInv_construct hConstruct
  have hOrder : b.splitOrder = [2] := by
    cases hConstruct
    decide +kernel
  have hLeft : ∀ {fuel : Nat} {b' : Buddy},
      fragmentMemoryToTargetCount 1 fuel id b = some b' →
        b'.getFreeLargePageCount = 0 := by
    intro fuel b' hEnd
    rcases splitOrder_of_targetCount hInv.shelved hEnd with
      ⟨hKeeps, hSpent⟩
    rw [getFreeLargePageCount_eq hKeeps.shelved, hSpent, hOrder]
    rfl
  refine ⟨b, hConstruct, hInv, ?_, ?_⟩
  · rcases exists_targetCount hInv.shelved 1 id with
      ⟨b', hEnd⟩
    rw [hOrder] at hEnd
    exact ⟨b', hEnd, hLeft hEnd⟩
  · rintro ⟨fuel, b', hEnd, hCount⟩
    rw [hLeft hEnd, getFreeLargePageCount_eq hInv.shelved,
      hOrder] at hCount
    simp at hCount

end Loop

end Buddy

end Virtuoso
