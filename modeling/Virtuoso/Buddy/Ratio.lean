import Mathlib.Tactic.GCongr
import Mathlib.Tactic.Positivity
import Virtuoso.Buddy.Drain
import Virtuoso.Buddy.Fragmentation

/-
  Fragmentation to a ratio.

  Rounds never cut a block below 256 pages. So the metric of
  the lists in which every larger block is cut to that size
  is a bound that no round passes, and the lists reach it
  when no block of 512 pages is left. The loop ends exactly
  when the bound meets the target; otherwise it goes on
  without a block to split.

  Main declarations:
    * `Buddy.finest`
    * `Buddy.fragmentMemory_run_iff`
-/

namespace Virtuoso

namespace Buddy

open Span

/- A block cut as far as rounds can cut it. -/
def cut (size : Nat) : List Nat :=
  if size ≤ 256 then
    [size]
  else
    List.replicate (size / 256) 256

/- The sizes when every block is cut. -/
def finest (sizes : List Nat) : List Nat :=
  sizes.flatMap cut

section Finest

variable {sizes sizes' : List Nat}

theorem cut_two_pow
    {k : Nat}
    (hLow : 8 ≤ k) :
    cut (2 ^ k) = List.replicate (2 ^ (k - 8)) 256 := by
  have hDiv : 2 ^ k / 2 ^ 8 = 2 ^ (k - 8) :=
    Nat.pow_div hLow (by omega)
  unfold cut
  split
  · rename_i hSmall
    have hEq : k = 8 := by
      by_contra hNe
      have hPow : 2 ^ 8 < 2 ^ k :=
        Nat.pow_lt_pow_right (by omega) (by omega)
      omega
    subst hEq
    rfl
  · rw [show 256 = 2 ^ 8 from rfl, hDiv]

theorem sum_cut_le
    (size : Nat) :
    (cut size).sum ≤ size := by
  unfold cut
  split
  · simp
  · rw [List.sum_replicate, Nat.nsmul_eq_mul]
    exact Nat.div_mul_le_self size 256

theorem length_cut_pos
    (size : Nat) :
    1 ≤ (cut size).length := by
  unfold cut
  split
  · simp
  · rw [List.length_replicate]
    omega

theorem length_le_finest
    (sizes : List Nat) :
    sizes.length ≤ (finest sizes).length := by
  induction sizes with
  | nil => simp
  | cons size sizes ih =>
      have hPos := length_cut_pos size
      rw [finest, List.flatMap_cons, List.length_append,
        ← finest, List.length_cons]
      omega

/- Without a block of 512 pages there is nothing to cut. -/
theorem finest_of_le
    (hSmall : ∀ size ∈ sizes, size ≤ 256) :
    finest sizes = sizes := by
  induction sizes with
  | nil => rfl
  | cons size sizes ih =>
      rw [finest, List.flatMap_cons, ← finest,
        ih (fun other hMem =>
          hSmall other (List.mem_cons_of_mem size hMem)),
        cut, if_pos (hSmall size (by simp))]
      rfl

variable {i r : Nat}

/- A round does not change the finest lists. -/
theorem finest_splits
    (hLow : 8 ≤ r)
    (hLt : r < i)
    (hSplits : Splits i r sizes sizes') :
    (finest sizes').Perm (finest sizes) := by
  rcases hSplits with ⟨others, hBefore, hAfter⟩
  have hWhole : finest (2 ^ i :: others) =
      List.replicate (2 ^ (i - 8)) 256 ++ finest others := by
    rw [finest, List.flatMap_cons, cut_two_pow (by omega)]
    rfl
  have hPieces :
      finest (List.replicate (2 ^ (i - r)) (2 ^ r) ++ others) =
        List.replicate (2 ^ (i - 8)) 256 ++ finest others := by
    have hCount : 2 ^ (i - r) * 2 ^ (r - 8) = 2 ^ (i - 8) := by
      rw [← Nat.pow_add, show i - r + (r - 8) = i - 8 by omega]
    rw [finest, List.flatMap_append, List.flatMap_replicate,
      cut_two_pow hLow, List.flatten_replicate_replicate,
      hCount]
    rfl
  have hAfter' := hAfter.flatMap_right cut
  have hBefore' := hBefore.flatMap_right cut
  change (finest sizes').Perm _ at hAfter'
  change (finest sizes).Perm _ at hBefore'
  refine hAfter'.trans (List.Perm.trans ?_ hBefore'.symm)
  change (finest _).Perm (finest _)
  rw [hWhole, hPieces]

/- A round keeps the pages and makes more blocks of them. -/
theorem sum_splits
    (hLt : r < i)
    (hSplits : Splits i r sizes sizes') :
    sizes'.sum = sizes.sum := by
  rcases hSplits with ⟨others, hBefore, hAfter⟩
  have hPow : 2 ^ (i - r) * 2 ^ r = 2 ^ i := by
    rw [← Nat.pow_add, Nat.sub_add_cancel (by omega)]
  rw [hBefore.sum_eq, hAfter.sum_eq, List.sum_append,
    List.sum_replicate, Nat.nsmul_eq_mul, hPow, List.sum_cons]

theorem length_splits
    (hLt : r < i)
    (hSplits : Splits i r sizes sizes') :
    sizes.length < sizes'.length := by
  rcases hSplits with ⟨others, hBefore, hAfter⟩
  have hPow : 2 ^ 0 < 2 ^ (i - r) :=
    Nat.pow_lt_pow_right (by omega) (by omega)
  rw [hBefore.length_eq, hAfter.length_eq,
    List.length_append, List.length_replicate,
    List.length_cons]
  omega

end Finest

section Metric

variable {sizes sizes' : List Nat}

/- More blocks with a smaller top have a smaller average. -/
theorem averageRatio_le
    (hTop : Ranked.topSum 50 sizes' ≤ Ranked.topSum 50 sizes)
    (hLength : sizes.length ≤ sizes'.length)
    (maxOrder : Nat) :
    averageRatio maxOrder sizes' ≤ averageRatio maxOrder sizes := by
  have hAverage :
      (if 0 < min 50 sizes'.length then
          ((Ranked.topSum 50 sizes' : Nat) : ℚ) /
            ((min 50 sizes'.length : Nat) : ℚ)
        else 0) ≤
        if 0 < min 50 sizes.length then
          ((Ranked.topSum 50 sizes : Nat) : ℚ) /
            ((min 50 sizes.length : Nat) : ℚ)
        else 0 := by
    by_cases hSome : 0 < min 50 sizes.length
    · rw [if_pos hSome, if_pos (by omega)]
      have hSum : ((Ranked.topSum 50 sizes' : Nat) : ℚ) ≤
          ((Ranked.topSum 50 sizes : Nat) : ℚ) := by
        exact_mod_cast hTop
      have hCount : ((min 50 sizes.length : Nat) : ℚ) ≤
          ((min 50 sizes'.length : Nat) : ℚ) := by
        exact_mod_cast (by omega :
          min 50 sizes.length ≤ min 50 sizes'.length)
      have hPos : (0 : ℚ) < ((min 50 sizes.length : Nat) : ℚ) := by
        exact_mod_cast hSome
      exact div_le_div₀ (by positivity) hSum hPos hCount
    · have hNil : sizes = [] := by
        apply List.eq_nil_of_length_eq_zero
        omega
      have hZero : Ranked.topSum 50 sizes' = 0 := by
        rw [hNil] at hTop
        exact Nat.le_zero.mp hTop
      rw [if_neg hSome, hZero]
      simp
  unfold averageRatio
  exact div_le_div_of_nonneg_right hAverage (by positivity)

theorem averageRatio_perm
    (hPerm : sizes'.Perm sizes)
    (maxOrder : Nat) :
    averageRatio maxOrder sizes' = averageRatio maxOrder sizes := by
  apply le_antisymm
  · exact averageRatio_le
      (Nat.le_of_eq (Ranked.topSum_perm hPerm 50))
      (Nat.le_of_eq hPerm.length_eq.symm) maxOrder
  · exact averageRatio_le
      (Nat.le_of_eq (Ranked.topSum_perm hPerm.symm 50))
      (Nat.le_of_eq hPerm.length_eq) maxOrder

/- Cutting does not raise the average. -/
theorem averageRatio_finest
    (maxOrder : Nat)
    (sizes : List Nat) :
    averageRatio maxOrder (finest sizes) ≤
      averageRatio maxOrder sizes :=
  averageRatio_le
    (Ranked.topSum_flatMap sizes (fun size _ => sum_cut_le size) 50)
    (length_le_finest sizes) maxOrder

end Metric

/- The metric of the finest lists. -/
def bound (b : Buddy) : FragType → ℚ
| .contiguity => averageRatio b.maxOrder (finest b.blockSizes)
| .largepage => 0

section Bound

variable {b : Buddy} {base : Nat}

/- No lists have a metric below the bound. -/
theorem bound_le
    (b : Buddy)
    (fragType : FragType) :
    b.bound fragType ≤ b.fragFun fragType := by
  cases fragType with
  | contiguity =>
      exact averageRatio_finest b.maxOrder b.blockSizes
  | largepage =>
      change 0 ≤ b.getLargePageRatio
      unfold getLargePageRatio
      positivity

/- Without a block of order 9 all blocks are small. -/
theorem blockSizes_le_of_none
    (hShelved : Shelved base b.maxOrder b.freeList)
    (hNone : b.lastNonEmpty = none) :
    ∀ size ∈ b.blockSizes, size ≤ 256 := by
  intro n hMem
  rcases List.mem_map.mp hMem with ⟨block, hListed, hSize⟩
  rcases mem_shelves.mp hListed with ⟨k, -, hList⟩
  rcases hShelved k block hList with ⟨hOrder, hBlock⟩
  have hSmall : k ≤ 8 := by
    by_contra hLarge
    unfold lastNonEmpty at hNone
    rw [List.find?_eq_none] at hNone
    have hEmpty := hNone k (by
      rw [List.mem_reverse, List.mem_range'_1]
      omega)
    simp only [Bool.not_eq_true', Bool.not_eq_false,
      List.isEmpty_iff] at hEmpty
    rw [hEmpty] at hList
    cases hList
  have hPow : 2 ^ k ≤ 2 ^ 8 :=
    Nat.pow_le_pow_right (by omega) hSmall
  rw [← hSize, hBlock.size_eq]
  omega

/- Lists without a block to split are at the bound. -/
theorem fragFun_of_none
    (hShelved : Shelved base b.maxOrder b.freeList)
    (hNone : b.lastNonEmpty = none)
    (fragType : FragType) :
    b.fragFun fragType = b.bound fragType := by
  have hSmall := blockSizes_le_of_none hShelved hNone
  cases fragType with
  | contiguity =>
      change averageRatio b.maxOrder b.blockSizes =
        averageRatio b.maxOrder (finest b.blockSizes)
      rw [finest_of_le hSmall]
  | largepage =>
      have hCount : b.getFreeLargePageCount = 0 := by
        rw [getFreeLargePageCount, largePages, List.sum_eq_zero]
        intro count hMem
        rcases List.mem_map.mp hMem with ⟨size, hSize, hEq⟩
        have hLe := hSmall size hSize
        rw [if_neg (by omega)] at hEq
        exact hEq.symm
      change b.getLargePageRatio = 0
      rw [getLargePageRatio, hCount]
      simp

/- What a round of the loop does. -/
theorem fragmentMemoryStep_spec
    (hShelved : Shelved base b.maxOrder b.freeList)
    {i : Nat}
    (hFound : b.lastNonEmpty = some i)
    (draw : Nat) :
    let b' := b.fragmentMemoryStep draw
    Shelved base b'.maxOrder b'.freeList ∧
      (∀ fragType, b'.bound fragType = b.bound fragType) ∧
      b'.blockSizes.sum = b.blockSizes.sum ∧
      b.blockSizes.length < b'.blockSizes.length := by
  intro b'
  have hPick : ∀ i, 9 ≤ i → uniform 8 (i - 1) draw < i := by
    intro i hLow
    have hLe := uniform_le 8 (i - 1) draw (by omega)
    omega
  have hLow := (lastNonEmpty_eq_some hFound).1
  have hEight : 8 ≤ uniform 8 (i - 1) draw :=
    Nat.le_add_right 8 _
  have hOrder : b'.maxOrder = b.maxOrder := by
    have hSame := splitLargest_geometry (b := b)
      (fun i => uniform 8 (i - 1) draw)
    simp only [geometry, Prod.mk.injEq] at hSame
    exact hSame.2.1
  have hSplits : Splits i (uniform 8 (i - 1) draw)
      b.blockSizes b'.blockSizes :=
    splits_splitLargest hShelved hPick hFound
  refine ⟨?_, ?_, sum_splits (hPick i hLow) hSplits,
    length_splits (hPick i hLow) hSplits⟩
  · rw [hOrder]
    exact (shelved_splitLargest hShelved hPick).1
  · intro fragType
    cases fragType with
    | contiguity =>
        change averageRatio b'.maxOrder (finest b'.blockSizes) =
          averageRatio b.maxOrder (finest b.blockSizes)
        rw [hOrder]
        exact averageRatio_perm
          (finest_splits hEight (hPick i hLow) hSplits)
          b.maxOrder
    | largepage => rfl

/- Every block has a page. -/
theorem length_le_sum_blockSizes
    (b : Buddy) :
    b.blockSizes.length ≤ b.blockSizes.sum := by
  unfold blockSizes
  generalize b.listed = blocks
  induction blocks with
  | nil => simp
  | cons block blocks ih =>
      have hPos : 1 ≤ block.size := Nat.succ_pos _
      simp only [List.map_cons, List.length_cons, List.sum_cons]
      omega

end Bound

section Loop

variable {b : Buddy} {base : Nat} {fragType : FragType}
variable {target : ℚ}

/-
  A loop with its bound at the target ends: each round adds a
  block, and there are no more blocks than free pages.
-/
theorem exists_fragmentMemory
    (hShelved : Shelved base b.maxOrder b.freeList)
    (hBound : b.bound fragType ≤ target)
    (draws : Nat → Nat) :
    ∃ fuel b',
      fragmentMemory fragType target fuel draws b = some b' ∧
        b'.fragFun fragType ≤ target := by
  induction hSpare :
      b.blockSizes.sum - b.blockSizes.length using
        Nat.strong_induction_on generalizing b draws with
  | _ spare ih =>
      by_cases hMore : target < b.fragFun fragType
      · cases hFound : b.lastNonEmpty with
        | none =>
            rw [fragFun_of_none hShelved hFound] at hMore
            exact absurd hBound (not_le.mpr hMore)
        | some i =>
            rcases fragmentMemoryStep_spec hShelved hFound
                (draws 0) with
              ⟨hShelved', hSame, hSum, hLength⟩
            have hPages := length_le_sum_blockSizes
              (b.fragmentMemoryStep (draws 0))
            rw [← hSame] at hBound
            rcases ih _ (by omega) hShelved' hBound
                (fun round => draws (round + 1)) rfl with
              ⟨fuel, b', hEnd, hMet⟩
            refine ⟨fuel + 1, b', ?_, hMet⟩
            rw [fragmentMemory, if_pos hMore]
            exact hEnd
      · refine ⟨1, b, ?_, not_lt.mp hMore⟩
        rw [fragmentMemory, if_neg hMore]

/- A loop with its bound above the target does not end. -/
theorem fragmentMemory_eq_none
    (hShelved : Shelved base b.maxOrder b.freeList)
    (hBound : target < b.bound fragType)
    (fuel : Nat)
    (draws : Nat → Nat) :
    fragmentMemory fragType target fuel draws b = none := by
  induction fuel generalizing b draws with
  | zero => rfl
  | succ fuel ih =>
      have hMore : target < b.fragFun fragType :=
        hBound.trans_le (bound_le b fragType)
      rw [fragmentMemory, if_pos hMore]
      cases hFound : b.lastNonEmpty with
      | none =>
          rw [fragmentMemoryStep, splitLargest_of_none hFound]
          exact ih hShelved hBound _
      | some i =>
          rcases fragmentMemoryStep_spec hShelved hFound
              (draws 0) with ⟨hShelved', hSame, -, -⟩
          rw [← hSame] at hBound
          exact ih hShelved' hBound _

end Loop

/-
  From every state of a run the loop ends with the metric at
  the target, whatever the generator, exactly when the metric
  is the ratio of 2MB pages or the target is not below the
  average of the finest lists.
-/
theorem fragmentMemory_run_iff
    (memorySize maxOrder kernelSize : Nat)
    (_hOrder : 9 ≤ maxOrder)
    {b : Buddy}
    (hConstruct : construct memorySize maxOrder kernelSize = some b)
    {ops : List Op}
    (hPermitted : Run.Along step Permitted ⟨b, []⟩ ops)
    {s : Heap}
    (hRun : Run.run step ⟨b, []⟩ ops = some s)
    (fragType : FragType)
    (target : ℚ)
    (hTarget : 0 ≤ target ∧ target ≤ 1) :
    (∀ draws, ∃ fuel b',
      fragmentMemory fragType target fuel draws s.buddy = some b' ∧
        b'.fragFun fragType ≤ target) ↔
      (fragType = .contiguity →
        averageRatio maxOrder (finest s.buddy.blockSizes) ≤
          target) := by
  have hInv : Inv (memorySize, maxOrder, kernelSize) s := by
    refine Run.run_inv (C := Permitted) ?_ ?_ hPermitted hRun
    · intro s op s' hInv hOp hStep
      exact inv_of_step hInv hOp hStep
    · exact ⟨tiled_construct hConstruct,
        (construct_eq_some hConstruct).2⟩
  have hShelved := hInv.1.shelved
  have hSame := hInv.2
  simp only [geometry, Prod.mk.injEq] at hSame
  have hBound : s.buddy.bound fragType ≤ target ↔
      (fragType = .contiguity →
        averageRatio maxOrder (finest s.buddy.blockSizes) ≤
          target) := by
    cases fragType with
    | contiguity =>
        rw [bound, hSame.2.1]
        exact ⟨fun hLe _ => hLe, fun hLe => hLe rfl⟩
    | largepage =>
        constructor
        · intro _ hType
          cases hType
        · intro _
          exact hTarget.1
  rw [← hBound]
  constructor
  · intro hEnds
    by_contra hAbove
    rcases hEnds id with ⟨fuel, b', hEnd, -⟩
    rw [fragmentMemory_eq_none hShelved (not_le.mp hAbove)
      fuel id] at hEnd
    cases hEnd
  · intro hLe draws
    exact exists_fragmentMemory hShelved hLe draws

/-
  With blocks of up to 2048 pages a memory of 4MB reaches the
  ratio 1, after a page of it was allocated too.
-/
theorem fragmentMemory_run_reached :
    ∃ b s,
      construct 4 11 0 = some b ∧
        Run.run step ⟨b, []⟩ [.allocate 4096] = some s ∧
        ∀ draws, ∃ fuel b',
          fragmentMemory .contiguity 1 fuel draws s.buddy =
              some b' ∧
            b'.fragFun .contiguity ≤ 1 := by
  have hRun : ∃ b s,
      construct 4 11 0 = some b ∧
        Run.run step ⟨b, []⟩ [.allocate 4096] = some s :=
    ⟨_, _, rfl, rfl⟩
  rcases hRun with ⟨b, s, hConstruct, hRun⟩
  refine ⟨b, s, hConstruct, hRun, ?_⟩
  refine (fragmentMemory_run_iff 4 11 0 (by decide) hConstruct
    ?_ hRun .contiguity 1 ⟨by decide, le_refl 1⟩).mpr ?_
  · cases hConstruct
    decide +kernel
  · intro _
    cases hConstruct
    cases hRun
    decide +kernel

/-
  In a memory of one block of 2MB with blocks of up to 512
  pages the ratio 1 is never reached.
-/
theorem fragmentMemory_run_endless :
    ∃ b, construct 2 9 0 = some b ∧
      Run.run step ⟨b, []⟩ [] = some ⟨b, []⟩ ∧
      ¬ ∀ draws, ∃ fuel b',
        fragmentMemory .contiguity 1 fuel draws b = some b' ∧
          b'.fragFun .contiguity ≤ 1 := by
  have hSome : ∃ b, construct 2 9 0 = some b := ⟨_, rfl⟩
  rcases hSome with ⟨b, hConstruct⟩
  refine ⟨b, hConstruct, rfl, ?_⟩
  have hAbove : 1 < b.bound .contiguity := by
    cases hConstruct
    decide +kernel
  intro hEnds
  rcases hEnds id with ⟨fuel, b', hEnd, -⟩
  rw [fragmentMemory_eq_none
    (tiled_construct hConstruct).shelved hAbove] at hEnd
  cases hEnd

end Buddy

end Virtuoso
