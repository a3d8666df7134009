import Virtuoso.Buddy.Invariant

/-
  Bounds on the pages of the free lists.

  A block on the list of order `k` stands for `2 ^ k` pages
  from its start. Where all of them lie between two bounds,
  every page that is handed out does, whatever is put back in
  between as long as it lies there too. The upper bound may
  be larger for smaller blocks.

  Main declarations:
    * `Buddy.within_construct`
    * `Buddy.within_free`
-/

namespace Virtuoso

namespace Buddy

/- More than half of the pages of the order, in bounds. -/
structure Fits (lo hi k : Nat) (block : Span) : Prop where
  low : lo ≤ block.start
  high : block.start + 2 ^ k ≤ hi
  short : block.stop < block.start + 2 ^ k
  long : 2 ^ k < 2 * (block.stop + 1 - block.start)

/- Every listed block lies between the bounds of its order. -/
def Within
    (lo : Nat)
    (hi : Nat → Nat)
    (fl : FreeList) : Prop :=
  ∀ k, ∀ block ∈ fl k, Fits lo (hi k) k block

theorem Fits.mono
    {lo hi hi' k : Nat}
    {block : Span}
    (hFits : Fits lo hi k block)
    (hLe : hi ≤ hi') :
    Fits lo hi' k block :=
  ⟨hFits.low, Nat.le_trans hFits.high hLe, hFits.short, hFits.long⟩

variable {lo : Nat} {hi : Nat → Nat} {fl fl' : FreeList}

theorem Within.update
    (hWithin : Within lo hi fl)
    {k : Nat}
    {l : List Span}
    (hList : ∀ block ∈ l, Fits lo (hi k) k block) :
    Within lo hi (Function.update fl k l) := by
  intro i block hMem
  by_cases hEq : i = k
  · subst hEq
    rw [Function.update_self] at hMem
    exact hList block hMem
  · rw [Function.update_of_ne hEq] at hMem
    exact hWithin i block hMem

theorem Within.pushBack
    (hWithin : Within lo hi fl)
    {k : Nat}
    {block : Span}
    (hFits : Fits lo (hi k) k block) :
    Within lo hi (Buddy.pushBack fl k block) := by
  apply hWithin.update
  intro other hMem
  rcases List.mem_append.mp hMem with hOld | hNew
  · exact hWithin k other hOld
  · rw [List.mem_singleton.mp hNew]
    exact hFits

theorem Within.popBack
    (hWithin : Within lo hi fl)
    (k : Nat) :
    Within lo hi (Buddy.popBack fl k) := by
  apply hWithin.update
  intro other hMem
  exact hWithin k other (List.dropLast_subset _ hMem)

/- The halves of a block that is split as the source asserts. -/
theorem Fits.halves
    {k last : Nat}
    {block : Span}
    (hFits : Fits lo last (k + 1) block)
    (hHalf : block.stop - (midPoint block + 1) + 1 = 2 ^ k) :
    Fits lo last k ⟨block.start, midPoint block⟩ ∧
      Fits lo last k ⟨midPoint block + 1, block.stop⟩ := by
  have hLow := hFits.low
  have hHigh := hFits.high
  have hShort := hFits.short
  have hLong := hFits.long
  have hPos : 0 < 2 ^ k := Nat.two_pow_pos k
  rw [Nat.pow_succ] at hHigh hShort hLong
  unfold midPoint at hHalf ⊢
  refine ⟨⟨hLow, ?_, ?_, ?_⟩, ⟨?_, ?_, ?_, ?_⟩⟩
  all_goals
    simp only
    omega

/- Splitting stays between the bounds. -/
theorem within_splitTail
    {ind n : Nat}
    {block block' : Span}
    (hAnti : Antitone hi)
    (hWithin : Within lo hi fl)
    (hFits : Fits lo (hi (ind + n)) (ind + n) block)
    (hSplit : splitTail ind n block fl = some (block', fl')) :
    Fits lo (hi ind) ind block' ∧ Within lo hi fl' := by
  induction n generalizing block fl with
  | zero =>
      simp only [splitTail, Option.some.injEq,
        Prod.mk.injEq] at hSplit
      rw [← hSplit.1, ← hSplit.2]
      exact ⟨hFits, hWithin⟩
  | succ n ih =>
      rw [splitTail] at hSplit
      simp only at hSplit
      split_ifs at hSplit with hHalf
      have hLe : hi (ind + (n + 1)) ≤ hi (ind + n) :=
        hAnti (by omega)
      rcases hFits.halves hHalf with ⟨hLower, hUpper⟩
      exact ih (hWithin.pushBack (hLower.mono hLe))
        (hUpper.mono hLe) hSplit

variable {b b' : Buddy}

/- A new allocator lists the pages behind the kernel. -/
theorem within_construct
    {memorySize maxOrder kernelSize : Nat}
    (hConstruct :
      construct memorySize maxOrder kernelSize = some b) :
    Within (pagesInMb kernelSize)
      (fun _ => pagesInMb memorySize) b.freeList := by
  have hTiled := tiled_construct hConstruct
  have hGeometry := (construct_eq_some hConstruct).2
  simp only [geometry, Prod.mk.injEq] at hGeometry
  intro k block hMem
  rcases hTiled.shelved k block hMem with ⟨hOrder, hBlock⟩
  have hSize := hBlock.size
  have hPos : 0 < 2 ^ k := Nat.two_pow_pos k
  have hRange : ∀ p, block.Has p →
      pagesInMb kernelSize ≤ p ∧ p < pagesInMb memorySize := by
    intro p hHas
    have hListed : 0 < freeCoverage b.maxOrder b.freeList p := by
      rw [freeCoverage, ← Span.exists_has_iff]
      exact ⟨block, Span.mem_shelves.mpr ⟨k, by omega, hMem⟩, hHas⟩
    have hIn := hTiled.in_range (p := p) (by omega)
    rw [Buddy.base, Buddy.limit, hGeometry.1, hGeometry.2.2] at hIn
    exact hIn
  have hFirst := hRange block.start ⟨by omega, by omega⟩
  have hLast := hRange block.stop ⟨by omega, by omega⟩
  refine ⟨hFirst.1, ?_, by omega, by omega⟩
  change block.start + 2 ^ k ≤ pagesInMb memorySize
  omega

/- An allocation returns pages between the bounds. -/
theorem within_allocate
    (hAnti : Antitone hi)
    (hWithin : Within lo hi b.freeList)
    {bytes : Nat}
    {page : Option Nat}
    (hAllocate : b.allocate bytes = some (page, b')) :
    Within lo hi b'.freeList ∧
      ∀ p ∈ page, lo ≤ p ∧
        p + 2 ^ orderOf (bytes / 4096) ≤
          hi (orderOf (bytes / 4096)) := by
  unfold allocate at hAllocate
  simp only at hAllocate
  generalize orderOf (bytes / 4096) = ind at hAllocate ⊢
  set i := (b.firstNonEmpty ind).getD
    (max ind (b.maxOrder + 1)) with hFirst
  have hLow : ind ≤ i := by
    cases hScan : b.firstNonEmpty ind with
    | none =>
        rw [hFirst, hScan, Option.getD_none]
        exact Nat.le_max_left _ _
    | some j =>
        rw [hFirst, hScan, Option.getD_some]
        exact (firstNonEmpty_eq_some hScan).1
  split_ifs at hAllocate with hEnd
  · simp only [Option.some.injEq, Prod.mk.injEq] at hAllocate
    rw [← hAllocate.1, ← hAllocate.2]
    exact ⟨hWithin, by simp⟩
  · cases hLast : (b.freeList i).getLast? with
    | none => simp [hLast] at hAllocate
    | some block =>
        simp only [hLast] at hAllocate
        cases hSplit : splitTail ind (i - ind) block
            (Buddy.popBack b.freeList i) with
        | none => simp [hSplit] at hAllocate
        | some r =>
            rcases r with ⟨block', fl'⟩
            simp only [hSplit, Option.some.injEq,
              Prod.mk.injEq] at hAllocate
            have hFits : Fits lo (hi (ind + (i - ind)))
                (ind + (i - ind)) block := by
              rw [Nat.add_sub_cancel' hLow]
              exact hWithin i block (List.mem_of_getLast? hLast)
            rcases within_splitTail hAnti (hWithin.popBack i)
                hFits hSplit with ⟨hPart, hNext⟩
            rw [← hAllocate.1, ← hAllocate.2]
            refine ⟨hNext, fun p hMem => ?_⟩
            rw [Option.mem_def, Option.some.injEq] at hMem
            rw [← hMem]
            exact ⟨hPart.low, hPart.high⟩

/- The pieces of 512 pages of a larger block. -/
theorem Fits.chop
    {k last : Nat}
    {block piece : Span}
    (hFits : Fits lo last k block)
    (hMem : piece ∈ Span.chop block.start 512
      ((block.stop - block.start + 1) / 512)) :
    Fits lo last 9 piece := by
  have hLow := hFits.low
  have hHigh := hFits.high
  have hShort := hFits.short
  have hLong := hFits.long
  have hPos : 0 < 2 ^ k := Nat.two_pow_pos k
  rcases Span.mem_chop hMem with ⟨j, hLt, hEq⟩
  have hEnd : (j + 1) * 512 ≤ block.stop - block.start + 1 :=
    (Nat.le_div_iff_mul_le (by decide)).mp hLt
  have hSize : (2 : Nat) ^ 9 = 512 := by decide
  subst hEq
  refine ⟨?_, ?_, ?_, ?_⟩
  all_goals
    simp only [hSize]
    omega

/- A reservation returns pages between the bounds. -/
theorem within_reserve2mbPage
    (hAnti : Antitone hi)
    (hWithin : Within lo hi b.freeList)
    {block : Option Span}
    (hReserve : b.reserve2mbPage = some (block, b')) :
    Within lo hi b'.freeList ∧
      ∀ t ∈ block, lo ≤ t.start ∧ t.start + 512 ≤ hi 9 := by
  have hTaken : ∀ {t : Span}, Fits lo (hi 9) 9 t →
      lo ≤ t.start ∧ t.start + 512 ≤ hi 9 :=
    fun hFits => ⟨hFits.low, hFits.high⟩
  unfold reserve2mbPage at hReserve
  split_ifs at hReserve with hLists
  cases hLast : (b.freeList 9).getLast? with
  | some t =>
      simp only [hLast, Option.some.injEq,
        Prod.mk.injEq] at hReserve
      rw [← hReserve.1, ← hReserve.2]
      refine ⟨hWithin.popBack 9, fun t' hMem => ?_⟩
      rw [Option.mem_def, Option.some.injEq] at hMem
      rw [← hMem]
      exact hTaken (hWithin 9 t (List.mem_of_getLast? hLast))
  | none =>
      simp only [hLast] at hReserve
      cases hScan : b.firstNonEmpty 10 with
      | none =>
          simp only [hScan, Option.some.injEq,
            Prod.mk.injEq] at hReserve
          rw [← hReserve.1, ← hReserve.2]
          exact ⟨hWithin, by simp⟩
      | some i =>
          simp only [hScan] at hReserve
          cases hList : b.freeList i with
          | nil => simp [hList] at hReserve
          | cons temp rest =>
              simp only [hList] at hReserve
              have hTemp : Fits lo (hi i) i temp :=
                hWithin i temp (by simp [hList])
              have hLarge : 10 ≤ i :=
                (firstNonEmpty_eq_some hScan).1
              have hRest : Within lo hi
                  (Function.update b.freeList i rest) := by
                apply hWithin.update
                intro t hMem
                exact hWithin i t (by simp [hList, hMem])
              have hChopped := hRest.update (k := 9)
                (l := Function.update b.freeList i rest 9 ++
                  Span.chop temp.start 512
                    ((temp.stop - temp.start + 1) / 512))
                (fun t hMem => by
                  rcases List.mem_append.mp hMem with
                    hOld | hNew
                  · exact hRest 9 t hOld
                  · exact hTemp.chop hNew |>.mono
                      (hAnti (by omega)))
              split at hReserve
              · cases hReserve
              · rename_i t hBack
                simp only [Option.some.injEq,
                  Prod.mk.injEq] at hReserve
                rw [← hReserve.1, ← hReserve.2]
                refine ⟨hChopped.popBack 9, fun t' hMem => ?_⟩
                rw [Option.mem_def, Option.some.injEq] at hMem
                rw [← hMem]
                exact hTaken (hChopped 9 t
                  (List.mem_of_getLast? hBack))

/- Putting back pages between the bounds. -/
theorem within_free
    (hWithin : Within lo hi b.freeList)
    {start stop : Nat}
    (hLe : start ≤ stop)
    (hLow : lo ≤ start)
    (hHigh : start + 2 ^ orderOf (stop - start + 1) ≤
      hi (orderOf (stop - start + 1))) :
    Within lo hi (b.free start stop).freeList := by
  apply hWithin.pushBack
  have hUp : stop - start + 1 ≤ 2 ^ orderOf (stop - start + 1) :=
    Nat.le_pow_clog (by decide) _
  refine ⟨hLow, hHigh, ?_, ?_⟩
  · simp only
    omega
  · simp only
    rcases Nat.eq_or_lt_of_le hLe with hEq | hLt
    · subst hEq
      rw [Nat.sub_self]
      simp [orderOf]
    · have hDown := Nat.pow_pred_clog_lt_self
        (b := 2) (x := stop - start + 1) (by decide) (by omega)
      have hPos : 0 < Nat.clog 2 (stop - start + 1) :=
        Nat.clog_pos (by decide) (by omega)
      have hPow := Nat.pow_succ
        (n := 2) (m := (Nat.clog 2 (stop - start + 1)).pred)
      rw [Nat.succ_pred_eq_of_pos hPos] at hPow
      unfold orderOf
      omega

end Buddy

end Virtuoso
