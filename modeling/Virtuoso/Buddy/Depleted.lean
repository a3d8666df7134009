import Virtuoso.Buddy.Invariant

/-
  A buddy allocator without a block of 512 pages.

  A reservation of 2MB fails exactly in such a state, and no
  operation leaves it: splits go downwards, and a freed block
  is not merged with its neighbours.

  Main declarations:
    * `Buddy.depleted_of_reserve2mbPage`
    * `Buddy.Depleted.free`
-/

namespace Virtuoso

namespace Buddy

variable {b b' : Buddy}

/- No list that a reservation looks at has a block. -/
structure Depleted (b : Buddy) : Prop where
  nine : b.freeList 9 = []
  above : ∀ i, 10 ≤ i → i ≤ b.maxOrder → b.freeList i = []

theorem Depleted.empty
    (hDepleted : Depleted b)
    {i : Nat}
    (hLow : 9 ≤ i)
    (hHigh : i ≤ b.maxOrder) :
    b.freeList i = [] := by
  rcases Nat.eq_or_lt_of_le hLow with hEq | hLt
  · exact hEq ▸ hDepleted.nine
  · exact hDepleted.above i hLt hHigh

/- A failed reservation is a sign of depletion. -/
theorem depleted_of_reserve2mbPage
    (hReserve : b.reserve2mbPage = some (none, b')) :
    Depleted b := by
  unfold reserve2mbPage at hReserve
  split_ifs at hReserve with hLists
  cases hLast : (b.freeList 9).getLast? with
  | some block => simp [hLast] at hReserve
  | none =>
      simp only [hLast] at hReserve
      cases hScan : b.firstNonEmpty 10 with
      | none =>
          exact ⟨List.getLast?_eq_none_iff.mp hLast,
            firstNonEmpty_eq_none.mp hScan⟩
      | some i =>
          simp only [hScan] at hReserve
          split at hReserve
          · cases hReserve
          · split at hReserve
            · cases hReserve
            · simp at hReserve

/- A depleted allocator refuses every reservation. -/
theorem Depleted.reserve2mbPage
    (hDepleted : Depleted b)
    {block : Span} :
    b.reserve2mbPage ≠ some (some block, b') := by
  intro hReserve
  unfold Buddy.reserve2mbPage at hReserve
  split_ifs at hReserve with hLists
  simp [hDepleted.nine,
    firstNonEmpty_eq_none.mpr hDepleted.above] at hReserve

/- A split pushes blocks below the order it starts from. -/
theorem splitTail_of_le
    {ind n : Nat}
    {block block' : Span}
    {fl fl' : FreeList}
    (hSplit : splitTail ind n block fl = some (block', fl'))
    {k : Nat}
    (hAbove : ind + n ≤ k) :
    fl' k = fl k := by
  induction n generalizing block fl with
  | zero =>
      simp only [splitTail, Option.some.injEq,
        Prod.mk.injEq] at hSplit
      rw [← hSplit.2]
  | succ n ih =>
      rw [splitTail] at hSplit
      simp only at hSplit
      split_ifs at hSplit
      rw [ih hSplit (by omega), pushBack,
        Function.update_of_ne (by omega)]

theorem Depleted.allocate
    (hDepleted : Depleted b)
    {bytes : Nat}
    {page : Option Nat}
    (hAllocate : b.allocate bytes = some (page, b')) :
    Depleted b' := by
  unfold Buddy.allocate at hAllocate
  simp only at hAllocate
  generalize hInd : orderOf (bytes / 4096) = ind at hAllocate
  cases hScan : b.firstNonEmpty ind with
  | some i =>
      rcases firstNonEmpty_eq_some hScan with
        ⟨hLow, hHigh, hSome⟩
      -- the block that is taken is below order 9
      have hSmall : i < 9 := by
        by_contra hLarge
        exact hSome (hDepleted.empty (by omega) hHigh)
      simp only [hScan, Option.getD_some] at hAllocate
      rw [if_neg (by omega)] at hAllocate
      cases hLast : (b.freeList i).getLast? with
      | none => simp [hLast] at hAllocate
      | some block =>
          simp only [hLast] at hAllocate
          cases hSplit : splitTail ind (i - ind) block
              (popBack b.freeList i) with
          | none => simp [hSplit] at hAllocate
          | some split =>
              rcases split with ⟨block', fl⟩
              simp only [hSplit, Option.some.injEq,
                Prod.mk.injEq] at hAllocate
              have hKept : ∀ k, 9 ≤ k → fl k = b.freeList k := by
                intro k hNine
                rw [splitTail_of_le hSplit (by omega), popBack,
                  Function.update_of_ne (by omega)]
              rw [← hAllocate.2]
              refine ⟨?_, ?_⟩
              · exact (hKept 9 (Nat.le_refl 9)).trans hDepleted.nine
              · intro k hTen hMax
                exact (hKept k (by omega)).trans
                  (hDepleted.above k hTen hMax)
  | none =>
      simp only [hScan, Option.getD_none] at hAllocate
      split_ifs at hAllocate with hEnd
      · simp only [Option.some.injEq, Prod.mk.injEq] at hAllocate
        exact hAllocate.2 ▸ hDepleted
      · -- an order beyond the maximum: one list loses a block
        have hBeyond : b.maxOrder + 1 < ind := by omega
        have hSame : max ind (b.maxOrder + 1) = ind := by omega
        rw [hSame, Nat.sub_self] at hAllocate
        cases hLast : (b.freeList ind).getLast? with
        | none => simp [hLast] at hAllocate
        | some block =>
            simp only [hLast, splitTail, Option.some.injEq,
              Prod.mk.injEq] at hAllocate
            have hNe : ind ≠ 9 := by
              intro hEq
              rw [hEq, hDepleted.nine] at hLast
              cases hLast
            rw [← hAllocate.2]
            refine ⟨?_, ?_⟩
            · exact (Function.update_of_ne hNe.symm _ _).trans
                hDepleted.nine
            · intro k hTen hMax
              refine (Function.update_of_ne ?_ _ _).trans
                (hDepleted.above k hTen hMax)
              simp only at hMax
              omega

/- Freeing a small block leaves the allocator depleted. -/
theorem Depleted.free
    (hDepleted : Depleted b)
    {start stop : Nat}
    (hSmall : orderOf (stop - start + 1) < 9) :
    Depleted (b.free start stop) := by
  refine ⟨?_, ?_⟩
  · exact (Function.update_of_ne (by omega) _ _).trans
      hDepleted.nine
  · intro k hTen hMax
    exact (Function.update_of_ne (by omega) _ _).trans
      (hDepleted.above k hTen hMax)

end Buddy

end Virtuoso
