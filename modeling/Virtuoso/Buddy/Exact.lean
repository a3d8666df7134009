import Virtuoso.Buddy.Within

/-
  Free lists whose blocks have the size of their order.

  Blocks of the exact size can always be split, so that the
  operations on them have an outcome. Nothing is asked of
  their places: blocks may overlap or lie at odd pages, as
  they do after a region of `ReservationTHPAllocator` was
  demoted.

  Main declarations:
    * `Buddy.Exact.allocate`
    * `Buddy.exact_of_tiled`
-/

namespace Virtuoso

namespace Buddy

/- Every listed block has the pages of its order. -/
def Exact (maxOrder : Nat) (fl : FreeList) : Prop :=
  ∀ k, ∀ block ∈ fl k,
    k ≤ maxOrder ∧ block.stop + 1 = block.start + 2 ^ k

variable {maxOrder : Nat} {fl : FreeList} {b : Buddy}

theorem Exact.update
    (hExact : Exact maxOrder fl)
    {k : Nat}
    {l : List Span}
    (hList : ∀ block ∈ l,
      k ≤ maxOrder ∧ block.stop + 1 = block.start + 2 ^ k) :
    Exact maxOrder (Function.update fl k l) := by
  intro i block hMem
  by_cases hEq : i = k
  · subst hEq
    rw [Function.update_self] at hMem
    exact hList block hMem
  · rw [Function.update_of_ne hEq] at hMem
    exact hExact i block hMem

theorem Exact.pushBack
    (hExact : Exact maxOrder fl)
    {k : Nat}
    (block : Span)
    (hLe : k ≤ maxOrder)
    (hSize : block.stop + 1 = block.start + 2 ^ k) :
    Exact maxOrder (Buddy.pushBack fl k block) := by
  apply hExact.update
  intro other hMem
  rcases List.mem_append.mp hMem with hOld | hNew
  · exact hExact k other hOld
  · rw [List.mem_singleton.mp hNew]
    exact ⟨hLe, hSize⟩

theorem Exact.popBack
    (hExact : Exact maxOrder fl)
    (k : Nat) :
    Exact maxOrder (Buddy.popBack fl k) := by
  apply hExact.update
  intro block hMem
  exact hExact k block (List.dropLast_subset _ hMem)

/- A block of an exact size can be split down to any order. -/
theorem Exact.splitTail
    (hExact : Exact maxOrder fl)
    (ind n : Nat)
    (block : Span)
    (hLe : ind + n ≤ maxOrder)
    (hSize : block.stop + 1 = block.start + 2 ^ (ind + n)) :
    ∃ block' fl',
      Buddy.splitTail ind n block fl = some (block', fl') ∧
        Exact maxOrder fl' := by
  induction n generalizing block fl with
  | zero => exact ⟨block, fl, rfl, hExact⟩
  | succ n ih =>
      have hPos : 0 < 2 ^ (ind + n) :=
        Nat.two_pow_pos (ind + n)
      have hDouble : 2 ^ (ind + (n + 1)) = 2 * 2 ^ (ind + n) := by
        rw [← Nat.add_assoc, Nat.pow_succ]
        omega
      rw [hDouble] at hSize
      have hMid : midPoint block + 1 =
          block.start + 2 ^ (ind + n) := by
        unfold midPoint
        omega
      have hAssert :
          block.stop - (midPoint block + 1) + 1 =
            2 ^ (ind + n) := by
        omega
      have hUpper : block.stop + 1 =
          midPoint block + 1 + 2 ^ (ind + n) := by
        omega
      have hOrder : ind + n ≤ maxOrder := by omega
      rcases ih (hExact.pushBack
          ⟨block.start, midPoint block⟩ hOrder hMid)
          ⟨midPoint block + 1, block.stop⟩ hOrder hUpper with
        ⟨block', fl', hSplit, hExact'⟩
      refine ⟨block', fl', ?_, hExact'⟩
      simpa [Buddy.splitTail, hAssert] using hSplit

/-
  An allocation returns nothing when no list from its order
  on has a block, and a page otherwise.
-/
theorem Exact.allocate
    (hExact : Exact b.maxOrder b.freeList)
    (bytes : Nat)
    (hOrder : orderOf (bytes / 4096) ≤ b.maxOrder + 1) :
    (b.allocate bytes = some (none, b) ∧
        ∀ i, orderOf (bytes / 4096) ≤ i → i ≤ b.maxOrder →
          b.freeList i = []) ∨
      ∃ page b',
        b.allocate bytes = some (some page, b') ∧
          b'.geometry = b.geometry ∧
          Exact b'.maxOrder b'.freeList := by
  set ind := orderOf (bytes / 4096) with hInd
  cases hScan : b.firstNonEmpty ind with
  | none =>
      left
      refine ⟨?_, firstNonEmpty_eq_none.mp hScan⟩
      have hMax : max ind (b.maxOrder + 1) = b.maxOrder + 1 :=
        Nat.max_eq_right hOrder
      simp [Buddy.allocate, ← hInd, hScan, hMax]
  | some i =>
      right
      rcases firstNonEmpty_eq_some hScan with
        ⟨hLow, hHigh, hSome⟩
      have hNe : i ≠ b.maxOrder + 1 := by omega
      rcases Option.ne_none_iff_exists'.mp
          (mt List.getLast?_eq_none_iff.mp hSome) with
        ⟨block, hLast⟩
      have hSum : ind + (i - ind) = i := by omega
      have hBlock := hExact i block (List.mem_of_getLast? hLast)
      rcases (hExact.popBack i).splitTail ind (i - ind) block
          (by omega) (hSum.symm ▸ hBlock.2) with
        ⟨block', fl, hSplit, hExact'⟩
      refine ⟨block'.start,
        { b with
          freeList := fl
          freePages := sub64 b.freePages (2 ^ ind) },
        ?_, rfl, hExact'⟩
      simp [Buddy.allocate, ← hInd, hScan, hNe, hLast, hSplit]

/-
  A reservation of 2MB returns nothing and changes nothing,
  or returns a block.
-/
theorem Exact.reserve2mbPage
    (hExact : Exact b.maxOrder b.freeList)
    (hLists : 4 ≤ b.maxOrder) :
    b.reserve2mbPage = some (none, b) ∨
      ∃ block b',
        b.reserve2mbPage = some (some block, b') ∧
          b'.geometry = b.geometry ∧
          Exact b'.maxOrder b'.freeList := by
  have hSize : ¬ 2 * (b.maxOrder + 1) ≤ 9 := by omega
  cases hLast : (b.freeList 9).getLast? with
  | some block =>
      right
      refine ⟨block,
        { b with freeList := Buddy.popBack b.freeList 9 },
        ?_, rfl, hExact.popBack 9⟩
      simp [Buddy.reserve2mbPage, hSize, hLast]
  | none =>
      cases hScan : b.firstNonEmpty 10 with
      | none =>
          left
          simp [Buddy.reserve2mbPage, hSize, hLast, hScan]
      | some i =>
          right
          rcases firstNonEmpty_eq_some hScan with
            ⟨hLow, hHigh, hSome⟩
          rcases List.exists_cons_of_ne_nil hSome with
            ⟨temp, rest, hList⟩
          have hTemp := hExact i temp (by simp [hList])
          set fl := Function.update b.freeList i rest with hFl
          set pieces := Span.chop temp.start 512
            ((temp.stop - temp.start + 1) / 512) with hPieces
          have hRest : Exact b.maxOrder fl := by
            apply hExact.update
            intro block hMem
            exact hExact i block (by simp [hList, hMem])
          have hChopped : Exact b.maxOrder
              (Function.update fl 9 (fl 9 ++ pieces)) := by
            apply hRest.update
            intro block hMem
            rcases List.mem_append.mp hMem with hOld | hNew
            · exact hRest 9 block hOld
            · rcases Span.mem_chop hNew with ⟨j, -, hEq⟩
              rw [hEq]
              exact ⟨by omega, by simp only; omega⟩
          have hCount : 0 < (temp.stop - temp.start + 1) / 512 := by
            have hLe : (2 : Nat) ^ 10 ≤ 2 ^ i :=
              Nat.pow_le_pow_right (by decide) hLow
            apply Nat.div_pos _ (by decide)
            omega
          have hSome' : Function.update fl 9
              (fl 9 ++ pieces) 9 ≠ [] := by
            rw [Function.update_self, hPieces]
            simp [Span.chop]
            omega
          rcases Option.ne_none_iff_exists'.mp
              (mt List.getLast?_eq_none_iff.mp hSome') with
            ⟨block, hLast'⟩
          refine ⟨block,
            { b with
              freeList := Buddy.popBack (Function.update fl 9
                (fl 9 ++ pieces)) 9 },
            ?_, rfl, hChopped.popBack 9⟩
          simp only [Buddy.reserve2mbPage, hSize, hLast,
            hScan, hList, if_false, ← hFl, ← hPieces,
            hLast']

/- A block of two pages is put back. -/
theorem Exact.free
    (hExact : Exact b.maxOrder b.freeList)
    (hOrders : 1 ≤ b.maxOrder)
    (start : Nat) :
    Exact (b.free start (start + 1)).maxOrder
      (b.free start (start + 1)).freeList := by
  have hOrder : orderOf (start + 1 - start + 1) = 1 := by
    rw [Nat.add_sub_cancel_left]
    decide
  simp only [Buddy.free, hOrder]
  exact hExact.pushBack _ hOrders (by simp only; omega)

/- Lists that tile the memory, as those of a new allocator. -/
theorem exact_of_tiled
    {out : List Span}
    (hTiled : Tiled b out) :
    Exact b.maxOrder b.freeList := by
  intro k block hMem
  rcases hTiled.shelved k block hMem with ⟨hLe, hBlock⟩
  exact ⟨hLe, hBlock.size⟩

theorem within_of_tiled
    {out : List Span}
    (hTiled : Tiled b out) :
    Within b.base (fun _ => b.limit) b.freeList := by
  intro k block hMem
  rcases hTiled.shelved k block hMem with ⟨hOrder, hBlock⟩
  have hSize := hBlock.size
  have hPos : 0 < 2 ^ k := Nat.two_pow_pos k
  have hRange : ∀ p, block.Has p → b.base ≤ p ∧ p < b.limit := by
    intro p hHas
    have hListed : 0 < freeCoverage b.maxOrder b.freeList p := by
      rw [freeCoverage, ← Span.exists_has_iff]
      exact ⟨block, Span.mem_shelves.mpr ⟨k, by omega, hMem⟩, hHas⟩
    exact hTiled.in_range (by omega)
  have hFirst := hRange block.start ⟨by omega, by omega⟩
  have hLast := hRange block.stop ⟨by omega, by omega⟩
  exact ⟨hFirst.1, by simp only; omega, by omega, by omega⟩

end Buddy

end Virtuoso
