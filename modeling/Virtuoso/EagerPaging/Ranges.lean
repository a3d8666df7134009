import Virtuoso.Buddy.Accounting
import Virtuoso.EagerPaging.Basic

/-
  What the range allocation returns.

  The ranges follow each other from the start of the VMA, and
  their frames are the blocks that the buddy allocator has
  given up. The ranges end before the VMA only when no page
  is free.

  Main declarations:
    * `EagerPaging.Tiles`
    * `EagerPaging.allocateRanges_tiles`
-/

namespace Virtuoso

namespace EagerPaging

open Span

/-
  The ranges follow each other from `vpn` to `stop`, each of
  a power of two of pages that fits `remaining`.
-/
def Tiles : Nat → Nat → List Range → Nat → Prop
| vpn, _, [], stop => vpn = stop
| vpn, remaining, range :: ranges, stop =>
    range.vpn = vpn ∧
      (∃ k, range.bounds = 2 ^ k) ∧
      range.bounds ≤ remaining ∧
      Tiles (vpn + range.bounds) (remaining - range.bounds)
        ranges stop

/- The frames of a range are a block that leaves the lists. -/
def IsTaken (b : Buddy) (range : Range) : Prop :=
  ∃ k ≤ b.maxOrder, range.bounds = 2 ^ k ∧
    Buddy.IsBlock b.base k range.frames

/- A page that the free lists have. -/
def Free (b : Buddy) (p : Nat) : Prop :=
  ∃ block ∈ b.listed, block.Has p

/-
  The frames of the ranges are blocks, pairwise disjoint, that
  the lists of `b` have and that of `b'` have no more; every
  other page is free as before.
-/
structure Takes
    (b b' : Buddy)
    (ranges : List Range) : Prop where
  blocks : ∀ range ∈ ranges, IsTaken b range
  apart : ranges.Pairwise (fun x y => x.frames.Apart y.frames)
  free : ∀ range ∈ ranges, ∀ p, range.frames.Has p → Free b p
  rest : ∀ p, Free b' p ↔
    Free b p ∧ ∀ range ∈ ranges, ¬ range.frames.Has p

section Blocks

variable {b b' : Buddy} {out : List Span}

/- A request for a block of an order the allocator has. -/
theorem allocate_order
    (hTiled : Buddy.Tiled b out)
    {order : Nat}
    (hOrder : order ≤ b.maxOrder) :
    (b.allocate (2 ^ order * 4096) = some (none, b) ∧
        ∀ i, order ≤ i → i ≤ b.maxOrder → b.freeList i = []) ∨
      ∃ ppn b',
        b.allocate (2 ^ order * 4096) = some (some ppn, b') ∧
          b'.geometry = b.geometry ∧
          Buddy.Tiled b' (⟨ppn, ppn + 2 ^ order - 1⟩ :: out) := by
  have hInd : Buddy.orderOf (2 ^ order * 4096 / 4096) = order := by
    rw [Nat.mul_div_cancel _ (by omega), Buddy.orderOf]
    exact Nat.clog_pow 2 order (by omega)
  have hSpec := Buddy.allocate_spec hTiled (2 ^ order * 4096)
    (by rw [hInd]; omega)
  rw [hInd] at hSpec
  exact hSpec

/-
  The inner loop finds a block that is no larger than asked
  for, unless no page is free.
-/
theorem tryOrders_spec
    (hTiled : Buddy.Tiled b out)
    {order : Nat}
    (hOrder : order ≤ b.maxOrder) :
    (tryOrders b order = some (none, b) ∧
        ∀ i, i ≤ b.maxOrder → b.freeList i = []) ∨
      ∃ k ppn b',
        tryOrders b order = some (some (k, ppn), b') ∧
          k ≤ order ∧
          b'.geometry = b.geometry ∧
          Buddy.Tiled b' (⟨ppn, ppn + 2 ^ k - 1⟩ :: out) := by
  induction order with
  | zero =>
      rcases allocate_order hTiled hOrder with
        ⟨hNone, hEmpty⟩ | ⟨ppn, b', hSome, hSame, hTiled'⟩
      · left
        refine ⟨by simp only [tryOrders, hNone], ?_⟩
        intro i hHigh
        exact hEmpty i (Nat.zero_le i) hHigh
      · right
        exact ⟨0, ppn, b', by simp only [tryOrders, hSome],
          Nat.le_refl 0, hSame, hTiled'⟩
  | succ order ih =>
      rcases allocate_order hTiled hOrder with
        ⟨hNone, -⟩ | ⟨ppn, b', hSome, hSame, hTiled'⟩
      · rcases ih (by omega) with
          ⟨hTry, hEmpty⟩ | ⟨k, ppn, b', hTry, hLe, hRest⟩
        · left
          exact ⟨by simp only [tryOrders, hNone, hTry], hEmpty⟩
        · right
          exact ⟨k, ppn, b', by simp only [tryOrders, hNone, hTry],
            by omega, hRest⟩
      · right
        exact ⟨order + 1, ppn, b',
          by simp only [tryOrders, hSome], Nat.le_refl _, hSame,
          hTiled'⟩

/- A block of a power of two of pages has that order. -/
theorem isBlock_of_tiled
    (hSame : b'.geometry = b.geometry)
    {k ppn : Nat}
    (hTiled : Buddy.Tiled b' (⟨ppn, ppn + 2 ^ k - 1⟩ :: out)) :
    Buddy.IsBlock b.base k ⟨ppn, ppn + 2 ^ k - 1⟩ := by
  simp only [Buddy.geometry, Prod.mk.injEq] at hSame
  rcases hTiled.handed _ List.mem_cons_self with
    ⟨j, -, hBlock⟩
  have hSize := hBlock.size
  have hPos : 0 < 2 ^ k := Nat.two_pow_pos k
  have hPow : 2 ^ j = 2 ^ k := by
    simp only at hSize
    omega
  have hEq : j = k := Nat.pow_right_injective (by omega) hPow
  subst hEq
  rw [Buddy.base, ← hSame.2.2, ← Buddy.base]
  exact hBlock

theorem isTaken_congr
    (hSame : b'.geometry = b.geometry)
    (range : Range) :
    IsTaken b' range ↔ IsTaken b range := by
  simp only [Buddy.geometry, Prod.mk.injEq] at hSame
  rw [IsTaken, IsTaken, Buddy.base, Buddy.base, hSame.2.1,
    hSame.2.2]

/-
  What the outer loop returns: the blocks that it takes are
  handed out, and it stops early only without a free page.
-/
theorem allocateFrom_spec
    {fuel remaining : Nat}
    (hTiled : Buddy.Tiled b out)
    (hFuel : remaining ≤ fuel)
    (currentVpn : Nat) :
    ∃ ranges b' stop,
      allocateFrom fuel currentVpn remaining b = some (ranges, b') ∧
        b'.geometry = b.geometry ∧
        Tiles currentVpn remaining ranges stop ∧
        Buddy.Tiled b' ((ranges.map Range.frames).reverse ++ out) ∧
        (∀ range ∈ ranges, IsTaken b range) ∧
        (stop = currentVpn + remaining ∨
          stop < currentVpn + remaining ∧
            ∀ i, i ≤ b'.maxOrder → b'.freeList i = []) := by
  induction fuel generalizing currentVpn remaining b out with
  | zero =>
      have hDone : remaining = 0 := Nat.le_zero.mp hFuel
      refine ⟨[], b, currentVpn, ?_, rfl, rfl, hTiled,
        by simp, Or.inl (by omega)⟩
      rw [allocateFrom, if_pos hDone]
  | succ fuel ih =>
      by_cases hDone : remaining = 0
      · refine ⟨[], b, currentVpn, ?_, rfl, rfl, hTiled,
          by simp, Or.inl (by omega)⟩
        rw [allocateFrom, if_pos hDone]
      · have hOrder :
            min (Nat.log 2 remaining) b.maxOrder ≤ b.maxOrder :=
          Nat.min_le_right _ _
        rcases tryOrders_spec hTiled hOrder with
          ⟨hTry, hEmpty⟩ | ⟨k, ppn, b₁, hTry, hLe, hSame, hTiled₁⟩
        · refine ⟨[], b, currentVpn, ?_, rfl, rfl, hTiled,
            by simp, Or.inr ⟨by omega, hEmpty⟩⟩
          simp only [allocateFrom, if_neg hDone, hTry]
        · have hPos : 0 < 2 ^ k := Nat.two_pow_pos k
          have hFits : 2 ^ k ≤ remaining := by
            have hLog : k ≤ Nat.log 2 remaining := by omega
            exact (Nat.pow_le_pow_right (by omega) hLog).trans
              (Nat.pow_log_le_self 2 hDone)
          have hLess : remaining - 2 ^ k ≤ fuel := by omega
          rcases ih hTiled₁ hLess (currentVpn + 2 ^ k) with
            ⟨ranges, b', stop, hRest, hSame', hTiles, hTiled',
              hTaken, hStop⟩
          refine ⟨⟨currentVpn, 2 ^ k, ppn⟩ :: ranges, b',
            stop, ?_, hSame'.trans hSame,
            ⟨rfl, ⟨k, rfl⟩, hFits, hTiles⟩, ?_, ?_, ?_⟩
          · simp only [allocateFrom, if_neg hDone, hTry, hRest]
          · rw [List.map_cons, List.reverse_cons, List.append_assoc]
            exact hTiled'
          · intro range hMem
            rcases List.mem_cons.mp hMem with hHead | hTail
            · rw [hHead]
              exact ⟨k, by omega, rfl,
                isBlock_of_tiled hSame hTiled₁⟩
            · exact (isTaken_congr hSame range).mp
                (hTaken range hTail)
          · have hEnd : currentVpn + 2 ^ k +
                (remaining - 2 ^ k) = currentVpn + remaining := by
              omega
            rw [hEnd] at hStop
            exact hStop

theorem exists_has_map
    (f : Range → Span)
    (ranges : List Range)
    (p : Nat) :
    (∃ s ∈ ranges.map f, s.Has p) ↔
      ∃ range ∈ ranges, (f range).Has p := by
  simp

/- Blocks that are handed out are taken from the lists. -/
theorem takes_of_tiled
    {ranges : List Range}
    (hSame : b'.geometry = b.geometry)
    (hTiled : Buddy.Tiled b out)
    (hTiled' : Buddy.Tiled b'
      ((ranges.map Range.frames).reverse ++ out))
    (hTaken : ∀ range ∈ ranges, IsTaken b range) :
    Takes b b' ranges := by
  have hFields := hSame
  simp only [Buddy.geometry, Prod.mk.injEq] at hFields
  have hMoved : ∀ p,
      Buddy.freeCoverage b'.maxOrder b'.freeList p +
          coverage (ranges.map Range.frames) p =
        Buddy.freeCoverage b.maxOrder b.freeList p := by
    intro p
    have hBefore := hTiled.tiled p
    have hAfter := hTiled'.tiled p
    rw [coverage_append,
      coverage_perm (List.reverse_perm _) p,
      Buddy.base, Buddy.limit, hFields.1, hFields.2.2,
      ← Buddy.base, ← Buddy.limit] at hAfter
    omega
  have hFree : ∀ p, Free b p ↔
      0 < Buddy.freeCoverage b.maxOrder b.freeList p := by
    intro p
    rw [Free, Buddy.listed_of_shelved hTiled.shelved,
      exists_has_iff, Buddy.freeCoverage]
  have hFree' : ∀ p, Free b' p ↔
      0 < Buddy.freeCoverage b'.maxOrder b'.freeList p := by
    intro p
    rw [Free, Buddy.listed_of_shelved hTiled'.shelved,
      exists_has_iff, Buddy.freeCoverage]
  have hOnce : ∀ p, coverage (ranges.map Range.frames) p ≤ 1 := by
    intro p
    have hMove := hMoved p
    have hTile := hTiled.once p
    omega
  have hFrames : ∀ p,
      0 < coverage (ranges.map Range.frames) p ↔
        ∃ range ∈ ranges, range.frames.Has p := by
    intro p
    rw [← exists_has_iff]
    exact exists_has_map Range.frames ranges p
  refine ⟨hTaken, ?_, ?_, ?_⟩
  · exact List.pairwise_map.mp (pairwise_apart hOnce)
  · intro range hMem p hHas
    have hPos := (hFrames p).mpr ⟨range, hMem, hHas⟩
    have hMove := hMoved p
    rw [hFree]
    omega
  · intro p
    have hMove := hMoved p
    have hTile := hTiled.once p
    have hNone : (∀ range ∈ ranges, ¬ range.frames.Has p) ↔
        ¬ 0 < coverage (ranges.map Range.frames) p := by
      rw [hFrames]
      push Not
      rfl
    rw [hFree, hFree', hNone]
    omega

end Blocks

section Pages

variable {ranges : List Range}

/- Ranges that tile cover each page up to the end once. -/
theorem coverage_of_tiles
    {vpn remaining stop : Nat}
    (hTiles : Tiles vpn remaining ranges stop)
    (p : Nat) :
    vpn ≤ stop ∧
      coverage (ranges.map Range.pages) p =
        if vpn ≤ p ∧ p < stop then 1 else 0 := by
  induction ranges generalizing vpn remaining with
  | nil =>
      have hEq : vpn = stop := hTiles
      rw [List.map_nil, coverage_nil, if_neg (by omega)]
      exact ⟨by omega, rfl⟩
  | cons range ranges ih =>
      rcases hTiles with ⟨hVpn, ⟨k, hBounds⟩, -, hRest⟩
      rcases ih hRest with ⟨hLe, hCover⟩
      have hPos : 0 < 2 ^ k := Nat.two_pow_pos k
      refine ⟨by omega, ?_⟩
      rw [List.map_cons, coverage_cons, hCover, Range.pages,
        covers_mk]
      split_ifs <;> omega

/- Ranges that tile are disjoint and have all pages. -/
theorem pages_of_tiles
    {vpn remaining stop : Nat}
    (hTiles : Tiles vpn remaining ranges stop) :
    ranges.Pairwise (fun x y => x.pages.Apart y.pages) ∧
      ∀ p, (∃ range ∈ ranges, range.pages.Has p) ↔
        vpn ≤ p ∧ p < stop := by
  constructor
  · apply List.pairwise_map.mp
    apply pairwise_apart
    intro p
    rw [(coverage_of_tiles hTiles p).2]
    split <;> omega
  · intro p
    rw [← exists_has_map Range.pages ranges p,
      exists_has_iff, (coverage_of_tiles hTiles p).2]
    split <;> omega

end Pages

/-
  From lists that satisfy the invariant, the ranges of a VMA
  follow each other from its start, are powers of two that
  fit what remains and are disjoint, their frames are blocks
  taken from the lists, and they have the whole VMA, or the
  pages before the one at which no page is free any more.
-/
theorem allocateRanges_tiles
    {b : Buddy}
    {out : List Span}
    (hInv : Buddy.FreeListInv b.memorySize b.maxOrder
      b.kernelSize ⟨b, out⟩)
    {startVa endVa : Nat}
    (hStart : 4096 ∣ startVa)
    (hEnd : 4096 ∣ endVa)
    (hOrder : startVa ≤ endVa)
    (_hPages : (endVa - startVa) / 4096 < 2 ^ 31) :
    ∃ ranges b' stop,
      allocateRanges b startVa endVa = some (ranges, b') ∧
        Tiles (startVa / 4096) ((endVa - startVa) / 4096)
          ranges stop ∧
        ranges.Pairwise (fun x y => x.pages.Apart y.pages) ∧
        (∀ p, (∃ range ∈ ranges, range.pages.Has p) ↔
          startVa / 4096 ≤ p ∧ p < stop) ∧
        Takes b b' ranges ∧
        (stop = endVa / 4096 ∨
          stop < endVa / 4096 ∧ ∀ p, ¬ Free b' p) := by
  have hTiled := Buddy.tiled_of_freeListInv hInv
  have hSum : startVa / 4096 + (endVa - startVa) / 4096 =
      endVa / 4096 := by
    omega
  rcases allocateFrom_spec hTiled
      (Nat.le_refl ((endVa - startVa) / 4096))
      (startVa / 4096) with
    ⟨ranges, b', stop, hAllocate, hSame, hTiles, hTiled',
      hTaken, hStop⟩
  rcases pages_of_tiles hTiles with ⟨hApart, hHas⟩
  rw [hSum] at hStop
  refine ⟨ranges, b', stop, hAllocate, hTiles, hApart, hHas,
    takes_of_tiled hSame hTiled hTiled' hTaken, ?_⟩
  rcases hStop with hWhole | ⟨hShort, hEmpty⟩
  · exact Or.inl hWhole
  · refine Or.inr ⟨hShort, ?_⟩
    rintro p ⟨block, hMem, -⟩
    rw [Buddy.listed_of_shelved hTiled'.shelved] at hMem
    rcases mem_shelves.mp hMem with ⟨k, hLt, hList⟩
    rw [hEmpty k (by omega)] at hList
    cases hList

/- A VMA of five pages in a memory of one megabyte. -/
theorem allocateRanges_tiles_five :
    ∃ b, Buddy.construct 1 9 0 = some b ∧
      ∃ ranges b' stop,
        allocateRanges b 8192 28672 = some (ranges, b') ∧
          Tiles 2 5 ranges stop ∧
          ranges.Pairwise (fun x y => x.pages.Apart y.pages) ∧
          (∀ p, (∃ range ∈ ranges, range.pages.Has p) ↔
            2 ≤ p ∧ p < stop) ∧
          Takes b b' ranges ∧
          (stop = 7 ∨ stop < 7 ∧ ∀ p, ¬ Free b' p) := by
  have hSome : ∃ b, Buddy.construct 1 9 0 = some b :=
    ⟨_, rfl⟩
  rcases hSome with ⟨b, hConstruct⟩
  exact ⟨b, hConstruct, allocateRanges_tiles
    (Buddy.freeListInv_construct hConstruct) (by decide)
    (by decide) (by decide) (by decide)⟩

end EagerPaging

end Virtuoso
