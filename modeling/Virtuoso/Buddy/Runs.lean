import Virtuoso.Buddy.Invariant
import Virtuoso.Lib.Run

/-
  Runs of the buddy allocator.

  The system is the allocator together with the blocks that
  it has returned and that have not been freed. The free-list
  invariant holds in every reachable state of a run exactly
  when the run asks for no block beyond twice the largest
  block: a larger request passes the test for exhaustion and
  reads the back of an empty list.

  Main declarations:
    * `Buddy.Heap`
    * `Buddy.upper_of_allocate`
-/

------------------------------------------------------------
-- The System And Its Invariants
------------------------------------------------------------

namespace Virtuoso

namespace Buddy

open Span

/- The allocator and the blocks it has handed out. -/
structure Heap where
  buddy : Buddy
  outstanding : List Span

/- A call of the allocator. -/
inductive Op
  | allocate (bytes : Nat)
  | reserve2mbPage
  | checkIfFree (page : Nat) (allocate : Bool)
  | fragmentMemory (draw : Nat)
  | fragmentMemoryToTargetCount (draw : Nat)
  | free (block : Span)
deriving DecidableEq

/- Perform one call and record what it returns. -/
def step (s : Heap) : Op → Option Heap
| .allocate bytes =>
    match s.buddy.allocate bytes with
    | none => none
    | some (none, b) => some ⟨b, s.outstanding⟩
    | some (some page, b) =>
        some ⟨b,
          ⟨page, page + 2 ^ orderOf (bytes / 4096) - 1⟩ ::
            s.outstanding⟩
| .reserve2mbPage =>
    match s.buddy.reserve2mbPage with
    | none => none
    | some (none, b) => some ⟨b, s.outstanding⟩
    | some (some block, b) =>
        some ⟨b, block :: s.outstanding⟩
| .checkIfFree page allocate =>
    let r := s.buddy.checkIfFree page allocate
    some ⟨r.2,
      if r.1 && allocate then
        ⟨page, page⟩ :: s.outstanding
      else
        s.outstanding⟩
| .fragmentMemory draw =>
    some ⟨s.buddy.fragmentMemoryStep draw, s.outstanding⟩
| .fragmentMemoryToTargetCount draw =>
    some ⟨s.buddy.fragmentMemoryToTargetCountStep draw,
      s.outstanding⟩
| .free block =>
    some ⟨s.buddy.free block.start block.stop,
      s.outstanding.erase block⟩

/-
  The calls a caller makes: whole pages are requested and
  only an outstanding block is freed.
-/
def Permitted (s : Heap) : Op → Prop
| .allocate bytes => 0 < bytes ∧ 4096 ∣ bytes
| .free block => block ∈ s.outstanding
| _ => True

instance
    (s : Heap)
    (op : Op) :
    Decidable (Permitted s op) :=
  match op with
  | .allocate bytes =>
      inferInstanceAs (Decidable (0 < bytes ∧ 4096 ∣ bytes))
  | .free block =>
      inferInstanceAs (Decidable (block ∈ s.outstanding))
  | .reserve2mbPage => isTrue trivial
  | .checkIfFree _ _ => isTrue trivial
  | .fragmentMemory _ => isTrue trivial
  | .fragmentMemoryToTargetCount _ => isTrue trivial

/- A request for at most `2 ^ (maxOrder + 1)` pages. -/
def Op.WithinTwice (maxOrder : Nat) : Op → Prop
| .allocate bytes => bytes / 4096 ≤ 2 ^ (maxOrder + 1)
| _ => True

/-
  The free-list representation invariant, for the sizes the
  allocator was constructed with.
-/
structure FreeListInv
    (memorySize maxOrder kernelSize : Nat)
    (s : Heap) : Prop where
  orders : ∀ k, maxOrder < k → s.buddy.freeList k = []
  size : ∀ k, ∀ block ∈ s.buddy.freeList k,
    block.stop + 1 = block.start + 2 ^ k
  aligned : ∀ k, ∀ block ∈ s.buddy.freeList k,
    block.start ≡ kernelSize * 256 [MOD 2 ^ k]
  disjoint :
    (shelves s.buddy.freeList (maxOrder + 1)).Pairwise Apart
  bounded : ∀ k, ∀ block ∈ s.buddy.freeList k,
    kernelSize * 256 ≤ block.start ∧ block.stop < memorySize * 256
  outstanding : ∀ k, ∀ block ∈ s.buddy.freeList k,
    ∀ used ∈ s.outstanding, block.Apart used
  covered : ∀ p, kernelSize * 256 ≤ p →
    p < memorySize * 256 →
      (∃ k, ∃ block ∈ s.buddy.freeList k, block.Has p) ∨
        ∃ used ∈ s.outstanding, used.Has p

/- The invariant that carries the induction over a run. -/
def Inv (geometry : Nat × Nat × Nat) (s : Heap) : Prop :=
  Tiled s.buddy s.outstanding ∧ s.buddy.geometry = geometry

theorem pagesInMb_eq
    (mb : Nat) :
    pagesInMb mb = mb * 256 := by
  unfold pagesInMb
  omega

variable {memorySize maxOrder kernelSize : Nat}

/- The tiling invariant gives the representation invariant. -/
theorem freeListInv_of_inv
    {s : Heap}
    (hInv : Inv (memorySize, maxOrder, kernelSize) s) :
    FreeListInv memorySize maxOrder kernelSize s := by
  rcases hInv with ⟨hTiled, hGeometry⟩
  simp only [geometry, Prod.mk.injEq] at hGeometry
  rcases hGeometry with ⟨hMemory, hOrder, hKernel⟩
  have hBase : s.buddy.base = kernelSize * 256 := by
    rw [Buddy.base, hKernel, pagesInMb_eq]
  have hLimit : s.buddy.limit = memorySize * 256 := by
    rw [Buddy.limit, hMemory, pagesInMb_eq]
  have hOn : ∀ {k : Nat} {block : Span},
      block ∈ s.buddy.freeList k →
        block ∈ shelves s.buddy.freeList
          (s.buddy.maxOrder + 1) := by
    intro k block hMem
    have hLe := (hTiled.shelved k block hMem).1
    exact mem_shelves.mpr ⟨k, Nat.lt_succ_of_le hLe, hMem⟩
  have hRange : ∀ {k : Nat} {block : Span} {p : Nat},
      block ∈ s.buddy.freeList k → block.Has p →
        s.buddy.base ≤ p ∧ p < s.buddy.limit := by
    intro k block p hMem hHas
    have hPos := one_le_coverage (hOn hMem) hHas
    apply hTiled.in_range
    unfold freeCoverage
    omega
  refine
    { orders := ?_
      size := fun k block hMem =>
        (hTiled.shelved k block hMem).2.size
      aligned := fun k block hMem => hBase ▸
        (hTiled.shelved k block hMem).2.aligned
      disjoint := ?_
      bounded := ?_
      outstanding := ?_
      covered := ?_ }
  · intro k hLt
    apply List.eq_nil_iff_forall_not_mem.mpr
    intro block hMem
    have := (hTiled.shelved k block hMem).1
    omega
  · rw [← hOrder]
    apply pairwise_apart
    intro p
    have := hTiled.once p
    unfold freeCoverage at this
    omega
  · intro k block hMem
    have hSize := (hTiled.shelved k block hMem).2.size
    have hPos : 0 < 2 ^ k := Nat.two_pow_pos k
    have hFirst := hRange hMem
      (show block.Has block.start from ⟨Nat.le_refl _, by omega⟩)
    have hLast := hRange hMem
      (show block.Has block.stop from ⟨by omega, Nat.le_refl _⟩)
    exact ⟨hBase ▸ hFirst.1, hLimit ▸ hLast.2⟩
  · intro k block hMem used hUsed
    exact apart_of_coverage hTiled.once (hOn hMem) hUsed
  · intro p hLow hHigh
    have hOne := hTiled.tiled p
    rw [hBase, hLimit, if_pos ⟨hLow, hHigh⟩] at hOne
    by_cases hFree :
        0 < freeCoverage s.buddy.maxOrder s.buddy.freeList p
    · left
      rcases exists_of_coverage_pos hFree with
        ⟨block, hMem, hHas⟩
      rcases mem_shelves.mp hMem with ⟨k, -, hMem'⟩
      exact ⟨k, block, hMem', hHas⟩
    · right
      exact exists_of_coverage_pos (by omega)

/- A new allocator satisfies the representation invariant. -/
theorem freeListInv_construct
    {b : Buddy}
    (hConstruct :
      construct memorySize maxOrder kernelSize = some b) :
    FreeListInv b.memorySize b.maxOrder b.kernelSize ⟨b, []⟩ :=
  freeListInv_of_inv ⟨tiled_construct hConstruct, rfl⟩

/- The representation invariant has valid lists. -/
theorem FreeListInv.shelved
    {s : Heap}
    (hInv : FreeListInv memorySize maxOrder kernelSize s) :
    Shelved (kernelSize * 256) maxOrder s.buddy.freeList := by
  intro k block hMem
  refine ⟨?_, hInv.size k block hMem, hInv.aligned k block hMem⟩
  by_contra hAbove
  rw [hInv.orders k (by omega)] at hMem
  cases hMem

section Lists

variable {b : Buddy}

/- The pages that no list has, each as a block. -/
def unlisted (b : Buddy) : List Span :=
  ((List.range b.limit).filter (fun p =>
    decide (b.base ≤ p ∧
      freeCoverage b.maxOrder b.freeList p = 0))).map
    (fun p => ⟨p, p⟩)

theorem coverage_singles
    {pages : List Nat}
    (hNodup : pages.Nodup)
    (p : Nat) :
    coverage (pages.map (fun q => ⟨q, q⟩)) p =
      if p ∈ pages then 1 else 0 := by
  induction pages with
  | nil => simp
  | cons q pages ih =>
      rcases List.nodup_cons.mp hNodup with ⟨hNew, hRest⟩
      rw [List.map_cons, coverage_cons, covers_self, ih hRest]
      by_cases hEq : p = q
      · subst hEq
        simp [hNew]
      · simp [hEq]

/-
  Lists that satisfy the representation invariant tile the
  memory together with the pages that they do not have.
-/
theorem tiled_of_freeListInv
    {out : List Span}
    (hInv : FreeListInv b.memorySize b.maxOrder b.kernelSize
      ⟨b, out⟩) :
    Tiled b b.unlisted := by
  have hBase : b.base = b.kernelSize * 256 := by
    rw [base, pagesInMb_eq]
  have hLimit : b.limit = b.memorySize * 256 := by
    rw [limit, pagesInMb_eq]
  refine ⟨hBase ▸ hInv.shelved, ?_, ?_⟩
  · intro block hMem
    rcases List.mem_map.mp hMem with ⟨p, -, hEq⟩
    refine ⟨0, Nat.zero_le _, ?_⟩
    rw [← hEq]
    exact ⟨rfl, by simp [Nat.ModEq, Nat.mod_one]⟩
  · intro p
    have hNodup := List.Nodup.filter
      (fun p => decide (b.base ≤ p ∧
        freeCoverage b.maxOrder b.freeList p = 0))
      (List.nodup_range (n := b.limit))
    rw [unlisted, coverage_singles hNodup]
    simp only [List.mem_filter, List.mem_range, decide_eq_true_eq]
    by_cases hFree : freeCoverage b.maxOrder b.freeList p = 0
    · have hPage : (p < b.limit ∧ b.base ≤ p ∧
          freeCoverage b.maxOrder b.freeList p = 0) ↔
            b.base ≤ p ∧ p < b.limit := by
        omega
      rw [if_congr hPage rfl rfl, hFree, Nat.zero_add]
    · have hOnce : freeCoverage b.maxOrder b.freeList p ≤ 1 :=
        coverage_le_one hInv.disjoint p
      rcases exists_of_coverage_pos (Nat.pos_of_ne_zero hFree) with
        ⟨block, hMem, hLow, hHigh⟩
      rcases mem_shelves.mp hMem with ⟨k, -, hList⟩
      have hBounds := hInv.bounded k block hList
      rw [if_neg (fun hPage => hFree hPage.2.2), if_pos (by omega)]
      omega

end Lists

------------------------------------------------------------
-- Steps And Runs
------------------------------------------------------------

variable {geometry : Nat × Nat × Nat} {s : Heap}

/- The order of a request of at most twice the largest block. -/
theorem orderOf_le_iff
    (pages maxOrder : Nat) :
    orderOf pages ≤ maxOrder + 1 ↔ pages ≤ 2 ^ (maxOrder + 1) :=
  Nat.clog_le_iff_le_pow (by omega)

/- Every permitted call within the bound keeps the invariant. -/
theorem step_total
    {op : Op}
    (hLists : op = .reserve2mbPage → 4 ≤ s.buddy.maxOrder)
    (hInv : Inv geometry s)
    (hPermitted : Permitted s op)
    (hWithin : op.WithinTwice s.buddy.maxOrder) :
    ∃ s', step s op = some s' ∧ Inv geometry s' := by
  rcases hInv with ⟨hTiled, hGeometry⟩
  cases op with
  | allocate bytes =>
      have hOrder := (orderOf_le_iff (bytes / 4096)
        s.buddy.maxOrder).mpr hWithin
      rcases allocate_spec hTiled bytes hOrder with
        ⟨hNone, -⟩ | ⟨page, b, hSome, hSame, hTiled'⟩
      · refine ⟨s, ?_, hTiled, hGeometry⟩
        simp [step, hNone]
      · refine ⟨_, by simp only [step, hSome]; rfl, ?_⟩
        exact ⟨hTiled', hSame.trans hGeometry⟩
  | reserve2mbPage =>
      rcases reserve2mbPage_spec hTiled (hLists rfl) with
        ⟨hNone, -⟩ | ⟨block, b, hSome, hSame, -, hTiled'⟩
      · refine ⟨s, ?_, hTiled, hGeometry⟩
        simp [step, hNone]
      · refine ⟨_, by simp only [step, hSome]; rfl, ?_⟩
        exact ⟨hTiled', hSame.trans hGeometry⟩
  | checkIfFree page allocate =>
      refine ⟨_, rfl, ?_, ?_⟩
      · exact checkIfFree_spec hTiled page allocate
      · exact (checkIfFree_geometry page allocate).trans hGeometry
  | fragmentMemory draw =>
      refine ⟨_, rfl, tiled_splitLargest hTiled ?_,
        (splitLargest_geometry _).trans hGeometry⟩
      intro i hLow
      have hLe := uniform_le 8 (i - 1) draw (by omega)
      omega
  | fragmentMemoryToTargetCount draw =>
      refine ⟨_, rfl, tiled_splitLargest hTiled ?_,
        (splitLargest_geometry _).trans hGeometry⟩
      intro i hLow
      have hLe := uniform_le 8 (min (i - 1) 8) draw (by omega)
      omega
  | free block =>
      refine ⟨_, rfl, ?_, hGeometry⟩
      apply tiled_free
      exact hTiled.perm (List.perm_cons_erase hPermitted)

/- A call with an outcome was within the bound. -/
theorem withinTwice_of_step
    {op : Op}
    {s' : Heap}
    (hInv : Inv geometry s)
    (hStep : step s op = some s') :
    op.WithinTwice s.buddy.maxOrder := by
  cases op with
  | allocate bytes =>
      by_contra hBeyond
      have hOrder :
          s.buddy.maxOrder + 1 < orderOf (bytes / 4096) := by
        by_contra hLe
        exact hBeyond ((orderOf_le_iff (bytes / 4096)
          s.buddy.maxOrder).mp (by omega))
      simp [step, allocate_eq_none hInv.1 hOrder] at hStep
  | reserve2mbPage => trivial
  | checkIfFree page allocate => trivial
  | fragmentMemory draw => trivial
  | fragmentMemoryToTargetCount draw => trivial
  | free block => trivial

section Candidate

variable {b b' : Buddy} {out : List Span}

/- The free block that an allocation selects. -/
def candidate (b : Buddy) (bytes : Nat) : Option Span :=
  (b.firstNonEmpty (orderOf (bytes / 4096))).bind
    (fun i => (b.freeList i).getLast?)

/- A split keeps the upper end. -/
theorem splitTail_stop
    {ind n : Nat}
    {block block' : Span}
    {fl fl' : FreeList}
    (hSplit : splitTail ind n block fl = some (block', fl')) :
    block'.stop = block.stop := by
  induction n generalizing block fl with
  | zero =>
      simp only [splitTail, Option.some.injEq,
        Prod.mk.injEq] at hSplit
      rw [hSplit.1]
  | succ n ih =>
      rw [splitTail] at hSplit
      simp only at hSplit
      split_ifs at hSplit
      have hStop := ih hSplit
      exact hStop

/- An allocation takes the upper end of the candidate. -/
theorem upper_of_allocate
    (hTiled : Tiled b out)
    {bytes page : Nat}
    (hAllocate : b.allocate bytes = some (some page, b')) :
    ∃ block, b.candidate bytes = some block ∧
      page + 2 ^ orderOf (bytes / 4096) = block.stop + 1 := by
  have hOrder : orderOf (bytes / 4096) ≤ b.maxOrder + 1 := by
    by_contra hBeyond
    rw [allocate_eq_none hTiled (by omega)] at hAllocate
    cases hAllocate
  unfold allocate at hAllocate
  simp only at hAllocate
  unfold candidate
  generalize orderOf (bytes / 4096) = ind at hOrder hAllocate ⊢
  cases hScan : b.firstNonEmpty ind with
  | none =>
      rw [hScan, Option.getD_none, Nat.max_eq_right hOrder,
        if_pos rfl] at hAllocate
      cases hAllocate
  | some i =>
      rcases firstNonEmpty_eq_some hScan with ⟨hLow, hHigh, _⟩
      rw [hScan, Option.getD_some, if_neg (by omega)] at hAllocate
      cases hLast : (b.freeList i).getLast? with
      | none => simp [hLast] at hAllocate
      | some block =>
          have hBlock := (hTiled.shelved.of_getLast? hLast).2
          have hSum : ind + (i - ind) = i := by omega
          rcases splitTail_spec (n := i - ind)
              (hTiled.shelved.popBack i) (by omega)
              (hSum.symm ▸ hBlock) with
            ⟨block', fl, hSplit, _, hUpper, _⟩
          simp only [hLast, hSplit, Option.some.injEq,
            Prod.mk.injEq] at hAllocate
          refine ⟨block, hLast, ?_⟩
          rw [← hAllocate.1, ← splitTail_stop hSplit]
          exact hUpper.size.symm

/- The last page of the candidate is in the free lists. -/
theorem freeCoverage_candidate
    (hTiled : Tiled b out)
    {bytes : Nat}
    {block : Span}
    (hCandidate : b.candidate bytes = some block) :
    0 < freeCoverage b.maxOrder b.freeList block.stop := by
  rcases Option.bind_eq_some_iff.mp hCandidate with
    ⟨i, hScan, hLast⟩
  rcases firstNonEmpty_eq_some hScan with ⟨-, hHigh, -⟩
  have hBlock := (hTiled.shelved.of_getLast? hLast).2
  have hSize := hBlock.size
  have hPos : 0 < 2 ^ i := Nat.two_pow_pos i
  rw [freeCoverage, ← exists_has_iff]
  refine ⟨block, mem_shelves.mpr ⟨i, by omega, ?_⟩,
    by omega, Nat.le_refl _⟩
  exact List.mem_of_getLast? hLast

/- What an allocation with an outcome does. -/
theorem inv_allocate
    {geometry : Nat × Nat × Nat}
    (hInv : Inv geometry ⟨b, out⟩)
    {bytes : Nat}
    {result : Option Nat}
    (hAllocate : b.allocate bytes = some (result, b')) :
    (result = none ∧ b' = b ∧ b.candidate bytes = none) ∨
      ∃ page, result = some page ∧
        Inv geometry ⟨b', ⟨page,
          page + 2 ^ orderOf (bytes / 4096) - 1⟩ :: out⟩ := by
  rcases hInv with ⟨hTiled, hGeometry⟩
  change Tiled b out at hTiled
  have hOrder : orderOf (bytes / 4096) ≤ b.maxOrder + 1 := by
    by_contra hBeyond
    rw [allocate_eq_none hTiled (by omega)] at hAllocate
    cases hAllocate
  rcases allocate_spec hTiled bytes hOrder with
    ⟨hNone, hEmpty⟩ | ⟨page, b₁, hSome, hSame, hTiled'⟩
  · rw [hNone, Option.some.injEq, Prod.mk.injEq] at hAllocate
    refine Or.inl ⟨hAllocate.1.symm, hAllocate.2.symm, ?_⟩
    rw [candidate, firstNonEmpty_eq_none.mpr hEmpty]
    rfl
  · rw [hSome, Option.some.injEq, Prod.mk.injEq] at hAllocate
    rw [← hAllocate.1, ← hAllocate.2]
    exact Or.inr ⟨page, rfl, hTiled', hSame.trans hGeometry⟩

end Candidate

end Buddy

end Virtuoso
