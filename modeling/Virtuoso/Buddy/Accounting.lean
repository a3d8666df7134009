import Virtuoso.Buddy.Runs

/-
  The accounting of free pages.

  The allocator counts its free pages apart from the lists
  that hold them. Allocations, single pages and frees move
  the counter with the lists, and a reservation of 2MB moves
  the lists alone. So the counter is exact in every state of
  a run exactly when no reservation of the run succeeds.

  Main declarations:
    * `Buddy.listed`
    * `Buddy.freePages_run_iff`
-/

------------------------------------------------------------
-- The Pages Of The Free Lists
------------------------------------------------------------

namespace Virtuoso

namespace Buddy

open Span

/- The free blocks, in the order of the lists. -/
def listed (b : Buddy) : List Span :=
  shelves b.freeList (2 * (b.maxOrder + 1))

section Lists

variable {b b' : Buddy} {out out' : List Span}

/- Lists above the maximum order stay empty. -/
theorem listed_of_shelved
    {base : Nat}
    (hShelved : Shelved base b.maxOrder b.freeList) :
    b.listed = shelves b.freeList (b.maxOrder + 1) := by
  apply shelves_of_nil b.freeList (by omega)
  intro k hAbove
  apply List.eq_nil_iff_forall_not_mem.mpr
  intro block hMem
  have hLe := (hShelved k block hMem).1
  omega

/- A block in a tiled memory has pages, all of the memory. -/
theorem Tiled.block_in_range
    (hTiled : Tiled b out)
    {k : Nat}
    {block : Span}
    (hBlock : IsBlock b.base k block)
    (hListed :
      block ∈ shelves b.freeList (b.maxOrder + 1) ∨ block ∈ out) :
    block.start ≤ block.stop ∧ block.stop < b.limit := by
  have hSize := hBlock.size
  have hPos : 0 < 2 ^ k := Nat.two_pow_pos k
  have hLe : block.start ≤ block.stop := by omega
  have hHas : block.Has block.stop := ⟨hLe, Nat.le_refl _⟩
  refine ⟨hLe, (hTiled.in_range ?_).2⟩
  unfold freeCoverage
  rcases hListed with hFree | hUsed
  · have := one_le_coverage hFree hHas
    omega
  · have := one_le_coverage hUsed hHas
    omega

/-
  The pages of the free lists and of the blocks in use are
  all pages of the memory.
-/
theorem points_listed
    (hTiled : Tiled b out) :
    points b.listed + points out = b.limit - b.base := by
  have hFree : ∀ block ∈ shelves b.freeList (b.maxOrder + 1),
      block.start ≤ block.stop ∧ block.stop < b.limit := by
    intro block hMem
    rcases mem_shelves.mp hMem with ⟨k, -, hList⟩
    exact hTiled.block_in_range
      (hTiled.shelved k block hList).2 (Or.inl hMem)
  have hUsed : ∀ block ∈ out,
      block.start ≤ block.stop ∧ block.stop < b.limit := by
    intro block hMem
    rcases hTiled.handed block hMem with ⟨k, -, hBlock⟩
    exact hTiled.block_in_range hBlock (Or.inr hMem)
  have hPages :
      (Finset.range b.limit).filter
          (fun p => b.base ≤ p ∧ p < b.limit) =
        Finset.Ico b.base b.limit := by
    ext p
    simp only [Finset.mem_filter, Finset.mem_range, Finset.mem_Ico]
    omega
  have hAll : ∀ p,
      coverage (shelves b.freeList (b.maxOrder + 1)) p +
          coverage out p =
        if b.base ≤ p ∧ p < b.limit then 1 else 0 :=
    hTiled.tiled
  rw [listed_of_shelved hTiled.shelved, ← sum_coverage hFree,
    ← sum_coverage hUsed, ← Finset.sum_add_distrib,
    Finset.sum_congr rfl (fun p _ => hAll p),
    Finset.sum_boole, hPages, Nat.card_Ico, Nat.cast_id]

/- The counter of free pages is exact. -/
def Accounted (b : Buddy) : Prop :=
  b.freePages = points b.listed

instance (b : Buddy) : Decidable b.Accounted :=
  inferInstanceAs (Decidable (_ = _))

/- The size of a block of an order. -/
theorem IsBlock.size_eq
    {base k : Nat}
    {block : Span}
    (hBlock : IsBlock base k block) :
    block.size = 2 ^ k := by
  have hSize := hBlock.size
  have hPos : 0 < 2 ^ k := Nat.two_pow_pos k
  unfold Span.size
  omega

end Lists

section Counter

variable {b b' : Buddy} {out : List Span}

/- Equal sizes give equal bounds of the memory. -/
theorem bounds_of_geometry
    (hSame : b'.geometry = b.geometry) :
    b'.limit - b'.base = b.limit - b.base := by
  simp only [geometry, Prod.mk.injEq] at hSame
  rw [limit, base, hSame.1, hSame.2.2, ← limit, ← base]

/- An allocation subtracts the block that it returns. -/
theorem freePages_of_allocate
    {bytes page : Nat}
    (hAllocate : b.allocate bytes = some (some page, b')) :
    b'.freePages =
      sub64 b.freePages (2 ^ orderOf (bytes / 4096)) := by
  unfold allocate at hAllocate
  simp only at hAllocate
  split at hAllocate
  · simp at hAllocate
  · split at hAllocate
    · cases hAllocate
    · split at hAllocate
      · cases hAllocate
      · rw [Option.some.injEq, Prod.mk.injEq] at hAllocate
        rw [← hAllocate.2]

/- A reservation leaves the counter alone. -/
theorem freePages_of_reserve2mbPage
    {result : Option Span}
    (hReserve : b.reserve2mbPage = some (result, b')) :
    b'.freePages = b.freePages := by
  unfold reserve2mbPage at hReserve
  split at hReserve
  · cases hReserve
  · split at hReserve
    · simp only [Option.some.injEq, Prod.mk.injEq] at hReserve
      rw [← hReserve.2]
    · split at hReserve
      · simp only [Option.some.injEq, Prod.mk.injEq] at hReserve
        rw [← hReserve.2]
      · split at hReserve
        · cases hReserve
        · dsimp only at hReserve
          split at hReserve
          · cases hReserve
          · simp only [Option.some.injEq, Prod.mk.injEq] at hReserve
            rw [← hReserve.2]

/- A page that is taken is subtracted. -/
theorem freePages_of_checkIfFree
    (page : Nat)
    (allocate : Bool) :
    (b.checkIfFree page allocate).2.freePages =
      if (b.checkIfFree page allocate).1 && allocate then
        sub64 b.freePages 1
      else
        b.freePages := by
  unfold checkIfFree
  cases b.findBlock page with
  | none => simp
  | some found =>
      cases hGet : (b.freeList found.1)[found.2]? with
      | none => simp [hGet]
      | some block =>
          cases allocate with
          | false => simp [hGet]
          | true => simp [hGet]

/- The counter stays exact when the lists are rearranged. -/
theorem Accounted.rearrange
    (hExact : b.Accounted)
    (hTiled : Tiled b out)
    (hTiled' : Tiled b' out)
    (hSame : b'.geometry = b.geometry)
    (hCounter : b'.freePages = b.freePages) :
    b'.Accounted := by
  unfold Accounted at hExact ⊢
  have hBefore := points_listed hTiled
  have hAfter := points_listed hTiled'
  rw [bounds_of_geometry hSame] at hAfter
  omega

/- The counter stays exact when a block is handed out. -/
theorem Accounted.handOut
    {block : Span}
    (hExact : b.Accounted)
    (hTiled : Tiled b out)
    (hTiled' : Tiled b' (block :: out))
    (hSame : b'.geometry = b.geometry)
    (hFits : b.limit < 2 ^ 64)
    (hCounter : b'.freePages = sub64 b.freePages block.size) :
    b'.Accounted := by
  unfold Accounted at hExact ⊢
  have hBefore := points_listed hTiled
  have hAfter := points_listed hTiled'
  rw [points_cons, bounds_of_geometry hSame] at hAfter
  rw [hCounter, hExact, sub64_of_le (by omega) (by omega)]
  omega

/- The counter stays exact when a block is given back. -/
theorem Accounted.giveBack
    {block : Span}
    (hExact : b.Accounted)
    (hTiled : Tiled b (block :: out))
    (hFits : b.limit < 2 ^ 64) :
    (b.free block.start block.stop).Accounted := by
  unfold Accounted at hExact ⊢
  rcases hTiled.handed block (by simp) with ⟨k, -, hBlock⟩
  have hBefore := points_listed hTiled
  have hAfter := points_listed (tiled_free hTiled)
  have hSize := hBlock.size_eq
  have hCounter :
      (b.free block.start block.stop).freePages =
        add64 b.freePages block.size := by
    rw [hSize, free, hBlock.orderOf_eq]
  have hBounds :
      (b.free block.start block.stop).limit -
          (b.free block.start block.stop).base =
        b.limit - b.base := rfl
  rw [points_cons] at hBefore
  rw [hBounds] at hAfter
  rw [hCounter, hExact, add64_of_lt (by omega)]
  omega

/- Without a block of 512 pages a reservation does nothing. -/
theorem reserve2mbPage_of_nil
    (hTiled : Tiled b out)
    (hNil : ∀ k, 9 ≤ k → k ≤ b.maxOrder → b.freeList k = [])
    {result : Option Span}
    (hReserve : b.reserve2mbPage = some (result, b')) :
    result = none ∧ b' = b := by
  have hLists : 4 ≤ b.maxOrder := by
    by_contra hFew
    rw [Buddy.reserve2mbPage, if_pos (by omega)] at hReserve
    cases hReserve
  have hNine : (b.freeList 9).getLast? = none := by
    rw [List.getLast?_eq_none_iff]
    apply List.eq_nil_iff_forall_not_mem.mpr
    intro block hMem
    rw [hNil 9 (Nat.le_refl 9)
      (hTiled.shelved 9 block hMem).1] at hMem
    cases hMem
  have hScan : b.firstNonEmpty 10 = none := by
    rw [firstNonEmpty_eq_none]
    intro k hLow hHigh
    exact hNil k (by omega) hHigh
  rw [Buddy.reserve2mbPage, if_neg (by omega), hNine,
    hScan] at hReserve
  simp only [Option.some.injEq, Prod.mk.injEq] at hReserve
  exact ⟨hReserve.1.symm, hReserve.2.symm⟩

/- A block that leaves the lists uncounted is still counted. -/
theorem not_accounted_of_reserve2mbPage
    {block : Span}
    (hExact : b.Accounted)
    (hTiled : Tiled b out)
    (hTiled' : Tiled b' (block :: out))
    (hSame : b'.geometry = b.geometry)
    (hCounter : b'.freePages = b.freePages) :
    ¬ b'.Accounted := by
  unfold Accounted at hExact ⊢
  have hBefore := points_listed hTiled
  have hAfter := points_listed hTiled'
  have hPos : 0 < block.size := Nat.succ_pos _
  rw [points_cons, bounds_of_geometry hSame] at hAfter
  omega

end Counter

------------------------------------------------------------
-- Calls
------------------------------------------------------------

/-
  The allocator with the blocks in use, those of reservations
  apart from the others.
-/
structure Ledger where
  buddy : Buddy
  outstanding : List Span
  reserved : List Span

/-
  A call. The demotion of a reservation frees its pages one
  by one and names the page after each as the end.
-/
inductive Call
  | allocate (bytes : Nat)
  | reserve2mbPage
  | checkIfFree (page : Nat) (allocate : Bool)
  | free (block : Span)
  | freePage (page stop : Nat)
deriving DecidableEq

/- Perform one call and record what is in use. -/
def perform (s : Ledger) : Call → Option Ledger
| .allocate bytes =>
    match s.buddy.allocate bytes with
    | none => none
    | some (none, b) => some { s with buddy := b }
    | some (some page, b) =>
        some
          { s with
            buddy := b
            outstanding :=
              ⟨page, page + 2 ^ orderOf (bytes / 4096) - 1⟩ ::
                s.outstanding }
| .reserve2mbPage =>
    match s.buddy.reserve2mbPage with
    | none => none
    | some (none, b) => some { s with buddy := b }
    | some (some block, b) =>
        some
          { s with
            buddy := b
            reserved := block :: s.reserved }
| .checkIfFree page allocate =>
    let r := s.buddy.checkIfFree page allocate
    some
      { s with
        buddy := r.2
        outstanding :=
          if r.1 && allocate then
            ⟨page, page⟩ :: s.outstanding
          else
            s.outstanding }
| .free block =>
    some
      { buddy := s.buddy.free block.start block.stop
        outstanding := s.outstanding.erase block
        reserved := s.reserved.erase block }
| .freePage page stop =>
    some
      { s with
        buddy := s.buddy.free page stop
        reserved := punch page s.reserved }

/-
  The calls a caller makes: whole pages are requested, blocks
  in use are freed, and so are single pages of reservations.
-/
def Admitted (s : Ledger) : Call → Prop
| .allocate bytes => 0 < bytes ∧ 4096 ∣ bytes
| .reserve2mbPage => True
| .checkIfFree _ _ => True
| .free block => block ∈ s.outstanding ∨ block ∈ s.reserved
| .freePage page stop =>
    (∃ block ∈ s.reserved, block.Has page) ∧
      (stop = page ∨ stop = page + 1)

instance
    (s : Ledger)
    (call : Call) :
    Decidable (Admitted s call) :=
  match call with
  | .allocate bytes =>
      inferInstanceAs (Decidable (0 < bytes ∧ 4096 ∣ bytes))
  | .reserve2mbPage => isTrue trivial
  | .checkIfFree _ _ => isTrue trivial
  | .free block =>
      inferInstanceAs (Decidable
        (block ∈ s.outstanding ∨ block ∈ s.reserved))
  | .freePage page stop =>
      inferInstanceAs (Decidable
        ((∃ block ∈ s.reserved, block.Has page) ∧
          (stop = page ∨ stop = page + 1)))

/- No reservation is made while a block has 512 pages. -/
def Unreserved (s : Ledger) (call : Call) : Prop :=
  call = .reserve2mbPage →
    ∀ k, 9 ≤ k → k ≤ s.buddy.maxOrder → s.buddy.freeList k = []

theorem unreserved_iff
    (s : Ledger)
    (call : Call) :
    (call = .reserve2mbPage →
      ∀ k, k < s.buddy.maxOrder + 1 → 9 ≤ k →
        s.buddy.freeList k = []) ↔ Unreserved s call := by
  constructor
  · intro hNil hCall k hLow hHigh
    exact hNil hCall k (Nat.lt_succ_of_le hHigh) hLow
  · intro hNil hCall k hHigh hLow
    exact hNil hCall k hLow (Nat.le_of_lt_succ hHigh)

instance
    (s : Ledger)
    (call : Call) :
    Decidable (Unreserved s call) :=
  decidable_of_iff _ (unreserved_iff s call)

/- The invariant of a run that has made no reservation. -/
structure Balanced
    (geometry : Nat × Nat × Nat)
    (s : Ledger) : Prop where
  inv : Inv geometry ⟨s.buddy, s.outstanding⟩
  reserved : s.reserved = []
  fits : s.buddy.limit < 2 ^ 64
  accounted : s.buddy.Accounted

section Steps

variable {geometry : Nat × Nat × Nat} {s s' : Ledger}

theorem limit_of_geometry
    {b b' : Buddy}
    (hSame : b'.geometry = b.geometry) :
    b'.limit = b.limit := by
  simp only [Buddy.geometry, Prod.mk.injEq] at hSame
  rw [limit, hSame.1, ← limit]

/- Every call but a successful reservation keeps the balance. -/
theorem balanced_step
    {call : Call}
    (hBalanced : Balanced geometry s)
    (hAdmitted : Admitted s call)
    (hUnreserved : Unreserved s call)
    (hStep : perform s call = some s') :
    Balanced geometry s' := by
  rcases hBalanced with
    ⟨⟨hTiled, hGeometry⟩, hReserved, hFits, hExact⟩
  change Tiled s.buddy s.outstanding at hTiled
  change s.buddy.geometry = geometry at hGeometry
  cases call with
  | allocate bytes =>
      have hOrder :
          orderOf (bytes / 4096) ≤ s.buddy.maxOrder + 1 := by
        by_contra hBeyond
        simp [perform, allocate_eq_none hTiled
          (Nat.lt_of_not_le hBeyond)] at hStep
      rcases allocate_spec hTiled bytes hOrder with
        ⟨hNone, -⟩ | ⟨page, b, hSome, hSame, hTiled'⟩
      · simp only [perform, hNone, Option.some.injEq] at hStep
        subst hStep
        exact ⟨⟨hTiled, hGeometry⟩, hReserved, hFits, hExact⟩
      · simp only [perform, hSome, Option.some.injEq] at hStep
        subst hStep
        have hSize : Span.size ⟨page,
            page + 2 ^ orderOf (bytes / 4096) - 1⟩ =
              2 ^ orderOf (bytes / 4096) := by
          have hPos := Nat.two_pow_pos (orderOf (bytes / 4096))
          simp only [Span.size]
          omega
        refine ⟨⟨hTiled', hSame.trans hGeometry⟩, hReserved, ?_, ?_⟩
        · rw [limit_of_geometry hSame]
          exact hFits
        · apply hExact.handOut hTiled hTiled' hSame hFits
          rw [hSize]
          exact freePages_of_allocate hSome
  | reserve2mbPage =>
      cases hReserve : s.buddy.reserve2mbPage with
      | none => simp [perform, hReserve] at hStep
      | some outcome =>
          rcases outcome with ⟨result, b⟩
          rcases reserve2mbPage_of_nil hTiled
            (hUnreserved rfl) hReserve with ⟨hNone, hSame⟩
          subst hNone
          subst hSame
          simp only [perform, hReserve, Option.some.injEq] at hStep
          subst hStep
          exact ⟨⟨hTiled, hGeometry⟩, hReserved, hFits, hExact⟩
  | checkIfFree page allocate =>
      simp only [perform, Option.some.injEq] at hStep
      subst hStep
      have hSame := checkIfFree_geometry (b := s.buddy) page
        allocate
      have hTiled' := checkIfFree_spec hTiled page allocate
      have hCounter := freePages_of_checkIfFree
        (b := s.buddy) page allocate
      refine ⟨⟨hTiled', hSame.trans hGeometry⟩, hReserved, ?_, ?_⟩
      · exact (limit_of_geometry hSame).trans_lt hFits
      · cases hTaken : (s.buddy.checkIfFree page allocate).1 &&
            allocate with
        | false =>
            simp only [hTaken, Bool.false_eq_true,
              if_false] at hTiled' hCounter
            exact hExact.rearrange hTiled hTiled' hSame hCounter
        | true =>
            simp only [hTaken, if_true] at hTiled' hCounter
            apply hExact.handOut hTiled hTiled' hSame hFits
            simpa [Span.size] using hCounter
  | free block =>
      simp only [perform, Option.some.injEq] at hStep
      subst hStep
      have hMem : block ∈ s.outstanding := by
        rcases hAdmitted with hMem | hMem
        · exact hMem
        · rw [hReserved] at hMem
          cases hMem
      have hFirst := hTiled.perm (List.perm_cons_erase hMem)
      refine ⟨⟨tiled_free hFirst, hGeometry⟩, ?_, hFits,
        hExact.giveBack hFirst hFits⟩
      simp [hReserved]
  | freePage page stop =>
      rcases hAdmitted with ⟨⟨block, hMem, -⟩, -⟩
      rw [hReserved] at hMem
      cases hMem

/- A successful reservation breaks the accounting. -/
theorem not_accounted_step
    {call : Call}
    (hBalanced : Balanced geometry s)
    (hReserves : ¬ Unreserved s call)
    (hStep : perform s call = some s') :
    ¬ s'.buddy.Accounted := by
  rcases hBalanced with ⟨⟨hTiled, -⟩, -, -, hExact⟩
  change Tiled s.buddy s.outstanding at hTiled
  unfold Unreserved at hReserves
  push Not at hReserves
  rcases hReserves with ⟨hCall, k, hLow, hHigh, hBlock⟩
  subst hCall
  rcases reserve2mbPage_spec hTiled (by omega) with
    ⟨-, hNil⟩ | ⟨block, b, hSome, hSame, -, hTiled'⟩
  · exact absurd (hNil k hLow hHigh) hBlock
  · simp only [perform, hSome, Option.some.injEq] at hStep
    subst hStep
    exact not_accounted_of_reserve2mbPage hExact hTiled
      hTiled' hSame (freePages_of_reserve2mbPage hSome)

end Steps

/- A new allocator is balanced. -/
theorem balanced_construct
    {memorySize maxOrder kernelSize : Nat}
    (hMemory : memorySize < 2 ^ 31)
    {b : Buddy}
    (hConstruct :
      construct memorySize maxOrder kernelSize = some b) :
    Balanced (memorySize, maxOrder, kernelSize) ⟨b, [], []⟩ := by
  have hTiled := tiled_construct hConstruct
  have hGeometry := (construct_eq_some hConstruct).2
  refine ⟨⟨hTiled, hGeometry⟩, rfl, ?_, ?_⟩
  · simp only [Buddy.geometry, Prod.mk.injEq] at hGeometry
    change b.limit < 2 ^ 64
    rw [limit, hGeometry.1, pagesInMb_eq]
    omega
  · change b.Accounted
    have hPoints := points_listed hTiled
    rw [points_nil, Nat.add_zero] at hPoints
    rw [Accounted, hPoints]
    unfold construct at hConstruct
    split at hConstruct
    · rw [Option.some.injEq] at hConstruct
      subst hConstruct
      rfl
    · cases hConstruct

/-
  The counter of free pages is exact in every state of a run
  exactly when the run makes no reservation while there is a
  free block of 2MB: a reservation takes its pages from the
  lists and not from the counter.
-/
theorem freePages_run_iff
    (memorySize maxOrder kernelSize : Nat)
    (_hKernel : kernelSize ≤ memorySize)
    (hMemory : memorySize < 2 ^ 31)
    {b : Buddy}
    (hConstruct : construct memorySize maxOrder kernelSize = some b)
    (calls : List Call)
    (hAdmitted : Run.Along perform Admitted ⟨b, [], []⟩ calls)
    {s : Ledger}
    (hRun : Run.run perform ⟨b, [], []⟩ calls = some s) :
    (∀ front, front <+: calls →
      ∀ t, Run.run perform ⟨b, [], []⟩ front = some t →
        t.buddy.freePages = points t.buddy.listed) ↔
      Run.Along perform Unreserved ⟨b, [], []⟩ calls :=
  (Run.along_iff_of_run
    (fun _ hBalanced => hBalanced.accounted)
    (fun _ _ _ hBalanced hCall hQuiet hStep =>
      balanced_step hBalanced hCall hQuiet hStep)
    (fun _ _ _ hBalanced _ hReserves hStep =>
      not_accounted_step hBalanced hReserves hStep)
    (balanced_construct hMemory hConstruct)
    hAdmitted hRun).symm

/- A run whose only reservation finds no block of 2MB. -/
theorem freePages_run_small :
    ∃ b s,
      construct 1 9 0 = some b ∧
        Run.run perform ⟨b, [], []⟩
          [.allocate 8192, .checkIfFree 7 true,
            .reserve2mbPage, .free ⟨7, 7⟩] = some s ∧
        s.buddy.freePages = points s.buddy.listed := by
  have hRun : ∃ b s,
      construct 1 9 0 = some b ∧
        Run.run perform ⟨b, [], []⟩
          [.allocate 8192, .checkIfFree 7 true,
            .reserve2mbPage, .free ⟨7, 7⟩] = some s :=
    ⟨_, _, rfl, rfl⟩
  rcases hRun with ⟨b, s, hConstruct, hRun⟩
  refine ⟨b, s, hConstruct, hRun, ?_⟩
  refine (freePages_run_iff 1 9 0 (by decide) (by decide)
    hConstruct _ ?_ hRun).mpr ?_ _ (List.prefix_refl _) s hRun
  · cases hConstruct
    decide +kernel
  · cases hConstruct
    decide +kernel

/-
  A reservation of the only block of a memory of 2MB leaves
  no free page in the lists and 512 in the counter.
-/
theorem freePages_run_reserved :
    ∃ b s,
      construct 2 9 0 = some b ∧
        Run.Along perform Admitted ⟨b, [], []⟩ [.reserve2mbPage] ∧
        Run.run perform ⟨b, [], []⟩ [.reserve2mbPage] = some s ∧
        s.buddy.freePages = 512 ∧
        points s.buddy.listed = 0 :=
  ⟨_, _, rfl, by decide +kernel, rfl, rfl, by decide +kernel⟩

end Buddy

end Virtuoso
