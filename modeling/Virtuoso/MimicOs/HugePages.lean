import Virtuoso.Buddy.Drain
import Virtuoso.MimicOs.HugeTlbfs
import Virtuoso.PhysicalMemory.Basic

/-
  The huge pages of MimicOS and the frames of its allocator,
  from `mimicos.cc`.

  The pools of HugeTLBfs begin at a page that does not depend
  on the size of memory, and they are taken from neither the
  buddy allocator nor the kernel's memory. So they are sound
  only where they happen to lie between the page tables and
  the end of the kernel.

  The system is MimicOS with both services enabled, and all
  huge pages and frames that were ever handed out. The buddy
  allocator serves any sequence of its calls; allocators that
  are built on it make some of them. Instruction pages have
  an area of their own and are left out, and so are page
  tables that are given back, fault latencies, swapping and
  the log.

  Main declarations:
    * `MimicOs.hugePagesApart_run_iff`
-/

------------------------------------------------------------
-- The System And Its Pages
------------------------------------------------------------

namespace Virtuoso

/-
  `applications` are those with virtual memory areas. The
  last two members are what was handed out, in 4KB pages.
-/
structure MimicOs where
  applications : List Int
  hugetlbfs : HugeTlbfs
  heap : Buddy.Heap
  memory : PhysicalMemoryAllocator
  hugePages : List Span
  frames : List Span

namespace MimicOs

/- The settings that the constructor makes of two keys. -/
def htlbfsCfg
    (nrHugepages2mb nrHugepages1gb : UInt64) :
    HugeTlbfsConfig :=
  { enabled := true
    nrHugepages2mb := nrHugepages2mb
    nrHugepages1gb := nrHugepages1gb
    poolBasePpn := 0x100000 }

/- `MimicOS::MimicOS`. -/
def construct
    (memorySize maxOrder kernelSize : Nat)
    (nrHugepages2mb nrHugepages1gb : UInt64) :
    Option MimicOs :=
  (Buddy.construct memorySize maxOrder kernelSize).map
    (fun b =>
      { applications := []
        hugetlbfs := HugeTlbfs.construct
          (htlbfsCfg nrHugepages2mb nrHugepages1gb)
        heap := ⟨b, []⟩
        memory := PhysicalMemoryAllocator.construct kernelSize
        hugePages := []
        frames := [] })

/- The 4KB pages of a huge page. -/
def hugePageAt
    (basePpn : Nat)
    (size : HugePageSize) : Span :=
  ⟨basePpn, basePpn + size.pages - 1⟩

/- `MimicOS::allocateHugePage`. -/
def allocateHugePage
    (s : MimicOs)
    (app : Int)
    (vaddr : Nat)
    (size : HugePageSize) :
    Option Nat × MimicOs :=
  if app ∈ s.applications then
    let r := s.hugetlbfs.allocateHugePage app vaddr size
    (r.1,
      { s with
        hugetlbfs := r.2
        hugePages := match r.1 with
          | none => s.hugePages
          | some ppn => hugePageAt ppn size :: s.hugePages })
  else
    (none, s)

/- `MimicOS::deallocateHugePage`. -/
def deallocateHugePage
    (s : MimicOs)
    (basePpn : Nat)
    (size : HugePageSize) :
    Bool × MimicOs :=
  let r := s.hugetlbfs.deallocateHugePage basePpn size
  (r.1, { s with hugetlbfs := r.2 })

/- The requests to MimicOS. -/
inductive Op
  | createApplication (app : Int)
  | allocateHugePage (app : Int) (vaddr : Nat)
      (size : HugePageSize)
  | deallocateHugePage (basePpn : Nat) (size : HugePageSize)
  | memory (op : Buddy.Op)
  | pageTable (bytes : Nat)

/-
  The blocks that are in use after a call of the buddy
  allocator are among those that it has handed out.
-/
def step (s : MimicOs) : Op → Option MimicOs
| .createApplication app =>
    some { s with applications := app :: s.applications }
| .allocateHugePage app vaddr size =>
    some (s.allocateHugePage app vaddr size).2
| .deallocateHugePage basePpn size =>
    some (s.deallocateHugePage basePpn size).2
| .memory op =>
    (Buddy.step s.heap op).map (fun heap =>
      { s with
        heap := heap
        frames := heap.outstanding ++ s.frames })
| .pageTable bytes =>
    let r := s.memory.handlePageTableAllocations bytes
    some
      { s with
        memory := r.2
        frames :=
          ⟨r.1, (s.memory.kernelStartAddress + bytes - 1) /
            4096⟩ :: s.frames }

/-
  A step of a caller that keeps page tables below 4GB, or has
  no huge pages.
-/
def PageTablesLow
    (cfg : HugeTlbfsConfig)
    (s : MimicOs) :
    Op → Prop
| .memory op => Buddy.Permitted s.heap op
| .pageTable bytes =>
    s.memory.kernelStartAddress + bytes ≤ 2 ^ 32 ∨
      (cfg.nrHugepages2mb = 0 ∧ cfg.nrHugepages1gb = 0)
| _ => True

instance
    (cfg : HugeTlbfsConfig)
    (s : MimicOs)
    (op : Op) :
    Decidable (PageTablesLow cfg s op) :=
  match op with
  | .memory op =>
      inferInstanceAs (Decidable (Buddy.Permitted s.heap op))
  | .pageTable bytes =>
      inferInstanceAs (Decidable
        (s.memory.kernelStartAddress + bytes ≤ 2 ^ 32 ∨
          (cfg.nrHugepages2mb = 0 ∧ cfg.nrHugepages1gb = 0)))
  | .createApplication _ => isTrue trivial
  | .allocateHugePage _ _ _ => isTrue trivial
  | .deallocateHugePage _ _ => isTrue trivial

/-
  Huge pages are inside memory, and none of their pages is a
  frame that the allocator hands out.
-/
def HugePagesApart
    (memorySize : Nat)
    (s : MimicOs) : Prop :=
  ∀ page ∈ s.hugePages,
    page.stop < Buddy.pagesInMb memorySize ∧
      ∀ frame ∈ s.frames, page.Apart frame

/- The page number of a page of a pool. -/
def poolPpn
    (cfg : HugeTlbfsConfig)
    (size : HugePageSize)
    (i : Nat) : Nat :=
  (cfg.poolBasePpn.toNat + HugeTlbfs.poolBase cfg size +
    i * size.pages) % 2 ^ 64

/-
  The pages of the pools that can be handed out, which are
  the first `2 ^ 31` of each pool, lie between 4GB and the end
  of the kernel, inside memory.
-/
def PoolInKernel
    (memorySize kernelSize : Nat)
    (cfg : HugeTlbfsConfig) : Prop :=
  ∀ size, ∀ i < HugeTlbfs.count cfg size, i < 2 ^ 31 →
    0x100000 ≤ poolPpn cfg size i ∧
      poolPpn cfg size i + size.pages ≤ Buddy.pagesInMb kernelSize ∧
      poolPpn cfg size i + size.pages ≤ Buddy.pagesInMb memorySize

end MimicOs

namespace HugeTlbfs

variable {cfg : HugeTlbfsConfig} {h : HugeTlbfs}

/- The service is as configured, its pages in their place. -/
structure Placed
    (cfg : HugeTlbfsConfig)
    (h : HugeTlbfs) : Prop where
  enabled : h.enabled = cfg.enabled
  bases : ∀ size,
    bases (h.pool size) = HugeTlbfs.bases
      ((construct cfg).pool size)

theorem Placed.setPool
    (hPlaced : Placed cfg h)
    {size : HugePageSize}
    {p : HugePool}
    (hBases : HugeTlbfs.bases p = HugeTlbfs.bases (h.pool size)) :
    Placed cfg (h.setPool size p) := by
  refine ⟨?_, fun other => ?_⟩
  · rw [enabled_setPool]
    exact hPlaced.enabled
  · rw [pool_setPool]
    split_ifs with hOwn
    · rw [hOwn, hBases]
      exact hPlaced.bases size
    · exact hPlaced.bases other

theorem toInt32_lt
    (n : Nat) :
    toInt32 n < 2 ^ 31 := by
  unfold toInt32
  split_ifs with hLow
  · omega
  · have hMod := Nat.mod_lt n (show 0 < 2 ^ 32 by decide)
    omega

/- An allocation takes one of the first pages, or none. -/
theorem allocateHugePage_cases
    (h : HugeTlbfs)
    (app : Int)
    (vaddr : Nat)
    (size : HugePageSize) :
    h.allocateHugePage app vaddr size = (none, h) ∨
      ∃ (i : Nat) (page : HugePageInfo),
        i < 2 ^ 31 ∧ (h.pool size).pages[i]? = some page ∧
          h.allocateHugePage app vaddr size =
            (some page.basePpn, h.setPool size
              ((h.pool size).take i page app vaddr)) := by
  have hSmall : (h.pool size).findFreeHugePage < 2 ^ 31 := by
    unfold HugePool.findFreeHugePage
    split
    · decide
    · exact toInt32_lt _
  unfold allocateHugePage
  simp only
  split_ifs with hEnabled hNone
  · exact Or.inl rfl
  · split
    · exact Or.inl rfl
    · rename_i page hGet
      exact Or.inr ⟨_, page, by omega, hGet, rfl⟩
  · exact Or.inl rfl

theorem Placed.allocateHugePage
    (hPlaced : Placed cfg h)
    (app : Int)
    (vaddr : Nat)
    (size : HugePageSize) :
    Placed cfg (h.allocateHugePage app vaddr size).2 := by
  rcases allocateHugePage_cases h app vaddr size with
    hOut | ⟨i, page, _, hGet, hOut⟩
  · rw [hOut]
    exact hPlaced
  · rw [hOut]
    exact hPlaced.setPool (map_basePpn_set hGet rfl)

theorem Placed.deallocateHugePage
    (hPlaced : Placed cfg h)
    (basePpn : Nat)
    (size : HugePageSize) :
    Placed cfg (h.deallocateHugePage basePpn size).2 := by
  rcases deallocateHugePage_spec h basePpn size with
    hOut | ⟨i, page, hGet, _, hOut⟩
  · rw [hOut]
    exact hPlaced
  · rw [hOut]
    exact hPlaced.setPool (map_basePpn_set hGet rfl)

theorem placed_run
    {k : Nat}
    {size : HugePageSize}
    (hRun : Run.run step (construct cfg)
      (List.replicate k (.allocateHugePage 0 0 size)) = some h) :
    Placed cfg h := by
  have hStart : Placed cfg (construct cfg) :=
    ⟨(inv_construct cfg).enabled, fun _ => rfl⟩
  refine Run.run_inv (I := Placed cfg)
    (fun s e s' hPlaced hOp hStep => ?_) hStart
    (Run.along_of_forall_mem (Q := fun e =>
      e = .allocateHugePage 0 0 size) _
      (fun e hMem => List.eq_of_mem_replicate hMem)) hRun
  subst hOp
  rw [← Option.some.inj hStep]
  exact hPlaced.allocateHugePage 0 0 size

/- After the pages before it, a page is handed out. -/
theorem allocateHugePage_of_filled
    {size : HugePageSize}
    {i : Nat}
    (hPlaced : Placed cfg h)
    (hEnabled : h.enabled = true)
    (hFilled : Filled (h.pool size) i)
    (hLt : i < (h.pool size).pages.length)
    (hIndex : i < 2 ^ 31) :
    (h.allocateHugePage 0 0 size).1 =
      some ((cfg.poolBasePpn.toNat + poolBase cfg size +
        i * size.pages) % 2 ^ 64) := by
  have hGet := List.getElem?_eq_getElem hLt
  have hBase := (basePpn_of_placed (hPlaced.bases size) hGet).2
  have hIdx : (h.pool size).findFreeHugePage = i := by
    rw [HugePool.findFreeHugePage, hFilled.findIdx hLt]
    exact toInt32_of_lt hIndex
  have hNat : ¬ (i : Int) < 0 := by omega
  simp only [allocateHugePage, hEnabled, if_true, hIdx,
    if_neg hNat, Int.toNat_natCast, hGet]
  rw [hBase]

end HugeTlbfs

namespace MimicOs

open HugeTlbfs (count Placed)

variable {memorySize maxOrder kernelSize : Nat}
variable {cfg : HugeTlbfsConfig} {s s' : MimicOs}

theorem pages_ge
    (size : HugePageSize) :
    512 ≤ size.pages := by
  cases size with
  | size2mb => decide
  | size1gb => decide

/- What the steps that are allowed keep. -/
structure Inv
    (memorySize maxOrder kernelSize : Nat)
    (cfg : HugeTlbfsConfig)
    (s : MimicOs) : Prop where
  placed : Placed cfg s.hugetlbfs
  heap : Buddy.Inv (memorySize, maxOrder, kernelSize) s.heap
  hugePages : ∀ page ∈ s.hugePages,
    ∃ size i, i < count cfg size ∧ i < 2 ^ 31 ∧
      page = hugePageAt (poolPpn cfg size i) size
  frames : ∀ frame ∈ s.frames,
    Buddy.pagesInMb kernelSize ≤ frame.start ∨
      frame.stop < 0x100000 ∨ ∀ size, count cfg size = 0

theorem count_of_unused
    (hUnused : cfg.nrHugepages2mb = 0 ∧ cfg.nrHugepages1gb = 0)
    (size : HugePageSize) :
    count cfg size = 0 := by
  unfold count
  cases size with
  | size2mb =>
      rw [hUnused.1]
      split_ifs <;> rfl
  | size1gb =>
      rw [hUnused.2]
      split_ifs <;> rfl

/- Blocks in use are behind the kernel. -/
theorem start_of_outstanding
    {heap : Buddy.Heap}
    (hInv : Buddy.Inv (memorySize, maxOrder, kernelSize) heap)
    {block : Span}
    (hMem : block ∈ heap.outstanding) :
    Buddy.pagesInMb kernelSize ≤ block.start := by
  rcases hInv with ⟨hTiled, hGeometry⟩
  simp only [Buddy.geometry, Prod.mk.injEq] at hGeometry
  rcases hTiled.handed block hMem with ⟨k, _, hBlock⟩
  have hSize := hBlock.size
  have hPos : 0 < 2 ^ k := Nat.two_pow_pos k
  have hOne : 1 ≤ Span.coverage heap.outstanding block.start :=
    Span.one_le_coverage hMem ⟨Nat.le_refl _, by omega⟩
  have hRange := hTiled.in_range (p := block.start) (by omega)
  rw [Buddy.base, hGeometry.2.2] at hRange
  exact hRange.1

variable {nr2mb nr1gb : UInt64}

theorem inv_construct
    (hConstruct : construct memorySize maxOrder kernelSize
      nr2mb nr1gb = some s) :
    Inv memorySize maxOrder kernelSize (htlbfsCfg nr2mb nr1gb)
      s := by
  rcases Option.map_eq_some_iff.mp hConstruct with
    ⟨b, hBuddy, hEq⟩
  rw [← hEq]
  refine ⟨⟨?_, fun _ => rfl⟩, ⟨?_, ?_⟩, ?_, ?_⟩
  · exact (HugeTlbfs.inv_construct _).enabled
  · exact Buddy.tiled_construct hBuddy
  · exact (Buddy.construct_eq_some hBuddy).2
  · intro page hMem
    cases hMem
  · intro frame hMem
    cases hMem

theorem inv_step
    (hInv : Inv memorySize maxOrder kernelSize cfg s)
    {op : Op}
    (hLow : PageTablesLow cfg s op)
    (hStep : s.step op = some s') :
    Inv memorySize maxOrder kernelSize cfg s' := by
  cases op with
  | createApplication app =>
      rw [← Option.some.inj hStep]
      exact ⟨hInv.placed, hInv.heap, hInv.hugePages, hInv.frames⟩
  | allocateHugePage app vaddr size =>
      rw [← Option.some.inj hStep, MimicOs.allocateHugePage]
      split_ifs with hApp
      · refine ⟨hInv.placed.allocateHugePage app vaddr size,
          hInv.heap, ?_, hInv.frames⟩
        rcases HugeTlbfs.allocateHugePage_cases s.hugetlbfs app
            vaddr size with
          hOut | ⟨i, page, hIndex, hGet, hOut⟩
        · simp only [hOut]
          exact hInv.hugePages
        · simp only [hOut, List.mem_cons, forall_eq_or_imp]
          refine ⟨?_, hInv.hugePages⟩
          rcases HugeTlbfs.basePpn_of_placed
            (hInv.placed.bases size) hGet with ⟨hLt, hBase⟩
          exact ⟨size, i, hLt, hIndex, by rw [hBase]; rfl⟩
      · exact hInv
  | deallocateHugePage basePpn size =>
      rw [← Option.some.inj hStep]
      exact ⟨hInv.placed.deallocateHugePage basePpn size,
        hInv.heap, hInv.hugePages, hInv.frames⟩
  | memory op =>
      rcases Option.map_eq_some_iff.mp hStep with
        ⟨heap, hCall, hEq⟩
      have hHeap := Buddy.inv_of_step hInv.heap hLow hCall
      rw [← hEq]
      refine ⟨hInv.placed, hHeap, hInv.hugePages, ?_⟩
      intro frame hMem
      rcases List.mem_append.mp hMem with hNew | hOld
      · exact Or.inl (start_of_outstanding hHeap hNew)
      · exact hInv.frames frame hOld
  | pageTable bytes =>
      rw [← Option.some.inj hStep]
      refine ⟨hInv.placed, hInv.heap, hInv.hugePages, ?_⟩
      intro frame hMem
      rcases List.mem_cons.mp hMem with hNew | hOld
      · right
        rcases hLow with hBelow | hUnused
        · left
          rw [hNew]
          apply (Nat.div_lt_iff_lt_mul (by decide)).mpr
          omega
        · exact Or.inr (count_of_unused hUnused)
      · exact hInv.frames frame hOld

/- Pools inside the kernel are apart from all frames. -/
theorem Inv.hugePagesApart
    (hInv : Inv memorySize maxOrder kernelSize cfg s)
    (hPool : PoolInKernel memorySize kernelSize cfg) :
    s.HugePagesApart memorySize := by
  intro page hMem
  rcases hInv.hugePages page hMem with
    ⟨size, i, hLt, hIndex, hPage⟩
  rcases hPool size i hLt hIndex with ⟨hLow, hHigh, hInside⟩
  have hPos := pages_ge size
  subst hPage
  refine ⟨?_, ?_⟩
  · simp only [hugePageAt]
    omega
  · intro frame hFrame
    rw [Span.apart_iff]
    simp only [hugePageAt]
    rcases hInv.frames frame hFrame with
      hBehind | hBelow | hNone
    · omega
    · omega
    · rw [hNone size] at hLt
      exact absurd hLt (Nat.not_lt_zero i)

------------------------------------------------------------
-- Runs That Meet
------------------------------------------------------------

/- Handing out huge pages leaves the allocator alone. -/
theorem run_allocateHugePage
    (hApp : (0 : Int) ∈ s.applications)
    {size : HugePageSize}
    {n : Nat}
    {h : HugeTlbfs}
    (hRun : Run.run HugeTlbfs.step s.hugetlbfs
      (List.replicate n (.allocateHugePage 0 0 size)) = some h) :
    ∃ pages, Run.run step s
        (List.replicate n (.allocateHugePage 0 0 size)) =
      some { s with hugetlbfs := h, hugePages := pages } := by
  induction n generalizing s with
  | zero =>
      rw [List.replicate_zero, Run.run_nil,
        Option.some.injEq] at hRun
      subst hRun
      exact ⟨s.hugePages, rfl⟩
  | succ n ih =>
      rw [List.replicate_succ] at hRun ⊢
      have hFirst : s.step (.allocateHugePage 0 0 size) =
          some { s with
            hugetlbfs :=
              (s.hugetlbfs.allocateHugePage 0 0 size).2
            hugePages :=
              match (s.hugetlbfs.allocateHugePage 0 0
                size).1 with
              | none => s.hugePages
              | some ppn =>
                  hugePageAt ppn size :: s.hugePages } := by
        rw [step, MimicOs.allocateHugePage, if_pos hApp]
      rw [Run.run_cons_of_some _ hFirst]
      rw [Run.run_cons_of_some _ rfl] at hRun
      exact ih hApp hRun

/- Any page of a pool with a small index is handed out. -/
theorem exists_hugePage
    (hConstruct : construct memorySize maxOrder kernelSize
      nr2mb nr1gb = some s)
    {size : HugePageSize}
    {i : Nat}
    (hLt : i < count (htlbfsCfg nr2mb nr1gb) size)
    (hIndex : i < 2 ^ 31) :
    ∃ ops s', Run.run step s ops = some s' ∧
      Run.Along step (PageTablesLow (htlbfsCfg nr2mb nr1gb)) s ops ∧
      s'.heap = s.heap ∧ s'.memory = s.memory ∧
      hugePageAt (poolPpn (htlbfsCfg nr2mb nr1gb) size i)
        size ∈ s'.hugePages := by
  set cfg := htlbfsCfg nr2mb nr1gb with hCfg
  have hStart : s.hugetlbfs = HugeTlbfs.construct cfg := by
    rcases Option.map_eq_some_iff.mp hConstruct with
      ⟨b, _, hEq⟩
    rw [← hEq]
  rcases HugeTlbfs.filled_run cfg rfl size i
      (Nat.le_of_lt hLt) (Nat.le_of_lt hIndex) with
    ⟨h, hFill, hOn, hFilled, hLength⟩
  have hPlaced := HugeTlbfs.placed_run hFill
  rw [← hStart] at hFill
  have hApp : (0 : Int) ∈ 0 :: s.applications :=
    List.mem_cons_self
  rcases run_allocateHugePage
      (s := { s with applications := 0 :: s.applications })
      hApp hFill with ⟨pages, hRun⟩
  have hLast := HugeTlbfs.allocateHugePage_of_filled hPlaced
    hOn hFilled (hLength ▸ hLt) hIndex
  set t : MimicOs := { s with
    applications := 0 :: s.applications
    hugetlbfs := h
    hugePages := pages } with hT
  refine ⟨.createApplication 0 ::
    (List.replicate i (.allocateHugePage 0 0 size) ++
      [.allocateHugePage 0 0 size]),
    (t.allocateHugePage 0 0 size).2, ?_, ?_, ?_⟩
  · rw [Run.run_cons_of_some _ rfl,
      Run.run_append_of_some _ hRun,
      Run.run_cons_of_some _ rfl, Run.run_nil]
  · refine Run.Along.mono (C := fun _ op =>
        op = .createApplication 0 ∨ op = .allocateHugePage 0 0 size)
      (fun t op hOp => ?_)
      (Run.along_of_forall_mem _ (fun op hMem => ?_))
    · rcases hOp with hOp | hOp
      · rw [hOp]
        trivial
      · rw [hOp]
        trivial
    · rcases List.mem_cons.mp hMem with hOp | hMem'
      · exact Or.inl hOp
      · rcases List.mem_append.mp hMem' with hIn | hIn
        · exact Or.inr (List.eq_of_mem_replicate hIn)
        · exact Or.inr (List.mem_singleton.mp hIn)
  · have hMember : (0 : Int) ∈ t.applications := hApp
    rw [MimicOs.allocateHugePage, if_pos hMember]
    refine ⟨rfl, rfl, ?_⟩
    simp only [hT, hLast]
    exact List.mem_cons_self

/- Page tables take one page after the other. -/
theorem run_pageTable
    (cfg : HugeTlbfsConfig)
    {n : Nat}
    (hAt : s.memory.kernelStartAddress = 4096 * n)
    (k : Nat)
    (hBelow : n + k ≤ 2 ^ 20) :
    ∃ s', Run.run step s
        (List.replicate k (.pageTable 4096)) = some s' ∧
      Run.Along step (PageTablesLow cfg) s
        (List.replicate k (.pageTable 4096)) ∧
      s'.hugePages = s.hugePages ∧
      (∀ frame ∈ s.frames, frame ∈ s'.frames) ∧
      ∀ p, n ≤ p → p < n + k →
        ∃ frame ∈ s'.frames, frame.Has p := by
  induction k generalizing s n with
  | zero =>
      exact ⟨s, rfl, trivial, rfl, fun _ hMem => hMem,
        fun p hFrom hTo => by omega⟩
  | succ k ih =>
      rw [List.replicate_succ]
      have hNext : (4096 * n + 4096) % 2 ^ 64 = 4096 * (n + 1) := by
        rw [Nat.mod_eq_of_lt (by omega)]
        omega
      set frame : Span :=
        ⟨(s.memory.handlePageTableAllocations 4096).1,
          (s.memory.kernelStartAddress + 4096 - 1) / 4096⟩
        with hFrame
      have hHas : frame.Has n := by
        rw [hFrame, hAt]
        refine ⟨?_, ?_⟩
        · simp only
            [PhysicalMemoryAllocator.handlePageTableAllocations,
            hAt]
          omega
        · simp only
          omega
      rcases ih (s := { s with
          memory := (s.memory.handlePageTableAllocations 4096).2
          frames := frame :: s.frames })
          (n := n + 1) (by
            simp only
              [PhysicalMemoryAllocator.handlePageTableAllocations,
              hAt]
            exact hNext) (by omega) with
        ⟨s', hRun, hAlong, hPages, hKept, hReach⟩
      refine ⟨s', ?_, ⟨?_, ?_⟩, hPages, ?_, ?_⟩
      · rw [Run.run_cons_of_some _ rfl]
        exact hRun
      · left
        rw [hAt]
        omega
      · intro t hStep
        rw [← Option.some.inj hStep]
        exact hAlong
      · intro other hMem
        exact hKept other (List.mem_cons_of_mem frame hMem)
      · intro p hFrom hTo
        rcases Nat.eq_or_lt_of_le hFrom with hEq | hLater
        · rw [← hEq]
          exact ⟨frame, hKept frame List.mem_cons_self, hHas⟩
        · exact hReach p hLater (by omega)

/- A call of the buddy allocator is a step. -/
theorem run_memory
    {ops : List Buddy.Op}
    {heap : Buddy.Heap}
    (hRun : Run.run Buddy.step s.heap ops = some heap)
    (hKept : ∀ block ∈ s.heap.outstanding, block ∈ s.frames) :
    ∃ frames, Run.run step s (ops.map .memory) =
        some { s with heap := heap, frames := frames } ∧
      ∀ block ∈ heap.outstanding, block ∈ frames := by
  induction ops generalizing s with
  | nil =>
      rw [Run.run_nil, Option.some.injEq] at hRun
      subst hRun
      exact ⟨s.frames, rfl, hKept⟩
  | cons op ops ih =>
      rcases Run.run_cons_eq_some hRun with
        ⟨heap₁, hCall, hRest⟩
      have hFirst : s.step (.memory op) =
          some { s with
            heap := heap₁
            frames := heap₁.outstanding ++ s.frames } := by
        rw [step, hCall]
        rfl
      rw [List.map_cons, Run.run_cons_of_some _ hFirst]
      exact ih hRest (fun block hMem =>
        List.mem_append.mpr (Or.inl hMem))

/- Huge pages are aligned to 2MB. -/
theorem poolPpn_mod
    (nr2mb nr1gb : UInt64)
    (size : HugePageSize)
    (i : Nat) :
    poolPpn (htlbfsCfg nr2mb nr1gb) size i % 512 = 0 := by
  have hBase : (htlbfsCfg nr2mb nr1gb).poolBasePpn.toNat =
      0x100000 := rfl
  rw [poolPpn, hBase]
  cases size with
  | size2mb =>
      simp only [HugeTlbfs.poolBase, HugePageSize.pages]
      omega
  | size1gb =>
      simp only [HugeTlbfs.poolBase, HugePageSize.pages]
      omega

theorem memory_construct
    (hConstruct : construct memorySize maxOrder kernelSize
      nr2mb nr1gb = some s) :
    s.memory = PhysicalMemoryAllocator.construct kernelSize := by
  rcases Option.map_eq_some_iff.mp hConstruct with
    ⟨b, _, hEq⟩
  rw [← hEq]

theorem outstanding_construct
    (hConstruct : construct memorySize maxOrder kernelSize
      nr2mb nr1gb = some s) :
    s.heap.outstanding = [] := by
  rcases Option.map_eq_some_iff.mp hConstruct with
    ⟨b, _, hEq⟩
  rw [← hEq]

/- The allocator comes to hand out a page. -/
def Reaches
    (cfg : HugeTlbfsConfig)
    (s : MimicOs)
    (p : Nat) : Prop :=
  ∃ ops s', Run.run step s ops = some s' ∧
    Run.Along step (PageTablesLow cfg) s ops ∧
    s'.hugePages = s.hugePages ∧
    ∃ frame ∈ s'.frames, frame.Has p

/- Page tables reach the pages below 4GB. -/
theorem reaches_pageTable
    (hAt : s.memory.kernelStartAddress = 4096)
    {p : Nat}
    (hFrom : 1 ≤ p)
    (hTo : p < 2 ^ 20) :
    Reaches cfg s p := by
  rcases run_pageTable cfg (n := 1) hAt p (by omega) with
    ⟨s', hRun, hAlong, hPages, _, hReach⟩
  exact ⟨_, s', hRun, hAlong, hPages, hReach p hFrom (by omega)⟩

/- The buddy allocator reaches the pages behind the kernel. -/
theorem reaches_memory
    (hInv : Buddy.Inv (memorySize, maxOrder, kernelSize) s.heap)
    (hNone : s.heap.outstanding = [])
    {p : Nat}
    (hFrom : Buddy.pagesInMb kernelSize ≤ p)
    (hTo : p < Buddy.pagesInMb memorySize) :
    Reaches cfg s p := by
  have hFields := hInv.2
  simp only [Buddy.geometry, Prod.mk.injEq] at hFields
  have hLow : s.heap.buddy.base ≤ p := by
    rw [Buddy.base, hFields.2.2]
    exact hFrom
  have hHigh : p < s.heap.buddy.limit := by
    rw [Buddy.limit, hFields.1]
    exact hTo
  rcases Buddy.exists_drain hInv hLow hHigh with
    ⟨n, heap, hDrain, block, hBlock, hHas⟩
  have hKept : ∀ block ∈ s.heap.outstanding, block ∈ s.frames := by
    rw [hNone]
    intro block hMem
    cases hMem
  rcases run_memory hDrain hKept with ⟨frames, hRun, hAll⟩
  refine ⟨(List.replicate n
    (Buddy.Op.allocate 4096)).map .memory,
    { s with heap := heap, frames := frames }, hRun, ?_, rfl,
    block, hAll block hBlock, hHas⟩
  refine Run.Along.mono (C := fun _ op =>
      op = .memory (.allocate 4096))
    (fun t op hOp => ?_)
    (Run.along_of_forall_mem _ (fun op hMem => ?_))
  · rw [hOp]
    exact ⟨by decide, by decide⟩
  · rcases List.mem_map.mp hMem with ⟨call, hCall, hEq⟩
    rw [← hEq, List.eq_of_mem_replicate hCall]

/- A pool that is not inside the kernel leads to a conflict. -/
theorem exists_conflict
    (hConstruct : construct memorySize maxOrder kernelSize
      nr2mb nr1gb = some s)
    (hPool : ¬ PoolInKernel memorySize kernelSize
      (htlbfsCfg nr2mb nr1gb)) :
    ∃ ops s', Run.run step s ops = some s' ∧
      Run.Along step (PageTablesLow (htlbfsCfg nr2mb nr1gb)) s ops ∧
      ¬ s'.HugePagesApart memorySize := by
  unfold PoolInKernel at hPool
  push Not at hPool
  rcases hPool with ⟨size, i, hLt, hIndex, hOut⟩
  rcases exists_hugePage hConstruct hLt hIndex with
    ⟨ops, t, hRun, hAlong, hHeap, hMemory, hMem⟩
  have hMultiple := poolPpn_mod nr2mb nr1gb size i
  set ppn := poolPpn (htlbfsCfg nr2mb nr1gb) size i
  have hPages := pages_ge size
  by_cases hInside : Buddy.pagesInMb memorySize < ppn + size.pages
  · refine ⟨ops, t, hRun, hAlong, fun hApart => ?_⟩
    have hStop := (hApart _ hMem).1
    simp only [hugePageAt] at hStop
    omega
  · have hMeets : ∃ p,
        Reaches (htlbfsCfg nr2mb nr1gb) t p ∧
          (hugePageAt ppn size).Has p := by
      by_cases hLow : ppn < 0x100000
      · -- A pool that wraps around ends among page tables.
        refine ⟨ppn + 1, reaches_pageTable ?_ (by omega)
          (by omega), ?_⟩
        · rw [hMemory, memory_construct hConstruct]
          rfl
        · simp only [hugePageAt, Span.Has]
          omega
      · have hBeyond := hOut (by omega)
        have hInv := (inv_construct hConstruct).heap
        have hNone := outstanding_construct hConstruct
        rw [← hHeap] at hInv hNone
        refine ⟨ppn + size.pages - 1,
          reaches_memory hInv hNone ?_ (by omega), ?_⟩
        · by_contra hNot
          have := hBeyond (by omega)
          omega
        · simp only [hugePageAt, Span.Has]
          omega
    rcases hMeets with
      ⟨p, ⟨ops', t', hRun', hAlong', hSame, frame, hFrame,
        hHas⟩, hIn⟩
    refine ⟨ops ++ ops', t', ?_, ?_, fun hApart => ?_⟩
    · rw [Run.run_append_of_some _ hRun]
      exact hRun'
    · exact Run.along_append hRun hAlong hAlong'
    · rw [← hSame] at hMem
      exact (hApart _ hMem).2 frame hFrame p hIn hHas

/-
  For every memory and every pool: all runs that keep page
  tables below 4GB keep huge pages inside memory and apart
  from all frames exactly if the pools lie between 4GB and
  the end of the kernel.
-/
theorem hugePagesApart_run_iff
    {nr2mb nr1gb : UInt64}
    (hConstruct : construct memorySize maxOrder kernelSize
      nr2mb nr1gb = some s) :
    (∀ ops s',
        Run.Along step (PageTablesLow (htlbfsCfg nr2mb nr1gb))
          s ops →
        Run.run step s ops = some s' →
          s'.HugePagesApart memorySize) ↔
      PoolInKernel memorySize kernelSize
        (htlbfsCfg nr2mb nr1gb) := by
  constructor
  · intro hApart
    by_contra hPool
    rcases exists_conflict hConstruct hPool with
      ⟨ops, s', hRun, hAlong, hConflict⟩
    exact hConflict (hApart ops s' hAlong hRun)
  · intro hPool ops s' hAlong hRun
    have hInv := Run.run_inv
      (fun _ _ _ hInv hLow hStep => inv_step hInv hLow hStep)
      (inv_construct hConstruct) hAlong hRun
    exact hInv.hugePagesApart hPool

/- A pool of one page inside a kernel of 8GB. -/
theorem hugePagesApart_run_kernel :
    ∃ s ∈ construct 16384 20 8192 1 0,
      ∃ s' ∈ Run.run step s
          [.createApplication 0,
            .allocateHugePage 0 0 .size2mb, .pageTable 4096,
            .memory (.allocate 4096)],
        s'.hugePages = [⟨0x100000, 0x1001ff⟩] ∧
          s'.HugePagesApart 16384 := by
  refine ⟨_, Option.get_mem ?_, _, Option.get_mem ?_, ?_,
    (hugePagesApart_run_iff (Option.get_mem _)).mpr ?_ _ _ ?_
      (Option.get_mem _)⟩
  iterate 3 decide +kernel
  · intro size i hLt _
    cases size with
    | size2mb =>
        have hOne : i < 1 := hLt
        have hZero : i = 0 := by omega
        subst hZero
        decide
    | size1gb => exact absurd hLt (Nat.not_lt_zero i)
  · decide +kernel

/-
  With 1GB of memory, as one configuration has it, the first
  huge page lies outside of memory.
-/
theorem not_hugePagesApart_run_small :
    ∃ s ∈ construct 1024 12 512 1 0,
      ∃ s' ∈ Run.run step s
          [.createApplication 0, .allocateHugePage 0 0 .size2mb],
        ¬ s'.HugePagesApart 1024 := by
  refine ⟨_, Option.get_mem ?_, _, Option.get_mem ?_,
    fun hApart => absurd
      (hApart ⟨0x100000, 0x1001ff⟩ ?_).1 (by decide)⟩
  iterate 3 decide +kernel

end MimicOs

end Virtuoso
