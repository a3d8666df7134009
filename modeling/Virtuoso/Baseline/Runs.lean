import Virtuoso.Baseline.Basic

/-
  Runs of the baseline allocator.

  The instruction area starts where the memory of the buddy
  allocator starts, and the pointer of the page tables has no
  limit and rounds down to a page. Frames in use stay apart
  exactly in the runs in which no data block covers a page of
  an instruction, and page tables are taken from whole pages
  below the end of the kernel.

  Main declarations:
    * `Baseline.framesApart_run_iff`
-/

------------------------------------------------------------
-- The Condition
------------------------------------------------------------

namespace Virtuoso

namespace Baseline

variable {s s' : System}

/-
  The state and the call keep the frames apart: the upper end
  of the free block that is selected has no instruction page,
  the instruction pages at the pointer are whole and no data
  pages, and page tables are taken from whole pages below the
  end of the kernel.
-/
def Meets (s : System) : Op → Prop
| .data bytes =>
    ∀ block ∈ s.allocator.buddy.candidate bytes,
      ∀ frame ∈ s.instructions,
        frame.Apart (blockBytes
          ⟨block.stop + 1 -
            2 ^ Buddy.orderOf (bytes / 4096), block.stop⟩)
| .instruction bytes =>
    let m := s.allocator.memory
    m.instructionCurrentAddress + bytes ≤ m.instructionEndAddress →
      4096 ∣ m.instructionCurrentAddress ∧
        ∀ block ∈ s.data,
          Span.Apart
            ⟨m.instructionCurrentAddress,
              m.instructionCurrentAddress + bytes - 1⟩
            (blockBytes block)
| .pageTable bytes =>
    let m := s.allocator.memory
    4096 ∣ m.kernelStartAddress ∧
      m.kernelStartAddress + bytes ≤ m.kernelEndAddress
| .giveBack => True

instance (s : System) (op : Op) : Decidable (Meets s op) :=
  match op with
  | .data bytes =>
      inferInstanceAs (Decidable
        (∀ block ∈ s.allocator.buddy.candidate bytes,
          ∀ frame ∈ s.instructions,
            frame.Apart (blockBytes
              ⟨block.stop + 1 -
                2 ^ Buddy.orderOf (bytes / 4096),
                block.stop⟩)))
  | .instruction bytes =>
      inferInstanceAs (Decidable
        (s.allocator.memory.instructionCurrentAddress + bytes ≤
            s.allocator.memory.instructionEndAddress →
          4096 ∣ s.allocator.memory.instructionCurrentAddress ∧
            ∀ block ∈ s.data,
              Span.Apart
                ⟨s.allocator.memory.instructionCurrentAddress,
                  s.allocator.memory.instructionCurrentAddress +
                    bytes - 1⟩
                (blockBytes block)))
  | .pageTable bytes =>
      inferInstanceAs (Decidable
        (4096 ∣ s.allocator.memory.kernelStartAddress ∧
          s.allocator.memory.kernelStartAddress + bytes ≤
            s.allocator.memory.kernelEndAddress))
  | .giveBack => isTrue trivial

/- What the runs that meet the condition preserve. -/
structure Inv
    (memorySize maxOrder kernelSize : Nat)
    (s : System) : Prop where
  buddy : Buddy.Inv (memorySize, maxOrder, kernelSize)
    ⟨s.allocator.buddy, s.data⟩
  kernelEnd : s.allocator.memory.kernelEndAddress =
    kernelSize * 2 ^ 20
  instructionEnd :
    s.allocator.memory.instructionEndAddress =
      kernelSize * 2 ^ 20 + 100 * 2 ^ 20
  pageTables : Bump.Stacked 4096 4096
    s.allocator.memory.kernelStartAddress s.pageTables
  instructions : Bump.Stacked 4096 (kernelSize * 2 ^ 20)
    s.allocator.memory.instructionCurrentAddress
    s.instructions
  below : s.pageTables ≠ [] →
    s.allocator.memory.kernelStartAddress ≤ kernelSize * 2 ^ 20
  within : s.allocator.memory.instructionCurrentAddress ≤
    s.allocator.memory.instructionEndAddress
  apart : ∀ frame ∈ s.instructions, ∀ block ∈ s.data,
    frame.Apart (blockBytes block)

section Invariant

variable {memorySize maxOrder kernelSize : Nat}

/- A byte of a block is a byte of one of its pages. -/
theorem has_of_blockBytes
    {block : Span}
    {p : Nat}
    (hHas : (blockBytes block).Has p) :
    block.Has (p / 4096) := by
  rcases hHas with ⟨hLow, hHigh⟩
  change block.start * 4096 ≤ p at hLow
  change p ≤ block.stop * 4096 + 4095 at hHigh
  exact ⟨by omega, by omega⟩

/- Data pages are behind the kernel. -/
theorem Inv.data_low
    (hInv : Inv memorySize maxOrder kernelSize s)
    {block : Span}
    (hMem : block ∈ s.data)
    {p : Nat}
    (hHas : (blockBytes block).Has p) :
    kernelSize * 2 ^ 20 ≤ p := by
  rcases hInv.buddy with ⟨hTiled, hGeometry⟩
  have hPage := has_of_blockBytes hHas
  have hOne := Span.one_le_coverage hMem hPage
  have hRange := hTiled.in_range
    (p := p / 4096) (by simp only; omega)
  simp only [Buddy.geometry, Prod.mk.injEq] at hGeometry
  have hBase : kernelSize * 256 ≤ p / 4096 := by
    have hLow := hRange.1
    simp only [Buddy.base, hGeometry.2.2,
      Buddy.pagesInMb_eq] at hLow
    exact hLow
  rw [Nat.le_div_iff_mul_le (by decide), Nat.mul_assoc] at hBase
  exact hBase

/- The invariant keeps the frames apart. -/
theorem Inv.framesApart
    (hInv : Inv memorySize maxOrder kernelSize s) :
    FramesApart s := by
  have hTables : ∀ frame ∈ s.pageTables,
      frame.stop < kernelSize * 2 ^ 20 := by
    intro frame hMem
    have hBelow := hInv.below (List.ne_nil_of_mem hMem)
    have hStop := (hInv.pageTables.bounds hMem).2
    omega
  refine ⟨?_, ?_⟩
  · rw [List.pairwise_append, List.pairwise_append]
    refine ⟨⟨hInv.instructions.pairwise,
      hInv.pageTables.pairwise, ?_⟩, ?_, ?_⟩
    · rintro frame hFrame table hTable p ⟨hLow, _⟩ ⟨_, hHigh⟩
      have hStart := (hInv.instructions.bounds hFrame).1
      have hStop := hTables table hTable
      omega
    · have hOnce : ∀ p, Span.coverage s.data p ≤ 1 := by
        intro p
        have := hInv.buddy.1.once p
        simp only at this
        omega
      apply List.Pairwise.map _ _ (Span.pairwise_apart hOnce)
      intro block block' hApart p hHas hHas'
      exact hApart (p / 4096) (has_of_blockBytes hHas)
        (has_of_blockBytes hHas')
    · intro frame hFrame bytes hBytes
      rcases List.mem_map.mp hBytes with ⟨block, hBlock, hEq⟩
      subst hEq
      rcases List.mem_append.mp hFrame with hCode | hTable
      · exact hInv.apart frame hCode block hBlock
      · rintro p ⟨_, hHigh⟩ hHas
        have hStop := hTables frame hTable
        have hLow := hInv.data_low hBlock hHas
        omega
  · intro frame hMem
    rw [hInv.kernelEnd]
    exact hTables frame hMem

------------------------------------------------------------
-- Steps
------------------------------------------------------------

/- All that a data allocation does. -/
theorem data_step
    (hInv : Inv memorySize maxOrder kernelSize s)
    {bytes : Nat}
    (hStep : step s (.data bytes) = some s') :
    (s' = s ∧ s.allocator.buddy.candidate bytes = none) ∨
      ∃ block b' start,
        s.allocator.buddy.candidate bytes = some block ∧
          start = block.stop + 1 -
            2 ^ Buddy.orderOf (bytes / 4096) ∧
          s' = { s with
            allocator := { s.allocator with buddy := b' }
            data := ⟨start, block.stop⟩ :: s.data } ∧
          Buddy.Inv (memorySize, maxOrder, kernelSize)
            ⟨b', ⟨start, block.stop⟩ :: s.data⟩ := by
  rcases Option.map_eq_some_iff.mp hStep with
    ⟨⟨result, a⟩, hAllocate, hEq⟩
  change s.allocator.fromBuddy bytes = _ at hAllocate
  rcases Option.map_eq_some_iff.mp hAllocate with
    ⟨⟨page, b'⟩, hBuddy, hPair⟩
  rw [Prod.mk.injEq] at hPair
  rcases hPair with ⟨hResult, hNext⟩
  rcases Buddy.inv_allocate hInv.buddy hBuddy with
    ⟨hNone, hSame, hScan⟩ | ⟨first, hSome, hInv'⟩
  · left
    refine ⟨?_, hScan⟩
    subst hNone hSame
    rw [← hEq, ← hResult, ← hNext]
  · right
    subst hSome
    rcases Buddy.upper_of_allocate hInv.buddy.1 hBuddy with
      ⟨block, hCandidate, hEnd⟩
    have hPos : 0 < 2 ^ Buddy.orderOf (bytes / 4096) :=
      Nat.two_pow_pos _
    have hStart : first = block.stop + 1 -
        2 ^ Buddy.orderOf (bytes / 4096) := by
      omega
    have hStop : first +
        2 ^ Buddy.orderOf (bytes / 4096) - 1 = block.stop := by
      omega
    rw [hStop] at hInv'
    refine ⟨block, b', first, hCandidate, hStart, ?_, hInv'⟩
    rw [← hEq, ← hResult, ← hNext]
    simp only [hStop]

/- All that an instruction allocation does. -/
theorem instruction_step
    (hInv : Inv memorySize maxOrder kernelSize s)
    (hKernel : kernelSize < 2 ^ 31)
    {bytes : Nat}
    (hBytes : bytes < 2 ^ 63)
    (hStep : step s (.instruction bytes) = some s') :
    let m := s.allocator.memory
    (s' = s ∧ m.instructionEndAddress <
        m.instructionCurrentAddress + bytes) ∨
      (m.instructionCurrentAddress + bytes ≤
          m.instructionEndAddress ∧
        s' = { s with
          allocator := { s.allocator with
            memory := { m with
              instructionCurrentAddress :=
                m.instructionCurrentAddress + bytes } }
          instructions :=
            bytesAt (m.instructionCurrentAddress / 4096)
              bytes :: s.instructions }) := by
  intro m
  have hEnd : m.instructionEndAddress =
      kernelSize * 2 ^ 20 + 100 * 2 ^ 20 := hInv.instructionEnd
  have hWithin : m.instructionCurrentAddress ≤
      m.instructionEndAddress := hInv.within
  have hNoWrap : (m.instructionCurrentAddress + bytes) %
      2 ^ 64 = m.instructionCurrentAddress + bytes :=
    Nat.mod_eq_of_lt (by omega)
  simp only [step, BaselineAllocator.allocate,
    Bool.false_eq_true, if_false, if_true, Option.map_some,
    PhysicalMemoryAllocator.allocateInstruction,
    Option.some.injEq] at hStep
  by_cases hOut : m.instructionEndAddress <
      m.instructionCurrentAddress + bytes
  · left
    refine ⟨?_, hOut⟩
    rw [← hStep, hNoWrap, if_pos hOut]
  · right
    refine ⟨by omega, ?_⟩
    rw [← hStep, hNoWrap, if_neg hOut]

/- The byte region of an instruction page at a whole page. -/
theorem bytesAt_of_dvd
    {pointer : Nat}
    (hAligned : 4096 ∣ pointer)
    (bytes : Nat) :
    bytesAt (pointer / 4096) bytes =
      ⟨pointer, pointer + bytes - 1⟩ := by
  unfold bytesAt
  rw [Nat.div_mul_cancel hAligned]

/- A call that meets the condition keeps the invariant. -/
theorem inv_step
    (hKernel : kernelSize < 2 ^ 31)
    {op : Op}
    (hInv : Inv memorySize maxOrder kernelSize s)
    (hPermitted : Permitted s op)
    (hMeets : Meets s op)
    (hStep : step s op = some s') :
    Inv memorySize maxOrder kernelSize s' := by
  cases op with
  | data bytes =>
      rcases data_step hInv hStep with ⟨hSame, _⟩ |
        ⟨block, b', first, hCandidate, hStart, hEq, hBuddy⟩
      · exact hSame ▸ hInv
      · subst hEq
        refine { hInv with buddy := hBuddy, apart := ?_ }
        intro frame hFrame other hMem
        rcases List.mem_cons.mp hMem with hNew | hOld
        · rw [hNew, hStart]
          exact hMeets block hCandidate frame hFrame
        · exact hInv.apart frame hFrame other hOld
  | instruction bytes =>
      rcases instruction_step hInv hKernel hPermitted.2
          hStep with ⟨hSame, _⟩ | ⟨hFits, hEq⟩
      · exact hSame ▸ hInv
      · subst hEq
        rcases hMeets hFits with ⟨hAligned, hApart⟩
        refine { hInv with
          instructions := ?_, within := hFits, apart := ?_ }
        · simp only [bytesAt_of_dvd hAligned]
          exact hInv.instructions.push hAligned hPermitted.1
        · intro frame hFrame block hMem
          simp only [bytesAt_of_dvd hAligned] at hFrame
          rcases List.mem_cons.mp hFrame with hNew | hOld
          · rw [hNew]
            exact hApart block hMem
          · exact hInv.apart frame hOld block hMem
  | pageTable bytes =>
      rcases hMeets with ⟨hAligned, hEnd⟩
      rw [hInv.kernelEnd] at hEnd
      rw [step, Option.some.injEq] at hStep
      subst hStep
      have hNoWrap :
          (s.allocator.memory.kernelStartAddress + bytes) % 2 ^ 64 =
          s.allocator.memory.kernelStartAddress + bytes :=
        Nat.mod_eq_of_lt (by omega)
      refine { hInv with pageTables := ?_, below := ?_ }
      · simp only
          [PhysicalMemoryAllocator.handlePageTableAllocations,
            bytesAt_of_dvd hAligned, hNoWrap]
        exact hInv.pageTables.push hAligned hPermitted
      · intro _
        simp only
          [PhysicalMemoryAllocator.handlePageTableAllocations,
            hNoWrap]
        exact hEnd
  | giveBack =>
      rcases hPermitted with ⟨frame, hHead, hSize⟩
      rw [step, Option.some.injEq] at hStep
      subst hStep
      have hStack := hInv.pageTables
      have hBelow := hInv.below
      cases hTables : s.pageTables with
      | nil =>
          rw [hTables] at hHead
          cases hHead
      | cons first rest =>
          rw [hTables, List.head?_cons,
            Option.mem_some_iff] at hHead
          subst hHead
          rw [hTables] at hStack hBelow
          rcases hStack with ⟨_, hStop, _, hRest⟩
          have hLimit := hBelow (by simp)
          have hValue :
              (s.allocator.memory.kernelStartAddress +
                (2 ^ 64 - 4096 % 2 ^ 64)) % 2 ^ 64 =
                first.start := by
            omega
          have hPointer :
              s.allocator.memory.handlePageTableDeallocations 4096 =
                { s.allocator.memory with
                  kernelStartAddress := first.start } := by
            rw [PhysicalMemoryAllocator.handlePageTableDeallocations,
              hValue]
          rw [hPointer, List.tail_cons]
          refine { hInv with
            pageTables := hRest, below := ?_ }
          intro _
          change first.start ≤ kernelSize * 2 ^ 20
          omega

/- Two frames in use with a common byte. -/
theorem not_framesApart_of_data
    {frame block : Span}
    (hFrame : frame ∈ s.instructions)
    (hBlock : block ∈ s.data)
    (hMeet : ¬ frame.Apart (blockBytes block)) :
    ¬ FramesApart s := by
  rintro ⟨hPairwise, _⟩
  apply hMeet
  exact (List.pairwise_append.mp hPairwise).2.2 frame
    (List.mem_append_left _ hFrame) (blockBytes block)
    (List.mem_map_of_mem hBlock)

/- A region inside of the page of the last one. -/
theorem meet_of_not_dvd
    {pointer base bytes : Nat}
    {l : List Span}
    (hBase : 4096 ∣ base)
    (hStacked : Bump.Stacked 4096 base pointer l)
    (hInside : ¬ 4096 ∣ pointer)
    (hBytes : 0 < bytes) :
    ¬ (bytesAt (pointer / 4096) bytes :: l).Pairwise
      Span.Apart := by
  intro hPairwise
  rcases hStacked.exists_of_not_dvd (by decide) hBase
      hInside with ⟨last, hMem, hHas⟩
  refine (List.pairwise_cons.mp hPairwise).1 last hMem
    (pointer / 4096 * 4096) ⟨Nat.le_refl _, ?_⟩ hHas
  change _ ≤ pointer / 4096 * 4096 + bytes - 1
  omega

/- Any other call brings two frames together. -/
theorem not_framesApart_step
    (hKernel : kernelSize < 2 ^ 31)
    {op : Op}
    (hInv : Inv memorySize maxOrder kernelSize s)
    (hPermitted : Permitted s op)
    (hMissed : ¬ Meets s op)
    (hStep : step s op = some s') :
    ¬ FramesApart s' := by
  have hEndDvd : 4096 ∣ kernelSize * 2 ^ 20 :=
    Dvd.dvd.mul_left (by decide) kernelSize
  cases op with
  | data bytes =>
      simp only [Meets, not_forall] at hMissed
      rcases hMissed with
        ⟨block, hCandidate, frame, hFrame, hMeet⟩
      rw [Option.mem_def] at hCandidate
      rcases data_step hInv hStep with ⟨_, hNone⟩ |
        ⟨other, b', first, hTaken, hStart, hEq, _⟩
      · rw [hNone] at hCandidate
        cases hCandidate
      · rw [hTaken, Option.some.injEq] at hCandidate
        subst hCandidate hStart hEq
        exact not_framesApart_of_data hFrame
          List.mem_cons_self hMeet
  | instruction bytes =>
      simp only [Meets, not_forall, not_and] at hMissed
      rcases hMissed with ⟨hFits, hMissed⟩
      rcases instruction_step hInv hKernel hPermitted.2
          hStep with ⟨_, hOut⟩ | ⟨_, hEq⟩
      · omega
      · subst hEq
        by_cases hAligned : 4096 ∣
            s.allocator.memory.instructionCurrentAddress
        · rcases hMissed hAligned with ⟨block, hMem, hMeet⟩
          rw [← bytesAt_of_dvd hAligned] at hMeet
          exact not_framesApart_of_data List.mem_cons_self
            hMem hMeet
        · rintro ⟨hPairwise, _⟩
          rw [List.append_assoc, List.pairwise_append] at hPairwise
          exact meet_of_not_dvd hEndDvd hInv.instructions
            hAligned hPermitted.1 hPairwise.1
  | pageTable bytes =>
      rw [step, Option.some.injEq] at hStep
      subst hStep
      rintro ⟨hPairwise, hBelow⟩
      apply hMissed
      have hAligned : 4096 ∣
          s.allocator.memory.kernelStartAddress := by
        by_contra hInside
        rw [List.pairwise_append, List.pairwise_append] at hPairwise
        exact meet_of_not_dvd (by decide) hInv.pageTables
          hInside hPermitted hPairwise.1.2.1
      refine ⟨hAligned, ?_⟩
      have hStop := hBelow _ List.mem_cons_self
      change s.allocator.memory.kernelStartAddress / 4096 *
        4096 + bytes - 1 <
          s.allocator.memory.kernelEndAddress at hStop
      rw [Nat.div_mul_cancel hAligned] at hStop
      omega
  | giveBack => exact absurd trivial hMissed

/- The invariant before the first call. -/
theorem inv_start
    (hKernel : kernelSize < 2 ^ 31)
    {a : BaselineAllocator}
    (hConstruct : BaselineAllocator.construct memorySize
      maxOrder kernelSize = some a) :
    Inv memorySize maxOrder kernelSize (start a) := by
  rcases Option.map_eq_some_iff.mp hConstruct with
    ⟨b, hBuddy, hEq⟩
  subst hEq
  have hEnd : kernelSize * 2 ^ 20 % 2 ^ 64 = kernelSize * 2 ^ 20 :=
    Nat.mod_eq_of_lt (by omega)
  have hArea : (kernelSize * 2 ^ 20 + 100 * 2 ^ 20) % 2 ^ 64 =
      kernelSize * 2 ^ 20 + 100 * 2 ^ 20 := by
    have hLess : kernelSize * 2 ^ 20 + 104857600 < 2 ^ 64 := by
      omega
    exact Nat.mod_eq_of_lt hLess
  refine
    { buddy := ⟨Buddy.tiled_construct hBuddy,
        (Buddy.construct_eq_some hBuddy).2⟩
      kernelEnd := hEnd
      instructionEnd := ?_
      pageTables := rfl
      instructions := hEnd
      below := fun hSome => absurd rfl hSome
      within := ?_
      apart := fun frame hMem => by cases hMem }
  · simp only [start, PhysicalMemoryAllocator.construct, hEnd,
      hArea]
  · simp only [start, PhysicalMemoryAllocator.construct, hEnd,
      hArea]
    exact Nat.le_add_right _ _

/-
  In the states that a run reaches the frames in use are
  apart exactly if every call meets the condition.
-/
theorem framesApart_run_iff
    (hKernel : kernelSize < 2 ^ 31)
    {a : BaselineAllocator}
    (hConstruct : BaselineAllocator.construct memorySize
      maxOrder kernelSize = some a)
    {ops : List Op}
    (hPermitted : Run.Along step Permitted (start a) ops)
    (hRun : Run.run step (start a) ops = some s) :
    (∀ front, front <+: ops → ∀ t,
        Run.run step (start a) front = some t → FramesApart t) ↔
      Run.Along step Meets (start a) ops :=
  (Run.along_iff_of_run
    (I := Inv memorySize maxOrder kernelSize)
    (fun _ hInv => hInv.framesApart)
    (fun _ _ _ hInv hPermitted hMeets hStep =>
      inv_step hKernel hInv hPermitted hMeets hStep)
    (fun _ _ _ hInv hPermitted hMissed hStep =>
      not_framesApart_step hKernel hInv hPermitted hMissed hStep)
    (inv_start hKernel hConstruct) hPermitted hRun).symm

end Invariant

/-
  Data and instruction pages at the two ends of a megabyte,
  page tables of three pages, and one that is given back.
-/
theorem framesApart_run_ends :
    ∃ a ∈ BaselineAllocator.construct 2 9 1,
      ∃ s ∈ Run.run step (start a)
          [.data 4096, .instruction 4096, .pageTable 8192,
            .pageTable 4096, .giveBack, .data 8192],
        FramesApart s := by
  refine ⟨_, Option.get_mem ?_, _, Option.get_mem ?_, ?_⟩
  iterate 2 decide +kernel
  refine (framesApart_run_iff (by decide) (Option.get_mem _) ?_
    (Option.get_mem ?_)).mpr ?_ _ (List.prefix_refl _) _
    (Option.get_mem _)
  iterate 3 decide +kernel

/-
  With one megabyte behind the kernel, the last of 256 data
  pages is the page of the first instruction.
-/
theorem framesApart_run_full :
    ∃ a ∈ BaselineAllocator.construct 2 9 1,
      ∃ s ∈ Run.run step (start a)
          (.instruction 4096 :: List.replicate 256 (.data 4096)),
        Run.Along step Permitted (start a)
            (.instruction 4096 :: List.replicate 256 (.data 4096)) ∧
          ¬ FramesApart s := by
  refine ⟨_, Option.get_mem ?_, _, Option.get_mem ?_, ?_, ?_⟩
  iterate 3 decide +kernel
  exact not_framesApart_of_data
    (show ⟨1048576, 1052671⟩ ∈ _ by decide +kernel)
    (show ⟨256, 256⟩ ∈ _ by decide +kernel) (by decide)

end Baseline

end Virtuoso
