import Virtuoso.Buddy.Exact
import Virtuoso.ExceptionHandler.Basic

/-
  When the allocators provide a page for a fault.

  The pages of data lie behind the kernel, also after regions
  were demoted, since a demotion puts back pages of a region
  and the page behind it.

  Main declarations:
    * `FaultAllocator.sound_constructed`
    * `FaultAllocator.allocate_of_ready`
-/

------------------------------------------------------------
-- Sound Allocators
------------------------------------------------------------

namespace Virtuoso

namespace Buddy

/- Some free list has a block. -/
def HasBlock (b : Buddy) : Prop :=
  ∃ k, k < b.maxOrder + 1 ∧ b.freeList k ≠ []

instance (b : Buddy) : Decidable (HasBlock b) :=
  inferInstanceAs (Decidable (∃ k, k < _ ∧ _))

/- Small blocks may reach behind the limit. -/
def roomy (limit k : Nat) : Nat :=
  limit + (2 - k)

theorem antitone_roomy
    (limit : Nat) :
    Antitone (roomy limit) := by
  intro k k' hLe
  unfold roomy
  omega

/- Blocks of exact sizes between two bounds. -/
structure Usable (lo limit : Nat) (b : Buddy) : Prop where
  exact : Exact b.maxOrder b.freeList
  within : Within lo (roomy limit) b.freeList

variable {lo limit : Nat} {b b' : Buddy}

theorem usable_of_tiled
    {out : List Span}
    (hTiled : Tiled b out) :
    Usable b.base b.limit b := by
  refine ⟨exact_of_tiled hTiled, ?_⟩
  intro k block hMem
  exact (within_of_tiled hTiled k block hMem).mono
    (Nat.le_add_right b.limit (2 - k))

theorem orderOf_page :
    orderOf (4096 / 4096) = 0 := by
  decide

/- A page is allocated as long as some list has a block. -/
theorem Usable.allocate
    (hUsable : Usable lo limit b)
    (hBlock : HasBlock b) :
    ∃ page b', b.allocate 4096 = some (some page, b') ∧
      b'.maxOrder = b.maxOrder ∧ Usable lo limit b' ∧
      lo ≤ page ∧ page < limit + 2 := by
  rcases hUsable.exact.allocate 4096
      (by rw [orderOf_page]; omega) with
    ⟨-, hEmpty⟩ | ⟨page, b', hCall, hGeometry, hExact⟩
  · rcases hBlock with ⟨k, hLt, hSome⟩
    exact absurd (hEmpty k (by rw [orderOf_page]; omega)
      (by omega)) hSome
  · rcases within_allocate (antitone_roomy limit)
      hUsable.within hCall with ⟨hWithin, hPage⟩
    have hRange := hPage page rfl
    rw [orderOf_page] at hRange
    simp only [roomy, Nat.pow_zero, Nat.sub_zero] at hRange
    simp only [geometry, Prod.mk.injEq] at hGeometry
    exact ⟨page, b', hCall, hGeometry.2.1, ⟨hExact, hWithin⟩,
      hRange.1, by omega⟩

/- Without a block there is no page. -/
theorem Usable.allocate_none
    (hUsable : Usable lo limit b)
    (hBlock : ¬ HasBlock b) :
    b.allocate 4096 = some (none, b) := by
  rcases hUsable.exact.allocate 4096
      (by rw [orderOf_page]; omega) with
    ⟨hCall, -⟩ | ⟨page, b', hCall, -, -⟩
  · exact hCall
  · exfalso
    apply hBlock
    by_contra hNone
    have hScan : b.firstNonEmpty 0 = none := by
      rw [firstNonEmpty_eq_none]
      intro i _ hHigh
      by_contra hSome
      exact hBlock ⟨i, by omega, hSome⟩
    simp only [Buddy.allocate, orderOf_page, hScan,
      Option.getD_none, Nat.zero_max, if_true,
      Option.some.injEq, Prod.mk.injEq] at hCall
    cases hCall.1

/- A reservation of 512 pages, if there is one. -/
theorem Usable.reserve2mbPage
    (hUsable : Usable lo limit b)
    (hLists : 4 ≤ b.maxOrder) :
    b.reserve2mbPage = some (none, b) ∨
      ∃ block b', b.reserve2mbPage = some (some block, b') ∧
        b'.maxOrder = b.maxOrder ∧ Usable lo limit b' ∧
        lo ≤ block.start ∧ block.start + 512 ≤ limit := by
  rcases hUsable.exact.reserve2mbPage hLists with
    hNone | ⟨block, b', hCall, hGeometry, hExact⟩
  · exact Or.inl hNone
  · refine Or.inr ⟨block, b', hCall, ?_, ?_⟩
    · simp only [geometry, Prod.mk.injEq] at hGeometry
      exact hGeometry.2.1
    · rcases within_reserve2mbPage (antitone_roomy limit)
        hUsable.within hCall with ⟨hWithin, hPage⟩
      exact ⟨⟨hExact, hWithin⟩, hPage block rfl⟩

/- The pages of a region are put back in pairs. -/
theorem Usable.freeAll
    {blocks : List Span}
    (hUsable : Usable lo limit b)
    (hOrders : 1 ≤ b.maxOrder)
    (hBlocks : ∀ t ∈ blocks, t.stop = t.start + 1 ∧
      lo ≤ t.start ∧ t.start < limit) :
    Usable lo limit (ReserveThp.freeAll b blocks) ∧
      (ReserveThp.freeAll b blocks).maxOrder = b.maxOrder ∧
      (blocks ≠ [] ∨ HasBlock b →
        HasBlock (ReserveThp.freeAll b blocks)) := by
  induction blocks generalizing b with
  | nil => exact ⟨hUsable, rfl, by simp [ReserveThp.freeAll]⟩
  | cons t rest ih =>
      rcases hBlocks t (by simp) with ⟨hStop, hLow, hHigh⟩
      have hOrder : orderOf (t.start + 1 - t.start + 1) = 1 := by
        rw [Nat.add_sub_cancel_left]
        decide
      have hNext : Usable lo limit (b.free t.start t.stop) := by
        rw [hStop]
        refine ⟨hUsable.exact.free hOrders t.start, ?_⟩
        apply within_free hUsable.within (by omega) hLow
        rw [hOrder]
        unfold roomy
        omega
      have hHas : HasBlock (b.free t.start t.stop) := by
        refine ⟨1, by simp only [free]; omega, ?_⟩
        rw [hStop]
        simp only [free, hOrder, pushBack, Function.update_self]
        simp
      rcases ih hNext hOrders
        (fun t' hMem => hBlocks t' (by simp [hMem])) with
        ⟨hAll, hMax, hSome⟩
      exact ⟨hAll, hMax, fun _ => hSome (Or.inr hHas)⟩

theorem tiled_fragment
    (rounds : List (Bool × Nat))
    {out : List Span}
    (hTiled : Tiled b out) :
    Tiled (FaultAllocator.fragment rounds b) out ∧
      (FaultAllocator.fragment rounds b).geometry = b.geometry := by
  unfold FaultAllocator.fragment
  induction rounds generalizing b with
  | nil => exact ⟨hTiled, rfl⟩
  | cons round rest ih =>
      rw [List.foldl_cons]
      split_ifs
      · have hPick : ∀ i, 9 ≤ i →
            uniform 8 (min (i - 1) 8) round.2 < i := by
          intro i hLow
          have hLe := uniform_le 8 (min (i - 1) 8) round.2
            (by omega)
          omega
        rcases ih (tiled_splitLargest hTiled hPick) with
          ⟨hNext, hGeometry⟩
        exact ⟨hNext, hGeometry.trans (splitLargest_geometry _)⟩
      · have hPick : ∀ i, 9 ≤ i →
            uniform 8 (i - 1) round.2 < i := by
          intro i hLow
          have hLe := uniform_le 8 (i - 1) round.2 (by omega)
          omega
        rcases ih (tiled_splitLargest hTiled hPick) with
          ⟨hNext, hGeometry⟩
        exact ⟨hNext, hGeometry.trans (splitLargest_geometry _)⟩

end Buddy

namespace FaultAllocator

open ReserveThp

/- The buddy allocator below. -/
def buddy :
    FaultAllocator → Buddy
| .baseline a => a.buddy
| .reserve thp _ => thp.buddy

/- The regions of 2MB that are reserved. -/
def regions :
    FaultAllocator → TwoMbMap
| .baseline _ => []
| .reserve thp _ => thp.twoMbMap

/-
  The allocator has a page for the fault. A region that is
  demoted has a page that is not used.
-/
def Ready
    (address : Nat)
    (isInstruction : Bool)
    (pick : Nat) :
    FaultAllocator → Prop
| .baseline a =>
    if isInstruction then
      a.memory.instructionCurrentAddress + 4096 ≤
        a.memory.instructionEndAddress
    else
      a.buddy.HasBlock
| .reserve thp _ =>
    match thp.twoMbMap.lookup (address / 2 ^ 21) with
    | some region => region.promoted = false
    | none =>
        4 ≤ thp.buddy.maxOrder ∧
          (thp.buddy.HasBlock ∨
            ∃ e ∈ utilizationFront thp.twoMbMap pick,
              e.2.count < 512)

instance
    (address : Nat)
    (isInstruction : Bool)
    (pick : Nat)
    (a : FaultAllocator) :
    Decidable (Ready address isInstruction pick a) :=
  match a with
  | .baseline a =>
      match isInstruction with
      | true => inferInstanceAs (Decidable (_ ≤ _))
      | false => inferInstanceAs (Decidable a.buddy.HasBlock)
  | .reserve thp _ =>
      match hLookup :
          thp.twoMbMap.lookup (address / 2 ^ 21) with
      | some region =>
          decidable_of_iff (region.promoted = false)
            (by simp only [Ready, hLookup])
      | none =>
          decidable_of_iff
            (4 ≤ thp.buddy.maxOrder ∧
              (thp.buddy.HasBlock ∨
                ∃ e ∈ utilizationFront thp.twoMbMap pick,
                  e.2.count < 512))
            (by simp only [Ready, hLookup])

/- Kernel memory lies below the pages of data. -/
structure Sound
    (memorySize kernelSize : Nat)
    (a : FaultAllocator) : Prop where
  aligned : 4096 ∣ a.memory.kernelStartAddress
  positive : 4096 ≤ a.memory.kernelStartAddress
  kernelEnd : a.memory.kernelEndAddress = kernelSize * 2 ^ 20
  instructionLow : kernelSize * 2 ^ 20 ≤
    a.memory.instructionCurrentAddress
  instructionEnd : a.memory.instructionEndAddress =
    kernelSize * 2 ^ 20 + 100 * 2 ^ 20
  usable : Buddy.Usable (kernelSize * 256) (memorySize * 256)
    a.buddy
  regions : ∀ e ∈ a.regions,
    kernelSize * 256 ≤ e.2.regionBegin ∧
      e.2.regionBegin + 512 ≤ memorySize * 256

variable {memorySize maxOrder kernelSize : Nat}
variable {address pick : Nat} {isInstruction : Bool}
variable {a : FaultAllocator}

/- A new allocator, as it was fragmented. -/
theorem usable_construct
    {b : Buddy}
    (hConstruct : Buddy.construct memorySize maxOrder
      kernelSize = some b)
    (rounds : List (Bool × Nat)) :
    Buddy.Usable (kernelSize * 256) (memorySize * 256)
      (fragment rounds b) := by
  rcases Buddy.tiled_fragment rounds
    (Buddy.tiled_construct hConstruct) with
    ⟨hTiled, hGeometry⟩
  rw [(Buddy.construct_eq_some hConstruct).2] at hGeometry
  simp only [Buddy.geometry, Prod.mk.injEq] at hGeometry
  have hUsable := Buddy.usable_of_tiled hTiled
  have hBase : (fragment rounds b).base = kernelSize * 256 := by
    rw [Buddy.base, hGeometry.2.2, Buddy.pagesInMb]
    omega
  have hLimit : (fragment rounds b).limit = memorySize * 256 := by
    rw [Buddy.limit, hGeometry.1, Buddy.pagesInMb]
    omega
  rw [hBase, hLimit] at hUsable
  exact hUsable

theorem sound_constructed
    (hKernel : kernelSize < 2 ^ 31)
    (hConstructed : Constructed memorySize maxOrder kernelSize a) :
    Sound memorySize kernelSize a := by
  have hMemory : ∀ m,
      m = PhysicalMemoryAllocator.construct kernelSize →
        4096 ∣ m.kernelStartAddress ∧
        4096 ≤ m.kernelStartAddress ∧
        m.kernelEndAddress = kernelSize * 2 ^ 20 ∧
        kernelSize * 2 ^ 20 ≤ m.instructionCurrentAddress ∧
        m.instructionEndAddress =
          kernelSize * 2 ^ 20 + 100 * 2 ^ 20 := by
    intro m hEq
    subst hEq
    simp only [PhysicalMemoryAllocator.construct]
    refine ⟨by decide, Nat.le_refl _, ?_, ?_, ?_⟩
    · omega
    · omega
    · omega
  cases hConstructed with
  | @baseline a hConstruct rounds =>
      rcases Option.map_eq_some_iff.mp hConstruct with
        ⟨b, hBuddy, hEq⟩
      subst hEq
      rcases hMemory _ rfl with
        ⟨hAligned, hPositive, hEnd, hLow, hArea⟩
      exact ⟨hAligned, hPositive, hEnd, hLow, hArea,
        usable_construct hBuddy rounds,
        by simp [FaultAllocator.regions]⟩
  | @reserve threshold thp hConstruct rounds =>
      rcases Option.map_eq_some_iff.mp hConstruct with
        ⟨b, hBuddy, hEq⟩
      subst hEq
      rcases hMemory _ rfl with
        ⟨hAligned, hPositive, hEnd, hLow, hArea⟩
      exact ⟨hAligned, hPositive, hEnd, hLow, hArea,
        usable_construct hBuddy rounds,
        by simp [FaultAllocator.regions]⟩

/- Another place of the pointer for kernel memory. -/
theorem Sound.setPointer
    (hSound : Sound memorySize kernelSize a)
    {pointer : Nat}
    (hAligned : 4096 ∣ pointer)
    (hPositive : 4096 ≤ pointer) :
    Sound memorySize kernelSize (a.setMemory
      { a.memory with kernelStartAddress := pointer }) := by
  cases a with
  | baseline a =>
      exact ⟨hAligned, hPositive, hSound.kernelEnd,
        hSound.instructionLow, hSound.instructionEnd,
        hSound.usable, hSound.regions⟩
  | reserve thp memory =>
      exact ⟨hAligned, hPositive, hSound.kernelEnd,
        hSound.instructionLow, hSound.instructionEnd,
        hSound.usable, hSound.regions⟩

------------------------------------------------------------
-- Allocation
------------------------------------------------------------

/- The outcome of an allocation that provides a page. -/
structure Provides
    (memorySize kernelSize : Nat)
    (a : FaultAllocator)
    (ppn : Nat)
    (size : PageSize)
    (a' : FaultAllocator) : Prop where
  sound : Sound memorySize kernelSize a'
  memory :
    a'.memory.kernelStartAddress = a.memory.kernelStartAddress
  low : kernelSize * 256 ≤ ppn
  valid : ppn ≠ invalidPpn

theorem allocate_baseline
    {a : BaselineAllocator}
    (hMemory : memorySize < 2 ^ 31)
    (hKernel : kernelSize < 2 ^ 31)
    (hSound : Sound memorySize kernelSize (.baseline a))
    (hReady : Ready address isInstruction pick (.baseline a)) :
    ∃ ppn size a', (FaultAllocator.baseline a).allocate
        address isInstruction pick = some ((some ppn, size), a') ∧
      Provides memorySize kernelSize (.baseline a) ppn size a' := by
  have hEnd := hSound.instructionEnd
  have hLow := hSound.instructionLow
  simp only [memory] at hEnd hLow
  cases isInstruction with
  | true =>
      have hRoom : a.memory.instructionCurrentAddress + 4096 ≤
        a.memory.instructionEndAddress := hReady
      have hValid : a.memory.instructionCurrentAddress / 4096 ≠
          invalidPpn := by
        unfold invalidPpn
        omega
      have hBehind : kernelSize * 2 ^ 20 ≤
          a.memory.instructionCurrentAddress + 4096 := by
        omega
      have hPage : kernelSize * 256 ≤
          a.memory.instructionCurrentAddress / 4096 := by
        apply (Nat.le_div_iff_mul_le (by decide)).mpr
        rw [Nat.mul_assoc]
        exact hLow
      have hNext : (a.memory.instructionCurrentAddress +
          4096) % 2 ^ 64 =
            a.memory.instructionCurrentAddress + 4096 := by
        apply Nat.mod_eq_of_lt
        omega
      refine ⟨a.memory.instructionCurrentAddress / 4096,
        .fourKb, .baseline { a with
          memory := { a.memory with
            instructionCurrentAddress :=
              a.memory.instructionCurrentAddress + 4096 } },
        ?_, ⟨⟨hSound.aligned, hSound.positive,
          hSound.kernelEnd, hBehind, hSound.instructionEnd,
          hSound.usable, hSound.regions⟩, rfl, hPage, hValid⟩⟩
      simp only [allocate, BaselineAllocator.allocate,
        Bool.false_eq_true, if_false, if_true,
        PhysicalMemoryAllocator.allocateInstruction, hNext,
        if_neg (Nat.not_lt.mpr hRoom), Option.map_some]
  | false =>
      have hBlock : a.buddy.HasBlock := hReady
      rcases hSound.usable.allocate hBlock with
        ⟨page, b', hCall, -, hUsable, hPage, hHigh⟩
      refine ⟨page, .fourKb, .baseline { a with buddy := b' },
        ?_, ⟨⟨hSound.aligned, hSound.positive,
          hSound.kernelEnd, hSound.instructionLow,
          hSound.instructionEnd, hUsable, hSound.regions⟩,
          rfl, hPage, ?_⟩⟩
      · have hBuddy : a.buddy.allocate 4096 =
          some (some page, b') := hCall
        simp only [allocate, BaselineAllocator.allocate,
          BaselineAllocator.fromBuddy, Bool.false_eq_true,
          if_false, hBuddy, Option.map_some]
      · unfold invalidPpn
        omega

variable {thp : ReserveThp}

/- A page that is used in a region that is not promoted. -/
theorem markPage_of_open
    {key offset : Nat}
    {region : Region}
    (hOpen : region.promoted = false) :
    markPage thp key region offset =
      some ((frameIn region offset (promotes thp region offset),
        promotes thp region offset),
        afterUse thp thp.buddy key
          (useOf region offset (promotes thp region offset))) := by
  have hSome : ∃ r, markPage thp key region offset = some r := by
    simp only [markPage, hOpen, Bool.false_eq_true, if_false]
    split_ifs
    · exact ⟨_, rfl⟩
    · exact ⟨_, rfl⟩
  rcases hSome with ⟨⟨placed, thp'⟩, hMark⟩
  rcases eq_of_markPage hMark with ⟨-, hPlaced, hState⟩
  rw [hMark, hPlaced, hState]

/- The first page of a region that is reserved. -/
theorem checkFor2MBAllocation_reserved
    {block : Span}
    {b : Buddy}
    (hLookup : thp.twoMbMap.lookup (address / 2 ^ 21) = none)
    (hReserve : thp.buddy.reserve2mbPage = some (some block, b)) :
    checkFor2MBAllocation thp address =
      some (some (frameIn
          ⟨block.start, fun _ => false, false⟩
          (address / 2 ^ 12 % 512)
          (promotes thp ⟨block.start, fun _ => false, false⟩
            (address / 2 ^ 12 % 512)),
        promotes thp ⟨block.start, fun _ => false, false⟩
          (address / 2 ^ 12 % 512)),
        afterUse thp b (address / 2 ^ 21)
          (useOf ⟨block.start, fun _ => false, false⟩
            (address / 2 ^ 12 % 512)
            (promotes thp
              ⟨block.start, fun _ => false, false⟩
              (address / 2 ^ 12 % 512)))) := by
  simp only [checkFor2MBAllocation, hLookup, hReserve]
  rw [markPage_of_open rfl, Option.map_some]
  have hSame : (reserved thp b (address / 2 ^ 21)
      block).buddy = b := rfl
  rw [hSame, afterUse_reserved]
  rfl

variable {m : PhysicalMemoryAllocator}

/- What a region provides for one of its pages. -/
theorem provides_in_region
    {thp thp' : ReserveThp}
    (hMemory : memorySize < 2 ^ 31)
    (hSound : Sound memorySize kernelSize (.reserve thp m))
    {b : Buddy}
    (hUsable : Buddy.Usable (kernelSize * 256) (memorySize * 256) b)
    (key : Nat)
    {offset : Nat}
    (hOffset : offset < 512)
    (region : Region)
    (hLow : kernelSize * 256 ≤ region.regionBegin)
    (hHigh : region.regionBegin + 512 ≤ memorySize * 256)
    (promoted : Bool)
    (hAfter : thp' = afterUse thp b key
      (useOf region offset promoted)) :
    Provides memorySize kernelSize (.reserve thp m)
      (frameIn region offset promoted)
      (if (if promoted then 21 else 12) = 21 then .twoMb
        else .fourKb)
      (.reserve thp' m) := by
  have hFrame : region.regionBegin ≤
        frameIn region offset promoted ∧
      frameIn region offset promoted <
        region.regionBegin + 512 := by
    unfold frameIn
    split_ifs
    · omega
    · omega
  subst hAfter
  refine ⟨⟨hSound.aligned, hSound.positive, hSound.kernelEnd,
    hSound.instructionLow, hSound.instructionEnd, hUsable,
    ?_⟩, rfl, ?_, ?_⟩
  · intro e hMem
    rcases List.mem_cons.mp hMem with hNew | hOld
    · rw [hNew]
      exact ⟨hLow, hHigh⟩
    · exact hSound.regions e (List.mem_of_mem_filter hOld)
  · omega
  · unfold invalidPpn
    omega

/- A page from the free lists. -/
theorem provides_of_fromBuddy
    (hMemory : memorySize < 2 ^ 31)
    (hSound : Sound memorySize kernelSize (.reserve thp m))
    (hBlock : thp.buddy.HasBlock) :
    ∃ page thp', fromBuddy thp 4096 = some (some page, thp') ∧
      Provides memorySize kernelSize (.reserve thp m) page
        .fourKb (.reserve thp' m) := by
  rcases hSound.usable.allocate hBlock with
    ⟨page, b', hCall, -, hUsable, hPage, hHigh⟩
  have hBuddy : thp.buddy.allocate 4096 =
    some (some page, b') := hCall
  refine ⟨page, { thp with buddy := b' }, ?_,
    ⟨hSound.aligned, hSound.positive, hSound.kernelEnd,
      hSound.instructionLow, hSound.instructionEnd, hUsable,
      hSound.regions⟩, rfl, hPage, ?_⟩
  · simp only [fromBuddy, hBuddy, Option.map_some]
  · unfold invalidPpn
    omega

/- A region with an unused page has something to put back. -/
theorem putBack_of_unused
    {region : Region}
    (hUnused : region.count < 512) :
    region.putBack ≠ [] := by
  intro hNone
  have hAll : ∀ j ∈ List.range 512, region.bitset j = true := by
    intro j hMem
    have hNot := List.filter_eq_nil_iff.mp
      (List.map_eq_nil_iff.mp hNone) j hMem
    simpa using hNot
  have hCount : region.count = (List.range 512).length :=
    List.countP_eq_length.mpr hAll
  rw [List.length_range] at hCount
  exact absurd hUnused (by rw [hCount]; exact Nat.lt_irrefl _)

/- A region that is demoted gives its unused pages back. -/
theorem demotePage_of_unused
    (hSound : Sound memorySize kernelSize (.reserve thp m))
    (hOrders : 1 ≤ thp.buddy.maxOrder)
    {e : Nat × Region}
    (hFront : utilizationFront thp.twoMbMap pick = some e)
    (hUnused : e.2.count < 512) :
    ∃ thp', demotePage thp pick = some (e.2, thp') ∧
      Sound memorySize kernelSize (.reserve thp' m) ∧
      thp'.buddy.HasBlock := by
  have hMem : e ∈ thp.twoMbMap := by
    have hLeast := List.mem_of_getElem? hFront
    exact List.mem_of_mem_filter (List.mem_of_mem_filter hLeast)
  rcases hSound.regions e hMem with ⟨hLow, hHigh⟩
  have hBlocks : ∀ t ∈ e.2.putBack, t.stop = t.start + 1 ∧
      kernelSize * 256 ≤ t.start ∧
      t.start < memorySize * 256 := by
    intro t hIn
    rcases List.mem_map.mp hIn with ⟨j, hJ, hEq⟩
    have hLt := List.mem_range.mp (List.mem_of_mem_filter hJ)
    rw [← hEq]
    refine ⟨rfl, ?_, ?_⟩
    · simp only
      omega
    · simp only
      omega
  have hSome := putBack_of_unused hUnused
  have hBefore : Buddy.Usable (kernelSize * 256)
    (memorySize * 256) thp.buddy := hSound.usable
  rcases hBefore.freeAll hOrders hBlocks with
    ⟨hUsable, -, hHas⟩
  have hBlock := hHas (Or.inl hSome)
  have hDemote : demotePage thp pick = some (e.2,
      { thp with
        buddy := freeAll thp.buddy e.2.putBack
        twoMbMap := TwoMbMap.erase thp.twoMbMap e.1 }) := by
    unfold demotePage
    rw [hFront]
  generalize freeAll thp.buddy e.2.putBack = b at *
  refine ⟨_, hDemote, ?_, hBlock⟩
  refine ⟨hSound.aligned, hSound.positive, hSound.kernelEnd,
    hSound.instructionLow, hSound.instructionEnd, hUsable, ?_⟩
  intro e' hIn
  exact hSound.regions e' (List.mem_of_mem_filter hIn)

theorem allocate_reserve
    (hMemory : memorySize < 2 ^ 31)
    (hSound : Sound memorySize kernelSize (.reserve thp m))
    (hReady : Ready address isInstruction pick (.reserve thp m)) :
    ∃ ppn size a', (FaultAllocator.reserve thp m).allocate
        address isInstruction pick = some ((some ppn, size), a') ∧
      Provides memorySize kernelSize (.reserve thp m) ppn size
        a' := by
  have hOffset : address / 2 ^ 12 % 512 < 512 :=
    Nat.mod_lt _ (by decide)
  simp only [Ready] at hReady
  cases hLookup : thp.twoMbMap.lookup (address / 2 ^ 21) with
  | some region =>
      simp only [hLookup] at hReady
      rcases hSound.regions _ (Assoc.mem_of_lookup hLookup)
        with ⟨hLow, hHigh⟩
      refine ⟨_, _, .reserve _ m, ?_,
        provides_in_region hMemory hSound hSound.usable
          (address / 2 ^ 21) hOffset region hLow hHigh
          (promotes thp region (address / 2 ^ 12 % 512)) rfl⟩
      simp only [allocate, ReserveThp.allocate,
        checkFor2MBAllocation, hLookup,
        markPage_of_open hReady, Option.map_some,
        Bool.false_eq_true, if_false]
      rfl
  | none =>
      simp only [hLookup] at hReady
      rcases hReady with ⟨hLists, hSource⟩
      rcases hSound.usable.reserve2mbPage hLists with
        hNone | ⟨block, b', hReserve, -, hUsable, hLow, hHigh⟩
      · have hNoneHere : thp.buddy.reserve2mbPage =
          some (none, thp.buddy) := hNone
        have hCheck : checkFor2MBAllocation thp address =
            some (none, thp) := by
          simp only [checkFor2MBAllocation, hLookup, hNoneHere]
        by_cases hBlock : thp.buddy.HasBlock
        · rcases provides_of_fromBuddy hMemory hSound hBlock
            with ⟨page, thp', hCall, hProvides⟩
          refine ⟨page, .fourKb, .reserve thp' m, ?_, hProvides⟩
          simp [allocate, ReserveThp.allocate, hCheck, hCall]
        · have hEmpty : fromBuddy thp 4096 = some (none, thp) := by
            have hCall : thp.buddy.allocate 4096 =
              some (none, thp.buddy) :=
                hSound.usable.allocate_none hBlock
            simp only [fromBuddy, hCall, Option.map_some]
          rcases hSource.resolve_left hBlock with
            ⟨e, hFront, hUnused⟩
          rcases demotePage_of_unused hSound (by omega) hFront
            hUnused with ⟨thp', hDemote, hSound', hBlock'⟩
          rcases provides_of_fromBuddy hMemory hSound' hBlock'
            with ⟨page, thp'', hCall, hProvides⟩
          refine ⟨page, .fourKb, .reserve thp'' m, ?_,
            ⟨hProvides.sound, hProvides.memory,
              hProvides.low, hProvides.valid⟩⟩
          simp [allocate, ReserveThp.allocate, hCheck, hEmpty,
            hDemote, hCall]
      · have hReserveHere : thp.buddy.reserve2mbPage =
          some (some block, b') := hReserve
        refine ⟨_, _, .reserve _ m, ?_,
          provides_in_region hMemory hSound hUsable
            (address / 2 ^ 21) hOffset
            ⟨block.start, fun _ => false, false⟩ hLow hHigh
            (promotes thp ⟨block.start, fun _ => false, false⟩
              (address / 2 ^ 12 % 512)) rfl⟩
        have hCheck := checkFor2MBAllocation_reserved hLookup
          hReserveHere
        simp only [allocate, ReserveThp.allocate, hCheck,
          Option.map_some, Bool.false_eq_true, if_false]

/- An allocator that is ready provides a page. -/
theorem allocate_of_ready
    (hMemory : memorySize < 2 ^ 31)
    (hKernel : kernelSize < 2 ^ 31)
    (hSound : Sound memorySize kernelSize a)
    (hReady : Ready address isInstruction pick a) :
    ∃ ppn size a', a.allocate address isInstruction pick =
        some ((some ppn, size), a') ∧
      Provides memorySize kernelSize a ppn size a' := by
  cases a with
  | baseline a =>
      exact allocate_baseline hMemory hKernel hSound hReady
  | reserve thp m => exact allocate_reserve hMemory hSound hReady

end FaultAllocator

end Virtuoso
