import Virtuoso.PageTable.Hdc.Invariant
import Virtuoso.PageTable.PageMap

/-
  The walk addresses of the open-addressing page table.

  The address of a slot is computed from the number of the
  first page of its table, as if that was a byte address. It
  lies in the memory of the table only for slots that are far
  enough inside the table to make up for the difference.

  Main declarations:
    * `Hdc.Session`
    * `Hdc.distinct_iff`
-/

namespace Virtuoso

namespace Hdc

variable {c : Config}

/- The tables, and the byte address of the memory of each. -/
structure Session where
  table : PageTableHDC
  start : PageSize → Nat

/- The second table comes after the first one. -/
def Session.initial
    (sizes : PageSize → Nat)
    (kernelStartAddress : Nat) : Session :=
  ⟨construct sizes kernelStartAddress, fun
    | .fourKb => kernelStartAddress
    | .twoMb => kernelStartAddress + sizes .fourKb * 64⟩

/-
  One update, whose resize has to fit an `int`. A table that
  changes its size was allocated at the kernel address before
  the update.
-/
def Session.step
    (c : Config)
    (s : Session)
    (u : Update) :
    Option Session :=
  let t := updatePageTableFrames c s.table u.address u.ppn
    u.pageSize
  if FitsUpdate c (s.table.tables u.pageSize)
      (u.pageSize.vpn u.address) then
    some ⟨t, fun pageSize =>
      if (t.tables pageSize).size =
          (s.table.tables pageSize).size then
        s.start pageSize
      else
        s.table.kernelStartAddress⟩
  else
    none

/- The memory of the table of a page size. -/
def Session.memory
    (s : Session)
    (pageSize : PageSize) : Extent :=
  ⟨s.start pageSize, (s.table.tables pageSize).size * 64⟩

/- Every address of the walk is in the memory of its table. -/
def Inside (s : Session) (r : PTWResult) : Prop :=
  ∀ access ∈ r.accesses, ∀ pageSize,
    access.tableLevel = pageSizeIndex pageSize →
      (s.memory pageSize).Contains access.physicalAddr

/- The address that a walk reports for a slot. -/
def slotAddress
    (t : Table)
    (slot : Nat)
    (offset : Fin 8) : Nat :=
  t.emulatedTableAddress + 64 * slot + offset.val

/- Different slots have different addresses. -/
def Distinct (t : PageTableHDC) : Prop :=
  ∀ pageSize pageSize' slot slot' offset offset',
    slot < (t.tables pageSize).size →
      slot' < (t.tables pageSize').size →
        slotAddress (t.tables pageSize) slot offset =
            slotAddress (t.tables pageSize') slot' offset' →
          pageSize = pageSize' ∧ slot = slot'

/- The table addresses are page numbers of the memory. -/
structure Session.Numbered (s : Session) : Prop where
  size_pos : ∀ pageSize, 0 < (s.table.tables pageSize).size
  number : ∀ pageSize,
    (s.table.tables pageSize).emulatedTableAddress =
      s.start pageSize / 4096

theorem numbered_initial
    {sizes : PageSize → Nat}
    (hSizes : ∀ pageSize, 0 < sizes pageSize)
    (kernelStartAddress : Nat) :
    (Session.initial sizes kernelStartAddress).Numbered := by
  refine ⟨?_, ?_⟩
  · intro pageSize
    cases pageSize with
    | fourKb => exact hSizes .fourKb
    | twoMb => exact hSizes .twoMb
  · intro pageSize
    cases pageSize with
    | fourKb => rfl
    | twoMb => rfl

/- An update keeps a table in place or allocates a larger one. -/
theorem updateTable_size
    (t : Table)
    (vpn ppn kernelStartAddress : Nat) :
    let t' := (updateTable c t vpn ppn kernelStartAddress).1
    if resizes c t vpn then
      t'.size = t.size * c.resizeFactor ∧
        t'.emulatedTableAddress = kernelStartAddress / 4096
    else
      t'.size = t.size ∧
        t'.emulatedTableAddress = t.emulatedTableAddress := by
  unfold updateTable resizes
  simp only
  cases (probeFor c (stopsUpdate (vpn / 8) (blockOffset vpn))
      t.slots t.size (vpn / 8)).2 with
  | none => exact ⟨rfl, rfl⟩
  | some pos =>
      by_cases hNone : (t.slots pos).tag = none
      · simp only [hNone, if_true, decide_true, Bool.true_and]
        split
        · exact ⟨rfl, rfl⟩
        · exact ⟨rfl, rfl⟩
      · simp [hNone]

theorem numbered_step
    (s : Session)
    (u : Update)
    (s' : Session)
    (hNumbered : s.Numbered)
    (hStep : s.step c u = some s') :
    s'.Numbered := by
  rw [Session.step, Option.ite_none_right_eq_some] at hStep
  rw [← Option.some.inj hStep.2]
  have hTables : ∀ pageSize, pageSize ≠ u.pageSize →
      (updatePageTableFrames c s.table u.address u.ppn
        u.pageSize).tables pageSize = s.table.tables pageSize :=
    fun pageSize hNe => Function.update_of_ne hNe _ _
  have hOwn : (updatePageTableFrames c s.table u.address u.ppn
      u.pageSize).tables u.pageSize =
        (updateTable c (s.table.tables u.pageSize)
          (u.pageSize.vpn u.address) u.ppn
          s.table.kernelStartAddress).1 :=
    Function.update_self _ _ _
  have hPos := hNumbered.size_pos u.pageSize
  have hCases := updateTable_size (c := c)
    (s.table.tables u.pageSize) (u.pageSize.vpn u.address)
    u.ppn s.table.kernelStartAddress
  simp only [← hOwn] at hCases
  refine ⟨?_, ?_⟩
  · intro pageSize
    by_cases hSize : pageSize = u.pageSize
    · subst hSize
      split at hCases
      · exact hCases.1 ▸ Nat.mul_pos hPos
          (by have := c.two_le_resizeFactor; omega)
      · exact hCases.1 ▸ hPos
    · simp only [hTables pageSize hSize]
      exact hNumbered.size_pos pageSize
  · intro pageSize
    by_cases hSize : pageSize = u.pageSize
    · subst hSize
      split at hCases
      · rcases hCases with ⟨hGrown, hNew⟩
        have hLarger : (s.table.tables u.pageSize).size *
            c.resizeFactor ≠ (s.table.tables u.pageSize).size := by
          have hTwo := Nat.mul_le_mul_left
            (s.table.tables u.pageSize).size
            c.two_le_resizeFactor
          omega
        simp only [if_neg (hGrown ▸ hLarger), hNew]
      · simp only [if_pos hCases.1, hCases.2]
        exact hNumbered.number u.pageSize
    · simp only [hTables pageSize hSize, if_true]
      exact hNumbered.number pageSize

/- The slots that the walk of an address reads. -/
def probed
    (c : Config)
    (t : PageTableHDC)
    (address : Nat)
    (pageSize : PageSize) :
    List Nat :=
  let tag := pageSize.vpn address / 8
  (probeFor c (stopsWalk tag) (t.tables pageSize).slots
    (t.tables pageSize).size tag).1

/-
  The bytes before a slot make up for the difference between
  the byte address of the table and its page number.
-/
def FarEnough (start slot : Nat) (offset : Fin 8) : Prop :=
  start - start / 4096 ≤ 64 * slot + offset.val

instance
    (start slot : Nat)
    (offset : Fin 8) :
    Decidable (FarEnough start slot offset) :=
  inferInstanceAs (Decidable (_ ≤ _))

theorem lt_of_mem_probed
    {t : PageTableHDC}
    {address slot : Nat}
    {pageSize : PageSize}
    (hPos : 0 < (t.tables pageSize).size)
    (hMem : slot ∈ probed c t address pageSize) :
    slot < (t.tables pageSize).size :=
  Probe.lt_of_mem_probe (hashFunction_lt hPos _) hMem

/- The accesses of one table, by the slots that are read. -/
theorem mem_accesses_walkTable
    {t : PageTableHDC}
    {address : Nat}
    {pageSize : PageSize}
    {walked : List PTWAccess × Option (Nat × Nat)}
    (hWalk : walkTable c (t.tables pageSize) address pageSize =
      some walked) :
    (∀ access ∈ walked.1,
      access.tableLevel = pageSizeIndex pageSize ∧
        ∃ slot ∈ probed c t address pageSize,
          access.physicalAddr =
            slotAddress (t.tables pageSize) slot
              (blockOffset (pageSize.vpn address))) ∧
    ∀ slot ∈ probed c t address pageSize,
      ∃ access ∈ walked.1,
        access.tableLevel = pageSizeIndex pageSize ∧
          access.physicalAddr =
            slotAddress (t.tables pageSize) slot
              (blockOffset (pageSize.vpn address)) := by
  rcases Option.map_eq_some_iff.mp hWalk with
    ⟨pos, -, hEq⟩
  rw [← hEq]
  refine ⟨?_, ?_⟩
  · intro access hMem
    rcases List.mem_mapIdx.mp hMem with ⟨i, hLt, hAccess⟩
    rw [← hAccess]
    exact ⟨rfl, _, List.getElem_mem hLt, rfl⟩
  · intro slot hMem
    rcases List.getElem_of_mem hMem with ⟨i, hLt, hGet⟩
    refine ⟨_, List.mem_mapIdx.mpr ⟨i, hLt, rfl⟩, rfl, ?_⟩
    simp only [slotAddress]
    rw [← hGet]
    rfl

theorem pageSizeIndex_inj
    {pageSize pageSize' : PageSize}
    (hSame : pageSizeIndex pageSize = pageSizeIndex pageSize') :
    pageSize = pageSize' := by
  cases pageSize with
  | fourKb =>
      cases pageSize' with
      | fourKb => rfl
      | twoMb => cases hSame
  | twoMb =>
      cases pageSize' with
      | fourKb => cases hSame
      | twoMb => rfl

theorem contains_slotAddress_iff
    {s : Session}
    (hNumbered : s.Numbered)
    {pageSize : PageSize}
    {slot : Nat}
    (hLt : slot < (s.table.tables pageSize).size)
    (offset : Fin 8) :
    (s.memory pageSize).Contains
        (slotAddress (s.table.tables pageSize) slot offset) ↔
      FarEnough (s.start pageSize) slot offset := by
  have hOffset := offset.isLt
  unfold Extent.Contains Session.memory slotAddress FarEnough
  rw [hNumbered.number pageSize]
  simp only
  omega

/-
  A walk stays in the memory of the tables exactly when it
  reads only slots that are far enough inside them.
-/
theorem inside_iff
    {s : Session}
    (hNumbered : s.Numbered)
    {address : Nat}
    {r : PTWResult}
    (hWalk : initializeWalk c s.table address = some r) :
    Inside s r ↔
      ∀ pageSize, ∀ slot ∈ probed c s.table address pageSize,
        FarEnough (s.start pageSize) slot
          (blockOffset (pageSize.vpn address)) := by
  have hParts : ∃ walked :
      PageSize → List PTWAccess × Option (Nat × Nat),
      (∀ pageSize, walkTable c (s.table.tables pageSize)
        address pageSize = some (walked pageSize)) ∧
      r.accesses = (walked .fourKb).1 ++ (walked .twoMb).1 := by
    rcases Option.bind_eq_some_iff.mp hWalk with
      ⟨small, hSmall, hRest⟩
    rcases Option.bind_eq_some_iff.mp hRest with
      ⟨large, hLarge, hResult⟩
    refine ⟨fun | .fourKb => small | .twoMb => large, ?_, ?_⟩
    · intro pageSize
      cases pageSize with
      | fourKb => exact hSmall
      | twoMb => exact hLarge
    · rw [← Option.some.inj hResult]
  rcases hParts with ⟨walked, hWalked, hAccesses⟩
  have hMem : ∀ pageSize, ∀ access ∈ (walked pageSize).1,
      access ∈ r.accesses := by
    intro pageSize access hMem
    rw [hAccesses]
    cases pageSize with
    | fourKb => exact List.mem_append_left _ hMem
    | twoMb => exact List.mem_append_right _ hMem
  constructor
  · intro hInside pageSize slot hSlot
    rcases (mem_accesses_walkTable (hWalked pageSize)).2 slot
        hSlot with ⟨access, hAccess, hLevel, hAddress⟩
    have hIn := hInside access (hMem _ _ hAccess) pageSize hLevel
    rw [hAddress] at hIn
    exact (contains_slotAddress_iff hNumbered
      (lt_of_mem_probed (hNumbered.size_pos _) hSlot) _).mp hIn
  · intro hFar access hAccess pageSize hLevel
    have hOwn : ∃ pageSize', access ∈ (walked pageSize').1 := by
      rw [hAccesses] at hAccess
      rcases List.mem_append.mp hAccess with hSmall | hLarge
      · exact ⟨.fourKb, hSmall⟩
      · exact ⟨.twoMb, hLarge⟩
    rcases hOwn with ⟨pageSize', hOwn⟩
    rcases (mem_accesses_walkTable (hWalked pageSize')).1
        access hOwn with ⟨hLevel', slot, hSlot, hAddress⟩
    have hSize : pageSize' = pageSize :=
      pageSizeIndex_inj (hLevel'.symm.trans hLevel)
    subst hSize
    rw [hAddress]
    exact (contains_slotAddress_iff hNumbered
      (lt_of_mem_probed (hNumbered.size_pos _) hSlot) _).mpr
        (hFar pageSize' slot hSlot)

/-
  No slot of the lower table meets the upper table, for page
  numbers `e ≤ e'` and a lower table of `n` slots.
-/
def Apart (e n e' : Nat) : Prop :=
  e ≤ e' →
    ((e' - e) % 64 < 8 → n ≤ (e' - e) / 64) ∧
      (56 < (e' - e) % 64 → n ≤ (e' - e) / 64 + 1)

instance (e n e' : Nat) : Decidable (Apart e n e') :=
  inferInstanceAs (Decidable (_ → _ ∧ _))

/- The addresses are distinct exactly for tables apart. -/
theorem distinct_iff
    {s : Session}
    (hNumbered : s.Numbered) :
    Distinct s.table ↔
      ∀ pageSize pageSize', pageSize ≠ pageSize' →
        Apart (s.start pageSize / 4096)
          (s.table.tables pageSize).size
          (s.start pageSize' / 4096) := by
  unfold Distinct slotAddress
  simp only [hNumbered.number]
  constructor
  · intro hDistinct pageSize pageSize' hNe hLe
    have hPos := hNumbered.size_pos pageSize'
    refine ⟨fun hLow => ?_, fun hHigh => ?_⟩
    · by_contra hLt
      have hClash := hDistinct pageSize pageSize'
        ((s.start pageSize' / 4096 -
          s.start pageSize / 4096) / 64) 0
        ⟨_, hLow⟩ 0 (by omega) hPos
        (by simp only [Fin.val_zero]; omega)
      exact hNe hClash.1
    · by_contra hLt
      have hClash := hDistinct pageSize pageSize'
        ((s.start pageSize' / 4096 -
          s.start pageSize / 4096) / 64 + 1) 0
        0 ⟨64 - (s.start pageSize' / 4096 -
          s.start pageSize / 4096) % 64, by omega⟩
        (by omega) hPos
        (by simp only [Fin.val_zero]; omega)
      exact hNe hClash.1
  · intro hApart pageSize pageSize' slot slot' offset offset'
      hSlot hSlot' hSame
    have hOffset := offset.isLt
    have hOffset' := offset'.isLt
    by_cases hSize : pageSize = pageSize'
    · subst hSize
      exact ⟨rfl, by omega⟩
    · exfalso
      have hUp := hApart pageSize pageSize' hSize
      have hDown := hApart pageSize' pageSize
        (fun hEq => hSize hEq.symm)
      unfold Apart at hUp hDown
      rcases Nat.le_total (s.start pageSize / 4096)
          (s.start pageSize' / 4096) with hLe | hLe
      · have hUp := hUp hLe
        omega
      · have hDown := hDown hLe
        omega

end Hdc

end Virtuoso
