import Virtuoso.PageTable.Cuckoo.Deletion
import Virtuoso.PageTable.PageMap

/-
  The walk addresses of the elastic cuckoo page table.

  The constructor obtains memory for each way. The address of
  a slot starts at the page that the memory of its way lies
  in, and a rehash obtains no memory for the new size.

  Main declarations:
    * `Cuckoo.tableStart`
    * `Cuckoo.distinct_of_apart`
-/

namespace Virtuoso

namespace Cuckoo

variable {c : Config} {sizes : PageSize → Nat}
variable {kernelStartAddress : Nat}

/-
  Where the constructor obtains the memory of a way, for
  sizes whose requests fit an `int`.
-/
def tableStart
    (c : Config)
    (sizes : PageSize → Nat)
    (kernelStartAddress : Nat)
    (pageSize : PageSize)
    (way : Nat) : Nat :=
  match pageSize with
  | .fourKb =>
      kernelStartAddress + way * (sizes .fourKb * 64)
  | .twoMb =>
      kernelStartAddress + c.ways * (sizes .fourKb * 64) +
        way * (sizes .twoMb * 64)

/- The configuration with the page numbers of that memory. -/
def Config.withMemory
    (c : Config)
    (sizes : PageSize → Nat)
    (kernelStartAddress : Nat) : Config :=
  { c with
    tablePpns := fun pageSize way =>
      (handlePageTableAllocations
        (tableStart c sizes kernelStartAddress pageSize way)
        (sizes pageSize * 64)).1 }

/- The memory obtained for the current size of a way. -/
def memory
    (c : Config)
    (sizes : PageSize → Nat)
    (kernelStartAddress : Nat)
    (t : PageTableCuckoo)
    (pageSize : PageSize)
    (way : Nat) : Extent :=
  if (t.nests pageSize).size = sizes pageSize then
    ⟨tableStart c sizes kernelStartAddress pageSize way,
      sizes pageSize * 64⟩
  else
    ⟨0, 0⟩

/- Every address of the walk is in the memory of its way. -/
def Inside
    (c : Config)
    (sizes : PageSize → Nat)
    (kernelStartAddress : Nat)
    (t : PageTableCuckoo)
    (address : Nat) : Prop :=
  ∀ pageSize, ∀ way < c.ways,
    (probe c t address pageSize way).1 ∈
        (initializeWalk c t address).accesses →
      (memory c sizes kernelStartAddress t pageSize
        way).Contains
          (probe c t address pageSize way).1.physicalAddr

/- Different slots have different addresses. -/
def Distinct (c : Config) (t : PageTableCuckoo) : Prop :=
  ∀ pageSize pageSize', ∀ way < c.ways, ∀ way' < c.ways,
    ∀ pos < (t.nests pageSize).size,
      ∀ pos' < (t.nests pageSize').size,
        c.tablePpns pageSize way * 4096 + pos * 64 =
            c.tablePpns pageSize' way' * 4096 + pos' * 64 →
          pageSize = pageSize' ∧ way = way' ∧ pos = pos'

/-
  The walk reports the accesses of a page size. A hit drops
  those of the other page size, and the last hit counts.
-/
def Reported
    (c : Config)
    (t : PageTableCuckoo)
    (address : Nat) :
    PageSize → Prop
| .fourKb => hits c t address .twoMb = []
| .twoMb =>
    hits c t address .twoMb ≠ [] ∨ hits c t address .fourKb = []

instance
    (t : PageTableCuckoo)
    (address : Nat) :
    ∀ pageSize, Decidable (Reported c t address pageSize)
| .fourKb => inferInstanceAs (Decidable (_ = []))
| .twoMb => inferInstanceAs (Decidable (_ ∨ _))

variable {t : PageTableCuckoo}

/- The page size of the last hit. -/
theorem snd_of_getLast
    {address : Nat}
    {x : Nat × PageSize}
    (hLast : (hits c t address .fourKb ++
      hits c t address .twoMb).getLast? = some x) :
    x.2 = if hits c t address .twoMb = [] then .fourKb
      else .twoMb := by
  have hSize : ∀ pageSize, x ∈ hits c t address pageSize →
      x.2 = pageSize := by
    intro pageSize hMem
    rcases List.mem_filterMap.mp hMem with ⟨way, -, hProbe⟩
    simp only [probe] at hProbe
    split at hProbe
    · rw [← Option.some.inj hProbe]
    · cases hProbe
  by_cases hEmpty : hits c t address .twoMb = []
  · rw [hEmpty, List.append_nil] at hLast
    rw [if_pos hEmpty]
    exact hSize _ (List.mem_of_getLast? hLast)
  · rw [List.getLast?_append_of_ne_nil _ hEmpty] at hLast
    rw [if_neg hEmpty]
    exact hSize _ (List.mem_of_getLast? hLast)

theorem mem_accesses_iff
    {address way : Nat}
    {pageSize : PageSize}
    (hWay : way < c.ways) :
    (probe c t address pageSize way).1 ∈
        (initializeWalk c t address).accesses ↔
      Reported c t address pageSize := by
  have hProbe : (probe c t address pageSize way).1 ∈
      (probes c t address).map Prod.fst := by
    refine List.mem_map.mpr
      ⟨probe c t address pageSize way, ?_, rfl⟩
    refine List.mem_flatMap.mpr ⟨pageSize, ?_, ?_⟩
    · cases pageSize with
      | fourKb => simp
      | twoMb => simp
    · exact List.mem_map.mpr ⟨way, List.mem_range.mpr hWay, rfl⟩
  have hLevel : (probe c t address pageSize way).1.tableLevel =
      pageSizeIndex pageSize := rfl
  simp only [initializeWalk, filterMap_probes]
  cases hLast : (hits c t address .fourKb ++
      hits c t address .twoMb).getLast? with
  | none =>
      have hNone := List.getLast?_eq_none_iff.mp hLast
      rcases List.append_eq_nil_iff.mp hNone with
        ⟨hSmall, hLarge⟩
      refine ⟨fun _ => ?_, fun _ => hProbe⟩
      cases pageSize with
      | fourKb => exact hLarge
      | twoMb => exact Or.inr hSmall
  | some x =>
      have hSize := snd_of_getLast hLast
      have hHit : hits c t address .fourKb ++
          hits c t address .twoMb ≠ [] := by
        intro hNil
        rw [hNil] at hLast
        cases hLast
      rcases x with ⟨ppn, found⟩
      simp only at hSize
      simp only [List.mem_filter, hProbe, true_and, hLevel,
        beq_iff_eq, hSize]
      by_cases hEmpty : hits c t address .twoMb = []
      · have hSmall : hits c t address .fourKb ≠ [] := by
          intro hNil
          exact hHit (by rw [hNil, hEmpty, List.append_nil])
        rw [if_pos hEmpty]
        cases pageSize with
        | fourKb => simp [Reported, hEmpty]
        | twoMb =>
            simp [Reported, hEmpty, hSmall, pageSizeIndex]
      · rw [if_neg hEmpty]
        cases pageSize with
        | fourKb => simp [Reported, hEmpty, pageSizeIndex]
        | twoMb => simp [Reported, hEmpty]

/- A slot that the page of its way and the memory share. -/
def Spanned (start size pos : Nat) : Prop :=
  start % 4096 ≤ 64 * pos ∧ 64 * pos < start % 4096 + 64 * size

instance
    (start size pos : Nat) :
    Decidable (Spanned start size pos) :=
  inferInstanceAs (Decidable (_ ∧ _))

/-
  A walk stays in the memory of the ways exactly when no
  reported table was rehashed and every position is in the
  part of the memory that the addresses start in.
-/
theorem inside_iff
    (t : PageTableCuckoo)
    (address : Nat) :
    Inside (c.withMemory sizes kernelStartAddress) sizes
        kernelStartAddress t address ↔
      ∀ pageSize,
        Reported (c.withMemory sizes kernelStartAddress) t
            address pageSize →
          ∀ way < c.ways,
            (t.nests pageSize).size = sizes pageSize ∧
              Spanned
                (tableStart c sizes kernelStartAddress pageSize way)
                (sizes pageSize)
                (position c (t.nests pageSize)
                  (pageSize.vpn address / 8) way) := by
  unfold Inside
  refine forall_congr' (fun pageSize => ?_)
  have hContains : ∀ way,
      (memory (c.withMemory sizes kernelStartAddress) sizes
          kernelStartAddress t pageSize way).Contains
            (probe (c.withMemory sizes kernelStartAddress) t
              address pageSize way).1.physicalAddr ↔
        (t.nests pageSize).size = sizes pageSize ∧
          Spanned
            (tableStart c sizes kernelStartAddress pageSize way)
            (sizes pageSize)
            (position c (t.nests pageSize)
              (pageSize.vpn address / 8) way) := by
    intro way
    have hStart : tableStart
        (c.withMemory sizes kernelStartAddress) sizes
          kernelStartAddress pageSize way =
        tableStart c sizes kernelStartAddress pageSize way := by
      cases pageSize with
      | fourKb => rfl
      | twoMb => rfl
    have hAddress :
        (probe (c.withMemory sizes kernelStartAddress) t
            address pageSize way).1.physicalAddr =
          tableStart c sizes kernelStartAddress pageSize way /
              4096 * 4096 +
            position c (t.nests pageSize)
              (pageSize.vpn address / 8) way * 64 := rfl
    rw [hAddress]
    unfold memory Spanned
    rw [hStart]
    by_cases hSize : (t.nests pageSize).size = sizes pageSize
    · rw [if_pos hSize]
      unfold Extent.Contains
      simp only [hSize, true_and]
      omega
    · rw [if_neg hSize]
      unfold Extent.Contains
      simp [hSize]
  have hReports : ∀ way < c.ways,
      ((probe (c.withMemory sizes kernelStartAddress) t
          address pageSize way).1 ∈
        (initializeWalk
          (c.withMemory sizes kernelStartAddress) t
            address).accesses ↔
        Reported (c.withMemory sizes kernelStartAddress) t
          address pageSize) :=
    fun way hWay => mem_accesses_iff
      (c := c.withMemory sizes kernelStartAddress) hWay
  constructor
  · intro hInside hReported way hWay
    exact (hContains way).mp (hInside way hWay
      ((hReports way hWay).mpr hReported))
  · intro hSpanned way hWay hMem
    exact (hContains way).mpr (hSpanned
      ((hReports way hWay).mp hMem) way hWay)

/- The memory of one way ends before that of another one. -/
def Apart (e n e' : Nat) : Prop :=
  e ≤ e' → n ≤ 64 * (e' - e)

instance (e n e' : Nat) : Decidable (Apart e n e') :=
  inferInstanceAs (Decidable (_ → _))

theorem distinct_of_apart
    (hApart : ∀ pageSize pageSize',
      ∀ way < c.ways, ∀ way' < c.ways,
        (pageSize, way) ≠ (pageSize', way') →
          Apart (c.tablePpns pageSize way)
            (t.nests pageSize).size
            (c.tablePpns pageSize' way')) :
    Distinct c t := by
  intro pageSize pageSize' way hWay way' hWay' pos hPos pos'
    hPos' hSame
  by_cases hTable : (pageSize, way) = (pageSize', way')
  · rcases Prod.mk.inj hTable with ⟨hSize, hEq⟩
    subst hSize
    subst hEq
    exact ⟨rfl, rfl, by omega⟩
  · exfalso
    have hUp := hApart pageSize pageSize' way hWay way' hWay' hTable
    have hDown := hApart pageSize' pageSize way' hWay' way
      hWay (fun hEq => hTable hEq.symm)
    unfold Apart at hUp hDown
    rcases Nat.le_total (c.tablePpns pageSize way)
        (c.tablePpns pageSize' way') with hLe | hLe
    · have hUp := hUp hLe
      omega
    · have hDown := hDown hLe
      omega

end Cuckoo

end Virtuoso
