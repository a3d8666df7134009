import Virtuoso.PageTable.Ht.Basic
import Virtuoso.PageTable.PageMap

/-
  The walk addresses of the chained hash page table.

  A walk multiplies the address of an entry by 4096. For a
  root entry that address is a page number to which 64 bytes
  are added for each bucket, and for a chained entry it is a
  byte address. A chained entry is never read in its memory,
  and a root entry only near the front of a large table.

  Main declarations:
    * `Ht.Session`
    * `Ht.distinct_of_roots`
-/

------------------------------------------------------------
-- Chains In Memory
------------------------------------------------------------

namespace Virtuoso

namespace Ht

variable {c : Config}

/- The tables, and the byte address of the memory of each. -/
structure Session where
  table : PageTableHT
  start : PageSize → Nat

/- The second table comes after the first one. -/
def Session.initial
    (sizes : PageSize → Nat)
    (kernelStartAddress : Nat) : Session :=
  ⟨construct sizes kernelStartAddress, fun
    | .fourKb => kernelStartAddress
    | .twoMb => kernelStartAddress + sizes .fourKb * 64⟩

/-
  One update, whose resize has to fit an `int`. A table that
  changes its size was allocated at the kernel address before
  the update.
-/
def Session.step
    (c : Config)
    (s : Session)
    (u : Update) :
    Option Session :=
  let t := updatePageTableFrames c s.table u.address u.ppn
    u.pageSize
  if FitsUpdate c (s.table.tables u.pageSize)
      (u.pageSize.vpn u.address) then
    some ⟨t, fun pageSize =>
      if (t.tables pageSize).size =
          (s.table.tables pageSize).size then
        s.start pageSize
      else
        s.table.kernelStartAddress⟩
  else
    none

/-
  The memory of an entry of a chain: that of the table for
  the root entry, and the 64 bytes at the address of the
  entry for the others.
-/
def Session.memory
    (s : Session)
    (pageSize : PageSize)
    (chain : List Entry)
    (depth : Nat) : Extent :=
  match depth, chain[depth]? with
  | 0, _ =>
      ⟨s.start pageSize, (s.table.tables pageSize).size * 64⟩
  | _ + 1, some e => ⟨e.emulatedPhysicalAddress, 64⟩
  | _ + 1, none => ⟨0, 0⟩

/- The bucket of an address, and its chain. -/
def bucketOf
    (c : Config)
    (t : PageTableHT)
    (address : Nat)
    (pageSize : PageSize) : Nat :=
  hashFunction c (pageSize.vpn address / 8) (t.tables pageSize).size

/- The chain in which the page is looked up. -/
def chainOf
    (c : Config)
    (t : PageTableHT)
    (address : Nat)
    (pageSize : PageSize) :
    List Entry :=
  (t.tables pageSize).buckets (bucketOf c t address pageSize)

/- Every address of the walk is in the memory of its entry. -/
def Inside
    (c : Config)
    (s : Session)
    (address : Nat) : Prop :=
  ∀ access ∈ (initializeWalk c s.table address).accesses,
    ∀ pageSize,
      access.tableLevel = pageSizeIndex pageSize →
        (s.memory pageSize
          (chainOf c s.table address pageSize)
          access.depth).Contains access.physicalAddr

/- The address that a walk reports for an entry. -/
def entryAddress (e : Entry) (offset : Fin 8) : Nat :=
  e.emulatedPhysicalAddress * 4096 + offset.val * 8

/- Different entries have different addresses. -/
def Distinct (t : PageTableHT) : Prop :=
  ∀ pageSize pageSize' j j' e e' offset offset',
    ∀ i i' : Nat,
      j < (t.tables pageSize).size →
        j' < (t.tables pageSize').size →
          ((t.tables pageSize).buckets j)[i]? = some e →
            ((t.tables pageSize').buckets j')[i']? = some e' →
              entryAddress e offset = entryAddress e' offset' →
                pageSize = pageSize' ∧ j = j' ∧ i = i'

/-
  A chain with its root entry at a place of the table, and
  its other entries at byte addresses from the allocator.
-/
def Rooted (address : Nat) (chain : List Entry) : Prop :=
  ∃ root rest, chain = root :: rest ∧
    root.emulatedPhysicalAddress = address ∧
    ∀ e ∈ rest, 0 < e.emulatedPhysicalAddress

/- An update along a chain only adds the given address. -/
theorem updateChain_pos
    {tag ppn address : Nat}
    {offset : Fin 8}
    (hAddress : 0 < address)
    (chain : List Entry)
    (hPos : ∀ e ∈ chain, 0 < e.emulatedPhysicalAddress) :
    ∀ e ∈ (updateChain tag offset ppn address chain).2,
      0 < e.emulatedPhysicalAddress := by
  induction chain with
  | nil =>
      intro e hMem
      cases hMem
  | cons first rest ih =>
      have hFirst := hPos first List.mem_cons_self
      have hRest : ∀ e ∈ rest, 0 < e.emulatedPhysicalAddress :=
        fun e hMem => hPos e (List.mem_cons_of_mem _ hMem)
      intro e hMem
      rw [updateChain] at hMem
      split at hMem
      · rw [List.mem_singleton.mp hMem]
        exact hFirst
      · split at hMem
        · rcases List.mem_cons.mp hMem with hEq | hOld
          · rw [hEq]
            exact hFirst
          · exact hRest e hOld
        · split at hMem
          · rcases List.mem_cons.mp hMem with hEq | hNew
            · rw [hEq]
              exact hFirst
            · rw [List.mem_singleton.mp hNew]
              exact hAddress
          · rcases List.mem_cons.mp hMem with hEq | hFurther
            · rw [hEq]
              exact hFirst
            · exact ih hRest e hFurther

theorem Rooted.update
    {tag ppn address place : Nat}
    {offset : Fin 8}
    {chain : List Entry}
    (hAddress : 0 < address)
    (hRooted : Rooted place chain) :
    Rooted place (updateChain tag offset ppn address chain).2 := by
  rcases hRooted with ⟨root, rest, hChain, hPlace, hPos⟩
  rw [hChain, updateChain]
  split
  · exact ⟨_, [], rfl, hPlace, by simp⟩
  · split
    · exact ⟨_, rest, rfl, hPlace, hPos⟩
    · split
      · refine ⟨root, _, rfl, hPlace, ?_⟩
        intro e hMem
        rw [List.mem_singleton.mp hMem]
        exact hAddress
      · exact ⟨root, _, rfl, hPlace,
          updateChain_pos hAddress rest hPos⟩

/- The chains of a table that is rebuilt. -/
structure RootedAll
    (tablePa : Nat)
    (r : Rebuilt) : Prop where
  kernel_pos : 0 < r.kernelStartAddress
  rooted : ∀ j, Rooted (tablePa + j * 64) (r.buckets j)

theorem RootedAll.rehashEntry
    {tablePa newSize : Nat}
    {r : Rebuilt}
    (hAll : RootedAll tablePa r)
    (e : Entry) :
    RootedAll tablePa (rehashEntry c newSize r e) := by
  have hUpdate : ∀ idx chain,
      Rooted (tablePa + idx * 64) chain →
        ∀ j, Rooted (tablePa + j * 64)
          (Function.update r.buckets idx chain j) := by
    intro idx chain hChain j
    by_cases hEq : j = idx
    · rw [hEq, Function.update_self]
      exact hChain
    · rw [Function.update_of_ne hEq]
      exact hAll.rooted j
  unfold Ht.rehashEntry
  simp only
  set idx := hashFunction c (e.tag.getD 0) newSize
  rcases hAll.rooted idx with
    ⟨root, rest, hChain, hPlace, hPos⟩
  simp only [hChain]
  split
  · exact ⟨hAll.kernel_pos, hUpdate idx _
      ⟨_, rest, rfl, hPlace, hPos⟩⟩
  · split
    · exact ⟨hAll.kernel_pos, hUpdate idx _
        ⟨_, rest, rfl, hPlace, hPos⟩⟩
    · refine ⟨Nat.add_pos_left hAll.kernel_pos _,
        hUpdate idx _ ⟨root, _, rfl, hPlace, ?_⟩⟩
      intro e' hMem
      rcases List.mem_append.mp hMem with hOld | hNew
      · exact hPos e' hOld
      · rw [List.mem_singleton.mp hNew]
        exact hAll.kernel_pos

theorem RootedAll.foldl
    {tablePa : Nat}
    {r : Rebuilt}
    (hAll : RootedAll tablePa r)
    (newSize : Nat)
    (entries : List Entry) :
    RootedAll tablePa
      (entries.foldl (Ht.rehashEntry c newSize) r) := by
  induction entries generalizing r with
  | nil => exact hAll
  | cons e entries ih => exact ih (hAll.rehashEntry e)

theorem rooted_freshBuckets
    (tablePa j : Nat) :
    Rooted (tablePa + j * 64) (freshBuckets tablePa j) :=
  ⟨_, [], rfl, rfl, by simp⟩

/- A table whose memory starts at a byte address. -/
structure Table.Based (t : Table) (start : Nat) : Prop where
  size_pos : 0 < t.size
  number : t.tablePa = start / 4096
  rooted : ∀ j, Rooted (t.tablePa + j * 64) (t.buckets j)

/- Both tables lie at their start. -/
structure Session.Based (s : Session) : Prop where
  kernel_pos : 0 < s.table.kernelStartAddress
  tables : ∀ pageSize,
    (s.table.tables pageSize).Based (s.start pageSize)

theorem based_initial
    {sizes : PageSize → Nat}
    (hSizes : ∀ pageSize, 0 < sizes pageSize)
    (kernelStartAddress : Nat) :
    (Session.initial sizes kernelStartAddress).Based := by
  have hSmall := hSizes .fourKb
  refine ⟨?_, ?_⟩
  · simp only [Session.initial, construct,
      handlePageTableAllocations]
    omega
  · intro pageSize
    cases pageSize with
    | fourKb =>
        exact ⟨hSmall, rfl, rooted_freshBuckets _⟩
    | twoMb =>
        exact ⟨hSizes .twoMb, rfl, rooted_freshBuckets _⟩

/- A resized table takes its memory at the kernel address. -/
theorem resizeTable_based
    (t : Table)
    (hPos : 0 < t.size)
    (kernelStartAddress : Nat) :
    let r := resizeTable c t kernelStartAddress
    0 < r.2 ∧ r.1.size ≠ t.size ∧ r.1.Based kernelStartAddress := by
  have hTwo := Nat.mul_le_mul_left t.size c.two_le_resizeFactor
  have hFresh : RootedAll (kernelStartAddress / 4096)
      ⟨freshBuckets (kernelStartAddress / 4096), 0,
        kernelStartAddress + t.size * c.resizeFactor * 64⟩ :=
    ⟨by simp only; omega, rooted_freshBuckets _⟩
  have hAll := hFresh.foldl (c := c)
    (t.size * c.resizeFactor) (entriesOf t)
  refine ⟨hAll.kernel_pos, ?_, ?_, rfl, hAll.rooted⟩
  · simp only [resizeTable]
    omega
  · simp only [resizeTable]
    omega

/-
  An update keeps the memory of a table, or takes that of a
  larger one at the kernel address.
-/
theorem updateTable_based
    {t : Table}
    {start kernelStartAddress : Nat}
    (hBased : t.Based start)
    (hKernel : 0 < kernelStartAddress)
    (vpn ppn : Nat) :
    let r := updateTable c t vpn ppn kernelStartAddress
    0 < r.2 ∧
      ((r.1.size = t.size ∧ r.1.Based start) ∨
        (r.1.size ≠ t.size ∧ r.1.Based kernelStartAddress)) := by
  have hChains : ∀ j, Rooted (t.tablePa + j * 64)
      (Function.update t.buckets
        (hashFunction c (vpn / 8) t.size)
        (updateChain (vpn / 8) (blockOffset vpn) ppn
          kernelStartAddress
          (t.buckets (hashFunction c (vpn / 8) t.size))).2
        j) := by
    intro j
    by_cases hEq : j = hashFunction c (vpn / 8) t.size
    · rw [hEq, Function.update_self]
      exact (hBased.rooted _).update hKernel
    · rw [Function.update_of_ne hEq]
      exact hBased.rooted j
  unfold updateTable
  simp only [handleFineGrainedPageTableAllocations]
  split
  · split
    · rcases resizeTable_based (c := c)
          { t with
            buckets := Function.update t.buckets
              (hashFunction c (vpn / 8) t.size)
              (updateChain (vpn / 8) (blockOffset vpn) ppn
                kernelStartAddress
                (t.buckets (hashFunction c (vpn / 8) t.size))).2
            entryCount := t.entryCount + 1 }
          hBased.size_pos kernelStartAddress with
        ⟨hPos, hSize, hNew⟩
      exact ⟨hPos, Or.inr ⟨hSize, hNew⟩⟩
    · exact ⟨hKernel, Or.inl ⟨rfl, hBased.size_pos,
        hBased.number, hChains⟩⟩
  · exact ⟨hKernel, Or.inl ⟨rfl, hBased.size_pos,
      hBased.number, hChains⟩⟩
  · exact ⟨by simp only; omega, Or.inl ⟨rfl, hBased.size_pos,
      hBased.number, hChains⟩⟩

theorem based_step
    (s : Session)
    (u : Update)
    (s' : Session)
    (hBased : s.Based)
    (hStep : s.step c u = some s') :
    s'.Based := by
  rw [Session.step, Option.ite_none_right_eq_some] at hStep
  rw [← Option.some.inj hStep.2]
  have hUpdated := updateTable_based (c := c)
    (hBased.tables u.pageSize) hBased.kernel_pos
    (u.pageSize.vpn u.address) u.ppn
  refine ⟨hUpdated.1, ?_⟩
  intro pageSize
  by_cases hSize : pageSize = u.pageSize
  · subst hSize
    simp only [updatePageTableFrames, Function.update_self]
    rcases hUpdated.2 with ⟨hSame, hOld⟩ | ⟨hOther, hNew⟩
    · rw [if_pos hSame]
      exact hOld
    · rw [if_neg hOther]
      exact hNew
  · simp only [updatePageTableFrames,
      Function.update_of_ne hSize, if_true]
    exact hBased.tables pageSize

------------------------------------------------------------
-- Addresses
------------------------------------------------------------

/- The entries of a chain that a walk reads. -/
def reads (tag : Nat) : List Entry → List Entry
| [] => []
| e :: rest =>
    if e.tag = some tag then
      [e]
    else if rest.isEmpty then
      if e.tag = none then [e] else []
    else
      e :: reads tag rest

/- Where an access of a walk goes. -/
def placeOf (access : PTWAccess) : Nat × Nat × Nat :=
  (access.tableLevel, access.depth, access.physicalAddr)

/- The accesses of a walk along a chain. -/
theorem map_placeOf_walkChain
    (level tag : Nat)
    (offset : Fin 8)
    (counter : Nat)
    (chain : List Entry) :
    (walkChain level tag offset counter chain).1.map placeOf =
      (reads tag chain).mapIdx (fun i e =>
        (level, counter + i, entryAddress e offset)) := by
  induction chain generalizing counter with
  | nil => rfl
  | cons e rest ih =>
      unfold walkChain reads
      by_cases hTag : e.tag = some tag
      · rw [if_pos hTag, if_pos hTag]
        split
        · rfl
        · rfl
      · rw [if_neg hTag, if_neg hTag]
        by_cases hRest : rest.isEmpty = true
        · rw [if_pos hRest, if_pos hRest]
          by_cases hNone : e.tag = none
          · rw [if_pos hNone, if_pos hNone]
            rfl
          · rw [if_neg hNone, if_neg hNone]
            rfl
        · rw [if_neg hRest, if_neg hRest, List.mapIdx_cons,
            List.map_cons, ih (counter + 1)]
          simp only [Nat.add_assoc, Nat.add_comm 1]
          rfl

/- The entries that are read are the first of the chain. -/
theorem reads_getElem
    {tag i : Nat}
    {chain : List Entry}
    {e : Entry}
    (hRead : (reads tag chain)[i]? = some e) :
    chain[i]? = some e := by
  induction chain generalizing i with
  | nil => simp [reads] at hRead
  | cons first rest ih =>
      unfold reads at hRead
      split at hRead
      · cases i with
        | zero => exact hRead
        | succ i => simp at hRead
      · split at hRead
        · split at hRead
          · cases i with
            | zero => exact hRead
            | succ i => simp at hRead
          · simp at hRead
        · cases i with
          | zero => exact hRead
          | succ i => exact ih hRead

/-
  The place that a walk computes for a root entry lies in the
  memory of the table: 4096 times as far as the entry is.
-/
def Spanned (start size j : Nat) (offset : Fin 8) : Prop :=
  start % 4096 ≤ 262144 * j + 8 * offset.val ∧
    262144 * j + 8 * offset.val < start % 4096 + 64 * size

instance
    (start size j : Nat)
    (offset : Fin 8) :
    Decidable (Spanned start size j offset) :=
  inferInstanceAs (Decidable (_ ∧ _))

/- When an entry that is read is in its memory. -/
theorem contains_entryAddress_iff
    {s : Session}
    (hBased : s.Based)
    {address i : Nat}
    {pageSize : PageSize}
    {e : Entry}
    (hEntry : (chainOf c s.table address pageSize)[i]? = some e)
    (offset : Fin 8) :
    (s.memory pageSize (chainOf c s.table address pageSize)
        i).Contains (entryAddress e offset) ↔
      i = 0 ∧ Spanned (s.start pageSize)
        (s.table.tables pageSize).size
        (bucketOf c s.table address pageSize) offset := by
  have hTable := hBased.tables pageSize
  rcases hTable.rooted (bucketOf c s.table address pageSize) with
    ⟨root, rest, hChain, hPlace, hPos⟩
  have hOffset := offset.isLt
  unfold Session.memory entryAddress
  rw [hEntry]
  rw [show chainOf c s.table address pageSize =
    root :: rest from hChain] at hEntry
  cases i with
  | zero =>
      have hRoot : root = e := Option.some.inj hEntry
      rw [← hRoot, hPlace, hTable.number]
      unfold Extent.Contains Spanned
      simp only [true_and]
      omega
  | succ i =>
      have hMem : e ∈ rest := List.mem_of_getElem? hEntry
      have hFar := hPos e hMem
      unfold Extent.Contains
      simp only [Nat.add_one_ne_zero, false_and, iff_false]
      omega

/- The accesses of a walk, by page size and entry read. -/
theorem mem_accesses_iff
    {t : PageTableHT}
    (address : Nat)
    {level depth physicalAddr : Nat} :
    (level, depth, physicalAddr) ∈
        (initializeWalk c t address).accesses.map placeOf ↔
      ∃ pageSize, level = pageSizeIndex pageSize ∧
        ∃ e, (reads (pageSize.vpn address / 8)
            (chainOf c t address pageSize))[depth]? = some e ∧
          physicalAddr = entryAddress e
            (blockOffset (pageSize.vpn address)) := by
  have hTable : ∀ pageSize,
      (level, depth, physicalAddr) ∈
          (walkTable c (t.tables pageSize) address
            pageSize).1.map placeOf ↔
        level = pageSizeIndex pageSize ∧
          ∃ e, (reads (pageSize.vpn address / 8)
              (chainOf c t address pageSize))[depth]? = some e ∧
            physicalAddr = entryAddress e
              (blockOffset (pageSize.vpn address)) := by
    intro pageSize
    simp only [walkTable, map_placeOf_walkChain, Nat.zero_add]
    rw [List.mem_mapIdx]
    constructor
    · rintro ⟨i, hLt, hEq⟩
      simp only [Prod.mk.injEq] at hEq
      rcases hEq with ⟨hLevel, hDepth, hAddress⟩
      subst hDepth
      exact ⟨hLevel.symm, _, List.getElem?_eq_getElem hLt,
        hAddress.symm⟩
    · rintro ⟨hLevel, e, hRead, hAddress⟩
      rcases List.getElem?_eq_some_iff.mp hRead with
        ⟨hLt, hGet⟩
      refine ⟨depth, hLt, ?_⟩
      rw [hLevel, hAddress, ← hGet]
      rfl
  simp only [initializeWalk, List.map_append,
    List.mem_append, hTable]
  constructor
  · rintro (hSmall | hLarge)
    · exact ⟨.fourKb, hSmall⟩
    · exact ⟨.twoMb, hLarge⟩
  · rintro ⟨pageSize, hRead⟩
    cases pageSize with
    | fourKb => exact Or.inl hRead
    | twoMb => exact Or.inr hRead

theorem pageSizeIndex_inj
    {pageSize pageSize' : PageSize}
    (hSame : pageSizeIndex pageSize = pageSizeIndex pageSize') :
    pageSize = pageSize' := by
  cases pageSize with
  | fourKb =>
      cases pageSize' with
      | fourKb => rfl
      | twoMb => cases hSame
  | twoMb =>
      cases pageSize' with
      | fourKb => cases hSame
      | twoMb => rfl

/-
  A walk stays in the memory of the tables exactly when it
  reads root entries only, and those near enough to the front
  of their table.
-/
theorem inside_iff
    {s : Session}
    (hBased : s.Based)
    (address : Nat) :
    Inside c s address ↔
      ∀ pageSize, ∀ i < (reads (pageSize.vpn address / 8)
          (chainOf c s.table address pageSize)).length,
        i = 0 ∧ Spanned (s.start pageSize)
          (s.table.tables pageSize).size
          (bucketOf c s.table address pageSize)
          (blockOffset (pageSize.vpn address)) := by
  constructor
  · intro hInside pageSize i hLt
    have hRead := List.getElem?_eq_getElem hLt
    have hMem := (mem_accesses_iff (c := c) (t := s.table)
      address).mpr ⟨pageSize, rfl, _, hRead, rfl⟩
    rcases List.mem_map.mp hMem with ⟨access, hAccess, hPlace⟩
    simp only [placeOf, Prod.mk.injEq] at hPlace
    have hIn := hInside access hAccess pageSize hPlace.1
    rw [hPlace.2.1, hPlace.2.2] at hIn
    exact (contains_entryAddress_iff hBased
      (reads_getElem hRead) _).mp hIn
  · intro hRoots access hAccess pageSize hLevel
    have hMem := List.mem_map_of_mem (f := placeOf) hAccess
    rcases (mem_accesses_iff address).mp hMem with
      ⟨pageSize', hLevel', e, hRead, hAddress⟩
    have hSize : pageSize' = pageSize :=
      pageSizeIndex_inj (hLevel'.symm.trans hLevel)
    subst hSize
    rw [hAddress]
    exact (contains_entryAddress_iff hBased
      (reads_getElem hRead) _).mpr
        (hRoots pageSize' _ (List.getElem?_eq_some_iff.mp hRead).1)

/-
  No root entry of the lower table meets the upper table, for
  page numbers `e ≤ e'` and a lower table of `n` buckets.
-/
def Apart (e n e' : Nat) : Prop :=
  e ≤ e' → (e' - e) % 64 = 0 → n ≤ (e' - e) / 64

instance (e n e' : Nat) : Decidable (Apart e n e') :=
  inferInstanceAs (Decidable (_ → _ → _))

/- The addresses of tables without chained entries. -/
theorem distinct_of_roots
    {s : Session}
    (hBased : s.Based)
    (hRoots : ∀ pageSize,
      ∀ j < (s.table.tables pageSize).size,
        ((s.table.tables pageSize).buckets j).length = 1)
    (hApart : ∀ pageSize pageSize', pageSize ≠ pageSize' →
      Apart (s.start pageSize / 4096)
        (s.table.tables pageSize).size
        (s.start pageSize' / 4096)) :
    Distinct s.table := by
  have hEntry : ∀ pageSize, ∀ j i e,
      j < (s.table.tables pageSize).size →
        ((s.table.tables pageSize).buckets j)[i]? = some e →
          i = 0 ∧ e.emulatedPhysicalAddress =
            s.start pageSize / 4096 + j * 64 := by
    intro pageSize j i e hLt hGet
    have hOne := hRoots pageSize j hLt
    have hZero : i = 0 := by
      have := (List.getElem?_eq_some_iff.mp hGet).1
      omega
    rcases (hBased.tables pageSize).rooted j with
      ⟨root, rest, hChain, hPlace, -⟩
    rw [hZero, hChain] at hGet
    rw [← Option.some.inj hGet, hPlace,
      (hBased.tables pageSize).number]
    exact ⟨hZero, rfl⟩
  intro pageSize pageSize' j j' e e' offset offset' i i' hJ
    hJ' hGet hGet' hSame
  rcases hEntry pageSize j i e hJ hGet with ⟨hI, hPlace⟩
  rcases hEntry pageSize' j' i' e' hJ' hGet' with
    ⟨hI', hPlace'⟩
  have hOffset := offset.isLt
  have hOffset' := offset'.isLt
  unfold entryAddress at hSame
  rw [hPlace, hPlace'] at hSame
  by_cases hSize : pageSize = pageSize'
  · subst hSize
    exact ⟨rfl, by omega, hI.trans hI'.symm⟩
  · exfalso
    have hUp := hApart pageSize pageSize' hSize
    have hDown := hApart pageSize' pageSize
      (fun hEq => hSize hEq.symm)
    unfold Apart at hUp hDown
    rcases Nat.le_total (s.start pageSize / 4096)
        (s.start pageSize' / 4096) with hLe | hLe
    · have hUp := hUp hLe
      omega
    · have hDown := hDown hLe
      omega

end Ht

end Virtuoso
