import Virtuoso.PageTable.Ht.Resize

/-
  Runs of the chained hash page table. In every run of
  updates of unmapped pages and deletions of mapped 4KB pages
  the walk answers as the finite map of the mapped pages,
  whenever the tables are resized, as long as their sizes
  fit an `int`.

  Main declarations:
    * `Ht.Simulates`
    * `Ht.answers_run_chaining`
-/

namespace Virtuoso

namespace Ht

variable {c : Config}

/- One call; a walk does not change the tables. -/
def step
    (c : Config)
    (t : PageTableHT) :
    PageMap.Op → Option PageTableHT
| .update address ppn pageSize =>
    some (updatePageTableFrames c t address ppn pageSize)
| .delete address => some (deletePage c t address)

/- A call that resizes a table keeps its size an `int`. -/
def Fits (c : Config) (t : PageTableHT) : PageMap.Op → Prop
| .update address _ pageSize =>
    FitsUpdate c (t.tables pageSize) (pageSize.vpn address)
| .delete _ => True

instance (t : PageTableHT) : ∀ op, Decidable (Fits c t op)
| .update _ _ _ => inferInstanceAs (Decidable (FitsUpdate ..))
| .delete _ => isTrue trivial

/- The constructor and the calls, with their products in `int`. -/
def checkedRun
    (c : Config)
    (sizes : PageSize → Nat)
    (kernelStartAddress : Nat)
    (ops : List PageMap.Op) :
    Option PageTableHT :=
  Run.guarded (∀ pageSize, FitsInt (sizes pageSize)) (step c)
    (Fits c) (construct sizes kernelStartAddress) ops

/- No product of the run overflows. -/
def FitsRun
    (c : Config)
    (sizes : PageSize → Nat)
    (kernelStartAddress : Nat)
    (ops : List PageMap.Op) : Prop :=
  (∀ pageSize, FitsInt (sizes pageSize)) ∧
    Run.Along (step c) (Fits c)
      (construct sizes kernelStartAddress) ops

instance
    (sizes : PageSize → Nat)
    (kernelStartAddress : Nat)
    (ops : List PageMap.Op) :
    Decidable (FitsRun c sizes kernelStartAddress ops) :=
  inferInstanceAs (Decidable (_ ∧ _))

/- A table that stands for the map of one page size. -/
structure Stands
    (c : Config)
    (m : Nat → Option Nat)
    (t : Table) : Prop where
  size_pos : 0 < t.size
  inv : Inv c t.size t.buckets
  map : Represents c m t.size t.buckets

/- Both tables stand for the mappings of their size. -/
def Simulates
    (c : Config)
    (m : PageMap)
    (t : PageTableHT) : Prop :=
  ∀ pageSize, Stands c (m pageSize) (t.tables pageSize)

theorem simulates_construct
    {sizes : PageSize → Nat}
    (hSizes : ∀ pageSize, 0 < sizes pageSize)
    (kernelStartAddress : Nat) :
    Simulates c PageMap.empty
      (construct sizes kernelStartAddress) := by
  have hMap : ∀ size tablePa, Represents c (fun _ => none)
      size (freshBuckets tablePa) := by
    intro size tablePa vpn ppn
    simp [not_has_fresh]
  intro pageSize
  cases pageSize with
  | fourKb =>
      exact ⟨hSizes _, inv_fresh _ _, hMap _ _⟩
  | twoMb =>
      exact ⟨hSizes _, inv_fresh _ _, hMap _ _⟩

/- The page number of a block and an offset in it. -/
theorem vpn_eq_iff
    {vpn vpn' : Nat} :
    vpn' / 8 = vpn / 8 ∧ blockOffset vpn' = blockOffset vpn ↔
      vpn' = vpn := by
  constructor
  · rintro ⟨hTag, hOffset⟩
    have hMod : vpn' % 8 = vpn % 8 :=
      congrArg Fin.val hOffset
    omega
  · intro hEq
    rw [hEq]
    exact ⟨rfl, rfl⟩

variable {m : Nat → Option Nat}

/-
  Replacing the bucket of a page, where the translations of
  the bucket change for that page only.
-/
theorem represents_replace
    {size vpn : Nat}
    {buckets : Nat → List Entry}
    {chain : List Entry}
    {ppn : Option Nat}
    (hMap : Represents c m size buckets)
    (hOwn : ∀ x, ppn = some x ↔
      Has chain (vpn / 8) (blockOffset vpn) x)
    (hOther : ∀ vpn' x, vpn' ≠ vpn →
      (Has chain (vpn' / 8) (blockOffset vpn') x ↔
        Has (buckets (hashFunction c (vpn / 8) size))
          (vpn' / 8) (blockOffset vpn') x)) :
    Represents c (Function.update m vpn ppn) size
      (Function.update buckets
        (hashFunction c (vpn / 8) size) chain) := by
  intro vpn' x
  by_cases hVpn : vpn' = vpn
  · rw [hVpn, Function.update_self, Function.update_self]
    exact hOwn x
  · rw [Function.update_of_ne hVpn, hMap vpn' x]
    by_cases hBucket : hashFunction c (vpn' / 8) size =
        hashFunction c (vpn / 8) size
    · rw [hBucket, Function.update_self]
      exact (hOther vpn' x hVpn).symm
    · rw [Function.update_of_ne hBucket]

variable {t : Table}

/- An update of an unmapped page adds it to the map. -/
theorem updateTable_spec
    (hStands : Stands c m t)
    {vpn : Nat}
    (hUnmapped : m vpn = none)
    (ppn kernelStartAddress : Nat) :
    Stands c (Function.update m vpn (some ppn))
      (updateTable c t vpn ppn kernelStartAddress).1 := by
  obtain ⟨updated, hUpdated⟩ : ∃ updated, updated =
      updateChain (vpn / 8) (blockOffset vpn) ppn
        kernelStartAddress
        (t.buckets (hashFunction c (vpn / 8) t.size)) :=
    ⟨_, rfl⟩
  have hSpec : Updated
      (t.buckets (hashFunction c (vpn / 8) t.size))
      updated.2 (vpn / 8) (blockOffset vpn) ppn := by
    rw [hUpdated]
    apply updateChain_spec (hStands.inv.sound _)
    intro x hHas
    rw [(hStands.map vpn x).mpr hHas] at hUnmapped
    cases hUnmapped
  have hInv : Inv c t.size (Function.update t.buckets
      (hashFunction c (vpn / 8) t.size) updated.2) := by
    apply hStands.inv.replace hSpec.sound
    intro tag hStores
    rcases hSpec.stores tag hStores with hEq | hOld
    · rw [hEq]
    · exact hStands.inv.home _ tag hOld
  have hMap : Represents c
      (Function.update m vpn (some ppn)) t.size
      (Function.update t.buckets
        (hashFunction c (vpn / 8) t.size) updated.2) := by
    apply represents_replace hStands.map
    · intro x
      rw [hSpec.adds, if_pos ⟨rfl, rfl⟩, Option.some.injEq, eq_comm]
    · intro vpn' x hNe
      rw [hSpec.adds, if_neg (mt vpn_eq_iff.mp hNe)]
  unfold updateTable
  simp only [handleFineGrainedPageTableAllocations, ← hUpdated]
  cases updated.1 with
  | filled =>
      simp only
      split
      · rcases resizeTable_spec
            (t := { t with
              buckets := Function.update t.buckets
                (hashFunction c (vpn / 8) t.size) updated.2
              entryCount := t.entryCount + 1 })
            hInv hStands.size_pos hMap
            kernelStartAddress with
          ⟨hInv', hPos', hMap'⟩
        exact ⟨hPos', hInv', hMap'⟩
      · exact ⟨hStands.size_pos, hInv, hMap⟩
  | updated => exact ⟨hStands.size_pos, hInv, hMap⟩
  | chained => exact ⟨hStands.size_pos, hInv, hMap⟩

/- A deletion removes a page from the map. -/
theorem deleteFrom_spec
    (hStands : Stands c m t)
    (vpn : Nat) :
    Stands c (Function.update m vpn none)
      { t with
        buckets := Function.update t.buckets
          (hashFunction c (vpn / 8) t.size)
          (deleteChain (vpn / 8) (blockOffset vpn)
            (t.buckets (hashFunction c (vpn / 8) t.size))) } := by
  have hSpec := deleteChain_spec
    (hStands.inv.sound (hashFunction c (vpn / 8) t.size))
    (vpn / 8) (blockOffset vpn)
  refine ⟨hStands.size_pos, ?_, ?_⟩
  · apply hStands.inv.replace hSpec.sound
    intro tag hStores
    exact hStands.inv.home _ tag (hSpec.stores tag hStores)
  · apply represents_replace hStands.map
    · intro x
      rw [hSpec.removes]
      simp
    · intro vpn' x hNe
      rw [hSpec.removes]
      exact and_iff_right (mt vpn_eq_iff.mp hNe)

/- Replacing one table replaces one part of the map. -/
theorem Simulates.replace
    {m : PageMap}
    {t : PageTableHT}
    (hSim : Simulates c m t)
    {pageSize : PageSize}
    {table : Table}
    {vpn : Nat}
    {ppn : Option Nat}
    (hStands : Stands c
      (Function.update (m pageSize) vpn ppn) table)
    (kernelStartAddress : Nat) :
    Simulates c (m.set pageSize vpn ppn)
      ⟨Function.update t.tables pageSize table,
        kernelStartAddress⟩ := by
  intro other
  by_cases hEq : other = pageSize
  · subst hEq
    simp only [PageMap.set, Function.update_self]
    exact hStands
  · simp only [PageMap.set, Function.update_of_ne hEq]
    exact hSim other

theorem simulates_step
    (m : PageMap)
    (t : PageTableHT)
    (op : PageMap.Op)
    (hSim : Simulates c m t)
    (hPermits : m.Permits op) :
    ∃ t', step c t op = some t' ∧ Simulates c (m.apply op) t' := by
  cases op with
  | update address ppn pageSize =>
      exact ⟨_, rfl, hSim.replace
        (updateTable_spec (hSim pageSize) hPermits ppn
          t.kernelStartAddress) _⟩
  | delete address =>
      exact ⟨_, rfl, hSim.replace
        (deleteFrom_spec (hSim .fourKb) _) _⟩

/- The walk of one table finds the translation of the map. -/
theorem walkTable_spec
    (hStands : Stands c m t)
    (address : Nat)
    (pageSize : PageSize) :
    (walkTable c t address pageSize).2 =
      (m (pageSize.vpn address)).map
        (fun ppn => (ppn, pageSize.bits)) := by
  simp only [walkTable]
  congr 1
  apply Option.ext
  intro ppn
  exact (walkChain_spec (hStands.inv.sound _) _ _ _).trans
    (hStands.map _ _).symm

/- A walk of tables that stand for a map answers as the map. -/
theorem initializeWalk_spec
    {m : PageMap}
    {t : PageTableHT}
    (hSim : Simulates c m t)
    (address : Nat) :
    m.Answers address (initializeWalk c t address) := by
  have hLookup :
      (initializeWalk c t address).translation =
        m.lookup address := by
    simp only [initializeWalk,
      walkTable_spec (hSim .fourKb),
      walkTable_spec (hSim .twoMb), PageMap.lookup]
    cases m .twoMb (PageSize.twoMb.vpn address) with
    | none => rfl
    | some ppn => rfl
  refine ⟨hLookup, ?_⟩
  rw [← PageMap.lookup_eq_none_iff, ← hLookup]
  exact Option.isNone_iff_eq_none

/-
  A permitted run completes, and every walk then answers as
  the map of the pages mapped by the run, exactly when the
  sizes of the tables fit an `int` all along.
-/
theorem answers_run_chaining
    (c : Config)
    (sizes : PageSize → Nat)
    (hSizes : ∀ pageSize, 0 < sizes pageSize)
    (kernelStartAddress : Nat)
    (ops : List PageMap.Op)
    (hPermitted : Run.Permitted PageMap.apply
      PageMap.Permits PageMap.empty ops) :
    (∃ t, checkedRun c sizes kernelStartAddress ops = some t ∧
      ∀ address,
        (ops.foldl PageMap.apply PageMap.empty).Answers
          address (initializeWalk c t address)) ↔
      FitsRun c sizes kernelStartAddress ops := by
  constructor
  · rintro ⟨t, hRun, -⟩
    exact (Run.guarded_eq_some.mp hRun).1
  · intro hFits
    rcases Run.run_simulates simulates_step
        (simulates_construct hSizes kernelStartAddress)
        hPermitted with ⟨t, hRun, hSim⟩
    exact ⟨t, Run.guarded_eq_some.mpr ⟨hFits, hRun⟩,
      initializeWalk_spec hSim⟩

/- Three blocks in one chain, with a deletion in the middle. -/
theorem answers_run_chain :
    ∃ t, checkedRun ⟨fun _ => 0,
          fun count size => decide (size < count), 2,
          by decide⟩ (fun _ => 1) 0
        [.update 0x1000 7 .fourKb, .update 0x8000 8 .fourKb,
          .update 0x10000 9 .fourKb, .delete 0x8000,
          .update 0x400000 512 .twoMb,
          .update 0x8000 10 .fourKb] = some t ∧
      ∀ address,
        (List.foldl PageMap.apply PageMap.empty
          [.update 0x1000 7 .fourKb,
            .update 0x8000 8 .fourKb,
            .update 0x10000 9 .fourKb, .delete 0x8000,
            .update 0x400000 512 .twoMb,
            .update 0x8000 10 .fourKb]).Answers address
          (initializeWalk ⟨fun _ => 0,
            fun count size => decide (size < count), 2,
            by decide⟩ t address) :=
  (answers_run_chaining _ _ (fun _ => Nat.one_pos) 0 _
    (by decide)).mpr (by decide +kernel)

/- A table that always grows, to 65536 times its size. -/
def alwaysGrows : Config :=
  ⟨id, fun _ _ => true, 65536, Nat.le_add_left 2 _⟩

/-
  Two blocks in two buckets: the second resize asks for a
  size of 2 to the 32.
-/
theorem answers_run_chaining_overflow :
    Run.Permitted PageMap.apply PageMap.Permits
        PageMap.empty
        [.update 0 7 .fourKb, .update 0x8000 8 .fourKb] ∧
      ¬ ∃ t, checkedRun alwaysGrows (fun _ => 1) 4096
          [.update 0 7 .fourKb, .update 0x8000 8 .fourKb] = some t ∧
        ∀ address,
          (List.foldl PageMap.apply PageMap.empty
            [.update 0 7 .fourKb,
              .update 0x8000 8 .fourKb]).Answers address
            (initializeWalk alwaysGrows t address) := by
  have hNone : checkedRun alwaysGrows (fun _ => 1) 4096
      [.update 0 7 .fourKb, .update 0x8000 8 .fourKb] = none := by
    decide +kernel
  refine ⟨by decide, ?_⟩
  rintro ⟨t, hRun, -⟩
  rw [hNone] at hRun
  cases hRun

end Ht

end Virtuoso
