import Virtuoso.PageTable.Hdc.Runs

/-
  The free slot of an open-addressing table in every run, also
  in runs that map a page twice or delete pages that are not
  mapped. A block may then have several slots; what is left of
  the invariant is the count of the slots that have a tag.

  Main declarations:
    * `Hdc.Roomy`
    * `Hdc.ends_run`
-/

namespace Virtuoso

namespace Hdc

variable {c : Config} {t : Table} {slots : Nat → Entry}

/- The entry count is exact and leaves a slot free. -/
structure Roomy (t : Table) : Prop where
  counted : t.entryCount = Probe.occupied t.size (tags t.slots)
  free : t.entryCount < t.size

theorem Roomy.exists_free
    (hRoomy : Roomy t) :
    ∃ p < t.size, tags t.slots p = none := by
  apply Probe.exists_empty_of_occupied_lt
  rw [← hRoomy.counted]
  exact hRoomy.free

/- A probe that stops at gaps ends. -/
theorem Roomy.probe_ends
    (hRoomy : Roomy t)
    {stop : Entry → Bool}
    (hGap : ∀ e : Entry, e.tag = none → stop e = true)
    (tag : Nat) :
    ∃ p < t.size,
      (probeFor c stop t.slots t.size tag).2 = some p ∧
        stop (t.slots p) = true :=
  probeFor_stops stop tag hRoomy.exists_free hGap

theorem stopsWalk_gap
    (tag : Nat)
    (e : Entry)
    (hNone : e.tag = none) :
    stopsWalk tag e = true := by
  simp [stopsWalk, hNone]

theorem stopsUpdate_gap
    (tag : Nat)
    (offset : Fin 8)
    (e : Entry)
    (hNone : e.tag = none) :
    stopsUpdate tag offset e = true := by
  simp [stopsUpdate, hNone]

theorem stopsDelete_gap
    (tag : Nat)
    (offset : Fin 8)
    (e : Entry)
    (hNone : e.tag = none) :
    stopsDelete tag offset e = true := by
  simp [stopsDelete, hNone]

/- Changing an entry that keeps its tag keeps the count. -/
theorem Roomy.rewrite
    (hRoomy : Roomy t)
    {p : Nat}
    {e : Entry}
    (hTag : e.tag = (t.slots p).tag) :
    Roomy { t with slots := Function.update t.slots p e } := by
  have hTags : tags (Function.update t.slots p e) =
      tags t.slots := by
    rw [tags_update, hTag]
    exact Function.update_eq_self p (tags t.slots)
  refine ⟨?_, hRoomy.free⟩
  simp only [hTags]
  exact hRoomy.counted

/- Copying an entry counts it if it has a tag. -/
theorem occupied_rehashEntry
    {newSize : Nat}
    (hRoom : Probe.occupied newSize (tags slots) < newSize)
    (e : Entry) :
    Probe.occupied newSize (tags (rehashEntry c newSize slots e)) =
      Probe.occupied newSize (tags slots) +
        if e.tag.isSome then 1 else 0 := by
  cases hTag : e.tag with
  | none => simp [rehashEntry, hTag]
  | some tag =>
      rcases probeFor_stops (c := c) isEmpty tag
          (Probe.exists_empty_of_occupied_lt hRoom)
          (fun e hNone => by simp [isEmpty, hNone]) with
        ⟨p, hLt, hProbe, hStop⟩
      have hNone : tags slots p = none :=
        of_decide_eq_true hStop
      simp only [rehashEntry, hTag, hProbe, tags_update]
      exact Probe.occupied_update hLt hNone tag

/- The first `k` slots of the old table are counted again. -/
theorem occupied_foldl_rehashEntry
    {old : Nat → Entry}
    {oldSize newSize : Nat}
    (hRoom : Probe.occupied oldSize (tags old) < newSize)
    {k : Nat}
    (hK : k ≤ oldSize) :
    Probe.occupied newSize
        (tags ((List.range k).foldl
          (fun slots j => rehashEntry c newSize slots (old j))
          (fun _ => Entry.empty))) =
      Probe.occupied k (tags old) := by
  induction k with
  | zero =>
      exact (Probe.occupied_empty (κ := Nat)).trans (by
        simp [Probe.occupied])
  | succ k ih =>
      have hMono := Probe.occupied_mono (m := k)
        (n := oldSize) (by omega) (tags old)
      rw [List.range_succ, List.foldl_append,
        List.foldl_cons, List.foldl_nil,
        occupied_rehashEntry (by rw [ih (by omega)]; omega),
        ih (by omega), Probe.occupied_succ]
      rfl

/- A resize of a counted table makes room. -/
theorem resizeTable_roomy
    (hCount : t.entryCount = Probe.occupied t.size (tags t.slots))
    (hPos : 0 < t.size)
    (hLe : t.entryCount ≤ t.size)
    (kernelStartAddress : Nat) :
    Roomy (resizeTable c t kernelStartAddress).1 := by
  have hLarger : t.size < t.size * c.resizeFactor := by
    have := Nat.mul_le_mul_left t.size c.two_le_resizeFactor
    omega
  have hRoom : Probe.occupied t.size (tags t.slots) <
      t.size * c.resizeFactor := by
    omega
  constructor
  · exact hCount.trans (occupied_foldl_rehashEntry hRoom
      (Nat.le_refl t.size)).symm
  · exact Nat.lt_of_le_of_lt hLe hLarger

/-
  An update keeps a slot free: it fills at most one, and a
  table without another one is resized.
-/
theorem updateTable_roomy
    (hRoomy : Roomy t)
    (vpn ppn kernelStartAddress : Nat) :
    Roomy (updateTable c t vpn ppn kernelStartAddress).1 := by
  rcases hRoomy.probe_ends (c := c)
      (stopsUpdate_gap (vpn / 8) (blockOffset vpn))
      (vpn / 8) with ⟨p, hLt, hProbe, -⟩
  simp only [updateTable, hProbe]
  by_cases hNone : (t.slots p).tag = none
  · rw [if_pos hNone]
    have hFree := hRoomy.free
    have hCount : t.entryCount + 1 = Probe.occupied t.size
        (tags (Function.update t.slots p
          { (t.slots p).put (blockOffset vpn) ppn with
            tag := some (vpn / 8) })) := by
      rw [tags_update, Probe.occupied_update hLt hNone,
        hRoomy.counted]
    split
    · exact resizeTable_roomy
        (t := ⟨t.size, Function.update t.slots p
          { (t.slots p).put (blockOffset vpn) ppn with
            tag := some (vpn / 8) },
          t.entryCount + 1, t.emulatedTableAddress⟩)
        hCount (Nat.zero_lt_of_lt hLt) hFree _
    · rename_i hCrossed
      -- A full table has crossed every threshold up to 1.
      have hNotFull : t.entryCount + 1 ≠ t.size := by
        intro hEq
        rw [hEq] at hCrossed
        exact hCrossed (c.crossed_full _ (Nat.zero_lt_of_lt hLt))
      exact ⟨hCount, by simp only; omega⟩
  · rw [if_neg hNone]
    exact hRoomy.rewrite rfl

/- A deletion ends and keeps all tags. -/
theorem deleteFrom_roomy
    (hRoomy : Roomy t)
    (vpn : Nat) :
    ∃ t', deleteFrom c t vpn = some t' ∧ Roomy t' := by
  rcases hRoomy.probe_ends (c := c)
      (stopsDelete_gap (vpn / 8) (blockOffset vpn))
      (vpn / 8) with ⟨p, -, hProbe, -⟩
  simp only [deleteFrom, hProbe, Option.map_some]
  split
  · exact ⟨_, rfl, hRoomy.rewrite rfl⟩
  · exact ⟨_, rfl, hRoomy⟩

/- Every table of the page table has room. -/
def AllRoomy (t : PageTableHDC) : Prop :=
  ∀ pageSize, Roomy (t.tables pageSize)

theorem AllRoomy.replace
    {t : PageTableHDC}
    (hAll : AllRoomy t)
    {pageSize : PageSize}
    {table : Table}
    (hRoomy : Roomy table)
    (kernelStartAddress : Nat) :
    AllRoomy
      ⟨Function.update t.tables pageSize table,
        kernelStartAddress⟩ := by
  intro other
  by_cases hEq : other = pageSize
  · subst hEq
    simp only [Function.update_self]
    exact hRoomy
  · simp only [Function.update_of_ne hEq]
    exact hAll other

theorem allRoomy_construct
    {sizes : PageSize → Nat}
    (hSizes : ∀ pageSize, 0 < sizes pageSize)
    (kernelStartAddress : Nat) :
    AllRoomy (construct sizes kernelStartAddress) := by
  have hTable : ∀ size address, 0 < size →
      Roomy ⟨size, fun _ => Entry.empty, 0, address⟩ := by
    intro size address hPos
    exact ⟨(Probe.occupied_empty (κ := Nat)).symm, hPos⟩
  intro pageSize
  cases pageSize with
  | fourKb => exact hTable _ _ (hSizes _)
  | twoMb => exact hTable _ _ (hSizes _)

/- Every call ends and leaves room. -/
theorem allRoomy_step
    (t : PageTableHDC)
    (op : PageMap.Op)
    (hAll : AllRoomy t) :
    ∃ t', step c t op = some t' ∧ AllRoomy t' := by
  cases op with
  | update address ppn pageSize =>
      exact ⟨_, rfl, hAll.replace
        (updateTable_roomy (hAll pageSize) _ _ _) _⟩
  | delete address =>
      rcases deleteFrom_roomy (c := c) (hAll .fourKb)
          (PageSize.fourKb.vpn address) with
        ⟨table, hDelete, hRoomy⟩
      refine ⟨⟨Function.update t.tables .fourKb table,
        t.kernelStartAddress⟩, ?_, hAll.replace hRoomy _⟩
      simp [step, deletePage, hDelete]

/-
  The probe loops that start from an address end inside of the
  table: a walk is not the exit of a full table, an update
  finds a slot for its translation and a deletion ends.
-/
structure Ends
    (c : Config)
    (t : PageTableHDC)
    (address : Nat) : Prop where
  walk : ∃ r, initializeWalk c t address = some r
  update : ∀ pageSize : PageSize,
    let table := t.tables pageSize
    let vpn := pageSize.vpn address
    ∃ p < table.size,
      (probeFor c (stopsUpdate (vpn / 8) (blockOffset vpn))
        table.slots table.size (vpn / 8)).2 = some p
  delete : ∃ t', deletePage c t address = some t'

theorem walkTable_ends
    (hRoomy : Roomy t)
    (address : Nat)
    (pageSize : PageSize) :
    ∃ walked, walkTable c t address pageSize = some walked := by
  rcases hRoomy.probe_ends (c := c)
      (stopsWalk_gap (pageSize.vpn address / 8))
      (pageSize.vpn address / 8) with ⟨p, -, hProbe, -⟩
  simp [walkTable, hProbe]

theorem AllRoomy.ends
    {t : PageTableHDC}
    (hAll : AllRoomy t)
    (address : Nat) :
    Ends c t address := by
  constructor
  · rcases walkTable_ends (c := c) (hAll .fourKb) address
        .fourKb with ⟨small, hSmall⟩
    rcases walkTable_ends (c := c) (hAll .twoMb) address
        .twoMb with ⟨large, hLarge⟩
    simp [initializeWalk, hSmall, hLarge]
  · intro pageSize
    rcases (hAll pageSize).probe_ends (c := c)
        (stopsUpdate_gap _ _) _ with ⟨p, hLt, hProbe, -⟩
    exact ⟨p, hLt, hProbe⟩
  · rcases allRoomy_step (c := c) t (.delete address) hAll
      with ⟨t', hStep, -⟩
    exact ⟨t', hStep⟩

/- A run of tables without a limit completes with room. -/
theorem exists_run_allRoomy
    {sizes : PageSize → Nat}
    (hSizes : ∀ pageSize, 0 < sizes pageSize)
    (kernelStartAddress : Nat)
    (ops : List PageMap.Op) :
    ∃ t, Run.run (step c)
        (construct sizes kernelStartAddress) ops = some t ∧
      AllRoomy t :=
  Run.run_total (C := fun _ _ => True)
    (fun t op hAll _ => allRoomy_step (c := c) t op hAll)
    (construct sizes kernelStartAddress) ops
    (allRoomy_construct hSizes kernelStartAddress)
    (Run.along_of_forall_mem _ (fun _ _ => trivial))

/-
  A run of updates and deletions completes, and every table
  then has an empty slot and every probe loop ends, exactly
  when the sizes of the tables fit an `int` all along.
-/
theorem ends_run
    (c : Config)
    (sizes : PageSize → Nat)
    (hSizes : ∀ pageSize, 0 < sizes pageSize)
    (kernelStartAddress : Nat)
    (ops : List PageMap.Op) :
    (∃ t, checkedRun c sizes kernelStartAddress ops = some t ∧
      (∀ pageSize, ∃ p < (t.tables pageSize).size,
        ((t.tables pageSize).slots p).tag = none) ∧
      ∀ address, Ends c t address) ↔
      FitsRun c sizes kernelStartAddress ops := by
  constructor
  · rintro ⟨t, hRun, -⟩
    exact (Run.guarded_eq_some.mp hRun).1
  · intro hFits
    rcases exists_run_allRoomy (c := c) hSizes
        kernelStartAddress ops with ⟨t, hRun, hAll⟩
    exact ⟨t, Run.guarded_eq_some.mpr ⟨hFits, hRun⟩,
      fun pageSize => (hAll pageSize).exists_free,
      fun address => hAll.ends address⟩

/- One block, mapped twice in a table of size 1. -/
theorem ends_run_twice :
    ∃ t, checkedRun
        (Config.ofThreshold (fun _ => 0) 1 (by decide) 2
          (by decide)) (fun _ => 1) 0
        [.update 0x1000 7 .fourKb, .update 0x1000 8 .fourKb,
          .delete 0x1000, .delete 0x9000] = some t ∧
      (∀ pageSize, ∃ p < (t.tables pageSize).size,
        ((t.tables pageSize).slots p).tag = none) ∧
      ∀ address, Ends (Config.ofThreshold (fun _ => 0) 1
        (by decide) 2 (by decide)) t address :=
  (ends_run _ _ (fun _ => Nat.one_pos) 0 _).mpr (by decide +kernel)

theorem ends_run_overflow :
    ¬ ∃ t, checkedRun alwaysGrows (fun _ => 1) 4096
        twoBlocks = some t ∧
      (∀ pageSize, ∃ p < (t.tables pageSize).size,
        ((t.tables pageSize).slots p).tag = none) ∧
      ∀ address, Ends alwaysGrows t address := by
  rintro ⟨t, hRun, -⟩
  rw [checkedRun_twoBlocks] at hRun
  cases hRun

end Hdc

end Virtuoso
