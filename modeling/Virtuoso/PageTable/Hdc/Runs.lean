import Mathlib.Algebra.Order.Ring.Rat
import Virtuoso.PageTable.Hdc.Invariant

/-
  Runs of the open-addressing page table. In every run of
  updates of unmapped pages and deletions of mapped 4KB pages
  the walk answers as the finite map of the mapped pages, as
  long as the sizes of the tables fit an `int`.

  Main declarations:
    * `Hdc.Simulates`
    * `Hdc.answers_run_probing`
-/

namespace Virtuoso

namespace Hdc

variable {c : Config}

/- One call; a walk does not change the tables. -/
def step
    (c : Config)
    (t : PageTableHDC) :
    PageMap.Op → Option PageTableHDC
| .update address ppn pageSize =>
    some (updatePageTableFrames c t address ppn pageSize)
| .delete address => deletePage c t address

/- A call that resizes a table keeps its size an `int`. -/
def Fits (c : Config) (t : PageTableHDC) : PageMap.Op → Prop
| .update address _ pageSize =>
    FitsUpdate c (t.tables pageSize) (pageSize.vpn address)
| .delete _ => True

instance (t : PageTableHDC) : ∀ op, Decidable (Fits c t op)
| .update _ _ _ => inferInstanceAs (Decidable (FitsUpdate ..))
| .delete _ => isTrue trivial

/- The constructor and the calls, with their products in `int`. -/
def checkedRun
    (c : Config)
    (sizes : PageSize → Nat)
    (kernelStartAddress : Nat)
    (ops : List PageMap.Op) :
    Option PageTableHDC :=
  Run.guarded (∀ pageSize, FitsInt (sizes pageSize)) (step c)
    (Fits c) (construct sizes kernelStartAddress) ops

/- No product of the run overflows. -/
def FitsRun
    (c : Config)
    (sizes : PageSize → Nat)
    (kernelStartAddress : Nat)
    (ops : List PageMap.Op) : Prop :=
  (∀ pageSize, FitsInt (sizes pageSize)) ∧
    Run.Along (step c) (Fits c)
      (construct sizes kernelStartAddress) ops

instance
    (sizes : PageSize → Nat)
    (kernelStartAddress : Nat)
    (ops : List PageMap.Op) :
    Decidable (FitsRun c sizes kernelStartAddress ops) :=
  inferInstanceAs (Decidable (_ ∧ _))

/- The tables of a page table that stands for a map. -/
def Simulates
    (c : Config)
    (m : PageMap)
    (t : PageTableHDC) : Prop :=
  ∀ pageSize, Inv c (t.tables pageSize) ∧
    Represents (m pageSize) (t.tables pageSize).slots

theorem simulates_construct
    {sizes : PageSize → Nat}
    (hSizes : ∀ pageSize, 0 < sizes pageSize)
    (kernelStartAddress : Nat) :
    Simulates c PageMap.empty
      (construct sizes kernelStartAddress) := by
  have hTable : ∀ size address, 0 < size →
      Inv c ⟨size, fun _ => Entry.empty, 0, address⟩ := by
    intro size address hPos
    refine ⟨⟨Probe.chained_empty, fun _ _ _ => rfl⟩, ?_, hPos⟩
    exact (Probe.occupied_empty (κ := Nat)).symm
  have hMap : Represents (fun _ => none)
      (fun _ => Entry.empty) := by
    intro vpn ppn
    constructor
    · intro hSome
      cases hSome
    · rintro ⟨p, hTag, -⟩
      cases hTag
  intro pageSize
  cases pageSize with
  | fourKb => exact ⟨hTable _ _ (hSizes _), hMap⟩
  | twoMb => exact ⟨hTable _ _ (hSizes _), hMap⟩

variable {t : PageTableHDC} {m : PageMap}

/- Replacing one table replaces one part of the map. -/
theorem Simulates.replace
    (hSim : Simulates c m t)
    {pageSize : PageSize}
    {table : Table}
    {vpn : Nat}
    {ppn : Option Nat}
    (hInv : Inv c table)
    (hMap : Represents
      (Function.update (m pageSize) vpn ppn) table.slots)
    (kernelStartAddress : Nat) :
    Simulates c (m.set pageSize vpn ppn)
      ⟨Function.update t.tables pageSize table,
        kernelStartAddress⟩ := by
  intro other
  by_cases hEq : other = pageSize
  · subst hEq
    simp only [PageMap.set, Function.update_self]
    exact ⟨hInv, hMap⟩
  · simp only [PageMap.set, Function.update_of_ne hEq]
    exact hSim other

/- A deletion ends and removes a page from the map. -/
theorem simulates_delete
    (hSim : Simulates c m t)
    (address : Nat) :
    ∃ t', step c t (.delete address) = some t' ∧
      Simulates c (m.apply (.delete address)) t' := by
  rcases deleteFrom_spec (hSim .fourKb).1 (hSim .fourKb).2
      (PageSize.fourKb.vpn address) with
    ⟨table, hDelete, hInv, hMap⟩
  refine ⟨⟨Function.update t.tables .fourKb table,
    t.kernelStartAddress⟩, ?_, hSim.replace hInv hMap _⟩
  simp [step, deletePage, hDelete]

theorem simulates_step
    (m : PageMap)
    (t : PageTableHDC)
    (op : PageMap.Op)
    (hSim : Simulates c m t)
    (hPermits : m.Permits op) :
    ∃ t', step c t op = some t' ∧ Simulates c (m.apply op) t' := by
  cases op with
  | update address ppn pageSize =>
      rcases updateTable_spec (hSim pageSize).1
          (hSim pageSize).2 hPermits ppn
          t.kernelStartAddress with ⟨hInv, hMap⟩
      exact ⟨_, rfl, hSim.replace hInv hMap _⟩
  | delete address =>
      exact simulates_delete hSim address

/- A walk of tables that stand for a map answers as the map. -/
theorem initializeWalk_spec
    (hSim : Simulates c m t)
    (address : Nat) :
    ∃ r, initializeWalk c t address = some r ∧
      m.Answers address r := by
  have hSmall := walkTable_spec (hSim .fourKb).1
    (hSim .fourKb).2 address .fourKb
  have hLarge := walkTable_spec (hSim .twoMb).1
    (hSim .twoMb).2 address .twoMb
  rcases Option.map_eq_some_iff.mp hSmall with
    ⟨small, hSmallWalk, hSmallEq⟩
  rcases Option.map_eq_some_iff.mp hLarge with
    ⟨large, hLargeWalk, hLargeEq⟩
  have hLookup : large.2.or small.2 = m.lookup address := by
    rw [hSmallEq, hLargeEq, PageMap.lookup]
    cases m .twoMb (PageSize.twoMb.vpn address) with
    | none => rfl
    | some ppn => rfl
  refine ⟨⟨large.2.or small.2, small.1 ++ large.1,
    (large.2.or small.2).isNone, 0⟩, ?_, hLookup, ?_⟩
  · simp [initializeWalk, hSmallWalk, hLargeWalk]
  · simp only [hLookup, Option.isNone_iff_eq_none]
    exact PageMap.lookup_eq_none_iff

/-
  A permitted run of tables without a limit completes, and
  after it every walk answers as the map of its pages.
-/
theorem exists_run_simulates
    {sizes : PageSize → Nat}
    (hSizes : ∀ pageSize, 0 < sizes pageSize)
    (kernelStartAddress : Nat)
    {ops : List PageMap.Op}
    (hPermitted : Run.Permitted PageMap.apply
      PageMap.Permits PageMap.empty ops) :
    ∃ t, Run.run (step c)
        (construct sizes kernelStartAddress) ops = some t ∧
      ∀ address, ∃ r, initializeWalk c t address = some r ∧
        (ops.foldl PageMap.apply PageMap.empty).Answers
          address r := by
  rcases Run.run_simulates simulates_step
      (simulates_construct hSizes kernelStartAddress)
      hPermitted with ⟨t, hRun, hSim⟩
  exact ⟨t, hRun, initializeWalk_spec hSim⟩

/-
  A permitted run completes, and every walk then ends and
  answers as the map of the pages mapped by the run, exactly
  when the sizes of the tables fit an `int` all along.
-/
theorem answers_run_probing
    (c : Config)
    (sizes : PageSize → Nat)
    (hSizes : ∀ pageSize, 0 < sizes pageSize)
    (kernelStartAddress : Nat)
    (ops : List PageMap.Op)
    (hPermitted : Run.Permitted PageMap.apply
      PageMap.Permits PageMap.empty ops) :
    (∃ t, checkedRun c sizes kernelStartAddress ops = some t ∧
      ∀ address, ∃ r, initializeWalk c t address = some r ∧
        (ops.foldl PageMap.apply PageMap.empty).Answers address r) ↔
      FitsRun c sizes kernelStartAddress ops := by
  constructor
  · rintro ⟨t, hRun, -⟩
    exact (Run.guarded_eq_some.mp hRun).1
  · intro hFits
    rcases exists_run_simulates (c := c) hSizes
        kernelStartAddress hPermitted with
      ⟨t, hRun, hAnswers⟩
    exact ⟨t, Run.guarded_eq_some.mpr ⟨hFits, hRun⟩, hAnswers⟩

/- The table with an exact threshold of at most 1. -/
def Config.ofThreshold
    (cityHash64 : Nat → Nat)
    (threshold : Rat)
    (hThreshold : threshold ≤ 1)
    (resizeFactor : Nat)
    (hFactor : 2 ≤ resizeFactor) : Config where
  cityHash64 := cityHash64
  crossed := fun count size =>
    decide (threshold ≤ (count : Rat) / (size : Rat))
  crossed_full := by
    intro n hPos
    have hNe : (n : Rat) ≠ 0 := by
      exact_mod_cast hPos.ne'
    rw [div_self hNe]
    exact decide_eq_true hThreshold
  resizeFactor := resizeFactor
  two_le_resizeFactor := hFactor

/- The threshold of a table that grows when it is full. -/
theorem full_le_one : (1 : Rat) ≤ 1 := by
  decide

/- Two blocks collide in a full table of size 1. -/
theorem answers_run_collision :
    ∃ t, checkedRun
        (Config.ofThreshold (fun _ => 0) 1 (by decide) 2
          (by decide)) (fun _ => 1) 0
        [.update 0x1000 7 .fourKb, .update 0x8000 8 .fourKb,
          .delete 0x1000, .update 0x400000 512 .twoMb,
          .update 0x1000 9 .fourKb] = some t ∧
      ∀ address, ∃ r,
        initializeWalk (Config.ofThreshold (fun _ => 0) 1
          (by decide) 2 (by decide)) t address = some r ∧
        (List.foldl PageMap.apply PageMap.empty
          [.update 0x1000 7 .fourKb,
            .update 0x8000 8 .fourKb, .delete 0x1000,
            .update 0x400000 512 .twoMb,
            .update 0x1000 9 .fourKb]).Answers address r :=
  (answers_run_probing _ _ (fun _ => Nat.one_pos) 0 _
    (by decide)).mpr (by decide +kernel)

/- A table that always grows, to 65536 times its size. -/
def alwaysGrows : Config where
  cityHash64 := fun _ => 0
  crossed := fun _ _ => true
  crossed_full := fun _ _ => rfl
  resizeFactor := 65536
  two_le_resizeFactor := by decide

/- Two blocks, the second of which overflows the size. -/
def twoBlocks : List PageMap.Op :=
  [.update 0 7 .fourKb, .update 0x8000 8 .fourKb]

/- The second resize asks for a size of 2 to the 32. -/
theorem checkedRun_twoBlocks :
    checkedRun alwaysGrows (fun _ => 1) 4096 twoBlocks = none := by
  decide +kernel

theorem answers_run_probing_overflow :
    Run.Permitted PageMap.apply PageMap.Permits
        PageMap.empty twoBlocks ∧
      ¬ ∃ t, checkedRun alwaysGrows (fun _ => 1) 4096
          twoBlocks = some t ∧
        ∀ address, ∃ r,
          initializeWalk alwaysGrows t address = some r ∧
          (twoBlocks.foldl PageMap.apply
            PageMap.empty).Answers address r := by
  refine ⟨by decide, ?_⟩
  rintro ⟨t, hRun, -⟩
  rw [checkedRun_twoBlocks] at hRun
  cases hRun

end Hdc

end Virtuoso
