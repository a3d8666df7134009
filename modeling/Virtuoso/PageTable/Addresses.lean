import Virtuoso.PageTable.Cuckoo.Memory
import Virtuoso.PageTable.Deletion
import Virtuoso.PageTable.Hdc.Memory
import Virtuoso.PageTable.Ht.Memory

/-
  The addresses that the walks of the hash page tables
  report, in every state that updates reach.

  Main declarations:
    * `walkAddresses_reached`
-/

namespace Virtuoso

/- One update of the cuckoo table. -/
def Cuckoo.update
    (c : Cuckoo.Config)
    (fuel : Nat)
    (t : Cuckoo.PageTableCuckoo)
    (u : Update) :
    Option Cuckoo.PageTableCuckoo :=
  Cuckoo.updatePageTableFrames c fuel t u.address u.ppn u.pageSize

/-
  When the walks stay in the memory of the tables, and when
  different blocks have different addresses. All requests of
  the runs are in `int`, those of the constructors and those
  of the updates.
-/
theorem walkAddresses_reached
    (sizes : PageSize → Nat)
    (k : Nat) :
    (∀ (c : Hdc.Config) us s,
      (∀ pageSize, 0 < sizes pageSize ∧ FitsInt (sizes pageSize)) →
        Run.run (Hdc.Session.step c)
            (Hdc.Session.initial sizes k) us = some s →
          (∀ address r,
            Hdc.initializeWalk c s.table address = some r →
              (Hdc.Inside s r ↔
                ∀ pageSize, ∀ slot ∈
                    Hdc.probed c s.table address pageSize,
                  Hdc.FarEnough (s.start pageSize) slot
                    (Hdc.blockOffset (pageSize.vpn address)))) ∧
            (Hdc.Distinct s.table ↔
              ∀ pageSize pageSize', pageSize ≠ pageSize' →
                Hdc.Apart (s.start pageSize / 4096)
                  (s.table.tables pageSize).size
                  (s.start pageSize' / 4096))) ∧
    (∀ (c : Ht.Config) us s,
      (∀ pageSize, 0 < sizes pageSize ∧ FitsInt (sizes pageSize)) →
        Run.run (Ht.Session.step c)
            (Ht.Session.initial sizes k) us = some s →
          (∀ address,
            Ht.Inside c s address ↔
              ∀ pageSize, ∀ i <
                  (Ht.reads (pageSize.vpn address / 8)
                    (Ht.chainOf c s.table address pageSize)).length,
                i = 0 ∧ Ht.Spanned (s.start pageSize)
                  (s.table.tables pageSize).size
                  (Ht.bucketOf c s.table address pageSize)
                  (Ht.blockOffset (pageSize.vpn address))) ∧
            ((∀ pageSize,
                ∀ j < (s.table.tables pageSize).size,
                  ((s.table.tables pageSize).buckets
                    j).length = 1) →
              (∀ pageSize pageSize', pageSize ≠ pageSize' →
                Ht.Apart (s.start pageSize / 4096)
                  (s.table.tables pageSize).size
                  (s.start pageSize' / 4096)) →
                Ht.Distinct s.table)) ∧
    (∀ (c : Cuckoo.Config) fuel us t,
      (∀ pageSize, FitsInt (sizes pageSize)) →
        Run.run (Cuckoo.update (c.withMemory sizes k) fuel)
            (Cuckoo.construct sizes) us = some t →
          (∀ address,
            Cuckoo.Inside (c.withMemory sizes k) sizes k t address ↔
              ∀ pageSize,
                Cuckoo.Reported (c.withMemory sizes k) t
                    address pageSize →
                  ∀ way < c.ways,
                    (t.nests pageSize).size = sizes pageSize ∧
                      Cuckoo.Spanned
                        (Cuckoo.tableStart c sizes k pageSize way)
                        (sizes pageSize)
                        (Cuckoo.position c (t.nests pageSize)
                          (pageSize.vpn address / 8) way)) ∧
            ((∀ pageSize pageSize',
                ∀ way < c.ways, ∀ way' < c.ways,
                  (pageSize, way) ≠ (pageSize', way') →
                    Cuckoo.Apart
                      (Cuckoo.tableStart c sizes k pageSize
                        way / 4096)
                      (t.nests pageSize).size
                      (Cuckoo.tableStart c sizes k pageSize'
                        way' / 4096)) →
              Cuckoo.Distinct (c.withMemory sizes k) t)) := by
  refine ⟨?_, ?_, ?_⟩
  · intro c us s hSizes hRun
    have hNumbered := Run.run_invariant Hdc.numbered_step
      (Hdc.numbered_initial (fun size => (hSizes size).1) k) hRun
    exact ⟨fun address r hWalk =>
      Hdc.inside_iff hNumbered hWalk,
      Hdc.distinct_iff hNumbered⟩
  · intro c us s hSizes hRun
    have hBased := Run.run_invariant Ht.based_step
      (Ht.based_initial (fun size => (hSizes size).1) k) hRun
    exact ⟨Ht.inside_iff hBased, Ht.distinct_of_roots hBased⟩
  · intro c fuel us t _ _
    exact ⟨Cuckoo.inside_iff t,
      fun hApart => Cuckoo.distinct_of_apart
        (c := c.withMemory sizes k) hApart⟩

/- Every block has its home far inside the tables. -/
def Hdc.farHome : Hdc.Config :=
  Config.ofThreshold (fun _ => 1088) 1 full_le_one 2 Nat.one_lt_two

/-
  An open-addressing table read far enough inside, and a
  chained table and a cuckoo table that fill whole pages.
-/
theorem walkAddresses_reached_aligned :
    (∃ s r, Run.run (Hdc.Session.step Hdc.farHome)
        (Hdc.Session.initial
          (fun | .fourKb => 1024 | .twoMb => 2048) 4096)
        [⟨0x1000, 7, .fourKb⟩] = some s ∧
      Hdc.initializeWalk Hdc.farHome s.table 0x1000 = some r ∧
      Hdc.Inside s r ∧ Hdc.Distinct s.table) ∧
    (∃ s, Run.run (Ht.Session.step Ht.oneBucket)
        (Ht.Session.initial (fun _ => 64) 4096)
        [⟨0x1000, 7, .fourKb⟩] = some s ∧
      Ht.Inside Ht.oneBucket s 0x1000 ∧ Ht.Distinct s.table) ∧
    ∃ t, Run.run
        (Cuckoo.update
          (Cuckoo.halfFull.withMemory (fun _ => 64) 4096) 4)
        (Cuckoo.construct (fun _ => 64))
        [⟨0x1000, 7, .fourKb⟩] = some t ∧
      Cuckoo.Inside
        (Cuckoo.halfFull.withMemory (fun _ => 64) 4096)
        (fun _ => 64) 4096 t 0x1000 := by
  have hHdc : ∃ s ∈ Run.run (Hdc.Session.step Hdc.farHome)
      (Hdc.Session.initial
        (fun | .fourKb => 1024 | .twoMb => 2048) 4096)
      [⟨0x1000, 7, .fourKb⟩],
      ∃ r ∈ Hdc.initializeWalk Hdc.farHome s.table 0x1000,
        ((∀ slot ∈ Hdc.probed Hdc.farHome s.table 0x1000 .fourKb,
          Hdc.FarEnough (s.start .fourKb) slot
            (Hdc.blockOffset (PageSize.fourKb.vpn 0x1000))) ∧
        ∀ slot ∈ Hdc.probed Hdc.farHome s.table 0x1000 .twoMb,
          Hdc.FarEnough (s.start .twoMb) slot
            (Hdc.blockOffset (PageSize.twoMb.vpn 0x1000))) ∧
        Hdc.Apart (s.start .fourKb / 4096)
          (s.table.tables .fourKb).size
          (s.start .twoMb / 4096) ∧
        Hdc.Apart (s.start .twoMb / 4096)
          (s.table.tables .twoMb).size
          (s.start .fourKb / 4096) := by
    decide +kernel
  have hHt : ∃ s ∈ Run.run (Ht.Session.step Ht.oneBucket)
      (Ht.Session.initial (fun _ => 64) 4096)
      [⟨0x1000, 7, .fourKb⟩],
      ((∀ i < (Ht.reads (PageSize.fourKb.vpn 0x1000 / 8)
          (Ht.chainOf Ht.oneBucket s.table 0x1000 .fourKb)).length,
        i = 0 ∧ Ht.Spanned (s.start .fourKb)
          (s.table.tables .fourKb).size
          (Ht.bucketOf Ht.oneBucket s.table 0x1000 .fourKb)
          (Ht.blockOffset (PageSize.fourKb.vpn 0x1000))) ∧
      ∀ i < (Ht.reads (PageSize.twoMb.vpn 0x1000 / 8)
          (Ht.chainOf Ht.oneBucket s.table 0x1000 .twoMb)).length,
        i = 0 ∧ Ht.Spanned (s.start .twoMb)
          (s.table.tables .twoMb).size
          (Ht.bucketOf Ht.oneBucket s.table 0x1000 .twoMb)
          (Ht.blockOffset (PageSize.twoMb.vpn 0x1000))) ∧
      ((∀ j < (s.table.tables .fourKb).size,
        ((s.table.tables .fourKb).buckets j).length = 1) ∧
      ∀ j < (s.table.tables .twoMb).size,
        ((s.table.tables .twoMb).buckets j).length = 1) ∧
      Ht.Apart (s.start .fourKb / 4096)
        (s.table.tables .fourKb).size
        (s.start .twoMb / 4096) ∧
      Ht.Apart (s.start .twoMb / 4096)
        (s.table.tables .twoMb).size
        (s.start .fourKb / 4096) := by
    decide +kernel
  have hCuckoo : ∃ t ∈ Run.run
      (Cuckoo.update
        (Cuckoo.halfFull.withMemory (fun _ => 64) 4096) 4)
      (Cuckoo.construct (fun _ => 64))
      [⟨0x1000, 7, .fourKb⟩],
      (∀ way < Cuckoo.halfFull.ways,
        (t.nests .fourKb).size = 64 ∧
          Cuckoo.Spanned
            (Cuckoo.tableStart Cuckoo.halfFull (fun _ => 64)
              4096 .fourKb way) 64
            (Cuckoo.position Cuckoo.halfFull
              (t.nests .fourKb)
              (PageSize.fourKb.vpn 0x1000 / 8) way)) ∧
      ∀ way < Cuckoo.halfFull.ways,
        (t.nests .twoMb).size = 64 ∧
          Cuckoo.Spanned
            (Cuckoo.tableStart Cuckoo.halfFull (fun _ => 64)
              4096 .twoMb way) 64
            (Cuckoo.position Cuckoo.halfFull
              (t.nests .twoMb)
              (PageSize.twoMb.vpn 0x1000 / 8) way) := by
    decide +kernel
  rcases hHdc with
    ⟨s₁, hRun₁, r, hWalk, hFar, hUp₁, hDown₁⟩
  rcases hHt with ⟨s₂, hRun₂, hReads, hRoots, hUp₂, hDown₂⟩
  rcases hCuckoo with ⟨t, hRun₃, hSpanned⟩
  have hFirst := (walkAddresses_reached
    (fun | .fourKb => 1024 | .twoMb => 2048) 4096).1
    Hdc.farHome [⟨0x1000, 7, .fourKb⟩] s₁
    (by decide) hRun₁
  have hSecond := (walkAddresses_reached (fun _ => 64) 4096).2.1
    Ht.oneBucket [⟨0x1000, 7, .fourKb⟩] s₂
    (by decide) hRun₂
  have hThird := (walkAddresses_reached (fun _ => 64) 4096).2.2
    Cuckoo.halfFull 4 [⟨0x1000, 7, .fourKb⟩] t (by decide)
    hRun₃
  refine ⟨⟨s₁, r, hRun₁, hWalk, ?_, ?_⟩,
    ⟨s₂, hRun₂, ?_, ?_⟩, t, hRun₃, ?_⟩
  · refine (hFirst.1 0x1000 r hWalk).mpr ?_
    rintro ⟨⟩
    exacts [hFar.1, hFar.2]
  · exact hFirst.2.mpr (fun
      | .fourKb, .fourKb => fun hNe => absurd rfl hNe
      | .fourKb, .twoMb => fun _ => hUp₁
      | .twoMb, .fourKb => fun _ => hDown₁
      | .twoMb, .twoMb => fun hNe => absurd rfl hNe)
  · refine (hSecond.1 0x1000).mpr ?_
    rintro ⟨⟩
    exacts [hReads.1, hReads.2]
  · exact hSecond.2
      (by rintro ⟨⟩; exacts [hRoots.1, hRoots.2])
      (fun
        | .fourKb, .fourKb => fun hNe => absurd rfl hNe
        | .fourKb, .twoMb => fun _ => hUp₂
        | .twoMb, .fourKb => fun _ => hDown₂
        | .twoMb, .twoMb => fun hNe => absurd rfl hNe)
  · refine (hThird.1 0x1000).mpr ?_
    rintro ⟨⟩ _
    exacts [hSpanned.1, hSpanned.2]

/-
  The first slot of a table at 4096 is reported at address 1,
  a chained entry at 4096 times its address, and a slot of a
  rehashed table in no memory for the new size.
-/
theorem not_inside_firstSlot :
    (∃ s r, Run.run (Hdc.Session.step Hdc.oneSlot)
        (Hdc.Session.initial (fun _ => 1) 4096) [] = some s ∧
      Hdc.initializeWalk Hdc.oneSlot s.table 0 = some r ∧
      ¬ Hdc.Inside s r) ∧
    (∃ s, Run.run (Ht.Session.step Ht.oneBucket)
        (Ht.Session.initial (fun _ => 1) 4096)
        [⟨0x1000, 7, .fourKb⟩, ⟨0x8000, 8, .fourKb⟩] = some s ∧
      ¬ Ht.Inside Ht.oneBucket s 0x8000) ∧
    ∃ t, Run.run
        (Cuckoo.update
          (Cuckoo.halfFull.withMemory (fun _ => 2) 4096) 4)
        (Cuckoo.construct (fun _ => 2))
        [⟨0, 10, .fourKb⟩, ⟨0x8000, 11, .fourKb⟩,
          ⟨0x10000, 12, .fourKb⟩] = some t ∧
      ¬ Cuckoo.Inside
        (Cuckoo.halfFull.withMemory (fun _ => 2) 4096)
        (fun _ => 2) 4096 t 0x10000 := by
  have hHdc : ∃ s ∈ Run.run (Hdc.Session.step Hdc.oneSlot)
      (Hdc.Session.initial (fun _ => 1) 4096) [],
      ∃ r ∈ Hdc.initializeWalk Hdc.oneSlot s.table 0,
        ∃ access ∈ r.accesses,
          access.tableLevel = Hdc.pageSizeIndex .fourKb ∧
            ¬ (s.memory .fourKb).Contains access.physicalAddr := by
    decide +kernel
  have hHt : ∃ s ∈ Run.run (Ht.Session.step Ht.oneBucket)
      (Ht.Session.initial (fun _ => 1) 4096)
      [⟨0x1000, 7, .fourKb⟩, ⟨0x8000, 8, .fourKb⟩],
      ∃ access ∈ (Ht.initializeWalk Ht.oneBucket s.table
          0x8000).accesses,
        access.tableLevel = Ht.pageSizeIndex .fourKb ∧
          ¬ (s.memory .fourKb
            (Ht.chainOf Ht.oneBucket s.table 0x8000 .fourKb)
            access.depth).Contains access.physicalAddr := by
    decide +kernel
  have hCuckoo : ∃ t ∈ Run.run
      (Cuckoo.update
        (Cuckoo.halfFull.withMemory (fun _ => 2) 4096) 4)
      (Cuckoo.construct (fun _ => 2))
      [⟨0, 10, .fourKb⟩, ⟨0x8000, 11, .fourKb⟩,
        ⟨0x10000, 12, .fourKb⟩],
      (Cuckoo.probe
          (Cuckoo.halfFull.withMemory (fun _ => 2) 4096) t
          0x10000 .fourKb 0).1 ∈
        (Cuckoo.initializeWalk
          (Cuckoo.halfFull.withMemory (fun _ => 2) 4096) t
            0x10000).accesses ∧
      ¬ (Cuckoo.memory
          (Cuckoo.halfFull.withMemory (fun _ => 2) 4096)
          (fun _ => 2) 4096 t .fourKb 0).Contains
        (Cuckoo.probe
          (Cuckoo.halfFull.withMemory (fun _ => 2) 4096) t
            0x10000 .fourKb 0).1.physicalAddr := by
    decide +kernel
  rcases hHdc with
    ⟨s₁, hRun₁, r, hWalk, access₁, hMem₁, hLevel₁, hOut₁⟩
  rcases hHt with
    ⟨s₂, hRun₂, access₂, hMem₂, hLevel₂, hOut₂⟩
  rcases hCuckoo with ⟨t, hRun₃, hMem₃, hOut₃⟩
  refine ⟨⟨s₁, r, hRun₁, hWalk, ?_⟩, ⟨s₂, hRun₂, ?_⟩, t, hRun₃, ?_⟩
  · intro hInside
    exact hOut₁ (hInside access₁ hMem₁ .fourKb hLevel₁)
  · intro hInside
    exact hOut₂ (hInside access₂ hMem₂ .fourKb hLevel₂)
  · intro hInside
    exact hOut₃ (hInside .fourKb 0 (by decide) hMem₃)

end Virtuoso
