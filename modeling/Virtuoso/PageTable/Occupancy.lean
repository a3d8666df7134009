import Virtuoso.PageTable.Cuckoo.Occupancy
import Virtuoso.PageTable.Ht.Occupancy

/-
  The occupancy counters of the hash page tables, which decide
  when a table grows: `numItems` of the cuckoo table and
  `m_entry_count` of the chained one.

  Main declarations:
    * `HashTables.counters_run_iff`
-/

namespace Virtuoso

namespace HashTables

/-
  In every run that completes, the counters of a table equal
  its occupied slots in every state just when every call is
  counted.
-/
theorem counters_run_iff
    (cuckoo : Cuckoo.Config)
    (ht : Ht.Config)
    (fuel kernelStartAddress : Nat)
    (sizes : PageSize → Nat)
    (hSizes : ∀ pageSize, 0 < sizes pageSize)
    (ops : List PageMap.Op) :
    (∀ t, Run.run (Cuckoo.operate cuckoo fuel)
        (Cuckoo.construct sizes) ops = some t →
      ((∀ front, front <+: ops → ∀ t',
          Run.run (Cuckoo.operate cuckoo fuel)
              (Cuckoo.construct sizes) front = some t' →
            ∀ pageSize, (t'.nests pageSize).numItems =
              Cuckoo.occupied cuckoo (t'.nests pageSize)) ↔
        Run.Along (Cuckoo.operate cuckoo fuel)
          (Cuckoo.CountedBy cuckoo) (Cuckoo.construct sizes)
          ops)) ∧
      ((∀ front, front <+: ops → ∀ t',
          Run.run (Ht.step ht)
              (Ht.construct sizes kernelStartAddress) front =
                some t' →
            ∀ pageSize, (t'.tables pageSize).entryCount =
              Ht.occupiedRoots (t'.tables pageSize)) ↔
        Run.Along (Ht.step ht) (Ht.CountedBy ht)
          (Ht.construct sizes kernelStartAddress) ops) := by
  refine ⟨fun t hRun => ?_, ?_⟩
  · exact (Cuckoo.along_counted_iff fuel hSizes hRun).symm
  · exact (Ht.along_counted_iff ht hSizes kernelStartAddress
      ops).symm

/- A resize when all roots are occupied. -/
def fullRoots : Ht.Config where
  cityHash64 := fun key => key
  crossed := fun count size => decide (size ≤ count)
  resizeFactor := 2
  two_le_resizeFactor := by decide

/- Two blocks, and a deletion that leaves one page of a block. -/
def countedOps : List PageMap.Op :=
  [.update 0x1000 10 .fourKb, .update 0x2000 11 .fourKb,
    .update 0x8000 12 .fourKb, .delete 0x1000]

theorem counters_run_counted :
    (∀ t, Run.run (Cuckoo.operate Cuckoo.halfFull 4)
        (Cuckoo.construct (fun _ => 4)) countedOps = some t →
      ∀ front, front <+: countedOps → ∀ t',
        Run.run (Cuckoo.operate Cuckoo.halfFull 4)
            (Cuckoo.construct (fun _ => 4)) front = some t' →
          ∀ pageSize, (t'.nests pageSize).numItems =
            Cuckoo.occupied Cuckoo.halfFull (t'.nests pageSize)) ∧
      ∀ front, front <+: countedOps → ∀ t',
        Run.run (Ht.step fullRoots)
            (Ht.construct (fun _ => 2) 0) front = some t' →
          ∀ pageSize, (t'.tables pageSize).entryCount =
            Ht.occupiedRoots (t'.tables pageSize) := by
  constructor
  · intro t hRun
    exact ((counters_run_iff Cuckoo.halfFull fullRoots 4 0
      (fun _ => 4) (by simp) countedOps).1 t hRun).mpr
        (by decide +kernel)
  · exact (counters_run_iff Cuckoo.halfFull fullRoots 4 0
      (fun _ => 2) (by simp) countedOps).2.mpr (by decide +kernel)

/- The only page of each table is mapped and deleted. -/
theorem counters_run_deleted :
    (∃ t ∈ Run.run (Cuckoo.operate Cuckoo.halfFull 4)
        (Cuckoo.construct (fun _ => 4))
        [.update 0x1000 10 .fourKb, .delete 0x1000],
      (t.nests .fourKb).numItems = 1 ∧
        Cuckoo.occupied Cuckoo.halfFull (t.nests .fourKb) = 0) ∧
      ∃ t ∈ Run.run (Ht.step fullRoots)
          (Ht.construct (fun _ => 2) 0)
          [.update 0x1000 10 .fourKb, .delete 0x1000],
        (t.tables .fourKb).entryCount = 1 ∧
          Ht.occupiedRoots (t.tables .fourKb) = 0 := by
  decide +kernel

end HashTables

end Virtuoso
