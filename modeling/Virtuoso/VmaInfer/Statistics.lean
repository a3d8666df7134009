import Mathlib.Order.Bounds.Basic
import Virtuoso.Lib.Blocks
import Virtuoso.VmaInfer.Basic

/-
  What the first pass of the inference collects.

  The statistics of a page describe the accesses to it, and
  the totals of a group describe those to its pages. What is
  described does not depend on the order of the accesses.

  Main declarations:
    * `exists_buildPageStats`
    * `Totals.describes_add`
-/

namespace Virtuoso.VmaInfer

/- The record indices of accesses. -/
def indices (accs : List MemAccess) : Set Int :=
  {i | ∃ acc ∈ accs, acc.recIdx = i}

/- The reads among the accesses. -/
def readCount (accs : List MemAccess) : Nat :=
  accs.countP (fun acc => !acc.isWrite)

/- The writes among the accesses. -/
def writeCount (accs : List MemAccess) : Nat :=
  accs.countP (fun acc => acc.isWrite)

/- The counts and the ends are those of the accesses. -/
structure PageStats.Describes
    (ps : PageStats)
    (accs : List MemAccess) : Prop where
  reads : ps.reads = readCount accs
  writes : ps.writes = writeCount accs
  first : IsLeast (indices accs) ps.firstIdx
  last : IsGreatest (indices accs) ps.lastIdx

variable {accs accs' : List MemAccess}

theorem indices_perm
    (hPerm : accs.Perm accs') :
    indices accs = indices accs' := by
  ext i
  simp [indices, hPerm.mem_iff]

theorem indices_append
    (accs accs' : List MemAccess) :
    indices (accs ++ accs') = indices accs ∪ indices accs' := by
  ext i
  simp [indices, or_and_right, exists_or]

theorem indices_singleton
    (acc : MemAccess) :
    indices [acc] = {acc.recIdx} := by
  ext i
  simp [indices, eq_comm]

/- Accesses have one description, in any order. -/
theorem PageStats.Describes.unique
    {ps ps' : PageStats}
    (hPerm : accs.Perm accs')
    (hDescribes : ps.Describes accs)
    (hDescribes' : ps'.Describes accs') :
    ps = ps' := by
  have hIndices := indices_perm hPerm
  have hReads : ps.reads = ps'.reads := by
    rw [hDescribes.reads, hDescribes'.reads, readCount,
      readCount, hPerm.countP_eq]
  have hWrites : ps.writes = ps'.writes := by
    rw [hDescribes.writes, hDescribes'.writes, writeCount,
      writeCount, hPerm.countP_eq]
  have hFirst : ps.firstIdx = ps'.firstIdx :=
    hDescribes.first.unique (hIndices ▸ hDescribes'.first)
  have hLast : ps.lastIdx = ps'.lastIdx :=
    hDescribes.last.unique (hIndices ▸ hDescribes'.last)
  cases ps
  cases ps'
  simp_all

variable {accs : List MemAccess}

/- A page gets one access more. -/
theorem PageStats.describes_touch
    {ps : PageStats}
    (acc : MemAccess)
    (hDescribes : ps.Describes accs) :
    (ps.touch acc).Describes (accs ++ [acc]) where
  reads := by
    rw [touch, readCount, List.countP_append,
      hDescribes.reads, readCount]
    cases hWrite : acc.isWrite <;> simp [hWrite]
  writes := by
    rw [touch, writeCount, List.countP_append,
      hDescribes.writes, writeCount]
    cases hWrite : acc.isWrite <;> simp [hWrite]
  first := by
    rw [indices_append, indices_singleton]
    have hMin : (ps.touch acc).firstIdx =
        min ps.firstIdx acc.recIdx := by
      dsimp only [touch]
      split_ifs <;> omega
    rw [hMin]
    exact hDescribes.first.union isLeast_singleton
  last := by
    rw [indices_append, indices_singleton]
    have hMax : (ps.touch acc).lastIdx =
        max ps.lastIdx acc.recIdx := by
      dsimp only [touch]
      split_ifs <;> omega
    rw [hMax]
    exact hDescribes.last.union isGreatest_singleton

/- The first access to a page. -/
theorem PageStats.describes_first
    (acc : MemAccess) :
    (PageStats.touch
      { firstIdx := acc.recIdx, lastIdx := acc.recIdx }
      acc).Describes [acc] where
  reads := by
    rw [touch, readCount]
    cases hWrite : acc.isWrite <;> simp [hWrite]
  writes := by
    rw [touch, writeCount]
    cases hWrite : acc.isWrite <;> simp [hWrite]
  first := by
    rw [indices_singleton]
    simp [touch]
  last := by
    rw [indices_singleton]
    simp [touch]

/- The accesses to one page. -/
def accessesTo
    (pageSize : Int)
    (accs : List MemAccess)
    (vpn : Int) : List MemAccess :=
  accs.filter (fun acc => decide (acc.vpn pageSize = vpn))

/- Every touched page is described, and no other is there. -/
structure Records
    (pageSize : Int)
    (accs : List MemAccess)
    (stats : Stats) : Prop where
  nodup : (stats.map Prod.fst).Nodup
  absent : ∀ vpn, stats.lookup vpn = none →
    accessesTo pageSize accs vpn = []
  present : ∀ vpn ps, stats.lookup vpn = some ps →
    ps.Describes (accessesTo pageSize accs vpn)

theorem accessesTo_append
    (pageSize : Int)
    (accs : List MemAccess)
    (acc : MemAccess)
    (vpn : Int) :
    accessesTo pageSize (accs ++ [acc]) vpn =
      if acc.vpn pageSize = vpn then
        accessesTo pageSize accs vpn ++ [acc]
      else accessesTo pageSize accs vpn := by
  rw [accessesTo, List.filter_append]
  by_cases hEq : acc.vpn pageSize = vpn <;>
    simp [hEq, accessesTo]

theorem records_recordAccess
    {pageSize : Int}
    {stats : Stats}
    (acc : MemAccess)
    (hPage : pageSize ≠ 0)
    (hRecords : Records pageSize accs stats) :
    ∃ stats', recordAccess pageSize stats acc = some stats' ∧
      Records pageSize (accs ++ [acc]) stats' := by
  refine ⟨_, if_neg hPage, ?_⟩
  constructor
  · exact Assoc.nodup_keys_insert hRecords.nodup _ _
  · intro vpn hNone
    rw [Assoc.lookup_insert] at hNone
    split_ifs at hNone with hEq
    rw [accessesTo_append, if_neg (fun h => hEq h.symm)]
    exact hRecords.absent vpn hNone
  · intro vpn ps hSome
    rw [Assoc.lookup_insert] at hSome
    rw [accessesTo_append]
    split_ifs at hSome with hEq
    · rw [if_pos hEq.symm, ← Option.some.inj hSome, hEq]
      cases hOld : stats.lookup (acc.vpn pageSize) with
      | none =>
          rw [hRecords.absent _ hOld]
          exact PageStats.describes_first acc
      | some old =>
          exact PageStats.describes_touch acc
            (hRecords.present _ old hOld)
    · rw [if_neg (fun h => hEq h.symm)]
      exact hRecords.present vpn ps hSome

/- The first pass succeeds and describes the accesses. -/
theorem exists_buildPageStats
    {pageSize : Int}
    (accesses : List MemAccess)
    (hPage : pageSize ≠ 0) :
    ∃ stats,
      buildPageStatsFromTrace accesses pageSize = some stats ∧
        Records pageSize accesses stats :=
  Traverse.exists_foldlM (Records pageSize) accesses []
    { nodup := List.nodup_nil
      absent := fun _ _ => rfl
      present := fun _ _ hSome => by cases hSome }
    (fun _ _ acc _ => records_recordAccess acc hPage)

theorem Records.mem_keys_iff
    {pageSize : Int}
    {stats : Stats}
    (hRecords : Records pageSize accs stats)
    (vpn : Int) :
    vpn ∈ stats.map Prod.fst ↔
      ∃ acc ∈ accs, acc.vpn pageSize = vpn := by
  rw [← not_iff_not, ← Assoc.lookup_eq_none_iff]
  constructor
  · intro hNone
    rintro ⟨acc, hMem, hEq⟩
    have hEmpty := hRecords.absent vpn hNone
    rw [accessesTo, List.filter_eq_nil_iff] at hEmpty
    exact hEmpty acc hMem (decide_eq_true hEq)
  · intro hNot
    cases hLookup : stats.lookup vpn with
    | none => rfl
    | some ps =>
        rcases (hRecords.present vpn ps hLookup).first.1 with
          ⟨acc, hMem, -⟩
        rw [accessesTo, List.mem_filter, decide_eq_true_eq] at hMem
        exact absurd ⟨acc, hMem⟩ hNot

/- Permuted accesses have the same statistics. -/
theorem Records.lookup_eq
    {pageSize : Int}
    {stats stats' : Stats}
    (hPerm : accs.Perm accs')
    (hRecords : Records pageSize accs stats)
    (hRecords' : Records pageSize accs' stats')
    (vpn : Int) :
    stats.lookup vpn = stats'.lookup vpn := by
  have hAccesses : (accessesTo pageSize accs vpn).Perm
      (accessesTo pageSize accs' vpn) := hPerm.filter _
  cases hLookup : stats.lookup vpn with
  | none =>
      cases hLookup' : stats'.lookup vpn with
      | none => rfl
      | some ps =>
          have hDescribes := hRecords'.present vpn ps hLookup'
          rw [hRecords.absent vpn hLookup,
            List.nil_perm] at hAccesses
          rw [hAccesses] at hDescribes
          rcases hDescribes.first.1 with ⟨acc, hMem, -⟩
          cases hMem
  | some ps =>
      have hDescribes := hRecords.present vpn ps hLookup
      cases hLookup' : stats'.lookup vpn with
      | none =>
          rw [hRecords'.absent vpn hLookup',
            List.perm_nil] at hAccesses
          rw [hAccesses] at hDescribes
          rcases hDescribes.first.1 with ⟨acc, hMem, -⟩
          cases hMem
      | some ps' =>
          rw [hDescribes.unique hAccesses
            (hRecords'.present vpn ps' hLookup')]

/- No accesses start with no first and zero as the last. -/
structure Totals.Describes
    (t : Totals)
    (accs : List MemAccess) : Prop where
  reads : t.reads = readCount accs
  writes : t.writes = writeCount accs
  first : ∀ i, t.firstT = some i → IsLeast (indices accs) i
  none : t.firstT = none → accs = [] ∧ t.lastT = 0
  last : accs ≠ [] → IsGreatest (indices accs) t.lastT

theorem Totals.describes_default :
    Totals.Describes {} [] where
  reads := rfl
  writes := rfl
  first := fun _ hSome => by cases hSome
  none := fun _ => ⟨rfl, rfl⟩
  last := fun hNe => absurd rfl hNe

/- The pages of a group are added one by one. -/
theorem Totals.describes_add
    {t : Totals}
    {ps : PageStats}
    (hNonneg : 0 ≤ ps.lastIdx)
    (hTotals : t.Describes accs)
    (hPage : ps.Describes accs') :
    (t.add ps).Describes (accs ++ accs') where
  reads := by
    rw [add, readCount, List.countP_append, hTotals.reads,
      hPage.reads, readCount, readCount]
  writes := by
    rw [add, writeCount, List.countP_append, hTotals.writes,
      hPage.writes, writeCount, writeCount]
  first := by
    intro i hSome
    rw [indices_append]
    cases hFirst : t.firstT with
    | none =>
        rw [add, hFirst] at hSome
        rw [(hTotals.none hFirst).1]
        simpa [indices, ← Option.some.inj hSome] using hPage.first
    | some first =>
        have hMin : i = min first ps.firstIdx := by
          rw [add, hFirst] at hSome
          dsimp only at hSome
          split_ifs at hSome <;> simp at hSome <;> omega
        rw [hMin]
        exact (hTotals.first first hFirst).union hPage.first
  none := by
    intro hNone
    rw [add] at hNone
    cases hFirst : t.firstT with
    | none => simp [hFirst] at hNone
    | some first =>
        rw [hFirst] at hNone
        dsimp only at hNone
        split_ifs at hNone
  last := by
    intro _
    rw [indices_append]
    have hMax : (t.add ps).lastT = max t.lastT ps.lastIdx := by
      dsimp only [add]
      split_ifs <;> omega
    rw [hMax]
    by_cases hEmpty : accs = []
    · have hZero : t.lastT = 0 := by
        cases hFirst : t.firstT with
        | none => exact (hTotals.none hFirst).2
        | some first =>
            rcases (hTotals.first first hFirst).1 with
              ⟨acc, hMem, -⟩
            rw [hEmpty] at hMem
            cases hMem
      rw [hEmpty, hZero, max_eq_right hNonneg]
      simpa [indices] using hPage.last
    · exact (hTotals.last hEmpty).union hPage.last

end Virtuoso.VmaInfer
