import Virtuoso.Lib.Run
import Virtuoso.RangeTable.Search

/-
  Runs of insertions into the range table. After every run of
  insertions of ranges that do not overlap, a lookup is right
  exactly when the way of its search is clear.

  Main declarations:
    * `RangeTable.TableOk`
    * `RangeTable.right_run_iff`
-/

namespace Virtuoso

namespace RangeTable

variable {t : Nat} {inserted : List Slot} {s : Slot}

/- A tree in good shape that holds the inserted ranges. -/
structure TreeOk
    (t : Nat)
    (inserted : List Slot)
    (h : Nat)
    (node : TreeNode h) : Prop where
  good : Good t inserted h node
  sorted : (toList h node).Pairwise Before
  content : ∀ s, s ∈ toList h node ↔ s ∈ inserted

/- The tree of the table holds what was inserted. -/
def TableOk
    (t : Nat)
    (inserted : List Slot)
    (table : RangeTableBtree) : Prop :=
  (∀ s ∈ inserted, s.Proper) ∧
    match table.root with
    | none => inserted = []
    | some ⟨h, root⟩ => TreeOk t inserted h root

/- An insertion adds the range to the tree. -/
theorem TreeOk.insert
    {h : Nat}
    {node node' : TreeNode h}
    (hOk : TreeOk t inserted h node)
    (hInserts : InsertsInto t inserted s h node node') :
    TreeOk t (s :: inserted) h node' := by
  refine ⟨hInserts.1, hInserts.2.pairwise hOk.sorted, ?_⟩
  intro x
  rw [hInserts.2.mem, hOk.content, List.mem_cons]

theorem insertNonFull_treeOk
    (hDegree : 2 ≤ t)
    (hProper : ∀ x ∈ inserted, x.Proper)
    (hFresh : Fresh inserted s)
    {h : Nat}
    {node : TreeNode h}
    (hOk : TreeOk t inserted h node)
    (hRoom : node.keys.entries.length ≠ 2 * t - 1)
    (kernel : Nat) :
    ∃ node' kernel', insertNonFull t s h node kernel =
        some (node', kernel') ∧
      TreeOk t (s :: inserted) h node' := by
  rcases insertNonFull_spec hDegree hProper hFresh h node
      kernel hOk.good hRoom hOk.sorted
      (fun x hMem => (hOk.content x).mp hMem) with
    ⟨node', kernel', hInsert, hInserts⟩
  exact ⟨node', kernel', hInsert, hOk.insert hInserts⟩

/- The new parent of a root that is full. -/
theorem treeOk_parent
    {h : Nat}
    {root : TreeNode h}
    (hOk : TreeOk t inserted h root)
    (emulatedPpn : Nat) :
    TreeOk t inserted (h + 1) (newKeys t emulatedPpn, [root]) := by
  have hList : toList (h + 1) (newKeys t emulatedPpn, [root]) =
      toList h root := by
    simp [toList, newKeys, Weave.weave]
  refine ⟨⟨⟨?_, ?_⟩, rfl, ?_⟩, ?_, ?_⟩
  · simp [newKeys]
  · intro x hMem
    exact Or.inl (List.eq_of_mem_replicate hMem)
  · intro child hMem
    rw [List.mem_singleton] at hMem
    rw [hMem]
    exact hOk.good
  · rw [hList]
    exact hOk.sorted
  · rw [hList]
    exact hOk.content

/- Every insertion of a new range succeeds. -/
theorem insert_spec
    (hDegree : 2 ≤ t)
    {table : RangeTableBtree}
    (hOk : TableOk t inserted table)
    (hFresh : Fresh inserted s) :
    ∃ table', insert t table s = some table' ∧
      TableOk t (s :: inserted) table' := by
  rcases hOk with ⟨hProper, hTree⟩
  have hProper' : ∀ x ∈ s :: inserted, x.Proper := by
    intro x hMem
    rcases List.mem_cons.mp hMem with hEq | hOld
    · exact hEq ▸ hFresh.proper
    · exact hProper x hOld
  rcases table with ⟨root, kernel⟩
  cases root with
  | none =>
      simp only at hTree
      subst hTree
      have hReplicate :
          List.replicate (2 * t - 1) Slot.unused =
            Slot.unused ::
              List.replicate (2 * t - 2) Slot.unused := by
        rw [show 2 * t - 1 = 2 * t - 2 + 1 by omega,
          List.replicate_succ]
      refine ⟨⟨some ⟨0, ⟨[s], List.replicate (2 * t - 2)
        Slot.unused, kernel / 4096⟩⟩, kernel + 4096⟩, ?_,
        hProper', ?_⟩
      · simp [insert, newKeys, Keys.insertAt, hReplicate,
          handlePageTableAllocations]
      · refine ⟨⟨?_, ?_⟩, ?_, ?_⟩
        · simp only [List.length_cons, List.length_nil,
            List.length_replicate]
          omega
        · intro x hMem
          exact Or.inl (List.eq_of_mem_replicate hMem)
        · simp [toList]
        · simp [toList]
  | some tree =>
      rcases tree with ⟨h, root⟩
      simp only at hTree
      by_cases hFull : root.keys.entries.length = 2 * t - 1
      · rw [insert_full hFull]
        have hParent := treeOk_parent hTree
          (handlePageTableAllocations kernel 4096).1
        rcases insertNonFull_treeOk hDegree hProper hFresh
            hParent (by simp [TreeNode.keys, newKeys]; omega)
            (handlePageTableAllocations kernel 4096).2 with
          ⟨node', kernel', hInsert, hOk'⟩
        rw [hInsert]
        exact ⟨_, rfl, hProper', hOk'⟩
      · rcases insertNonFull_treeOk hDegree hProper hFresh
            hTree hFull kernel with
          ⟨node', kernel', hInsert, hOk'⟩
        refine ⟨⟨some ⟨h, node'⟩, kernel'⟩, ?_, hProper', hOk'⟩
        simp [insert, hFull, hInsert]

/- Ranges that do not overlap come as new ranges. -/
theorem permitted_of_apart
    {slots : List Slot}
    (hApart : Apart slots)
    (hFresh : ∀ x ∈ slots, Fresh inserted x) :
    Run.Permitted (fun m x => x :: m) Fresh inserted slots := by
  induction slots generalizing inserted with
  | nil => trivial
  | cons x rest ih =>
      have hPairwise := List.pairwise_cons.mp hApart.pairwise
      refine ⟨hFresh x (by simp), ih ⟨fun y hMem =>
        hApart.proper y (by simp [hMem]), hPairwise.2⟩ ?_⟩
      intro y hMem
      have hOld := hFresh y (by simp [hMem])
      refine ⟨hOld.proper, ?_⟩
      intro z hZ
      rcases List.mem_cons.mp hZ with hEq | hZ
      · rw [hEq]
        exact hPairwise.1 y hMem
      · exact hOld.apart z hZ

/- The condition on a lookup in a table. -/
def ClearTable
    (inserted : List Slot)
    (a : Nat)
    (table : RangeTableBtree) : Prop :=
  match table.root with
  | none => True
  | some ⟨h, root⟩ => Clear inserted a h root

instance
    (inserted : List Slot)
    (a : Nat) :
    ∀ table, Decidable (ClearTable inserted a table)
| ⟨none, _⟩ => isTrue trivial
| ⟨some ⟨h, root⟩, _⟩ => decidableClear inserted a h root

/-
  After every run of insertions of ranges that do not
  overlap, the lookup of each address is right exactly when
  its way is clear.
-/
theorem right_run_iff
    (t : Nat)
    (hDegree : 2 ≤ t)
    (kernel : Nat)
    (slots : List Slot)
    (hApart : Apart slots) :
    ∃ table, Run.run (insert t) (construct kernel) slots =
        some table ∧
      ∀ a, Right slots a (lookup table a) ↔
        ClearTable slots a table := by
  have hPermitted : Run.Permitted (fun m x => x :: m) Fresh []
      slots :=
    permitted_of_apart hApart
      (fun x hMem => ⟨hApart.proper x hMem, by simp⟩)
  have hStep : ∀ m table x, TableOk t m table → Fresh m x →
      ∃ table', insert t table x = some table' ∧
        TableOk t (x :: m) table' :=
    fun _ _ _ hOk hFresh => insert_spec hDegree hOk hFresh
  rcases Run.run_simulates hStep
      (show TableOk t [] (construct kernel) from
        ⟨by simp, rfl⟩) hPermitted with
    ⟨table, hRun, hOk⟩
  refine ⟨table, hRun, ?_⟩
  intro a
  have hMem : ∀ x, x ∈ slots.foldl (fun m x => x :: m) [] ↔
      x ∈ slots := by
    intro x
    rw [List.foldl_flip_cons_eq_append, List.append_nil,
      List.map_id', List.mem_reverse]
  rcases table with ⟨root, kernel'⟩
  rcases hOk with ⟨-, hTree⟩
  cases root with
  | none =>
      have hNone : slots = [] := by
        apply List.eq_nil_iff_forall_not_mem.mpr
        intro x hX
        have hIn := (hMem x).mpr hX
        rw [show slots.foldl (fun m x => x :: m) [] = [] from
          hTree] at hIn
        cases hIn
      refine iff_of_true ⟨?_, fun _ => ⟨[], rfl⟩⟩ trivial
      intro x hX
      rw [hNone] at hX
      cases hX
  | some tree =>
      rcases tree with ⟨h, root⟩
      have hOk : TreeOk t _ h root := hTree
      exact right_iff_clear hApart
        (hOk.good.mono (fun x hX => (hMem x).mp hX))
        hOk.sorted (fun x => (hOk.content x).trans (hMem x)) a

/- Adjacent ranges, at an address inside of one. -/
theorem right_run_inside :
    ∃ table, Run.run (insert 2) (construct 0)
        [⟨(30, 40), ⟨3⟩⟩, ⟨(0, 10), ⟨0⟩⟩, ⟨(10, 20), ⟨1⟩⟩,
          ⟨(20, 30), ⟨2⟩⟩] = some table ∧
      Right [⟨(30, 40), ⟨3⟩⟩, ⟨(0, 10), ⟨0⟩⟩,
        ⟨(10, 20), ⟨1⟩⟩, ⟨(20, 30), ⟨2⟩⟩] 25
        (lookup table 25) := by
  rcases right_run_iff 2 (by decide) 0
      [⟨(30, 40), ⟨3⟩⟩, ⟨(0, 10), ⟨0⟩⟩, ⟨(10, 20), ⟨1⟩⟩,
        ⟨(20, 30), ⟨2⟩⟩]
      ⟨by decide, by decide⟩ with ⟨table, hRun, hRight⟩
  refine ⟨table, hRun, (hRight 25).mpr ?_⟩
  have hTable : ∃ table ∈ Run.run (insert 2) (construct 0)
      [⟨(30, 40), ⟨3⟩⟩, ⟨(0, 10), ⟨0⟩⟩, ⟨(10, 20), ⟨1⟩⟩,
        ⟨(20, 30), ⟨2⟩⟩],
      ClearTable [⟨(30, 40), ⟨3⟩⟩, ⟨(0, 10), ⟨0⟩⟩,
        ⟨(10, 20), ⟨1⟩⟩, ⟨(20, 30), ⟨2⟩⟩] 25 table := by
    decide +kernel
  rcases hTable with ⟨table', hRun', hClear⟩
  rw [hRun, Option.mem_def, Option.some.injEq] at hRun'
  rw [hRun']
  exact hClear

/- The start of the second of two adjacent ranges. -/
theorem right_run_adjacent :
    ∃ table, Run.run (insert 2) (construct 0)
        [⟨(0, 10), ⟨0⟩⟩, ⟨(10, 20), ⟨1⟩⟩] = some table ∧
      ¬ Right [⟨(0, 10), ⟨0⟩⟩, ⟨(10, 20), ⟨1⟩⟩] 10
        (lookup table 10) := by
  refine ⟨_, rfl, ?_⟩
  intro hRight
  exact not_finds_null
    (hRight.1 ⟨(10, 20), ⟨1⟩⟩ (by simp) (by decide))

end RangeTable

end Virtuoso
