import Virtuoso.Lib.Run
import Virtuoso.RangeTable.Insertion

/-
  The structure of the range table under every sequence of
  insertions. Nodes stay filled between the bounds of the
  degree, and all leaves stay on one level.

  Main declarations:
    * `RangeTable.Shape`
    * `RangeTable.structured_run`
-/

namespace Virtuoso

namespace RangeTable

/- The number of keys of a node and the size of its arrays. -/
structure Fill (t least : Nat) (keys : Keys) : Prop where
  least : least ≤ keys.entries.length
  most : keys.entries.length ≤ 2 * t - 1
  arrays : keys.entries.length + keys.beyond.length = 2 * t - 1

/-
  The number of keys and of children of a node and of all
  nodes below it. Only the node itself may have fewer than
  `t - 1` keys.
-/
def Shape (t least h : Nat) (node : TreeNode h) : Prop :=
  Tree t (fun least _ keys => Fill t least keys) least h node

/- The depth of each leaf below a node. -/
def leafDepths :
    (h : Nat) → TreeNode h → List Nat
| 0, _ => [0]
| h + 1, (_, children) =>
    (children.flatMap (leafDepths h)).map (· + 1)

variable {h : Nat}

theorem leafDepths_eq
    (node : TreeNode h) :
    ∀ d ∈ leafDepths h node, d = h := by
  induction h with
  | zero =>
      intro d hMem
      exact List.mem_singleton.mp hMem
  | succ h ih =>
      rcases node with ⟨keys, children⟩
      intro d hMem
      rcases List.mem_map.mp hMem with ⟨d', hBelow, hEq⟩
      rcases List.mem_flatMap.mp hBelow with
        ⟨child, -, hChild⟩
      rw [← hEq, ih child d' hChild]

section Nodes

variable {t least : Nat}

/- The bound on the node itself is that on its keys. -/
theorem Shape.raise
    {node : TreeNode h}
    {least' : Nat}
    (hShape : Shape t least h node)
    (hLeast : least' ≤ node.keys.entries.length) :
    Shape t least' h node := by
  have hFill := Tree.keys hShape
  cases h with
  | zero => exact ⟨hLeast, hFill.most, hFill.arrays⟩
  | succ h =>
      exact ⟨⟨hLeast, hFill.most, hFill.arrays⟩, hShape.2⟩

/- Both halves of a full array. -/
theorem fill_halves
    {keys : Keys}
    {lower upper : List Slot}
    {median : Slot}
    (hDegree : 2 ≤ t)
    (hFill : Fill t least keys)
    (hEntries : keys.entries = lower ++ median :: upper)
    (hLower : lower.length = t - 1)
    (hUpper : upper.length = t - 1)
    (emulatedPpn : Nat) :
    Fill t (t - 1)
        ⟨lower, median :: upper ++ keys.beyond, keys.emulatedPpn⟩ ∧
      Fill t (t - 1)
        ⟨upper, List.replicate t Slot.unused, emulatedPpn⟩ := by
  have hArrays := hFill.arrays
  rw [hEntries, List.length_append, List.length_cons] at hArrays
  refine ⟨⟨?_, ?_, ?_⟩, ⟨?_, ?_, ?_⟩⟩
  · exact hLower.ge
  · change lower.length ≤ _
    omega
  · change lower.length +
      (median :: upper ++ keys.beyond).length = _
    rw [List.length_append, List.length_cons]
    omega
  · exact hUpper.ge
  · change upper.length ≤ _
    omega
  · change upper.length + (List.replicate t _).length = _
    rw [List.length_replicate]
    omega

theorem carries_fill
    (hDegree : 2 ≤ t)
    (s : Slot) :
    Carries t s (fun least _ keys => Fill t least keys)
      (fun least _ keys => Fill t least keys) where
  arrays := Fill.arrays
  old := id
  halves := fun hFill hEntries hLower hUpper _ emulatedPpn =>
    fill_halves hDegree hFill hEntries hLower hUpper emulatedPpn
  node := fun hFill _ hGrown hArrays _ =>
    ⟨hFill.least.trans hGrown, by omega, hArrays⟩

end Nodes

/- A tree with the given keys, in some order of insertion. -/
structure Holds
    (t : Nat)
    (inserted : List Slot)
    (h : Nat)
    (root : TreeNode h) : Prop where
  shape : Shape t 0 h root
  sorted : (toList h root).Pairwise Le
  content : (toList h root).Perm inserted

/- The tree of the table holds what was inserted. -/
def TableHolds
    (t : Nat)
    (inserted : List Slot)
    (table : RangeTableBtree) : Prop :=
  match table.root with
  | none => inserted = []
  | some ⟨h, root⟩ => Holds t inserted h root

section Table

variable {t : Nat} {inserted : List Slot} {s : Slot}

/- An insertion into a root that is not full. -/
theorem Holds.insertNonFull
    (hDegree : 2 ≤ t)
    {root : TreeNode h}
    (hHolds : Holds t inserted h root)
    (hRoom : root.keys.entries.length ≠ 2 * t - 1)
    (kernel : Nat) :
    ∃ root' kernel', insertNonFull t s h root kernel =
        some (root', kernel') ∧
      Holds t (s :: inserted) h root' := by
  rcases insertNonFull_keeps hDegree
      (carries_fill hDegree s) h 0 root kernel
      hHolds.shape hRoom hHolds.sorted with
    ⟨root', kernel', hInsert, hShape, hInserts⟩
  refine ⟨root', kernel', hInsert, hShape,
    hInserts.pairwise hHolds.sorted, ?_⟩
  exact hInserts.perm.trans (hHolds.content.cons s)

/- The new parent of a root that is full. -/
theorem Holds.parent
    {root : TreeNode h}
    (hHolds : Holds t inserted h root)
    (hFull : root.keys.entries.length = 2 * t - 1)
    (emulatedPpn : Nat) :
    Holds t inserted (h + 1) (newKeys t emulatedPpn, [root]) := by
  have hList : toList (h + 1) (newKeys t emulatedPpn, [root]) =
      toList h root := by
    simp [toList, newKeys, Weave.weave]
  refine ⟨⟨⟨?_, ?_, ?_⟩, rfl, ?_⟩, ?_, ?_⟩
  · exact Nat.zero_le _
  · exact Nat.zero_le _
  · simp [newKeys]
  · intro child hMem
    rw [List.mem_singleton] at hMem
    rw [hMem]
    exact hHolds.shape.raise (by omega)
  · rw [hList]
    exact hHolds.sorted
  · rw [hList]
    exact hHolds.content

/- Every insertion succeeds and adds the given key. -/
theorem insert_keeps
    (hDegree : 2 ≤ t)
    {table : RangeTableBtree}
    (hTable : TableHolds t inserted table)
    (s : Slot) :
    ∃ table', insert t table s = some table' ∧
      TableHolds t (s :: inserted) table' := by
  rcases table with ⟨root, kernel⟩
  cases root with
  | none =>
      have hEmpty : inserted = [] := hTable
      have hArrays :
          (newKeys t (handlePageTableAllocations kernel
            4096).1).entries.length +
          (newKeys t (handlePageTableAllocations kernel
            4096).1).beyond.length = 2 * t - 1 := by
        simp [newKeys]
      rcases insertAt_eq hArrays (by
          change 0 ≠ _
          omega) 0 s with
        ⟨keys, hInsert, hEntries, hLength, -⟩
      have hOne : keys.entries = [s] := hEntries
      refine ⟨⟨some ⟨0, keys⟩, kernel + 4096⟩, ?_, ?_⟩
      · simp only [insert, hInsert]
        rfl
      · have hList : toList 0 keys = [s] := hOne
        refine ⟨⟨Nat.zero_le _, by omega, hLength⟩, ?_, ?_⟩
        · rw [hList]
          exact List.pairwise_singleton _ _
        · rw [hList, hEmpty]
  | some tree =>
      rcases tree with ⟨h, root⟩
      have hHolds : Holds t inserted h root := hTable
      by_cases hFull : root.keys.entries.length = 2 * t - 1
      · rw [insert_full hFull]
        rcases (hHolds.parent hFull
            (handlePageTableAllocations kernel
              4096).1).insertNonFull hDegree (s := s) (by
                change 0 ≠ _
                omega)
            (handlePageTableAllocations kernel 4096).2 with
          ⟨root', kernel', hInsert, hHolds'⟩
        rw [hInsert]
        exact ⟨_, rfl, hHolds'⟩
      · rcases hHolds.insertNonFull hDegree (s := s) hFull
            kernel with
          ⟨root', kernel', hInsert, hHolds'⟩
        refine ⟨⟨some ⟨h, root'⟩, kernel'⟩, ?_, hHolds'⟩
        simp only [insert, if_neg hFull, hInsert, Option.map_some]

/- Every sequence of insertions succeeds. -/
theorem insert_run
    (hDegree : 2 ≤ t)
    (kernel : Nat)
    (slots : List Slot) :
    ∃ table, Run.run (insert t) (construct kernel) slots =
        some table ∧
      TableHolds t slots.reverse table := by
  have hStep : ∀ m table x, TableHolds t m table →
      ∃ table', insert t table x = some table' ∧
        TableHolds t (x :: m) table' :=
    fun _ _ x hHolds => insert_keeps hDegree hHolds x
  have hRun := Run.run_follows hStep
    (show TableHolds t [] (construct kernel) from rfl) slots
  rwa [List.foldl_flip_cons_eq_append, List.append_nil,
    List.map_id'] at hRun

end Table

/- A B-tree with exactly the inserted keys and values. -/
structure Structured
    (t : Nat)
    (slots : List Slot)
    (h : Nat)
    (root : TreeNode h) : Prop where
  sorted : (toList h root).Pairwise
    (fun s s' => keyLt s.key s'.key = true)
  shape : Shape t 0 h root
  leaves : ∃ depth, ∀ d ∈ leafDepths h root, d = depth
  content : (toList h root).Perm slots

/- The tree of the table is a search tree. -/
def StructuredTable
    (t : Nat)
    (slots : List Slot)
    (table : RangeTableBtree) : Prop :=
  match table.root with
  | none => slots = []
  | some ⟨h, root⟩ => Structured t slots h root

theorem keyLt_of_le
    {s s' : Slot}
    (hLe : Le s s')
    (hNe : s.key ≠ s'.key) :
    keyLt s.key s'.key = true := by
  unfold Le keyLt at *
  rw [decide_eq_false_iff_not] at hLe
  rw [decide_eq_true_eq]
  have hParts : ¬ (s.key.1 = s'.key.1 ∧ s.key.2 = s'.key.2) :=
    fun hBoth => hNe (Prod.ext hBoth.1 hBoth.2)
  omega

/- Keys in order that are not equal are strictly ordered. -/
theorem sorted_of_distinct
    {l : List Slot}
    (hSorted : l.Pairwise Le)
    (hDistinct : (l.map Slot.key).Nodup) :
    l.Pairwise (fun s s' => keyLt s.key s'.key = true) := by
  rw [List.Nodup, List.pairwise_map] at hDistinct
  exact (hSorted.and hDistinct).imp
    (fun hBoth => keyLt_of_le hBoth.1 hBoth.2)

/-
  After every sequence of insertions of distinct keys, the
  table is a B-tree with these keys and their values.
-/
theorem structured_run
    (t : Nat)
    (hDegree : 2 ≤ t)
    (kernel : Nat)
    (slots : List Slot)
    (hDistinct : (slots.map Slot.key).Nodup) :
    ∃ table, Run.run (insert t) (construct kernel) slots =
        some table ∧
      StructuredTable t slots table := by
  rcases insert_run hDegree kernel slots with
    ⟨table, hRun, hTable⟩
  refine ⟨table, hRun, ?_⟩
  rcases table with ⟨root, kernel'⟩
  cases root with
  | none => exact List.reverse_eq_nil_iff.mp hTable
  | some tree =>
      rcases tree with ⟨h, root⟩
      have hHolds : Holds t slots.reverse h root := hTable
      have hContent : (toList h root).Perm slots :=
        hHolds.content.trans slots.reverse_perm
      refine ⟨sorted_of_distinct hHolds.sorted ?_,
        hHolds.shape, ⟨h, leafDepths_eq root⟩, hContent⟩
      exact (hContent.map Slot.key).nodup_iff.mpr hDistinct

/- Ranges in falling order, which split a root and a child. -/
theorem structured_run_falling :
    ∃ table, Run.run (insert 2) (construct 0)
        [⟨(60, 70), ⟨6⟩⟩, ⟨(50, 60), ⟨5⟩⟩,
          ⟨(40, 50), ⟨4⟩⟩, ⟨(30, 40), ⟨3⟩⟩,
          ⟨(20, 30), ⟨2⟩⟩, ⟨(10, 20), ⟨1⟩⟩] = some table ∧
      StructuredTable 2 [⟨(60, 70), ⟨6⟩⟩, ⟨(50, 60), ⟨5⟩⟩,
        ⟨(40, 50), ⟨4⟩⟩, ⟨(30, 40), ⟨3⟩⟩,
        ⟨(20, 30), ⟨2⟩⟩, ⟨(10, 20), ⟨1⟩⟩] table :=
  structured_run 2 (by decide) 0 _ (by decide)

end RangeTable

end Virtuoso
