import Virtuoso.RangeTable.Search
import Virtuoso.RangeTable.Structure

/-
  What `search` reads of the nodes it enters. The scan of a
  node stops behind its keys when all of them end below the
  address, and the test after the scan reads the slot there
  all the same.

  Main declarations:
    * `RangeTable.search_eq_none_iff`
    * `RangeTable.inside_run_iff`
-/

namespace Virtuoso

namespace RangeTable

/-
  A node that a search enters: the index of the slot that is
  read after the scan, the number of keys, and the child that
  is followed.
-/
structure Visit where
  index : Nat
  n : Nat
  leaf : Bool
  child : Option Nat

/- The child that is followed after the test. -/
def Keys.followed (keys : Keys) (a : Nat) : Option Nat :=
  match (keys.entries ++ keys.beyond)[keys.scan a]? with
  | none => none
  | some s =>
      if s.Contains a then none else some (keys.scan a)

/- The nodes that `TreeNode::search` enters. -/
def visits (a : Nat) : (h : Nat) → TreeNode h → List Visit
| 0, keys =>
    [⟨Keys.scan keys a, (Keys.entries keys).length, true, none⟩]
| h + 1, (keys, children) =>
    ⟨keys.scan a, keys.entries.length, false, keys.followed a⟩ ::
      match (keys.followed a).bind (children[·]?) with
      | none => []
      | some child => visits a h child

/-
  No slot behind the keys of a node is read, and no child of
  a leaf is followed.
-/
def Inside (a : Nat) (table : RangeTableBtree) : Prop :=
  match table.root with
  | none => True
  | some ⟨h, root⟩ =>
      ∀ v ∈ visits a h root,
        v.index ≠ v.n ∧ (v.leaf = true → v.child = none)

/-
  Some key of the node ends at the address or above it. The
  first of them contains the address, or the child before it
  is covered as well.
-/
def Covered (a : Nat) : (h : Nat) → TreeNode h → Prop
| 0, keys => ∃ s ∈ Keys.entries keys, a ≤ s.key.2
| h + 1, (keys, children) =>
    ∃ before s after,
      keys.entries = before ++ s :: after ∧
        (∀ x ∈ before, x.key.2 < a) ∧ a ≤ s.key.2 ∧
          (s.Contains a ∨
            ∃ child, children[before.length]? = some child ∧
              Covered a h child)

/- The tree of the table, if it has one, is covered. -/
def CoveredTable
    (a : Nat)
    (table : RangeTableBtree) : Prop :=
  match table.root with
  | none => True
  | some ⟨h, root⟩ => Covered a h root

variable {a : Nat} {keys : Keys}

/- The scan stops at the first key that does not end below. -/
theorem scan_of_cut
    {before after : List Slot}
    {s : Slot}
    (hEntries : keys.entries = before ++ s :: after)
    (hBefore : ∀ x ∈ before, x.key.2 < a)
    (hLe : a ≤ s.key.2) :
    keys.scan a = before.length ∧
      keys.entries[keys.scan a]? = some s := by
  have hScan : keys.scan a = before.length := by
    rw [Keys.scan, hEntries, List.takeWhile_append_of_pos
      (fun x hMem => decide_eq_true (hBefore x hMem)),
      List.takeWhile_cons_of_neg (by simp; omega),
      List.append_nil]
  refine ⟨hScan, ?_⟩
  rw [hScan, hEntries, List.getElem?_append_right
    (Nat.le_refl _), Nat.sub_self, List.getElem?_cons_zero]

/- The keys of a node, cut at the index of the scan. -/
theorem cut_of_scan
    (hLt : keys.scan a < keys.entries.length) :
    ∃ before s after,
      keys.entries = before ++ s :: after ∧
        (∀ x ∈ before, x.key.2 < a) ∧ a ≤ s.key.2 := by
  have hSlot := List.getElem?_eq_getElem hLt
  refine ⟨keys.entries.take (keys.scan a),
    keys.entries[keys.scan a],
    keys.entries.drop (keys.scan a + 1), ?_,
    fun _ hMem => below_of_scan hMem, le_of_scan hSlot⟩
  rw [List.getElem_cons_drop, List.take_append_drop]

theorem exists_le_iff :
    (∃ s ∈ keys.entries, a ≤ s.key.2) ↔
      keys.scan a ≠ keys.entries.length := by
  have hScan := scan_le keys a
  constructor
  · rintro ⟨s, hMem, hLe⟩ hEq
    rw [← List.take_length (l := keys.entries), ← hEq] at hMem
    have hBelow := below_of_scan hMem
    omega
  · intro hNe
    rcases cut_of_scan (show keys.scan a < keys.entries.length
        by omega) with
      ⟨before, s, after, hEntries, -, hLe⟩
    exact ⟨s, by rw [hEntries]; simp, hLe⟩

section Nodes

variable {t least h : Nat} {node : TreeNode h}

/- A search has no outcome if it reads outside the array. -/
theorem read_eq_none_iff
    {keys : Keys}
    (hFill : Fill t least keys) :
    (keys.entries ++ keys.beyond)[keys.scan a]? = none ↔
      keys.scan a = 2 * t - 1 := by
  have hScan := scan_le keys a
  have hArrays := hFill.arrays
  rw [List.getElem?_eq_none_iff, List.length_append]
  omega

/- A search without an outcome reads outside of an array. -/
theorem search_eq_none_iff
    (hShape : Shape t least h node) :
    search a h node = none ↔
      ∃ v ∈ visits a h node, v.index = 2 * t - 1 := by
  induction h generalizing least with
  | zero =>
      have hRead := read_eq_none_iff (a := a) hShape
      simp only [visits, List.mem_singleton, exists_eq_left]
      rw [← hRead, search]
      cases (Keys.entries node ++
          Keys.beyond node)[Keys.scan node a]? with
      | none => exact iff_of_true rfl rfl
      | some s =>
          refine iff_of_false ?_ (Option.some_ne_none s)
          dsimp only
          split <;> exact Option.some_ne_none _
  | succ h ih =>
      rcases node with ⟨keys, children⟩
      have hRead := read_eq_none_iff (a := a) hShape.1
      have hScan := scan_le keys a
      have hCount := hShape.2.1
      simp only [visits, List.mem_cons, exists_eq_or_imp]
      rw [← hRead, search, Keys.followed]
      cases hSlot : (keys.entries ++ keys.beyond)[keys.scan a]? with
      | none => exact iff_of_true rfl (Or.inl rfl)
      | some s =>
          rw [or_iff_right (Option.some_ne_none s)]
          by_cases hContains : s.Contains a
          · simp [hContains]
          · have hChild := List.getElem?_eq_getElem
              (show keys.scan a < children.length by omega)
            simp only [if_neg hContains, Option.bind_some,
              hChild, Option.map_eq_none_iff]
            exact ih (hShape.2.2 _ (List.mem_of_getElem? hChild))

/- A leaf of degree 2 with one key. -/
def smallLeaf : Keys :=
  ⟨[⟨(10, 20), ⟨1⟩⟩], [.unused, .unused], 0⟩

/- A leaf of degree 2 that is full. -/
def fullLeaf : Keys :=
  ⟨[⟨(30, 40), ⟨3⟩⟩, ⟨(40, 50), ⟨4⟩⟩, ⟨(50, 60), ⟨5⟩⟩], [], 0⟩

/- Two levels with one key between the leaves. -/
def twoLevels : TreeNode 1 :=
  ((⟨[⟨(20, 30), ⟨2⟩⟩], [.unused, .unused], 0⟩ : Keys),
    [smallLeaf, fullLeaf])

theorem shape_twoLevels :
    Shape 2 1 1 twoLevels := by
  have hSmall : Fill 2 1 smallLeaf :=
    ⟨by decide, by decide, by decide⟩
  have hFull : Fill 2 1 fullLeaf :=
    ⟨by decide, by decide, by decide⟩
  refine ⟨⟨by decide, by decide, by decide⟩, rfl, ?_⟩
  intro child hMem
  rcases List.mem_pair.mp hMem with hEq | hEq <;> rw [hEq]
  · exact hSmall
  · exact hFull

/- The search of 90 goes down to the full leaf and reads past
   its keys; that of 25 ends at the root. -/
theorem search_eq_none_iff_twoLevels :
    search 90 1 twoLevels = none ∧
      search 25 1 twoLevels ≠ none := by
  have hLast : (⟨3, 3, true, none⟩ : Visit) ∈
      visits 90 1 twoLevels :=
    List.mem_cons_of_mem _ (List.mem_singleton.mpr rfl)
  refine ⟨(search_eq_none_iff shape_twoLevels).mpr
    ⟨_, hLast, rfl⟩, fun hNone => ?_⟩
  have hVisit := (search_eq_none_iff shape_twoLevels).mp hNone
  revert hVisit
  decide

/-
  A search stays inside of the nodes exactly when the way of
  the address is covered.
-/
theorem inside_iff_covered
    (hShape : Shape t least h node) :
    (∀ v ∈ visits a h node,
        v.index ≠ v.n ∧ (v.leaf = true → v.child = none)) ↔
      Covered a h node := by
  induction h generalizing least with
  | zero =>
      exact List.forall_mem_singleton.trans
        ((and_iff_left (fun _ => rfl)).trans exists_le_iff.symm)
  | succ h ih =>
      rcases node with ⟨keys, children⟩
      have hScan := scan_le keys a
      have hCount := hShape.2.1
      simp only [visits, List.forall_mem_cons]
      by_cases hEnd : keys.scan a = keys.entries.length
      · -- all keys of the node end below the address
        refine iff_of_false (fun hInside =>
          hInside.1.1 hEnd) ?_
        rintro ⟨before, s, after, hEntries, -, hLe, -⟩
        exact exists_le_iff.mp ⟨s, by rw [hEntries]; simp, hLe⟩ hEnd
      · rcases cut_of_scan (show keys.scan a < keys.entries.length
            by omega) with
          ⟨before, s, after, hEntries, hBefore, hLe⟩
        rcases scan_of_cut hEntries hBefore hLe with
          ⟨hIndex, hSlot⟩
        have hChild := List.getElem?_eq_getElem
          (show keys.scan a < children.length by omega)
        have hBelow := ih (hShape.2.2 _
          (List.mem_of_getElem? hChild))
        have hFollowed : keys.followed a =
            if s.Contains a then none
            else some (keys.scan a) := by
          rw [Keys.followed, slot_of_key hSlot]
        rw [hFollowed]
        constructor
        · rintro ⟨-, hRest⟩
          refine ⟨before, s, after, hEntries, hBefore, hLe, ?_⟩
          by_cases hContains : s.Contains a
          · exact Or.inl hContains
          · rw [if_neg hContains, Option.bind_some, hChild] at hRest
            rw [← hIndex]
            exact Or.inr ⟨_, hChild, hBelow.mp hRest⟩
        · rintro ⟨before', s', after', hEntries', hBefore',
            hLe', hWay⟩
          rcases scan_of_cut hEntries' hBefore' hLe' with
            ⟨hIndex', hSlot'⟩
          have hSame : s' = s :=
            Option.some.inj (hSlot'.symm.trans hSlot)
          rw [hSame, ← hIndex'] at hWay
          refine ⟨⟨hEnd, nofun⟩, ?_⟩
          by_cases hContains : s.Contains a
          · rw [if_pos hContains]
            nofun
          · rcases hWay.resolve_left hContains with
              ⟨child, hThis, hCovered⟩
            have hEq : children[keys.scan a] = child :=
              Option.some.inj (hChild.symm.trans hThis)
            rw [if_neg hContains, Option.bind_some, hChild]
            exact hBelow.mpr (hEq ▸ hCovered)

end Nodes

/-
  After every sequence of insertions, the search of each
  address stays inside of the nodes exactly when its way is
  covered.
-/
theorem inside_run_iff
    (t : Nat)
    (hDegree : 2 ≤ t)
    (kernel : Nat)
    (slots : List Slot) :
    ∃ table, Run.run (insert t) (construct kernel) slots =
        some table ∧
      ∀ a, Inside a table ↔ CoveredTable a table := by
  rcases insert_run hDegree kernel slots with
    ⟨table, hRun, hTable⟩
  refine ⟨table, hRun, fun a => ?_⟩
  rcases table with ⟨root, kernel'⟩
  cases root with
  | none => exact Iff.rfl
  | some tree =>
      rcases tree with ⟨h, root⟩
      have hHolds : Holds t slots.reverse h root := hTable
      exact inside_iff_covered hHolds.shape

/- Four ranges, which need two levels. -/
theorem inside_run_fourRanges :
    ∃ table, Run.run (insert 2) (construct 0)
        [⟨(0, 10), ⟨0⟩⟩, ⟨(20, 30), ⟨1⟩⟩,
          ⟨(40, 50), ⟨2⟩⟩, ⟨(60, 70), ⟨3⟩⟩] = some table ∧
      ∀ a, Inside a table ↔ CoveredTable a table :=
  inside_run_iff 2 (by decide) 0 _

/- An address above the three ranges of a full root. -/
theorem not_inside_fullRoot :
    ∃ table, Run.run (insert 2) (construct 0)
        [⟨(0, 10), ⟨0⟩⟩, ⟨(20, 30), ⟨1⟩⟩,
          ⟨(40, 50), ⟨2⟩⟩] = some table ∧
      ¬ Inside 60 table := by
  refine ⟨_, rfl, ?_⟩
  intro hInside
  exact (hInside ⟨3, 3, true, none⟩
    (List.mem_singleton.mpr rfl)).1 rfl

end RangeTable

end Virtuoso
