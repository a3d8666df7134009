import Virtuoso.Lib.Weave
import Virtuoso.RangeTable.Basic

/-
  Insertion into the nodes of the range table. It succeeds in
  every node that is not full, and puts the key at its place
  in the order of the source, also where ranges overlap or
  are inserted twice. What is known of each node, `Carries`
  hands on from the node before the insertion.

  Main declarations:
    * `RangeTable.toList`
    * `RangeTable.insertNonFull_keeps`
-/

------------------------------------------------------------
-- Keys, Nodes And Splitting
------------------------------------------------------------

namespace Virtuoso

namespace RangeTable

/- A key that is not behind another one. -/
def Le (s s' : Slot) : Prop :=
  keyLt s'.key s.key = false

theorem Le.trans
    {s s' s'' : Slot}
    (hFirst : Le s s')
    (hSecond : Le s' s'') :
    Le s s'' := by
  unfold Le keyLt at *
  rw [decide_eq_false_iff_not] at *
  omega

theorem le_of_keyLt
    {s s' : Slot}
    (hLt : keyLt s.key s'.key = true) :
    Le s s' := by
  unfold Le
  unfold keyLt at *
  rw [decide_eq_true_eq] at hLt
  rw [decide_eq_false_iff_not]
  omega

/- The scan from the right cuts the keys of a node. -/
theorem position_cut
    (keys : Keys)
    (k : Nat × Nat) :
    keys.position k ≤ keys.entries.length ∧
      keys.entries.take (keys.position k) =
        keys.entries.rdropWhile (fun x => keyLt k x.key) ∧
      keys.entries.drop (keys.position k) =
        keys.entries.rtakeWhile (fun x => keyLt k x.key) := by
  have hPrefix := List.rdropWhile_prefix
    (fun x : Slot => keyLt k x.key) (l := keys.entries)
  have hTake : keys.entries.take (keys.position k) =
      keys.entries.rdropWhile (fun x => keyLt k x.key) :=
    (List.prefix_iff_eq_take.mp hPrefix).symm
  refine ⟨hPrefix.length_le, hTake, ?_⟩
  have hSplit := List.take_append_drop
    (keys.position k) keys.entries
  rw [hTake] at hSplit
  exact List.append_cancel_left (hSplit.trans
    List.rdropWhile_append_rtakeWhile.symm)

variable {s : Slot}

/- The keys on both sides of the position of a new key. -/
theorem position_le
    {keys : Keys}
    (hSorted : keys.entries.Pairwise Le) :
    keys.position s.key ≤ keys.entries.length ∧
      (∀ x ∈ keys.entries.take (keys.position s.key), Le x s) ∧
      ∀ x ∈ keys.entries.drop (keys.position s.key), Le s x := by
  rcases position_cut keys s.key with ⟨hLe, hTake, hDrop⟩
  refine ⟨hLe, ?_, ?_⟩
  · intro x hMem
    have hKept := hSorted.sublist (List.take_sublist
      (keys.position s.key) keys.entries)
    rw [hTake] at hMem hKept
    have hNonempty := List.ne_nil_of_mem hMem
    have hLast : Le (List.getLast _ hNonempty) s :=
      eq_false_of_ne_true (List.rdropWhile_last_not
        (fun x : Slot => keyLt s.key x.key) keys.entries
        hNonempty)
    have hSplit := List.dropLast_append_getLast hNonempty
    rw [← hSplit, List.pairwise_append] at hKept
    rw [← hSplit, List.mem_append, List.mem_singleton] at hMem
    rcases hMem with hFront | hEq
    · exact (hKept.2.2 x hFront _ (by simp)).trans hLast
    · rw [hEq]
      exact hLast
  · intro x hMem
    rw [hDrop] at hMem
    exact le_of_keyLt (List.mem_rtakeWhile_imp
      (p := fun x : Slot => keyLt s.key x.key) hMem)

/- A key behind, or not behind, the key of a split. -/
theorem inserts_behind
    {s median : Slot}
    {left right right' : List Slot}
    (hInserts : Weave.Inserts Le s right right')
    (hLeft : ∀ x ∈ left, Le x median)
    (hMedian : Le median s) :
    Weave.Inserts Le s (left ++ median :: right)
      (left ++ median :: right') := by
  have hFront : ∀ x ∈ left ++ [median], Le x s := by
    intro x hMem
    rcases List.mem_append.mp hMem with hMem | hEq
    · exact (hLeft x hMem).trans hMedian
    · rw [List.mem_singleton] at hEq
      exact hEq ▸ hMedian
  have hBack : ∀ x ∈ ([] : List Slot), Le s x := by simp
  simpa using hInserts.weave hFront hBack

theorem inserts_before
    {s median : Slot}
    {left left' right : List Slot}
    (hInserts : Weave.Inserts Le s left left')
    (hRight : ∀ x ∈ right, Le median x)
    (hMedian : Le s median) :
    Weave.Inserts Le s (left ++ median :: right)
      (left' ++ median :: right) := by
  have hFront : ∀ x ∈ ([] : List Slot), Le x s := by simp
  have hBack : ∀ x ∈ median :: right, Le s x := by
    intro x hMem
    rcases List.mem_cons.mp hMem with hEq | hMem
    · exact hEq ▸ hMedian
    · exact hMedian.trans (hRight x hMem)
  simpa using hInserts.weave hFront hBack

/- The ranges below a node, in order. -/
def toList :
    (h : Nat) → TreeNode h → List Slot
| 0, keys => Keys.entries keys
| h + 1, (keys, children) =>
    Weave.weave keys.entries (children.map (toList h))

/- What stands before and behind one child of a node. -/
def frontOf
    {h : Nat}
    (entries : List Slot)
    (children : List (TreeNode h))
    (p : Nat) :
    List Slot :=
  Weave.front (entries.take p) ((children.take p).map (toList h))

/- The slots behind a position of a node. -/
def backOf
    {h : Nat}
    (entries : List Slot)
    (children : List (TreeNode h))
    (p : Nat) :
    List Slot :=
  Weave.back (entries.drop p)
    ((children.drop (p + 1)).map (toList h))

variable {h p : Nat}

/- The in-order list around one child. -/
theorem toList_child
    {keys : Keys}
    {children : List (TreeNode h)}
    (hLength : children.length = keys.entries.length + 1)
    (hP : p ≤ keys.entries.length)
    (child : TreeNode h) :
    toList (h + 1)
        (keys, children.take p ++ child :: children.drop (p + 1)) =
      frontOf keys.entries children p ++ toList h child ++
        backOf keys.entries children p := by
  rw [toList, List.map_append, List.map_cons]
  nth_rewrite 1 [← List.take_append_drop p keys.entries]
  apply Weave.weave_split
  · simp only [List.length_map, List.length_take]
    omega
  · simp only [List.length_map, List.length_drop]
    omega

variable {median : Slot}

/- The in-order list around two children and their key. -/
theorem toList_halves
    {keys keys' : Keys}
    {children : List (TreeNode h)}
    (hLength : children.length = keys.entries.length + 1)
    (hP : p ≤ keys.entries.length)
    (hEntries : keys'.entries =
      keys.entries.take p ++ median :: keys.entries.drop p)
    (left right : TreeNode h) :
    toList (h + 1)
        (keys', children.take p ++
          left :: right :: children.drop (p + 1)) =
      frontOf keys.entries children p ++
        (toList h left ++ median :: toList h right) ++
          backOf keys.entries children p := by
  rw [toList, List.map_append, List.map_cons, List.map_cons,
    hEntries]
  apply Weave.weave_replace
  · simp only [List.length_map, List.length_take]
    omega
  · simp only [List.length_map, List.length_drop]
    omega

theorem take_child_drop
    {children : List (TreeNode h)}
    {child : TreeNode h}
    (hChild : children[p]? = some child) :
    children.take p ++ child :: children.drop (p + 1) =
      children := by
  rcases List.getElem?_eq_some_iff.mp hChild with ⟨hP, hEq⟩
  rw [← hEq, List.getElem_cons_drop, List.take_append_drop]

theorem toList_eq_child
    {keys : Keys}
    {children : List (TreeNode h)}
    {child : TreeNode h}
    (hLength : children.length = keys.entries.length + 1)
    (hP : p ≤ keys.entries.length)
    (hChild : children[p]? = some child) :
    toList (h + 1) (keys, children) =
      frontOf keys.entries children p ++ toList h child ++
        backOf keys.entries children p := by
  have hAround := toList_child hLength hP child
  rwa [take_child_drop hChild] at hAround

variable {h : Nat}

/- The keys before and behind the child of a new key. -/
theorem le_neighbours
    {keys : Keys}
    {children : List (TreeNode h)}
    {middle : List Slot}
    (hSortedKeys : keys.entries.Pairwise Le)
    (hSorted : (frontOf keys.entries children
        (keys.position s.key) ++ middle ++
      backOf keys.entries children
        (keys.position s.key)).Pairwise Le) :
    (∀ x ∈ frontOf keys.entries children
        (keys.position s.key), Le x s) ∧
      ∀ x ∈ backOf keys.entries children
        (keys.position s.key), Le s x := by
  rcases position_le (s := s) hSortedKeys with
    ⟨-, hBefore, hAfter⟩
  rw [List.pairwise_append, List.pairwise_append] at hSorted
  constructor
  · intro x hMem
    rcases Weave.mem_front hSorted.1.1 hMem with
      ⟨e, hE, hEq | hOrder⟩
    · rw [hEq]
      exact hBefore e hE
    · exact hOrder.trans (hBefore e hE)
  · intro x hMem
    rcases Weave.mem_back hSorted.2.1 hMem with
      ⟨e, hE, hEq | hOrder⟩
    · rw [hEq]
      exact hAfter e hE
    · exact (hAfter e hE).trans hOrder

/-
  A property of each node below a node. It speaks of the
  least number of keys that the node must have, the ranges
  below the node, and its arrays.
-/
def Tree
    (t : Nat)
    (N : Nat → List Slot → Keys → Prop) :
    Nat → (h : Nat) → TreeNode h → Prop
| least, 0, keys => N least (toList 0 keys) keys
| least, h + 1, (keys, children) =>
    N least (toList (h + 1) (keys, children)) keys ∧
      children.length = keys.entries.length + 1 ∧
        ∀ child ∈ children, Tree t N (t - 1) h child

/-
  What an insertion of `s` makes of a property of nodes: it
  holds of both halves of a full node, and it is handed on to
  a node into which the key or a key of a child was written.
-/
structure Carries
    (t : Nat)
    (s : Slot)
    (N N' : Nat → List Slot → Keys → Prop) : Prop where
  arrays : ∀ {least own keys}, N least own keys →
    keys.entries.length + keys.beyond.length = 2 * t - 1
  old : ∀ {least own keys}, N least own keys → N' least own keys
  halves : ∀ {least left right median keys lower upper},
    N least (left ++ median :: right) keys →
      keys.entries = lower ++ median :: upper →
        lower.length = t - 1 → upper.length = t - 1 →
          (∀ x ∈ upper, x ∈ right) → ∀ emulatedPpn,
            N (t - 1) left
                ⟨lower, median :: upper ++ keys.beyond,
                  keys.emulatedPpn⟩ ∧
              N (t - 1) right
                ⟨upper, List.replicate t Slot.unused, emulatedPpn⟩
  node : ∀ {least own own' keys} {keys' : Keys},
    N least own keys → Weave.Inserts Le s own own' →
      keys.entries.length ≤ keys'.entries.length →
        keys'.entries.length + keys'.beyond.length = 2 * t - 1 →
          (∀ x ∈ keys'.beyond, x ∈ keys.beyond) →
            N' least own' keys'

section Properties

variable {t least : Nat} {s : Slot}
variable {N N' : Nat → List Slot → Keys → Prop}

theorem Tree.keys
    {node : TreeNode h}
    (hTree : Tree t N least h node) :
    N least (toList h node) node.keys := by
  cases h with
  | zero => exact hTree
  | succ h => exact hTree.1

theorem Tree.imp
    (hImp : ∀ {least own keys}, N least own keys →
      N' least own keys)
    {node : TreeNode h}
    (hTree : Tree t N least h node) :
    Tree t N' least h node := by
  induction h generalizing least with
  | zero => exact hImp hTree
  | succ h ih =>
      rcases node with ⟨keys, children⟩
      exact ⟨hImp hTree.1, hTree.2.1,
        fun child hMem => ih (hTree.2.2 child hMem)⟩

end Properties

/- Cutting a full array at its middle. -/
theorem split_eq
    {t : Nat}
    {keys : Keys}
    (hDegree : 2 ≤ t)
    (hFull : keys.entries.length = 2 * t - 1)
    (emulatedPpn : Nat) :
    ∃ lower median upper,
      keys.entries = lower ++ median :: upper ∧
      lower.length = t - 1 ∧ upper.length = t - 1 ∧
      Keys.split t emulatedPpn keys =
        some (⟨lower, median :: upper ++ keys.beyond,
            keys.emulatedPpn⟩, median,
          ⟨upper, List.replicate t Slot.unused, emulatedPpn⟩) := by
  have hSplit := List.take_append_drop (t - 1) keys.entries
  cases hDrop : keys.entries.drop (t - 1) with
  | nil =>
      have hLength := congrArg List.length hDrop
      rw [List.length_drop, hFull] at hLength
      simp at hLength
      omega
  | cons median upper =>
      rw [hDrop] at hSplit
      refine ⟨_, median, upper, hSplit.symm, ?_, ?_, ?_⟩
      · rw [List.length_take, hFull]
        omega
      · have hLength := congrArg List.length hDrop
        rw [List.length_drop, hFull] at hLength
        simp at hLength
        omega
      · simp [Keys.split, hDrop]

/- The in-order list of a node that is cut at its middle. -/
theorem toList_cut
    {t h : Nat}
    {keys : Keys}
    {children : List (TreeNode h)}
    {lower upper : List Slot}
    (hEntries : keys.entries = lower ++ median :: upper)
    (hLower : lower.length + 1 = t)
    (hLength : t ≤ children.length) :
    toList (h + 1) (keys, children) =
      Weave.weave lower ((children.take t).map (toList h)) ++
        median :: Weave.weave upper
          ((children.drop t).map (toList h)) := by
  rw [toList, hEntries, ← Weave.weave_cut
    (by
      rw [List.length_map, List.length_take, hLower]
      omega),
    ← List.map_append, List.take_append_drop]

/- A split keeps the keys in order and cuts them in half. -/
theorem splitChild_spec
    {t least : Nat}
    {N N' : Nat → List Slot → Keys → Prop}
    (hDegree : 2 ≤ t)
    (hCarries : Carries t s N N')
    {node : TreeNode h}
    (hTree : Tree t N least h node)
    (hFull : node.keys.entries.length = 2 * t - 1)
    (emulatedPpn : Nat) :
    ∃ left median right,
      splitChild t emulatedPpn node = some (left, median, right) ∧
      Tree t N (t - 1) h left ∧ Tree t N (t - 1) h right ∧
      left.keys.entries.length = t - 1 ∧
      right.keys.entries.length = t - 1 ∧
      toList h node =
        toList h left ++ median :: toList h right := by
  rcases split_eq hDegree hFull emulatedPpn with
    ⟨lower, median, upper, hEntries, hLower, hUpper, hSplit⟩
  cases h with
  | zero =>
      have hKeys : N least (lower ++ median :: upper) node :=
        hEntries ▸ hTree
      have hHalves := hCarries.halves hKeys hEntries hLower
        hUpper (fun _ hMem => hMem) emulatedPpn
      exact ⟨_, median, _, hSplit, hHalves.1, hHalves.2,
        hLower, hUpper, hEntries⟩
  | succ h =>
      rcases node with ⟨keys, children⟩
      have hLength : children.length = 2 * t := by
        have hChildren := hTree.2.1
        change keys.entries.length = 2 * t - 1 at hFull
        omega
      have hCut : toList (h + 1) (keys, children) =
          Weave.weave lower ((children.take t).map (toList h)) ++
            median :: Weave.weave upper
              ((children.drop t).map (toList h)) :=
        toList_cut hEntries (by omega) (by omega)
      have hHalves := hCarries.halves (hCut ▸ hTree.1)
        hEntries hLower hUpper
        (fun _ hMem => (Weave.sublist_weave _ _).subset hMem)
        emulatedPpn
      refine ⟨(⟨lower, median :: upper ++ keys.beyond,
          keys.emulatedPpn⟩, children.take t), median,
        (⟨upper, List.replicate t Slot.unused,
          emulatedPpn⟩, children.drop t), ?_, ?_, ?_, hLower,
        hUpper, hCut⟩
      · change (Keys.split t emulatedPpn keys).map _ = _
        change Keys.split t emulatedPpn keys = _ at hSplit
        rw [hSplit]
        rfl
      · refine ⟨hHalves.1, ?_, ?_⟩
        · simp only [List.length_take, hLower]
          omega
        · intro child hMem
          exact hTree.2.2 child (List.mem_of_mem_take hMem)
      · refine ⟨hHalves.2, ?_, ?_⟩
        · simp only [List.length_drop, hUpper]
          omega
        · intro child hMem
          exact hTree.2.2 child (List.mem_of_mem_drop hMem)

------------------------------------------------------------
-- Insertion Into A Node
------------------------------------------------------------

/- Room for one more key. -/
theorem insertAt_eq
    {t : Nat}
    {keys : Keys}
    (hLength : keys.entries.length + keys.beyond.length = 2 * t - 1)
    (hRoom : keys.entries.length ≠ 2 * t - 1)
    (p : Nat)
    (s : Slot) :
    ∃ keys', keys.insertAt p s = some keys' ∧
      keys'.entries =
        keys.entries.take p ++ s :: keys.entries.drop p ∧
      keys'.entries.length + keys'.beyond.length = 2 * t - 1 ∧
      ∀ x ∈ keys'.beyond, x ∈ keys.beyond := by
  unfold Keys.insertAt
  cases hBeyond : keys.beyond with
  | nil =>
      rw [hBeyond, List.length_nil] at hLength
      omega
  | cons first beyond =>
      rw [hBeyond, List.length_cons] at hLength
      refine ⟨_, rfl, rfl, ?_, ?_⟩
      · simp only [List.length_append, List.length_cons,
          List.length_take, List.length_drop]
        omega
      · intro x hMem
        exact List.mem_cons_of_mem _ hMem

/- Insertions into the nodes of a height. -/
def Keeps
    (t : Nat)
    (s : Slot)
    (N N' : Nat → List Slot → Keys → Prop)
    (h : Nat) : Prop :=
  ∀ (least : Nat) (node : TreeNode h) (kernel : Nat),
    Tree t N least h node →
      node.keys.entries.length ≠ 2 * t - 1 →
        (toList h node).Pairwise Le →
          ∃ node' kernel',
            insertNonFull t s h node kernel =
                some (node', kernel') ∧
              Tree t N' least h node' ∧
                Weave.Inserts Le s (toList h node) (toList h node')

section Inner

variable {t least : Nat} {s : Slot}
variable {N N' : Nat → List Slot → Keys → Prop}

theorem keeps_zero
    (hCarries : Carries t s N N') :
    Keeps t s N N' 0 := by
  intro least keys kernel hTree hRoom hSorted
  rcases insertAt_eq (hCarries.arrays hTree) hRoom
      (Keys.position keys s.key) s with
    ⟨keys', hInsert, hEntries, hArrays, hBeyond⟩
  rcases position_le (s := s) hSorted with
    ⟨-, hBefore, hAfter⟩
  have hInserts : Weave.Inserts Le s (toList 0 keys)
      (toList 0 keys') :=
    ⟨_, _, (List.take_append_drop
      (Keys.position keys s.key) _).symm, hEntries, hBefore,
      hAfter⟩
  refine ⟨keys', kernel, ?_, ?_, hInserts⟩
  · simp only [insertNonFull, hInsert]
  · exact hCarries.node hTree hInserts
      hInserts.length_le hArrays hBeyond

variable {h : Nat} {keys : Keys}
variable {children : List (TreeNode h)} {child : TreeNode h}

/- The insertion into a child that is not full. -/
theorem keeps_child
    (hCarries : Carries t s N N')
    (hKeeps : Keeps t s N N' h)
    (hTree : Tree t N least (h + 1) (keys, children))
    (hP : keys.position s.key ≤ keys.entries.length)
    (hChild : children[keys.position s.key]? = some child)
    (hNotFull : child.keys.entries.length ≠ 2 * t - 1)
    (hSorted : (toList h child).Pairwise Le)
    (hFront : ∀ x ∈ frontOf keys.entries children
      (keys.position s.key), Le x s)
    (hBack : ∀ x ∈ backOf keys.entries children
      (keys.position s.key), Le s x)
    (kernel : Nat) :
    ∃ node' kernel',
      insertNonFull t s (h + 1) (keys, children) kernel =
        some (node', kernel') ∧
      Tree t N' least (h + 1) node' ∧
      Weave.Inserts Le s (toList (h + 1) (keys, children))
        (toList (h + 1) node') := by
  have hMemChild := List.mem_of_getElem? hChild
  have hCount := hTree.2.1
  rcases hKeeps (t - 1) child kernel
      (hTree.2.2 child hMemChild) hNotFull hSorted with
    ⟨child', kernel', hInsert, hTree', hInserts⟩
  have hWhole : Weave.Inserts Le s
      (toList (h + 1) (keys, children))
      (toList (h + 1) (keys,
        children.take (keys.position s.key) ++ child' ::
          children.drop (keys.position s.key + 1))) := by
    rw [toList_child hCount hP child',
      toList_eq_child hCount hP hChild]
    exact hInserts.weave hFront hBack
  refine ⟨(keys, children.take (keys.position s.key) ++
    child' :: children.drop (keys.position s.key + 1)),
    kernel', ?_, ⟨?_, ?_, ?_⟩, hWhole⟩
  · simp only [insertNonFull, hChild, if_neg hNotFull,
      hInsert, Option.map_some]
  · exact hCarries.node hTree.1 hWhole (Nat.le_refl _)
      (hCarries.arrays hTree.1) (fun _ hMem => hMem)
  · rw [← take_child_drop hChild] at hCount
    simpa using hCount
  · intro x hMem
    rw [List.mem_append, List.mem_cons] at hMem
    rcases hMem with hMem | hEq | hMem
    · exact (hTree.2.2 x (List.mem_of_mem_take hMem)).imp
        hCarries.old
    · exact hEq ▸ hTree'
    · exact (hTree.2.2 x (List.mem_of_mem_drop hMem)).imp
        hCarries.old

/- The node with a key and two halves at one position. -/
theorem tree_halves
    {keys' : Keys}
    {p : Nat}
    {left right : TreeNode h}
    (hCarries : Carries t s N N')
    (hTree : Tree t N least (h + 1) (keys, children))
    (hP : p ≤ keys.entries.length)
    (hEntries : keys'.entries =
      keys.entries.take p ++ median :: keys.entries.drop p)
    (hArrays : keys'.entries.length + keys'.beyond.length =
      2 * t - 1)
    (hBeyond : ∀ x ∈ keys'.beyond, x ∈ keys.beyond)
    (hLeft : Tree t N' (t - 1) h left)
    (hRight : Tree t N' (t - 1) h right)
    (hInserts : Weave.Inserts Le s
      (toList (h + 1) (keys, children))
      (toList (h + 1) (keys', children.take p ++
        left :: right :: children.drop (p + 1)))) :
    Tree t N' least (h + 1) (keys', children.take p ++
      left :: right :: children.drop (p + 1)) := by
  have hCount := hTree.2.1
  have hOne : keys'.entries.length = keys.entries.length + 1 := by
    rw [hEntries, List.length_append, List.length_cons,
      List.length_take, List.length_drop]
    omega
  refine ⟨hCarries.node hTree.1 hInserts (by omega) hArrays
    hBeyond, ?_, ?_⟩
  · simp only [List.length_append, List.length_cons,
      List.length_take, List.length_drop]
    omega
  · intro x hMem
    simp only [List.mem_append, List.mem_cons] at hMem
    rcases hMem with hMem | hEq | hEq | hMem
    · exact (hTree.2.2 x (List.mem_of_mem_take hMem)).imp
        hCarries.old
    · exact hEq ▸ hLeft
    · exact hEq ▸ hRight
    · exact (hTree.2.2 x (List.mem_of_mem_drop hMem)).imp
        hCarries.old

/- The insertion into one half of a child that was full. -/
theorem keeps_half
    (hDegree : 2 ≤ t)
    (hCarries : Carries t s N N')
    (hKeeps : Keeps t s N N' h)
    (hTree : Tree t N least (h + 1) (keys, children))
    (hRoom : keys.entries.length ≠ 2 * t - 1)
    (hP : keys.position s.key ≤ keys.entries.length)
    (hChild : children[keys.position s.key]? = some child)
    (hFull : child.keys.entries.length = 2 * t - 1)
    (hSorted : (toList h child).Pairwise Le)
    (hFront : ∀ x ∈ frontOf keys.entries children
      (keys.position s.key), Le x s)
    (hBack : ∀ x ∈ backOf keys.entries children
      (keys.position s.key), Le s x)
    (kernel : Nat) :
    ∃ node' kernel',
      insertNonFull t s (h + 1) (keys, children) kernel =
        some (node', kernel') ∧
      Tree t N' least (h + 1) node' ∧
      Weave.Inserts Le s (toList (h + 1) (keys, children))
        (toList (h + 1) node') := by
  have hMemChild := List.mem_of_getElem? hChild
  have hCount := hTree.2.1
  rcases splitChild_spec hDegree hCarries
      (hTree.2.2 child hMemChild) hFull
      (handlePageTableAllocations kernel 4096).1 with
    ⟨left, median, right, hSplit, hTreeLeft, hTreeRight,
      hLeft, hRight, hList⟩
  rcases insertAt_eq (hCarries.arrays hTree.1) hRoom
      (keys.position s.key) median with
    ⟨keys', hInsertAt, hEntries, hArrays, hBeyond⟩
  have hOld := toList_eq_child hCount hP hChild
  rw [hList] at hSorted hOld
  rw [List.pairwise_append, List.pairwise_cons] at hSorted
  by_cases hLt : keyLt median.key s.key = true
  · rcases hKeeps (t - 1) right
        (handlePageTableAllocations kernel 4096).2
        hTreeRight (by omega) hSorted.2.1.2 with
      ⟨right', kernel', hInsert, hTreeRight', hInserts⟩
    have hWhole := (inserts_behind hInserts
      (fun x hMem => hSorted.2.2 x hMem median (by simp))
      (le_of_keyLt hLt)).weave hFront hBack
    rw [← hOld, ← toList_halves hCount hP hEntries] at hWhole
    refine ⟨_, kernel', ?_, tree_halves hCarries hTree hP
      hEntries hArrays hBeyond (hTreeLeft.imp hCarries.old)
      hTreeRight' hWhole, hWhole⟩
    simp only [insertNonFull, hChild, if_pos hFull, hSplit,
      hInsertAt, if_pos hLt, hInsert, Option.map_some]
  · rcases hKeeps (t - 1) left
        (handlePageTableAllocations kernel 4096).2
        hTreeLeft (by omega) hSorted.1 with
      ⟨left', kernel', hInsert, hTreeLeft', hInserts⟩
    have hWhole := (inserts_before hInserts hSorted.2.1.1
      (eq_false_of_ne_true hLt)).weave hFront hBack
    rw [← hOld, ← toList_halves hCount hP hEntries] at hWhole
    refine ⟨_, kernel', ?_, tree_halves hCarries hTree hP
      hEntries hArrays hBeyond hTreeLeft'
      (hTreeRight.imp hCarries.old) hWhole, hWhole⟩
    simp only [insertNonFull, hChild, if_pos hFull, hSplit,
      hInsertAt, if_neg hLt, hInsert, Option.map_some]

/-
  Every insertion into a node that is not full succeeds, puts
  the key at its place in the order and hands on what is
  known of the nodes.
-/
theorem insertNonFull_keeps
    (hDegree : 2 ≤ t)
    (hCarries : Carries t s N N')
    (h : Nat) :
    Keeps t s N N' h := by
  induction h with
  | zero => exact keeps_zero hCarries
  | succ h ih =>
      rintro least ⟨keys, children⟩ kernel hTree hRoom hSorted
      have hSortedKeys : keys.entries.Pairwise Le :=
        hSorted.sublist (Weave.sublist_weave _ _)
      have hP := (position_le (s := s) hSortedKeys).1
      have hCount := hTree.2.1
      have hIndex : keys.position s.key < children.length := by
        omega
      have hChild := List.getElem?_eq_getElem hIndex
      have hList := toList_eq_child hCount hP hChild
      rw [hList] at hSorted
      rcases le_neighbours hSortedKeys hSorted with
        ⟨hFront, hBack⟩
      rw [List.pairwise_append, List.pairwise_append] at hSorted
      by_cases hFull : (children[keys.position
          s.key]).keys.entries.length = 2 * t - 1
      · exact keeps_half hDegree hCarries ih hTree hRoom hP
          hChild hFull hSorted.1.2.1 hFront hBack kernel
      · exact keeps_child hCarries ih hTree hP hChild hFull
          hSorted.1.2.1 hFront hBack kernel

end Inner

/-
  The insertion into a table with a full root is the one into
  a new parent of it.
-/
theorem insert_full
    {t h kernel : Nat}
    {root : TreeNode h}
    (hFull : root.keys.entries.length = 2 * t - 1) :
    insert t ⟨some ⟨h, root⟩, kernel⟩ s =
      (insertNonFull t s (h + 1)
        (newKeys t
          (handlePageTableAllocations kernel 4096).1, [root])
        (handlePageTableAllocations kernel 4096).2).map
          (fun r => ⟨some ⟨h + 1, r.1⟩, r.2⟩) := by
  have hPosition : (newKeys t
      (handlePageTableAllocations kernel 4096).1).position
        s.key = 0 := rfl
  simp only [insert, if_pos hFull, insertNonFull, hPosition,
    List.getElem?_cons_zero]
  cases splitChild t (handlePageTableAllocations
      (handlePageTableAllocations kernel 4096).2 4096).1
      root with
  | none => rfl
  | some halves =>
      simp only
      cases (newKeys t (handlePageTableAllocations kernel
          4096).1).insertAt 0 halves.2.1 with
      | none => rfl
      | some keys =>
          simp only [List.take_zero, List.nil_append,
            List.drop_succ_cons, List.drop_zero]
          split
          · rw [Option.map_map]
            rfl
          · rw [Option.map_map]
            rfl

end RangeTable

end Virtuoso
