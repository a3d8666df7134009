import Mathlib.Data.List.Pairwise
import Virtuoso.RangeTable.Insertion

/-
  Ranges that do not overlap. The in-order list of a node
  stays sorted and gains the inserted range, and the slots
  beyond the keys of a node are copies of ranges stored
  elsewhere.

  Main declarations:
    * `RangeTable.Apart`
    * `RangeTable.insertNonFull_spec`
-/

namespace Virtuoso

namespace RangeTable

/- The range of the slot is not empty. -/
def Slot.Proper (s : Slot) : Prop :=
  s.key.1 < s.key.2

/- One range ends before the other starts. -/
def Before (s s' : Slot) : Prop :=
  s.key.2 ≤ s'.key.1

instance (s : Slot) : Decidable s.Proper :=
  inferInstanceAs (Decidable (_ < _))

instance (s s' : Slot) : Decidable (Before s s') :=
  inferInstanceAs (Decidable (_ ≤ _))

/- Proper ranges that do not overlap. -/
structure Apart (inserted : List Slot) : Prop where
  proper : ∀ s ∈ inserted, s.Proper
  pairwise : inserted.Pairwise
    (fun s s' => Before s s' ∨ Before s' s)

theorem Before.trans
    {s s' s'' : Slot}
    (hFirst : Before s s')
    (hProper : s'.Proper)
    (hSecond : Before s' s'') :
    Before s s'' := by
  unfold Before Slot.Proper at *
  omega

variable {s : Slot}

theorem not_before_self
    (hProper : s.Proper) :
    ¬ Before s s := by
  unfold Before Slot.Proper at *
  omega

variable {s s' : Slot}

/- The order of the source, on ranges that do not overlap. -/
theorem keyLt_iff
    (hProper : s.Proper)
    (hProper' : s'.Proper)
    (hApart : Before s s' ∨ Before s' s) :
    keyLt s.key s'.key = true ↔ Before s s' := by
  unfold keyLt Before Slot.Proper at *
  rw [decide_eq_true_eq]
  omega

variable {inserted : List Slot}

/- Two ranges of a set that share an address are the same. -/
theorem Apart.eq_of_contains
    (hApart : Apart inserted)
    (hMem : s ∈ inserted)
    (hMem' : s' ∈ inserted)
    {a : Nat}
    (hContains : s.Contains a)
    (hContains' : s'.Contains a) :
    s = s' := by
  by_contra hNe
  have hSym : Std.Symm (fun s s' => Before s s' ∨ Before s' s) :=
    ⟨fun _ _ => Or.symm⟩
  have hOrder := hApart.pairwise.forall hMem hMem' hNe
  unfold Before Slot.Contains at *
  omega

/- A range before another one is not behind it. -/
theorem le_of_before
    (hProper : s.Proper)
    (hProper' : s'.Proper)
    (hBefore : Before s s') :
    Le s s' :=
  le_of_keyLt ((keyLt_iff hProper hProper'
    (Or.inl hBefore)).mpr hBefore)

theorem before_of_le
    (hProper : s.Proper)
    (hProper' : s'.Proper)
    (hApart : Before s s' ∨ Before s' s)
    (hLe : Le s s') :
    Before s s' := by
  rcases hApart with hBefore | hBefore
  · exact hBefore
  · have hLt := (keyLt_iff hProper' hProper
      (Or.inl hBefore)).mpr hBefore
    exact absurd (hLt.symm.trans hLe) (by decide)

/- An array with copies of other ranges beyond its keys. -/
structure KeysOk
    (t : Nat)
    (inserted own : List Slot)
    (keys : Keys) : Prop where
  length : keys.entries.length + keys.beyond.length = 2 * t - 1
  beyond : ∀ s ∈ keys.beyond, s = Slot.unused ∨
    s ∈ inserted ∧ s ∉ own

/- The shape of a node and of everything below it. -/
def Good
    (t : Nat)
    (inserted : List Slot) :
    (h : Nat) → TreeNode h → Prop
| 0, keys => KeysOk t inserted (Keys.entries keys) keys
| h + 1, (keys, children) =>
    KeysOk t inserted
        (Weave.weave keys.entries (children.map (toList h)))
        keys ∧
      children.length = keys.entries.length + 1 ∧
        ∀ child ∈ children, Good t inserted h child

variable {t : Nat}

theorem KeysOk.mono
    {inserted inserted' own own' : List Slot}
    {keys : Keys}
    (hOk : KeysOk t inserted own keys)
    (hInserted : ∀ s ∈ inserted, s ∈ inserted')
    (hOwn : ∀ s ∈ inserted, s ∈ own' → s ∈ own) :
    KeysOk t inserted' own' keys := by
  refine ⟨hOk.length, ?_⟩
  intro s hMem
  rcases hOk.beyond s hMem with hUnused | ⟨hOld, hNot⟩
  · exact Or.inl hUnused
  · exact Or.inr ⟨hInserted s hOld,
      fun hNew => hNot (hOwn s hOld hNew)⟩

theorem Good.mono
    {inserted inserted' : List Slot}
    (hInserted : ∀ s ∈ inserted, s ∈ inserted')
    {h : Nat}
    {node : TreeNode h}
    (hGood : Good t inserted h node) :
    Good t inserted' h node := by
  induction h with
  | zero => exact KeysOk.mono hGood hInserted (by simp)
  | succ h ih =>
      rcases node with ⟨keys, children⟩
      exact ⟨hGood.1.mono hInserted (by simp), hGood.2.1,
        fun child hMem => ih (hGood.2.2 child hMem)⟩

/- What both halves of a split array satisfy. -/
theorem keysOk_halves
    {inserted own left : List Slot}
    {median : Slot}
    {keys : Keys}
    {lower upper : List Slot}
    (hDegree : 2 ≤ t)
    (hOk : KeysOk t inserted own keys)
    (hEntries : keys.entries = lower ++ median :: upper)
    (hLower : lower.length = t - 1)
    (hUpper : upper.length = t - 1)
    (hOwn : ∀ s ∈ median :: upper, s ∈ inserted)
    (hLeft : ∀ s ∈ median :: upper, s ∉ left)
    (right : List Slot)
    (emulatedPpn : Nat) :
    KeysOk t inserted left
        ⟨lower, median :: upper ++ keys.beyond, keys.emulatedPpn⟩ ∧
      KeysOk t inserted right
        ⟨upper, List.replicate t Slot.unused, emulatedPpn⟩ := by
  have hFull : keys.beyond = [] := by
    have hLength := hOk.length
    rw [hEntries, List.length_append, List.length_cons,
      hLower, hUpper] at hLength
    apply List.eq_nil_of_length_eq_zero
    omega
  refine ⟨⟨?_, ?_⟩, ⟨?_, ?_⟩⟩
  · simp [hLower, hUpper, hFull]
    omega
  · intro s hMem
    rw [hFull, List.append_nil] at hMem
    exact Or.inr ⟨hOwn s hMem, hLeft s hMem⟩
  · simp [hUpper]
    omega
  · intro s hMem
    exact Or.inl (List.eq_of_mem_replicate hMem)

/- Nothing is on both sides of a cut. -/
theorem not_mem_of_sorted
    {left right : List Slot}
    (hSorted : (left ++ right).Pairwise Before)
    (hProper : ∀ s ∈ left ++ right, s.Proper) :
    ∀ s ∈ right, s ∉ left := by
  intro s hRight hLeft
  rw [List.pairwise_append] at hSorted
  exact not_before_self (hProper s (by simp [hLeft]))
    (hSorted.2.2 s hLeft s hRight)

/- A new range and the ranges it does not overlap. -/
structure Fresh
    (inserted : List Slot)
    (s : Slot) : Prop where
  proper : s.Proper
  apart : ∀ x ∈ inserted, Before x s ∨ Before s x

theorem Fresh.not_mem
    (hFresh : Fresh inserted s) :
    s ∉ inserted := by
  intro hMem
  rcases hFresh.apart s hMem with hBefore | hBefore
  · exact not_before_self hFresh.proper hBefore
  · exact not_before_self hFresh.proper hBefore

/- Copies beyond the keys are not of a new range. -/
theorem keysOk_inserted
    {inserted own own' : List Slot}
    {keys keys' : Keys}
    (hFresh : Fresh inserted s)
    (hOk : KeysOk t inserted own keys)
    (hLength : keys'.entries.length + keys'.beyond.length =
      2 * t - 1)
    (hBeyond : ∀ x ∈ keys'.beyond, x ∈ keys.beyond)
    (hInserts : Weave.Inserts Before s own own') :
    KeysOk t (s :: inserted) own' keys' := by
  refine ⟨hLength, ?_⟩
  intro x hMem
  rcases hOk.beyond x (hBeyond x hMem) with
    hUnused | ⟨hOld, hNot⟩
  · exact Or.inl hUnused
  · refine Or.inr ⟨List.mem_cons_of_mem _ hOld, ?_⟩
    rw [hInserts.mem]
    rintro (hEq | hOwn)
    · exact hFresh.not_mem (hEq ▸ hOld)
    · exact hNot hOwn

/- What an insertion into a node achieves. -/
def InsertsInto
    (t : Nat)
    (inserted : List Slot)
    (s : Slot)
    (h : Nat)
    (node node' : TreeNode h) : Prop :=
  Good t (s :: inserted) h node' ∧
    Weave.Inserts Before s (toList h node) (toList h node')

/- Insertions into the nodes of a height succeed. -/
def InsertsAt
    (t : Nat)
    (inserted : List Slot)
    (s : Slot)
    (h : Nat) : Prop :=
  ∀ (node : TreeNode h) (kernel : Nat),
    Good t inserted h node →
      node.keys.entries.length ≠ 2 * t - 1 →
        (toList h node).Pairwise Before →
          (∀ x ∈ toList h node, x ∈ inserted) →
            ∃ node' kernel',
              insertNonFull t s h node kernel =
                  some (node', kernel') ∧
                InsertsInto t inserted s h node node'

/- A good node with ranges that are sorted and inserted. -/
structure Sound
    (t : Nat)
    (inserted : List Slot)
    (own : List Slot)
    (keys : Keys) : Prop where
  ok : KeysOk t inserted own keys
  content : ∀ x ∈ own, x ∈ inserted
  sorted : own.Pairwise Before

theorem tree_of_good
    {h : Nat}
    {node : TreeNode h}
    (hGood : Good t inserted h node)
    (hOwn : ∀ x ∈ toList h node, x ∈ inserted)
    (hSorted : (toList h node).Pairwise Before)
    (least : Nat) :
    Tree t (fun _ => Sound t inserted) least h node := by
  induction h generalizing least with
  | zero => exact ⟨hGood, hOwn, hSorted⟩
  | succ h ih =>
      rcases node with ⟨keys, children⟩
      refine ⟨⟨hGood.1, hOwn, hSorted⟩, hGood.2.1, ?_⟩
      intro child hMem
      have hBelow := Weave.sublist_piece keys.entries
        (by rw [List.length_map]; exact hGood.2.1)
        (List.mem_map_of_mem (f := toList h) hMem)
      exact ih (hGood.2.2 child hMem)
        (fun x hX => hOwn x (hBelow.subset hX))
        (hSorted.sublist hBelow) _

theorem good_of_tree
    {t least : Nat}
    {h : Nat}
    {node : TreeNode h}
    (hTree : Tree t (fun _ => Sound t inserted) least h node) :
    Good t inserted h node := by
  induction h generalizing least with
  | zero => exact hTree.ok
  | succ h ih =>
      rcases node with ⟨keys, children⟩
      exact ⟨hTree.1.ok, hTree.2.1,
        fun child hMem => ih (hTree.2.2 child hMem)⟩

/- A new range is inserted at its place among the others. -/
theorem inserts_before_of_le
    {inserted own own' : List Slot}
    (hProper : ∀ x ∈ inserted, x.Proper)
    (hFresh : Fresh inserted s)
    (hOwn : ∀ x ∈ own, x ∈ inserted)
    (hInserts : Weave.Inserts Le s own own') :
    Weave.Inserts Before s own own' := by
  rcases hInserts with
    ⟨front, behind, hOld, hNew, hFront, hBehind⟩
  refine ⟨front, behind, hOld, hNew, ?_, ?_⟩
  · intro x hMem
    have hIn := hOwn x (by rw [hOld]; simp [hMem])
    exact before_of_le (hProper x hIn) hFresh.proper
      (hFresh.apart x hIn) (hFront x hMem)
  · intro x hMem
    have hIn := hOwn x (by rw [hOld]; simp [hMem])
    exact before_of_le hFresh.proper (hProper x hIn)
      (hFresh.apart x hIn).symm (hBehind x hMem)

theorem carries_sound
    (hDegree : 2 ≤ t)
    (hProper : ∀ x ∈ inserted, x.Proper)
    (hFresh : Fresh inserted s) :
    Carries t s (fun _ => Sound t inserted)
      (fun _ => Sound t (s :: inserted)) where
  arrays := fun hSound => hSound.ok.length
  old := fun hSound =>
    ⟨hSound.ok.mono (fun _ hMem => List.mem_cons_of_mem _ hMem)
        (fun _ _ hMem => hMem),
      fun x hMem => List.mem_cons_of_mem _ (hSound.content x hMem),
      hSound.sorted⟩
  halves := by
    intro least left right median keys lower upper hSound
      hEntries hLower hUpper hRight emulatedPpn
    have hApart := not_mem_of_sorted hSound.sorted
      (fun x hMem => hProper x (hSound.content x hMem))
    have hCut := List.pairwise_append.mp hSound.sorted
    have hMoved : ∀ x ∈ median :: upper, x ∈ median :: right := by
      intro x hMem
      rcases List.mem_cons.mp hMem with hEq | hMem
      · exact hEq ▸ List.mem_cons_self
      · exact List.mem_cons_of_mem _ (hRight x hMem)
    have hHalves := keysOk_halves hDegree hSound.ok hEntries
      hLower hUpper
      (fun x hMem => hSound.content x (List.mem_append_right _
        (hMoved x hMem)))
      (fun x hMem => hApart x (hMoved x hMem)) right
      emulatedPpn
    exact ⟨⟨hHalves.1, fun x hMem => hSound.content x
        (List.mem_append_left _ hMem), hCut.1⟩,
      ⟨hHalves.2, fun x hMem => hSound.content x
        (by simp [hMem]), hCut.2.1.of_cons⟩⟩
  node := by
    intro least own own' keys keys' hSound hInserts _ hLength
      hBeyond
    have hBefore := inserts_before_of_le hProper hFresh
      hSound.content hInserts
    refine ⟨keysOk_inserted hFresh hSound.ok hLength hBeyond
      hBefore, ?_, hBefore.pairwise hSound.sorted⟩
    intro x hMem
    rcases hBefore.mem.mp hMem with hEq | hOld
    · exact hEq ▸ List.mem_cons_self
    · exact List.mem_cons_of_mem _ (hSound.content x hOld)

/-
  Every insertion into a node that is not full succeeds and
  puts the range at its place in the order.
-/
theorem insertNonFull_spec
    (hDegree : 2 ≤ t)
    (hProper : ∀ x ∈ inserted, x.Proper)
    (hFresh : Fresh inserted s)
    (h : Nat) :
    InsertsAt t inserted s h := by
  intro node kernel hGood hRoom hSorted hOwn
  have hLe : (toList h node).Pairwise Le :=
    hSorted.imp_of_mem (fun hMem hMem' =>
      le_of_before (hProper _ (hOwn _ hMem))
        (hProper _ (hOwn _ hMem')))
  rcases insertNonFull_keeps hDegree
      (carries_sound hDegree hProper hFresh) h 0 node kernel
      (tree_of_good hGood hOwn hSorted 0) hRoom hLe with
    ⟨node', kernel', hInsert, hTree, hInserts⟩
  exact ⟨node', kernel', hInsert, good_of_tree hTree,
    inserts_before_of_le hProper hFresh hOwn hInserts⟩

end RangeTable

end Virtuoso
