import Virtuoso.RangeTable.Ranges

/-
  When `search` is right. The scan of a node stops at the
  first key that does not end below the address. It stops too
  early at a key that ends at the address, and it reads
  outside the array when all keys of a full node end below
  the address.

  Main declarations:
    * `RangeTable.Right`
    * `RangeTable.right_iff_clear`
-/

------------------------------------------------------------
-- Steps Of A Search
------------------------------------------------------------

namespace Virtuoso

namespace RangeTable

/- The result of a search is the given range. -/
def Finds
    (result : Option (Option (Keys × Nat) × List Nat))
    (s : Slot) : Prop :=
  ∃ keys i accesses,
    result = some (some (keys, i), accesses) ∧
      (keys.entries ++ keys.beyond)[i]? = some s

/-
  A lookup finds the inserted range that contains the address
  with its value, and null if there is none.
-/
def Right
    (inserted : List Slot)
    (a : Nat)
    (result : Option (Option (Keys × Nat) × List Nat)) :
    Prop :=
  (∀ s ∈ inserted, s.Contains a → Finds result s) ∧
    ((∀ s ∈ inserted, ¬ s.Contains a) →
      ∃ accesses, result = some (none, accesses))

/- Not all keys of a full node end below the address. -/
def Keys.Readable (keys : Keys) (a : Nat) : Prop :=
  keys.scan a < (keys.entries ++ keys.beyond).length

/- The scan stops at a key that contains the address. -/
def Keys.Hits (keys : Keys) (a : Nat) : Prop :=
  ∃ s, keys.entries[keys.scan a]? = some s ∧ s.Contains a

/-
  The scan stops at a key that ends at the address, although
  another range starts there.
-/
def Keys.Blocked
    (inserted : List Slot)
    (a : Nat)
    (keys : Keys) : Prop :=
  (∃ s, keys.entries[keys.scan a]? = some s ∧ s.key.2 = a) ∧
    ∃ x ∈ inserted, x.key.1 = a

/-
  On the way down to the right there is a copy of the range
  of the address directly behind the keys of a node.
-/
def Leftover (a : Nat) : (h : Nat) → TreeNode h → Prop
| 0, keys =>
    ∃ s, (Keys.beyond keys).head? = some s ∧ s.Contains a
| h + 1, (keys, children) =>
    ∃ s, keys.beyond.head? = some s ∧
      (s.Contains a ∨
        ∃ child, children.getLast? = some child ∧
          Leftover a h child)

/-
  The condition under which a search is right: no node on the
  way is exhausted while it is full, and where a key ends at
  the address and another range starts there, a copy of that
  range was left behind below.
-/
def Clear
    (inserted : List Slot)
    (a : Nat) :
    (h : Nat) → TreeNode h → Prop
| 0, keys =>
    Keys.Readable keys a ∧ ¬ Keys.Blocked inserted a keys
| h + 1, (keys, children) =>
    keys.Readable a ∧
      (¬ keys.Hits a →
        ∃ child, children[keys.scan a]? = some child ∧
          (keys.Blocked inserted a → Leftover a h child) ∧
          (¬ keys.Blocked inserted a → Clear inserted a h child))

instance
    (keys : Keys)
    (a : Nat) :
    Decidable (keys.Readable a) :=
  inferInstanceAs (Decidable (_ < _))

instance
    (keys : Keys)
    (a : Nat) :
    Decidable (keys.Hits a) :=
  inferInstanceAs (Decidable
    (∃ s ∈ keys.entries[keys.scan a]?, s.Contains a))

instance
    (inserted : List Slot)
    (a : Nat)
    (keys : Keys) :
    Decidable (keys.Blocked inserted a) :=
  inferInstanceAs (Decidable
    ((∃ s ∈ keys.entries[keys.scan a]?, s.key.2 = a) ∧ _))

instance decidableLeftover
    (a : Nat) :
    ∀ h node, Decidable (Leftover a h node)
| 0, keys =>
    inferInstanceAs (Decidable
      (∃ s ∈ (Keys.beyond keys).head?, s.Contains a))
| h + 1, (keys, children) =>
    have := decidableLeftover a h
    inferInstanceAs (Decidable
      (∃ s ∈ keys.beyond.head?, s.Contains a ∨
        ∃ child ∈ children.getLast?, Leftover a h child))

instance decidableClear
    (inserted : List Slot)
    (a : Nat) :
    ∀ h node, Decidable (Clear inserted a h node)
| 0, keys => decidableLeaf keys
| h + 1, (keys, children) =>
    have := decidableClear inserted a h
    inferInstanceAs (Decidable (keys.Readable a ∧
      (¬ keys.Hits a →
        ∃ child ∈ children[keys.scan a]?,
          (keys.Blocked inserted a → Leftover a h child) ∧
          (¬ keys.Blocked inserted a → Clear inserted a h child))))
where
  decidableLeaf (keys : Keys) :
      Decidable (keys.Readable a ∧ ¬ keys.Blocked inserted a) :=
    inferInstance

variable {a : Nat} {keys : Keys} {s : Slot}

/- The keys before the index of the scan end below. -/
theorem below_of_scan
    (hMem : s ∈ keys.entries.take (keys.scan a)) :
    s.key.2 < a := by
  have hTake : keys.entries.take (keys.scan a) =
      keys.entries.takeWhile (fun s => decide (s.key.2 < a)) :=
    (List.prefix_iff_eq_take.mp (List.takeWhile_prefix _)).symm
  rw [hTake] at hMem
  simpa using List.mem_takeWhile_imp hMem

/- The key at the index of the scan does not end below. -/
theorem le_of_scan
    (hSlot : keys.entries[keys.scan a]? = some s) :
    a ≤ s.key.2 := by
  have hJoin : keys.entries.takeWhile
      (fun s => decide (s.key.2 < a)) ++
        keys.entries.dropWhile
          (fun s => decide (s.key.2 < a)) = keys.entries :=
    List.takeWhile_append_dropWhile
  rw [← hJoin, Keys.scan, List.getElem?_append_right
    (Nat.le_refl _), Nat.sub_self,
    ← List.head?_eq_getElem?] at hSlot
  have hNot := List.head?_dropWhile_not
    (fun s : Slot => decide (s.key.2 < a)) keys.entries
  rw [hSlot] at hNot
  simpa using hNot

theorem scan_le
    (keys : Keys)
    (a : Nat) :
    keys.scan a ≤ keys.entries.length :=
  (List.takeWhile_prefix _).length_le

/- The slot that is read at a key of a node. -/
theorem slot_of_key
    (hSlot : keys.entries[keys.scan a]? = some s) :
    (keys.entries ++ keys.beyond)[keys.scan a]? = some s := by
  rw [List.getElem?_append_left
    (List.getElem?_eq_some_iff.mp hSlot).1]
  exact hSlot

/- The slot that is read behind the keys of a node. -/
theorem slot_of_exhausted
    (hAll : keys.entries[keys.scan a]? = none) :
    (keys.entries ++ keys.beyond)[keys.scan a]? =
      keys.beyond.head? := by
  have hLe := scan_le keys a
  rw [List.getElem?_eq_none_iff] at hAll
  have hEq : keys.scan a = keys.entries.length := by omega
  rw [hEq, List.getElem?_append_right (Nat.le_refl _),
    Nat.sub_self, List.head?_eq_getElem?]

theorem readable_iff :
    keys.Readable a ↔
      ∃ s, (keys.entries ++ keys.beyond)[keys.scan a]? =
        some s := by
  unfold Keys.Readable
  constructor
  · intro hLt
    exact ⟨_, List.getElem?_eq_getElem hLt⟩
  · rintro ⟨s, hSlot⟩
    exact (List.getElem?_eq_some_iff.mp hSlot).1

variable {h : Nat}

/- A search ends at a slot that contains the address. -/
theorem search_of_contains
    (node : TreeNode h)
    (hSlot : (node.keys.entries ++
      node.keys.beyond)[node.keys.scan a]? = some s)
    (hContains : s.Contains a) :
    search a h node =
      some (some (node.keys, node.keys.scan a),
        node.keys.accesses a) := by
  cases h with
  | zero =>
      change (Keys.entries node ++
        Keys.beyond node)[Keys.scan node a]? = some s at hSlot
      simp only [search, hSlot, if_pos hContains]
      rfl
  | succ h =>
      rcases node with ⟨keys, children⟩
      change (keys.entries ++
        keys.beyond)[keys.scan a]? = some s at hSlot
      simp only [search, hSlot, if_pos hContains]
      rfl

/- A search of an exhausted full node has no outcome. -/
theorem search_of_unreadable
    (node : TreeNode h)
    (hUnreadable : ¬ node.keys.Readable a) :
    search a h node = none := by
  rw [readable_iff, not_exists] at hUnreadable
  have hNone := Option.eq_none_iff_forall_ne_some.mpr hUnreadable
  cases h with
  | zero =>
      change (Keys.entries node ++
        Keys.beyond node)[Keys.scan node a]? = none at hNone
      simp only [search, hNone]
  | succ h =>
      rcases node with ⟨keys, children⟩
      change (keys.entries ++
        keys.beyond)[keys.scan a]? = none at hNone
      simp only [search, hNone]

theorem search_leaf
    {keys : TreeNode 0}
    (hSlot : (Keys.entries keys ++
      Keys.beyond keys)[Keys.scan keys a]? = some s)
    (hContains : ¬ s.Contains a) :
    search a 0 keys = some (none, Keys.accesses keys a) := by
  simp only [search, hSlot, if_neg hContains]

variable {children : List (TreeNode h)}

/- Otherwise it goes on in a child. -/
theorem search_child
    {child : TreeNode h}
    (hSlot : (keys.entries ++ keys.beyond)[keys.scan a]? = some s)
    (hContains : ¬ s.Contains a)
    (hChild : children[keys.scan a]? = some child) :
    search a (h + 1) (keys, children) =
      (search a h child).map (fun r =>
        (r.1, keys.accesses a ++ r.2)) := by
  simp only [search, hSlot, if_neg hContains, hChild]

theorem finds_map_iff
    {result : Option (Option (Keys × Nat) × List Nat)}
    {accesses : List Nat}
    {s : Slot} :
    Finds (result.map (fun r => (r.1, accesses ++ r.2))) s ↔
      Finds result s := by
  constructor
  · rintro ⟨keys, i, accesses', hResult, hSlot⟩
    rcases Option.map_eq_some_iff.mp hResult with
      ⟨r, hEq, hPair⟩
    rw [Prod.mk.injEq] at hPair
    exact ⟨keys, i, r.2, by rw [hEq, ← hPair.1], hSlot⟩
  · rintro ⟨keys, i, accesses', hResult, hSlot⟩
    exact ⟨keys, i, accesses ++ accesses', by rw [hResult]; rfl,
      hSlot⟩

theorem null_map_iff
    {result : Option (Option (Keys × Nat) × List Nat)}
    {accesses : List Nat} :
    (∃ accesses',
        result.map (fun r => (r.1, accesses ++ r.2)) =
          some (none, accesses')) ↔
      ∃ accesses', result = some (none, accesses') := by
  constructor
  · rintro ⟨accesses', hResult⟩
    rcases Option.map_eq_some_iff.mp hResult with
      ⟨r, hEq, hPair⟩
    rw [Prod.mk.injEq] at hPair
    exact ⟨r.2, by rw [hEq, ← hPair.1]⟩
  · rintro ⟨accesses', hResult⟩
    exact ⟨accesses ++ accesses', by rw [hResult]; rfl⟩

variable {t : Nat} {inserted : List Slot}

theorem not_contains_unused :
    ¬ Slot.unused.Contains a := by
  simp [Slot.Contains, Slot.unused]

/- Every slot of a node is unused or was inserted. -/
theorem mem_inserted_of_slot
    {own : List Slot}
    (hOk : KeysOk t inserted own keys)
    (hOwn : ∀ s ∈ keys.entries, s ∈ inserted)
    {i : Nat}
    (hSlot : (keys.entries ++ keys.beyond)[i]? = some s)
    (hContains : s.Contains a) :
    s ∈ inserted := by
  rcases List.mem_append.mp (List.mem_of_getElem? hSlot) with
    hMem | hMem
  · exact hOwn s hMem
  · rcases hOk.beyond s hMem with hUnused | ⟨hIn, -⟩
    · rw [hUnused] at hContains
      exact absurd hContains not_contains_unused
    · exact hIn

/- The child at the index of the scan. -/
theorem exists_child
    (hCount : children.length = keys.entries.length + 1)
    (a : Nat) :
    ∃ child, children[keys.scan a]? = some child := by
  have hLe := scan_le keys a
  exact ⟨_, List.getElem?_eq_getElem (by omega)⟩

variable {node : TreeNode h}

/- Without a range at the address, null is the result. -/
theorem null_iff_clear
    (hProper : ∀ s ∈ inserted, s.Proper)
    (hNone : ∀ s ∈ inserted, ¬ s.Contains a)
    (hGood : Good t inserted h node)
    (hOwn : ∀ s ∈ toList h node, s ∈ inserted) :
    (∃ accesses, search a h node = some (none, accesses)) ↔
      Clear inserted a h node := by
  have hFree : ∀ keys : Keys, ¬ keys.Blocked inserted a := by
    rintro keys ⟨-, x, hMem, hStart⟩
    have hX := hProper x hMem
    apply hNone x hMem
    unfold Slot.Proper at hX
    unfold Slot.Contains
    omega
  induction h with
  | zero =>
      by_cases hReadable : Keys.Readable node a
      · rcases readable_iff.mp hReadable with ⟨s, hSlot⟩
        have hMiss : ¬ s.Contains a := fun hContains =>
          hNone s (mem_inserted_of_slot hGood hOwn hSlot
            hContains) hContains
        rw [search_leaf hSlot hMiss]
        exact ⟨fun _ => ⟨hReadable, hFree node⟩, fun _ => ⟨_, rfl⟩⟩
      · rw [search_of_unreadable (h := 0) node hReadable]
        constructor
        · rintro ⟨accesses, hResult⟩
          cases hResult
        · intro hClear
          exact absurd hClear.1 hReadable
  | succ h ih =>
      rcases node with ⟨keys, children⟩
      by_cases hReadable : keys.Readable a
      · rcases readable_iff.mp hReadable with ⟨s, hSlot⟩
        have hOwnKeys : ∀ x ∈ keys.entries, x ∈ inserted :=
          fun x hMem =>
            hOwn x ((Weave.sublist_weave _ _).subset hMem)
        have hMiss : ¬ s.Contains a := fun hContains =>
          hNone s (mem_inserted_of_slot hGood.1 hOwnKeys hSlot
            hContains) hContains
        have hNoHit : ¬ keys.Hits a := by
          rintro ⟨x, hX, hContains⟩
          exact hNone x (hOwnKeys x (List.mem_of_getElem? hX))
            hContains
        rcases exists_child hGood.2.1 a with ⟨child, hChild⟩
        have hList := toList_eq_child hGood.2.1
          (scan_le keys a) hChild
        have hBelow := ih
          (hGood.2.2 child (List.mem_of_getElem? hChild))
          (fun x hMem => hOwn x (by simp [hList, hMem]))
        rw [search_child hSlot hMiss hChild]
        refine (null_map_iff.trans hBelow).trans ?_
        constructor
        · intro hClear
          exact ⟨hReadable, fun _ => ⟨child, hChild,
            fun hBlocked => absurd hBlocked (hFree keys),
            fun _ => hClear⟩⟩
        · intro hClear
          rcases hClear.2 hNoHit with
            ⟨child', hChild', -, hClear'⟩
          rw [hChild, Option.some.injEq] at hChild'
          exact hChild' ▸ hClear' (hFree keys)
      · rw [search_of_unreadable (h := h + 1)
          (keys, children) hReadable]
        constructor
        · rintro ⟨accesses, hResult⟩
          cases hResult
        · intro hClear
          exact absurd hClear.1 hReadable

------------------------------------------------------------
-- Addresses With A Range
------------------------------------------------------------

variable {r : Slot}

/- A search that ends at a slot finds what is there. -/
theorem finds_slot_iff
    {i : Nat}
    {accesses : List Nat}
    (hSlot : (keys.entries ++ keys.beyond)[i]? = some s) :
    Finds (some (some (keys, i), accesses)) r ↔ s = r := by
  constructor
  · rintro ⟨keys', i', accesses', hResult, hSlot'⟩
    cases hResult
    rw [hSlot] at hSlot'
    exact Option.some.inj hSlot'
  · intro hEq
    exact ⟨keys, i, accesses, rfl, hEq ▸ hSlot⟩

theorem not_finds_null
    {accesses : List Nat} :
    ¬ Finds (some (none, accesses)) r := by
  rintro ⟨keys, i, accesses', hResult, -⟩
  cases hResult

theorem not_finds_none :
    ¬ Finds none r := by
  rintro ⟨keys, i, accesses', hResult, -⟩
  cases hResult

/- What is read behind keys that all end below. -/
theorem slot_of_below
    (keys : Keys)
    (hBelow : ∀ s ∈ keys.entries, s.key.2 < a) :
    (keys.entries ++ keys.beyond)[keys.scan a]? =
      keys.beyond.head? := by
  apply slot_of_exhausted
  apply Option.eq_none_iff_forall_ne_some.mpr
  intro s hSlot
  have hLe := le_of_scan hSlot
  have hLt := hBelow s (List.mem_of_getElem? hSlot)
  omega

/- A search without a slot to read finds nothing. -/
theorem not_finds_of_slot
    (node : TreeNode h)
    (hSlot : (node.keys.entries ++
      node.keys.beyond)[node.keys.scan a]? = none) :
    ¬ Finds (search a h node) r := by
  rw [search_of_unreadable node]
  · exact not_finds_none
  · rw [readable_iff, hSlot]
    rintro ⟨s, hSome⟩
    cases hSome

/- A slot of a node that contains the address is the range. -/
theorem finds_of_slot
    (hApart : Apart inserted)
    (hIn : r ∈ inserted)
    (hRange : r.Contains a)
    (node : TreeNode h)
    (hSlot : (node.keys.entries ++
      node.keys.beyond)[node.keys.scan a]? = some s)
    (hMem : s ∈ inserted)
    (hContains : s.Contains a) :
    Finds (search a h node) r := by
  rw [search_of_contains node hSlot hContains]
  exact (finds_slot_iff hSlot).mpr
    (hApart.eq_of_contains hMem hIn hContains hRange)

/- The last child of an exhausted node. -/
theorem child_of_below
    (hCount : children.length = keys.entries.length + 1)
    (hBelow : ∀ s ∈ keys.entries, s.key.2 < a) :
    children[keys.scan a]? = children.getLast? := by
  have hAll : keys.scan a = keys.entries.length := by
    unfold Keys.scan
    rw [List.takeWhile_eq_self_iff.mpr]
    intro s hMem
    simpa using hBelow s hMem
  rw [hAll, List.getLast?_eq_getElem?, hCount]
  rfl

/-
  In a subtree that ends below the address, only a copy left
  behind can be found.
-/
theorem finds_iff_leftover
    (hApart : Apart inserted)
    (hIn : r ∈ inserted)
    (hRange : r.Contains a)
    (hGood : Good t inserted h node)
    (hOwn : ∀ s ∈ toList h node, s ∈ inserted)
    (hBelow : ∀ s ∈ toList h node, s.key.2 < a) :
    Finds (search a h node) r ↔ Leftover a h node := by
  induction h with
  | zero =>
      have hSlot := slot_of_below node hBelow
      cases hHead : (Keys.beyond node).head? with
      | none =>
          refine iff_of_false (not_finds_of_slot (h := 0) node
            (hSlot.trans hHead)) ?_
          rintro ⟨s, hSome, -⟩
          exact absurd (hHead.symm.trans hSome) (by simp)
      | some s =>
          rw [hHead] at hSlot
          by_cases hContains : s.Contains a
          · exact iff_of_true
              (finds_of_slot hApart hIn hRange (h := 0) node
                hSlot (mem_inserted_of_slot hGood hOwn hSlot
                  hContains) hContains)
              ⟨s, hHead, hContains⟩
          · rw [search_leaf hSlot hContains]
            refine iff_of_false not_finds_null ?_
            rintro ⟨x, hSome, hX⟩
            rw [hHead] at hSome
            exact hContains (Option.some.inj hSome ▸ hX)
  | succ h ih =>
      rcases node with ⟨keys, children⟩
      have hSub := (Weave.sublist_weave keys.entries
        (children.map (toList h))).subset
      have hSlot := slot_of_below keys
        (fun s hMem => hBelow s (hSub hMem))
      have hLast := child_of_below hGood.2.1
        (fun s hMem => hBelow s (hSub hMem))
      rcases exists_child hGood.2.1 a with ⟨child, hChild⟩
      have hList := toList_eq_child hGood.2.1
        (scan_le keys a) hChild
      cases hHead : keys.beyond.head? with
      | none =>
          refine iff_of_false (not_finds_of_slot (h := h + 1)
            (keys, children) (hSlot.trans hHead)) ?_
          rintro ⟨s, hSome, -⟩
          exact absurd (hHead.symm.trans hSome) (by simp)
      | some s =>
          rw [hHead] at hSlot
          by_cases hContains : s.Contains a
          · exact iff_of_true
              (finds_of_slot hApart hIn hRange (h := h + 1)
                (keys, children) hSlot
                (mem_inserted_of_slot hGood.1
                  (fun x hMem => hOwn x (hSub hMem)) hSlot
                  hContains) hContains)
              ⟨s, hHead, Or.inl hContains⟩
          · rw [search_child hSlot hContains hChild]
            refine (finds_map_iff.trans (ih
              (hGood.2.2 child (List.mem_of_getElem? hChild))
              (fun x hMem => hOwn x (by simp [hList, hMem]))
              (fun x hMem =>
                hBelow x (by simp [hList, hMem])))).trans ?_
            constructor
            · intro hLeft
              exact ⟨s, hHead, Or.inr
                ⟨child, hLast.symm.trans hChild, hLeft⟩⟩
            · rintro ⟨x, hSome, hX | ⟨child', hLast', hLeft⟩⟩
              · rw [hHead] at hSome
                exact absurd (Option.some.inj hSome ▸ hX) hContains
              · rw [← hLast, hChild] at hLast'
                exact Option.some.inj hLast' ▸ hLeft

/-
  How the key at which the scan stops lies to the range that
  contains the address.
-/
theorem stop_cases
    (hApart : Apart inserted)
    (hIn : r ∈ inserted)
    (hRange : r.Contains a)
    {e : Slot}
    (hE : e ∈ inserted)
    (hSlot : keys.entries[keys.scan a]? = some e) :
    e = r ∨
      (Before e r ∧ e.key.2 = a ∧ ¬ e.Contains a ∧
        keys.Blocked inserted a) ∨
      (Before r e ∧ ¬ e.Contains a ∧
        ¬ keys.Blocked inserted a) := by
  have hLe := le_of_scan hSlot
  have hProperE := hApart.proper e hE
  by_cases hEq : e = r
  · exact Or.inl hEq
  right
  have hSym : Std.Symm (fun s s' => Before s s' ∨ Before s' s) :=
    ⟨fun _ _ => Or.symm⟩
  have hOrder := hApart.pairwise.forall hE hIn hEq
  unfold Slot.Contains at hRange
  unfold Slot.Proper at hProperE
  rcases hOrder with hBefore | hAfter
  · left
    have hUnfold := hBefore
    unfold Before at hUnfold
    have hEnd : e.key.2 = a := by omega
    refine ⟨hBefore, hEnd, ?_, ⟨e, hSlot, hEnd⟩, r, hIn, by omega⟩
    unfold Slot.Contains
    omega
  · right
    have hUnfold := hAfter
    unfold Before at hUnfold
    refine ⟨hAfter, ?_, ?_⟩
    · unfold Slot.Contains
      omega
    · rintro ⟨⟨e', hSlot', hEnd⟩, -⟩
      rw [hSlot, Option.some.injEq] at hSlot'
      subst hSlot'
      omega

/- The keys from the index of the scan on. -/
theorem of_mem_drop
    (hProper : ∀ s ∈ keys.entries, s.Proper)
    (hSorted : keys.entries.Pairwise Before)
    {s x : Slot}
    (hMem : s ∈ keys.entries.drop (keys.scan a))
    (hOrder : x = s ∨ Before s x) :
    ∃ e, keys.entries[keys.scan a]? = some e ∧
      (x = e ∨ Before e x) := by
  cases hDrop : keys.entries.drop (keys.scan a) with
  | nil =>
      rw [hDrop] at hMem
      cases hMem
  | cons e rest =>
      have hSlot : keys.entries[keys.scan a]? = some e := by
        rw [← List.head?_drop, hDrop]
        rfl
      refine ⟨e, hSlot, ?_⟩
      have hTail := hSorted.sublist
        (List.drop_sublist (keys.scan a) keys.entries)
      rw [hDrop, List.pairwise_cons] at hTail
      have hProperS := hProper s (List.mem_of_mem_drop hMem)
      rw [hDrop] at hMem
      rcases List.mem_cons.mp hMem with hEq | hRest
      · exact hEq ▸ hOrder
      · rcases hOrder with hEq | hBefore
        · exact Or.inr (hEq ▸ hTail.1 s hRest)
        · exact Or.inr ((hTail.1 s hRest).trans hProperS hBefore)

/- Where the range of an address is, seen from a leaf. -/
theorem range_in_leaf
    (hProper : ∀ s ∈ keys.entries, s.Proper)
    (hSorted : keys.entries.Pairwise Before)
    (hRange : r.Contains a)
    (hMem : r ∈ keys.entries) :
    ∃ e, keys.entries[keys.scan a]? = some e ∧
      (r = e ∨ Before e r) := by
  rw [← List.take_append_drop (keys.scan a) keys.entries,
    List.mem_append] at hMem
  rcases hMem with hBelow | hBehind
  · have hLt := below_of_scan hBelow
    unfold Slot.Contains at hRange
    omega
  · exact of_mem_drop hProper hSorted hBehind (Or.inl rfl)

/- Where the range of an address is, seen from a node. -/
theorem range_in_node
    {child : TreeNode h}
    (hProper : ∀ s ∈ keys.entries, s.Proper)
    (hCount : children.length = keys.entries.length + 1)
    (hChild : children[keys.scan a]? = some child)
    (hSorted : (toList (h + 1) (keys, children)).Pairwise Before)
    (hRange : r.Contains a)
    (hMem : r ∈ toList (h + 1) (keys, children)) :
    r ∈ toList h child ∨
      ∃ e, keys.entries[keys.scan a]? = some e ∧
        (r = e ∨ Before e r) := by
  have hSortedKeys : keys.entries.Pairwise Before :=
    hSorted.sublist (Weave.sublist_weave _ _)
  rw [toList_eq_child hCount (scan_le keys a) hChild]
    at hSorted hMem
  rw [List.pairwise_append, List.pairwise_append] at hSorted
  rw [List.mem_append, List.mem_append] at hMem
  rcases hMem with (hFront | hHere) | hBack
  · rcases Weave.mem_front hSorted.1.1 hFront with
      ⟨e, hE, hOrder⟩
    have hLt := below_of_scan hE
    have hProperE := hProper e (List.mem_of_mem_take hE)
    unfold Slot.Contains at hRange
    unfold Slot.Proper at hProperE
    rcases hOrder with hEq | hBefore
    · rw [hEq] at hRange
      omega
    · unfold Before at hBefore
      omega
  · exact Or.inl hHere
  · rcases Weave.mem_back hSorted.2.1 hBack with
      ⟨e, hE, hOrder⟩
    exact Or.inr (of_mem_drop hProper hSortedKeys hE hOrder)

/- A child before a key ends before the key. -/
theorem child_before_key
    {child : TreeNode h}
    {e x : Slot}
    (hCount : children.length = keys.entries.length + 1)
    (hChild : children[keys.scan a]? = some child)
    (hSorted : (toList (h + 1) (keys, children)).Pairwise Before)
    (hSlot : keys.entries[keys.scan a]? = some e)
    (hMem : x ∈ toList h child) :
    Before x e := by
  rw [toList_eq_child hCount (scan_le keys a) hChild,
    List.pairwise_append] at hSorted
  refine hSorted.2.2 x (by simp [hMem]) e ?_
  have hLt := (List.getElem?_eq_some_iff.mp hSlot).1
  have hDrop : keys.entries.drop (keys.scan a) =
      e :: keys.entries.drop (keys.scan a + 1) := by
    rw [List.drop_eq_getElem_cons hLt]
    rw [List.getElem?_eq_getElem hLt] at hSlot
    rw [Option.some.inj hSlot]
  cases hRest : (children.drop (keys.scan a + 1)).map
      (toList h) with
  | nil =>
      have hLength := congrArg List.length hRest
      simp only [List.length_map, List.length_drop,
        List.length_nil] at hLength
      omega
  | cons c cs =>
      unfold backOf
      rw [hDrop, hRest, Weave.back]
      simp

theorem finds_leaf_iff_clear
    (hApart : Apart inserted)
    (hRange : r.Contains a)
    {keys : TreeNode 0}
    (hSorted : (toList 0 keys).Pairwise Before)
    (hOwn : ∀ s ∈ toList 0 keys, s ∈ inserted)
    (hMem : r ∈ toList 0 keys) :
    Finds (search a 0 keys) r ↔ Clear inserted a 0 keys := by
  have hIn := hOwn r hMem
  rcases range_in_leaf
      (fun s hS => hApart.proper s (hOwn s hS)) hSorted hRange
      hMem with ⟨e, hSlot, hOrder⟩
  have hE := hOwn e (List.mem_of_getElem? hSlot)
  have hRead := slot_of_key hSlot
  rcases stop_cases hApart hIn hRange hE hSlot with
    hEq | ⟨-, -, hMiss, hBlocked⟩ | ⟨hAfter, -, -⟩
  · have hContains : e.Contains a := hEq ▸ hRange
    refine iff_of_true (finds_of_slot hApart hIn hRange
      (h := 0) keys hRead hE hContains)
      ⟨readable_iff.mpr ⟨e, hRead⟩, ?_⟩
    rintro ⟨⟨e', hSlot', hEnd⟩, -⟩
    rw [hSlot, Option.some.injEq] at hSlot'
    unfold Slot.Contains at hContains
    rw [hSlot'] at hContains
    omega
  · rw [search_leaf hRead hMiss]
    exact iff_of_false not_finds_null
      (fun hClear => hClear.2 hBlocked)
  · rcases hOrder with hEq | hBefore
    · rw [← hEq] at hAfter
      exact absurd hAfter (not_before_self (hApart.proper r hIn))
    · exact absurd (hAfter.trans (hApart.proper e hE) hBefore)
        (not_before_self (hApart.proper r hIn))

section Inner

variable {h : Nat} {children : List (TreeNode h)}
variable {child : TreeNode h}

/- The search goes on in a child that is clear. -/
theorem finds_child_iff_clear
    (hRead : (keys.entries ++ keys.beyond)[keys.scan a]? = some s)
    (hMiss : ¬ s.Contains a)
    (hNoHit : ¬ keys.Hits a)
    (hFree : ¬ keys.Blocked inserted a)
    (hChild : children[keys.scan a]? = some child)
    (hBelow : Finds (search a h child) r ↔
      Clear inserted a h child) :
    Finds (search a (h + 1) (keys, children)) r ↔
      Clear inserted a (h + 1) (keys, children) := by
  rw [search_child hRead hMiss hChild]
  refine (finds_map_iff.trans hBelow).trans ?_
  constructor
  · intro hClear
    exact ⟨readable_iff.mpr ⟨s, hRead⟩, fun _ =>
      ⟨child, hChild, fun hBlocked => absurd hBlocked hFree,
        fun _ => hClear⟩⟩
  · intro hClear
    rcases hClear.2 hNoHit with ⟨child', hChild', -, hClear'⟩
    rw [hChild, Option.some.injEq] at hChild'
    exact hChild' ▸ hClear' hFree

/- The search goes on in the wrong child. -/
theorem finds_blocked_iff_clear
    (hRead : (keys.entries ++ keys.beyond)[keys.scan a]? = some s)
    (hMiss : ¬ s.Contains a)
    (hNoHit : ¬ keys.Hits a)
    (hBlocked : keys.Blocked inserted a)
    (hChild : children[keys.scan a]? = some child)
    (hLeftover : Finds (search a h child) r ↔ Leftover a h child) :
    Finds (search a (h + 1) (keys, children)) r ↔
      Clear inserted a (h + 1) (keys, children) := by
  rw [search_child hRead hMiss hChild]
  refine (finds_map_iff.trans hLeftover).trans ?_
  constructor
  · intro hLeft
    exact ⟨readable_iff.mpr ⟨s, hRead⟩, fun _ =>
      ⟨child, hChild, fun _ => hLeft,
        fun hFree => absurd hBlocked hFree⟩⟩
  · intro hClear
    rcases hClear.2 hNoHit with ⟨child', hChild', hLeft, -⟩
    rw [hChild, Option.some.injEq] at hChild'
    exact hChild' ▸ hLeft hBlocked

/- All keys of the node end below the address. -/
theorem finds_exhausted_iff_clear
    (hApart : Apart inserted)
    (hRange : r.Contains a)
    (hGood : Good t inserted (h + 1) (keys, children))
    (hIn : r ∈ inserted)
    (hMem : r ∈ toList (h + 1) (keys, children))
    (hSlot : keys.entries[keys.scan a]? = none)
    (hChild : children[keys.scan a]? = some child)
    (hBelow : Finds (search a h child) r ↔
      Clear inserted a h child) :
    Finds (search a (h + 1) (keys, children)) r ↔
      Clear inserted a (h + 1) (keys, children) := by
  have hNoHit : ¬ keys.Hits a := by
    rintro ⟨e, hE, -⟩
    rw [hSlot] at hE
    cases hE
  have hFree : ¬ keys.Blocked inserted a := by
    rintro ⟨⟨e, hE, -⟩, -⟩
    rw [hSlot] at hE
    cases hE
  have hRead := slot_of_exhausted hSlot
  cases hHead : keys.beyond.head? with
  | none =>
      rw [hHead] at hRead
      refine iff_of_false (not_finds_of_slot (h := h + 1)
        (keys, children) hRead) ?_
      intro hClear
      rcases readable_iff.mp hClear.1 with ⟨s, hS⟩
      rw [hRead] at hS
      cases hS
  | some s =>
      rw [hHead] at hRead
      have hMiss : ¬ s.Contains a := by
        intro hContains
        -- A copy of the range is not below its node.
        rcases hGood.1.beyond s (List.mem_of_head? hHead) with
          hUnused | ⟨hS, hNot⟩
        · rw [hUnused] at hContains
          exact not_contains_unused hContains
        · have hEq := hApart.eq_of_contains hS hIn hContains hRange
          exact hNot (hEq ▸ hMem)
      exact finds_child_iff_clear hRead hMiss hNoHit hFree
        hChild hBelow

end Inner

/-
  A range in the tree is found exactly when the way to it is
  clear.
-/
theorem finds_iff_clear
    (hApart : Apart inserted)
    (hRange : r.Contains a)
    (hGood : Good t inserted h node)
    (hSorted : (toList h node).Pairwise Before)
    (hOwn : ∀ s ∈ toList h node, s ∈ inserted)
    (hMem : r ∈ toList h node) :
    Finds (search a h node) r ↔ Clear inserted a h node := by
  induction h with
  | zero =>
      exact finds_leaf_iff_clear hApart hRange hSorted hOwn hMem
  | succ h ih =>
      rcases node with ⟨keys, children⟩
      have hIn := hOwn r hMem
      have hSub := (Weave.sublist_weave keys.entries
        (children.map (toList h))).subset
      rcases exists_child hGood.2.1 a with ⟨child, hChild⟩
      have hList := toList_eq_child hGood.2.1
        (scan_le keys a) hChild
      have hGoodChild :=
        hGood.2.2 child (List.mem_of_getElem? hChild)
      have hOwnChild : ∀ s ∈ toList h child, s ∈ inserted :=
        fun s hS => hOwn s (by simp [hList, hS])
      have hPlace := range_in_node
        (fun s hS => hApart.proper s (hOwn s (hSub hS)))
        hGood.2.1 hChild hSorted hRange hMem
      have hSortedChild : (toList h child).Pairwise Before := by
        rw [hList, List.pairwise_append,
          List.pairwise_append] at hSorted
        exact hSorted.1.2.1
      cases hSlot : keys.entries[keys.scan a]? with
      | none =>
          rw [hSlot] at hPlace
          rcases hPlace with hHere | ⟨e, hE, -⟩
          · exact finds_exhausted_iff_clear hApart hRange
              hGood hIn hMem hSlot hChild
              (ih hGoodChild hSortedChild hOwnChild hHere)
          · cases hE
      | some e =>
          have hE := hOwn e (hSub (List.mem_of_getElem? hSlot))
          have hRead := slot_of_key hSlot
          have hProperE := hApart.proper e hE
          have hNoHit : ¬ e.Contains a → ¬ keys.Hits a := by
            rintro hMiss ⟨e', hE', hContains⟩
            rw [hSlot, Option.some.injEq] at hE'
            exact hMiss (hE' ▸ hContains)
          rcases stop_cases hApart hIn hRange hE hSlot with
            hEq | ⟨-, hEnd, hMiss, hBlocked⟩ |
              ⟨hAfter, hMiss, hFree⟩
          · have hContains : e.Contains a := hEq ▸ hRange
            exact iff_of_true
              (finds_of_slot hApart hIn hRange (h := h + 1)
                (keys, children) hRead hE hContains)
              ⟨readable_iff.mpr ⟨e, hRead⟩, fun hMissed =>
                absurd ⟨e, hSlot, hContains⟩ hMissed⟩
          · apply finds_blocked_iff_clear hRead hMiss
              (hNoHit hMiss) hBlocked hChild
            apply finds_iff_leftover hApart hIn hRange
              hGoodChild hOwnChild
            intro s hS
            have hBefore := child_before_key hGood.2.1 hChild
              hSorted hSlot hS
            unfold Before at hBefore
            unfold Slot.Proper at hProperE
            omega
          · apply finds_child_iff_clear hRead hMiss
              (hNoHit hMiss) hFree hChild
            apply ih hGoodChild hSortedChild hOwnChild
            rcases hPlace with hHere | ⟨e', hE', hOrder⟩
            · exact hHere
            · -- The range is not behind a key behind it.
              rw [hSlot, Option.some.injEq] at hE'
              subst hE'
              rcases hOrder with hEq | hBefore
              · rw [hEq] at hAfter
                exact absurd hAfter (not_before_self hProperE)
              · exact absurd (hAfter.trans hProperE hBefore)
                  (not_before_self (hApart.proper r hIn))

/- A search is right exactly when its way is clear. -/
theorem right_iff_clear
    (hApart : Apart inserted)
    (hGood : Good t inserted h node)
    (hSorted : (toList h node).Pairwise Before)
    (hOwn : ∀ s, s ∈ toList h node ↔ s ∈ inserted)
    (a : Nat) :
    Right inserted a (search a h node) ↔
      Clear inserted a h node := by
  by_cases hSome : ∃ r ∈ inserted, r.Contains a
  · rcases hSome with ⟨r, hIn, hRange⟩
    refine Iff.trans ?_ (finds_iff_clear hApart hRange hGood
      hSorted (fun s hS => (hOwn s).mp hS)
      ((hOwn r).mpr hIn))
    constructor
    · intro hRight
      exact hRight.1 r hIn hRange
    · intro hFinds
      refine ⟨?_, fun hNone => absurd hRange (hNone r hIn)⟩
      intro s hS hContains
      rwa [hApart.eq_of_contains hS hIn hContains hRange]
  · push Not at hSome
    refine Iff.trans ?_ (null_iff_clear hApart.proper hSome
      hGood (fun s hS => (hOwn s).mp hS))
    constructor
    · intro hRight
      exact hRight.2 hSome
    · intro hNull
      exact ⟨fun s hS hContains =>
        absurd hContains (hSome s hS), fun _ => hNull⟩

end RangeTable

end Virtuoso
