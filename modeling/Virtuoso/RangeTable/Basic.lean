import Mathlib.Data.List.DropRight
import Virtuoso.PageTable.Basic

/-
  The range table of `rangetable_btree.cc`: a B-tree whose
  keys are address ranges.

  `TreeNode h` is a node whose leaves are `h` levels below
  it. The array of keys and values of a node is split after
  its `n` keys: `beyond` holds the slots that a shift or a
  split left behind, which `search` can still read. A read
  or a write outside the array has no outcome.

  Key definitions include:
    * `RangeTable.TreeNode`
    * `RangeTable.lookup`
-/

namespace Virtuoso

namespace RangeTable

/- What is stored for a range. -/
structure RangeEntry where
  offset : Nat
deriving DecidableEq, Repr

/- One position of the arrays `keys` and `values`. -/
structure Slot where
  key : Nat × Nat
  value : RangeEntry
deriving DecidableEq, Repr

/- A slot that was never written. -/
def Slot.unused : Slot :=
  ⟨(0, 0), ⟨0⟩⟩

/- The arrays of a node, with `n = entries.length`. -/
structure Keys where
  entries : List Slot
  beyond : List Slot
  emulatedPpn : Nat
deriving DecidableEq, Repr

/- A node with its children. -/
def TreeNode :
    Nat → Type
| 0 => Keys
| h + 1 => Keys × List (TreeNode h)

/- The keys of a node, be it a leaf or not. -/
def TreeNode.keys :
    {h : Nat} → TreeNode h → Keys
| 0, node => node
| _ + 1, node => node.1

/- `TreeNode::TreeNode`. -/
def newKeys (t emulatedPpn : Nat) : Keys :=
  ⟨[], List.replicate (2 * t - 1) Slot.unused, emulatedPpn⟩

/- The order of `std::pair`. -/
def keyLt (k k' : Nat × Nat) : Bool :=
  decide (k.1 < k'.1 ∨ k.1 = k'.1 ∧ k.2 < k'.2)

/- The index at which the scan of `search` stops. -/
def Keys.scan (keys : Keys) (a : Nat) : Nat :=
  (keys.entries.takeWhile (fun s => decide (s.key.2 < a))).length

/- The address lies in the range of the slot. -/
def Slot.Contains (s : Slot) (a : Nat) : Prop :=
  s.key.1 ≤ a ∧ a < s.key.2

instance (s : Slot) (a : Nat) : Decidable (s.Contains a) :=
  inferInstanceAs (Decidable (_ ∧ _))

/- The addresses accessed by the scan. -/
def Keys.accesses (keys : Keys) (a : Nat) : List Nat :=
  (List.range (keys.scan a)).map
    (fun i => keys.emulatedPpn * 4096 + i * 24)

/-
  `TreeNode::search`: the node and the index, or null, with
  the accessed addresses.
-/
def search
    (a : Nat) :
    (h : Nat) → TreeNode h → Option (Option (Keys × Nat) × List Nat)
| 0, keys =>
    match (keys.entries ++ keys.beyond)[keys.scan a]? with
    | none => none
    | some s =>
        if s.Contains a then
          some (some (keys, keys.scan a), keys.accesses a)
        else
          some (none, keys.accesses a)
| h + 1, (keys, children) =>
    match (keys.entries ++ keys.beyond)[keys.scan a]? with
    | none => none
    | some s =>
        if s.Contains a then
          some (some (keys, keys.scan a), keys.accesses a)
        else
          match children[keys.scan a]? with
          | none => none
          | some child =>
              (search a h child).map (fun r =>
                (r.1, keys.accesses a ++ r.2))

/- The index `i + 1` after the scan from the right. -/
def Keys.position (keys : Keys) (k : Nat × Nat) : Nat :=
  (keys.entries.rdropWhile (fun s => keyLt k s.key)).length

/- Shift the keys from an index on and write one there. -/
def Keys.insertAt
    (keys : Keys)
    (p : Nat)
    (s : Slot) :
    Option Keys :=
  match keys.beyond with
  | [] => none
  | _ :: beyond =>
      some ⟨keys.entries.take p ++ s :: keys.entries.drop p,
        beyond, keys.emulatedPpn⟩

/-
  The arrays of a full child and of its new sibling after a
  split, with the key between them. The child keeps what it
  had beyond its new end.
-/
def Keys.split
    (t emulatedPpn : Nat)
    (keys : Keys) :
    Option (Keys × Slot × Keys) :=
  match keys.entries.drop (t - 1) with
  | [] => none
  | median :: upper =>
      some (⟨keys.entries.take (t - 1),
          median :: upper ++ keys.beyond, keys.emulatedPpn⟩,
        median,
        ⟨upper, List.replicate t Slot.unused, emulatedPpn⟩)

/- The child in `TreeNode::splitChild`. -/
def splitChild
    (t emulatedPpn : Nat) :
    {h : Nat} → TreeNode h → Option (TreeNode h × Slot × TreeNode h)
| 0, keys => Keys.split t emulatedPpn keys
| _ + 1, (keys, children) =>
    (Keys.split t emulatedPpn keys).map (fun r =>
      ((r.1, children.take t), r.2.1, (r.2.2, children.drop t)))

/-
  `TreeNode::insertNonFull`, with the kernel address of the
  allocator. The parent's part of `splitChild` is the write
  of the key between the two halves.
-/
def insertNonFull
    (t : Nat)
    (s : Slot) :
    (h : Nat) → TreeNode h → Nat → Option (TreeNode h × Nat)
| 0, keys, kernel =>
    match Keys.insertAt keys (Keys.position keys s.key) s with
    | none => none
    | some keys' => some (keys', kernel)
| h + 1, (keys, children), kernel =>
    let p := keys.position s.key
    match children[p]? with
    | none => none
    | some child =>
        if child.keys.entries.length = 2 * t - 1 then
          let allocated :=
            handlePageTableAllocations kernel 4096
          match splitChild t allocated.1 child with
          | none => none
          | some (left, median, right) =>
              match keys.insertAt p median with
              | none => none
              | some keys' =>
                  if keyLt median.key s.key then
                    (insertNonFull t s h right
                        allocated.2).map (fun r =>
                      ((keys', children.take p ++
                        left :: r.1 :: children.drop (p + 1)),
                        r.2))
                  else
                    (insertNonFull t s h left
                        allocated.2).map (fun r =>
                      ((keys', children.take p ++
                        r.1 :: right ::
                          children.drop (p + 1)), r.2))
        else
          (insertNonFull t s h child kernel).map (fun r =>
            ((keys, children.take p ++
              r.1 :: children.drop (p + 1)), r.2))

/- The root with its height, and the allocator. -/
structure RangeTableBtree where
  root : Option ((h : Nat) × TreeNode h)
  kernel : Nat

/- A table without a range. -/
def construct (kernel : Nat) : RangeTableBtree :=
  ⟨none, kernel⟩

/- `RangeTableBtree::insert`. -/
def insert
    (t : Nat)
    (table : RangeTableBtree)
    (s : Slot) :
    Option RangeTableBtree :=
  match table.root with
  | none =>
      let allocated :=
        handlePageTableAllocations table.kernel 4096
      match (newKeys t allocated.1).insertAt 0 s with
      | none => none
      | some keys => some ⟨some ⟨0, keys⟩, allocated.2⟩
  | some ⟨h, root⟩ =>
      if root.keys.entries.length = 2 * t - 1 then
        let parent :=
          handlePageTableAllocations table.kernel 4096
        let sibling :=
          handlePageTableAllocations parent.2 4096
        match splitChild t sibling.1 root with
        | none => none
        | some (left, median, right) =>
            match (newKeys t parent.1).insertAt 0 median with
            | none => none
            | some keys =>
                if keyLt median.key s.key then
                  (insertNonFull t s h right sibling.2).map
                    (fun r => ⟨some ⟨h + 1,
                      (keys, [left, r.1])⟩, r.2⟩)
                else
                  (insertNonFull t s h left sibling.2).map
                    (fun r => ⟨some ⟨h + 1,
                      (keys, [r.1, right])⟩, r.2⟩)
      else
        (insertNonFull t s h root table.kernel).map
          (fun r => ⟨some ⟨h, r.1⟩, r.2⟩)

/- `RangeTableBtree::lookup`. -/
def lookup
    (table : RangeTableBtree)
    (a : Nat) :
    Option (Option (Keys × Nat) × List Nat) :=
  match table.root with
  | none => some (none, [])
  | some ⟨h, root⟩ => search a h root

end RangeTable

end Virtuoso
