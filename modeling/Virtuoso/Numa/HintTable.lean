import Virtuoso.Lib.Run
import Virtuoso.Utopia.RadixWayTable

/-
  The table of node hints, from `numa_hint_table.h`.

  Its tree is that of the radix way table of Utopia, with the
  same levels and the same indices. The entries of its leaves
  have a node instead of a way, and are read and written in
  two bytes. The addresses that model latency, the counters,
  the lock and the test of a leaf are left out.

  Main declarations:
    * `NumaHintLeaf.nodeAt_setEntry`
    * `NumaHintTable.lookup_eq_latest`
-/

namespace Virtuoso

open Utopia

/- The bytes of a leaf whose nodes have so many bits. -/
structure NumaHintLeaf (numaBits : Nat) where
  data : Nat → BitVec 8

namespace NumaHintLeaf

variable {numaBits : Nat}

/- The member `m_bits_per_entry`. -/
def bitsPerEntry (numaBits : Nat) : Nat :=
  1 + numaBits

/- The member `m_leaf_entries`. -/
def leafEntries (numaBits : Nat) : Nat :=
  leafBits / bitsPerEntry numaBits

/- `NumaHintLeaf::NumaHintLeaf`. -/
def construct (numaBits : Nat) : NumaHintLeaf numaBits :=
  ⟨fun _ => 0#8⟩

/- The two bytes of an entry, shifted to its first bit. -/
def rawEntry
    (l : NumaHintLeaf numaBits)
    (index : Nat) : BitVec 32 :=
  let bitPos := index * bitsPerEntry numaBits
  let bytePos := bitPos / 8
  let bitOffset := bitPos % 8
  let first := (l.data bytePos).setWidth 32
  let raw :=
    if bytePos + 1 < leafBytes then
      first ||| (l.data (bytePos + 1)).setWidth 32 <<< 8
    else
      first
  raw >>> bitOffset

/- `NumaHintLeaf::getEntry`: the flag `valid` and the node. -/
def getEntry
    (l : NumaHintLeaf numaBits)
    (index : Nat) : Bool × Nat :=
  if leafEntries numaBits ≤ index then
    (false, 0)
  else
    let entry := l.rawEntry index &&&
      RadixLeaf.mask (bitsPerEntry numaBits)
    (((entry >>> numaBits) &&& 1#32) == 1#32,
      (entry &&& RadixLeaf.mask numaBits).toNat)

/- `NumaHintLeaf::setEntry`. -/
def setEntry
    (l : NumaHintLeaf numaBits)
    (index : Nat)
    (valid : Bool)
    (nodeId : Nat) : NumaHintLeaf numaBits :=
  if leafEntries numaBits ≤ index then
    l
  else
    let entry :=
      (BitVec.ofNat 32 nodeId &&& RadixLeaf.mask numaBits) |||
        (if valid then 1#32 <<< numaBits else 0#32)
    let bitPos := index * bitsPerEntry numaBits
    let bytePos := bitPos / 8
    let bitOffset := bitPos % 8
    let mask := RadixLeaf.mask (bitsPerEntry numaBits)
    let clearMask := ~~~ (mask <<< bitOffset)
    let setMask := (entry &&& mask) <<< bitOffset
    ⟨fun i =>
      if i = bytePos then
        (l.data i &&& clearMask.setWidth 8) ||| setMask.setWidth 8
      else if i = bytePos + 1 ∧ bytePos + 1 < leafBytes then
        (l.data i &&& (clearMask >>> 8).setWidth 8) |||
          (setMask >>> 8).setWidth 8
      else
        l.data i⟩

/- `NumaHintLeaf::clearEntry`. -/
def clearEntry
    (l : NumaHintLeaf numaBits)
    (index : Nat) : NumaHintLeaf numaBits :=
  l.setEntry index false 0

/- The node of a valid entry. -/
def nodeAt
    (l : NumaHintLeaf numaBits)
    (index : Nat) : Option Nat :=
  if (l.getEntry index).1 then
    some (l.getEntry index).2
  else
    none

/- The same bytes as a leaf of ways. -/
def toRadixLeaf (l : NumaHintLeaf numaBits) : RadixLeaf :=
  ⟨numaBits, l.data⟩

variable {l : NumaHintLeaf numaBits} {index : Nat}

@[simp] theorem bitsPerEntry_toRadixLeaf
    (l : NumaHintLeaf numaBits) :
    l.toRadixLeaf.bitsPerEntry = bitsPerEntry numaBits := rfl

@[simp] theorem getLeafEntries_toRadixLeaf
    (l : NumaHintLeaf numaBits) :
    l.toRadixLeaf.getLeafEntries = leafEntries numaBits := rfl

@[simp] theorem wayBits_toRadixLeaf
    (l : NumaHintLeaf numaBits) :
    l.toRadixLeaf.wayBits = numaBits := rfl

@[simp] theorem data_toRadixLeaf
    (l : NumaHintLeaf numaBits) :
    l.toRadixLeaf.data = l.data := rfl

/- No entry with at most eight bits of node has a third byte. -/
theorem not_third
    (hBits : numaBits ≤ 8)
    (pos : Nat) :
    ¬ 16 < pos % 8 + bitsPerEntry numaBits := by
  unfold bitsPerEntry
  omega

theorem rawEntry_eq
    (hBits : numaBits ≤ 8)
    (l : NumaHintLeaf numaBits)
    (index : Nat) :
    l.rawEntry index = l.toRadixLeaf.rawEntry index := by
  have hThird := not_third hBits (index * bitsPerEntry numaBits)
  unfold rawEntry RadixLeaf.rawEntry
  by_cases hNext : index * bitsPerEntry numaBits / 8 + 1 < leafBytes
  · simp [hThird, hNext]
  · simp [hThird, hNext]

theorem nodeAt_eq
    (hBits : numaBits ≤ 8)
    (l : NumaHintLeaf numaBits)
    (index : Nat) :
    l.nodeAt index = l.toRadixLeaf.wayAt index := by
  unfold nodeAt RadixLeaf.wayAt getEntry RadixLeaf.getEntry
    RadixLeaf.entry
  rw [rawEntry_eq hBits, getLeafEntries_toRadixLeaf]
  by_cases hIndex : leafEntries numaBits ≤ index
  · rw [if_pos hIndex, if_pos hIndex]
    rfl
  · rw [if_neg hIndex, if_neg hIndex]
    rfl

theorem toRadixLeaf_setEntry
    (hBits : numaBits ≤ 8)
    (l : NumaHintLeaf numaBits)
    (index : Nat)
    (valid : Bool)
    (nodeId : Nat) :
    (l.setEntry index valid nodeId).toRadixLeaf =
      l.toRadixLeaf.setEntry index valid nodeId := by
  have hThird := not_third hBits (index * bitsPerEntry numaBits)
  unfold setEntry RadixLeaf.setEntry
  rw [getLeafEntries_toRadixLeaf]
  by_cases hIndex : leafEntries numaBits ≤ index
  · rw [if_pos hIndex, if_pos hIndex]
  · rw [if_neg hIndex, if_neg hIndex]
    simp only [bitsPerEntry_toRadixLeaf, wayBits_toRadixLeaf,
      data_toRadixLeaf, hThird, and_false, if_false]
    rfl

/- The nodes of a leaf after a write. -/
theorem nodeAt_setEntry
    {index' : Nat}
    (hBits : numaBits ≤ 8)
    (hIndex : index < leafEntries numaBits)
    (hIndex' : index' < leafEntries numaBits)
    (valid : Bool)
    (nodeId : Nat) :
    (l.setEntry index valid nodeId).nodeAt index' =
      if index' = index then
        if valid then some (nodeId % 2 ^ numaBits) else none
      else
        l.nodeAt index' := by
  have hReach : RadixLeaf.Reaches l.toRadixLeaf.wayBits :=
    Or.inl (hBits.trans (by decide))
  rw [nodeAt_eq hBits, nodeAt_eq hBits,
    toRadixLeaf_setEntry hBits,
    RadixLeaf.wayAt_setEntry hReach hIndex hIndex']
  rfl

theorem nodeAt_construct
    (hBits : numaBits ≤ 8)
    (hIndex : index < leafEntries numaBits) :
    (construct numaBits).nodeAt index = none := by
  rw [nodeAt_eq hBits]
  exact RadixLeaf.wayAt_construct
    (Or.inl (hBits.trans (by decide))) hIndex

end NumaHintLeaf

/- The table of hints, for pages of one size. -/
structure NumaHintTable (numaBits : Nat) where
  pageSizeBits : Nat
  root : Option (Trie Nat (NumaHintLeaf numaBits))

namespace NumaHintTable

variable {numaBits : Nat}

/- `NumaHintTable::NumaHintTable`. -/
def construct
    (numaBits pageSizeBits : Nat) : NumaHintTable numaBits :=
  ⟨pageSizeBits, none⟩

/-
  A table of ways with the same sizes, for the levels and the
  indices, which its constructor and `getLevelIndex` compute
  with the same code.
-/
def shape (t : NumaHintTable numaBits) : RadixWayTable :=
  ⟨t.pageSizeBits, numaBits, none⟩

/- The first index of `computeIndices`. -/
def leafIndex (numaBits vpn : Nat) : Nat :=
  vpn % NumaHintLeaf.leafEntries numaBits

/- `NumaHintTable::lookup`. -/
def lookup
    (t : NumaHintTable numaBits)
    (vpn : Nat) : Option Nat :=
  match t.root with
  | none => none
  | some root =>
      match root.find (t.shape.levelIndices vpn) with
      | none => none
      | some leaf => leaf.nodeAt (leafIndex numaBits vpn)

/- `NumaHintTable::set`. -/
def set
    (t : NumaHintTable numaBits)
    (vpn nodeId : Nat) : NumaHintTable numaBits :=
  let path := t.shape.levelIndices vpn
  let fresh := NumaHintLeaf.construct numaBits
  let root := t.root.getD (Trie.blank fresh path)
  { t with
    root := some (root.upsert fresh
      (fun leaf =>
        leaf.setEntry (leafIndex numaBits vpn) true nodeId)
      path) }

/- `NumaHintTable::clear`. -/
def clear
    (t : NumaHintTable numaBits)
    (vpn : Nat) : NumaHintTable numaBits :=
  { t with
    root := t.root.map (fun root =>
      root.modify
        (fun leaf =>
          leaf.clearEntry (leafIndex numaBits vpn))
        (t.shape.levelIndices vpn)) }

/- The sizes are in range, and the leaves at one depth. -/
structure Sound (t : NumaHintTable numaBits) : Prop where
  bits : numaBits ≤ 8
  page : 12 ≤ t.pageSizeBits
  depth : ∀ root, t.root = some root →
    root.HasDepth t.shape.getNumInternalLevels

variable {t : NumaHintTable numaBits} {vpn vpn' : Nat}

theorem lookup_eq
    (t : NumaHintTable numaBits)
    (vpn : Nat) :
    t.lookup vpn =
      (t.root.bind
        (Trie.find (t.shape.levelIndices vpn))).bind
          (fun leaf => leaf.nodeAt (leafIndex numaBits vpn)) := by
  unfold lookup
  cases t.root with
  | none => rfl
  | some root =>
      cases hLeaf : root.find (t.shape.levelIndices vpn) with
      | none => simp [hLeaf]
      | some leaf => simp [hLeaf]

theorem leafIndex_lt
    (hBits : numaBits ≤ 8)
    (vpn : Nat) :
    leafIndex numaBits vpn < NumaHintLeaf.leafEntries numaBits := by
  apply Nat.mod_lt
  apply Nat.div_pos
  · unfold leafBits NumaHintLeaf.bitsPerEntry
    omega
  · unfold NumaHintLeaf.bitsPerEntry
    omega

/- Pages of one leaf differ by their entries. -/
theorem eq_iff_of_path
    (hSound : t.Sound)
    (hVpn : vpn < 2 ^ (48 - t.pageSizeBits))
    (hVpn' : vpn' < 2 ^ (48 - t.pageSizeBits))
    (hPath : t.shape.levelIndices vpn' = t.shape.levelIndices vpn) :
    leafIndex numaBits vpn' = leafIndex numaBits vpn ↔ vpn' = vpn :=
  (RadixWayTable.eq_iff_mod_of_path hSound.page hVpn hVpn'
    hPath).symm

theorem length_path
    (t : NumaHintTable numaBits)
    (vpn vpn' : Nat) :
    (t.shape.levelIndices vpn').length =
      (t.shape.levelIndices vpn).length :=
  (RadixWayTable.length_levelIndices t.shape vpn').trans
    (RadixWayTable.length_levelIndices t.shape vpn).symm

theorem lookup_set
    (hSound : t.Sound)
    (hVpn : vpn < 2 ^ (48 - t.pageSizeBits))
    (hVpn' : vpn' < 2 ^ (48 - t.pageSizeBits))
    (nodeId : Nat) :
    (t.set vpn nodeId).lookup vpn' =
      if vpn' = vpn then
        some (nodeId % 2 ^ numaBits)
      else
        t.lookup vpn' := by
  have hDepth : ∀ root, t.root = some root →
      root.HasDepth (t.shape.levelIndices vpn).length := by
    rw [RadixWayTable.length_levelIndices]
    exact hSound.depth
  have hFind := Trie.find_upsert_root
    (NumaHintLeaf.construct numaBits)
    (fun leaf =>
      leaf.setEntry (leafIndex numaBits vpn) true nodeId)
    (RadixWayTable.levelIndices_ne_nil t.shape vpn)
    (length_path t vpn vpn') hDepth
  rw [lookup_eq, lookup_eq]
  change (Trie.find (t.shape.levelIndices vpn') _).bind _ = _
  rw [hFind]
  by_cases hSame : t.shape.levelIndices vpn' =
      t.shape.levelIndices vpn
  · rw [if_pos hSame, Option.bind_some,
      NumaHintLeaf.nodeAt_setEntry hSound.bits
        (leafIndex_lt hSound.bits vpn)
        (leafIndex_lt hSound.bits vpn')]
    simp only [eq_iff_of_path hSound hVpn hVpn' hSame,
      if_true, hSame]
    cases t.root.bind (Trie.find (t.shape.levelIndices vpn)) with
    | some leaf => rfl
    | none =>
        rw [Option.getD_none, Option.bind_none,
          NumaHintLeaf.nodeAt_construct hSound.bits
            (leafIndex_lt hSound.bits vpn')]
  · have hNe : vpn' ≠ vpn := by
      rintro rfl
      exact hSame rfl
    rw [if_neg hSame, if_neg hNe]

theorem lookup_clear
    (hSound : t.Sound)
    (hVpn : vpn < 2 ^ (48 - t.pageSizeBits))
    (hVpn' : vpn' < 2 ^ (48 - t.pageSizeBits)) :
    (t.clear vpn).lookup vpn' =
      if vpn' = vpn then none else t.lookup vpn' := by
  rw [lookup_eq, lookup_eq]
  change ((t.root.map _).bind
    (Trie.find (t.shape.levelIndices vpn'))).bind _ = _
  cases t.root with
  | none => simp
  | some root =>
      rw [Option.map_some, Option.bind_some,
        Option.bind_some, Trie.find_modify _
          (length_path t vpn vpn')]
      by_cases hSame : t.shape.levelIndices vpn' =
          t.shape.levelIndices vpn
      · have hEq := eq_iff_of_path hSound hVpn hVpn' hSame
        rw [if_pos hSame, hSame]
        cases root.find (t.shape.levelIndices vpn) with
        | none => simp
        | some leaf =>
            rw [Option.map_some, Option.bind_some,
              Option.bind_some, NumaHintLeaf.clearEntry,
              NumaHintLeaf.nodeAt_setEntry hSound.bits
                (leafIndex_lt hSound.bits vpn)
                (leafIndex_lt hSound.bits vpn')]
            simp [hEq]
      · have hNe : vpn' ≠ vpn := by
          rintro rfl
          exact hSame rfl
        rw [if_neg hSame, if_neg hNe]

theorem Sound.set
    (hSound : t.Sound)
    (vpn nodeId : Nat) :
    (t.set vpn nodeId).Sound := by
  refine ⟨hSound.bits, hSound.page, ?_⟩
  intro root hRoot
  change root.HasDepth t.shape.getNumInternalLevels
  rw [NumaHintTable.set, Option.some.injEq] at hRoot
  rw [← hRoot, ← RadixWayTable.length_levelIndices t.shape vpn]
  apply Trie.hasDepth_upsert
  apply Trie.hasDepth_getD
  rw [RadixWayTable.length_levelIndices]
  exact hSound.depth

theorem Sound.clear
    (hSound : t.Sound)
    (vpn : Nat) :
    (t.clear vpn).Sound := by
  refine ⟨hSound.bits, hSound.page, ?_⟩
  intro root hRoot
  change root.HasDepth t.shape.getNumInternalLevels
  rcases Option.map_eq_some_iff.mp hRoot with
    ⟨old, hOld, rfl⟩
  have hDepth := hSound.depth old hOld
  rw [← RadixWayTable.length_levelIndices t.shape vpn] at hDepth ⊢
  exact Trie.hasDepth_modify _ _ hDepth

/- The updates of the table. -/
inductive Update
  | insert (vpn nodeId : Nat)
  | clear (vpn : Nat)
deriving DecidableEq

/- The table after an update. -/
def Update.apply
    (t : NumaHintTable numaBits) :
    Update → NumaHintTable numaBits
| .insert vpn nodeId => t.set vpn nodeId
| .clear vpn => t.clear vpn

/- The page of an update, and the node of an insert, fit. -/
def Update.Fits
    (numaBits pageSizeBits : Nat) :
    Update → Prop
| .insert vpn nodeId =>
    vpn < 2 ^ (48 - pageSizeBits) ∧ nodeId < 2 ^ numaBits
| .clear vpn => vpn < 2 ^ (48 - pageSizeBits)

/- What is known of a page after one more update. -/
def Update.note
    (vpn : Nat)
    (found : Option Nat) :
    Update → Option Nat
| .insert v nodeId => if v = vpn then some nodeId else found
| .clear v => if v = vpn then none else found

/-
  The node of the latest insert of a page that was not
  cleared since. The updates stand in the order of a run.
-/
def latest
    (updates : List Update)
    (vpn : Nat) : Option Nat :=
  updates.foldl (Update.note vpn) none

theorem pageSizeBits_apply
    (t : NumaHintTable numaBits)
    (u : Update) :
    (u.apply t).pageSizeBits = t.pageSizeBits := by
  cases u <;> rfl

theorem Sound.apply
    (hSound : t.Sound)
    (u : Update) :
    (u.apply t).Sound := by
  cases u with
  | insert vpn nodeId => exact hSound.set vpn nodeId
  | clear vpn => exact hSound.clear vpn

/- One update of a table is one update of the partial map. -/
theorem lookup_apply
    (hSound : t.Sound)
    {u : Update}
    (hFits : u.Fits numaBits t.pageSizeBits)
    (hVpn : vpn < 2 ^ (48 - t.pageSizeBits)) :
    (u.apply t).lookup vpn = u.note vpn (t.lookup vpn) := by
  cases u with
  | insert v nodeId =>
      rw [Update.apply, lookup_set hSound hFits.1 hVpn,
        Nat.mod_eq_of_lt hFits.2]
      simp only [Update.note, eq_comm]
  | clear v =>
      rw [Update.apply, lookup_clear hSound hFits hVpn]
      simp only [Update.note, eq_comm]

theorem lookup_foldl
    (hSound : t.Sound)
    {updates : List Update}
    (hFits : ∀ u ∈ updates, u.Fits numaBits t.pageSizeBits)
    (hVpn : vpn < 2 ^ (48 - t.pageSizeBits)) :
    (updates.foldl Update.apply t).lookup vpn =
      updates.foldl (Update.note vpn) (t.lookup vpn) := by
  induction updates generalizing t with
  | nil => rfl
  | cons u updates ih =>
      have hPage := pageSizeBits_apply t u
      rw [List.foldl_cons, List.foldl_cons,
        ← lookup_apply hSound (hFits u (List.mem_cons_self ..))
          hVpn]
      apply ih (hSound.apply u)
      · intro u' hU
        rw [hPage]
        exact hFits u' (List.mem_cons_of_mem u hU)
      · rwa [hPage]

/- Any sequence of updates is a partial map to the nodes. -/
theorem lookup_eq_latest
    {pageSizeBits : Nat}
    (hBits : 1 ≤ numaBits ∧ numaBits ≤ 8)
    (hPage : pageSizeBits = 12 ∨ pageSizeBits = 21)
    {updates : List Update}
    (hFits : ∀ u ∈ updates, u.Fits numaBits pageSizeBits)
    (hVpn : vpn < 2 ^ (48 - pageSizeBits)) :
    (updates.foldl Update.apply
        (construct numaBits pageSizeBits)).lookup vpn =
      latest updates vpn := by
  have hSound : (construct numaBits pageSizeBits).Sound := {
    bits := hBits.2
    page := by
      rcases hPage with hPage | hPage
      · exact hPage.ge
      · exact Nat.le_trans (by decide) hPage.ge
    depth := fun root hRoot => by contradiction }
  exact lookup_foldl hSound hFits hVpn

/- A neighbour in the same bytes keeps its node. -/
theorem lookup_eq_latest_neighbours :
    ([.insert 5 3, .insert 6 1, .clear 6].foldl Update.apply
        (construct 2 12)).lookup 5 = some 3 :=
  lookup_eq_latest (by decide) (Or.inl rfl)
    (by
      intro u hU
      simp only [List.mem_cons, List.not_mem_nil, or_false] at hU
      rcases hU with rfl | rfl | rfl
      · exact ⟨by decide, by decide⟩
      · exact ⟨by decide, by decide⟩
      · change 6 < 2 ^ 36
        decide)
    (by decide)

end NumaHintTable

end Virtuoso
