import Mathlib.Data.Nat.Bitwise
import Virtuoso.Lib.Trie
import Virtuoso.Utopia.RadixLeaf

/-
  The radix way table of `utopia.h`: for each application a
  tree from page numbers to ways, with packed leaves.

  A page number is split by division at the number of
  entries of a leaf, which is no power of two in general,
  and the quotient is walked in chunks of nine bits. Nodes
  are made on demand. The addresses of nodes that model
  latency, the counters and the locks are left out, and so
  is the way that a failed lookup reports. `set_mapping`
  asserts a test of the first leaf that a process makes,
  whatever its table; the model starts after that leaf.

  Main declarations:
    * `Utopia.RadixWayTable.lookupWay_setMapping`
    * `Utopia.RadixWayTableManager.way_clearMapping`
-/

------------------------------------------------------------
-- Tables And Paths
------------------------------------------------------------

namespace Virtuoso

namespace Utopia

/- The ways of the pages of one application. -/
structure RadixWayTable where
  pageSizeBits : Nat
  wayBits : Nat
  root : Option (Trie Nat RadixLeaf)

/-
  The loop `while (temp > 1) { way_bits++; temp >>= 1; }`,
  and at least one bit.
-/
def wayBitsOf (associativity : Nat) : Nat :=
  max 1 (Nat.log2 associativity)

namespace RadixWayTable

/- `RADIX_BITS`. -/
def radixBits : Nat := 9

/- `MAX_LEVELS`. -/
def maxLevels : Nat := 4

/- `RadixWayTable::RadixWayTable`. -/
def construct
    (pageSizeBits associativity : Nat) : RadixWayTable :=
  ⟨pageSizeBits, wayBitsOf associativity, none⟩

/- `RadixWayTable::getLeafEntries`. -/
def getLeafEntries (t : RadixWayTable) : Nat :=
  leafBits / (1 + t.wayBits)

/-
  The loop `while (temp64 > 0) { bits_needed++; ... }`: the
  number of bits of a number.
-/
def bitLength (n : Nat) : Nat :=
  if n = 0 then 0 else Nat.log2 n + 1

/- The value `bits_needed` of the constructor. -/
def bitsNeeded (t : RadixWayTable) : Nat :=
  let maxVpn := 2 ^ (48 - t.pageSizeBits)
  bitLength ((maxVpn + t.getLeafEntries - 1) / t.getLeafEntries)

/- `RadixWayTable::getNumInternalLevels`. -/
def getNumInternalLevels (t : RadixWayTable) : Nat :=
  max 1 (min maxLevels ((t.bitsNeeded + radixBits - 1) / radixBits))

/- `RadixWayTable::getLevelIndex`. -/
def getLevelIndex
    (t : RadixWayTable)
    (vpnAboveLeaf level : Nat) : Nat :=
  let shift := (t.getNumInternalLevels - 1 - level) * radixBits
  vpnAboveLeaf / 2 ^ shift % 2 ^ radixBits

/- The indices that the loops over the levels follow. -/
def levelIndices
    (t : RadixWayTable)
    (vpn : Nat) :
    List Nat :=
  (List.range t.getNumInternalLevels).map
    (t.getLevelIndex (vpn / t.getLeafEntries))

/- `RadixWayTable::lookup_way`. -/
def lookupWay
    (t : RadixWayTable)
    (vpn : Nat) :
    Option Nat :=
  match t.root with
  | none => none
  | some root =>
      match root.find (t.levelIndices vpn) with
      | none => none
      | some leaf => leaf.wayAt (vpn % t.getLeafEntries)

/- `RadixWayTable::set_mapping`. -/
def setMapping
    (t : RadixWayTable)
    (vpn way : Nat) : RadixWayTable :=
  let path := t.levelIndices vpn
  let fresh := RadixLeaf.construct t.wayBits
  let root := t.root.getD (Trie.blank fresh path)
  { t with
    root := some (root.upsert fresh
      (fun leaf =>
        leaf.setEntry (vpn % t.getLeafEntries) true way)
      path) }

/- `RadixWayTable::clear_mapping`. -/
def clearMapping
    (t : RadixWayTable)
    (vpn : Nat) : RadixWayTable :=
  { t with
    root := t.root.map (fun root =>
      root.modify
        (fun leaf =>
          leaf.clearEntry (vpn % t.getLeafEntries))
        (t.levelIndices vpn)) }

/- A number is determined by its chunks of bits. -/
theorem eq_of_chunks
    {bits count u u' : Nat}
    (hBits : 0 < bits)
    (hLess : u < 2 ^ (count * bits))
    (hLess' : u' < 2 ^ (count * bits))
    (hChunks :
      ∀ i < count,
        u / 2 ^ (i * bits) % 2 ^ bits =
          u' / 2 ^ (i * bits) % 2 ^ bits) :
    u = u' := by
  apply Nat.eq_of_testBit_eq
  intro j
  by_cases hHigh : count * bits ≤ j
  · have hPow : 2 ^ (count * bits) ≤ 2 ^ j :=
      Nat.pow_le_pow_right (by decide) hHigh
    rw [Nat.testBit_eq_false_of_lt (lt_of_lt_of_le hLess hPow),
      Nat.testBit_eq_false_of_lt (lt_of_lt_of_le hLess' hPow)]
  · have hChunk : j / bits < count :=
      Nat.div_lt_of_lt_mul (by
        rw [Nat.mul_comm]
        exact not_le.mp hHigh)
    have hSame := congrArg (fun n => n.testBit (j % bits))
      (hChunks (j / bits) hChunk)
    have hJoin : j % bits + j / bits * bits = j := by
      rw [Nat.mul_comm]
      exact Nat.mod_add_div j bits
    simpa [Nat.testBit_mod_two_pow, Nat.testBit_div_two_pow,
      Nat.mod_lt j hBits, hJoin] using hSame

theorem lt_pow_bitLength
    (n : Nat) :
    n < 2 ^ bitLength n := by
  unfold bitLength
  by_cases hZero : n = 0
  · simp [hZero]
  · rw [if_neg hZero]
    exact Nat.lt_log2_self

variable {t : RadixWayTable} {vpn vpn' : Nat}

/-
  The upper part of a page number fits in the chunks of the
  levels. The bound on their number cuts nothing off, as
  four levels have 36 bits.
-/
theorem upper_lt
    (hPage : 12 ≤ t.pageSizeBits)
    (hVpn : vpn < 2 ^ (48 - t.pageSizeBits)) :
    vpn / t.getLeafEntries <
      2 ^ (t.getNumInternalLevels * radixBits) := by
  by_cases hZero : t.getLeafEntries = 0
  · rw [hZero, Nat.div_zero]
    exact Nat.two_pow_pos _
  have hPositive : 0 < t.getLeafEntries :=
    Nat.pos_of_ne_zero hZero
  by_cases hCap :
      (t.bitsNeeded + radixBits - 1) / radixBits ≤ maxLevels
  · have hUpper : vpn / t.getLeafEntries ≤
        (2 ^ (48 - t.pageSizeBits) + t.getLeafEntries - 1) /
          t.getLeafEntries :=
      Nat.div_le_div_right (by omega)
    have hLess := lt_of_le_of_lt hUpper (lt_pow_bitLength _)
    refine lt_of_lt_of_le hLess ?_
    apply Nat.pow_le_pow_right (by decide)
    change t.bitsNeeded ≤ _
    unfold getNumInternalLevels
    rw [min_eq_right hCap]
    unfold radixBits
    omega
  · have hLevels : t.getNumInternalLevels = maxLevels := by
      unfold getNumInternalLevels
      rw [min_eq_left (not_le.mp hCap).le]
      rfl
    rw [hLevels]
    have hPow : 2 ^ (48 - t.pageSizeBits) ≤
        2 ^ (maxLevels * radixBits) :=
      Nat.pow_le_pow_right (by decide)
        (by unfold maxLevels radixBits; omega)
    exact lt_of_le_of_lt (Nat.div_le_self _ _)
      (lt_of_lt_of_le hVpn hPow)

theorem length_levelIndices
    (t : RadixWayTable)
    (vpn : Nat) :
    (t.levelIndices vpn).length = t.getNumInternalLevels := by
  simp [levelIndices]

/- Two pages have one path when their upper parts agree. -/
theorem levelIndices_eq_iff
    (hPage : 12 ≤ t.pageSizeBits)
    (hVpn : vpn < 2 ^ (48 - t.pageSizeBits))
    (hVpn' : vpn' < 2 ^ (48 - t.pageSizeBits)) :
    t.levelIndices vpn' = t.levelIndices vpn ↔
      vpn' / t.getLeafEntries = vpn / t.getLeafEntries := by
  constructor
  · intro hPaths
    apply eq_of_chunks (by decide) (upper_lt hPage hVpn')
      (upper_lt hPage hVpn)
    intro i hLevel
    have hAt := (List.map_inj_left.mp hPaths)
      (t.getNumInternalLevels - 1 - i)
      (List.mem_range.mpr (by omega))
    have hShift :
        t.getNumInternalLevels - 1 -
          (t.getNumInternalLevels - 1 - i) = i := by
      omega
    simpa [getLevelIndex, hShift] using hAt
  · intro hUpper
    unfold levelIndices
    rw [hUpper]

/- Pages with one path differ by their indices. -/
theorem eq_iff_mod_of_path
    (hPage : 12 ≤ t.pageSizeBits)
    (hVpn : vpn < 2 ^ (48 - t.pageSizeBits))
    (hVpn' : vpn' < 2 ^ (48 - t.pageSizeBits))
    (hPath : t.levelIndices vpn' = t.levelIndices vpn) :
    vpn' = vpn ↔
      vpn' % t.getLeafEntries = vpn % t.getLeafEntries := by
  have hUpper :=
    (levelIndices_eq_iff hPage hVpn hVpn').mp hPath
  constructor
  · rintro rfl
    rfl
  · intro hIndex
    rw [← Nat.div_add_mod vpn' t.getLeafEntries, hUpper,
      hIndex, Nat.div_add_mod]

/- The leaf at the end of a path. -/
def leafAt
    (t : RadixWayTable)
    (path : List Nat) :
    Option RadixLeaf :=
  t.root.bind (fun root => root.find path)

/-
  The leaves are at the depth that the walks have, and their
  entries are of the size that the table has.
-/
structure Sound (t : RadixWayTable) : Prop where
  page : 12 ≤ t.pageSizeBits
  way : RadixLeaf.Reaches t.wayBits
  depth : ∀ root, t.root = some root →
    root.HasDepth t.getNumInternalLevels
  leaves : ∀ vpn leaf,
    t.leafAt (t.levelIndices vpn) = some leaf →
      leaf.wayBits = t.wayBits

theorem lookupWay_eq
    (t : RadixWayTable)
    (vpn : Nat) :
    t.lookupWay vpn =
      (t.leafAt (t.levelIndices vpn)).bind
        (fun leaf => leaf.wayAt (vpn % t.getLeafEntries)) := by
  unfold lookupWay leafAt
  cases t.root with
  | none => rfl
  | some root =>
      simp only [Option.bind_some]
      cases root.find (t.levelIndices vpn) with
      | none => rfl
      | some leaf => rfl

theorem levelIndices_ne_nil
    (t : RadixWayTable)
    (vpn : Nat) :
    t.levelIndices vpn ≠ [] := by
  intro hNil
  have hLength := length_levelIndices t vpn
  rw [hNil, List.length_nil] at hLength
  unfold getNumInternalLevels at hLength
  omega

/- The leaves of a table after a mapping is set. -/
theorem leafAt_setMapping
    (hDepth :
      ∀ root, t.root = some root →
        root.HasDepth t.getNumInternalLevels)
    (vpn way vpn' : Nat) :
    (t.setMapping vpn way).leafAt (t.levelIndices vpn') =
      if t.levelIndices vpn' = t.levelIndices vpn then
        some (((t.leafAt (t.levelIndices vpn)).getD
          (RadixLeaf.construct t.wayBits)).setEntry
            (vpn % t.getLeafEntries) true way)
      else
        t.leafAt (t.levelIndices vpn') := by
  have hLength := (length_levelIndices t vpn').trans
    (length_levelIndices t vpn).symm
  simp only [leafAt, setMapping, Option.bind_some]
  apply Trie.find_upsert_root _ _ (levelIndices_ne_nil t vpn)
    hLength
  rw [length_levelIndices]
  exact hDepth

/- The leaves of a table after a mapping is cleared. -/
theorem leafAt_clearMapping
    (t : RadixWayTable)
    (vpn vpn' : Nat) :
    (t.clearMapping vpn).leafAt (t.levelIndices vpn') =
      if t.levelIndices vpn' = t.levelIndices vpn then
        (t.leafAt (t.levelIndices vpn)).map
          (fun leaf =>
            leaf.clearEntry (vpn % t.getLeafEntries))
      else
        t.leafAt (t.levelIndices vpn') := by
  have hLength := (length_levelIndices t vpn').trans
    (length_levelIndices t vpn).symm
  simp only [leafAt, clearMapping]
  cases t.root with
  | none => simp
  | some root =>
      simp only [Option.map_some, Option.bind_some]
      exact Trie.find_modify _ hLength root

theorem sound_construct
    {pageSizeBits associativity : Nat}
    (hPage : 12 ≤ pageSizeBits)
    (hWay : RadixLeaf.Reaches (wayBitsOf associativity)) :
    (construct pageSizeBits associativity).Sound :=
  ⟨hPage, hWay, by simp [construct], by simp [construct, leafAt]⟩

theorem sound_setMapping
    (hSound : t.Sound)
    (vpn way : Nat) :
    (t.setMapping vpn way).Sound := by
  refine ⟨hSound.page, hSound.way, ?_, ?_⟩
  · intro root hRoot
    simp only [setMapping, Option.some.injEq] at hRoot
    change root.HasDepth t.getNumInternalLevels
    rw [← hRoot, ← length_levelIndices t vpn]
    apply Trie.hasDepth_upsert
    apply Trie.hasDepth_getD
    intro old hOld
    rw [length_levelIndices]
    exact hSound.depth old hOld
  · intro vpn' leaf hLeaf
    change (t.setMapping vpn way).leafAt
      (t.levelIndices vpn') = some leaf at hLeaf
    rw [leafAt_setMapping hSound.depth] at hLeaf
    by_cases hSame : t.levelIndices vpn' = t.levelIndices vpn
    · rw [if_pos hSame, Option.some.injEq] at hLeaf
      rw [← hLeaf, RadixLeaf.wayBits_setEntry]
      cases hOld : t.leafAt (t.levelIndices vpn) with
      | none => rfl
      | some old => exact hSound.leaves vpn old hOld
    · rw [if_neg hSame] at hLeaf
      exact hSound.leaves vpn' leaf hLeaf

theorem sound_clearMapping
    (hSound : t.Sound)
    (vpn : Nat) :
    (t.clearMapping vpn).Sound := by
  refine ⟨hSound.page, hSound.way, ?_, ?_⟩
  · intro root hRoot
    simp only [clearMapping, Option.map_eq_some_iff] at hRoot
    rcases hRoot with ⟨old, hOld, hEq⟩
    have hDepth := hSound.depth old hOld
    change root.HasDepth t.getNumInternalLevels
    rw [← length_levelIndices t vpn] at hDepth ⊢
    rw [← hEq]
    exact Trie.hasDepth_modify _ _ hDepth
  · intro vpn' leaf hLeaf
    change (t.clearMapping vpn).leafAt
      (t.levelIndices vpn') = some leaf at hLeaf
    rw [leafAt_clearMapping] at hLeaf
    by_cases hSame : t.levelIndices vpn' = t.levelIndices vpn
    · rw [if_pos hSame, Option.map_eq_some_iff] at hLeaf
      rcases hLeaf with ⟨old, hOld, hEq⟩
      rw [← hEq, RadixLeaf.clearEntry, RadixLeaf.wayBits_setEntry]
      exact hSound.leaves vpn old hOld
    · rw [if_neg hSame] at hLeaf
      exact hSound.leaves vpn' leaf hLeaf

/- An index is in range in each leaf of a table. -/
theorem index_lt
    (hSound : t.Sound)
    {leaf : RadixLeaf}
    (hLeaf : leaf.wayBits = t.wayBits)
    (vpn : Nat) :
    vpn % t.getLeafEntries < leaf.getLeafEntries := by
  have hWay : t.wayBits ≤ 23 := by
    rcases hSound.way with hSmall | hEq | hEq
    · omega
    · omega
    · omega
  have hEq : leaf.getLeafEntries = t.getLeafEntries := by
    simp [RadixLeaf.getLeafEntries, RadixLeaf.bitsPerEntry,
      getLeafEntries, hLeaf]
  have hPositive : 0 < t.getLeafEntries := by
    unfold getLeafEntries
    apply Nat.div_pos
    · unfold leafBits
      omega
    · omega
  rw [hEq]
  exact Nat.mod_lt vpn hPositive

/- A leaf that a mapping is set in, old or new. -/
theorem wayBits_leafAt
    (hSound : t.Sound)
    (vpn : Nat) :
    ((t.leafAt (t.levelIndices vpn)).getD
      (RadixLeaf.construct t.wayBits)).wayBits = t.wayBits := by
  cases hLeaf : t.leafAt (t.levelIndices vpn) with
  | none => rfl
  | some leaf => exact hSound.leaves vpn leaf hLeaf

/- Nothing is found in an empty table. -/
theorem lookupWay_construct
    (pageSizeBits associativity vpn : Nat) :
    (construct pageSizeBits associativity).lookupWay vpn =
      none := rfl

/- The first mapping of a table is in a new leaf. -/
theorem lookupWay_setMapping_construct
    (pageSizeBits associativity vpn way : Nat) :
    let t := construct pageSizeBits associativity
    (t.setMapping vpn way).lookupWay vpn =
      ((RadixLeaf.construct t.wayBits).setEntry
        (vpn % t.getLeafEntries) true way).wayAt
          (vpn % t.getLeafEntries) := by
  intro t
  rw [lookupWay_eq]
  change ((t.setMapping vpn way).leafAt
    (t.levelIndices vpn)).bind
      (fun leaf => leaf.wayAt (vpn % t.getLeafEntries)) = _
  rw [leafAt_setMapping (by simp [t, construct]), if_pos rfl]
  rfl

/-
  A table after a mapping is set: the page has the way, up
  to the bits that an entry has for it, and the other pages
  are as before.
-/
theorem lookupWay_setMapping
    (hSound : t.Sound)
    (hVpn : vpn < 2 ^ (48 - t.pageSizeBits))
    (hVpn' : vpn' < 2 ^ (48 - t.pageSizeBits))
    (way : Nat) :
    (t.setMapping vpn way).lookupWay vpn' =
      if vpn' = vpn then
        some (way % 2 ^ t.wayBits)
      else
        t.lookupWay vpn' := by
  rw [lookupWay_eq, lookupWay_eq]
  change ((t.setMapping vpn way).leafAt
    (t.levelIndices vpn')).bind
      (fun leaf => leaf.wayAt (vpn' % t.getLeafEntries)) = _
  rw [leafAt_setMapping hSound.depth]
  by_cases hSame : t.levelIndices vpn' = t.levelIndices vpn
  · have hEq :=
      eq_iff_mod_of_path hSound.page hVpn hVpn' hSame
    rw [if_pos hSame, Option.bind_some, hSame]
    have hOld := wayBits_leafAt hSound vpn
    rw [RadixLeaf.wayAt_setEntry (hOld.symm ▸ hSound.way)
      (index_lt hSound hOld vpn) (index_lt hSound hOld vpn'),
      hOld]
    simp only [hEq, if_true]
    cases hLeaf : t.leafAt (t.levelIndices vpn) with
    | some leaf => rfl
    | none =>
        rw [Option.getD_none, Option.bind_none,
          RadixLeaf.wayAt_construct hSound.way
            (index_lt hSound rfl vpn')]
  · have hNe : vpn' ≠ vpn := by
      rintro rfl
      exact hSame rfl
    rw [if_neg hSame, if_neg hNe]

/- The ways after a mapping is set are that way or old. -/
theorem lookupWay_setMapping_cases
    (hSound : t.Sound)
    {way w : Nat}
    (hFound : (t.setMapping vpn way).lookupWay vpn' = some w) :
    w = way % 2 ^ t.wayBits ∨ t.lookupWay vpn' = some w := by
  rw [lookupWay_eq] at hFound ⊢
  change ((t.setMapping vpn way).leafAt
    (t.levelIndices vpn')).bind
      (fun leaf => leaf.wayAt (vpn' % t.getLeafEntries)) =
        some w at hFound
  rw [leafAt_setMapping hSound.depth] at hFound
  by_cases hSame : t.levelIndices vpn' = t.levelIndices vpn
  · have hOld := wayBits_leafAt hSound vpn
    rw [if_pos hSame, Option.bind_some,
      RadixLeaf.wayAt_setEntry (hOld.symm ▸ hSound.way)
        (index_lt hSound hOld vpn) (index_lt hSound hOld vpn'),
      hOld] at hFound
    split_ifs at hFound with hIndex
    · exact Or.inl (Option.some.inj hFound).symm
    · right
      rw [hSame]
      cases hLeaf : t.leafAt (t.levelIndices vpn) with
      | some leaf =>
          rw [hLeaf] at hFound
          exact hFound
      | none =>
          rw [hLeaf, Option.getD_none,
            RadixLeaf.wayAt_construct hSound.way
              (index_lt hSound rfl vpn')] at hFound
          cases hFound
  · rw [if_neg hSame] at hFound
    exact Or.inr hFound

/- The ways after a mapping is cleared are old. -/
theorem lookupWay_of_clearMapping
    (hSound : t.Sound)
    {w : Nat}
    (hFound : (t.clearMapping vpn).lookupWay vpn' = some w) :
    t.lookupWay vpn' = some w := by
  rw [lookupWay_eq] at hFound ⊢
  change ((t.clearMapping vpn).leafAt
    (t.levelIndices vpn')).bind
      (fun leaf => leaf.wayAt (vpn' % t.getLeafEntries)) =
        some w at hFound
  rw [leafAt_clearMapping] at hFound
  by_cases hSame : t.levelIndices vpn' = t.levelIndices vpn
  · rw [if_pos hSame] at hFound
    cases hLeaf : t.leafAt (t.levelIndices vpn) with
    | none =>
        rw [hLeaf] at hFound
        cases hFound
    | some leaf =>
        have hOld := hSound.leaves vpn leaf hLeaf
        rw [hLeaf, Option.map_some, Option.bind_some,
          RadixLeaf.clearEntry,
          RadixLeaf.wayAt_setEntry (hOld.symm ▸ hSound.way)
            (index_lt hSound hOld vpn)
            (index_lt hSound hOld vpn')] at hFound
        rw [hSame, hLeaf]
        simp only [Bool.false_eq_true, if_false] at hFound
        split_ifs at hFound
        exact hFound
  · rw [if_neg hSame] at hFound
    exact hFound

/- A page is found after its own mapping is set. -/
theorem lookupWay_setMapping_self
    (hSound : t.Sound)
    (vpn way : Nat) :
    (t.setMapping vpn way).lookupWay vpn =
      some (way % 2 ^ t.wayBits) := by
  have hOld := wayBits_leafAt hSound vpn
  rw [lookupWay_eq]
  change ((t.setMapping vpn way).leafAt
    (t.levelIndices vpn)).bind
      (fun leaf => leaf.wayAt (vpn % t.getLeafEntries)) = _
  rw [leafAt_setMapping hSound.depth, if_pos rfl,
    Option.bind_some,
    RadixLeaf.wayAt_setEntry (hOld.symm ▸ hSound.way)
      (index_lt hSound hOld vpn) (index_lt hSound hOld vpn),
    if_pos rfl, if_pos rfl, hOld]

/-
  A table after a mapping is cleared: the page has no way,
  and the other pages are as before.
-/
theorem lookupWay_clearMapping
    (hSound : t.Sound)
    (hVpn : vpn < 2 ^ (48 - t.pageSizeBits))
    (hVpn' : vpn' < 2 ^ (48 - t.pageSizeBits)) :
    (t.clearMapping vpn).lookupWay vpn' =
      if vpn' = vpn then none else t.lookupWay vpn' := by
  rw [lookupWay_eq, lookupWay_eq]
  change ((t.clearMapping vpn).leafAt
    (t.levelIndices vpn')).bind
      (fun leaf => leaf.wayAt (vpn' % t.getLeafEntries)) = _
  rw [leafAt_clearMapping]
  by_cases hSame : t.levelIndices vpn' = t.levelIndices vpn
  · have hEq :=
      eq_iff_mod_of_path hSound.page hVpn hVpn' hSame
    rw [if_pos hSame, hSame]
    cases hLeaf : t.leafAt (t.levelIndices vpn) with
    | none => simp
    | some leaf =>
        have hOld := hSound.leaves vpn leaf hLeaf
        rw [Option.map_some, Option.bind_some,
          Option.bind_some, RadixLeaf.clearEntry,
          RadixLeaf.wayAt_setEntry
            (hOld.symm ▸ hSound.way)
            (index_lt hSound hOld vpn)
            (index_lt hSound hOld vpn')]
        simp [hEq]
  · have hNe : vpn' ≠ vpn := by
      rintro rfl
      exact hSame rfl
    rw [if_neg hSame, if_neg hNe]

end RadixWayTable

------------------------------------------------------------
-- Tables Of All Applications
------------------------------------------------------------

/- A table for each application. -/
structure RadixWayTableManager where
  pageSizeBits : Nat
  associativity : Nat
  appTables : Nat → Option RadixWayTable

namespace RadixWayTableManager

/- `RadixWayTableManager::RadixWayTableManager`. -/
def construct
    (pageSizeBits associativity : Nat) :
    RadixWayTableManager :=
  ⟨pageSizeBits, associativity, fun _ => none⟩

/-
  `RadixWayTableManager::getTable`, which makes the table of
  an application on its first use.
-/
def getTable
    (m : RadixWayTableManager)
    (app : Nat) : RadixWayTable :=
  (m.appTables app).getD
    (RadixWayTable.construct m.pageSizeBits m.associativity)

/- Replace the table of an application. -/
def setTable
    (m : RadixWayTableManager)
    (app : Nat)
    (t : RadixWayTable) : RadixWayTableManager :=
  { m with
    appTables := Function.update m.appTables app (some t) }

/-
  `RadixWayTableManager::lookup_way`, which leaves the table
  that it may have made.
-/
def lookupWay
    (m : RadixWayTableManager)
    (vpn app : Nat) :
    Option Nat × RadixWayTableManager :=
  let table := m.getTable app
  (table.lookupWay vpn, m.setTable app table)

/- `RadixWayTableManager::set_mapping`. -/
def setMapping
    (m : RadixWayTableManager)
    (vpn app way : Nat) : RadixWayTableManager :=
  m.setTable app ((m.getTable app).setMapping vpn way)

/- `RadixWayTableManager::clear_mapping`. -/
def clearMapping
    (m : RadixWayTableManager)
    (vpn app : Nat) : RadixWayTableManager :=
  match m.appTables app with
  | none => m
  | some table => m.setTable app (table.clearMapping vpn)

/- The way that a lookup of a page reports. -/
def way
    (m : RadixWayTableManager)
    (app vpn : Nat) :
    Option Nat :=
  (m.getTable app).lookupWay vpn

/- Every table is sound and has the sizes of the manager. -/
structure Sound (m : RadixWayTableManager) : Prop where
  page : 12 ≤ m.pageSizeBits
  ways : RadixLeaf.Reaches (wayBitsOf m.associativity)
  table : ∀ app, (m.getTable app).Sound
  pageSize : ∀ app, (m.getTable app).pageSizeBits = m.pageSizeBits
  wayBits : ∀ app,
    (m.getTable app).wayBits = wayBitsOf m.associativity

variable {m : RadixWayTableManager} {app vpn vpn' : Nat}

@[simp] theorem getTable_setTable
    (m : RadixWayTableManager)
    (app app' : Nat)
    (t : RadixWayTable) :
    (m.setTable app t).getTable app' =
      if app' = app then t else m.getTable app' := by
  by_cases hApp : app' = app
  · simp [getTable, setTable, hApp]
  · simp [getTable, setTable, hApp]

theorem sound_construct
    {pageSizeBits associativity : Nat}
    (hPage : 12 ≤ pageSizeBits)
    (hWays : RadixLeaf.Reaches (wayBitsOf associativity)) :
    (construct pageSizeBits associativity).Sound :=
  ⟨hPage, hWays,
    fun _ => RadixWayTable.sound_construct hPage hWays,
    fun _ => rfl, fun _ => rfl⟩

/- A table may be replaced by a sound one of the same sizes. -/
theorem Sound.setTable
    (hSound : m.Sound)
    {t : RadixWayTable}
    (hTable : t.Sound)
    (hPage : t.pageSizeBits = m.pageSizeBits)
    (hWays : t.wayBits = wayBitsOf m.associativity)
    (app : Nat) :
    (m.setTable app t).Sound := by
  refine ⟨hSound.page, hSound.ways, ?_, ?_, ?_⟩
  · intro app'
    rw [getTable_setTable]
    split_ifs
    · exact hTable
    · exact hSound.table app'
  · intro app'
    rw [getTable_setTable]
    split_ifs
    · exact hPage
    · exact hSound.pageSize app'
  · intro app'
    rw [getTable_setTable]
    split_ifs
    · exact hWays
    · exact hSound.wayBits app'

theorem Sound.lookupWay
    (hSound : m.Sound)
    (vpn app : Nat) :
    (m.lookupWay vpn app).2.Sound :=
  hSound.setTable (hSound.table app) (hSound.pageSize app)
    (hSound.wayBits app) app

theorem Sound.setMapping
    (hSound : m.Sound)
    (vpn app way : Nat) :
    (m.setMapping vpn app way).Sound :=
  hSound.setTable
    (RadixWayTable.sound_setMapping (hSound.table app) vpn way)
    (hSound.pageSize app) (hSound.wayBits app) app

theorem Sound.clearMapping
    (hSound : m.Sound)
    (vpn app : Nat) :
    (m.clearMapping vpn app).Sound := by
  unfold RadixWayTableManager.clearMapping
  cases hTable : m.appTables app with
  | none => exact hSound
  | some table =>
      have hEq : m.getTable app = table := by
        simp [getTable, hTable]
      rw [← hEq]
      exact hSound.setTable
        (RadixWayTable.sound_clearMapping (hSound.table app) vpn)
        (hSound.pageSize app) (hSound.wayBits app) app

@[simp] theorem way_construct
    (pageSizeBits associativity app vpn : Nat) :
    (construct pageSizeBits associativity).way app vpn = none := rfl

/- A lookup changes no way. -/
@[simp] theorem way_lookupWay
    (m : RadixWayTableManager)
    (vpn app app' vpn' : Nat) :
    (m.lookupWay vpn app).2.way app' vpn' = m.way app' vpn' := by
  by_cases hApp : app' = app
  · simp [way, lookupWay, hApp]
  · simp [way, lookupWay, hApp]

theorem way_setMapping
    (hSound : m.Sound)
    (hVpn : vpn < 2 ^ (48 - m.pageSizeBits))
    (hVpn' : vpn' < 2 ^ (48 - m.pageSizeBits))
    (app app' way : Nat) :
    (m.setMapping vpn app way).way app' vpn' =
      if app' = app ∧ vpn' = vpn then
        some (way % 2 ^ wayBitsOf m.associativity)
      else
        m.way app' vpn' := by
  unfold RadixWayTableManager.way setMapping
  rw [getTable_setTable]
  by_cases hApp : app' = app
  · rw [hApp, if_pos rfl,
      RadixWayTable.lookupWay_setMapping (hSound.table app)
        (by rwa [hSound.pageSize app])
        (by rwa [hSound.pageSize app]),
      hSound.wayBits app]
    simp
  · simp [hApp]

theorem way_setMapping_self
    (hSound : m.Sound)
    (vpn app way : Nat) :
    (m.setMapping vpn app way).way app vpn =
      some (way % 2 ^ wayBitsOf m.associativity) := by
  unfold RadixWayTableManager.way setMapping
  rw [getTable_setTable, if_pos rfl,
    RadixWayTable.lookupWay_setMapping_self (hSound.table app),
    hSound.wayBits app]

/- All ways that a lookup reports are below a number. -/
def Below (m : RadixWayTableManager) (n : Nat) : Prop :=
  ∀ app vpn way, m.way app vpn = some way → way < n

theorem Below.setMapping
    {n way : Nat}
    (hBelow : m.Below n)
    (hSound : m.Sound)
    (hWay : way < n)
    (vpn app : Nat) :
    (m.setMapping vpn app way).Below n := by
  intro app' vpn' w hFound
  unfold RadixWayTableManager.way
    RadixWayTableManager.setMapping at hFound
  rw [getTable_setTable] at hFound
  split_ifs at hFound with hApp
  · rcases RadixWayTable.lookupWay_setMapping_cases
        (hSound.table app) hFound with hNew | hOld
    · rw [hNew]
      exact Nat.lt_of_le_of_lt (Nat.mod_le _ _) hWay
    · exact hBelow app vpn' w hOld
  · exact hBelow app' vpn' w hFound

theorem Below.clearMapping
    {n : Nat}
    (hBelow : m.Below n)
    (hSound : m.Sound)
    (vpn app : Nat) :
    (m.clearMapping vpn app).Below n := by
  unfold RadixWayTableManager.clearMapping
  cases hTable : m.appTables app with
  | none => exact hBelow
  | some table =>
      have hEq : m.getTable app = table := by
        simp [getTable, hTable]
      intro app' vpn' w hFound
      simp only [RadixWayTableManager.way, ← hEq,
        getTable_setTable] at hFound
      split_ifs at hFound with hApp
      · exact hBelow app vpn' w
          (RadixWayTable.lookupWay_of_clearMapping
            (hSound.table app) hFound)
      · exact hBelow app' vpn' w hFound

theorem way_clearMapping
    (hSound : m.Sound)
    (hVpn : vpn < 2 ^ (48 - m.pageSizeBits))
    (hVpn' : vpn' < 2 ^ (48 - m.pageSizeBits))
    (app app' : Nat) :
    (m.clearMapping vpn app).way app' vpn' =
      if app' = app ∧ vpn' = vpn then
        none
      else
        m.way app' vpn' := by
  unfold RadixWayTableManager.way clearMapping
  cases hTable : m.appTables app with
  | none =>
      by_cases hSame : app' = app ∧ vpn' = vpn
      · rw [if_pos hSame, hSame.1]
        simp [getTable, hTable, RadixWayTable.lookupWay_construct]
      · rw [if_neg hSame]
  | some table =>
      have hEq : m.getTable app = table := by
        simp [getTable, hTable]
      rw [← hEq, getTable_setTable]
      by_cases hApp : app' = app
      · rw [hApp, if_pos rfl,
          RadixWayTable.lookupWay_clearMapping
            (hSound.table app)
            (by rwa [hSound.pageSize app])
            (by rwa [hSound.pageSize app])]
        simp
      · simp [hApp]

end RadixWayTableManager

end Utopia

end Virtuoso
