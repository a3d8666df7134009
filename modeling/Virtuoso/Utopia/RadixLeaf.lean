import Virtuoso.Lib.Packed

/-
  The leaf of the radix way table in `utopia.h`: 4096 bytes
  of packed entries, each a way of some bits and above it
  the bit `valid`.

  An index is an `int` of the source that is not negative.
  The word of an entry is read from two bytes, and from a
  third one when the entry reaches it.

  Main declarations:
    * `Utopia.RadixLeaf.holds_entry`
    * `Utopia.RadixLeaf.wayAt_setEntry`
-/

------------------------------------------------------------
-- Entries And Their Bits
------------------------------------------------------------

namespace Virtuoso

namespace Utopia

/- `LEAF_BYTES`. -/
def leafBytes : Nat := 4096

/- `LEAF_BITS`. -/
def leafBits : Nat := 32768

/- A leaf holds the ways of its pages as bits. -/
structure RadixLeaf where
  wayBits : Nat
  data : Nat → BitVec 8

namespace RadixLeaf

/- The member `bits_per_entry`. -/
def bitsPerEntry (l : RadixLeaf) : Nat :=
  1 + l.wayBits

/- `RadixLeaf::getLeafEntries`. -/
def getLeafEntries (l : RadixLeaf) : Nat :=
  leafBits / l.bitsPerEntry

/- `RadixLeaf::RadixLeaf`. -/
def construct (wayBits : Nat) : RadixLeaf :=
  ⟨wayBits, fun _ => 0#8⟩

/- The word `(1u << bits) - 1`. -/
def mask (bits : Nat) : BitVec 32 :=
  (1#32 <<< bits) - 1#32

/- The bytes of an entry, shifted down to its first bit. -/
def rawEntry (l : RadixLeaf) (index : Nat) : BitVec 32 :=
  let bitPos := index * l.bitsPerEntry
  let bytePos := bitPos / 8
  let bitOffset := bitPos % 8
  let first := (l.data bytePos).setWidth 32
  let second :=
    if bytePos + 1 < leafBytes then
      (l.data (bytePos + 1)).setWidth 32 <<< 8
    else
      0#32
  let third :=
    if bytePos + 2 < leafBytes ∧
        16 < bitOffset + l.bitsPerEntry then
      (l.data (bytePos + 2)).setWidth 32 <<< 16
    else
      0#32
  (first ||| second ||| third) >>> bitOffset

/- The word `entry` of `RadixLeaf::getEntry`. -/
def entry (l : RadixLeaf) (index : Nat) : BitVec 32 :=
  l.rawEntry index &&& mask l.bitsPerEntry

/-
  `RadixLeaf::getEntry`: the flag `valid`, and the way,
  which is -1 at an index out of range.
-/
def getEntry (l : RadixLeaf) (index : Nat) : Bool × Int :=
  if l.getLeafEntries ≤ index then
    (false, -1)
  else
    let entry := l.entry index
    (((entry >>> l.wayBits) &&& 1#32) == 1#32,
      (entry &&& mask l.wayBits).toNat)

/- The word of an entry: the way and above it `valid`. -/
def packEntry
    (wayBits : Nat)
    (valid : Bool)
    (way : Nat) : BitVec 32 :=
  (BitVec.ofNat 32 way &&& mask wayBits) |||
    (if valid then 1#32 <<< wayBits else 0#32)

/- Clear and set the bits of byte `k` of a word. -/
def maskByte
    (byte : BitVec 8)
    (clearMask setMask : BitVec 32)
    (k : Nat) : BitVec 8 :=
  (byte &&& (clearMask >>> (8 * k)).setWidth 8) |||
    (setMask >>> (8 * k)).setWidth 8

/- `RadixLeaf::setEntry`. -/
def setEntry
    (l : RadixLeaf)
    (index : Nat)
    (valid : Bool)
    (way : Nat) : RadixLeaf :=
  if l.getLeafEntries ≤ index then
    l
  else
    let bitPos := index * l.bitsPerEntry
    let bytePos := bitPos / 8
    let bitOffset := bitPos % 8
    let mask := mask l.bitsPerEntry
    let clearMask := ~~~ (mask <<< bitOffset)
    let setMask :=
      (packEntry l.wayBits valid way &&& mask) <<< bitOffset
    { l with
      data := fun i =>
        if i = bytePos then
          maskByte (l.data i) clearMask setMask 0
        else if i = bytePos + 1 ∧
            bytePos + 1 < leafBytes then
          maskByte (l.data i) clearMask setMask 1
        else if i = bytePos + 2 ∧ bytePos + 2 < leafBytes ∧
            16 < bitOffset + l.bitsPerEntry then
          maskByte (l.data i) clearMask setMask 2
        else
          l.data i }

/- `RadixLeaf::clearEntry`. -/
def clearEntry (l : RadixLeaf) (index : Nat) : RadixLeaf :=
  l.setEntry index false 0

variable {l : RadixLeaf} {index : Nat}

theorem toNat_mask
    {bits : Nat}
    (hBits : bits < 32) :
    (mask bits).toNat = 2 ^ bits - 1 := by
  have hPow : 2 ^ bits < 2 ^ 32 :=
    Nat.pow_lt_pow_right (by decide) hBits
  have hPos : 0 < 2 ^ bits := Nat.two_pow_pos bits
  have hShift : (1#32 <<< bits).toNat = 2 ^ bits := by
    simpa [BitVec.toNat_shiftLeft, Nat.shiftLeft_eq] using hPow
  rw [mask, BitVec.toNat_sub_of_le, hShift]
  · rfl
  · rw [BitVec.le_def, hShift]
    exact hPos

@[simp] theorem getLsbD_mask
    {bits : Nat}
    (hBits : bits < 32)
    (k : Nat) :
    (mask bits).getLsbD k = decide (k < bits) := by
  rw [← BitVec.testBit_toNat, toNat_mask hBits,
    Nat.testBit_two_pow_sub_one]

/- The entry at an index lies inside of the leaf. -/
theorem entry_le
    (hIndex : index < l.getLeafEntries) :
    index * l.bitsPerEntry + l.bitsPerEntry ≤ leafBits := by
  have hSucc : (index + 1) * l.bitsPerEntry ≤ leafBits :=
    (Nat.le_div_iff_mul_le
      (by unfold bitsPerEntry; omega)).mp hIndex
  rw [Nat.succ_mul] at hSucc
  exact hSucc

/-
  The entry at an index is within the three bytes that are
  read and written for it.
-/
def InReach (l : RadixLeaf) (index : Nat) : Prop :=
  index * l.bitsPerEntry % 8 + l.bitsPerEntry ≤ 24

instance
    (l : RadixLeaf)
    (index : Nat) :
    Decidable (InReach l index) :=
  inferInstanceAs (Decidable (_ ≤ _))

/-
  The sizes of a way for which every entry is within three
  bytes. An entry of 18 bits starts at an even bit, one of
  20 bits at a half byte and one of 24 bits at a byte.
-/
def Reaches (wayBits : Nat) : Prop :=
  wayBits ≤ 17 ∨ wayBits = 19 ∨ wayBits = 23

instance (wayBits : Nat) : Decidable (Reaches wayBits) :=
  inferInstanceAs (Decidable (_ ∨ _))

theorem inReach_of_reaches
    (hWay : Reaches l.wayBits)
    (index : Nat) :
    InReach l index := by
  unfold InReach
  have hBits : l.bitsPerEntry = 1 + l.wayBits := rfl
  rcases hWay with hSmall | hWay | hWay
  · by_cases hEq : l.bitsPerEntry = 18
    · rw [hEq]
      omega
    · omega
  · rw [hBits, hWay]
    omega
  · rw [hBits, hWay]
    omega

theorem inReach_lt
    (hReach : InReach l index) :
    l.bitsPerEntry < 32 := by
  unfold InReach at hReach
  omega

theorem wayBits_lt
    (hReach : InReach l index) :
    l.wayBits < 31 := by
  have hBits := inReach_lt hReach
  unfold bitsPerEntry at hBits
  omega

/- The bits of a byte that is put at bit `n` of a word. -/
theorem getLsbD_shifted
    (byte : BitVec 8)
    (n : Nat)
    {m : Nat}
    (hWord : m < 32) :
    (byte.setWidth 32 <<< n).getLsbD m =
      (decide (n ≤ m) && byte.getLsbD (m - n)) := by
  have hRest : m - n < 32 := by omega
  rw [BitVec.getLsbD_shiftLeft, BitVec.getLsbD_setWidth]
  by_cases hLow : n ≤ m
  · simp [hWord, hRest, hLow]
  · simp [hLow]

/-
  The bits of the word of an entry, by the byte that each
  bit comes from.
-/
theorem getLsbD_rawEntry
    (hIndex : index < l.getLeafEntries)
    (hReach : InReach l index)
    {k : Nat}
    (hBit : k < l.bitsPerEntry) :
    (l.rawEntry index).getLsbD k =
      Packed.bit l.data (index * l.bitsPerEntry + k) := by
  have hInside := entry_le hIndex
  unfold InReach at hReach
  unfold leafBits at hInside
  have hBytes : leafBytes = 4096 := rfl
  simp only [rawEntry]
  generalize index * l.bitsPerEntry = pos at *
  generalize l.bitsPerEntry = bits at *
  have hPos : pos + k = 8 * (pos / 8) + (pos % 8 + k) := by
    omega
  rw [hPos, BitVec.getLsbD_ushiftRight, BitVec.getLsbD_or,
    BitVec.getLsbD_or]
  have hWord : pos % 8 + k < 32 := by omega
  have hFirst :
      ((l.data (pos / 8)).setWidth 32).getLsbD
        (pos % 8 + k) =
          (l.data (pos / 8)).getLsbD (pos % 8 + k) := by
    simp [hWord]
  rw [hFirst]
  -- the byte of the bit decides which of the reads matter
  obtain hByte | hByte | hByte :
      pos % 8 + k < 8 ∨
        (8 ≤ pos % 8 + k ∧ pos % 8 + k < 16) ∨
        (16 ≤ pos % 8 + k ∧ pos % 8 + k < 24) := by
    omega
  · have hBits := Packed.bit_byte l.data (pos / 8) (k := 0) hByte
    rw [Nat.mul_zero, Nat.zero_add] at hBits
    rw [hBits]
    have hNot : ¬ 8 ≤ pos % 8 + k := by omega
    have hNot' : ¬ 16 ≤ pos % 8 + k := by omega
    split_ifs
    all_goals simp [getLsbD_shifted _ _ hWord, hNot, hNot']
  · have hBits := Packed.bit_byte l.data (pos / 8)
      (k := 1) (r := pos % 8 + k - 8) (by omega)
    rw [show 8 * 1 + (pos % 8 + k - 8) = pos % 8 + k by
      omega] at hBits
    have hNot' : ¬ 16 ≤ pos % 8 + k := by omega
    rw [hBits, BitVec.getLsbD_of_ge _ _ hByte.1, if_pos (by omega)]
    split_ifs
    all_goals simp [getLsbD_shifted _ _ hWord, hByte.1, hNot']
  · have hBits := Packed.bit_byte l.data (pos / 8)
      (k := 2) (r := pos % 8 + k - 16) (by omega)
    rw [show 8 * 2 + (pos % 8 + k - 16) = pos % 8 + k by
      omega] at hBits
    rw [hBits, BitVec.getLsbD_of_ge _ _ (by omega),
      if_pos (by omega), if_pos (by omega),
      getLsbD_shifted _ _ hWord, getLsbD_shifted _ _ hWord,
      BitVec.getLsbD_of_ge _ _ (by omega)]
    simp [hByte.1]

/- The word of an entry is what its field holds. -/
theorem holds_entry
    (hIndex : index < l.getLeafEntries)
    (hReach : InReach l index) :
    Packed.Holds l.data (index * l.bitsPerEntry)
      l.bitsPerEntry (l.entry index).toNat := by
  intro k
  rw [BitVec.testBit_toNat, entry, BitVec.getLsbD_and,
    getLsbD_mask (inReach_lt hReach)]
  by_cases hBit : k < l.bitsPerEntry
  · simp [hBit, getLsbD_rawEntry hIndex hReach hBit]
  · simp [hBit]

------------------------------------------------------------
-- Writing An Entry
------------------------------------------------------------

/- A masked byte, bit by bit. -/
theorem getLsbD_maskByte
    (byte : BitVec 8)
    (clearMask setMask : BitVec 32)
    (k : Nat)
    {r : Nat}
    (hBit : r < 8) :
    (maskByte byte clearMask setMask k).getLsbD r =
      (byte.getLsbD r && clearMask.getLsbD (8 * k + r) ||
        setMask.getLsbD (8 * k + r)) := by
  simp [maskByte, hBit]

/-
  Bit `m` of the bytes from the first byte of an entry on,
  after the masks for the entry are applied to it.
-/
theorem masked_bit
    {bits offset m : Nat}
    (v : BitVec 32)
    (old : Bool)
    (hBits : bits < 32)
    (hWord : m < 32) :
    (old && (~~~ (mask bits <<< offset)).getLsbD m ||
      ((v &&& mask bits) <<< offset).getLsbD m) =
      if offset ≤ m ∧ m < offset + bits then
        v.toNat.testBit (m - offset)
      else
        old := by
  rw [BitVec.getLsbD_not, BitVec.getLsbD_shiftLeft,
    BitVec.getLsbD_shiftLeft, BitVec.getLsbD_and,
    getLsbD_mask hBits, BitVec.testBit_toNat]
  by_cases hLow : offset ≤ m
  · by_cases hHigh : m < offset + bits
    · have hRest : m - offset < bits := by omega
      have hAbove : ¬ m < offset := by omega
      simp [hLow, hHigh, hWord, hRest, hAbove]
    · have hRest : ¬ m - offset < bits := by omega
      simp [hHigh, hWord, hRest]
  · have hBelow : m < offset := by omega
    simp [hLow, hBelow, hWord]

/- Which byte of the leaf an entry changes, and how. -/
theorem data_setEntry
    (hIndex : index < l.getLeafEntries)
    (valid : Bool)
    (way i : Nat) :
    let pos := index * l.bitsPerEntry
    let bits := l.bitsPerEntry
    let v := packEntry l.wayBits valid way
    (l.setEntry index valid way).data i =
      if pos / 8 ≤ i ∧ i < pos / 8 + 3 ∧
          i < leafBytes ∧
          (i = pos / 8 + 2 → 16 < pos % 8 + bits) then
        maskByte (l.data i) (~~~ (mask bits <<< (pos % 8)))
          ((v &&& mask bits) <<< (pos % 8)) (i - pos / 8)
      else
        l.data i := by
  have hInside := entry_le hIndex
  unfold leafBits at hInside
  have hBytes : leafBytes = 4096 := rfl
  have hPositive : 0 < l.bitsPerEntry := by
    unfold bitsPerEntry
    omega
  simp only [setEntry, if_neg (not_le.mpr hIndex)]
  generalize index * l.bitsPerEntry = pos at *
  generalize l.bitsPerEntry = bits at *
  by_cases hFirst : i = pos / 8
  · rw [if_pos hFirst, if_pos (by omega),
      show i - pos / 8 = 0 by omega]
  by_cases hSecond : i = pos / 8 + 1 ∧ pos / 8 + 1 < leafBytes
  · rw [if_neg hFirst, if_pos hSecond, if_pos (by omega),
      show i - pos / 8 = 1 by omega]
  by_cases hThird : i = pos / 8 + 2 ∧
      pos / 8 + 2 < leafBytes ∧ 16 < pos % 8 + bits
  · rw [if_neg hFirst, if_neg hSecond, if_pos hThird,
      if_pos (by omega), show i - pos / 8 = 2 by omega]
  · rw [if_neg hFirst, if_neg hSecond, if_neg hThird,
      if_neg (by omega)]

/- An entry is written into its field. -/
theorem writes_setEntry
    (hIndex : index < l.getLeafEntries)
    (hReach : InReach l index)
    (valid : Bool)
    (way : Nat) :
    Packed.Writes l.data (index * l.bitsPerEntry)
      l.bitsPerEntry (packEntry l.wayBits valid way).toNat
      (l.setEntry index valid way).data := by
  have hInside := entry_le hIndex
  have hBits := inReach_lt hReach
  unfold leafBits at hInside
  unfold InReach at hReach
  have hBytes : leafBytes = 4096 := rfl
  intro j
  have hRest : j % 8 < 8 := Nat.mod_lt j (by decide)
  rw [Packed.bit, data_setEntry hIndex]
  generalize index * l.bitsPerEntry = pos at *
  generalize l.bitsPerEntry = bits at *
  by_cases hWritten : pos / 8 ≤ j / 8 ∧
      j / 8 < pos / 8 + 3 ∧ j / 8 < leafBytes ∧
      (j / 8 = pos / 8 + 2 → 16 < pos % 8 + bits)
  · rw [if_pos hWritten, getLsbD_maskByte _ _ _ _ hRest,
      masked_bit _ _ hBits (by omega)]
    have hIff : (pos % 8 ≤ 8 * (j / 8 - pos / 8) + j % 8 ∧
        8 * (j / 8 - pos / 8) + j % 8 < pos % 8 + bits) ↔
        (pos ≤ j ∧ j < pos + bits) := by
      omega
    by_cases hField : pos ≤ j ∧ j < pos + bits
    · rw [if_pos hField, if_pos (hIff.mpr hField),
        show 8 * (j / 8 - pos / 8) + j % 8 - pos % 8 =
          j - pos by omega]
    · rw [if_neg hField, if_neg (fun h => hField (hIff.mp h)),
        Packed.bit]
  · have hField : ¬ (pos ≤ j ∧ j < pos + bits) := by
      omega
    rw [if_neg hWritten, if_neg hField, Packed.bit]

variable {wayBits : Nat}

/- The bits of a packed entry. -/
theorem getLsbD_packEntry
    (hWay : wayBits < 31)
    (valid : Bool)
    (way k : Nat) :
    (packEntry wayBits valid way).getLsbD k =
      (decide (k < wayBits) && way.testBit k ||
        decide (k = wayBits) && valid) := by
  have hFlag :
      (if valid then 1#32 <<< wayBits else 0#32).getLsbD k =
        (decide (k = wayBits) && valid) := by
    cases valid with
    | false => simp
    | true =>
        rw [if_pos rfl, ← BitVec.twoPow_eq, BitVec.getLsbD_twoPow]
        by_cases hEq : k = wayBits
        · simp [hEq]
          omega
        · simp [hEq, Ne.symm hEq]
  rw [packEntry, BitVec.getLsbD_or, hFlag, BitVec.getLsbD_and,
    BitVec.getLsbD_ofNat, getLsbD_mask (by omega)]
  by_cases hLow : k < wayBits
  · have hWord : k < 32 := by omega
    simp [hLow, hWord]
  · simp [hLow]

theorem packEntry_lt
    (hWay : wayBits < 31)
    (valid : Bool)
    (way : Nat) :
    (packEntry wayBits valid way).toNat < 2 ^ (1 + wayBits) := by
  apply Nat.lt_pow_two_of_testBit
  intro k hHigh
  rw [BitVec.testBit_toNat, getLsbD_packEntry hWay]
  have hNot : ¬ k < wayBits := by omega
  have hNe : k ≠ wayBits := by omega
  simp [hNot, hNe]

/- An entry is read from the word that its field holds. -/
theorem getEntry_of_holds
    (hIndex : index < l.getLeafEntries)
    (hReach : InReach l index)
    {valid : Bool}
    {way : Nat}
    (hHolds :
      Packed.Holds l.data (index * l.bitsPerEntry)
        l.bitsPerEntry
        (packEntry l.wayBits valid way).toNat) :
    l.getEntry index =
      (valid, ((way % 2 ^ l.wayBits : Nat) : Int)) := by
  have hEntry : l.entry index = packEntry l.wayBits valid way :=
    BitVec.eq_of_toNat_eq
      ((holds_entry hIndex hReach).unique hHolds)
  have hWay := wayBits_lt hReach
  have hValid :
      (((packEntry l.wayBits valid way >>> l.wayBits) &&&
        1#32) == 1#32) = valid := by
    have hOne : (packEntry l.wayBits valid way >>>
        l.wayBits) &&& 1#32 =
          if valid then 1#32 else 0#32 := by
      apply BitVec.eq_of_getLsbD_eq
      intro k hk
      rw [BitVec.getLsbD_and, BitVec.getLsbD_ushiftRight,
        getLsbD_packEntry hWay]
      cases valid with
      | false => cases k <;> simp
      | true => cases k <;> simp
    rw [hOne]
    cases valid <;> rfl
  have hRead :
      (packEntry l.wayBits valid way &&&
        mask l.wayBits).toNat = way % 2 ^ l.wayBits := by
    apply Nat.eq_of_testBit_eq
    intro k
    rw [BitVec.testBit_toNat, BitVec.getLsbD_and,
      getLsbD_packEntry hWay, getLsbD_mask (by omega),
      Nat.testBit_mod_two_pow]
    by_cases hLow : k < l.wayBits
    · have hNe : k ≠ l.wayBits := by omega
      simp [hLow, hNe]
    · simp [hLow]
  simp only [getEntry, if_neg (not_le.mpr hIndex), hEntry,
    hValid, hRead]

@[simp] theorem wayBits_setEntry
    (l : RadixLeaf)
    (index : Nat)
    (valid : Bool)
    (way : Nat) :
    (l.setEntry index valid way).wayBits = l.wayBits := by
  unfold setEntry
  split_ifs
  · rfl
  · rfl

@[simp] theorem getLeafEntries_setEntry
    (l : RadixLeaf)
    (index : Nat)
    (valid : Bool)
    (way : Nat) :
    (l.setEntry index valid way).getLeafEntries =
      l.getLeafEntries := by
  simp [getLeafEntries, bitsPerEntry]

/- A new leaf has no valid entry. -/
theorem getEntry_construct
    (hIndex : index < (construct wayBits).getLeafEntries)
    (hReach : InReach (construct wayBits) index) :
    (construct wayBits).getEntry index = (false, 0) := by
  have hZero : (packEntry wayBits false 0).toNat = 0 := by
    simp [packEntry]
  have hHolds :
      Packed.Holds (construct wayBits).data
        (index * (construct wayBits).bitsPerEntry)
        (construct wayBits).bitsPerEntry
        (packEntry wayBits false 0).toNat := by
    rw [hZero]
    exact Packed.holds_zero _ _
  rw [getEntry_of_holds hIndex hReach hHolds]
  simp

/-
  What is read after a write: the entry that was written,
  with the low bits of its way, and the others as before.
-/
theorem getEntry_setEntry
    {index' : Nat}
    (hIndex : index < l.getLeafEntries)
    (hIndex' : index' < l.getLeafEntries)
    (hReach : InReach l index)
    (hReach' : InReach l index')
    (valid : Bool)
    (way : Nat) :
    (l.setEntry index valid way).getEntry index' =
      if index' = index then
        (valid, ((way % 2 ^ l.wayBits : Nat) : Int))
      else
        l.getEntry index' := by
  have hWrites := writes_setEntry hIndex hReach valid way
  have hWay := wayBits_lt hReach
  have hBits : (l.setEntry index valid way).bitsPerEntry =
      l.bitsPerEntry := by
    simp [bitsPerEntry]
  have hInside : index' <
      (l.setEntry index valid way).getLeafEntries := by
    simpa using hIndex'
  have hReachAfter :
      InReach (l.setEntry index valid way) index' := by
    unfold InReach at hReach' ⊢
    rw [hBits]
    exact hReach'
  by_cases hEq : index' = index
  · subst hEq
    have hHolds := hWrites.holds (packEntry_lt hWay valid way)
    rw [← hBits, ← wayBits_setEntry l index' valid way] at hHolds
    rw [if_pos rfl,
      getEntry_of_holds hInside hReachAfter hHolds,
      wayBits_setEntry]
  · rw [if_neg hEq]
    have hApart : index' * l.bitsPerEntry + l.bitsPerEntry ≤
        index * l.bitsPerEntry ∨
        index * l.bitsPerEntry + l.bitsPerEntry ≤
          index' * l.bitsPerEntry := by
      rcases Nat.lt_or_gt_of_ne hEq with hLess | hMore
      · left
        rw [← Nat.succ_mul]
        exact Nat.mul_le_mul_right _ hLess
      · right
        rw [← Nat.succ_mul]
        exact Nat.mul_le_mul_right _ hMore
    have hKept := hWrites.holds_of_disjoint hApart
      (holds_entry hIndex' hReach')
    have hAfter := holds_entry hInside hReachAfter
    rw [hBits] at hAfter
    have hSame : (l.setEntry index valid way).entry index' =
        l.entry index' :=
      BitVec.eq_of_toNat_eq (hAfter.unique hKept)
    simp only [getEntry, getLeafEntries_setEntry, hSame,
      wayBits_setEntry]

/- The way of a valid entry. -/
def wayAt (l : RadixLeaf) (index : Nat) : Option Nat :=
  if (l.getEntry index).1 then
    some (l.getEntry index).2.toNat
  else
    none

/-
  The flag of an entry that is not within three bytes is not
  read, so the entry is never valid.
-/
theorem wayAt_of_not_inReach
    (hOut : ¬ InReach l index) :
    l.wayAt index = none := by
  have hBit : (l.rawEntry index).getLsbD l.wayBits = false := by
    have hBits : l.bitsPerEntry = 1 + l.wayBits := rfl
    unfold InReach at hOut
    simp only [rawEntry]
    generalize index * l.bitsPerEntry = pos at *
    have hHigh : ∀ (byte : BitVec 8) (n : Nat), n ≤ 16 →
        (byte.setWidth 32 <<< n).getLsbD
          (pos % 8 + l.wayBits) = false := by
      intro byte n hSmall
      rw [BitVec.getLsbD_shiftLeft, BitVec.getLsbD_setWidth,
        BitVec.getLsbD_of_ge byte _ (by omega)]
      simp
    have hFirst := hHigh (l.data (pos / 8)) 0 (by decide)
    rw [BitVec.shiftLeft_zero] at hFirst
    rw [BitVec.getLsbD_ushiftRight, BitVec.getLsbD_or,
      BitVec.getLsbD_or, hFirst]
    split_ifs
    all_goals simp [hHigh]
  have hFlag : (l.getEntry index).1 = false := by
    unfold getEntry
    split_ifs
    · rfl
    · simp only [beq_eq_false_iff_ne]
      intro hOne
      have hLow := congrArg (fun x => x.getLsbD 0) hOne
      simp [entry, hBit] at hLow
  simp [wayAt, hFlag]

/- The ways of a leaf after a write. -/
theorem wayAt_setEntry
    {index' : Nat}
    (hWay : Reaches l.wayBits)
    (hIndex : index < l.getLeafEntries)
    (hIndex' : index' < l.getLeafEntries)
    (valid : Bool)
    (way : Nat) :
    (l.setEntry index valid way).wayAt index' =
      if index' = index then
        if valid then some (way % 2 ^ l.wayBits) else none
      else
        l.wayAt index' := by
  unfold wayAt
  rw [getEntry_setEntry hIndex hIndex'
    (inReach_of_reaches hWay index) (inReach_of_reaches hWay index')]
  by_cases hEq : index' = index
  · cases valid with
    | false => simp [hEq]
    | true => simp only [hEq, if_true, Int.toNat_natCast]
  · simp [hEq]

theorem wayAt_construct
    (hWay : Reaches wayBits)
    (hIndex : index < (construct wayBits).getLeafEntries) :
    (construct wayBits).wayAt index = none := by
  have hReach : InReach (construct wayBits) index :=
    inReach_of_reaches hWay index
  simp [wayAt, getEntry_construct hIndex hReach]

end RadixLeaf

end Utopia

end Virtuoso
