import Virtuoso.PteOffset.Basic

/-
  The bits that the codec of `pte_offset_codec.h` reads.

  Where no shift reaches the width of its operand, a field of
  a payload is read bit by bit, and a read offset repeats the
  highest bit of its field.

  Main declarations:
    * `PTEOffset.extractBits_spec`
    * `PTEOffsetConfig.decodeSlot_spec`
-/

namespace Virtuoso

namespace PTEOffset

variable {w : Nat} {x : BitVec w} {k : BitVec 32}

theorem shl_of_lt
    (hLt : k.toNat < w) :
    shl x k = some (x <<< k.toNat) :=
  if_pos hLt

theorem shl_of_le
    (hLe : w ≤ k.toNat) :
    shl x k = none :=
  if_neg (Nat.not_lt.mpr hLe)

theorem shr_of_lt
    (hLt : k.toNat < w) :
    shr x k = some (x >>> k.toNat) :=
  if_pos hLt

/- The low bits. -/
theorem getLsbD_ones
    {m j : Nat}
    (hLt : m < w) :
    ((1#w <<< m) - 1#w).getLsbD j = decide (j < m) := by
  have hPow : 2 ^ m < 2 ^ w :=
    Nat.pow_lt_pow_right Nat.one_lt_two hLt
  have hPos : 0 < 2 ^ m := Nat.two_pow_pos m
  have hOne : (1#w).toNat = 1 := by
    rw [BitVec.toNat_ofNat]
    exact Nat.mod_eq_of_lt (by omega)
  have hEq : ((1#w <<< m) - 1#w).toNat = 2 ^ m - 1 := by
    rw [BitVec.toNat_sub, BitVec.toNat_shiftLeft, hOne,
      Nat.one_shiftLeft, Nat.mod_eq_of_lt hPow]
    have hSum : 2 ^ w - 1 + 2 ^ m = 2 ^ w + (2 ^ m - 1) := by
      omega
    rw [hSum, Nat.add_mod_left]
    exact Nat.mod_eq_of_lt (by omega)
  rw [← BitVec.testBit_toNat, hEq, Nat.testBit_two_pow_sub_one]

/- The low bits of a value, moved to a place. -/
theorem getLsbD_field
    {u m j start : Nat}
    (x : BitVec u)
    (hLt : m < w)
    (hJ : j < w) :
    ((x.setWidth w &&& ((1#w <<< m) - 1#w)) <<< start).getLsbD j =
      (decide (start ≤ j ∧ j < start + m) &&
        x.getLsbD (j - start)) := by
  rw [BitVec.getLsbD_shiftLeft, BitVec.getLsbD_and,
    BitVec.getLsbD_setWidth, getLsbD_ones hLt]
  by_cases hLow : j < start
  · have hNot : ¬ start ≤ j := by omega
    simp [hLow, hNot]
  · by_cases hHigh : j < start + m
    · have hIn : j - start < m := by omega
      have hIn' : j - start < w := by omega
      have hGe : start ≤ j := by omega
      simp [hJ, hLow, hHigh, hIn, hIn', hGe]
    · have hOut : ¬ j - start < m := by omega
      simp [hHigh, hOut]

/- A bit is set if the bit alone is in common. -/
theorem and_bit_ne_zero_iff
    {m : Nat} :
    x &&& (1#w <<< m) ≠ 0#w ↔ x.getLsbD m = true := by
  have hPow : 1#w <<< m = BitVec.twoPow w m := rfl
  rw [hPow, BitVec.and_twoPow]
  by_cases hBit : x.getLsbD m = true
  · rw [if_pos hBit]
    refine iff_of_true ?_ hBit
    intro hZero
    have hGet := congrArg (fun y => BitVec.getLsbD y m) hZero
    have hLt := BitVec.lt_of_getLsbD hBit
    simp [hLt] at hGet
  · simp [hBit]

theorem extractBits_spec
    (val : BitVec 128)
    {start width : BitVec 32}
    (hStart : start.toNat < 128)
    (hWidth : width.toNat < 128) :
    ∃ y, extractBits val start width = some y ∧
      ∀ j, y.getLsbD j =
        (decide (j < 64) && decide (j < width.toNat) &&
          val.getLsbD (start.toNat + j)) := by
  rw [extractBits, shr_of_lt hStart, shl_of_lt hWidth]
  refine ⟨_, rfl, ?_⟩
  intro j
  rw [BitVec.getLsbD_setWidth, BitVec.getLsbD_and,
    getLsbD_ones hWidth, BitVec.getLsbD_ushiftRight,
    Bool.and_assoc, Bool.and_comm (decide (j < width.toNat))]

/-
  The highest bit of the field is repeated. A field of all
  64 bits has to be that of no negative number.
-/
theorem signExtend_spec
    {val : BitVec 64}
    {width : BitVec 32}
    (hPos : 0 < width.toNat)
    (hHigh : ∀ j, width.toNat ≤ j → val.getLsbD j = false)
    (hWidth : width.toNat < 64 ∨
      width.toNat = 64 ∧ val.getLsbD 63 = false) :
    ∃ y, signExtend val width = some y ∧
      ∀ j, j < 32 →
        y.getLsbD j = val.getLsbD (min j (width.toNat - 1)) := by
  have hSome : width ≠ 0#32 := by
    intro hEq
    rw [hEq] at hPos
    exact Nat.lt_irrefl 0 hPos
  have hLast : (width - 1#32).toNat = width.toNat - 1 := by
    have hMax := width.isLt
    rw [BitVec.toNat_sub]
    simp only [BitVec.toNat_ofNat]
    omega
  rw [signExtend, if_neg hSome, shl_of_lt (by omega)]
  simp only [Option.bind_eq_bind, Option.bind_some, hLast,
    and_bit_ne_zero_iff]
  by_cases hSign : val.getLsbD (width.toNat - 1) = true
  · have hLess : width.toNat < 64 := by
      rcases hWidth with hLess | ⟨hEq, hClear⟩
      · exact hLess
      · rw [hEq, hClear] at hSign
        cases hSign
    rw [if_pos hSign, shl_of_lt hLess]
    refine ⟨_, rfl, ?_⟩
    intro j hJ
    have hJ' : j < 64 := by omega
    simp only [BitVec.getLsbD_setWidth, BitVec.getLsbD_or,
      BitVec.getLsbD_not, getLsbD_ones hLess, hJ, hJ',
      decide_true, Bool.true_and]
    by_cases hIn : j < width.toNat
    · have hMin : min j (width.toNat - 1) = j := by omega
      simp [hIn, hMin]
    · have hMin : min j (width.toNat - 1) =
          width.toNat - 1 := by omega
      simp [hIn, hMin, hSign]
  · rw [if_neg hSign]
    refine ⟨_, rfl, ?_⟩
    intro j hJ
    rw [BitVec.getLsbD_setWidth, decide_eq_true hJ, Bool.true_and]
    by_cases hIn : j < width.toNat
    · have hMin : min j (width.toNat - 1) = j := by omega
      rw [hMin]
    · have hMin : min j (width.toNat - 1) =
          width.toNat - 1 := by omega
      rw [hMin, hHigh j (by omega), Bool.eq_false_iff.mpr hSign]

end PTEOffset

namespace PTEOffsetConfig

open PTEOffset

/- The bits of a slot, without wrapping around. -/
def width (cfg : PTEOffsetConfig) : Nat :=
  cfg.offsetBits.toNat + cfg.confBits.toNat

/-
  The slots are in the payload, and all of them together are
  not as wide as it.
-/
structure Fits (cfg : PTEOffsetConfig) : Prop where
  inside :
    cfg.baseBit.toNat + cfg.numEntries.toNat * cfg.width ≤ 128
  narrow : cfg.numEntries.toNat * cfg.width < 128

instance (cfg : PTEOffsetConfig) : Decidable cfg.Fits :=
  decidable_of_iff
    (cfg.baseBit.toNat + cfg.numEntries.toNat * cfg.width ≤ 128 ∧
      cfg.numEntries.toNat * cfg.width < 128)
    ⟨fun h => ⟨h.1, h.2⟩, fun h => ⟨h.inside, h.narrow⟩⟩

variable {cfg : PTEOffsetConfig} {i p : Nat}

theorem Accepted.offsetBits_pos
    (hAccepted : cfg.Accepted) :
    0 < cfg.offsetBits.toNat :=
  hAccepted.2.1

theorem Accepted.numEntries_pos
    (hAccepted : cfg.Accepted) :
    0 < cfg.numEntries.toNat :=
  hAccepted.2.2

/- A slot is not wider than all of them. -/
theorem Fits.width_lt
    (hFits : cfg.Fits)
    (hAccepted : cfg.Accepted) :
    cfg.width < 128 :=
  Nat.lt_of_le_of_lt
    (Nat.le_mul_of_pos_left _ hAccepted.numEntries_pos)
    hFits.narrow

/- The end of a slot. -/
theorem Fits.slot_le
    (hFits : cfg.Fits)
    (hLt : i < cfg.numEntries.toNat) :
    cfg.baseBit.toNat + i * cfg.width + cfg.width ≤ 128 := by
  have hSlots : (i + 1) * cfg.width ≤
      cfg.numEntries.toNat * cfg.width :=
    Nat.mul_le_mul_right _ hLt
  rw [Nat.succ_mul] at hSlots
  have hInside := hFits.inside
  omega

theorem Fits.toNat_slotBase
    (hFits : cfg.Fits)
    (hAccepted : cfg.Accepted)
    (hLt : i < cfg.numEntries.toNat) :
    (cfg.slotBase i).toNat = cfg.baseBit.toNat + i * cfg.width := by
  have hWidth := hFits.width_lt hAccepted
  have hSlot := hFits.slot_le hLt
  have hIndex := cfg.numEntries.isLt
  have hNat : cfg.slotWidth.toNat = cfg.width := by
    rw [width] at hWidth ⊢
    rw [slotWidth, BitVec.toNat_add]
    omega
  rw [slotBase, BitVec.toNat_add, BitVec.toNat_mul,
    BitVec.toNat_ofNat, hNat,
    Nat.mod_eq_of_lt (show i < 2 ^ 32 by omega),
    Nat.mod_eq_of_lt (show i * cfg.width < 2 ^ 32 by omega)]
  exact Nat.mod_eq_of_lt (by omega)

theorem Fits.toNat_confBase
    (hFits : cfg.Fits)
    (hAccepted : cfg.Accepted)
    (hLt : i < cfg.numEntries.toNat) :
    (cfg.slotBase i + cfg.offsetBits).toNat =
      cfg.baseBit.toNat + i * cfg.width + cfg.offsetBits.toNat := by
  have hSlot := hFits.slot_le hLt
  rw [width] at hSlot
  rw [BitVec.toNat_add, hFits.toNat_slotBase hAccepted hLt]
  rw [width]
  exact Nat.mod_eq_of_lt (by omega)

/- The bits of a slot, from its lowest one on. -/
def slotBits
    (cfg : PTEOffsetConfig)
    (v : BitVec 128)
    (i p : Nat) : Bool :=
  v.getLsbD (cfg.baseBit.toNat + i * cfg.width + p)

/-
  The bit of an offset that a bit of the field is read as: a
  signed offset repeats the highest one.
-/
def offsetBit
    (cfg : PTEOffsetConfig)
    (v : BitVec 128)
    (i j : Nat) : Bool :=
  if cfg.signedOffset then
    cfg.slotBits v i (min j (cfg.offsetBits.toNat - 1))
  else
    decide (j < cfg.offsetBits.toNat) && cfg.slotBits v i j

/-
  Reading an offset has an outcome: a signed offset of all 64
  bits has to be that of no negative number.
-/
def Readable
    (cfg : PTEOffsetConfig)
    (v : BitVec 128)
    (i : Nat) : Prop :=
  cfg.signedOffset = true →
    cfg.offsetBits.toNat < 64 ∨
      cfg.offsetBits.toNat = 64 ∧ cfg.slotBits v i 63 = false

theorem readDelta_spec
    {raw : BitVec 64}
    {v : BitVec 128}
    (hAccepted : cfg.Accepted)
    (hRaw : ∀ j, raw.getLsbD j =
      (decide (j < 64) && decide (j < cfg.offsetBits.toNat) &&
        cfg.slotBits v i j))
    (hRead : cfg.Readable v i) :
    ∃ d, cfg.readDelta raw = some d ∧
      ∀ j, j < 32 → d.getLsbD j = cfg.offsetBit v i j := by
  have hPos := hAccepted.offsetBits_pos
  cases hSigned : cfg.signedOffset with
  | false =>
      rw [readDelta, hSigned]
      refine ⟨_, rfl, ?_⟩
      intro j hJ
      have hJ' : j < 64 := by omega
      rw [BitVec.getLsbD_setWidth, hRaw, offsetBit, hSigned,
        decide_eq_true hJ, decide_eq_true hJ']
      rfl
  | true =>
      have hHigh : ∀ j, cfg.offsetBits.toNat ≤ j →
          raw.getLsbD j = false := by
        intro j hLe
        have hOut : ¬ j < cfg.offsetBits.toNat := by omega
        rw [hRaw, decide_eq_false hOut, Bool.and_false]
        rfl
      have hWidth : cfg.offsetBits.toNat < 64 ∨
          cfg.offsetBits.toNat = 64 ∧ raw.getLsbD 63 = false := by
        rcases hRead hSigned with hLess | ⟨hEq, hClear⟩
        · exact Or.inl hLess
        · refine Or.inr ⟨hEq, ?_⟩
          rw [hRaw, hClear, Bool.and_false]
      rcases signExtend_spec hPos hHigh hWidth with
        ⟨d, hSome, hBits⟩
      rw [readDelta, hSigned]
      refine ⟨d, hSome, ?_⟩
      intro j hJ
      have hIn : min j (cfg.offsetBits.toNat - 1) <
          cfg.offsetBits.toNat := by omega
      have hIn' : min j (cfg.offsetBits.toNat - 1) < 64 := by
        omega
      rw [hBits j hJ, hRaw, offsetBit, hSigned,
        decide_eq_true hIn, decide_eq_true hIn']
      rfl

theorem readConf_spec
    {v : BitVec 128}
    (hFits : cfg.Fits)
    (hAccepted : cfg.Accepted)
    (hLt : i < cfg.numEntries.toNat) :
    ∃ c, cfg.readConf v i = some c ∧
      ∀ j, j < 32 → c.getLsbD j =
        (decide (j < cfg.confBits.toNat) &&
          cfg.slotBits v i (cfg.offsetBits.toNat + j)) := by
  have hBase := hFits.toNat_confBase hAccepted hLt
  have hSlot := hFits.slot_le hLt
  have hWidth := hFits.width_lt hAccepted
  rw [width] at hSlot hWidth hBase
  rw [readConf]
  by_cases hSome : 0#32 < cfg.confBits
  · have hPos : 0 < cfg.confBits.toNat := hSome
    rcases extractBits_spec v
        (show (cfg.slotBase i + cfg.offsetBits).toNat < 128 by
          omega)
        (show cfg.confBits.toNat < 128 by omega) with
      ⟨raw, hRaw, hBits⟩
    rw [if_pos hSome, hRaw]
    refine ⟨_, rfl, ?_⟩
    intro j hJ
    have hJ' : j < 64 := by omega
    rw [BitVec.getLsbD_setWidth, hBits, slotBits, width,
      hBase, decide_eq_true hJ, decide_eq_true hJ',
      Nat.add_assoc]
    rfl
  · have hZero : ¬ 0 < cfg.confBits.toNat := hSome
    rw [if_neg hSome]
    refine ⟨_, rfl, ?_⟩
    intro j _
    have hOut : ¬ j < cfg.confBits.toNat := by omega
    rw [decide_eq_false hOut]
    simp

theorem decodeSlot_spec
    {v : BitVec 128}
    (hFits : cfg.Fits)
    (hAccepted : cfg.Accepted)
    (hLt : i < cfg.numEntries.toNat)
    (hRead : cfg.Readable v i) :
    ∃ e, cfg.decodeSlot v i = some e ∧
      (∀ j, j < 32 → e.deltaVpn.getLsbD j = cfg.offsetBit v i j) ∧
      ∀ j, j < 32 → e.conf.getLsbD j =
        (decide (j < cfg.confBits.toNat) &&
          cfg.slotBits v i (cfg.offsetBits.toNat + j)) := by
  have hBase := hFits.toNat_slotBase hAccepted hLt
  have hSlot := hFits.slot_le hLt
  have hWidth := hFits.width_lt hAccepted
  have hPos := hAccepted.offsetBits_pos
  have hSum : cfg.width =
    cfg.offsetBits.toNat + cfg.confBits.toNat := rfl
  rcases extractBits_spec v
      (show (cfg.slotBase i).toNat < 128 by omega)
      (show cfg.offsetBits.toNat < 128 by omega) with
    ⟨raw, hRaw, hRawBits⟩
  rw [hBase] at hRawBits
  rcases readDelta_spec hAccepted hRawBits hRead with
    ⟨d, hDelta, hDeltaBits⟩
  rcases readConf_spec (v := v) hFits hAccepted hLt with
    ⟨c, hConf, hConfBits⟩
  refine ⟨⟨d, c⟩, ?_, hDeltaBits, hConfBits⟩
  simp only [decodeSlot, hRaw, hDelta, hConf,
    Option.bind_eq_bind, Option.bind_some]

end PTEOffsetConfig

end Virtuoso
