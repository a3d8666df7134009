import Mathlib.Algebra.Group.Int.Defs
import Mathlib.Algebra.Group.Nat.Defs
import Mathlib.Data.List.Forall2
import Virtuoso.Lib.Traverse
import Virtuoso.PteOffset.Fields

/-
  The round trips of the codec of `pte_offset_codec.h`.

  Encoding puts the entries of a list into the slots and
  leaves all other bits; decoding takes them out again. Both
  have an outcome for every layout that is inside the payload
  and narrower than it. The constructor accepts others: slots
  of all 128 bits, for which the mask of the region is a
  shift by the width of the payload, and slots whose number
  of bits wraps around.

  Main declarations:
    * `PTEOffsetConfig.encodeAll_spec`
    * `PTEOffsetConfig.roundTrips_iff`
-/

------------------------------------------------------------
-- Encoding
------------------------------------------------------------

namespace Virtuoso

namespace PTEOffsetConfig

open PTEOffset

variable {cfg : PTEOffsetConfig} {v r : BitVec 128}
variable {e : PTEOffsetEntry} {es : List PTEOffsetEntry}
variable {i : Nat}

/- The bits that an entry has in its slot. -/
def entryBit
    (cfg : PTEOffsetConfig)
    (e : PTEOffsetEntry)
    (p : Nat) : Bool :=
  if p < cfg.offsetBits.toNat then
    (e.deltaVpn.signExtend 64).getLsbD p
  else e.conf.getLsbD (p - cfg.offsetBits.toNat)

theorem writeDelta_spec
    (delta : BitVec 32)
    (hFits : cfg.Fits)
    (hAccepted : cfg.Accepted)
    (hLt : i < cfg.numEntries.toNat) :
    ∃ x, cfg.writeDelta delta i = some x ∧
      ∀ j, j < 128 → x.getLsbD j =
        (decide (cfg.baseBit.toNat + i * cfg.width ≤ j ∧
            j < cfg.baseBit.toNat + i * cfg.width +
              cfg.offsetBits.toNat) &&
          (delta.signExtend 64).getLsbD
            (j - (cfg.baseBit.toNat + i * cfg.width))) := by
  have hBase := hFits.toNat_slotBase hAccepted hLt
  have hSlot := hFits.slot_le hLt
  have hWidth := hFits.width_lt hAccepted
  have hPos := hAccepted.offsetBits_pos
  have hSum : cfg.width =
    cfg.offsetBits.toNat + cfg.confBits.toNat := rfl
  have hOff : cfg.offsetBits.toNat < 128 := by omega
  rw [writeDelta, shl_of_lt hOff]
  simp only [Option.bind_eq_bind, Option.bind_some]
  rw [shl_of_lt (by omega)]
  refine ⟨_, rfl, ?_⟩
  intro j hJ
  rw [getLsbD_field _ hOff hJ, hBase]

theorem writeConf_spec
    (conf : BitVec 32)
    (hFits : cfg.Fits)
    (hAccepted : cfg.Accepted)
    (hLt : i < cfg.numEntries.toNat)
    (hSome : 0#32 < cfg.confBits) :
    ∃ x, cfg.writeConf conf i = some x ∧
      ∀ j, j < 128 → x.getLsbD j =
        (decide (cfg.baseBit.toNat + i * cfg.width +
              cfg.offsetBits.toNat ≤ j ∧
            j < cfg.baseBit.toNat + i * cfg.width + cfg.width) &&
          conf.getLsbD (j - (cfg.baseBit.toNat +
            i * cfg.width + cfg.offsetBits.toNat))) := by
  have hBase := hFits.toNat_confBase hAccepted hLt
  have hSlot := hFits.slot_le hLt
  have hWidth := hFits.width_lt hAccepted
  have hPos : 0 < cfg.confBits.toNat := hSome
  have hSum : cfg.width =
    cfg.offsetBits.toNat + cfg.confBits.toNat := rfl
  have hConf : cfg.confBits.toNat < 128 := by omega
  rw [writeConf, shl_of_lt hConf]
  simp only [Option.bind_eq_bind, Option.bind_some]
  rw [shl_of_lt (by omega)]
  refine ⟨_, rfl, ?_⟩
  intro j hJ
  rw [getLsbD_field _ hConf hJ, hBase, hSum, ← Nat.add_assoc]

/- An entry adds its bits to those of its slot. -/
theorem encodeSlot_spec
    (r : BitVec 128)
    (e : PTEOffsetEntry)
    (hFits : cfg.Fits)
    (hAccepted : cfg.Accepted)
    (hLt : i < cfg.numEntries.toNat) :
    ∃ r', cfg.encodeSlot r (e, i) = some r' ∧
      (∀ j, j < 128 →
        (j < cfg.baseBit.toNat + i * cfg.width ∨
          cfg.baseBit.toNat + i * cfg.width + cfg.width ≤ j) →
        r'.getLsbD j = r.getLsbD j) ∧
      ∀ p, p < cfg.width →
        cfg.slotBits r' i p =
          (cfg.slotBits r i p || cfg.entryBit e p) := by
  have hSlot := hFits.slot_le hLt
  have hSum : cfg.width =
    cfg.offsetBits.toNat + cfg.confBits.toNat := rfl
  rcases writeDelta_spec e.deltaVpn hFits hAccepted hLt with
    ⟨off, hOff, hOffBits⟩
  rw [encodeSlot, hOff, Option.bind_some]
  by_cases hSome : 0#32 < cfg.confBits
  · rcases writeConf_spec e.conf hFits hAccepted hLt hSome with
      ⟨conf, hConf, hConfBits⟩
    rw [if_pos hSome, hConf]
    refine ⟨_, rfl, ?_, ?_⟩
    · intro j hJ hOut
      have hNotOff : ¬ (cfg.baseBit.toNat + i * cfg.width ≤ j ∧
          j < cfg.baseBit.toNat + i * cfg.width +
            cfg.offsetBits.toNat) := by
        omega
      have hNotConf : ¬ (cfg.baseBit.toNat + i * cfg.width +
            cfg.offsetBits.toNat ≤ j ∧
          j < cfg.baseBit.toNat + i * cfg.width + cfg.width) := by
        omega
      rw [BitVec.getLsbD_or, BitVec.getLsbD_or, hOffBits j hJ,
        hConfBits j hJ, decide_eq_false hNotOff,
        decide_eq_false hNotConf]
      simp
    · intro p hP
      have hJ : cfg.baseBit.toNat + i * cfg.width + p < 128 := by
        omega
      rw [slotBits, slotBits, BitVec.getLsbD_or,
        BitVec.getLsbD_or, hOffBits _ hJ, hConfBits _ hJ,
        entryBit]
      generalize cfg.baseBit.toNat + i * cfg.width = start
      by_cases hField : p < cfg.offsetBits.toNat
      · have hNot : ¬ cfg.offsetBits.toNat ≤ p := by omega
        simp [hField, hNot]
      · have hRest : start + p - (start + cfg.offsetBits.toNat) =
            p - cfg.offsetBits.toNat := by
          omega
        have hGe : cfg.offsetBits.toNat ≤ p := by omega
        simp [hField, hGe, hP, hRest]
  · have hZero : ¬ 0 < cfg.confBits.toNat := hSome
    rw [if_neg hSome]
    refine ⟨_, rfl, ?_, ?_⟩
    · intro j hJ hOut
      have hNotOff : ¬ (cfg.baseBit.toNat + i * cfg.width ≤ j ∧
          j < cfg.baseBit.toNat + i * cfg.width +
            cfg.offsetBits.toNat) := by
        omega
      rw [BitVec.getLsbD_or, hOffBits j hJ, decide_eq_false hNotOff]
      simp
    · intro p hP
      have hJ : cfg.baseBit.toNat + i * cfg.width + p < 128 := by
        omega
      have hField : p < cfg.offsetBits.toNat := by omega
      rw [slotBits, slotBits, BitVec.getLsbD_or,
        hOffBits _ hJ, entryBit, if_pos hField]
      simp [hField]

/- The slots from one on are filled in turn. -/
theorem foldlM_encodeSlot
    (r : BitVec 128)
    (k : Nat)
    (es : List PTEOffsetEntry)
    (hFits : cfg.Fits)
    (hAccepted : cfg.Accepted)
    (hLe : k + es.length ≤ cfg.numEntries.toNat) :
    ∃ r', (es.zipIdx k).foldlM cfg.encodeSlot r = some r' ∧
      (∀ j, j < 128 →
        (j < cfg.baseBit.toNat + k * cfg.width ∨
          cfg.baseBit.toNat + (k + es.length) * cfg.width ≤ j) →
        r'.getLsbD j = r.getLsbD j) ∧
      ∀ i e, es[i]? = some e → ∀ p, p < cfg.width →
        cfg.slotBits r' (k + i) p =
          (cfg.slotBits r (k + i) p || cfg.entryBit e p) := by
  induction es generalizing r k with
  | nil => exact ⟨r, rfl, fun _ _ _ => rfl, by simp⟩
  | cons e es ih =>
      rw [List.length_cons] at hLe ⊢
      rcases encodeSlot_spec r e hFits hAccepted
          (show k < cfg.numEntries.toNat by omega) with
        ⟨r₁, hFirst, hOther, hSlot⟩
      rcases ih r₁ (k + 1) (by omega) with
        ⟨r', hRest, hOther', hSlots⟩
      have hWidth := hFits.slot_le
        (show k < cfg.numEntries.toNat by omega)
      have hNext : (k + 1) * cfg.width =
        k * cfg.width + cfg.width := Nat.succ_mul _ _
      refine ⟨r', ?_, ?_, ?_⟩
      · rw [List.zipIdx_cons, List.foldlM_cons, hFirst]
        exact hRest
      · intro j hJ hOut
        have hEnd : (k + 1 + es.length) * cfg.width =
            (k + (es.length + 1)) * cfg.width := by
          congr 1
          omega
        have hMono : (k + 1) * cfg.width ≤
            (k + (es.length + 1)) * cfg.width :=
          Nat.mul_le_mul_right _ (by omega)
        rw [hOther' j hJ (by omega), hOther j hJ (by omega)]
      · intro i e' hGet p hP
        cases i with
        | zero =>
            rw [List.getElem?_cons_zero, Option.some.injEq] at hGet
            rw [Nat.add_zero, ← hGet, ← hSlot p hP]
            exact hOther' _ (by omega) (by omega)
        | succ i =>
            rw [List.getElem?_cons_succ] at hGet
            have hIndex : k + (i + 1) = k + 1 + i := by omega
            have hLt := (List.getElem?_eq_some_iff.mp hGet).1
            have hIn := hFits.slot_le
              (show k + 1 + i < cfg.numEntries.toNat by omega)
            have hMono : (k + 1) * cfg.width ≤
                (k + 1 + i) * cfg.width :=
              Nat.mul_le_mul_right _ (by omega)
            rw [hIndex, hSlots i e' hGet p hP]
            congr 1
            exact hOther _ (by omega) (by omega)

/- The bits outside of the slots are the same. -/
def SameOutside
    (cfg : PTEOffsetConfig)
    (r v : BitVec 128) : Prop :=
  ∀ j, (j < cfg.baseBit.toNat ∨
      cfg.baseBit.toNat + cfg.numEntries.toNat * cfg.width ≤ j) →
    r.getLsbD j = v.getLsbD j

theorem Fits.toNat_totalBits
    (hFits : cfg.Fits)
    (hAccepted : cfg.Accepted) :
    cfg.totalBits.toNat = cfg.numEntries.toNat * cfg.width := by
  have hWidth := hFits.width_lt hAccepted
  have hNarrow := hFits.narrow
  have hNat : (cfg.offsetBits + cfg.confBits).toNat =
      cfg.width := by
    rw [width] at hWidth ⊢
    rw [BitVec.toNat_add]
    exact Nat.mod_eq_of_lt (by omega)
  rw [totalBits, BitVec.toNat_mul, hNat]
  exact Nat.mod_eq_of_lt (by omega)

/- Every slot gets its entry, and nothing else changes. -/
theorem encodeAll_spec
    (v : BitVec 128)
    (hFits : cfg.Fits)
    (hAccepted : cfg.Accepted)
    (hLength : es.length = cfg.numEntries.toNat) :
    ∃ r, cfg.encodeAll v es = some r ∧
      cfg.SameOutside r v ∧
      ∀ i e, es[i]? = some e → ∀ p, p < cfg.width →
        cfg.slotBits r i p = cfg.entryBit e p := by
  have hTotal := hFits.toNat_totalBits hAccepted
  have hNarrow := hFits.narrow
  have hInside := hFits.inside
  have hSome : 0 < cfg.numEntries.toNat * cfg.width :=
    Nat.mul_pos hAccepted.numEntries_pos
      (Nat.add_pos_left hAccepted.offsetBits_pos _)
  rw [encodeAll, if_pos hLength, shl_of_lt (by omega)]
  simp only [Option.bind_eq_bind, Option.bind_some]
  rw [shl_of_lt (by omega), Option.bind_some, hTotal]
  have hMask : ∀ j, j < 128 →
      (v &&& ~~~(((1#128 <<< (cfg.numEntries.toNat *
          cfg.width)) - 1#128) <<< cfg.baseBit.toNat)).getLsbD j =
        (v.getLsbD j && !decide (cfg.baseBit.toNat ≤ j ∧
          j < cfg.baseBit.toNat + cfg.numEntries.toNat *
            cfg.width)) := by
    intro j hJ
    rw [BitVec.getLsbD_and, BitVec.getLsbD_not,
      BitVec.getLsbD_shiftLeft, getLsbD_ones hNarrow,
      decide_eq_true hJ, Bool.true_and, Bool.true_and]
    congr 2
    by_cases hLow : j < cfg.baseBit.toNat
    · have hNot : ¬ cfg.baseBit.toNat ≤ j := by omega
      simp [hLow, hNot]
    · have hGe : cfg.baseBit.toNat ≤ j := by omega
      simp only [hLow, hGe, decide_false, Bool.not_false,
        Bool.true_and, true_and]
      congr 1
      exact propext (by omega)
  generalize v &&& ~~~(((1#128 <<< (cfg.numEntries.toNat *
    cfg.width)) - 1#128) <<< cfg.baseBit.toNat) = r at hMask ⊢
  rcases foldlM_encodeSlot r 0 es hFits hAccepted
      (by omega) with ⟨r', hFold, hOther, hSlots⟩
  refine ⟨r', hFold, ?_, ?_⟩
  · intro j hOut
    by_cases hJ : j < 128
    · have hNot : ¬ (cfg.baseBit.toNat ≤ j ∧
          j < cfg.baseBit.toNat + cfg.numEntries.toNat *
            cfg.width) := by
        omega
      rw [hOther j hJ, hMask j hJ, decide_eq_false hNot]
      · simp
      · rw [Nat.zero_mul, Nat.zero_add, hLength]
        omega
    · rw [BitVec.getLsbD_of_ge _ _ (by omega),
        BitVec.getLsbD_of_ge _ _ (by omega)]
  · intro i e hGet p hP
    have hLt := (List.getElem?_eq_some_iff.mp hGet).1
    have hSlot := hFits.slot_le (i := i) (by omega)
    have hSlots' := hSlots i e hGet p hP
    rw [Nat.zero_add] at hSlots'
    have hIn : cfg.baseBit.toNat ≤
          cfg.baseBit.toNat + i * cfg.width + p ∧
        cfg.baseBit.toNat + i * cfg.width + p <
          cfg.baseBit.toNat + cfg.numEntries.toNat * cfg.width := by
      have hSucc : (i + 1) * cfg.width ≤
          cfg.numEntries.toNat * cfg.width :=
        Nat.mul_le_mul_right _ (by omega)
      rw [Nat.succ_mul] at hSucc
      omega
    have hClear : cfg.slotBits r i p = false := by
      rw [slotBits, hMask _ (by omega), decide_eq_true hIn]
      simp
    rw [hSlots', hClear, Bool.false_or]

------------------------------------------------------------
-- Decoding And Round Trips
------------------------------------------------------------

theorem decode_eq_some_iff :
    cfg.decode v = some es ↔
      es.length = cfg.numEntries.toNat ∧
        ∀ i e, es[i]? = some e → cfg.decodeSlot v i = some e := by
  rw [decode, Traverse.mapM_eq_some_iff, List.forall₂_iff_get]
  constructor
  · rintro ⟨hLength, hAll⟩
    rw [List.length_range] at hLength
    refine ⟨hLength.symm, ?_⟩
    intro i e hGet
    rcases List.getElem?_eq_some_iff.mp hGet with ⟨hLt, hEq⟩
    have hSlot := hAll i (by rw [List.length_range]; omega) hLt
    rw [List.get_eq_getElem, List.get_eq_getElem,
      List.getElem_range, hEq] at hSlot
    exact hSlot
  · rintro ⟨hLength, hAll⟩
    refine ⟨List.length_range.trans hLength.symm, ?_⟩
    intro i hLt hLt'
    rw [List.get_eq_getElem, List.get_eq_getElem,
      List.getElem_range]
    exact hAll i _ (List.getElem?_eq_getElem hLt')

/- An offset that the slots can hold. -/
def RepresentableDelta
    (cfg : PTEOffsetConfig)
    (delta : BitVec 32) : Prop :=
  if cfg.signedOffset then
    -(2 : Int) ^ (cfg.offsetBits.toNat - 1) ≤ delta.toInt ∧
      delta.toInt < (2 : Int) ^ (cfg.offsetBits.toNat - 1)
  else delta.toNat < 2 ^ cfg.offsetBits.toNat

instance
    (cfg : PTEOffsetConfig)
    (delta : BitVec 32) :
    Decidable (cfg.RepresentableDelta delta) :=
  inferInstanceAs
    (Decidable (if cfg.signedOffset = true then _ ∧ _ else _))

/- The fields of a slot have room for the entry. -/
def Representable
    (cfg : PTEOffsetConfig)
    (e : PTEOffsetEntry) : Prop :=
  cfg.RepresentableDelta e.deltaVpn ∧
    e.conf.toNat < 2 ^ cfg.confBits.toNat

/- The upper bits of a small number repeat its sign. -/
theorem getLsbD_of_range
    {delta : BitVec 32}
    {m : Nat}
    (hLow : -(2 : Int) ^ m ≤ delta.toInt)
    (hHigh : delta.toInt < (2 : Int) ^ m)
    {j : Nat}
    (hLe : m ≤ j)
    (hLt : j < 32) :
    delta.getLsbD j = delta.msb := by
  have hPow : 2 ^ m ≤ 2 ^ j :=
    Nat.pow_le_pow_right (by decide) hLe
  have hCast : ((2 ^ m : Nat) : Int) = (2 : Int) ^ m := by
    simp
  cases hMsb : delta.msb with
  | false =>
      rw [BitVec.toInt_eq_toNat_of_msb hMsb] at hHigh
      rw [← BitVec.testBit_toNat]
      apply Nat.testBit_lt_two_pow
      omega
  | true =>
      rw [BitVec.toInt_eq_msb_cond, hMsb, if_pos rfl] at hLow
      have hNot : (~~~delta).getLsbD j = false := by
        rw [← BitVec.testBit_toNat, BitVec.toNat_not]
        apply Nat.testBit_lt_two_pow
        omega
      rw [BitVec.getLsbD_not, decide_eq_true hLt] at hNot
      simpa using hNot

/- A representable offset is read as it was written. -/
theorem RepresentableDelta.getLsbD_eq
    {delta : BitVec 32}
    (hDelta : cfg.RepresentableDelta delta)
    {j : Nat}
    (hLt : j < 32) :
    delta.getLsbD j =
      if cfg.signedOffset then
        (delta.signExtend 64).getLsbD
          (min j (cfg.offsetBits.toNat - 1))
      else
        decide (j < cfg.offsetBits.toNat) &&
          (delta.signExtend 64).getLsbD j := by
  have hSame : ∀ p, p < 32 →
      (delta.signExtend 64).getLsbD p = delta.getLsbD p := by
    intro p hP
    rw [BitVec.getLsbD_signExtend, if_pos hP,
      decide_eq_true (show p < 64 by omega), Bool.true_and]
  rw [RepresentableDelta] at hDelta
  cases hSigned : cfg.signedOffset with
  | true =>
      rw [hSigned, if_pos rfl] at hDelta
      rw [if_pos rfl, hSame _ (by omega)]
      by_cases hIn : j ≤ cfg.offsetBits.toNat - 1
      · rw [Nat.min_eq_left hIn]
      · have hGe : cfg.offsetBits.toNat - 1 ≤ j := by omega
        rw [Nat.min_eq_right hGe,
          getLsbD_of_range hDelta.1 hDelta.2 hGe hLt,
          getLsbD_of_range hDelta.1 hDelta.2 (Nat.le_refl _)
            (by omega)]
  | false =>
      rw [hSigned] at hDelta
      rw [if_neg Bool.false_ne_true, hSame j hLt]
      by_cases hIn : j < cfg.offsetBits.toNat
      · rw [decide_eq_true hIn, Bool.true_and]
      · rw [decide_eq_false hIn, Bool.false_and,
          ← BitVec.testBit_toNat]
        apply Nat.testBit_lt_two_pow
        exact Nat.lt_of_lt_of_le hDelta
          (Nat.pow_le_pow_right (by decide) (by omega))

/-
  A signed offset of 64 bits must not be negative, or reading
  it has no outcome; a wider one is never read.
-/
def Storable
    (cfg : PTEOffsetConfig)
    (delta : BitVec 32) : Prop :=
  cfg.signedOffset = true →
    cfg.offsetBits.toNat < 64 ∨
      cfg.offsetBits.toNat = 64 ∧ delta.msb = false

instance
    (cfg : PTEOffsetConfig)
    (delta : BitVec 32) :
    Decidable (cfg.Storable delta) :=
  inferInstanceAs (Decidable (_ → _ ∨ _ ∧ _))

/- A slot with the bits of an entry is read as this entry. -/
theorem decodeSlot_of_bits
    (hFits : cfg.Fits)
    (hAccepted : cfg.Accepted)
    (hLt : i < cfg.numEntries.toNat)
    (hEntry : cfg.Representable e)
    (hStorable : cfg.Storable e.deltaVpn)
    (hBits : ∀ p, p < cfg.width →
      cfg.slotBits v i p = cfg.entryBit e p) :
    cfg.decodeSlot v i = some e := by
  have hPos := hAccepted.offsetBits_pos
  have hSum : cfg.width =
    cfg.offsetBits.toNat + cfg.confBits.toNat := rfl
  have hDelta : ∀ p, p < cfg.offsetBits.toNat →
      cfg.slotBits v i p =
        (e.deltaVpn.signExtend 64).getLsbD p := by
    intro p hP
    rw [hBits p (by omega), entryBit, if_pos hP]
  have hRead : cfg.Readable v i := by
    intro hSigned
    rcases hStorable hSigned with hLess | ⟨hEq, hMsb⟩
    · exact Or.inl hLess
    · refine Or.inr ⟨hEq, ?_⟩
      rw [hDelta 63 (by omega), BitVec.getLsbD_signExtend,
        if_neg (by omega), hMsb, Bool.and_false]
  rcases decodeSlot_spec hFits hAccepted hLt hRead with
    ⟨⟨d, c⟩, hSome, hDelta', hConf'⟩
  rw [hSome, Option.some.injEq]
  have hFirst : d = e.deltaVpn := by
    apply BitVec.eq_of_getLsbD_eq
    intro j hJ
    rw [hDelta' j hJ, hEntry.1.getLsbD_eq hJ, offsetBit]
    split_ifs with hSigned
    · exact hDelta _ (by omega)
    · by_cases hIn : j < cfg.offsetBits.toNat
      · rw [hDelta j hIn]
      · simp [hIn]
  have hSecond : c = e.conf := by
    apply BitVec.eq_of_getLsbD_eq
    intro j hJ
    rw [hConf' j hJ]
    by_cases hIn : j < cfg.confBits.toNat
    · rw [hBits _ (by omega), entryBit, if_neg (by omega),
        Nat.add_sub_cancel_left, decide_eq_true hIn,
        Bool.true_and]
    · rw [decide_eq_false hIn, Bool.false_and,
        ← BitVec.testBit_toNat]
      symm
      apply Nat.testBit_lt_two_pow
      exact Nat.lt_of_lt_of_le hEntry.2
        (Nat.pow_le_pow_right (by decide) (by omega))
  rw [hFirst, hSecond]

/- An entry that is read has the bits of its slot. -/
theorem bits_of_decodeSlot
    (hFits : cfg.Fits)
    (hAccepted : cfg.Accepted)
    (hLt : i < cfg.numEntries.toNat)
    (hOff : cfg.offsetBits.toNat ≤ 32)
    (hConf : cfg.confBits.toNat ≤ 32)
    (hSome : cfg.decodeSlot v i = some e) :
    ∀ p, p < cfg.width → cfg.slotBits v i p = cfg.entryBit e p := by
  have hSum : cfg.width =
    cfg.offsetBits.toNat + cfg.confBits.toNat := rfl
  have hRead : cfg.Readable v i :=
    fun _ => Or.inl (by omega)
  rcases decodeSlot_spec hFits hAccepted hLt hRead with
    ⟨e', hSome', hDelta, hConf'⟩
  rw [hSome, Option.some.injEq] at hSome'
  subst hSome'
  intro p hP
  rw [entryBit]
  split_ifs with hField
  · rw [BitVec.getLsbD_signExtend, if_pos (by omega),
      decide_eq_true (show p < 64 by omega), Bool.true_and,
      hDelta p (by omega), offsetBit]
    have hMin : min p (cfg.offsetBits.toNat - 1) = p := by
      omega
    rw [hMin, decide_eq_true hField, Bool.true_and, ite_self]
  · have hIn : p - cfg.offsetBits.toNat < cfg.confBits.toNat := by
      omega
    have hEq : cfg.offsetBits.toNat +
        (p - cfg.offsetBits.toNat) = p := by
      omega
    rw [hConf' _ (by omega), decide_eq_true hIn, hEq, Bool.true_and]

/- Payloads with the same slots and the same other bits. -/
theorem eq_of_slots
    (hAccepted : cfg.Accepted)
    (hOutside : cfg.SameOutside r v)
    (hSlots : ∀ i < cfg.numEntries.toNat,
      ∀ p < cfg.width, cfg.slotBits r i p = cfg.slotBits v i p) :
    r = v := by
  have hPos : 0 < cfg.width :=
    Nat.add_pos_left hAccepted.offsetBits_pos _
  apply BitVec.eq_of_getLsbD_eq
  intro j _
  by_cases hOut : j < cfg.baseBit.toNat ∨
      cfg.baseBit.toNat + cfg.numEntries.toNat * cfg.width ≤ j
  · exact hOutside j hOut
  · have hSlot : (j - cfg.baseBit.toNat) / cfg.width <
        cfg.numEntries.toNat := by
      rw [Nat.div_lt_iff_lt_mul hPos]
      omega
    have hBit := hSlots _ hSlot _
      (Nat.mod_lt (j - cfg.baseBit.toNat) hPos)
    have hIndex := Nat.div_add_mod'
      (j - cfg.baseBit.toNat) cfg.width
    rw [slotBits, slotBits, Nat.add_assoc, hIndex,
      Nat.add_sub_cancel' (by omega)] at hBit
    exact hBit

/- Offsets of at most 63 bits are always read. -/
theorem exists_decode
    (v : BitVec 128)
    (hFits : cfg.Fits)
    (hAccepted : cfg.Accepted)
    (hOff : cfg.offsetBits.toNat < 64) :
    ∃ es, cfg.decode v = some es := by
  apply Traverse.exists_mapM
  intro i hMem
  rcases decodeSlot_spec (v := v) hFits hAccepted
      (List.mem_range.mp hMem) (fun _ => Or.inl hOff) with
    ⟨e, hSome, -⟩
  exact ⟨e, hSome⟩

theorem exists_maxConf
    (hConf : cfg.confBits.toNat < 32) :
    ∃ c, cfg.maxConf = some c ∧
      c.toNat = 2 ^ cfg.confBits.toNat - 1 := by
  rw [maxConf]
  split_ifs with hSome
  · rw [shl_of_lt hConf]
    refine ⟨_, rfl, ?_⟩
    apply Nat.eq_of_testBit_eq
    intro j
    rw [BitVec.testBit_toNat, getLsbD_ones hConf,
      Nat.testBit_two_pow_sub_one]
  · have hZero : ¬ 0 < cfg.confBits.toNat := hSome
    refine ⟨_, rfl, ?_⟩
    have hEq : cfg.confBits.toNat = 0 := by omega
    rw [hEq]
    rfl

/- An update keeps the number of the entries. -/
theorem exists_updated
    (es : List PTEOffsetEntry)
    (newDelta initConf : BitVec 32)
    (hConf : cfg.confBits.toNat < 32) :
    ∃ es', cfg.updated es newDelta initConf = some es' ∧
      es'.length = es.length := by
  rcases exists_maxConf hConf with ⟨c, hMax, -⟩
  rw [updated, hMax]
  split
  · exact ⟨_, rfl, List.length_modify _ _ _⟩
  · exact ⟨_, rfl, List.length_modify _ _ _⟩

/-
  Encoding and decoding are inverse to each other, every call
  has an outcome, and none changes the bits outside of the
  slots.
-/
def RoundTrips (cfg : PTEOffsetConfig) : Prop :=
  ∀ v : BitVec 128,
    (∀ es, es.length = cfg.numEntries.toNat →
      (∀ e ∈ es, cfg.Representable e) →
      ∃ r, cfg.encodeAll v es = some r ∧
        cfg.decode r = some es ∧ cfg.SameOutside r v) ∧
    (∃ es, cfg.decode v = some es ∧ cfg.encodeAll v es = some v) ∧
    (∀ newDelta initConf, ∃ r,
      cfg.encodeUpdate v newDelta initConf = some r ∧
        cfg.SameOutside r v) ∧
    ∃ r, cfg.decayAllConf v = some r ∧ cfg.SameOutside r v

theorem decode_encodeAll
    (v : BitVec 128)
    (hFits : cfg.Fits)
    (hAccepted : cfg.Accepted)
    (hLength : es.length = cfg.numEntries.toNat)
    (hEntries : ∀ e ∈ es, cfg.Representable e ∧
      cfg.Storable e.deltaVpn) :
    ∃ r, cfg.encodeAll v es = some r ∧
      cfg.decode r = some es ∧ cfg.SameOutside r v := by
  rcases encodeAll_spec v hFits hAccepted hLength with
    ⟨r, hSome, hOutside, hSlots⟩
  refine ⟨r, hSome, decode_eq_some_iff.mpr ⟨hLength, ?_⟩, hOutside⟩
  intro i e hGet
  have hLt := (List.getElem?_eq_some_iff.mp hGet).1
  rcases hEntries e (List.mem_of_getElem? hGet) with
    ⟨hEntry, hStorable⟩
  exact decodeSlot_of_bits hFits hAccepted (by omega) hEntry
    hStorable (hSlots i e hGet)

theorem encodeAll_decode
    (hFits : cfg.Fits)
    (hAccepted : cfg.Accepted)
    (hOff : cfg.offsetBits.toNat ≤ 32)
    (hConf : cfg.confBits.toNat ≤ 32)
    (hDecode : cfg.decode v = some es) :
    cfg.encodeAll v es = some v := by
  rcases decode_eq_some_iff.mp hDecode with ⟨hLength, hAll⟩
  rcases encodeAll_spec v hFits hAccepted hLength with
    ⟨r, hSome, hOutside, hSlots⟩
  rw [hSome, Option.some.injEq]
  refine eq_of_slots hAccepted hOutside ?_
  intro i hLt p hP
  have hGet := List.getElem?_eq_getElem
    (l := es) (i := i) (by omega)
  rw [hSlots i _ hGet p hP]
  exact (bits_of_decodeSlot hFits hAccepted hLt hOff hConf
    (hAll i _ hGet) p hP).symm

/- Every call has an outcome for a layout that fits. -/
theorem Fits.roundTrips
    (hFits : cfg.Fits)
    (hAccepted : cfg.Accepted)
    (hOff : cfg.offsetBits.toNat ≤ 32)
    (hConf : cfg.confBits.toNat ≤ 31) :
    cfg.RoundTrips := by
  intro v
  rcases exists_decode v hFits hAccepted (by omega) with
    ⟨es, hDecode⟩
  have hLength := (decode_eq_some_iff.mp hDecode).1
  refine ⟨?_, ⟨es, hDecode, ?_⟩, ?_, ?_⟩
  · intro es hLength hEntries
    apply decode_encodeAll v hFits hAccepted hLength
    intro e hMem
    exact ⟨hEntries e hMem, fun _ => Or.inl (by omega)⟩
  · exact encodeAll_decode hFits hAccepted hOff (by omega) hDecode
  · intro newDelta initConf
    rcases exists_updated es newDelta initConf
        (show cfg.confBits.toNat < 32 by omega) with
      ⟨es', hUpdated, hLength'⟩
    rcases encodeAll_spec v hFits hAccepted
        (hLength'.trans hLength) with ⟨r, hSome, hOutside, -⟩
    refine ⟨r, ?_, hOutside⟩
    simp only [encodeUpdate, hDecode, hUpdated,
      Option.bind_eq_bind, Option.bind_some]
    exact hSome
  · rw [decayAllConf]
    split_ifs with hNone
    · exact ⟨v, rfl, fun _ _ => rfl⟩
    · rcases encodeAll_spec v hFits hAccepted
          ((List.length_map decay).trans hLength) with
        ⟨r, hSome, hOutside, -⟩
      refine ⟨r, ?_, hOutside⟩
      simp only [hDecode, Option.bind_eq_bind, Option.bind_some]
      exact hSome

/- One entry without an outcome is enough. -/
theorem foldlM_eq_none
    {α β : Type*}
    {f : β → α → Option β}
    {xs : List α}
    {x : α}
    (hMem : x ∈ xs)
    (hNone : ∀ b, f b x = none)
    (b : β) :
    xs.foldlM f b = none := by
  induction xs generalizing b with
  | nil => cases hMem
  | cons y xs ih =>
      rw [List.foldlM_cons]
      rcases List.mem_cons.mp hMem with hEq | hRest
      · rw [← hEq, hNone]
        rfl
      · cases hHead : f b y with
        | none => rfl
        | some b' => exact ih hRest b'

/- An accepted layout that is too wide has too many slots. -/
theorem numEntries_of_not_fits
    (hFits : ¬ cfg.Fits)
    (hAccepted : cfg.Accepted)
    (hWidth : cfg.width ≤ 63)
    (hTotal : cfg.totalBits.toNat < 128)
    (hBase : cfg.baseBit.toNat < 128) :
    128 < cfg.numEntries.toNat := by
  have hNat : (cfg.offsetBits + cfg.confBits).toNat =
      cfg.width := by
    rw [width] at hWidth ⊢
    rw [BitVec.toNat_add]
    exact Nat.mod_eq_of_lt (by omega)
  have hInside : cfg.baseBit.toNat + cfg.totalBits.toNat ≤ 128 := by
    have hLe : (cfg.baseBit + cfg.totalBits).toNat ≤ 128 :=
      of_decide_eq_true hAccepted.1
    rw [BitVec.toNat_add, Nat.mod_eq_of_lt (by omega)] at hLe
    exact hLe
  rw [totalBits, BitVec.toNat_mul, hNat] at hTotal hInside
  by_contra hFew
  have hMul : cfg.numEntries.toNat * cfg.width ≤ 128 * 63 :=
    Nat.mul_le_mul (by omega) hWidth
  rw [Nat.mod_eq_of_lt (by omega)] at hTotal hInside
  exact hFits ⟨hInside, hTotal⟩

/- The slot with this number is outside of the payload. -/
theorem encodeSlot_eq_none
    (r : BitVec 128)
    (e : PTEOffsetEntry)
    (hAccepted : cfg.Accepted)
    (hWidth : cfg.width ≤ 63)
    (hBase : cfg.baseBit.toNat < 128) :
    cfg.encodeSlot r (e, 128) = none := by
  have hPos := hAccepted.offsetBits_pos
  have hSum : cfg.width =
    cfg.offsetBits.toNat + cfg.confBits.toNat := rfl
  have hNat : cfg.slotWidth.toNat = cfg.width := by
    rw [slotWidth, BitVec.toNat_add, hSum]
    exact Nat.mod_eq_of_lt (by omega)
  have hStart : (cfg.slotBase 128).toNat =
      cfg.baseBit.toNat + 128 * cfg.width := by
    rw [slotBase, BitVec.toNat_add, BitVec.toNat_mul, hNat,
      BitVec.toNat_ofNat]
    omega
  rw [encodeSlot, writeDelta, shl_of_lt (by omega)]
  simp only [Option.bind_eq_bind, Option.bind_some]
  rw [shl_of_le (by omega)]
  rfl

/- No other accepted layout can be written. -/
theorem encodeAll_eq_none
    (v : BitVec 128)
    (hFits : ¬ cfg.Fits)
    (hAccepted : cfg.Accepted)
    (hOff : cfg.offsetBits.toNat ≤ 32)
    (hConf : cfg.confBits.toNat ≤ 31)
    (hLength : es.length = cfg.numEntries.toNat) :
    cfg.encodeAll v es = none := by
  have hWidth : cfg.width ≤ 63 := by
    rw [width]
    omega
  rw [encodeAll, if_pos hLength]
  by_cases hTotal : cfg.totalBits.toNat < 128
  · rw [shl_of_lt hTotal]
    simp only [Option.bind_eq_bind, Option.bind_some]
    by_cases hBase : cfg.baseBit.toNat < 128
    · rw [shl_of_lt hBase, Option.bind_some]
      have hMany := numEntries_of_not_fits hFits hAccepted
        hWidth hTotal hBase
      have hMem : (es[128], 128) ∈ es.zipIdx :=
        List.mem_zipIdx_iff_getElem?.mpr
          (List.getElem?_eq_getElem (by omega))
      exact foldlM_eq_none hMem (fun r =>
        encodeSlot_eq_none r _ hAccepted hWidth hBase) _
    · rw [shl_of_le (Nat.not_lt.mp hBase)]
      rfl
  · rw [shl_of_le (Nat.not_lt.mp hTotal)]
    rfl

/- An entry of zeros is representable. -/
theorem representable_zero :
    cfg.Representable ⟨0#32, 0#32⟩ := by
  refine ⟨?_, Nat.two_pow_pos _⟩
  rw [RepresentableDelta]
  split_ifs
  · have hPos : (0 : Int) < 2 ^ (cfg.offsetBits.toNat - 1) := by
      have hNat := Nat.two_pow_pos (cfg.offsetBits.toNat - 1)
      have hCast : ((2 ^ (cfg.offsetBits.toNat - 1) : Nat) :
          Int) = 2 ^ (cfg.offsetBits.toNat - 1) := by
        simp
      omega
    simp only [BitVec.toInt_zero]
    omega
  · exact Nat.two_pow_pos _

/-
  The codec of an accepted configuration is a round trip
  exactly when its slots are inside the payload and leave out
  at least one bit of it.
-/
theorem roundTrips_iff
    (cfg : PTEOffsetConfig)
    (hAccepted : cfg.Accepted)
    (hOff : cfg.offsetBits.toNat ≤ 32)
    (hConf : cfg.confBits.toNat ≤ 31) :
    cfg.RoundTrips ↔ cfg.Fits := by
  constructor
  · intro hRound
    by_contra hFits
    have hLength : (List.replicate cfg.numEntries.toNat
        (⟨0#32, 0#32⟩ : PTEOffsetEntry)).length =
        cfg.numEntries.toNat :=
      List.length_replicate
    have hEntries : ∀ e ∈ List.replicate cfg.numEntries.toNat
        (⟨0#32, 0#32⟩ : PTEOffsetEntry),
        cfg.Representable e := by
      intro e hMem
      rw [List.eq_of_mem_replicate hMem]
      exact representable_zero
    rcases (hRound 0#128).1 _ hLength hEntries with
      ⟨r, hSome, -⟩
    rw [encodeAll_eq_none 0#128 hFits hAccepted hOff hConf
      hLength] at hSome
    cases hSome
  · intro hFits
    exact hFits.roundTrips hAccepted hOff hConf

/- Seven signed slots from bit 5 on. -/
theorem roundTrips_seven :
    RoundTrips ⟨7, 12, 3, 5, true⟩ :=
  (roundTrips_iff ⟨7, 12, 3, 5, true⟩ (by decide) (by decide)
    (by decide)).mpr (by decide)

/- Sixteen slots of eight bits fill the payload. -/
theorem not_roundTrips_full :
    Accepted ⟨16, 6, 2, 0, true⟩ ∧
      ¬ RoundTrips ⟨16, 6, 2, 0, true⟩ := by
  refine ⟨by decide, fun hRound => ?_⟩
  rcases (hRound 0#128).2.1 with ⟨es, hDecode, hEncode⟩
  have hLength := (decode_eq_some_iff.mp hDecode).1
  rw [encodeAll_eq_none 0#128 (by decide) (by decide)
    (by decide) (by decide) hLength] at hEncode
  cases hEncode

end PTEOffsetConfig

end Virtuoso
