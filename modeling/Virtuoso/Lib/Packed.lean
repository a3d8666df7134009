import Mathlib.Data.Nat.Bitwise

/-
  Fields of some bits, packed in bytes.

  The bits of an array of bytes are numbered from the lowest
  bit of its first byte on. A field is a range of bits.

  Main declarations:
    * `Packed.Writes.holds`
    * `Packed.Writes.holds_of_disjoint`
-/

namespace Packed

/- Bit `j` of an array of bytes. -/
def bit (data : Nat → BitVec 8) (j : Nat) : Bool :=
  (data (j / 8)).getLsbD (j % 8)

/- The field from bit `lo` on holds `v`. -/
def Holds
    (data : Nat → BitVec 8)
    (lo width v : Nat) : Prop :=
  ∀ k, v.testBit k = (decide (k < width) && bit data (lo + k))

/- `data'` is `data` with `v` in the field from `lo` on. -/
def Writes
    (data : Nat → BitVec 8)
    (lo width v : Nat)
    (data' : Nat → BitVec 8) : Prop :=
  ∀ j, bit data' j =
    if lo ≤ j ∧ j < lo + width then
      v.testBit (j - lo)
    else
      bit data j

variable {data data' : Nat → BitVec 8} {lo width v : Nat}

/- The bits of one byte, by their distance from `base`. -/
theorem bit_byte
    (data : Nat → BitVec 8)
    (base : Nat)
    {k r : Nat}
    (hBit : r < 8) :
    bit data (8 * base + (8 * k + r)) =
      (data (base + k)).getLsbD r := by
  have hByte : (8 * base + (8 * k + r)) / 8 = base + k := by
    omega
  have hRest : (8 * base + (8 * k + r)) % 8 = r := by
    omega
  rw [bit, hByte, hRest]

theorem Holds.unique
    {v' : Nat}
    (hHolds : Holds data lo width v)
    (hHolds' : Holds data lo width v') :
    v = v' := by
  apply Nat.eq_of_testBit_eq
  intro k
  rw [hHolds k, hHolds' k]

/- Zeroed bytes hold zero in every field. -/
theorem holds_zero
    (lo width : Nat) :
    Holds (fun _ => 0#8) lo width 0 := by
  intro k
  simp [bit]

/- A field holds what was written there. -/
theorem Writes.holds
    (hWrites : Writes data lo width v data')
    (hValue : v < 2 ^ width) :
    Holds data' lo width v := by
  intro k
  rw [hWrites (lo + k)]
  by_cases hBit : k < width
  · simp [hBit]
  · have hHigh : v.testBit k = false := by
      apply Nat.testBit_eq_false_of_lt
      exact lt_of_lt_of_le hValue
        (Nat.pow_le_pow_right (by decide) (not_lt.mp hBit))
    simp [hBit, hHigh]

/- A write leaves the other fields as they are. -/
theorem Writes.holds_of_disjoint
    {lo' width' v' : Nat}
    (hWrites : Writes data lo width v data')
    (hDisjoint : lo' + width' ≤ lo ∨ lo + width ≤ lo')
    (hHolds : Holds data lo' width' v') :
    Holds data' lo' width' v' := by
  intro k
  rw [hHolds k]
  by_cases hBit : k < width'
  · have hOut : ¬ (lo ≤ lo' + k ∧ lo' + k < lo + width) := by
      omega
    simp [hBit, hWrites (lo' + k), hOut]
  · simp [hBit]

end Packed
