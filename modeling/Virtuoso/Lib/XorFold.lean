import Mathlib.Algebra.Ring.Parity
import Mathlib.Data.Nat.Bitwise

/-
  Indices below `n` that are mixed with a second number by
  exclusive or and reduced modulo `n` again.

  Where the mixed index stays below `n` the mixing is undone
  by mixing once more. The mixed index always stays below a
  power of two; below any other `n`, with `n = b * o` for a
  power `b` of two and an odd `o`, it first leaves the range
  at the mixing number `b` and the index `n - b`. The indices
  of an aligned block of `b` stay in one such block, where
  they are permuted by the low bits of the mixing number.

  Main declarations:
    * `XorFold.undo_iff`
    * `XorFold.le_xor`
-/

namespace XorFold

theorem xor_le_add
    (a b : Nat) :
    a ^^^ b ≤ a + b := by
  induction a using Nat.strong_induction_on generalizing b with
  | _ a ih =>
      by_cases hZero : a = 0
      · simp [hZero]
      have hHalf := ih (a / 2) (by omega) (b / 2)
      have hDiv : (a ^^^ b) / 2 = a / 2 ^^^ b / 2 := by
        simpa using Nat.xor_div_two_pow (a := a) (b := b) (n := 1)
      have hMod : (a ^^^ b) % 2 = (a + b) % 2 :=
        Nat.xor_mod_two_eq
      omega

/- Mixing twice is the identity exactly inside of the range. -/
theorem undo_iff
    {n raw x : Nat}
    (hRaw : raw < n)
    (hMix : x < n) :
    ((raw ^^^ x) % n ^^^ x) % n = raw ↔ raw ^^^ x < n := by
  constructor
  · intro hUndo
    by_contra hOut
    -- the reduced index differs from the mixed one, and the
    -- sum bounds leave no room for another multiple of `n`
    have hSum := xor_le_add raw x
    have hSum' := xor_le_add ((raw ^^^ x) % n) x
    have hLess : (raw ^^^ x) % n < n :=
      Nat.mod_lt _ (by omega)
    have hReduced : (raw ^^^ x) % n ≤ (raw ^^^ x) - n := by
      rw [Nat.mod_eq_sub_mod (not_lt.mp hOut)]
      exact Nat.mod_le _ _
    have hNe : (raw ^^^ x) % n ^^^ x ≠ raw := by
      intro hEq
      have hBack := congrArg (fun k => k ^^^ x) hEq
      simp only [Nat.xor_assoc, Nat.xor_self, Nat.xor_zero] at hBack
      omega
    have hBig : n ≤ (raw ^^^ x) % n ^^^ x := by
      by_contra hSmall
      rw [Nat.mod_eq_of_lt (not_le.mp hSmall)] at hUndo
      exact hNe hUndo
    have hSplit := Nat.div_add_mod ((raw ^^^ x) % n ^^^ x) n
    have hQuotient : 1 ≤ ((raw ^^^ x) % n ^^^ x) / n :=
      (Nat.one_le_div_iff (by omega)).mpr hBig
    have hProduct : n * 1 ≤ n * (((raw ^^^ x) % n ^^^ x) / n) :=
      Nat.mul_le_mul_left n hQuotient
    omega
  · intro hIn
    rw [Nat.mod_eq_of_lt hIn, Nat.xor_assoc, Nat.xor_self,
      Nat.xor_zero, Nat.mod_eq_of_lt hRaw]

variable {t o raw x : Nat}

/- A number of few bits keeps the block of an index. -/
theorem xor_lt_of_lt
    (hRaw : raw < 2 ^ t * o)
    (hMix : x < 2 ^ t) :
    raw ^^^ x < 2 ^ t * o := by
  have hBlock : raw / 2 ^ t < o :=
    Nat.div_lt_of_lt_mul hRaw
  have hDiv : (raw ^^^ x) / 2 ^ t = raw / 2 ^ t := by
    rw [Nat.xor_div_two_pow, Nat.div_eq_of_lt hMix, Nat.xor_zero]
  rw [← hDiv] at hBlock
  exact (Nat.div_lt_iff_lt_mul (Nat.two_pow_pos t)).mp hBlock
    |>.trans_eq (Nat.mul_comm _ _)

/- The next block is inside of the range but for the last. -/
theorem xor_lt_of_eq
    (hRaw : raw < 2 ^ t * (o - 1)) :
    raw ^^^ 2 ^ t < 2 ^ t * o := by
  have hBlock : raw / 2 ^ t < o - 1 :=
    Nat.div_lt_of_lt_mul hRaw
  have hDiv : (raw ^^^ 2 ^ t) / 2 ^ t = raw / 2 ^ t ^^^ 1 := by
    rw [Nat.xor_div_two_pow, Nat.div_self (Nat.two_pow_pos t)]
  have hSum := xor_le_add (raw / 2 ^ t) 1
  have hLess : (raw ^^^ 2 ^ t) / 2 ^ t < o := by
    rw [hDiv]
    generalize raw / 2 ^ t = block at hBlock hSum ⊢
    omega
  exact (Nat.div_lt_iff_lt_mul (Nat.two_pow_pos t)).mp hLess
    |>.trans_eq (Nat.mul_comm _ _)

/- The last block of an odd number of blocks is left. -/
theorem le_xor
    (hOdd : Odd o) :
    2 ^ t * o ≤ (2 ^ t * (o - 1)) ^^^ 2 ^ t := by
  have hPos := Nat.two_pow_pos t
  have hDiv : ((2 ^ t * (o - 1)) ^^^ 2 ^ t) / 2 ^ t = o := by
    rw [Nat.xor_div_two_pow, Nat.mul_div_cancel_left _ hPos,
      Nat.div_self hPos]
    rcases hOdd with ⟨c, hC⟩
    have hDouble : (o - 1 ^^^ 1) / 2 = c := by
      have hShift := Nat.xor_div_two_pow (a := o - 1)
        (b := 1) (n := 1)
      rw [pow_one] at hShift
      rw [hShift, Nat.div_eq_of_lt (by decide : 1 < 2),
        Nat.xor_zero]
      omega
    have hParity : (o - 1 ^^^ 1) % 2 = (o - 1 + 1) % 2 :=
      Nat.xor_mod_two_eq
    omega
  have hMul := Nat.div_mul_le_self
    ((2 ^ t * (o - 1)) ^^^ 2 ^ t) (2 ^ t)
  rw [hDiv, Nat.mul_comm] at hMul
  exact hMul

/- An offset in a block is mixed with the low bits only. -/
theorem xor_offset
    {t q i : Nat}
    (hOffset : i < 2 ^ t)
    (x : Nat) :
    (2 ^ t * q + i) ^^^ x =
      2 ^ t * (((2 ^ t * q) ^^^ x) / 2 ^ t) +
        (i ^^^ ((2 ^ t * q) ^^^ x) % 2 ^ t) := by
  have hPos := Nat.two_pow_pos t
  have hDiv : ((2 ^ t * q + i) ^^^ x) / 2 ^ t =
      ((2 ^ t * q) ^^^ x) / 2 ^ t := by
    rw [Nat.xor_div_two_pow, Nat.xor_div_two_pow,
      Nat.mul_add_div hPos, Nat.div_eq_of_lt hOffset,
      Nat.mul_div_cancel_left _ hPos, Nat.add_zero]
  have hMod : ((2 ^ t * q + i) ^^^ x) % 2 ^ t =
      i ^^^ ((2 ^ t * q) ^^^ x) % 2 ^ t := by
    rw [Nat.xor_mod_two_pow, Nat.xor_mod_two_pow,
      Nat.mul_add_mod, Nat.mod_eq_of_lt hOffset,
      Nat.mul_mod_right, Nat.zero_xor]
  calc
    _ = 2 ^ t * (((2 ^ t * q + i) ^^^ x) / 2 ^ t) +
        ((2 ^ t * q + i) ^^^ x) % 2 ^ t :=
      (Nat.div_add_mod _ _).symm
    _ = _ := by rw [hDiv, hMod]

end XorFold
