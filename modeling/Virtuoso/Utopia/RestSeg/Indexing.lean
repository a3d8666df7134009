import Mathlib.Data.Nat.Factorization.Basic
import Virtuoso.Lib.XorFold
import Virtuoso.Utopia.RestSeg.Basic

/-
  When the set index of a restricted segment determines the
  page, given its tag.

  The split of an address is undone exactly when the mixed
  index stays below the number of sets, before it is reduced.
  This holds for all addresses of 48 bits if the number of
  sets is a power of two, and for other numbers of sets only
  if the pages below 2^48 are too few to reach the first one
  whose mixed index is out of range.

  Main declarations:
    * `Utopia.Geometry.reversible_iff`
    * `Utopia.Geometry.eq_of_tagOf_setOf`
-/

namespace Virtuoso

namespace Utopia

namespace Geometry

variable {g : Geometry} {page page' address : Nat}

/- The pages of an address of 48 bits. -/
theorem vpn_lt
    (g : Geometry)
    (hAddress : address < 2 ^ 48) :
    g.vpn address < 2 ^ (48 - g.pageSizeBits) := by
  unfold vpn
  by_cases hPage : g.pageSizeBits ≤ 48
  · apply Nat.div_lt_of_lt_mul
    rw [← pow_add, Nat.add_sub_cancel' hPage]
    exact hAddress
  · have hPow : 2 ^ 48 ≤ 2 ^ g.pageSizeBits :=
      Nat.pow_le_pow_right (by decide) (not_le.mp hPage).le
    rw [Nat.div_eq_of_lt (lt_of_lt_of_le hAddress hPow)]
    exact Nat.two_pow_pos _

/- The first address of such a page. -/
theorem mul_pow_lt
    (hPage : page < 2 ^ (48 - g.pageSizeBits)) :
    page * 2 ^ g.pageSizeBits < 2 ^ 48 := by
  by_cases hSize : g.pageSizeBits ≤ 48
  · calc
      _ < 2 ^ (48 - g.pageSizeBits) * 2 ^ g.pageSizeBits :=
        Nat.mul_lt_mul_of_pos_right hPage (Nat.two_pow_pos _)
      _ = 2 ^ 48 := by
        rw [← pow_add, Nat.sub_add_cancel hSize]
  · rw [Nat.sub_eq_zero_of_le (not_le.mp hSize).le,
      pow_zero, Nat.lt_one_iff] at hPage
    simp [hPage]

theorem pow_le_pow_48
    (g : Geometry) :
    2 ^ (48 - g.pageSizeBits) ≤ 2 ^ 48 :=
  Nat.pow_le_pow_right (by decide) (Nat.sub_le _ _)

theorem mix_lt
    (hSets : 0 < g.numSets)
    (tag : Nat) :
    tag % 2 ^ 32 % g.numSets < g.numSets :=
  Nat.mod_lt _ hSets

theorem setOf_lt
    (hSets : 0 < g.numSets)
    (page : Nat) :
    g.setOf page < g.numSets :=
  Nat.mod_lt _ hSets

/- A page below the number of sets is not mixed. -/
theorem fold_of_lt
    (hPage : page < g.numSets) :
    g.fold page = page := by
  simp [fold, tagOf, Nat.div_eq_of_lt hPage, Nat.mod_eq_of_lt hPage]

theorem numSets_le_of_fold
    (hOut : ¬ g.fold page < g.numSets) :
    g.numSets ≤ page := by
  by_contra hSmall
  rw [fold_of_lt (not_le.mp hSmall)] at hOut
  exact hOut (not_le.mp hSmall)

/- The page number that is computed back from a split. -/
theorem reconstructPage_split
    (hSets : 0 < g.numSets)
    (hPage : page < 2 ^ 48) :
    g.reconstructPage (g.tagOf page) (g.setOf page) =
      g.numSets * g.tagOf page +
        (g.setOf page ^^^
          (g.tagOf page % 2 ^ 32 % g.numSets)) % g.numSets := by
  have hProduct : g.numSets * g.tagOf page ≤ page :=
    Nat.mul_div_le page g.numSets
  have hIndex :
      (g.setOf page ^^^
        (g.tagOf page % 2 ^ 32 % g.numSets)) % g.numSets <
          g.numSets :=
    Nat.mod_lt _ hSets
  unfold reconstructPage
  rw [Nat.mul_comm (g.tagOf page)]
  apply Nat.mod_eq_of_lt
  by_cases hIn : g.fold page < g.numSets
  · have hUndo := (XorFold.undo_iff (Nat.mod_lt page hSets)
      (mix_lt hSets (g.tagOf page))).mpr hIn
    have hEq : (g.setOf page ^^^
        (g.tagOf page % 2 ^ 32 % g.numSets)) % g.numSets =
          page % g.numSets := hUndo
    have hSplit := Nat.div_add_mod page g.numSets
    rw [hEq]
    unfold tagOf at *
    omega
  · have hBig := numSets_le_of_fold hIn
    omega

/-
  The page is computed back from its tag and its set exactly
  when its mixed index is in range.
-/
theorem reconstructPage_eq_iff
    (hSets : 0 < g.numSets)
    (hPage : page < 2 ^ 48) :
    g.reconstructPage (g.tagOf page) (g.setOf page) = page ↔
      g.fold page < g.numSets := by
  rw [reconstructPage_split hSets hPage]
  have hSplit := Nat.div_add_mod page g.numSets
  have hUndo := XorFold.undo_iff (Nat.mod_lt page hSets)
    (mix_lt hSets (g.tagOf page))
  constructor
  · intro hEq
    apply hUndo.mp
    change (g.setOf page ^^^ _) % g.numSets = _
    unfold tagOf at *
    omega
  · intro hIn
    have hBack := hUndo.mpr hIn
    change (g.setOf page ^^^ _) % g.numSets = _ at hBack
    rw [hBack]
    exact hSplit

/- A page in range is determined by its tag and its set. -/
theorem eq_of_tagOf_setOf
    (hSets : 0 < g.numSets)
    (hPage : page < 2 ^ 48)
    (hPage' : page' < 2 ^ 48)
    (hFold : g.fold page < g.numSets)
    (hFold' : g.fold page' < g.numSets)
    (hTag : g.tagOf page' = g.tagOf page)
    (hSet : g.setOf page' = g.setOf page) :
    page' = page := by
  rw [← (reconstructPage_eq_iff hSets hPage).mpr hFold,
    ← (reconstructPage_eq_iff hSets hPage').mpr hFold', hTag,
    hSet]

/- The largest power of two that divides the sets. -/
def lowBit (g : Geometry) : Nat :=
  Nat.gcd g.numSets (2 ^ 32)

/- The first page that is mixed out of the range, if any. -/
def firstOutside (g : Geometry) : Nat :=
  g.lowBit * g.numSets + (g.numSets - g.lowBit)

/-
  The number of sets is a power of two, or the pages of 48
  bits of address end before the first page that is mixed
  out of the range.
-/
def FoldsInside (g : Geometry) : Prop :=
  g.numSets.isPowerOfTwo ∨
    2 ^ (48 - g.pageSizeBits) ≤ g.firstOutside

/- The number of sets is a low bit times an odd number. -/
theorem exists_lowBit
    (hSets : 0 < g.numSets)
    (hWidth : g.numSets < 2 ^ 32) :
    ∃ t o, g.lowBit = 2 ^ t ∧ g.numSets = 2 ^ t * o ∧ Odd o := by
  rcases Nat.exists_eq_two_pow_mul_odd hSets.ne' with
    ⟨t, o, hOdd, hEq⟩
  have hLess : 2 ^ t < 2 ^ 32 := by
    refine lt_of_le_of_lt ?_ hWidth
    rw [hEq]
    exact Nat.le_mul_of_pos_right _ hOdd.pos
  have hSmall : t < 32 :=
    (Nat.pow_lt_pow_iff_right (by decide)).mp hLess
  refine ⟨t, o, ?_, hEq, hOdd⟩
  have hSplit : 2 ^ 32 = 2 ^ t * 2 ^ (32 - t) := by
    rw [← pow_add, Nat.add_sub_cancel' hSmall.le]
  unfold lowBit
  rw [hEq, hSplit, Nat.gcd_mul_left]
  have hCoprime : Nat.gcd o (2 ^ (32 - t)) = 1 :=
    (Nat.Coprime.pow_right _ (Nat.coprime_two_right.mpr hOdd))
  rw [hCoprime, Nat.mul_one]

/- A power of two keeps every mixed index in range. -/
theorem fold_lt_of_isPowerOfTwo
    (hPower : g.numSets.isPowerOfTwo)
    (page : Nat) :
    g.fold page < g.numSets := by
  have hSets : 0 < g.numSets :=
    Nat.pos_of_isPowerOfTwo hPower
  rcases hPower with ⟨k, hEq⟩
  have hRaw := Nat.mod_lt page hSets
  have hMix := mix_lt hSets (g.tagOf page)
  unfold fold
  rw [hEq] at hRaw hMix ⊢
  exact Nat.xor_lt_two_pow hRaw hMix

/- The tag that an index is mixed with, for a small tag. -/
theorem mix_of_lt
    {tag : Nat}
    (hWidth : g.numSets < 2 ^ 32)
    (hTag : tag < g.numSets) :
    tag % 2 ^ 32 % g.numSets = tag := by
  rw [Nat.mod_eq_of_lt (hTag.trans hWidth), Nat.mod_eq_of_lt hTag]

/- The pages before the first one are mixed inside. -/
theorem fold_lt_of_lt
    (hSets : 0 < g.numSets)
    (hWidth : g.numSets < 2 ^ 32)
    (hPage : page < g.firstOutside) :
    g.fold page < g.numSets := by
  rcases exists_lowBit hSets hWidth with
    ⟨t, o, hLow, hEq, hOdd⟩
  by_cases hPower : g.lowBit = g.numSets
  · exact fold_lt_of_isPowerOfTwo ⟨t, hPower ▸ hLow⟩ page
  have hOddPos := hOdd.pos
  have hLowLess : g.lowBit < g.numSets := by
    apply lt_of_le_of_ne _ hPower
    rw [hLow, hEq]
    exact Nat.le_mul_of_pos_right _ hOddPos
  have hRaw := Nat.mod_lt page hSets
  have hSplit := Nat.div_add_mod page g.numSets
  unfold firstOutside at hPage
  have hTag : g.tagOf page ≤ g.lowBit := by
    by_contra hBig
    have hMul : g.numSets * (g.lowBit + 1) ≤
        g.numSets * (page / g.numSets) :=
      Nat.mul_le_mul_left _ (not_le.mp hBig)
    rw [Nat.mul_succ, Nat.mul_comm] at hMul
    omega
  have hMix := mix_of_lt hWidth (lt_of_le_of_lt hTag hLowLess)
  unfold fold
  rw [hMix]
  rcases lt_or_eq_of_le hTag with hLess | hLast
  · rw [hLow] at hLess
    rw [hEq] at hRaw ⊢
    exact XorFold.xor_lt_of_lt hRaw hLess
  · have hIndex : page % g.numSets < g.numSets - g.lowBit := by
      unfold tagOf at hLast
      rw [hLast, Nat.mul_comm] at hSplit
      omega
    have hBlocks : g.numSets - g.lowBit = 2 ^ t * (o - 1) := by
      rw [hLow, hEq, Nat.mul_sub_one]
    rw [hBlocks] at hIndex
    rw [hLast, hLow]
    rw [hEq] at hIndex ⊢
    exact XorFold.xor_lt_of_eq hIndex

/- The first page is mixed out of the range. -/
theorem not_fold_lt_firstOutside
    (hSets : 0 < g.numSets)
    (hWidth : g.numSets < 2 ^ 32)
    (hPower : ¬ g.numSets.isPowerOfTwo) :
    ¬ g.fold g.firstOutside < g.numSets := by
  rcases exists_lowBit hSets hWidth with
    ⟨t, o, hLow, hEq, hOdd⟩
  have hOne : o ≠ 1 := by
    rintro rfl
    exact hPower ⟨t, by rw [hEq, Nat.mul_one]⟩
  have hMore : 1 < o := by
    have hPos := hOdd.pos
    omega
  have hLowPos : 0 < g.lowBit := hLow ▸ Nat.two_pow_pos t
  have hLowLess : g.lowBit < g.numSets := by
    rw [hLow, hEq]
    exact lt_mul_of_one_lt_right (Nat.two_pow_pos t) hMore
  have hRest : g.numSets - g.lowBit < g.numSets := by
    omega
  have hTag : g.tagOf g.firstOutside = g.lowBit := by
    unfold tagOf firstOutside
    rw [Nat.mul_comm, Nat.mul_add_div hSets,
      Nat.div_eq_of_lt hRest, Nat.add_zero]
  have hRaw : g.firstOutside % g.numSets =
      g.numSets - g.lowBit := by
    unfold firstOutside
    rw [Nat.mul_comm, Nat.mul_add_mod, Nat.mod_eq_of_lt hRest]
  unfold fold
  rw [hTag, mix_of_lt hWidth hLowLess, hRaw]
  have hBlocks : g.numSets - g.lowBit = 2 ^ t * (o - 1) := by
    rw [hLow, hEq, Nat.mul_sub_one]
  rw [hBlocks, hLow, not_lt, hEq]
  exact XorFold.le_xor hOdd

/-
  The mixed index of every page of 48 bits of address is in
  range exactly under the condition on the geometry.
-/
theorem foldsInside_iff
    (hSets : 0 < g.numSets)
    (hWidth : g.numSets < 2 ^ 32) :
    g.FoldsInside ↔
      ∀ page < 2 ^ (48 - g.pageSizeBits),
        g.fold page < g.numSets := by
  constructor
  · rintro (hPower | hFew) page hPage
    · exact fold_lt_of_isPowerOfTwo hPower page
    · exact fold_lt_of_lt hSets hWidth (lt_of_lt_of_le hPage hFew)
  · intro hAll
    by_cases hPower : g.numSets.isPowerOfTwo
    · exact Or.inl hPower
    · right
      by_contra hMany
      exact not_fold_lt_firstOutside hSets hWidth hPower
        (hAll g.firstOutside (not_le.mp hMany))

end Geometry

end Utopia

end Virtuoso
