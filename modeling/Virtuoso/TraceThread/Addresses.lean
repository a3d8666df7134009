import Mathlib.Algebra.Group.Int.Defs
import Mathlib.Algebra.Group.Nat.Defs
import Mathlib.Data.Fintype.EquivFin
import Mathlib.Logic.Equiv.Basic

/-
  The physical addresses of `TraceThread::va2pa`.

  A trace without physical addresses gets an address with the
  id of its application, or of its core, in the upper bits.
  The page can be remapped in its three lower bytes, by the
  table of the application, which is a permutation. With the
  sequential scheduler the ids are those of the cores, and
  applications on one core have tables of their own.

  Main declarations:
    * `VaMapping.remapAddress_injective`
    * `VaMapping.separates_iff`
-/

------------------------------------------------------------
-- Bytes And Physical Addresses
------------------------------------------------------------

namespace Virtuoso

namespace VaMapping

/- One byte of the address. -/
def byteOf (x : BitVec 64) (i : Nat) : BitVec 8 :=
  x.extractLsb' (8 * i) 8

/- One byte of the address is replaced. -/
def setByte
    (x : BitVec 64)
    (i : Nat)
    (b : BitVec 8) : BitVec 64 :=
  (x &&& ~~~(0xff#64 <<< (8 * i))) ||| (b.setWidth 64 <<< (8 * i))

theorem getLsbD_setByte
    (x : BitVec 64)
    (b : BitVec 8)
    {i k : Nat}
    (hBit : k < 64) :
    (setByte x i b).getLsbD k =
      if 8 * i ≤ k ∧ k < 8 * i + 8 then
        b.getLsbD (k - 8 * i)
      else x.getLsbD k := by
  have hMask : ∀ j, (0xff#64).getLsbD j = decide (j < 8) := by
    intro j
    by_cases hLow : j < 64
    · revert j
      decide
    · rw [BitVec.getLsbD_of_ge _ j (by omega)]
      simp
      omega
  rw [setByte, BitVec.getLsbD_or, BitVec.getLsbD_and,
    BitVec.getLsbD_not, BitVec.getLsbD_shiftLeft,
    BitVec.getLsbD_shiftLeft, BitVec.getLsbD_setWidth, hMask]
  by_cases hBelow : k < 8 * i
  · simp [hBit, hBelow]
  · have hFrom : 8 * i ≤ k := by omega
    by_cases hIn : k < 8 * i + 8
    · have hOff : k - 8 * i < 8 := by omega
      have hOff' : k - 8 * i < 64 := by omega
      simp [hBit, hBelow, hFrom, hIn, hOff, hOff']
    · have hOff : ¬k - 8 * i < 8 := by omega
      have hZero : b.getLsbD (k - 8 * i) = false :=
        BitVec.getLsbD_of_ge _ _ (by omega)
      simp [hBit, hBelow, hIn, hOff, hZero]

theorem byteOf_setByte_self
    (x : BitVec 64)
    (b : BitVec 8)
    {i : Nat}
    (hByte : i < 8) :
    byteOf (setByte x i b) i = b := by
  apply BitVec.eq_of_getLsbD_eq
  intro k hBit
  rw [byteOf, BitVec.getLsbD_extractLsb',
    getLsbD_setByte x b (by omega), if_pos (by omega)]
  simp [hBit]

theorem byteOf_setByte_of_ne
    (x : BitVec 64)
    (b : BitVec 8)
    {i j : Nat}
    (hByte : j < 8)
    (hNe : j ≠ i) :
    byteOf (setByte x i b) j = byteOf x j := by
  apply BitVec.eq_of_getLsbD_eq
  intro k hBit
  rw [byteOf, byteOf, BitVec.getLsbD_extractLsb',
    BitVec.getLsbD_extractLsb',
    getLsbD_setByte x b (by omega), if_neg (by omega)]

/- Each of the three lower bytes is replaced in its turn. -/
def remapAddress
    (table : BitVec 8 → BitVec 8)
    (vaPage : BitVec 64) : BitVec 64 :=
  let result := setByte vaPage 0 (table (byteOf vaPage 0))
  let result := setByte result 1 (table (byteOf result 1))
  setByte result 2 (table (byteOf result 2))

theorem byteOf_remapAddress
    (table : BitVec 8 → BitVec 8)
    (vaPage : BitVec 64)
    {i : Nat}
    (hByte : i < 3) :
    byteOf (remapAddress table vaPage) i =
      table (byteOf vaPage i) := by
  rw [remapAddress]
  have hCases : i = 0 ∨ i = 1 ∨ i = 2 := by omega
  rcases hCases with hZero | hOne | hTwo
  · rw [hZero, byteOf_setByte_of_ne _ _ (by decide)
      (by decide), byteOf_setByte_of_ne _ _ (by decide)
      (by decide), byteOf_setByte_self _ _ (by decide)]
  · rw [hOne, byteOf_setByte_of_ne _ _ (by decide)
      (by decide), byteOf_setByte_self _ _ (by decide),
      byteOf_setByte_of_ne _ _ (by decide) (by decide)]
  · rw [hTwo, byteOf_setByte_self _ _ (by decide),
      byteOf_setByte_of_ne _ _ (by decide) (by decide),
      byteOf_setByte_of_ne _ _ (by decide) (by decide)]

variable {k : Nat}

theorem getLsbD_remapAddress
    (table : BitVec 8 → BitVec 8)
    (vaPage : BitVec 64)
    (hHigh : 24 ≤ k) :
    (remapAddress table vaPage).getLsbD k = vaPage.getLsbD k := by
  by_cases hBit : k < 64
  · rw [remapAddress, getLsbD_setByte _ _ hBit, if_neg (by omega),
      getLsbD_setByte _ _ hBit, if_neg (by omega),
      getLsbD_setByte _ _ hBit, if_neg (by omega)]
  · rw [BitVec.getLsbD_of_ge _ k (by omega),
      BitVec.getLsbD_of_ge _ k (by omega)]

/- A word is its three lower bytes and the bits above. -/
theorem eq_of_bytes
    {x y : BitVec 64}
    (hBytes : ∀ i < 3, byteOf x i = byteOf y i)
    (hHigh : ∀ k, 24 ≤ k → x.getLsbD k = y.getLsbD k) :
    x = y := by
  apply BitVec.eq_of_getLsbD_eq
  intro k _
  by_cases hLow : k < 24
  · have hByte := congrArg
      (fun b : BitVec 8 => b.getLsbD (k % 8))
      (hBytes (k / 8) (by omega))
    have hSplit : 8 * (k / 8) + k % 8 = k := by omega
    have hOff : k % 8 < 8 := by omega
    simpa [byteOf, BitVec.getLsbD_extractLsb', hSplit,
      hOff] using hByte
  · exact hHigh k (by omega)

theorem remapAddress_injective
    (table : Equiv.Perm (BitVec 8)) :
    Function.Injective (remapAddress table) := by
  intro x y hEq
  apply eq_of_bytes
  · intro i hByte
    apply table.injective
    rw [← byteOf_remapAddress table x hByte, hEq,
      byteOf_remapAddress table y hByte]
  · intro k hHigh
    rw [← getLsbD_remapAddress table x hHigh, hEq,
      getLsbD_remapAddress table y hHigh]

/- `traceinput/address_randomization`, and whether the
   scheduler is the sequential one. -/
structure Config where
  addressRandomization : Bool
  appidFromCoreid : Bool

/- A thread of a trace. The trace gives 0 for an address that
   it has no physical address for. -/
structure TraceSource where
  traceHasPa : Bool
  traceVa2pa : BitVec 64 → BitVec 64
  coreId : Int
  appId : Int

/- The bits below the number of the thread. -/
def paCoreShift : Nat := 48

/- The bits of the offset in a page. -/
def vaPageShift : Nat := 12

/- The bits below the number of the thread. -/
def paVaMask : BitVec 64 :=
  ~~~(((1#64 <<< 16) - 1) <<< paCoreShift)

/- The bits of the offset in a page. -/
def vaPageMask : BitVec 64 :=
  (1#64 <<< vaPageShift) - 1

/- The id in the upper bits. -/
def idOf (c : Config) (t : TraceSource) : Int :=
  if c.appidFromCoreid then t.coreId else t.appId

/- The address that is made of the id and the address. -/
def privateAddress
    (c : Config)
    (table : BitVec 8 → BitVec 8)
    (t : TraceSource)
    (va : BitVec 64) : BitVec 64 :=
  let haddr := BitVec.ofInt 64 (idOf c t)
  if c.addressRandomization then
    (haddr <<< paCoreShift) |||
      (remapAddress table (va >>> vaPageShift) <<<
        vaPageShift) ||| (va &&& vaPageMask)
  else (haddr <<< paCoreShift) ||| (va &&& paVaMask)

/- `va2pa`, and whether there was no mapping. The table is
   that of the application. -/
def va2pa
    (c : Config)
    (tables : Int → Equiv.Perm (BitVec 8))
    (t : TraceSource)
    (va : BitVec 64) : BitVec 64 × Bool :=
  let own := privateAddress c (tables t.appId) t va
  if t.traceHasPa then
    let pa := t.traceVa2pa va
    if pa ≠ 0 then (pa, false) else (own, true)
  else (own, false)

/- The page number in an address. -/
def pageOf
    (c : Config)
    (table : BitVec 8 → BitVec 8)
    (va : BitVec 64) : BitVec 64 :=
  if c.addressRandomization then
    remapAddress table (va >>> vaPageShift)
  else va >>> vaPageShift

theorem getLsbD_of_lt
    {x : BitVec 64}
    {n k : Nat}
    (hLt : x.toNat < 2 ^ n)
    (hHigh : n ≤ k) :
    x.getLsbD k = false :=
  Nat.testBit_lt_two_pow
    (Nat.lt_of_lt_of_le hLt
      (Nat.pow_le_pow_right (by decide) hHigh))

theorem getLsbD_vaPageMask
    (hBit : k < 64) :
    vaPageMask.getLsbD k = decide (k < 12) := by
  revert k
  decide

theorem getLsbD_paVaMask
    (hBit : k < 64) :
    paVaMask.getLsbD k = decide (k < 48) := by
  revert k
  decide

variable {va : BitVec 64} (c : Config)

/- A page of an address below 2^48 has 36 bits. -/
theorem getLsbD_pageOf
    (table : BitVec 8 → BitVec 8)
    (hVa : va.toNat < 2 ^ 48)
    (hHigh : 36 ≤ k) :
    (pageOf c table va).getLsbD k = false := by
  have hShift : (va >>> vaPageShift).getLsbD k = false := by
    rw [BitVec.getLsbD_ushiftRight]
    exact getLsbD_of_lt hVa (by unfold vaPageShift; omega)
  rw [pageOf]
  split_ifs
  · rw [getLsbD_remapAddress table _ (by omega), hShift]
  · exact hShift

/- The three fields of a physical address. -/
theorem getLsbD_privateAddress
    (table : BitVec 8 → BitVec 8)
    (t : TraceSource)
    (hVa : va.toNat < 2 ^ 48)
    (hBit : k < 64) :
    (privateAddress c table t va).getLsbD k =
      if k < 12 then va.getLsbD k
      else if k < 48 then
        (pageOf c table va).getLsbD (k - 12)
      else (BitVec.ofInt 64 (idOf c t)).getLsbD (k - 48) := by
  have hHigh := fun hAbove : 48 ≤ k =>
    getLsbD_pageOf c table hVa (k := k - 12) (by omega)
  have hTop := fun hAbove : 48 ≤ k =>
    getLsbD_of_lt hVa hAbove
  by_cases hRandom : c.addressRandomization = true
  · have hHere : pageOf c table va =
        remapAddress table (va >>> vaPageShift) :=
      if_pos hRandom
    rw [hHere] at hHigh ⊢
    rw [privateAddress, if_pos hRandom]
    generalize remapAddress table (va >>> vaPageShift) = page
      at hHigh ⊢
    simp only [BitVec.getLsbD_or, BitVec.getLsbD_and,
      BitVec.getLsbD_shiftLeft, getLsbD_vaPageMask hBit,
      paCoreShift, vaPageShift, hBit, decide_true,
      Bool.true_and]
    split_ifs with hOffset hPage
    · have hLow : k < 48 := by omega
      simp only [hOffset, hLow, decide_true, Bool.not_true,
        Bool.false_and, Bool.false_or, Bool.and_true]
    · simp only [hOffset, hPage, decide_true, decide_false,
        Bool.not_true, Bool.not_false, Bool.false_and,
        Bool.false_or, Bool.true_and, Bool.and_false,
        Bool.or_false]
    · simp only [hOffset, hPage, decide_false,
        Bool.not_false, Bool.true_and, Bool.and_false,
        Bool.or_false, hHigh (by omega)]
  · have hHere : pageOf c table va = va >>> vaPageShift :=
      if_neg hRandom
    rw [hHere, privateAddress, if_neg hRandom]
    simp only [BitVec.getLsbD_or, BitVec.getLsbD_and,
      BitVec.getLsbD_shiftLeft, BitVec.getLsbD_ushiftRight,
      getLsbD_paVaMask hBit, paCoreShift, vaPageShift, hBit,
      decide_true, Bool.true_and]
    split_ifs with hOffset hPage
    · have hLow : k < 48 := by omega
      simp only [hLow, decide_true, Bool.not_true,
        Bool.false_and, Bool.false_or, Bool.and_true]
    · have hBack : 12 + (k - 12) = k := by omega
      simp only [hPage, hBack, decide_true, Bool.not_true,
        Bool.false_and, Bool.false_or, Bool.and_true]
    · simp only [hPage, decide_false, Bool.not_false,
        Bool.true_and, Bool.and_false, Bool.or_false]

/- Different ids below 2^16 give different words. -/
theorem ofInt_injOn
    {i j : Int}
    (hI : 0 ≤ i ∧ i < 2 ^ 16)
    (hJ : 0 ≤ j ∧ j < 2 ^ 16)
    (hEq : ∀ k < 16, (BitVec.ofInt 64 i).getLsbD k =
      (BitVec.ofInt 64 j).getLsbD k) :
    i = j := by
  have hWord : BitVec.ofInt 64 i = BitVec.ofInt 64 j := by
    apply BitVec.eq_of_getLsbD_eq
    intro k _
    by_cases hLow : k < 16
    · exact hEq k hLow
    · have hNone : ∀ n : Int, 0 ≤ n ∧ n < 2 ^ 16 →
          (BitVec.ofInt 64 n).getLsbD k = false := by
        intro n hN
        apply getLsbD_of_lt (n := 16) _ (by omega)
        rw [BitVec.toNat_ofInt]
        omega
      rw [hNone i hI, hNone j hJ]
  have hNat := congrArg BitVec.toNat hWord
  rw [BitVec.toNat_ofInt, BitVec.toNat_ofInt] at hNat
  omega

------------------------------------------------------------
-- Separation
------------------------------------------------------------

/-
  Two threads keep the offsets of their pages, and have no
  address in common, unless it is one address of one id.
-/
structure Separates
    (c : Config)
    (tables : Int → Equiv.Perm (BitVec 8))
    (u v : TraceSource) : Prop where
  offset : ∀ t ∈ [u, v], ∀ va : BitVec 64,
    va.toNat < 2 ^ 48 →
      (va2pa c tables t va).1 &&& vaPageMask = va &&& vaPageMask
  apart : ∀ va va' : BitVec 64, va.toNat < 2 ^ 48 →
    va'.toNat < 2 ^ 48 →
      (idOf c u, va) ≠ (idOf c v, va') →
        (va2pa c tables u va).1 ≠ (va2pa c tables v va').1

/- Threads with one id have one table. -/
def SharesTable
    (c : Config)
    (tables : Int → Equiv.Perm (BitVec 8))
    (u v : TraceSource) : Prop :=
  c.addressRandomization = true → idOf c u = idOf c v →
    tables u.appId = tables v.appId

/- Without physical addresses in the trace. -/
theorem va2pa_of_private
    (tables : Int → Equiv.Perm (BitVec 8))
    {t : TraceSource}
    (hPrivate : t.traceHasPa = false)
    (va : BitVec 64) :
    (va2pa c tables t va).1 =
      privateAddress c (tables t.appId) t va := by
  rw [va2pa, hPrivate]
  rfl

theorem offset_privateAddress
    (table : BitVec 8 → BitVec 8)
    (t : TraceSource)
    (hVa : va.toNat < 2 ^ 48) :
    privateAddress c table t va &&& vaPageMask =
      va &&& vaPageMask := by
  apply BitVec.eq_of_getLsbD_eq
  intro k hBit
  rw [BitVec.getLsbD_and, BitVec.getLsbD_and,
    getLsbD_vaPageMask hBit,
    getLsbD_privateAddress c table t hVa hBit]
  by_cases hLow : k < 12
  · rw [if_pos hLow]
  · simp [hLow]

variable {va va' : BitVec 64}

/- A common address has one id, one remapped page and one
   offset. -/
theorem privateAddress_eq_iff
    (table table' : BitVec 8 → BitVec 8)
    {u v : TraceSource}
    (hU : 0 ≤ idOf c u ∧ idOf c u < 2 ^ 16)
    (hV : 0 ≤ idOf c v ∧ idOf c v < 2 ^ 16)
    (hVa : va.toNat < 2 ^ 48)
    (hVa' : va'.toNat < 2 ^ 48) :
    privateAddress c table u va = privateAddress c table' v va' ↔
      idOf c u = idOf c v ∧
        pageOf c table va = pageOf c table' va' ∧
        ∀ k < 12, va.getLsbD k = va'.getLsbD k := by
  constructor
  · intro hEq
    have hBits : ∀ k < 64,
        (privateAddress c table u va).getLsbD k =
          (privateAddress c table' v va').getLsbD k :=
      fun k _ => by rw [hEq]
    refine ⟨?_, ?_, ?_⟩
    · apply ofInt_injOn hU hV
      intro k hLow
      have hBit := hBits (k + 48) (by omega)
      have hPage : ¬k + 48 < 48 := by omega
      have hOffset : ¬k + 48 < 12 := by omega
      rw [getLsbD_privateAddress c _ u hVa (by omega),
        getLsbD_privateAddress c _ v hVa' (by omega)] at hBit
      simpa [hPage, hOffset] using hBit
    · apply BitVec.eq_of_getLsbD_eq
      intro k _
      by_cases hLow : k < 36
      · have hBit := hBits (k + 12) (by omega)
        have hPage : k + 12 < 48 := by omega
        have hOffset : ¬k + 12 < 12 := by omega
        rw [getLsbD_privateAddress c _ u hVa (by omega),
          getLsbD_privateAddress c _ v hVa' (by omega)]
          at hBit
        simpa [hPage, hOffset] using hBit
      · rw [getLsbD_pageOf c _ hVa (by omega),
          getLsbD_pageOf c _ hVa' (by omega)]
    · intro k hLow
      have hBit := hBits k (by omega)
      rwa [getLsbD_privateAddress c _ u hVa (by omega),
        getLsbD_privateAddress c _ v hVa' (by omega),
        if_pos hLow, if_pos hLow] at hBit
  · rintro ⟨hId, hPage, hOffset⟩
    apply BitVec.eq_of_getLsbD_eq
    intro k hBit
    rw [getLsbD_privateAddress c _ u hVa hBit,
      getLsbD_privateAddress c _ v hVa' hBit, hId, hPage]
    split_ifs with hLow
    · exact hOffset k hLow
    · rfl
    · rfl

/- The remapped page determines the page. -/
theorem shift_eq_of_pageOf
    (table : Equiv.Perm (BitVec 8))
    (hPage : pageOf c table va = pageOf c table va') :
    va >>> vaPageShift = va' >>> vaPageShift := by
  rw [pageOf, pageOf] at hPage
  split_ifs at hPage
  · exact remapAddress_injective table hPage
  · exact hPage

theorem eq_of_page_of_offset
    (hPage : va >>> vaPageShift = va' >>> vaPageShift)
    (hOffset : ∀ k < 12, va.getLsbD k = va'.getLsbD k) :
    va = va' := by
  apply BitVec.eq_of_getLsbD_eq
  intro k _
  by_cases hLow : k < 12
  · exact hOffset k hLow
  · have hBit := congrArg
      (fun x : BitVec 64 => x.getLsbD (k - 12)) hPage
    have hBack : 12 + (k - 12) = k := by omega
    simpa [BitVec.getLsbD_ushiftRight, vaPageShift,
      hBack] using hBit

/- Remapping with a table and back. -/
theorem remapAddress_symm
    (table : Equiv.Perm (BitVec 8))
    (vaPage : BitVec 64) :
    remapAddress table (remapAddress table.symm vaPage) =
      vaPage := by
  apply eq_of_bytes
  · intro i hByte
    rw [byteOf_remapAddress _ _ hByte,
      byteOf_remapAddress _ _ hByte, Equiv.apply_symm_apply]
  · intro k hHigh
    rw [getLsbD_remapAddress _ _ hHigh,
      getLsbD_remapAddress _ _ hHigh]

/- The first address of a page below 2^24. -/
theorem pageAddress_spec
    {x : BitVec 64}
    (hSmall : ∀ k, 24 ≤ k → x.getLsbD k = false) :
    (x <<< vaPageShift).toNat < 2 ^ 48 ∧
      (x <<< vaPageShift) >>> vaPageShift = x ∧
      ∀ k < 12, (x <<< vaPageShift).getLsbD k = false := by
  refine ⟨?_, ?_, ?_⟩
  · apply Nat.lt_pow_two_of_testBit
    intro k hHigh
    have hBit := hSmall (k - 12) (by omega)
    change (x <<< vaPageShift).getLsbD k = false
    rw [BitVec.getLsbD_shiftLeft, vaPageShift, hBit, Bool.and_false]
  · apply BitVec.eq_of_getLsbD_eq
    intro k _
    rw [BitVec.getLsbD_ushiftRight, BitVec.getLsbD_shiftLeft,
      vaPageShift, Nat.add_sub_cancel_left]
    by_cases hLow : k < 24
    · have hWord : 12 + k < 64 := by omega
      have hAbove : ¬12 + k < 12 := by omega
      simp [hWord, hAbove]
    · rw [hSmall k (by omega), Bool.and_false]
  · intro k hLow
    rw [BitVec.getLsbD_shiftLeft, vaPageShift]
    simp [hLow]

/- Two tables map different pages to one page. -/
theorem exists_common_page
    {table table' : Equiv.Perm (BitVec 8)}
    (hTables : table ≠ table') :
    ∃ x y : BitVec 64, x ≠ y ∧
      (∀ k, 24 ≤ k → x.getLsbD k = false) ∧
      (∀ k, 24 ≤ k → y.getLsbD k = false) ∧
      remapAddress table x = remapAddress table' y := by
  have hByte : ∃ b, table b ≠ table' b := by
    by_contra hAll
    push Not at hAll
    exact hTables (Equiv.ext hAll)
  rcases hByte with ⟨b, hNe⟩
  have hSmall : ∀ k, 24 ≤ k →
      (setByte 0 0 b).getLsbD k = false := by
    intro k hHigh
    by_cases hBit : k < 64
    · rw [getLsbD_setByte 0 b hBit, if_neg (by omega)]
      simp
    · exact BitVec.getLsbD_of_ge _ k (by omega)
  refine ⟨setByte 0 0 b, remapAddress table'.symm
    (remapAddress table (setByte 0 0 b)), ?_, hSmall, ?_, ?_⟩
  · intro hEq
    have hBack := congrArg (remapAddress table') hEq
    rw [remapAddress_symm] at hBack
    have hFirst := congrArg (fun x => byteOf x 0) hBack
    rw [byteOf_remapAddress _ _ (by decide),
      byteOf_remapAddress _ _ (by decide),
      byteOf_setByte_self _ _ (by decide)] at hFirst
    exact hNe hFirst.symm
  · intro k hHigh
    rw [getLsbD_remapAddress _ _ hHigh,
      getLsbD_remapAddress _ _ hHigh, hSmall k hHigh]
  · rw [remapAddress_symm]

/-
  Two threads are separated exactly if they have one table
  where they have one id.
-/
theorem separates_iff
    (c : Config)
    (tables : Int → Equiv.Perm (BitVec 8))
    (u v : TraceSource)
    (hU : 0 ≤ idOf c u ∧ idOf c u < 2 ^ 16)
    (hV : 0 ≤ idOf c v ∧ idOf c v < 2 ^ 16)
    (hPrivate : ∀ t ∈ [u, v], t.traceHasPa = false) :
    Separates c tables u v ↔ SharesTable c tables u v := by
  have hOwn := va2pa_of_private c tables (hPrivate u (by simp))
  have hOther := va2pa_of_private c tables (hPrivate v (by simp))
  constructor
  · intro hSeparates hRandom hId
    by_contra hTables
    rcases exists_common_page hTables with
      ⟨x, y, hNe, hX, hY, hCommon⟩
    rcases pageAddress_spec hX with ⟨hVa, hPage, hZero⟩
    rcases pageAddress_spec hY with ⟨hVa', hPage', hZero'⟩
    refine hSeparates.apart _ _ hVa hVa' ?_ ?_
    · intro hSame
      have hShift := congrArg
        (fun z : BitVec 64 => z >>> vaPageShift)
        (Prod.mk.inj hSame).2
      rw [hPage, hPage'] at hShift
      exact hNe hShift
    · rw [hOwn, hOther, privateAddress_eq_iff c _ _ hU hV hVa hVa']
      refine ⟨hId, ?_, fun k hLow => ?_⟩
      · rw [pageOf, pageOf, if_pos hRandom, if_pos hRandom,
          hPage, hPage', hCommon]
      · rw [hZero k hLow, hZero' k hLow]
  · intro hShares
    constructor
    · intro t hMem va hVa
      rw [va2pa_of_private c tables (hPrivate t hMem)]
      exact offset_privateAddress c _ t hVa
    · intro va va' hVa hVa' hNe hEq
      rw [hOwn, hOther,
        privateAddress_eq_iff c _ _ hU hV hVa hVa'] at hEq
      rcases hEq with ⟨hId, hPage, hOffset⟩
      have hShift : va >>> vaPageShift = va' >>> vaPageShift := by
        by_cases hRandom : c.addressRandomization = true
        · rw [← hShares hRandom hId] at hPage
          exact shift_eq_of_pageOf c _ hPage
        · rw [pageOf, pageOf, if_neg hRandom,
            if_neg hRandom] at hPage
          exact hPage
      rw [hId, eq_of_page_of_offset hShift hOffset] at hNe
      exact hNe rfl

/- The tables of two applications. -/
def twoTables (app : Int) : Equiv.Perm (BitVec 8) :=
  if app = 0 then Equiv.refl _ else Equiv.swap 0 1

/- The thread of a core and an application. -/
def threadOf (coreId appId : Int) : TraceSource :=
  ⟨false, fun _ => 0, coreId, appId⟩

/- The ids are those of the applications. -/
theorem separates_twoApps :
    Separates ⟨true, false⟩ twoTables (threadOf 0 0)
      (threadOf 0 1) :=
  (separates_iff ⟨true, false⟩ twoTables (threadOf 0 0)
    (threadOf 0 1) (by decide) (by decide) (by decide)).mpr
      (fun _ hId => absurd hId (by decide))

/- The sequential scheduler, with two parts of one process on
   one core. -/
theorem not_separates_oneCore :
    ¬Separates ⟨true, true⟩ twoTables (threadOf 0 0)
      (threadOf 0 1) := by
  intro hSeparates
  exact hSeparates.apart 0 0x10101000 (by decide) (by decide)
    (by decide) (by decide +kernel)

end VaMapping

end Virtuoso
