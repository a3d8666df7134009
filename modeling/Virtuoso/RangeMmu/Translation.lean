import Virtuoso.RangeMmu.Basic
import Virtuoso.ReserveThp.Promotion
import Virtuoso.Tlb.Contents

/-
  When the translation of `RangeMMU` returns the physical
  address of the conventional MMU.

  `Mapping` is what all sources of a translation agree on:
  the TLBs, the ranges that were allocated eagerly, and the
  page table. The offset of an address in its page is taken
  modulo the number of bits of the page size, which is right
  only for addresses at the start of some pages. After a hit
  in the range table, the frame comes from a range that was
  never written.

  Main declarations:
    * `RangeMmu.resolve_cases`
    * `RangeMmu.right_iff_served`
-/

------------------------------------------------------------
-- Mappings And Their Sources
------------------------------------------------------------

namespace Virtuoso

namespace RangeMmu

variable {σ : Type}

/- The frame and the size in bits of the page of an address. -/
structure Mapping where
  ppn : BitVec 64 → Nat
  pageSize : BitVec 64 → Nat
  uniform : ∀ a b,
    Tlb.tagOf a (pageSize a) = Tlb.tagOf b (pageSize a) →
      ppn a = ppn b ∧ pageSize a = pageSize b
  ppn_lt : ∀ a, ppn a < 2 ^ 64
  pageSize_pos : ∀ a, 0 < pageSize a

/- The block translates the addresses of its page. -/
def Mapping.Holds (m : Mapping) (b : TlbBlock) : Prop :=
  ∀ a, b.tag = Tlb.tagOf a b.pageSize →
    b.ppn = m.ppn a ∧ b.pageSize = m.pageSize a

/- The pages of 4KB of a range have consecutive frames. -/
def Mapping.Backs (m : Mapping) (range : Range) : Prop :=
  ∀ a, range.Contains a →
    m.pageSize a = 12 ∧
      m.ppn a = range.offset.toNat +
        (a.toNat / 4096 - range.vpn.toNat / 4096)

/- Disjoint ranges of pages as they are mapped. -/
structure Eager
    (m : Mapping)
    (ranges : List Range) : Prop where
  backs : ∀ x ∈ ranges, m.Backs x
  apart : ∀ x ∈ ranges, ∀ y ∈ ranges, ∀ a,
    x.Contains a → y.Contains a → x = y

/- The first walk that does not fault. -/
def firstMapped :
    List PtwOutcome → Option (Nat × Nat)
| [] => none
| .pageFault _ :: rest => firstMapped rest
| .mapped ppn pageSize :: _ => some (ppn, pageSize)

/- The page table maps the page of the request. -/
def Mapping.Walks (m : Mapping) (r : Request) : Prop :=
  firstMapped r.walks = some (m.ppn r.address, m.pageSize r.address)

/- The TLBs and the RLB hold translations of the mapping. -/
structure Consistent
    (ok : Nat → σ → Prop)
    (m : Mapping)
    (ranges : List Range)
    (s : State σ) : Prop where
  tlbs : Mmu.Each (Tlb.Contents ok m.Holds) s.tlbs
  rlb : ∀ x ∈ s.rlb.ranges, x ∈ ranges

/- The lookup in the range table returns a key. -/
def keyFound (s : State σ) (address : BitVec 64) : Bool :=
  match RangeTable.lookup s.rangeTable address.toNat with
  | some (some _, _) => true
  | _ => false

/- A range is found in the RLB or in the range table. -/
def rangeFound (s : State σ) (address : BitVec 64) : Bool :=
  s.rlb.ranges.any (fun x => decide (x.Contains address)) ||
    keyFound s address

/-
  The range walk returns the range that contains the address
  and its offset, if one is found.
-/
def WalkRight
    (ranges : List Range)
    (s : State σ)
    (address : BitVec 64)
    (walked : BitVec 64 × BitVec 32) : Prop :=
  if rangeFound s address then
    ∃ x ∈ ranges, x.Contains address ∧ walked.1 = x.vpn ∧
      walked.2.toInt = x.offset.toNat
  else
    walked = noRange

/- What the translation has to return. -/
structure Right
    (m : Mapping)
    (ranges : List Range)
    (s : State σ)
    (r : Request)
    (outcome : Outcome) : Prop where
  address : outcome.physicalAddress =
    finalPhysicalAddress (m.ppn r.address)
      (m.pageSize r.address) r.address.toNat
  walk : ∀ w ∈ outcome.rangeWalk, WalkRight ranges s r.address w

/- Whatever the range of an RLB miss contains. -/
def AlwaysRight
    (m : Mapping)
    (ranges : List Range)
    (s : State σ)
    (r : Request) : Prop :=
  ∀ miss, ∃ outcome s',
    performAddressTranslation s { r with miss := miss } =
        some (outcome, s') ∧
      Right m ranges s r outcome

/- A TLB on the path holds a block for the address. -/
def tlbHit (s : State σ) (r : Request) : Bool :=
  s.tlbs.any (fun tlbs => tlbs.any (fun t =>
    (Mmu.blockFor r.toTlbs t).isSome))

/-
  The page starts at a multiple of the number of its bits,
  and the address is less than this number behind the start.
-/
def AtStart (address pageSize : Nat) : Prop :=
  address % 2 ^ pageSize < pageSize ∧
    pageSize ∣ 2 ^ pageSize * (address / 2 ^ pageSize)

/- The RLB holds the range, and its offset fits an `int`. -/
def RlbServes (rlb : Rlb) (address : BitVec 64) : Prop :=
  ∃ x ∈ rlb.ranges, x.Contains address ∧ x.offset.toNat < 2 ^ 31

/- Neither the RLB nor the range table has a range. -/
def OutsideRanges
    (s : State σ)
    (address : BitVec 64) : Prop :=
  (∀ x ∈ s.rlb.ranges, ¬ x.Contains address) ∧
    ∃ accesses,
      RangeTable.lookup s.rangeTable address.toNat =
        some (none, accesses)

/- The request has a source that gives its page. -/
structure Served
    (m : Mapping)
    (s : State σ)
    (r : Request) : Prop where
  vma : ∃ v ∈ s.vmas, v.1 ≤ r.address ∧ r.address < v.2
  start : AtStart r.address.toNat (m.pageSize r.address)
  source : tlbHit s r = true ∨ RlbServes s.rlb r.address ∨
    OutsideRanges s r.address

/- Both remainders agree at the start of such a page only. -/
theorem mod_eq_iff_atStart
    {address pageSize : Nat}
    (hPos : 0 < pageSize) :
    address % pageSize = address % 2 ^ pageSize ↔
      AtStart address pageSize := by
  have hSplit : 2 ^ pageSize * (address / 2 ^ pageSize) +
      address % 2 ^ pageSize = address :=
    Nat.div_add_mod address (2 ^ pageSize)
  constructor
  · intro hSame
    have hLt : address % 2 ^ pageSize < pageSize := by
      rw [← hSame]
      exact Nat.mod_lt _ hPos
    refine ⟨hLt, ?_⟩
    have hSub : 2 ^ pageSize * (address / 2 ^ pageSize) =
        address - address % pageSize := by omega
    rw [hSub]
    exact Nat.dvd_sub_mod address
  · rintro ⟨hLt, hDvd⟩
    have hMod : address % pageSize =
        address % 2 ^ pageSize % pageSize := by
      conv_lhs => rw [← hSplit]
      exact Nat.ModEq.symm (by
        unfold Nat.ModEq
        rw [Nat.add_mod, Nat.mod_eq_zero_of_dvd hDvd,
          Nat.zero_add, Nat.mod_mod])
    rw [hMod, Nat.mod_eq_of_lt hLt]

/- The address is the one of the conventional MMU. -/
theorem physicalAddress_eq_iff
    {found : Resolved}
    {address : BitVec 64}
    (hPos : 0 < found.pageSize) :
    physicalAddress found address =
        finalPhysicalAddress found.ppn found.pageSize
          address.toNat ↔
      AtStart address.toNat found.pageSize := by
  have hLt := address.isLt
  have hLeft : address.toNat % found.pageSize < 2 ^ 64 :=
    lt_of_le_of_lt (Nat.mod_le _ _) hLt
  have hRight : address.toNat % 2 ^ found.pageSize < 2 ^ 64 :=
    lt_of_le_of_lt (Nat.mod_le _ _) hLt
  rw [← mod_eq_iff_atStart hPos]
  unfold physicalAddress finalPhysicalAddress
  constructor
  · intro hSame
    have hMod : address.toNat % found.pageSize ≡
        address.toNat % 2 ^ found.pageSize [MOD 2 ^ 64] :=
      Nat.ModEq.add_left_cancel' _ hSame
    rw [Nat.ModEq, Nat.mod_eq_of_lt hLeft,
      Nat.mod_eq_of_lt hRight] at hMod
    exact hMod
  · intro hSame
    rw [hSame]

/- The offset is returned unless it does not fit an `int`. -/
theorem toInt_setWidth_eq_iff
    (offset : BitVec 64) :
    (offset.setWidth 32).toInt = offset.toNat ↔
      offset.toNat < 2 ^ 31 := by
  have hLt := offset.isLt
  rw [BitVec.toInt_eq_toNat_cond, BitVec.toNat_setWidth]
  split_ifs with hSmall
  · omega
  · omega

theorem signExtend_setWidth
    {offset : BitVec 64}
    (hFits : offset.toNat < 2 ^ 31) :
    (offset.setWidth 32).signExtend 64 = offset := by
  have hMsb : (offset.setWidth 32).msb = false := by
    rw [BitVec.msb_eq_false_iff_two_mul_lt, BitVec.toNat_setWidth]
    omega
  rw [BitVec.signExtend_eq_setWidth_of_msb_false hMsb]
  apply BitVec.eq_of_toNat_eq
  rw [BitVec.toNat_setWidth, BitVec.toNat_setWidth]
  omega

variable {x : Range}

/- The frame of an address in a range that is returned. -/
theorem rangePpn_returned
    {m : Mapping}
    {address : BitVec 64}
    (hBacks : m.Backs x)
    (hContains : x.Contains address)
    (hFits : x.offset.toNat < 2 ^ 31) :
    (rangePpn address x.returned).toNat = m.ppn address := by
  have hPpn := (hBacks address hContains).2
  have hLe : x.vpn.toNat ≤ address.toNat := hContains.1
  have hDiv := Nat.div_le_div_right (c := 4096) hLe
  have hLt := address.isLt
  have hBound := m.ppn_lt address
  have hShift : (address >>> 12).toNat = address.toNat / 4096 := by
    rw [BitVec.toNat_ushiftRight, Nat.shiftRight_eq_div_pow]
  have hStart : (x.vpn / 4096).toNat = x.vpn.toNat / 4096 := by
    rw [BitVec.toNat_udiv]
    rfl
  simp only [rangePpn, Range.returned, signExtend_setWidth hFits]
  rw [BitVec.toNat_add, BitVec.toNat_sub, hShift, hStart, hPpn]
  rw [hPpn] at hBound
  omega

theorem vpn_ne_allOnes
    {address : BitVec 64}
    (hContains : x.Contains address) :
    x.vpn ≠ BitVec.allOnes 64 := by
  intro hEq
  have hLe : x.vpn.toNat ≤ address.toNat := hContains.1
  have hLt : address.toNat < x.bounds.toNat := hContains.2
  have hBounds := x.bounds.isLt
  rw [hEq, BitVec.toNat_allOnes] at hLe
  omega

/- A hit in the RLB. -/
theorem access_hit
    {rlb : Rlb}
    {address : BitVec 64}
    (hHit : ∃ x ∈ rlb.ranges, x.Contains address)
    (miss : Range) :
    ∃ x ∈ rlb.ranges, x.Contains address ∧
      ∃ mru, rlb.access address miss =
        ((true, x), { rlb with mru := mru }) := by
  unfold Rlb.access
  split
  · next e hFind =>
      have hContains := List.find?_some hFind
      rcases List.mem_zipIdx (List.mem_of_find?_eq_some hFind)
        with ⟨-, -, hAt⟩
      exact ⟨e.1, hAt ▸ List.getElem_mem _,
        of_decide_eq_true hContains, e.2, rfl⟩
  · next hNone =>
      rcases hHit with ⟨x, hMem, hContains⟩
      rcases List.mem_iff_getElem?.mp hMem with ⟨i, hGet⟩
      have hPair : (x, i) ∈ rlb.ranges.zipIdx :=
        List.mem_zipIdx_iff_getElem?.mpr hGet
      have hFalse := List.find?_eq_none.mp hNone _ hPair
      exact absurd (decide_eq_true hContains) hFalse

theorem access_miss
    {rlb : Rlb}
    {address : BitVec 64}
    (hMiss : ∀ x ∈ rlb.ranges, ¬ x.Contains address)
    (miss : Range) :
    rlb.access address miss = ((false, miss), rlb) := by
  unfold Rlb.access
  split
  · next e hFind =>
      have hContains := List.find?_some hFind
      rcases List.mem_zipIdx (List.mem_of_find?_eq_some hFind)
        with ⟨-, -, hAt⟩
      exact absurd (of_decide_eq_true hContains)
        (hMiss _ (hAt ▸ List.getElem_mem _))
  · rfl

/- A hit in the range table changes nothing in the result. -/
theorem performRangeWalk_key
    {rlb rlb' : Rlb}
    {rangeTable : RangeTable.RangeTableBtree}
    {r : Request}
    {walked : BitVec 64 × BitVec 32}
    (hMiss : ∀ x ∈ rlb.ranges, ¬ x.Contains r.address)
    (hKey : ¬ ∃ accesses, RangeTable.lookup rangeTable
      r.address.toNat = some (none, accesses))
    (hCall : performRangeWalk rlb rangeTable r =
      some (walked, rlb')) :
    walked = r.miss.returned := by
  simp only [performRangeWalk, access_miss hMiss r.miss,
    Bool.false_eq_true, if_false] at hCall
  split at hCall
  · cases hCall
  · next accesses hLookup =>
      exact absurd ⟨accesses, hLookup⟩ hKey
  · split at hCall
    · cases hCall
    · rcases Option.map_eq_some_iff.mp hCall with
        ⟨rlb₁, -, hEq⟩
      exact (congrArg Prod.fst hEq).symm

theorem tlbHit_iff
    {s : State σ}
    {r : Request} :
    tlbHit s r = true ↔ ∃ level index b,
      Mmu.blockAtPlace r.toTlbs s.tlbs level index = some b := by
  simp only [tlbHit, List.any_eq_true]
  constructor
  · rintro ⟨tlbs, hLevel, t, hIndex, hSome⟩
    rcases List.mem_iff_getElem?.mp hLevel with ⟨i, hI⟩
    rcases List.mem_iff_getElem?.mp hIndex with ⟨j, hJ⟩
    rcases Option.isSome_iff_exists.mp hSome with ⟨b, hB⟩
    refine ⟨i, j, b, ?_⟩
    simp only [Mmu.blockAtPlace, Mmu.tlbAt, hI,
      Option.bind_some, hJ, hB]
  · rintro ⟨i, j, b, hPlace⟩
    rcases Option.bind_eq_some_iff.mp hPlace with
      ⟨t, hAt, hB⟩
    rcases Option.bind_eq_some_iff.mp hAt with
      ⟨tlbs, hI, hJ⟩
    refine ⟨tlbs, List.mem_of_getElem? hI, t,
      List.mem_of_getElem? hJ, ?_⟩
    rw [hB]
    rfl

/- The loop of walks returns the first that does not fault. -/
theorem performPTWs_eq
    {walks : List PtwOutcome}
    {page : Nat × Nat}
    (hFirst : firstMapped walks = some page)
    (rangeTable : RangeTable.RangeTableBtree) :
    ∃ rangeTable', performPTWs rangeTable walks =
      some (page, rangeTable') := by
  induction walks generalizing rangeTable with
  | nil => cases hFirst
  | cons walk rest ih =>
      cases walk with
      | pageFault handled => exact ih hFirst handled
      | mapped ppn pageSize =>
          rw [← Option.some.inj hFirst]
          exact ⟨rangeTable, rfl⟩

variable {ok : Nat → σ → Prop} {m : Mapping}
variable {ranges : List Range} {s : State σ} {r : Request}

/- What was found is the page of the address. -/
structure FoundPage
    (m : Mapping)
    (address : BitVec 64)
    (found : Resolved) : Prop where
  ppn : found.ppn = m.ppn address
  pageSize : found.pageSize = m.pageSize address

/- The search of the TLBs. -/
theorem searchTlbs
    (hConsistent : Consistent ok m ranges s)
    (r : Request) :
    ∃ found session,
      Mmu.searchLevels r.toTlbs (List.range s.tlbs.length)
          ⟨s.tlbs, []⟩ = some (found, session) ∧
        Mmu.Each (Tlb.Contents ok m.Holds) session.tlbs ∧
        (found = none ↔ tlbHit s r = false) ∧
        ∀ p ∈ found, p.2.ppn = m.ppn r.address ∧
          p.2.pageSize = m.pageSize r.address := by
  rcases Mmu.searchLevels_contents (r := r.toTlbs)
      (s := ⟨s.tlbs, []⟩) (fun _ _ => rfl)
      (List.range s.tlbs.length) hConsistent.tlbs with
    ⟨found, session, hSearch, hEach, -, hNone, hSome⟩
  refine ⟨found, session, hSearch, hEach, ?_, ?_⟩
  · rw [hNone, ← Bool.not_eq_true, tlbHit_iff]
    constructor
    · rintro hAll ⟨level, index, b, hPlace⟩
      have hLevel : level ∈ List.range s.tlbs.length := by
        rcases Option.bind_eq_some_iff.mp hPlace with
          ⟨t, hAt, -⟩
        rcases Option.bind_eq_some_iff.mp hAt with
          ⟨tlbs, hGet, -⟩
        exact List.mem_range.mpr
          (List.getElem?_eq_some_iff.mp hGet).1
      rw [hAll level hLevel index] at hPlace
      cases hPlace
    · intro hNot level _ index
      cases hPlace : Mmu.blockAtPlace r.toTlbs s.tlbs level
          index with
      | none => rfl
      | some b => exact absurd ⟨level, index, b, hPlace⟩ hNot
  · intro p hFound
    rcases hSome p hFound with ⟨index, hPlace⟩
    rcases Option.bind_eq_some_iff.mp hPlace with
      ⟨t, hAt, hBlock⟩
    unfold Mmu.blockFor at hBlock
    split_ifs at hBlock
    rcases (hConsistent.tlbs _ _ t hAt).hit hBlock with
      ⟨hHolds, hTag⟩
    exact hHolds r.address hTag

theorem resolve_hit
    (hConsistent : Consistent ok m ranges s)
    (hHit : tlbHit s r = true) :
    ∃ found s₁, resolve s r = some (found, s₁) ∧
      FoundPage m r.address found ∧ found.rangeWalk = none ∧
      Consistent ok m ranges s₁ := by
  rcases searchTlbs hConsistent r with
    ⟨found, session, hSearch, hEach, hNone, hSome⟩
  cases hFound : found with
  | none =>
      rw [hNone.mp hFound] at hHit
      cases hHit
  | some p =>
      rcases hSome p hFound with ⟨hPpn, hSize⟩
      refine ⟨⟨p.2.ppn, p.2.pageSize, some p.1, none⟩,
        { s with tlbs := session.tlbs }, ?_, ⟨hPpn, hSize⟩,
        rfl, ⟨hEach, hConsistent.rlb⟩⟩
      simp only [resolve, hSearch, Option.bind_some, hFound]

theorem resolve_miss
    (hConsistent : Consistent ok m ranges s)
    (hMiss : tlbHit s r = false) :
    ∃ tlbs, resolve s r = resolveMiss { s with tlbs := tlbs } r ∧
      Consistent ok m ranges { s with tlbs := tlbs } := by
  rcases searchTlbs hConsistent r with
    ⟨found, session, hSearch, hEach, hNone, -⟩
  refine ⟨session.tlbs, ?_, hEach, hConsistent.rlb⟩
  simp only [resolve, hSearch, Option.bind_some, hNone.mpr hMiss]

theorem resolveMiss_rlb
    (hConsistent : Consistent ok m ranges s)
    (hRlb : ∃ x ∈ s.rlb.ranges, x.Contains r.address) :
    ∃ x ∈ s.rlb.ranges, x.Contains r.address ∧
      ∃ s₁, resolveMiss s r =
          some (⟨(rangePpn r.address x.returned).toNat, 12,
            none, some x.returned⟩, s₁) ∧
        Consistent ok m ranges s₁ := by
  rcases access_hit hRlb r.miss with
    ⟨x, hMem, hContains, mru, hAccess⟩
  refine ⟨x, hMem, hContains,
    { s with rlb := { s.rlb with mru := mru } }, ?_,
    ⟨hConsistent.tlbs, hConsistent.rlb⟩⟩
  have hWalk : performRangeWalk s.rlb s.rangeTable r =
      some (x.returned, { s.rlb with mru := mru }) := by
    simp only [performRangeWalk, hAccess, if_true]
  have hVpn : x.returned.1 ≠ BitVec.allOnes 64 :=
    vpn_ne_allOnes hContains
  simp only [resolveMiss, hWalk, Option.bind_some, if_pos hVpn]

theorem resolveMiss_walk
    (hConsistent : Consistent ok m ranges s)
    (hWalks : m.Walks r)
    (hOutside : OutsideRanges s r.address) :
    ∃ found s₁, resolveMiss s r = some (found, s₁) ∧
      FoundPage m r.address found ∧
      found.rangeWalk = some noRange ∧
      Consistent ok m ranges s₁ := by
  rcases hOutside with ⟨hRlb, accesses, hLookup⟩
  rcases performPTWs_eq hWalks s.rangeTable with
    ⟨rangeTable', hPtw⟩
  refine ⟨⟨m.ppn r.address, m.pageSize r.address, none,
    some noRange⟩, { s with rangeTable := rangeTable' }, ?_,
    ⟨rfl, rfl⟩, rfl, ⟨hConsistent.tlbs, hConsistent.rlb⟩⟩
  have hWalk : performRangeWalk s.rlb s.rangeTable r =
      some (noRange, s.rlb) := by
    simp only [performRangeWalk, access_miss hRlb r.miss,
      Bool.false_eq_true, if_false, hLookup]
  simp only [resolveMiss, hWalk, Option.bind_some, noRange,
    ne_eq, not_true_eq_false, if_false, hPtw, Option.map_some]

/- After a hit in the range table, the miss is returned. -/
theorem resolveMiss_key
    {found : Resolved}
    {s₁ : State σ}
    (hRlb : ∀ x ∈ s.rlb.ranges, ¬ x.Contains r.address)
    (hKey : ¬ ∃ accesses, RangeTable.lookup s.rangeTable
      r.address.toNat = some (none, accesses))
    (hVpn : r.miss.vpn ≠ BitVec.allOnes 64)
    (hCall : resolveMiss s r = some (found, s₁)) :
    found = ⟨(rangePpn r.address r.miss.returned).toNat, 12,
      none, some r.miss.returned⟩ := by
  rcases Option.bind_eq_some_iff.mp hCall with
    ⟨⟨walked, rlb'⟩, hWalk, hRest⟩
  have hWalked := performRangeWalk_key hRlb hKey hWalk
  subst hWalked
  have hReturned :
      (r.miss.returned, rlb').1.1 ≠ BitVec.allOnes 64 := hVpn
  rw [if_pos hReturned, Option.some.injEq, Prod.mk.injEq] at hRest
  exact hRest.1.symm

------------------------------------------------------------
-- The Translation
------------------------------------------------------------

theorem findVMA_isSome_iff
    {vmas : List (BitVec 64 × BitVec 64)}
    {address : BitVec 64} :
    (findVMA vmas address).isSome ↔
      ∃ v ∈ vmas, v.1 ≤ address ∧ address < v.2 := by
  rw [findVMA, List.find?_isSome]
  simp only [decide_eq_true_eq]

/- A page of the mapping is filled into the TLBs. -/
theorem translation_of_resolve
    {found : Resolved}
    {s₁ : State σ}
    (hVma : (findVMA s.vmas r.address).isSome)
    (hResolve : resolve s r = some (found, s₁))
    (hPage : FoundPage m r.address found)
    (hConsistent : Consistent ok m ranges s₁) :
    ∃ s', performAddressTranslation s r =
        some (⟨physicalAddress found r.address,
          found.rangeWalk⟩, s') ∧
      Consistent ok m ranges s' := by
  have hFill : m.Holds (Mmu.Fill.block ⟨r.address,
      found.pageSize, found.ppn, found.hitLevel⟩) := by
    intro a hTag
    simp only [Mmu.Fill.block] at hTag ⊢
    rw [hPage.pageSize] at hTag ⊢
    rw [hPage.ppn]
    exact m.uniform r.address a hTag
  have hNone : ∀ v ∈ ([] : List TlbBlock),
      Tlb.Carried m.Holds v := by simp
  rcases Mmu.allocateLevels_contents (r := r.toTlbs)
      (s := ⟨s₁.tlbs, []⟩)
      (List.range (if s₁.prefetchEnabled then
        s₁.tlbs.length - 1 else s₁.tlbs.length))
      hConsistent.tlbs hFill hNone with
    ⟨session, hAllocate, hHolding⟩
  rcases Option.isSome_iff_exists.mp hVma with ⟨vma, hFind⟩
  refine ⟨{ s₁ with tlbs := session.tlbs }, ?_,
    ⟨hHolding.each, hConsistent.rlb⟩⟩
  simp only [performAddressTranslation, hFind, hResolve,
    Option.bind_some, allocateTlbs, hAllocate,
    Option.map_some]

/- A translation returns what was resolved. -/
theorem exists_resolve
    {outcome : Outcome}
    {s' : State σ}
    (hCall : performAddressTranslation s r = some (outcome, s')) :
    (findVMA s.vmas r.address).isSome ∧
      ∃ found s₁, resolve s r = some (found, s₁) ∧
        outcome = ⟨physicalAddress found r.address,
          found.rangeWalk⟩ := by
  unfold performAddressTranslation at hCall
  split at hCall
  · cases hCall
  · next vma hFind =>
      rcases Option.bind_eq_some_iff.mp hCall with
        ⟨⟨found, s₁⟩, hResolve, hRest⟩
      rcases Option.map_eq_some_iff.mp hRest with
        ⟨s₂, -, hEq⟩
      refine ⟨by rw [hFind]; rfl, found, s₁, hResolve, ?_⟩
      exact (congrArg Prod.fst hEq).symm

/- The address of a page of the mapping. -/
theorem physicalAddress_iff_of_found
    {found : Resolved}
    (hPage : FoundPage m r.address found) :
    physicalAddress found r.address =
        finalPhysicalAddress (m.ppn r.address)
          (m.pageSize r.address) r.address.toNat ↔
      AtStart r.address.toNat (m.pageSize r.address) := by
  have hPos : 0 < found.pageSize := by
    rw [hPage.pageSize]
    exact m.pageSize_pos r.address
  rw [← hPage.ppn, ← hPage.pageSize]
  exact physicalAddress_eq_iff hPos

theorem rangeFound_of_rlb
    (hMem : x ∈ s.rlb.ranges)
    (hContains : x.Contains r.address) :
    rangeFound s r.address = true := by
  rw [rangeFound, Bool.or_eq_true]
  exact Or.inl (List.any_eq_true.mpr
    ⟨x, hMem, decide_eq_true hContains⟩)

theorem rangeFound_of_outside
    (hOutside : OutsideRanges s r.address) :
    rangeFound s r.address = false := by
  rcases hOutside with ⟨hRlb, accesses, hLookup⟩
  rw [rangeFound, Bool.or_eq_false_iff]
  refine ⟨?_, ?_⟩
  · rw [List.any_eq_false]
    intro x hMem
    simp only [decide_eq_true_eq]
    exact hRlb x hMem
  · simp only [keyFound, hLookup]

/- The range of the RLB is returned if its offset fits. -/
theorem walkRight_rlb_iff
    (hEager : Eager m ranges)
    (hConsistent : Consistent ok m ranges s)
    (hMem : x ∈ s.rlb.ranges)
    (hContains : x.Contains r.address) :
    WalkRight ranges s r.address x.returned ↔
      x.offset.toNat < 2 ^ 31 := by
  rw [WalkRight, if_pos (rangeFound_of_rlb hMem hContains),
    ← toInt_setWidth_eq_iff]
  constructor
  · rintro ⟨y, hIn, hHas, -, hOffset⟩
    rw [hEager.apart x (hConsistent.rlb x hMem) y hIn _
      hContains hHas] at hOffset ⊢
    exact hOffset
  · intro hOffset
    exact ⟨x, hConsistent.rlb x hMem, hContains, rfl, hOffset⟩

theorem foundPage_rlb
    (hEager : Eager m ranges)
    (hConsistent : Consistent ok m ranges s)
    (hMem : x ∈ s.rlb.ranges)
    (hContains : x.Contains r.address)
    (hFits : x.offset.toNat < 2 ^ 31) :
    FoundPage m r.address
      ⟨(rangePpn r.address x.returned).toNat, 12, none,
        some x.returned⟩ := by
  have hBacks := hEager.backs x (hConsistent.rlb x hMem)
  exact ⟨rangePpn_returned hBacks hContains hFits,
    (hBacks r.address hContains).1.symm⟩

/-
  After a hit in the range table, two contents of the range
  that was never written give two addresses.
-/
theorem not_alwaysRight_of_key
    (hConsistent : Consistent ok m ranges s)
    (hHit : tlbHit s r = false)
    (hRlb : ∀ x ∈ s.rlb.ranges, ¬ x.Contains r.address)
    (hKey : ¬ ∃ accesses, RangeTable.lookup s.rangeTable
      r.address.toNat = some (none, accesses)) :
    ¬ AlwaysRight m ranges s r := by
  intro hAlways
  have hAddress : ∀ offset : BitVec 64,
      ((rangePpn r.address
          (Range.returned ⟨0, 0, offset⟩)).toNat * 4096 +
        r.address.toNat % 12) % 2 ^ 64 =
      finalPhysicalAddress (m.ppn r.address)
        (m.pageSize r.address) r.address.toNat := by
    intro offset
    rcases hAlways ⟨0, 0, offset⟩ with
      ⟨outcome, s', hCall, hRight⟩
    rcases exists_resolve hCall with
      ⟨-, found, s₁, hResolve, hOutcome⟩
    rcases resolve_miss (r := { r with miss :=
      ⟨0, 0, offset⟩ }) hConsistent hHit with
      ⟨tlbs, hMiss, -⟩
    rw [hMiss] at hResolve
    have hVpn : (0 : BitVec 64) ≠ BitVec.allOnes 64 := by
      decide
    have hFound := resolveMiss_key
      (s := { s with tlbs := tlbs })
      (r := { r with miss := ⟨0, 0, offset⟩ })
      hRlb hKey hVpn hResolve
    rw [← hRight.address, hOutcome, hFound]
    rfl
  have hFirst := hAddress 0
  have hSecond := hAddress 1
  rw [← hSecond] at hFirst
  have hNext : (rangePpn r.address
      (Range.returned ⟨0, 0, 1⟩)).toNat =
        ((rangePpn r.address
          (Range.returned ⟨0, 0, 0⟩)).toNat + 1) % 2 ^ 64 := by
    have hZero : ((0 : BitVec 64).setWidth 32).signExtend 64 =
      0#64 := by decide
    have hOne : ((1 : BitVec 64).setWidth 32).signExtend 64 =
      1#64 := by decide
    simp only [rangePpn, Range.returned, hZero, hOne,
      BitVec.add_zero, BitVec.toNat_add]
    rfl
  rw [hNext] at hFirst
  omega

/- A translation that is always right has a source. -/
theorem source_of_alwaysRight
    (hEager : Eager m ranges)
    (hConsistent : Consistent ok m ranges s)
    (hAlways : AlwaysRight m ranges s r) :
    tlbHit s r = true ∨ RlbServes s.rlb r.address ∨
      OutsideRanges s r.address := by
  cases hHit : tlbHit s r with
  | true => exact Or.inl rfl
  | false =>
      by_cases hRlb : ∃ x ∈ s.rlb.ranges, x.Contains r.address
      · refine Or.inr (Or.inl ?_)
        rcases hAlways r.miss with
          ⟨outcome, s', hCall, hRight⟩
        rcases exists_resolve hCall with
          ⟨-, found, s₁, hResolve, hOutcome⟩
        rcases resolve_miss hConsistent hHit with
          ⟨tlbs, hMiss, hConsistent₀⟩
        rcases resolveMiss_rlb (r := r) hConsistent₀ hRlb with
          ⟨x, hMem, hContains, s₂, hRlbResolve, -⟩
        have hSame : found = ⟨(rangePpn r.address
            x.returned).toNat, 12, none, some x.returned⟩ := by
          have hBoth := hResolve.symm.trans
            (hMiss.trans hRlbResolve)
          rw [Option.some.injEq, Prod.mk.injEq] at hBoth
          exact hBoth.1
        have hWalk : WalkRight ranges s r.address x.returned := by
          apply hRight.walk
          rw [hOutcome, hSame]
          rfl
        exact ⟨x, hMem, hContains,
          (walkRight_rlb_iff hEager hConsistent hMem
            hContains).mp hWalk⟩
      · refine Or.inr (Or.inr ?_)
        have hNone : ∀ x ∈ s.rlb.ranges, ¬ x.Contains r.address :=
          fun x hMem hContains => hRlb ⟨x, hMem, hContains⟩
        by_contra hNot
        apply not_alwaysRight_of_key hConsistent hHit hNone _
          hAlways
        intro hKey
        exact hNot ⟨hNone, hKey⟩

/- The page of a request with a source. -/
theorem foundPage_of_source
    (hEager : Eager m ranges)
    (hConsistent : Consistent ok m ranges s)
    (hWalks : m.Walks r)
    (hSource : tlbHit s r = true ∨
      RlbServes s.rlb r.address ∨ OutsideRanges s r.address) :
    ∃ found s₁, resolve s r = some (found, s₁) ∧
      FoundPage m r.address found ∧
      (∀ w ∈ found.rangeWalk, WalkRight ranges s r.address w) ∧
      Consistent ok m ranges s₁ := by
  cases hHit : tlbHit s r with
  | true =>
      rcases resolve_hit hConsistent hHit with
        ⟨found, s₁, hResolve, hPage, hWalk, hConsistent₁⟩
      refine ⟨found, s₁, hResolve, hPage, ?_, hConsistent₁⟩
      intro w hMem
      rw [hWalk] at hMem
      cases hMem
  | false =>
      rcases resolve_miss hConsistent hHit with
        ⟨tlbs, hMiss, hConsistent₀⟩
      rcases hSource with hTrue | hRlb | hOutside
      · rw [hHit] at hTrue
        cases hTrue
      · rcases hRlb with ⟨y, hIn, hHas, hFits⟩
        rcases resolveMiss_rlb (r := r) hConsistent₀
          ⟨y, hIn, hHas⟩ with
          ⟨x, hMem, hContains, s₁, hResolve, hConsistent₁⟩
        -- the buffer holds one range of the address only
        have hSame : y = x := hEager.apart y
          (hConsistent.rlb y hIn) x (hConsistent.rlb x hMem)
          r.address hHas hContains
        rw [hSame] at hFits
        refine ⟨_, s₁, hMiss.trans hResolve,
          foundPage_rlb hEager hConsistent hMem hContains
            hFits, ?_, hConsistent₁⟩
        intro w hWalk
        rw [← Option.some.inj hWalk]
        exact (walkRight_rlb_iff hEager hConsistent hMem
          hContains).mpr hFits
      · rcases resolveMiss_walk (r := r) hConsistent₀ hWalks
          hOutside with
          ⟨found, s₁, hResolve, hPage, hWalk, hConsistent₁⟩
        refine ⟨found, s₁, hMiss.trans hResolve, hPage, ?_,
          hConsistent₁⟩
        intro w hMem
        rw [hWalk] at hMem
        rw [WalkRight, rangeFound_of_outside hOutside,
          ← Option.some.inj hMem]
        rfl

/- The outcome of a translation that meets the condition. -/
theorem right_of_served
    (hEager : Eager m ranges)
    (hConsistent : Consistent ok m ranges s)
    (hWalks : m.Walks r)
    (hServed : Served m s r) :
    ∃ outcome s', performAddressTranslation s r =
        some (outcome, s') ∧
      Right m ranges s r outcome ∧
      Consistent ok m ranges s' := by
  rcases foundPage_of_source hEager hConsistent hWalks
    hServed.source with
    ⟨found, s₁, hResolve, hPage, hWalk, hConsistent₁⟩
  rcases translation_of_resolve
    (findVMA_isSome_iff.mpr hServed.vma) hResolve hPage
    hConsistent₁ with ⟨s', hCall, hConsistent'⟩
  exact ⟨_, s', hCall,
    ⟨(physicalAddress_iff_of_found hPage).mpr hServed.start,
      hWalk⟩, hConsistent'⟩

/-
  A translation returns the address of the conventional MMU,
  and its range walk the range, exactly when the condition is
  met. It then leaves the state consistent.
-/
theorem right_iff_served
    (ok : Nat → σ → Prop)
    (m : Mapping)
    (ranges : List Range)
    (hEager : Eager m ranges)
    (s : State σ)
    (hConsistent : Consistent ok m ranges s)
    (r : Request)
    (hWalks : m.Walks r) :
    (AlwaysRight m ranges s r ↔ Served m s r) ∧
      (Served m s r → ∀ outcome s',
        performAddressTranslation s r = some (outcome, s') →
          Consistent ok m ranges s') := by
  refine ⟨⟨fun hAlways => ?_, fun hServed miss => ?_⟩,
    fun hServed outcome s' hCall => ?_⟩
  · rcases hAlways r.miss with ⟨outcome, s', hCall, hRight⟩
    rcases exists_resolve hCall with
      ⟨hVma, found, s₁, hResolve, hOutcome⟩
    have hSource :=
      source_of_alwaysRight hEager hConsistent hAlways
    refine ⟨findVMA_isSome_iff.mp hVma, ?_, hSource⟩
    rcases foundPage_of_source hEager hConsistent hWalks
      hSource with ⟨found₁, s₂, hResolve₁, hPage, -, -⟩
    have hSame : found₁ = found := by
      have hBoth := hResolve₁.symm.trans hResolve
      rw [Option.some.injEq, Prod.mk.injEq] at hBoth
      exact hBoth.1
    rw [hSame] at hPage
    have hAddress := hRight.address
    rw [hOutcome] at hAddress
    exact (physicalAddress_iff_of_found hPage).mp hAddress
  · rcases right_of_served (r := { r with miss := miss })
      hEager hConsistent hWalks
      ⟨hServed.vma, hServed.start, hServed.source⟩ with
      ⟨outcome, s', hCall, hRight, -⟩
    exact ⟨outcome, s', hCall, hRight.address, hRight.walk⟩
  · rcases right_of_served hEager hConsistent hWalks hServed
      with ⟨outcome₁, s₁, hCall₁, -, hConsistent₁⟩
    rw [hCall, Option.some.injEq, Prod.mk.injEq] at hCall₁
    rw [hCall₁.2]
    exact hConsistent₁

/- Every page has the frame of its own number. -/
def identity : Mapping where
  ppn := fun a => (a >>> 12).toNat
  pageSize := fun _ => 12
  uniform := fun _ _ hTag =>
    ⟨congrArg BitVec.toNat hTag, rfl⟩
  ppn_lt := fun a => (a >>> 12).isLt
  pageSize_pos := fun _ => by decide

/- The second and the third page of 12KB. -/
def smallRange : Range :=
  ⟨0x3000, 0x5000, 3⟩

theorem eager_smallRange :
    Eager identity [smallRange] := by
  refine ⟨?_, ?_⟩
  · intro x hMem a hContains
    rw [List.mem_singleton] at hMem
    subst hMem
    have hLe : (0x3000 : BitVec 64).toNat ≤ a.toNat :=
      hContains.1
    have hStart : (0x3000 : BitVec 64).toNat = 12288 := by
      decide
    have hOffset : (3 : BitVec 64).toNat = 3 := by decide
    refine ⟨rfl, ?_⟩
    simp only [identity, smallRange, hStart, hOffset,
      BitVec.toNat_ushiftRight, Nat.shiftRight_eq_div_pow]
    omega
  · intro x hX y hY a _ _
    rw [List.mem_singleton] at hX hY
    rw [hX, hY]

/- One TLB with two ways, as it is constructed. -/
def smallTlb : Tlb (List (List Nat)) where
  config := ⟨2, 2, [12], .unified, true, false, 0⟩
  policy := .lru
  sets := [[.empty, .empty]]
  replacement := Replacement.lruInit 1 2
  queue := []
  regionRefcount := fun _ => 0

theorem smallTlb_construct :
    Tlb.construct smallTlb.config .lru
      (Replacement.lruInit 1 2) = some smallTlb := by
  rfl

/- The state with an RLB of one range, and an empty table. -/
def smallState : State (List (List Nat)) where
  prefetchEnabled := false
  vmas := [(0x3000, 0x5000)]
  tlbs := [[smallTlb]]
  rlb := ⟨4, [smallRange], 0⟩
  rangeTable := RangeTable.construct 0

theorem consistent_smallState :
    Consistent Replacement.LruReady identity [smallRange]
      smallState := by
  refine ⟨?_, fun x hMem => hMem⟩
  intro i j t hAt
  have hSame : t = smallTlb := by
    rcases Option.bind_eq_some_iff.mp hAt with
      ⟨tlbs, hLevel, hIndex⟩
    have hTlbs := List.mem_of_getElem? hLevel
    rw [smallState, List.mem_singleton] at hTlbs
    have hTlb := List.mem_of_getElem? hIndex
    rw [hTlbs, List.mem_singleton] at hTlb
    exact hTlb
  rw [hSame]
  exact Tlb.contents_construct smallTlb_construct
    Replacement.lru_selects (Replacement.lruInit_ready 1 2) _

/- A request whose first walk faults. -/
def smallRequest (address : BitVec 64) : Request where
  address := address
  instruction := false
  now := 0
  miss := ⟨0, 0, 0⟩
  draws := []
  walks := [.pageFault (RangeTable.construct 0),
    .mapped (address >>> 12).toNat 12]

theorem walks_smallRequest
    (address : BitVec 64) :
    identity.Walks (smallRequest address) := rfl

/- An address at the start of a page in the RLB. -/
theorem alwaysRight_start :
    AlwaysRight identity [smallRange] smallState
      (smallRequest 0x3005) := by
  refine (right_iff_served Replacement.LruReady identity
    [smallRange] eager_smallRange smallState
    consistent_smallState (smallRequest 0x3005)
    (walks_smallRequest _)).1.mpr ⟨?_, ?_, Or.inr (Or.inl ?_)⟩
  · exact ⟨(0x3000, 0x5000), List.mem_singleton_self _, by decide⟩
  · exact ⟨by decide, by decide⟩
  · exact ⟨smallRange, List.mem_singleton_self _, by decide,
      by decide⟩

/- The address 100 bytes behind the start of the page. -/
theorem not_alwaysRight_offset :
    Eager identity [smallRange] ∧
      Consistent Replacement.LruReady identity [smallRange]
        smallState ∧
      identity.Walks (smallRequest 0x3064) ∧
      ¬ AlwaysRight identity [smallRange] smallState
        (smallRequest 0x3064) := by
  refine ⟨eager_smallRange, consistent_smallState,
    walks_smallRequest _, ?_⟩
  intro hAlways
  rcases hAlways ⟨0, 0, 0⟩ with ⟨outcome, s', hCall, hRight⟩
  have hReturned : (performAddressTranslation smallState
      (smallRequest 0x3064)).map (fun p =>
        p.1.physicalAddress) = some 12292 := by
    decide +kernel
  have hSame : performAddressTranslation smallState
      (smallRequest 0x3064) = some (outcome, s') := hCall
  rw [hSame, Option.map_some, Option.some.injEq,
    hRight.address] at hReturned
  revert hReturned
  decide

end RangeMmu

end Virtuoso
