import Mathlib.Data.List.TakeWhile
import Virtuoso.Lib.XorFold
import Virtuoso.Utopia.Coalesce.Walk
import Virtuoso.Utopia.Layout

/-
  Which frames the 2MB translation of a coalesced region
  addresses.

  The pages of a region fall into a block of 512 sets, in an
  order that the low bits of the mixed tag permute, and the
  ways of a set are neighbouring frames. So the frames of the
  region are in line only with one way and low bits of zero.
  The walk reports the frame of the page of its address, for
  which a 2MB translation adds the offset of the page twice,
  or a frame of the 2MB segment, and the constructor places
  the segments apart. So the walk never agrees.

  Main declarations:
    * `Utopia.Geometry.setOf_region`
    * `Utopia.HashCoalesce.addressing_iff`
-/

------------------------------------------------------------
-- Regions And Their Frames
------------------------------------------------------------

namespace Virtuoso

namespace Utopia

namespace Geometry

variable {g : Geometry} {r i : Nat}

/-
  The sets of the pages of a region are one block of 512, in
  an order that is mixed by the low bits of the first one.
-/
theorem setOf_region
    (hPower : g.numSets.isPowerOfTwo)
    (hSets : 512 ≤ g.numSets)
    (hPage : i < 512) :
    g.setOf (512 * r + i) =
      512 * (g.setOf (512 * r) / 512) +
        (i ^^^ g.setOf (512 * r) % 512) := by
  rcases hPower with ⟨k, hEq⟩
  have hBits : 9 ≤ k := by
    rw [hEq] at hSets
    exact (Nat.pow_le_pow_iff_right (by decide : 1 < 2)).mp
      (show 2 ^ 9 ≤ 2 ^ k from hSets)
  have hSplit : g.numSets = 512 * 2 ^ (k - 9) := by
    rw [hEq, show (512 : Nat) = 2 ^ 9 from rfl, ← pow_add,
      Nat.add_sub_cancel' hBits]
  have hDiv : ∀ j < 512,
      (512 * r + j) / g.numSets = r / 2 ^ (k - 9) := by
    intro j hLess
    rw [hSplit, ← Nat.div_div_eq_div_mul,
      Nat.mul_add_div (by decide), Nat.div_eq_of_lt hLess,
      Nat.add_zero]
  have hMod : ∀ j < 512, (512 * r + j) % g.numSets =
      2 ^ 9 * (r % 2 ^ (k - 9)) + j := by
    intro j hLess
    rw [hSplit, Nat.mod_mul, Nat.mul_add_mod,
      Nat.mod_eq_of_lt hLess, Nat.mul_add_div (by decide),
      Nat.div_eq_of_lt hLess, Nat.add_zero]
    omega
  have hSet : ∀ j < 512, g.setOf (512 * r + j) =
      (2 ^ 9 * (r % 2 ^ (k - 9)) + j) ^^^
        (r / 2 ^ (k - 9) % 2 ^ 32 % g.numSets) := by
    intro j hLess
    have hFold := fold_lt_of_isPowerOfTwo ⟨k, hEq⟩ (512 * r + j)
    unfold setOf
    rw [Nat.mod_eq_of_lt hFold]
    unfold fold tagOf
    rw [hMod j hLess, hDiv j hLess]
  have hFirst := hSet 0 (by decide)
  rw [Nat.add_zero, Nat.add_zero] at hFirst
  rw [hSet i hPage, hFirst]
  exact XorFold.xor_offset hPage _

/- The pages of a region are in different sets. -/
theorem eq_of_setOf_region
    {j : Nat}
    (hPower : g.numSets.isPowerOfTwo)
    (hSets : 512 ≤ g.numSets)
    (hPage : i < 512)
    (hPage' : j < 512)
    (hEq : g.setOf (512 * r + i) = g.setOf (512 * r + j)) :
    i = j := by
  rw [setOf_region hPower hSets hPage,
    setOf_region hPower hSets hPage'] at hEq
  exact Nat.xor_left_inj.mp (Nat.add_left_cancel hEq)

/- The number of a set and a way, counted from the first. -/
theorem set_eq_of_slot_eq
    {n s s' w w' : Nat}
    (hWay : w < n)
    (hWay' : w' < n)
    (hEq : s * n + w = s' * n + w') :
    s = s' := by
  have hPos : 0 < n := by omega
  have hDiv := congrArg (fun slot => slot / n) hEq
  simpa [Nat.mul_comm _ n, Nat.mul_add_div hPos,
    Nat.div_eq_of_lt hWay, Nat.div_eq_of_lt hWay'] using hDiv

/-
  The slots of a block of 512 sets, one in each set and in
  line with an order of the sets that a mixing number gives,
  exist only with one way and no mixing.
-/
theorem inLine_of_slots
    {n l : Nat}
    {way : Nat → Nat}
    (hWay : ∀ i < 512, way i < n)
    (hLow : l < 512)
    (hSlot : ∀ i < 512, (i ^^^ l) * n + way i = l * n + way 0 + i) :
    n = 1 ∧ l = 0 := by
  have hDiffer : ∀ i j, i ≠ j → i ^^^ l ≠ j ^^^ l := by
    intro i j hNe hEq
    exact hNe (Nat.xor_left_injective hEq)
  have hOne : n = 1 := by
    by_contra hMany
    have hFirst := hWay 0 (by decide)
    have hSecond := hWay 1 (by decide)
    have hThird := hWay 2 (by decide)
    have hSlot₁ := hSlot 1 (by decide)
    have hSlot₂ := hSlot 2 (by decide)
    have hNe₁ : 1 ^^^ l ≠ l := by
      have hNe := hDiffer 1 0 (by decide)
      rwa [Nat.zero_xor] at hNe
    -- the second slot leaves the first set, so it begins the
    -- next one, where the third slot would be as well
    by_cases hInside : way 0 + 1 < n
    · exact hNe₁ (set_eq_of_slot_eq hSecond hInside
        (by rw [hSlot₁, Nat.add_assoc]))
    · have hNext₁ : 1 ^^^ l = l + 1 :=
        set_eq_of_slot_eq hSecond (by omega : 0 < n)
          (by rw [hSlot₁, Nat.succ_mul]; omega)
      have hNext₂ : 2 ^^^ l = l + 1 :=
        set_eq_of_slot_eq hThird (by omega : 1 < n)
          (by rw [hSlot₂, Nat.succ_mul]; omega)
      exact hDiffer 1 2 (by decide) (hNext₁.trans hNext₂.symm)
  refine ⟨hOne, ?_⟩
  subst hOne
  have hLast := hSlot 511 (by decide)
  have hFirst := hWay 0 (by decide)
  have hEnd := hWay 511 (by decide)
  have hLess : 511 ^^^ l < 2 ^ 9 :=
    Nat.xor_lt_two_pow (by decide) hLow
  omega

end Geometry

/- Two addresses of one 2MB region. -/
def SameRegion (address x : Nat) : Prop :=
  x / 2 ^ 21 = address / 2 ^ 21

instance
    (address x : Nat) :
    Decidable (SameRegion address x) :=
  inferInstanceAs (Decidable (_ = _))

namespace RestSegCoalesce

variable {c : RestSegCoalesce} {address app way x i : Nat}

/- A page of a region is its first page and an offset. -/
theorem vpn_of_sameRegion
    (hPage : c.geometry.pageSizeBits = 12)
    (hRegion : SameRegion address x) :
    c.geometry.vpn x =
      512 * (address / 2 ^ 21) + x / 2 ^ 12 % 512 := by
  unfold SameRegion at hRegion
  unfold Geometry.vpn
  rw [hPage]
  omega

theorem pageAt_alignedAddress
    (hPage : c.geometry.pageSizeBits = 12)
    (i : Nat) :
    c.pageAt (alignedAddress address) i =
      512 * (address / 2 ^ 21) + i := by
  unfold pageAt Geometry.vpn alignedAddress
  rw [hPage]
  omega

/- The address of a page of a region. -/
theorem sameRegion_page
    (address : Nat)
    (hPage : i < 512) :
    SameRegion address (alignedAddress address + i * 4096) ∧
      (alignedAddress address + i * 4096) / 2 ^ 12 % 512 = i ∧
      (alignedAddress address + i * 4096) % 2 ^ 21 = i * 4096 := by
  unfold SameRegion alignedAddress
  omega

/- A page is found after its insertion at a free way. -/
theorem exists_holds_insertedAt
    {page : Nat}
    (hWay : way < (c.sets (c.geometry.setOf page)).associativity)
    (hFree :
      ((c.sets (c.geometry.setOf page)).entries way).valid =
        false) :
    ∃ w, (c.insertedAt page app way).2.Holds w
      (c.geometry.tagOf page) (app + 1) := by
  unfold insertedAt RestSegSet.tryInsertAtWay
  cases hFind : (c.sets (c.geometry.setOf page)).findEntry
      (c.geometry.tagOf page) (app + 1) with
  | some w =>
      exact ⟨w, ((RestSegSet.same_refresh _ w).holds _ _ _).mpr
        (RestSegSet.holds_of_findEntry hFind)⟩
  | none =>
      simp only
      rw [if_pos (RestSegSet.isWayFree_iff.mpr ⟨hWay, hFree⟩)]
      refine ⟨way, ?_⟩
      rw [(RestSegSet.filled_fill hWay _ _ _).holds, if_pos rfl]
      exact ⟨rfl, rfl⟩

theorem spreadOver_region
    (hPage : c.geometry.pageSizeBits = 12)
    (hPower : c.geometry.numSets.isPowerOfTwo)
    (hSets : 512 ≤ c.geometry.numSets)
    (address : Nat) :
    c.SpreadOver (alignedAddress address) (List.range 512) := by
  intro i hMem j hMem' hEq
  rw [pageAt_alignedAddress hPage,
    pageAt_alignedAddress hPage] at hEq
  exact Geometry.eq_of_setOf_region hPower hSets
    (List.mem_range.mp hMem) (List.mem_range.mp hMem') hEq

/- The pages that a loop inserts into free ways are found. -/
theorem exists_holds_insertPages
    {aligned : Nat}
    {pages : List Nat}
    (hNodup : pages.Nodup)
    (hSpread : c.SpreadOver aligned pages)
    (hMem : i ∈ pages)
    (hWay : way < (c.sets (c.geometry.setOf
      (c.pageAt aligned i))).associativity)
    (hFree : ((c.sets (c.geometry.setOf
      (c.pageAt aligned i))).entries way).valid = false) :
    ∃ w, ((c.insertPages aligned app way pages).sets
        (c.geometry.setOf (c.pageAt aligned i))).Holds w
      (c.geometry.tagOf (c.pageAt aligned i)) (app + 1) := by
  rw [(sets_insertPages hNodup hSpread).1 i hMem]
  exact exists_holds_insertedAt hWay hFree

theorem sets_coalesceRegion
    (c : RestSegCoalesce)
    (aligned app way : Nat) :
    (c.coalesceRegion aligned app way).sets =
      (c.insertPages aligned app way (List.range 512)).sets :=
  sets_setCoalesced2MBWay _ _ _ _

/-
  Where the pages of a region are in different sets, they are
  all found after the region has been coalesced.
-/
theorem exists_holds_coalesceRegion
    (hSynced : c.Synced)
    (hSpread : c.SpreadOver (alignedAddress address)
      (List.range 512))
    (hFind : c.findCommonFreeWay
      (alignedAddress address / 2 ^ 12) = some way)
    (hPage : i < 512)
    (app : Nat) :
    ∃ w, ((c.coalesceRegion (alignedAddress address) app
        way).sets (c.geometry.setOf
          (c.pageAt (alignedAddress address) i))).Holds w
      (c.geometry.tagOf (c.pageAt (alignedAddress address) i))
      (app + 1) := by
  rcases hSynced.free_of_findCommonFreeWay hFind hPage with
    ⟨hWay, hFree⟩
  rw [← hSynced.associativity] at hWay
  rw [sets_coalesceRegion]
  exact exists_holds_insertPages List.nodup_range hSpread
    (List.mem_range.mpr hPage) hWay hFree

/- The frame of a way for a page of a region. -/
theorem calculatePPNFromWay_region
    (hSize : c.geometry.pageSizeBits = 12)
    (hPower : c.geometry.numSets.isPowerOfTwo)
    (hSets : 512 ≤ c.geometry.numSets)
    (hRegion : SameRegion address x)
    (way : Nat) :
    c.geometry.calculatePPNFromWay x way =
      (c.geometry.basePhysicalAddress +
        (512 * (c.geometry.setOf (512 * (address / 2 ^ 21)) / 512) *
            c.geometry.associativity +
          ((x / 2 ^ 12 % 512 ^^^ c.geometry.setOf
              (512 * (address / 2 ^ 21)) % 512) *
            c.geometry.associativity + way)) % 2 ^ 32) %
        2 ^ 64 := by
  have hPage := vpn_of_sameRegion hSize hRegion
  have hIndex : x / 2 ^ 12 % 512 < 512 :=
    Nat.mod_lt _ (by decide)
  unfold Geometry.calculatePPNFromWay Geometry.splitAddress
  simp only
  rw [hPage, Geometry.setOf_region hPower hSets hIndex, hSize,
    Nat.sub_self, pow_zero, Nat.mul_one, Nat.add_mul,
    Nat.add_assoc]

/- The frame of a way for the page at an index. -/
theorem calculatePPNFromWay_page
    (hSize : c.geometry.pageSizeBits = 12)
    (hPower : c.geometry.numSets.isPowerOfTwo)
    (hSets : 512 ≤ c.geometry.numSets)
    (hPage : i < 512)
    (way : Nat) :
    c.geometry.calculatePPNFromWay
        (alignedAddress address + i * 4096) way =
      (c.geometry.basePhysicalAddress +
        (512 * (c.geometry.setOf (512 * (address / 2 ^ 21)) / 512) *
            c.geometry.associativity +
          ((i ^^^ c.geometry.setOf
              (512 * (address / 2 ^ 21)) % 512) *
            c.geometry.associativity + way)) % 2 ^ 32) %
        2 ^ 64 := by
  rcases sameRegion_page address hPage with
    ⟨hRegion, hIndex, _⟩
  rw [calculatePPNFromWay_region hSize hPower hSets hRegion,
    hIndex]

/-
  Two slots of one block whose frames differ by an offset
  differ by this offset themselves.
-/
theorem slot_of_frame
    {base ppn block u v i : Nat}
    (hFirst : (base + (block + v) % 2 ^ 32) % 2 ^ 64 =
      (ppn + 0) % 2 ^ 64)
    (hSecond : (base + (block + u) % 2 ^ 32) % 2 ^ 64 =
      (ppn + i) % 2 ^ 64)
    (hLess : u < 2 ^ 16)
    (hLess' : v + i < 2 ^ 16) :
    u = v + i := by
  omega

/- The slot of a way in a set of a block is a small number. -/
theorem slot_lt
    {n s w : Nat}
    (hWays : n ≤ 64)
    (hSet : s < 512)
    (hWay : w < n) :
    s * n + w < 2 ^ 15 := by
  have hMul : s * n ≤ 511 * 64 :=
    Nat.mul_le_mul (Nat.le_of_lt_succ hSet) hWays
  omega

/-
  The pages of a region have frames in line exactly with one
  way, low bits of zero and all pages in the tags.
-/
theorem inLine_iff
    (hSize : c.geometry.pageSizeBits = 12)
    (hPower : c.geometry.numSets.isPowerOfTwo)
    (hSets : 512 ≤ c.geometry.numSets)
    (hWays : c.geometry.associativity ≤ 64)
    (hShape : ∀ i,
      (c.sets i).associativity = c.geometry.associativity)
    (address app : Nat) :
    (∃ ppn,
      c.calculatePhysicalAddress (alignedAddress address)
          app = some ppn ∧
        ∀ x, SameRegion address x →
          c.calculatePhysicalAddress x app =
            some ((ppn + x / 2 ^ 12 % 512) % 2 ^ 64)) ↔
      c.geometry.associativity = 1 ∧
        c.geometry.setOf (512 * (address / 2 ^ 21)) % 512 = 0 ∧
        ∀ x, SameRegion address x →
          (c.lookupWay x app).isSome = true := by
  have hInside : ∀ x w, c.lookupWay x app = some w →
      w < c.geometry.associativity := by
    intro x w hFind
    have hLess := (RestSegSet.holds_of_findEntry hFind).1
    rwa [hShape] at hLess
  have hFrame := fun x (hRegion : SameRegion address x) =>
    calculatePPNFromWay_region hSize hPower hSets hRegion
  have hLow : c.geometry.setOf (512 * (address / 2 ^ 21)) %
      512 < 512 :=
    Nat.mod_lt _ (by decide)
  generalize c.geometry.setOf (512 * (address / 2 ^ 21)) =
    first at hFrame hLow ⊢
  constructor
  · rintro ⟨ppn, _, hLine⟩
    have hFound : ∀ i < 512, ∃ w,
        c.lookupWay (alignedAddress address + i * 4096) app =
            some w ∧
          c.geometry.calculatePPNFromWay
              (alignedAddress address + i * 4096) w =
            (ppn + i) % 2 ^ 64 := by
      intro i hPage
      rcases sameRegion_page address hPage with
        ⟨hRegion, hIndex, _⟩
      have hAt := hLine _ hRegion
      rw [hIndex] at hAt
      exact Option.map_eq_some_iff.mp hAt
    choose! way hFind hPpn using hFound
    have hLess : ∀ i < 512, way i < c.geometry.associativity :=
      fun i hPage => hInside _ _ (hFind i hPage)
    have hSlot : ∀ i < 512,
        (i ^^^ first % 512) * c.geometry.associativity + way i =
          first % 512 * c.geometry.associativity + way 0 + i :=
      by
      have hAt : ∀ i < 512,
          (c.geometry.basePhysicalAddress +
              (512 * (first / 512) * c.geometry.associativity +
                ((i ^^^ first % 512) *
                  c.geometry.associativity + way i)) %
                2 ^ 32) % 2 ^ 64 = (ppn + i) % 2 ^ 64 := by
        intro i hPage
        rcases sameRegion_page address hPage with
          ⟨hRegion, hIndex, _⟩
        have hEq := hFrame _ hRegion (way i)
        rw [hIndex, hPpn i hPage] at hEq
        exact hEq.symm
      intro i hPage
      have hZero := hAt 0 (by decide)
      rw [Nat.zero_xor] at hZero
      have hSet : i ^^^ first % 512 < 2 ^ 9 :=
        Nat.xor_lt_two_pow hPage hLow
      have hSmall := slot_lt hWays hSet (hLess i hPage)
      have hSmall' := slot_lt hWays hLow (hLess 0 (by decide))
      exact slot_of_frame hZero (hAt i hPage) (by omega) (by omega)
    rcases Geometry.inLine_of_slots hLess hLow hSlot with
      ⟨hOne, hZero⟩
    refine ⟨hOne, hZero, ?_⟩
    intro x hRegion
    rcases Option.map_eq_some_iff.mp (hLine x hRegion) with
      ⟨w, hEq, _⟩
    rw [hEq]
    rfl
  · rintro ⟨hOne, hZero, hAll⟩
    have hWay : ∀ x, SameRegion address x →
        c.calculatePhysicalAddress x app =
          some (c.geometry.calculatePPNFromWay x 0) := by
      intro x hRegion
      rcases Option.isSome_iff_exists.mp (hAll x hRegion) with
        ⟨w, hFind⟩
      have hLess := hInside x w hFind
      have hNull : w = 0 := by omega
      unfold RestSeg.calculatePhysicalAddress
      rw [hFind, hNull]
      rfl
    rcases sameRegion_page address (by decide : 0 < 512) with
      ⟨hRegion, hIndex, _⟩
    rw [Nat.zero_mul, Nat.add_zero] at hRegion hIndex
    refine ⟨_, hWay _ hRegion, ?_⟩
    intro x hSame
    have hPage : x / 2 ^ 12 % 512 < 512 :=
      Nat.mod_lt _ (by decide)
    rw [hWay x hSame, hFrame _ hRegion, hFrame _ hSame, hIndex,
      hOne, hZero, Nat.xor_zero, Nat.xor_zero]
    generalize x / 2 ^ 12 % 512 = i at hPage
    rw [Option.some.injEq]
    omega

/- The region of an address is coalesced already. -/
def isCoalesced
    (c : RestSegCoalesce)
    (address app : Nat) : Bool :=
  (c.lookupCoalesced2MBWay (alignedAddress address / 2 ^ 12)
    app).1.isSome

theorem isCoalesced_eq
    (c : RestSegCoalesce)
    (address app : Nat) :
    c.isCoalesced address app =
      (c.radixWayTables2mb.way app (address / 2 ^ 21)).isSome := by
  unfold isCoalesced lookupCoalesced2MBWay
  rw [region_alignedAddress]
  rfl

/-
  After a request that its region serves, the table has a way
  for the region, and the pages of a region that the request
  itself coalesced are all in the tags.
-/
theorem coalesce_spec
    (hReached : c.Reached .fourKb)
    (hPower : c.geometry.numSets.isPowerOfTwo)
    (hSets : 512 ≤ c.geometry.numSets)
    (hWays : c.geometry.associativity ≤ 64)
    (hServed : (c.coalesce address app).1 = true) :
    (∃ way,
      (c.coalesce address app).2.radixWayTables2mb.way app
        (address / 2 ^ 21) = some way) ∧
    ((∀ x, SameRegion address x →
        ((c.coalesce address app).2.lookupWay x app).isSome =
          true) ↔
      (c.isCoalesced address app = true →
        ∀ x, SameRegion address x →
          (c.lookupWay x app).isSome = true)) := by
  have hCoalesces := coalesces_coalesce c address app
  rw [isCoalesced_eq]
  generalize c.coalesce address app = result at hCoalesces hServed ⊢
  cases hCoalesces with
  | @found way hWay =>
      refine ⟨⟨way, ?_⟩, ?_⟩
      · rw [(sameWays_lookupCoalesced2MBWay c _ app).tables]
        exact hWay
      · rw [hWay]
        exact ⟨fun hAll _ => hAll, fun hAll => hAll rfl⟩
  | refused _ _ => exact absurd hServed (by simp)
  | @coalesced way hNone hFind =>
      have hTable : (c.lookupCoalesced2MBWay
          (alignedAddress address / 2 ^ 12)
            app).2.radixWayTables2mb.Sound :=
        (hReached.tables hWays).lookupWay
          (alignedAddress address / 2 ^ 12 / 2 ^ 9) app
      have hSynced : (c.lookupCoalesced2MBWay
          (alignedAddress address / 2 ^ 12) app).2.Synced :=
        (hReached.synced hWays).of_tables _
      have hFree := findCommonFreeWay_lookup c
        (alignedAddress address / 2 ^ 12) app
        (alignedAddress address / 2 ^ 12)
      have hGeometry : (c.lookupCoalesced2MBWay
          (alignedAddress address / 2 ^ 12) app).2.geometry =
            c.geometry := rfl
      generalize (c.lookupCoalesced2MBWay
        (alignedAddress address / 2 ^ 12) app).2 = looked
        at hTable hSynced hFree hGeometry ⊢
      refine ⟨⟨way % 2 ^ wayBitsOf
        looked.radixWayTables2mb.associativity, ?_⟩, ?_⟩
      · rw [tables_coalesceRegion]
        exact RadixWayTableManager.way_setMapping_self hTable
          _ app way
      · rw [hNone]
        refine ⟨fun _ hSome => by simp at hSome, ?_⟩
        intro _ x hRegion
        simp only
        have hSize : looked.geometry.pageSizeBits = 12 :=
          hGeometry ▸ hReached.pageSize
        have hPage : x / 2 ^ 12 % 512 < 512 :=
          Nat.mod_lt _ (by decide)
        have hSpread := spreadOver_region hSize
          (hGeometry ▸ hPower) (hGeometry ▸ hSets) address
        rcases exists_holds_coalesceRegion hSynced hSpread
            (hFree.trans hFind) hPage app with
          ⟨w, hHolds⟩
        rw [RestSeg.lookupWay_isSome_iff]
        refine ⟨w, ?_⟩
        unfold RestSeg.Resident
        rw [geometry_coalesceRegion,
          vpn_of_sameRegion hSize hRegion,
          ← pageAt_alignedAddress hSize]
        exact hHolds

/- A segment of 2MB pages answers alike in a region. -/
theorem dualRadix_twoMb
    (hSize : c.geometry.pageSizeBits = 21)
    (hRegion : SameRegion address x) :
    c.dualRadix x app = c.dualRadix address app := by
  have hPage : c.geometry.vpn x = c.geometry.vpn address := by
    unfold Geometry.vpn
    rw [hSize]
    exact hRegion
  unfold dualRadix Geometry.calculatePPNFromWay
    Geometry.splitAddress
  rw [hPage, show x / 2 ^ 21 = address / 2 ^ 21 from hRegion]

/-
  What a segment of 2MB pages has: no region is coalesced in
  it, and its table names its own ways only.
-/
structure Plain (c : RestSegCoalesce) : Prop where
  synced : c.Synced
  regions : ∀ app region, c.radixWayTables2mb.way app region = none
  sound : c.radixWayTables.Sound
  below : c.radixWayTables.Below c.geometry.associativity

theorem Plain.ofRestSeg
    {g : Geometry}
    (hWays : g.associativity ≤ 64)
    (hBits : 12 ≤ g.pageSizeBits)
    (hSets : 0 < g.numSets) :
    (ofRestSeg (RestSeg.fresh g)).Plain :=
  ⟨synced_ofRestSeg hWays hSets, fun _ _ => rfl,
    RadixWayTableManager.sound_construct hBits
      (reaches_of_le hWays),
    fun _ _ _ hWay => by cases hWay⟩

theorem Plain.allocate
    (hPlain : c.Plain)
    (address app : Nat)
    (forceEvict : Bool) :
    (c.allocate address app forceEvict).2.Plain := by
  have hSynced := hPlain.synced.allocate address app forceEvict
  have hTables := tables_allocate c address app forceEvict
  have hGeometry := geometry_allocate c address app forceEvict
  have hAllocates := allocates_allocate c address app forceEvict
  generalize c.allocate address app forceEvict = result
    at hSynced hTables hGeometry hAllocates ⊢
  have hRegions : ∀ app' region,
      result.2.radixWayTables2mb.way app' region = none := by
    rw [hTables]
    exact hPlain.regions
  have hInside : ∀ way, way < (c.sets (c.geometry.setOf
      (c.geometry.vpn address))).associativity →
        way < c.geometry.associativity := by
    intro way hLess
    rwa [hPlain.synced.associativity] at hLess
  cases hAllocates with
  | same _ _ _ hRadix _ =>
      refine ⟨hSynced, hRegions, ?_, ?_⟩
      · rw [hRadix]
        exact hPlain.sound
      · rw [hRadix, hGeometry]
        exact hPlain.below
  | free _ _ hFilled _ hRadix _ =>
      refine ⟨hSynced, hRegions, ?_, ?_⟩
      · rw [hRadix]
        exact hPlain.sound.setMapping _ _ _
      · rw [hRadix, hGeometry]
        exact hPlain.below.setMapping hPlain.sound
          (hInside _ hFilled.inside) _ _
  | evict _ _ _ _ _ hFilled _ hRadix _ =>
      have hCleared := hPlain.sound.clearMapping
      refine ⟨hSynced, hRegions, ?_, ?_⟩
      · rw [hRadix]
        exact (hCleared _ _).setMapping _ _ _
      · rw [hRadix, hGeometry]
        exact (hPlain.below.clearMapping hPlain.sound _
          _).setMapping (hCleared _ _)
            (hInside _ hFilled.inside) _ _

theorem Plain.inRestSeg
    (hPlain : c.Plain)
    (address app : Nat) :
    (c.inRestSeg address app).2.Plain := by
  have hSynced := hPlain.synced.inRestSeg address app
  have hRadix : (c.inRestSeg address app).2.radixWayTables =
      c.radixWayTables := by
    unfold RestSegCoalesce.inRestSeg RestSeg.inRestSeg
    simp only
    split
    · rfl
    · rfl
  refine ⟨hSynced, hPlain.regions, ?_, ?_⟩
  · rw [hRadix]
    exact hPlain.sound
  · rw [hRadix, geometry_inRestSeg]
    exact hPlain.below

/- It answers with the frame of a way that it has. -/
theorem Plain.dualRadix
    (hPlain : c.Plain)
    {hit : Nat × Nat}
    (hHit : c.dualRadix address app = some hit) :
    ∃ way < c.geometry.associativity,
      hit.2 = c.geometry.calculatePPNFromWay address way := by
  unfold RestSegCoalesce.dualRadix at hHit
  rw [hPlain.regions] at hHit
  rcases Option.map_eq_some_iff.mp hHit with
    ⟨way, hWay, hEq⟩
  exact ⟨way, hPlain.below _ _ way hWay, by rw [← hEq]⟩

/- The frames of a segment are behind its base. -/
theorem frame_bounds
    {ppn : Nat}
    (hSynced : c.Synced)
    (hBelow : c.geometry.Below ppn)
    (hLess : ppn ≤ 2 ^ 52)
    (hWay : way < c.geometry.associativity)
    (x : Nat) :
    c.geometry.basePhysicalAddress ≤
        c.geometry.calculatePPNFromWay x way ∧
      c.geometry.calculatePPNFromWay x way < ppn := by
  have hSet := hSynced.setOf_lt (c.geometry.vpn x)
  have hSlot : c.geometry.setOf (c.geometry.vpn x) *
        c.geometry.associativity + way <
      c.geometry.numSets * c.geometry.associativity := by
    have hNext := Nat.mul_le_mul_right
      c.geometry.associativity (Nat.succ_le_of_lt hSet)
    rw [Nat.succ_mul] at hNext
    omega
  have hFrame := hBelow _ hSlot
  unfold Geometry.calculatePPNFromWay Geometry.splitAddress
  simp only
  generalize (c.geometry.setOf (c.geometry.vpn x) *
    c.geometry.associativity + way) *
      2 ^ (c.geometry.pageSizeBits - 12) = offset at hFrame ⊢
  have hWrap := Nat.mod_le offset (2 ^ 32)
  rw [Nat.mod_eq_of_lt (by omega)]
  omega

end RestSegCoalesce

------------------------------------------------------------
-- The Addresses Of A Region
------------------------------------------------------------

namespace HashCoalesce

open RestSegCoalesce

variable {a a' a₀ : HashCoalesce} {address app core : Nat}

/- The address that a 2MB translation to a frame forms. -/
def hugeAddress (ppn va : Nat) : Nat :=
  (ppn * 4096 + va % 2 ^ 21) % 2 ^ 64

/-
  The frames that the page number of a region addresses are
  those of its pages.
-/
def AddressesFrames
    (a : HashCoalesce)
    (ppn : Option Nat)
    (address app : Nat) : Prop :=
  ∃ base, ppn = some base ∧
    ∀ x, SameRegion address x →
      a.restSegPpn .fourKb x app =
        some ((base + x / 2 ^ 12 % 512) % 2 ^ 64)

/-
  The walk reports 2MB pages for all addresses of a region,
  and the addresses that it forms are those that the page
  number forms.
-/
def WalkAgrees
    (a : HashCoalesce)
    (firstRestSeg : Option Nat)
    (ppn : Option Nat)
    (address app : Nat) : Prop :=
  ∃ base, ppn = some base ∧
    ∀ va, SameRegion address va →
      ∃ q, (a.restSegWalk firstRestSeg va app).1 = some (21, q) ∧
        hugeAddress q va = hugeAddress base va

variable {c : RestSegCoalesce}

/- A 4KB request is served if its segment serves it. -/
theorem tryCoalesce_of_coalesce
    (hSeg : a.restSegs .fourKb = some c)
    (hTaken : (c.coalesce address core).1 = true) :
    (a.tryCoalesce 4096 address core).1 = true := by
  unfold tryCoalesce
  rw [if_pos rfl, hSeg]
  simp only
  generalize c.coalesce address core = result at hTaken ⊢
  rcases result with ⟨taken, next⟩
  cases taken with
  | true => rfl
  | false => simp at hTaken

/- A request that its region serves. -/
theorem served_request
    {bytes : Nat}
    {ppn : Option Nat}
    {size : PageSize}
    (hSeg : a.restSegs .fourKb = some c)
    (hServed : (a.tryCoalesce bytes address core).1 = true)
    (hAllocate : a.allocate bytes address core false =
      some ((ppn, size), a')) :
    (c.coalesce address core).1 = true ∧
      a'.restSegs = Function.update a.restSegs .fourKb
        (some (c.coalesce address core).2) ∧
      a'.order = a.order ∧
      ppn = (c.coalesce address
        core).2.calculatePhysicalAddress
          (alignedAddress address) core := by
  unfold allocate at hAllocate
  simp only [Bool.false_eq_true, if_false] at hAllocate
  have hTry : a.tryCoalesce bytes address core =
      (true, (a.setRestSeg .fourKb
        (c.coalesce address core).2).resetLast true) ∧
      (c.coalesce address core).1 = true := by
    unfold tryCoalesce at hServed ⊢
    rw [hSeg] at hServed ⊢
    simp only at hServed ⊢
    split_ifs at hServed ⊢ with hBytes
    generalize c.coalesce address core = result at hServed ⊢
    rcases result with ⟨taken, next⟩
    cases taken with
    | true => exact ⟨rfl, rfl⟩
    | false => simp at hServed
  rw [hTry.1] at hAllocate
  simp only [Option.some.injEq, Prod.mk.injEq] at hAllocate
  rcases hAllocate with ⟨⟨hPpn, _⟩, hEnd⟩
  subst hEnd
  refine ⟨hTry.2, rfl, rfl, ?_⟩
  rw [← hPpn]
  simp [restSegPpn, resetLast, setRestSeg]

/- The answers of earlier segments agree in a region. -/
theorem findSome?_earlier
    (hAll : All RestSegCoalesce.Reached a)
    (firstRestSeg : Option Nat)
    {x : Nat}
    (hRegion : SameRegion address x) :
    (a.earlier firstRestSeg).findSome? (a.answer x app) =
      (a.earlier firstRestSeg).findSome?
        (a.answer address app) := by
  apply findSome?_eq_of_forall
  intro size hMem
  have hOther := List.mem_takeWhile_imp hMem
  cases size with
  | fourKb => simp at hOther
  | twoMb =>
      unfold answer
      cases hSeg : a.restSegs .twoMb with
      | none => rfl
      | some c =>
          exact RestSegCoalesce.dualRadix_twoMb
            (hAll .twoMb c hSeg).pageSize hRegion

/- Slots whose frames are alike are alike. -/
theorem slot_of_hugeAddress
    {base block u v way : Nat}
    (hEq : hugeAddress
        ((base + (block + (u + way)) % 2 ^ 32) % 2 ^ 64) 0 =
      hugeAddress
        ((base + (block + (v + way)) % 2 ^ 32) % 2 ^ 64) 0)
    (hLess : u < 2 ^ 15)
    (hLess' : v < 2 ^ 15) :
    u = v := by
  unfold hugeAddress at hEq
  omega

/-
  The walk forms the addresses of a page number exactly when
  an earlier segment answers with it: the answers of the
  coalesced segment differ from page to page.
-/
theorem walkAgrees_iff
    {way : Nat}
    (hAll : All RestSegCoalesce.Reached a)
    (hSeg : a.restSegs .fourKb = some c)
    (hPower : c.geometry.numSets.isPowerOfTwo)
    (hSets : 512 ≤ c.geometry.numSets)
    (hWays : c.geometry.associativity ≤ 64)
    (hWay : c.radixWayTables2mb.way app (address / 2 ^ 21) =
      some way)
    (firstRestSeg : Option Nat)
    (base : Nat) :
    (∀ va, SameRegion address va →
      ∃ q, (a.restSegWalk firstRestSeg va app).1 = some (21, q) ∧
        hugeAddress q va = hugeAddress base va) ↔
      ∃ q, (a.earlier firstRestSeg).findSome?
          (a.answer address app) = some (21, q) ∧
        hugeAddress q 0 = hugeAddress base 0 := by
  have hAnswer : ∀ va, SameRegion address va →
      a.answer va app .fourKb =
        some (21, c.geometry.calculatePPNFromWay va way) := by
    intro va hRegion
    unfold answer RestSegCoalesce.dualRadix
    rw [hSeg, Option.bind_some,
      show va / 2 ^ 21 = address / 2 ^ 21 from hRegion, hWay]
  have hWalk : ∀ va, SameRegion address va →
      (a.restSegWalk firstRestSeg va app).1 =
        ((a.earlier firstRestSeg).findSome?
          (a.answer address app)).or
          (if .fourKb ∈ a.walkOrder firstRestSeg then
            some (21, c.geometry.calculatePPNFromWay va way)
          else
            none) := by
    intro va hRegion
    rw [restSegWalk_eq, findSome?_takeWhile (hAnswer va hRegion),
      ← findSome?_earlier hAll firstRestSeg hRegion]
    rfl
  have hOffset : ∀ q va, hugeAddress q va = hugeAddress base va ↔
      hugeAddress q 0 = hugeAddress base 0 := by
    intro q va
    unfold hugeAddress
    omega
  constructor
  · intro hAgrees
    cases hEarlier : (a.earlier firstRestSeg).findSome?
        (a.answer address app) with
    | some hit =>
        rcases hAgrees address rfl with ⟨q, hHit, hSame⟩
        rw [hWalk address rfl, hEarlier, Option.some_or] at hHit
        exact ⟨q, hHit, (hOffset q address).mp hSame⟩
    | none =>
        exfalso
        simp only [hEarlier, Option.none_or] at hWalk
        -- the frames of the first two pages of the region
        have hFrame : ∀ i < 512, hugeAddress
            (c.geometry.calculatePPNFromWay
              (alignedAddress address + i * 4096) way) 0 =
            hugeAddress base 0 := by
          intro i hPage
          rcases sameRegion_page address hPage with
            ⟨hRegion, _, _⟩
          rcases hAgrees _ hRegion with ⟨q, hHit, hSame⟩
          rw [hWalk _ hRegion] at hHit
          split_ifs at hHit
          simp only [Option.some.injEq, Prod.mk.injEq,
            true_and] at hHit
          rw [hHit]
          exact (hOffset q _).mp hSame
        have hPos := (hAll .fourKb c hSeg).nonzero
        have hSize := (hAll .fourKb c hSeg).pageSize
        have hFirst := hFrame 0 (by decide)
        have hSecond := hFrame 1 (by decide)
        have hLow : c.geometry.setOf
            (512 * (address / 2 ^ 21)) % 512 < 512 :=
          Nat.mod_lt _ (by decide)
        rw [calculatePPNFromWay_page hSize hPower hSets
          (by decide), Nat.zero_xor] at hFirst
        rw [calculatePPNFromWay_page hSize hPower hSets
          (by decide)] at hSecond
        generalize c.geometry.setOf
          (512 * (address / 2 ^ 21)) % 512 = low
          at hFirst hSecond hLow
        have hLow' : 1 ^^^ low < 2 ^ 9 :=
          Nat.xor_lt_two_pow (by decide) hLow
        have hSlots := slot_of_hugeAddress
          (hFirst.trans hSecond.symm)
          (by simpa using slot_lt hWays hLow hPos)
          (by simpa using slot_lt hWays hLow' hPos)
        have hSame := Nat.eq_of_mul_eq_mul_right hPos hSlots
        have hNull : (0 : Nat) = 1 :=
          Nat.xor_left_injective ((Nat.zero_xor low).trans hSame)
        exact absurd hNull (by decide)
  · rintro ⟨q, hEarlier, hSame⟩ va hRegion
    refine ⟨q, ?_, (hOffset q va).mpr hSame⟩
    rw [hWalk va hRegion, hEarlier, Option.some_or]

/- The segments after a request that its region serves. -/
theorem served_spec
    {bytes : Nat}
    {ppn : Option Nat}
    {size : PageSize}
    (hAll : All RestSegCoalesce.Reached a)
    (hSeg : a.restSegs .fourKb = some c)
    (hServed : (a.tryCoalesce bytes address core).1 = true)
    (hAllocate : a.allocate bytes address core false =
      some ((ppn, size), a')) :
    All RestSegCoalesce.Reached a' ∧
      a'.restSegs .fourKb = some (c.coalesce address core).2 ∧
      ∀ firstRestSeg,
        (a'.earlier firstRestSeg).findSome?
            (a'.answer address core) =
          (a.earlier firstRestSeg).findSome?
            (a.answer address core) := by
  rcases served_request hSeg hServed hAllocate with
    ⟨_, hSegs, hOrder, _⟩
  have hOther : a'.restSegs .twoMb = a.restSegs .twoMb := by
    rw [hSegs]
    exact Function.update_of_ne (by decide) _ _
  have hNext : a'.restSegs .fourKb =
      some (c.coalesce address core).2 := by
    rw [hSegs, Function.update_self]
  refine ⟨?_, hNext, ?_⟩
  · intro size' c' hSeg'
    cases size' with
    | fourKb =>
        rw [hNext] at hSeg'
        exact Option.some.inj hSeg' ▸
          (hAll .fourKb c hSeg).coalesce address core
    | twoMb =>
        rw [hOther] at hSeg'
        exact hAll .twoMb c' hSeg'
  · intro firstRestSeg
    have hList : a'.earlier firstRestSeg =
        a.earlier firstRestSeg := by
      unfold earlier walkOrder
      rw [hOrder]
    rw [hList]
    apply findSome?_eq_of_forall
    intro size' hMem
    have hNe := List.mem_takeWhile_imp hMem
    cases size' with
    | fourKb => simp at hNe
    | twoMb =>
        unfold answer
        rw [hOther]

section Requests

variable {c : RestSegCoalesce} {bytes : Nat}
variable {ppn : Option Nat} {size : PageSize}
variable (hAll : All RestSegCoalesce.Reached a)
variable (hSeg : a.restSegs .fourKb = some c)
variable (hWays : c.geometry.associativity ≤ 64)
variable (hPower : c.geometry.numSets.isPowerOfTwo)
variable (hSets : 512 ≤ c.geometry.numSets)
variable
  (hServed : (a.tryCoalesce bytes address core).1 = true)
variable
  (hAllocate : a.allocate bytes address core false =
    some ((ppn, size), a'))

include hAll hSeg hWays hPower hSets hServed hAllocate

/- When the page number addresses the frames of all pages. -/
theorem addressesFrames_iff :
    a'.AddressesFrames ppn address core ↔
      c.geometry.associativity = 1 ∧
        c.setIndexOf (alignedAddress address) % 512 = 0 ∧
        (c.isCoalesced address core = true →
          ∀ x, SameRegion address x →
            (c.lookupWay x core).isSome = true) := by
  rcases served_request hSeg hServed hAllocate with
    ⟨hTaken, _, _, hPpn⟩
  rcases served_spec hAll hSeg hServed hAllocate with
    ⟨hAll', hNext, _⟩
  rcases coalesce_spec (hAll .fourKb c hSeg) hPower hSets hWays
      hTaken with
    ⟨_, hResident⟩
  have hAfter := hAll' .fourKb _ hNext
  have hGeometry := geometry_coalesce c address core
  generalize (c.coalesce address core).2 = next
    at hPpn hNext hResident hAfter hGeometry
  have hLine := inLine_iff hAfter.pageSize
    (by rwa [hGeometry]) (by rwa [hGeometry])
    (by rwa [hGeometry])
    (hAfter.synced (by rwa [hGeometry])).associativity
    address core
  rw [hResident, hGeometry] at hLine
  have hFirst : c.geometry.setOf (512 * (address / 2 ^ 21)) =
      c.setIndexOf (alignedAddress address) := by
    have hPage : c.pageAt (alignedAddress address) 0 =
        512 * (address / 2 ^ 21) :=
      pageAt_alignedAddress (hAll .fourKb c hSeg).pageSize 0
    rw [← hPage]
    unfold pageAt
    rw [Nat.zero_mul, Nat.add_zero]
    rfl
  rw [hFirst] at hLine
  have hAt : ∀ x, a'.restSegPpn .fourKb x core =
      next.calculatePhysicalAddress x core := by
    intro x
    unfold restSegPpn
    rw [hNext, Option.bind_some]
  unfold AddressesFrames
  simp only [hAt, hPpn]
  exact hLine

/- When the walk forms the addresses of the page number. -/
theorem walkAgrees_request_iff
    (firstRestSeg : Option Nat) :
    a'.WalkAgrees firstRestSeg ppn address core ↔
      ∃ base, ppn = some base ∧
        ∃ q, (a.earlier firstRestSeg).findSome?
            (a.answer address core) = some (21, q) ∧
          hugeAddress q 0 = hugeAddress base 0 := by
  rcases served_request hSeg hServed hAllocate with
    ⟨hTaken, _, _, _⟩
  rcases served_spec hAll hSeg hServed hAllocate with
    ⟨hAll', hNext, hEarlier⟩
  rcases coalesce_spec (hAll .fourKb c hSeg) hPower hSets hWays
      hTaken with
    ⟨⟨way, hWay⟩, _⟩
  have hGeometry := geometry_coalesce c address core
  have hWalk := walkAgrees_iff hAll' hNext
    (by rwa [hGeometry]) (by rwa [hGeometry])
    (by rwa [hGeometry]) hWay firstRestSeg
  simp only [hEarlier] at hWalk
  unfold WalkAgrees
  simp only [hWalk]

end Requests

------------------------------------------------------------
-- A New Segment
------------------------------------------------------------

/-
  A segment at a place of its page size, which is one of 2MB
  pages or the one whose regions are coalesced.
-/
structure PlacedAt
    (params : List RestSegParams)
    (placed : List Placed)
    (size : PageSize)
    (c : RestSegCoalesce) : Prop where
  place : ∃ q ∈ params.zip placed,
    q.1.pageSize = size ∧ c.geometry = q.2.restSeg.geometry
  plain : size = .twoMb → c.Plain

section Placements

variable {numCores fingerprintBits kernelSize : Nat}
variable {params : List RestSegParams} {placed : List Placed}
variable {m : PhysicalMemoryAllocator}
variable (hWays : ∀ c ∈ params, c.assoc ≤ 64)
variable
  (hSum : 4096 + ((layoutRequests numCores params).map
    Bump.Request.bytes).sum < 2 ^ 64)
variable
  (hPlace : placeRestSegs numCores fingerprintBits params
    (PhysicalMemoryAllocator.construct kernelSize) =
      some (placed, m))

include hWays hSum hPlace

theorem placedAt_construct
    {buddy : Buddy}
    {threshold : Int}
    (hConstruct : construct buddy (configsOf params placed)
      fingerprintBits threshold = some a₀) :
    All (PlacedAt params placed) a₀ := by
  refine all_construct_of (P := PlacedAt params placed) ?_
    hConstruct
  intro config hMem c hNew
  rcases List.mem_map.mp hMem with ⟨q, hIn, hConfig⟩
  subst hConfig
  rcases Option.map_eq_some_iff.mp hNew with ⟨r, hSeg, hEq⟩
  rcases RestSeg.construct_eq_some hSeg with
    ⟨hFresh, hSets, _⟩
  have hGeometry := ((pairwise_placeRestSegs hWays hSum
    hPlace).2 q hIn).2.2
  subst hEq
  refine ⟨⟨q, hIn, rfl, ?_⟩, ?_⟩
  · change r.geometry = _
    rw [hFresh, hGeometry]
    rfl
  · intro _
    rw [hFresh] at hSets ⊢
    exact Plain.ofRestSeg (hWays q.1 (List.of_mem_zip hIn).1)
      (by cases q.1.pageSize with
          | fourKb => exact Nat.le_refl _
          | twoMb => exact (by decide : 12 ≤ 21))
      hSets

omit hWays hSum hPlace in
theorem placedAt_step
    {op : Op}
    (hAll : All (PlacedAt params placed) a)
    (hStep : a.step op = some a') :
    All (PlacedAt params placed) a' := by
  apply all_step _ _ _ _ hAll hStep
  · rintro size c app ⟨⟨q, hIn, hSize, hGeometry⟩, hPlain⟩
    exact ⟨⟨q, hIn, hSize,
      (geometry_allocate c _ _ _).trans hGeometry⟩,
      fun hTwo => (hPlain hTwo).allocate _ _ _⟩
  · rintro size c app ⟨⟨q, hIn, hSize, hGeometry⟩, hPlain⟩
    exact ⟨⟨q, hIn, hSize,
      (geometry_inRestSeg c _ _).trans hGeometry⟩,
      fun hTwo => (hPlain hTwo).inRestSeg _ _⟩
  · rintro address core _ c hSeg
    rcases hAll .fourKb c hSeg with
      ⟨⟨q, hIn, hSize, hGeometry⟩, _⟩
    exact ⟨⟨q, hIn, hSize,
      (geometry_coalesce c _ _).trans hGeometry⟩,
      fun hTwo => by cases hTwo⟩
  · rintro address oldPpn target app _ size c _ hSeg
    rcases hAll size c hSeg with
      ⟨⟨q, hIn, hSize, hGeometry⟩, hPlain⟩
    exact ⟨⟨q, hIn, hSize,
      (geometry_allocate c _ _ _).trans hGeometry⟩,
      fun hTwo => (hPlain hTwo).allocate _ _ _⟩

theorem PlacedAt.ways
    {size : PageSize}
    {c : RestSegCoalesce}
    (hHere : PlacedAt params placed size c) :
    c.geometry.associativity ≤ 64 := by
  rcases hHere.place with ⟨q, hIn, _, hGeometry⟩
  rw [hGeometry, ((pairwise_placeRestSegs hWays hSum
    hPlace).2 q hIn).2.2]
  exact hWays q.1 (List.of_mem_zip hIn).1

/- Of two segments, one is placed before the other. -/
theorem before_or_before
    {q q' : RestSegParams × Placed}
    (hIn : q ∈ params.zip placed)
    (hIn' : q' ∈ params.zip placed)
    (hNe : q.1.pageSize ≠ q'.1.pageSize) :
    q.2.restSeg.geometry.Below
        q'.2.restSeg.geometry.basePhysicalAddress ∨
      q'.2.restSeg.geometry.Below
        q.2.restSeg.geometry.basePhysicalAddress := by
  have hOrdered := (pairwise_placeRestSegs hWays hSum hPlace).1
  have hEither := hOrdered.imp
    (S := fun q q' : RestSegParams × Placed =>
      q.2.restSeg.geometry.Below
          q'.2.restSeg.geometry.basePhysicalAddress ∨
        q'.2.restSeg.geometry.Below
          q.2.restSeg.geometry.basePhysicalAddress)
    Or.inl
  have : Std.Symm (fun q q' : RestSegParams × Placed =>
      q.2.restSeg.geometry.Below
          q'.2.restSeg.geometry.basePhysicalAddress ∨
        q'.2.restSeg.geometry.Below
          q.2.restSeg.geometry.basePhysicalAddress) :=
    ⟨fun _ _ => Or.symm⟩
  exact hEither.forall hIn hIn'
    (fun hEq => hNe (congrArg (fun q => q.1.pageSize) hEq))

/- Frames of segments of two page sizes are different. -/
theorem frame_ne
    {size size' : PageSize}
    {c c' : RestSegCoalesce}
    {way way' : Nat}
    (hSize : size ≠ size')
    (hHere : PlacedAt params placed size c)
    (hThere : PlacedAt params placed size' c')
    (hSynced : c.Synced)
    (hSynced' : c'.Synced)
    (hWay : way < c.geometry.associativity)
    (hWay' : way' < c'.geometry.associativity)
    (x x' : Nat) :
    hugeAddress (c.geometry.calculatePPNFromWay x way) 0 ≠
      hugeAddress (c'.geometry.calculatePPNFromWay x' way')
        0 := by
  rcases hHere.place with ⟨q, hIn, hAt, hGeometry⟩
  rcases hThere.place with ⟨q', hIn', hAt', hGeometry'⟩
  have hBounds := (pairwise_placeRestSegs hWays hSum hPlace).2
  have hEnd := (hBounds q hIn).2.1
  have hEnd' := (hBounds q' hIn').2.1
  have hApart := before_or_before hWays hSum hPlace hIn hIn'
    (by rwa [hAt, hAt'])
  rw [← hGeometry] at hEnd hApart
  rw [← hGeometry'] at hEnd' hApart
  have hFrame := frame_bounds hSynced hEnd (Nat.le_refl _) hWay x
  have hFrame' := frame_bounds hSynced' hEnd' (Nat.le_refl _)
    hWay' x'
  -- the frames of the first segment end before the other one
  rcases hApart with hBefore | hBefore
  · have hLess := (frame_bounds hSynced hBefore (by omega) hWay x).2
    unfold hugeAddress
    omega
  · have hLess := (frame_bounds hSynced' hBefore (by omega)
      hWay' x').2
    unfold hugeAddress
    omega

/-
  The walk never forms the addresses of the page number: its
  answers in the segment differ from page to page, and those
  of another segment are frames of that segment.
-/
theorem not_walkAgrees
    {c : RestSegCoalesce}
    {bytes : Nat}
    {ppn : Option Nat}
    {size : PageSize}
    (hAll : All RestSegCoalesce.Reached a)
    (hPlaced : All (PlacedAt params placed) a)
    (hSeg : a.restSegs .fourKb = some c)
    (hPower : c.geometry.numSets.isPowerOfTwo)
    (hSets : 512 ≤ c.geometry.numSets)
    (hServed : (a.tryCoalesce bytes address core).1 = true)
    (hAllocate : a.allocate bytes address core false =
      some ((ppn, size), a'))
    (firstRestSeg : Option Nat) :
    ¬ a'.WalkAgrees firstRestSeg ppn address core := by
  have hAssoc := (hPlaced .fourKb c hSeg).ways hWays hSum hPlace
  rw [walkAgrees_request_iff hAll hSeg hAssoc hPower hSets
    hServed hAllocate]
  rintro ⟨base, hPpn, q, hHit, hSame⟩
  rcases served_request hSeg hServed hAllocate with
    ⟨_, _, _, hEq⟩
  have hSynced := ((hAll .fourKb c hSeg).coalesce address
    core).synced (by rwa [geometry_coalesce])
  have hGeometry := geometry_coalesce c address core
  rcases Option.map_eq_some_iff.mp (hEq.symm.trans hPpn) with
    ⟨way, hFind, hBase⟩
  have hWay := (RestSegSet.holds_of_findEntry hFind).1
  rw [hSynced.associativity, hGeometry] at hWay
  rw [hGeometry] at hBase
  rcases List.exists_of_findSome?_eq_some hHit with
    ⟨other, hMem, hAnswer⟩
  have hOther := List.mem_takeWhile_imp hMem
  cases other with
  | fourKb => simp at hOther
  | twoMb =>
      rcases Option.bind_eq_some_iff.mp hAnswer with
        ⟨c', hSeg', hDual⟩
      have hThere := hPlaced .twoMb c' hSeg'
      have hPlain := hThere.plain rfl
      rcases hPlain.dualRadix hDual with ⟨way', hWay', hFrame⟩
      simp only at hFrame
      rw [hFrame, ← hBase] at hSame
      exact frame_ne hWays hSum hPlace (by decide) hThere
        (hPlaced .fourKb c hSeg) hPlain.synced
        ((hAll .fourKb c hSeg).synced hAssoc) hWay' hWay _ _
        hSame

end Placements

/-
  For every request of a run that its region serves, in an
  allocator with the places of the constructor: the page
  number addresses the frames of all pages of the region
  exactly with one way, low bits of zero and all pages in the
  tags, and the walk never forms the same addresses.
-/
theorem addressing_iff
    {numCores fingerprintBits kernelSize : Nat}
    {params : List RestSegParams}
    {placed : List Placed}
    {m : PhysicalMemoryAllocator}
    {buddy : Buddy}
    {threshold : Int}
    {ops : List Op}
    {c : RestSegCoalesce}
    {bytes : Nat}
    {ppn : Option Nat}
    {size : PageSize}
    (hWays : ∀ c ∈ params, c.assoc ≤ 64)
    (hSum : 4096 + ((layoutRequests numCores params).map
      Bump.Request.bytes).sum < 2 ^ 64)
    (hPlace : placeRestSegs numCores fingerprintBits params
      (PhysicalMemoryAllocator.construct kernelSize) =
        some (placed, m))
    (hConstruct : construct buddy (configsOf params placed)
      fingerprintBits threshold = some a₀)
    (hRun : Run.run step a₀ ops = some a)
    (hSeg : a.restSegs .fourKb = some c)
    (hPower : c.geometry.numSets.isPowerOfTwo)
    (hSets : 512 ≤ c.geometry.numSets)
    (hServed : (a.tryCoalesce bytes address core).1 = true)
    (hAllocate : a.allocate bytes address core false =
      some ((ppn, size), a'))
    (firstRestSeg : Option Nat) :
    (a'.AddressesFrames ppn address core ↔
      c.geometry.associativity = 1 ∧
        c.setIndexOf (alignedAddress address) % 512 = 0 ∧
        (c.isCoalesced address core = true →
          ∀ x, SameRegion address x →
            (c.lookupWay x core).isSome = true)) ∧
      ¬ a'.WalkAgrees firstRestSeg ppn address core := by
  have hAll := all_reached hConstruct hRun
  have hPlaced : All (PlacedAt params placed) a :=
    Run.run_invariant (fun _ _ _ => placedAt_step)
      (placedAt_construct hWays hSum hPlace hConstruct) hRun
  have hAssoc := (hPlaced .fourKb c hSeg).ways hWays hSum hPlace
  exact ⟨addressesFrames_iff hAll hSeg hAssoc hPower hSets
      hServed hAllocate,
    not_walkAgrees hWays hSum hPlace hAll hPlaced hSeg hPower
      hSets hServed hAllocate firstRestSeg⟩

/- In a new segment the lowest way is free for a region. -/
theorem findCommonFreeWay_fresh
    {g : Geometry}
    (hMask : allFree g.associativity ≠ 0#64)
    (startVpn : Nat) :
    (ofRestSeg (RestSeg.fresh g)).findCommonFreeWay startVpn =
      (List.range 64).find? (allFree g.associativity).getLsbD := by
  have hFrom : ∀ pages,
      (ofRestSeg (RestSeg.fresh g)).commonFreeWayFrom startVpn
          pages (allFree g.associativity) =
        (List.range 64).find?
          (allFree g.associativity).getLsbD := by
    intro pages
    induction pages with
    | nil => rfl
    | cons i pages ih =>
        have hSame : allFree g.associativity &&&
            (ofRestSeg (RestSeg.fresh g)).setWayBitmap
              ((ofRestSeg (RestSeg.fresh g)).setIndexOf
                ((startVpn + i) * 2 ^ 12)) =
              allFree g.associativity :=
          BitVec.and_self
        unfold RestSegCoalesce.commonFreeWayFrom
        simp only
        rw [hSame, if_neg hMask]
        exact ih
  exact hFrom _

/- An allocator with one segment. -/
theorem construct_single
    (config : RestSegConfig)
    {fingerprintBits : Nat}
    {r : RestSeg}
    (hSeg : RestSeg.construct config.sizeMb
      config.pageSize.bits config.assoc config.base
      fingerprintBits = some r)
    (buddy : Buddy)
    (threshold : Int) :
    ∃ a₀, construct buddy [config] fingerprintBits threshold =
        some a₀ ∧
      a₀.restSegs config.pageSize = some (ofRestSeg r) ∧
      a₀.order = [config.pageSize] := by
  unfold construct addRestSegs addRestSeg RestSegCoalesce.construct
  rw [hSeg]
  refine ⟨_, rfl, ?_, rfl⟩
  simp [setRestSeg]

/-
  A 4KB request is served by its region in a new segment with
  a way.
-/
theorem allocate_fresh
    {g : Geometry}
    (hSeg : a.restSegs .fourKb = some (ofRestSeg (RestSeg.fresh g)))
    (hMask : allFree g.associativity ≠ 0#64)
    (hWay : ((List.range 64).find?
      (allFree g.associativity).getLsbD).isSome = true)
    (address core : Nat) :
    (a.tryCoalesce 4096 address core).1 = true ∧
      ∃ ppn a', a.allocate 4096 address core false =
        some ((ppn, .twoMb), a') := by
  have hCoalesces := coalesces_coalesce
    (ofRestSeg (RestSeg.fresh g)) address core
  have hFind := findCommonFreeWay_fresh hMask
    (alignedAddress address / 2 ^ 12)
  have hTaken : ((ofRestSeg (RestSeg.fresh g)).coalesce address
      core).1 = true := by
    generalize (ofRestSeg (RestSeg.fresh g)).coalesce address
      core = result at hCoalesces ⊢
    cases hCoalesces with
    | found _ => rfl
    | refused _ hNone =>
        rw [hFind] at hNone
        rw [hNone] at hWay
        simp at hWay
    | coalesced _ _ => rfl
  have hTry := tryCoalesce_of_coalesce hSeg hTaken
  refine ⟨hTry, ?_⟩
  unfold allocate
  simp only [Bool.false_eq_true, if_false]
  generalize a.tryCoalesce 4096 address core = tried at hTry ⊢
  rcases tried with ⟨taken, next⟩
  cases taken with
  | true => exact ⟨_, _, rfl⟩
  | false => simp at hTry

/- A buddy allocator of a small memory. -/
theorem hasBuddy :
    (Buddy.construct 9 8 8).isSome = true := by
  decide +kernel

/-
  In a segment of 512 sets of one way the page number of the
  first region addresses the frames, and the walk does not.
-/
theorem addressing_oneWay :
    ∃ b ∈ Buddy.construct 9 8 8,
      ∃ placed ∈ placeRestSegs 1 4 [⟨2, .fourKb, 1⟩]
          (PhysicalMemoryAllocator.construct 8),
        ∃ a₀ ∈ construct b
            (configsOf [⟨2, .fourKb, 1⟩] placed.1) 4 75,
          ∃ ppn a', a₀.allocate 4096 0x5000 0 false =
              some ((ppn, .twoMb), a') ∧
            a'.AddressesFrames ppn 0x5000 0 ∧
            ¬ a'.WalkAgrees none ppn 0x5000 0 := by
  rcases Option.isSome_iff_exists.mp hasBuddy with ⟨b, hBuddy⟩
  have hPlaces : ∃ placed ∈ placeRestSegs 1 4 [⟨2, .fourKb, 1⟩]
      (PhysicalMemoryAllocator.construct 8),
      configsOf [⟨2, .fourKb, 1⟩] placed.1 =
        [⟨2, .fourKb, 1, 1⟩] := by
    decide +kernel
  rcases hPlaces with ⟨⟨placed, m⟩, hPlace, hConfigs⟩
  have hSeg : RestSeg.construct 2 12 1 1 4 =
      some (RestSeg.fresh ⟨12, 1, 512, 1, 4⟩) :=
    RestSeg.construct_of_accepted (by decide +kernel)
  rcases construct_single ⟨2, .fourKb, 1, 1⟩ hSeg b 75 with
    ⟨a₀, hConstruct, hFirst, _⟩
  rcases allocate_fresh hFirst (by decide) (by decide) 0x5000 0
    with ⟨hServed, ppn, a', hAllocate⟩
  rw [← hConfigs] at hConstruct
  rcases addressing_iff (by decide) (by decide +kernel)
      hPlace hConstruct
      (show Run.run step a₀ [] = some a₀ from rfl) hFirst
      ⟨9, rfl⟩ (by decide) hServed hAllocate none with
    ⟨hFrames, hWalk⟩
  refine ⟨b, hBuddy, (placed, m), hPlace, a₀, hConstruct, ppn,
    a', hAllocate, hFrames.mpr ⟨rfl, by decide, ?_⟩, hWalk⟩
  -- no region of a new segment is coalesced
  intro hCoalesced
  exact absurd hCoalesced (by decide)

/-
  With 512 sets of two ways, the page number addresses other
  frames than those of the pages, and the walk forms other
  addresses than the page number.
-/
theorem not_addressing_twoWays :
    ∃ b ∈ Buddy.construct 9 8 8,
      ∃ placed ∈ placeRestSegs 1 4 [⟨4, .fourKb, 2⟩]
          (PhysicalMemoryAllocator.construct 8),
        ∃ a₀ ∈ construct b
            (configsOf [⟨4, .fourKb, 2⟩] placed.1) 4 75,
          ∃ ppn a', a₀.allocate 4096 0x5000 0 false =
              some ((ppn, .twoMb), a') ∧
            ¬ a'.AddressesFrames ppn 0x5000 0 ∧
            ¬ a'.WalkAgrees none ppn 0x5000 0 := by
  rcases Option.isSome_iff_exists.mp hasBuddy with ⟨b, hBuddy⟩
  have hPlaces : ∃ placed ∈ placeRestSegs 1 4 [⟨4, .fourKb, 2⟩]
      (PhysicalMemoryAllocator.construct 8),
      configsOf [⟨4, .fourKb, 2⟩] placed.1 =
        [⟨4, .fourKb, 2, 1⟩] := by
    decide +kernel
  rcases hPlaces with ⟨⟨placed, m⟩, hPlace, hConfigs⟩
  have hSeg : RestSeg.construct 4 12 2 1 4 =
      some (RestSeg.fresh ⟨12, 2, 512, 1, 4⟩) :=
    RestSeg.construct_of_accepted (by decide +kernel)
  rcases construct_single ⟨4, .fourKb, 2, 1⟩ hSeg b 75 with
    ⟨a₀, hConstruct, hFirst, _⟩
  rcases allocate_fresh hFirst (by decide) (by decide) 0x5000 0
    with ⟨hServed, ppn, a', hAllocate⟩
  rw [← hConfigs] at hConstruct
  have hAll := all_reached hConstruct
    (show Run.run step a₀ [] = some a₀ from rfl)
  refine ⟨b, hBuddy, (placed, m), hPlace, a₀, hConstruct, ppn,
    a', hAllocate, ?_, ?_⟩
  · rw [addressesFrames_iff hAll hFirst (by decide) ⟨9, rfl⟩
      (by decide) hServed hAllocate]
    rintro ⟨hOne, _⟩
    exact absurd hOne (by decide)
  · exact not_walkAgrees (by decide)
      (by decide +kernel) hPlace hAll
      (placedAt_construct (by decide)
        (by decide +kernel) hPlace hConstruct)
      hFirst ⟨9, rfl⟩ (by decide) hServed hAllocate none

end HashCoalesce

end Utopia

end Virtuoso
