import Virtuoso.Utopia.Coalesce.Frames

/-
  The invariant that ties the tables of a coalescing segment
  to its tags, and what its operations do to it.

  The ways of both tables stay those of the tags as long as a
  region is coalesced only where its pages are in different
  sets and in none of them yet, and as long as no migration
  takes the way of a page of a coalesced region. The source
  checks neither of the two.

  Main declarations:
    * `Utopia.RestSegCoalesce.Inv.allocate`
    * `Utopia.RestSegCoalesce.Inv.coalesce`
-/

------------------------------------------------------------
-- The Invariant And Allocations
------------------------------------------------------------

namespace Virtuoso

namespace Utopia

namespace RestSegCoalesce

open RestSegSet
open RestSeg (InRange inRange_lt)

variable {c c' : RestSegCoalesce}
variable {address app page way i : Nat} {set : RestSegSet}

/- The 2MB region of a page of the segment. -/
def regionOf (c : RestSegCoalesce) (page : Nat) : Nat :=
  page * 2 ^ c.geometry.pageSizeBits / 2 ^ 21

/-
  The ways of the 4KB table and those of coalesced regions
  are ways of the tags, and each page in the tags is named by
  one of the tables.
-/
structure Inv (c : RestSegCoalesce) : Prop where
  rooted : c.toRestSeg.Rooted
  synced : c.Synced
  size : c.geometry.pageSizeBits = 12 ∨ c.geometry.pageSizeBits = 21
  tables : c.radixWayTables2mb.Sound
  tablesSize : c.radixWayTables2mb.pageSizeBits = 21
  tablesWays : c.radixWayTables2mb.associativity =
    c.geometry.associativity
  fine : ∀ page app way, c.InRange page →
    c.radixWayTables.way app page = some way →
      c.Resident page way app
  coarse : ∀ region app way, region < 2 ^ 27 →
    c.radixWayTables2mb.way app region = some way →
      c.geometry.pageSizeBits = 12 ∧
        ∀ i < 512, c.Resident (512 * region + i) way app
  found : ∀ page app way, c.InRange page →
    c.Resident page way app →
      c.radixWayTables.way app page = some way ∨
        c.radixWayTables2mb.way app (c.regionOf page) = some way

theorem Inv.regionOf_vpn
    (hInv : c.Inv)
    (address : Nat) :
    c.regionOf (c.geometry.vpn address) = address / 2 ^ 21 := by
  unfold regionOf Geometry.vpn
  rcases hInv.size with hSize | hSize
  · rw [hSize]
    omega
  · rw [hSize]
    omega

theorem Inv.inRange_vpn
    (hAddress : address < 2 ^ 48) :
    c.InRange (c.geometry.vpn address) :=
  Geometry.vpn_lt c.geometry hAddress

/- The region of a page of 48 bits of address. -/
theorem regionOf_lt
    (hPage : c.InRange page) :
    c.regionOf page < 2 ^ 27 := by
  have hLess := Geometry.mul_pow_lt hPage
  unfold regionOf
  omega

/- A page is in one way at most. -/
theorem Inv.resident_unique
    (hInv : c.Inv)
    {way' : Nat}
    (hHeld : c.Resident page way app)
    (hHeld' : c.Resident page way' app) :
    way = way' :=
  hInv.rooted.unique _ way way' _ _ hHeld hHeld'

/- A way of a set is that of one page at most. -/
theorem Inv.page_unique
    (hInv : c.Inv)
    {page' app' : Nat}
    (hPage : c.InRange page)
    (hPage' : c.InRange page')
    (hSet : c.geometry.setOf page' = c.geometry.setOf page)
    (hHeld : c.Resident page way app)
    (hHeld' : c.Resident page' way app') :
    page' = page ∧ app' = app := by
  unfold RestSeg.Resident at hHeld hHeld'
  rw [hSet] at hHeld'
  have hEq := hHeld'.eq hHeld
  exact ⟨hInv.rooted.fit.eq_of_tagOf_setOf hPage hPage' hEq.1
    hSet, by omega⟩

/- A segment that holds the same keeps the invariant. -/
theorem Inv.same
    (hInv : c.Inv)
    (hGeometry : c'.geometry = c.geometry)
    (hSame : ∀ i, (c.sets i).Same (c'.sets i))
    (hSynced : c'.Synced)
    (hRadix : c'.radixWayTables = c.radixWayTables)
    (hTables : c'.radixWayTables2mb.Sound)
    (hTablesSize : c'.radixWayTables2mb.pageSizeBits =
      c.radixWayTables2mb.pageSizeBits)
    (hTablesWays : c'.radixWayTables2mb.associativity =
      c.radixWayTables2mb.associativity)
    (hWay : ∀ app region,
      c'.radixWayTables2mb.way app region =
        c.radixWayTables2mb.way app region) :
    c'.Inv := by
  have hResident : ∀ page way app,
      c'.Resident page way app ↔ c.Resident page way app := by
    intro page way app
    unfold RestSeg.Resident
    rw [hGeometry, (hSame _).holds]
  have hRegion : ∀ page, c'.regionOf page = c.regionOf page :=
    by
    intro page
    unfold regionOf
    rw [hGeometry]
  refine ⟨?_, hSynced, ?_, hTables, ?_, ?_, ?_, ?_, ?_⟩
  · exact hInv.rooted.same hGeometry hSame
      (hRadix ▸ hInv.rooted.radix) (by rw [hRadix])
      (by rw [hRadix])
  · rw [hGeometry]
    exact hInv.size
  · rw [hTablesSize]
    exact hInv.tablesSize
  · rw [hTablesWays, hGeometry]
    exact hInv.tablesWays
  · intro page app way hPage hFine
    unfold InRange at hPage
    rw [hGeometry] at hPage
    rw [hRadix] at hFine
    exact (hResident _ _ _).mpr (hInv.fine page app way hPage hFine)
  · intro region app way hRange hCoarse
    rw [hWay] at hCoarse
    rcases hInv.coarse region app way hRange hCoarse with
      ⟨hSize, hAll⟩
    exact ⟨hGeometry ▸ hSize,
      fun i hIndex => (hResident _ _ _).mpr (hAll i hIndex)⟩
  · intro page app way hPage hHeld
    unfold InRange at hPage
    rw [hGeometry] at hPage
    rw [hRadix, hWay, hRegion]
    exact hInv.found page app way hPage ((hResident _ _ _).mp hHeld)

/- The pages in the tags after a page has filled a way. -/
theorem Inv.resident_refills
    (hInv : c.Inv)
    {r' : RestSeg}
    (hRefills : c.toRestSeg.Refills r' page way app set)
    {page' way' app' : Nat}
    (hPage : c.InRange page') :
    r'.Resident page' way' app' ↔
      if c.geometry.setOf page' = c.geometry.setOf page ∧
          way' = way then
        page' = page ∧ app' = app
      else
        c.Resident page' way' app' := by
  unfold RestSeg.Resident
  rw [hRefills.geometry, hRefills.sets]
  by_cases hSet : c.geometry.setOf page' = c.geometry.setOf page
  · rw [hSet, Function.update_self, hRefills.filled.holds]
    by_cases hWay : way' = way
    · rw [if_pos hWay, if_pos ⟨rfl, hWay⟩]
      constructor
      · rintro ⟨hTag, hApp⟩
        exact ⟨hInv.rooted.fit.eq_of_tagOf_setOf
          hRefills.range hPage hTag hSet, by omega⟩
      · rintro ⟨rfl, rfl⟩
        exact ⟨rfl, rfl⟩
    · rw [if_neg hWay, if_neg (fun hBoth => hWay hBoth.2)]
  · rw [Function.update_of_ne hSet,
      if_neg (fun hBoth => hSet hBoth.1)]

/-
  A new page keeps the invariant if the page that had been in
  its way is in no coalesced region.
-/
theorem Inv.refills
    (hInv : c.Inv)
    (hRefills : c.toRestSeg.Refills c'.toRestSeg page way app set)
    (hSynced : c'.Synced)
    (hTables : c'.radixWayTables2mb = c.radixWayTables2mb)
    (hSafe :
      ∀ page' app', c.InRange page' →
        c.geometry.setOf page' = c.geometry.setOf page →
        c.Resident page' way app' →
          c.radixWayTables2mb.way app' (c.regionOf page') = none) :
    c'.Inv := by
  have hGeometry : c'.geometry = c.geometry :=
    hRefills.geometry
  have hLacks : ∀ w, ¬ c.Resident page w app :=
    hRefills.lacks
  -- the pages that stay where they are
  have hStay : ∀ page' way' app', c.InRange page' →
      c.Resident page' way' app' →
      ¬ (c.geometry.setOf page' = c.geometry.setOf page ∧
        way' = way) → c'.Resident page' way' app' := by
    intro page' way' app' hPage hHeld hApart
    rw [hInv.resident_refills hRefills hPage, if_neg hApart]
    exact hHeld
  refine ⟨hInv.rooted.refills hRefills, hSynced, ?_, ?_, ?_,
    ?_, ?_, ?_, ?_⟩
  · rw [hGeometry]
    exact hInv.size
  · rw [hTables]
    exact hInv.tables
  · rw [hTables]
    exact hInv.tablesSize
  · rw [hTables, hGeometry]
    exact hInv.tablesWays
  · intro page' app' way' hPage hFine
    unfold InRange at hPage
    rw [hGeometry] at hPage
    by_cases hNew : page' = page ∧ app' = app
    · rw [hNew.1, hNew.2, hRefills.own] at hFine
      rw [← Option.some.inj hFine,
        hInv.resident_refills hRefills hPage, hNew.1, hNew.2,
        if_pos ⟨rfl, rfl⟩]
      exact ⟨rfl, rfl⟩
    · by_cases hGone : c.geometry.setOf page' =
          c.geometry.setOf page ∧ c.Resident page' way app'
      · rw [hRefills.gone page' app' hPage hGone.1 hGone.2
          hNew] at hFine
        exact absurd hFine (by simp)
      · rw [hRefills.kept page' app' hPage hGone hNew] at hFine
        have hHeld := hInv.fine page' app' way' hPage hFine
        apply hStay page' way' app' hPage hHeld
        rintro ⟨hSet, rfl⟩
        exact hGone ⟨hSet, hHeld⟩
  · intro region app' way' hRange hCoarse
    rw [hTables] at hCoarse
    rcases hInv.coarse region app' way' hRange hCoarse with
      ⟨hSize, hAll⟩
    refine ⟨hGeometry ▸ hSize, ?_⟩
    intro i hIndex
    have hPage : c.InRange (512 * region + i) := by
      unfold InRange
      rw [hSize]
      omega
    apply hStay _ _ _ hPage (hAll i hIndex)
    rintro ⟨hSet, rfl⟩
    have hNone := hSafe _ app' hPage hSet (hAll i hIndex)
    have hSame : c.regionOf (512 * region + i) = region := by
      unfold regionOf
      rw [hSize]
      omega
    rw [hSame, hCoarse] at hNone
    exact absurd hNone (by simp)
  · intro page' app' way' hPage hHeld
    unfold InRange at hPage
    rw [hGeometry] at hPage
    have hRegion : c'.regionOf page' = c.regionOf page' := by
      unfold regionOf
      rw [hGeometry]
    rw [hTables, hRegion]
    rw [hInv.resident_refills hRefills hPage] at hHeld
    split_ifs at hHeld with hSlot
    · left
      rw [hHeld.1, hHeld.2, hSlot.2]
      exact hRefills.own
    · have hNew : ¬ (page' = page ∧ app' = app) := by
        rintro ⟨rfl, rfl⟩
        exact hLacks way' hHeld
      have hApart : ¬ (c.geometry.setOf page' =
          c.geometry.setOf page ∧ c.Resident page' way app') :=
        fun hBoth => hSlot ⟨hBoth.1,
          hInv.resident_unique hHeld hBoth.2⟩
      rw [hRefills.kept page' app' hPage hApart hNew]
      exact hInv.found page' app' way' hPage hHeld

/-
  The entry that an insertion of the page would evict, if
  any, is that of a page in no coalesced region.
-/
def VictimApart
    (c : RestSegCoalesce)
    (address app : Nat) : Prop :=
  let set := c.sets (c.setIndexOf address)
  c.lookupWay address app = none → set.findFreeWay = none →
    ∀ way, set.findLRUVictim = some way →
      c.isCoalesced
        (c.geometry.reconstructAddress (set.entries way).tag
          (c.setIndexOf address))
        ((set.entries way).owner - 1) = false

theorem findFreeWay_of_full
    (hFull : set.Full) :
    set.findFreeWay = none := by
  unfold findFreeWay
  rw [List.find?_eq_none]
  intro i hMem
  simp [hFull i (List.mem_range.mp hMem)]

/- The region of the page of an entry. -/
theorem Inv.region_of_entry
    (hInv : c.Inv)
    (hPage : c.InRange page) :
    c.geometry.reconstructAddress (c.geometry.tagOf page)
        (c.geometry.setOf page) / 2 ^ 21 =
      c.regionOf page := by
  rw [hInv.rooted.fit.reconstructAddress_eq hPage]
  rfl

/-
  An allocation keeps the invariant, if what it evicts is in
  no coalesced region.
-/
theorem Inv.allocate
    (hInv : c.Inv)
    (hAddress : address < 2 ^ 48)
    (app : Nat)
    (forceEvict : Bool)
    (hApart : forceEvict = true → c.VictimApart address app) :
    (c.allocate address app forceEvict).2.Inv := by
  have hSynced := hInv.synced.allocate address app forceEvict
  have hAllocates := allocates_allocate c address app forceEvict
  have hPage : c.InRange (c.geometry.vpn address) :=
    inRange_vpn hAddress
  have hSetIndex : c.setIndexOf address =
      c.geometry.setOf (c.geometry.vpn address) := rfl
  have hLookup : c.lookupWay address app =
      (c.sets (c.geometry.setOf
        (c.geometry.vpn address))).findEntry
          (c.geometry.tagOf (c.geometry.vpn address))
            (app + 1) := rfl
  unfold VictimApart at hApart
  rw [hSetIndex, hLookup] at hApart
  generalize c.geometry.vpn address = page
    at hAllocates hPage hApart
  generalize c.allocate address app forceEvict = result
    at hSynced hAllocates ⊢
  cases hAllocates with
  | same _ hSame hReplaces hRadix _ =>
      refine hInv.same hReplaces.geometry ?_ hSynced hRadix
        ?_ ?_ ?_ ?_
      · rw [hReplaces.sets]
        exact RestSeg.same_update hSame
      · rw [hReplaces.tables]
        exact hInv.tables
      · rw [hReplaces.tables]
      · rw [hReplaces.tables]
      · simp [hReplaces.tables]
  | free hLacks hInvalid hFilled hReplaces hRadix _ =>
      apply hInv.refills (RestSeg.refills_free hInv.rooted
        hPage hLacks hInvalid hFilled hReplaces.geometry
        hReplaces.sets hRadix) hSynced hReplaces.tables
      intro page' app' _ hSet hHeld
      -- a free way is that of no page
      unfold RestSeg.Resident at hHeld
      rw [hSet] at hHeld
      rw [hHeld.valid] at hInvalid
      exact absurd hInvalid (by simp)
  | @evict way tag owner set c' hForce hLacks hFull hVictim
      hHolds hFilled hReplaces hRadix _ =>
      apply hInv.refills (RestSeg.refills_evict hInv.rooted
        hPage hLacks hHolds hFilled hReplaces.geometry
        hReplaces.sets hRadix) hSynced hReplaces.tables
      intro page' app' hPage' hSet hHeld
      have hFree := hApart hForce
        (findEntry_eq_none_iff.mpr hLacks)
        (findFreeWay_of_full hFull) way hVictim
      unfold RestSeg.Resident at hHeld
      rw [hSet] at hHeld
      rcases matchesEntry_iff.mp hHeld.2 with
        ⟨_, hTag, hOwner⟩
      rw [hTag, hOwner, ← hSet, isCoalesced_eq,
        hInv.region_of_entry hPage', Nat.add_sub_cancel]
        at hFree
      simpa using hFree

/- A search in the tags keeps the invariant. -/
theorem Inv.inRestSeg
    (hInv : c.Inv)
    (address app : Nat) :
    (c.inRestSeg address app).2.Inv := by
  have hSynced := hInv.synced.inRestSeg address app
  unfold RestSegCoalesce.inRestSeg RestSeg.inRestSeg at hSynced ⊢
  simp only at hSynced ⊢
  split at hSynced
  · exact hInv
  · exact hInv.same rfl
      (RestSeg.same_update (same_touchEntry _ _)) hSynced rfl
      hInv.tables rfl rfl (fun _ _ => rfl)

------------------------------------------------------------
-- Coalescing
------------------------------------------------------------

/-
  The pages of the region are in different sets and in none
  of them yet.
-/
structure HasRoom
    (c : RestSegCoalesce)
    (address app : Nat) : Prop where
  spread : c.SpreadOver (alignedAddress address) (List.range 512)
  absent : ∀ x, SameRegion address x → c.lookupWay x app = none

/- A lookup of a region keeps the invariant. -/
theorem Inv.lookupCoalesced2MBWay
    (hInv : c.Inv)
    (regionStartVpn app : Nat) :
    (c.lookupCoalesced2MBWay regionStartVpn app).2.Inv :=
  hInv.same rfl (fun _ => Same.refl _)
    (hInv.synced.of_tables _) rfl
    (hInv.tables.lookupWay (regionStartVpn / 2 ^ 9) app) rfl rfl
    (fun _ _ => by
      simp [RestSegCoalesce.lookupCoalesced2MBWay])

@[simp] theorem toRestSeg_setCoalesced2MBWay
    (c : RestSegCoalesce)
    (regionStartVpn app way : Nat) :
    (c.setCoalesced2MBWay regionStartVpn app way).toRestSeg =
      c.toRestSeg := rfl

@[simp] theorem toRestSeg_coalesceRegion
    (c : RestSegCoalesce)
    (aligned app way : Nat) :
    (c.coalesceRegion aligned app way).toRestSeg =
      (c.insertPages aligned app way
        (List.range 512)).toRestSeg := by
  unfold coalesceRegion
  rw [toRestSeg_setCoalesced2MBWay]

theorem Synced.coalesceRegion
    (hSynced : c.Synced)
    (aligned app way : Nat) :
    (c.coalesceRegion aligned app way).Synced := by
  have hPages := hSynced.insertPages aligned app way
    (List.range 512)
  unfold RestSegCoalesce.coalesceRegion
  generalize c.insertPages aligned app way (List.range 512) =
    next at hPages ⊢
  exact hPages.of_tables _

/- An insertion of a page of 48 bits of address. -/
theorem rooted_insertsAt
    (hRooted : c.toRestSeg.Rooted)
    (hPage : c.InRange page)
    (hInserts : c.InsertsAt c' page app way) :
    c'.toRestSeg.Rooted := by
  have hCases := inserts_insertedAt c page app way
  have hReplaces := hInserts.replaces
  have hRadix := hInserts.radix
  have hSound : c'.radixWayTables.Sound :=
    hRadix ▸ hRooted.radix
  generalize c.insertedAt page app way = result at hCases hReplaces
  cases hCases with
  | hit _ hSame =>
      apply hRooted.same hReplaces.geometry _ hSound
        (by rw [hRadix]) (by rw [hRadix])
      rw [hReplaces.sets]
      exact RestSeg.same_update hSame
  | free hLacks _ hFilled =>
      exact hRooted.fill hPage hLacks hFilled
        hReplaces.geometry hReplaces.sets hSound
        (by rw [hRadix]) (by rw [hRadix])
  | evict hForce => exact absurd hForce (by decide)
  | fail _ =>
      apply hRooted.same hReplaces.geometry _ hSound
        (by rw [hRadix]) (by rw [hRadix])
      rw [hReplaces.sets]
      exact RestSeg.same_update (Same.refl _)

theorem page_address_lt
    (hAddress : address < 2 ^ 48)
    (hIndex : i < 512) :
    alignedAddress address + i * 4096 < 2 ^ 48 := by
  unfold alignedAddress
  omega

theorem rooted_insertPages
    (hRooted : c.toRestSeg.Rooted)
    (hAddress : address < 2 ^ 48)
    (app way : Nat) :
    (c.insertPages (alignedAddress address) app way
      (List.range 512)).toRestSeg.Rooted := by
  apply inv_insertPages
    (I := fun c => c.toRestSeg.Rooted) (alignedAddress address)
  · intro c₁ c₂ i hMem hOld hInserts
    exact rooted_insertsAt hOld
      (Geometry.vpn_lt c₁.geometry (page_address_lt hAddress
        (List.mem_range.mp hMem))) hInserts
  · exact hRooted

/- A page of a region that has room fills its way. -/
theorem HasRoom.filled
    (hRoom : c.HasRoom address app)
    (hSynced : c.Synced)
    (hFind : c.findCommonFreeWay
      (alignedAddress address / 2 ^ 12) = some way)
    (hIndex : i < 512) :
    (c.sets (c.geometry.setOf
      (c.pageAt (alignedAddress address) i))).Filled
        ((c.insertPages (alignedAddress address) app way
          (List.range 512)).sets (c.geometry.setOf
            (c.pageAt (alignedAddress address) i)))
        way (c.geometry.tagOf
          (c.pageAt (alignedAddress address) i)) (app + 1) := by
  rcases hSynced.free_of_findCommonFreeWay hFind hIndex with
    ⟨hWay, hFree⟩
  have hNone : (c.sets (c.geometry.setOf
      (c.pageAt (alignedAddress address) i))).findEntry
        (c.geometry.tagOf (c.pageAt (alignedAddress address)
          i)) (app + 1) = none :=
    hRoom.absent _ (sameRegion_page address hIndex).1
  rw [(sets_insertPages List.nodup_range hRoom.spread).1 i
    (List.mem_range.mpr hIndex)]
  rw [← hSynced.associativity (c.geometry.setOf
    (c.pageAt (alignedAddress address) i))] at hWay
  unfold insertedAt RestSegSet.tryInsertAtWay
  rw [hNone]
  simp only
  rw [if_pos (isWayFree_iff.mpr ⟨hWay, hFree⟩)]
  exact filled_fill hWay _ _ _

/- The pages in the tags after a region has been coalesced. -/
theorem HasRoom.resident_cases
    (hRoom : c.HasRoom address app)
    (hInv : c.Inv)
    (hAddress : address < 2 ^ 48)
    (hFind : c.findCommonFreeWay
      (alignedAddress address / 2 ^ 12) = some way)
    {page' way' app' : Nat}
    (hPage : c.InRange page')
    (hHeld : (c.coalesceRegion (alignedAddress address) app
      way).Resident page' way' app') :
    c.Resident page' way' app' ∨
      c.regionOf page' = address / 2 ^ 21 ∧ app' = app ∧
        way' = way := by
  unfold RestSeg.Resident at hHeld ⊢
  rw [geometry_coalesceRegion, sets_coalesceRegion] at hHeld
  by_cases hShared : ∃ i < 512, c.geometry.setOf page' =
      c.geometry.setOf (c.pageAt (alignedAddress address) i)
  · rcases hShared with ⟨i, hIndex, hSet⟩
    have hFilled := hRoom.filled hInv.synced hFind hIndex
    rw [hSet] at hHeld ⊢
    rw [hFilled.holds] at hHeld
    split_ifs at hHeld with hWay
    · right
      have hOwn : c.InRange (c.pageAt (alignedAddress address) i) :=
        Geometry.vpn_lt c.geometry (page_address_lt hAddress hIndex)
      have hSame := hInv.rooted.fit.eq_of_tagOf_setOf hOwn
        hPage hHeld.1 hSet
      refine ⟨?_, by omega, hWay⟩
      rw [hSame]
      unfold pageAt
      rw [hInv.regionOf_vpn]
      exact (sameRegion_page address hIndex).1
    · exact Or.inl hHeld
  · left
    have hOther : ∀ i ∈ List.range 512,
        c.geometry.setOf page' ≠ c.geometry.setOf
          (c.pageAt (alignedAddress address) i) :=
      fun i hMem hEq =>
        hShared ⟨i, List.mem_range.mp hMem, hEq⟩
    rw [(sets_insertPages List.nodup_range hRoom.spread).2 _
      hOther] at hHeld
    exact hHeld

/- A page that was in the tags is in them still. -/
theorem resident_coalesceRegion
    {page' way' app' : Nat}
    (aligned : Nat)
    (hHeld : c.Resident page' way' app') :
    (c.coalesceRegion aligned app way).Resident page' way'
      app' := by
  unfold RestSeg.Resident at hHeld ⊢
  rw [geometry_coalesceRegion, sets_coalesceRegion]
  exact holds_insertPages hHeld (List.range 512)

/- A common way is read back from the table of regions. -/
theorem Inv.way_mod
    (hInv : c.Inv)
    (hWay : way < c.geometry.associativity) :
    way % 2 ^ wayBitsOf c.radixWayTables2mb.associativity =
      way := by
  rw [hInv.tablesWays]
  exact Nat.mod_eq_of_lt (lt_of_lt_of_le hWay hInv.rooted.fit.ways)

theorem Inv.way_coalesceRegion
    (hInv : c.Inv)
    (hAddress : address < 2 ^ 48)
    (hWay : way < c.geometry.associativity)
    {region : Nat}
    (hRegion : region < 2 ^ 27)
    (app app' : Nat) :
    (c.coalesceRegion (alignedAddress address) app
        way).radixWayTables2mb.way app' region =
      if app' = app ∧ region = address / 2 ^ 21 then
        some way
      else
        c.radixWayTables2mb.way app' region := by
  rw [tables_coalesceRegion,
    RadixWayTableManager.way_setMapping hInv.tables
      (by rw [hInv.tablesSize]; omega)
      (by rw [hInv.tablesSize]; exact hRegion),
    hInv.way_mod hWay]

/- Coalescing a region that has room keeps the invariant. -/
theorem Inv.coalesceRegion
    (hInv : c.Inv)
    (hSize : c.geometry.pageSizeBits = 12)
    (hAddress : address < 2 ^ 48)
    (hNone : c.radixWayTables2mb.way app (address / 2 ^ 21) = none)
    (hFind : c.findCommonFreeWay
      (alignedAddress address / 2 ^ 12) = some way)
    (hRoom : c.HasRoom address app) :
    (c.coalesceRegion (alignedAddress address) app way).Inv := by
  have hWay := (hInv.synced.free_of_findCommonFreeWay hFind
    (by decide : 0 < 512)).1
  have hSynced := hInv.synced.coalesceRegion
    (alignedAddress address) app way
  have hRooted := rooted_insertPages hInv.rooted hAddress app way
  rw [← toRestSeg_coalesceRegion] at hRooted
  have hRadix : (c.coalesceRegion (alignedAddress address) app
      way).radixWayTables = c.radixWayTables := by
    rw [toRestSeg_coalesceRegion]
    exact (kept_insertPages c _ app way _).2.1
  have hGeometry := geometry_coalesceRegion c
    (alignedAddress address) app way
  have hTables := tables_coalesceRegion c address app way
  have hWays := fun region (hRegion : region < 2 ^ 27) app' =>
    hInv.way_coalesceRegion hAddress hWay hRegion app app'
  have hKept := fun page' way' app' =>
    @resident_coalesceRegion c app way page' way' app'
      (alignedAddress address)
  have hCases := fun page' way' app' =>
    @HasRoom.resident_cases c address app way hRoom hInv
      hAddress hFind page' way' app'
  -- the pages of the region are in the way
  have hNew : ∀ i < 512, (c.coalesceRegion
      (alignedAddress address) app way).Resident
        (512 * (address / 2 ^ 21) + i) way app := by
    intro i hIndex
    have hFilled := hRoom.filled hInv.synced hFind hIndex
    unfold RestSeg.Resident
    rw [hGeometry, sets_coalesceRegion,
      ← pageAt_alignedAddress hSize, hFilled.holds,
      if_pos rfl]
    exact ⟨rfl, rfl⟩
  generalize c.coalesceRegion (alignedAddress address) app
    way = next at *
  refine ⟨hRooted, hSynced, ?_, ?_, ?_, ?_, ?_, ?_, ?_⟩
  · rw [hGeometry]
    exact hInv.size
  · rw [hTables]
    exact hInv.tables.setMapping _ _ _
  · rw [hTables]
    exact hInv.tablesSize
  · rw [hTables, hGeometry]
    exact hInv.tablesWays
  · intro page' app' way' hPage hFine
    unfold InRange at hPage
    rw [hGeometry] at hPage
    rw [hRadix] at hFine
    exact hKept _ _ _ (hInv.fine page' app' way' hPage hFine)
  · intro region app' way' hRegion hCoarse
    rw [hGeometry]
    rw [hWays region hRegion] at hCoarse
    split_ifs at hCoarse with hSame
    · rw [Option.some.injEq] at hCoarse
      rw [hSame.1, hSame.2, ← hCoarse]
      exact ⟨hSize, hNew⟩
    · rcases hInv.coarse region app' way' hRegion hCoarse with
        ⟨_, hAll⟩
      exact ⟨hSize, fun i hIndex => hKept _ _ _ (hAll i hIndex)⟩
  · intro page' app' way' hPage hHeld
    unfold InRange at hPage
    rw [hGeometry] at hPage
    have hRegion : next.regionOf page' = c.regionOf page' := by
      unfold regionOf
      rw [hGeometry]
    rw [hRadix, hRegion, hWays _ (regionOf_lt hPage)]
    rcases hCases page' way' app' hPage hHeld with
      hOld | ⟨hSame, hApp, hEq⟩
    · rcases hInv.found page' app' way' hPage hOld with
        hFine | hCoarse
      · exact Or.inl hFine
      · right
        rw [if_neg]
        · exact hCoarse
        · rintro ⟨rfl, hEq⟩
          rw [hEq, hNone] at hCoarse
          exact absurd hCoarse (by simp)
    · right
      rw [if_pos ⟨hApp, hSame⟩, hEq]

/-
  Level 0 of an allocation keeps the invariant, if a region
  that it coalesces has room.
-/
theorem Inv.coalesce
    (hInv : c.Inv)
    (hSize : c.geometry.pageSizeBits = 12)
    (hAddress : address < 2 ^ 48)
    (hRoom :
      c.isCoalesced address app = false →
      (c.findCommonFreeWay
        (alignedAddress address / 2 ^ 12)).isSome = true →
        c.HasRoom address app) :
    (c.coalesce address app).2.Inv := by
  have hCoalesces := coalesces_coalesce c address app
  rw [isCoalesced_eq] at hRoom
  generalize c.coalesce address app = result at hCoalesces ⊢
  cases hCoalesces with
  | found _ => exact hInv.lookupCoalesced2MBWay _ app
  | refused _ _ => exact hInv.lookupCoalesced2MBWay _ app
  | @coalesced way hNone hFind =>
      have hRoomHere := hRoom (by rw [hNone]; rfl)
        (by rw [hFind]; rfl)
      have hLooked := hInv.lookupCoalesced2MBWay
        (alignedAddress address / 2 ^ 12) app
      have hSame := sameWays_lookupCoalesced2MBWay c
        (alignedAddress address / 2 ^ 12) app
      have hFree := findCommonFreeWay_lookup c
        (alignedAddress address / 2 ^ 12) app
        (alignedAddress address / 2 ^ 12)
      have hTags : (c.lookupCoalesced2MBWay
          (alignedAddress address / 2 ^ 12)
            app).2.toRestSeg = c.toRestSeg := rfl
      generalize (c.lookupCoalesced2MBWay
        (alignedAddress address / 2 ^ 12) app).2 = looked
        at hLooked hSame hFree hTags ⊢
      apply hLooked.coalesceRegion
      · rw [hTags]
        exact hSize
      · exact hAddress
      · rw [hSame.tables]
        exact hNone
      · exact hFree.trans hFind
      · refine ⟨?_, ?_⟩
        · unfold SpreadOver pageAt
          rw [hTags]
          exact hRoomHere.spread
        · rw [hTags]
          exact hRoomHere.absent

end RestSegCoalesce

end Utopia

end Virtuoso
