import Mathlib.Data.Nat.Bitwise
import Virtuoso.Lib.Run
import Virtuoso.Utopia.RadixWayTable
import Virtuoso.Utopia.RestSegSet

/-
  The restricted segment of `utopia.h`: sets of tagged ways,
  shared by all applications, and for each application the
  radix way table.

  Addresses and page numbers are natural numbers, reduced
  where the source computes with fixed widths. The free
  fraction of a way is compared with 0.10 in the source; as
  both counts are below 2^32 this is the comparison of ten
  times the count with the number of sets. Statistics, the
  log and the locks are left out, and so is the core that a
  lookup is counted for.

  Key definitions include:
    * `Utopia.Geometry`
    * `Utopia.RestSeg.step`
-/

namespace Virtuoso

namespace Utopia

/- The table `crc8_table`. -/
def crc8Table : List (BitVec 8) :=
  [0x00, 0x07, 0x0E, 0x09, 0x1C, 0x1B, 0x12, 0x15,
   0x38, 0x3F, 0x36, 0x31, 0x24, 0x23, 0x2A, 0x2D,
   0x70, 0x77, 0x7E, 0x79, 0x6C, 0x6B, 0x62, 0x65,
   0x48, 0x4F, 0x46, 0x41, 0x54, 0x53, 0x5A, 0x5D,
   0xE0, 0xE7, 0xEE, 0xE9, 0xFC, 0xFB, 0xF2, 0xF5,
   0xD8, 0xDF, 0xD6, 0xD1, 0xC4, 0xC3, 0xCA, 0xCD,
   0x90, 0x97, 0x9E, 0x99, 0x8C, 0x8B, 0x82, 0x85,
   0xA8, 0xAF, 0xA6, 0xA1, 0xB4, 0xB3, 0xBA, 0xBD,
   0xC7, 0xC0, 0xC9, 0xCE, 0xDB, 0xDC, 0xD5, 0xD2,
   0xFF, 0xF8, 0xF1, 0xF6, 0xE3, 0xE4, 0xED, 0xEA,
   0xB7, 0xB0, 0xB9, 0xBE, 0xAB, 0xAC, 0xA5, 0xA2,
   0x8F, 0x88, 0x81, 0x86, 0x93, 0x94, 0x9D, 0x9A,
   0x27, 0x20, 0x29, 0x2E, 0x3B, 0x3C, 0x35, 0x32,
   0x1F, 0x18, 0x11, 0x16, 0x03, 0x04, 0x0D, 0x0A,
   0x57, 0x50, 0x59, 0x5E, 0x4B, 0x4C, 0x45, 0x42,
   0x6F, 0x68, 0x61, 0x66, 0x73, 0x74, 0x7D, 0x7A,
   0x89, 0x8E, 0x87, 0x80, 0x95, 0x92, 0x9B, 0x9C,
   0xB1, 0xB6, 0xBF, 0xB8, 0xAD, 0xAA, 0xA3, 0xA4,
   0xF9, 0xFE, 0xF7, 0xF0, 0xE5, 0xE2, 0xEB, 0xEC,
   0xC1, 0xC6, 0xCF, 0xC8, 0xDD, 0xDA, 0xD3, 0xD4,
   0x69, 0x6E, 0x67, 0x60, 0x75, 0x72, 0x7B, 0x7C,
   0x51, 0x56, 0x5F, 0x58, 0x4D, 0x4A, 0x43, 0x44,
   0x19, 0x1E, 0x17, 0x10, 0x05, 0x02, 0x0B, 0x0C,
   0x21, 0x26, 0x2F, 0x28, 0x3D, 0x3A, 0x33, 0x34,
   0x4E, 0x49, 0x40, 0x47, 0x52, 0x55, 0x5C, 0x5B,
   0x76, 0x71, 0x78, 0x7F, 0x6A, 0x6D, 0x64, 0x63,
   0x3E, 0x39, 0x30, 0x37, 0x22, 0x25, 0x2C, 0x2B,
   0x06, 0x01, 0x08, 0x0F, 0x1A, 0x1D, 0x14, 0x13,
   0xAE, 0xA9, 0xA0, 0xA7, 0xB2, 0xB5, 0xBC, 0xBB,
   0x96, 0x91, 0x98, 0x9F, 0x8A, 0x8D, 0x84, 0x83,
   0xDE, 0xD9, 0xD0, 0xD7, 0xC2, 0xC5, 0xCC, 0xCB,
   0xE6, 0xE1, 0xE8, 0xEF, 0xFA, 0xFD, 0xF4, 0xF3]

/-
  The loop of `computeFingerprint`, which stops after the
  last byte of the tag that is not zero.
-/
def crcLoop :
    Nat → Nat → BitVec 8 → BitVec 8
| 0, _, crc => crc
| i + 1, tag, crc =>
    if tag = 0 then
      crc
    else
      crcLoop i (tag / 256)
        (crc8Table.getD (crc ^^^ BitVec.ofNat 8 tag).toNat 0)

/- `computeFingerprint`. -/
def computeFingerprint (tag numBits : Nat) : BitVec 8 :=
  crcLoop 8 tag 0 &&& BitVec.ofNat 8 (2 ^ numBits - 1)

/- The members of a segment that its constructor sets. -/
structure Geometry where
  pageSizeBits : Nat
  associativity : Nat
  numSets : Nat
  basePhysicalAddress : Nat
  fingerprintBits : Nat
deriving DecidableEq

namespace Geometry

/- The number of a page of the segment's page size. -/
def vpn (g : Geometry) (address : Nat) : Nat :=
  address / 2 ^ g.pageSizeBits

/- The tag of a page. -/
def tagOf (g : Geometry) (page : Nat) : Nat :=
  page / g.numSets

/- The index of a page, mixed with its tag. -/
def fold (g : Geometry) (page : Nat) : Nat :=
  (page % g.numSets) ^^^ (g.tagOf page % 2 ^ 32 % g.numSets)

/- The set of a page. -/
def setOf (g : Geometry) (page : Nat) : Nat :=
  g.fold page % g.numSets

/- `RestSeg::splitAddress`: the tag and the set index. -/
def splitAddress
    (g : Geometry)
    (address : Nat) :
    Nat × Nat :=
  (g.tagOf (g.vpn address), g.setOf (g.vpn address))

/- The page number that `reconstructAddress` computes. -/
def reconstructPage
    (g : Geometry)
    (tag setIndex : Nat) : Nat :=
  let rawIndex :=
    (setIndex ^^^ (tag % 2 ^ 32 % g.numSets)) % g.numSets
  (tag * g.numSets + rawIndex) % 2 ^ 64

/- `RestSeg::reconstructAddress`. -/
def reconstructAddress
    (g : Geometry)
    (tag setIndex : Nat) : Nat :=
  g.reconstructPage tag setIndex * 2 ^ g.pageSizeBits % 2 ^ 64

/- An address rounded down to its page. -/
def pageAligned (g : Geometry) (address : Nat) : Nat :=
  g.vpn address * 2 ^ g.pageSizeBits

/- The split of an address is undone. -/
def Reversible (g : Geometry) (address : Nat) : Prop :=
  g.reconstructAddress (g.splitAddress address).1
    (g.splitAddress address).2 = g.pageAligned address

instance
    (g : Geometry)
    (address : Nat) :
    Decidable (g.Reversible address) :=
  inferInstanceAs (Decidable (_ = _))

/- The addresses that `verifyIndexingLogic` tries. -/
def testVas (g : Geometry) : List Nat :=
  [0x12345678000, 0xABCDE000, 0x0, 0x7FFFFFFFFFFF000,
    2 ^ g.pageSizeBits * g.numSets % 2 ^ 64,
    2 ^ g.pageSizeBits * ((g.numSets + 1) % 2 ^ 32) % 2 ^ 64]

/- `RestSeg::verifyIndexingLogic` does not throw. -/
def verifyIndexingLogic (g : Geometry) : Bool :=
  decide (∀ va ∈ g.testVas, g.Reversible va)

/- `RestSeg::calculatePPNFromWay`. -/
def calculatePPNFromWay
    (g : Geometry)
    (address way : Nat) : Nat :=
  let setIndex := (g.splitAddress address).2
  let factor := 2 ^ (g.pageSizeBits - 12)
  (g.basePhysicalAddress +
    (setIndex * g.associativity + way) * factor % 2 ^ 32) % 2 ^ 64

end Geometry

/- The preferred way of a region, and its failures. -/
structure RegionWayPref where
  way : Option Nat
  failures : Nat
deriving DecidableEq

/- A segment, with its hints and its way tables. -/
structure RestSeg where
  geometry : Geometry
  sets : Nat → RestSegSet
  regionWayPref : Nat → Option RegionWayPref
  freeSetsPerWay : Nat → Nat
  globalWay : Nat
  rotateCooldown : Nat
  radixWayTables : RadixWayTableManager

/-
  What an allocation returns: a failure, a page without an
  eviction, or a page in the place of the page at an
  address.
-/
inductive Allocation
  | failed
  | placed
  | evicted (address : Nat)
deriving DecidableEq

namespace RestSeg

/- `RLE_REGION_BITS`. -/
def rleRegionBits : Nat := 18

/- `REGION_PREF_FAILURE_THRESHOLD`. -/
def regionPrefFailureThreshold : Nat := 32

/- The member `rotate_cooldown_max`. -/
def rotateCooldownMax : Nat := 1024

/- The number of sets that the constructor computes. -/
def numSetsOf
    (sizeMb pageSizeBits associativity : Nat) : Nat :=
  let sizeBytes := sizeMb * 2 ^ 20 % 2 ^ 64
  sizeBytes / (associativity * 2 ^ pageSizeBits % 2 ^ 64) % 2 ^ 32

/- A segment with all ways free. -/
def fresh (g : Geometry) : RestSeg :=
  { geometry := g
    sets := fun _ => RestSegSet.construct g.associativity
    regionWayPref := fun _ => none
    freeSetsPerWay := fun _ => g.numSets
    globalWay := 0
    rotateCooldown := 0
    radixWayTables := RadixWayTableManager.construct
      g.pageSizeBits g.associativity }

/-
  `RestSeg::RestSeg`, with the base address that is set after
  it. Without a set the check divides by zero.
-/
def construct
    (sizeMb pageSizeBits associativity base fingerprintBits : Nat) :
    Option RestSeg :=
  let g : Geometry :=
    ⟨pageSizeBits, associativity,
      numSetsOf sizeMb pageSizeBits associativity, base,
      fingerprintBits⟩
  if 0 < g.numSets ∧ g.verifyIndexingLogic then
    some (fresh g)
  else
    none

/- The region preferred way, which only 4KB pages have. -/
def regionPrefWay
    (r : RestSeg)
    (regionId : Nat) :
    Option Nat :=
  if r.geometry.pageSizeBits = 12 then
    (r.regionWayPref regionId).bind RegionWayPref.way
  else
    none

/- Priority 1 of step B: the region preferred way. -/
def tryRegionPref
    (set : RestSegSet)
    (tag owner : Nat)
    (fingerprint : BitVec 8)
    (pref : Option Nat) :
    Insertion × RestSegSet :=
  match pref with
  | none => (.fail, set)
  | some way => set.tryInsertAtWay tag owner fingerprint way

/- Priority 2 of step B: the global way, if it is another. -/
def tryPreferred
    (r : RestSeg)
    (set : RestSegSet)
    (tag owner : Nat)
    (fingerprint : BitVec 8)
    (pref : Option Nat) :
    Insertion × RestSegSet :=
  let result := tryRegionPref set tag owner fingerprint pref
  if result.1 = .fail ∧ pref ≠ some r.globalWay then
    result.2.tryInsertAtWay tag owner fingerprint r.globalWay
  else
    result

/- Step B of `RestSeg::allocate`, on a set. -/
def place
    (r : RestSeg)
    (set : RestSegSet)
    (tag owner : Nat)
    (fingerprint : BitVec 8)
    (pref : Option Nat)
    (forceEvict : Bool) :
    Insertion × RestSegSet :=
  let result := r.tryPreferred set tag owner fingerprint pref
  if result.1 = .fail then
    result.2.insert tag owner fingerprint forceEvict none
  else
    result

/- The member `success_from_region_pref`. -/
def fromRegionPref
    (set : RestSegSet)
    (tag owner : Nat)
    (fingerprint : BitVec 8)
    (pref : Option Nat) : Bool :=
  decide ((tryRegionPref set tag owner fingerprint pref).1 ≠ .fail)

/- A preferred way is forgotten after enough failures. -/
def noteFailure (pref : RegionWayPref) : RegionWayPref :=
  if regionPrefFailureThreshold ≤ pref.failures + 1 then
    ⟨none, 0⟩
  else
    ⟨pref.way, pref.failures + 1⟩

/- One turn of the loop of `maybeRotateGlobalWay`. -/
def rotateStep
    (r : RestSeg)
    (best : Nat × Nat)
    (w : Nat) :
    Nat × Nat :=
  if best.2 < r.freeSetsPerWay w then
    (w, r.freeSetsPerWay w)
  else if r.freeSetsPerWay w = best.2 ∧ w ≠ r.globalWay ∧
      w = (r.globalWay + 1) % r.geometry.associativity then
    (w, best.2)
  else
    best

/- `RestSeg::maybeRotateGlobalWay`. -/
def maybeRotateGlobalWay (r : RestSeg) : RestSeg :=
  if 0 < r.rotateCooldown then
    { r with rotateCooldown := r.rotateCooldown - 1 }
  else if r.geometry.numSets ≤
      10 * r.freeSetsPerWay r.globalWay then
    r
  else
    let best :=
      ((List.range r.geometry.associativity).foldl
        r.rotateStep
        (r.globalWay, r.freeSetsPerWay r.globalWay)).1
    if best ≠ r.globalWay then
      { r with
        globalWay := best
        rotateCooldown := rotateCooldownMax }
    else
      r

/- Steps C to E of `RestSeg::allocate`, for a new page. -/
def noteAllocation
    (r : RestSeg)
    (regionId way : Nat)
    (usedFreeWay : Bool) : RestSeg :=
  let freeSetsPerWay :=
    if usedFreeWay ∧ way < r.geometry.associativity ∧
        0 < r.freeSetsPerWay way then
      Function.update r.freeSetsPerWay way
        (r.freeSetsPerWay way - 1)
    else
      r.freeSetsPerWay
  let regionWayPref :=
    if r.geometry.pageSizeBits = 12 then
      Function.update r.regionWayPref regionId (some ⟨some way, 0⟩)
    else
      r.regionWayPref
  maybeRotateGlobalWay
    { r with
      freeSetsPerWay := freeSetsPerWay
      regionWayPref := regionWayPref }

/- `RestSeg::allocate`. -/
def allocate
    (r : RestSeg)
    (address app : Nat)
    (forceEvict : Bool) :
    Allocation × RestSeg :=
  let g := r.geometry
  let tag := (g.splitAddress address).1
  let setIndex := (g.splitAddress address).2
  let vpn := g.vpn address
  let owner := app + 1
  let fp := computeFingerprint tag g.fingerprintBits
  let regionId := vpn / 2 ^ rleRegionBits
  let pref := r.regionPrefWay regionId
  let result :=
    r.place (r.sets setIndex) tag owner fp pref forceEvict
  let placed :=
    { r with
      sets := Function.update r.sets setIndex result.2
      regionWayPref :=
        if pref.isSome ∧ fromRegionPref (r.sets setIndex) tag
            owner fp pref = false then
          Function.update r.regionWayPref regionId
            ((r.regionWayPref regionId).map noteFailure)
        else
          r.regionWayPref }
  match result.1 with
  | .fail => (.failed, placed)
  | .hit _ => (.placed, placed)
  | .free way =>
      let noted := placed.noteAllocation regionId way true
      (.placed,
        { noted with
          radixWayTables :=
            noted.radixWayTables.setMapping vpn app way })
  | .evict way evictedTag evictedOwner =>
      let noted := placed.noteAllocation regionId way false
      let evictedAddr := g.reconstructAddress evictedTag setIndex
      let cleared := noted.radixWayTables.clearMapping
        (g.vpn evictedAddr) (evictedOwner - 1)
      (.evicted evictedAddr,
        { noted with
          radixWayTables := cleared.setMapping vpn app way })

/- `RestSeg::inRestSeg`. -/
def inRestSeg
    (r : RestSeg)
    (address app : Nat) :
    Bool × RestSeg :=
  let tag := (r.geometry.splitAddress address).1
  let setIndex := (r.geometry.splitAddress address).2
  let set := r.sets setIndex
  match set.findEntryWithFingerprintShadow tag (app + 1) with
  | none => (false, r)
  | some way =>
      (true,
        { r with
          sets := Function.update r.sets setIndex
            (set.touchEntry way) })

/- `RestSeg::lookupWay`. -/
def lookupWay
    (r : RestSeg)
    (address app : Nat) :
    Option Nat :=
  let tag := (r.geometry.splitAddress address).1
  let setIndex := (r.geometry.splitAddress address).2
  (r.sets setIndex).findEntry tag (app + 1)

/- `RestSeg::lookupWayRadix`. -/
def lookupWayRadix
    (r : RestSeg)
    (address app : Nat) :
    Option Nat × RestSeg :=
  let result := r.radixWayTables.lookupWay
    (r.geometry.vpn address) app
  (result.1, { r with radixWayTables := result.2 })

/- `RestSeg::calculatePhysicalAddress`, with `none` for -1. -/
def calculatePhysicalAddress
    (r : RestSeg)
    (address app : Nat) :
    Option Nat :=
  (r.lookupWay address app).map
    (r.geometry.calculatePPNFromWay address)

/-
  `RestSeg::touchWayLRU`. A negative way is not touched and
  is left out.
-/
def touchWayLRU
    (r : RestSeg)
    (address way : Nat) : RestSeg :=
  let setIndex := (r.geometry.splitAddress address).2
  { r with
    sets := Function.update r.sets setIndex
      ((r.sets setIndex).touchEntry way) }

/- A call of one of the operations. -/
inductive Op
  | allocate (address app : Nat) (forceEvict : Bool)
  | inRestSeg (address app : Nat)
  | lookupWay (address app : Nat)
  | lookupWayRadix (address app : Nat)
  | calculatePhysicalAddress (address app : Nat)
  | touchWayLRU (address way : Nat)
deriving DecidableEq

namespace Op

/- The virtual address of a call. -/
def address :
    Op → Nat
| allocate address _ _ => address
| inRestSeg address _ => address
| lookupWay address _ => address
| lookupWayRadix address _ => address
| calculatePhysicalAddress address _ => address
| touchWayLRU address _ => address

end Op

/- The segment after a call, which always returns. -/
def step (r : RestSeg) : Op → Option RestSeg
| .allocate address app forceEvict =>
    some (r.allocate address app forceEvict).2
| .inRestSeg address app =>
    some (r.inRestSeg address app).2
| .lookupWay _ _ => some r
| .lookupWayRadix address app =>
    some (r.lookupWayRadix address app).2
| .calculatePhysicalAddress _ _ => some r
| .touchWayLRU address way =>
    some (r.touchWayLRU address way)

end RestSeg

end Utopia

end Virtuoso
