import Virtuoso.Utopia.Allocator.Walk

/-
  The allocator of `utopia_hash_coalesce.h` and the walk of
  `mmu_utopia_coalesce.cc`.

  A segment has, besides what a segment of `utopia.h` has, a
  bitmap of the free ways of each set and a second radix way
  table, from 2MB regions to the way that all their pages
  share. Its other members and their code are the same, and
  a segment here extends the one there.

  As for the allocator of `utopia.h`, a configuration has
  one segment of each page size at most, and statistics, the
  log, the cost-based migration and the instruction
  allocations are left out. `clearCoalesced2MBWay` has no
  caller.

  Key definitions include:
    * `Utopia.RestSegCoalesce`
    * `Utopia.HashCoalesce.restSegWalk`
-/

------------------------------------------------------------
-- Segments
------------------------------------------------------------

namespace Virtuoso

namespace Utopia

/- A segment that also coalesces regions. -/
structure RestSegCoalesce extends RestSeg where
  setWayBitmap : Nat → BitVec 64
  radixWayTables2mb : RadixWayTableManager

/- The first address of the 2MB region of an address. -/
def alignedAddress (address : Nat) : Nat :=
  address / 2 ^ 21 * 2 ^ 21

namespace RestSegCoalesce

/- The ways that are free at first, as a mask. -/
def allFree (associativity : Nat) : BitVec 64 :=
  if 64 ≤ associativity then
    BitVec.allOnes 64
  else
    1#64 <<< associativity - 1#64

/- The members that a new segment has besides the others. -/
def ofRestSeg (r : RestSeg) : RestSegCoalesce :=
  { toRestSeg := r
    setWayBitmap := fun _ => allFree r.geometry.associativity
    radixWayTables2mb := RadixWayTableManager.construct 21
      r.geometry.associativity }

/- `RestSegCoalesce::RestSegCoalesce`. -/
def construct
    (sizeMb pageSizeBits associativity base fingerprintBits : Nat) :
    Option RestSegCoalesce :=
  (RestSeg.construct sizeMb pageSizeBits associativity base
    fingerprintBits).map ofRestSeg

/- `RestSegCoalesce::updateWayBitmap`. -/
def updateWayBitmap
    (c : RestSegCoalesce)
    (setIndex way : Nat)
    (isFree : Bool) : RestSegCoalesce :=
  if way < c.geometry.associativity ∧
      setIndex < c.geometry.numSets then
    { c with
      setWayBitmap := Function.update c.setWayBitmap setIndex
        (if isFree then
          c.setWayBitmap setIndex ||| 1#64 <<< way
        else
          c.setWayBitmap setIndex &&& ~~~(1#64 <<< way)) }
  else
    c

/- The set of a 4KB page, as `splitAddress` has it. -/
def setIndexOf
    (c : RestSegCoalesce)
    (address : Nat) : Nat :=
  (c.geometry.splitAddress address).2

/-
  The loop of `findCommonFreeWay`, over the pages left, and
  the lowest way of the mask after it.
-/
def commonFreeWayFrom
    (c : RestSegCoalesce)
    (startVpn : Nat) :
    List Nat → BitVec 64 → Option Nat
| [], mask => (List.range 64).find? mask.getLsbD
| i :: pages, mask =>
    let candidateMask :=
      mask &&& c.setWayBitmap
        (c.setIndexOf ((startVpn + i) * 2 ^ 12))
    if candidateMask = 0#64 then
      none
    else
      commonFreeWayFrom c startVpn pages candidateMask

/- `RestSegCoalesce::findCommonFreeWay`. -/
def findCommonFreeWay
    (c : RestSegCoalesce)
    (startVpn : Nat) :
    Option Nat :=
  c.commonFreeWayFrom startVpn (List.range 512)
    (allFree c.geometry.associativity)

/- `RestSegCoalesce::setCoalesced2MBWay`. -/
def setCoalesced2MBWay
    (c : RestSegCoalesce)
    (regionStartVpn app way : Nat) : RestSegCoalesce :=
  { c with
    radixWayTables2mb := c.radixWayTables2mb.setMapping
      (regionStartVpn / 2 ^ 9) app way }

/- `RestSegCoalesce::lookupCoalesced2MBWay`. -/
def lookupCoalesced2MBWay
    (c : RestSegCoalesce)
    (regionStartVpn app : Nat) :
    Option Nat × RestSegCoalesce :=
  let result := c.radixWayTables2mb.lookupWay
    (regionStartVpn / 2 ^ 9) app
  (result.1, { c with radixWayTables2mb := result.2 })

/- `RestSegCoalesce::lookupWayRadix`: the 2MB table first. -/
def lookupWayRadix
    (c : RestSegCoalesce)
    (address app : Nat) :
    Option Nat × RestSegCoalesce :=
  let coalesced :=
    c.radixWayTables2mb.lookupWay (address / 2 ^ 21) app
  let looked := { c with radixWayTables2mb := coalesced.2 }
  match coalesced.1 with
  | some way => (some way, looked)
  | none =>
      let result := c.toRestSeg.lookupWayRadix address app
      (result.1, { looked with toRestSeg := result.2 })

/- The insertion of `RestSeg::allocate` into a set. -/
def insertion
    (r : RestSeg)
    (address app : Nat)
    (forceEvict : Bool) : Insertion :=
  let tag := (r.geometry.splitAddress address).1
  (r.place (r.sets (r.geometry.splitAddress address).2) tag
    (app + 1)
    (computeFingerprint tag r.geometry.fingerprintBits)
    (r.regionPrefWay
      (r.geometry.vpn address / 2 ^ RestSeg.rleRegionBits))
    forceEvict).1

/-
  `RestSegCoalesce::allocate`, which differs from
  `RestSeg::allocate` in the bit of a free way that it takes.
-/
def allocate
    (c : RestSegCoalesce)
    (address app : Nat)
    (forceEvict : Bool) :
    Allocation × RestSegCoalesce :=
  let result := c.toRestSeg.allocate address app forceEvict
  let placed := { c with toRestSeg := result.2 }
  match insertion c.toRestSeg address app forceEvict with
  | .free way =>
      (result.1,
        placed.updateWayBitmap (c.setIndexOf address) way false)
  | _ => (result.1, placed)

/- `RestSegCoalesce::tryInsertAtWay`. -/
def tryInsertAtWay
    (c : RestSegCoalesce)
    (address app way : Nat)
    (updateRadix : Bool) :
    Bool × RestSegCoalesce :=
  let tag := (c.geometry.splitAddress address).1
  let setIndex := (c.geometry.splitAddress address).2
  let result := (c.sets setIndex).tryInsertAtWay tag (app + 1)
    (computeFingerprint tag c.geometry.fingerprintBits) way
  let placed :=
    { c with sets := Function.update c.sets setIndex result.2 }
  match result.1 with
  | .free used =>
      let marked := placed.updateWayBitmap setIndex used false
      let counted :=
        { marked with
          freeSetsPerWay :=
            if used < c.geometry.associativity ∧
                0 < c.freeSetsPerWay used then
              Function.update c.freeSetsPerWay used
                (c.freeSetsPerWay used - 1)
            else
              c.freeSetsPerWay }
      (true,
        if updateRadix then
          { counted with
            radixWayTables := c.radixWayTables.setMapping
              (c.geometry.vpn address) app used }
        else
          counted)
  | .hit _ => (true, placed)
  | _ => (false, c)

/- `RestSegCoalesce::inRestSeg`. -/
def inRestSeg
    (c : RestSegCoalesce)
    (address app : Nat) :
    Bool × RestSegCoalesce :=
  let result := c.toRestSeg.inRestSeg address app
  (result.1, { c with toRestSeg := result.2 })

/- `RestSegCoalesce::touchWayLRU`. -/
def touchWayLRU
    (c : RestSegCoalesce)
    (address way : Nat) : RestSegCoalesce :=
  { c with toRestSeg := c.toRestSeg.touchWayLRU address way }

------------------------------------------------------------
-- The Allocator And Its Runs
------------------------------------------------------------

/- The loop that places pages of a region into a way. -/
def insertPages
    (c : RestSegCoalesce)
    (aligned app way : Nat)
    (pages : List Nat) : RestSegCoalesce :=
  pages.foldl
    (fun c i =>
      (c.tryInsertAtWay (aligned + i * 4096) app way false).2)
    c

/-
  Place the 512 pages of a region into a way, and record the
  way. The outcomes of the insertions are not looked at.
-/
def coalesceRegion
    (c : RestSegCoalesce)
    (aligned app way : Nat) : RestSegCoalesce :=
  (c.insertPages aligned app way
    (List.range 512)).setCoalesced2MBWay (aligned / 2 ^ 12) app way

/-
  Level 0 of `allocate` on its segment: whether the region of
  the address had been coalesced or now is.
-/
def coalesce
    (c : RestSegCoalesce)
    (address app : Nat) :
    Bool × RestSegCoalesce :=
  let aligned := alignedAddress address
  match c.lookupCoalesced2MBWay (aligned / 2 ^ 12) app with
  | (some _, c') => (true, c')
  | (none, c') =>
      match c'.findCommonFreeWay (aligned / 2 ^ 12) with
      | none => (false, c')
      | some way => (true, c'.coalesceRegion aligned app way)

/-
  The lambda `accessRestSegDualRadix`: the page size and the
  page number at a hit.
-/
def accessRestSegDualRadix
    (c : RestSegCoalesce)
    (address app : Nat) :
    Option (Nat × Nat) × RestSegCoalesce :=
  match c.lookupCoalesced2MBWay
      (alignedAddress address / 2 ^ 12) app with
  | (some way, c') =>
      (some (21, c'.geometry.calculatePPNFromWay address way),
        c'.touchWayLRU address way)
  | (none, c') =>
      match c'.lookupWayRadix address app with
      | (some way, c'') =>
          (some (c''.geometry.pageSizeBits,
              c''.geometry.calculatePPNFromWay address way),
            c''.touchWayLRU address way)
      | (none, c'') => (none, c'')

end RestSegCoalesce

/- The allocator with coalescing segments. -/
structure HashCoalesce where
  buddy : Buddy
  restSegs : PageSize → Option RestSegCoalesce
  order : List PageSize
  thpRegions : TwoMbMap
  thpPromotionThreshold : Nat
  lastInRestSeg : Bool
  lastCausedEviction : Bool
  lastEvictedAddress : Nat
  lastEvictedPageSizeBits : Nat

namespace HashCoalesce

/- Replace the segment of a page size. -/
def setRestSeg
    (a : HashCoalesce)
    (size : PageSize)
    (c : RestSegCoalesce) : HashCoalesce :=
  { a with
    restSegs := Function.update a.restSegs size (some c) }

/- Forget the last allocation. -/
def resetLast
    (a : HashCoalesce)
    (inRestSeg : Bool) : HashCoalesce :=
  { a with
    lastInRestSeg := inRestSeg
    lastCausedEviction := false
    lastEvictedAddress := 0 }

/- Add a segment of a configuration. -/
def addRestSeg
    (fingerprintBits : Nat)
    (config : RestSegConfig)
    (a : HashCoalesce) :
    Option HashCoalesce :=
  (RestSegCoalesce.construct config.sizeMb
    config.pageSize.bits config.assoc config.base
    fingerprintBits).map
    (fun c =>
      { a.setRestSeg config.pageSize c with
        order := a.order ++ [config.pageSize] })

/- The loop of the constructor over the segments. -/
def addRestSegs
    (fingerprintBits : Nat) :
    List RestSegConfig → HashCoalesce → Option HashCoalesce
| [], a => some a
| config :: configs, a =>
    (addRestSeg fingerprintBits config a).bind
      (addRestSegs fingerprintBits configs)

/- `UtopiaHashCoalesce::UtopiaHashCoalesce`. -/
def construct
    (buddy : Buddy)
    (configs : List RestSegConfig)
    (fingerprintBits : Nat)
    (thpPromotionThreshold : Int) :
    Option HashCoalesce :=
  addRestSegs fingerprintBits configs
    { buddy := buddy
      restSegs := fun _ => none
      order := []
      thpRegions := []
      thpPromotionThreshold :=
        Allocator.thresholdOf thpPromotionThreshold
      lastInRestSeg := false
      lastCausedEviction := false
      lastEvictedAddress := 0
      lastEvictedPageSizeBits := 12 }

/- Use a page of a region that is or becomes tracked. -/
def useTracked
    (a : HashCoalesce)
    (address : Nat)
    (region : Region) :
    (Nat × Bool) × HashCoalesce :=
  let result := Allocator.useRegion a.thpPromotionThreshold
    region (address / 2 ^ 12 % 512)
  (result.1,
    { a with
      thpRegions := (address / 2 ^ 21, result.2) ::
        TwoMbMap.erase a.thpRegions (address / 2 ^ 21) })

/- `UtopiaHashCoalesce::tryAllocateTHP`. -/
def tryAllocateTHP
    (a : HashCoalesce)
    (address : Nat) :
    Option (Option (Nat × Bool) × HashCoalesce) :=
  match a.thpRegions.lookup (address / 2 ^ 21) with
  | some region =>
      let result := a.useTracked address region
      some (some result.1, result.2)
  | none =>
      match a.buddy.reserve2mbPage with
      | none => none
      | some (none, b) => some (none, { a with buddy := b })
      | some (some block, b) =>
          let result := { a with buddy := b }.useTracked address
            ⟨block.start, fun _ => false, false⟩
          some (some result.1, result.2)

/- The region of an address is in `thp_regions`. -/
def isTracked (a : HashCoalesce) (address : Nat) : Bool :=
  (a.thpRegions.lookup (address / 2 ^ 21)).isSome

/- Levels 1 and 3 of `allocate`: a free way of a segment. -/
def tryRestSeg
    (a : HashCoalesce)
    (size : PageSize)
    (address core : Nat) :
    Bool × HashCoalesce :=
  match a.restSegs size with
  | none => (false, a)
  | some c =>
      match c.allocate address core false with
      | (.failed, c') => (false, a.setRestSeg size c')
      | (_, c') => (true, (a.setRestSeg size c').resetLast true)

/- The physical page in the segment of a page size. -/
def restSegPpn
    (a : HashCoalesce)
    (size : PageSize)
    (address app : Nat) :
    Option Nat :=
  (a.restSegs size).bind
    (fun c => c.calculatePhysicalAddress address app)

/- Level 4 of `allocate`. -/
def fromBuddy
    (a : HashCoalesce)
    (bytes : Nat) :
    Option ((Option Nat × PageSize) × HashCoalesce) :=
  (a.buddy.allocate bytes).map
    (fun r => ((r.1, .fourKb), { a with buddy := r.2 }))

/- Levels 3 and 4 of `allocate`. -/
def allocateSmall
    (a : HashCoalesce)
    (bytes address core : Nat) :
    Option ((Option Nat × PageSize) × HashCoalesce) :=
  match a.tryRestSeg .fourKb address core with
  | (true, a') =>
      some ((a'.restSegPpn .fourKb address core, .fourKb), a')
  | (false, a') => (a'.resetLast false).fromBuddy bytes

/- Levels 1 to 4 of `allocate`. -/
def allocateUncoalesced
    (a : HashCoalesce)
    (bytes address core : Nat) :
    Option ((Option Nat × PageSize) × HashCoalesce) :=
  match a.tryRestSeg .twoMb address core with
  | (true, a') =>
      some ((a'.restSegPpn .twoMb address core, .twoMb), a')
  | (false, a') =>
      match a'.tryAllocateTHP address with
      | none => none
      | some (some (ppn, promoted), a'') =>
          some ((some ppn,
              if promoted then .twoMb else .fourKb),
            a''.resetLast false)
      | some (none, a'') =>
          a''.allocateSmall bytes address core

/- Level 0 of `allocate`, for requests of 4KB. -/
def tryCoalesce
    (a : HashCoalesce)
    (bytes address core : Nat) :
    Bool × HashCoalesce :=
  if bytes = 4096 then
    match a.restSegs .fourKb with
    | none => (false, a)
    | some c =>
        match c.coalesce address core with
        | (false, c') => (false, a.setRestSeg .fourKb c')
        | (true, c') =>
            (true, (a.setRestSeg .fourKb c').resetLast true)
  else
    (false, a)

/-
  `UtopiaHashCoalesce::allocate`: the physical page and the
  page size.
-/
def allocate
    (a : HashCoalesce)
    (bytes address core : Nat)
    (isPagetableAllocation : Bool) :
    Option ((Option Nat × PageSize) × HashCoalesce) :=
  if isPagetableAllocation then
    a.fromBuddy bytes
  else
    match a.tryCoalesce bytes address core with
    | (true, a') =>
        some ((a'.restSegPpn .fourKb (alignedAddress address)
          core, .twoMb), a')
    | (false, a') => a'.allocateUncoalesced bytes address core

/- The loop of `isInRestSeg`, over the segments left. -/
def isInRestSegFrom
    (address app : Nat) :
    List PageSize → HashCoalesce → Bool × HashCoalesce
| [], a => (false, a)
| size :: sizes, a =>
    match a.restSegs size with
    | none => isInRestSegFrom address app sizes a
    | some c =>
        match c.inRestSeg address app with
        | (true, c') => (true, a.setRestSeg size c')
        | (false, _) => isInRestSegFrom address app sizes a

/- `UtopiaHashCoalesce::isInRestSeg`. -/
def isInRestSeg
    (a : HashCoalesce)
    (address app : Nat) :
    Bool × HashCoalesce :=
  isInRestSegFrom address app a.order a

/- Record the eviction that an allocation made. -/
def noteEviction
    (a : HashCoalesce)
    (size : PageSize) :
    Allocation → HashCoalesce
| .evicted address =>
    { a with
      lastCausedEviction := true
      lastEvictedAddress := address
      lastEvictedPageSizeBits := size.bits }
| _ => a

/- Forget the last eviction. -/
def resetEviction (a : HashCoalesce) : HashCoalesce :=
  { a with
    lastCausedEviction := false
    lastEvictedAddress := 0
    lastEvictedPageSizeBits := 12 }

/- The body of the loop of `migratePage`. -/
def migrateTo
    (a : HashCoalesce)
    (size : PageSize)
    (c : RestSegCoalesce)
    (address oldPpn app : Nat) :
    Option Nat × HashCoalesce :=
  match c.allocate address app true with
  | (.failed, c') => (none, a.setRestSeg size c')
  | (result, c') =>
      let moved := (a.setRestSeg size c').noteEviction size
        result
      (some ((c'.calculatePhysicalAddress address app).getD
          invalidPpn),
        { moved with
          buddy := moved.buddy.free oldPpn oldPpn })

/-
  `UtopiaHashCoalesce::migratePage`: the new physical page,
  or nothing where the source returns 0 without a migration.
-/
def migratePage
    (a : HashCoalesce)
    (address oldPpn targetPageSizeBits app : Nat) :
    Option Nat × HashCoalesce :=
  match a.isInRestSeg address app with
  | (true, a') => (none, a')
  | (false, a') =>
      if a'.isTracked address then
        (none, a')
      else
        match a'.order.find? (fun size =>
            size.bits == targetPageSizeBits) with
        | none => (none, a'.resetEviction)
        | some size =>
            match a'.restSegs size with
            | none => (none, a'.resetEviction)
            | some c =>
                a'.resetEviction.migrateTo size c address oldPpn app

/- The access of a walk to the segment of a page size. -/
def accessDualRadix
    (a : HashCoalesce)
    (address app : Nat)
    (size : PageSize) :
    Option (Nat × Nat) × HashCoalesce :=
  match a.restSegs size with
  | none => (none, a)
  | some c =>
      let result := c.accessRestSegDualRadix address app
      (result.1, a.setRestSeg size result.2)

/- Segments one after the other, until one of them hits. -/
def accessInTurn
    (address app : Nat) :
    List PageSize → HashCoalesce → Option (Nat × Nat) × HashCoalesce
| [], a => (none, a)
| size :: sizes, a =>
    match a.accessDualRadix address app size with
    | (some hit, a') => (some hit, a')
    | (none, a') => accessInTurn address app sizes a'

/- All segments, of which the first one that hits counts. -/
def accessAll
    (address app : Nat) :
    List PageSize → HashCoalesce → Option (Nat × Nat) × HashCoalesce
| [], a => (none, a)
| size :: sizes, a =>
    let first := a.accessDualRadix address app size
    let rest := accessAll address app sizes first.2
    (first.1.or rest.1, rest.2)

/-
  The segments in the order of a walk. The first segment of
  a sequential walk depends on the hit rates and is given.
-/
def walkOrder
    (a : HashCoalesce)
    (firstRestSeg : Option Nat) :
    List PageSize :=
  match firstRestSeg with
  | some 1 => a.order.reverse
  | _ => a.order

/-
  `MemoryManagementUnitUtopiaCoalesce::RestSegWalk`: the page
  size in bits and the page number at a hit.
-/
def restSegWalk
    (a : HashCoalesce)
    (firstRestSeg : Option Nat)
    (address app : Nat) :
    Option (Nat × Nat) × HashCoalesce :=
  if a.order.length = 1 ∨ firstRestSeg.isSome then
    accessInTurn address app (a.walkOrder firstRestSeg) a
  else
    accessAll address app a.order a

/- A call of the allocator. -/
inductive Op
  | allocate (bytes address core : Nat)
      (isPagetableAllocation : Bool)
  | migratePage
      (address oldPpn targetPageSizeBits app : Nat)
deriving DecidableEq

namespace Op

/- The virtual address of a call. -/
def address :
    Op → Nat
| allocate _ address _ _ => address
| migratePage address _ _ _ => address

end Op

/-
  The allocator after a call, where the buddy allocator has
  a defined outcome.
-/
def step (a : HashCoalesce) : Op → Option HashCoalesce
| .allocate bytes address core isPagetableAllocation =>
    (a.allocate bytes address core
      isPagetableAllocation).map Prod.snd
| .migratePage address oldPpn targetPageSizeBits app =>
    some (a.migratePage address oldPpn targetPageSizeBits app).2

end HashCoalesce

end Utopia

end Virtuoso
