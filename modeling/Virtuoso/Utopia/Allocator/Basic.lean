import Virtuoso.PageTable.Basic
import Virtuoso.ReserveThp.Basic
import Virtuoso.Utopia.CostTopK
import Virtuoso.Utopia.RestSeg.Basic

/-
  The allocator of `utopia.h`: restricted segments in front
  of a buddy allocator that reserves 2MB regions.

  The segments are a partial function of the page size, for
  configurations with one of each page size at most; a second
  segment of a size is added in `Utopia.Paths`. `order` is
  the order of the vector `restsegs`. The threshold for
  promotions is a percentage, and the comparison of the
  fractions is made without division: the source divides an
  integer by 100.0, and the rounding does not reach a
  multiple of 1/512. The base address of a segment is a
  member of its configuration.
  Statistics and the log are left out, and so are the
  instruction allocations and `demoteTHPRegion`, which has
  no caller.

  An operation returns `none` where the buddy allocator has
  no defined outcome. A page number of -1 is a `none`.

  Key definitions include:
    * `Utopia.Allocator`
    * `Utopia.Allocator.migratePage`
-/

namespace Virtuoso

namespace Utopia

/- The segments above the buddy allocator. -/
structure Allocator where
  buddy : Buddy
  restSegs : PageSize → Option RestSeg
  order : List PageSize
  thpRegions : TwoMbMap
  thpPromotionThreshold : Nat
  lastInRestSeg : Bool
  lastCausedEviction : Bool
  lastEvictedAddress : Nat
  lastEvictedPageSizeBits : Nat
  costTopKConfig : CostTopKConfig
  costTopKState : CostTopKState

/- The configuration of a segment. -/
structure RestSegConfig where
  sizeMb : Nat
  pageSize : PageSize
  assoc : Nat
  base : Nat
deriving DecidableEq

namespace Allocator

/- Replace the segment of a page size. -/
def setRestSeg
    (a : Allocator)
    (size : PageSize)
    (r : RestSeg) : Allocator :=
  { a with
    restSegs := Function.update a.restSegs size (some r) }

/- Forget the last allocation. -/
def resetLast
    (a : Allocator)
    (inRestSeg : Bool) : Allocator :=
  { a with
    lastInRestSeg := inRestSeg
    lastCausedEviction := false
    lastEvictedAddress := 0 }

/- A percentage outside its range is replaced by 75. -/
def thresholdOf (percent : Int) : Nat :=
  if 0 ≤ percent ∧ percent ≤ 100 then percent.toNat else 75

/- Add a segment of a configuration. -/
def addRestSeg
    (fingerprintBits : Nat)
    (c : RestSegConfig)
    (a : Allocator) :
    Option Allocator :=
  (RestSeg.construct c.sizeMb c.pageSize.bits c.assoc c.base
    fingerprintBits).map
    (fun r =>
      { a.setRestSeg c.pageSize r with
        order := a.order ++ [c.pageSize] })

/- The loop of the constructor over the segments. -/
def addRestSegs
    (fingerprintBits : Nat) :
    List RestSegConfig → Allocator → Option Allocator
| [], a => some a
| c :: configs, a =>
    (addRestSeg fingerprintBits c a).bind
      (addRestSegs fingerprintBits configs)

/- `UtopiaAllocator::UtopiaAllocator`. -/
def construct
    (buddy : Buddy)
    (configs : List RestSegConfig)
    (fingerprintBits : Nat)
    (thpPromotionThreshold : Int)
    (costTopKConfig : CostTopKConfig) :
    Option Allocator :=
  addRestSegs fingerprintBits configs
    { buddy := buddy
      restSegs := fun _ => none
      order := []
      thpRegions := []
      thpPromotionThreshold := thresholdOf thpPromotionThreshold
      lastInRestSeg := false
      lastCausedEviction := false
      lastEvictedAddress := 0
      lastEvictedPageSizeBits := 12
      costTopKConfig := costTopKConfig
      costTopKState := CostTopKState.construct costTopKConfig }

/-
  The second half of `tryAllocateTHP`: the frame of a page in
  its region, whether the region is promoted, and the region
  after it.
-/
def useRegion
    (threshold : Nat)
    (region : Region)
    (offset4kb : Nat) :
    (Nat × Bool) × Region :=
  if region.promoted then
    ((region.regionBegin, true), region)
  else if region.bitset offset4kb then
    ((region.regionBegin + offset4kb, false), region)
  else
    let marked :=
      { region with
        bitset :=
          Function.update region.bitset offset4kb true }
    if threshold * 512 ≤ 100 * marked.count then
      ((region.regionBegin, true),
        { marked with promoted := true })
    else
      ((region.regionBegin + offset4kb, false), marked)

/- Use a page of a region that is or becomes tracked. -/
def useTracked
    (a : Allocator)
    (address : Nat)
    (region : Region) :
    (Nat × Bool) × Allocator :=
  let result := useRegion a.thpPromotionThreshold region
    (address / 2 ^ 12 % 512)
  (result.1,
    { a with
      thpRegions := (address / 2 ^ 21, result.2) ::
        TwoMbMap.erase a.thpRegions (address / 2 ^ 21) })

/-
  `tryAllocateTHP`: the frame and whether the region is
  promoted, or nothing when no 2MB block is left.
-/
def tryAllocateTHP
    (a : Allocator)
    (address : Nat) :
    Option (Option (Nat × Bool) × Allocator) :=
  match a.thpRegions.lookup (address / 2 ^ 21) with
  | some region =>
      let result := a.useTracked address region
      some (some result.1, result.2)
  | none =>
      match a.buddy.reserve2mbPage with
      | none => none
      | some (none, b) => some (none, { a with buddy := b })
      | some (some block, b) =>
          let result := { a with buddy := b }.useTracked address
            ⟨block.start, fun _ => false, false⟩
          some (some result.1, result.2)

/- The region of an address is in `thp_regions`. -/
def isTracked (a : Allocator) (address : Nat) : Bool :=
  (a.thpRegions.lookup (address / 2 ^ 21)).isSome

/- The loop of `isInRestSeg`, over the segments left. -/
def isInRestSegFrom
    (address app : Nat) :
    List PageSize → Allocator → Bool × Allocator
| [], a => (false, a)
| size :: sizes, a =>
    match a.restSegs size with
    | none => isInRestSegFrom address app sizes a
    | some r =>
        match r.inRestSeg address app with
        | (true, r') => (true, a.setRestSeg size r')
        | (false, _) => isInRestSegFrom address app sizes a

/- `isInRestSeg`. -/
def isInRestSeg
    (a : Allocator)
    (address app : Nat) :
    Bool × Allocator :=
  isInRestSegFrom address app a.order a

/- Levels 1 and 3 of `allocate`: a free way of a segment. -/
def tryRestSeg
    (a : Allocator)
    (size : PageSize)
    (address core : Nat) :
    Bool × Allocator :=
  match a.restSegs size with
  | none => (false, a)
  | some r =>
      match r.allocate address core false with
      | (.failed, r') => (false, a.setRestSeg size r')
      | (_, r') => (true, (a.setRestSeg size r').resetLast true)

/- The physical page in the segment of a page size. -/
def restSegPpn
    (a : Allocator)
    (size : PageSize)
    (address app : Nat) :
    Option Nat :=
  (a.restSegs size).bind
    (fun r => r.calculatePhysicalAddress address app)

/- Level 4 of `allocate`. -/
def fromBuddy
    (a : Allocator)
    (bytes : Nat) :
    Option ((Option Nat × PageSize) × Allocator) :=
  (a.buddy.allocate bytes).map
    (fun r => ((r.1, .fourKb), { a with buddy := r.2 }))

/- Levels 3 and 4 of `allocate`. -/
def allocateSmall
    (a : Allocator)
    (bytes address core : Nat) :
    Option ((Option Nat × PageSize) × Allocator) :=
  match a.tryRestSeg .fourKb address core with
  | (true, a') =>
      some ((a'.restSegPpn .fourKb address core, .fourKb), a')
  | (false, a') => (a'.resetLast false).fromBuddy bytes

/-
  `UtopiaAllocator::allocate`: the physical page and the page
  size.
-/
def allocate
    (a : Allocator)
    (bytes address core : Nat)
    (isPagetableAllocation : Bool) :
    Option ((Option Nat × PageSize) × Allocator) :=
  if isPagetableAllocation then
    a.fromBuddy bytes
  else
    match a.tryRestSeg .twoMb address core with
    | (true, a') =>
        some ((a'.restSegPpn .twoMb address core, .twoMb), a')
    | (false, a') =>
        match a'.tryAllocateTHP address with
        | none => none
        | some (some (ppn, promoted), a'') =>
            some ((some ppn,
                if promoted then .twoMb else .fourKb),
              a''.resetLast false)
        | some (none, a'') =>
            a''.allocateSmall bytes address core

/- Record the eviction that an allocation made. -/
def noteEviction
    (a : Allocator)
    (size : PageSize) :
    Allocation → Allocator
| .evicted address =>
    { a with
      lastCausedEviction := true
      lastEvictedAddress := address
      lastEvictedPageSizeBits := size.bits }
| _ => a

/- Forget the last eviction. -/
def resetEviction (a : Allocator) : Allocator :=
  { a with
    lastCausedEviction := false
    lastEvictedAddress := 0
    lastEvictedPageSizeBits := 12 }

/- The body of the loop of `migratePage`. -/
def migrateTo
    (a : Allocator)
    (size : PageSize)
    (r : RestSeg)
    (address oldPpn app : Nat) :
    Option Nat × Allocator :=
  match r.allocate address app true with
  | (.failed, r') => (none, a.setRestSeg size r')
  | (result, r') =>
      let moved := (a.setRestSeg size r').noteEviction size
        result
      (some ((r'.calculatePhysicalAddress address app).getD
          invalidPpn),
        { moved with
          buddy := moved.buddy.free oldPpn oldPpn })

/-
  `migratePage`: the new physical page, or nothing where the
  source returns 0 without a migration. The page table entry
  is deleted by the caller.
-/
def migratePage
    (a : Allocator)
    (address oldPpn targetPageSizeBits app : Nat) :
    Option Nat × Allocator :=
  match a.isInRestSeg address app with
  | (true, a') => (none, a')
  | (false, a') =>
      if a'.isTracked address then
        (none, a')
      else
        match a'.order.find? (fun size =>
            size.bits == targetPageSizeBits) with
        | none => (none, a'.resetEviction)
        | some size =>
            match a'.restSegs size with
            | none => (none, a'.resetEviction)
            | some r =>
                a'.resetEviction.migrateTo size r address oldPpn app

/-
  The target of a cost-based migration: the 4KB segment, or
  the 2MB segment if there is none.
-/
def costTarget (a : Allocator) : Option Nat :=
  if (a.restSegs .fourKb).isSome then
    some 12
  else if (a.restSegs .twoMb).isSome then
    some 21
  else
    none

end Allocator

end Utopia

end Virtuoso
