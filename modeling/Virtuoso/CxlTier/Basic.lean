import Mathlib.Algebra.Group.Int.Defs
import Mathlib.Algebra.Group.Nat.Defs
import Mathlib.Logic.Function.Basic
import Virtuoso.Lib.Assoc

/-
  The tiers of memory behind a CXL link, from
  `cxl_memory_tier_manager.cc`.

  The tracked pages, the bytes used in each tier and the sets
  of hot and cold pages. Counters of bytes and accesses are
  64 bits wide, the counter of the interleaving 32 bits.

  Statistics that no decision reads and the latency of a tier
  are left out.

  Key definitions include:
    * `CxlMemoryTierManager.getTier`
    * `CxlMemoryTierManager.step`
-/

namespace Virtuoso

/- The size of a page, `PAGE_SIZE`. -/
def cxlPageSize : Nat := 4096

/- The memory tiers. -/
inductive MemoryTier where
| localDram
| cxlNear
| cxlFar
| cxlPooled
deriving DecidableEq, Repr

/- How new pages are placed. -/
inductive PlacementPolicy where
| addressRange
| firstTouch
| hotCold
| interleave
| allLocal
| allCxl
deriving DecidableEq, Repr

/- What is known of a tracked page. -/
structure PageInfo where
  tier : MemoryTier
  accessCount : Nat
  lastAccess : Nat
  firstAccess : Nat
  isHot : Bool
deriving DecidableEq, Repr

/- A page that was not accessed. -/
def PageInfo.fresh (tier : MemoryTier) : PageInfo where
  tier := tier
  accessCount := 0
  lastAccess := 0
  firstAccess := 0
  isHot := false

/- What is counted for a tier. -/
structure TierInfo where
  capacityBytes : Nat
  usedBytes : Nat
  accessCount : Nat
deriving DecidableEq, Repr

namespace TierInfo

/- `used_bytes += PAGE_SIZE`, on 64 bits. -/
def addPage (i : TierInfo) : TierInfo :=
  { i with usedBytes := (i.usedBytes + cxlPageSize) % 2 ^ 64 }

/- `used_bytes -= PAGE_SIZE`, on 64 bits. -/
def removePage (i : TierInfo) : TierInfo :=
  { i with
    usedBytes :=
      (i.usedBytes + (2 ^ 64 - cxlPageSize)) % 2 ^ 64 }

/- The counter of accesses is an unsigned word. -/
def countAccess (i : TierInfo) : TierInfo :=
  { i with accessCount := (i.accessCount + 1) % 2 ^ 64 }

theorem capacityBytes_addPage
    (i : TierInfo) :
    i.addPage.capacityBytes = i.capacityBytes := by
  rw [addPage]

theorem capacityBytes_removePage
    (i : TierInfo) :
    i.removePage.capacityBytes = i.capacityBytes := by
  rw [removePage]

theorem capacityBytes_countAccess
    (i : TierInfo) :
    i.countAccess.capacityBytes = i.capacityBytes := by
  rw [countAccess]

/- Another page is within the capacity. -/
def HasRoom (i : TierInfo) : Prop :=
  (i.usedBytes + cxlPageSize) % 2 ^ 64 ≤ i.capacityBytes

instance (i : TierInfo) : Decidable i.HasRoom :=
  inferInstanceAs (Decidable (_ ≤ _))

end TierInfo

/-
  What the constructor reads from the configuration. The
  comparisons with nine and eight tenths of a capacity are of
  doubles; they take the bytes used and the capacity.
-/
structure CxlConfig where
  enabled : Bool
  policy : PlacementPolicy
  localDramCapacityGb : Int
  cxlCapacityGb : Int
  cxlStart : Nat
  hotThreshold : Nat
  interleaveGranularity : Nat
  aboveNineTenths : Nat → Nat → Bool
  withinEightTenths : Nat → Nat → Bool

namespace CxlConfig

/- Gigabytes as a 64-bit number of bytes. -/
def gigabytes (gb : Int) : Nat :=
  (gb * 2 ^ 30 % 2 ^ 64).toNat

/- The bytes of the local tier. -/
def localDramCapacity (c : CxlConfig) : Nat :=
  gigabytes c.localDramCapacityGb

/- The bytes of the CXL tier. -/
def cxlCapacity (c : CxlConfig) : Nat :=
  gigabytes c.cxlCapacityGb

end CxlConfig

/- The state of `CXLMemoryTierManager`. -/
structure CxlMemoryTierManager where
  config : CxlConfig
  pageTable : List (Nat × PageInfo)
  tierInfo : MemoryTier → TierInfo
  hotPages : List Nat
  coldPages : List Nat
  interleaveCounter : Nat
  currentInterleaveTier : MemoryTier
  pagesPromoted : Nat
  pagesDemoted : Nat
  promotionFailures : Nat

namespace CxlMemoryTierManager

/- The constructor. -/
def init (c : CxlConfig) : CxlMemoryTierManager where
  config := c
  pageTable := []
  tierInfo
    | .localDram => ⟨c.localDramCapacity, 0, 0⟩
    | .cxlNear => ⟨c.cxlCapacity, 0, 0⟩
    | .cxlFar => ⟨0, 0, 0⟩
    | .cxlPooled => ⟨0, 0, 0⟩
  hotPages := []
  coldPages := []
  interleaveCounter := 0
  currentInterleaveTier := .localDram
  pagesPromoted := 0
  pagesDemoted := 0
  promotionFailures := 0

/- The bytes of a tier that are in use. -/
def usedBytes
    (m : CxlMemoryTierManager)
    (t : MemoryTier) : Nat :=
  (m.tierInfo t).usedBytes

/- The bytes of a tier. -/
def capacityBytes
    (m : CxlMemoryTierManager)
    (t : MemoryTier) : Nat :=
  (m.tierInfo t).capacityBytes

/- The counters of one tier are changed. -/
def updateTier
    (m : CxlMemoryTierManager)
    (t : MemoryTier)
    (f : TierInfo → TierInfo) : CxlMemoryTierManager :=
  { m with
    tierInfo := Function.update m.tierInfo t (f (m.tierInfo t)) }

/- The entry of a page is written. -/
def setPage
    (m : CxlMemoryTierManager)
    (page : Nat)
    (info : PageInfo) : CxlMemoryTierManager :=
  { m with pageTable := Assoc.insert m.pageTable page info }

/- Account for a new page and track it. -/
def track
    (m : CxlMemoryTierManager)
    (page : Nat)
    (t : MemoryTier) : CxlMemoryTierManager :=
  (m.updateTier t TierInfo.addPage).setPage page (PageInfo.fresh t)

/- Pages of 4KB, whatever the size of the page. -/
def getPageNumber (address : BitVec 64) : Nat :=
  (address >>> 12).toNat

/- The tier of an address, by where it lies. -/
def getTierAddressRange
    (m : CxlMemoryTierManager)
    (address : BitVec 64) : MemoryTier :=
  if m.config.cxlStart ≤ address.toNat then .cxlNear
  else .localDram

/- The tier of a page at its first touch. -/
def firstTouchTier
    (m : CxlMemoryTierManager) : MemoryTier :=
  if (m.tierInfo .localDram).HasRoom then .localDram
  else if (m.tierInfo .cxlNear).HasRoom then .cxlNear
  -- Both are full: CXL memory is overcommitted.
  else .cxlNear

/- A new page goes to the first tier with room. -/
def getTierFirstTouch
    (m : CxlMemoryTierManager)
    (page : Nat) : MemoryTier × CxlMemoryTierManager :=
  match m.pageTable.lookup page with
  | some info => (info.tier, m)
  | none =>
      (m.firstTouchTier, m.track page m.firstTouchTier)

/- A new page starts in the CXL tier. -/
def getTierHotCold
    (m : CxlMemoryTierManager)
    (page : Nat) : MemoryTier × CxlMemoryTierManager :=
  match m.pageTable.lookup page with
  | some info => (info.tier, m)
  | none =>
      (.cxlNear,
        { m.track page .cxlNear with
          coldPages := m.coldPages.insert page })

/- The tier that comes next in the interleaving. -/
def otherTier : MemoryTier → MemoryTier
| .localDram => .cxlNear
| _ => .localDram

/- Count a page and turn to the other tier when it is due. -/
def advanceInterleave
    (m : CxlMemoryTierManager) : CxlMemoryTierManager :=
  let counter := (m.interleaveCounter + 1) % 2 ^ 32
  if m.config.interleaveGranularity ≤ counter then
    { m with
      interleaveCounter := 0
      currentInterleaveTier :=
        otherTier m.currentInterleaveTier }
  else
    { m with interleaveCounter := counter }

/- New pages take turns in the tiers. -/
def getTierInterleave
    (m : CxlMemoryTierManager)
    (page : Nat) : MemoryTier × CxlMemoryTierManager :=
  match m.pageTable.lookup page with
  | some info => (info.tier, m)
  | none =>
      (m.currentInterleaveTier,
        m.advanceInterleave.track page m.currentInterleaveTier)

/- The tier of an address under the policy. -/
def getTier
    (m : CxlMemoryTierManager)
    (address : BitVec 64) : MemoryTier × CxlMemoryTierManager :=
  if !m.config.enabled then
    (.localDram, m)
  else
    match m.config.policy with
    | .addressRange => (m.getTierAddressRange address, m)
    | .firstTouch => m.getTierFirstTouch (getPageNumber address)
    | .hotCold => m.getTierHotCold (getPageNumber address)
    | .interleave => m.getTierInterleave (getPageNumber address)
    | .allLocal => (.localDram, m)
    | .allCxl => (.cxlNear, m)

/- The counts and times of a page after an access. -/
def accessed (info : PageInfo) (time : Nat) : PageInfo :=
  { info with
    accessCount := (info.accessCount + 1) % 2 ^ 64
    lastAccess := time
    firstAccess :=
      if info.firstAccess = 0 then time else info.firstAccess }

/- The page turns hot with this access. -/
def turnsHot
    (m : CxlMemoryTierManager)
    (info : PageInfo) : Prop :=
  m.config.policy = .hotCold ∧ info.isHot = false ∧
    m.config.hotThreshold ≤ info.accessCount

instance
    (m : CxlMemoryTierManager)
    (info : PageInfo) :
    Decidable (m.turnsHot info) :=
  inferInstanceAs (Decidable (_ ∧ _ ∧ _))

/- An access is counted and may make its page hot. -/
def recordAccess
    (m : CxlMemoryTierManager)
    (address : BitVec 64)
    (time : Nat) : CxlMemoryTierManager :=
  if !m.config.enabled then
    m
  else
    let page := getPageNumber address
    match m.pageTable.lookup page with
    | none => m
    | some old =>
        let info := accessed old time
        let counted := m.updateTier info.tier TierInfo.countAccess
        if m.turnsHot info then
          { counted.setPage page { info with isHot := true } with
            coldPages := m.coldPages.filter (fun p => p ≠ page)
            hotPages := m.hotPages.insert page }
        else
          counted.setPage page info

/- Move a tracked page between two tiers. -/
def movePage
    (m : CxlMemoryTierManager)
    (page : Nat)
    (info : PageInfo)
    (t : MemoryTier) : CxlMemoryTierManager :=
  ((m.updateTier info.tier TierInfo.removePage).updateTier t
    TierInfo.addPage).setPage page { info with tier := t }

/- A page moves to the local tier, if it has room. -/
def tryPromotePage
    (m : CxlMemoryTierManager)
    (page : Nat) : CxlMemoryTierManager :=
  match m.pageTable.lookup page with
  | none => m
  | some info =>
      if info.tier = .localDram then
        m
      else if ¬ (m.tierInfo .localDram).HasRoom then
        { m with
          promotionFailures :=
            (m.promotionFailures + 1) % 2 ^ 64 }
      else
        { m.movePage page info .localDram with
          pagesPromoted := (m.pagesPromoted + 1) % 2 ^ 64 }

/- A page moves out of the local tier. -/
def tryDemotePage
    (m : CxlMemoryTierManager)
    (page : Nat) : CxlMemoryTierManager :=
  match m.pageTable.lookup page with
  | none => m
  | some info =>
      if info.tier ≠ .localDram then
        m
      else
        { m.movePage page info .cxlNear with
          pagesDemoted := (m.pagesDemoted + 1) % 2 ^ 64 }

/- The pages of a set that are tracked and outside a tier. -/
def trackedOutside
    (m : CxlMemoryTierManager)
    (t : MemoryTier)
    (page : Nat) : Bool :=
  match m.pageTable.lookup page with
  | none => false
  | some info => decide (info.tier ≠ t)

/- The page is known to be in the tier. -/
def trackedInside
    (m : CxlMemoryTierManager)
    (t : MemoryTier)
    (page : Nat) : Bool :=
  match m.pageTable.lookup page with
  | none => false
  | some info => decide (info.tier = t)

/- The loop over the pages to demote, with its early exit. -/
def demotePages :
    CxlMemoryTierManager → List Nat → CxlMemoryTierManager
| m, [] => m
| m, page :: pages =>
    if m.config.withinEightTenths (m.usedBytes .localDram)
        (m.capacityBytes .localDram) then
      m
    else
      demotePages (m.tryDemotePage page) pages

/- The orders in which the two sets are walked. -/
structure Walk where
  hot : List Nat → List Nat
  cold : List Nat → List Nat
  hotPerm : ∀ l, (hot l).Perm l
  coldPerm : ∀ l, (cold l).Perm l

/- The hot pages outside of the local tier. -/
def pagesToPromote
    (m : CxlMemoryTierManager)
    (w : Walk) : List Nat :=
  (w.hot m.hotPages).filter (m.trackedOutside .localDram)

/- The cold pages in the local tier. -/
def pagesToDemote
    (m : CxlMemoryTierManager)
    (w : Walk) : List Nat :=
  (w.cold m.coldPages).filter (m.trackedInside .localDram)

/- The promotions of one check. -/
def promotePages
    (m : CxlMemoryTierManager)
    (w : Walk) : CxlMemoryTierManager :=
  (m.pagesToPromote w).foldl tryPromotePage m

/- Pages are demoted only when the tier is filling up. -/
def checkMigration
    (m : CxlMemoryTierManager)
    (w : Walk) : CxlMemoryTierManager :=
  if !m.config.enabled || m.config.policy != .hotCold then
    m
  else
    let promoted := m.promotePages w
    if m.config.aboveNineTenths
        (promoted.usedBytes .localDram)
        (promoted.capacityBytes .localDram) then
      promoted.demotePages (promoted.pagesToDemote w)
    else
      promoted

/- The calls of the manager. -/
inductive Call where
| getTier (address : BitVec 64)
| recordAccess (address : BitVec 64) (time : Nat)
| checkMigration (w : Walk)

/- The state after a call. -/
def next
    (m : CxlMemoryTierManager) :
    Call → CxlMemoryTierManager
| .getTier address => (m.getTier address).2
| .recordAccess address time => m.recordAccess address time
| .checkMigration w => m.checkMigration w

/- Every call of the manager returns. -/
def step
    (m : CxlMemoryTierManager)
    (c : Call) : Option CxlMemoryTierManager :=
  some (m.next c)

end CxlMemoryTierManager

end Virtuoso
