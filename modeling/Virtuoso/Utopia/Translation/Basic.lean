import Virtuoso.PageTable.Radix.Runs
import Virtuoso.Utopia.Allocator.Walk

/-
  Translations under Utopia: the part of `mmu_utopia.cc` that
  follows a TLB miss, and `utopia_exception_handler.cc`.

  A lookup in the restricted segments comes first, then the
  walk of the page table of the application, then a fault,
  whose page goes to the page table unless it was placed in a
  segment. A translation that the page table serves may end
  in a migration. The two halves are the steps `fault` and
  `serviced`; a translation is the first and then the second.
  A hit in a segment marks its entry as recently used. The
  walk of the segments that a translation begins with may
  also make a radix way table, so it is a step of its own,
  and so is the mark that other lookups make.

  An application runs on a core whose number need not be its
  own; the handler allocates for the core. Frames of the page
  tables come from the kernel's region, whose next address is
  given with each fault, since the segments' metadata are
  taken from it as well. The number of memory accesses of a
  walk is given with the translation. The page tables have
  four levels, and each comes with its past operations. TLBs,
  latencies and speculation are left out.

  A step returns `none` where an assertion of the source
  fails or its behaviour is undefined. Running out of memory
  is such a step: the handler writes the page number -1, and
  the walk after it asserts that it is another one.

  Key definitions include:
    * `Utopia.System`
    * `Utopia.System.step`
-/

namespace Virtuoso

namespace Utopia

/- The settings of the threshold-based migration. -/
structure LegacyConfig where
  legacyMigrationEnabled : Bool
  ptwMigrationThreshold : Int
  dramAccessesMigrationThreshold : Int
deriving DecidableEq

/- The allocator with the tables of the applications. -/
structure System where
  allocator : Allocator
  pageTables : Nat → Radix.Session
  ptwStats : Nat → Nat → Nat × Nat
  legacy : LegacyConfig

namespace System

/- All page tables empty. -/
def start
    (allocator : Allocator)
    (legacy : LegacyConfig) : System :=
  { allocator := allocator
    pageTables := fun _ => Radix.start 4
    ptwStats := fun _ _ => (0, 0)
    legacy := legacy }

/- Replace the page table of an application. -/
def setTable
    (s : System)
    (app : Nat)
    (table : Radix.Session) : System :=
  { s with
    pageTables := Function.update s.pageTables app table }

/- `initializeWalk` in the page table of an application. -/
def initializeWalk
    (s : System)
    (app address : Nat) :
    Option PTWResult :=
  Radix.initializeWalk (s.pageTables app).table address

/- The loop of `allocate_page_table_frames`. -/
def pageTableFrames :
    Nat → Nat → List Nat
| 0, _ => []
| n + 1, kernelStartAddress =>
    let result :=
      handlePageTableAllocations kernelStartAddress 4096
    result.1 :: pageTableFrames n result.2

/-
  `update_page_table_frames`, with the assertion of the walk
  that follows.
-/
def updatePageTableFrames
    (s : System)
    (app address ppn : Nat)
    (size : PageSize)
    (frames : List Nat) :
    Option System :=
  if ppn = invalidPpn then
    none
  else
    (Radix.step (s.pageTables app)
      (.update address ppn size frames)).map (s.setTable app)

/- `UtopiaExceptionHandler::handle_page_fault`. -/
def handlePageFault
    (s : System)
    (vpn core app metadataFrames kernelStartAddress : Nat) :
    Option System :=
  let address := vpn * 2 ^ 12
  match s.allocator.allocate 4096 address core false with
  | none => none
  | some ((ppn, size), a) =>
      if a.lastInRestSeg then
        some { s with allocator := a }
      else
        { s with allocator := a }.updatePageTableFrames app
          address (ppn.getD invalidPpn) size
          (pageTableFrames metadataFrames kernelStartAddress)

/- The score and the table of the cost-based policy. -/
def scoreTranslation
    (s : System)
    (vpn dramAccesses : Nat) : System :=
  let a := s.allocator
  let config := a.costTopKConfig
  let inc := config.ptwBaseInc +
    min dramAccesses config.dramIncCap
  let bumped := a.costTopKState.bumpCostScore config vpn inc
  let ranked := bumped.updateCostTopK config vpn
    (a.costTopKState.bumpedScore config vpn inc)
  { s with
    allocator :=
      { a with
        costTopKState := ranked.processEpochs config } }

/- The statistics of the threshold-based policy. -/
def countTranslation
    (s : System)
    (core vpn dramAccesses : Nat) : System :=
  let stats := s.ptwStats core vpn
  { s with
    ptwStats := Function.update s.ptwStats core
      (Function.update (s.ptwStats core) vpn
        (stats.1 + 1, stats.2 + dramAccesses)) }

/- The threshold-based policy asks for a migration. -/
def shouldMigrate (s : System) (core vpn : Nat) : Bool :=
  let stats := s.ptwStats core vpn
  decide (s.legacy.ptwMigrationThreshold ≤ stats.1 ∧
    s.legacy.dramAccessesMigrationThreshold ≤ stats.2)

/-
  The policies: the target page size of the migration that
  they ask for, and the entry of the table that asked.
-/
def decideMigration
    (s : System)
    (core vpn pageSizeBits dramAccesses : Nat) :
    Option (Nat × Option Nat) × System :=
  let config := s.allocator.costTopKConfig
  if config.enabled then
    if pageSizeBits = 12 then
      let scored := s.scoreTranslation vpn dramAccesses
      match scored.allocator.costTopKState.eligible config
          pageSizeBits vpn with
      | none => (none, scored)
      | some i =>
          (scored.allocator.costTarget.map
            (fun target => (target, some i)), scored)
    else
      (none, s)
  else if s.legacy.legacyMigrationEnabled then
    let counted := s.countTranslation core vpn dramAccesses
    if counted.shouldMigrate core vpn then
      (some (pageSizeBits, none), counted)
    else
      (none, counted)
  else
    (none, s)

/-
  `migratePage`, with the deletion of the entry of the page
  table.
-/
def migratePage
    (s : System)
    (address oldPpn targetPageSizeBits app : Nat) :
    Option (Option Nat × System) :=
  match s.allocator.migratePage address oldPpn
      targetPageSizeBits app with
  | (none, a) => some (none, { s with allocator := a })
  | (some newPpn, a) =>
      (Radix.step (s.pageTables app) (.delete address)).map
        (fun table =>
          (some newPpn,
            { s with allocator := a }.setTable app table))

/- The end of `considerCostBasedMigration`. -/
def noteMigration
    (s : System)
    (entry : Option Nat)
    (vpn : Nat)
    (newPpn : Option Nat) : System :=
  match entry, newPpn with
  | some i, some ppn =>
      if ppn = 0 then
        s
      else
        { s with
          allocator :=
            { s.allocator with
              costTopKState :=
                s.allocator.costTopKState.noteMigration
                  s.allocator.costTopKConfig i vpn ppn } }
  | _, _ => s

/- The migration decision for a page of the page table. -/
def considerMigration
    (s : System)
    (address core app ppn pageSizeBits dramAccesses : Nat) :
    Option System :=
  let vpn := address / 2 ^ 12
  match s.decideMigration core vpn pageSizeBits
      dramAccesses with
  | (none, s') => some s'
  | (some (target, entry), s') =>
      (s'.migratePage address ppn target app).map
        (fun r => r.2.noteMigration entry vpn r.1)

/- The two halves of a translation, and other calls. -/
inductive Op
  | fault (address core app kernelStartAddress : Nat)
  | serviced (address core app dramAccesses : Nat)
  | restSegWalk (mode : WalkMode) (address app : Nat)
  | touchWayLRU (size : PageSize) (address way : Nat)
  | allocatePageTable (bytes : Nat)
deriving DecidableEq

namespace Op

/- The virtual address of a step. -/
def address :
    Op → Nat
| fault address _ _ _ => address
| serviced address _ _ _ => address
| restSegWalk _ address _ => address
| touchWayLRU _ address _ => address
| allocatePageTable _ => 0

end Op

/-
  A lookup in the segments for an application, and what
  follows if it misses: the walk of its page table.
-/
def afterLookup
    (s : System)
    (address app : Nat)
    (next : System → PTWResult → Option System) :
    Option System :=
  match s.allocator.isInRestSeg address app with
  | (true, a) => some { s with allocator := a }
  | (false, a) =>
      match { s with allocator := a }.initializeWalk app
          address with
      | none => none
      | some r => next { s with allocator := a } r

/- A fault, a served access, or a call of the allocator. -/
def step (s : System) : Op → Option System
| .fault address core app kernelStartAddress =>
    s.afterLookup address app (fun s' r =>
      if r.isPagefault then
        s'.handlePageFault (address / 2 ^ 12) core app
          r.requestedFrames kernelStartAddress
      else
        some s')
| .serviced address core app dramAccesses =>
    s.afterLookup address app (fun s' r =>
      match r.translation with
      | none => some s'
      | some (ppn, pageSizeBits) =>
          s'.considerMigration address core app ppn
            pageSizeBits dramAccesses)
| .restSegWalk mode address app =>
    some { s with
      allocator :=
        (s.allocator.restSegWalk mode address app).2 }
| .touchWayLRU size address way =>
    match s.allocator.restSegs size with
    | none => some s
    | some r =>
        some { s with
          allocator :=
            s.allocator.setRestSeg size
              (r.touchWayLRU address way) }
| .allocatePageTable bytes =>
    (s.allocator.allocate bytes 0 0 true).map
      (fun r => { s with allocator := r.2 })

end System

end Utopia

end Virtuoso
