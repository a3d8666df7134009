import Virtuoso.ExceptionHandler.Runs
import Virtuoso.PageTable.Deletion
import Virtuoso.PageTable.Radix.Found
import Virtuoso.PageWalk.Restart

/-
  Perfect translation over the four page tables.

  Before the walk of the radix table restarts, it calls the
  handler of the core whose number is the `core_id` of the
  table, which the factory sets to the number of the
  application. The walks of the hash tables restart with
  nothing done: the call of a handler is a comment there.

  The allocator is behind its virtual functions. A pointer
  that is null, a failed assertion and `exit` end the
  program.

  Main declarations:
    * `Radix.perfect_iff_handles`
    * `perfect_iff`
-/

------------------------------------------------------------
-- The Radix Table
------------------------------------------------------------

namespace Virtuoso

/-
  The calls of an allocator: a page for an address and a
  core, and the frames of page tables, one at a time. The
  page number `-1` of an allocation is `none`.
-/
structure AllocatorCalls (α : Type) where
  allocate : α → Nat → Nat → Bool →
    Option ((Option Nat × PageSize) × α)
  handlePageTableAllocations : α → Nat → Nat × α
  handlePageTableDeallocations : α → α

namespace AllocatorCalls

variable {α : Type}

/- The loop that takes frames; the frame `-1` is fatal. -/
def takeFrames
    (c : AllocatorCalls α)
    (coreId : Nat) :
    Nat → α → Option (List Nat × α)
| 0, a => some ([], a)
| n + 1, a =>
    let taken := c.handlePageTableAllocations a coreId
    if taken.1 = invalidPpn then
      none
    else
      (c.takeFrames coreId n taken.2).map (fun rest =>
        (taken.1 :: rest.1, rest.2))

/- The loop that gives frames back. -/
def giveBack (c : AllocatorCalls α) : Nat → α → α
| 0, a => a
| n + 1, a =>
    c.giveBack n (c.handlePageTableDeallocations a)

theorem length_takeFrames
    {c : AllocatorCalls α}
    {coreId n : Nat}
    {a a' : α}
    {frames : List Nat}
    (hTaken : c.takeFrames coreId n a = some (frames, a')) :
    frames.length = n := by
  induction n generalizing a frames with
  | zero =>
      cases hTaken
      rfl
  | succ n ih =>
      rw [takeFrames] at hTaken
      split at hTaken
      · cases hTaken
      · rcases Option.map_eq_some_iff.mp hTaken with
          ⟨rest, hRest, hEq⟩
        cases hEq
        rw [List.length_cons, ih hRest]

end AllocatorCalls

namespace Radix

/- The exception handlers of `exception_handler_factory.h`. -/
inductive HandlerKind
  | sniper
  | eagerPaging
  | spot
  | utopia
  | virtuos
deriving DecidableEq, Repr

/- The handler of a core, and what its thread runs. -/
structure Core where
  handler : HandlerKind
  appId : Option Nat
deriving DecidableEq, Repr

/- What a restart finds in the simulator. -/
structure Simulator (α : Type) where
  calls : AllocatorCalls α
  userspaceMimicosEnabled : Bool
  cores : Nat → Option Core

/- The allocator and the tables of all applications. -/
structure Memory (α : Type) where
  allocator : α
  tables : Nat → PageTableRadix

variable {α : Type}

/-
  `SniperExceptionHandler::handle_page_fault` on a core, for
  the table of the application that runs there, with the page
  that it installs.
-/
def handlePageFault
    (c : AllocatorCalls α)
    (s : Memory α)
    (coreId appId address metadataFrames : Nat) :
    Option ((Nat × PageSize) × Memory α) :=
  let vpn := address / 2 ^ 12
  (c.allocate s.allocator (vpn * 2 ^ 12) coreId false).bind
    (fun placed =>
      (c.takeFrames coreId metadataFrames placed.2).bind
        (fun taken =>
          let ppn := placed.1.1.getD invalidPpn
          (updatePageTableFrames (s.tables appId)
              (vpn * 2 ^ 12) ppn placed.1.2 taken.1).map
            (fun updated =>
              ((ppn, placed.1.2),
                ⟨c.giveBack (metadataFrames - updated.1) taken.2,
                  Function.update s.tables appId updated.2⟩))))

/-
  `initializeWalk` after a fault, before `restart_walk`. The
  handler is cast to `SniperExceptionHandler`.
-/
def beforeRestart
    (m : Simulator α)
    (app : Nat)
    (s : Memory α)
    (address : Nat) :
    Option (List (Nat × Nat) × Memory α) :=
  if m.userspaceMimicosEnabled then
    none
  else
    match m.cores app with
    | some ⟨.sniper, some appId⟩ =>
        (handlePageFault m.calls s app appId address
          (s.tables app).levels).map (fun out =>
            ([(out.1.1, out.1.2.bits)], out.2))
    | _ => none

/- The table of an application. -/
def walkDesign
    (m : Simulator α)
    (app : Nat) : WalkDesign (Memory α) :=
  ⟨fun s => initializeWalk (s.tables app), beforeRestart m app⟩

/-
  The allocator has a page for the address that its path in
  the table takes, and the frames that the handler asks for.
-/
def Provides
    (m : Simulator α)
    (app : Nat)
    (s : Memory α)
    (address : Nat) : Prop :=
  ∃ ppn pageSize a frames a',
    m.calls.allocate s.allocator
        (address / 2 ^ 12 * 2 ^ 12) app false =
          some ((some ppn, pageSize), a) ∧
      ppn ≠ invalidPpn ∧
      m.calls.takeFrames app (s.tables app).levels a =
        some (frames, a') ∧
      Takes (s.tables app).levels (s.tables app).pageSizeList
        address (address / 2 ^ 12 * 2 ^ 12) pageSize
        (s.tables app).levels (some (s.tables app).root)

/-
  The walk faults, MimicOS is not in user space, the core
  with the number of the application runs the application
  with the handler of this name, and there is memory.
-/
structure Handles
    (m : Simulator α)
    (app : Nat)
    (s : Memory α)
    (address : Nat) : Prop where
  faults : (walkDesign m app).Faults s address
  sniperSpace : m.userspaceMimicosEnabled = false
  core : m.cores app = some ⟨.sniper, some app⟩
  provides : Provides m app s address

variable {m : Simulator α} {app : Nat} {s s' : Memory α}
variable {address : Nat}

/- One page is installed before each restart. -/
theorem length_beforeRestart
    {out : List (Nat × Nat) × Memory α}
    (hBefore : beforeRestart m app s address = some out) :
    out.1.length = 1 := by
  unfold beforeRestart at hBefore
  split at hBefore
  · cases hBefore
  · split at hBefore
    · rcases Option.map_eq_some_iff.mp hBefore with
        ⟨handled, -, hOut⟩
      rw [← hOut]
      rfl
    · cases hBefore

/- The steps of a handler that returns. -/
theorem handlePageFault_eq_some
    {c : AllocatorCalls α}
    {coreId appId metadataFrames ppn : Nat}
    {pageSize : PageSize}
    (hHandled : handlePageFault c s coreId appId address
      metadataFrames = some ((ppn, pageSize), s')) :
    ∃ placed a frames a' used table,
      c.allocate s.allocator (address / 2 ^ 12 * 2 ^ 12)
          coreId false = some ((placed, pageSize), a) ∧
        ppn = placed.getD invalidPpn ∧
        c.takeFrames coreId metadataFrames a = some (frames, a') ∧
        updatePageTableFrames (s.tables appId)
            (address / 2 ^ 12 * 2 ^ 12) ppn pageSize frames =
          some (used, table) ∧
        s'.tables = Function.update s.tables appId table := by
  unfold handlePageFault at hHandled
  rcases Option.bind_eq_some_iff.mp hHandled with
    ⟨⟨⟨placed, size⟩, a⟩, hAllocate, hRest⟩
  rcases Option.bind_eq_some_iff.mp hRest with
    ⟨⟨frames, a'⟩, hTaken, hInstall⟩
  rcases Option.map_eq_some_iff.mp hInstall with
    ⟨⟨used, table⟩, hUpdate, hEq⟩
  cases hEq
  exact ⟨placed, a, frames, a', used, table, hAllocate, rfl,
    hTaken, hUpdate, rfl⟩

/- An update that returns is one of the root. -/
theorem updatePageTableFrames_eq_some
    {t table : PageTableRadix}
    {page ppn used : Nat}
    {pageSize : PageSize}
    {frames : List Nat}
    (hUpdate : updatePageTableFrames t page ppn pageSize
      frames = some (used, table)) :
    ∃ root rest,
      update t.levels page ppn pageSize t.levels
        (some t.root) frames = some (some root, rest) ∧
      table = { t with root := root } := by
  unfold updatePageTableFrames at hUpdate
  split at hUpdate
  · rename_i root rest hRoot
    cases hUpdate
    exact ⟨root, rest, hRoot, rfl⟩
  · cases hUpdate

/-
  A page that is installed before a restart and then found
  was installed for the table of the application itself.
-/
theorem handles_of_beforeRestart
    {page : Nat × Nat}
    (hFaults : (walkDesign m app).Faults s address)
    (hBefore : beforeRestart m app s address = some ([page], s'))
    (hMaps : (walkDesign m app).MapsTo s' address page) :
    Handles m app s address := by
  unfold beforeRestart at hBefore
  split at hBefore
  · cases hBefore
  · rename_i hSpace
    split at hBefore
    · rename_i appId hCore
      rcases Option.map_eq_some_iff.mp hBefore with
        ⟨⟨⟨ppn, pageSize⟩, next⟩, hHandled, hOut⟩
      cases hOut
      rcases handlePageFault_eq_some hHandled with
        ⟨placed, a, frames, a', used, table, hAllocate,
          hPpn, hTaken, hUpdate, hTables⟩
      have hFrame : FaultsAt (s.tables app).levels
          (s.tables app).pageSizeList address
          (s.tables app).levels (s.tables app).root := hFaults
      have hFinds : Finds (next.tables app).levels
          (next.tables app).pageSizeList address
          (next.tables app).levels (next.tables app).root
          (ppn, pageSize.bits) := hMaps
      -- another table does not change the walk
      have hApp : appId = app := by
        by_contra hNe
        rw [hTables, Function.update_of_ne (Ne.symm hNe)] at hFinds
        exact hFrame.not_finds _ hFinds
      subst hApp
      rw [hTables, Function.update_self] at hFinds
      rcases updatePageTableFrames_eq_some hUpdate with
        ⟨root, rest, hRoot, hTable⟩
      rw [hTable] at hFinds
      have hFaultsRoot : ∀ f ∈ some (s.tables appId).root,
          FaultsAt (s.tables appId).levels
            (s.tables appId).pageSizeList address
            (s.tables appId).levels f := by
        intro f hMem
        rw [← Option.some.inj hMem]
        exact hFrame
      rcases takes_of_finds _ hFaultsRoot hRoot hFinds with
        ⟨hTakes, hValid⟩
      cases placed with
      | none => exact absurd hPpn hValid
      | some p =>
          have hSame : ppn = p := hPpn
          subst hSame
          exact ⟨hFaults, by simpa using hSpace, hCore,
            ppn, pageSize, a, frames, a', hAllocate, hValid,
            hTaken, hTakes⟩
    · cases hBefore

/- The page of a fault that is handled is found. -/
theorem Handles.beforeRestart
    (hHandles : Handles m app s address) :
    ∃ page s', Radix.beforeRestart m app s address =
        some ([page], s') ∧
      (walkDesign m app).MapsTo s' address page := by
  rcases hHandles.provides with
    ⟨ppn, pageSize, a, frames, a', hAllocate, hValid, hTaken,
      hTakes⟩
  have hLength :=
    AllocatorCalls.length_takeFrames hTaken
  rcases update_of_takes _ hTakes hValid
    (Nat.le_of_eq hLength.symm) with
    ⟨root, rest, hRoot, hFinds⟩
  have hUpdate : updatePageTableFrames (s.tables app)
      (address / 2 ^ 12 * 2 ^ 12) ppn pageSize frames =
        some (frames.length - rest.length,
          { s.tables app with root := root }) := by
    simp only [updatePageTableFrames, hRoot]
  refine ⟨(ppn, pageSize.bits),
    ⟨m.calls.giveBack ((s.tables app).levels -
        (frames.length - rest.length)) a',
      Function.update s.tables app
        { s.tables app with root := root }⟩, ?_, ?_⟩
  · simp only [Radix.beforeRestart, hHandles.sniperSpace,
      hHandles.core, handlePageFault, hAllocate, hTaken,
      hUpdate, Option.bind_some, Option.map_some,
      Option.getD_some, Bool.false_eq_true, if_false]
  · simp only [walkDesign, WalkDesign.MapsTo, Function.update_self]
    exact hFinds

/-
  The untimed translation over a radix table is as it should
  be exactly for the addresses that are mapped, and for those
  whose fault is handled.
-/
theorem perfect_iff_handles
    (m : Simulator α)
    (app : Nat)
    (s : Memory α)
    (address : Nat) :
    (walkDesign m app).Perfect s address ↔
      (walkDesign m app).Mapped s address ∨
        Handles m app s address := by
  cases hWalk : initializeWalk (s.tables app) address with
  | none =>
      have hNone : (walkDesign m app).walk s address = none :=
        hWalk
      constructor
      · intro hPerfect
        exact absurd hPerfect (WalkDesign.not_perfect_of_walk hNone)
      · rintro (⟨page, r, hSome, -⟩ | hHandles)
        · rw [hNone] at hSome
          cases hSome
        · rcases hHandles.faults with ⟨r, hSome, -⟩
          rw [hNone] at hSome
          cases hSome
  | some r =>
      have hFault := isPagefault_walk _ _ hWalk
      cases hTranslation : r.translation with
      | some page =>
          rw [hTranslation] at hFault
          have hMapped : (walkDesign m app).Mapped s address :=
            ⟨page, r, hWalk, hFault, hTranslation⟩
          exact ⟨fun _ => Or.inl hMapped, fun _ =>
            WalkDesign.perfect_of_mapped hMapped⟩
      | none =>
          rw [hTranslation] at hFault
          have hFaults : (walkDesign m app).Faults s address :=
            ⟨r, hWalk, hFault⟩
          rw [WalkDesign.perfect_iff_of_handled
            (fun s out hBefore =>
              length_beforeRestart hBefore) hFaults]
          constructor
          · rintro ⟨page, s', hBefore, hMaps⟩
            exact Or.inr (handles_of_beforeRestart hFaults
              hBefore hMaps)
          · rintro (hMapped | hHandles)
            · exact absurd hMapped
                (WalkDesign.not_mapped_of_faults hFaults)
            · exact hHandles.beforeRestart

end Radix

------------------------------------------------------------
-- Runs And Other Designs
------------------------------------------------------------

namespace FaultAllocator

/- The calls of both allocators of the fault model. -/
def calls (pick : Nat) : AllocatorCalls FaultAllocator where
  allocate := fun a address _ isInstruction =>
    a.allocate address isInstruction pick
  handlePageTableAllocations := fun a _ =>
    let taken := a.memory.handlePageTableAllocations 4096
    (taken.1, a.setMemory taken.2)
  handlePageTableDeallocations := fun a =>
    a.setMemory (a.memory.handlePageTableDeallocations 4096)

theorem setMemory_memory
    (a : FaultAllocator) :
    a.setMemory a.memory = a := by
  cases a with
  | baseline a => rfl
  | reserve thp memory => rfl

theorem setMemory_setMemory
    (m m' : PhysicalMemoryAllocator)
    (a : FaultAllocator) :
    (a.setMemory m).setMemory m' = a.setMemory m' := by
  cases a with
  | baseline a => rfl
  | reserve thp memory => rfl

theorem handlePageTableAllocations_calls
    (pick coreId : Nat)
    (a : FaultAllocator) :
    (calls pick).handlePageTableAllocations a coreId =
      ((a.memory.handlePageTableAllocations 4096).1,
        a.setMemory
          (a.memory.handlePageTableAllocations 4096).2) := rfl

theorem takeFrames_calls
    (pick coreId n : Nat)
    (a : FaultAllocator) :
    (calls pick).takeFrames coreId n a =
      (SniperExceptionHandler.takeFrames n a.memory).map
        (fun taken => (taken.1, a.setMemory taken.2)) := by
  induction n generalizing a with
  | zero =>
      rw [AllocatorCalls.takeFrames,
        SniperExceptionHandler.takeFrames, Option.map_some,
        setMemory_memory]
  | succ n ih =>
      have hRest := ih (a.setMemory
        (a.memory.handlePageTableAllocations 4096).2)
      rw [memory_setMemory] at hRest
      simp only [AllocatorCalls.takeFrames,
        SniperExceptionHandler.takeFrames,
        handlePageTableAllocations_calls, hRest]
      by_cases hFatal :
          (a.memory.handlePageTableAllocations 4096).1 = invalidPpn
      · rw [if_pos hFatal, if_pos hFatal, Option.map_none]
      · rw [if_neg hFatal, if_neg hFatal, Option.map_map,
          Option.map_map]
        simp only [Function.comp_def, setMemory_setMemory]

end FaultAllocator

namespace SniperExceptionHandler

/- The tables of a system without their past. -/
def memoryOf (s : System) : Radix.Memory FaultAllocator :=
  ⟨s.allocator, fun app => (s.tables app).table⟩

/- The simulator around an access, with MimicOS out of user
   space. -/
def simulator
    (cores : Nat → Option Radix.Core)
    (x : Access) : Radix.Simulator FaultAllocator :=
  ⟨FaultAllocator.calls x.pick, false, cores⟩

variable {memorySize maxOrder kernelSize : Nat}
variable {cores : Nat → Option Radix.Core}
variable {s : System} {x : Access}

/- A fault that can be served before a restart. -/
theorem handles_of_serviceable
    (hMemory : memorySize < 2 ^ 31)
    (hKernel : kernelSize < 2 ^ 31)
    (hInv : Inv memorySize kernelSize s)
    (hServe : Serviceable s x)
    (hCore : cores x.app = some ⟨.sniper, some x.app⟩)
    (hData : x.isInstruction = false)
    {r : PTWResult}
    (hWalk : walk s x = some r)
    (hFault : r.isPagefault = true) :
    Radix.Handles (simulator cores x) x.app (memoryOf s) x.va := by
  rcases hServe r hWalk hFault with ⟨hRoom, hReady⟩
  rcases FaultAllocator.allocate_of_ready hMemory hKernel
    hInv.sound hReady with
    ⟨ppn, size, a', hAllocate, hProvides⟩
  rw [hData] at hAllocate
  have hLevels := (hInv.tables x.app).levels
  have hEnd := hInv.sound.kernelEnd
  -- four frames do not wrap the pointer
  have hBound : a'.memory.kernelStartAddress + 4096 * 4 <
      2 ^ 64 := by
    rw [hProvides.memory]
    omega
  have hTaken : (simulator cores x).calls.takeFrames x.app
      ((memoryOf s).tables x.app).levels a' =
        (SniperExceptionHandler.takeFrames 4 a'.memory).map
          (fun taken => (taken.1, a'.setMemory taken.2)) := by
    rw [show ((memoryOf s).tables x.app).levels = 4 from hLevels]
    exact FaultAllocator.takeFrames_calls x.pick x.app 4 a'
  rw [takeFrames_eq 4 hBound, Option.map_some] at hTaken
  have hUnmapped : Radix.mappingOf (s.tables x.app).past
      (Radix.pageOf x.va) = none := by
    rcases Radix.agrees_of_inv (hInv.tables x.app) x.va with
      ⟨r', hWalk', -, hFault'⟩
    have hSame : r' = r :=
      Option.some.inj (hWalk'.symm.trans hWalk)
    rw [hSame, hFault] at hFault'
    exact Option.isNone_iff_eq_none.mp hFault'.symm
  exact
    { faults := ⟨r, hWalk, hFault⟩
      sniperSpace := rfl
      core := hCore
      provides := ⟨ppn, size, a', _, _, hAllocate,
        hProvides.valid, hTaken,
        Radix.takes_of_inv (hInv.tables x.app)
          (hInv.grows x.app) hUnmapped size⟩ }

/-
  In every run whose faults the allocator has memory for, the
  untimed translation of the data that is accessed next is as
  it should be, if the core with the number of its application
  runs it with this handler.
-/
theorem perfect_along
    (hMemory : memorySize < 2 ^ 31)
    (hKernel : kernelSize < 2 ^ 31)
    {a : FaultAllocator}
    (hConstructed : a.Constructed memorySize maxOrder kernelSize)
    {front : List Access}
    (hAlong : Run.Along step Serviceable (start a) (front ++ [x]))
    (hRun : Run.run step (start a) front = some s)
    (hCore : cores x.app = some ⟨.sniper, some x.app⟩)
    (hData : x.isInstruction = false) :
    (Radix.walkDesign (simulator cores x) x.app).Perfect
      (memoryOf s) x.va := by
  have hReached := Run.along_inv
    (fun s x s' hInv hServe hStep => by
      rcases step_inv hMemory hKernel hInv hServe with
        ⟨s'', hOutcome, hNext⟩
      rw [hStep, Option.some.injEq] at hOutcome
      exact hOutcome ▸ hNext)
    (inv_start hKernel hConstructed) hAlong
    (List.prefix_append front [x]) hRun
  rcases Radix.agrees_of_inv (hReached.1.tables x.app) x.va
    with ⟨r, hWalk, hTranslation, hFault⟩
  rw [Radix.perfect_iff_handles]
  cases hIs : r.isPagefault with
  | false =>
      rw [hIs, eq_comm, Option.isNone_eq_false_iff,
        Option.isSome_iff_exists] at hFault
      rcases hFault with ⟨page, hPage⟩
      exact Or.inl ⟨page, r, hWalk, hIs, hTranslation.trans hPage⟩
  | true =>
      exact Or.inr (handles_of_serviceable hMemory hKernel
        hReached.1 (hReached.2 x (List.prefix_refl _)) hCore
        hData hWalk hIs)

/- Two cores, each of which runs the application with its
   number. -/
def twoCores (coreId : Nat) : Option Radix.Core :=
  if coreId < 2 then some ⟨.sniper, some coreId⟩ else none

/- A second application accesses memory after a first one. -/
theorem perfect_along_apps :
    ∃ thp ∈ ReserveThp.construct 4 9 1 (1 / 512),
      ∃ s, Run.run step (start (.reserve thp
            (PhysicalMemoryAllocator.construct 1)))
          [⟨0, 4096, false, 0⟩] = some s ∧
        (Radix.walkDesign
          (simulator twoCores ⟨1, 2 ^ 21, false, 0⟩)
          1).Perfect (memoryOf s) (2 ^ 21) := by
  have hServed :
      ∃ thp ∈ ReserveThp.construct 4 9 1 (1 / 512),
        Run.Along step Serviceable (start (.reserve thp
            (PhysicalMemoryAllocator.construct 1)))
          [⟨0, 4096, false, 0⟩, ⟨1, 2 ^ 21, false, 0⟩] ∧
        (Run.run step (start (.reserve thp
            (PhysicalMemoryAllocator.construct 1)))
          [⟨0, 4096, false, 0⟩]).isSome = true := by
    decide +kernel
  rcases hServed with ⟨thp, hConstruct, hAlong, hSome⟩
  rcases Option.isSome_iff_exists.mp hSome with ⟨s, hRun⟩
  have hConstructed : FaultAllocator.Constructed 4 9 1
      (.reserve thp (PhysicalMemoryAllocator.construct 1)) :=
    .reserve hConstruct []
  exact ⟨thp, hConstruct, s, hRun, perfect_along (by decide)
    (by decide) hConstructed hAlong hRun rfl rfl⟩

end SniperExceptionHandler

/-
  A table whose walk restarts with nothing done: the page
  fault is still to be handled there.
-/
def WalkDesign.unhandled
    {σ : Type}
    (walk : σ → Nat → Option PTWResult) : WalkDesign σ :=
  ⟨walk, fun s _ => some ([], s)⟩

/- The table of HDC, which handles no fault. -/
def Hdc.walkDesign
    (c : Hdc.Config) : WalkDesign Hdc.PageTableHDC :=
  .unhandled (Hdc.initializeWalk c)

/- The chained table, which handles no fault. -/
def Ht.walkDesign
    (c : Ht.Config) : WalkDesign Ht.PageTableHT :=
  .unhandled (fun t address =>
    some (Ht.initializeWalk c t address))

/- The cuckoo table, which handles no fault. -/
def Cuckoo.walkDesign
    (c : Cuckoo.Config) : WalkDesign Cuckoo.PageTableCuckoo :=
  .unhandled (fun t address =>
    some (Cuckoo.initializeWalk c t address))

/-
  The untimed translation over each table, in any state. The
  hash tables translate the mapped addresses only.
-/
theorem perfect_iff
    (address : Nat) :
    (∀ (α : Type) (m : Radix.Simulator α) app s,
      (Radix.walkDesign m app).Perfect s address ↔
        (Radix.walkDesign m app).Mapped s address ∨
          Radix.Handles m app s address) ∧
    (∀ c t, (Hdc.walkDesign c).Perfect t address ↔
      (Hdc.walkDesign c).Mapped t address) ∧
    (∀ c t, (Ht.walkDesign c).Perfect t address ↔
      (Ht.walkDesign c).Mapped t address) ∧
    ∀ c t, (Cuckoo.walkDesign c).Perfect t address ↔
      (Cuckoo.walkDesign c).Mapped t address :=
  ⟨fun _ m app s => Radix.perfect_iff_handles m app s address,
    fun _ _ => WalkDesign.perfect_iff_mapped (fun _ => rfl),
    fun _ _ => WalkDesign.perfect_iff_mapped (fun _ => rfl),
    fun _ _ => WalkDesign.perfect_iff_mapped (fun _ => rfl)⟩

instance
    {σ : Type}
    (d : WalkDesign σ)
    (s : σ)
    (address : Nat) :
    Decidable (d.Faults s address) :=
  inferInstanceAs (Decidable (∃ r,
    r ∈ d.walk s address ∧ r.isPagefault = true))

/-
  The page 0x5000 is not mapped after a run of each of the
  hash tables, and its walk restarts for ever.
-/
theorem not_perfect_unmapped :
    (∃ t, Run.run (Hdc.step Hdc.oneSlot)
        (Hdc.construct (fun _ => 1) 0) bothSizes = some t ∧
      ¬ (Hdc.walkDesign Hdc.oneSlot).Perfect t 0x5000 ∧
      ∀ fuel, (Hdc.walkDesign
        Hdc.oneSlot).translateWithoutTiming 0x5000 fuel t =
          .running) ∧
    (∃ t, Run.run (Ht.step Ht.oneBucket)
        (Ht.construct (fun _ => 1) 0) bothSizes = some t ∧
      ¬ (Ht.walkDesign Ht.oneBucket).Perfect t 0x5000 ∧
      ∀ fuel, (Ht.walkDesign
        Ht.oneBucket).translateWithoutTiming 0x5000 fuel t =
          .running) ∧
    ∃ t, Run.run (Cuckoo.operate Cuckoo.halfFull 4)
        (Cuckoo.construct (fun _ => 2)) bothSizes = some t ∧
      ¬ (Cuckoo.walkDesign Cuckoo.halfFull).Perfect t 0x5000 ∧
      ∀ fuel, (Cuckoo.walkDesign
        Cuckoo.halfFull).translateWithoutTiming 0x5000 fuel
          t = .running := by
  have hHdc : ∃ t ∈ Run.run (Hdc.step Hdc.oneSlot)
      (Hdc.construct (fun _ => 1) 0) bothSizes,
      (Hdc.walkDesign Hdc.oneSlot).Faults t 0x5000 := by
    decide +kernel
  have hHt : ∃ t ∈ Run.run (Ht.step Ht.oneBucket)
      (Ht.construct (fun _ => 1) 0) bothSizes,
      (Ht.walkDesign Ht.oneBucket).Faults t 0x5000 := by
    decide +kernel
  have hCuckoo : ∃ t ∈ Run.run
      (Cuckoo.operate Cuckoo.halfFull 4)
      (Cuckoo.construct (fun _ => 2)) bothSizes,
      (Cuckoo.walkDesign Cuckoo.halfFull).Faults t 0x5000 := by
    decide +kernel
  rcases hHdc with ⟨t₁, hRun₁, hFaults₁⟩
  rcases hHt with ⟨t₂, hRun₂, hFaults₂⟩
  rcases hCuckoo with ⟨t₃, hRun₃, hFaults₃⟩
  refine ⟨⟨t₁, hRun₁, ?_, fun fuel => ?_⟩,
    ⟨t₂, hRun₂, ?_, fun fuel => ?_⟩,
    t₃, hRun₃, ?_, fun fuel => ?_⟩
  · exact WalkDesign.not_perfect_of_faults (fun _ => rfl) hFaults₁
  · exact WalkDesign.translateWithoutTiming_eq_running rfl
      hFaults₁ fuel
  · exact WalkDesign.not_perfect_of_faults (fun _ => rfl) hFaults₂
  · exact WalkDesign.translateWithoutTiming_eq_running rfl
      hFaults₂ fuel
  · exact WalkDesign.not_perfect_of_faults (fun _ => rfl) hFaults₃
  · exact WalkDesign.translateWithoutTiming_eq_running rfl
      hFaults₃ fuel

end Virtuoso
