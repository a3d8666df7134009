import Mathlib.Tactic.NormNum
import Virtuoso.ExceptionHandler.Allocation
import Virtuoso.Lib.Run

/-
  Page faults that leave the walk successful.

  Every run whose faults the allocator has memory for keeps
  the frames of all page tables below the pointer for kernel
  memory. The frames of a later fault lie at the pointer, and
  its page lies behind the kernel, so that neither is a frame
  of a table.

  Main declarations:
    * `SniperExceptionHandler.resolves_along`
-/

------------------------------------------------------------
-- Frames
------------------------------------------------------------

namespace Virtuoso

/- A walk asks for fewer frames than there are levels. -/
theorem Radix.requestedFrames_lt
    {levels address : Nat}
    {sizes : List Nat}
    (level : Nat)
    (f : PTFrame)
    {r : PTWResult}
    (hWalk : walk levels sizes address level f = some r)
    (hFault : r.isPagefault = true) :
    r.requestedFrames < level := by
  replace hWalk := walks_of_walk hWalk
  induction hWalk with
  | @absent level => exact Nat.lt_succ_self level
  | leaf _ _ _ => cases hFault
  | through _ _ _ _ ih => exact Nat.lt_succ_of_lt (ih hFault)

namespace PhysicalMemoryAllocator

variable {m : PhysicalMemoryAllocator}

theorem allocate_page
    (hRoom : m.kernelStartAddress + 4096 < 2 ^ 64) :
    m.handlePageTableAllocations 4096 =
      (m.kernelStartAddress / 4096,
        { m with
          kernelStartAddress :=
            m.kernelStartAddress + 4096 }) := by
  unfold handlePageTableAllocations
  rw [Nat.mod_eq_of_lt hRoom]

theorem sub_wrap
    {bytes top pointer : Nat}
    (hBytes : bytes < top)
    (hLow : bytes ≤ pointer)
    (hHigh : pointer < top) :
    (pointer + (top - bytes % top)) % top = pointer - bytes := by
  rw [Nat.mod_eq_of_lt hBytes]
  have hSplit : pointer + (top - bytes) =
      pointer - bytes + top := by
    omega
  rw [hSplit, Nat.add_mod_right]
  apply Nat.mod_eq_of_lt
  omega

theorem deallocate_page
    (hLow : 4096 ≤ m.kernelStartAddress)
    (hHigh : m.kernelStartAddress < 2 ^ 64) :
    m.handlePageTableDeallocations 4096 =
      { m with
        kernelStartAddress := m.kernelStartAddress - 4096 } := by
  unfold handlePageTableDeallocations
  rw [sub_wrap (by decide) hLow hHigh]

end PhysicalMemoryAllocator

namespace SniperExceptionHandler

/- The frames are the pages from the pointer on. -/
theorem takeFrames_eq
    (n : Nat)
    {m : PhysicalMemoryAllocator}
    (hRoom : m.kernelStartAddress + 4096 * n < 2 ^ 64) :
    takeFrames n m =
      some (List.range' (m.kernelStartAddress / 4096) n,
        { m with
          kernelStartAddress :=
            m.kernelStartAddress + 4096 * n }) := by
  induction n generalizing m with
  | zero => rfl
  | succ n ih =>
      have hSum : m.kernelStartAddress + 4096 + 4096 * n =
          m.kernelStartAddress + 4096 * (n + 1) := by
        rw [Nat.mul_succ]
        omega
      rw [← hSum] at hRoom
      have hFirst : m.kernelStartAddress + 4096 < 2 ^ 64 := by
        omega
      have hBelow : m.kernelStartAddress < invalidPpn := by
        unfold invalidPpn
        omega
      have hValid : m.kernelStartAddress / 4096 ≠ invalidPpn :=
        Nat.ne_of_lt (Nat.lt_of_le_of_lt
          (Nat.div_le_self m.kernelStartAddress 4096) hBelow)
      have hPage : (m.kernelStartAddress + 4096) / 4096 =
          m.kernelStartAddress / 4096 + 1 :=
        Nat.add_div_right _ (by decide)
      have hRest := @ih
        { m with
          kernelStartAddress := m.kernelStartAddress + 4096 }
        hRoom
      rw [hPage, hSum] at hRest
      unfold takeFrames
      rw [PhysicalMemoryAllocator.allocate_page hFirst]
      simp only [if_neg hValid, hRest, Option.map_some,
        List.range'_succ]

theorem giveBack_eq
    (n : Nat)
    {m : PhysicalMemoryAllocator}
    (hLow : 4096 * n ≤ m.kernelStartAddress)
    (hHigh : m.kernelStartAddress < 2 ^ 64) :
    giveBack n m =
      { m with
        kernelStartAddress :=
          m.kernelStartAddress - 4096 * n } := by
  induction n generalizing m with
  | zero => rfl
  | succ n ih =>
      rw [Nat.mul_succ] at hLow
      have hFirst : 4096 ≤ m.kernelStartAddress := by
        omega
      have hSum : m.kernelStartAddress - 4096 - 4096 * n =
          m.kernelStartAddress - 4096 * (n + 1) := by
        rw [Nat.mul_succ]
        omega
      have hRest := @ih
        { m with
          kernelStartAddress := m.kernelStartAddress - 4096 }
        (Nat.le_sub_of_add_le (by omega))
        (Nat.lt_of_le_of_lt (Nat.sub_le _ _) hHigh)
      rw [hSum] at hRest
      unfold giveBack
      rw [PhysicalMemoryAllocator.deallocate_page hFirst hHigh]
      exact hRest

------------------------------------------------------------
-- Faults
------------------------------------------------------------

/- A frame of some page table. -/
def Keeps (s : System) (n : Nat) : Prop :=
  ∃ app, (s.tables app).table.root.Holds n

/-
  If the access faults, kernel memory is not used up and the
  allocator has a page.
-/
def Serviceable (s : System) (x : Access) : Prop :=
  ∀ r, r ∈ walk s x → r.isPagefault = true →
    s.allocator.memory.kernelStartAddress ≤
        s.allocator.memory.kernelEndAddress ∧
      s.allocator.Ready x.address x.isInstruction x.pick

instance
    (s : System)
    (x : Access) :
    Decidable (Serviceable s x) :=
  inferInstanceAs (Decidable (∀ r, r ∈ walk s x →
    r.isPagefault = true → _ ∧ _))

/- What the handler has to do for a walk that faulted. -/
structure Resolved
    (s : System)
    (x : Access)
    (r : PTWResult)
    (handled : Handled)
    (s' : System)
    (ppn : Nat) : Prop where
  placed : handled.ppn = some ppn
  enough : handled.used ≤ r.requestedFrames
  walks : ∃ r', walk s' x = some r' ∧
    r'.isPagefault = false ∧
    r'.translation = some (ppn, handled.pageSize.bits)
  pointer : s'.allocator.memory.kernelStartAddress =
    s.allocator.memory.kernelStartAddress + 4096 * handled.used
  kept : ∀ n, Keeps s' n →
    Keeps s n ∨ n ∈ handled.frames.take handled.used
  framesNew : ∀ n, Keeps s n → n ∉ handled.frames
  pageNew : ∀ n, Keeps s n →
    ¬ (ppn ≤ n ∧ n < ppn + handled.pageSize.pages)

/- A walk that faults is followed by one that does not. -/
def Resolves (s : System) (x : Access) : Prop :=
  ∃ r, walk s x = some r ∧
    (r.isPagefault = true →
      ∃ handled s' ppn,
        handlePageFault s x r.requestedFrames = some (handled, s') ∧
        Resolved s x r handled s' ppn)

/- The frames of the tables lie below the pointer. -/
structure Inv
    (memorySize kernelSize : Nat)
    (s : System) : Prop where
  sound : s.allocator.Sound memorySize kernelSize
  tables : ∀ app, Radix.Inv (s.tables app)
  grows : ∀ app, Radix.Grows (s.tables app).past
  below : ∀ n, Keeps s n →
    n * 4096 < s.allocator.memory.kernelStartAddress

variable {memorySize maxOrder kernelSize : Nat}
variable {s : System} {x : Access}

theorem pageOf_address
    (x : Access) :
    Radix.pageOf x.address = Radix.pageOf x.va := by
  unfold Radix.pageOf Access.address
  rw [Nat.mul_div_cancel _ (by decide)]

/- The update of a fault for the page that was placed. -/
theorem update_of_fault
    {session : Radix.Session}
    (hInv : Radix.Inv session)
    (hGrows : Radix.Grows session.past)
    {r : PTWResult}
    (hWalk : Radix.initializeWalk session.table x.va = some r)
    (hFault : r.isPagefault = true)
    {ppn : Nat}
    (hValid : ppn ≠ invalidPpn)
    (size : PageSize)
    {frames : List Nat}
    (hFrames : r.requestedFrames ≤ frames.length) :
    ∃ used table,
      Radix.updatePageTableFrames session.table x.address ppn
        size frames = some (used, table) ∧
      Radix.Inv ⟨table,
        .update x.address ppn size frames :: session.past⟩ := by
  have hSupplied : Radix.Supplied session
      (.update x.address ppn size frames) :=
    Radix.supplied_of_walk hInv hWalk hFault hFrames
  have hUnmapped :
      Radix.mappingOf session.past (Radix.pageOf x.va) = none := by
    rcases Radix.agrees_of_inv hInv x.va with
      ⟨r', hWalk', -, hFault'⟩
    rw [hWalk, Option.some.injEq] at hWalk'
    rw [← hWalk', hFault] at hFault'
    exact Option.isNone_iff_eq_none.mp hFault'.symm
  have hReach : Radix.WithinReach session
      (.update x.address ppn size frames) := by
    cases size with
    | fourKb =>
        refine ⟨hValid, ?_⟩
        rw [pageOf_address]
        exact Radix.mapsLargeIn_of_unmapped hGrows hUnmapped
    | twoMb => exact hValid
  rcases Radix.step_inv hInv _ hSupplied hReach with
    ⟨session', hStep, hNext⟩
  rcases Option.map_eq_some_iff.mp hStep with
    ⟨updated, hUpdate, hEq⟩
  rw [← hEq] at hNext
  exact ⟨updated.1, updated.2, hUpdate, hNext⟩

/- The walk after the update finds the page. -/
theorem walk_after_update
    {table : Radix.PageTableRadix}
    {past : List Radix.Op}
    {ppn : Nat}
    {size : PageSize}
    {frames : List Nat}
    (hInv : Radix.Inv ⟨table,
      .update x.address ppn size frames :: past⟩) :
    ∃ r, Radix.initializeWalk table x.va = some r ∧
      r.isPagefault = false ∧
      r.translation = some (ppn, size.bits) := by
  rcases Radix.agrees_of_inv hInv x.va with
    ⟨r, hWalk, hTranslation, hFault⟩
  have hMapped : Radix.mappingOf
      (.update x.address ppn size frames :: past)
        (Radix.pageOf x.va) = some (ppn, size.bits) := by
    simp only [Radix.mappingOf, Mapping.map, pageOf_address,
      if_true]
  rw [hMapped] at hTranslation hFault
  exact ⟨r, hWalk, hFault, hTranslation⟩

/- The state after a fault that used some of its frames. -/
def afterFault
    (s : System)
    (x : Access)
    (a : FaultAllocator)
    (pointer : Nat)
    (session : Radix.Session) : System :=
  ⟨a.setMemory
      { a.memory with kernelStartAddress := pointer },
    Function.update s.tables x.app session⟩

theorem tables_afterFault
    (a : FaultAllocator)
    (pointer : Nat)
    (session : Radix.Session) :
    (afterFault s x a pointer session).tables =
      Function.update s.tables x.app session := rfl

variable {a : FaultAllocator}

/- The frames of the tables after a fault. -/
theorem keeps_afterFault
    {pointer : Nat}
    {session : Radix.Session}
    {taken : List Nat}
    (hHolds : ∀ n, session.table.root.Holds n →
      (s.tables x.app).table.root.Holds n ∨ n ∈ taken)
    {n : Nat}
    (hKeeps : Keeps (afterFault s x a pointer session) n) :
    Keeps s n ∨ n ∈ taken := by
  rcases hKeeps with ⟨app, hIn⟩
  rw [tables_afterFault] at hIn
  by_cases hApp : app = x.app
  · subst hApp
    rw [Function.update_self] at hIn
    exact (hHolds n hIn).imp_left (fun hOld => ⟨_, hOld⟩)
  · rw [Function.update_of_ne hApp] at hIn
    exact Or.inl ⟨app, hIn⟩

/- The invariant after a fault that took frames. -/
theorem inv_afterFault
    (hInv : Inv memorySize kernelSize s)
    {ppn used : Nat}
    {size : PageSize}
    (hProvides :
      s.allocator.Provides memorySize kernelSize ppn size a)
    {table : Radix.PageTableRadix}
    {frames taken : List Nat}
    (hTable : Radix.Inv ⟨table,
      .update x.address ppn size frames :: (s.tables x.app).past⟩)
    (hHolds : ∀ n, table.root.Holds n →
      (s.tables x.app).table.root.Holds n ∨ n ∈ taken)
    (hTaken : ∀ n ∈ taken, n <
      s.allocator.memory.kernelStartAddress / 4096 + used) :
    Inv memorySize kernelSize (afterFault s x a
      (s.allocator.memory.kernelStartAddress + 4096 * used)
      ⟨table, .update x.address ppn size frames ::
        (s.tables x.app).past⟩) := by
  have hAligned := hInv.sound.aligned
  have hPositive := hInv.sound.positive
  refine ⟨?_, ?_, ?_, ?_⟩
  · exact hProvides.sound.setPointer
      (Nat.dvd_add hAligned (Nat.dvd_mul_right 4096 used))
      (by omega)
  · intro app
    rw [tables_afterFault]
    by_cases hApp : app = x.app
    · subst hApp
      rw [Function.update_self]
      exact hTable
    · rw [Function.update_of_ne hApp]
      exact hInv.tables app
  · intro app
    rw [tables_afterFault]
    by_cases hApp : app = x.app
    · subst hApp
      rw [Function.update_self]
      intro address hMem
      rcases List.mem_cons.mp hMem with hNew | hOld
      · cases hNew
      · exact hInv.grows x.app address hOld
    · rw [Function.update_of_ne hApp]
      exact hInv.grows app
  · intro n hKeeps
    have hPage := Nat.div_mul_cancel hAligned
    simp only [afterFault, FaultAllocator.memory_setMemory]
    rcases keeps_afterFault hHolds hKeeps with hOld | hNew
    · have hBelow := hInv.below n hOld
      omega
    · have hLess := hTaken n hNew
      omega

/- A fault that the allocator has memory for. -/
theorem handlePageFault_spec
    (hMemory : memorySize < 2 ^ 31)
    (hKernel : kernelSize < 2 ^ 31)
    (hInv : Inv memorySize kernelSize s)
    (hServe : Serviceable s x)
    {r : PTWResult}
    (hWalk : walk s x = some r)
    (hFault : r.isPagefault = true) :
    ∃ handled s' ppn,
      handlePageFault s x r.requestedFrames = some (handled, s') ∧
      Resolved s x r handled s' ppn ∧
      Inv memorySize kernelSize s' := by
  rcases hServe r hWalk hFault with ⟨hRoom, hReady⟩
  have hSound := hInv.sound
  rcases FaultAllocator.allocate_of_ready hMemory hKernel
    hSound hReady with ⟨ppn, size, a', hAllocate, hProvides⟩
  have hFew : r.requestedFrames < 4 := by
    have hLess := Radix.requestedFrames_lt _ _ hWalk hFault
    rw [(hInv.tables x.app).levels] at hLess
    exact hLess
  have hPointer := hProvides.memory
  have hStart := hSound.positive
  have hEnd := hSound.kernelEnd
  -- three frames do not wrap the pointer
  have hBound : a'.memory.kernelStartAddress +
      4096 * r.requestedFrames < 2 ^ 64 := by
    rw [hPointer]
    omega
  have hTaken := takeFrames_eq r.requestedFrames hBound
  generalize hFrames : List.range'
    (a'.memory.kernelStartAddress / 4096)
    r.requestedFrames = frames at hTaken
  have hLength : frames.length = r.requestedFrames := by
    rw [← hFrames, List.length_range']
  rcases update_of_fault (hInv.tables x.app)
    (hInv.grows x.app) hWalk hFault hProvides.valid size
    (Nat.le_of_eq hLength.symm) with
    ⟨used, table, hUpdate, hTable⟩
  rcases Radix.updatePageTableFrames_holds hUpdate with
    ⟨hUsed, hHolds⟩
  rw [hLength] at hUsed
  have hBack := giveBack_eq (r.requestedFrames - used)
    (m := { a'.memory with
      kernelStartAddress := a'.memory.kernelStartAddress +
        4096 * r.requestedFrames })
    (by simp only; omega) hBound
  have hSum : a'.memory.kernelStartAddress +
      4096 * r.requestedFrames -
        4096 * (r.requestedFrames - used) =
          s.allocator.memory.kernelStartAddress + 4096 * used := by
    rw [hPointer]
    omega
  simp only [hSum] at hBack
  have hRange : ∀ n ∈ frames,
      s.allocator.memory.kernelStartAddress / 4096 ≤ n := by
    intro n hMem
    rw [← hFrames, hPointer] at hMem
    exact (List.mem_range'_1.mp hMem).1
  have hFront : ∀ n ∈ frames.take used, n <
      s.allocator.memory.kernelStartAddress / 4096 + used := by
    intro n hMem
    rw [← hFrames, hPointer,
      List.take_range'_of_length_ge hUsed] at hMem
    exact (List.mem_range'_1.mp hMem).2
  have hHandled : handlePageFault s x r.requestedFrames =
      some (⟨some ppn, size, frames, used⟩,
        afterFault s x a'
          (s.allocator.memory.kernelStartAddress + 4096 * used)
          ⟨table, .update x.address ppn size frames ::
            (s.tables x.app).past⟩) := by
    simp only [handlePageFault, hAllocate, hTaken, hUpdate,
      Option.bind_some, Option.map_some, Option.getD_some,
      hBack, afterFault]
  refine ⟨_, _, ppn, hHandled, ⟨rfl, hUsed, ?_, ?_, ?_, ?_, ?_⟩,
    inv_afterFault hInv hProvides hTable hHolds hFront⟩
  · simp only [walk, afterFault, Function.update_self]
    exact walk_after_update hTable
  · simp only [afterFault, FaultAllocator.memory_setMemory]
  · intro n hKeeps
    exact keeps_afterFault hHolds hKeeps
  · intro n hKeeps hMem
    have hBelow := hInv.below n hKeeps
    have hAbove := hRange n hMem
    have hPage := Nat.div_mul_cancel hSound.aligned
    omega
  · intro n hKeeps hIn
    have hBelow := hInv.below n hKeeps
    have hLow := hProvides.low
    omega

/- The invariant holds after every step. -/
theorem step_inv
    (hMemory : memorySize < 2 ^ 31)
    (hKernel : kernelSize < 2 ^ 31)
    (hInv : Inv memorySize kernelSize s)
    (hServe : Serviceable s x) :
    ∃ s', step s x = some s' ∧ Inv memorySize kernelSize s' := by
  rcases Radix.agrees_of_inv (hInv.tables x.app) x.va with
    ⟨r, hWalk, -, -⟩
  have hHere : walk s x = some r := hWalk
  cases hFault : r.isPagefault with
  | false =>
      refine ⟨s, ?_, hInv⟩
      simp [step, hHere, hFault]
  | true =>
      rcases handlePageFault_spec hMemory hKernel hInv hServe
        hHere hFault with
        ⟨handled, s', ppn, hHandled, -, hNext⟩
      refine ⟨s', ?_, hNext⟩
      simp [step, hHere, hFault, hHandled]

/- Every access that can be served is resolved. -/
theorem resolves_of_inv
    (hMemory : memorySize < 2 ^ 31)
    (hKernel : kernelSize < 2 ^ 31)
    (hInv : Inv memorySize kernelSize s)
    (hServe : Serviceable s x) :
    Resolves s x := by
  rcases Radix.agrees_of_inv (hInv.tables x.app) x.va with
    ⟨r, hWalk, -, -⟩
  refine ⟨r, hWalk, fun hFault => ?_⟩
  rcases handlePageFault_spec hMemory hKernel hInv hServe
    hWalk hFault with
    ⟨handled, s', ppn, hHandled, hResolved, -⟩
  exact ⟨handled, s', ppn, hHandled, hResolved⟩

theorem inv_start
    (hKernel : kernelSize < 2 ^ 31)
    (hConstructed : a.Constructed memorySize maxOrder kernelSize) :
    Inv memorySize kernelSize (start a) := by
  have hSound :=
    FaultAllocator.sound_constructed hKernel hConstructed
  refine ⟨hSound, fun app => Radix.inv_start, ?_, ?_⟩
  · intro app address hMem
    cases hMem
  · intro n hKeeps
    rcases hKeeps with ⟨app, hHolds⟩
    have hZero : n = 0 := Radix.holds_newFrame hHolds
    have hPositive : 4096 ≤
      (start a).allocator.memory.kernelStartAddress :=
        hSound.positive
    rw [hZero, Nat.zero_mul]
    exact Nat.lt_of_lt_of_le (by decide) hPositive

/-
  In every run whose faults the allocator has memory for,
  every fault is resolved. The sizes are of type `int`.
-/
theorem resolves_along
    (memorySize maxOrder kernelSize : Nat)
    (hMemory : memorySize < 2 ^ 31)
    (hKernel : kernelSize < 2 ^ 31)
    (a : FaultAllocator)
    (hConstructed : a.Constructed memorySize maxOrder kernelSize)
    (xs : List Access)
    (hAlong : Run.Along step Serviceable (start a) xs) :
    ∀ front, front <+: xs →
      ∃ s, Run.run step (start a) front = some s ∧
        ∀ x, front ++ [x] <+: xs → Resolves s x := by
  intro front hFront
  have hInit : Inv memorySize kernelSize (start a) :=
    inv_start hKernel hConstructed
  rcases Run.run_total
    (fun _ _ hInv hServe =>
      step_inv hMemory hKernel hInv hServe)
    (start a) front hInit (hAlong.of_prefix hFront) with
    ⟨s, hRun, -⟩
  have hReached := Run.along_inv
    (fun s x s' hInv hServe hStep => by
      rcases step_inv hMemory hKernel hInv hServe with
        ⟨s'', hOutcome, hNext⟩
      rw [hStep, Option.some.injEq] at hOutcome
      exact hOutcome ▸ hNext)
    hInit hAlong hFront hRun
  exact ⟨s, hRun, fun x hNext =>
    resolves_of_inv hMemory hKernel hReached.1 (hReached.2 x hNext)⟩

/- Two applications fault in different regions. -/
theorem resolves_along_apps :
    ∃ thp ∈ ReserveThp.construct 4 9 1 (1 / 512),
      ∃ s, Run.run step
          (start (.reserve thp
            (PhysicalMemoryAllocator.construct 1)))
          [⟨0, 4096, false, 0⟩, ⟨0, 8192, false, 0⟩] = some s ∧
        Resolves s ⟨1, 2 ^ 21, false, 0⟩ := by
  have hServed :
      ∃ thp ∈ ReserveThp.construct 4 9 1 (1 / 512),
        Run.Along step Serviceable
          (start (.reserve thp
            (PhysicalMemoryAllocator.construct 1)))
          [⟨0, 4096, false, 0⟩, ⟨0, 8192, false, 0⟩,
            ⟨1, 2 ^ 21, false, 0⟩] := by
    decide +kernel
  rcases hServed with ⟨thp, hConstruct, hAlong⟩
  have hConstructed : FaultAllocator.Constructed 4 9 1
      (.reserve thp (PhysicalMemoryAllocator.construct 1)) :=
    .reserve hConstruct []
  rcases resolves_along 4 9 1 (by decide) (by decide) _
    hConstructed _ hAlong
      [⟨0, 4096, false, 0⟩, ⟨0, 8192, false, 0⟩]
      (by simp) with ⟨s, hRun, hResolves⟩
  exact ⟨thp, hConstruct, s, hRun, hResolves _ (List.prefix_refl _)⟩

/-
  The region of the page was promoted for another
  application, and the allocator fails an assertion.
-/
theorem not_resolves_promoted :
    ∃ a, a.Constructed 4 9 1 ∧
      ∃ s ∈ Run.run step (start a) [⟨0, 0, false, 0⟩],
        (∃ r ∈ walk s ⟨1, 0, false, 0⟩, r.isPagefault = true) ∧
        ¬ Resolves s ⟨1, 0, false, 0⟩ := by
  have hFails :
      ∃ thp ∈ ReserveThp.construct 4 9 1 (1 / 1024),
        ∃ s ∈ Run.run step
            (start (.reserve thp
              (PhysicalMemoryAllocator.construct 1)))
            [⟨0, 0, false, 0⟩],
          ∃ r ∈ walk s ⟨1, 0, false, 0⟩,
            r.isPagefault = true ∧
              (handlePageFault s ⟨1, 0, false, 0⟩
                r.requestedFrames).isNone = true := by
    decide +kernel
  rcases hFails with
    ⟨thp, hConstruct, s, hRun, r, hWalk, hFault, hNone⟩
  refine ⟨_, .reserve hConstruct [], s, hRun,
    ⟨r, hWalk, hFault⟩, ?_⟩
  rintro ⟨r', hWalk', hResolves⟩
  have hSame : r' = r :=
    Option.some.inj (hWalk'.symm.trans hWalk)
  subst hSame
  rcases hResolves hFault with ⟨_, _, _, hHandled, -⟩
  rw [hHandled] at hNone
  cases hNone

end SniperExceptionHandler

end Virtuoso
