import Virtuoso.Utopia.Translation.Invariant

/-
  The steps of a translation and the invariant.

  A fault keeps the invariants. A translation that the page
  table serves leaves the pages where they are, or moves its
  page to a segment.

  Main declarations:
    * `Utopia.System.fault_step`
    * `Utopia.System.base_step`
-/

------------------------------------------------------------
-- Lookups, Walks And Faults
------------------------------------------------------------

namespace Virtuoso

namespace Utopia

namespace System

variable {s s' : System} {address app : Nat}

theorem pageOf_eq
    (hAddress : address < 2 ^ 48) :
    Radix.pageOf address = address / 2 ^ 12 := by
  unfold Radix.pageOf
  omega

variable {r : PTWResult}

/- A walk reports the mapping of its page. -/
theorem Base.walk_eq
    (hBase : s.Base)
    (hAddress : address < 2 ^ 48)
    (hWalk : s.initializeWalk app address = some r) :
    r.translation = Radix.mappingOf (s.pageTables app).past
        (address / 2 ^ 12) ∧
      r.isPagefault = r.translation.isNone := by
  rcases Radix.agrees_of_inv (hBase.tables app) address with
    ⟨r', hOther, hTranslation, hFault⟩
  have hEq : r' = r :=
    Option.some.inj (hOther.symm.trans hWalk)
  subst hEq
  rw [pageOf_eq hAddress] at hTranslation hFault
  exact ⟨hTranslation, by rw [hFault, hTranslation]⟩

theorem Base.exists_walk
    (hBase : s.Base)
    (app address : Nat) :
    ∃ r, s.initializeWalk app address = some r := by
  rcases Radix.agrees_of_inv (hBase.tables app) address with
    ⟨r, hWalk, _⟩
  exact ⟨r, hWalk⟩

/- A lookup hits, or the walk decides in the same state. -/
theorem afterLookup_cases
    (hForm : s.allocator.Form)
    {next : System → PTWResult → Option System}
    (hStep : s.afterLookup address app next = some s') :
    (∃ size a', s.allocator.isInRestSeg address app = (true, a') ∧
        s' = { s with allocator := a' } ∧
        s.allocator.Resident size (address / 2 ^ 12) app ∧
        s.allocator.Steady a' ∧ s.allocator.SameFlexSeg a') ∨
      (s.allocator.isInRestSeg address app = (false, s.allocator) ∧
        (∀ size,
          ¬ s.allocator.Resident size (address / 2 ^ 12) app) ∧
        ∃ r, s.initializeWalk app address = some r ∧
          next s r = some s') := by
  unfold afterLookup at hStep
  rcases Allocator.isInRestSeg_spec hForm address app with
    ⟨hMiss, hNone⟩ | ⟨size, a', hHit, hHeld, hSteady, hSame⟩
  · right
    refine ⟨hMiss, hNone, ?_⟩
    rw [hMiss] at hStep
    simp only at hStep
    cases hWalk : s.initializeWalk app address with
    | none => simp [hWalk] at hStep
    | some r =>
        simp only [hWalk] at hStep
        exact ⟨r, rfl, hStep⟩
  · left
    rw [hHit] at hStep
    simp only [Option.some.injEq] at hStep
    exact ⟨size, a', hHit, hStep.symm, hHeld, hSteady, hSame⟩

theorem length_pageTableFrames
    (n kernelStartAddress : Nat) :
    (pageTableFrames n kernelStartAddress).length = n := by
  induction n generalizing kernelStartAddress with
  | zero => rfl
  | succ n ih => simp [pageTableFrames, ih]

variable {ppn : Nat}

/- A mapping that is written passes through the radix table. -/
theorem updatePageTableFrames_eq_some
    {size : PageSize}
    {frames : List Nat}
    (hUpdate : s.updatePageTableFrames app address ppn size
      frames = some s') :
    ppn ≠ invalidPpn ∧
      ∃ table,
        Radix.step (s.pageTables app)
          (.update address ppn size frames) = some table ∧
        s' = s.setTable app table := by
  unfold updatePageTableFrames at hUpdate
  split_ifs at hUpdate with hPpn
  rcases Option.map_eq_some_iff.mp hUpdate with
    ⟨table, hStep, hEq⟩
  exact ⟨hPpn, table, hStep, hEq.symm⟩

/- The handler's frames are enough for its update. -/
theorem Base.supplied
    (hBase : s.Base)
    (hWalk : s.initializeWalk app address = some r)
    (hFault : r.isPagefault = true)
    (kernelStartAddress ppn : Nat)
    (size : PageSize) :
    Radix.Supplied (s.pageTables app)
      (.update (address / 2 ^ 12 * 2 ^ 12) ppn size
        (pageTableFrames r.requestedFrames kernelStartAddress)) :=
  Radix.supplied_of_walk (hBase.tables app) hWalk hFault
    (length_pageTableFrames _ _).ge

theorem pageOf_page
    (hAddress : address < 2 ^ 48) :
    Radix.pageOf (address / 2 ^ 12 * 2 ^ 12) =
      address / 2 ^ 12 := by
  unfold Radix.pageOf
  omega

variable {a' : Allocator}

/- The table after a page of a reserved region was written. -/
theorem Base.written_region
    (hBase : s.Base)
    (hAddress : address < 2 ^ 48)
    {promoted : Bool}
    (hUses : s.allocator.Uses a' (address / 2 ^ 12 / 512) promoted)
    {frames : List Nat}
    (hSupplied : Radix.Supplied (s.pageTables app)
      (.update (address / 2 ^ 12 * 2 ^ 12) ppn
        (if promoted then .twoMb else .fourKb) frames))
    (hUpdate : { s with allocator := a' }.updatePageTableFrames
      app (address / 2 ^ 12 * 2 ^ 12) ppn
      (if promoted then .twoMb else .fourKb) frames = some s') :
    ∃ table, s' = { s with allocator := a' }.setTable app table ∧
      Radix.Inv table ∧
      table.past = .update (address / 2 ^ 12 * 2 ^ 12) ppn
        (if promoted then .twoMb else .fourKb) frames ::
          (s.pageTables app).past := by
  rcases updatePageTableFrames_eq_some hUpdate with
    ⟨hPpn, table, hStep, hEq⟩
  have hReach : Radix.WithinReach (s.pageTables app)
      (.update (address / 2 ^ 12 * 2 ^ 12) ppn
        (if promoted then .twoMb else .fourKb) frames) := by
    cases promoted with
    | true => exact hPpn
    | false =>
        refine ⟨hPpn, ?_⟩
        intro op hMem
        rw [pageOf_page hAddress]
        by_contra hMaps
        rw [Bool.not_eq_false] at hMaps
        have hStays :=
          hUses.stays (hBase.large app op hMem _ hMaps)
        cases hStays
  rcases Radix.inv_of_step (hBase.tables app) hSupplied hReach
      hStep with ⟨hTable, hPast⟩
  exact ⟨table, hEq, hTable, hPast⟩

/- The page size written is the one of the region. -/
theorem promoted_of_size
    {region : Nat}
    {promoted : Bool}
    (hUses : s.allocator.Uses a' region promoted)
    (hSize : (if promoted then PageSize.twoMb else .fourKb) =
      .twoMb) :
    a'.Promoted region := by
  rcases hUses.own with ⟨r, hLookup, hFlag⟩
  refine ⟨r, hLookup, hFlag.trans ?_⟩
  cases promoted with
  | true => rfl
  | false => cases hSize

/- The table after a page of the buddy allocator. -/
theorem Base.written_block
    (hBase : s.Base)
    (hAddress : address < 2 ^ 48)
    (hUntracked : ¬ s.allocator.Tracked (address / 2 ^ 12 / 512))
    {ppn : Nat}
    {frames : List Nat}
    (hSupplied : Radix.Supplied (s.pageTables app)
      (.update (address / 2 ^ 12 * 2 ^ 12) ppn .fourKb frames))
    (hUpdate : { s with allocator := a' }.updatePageTableFrames
      app (address / 2 ^ 12 * 2 ^ 12) ppn .fourKb frames =
        some s') :
    ∃ table, s' = { s with allocator := a' }.setTable app table ∧
      Radix.Inv table ∧
      table.past = .update (address / 2 ^ 12 * 2 ^ 12) ppn
        .fourKb frames :: (s.pageTables app).past := by
  rcases updatePageTableFrames_eq_some hUpdate with
    ⟨hPpn, table, hStep, hEq⟩
  have hReach : Radix.WithinReach (s.pageTables app)
      (.update (address / 2 ^ 12 * 2 ^ 12) ppn .fourKb frames) := by
    refine ⟨hPpn, ?_⟩
    intro op hMem
    rw [pageOf_page hAddress]
    by_contra hMaps
    rw [Bool.not_eq_false] at hMaps
    exact hUntracked (tracked_of_promoted
      (hBase.large app op hMem _ hMaps))
  rcases Radix.inv_of_step (hBase.tables app) hSupplied hReach
      hStep with ⟨hTable, hPast⟩
  exact ⟨table, hEq, hTable, hPast⟩

/-
  All that the handler of a fault does: the page is placed in
  a segment, or written to the table of the application.
-/
inductive Handled
    (s : System)
    (page core app : Nat) :
    Option Nat × PageSize → System → Prop
  | placed {size : PageSize} {answer : Option Nat × PageSize}
      {s' : System} :
      answer =
        (s'.allocator.restSegPpn size (page * 2 ^ 12) core, size) →
      s'.allocator.lastInRestSeg = true →
      s'.pageTables = s.pageTables →
      KeepsFlexSeg s.allocator s'.allocator →
      (s.allocator.Steady s'.allocator ∧
          s.allocator.Resident size page core ∨
        s.allocator.Adds s'.allocator size page core ∧
          ¬ s.allocator.FullAt size page ∧
          (size = .fourKb →
            ¬ s.allocator.Tracked (page / 512) ∧
              s.allocator.buddy.Depleted ∧
              s.allocator.FullAt .twoMb page ∧
              ¬ s.allocator.Resident .twoMb page core)) →
      Handled s page core app answer s'
  | region {ppn : Nat} {promoted : Bool} {frames : List Nat}
      {table : Radix.Session} {s' : System} :
      s'.allocator.lastInRestSeg = false →
      s.allocator.Steady s'.allocator →
      s.allocator.FullAt .twoMb page →
      s.allocator.Uses s'.allocator (page / 512) promoted →
      s'.pageTables = Function.update s.pageTables app table →
      Radix.Inv table →
      table.past = .update (page * 2 ^ 12) ppn
        (if promoted then .twoMb else .fourKb) frames ::
          (s.pageTables app).past →
      Handled s page core app
        (some ppn, if promoted then .twoMb else .fourKb) s'
  | block {ppn : Nat} {frames : List Nat}
      {table : Radix.Session} {s' : System} :
      s'.allocator.lastInRestSeg = false →
      s.allocator.Steady s'.allocator →
      s.allocator.FullAt .twoMb page →
      s.allocator.FullAt .fourKb page →
      ¬ s.allocator.Tracked (page / 512) →
      s'.allocator.buddy.Depleted →
      s'.allocator.thpRegions = s.allocator.thpRegions →
      s'.pageTables = Function.update s.pageTables app table →
      Radix.Inv table →
      table.past = .update (page * 2 ^ 12) ppn .fourKb frames ::
        (s.pageTables app).past →
      Handled s page core app (some ppn, .fourKb) s'

variable {table : Radix.Session}

/- A page of a reserved region is written to its table. -/
theorem inv_region
    (hInv : s.Inv)
    (hAddress : address < 2 ^ 48)
    (hNone : ∀ size,
      ¬ s.allocator.Resident size (address / 2 ^ 12) app)
    {promoted : Bool}
    {frames : List Nat}
    (hSteady : s.allocator.Steady s'.allocator)
    (hLarge : s.allocator.FullAt .twoMb (address / 2 ^ 12))
    (hUses : s.allocator.Uses s'.allocator
      (address / 2 ^ 12 / 512) promoted)
    (hTables : s'.pageTables =
      Function.update s.pageTables app table)
    (hTable : Radix.Inv table)
    (hPast : table.past =
      .update (address / 2 ^ 12 * 2 ^ 12) ppn
        (if promoted then .twoMb else .fourKb) frames ::
          (s.pageTables app).past) :
    s'.Inv := by
  have hPage : address / 2 ^ 12 < 2 ^ 36 := by omega
  -- a resident 4KB page rules its region out
  have hElsewhere : ∀ page' app', page' < 2 ^ 36 →
      s.allocator.Resident .fourKb page' app' →
        page' / 512 ≠ address / 2 ^ 12 / 512 := by
    intro page' app' hPage' hResident hEq
    rcases hInv.small page' app' hPage' hResident with
      ⟨hUntracked, hDepleted, _⟩
    rcases hUses.opened with hTracked | hOpen
    · exact hUntracked (hEq ▸ hTracked)
    · exact hOpen hDepleted
  have hTracked :
      s'.allocator.Tracked (address / 2 ^ 12 / 512) := by
    rcases hUses.own with ⟨region, hLookup, _⟩
    unfold Allocator.Tracked
    rw [hLookup]
    exact Option.some_ne_none region
  refine hInv.updated hPage hTables hTable hPast hSteady
    (fun _ => hUses.tracked) (fun _ => hUses.promoted)
    ?_ hLarge (promoted_of_size hUses) (Or.inl hTracked) ?_ ?_
  · intro hDepleted
    rw [hUses.buddy hDepleted]
    exact hDepleted
  · intro page' app' hPage' hResident hOther
    apply (hInv.small page' app' hPage' hResident).1
    unfold Allocator.Tracked at hOther ⊢
    rwa [← hUses.others _ (hElsewhere page' app' hPage' hResident)]
  · intro size' page' hPage' hPages hResident
    have hRegion : page' / 512 = address / 2 ^ 12 / 512 := by
      cases promoted with
      | true => exact hPages
      | false => rw [eq_of_fourKb hPages]
    cases size' with
    | fourKb =>
        exact hElsewhere page' app hPage' hResident hRegion
    | twoMb =>
        exact hNone .twoMb ((resident_congr hRegion).mp hResident)

/- A page of the buddy allocator is written to its table. -/
theorem inv_block
    (hInv : s.Inv)
    (hAddress : address < 2 ^ 48)
    (hNone : ∀ size,
      ¬ s.allocator.Resident size (address / 2 ^ 12) app)
    {frames : List Nat}
    (hSteady : s.allocator.Steady s'.allocator)
    (hLarge : s.allocator.FullAt .twoMb (address / 2 ^ 12))
    (hSmall : s.allocator.FullAt .fourKb (address / 2 ^ 12))
    (hAfter : s'.allocator.buddy.Depleted)
    (hRegions : s'.allocator.thpRegions = s.allocator.thpRegions)
    (hTables : s'.pageTables =
      Function.update s.pageTables app table)
    (hTable : Radix.Inv table)
    (hPast : table.past =
      .update (address / 2 ^ 12 * 2 ^ 12) ppn .fourKb frames ::
        (s.pageTables app).past) :
    s'.Inv := by
  have hPage : address / 2 ^ 12 < 2 ^ 36 := by omega
  have hFlexSeg : KeepsFlexSeg s.allocator s'.allocator :=
    ⟨hRegions, fun _ => hAfter⟩
  refine hInv.updated hPage hTables hTable hPast hSteady
    (fun region => (hFlexSeg.tracked_iff region).mpr)
    (fun region => (hFlexSeg.promoted_iff region).mpr)
    (fun _ => hAfter) hLarge (fun hSize => by cases hSize)
    (Or.inr ⟨rfl, hAfter, hSmall⟩) ?_ ?_
  · intro page' app' hPage' hResident hTracked
    exact (hInv.small page' app' hPage' hResident).1
      ((hFlexSeg.tracked_iff _).mp hTracked)
  · intro size' page' _ hPages hResident
    rw [eq_of_fourKb hPages] at hResident
    exact hNone size' hResident

variable {core kernelStartAddress : Nat}

/- What the handler of a fault does. -/
theorem handled_handlePageFault
    (hBase : s.Base)
    (hAddress : address < 2 ^ 48)
    (hWalk : s.initializeWalk app address = some r)
    (hFault : r.isPagefault = true)
    {answer : Option Nat × PageSize}
    (hAllocate : s.allocator.allocate 4096
      (address / 2 ^ 12 * 2 ^ 12) core false = some (answer, a'))
    (hHandle : s.handlePageFault (address / 2 ^ 12) core app
      r.requestedFrames kernelStartAddress = some s') :
    s.Handled (address / 2 ^ 12) core app answer s' := by
  have hServes :=
    Allocator.serves_allocate hBase.form hAllocate
  unfold handlePageFault at hHandle
  simp only [hAllocate] at hHandle
  cases hServes with
  | found hLast hSteady hSame hHeld =>
      simp only [hLast, if_true, Option.some.injEq] at hHandle
      subst hHandle
      exact .placed rfl hLast rfl (keepsFlexSeg_of_same hSame)
        (Or.inl ⟨hSteady, hHeld⟩)
  | added hLast hAdds hSame hFree hSmall =>
      simp only [hLast, if_true, Option.some.injEq] at hHandle
      subst hHandle
      exact .placed rfl hLast rfl (keepsFlexSeg_of_same hSame)
        (Or.inr ⟨hAdds, hFree, hSmall⟩)
  | region hLast hSteady hLarge hUses =>
      simp only [hLast, Bool.false_eq_true, if_false] at hHandle
      rcases hBase.written_region hAddress hUses
          (hBase.supplied hWalk hFault _ _ _) hHandle with
        ⟨table, hEq, hTable, hPast⟩
      subst hEq
      exact .region hLast hSteady hLarge hUses rfl hTable hPast
  | block hLast hSteady hLarge hSmall hUntracked hDepleted
      hAfter hRegions hConfig =>
      rename_i ppn
      simp only [hLast, Bool.false_eq_true, if_false] at hHandle
      rcases hBase.written_block hAddress hUntracked
          (hBase.supplied hWalk hFault _ _ _) hHandle with
        ⟨table, hEq, hTable, hPast⟩
      have hPpn := (updatePageTableFrames_eq_some hHandle).1
      subst hEq
      cases ppn with
      | none => exact absurd rfl hPpn
      | some ppn =>
          exact .block hLast hSteady hLarge hSmall hUntracked
            hAfter hRegions rfl hTable hPast

theorem base_handled
    (hBase : s.Base)
    (hAddress : address < 2 ^ 48)
    {core : Nat}
    {answer : Option Nat × PageSize}
    (hHandled : s.Handled (address / 2 ^ 12) core app answer s') :
    s'.Base := by
  have hPage : address / 2 ^ 12 < 2 ^ 36 := by omega
  cases hHandled with
  | placed _ _ hTables hFlexSeg hPlaced =>
      rcases hPlaced with ⟨hSteady, _⟩ | ⟨hAdds, _⟩
      · exact hBase.steady hTables hSteady.toKeeps hFlexSeg
      · exact hBase.steady hTables hAdds.toKeeps hFlexSeg
  | region _ hSteady _ hUses hTables hTable hPast =>
      exact hBase.updated hPage hTables hTable hPast
        hSteady.toKeeps (fun _ => hUses.promoted)
        (promoted_of_size hUses)
  | block _ hSteady _ _ _ hAfter hRegions hTables hTable
      hPast =>
      have hFlexSeg : KeepsFlexSeg s.allocator s'.allocator :=
        ⟨hRegions, fun _ => hAfter⟩
      exact hBase.updated hPage hTables hTable hPast
        hSteady.toKeeps
        (fun region => (hFlexSeg.promoted_iff region).mpr)
        (fun hSize => by cases hSize)

theorem inv_handled
    (hInv : s.Inv)
    (hAddress : address < 2 ^ 48)
    (hNone : ∀ size,
      ¬ s.allocator.Resident size (address / 2 ^ 12) app)
    {core : Nat}
    {answer : Option Nat × PageSize}
    (hHandled : s.Handled (address / 2 ^ 12) core app answer s') :
    s'.Inv := by
  cases hHandled with
  | placed _ _ hTables hFlexSeg hPlaced =>
      rcases hPlaced with ⟨hSteady, _⟩ | ⟨hAdds, hFree, hSmall⟩
      · exact hInv.steady hTables hSteady hFlexSeg
      · exact hInv.added (by omega) hTables hAdds hFlexSeg hFree
          hSmall
  | region _ hSteady hLarge hUses hTables hTable hPast =>
      exact inv_region hInv hAddress hNone hSteady hLarge hUses
        hTables hTable hPast
  | block _ hSteady hLarge hSmall _ hAfter hRegions hTables
      hTable hPast =>
      exact inv_block hInv hAddress hNone hSteady hLarge hSmall
        hAfter hRegions hTables hTable hPast

/- All that a fault can do. -/
theorem fault_step
    (hBase : s.Base)
    (hAddress : address < 2 ^ 48)
    (hStep : s.step (.fault address core app
      kernelStartAddress) = some s') :
    (s'.pageTables = s.pageTables ∧
        s.allocator.Steady s'.allocator ∧
        KeepsFlexSeg s.allocator s'.allocator) ∨
      (∀ size,
        ¬ s.allocator.Resident size (address / 2 ^ 12) app) ∧
        ∃ answer,
          s.Handled (address / 2 ^ 12) core app answer s' := by
  rw [step] at hStep
  rcases afterLookup_cases hBase.form hStep with
    ⟨_, a', _, hEq, _, hSteady, hSame⟩ |
    ⟨_, hNone, r, hWalk, hNext⟩
  · subst hEq
    exact Or.inl ⟨rfl, hSteady, keepsFlexSeg_of_same hSame⟩
  · split_ifs at hNext with hFault
    · right
      refine ⟨hNone, ?_⟩
      cases hAllocate : s.allocator.allocate 4096
          (address / 2 ^ 12 * 2 ^ 12) core false with
      | none =>
          unfold handlePageFault at hNext
          simp only [hAllocate] at hNext
          cases hNext
      | some result =>
          exact ⟨result.1, handled_handlePageFault hBase
            hAddress hWalk hFault hAllocate hNext⟩
    · rw [Option.some.injEq] at hNext
      subst hNext
      exact Or.inl ⟨rfl, Allocator.Steady.refl _, rfl,
        fun hDepleted => hDepleted⟩

/- A fault keeps the invariants. -/
theorem base_fault
    (hBase : s.Base)
    (hAddress : address < 2 ^ 48)
    (hStep : s.step (.fault address core app
      kernelStartAddress) = some s') :
    s'.Base := by
  rcases fault_step hBase hAddress hStep with
    ⟨hTables, hSteady, hFlexSeg⟩ | ⟨_, answer, hHandled⟩
  · exact hBase.steady hTables hSteady.toKeeps hFlexSeg
  · exact base_handled hBase hAddress hHandled

theorem inv_fault
    (hInv : s.Inv)
    (hAddress : address < 2 ^ 48)
    (hStep : s.step (.fault address core app
      kernelStartAddress) = some s') :
    s'.Inv := by
  rcases fault_step hInv.toBase hAddress hStep with
    ⟨hTables, hSteady, hFlexSeg⟩ | ⟨hNone, answer, hHandled⟩
  · exact hInv.steady hTables hSteady hFlexSeg
  · exact inv_handled hInv hAddress hNone hHandled

------------------------------------------------------------
-- Migrations And Steps
------------------------------------------------------------

/- The policies leave the pages, the blocks and the tables. -/
structure Alike (s s' : System) : Prop where
  pageTables : s'.pageTables = s.pageTables
  restSegs : s'.allocator.restSegs = s.allocator.restSegs
  order : s'.allocator.order = s.allocator.order
  buddy : s'.allocator.buddy = s.allocator.buddy
  thpRegions : s'.allocator.thpRegions = s.allocator.thpRegions

theorem Alike.steady
    (hAlike : Alike s s') :
    s.allocator.Steady s'.allocator :=
  Allocator.steady_of_eq hAlike.order hAlike.restSegs

theorem Alike.keepsFlexSeg
    (hAlike : Alike s s') :
    KeepsFlexSeg s.allocator s'.allocator :=
  ⟨hAlike.thpRegions, fun hDepleted => hAlike.buddy ▸ hDepleted⟩

/-
  A decision changes the statistics only. Its target is the
  size of the translation, or the target of the cost-based
  policy.
-/
theorem decideMigration_spec
    (s : System)
    (core vpn bits dramAccesses : Nat) :
    Alike s (s.decideMigration core vpn bits dramAccesses).2 ∧
      ∀ choice,
        (s.decideMigration core vpn bits dramAccesses).1 =
            some choice →
          choice.1 = bits ∨
            s.allocator.costTarget = some choice.1 := by
  unfold decideMigration
  simp only
  split_ifs with hCost hBits hLegacy hShould
  · split
    · exact ⟨⟨rfl, rfl, rfl, rfl, rfl⟩, by simp⟩
    · refine ⟨⟨rfl, rfl, rfl, rfl, rfl⟩, ?_⟩
      intro choice hChoice
      right
      rcases Option.map_eq_some_iff.mp hChoice with
        ⟨target, hTarget, hEq⟩
      rw [← hEq]
      exact hTarget
  · exact ⟨⟨rfl, rfl, rfl, rfl, rfl⟩, by simp⟩
  · refine ⟨⟨rfl, rfl, rfl, rfl, rfl⟩, ?_⟩
    intro choice hChoice
    left
    rw [← Option.some.inj hChoice]
  · exact ⟨⟨rfl, rfl, rfl, rfl, rfl⟩, by simp⟩
  · exact ⟨⟨rfl, rfl, rfl, rfl, rfl⟩, by simp⟩

theorem alike_noteMigration
    (s : System)
    (entry : Option Nat)
    (vpn : Nat)
    (newPpn : Option Nat) :
    Alike s (s.noteMigration entry vpn newPpn) := by
  unfold noteMigration
  split
  · split_ifs
    · exact ⟨rfl, rfl, rfl, rfl, rfl⟩
    · exact ⟨rfl, rfl, rfl, rfl, rfl⟩
  · exact ⟨rfl, rfl, rfl, rfl, rfl⟩

/- The cost-based policy picks 2MB without a 4KB segment. -/
theorem costTarget_cases
    {a : Allocator}
    {target : Nat}
    (hTarget : a.costTarget = some target) :
    target = PageSize.fourKb.bits ∧
        (a.restSegs .fourKb).isSome = true ∨
      target = PageSize.twoMb.bits ∧
        a.restSegs .fourKb = none ∧
        (a.restSegs .twoMb).isSome = true := by
  unfold Allocator.costTarget at hTarget
  split_ifs at hTarget with hFour hTwo
  · exact Or.inl ⟨(Option.some.inj hTarget).symm, hFour⟩
  · exact Or.inr ⟨(Option.some.inj hTarget).symm,
      by simpa using hFour, hTwo⟩

/-
  The page size, in bits, of the segment that the page of a
  translation is moved to. The page is in no segment and in
  no reserved region, and a policy asks for the migration.
-/
def movesTo
    (s : System)
    (address core app dramAccesses : Nat) :
    Option Nat :=
  match (s.allocator.isInRestSeg address app).1,
      (s.initializeWalk app address).bind PTWResult.translation with
  | false, some (_, bits) =>
      if s.allocator.isTracked address then
        none
      else
        (s.decideMigration core (address / 2 ^ 12) bits
          dramAccesses).1.map Prod.fst
  | _, _ => none

theorem movesTo_of_translation
    {core dramAccesses ppn bits : Nat}
    (hMiss : s.allocator.isInRestSeg address app =
      (false, s.allocator))
    (hWalk : s.initializeWalk app address = some r)
    (hTranslation : r.translation = some (ppn, bits)) :
    s.movesTo address core app dramAccesses =
      if s.allocator.isTracked address then none
      else (s.decideMigration core (address / 2 ^ 12) bits
        dramAccesses).1.map Prod.fst := by
  unfold movesTo
  rw [hMiss, hWalk]
  simp only [Option.bind_some, hTranslation]

/- All that a translation by the page table can do. -/
inductive Serviced
    (s : System)
    (address core app dramAccesses : Nat) :
    System → Prop
  | stays {s' : System} :
      s'.pageTables = s.pageTables →
      s.allocator.Steady s'.allocator →
      KeepsFlexSeg s.allocator s'.allocator →
      s.movesTo address core app dramAccesses ≠
        some PageSize.twoMb.bits →
      Serviced s address core app dramAccesses s'
  | moves {size : PageSize} {ppn bits : Nat}
      {table : Radix.Session} {s' : System} :
      s.movesTo address core app dramAccesses = some size.bits →
      Radix.mappingOf (s.pageTables app).past
        (address / 2 ^ 12) = some (ppn, bits) →
      (∀ size',
        ¬ s.allocator.Resident size' (address / 2 ^ 12) app) →
      ¬ s.allocator.Tracked (address / 2 ^ 12 / 512) →
      (size = .twoMb → s.allocator.restSegs .fourKb = none) →
      Radix.step (s.pageTables app) (.delete address) = some table →
      s'.pageTables = Function.update s.pageTables app table →
      s.allocator.Adds s'.allocator size (address / 2 ^ 12) app →
      KeepsFlexSeg s.allocator s'.allocator →
      Serviced s address core app dramAccesses s'

/- A migration that the policies ask for. -/
theorem serviced_migration
    (hBase : s.Base)
    (hAddress : address < 2 ^ 48)
    {core dramAccesses ppn bits target : Nat}
    {entry : Option Nat}
    {s₁ : System}
    (hMiss : s.allocator.isInRestSeg address app =
      (false, s.allocator))
    (hNone : ∀ size,
      ¬ s.allocator.Resident size (address / 2 ^ 12) app)
    (hWalk : s.initializeWalk app address = some r)
    (hTranslation : r.translation = some (ppn, bits))
    (hDecide : s.decideMigration core (address / 2 ^ 12) bits
      dramAccesses = (some (target, entry), s₁))
    (hMigrate : (s₁.migratePage address ppn target app).map
      (fun r => r.2.noteMigration entry (address / 2 ^ 12)
        r.1) = some s') :
    s.Serviced address core app dramAccesses s' := by
  have hMapping := (hBase.walk_eq hAddress hWalk).1
  rw [hTranslation] at hMapping
  have hSpec := decideMigration_spec s core (address / 2 ^ 12)
    bits dramAccesses
  rw [hDecide] at hSpec
  rcases hSpec with ⟨hAlike, hChoice⟩
  have hTarget := hChoice _ rfl
  have hMovesTo :
      s.movesTo address core app dramAccesses =
        if s.allocator.isTracked address then none
        else some target := by
    rw [movesTo_of_translation hMiss hWalk hTranslation, hDecide]
    rfl
  have hForm := hAlike.steady.toKeeps.form hBase.form
  have hMoves := Allocator.moves_migratePage hForm address ppn
    target app
  rcases Option.map_eq_some_iff.mp hMigrate with
    ⟨⟨newPpn, s₂⟩, hMove, hEq⟩
  unfold migratePage at hMove
  generalize hResult : s₁.allocator.migratePage address ppn
    target app = result at hMoves hMove
  have hNoted := alike_noteMigration s₂ entry
    (address / 2 ^ 12) newPpn
  simp only at hEq
  rw [hEq] at hNoted
  -- a 2MB target needs a reserved region or a 2MB segment
  have hRefused : result.1 = none →
      s.movesTo address core app dramAccesses ≠
        some PageSize.twoMb.bits := by
    intro hFailed hTwo
    rw [hMovesTo] at hTwo
    split_ifs at hTwo with hTracked
    rw [Option.some.injEq] at hTwo
    rw [Allocator.isTracked_iff] at hTracked
    rcases hTarget with hBits | hCost
    · simp only at hBits
      have hLarge : Radix.mappingOf (s.pageTables app).past
          (address / 2 ^ 12) = some (ppn, 21) := by
        rw [← hMapping, ← hBits, hTwo]
        rfl
      exact hTracked
        (tracked_of_promoted (hBase.promoted_of_large hLarge))
    · rcases costTarget_cases hCost with
        ⟨hFour, _⟩ | ⟨_, _, hSome⟩
      · simp only at hFour
        rw [hTwo] at hFour
        cases hFour
      · have hMoved := Allocator.migratePage_ne_none hForm
          (fun size' => mt (hAlike.steady.resident _ _ _).mp
            (hNone size'))
          (mt (hAlike.keepsFlexSeg.tracked_iff _).mp hTracked)
          (hAlike.restSegs ▸ hSome) ppn
        rw [← hTwo, hResult] at hMoved
        exact hMoved hFailed
  cases hMoves with
  | refused hSteady hSame =>
      simp only [Option.some.injEq, Prod.mk.injEq] at hMove
      rcases hMove with ⟨hNewPpn, hAfter⟩
      subst hAfter
      refine .stays ?_ ?_ ?_ (hRefused rfl)
      · exact hNoted.pageTables.trans hAlike.pageTables
      · exact (hAlike.steady.trans hSteady).trans hNoted.steady
      · refine ⟨hNoted.thpRegions.trans
          (hSame.thpRegions.trans hAlike.thpRegions), ?_⟩
        intro hDepleted
        apply hNoted.keepsFlexSeg.depleted
        exact (keepsFlexSeg_of_same hSame).depleted
          (hAlike.keepsFlexSeg.depleted hDepleted)
  | moved hBits hNowhere hUntracked hAdds hDepleted hRegions
      hConfig =>
      rename_i size newPpn' a'
      rcases Option.map_eq_some_iff.mp hMove with
        ⟨table, hStep, hPair⟩
      rw [Prod.mk.injEq] at hPair
      rcases hPair with ⟨_, hAfter⟩
      subst hAfter
      rw [hAlike.pageTables] at hStep
      have hUntracked' :
          ¬ s.allocator.Tracked (address / 2 ^ 12 / 512) :=
        mt (hAlike.keepsFlexSeg.tracked_iff _).mpr hUntracked
      have hNotTracked :
          ¬ s.allocator.isTracked address = true := by
        rw [Allocator.isTracked_iff]
        exact hUntracked'
      refine .moves ?_ hMapping.symm hNone hUntracked' ?_
        hStep ?_ ((hAdds.after hAlike.steady).before hNoted.steady) ?_
      · rw [hMovesTo, if_neg hNotTracked, hBits]
      · intro hSize
        subst hSize
        rcases hTarget with hOwn | hCost
        · simp only at hOwn
          have hLarge : Radix.mappingOf
              (s.pageTables app).past (address / 2 ^ 12) =
                some (ppn, 21) := by
            rw [← hMapping, ← hOwn, hBits]
            rfl
          exact absurd (tracked_of_promoted
            (hBase.promoted_of_large hLarge)) hUntracked'
        · rcases costTarget_cases hCost with
            ⟨hFour, _⟩ | ⟨_, hNoFour, _⟩
          · simp only at hFour
            rw [hBits] at hFour
            cases hFour
          · exact hNoFour
      · rw [hNoted.pageTables, ← hAlike.pageTables]
        rfl
      · refine ⟨hNoted.thpRegions.trans
          (hRegions.trans hAlike.thpRegions), ?_⟩
        intro hOld
        apply hNoted.keepsFlexSeg.depleted
        exact hDepleted (hAlike.keepsFlexSeg.depleted hOld)

/- What a translation by the page table does. -/
theorem serviced_step
    (hBase : s.Base)
    {core dramAccesses : Nat}
    (hAddress : address < 2 ^ 48)
    (hStep : s.step (.serviced address core app
      dramAccesses) = some s') :
    s.Serviced address core app dramAccesses s' := by
  rw [step] at hStep
  rcases afterLookup_cases hBase.form hStep with
    ⟨_, a', hHit, hEq, _, hSteady, hSame⟩ |
    ⟨hMiss, hNone, r, hWalk, hNext⟩
  · subst hEq
    refine .stays rfl hSteady (keepsFlexSeg_of_same hSame) ?_
    unfold movesTo
    rw [hHit]
    simp
  · cases hTranslation : r.translation with
    | none =>
        simp only [hTranslation, Option.some.injEq] at hNext
        subst hNext
        refine .stays rfl (Allocator.Steady.refl _)
          ⟨rfl, fun hDepleted => hDepleted⟩ ?_
        unfold movesTo
        rw [hMiss, hWalk]
        simp only [Option.bind_some, hTranslation]
        simp
    | some translation =>
        rcases translation with ⟨ppn, bits⟩
        simp only [hTranslation, considerMigration] at hNext
        cases hDecide : s.decideMigration core
            (address / 2 ^ 12) bits dramAccesses with
        | mk choice s₁ =>
            rw [hDecide] at hNext
            cases choice with
            | some choice =>
                exact serviced_migration hBase hAddress hMiss
                  hNone hWalk hTranslation hDecide hNext
            | none =>
                simp only [Option.some.injEq] at hNext
                subst hNext
                have hSpec := decideMigration_spec s core
                  (address / 2 ^ 12) bits dramAccesses
                rw [hDecide] at hSpec
                refine .stays hSpec.1.pageTables
                  hSpec.1.steady hSpec.1.keepsFlexSeg ?_
                rw [movesTo_of_translation hMiss hWalk
                  hTranslation, hDecide]
                split_ifs
                · simp
                · simp

/- The table after the deletion of a migration. -/
theorem Base.inv_delete
    (hBase : s.Base)
    {app address : Nat}
    (hStep : Radix.step (s.pageTables app) (.delete address) =
      some table) :
    Radix.Inv table ∧
      table.past = .delete address :: (s.pageTables app).past := by
  refine Radix.inv_of_step (hBase.tables app) trivial ?_ hStep
  by_contra hBeyond
  rw [Radix.step_delete_beyond (hBase.tables app) hBeyond] at hStep
  cases hStep

theorem base_serviced
    (hBase : s.Base)
    {core dramAccesses : Nat}
    (hAddress : address < 2 ^ 48)
    (hStep : s.step (.serviced address core app
      dramAccesses) = some s') :
    s'.Base := by
  cases serviced_step hBase hAddress hStep with
  | stays hTables hSteady hFlexSeg _ =>
      exact hBase.steady hTables hSteady.toKeeps hFlexSeg
  | moves _ _ _ _ _ hDelete hTables hAdds hFlexSeg =>
      rcases hBase.inv_delete hDelete with ⟨hTable, hPast⟩
      exact hBase.deleted hTables hTable hPast hAdds.toKeeps
        hFlexSeg

theorem restSegWalk_step
    {mode : WalkMode}
    (hStep : s.step (.restSegWalk mode address app) = some s') :
    s'.pageTables = s.pageTables ∧
      s.allocator.Steady s'.allocator ∧
      KeepsFlexSeg s.allocator s'.allocator := by
  rw [step, Option.some.injEq] at hStep
  subst hStep
  have hSame := Allocator.sameTags_restSegWalk s.allocator
    mode address app
  exact ⟨rfl, hSame.steady, keepsFlexSeg_of_same
    (Allocator.sameFlexSeg_restSegWalk _ _ _ _)⟩

theorem touchWayLRU_step
    {size : PageSize}
    {way : Nat}
    (hStep : s.step (.touchWayLRU size address way) = some s') :
    s'.pageTables = s.pageTables ∧
      s.allocator.Steady s'.allocator ∧
      KeepsFlexSeg s.allocator s'.allocator := by
  rw [step] at hStep
  split at hStep
  · rw [Option.some.injEq] at hStep
    subst hStep
    exact ⟨rfl, Allocator.Steady.refl _, rfl,
      fun hDepleted => hDepleted⟩
  · rename_i r hSeg
    rw [Option.some.injEq] at hStep
    subst hStep
    exact ⟨rfl, Allocator.steady_setRestSeg hSeg
      (RestSeg.steady_touch r _ way), rfl,
      fun hDepleted => hDepleted⟩

theorem allocatePageTable_step
    {bytes : Nat}
    (hStep : s.step (.allocatePageTable bytes) = some s') :
    s'.pageTables = s.pageTables ∧
      s.allocator.Steady s'.allocator ∧
      KeepsFlexSeg s.allocator s'.allocator := by
  rw [step] at hStep
  rcases Option.map_eq_some_iff.mp hStep with
    ⟨result, hAllocate, hEq⟩
  subst hEq
  simp only [Allocator.allocate, if_true,
    Allocator.fromBuddy] at hAllocate
  rcases Option.map_eq_some_iff.mp hAllocate with
    ⟨⟨ppn, b⟩, hBuddy, hEq⟩
  subst hEq
  exact ⟨rfl, Allocator.steady_of_eq rfl rfl, rfl,
    fun hDepleted => hDepleted.allocate hBuddy⟩

/- Every step keeps what holds in every state. -/
theorem base_step
    (hBase : s.Base)
    {op : Op}
    (hAddress : op.address < 2 ^ 48)
    (hStep : s.step op = some s') :
    s'.Base := by
  cases op with
  | fault address core app kernelStartAddress =>
      exact base_fault hBase hAddress hStep
  | serviced address core app dramAccesses =>
      exact base_serviced hBase hAddress hStep
  | restSegWalk mode address app =>
      rcases restSegWalk_step hStep with
        ⟨hTables, hSteady, hFlexSeg⟩
      exact hBase.steady hTables hSteady.toKeeps hFlexSeg
  | touchWayLRU size address way =>
      rcases touchWayLRU_step hStep with
        ⟨hTables, hSteady, hFlexSeg⟩
      exact hBase.steady hTables hSteady.toKeeps hFlexSeg
  | allocatePageTable bytes =>
      rcases allocatePageTable_step hStep with
        ⟨hTables, hSteady, hFlexSeg⟩
      exact hBase.steady hTables hSteady.toKeeps hFlexSeg

end System

end Utopia

end Virtuoso
