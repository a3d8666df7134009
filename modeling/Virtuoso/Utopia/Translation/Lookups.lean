import Virtuoso.Utopia.Allocator.Segments
import Virtuoso.Utopia.Translation.Runs

/-
  What the lookups find after a run of translations.

  The handler of a fault places a page for the number of its
  core, and every lookup asks for the number of the
  application. A page that was placed in a segment is found
  by the walk after the fault exactly if the two numbers are
  equal; a page that was written to the page table is always
  found.

  Main declarations:
    * `Utopia.System.translates_run_iff`
-/

namespace Virtuoso

namespace Utopia

namespace System

variable {s s' : System} {address core app : Nat}

/- A lookup runs the segments, and so does what follows. -/
theorem runsTo_afterLookup
    (hAddress : address < 2 ^ 48)
    {next : System → PTWResult → Option System}
    (hNext : ∀ s₁ r s₂, next s₁ r = some s₂ →
      s₁.allocator.RunsTo s₂.allocator)
    (hStep : s.afterLookup address app next = some s') :
    s.allocator.RunsTo s'.allocator := by
  have hRuns :=
    Allocator.runsTo_isInRestSeg hAddress s.allocator app
  unfold afterLookup at hStep
  generalize s.allocator.isInRestSeg address app = found
    at hRuns hStep
  rcases found with ⟨found, a⟩
  cases found with
  | true =>
      simp only [Option.some.injEq] at hStep
      subst hStep
      exact hRuns
  | false =>
      simp only at hStep
      cases hWalk : { s with allocator := a }.initializeWalk
          app address with
      | none => simp [hWalk] at hStep
      | some r =>
          simp only [hWalk] at hStep
          exact hRuns.trans (hNext _ _ _ hStep)

theorem runsTo_handlePageFault
    {vpn metadataFrames kernelStartAddress : Nat}
    (hAddress : vpn * 2 ^ 12 < 2 ^ 48)
    (hHandle : s.handlePageFault vpn core app metadataFrames
      kernelStartAddress = some s') :
    s.allocator.RunsTo s'.allocator := by
  unfold handlePageFault at hHandle
  cases hAllocate : s.allocator.allocate 4096 (vpn * 2 ^ 12)
      core false with
  | none =>
      simp only [hAllocate] at hHandle
      cases hHandle
  | some result =>
      have hRuns :=
        Allocator.runsTo_allocate hAddress hAllocate
      simp only [hAllocate] at hHandle
      split_ifs at hHandle with hLast
      · rw [Option.some.injEq] at hHandle
        subst hHandle
        exact hRuns
      · rcases updatePageTableFrames_eq_some hHandle with
          ⟨_, table, _, hEq⟩
        subst hEq
        exact hRuns

theorem runsTo_migratePage
    (hAddress : address < 2 ^ 48)
    {oldPpn target : Nat}
    {newPpn : Option Nat}
    (hMigrate : s.migratePage address oldPpn target app =
      some (newPpn, s')) :
    s.allocator.RunsTo s'.allocator := by
  have hRuns := Allocator.runsTo_migratePage hAddress
    s.allocator oldPpn target app
  unfold migratePage at hMigrate
  generalize s.allocator.migratePage address oldPpn target app
    = result at hRuns hMigrate
  rcases result with ⟨moved, a⟩
  cases moved with
  | none =>
      simp only [Option.some.injEq, Prod.mk.injEq] at hMigrate
      rw [← hMigrate.2]
      exact hRuns
  | some ppn =>
      rcases Option.map_eq_some_iff.mp hMigrate with
        ⟨table, _, hEq⟩
      rw [Prod.mk.injEq] at hEq
      rw [← hEq.2]
      exact hRuns

theorem Alike.runsTo
    (hAlike : Alike s s') :
    s.allocator.RunsTo s'.allocator :=
  Allocator.runsTo_of_eq hAlike.restSegs hAlike.order

theorem runsTo_considerMigration
    (hAddress : address < 2 ^ 48)
    {ppn bits dramAccesses : Nat}
    (hConsider : s.considerMigration address core app ppn bits
      dramAccesses = some s') :
    s.allocator.RunsTo s'.allocator := by
  have hAlike := (decideMigration_spec s core
    (address / 2 ^ 12) bits dramAccesses).1
  unfold considerMigration at hConsider
  simp only at hConsider
  generalize s.decideMigration core (address / 2 ^ 12) bits
    dramAccesses = decision at hAlike hConsider
  rcases decision with ⟨choice, s₁⟩
  cases choice with
  | none =>
      simp only [Option.some.injEq] at hConsider
      exact hConsider ▸ hAlike.runsTo
  | some choice =>
      rcases Option.map_eq_some_iff.mp hConsider with
        ⟨⟨newPpn, s₂⟩, hMigrate, hEq⟩
      have hNoted := alike_noteMigration s₂ choice.2
        (address / 2 ^ 12) newPpn
      simp only at hEq
      rw [hEq] at hNoted
      exact (hAlike.runsTo.trans
        (runsTo_migratePage hAddress hMigrate)).trans hNoted.runsTo

/- Every step runs the segments. -/
theorem runsTo_step
    {op : Op}
    (hAddress : op.address < 2 ^ 48)
    (hStep : s.step op = some s') :
    s.allocator.RunsTo s'.allocator := by
  cases op with
  | fault address core app kernelStartAddress =>
      change address < 2 ^ 48 at hAddress
      rw [step] at hStep
      refine runsTo_afterLookup hAddress ?_ hStep
      intro s₁ r s₂ hNext
      split_ifs at hNext with hFault
      · exact runsTo_handlePageFault (by omega) hNext
      · rw [Option.some.injEq] at hNext
        exact hNext ▸ Allocator.runsTo_of_eq rfl rfl
  | serviced address core app dramAccesses =>
      rw [step] at hStep
      refine runsTo_afterLookup hAddress ?_ hStep
      intro s₁ r s₂ hNext
      split at hNext
      · rw [Option.some.injEq] at hNext
        exact hNext ▸ Allocator.runsTo_of_eq rfl rfl
      · exact runsTo_considerMigration hAddress hNext
  | restSegWalk mode address app =>
      rw [step, Option.some.injEq] at hStep
      subst hStep
      exact Allocator.runsTo_restSegWalk hAddress _ mode app
  | touchWayLRU size address way =>
      rw [step] at hStep
      split at hStep
      · rw [Option.some.injEq] at hStep
        exact hStep ▸ Allocator.runsTo_of_eq rfl rfl
      · rename_i r hSeg
        rw [Option.some.injEq] at hStep
        subst hStep
        exact Allocator.runsTo_setRestSeg hSeg
          (RestSeg.runsTo_touchWayLRU hAddress r way)
  | allocatePageTable bytes =>
      rw [step] at hStep
      rcases Option.map_eq_some_iff.mp hStep with
        ⟨result, hAllocate, hEq⟩
      subst hEq
      exact Allocator.runsTo_allocate (by decide) hAllocate

/- What holds in every state that a run reaches. -/
theorem base_run
    {a : Allocator}
    (hBuilt : a.Built)
    (legacy : LegacyConfig)
    {ops : List Op}
    (hAddress : ∀ op ∈ ops, op.address < 2 ^ 48)
    (hRun : Run.run step (start a legacy) ops = some s) :
    s.Base ∧ a.RunsTo s.allocator := by
  refine Run.run_inv
    (I := fun t => t.Base ∧ a.RunsTo t.allocator)
    (C := fun _ op => op.address < 2 ^ 48) ?_
    ⟨base_start hBuilt legacy, Allocator.runsTo_of_eq rfl rfl⟩
    (Run.along_of_forall_mem _ hAddress) hRun
  rintro t op t' ⟨hBase, hRuns⟩ hLess hStep
  exact ⟨base_step hBase hLess hStep,
    hRuns.trans (runsTo_step hLess hStep)⟩

/-
  The walk that follows a fault finds the answer of the
  handler: the walk of the segments if the page was placed in
  one of them, the walk of the page table otherwise.
-/
def Translates
    (s : System)
    (mode : WalkMode)
    (address app : Nat)
    (answer : Option Nat × PageSize) : Prop :=
  ∃ ppn, answer.1 = some ppn ∧
    if s.allocator.lastInRestSeg then
      (s.allocator.restSegWalk mode address app).1 =
        some (answer.2.bits, ppn)
    else
      ∃ r, s.initializeWalk app address = some r ∧
        r.isPagefault = false ∧
        r.translation = some (ppn, answer.2.bits)

/- A page that was written to a table is found in it. -/
theorem Base.walk_update
    (hBase : s'.Base)
    (hAddress : address < 2 ^ 48)
    {table : Radix.Session}
    {past : List Radix.Op}
    {ppn : Nat}
    {size : PageSize}
    {frames : List Nat}
    (hTables : s'.pageTables =
      Function.update s.pageTables app table)
    (hPast : table.past =
      .update (address / 2 ^ 12 * 2 ^ 12) ppn size frames :: past) :
    ∃ r, s'.initializeWalk app address = some r ∧
      r.isPagefault = false ∧
      r.translation = some (ppn, size.bits) := by
  rcases hBase.exists_walk app address with ⟨r, hWalk⟩
  rcases hBase.walk_eq hAddress hWalk with
    ⟨hTranslation, hFault⟩
  have hOwn : r.translation = some (ppn, size.bits) := by
    rw [hTranslation, past_setTable hTables, if_pos rfl, hPast,
      Radix.mappingOf, pageOf_page hAddress]
    simp [Mapping.map]
  refine ⟨r, hWalk, ?_, hOwn⟩
  rw [hFault, hOwn]
  rfl

/- A placed page is there for its core. -/
theorem resident_of_placed
    {size : PageSize}
    {page : Nat}
    (hPlaced :
      s.allocator.Steady s'.allocator ∧
          s.allocator.Resident size page core ∨
        s.allocator.Adds s'.allocator size page core) :
    s'.allocator.Resident size page core := by
  rcases hPlaced with ⟨hSteady, hHeld⟩ | hAdds
  · exact (hSteady.resident _ _ _).mpr hHeld
  · exact hAdds.own

/- Who has a page after it was placed and did not before. -/
theorem eq_of_placed
    {size size' : PageSize}
    {page : Nat}
    (hNone : ∀ size, ¬ s.allocator.Resident size page app)
    (hPlaced :
      s.allocator.Steady s'.allocator ∧
          s.allocator.Resident size page core ∨
        s.allocator.Adds s'.allocator size page core)
    (hResident : s'.allocator.Resident size' page app) :
    size' = size ∧ app = core := by
  rcases hPlaced with ⟨hSteady, _⟩ | hAdds
  · exact absurd ((hSteady.resident _ _ _).mp hResident)
      (hNone size')
  · rcases hAdds.others _ _ _ hResident with
      hOld | ⟨hSize, _, hApp⟩
    · exact absurd hOld (hNone size')
    · exact ⟨hSize, hApp⟩

/- A page placed for a core is found for that core only. -/
theorem walk_placed_iff
    (hBase : s'.Base)
    {mode : WalkMode}
    (hRadix : mode.radixLookupEnabled = true →
      s'.allocator.RadixSound)
    (hAddress : address < 2 ^ 48)
    (hNone : ∀ size,
      ¬ s.allocator.Resident size (address / 2 ^ 12) app)
    {size : PageSize}
    (hPlaced :
      s.allocator.Steady s'.allocator ∧
          s.allocator.Resident size (address / 2 ^ 12) core ∨
        s.allocator.Adds s'.allocator size (address / 2 ^ 12)
          core) :
    (∃ ppn, s'.allocator.restSegPpn size
          (address / 2 ^ 12 * 2 ^ 12) core = some ppn ∧
        (s'.allocator.restSegWalk mode address app).1 =
          some (size.bits, ppn)) ↔
      core = app := by
  have hWalk :=
    Allocator.restSegWalk_eq hBase.form hRadix hAddress app
  rw [Allocator.restSegPpn_page hBase.form]
  constructor
  · rintro ⟨ppn, _, hHit⟩
    by_contra hNe
    rw [hWalk] at hHit
    have hMiss :
        s'.allocator.translationIn address app
          (s'.allocator.walkOrder mode) = none := by
      rw [Allocator.translationIn_eq_none_iff hBase.form]
      intro size' _ hResident
      exact hNe (eq_of_placed hNone hPlaced hResident).2.symm
    rw [hMiss] at hHit
    cases hHit
  · intro hEq
    subst hEq
    have hOwn := resident_of_placed hPlaced
    rcases Option.isSome_iff_exists.mp
        ((Allocator.restSegPpn_isSome_iff hBase.form size
          address core).mpr hOwn) with ⟨ppn, hPpn⟩
    refine ⟨ppn, hPpn, ?_⟩
    rw [hWalk]
    apply Allocator.translationIn_of_only hBase.form _ hPpn
    · rw [Allocator.mem_walkOrder_iff]
      rcases hOwn with ⟨r, hSeg, _⟩
      exact hBase.form.order size r hSeg
    · intro size' hNe hResident
      exact hNe (eq_of_placed hNone hPlaced hResident).1

/-
  After each run, the walk that follows a handled fault finds
  a frame of the FlexSeg, and it finds a frame of a segment
  exactly if the core has the number of its application.
-/
theorem translates_run_iff
    {buddy : Buddy}
    {configs : List RestSegConfig}
    {fingerprintBits : Nat}
    {percent : Int}
    {config : CostTopKConfig}
    {a : Allocator}
    (hConstruct : Allocator.construct buddy configs
      fingerprintBits percent config = some a)
    (legacy : LegacyConfig)
    {ops : List Op}
    (hOps : ∀ op ∈ ops, op.address < 2 ^ 48)
    (hRun : Run.run step (start a legacy) ops = some s)
    {address : Nat}
    (hAddress : address < 2 ^ 48)
    (hMiss : (s.allocator.functionalRSWLookup address app).1 = none)
    {r : PTWResult}
    (hWalk : s.initializeWalk app address = some r)
    (hFault : r.isPagefault = true)
    {core kernelStartAddress : Nat}
    {answer : Option Nat × PageSize}
    {a' : Allocator}
    (hAllocate : s.allocator.allocate 4096
      (address / 2 ^ 12 * 2 ^ 12) core false = some (answer, a'))
    (hHandle : s.handlePageFault (address / 2 ^ 12) core app
      r.requestedFrames kernelStartAddress = some s')
    (mode : WalkMode)
    (hReady : mode.radixLookupEnabled = true → a.RadixReady) :
    (s'.allocator.lastInRestSeg = true →
        (s'.Translates mode address app answer ↔ core = app)) ∧
      (s'.allocator.lastInRestSeg = false →
        s'.Translates mode address app answer) := by
  have hBuilt := Allocator.built_construct hConstruct
  rcases base_run hBuilt legacy hOps hRun with ⟨hBase, hRuns⟩
  have hHandled := handled_handlePageFault hBase hAddress hWalk
    hFault hAllocate hHandle
  have hBase' := base_handled hBase hAddress hHandled
  have hNone : ∀ size,
      ¬ s.allocator.Resident size (address / 2 ^ 12) app := by
    rw [Allocator.functionalRSWLookup_eq hBase.form,
      Option.map_eq_none_iff,
      Allocator.translationIn_eq_none_iff hBase.form] at hMiss
    intro size hResident
    rcases hResident with ⟨r, hSeg, hHeld⟩
    exact hMiss size (hBase.form.order size r hSeg) ⟨r, hSeg, hHeld⟩
  unfold Translates
  cases hHandled with
  | placed hAnswer hLast hTables hFlexSeg hPlaced =>
      have hRadix : mode.radixLookupEnabled = true →
          s'.allocator.RadixSound := by
        intro hMode
        exact (hRuns.trans (runsTo_handlePageFault (by omega)
          hHandle)).radixSound hBuilt (hReady hMode)
      have hIff := walk_placed_iff hBase' hRadix hAddress hNone
        (hPlaced.imp id (fun hAdded => hAdded.1))
      simp only [hAnswer, hLast, if_true, forall_const]
      exact ⟨hIff, fun hFalse => by cases hFalse⟩
  | region hLast hSteady hLarge hUses hTables hTable hPast =>
      have hFound := hBase'.walk_update hAddress hTables hPast
      simpa [hLast] using hFound
  | block hLast hSteady hLarge hSmall hUntracked hAfter
      hRegions hTables hTable hPast =>
      have hFound := hBase'.walk_update hAddress hTables hPast
      simpa [hLast] using hFound

/-
  A fault of application 0 on core 0, whose page goes to the
  2MB segment, with walks of the radix way tables.
-/
theorem translates_run_sameNumber :
    ∃ b ∈ Buddy.construct 9 8 8,
      ∃ a ∈ Allocator.construct b [⟨2, .twoMb, 1, 512⟩] 4 75
          eagerCostTopK,
        ∃ r ∈ (start a ⟨false, 0, 0⟩).initializeWalk 0 0x5123,
        ∃ result ∈ (start a ⟨false, 0, 0⟩).allocator.allocate
            4096 (0x5123 / 2 ^ 12 * 2 ^ 12) 0 false,
        ∃ s' ∈ (start a ⟨false, 0, 0⟩).handlePageFault
            (0x5123 / 2 ^ 12) 0 0 r.requestedFrames 0x400000,
          s'.allocator.lastInRestSeg = true ∧
            s'.Translates ⟨true, none⟩ 0x5123 0 result.1 := by
  have hMeets : ∃ b ∈ Buddy.construct 9 8 8,
      ∃ a ∈ Allocator.construct b [⟨2, .twoMb, 1, 512⟩] 4 75
          eagerCostTopK,
        ((a.restSegs .fourKb).isNone = true ∧
          ∃ r ∈ a.restSegs .twoMb,
            r.geometry = ⟨21, 1, 1, 512, 4⟩) ∧
        ((start a ⟨false, 0, 0⟩).allocator.functionalRSWLookup
          0x5123 0).1 = none ∧
        ∃ r ∈ (start a ⟨false, 0, 0⟩).initializeWalk 0 0x5123,
          r.isPagefault = true ∧
        ∃ result ∈ (start a ⟨false, 0, 0⟩).allocator.allocate
            4096 (0x5123 / 2 ^ 12 * 2 ^ 12) 0 false,
        ∃ s' ∈ (start a ⟨false, 0, 0⟩).handlePageFault
            (0x5123 / 2 ^ 12) 0 0 r.requestedFrames 0x400000,
          s'.allocator.lastInRestSeg = true := by
    decide +kernel
  rcases hMeets with
    ⟨b, hBuddy, a, hMake, ⟨hNone, r₁, hSeg, hGeometry⟩, hMiss,
      r, hWalk, hFault, ⟨answer, a'⟩, hAllocate, s', hHandle,
      hLast⟩
  have hReady : a.RadixReady := by
    intro size r' hSeg'
    cases size with
    | fourKb =>
        rw [hSeg'] at hNone
        cases hNone
    | twoMb =>
        rw [hSeg', Option.mem_some_iff] at hSeg
        subst hSeg
        rw [hGeometry]
        exact RestSeg.fit_of_isPowerOfTwo (by decide) ⟨0, rfl⟩
          ⟨0, rfl⟩ (Or.inl (by decide))
  have hRun : Run.run step (start a ⟨false, 0, 0⟩) [] =
      some (start a ⟨false, 0, 0⟩) := rfl
  refine ⟨b, hBuddy, a, hMake, r, hWalk, (answer, a'),
    hAllocate, s', hHandle, hLast, ?_⟩
  exact (translates_run_iff hMake ⟨false, 0, 0⟩ (by simp) hRun
    (by decide) hMiss hWalk hFault hAllocate hHandle
    ⟨true, none⟩ (fun _ => hReady)).1 hLast |>.mpr rfl

/-
  Application 0 runs on core 1. Its page is placed for owner
  1, and the walk for application 0 misses.
-/
theorem translates_run_otherNumber :
    ∃ b ∈ Buddy.construct 9 8 8,
      ∃ a ∈ Allocator.construct b [⟨2, .twoMb, 1, 512⟩] 4 75
          eagerCostTopK,
        ∃ r ∈ (start a ⟨false, 0, 0⟩).initializeWalk 0 0x5123,
          r.isPagefault = true ∧
        ∃ result ∈ (start a ⟨false, 0, 0⟩).allocator.allocate
            4096 0x5000 1 false,
          result.1 = (some 512, .twoMb) ∧
        ∃ s' ∈ (start a ⟨false, 0, 0⟩).handlePageFault 5 1 0
            r.requestedFrames 0x400000,
          s'.allocator.lastInRestSeg = true ∧
            ¬ s'.Translates ⟨false, none⟩ 0x5123 0 result.1 := by
  refine ⟨_, Option.get_mem ?_, _, Option.get_mem ?_,
    _, Option.get_mem ?_, ?_, _, Option.get_mem ?_, ?_,
    _, Option.get_mem ?_, ?_, ?_⟩
  iterate 8 decide +kernel
  rintro ⟨ppn, _, hFound⟩
  have hSome := Option.isSome_iff_exists.mpr ⟨_, hFound⟩
  revert hSome
  decide +kernel

end System

end Utopia

end Virtuoso
