import Virtuoso.Utopia.Translation.Steps

/-
  Runs of translations under Utopia: a page has at most one
  translation.

  The cost-based policy moves 4KB pages to the 2MB segment if
  there is no 4KB segment. The whole region of the page moves
  with it, and one entry of the page table is deleted; other
  pages of the region that are mapped have two translations
  from then on. No other step gives a page a second one, as
  long as the segments tell pages apart.

  Main declarations:
    * `Utopia.System.oneTranslation_run_iff`
-/

namespace Virtuoso

namespace Utopia

namespace System

variable {s s' : System}

/- The page table of an application translates an address. -/
def mapped (s : System) (app address : Nat) : Bool :=
  (s.initializeWalk app address).any (fun r => !r.isPagefault)

/- The segment of a page size has the page of an address. -/
def residentIn
    (s : System)
    (size : PageSize)
    (address app : Nat) : Bool :=
  (s.allocator.restSegs size).any
    (fun r => (r.lookupWay address app).isSome)

/-
  No page is resident in two segments, or resident in one and
  mapped in the page table.
-/
def Exclusive (s : System) : Prop :=
  ∀ address < 2 ^ 48, ∀ app,
    ¬ (s.residentIn .twoMb address app = true ∧
        s.residentIn .fourKb address app = true) ∧
      ∀ size, s.residentIn size address app = true →
        s.mapped app address = false

/-
  The page of an address is the only page of its 2MB region
  that the page table of an application maps.
-/
def OnlyPage (s : System) (app address : Nat) : Prop :=
  ∀ offset < 512, offset ≠ address / 2 ^ 12 % 512 →
    s.mapped app
      ((address / 2 ^ 21 * 512 + offset) * 2 ^ 12) = false

instance
    (s : System)
    (app address : Nat) :
    Decidable (s.OnlyPage app address) :=
  Nat.decidableBallLT 512 (fun offset _ =>
    offset ≠ address / 2 ^ 12 % 512 →
      s.mapped app
        ((address / 2 ^ 21 * 512 + offset) * 2 ^ 12) = false)

/-
  A translation that moves its page to the 2MB segment moves
  the only page of its region that is mapped.
-/
def MovesOnlyPage (s : System) : Op → Prop
| .serviced address core app dramAccesses =>
    s.movesTo address core app dramAccesses = some 21 →
      s.OnlyPage app address
| _ => True

instance (s : System) : ∀ op, Decidable (s.MovesOnlyPage op)
| .fault _ _ _ _ => inferInstanceAs (Decidable True)
| .serviced address core app dramAccesses =>
    inferInstanceAs (Decidable
      (s.movesTo address core app dramAccesses = some 21 →
        s.OnlyPage app address))
| .restSegWalk _ _ _ => inferInstanceAs (Decidable True)
| .touchWayLRU _ _ _ => inferInstanceAs (Decidable True)
| .allocatePageTable _ => inferInstanceAs (Decidable True)

/- A lookup finds the pages that are resident. -/
theorem residentIn_iff
    (hForm : s.allocator.Form)
    (size : PageSize)
    (address app : Nat) :
    s.residentIn size address app = true ↔
      s.allocator.Resident size (address / 2 ^ 12) app := by
  unfold residentIn Allocator.Resident
  rw [Option.any_eq_true]
  constructor
  · rintro ⟨r, hSeg, hFound⟩
    rw [RestSeg.lookupWay_isSome_iff, hForm.vpn_eq hSeg] at hFound
    exact ⟨r, hSeg, hFound⟩
  · rintro ⟨r, hSeg, hHeld⟩
    refine ⟨r, hSeg, ?_⟩
    rw [RestSeg.lookupWay_isSome_iff, hForm.vpn_eq hSeg]
    exact hHeld

/- A walk finds the pages that are mapped. -/
theorem mapped_iff
    {app address : Nat}
    (hTable : Radix.Inv (s.pageTables app))
    (hAddress : address < 2 ^ 48) :
    s.mapped app address = true ↔
      s.Mapped app (address / 2 ^ 12) := by
  rcases Radix.agrees_of_inv hTable address with
    ⟨r, hWalk, _, hFault⟩
  rw [pageOf_eq hAddress] at hFault
  unfold System.mapped initializeWalk Mapped
  rw [hWalk, Option.any_some, hFault]
  cases Radix.mappingOf (s.pageTables app).past
      (address / 2 ^ 12) with
  | none => simp
  | some translation => simp

theorem Inv.exclusive
    (hInv : s.Inv) :
    s.Exclusive := by
  intro address hAddress app
  have hPage : address / 2 ^ 12 < 2 ^ 36 := by omega
  refine ⟨?_, ?_⟩
  · rintro ⟨hTwo, hFour⟩
    rw [residentIn_iff hInv.form] at hTwo hFour
    exact hInv.apart _ app hPage hTwo hFour
  · intro size hResident
    rw [residentIn_iff hInv.form] at hResident
    rw [← Bool.not_eq_true, mapped_iff (hInv.tables app) hAddress]
    exact hInv.unmapped size _ app hPage hResident

/- The other pages of a region, by their offsets. -/
theorem Inv.not_mapped_of_onlyPage
    (hInv : s.Inv)
    {app address : Nat}
    (hOnly : s.OnlyPage app address)
    {page : Nat}
    (hPage : page < 2 ^ 36)
    (hRegion : page / 512 = address / 2 ^ 12 / 512)
    (hOther : page ≠ address / 2 ^ 12) :
    ¬ s.Mapped app page := by
  have hFalse := hOnly (page % 512)
    (Nat.mod_lt page (by decide)) (by omega)
  have hSame :
      (address / 2 ^ 21 * 512 + page % 512) * 2 ^ 12 =
        page * 2 ^ 12 := by
    omega
  rw [hSame, ← Bool.not_eq_true,
    mapped_iff (hInv.tables app) (by omega),
    Nat.mul_div_cancel page (by decide)] at hFalse
  exact hFalse

theorem inv_serviced
    (hInv : s.Inv)
    {address core app dramAccesses : Nat}
    (hAddress : address < 2 ^ 48)
    (hOnly : s.MovesOnlyPage
      (.serviced address core app dramAccesses))
    (hStep : s.step (.serviced address core app
      dramAccesses) = some s') :
    s'.Inv := by
  cases serviced_step hInv.toBase hAddress hStep with
  | stays hTables hSteady hFlexSeg _ =>
      exact hInv.steady hTables hSteady hFlexSeg
  | moves hTo hMapping hNone hUntracked hTarget hDelete
      hTables hAdds hFlexSeg =>
      rename_i size ppn bits table
      rcases hInv.inv_delete hDelete with ⟨hTable, hPast⟩
      refine hInv.moved hAddress hTables hTable hPast hMapping
        hNone hUntracked hAdds hFlexSeg hTarget ?_
      intro hSize page' hPage' hRegion hOther
      subst hSize
      exact hInv.not_mapped_of_onlyPage (hOnly hTo) hPage'
        hRegion hOther

theorem inv_step
    (hInv : s.Inv)
    {op : Op}
    (hAddress : op.address < 2 ^ 48)
    (hOnly : s.MovesOnlyPage op)
    (hStep : s.step op = some s') :
    s'.Inv := by
  cases op with
  | fault address core app kernelStartAddress =>
      exact inv_fault hInv hAddress hStep
  | serviced address core app dramAccesses =>
      exact inv_serviced hInv hAddress hOnly hStep
  | restSegWalk mode address app =>
      rcases restSegWalk_step hStep with
        ⟨hTables, hSteady, hFlexSeg⟩
      exact hInv.steady hTables hSteady hFlexSeg
  | touchWayLRU size address way =>
      rcases touchWayLRU_step hStep with
        ⟨hTables, hSteady, hFlexSeg⟩
      exact hInv.steady hTables hSteady hFlexSeg
  | allocatePageTable bytes =>
      rcases allocatePageTable_step hStep with
        ⟨hTables, hSteady, hFlexSeg⟩
      exact hInv.steady hTables hSteady hFlexSeg

/-
  A page that leaves another page of its region behind: the
  other page is then in the segment and in the page table.
-/
theorem not_exclusive_of_step
    (hInv : s.Inv)
    {op : Op}
    (hAddress : op.address < 2 ^ 48)
    (hMore : ¬ s.MovesOnlyPage op)
    (hStep : s.step op = some s') :
    ¬ s'.Exclusive := by
  cases op with
  | fault address core app kernelStartAddress =>
      exact absurd trivial hMore
  | restSegWalk mode address app => exact absurd trivial hMore
  | touchWayLRU size address way => exact absurd trivial hMore
  | allocatePageTable bytes => exact absurd trivial hMore
  | serviced address core app dramAccesses =>
      change address < 2 ^ 48 at hAddress
      unfold MovesOnlyPage OnlyPage at hMore
      push Not at hMore
      rcases hMore with ⟨hTwo, offset, hLess, hOther, hLeft⟩
      rw [ne_eq, Bool.not_eq_false] at hLeft
      generalize hOtherAddress :
        (address / 2 ^ 21 * 512 + offset) * 2 ^ 12 = other
        at hLeft
      have hRange : other < 2 ^ 48 := by omega
      have hRegion :
          other / 2 ^ 12 / 512 = address / 2 ^ 12 / 512 := by
        omega
      have hNe : other / 2 ^ 12 ≠ address / 2 ^ 12 := by omega
      rw [mapped_iff (hInv.tables app) hRange] at hLeft
      cases serviced_step hInv.toBase hAddress hStep with
      | stays _ _ _ hNot => exact absurd hTwo hNot
      | moves hTo hMapping hNone hUntracked hTarget hDelete
          hTables hAdds hFlexSeg =>
          rename_i size ppn bits table
          have hSize : size = .twoMb := by
            apply Allocator.bits_injective
            rw [hTwo] at hTo
            exact (Option.some.inj hTo).symm
          subst hSize
          rcases hInv.inv_delete hDelete with ⟨hTable, hPast⟩
          have hSmall : ∀ ppn',
              Radix.mappingOf (s.pageTables app).past
                (address / 2 ^ 12) ≠ some (ppn', 21) := by
            intro ppn' hLarge
            exact hUntracked (tracked_of_promoted
              (hInv.promoted_of_large hLarge))
          have hStill : s'.Mapped app (other / 2 ^ 12) := by
            rw [mapped_delete_iff hTables hAddress hPast hSmall]
            exact ⟨hLeft, fun hBoth => hNe hBoth.2⟩
          have hForm := hAdds.toKeeps.form hInv.form
          have hResident : s'.residentIn .twoMb other app =
              true := by
            rw [residentIn_iff hForm, resident_congr hRegion]
            exact hAdds.own
          have hOwnTable : Radix.Inv (s'.pageTables app) :=
            tables_setTable hInv.toBase hTables hTable app
          rw [← mapped_iff hOwnTable hRange] at hStill
          intro hExclusive
          have hFalse :=
            (hExclusive other hRange app).2 _ hResident
          rw [hStill] at hFalse
          cases hFalse

theorem base_start
    {a : Allocator}
    (hBuilt : a.Built)
    (legacy : LegacyConfig) :
    (start a legacy).Base := by
  refine ⟨hBuilt.form, fun _ => Radix.inv_start, ?_⟩
  intro app op hMem
  cases hMem

theorem inv_start
    {a : Allocator}
    (hBuilt : a.Built)
    (hInjective : ∀ size r, a.restSegs size = some r →
      RestSeg.SplitInjective r.geometry)
    (legacy : LegacyConfig) :
    (start a legacy).Inv := by
  have hNone : ∀ app page, ¬ (start a legacy).Mapped app page :=
    fun _ _ hMapped => hMapped rfl
  have hVacant : ∀ size page app,
      ¬ (start a legacy).allocator.Resident size page app :=
    hBuilt.not_resident
  refine ⟨base_start hBuilt legacy, hInjective, ?_, ?_, ?_, ?_⟩
  · intro app page _ hMapped
    exact absurd hMapped (hNone app page)
  · intro page app _ hResident
    exact absurd hResident (hVacant _ page app)
  · intro page app _ hResident
    exact absurd hResident (hVacant _ page app)
  · intro size page app _ hResident
    exact absurd hResident (hVacant size page app)

/-
  In every run, a page has at most one translation after each
  prefix exactly if each page that is moved to the 2MB segment
  is the only page of its region that is mapped, for segments
  whose tags and sets tell pages apart.
-/
theorem oneTranslation_run_iff
    {buddy : Buddy}
    {configs : List RestSegConfig}
    {fingerprintBits : Nat}
    {percent : Int}
    {config : CostTopKConfig}
    {a : Allocator}
    (hConstruct : Allocator.construct buddy configs
      fingerprintBits percent config = some a)
    (hInjective : ∀ size r, a.restSegs size = some r →
      RestSeg.SplitInjective r.geometry)
    (legacy : LegacyConfig)
    {ops : List Op}
    (hAddress : ∀ op ∈ ops, op.address < 2 ^ 48)
    (hRun : Run.run step (start a legacy) ops = some s) :
    Run.Along step MovesOnlyPage (start a legacy) ops ↔
      ∀ front, front <+: ops →
        ∀ t, Run.run step (start a legacy) front = some t →
          t.Exclusive := by
  refine Run.along_iff_of_run (fun _ => Inv.exclusive)
    (fun _ _ _ hInv hLess hOnly => inv_step hInv hLess hOnly)
    (fun _ _ _ hInv hLess hMore =>
      not_exclusive_of_step hInv hLess hMore) ?_
    (Run.along_of_forall_mem _ hAddress) hRun
  exact inv_start (Allocator.built_construct hConstruct)
    hInjective legacy

/- A policy that moves a page at its second walk. -/
def eagerCostTopK : CostTopKConfig :=
  ⟨true, 12, 10, 1, 3, 1, 1, 2, 1024, 8192, 4, 1, 1, 2⟩

/-
  A run that meets the condition: the page that is moved to
  the 2MB segment is the only page of its region.
-/
theorem oneTranslation_run_alone :
    ∃ b ∈ Buddy.construct 9 8 8,
      ∃ a ∈ Allocator.construct b [⟨2, .twoMb, 1, 512⟩] 4 75
          eagerCostTopK,
        ∃ s ∈ Run.run step (start a ⟨false, 0, 0⟩)
            [.fault 0 0 0 0x400000,
              .fault 0x200000 0 0 0x400000,
              .serviced 0x200000 0 0 0],
          s.residentIn .twoMb 0x200000 0 = true ∧ s.Exclusive := by
  have hMeets : ∃ b ∈ Buddy.construct 9 8 8,
      ∃ a ∈ Allocator.construct b [⟨2, .twoMb, 1, 512⟩] 4 75
          eagerCostTopK,
        ((a.restSegs .fourKb).isNone = true ∧
          ∃ r ∈ a.restSegs .twoMb,
            r.geometry = ⟨21, 1, 1, 512, 4⟩) ∧
        Run.Along step MovesOnlyPage (start a ⟨false, 0, 0⟩)
          [.fault 0 0 0 0x400000,
            .fault 0x200000 0 0 0x400000,
            .serviced 0x200000 0 0 0] ∧
        ∃ s ∈ Run.run step (start a ⟨false, 0, 0⟩)
            [.fault 0 0 0 0x400000,
              .fault 0x200000 0 0 0x400000,
              .serviced 0x200000 0 0 0],
          s.residentIn .twoMb 0x200000 0 = true := by
    decide +kernel
  rcases hMeets with
    ⟨b, hBuddy, a, hMake, ⟨hNone, r, hSeg, hGeometry⟩, hAlong,
      s, hRun, hResident⟩
  have hInjective : ∀ size r', a.restSegs size = some r' →
      RestSeg.SplitInjective r'.geometry := by
    intro size r' hSeg'
    cases size with
    | fourKb =>
        rw [hSeg'] at hNone
        cases hNone
    | twoMb =>
        rw [hSeg', Option.mem_some_iff] at hSeg
        subst hSeg
        rw [hGeometry]
        exact RestSeg.splitInjective_of_foldsInside
          (by decide) (by decide) (Or.inl ⟨0, rfl⟩)
  refine ⟨b, hBuddy, a, hMake, s, hRun, hResident, ?_⟩
  exact (oneTranslation_run_iff hMake hInjective ⟨false, 0, 0⟩
    (by decide) hRun).mp hAlong _ List.prefix_rfl s hRun

/-
  Two pages of one region fill the segment's only set first
  and are mapped then. When one of them is moved to the 2MB
  segment, the other one goes with it and stays mapped.
-/
theorem oneTranslation_run_region :
    ∃ b ∈ Buddy.construct 9 8 8,
      ∃ a ∈ Allocator.construct b [⟨2, .twoMb, 1, 512⟩] 4 75
          eagerCostTopK,
        ∃ s ∈ Run.run step (start a ⟨false, 0, 0⟩)
            [.fault 0 0 0 0x400000,
              .fault 0x200000 0 0 0x400000,
              .fault 0x201000 0 0 0x404000,
              .serviced 0x200000 0 0 0],
          ¬ s.Exclusive := by
  refine ⟨_, Option.get_mem ?_, _, Option.get_mem ?_,
    _, Option.get_mem ?_, fun hExclusive => ?_⟩
  iterate 3 decide +kernel
  refine absurd ((hExclusive 0x201000 (by decide) 0).2 .twoMb ?_) ?_
  iterate 2 decide +kernel

end System

end Utopia

end Virtuoso
