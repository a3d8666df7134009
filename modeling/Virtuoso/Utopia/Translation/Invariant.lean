import Virtuoso.PageTable.Radix.Faults
import Virtuoso.Utopia.Allocator.Outcomes
import Virtuoso.Utopia.Translation.Basic

/-
  The invariants of translations under Utopia.

  In every state, a walk finds what was written to its page
  table, and 2MB pages were written for promoted regions.

  That a page has one translation rests on facts about why a
  page went where it is, which nothing undoes. A page of the
  page table met a full set in the 2MB segment, and sets stay
  full. Unless it is in a reserved region, it also met a full
  set in the 4KB segment and a buddy allocator without a 2MB
  block, and stays in such company. A page of the 4KB segment
  is in no reserved region, and none will be reserved.

  Main declarations:
    * `Utopia.System.Base.updated`
    * `Utopia.System.Inv.moved`
-/

------------------------------------------------------------
-- Steps In The Segments
------------------------------------------------------------

namespace Virtuoso

namespace Utopia

namespace System

variable {s s' : System} {size : PageSize} {page app : Nat}

/- A page has a mapping in the table of an application. -/
def Mapped (s : System) (app page : Nat) : Prop :=
  Radix.mappingOf (s.pageTables app).past page ≠ none

/- What holds in every state. -/
structure Base (s : System) : Prop where
  form : s.allocator.Form
  tables : ∀ app, Radix.Inv (s.pageTables app)
  large : ∀ app, ∀ op ∈ (s.pageTables app).past, ∀ region,
    op.mapsLargeIn region = true → s.allocator.Promoted region

/- What holds while each page has one translation. -/
structure Inv (s : System) : Prop extends Base s where
  injective : ∀ size r, s.allocator.restSegs size = some r →
    RestSeg.SplitInjective r.geometry
  mapped : ∀ app page, page < 2 ^ 36 → s.Mapped app page →
    s.allocator.FullAt .twoMb page ∧
      (s.allocator.Tracked (page / 512) ∨
        s.allocator.buddy.Depleted ∧
          s.allocator.FullAt .fourKb page)
  small : ∀ page app, page < 2 ^ 36 →
    s.allocator.Resident .fourKb page app →
      ¬ s.allocator.Tracked (page / 512) ∧
        s.allocator.buddy.Depleted ∧
        s.allocator.FullAt .twoMb page
  apart : ∀ page app, page < 2 ^ 36 →
    s.allocator.Resident .twoMb page app →
      ¬ s.allocator.Resident .fourKb page app
  unmapped : ∀ size page app, page < 2 ^ 36 →
    s.allocator.Resident size page app → ¬ s.Mapped app page

theorem Inv.shape
    (hInv : s.Inv) :
    s.allocator.Shape :=
  ⟨hInv.form, hInv.injective⟩

variable {a : Allocator} {page' : Nat}

/- A full set is the set of every page of the large page. -/
theorem fullAt_congr
    (hPages : page' / size.pages = page / size.pages) :
    a.FullAt size page' ↔ a.FullAt size page := by
  unfold Allocator.FullAt
  rw [hPages]

theorem resident_congr
    (hPages : page' / size.pages = page / size.pages) :
    a.Resident size page' app ↔ a.Resident size page app := by
  unfold Allocator.Resident
  rw [hPages]

/- The page of a 4KB segment is the page itself. -/
theorem eq_of_fourKb
    (hPages : page' / PageSize.fourKb.pages =
      page / PageSize.fourKb.pages) :
    page' = page := by
  simpa [PageSize.pages] using hPages

variable {ppn : Nat}

/- A 2MB mapping is in a promoted region. -/
theorem Base.promoted_of_large
    (hBase : s.Base)
    (hLarge : Radix.mappingOf (s.pageTables app).past page =
      some (ppn, 21)) :
    s.allocator.Promoted (page / 512) := by
  rcases Radix.exists_mapsLargeIn hLarge with
    ⟨op, hMem, hMaps⟩
  exact hBase.large app op hMem _ hMaps

theorem tracked_of_promoted
    {region : Nat}
    (hPromoted : a.Promoted region) :
    a.Tracked region := by
  rcases hPromoted with ⟨r, hLookup, _⟩
  unfold Allocator.Tracked
  rw [hLookup]
  exact Option.some_ne_none r

/- The regions stay, and no 2MB block appears. -/
structure KeepsFlexSeg (a a' : Allocator) : Prop where
  thpRegions : a'.thpRegions = a.thpRegions
  depleted : a.buddy.Depleted → a'.buddy.Depleted

variable {a a' : Allocator}

theorem keepsFlexSeg_of_same
    (hSame : a.SameFlexSeg a') :
    KeepsFlexSeg a a' :=
  ⟨hSame.thpRegions, fun hDepleted => hSame.buddy ▸ hDepleted⟩

theorem KeepsFlexSeg.tracked_iff
    (hKeeps : KeepsFlexSeg a a')
    (region : Nat) :
    a'.Tracked region ↔ a.Tracked region := by
  unfold Allocator.Tracked
  rw [hKeeps.thpRegions]

theorem KeepsFlexSeg.promoted_iff
    (hKeeps : KeepsFlexSeg a a')
    (region : Nat) :
    a'.Promoted region ↔ a.Promoted region := by
  unfold Allocator.Promoted
  rw [hKeeps.thpRegions]

/- What is known about mapped pages stays true. -/
theorem Inv.mapped_keeps
    (hInv : s.Inv)
    (hKeeps : s.allocator.Keeps s'.allocator)
    (hFlexSeg : KeepsFlexSeg s.allocator s'.allocator)
    (hPage : page < 2 ^ 36)
    (hMapped : s.Mapped app page) :
    s'.allocator.FullAt .twoMb page ∧
      (s'.allocator.Tracked (page / 512) ∨
        s'.allocator.buddy.Depleted ∧
          s'.allocator.FullAt .fourKb page) := by
  rcases hInv.mapped app page hPage hMapped with
    ⟨hLarge, hTracked | ⟨hDepleted, hSmall⟩⟩
  · exact ⟨hKeeps.fullAt hLarge,
      Or.inl ((hFlexSeg.tracked_iff _).mpr hTracked)⟩
  · exact ⟨hKeeps.fullAt hLarge,
      Or.inr ⟨hFlexSeg.depleted hDepleted, hKeeps.fullAt hSmall⟩⟩

theorem Inv.small_keeps
    (hInv : s.Inv)
    (hKeeps : s.allocator.Keeps s'.allocator)
    (hFlexSeg : KeepsFlexSeg s.allocator s'.allocator)
    (hPage : page < 2 ^ 36)
    (hResident : s.allocator.Resident .fourKb page app) :
    ¬ s'.allocator.Tracked (page / 512) ∧
      s'.allocator.buddy.Depleted ∧
      s'.allocator.FullAt .twoMb page := by
  rcases hInv.small page app hPage hResident with
    ⟨hUntracked, hDepleted, hLarge⟩
  exact ⟨mt (hFlexSeg.tracked_iff _).mp hUntracked,
    hFlexSeg.depleted hDepleted, hKeeps.fullAt hLarge⟩

theorem Base.steady
    (hBase : s.Base)
    (hTables : s'.pageTables = s.pageTables)
    (hKeeps : s.allocator.Keeps s'.allocator)
    (hFlexSeg : KeepsFlexSeg s.allocator s'.allocator) :
    s'.Base := by
  refine ⟨hKeeps.form hBase.form, ?_, ?_⟩
  · rw [hTables]
    exact hBase.tables
  · intro app op hMem region hMaps
    rw [hTables] at hMem
    exact (hFlexSeg.promoted_iff region).mpr
      (hBase.large app op hMem region hMaps)

/- A step that leaves every page where it is. -/
theorem Inv.steady
    (hInv : s.Inv)
    (hTables : s'.pageTables = s.pageTables)
    (hSteady : s.allocator.Steady s'.allocator)
    (hFlexSeg : KeepsFlexSeg s.allocator s'.allocator) :
    s'.Inv := by
  have hMapped : ∀ app page,
      s'.Mapped app page ↔ s.Mapped app page := by
    intro app page
    unfold Mapped
    rw [hTables]
  refine ⟨hInv.toBase.steady hTables hSteady.toKeeps hFlexSeg,
    hSteady.toKeeps.injective hInv.injective, ?_, ?_, ?_, ?_⟩
  · intro app page hPage hHas
    exact hInv.mapped_keeps hSteady.toKeeps hFlexSeg hPage
      ((hMapped app page).mp hHas)
  · intro page app hPage hResident
    exact hInv.small_keeps hSteady.toKeeps hFlexSeg hPage
      ((hSteady.resident _ _ _).mp hResident)
  · intro page app hPage hLarge hSmall
    exact hInv.apart page app hPage
      ((hSteady.resident _ _ _).mp hLarge)
      ((hSteady.resident _ _ _).mp hSmall)
  · intro size page app hPage hResident hHas
    exact hInv.unmapped size page app hPage
      ((hSteady.resident _ _ _).mp hResident)
      ((hMapped app page).mp hHas)

/-
  A page enters a free way of its set. No page of the set is
  mapped then, since mapped pages have full sets.
-/
theorem Inv.added
    (hInv : s.Inv)
    {core : Nat}
    (hPage : page < 2 ^ 36)
    (hTables : s'.pageTables = s.pageTables)
    (hAdds : s.allocator.Adds s'.allocator size page core)
    (hFlexSeg : KeepsFlexSeg s.allocator s'.allocator)
    (hFree : ¬ s.allocator.FullAt size page)
    (hSmall : size = .fourKb →
      ¬ s.allocator.Tracked (page / 512) ∧
        s.allocator.buddy.Depleted ∧
        s.allocator.FullAt .twoMb page ∧
        ¬ s.allocator.Resident .twoMb page core) :
    s'.Inv := by
  have hMapped : ∀ app page,
      s'.Mapped app page ↔ s.Mapped app page := by
    intro app page
    unfold Mapped
    rw [hTables]
  refine ⟨hInv.toBase.steady hTables hAdds.toKeeps hFlexSeg,
    hAdds.toKeeps.injective hInv.injective, ?_, ?_, ?_, ?_⟩
  · intro app' page' hPage' hHas
    exact hInv.mapped_keeps hAdds.toKeeps hFlexSeg hPage'
      ((hMapped app' page').mp hHas)
  · intro page' app' hPage' hResident
    rcases hAdds.others_page hInv.shape hPage hPage' hResident with
      hOld | ⟨hSize, hPages, _⟩
    · exact hInv.small_keeps hAdds.toKeeps hFlexSeg hPage' hOld
    · subst hSize
      rw [eq_of_fourKb hPages]
      rcases hSmall rfl with
        ⟨hUntracked, hDepleted, hLarge, _⟩
      exact ⟨mt (hFlexSeg.tracked_iff _).mp hUntracked,
        hFlexSeg.depleted hDepleted,
        hAdds.toKeeps.fullAt hLarge⟩
  · intro page' app' hPage' hLarge hResident
    rcases hAdds.others_page hInv.shape hPage hPage' hLarge with
      hOldLarge | ⟨hSize, hPages, hApp⟩
    · rcases hAdds.others_page hInv.shape hPage hPage' hResident with
        hOldSmall | ⟨hSize, hPages, hApp⟩
      · exact hInv.apart page' app' hPage' hOldLarge hOldSmall
      · subst hSize
        rw [eq_of_fourKb hPages, hApp] at hOldLarge
        exact (hSmall rfl).2.2.2 hOldLarge
    · subst hSize
      rcases hAdds.others_page hInv.shape hPage hPage' hResident with
        hOldSmall | ⟨hOther, _⟩
      · rcases hInv.small page' app' hPage' hOldSmall with
          ⟨_, _, hFull⟩
        exact hFree ((fullAt_congr hPages).mp hFull)
      · cases hOther
  · intro size' page' app' hPage' hResident hHas
    rw [hMapped] at hHas
    rcases hAdds.others_page hInv.shape hPage hPage' hResident with
      hOld | ⟨hSize, hPages, hApp⟩
    · exact hInv.unmapped size' page' app' hPage' hOld hHas
    · subst hSize
      rcases hInv.mapped app' page' hPage' hHas with
        ⟨hLarge, hWhy⟩
      cases size' with
      | twoMb => exact hFree ((fullAt_congr hPages).mp hLarge)
      | fourKb =>
          rw [eq_of_fourKb hPages] at hWhy
          rcases hWhy with hTracked | ⟨_, hFull⟩
          · exact (hSmall rfl).1 hTracked
          · exact hFree hFull

------------------------------------------------------------
-- Steps In The Page Tables
------------------------------------------------------------

variable {table : Radix.Session}

/- The table of one application after an operation. -/
theorem past_setTable
    (hTables : s'.pageTables =
      Function.update s.pageTables app table)
    (app' : Nat) :
    (s'.pageTables app').past =
      if app' = app then table.past
      else (s.pageTables app').past := by
  rw [hTables]
  split_ifs with hEq
  · rw [hEq, Function.update_self]
  · rw [Function.update_of_ne hEq]

theorem tables_setTable
    (hBase : s.Base)
    (hTables : s'.pageTables =
      Function.update s.pageTables app table)
    (hTable : Radix.Inv table)
    (app' : Nat) :
    Radix.Inv (s'.pageTables app') := by
  rw [hTables]
  by_cases hEq : app' = app
  · rw [hEq, Function.update_self]
    exact hTable
  · rw [Function.update_of_ne hEq]
    exact hBase.tables app'

/- The pages that an update maps. -/
theorem mapped_of_update
    {frames : List Nat}
    (hTables : s'.pageTables =
      Function.update s.pageTables app table)
    (hPage : page < 2 ^ 36)
    (hPast : table.past =
      .update (page * 2 ^ 12) ppn size frames ::
        (s.pageTables app).past)
    {app' page' : Nat}
    (hMapped : s'.Mapped app' page') :
    s.Mapped app' page' ∨
      app' = app ∧ page' / size.pages = page / size.pages := by
  unfold Mapped at hMapped ⊢
  rw [past_setTable hTables] at hMapped
  split_ifs at hMapped with hApp
  · rw [hPast] at hMapped
    simp only [Radix.mappingOf, Mapping.map] at hMapped
    have hOwn : Radix.pageOf (page * 2 ^ 12) = page := by
      unfold Radix.pageOf
      omega
    rw [hOwn] at hMapped
    split_ifs at hMapped with hSame
    · exact Or.inr ⟨hApp, hSame⟩
    · exact Or.inl (hApp ▸ hMapped)
  · exact Or.inl hMapped

/- A page is written to its table, with its page size. -/
theorem Base.updated
    (hBase : s.Base)
    {frames : List Nat}
    (hPage : page < 2 ^ 36)
    (hTables : s'.pageTables =
      Function.update s.pageTables app table)
    (hTable : Radix.Inv table)
    (hPast : table.past =
      .update (page * 2 ^ 12) ppn size frames ::
        (s.pageTables app).past)
    (hKeeps : s.allocator.Keeps s'.allocator)
    (hPromoted : ∀ region, s.allocator.Promoted region →
      s'.allocator.Promoted region)
    (hOwnLarge : size = .twoMb →
      s'.allocator.Promoted (page / 512)) :
    s'.Base := by
  refine ⟨hKeeps.form hBase.form,
    tables_setTable hBase hTables hTable, ?_⟩
  intro app' op hMem region hMaps
  rw [past_setTable hTables] at hMem
  split_ifs at hMem with hApp
  · rw [hPast, List.mem_cons] at hMem
    rcases hMem with hEq | hOld
    · subst hEq
      have hOwn : Radix.pageOf (page * 2 ^ 12) = page := by
        unfold Radix.pageOf
        omega
      cases size with
      | fourKb => cases hMaps
      | twoMb =>
          simp only [Radix.Op.mapsLargeIn, hOwn,
            beq_iff_eq] at hMaps
          exact hMaps ▸ hOwnLarge rfl
    · exact hPromoted region (hBase.large app op hOld region hMaps)
  · exact hPromoted region (hBase.large app' op hMem region hMaps)

/- A page is deleted from its table. -/
theorem Base.deleted
    (hBase : s.Base)
    {address : Nat}
    (hTables : s'.pageTables =
      Function.update s.pageTables app table)
    (hTable : Radix.Inv table)
    (hPast : table.past =
      .delete address :: (s.pageTables app).past)
    (hKeeps : s.allocator.Keeps s'.allocator)
    (hFlexSeg : KeepsFlexSeg s.allocator s'.allocator) :
    s'.Base := by
  refine ⟨hKeeps.form hBase.form,
    tables_setTable hBase hTables hTable, ?_⟩
  intro app' op hMem region hMaps
  rw [hFlexSeg.promoted_iff]
  rw [past_setTable hTables] at hMem
  split_ifs at hMem with hApp
  · rw [hPast, List.mem_cons] at hMem
    rcases hMem with hEq | hOld
    · subst hEq
      cases hMaps
    · exact hBase.large app op hOld region hMaps
  · exact hBase.large app' op hMem region hMaps

/-
  A page is mapped. The reason why it went to the page table
  is a reserved region, or full sets and no 2MB block.
-/
theorem Inv.updated
    (hInv : s.Inv)
    {frames : List Nat}
    (hPage : page < 2 ^ 36)
    (hTables : s'.pageTables =
      Function.update s.pageTables app table)
    (hTable : Radix.Inv table)
    (hPast : table.past =
      .update (page * 2 ^ 12) ppn size frames ::
        (s.pageTables app).past)
    (hSteady : s.allocator.Steady s'.allocator)
    (hTracked : ∀ region, s.allocator.Tracked region →
      s'.allocator.Tracked region)
    (hPromoted : ∀ region, s.allocator.Promoted region →
      s'.allocator.Promoted region)
    (hDepleted : s.allocator.buddy.Depleted →
      s'.allocator.buddy.Depleted)
    (hLarge : s.allocator.FullAt .twoMb page)
    (hOwnLarge : size = .twoMb → s'.allocator.Promoted (page / 512))
    (hWhy : s'.allocator.Tracked (page / 512) ∨
      size = .fourKb ∧ s'.allocator.buddy.Depleted ∧
        s.allocator.FullAt .fourKb page)
    (hUntracked : ∀ page' app', page' < 2 ^ 36 →
      s.allocator.Resident .fourKb page' app' →
        ¬ s'.allocator.Tracked (page' / 512))
    (hNone : ∀ size', ∀ page' < 2 ^ 36,
      page' / size.pages = page / size.pages →
        ¬ s.allocator.Resident size' page' app) :
    s'.Inv := by
  refine ⟨hInv.toBase.updated hPage hTables hTable hPast
      hSteady.toKeeps hPromoted hOwnLarge,
    hSteady.toKeeps.injective hInv.injective, ?_, ?_, ?_, ?_⟩
  · intro app' page' hPage' hHas
    rcases mapped_of_update hTables hPage hPast hHas with
      hOld | ⟨_, hPages⟩
    · rcases hInv.mapped app' page' hPage' hOld with
        ⟨hFull, hOldWhy⟩
      refine ⟨hSteady.toKeeps.fullAt hFull, ?_⟩
      rcases hOldWhy with hIn | ⟨hNoBlock, hFour⟩
      · exact Or.inl (hTracked _ hIn)
      · exact Or.inr ⟨hDepleted hNoBlock,
          hSteady.toKeeps.fullAt hFour⟩
    · have hRegion : page' / 512 = page / 512 := by
        cases size with
        | fourKb => rw [eq_of_fourKb hPages]
        | twoMb => exact hPages
      refine ⟨hSteady.toKeeps.fullAt
        ((fullAt_congr hRegion).mpr hLarge), ?_⟩
      rcases hWhy with hIn | ⟨hSize, hNoBlock, hFour⟩
      · exact Or.inl (hRegion ▸ hIn)
      · subst hSize
        rw [eq_of_fourKb hPages]
        exact Or.inr ⟨hNoBlock, hSteady.toKeeps.fullAt hFour⟩
  · intro page' app' hPage' hResident
    rw [hSteady.resident] at hResident
    rcases hInv.small page' app' hPage' hResident with
      ⟨_, hNoBlock, hFull⟩
    exact ⟨hUntracked page' app' hPage' hResident,
      hDepleted hNoBlock, hSteady.toKeeps.fullAt hFull⟩
  · intro page' app' hPage' hTwo hFour
    exact hInv.apart page' app' hPage'
      ((hSteady.resident _ _ _).mp hTwo)
      ((hSteady.resident _ _ _).mp hFour)
  · intro size' page' app' hPage' hResident hHas
    rw [hSteady.resident] at hResident
    rcases mapped_of_update hTables hPage hPast hHas with
      hOld | ⟨hApp, hPages⟩
    · exact hInv.unmapped size' page' app' hPage' hResident hOld
    · subst hApp
      exact hNone size' page' hPage' hPages hResident

/- The pages that stay mapped after a deletion. -/
theorem mapped_delete_iff
    (hTables : s'.pageTables =
      Function.update s.pageTables app table)
    {address : Nat}
    (hAddress : address < 2 ^ 48)
    (hPast : table.past =
      .delete address :: (s.pageTables app).past)
    (hSmall : ∀ ppn, Radix.mappingOf (s.pageTables app).past
      (address / 2 ^ 12) ≠ some (ppn, 21))
    (app' page' : Nat) :
    s'.Mapped app' page' ↔
      s.Mapped app' page' ∧
        ¬ (app' = app ∧ page' = address / 2 ^ 12) := by
  have hOwn : Radix.pageOf address = address / 2 ^ 12 := by
    unfold Radix.pageOf
    omega
  unfold Mapped
  rw [past_setTable hTables]
  split_ifs with hApp
  · subst hApp
    rw [hPast]
    simp only [Radix.mappingOf, hOwn]
    rw [Mapping.unmap_of_not_large hSmall]
    split_ifs with hEq
    · exact iff_of_false (fun hNe => hNe rfl)
        (fun hBoth => hBoth.2 ⟨trivial, hEq⟩)
    · exact ⟨fun hNe => ⟨hNe, fun hBoth => hEq hBoth.2⟩,
        fun hBoth => hBoth.1⟩
  · exact ⟨fun hNe => ⟨hNe, fun hBoth => hApp hBoth.1⟩,
      fun hBoth => hBoth.1⟩

/-
  A mapped page moves to a segment. In the 2MB segment it
  takes its region with it, so that no other page of the
  region may be mapped.
-/
theorem Inv.moved
    (hInv : s.Inv)
    {address ppn bits : Nat}
    (hAddress : address < 2 ^ 48)
    (hTables : s'.pageTables =
      Function.update s.pageTables app table)
    (hTable : Radix.Inv table)
    (hPast : table.past =
      .delete address :: (s.pageTables app).past)
    (hMapping : Radix.mappingOf (s.pageTables app).past
      (address / 2 ^ 12) = some (ppn, bits))
    (hNone : ∀ size',
      ¬ s.allocator.Resident size' (address / 2 ^ 12) app)
    (hUntracked : ¬ s.allocator.Tracked (address / 2 ^ 12 / 512))
    (hAdds : s.allocator.Adds s'.allocator size
      (address / 2 ^ 12) app)
    (hFlexSeg : KeepsFlexSeg s.allocator s'.allocator)
    (hTarget : size = .twoMb → s.allocator.restSegs .fourKb = none)
    (hOnly : size = .twoMb →
      ∀ page' < 2 ^ 36, page' / 512 = address / 2 ^ 12 / 512 →
        page' ≠ address / 2 ^ 12 → ¬ s.Mapped app page') :
    s'.Inv := by
  have hPage : address / 2 ^ 12 < 2 ^ 36 := by omega
  have hOwn : s.Mapped app (address / 2 ^ 12) := by
    unfold Mapped
    rw [hMapping]
    exact Option.some_ne_none _
  have hSmall : ∀ ppn',
      Radix.mappingOf (s.pageTables app).past
        (address / 2 ^ 12) ≠ some (ppn', 21) := by
    intro ppn' hLarge
    exact hUntracked
      (tracked_of_promoted (hInv.promoted_of_large hLarge))
  have hIff :=
    mapped_delete_iff hTables hAddress hPast hSmall
  refine ⟨hInv.toBase.deleted hTables hTable hPast
      hAdds.toKeeps hFlexSeg,
    hAdds.toKeeps.injective hInv.injective, ?_, ?_, ?_, ?_⟩
  · intro app' page' hPage' hHas
    exact hInv.mapped_keeps hAdds.toKeeps hFlexSeg hPage'
      ((hIff app' page').mp hHas).1
  · intro page' app' hPage' hResident
    rcases hAdds.others_page hInv.shape hPage hPage' hResident with
      hOld | ⟨hSize, hPages, _⟩
    · exact hInv.small_keeps hAdds.toKeeps hFlexSeg hPage' hOld
    · subst hSize
      rw [eq_of_fourKb hPages]
      rcases hInv.mapped_keeps hAdds.toKeeps hFlexSeg hPage
          hOwn with ⟨hLarge, hIn | ⟨hNoBlock, _⟩⟩
      · exact absurd ((hFlexSeg.tracked_iff _).mp hIn) hUntracked
      · exact ⟨mt (hFlexSeg.tracked_iff _).mp hUntracked,
          hNoBlock, hLarge⟩
  · intro page' app' hPage' hTwo hFour
    rcases hAdds.others_page hInv.shape hPage hPage' hTwo with
      hOldTwo | ⟨hSize, _⟩
    · rcases hAdds.others_page hInv.shape hPage hPage' hFour with
        hOldFour | ⟨hSize, hPages, hApp⟩
      · exact hInv.apart page' app' hPage' hOldTwo hOldFour
      · subst hSize
        rw [eq_of_fourKb hPages, hApp] at hOldTwo
        exact hNone .twoMb hOldTwo
    · rcases hFour with ⟨r, hSeg, _⟩
      rcases hAdds.toKeeps.exists_old hSeg with ⟨r', hOld, _⟩
      rw [hTarget hSize.symm] at hOld
      cases hOld
  · intro size' page' app' hPage' hResident hHas
    rcases (hIff app' page').mp hHas with ⟨hBefore, hOther⟩
    rcases hAdds.others_page hInv.shape hPage hPage' hResident with
      hOld | ⟨hSize, hPages, hApp⟩
    · exact hInv.unmapped size' page' app' hPage' hOld hBefore
    · subst hSize
      subst hApp
      cases size' with
      | fourKb => exact hOther ⟨rfl, eq_of_fourKb hPages⟩
      | twoMb =>
          exact hOnly rfl page' hPage' hPages
            (fun hEq => hOther ⟨rfl, hEq⟩) hBefore

end System

end Utopia

end Virtuoso
