import Virtuoso.Buddy.Depleted
import Virtuoso.Utopia.Allocator.Basic
import Virtuoso.Utopia.RestSeg.Occupancy
import Virtuoso.Utopia.RestSeg.Runs

/-
  What the operations of the allocator do to the pages that
  its segments hold, to the tracked regions and to the large
  blocks of the buddy allocator.

  Pages are 4KB pages. A page is resident in the segment of a
  page size if the page of that size around it is held.

  Main declarations:
    * `Utopia.Allocator.isInRestSeg_spec`
    * `Utopia.Allocator.built_construct`
-/

------------------------------------------------------------
-- Residence And Lookups
------------------------------------------------------------

namespace Virtuoso

namespace Utopia

namespace Allocator

variable {a a' a'' : Allocator} {size : PageSize}
variable {page app : Nat}

/- A page of an application is in the segment of a size. -/
def Resident
    (a : Allocator)
    (size : PageSize)
    (page app : Nat) : Prop :=
  ∃ r, a.restSegs size = some r ∧ r.Held (page / size.pages) app

/- The set of a page in the segment of a size is full. -/
def FullAt
    (a : Allocator)
    (size : PageSize)
    (page : Nat) : Prop :=
  ∀ r, a.restSegs size = some r → r.FullAt (page / size.pages)

/- A 2MB region has a reserved block. -/
def Tracked (a : Allocator) (region : Nat) : Prop :=
  a.thpRegions.lookup region ≠ none

/- A 2MB region has been promoted. -/
def Promoted (a : Allocator) (region : Nat) : Prop :=
  ∃ r, a.thpRegions.lookup region = some r ∧ r.promoted = true

/-
  The segments have their page sizes, have ways in their
  sets, and are in the vector.
-/
structure Form (a : Allocator) : Prop where
  pageSize : ∀ size r, a.restSegs size = some r →
    r.geometry.pageSizeBits = size.bits
  ways : ∀ size r, a.restSegs size = some r →
    ∀ i, 0 < (r.sets i).associativity
  order : ∀ size r, a.restSegs size = some r → size ∈ a.order

/- The segments also tell pages apart. -/
structure Shape (a : Allocator) : Prop extends Form a where
  injective : ∀ size r, a.restSegs size = some r →
    RestSeg.SplitInjective r.geometry

/- A segment takes two pages for one page. -/
def SameSlot
    (a : Allocator)
    (size : PageSize)
    (page page' : Nat) : Prop :=
  ∃ r, a.restSegs size = some r ∧
    r.geometry.tagOf (page' / size.pages) =
      r.geometry.tagOf (page / size.pages) ∧
    r.geometry.setOf (page' / size.pages) =
      r.geometry.setOf (page / size.pages)

/- The segments keep their shapes and their full sets. -/
structure Keeps (a a' : Allocator) : Prop where
  order : a'.order = a.order
  segs : ∀ size,
    Option.Rel RestSeg.Keeps (a.restSegs size) (a'.restSegs size)

/- The segments hold the same pages. -/
structure Steady
    (a a' : Allocator) : Prop extends Keeps a a' where
  resident : ∀ size page app,
    a'.Resident size page app ↔ a.Resident size page app
  full_old : ∀ size page, a'.FullAt size page → a.FullAt size page

/- The segment of a size gets a page, and no other one. -/
structure Adds
    (a a' : Allocator)
    (size : PageSize)
    (page app : Nat) : Prop extends Keeps a a' where
  own : a'.Resident size page app
  others : ∀ size' page' app',
    a'.Resident size' page' app' →
      a.Resident size' page' app' ∨
        size' = size ∧ a.SameSlot size page page' ∧ app' = app

theorem Keeps.refl
    (a : Allocator) :
    a.Keeps a := by
  refine ⟨rfl, fun size => ?_⟩
  cases a.restSegs size with
  | none => exact .none
  | some r => exact .some (RestSeg.Keeps.refl r)

theorem Keeps.trans
    (hFirst : a.Keeps a')
    (hSecond : a'.Keeps a'') :
    a.Keeps a'' := by
  refine ⟨hSecond.order.trans hFirst.order, fun size => ?_⟩
  have hOne := hFirst.segs size
  have hTwo := hSecond.segs size
  generalize a.restSegs size = x at hOne
  generalize a'.restSegs size = y at hOne hTwo
  generalize a''.restSegs size = z at hTwo
  cases hOne with
  | none =>
      cases hTwo with
      | none => exact .none
  | some hKeeps =>
      cases hTwo with
      | some hKeeps' => exact .some (hKeeps.trans hKeeps')

/- A segment after an operation, and the one before it. -/
theorem Keeps.exists_old
    (hKeeps : a.Keeps a')
    {r' : RestSeg}
    (hSeg : a'.restSegs size = some r') :
    ∃ r, a.restSegs size = some r ∧ r.Keeps r' := by
  have hRel := hKeeps.segs size
  rw [hSeg] at hRel
  generalize hOld : a.restSegs size = x at hRel
  cases hRel with
  | some hBoth => exact ⟨_, rfl, hBoth⟩

/- Full sets stay full. -/
theorem Keeps.fullAt
    (hKeeps : a.Keeps a')
    (hFull : a.FullAt size page) :
    a'.FullAt size page := by
  intro r' hSeg
  rcases hKeeps.exists_old hSeg with ⟨r, hOld, hBoth⟩
  exact hBoth.fullAt (hFull r hOld)

theorem Keeps.form
    (hKeeps : a.Keeps a')
    (hForm : a.Form) :
    a'.Form := by
  refine ⟨?_, ?_, ?_⟩
  · intro size r' hSeg
    rcases hKeeps.exists_old hSeg with ⟨r, hOld, hBoth⟩
    rw [hBoth.geometry]
    exact hForm.pageSize size r hOld
  · intro size r' hSeg i
    rcases hKeeps.exists_old hSeg with ⟨r, hOld, hBoth⟩
    rw [hBoth.associativity]
    exact hForm.ways size r hOld i
  · intro size r' hSeg
    rcases hKeeps.exists_old hSeg with ⟨r, hOld, _⟩
    rw [hKeeps.order]
    exact hForm.order size r hOld

theorem Keeps.sameSlot
    (hKeeps : a.Keeps a')
    {page' : Nat}
    (hSlot : a'.SameSlot size page page') :
    a.SameSlot size page page' := by
  rcases hSlot with ⟨r', hSeg, hTag, hSet⟩
  rcases hKeeps.exists_old hSeg with ⟨r, hOld, hBoth⟩
  rw [hBoth.geometry] at hTag hSet
  exact ⟨r, hOld, hTag, hSet⟩

theorem Keeps.injective
    (hKeeps : a.Keeps a')
    (hInjective : ∀ size r, a.restSegs size = some r →
      RestSeg.SplitInjective r.geometry) :
    ∀ size r, a'.restSegs size = some r →
      RestSeg.SplitInjective r.geometry := by
  intro size r' hSeg
  rcases hKeeps.exists_old hSeg with ⟨r, hOld, hBoth⟩
  rw [hBoth.geometry]
  exact hInjective size r hOld

theorem Steady.refl
    (a : Allocator) :
    a.Steady a :=
  ⟨Keeps.refl a, fun _ _ _ => Iff.rfl, fun _ _ hFull => hFull⟩

theorem Steady.trans
    (hFirst : a.Steady a')
    (hSecond : a'.Steady a'') :
    a.Steady a'' :=
  ⟨hFirst.toKeeps.trans hSecond.toKeeps,
    fun size page app =>
      (hSecond.resident size page app).trans
        (hFirst.resident size page app),
    fun size page hFull =>
      hFirst.full_old size page (hSecond.full_old size page hFull)⟩

/- An allocator with the same segments. -/
theorem steady_of_eq
    (hOrder : a'.order = a.order)
    (hSegs : a'.restSegs = a.restSegs) :
    a.Steady a' := by
  refine ⟨⟨hOrder, fun size => ?_⟩, ?_, ?_⟩
  · rw [hSegs]
    exact (Keeps.refl a).segs size
  · intro size page app
    unfold Resident
    rw [hSegs]
  · intro size page hFull
    unfold FullAt at hFull ⊢
    rwa [hSegs] at hFull

/- A page added after a steady step is an added page. -/
theorem Adds.after
    (hSteady : a.Steady a')
    (hAdds : a'.Adds a'' size page app) :
    a.Adds a'' size page app := by
  refine ⟨hSteady.toKeeps.trans hAdds.toKeeps, hAdds.own, ?_⟩
  intro size' page' app' hNew
  rcases hAdds.others size' page' app' hNew with
    hOld | ⟨hSize, hSlot, hApp⟩
  · exact Or.inl ((hSteady.resident _ _ _).mp hOld)
  · exact Or.inr ⟨hSize, hSteady.toKeeps.sameSlot hSlot, hApp⟩

/- A steady step after a page was added. -/
theorem Adds.before
    (hAdds : a.Adds a' size page app)
    (hSteady : a'.Steady a'') :
    a.Adds a'' size page app := by
  refine ⟨hAdds.toKeeps.trans hSteady.toKeeps,
    (hSteady.resident _ _ _).mpr hAdds.own, ?_⟩
  intro size' page' app' hNew
  exact hAdds.others size' page' app'
    ((hSteady.resident _ _ _).mp hNew)

variable {r : RestSeg}

/- The page of a segment around an address. -/
theorem Form.vpn_eq
    (hForm : a.Form)
    (hSeg : a.restSegs size = some r)
    (address : Nat) :
    r.geometry.vpn address = address / 2 ^ 12 / size.pages := by
  unfold Geometry.vpn
  rw [hForm.pageSize size r hSeg]
  cases size with
  | fourKb => exact (Nat.div_one _).symm
  | twoMb =>
      rw [Nat.div_div_eq_div_mul]
      rfl

theorem setRestSeg_self
    (a : Allocator)
    (size : PageSize)
    (r : RestSeg) :
    (a.setRestSeg size r).restSegs size = some r :=
  Function.update_self _ _ _

variable {size' : PageSize}

theorem setRestSeg_of_ne
    (a : Allocator)
    (r : RestSeg)
    (hNe : size' ≠ size) :
    (a.setRestSeg size r).restSegs size' = a.restSegs size' :=
  Function.update_of_ne hNe _ _

variable {r r' : RestSeg}

theorem keeps_setRestSeg
    (hSeg : a.restSegs size = some r)
    (hKeeps : r.Keeps r') :
    a.Keeps (a.setRestSeg size r') := by
  refine ⟨rfl, fun size' => ?_⟩
  by_cases hEq : size' = size
  · rw [hEq, setRestSeg_self, hSeg]
    exact .some hKeeps
  · rw [setRestSeg_of_ne a r' hEq]
    exact (Keeps.refl a).segs size'

theorem resident_setRestSeg
    (a : Allocator)
    (size : PageSize)
    (r : RestSeg)
    (size' : PageSize)
    (page app : Nat) :
    (a.setRestSeg size r).Resident size' page app ↔
      if size' = size then r.Held (page / size.pages) app
      else a.Resident size' page app := by
  unfold Resident
  by_cases hEq : size' = size
  · rw [if_pos hEq, hEq, setRestSeg_self]
    simp
  · rw [if_neg hEq, setRestSeg_of_ne a r hEq]

theorem steady_setRestSeg
    (hSeg : a.restSegs size = some r)
    (hSteady : r.Steady r') :
    a.Steady (a.setRestSeg size r') := by
  refine ⟨keeps_setRestSeg hSeg hSteady.toKeeps, ?_, ?_⟩
  · intro size' page app
    rw [resident_setRestSeg]
    split_ifs with hEq
    · subst hEq
      rw [hSteady.held]
      unfold Resident
      rw [hSeg]
      simp
    · rfl
  · intro size' page hFull r₁ hSeg₁
    by_cases hEq : size' = size
    · subst hEq
      rw [hSeg] at hSeg₁
      cases hSeg₁
      have hNew := hFull r' (setRestSeg_self a size' r')
      unfold RestSeg.FullAt at hNew ⊢
      rw [hSteady.geometry] at hNew
      exact hSteady.full_old _ hNew
    · apply hFull r₁
      rw [setRestSeg_of_ne a r' hEq]
      exact hSeg₁

/- A page of a segment is below its number of pages. -/
theorem Form.inRange
    (hForm : a.Form)
    (hSeg : a.restSegs size = some r)
    (hPage : page < 2 ^ 36) :
    page / size.pages < 2 ^ (48 - r.geometry.pageSizeBits) := by
  rw [hForm.pageSize size r hSeg]
  cases size with
  | fourKb =>
      simp only [PageSize.pages, PageSize.bits, Nat.div_one]
      omega
  | twoMb =>
      simp only [PageSize.pages, PageSize.bits]
      omega

/- A page added to a segment is added to the allocator. -/
theorem adds_setRestSeg
    (hSeg : a.restSegs size = some r)
    (hKeeps : r.Keeps r')
    (hOwn : r'.Held (page / size.pages) app)
    (hOthers : ∀ page' app', r'.Held page' app' →
      r.Held page' app' ∨
        r.geometry.tagOf page' =
            r.geometry.tagOf (page / size.pages) ∧
          r.geometry.setOf page' =
            r.geometry.setOf (page / size.pages) ∧
          app' = app) :
    a.Adds (a.setRestSeg size r') size page app := by
  refine ⟨keeps_setRestSeg hSeg hKeeps, ?_, ?_⟩
  · rw [resident_setRestSeg, if_pos rfl]
    exact hOwn
  · intro size' page' app' hNew
    rw [resident_setRestSeg] at hNew
    split_ifs at hNew with hEq
    · subst hEq
      rcases hOthers _ _ hNew with
        hOld | ⟨hTag, hSet, hApp⟩
      · exact Or.inl ⟨r, hSeg, hOld⟩
      · exact Or.inr ⟨rfl, ⟨r, hSeg, hTag, hSet⟩, hApp⟩
    · exact Or.inl hNew

/- Where pages are told apart, one page is added. -/
theorem Adds.others_page
    (hAdds : a.Adds a' size page app)
    (hShape : a.Shape)
    (hPage : page < 2 ^ 36)
    {page' app' : Nat}
    (hPage' : page' < 2 ^ 36)
    (hResident : a'.Resident size' page' app') :
    a.Resident size' page' app' ∨
      size' = size ∧
        page' / size.pages = page / size.pages ∧
        app' = app := by
  rcases hAdds.others _ _ _ hResident with
    hOld | ⟨hSize, ⟨r, hSeg, hTag, hSet⟩, hApp⟩
  · exact Or.inl hOld
  · right
    exact ⟨hSize, hShape.injective _ r hSeg _
      (hShape.inRange hSeg hPage) _
      (hShape.inRange hSeg hPage') hTag hSet, hApp⟩

/- A lookup leaves the blocks and the regions alone. -/
structure SameFlexSeg (a a' : Allocator) : Prop where
  buddy : a'.buddy = a.buddy
  thpRegions : a'.thpRegions = a.thpRegions
  costTopKConfig : a'.costTopKConfig = a.costTopKConfig
  costTopKState : a'.costTopKState = a.costTopKState

theorem SameFlexSeg.refl
    (a : Allocator) :
    a.SameFlexSeg a :=
  ⟨rfl, rfl, rfl, rfl⟩

theorem SameFlexSeg.trans
    (hFirst : a.SameFlexSeg a')
    (hSecond : a'.SameFlexSeg a'') :
    a.SameFlexSeg a'' :=
  ⟨hSecond.buddy.trans hFirst.buddy,
    hSecond.thpRegions.trans hFirst.thpRegions,
    hSecond.costTopKConfig.trans hFirst.costTopKConfig,
    hSecond.costTopKState.trans hFirst.costTopKState⟩

/- The outcome of a loop over segments. -/
theorem isInRestSegFrom_spec
    (hForm : a.Form)
    (address app : Nat)
    (sizes : List PageSize) :
    (isInRestSegFrom address app sizes a = (false, a) ∧
        ∀ size ∈ sizes, ¬ a.Resident size (address / 2 ^ 12) app) ∨
      ∃ size a', isInRestSegFrom address app sizes a = (true, a') ∧
        a.Resident size (address / 2 ^ 12) app ∧
        a.Steady a' ∧ a.SameFlexSeg a' := by
  induction sizes with
  | nil => exact Or.inl ⟨rfl, by simp⟩
  | cons size sizes ih =>
      rw [isInRestSegFrom]
      cases hSeg : a.restSegs size with
      | none =>
          rcases ih with ⟨hMiss, hNone⟩ | hHit
          · refine Or.inl ⟨hMiss, ?_⟩
            intro other hMem
            rcases List.mem_cons.mp hMem with hEq | hTail
            · rintro ⟨r, hOther, _⟩
              rw [hEq, hSeg] at hOther
              cases hOther
            · exact hNone other hTail
          · exact Or.inr hHit
      | some r =>
          have hIff :=
            RestSeg.inRestSeg_fst_iff r address app
          rw [hForm.vpn_eq hSeg] at hIff
          have hSteady :=
            RestSeg.steady_inRestSeg r address app
          cases hLookup : r.inRestSeg address app with
          | mk found r' =>
              rw [hLookup] at hIff hSteady
              simp only [hLookup]
              cases found with
              | true =>
                  right
                  exact ⟨size, a.setRestSeg size r', rfl,
                    ⟨r, hSeg, hIff.mp rfl⟩,
                    steady_setRestSeg hSeg hSteady,
                    ⟨rfl, rfl, rfl, rfl⟩⟩
              | false =>
                  have hNot :
                      ¬ a.Resident size (address / 2 ^ 12) app := by
                    rintro ⟨r₁, hSeg₁, hHeld⟩
                    rw [hSeg] at hSeg₁
                    cases hSeg₁
                    exact absurd (hIff.mpr hHeld) (by simp)
                  rcases ih with ⟨hMiss, hNone⟩ | hHit
                  · refine Or.inl ⟨hMiss, ?_⟩
                    intro other hMem
                    rcases List.mem_cons.mp hMem with
                      hEq | hTail
                    · exact hEq ▸ hNot
                    · exact hNone other hTail
                  · exact Or.inr hHit

/- A lookup that misses finds the page in no segment. -/
theorem isInRestSeg_spec
    (hForm : a.Form)
    (address app : Nat) :
    (a.isInRestSeg address app = (false, a) ∧
        ∀ size, ¬ a.Resident size (address / 2 ^ 12) app) ∨
      ∃ size a', a.isInRestSeg address app = (true, a') ∧
        a.Resident size (address / 2 ^ 12) app ∧
        a.Steady a' ∧ a.SameFlexSeg a' := by
  rcases isInRestSegFrom_spec hForm address app a.order with
    ⟨hMiss, hNone⟩ | hHit
  · refine Or.inl ⟨hMiss, ?_⟩
    intro size hResident
    rcases hResident with ⟨r, hSeg, hHeld⟩
    exact hNone size (hForm.order size r hSeg) ⟨r, hSeg, hHeld⟩
  · exact Or.inr hHit

------------------------------------------------------------
-- Allocations
------------------------------------------------------------

/- The outcome of a try in one segment. -/
inductive Tries
    (a : Allocator)
    (size : PageSize)
    (page core : Nat) :
    Bool × Allocator → Prop
  | refused {a' : Allocator} :
      a.Steady a' →
      a.SameFlexSeg a' →
      a.FullAt size page →
      ¬ a.Resident size page core →
      Tries a size page core (false, a')
  | found {a' : Allocator} :
      a.Steady a' →
      a.SameFlexSeg a' →
      a'.lastInRestSeg = true →
      a.Resident size page core →
      Tries a size page core (true, a')
  | added {a' : Allocator} :
      a.Adds a' size page core →
      a.SameFlexSeg a' →
      a'.lastInRestSeg = true →
      ¬ a.FullAt size page →
      Tries a size page core (true, a')

theorem tries_tryRestSeg
    (hForm : a.Form)
    (size : PageSize)
    (address core : Nat) :
    a.Tries size (address / 2 ^ 12) core
      (a.tryRestSeg size address core) := by
  unfold tryRestSeg
  cases hSeg : a.restSegs size with
  | none =>
      refine .refused (Steady.refl a) (SameFlexSeg.refl a) ?_ ?_
      · intro r hOther
        rw [hSeg] at hOther
        cases hOther
      · rintro ⟨r, hOther, _⟩
        rw [hSeg] at hOther
        cases hOther
  | some r =>
      have hPlaces :=
        RestSeg.places_allocate r address core false
      rw [hForm.vpn_eq hSeg] at hPlaces
      have hHeld : a.Resident size (address / 2 ^ 12) core ↔
          r.Held (address / 2 ^ 12 / size.pages) core := by
        unfold Resident
        simp [hSeg]
      cases hResult : r.allocate address core false with
      | mk result r' =>
          rw [hResult] at hPlaces
          simp only [hResult]
          generalize hFlag : decide (result ≠ .failed) = flag
            at hPlaces
          cases hPlaces with
          | refused hSteady hNot hFull =>
              have hFailed : result = .failed := by
                simpa using hFlag
              subst hFailed
              refine .refused (steady_setRestSeg hSeg hSteady)
                ⟨rfl, rfl, rfl, rfl⟩ ?_ (mt hHeld.mp hNot)
              intro r₁ hSeg₁
              rw [hSeg] at hSeg₁
              cases hSeg₁
              exact hFull rfl
          | found hSteady hOwn =>
              have hTry : Tries a size (address / 2 ^ 12) core
                  (true, (a.setRestSeg size r').resetLast true) :=
                .found
                  ((steady_setRestSeg hSeg hSteady).trans
                    (steady_of_eq rfl rfl))
                  ⟨rfl, rfl, rfl, rfl⟩ rfl (hHeld.mpr hOwn)
              cases result with
              | failed => simp at hFlag
              | placed => exact hTry
              | evicted victim => exact hTry
          | added hKeeps hNot hFree hOwn hOthers =>
              have hTry : Tries a size (address / 2 ^ 12) core
                  (true,
                    (a.setRestSeg size r').resetLast true) := by
                refine .added
                  ((adds_setRestSeg hSeg hKeeps hOwn
                    hOthers).before (steady_of_eq rfl rfl))
                  ⟨rfl, rfl, rfl, rfl⟩ rfl ?_
                intro hFull
                exact hFree rfl (hFull r hSeg)
              cases result with
              | failed => simp at hFlag
              | placed => exact hTry
              | evicted victim => exact hTry

/- A region that is used keeps a promotion. -/
theorem promoted_useRegion
    (threshold : Nat)
    (region : Region)
    (offset : Nat) :
    (useRegion threshold region offset).2.promoted =
        (useRegion threshold region offset).1.2 ∧
      (region.promoted = true →
        (useRegion threshold region offset).1.2 = true) := by
  unfold useRegion
  simp only
  split_ifs with hPromoted hBit hEnough
  · exact ⟨hPromoted, fun _ => rfl⟩
  · exact ⟨by simpa using hPromoted,
      fun hOther => absurd hOther hPromoted⟩
  · exact ⟨rfl, fun _ => rfl⟩
  · exact ⟨by simpa using hPromoted,
      fun hOther => absurd hOther hPromoted⟩

/- The regions after a page of one of them was used. -/
structure Uses
    (a a' : Allocator)
    (region : Nat)
    (promoted : Bool) : Prop where
  costTopKConfig : a'.costTopKConfig = a.costTopKConfig
  own : ∃ r, a'.thpRegions.lookup region = some r ∧
    r.promoted = promoted
  others : ∀ region', region' ≠ region →
    a'.thpRegions.lookup region' = a.thpRegions.lookup region'
  stays : a.Promoted region → promoted = true
  opened : a.Tracked region ∨ ¬ a.buddy.Depleted
  buddy : a.buddy.Depleted → a'.buddy = a.buddy

theorem Uses.tracked
    {region : Nat}
    {promoted : Bool}
    (hUses : a.Uses a' region promoted)
    {region' : Nat}
    (hTracked : a.Tracked region') :
    a'.Tracked region' := by
  unfold Tracked at hTracked ⊢
  by_cases hEq : region' = region
  · rcases hUses.own with ⟨r, hOwn, _⟩
    simp [hEq, hOwn]
  · rwa [hUses.others region' hEq]

theorem Uses.promoted
    {region : Nat}
    {promoted : Bool}
    (hUses : a.Uses a' region promoted)
    {region' : Nat}
    (hPromoted : a.Promoted region') :
    a'.Promoted region' := by
  by_cases hEq : region' = region
  · subst hEq
    rcases hUses.own with ⟨r, hOwn, hFlag⟩
    exact ⟨r, hOwn, hFlag.trans (hUses.stays hPromoted)⟩
  · unfold Promoted
    rwa [hUses.others region' hEq]

theorem tryAllocateTHP_spec
    {address : Nat}
    {result : Option (Nat × Bool)}
    (hTry : a.tryAllocateTHP address = some (result, a')) :
    (result = none ∧ a' = a ∧
        ¬ a.Tracked (address / 2 ^ 21) ∧ a.buddy.Depleted) ∨
      ∃ ppn promoted, result = some (ppn, promoted) ∧
        a.Steady a' ∧
        a.Uses a' (address / 2 ^ 21) promoted := by
  unfold tryAllocateTHP at hTry
  cases hLookup : a.thpRegions.lookup (address / 2 ^ 21) with
  | some region =>
      right
      simp only [hLookup, Option.some.injEq, Prod.mk.injEq] at hTry
      rcases hTry with ⟨hResult, hAfter⟩
      have hUse := promoted_useRegion
        a.thpPromotionThreshold region
        (address / 2 ^ 12 % 512)
      refine ⟨_, _, hResult.symm, ?_⟩
      rw [← hAfter]
      refine ⟨steady_of_eq rfl rfl, rfl, ?_, ?_, ?_, ?_,
        fun _ => rfl⟩
      · refine ⟨_, ?_, hUse.1⟩
        simp only [useTracked]
        rw [TwoMbMap.lookup_cons_erase, if_pos rfl]
      · intro region' hNe
        simp only [useTracked]
        rw [TwoMbMap.lookup_cons_erase, if_neg hNe]
      · rintro ⟨other, hOther, hFlag⟩
        rw [hLookup] at hOther
        cases hOther
        exact hUse.2 hFlag
      · left
        unfold Tracked
        rw [hLookup]
        exact Option.some_ne_none region
  | none =>
      simp only [hLookup] at hTry
      have hNot : ¬ a.Tracked (address / 2 ^ 21) :=
        not_not.mpr hLookup
      cases hReserve : a.buddy.reserve2mbPage with
      | none => simp [hReserve] at hTry
      | some reserved =>
          rcases reserved with ⟨block, b⟩
          cases block with
          | none =>
              left
              have hSame := Buddy.reserve2mbPage_none hReserve
              subst hSame
              simp only [hReserve, Option.some.injEq,
                Prod.mk.injEq] at hTry
              exact ⟨hTry.1.symm, hTry.2.symm, hNot,
                Buddy.depleted_of_reserve2mbPage hReserve⟩
          | some block =>
              right
              have hOpen : ¬ a.buddy.Depleted := by
                intro hDepleted
                exact hDepleted.reserve2mbPage hReserve
              simp only [hReserve, Option.some.injEq,
                Prod.mk.injEq] at hTry
              rcases hTry with ⟨hResult, hAfter⟩
              have hUse := promoted_useRegion
                a.thpPromotionThreshold
                ⟨block.start, fun _ => false, false⟩
                (address / 2 ^ 12 % 512)
              refine ⟨_, _, hResult.symm, ?_⟩
              rw [← hAfter]
              refine ⟨steady_of_eq rfl rfl, rfl, ?_, ?_, ?_,
                Or.inr hOpen,
                fun hDepleted => absurd hDepleted hOpen⟩
              · refine ⟨_, ?_, hUse.1⟩
                simp only [useTracked]
                rw [TwoMbMap.lookup_cons_erase, if_pos rfl]
              · intro region' hNe
                simp only [useTracked]
                rw [TwoMbMap.lookup_cons_erase, if_neg hNe]
              · rintro ⟨other, hOther, _⟩
                rw [hLookup] at hOther
                cases hOther

/-
  All that an allocation of a page for a core can do: it
  finds or adds the page in a segment, uses a reserved region
  or takes a page from the buddy allocator. Each outcome says
  why the ones before it were refused.
-/
inductive Serves
    (a : Allocator)
    (page core : Nat) :
    (Option Nat × PageSize) × Allocator → Prop
  | found {size : PageSize} {a' : Allocator} :
      a'.lastInRestSeg = true →
      a.Steady a' →
      a.SameFlexSeg a' →
      a.Resident size page core →
      Serves a page core
        ((a'.restSegPpn size (page * 2 ^ 12) core, size), a')
  | added {size : PageSize} {a' : Allocator} :
      a'.lastInRestSeg = true →
      a.Adds a' size page core →
      a.SameFlexSeg a' →
      ¬ a.FullAt size page →
      (size = .fourKb →
        ¬ a.Tracked (page / 512) ∧ a.buddy.Depleted ∧
          a.FullAt .twoMb page ∧
          ¬ a.Resident .twoMb page core) →
      Serves a page core
        ((a'.restSegPpn size (page * 2 ^ 12) core, size), a')
  | region {ppn : Nat} {promoted : Bool} {a' : Allocator} :
      a'.lastInRestSeg = false →
      a.Steady a' →
      a.FullAt .twoMb page →
      a.Uses a' (page / 512) promoted →
      Serves a page core
        ((some ppn, if promoted then .twoMb else .fourKb), a')
  | block {ppn : Option Nat} {a' : Allocator} :
      a'.lastInRestSeg = false →
      a.Steady a' →
      a.FullAt .twoMb page →
      a.FullAt .fourKb page →
      ¬ a.Tracked (page / 512) →
      a.buddy.Depleted →
      a'.buddy.Depleted →
      a'.thpRegions = a.thpRegions →
      a'.costTopKConfig = a.costTopKConfig →
      Serves a page core ((ppn, .fourKb), a')

variable {core : Nat}

/- Levels 3 and 4, after levels 1 and 2 were refused. -/
theorem serves_allocateSmall
    (hForm : a.Form)
    {page : Nat}
    (hLarge : a.FullAt .twoMb page)
    (hElsewhere : ¬ a.Resident .twoMb page core)
    (hUntracked : ¬ a.Tracked (page / 512))
    (hDepleted : a.buddy.Depleted)
    {result : (Option Nat × PageSize) × Allocator}
    (hAllocate : a.allocateSmall 4096 (page * 2 ^ 12) core =
      some result) :
    a.Serves page core result := by
  have hTries := tries_tryRestSeg hForm .fourKb (page * 2 ^ 12) core
  rw [Nat.mul_div_cancel page (by decide)] at hTries
  unfold allocateSmall at hAllocate
  generalize a.tryRestSeg .fourKb (page * 2 ^ 12) core = tried
    at hTries hAllocate
  cases hTries with
  | found hSteady hSame hLast hOwn =>
      simp only [Option.some.injEq] at hAllocate
      exact hAllocate ▸ .found hLast hSteady hSame hOwn
  | added hAdds hSame hLast hFree =>
      simp only [Option.some.injEq] at hAllocate
      exact hAllocate ▸ .added hLast hAdds hSame hFree
        (fun _ => ⟨hUntracked, hDepleted, hLarge, hElsewhere⟩)
  | refused hSteady hSame hFull _ =>
      rename_i a'
      simp only [fromBuddy] at hAllocate
      rcases Option.map_eq_some_iff.mp hAllocate with
        ⟨⟨ppn, b⟩, hBuddy, hResult⟩
      subst hResult
      have hAfter : b.Depleted := by
        apply Buddy.Depleted.allocate (b := a.buddy) hDepleted
        rw [← hSame.buddy]
        exact hBuddy
      exact .block rfl
        (hSteady.trans (steady_of_eq rfl rfl)) hLarge hFull
        hUntracked hDepleted hAfter hSame.thpRegions
        hSame.costTopKConfig

/- A steady step first changes nothing in an outcome. -/
theorem Serves.after
    (hSteady : a.Steady a')
    (hSame : a.SameFlexSeg a')
    {result : (Option Nat × PageSize) × Allocator}
    (hServes : a'.Serves page core result) :
    a.Serves page core result := by
  have hTracked : ∀ region,
      a'.Tracked region ↔ a.Tracked region := by
    intro region
    unfold Tracked
    rw [hSame.thpRegions]
  cases hServes with
  | found hLast hSteady' hSame' hOwn =>
      exact .found hLast (hSteady.trans hSteady')
        (hSame.trans hSame') ((hSteady.resident _ _ _).mp hOwn)
  | added hLast hAdds hSame' hFree hSmall =>
      refine .added hLast (hAdds.after hSteady)
        (hSame.trans hSame') (mt hSteady.toKeeps.fullAt hFree)
        ?_
      intro hSize
      rcases hSmall hSize with
        ⟨hUntracked, hDepleted, hLarge, hNot⟩
      exact ⟨mt (hTracked _).mpr hUntracked,
        hSame.buddy ▸ hDepleted, hSteady.full_old _ _ hLarge,
        mt (hSteady.resident _ _ _).mpr hNot⟩
  | region hLast hSteady' hLarge hUses =>
      refine .region hLast (hSteady.trans hSteady')
        (hSteady.full_old _ _ hLarge) ?_
      refine ⟨hUses.costTopKConfig.trans hSame.costTopKConfig,
        hUses.own, ?_, ?_, ?_, ?_⟩
      · intro region' hNe
        rw [hUses.others region' hNe, hSame.thpRegions]
      · intro hPromoted
        apply hUses.stays
        unfold Promoted
        rwa [hSame.thpRegions]
      · have hOpened := hUses.opened
        rwa [hTracked, hSame.buddy] at hOpened
      · intro hDepleted
        rw [hUses.buddy (hSame.buddy ▸ hDepleted), hSame.buddy]
  | block hLast hSteady' hLarge hSmall hUntracked hDepleted
      hAfter hRegions hConfig =>
      exact .block hLast (hSteady.trans hSteady')
        (hSteady.full_old _ _ hLarge)
        (hSteady.full_old _ _ hSmall)
        (mt (hTracked _).mpr hUntracked)
        (hSame.buddy ▸ hDepleted) hAfter
        (hRegions.trans hSame.thpRegions)
        (hConfig.trans hSame.costTopKConfig)

theorem serves_allocate
    (hForm : a.Form)
    {page : Nat}
    {result : (Option Nat × PageSize) × Allocator}
    (hAllocate : a.allocate 4096 (page * 2 ^ 12) core false =
      some result) :
    a.Serves page core result := by
  have hRegion : page * 2 ^ 12 / 2 ^ 21 = page / 512 := by
    omega
  have hTries := tries_tryRestSeg hForm .twoMb (page * 2 ^ 12) core
  rw [Nat.mul_div_cancel page (by decide)] at hTries
  unfold allocate at hAllocate
  simp only [Bool.false_eq_true, if_false] at hAllocate
  generalize a.tryRestSeg .twoMb (page * 2 ^ 12) core = tried
    at hTries hAllocate
  cases hTries with
  | found hSteady hSame hLast hOwn =>
      simp only [Option.some.injEq] at hAllocate
      exact hAllocate ▸ .found hLast hSteady hSame hOwn
  | added hAdds hSame hLast hFree =>
      simp only [Option.some.injEq] at hAllocate
      exact hAllocate ▸ .added hLast hAdds hSame hFree
        (fun hSize => by cases hSize)
  | refused hSteady hSame hFull hNot =>
      rename_i a₁
      simp only at hAllocate
      have hFull₁ := hSteady.toKeeps.fullAt hFull
      apply Serves.after hSteady hSame
      cases hTry : a₁.tryAllocateTHP (page * 2 ^ 12) with
      | none =>
          rw [hTry] at hAllocate
          cases hAllocate
      | some tried =>
          rcases tried with ⟨placed, a₂⟩
          rw [hTry] at hAllocate
          rcases tryAllocateTHP_spec hTry with
            ⟨hNone, hEq, hUntracked, hDepleted⟩ |
            ⟨ppn, promoted, hSome, hSteady₂, hUses⟩
          · subst hNone
            subst hEq
            rw [hRegion] at hUntracked
            exact serves_allocateSmall
              (hSteady.toKeeps.form hForm) hFull₁
              (mt (hSteady.resident _ _ _).mp hNot)
              hUntracked hDepleted hAllocate
          · subst hSome
            simp only [Option.some.injEq] at hAllocate
            rw [hRegion] at hUses
            rw [← hAllocate]
            exact .region rfl
              (hSteady₂.trans (steady_of_eq rfl rfl)) hFull₁
              ⟨hUses.costTopKConfig, hUses.own, hUses.others,
                hUses.stays, hUses.opened, hUses.buddy⟩

------------------------------------------------------------
-- Migrations
------------------------------------------------------------

/- All that a migration of a page can do. -/
inductive Moves
    (a : Allocator)
    (page target app : Nat) :
    Option Nat × Allocator → Prop
  | refused {a' : Allocator} :
      a.Steady a' →
      a.SameFlexSeg a' →
      Moves a page target app (none, a')
  | moved {size : PageSize} {ppn : Nat} {a' : Allocator} :
      target = size.bits →
      (∀ size', ¬ a.Resident size' page app) →
      ¬ a.Tracked (page / 512) →
      a.Adds a' size page app →
      (a.buddy.Depleted → a'.buddy.Depleted) →
      a'.thpRegions = a.thpRegions →
      a'.costTopKConfig = a.costTopKConfig →
      Moves a page target app (some ppn, a')

theorem bits_injective
    (hBits : size.bits = size'.bits) :
    size = size' := by
  cases size <;> cases size' <;> simp_all [PageSize.bits]

theorem isTracked_iff
    (a : Allocator)
    (address : Nat) :
    a.isTracked address = true ↔
      a.Tracked (address / 2 ^ 12 / 512) := by
  have hRegion :
      address / 2 ^ 12 / 512 = address / 2 ^ 21 := by omega
  unfold isTracked Tracked
  rw [hRegion, Option.isSome_iff_ne_none]

/- The eviction that is noted is all that changes. -/
theorem noteEviction_fields
    (a : Allocator)
    (size : PageSize)
    (result : Allocation) :
    (a.noteEviction size result).order = a.order ∧
      (a.noteEviction size result).restSegs = a.restSegs ∧
      a.SameFlexSeg (a.noteEviction size result) := by
  cases result <;> exact ⟨rfl, rfl, rfl, rfl, rfl, rfl⟩

/- The outcome of the forced allocation of a migration. -/
theorem migrateTo_spec
    (hForm : a.Form)
    (hSeg : a.restSegs size = some r)
    {address : Nat}
    (hNot : ¬ a.Resident size (address / 2 ^ 12) app)
    (oldPpn : Nat) :
    ∃ ppn a', a.migrateTo size r address oldPpn app =
        (some ppn, a') ∧
      a.Adds a' size (address / 2 ^ 12) app ∧
      (a.buddy.Depleted → a'.buddy.Depleted) ∧
      a'.thpRegions = a.thpRegions ∧
      a'.costTopKConfig = a.costTopKConfig := by
  have hPlaces := RestSeg.places_allocate r address app true
  have hForced := RestSeg.allocate_force_ne_failed r address
    app (hForm.ways size r hSeg _)
  rw [hForm.vpn_eq hSeg] at hPlaces
  unfold migrateTo
  cases hResult : r.allocate address app true with
  | mk result r' =>
      rw [hResult] at hPlaces hForced
      generalize hFlag : decide (result ≠ .failed) = flag at hPlaces
      have hAdds : a.Adds (a.setRestSeg size r') size
          (address / 2 ^ 12) app := by
        cases hPlaces with
        | refused => simp [hForced] at hFlag
        | found _ hHeld => exact absurd ⟨r, hSeg, hHeld⟩ hNot
        | added hKeeps _ _ hOwn hOthers =>
            exact adds_setRestSeg hSeg hKeeps hOwn hOthers
      rcases noteEviction_fields (a.setRestSeg size r') size
          result with ⟨hOrder, hSegs, hSame⟩
      have hSmall : Buddy.orderOf (oldPpn - oldPpn + 1) < 9 :=
        by simp [Buddy.orderOf]
      cases result with
      | failed => exact absurd rfl hForced
      | placed =>
          refine ⟨_, _, rfl,
            hAdds.before (steady_of_eq rfl rfl), ?_, rfl, rfl⟩
          exact fun hDepleted => hDepleted.free hSmall
      | evicted victim =>
          refine ⟨_, _, rfl,
            hAdds.before (steady_of_eq rfl rfl), ?_, rfl, rfl⟩
          exact fun hDepleted => hDepleted.free hSmall

theorem moves_migratePage
    (hForm : a.Form)
    (address oldPpn target app : Nat) :
    a.Moves (address / 2 ^ 12) target app
      (a.migratePage address oldPpn target app) := by
  unfold migratePage
  rcases isInRestSeg_spec hForm address app with
    ⟨hMiss, hNone⟩ | ⟨_, a', hHit, _, hSteady, hSame⟩
  · rw [hMiss]
    simp only
    have hReset : a.Steady a.resetEviction :=
      steady_of_eq rfl rfl
    split_ifs with hTracked
    · exact .refused (Steady.refl a) (SameFlexSeg.refl a)
    · rw [isTracked_iff] at hTracked
      split
      · exact .refused hReset ⟨rfl, rfl, rfl, rfl⟩
      · rename_i size hFind
        split
        · exact .refused hReset ⟨rfl, rfl, rfl, rfl⟩
        · rename_i r hSeg
          have hTest := List.find?_some hFind
          have hBits : size.bits = target := by
            simpa using hTest
          rcases migrateTo_spec (hReset.toKeeps.form hForm)
              hSeg (hNone size) oldPpn with
            ⟨ppn, a', hEq, hAdds, hDepleted, hRegions, hConfig⟩
          rw [hEq]
          exact .moved hBits.symm hNone hTracked
            (hAdds.after hReset) hDepleted hRegions hConfig
  · rw [hHit]
    exact .refused hSteady hSame

/- A page that passes the checks is moved. -/
theorem migratePage_ne_none
    (hForm : a.Form)
    {address : Nat}
    (hNone : ∀ size', ¬ a.Resident size' (address / 2 ^ 12) app)
    (hUntracked : ¬ a.Tracked (address / 2 ^ 12 / 512))
    (hSome : (a.restSegs size).isSome = true)
    (oldPpn : Nat) :
    (a.migratePage address oldPpn size.bits app).1 ≠ none := by
  rcases Option.isSome_iff_exists.mp hSome with ⟨r, hSeg⟩
  have hFind : a.order.find?
      (fun size' => size'.bits == size.bits) = some size := by
    cases hFound : a.order.find?
        (fun size' => size'.bits == size.bits) with
    | none =>
        have hMissing := List.find?_eq_none.mp hFound size
          (hForm.order size r hSeg)
        simp at hMissing
    | some found =>
        have hTest := List.find?_some hFound
        have hBits : found.bits = size.bits := by
          simpa using hTest
        rw [bits_injective hBits]
  have hNot : a.isTracked address = false := by
    rw [← Bool.not_eq_true, isTracked_iff]
    exact hUntracked
  rcases isInRestSeg_spec hForm address app with
    ⟨hMiss, _⟩ | ⟨other, _, _, hHeld, _⟩
  · have hReset : a.Steady a.resetEviction :=
      steady_of_eq rfl rfl
    rcases migrateTo_spec (hReset.toKeeps.form hForm)
        hSeg (hNone size) oldPpn with
      ⟨ppn, a', hEq, _⟩
    unfold migratePage
    simp [hMiss, hNot, hFind, hSeg, hEq]
  · exact absurd hHeld (hNone other)

/-
  What the constructor returns: empty segments with sets and
  ways, all in the vector, and no reserved region.
-/
structure Built (a : Allocator) : Prop where
  segs : ∀ size r, a.restSegs size = some r →
    ∃ g, r = RestSeg.fresh g ∧ g.pageSizeBits = size.bits ∧
      0 < g.associativity ∧ 0 < g.numSets
  order : ∀ size r, a.restSegs size = some r → size ∈ a.order
  thpRegions : a.thpRegions = []

/- Without ways a segment has no sets. -/
theorem associativity_pos
    {sizeMb pageSizeBits associativity : Nat}
    (hSets :
      0 < RestSeg.numSetsOf sizeMb pageSizeBits associativity) :
    0 < associativity := by
  rcases Nat.eq_zero_or_pos associativity with hZero | hPos
  · subst hZero
    simp [RestSeg.numSetsOf] at hSets
  · exact hPos

variable {fingerprintBits : Nat}

/- A segment that the constructor accepts. -/
theorem built_restSeg
    {c : RestSegConfig}
    (hMake : RestSeg.construct c.sizeMb c.pageSize.bits c.assoc
      c.base fingerprintBits = some r) :
    ∃ g, r = RestSeg.fresh g ∧
      g.pageSizeBits = c.pageSize.bits ∧
      0 < g.associativity ∧ 0 < g.numSets := by
  rcases RestSeg.construct_eq_some hMake with
    ⟨hFresh, hSets, _⟩
  rw [hFresh] at hSets
  simp only [RestSeg.fresh] at hSets
  refine ⟨_, hFresh, ?_⟩
  simp only
  exact ⟨trivial, associativity_pos hSets, hSets⟩

theorem built_addRestSeg
    {c : RestSegConfig}
    (hBuilt : a.Built)
    (hAdd : addRestSeg fingerprintBits c a = some a') :
    a'.Built := by
  rcases Option.map_eq_some_iff.mp hAdd with ⟨r, hMake, hEq⟩
  subst hEq
  refine ⟨?_, ?_, hBuilt.thpRegions⟩
  · intro size r' hSeg
    by_cases hSize : size = c.pageSize
    · subst hSize
      have hEq : r = r' := by
        simpa [setRestSeg] using hSeg
      exact hEq ▸ built_restSeg hMake
    · apply hBuilt.segs size r'
      simpa [setRestSeg, hSize] using hSeg
  · intro size r' hSeg
    by_cases hSize : size = c.pageSize
    · simp [hSize]
    · apply List.mem_append_left
      apply hBuilt.order size r'
      simpa [setRestSeg, hSize] using hSeg

theorem built_addRestSegs
    {configs : List RestSegConfig}
    (hBuilt : a.Built)
    (hAdd : addRestSegs fingerprintBits configs a = some a') :
    a'.Built := by
  induction configs generalizing a with
  | nil =>
      rw [addRestSegs, Option.some.injEq] at hAdd
      exact hAdd ▸ hBuilt
  | cons c configs ih =>
      rw [addRestSegs] at hAdd
      rcases Option.bind_eq_some_iff.mp hAdd with
        ⟨next, hFirst, hRest⟩
      exact ih (built_addRestSeg hBuilt hFirst) hRest

theorem built_construct
    {buddy : Buddy}
    {configs : List RestSegConfig}
    {percent : Int}
    {config : CostTopKConfig}
    (hConstruct : construct buddy configs fingerprintBits
      percent config = some a) :
    a.Built := by
  refine built_addRestSegs ⟨?_, ?_, rfl⟩ hConstruct
  · intro size r hSeg
    cases hSeg
  · intro size r hSeg
    cases hSeg

/- No page is in a segment at first. -/
theorem Built.not_resident
    (hBuilt : a.Built)
    (size : PageSize)
    (page app : Nat) :
    ¬ a.Resident size page app := by
  rintro ⟨r, hSeg, way, hHolds⟩
  rcases hBuilt.segs size r hSeg with ⟨g, hFresh, _⟩
  rw [hFresh] at hHolds
  have hValid := hHolds.valid
  cases hValid

theorem Built.form
    (hBuilt : a.Built) :
    a.Form := by
  refine ⟨?_, ?_, hBuilt.order⟩
  · intro size r hSeg
    rcases hBuilt.segs size r hSeg with ⟨g, hFresh, hBits, _⟩
    rw [hFresh]
    exact hBits
  · intro size r hSeg i
    rcases hBuilt.segs size r hSeg with
      ⟨g, hFresh, _, hWays, _⟩
    rw [hFresh]
    exact hWays

end Allocator

end Utopia

end Virtuoso
