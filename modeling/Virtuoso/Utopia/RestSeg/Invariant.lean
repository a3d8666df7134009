import Virtuoso.Utopia.RestSeg.Indexing

/-
  What the operations of a restricted segment do, and the
  invariant that ties its radix way tables to its tags.

  An allocation is described once, by the set that it works
  on and by the mappings that it sets and clears. All else
  it changes steers where later pages go.

  Main declarations:
    * `Utopia.RestSeg.allocates_allocate`
    * `Utopia.RestSeg.inv_step`
-/

------------------------------------------------------------
-- Allocations
------------------------------------------------------------

namespace Virtuoso

namespace Utopia

namespace RestSeg

open RestSegSet

variable {r r' : RestSeg} {address app : Nat}

/-
  The outcome of a try: it failed and left the set, or it
  did what an insertion can do.
-/
structure Tries
    (set : RestSegSet)
    (tag owner : Nat)
    (forceEvict : Bool)
    (result : Insertion × RestSegSet) : Prop where
  same : result.1 = .fail → result.2 = set
  inserts : result.1 ≠ .fail →
    set.Inserts tag owner forceEvict result

theorem tries_of_inserts
    {set : RestSegSet}
    {tag owner : Nat}
    {forceEvict : Bool}
    {result : Insertion × RestSegSet}
    (hInserts : set.Inserts tag owner forceEvict result) :
    Tries set tag owner forceEvict result := by
  refine ⟨?_, fun _ => hInserts⟩
  intro hFail
  cases hInserts with
  | hit _ _ => simp at hFail
  | free _ _ _ => simp at hFail
  | evict _ _ _ _ _ => simp at hFail
  | fail _ => rfl

theorem tries_tryRegionPref
    (set : RestSegSet)
    (tag owner : Nat)
    (fingerprint : BitVec 8)
    (pref : Option Nat)
    (forceEvict : Bool) :
    Tries set tag owner forceEvict
      (tryRegionPref set tag owner fingerprint pref) := by
  cases pref with
  | none => exact ⟨fun _ => rfl, fun hNe => absurd rfl hNe⟩
  | some way =>
      exact tries_of_inserts
        (inserts_tryInsertAtWay set tag owner fingerprint way
          forceEvict)

theorem tries_tryPreferred
    (r : RestSeg)
    (set : RestSegSet)
    (tag owner : Nat)
    (fingerprint : BitVec 8)
    (pref : Option Nat)
    (forceEvict : Bool) :
    Tries set tag owner forceEvict
      (r.tryPreferred set tag owner fingerprint pref) := by
  have hFirst := tries_tryRegionPref set tag owner
    fingerprint pref forceEvict
  unfold tryPreferred
  simp only
  split_ifs with hTry
  · rw [hFirst.same hTry.1]
    exact tries_of_inserts
      (inserts_tryInsertAtWay set tag owner fingerprint _
        forceEvict)
  · exact hFirst

/- The steps of an allocation are together one insertion. -/
theorem performs_place
    (r : RestSeg)
    (set : RestSegSet)
    (tag owner : Nat)
    (fingerprint : BitVec 8)
    (pref : Option Nat)
    (forceEvict : Bool) :
    set.Performs tag owner fingerprint forceEvict
      (r.place set tag owner fingerprint pref forceEvict) := by
  have hTries := tries_tryPreferred r set tag owner
    fingerprint pref forceEvict
  have hRegion := tries_tryRegionPref set tag owner
    fingerprint pref forceEvict
  unfold place
  simp only
  split_ifs with hFail
  · rw [hTries.same hFail]
    exact performs_insert set tag owner fingerprint _ _
  · unfold tryPreferred at hFail ⊢
    simp only at hFail ⊢
    split_ifs at hFail ⊢ with hGlobal
    · rw [hRegion.same hGlobal.1]
      exact performs_tryInsertAtWay set tag owner fingerprint
        r.globalWay forceEvict
    · cases pref with
      | none => exact absurd rfl hFail
      | some way =>
          exact performs_tryInsertAtWay set tag owner
            fingerprint way forceEvict

/- The insertion that a failed allocation ends with. -/
theorem insertAnywhere_of_place_fail
    {set : RestSegSet}
    {tag owner : Nat}
    {fingerprint : BitVec 8}
    {pref : Option Nat}
    {forceEvict : Bool}
    (hFail :
      (r.place set tag owner fingerprint pref
        forceEvict).1 = .fail) :
    (set.insertAnywhere tag owner fingerprint
      forceEvict).1 = .fail := by
  have hTries := tries_tryPreferred r set tag owner
    fingerprint pref forceEvict
  unfold place at hFail
  simp only at hFail
  split_ifs at hFail with hFirst
  · rw [hTries.same hFirst] at hFail
    exact insertAnywhere_of_insert_fail hFail
  · exact absurd hFail hFirst

/- All that an allocation of a page can do. -/
inductive Allocates
    (r : RestSeg)
    (page app : Nat)
    (forceEvict : Bool) :
    Allocation × RestSeg → Prop
  | hit {way : Nat} {set : RestSegSet} {r' : RestSeg} :
      (r.sets (r.geometry.setOf page)).Holds way
        (r.geometry.tagOf page) (app + 1) →
      (r.sets (r.geometry.setOf page)).Same set →
      r'.geometry = r.geometry →
      r'.sets = Function.update r.sets (r.geometry.setOf page) set →
      r'.radixWayTables = r.radixWayTables →
      Allocates r page app forceEvict (.placed, r')
  | free {way : Nat} {set : RestSegSet} {r' : RestSeg} :
      (r.sets (r.geometry.setOf page)).Lacks
        (r.geometry.tagOf page) (app + 1) →
      ((r.sets (r.geometry.setOf page)).entries way).valid = false →
      (r.sets (r.geometry.setOf page)).Filled set way
        (r.geometry.tagOf page) (app + 1) →
      r'.geometry = r.geometry →
      r'.sets = Function.update r.sets (r.geometry.setOf page) set →
      r'.radixWayTables = r.radixWayTables.setMapping page app way →
      Allocates r page app forceEvict (.placed, r')
  | evict {way tag owner : Nat} {set : RestSegSet}
      {r' : RestSeg} :
      forceEvict = true →
      (r.sets (r.geometry.setOf page)).Lacks
        (r.geometry.tagOf page) (app + 1) →
      (r.sets (r.geometry.setOf page)).Full →
      (r.sets (r.geometry.setOf page)).Holds way tag owner →
      (r.sets (r.geometry.setOf page)).Filled set way
        (r.geometry.tagOf page) (app + 1) →
      r'.geometry = r.geometry →
      r'.sets = Function.update r.sets (r.geometry.setOf page) set →
      r'.radixWayTables =
        (r.radixWayTables.clearMapping
          (r.geometry.vpn
            (r.geometry.reconstructAddress tag
              (r.geometry.setOf page))) (owner - 1)).setMapping
          page app way →
      Allocates r page app forceEvict
        (.evicted (r.geometry.reconstructAddress tag
          (r.geometry.setOf page)), r')
  | fail {r' : RestSeg} :
      (r.sets (r.geometry.setOf page)).Lacks
        (r.geometry.tagOf page) (app + 1) →
      (forceEvict = false → (r.sets (r.geometry.setOf page)).Full) →
      r'.geometry = r.geometry →
      r'.sets = r.sets →
      r'.radixWayTables = r.radixWayTables →
      Allocates r page app forceEvict (.failed, r')

@[simp] theorem geometry_maybeRotateGlobalWay
    (r : RestSeg) :
    r.maybeRotateGlobalWay.geometry = r.geometry := by
  unfold maybeRotateGlobalWay
  simp only
  split_ifs <;> rfl

@[simp] theorem sets_maybeRotateGlobalWay
    (r : RestSeg) :
    r.maybeRotateGlobalWay.sets = r.sets := by
  unfold maybeRotateGlobalWay
  simp only
  split_ifs <;> rfl

@[simp] theorem radixWayTables_maybeRotateGlobalWay
    (r : RestSeg) :
    r.maybeRotateGlobalWay.radixWayTables = r.radixWayTables := by
  unfold maybeRotateGlobalWay
  simp only
  split_ifs <;> rfl

theorem allocates_allocate
    (r : RestSeg)
    (address app : Nat)
    (forceEvict : Bool) :
    r.Allocates (r.geometry.vpn address) app forceEvict
      (r.allocate address app forceEvict) := by
  unfold allocate Geometry.splitAddress
  simp only
  generalize r.geometry.vpn address = page
  generalize hPref : r.regionPrefWay
    (page / 2 ^ rleRegionBits) = pref
  generalize hFp : computeFingerprint (r.geometry.tagOf page)
    r.geometry.fingerprintBits = fp
  have hInserts := (performs_place r
    (r.sets (r.geometry.setOf page)) (r.geometry.tagOf page)
    (app + 1) fp pref forceEvict).inserts
  cases hResult : r.place (r.sets (r.geometry.setOf page))
      (r.geometry.tagOf page) (app + 1) fp pref forceEvict with
  | mk insertion set =>
      rw [hResult] at hInserts
      cases hInserts with
      | hit hHolds hSame =>
          exact .hit hHolds hSame rfl rfl rfl
      | free hLacks hInvalid hFilled =>
          exact .free hLacks hInvalid hFilled
            (by simp [noteAllocation])
            (by simp [noteAllocation])
            (by simp [noteAllocation])
      | evict hForce hLacks hFull hHolds hFilled =>
          exact .evict hForce hLacks hFull hHolds hFilled
            (by simp [noteAllocation])
            (by simp [noteAllocation])
            (by simp [noteAllocation])
      | fail hLacks =>
          refine .fail hLacks ?_ rfl
            (Function.update_eq_self _ _) rfl
          intro hForce
          subst hForce
          exact full_of_insertAnywhere_fail
            (insertAnywhere_of_place_fail
              (congrArg Prod.fst hResult))

------------------------------------------------------------
-- The Invariant And Its Steps
------------------------------------------------------------

/- A page of an application is in a way of its set. -/
def Resident (r : RestSeg) (page way app : Nat) : Prop :=
  (r.sets (r.geometry.setOf page)).Holds way
    (r.geometry.tagOf page) (app + 1)

/- A page of 48 bits of address. -/
def InRange (r : RestSeg) (page : Nat) : Prop :=
  page < 2 ^ (48 - r.geometry.pageSizeBits)

/-
  The geometry determines pages by their tags and sets, and
  has room for each way in an entry of the radix way table.
-/
structure Fit (g : Geometry) : Prop where
  sets : 0 < g.numSets
  folds : ∀ page < 2 ^ (48 - g.pageSizeBits),
    g.fold page < g.numSets
  ways : g.associativity ≤ 2 ^ wayBitsOf g.associativity

/-
  Every entry belongs to a page of its set, each page is in
  one way at most, and the radix way tables name that way.
-/
structure Inv (r : RestSeg) : Prop where
  fit : Fit r.geometry
  associativity : ∀ i,
    (r.sets i).associativity = r.geometry.associativity
  unique : ∀ i, (r.sets i).Sound
  origin : ∀ i way tag owner,
    (r.sets i).Holds way tag owner →
      ∃ page app, r.InRange page ∧
        r.geometry.setOf page = i ∧
        r.geometry.tagOf page = tag ∧ app + 1 = owner
  radix : r.radixWayTables.Sound
  pageSize : r.radixWayTables.pageSizeBits = r.geometry.pageSizeBits
  radixWays :
    r.radixWayTables.associativity = r.geometry.associativity
  agree : ∀ page app way, r.InRange page →
    (r.radixWayTables.way app page = some way ↔
      r.Resident page way app)

/-
  What the invariant says of the entries and of the tables
  each for themselves.
-/
structure Rooted (r : RestSeg) : Prop where
  fit : Fit r.geometry
  associativity : ∀ i,
    (r.sets i).associativity = r.geometry.associativity
  unique : ∀ i, (r.sets i).Sound
  origin : ∀ i way tag owner,
    (r.sets i).Holds way tag owner →
      ∃ page app, r.InRange page ∧
        r.geometry.setOf page = i ∧
        r.geometry.tagOf page = tag ∧ app + 1 = owner
  radix : r.radixWayTables.Sound
  pageSize : r.radixWayTables.pageSizeBits = r.geometry.pageSizeBits
  radixWays :
    r.radixWayTables.associativity = r.geometry.associativity

theorem Inv.rooted
    (hInv : r.Inv) :
    r.Rooted :=
  ⟨hInv.fit, hInv.associativity, hInv.unique, hInv.origin,
    hInv.radix, hInv.pageSize, hInv.radixWays⟩

theorem inRange_lt
    {page : Nat}
    (hPage : r.InRange page) :
    page < 2 ^ 48 :=
  lt_of_lt_of_le hPage (Geometry.pow_le_pow_48 r.geometry)

/- Pages in range with one set and one tag are equal. -/
theorem Fit.eq_of_tagOf_setOf
    (hFit : Fit r.geometry)
    {page page' : Nat}
    (hPage : r.InRange page)
    (hPage' : r.InRange page')
    (hTag : r.geometry.tagOf page' = r.geometry.tagOf page)
    (hSet : r.geometry.setOf page' = r.geometry.setOf page) :
    page' = page :=
  Geometry.eq_of_tagOf_setOf hFit.sets (inRange_lt hPage)
    (inRange_lt hPage') (hFit.folds page hPage)
    (hFit.folds page' hPage') hTag hSet

/- The address of an evicted entry is computed back. -/
theorem Fit.reconstructAddress_eq
    (hFit : Fit r.geometry)
    {page : Nat}
    (hPage : r.InRange page) :
    r.geometry.reconstructAddress (r.geometry.tagOf page)
      (r.geometry.setOf page) =
        page * 2 ^ r.geometry.pageSizeBits := by
  have hBack :=
    (Geometry.reconstructPage_eq_iff hFit.sets
      (inRange_lt hPage)).mpr (hFit.folds page hPage)
  have hAddress := Geometry.mul_pow_lt hPage
  unfold Geometry.reconstructAddress
  rw [hBack, Nat.mod_eq_of_lt (hAddress.trans (by decide))]

theorem Fit.vpn_reconstructAddress
    (hFit : Fit r.geometry)
    {page : Nat}
    (hPage : r.InRange page) :
    r.geometry.vpn (r.geometry.reconstructAddress
      (r.geometry.tagOf page) (r.geometry.setOf page)) = page := by
  have hPos := Nat.two_pow_pos r.geometry.pageSizeBits
  rw [hFit.reconstructAddress_eq hPage]
  exact Nat.mul_div_cancel page hPos

/- A segment that holds the same stays rooted. -/
theorem Rooted.same
    (hRooted : r.Rooted)
    (hGeometry : r'.geometry = r.geometry)
    (hSame : ∀ i, (r.sets i).Same (r'.sets i))
    (hRadix : r'.radixWayTables.Sound)
    (hPageSize : r'.radixWayTables.pageSizeBits =
      r.radixWayTables.pageSizeBits)
    (hWays : r'.radixWayTables.associativity =
      r.radixWayTables.associativity) :
    r'.Rooted := by
  refine ⟨?_, ?_, ?_, ?_, hRadix, ?_, ?_⟩
  · rw [hGeometry]
    exact hRooted.fit
  · intro i
    rw [(hSame i).associativity, hGeometry]
    exact hRooted.associativity i
  · exact fun i => (hRooted.unique i).same (hSame i)
  · intro i way tag owner hHolds
    rw [hGeometry]
    have hOld := ((hSame i).holds way tag owner).mp hHolds
    have hPage := hRooted.origin i way tag owner hOld
    unfold InRange at hPage ⊢
    rwa [hGeometry]
  · rw [hPageSize, hGeometry]
    exact hRooted.pageSize
  · rw [hWays, hGeometry]
    exact hRooted.radixWays

/- A segment that holds the same keeps the invariant. -/
theorem Inv.same
    (hInv : r.Inv)
    (hGeometry : r'.geometry = r.geometry)
    (hSame : ∀ i, (r.sets i).Same (r'.sets i))
    (hRadix : r'.radixWayTables.Sound)
    (hPageSize : r'.radixWayTables.pageSizeBits =
      r.radixWayTables.pageSizeBits)
    (hWays : r'.radixWayTables.associativity =
      r.radixWayTables.associativity)
    (hWay : ∀ app page, r'.radixWayTables.way app page =
      r.radixWayTables.way app page) :
    r'.Inv := by
  rcases hInv.rooted.same hGeometry hSame hRadix hPageSize
      hWays with
    ⟨hFit, hShape, hUnique, hOrigin, _, hSize, hBits⟩
  refine ⟨hFit, hShape, hUnique, hOrigin, hRadix, hSize, hBits, ?_⟩
  intro page app way hPage
  unfold InRange at hPage
  unfold Resident
  rw [hGeometry] at hPage ⊢
  rw [hWay, (hSame _).holds]
  exact hInv.agree page app way hPage

/-
  `r'` is `r` with a new page in a way of its set. The radix
  way tables name the new page and no longer name the page
  that had been in the way.
-/
structure Refills
    (r r' : RestSeg)
    (page way app : Nat)
    (set : RestSegSet) : Prop where
  range : r.InRange page
  lacks : (r.sets (r.geometry.setOf page)).Lacks
    (r.geometry.tagOf page) (app + 1)
  filled : (r.sets (r.geometry.setOf page)).Filled set way
    (r.geometry.tagOf page) (app + 1)
  geometry : r'.geometry = r.geometry
  sets : r'.sets =
    Function.update r.sets (r.geometry.setOf page) set
  radix : r'.radixWayTables.Sound
  pageSize : r'.radixWayTables.pageSizeBits =
    r.radixWayTables.pageSizeBits
  ways : r'.radixWayTables.associativity =
    r.radixWayTables.associativity
  own : r'.radixWayTables.way app page = some way
  gone : ∀ page' app', r.InRange page' →
    r.geometry.setOf page' = r.geometry.setOf page →
    r.Resident page' way app' →
    ¬ (page' = page ∧ app' = app) →
    r'.radixWayTables.way app' page' = none
  kept : ∀ page' app', r.InRange page' →
    ¬ (r.geometry.setOf page' = r.geometry.setOf page ∧
      r.Resident page' way app') →
    ¬ (page' = page ∧ app' = app) →
    r'.radixWayTables.way app' page' =
      r.radixWayTables.way app' page'

variable {page way : Nat} {set : RestSegSet}

/- A segment stays rooted when a page fills a way. -/
theorem Rooted.fill
    (hRooted : r.Rooted)
    (hPage : r.InRange page)
    (hLacks : (r.sets (r.geometry.setOf page)).Lacks
      (r.geometry.tagOf page) (app + 1))
    (hFilled : (r.sets (r.geometry.setOf page)).Filled set way
      (r.geometry.tagOf page) (app + 1))
    (hGeometry : r'.geometry = r.geometry)
    (hSets : r'.sets =
      Function.update r.sets (r.geometry.setOf page) set)
    (hRadix : r'.radixWayTables.Sound)
    (hPageSize : r'.radixWayTables.pageSizeBits =
      r.radixWayTables.pageSizeBits)
    (hWays : r'.radixWayTables.associativity =
      r.radixWayTables.associativity) :
    r'.Rooted := by
  refine ⟨hGeometry ▸ hRooted.fit, ?_, ?_, ?_, hRadix, ?_, ?_⟩
  · intro i
    rw [hSets, hGeometry]
    by_cases hSet : i = r.geometry.setOf page
    · rw [hSet, Function.update_self, hFilled.associativity]
      exact hRooted.associativity _
    · rw [Function.update_of_ne hSet]
      exact hRooted.associativity i
  · intro i
    rw [hSets]
    by_cases hSet : i = r.geometry.setOf page
    · rw [hSet, Function.update_self]
      exact (hRooted.unique _).filled hLacks hFilled
    · rw [Function.update_of_ne hSet]
      exact hRooted.unique i
  · intro i way' tag owner hHolds
    unfold InRange
    rw [hGeometry]
    rw [hSets] at hHolds
    by_cases hSet : i = r.geometry.setOf page
    · rw [hSet, Function.update_self, hFilled.holds] at hHolds
      by_cases hWay : way' = way
      · rw [if_pos hWay] at hHolds
        exact ⟨page, app, hPage, hSet.symm, hHolds.1.symm,
          hHolds.2.symm⟩
      · rw [if_neg hWay] at hHolds
        rw [hSet]
        exact hRooted.origin _ way' tag owner hHolds
    · rw [Function.update_of_ne hSet] at hHolds
      exact hRooted.origin i way' tag owner hHolds
  · rw [hPageSize, hGeometry]
    exact hRooted.pageSize
  · rw [hWays, hGeometry]
    exact hRooted.radixWays

theorem Rooted.refills
    (hRooted : r.Rooted)
    (hRefills : r.Refills r' page way app set) :
    r'.Rooted :=
  hRooted.fill hRefills.range hRefills.lacks hRefills.filled
    hRefills.geometry hRefills.sets hRefills.radix
    hRefills.pageSize hRefills.ways

/- The tables name the way of the new page. -/
theorem Refills.agree_self
    (hRefills : r.Refills r' page way app set)
    (way' : Nat) :
    r'.radixWayTables.way app page = some way' ↔
      set.Holds way' (r.geometry.tagOf page) (app + 1) := by
  rw [hRefills.filled.holds, hRefills.own]
  by_cases hWay : way' = way
  · simp [hWay]
  · rw [if_neg hWay]
    apply iff_of_false
    · intro hEq
      exact hWay (Option.some.inj hEq).symm
    · exact hRefills.lacks way'

/-
  The tables name the ways of the other pages of the set. A
  page that had been in the way is in no way now, since it
  had been in that way only.
-/
theorem Refills.agree_other
    (hRefills : r.Refills r' page way app set)
    (hInv : r.Inv)
    {page' app' : Nat}
    (hPage : r.InRange page')
    (hSet : r.geometry.setOf page' = r.geometry.setOf page)
    (hOther : ¬ (page' = page ∧ app' = app))
    (way' : Nat) :
    r'.radixWayTables.way app' page' = some way' ↔
      set.Holds way' (r.geometry.tagOf page') (app' + 1) := by
  have hTags : ¬ (r.geometry.tagOf page' =
      r.geometry.tagOf page ∧ app' + 1 = app + 1) := by
    rintro ⟨hTag, hApp⟩
    exact hOther ⟨hInv.fit.eq_of_tagOf_setOf hRefills.range
      hPage hTag hSet, by omega⟩
  have hOld := hInv.agree page' app' way' hPage
  unfold Resident at hOld
  rw [hSet] at hOld
  rw [hRefills.filled.holds]
  by_cases hHeld : r.Resident page' way app'
  · rw [hRefills.gone page' app' hPage hSet hHeld hOther]
    unfold Resident at hHeld
    rw [hSet] at hHeld
    by_cases hWay : way' = way
    · rw [if_pos hWay]
      exact iff_of_false (by simp) hTags
    · rw [if_neg hWay]
      apply iff_of_false (by simp)
      intro hHolds
      exact hWay (hInv.unique _ way' way _ _ hHolds hHeld)
  · rw [hRefills.kept page' app' hPage
      (fun hBoth => hHeld hBoth.2) hOther]
    unfold Resident at hHeld
    rw [hSet] at hHeld
    by_cases hWay : way' = way
    · rw [if_pos hWay, hOld, hWay]
      exact iff_of_false hHeld hTags
    · rw [if_neg hWay]
      exact hOld

/- A new page in a way keeps the invariant. -/
theorem Inv.refills
    (hInv : r.Inv)
    (hRefills : r.Refills r' page way app set) :
    r'.Inv := by
  rcases hInv.rooted.refills hRefills with
    ⟨hFit, hShape, hUnique, hOrigin, hRadix, hSize, hBits⟩
  refine ⟨hFit, hShape, hUnique, hOrigin, hRadix, hSize, hBits, ?_⟩
  intro page' app' way' hPage
  unfold InRange at hPage
  unfold Resident
  rw [hRefills.geometry] at hPage ⊢
  rw [hRefills.sets]
  by_cases hSet : r.geometry.setOf page' = r.geometry.setOf page
  · rw [hSet, Function.update_self]
    by_cases hSame : page' = page ∧ app' = app
    · rw [hSame.1, hSame.2]
      exact hRefills.agree_self way'
    · exact hRefills.agree_other hInv hPage hSet hSame way'
  · have hOther : ¬ (page' = page ∧ app' = app) :=
      fun hSame => hSet (by rw [hSame.1])
    rw [Function.update_of_ne hSet,
      hRefills.kept page' app' hPage
        (fun hBoth => hSet hBoth.1) hOther]
    exact hInv.agree page' app' way' hPage

/- A way is read back from the bits of an entry. -/
theorem Rooted.way_mod
    (hRooted : r.Rooted)
    (hFilled : (r.sets (r.geometry.setOf page)).Filled set
      way (r.geometry.tagOf page) (app + 1)) :
    way % 2 ^ wayBitsOf r.radixWayTables.associativity = way := by
  have hInside := hFilled.inside
  rw [hRooted.associativity] at hInside
  rw [hRooted.radixWays]
  exact Nat.mod_eq_of_lt (lt_of_lt_of_le hInside hRooted.fit.ways)

theorem refills_free
    (hRooted : r.Rooted)
    (hPage : r.InRange page)
    (hLacks : (r.sets (r.geometry.setOf page)).Lacks
      (r.geometry.tagOf page) (app + 1))
    (hInvalid :
      ((r.sets (r.geometry.setOf page)).entries way).valid = false)
    (hFilled : (r.sets (r.geometry.setOf page)).Filled set
      way (r.geometry.tagOf page) (app + 1))
    (hGeometry : r'.geometry = r.geometry)
    (hSets : r'.sets = Function.update r.sets
      (r.geometry.setOf page) set)
    (hRadix : r'.radixWayTables =
      r.radixWayTables.setMapping page app way) :
    r.Refills r' page way app set := by
  have hRange : ∀ page', r.InRange page' →
      page' < 2 ^ (48 - r.radixWayTables.pageSizeBits) := by
    intro page' hPage'
    rw [hRooted.pageSize]
    exact hPage'
  have hWay : ∀ page' app', r.InRange page' →
      r'.radixWayTables.way app' page' =
        if app' = app ∧ page' = page then some way
        else r.radixWayTables.way app' page' := by
    intro page' app' hPage'
    rw [hRadix, RadixWayTableManager.way_setMapping hRooted.radix
      (hRange page hPage) (hRange page' hPage'),
      hRooted.way_mod hFilled]
  refine ⟨hPage, hLacks, hFilled, hGeometry, hSets, ?_, ?_,
    ?_, ?_, ?_, ?_⟩
  · rw [hRadix]
    exact hRooted.radix.setMapping page app way
  · rw [hRadix]
    rfl
  · rw [hRadix]
    rfl
  · rw [hWay page app hPage]
    simp
  · intro page' app' _ hSet hHeld
    unfold Resident at hHeld
    rw [hSet] at hHeld
    rw [hHeld.valid] at hInvalid
    exact absurd hInvalid (by simp)
  · intro page' app' hPage' _ hOther
    rw [hWay page' app' hPage',
      if_neg (fun hBoth => hOther ⟨hBoth.2, hBoth.1⟩)]

theorem refills_evict
    (hRooted : r.Rooted)
    (hPage : r.InRange page)
    {tag owner : Nat}
    (hLacks : (r.sets (r.geometry.setOf page)).Lacks
      (r.geometry.tagOf page) (app + 1))
    (hHolds : (r.sets (r.geometry.setOf page)).Holds way tag owner)
    (hFilled : (r.sets (r.geometry.setOf page)).Filled set
      way (r.geometry.tagOf page) (app + 1))
    (hGeometry : r'.geometry = r.geometry)
    (hSets : r'.sets = Function.update r.sets
      (r.geometry.setOf page) set)
    (hRadix : r'.radixWayTables =
      (r.radixWayTables.clearMapping
        (r.geometry.vpn
          (r.geometry.reconstructAddress tag
            (r.geometry.setOf page))) (owner - 1)).setMapping
        page app way) :
    r.Refills r' page way app set := by
  rcases hRooted.origin _ way tag owner hHolds with
    ⟨old, oldApp, hOld, hOldSet, hOldTag, hOldApp⟩
  -- the victim is the page `old` of the application `oldApp`
  have hVictim : r.geometry.vpn
      (r.geometry.reconstructAddress tag
        (r.geometry.setOf page)) = old := by
    rw [← hOldTag, ← hOldSet]
    exact hRooted.fit.vpn_reconstructAddress hOld
  have hVictimApp : owner - 1 = oldApp := by omega
  rw [hVictim, hVictimApp] at hRadix
  have hRange : ∀ page', r.InRange page' →
      page' < 2 ^ (48 - r.radixWayTables.pageSizeBits) := by
    intro page' hPage'
    rw [hRooted.pageSize]
    exact hPage'
  have hCleared := hRooted.radix.clearMapping old oldApp
  have hSizes :
      (r.radixWayTables.clearMapping old oldApp).pageSizeBits =
          r.radixWayTables.pageSizeBits ∧
        (r.radixWayTables.clearMapping old oldApp).associativity =
          r.radixWayTables.associativity := by
    unfold RadixWayTableManager.clearMapping
    split
    · exact ⟨rfl, rfl⟩
    · exact ⟨rfl, rfl⟩
  have hWay : ∀ page' app', r.InRange page' →
      r'.radixWayTables.way app' page' =
        if app' = app ∧ page' = page then some way
        else if app' = oldApp ∧ page' = old then none
        else r.radixWayTables.way app' page' := by
    intro page' app' hPage'
    rw [hRadix, RadixWayTableManager.way_setMapping hCleared
      (by rw [hSizes.1]; exact hRange page hPage)
      (by rw [hSizes.1]; exact hRange page' hPage'),
      RadixWayTableManager.way_clearMapping hRooted.radix
        (hRange old hOld) (hRange page' hPage'),
      hSizes.2, hRooted.way_mod hFilled]
  refine ⟨hPage, hLacks, hFilled, hGeometry, hSets, ?_, ?_,
    ?_, ?_, ?_, ?_⟩
  · rw [hRadix]
    exact hCleared.setMapping page app way
  · rw [hRadix]
    exact hSizes.1
  · rw [hRadix]
    exact hSizes.2
  · rw [hWay page app hPage]
    simp
  · intro page' app' hPage' hSet hHeld hOther
    unfold Resident at hHeld
    rw [hSet] at hHeld
    have hEq := hHeld.eq hHolds
    have hSamePage : page' = old :=
      hRooted.fit.eq_of_tagOf_setOf hOld hPage'
        (hEq.1.trans hOldTag.symm) (hSet.trans hOldSet.symm)
    rw [hWay page' app' hPage',
      if_neg (fun hBoth => hOther ⟨hBoth.2, hBoth.1⟩),
      if_pos ⟨by omega, hSamePage⟩]
  · intro page' app' hPage' hNot hOther
    rw [hWay page' app' hPage',
      if_neg (fun hBoth => hOther ⟨hBoth.2, hBoth.1⟩),
      if_neg]
    rintro ⟨rfl, rfl⟩
    refine hNot ⟨hOldSet, ?_⟩
    unfold Resident
    rw [hOldSet, hOldTag, hOldApp]
    exact hHolds

/- An update of one set that holds the same. -/
theorem same_update
    {i : Nat}
    (hSame : (r.sets i).Same set)
    (j : Nat) :
    (r.sets j).Same (Function.update r.sets i set j) := by
  by_cases hEq : j = i
  · rw [hEq, Function.update_self]
    exact hSame
  · rw [Function.update_of_ne hEq]
    exact Same.refl _

/- An allocation keeps the invariant. -/
theorem Inv.allocates
    (hInv : r.Inv)
    {forceEvict : Bool}
    {result : Allocation × RestSeg}
    (hPage : r.InRange page)
    (hAllocates : r.Allocates page app forceEvict result) :
    result.2.Inv := by
  cases hAllocates with
  | hit _ hSame hGeometry hSets hRadix =>
      refine hInv.same hGeometry ?_ ?_ ?_ ?_ ?_
      · rw [hSets]
        exact same_update hSame
      · rw [hRadix]
        exact hInv.radix
      · rw [hRadix]
      · rw [hRadix]
      · simp [hRadix]
  | free hLacks hInvalid hFilled hGeometry hSets hRadix =>
      exact hInv.refills (refills_free hInv.rooted hPage hLacks
        hInvalid hFilled hGeometry hSets hRadix)
  | evict _ hLacks _ hHolds hFilled hGeometry hSets hRadix =>
      exact hInv.refills (refills_evict hInv.rooted hPage hLacks
        hHolds hFilled hGeometry hSets hRadix)
  | fail _ _ hGeometry hSets hRadix =>
      refine hInv.same hGeometry ?_ ?_ ?_ ?_ ?_
      · simp [hSets, Same.refl]
      · rw [hRadix]
        exact hInv.radix
      · rw [hRadix]
      · rw [hRadix]
      · simp [hRadix]

end RestSeg

end Utopia

end Virtuoso
