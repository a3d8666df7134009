import Virtuoso.Utopia.RestSeg.Invariant

/-
  Which pages a restricted segment holds, and what each
  operation does to them.

  A full set stays full: an eviction puts a page in the place
  of another one, and nothing is ever taken out.

  Main declarations:
    * `Utopia.RestSeg.places_allocate`
    * `Utopia.RestSeg.inRestSeg_fst_iff`
-/

namespace Virtuoso

namespace Utopia

namespace RestSegSet

variable {s s' : RestSegSet} {way tag owner : Nat}

theorem Same.full_iff
    (hSame : s.Same s') :
    s'.Full ↔ s.Full := by
  unfold Full
  simp only [hSame.valid, hSame.associativity]

theorem Filled.full
    (hFilled : s.Filled s' way tag owner)
    (hFull : s.Full) :
    s'.Full := by
  intro way' hWay
  rw [hFilled.valid]
  split_ifs
  · rfl
  · exact hFull way' (hFilled.associativity ▸ hWay)

/- The shadow search finds a match when there is one. -/
theorem shadowFold_eq_none_iff
    (s : RestSegSet)
    (tag owner : Nat)
    (ways : List Nat)
    (result : Option Nat) :
    ways.foldl
      (fun result i =>
        if matchesEntry (s.entries i) tag owner then
          some i
        else
          result)
      result = none ↔
      result = none ∧
        ∀ i ∈ ways,
          matchesEntry (s.entries i) tag owner = false := by
  induction ways generalizing result with
  | nil => simp
  | cons i ways ih =>
      rw [List.foldl_cons, ih]
      by_cases hMatch : matchesEntry (s.entries i) tag owner = true
      · simp [hMatch]
      · simp [hMatch]

theorem findEntryWithFingerprintShadow_eq_none_iff :
    s.findEntryWithFingerprintShadow tag owner = none ↔
      s.Lacks tag owner := by
  unfold findEntryWithFingerprintShadow
  rw [shadowFold_eq_none_iff]
  constructor
  · rintro ⟨_, hNone⟩ way hHolds
    have hMiss := hNone way (List.mem_range.mpr hHolds.1)
    rw [hHolds.2] at hMiss
    cases hMiss
  · intro hLacks
    refine ⟨rfl, fun i hMem => ?_⟩
    by_contra hMatch
    exact hLacks i ⟨List.mem_range.mp hMem, by simpa using hMatch⟩

/- A valid way makes the search for a victim succeed. -/
theorem lruFold_ne_none
    (s : RestSegSet)
    (ways : List Nat)
    (victim : Option Nat)
    (hSome : victim ≠ none ∨
      ∃ i ∈ ways, (s.entries i).valid = true) :
    ways.foldl s.lruStep victim ≠ none := by
  induction ways generalizing victim with
  | nil => simpa using hSome
  | cons i ways ih =>
      rw [List.foldl_cons]
      apply ih
      unfold lruStep
      by_cases hValid : (s.entries i).valid = true
      · left
        rw [if_pos hValid]
        cases victim with
        | none => simp
        | some v =>
            simp only
            split_ifs <;> simp
      · rw [if_neg hValid]
        rcases hSome with hVictim | ⟨j, hMem, hOther⟩
        · exact Or.inl hVictim
        · right
          rcases List.mem_cons.mp hMem with hEq | hTail
          · exact absurd (hEq ▸ hOther) hValid
          · exact ⟨j, hTail, hOther⟩

/- With a way in the set an insertion that may evict works. -/
theorem insert_force_ne_fail
    (hWays : 0 < s.associativity)
    (tag owner : Nat)
    (fingerprint : BitVec 8) :
    (s.insert tag owner fingerprint true none).1 ≠ .fail := by
  unfold RestSegSet.insert
  cases hFind : s.findEntry tag owner with
  | some way => simp
  | none =>
      simp only
      unfold insertAnywhere
      cases hFree : s.findFreeWay with
      | some way => simp
      | none =>
          have hVictim : s.findLRUVictim ≠ none := by
            apply lruFold_ne_none
            right
            exact ⟨0, List.mem_range.mpr hWays,
              full_of_findFreeWay hFree 0 hWays⟩
          cases hLru : s.findLRUVictim with
          | none => exact absurd hLru hVictim
          | some way => simp

end RestSegSet

namespace RestSeg

open RestSegSet

variable {r r' r'' : RestSeg} {page app : Nat}

/- A page of an application is in some way. -/
def Held (r : RestSeg) (page app : Nat) : Prop :=
  ∃ way, r.Resident page way app

/- The set of a page has no free way. -/
def FullAt (r : RestSeg) (page : Nat) : Prop :=
  (r.sets (r.geometry.setOf page)).Full

/- The shape stays, and full sets stay full. -/
structure Keeps (r r' : RestSeg) : Prop where
  geometry : r'.geometry = r.geometry
  associativity : ∀ i,
    (r'.sets i).associativity = (r.sets i).associativity
  full : ∀ i, (r.sets i).Full → (r'.sets i).Full

/- The same pages are held and the same sets are full. -/
structure Steady
    (r r' : RestSeg) : Prop extends Keeps r r' where
  held : ∀ page app, r'.Held page app ↔ r.Held page app
  full_old : ∀ i, (r'.sets i).Full → (r.sets i).Full

/-
  All that an allocation does to the pages that are held: it
  is refused by a full set, finds the page, or adds it.
-/
inductive Places
    (r : RestSeg)
    (page app : Nat)
    (forceEvict : Bool) :
    Bool × RestSeg → Prop
  | refused {r' : RestSeg} :
      r.Steady r' →
      ¬ r.Held page app →
      (forceEvict = false → r.FullAt page) →
      Places r page app forceEvict (false, r')
  | found {r' : RestSeg} :
      r.Steady r' →
      r.Held page app →
      Places r page app forceEvict (true, r')
  | added {r' : RestSeg} :
      r.Keeps r' →
      ¬ r.Held page app →
      (forceEvict = false → ¬ r.FullAt page) →
      r'.Held page app →
      (∀ page' app', r'.Held page' app' →
        r.Held page' app' ∨
          r.geometry.tagOf page' = r.geometry.tagOf page ∧
            r.geometry.setOf page' = r.geometry.setOf page ∧
            app' = app) →
      Places r page app forceEvict (true, r')

theorem Keeps.fullAt
    (hKeeps : r.Keeps r')
    (hFull : r.FullAt page) :
    r'.FullAt page := by
  unfold FullAt
  rw [hKeeps.geometry]
  exact hKeeps.full _ hFull

theorem Keeps.refl
    (r : RestSeg) :
    r.Keeps r :=
  ⟨rfl, fun _ => rfl, fun _ hFull => hFull⟩

theorem Keeps.trans
    (hFirst : r.Keeps r')
    (hSecond : r'.Keeps r'') :
    r.Keeps r'' :=
  ⟨hSecond.geometry.trans hFirst.geometry,
    fun i => (hSecond.associativity i).trans
      (hFirst.associativity i),
    fun i hFull => hSecond.full i (hFirst.full i hFull)⟩

theorem Steady.refl
    (r : RestSeg) :
    r.Steady r :=
  ⟨Keeps.refl r, fun _ _ => Iff.rfl, fun _ hFull => hFull⟩

/- Sets that hold the same make the segments hold the same. -/
theorem steady_of_same
    (hGeometry : r'.geometry = r.geometry)
    (hSame : ∀ i, (r.sets i).Same (r'.sets i)) :
    r.Steady r' := by
  refine ⟨⟨hGeometry, fun i => (hSame i).associativity,
    fun i => (hSame i).full_iff.mpr⟩, ?_,
    fun i => (hSame i).full_iff.mp⟩
  intro page app
  unfold Held Resident
  rw [hGeometry]
  exact exists_congr (fun way => (hSame _).holds way _ _)

theorem steady_touch
    (r : RestSeg)
    (i way : Nat) :
    r.Steady { r with
      sets := Function.update r.sets i
        ((r.sets i).touchEntry way) } :=
  steady_of_same rfl (same_update (same_touchEntry _ way))

/- A filled way keeps the shape. -/
theorem keeps_of_filled
    {i way tag owner : Nat}
    {set : RestSegSet}
    (hGeometry : r'.geometry = r.geometry)
    (hSets : r'.sets = Function.update r.sets i set)
    (hFilled : (r.sets i).Filled set way tag owner) :
    r.Keeps r' := by
  refine ⟨hGeometry, ?_, ?_⟩
  · intro j
    rw [hSets]
    by_cases hEq : j = i
    · rw [hEq, Function.update_self, hFilled.associativity]
    · rw [Function.update_of_ne hEq]
  · intro j hFull
    rw [hSets]
    by_cases hEq : j = i
    · rw [hEq, Function.update_self]
      exact hFilled.full (hEq ▸ hFull)
    · rw [Function.update_of_ne hEq]
      exact hFull

/- The page of a filled way is held. -/
theorem held_of_filled
    {way : Nat}
    {set : RestSegSet}
    (hGeometry : r'.geometry = r.geometry)
    (hSets : r'.sets = Function.update r.sets
      (r.geometry.setOf page) set)
    (hFilled : (r.sets (r.geometry.setOf page)).Filled set
      way (r.geometry.tagOf page) (app + 1)) :
    r'.Held page app := by
  refine ⟨way, ?_⟩
  unfold Resident
  rw [hGeometry, hSets, Function.update_self, hFilled.holds,
    if_pos rfl]
  exact ⟨rfl, rfl⟩

/- A filled way adds no other page. -/
theorem held_old_of_filled
    {way page' app' : Nat}
    {set : RestSegSet}
    (hGeometry : r'.geometry = r.geometry)
    (hSets : r'.sets = Function.update r.sets
      (r.geometry.setOf page) set)
    (hFilled : (r.sets (r.geometry.setOf page)).Filled set
      way (r.geometry.tagOf page) (app + 1))
    (hHeld : r'.Held page' app') :
    r.Held page' app' ∨
      r.geometry.tagOf page' = r.geometry.tagOf page ∧
        r.geometry.setOf page' = r.geometry.setOf page ∧
        app' = app := by
  rcases hHeld with ⟨way', hResident⟩
  unfold Resident at hResident
  rw [hGeometry, hSets] at hResident
  by_cases hSet : r.geometry.setOf page' = r.geometry.setOf page
  · rw [hSet, Function.update_self, hFilled.holds] at hResident
    by_cases hWay : way' = way
    · rw [if_pos hWay] at hResident
      exact Or.inr ⟨hResident.1, hSet, by omega⟩
    · rw [if_neg hWay] at hResident
      left
      refine ⟨way', ?_⟩
      unfold Resident
      rwa [hSet]
  · rw [Function.update_of_ne hSet] at hResident
    exact Or.inl ⟨way', hResident⟩

theorem not_held_iff :
    ¬ r.Held page app ↔
      (r.sets (r.geometry.setOf page)).Lacks
        (r.geometry.tagOf page) (app + 1) :=
  not_exists

/- What an allocation does to the pages that are held. -/
theorem places_allocate
    (r : RestSeg)
    (address app : Nat)
    (forceEvict : Bool) :
    r.Places (r.geometry.vpn address) app forceEvict
      (decide ((r.allocate address app forceEvict).1 ≠ .failed),
        (r.allocate address app forceEvict).2) := by
  have hAllocates :=
    allocates_allocate r address app forceEvict
  generalize r.allocate address app forceEvict = result
    at hAllocates ⊢
  cases hAllocates with
  | hit hHolds hSame hGeometry hSets _ =>
      refine .found (steady_of_same hGeometry ?_) ⟨_, hHolds⟩
      rw [hSets]
      exact same_update hSame
  | free hLacks hInvalid hFilled hGeometry hSets _ =>
      refine .added (keeps_of_filled hGeometry hSets hFilled)
        (not_held_iff.mpr hLacks) ?_
        (held_of_filled hGeometry hSets hFilled)
        (fun _ _ =>
          held_old_of_filled hGeometry hSets hFilled)
      intro _ hFull
      have hValid := hFull _ hFilled.inside
      rw [hInvalid] at hValid
      cases hValid
  | evict hForce hLacks _ _ hFilled hGeometry hSets _ =>
      refine .added (keeps_of_filled hGeometry hSets hFilled)
        (not_held_iff.mpr hLacks) ?_
        (held_of_filled hGeometry hSets hFilled)
        (fun _ _ =>
          held_old_of_filled hGeometry hSets hFilled)
      intro hNot
      rw [hForce] at hNot
      cases hNot
  | fail hLacks hFull hGeometry hSets _ =>
      refine .refused (steady_of_same hGeometry ?_)
        (not_held_iff.mpr hLacks) hFull
      simp [hSets, Same.refl]

/- With a way in the sets a forced allocation succeeds. -/
theorem allocate_force_ne_failed
    (r : RestSeg)
    (address app : Nat)
    (hWays : 0 < (r.sets
      (r.geometry.setOf (r.geometry.vpn address))).associativity) :
    (r.allocate address app true).1 ≠ .failed := by
  have hPlace : ∀ fp pref,
      (r.place (r.sets (r.geometry.setOf (r.geometry.vpn address)))
        (r.geometry.tagOf (r.geometry.vpn address)) (app + 1)
        fp pref true).1 ≠ .fail := by
    intro fp pref
    have hTries := tries_tryPreferred r
      (r.sets (r.geometry.setOf (r.geometry.vpn address)))
      (r.geometry.tagOf (r.geometry.vpn address)) (app + 1)
      fp pref true
    unfold place
    simp only
    split_ifs with hFail
    · rw [hTries.same hFail]
      exact insert_force_ne_fail hWays _ _ _
    · exact hFail
  unfold allocate Geometry.splitAddress
  simp only
  split
  · rename_i hResult
    exact absurd hResult (hPlace _ _)
  · simp
  · simp
  · simp

/- `inRestSeg` reports the pages that are held. -/
theorem inRestSeg_fst_iff
    (r : RestSeg)
    (address app : Nat) :
    (r.inRestSeg address app).1 = true ↔
      r.Held (r.geometry.vpn address) app := by
  unfold inRestSeg Geometry.splitAddress
  simp only
  cases hFind : (r.sets
      (r.geometry.setOf (r.geometry.vpn
        address))).findEntryWithFingerprintShadow
      (r.geometry.tagOf (r.geometry.vpn address))
      (app + 1) with
  | none =>
      have hLacks :=
        findEntryWithFingerprintShadow_eq_none_iff.mp hFind
      exact iff_of_false (by simp) (not_held_iff.mpr hLacks)
  | some way =>
      refine iff_of_true rfl ?_
      by_contra hNot
      rw [findEntryWithFingerprintShadow_eq_none_iff.mpr
        (not_held_iff.mp hNot)] at hFind
      cases hFind

theorem steady_inRestSeg
    (r : RestSeg)
    (address app : Nat) :
    r.Steady (r.inRestSeg address app).2 := by
  unfold inRestSeg
  simp only
  split
  · exact Steady.refl r
  · exact steady_touch r _ _

/- `lookupWay` finds the pages that are held. -/
theorem lookupWay_isSome_iff
    (r : RestSeg)
    (address app : Nat) :
    (r.lookupWay address app).isSome = true ↔
      r.Held (r.geometry.vpn address) app := by
  rw [← not_iff_not, not_held_iff, ← findEntry_eq_none_iff]
  unfold lookupWay Geometry.splitAddress
  simp

end RestSeg

end Utopia

end Virtuoso
