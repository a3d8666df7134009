import Virtuoso.Utopia.RestSeg.Invariant

/-
  Runs of a restricted segment: its radix way tables and its
  tags name the same ways, and two pages are not at one
  physical page.

  An entry of a radix way table is read from three bytes, so
  an associativity of 2^18 has entries whose flag `valid` is
  never read. The powers of two that are served are those up
  to 2^17, 2^19 and 2^23. The set index determines the page only for
  some numbers of sets, of which the constructor tries six
  addresses.

  Main declarations:
    * `Utopia.RestSeg.radixAgrees_run`
    * `Utopia.RestSeg.apart_run_iff`
-/

------------------------------------------------------------
-- Steps And The Fast Path
------------------------------------------------------------

namespace Virtuoso

namespace Utopia

namespace RestSeg

open RestSegSet

variable {r r' : RestSeg} {g : Geometry}

theorem inv_fresh
    (hFit : Fit g)
    (hPage : 12 ≤ g.pageSizeBits)
    (hWays : RadixLeaf.Reaches (wayBitsOf g.associativity)) :
    (fresh g).Inv := by
  have hNone : ∀ i way tag owner,
      ¬ ((fresh g).sets i).Holds way tag owner := by
    intro i way tag owner hHolds
    have hValid := hHolds.valid
    simp [fresh, RestSegSet.construct] at hValid
  refine ⟨hFit, fun _ => rfl, ?_, ?_, ?_, rfl, rfl, ?_⟩
  · exact fun _ => sound_construct g.associativity
  · exact fun i way tag owner hHolds =>
      absurd hHolds (hNone i way tag owner)
  · exact RadixWayTableManager.sound_construct hPage hWays
  · intro page app way _
    apply iff_of_false
    · simp [fresh]
    · exact hNone _ _ _ _

/- Touching a way of a set keeps the invariant. -/
theorem Inv.touch
    (hInv : r.Inv)
    (i way : Nat) :
    { r with
      sets := Function.update r.sets i
        ((r.sets i).touchEntry way) }.Inv :=
  hInv.same rfl (same_update (same_touchEntry _ way))
    hInv.radix rfl rfl (fun _ _ => rfl)

theorem inv_step
    (hInv : r.Inv)
    {op : Op}
    (hAddress : op.address < 2 ^ 48)
    (hStep : r.step op = some r') :
    r'.Inv := by
  cases op with
  | allocate address app forceEvict =>
      simp only [step, Option.some.injEq] at hStep
      rw [← hStep]
      exact hInv.allocates
        (Geometry.vpn_lt r.geometry hAddress)
        (allocates_allocate r address app forceEvict)
  | inRestSeg address app =>
      simp only [step, Option.some.injEq] at hStep
      rw [← hStep]
      unfold inRestSeg
      simp only
      split
      · exact hInv
      · exact hInv.touch _ _
  | lookupWay address app =>
      simp only [step, Option.some.injEq] at hStep
      exact hStep ▸ hInv
  | lookupWayRadix address app =>
      simp only [step, Option.some.injEq] at hStep
      rw [← hStep]
      refine hInv.same rfl (fun i => Same.refl _) ?_ rfl rfl ?_
      · exact hInv.radix.lookupWay (r.geometry.vpn address) app
      · intro app' page
        exact RadixWayTableManager.way_lookupWay
          r.radixWayTables (r.geometry.vpn address) app _ _
  | calculatePhysicalAddress address app =>
      simp only [step, Option.some.injEq] at hStep
      exact hStep ▸ hInv
  | touchWayLRU address way =>
      simp only [step, Option.some.injEq] at hStep
      rw [← hStep]
      exact hInv.touch _ way

/- Every call returns. -/
theorem exists_step
    (r : RestSeg)
    (op : Op) :
    ∃ r', r.step op = some r' := by
  cases op <;> exact ⟨_, rfl⟩

theorem exists_run
    (hInv : r.Inv)
    {ops : List Op}
    (hAddress : ∀ op ∈ ops, op.address < 2 ^ 48) :
    ∃ r', Run.run step r ops = some r' ∧ r'.Inv := by
  apply Run.run_total (I := Inv)
    (C := fun _ op => op.address < 2 ^ 48)
  · intro s op hInv hOp
    rcases exists_step s op with ⟨s', hStep⟩
    exact ⟨s', hStep, inv_step hInv hOp hStep⟩
  · exact hInv
  · exact Run.along_of_forall_mem r hAddress

/-
  The lookup in the radix way table finds a way exactly when
  the lookup in the tags finds it, and the page computed
  from it is the page that the tags give.
-/
def RadixAgrees (r : RestSeg) (address app : Nat) : Prop :=
  ∀ way,
    ((r.lookupWayRadix address app).1 = some way ↔
      r.lookupWay address app = some way) ∧
    ((r.lookupWayRadix address app).1 = some way →
      r.calculatePhysicalAddress address app =
        some (r.geometry.calculatePPNFromWay address way))

theorem Inv.radixAgrees
    (hInv : r.Inv)
    {address : Nat}
    (hAddress : address < 2 ^ 48)
    (app : Nat) :
    r.RadixAgrees address app := by
  intro way
  have hIff : (r.lookupWayRadix address app).1 = some way ↔
      r.lookupWay address app = some way :=
    (hInv.agree _ app way
      (Geometry.vpn_lt r.geometry hAddress)).trans
      (findEntry_eq_some_iff (hInv.unique _)).symm
  refine ⟨hIff, ?_⟩
  intro hFound
  simp [calculatePhysicalAddress, hIff.mp hFound]

/- What the constructor returns. -/
theorem construct_eq_some
    {sizeMb pageSizeBits associativity base fingerprintBits : Nat}
    (hConstruct : construct sizeMb pageSizeBits associativity
      base fingerprintBits = some r) :
    r = fresh ⟨pageSizeBits, associativity,
        numSetsOf sizeMb pageSizeBits associativity, base,
        fingerprintBits⟩ ∧
      0 < r.geometry.numSets ∧
      r.geometry.verifyIndexingLogic = true := by
  unfold construct at hConstruct
  simp only at hConstruct
  split_ifs at hConstruct with hAccepted
  rw [Option.some.injEq] at hConstruct
  subst hConstruct
  exact ⟨rfl, hAccepted.1, hAccepted.2⟩

/- A segment that the constructor accepts. -/
theorem construct_of_accepted
    {sizeMb pageSizeBits associativity base fingerprintBits : Nat}
    (hAccepted :
      0 < numSetsOf sizeMb pageSizeBits associativity ∧
        (⟨pageSizeBits, associativity,
          numSetsOf sizeMb pageSizeBits associativity, base,
          fingerprintBits⟩ : Geometry).verifyIndexingLogic = true) :
    construct sizeMb pageSizeBits associativity base
      fingerprintBits =
        some (fresh ⟨pageSizeBits, associativity,
          numSetsOf sizeMb pageSizeBits associativity, base,
          fingerprintBits⟩) :=
  if_pos hAccepted

/- The bits of a way, for a power of two. -/
theorem wayBitsOf_pow
    (k : Nat) :
    wayBitsOf (2 ^ k) = max 1 k := by
  rw [wayBitsOf, Nat.log2_two_pow]

/- An entry has the bits of every way of a power of two. -/
theorem ways_of_isPowerOfTwo
    {n : Nat}
    (hWays : n.isPowerOfTwo) :
    n ≤ 2 ^ wayBitsOf n := by
  rcases hWays with ⟨k, hPow⟩
  rw [hPow, wayBitsOf_pow]
  exact Nat.pow_le_pow_right (by decide) (by omega)

/- Powers of two fit, within three bytes. -/
theorem fit_of_isPowerOfTwo
    (hPos : 0 < g.numSets)
    (hSets : g.numSets.isPowerOfTwo)
    (hWays : g.associativity.isPowerOfTwo)
    (hLimit : g.associativity ≤ 2 ^ 17 ∨
      g.associativity = 2 ^ 19 ∨ g.associativity = 2 ^ 23) :
    Fit g ∧ RadixLeaf.Reaches (wayBitsOf g.associativity) := by
  refine ⟨⟨hPos, fun page _ =>
    Geometry.fold_lt_of_isPowerOfTwo hSets page,
    ways_of_isPowerOfTwo hWays⟩, ?_⟩
  rcases hWays with ⟨k, hPow⟩
  have hExponent : k ≤ 17 ∨ k = 19 ∨ k = 23 := by
    rw [hPow] at hLimit
    rcases hLimit with hSmall | hEq | hEq
    · exact Or.inl
        ((Nat.pow_le_pow_iff_right (by decide)).mp hSmall)
    · exact Or.inr (Or.inl
        (Nat.pow_right_injective (by decide) hEq))
    · exact Or.inr (Or.inr
        (Nat.pow_right_injective (by decide) hEq))
  rw [hPow, wayBitsOf_pow]
  unfold RadixLeaf.Reaches
  omega

/-
  The radix way tables agree with the tags after every run,
  for numbers of ways and of sets that are powers of two and
  ways whose entries are within three bytes.
-/
theorem radixAgrees_run
    {sizeMb pageSizeBits associativity base fingerprintBits : Nat}
    (hConstruct : construct sizeMb pageSizeBits associativity
      base fingerprintBits = some r)
    (hPage : 12 ≤ pageSizeBits)
    (hWays : associativity.isPowerOfTwo)
    (hLimit : associativity ≤ 2 ^ 17 ∨
      associativity = 2 ^ 19 ∨ associativity = 2 ^ 23)
    (hSets : r.geometry.numSets.isPowerOfTwo)
    (ops : List Op)
    (hAddress : ∀ op ∈ ops, op.address < 2 ^ 48) :
    ∃ r', Run.run step r ops = some r' ∧
      ∀ address < 2 ^ 48, ∀ app, r'.RadixAgrees address app := by
  rcases construct_eq_some hConstruct with ⟨hEq, hPos, _⟩
  have hInv : r.Inv := by
    rw [hEq] at hPos hSets ⊢
    rcases fit_of_isPowerOfTwo hPos hSets hWays hLimit with
      ⟨hFit, hReaches⟩
    exact inv_fresh hFit hPage hReaches
  rcases exists_run hInv hAddress with ⟨r', hRun, hAfter⟩
  exact ⟨r', hRun, fun address hLess app =>
    hAfter.radixAgrees hLess app⟩

/-
  A segment of 16 ways in 16 sets, with pages of two
  applications.
-/
theorem radixAgrees_run_twoApps :
    ∃ r r', construct 1 12 16 512 4 = some r ∧
      Run.run step r
        [.allocate 0x5000 0 false, .allocate 0x5000 1 true,
          .inRestSeg 0x5000 0, .touchWayLRU 0x5000 1] = some r' ∧
      ∀ address < 2 ^ 48, ∀ app, r'.RadixAgrees address app := by
  have hConstruct : construct 1 12 16 512 4 =
      some (fresh ⟨12, 16, 16, 512, 4⟩) :=
    construct_of_accepted (by decide +kernel)
  rcases radixAgrees_run hConstruct (by decide)
      ⟨4, rfl⟩ (Or.inl (by decide)) ⟨4, rfl⟩
      [.allocate 0x5000 0 false, .allocate 0x5000 1 true,
        .inRestSeg 0x5000 0, .touchWayLRU 0x5000 1]
      (by decide) with
    ⟨r', hRun, hAgrees⟩
  exact ⟨_, r', hConstruct, hRun, hAgrees⟩

/- The first allocation in a new segment takes a free way. -/
theorem free_of_fresh
    (hWays : 0 < g.associativity)
    (address app : Nat) :
    ∃ way, ((fresh g).allocate address app
        false).2.lookupWay address app = some way ∧
      ((fresh g).allocate address app false).2.geometry = g ∧
      ((fresh g).allocate address app
        false).2.radixWayTables =
          (fresh g).radixWayTables.setMapping
            (g.vpn address) app way := by
  have hAllocates :=
    allocates_allocate (fresh g) address app false
  have hFree : ∀ i way,
      (((fresh g).sets i).entries way).valid = false :=
    fun _ _ => rfl
  generalize (fresh g).allocate address app false = result
    at hAllocates ⊢
  cases hAllocates with
  | hit hHolds =>
      exact absurd hHolds.valid (by simp [hFree])
  | free hLacks hInvalid hFilled hGeometry hSets hRadix =>
      rename_i way set r'
      refine ⟨way, ?_, hGeometry, hRadix⟩
      have hSound := (sound_construct
        g.associativity).filled hLacks hFilled
      simp only [lookupWay, Geometry.splitAddress, hGeometry, hSets]
      change (Function.update (fresh g).sets _ set _).findEntry
        _ _ = _
      rw [Function.update_self,
        findEntry_eq_some_iff hSound, hFilled.holds]
      simp
  | evict hForce => simp at hForce
  | fail _ hFull =>
      have hValid := hFull rfl 0 hWays
      exact absurd hValid (by simp [hFree])

/-
  With 2^18 ways an entry has 19 bits. The entry of page 5
  begins at the last bit of a byte, and its flag is beyond
  the third byte: the page is in the tags and never in the
  radix way table. The first leaf of the process has been
  made and tested by another segment.
-/
theorem radixAgrees_run_wide :
    (2 ^ 18).isPowerOfTwo ∧
      ∃ r r' way, construct 1024 12 (2 ^ 18) 0 4 = some r ∧
        r.geometry.numSets.isPowerOfTwo ∧
        Run.run step r [.allocate 0x5000 0 false] = some r' ∧
        r'.lookupWay 0x5000 0 = some way ∧
        (r'.lookupWayRadix 0x5000 0).1 = none := by
  refine ⟨⟨18, rfl⟩, ?_⟩
  have hConstruct : construct 1024 12 (2 ^ 18) 0 4 =
      some (fresh ⟨12, 2 ^ 18, 1, 0, 4⟩) :=
    construct_of_accepted (by decide +kernel)
  rcases free_of_fresh (g := ⟨12, 2 ^ 18, 1, 0, 4⟩)
      (by decide) 0x5000 0 with
    ⟨way, hLookup, hGeometry, hRadix⟩
  refine ⟨_, _, way, hConstruct, ⟨0, rfl⟩, rfl, hLookup, ?_⟩
  have hOut : ¬ RadixLeaf.InReach
      ((RadixLeaf.construct 18).setEntry 5 true way) 5 := by
    unfold RadixLeaf.InReach RadixLeaf.bitsPerEntry
    rw [RadixLeaf.wayBits_setEntry]
    decide
  have hTable : RadixWayTableManager.way
      ((fresh ⟨12, 2 ^ 18, 1, 0, 4⟩).radixWayTables.setMapping
        5 0 way) 0 5 = none := by
    unfold RadixWayTableManager.way RadixWayTableManager.setMapping
    rw [RadixWayTableManager.getTable_setTable, if_pos rfl]
    exact (RadixWayTable.lookupWay_setMapping_construct 12
      (2 ^ 18) 5 way).trans (RadixLeaf.wayAt_of_not_inReach hOut)
  simp only [lookupWayRadix, hGeometry, hRadix]
  exact hTable

------------------------------------------------------------
-- Physical Pages
------------------------------------------------------------

/-
  Two different pages of an application are not reported at
  one physical page.
-/
def Apart (r : RestSeg) : Prop :=
  ∀ address < 2 ^ 48, ∀ address' < 2 ^ 48, ∀ app ppn,
    r.calculatePhysicalAddress address app = some ppn →
    r.calculatePhysicalAddress address' app = some ppn →
    r.geometry.vpn address' = r.geometry.vpn address

/- The tag and the set determine a page. -/
def SplitInjective (g : Geometry) : Prop :=
  ∀ page < 2 ^ (48 - g.pageSizeBits),
    ∀ page' < 2 ^ (48 - g.pageSizeBits),
      g.tagOf page' = g.tagOf page →
      g.setOf page' = g.setOf page → page' = page

/- The 4KB frames of the segment have numbers of 32 bits. -/
def CountsFit (g : Geometry) : Prop :=
  g.numSets * g.associativity * 2 ^ (g.pageSizeBits - 12) ≤ 2 ^ 32

/- The sets have the ways of the geometry. -/
def Shaped (g : Geometry) (r : RestSeg) : Prop :=
  r.geometry = g ∧ ∀ i, (r.sets i).associativity = g.associativity

/- An update of one set keeps the shape. -/
theorem Shaped.update
    {i : Nat}
    {set : RestSegSet}
    (hShaped : Shaped g r)
    (hGeometry : r'.geometry = r.geometry)
    (hSets : r'.sets = Function.update r.sets i set)
    (hWays : set.associativity = (r.sets i).associativity) :
    Shaped g r' := by
  refine ⟨hGeometry.trans hShaped.1, ?_⟩
  intro j
  rw [hSets]
  by_cases hEq : j = i
  · rw [hEq, Function.update_self, hWays]
    exact hShaped.2 i
  · rw [Function.update_of_ne hEq]
    exact hShaped.2 j

theorem shaped_step
    (hShaped : Shaped g r)
    {op : Op}
    (hStep : r.step op = some r') :
    Shaped g r' := by
  cases op with
  | allocate address app forceEvict =>
      have hAllocates :=
        allocates_allocate r address app forceEvict
      simp only [step, Option.some.injEq] at hStep
      generalize r.allocate address app forceEvict = result
        at hAllocates hStep
      subst hStep
      cases hAllocates with
      | hit _ hSame hGeometry hSets _ =>
          exact hShaped.update hGeometry hSets hSame.associativity
      | free _ _ hFilled hGeometry hSets _ =>
          exact hShaped.update hGeometry hSets hFilled.associativity
      | evict _ _ _ _ hFilled hGeometry hSets _ =>
          exact hShaped.update hGeometry hSets hFilled.associativity
      | fail _ _ hGeometry hSets _ =>
          exact ⟨hGeometry.trans hShaped.1,
            fun i => hSets ▸ hShaped.2 i⟩
  | inRestSeg address app =>
      simp only [step, Option.some.injEq] at hStep
      rw [← hStep]
      unfold inRestSeg
      simp only
      split
      · exact hShaped
      · exact hShaped.update rfl rfl
          (same_touchEntry _ _).associativity
  | lookupWay address app =>
      simp only [step, Option.some.injEq] at hStep
      exact hStep ▸ hShaped
  | lookupWayRadix address app =>
      simp only [step, Option.some.injEq] at hStep
      exact hStep ▸ hShaped
  | calculatePhysicalAddress address app =>
      simp only [step, Option.some.injEq] at hStep
      exact hStep ▸ hShaped
  | touchWayLRU address way =>
      simp only [step, Option.some.injEq] at hStep
      rw [← hStep]
      exact hShaped.update rfl rfl
        (same_touchEntry _ way).associativity

/- A slot of a segment is determined by its physical page. -/
theorem slot_inj
    (hFit : CountsFit g)
    {address address' way way' : Nat}
    (hSets : 0 < g.numSets)
    (hWay : way < g.associativity)
    (hWay' : way' < g.associativity)
    (hEq : g.calculatePPNFromWay address way =
      g.calculatePPNFromWay address' way') :
    g.setOf (g.vpn address) = g.setOf (g.vpn address') ∧
      way = way' := by
  have hPos := Nat.two_pow_pos (g.pageSizeBits - 12)
  -- a slot number is below the number of slots
  have hSlot : ∀ set < g.numSets, ∀ w < g.associativity,
      (set * g.associativity + w) *
        2 ^ (g.pageSizeBits - 12) < 2 ^ 32 := by
    intro set hSet w hW
    refine lt_of_lt_of_le ?_ hFit
    apply Nat.mul_lt_mul_of_pos_right _ hPos
    calc
      set * g.associativity + w <
          set * g.associativity + g.associativity := by omega
      _ = (set + 1) * g.associativity := by
        rw [Nat.succ_mul]
      _ ≤ g.numSets * g.associativity :=
        Nat.mul_le_mul_right _ hSet
  have hLess := hSlot _ (Geometry.setOf_lt hSets
    (g.vpn address)) way hWay
  have hLess' := hSlot _ (Geometry.setOf_lt hSets
    (g.vpn address')) way' hWay'
  unfold Geometry.calculatePPNFromWay Geometry.splitAddress
    at hEq
  simp only at hEq
  rw [Nat.mod_eq_of_lt hLess, Nat.mod_eq_of_lt hLess'] at hEq
  have hSame :
      (g.setOf (g.vpn address) * g.associativity + way) *
          2 ^ (g.pageSizeBits - 12) =
        (g.setOf (g.vpn address') * g.associativity + way') *
          2 ^ (g.pageSizeBits - 12) := by
    omega
  have hSlots := Nat.eq_of_mul_eq_mul_right hPos hSame
  have hWays : way = way' := by
    have hMod := congrArg (fun n => n % g.associativity) hSlots
    simpa [Nat.mul_add_mod_self_right, Nat.mod_eq_of_lt hWay,
      Nat.mod_eq_of_lt hWay'] using hMod
  refine ⟨?_, hWays⟩
  subst hWays
  exact Nat.eq_of_mul_eq_mul_right
    (Nat.zero_lt_of_lt hWay) (by omega)

/- Pages with different tags or sets are in other slots. -/
theorem Shaped.apart
    (hShaped : Shaped g r)
    (hSets : 0 < g.numSets)
    (hInjective : SplitInjective g)
    (hFit : CountsFit g) :
    r.Apart := by
  intro address hAddress address' hAddress' app ppn hAt hAt'
  have hGeometry := hShaped.1
  unfold calculatePhysicalAddress lookupWay at hAt hAt'
  rw [hGeometry] at hAt hAt' ⊢
  rw [Option.map_eq_some_iff] at hAt hAt'
  rcases hAt with ⟨way, hFind, hPpn⟩
  rcases hAt' with ⟨way', hFind', hPpn'⟩
  have hHolds := holds_of_findEntry hFind
  have hHolds' := holds_of_findEntry hFind'
  have hInside := hHolds.1
  have hInside' := hHolds'.1
  rw [hShaped.2] at hInside hInside'
  rcases slot_inj hFit hSets hInside hInside'
      (hPpn.trans hPpn'.symm) with
    ⟨hSet, hWay⟩
  simp only [Geometry.splitAddress] at hHolds hHolds'
  rw [← hSet, ← hWay] at hHolds'
  exact hInjective _ (Geometry.vpn_lt g hAddress) _
    (Geometry.vpn_lt g hAddress') (hHolds'.eq hHolds).1
    hSet.symm

theorem splitInjective_of_foldsInside
    (hSets : 0 < g.numSets)
    (hWidth : g.numSets < 2 ^ 32)
    (hFolds : g.FoldsInside) :
    SplitInjective g := by
  have hAll := (Geometry.foldsInside_iff hSets hWidth).mp hFolds
  intro page hPage page' hPage' hTag hSet
  have hBound := Geometry.pow_le_pow_48 g
  exact Geometry.eq_of_tagOf_setOf hSets (hPage.trans_le hBound)
    (hPage'.trans_le hBound) (hAll page hPage)
    (hAll page' hPage') hTag hSet

end RestSeg

end Utopia

end Virtuoso
