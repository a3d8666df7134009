import Virtuoso.Utopia.Allocator.Outcomes

/-
  The lookup paths of `mmu_utopia.cc` through the restricted
  segments.

  `RestSegWalk` looks an address up in the tags or in the
  radix way tables, in one segment, in two of them one after
  the other, or in all of them at once. Which of the orders
  is taken depends on the hit rates, so the order is given.
  A hit yields the page size in bits and the physical page.
  Latencies, caches, statistics and speculation are left out.

  All paths have one meaning: the first segment of a list
  that has the page.

  Main declarations:
    * `Utopia.Allocator.restSegWalk_eq`
    * `Utopia.Allocator.functionalRSWLookup_eq`
-/

------------------------------------------------------------
-- The Translation Of The Segments
------------------------------------------------------------

namespace Virtuoso

namespace Utopia

/-
  How `RestSegWalk` works: with the radix way tables or the
  tags, and, with two segments, the segment that is looked at
  first, or nothing if both are looked at.
-/
structure WalkMode where
  radixLookupEnabled : Bool
  firstRestSeg : Option Nat
deriving DecidableEq

/-
  The answer of an access of a walk to a segment, with the
  radix way table or with the tags. An access touches no more
  than the order of use.
-/
def RestSeg.access
    (r : RestSeg)
    (radixLookupEnabled : Bool)
    (address app : Nat) :
    Option (Nat × Nat) :=
  if radixLookupEnabled then
    (r.lookupWayRadix address app).1.map (fun way =>
      (r.geometry.pageSizeBits,
        r.geometry.calculatePPNFromWay address way))
  else if (r.inRestSeg address app).1 then
    some (r.geometry.pageSizeBits,
      (r.calculatePhysicalAddress address app).getD invalidPpn)
  else
    none

namespace Allocator

/- The lambda `accessRestSeg`. -/
def accessRestSeg
    (a : Allocator)
    (size : PageSize)
    (r : RestSeg)
    (address app : Nat) :
    Option (Nat × Nat) × Allocator :=
  match r.inRestSeg address app with
  | (false, r') => (none, a.setRestSeg size r')
  | (true, r') =>
      (some (r'.geometry.pageSizeBits,
          (r'.calculatePhysicalAddress address app).getD
            invalidPpn),
        a.setRestSeg size r')

/- The lambda `accessRestSegRadix`. -/
def accessRestSegRadix
    (a : Allocator)
    (size : PageSize)
    (r : RestSeg)
    (address app : Nat) :
    Option (Nat × Nat) × Allocator :=
  match r.lookupWayRadix address app with
  | (none, r') => (none, a.setRestSeg size r')
  | (some way, r') =>
      (some (r'.geometry.pageSizeBits,
          r'.geometry.calculatePPNFromWay address way),
        a.setRestSeg size (r'.touchWayLRU address way))

/- The lambda `accessRestSegDispatch`. -/
def accessRestSegDispatch
    (a : Allocator)
    (radixLookupEnabled : Bool)
    (address app : Nat)
    (size : PageSize) :
    Option (Nat × Nat) × Allocator :=
  match a.restSegs size with
  | none => (none, a)
  | some r =>
      if radixLookupEnabled then
        a.accessRestSegRadix size r address app
      else
        a.accessRestSeg size r address app

/- Segments one after the other, until one of them hits. -/
def accessInTurn
    (radixLookupEnabled : Bool)
    (address app : Nat) :
    List PageSize → Allocator → Option (Nat × Nat) × Allocator
| [], a => (none, a)
| size :: sizes, a =>
    match a.accessRestSegDispatch radixLookupEnabled address
        app size with
    | (some hit, a') => (some hit, a')
    | (none, a') =>
        accessInTurn radixLookupEnabled address app sizes a'

/- All segments, of which the first one that hits counts. -/
def accessAll
    (radixLookupEnabled : Bool)
    (address app : Nat) :
    List PageSize → Allocator → Option (Nat × Nat) × Allocator
| [], a => (none, a)
| size :: sizes, a =>
    let first := a.accessRestSegDispatch radixLookupEnabled
      address app size
    let rest := accessAll radixLookupEnabled address app sizes
      first.2
    (first.1.or rest.1, rest.2)

/- The segments in the order of a walk. -/
def walkOrder
    (a : Allocator)
    (mode : WalkMode) :
    List PageSize :=
  match mode.firstRestSeg with
  | some 1 => a.order.reverse
  | _ => a.order

/- `MemoryManagementUnitUtopia::RestSegWalk`. -/
def restSegWalk
    (a : Allocator)
    (mode : WalkMode)
    (address app : Nat) :
    Option (Nat × Nat) × Allocator :=
  if a.order.length = 1 ∨ mode.firstRestSeg.isSome then
    accessInTurn mode.radixLookupEnabled address app
      (a.walkOrder mode) a
  else
    accessAll mode.radixLookupEnabled address app a.order a

/-
  The loop of `functionalRSWLookup`. The page number is
  divided by the page size, although it is no address.
-/
def functionalFrom
    (address app : Nat) :
    List PageSize → Allocator → Option (Nat × Nat) × Allocator
| [], a => (none, a)
| size :: sizes, a =>
    match a.restSegs size with
    | none => functionalFrom address app sizes a
    | some r =>
        match r.inRestSeg address app with
        | (true, r') =>
            (some (r'.geometry.pageSizeBits,
                (r'.calculatePhysicalAddress address app).getD
                  invalidPpn / 4096),
              a.setRestSeg size r')
        | (false, r') =>
            functionalFrom address app sizes (a.setRestSeg size r')

/- `MemoryManagementUnitUtopia::functionalRSWLookup`. -/
def functionalRSWLookup
    (a : Allocator)
    (address app : Nat) :
    Option (Nat × Nat) × Allocator :=
  functionalFrom address app a.order a

/- The page in the first segment of a list that has it. -/
def translationIn
    (a : Allocator)
    (address app : Nat)
    (sizes : List PageSize) :
    Option (Nat × Nat) :=
  sizes.findSome? (fun size =>
    (a.restSegPpn size address app).map
      (fun ppn => (size.bits, ppn)))

end Allocator

namespace RestSegSet

variable {s s' : RestSegSet}

theorem Same.findEntry_eq
    (hSame : s.Same s')
    (tag owner : Nat) :
    s'.findEntry tag owner = s.findEntry tag owner := by
  unfold findEntry
  rw [hSame.associativity]
  apply List.find?_congr
  intro i hMem
  have hHolds := hSame.holds i tag owner
  unfold Holds at hHolds
  rw [hSame.associativity] at hHolds
  have hLess := List.mem_range.mp hMem
  rw [Bool.eq_iff_iff]
  exact ⟨fun hMatch => (hHolds.mp ⟨hLess, hMatch⟩).2,
    fun hMatch => (hHolds.mpr ⟨hLess, hMatch⟩).2⟩

theorem Same.trans
    {s'' : RestSegSet}
    (hFirst : s.Same s')
    (hSecond : s'.Same s'') :
    s.Same s'' :=
  ⟨hSecond.associativity.trans hFirst.associativity,
    fun way => (hSecond.valid way).trans (hFirst.valid way),
    fun way tag owner => (hSecond.holds way tag owner).trans
      (hFirst.holds way tag owner)⟩

end RestSegSet

namespace RestSeg

variable {r r' r'' : RestSeg}

/- Two segments have the same entries. -/
structure SameTags (r r' : RestSeg) : Prop where
  geometry : r'.geometry = r.geometry
  sets : ∀ i, (r.sets i).Same (r'.sets i)

theorem SameTags.refl
    (r : RestSeg) :
    r.SameTags r :=
  ⟨rfl, fun _ => RestSegSet.Same.refl _⟩

theorem SameTags.trans
    (hFirst : r.SameTags r')
    (hSecond : r'.SameTags r'') :
    r.SameTags r'' :=
  ⟨hSecond.geometry.trans hFirst.geometry,
    fun i => (hFirst.sets i).trans (hSecond.sets i)⟩

theorem SameTags.calculatePhysicalAddress_eq
    (hSame : r.SameTags r')
    (address app : Nat) :
    r'.calculatePhysicalAddress address app =
      r.calculatePhysicalAddress address app := by
  unfold calculatePhysicalAddress lookupWay
  rw [hSame.geometry, (hSame.sets _).findEntry_eq]

theorem SameTags.steady
    (hSame : r.SameTags r') :
    r.Steady r' :=
  steady_of_same hSame.geometry hSame.sets

theorem sameTags_touch
    (r : RestSeg)
    (i way : Nat) :
    r.SameTags { r with
      sets := Function.update r.sets i
        ((r.sets i).touchEntry way) } :=
  ⟨rfl, same_update (RestSegSet.same_touchEntry _ way)⟩

theorem sameTags_inRestSeg
    (r : RestSeg)
    (address app : Nat) :
    r.SameTags (r.inRestSeg address app).2 := by
  unfold inRestSeg
  simp only
  split
  · exact SameTags.refl r
  · exact sameTags_touch r _ _

theorem sameTags_lookupWayRadix
    (r : RestSeg)
    (address app : Nat) :
    r.SameTags (r.lookupWayRadix address app).2 :=
  ⟨rfl, fun _ => RestSegSet.Same.refl _⟩

/- A page is found where it has a physical page. -/
theorem calculatePhysicalAddress_isSome_iff
    (r : RestSeg)
    (address app : Nat) :
    (r.calculatePhysicalAddress address app).isSome = true ↔
      r.Held (r.geometry.vpn address) app := by
  rw [← lookupWay_isSome_iff]
  unfold calculatePhysicalAddress
  rw [Option.isSome_map]

/- The tags answer with the physical page. -/
theorem access_tags
    (r : RestSeg)
    (address app : Nat) :
    r.access false address app =
      (r.calculatePhysicalAddress address app).map
        (fun ppn => (r.geometry.pageSizeBits, ppn)) := by
  have hFound := inRestSeg_fst_iff r address app
  rw [← calculatePhysicalAddress_isSome_iff] at hFound
  unfold access
  rw [if_neg Bool.false_ne_true]
  split_ifs with hHit
  · rcases Option.isSome_iff_exists.mp (hFound.mp hHit) with
      ⟨ppn, hPpn⟩
    rw [hPpn]
    rfl
  · rw [hFound, Option.not_isSome_iff_eq_none] at hHit
    rw [hHit]
    rfl

/- The radix way table of a segment answers like the tags. -/
theorem Inv.access_eq
    (hInv : r.Inv)
    {address : Nat}
    (hAddress : address < 2 ^ 48)
    (app : Nat)
    (radix : Bool) :
    r.access radix address app =
      (r.calculatePhysicalAddress address app).map
        (fun ppn => (r.geometry.pageSizeBits, ppn)) := by
  cases radix with
  | false => exact access_tags r address app
  | true =>
      have hAgrees := hInv.radixAgrees hAddress app
      unfold RadixAgrees at hAgrees
      unfold access
      rw [if_pos rfl]
      cases hFound : (r.lookupWayRadix address app).1 with
      | some way =>
          rw [(hAgrees way).2 hFound]
          rfl
      | none =>
          have hNone : r.calculatePhysicalAddress address app =
              none := by
            unfold calculatePhysicalAddress
            rw [Option.map_eq_none_iff,
              Option.eq_none_iff_forall_not_mem]
            intro way hWay
            have hBack := ((hAgrees way).1).mpr hWay
            rw [hFound] at hBack
            cases hBack
          rw [hNone]
          rfl

end RestSeg

namespace Allocator

variable {a a' a'' : Allocator}

/- The segments of two allocators have the same entries. -/
structure SameTags (a a' : Allocator) : Prop where
  order : a'.order = a.order
  segs : ∀ size, Option.Rel RestSeg.SameTags (a.restSegs size)
    (a'.restSegs size)

theorem SameTags.refl
    (a : Allocator) :
    a.SameTags a := by
  refine ⟨rfl, fun size => ?_⟩
  cases a.restSegs size with
  | none => exact .none
  | some r => exact .some (RestSeg.SameTags.refl r)

theorem SameTags.trans
    (hFirst : a.SameTags a')
    (hSecond : a'.SameTags a'') :
    a.SameTags a'' := by
  refine ⟨hSecond.order.trans hFirst.order, fun size => ?_⟩
  have hOne := hFirst.segs size
  have hTwo := hSecond.segs size
  generalize a.restSegs size = x at hOne
  generalize a'.restSegs size = y at hOne hTwo
  generalize a''.restSegs size = z at hTwo
  cases hOne with
  | none =>
      cases hTwo with
      | none => exact .none
  | some hSame =>
      cases hTwo with
      | some hSame' => exact .some (hSame.trans hSame')

theorem SameTags.restSegPpn_eq
    (hSame : a.SameTags a')
    (size : PageSize)
    (address app : Nat) :
    a'.restSegPpn size address app =
      a.restSegPpn size address app := by
  unfold restSegPpn
  have hRel := hSame.segs size
  generalize a.restSegs size = x at hRel
  generalize a'.restSegs size = y at hRel
  cases hRel with
  | none => rfl
  | some hBoth =>
      exact hBoth.calculatePhysicalAddress_eq address app

theorem SameTags.translationIn_eq
    (hSame : a.SameTags a')
    (address app : Nat)
    (sizes : List PageSize) :
    a'.translationIn address app sizes =
      a.translationIn address app sizes := by
  unfold translationIn
  simp only [hSame.restSegPpn_eq]

theorem sameTags_setRestSeg
    {size : PageSize}
    {r r' : RestSeg}
    (hSeg : a.restSegs size = some r)
    (hSame : r.SameTags r') :
    a.SameTags (a.setRestSeg size r') := by
  refine ⟨rfl, fun size' => ?_⟩
  by_cases hEq : size' = size
  · rw [hEq, setRestSeg_self, hSeg]
    exact .some hSame
  · rw [setRestSeg_of_ne a r' hEq]
    exact (SameTags.refl a).segs size'

/- Same entries, same pages. -/
theorem SameTags.steady
    (hSame : a.SameTags a') :
    a.Steady a' := by
  have hRel : ∀ size, Option.Rel RestSeg.Steady
      (a.restSegs size) (a'.restSegs size) := by
    intro size
    have hSegs := hSame.segs size
    generalize a.restSegs size = x at hSegs
    generalize a'.restSegs size = y at hSegs
    cases hSegs with
    | none => exact .none
    | some hBoth => exact .some hBoth.steady
  refine ⟨⟨hSame.order, fun size => ?_⟩, ?_, ?_⟩
  · have hSegs := hRel size
    generalize a.restSegs size = x at hSegs
    generalize a'.restSegs size = y at hSegs
    cases hSegs with
    | none => exact .none
    | some hBoth => exact .some hBoth.toKeeps
  · intro size page app
    unfold Resident
    have hSegs := hRel size
    generalize a.restSegs size = x at hSegs
    generalize a'.restSegs size = y at hSegs
    cases hSegs with
    | none => simp
    | some hBoth => simp [hBoth.held]
  · intro size page hFull
    unfold FullAt at hFull ⊢
    have hSegs := hRel size
    generalize a.restSegs size = x at hSegs hFull ⊢
    generalize a'.restSegs size = y at hSegs hFull
    cases hSegs with
    | none => exact fun r hNone => by cases hNone
    | some hBoth =>
        intro r hSome
        cases hSome
        have hNew := hFull _ rfl
        unfold RestSeg.FullAt at hNew ⊢
        rw [hBoth.geometry] at hNew
        exact hBoth.full_old _ hNew

------------------------------------------------------------
-- The Meaning Of The Paths
------------------------------------------------------------

/- The segments whose radix way tables name the ways. -/
def RadixSound (a : Allocator) : Prop :=
  ∀ size r, a.restSegs size = some r → r.Inv

theorem RadixSound.setRestSeg
    (hRadix : a.RadixSound)
    (size : PageSize)
    {r : RestSeg}
    (hInv : r.Inv) :
    (a.setRestSeg size r).RadixSound := by
  intro size' r' hSeg
  by_cases hEq : size' = size
  · rw [hEq, setRestSeg_self, Option.some.injEq] at hSeg
    exact hSeg ▸ hInv
  · rw [setRestSeg_of_ne a r hEq] at hSeg
    exact hRadix size' r' hSeg

theorem restSegPpn_of_seg
    {size : PageSize}
    {r : RestSeg}
    (hSeg : a.restSegs size = some r)
    (address app : Nat) :
    a.restSegPpn size address app =
      r.calculatePhysicalAddress address app := by
  unfold restSegPpn
  rw [hSeg, Option.bind_some]

theorem restSegPpn_isSome_iff
    (hForm : a.Form)
    (size : PageSize)
    (address app : Nat) :
    (a.restSegPpn size address app).isSome = true ↔
      a.Resident size (address / 2 ^ 12) app := by
  unfold Resident
  cases hSeg : a.restSegs size with
  | none => simp [restSegPpn, hSeg]
  | some r =>
      rw [restSegPpn_of_seg hSeg,
        RestSeg.calculatePhysicalAddress_isSome_iff,
        hForm.vpn_eq hSeg]
      simp

/- An access leaves the entries. -/
theorem sameTags_accessRestSegDispatch
    (a : Allocator)
    (radix : Bool)
    (address app : Nat)
    (size : PageSize) :
    a.SameTags
      (a.accessRestSegDispatch radix address app size).2 := by
  unfold accessRestSegDispatch
  cases hSeg : a.restSegs size with
  | none => exact SameTags.refl a
  | some r =>
      simp only
      split_ifs
      · have hSame :=
          RestSeg.sameTags_lookupWayRadix r address app
        unfold accessRestSegRadix
        generalize r.lookupWayRadix address app = result at hSame ⊢
        rcases result with ⟨found, r'⟩
        cases found with
        | none => exact sameTags_setRestSeg hSeg hSame
        | some way =>
            exact sameTags_setRestSeg hSeg (hSame.trans
              (RestSeg.sameTags_touch r' _ way))
      · have hSame := RestSeg.sameTags_inRestSeg r address app
        unfold accessRestSeg
        generalize r.inRestSeg address app = result at hSame ⊢
        rcases result with ⟨found, r'⟩
        cases found with
        | false => exact sameTags_setRestSeg hSeg hSame
        | true => exact sameTags_setRestSeg hSeg hSame

variable {radix : Bool}

/- The allocator answers with the access of the segment. -/
theorem accessRestSegDispatch_fst
    (a : Allocator)
    (radix : Bool)
    (address app : Nat)
    (size : PageSize) :
    (a.accessRestSegDispatch radix address app size).1 =
      (a.restSegs size).bind
        (fun r => r.access radix address app) := by
  unfold accessRestSegDispatch
  cases a.restSegs size with
  | none => rfl
  | some r =>
      rw [Option.bind_some]
      unfold RestSeg.access
      cases radix with
      | false =>
          have hSame := RestSeg.sameTags_inRestSeg r address app
          simp only [Bool.false_eq_true, if_false, accessRestSeg]
          generalize r.inRestSeg address app = result at hSame ⊢
          rcases result with ⟨found, r'⟩
          change r.SameTags r' at hSame
          cases found with
          | false => rfl
          | true =>
              simp only [hSame.geometry,
                hSame.calculatePhysicalAddress_eq, if_true]
      | true =>
          have hSame :=
            RestSeg.sameTags_lookupWayRadix r address app
          simp only [if_true, accessRestSegRadix]
          generalize r.lookupWayRadix address app = result
            at hSame ⊢
          rcases result with ⟨found, r'⟩
          change r.SameTags r' at hSame
          cases found with
          | none => rfl
          | some way => simp only [hSame.geometry,
              Option.map_some]

/- One access yields the page of the segment. -/
theorem accessRestSegDispatch_eq
    (hForm : a.Form)
    (hRadix : radix = true → a.RadixSound)
    {address : Nat}
    (hAddress : address < 2 ^ 48)
    (app : Nat)
    (size : PageSize) :
    (a.accessRestSegDispatch radix address app size).1 =
        (a.restSegPpn size address app).map
          (fun ppn => (size.bits, ppn)) ∧
      (radix = true → (a.accessRestSegDispatch radix address
        app size).2.RadixSound) := by
  rw [accessRestSegDispatch_fst]
  cases hSeg : a.restSegs size with
  | none =>
      refine ⟨by simp [restSegPpn, hSeg], ?_⟩
      unfold accessRestSegDispatch
      rw [hSeg]
      exact hRadix
  | some r =>
      rw [restSegPpn_of_seg hSeg, Option.bind_some,
        ← hForm.pageSize size r hSeg]
      cases radix with
      | false =>
          exact ⟨RestSeg.access_tags r address app,
            fun hFalse => by cases hFalse⟩
      | true =>
          have hInv := hRadix rfl size r hSeg
          refine ⟨hInv.access_eq hAddress app true, fun _ => ?_⟩
          have hStep : r.step (.lookupWayRadix address app) =
              some (r.lookupWayRadix address app).2 := rfl
          have hNext : (r.lookupWayRadix address app).2.Inv :=
            by
              refine RestSeg.inv_step hInv ?_ hStep
              exact hAddress
          clear hStep
          unfold accessRestSegDispatch
          rw [hSeg]
          simp only [if_true, accessRestSegRadix]
          generalize r.lookupWayRadix address app = result
            at hNext ⊢
          rcases result with ⟨found, r'⟩
          cases found with
          | none => exact (hRadix rfl).setRestSeg size hNext
          | some way =>
              exact (hRadix rfl).setRestSeg size (hNext.touch _ way)

/- A segment without the page is passed over. -/
theorem translationIn_cons
    (a : Allocator)
    (address app : Nat)
    (size : PageSize)
    (sizes : List PageSize) :
    a.translationIn address app (size :: sizes) =
      ((a.restSegPpn size address app).map
        (fun ppn => (size.bits, ppn))).or
          (a.translationIn address app sizes) := by
  unfold translationIn
  rw [List.findSome?_cons]
  cases a.restSegPpn size address app with
  | none => rfl
  | some ppn => rfl

section Relations

variable {R : Allocator → Allocator → Prop} {radix : Bool}
variable {address app : Nat}

theorem accessInTurn_rel
    (hRefl : ∀ a, R a a)
    (hTrans : ∀ a a' a'', R a a' → R a' a'' → R a a'')
    (hAccess : ∀ a size,
      R a (a.accessRestSegDispatch radix address app size).2)
    (a : Allocator)
    (sizes : List PageSize) :
    R a (accessInTurn radix address app sizes a).2 := by
  induction sizes generalizing a with
  | nil => exact hRefl a
  | cons size sizes ih =>
      have hFirst := hAccess a size
      rw [accessInTurn]
      generalize a.accessRestSegDispatch radix address app size
        = result at hFirst
      rcases result with ⟨found, a'⟩
      cases found with
      | some hit => exact hFirst
      | none => exact hTrans a a' _ hFirst (ih a')

theorem accessAll_rel
    (hRefl : ∀ a, R a a)
    (hTrans : ∀ a a' a'', R a a' → R a' a'' → R a a'')
    (hAccess : ∀ a size,
      R a (a.accessRestSegDispatch radix address app size).2)
    (a : Allocator)
    (sizes : List PageSize) :
    R a (accessAll radix address app sizes a).2 := by
  induction sizes generalizing a with
  | nil => exact hRefl a
  | cons size sizes ih =>
      exact hTrans _ _ _ (hAccess a size) (ih _)

/- What each access keeps, a walk keeps. -/
theorem restSegWalk_rel
    {mode : WalkMode}
    (hRefl : ∀ a, R a a)
    (hTrans : ∀ a a' a'', R a a' → R a' a'' → R a a'')
    (hAccess : ∀ a size,
      R a (a.accessRestSegDispatch mode.radixLookupEnabled
        address app size).2)
    (a : Allocator) :
    R a (a.restSegWalk mode address app).2 := by
  unfold restSegWalk
  split_ifs
  · exact accessInTurn_rel hRefl hTrans hAccess a _
  · exact accessAll_rel hRefl hTrans hAccess a _

end Relations

/- A walk leaves the entries. -/
theorem sameTags_restSegWalk
    (a : Allocator)
    (mode : WalkMode)
    (address app : Nat) :
    a.SameTags (a.restSegWalk mode address app).2 :=
  restSegWalk_rel SameTags.refl
    (fun _ _ _ hFirst hSecond => hFirst.trans hSecond)
    (fun a size => sameTags_accessRestSegDispatch a _ address
      app size) a

theorem sameFlexSeg_accessRestSegDispatch
    (a : Allocator)
    (radix : Bool)
    (address app : Nat)
    (size : PageSize) :
    a.SameFlexSeg
      (a.accessRestSegDispatch radix address app size).2 := by
  unfold accessRestSegDispatch accessRestSegRadix accessRestSeg
  split
  · exact SameFlexSeg.refl a
  · split_ifs
    · split
      · exact ⟨rfl, rfl, rfl, rfl⟩
      · exact ⟨rfl, rfl, rfl, rfl⟩
    · split
      · exact ⟨rfl, rfl, rfl, rfl⟩
      · exact ⟨rfl, rfl, rfl, rfl⟩

theorem sameFlexSeg_restSegWalk
    (a : Allocator)
    (mode : WalkMode)
    (address app : Nat) :
    a.SameFlexSeg (a.restSegWalk mode address app).2 :=
  restSegWalk_rel SameFlexSeg.refl
    (fun _ _ _ hFirst hSecond => hFirst.trans hSecond)
    (fun a size => sameFlexSeg_accessRestSegDispatch a _
      address app size) a

theorem accessInTurn_eq
    (hForm : a.Form)
    (hRadix : radix = true → a.RadixSound)
    {address : Nat}
    (hAddress : address < 2 ^ 48)
    (app : Nat)
    (sizes : List PageSize) :
    (accessInTurn radix address app sizes a).1 =
      a.translationIn address app sizes := by
  induction sizes generalizing a with
  | nil => rfl
  | cons size sizes ih =>
      rcases accessRestSegDispatch_eq hForm hRadix hAddress app
          size with ⟨hFirst, hNext⟩
      have hSame := sameTags_accessRestSegDispatch a radix
        address app size
      rw [accessInTurn, translationIn_cons, ← hFirst]
      generalize a.accessRestSegDispatch radix address app size
        = result at hSame hNext
      rcases result with ⟨found, a'⟩
      cases found with
      | some hit => rfl
      | none =>
          rw [← hSame.translationIn_eq]
          exact ih (hSame.steady.toKeeps.form hForm) hNext

theorem accessAll_eq
    (hForm : a.Form)
    (hRadix : radix = true → a.RadixSound)
    {address : Nat}
    (hAddress : address < 2 ^ 48)
    (app : Nat)
    (sizes : List PageSize) :
    (accessAll radix address app sizes a).1 =
      a.translationIn address app sizes := by
  induction sizes generalizing a with
  | nil => rfl
  | cons size sizes ih =>
      rcases accessRestSegDispatch_eq hForm hRadix hAddress app
          size with ⟨hFirst, hNext⟩
      have hSame := sameTags_accessRestSegDispatch a radix
        address app size
      rw [accessAll, translationIn_cons, ← hFirst,
        ← hSame.translationIn_eq]
      simp only [ih (hSame.steady.toKeeps.form hForm) hNext]

/- A walk finds the first segment of its order. -/
theorem restSegWalk_eq
    (hForm : a.Form)
    {mode : WalkMode}
    (hRadix : mode.radixLookupEnabled = true → a.RadixSound)
    {address : Nat}
    (hAddress : address < 2 ^ 48)
    (app : Nat) :
    (a.restSegWalk mode address app).1 =
      a.translationIn address app (a.walkOrder mode) := by
  unfold restSegWalk
  split_ifs with hTurn
  · exact accessInTurn_eq hForm hRadix hAddress app _
  · have hOrder : a.walkOrder mode = a.order := by
      unfold walkOrder
      cases hFirst : mode.firstRestSeg with
      | none => rfl
      | some first => simp [hFirst] at hTurn
    rw [hOrder]
    exact accessAll_eq hForm hRadix hAddress app _

/- The functional lookup divides the page number. -/
theorem functionalFrom_eq
    (hForm : a.Form)
    (address app : Nat)
    (sizes : List PageSize) :
    (functionalFrom address app sizes a).1 =
      (a.translationIn address app sizes).map
        (fun hit => (hit.1, hit.2 / 4096)) := by
  induction sizes generalizing a with
  | nil => rfl
  | cons size sizes ih =>
      rw [functionalFrom, translationIn_cons]
      cases hSeg : a.restSegs size with
      | none =>
          simp only [ih hForm]
          have hNone : a.restSegPpn size address app = none := by
            simp [restSegPpn, hSeg]
          rw [hNone]
          rfl
      | some r =>
          have hBits := hForm.pageSize size r hSeg
          have hSame :=
            RestSeg.sameTags_inRestSeg r address app
          have hFound := RestSeg.inRestSeg_fst_iff r address app
          rw [← RestSeg.calculatePhysicalAddress_isSome_iff]
            at hFound
          rw [restSegPpn_of_seg hSeg]
          simp only
          generalize r.inRestSeg address app = result
            at hSame hFound ⊢
          rcases result with ⟨found, r'⟩
          change r.SameTags r' at hSame
          have hSteady := sameTags_setRestSeg hSeg hSame
          cases found with
          | false =>
              have hNone :
                  r.calculatePhysicalAddress address app =
                    none := by
                simpa using hFound
              simp only [hNone, Option.map_none, Option.none_or]
              rw [ih (hSteady.steady.toKeeps.form hForm),
                hSteady.translationIn_eq]
          | true =>
              rcases Option.isSome_iff_exists.mp
                  (hFound.mp rfl) with ⟨ppn, hPpn⟩
              simp only [hSame.geometry, hBits,
                hSame.calculatePhysicalAddress_eq, hPpn,
                Option.getD_some, Option.map_some,
                Option.some_or]

theorem functionalRSWLookup_eq
    (hForm : a.Form)
    (address app : Nat) :
    (a.functionalRSWLookup address app).1 =
      (a.translationIn address app a.order).map
        (fun hit => (hit.1, hit.2 / 4096)) :=
  functionalFrom_eq hForm address app a.order

/- The lookups miss the pages that are in no segment. -/
theorem translationIn_eq_none_iff
    (hForm : a.Form)
    (address app : Nat)
    (sizes : List PageSize) :
    a.translationIn address app sizes = none ↔
      ∀ size ∈ sizes, ¬ a.Resident size (address / 2 ^ 12) app := by
  unfold translationIn
  rw [List.findSome?_eq_none_iff]
  apply forall₂_congr
  intro size _
  rw [← restSegPpn_isSome_iff hForm]
  simp

/- A page that is in one segment only is found there. -/
theorem translationIn_of_only
    (hForm : a.Form)
    {size : PageSize}
    {address app : Nat}
    (hOnly : ∀ size', size' ≠ size →
      ¬ a.Resident size' (address / 2 ^ 12) app)
    {ppn : Nat}
    (hPpn : a.restSegPpn size address app = some ppn)
    {sizes : List PageSize}
    (hMem : size ∈ sizes) :
    a.translationIn address app sizes = some (size.bits, ppn) := by
  induction sizes with
  | nil => cases hMem
  | cons other sizes ih =>
      rw [translationIn_cons]
      by_cases hEq : other = size
      · rw [hEq, hPpn]
        rfl
      · have hNone : a.restSegPpn other address app = none := by
          have hNot := hOnly other hEq
          rw [← restSegPpn_isSome_iff hForm] at hNot
          simpa using hNot
        have hTail : size ∈ sizes := by
          rcases List.mem_cons.mp hMem with hSame | hTail
          · exact absurd hSame.symm hEq
          · exact hTail
        rw [hNone, ih hTail]
        rfl

/- A page is where its address is. -/
theorem restSegPpn_page
    (hForm : a.Form)
    (size : PageSize)
    (address app : Nat) :
    a.restSegPpn size (address / 2 ^ 12 * 2 ^ 12) app =
      a.restSegPpn size address app := by
  cases hSeg : a.restSegs size with
  | none => simp [restSegPpn, hSeg]
  | some r =>
      rw [restSegPpn_of_seg hSeg, restSegPpn_of_seg hSeg]
      have hVpn : r.geometry.vpn (address / 2 ^ 12 * 2 ^ 12) =
          r.geometry.vpn address := by
        rw [hForm.vpn_eq hSeg, hForm.vpn_eq hSeg,
          Nat.mul_div_cancel _ (by decide)]
      unfold RestSeg.calculatePhysicalAddress RestSeg.lookupWay
        Geometry.calculatePPNFromWay Geometry.splitAddress
      rw [hVpn]

theorem mem_walkOrder_iff
    (a : Allocator)
    (mode : WalkMode)
    (size : PageSize) :
    size ∈ a.walkOrder mode ↔ size ∈ a.order := by
  unfold walkOrder
  split
  · exact List.mem_reverse
  · rfl

end Allocator

end Utopia

end Virtuoso
