import Virtuoso.Utopia.Coalesce.Steps

/-
  What all segments of a run have, and what a walk through
  the segments answers.

  A walk of a segment reads the ways of its two tables and
  changes none of them, so that the walk of an allocator is
  the first answer in its order.

  Main declarations:
    * `Utopia.RestSegCoalesce.coalesces_coalesce`
    * `Utopia.HashCoalesce.restSegWalk_eq`
-/

------------------------------------------------------------
-- Segments In A Run
------------------------------------------------------------

namespace Virtuoso

namespace Utopia

namespace RestSegCoalesce

variable {c c' : RestSegCoalesce} {address app way : Nat}

@[simp] theorem geometry_allocate
    (c : RestSegCoalesce)
    (address app : Nat)
    (forceEvict : Bool) :
    (c.allocate address app forceEvict).2.geometry =
      c.geometry := by
  have hAllocates := allocates_allocate c address app forceEvict
  generalize c.allocate address app forceEvict = result
    at hAllocates ⊢
  cases hAllocates with
  | same _ _ hReplaces => exact hReplaces.geometry
  | free _ _ _ hReplaces => exact hReplaces.geometry
  | evict _ _ _ _ _ _ hReplaces => exact hReplaces.geometry

@[simp] theorem tables_allocate
    (c : RestSegCoalesce)
    (address app : Nat)
    (forceEvict : Bool) :
    (c.allocate address app forceEvict).2.radixWayTables2mb =
      c.radixWayTables2mb := by
  have hAllocates := allocates_allocate c address app forceEvict
  generalize c.allocate address app forceEvict = result
    at hAllocates ⊢
  cases hAllocates with
  | same _ _ hReplaces => exact hReplaces.tables
  | free _ _ _ hReplaces => exact hReplaces.tables
  | evict _ _ _ _ _ _ hReplaces => exact hReplaces.tables

@[simp] theorem geometry_inRestSeg
    (c : RestSegCoalesce)
    (address app : Nat) :
    (c.inRestSeg address app).2.geometry = c.geometry :=
  (RestSeg.sameTags_inRestSeg c.toRestSeg address app).geometry

/- A region is looked up, and coalesced if a way is free. -/
inductive Coalesces
    (c : RestSegCoalesce)
    (address app : Nat) :
    Bool × RestSegCoalesce → Prop
  | found {way : Nat} :
      c.radixWayTables2mb.way app (address / 2 ^ 21) = some way →
      Coalesces c address app
        (true, (c.lookupCoalesced2MBWay
          (alignedAddress address / 2 ^ 12) app).2)
  | refused :
      c.radixWayTables2mb.way app (address / 2 ^ 21) = none →
      c.findCommonFreeWay (alignedAddress address / 2 ^ 12) = none →
      Coalesces c address app
        (false, (c.lookupCoalesced2MBWay
          (alignedAddress address / 2 ^ 12) app).2)
  | coalesced {way : Nat} :
      c.radixWayTables2mb.way app (address / 2 ^ 21) = none →
      c.findCommonFreeWay (alignedAddress address / 2 ^ 12) =
        some way →
      Coalesces c address app
        (true, (c.lookupCoalesced2MBWay
          (alignedAddress address / 2 ^ 12)
            app).2.coalesceRegion (alignedAddress address) app way)

theorem region_alignedAddress
    (address : Nat) :
    alignedAddress address / 2 ^ 12 / 2 ^ 9 = address / 2 ^ 21 := by
  unfold alignedAddress
  omega

/- A search of the common way reads no table. -/
theorem findCommonFreeWay_lookup
    (c : RestSegCoalesce)
    (regionStartVpn app startVpn : Nat) :
    (c.lookupCoalesced2MBWay regionStartVpn
      app).2.findCommonFreeWay startVpn =
        c.findCommonFreeWay startVpn := by
  have hFrom : ∀ (pages : List Nat) (mask : BitVec 64),
      (c.lookupCoalesced2MBWay regionStartVpn
        app).2.commonFreeWayFrom startVpn pages mask =
          c.commonFreeWayFrom startVpn pages mask := by
    intro pages
    induction pages with
    | nil => exact fun _ => rfl
    | cons i pages ih =>
        intro mask
        unfold commonFreeWayFrom
        simp only [ih]
        rfl
  exact hFrom _ _

theorem coalesces_coalesce
    (c : RestSegCoalesce)
    (address app : Nat) :
    c.Coalesces address app (c.coalesce address app) := by
  have hWay : (c.lookupCoalesced2MBWay
      (alignedAddress address / 2 ^ 12) app).1 =
        c.radixWayTables2mb.way app (address / 2 ^ 21) := by
    unfold lookupCoalesced2MBWay
    rw [region_alignedAddress]
    rfl
  have hFree := findCommonFreeWay_lookup c
    (alignedAddress address / 2 ^ 12) app
    (alignedAddress address / 2 ^ 12)
  unfold coalesce
  simp only
  cases hLooked : c.lookupCoalesced2MBWay
      (alignedAddress address / 2 ^ 12) app with
  | mk found next =>
      have hNext : next = (c.lookupCoalesced2MBWay
          (alignedAddress address / 2 ^ 12) app).2 := by
        rw [hLooked]
      rw [hLooked] at hWay hFree
      simp only at hWay hFree
      cases found with
      | some way =>
          rw [hNext]
          exact .found hWay.symm
      | none =>
          simp only
          rw [hFree]
          cases hFind : c.findCommonFreeWay
              (alignedAddress address / 2 ^ 12) with
          | none =>
              rw [hNext]
              exact .refused hWay.symm hFind
          | some way =>
              rw [hNext]
              exact .coalesced hWay.symm hFind

@[simp] theorem geometry_setCoalesced2MBWay
    (c : RestSegCoalesce)
    (regionStartVpn app way : Nat) :
    (c.setCoalesced2MBWay regionStartVpn app way).geometry =
      c.geometry := rfl

@[simp] theorem sets_setCoalesced2MBWay
    (c : RestSegCoalesce)
    (regionStartVpn app way : Nat) :
    (c.setCoalesced2MBWay regionStartVpn app way).sets =
      c.sets := rfl

@[simp] theorem geometry_coalesceRegion
    (c : RestSegCoalesce)
    (aligned app way : Nat) :
    (c.coalesceRegion aligned app way).geometry = c.geometry := by
  unfold coalesceRegion
  rw [geometry_setCoalesced2MBWay]
  exact (kept_insertPages c aligned app way _).1

theorem tables_coalesceRegion
    (c : RestSegCoalesce)
    (address app way : Nat) :
    (c.coalesceRegion (alignedAddress address) app
        way).radixWayTables2mb =
      c.radixWayTables2mb.setMapping (address / 2 ^ 21) app
        way := by
  unfold coalesceRegion setCoalesced2MBWay
  simp only
  rw [(kept_insertPages c _ app way _).2.2, region_alignedAddress]

@[simp] theorem geometry_coalesce
    (c : RestSegCoalesce)
    (address app : Nat) :
    (c.coalesce address app).2.geometry = c.geometry := by
  have hCoalesces := coalesces_coalesce c address app
  generalize c.coalesce address app = result at hCoalesces ⊢
  cases hCoalesces with
  | found _ => rfl
  | refused _ _ => rfl
  | coalesced _ _ =>
      exact geometry_coalesceRegion _ _ _ _

/-
  What all segments of a run have: the page size of their
  place and, if their ways fit into a bitmap, clear bits for
  the ways in use and sound tables.
-/
structure Reached
    (size : PageSize)
    (c : RestSegCoalesce) : Prop where
  pageSize : c.geometry.pageSizeBits = size.bits
  synced : c.geometry.associativity ≤ 64 → c.Synced
  tables : c.geometry.associativity ≤ 64 → c.radixWayTables2mb.Sound
  ways : c.radixWayTables2mb.associativity =
    c.geometry.associativity
  nonzero : 0 < c.geometry.associativity

/- Few ways need few bits. -/
theorem reaches_of_le
    {n : Nat}
    (hWays : n ≤ 64) :
    RadixLeaf.Reaches (wayBitsOf n) := by
  left
  unfold wayBitsOf
  have hLog : Nat.log2 n ≤ 17 := by
    by_cases hZero : n = 0
    · rw [hZero]
      decide
    · have hPow : n < 2 ^ 17 := by omega
      exact ((Nat.log2_lt hZero).mpr hPow).le
  omega

theorem reached_of_fresh
    {size : PageSize}
    (hFresh : HashCoalesce.Fresh size c) :
    c.Reached size := by
  rcases hFresh with ⟨_, assoc, _, _, hConstruct⟩
  rcases Option.map_eq_some_iff.mp hConstruct with
    ⟨r, hSeg, hEq⟩
  rcases RestSeg.construct_eq_some hSeg with ⟨hFirst, hSets, _⟩
  rw [← hEq]
  refine ⟨?_, ?_, ?_, rfl, ?_⟩
  · change r.geometry.pageSizeBits = _
    rw [hFirst]
    rfl
  · intro hWays
    rw [hFirst] at hSets hWays ⊢
    exact synced_ofRestSeg hWays hSets
  · intro hWays
    exact RadixWayTableManager.sound_construct (by decide)
      (reaches_of_le hWays)
  · -- no ways would make no sets
    rw [hFirst] at hSets ⊢
    change 0 < assoc
    apply Nat.pos_of_ne_zero
    rintro rfl
    simp [RestSeg.fresh, RestSeg.numSetsOf] at hSets

theorem Reached.allocate
    {size : PageSize}
    (hReached : c.Reached size)
    (address app : Nat)
    (forceEvict : Bool) :
    (c.allocate address app forceEvict).2.Reached size := by
  refine ⟨?_, ?_, ?_, ?_, ?_⟩
  · rw [geometry_allocate]
    exact hReached.pageSize
  · intro hWays
    rw [geometry_allocate] at hWays
    exact (hReached.synced hWays).allocate address app _
  · intro hWays
    rw [geometry_allocate] at hWays
    rw [tables_allocate]
    exact hReached.tables hWays
  · rw [tables_allocate, geometry_allocate]
    exact hReached.ways
  · rw [geometry_allocate]
    exact hReached.nonzero

theorem Reached.inRestSeg
    {size : PageSize}
    (hReached : c.Reached size)
    (address app : Nat) :
    (c.inRestSeg address app).2.Reached size := by
  refine ⟨?_, ?_, ?_, ?_, ?_⟩
  · rw [geometry_inRestSeg]
    exact hReached.pageSize
  · intro hWays
    rw [geometry_inRestSeg] at hWays
    exact (hReached.synced hWays).inRestSeg address app
  · intro hWays
    rw [geometry_inRestSeg] at hWays
    exact hReached.tables hWays
  · rw [geometry_inRestSeg]
    exact hReached.ways
  · rw [geometry_inRestSeg]
    exact hReached.nonzero

theorem Reached.coalesce
    {size : PageSize}
    (hReached : c.Reached size)
    (address app : Nat) :
    (c.coalesce address app).2.Reached size := by
  have hTables : (c.coalesce address
        app).2.radixWayTables2mb.associativity =
          c.radixWayTables2mb.associativity ∧
      (c.radixWayTables2mb.Sound →
        (c.coalesce address app).2.radixWayTables2mb.Sound) :=
    by
    have hCoalesces := coalesces_coalesce c address app
    generalize c.coalesce address app = result at hCoalesces ⊢
    cases hCoalesces with
    | found _ =>
        exact ⟨rfl, fun hSound => hSound.lookupWay
          (alignedAddress address / 2 ^ 12 / 2 ^ 9) app⟩
    | refused _ _ =>
        exact ⟨rfl, fun hSound => hSound.lookupWay
          (alignedAddress address / 2 ^ 12 / 2 ^ 9) app⟩
    | coalesced _ _ =>
        rw [tables_coalesceRegion]
        exact ⟨rfl, fun hSound => (hSound.lookupWay
          (alignedAddress address / 2 ^ 12 / 2 ^ 9)
            app).setMapping _ _ _⟩
  refine ⟨?_, ?_, ?_, ?_, ?_⟩
  · rw [geometry_coalesce]
    exact hReached.pageSize
  · intro hWays
    rw [geometry_coalesce] at hWays
    exact (hReached.synced hWays).coalesce address app
  · intro hWays
    rw [geometry_coalesce] at hWays
    exact hTables.2 (hReached.tables hWays)
  · rw [hTables.1, geometry_coalesce]
    exact hReached.ways
  · rw [geometry_coalesce]
    exact hReached.nonzero

end RestSegCoalesce

namespace HashCoalesce

variable {a a' a₀ : HashCoalesce} {address app : Nat}

theorem reached_step
    {op : Op}
    (hAll : All RestSegCoalesce.Reached a)
    (hStep : a.step op = some a') :
    All RestSegCoalesce.Reached a' :=
  all_step
    (fun _ _ _ hSeg => hSeg.allocate _ _ _)
    (fun _ _ _ hSeg => hSeg.inRestSeg _ _)
    (fun _ _ _ c hSeg => (hAll _ c hSeg).coalesce _ _)
    (fun _ _ _ _ _ _ c _ hSeg =>
      (hAll _ c hSeg).allocate _ _ _)
    hAll hStep

theorem reached_construct
    {buddy : Buddy}
    {configs : List RestSegConfig}
    {fingerprintBits : Nat}
    {threshold : Int}
    (hConstruct : construct buddy configs fingerprintBits
      threshold = some a₀) :
    All RestSegCoalesce.Reached a₀ :=
  fun size c hSeg => RestSegCoalesce.reached_of_fresh
    (all_construct hConstruct size c hSeg)

/- All segments that runs of a new allocator reach. -/
theorem all_reached
    {buddy : Buddy}
    {configs : List RestSegConfig}
    {fingerprintBits : Nat}
    {threshold : Int}
    {ops : List Op}
    (hConstruct : construct buddy configs fingerprintBits
      threshold = some a₀)
    (hRun : Run.run step a₀ ops = some a) :
    All RestSegCoalesce.Reached a :=
  Run.run_invariant (fun _ _ _ => reached_step)
    (reached_construct hConstruct) hRun

end HashCoalesce

------------------------------------------------------------
-- Walks
------------------------------------------------------------

namespace RestSegCoalesce

variable {c : RestSegCoalesce}

/- What `accessRestSegDualRadix` answers. -/
def dualRadix
    (c : RestSegCoalesce)
    (address app : Nat) :
    Option (Nat × Nat) :=
  match c.radixWayTables2mb.way app (address / 2 ^ 21) with
  | some way =>
      some (21, c.geometry.calculatePPNFromWay address way)
  | none =>
      (c.radixWayTables.way app (c.geometry.vpn address)).map
        (fun way => (c.geometry.pageSizeBits,
          c.geometry.calculatePPNFromWay address way))

/- A walk changes no way of the tables. -/
structure SameWays (c c' : RestSegCoalesce) : Prop where
  geometry : c'.geometry = c.geometry
  tables : ∀ app region,
    c'.radixWayTables2mb.way app region =
      c.radixWayTables2mb.way app region
  radix : ∀ app page,
    c'.radixWayTables.way app page = c.radixWayTables.way app page

theorem SameWays.dualRadix_eq
    {c' : RestSegCoalesce}
    (hSame : c.SameWays c')
    (address app : Nat) :
    c'.dualRadix address app = c.dualRadix address app := by
  unfold dualRadix
  rw [hSame.tables, hSame.radix, hSame.geometry]

theorem SameWays.trans
    {c' c'' : RestSegCoalesce}
    (hFirst : c.SameWays c')
    (hSecond : c'.SameWays c'') :
    c.SameWays c'' :=
  ⟨hSecond.geometry.trans hFirst.geometry,
    fun app region => (hSecond.tables app region).trans
      (hFirst.tables app region),
    fun app page => (hSecond.radix app page).trans
      (hFirst.radix app page)⟩

/- The way that both tables give a page. -/
def radixWay
    (c : RestSegCoalesce)
    (address app : Nat) :
    Option Nat :=
  (c.radixWayTables2mb.way app (address / 2 ^ 21)).or
    (c.radixWayTables.way app (c.geometry.vpn address))

theorem lookupWayRadix_spec
    (c : RestSegCoalesce)
    (address app : Nat) :
    (c.lookupWayRadix address app).1 = c.radixWay address app ∧
      c.SameWays (c.lookupWayRadix address app).2 := by
  have hLookup : (c.radixWayTables2mb.lookupWay
      (address / 2 ^ 21) app).1 =
        c.radixWayTables2mb.way app (address / 2 ^ 21) := rfl
  unfold lookupWayRadix radixWay
  simp only
  rw [hLookup]
  cases c.radixWayTables2mb.way app (address / 2 ^ 21) with
  | some way =>
      exact ⟨rfl, rfl, fun _ _ => by simp, fun _ _ => rfl⟩
  | none =>
      exact ⟨rfl, rfl, fun _ _ => by simp,
        fun _ _ => by simp [RestSeg.lookupWayRadix]⟩

theorem sameWays_lookupCoalesced2MBWay
    (c : RestSegCoalesce)
    (regionStartVpn app : Nat) :
    c.SameWays (c.lookupCoalesced2MBWay regionStartVpn app).2 :=
  ⟨rfl, fun _ _ => by simp [lookupCoalesced2MBWay], fun _ _ => rfl⟩

theorem sameWays_touchWayLRU
    (c : RestSegCoalesce)
    (address way : Nat) :
    c.SameWays (c.touchWayLRU address way) :=
  ⟨rfl, fun _ _ => rfl, fun _ _ => rfl⟩

theorem accessRestSegDualRadix_spec
    (c : RestSegCoalesce)
    (address app : Nat) :
    (c.accessRestSegDualRadix address app).1 =
        c.dualRadix address app ∧
      c.SameWays (c.accessRestSegDualRadix address app).2 := by
  have hWay : (c.lookupCoalesced2MBWay
      (alignedAddress address / 2 ^ 12) app).1 =
        c.radixWayTables2mb.way app (address / 2 ^ 21) := by
    unfold lookupCoalesced2MBWay
    rw [region_alignedAddress]
    rfl
  have hLooked := sameWays_lookupCoalesced2MBWay c
    (alignedAddress address / 2 ^ 12) app
  unfold accessRestSegDualRadix dualRadix
  generalize c.lookupCoalesced2MBWay
    (alignedAddress address / 2 ^ 12) app = looked
    at hWay hLooked ⊢
  rcases looked with ⟨found, next⟩
  simp only at hWay hLooked
  rw [← hWay]
  cases found with
  | some way =>
      refine ⟨?_, hLooked.trans (sameWays_touchWayLRU _ _ _)⟩
      simp only
      rw [hLooked.geometry]
  | none =>
      have hRadix := lookupWayRadix_spec next address app
      have hNone : next.radixWay address app =
          c.radixWayTables.way app (c.geometry.vpn address) :=
        by
        unfold radixWay
        rw [hLooked.tables, ← hWay, hLooked.radix,
          hLooked.geometry, Option.none_or]
      rw [hNone] at hRadix
      simp only
      generalize next.lookupWayRadix address app = result
        at hRadix ⊢
      rcases result with ⟨found, after⟩
      simp only at hRadix
      have hAfter := hLooked.trans hRadix.2
      rw [← hRadix.1]
      cases found with
      | some way =>
          refine ⟨?_, hAfter.trans (sameWays_touchWayLRU _ _ _)⟩
          simp only [Option.map_some]
          rw [hAfter.geometry]
      | none => exact ⟨rfl, hAfter⟩

end RestSegCoalesce

namespace HashCoalesce

variable {a a' : HashCoalesce} {address app : Nat}

/- What the segment of a page size answers to a walk. -/
def answer
    (a : HashCoalesce)
    (address app : Nat)
    (size : PageSize) :
    Option (Nat × Nat) :=
  (a.restSegs size).bind (fun c => c.dualRadix address app)

theorem accessDualRadix_spec
    (a : HashCoalesce)
    (address app : Nat)
    (size : PageSize) :
    (a.accessDualRadix address app size).1 =
        a.answer address app size ∧
      (a.accessDualRadix address app size).2.answer address
        app = a.answer address app := by
  unfold accessDualRadix
  cases hSeg : a.restSegs size with
  | none => exact ⟨by simp [answer, hSeg], rfl⟩
  | some c =>
      rcases RestSegCoalesce.accessRestSegDualRadix_spec c
          address app with
        ⟨hAnswer, hSame⟩
      refine ⟨by simp [answer, hSeg, hAnswer], ?_⟩
      funext size'
      unfold answer HashCoalesce.setRestSeg
      by_cases hSize : size' = size
      · subst hSize
        simp only [Function.update_self, Option.bind_some, hSeg]
        exact hSame.dualRadix_eq address app
      · simp only [Function.update_of_ne hSize]

theorem accessInTurn_eq
    (address app : Nat)
    (sizes : List PageSize)
    (a : HashCoalesce) :
    (accessInTurn address app sizes a).1 =
      sizes.findSome? (a.answer address app) := by
  induction sizes generalizing a with
  | nil => rfl
  | cons size sizes ih =>
      rcases accessDualRadix_spec a address app size with
        ⟨hAnswer, hSame⟩
      unfold accessInTurn
      rw [List.findSome?_cons, ← hAnswer]
      generalize a.accessDualRadix address app size = first
        at hSame ⊢
      rcases first with ⟨hit, next⟩
      simp only at hSame
      cases hit with
      | some hit => rfl
      | none =>
          simp only
          rw [ih next, hSame]

theorem accessAll_eq
    (address app : Nat)
    (sizes : List PageSize)
    (a : HashCoalesce) :
    (accessAll address app sizes a).1 =
      sizes.findSome? (a.answer address app) := by
  induction sizes generalizing a with
  | nil => rfl
  | cons size sizes ih =>
      rcases accessDualRadix_spec a address app size with
        ⟨hAnswer, hSame⟩
      unfold accessAll
      simp only
      rw [List.findSome?_cons, ih, hSame, ← hAnswer]
      cases (a.accessDualRadix address app size).1 with
      | some hit => rfl
      | none => rfl

/- A walk yields the first answer in its order. -/
theorem restSegWalk_eq
    (a : HashCoalesce)
    (firstRestSeg : Option Nat)
    (address app : Nat) :
    (a.restSegWalk firstRestSeg address app).1 =
      (a.walkOrder firstRestSeg).findSome?
        (a.answer address app) := by
  unfold restSegWalk
  split_ifs with hTurn
  · exact accessInTurn_eq address app _ a
  · cases firstRestSeg with
    | none => exact accessAll_eq address app a.order a
    | some first => simp at hTurn

/- The segments that a walk meets before the 4KB one. -/
def earlier
    (a : HashCoalesce)
    (firstRestSeg : Option Nat) :
    List PageSize :=
  (a.walkOrder firstRestSeg).takeWhile (fun size =>
    size ≠ .fourKb)

end HashCoalesce

/- Functions that agree on a list find the same in it. -/
theorem findSome?_eq_of_forall
    {α β : Type*}
    {f g : α → Option β}
    {l : List α}
    (hSame : ∀ x ∈ l, f x = g x) :
    l.findSome? f = l.findSome? g := by
  induction l with
  | nil => rfl
  | cons x l ih =>
      rw [List.findSome?_cons, List.findSome?_cons,
        hSame x (by simp),
        ih (fun y hMem => hSame y (by simp [hMem]))]

/- The first answer of a list with an element that answers. -/
theorem findSome?_takeWhile
    {α β : Type*}
    [DecidableEq α]
    {f : α → Option β}
    {k : α}
    {v : β}
    (hAnswer : f k = some v)
    (l : List α) :
    l.findSome? f =
      ((l.takeWhile (fun x => x ≠ k)).findSome? f).or
        (if k ∈ l then some v else none) := by
  induction l with
  | nil => rfl
  | cons x l ih =>
      by_cases hKey : x = k
      · subst hKey
        simp [hAnswer]
      · have hOther : k ≠ x := Ne.symm hKey
        cases hFirst : f x with
        | some w => simp [hKey, hFirst]
        | none => simpa [hKey, hFirst, hOther] using ih

end Utopia

end Virtuoso
