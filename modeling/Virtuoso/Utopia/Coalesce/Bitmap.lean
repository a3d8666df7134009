import Virtuoso.Lib.Run
import Virtuoso.Utopia.Coalesce.Frames
import Virtuoso.Utopia.RestSeg.Runs

/-
  The bitmap of the free ways over the runs of a segment.

  A call marks at most one way: it leaves the bitmap, the
  counters and which entries are valid, or it takes a free
  way in all three. So the bits are those of the invalid
  entries, and they are never set again. The search for a
  common way reads the bits of all pages, and where it fails
  once it always does.

  Main declarations:
    * `Utopia.RestSegCoalesce.Mirrors.marks`
    * `Utopia.RestSegCoalesce.bitmap_run`
-/

------------------------------------------------------------
-- The Mirror And Its Calls
------------------------------------------------------------

namespace Virtuoso

namespace Utopia

namespace RestSegCoalesce

open RestSegSet

/-
  A call of an allocation, of an insertion at a way, or of
  level 0 of the allocator, which inserts a whole region.
-/
inductive Op
  | allocate (address app : Nat) (forceEvict : Bool)
  | tryInsertAtWay (address app : Nat) (way : Int)
      (updateRadix : Bool)
  | coalesce (address app : Nat)
deriving DecidableEq

/-
  The way of an insertion. A negative way is refused like one
  past the last.
-/
def wayOf (c : RestSegCoalesce) (way : Int) : Nat :=
  if way < 0 then c.geometry.associativity else way.toNat

/- The segment after a call, which always returns. -/
def step (c : RestSegCoalesce) : Op → Option RestSegCoalesce
| .allocate address app forceEvict =>
    some (c.allocate address app forceEvict).2
| .tryInsertAtWay address app way updateRadix =>
    some (c.tryInsertAtWay address app (c.wayOf way) updateRadix).2
| .coalesce address app =>
    some (c.coalesce address app).2

variable {c c' c'' : RestSegCoalesce}
variable {address app i way : Nat}

/- The bit of a way of a set. -/
def isFree
    (c : RestSegCoalesce)
    (setIndex way : Nat) : Bool :=
  (c.setWayBitmap setIndex).getLsbD way

/- The number of sets that have the bit of a way. -/
def freeSetsOf (c : RestSegCoalesce) (way : Nat) : Nat :=
  (List.range c.geometry.numSets).countP (fun i => c.isFree i way)

/-
  All that an insertion does to the valid entries, the bitmap
  and the counters.
-/
inductive Marks
    (c c' : RestSegCoalesce)
    (i : Nat)
    (set : RestSegSet) : Prop
  | same :
      c.Replaces c' i set →
      set.associativity = (c.sets i).associativity →
      (∀ way, (set.entries way).valid =
        ((c.sets i).entries way).valid) →
      c'.setWayBitmap = c.setWayBitmap →
      c'.freeSetsPerWay = c.freeSetsPerWay →
      Marks c c' i set
  | taken {way : Nat} :
      c.Replaces c' i set →
      set.associativity = (c.sets i).associativity →
      way < (c.sets i).associativity →
      ((c.sets i).entries way).valid = false →
      (∀ way', (set.entries way').valid =
        if way' = way then
          true
        else
          ((c.sets i).entries way').valid) →
      c'.setWayBitmap = c.takenBitmap i way →
      c'.freeSetsPerWay = c.toRestSeg.takeFreeWay way →
      Marks c c' i set

/- The valid entries after an entry is written. -/
theorem valid_fill
    (s : RestSegSet)
    (way tag owner : Nat)
    (fingerprint : BitVec 8)
    (way' : Nat) :
    ((s.fill way tag owner fingerprint).entries way').valid =
      if way' = way then true else (s.entries way').valid := by
  unfold fill
  by_cases hWay : way' = way
  · simp [hWay]
  · simp [hWay, Function.update_of_ne]

/- An entry is written over a valid one. -/
theorem valid_fill_of_valid
    {s : RestSegSet}
    (hValid : (s.entries way).valid = true)
    (tag owner : Nat)
    (fingerprint : BitVec 8)
    (way' : Nat) :
    ((s.fill way tag owner fingerprint).entries way').valid =
      (s.entries way').valid := by
  rw [valid_fill]
  split_ifs with hWay
  · rw [hWay, hValid]
  · rfl

theorem marks_allocate
    (c : RestSegCoalesce)
    (address app : Nat)
    (forceEvict : Bool) :
    ∃ set, c.Marks (c.allocate address app forceEvict).2
      (c.setIndexOf address) set := by
  unfold allocate RestSeg.allocate insertion setIndexOf
    Geometry.splitAddress
  simp only
  generalize c.geometry.vpn address = page
  generalize c.regionPrefWay
    (page / 2 ^ RestSeg.rleRegionBits) = pref
  generalize hFp : computeFingerprint (c.geometry.tagOf page)
    c.geometry.fingerprintBits = fp
  have hPerforms := RestSeg.performs_place c.toRestSeg
    (c.sets (c.geometry.setOf page)) (c.geometry.tagOf page)
    (app + 1) fp pref forceEvict
  cases hResult : c.place (c.sets (c.geometry.setOf page))
      (c.geometry.tagOf page) (app + 1) fp pref forceEvict with
  | mk insertion set =>
      rw [hResult] at hPerforms
      refine ⟨set, ?_⟩
      cases hPerforms with
      | hit hHolds =>
          exact .same ⟨rfl, rfl, rfl⟩ rfl
            (same_refresh _ _).valid rfl rfl
      | free hLacks hWay hInvalid =>
          refine .taken ⟨?_, ?_, ?_⟩ rfl hWay hInvalid
            (valid_fill _ _ _ _ fp) ?_ ?_
          · simp [RestSeg.noteAllocation]
          · simp [RestSeg.noteAllocation]
          · simp
          · simp [takenBitmap, updateWayBitmap,
              RestSeg.noteAllocation, apply_ite
                RestSegCoalesce.setWayBitmap]
          · simp [RestSeg.noteAllocation, RestSeg.takeFreeWay]
      | evict hForce hLacks hFull hVictim =>
          have hValid := (valid_of_findLRUVictim hVictim).2
          refine .same ⟨?_, ?_, rfl⟩ rfl
            (valid_fill_of_valid hValid _ _ fp) rfl ?_
          · simp [RestSeg.noteAllocation]
          · simp [RestSeg.noteAllocation]
          · simp [RestSeg.noteAllocation]
      | fail hLacks =>
          exact .same ⟨rfl, rfl, rfl⟩ rfl (fun _ => rfl) rfl rfl

theorem marks_tryInsertAtWay
    (c : RestSegCoalesce)
    (address app way : Nat)
    (updateRadix : Bool) :
    ∃ set, c.Marks
      (c.tryInsertAtWay address app way updateRadix).2
      (c.setIndexOf address) set := by
  unfold tryInsertAtWay setIndexOf Geometry.splitAddress
  simp only
  generalize c.geometry.vpn address = page
  generalize hFp : computeFingerprint (c.geometry.tagOf page)
    c.geometry.fingerprintBits = fp
  have hPerforms := performs_tryInsertAtWay
    (c.sets (c.geometry.setOf page)) (c.geometry.tagOf page)
    (app + 1) fp way false
  cases hResult : (c.sets (c.geometry.setOf page)).tryInsertAtWay
      (c.geometry.tagOf page) (app + 1) fp way with
  | mk insertion set =>
      rw [hResult] at hPerforms
      refine ⟨set, ?_⟩
      cases hPerforms with
      | hit hHolds =>
          exact .same ⟨rfl, rfl, rfl⟩ rfl
            (same_refresh _ _).valid rfl rfl
      | free hLacks hWay hInvalid =>
          refine .taken ⟨?_, ?_, ?_⟩ rfl hWay hInvalid
            (valid_fill _ _ _ _ fp) ?_ ?_
          · cases updateRadix <;> simp
          · cases updateRadix <;> simp
          · cases updateRadix <;> simp
          · cases updateRadix <;>
              simp [takenBitmap, updateWayBitmap, apply_ite
                RestSegCoalesce.setWayBitmap]
          · cases updateRadix <;> simp [RestSeg.takeFreeWay]
      | evict hForce => exact absurd hForce (by decide)
      | fail hLacks =>
          exact .same ⟨rfl, (Function.update_eq_self _ _).symm,
            rfl⟩ rfl (fun _ => rfl) rfl rfl

/-
  The bitmap mirrors the tags: the bits are those of the
  invalid entries, and the counters count them.
-/
structure Mirrors (c : RestSegCoalesce) : Prop where
  sets : 0 < c.geometry.numSets
  associativity : ∀ i,
    (c.sets i).associativity = c.geometry.associativity
  bits : ∀ i way, c.isFree i way = true ↔
    way < c.geometry.associativity ∧
      ((c.sets i).entries way).valid = false
  counts : ∀ way < c.geometry.associativity,
    c.freeSetsPerWay way = c.freeSetsOf way

theorem mirrors_ofRestSeg
    {g : Geometry}
    (hWays : g.associativity ≤ 64)
    (hSets : 0 < g.numSets) :
    (ofRestSeg (RestSeg.fresh g)).Mirrors := by
  have hBit : ∀ i way,
      (ofRestSeg (RestSeg.fresh g)).isFree i way = true ↔
        way < g.associativity :=
    fun _ way => getLsbD_allFree hWays way
  refine ⟨hSets, fun _ => rfl, ?_, ?_⟩
  · intro i way
    rw [hBit]
    exact (and_iff_left rfl).symm
  · intro way hWay
    have hAll : (ofRestSeg (RestSeg.fresh g)).freeSetsOf way =
        (List.range g.numSets).length :=
      List.countP_eq_length.mpr (fun i _ => (hBit i way).mpr hWay)
    rw [hAll, List.length_range]
    rfl

/- The bits after one of them is taken. -/
theorem isFree_of_taken
    {v j : Nat}
    (hSet : i < c.geometry.numSets)
    (hWay : way < c.geometry.associativity)
    (hBits : c'.setWayBitmap = c.takenBitmap i way) :
    c'.isFree j v = true ↔
      ¬ (j = i ∧ v = way) ∧ c.isFree j v = true := by
  unfold isFree
  rw [hBits]
  exact getLsbD_takenBitmap hSet hWay

/- A count of the sets after a bit of one of them is taken. -/
theorem freeSetsOf_of_taken
    (hGeometry : c'.geometry = c.geometry)
    (hSet : i < c.geometry.numSets)
    (hOld : c.isFree i way = true)
    (hTaken : ∀ j v, c'.isFree j v = true ↔
      ¬ (j = i ∧ v = way) ∧ c.isFree j v = true)
    (v : Nat) :
    (if v = way then c'.freeSetsOf v + 1 else c'.freeSetsOf v) =
      c.freeSetsOf v := by
  have hOther : ∀ j v, ¬ (j = i ∧ v = way) →
      c'.isFree j v = c.isFree j v := by
    intro j v hNot
    rw [Bool.eq_iff_iff, hTaken, and_iff_right hNot]
  unfold freeSetsOf
  rw [hGeometry]
  by_cases hWay : v = way
  · subst hWay
    rw [if_pos rfl]
    apply RestSeg.countP_of_left List.nodup_range
      (List.mem_range.mpr hSet) hOld
    · rw [← Bool.not_eq_true, hTaken]
      simp
    · exact fun j _ hNe =>
        hOther j v (fun hBoth => hNe hBoth.1)
  · rw [if_neg hWay]
    apply List.countP_congr
    intro j _
    rw [hOther j v (fun hBoth => hWay hBoth.2)]

/- Another set, with its bits and counters. -/
theorem Mirrors.replace
    (hMirrors : c.Mirrors)
    {set : RestSegSet}
    (hReplaces : c.Replaces c' i set)
    (hWays : set.associativity = (c.sets i).associativity)
    (hBits : ∀ j v, c'.isFree j v = true ↔
      v < c.geometry.associativity ∧
        ((if j = i then set else c.sets j).entries v).valid = false)
    (hCounts : ∀ v < c.geometry.associativity,
      c'.freeSetsPerWay v = c'.freeSetsOf v) :
    c'.Mirrors := by
  have hSets : ∀ j,
      c'.sets j = if j = i then set else c.sets j := by
    intro j
    rw [hReplaces.sets, Function.update_apply]
  refine ⟨?_, ?_, ?_, ?_⟩
  · rw [hReplaces.geometry]
    exact hMirrors.sets
  · intro j
    rw [hReplaces.geometry, hSets]
    split_ifs
    · rw [hWays]
      exact hMirrors.associativity i
    · exact hMirrors.associativity j
  · intro j v
    rw [hReplaces.geometry, hSets]
    exact hBits j v
  · rw [hReplaces.geometry]
    exact hCounts

/- A mark keeps the mirror. -/
theorem Mirrors.marks
    (hMirrors : c.Mirrors)
    (hSet : i < c.geometry.numSets)
    {set : RestSegSet}
    (hMarks : c.Marks c' i set) :
    c'.Mirrors := by
  cases hMarks with
  | same hReplaces hWays hValid hBits hCounts =>
      have hFree : ∀ j v, c'.isFree j v = c.isFree j v := by
        intro j v
        unfold isFree
        rw [hBits]
      apply hMirrors.replace hReplaces hWays
      · intro j v
        rw [hFree, hMirrors.bits]
        split_ifs with hEq
        · rw [hEq, hValid]
        · rfl
      · intro v hWay
        unfold freeSetsOf
        simp only [hFree, hReplaces.geometry, hCounts]
        exact hMirrors.counts v hWay
  | @taken way hReplaces hWays hInside hInvalid hValid hBits
      hCounts =>
      rw [hMirrors.associativity] at hInside
      have hTaken : ∀ j v, c'.isFree j v = true ↔
          ¬ (j = i ∧ v = way) ∧ c.isFree j v = true :=
        fun j v => isFree_of_taken hSet hInside hBits
      have hOld : c.isFree i way = true :=
        (hMirrors.bits i way).mpr ⟨hInside, hInvalid⟩
      apply hMirrors.replace hReplaces hWays
      · intro j v
        rw [hTaken, hMirrors.bits]
        by_cases hEq : j = i
        · by_cases hWay : v = way
          · simp [hEq, hWay, hValid]
          · simp [hEq, hWay, hValid]
        · simp [hEq]
      · have hAfter := freeSetsOf_of_taken hReplaces.geometry
          hSet hOld hTaken
        have hOwn := hAfter way
        rw [if_pos rfl] at hOwn
        have hCount := hMirrors.counts way hInside
        have hSome : 0 < c.freeSetsPerWay way := by
          omega
        intro v hWay
        rw [hCounts]
        unfold RestSeg.takeFreeWay
        rw [if_pos ⟨hInside, hSome⟩]
        by_cases hSame : v = way
        · rw [hSame, Function.update_self]
          omega
        · have hRest := hAfter v
          rw [if_neg hSame] at hRest
          rw [Function.update_of_ne hSame, hRest]
          exact hMirrors.counts v hWay

/- `c'` mirrors if `c` does, and has no bit that `c` has not. -/
structure Follows (c c' : RestSegCoalesce) : Prop where
  geometry : c'.geometry = c.geometry
  mirrors : c'.Mirrors
  isFree : ∀ i way, c'.isFree i way = true → c.isFree i way = true

theorem Mirrors.refl
    (hMirrors : c.Mirrors) :
    c.Follows c :=
  ⟨rfl, hMirrors, fun _ _ hFree => hFree⟩

theorem Follows.trans
    (hFirst : c.Follows c')
    (hSecond : c'.Follows c'') :
    c.Follows c'' :=
  ⟨hSecond.geometry.trans hFirst.geometry, hSecond.mirrors,
    fun i way hFree =>
      hFirst.isFree i way (hSecond.isFree i way hFree)⟩

/- A lookup or a mapping of a region changes no bit. -/
theorem Mirrors.of_tables
    (hMirrors : c.Mirrors)
    (m : RadixWayTableManager) :
    c.Follows { c with radixWayTables2mb := m } :=
  ⟨rfl, ⟨hMirrors.sets, hMirrors.associativity, hMirrors.bits,
    hMirrors.counts⟩, fun _ _ hFree => hFree⟩

theorem Mirrors.follows
    (hMirrors : c.Mirrors)
    (hMarks : ∃ set, c.Marks c' (c.setIndexOf address) set) :
    c.Follows c' := by
  rcases hMarks with ⟨set, hMarks⟩
  have hSet : c.setIndexOf address < c.geometry.numSets :=
    Geometry.setOf_lt hMirrors.sets _
  refine ⟨?_, hMirrors.marks hSet hMarks, ?_⟩
  · cases hMarks with
    | same hReplaces => exact hReplaces.geometry
    | taken hReplaces => exact hReplaces.geometry
  · intro i way hFree
    cases hMarks with
    | same _ _ _ hBits =>
        unfold RestSegCoalesce.isFree at hFree
        rwa [hBits] at hFree
    | taken _ _ hInside _ _ hBits =>
        rw [hMirrors.associativity] at hInside
        exact ((isFree_of_taken hSet hInside hBits).mp hFree).2

theorem Mirrors.insertPages
    (hMirrors : c.Mirrors)
    (aligned app way : Nat)
    (pages : List Nat) :
    c.Follows (c.insertPages aligned app way pages) := by
  induction pages generalizing c with
  | nil => exact hMirrors.refl
  | cons i pages ih =>
      have hFirst := hMirrors.follows
        (marks_tryInsertAtWay c (aligned + i * 4096) app way false)
      exact hFirst.trans (ih hFirst.mirrors)

theorem Mirrors.coalesce
    (hMirrors : c.Mirrors)
    (address app : Nat) :
    c.Follows (c.coalesce address app).2 := by
  have hLooked : c.Follows (c.lookupCoalesced2MBWay
      (alignedAddress address / 2 ^ 12) app).2 :=
    hMirrors.of_tables _
  have hCoalesces := coalesces_coalesce c address app
  generalize c.coalesce address app = result at hCoalesces ⊢
  cases hCoalesces with
  | found _ => exact hLooked
  | refused _ _ => exact hLooked
  | @coalesced way _ _ =>
      have hPlaced := hLooked.mirrors.insertPages
        (alignedAddress address) app way (List.range 512)
      exact (hLooked.trans hPlaced).trans
        (hPlaced.mirrors.of_tables _)

/- Every call keeps the mirror and sets no bit. -/
theorem follows_step
    (hMirrors : c.Mirrors)
    (op : Op) :
    ∃ c', c.step op = some c' ∧ c.Follows c' := by
  cases op with
  | allocate address app forceEvict =>
      exact ⟨_, rfl, hMirrors.follows
        (marks_allocate c address app forceEvict)⟩
  | tryInsertAtWay address app way updateRadix =>
      exact ⟨_, rfl, hMirrors.follows
        (marks_tryInsertAtWay c address app (c.wayOf way)
          updateRadix)⟩
  | coalesce address app =>
      exact ⟨_, rfl, hMirrors.coalesce address app⟩

theorem follows_ops
    (hMirrors : c.Mirrors)
    (ops : List Op) :
    ∃ c', Run.run step c ops = some c' ∧ c.Follows c' := by
  induction ops generalizing c with
  | nil => exact ⟨c, rfl, hMirrors.refl⟩
  | cons op ops ih =>
      rcases follows_step hMirrors op with
        ⟨next, hStep, hNext⟩
      rcases ih hNext.mirrors with ⟨c', hRun, hRest⟩
      refine ⟨c', ?_, hNext.trans hRest⟩
      rw [Run.run_cons_of_some ops hStep, hRun]

------------------------------------------------------------
-- The Common Way And Runs
------------------------------------------------------------

/-
  The search finds the lowest bit that the mask and all pages
  share.
-/
theorem commonFreeWayFrom_eq
    (c : RestSegCoalesce)
    (startVpn : Nat)
    (pages : List Nat)
    (mask : BitVec 64) :
    c.commonFreeWayFrom startVpn pages mask =
      (List.range 64).find? (fun way =>
        mask.getLsbD way && pages.all (fun i =>
          c.isFree (c.setIndexOf ((startVpn + i) * 2 ^ 12))
            way)) := by
  induction pages generalizing mask with
  | nil =>
      simp only [commonFreeWayFrom, List.all_nil, Bool.and_true]
  | cons i pages ih =>
      unfold commonFreeWayFrom
      simp only
      split_ifs with hEmpty
      · symm
        rw [List.find?_eq_none]
        intro way _ hFree
        have hBit := congrArg (fun m => m.getLsbD way) hEmpty
        simp only [BitVec.getLsbD_and, BitVec.getLsbD_zero] at hBit
        simp only [List.all_cons, isFree] at hFree
        simp only [Bool.and_eq_true] at hFree
        rw [hFree.1, hFree.2.1] at hBit
        exact absurd hBit (by decide)
      · rw [ih]
        simp only [BitVec.getLsbD_and, List.all_cons,
          Bool.and_assoc, isFree]

/- A way is invalid in the sets of the 512 pages from one. -/
def CommonFree
    (c : RestSegCoalesce)
    (startVpn way : Nat) : Prop :=
  way < c.geometry.associativity ∧
    ∀ i < 512, ((c.sets (c.setIndexOf
      ((startVpn + i) * 2 ^ 12))).entries way).valid = false

theorem Mirrors.commonFree_iff
    (hMirrors : c.Mirrors)
    (hWays : c.geometry.associativity ≤ 64)
    (startVpn way : Nat) :
    ((allFree c.geometry.associativity).getLsbD way &&
      (List.range 512).all (fun i =>
        c.isFree (c.setIndexOf ((startVpn + i) * 2 ^ 12))
          way)) = true ↔
      c.CommonFree startVpn way := by
  simp only [Bool.and_eq_true, getLsbD_allFree hWays,
    List.all_eq_true, List.mem_range, hMirrors.bits]
  constructor
  · rintro ⟨hWay, hAll⟩
    exact ⟨hWay, fun i hIndex => (hAll i hIndex).2⟩
  · rintro ⟨hWay, hAll⟩
    exact ⟨hWay, fun i hIndex => ⟨hWay, hAll i hIndex⟩⟩

/- The way that is found is the lowest common free way. -/
theorem findCommonFreeWay_iff
    (hMirrors : c.Mirrors)
    (hWays : c.geometry.associativity ≤ 64)
    (startVpn way : Nat) :
    c.findCommonFreeWay startVpn = some way ↔
      c.CommonFree startVpn way ∧
        ∀ lower < way, ¬ c.CommonFree startVpn lower := by
  unfold findCommonFreeWay
  rw [commonFreeWayFrom_eq, List.find?_range_eq_some,
    hMirrors.commonFree_iff hWays]
  simp only [Bool.not_eq_true', ← Bool.not_eq_true,
    hMirrors.commonFree_iff hWays]
  constructor
  · rintro ⟨hFree, _, hLowest⟩
    exact ⟨hFree, hLowest⟩
  · rintro ⟨hFree, hLowest⟩
    exact ⟨hFree,
      List.mem_range.mpr (lt_of_lt_of_le hFree.1 hWays),
      hLowest⟩

theorem findCommonFreeWay_eq_none
    (hMirrors : c.Mirrors)
    (hWays : c.geometry.associativity ≤ 64)
    (startVpn : Nat) :
    c.findCommonFreeWay startVpn = none ↔
      ∀ way, ¬ c.CommonFree startVpn way := by
  unfold findCommonFreeWay
  rw [commonFreeWayFrom_eq, List.find?_eq_none]
  simp only [hMirrors.commonFree_iff hWays, List.mem_range]
  constructor
  · intro hNone way hFree
    exact hNone way (lt_of_lt_of_le hFree.1 hWays) hFree
  · exact fun hNone way _ => hNone way

/- A common free way was one before. -/
theorem Follows.commonFree
    (hMirrors : c.Mirrors)
    (hFollows : c.Follows c')
    {startVpn : Nat}
    (hFree : c'.CommonFree startVpn way) :
    c.CommonFree startVpn way := by
  rcases hFree with ⟨hWay, hAll⟩
  have hIndex : ∀ address,
      c'.setIndexOf address = c.setIndexOf address := by
    intro address
    unfold setIndexOf
    rw [hFollows.geometry]
  have hBits : ∀ i < 512, c.isFree
      (c.setIndexOf ((startVpn + i) * 2 ^ 12)) way = true := by
    intro i hLess
    apply hFollows.isFree
    rw [hFollows.mirrors.bits, ← hIndex]
    exact ⟨hWay, hAll i hLess⟩
  refine ⟨hFollows.geometry ▸ hWay, ?_⟩
  intro i hLess
  exact ((hMirrors.bits _ _).mp (hBits i hLess)).2

theorem Follows.findCommonFreeWay
    (hMirrors : c.Mirrors)
    (hWays : c.geometry.associativity ≤ 64)
    (hFollows : c.Follows c')
    {startVpn : Nat}
    (hNone : c.findCommonFreeWay startVpn = none) :
    c'.findCommonFreeWay startVpn = none := by
  rw [findCommonFreeWay_eq_none hMirrors hWays] at hNone
  rw [findCommonFreeWay_eq_none hFollows.mirrors
    (hFollows.geometry ▸ hWays)]
  exact fun way hFree =>
    hNone way (hFollows.commonFree hMirrors hFree)

/- Without a common way, level 0 only looks its region up. -/
theorem coalesce_of_none
    (hNone : c.findCommonFreeWay
      (alignedAddress address / 2 ^ 12) = none) :
    c.coalesce address app =
      (c.isCoalesced address app,
        (c.lookupCoalesced2MBWay
          (alignedAddress address / 2 ^ 12) app).2) := by
  have hCoalesces := coalesces_coalesce c address app
  rw [isCoalesced_eq]
  generalize c.coalesce address app = result at hCoalesces ⊢
  cases hCoalesces with
  | found hWay => rw [hWay, Option.isSome_some]
  | refused hWay _ => rw [hWay, Option.isSome_none]
  | coalesced _ hFind =>
      rw [hNone] at hFind
      exact absurd hFind (by simp)

theorem mirrors_construct
    {sizeMb pageSizeBits associativity base fingerprintBits : Nat}
    (hConstruct : construct sizeMb pageSizeBits associativity
      base fingerprintBits = some c)
    (hWays : associativity ≤ 64) :
    c.Mirrors ∧ c.geometry.associativity ≤ 64 := by
  unfold construct at hConstruct
  rcases Option.map_eq_some_iff.mp hConstruct with
    ⟨r, hSeg, rfl⟩
  rcases RestSeg.construct_eq_some hSeg with
    ⟨rfl, hSets, _⟩
  exact ⟨mirrors_ofRestSeg hWays hSets, hWays⟩

/-
  After any calls the bitmap mirrors the tags, and the search
  finds the lowest way that is invalid for all pages. After
  any later calls, no bit is set that was cleared, and where
  the search found no way it finds none and the region is not
  coalesced.
-/
theorem bitmap_run
    {sizeMb pageSizeBits associativity base fingerprintBits : Nat}
    (hConstruct : construct sizeMb pageSizeBits associativity
      base fingerprintBits = some c)
    (hWays : associativity ≤ 64)
    (ops : List Op) :
    ∃ c', Run.run step c ops = some c' ∧
      c'.Mirrors ∧
      (∀ startVpn way,
        c'.findCommonFreeWay startVpn = some way ↔
          c'.CommonFree startVpn way ∧
            ∀ lower < way, ¬ c'.CommonFree startVpn lower) ∧
      ∀ later, ∃ c'', Run.run step c' later = some c'' ∧
        (∀ i way, c'.isFree i way = false →
          c''.isFree i way = false) ∧
        ∀ startVpn, c'.findCommonFreeWay startVpn = none →
          c''.findCommonFreeWay startVpn = none ∧
            ∀ address app,
              alignedAddress address / 2 ^ 12 = startVpn →
                c''.coalesce address app =
                  (c''.isCoalesced address app,
                    (c''.lookupCoalesced2MBWay startVpn
                      app).2) := by
  rcases mirrors_construct hConstruct hWays with
    ⟨hMirrors, hWidth⟩
  rcases follows_ops hMirrors ops with ⟨c', hRun, hFollows⟩
  have hWidth' : c'.geometry.associativity ≤ 64 :=
    hFollows.geometry ▸ hWidth
  refine ⟨c', hRun, hFollows.mirrors,
    findCommonFreeWay_iff hFollows.mirrors hWidth', ?_⟩
  intro later
  rcases follows_ops hFollows.mirrors later with
    ⟨c'', hLater, hAfter⟩
  refine ⟨c'', hLater, ?_, ?_⟩
  · intro i way hTaken
    rw [← Bool.not_eq_true] at hTaken ⊢
    exact fun hFree => hTaken (hAfter.isFree i way hFree)
  · intro startVpn hNone
    have hStill : c''.findCommonFreeWay startVpn = none :=
      hAfter.findCommonFreeWay hFollows.mirrors hWidth' hNone
    refine ⟨hStill, ?_⟩
    rintro address app rfl
    exact coalesce_of_none hStill

/- A page in way 3, and a region that shares another way. -/
theorem bitmap_run_eightWays :
    ∃ c, construct 1 12 8 0 4 = some c ∧
      ∃ c', Run.run step c
          [.tryInsertAtWay 0x1000 0 3 true,
            .allocate 0x2000 0 false,
            .coalesce 0x200000 0] = some c' ∧
        c'.Mirrors := by
  have hSeg : RestSeg.construct 1 12 8 0 4 =
      some (RestSeg.fresh ⟨12, 8, 32, 0, 4⟩) :=
    RestSeg.construct_of_accepted (by decide +kernel)
  have hConstruct : construct 1 12 8 0 4 =
      some (ofRestSeg (RestSeg.fresh ⟨12, 8, 32, 0, 4⟩)) := by
    unfold construct
    rw [hSeg]
    rfl
  rcases bitmap_run hConstruct (by decide)
    [.tryInsertAtWay 0x1000 0 3 true, .allocate 0x2000 0 false,
      .coalesce 0x200000 0] with ⟨c', hRun, hMirrors, _⟩
  exact ⟨_, hConstruct, c', hRun, hMirrors⟩

end RestSegCoalesce

end Utopia

end Virtuoso
