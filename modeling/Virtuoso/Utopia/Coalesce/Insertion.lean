import Virtuoso.Utopia.Coalesce.Basic
import Virtuoso.Utopia.RestSeg.Recency

/-
  What the insertions of a coalescing segment do, and that
  its bitmap names free ways only.

  An allocation and an insertion at a way are described once,
  by the set, the mappings and the bits that they change. The
  loop over the pages of a region keeps what the sets hold;
  where the pages fall into different sets it works on each
  of these sets alone.

  Main declarations:
    * `Utopia.RestSegCoalesce.allocates_allocate`
    * `Utopia.RestSegCoalesce.sets_insertPages`
-/

------------------------------------------------------------
-- Allocations And Free Bits
------------------------------------------------------------

namespace Virtuoso

namespace Utopia

namespace RestSegCoalesce

open RestSegSet

variable {c c' : RestSegCoalesce} {address app i way : Nat}

@[simp] theorem toRestSeg_updateWayBitmap
    (c : RestSegCoalesce)
    (setIndex way : Nat)
    (isFree : Bool) :
    (c.updateWayBitmap setIndex way isFree).toRestSeg =
      c.toRestSeg := by
  unfold updateWayBitmap
  split <;> rfl

@[simp] theorem tables_updateWayBitmap
    (c : RestSegCoalesce)
    (setIndex way : Nat)
    (isFree : Bool) :
    (c.updateWayBitmap setIndex way
      isFree).radixWayTables2mb = c.radixWayTables2mb := by
  unfold updateWayBitmap
  split <;> rfl

/- The bitmap with one bit taken. -/
def takenBitmap
    (c : RestSegCoalesce)
    (setIndex way : Nat) :
    Nat → BitVec 64 :=
  (c.updateWayBitmap setIndex way false).setWayBitmap

/- A bit of a mask after one of its bits is taken. -/
theorem getLsbD_and_not_shift
    {mask : BitVec 64}
    {v : Nat} :
    (mask &&& ~~~(1#64 <<< way)).getLsbD v = true ↔
      v ≠ way ∧ mask.getLsbD v = true := by
  by_cases hLess : v < 64
  · have hShift : (1#64 <<< way).getLsbD v = decide (v = way) := by
      rw [BitVec.getLsbD_shiftLeft, BitVec.getLsbD_one]
      by_cases hBit : v = way
      · simp [hBit, hBit ▸ hLess]
      · have hOther : ¬ (way ≤ v ∧ v - way = 0) := by
          omega
        simpa [hLess, hBit] using hOther
    rw [BitVec.getLsbD_and, BitVec.getLsbD_not, hShift]
    simp [hLess, and_comm]
  · have hOut : mask.getLsbD v = false :=
      BitVec.getLsbD_of_ge _ _ (not_lt.mp hLess)
    simp [hOut]

/- A bit after another one is taken. -/
theorem getLsbD_takenBitmap
    {setIndex v : Nat}
    (hSet : setIndex < c.geometry.numSets)
    (hWay : way < c.geometry.associativity) :
    (c.takenBitmap setIndex way i).getLsbD v = true ↔
      ¬ (i = setIndex ∧ v = way) ∧
        (c.setWayBitmap i).getLsbD v = true := by
  unfold takenBitmap updateWayBitmap
  rw [if_pos ⟨hWay, hSet⟩]
  by_cases hIndex : i = setIndex
  · subst hIndex
    simp only [Function.update_self, Bool.false_eq_true,
      if_false, getLsbD_and_not_shift, true_and, ne_eq]
  · simp only [Function.update_of_ne hIndex, hIndex, false_and,
      not_false_eq_true, true_and]

variable {associativity : Nat}

theorem toNat_allFree
    (hWidth : associativity < 64) :
    (1#64 <<< associativity - 1#64).toNat =
      2 ^ associativity - 1 := by
  have hPow : 2 ^ associativity < 2 ^ 64 :=
    Nat.pow_lt_pow_right (by decide) hWidth
  have hPos := Nat.two_pow_pos associativity
  have hShift : (1#64 <<< associativity).toNat =
      2 ^ associativity := by
    rw [BitVec.toNat_shiftLeft, BitVec.toNat_one (by decide),
      Nat.shiftLeft_eq, Nat.one_mul, Nat.mod_eq_of_lt hPow]
  rw [BitVec.toNat_sub_of_le]
  · rw [hShift, BitVec.toNat_one (by decide)]
  · rw [BitVec.le_def, hShift, BitVec.toNat_one (by decide)]
    exact hPos

/- The bits of the mask of all ways are those of the ways. -/
theorem getLsbD_allFree
    (hWidth : associativity ≤ 64)
    (way : Nat) :
    (allFree associativity).getLsbD way = true ↔
      way < associativity := by
  unfold allFree
  split_ifs with hAll
  · rw [BitVec.getLsbD_allOnes, decide_eq_true_eq]
    omega
  · rw [BitVec.getLsbD, toNat_allFree (not_le.mp hAll),
      Nat.testBit_two_pow_sub_one, decide_eq_true_eq]

theorem lt_of_getLsbD_allFree
    (hWidth : associativity ≤ 64)
    (hBit : (allFree associativity).getLsbD way = true) :
    way < associativity :=
  (getLsbD_allFree hWidth way).mp hBit

/- `c'` is `c` with another set at an index. -/
structure Replaces
    (c c' : RestSegCoalesce)
    (i : Nat)
    (set : RestSegSet) : Prop where
  geometry : c'.geometry = c.geometry
  sets : c'.sets = Function.update c.sets i set
  tables : c'.radixWayTables2mb = c.radixWayTables2mb

/-
  All that an allocation of a page can do: it leaves what the
  set holds, takes a free way and its bit, or takes the way
  of the least recently used entry of a full set.
-/
inductive Allocates
    (c : RestSegCoalesce)
    (page app : Nat)
    (forceEvict : Bool) :
    Allocation × RestSegCoalesce → Prop
  | same {result : Allocation} {set : RestSegSet}
      {c' : RestSegCoalesce} :
      (∀ address, result ≠ .evicted address) →
      (c.sets (c.geometry.setOf page)).Same set →
      c.Replaces c' (c.geometry.setOf page) set →
      c'.radixWayTables = c.radixWayTables →
      c'.setWayBitmap = c.setWayBitmap →
      Allocates c page app forceEvict (result, c')
  | free {way : Nat} {set : RestSegSet}
      {c' : RestSegCoalesce} :
      (c.sets (c.geometry.setOf page)).Lacks
        (c.geometry.tagOf page) (app + 1) →
      ((c.sets (c.geometry.setOf page)).entries way).valid = false →
      (c.sets (c.geometry.setOf page)).Filled set way
        (c.geometry.tagOf page) (app + 1) →
      c.Replaces c' (c.geometry.setOf page) set →
      c'.radixWayTables = c.radixWayTables.setMapping page app way →
      c'.setWayBitmap = c.takenBitmap (c.geometry.setOf page) way →
      Allocates c page app forceEvict (.placed, c')
  | evict {way tag owner : Nat} {set : RestSegSet}
      {c' : RestSegCoalesce} :
      forceEvict = true →
      (c.sets (c.geometry.setOf page)).Lacks
        (c.geometry.tagOf page) (app + 1) →
      (c.sets (c.geometry.setOf page)).Full →
      (c.sets (c.geometry.setOf page)).findLRUVictim = some way →
      (c.sets (c.geometry.setOf page)).Holds way tag owner →
      (c.sets (c.geometry.setOf page)).Filled set way
        (c.geometry.tagOf page) (app + 1) →
      c.Replaces c' (c.geometry.setOf page) set →
      c'.radixWayTables =
        (c.radixWayTables.clearMapping
          (c.geometry.vpn
            (c.geometry.reconstructAddress tag
              (c.geometry.setOf page))) (owner - 1)).setMapping
          page app way →
      c'.setWayBitmap = c.setWayBitmap →
      Allocates c page app forceEvict
        (.evicted (c.geometry.reconstructAddress tag
          (c.geometry.setOf page)), c')

theorem allocates_allocate
    (c : RestSegCoalesce)
    (address app : Nat)
    (forceEvict : Bool) :
    c.Allocates (c.geometry.vpn address) app forceEvict
      (c.allocate address app forceEvict) := by
  unfold allocate RestSeg.allocate insertion setIndexOf
    Geometry.splitAddress
  simp only
  generalize c.geometry.vpn address = page
  generalize hPref : c.regionPrefWay
    (page / 2 ^ RestSeg.rleRegionBits) = pref
  generalize hFp : computeFingerprint (c.geometry.tagOf page)
    c.geometry.fingerprintBits = fp
  have hPerforms := RestSeg.performs_place c.toRestSeg
    (c.sets (c.geometry.setOf page)) (c.geometry.tagOf page)
    (app + 1) fp pref forceEvict
  cases hResult : c.place (c.sets (c.geometry.setOf page))
      (c.geometry.tagOf page) (app + 1) fp pref forceEvict with
  | mk insertion set =>
      rw [hResult] at hPerforms
      cases hPerforms with
      | hit hHolds =>
          exact .same (fun _ => by simp) (same_refresh _ _)
            ⟨rfl, rfl, rfl⟩ rfl rfl
      | free hLacks hWay hInvalid =>
          exact .free hLacks hInvalid (filled_fill hWay _ _ fp)
            ⟨by simp [RestSeg.noteAllocation],
              by simp [RestSeg.noteAllocation], by simp⟩
            (by simp [RestSeg.noteAllocation])
            (by simp [takenBitmap, updateWayBitmap,
              RestSeg.noteAllocation, apply_ite
                RestSegCoalesce.setWayBitmap])
      | evict hForce hLacks hFull hVictim =>
          rcases valid_of_findLRUVictim hVictim with
            ⟨hWay, hValid⟩
          exact .evict hForce hLacks hFull hVictim
            (holds_of_valid hWay hValid)
            (filled_fill hWay _ _ fp)
            ⟨by simp [RestSeg.noteAllocation],
              by simp [RestSeg.noteAllocation], rfl⟩
            (by simp [RestSeg.noteAllocation]) rfl
      | fail hLacks =>
          exact .same (fun _ => by simp) (Same.refl _)
            ⟨rfl, rfl, rfl⟩ rfl rfl

/- A set bit is that of a way with no valid entry. -/
structure Synced (c : RestSegCoalesce) : Prop where
  ways : c.geometry.associativity ≤ 64
  sets : 0 < c.geometry.numSets
  associativity : ∀ i,
    (c.sets i).associativity = c.geometry.associativity
  free : ∀ i way, (c.setWayBitmap i).getLsbD way = true →
    way < c.geometry.associativity ∧
      ((c.sets i).entries way).valid = false

theorem synced_ofRestSeg
    {g : Geometry}
    (hWays : g.associativity ≤ 64)
    (hSets : 0 < g.numSets) :
    (ofRestSeg (RestSeg.fresh g)).Synced :=
  ⟨hWays, hSets, fun _ => rfl,
    fun _ _ hBit => ⟨lt_of_getLsbD_allFree hWays hBit, rfl⟩⟩

/- Another set that keeps the free ways of the set bits. -/
theorem Synced.replace
    (hSynced : c.Synced)
    {set : RestSegSet}
    (hReplaces : c.Replaces c' i set)
    (hWays : set.associativity = (c.sets i).associativity)
    (hFree :
      ∀ j way, (c'.setWayBitmap j).getLsbD way = true →
        (c.setWayBitmap j).getLsbD way = true ∧
          (j = i → (set.entries way).valid = false)) :
    c'.Synced := by
  refine ⟨?_, ?_, ?_, ?_⟩
  · rw [hReplaces.geometry]
    exact hSynced.ways
  · rw [hReplaces.geometry]
    exact hSynced.sets
  · intro j
    rw [hReplaces.geometry, hReplaces.sets,
      ← hSynced.associativity j]
    by_cases hEq : j = i
    · rw [hEq, Function.update_self, hWays]
    · rw [Function.update_of_ne hEq]
  · intro j way hBit
    rcases hFree j way hBit with ⟨hOld, hInvalid⟩
    rcases hSynced.free j way hOld with ⟨hLess, hBefore⟩
    rw [hReplaces.geometry, hReplaces.sets]
    refine ⟨hLess, ?_⟩
    by_cases hEq : j = i
    · rw [hEq, Function.update_self]
      exact hInvalid hEq
    · rw [Function.update_of_ne hEq]
      exact hBefore

theorem Synced.same
    (hSynced : c.Synced)
    {set : RestSegSet}
    (hReplaces : c.Replaces c' i set)
    (hSame : (c.sets i).Same set)
    (hBits : c'.setWayBitmap = c.setWayBitmap) :
    c'.Synced := by
  refine hSynced.replace hReplaces hSame.associativity ?_
  intro j way hBit
  rw [hBits] at hBit
  refine ⟨hBit, ?_⟩
  rintro rfl
  rw [hSame.valid]
  exact (hSynced.free j way hBit).2

/- A free way is taken with its bit. -/
theorem Synced.taken
    (hSynced : c.Synced)
    {set : RestSegSet}
    {tag owner : Nat}
    (hIndex : i < c.geometry.numSets)
    (hReplaces : c.Replaces c' i set)
    (hFilled : (c.sets i).Filled set way tag owner)
    (hBits : c'.setWayBitmap = c.takenBitmap i way) :
    c'.Synced := by
  have hWay := hFilled.inside
  rw [hSynced.associativity] at hWay
  refine hSynced.replace hReplaces hFilled.associativity ?_
  intro j v hBit
  rw [hBits, getLsbD_takenBitmap hIndex hWay] at hBit
  refine ⟨hBit.2, ?_⟩
  rintro rfl
  have hOther : v ≠ way := fun hEq => hBit.1 ⟨rfl, hEq⟩
  rw [hFilled.valid, if_neg hOther]
  exact (hSynced.free j v hBit.2).2

theorem Synced.setOf_lt
    (hSynced : c.Synced)
    (page : Nat) :
    c.geometry.setOf page < c.geometry.numSets :=
  Geometry.setOf_lt hSynced.sets page

theorem Synced.allocate
    (hSynced : c.Synced)
    (address app : Nat)
    (forceEvict : Bool) :
    (c.allocate address app forceEvict).2.Synced := by
  have hAllocates := allocates_allocate c address app forceEvict
  generalize c.allocate address app forceEvict = result
    at hAllocates ⊢
  cases hAllocates with
  | same _ hSame hReplaces _ hBits =>
      exact hSynced.same hReplaces hSame hBits
  | free _ _ hFilled hReplaces _ hBits =>
      exact hSynced.taken (hSynced.setOf_lt _) hReplaces hFilled
        hBits
  | evict _ _ hFull _ _ hFilled hReplaces _ hBits =>
      refine hSynced.replace hReplaces hFilled.associativity ?_
      intro j v hBit
      rw [hBits] at hBit
      refine ⟨hBit, ?_⟩
      rintro rfl
      -- all ways of a full set have a clear bit
      rcases hSynced.free _ v hBit with ⟨hLess, hInvalid⟩
      rw [← hSynced.associativity] at hLess
      exact absurd (hFull v hLess) (by simp [hInvalid])

theorem Synced.inRestSeg
    (hSynced : c.Synced)
    (address app : Nat) :
    (c.inRestSeg address app).2.Synced := by
  unfold RestSegCoalesce.inRestSeg RestSeg.inRestSeg
  simp only
  split
  · exact hSynced
  · exact hSynced.same ⟨rfl, rfl, rfl⟩ (same_touchEntry _ _) rfl

/- A lookup or a mapping of a region changes no set. -/
theorem Synced.of_tables
    (hSynced : c.Synced)
    (m : RadixWayTableManager) :
    ({ c with radixWayTables2mb := m } : RestSegCoalesce).Synced :=
  ⟨hSynced.ways, hSynced.sets, hSynced.associativity, hSynced.free⟩

/- The insertion of a page at a way of its set. -/
def insertedAt
    (c : RestSegCoalesce)
    (page app way : Nat) :
    Insertion × RestSegSet :=
  (c.sets (c.geometry.setOf page)).tryInsertAtWay
    (c.geometry.tagOf page) (app + 1)
    (computeFingerprint (c.geometry.tagOf page)
      c.geometry.fingerprintBits) way

/- An insertion at a way fails, finds the page or fills it. -/
theorem inserts_insertedAt
    (c : RestSegCoalesce)
    (page app way : Nat) :
    (c.sets (c.geometry.setOf page)).Inserts
      (c.geometry.tagOf page) (app + 1) false
      (c.insertedAt page app way) :=
  inserts_tryInsertAtWay _ _ _ _ _ _

/-
  What `tryInsertAtWay` changes when the radix way table is
  left alone.
-/
structure InsertsAt
    (c c' : RestSegCoalesce)
    (page app way : Nat) : Prop where
  replaces : c.Replaces c' (c.geometry.setOf page)
    (c.insertedAt page app way).2
  radix : c'.radixWayTables = c.radixWayTables
  bits : c'.setWayBitmap =
    match (c.insertedAt page app way).1 with
    | .free used => c.takenBitmap (c.geometry.setOf page) used
    | _ => c.setWayBitmap

theorem insertsAt_tryInsertAtWay
    (c : RestSegCoalesce)
    (address app way : Nat) :
    c.InsertsAt (c.tryInsertAtWay address app way false).2
      (c.geometry.vpn address) app way := by
  have hInserts :=
    inserts_insertedAt c (c.geometry.vpn address) app way
  unfold tryInsertAtWay Geometry.splitAddress
  simp only
  generalize c.geometry.vpn address = page at hInserts ⊢
  have hDef : (c.sets (c.geometry.setOf page)).tryInsertAtWay
      (c.geometry.tagOf page) (app + 1)
      (computeFingerprint (c.geometry.tagOf page)
        c.geometry.fingerprintBits) way =
      c.insertedAt page app way := rfl
  rw [hDef]
  cases hResult : c.insertedAt page app way with
  | mk insertion set =>
      rw [hResult] at hInserts
      cases hInserts with
      | hit hHolds hSame =>
          exact ⟨⟨rfl, by simp [hResult], rfl⟩, rfl,
            by simp [hResult]⟩
      | free hLacks hInvalid hFilled =>
          refine ⟨⟨?_, ?_, ?_⟩, ?_, ?_⟩
          · simp
          · simp [hResult]
          · simp
          · simp
          · simp [hResult, takenBitmap, updateWayBitmap,
              apply_ite RestSegCoalesce.setWayBitmap]
      | evict hForce => exact absurd hForce (by decide)
      | fail hLacks =>
          refine ⟨⟨rfl, ?_, rfl⟩, rfl, by simp [hResult]⟩
          have hSame := (RestSeg.tries_of_inserts
            (inserts_insertedAt c page app way)).same
              (congrArg Prod.fst hResult)
          rw [hSame]
          exact (Function.update_eq_self _ _).symm

theorem Synced.insertsAt
    {page : Nat}
    (hSynced : c.Synced)
    (hInserts : c.InsertsAt c' page app way) :
    c'.Synced := by
  have hBits := hInserts.bits
  have hCases := inserts_insertedAt c page app way
  have hReplaces := hInserts.replaces
  generalize c.insertedAt page app way = result
    at hBits hCases hReplaces
  cases hCases with
  | hit _ hSame => exact hSynced.same hReplaces hSame hBits
  | free _ _ hFilled =>
      exact hSynced.taken (hSynced.setOf_lt page) hReplaces
        hFilled hBits
  | evict hForce => exact absurd hForce (by decide)
  | fail _ => exact hSynced.same hReplaces (Same.refl _) hBits

------------------------------------------------------------
-- The Pages Of A Region
------------------------------------------------------------

/- The page of the segment at an index of a region. -/
def pageAt (c : RestSegCoalesce) (aligned i : Nat) : Nat :=
  c.geometry.vpn (aligned + i * 4096)

/- An invariant of the insertions is one of their loop. -/
theorem inv_insertPages
    {I : RestSegCoalesce → Prop}
    (aligned : Nat)
    {pages : List Nat}
    (hStep :
      ∀ c c' i, i ∈ pages → I c →
        c.InsertsAt c' (c.pageAt aligned i) app way → I c')
    (hInit : I c) :
    I (c.insertPages aligned app way pages) := by
  induction pages generalizing c with
  | nil => exact hInit
  | cons i pages ih =>
      apply ih (fun c c' j hMem => hStep c c' j (by simp [hMem]))
      exact hStep _ _ i (by simp) hInit
        (insertsAt_tryInsertAtWay c (aligned + i * 4096) app way)

/- What the insertions leave as it was. -/
theorem kept_insertPages
    (c : RestSegCoalesce)
    (aligned app way : Nat)
    (pages : List Nat) :
    (c.insertPages aligned app way pages).geometry = c.geometry ∧
      (c.insertPages aligned app way pages).radixWayTables =
        c.radixWayTables ∧
      (c.insertPages aligned app way
        pages).radixWayTables2mb = c.radixWayTables2mb := by
  apply inv_insertPages (I := fun c' =>
    c'.geometry = c.geometry ∧
      c'.radixWayTables = c.radixWayTables ∧
      c'.radixWayTables2mb = c.radixWayTables2mb) aligned
  · rintro c₁ c₂ i _ ⟨hGeometry, hRadix, hTables⟩ hInserts
    exact ⟨hInserts.replaces.geometry.trans hGeometry,
      hInserts.radix.trans hRadix,
      hInserts.replaces.tables.trans hTables⟩
  · exact ⟨rfl, rfl, rfl⟩

theorem Synced.insertPages
    (hSynced : c.Synced)
    (aligned app way : Nat)
    (pages : List Nat) :
    (c.insertPages aligned app way pages).Synced :=
  inv_insertPages aligned
    (fun _ _ _ _ hSynced hInserts =>
      hSynced.insertsAt hInserts)
    hSynced

/- The pages at some indices are in different sets. -/
def SpreadOver
    (c : RestSegCoalesce)
    (aligned : Nat)
    (pages : List Nat) : Prop :=
  ∀ i ∈ pages, ∀ j ∈ pages,
    c.geometry.setOf (c.pageAt aligned i) =
      c.geometry.setOf (c.pageAt aligned j) → i = j

/-
  Where the pages are in different sets, each insertion works
  on the set of its page as it was before the loop.
-/
theorem sets_insertPages
    {aligned : Nat}
    {pages : List Nat}
    (hNodup : pages.Nodup)
    (hSpread : c.SpreadOver aligned pages) :
    (∀ i ∈ pages,
      (c.insertPages aligned app way pages).sets
          (c.geometry.setOf (c.pageAt aligned i)) =
        (c.insertedAt (c.pageAt aligned i) app way).2) ∧
    ∀ s, (∀ i ∈ pages, s ≠ c.geometry.setOf (c.pageAt aligned i)) →
      (c.insertPages aligned app way pages).sets s = c.sets s := by
  induction pages generalizing c with
  | nil => exact ⟨by simp, fun _ _ => rfl⟩
  | cons i pages ih =>
      rcases List.nodup_cons.mp hNodup with ⟨hNew, hRest⟩
      have hInserts : c.InsertsAt
          (c.tryInsertAtWay (aligned + i * 4096) app way
            false).2 (c.pageAt aligned i) app way :=
        insertsAt_tryInsertAtWay c (aligned + i * 4096) app way
      change _ ∧ ∀ s, _ → (insertPages (c.tryInsertAtWay
        (aligned + i * 4096) app way false).2 aligned app way
          pages).sets s = _
      change (∀ j ∈ i :: pages, (insertPages (c.tryInsertAtWay
        (aligned + i * 4096) app way false).2 aligned app way
          pages).sets _ = _) ∧ _
      generalize (c.tryInsertAtWay (aligned + i * 4096) app way
        false).2 = next at hInserts ⊢
      have hGeometry := hInserts.replaces.geometry
      have hPage : ∀ j,
          next.pageAt aligned j = c.pageAt aligned j := by
        intro j
        unfold pageAt
        rw [hGeometry]
      have hOthers : next.SpreadOver aligned pages := by
        intro j hMem k hMem' hEq
        rw [hPage, hPage, hGeometry] at hEq
        exact hSpread j (by simp [hMem]) k (by simp [hMem']) hEq
      rcases ih hRest hOthers with ⟨hIn, hOut⟩
      simp only [hPage, hGeometry] at hIn hOut
      -- the set of the first page is not met again
      have hApart : ∀ j ∈ pages,
          c.geometry.setOf (c.pageAt aligned i) ≠
            c.geometry.setOf (c.pageAt aligned j) := by
        intro j hMem hEq
        have hSame := hSpread i (by simp) j (by simp [hMem]) hEq
        exact hNew (hSame ▸ hMem)
      refine ⟨?_, ?_⟩
      · intro j hMem
        rcases List.mem_cons.mp hMem with hFirst | hLater
        · rw [hFirst, hOut _ hApart, hInserts.replaces.sets,
            Function.update_self]
        · rw [hIn j hLater]
          unfold insertedAt
          rw [hGeometry, hInserts.replaces.sets,
            Function.update_of_ne (hApart j hLater).symm]
      · intro s hOther
        rw [hOut s (fun j hMem => hOther j (by simp [hMem])),
          hInserts.replaces.sets,
          Function.update_of_ne (hOther i (by simp))]

/- An insertion that may not evict removes no entry. -/
theorem holds_insertedAt
    {page w tag owner : Nat}
    (hHolds : (c.sets (c.geometry.setOf page)).Holds w tag owner) :
    (c.insertedAt page app way).2.Holds w tag owner := by
  have hInserts := inserts_insertedAt c page app way
  generalize c.insertedAt page app way = result at hInserts ⊢
  cases hInserts with
  | hit _ hSame => exact (hSame.holds w tag owner).mpr hHolds
  | @free used set _ hInvalid hFilled =>
      have hOther : w ≠ used := by
        rintro rfl
        rw [hHolds.valid] at hInvalid
        exact absurd hInvalid (by decide)
      rw [hFilled.holds, if_neg hOther]
      exact hHolds
  | evict hForce => exact absurd hForce (by decide)
  | fail _ => exact hHolds

theorem holds_insertPages
    {aligned s w tag owner : Nat}
    (hHolds : (c.sets s).Holds w tag owner)
    (pages : List Nat) :
    ((c.insertPages aligned app way pages).sets s).Holds w tag
      owner := by
  apply inv_insertPages
    (I := fun c => (c.sets s).Holds w tag owner) aligned
  · intro c₁ c₂ i _ hOld hInserts
    rw [hInserts.replaces.sets]
    by_cases hSet : s = c₁.geometry.setOf (c₁.pageAt aligned i)
    · rw [hSet, Function.update_self]
      exact holds_insertedAt (hSet ▸ hOld)
    · rw [Function.update_of_ne hSet]
      exact hOld
  · exact hHolds

/- The way that is found is free in all sets and the mask. -/
theorem free_of_commonFreeWayFrom
    {startVpn : Nat}
    {pages : List Nat}
    {mask : BitVec 64}
    (hFind : c.commonFreeWayFrom startVpn pages mask = some way) :
    mask.getLsbD way = true ∧
      ∀ i ∈ pages, (c.setWayBitmap
        (c.setIndexOf ((startVpn + i) * 2 ^ 12))).getLsbD way =
          true := by
  induction pages generalizing mask with
  | nil =>
      refine ⟨?_, by simp⟩
      exact List.find?_some hFind
  | cons i pages ih =>
      unfold commonFreeWayFrom at hFind
      simp only at hFind
      split_ifs at hFind
      rcases ih hFind with ⟨hMask, hRest⟩
      rw [BitVec.getLsbD_and, Bool.and_eq_true] at hMask
      refine ⟨hMask.1, ?_⟩
      intro j hMem
      rcases List.mem_cons.mp hMem with hFirst | hLater
      · exact hFirst ▸ hMask.2
      · exact hRest j hLater

/- The pages of a region, as the search counts them. -/
theorem setIndexOf_startVpn
    (c : RestSegCoalesce)
    (address i : Nat) :
    c.setIndexOf ((alignedAddress address / 2 ^ 12 + i) * 2 ^ 12) =
      c.geometry.setOf (c.pageAt (alignedAddress address) i) := by
  have hSame : (alignedAddress address / 2 ^ 12 + i) * 2 ^ 12 =
      alignedAddress address + i * 4096 := by
    unfold alignedAddress
    omega
  rw [hSame]
  rfl

/- A common way is free for each page of the region. -/
theorem Synced.free_of_findCommonFreeWay
    (hSynced : c.Synced)
    (hFind : c.findCommonFreeWay
      (alignedAddress address / 2 ^ 12) = some way)
    (hIndex : i < 512) :
    way < c.geometry.associativity ∧
      ((c.sets (c.geometry.setOf (c.pageAt
        (alignedAddress address) i))).entries way).valid =
          false := by
  have hBit := (free_of_commonFreeWayFrom hFind).2 i
    (List.mem_range.mpr hIndex)
  rw [setIndexOf_startVpn] at hBit
  exact hSynced.free _ way hBit

theorem Synced.coalesce
    (hSynced : c.Synced)
    (address app : Nat) :
    (c.coalesce address app).2.Synced := by
  have hLooked : (c.lookupCoalesced2MBWay
      (alignedAddress address / 2 ^ 12) app).2.Synced :=
    hSynced.of_tables _
  unfold RestSegCoalesce.coalesce
  simp only
  generalize c.lookupCoalesced2MBWay
    (alignedAddress address / 2 ^ 12) app = looked
    at hLooked ⊢
  rcases looked with ⟨found, next⟩
  cases found with
  | some way => exact hLooked
  | none =>
      simp only
      cases next.findCommonFreeWay
          (alignedAddress address / 2 ^ 12) with
      | none => exact hLooked
      | some way =>
          exact (hLooked.insertPages _ app way _).of_tables _

end RestSegCoalesce

end Utopia

end Virtuoso
