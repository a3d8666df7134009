import Mathlib.Algebra.BigOperators.Group.Finset.Basic
import Virtuoso.Lib.Probe
import Virtuoso.PageTable.Cuckoo.Deletion

/-
  The item counter of the cuckoo page table and the number of
  occupied slots. An insertion moves both together; a rehash
  counts every migrated element again, and a deletion that
  empties a slot is not counted.

  Main declarations:
    * `Cuckoo.occupied`
    * `Cuckoo.along_counted_iff`
-/

------------------------------------------------------------
-- Insertions And Rehashes
------------------------------------------------------------

namespace Virtuoso

namespace Cuckoo

variable {c : Config} {n n' : Nest}

/- The tags of one way. -/
def tags (n : Nest) (way pos : Nat) : Option Nat :=
  (n.table way pos).tag

/- The occupied slots of all ways. -/
def occupied (c : Config) (n : Nest) : Nat :=
  ∑ way ∈ Finset.range c.ways, Probe.occupied n.size (tags n way)

/- Writing a slot trades its count for the new one. -/
theorem occupied_set
    {way pos : Nat}
    (hWay : way < c.ways)
    (hPos : pos < n.size)
    (e : Element) :
    occupied c (n.set way pos e) +
        (if (n.table way pos).tag.isSome then 1 else 0) =
      occupied c n + if e.tag.isSome then 1 else 0 := by
  have hMem : way ∈ Finset.range c.ways :=
    Finset.mem_range.mpr hWay
  have hHere : tags (n.set way pos e) way =
      Function.update (tags n way) pos e.tag := by
    funext pos'
    simp only [tags, Nest.set, Function.update_self]
    exact Function.apply_update (fun _ e => Element.tag e)
      (n.table way) pos e pos'
  have hOthers : ∀ way' ∈ (Finset.range c.ways).erase way,
      Probe.occupied n.size (tags (n.set way pos e) way') =
        Probe.occupied n.size (tags n way') := by
    intro way' hOther
    have hNe := Finset.ne_of_mem_erase hOther
    have hTags : tags (n.set way pos e) way' = tags n way' := by
      funext pos'
      simp [tags, Nest.set, hNe]
    rw [hTags]
  have hReplace :=
    Probe.occupied_replace hPos (tags n way) e.tag
  have hBefore := Finset.add_sum_erase _
    (fun way => Probe.occupied n.size (tags n way)) hMem
  have hAfter := Finset.add_sum_erase _
    (fun way' => Probe.occupied n.size
      (tags (n.set way pos e) way')) hMem
  rw [Finset.sum_congr rfl hOthers] at hAfter
  simp only [hHere] at hAfter
  unfold occupied
  rw [size_set, ← hBefore, ← hAfter]
  unfold tags at hReplace ⊢
  omega

/- An occupied slot is counted. -/
theorem occupied_pos
    {way pos : Nat}
    (hWay : way < c.ways)
    (hPos : pos < n.size)
    (hTag : (n.table way pos).tag ≠ none) :
    0 < occupied c n := by
  have hSet := occupied_set hWay hPos Element.empty (n := n)
  rw [if_pos (Option.isSome_iff_ne_none.mpr hTag)] at hSet
  simp only [Element.empty, Option.isSome_none,
    Bool.false_eq_true, if_false] at hSet
  omega

theorem occupied_fresh
    (c : Config)
    (size numItems : Nat) :
    occupied c (Nest.fresh size numItems) = 0 := by
  apply Finset.sum_eq_zero
  intro way _
  exact Probe.occupied_empty (κ := Nat)

theorem occupied_congr
    (hSize : n'.size = n.size)
    (hTable : n'.table = n.table) :
    occupied c n' = occupied c n := by
  unfold occupied tags
  rw [hSize, hTable]

/- The counter moves as the number of occupied slots does. -/
structure Tracks (c : Config) (n n' : Nest) : Prop where
  size : n'.size = n.size
  counted : n'.numItems + occupied c n = n.numItems + occupied c n'

theorem Tracks.refl
    (c : Config)
    (n : Nest) :
    Tracks c n n :=
  ⟨rfl, rfl⟩

theorem Tracks.trans
    {n'' : Nest}
    (hFirst : Tracks c n n')
    (hSecond : Tracks c n' n'') :
    Tracks c n n'' := by
  refine ⟨hSecond.size.trans hFirst.size, ?_⟩
  have := hFirst.counted
  have := hSecond.counted
  omega

theorem position_lt
    (hSize : 0 < n.size)
    (tag way : Nat) :
    position c n tag way < n.size :=
  Nat.mod_lt _ hSize

/- Writing a tagged element over another is not counted. -/
theorem tracks_overwrite
    {way pos : Nat}
    (hWay : way < c.ways)
    (hPos : pos < n.size)
    {e : Element}
    (hOld : (n.table way pos).tag ≠ none)
    (hNew : e.tag ≠ none) :
    Tracks c n (n.set way pos e) ∧
      occupied c (n.set way pos e) = occupied c n := by
  have hSet := occupied_set hWay hPos e (n := n)
  rw [if_pos (Option.isSome_iff_ne_none.mpr hOld),
    if_pos (Option.isSome_iff_ne_none.mpr hNew)] at hSet
  refine ⟨⟨rfl, ?_⟩, by omega⟩
  simp only [Nest.set] at hSet ⊢
  omega

/-
  The eviction loop fills one slot and counts it, or none. It
  fails only in tables with an occupied slot.
-/
theorem evict_tracks
    (retries k : Nat)
    {old : Element}
    (hSize : 0 < n.size)
    (hOld : old.tag ≠ none) :
    Tracks c n (evict c retries k n old).2.1 ∧
      (evict c retries k n old).2.2.tag ≠ none ∧
      ((evict c retries k n old).1 = false →
        occupied c (evict c retries k n old).2.1 = occupied c n ∧
          (0 < retries → 0 < occupied c n)) := by
  induction retries generalizing k n old with
  | zero =>
      refine ⟨Tracks.refl c n, hOld, fun _ => ⟨rfl, ?_⟩⟩
      omega
  | succ retries ih =>
      have hWay := wayAt_lt c k
      have hPos : position c n (old.tag.getD 0)
          (wayAt c k) < n.size :=
        position_lt hSize _ _
      rw [evict]
      simp only
      set way := wayAt c k
      set pos := position c n (old.tag.getD 0) way
      by_cases hEmpty : (n.table way pos).tag = none
      · rw [if_pos hEmpty]
        refine ⟨⟨rfl, ?_⟩, hOld, fun hFalse => ?_⟩
        · have hSet := occupied_set hWay hPos old (n := n)
          rw [hEmpty, if_pos
            (Option.isSome_iff_ne_none.mpr hOld)] at hSet
          have hCount : occupied c
              { n.set way pos old with
                numItems := n.numItems + 1 } =
              occupied c (n.set way pos old) :=
            occupied_congr rfl rfl
          simp only [Option.isSome_none, Bool.false_eq_true,
            if_false] at hSet
          simp only [hCount]
          omega
        · cases hFalse
      · rw [if_neg hEmpty]
        have hSome := occupied_pos hWay hPos hEmpty
        by_cases hNe : (n.table way pos).tag ≠ old.tag
        · rw [if_pos hNe]
          rcases tracks_overwrite hWay hPos hEmpty hOld with
            ⟨hTracks, hSame⟩
          rcases ih (k + 1) (n := n.set way pos old) hSize
              hEmpty with ⟨hRest, hTag, hFail⟩
          refine ⟨hTracks.trans hRest, hTag, fun hFalse => ?_⟩
          exact ⟨(hFail hFalse).1.trans hSame, fun _ => hSome⟩
        · rw [if_neg hNe]
          rcases ih k hSize hOld with ⟨hRest, hTag, hFail⟩
          exact ⟨hRest, hTag, fun hFalse =>
            ⟨(hFail hFalse).1, fun _ => hSome⟩⟩

/- An insertion is counted exactly. -/
theorem insertElement_tracks
    (hSize : 0 < n.size)
    {entry : Element}
    (hTag : entry.tag ≠ none)
    (nonResident : List Element)
    (vpn : Nat) :
    Tracks c n (insertElement c n nonResident entry vpn).2.1 ∧
      ((insertElement c n nonResident entry vpn).1 = false →
        occupied c
            (insertElement c n nonResident entry vpn).2.1 =
            occupied c n ∧
          0 < occupied c n) := by
  unfold insertElement
  simp only
  cases hFind : findUpdate c n (vpn / 8) (blockIndex vpn) with
  | some way =>
      simp only
      rcases findUpdate_eq_some hFind with ⟨hWay, hOwn, -⟩
      refine ⟨(tracks_overwrite hWay (position_lt hSize _ _)
        (by rw [hOwn]; simp) (by simp [hOwn])).1, ?_⟩
      intro hFalse
      cases hFalse
  | none =>
      have hOnly : (entry.only (blockIndex vpn)).tag ≠ none :=
        hTag
      have hEvict := evict_tracks (c := c) 48 0 hSize hOnly
      cases hResult : evict c 48 0 n
          (entry.only (blockIndex vpn)) with
      | mk done rest =>
          rw [hResult] at hEvict
          rcases hEvict with ⟨hTracks, -, hFail⟩
          cases done with
          | true => exact ⟨hTracks, fun hFalse => by cases hFalse⟩
          | false =>
              refine ⟨hTracks, fun _ => ?_⟩
              exact ⟨(hFail rfl).1, (hFail rfl).2 (by omega)⟩

theorem tag_of_mem_itemsOf
    {e : Element}
    {item : Element × Nat}
    (hMem : item ∈ itemsOf e) :
    item.1.tag ≠ none := by
  unfold itemsOf at hMem
  cases hTag : e.tag with
  | none => simp [hTag] at hMem
  | some tag =>
      simp only [hTag, List.mem_map] at hMem
      rcases hMem with ⟨i, -, hItem⟩
      rw [← hItem, hTag]
      exact Option.some_ne_none tag

theorem tag_of_mem_items
    {item : Element × Nat}
    (hMem : item ∈ items c n) :
    item.1.tag ≠ none := by
  rcases List.mem_flatMap.mp hMem with ⟨way, -, hWay⟩
  rcases List.mem_flatMap.mp hWay with ⟨pos, -, hItem⟩
  exact tag_of_mem_itemsOf hItem

/- All insertions are counted, up to the first failure. -/
theorem insertAll_tracks
    {its : List (Element × Nat)}
    (hSize : 0 < n.size)
    (hTags : ∀ item ∈ its, item.1.tag ≠ none)
    (nonResident : List Element) :
    Tracks c n (insertAll c its n nonResident).2.1 ∧
      ((insertAll c its n nonResident).1 = false →
        0 < occupied c (insertAll c its n nonResident).2.1) := by
  induction its generalizing n nonResident with
  | nil =>
      refine ⟨Tracks.refl c n, fun hFalse => ?_⟩
      cases hFalse
  | cons item rest ih =>
      rcases item with ⟨e, vpn⟩
      have hTag := hTags (e, vpn) (by simp)
      have hHere := insertElement_tracks (c := c) hSize hTag
        nonResident vpn
      rw [insertAll]
      cases hInsert : insertElement c n nonResident e vpn with
      | mk done result =>
          rcases result with ⟨n', nonResident'⟩
          rw [hInsert] at hHere
          rcases hHere with ⟨hTracks, hFail⟩
          cases done with
          | false =>
              refine ⟨hTracks, fun _ => ?_⟩
              rw [(hFail rfl).1]
              exact (hFail rfl).2
          | true =>
              have hSize' : 0 < n'.size := by
                rw [hTracks.size]
                exact hSize
              rcases ih hSize' (fun item hMem =>
                  hTags item (List.mem_cons_of_mem _ hMem))
                  nonResident' with ⟨hRest, hFailRest⟩
              exact ⟨hTracks.trans hRest, hFailRest⟩

theorem insertNonResident_tracks
    (fuel j : Nat)
    (hSize : 0 < n.size)
    (nonResident : List Element) :
    Tracks c n (insertNonResident c fuel j n nonResident).2.1 ∧
      ((insertNonResident c fuel j n nonResident).1 = false →
        0 < occupied c
          (insertNonResident c fuel j n nonResident).2.1) := by
  induction fuel generalizing n nonResident j with
  | zero =>
      refine ⟨Tracks.refl c n, fun hFalse => ?_⟩
      cases hFalse
  | succ fuel ih =>
      rw [insertNonResident]
      cases hGet : nonResident[j]? with
      | none =>
          refine ⟨Tracks.refl c n, fun hFalse => ?_⟩
          cases hFalse
      | some entry =>
          have hHere := insertAll_tracks (c := c) hSize
            (fun item hMem => tag_of_mem_itemsOf hMem
              (e := entry)) nonResident
          simp only
          cases hAll : insertAll c (itemsOf entry) n
              nonResident with
          | mk done result =>
              rcases result with ⟨n', nonResident'⟩
              rw [hAll] at hHere
              rcases hHere with ⟨hTracks, hFail⟩
              cases done with
              | false => exact ⟨hTracks, fun _ => hFail rfl⟩
              | true =>
                  have hSize' : 0 < n'.size := by
                    rw [hTracks.size]
                    exact hSize
                  rcases ih (j + 1) hSize' nonResident'.tail with
                    ⟨hRest, hFailRest⟩
                  exact ⟨hTracks.trans hRest, hFailRest⟩

/-
  A rehash adds all slots that it fills to the counter, which
  it does not reset; a round that fails fills at least one.
-/
theorem rehash_counts
    {newSize : Nat}
    (hSize : 0 < newSize)
    (nonResident : List Element) :
    ((rehash c n nonResident newSize).1 = true →
      (rehash c n nonResident newSize).2.1.size = newSize ∧
        (rehash c n nonResident newSize).2.1.numItems =
          n.numItems + occupied c
            (rehash c n nonResident newSize).2.1) ∧
      ((rehash c n nonResident newSize).1 = false →
        n.numItems <
          (rehash c n nonResident newSize).2.1.numItems) := by
  have hMigrate := insertAll_tracks (c := c)
    (n := Nest.fresh newSize n.numItems) hSize
    (fun item hMem => tag_of_mem_items (c := c) (n := n) hMem)
    nonResident
  have hStart : (Nest.fresh newSize n.numItems).numItems =
      n.numItems := rfl
  unfold rehash
  cases hMigrated : migrate c n nonResident newSize with
  | mk done result =>
      rcases result with ⟨n', nonResident'⟩
      unfold migrate at hMigrated
      rw [hMigrated] at hMigrate
      rcases hMigrate with ⟨hTracks, hFail⟩
      have hCount := hTracks.counted
      rw [occupied_fresh, hStart] at hCount
      cases done with
      | false =>
          refine ⟨fun hTrue => (by cases hTrue), fun _ => ?_⟩
          have := hFail rfl
          simp only at this hCount ⊢
          omega
      | true =>
          have hSize' : 0 < n'.size := by
            rw [hTracks.size]
            exact hSize
          have hLate := insertNonResident_tracks (c := c)
            nonResident'.length 0 hSize' nonResident'
          simp only
          cases hInserted : insertNonResident c
              nonResident'.length 0 n' nonResident' with
          | mk done' result' =>
              rcases result' with ⟨n'', rest⟩
              rw [hInserted] at hLate
              rcases hLate with ⟨hTracks', hFail'⟩
              have hCount' := hTracks'.counted
              cases done' with
              | false =>
                  refine ⟨fun hTrue => (by cases hTrue),
                    fun _ => ?_⟩
                  have := hFail' rfl
                  simp only at this hCount hCount' ⊢
                  omega
              | true =>
                  refine ⟨fun _ => ⟨?_, ?_⟩,
                    fun hFalse => by cases hFalse⟩
                  · exact hTracks'.size.trans hTracks.size
                  · simp only at hCount hCount' ⊢
                    omega

theorem grow_iterate_pos
    (c : Config)
    {size : Nat}
    (hSize : 0 < size)
    (i : Nat) :
    0 < c.grow^[i] size := by
  induction i generalizing size with
  | zero => exact hSize
  | succ i ih =>
      rw [Function.iterate_succ_apply]
      exact ih (c.grow_pos _ hSize)

variable {nonResident : List Element}
variable {r : Nest × List Element}

/-
  After the loop the size is one of the growing sizes, and the
  counter is the old one plus the occupied slots, and more if
  a round failed.
-/
theorem rehashUntil_counts
    (fuel : Nat)
    {newSize : Nat}
    (hSize : 0 < newSize)
    (hLoop : rehashUntil c fuel n nonResident newSize = some r) :
    (∃ i, r.1.size = c.grow^[i] newSize) ∧
      n.numItems + occupied c r.1 ≤ r.1.numItems ∧
      (r.1.numItems = n.numItems + occupied c r.1 ↔
        (rehash c n nonResident newSize).1 = true) := by
  induction fuel generalizing n nonResident newSize with
  | zero => cases hLoop
  | succ fuel ih =>
      rw [rehashUntil, Option.ite_none_right_eq_some] at hLoop
      replace hLoop := hLoop.2
      have hCounts := rehash_counts (c := c) (n := n) hSize
        nonResident
      cases hRehash : rehash c n nonResident newSize with
      | mk done result =>
          rcases result with ⟨n', nonResident'⟩
          rw [hRehash] at hLoop hCounts
          rcases hCounts with ⟨hDone, hFail⟩
          cases done with
          | true =>
              cases hLoop
              rcases hDone rfl with ⟨hEnd, hCount⟩
              exact ⟨⟨0, hEnd⟩, hCount.ge, fun _ => rfl,
                fun _ => hCount⟩
          | false =>
              have hMore := hFail rfl
              rcases ih (c.grow_pos _ hSize) hLoop with
                ⟨⟨i, hEnd⟩, hLe, -⟩
              simp only at hMore hLe
              refine ⟨⟨i + 1, hEnd⟩, by omega, fun hEq => ?_, ?_⟩
              · omega
              · intro hFalse
                cases hFalse

------------------------------------------------------------
-- Exact Counters And Runs
------------------------------------------------------------

/- The counter of the tables of one page size is exact. -/
def Exact (c : Config) (n : Nest) : Prop :=
  n.numItems = occupied c n

theorem Tracks.exact_iff
    (hTracks : Tracks c n n') :
    Exact c n' ↔ Exact c n := by
  have := hTracks.counted
  unfold Exact
  omega

/-
  The operations that are counted: an update that does not
  rehash, or only empty tables and in one round, and a
  deletion that leaves a translation in the element.
-/
def CountedBy
    (c : Config)
    (t : PageTableCuckoo) :
    PageMap.Op → Prop
| .update address ppn pageSize =>
    let n := t.nests pageSize
    let vpn := pageSize.vpn address
    if c.overloaded n.numItems n.size = true then
      let r := rehash c n t.nonResidentEntries
        (c.grow n.size)
      n.numItems = 0 ∧ r.1 = true ∧
        (insertElement c r.2.1 r.2.2 (entryFor vpn ppn)
          vpn).1 = true
    else
      (insertElement c n t.nonResidentEntries
        (entryFor vpn ppn) vpn).1 = true
| .delete address =>
    let n := t.nests .fourKb
    let vpn := PageSize.fourKb.vpn address
    ∀ way ∈ findTag c n (vpn / 8), ∃ i, i ≠ blockIndex vpn ∧
      (n.table way
        (position c n (vpn / 8) way)).validityBits i = true

instance
    (c : Config)
    (t : PageTableCuckoo) :
    ∀ op, Decidable (CountedBy c t op)
| .update _ _ _ =>
    inferInstanceAs (Decidable (ite _ _ _))
| .delete _ =>
    inferInstanceAs (Decidable (∀ way ∈ _, _))

variable {fuel : Nat}

/-
  An insertion, and the rehash loop if it fails: the counter
  stays exact if it was and the insertion succeeds.
-/
theorem insert_counts
    (hSize : 0 < n.size)
    (hLe : occupied c n ≤ n.numItems)
    {vpn ppn : Nat}
    {n' : Nest}
    (hInsert :
      (∃ rest, insertElement c n nonResident
        (entryFor vpn ppn) vpn = (true, n', rest)) ∨
      ∃ n₂ waiting rest, insertElement c n nonResident
          (entryFor vpn ppn) vpn = (false, n₂, waiting) ∧
        rehashUntil c fuel n₂ waiting (c.grow n.size) =
          some (n', rest)) :
    0 < n'.size ∧
      (Exact c n' ↔ Exact c n ∧
        (insertElement c n nonResident (entryFor vpn ppn)
          vpn).1 = true) := by
  have hTag : (entryFor vpn ppn).tag ≠ none := by
    simp [entryFor]
  have hTracks := insertElement_tracks (c := c) hSize hTag
    nonResident vpn
  rcases hInsert with
    ⟨rest, hEq⟩ | ⟨n₂, waiting, rest, hEq, hLoop⟩
  · rw [hEq] at hTracks ⊢
    refine ⟨?_, ?_⟩
    · rw [hTracks.1.size]
      exact hSize
    · rw [hTracks.1.exact_iff]
      simp
  · rw [hEq] at hTracks ⊢
    rcases hTracks with ⟨hTracks, hFail⟩
    rcases hFail rfl with ⟨hSame, hSome⟩
    have hCount := hTracks.counted
    rcases rehashUntil_counts fuel (c.grow_pos _ hSize)
        hLoop with ⟨⟨i, hEnd⟩, hMore, -⟩
    refine ⟨?_, ?_⟩
    · rw [hEnd]
      exact grow_iterate_pos c (c.grow_pos _ hSize) i
    unfold Exact
    simp only [Bool.false_eq_true, and_false, iff_false]
    simp only at hMore hCount hSame
    omega

/-
  The rehash for the load keeps an exact counter exact only
  in empty tables and in one round.
-/
theorem relieve_counts
    (hSize : 0 < n.size)
    (hExact : Exact c n)
    (hRelieve : relieve c fuel n nonResident = some r) :
    0 < r.1.size ∧ occupied c r.1 ≤ r.1.numItems ∧
      (Exact c r.1 ↔
        (c.overloaded n.numItems n.size = true →
          n.numItems = 0 ∧
            (rehash c n nonResident (c.grow n.size)).1 =
              true)) := by
  unfold relieve at hRelieve
  by_cases hLoad : c.overloaded n.numItems n.size = true
  · rw [if_pos hLoad] at hRelieve
    rcases rehashUntil_counts fuel (c.grow_pos _ hSize)
        hRelieve with ⟨⟨i, hEnd⟩, hMore, hIff⟩
    refine ⟨?_, by omega, ?_⟩
    · rw [hEnd]
      exact grow_iterate_pos c (c.grow_pos _ hSize) i
    simp only [hLoad, forall_const]
    rw [← hIff]
    unfold Exact
    omega
  · rw [if_neg hLoad] at hRelieve
    cases hRelieve
    refine ⟨hSize, hExact.ge, ?_⟩
    simp [hLoad, hExact]

/- The rehash of one round, if the tables are overloaded. -/
theorem relieve_eq
    (hRelieve : relieve c fuel n nonResident = some r)
    (hDone : c.overloaded n.numItems n.size = true →
      (rehash c n nonResident (c.grow n.size)).1 = true) :
    r = if c.overloaded n.numItems n.size = true then
        (rehash c n nonResident (c.grow n.size)).2
      else
        (n, nonResident) := by
  unfold relieve at hRelieve
  by_cases hLoad : c.overloaded n.numItems n.size = true
  · rw [if_pos hLoad] at hRelieve ⊢
    have hTrue := hDone hLoad
    cases fuel with
    | zero => cases hRelieve
    | succ fuel =>
        rw [rehashUntil, Option.ite_none_right_eq_some] at hRelieve
        replace hRelieve := hRelieve.2
        cases hRehash : rehash c n nonResident (c.grow n.size) with
        | mk done result =>
            rw [hRehash] at hTrue hRelieve
            simp only at hTrue
            subst hTrue
            cases hRelieve
            rfl
  · rw [if_neg hLoad] at hRelieve ⊢
    cases hRelieve
    rfl

/- The tables of both page sizes can be used and are exact. -/
def AllExact (c : Config) (t : PageTableCuckoo) : Prop :=
  ∀ pageSize, 0 < (t.nests pageSize).size ∧
    Exact c (t.nests pageSize)

variable {t : PageTableCuckoo}

/- Replacing one nest of exact ones. -/
theorem allExact_update
    (hAll : AllExact c t)
    {pageSize : PageSize}
    (hSize : 0 < n'.size)
    {P : Prop}
    (hExact : Exact c n' ↔ P) :
    (P → ∀ other, 0 < (Function.update t.nests pageSize n'
        other).size ∧
      Exact c (Function.update t.nests pageSize n' other)) ∧
      (¬ P →
        ¬ Exact c (Function.update t.nests pageSize n'
          pageSize)) := by
  constructor
  · intro hHolds other
    by_cases hEq : other = pageSize
    · subst hEq
      rw [Function.update_self]
      exact ⟨hSize, hExact.mpr hHolds⟩
    · rw [Function.update_of_ne hEq]
      exact hAll other
  · intro hNot
    rw [Function.update_self]
    exact fun hEq => hNot (hExact.mp hEq)

/- The two ways in which an update ends. -/
theorem updatePageTableFrames_cases
    {t t' : PageTableCuckoo}
    {address ppn : Nat}
    {pageSize : PageSize}
    (hUpdate :
      updatePageTableFrames c fuel t address ppn pageSize =
        some t') :
    ∃ r n' nonResident,
      relieve c fuel (t.nests pageSize)
          t.nonResidentEntries = some r ∧
        t' = ⟨Function.update t.nests pageSize n', nonResident⟩ ∧
        ((∃ rest, insertElement c r.1 r.2
            (entryFor (pageSize.vpn address) ppn)
            (pageSize.vpn address) = (true, n', rest)) ∨
          ∃ n₂ waiting rest, insertElement c r.1 r.2
              (entryFor (pageSize.vpn address) ppn)
              (pageSize.vpn address) = (false, n₂, waiting) ∧
            rehashUntil c fuel n₂ waiting
              (c.grow r.1.size) = some (n', rest)) := by
  have hVpn : address / 2 ^ pageSize.bits =
      pageSize.vpn address := rfl
  simp only [updatePageTableFrames, hVpn] at hUpdate
  cases hRelieve : relieve c fuel (t.nests pageSize)
      t.nonResidentEntries with
  | none => simp [hRelieve] at hUpdate
  | some r =>
      rcases r with ⟨n, nonResident⟩
      simp only [hRelieve] at hUpdate
      cases hInsert : insertElement c n nonResident
          (entryFor (pageSize.vpn address) ppn)
          (pageSize.vpn address) with
      | mk done result =>
          rcases result with ⟨n₂, waiting⟩
          simp only [hInsert] at hUpdate
          cases done with
          | true =>
              refine ⟨(n, nonResident), n₂, waiting, rfl,
                (Option.some.inj hUpdate).symm, ?_⟩
              exact Or.inl ⟨waiting, hInsert⟩
          | false =>
              rcases Option.map_eq_some_iff.mp hUpdate with
                ⟨⟨n', rest⟩, hLoop, hState⟩
              refine ⟨(n, nonResident), n', rest, rfl,
                hState.symm, ?_⟩
              exact Or.inr ⟨n₂, waiting, rest, hInsert, hLoop⟩

/-
  A call keeps all counters exact if it is counted, and makes
  one inexact if it is not.
-/
def Decides
    (c : Config)
    (t t' : PageTableCuckoo)
    (op : PageMap.Op) : Prop :=
  (CountedBy c t op → AllExact c t') ∧
    (¬ CountedBy c t op → ∃ pageSize, ¬ Exact c (t'.nests pageSize))

theorem update_decides
    {t t' : PageTableCuckoo}
    (hAll : AllExact c t)
    {address ppn : Nat}
    {pageSize : PageSize}
    (hUpdate :
      updatePageTableFrames c fuel t address ppn pageSize =
        some t') :
    Decides c t t' (.update address ppn pageSize) := by
  rcases updatePageTableFrames_cases hUpdate with
    ⟨r, n', nonResident, hRelieve, hState, hInsert⟩
  rcases hAll pageSize with ⟨hSize, hExact⟩
  rcases relieve_counts hSize hExact hRelieve with
    ⟨hPos, hLe, hRelieved⟩
  rcases insert_counts hPos hLe hInsert with
    ⟨hPos', hInserted⟩
  have hCounted : Exact c n' ↔
      CountedBy c t (.update address ppn pageSize) := by
    rw [hInserted, hRelieved]
    simp only [CountedBy]
    by_cases hLoad : c.overloaded (t.nests pageSize).numItems
        (t.nests pageSize).size = true
    · rw [if_pos hLoad]
      constructor
      · rintro ⟨hFirst, hDone⟩
        rcases hFirst hLoad with ⟨hZero, hRehash⟩
        have hEq := relieve_eq hRelieve (fun _ => hRehash)
        rw [if_pos hLoad] at hEq
        rw [hEq] at hDone
        exact ⟨hZero, hRehash, hDone⟩
      · rintro ⟨hZero, hRehash, hDone⟩
        have hEq := relieve_eq hRelieve (fun _ => hRehash)
        rw [if_pos hLoad] at hEq
        rw [hEq]
        exact ⟨fun _ => ⟨hZero, hRehash⟩, hDone⟩
    · rw [if_neg hLoad]
      have hEq := relieve_eq hRelieve
        (fun hTrue => absurd hTrue hLoad)
      rw [if_neg hLoad] at hEq
      rw [hEq]
      exact ⟨fun hBoth => hBoth.2, fun hDone =>
        ⟨fun hTrue => absurd hTrue hLoad, hDone⟩⟩
  rcases allExact_update hAll hPos' hCounted with
    ⟨hKept, hBroken⟩
  subst hState
  exact ⟨hKept, fun hNot => ⟨pageSize, hBroken hNot⟩⟩

/- A cleared element keeps its tag with a translation left. -/
theorem isSome_tag_clear
    {e : Element}
    {tag : Nat}
    (hTag : e.tag = some tag)
    (index : Fin 8) :
    (e.clear index).tag.isSome = true ↔
      ∃ i, i ≠ index ∧ e.validityBits i = true := by
  have hBits : (∀ i, Function.update e.validityBits index
      false i = false) ↔
        ∀ i, i ≠ index → e.validityBits i = false := by
    constructor
    · intro hNone i hNe
      have := hNone i
      rwa [Function.update_of_ne hNe] at this
    · intro hNone i
      by_cases hEq : i = index
      · rw [hEq, Function.update_self]
      · rw [Function.update_of_ne hEq]
        exact hNone i hEq
  unfold Element.clear
  simp only
  split
  · rename_i hNone
    simpa using hBits.mp hNone
  · rename_i hSome
    rw [hBits] at hSome
    push Not at hSome
    simpa [hTag] using hSome

/- A deletion is counted just when the element stays. -/
theorem delete_decides
    (hAll : AllExact c t)
    (address : Nat) :
    Decides c t (deletePage c t address) (.delete address) := by
  rcases hAll .fourKb with ⟨hSize, hExact⟩
  have hVpn : address / 2 ^ PageSize.fourKb.bits =
      PageSize.fourKb.vpn address := rfl
  have hCounted :
      0 < (deleteFrom c (t.nests .fourKb)
          (PageSize.fourKb.vpn address)).size ∧
        (Exact c (deleteFrom c (t.nests .fourKb)
            (PageSize.fourKb.vpn address)) ↔
          CountedBy c t (.delete address)) := by
    simp only [CountedBy, deleteFrom]
    cases hFind : findTag c (t.nests .fourKb)
        (PageSize.fourKb.vpn address / 8) with
    | none =>
        refine ⟨hSize, ?_⟩
        simpa using hExact
    | some way =>
        have hTag := findTag_eq_some hFind
        have hWay : way < c.ways := List.mem_range.mp
          (List.mem_of_find?_eq_some hFind)
        have hSet := occupied_set hWay
          (position_lt hSize (c := c)
            (PageSize.fourKb.vpn address / 8) way)
          (((t.nests .fourKb).table way (position c
            (t.nests .fourKb)
            (PageSize.fourKb.vpn address / 8) way)).clear
              (blockIndex (PageSize.fourKb.vpn address)))
        refine ⟨hSize, ?_⟩
        simp only [Option.mem_def, Option.some.injEq, forall_eq']
        rw [← isSome_tag_clear hTag]
        rw [hTag, Option.isSome_some, if_pos rfl] at hSet
        unfold Exact at hExact ⊢
        have hSame : ∀ pos e, ((t.nests .fourKb).set way pos
            e).numItems = (t.nests .fourKb).numItems :=
          fun _ _ => rfl
        rw [hSame]
        constructor
        · intro hEq
          by_contra hGone
          rw [if_neg hGone] at hSet
          omega
        · intro hKept
          rw [if_pos hKept] at hSet
          omega
  rcases allExact_update hAll hCounted.1 hCounted.2 with
    ⟨hKept, hBroken⟩
  exact ⟨hKept, fun hNot => ⟨.fourKb, hBroken hNot⟩⟩

theorem allExact_construct
    {sizes : PageSize → Nat}
    (hSizes : ∀ pageSize, 0 < sizes pageSize) :
    AllExact c (construct sizes) := by
  intro pageSize
  exact ⟨hSizes pageSize, (occupied_fresh c _ 0).symm⟩

theorem operate_decides
    {t t' : PageTableCuckoo}
    {op : PageMap.Op}
    (hAll : AllExact c t)
    (hStep : operate c fuel t op = some t') :
    Decides c t t' op := by
  cases op with
  | update address ppn pageSize =>
      exact update_decides hAll hStep
  | delete address =>
      cases hStep
      exact delete_decides hAll address

/-
  In a completed run the counters are exact in every state
  just when every call is counted.
-/
theorem along_counted_iff
    (fuel : Nat)
    {sizes : PageSize → Nat}
    (hSizes : ∀ pageSize, 0 < sizes pageSize)
    {ops : List PageMap.Op}
    (hRun : Run.run (operate c fuel) (construct sizes) ops =
      some t) :
    Run.Along (operate c fuel) (CountedBy c) (construct sizes) ops ↔
      ∀ front, front <+: ops → ∀ t',
        Run.run (operate c fuel) (construct sizes) front = some t' →
          ∀ pageSize, Exact c (t'.nests pageSize) := by
  refine Run.along_iff_of_run (E := fun _ _ => True)
    (I := AllExact c) ?_ ?_ ?_ (allExact_construct hSizes)
    (Run.along_of_forall_mem _ (fun _ _ => trivial)) hRun
  · intro t hAll pageSize
    exact (hAll pageSize).2
  · intro t op t' hAll _ hCounted hStep
    exact (operate_decides hAll hStep).1 hCounted
  · intro t op t' hAll _ hNot hStep hExact
    rcases (operate_decides hAll hStep).2 hNot with
      ⟨pageSize, hWrong⟩
    exact hWrong (hExact pageSize)

end Cuckoo

end Virtuoso
