import Mathlib.Algebra.Group.Nat.Defs
import Virtuoso.Lib.Assoc
import Virtuoso.Lib.Run

/-
  The swap cache of `swap_cache.h`.

  A page that is swapped out receives the first slot that is
  not marked as used. Nothing ever clears the mark of a slot:
  `swapIn` only forgets the page, and a page that is swapped
  out again receives another slot. The marks agree with the
  pages exactly in the runs in which no page comes back.

  The swap size is the number of 4KB pages, from an `int`
  product of which the overflow is undefined. The flag for
  full memory, which is not read, the statistics and the log
  are left out.

  Main declarations:
    * `SwapCache.conserved_run_iff`
-/

namespace Virtuoso

/- A virtual page of an application. -/
abbrev SwapKey :=
  Nat × Int

/- `freePages` has `true` for the slots in use. -/
structure SwapCache where
  swapSize : Nat
  swapCacheMap : List (SwapKey × Nat)
  freePages : List Bool
deriving DecidableEq

namespace SwapCache

/- The product of the constructor is an `int`. -/
def FitsInt (swapSizeMb : Nat) : Prop :=
  swapSizeMb * 1024 < 2 ^ 31

instance
    (swapSizeMb : Nat) :
    Decidable (FitsInt swapSizeMb) :=
  inferInstanceAs (Decidable (_ < _))

/- A cache without pages. -/
def fresh (swapSizeMb : Nat) : SwapCache :=
  let swapSize := swapSizeMb * 1024 / 4
  ⟨swapSize, [], List.replicate swapSize false⟩

/- `SwapCache::SwapCache`, where its product is defined. -/
def construct (swapSizeMb : Nat) : Option SwapCache :=
  if FitsInt swapSizeMb then some (fresh swapSizeMb) else none

/- `findFreePage`, which marks the slot that it returns. -/
def findFreePage
    (s : SwapCache) :
    Option (Nat × List Bool) :=
  (s.freePages.findIdx? (fun used => !used)).map
    (fun i => (i, s.freePages.set i true))

/- `SwapCache::lookup`. -/
def lookup (s : SwapCache) (key : SwapKey) : Option Nat :=
  s.swapCacheMap.lookup key

/- `SwapCache::swapOut`. -/
def swapOut
    (s : SwapCache)
    (key : SwapKey) :
    Bool × SwapCache :=
  match s.findFreePage with
  | none => (false, s)
  | some (swapLocation, freePages) =>
      let map := Assoc.insert s.swapCacheMap key swapLocation
      (decide (¬ s.swapSize < map.length),
        { s with swapCacheMap := map, freePages := freePages })

/- `SwapCache::swapIn`. -/
def swapIn (s : SwapCache) (key : SwapKey) : SwapCache :=
  { s with swapCacheMap := Assoc.erase s.swapCacheMap key }

/- The calls of the cache. -/
inductive Op
  | swapOut (key : SwapKey)
  | swapIn (key : SwapKey)

/- Every call of the cache returns. -/
def step (s : SwapCache) : Op → Option SwapCache
| .swapOut key => some (s.swapOut key).2
| .swapIn key => some (s.swapIn key)

/- The slots of the pages that are swapped out. -/
def slots (s : SwapCache) : List Nat :=
  s.swapCacheMap.map Prod.snd

/-
  The slots in use are distinct and in range, and as many
  slots are marked as pages are swapped out.
-/
structure Conserved (s : SwapCache) : Prop where
  distinct : s.slots.Nodup
  inRange : ∀ slot ∈ s.slots, slot < s.swapSize
  marked : s.freePages.count true = s.swapCacheMap.length

/-
  What a call promises: a page that comes back or is swapped
  out again frees its slot, and only a full swap space makes
  a call fail.
-/
def Serves (s : SwapCache) : Op → Prop
| .swapIn key =>
    ∀ slot ∈ s.lookup key,
      (s.swapIn key).freePages[slot]? = some false
| .swapOut key =>
    ((s.swapOut key).1 = false →
        s.swapCacheMap.length = s.swapSize) ∧
      ((s.swapOut key).1 = true →
        ∀ slot ∈ s.lookup key,
          (s.swapOut key).2.lookup key = some slot ∨
            (s.swapOut key).2.freePages[slot]? = some false)

/- The call is about no page that is swapped out. -/
def Meets (s : SwapCache) : Op → Prop
| .swapIn key => s.lookup key = none
| .swapOut key =>
    s.lookup key = none ∨ s.findFreePage = none

instance
    (s : SwapCache)
    (op : Op) :
    Decidable (Meets s op) :=
  match op with
  | .swapIn key =>
      inferInstanceAs (Decidable (s.lookup key = none))
  | .swapOut key =>
      inferInstanceAs (Decidable
        (s.lookup key = none ∨ s.findFreePage = none))

/- What every run preserves. -/
structure Wf (s : SwapCache) : Prop where
  keys : (s.swapCacheMap.map Prod.fst).Nodup
  distinct : s.slots.Nodup
  used : ∀ slot ∈ s.slots, s.freePages[slot]? = some true
  length : s.freePages.length = s.swapSize
  marked : s.swapCacheMap.length ≤ s.freePages.count true

variable {s s' : SwapCache}

/- The slot that is found was not marked. -/
theorem findFreePage_eq_some
    {slot : Nat}
    {pages : List Bool}
    (hFind : s.findFreePage = some (slot, pages)) :
    s.freePages[slot]? = some false ∧
      pages = s.freePages.set slot true ∧
      pages.count true = s.freePages.count true + 1 := by
  rcases Option.map_eq_some_iff.mp hFind with
    ⟨i, hIdx, hEq⟩
  rw [Prod.mk.injEq] at hEq
  rcases hEq with ⟨hSlot, hPages⟩
  subst hSlot
  subst hPages
  rcases List.findIdx?_eq_some_iff_getElem.mp hIdx with
    ⟨hLt, hFree, -⟩
  have hFalse : s.freePages[i] = false := by
    simpa using hFree
  refine ⟨?_, rfl, ?_⟩
  · rw [List.getElem?_eq_getElem hLt, hFalse]
  · rw [List.count_set hLt, hFalse]
    simp

/- Without a free slot all of them are marked. -/
theorem count_of_findFreePage
    (hFind : s.findFreePage = none) :
    s.freePages.count true = s.freePages.length := by
  rw [List.count_eq_length]
  intro used hMem
  have hNone := List.findIdx?_eq_none_iff.mp
    (Option.map_eq_none_iff.mp hFind) used hMem
  simpa using hNone.symm

/- The slots of the pages after one page was set aside. -/
theorem slots_erase
    (s : SwapCache)
    (key : SwapKey) :
    ((Assoc.erase s.swapCacheMap key).map Prod.snd).Sublist
      s.slots :=
  List.filter_sublist.map Prod.snd

theorem wf_swapIn
    (hWf : s.Wf)
    (key : SwapKey) :
    (s.swapIn key).Wf := by
  refine ⟨Assoc.nodup_keys_erase hWf.keys key,
    hWf.distinct.sublist (slots_erase s key), ?_, hWf.length,
    ?_⟩
  · intro slot hMem
    exact hWf.used slot ((slots_erase s key).subset hMem)
  · exact Nat.le_trans (List.length_filter_le _ _) hWf.marked

theorem wf_swapOut
    (hWf : s.Wf)
    (key : SwapKey) :
    (s.swapOut key).2.Wf := by
  unfold swapOut
  cases hFind : s.findFreePage with
  | none => exact hWf
  | some found =>
      rcases found with ⟨slot, pages⟩
      rcases findFreePage_eq_some hFind with
        ⟨hFree, hPages, hCount⟩
      have hNew : slot ∉ s.slots := by
        intro hMem
        have hUsed := hWf.used slot hMem
        rw [hFree] at hUsed
        cases hUsed
      have hSub := slots_erase s key
      refine ⟨Assoc.nodup_keys_insert hWf.keys key slot, ?_,
        ?_, ?_, ?_⟩
      · refine List.nodup_cons.mpr
          ⟨fun hMem => hNew (hSub.subset hMem),
            hWf.distinct.sublist hSub⟩
      · intro other hMem
        have hSame : other ≠ slot →
            other ∈ s.slots → pages[other]? = some true := by
          intro hNe hIn
          rw [hPages, List.getElem?_set_ne hNe.symm]
          exact hWf.used other hIn
        rcases List.mem_cons.mp hMem with hEq | hOld
        · have hLt : slot < s.freePages.length :=
            (List.getElem?_eq_some_iff.mp hFree).1
          simp only at hEq
          rw [hEq, hPages, List.getElem?_set_self hLt]
        · have hIn := hSub.subset hOld
          exact hSame (fun hEq => hNew (hEq ▸ hIn)) hIn
      · simp only [hPages, List.length_set, hWf.length]
      · have hLe : (Assoc.erase s.swapCacheMap key).length ≤
            s.swapCacheMap.length := List.length_filter_le _ _
        have := hWf.marked
        simp only [Assoc.insert, List.length_cons, hCount]
        omega

theorem wf_step
    (hWf : s.Wf)
    {op : Op}
    (hStep : s.step op = some s') :
    s'.Wf := by
  cases op with
  | swapOut key =>
      cases hStep
      exact wf_swapOut hWf key
  | swapIn key =>
      cases hStep
      exact wf_swapIn hWf key

/- No more slots are marked than there are. -/
theorem Wf.length_le
    (hWf : s.Wf) :
    s.swapCacheMap.length ≤ s.swapSize := by
  have hCount := List.count_le_length (a := true) (l := s.freePages)
  rw [hWf.length] at hCount
  exact Nat.le_trans hWf.marked hCount

/- A call that finds a slot succeeds. -/
theorem swapOut_eq_true
    (hWf : s.Wf)
    (key : SwapKey)
    {found : Nat × List Bool}
    (hFind : s.findFreePage = some found) :
    (s.swapOut key).1 = true := by
  have hNext := (wf_swapOut hWf key).length_le
  unfold swapOut at *
  simp only [hFind] at *
  simpa using hNext

/- A call about no page that is swapped out keeps the marks. -/
theorem marked_step
    (hMarked : s.freePages.count true = s.swapCacheMap.length)
    {op : Op}
    (hMeets : s.Meets op)
    (hStep : s.step op = some s') :
    s'.freePages.count true = s'.swapCacheMap.length := by
  cases op with
  | swapIn key =>
      cases hStep
      simp only [swapIn, Assoc.erase_of_lookup_none hMeets]
      exact hMarked
  | swapOut key =>
      cases hStep
      unfold swapOut
      cases hFind : s.findFreePage with
      | none => exact hMarked
      | some found =>
          rcases found with ⟨slot, pages⟩
          rcases hMeets with hNew | hFull
          · have hErase := Assoc.erase_of_lookup_none hNew
            have hCount := (findFreePage_eq_some hFind).2.2
            simp only [Assoc.insert, hErase, List.length_cons,
              hCount, hMarked]
          · rw [hFind] at hFull
            cases hFull

/- Any other call leaves a mark without a page. -/
theorem not_marked_step
    (hWf : s.Wf)
    (hMarked : s.freePages.count true = s.swapCacheMap.length)
    {op : Op}
    (hMissed : ¬ s.Meets op)
    (hStep : s.step op = some s') :
    s'.freePages.count true ≠ s'.swapCacheMap.length := by
  cases op with
  | swapIn key =>
      cases hStep
      rcases Option.ne_none_iff_exists'.mp hMissed with
        ⟨slot, hLookup⟩
      have hLength := Assoc.length_erase hWf.keys hLookup
      simp only [swapIn]
      omega
  | swapOut key =>
      cases hStep
      simp only [Meets, not_or] at hMissed
      rcases Option.ne_none_iff_exists'.mp hMissed.1 with
        ⟨slot, hLookup⟩
      rcases Option.ne_none_iff_exists'.mp hMissed.2 with
        ⟨⟨slot', pages⟩, hFind⟩
      have hLength := Assoc.length_erase hWf.keys hLookup
      have hCount := (findFreePage_eq_some hFind).2.2
      simp only [swapOut, hFind, Assoc.insert, List.length_cons]
      omega

/- A call about no page that is swapped out is served. -/
theorem serves_of_meets
    (hWf : s.Wf)
    (hMarked : s.freePages.count true = s.swapCacheMap.length)
    {op : Op}
    (hMeets : s.Meets op) :
    s.Serves op := by
  cases op with
  | swapIn key =>
      intro slot hLookup
      rw [show s.lookup key = none from hMeets] at hLookup
      cases hLookup
  | swapOut key =>
      cases hFind : s.findFreePage with
      | none =>
          have hResult : s.swapOut key = (false, s) := by
            simp only [swapOut, hFind]
          refine ⟨fun _ => ?_, fun hTrue => ?_⟩
          · rw [← hMarked, count_of_findFreePage hFind, hWf.length]
          · rw [hResult] at hTrue
            cases hTrue
      | some found =>
          have hTrue := swapOut_eq_true hWf key hFind
          refine ⟨fun hFalse => ?_, fun _ slot hLookup => ?_⟩
          · rw [hTrue] at hFalse
            cases hFalse
          · rcases hMeets with hNew | hFull
            · rw [hNew] at hLookup
              cases hLookup
            · rw [hFind] at hFull
              cases hFull

theorem conserved_of_wf
    (hWf : s.Wf)
    (hMarked : s.freePages.count true = s.swapCacheMap.length) :
    s.Conserved := by
  refine ⟨hWf.distinct, fun slot hMem => ?_, hMarked⟩
  rw [← hWf.length]
  exact (List.getElem?_eq_some_iff.mp (hWf.used slot hMem)).1

theorem wf_fresh
    (swapSizeMb : Nat) :
    (fresh swapSizeMb).Wf := by
  refine ⟨by simp [fresh], by simp [fresh, slots], ?_,
    by simp [fresh], by simp [fresh]⟩
  intro slot hMem
  simp [fresh, slots] at hMem

/- Every run has an outcome. -/
theorem run_total
    (s : SwapCache)
    (ops : List Op) :
    ∃ s', Run.run step s ops = some s' := by
  induction ops generalizing s with
  | nil => exact ⟨s, rfl⟩
  | cons op ops ih =>
      cases op with
      | swapOut key => exact ih (s.swapOut key).2
      | swapIn key => exact ih (s.swapIn key)

/-
  There is a cache, every state of a run conserves its slots
  and every call is served as promised, exactly when the size
  fits and no call of the run is about a page that is swapped
  out, except a failing `swapOut`.
-/
theorem conserved_run_iff
    (swapSizeMb : Nat)
    (ops : List Op) :
    (∃ s₀ ∈ construct swapSizeMb, ∀ front, front <+: ops →
      ∀ s, Run.run step s₀ front = some s →
        s.Conserved ∧ ∀ op, front ++ [op] <+: ops → s.Serves op) ↔
      FitsInt swapSizeMb ∧
        Run.Along step Meets (fresh swapSizeMb) ops := by
  have hInit : (fresh swapSizeMb).Wf ∧
      (fresh swapSizeMb).freePages.count true =
        (fresh swapSizeMb).swapCacheMap.length :=
    ⟨wf_fresh swapSizeMb, by simp [fresh, List.count_replicate]⟩
  constructor
  · rintro ⟨s₀, hConstruct, hAll⟩
    unfold construct at hConstruct
    split_ifs at hConstruct with hFits
    · cases hConstruct
      refine ⟨hFits, ?_⟩
      rcases run_total (fresh swapSizeMb) ops with
        ⟨last, hRun⟩
      refine (Run.along_iff_of_run
        (I := fun s => s.Wf ∧
          s.freePages.count true = s.swapCacheMap.length)
        (E := fun _ _ => True)
        (fun s hInv => conserved_of_wf hInv.1 hInv.2) ?_ ?_
        hInit
        (Run.along_of_forall_mem _ (fun _ _ => trivial))
        hRun).mpr ?_
      · intro s op s' hInv _ hMeets hStep
        exact ⟨wf_step hInv.1 hStep,
          marked_step hInv.2 hMeets hStep⟩
      · intro s op s' hInv _ hMissed hStep hConserved
        exact not_marked_step hInv.1 hInv.2 hMissed hStep
          hConserved.marked
      · intro front hFront t hFrontRun
        exact (hAll front hFront t hFrontRun).1
    · cases hConstruct
  · rintro ⟨hFits, hAlong⟩
    refine ⟨fresh swapSizeMb, if_pos hFits, ?_⟩
    intro front hFront s hRun
    rcases Run.along_inv
        (I := fun s => s.Wf ∧
          s.freePages.count true = s.swapCacheMap.length)
        (fun s op s' hInv hMeets hStep =>
          ⟨wf_step hInv.1 hStep, marked_step hInv.2 hMeets hStep⟩)
        hInit hAlong hFront hRun with ⟨hInv, hNext⟩
    refine ⟨conserved_of_wf hInv.1 hInv.2, fun op hOp => ?_⟩
    exact serves_of_meets hInv.1 hInv.2 (hNext op hOp)

/-
  A page is swapped out, in, and out again: two slots are
  marked for one page.
-/
theorem conserved_run_round :
    ∃ s₀ ∈ construct 1, ∃ s ∈ Run.run step s₀
        [.swapOut (0, 0), .swapIn (0, 0), .swapOut (0, 0)],
      s.swapCacheMap.length = 1 ∧
        s.freePages.count true = 2 ∧ ¬ s.Conserved := by
  refine ⟨_, Option.get_mem ?_, _, Option.get_mem ?_, ?_, ?_,
    fun hConserved => absurd hConserved.marked ?_⟩
  iterate 5 decide +kernel

end SwapCache

end Virtuoso
