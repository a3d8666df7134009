import Virtuoso.EagerPaging.Handler
import Virtuoso.EagerPaging.Ranges
import Virtuoso.PageTable.Radix.Sharing

/-
  When a fault of eager paging maps the faulting page.

  The ranges back the VMA from its first page on, as far as
  the free pages reach. A page needs the page-table frames
  that are missing on its path, except for those that the
  pages before it have built, and the handler has for each
  page only as many as the faulting page misses. So a fault
  may fail at a page that needs more, and it may return
  without a mapping of the faulting page.

  Main declarations:
    * `EagerPaging.allocateRanges_spec`
    * `EagerPaging.mapsFaulting_iff`
-/

------------------------------------------------------------
-- Pages, Frames And Their Installation
------------------------------------------------------------

namespace Virtuoso

namespace EagerPaging

open Span
open Radix (Large KeepsLarge missing unshared pageOf)
open SniperExceptionHandler (takeFrames giveBack)

/- The pages of ranges that tile follow each other. -/
theorem mappings_of_tiles
    {ranges : List Range}
    {vpn remaining stop : Nat}
    (hTiles : Tiles vpn remaining ranges stop) :
    vpn ≤ stop ∧
      (ranges.flatMap Range.mappings).map Prod.fst =
        List.range' vpn (stop - vpn) ∧
      points (ranges.map Range.frames) = stop - vpn := by
  induction ranges generalizing vpn remaining with
  | nil =>
      have hEq : vpn = stop := hTiles
      subst hEq
      simp
  | cons range ranges ih =>
      rcases hTiles with ⟨rfl, ⟨k, hBounds⟩, -, hRest⟩
      rcases ih hRest with ⟨hLe, hPages, hPoints⟩
      have hPos : 0 < 2 ^ k := Nat.two_pow_pos k
      have hHead : range.mappings.map Prod.fst =
          List.range' range.vpn range.bounds := by
        unfold Range.mappings
        rw [List.map_map, List.range'_eq_map_range]
        rfl
      have hSplit : stop - range.vpn =
          range.bounds + (stop - (range.vpn + range.bounds)) := by
        omega
      refine ⟨by omega, ?_, ?_⟩
      · rw [List.flatMap_cons, List.map_append, hHead, hPages,
          hSplit, List.range'_append_1]
      · rw [List.map_cons, points_cons, hPoints, Range.frames,
          Span.size]
        simp only
        omega

/- The pages that the ranges of a VMA back. -/
def System.backed (s : System) (v : Vma) : Nat :=
  min v.remainingPages (points s.buddy.listed)

variable {s : System}

/-
  The ranges of a VMA back its pages from the first one on,
  as many as there are free pages.
-/
theorem allocateRanges_spec
    {out : List Span}
    (hTiled : Buddy.Tiled s.buddy out)
    (v : Vma) :
    ∃ ranges b', v.allocateRanges s.buddy = some (ranges, b') ∧
      (ranges.flatMap Range.mappings).map Prod.fst =
        List.range' v.first (s.backed v) ∧
      ∀ page ∈ ranges.flatMap Range.mappings,
        page.2 < s.buddy.limit := by
  rcases allocateFrom_spec hTiled
      (Nat.le_refl v.remainingPages) v.first with
    ⟨ranges, b', stop, hAllocate, hSame, hTiles, hTiled', -, hStop⟩
  rcases mappings_of_tiles hTiles with ⟨hLe, hPages, hPoints⟩
  have hBefore := Buddy.points_listed hTiled
  have hAfter := Buddy.points_listed hTiled'
  rw [points_append, points_perm (List.reverse_perm _), hPoints,
    Buddy.bounds_of_geometry hSame] at hAfter
  have hCount : stop - v.first = s.backed v := by
    unfold System.backed
    rcases hStop with hWhole | ⟨hShort, hEmpty⟩
    · omega
    · have hNone : b'.listed = [] := by
        rw [Buddy.listed_of_shelved hTiled'.shelved]
        apply List.eq_nil_iff_forall_not_mem.mpr
        intro block hMem
        rcases mem_shelves.mp hMem with ⟨k, hLt, hList⟩
        rw [hEmpty k (by omega)] at hList
        cases hList
      rw [hNone, points_nil] at hAfter
      omega
  refine ⟨ranges, b', hAllocate, hCount ▸ hPages, ?_⟩
  intro page hMem
  rcases List.mem_flatMap.mp hMem with ⟨range, hRange, hPage⟩
  rcases List.mem_map.mp hPage with ⟨j, hIndex, rfl⟩
  have hLess := List.mem_range.mp hIndex
  have hFrames : range.frames ∈
      (ranges.map Range.frames).reverse ++ out :=
    List.mem_append_left _ (List.mem_reverse.mpr
      (List.mem_map_of_mem hRange))
  rcases hTiled'.handed _ hFrames with ⟨k, -, hBlock⟩
  have hBound := (hTiled'.block_in_range hBlock (Or.inr hFrames)).2
  rw [Buddy.limit_of_geometry hSame] at hBound
  simp only [Range.frames] at hBound
  simp only
  omega

/-
  The page-table frames on the path of a page that the path
  of the page before it does not go through.
-/
def boundaries (page : Nat) : Nat :=
  if page % 512 ≠ 0 then
    0
  else if page % 512 ^ 2 ≠ 0 then
    1
  else if page % 512 ^ 3 ≠ 0 then
    2
  else
    3

/-
  The frames that a page needs when the pages from `first` on
  are installed before it.
-/
def newFrames
    (t : Radix.Session)
    (first page : Nat) : Nat :=
  if page = first then
    missing t (page * 4096)
  else
    min (missing t (page * 4096)) (boundaries page)

theorem unshared_pages
    (p q : Nat) :
    unshared (p * 4096) (q * 4096) 4 =
      if q / 2 ^ 27 % 512 = p / 2 ^ 27 % 512 then
        if q / 2 ^ 18 % 512 = p / 2 ^ 18 % 512 then
          if q / 2 ^ 9 % 512 = p / 2 ^ 9 % 512 then
            0
          else
            1
        else
          2
      else
        3 := by
  have hFour : ∀ x : Nat, Radix.index 4 (x * 4096) =
      x / 2 ^ 27 % 512 := by
    intro x
    unfold Radix.index
    omega
  have hThree : ∀ x : Nat, Radix.index 3 (x * 4096) =
      x / 2 ^ 18 % 512 := by
    intro x
    unfold Radix.index
    omega
  have hTwo : ∀ x : Nat, Radix.index 2 (x * 4096) =
      x / 2 ^ 9 % 512 := by
    intro x
    unfold Radix.index
    omega
  simp only [unshared, hFour, hThree, hTwo, ite_self]

/- The page before has built what a page shares with it. -/
theorem unshared_succ
    (p : Nat) :
    unshared (p * 4096) ((p + 1) * 4096) 4 =
      boundaries (p + 1) := by
  rw [unshared_pages]
  unfold boundaries
  split_ifs <;> omega

/- An earlier page shares no more than the page before. -/
theorem boundaries_le_unshared
    {p q : Nat}
    (hLess : p < q)
    (hNear : q < p + 2 ^ 31) :
    boundaries q ≤ unshared (p * 4096) (q * 4096) 4 := by
  rw [unshared_pages]
  unfold boundaries
  split_ifs <;> omega

/- The need of a later page after a page is installed. -/
theorem newFrames_step
    {t t' : Radix.Session}
    {p q : Nat}
    (hLess : p < q)
    (hNear : q < p + 2 ^ 31)
    (hMissing : missing t' (q * 4096) =
      min (missing t (q * 4096))
        (unshared (p * 4096) (q * 4096) 4)) :
    newFrames t' (p + 1) q = newFrames t p q := by
  have hOther : q ≠ p := by omega
  have hShared := boundaries_le_unshared hLess hNear
  unfold newFrames
  rw [if_neg hOther, hMissing]
  split_ifs with hNext
  · rw [hNext, unshared_succ]
  · rw [min_assoc, min_eq_right hShared]

/- What the handler relies on. -/
structure Ready (s : System) : Prop where
  memory : s.memory.kernelStartAddress < 2 ^ 64
  table : Radix.Inv s.table
  keeps : KeepsLarge s.table

/- `s'` is `s` with a page installed. -/
structure Installs
    (s s' : System)
    (address : Nat) : Prop where
  ready : Ready s'
  large : ∀ other, Large s'.table other ↔ Large s.table other
  mapped : ∀ page,
    (Radix.mappingOf s'.table.past page).isSome ↔
      page = pageOf address ∨
        (Radix.mappingOf s.table.past page).isSome
  missing : ∀ other, missing s'.table other =
    min (missing s.table other) (unshared address other 4)

/- Frames are always taken, since no frame is `-1`. -/
theorem takeFrames_total
    (n : Nat)
    {m : PhysicalMemoryAllocator}
    (hKernel : m.kernelStartAddress < 2 ^ 64) :
    ∃ frames m', takeFrames n m = some (frames, m') ∧
      frames.length = n ∧
      m'.kernelStartAddress < 2 ^ 64 := by
  induction n generalizing m with
  | zero => exact ⟨[], m, rfl, rfl, hKernel⟩
  | succ n ih =>
      have hBound : 2 ^ 64 ≤ 4096 * invalidPpn := by
        unfold invalidPpn
        decide
      have hValid : m.kernelStartAddress / 4096 ≠ invalidPpn :=
        Nat.ne_of_lt (Nat.div_lt_of_lt_mul
          (lt_of_lt_of_le hKernel hBound))
      have hNext : (m.handlePageTableAllocations
          4096).2.kernelStartAddress < 2 ^ 64 := by
        unfold PhysicalMemoryAllocator.handlePageTableAllocations
        exact Nat.mod_lt _ (by decide)
      rcases ih hNext with ⟨frames, m', hTake, hLength, hLess⟩
      refine ⟨(m.handlePageTableAllocations 4096).1 :: frames,
        m', ?_, by rw [List.length_cons, hLength], hLess⟩
      unfold takeFrames
      simp only
      rw [hTake]
      exact if_neg hValid

theorem kernelStart_deallocate
    (m : PhysicalMemoryAllocator)
    (bytes : Nat) :
    (m.handlePageTableDeallocations
      bytes).kernelStartAddress < 2 ^ 64 := by
  unfold PhysicalMemoryAllocator.handlePageTableDeallocations
  exact Nat.mod_lt _ (by decide)

theorem kernelStart_giveBack
    (n : Nat)
    {m : PhysicalMemoryAllocator}
    (hKernel : m.kernelStartAddress < 2 ^ 64) :
    (giveBack n m).kernelStartAddress < 2 ^ 64 := by
  induction n generalizing m with
  | zero => exact hKernel
  | succ n ih =>
      unfold giveBack
      exact ih (kernelStart_deallocate m 4096)

/- The mapping after a 4KB update. -/
theorem mappingOf_fourKb
    (past : List Radix.Op)
    (address ppn : Nat)
    (frames : List Nat)
    (page : Nat) :
    (Radix.mappingOf (.update address ppn .fourKb frames ::
        past) page).isSome ↔
      page = pageOf address ∨
        (Radix.mappingOf past page).isSome := by
  simp only [Radix.mappingOf, Mapping.map, PageSize.pages,
    Nat.div_one]
  split_ifs with hPage
  · simp [hPage]
  · simp [hPage]

/-
  A page is installed if its region has no 2MB page and the
  frames suffice, and otherwise the handler fails.
-/
theorem allocatePageTableFrames_spec
    (hReady : Ready s)
    {ppn : Nat}
    (hPpn : ppn ≠ invalidPpn)
    (address frames : Nat) :
    (¬ (¬ Large s.table address ∧
        missing s.table address ≤ frames) →
      allocatePageTableFrames s address ppn frames = none) ∧
    (¬ Large s.table address →
      missing s.table address ≤ frames →
        ∃ s', allocatePageTableFrames s address ppn frames =
            some s' ∧
          s'.buddy = s.buddy ∧ Installs s s' address) := by
  rcases takeFrames_total frames hReady.memory with
    ⟨taken, m, hTake, hLength, hKernel⟩
  constructor
  · intro hUnfit
    have hNone : Radix.updatePageTableFrames s.table.table
        address ppn .fourKb taken = none := by
      by_cases hLarge : Large s.table address
      · exact Radix.update_of_large hReady.table hReady.keeps
          hLarge ppn taken
      · apply Radix.update_of_short hReady.table hLarge
        rw [hLength]
        exact not_le.mp (fun hEnough =>
          hUnfit ⟨hLarge, hEnough⟩)
    simp only [allocatePageTableFrames, hTake,
      Option.bind_some, hNone, Option.map_none]
  · intro hSmall hEnough
    rcases Radix.update_of_enough hReady.table hSmall
        (hLength.symm ▸ hEnough) hPpn with
      ⟨used, t, hUpdate, hInv, hMissing⟩
    simp only [allocatePageTableFrames, hTake,
      Option.bind_some, hUpdate, Option.map_some,
      Option.some.injEq, exists_eq_left', true_and]
    have hLarge : ∀ other, Large ⟨t, .update address ppn
        .fourKb taken :: s.table.past⟩ other ↔
          Large s.table other :=
      fun other => Radix.large_fourKb other
    refine ⟨⟨kernelStart_giveBack _ hKernel, hInv, ?_⟩, hLarge,
      mappingOf_fourKb _ _ _ _, hMissing⟩
    intro other hOther
    rw [mappingOf_fourKb]
    exact Or.inr (hReady.keeps other ((hLarge other).mp hOther))

/-
  The pages that follow each other are installed if none of
  them needs more frames than there are for it.
-/
theorem installPages_spec
    (hReady : Ready s)
    {frames first count : Nat}
    {pages : List (Nat × Nat)}
    (hPages : pages.map Prod.fst = List.range' first count)
    (hCount : count ≤ 2 ^ 31)
    (hPpn : ∀ page ∈ pages, page.2 ≠ invalidPpn) :
    (¬ (∀ page, first ≤ page → page < first + count →
        ¬ Large s.table (page * 4096) ∧
          newFrames s.table first page ≤ frames) →
      installPages frames pages s = none) ∧
    ((∀ page, first ≤ page → page < first + count →
        ¬ Large s.table (page * 4096) ∧
          newFrames s.table first page ≤ frames) →
      ∃ s', installPages frames pages s = some s' ∧
        Ready s' ∧ ∀ page,
          (Radix.mappingOf s'.table.past page).isSome ↔
            (∃ p, first ≤ p ∧ p < first + count ∧
              page = pageOf (p * 4096)) ∨
              (Radix.mappingOf s.table.past page).isSome) := by
  induction pages generalizing s first count with
  | nil =>
      have hNone : count = 0 := by
        cases count with
        | zero => rfl
        | succ count => cases hPages
      subst hNone
      constructor
      · intro hUnfit
        exact absurd (fun page hLow hHigh => by omega) hUnfit
      · intro _
        refine ⟨s, rfl, hReady, fun page => ?_⟩
        constructor
        · exact Or.inr
        · rintro (⟨p, hLow, hHigh, -⟩ | hOld)
          · omega
          · exact hOld
  | cons page pages ih =>
      cases count with
      | zero => cases hPages
      | succ count =>
          rw [List.map_cons, List.range'_succ,
            List.cons.injEq] at hPages
          rcases hPages with ⟨hFirst, hRest⟩
          have hOwn : newFrames s.table first first =
              missing s.table (first * 4096) := if_pos rfl
          rcases allocatePageTableFrames_spec hReady
              (hPpn page (by simp)) (page.1 * 4096) frames with
            ⟨hFails, hInstalls⟩
          rw [hFirst] at hFails hInstalls
          by_cases hFits :
              ¬ Large s.table (first * 4096) ∧
                missing s.table (first * 4096) ≤ frames
          · rcases hInstalls hFits.1 hFits.2 with
              ⟨next, hInstall, -, hNext⟩
            have hSame : (∀ p, first + 1 ≤ p →
                p < first + 1 + count →
                  ¬ Large next.table (p * 4096) ∧
                    newFrames next.table (first + 1) p ≤ frames) ↔
                ∀ p, first ≤ p → p < first + (count + 1) →
                  ¬ Large s.table (p * 4096) ∧
                    newFrames s.table first p ≤ frames := by
              have hStep : ∀ p, first + 1 ≤ p →
                  p < first + 1 + count →
                    newFrames next.table (first + 1) p =
                      newFrames s.table first p :=
                fun p hLow hHigh => newFrames_step (by omega)
                  (by omega) (hNext.missing (p * 4096))
              constructor
              · intro hAll p hLow hHigh
                by_cases hHere : p = first
                · rw [hHere, hOwn]
                  exact hFits
                · rw [← hStep p (by omega) (by omega),
                    ← hNext.large]
                  exact hAll p (by omega) (by omega)
              · intro hAll p hLow hHigh
                rw [hStep p hLow hHigh, hNext.large]
                exact hAll p (by omega) (by omega)
            rcases ih hNext.ready hRest (by omega)
                (fun p hMem => hPpn p (by simp [hMem])) with
              ⟨hNone, hSome⟩
            rw [hSame] at hNone hSome
            simp only [installPages, hFirst, hInstall,
              Option.bind_some]
            refine ⟨hNone, fun hAll => ?_⟩
            rcases hSome hAll with ⟨s', hRun, hReady', hMapped⟩
            refine ⟨s', hRun, hReady', fun q => ?_⟩
            rw [hMapped, hNext.mapped]
            constructor
            · rintro (⟨p, hLow, hHigh, hPage⟩ | hHere | hOld)
              · exact Or.inl ⟨p, by omega, by omega, hPage⟩
              · exact Or.inl ⟨first, by omega, by omega, hHere⟩
              · exact Or.inr hOld
            · rintro (⟨p, hLow, hHigh, hPage⟩ | hOld)
              · by_cases hHere : p = first
                · exact Or.inr (Or.inl (hHere ▸ hPage))
                · exact Or.inl ⟨p, by omega, by omega, hPage⟩
              · exact Or.inr (Or.inr hOld)
          · have hNone : installPages frames (page :: pages) s =
                none := by
              simp only [installPages, hFirst, hFails hFits,
                Option.bind_none]
            refine ⟨fun _ => hNone, fun hAll => ?_⟩
            have hHere := hAll first (Nat.le_refl first) (by omega)
            rw [hOwn] at hHere
            exact absurd hHere hFits

------------------------------------------------------------
-- Faults
------------------------------------------------------------

/-
  The handler returns from a fault, and the walk that is tried
  again finds the page.
-/
def MapsFaulting
    (s : System)
    (vmas : List Vma)
    (va frames : Nat) : Prop :=
  ∃ ppn s' r,
    handlePageFault s vmas (va / 2 ^ 12) frames = some (ppn, s') ∧
      Radix.initializeWalk s'.table.table va = some r ∧
      r.isPagefault = false

/-
  The handler maps the faulting page exactly if that is one of
  the pages that are backed, and each of these is in a region
  without a 2MB page and needs no more page-table frames than
  the walk requested.
-/
theorem mapsFaulting_iff
    {s : System}
    {out : List Span}
    (hBuddy : Buddy.FreeListInv s.buddy.memorySize
      s.buddy.maxOrder s.buddy.kernelSize ⟨s.buddy, out⟩)
    (hMemory : s.buddy.memorySize < 2 ^ 31)
    (hReady : Ready s)
    {vmas : List Vma}
    {vma : Vma}
    {va : Nat}
    (hVma : vmas.find?
      (fun v => v.contains (va / 2 ^ 12 * 2 ^ 12)) = some vma)
    {r : PTWResult}
    (hWalk : Radix.initializeWalk s.table.table va = some r)
    (hFault : r.isPagefault = true) :
    MapsFaulting s vmas va r.requestedFrames ↔
      (∃ page, vma.first ≤ page ∧
        page < vma.first + s.backed vma ∧
          pageOf va = pageOf (page * 4096)) ∧
      ∀ page, vma.first ≤ page →
        page < vma.first + s.backed vma →
          ¬ Large s.table (page * 4096) ∧
            newFrames s.table vma.first page ≤
              r.requestedFrames := by
  rcases allocateRanges_spec
      (Buddy.tiled_of_freeListInv hBuddy) vma with
    ⟨ranges, b', hAllocate, hPages, hFrames⟩
  have hPpn : ∀ page ∈ ranges.flatMap Range.mappings,
      page.2 ≠ invalidPpn := by
    intro page hMem
    have hLess := hFrames page hMem
    unfold Buddy.limit Buddy.pagesInMb at hLess
    unfold invalidPpn
    omega
  have hCount : s.backed vma ≤ 2 ^ 31 := by
    refine (Nat.min_le_left _ _).trans ?_
    unfold Vma.remainingPages
    simp only
    split_ifs <;> omega
  have hNext : Ready { s with buddy := b' } :=
    ⟨hReady.memory, hReady.table, hReady.keeps⟩
  rcases installPages_spec hNext hPages hCount hPpn with
    ⟨hNone, hSome⟩
  -- the faulting page has no mapping before
  have hUnmapped :
      (Radix.mappingOf s.table.past (pageOf va)).isSome =
        false := by
    rcases Radix.agrees_of_inv hReady.table va with
      ⟨r', hWalk', -, hSame⟩
    rw [hWalk, Option.some.injEq] at hWalk'
    rw [← hWalk', hFault] at hSame
    rw [← Option.not_isNone, ← hSame]
    rfl
  unfold MapsFaulting handlePageFault allocateVmaEagerly
  simp only [hVma, hAllocate, Option.bind_some]
  by_cases hAll : ∀ page, vma.first ≤ page →
      page < vma.first + s.backed vma →
        ¬ Large s.table (page * 4096) ∧
          newFrames s.table vma.first page ≤ r.requestedFrames
  · rcases hSome hAll with ⟨s', hRun, hReady', hMapped⟩
    rcases Radix.agrees_of_inv hReady'.table va with
      ⟨r', hWalk', -, hSame⟩
    have hHere := hMapped (pageOf va)
    simp only [hUnmapped, Bool.false_eq_true, or_false] at hHere
    simp only [hRun, Option.map_some, Option.some.injEq,
      Prod.mk.injEq]
    constructor
    · rintro ⟨ppn, t, r'', ⟨-, rfl⟩, hAfter, hFound⟩
      rw [hWalk', Option.some.injEq] at hAfter
      rw [← hAfter, hSame, ← Option.not_isSome,
        Bool.not_eq_false'] at hFound
      exact ⟨hHere.mp hFound, hAll⟩
    · rintro ⟨hPage, -⟩
      refine ⟨_, s', r', ⟨rfl, rfl⟩, hWalk', ?_⟩
      rw [hSame, ← Option.not_isSome, hHere.mpr hPage]
      rfl
  · simp only [hNone hAll, Option.map_none]
    constructor
    · rintro ⟨ppn, t, r', hOutcome, -⟩
      cases hOutcome
    · rintro ⟨-, hFits⟩
      exact absurd hFits hAll

theorem ready_start
    (b : Buddy)
    (kernelSize : Nat) :
    Ready (System.start b kernelSize) := by
  refine ⟨?_, Radix.inv_start, ?_⟩
  · have hStart : (System.start b
        kernelSize).memory.kernelStartAddress = 4096 := rfl
    rw [hStart]
    decide
  · rintro address ⟨op, hMem, -⟩
    cases hMem

/- A VMA of two pages in a new memory of one megabyte. -/
theorem mapsFaulting_twoPages :
    ∃ b, Buddy.construct 1 9 0 = some b ∧
      (MapsFaulting (System.start b 0) [⟨0, 8192⟩] 4096 3 ↔
        (∃ page, Vma.first ⟨0, 8192⟩ ≤ page ∧
          page < Vma.first ⟨0, 8192⟩ +
            (System.start b 0).backed ⟨0, 8192⟩ ∧
          pageOf 4096 = pageOf (page * 4096)) ∧
        ∀ page, Vma.first ⟨0, 8192⟩ ≤ page →
          page < Vma.first ⟨0, 8192⟩ +
              (System.start b 0).backed ⟨0, 8192⟩ →
            ¬ Large (System.start b 0).table (page * 4096) ∧
              newFrames (System.start b 0).table
                (Vma.first ⟨0, 8192⟩) page ≤ 3) := by
  have hSome : ∃ b, Buddy.construct 1 9 0 = some b ∧
      b.memorySize = 1 := ⟨_, rfl, rfl⟩
  rcases hSome with ⟨b, hConstruct, hSize⟩
  have hInv : Buddy.FreeListInv b.memorySize b.maxOrder
      b.kernelSize ⟨b, []⟩ :=
    Buddy.freeListInv_construct hConstruct
  have hMemory : b.memorySize < 2 ^ 31 := by
    rw [hSize]
    decide
  have hWalk : Radix.initializeWalk
      (Radix.start 4).table 4096 = some
        ⟨none, [⟨0, 0, 0, false⟩], true, 3⟩ := by
    decide +kernel
  have hVma : [(⟨0, 8192⟩ : Vma)].find? (fun v =>
      v.contains (4096 / 2 ^ 12 * 2 ^ 12)) = some ⟨0, 8192⟩ := rfl
  exact ⟨b, hConstruct, mapsFaulting_iff hInv hMemory
    (ready_start b 0) hVma hWalk rfl⟩

/-
  With a page of its 2MB region mapped before, a fault at the
  last page of the region requests no frame, but the next page
  of its VMA needs one.
-/
theorem not_mapsFaulting_nextRegion :
    ∃ b s r, Buddy.construct 1 9 0 = some b ∧
      (handlePageFault (System.start b 0)
        [⟨0x1FE000, 0x1FF000⟩, ⟨0x1FF000, 0x201000⟩] 0x1FE
          3).map Prod.snd = some s ∧
      Radix.initializeWalk s.table.table 0x1FF000 = some r ∧
      r.isPagefault = true ∧ r.requestedFrames = 0 ∧
      ¬ MapsFaulting s
        [⟨0x1FE000, 0x1FF000⟩, ⟨0x1FF000, 0x201000⟩] 0x1FF000
          r.requestedFrames := by
  have hFirst : (Buddy.construct 1 9 0).bind (fun b =>
      (handlePageFault (System.start b 0)
        [⟨0x1FE000, 0x1FF000⟩, ⟨0x1FF000, 0x201000⟩] 0x1FE
          3).bind (fun r =>
        (Radix.initializeWalk r.2.table.table 0x1FF000).map
          (fun walk => (walk.isPagefault, walk.requestedFrames,
            (handlePageFault r.2
              [⟨0x1FE000, 0x1FF000⟩, ⟨0x1FF000, 0x201000⟩]
                0x1FF 0).isSome)))) =
      some (true, 0, false) := by
    decide +kernel
  rcases Option.bind_eq_some_iff.mp hFirst with
    ⟨b, hConstruct, hRest⟩
  rcases Option.bind_eq_some_iff.mp hRest with
    ⟨⟨ppn, s⟩, hHandled, hAfter⟩
  rcases Option.map_eq_some_iff.mp hAfter with
    ⟨r, hWalk, hValues⟩
  simp only [Prod.mk.injEq] at hValues
  rcases hValues with ⟨hFault, hRequested, hFails⟩
  refine ⟨b, s, r, hConstruct, by rw [hHandled]; rfl, hWalk,
    hFault, hRequested, ?_⟩
  rintro ⟨ppn', s', r', hOutcome, -⟩
  have hVpn : 0x1FF000 / 2 ^ 12 = 0x1FF := by decide
  rw [hRequested, hVpn] at hOutcome
  rw [hOutcome] at hFails
  cases hFails

end EagerPaging

end Virtuoso
