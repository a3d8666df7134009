import Mathlib.Data.List.Nodup
import Mathlib.Data.Nat.ModEq
import Virtuoso.Lib.Run
import Virtuoso.Spot.Basic

/-
  The cursor of the contiguity map.

  A search starts at the cursor and goes around the map once.
  It leaves the cursor on a range of the map, or behind the
  range it has found. A page that is taken may erase a range
  of one page, which moves the end of the map; the cursor is
  left behind the end if it was on the last range.

  The requests are all those of `allocate`, and start from
  any map with the cursor at its begin, as the constructor
  and the fragmentation of the memory leave it.

  Main declarations:
    * `SpotAllocator.search_ne_none_iff`
    * `Spot.nextFit_iff`
-/

------------------------------------------------------------
-- Searches
------------------------------------------------------------

namespace Virtuoso

namespace SpotAllocator

/- The indices that a search reads, in this order. -/
def visitsFrom
    (ranges : List Span)
    (pages : Nat) :
    Nat → Nat → List Nat
| 0, _ => []
| left + 1, i =>
    match ranges[i]? with
    | none => [i]
    | some range =>
        let size := Buddy.sub64 range.stop range.start
        if pages ≤ Buddy.add64 size 1 then
          [i]
        else
          i :: visitsFrom ranges pages left
            ((i + 1) % ranges.length)

/- The spans that a search comes to, in order. -/
def visits (a : SpotAllocator) (vmaSize : Nat) : List Nat :=
  visitsFrom a.contiguityMap (vmaSize / 4096)
    a.contiguityMap.length a.contiguityMapPointer

/- A search has an outcome if it reads only the map. -/
theorem searchFrom_ne_none_iff
    {ranges : List Span}
    {pages left i : Nat}
    {largest : Int}
    {largestIndex : Option Nat} :
    searchFrom ranges pages left i largest largestIndex ≠ none ↔
      ∀ j ∈ visitsFrom ranges pages left i, j < ranges.length := by
  induction left generalizing i largest largestIndex with
  | zero => simp [searchFrom, visitsFrom]
  | succ left ih =>
      rw [searchFrom, visitsFrom]
      cases hRange : ranges[i]? with
      | none =>
          have hLe := List.getElem?_eq_none_iff.mp hRange
          simp [Nat.not_lt.mpr hLe]
      | some range =>
          have hLt := (List.getElem?_eq_some_iff.mp hRange).1
          simp only
          split_ifs with hFits hLarger
          · simp [hLt]
          · rw [ih]
            simp [hLt]
          · rw [ih]
            simp [hLt]

variable {a : SpotAllocator}

theorem search_ne_none_iff
    {vmaSize : Nat} :
    a.search vmaSize ≠ none ↔
      ∀ i ∈ a.visits vmaSize, i < a.contiguityMap.length :=
  searchFrom_ne_none_iff

/- A search goes around the map from where it starts. -/
theorem visitsFrom_prefix
    {ranges : List Span}
    {pages left i : Nat}
    (hLt : i < ranges.length) :
    visitsFrom ranges pages left i <+:
      (List.range left).map (fun k => (i + k) % ranges.length) := by
  induction left generalizing i with
  | zero => exact List.prefix_refl _
  | succ left ih =>
      have hHead : (i + 0) % ranges.length = i :=
        Nat.mod_eq_of_lt hLt
      have hTail : (List.range left).map
            ((fun k => (i + k) % ranges.length) ∘ Nat.succ) =
          (List.range left).map (fun k =>
            ((i + 1) % ranges.length + k) % ranges.length) := by
        apply List.map_congr_left
        intro k _
        rw [Function.comp_apply, Nat.mod_add_mod]
        congr 1
        omega
      rw [List.range_succ_eq_map, List.map_cons, List.map_map,
        hHead, hTail, visitsFrom,
        List.getElem?_eq_getElem hLt]
      simp only
      split_ifs
      · exact List.cons_prefix_cons.mpr ⟨rfl, List.nil_prefix⟩
      · exact List.cons_prefix_cons.mpr
          ⟨rfl, ih (Nat.mod_lt _ (by omega))⟩

/- Steps around a map of `n` ranges lead to different ones. -/
theorem nodup_around
    (n i : Nat) :
    ((List.range n).map (fun k => (i + k) % n)).Nodup := by
  apply List.Nodup.map_on _ List.nodup_range
  intro k hMem k' hMem' hEq
  have hMod : k ≡ k' [MOD n] :=
    Nat.ModEq.add_left_cancel' i hEq
  exact hMod.eq_of_lt_of_lt (List.mem_range.mp hMem)
    (List.mem_range.mp hMem')

/-
  The cursor is on a range of the map whenever there is one,
  and a search for any size visits ranges of the map, each of
  them at most once.
-/
def NextFit (a : SpotAllocator) : Prop :=
  (a.contiguityMap ≠ [] →
    a.contiguityMapPointer < a.contiguityMap.length) ∧
    ∀ vmaSize, a.search vmaSize ≠ none ∧ (a.visits vmaSize).Nodup

theorem nextFit_iff
    {a : SpotAllocator} :
    a.NextFit ↔
      (a.contiguityMap ≠ [] →
        a.contiguityMapPointer < a.contiguityMap.length) := by
  refine ⟨And.left, fun hCursor => ⟨hCursor, ?_⟩⟩
  intro vmaSize
  by_cases hEmpty : a.contiguityMap = []
  · have hVisits : a.visits vmaSize = [] := by
      rw [visits, hEmpty]
      rfl
    rw [search_ne_none_iff, hVisits]
    simp
  · have hLt := hCursor hEmpty
    have hPrefix : a.visits vmaSize <+:
        (List.range a.contiguityMap.length).map (fun k =>
          (a.contiguityMapPointer + k) % a.contiguityMap.length) :=
      visitsFrom_prefix hLt
    refine ⟨search_ne_none_iff.mpr ?_, ?_⟩
    · intro i hMem
      rcases List.mem_map.mp (hPrefix.subset hMem) with
        ⟨k, -, hEq⟩
      rw [← hEq]
      exact Nat.mod_lt _ (by omega)
    · exact hPrefix.sublist.nodup (nodup_around _ _)

------------------------------------------------------------
-- Removals And Runs
------------------------------------------------------------

/- The length of a map after a page is taken out of it. -/
theorem length_punch
    (p : Nat)
    (l : List Span) :
    (l.find? (fun range => decide (range.Has p)) = some ⟨p, p⟩ ∧
      (Span.punch p l).length + 1 = l.length) ∨
    (l.find? (fun range => decide (range.Has p)) ≠ some ⟨p, p⟩ ∧
      l.length ≤ (Span.punch p l).length) := by
  induction l with
  | nil => exact Or.inr ⟨by simp, Nat.le_refl _⟩
  | cons range l ih =>
      rw [Span.punch]
      by_cases hHas : range.start ≤ p ∧ p ≤ range.stop
      · have hFind : (range :: l).find?
            (fun range => decide (range.Has p)) = some range :=
          List.find?_cons_of_pos (decide_eq_true hHas)
        rw [if_pos hHas, hFind, Ne, Option.some.injEq]
        by_cases hPage : range.stop = p ∧ range.start = p
        · left
          rw [if_pos hPage]
          refine ⟨?_, rfl⟩
          cases range
          rw [Span.mk.injEq]
          exact ⟨hPage.2, hPage.1⟩
        · right
          rw [if_neg hPage]
          refine ⟨fun hEq => hPage ?_, ?_⟩
          · rw [hEq]
            exact ⟨rfl, rfl⟩
          · split_ifs <;> simp
      · have hFind : (range :: l).find?
            (fun range => decide (range.Has p)) =
              l.find? (fun range => decide (range.Has p)) :=
          List.find?_cons_of_neg
            (fun hTest => hHas (of_decide_eq_true hTest))
        rw [if_neg hHas, hFind, List.length_cons, List.length_cons]
        rcases ih with ⟨hErase, hLength⟩ | ⟨hKeep, hLength⟩
        · exact Or.inl ⟨hErase, by omega⟩
        · exact Or.inr ⟨hKeep, by omega⟩

/-
  The page is a range of its own, and without it the cursor,
  which is on the last range, is behind the map.
-/
def Strands (a : SpotAllocator) (p : Nat) : Prop :=
  a.contiguityMap.find?
      (fun range => decide (range.Has p)) = some ⟨p, p⟩ ∧
    a.contiguityMapPointer + 1 = a.contiguityMap.length ∧
    2 ≤ a.contiguityMap.length

instance
    (a : SpotAllocator)
    (p : Nat) :
    Decidable (a.Strands p) :=
  inferInstanceAs (Decidable (_ ∧ _))

/- Taking a page keeps the cursor if it strands it not. -/
theorem cursor_updateContiguityMap_iff
    (hCursor : a.contiguityMap ≠ [] →
      a.contiguityMapPointer < a.contiguityMap.length)
    (p : Nat) :
    ((a.updateContiguityMap p).contiguityMap ≠ [] →
      a.contiguityMapPointer <
        (a.updateContiguityMap p).contiguityMap.length) ↔
      ¬ a.Strands p := by
  simp only [updateContiguityMap, Strands,
    ← List.length_pos_iff] at hCursor ⊢
  rcases length_punch p a.contiguityMap with
    ⟨hErase, hLength⟩ | ⟨hKeep, hLength⟩
  · simp only [hErase, true_and]
    omega
  · simp only [hKeep, false_and, not_false_eq_true, iff_true]
    intro hSome
    by_cases hEmpty : a.contiguityMap = []
    · rw [hEmpty] at hSome
      exact absurd hSome (Nat.lt_irrefl 0)
    · have hLt := hCursor (List.length_pos_iff.mpr hEmpty)
      exact Nat.lt_of_lt_of_le hLt hLength

/- The page that `serve` takes out of the contiguity map. -/
def taken
    (a : SpotAllocator)
    (bytes : Nat) :
    SpotTarget → Option Nat
| .noVma => none
| .noRange => none
| .page requestedPpn =>
    if (a.buddy.checkIfFree requestedPpn false).1 then
      some requestedPpn
    else
      (a.buddy.allocate bytes).bind (fun r => r.1)

variable {a a' : SpotAllocator}

/- Serving changes the map by the page that is taken. -/
theorem cursor_serve
    {bytes : Nat}
    {target : SpotTarget}
    {frame : Option Nat}
    (hServe : a.serve bytes target = some (frame, a')) :
    a'.contiguityMapPointer = a.contiguityMapPointer ∧
      a'.contiguityMap =
        (a.taken bytes target).elim a.contiguityMap
          (fun p =>
            (a.updateContiguityMap p).contiguityMap) := by
  cases target with
  | noVma =>
      rcases Option.map_eq_some_iff.mp hServe with
        ⟨r, -, hEq⟩
      cases hEq
      exact ⟨rfl, rfl⟩
  | noRange =>
      cases hServe
      exact ⟨rfl, rfl⟩
  | page requestedPpn =>
      simp only [serve, taken] at hServe ⊢
      split_ifs at hServe with hFree
      · cases hServe
        rw [if_pos hFree]
        exact ⟨rfl, rfl⟩
      · rw [if_neg hFree]
        rcases Option.map_eq_some_iff.mp hServe with
          ⟨r', hBuddy, hEq⟩
        rcases Option.map_eq_some_iff.mp hBuddy with
          ⟨r, hAllocate, hEq'⟩
        rw [hAllocate, Option.bind_some]
        cases hEq'
        cases hEq
        cases r.1 with
        | none => exact ⟨rfl, rfl⟩
        | some p => exact ⟨rfl, rfl⟩

/- A page can be taken where `serve` has an outcome. -/
theorem serve_of_taken
    {bytes p : Nat}
    {target : SpotTarget}
    (hTaken : a.taken bytes target = some p) :
    ∃ frame a', a.serve bytes target = some (frame, a') := by
  cases target with
  | noVma => cases hTaken
  | noRange => cases hTaken
  | page requestedPpn =>
      simp only [serve, taken] at hTaken ⊢
      split_ifs at hTaken with hFree
      · rw [if_pos hFree]
        exact ⟨_, _, rfl⟩
      · rw [if_neg hFree]
        rcases Option.bind_eq_some_iff.mp hTaken with
          ⟨r, hAllocate, -⟩
        rw [fromBuddy, hAllocate]
        exact ⟨_, _, rfl⟩

/-
  After a target is served, searches are valid if the page
  that is taken does not strand the cursor.
-/
theorem nextFit_serve_iff
    {bytes : Nat}
    {target : SpotTarget}
    {frame : Option Nat}
    (hNextFit : a.NextFit)
    (hServe : a.serve bytes target = some (frame, a')) :
    a'.NextFit ↔ ∀ p ∈ a.taken bytes target, ¬ a.Strands p := by
  rcases cursor_serve hServe with ⟨hPointer, hMap⟩
  rw [nextFit_iff, hPointer, hMap]
  cases hTaken : a.taken bytes target with
  | none =>
      refine iff_of_true hNextFit.1 ?_
      intro p hMem
      cases hMem
  | some p =>
      have hIff :=
        cursor_updateContiguityMap_iff hNextFit.1 p
      constructor
      · intro hAfter p' hMem
        cases hMem
        exact hIff.mp hAfter
      · intro hKeeps
        exact hIff.mpr (hKeeps p rfl)

/- A target leaves the cursor on a range of the map. -/
theorem cursor_locate
    {vmas vmas' : List Vma}
    {address : Nat}
    {target : SpotTarget}
    (hCursor : a.contiguityMap ≠ [] →
      a.contiguityMapPointer < a.contiguityMap.length)
    (hLocate : a.locate vmas address = some (target, a', vmas')) :
    a'.contiguityMap ≠ [] →
      a'.contiguityMapPointer < a'.contiguityMap.length := by
  unfold locate at hLocate
  split at hLocate
  · cases hLocate
    exact hCursor
  · split at hLocate
    · split at hLocate
      · cases hLocate
      · cases hLocate
        exact hCursor
      · split at hLocate
        · cases hLocate
        · rename_i i _ range hRange
          have hLt := (List.getElem?_eq_some_iff.mp hRange).1
          cases hLocate
          intro _
          simp only
          split_ifs
          · exact Nat.mod_lt _ (by omega)
          · exact hLt
    · cases hLocate
      exact hCursor

/-
  The page that is taken for a fault, if any, is not the one
  page of a range that moves the end of the map onto the
  cursor.
-/
def Keeps
    (a : SpotAllocator)
    (vmas : List Vma)
    (bytes address : Nat)
    (isPagetableAllocation isInstructionAllocation : Bool) :
    Prop :=
  isPagetableAllocation = false →
    isInstructionAllocation = false →
      ∀ o ∈ a.locate vmas address,
        ∀ p ∈ o.2.1.taken bytes o.1, ¬ o.2.1.Strands p

/- Only a fault of the application touches the map. -/
theorem nextFit_allocate_iff
    {vmas : List Vma}
    {bytes address : Nat}
    {isPagetableAllocation isInstructionAllocation : Bool}
    (hNextFit : a.NextFit) :
    a.Keeps vmas bytes address isPagetableAllocation
        isInstructionAllocation ↔
      ∀ frame a' vmas',
        a.allocate vmas bytes address isPagetableAllocation
            isInstructionAllocation =
          some (frame, a', vmas') →
          a'.NextFit := by
  unfold Keeps allocate
  cases isPagetableAllocation with
  | true =>
      refine iff_of_true (fun hData => by cases hData) ?_
      intro frame a' vmas' hAllocate
      cases hAllocate
      exact hNextFit
  | false =>
  cases isInstructionAllocation with
  | true =>
      refine iff_of_true (fun _ hData => by cases hData) ?_
      intro frame a' vmas' hAllocate
      cases hAllocate
      exact hNextFit
  | false =>
  simp only [Bool.false_eq_true, if_false, forall_const]
  cases hLocate : a.locate vmas address with
  | none =>
      refine iff_of_true (fun o hMem => by cases hMem) ?_
      intro frame a' vmas' hAllocate
      cases hAllocate
  | some o =>
      rcases o with ⟨target, b, vmas'⟩
      have hNextFit' : b.NextFit :=
        nextFit_iff.mpr (cursor_locate hNextFit.1 hLocate)
      constructor
      · intro hKeeps frame a' vmas'' hAllocate
        rcases Option.map_eq_some_iff.mp hAllocate with
          ⟨⟨frame', a''⟩, hServe, hEq⟩
        cases hEq
        exact (nextFit_serve_iff hNextFit' hServe).mpr
          (hKeeps _ rfl)
      · intro hLeaves o hMem p hTaken
        cases hMem
        rcases serve_of_taken hTaken with
          ⟨frame, a', hServe⟩
        have hAfter := hLeaves frame a' vmas'
          (Option.map_eq_some_iff.mpr ⟨_, hServe, rfl⟩)
        exact (nextFit_serve_iff hNextFit' hServe).mp hAfter p
          hTaken

end SpotAllocator

namespace Spot

/- The allocator and the VMAs of each application. -/
structure Session where
  allocator : SpotAllocator
  vmas : Nat → List Vma

/- A call of `allocate`. -/
structure Request where
  app : Nat
  bytes : Nat
  address : Nat
  isPagetableAllocation : Bool
  isInstructionAllocation : Bool
deriving DecidableEq

/- One call of the allocator. -/
def request (s : Session) (r : Request) : Option Session :=
  (s.allocator.allocate (s.vmas r.app) r.bytes r.address
    r.isPagetableAllocation r.isInstructionAllocation).map
      (fun o =>
        ⟨o.2.1, Function.update s.vmas r.app o.2.2⟩)

/- The request does not strand the cursor. -/
def KeepsCursor (s : Session) (r : Request) : Prop :=
  s.allocator.Keeps (s.vmas r.app) r.bytes r.address
    r.isPagetableAllocation r.isInstructionAllocation

instance
    (s : Session)
    (r : Request) :
    Decidable (KeepsCursor s r) :=
  inferInstanceAs (Decidable (_ → _ → ∀ o ∈ _, ∀ p ∈ _, _))

/- A request leaves a cursor for the searches to come. -/
def LeavesCursor (s : Session) (r : Request) : Prop :=
  ∀ s', request s r = some s' → s'.allocator.NextFit

theorem keepsCursor_iff
    {s : Session}
    {r : Request}
    (hNextFit : s.allocator.NextFit) :
    KeepsCursor s r ↔ LeavesCursor s r := by
  unfold KeepsCursor
  rw [SpotAllocator.nextFit_allocate_iff hNextFit]
  constructor
  · intro hAll s' hStep
    rcases Option.map_eq_some_iff.mp hStep with
      ⟨⟨frame, a', vmas'⟩, hAllocate, hEq⟩
    cases hEq
    exact hAll frame a' vmas' hAllocate
  · intro hLeaves frame a' vmas' hAllocate
    exact hLeaves _ (Option.map_eq_some_iff.mpr ⟨_, hAllocate, rfl⟩)

/-
  A run keeps the cursor valid for every search exactly when
  no request strands it.
-/
theorem keepsCursor_run_iff
    {s : Session}
    (hStart : s.allocator.contiguityMapPointer = 0)
    (requests : List Request) :
    Run.Along request LeavesCursor s requests ↔
      Run.Along request KeepsCursor s requests := by
  have hAll : Run.Along request (fun _ _ => True) s requests :=
    Run.along_of_forall_mem _ (fun _ _ => trivial)
  have hNextFit : s.allocator.NextFit := by
    rw [SpotAllocator.nextFit_iff, hStart]
    exact List.length_pos_iff.mpr
  have hAfter :
      ∀ (s : Session) (r : Request) (s' : Session),
        s.allocator.NextFit → True → LeavesCursor s r →
          request s r = some s' → s'.allocator.NextFit := by
    intro s r s' _ _ hLeaves hStep
    exact hLeaves s' hStep
  exact Run.along_iff_along hAfter
    (fun s r hFit _ => (keepsCursor_iff hFit).symm)
    hNextFit hAll

/- The pages of one VMA, and a page without VMA. -/
theorem keepsCursor_run_oneVma :
    ∃ a ∈ SpotAllocator.construct 2 9 1,
      Run.Along request LeavesCursor
        ⟨a, fun _ => [Vma.construct 0x10000 0x14000]⟩
        [⟨0, 4096, 0x10000, false, false⟩,
          ⟨0, 4096, 0x12000, false, false⟩,
          ⟨0, 4096, 0, false, false⟩] := by
  refine ⟨_, Option.get_mem ?_, (keepsCursor_run_iff ?_ _).mpr ?_⟩
  iterate 3 decide +kernel

/-
  A page is taken behind the first one of its VMA, and the
  page that is left between them is given to a VMA of one
  page. The next search reads behind the end of the map.
-/
theorem not_leavesCursor_run :
    ∃ a ∈ SpotAllocator.construct 2 9 1,
      ∃ s ∈ Run.run request
          ⟨a, fun _ => [Vma.construct 0x10000 0x14000,
            Vma.construct 0x20000 0x21000,
            Vma.construct 0x30000 0x31000]⟩
          [⟨0, 4096, 0x10000, false, false⟩,
            ⟨0, 4096, 0x12000, false, false⟩,
            ⟨0, 4096, 0x20000, false, false⟩],
        s.allocator.contiguityMapPointer = 1 ∧
          s.allocator.contiguityMap.length = 1 ∧
          ¬ s.allocator.NextFit ∧
          (request s ⟨0, 4096, 0x30000, false, false⟩).isNone := by
  refine ⟨_, Option.get_mem ?_, _, Option.get_mem ?_, ?_, ?_,
    fun hNextFit => ?_, ?_⟩
  iterate 4 decide +kernel
  · exact absurd (hNextFit.1 (by decide +kernel))
      (by decide +kernel)
  · decide +kernel

end Spot

end Virtuoso
