import Virtuoso.Spot.Runs

/-
  The contiguity map of the SpOT allocator: a list of free
  ranges in rising order. An allocated page is taken out of
  the range that has it, and out of nothing else.

  Main declarations:
    * `Spot.updateContiguityMap_exact`
    * `Spot.keepsFree_run`
-/

namespace Virtuoso

namespace Spot

open Span

/- Some range of the contiguity map has the page. -/
def IsFree (a : SpotAllocator) (ppn : Nat) : Prop :=
  ∃ range ∈ a.contiguityMap, range.Has ppn

/-
  Taking a page out of ranges that are in rising order,
  disjoint and not empty leaves such ranges, with the same
  pages but for this one.
-/
theorem updateContiguityMap_exact
    (a : SpotAllocator)
    (finalPpn : Nat)
    (hRising : Rising a.contiguityMap) :
    Rising (a.updateContiguityMap finalPpn).contiguityMap ∧
      ∀ ppn, IsFree (a.updateContiguityMap finalPpn) ppn ↔
        IsFree a ppn ∧ ppn ≠ finalPpn :=
  ⟨rising_punch hRising finalPpn, has_punch_iff hRising.once⟩

/- A page inside of the second of three ranges. -/
theorem updateContiguityMap_exact_inner :
    ∃ a a' : SpotAllocator,
      a.contiguityMap = [⟨2, 2⟩, ⟨4, 9⟩, ⟨11, 20⟩] ∧
      a'.contiguityMap = [⟨2, 2⟩, ⟨4, 6⟩, ⟨8, 9⟩, ⟨11, 20⟩] ∧
      Rising a'.contiguityMap ∧
      ∀ ppn, IsFree a' ppn ↔ IsFree a ppn ∧ ppn ≠ 7 := by
  have hRising : Rising [⟨2, 2⟩, ⟨4, 9⟩, ⟨11, 20⟩] :=
    ⟨by decide, by decide⟩
  rcases hConstruct : SpotAllocator.construct 1 1 0 with
    _ | a
  · cases hConstruct
  · exact ⟨{ a with
      contiguityMap := [⟨2, 2⟩, ⟨4, 9⟩, ⟨11, 20⟩] }, _, rfl,
      rfl, updateContiguityMap_exact _ 7 hRising⟩

theorem serve_contiguityMap
    {a a' : SpotAllocator}
    {bytes : Nat}
    {target : SpotTarget}
    {page : Option Nat}
    (hServe : a.serve bytes target = some (page, a')) :
    a'.contiguityMap = a.contiguityMap ∨
      ∃ ppn, page = some ppn ∧
        a'.contiguityMap = punch ppn a.contiguityMap := by
  cases target with
  | noVma =>
      rcases Option.map_eq_some_iff.mp hServe with
        ⟨r, -, hEq⟩
      cases hEq
      exact Or.inl rfl
  | noRange =>
      cases hServe
      exact Or.inl rfl
  | page requestedPpn =>
      unfold SpotAllocator.serve at hServe
      dsimp only at hServe
      split_ifs at hServe
      · cases hServe
        exact Or.inr ⟨requestedPpn, rfl, rfl⟩
      · rcases Option.map_eq_some_iff.mp hServe with
          ⟨r, hBuddy, hEq⟩
        rcases Option.map_eq_some_iff.mp hBuddy with
          ⟨r', -, hTaken⟩
        rw [← hTaken] at hEq
        cases hEq
        cases r'.1 with
        | none => exact Or.inl rfl
        | some ppn => exact Or.inr ⟨ppn, rfl, rfl⟩

/- What an allocation makes of the contiguity map. -/
theorem allocate_contiguityMap
    {a a' : SpotAllocator}
    {vmas vmas' : List Vma}
    {bytes address : Nat}
    {isPagetable isInstruction : Bool}
    {page : Option Nat}
    (hAllocate : a.allocate vmas bytes address isPagetable
      isInstruction = some (page, a', vmas')) :
    a'.contiguityMap = a.contiguityMap ∨
      ∃ ppn, page = some ppn ∧
        a'.contiguityMap = punch ppn a.contiguityMap := by
  unfold SpotAllocator.allocate at hAllocate
  split_ifs at hAllocate
  · cases hAllocate
    exact Or.inl rfl
  · cases hAllocate
    exact Or.inl rfl
  · cases hLocate : a.locate vmas address with
    | none =>
        rw [hLocate] at hAllocate
        cases hAllocate
    | some r =>
        rcases r with ⟨target, located, vmas₁⟩
        rcases locate_pointer hLocate with ⟨pointer, hEq⟩
        rw [hLocate] at hAllocate
        rcases Option.map_eq_some_iff.mp hAllocate with
          ⟨⟨page', served⟩, hServe, hResult⟩
        cases hResult
        have hMap : located.contiguityMap = a.contiguityMap := by
          rw [hEq]
        rw [← hMap]
        exact serve_contiguityMap hServe

/-
  In any run the contiguity map stays in rising order, gets no
  new page, and loses none but those that were given out.
-/
theorem keepsFree_run
    {s s' : System}
    {ops : List Op}
    (hRising : Rising s.allocator.contiguityMap)
    (hRun : Run.run step s ops = some s') :
    Rising s'.allocator.contiguityMap ∧
      ∀ ppn, (IsFree s'.allocator ppn → IsFree s.allocator ppn) ∧
        (IsFree s.allocator ppn →
          IsFree s'.allocator ppn ∨ ppn ∈ s'.frames) := by
  refine Run.run_invariant
    (I := fun t => Rising t.allocator.contiguityMap ∧
      ∀ ppn, (IsFree t.allocator ppn → IsFree s.allocator ppn) ∧
        (IsFree s.allocator ppn →
          IsFree t.allocator ppn ∨ ppn ∈ t.frames))
    ?_ ⟨hRising, fun _ => ⟨id, Or.inl⟩⟩ hRun
  rintro t ⟨app, address⟩ t' ⟨hOld, hPages⟩ hStep
  rcases Option.map_eq_some_iff.mp hStep with
    ⟨⟨page, a', vmas'⟩, hAllocate, hNext⟩
  rw [← hNext]
  simp only [IsFree, List.mem_append] at hPages ⊢
  rcases allocate_contiguityMap hAllocate with
    hSame | ⟨given, hGiven, hPunch⟩
  · rw [hSame]
    refine ⟨hOld, fun ppn => ⟨(hPages ppn).1, fun hFree => ?_⟩⟩
    exact ((hPages ppn).2 hFree).imp_right Or.inr
  · rw [hPunch]
    refine ⟨rising_punch hOld given, fun ppn => ?_⟩
    rw [has_punch_iff hOld.once]
    refine ⟨fun hIn => (hPages ppn).1 hIn.1, fun hFree => ?_⟩
    by_cases hEq : ppn = given
    · exact Or.inr (Or.inl (by simp [hGiven, hEq]))
    · exact ((hPages ppn).2 hFree).imp (⟨·, hEq⟩) Or.inr

/- The page 256 is taken out of the one range. -/
theorem keepsFree_run_oneVma :
    ∃ a ∈ SpotAllocator.construct 2 9 1,
      ∃ s ∈ Run.run step
          ⟨a, fun _ => [Vma.construct 0x10000 0x14000], []⟩
          [.fault 0 0x10000],
        Rising s.allocator.contiguityMap ∧
          ¬ IsFree s.allocator 256 := by
  have hRange : ∃ a ∈ SpotAllocator.construct 2 9 1,
      a.contiguityMap = [⟨256, 512⟩] ∧
        ∃ s ∈ Run.run step
            ⟨a, fun _ => [Vma.construct 0x10000 0x14000], []⟩
            [.fault 0 0x10000],
          s.allocator.contiguityMap = [⟨257, 512⟩] := by
    decide +kernel
  rcases hRange with ⟨a, hConstruct, hMap, s, hRun, hTaken⟩
  refine ⟨a, hConstruct, s, hRun, (keepsFree_run ?_ hRun).1, ?_⟩
  · rw [hMap]
    exact ⟨by decide, by decide⟩
  · rw [IsFree, hTaken]
    decide

end Spot

end Virtuoso
