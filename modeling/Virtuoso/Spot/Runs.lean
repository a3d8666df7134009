import Virtuoso.Buddy.Runs
import Virtuoso.Spot.Basic

/-
  Runs of the SpOT allocator.

  A page that is given out at the offset of its VMA leaves
  the contiguity map and stays in the free lists; a page for
  an address without VMA leaves the free lists and stays in
  the contiguity map. A page is given out at most once
  exactly in the runs in which both views agree on every page
  that is taken.

  Main declarations:
    * `Spot.framesOnce_run_iff`
-/

------------------------------------------------------------
-- The System And Its Invariant
------------------------------------------------------------

namespace Virtuoso

namespace Spot

open Span

/-
  The allocator, the VMAs of each application and the pages
  that were given out, with the latest first.
-/
structure System where
  allocator : SpotAllocator
  vmas : Nat → List Vma
  frames : List Nat

/- A fault of an application. -/
inductive Op
  | fault (app address : Nat)

/- Allocate a page of 4KB for a fault. -/
def step (s : System) : Op → Option System
| .fault app address =>
    (s.allocator.allocate (s.vmas app) 4096 address false
      false).map
        (fun r =>
          ⟨r.2.1, Function.update s.vmas app r.2.2,
            r.1.toList ++ s.frames⟩)

/-
  No page is given out twice, and every page is behind the
  kernel and in the memory.
-/
def FramesOnce
    (memorySize kernelSize : Nat)
    (s : System) : Prop :=
  s.frames.Nodup ∧
    ∀ frame ∈ s.frames,
      Buddy.pagesInMb kernelSize ≤ frame ∧
        frame < Buddy.pagesInMb memorySize

/- The contiguity map has the page. -/
def Listed (a : SpotAllocator) (page : Nat) : Prop :=
  ∃ range ∈ a.contiguityMap, range.Has page

instance
    (a : SpotAllocator)
    (page : Nat) :
    Decidable (Listed a page) :=
  inferInstanceAs
    (Decidable (∃ range ∈ a.contiguityMap, range.Has page))

/-
  The contiguity map has the last page of the free block that
  an allocation of 4KB selects.
-/
def CandidateListed (a : SpotAllocator) : Prop :=
  ∀ block ∈ a.buddy.candidate 4096, Listed a block.stop

instance
    (a : SpotAllocator) :
    Decidable (CandidateListed a) :=
  inferInstanceAs (Decidable
    (∀ block ∈ a.buddy.candidate 4096, Listed a block.stop))

/- Both views of the free memory agree on what is taken. -/
def Agrees (a : SpotAllocator) : SpotTarget → Prop
| .noVma => CandidateListed a
| .noRange => True
| .page requestedPpn =>
    if (a.buddy.checkIfFree requestedPpn false).1 then
      Listed a requestedPpn
    else
      CandidateListed a

instance
    (a : SpotAllocator)
    (target : SpotTarget) :
    Decidable (Agrees a target) :=
  match target with
  | .noVma => inferInstanceAs (Decidable (CandidateListed a))
  | .noRange => isTrue trivial
  | .page requestedPpn =>
      inferInstanceAs (Decidable
        (if (a.buddy.checkIfFree requestedPpn false).1 then
          Listed a requestedPpn
        else
          CandidateListed a))

/- The views agree on the page that a fault takes. -/
def Meets (s : System) : Op → Prop
| .fault app address =>
    ∀ r ∈ s.allocator.locate (s.vmas app) address,
      Agrees s.allocator r.1

instance (s : System) (op : Op) : Decidable (Meets s op) :=
  match op with
  | .fault app address =>
      inferInstanceAs (Decidable
        (∀ r ∈ s.allocator.locate (s.vmas app) address,
          Agrees s.allocator r.1))

/-
  What the runs that meet the condition preserve; `taken` are
  the pages from the buddy allocator.
-/
structure Inv
    (geometry : Nat × Nat × Nat)
    (a : SpotAllocator)
    (frames : List Nat) : Prop where
  buddy : ∃ taken : List Nat,
    Buddy.Inv geometry ⟨a.buddy, taken.map (fun f => ⟨f, f⟩)⟩ ∧
      ∀ frame ∈ frames, frame ∈ taken ∨ ¬ Listed a frame
  once : ∀ p, coverage a.contiguityMap p ≤ 1
  complete : ∀ p, a.buddy.base ≤ p → p < a.buddy.limit →
    Listed a p ∨ p ∈ frames
  nodup : frames.Nodup
  inRange : ∀ frame ∈ frames,
    a.buddy.base ≤ frame ∧ frame < a.buddy.limit

section Invariant

variable {geometry : Nat × Nat × Nat} {a a' : SpotAllocator}
variable {frames : List Nat}

/- A test alone changes nothing. -/
theorem checkIfFree_false
    (b : Buddy)
    (page : Nat) :
    (b.checkIfFree page false).2 = b := by
  unfold Buddy.checkIfFree
  cases b.findBlock page with
  | none => rfl
  | some found =>
      cases hGet : (b.freeList found.1)[found.2]? with
      | none => simp [hGet]
      | some block => simp [hGet]

/- A page that the test finds is in the free lists. -/
theorem freeCoverage_of_checkIfFree
    {b : Buddy}
    {out : List Span}
    (hTiled : b.Tiled out)
    {page : Nat}
    (hFree : (b.checkIfFree page false).1 = true) :
    0 < Buddy.freeCoverage b.maxOrder b.freeList page := by
  unfold Buddy.checkIfFree at hFree
  cases hFind : b.findBlock page with
  | none => simp [hFind] at hFree
  | some found =>
      rcases found with ⟨order, j⟩
      rcases Buddy.findBlock_eq_some hFind with
        ⟨block, hGet, hHas⟩
      have hMem := List.mem_of_getElem? hGet
      have hOrder := (hTiled.shelved order block hMem).1
      rw [Buddy.freeCoverage, ← exists_has_iff]
      exact ⟨block, mem_shelves.mpr ⟨order, by omega, hMem⟩, hHas⟩

theorem coverage_taken_pos
    {taken : List Nat}
    {page : Nat} :
    0 < coverage (taken.map (fun f => ⟨f, f⟩)) page ↔
      page ∈ taken := by
  rw [← exists_has_iff]
  constructor
  · rintro ⟨span, hMem, hHas⟩
    rcases List.mem_map.mp hMem with ⟨f, hIn, hEq⟩
    subst hEq
    have hSame : page = f :=
      Nat.le_antisymm hHas.2 hHas.1
    exact hSame ▸ hIn
  · intro hMem
    exact ⟨⟨page, page⟩, List.mem_map.mpr ⟨page, hMem, rfl⟩,
      Nat.le_refl page, Nat.le_refl page⟩

/- The contiguity map without one page. -/
theorem listed_updateContiguityMap
    (hInv : Inv geometry a frames)
    (page p : Nat) :
    Listed (a.updateContiguityMap page) p ↔ Listed a p ∧ p ≠ page :=
  has_punch_iff hInv.once p

/- A free page in both views was not given out. -/
theorem Inv.not_mem
    (hInv : Inv geometry a frames)
    {page : Nat}
    (hFree :
      0 < Buddy.freeCoverage a.buddy.maxOrder a.buddy.freeList page)
    (hListed : Listed a page) :
    page ∉ frames := by
  intro hMem
  rcases hInv.buddy with ⟨taken, ⟨hTiled, -⟩, hOrigin⟩
  rcases hOrigin page hMem with hTaken | hNot
  · have hOnce := hTiled.once page
    have hOut := coverage_taken_pos.mpr hTaken
    simp only at hOnce
    omega
  · exact hNot hListed

theorem Inv.range_of_free
    (hInv : Inv geometry a frames)
    {page : Nat}
    (hFree :
      0 < Buddy.freeCoverage a.buddy.maxOrder a.buddy.freeList
        page) :
    a.buddy.base ≤ page ∧ page < a.buddy.limit := by
  rcases hInv.buddy with ⟨taken, ⟨hTiled, -⟩, -⟩
  exact hTiled.in_range (Nat.lt_of_lt_of_le hFree
    (Nat.le_add_right _ _))

/- A free page that is not in the map was given out. -/
theorem Inv.mem_of_not_listed
    (hInv : Inv geometry a frames)
    {page : Nat}
    (hFree :
      0 < Buddy.freeCoverage a.buddy.maxOrder a.buddy.freeList page)
    (hNot : ¬ Listed a page) :
    page ∈ frames := by
  rcases hInv.range_of_free hFree with ⟨hLow, hHigh⟩
  rcases hInv.complete page hLow hHigh with hListed | hMem
  · exact absurd hListed hNot
  · exact hMem

/- A page that is given out at the offset of its VMA. -/
theorem inv_place
    (hInv : Inv geometry a frames)
    {page : Nat}
    (hFree :
      0 < Buddy.freeCoverage a.buddy.maxOrder a.buddy.freeList page)
    (hListed : Listed a page) :
    Inv geometry (a.updateContiguityMap page) (page :: frames) := by
  have hMap := listed_updateContiguityMap hInv page
  rcases hInv.buddy with ⟨taken, hBuddy, hOrigin⟩
  refine ⟨⟨taken, hBuddy, ?_⟩, ?_, ?_, ?_, ?_⟩
  · intro frame hMem
    rw [hMap]
    rcases List.mem_cons.mp hMem with hEq | hOld
    · exact Or.inr (fun hIn => hIn.2 hEq)
    · rcases hOrigin frame hOld with hTaken | hNot
      · exact Or.inl hTaken
      · exact Or.inr (fun hIn => hNot hIn.1)
  · intro p
    exact (coverage_punch_le page _ p).trans (hInv.once p)
  · intro p hLow hHigh
    rw [hMap]
    by_cases hEq : p = page
    · exact Or.inr (by simp [hEq])
    · rcases hInv.complete p hLow hHigh with hIn | hMem
      · exact Or.inl ⟨hIn, hEq⟩
      · exact Or.inr (List.mem_cons_of_mem page hMem)
  · exact List.nodup_cons.mpr
      ⟨hInv.not_mem hFree hListed, hInv.nodup⟩
  · intro frame hMem
    rcases List.mem_cons.mp hMem with hEq | hOld
    · rw [hEq]
      exact hInv.range_of_free hFree
    · exact hInv.inRange frame hOld

/- The page that an allocation of 4KB takes was free. -/
theorem Inv.allocate
    (hInv : Inv geometry a frames)
    {result : Option Nat}
    {b : Buddy}
    (hCall : a.buddy.allocate 4096 = some (result, b)) :
    (result = none ∧ b = a.buddy ∧ a.buddy.candidate 4096 = none) ∨
      ∃ block,
        result = some block.stop ∧
          a.buddy.candidate 4096 = some block ∧
          0 < Buddy.freeCoverage a.buddy.maxOrder
            a.buddy.freeList block.stop ∧
          ∃ taken : List Nat,
            Buddy.Inv geometry
                ⟨b, (block.stop :: taken).map (fun f => ⟨f, f⟩)⟩ ∧
              ∀ frame ∈ frames,
                frame ∈ taken ∨ ¬ Listed a frame := by
  rcases hInv.buddy with ⟨taken, hBuddy, hOrigin⟩
  have hOrder : Buddy.orderOf (4096 / 4096) = 0 := by decide
  rcases Buddy.inv_allocate hBuddy hCall with
    hNone | ⟨page, hSome, hNext⟩
  · exact Or.inl hNone
  · right
    subst hSome
    rcases Buddy.upper_of_allocate hBuddy.1 hCall with
      ⟨block, hBlock, hUpper⟩
    rw [hOrder, Nat.pow_zero, Nat.add_right_cancel_iff] at hUpper
    rw [hOrder, Nat.pow_zero, Nat.add_sub_cancel, hUpper] at hNext
    exact ⟨block, by rw [hUpper], hBlock,
      Buddy.freeCoverage_candidate hBuddy.1 hBlock, taken,
      hNext, hOrigin⟩

/- The sizes of the allocator do not change. -/
theorem bounds_of_inv
    {b b' : Buddy}
    {out out' : List Span}
    (hOld : Buddy.Inv geometry ⟨b, out⟩)
    (hNew : Buddy.Inv geometry ⟨b', out'⟩) :
    b'.base = b.base ∧ b'.limit = b.limit := by
  have hSame := hNew.2.trans hOld.2.symm
  simp only [Buddy.geometry, Prod.mk.injEq] at hSame
  rcases hSame with ⟨hMemory, -, hKernel⟩
  exact ⟨congrArg Buddy.pagesInMb hKernel,
    congrArg Buddy.pagesInMb hMemory⟩

/-
  A listed page from the buddy allocator, which may be taken
  out of the contiguity map or not.
-/
theorem inv_take
    (hInv : Inv geometry a frames)
    {page : Nat}
    (hFree :
      0 < Buddy.freeCoverage a.buddy.maxOrder a.buddy.freeList page)
    (hListed : Listed a page)
    {b : Buddy}
    {taken : List Nat}
    (hBuddy : Buddy.Inv geometry
      ⟨b, (page :: taken).map (fun f => ⟨f, f⟩)⟩)
    (hOrigin : ∀ frame ∈ frames, frame ∈ taken ∨ ¬ Listed a frame) :
    Inv geometry { a with buddy := b } (page :: frames) ∧
      Inv geometry
        ({ a with buddy := b }.updateContiguityMap page)
        (page :: frames) := by
  rcases hInv.buddy with ⟨_, hOld, -⟩
  rcases bounds_of_inv hOld hBuddy with ⟨hBase, hLimit⟩
  have hRange : ∀ frame ∈ page :: frames,
      b.base ≤ frame ∧ frame < b.limit := by
    intro frame hMem
    rw [hBase, hLimit]
    rcases List.mem_cons.mp hMem with hEq | hOld
    · rw [hEq]
      exact hInv.range_of_free hFree
    · exact hInv.inRange frame hOld
  have hNodup : (page :: frames).Nodup :=
    List.nodup_cons.mpr ⟨hInv.not_mem hFree hListed, hInv.nodup⟩
  have hMap := listed_updateContiguityMap hInv page
  have hTaken : ∀ frame ∈ page :: frames,
      frame ∈ page :: taken ∨ ¬ Listed a frame := by
    intro frame hMem
    rcases List.mem_cons.mp hMem with hEq | hOld
    · exact Or.inl (by simp [hEq])
    · exact Or.imp_left (List.mem_cons_of_mem page)
        (hOrigin frame hOld)
  refine ⟨⟨⟨page :: taken, hBuddy, hTaken⟩, hInv.once, ?_,
    hNodup, hRange⟩, ⟨⟨page :: taken, hBuddy, ?_⟩, ?_, ?_,
    hNodup, hRange⟩⟩
  · intro p hLow hHigh
    refine Or.imp_right (List.mem_cons_of_mem page)
      (hInv.complete p (hBase ▸ hLow) (hLimit ▸ hHigh))
  · intro frame hMem
    refine Or.imp_right (fun hNot hIn => ?_) (hTaken frame hMem)
    exact hNot ((hMap frame).mp hIn).1
  · intro p
    exact (coverage_punch_le page _ p).trans (hInv.once p)
  · intro p hLow hHigh
    by_cases hEq : p = page
    · exact Or.inr (by simp [hEq])
    · rcases hInv.complete p (hBase ▸ hLow) (hLimit ▸ hHigh)
        with hIn | hMem
      · exact Or.inl ((hMap p).mpr ⟨hIn, hEq⟩)
      · exact Or.inr (List.mem_cons_of_mem page hMem)

------------------------------------------------------------
-- Steps And Runs
------------------------------------------------------------

/- Only the pointer moves before a page is taken. -/
theorem locate_pointer
    {vmas vmas' : List Vma}
    {address : Nat}
    {target : SpotTarget}
    (hLocate : a.locate vmas address = some (target, a', vmas')) :
    ∃ pointer, a' = { a with contiguityMapPointer := pointer } := by
  unfold SpotAllocator.locate at hLocate
  split at hLocate
  · cases hLocate
    exact ⟨a.contiguityMapPointer, rfl⟩
  · split at hLocate
    · split at hLocate
      · cases hLocate
      · cases hLocate
        exact ⟨a.contiguityMapPointer, rfl⟩
      · split at hLocate
        · cases hLocate
        · cases hLocate
          exact ⟨_, rfl⟩
    · cases hLocate
      exact ⟨a.contiguityMapPointer, rfl⟩

theorem inv_locate
    (hInv : Inv geometry a frames)
    {vmas vmas' : List Vma}
    {address : Nat}
    {target : SpotTarget}
    (hLocate : a.locate vmas address = some (target, a', vmas')) :
    Inv geometry a' frames ∧
      (Agrees a' target ↔ Agrees a target) := by
  have hSame := locate_pointer hLocate
  rcases hSame with ⟨pointer, hEq⟩
  subst hEq
  refine ⟨⟨hInv.buddy, hInv.once, hInv.complete, hInv.nodup,
    hInv.inRange⟩, ?_⟩
  cases target with
  | noVma => exact Iff.rfl
  | noRange => exact Iff.rfl
  | page requestedPpn => exact Iff.rfl

/- A page of the buddy allocator, with or without the map. -/
theorem fromBuddy_spec
    (hInv : Inv geometry a frames)
    {result : Option Nat}
    (hCall : a.fromBuddy 4096 = some (result, a')) :
    (CandidateListed a →
        Inv geometry a' (result.toList ++ frames) ∧
          Inv geometry
            (result.elim a' a'.updateContiguityMap)
            (result.toList ++ frames)) ∧
      (¬ CandidateListed a →
        ∃ page, result = some page ∧ page ∈ frames) := by
  rcases Option.map_eq_some_iff.mp hCall with
    ⟨⟨result', b⟩, hBuddy, hEq⟩
  rw [Prod.mk.injEq] at hEq
  rcases hEq with ⟨hResult, hNext⟩
  subst hResult
  subst hNext
  rcases hInv.allocate hBuddy with
    ⟨hNone, hSame, hScan⟩ |
      ⟨block, hSome, hBlock, hFree, taken, hNext, hOrigin⟩
  · subst hNone
    subst hSame
    refine ⟨fun _ => ⟨hInv, hInv⟩, fun hNot => ?_⟩
    exfalso
    apply hNot
    intro block hBlock
    rw [hScan] at hBlock
    cases hBlock
  · subst hSome
    constructor
    · intro hListed
      exact inv_take hInv hFree (hListed block hBlock) hNext hOrigin
    · intro hNot
      refine ⟨block.stop, rfl, hInv.mem_of_not_listed hFree ?_⟩
      intro hListed
      apply hNot
      intro block' hBlock'
      have hEq : block = block' :=
        Option.some.inj (hBlock.symm.trans hBlock')
      exact hEq ▸ hListed

/-
  A fault keeps the invariant when the views agree, and gives
  out a page for the second time otherwise.
-/
theorem serve_spec
    (hInv : Inv geometry a frames)
    {target : SpotTarget}
    {result : Option Nat}
    (hServe : a.serve 4096 target = some (result, a')) :
    (Agrees a target → Inv geometry a' (result.toList ++ frames)) ∧
      (¬ Agrees a target →
        ∃ page, result = some page ∧ page ∈ frames) := by
  cases target with
  | noVma =>
      rcases fromBuddy_spec hInv hServe with ⟨hGood, hBad⟩
      exact ⟨fun hListed => (hGood hListed).1, hBad⟩
  | noRange =>
      rw [SpotAllocator.serve, Option.some.injEq,
        Prod.mk.injEq] at hServe
      rw [← hServe.1, ← hServe.2]
      exact ⟨fun _ => hInv, fun hNot => absurd trivial hNot⟩
  | page requestedPpn =>
      simp only [SpotAllocator.serve] at hServe
      split_ifs at hServe with hTest
      · have hAgrees : Agrees a (.page requestedPpn) ↔
            Listed a requestedPpn := by
          simp only [Agrees, if_pos hTest]
        rw [hAgrees]
        rcases hInv.buddy with ⟨taken, hBuddy, -⟩
        have hFree := freeCoverage_of_checkIfFree hBuddy.1 hTest
        rw [checkIfFree_false, Option.some.injEq,
          Prod.mk.injEq] at hServe
        rw [← hServe.1, ← hServe.2]
        refine ⟨fun hListed => inv_place hInv hFree hListed,
          fun hNot => ?_⟩
        exact ⟨requestedPpn, rfl, hInv.mem_of_not_listed hFree hNot⟩
      · have hAgrees : Agrees a (.page requestedPpn) ↔
            CandidateListed a := by
          simp only [Agrees, if_neg hTest]
        rw [hAgrees]
        rcases Option.map_eq_some_iff.mp hServe with
          ⟨⟨result', next⟩, hCall, hEq⟩
        rw [Prod.mk.injEq] at hEq
        rcases hEq with ⟨hResult, hNext⟩
        simp only at hResult hNext
        subst hResult
        subst hNext
        rcases fromBuddy_spec hInv hCall with ⟨hGood, hBad⟩
        exact ⟨fun hListed => (hGood hListed).2, hBad⟩

variable {s s' : System}

/- What a fault does, by the agreement of the views. -/
theorem step_spec
    {op : Op}
    (hInv : Inv geometry s.allocator s.frames)
    (hStep : step s op = some s') :
    (Meets s op → Inv geometry s'.allocator s'.frames) ∧
      (¬ Meets s op → ¬ s'.frames.Nodup) := by
  cases op with
  | fault app address =>
      rcases Option.map_eq_some_iff.mp hStep with
        ⟨⟨result, a', vmas'⟩, hAllocate, hEq⟩
      subst hEq
      simp only [SpotAllocator.allocate, Bool.false_eq_true,
        if_false] at hAllocate
      cases hLocate : s.allocator.locate (s.vmas app) address with
      | none => simp [hLocate] at hAllocate
      | some r =>
          rcases r with ⟨target, a₁, vmas₁⟩
          simp only [hLocate] at hAllocate
          rcases Option.map_eq_some_iff.mp hAllocate with
            ⟨⟨result', a₂⟩, hServe, hEq⟩
          simp only [Prod.mk.injEq] at hEq
          rcases hEq with ⟨hResult, hNext, -⟩
          subst hResult
          subst hNext
          rcases inv_locate hInv hLocate with
            ⟨hInv₁, hAgrees⟩
          rcases serve_spec hInv₁ hServe with ⟨hGood, hBad⟩
          have hMeets : Meets s (.fault app address) ↔
              Agrees a₁ target := by
            rw [hAgrees]
            constructor
            · intro hAll
              exact hAll _ hLocate
            · intro hOne r hMem
              have hSame := hLocate.symm.trans hMem
              cases hSame
              exact hOne
          rw [hMeets]
          refine ⟨hGood, fun hNot => ?_⟩
          rcases hBad hNot with ⟨page, hSome, hMem⟩
          subst hSome
          intro hNodup
          exact (List.nodup_cons.mp hNodup).1 hMem

/- The views agree on a new allocator. -/
theorem inv_construct
    {memorySize maxOrder kernelSize : Nat}
    (hConstruct :
      SpotAllocator.construct memorySize maxOrder kernelSize =
        some a) :
    Inv (memorySize, maxOrder, kernelSize) a [] := by
  rcases Option.map_eq_some_iff.mp hConstruct with
    ⟨b, hBuddy, hEq⟩
  subst hEq
  have hGeometry := (Buddy.construct_eq_some hBuddy).2
  have hSizes := hGeometry
  simp only [Buddy.geometry, Prod.mk.injEq] at hSizes
  refine ⟨⟨[], ⟨Buddy.tiled_construct hBuddy, hGeometry⟩,
    by simp⟩, ?_, ?_, List.nodup_nil, by simp⟩
  · intro p
    simp only [coverage_cons, coverage_nil, covers]
    split_ifs <;> omega
  · intro p hLow hHigh
    left
    simp only [Buddy.base, hSizes.2.2] at hLow
    simp only [Buddy.limit, hSizes.1] at hHigh
    exact ⟨_, List.mem_cons_self, hLow, Nat.le_of_lt hHigh⟩

theorem framesOnce_of_inv
    {memorySize maxOrder kernelSize : Nat}
    (hInv : Inv (memorySize, maxOrder, kernelSize)
      s.allocator s.frames) :
    FramesOnce memorySize kernelSize s := by
  rcases hInv.buddy with ⟨taken, ⟨-, hGeometry⟩, -⟩
  simp only [Buddy.geometry, Prod.mk.injEq] at hGeometry
  refine ⟨hInv.nodup, fun frame hMem => ?_⟩
  rcases hInv.inRange frame hMem with ⟨hLow, hHigh⟩
  simp only [Buddy.base, hGeometry.2.2] at hLow
  simp only [Buddy.limit, hGeometry.1] at hHigh
  exact ⟨hLow, hHigh⟩

end Invariant

/-
  For any VMAs, the states of a run have given out no page
  twice and only pages behind the kernel exactly when both
  views agree on every page that the run takes.
-/
theorem framesOnce_run_iff
    (memorySize maxOrder kernelSize : Nat)
    (a : SpotAllocator)
    (hConstruct :
      SpotAllocator.construct memorySize maxOrder kernelSize =
        some a)
    (vmas : Nat → List Vma)
    (ops : List Op)
    (s : System)
    (hRun : Run.run step ⟨a, vmas, []⟩ ops = some s) :
    (∀ front, front <+: ops →
      ∀ t, Run.run step ⟨a, vmas, []⟩ front = some t →
        FramesOnce memorySize kernelSize t) ↔
      Run.Along step Meets ⟨a, vmas, []⟩ ops := by
  symm
  refine Run.along_iff_of_run
    (I := fun s => Inv (memorySize, maxOrder, kernelSize)
      s.allocator s.frames)
    (E := fun _ _ => True)
    (fun s hInv => framesOnce_of_inv hInv) ?_ ?_
    (inv_construct hConstruct)
    (Run.along_of_forall_mem _ (fun _ _ => trivial)) hRun
  · intro s op s' hInv _ hMeets hStep
    exact (step_spec hInv hStep).1 hMeets
  · intro s op s' hInv _ hMissed hStep hOnce
    exact (step_spec hInv hStep).2 hMissed hOnce.1

instance
    (memorySize kernelSize : Nat)
    (s : System) :
    Decidable (FramesOnce memorySize kernelSize s) :=
  inferInstanceAs (Decidable (_ ∧ _))

/- Two pages of one VMA and a page without VMA. -/
theorem framesOnce_run_one :
    ∃ a ∈ SpotAllocator.construct 2 9 1,
      ∃ s ∈ Run.run step
          ⟨a, fun _ => [Vma.construct 0x10000 0x14000], []⟩
          [.fault 0 0x10000, .fault 0 0x12000, .fault 0 0],
        s.frames = [511, 258, 256] ∧ FramesOnce 2 1 s := by
  refine ⟨_, Option.get_mem ?_, _, Option.get_mem ?_, ?_, ?_⟩
  iterate 3 decide +kernel
  refine (framesOnce_run_iff 2 9 1 _ (Option.get_mem _) _ _ _
    (Option.get_mem ?_)).mpr ?_ _ (List.prefix_refl _) _
    (Option.get_mem _)
  iterate 2 decide +kernel

/-
  The first page of a second VMA is given out again for the
  second page of the first one.
-/
theorem framesOnce_run_twice :
    ∃ a ∈ SpotAllocator.construct 2 9 1,
      ∃ s ∈ Run.run step
          ⟨a, fun _ => [Vma.construct 0x10000 0x14000,
            Vma.construct 0x20000 0x24000], []⟩
          [.fault 0 0x10000, .fault 0 0x20000, .fault 0 0x11000],
        s.frames = [257, 257, 256] ∧ ¬ FramesOnce 2 1 s := by
  decide +kernel

end Spot

end Virtuoso
