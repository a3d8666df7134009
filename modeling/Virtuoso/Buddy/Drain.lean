import Mathlib.Algebra.Order.BigOperators.Group.Finset
import Virtuoso.Buddy.Runs

/-
  Every free page is handed out in the end.

  Requests for single pages take the free pages one after the
  other, until none is left. So from any state of a run, any
  page of the allocator is in use after enough of them.

  Main declarations:
    * `Buddy.inv_of_step`
    * `Buddy.exists_drain`
-/

namespace Virtuoso

namespace Buddy

open Span

variable {geometry : Nat × Nat × Nat} {s s' : Heap}

/- A reservation needs a list for blocks of 2MB. -/
theorem lists_of_step
    (hStep : step s .reserve2mbPage = some s') :
    4 ≤ s.buddy.maxOrder := by
  by_contra hFew
  rw [step, Buddy.reserve2mbPage, if_pos (by omega)] at hStep
  cases hStep

/- A permitted call with an outcome keeps the invariant. -/
theorem inv_of_step
    (hInv : Inv geometry s)
    {op : Op}
    (hPermitted : Permitted s op)
    (hStep : step s op = some s') :
    Inv geometry s' := by
  have hLists : op = .reserve2mbPage → 4 ≤ s.buddy.maxOrder := by
    intro hOp
    rw [hOp] at hStep
    exact lists_of_step hStep
  rcases step_total hLists hInv hPermitted
    (withinTwice_of_step hInv hStep) with ⟨t, hNext, hInv'⟩
  rw [hStep, Option.some.injEq] at hNext
  rw [hNext]
  exact hInv'

/- The number of free pages, each counted as it is covered. -/
def freeCount (b : Buddy) : Nat :=
  (Finset.range b.limit).sum (freeCoverage b.maxOrder b.freeList)

/- What a request for a single page does. -/
theorem allocate_page
    (hInv : Inv geometry s) :
    (∀ p, freeCoverage s.buddy.maxOrder s.buddy.freeList p =
      0) ∨
      ∃ page b',
        step s (.allocate 4096) =
          some ⟨b', ⟨page, page⟩ :: s.outstanding⟩ ∧
        Inv geometry ⟨b', ⟨page, page⟩ :: s.outstanding⟩ ∧
        freeCount b' < freeCount s.buddy := by
  rcases hInv with ⟨hTiled, hGeometry⟩
  have hOne : orderOf (4096 / 4096) = 0 := by decide
  rcases allocate_spec hTiled 4096 (by rw [hOne]; omega) with
    ⟨_, hEmpty⟩ | ⟨page, b', hSome, hSame, hTiled'⟩
  · left
    intro p
    rw [hOne] at hEmpty
    by_contra hSomeFree
    rcases exists_of_coverage_pos
      (Nat.pos_of_ne_zero hSomeFree) with ⟨block, hMem, _⟩
    rcases mem_shelves.mp hMem with ⟨k, hLt, hMem'⟩
    rw [hEmpty k (Nat.zero_le k) (by omega)] at hMem'
    cases hMem'
  · right
    rw [hOne] at hTiled'
    have hBlock : (⟨page, page + 2 ^ 0 - 1⟩ : Span) =
        ⟨page, page⟩ := rfl
    rw [hBlock] at hTiled'
    refine ⟨page, b', ?_, ⟨hTiled', hSame.trans hGeometry⟩, ?_⟩
    · simp only [step, hSome, hOne]
      rfl
    · have hFields := hSame
      simp only [Buddy.geometry, Prod.mk.injEq] at hFields
      have hLimit : b'.limit = s.buddy.limit := by
        rw [Buddy.limit, hFields.1, ← Buddy.limit]
      have hBase : b'.base = s.buddy.base := by
        rw [Buddy.base, hFields.2.2, ← Buddy.base]
      have hLess : ∀ q,
          freeCoverage b'.maxOrder b'.freeList q +
              (⟨page, page⟩ : Span).covers q =
            freeCoverage s.buddy.maxOrder s.buddy.freeList q := by
        intro q
        have hBefore := hTiled.tiled q
        have hAfter := hTiled'.tiled q
        rw [hBase, hLimit, coverage_cons] at hAfter
        omega
      have hCovers : (⟨page, page⟩ : Span).covers page = 1 :=
        covers_eq_one ⟨Nat.le_refl _, Nat.le_refl _⟩
      have hRange := hTiled.in_range (p := page) (by
        have hAt := hLess page
        omega)
      unfold freeCount
      rw [hLimit]
      apply Finset.sum_lt_sum
      · intro q _
        have hAt := hLess q
        omega
      · refine ⟨page, Finset.mem_range.mpr hRange.2, ?_⟩
        have hAt := hLess page
        omega

/- Any page is in use after enough requests. -/
theorem exists_drain
    (hInv : Inv geometry s)
    {p : Nat}
    (hLow : s.buddy.base ≤ p)
    (hHigh : p < s.buddy.limit) :
    ∃ n s',
      Run.run step s (List.replicate n (.allocate 4096)) = some s' ∧
      ∃ block ∈ s'.outstanding, block.Has p := by
  induction hCount : freeCount s.buddy using
    Nat.strong_induction_on generalizing s with
  | _ count ih =>
      rcases allocate_page hInv with
        hFull | ⟨page, b', hStep, hInv', hLess⟩
      · refine ⟨0, s, rfl, exists_of_coverage_pos ?_⟩
        have hTiled := hInv.1.tiled p
        rw [hFull, if_pos ⟨hLow, hHigh⟩] at hTiled
        omega
      · have hSame := hInv.2.trans hInv'.2.symm
        simp only [Buddy.geometry, Prod.mk.injEq] at hSame
        have hLow' : b'.base ≤ p := by
          rw [Buddy.base, ← hSame.2.2]
          exact hLow
        have hHigh' : p < b'.limit := by
          rw [Buddy.limit, ← hSame.1]
          exact hHigh
        rcases ih _ (hCount ▸ hLess) hInv' hLow' hHigh' rfl
          with ⟨n, t, hRun, hHas⟩
        refine ⟨n + 1, t, ?_, hHas⟩
        rw [List.replicate_succ, Run.run_cons_of_some _ hStep]
        exact hRun

end Buddy

end Virtuoso
