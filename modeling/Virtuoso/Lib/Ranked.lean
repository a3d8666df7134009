import Mathlib.Algebra.Order.BigOperators.Group.List
import Mathlib.Data.List.Sort

/-
  The sum of the largest members of a list.

  No choice of that many members has a larger sum. So cutting
  a member into pieces that together are at most as large
  never increases the sum, wherever the pieces rank.

  Key theorems include:
    * `Ranked.sum_le_topSum`
    * `Ranked.topSum_flatMap`
-/

namespace Ranked

variable {α : Type} [LinearOrder α]

/- The members from the largest to the smallest. -/
def descending (l : List α) : List α :=
  l.insertionSort (· ≥ ·)

theorem descending_perm
    (l : List α) :
    (descending l).Perm l :=
  List.perm_insertionSort (· ≥ ·) l

theorem descending_pairwise
    (l : List α) :
    (descending l).Pairwise (· ≥ ·) :=
  List.pairwise_insertionSort (· ≥ ·) l

theorem descending_congr
    {l l' : List α}
    (hPerm : l.Perm l') :
    descending l = descending l' := by
  apply List.Perm.eq_of_pairwise'
    (descending_pairwise l) (descending_pairwise l')
  exact (descending_perm l).trans
    (hPerm.trans (descending_perm l').symm)

variable [AddCommMonoid α]

/- The sum of the `n` largest members. -/
def topSum (n : Nat) (l : List α) : α :=
  ((descending l).take n).sum

/- The order of the members does not matter. -/
theorem topSum_perm
    {l l' : List α}
    (hPerm : l.Perm l')
    (n : Nat) :
    topSum n l = topSum n l' := by
  rw [topSum, topSum, descending_congr hPerm]

/- The sum is that of some of the members. -/
theorem exists_sublist_topSum
    (n : Nat)
    (l : List α) :
    ∃ s : List α,
      s.Sublist l ∧ s.length ≤ n ∧ s.sum = topSum n l := by
  have hSub : ((descending l).take n).Subperm l :=
    (List.take_sublist n (descending l)).subperm.trans
      (descending_perm l).subperm
  rcases hSub with ⟨s, hPerm, hSublist⟩
  refine ⟨s, hSublist, ?_, hPerm.sum_eq⟩
  rw [hPerm.length_eq]
  exact List.length_take_le n (descending l)

variable [IsOrderedAddMonoid α] [CanonicallyOrderedAdd α]

/- In descending order an earlier window has a larger sum. -/
theorem sum_take_le_cons
    {a : α}
    {l : List α}
    (hSorted : (a :: l).Pairwise (· ≥ ·))
    (n : Nat) :
    (l.take n).sum ≤ ((a :: l).take n).sum := by
  induction l generalizing a n with
  | nil => simp
  | cons b l ih =>
      cases n with
      | zero => simp
      | succ n =>
          have hHead : b ≤ a :=
            List.rel_of_pairwise_cons hSorted (by simp)
          have hTail := ih (List.Pairwise.of_cons hSorted) n
          simp only [List.take_succ_cons, List.sum_cons]
          exact add_le_add hHead hTail

/- In descending order the first members have the most sum. -/
theorem sum_le_sum_take
    {s l : List α}
    (hSub : s.Sublist l)
    (hSorted : l.Pairwise (· ≥ ·))
    {n : Nat}
    (hLength : s.length ≤ n) :
    s.sum ≤ (l.take n).sum := by
  induction hSub generalizing n with
  | slnil => simp
  | cons a hSub ih =>
      have hRest := ih (List.Pairwise.of_cons hSorted) hLength
      exact hRest.trans (sum_take_le_cons hSorted n)
  | cons_cons a hSub ih =>
      cases n with
      | zero => simp at hLength
      | succ n =>
          have hRest := ih (List.Pairwise.of_cons hSorted)
            (Nat.le_of_succ_le_succ hLength)
          simp only [List.take_succ_cons, List.sum_cons]
          exact add_le_add (le_refl a) hRest

/- No choice of as many members has a larger sum. -/
theorem sum_le_topSum
    {s l : List α}
    (hSub : s.Sublist l)
    {n : Nat}
    (hLength : s.length ≤ n) :
    s.sum ≤ topSum n l := by
  have hSubperm : s.Subperm (descending l) :=
    hSub.subperm.trans (descending_perm l).symm.subperm
  rcases hSubperm with ⟨t, hPerm, hSublist⟩
  rw [← hPerm.sum_eq]
  apply sum_le_sum_take hSublist (descending_pairwise l)
  rw [hPerm.length_eq]
  exact hLength

/- Cutting a member into pieces does not raise the sum. -/
theorem topSum_cut
    {pieces : List α}
    {a : α}
    (hPieces : pieces.sum ≤ a)
    (l : List α)
    (n : Nat) :
    topSum n (pieces ++ l) ≤ topSum n (a :: l) := by
  rcases exists_sublist_topSum n (pieces ++ l) with
    ⟨s, hSub, hLength, hSum⟩
  rcases List.sublist_append_iff.mp hSub with
    ⟨chosen, others, hEq, hChosen, hOthers⟩
  subst hEq
  rw [← hSum, List.sum_append]
  rw [List.length_append] at hLength
  cases chosen with
  | nil =>
      rw [List.sum_nil, zero_add]
      exact sum_le_topSum (hOthers.cons a) (by simpa using hLength)
  | cons piece chosen =>
      -- the pieces that were chosen make room for `a`
      have hWhole : (piece :: chosen).sum ≤ a :=
        hChosen.sum_le_sum (fun _ _ => zero_le) |>.trans hPieces
      have hRoom : (a :: others).length ≤ n := by
        simp only [List.length_cons] at hLength ⊢
        omega
      calc
        (piece :: chosen).sum + others.sum ≤ a + others.sum :=
          add_le_add hWhole (le_refl _)
        _ = (a :: others).sum := List.sum_cons.symm
        _ ≤ topSum n (a :: l) :=
          sum_le_topSum (hOthers.cons_cons a) hRoom

/- Cutting every member does not raise the sum. -/
theorem topSum_flatMap
    {cut : α → List α}
    (l : List α)
    (hCut : ∀ a ∈ l, (cut a).sum ≤ a)
    (n : Nat) :
    topSum n (l.flatMap cut) ≤ topSum n l := by
  suffices hAll : ∀ whole : List α,
      topSum n (l.flatMap cut ++ whole) ≤ topSum n (l ++ whole) by
    have hNil := hAll []
    rwa [List.append_nil, List.append_nil] at hNil
  induction l with
  | nil =>
      intro whole
      exact le_refl _
  | cons a l ih =>
      intro whole
      have hRest := ih
        (fun b hMem => hCut b (List.mem_cons_of_mem a hMem))
        (a :: whole)
      have hHead := topSum_cut (hCut a (by simp))
        (l.flatMap cut ++ whole) n
      calc
        topSum n ((a :: l).flatMap cut ++ whole) =
            topSum n (cut a ++ (l.flatMap cut ++ whole)) := by
          rw [List.flatMap_cons, List.append_assoc]
        _ ≤ topSum n (a :: (l.flatMap cut ++ whole)) := hHead
        _ = topSum n (l.flatMap cut ++ a :: whole) :=
          topSum_perm List.perm_middle.symm n
        _ ≤ topSum n (l ++ a :: whole) := hRest
        _ = topSum n (a :: l ++ whole) :=
          topSum_perm List.perm_middle n

end Ranked
