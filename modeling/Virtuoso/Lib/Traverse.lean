import Mathlib.Data.List.Forall2
import Mathlib.Data.List.Induction

/-
  Traversals of lists by functions that may fail.

  A map or a fold with a partial function is defined where
  every one of its steps is. A fold keeps what its steps
  keep.

  Main declarations:
    * `Traverse.mapM_eq_some_iff`
    * `Traverse.exists_foldlM`
-/

namespace Traverse

variable {α β σ : Type*} {f : α → Option β} {xs : List α}

theorem mapM_eq_some_iff
    {ys : List β} :
    xs.mapM f = some ys ↔
      List.Forall₂ (fun x y => f x = some y) xs ys := by
  induction xs generalizing ys with
  | nil =>
      rw [List.mapM_nil, List.forall₂_nil_left_iff]
      exact ⟨fun hEq => (Option.some.inj hEq).symm,
        fun hEq => congrArg some hEq.symm⟩
  | cons x xs ih =>
      rw [List.mapM_cons, List.forall₂_cons_left_iff]
      simp only [Option.bind_eq_bind, Option.pure_def,
        Option.bind_eq_some_iff, Option.some.injEq, ih]
      constructor
      · rintro ⟨y, hHead, rest, hTail, hEq⟩
        exact ⟨y, rest, hHead, hTail, hEq.symm⟩
      · rintro ⟨y, rest, hHead, hTail, hEq⟩
        exact ⟨y, hHead, rest, hTail, hEq.symm⟩

theorem exists_mapM
    (hAll : ∀ x ∈ xs, ∃ y, f x = some y) :
    ∃ ys, xs.mapM f = some ys := by
  induction xs with
  | nil => exact ⟨[], rfl⟩
  | cons x xs ih =>
      rcases hAll x (by simp) with ⟨y, hHead⟩
      rcases ih (fun x hMem => hAll x (by simp [hMem])) with
        ⟨ys, hTail⟩
      exact ⟨y :: ys, mapM_eq_some_iff.mpr
        (.cons hHead (mapM_eq_some_iff.mp hTail))⟩

/- The values are those of the elements, and no others. -/
theorem mem_of_mapM
    {ys : List β}
    (hMap : xs.mapM f = some ys)
    (y : β) :
    y ∈ ys ↔ ∃ x ∈ xs, f x = some y := by
  rw [mapM_eq_some_iff] at hMap
  induction hMap with
  | nil => simp
  | cons hHead _ ih =>
      rw [List.mem_cons, ih]
      constructor
      · rintro (hEq | ⟨x, hMem, hValue⟩)
        · exact ⟨_, List.mem_cons_self, by rw [hEq, hHead]⟩
        · exact ⟨x, List.mem_cons_of_mem _ hMem, hValue⟩
      · rintro ⟨x, hMem, hValue⟩
        rcases List.mem_cons.mp hMem with hEq | hMem
        · rw [hEq, hHead] at hValue
          exact Or.inl (Option.some.inj hValue).symm
        · exact Or.inr ⟨x, hMem, hValue⟩

/- What holds between elements in order holds of their
   values. -/
theorem pairwise_of_mapM
    {ys : List β}
    {R : α → α → Prop}
    {S : β → β → Prop}
    (hMap : xs.mapM f = some ys)
    (hPairwise : xs.Pairwise R)
    (hRel : ∀ x ∈ xs, ∀ x' ∈ xs, ∀ y y', R x x' →
      f x = some y → f x' = some y' → S y y') :
    ys.Pairwise S := by
  rw [mapM_eq_some_iff] at hMap
  induction hMap with
  | nil => exact List.Pairwise.nil
  | cons hHead hTail ih =>
      rw [List.pairwise_cons] at hPairwise ⊢
      have hRest := mem_of_mapM (mapM_eq_some_iff.mpr hTail)
      refine ⟨fun y' hMem => ?_, ih hPairwise.2
        (fun x hX x' hX' => hRel x (by simp [hX]) x'
          (by simp [hX']))⟩
      rcases (hRest y').mp hMem with ⟨x', hIn, hValue⟩
      exact hRel _ (by simp) x' (by simp [hIn]) _ y'
        (hPairwise.1 x' hIn) hHead hValue

/- The invariant speaks of the elements that were taken. -/
theorem exists_foldlM
    {step : σ → α → Option σ}
    (I : List α → σ → Prop)
    (l : List α)
    (s : σ)
    (hStart : I [] s)
    (hStep : ∀ taken s x, x ∈ l → I taken s →
      ∃ s', step s x = some s' ∧ I (taken ++ [x]) s') :
    ∃ s', l.foldlM step s = some s' ∧ I l s' := by
  induction l using List.reverseRecOn with
  | nil => exact ⟨s, rfl, hStart⟩
  | append_singleton l x ih =>
      rcases ih (fun taken s y hMem =>
        hStep taken s y (by simp [hMem])) with
        ⟨s', hFold, hInv⟩
      rcases hStep l s' x (by simp) hInv with
        ⟨s'', hLast, hInv'⟩
      refine ⟨s'', ?_, hInv'⟩
      rw [List.foldlM_append, hFold]
      simp [hLast]

end Traverse
