import Mathlib.Logic.Function.Basic

/-
  Pages that are given to keys when they are first requested.

  The pages are placed one after the other, and a key keeps
  its page. So the pages of different keys do not overlap.

  Main declarations:
    * `Keyed.spaced_request`
    * `Keyed.Spaced.key_eq`
-/

namespace Keyed

variable {κ : Type*} [DecidableEq κ]

/- The place of the next page, and the pages of the keys. -/
structure Table (κ : Type*) where
  next : Nat
  page : κ → Option Nat

/- The key gets a page, unless it has one. -/
def request (size : Nat) (t : Table κ) (k : κ) : Table κ :=
  match t.page k with
  | some _ => t
  | none =>
      ⟨t.next + size, Function.update t.page k (some t.next)⟩

variable {size : Nat} {t : Table κ} {k k' : κ} {p p' : Nat}

theorem request_of_some
    (hPage : t.page k = some p) :
    request size t k = t := by
  rw [request, hPage]

theorem request_of_none
    (hPage : t.page k = none) :
    request size t k =
      ⟨t.next + size, Function.update t.page k (some t.next)⟩ := by
  rw [request, hPage]

/- A request leaves the pages of the other keys alone. -/
theorem page_request_of_ne
    (hNe : k' ≠ k) :
    (request size t k).page k' = t.page k' := by
  cases hPage : t.page k with
  | some p => rw [request_of_some hPage]
  | none =>
      rw [request_of_none hPage]
      exact Function.update_of_ne hNe _ _

theorem page_request_of_none
    (hPage : t.page k = none) :
    (request size t k).page k = some t.next := by
  rw [request_of_none hPage]
  exact Function.update_self _ _ _

/- A page that was given stays. -/
theorem page_request_of_some
    (hPage : t.page k' = some p) :
    (request size t k).page k' = some p := by
  by_cases hEq : k' = k
  · subst hEq
    rw [request_of_some hPage]
    exact hPage
  · rw [page_request_of_ne hEq]
    exact hPage

/- The keys that have a page after a request. -/
theorem page_request_ne_none_iff :
    (request size t k).page k' ≠ none ↔
      k' = k ∨ t.page k' ≠ none := by
  by_cases hEq : k' = k
  · subst hEq
    simp only [true_or, iff_true]
    cases hPage : t.page k' with
    | some p =>
        rw [page_request_of_some hPage]
        exact Option.some_ne_none p
    | none =>
        rw [page_request_of_none hPage]
        exact Option.some_ne_none _
  · rw [page_request_of_ne hEq]
    simp [hEq]

/-
  The pages lie between the base and the place of the next
  page, and those of different keys do not overlap.
-/
structure Spaced
    (base size : Nat)
    (t : Table κ) : Prop where
  base_le_next : base ≤ t.next
  base_le : ∀ k p, t.page k = some p → base ≤ p
  le_next : ∀ k p, t.page k = some p → p + size ≤ t.next
  apart :
    ∀ k k' p p', k ≠ k' →
      t.page k = some p → t.page k' = some p' →
        p + size ≤ p' ∨ p' + size ≤ p

variable {base : Nat}

/- A page that is placed is behind the pages so far. -/
theorem spaced_request
    (hSpaced : Spaced base size t)
    (k : κ) :
    Spaced base size (request size t k) := by
  cases hPage : t.page k with
  | some p =>
      rw [request_of_some hPage]
      exact hSpaced
  | none =>
      rw [request_of_none hPage]
      have hCases : ∀ k' p,
          Function.update t.page k (some t.next) k' = some p →
            (k' = k ∧ p = t.next) ∨
              (k' ≠ k ∧ t.page k' = some p) := by
        intro k' p hNew
        by_cases hEq : k' = k
        · subst hEq
          rw [Function.update_self, Option.some.injEq] at hNew
          exact Or.inl ⟨rfl, hNew.symm⟩
        · rw [Function.update_of_ne hEq] at hNew
          exact Or.inr ⟨hEq, hNew⟩
      refine ⟨Nat.le_add_right_of_le hSpaced.base_le_next,
        ?_, ?_, ?_⟩
      · intro k' p hNew
        rcases hCases k' p hNew with ⟨-, hEq⟩ | ⟨-, hOld⟩
        · exact hEq ▸ hSpaced.base_le_next
        · exact hSpaced.base_le k' p hOld
      · intro k' p hNew
        rcases hCases k' p hNew with ⟨-, hEq⟩ | ⟨-, hOld⟩
        · exact hEq ▸ Nat.le_refl _
        · exact Nat.le_add_right_of_le (hSpaced.le_next k' p hOld)
      · intro k₁ k₂ p₁ p₂ hNe hFirst hSecond
        rcases hCases k₁ p₁ hFirst with
          ⟨hKey₁, hEq₁⟩ | ⟨-, hOld₁⟩
        · rcases hCases k₂ p₂ hSecond with
            ⟨hKey₂, -⟩ | ⟨-, hOld₂⟩
          · exact absurd (hKey₁.trans hKey₂.symm) hNe
          · exact Or.inr (hEq₁ ▸ hSpaced.le_next k₂ p₂ hOld₂)
        · rcases hCases k₂ p₂ hSecond with
            ⟨-, hEq₂⟩ | ⟨-, hOld₂⟩
          · exact Or.inl (hEq₂ ▸ hSpaced.le_next k₁ p₁ hOld₁)
          · exact hSpaced.apart k₁ k₂ p₁ p₂ hNe hOld₁ hOld₂

/- A table without pages. -/
omit [DecidableEq κ] in
theorem spaced_empty
    (base size : Nat) :
    Spaced base size (⟨base, fun _ => none⟩ : Table κ) := by
  refine ⟨Nat.le_refl _, ?_, ?_, ?_⟩
  · intro k p hPage
    cases hPage
  · intro k p hPage
    cases hPage
  · intro k k' p p' _ hPage
    cases hPage

/- A page belongs to one key. -/
omit [DecidableEq κ] in
theorem Spaced.key_eq
    (hSpaced : Spaced base size t)
    (hSize : 0 < size)
    (hPage : t.page k = some p)
    (hPage' : t.page k' = some p) :
    k = k' := by
  by_contra hNe
  rcases hSpaced.apart k k' p p hNe hPage hPage' with
    hLe | hLe
  · omega
  · omega

end Keyed
