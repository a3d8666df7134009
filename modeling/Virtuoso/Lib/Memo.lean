import Mathlib.Data.List.Forall2
import Virtuoso.Lib.Assoc

/-
  Functions that are computed once for each key.

  The value of an input is taken from a map under the key of
  the input, where it is found, and is put there otherwise. A
  view is what is compared of two values.

  Key theorems include:
    * `Memo.outputs_agree_iff`
-/

namespace Memo

variable {α κ β γ : Type*}
variable [BEq κ]
variable (key : α → κ) (value : α → β) (view : β → γ)

/- The value of an input, and the map with it. -/
def fetch (m : List (κ × β)) (x : α) : β × List (κ × β) :=
  match m.lookup (key x) with
  | some b => (b, m)
  | none => (value x, Assoc.insert m (key x) (value x))

/- The values of a list of inputs, in turn. -/
def outputs :
    List (κ × β) → List α → List β
| _, [] => []
| m, x :: xs =>
    (fetch key value m x).1 :: outputs (fetch key value m x).2 xs

/- The map has no value of another view for the input. -/
def Suits (m : List (κ × β)) (x : α) : Prop :=
  ∀ b, m.lookup (key x) = some b → view b = view (value x)

/- Where the keys of two inputs agree, so do their values. -/
def Determines (x y : α) : Prop :=
  key x = key y → view (value x) = view (value y)

theorem fetch_agrees_iff
    (m : List (κ × β))
    (x : α) :
    view (fetch key value m x).1 = view (value x) ↔
      Suits key value view m x := by
  rw [fetch, Suits]
  cases hLookup : m.lookup (key x) with
  | none => simp
  | some b => simp

section Lawful

variable [LawfulBEq κ] [DecidableEq κ]

theorem lookup_fetch
    (m : List (κ × β))
    (x : α)
    (k : κ) :
    (fetch key value m x).2.lookup k =
      if k = key x then some (fetch key value m x).1
      else m.lookup k := by
  rw [fetch]
  cases hLookup : m.lookup (key x) with
  | none => exact Assoc.lookup_insert m (key x) (value x) k
  | some b =>
      by_cases hKey : k = key x
      · rw [if_pos hKey, hKey, hLookup]
      · rw [if_neg hKey]

/- What an agreeing fetch leaves for a later input. -/
theorem suits_fetch_iff
    {m : List (κ × β)}
    {x : α}
    (hSuits : Suits key value view m x)
    (y : α) :
    Suits key value view (fetch key value m x).2 y ↔
      Suits key value view m y ∧ Determines key value view x y := by
  have hView := (fetch_agrees_iff key value view m x).mpr hSuits
  rw [Suits, lookup_fetch]
  by_cases hKey : key y = key x
  · rw [if_pos hKey]
    simp only [Option.some.injEq, forall_eq']
    rw [hView, Determines, Suits, hKey]
    constructor
    · intro hEq
      exact ⟨fun b hB => (hSuits b hB).trans hEq, fun _ => hEq⟩
    · rintro ⟨-, hEq⟩
      exact hEq rfl
  · rw [if_neg hKey]
    have hOther : Determines key value view x y :=
      fun hEq => absurd hEq.symm hKey
    exact (and_iff_left hOther).symm

/-
  All values that are fetched agree with those computed anew,
  exactly where the map suits and the keys determine the
  values among the inputs.
-/
theorem outputs_agree_iff
    (m : List (κ × β))
    (xs : List α) :
    List.Forall₂ (fun b x => view b = view (value x))
        (outputs key value m xs) xs ↔
      (∀ x ∈ xs, Suits key value view m x) ∧
        xs.Pairwise (Determines key value view) := by
  induction xs generalizing m with
  | nil => simp [outputs]
  | cons x xs ih =>
      rw [outputs, List.forall₂_cons, ih, fetch_agrees_iff,
        List.pairwise_cons, List.forall_mem_cons]
      constructor
      · rintro ⟨hHere, hLater, hPairs⟩
        have hSplit := fun y hY =>
          (suits_fetch_iff key value view hHere y).mp (hLater y hY)
        exact ⟨⟨hHere, fun y hY => (hSplit y hY).1⟩,
          fun y hY => (hSplit y hY).2, hPairs⟩
      · rintro ⟨⟨hHere, hLater⟩, hFirst, hPairs⟩
        refine ⟨hHere, fun y hY => ?_, hPairs⟩
        exact (suits_fetch_iff key value view hHere y).mpr
          ⟨hLater y hY, hFirst y hY⟩

/- The same for a map that is empty at first. -/
theorem outputs_nil_agree_iff
    (xs : List α) :
    List.Forall₂ (fun b x => view b = view (value x))
        (outputs key value [] xs) xs ↔
      xs.Pairwise (Determines key value view) := by
  rw [outputs_agree_iff]
  apply and_iff_right
  intro x _ b hLookup
  cases hLookup

end Lawful

end Memo
