import Mathlib.Order.Lattice
import Mathlib.Tactic.Common

/-
  Scans for a least or a greatest candidate.

  A scan starts with a default and a value that only smaller,
  or only greater, ones replace. It ends with the first of the
  candidates with the least, or the greatest, value, unless
  none is beyond the start.

  Key theorems include:
    * `FirstLeast.scan_eq_iff`
    * `FirstLeast.climb_spec`
-/

namespace FirstLeast

variable {α : Type} [LinearOrder α]

/- The candidates have a number and a value. -/
def scan (start : Nat × α) (l : List (Nat × α)) : Nat × α :=
  l.foldl (fun best c => if c.2 < best.2 then c else best) start

/- The first candidate with the least value. -/
def IsFirst (l : List (Nat × α)) (r : Nat × α) : Prop :=
  r ∈ l ∧ ∀ c ∈ l, r.2 ≤ c.2 ∧ (c.1 < r.1 → r.2 < c.2)

theorem IsFirst.unique
    {l : List (Nat × α)}
    {r r' : Nat × α}
    (hFirst : IsFirst l r)
    (hFirst' : IsFirst l r') :
    r.1 = r'.1 := by
  have hLe := hFirst.2 r' hFirst'.1
  have hLe' := hFirst'.2 r hFirst.1
  rcases Nat.lt_trichotomy r.1 r'.1 with hLt | hEq | hLt
  · exact absurd (hLe'.2 hLt) (not_lt_of_ge hLe.1)
  · exact hEq
  · exact absurd (hLe.2 hLt) (not_lt_of_ge hLe'.1)

/- The candidates are scanned in the order of their numbers. -/
theorem scan_spec
    (start : Nat × α)
    (l : List (Nat × α))
    (hOrder : l.Pairwise (fun c d => c.1 < d.1)) :
    ((scan start l).2 < start.2 ∧ IsFirst l (scan start l)) ∨
      (scan start l = start ∧ ∀ c ∈ l, start.2 ≤ c.2) := by
  induction l generalizing start with
  | nil => exact Or.inr ⟨rfl, fun c hMem => by contradiction⟩
  | cons c l ih =>
      rw [List.pairwise_cons] at hOrder
      have hCons : scan start (c :: l) =
          scan (if c.2 < start.2 then c else start) l := rfl
      rw [hCons]
      by_cases hLess : c.2 < start.2
      · rw [if_pos hLess]
        rcases ih c hOrder.2 with ⟨hBelow, hMem, hAll⟩ | hKept
        · refine Or.inl ⟨hBelow.trans hLess,
            List.mem_cons_of_mem c hMem, ?_⟩
          intro d hD
          rcases List.mem_cons.mp hD with hEq | hD
          · rw [hEq]
            exact ⟨hBelow.le, fun _ => hBelow⟩
          · exact hAll d hD
        · rw [hKept.1]
          refine Or.inl ⟨hLess, List.mem_cons_self .., ?_⟩
          intro d hD
          rcases List.mem_cons.mp hD with hEq | hD
          · rw [hEq]
            exact ⟨le_refl _, fun hLt =>
              absurd hLt (Nat.lt_irrefl _)⟩
          · refine ⟨hKept.2 d hD, fun hLt => ?_⟩
            exact absurd hLt (Nat.lt_asymm (hOrder.1 d hD))
      · rw [if_neg hLess]
        have hGe := not_lt.mp hLess
        rcases ih start hOrder.2 with ⟨hBelow, hMem, hAll⟩ | hKept
        · refine Or.inl ⟨hBelow, List.mem_cons_of_mem c hMem, ?_⟩
          intro d hD
          rcases List.mem_cons.mp hD with hEq | hD
          · rw [hEq]
            exact ⟨(hBelow.trans_le hGe).le,
              fun _ => hBelow.trans_le hGe⟩
          · exact hAll d hD
        · refine Or.inr ⟨hKept.1, ?_⟩
          intro d hD
          rcases List.mem_cons.mp hD with hEq | hD
          · rw [hEq]
            exact hGe
          · exact hKept.2 d hD

/- Which number the scan ends with. -/
theorem scan_eq_iff
    (start : Nat × α)
    (l : List (Nat × α))
    (hOrder : l.Pairwise (fun c d => c.1 < d.1))
    (i : Nat) :
    (scan start l).1 = i ↔
      (∃ v, v < start.2 ∧ IsFirst l (i, v)) ∨
        (i = start.1 ∧ ∀ c ∈ l, start.2 ≤ c.2) := by
  constructor
  · intro hScan
    subst hScan
    rcases scan_spec start l hOrder with hFirst | hKept
    · exact Or.inl ⟨_, hFirst⟩
    · exact Or.inr ⟨congrArg Prod.fst hKept.1, hKept.2⟩
  · intro hIs
    rcases scan_spec start l hOrder with hFirst | hKept
    · rcases hIs with ⟨v, _, hIs⟩ | ⟨_, hNone⟩
      · exact hFirst.2.unique hIs
      · exact absurd hFirst.1 (not_lt_of_ge (hNone _ hFirst.2.1))
    · rcases hIs with ⟨v, hBelow, hMem, _⟩ | ⟨hEq, _⟩
      · exact absurd hBelow (not_lt_of_ge (hKept.2 _ hMem))
      · rw [hKept.1, hEq]

/- The candidates are numbers with a value each. -/
def climb
    (value : Nat → α)
    (start : Nat × α)
    (l : List Nat) : Nat × α :=
  l.foldl
    (fun best c =>
      if best.2 < value c then (c, value c) else best)
    start

/- The climb ends at a greatest value, or at its start. -/
theorem climb_spec
    (value : Nat → α)
    (start : Nat × α)
    (l : List Nat) :
    (∃ c ∈ l, climb value start l = (c, value c) ∧
        start.2 < value c ∧ ∀ d ∈ l, value d ≤ value c) ∨
      (climb value start l = start ∧
        ∀ d ∈ l, value d ≤ start.2) := by
  induction l generalizing start with
  | nil => exact Or.inr ⟨rfl, fun d hMem => by contradiction⟩
  | cons c l ih =>
      have hCons : climb value start (c :: l) =
          climb value
            (if start.2 < value c then (c, value c) else start)
            l := rfl
      rw [hCons]
      by_cases hMore : start.2 < value c
      · rw [if_pos hMore]
        rcases ih (c, value c) with
          ⟨e, hMem, hEnd, hBeyond, hAll⟩ | ⟨hEnd, hAll⟩
        · refine Or.inl ⟨e, List.mem_cons_of_mem c hMem, hEnd,
            hMore.trans hBeyond, ?_⟩
          intro d hD
          rcases List.mem_cons.mp hD with hEq | hD
          · rw [hEq]
            exact hBeyond.le
          · exact hAll d hD
        · refine Or.inl ⟨c, List.mem_cons_self .., hEnd, hMore, ?_⟩
          intro d hD
          rcases List.mem_cons.mp hD with hEq | hD
          · rw [hEq]
          · exact hAll d hD
      · rw [if_neg hMore]
        have hLe := not_lt.mp hMore
        rcases ih start with
          ⟨e, hMem, hEnd, hBeyond, hAll⟩ | ⟨hEnd, hAll⟩
        · refine Or.inl ⟨e, List.mem_cons_of_mem c hMem, hEnd,
            hBeyond, ?_⟩
          intro d hD
          rcases List.mem_cons.mp hD with hEq | hD
          · rw [hEq]
            exact hLe.trans hBeyond.le
          · exact hAll d hD
        · refine Or.inr ⟨hEnd, ?_⟩
          intro d hD
          rcases List.mem_cons.mp hD with hEq | hD
          · rw [hEq]
            exact hLe
          · exact hAll d hD

end FirstLeast
