import Mathlib.Data.List.Basic

/-
  The in-order list of a search tree node: its separators,
  each between two neighbouring subtrees.

  Main declarations:
    * `Weave.weave`
    * `Weave.Inserts.weave`
-/

namespace Weave

variable {α : Type*}

/- Separators between the pieces around them. -/
def weave :
    List α → List (List α) → List α
| es, [] => es
| [], c :: _ => c
| e :: es, c :: cs => c ++ e :: weave es cs

/- Pieces, each with the separator behind it. -/
def front :
    List α → List (List α) → List α
| e :: es, c :: cs => c ++ e :: front es cs
| _, _ => []

/- Pieces, each with the separator before it. -/
def back :
    List α → List (List α) → List α
| e :: es, c :: cs => e :: c ++ back es cs
| _, _ => []

variable {cs : List (List α)} {es : List α}

theorem weave_cons
    (hLength : cs.length = es.length)
    (c : List α) :
    weave es (c :: cs) = c ++ back es cs := by
  induction es generalizing c cs with
  | nil => simp [weave, back]
  | cons e es ih =>
      cases cs with
      | nil => simp at hLength
      | cons c' cs =>
          have hRest : cs.length = es.length := by
            simpa using hLength
          simp [weave, back, ih hRest]

variable {cs cs' : List (List α)} {es es' : List α}

/- The part before a piece, the piece, and the part behind. -/
theorem weave_split
    (hFront : cs.length = es.length)
    (hBack : cs'.length = es'.length)
    (c : List α) :
    weave (es ++ es') (cs ++ c :: cs') =
      front es cs ++ c ++ back es' cs' := by
  induction es generalizing cs with
  | nil =>
      cases cs with
      | nil => simp [front, weave_cons hBack]
      | cons c' cs => simp at hFront
  | cons e es ih =>
      cases cs with
      | nil => simp at hFront
      | cons c' cs =>
          have hRest : cs.length = es.length := by
            simpa using hFront
          simp [weave, front, ih hRest]

/- A piece that is itself woven may be woven in place. -/
theorem weave_replace
    (hFront : cs.length = es.length)
    (hBack : cs'.length = es'.length)
    (left right : List α)
    (e : α) :
    weave (es ++ e :: es') (cs ++ left :: right :: cs') =
      front es cs ++ (left ++ e :: right) ++ back es' cs' := by
  rw [weave_split hFront (by simpa using hBack)]
  simp [back]

/- Cutting a woven list at a separator. -/
theorem weave_cut
    (hLength : cs.length = es.length + 1)
    (e : α) :
    weave (es ++ e :: es') (cs ++ cs') =
      weave es cs ++ e :: weave es' cs' := by
  induction es generalizing cs with
  | nil =>
      rcases List.length_eq_one_iff.mp hLength with ⟨c, hC⟩
      subst hC
      simp [weave]
  | cons e' es ih =>
      cases cs with
      | nil => simp at hLength
      | cons c cs =>
          have hRest : cs.length = es.length + 1 := by
            simpa using hLength
          simp [weave, ih hRest]

variable {R : α → α → Prop}

/- What is in front is not behind the last separator. -/
theorem mem_front
    (hSorted : (front es cs).Pairwise R)
    {x : α}
    (hMem : x ∈ front es cs) :
    ∃ e ∈ es, x = e ∨ R x e := by
  induction es generalizing cs with
  | nil => simp [front] at hMem
  | cons e es ih =>
      cases cs with
      | nil => simp [front] at hMem
      | cons c cs =>
          rw [front, List.pairwise_append,
            List.pairwise_cons] at hSorted
          rw [front, List.mem_append, List.mem_cons] at hMem
          rcases hMem with hPiece | hEq | hRest
          · exact ⟨e, by simp, Or.inr
              (hSorted.2.2 x hPiece e (by simp))⟩
          · exact ⟨e, by simp, Or.inl hEq⟩
          · rcases ih hSorted.2.1.2 hRest with
              ⟨e', hMem', hBefore⟩
            exact ⟨e', List.mem_cons_of_mem _ hMem', hBefore⟩

/- What is behind is not in front of the first separator. -/
theorem mem_back
    (hSorted : (back es cs).Pairwise R)
    {x : α}
    (hMem : x ∈ back es cs) :
    ∃ e ∈ es, x = e ∨ R e x := by
  induction es generalizing cs with
  | nil => simp [back] at hMem
  | cons e es ih =>
      cases cs with
      | nil => simp [back] at hMem
      | cons c cs =>
          rw [back, List.cons_append, List.pairwise_cons] at hSorted
          rw [back, List.cons_append, List.mem_cons] at hMem
          rcases hMem with hEq | hRest
          · exact ⟨e, by simp, Or.inl hEq⟩
          · exact ⟨e, by simp, Or.inr (hSorted.1 x hRest)⟩

/- The separators keep their order. -/
theorem sublist_weave
    (es : List α)
    (cs : List (List α)) :
    es.Sublist (weave es cs) := by
  induction es generalizing cs with
  | nil => simp
  | cons e es ih =>
      cases cs with
      | nil => simp [weave]
      | cons c cs =>
          rw [weave]
          exact ((ih cs).cons_cons e).trans
            (List.sublist_append_right c _)

/- Each piece keeps its order. -/
theorem sublist_piece
    (es : List α)
    (hLength : cs.length = es.length + 1)
    {c : List α}
    (hMem : c ∈ cs) :
    c.Sublist (weave es cs) := by
  induction es generalizing cs with
  | nil =>
      rcases List.length_eq_one_iff.mp hLength with ⟨c', hC⟩
      rw [hC, List.mem_singleton] at hMem
      rw [hC, hMem]
      exact List.Sublist.refl _
  | cons e es ih =>
      cases cs with
      | nil => simp at hMem
      | cons c' cs =>
          have hRest : cs.length = es.length + 1 := by
            simpa using hLength
          rw [weave]
          rcases List.mem_cons.mp hMem with hEq | hMem
          · rw [hEq]
            exact List.sublist_append_left _ _
          · exact ((ih hRest hMem).cons e).trans
              (List.sublist_append_right c' _)

/- A list with one new element at its place in the order. -/
def Inserts
    (R : α → α → Prop)
    (k : α)
    (l l' : List α) : Prop :=
  ∃ before after, l = before ++ after ∧
    l' = before ++ k :: after ∧
      (∀ x ∈ before, R x k) ∧ ∀ x ∈ after, R k x

variable {l l' : List α}

theorem Inserts.mem
    {k x : α}
    (hInserts : Inserts R k l l') :
    x ∈ l' ↔ x = k ∨ x ∈ l := by
  rcases hInserts with ⟨before, after, hOld, hNew, -⟩
  rw [hOld, hNew]
  simp only [List.mem_append, List.mem_cons]
  tauto

variable {k : α}

theorem Inserts.perm
    (hInserts : Inserts R k l l') :
    l'.Perm (k :: l) := by
  rcases hInserts with ⟨before, after, hOld, hNew, -⟩
  rw [hOld, hNew]
  exact List.perm_middle

theorem Inserts.length_le
    (hInserts : Inserts R k l l') :
    l.length ≤ l'.length := by
  rw [hInserts.perm.length_eq]
  exact Nat.le_succ _

theorem Inserts.pairwise
    (hInserts : Inserts R k l l')
    (hSorted : l.Pairwise R) :
    l'.Pairwise R := by
  rcases hInserts with
    ⟨before, after, hOld, hNew, hBefore, hAfter⟩
  rw [hOld, List.pairwise_append] at hSorted
  rw [hNew, List.pairwise_append, List.pairwise_cons]
  refine ⟨hSorted.1, ⟨hAfter, hSorted.2.1⟩, ?_⟩
  intro x hX y hY
  rcases List.mem_cons.mp hY with hEq | hMem
  · rw [hEq]
    exact hBefore x hX
  · exact hSorted.2.2 x hX y hMem

/-
  Inserting into one piece, with the separators before it in
  front of the new element and those behind it after it.
-/
theorem Inserts.weave
    {front' back' c c' : List α}
    (hInserts : Inserts R k c c')
    (hFront : ∀ x ∈ front', R x k)
    (hBack : ∀ x ∈ back', R k x) :
    Inserts R k (front' ++ c ++ back') (front' ++ c' ++ back') := by
  rcases hInserts with
    ⟨before, after, hOld, hNew, hBefore, hAfter⟩
  refine ⟨front' ++ before, after ++ back', ?_, ?_, ?_, ?_⟩
  · simp [hOld]
  · simp [hNew]
  · intro x hMem
    rcases List.mem_append.mp hMem with hMem | hMem
    · exact hFront x hMem
    · exact hBefore x hMem
  · intro x hMem
    rcases List.mem_append.mp hMem with hMem | hMem
    · exact hAfter x hMem
    · exact hBack x hMem

end Weave
