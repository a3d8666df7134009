import Mathlib.Data.List.Chain
import Mathlib.Data.List.Nodup
import Mathlib.Order.Lattice
import Virtuoso.Lib.Traverse

/-
  Lists that are cut into blocks.

  The blocks of a strictly sorted list are spans: a block has
  the elements from its first to its last, and the spans of
  two blocks are disjoint. A list that is read element by
  element is cut by steps that open a block or extend the
  last one.

  Main declarations:
    * `Blocks.filter_span`
    * `Blocks.gather_perm`
-/

namespace Blocks

section Spans

variable {α : Type*} [LinearOrder α]

/- The first and the last element of a block. -/
def Ends (g : List α) (a b : α) : Prop :=
  g.head? = some a ∧ g.getLast? = some b

variable {g : List α}

omit [LinearOrder α] in
theorem exists_ends
    (hNe : g ≠ []) :
    ∃ a b, Ends g a b :=
  ⟨g.head hNe, g.getLast hNe, List.head?_eq_some_head hNe,
    List.getLast?_eq_some_getLast hNe⟩

omit [LinearOrder α] in
theorem Ends.mem
    {a b : α}
    (hEnds : Ends g a b) :
    a ∈ g ∧ b ∈ g :=
  ⟨List.mem_of_head? hEnds.1, List.mem_of_getLast? hEnds.2⟩

theorem Ends.le
    {a b v : α}
    (hEnds : Ends g a b)
    (hSorted : g.Pairwise (· < ·))
    (hMem : v ∈ g) :
    a ≤ v ∧ v ≤ b := by
  constructor
  · rcases List.head?_eq_some_iff.mp hEnds.1 with ⟨rest, hEq⟩
    rw [hEq, List.pairwise_cons] at hSorted
    rw [hEq, List.mem_cons] at hMem
    rcases hMem with hEq | hMem
    · exact hEq.ge
    · exact (hSorted.1 v hMem).le
  · rcases List.getLast?_eq_some_iff.mp hEnds.2 with
      ⟨front, hEq⟩
    rw [hEq, List.pairwise_append] at hSorted
    rw [hEq, List.mem_append, List.mem_singleton] at hMem
    rcases hMem with hMem | hEq
    · exact (hSorted.2.2 v hMem b (by simp)).le
    · exact hEq.le

variable {gs : List (List α)}

/- Of the elements in all, a block has those in its span. -/
theorem mem_span_iff
    {a b v : α}
    (hSorted : gs.flatten.Pairwise (· < ·))
    (hBlock : g ∈ gs)
    (hEnds : Ends g a b)
    (hMem : v ∈ gs.flatten) :
    a ≤ v ∧ v ≤ b ↔ v ∈ g := by
  have hParts := List.pairwise_flatten.mp hSorted
  constructor
  · rintro ⟨hGe, hLe⟩
    rcases List.append_of_mem hBlock with ⟨pre, post, hSplit⟩
    rw [hSplit, List.pairwise_append, List.pairwise_cons] at hParts
    rw [hSplit, List.flatten_append, List.flatten_cons,
      List.mem_append, List.mem_append] at hMem
    rcases hMem with hMem | hMem | hMem
    · rcases List.mem_flatten.mp hMem with ⟨g', hIn, hV⟩
      exact absurd (hParts.2.2.2 g' hIn g (by simp) v hV a
        hEnds.mem.1) (not_lt_of_ge hGe)
    · exact hMem
    · rcases List.mem_flatten.mp hMem with ⟨g', hIn, hV⟩
      exact absurd (hParts.2.2.1.1 g' hIn b hEnds.mem.2 v hV)
        (not_lt_of_ge hLe)
  · exact hEnds.le (hParts.1 g hBlock)

theorem filter_span
    {a b : α}
    (hSorted : gs.flatten.Pairwise (· < ·))
    (hBlock : g ∈ gs)
    (hEnds : Ends g a b) :
    gs.flatten.filter (fun v => decide (a ≤ v ∧ v ≤ b)) = g := by
  have hOwn := (List.pairwise_flatten.mp hSorted).1 g hBlock
  have hKept : (gs.flatten.filter
      (fun v => decide (a ≤ v ∧ v ≤ b))).Pairwise (· < ·) :=
    hSorted.sublist List.filter_sublist
  have hPerm : (gs.flatten.filter
      (fun v => decide (a ≤ v ∧ v ≤ b))).Perm g := by
    rw [List.perm_ext_iff_of_nodup (hKept.imp ne_of_lt)
      (hOwn.imp ne_of_lt)]
    intro v
    rw [List.mem_filter, decide_eq_true_eq]
    constructor
    · rintro ⟨hMem, hSpan⟩
      exact (mem_span_iff hSorted hBlock hEnds hMem).mp hSpan
    · intro hMem
      exact ⟨List.mem_flatten.mpr ⟨g, hBlock, hMem⟩,
        hEnds.le hOwn hMem⟩
  exact hPerm.eq_of_pairwise
    (fun _ _ _ _ hLt hGt => absurd hGt (lt_asymm hLt))
    hKept hOwn

/- An element is in one block. -/
theorem eq_of_mem_blocks
    {g g' : List α}
    {v : α}
    (hSorted : gs.flatten.Pairwise (· < ·))
    (hBlock : g ∈ gs)
    (hBlock' : g' ∈ gs)
    (hMem : v ∈ g)
    (hMem' : v ∈ g') :
    g = g' := by
  rcases List.append_of_mem hBlock with ⟨pre, post, hSplit⟩
  rw [hSplit] at hSorted hBlock'
  have hParts := (List.pairwise_flatten.mp hSorted).2
  rw [List.pairwise_append, List.pairwise_cons] at hParts
  rcases List.mem_append.mp hBlock' with hPre | hRest
  · exact absurd (hParts.2.2 g' hPre g (by simp) v hMem' v hMem)
      (lt_irrefl v)
  · rcases List.mem_cons.mp hRest with hEq | hPost
    · exact hEq.symm
    · exact absurd (hParts.2.1.1 g' hPost v hMem v hMem')
        (lt_irrefl v)

/- A block ends before the next ones start. -/
theorem pairwise_ends
    (hSorted : gs.flatten.Pairwise (· < ·)) :
    gs.Pairwise (fun g g' => ∀ a b a' b', Ends g a b →
      Ends g' a' b' → b < a') :=
  (List.pairwise_flatten.mp hSorted).2.imp
    (fun hBefore _ b a' _ hEnds hEnds' =>
      hBefore b hEnds.mem.2 a' hEnds'.mem.1)

/- Neighbours in a sorted chain are linked. -/
theorem rel_of_isChain
    {R : α → α → Prop}
    {u v : α}
    (hChain : g.IsChain R)
    (hSorted : g.Pairwise (· < ·))
    (hU : u ∈ g)
    (hV : v ∈ g)
    (hLt : u < v)
    (hNext : ∀ w ∈ g, u < w → ¬w < v) :
    R u v := by
  induction g with
  | nil => cases hU
  | cons x g ih =>
      rw [List.pairwise_cons] at hSorted
      have hV' : v ∈ g := by
        rcases List.mem_cons.mp hV with hEq | hV
        · rcases List.mem_cons.mp hU with hEq' | hU
          · rw [hEq, hEq'] at hLt
            exact absurd hLt (lt_irrefl x)
          · rw [hEq] at hLt
            exact absurd (hSorted.1 u hU) (lt_asymm hLt)
        · exact hV
      rcases List.mem_cons.mp hU with hEq | hU
      · cases g with
        | nil => cases hV'
        | cons y g =>
            have hFirst : y = v := by
              rcases List.mem_cons.mp hV' with hEq' | hIn
              · exact hEq'.symm
              · rw [List.pairwise_cons] at hSorted
                exact absurd (hSorted.2.1 v hIn) (hNext y
                  (by simp) (hEq ▸ hSorted.1 y (by simp)))
            rw [hEq, ← hFirst]
            exact (List.isChain_cons_cons.mp hChain).1
      · exact ih hChain.tail hSorted.2 hU hV'
          (fun w hW => hNext w (List.mem_cons_of_mem x hW))

end Spans

section Growth

variable {α β σ : Type*}

/- The element opens a block or extends the last one. -/
def Grows
    (gs : List (List α))
    (v : α)
    (gs' : List (List α)) : Prop :=
  gs' = gs ++ [[v]] ∨
    ∃ front g, gs = front ++ [g] ∧ gs' = front ++ [g ++ [v]]

variable {gs gs' : List (List α)} {v : α}

theorem Grows.flatten
    (hGrows : Grows gs v gs') :
    gs'.flatten = gs.flatten ++ [v] := by
  rcases hGrows with hEq | ⟨front, g, hEq, hEq'⟩
  · simp [hEq]
  · simp [hEq, hEq']

theorem Grows.nil_notMem
    (hGrows : Grows gs v gs')
    (hNil : [] ∉ gs) :
    [] ∉ gs' := by
  rcases hGrows with hEq | ⟨front, g, hEq, hEq'⟩
  · simpa [hEq] using hNil
  · rw [hEq, List.mem_append] at hNil
    rw [hEq', List.mem_append, List.mem_singleton]
    rintro (hIn | hIn)
    · exact hNil (Or.inl hIn)
    · simp at hIn

theorem Grows.ne_nil
    (hGrows : Grows gs v gs') :
    gs' ≠ [] := by
  rcases hGrows with hEq | ⟨front, g, _, hEq⟩ <;> simp [hEq]

/- A fold whose steps grow the blocks cuts what it reads. -/
theorem exists_foldlM
    (step : σ → β → Option σ)
    (view : σ → List (List α))
    (elem : β → α)
    (P : α → Prop)
    (l : List β)
    (s : σ)
    (hNe : view s ≠ [])
    (hNil : [] ∉ view s)
    (hFirst : ∀ v ∈ (view s).flatten, P v)
    (hElem : ∀ x ∈ l, P (elem x))
    (hStep : ∀ s x, x ∈ l → view s ≠ [] → [] ∉ view s →
      (∀ v ∈ (view s).flatten, P v) →
      ∃ s', step s x = some s' ∧
        Grows (view s) (elem x) (view s')) :
    ∃ s', l.foldlM step s = some s' ∧
      (view s').flatten = (view s).flatten ++ l.map elem ∧
      [] ∉ view s' := by
  rcases Traverse.exists_foldlM
    (fun taken t => view t ≠ [] ∧ [] ∉ view t ∧
      (∀ v ∈ (view t).flatten, P v) ∧
      (view t).flatten = (view s).flatten ++ taken.map elem)
    l s ⟨hNe, hNil, hFirst, by simp⟩ (by
      rintro taken t x hMem ⟨hNe, hNil, hAll, hFlatten⟩
      rcases hStep t x hMem hNe hNil hAll with
        ⟨t', hSome, hGrows⟩
      refine ⟨t', hSome, hGrows.ne_nil,
        hGrows.nil_notMem hNil, fun v hV => ?_, ?_⟩
      · rw [hGrows.flatten, List.mem_append,
          List.mem_singleton] at hV
        rcases hV with hV | hEq
        · exact hAll v hV
        · rw [hEq]
          exact hElem x hMem
      · rw [hGrows.flatten, hFlatten]
        simp) with ⟨s', hFold, -, hNil', -, hFlatten⟩
  exact ⟨s', hFold, hFlatten, hNil'⟩

end Growth

section Gather

variable {α β : Type*} [DecidableEq α]

/- The elements with a key in the block, key by key. -/
def gather
    (key : β → α)
    (l : List β)
    (g : List α) : List β :=
  g.flatMap (fun v => l.filter (fun x => decide (key x = v)))

theorem gather_perm
    (key : β → α)
    (l : List β)
    {g : List α}
    (hNodup : g.Nodup) :
    (gather key l g).Perm
      (l.filter (fun x => decide (key x ∈ g))) := by
  induction g with
  | nil => simp [gather]
  | cons v g ih =>
      rw [List.nodup_cons] at hNodup
      have hHead : gather key l (v :: g) =
          l.filter (fun x => decide (key x = v)) ++
            gather key l g := rfl
      rw [hHead]
      refine ((ih hNodup.2).append_left _).trans ?_
      refine (List.Perm.of_eq ?_).trans
        (List.filter_append_perm (fun x => decide (key x = v)) _)
      rw [List.filter_filter, List.filter_filter]
      congr 1 <;> refine List.filter_congr (fun x _ => ?_)
      · simp only [List.mem_cons]
        by_cases hEq : key x = v <;> simp [hEq]
      · by_cases hEq : key x = v
        · simp [hEq, hNodup.1]
        · simp [hEq]

end Gather

end Blocks
