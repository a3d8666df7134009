import Mathlib.Data.List.Basic
import Mathlib.Logic.Function.Basic

/-
  Doubly linked lists in a table of pointers.

  A value that stands for no element ends the list on both
  sides, and is the pointer of every element that is not
  linked. The pointers form the list of the elements from the
  head on; removing an element and pushing one to the front
  do the same to this list.

  Main declarations:
    * `PointerList.represents_remove`
    * `PointerList.Represents.linked_iff`
-/

/- The pointers of a list, with its two ends. -/
structure PointerList (α : Type*) where
  nil : α
  prev : α → α
  next : α → α
  head : α
  tail : α

namespace PointerList

variable {α : Type*} [DecidableEq α]

------------------------------------------------------------
-- Lists And Their Segments
------------------------------------------------------------

/- Unlink an element. -/
def remove (c : PointerList α) (v : α) : PointerList α :=
  let p := c.prev v
  let n := c.next v
  { nil := c.nil
    prev := Function.update
      (if n = c.nil then c.prev
      else Function.update c.prev n p) v c.nil
    next := Function.update
      (if p = c.nil then c.next
      else Function.update c.next p n) v c.nil
    head := if p = c.nil then n else c.head
    tail := if n = c.nil then p else c.tail }

/- Link an element before the head. -/
def pushFront (c : PointerList α) (v : α) : PointerList α :=
  { nil := c.nil
    prev :=
      if c.head = c.nil then Function.update c.prev v c.nil
      else
        Function.update (Function.update c.prev v c.nil) c.head v
    next := Function.update c.next v c.head
    head := v
    tail := if c.tail = c.nil then v else c.tail }

/-
  The elements are linked in this order, between the pointers
  `p` and `n`.
-/
def Seg (c : PointerList α) : α → List α → α → Prop
| _, [], _ => True
| p, v :: l, n =>
    c.prev v = p ∧ c.next v = l.headD n ∧ Seg c v l n

variable {c c' : PointerList α} {p p' n n' v w : α} {l a b : List α}

omit [DecidableEq α] in
theorem seg_append :
    Seg c p (a ++ b) n ↔
      Seg c p a (b.headD n) ∧ Seg c (a.getLastD p) b n := by
  induction a generalizing p with
  | nil => simp [Seg]
  | cons v a ih =>
      have hHead : (a ++ b).headD n = a.headD (b.headD n) := by
        cases a <;> rfl
      rw [List.cons_append, Seg, Seg, ih, hHead,
        List.getLastD_cons, and_assoc, and_assoc]

/- Only the pointers of the elements matter. -/
omit [DecidableEq α] in
theorem seg_congr
    (hSame : ∀ v ∈ l, c'.prev v = c.prev v ∧ c'.next v = c.next v)
    (hSeg : Seg c p l n) :
    Seg c' p l n := by
  induction l generalizing p with
  | nil => trivial
  | cons v l ih =>
      rcases hSeg with ⟨hPrev, hNext, hRest⟩
      rcases hSame v (by simp) with ⟨hPrev', hNext'⟩
      refine ⟨hPrev'.trans hPrev, hNext'.trans hNext, ?_⟩
      exact ih (fun w hMem => hSame w (by simp [hMem])) hRest

/- A segment with another pointer before its first element. -/
omit [DecidableEq α] in
theorem seg_prev
    (hPrev : c'.prev v = p')
    (hNext : c'.next v = c.next v)
    (hSame : ∀ w ∈ l, c'.prev w = c.prev w ∧ c'.next w = c.next w)
    (hSeg : Seg c p (v :: l) n) :
    Seg c' p' (v :: l) n :=
  ⟨hPrev, hNext.trans hSeg.2.1, seg_congr hSame hSeg.2.2⟩

/- A segment with another pointer after its last element. -/
omit [DecidableEq α] in
theorem seg_next
    (hPrev : c'.prev v = c.prev v)
    (hNext : c'.next v = n')
    (hSame : ∀ w ∈ l, c'.prev w = c.prev w ∧ c'.next w = c.next w)
    (hSeg : Seg c p (l ++ [v]) n) :
    Seg c' p (l ++ [v]) n' := by
  rw [seg_append] at hSeg ⊢
  refine ⟨seg_congr hSame hSeg.1, ?_⟩
  exact ⟨hPrev.trans hSeg.2.1, hNext, trivial⟩

/- The pointers around an element of a segment. -/
omit [DecidableEq α] in
theorem seg_middle
    (hSeg : Seg c p (a ++ v :: b) n) :
    c.prev v = a.getLastD p ∧ c.next v = b.headD n := by
  rw [seg_append] at hSeg
  exact ⟨hSeg.2.1, hSeg.2.2.1⟩

/-
  The list that the pointers form; the elements outside of it
  have none.
-/
structure Represents
    (c : PointerList α)
    (l : List α) : Prop where
  nodup : l.Nodup
  nil_not_mem : c.nil ∉ l
  head_eq : c.head = l.headD c.nil
  tail_eq : c.tail = l.getLastD c.nil
  seg : Seg c c.nil l c.nil
  unlinked : ∀ v, v ∉ l → c.prev v = c.nil ∧ c.next v = c.nil

/- The list that is met when following the pointers. -/
def Follows (c : PointerList α) : α → List α → Prop
| v, [] => v = c.nil
| v, w :: l => v = w ∧ w ≠ c.nil ∧ Follows c (c.next w) l

instance decidableFollows
    (c : PointerList α) :
    (v : α) → (l : List α) → Decidable (c.Follows v l)
  | v, [] => inferInstanceAs (Decidable (v = c.nil))
  | v, w :: l =>
      have := decidableFollows c (c.next w) l
      inferInstanceAs
        (Decidable (v = w ∧ w ≠ c.nil ∧ Follows _ _ _))

/- Only one list is met. -/
omit [DecidableEq α] in
theorem Follows.unique
    {l' : List α}
    (hLeft : c.Follows v l)
    (hRight : c.Follows v l') :
    l = l' := by
  induction l generalizing v l' with
  | nil =>
      cases l' with
      | nil => rfl
      | cons w l' =>
          exact absurd (hRight.1.symm.trans hLeft) hRight.2.1
  | cons w l ih =>
      cases l' with
      | nil =>
          exact absurd (hLeft.1.symm.trans hRight) hLeft.2.1
      | cons w' l' =>
          have hEq : w = w' := hLeft.1.symm.trans hRight.1
          subst hEq
          rw [ih hLeft.2.2 hRight.2.2]

omit [DecidableEq α] in
theorem follows_of_seg
    (hSeg : Seg c p l c.nil)
    (hNil : c.nil ∉ l) :
    c.Follows (l.headD c.nil) l := by
  induction l generalizing p with
  | nil => rfl
  | cons v l ih =>
      rcases hSeg with ⟨-, hNext, hRest⟩
      rw [List.mem_cons, not_or] at hNil
      refine ⟨rfl, Ne.symm hNil.1, ?_⟩
      rw [hNext]
      exact ih hRest hNil.2

omit [DecidableEq α] in
theorem Represents.follows
    (hRep : c.Represents l) :
    c.Follows c.head l := by
  rw [hRep.head_eq]
  exact follows_of_seg hRep.seg hRep.nil_not_mem

/- An element is linked if it is an end or has a pointer. -/
omit [DecidableEq α] in
theorem Represents.linked_iff
    (hRep : c.Represents l)
    (hNil : v ≠ c.nil) :
    (v = c.head ∨ v = c.tail ∨ c.prev v ≠ c.nil) ↔ v ∈ l := by
  constructor
  · rintro (hHead | hTail | hPrev)
    · rw [hRep.head_eq] at hHead
      cases l with
      | nil => exact absurd hHead hNil
      | cons w l => simp [hHead]
    · rw [hRep.tail_eq] at hTail
      rcases List.eq_nil_or_concat' l with hEq | ⟨a, w, hEq⟩
      · subst hEq
        exact absurd hTail hNil
      · subst hEq
        rw [List.getLastD_concat] at hTail
        simp [hTail]
    · by_contra hOut
      exact hPrev (hRep.unlinked v hOut).1
  · intro hMem
    rcases List.append_of_mem hMem with ⟨a, b, hEq⟩
    subst hEq
    rcases List.eq_nil_or_concat' a with hEmpty | ⟨a', w, hEq⟩
    · left
      rw [hRep.head_eq, hEmpty]
      rfl
    · right
      right
      rw [(seg_middle hRep.seg).1, hEq, List.getLastD_concat]
      intro hLast
      apply hRep.nil_not_mem
      rw [← hLast, hEq]
      simp

/- The pointer behind the one before leads back. -/
omit [DecidableEq α] in
theorem Represents.next_prev
    (hRep : c.Represents l)
    (hMem : v ∈ l)
    (hInner : c.prev v ≠ c.nil) :
    c.prev v ∈ l ∧ c.next (c.prev v) = v := by
  rcases List.append_of_mem hMem with ⟨a, b, hEq⟩
  subst hEq
  have hPrev := (seg_middle hRep.seg).1
  rcases List.eq_nil_or_concat' a with hEmpty | ⟨a', w, hEq⟩
  · rw [hPrev, hEmpty] at hInner
    exact absurd rfl hInner
  · subst hEq
    rw [List.getLastD_concat] at hPrev
    have hSeg := hRep.seg
    rw [List.append_assoc, List.singleton_append] at hSeg
    rw [hPrev]
    exact ⟨by simp, (seg_middle hSeg).2⟩

/- The pointer before the one behind leads back. -/
omit [DecidableEq α] in
theorem Represents.prev_next
    (hRep : c.Represents l)
    (hMem : v ∈ l)
    (hInner : c.next v ≠ c.nil) :
    c.next v ∈ l ∧ c.prev (c.next v) = v := by
  rcases List.append_of_mem hMem with ⟨a, b, hEq⟩
  subst hEq
  have hNext := (seg_middle hRep.seg).2
  cases b with
  | nil =>
      rw [hNext] at hInner
      exact absurd rfl hInner
  | cons w b =>
      have hSeg := hRep.seg
      rw [List.append_cons] at hSeg
      have hPrev := (seg_middle hSeg).1
      rw [List.getLastD_concat] at hPrev
      rw [hNext]
      exact ⟨by simp, hPrev⟩

/- The list is empty if it has no end. -/
omit [DecidableEq α] in
theorem Represents.eq_nil
    (hRep : c.Represents l)
    (hEnd : c.head = c.nil ∨ c.tail = c.nil) :
    l = [] ∧ c.head = c.nil ∧ c.tail = c.nil := by
  have hEmpty : l = [] := by
    by_contra hSome
    rcases hEnd with hHead | hTail
    · cases l with
      | nil => exact hSome rfl
      | cons w l =>
          apply hRep.nil_not_mem
          rw [← hHead, hRep.head_eq]
          simp
    · rcases List.eq_nil_or_concat' l with hEq | ⟨a, w, hEq⟩
      · exact hSome hEq
      · subst hEq
        apply hRep.nil_not_mem
        rw [← hTail, hRep.tail_eq, List.getLastD_concat]
        simp
  subst hEmpty
  exact ⟨rfl, hRep.head_eq, hRep.tail_eq⟩

------------------------------------------------------------
-- Removal And Insertion
------------------------------------------------------------

/- Nothing changes without pointers. -/
theorem remove_of_unlinked
    (hPrev : c.prev v = c.nil)
    (hNext : c.next v = c.nil)
    (hHead : c.head = c.nil)
    (hTail : c.tail = c.nil) :
    c.remove v = c := by
  have hSame : ∀ g : α → α, g v = c.nil →
      Function.update g v c.nil = g := by
    intro g hEq
    rw [← hEq, Function.update_eq_self]
  rw [remove]
  simp only [hPrev, hNext, if_true]
  rw [hSame _ hPrev, hSame _ hNext]
  cases c
  simp_all

theorem prev_remove
    (hOther : w ≠ v)
    (hNext : w = c.next v → c.next v = c.nil) :
    (c.remove v).prev w = c.prev w := by
  simp only [remove]
  rw [Function.update_of_ne hOther]
  split_ifs with hLast
  · rfl
  · exact Function.update_of_ne (fun hEq => hLast (hNext hEq)) _ _

theorem next_remove
    (hOther : w ≠ v)
    (hPrev : w = c.prev v → c.prev v = c.nil) :
    (c.remove v).next w = c.next w := by
  simp only [remove]
  rw [Function.update_of_ne hOther]
  split_ifs with hFirst
  · rfl
  · exact Function.update_of_ne (fun hEq => hFirst (hPrev hEq)) _ _

theorem prev_remove_next
    (hOther : c.next v ≠ v)
    (hInner : c.next v ≠ c.nil) :
    (c.remove v).prev (c.next v) = c.prev v := by
  simp only [remove]
  rw [Function.update_of_ne hOther, if_neg hInner,
    Function.update_self]

theorem next_remove_prev
    (hOther : c.prev v ≠ v)
    (hInner : c.prev v ≠ c.nil) :
    (c.remove v).next (c.prev v) = c.next v := by
  simp only [remove]
  rw [Function.update_of_ne hOther, if_neg hInner,
    Function.update_self]

/- The pointer behind an element leads to no earlier one. -/
omit [DecidableEq α] in
theorem Represents.next_ne
    (hRep : c.Represents (a ++ v :: b))
    (hMem : w ∈ a)
    (hNext : w = c.next v) :
    c.next v = c.nil := by
  rcases List.nodup_append.mp hRep.nodup with ⟨-, -, hApart⟩
  have hHead := (seg_middle hRep.seg).2
  cases b with
  | nil => exact hHead
  | cons y b =>
      have hNe := hApart w hMem y (by simp)
      exact absurd (hNext.trans hHead) hNe

/- The pointer before an element leads to no later one. -/
omit [DecidableEq α] in
theorem Represents.prev_ne
    (hRep : c.Represents (a ++ v :: b))
    (hMem : w ∈ b)
    (hPrev : w = c.prev v) :
    c.prev v = c.nil := by
  rcases List.nodup_append.mp hRep.nodup with ⟨-, -, hApart⟩
  have hLast := (seg_middle hRep.seg).1
  rcases List.eq_nil_or_concat' a with hEmpty | ⟨a', x, hEq⟩
  · rw [hEmpty] at hLast
    exact hLast
  · subst hEq
    rw [List.getLastD_concat] at hLast
    have hNe := hApart x (by simp) w (by simp [hMem])
    exact absurd (hPrev.trans hLast).symm hNe

/- The part before a removed element is linked behind it. -/
theorem seg_remove_before
    (hRep : c.Represents (a ++ v :: b)) :
    (c.remove v).Seg c.nil a (b.headD c.nil) := by
  rcases List.nodup_append.mp hRep.nodup with
    ⟨hNodup, -, hApart⟩
  rcases seg_middle hRep.seg with ⟨hPrev, hNext⟩
  have hSeg := (seg_append.mp hRep.seg).1
  rcases List.eq_nil_or_concat' a with hEmpty | ⟨a', x, hEq⟩
  · subst hEmpty
    trivial
  · subst hEq
    rw [List.getLastD_concat] at hPrev
    have hOther : ∀ w ∈ a' ++ [x], w ≠ v :=
      fun w hMem => hApart w hMem v (by simp)
    have hLast : x ∈ a' ++ [x] := by simp
    have hNil : c.prev v ≠ c.nil := by
      intro hEq
      apply hRep.nil_not_mem
      rw [← hEq, hPrev]
      simp
    have hBack := next_remove_prev
      (hPrev.symm ▸ hOther x hLast) hNil
    rw [hPrev, hNext] at hBack
    refine seg_next ?_ hBack ?_ hSeg
    · exact prev_remove (hOther x hLast) (hRep.next_ne hLast)
    · intro w hMem
      have hMem' : w ∈ a' ++ [x] := by simp [hMem]
      have hNe : w ≠ x :=
        (List.nodup_append.mp hNodup).2.2 w hMem x (by simp)
      exact ⟨prev_remove (hOther w hMem') (hRep.next_ne hMem'),
        next_remove (hOther w hMem')
          (fun hEq => absurd (hEq.trans hPrev) hNe)⟩

/- The part behind a removed element is linked before it. -/
theorem seg_remove_behind
    (hRep : c.Represents (a ++ v :: b)) :
    (c.remove v).Seg (a.getLastD c.nil) b c.nil := by
  rcases List.nodup_append.mp hRep.nodup with
    ⟨-, hNodup, hApart⟩
  rcases seg_middle hRep.seg with ⟨hPrev, hNext⟩
  have hSeg := (seg_append.mp hRep.seg).2.2.2
  have hOther : ∀ w ∈ b, w ≠ v := by
    intro w hMem hEq
    exact (List.nodup_cons.mp hNodup).1 (hEq ▸ hMem)
  cases b with
  | nil => trivial
  | cons y b =>
      have hFirst : y ∈ y :: b := by simp
      have hNil : c.next v ≠ c.nil := by
        intro hEq
        apply hRep.nil_not_mem
        rw [← hEq, hNext]
        simp
      have hBack := prev_remove_next
        (hNext.symm ▸ hOther y hFirst) hNil
      rw [hNext, hPrev] at hBack
      refine seg_prev hBack ?_ ?_ hSeg
      · exact next_remove (hOther y hFirst) (hRep.prev_ne hFirst)
      · intro w hMem
        have hMem' : w ∈ y :: b := by simp [hMem]
        have hTail := (List.nodup_cons.mp hNodup).2
        have hNe : w ≠ y := by
          intro hEq
          exact (List.nodup_cons.mp hTail).1 (hEq ▸ hMem)
        exact ⟨prev_remove (hOther w hMem')
            (fun hEq => absurd (hEq.trans hNext) hNe),
          next_remove (hOther w hMem') (hRep.prev_ne hMem')⟩

theorem head_remove
    (hRep : c.Represents (a ++ v :: b)) :
    (c.remove v).head = (a ++ b).headD c.nil := by
  rcases seg_middle hRep.seg with ⟨hPrev, hNext⟩
  have hHead := hRep.head_eq
  simp only [remove]
  cases a with
  | nil =>
      have hFirst : c.prev v = c.nil := hPrev
      rw [if_pos hFirst]
      exact hNext
  | cons x a =>
      have hSome : c.prev v ≠ c.nil := by
        intro hEq
        apply hRep.nil_not_mem
        rw [← hEq, hPrev, List.getLastD_cons]
        apply List.mem_append_left
        exact List.getLastD_mem_cons
      rw [if_neg hSome]
      exact hHead

theorem tail_remove
    (hRep : c.Represents (a ++ v :: b)) :
    (c.remove v).tail = (a ++ b).getLastD c.nil := by
  rcases seg_middle hRep.seg with ⟨hPrev, hNext⟩
  have hTail := hRep.tail_eq
  simp only [remove]
  rcases List.eq_nil_or_concat' b with hEmpty | ⟨b', z, hEq⟩
  · subst hEmpty
    have hLast : c.next v = c.nil := hNext
    rw [if_pos hLast, List.append_nil]
    exact hPrev
  · subst hEq
    have hSome : c.next v ≠ c.nil := by
      intro hEq
      apply hRep.nil_not_mem
      rw [← hEq, hNext]
      cases b' <;> simp
    rw [if_neg hSome, hTail, ← List.cons_append,
      ← List.append_assoc, ← List.append_assoc,
      List.getLastD_concat, List.getLastD_concat]

/- Removing an element removes it from the list. -/
theorem represents_remove
    (hRep : c.Represents l)
    (hMem : v ∈ l) :
    (c.remove v).Represents (l.erase v) := by
  rcases List.append_of_mem hMem with ⟨a, b, hEq⟩
  subst hEq
  rcases List.nodup_append.mp hRep.nodup with
    ⟨-, hNodup, hApart⟩
  rcases seg_middle hRep.seg with ⟨hPrev, hNext⟩
  have hBefore : v ∉ a := by
    intro hA
    exact hApart v hA v (by simp) rfl
  have hErase : (a ++ v :: b).erase v = a ++ b := by
    rw [List.erase_append_right _ hBefore, List.erase_cons_head]
  have hNilA : c.nil ∉ a := by
    intro hNil
    exact hRep.nil_not_mem (by simp [hNil])
  have hNilB : c.nil ∉ b := by
    intro hNil
    exact hRep.nil_not_mem (by simp [hNil])
  rw [hErase]
  refine ⟨hErase ▸ hRep.nodup.erase v, ?_, ?_, ?_, ?_, ?_⟩
  · change c.nil ∉ a ++ b
    simp [hNilA, hNilB]
  · exact head_remove hRep
  · exact tail_remove hRep
  · exact seg_append.mpr
      ⟨seg_remove_before hRep, seg_remove_behind hRep⟩
  · intro w hOut
    rw [List.mem_append, not_or] at hOut
    by_cases hEq : w = v
    · subst hEq
      exact ⟨Function.update_self _ _ _, Function.update_self _ _ _⟩
    · have hOld := hRep.unlinked w (by simp [hOut, hEq])
      constructor
      · refine (prev_remove hEq ?_).trans hOld.1
        intro hHere
        cases b with
        | nil => exact hNext
        | cons y b =>
            exact absurd (by simp [hHere, hNext]) hOut.2
      · refine (next_remove hEq ?_).trans hOld.2
        intro hHere
        rcases List.eq_nil_or_concat' a with
          hEmpty | ⟨a', x, hLast⟩
        · rw [hPrev, hEmpty]
          rfl
        · rw [hLast, List.getLastD_concat] at hPrev
          exact absurd (by simp [hLast, hHere, hPrev]) hOut.1

/- Pushing a new element makes it the head of the list. -/
theorem represents_pushFront
    (hRep : c.Represents l)
    (hNew : v ∉ l)
    (hNil : v ≠ c.nil) :
    (c.pushFront v).Represents (v :: l) := by
  have hHead := hRep.head_eq
  have hNext : ∀ w, w ≠ v → (c.pushFront v).next w = c.next w :=
    fun w hNe => Function.update_of_ne hNe _ _
  have hPrev : ∀ w, w ≠ v →
      (w = c.head → c.head = c.nil) →
        (c.pushFront v).prev w = c.prev w := by
    intro w hNe hOther
    simp only [pushFront]
    split_ifs with hEmpty
    · exact Function.update_of_ne hNe _ _
    · rw [Function.update_of_ne
        (fun hEq => hEmpty (hOther hEq)),
        Function.update_of_ne hNe]
  have hPrevNew : (c.pushFront v).prev v = c.nil := by
    simp only [pushFront]
    split_ifs with hEmpty
    · exact Function.update_self _ _ _
    · have hNe : v ≠ c.head := by
        intro hEq
        cases l with
        | nil => exact hEmpty hHead
        | cons w l => exact hNew (by simp [hEq, hHead])
      rw [Function.update_of_ne hNe, Function.update_self]
  have hOther : ∀ w ∈ l, w ≠ v := by
    intro w hMem hEq
    exact hNew (hEq ▸ hMem)
  refine ⟨List.nodup_cons.mpr ⟨hNew, hRep.nodup⟩, ?_, rfl,
    ?_, ?_, ?_⟩
  · intro hMem
    rcases List.mem_cons.mp hMem with hEq | hOld
    · exact hNil hEq.symm
    · exact hRep.nil_not_mem hOld
  · have hTail := hRep.tail_eq
    simp only [pushFront]
    rcases List.eq_nil_or_concat' l with hEmpty | ⟨a, z, hEq⟩
    · subst hEmpty
      exact if_pos hTail
    · subst hEq
      rw [List.getLastD_concat] at hTail
      have hSome : c.tail ≠ c.nil := by
        intro hEq
        apply hRep.nil_not_mem
        rw [← hEq, hTail]
        simp
      rw [if_neg hSome, ← List.cons_append, List.getLastD_concat]
      exact hTail
  · refine ⟨hPrevNew, ?_, ?_⟩
    · exact (Function.update_self _ _ _).trans hHead
    · cases l with
      | nil => trivial
      | cons w l =>
          have hSome : c.head ≠ c.nil := by
            intro hEq
            apply hRep.nil_not_mem
            rw [← hEq, hHead]
            simp
          refine seg_prev ?_ (hNext w (hOther w (by simp)))
            ?_ hRep.seg
          · have hFirst : w = c.head := hHead.symm
            rw [hFirst]
            simp only [pushFront]
            rw [if_neg hSome, Function.update_self]
          · intro x hMem
            have hMem' : x ∈ w :: l := by simp [hMem]
            refine ⟨?_, hNext x (hOther x hMem')⟩
            apply hPrev x (hOther x hMem')
            intro hEq
            have hNodup := (List.nodup_cons.mp hRep.nodup).1
            have hFirst : x = w := hEq.trans hHead
            exact absurd (hFirst ▸ hMem) hNodup
  · intro w hOut
    rw [List.mem_cons, not_or] at hOut
    have hOld := hRep.unlinked w hOut.2
    constructor
    · rw [hPrev w hOut.1]
      · exact hOld.1
      · intro hEq
        cases l with
        | nil => exact hHead
        | cons x l => exact absurd (by simp [hEq, hHead]) hOut.2
    · rw [hNext w hOut.1]
      exact hOld.2

end PointerList
