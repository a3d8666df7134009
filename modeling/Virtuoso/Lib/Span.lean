import Mathlib.Algebra.BigOperators.Group.List.Basic
import Mathlib.Algebra.BigOperators.Ring.Finset
import Mathlib.Data.List.Range
import Mathlib.Order.Interval.Finset.Nat
import Mathlib.Tactic.Ring

/-
  Closed spans of natural numbers and how often a list of
  spans covers a point.

  A family of spans tiles a set when its coverage is the
  indicator function of that set. Splitting a span keeps the
  coverage, and a coverage of at most one says that the spans
  are pairwise disjoint.

  Key definitions include:
    * `Span`
    * `Span.shelves`
-/

------------------------------------------------------------
-- Spans And Coverage
------------------------------------------------------------

/- The points from `start` to `stop`, both included. -/
structure Span where
  start : Nat
  stop : Nat
deriving DecidableEq, Repr

namespace Span

/- A point of a span. -/
def Has (s : Span) (p : Nat) : Prop :=
  s.start ≤ p ∧ p ≤ s.stop

instance (s : Span) (p : Nat) : Decidable (s.Has p) :=
  inferInstanceAs (Decidable (s.start ≤ p ∧ p ≤ s.stop))

/- No point belongs to both spans. -/
def Apart (s u : Span) : Prop :=
  ∀ p, s.Has p → ¬ u.Has p

theorem apart_iff
    (s u : Span) :
    s.Apart u ↔
      s.stop < s.start ∨ u.stop < u.start ∨
        s.stop < u.start ∨ u.stop < s.start := by
  constructor
  · intro hApart
    by_contra hMeet
    exact hApart (max s.start u.start)
      ⟨by omega, by omega⟩ ⟨by omega, by omega⟩
  · rintro hAway p ⟨hLow, hHigh⟩ ⟨hLow', hHigh'⟩
    omega

instance (s u : Span) : Decidable (s.Apart u) :=
  decidable_of_iff _ (apart_iff s u).symm

/- One when the span has the point and zero otherwise. -/
def covers (s : Span) (p : Nat) : Nat :=
  if s.Has p then 1 else 0

theorem covers_mk
    (a b p : Nat) :
    covers ⟨a, b⟩ p = if a ≤ p ∧ p ≤ b then 1 else 0 := rfl

/- The number of listed spans that have the point. -/
def coverage (l : List Span) (p : Nat) : Nat :=
  (l.map (fun s => s.covers p)).sum

@[simp] theorem coverage_nil
    (p : Nat) :
    coverage [] p = 0 := rfl

@[simp] theorem coverage_cons
    (s : Span)
    (l : List Span)
    (p : Nat) :
    coverage (s :: l) p = s.covers p + coverage l p := by
  simp [coverage]

@[simp] theorem coverage_append
    (l l' : List Span)
    (p : Nat) :
    coverage (l ++ l') p = coverage l p + coverage l' p := by
  simp [coverage]

variable {s : Span} {p : Nat}

theorem covers_eq_one
    (hHas : s.Has p) :
    s.covers p = 1 := by
  simp [covers, hHas]

variable {l : List Span}

/- A listed span contributes to the coverage of its points. -/
theorem one_le_coverage
    (hMem : s ∈ l)
    (hHas : s.Has p) :
    1 ≤ coverage l p := by
  induction l with
  | nil => simp at hMem
  | cons u l ih =>
      rw [coverage_cons]
      rcases List.mem_cons.mp hMem with hEq | hTail
      · have := covers_eq_one (hEq ▸ hHas)
        omega
      · have := ih hTail
        omega

/- A covered point belongs to a listed span. -/
theorem exists_of_coverage_pos
    (hPos : 0 < coverage l p) :
    ∃ s ∈ l, s.Has p := by
  induction l with
  | nil => simp at hPos
  | cons u l ih =>
      by_cases hHas : u.Has p
      · exact ⟨u, by simp, hHas⟩
      · have hTail : 0 < coverage l p := by
          simpa [covers, hHas] using hPos
        rcases ih hTail with ⟨s, hMem, hHas'⟩
        exact ⟨s, List.mem_cons_of_mem u hMem, hHas'⟩

/- Spans that cover no point twice are pairwise disjoint. -/
theorem pairwise_apart
    (hOnce : ∀ p, coverage l p ≤ 1) :
    l.Pairwise Apart := by
  induction l with
  | nil => exact List.Pairwise.nil
  | cons s l ih =>
      refine List.Pairwise.cons ?_ (ih ?_)
      · intro u hMem p hHead hTail
        have hHere := hOnce p
        rw [coverage_cons, covers_eq_one hHead] at hHere
        have := one_le_coverage hMem hTail
        omega
      · intro p
        have hHere := hOnce p
        rw [coverage_cons] at hHere
        omega

/- Pairwise disjoint spans cover no point twice. -/
theorem coverage_le_one
    (hApart : l.Pairwise Apart)
    (p : Nat) :
    coverage l p ≤ 1 := by
  induction l with
  | nil => simp
  | cons s l ih =>
      rcases List.pairwise_cons.mp hApart with ⟨hHead, hTail⟩
      rw [coverage_cons]
      by_cases hHas : s.Has p
      · have hNone : coverage l p = 0 := by
          by_contra hSome
          rcases exists_of_coverage_pos
              (Nat.pos_of_ne_zero hSome) with
            ⟨u, hMem, hHas'⟩
          exact hHead u hMem p hHas hHas'
        rw [covers_eq_one hHas, hNone]
      · have hZero : s.covers p = 0 := if_neg hHas
        have := ih hTail
        omega

/- Two lists that together cover no point twice are disjoint. -/
theorem apart_of_coverage
    {l l' : List Span}
    (hOnce : ∀ p, coverage l p + coverage l' p ≤ 1)
    {s u : Span}
    (hLeft : s ∈ l)
    (hRight : u ∈ l') :
    s.Apart u := by
  intro p hHas hHas'
  have hHere := hOnce p
  have := one_le_coverage hLeft hHas
  have := one_le_coverage hRight hHas'
  omega

/- Coverage does not depend on the order of the spans. -/
theorem coverage_perm
    {l l' : List Span}
    (hPerm : l.Perm l')
    (p : Nat) :
    coverage l p = coverage l' p :=
  (hPerm.map _).sum_eq

/- Removing the last span removes its coverage. -/
theorem coverage_dropLast
    (hLast : l.getLast? = some s)
    (p : Nat) :
    coverage l.dropLast p + s.covers p = coverage l p := by
  have hSplit : l.dropLast ++ [s] = l :=
    List.dropLast_append_getLast? s hLast
  have hSum := coverage_append l.dropLast [s] p
  rw [hSplit] at hSum
  simpa using hSum.symm

/- Removing an indexed span removes its coverage. -/
theorem coverage_eraseIdx
    {j : Nat}
    (hGet : l[j]? = some s)
    (p : Nat) :
    coverage (l.eraseIdx j) p + s.covers p = coverage l p := by
  induction l generalizing j with
  | nil => simp at hGet
  | cons u l ih =>
      cases j with
      | zero =>
          have hEq : u = s := by simpa using hGet
          simp [hEq, Nat.add_comm]
      | succ j =>
          have hTail : l[j]? = some s := by simpa using hGet
          have := ih hTail
          simp only [List.eraseIdx_cons_succ, coverage_cons]
          omega

/- The number of points of a span that is not empty. -/
def size (s : Span) : Nat :=
  s.stop - s.start + 1

/- The number of points of all listed spans together. -/
def points (l : List Span) : Nat :=
  (l.map size).sum

@[simp] theorem points_nil :
    points [] = 0 := rfl

@[simp] theorem points_cons
    (s : Span)
    (l : List Span) :
    points (s :: l) = s.size + points l := by
  simp [points]

@[simp] theorem points_append
    (l l' : List Span) :
    points (l ++ l') = points l + points l' := by
  simp [points]

theorem points_perm
    {l l' : List Span}
    (hPerm : l.Perm l') :
    points l = points l' :=
  (hPerm.map _).sum_eq

/- Summing a span over a range counts its points. -/
theorem sum_covers
    {n : Nat}
    (hStart : s.start ≤ s.stop)
    (hStop : s.stop < n) :
    (Finset.range n).sum s.covers = s.size := by
  have hPoints :
      (Finset.range n).filter s.Has =
        Finset.Icc s.start s.stop := by
    ext p
    simp only [Finset.mem_filter, Finset.mem_range,
      Finset.mem_Icc, Has]
    omega
  unfold covers
  rw [Finset.sum_boole, hPoints, Nat.card_Icc, size]
  simp only [Nat.cast_id]
  omega

/- Summing the coverage over a range counts all points. -/
theorem sum_coverage
    {n : Nat}
    (hIn : ∀ s ∈ l, s.start ≤ s.stop ∧ s.stop < n) :
    (Finset.range n).sum (coverage l) = points l := by
  induction l with
  | nil => simp
  | cons s l ih =>
      have hHead := hIn s (by simp)
      have hTail := ih (fun u hMem =>
        hIn u (List.mem_cons_of_mem s hMem))
      simp only [coverage_cons, Finset.sum_add_distrib,
        points_cons, hTail]
      rw [sum_covers hHead.1 hHead.2]

------------------------------------------------------------
-- Splitting And Shelves
------------------------------------------------------------

/- Cutting a span after `mid` keeps its coverage. -/
theorem covers_split
    (a mid b : Nat)
    (hLeft : a ≤ mid + 1)
    (hRight : mid ≤ b)
    (p : Nat) :
    covers ⟨a, mid⟩ p + covers ⟨mid + 1, b⟩ p =
      covers ⟨a, b⟩ p := by
  rw [covers_mk, covers_mk, covers_mk]
  split_ifs <;> omega

/- Remove a point from the first span that has it. -/
def punch (p : Nat) : List Span → List Span
| [] => []
| s :: l =>
    if s.start ≤ p ∧ p ≤ s.stop then
      if s.stop = p ∧ s.start = p then
        l
      else if s.start = p then
        ⟨p + 1, s.stop⟩ :: l
      else if s.stop = p then
        ⟨s.start, p - 1⟩ :: l
      else
        ⟨s.start, p - 1⟩ :: ⟨p + 1, s.stop⟩ :: l
    else
      s :: punch p l

theorem covers_self
    (p q : Nat) :
    covers ⟨p, p⟩ q = if q = p then 1 else 0 := by
  rw [covers_mk]
  split_ifs <;> omega

/- Removing a point removes it once. -/
theorem coverage_punch
    (hHas : ∃ s ∈ l, s.Has p)
    (q : Nat) :
    coverage (punch p l) q + covers ⟨p, p⟩ q = coverage l q := by
  induction l with
  | nil => simp at hHas
  | cons s l ih =>
      rw [punch]
      by_cases hHere : s.start ≤ p ∧ p ≤ s.stop
      · rw [if_pos hHere, covers_self]
        have hSelf : s.covers q =
            if s.start ≤ q ∧ q ≤ s.stop then 1 else 0 :=
          covers_mk s.start s.stop q
        split_ifs <;>
          simp only [coverage_cons, covers_mk, hSelf] <;>
          split_ifs <;> omega
      · rw [if_neg hHere]
        have hTail : ∃ t ∈ l, t.Has p := by
          rcases hHas with ⟨t, hMem, hIn⟩
          rcases List.mem_cons.mp hMem with hEq | hRest
          · exact absurd (hEq ▸ hIn) hHere
          · exact ⟨t, hRest, hIn⟩
        have := ih hTail
        simp only [coverage_cons]
        omega

theorem punch_of_forall
    (hNone : ¬ ∃ s ∈ l, s.Has p) :
    punch p l = l := by
  induction l with
  | nil => rfl
  | cons s l ih =>
      have hHere : ¬ (s.start ≤ p ∧ p ≤ s.stop) := by
        intro hHas
        exact hNone ⟨s, by simp, hHas⟩
      rw [punch, if_neg hHere, ih]
      rintro ⟨t, hMem, hHas⟩
      exact hNone ⟨t, List.mem_cons_of_mem s hMem, hHas⟩

/- A point has a span exactly when it is covered. -/
theorem exists_has_iff
    {p : Nat} :
    (∃ s ∈ l, s.Has p) ↔ 0 < coverage l p := by
  constructor
  · rintro ⟨s, hMem, hHas⟩
    exact one_le_coverage hMem hHas
  · exact exists_of_coverage_pos

/- Disjoint spans have the other points after a removal. -/
theorem has_punch_iff
    (hOnce : ∀ q, coverage l q ≤ 1)
    (q : Nat) :
    (∃ s ∈ punch p l, s.Has q) ↔ (∃ s ∈ l, s.Has q) ∧ q ≠ p := by
  by_cases hHas : ∃ s ∈ l, s.Has p
  · have hCover := coverage_punch hHas q
    rw [covers_self] at hCover
    rw [exists_has_iff, exists_has_iff]
    have := hOnce q
    split_ifs at hCover <;> omega
  · rw [punch_of_forall hHas]
    constructor
    · intro hIn
      refine ⟨hIn, ?_⟩
      intro hEq
      exact hHas (hEq ▸ hIn)
    · exact fun hIn => hIn.1

theorem coverage_punch_le
    (p : Nat)
    (l : List Span)
    (q : Nat) :
    coverage (punch p l) q ≤ coverage l q := by
  by_cases hHas : ∃ s ∈ l, s.Has p
  · have := coverage_punch hHas q
    omega
  · rw [punch_of_forall hHas]

/- Spans with points, each ending before the next starts. -/
structure Rising (l : List Span) : Prop where
  nonempty : ∀ s ∈ l, s.start ≤ s.stop
  ordered : l.Pairwise (fun s u => s.stop < u.start)

theorem Rising.once
    (hRising : Rising l)
    (p : Nat) :
    coverage l p ≤ 1 :=
  coverage_le_one (hRising.ordered.imp fun {s u} hLt =>
    (apart_iff s u).mpr (Or.inr (Or.inr (Or.inl hLt)))) p

theorem rising_cons
    {l : List Span} :
    Rising (s :: l) ↔
      s.start ≤ s.stop ∧ (∀ u ∈ l, s.stop < u.start) ∧
        Rising l := by
  constructor
  · rintro ⟨hNonempty, hOrdered⟩
    rw [List.forall_mem_cons] at hNonempty
    rw [List.pairwise_cons] at hOrdered
    exact ⟨hNonempty.1, hOrdered.1, hNonempty.2, hOrdered.2⟩
  · rintro ⟨hHead, hBefore, hRest⟩
    exact ⟨List.forall_mem_cons.mpr ⟨hHead, hRest.nonempty⟩,
      List.pairwise_cons.mpr ⟨hBefore, hRest.ordered⟩⟩

/- A removal leaves nothing before the spans there were. -/
theorem lt_start_of_mem_punch
    {b p : Nat}
    (hBound : ∀ s ∈ l, b < s.start) :
    ∀ s ∈ punch p l, b < s.start := by
  induction l with
  | nil => exact hBound
  | cons s l ih =>
      rw [List.forall_mem_cons] at hBound
      rcases hBound with ⟨hHead, hTail⟩
      rw [punch]
      split_ifs with hHere hOnly hFirst hLast
      · exact hTail
      · exact List.forall_mem_cons.mpr
          ⟨by change b < p + 1; omega, hTail⟩
      · exact List.forall_mem_cons.mpr ⟨hHead, hTail⟩
      · exact List.forall_mem_cons.mpr ⟨hHead,
          List.forall_mem_cons.mpr
            ⟨by change b < p + 1; omega, hTail⟩⟩
      · exact List.forall_mem_cons.mpr ⟨hHead, ih hTail⟩

/- A removal keeps spans with points, in their order. -/
theorem rising_punch
    (hRising : Rising l)
    (p : Nat) :
    Rising (punch p l) := by
  induction l with
  | nil => exact hRising
  | cons s l ih =>
      rcases rising_cons.mp hRising with
        ⟨hHead, hBefore, hRest⟩
      rw [punch]
      split_ifs with hHere hOnly hFirst hLast
      · exact hRest
      · -- the first point of several
        refine rising_cons.mpr ⟨?_, hBefore, hRest⟩
        change p + 1 ≤ s.stop
        omega
      · -- the last point of several
        refine rising_cons.mpr ⟨?_, fun u hMem => ?_, hRest⟩
        · change s.start ≤ p - 1
          omega
        · have hLt := hBefore u hMem
          change p - 1 < u.start
          omega
      · -- a point inside, which cuts the span in two
        refine rising_cons.mpr ⟨?_, ?_, rising_cons.mpr
          ⟨?_, hBefore, hRest⟩⟩
        · change s.start ≤ p - 1
          omega
        · refine List.forall_mem_cons.mpr ⟨?_, fun u hMem => ?_⟩
          · change p - 1 < p + 1
            omega
          · have hLt := hBefore u hMem
            change p - 1 < u.start
            omega
        · change p + 1 ≤ s.stop
          omega
      · exact rising_cons.mpr
          ⟨hHead, lt_start_of_mem_punch hBefore, ih hRest⟩

/- `count` consecutive spans of `width` points from `start`. -/
def chop (start width count : Nat) : List Span :=
  (List.range count).map (fun j =>
    ⟨start + j * width, start + (j + 1) * width - 1⟩)

/- Consecutive spans cover what one span of their total does. -/
theorem coverage_chop
    (start : Nat)
    {width : Nat}
    (hWidth : 0 < width)
    {count : Nat}
    (hCount : 0 < count)
    (p : Nat) :
    coverage (chop start width count) p =
      covers ⟨start, start + count * width - 1⟩ p := by
  induction count with
  | zero => exact absurd hCount (lt_irrefl 0)
  | succ count ih =>
      have hUnfold :
          chop start width (count + 1) =
            chop start width count ++
              [⟨start + count * width,
                start + (count + 1) * width - 1⟩] := by
        simp [chop, List.range_succ]
      rw [hUnfold, coverage_append]
      rcases Nat.eq_zero_or_pos count with hZero | hPos
      · subst hZero
        simp [chop]
      · rw [ih hPos]
        have hLow : width ≤ count * width :=
          Nat.le_mul_of_pos_left width hPos
        have hNext :
            (count + 1) * width = count * width + width := by
          ring
        have hSplit := covers_split start
          (start + count * width - 1)
          (start + (count + 1) * width - 1)
          (by omega) (by omega) p
        have hMid :
            start + count * width - 1 + 1 =
              start + count * width := by
          omega
        rw [hMid] at hSplit
        simpa using hSplit

theorem mem_chop
    {start width count : Nat}
    (hMem : s ∈ chop start width count) :
    ∃ j, j < count ∧
      s = ⟨start + j * width, start + (j + 1) * width - 1⟩ := by
  rcases List.mem_map.mp hMem with ⟨j, hj, hEq⟩
  exact ⟨j, List.mem_range.mp hj, hEq.symm⟩

/- The sizes of consecutive spans. -/
theorem map_size_chop
    (start : Nat)
    {width : Nat}
    (hWidth : 0 < width)
    (count : Nat) :
    (chop start width count).map size =
      List.replicate count width := by
  rw [chop, List.map_map, List.eq_replicate_iff]
  refine ⟨by simp, ?_⟩
  intro n hMem
  rcases List.mem_map.mp hMem with ⟨j, -, hEq⟩
  have hNext : (j + 1) * width = j * width + width := by ring
  simp only [Function.comp_apply, size] at hEq
  omega

/- All spans on the first `n` shelves. -/
def shelves
    (shelf : Nat → List Span)
    (n : Nat) :
    List Span :=
  (List.range n).flatMap shelf

theorem mem_shelves
    {shelf : Nat → List Span}
    {n : Nat}
    {s : Span} :
    s ∈ shelves shelf n ↔ ∃ k, k < n ∧ s ∈ shelf k := by
  simp [shelves]

variable (shelf : Nat → List Span)

/- Empty shelves add nothing. -/
theorem shelves_of_nil
    {n m : Nat}
    (hLe : n ≤ m)
    (hNil : ∀ k, n ≤ k → shelf k = []) :
    shelves shelf m = shelves shelf n := by
  induction m with
  | zero =>
      have hZero : n = 0 := by omega
      rw [hZero]
  | succ m ih =>
      rcases Nat.eq_or_lt_of_le hLe with hEq | hLt
      · rw [hEq]
      · unfold shelves at ih ⊢
        rw [List.range_succ, List.flatMap_append,
          ih (by omega), List.flatMap_singleton,
          hNil m (by omega), List.append_nil]

theorem shelves_succ
    (n : Nat) :
    shelves shelf (n + 1) = shelves shelf n ++ shelf n := by
  simp [shelves, List.range_succ]

/- Shelves from `n` on do not change the first `n` shelves. -/
theorem shelves_update_of_le
    {k n : Nat}
    (hLe : n ≤ k)
    (l : List Span) :
    shelves (Function.update shelf k l) n = shelves shelf n := by
  unfold shelves
  apply List.flatMap_congr
  intro j hj
  have hNe : j ≠ k := by
    have := List.mem_range.mp hj
    omega
  rw [Function.update_of_ne hNe]

/- Replacing one shelf exchanges its old spans for new ones. -/
theorem shelves_update_perm
    {k n : Nat}
    (hLt : k < n)
    (l : List Span) :
    (shelves (Function.update shelf k l) n ++ shelf k).Perm
      (shelves shelf n ++ l) := by
  induction n with
  | zero => exact absurd hLt (Nat.not_lt_zero k)
  | succ n ih =>
      rw [shelves_succ, shelves_succ]
      rcases Nat.lt_succ_iff_lt_or_eq.mp hLt with hIn | hEq
      · have hNe : n ≠ k := by omega
        rw [Function.update_of_ne hNe, List.append_assoc,
          List.append_assoc]
        refine (List.perm_append_comm.append_left _).trans ?_
        rw [← List.append_assoc]
        refine ((ih hIn).append_right _).trans ?_
        rw [List.append_assoc]
        exact List.perm_append_comm.append_left _
      · subst hEq
        rw [shelves_update_of_le shelf (Nat.le_refl k),
          Function.update_self, List.append_assoc,
          List.append_assoc]
        exact List.perm_append_comm.append_left _

/-
  Replacing one shelf exchanges the coverage of its old
  spans for the coverage of its new ones.
-/
theorem coverage_shelves_update
    {k n : Nat}
    (hLt : k < n)
    (l : List Span)
    (p : Nat) :
    coverage (shelves (Function.update shelf k l) n) p +
        coverage (shelf k) p =
      coverage (shelves shelf n) p + coverage l p := by
  rw [← coverage_append, ← coverage_append]
  exact coverage_perm (shelves_update_perm shelf hLt l) p

end Span
