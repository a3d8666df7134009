import Virtuoso.Lib.Run
import Virtuoso.RangeMmu.Basic

/-
  The replacement of the range lookaside buffer.

  `insert_entry` draws random numbers until one differs from
  the field `mru`, the index of the last hit, and takes the
  range at the drawn index out of a full buffer. The field is
  not set by an insertion, and it is not moved when a range
  before it is taken out.

  The constructor does not set the field either, so that its
  first value is arbitrary. A value below zero, as any other
  that is no index of the buffer, is never drawn.

  Main declarations:
    * `RangeMmu.TrackedRlb.replaces_iff`
-/

namespace Virtuoso

namespace RangeMmu

namespace Rlb

/- The candidate that the loop of `insert_entry` ends with. -/
def drawn (rlb : Rlb) (draws : List Nat) : Option Nat :=
  (draws.map (fun d => d % rlb.numSets)).find?
    (fun candidate => candidate != rlb.mru)

/-
  There is a random number, and where there are several sets,
  two of the numbers lead to different ones.
-/
def Varied (numSets : Nat) (draws : List Nat) : Prop :=
  draws ≠ [] ∧
    (2 ≤ numSets →
      ∃ d ∈ draws, ∃ e ∈ draws, d % numSets ≠ e % numSets)

/- An insertion ends once the random numbers vary. -/
def Terminates (rlb : Rlb) (range : Range) : Prop :=
  ∀ draws, Varied rlb.numSets draws →
    rlb.insertEntry draws range ≠ none

variable {rlb : Rlb}

theorem insertEntry_eq
    (hSets : 1 ≤ rlb.numSets)
    (draws : List Nat)
    (range : Range) :
    rlb.insertEntry draws range =
      (rlb.drawn draws).map (fun candidate =>
        { rlb with
          ranges :=
            (if rlb.ranges.length = rlb.numSets then
              rlb.ranges.eraseIdx candidate
            else
              rlb.ranges) ++ [range] }) :=
  if_neg (Nat.pos_iff_ne_zero.mp hSets)

theorem drawn_eq_some
    {draws : List Nat}
    {candidate : Nat}
    (hDrawn : rlb.drawn draws = some candidate) :
    candidate ≠ rlb.mru ∧
      ∃ d ∈ draws, d % rlb.numSets = candidate := by
  have hTest := List.find?_some hDrawn
  have hMem := List.mem_of_find?_eq_some hDrawn
  exact ⟨bne_iff_ne.mp hTest, List.mem_map.mp hMem⟩

theorem drawn_eq_none_iff
    {draws : List Nat} :
    rlb.drawn draws = none ↔
      ∀ d ∈ draws, d % rlb.numSets = rlb.mru := by
  unfold drawn
  rw [List.find?_eq_none]
  constructor
  · intro hAll d hMem
    have hTest := hAll _ (List.mem_map_of_mem hMem)
    simpa using hTest
  · intro hAll candidate hMem
    rcases List.mem_map.mp hMem with ⟨d, hDraw, hEq⟩
    rw [← hEq, hAll d hDraw]
    simp

/-
  The draws end in every buffer but one with a single set
  whose index is marked.
-/
theorem terminates_iff
    (hSets : 1 ≤ rlb.numSets)
    (range : Range) :
    rlb.Terminates range ↔ (rlb.numSets = 1 → rlb.mru ≠ 0) := by
  constructor
  · intro hEnds hSingle hMarked
    have hVaried : Varied rlb.numSets [0] := by
      refine ⟨List.cons_ne_nil _ _, fun hSeveral => ?_⟩
      omega
    apply hEnds [0] hVaried
    rw [insertEntry_eq hSets, Option.map_eq_none_iff,
      drawn_eq_none_iff]
    intro d _
    rw [hSingle, hMarked, Nat.mod_one]
  · intro hUnmarked draws hVaried hNone
    rw [insertEntry_eq hSets, Option.map_eq_none_iff,
      drawn_eq_none_iff] at hNone
    rcases Nat.eq_or_lt_of_le hSets with hSingle | hSeveral
    · rcases List.exists_mem_of_ne_nil _ hVaried.1 with
        ⟨d, hMem⟩
      apply hUnmarked hSingle.symm
      rw [← hNone d hMem, ← hSingle, Nat.mod_one]
    · rcases hVaried.2 hSeveral with
        ⟨d, hMem, e, hMem', hNe⟩
      exact hNe ((hNone d hMem).trans (hNone e hMem').symm)

end Rlb

/- A call of the buffer, with what it reads from outside. -/
inductive RlbOp
  | access (address : BitVec 64) (miss : Range)
  | insertEntry (draws : List Nat) (range : Range)

/-
  A buffer, and the index of the range that was hit or
  inserted last.
-/
structure TrackedRlb where
  rlb : Rlb
  recent : Option Nat

namespace TrackedRlb

/- `RLB::RLB`, with the value that `mru` happens to have. -/
def construct (numSets mru : Nat) : TrackedRlb :=
  ⟨⟨numSets, [], mru⟩, none⟩

/- The buffer after a call. -/
def step (t : TrackedRlb) : RlbOp → Option TrackedRlb
| .access address miss =>
    let r := t.rlb.access address miss
    some ⟨r.2, if r.1.1 then some r.2.mru else t.recent⟩
| .insertEntry draws range =>
    (t.rlb.insertEntry draws range).map (fun rlb =>
      ⟨rlb, some (rlb.ranges.length - 1)⟩)

/- No draw takes the most recent range out. -/
def KeepsRecent (t : TrackedRlb) : Prop :=
  2 ≤ t.rlb.numSets → t.rlb.ranges.length = t.rlb.numSets →
    ∀ draws candidate, t.rlb.drawn draws = some candidate →
      t.recent ≠ some candidate

/-
  What is asked of a call: the buffer holds at most as many
  ranges as it has sets, an insertion ends, and it does not
  take the most recent range out.
-/
def Replaces (t : TrackedRlb) (op : RlbOp) : Prop :=
  (∀ t', t.step op = some t' →
    t'.rlb.ranges.length ≤ t'.rlb.numSets) ∧
    match op with
    | .access _ _ => True
    | .insertEntry _ range =>
        t.rlb.Terminates range ∧ t.KeepsRecent

/-
  The mark is not on the index of a single set, and in a full
  buffer of several sets it is on the most recent range.
-/
def MarksRecent (t : TrackedRlb) : RlbOp → Prop
| .access _ _ => True
| .insertEntry _ _ =>
    (t.rlb.numSets = 1 → t.rlb.mru ≠ 0) ∧
      (2 ≤ t.rlb.numSets →
        t.rlb.ranges.length = t.rlb.numSets →
          t.recent = some t.rlb.mru)

instance
    (t : TrackedRlb)
    (op : RlbOp) :
    Decidable (t.MarksRecent op) :=
  match op with
  | .access _ _ => inferInstanceAs (Decidable True)
  | .insertEntry _ _ => inferInstanceAs (Decidable (_ ∧ _))

/- The invariant of the runs. -/
structure Inv (numSets : Nat) (t : TrackedRlb) : Prop where
  numSets_eq : t.rlb.numSets = numSets
  length_le : t.rlb.ranges.length ≤ t.rlb.numSets
  recent_lt :
    t.rlb.ranges ≠ [] → ∃ i < t.rlb.ranges.length, t.recent = some i

theorem inv_construct
    (numSets mru : Nat) :
    Inv numSets (construct numSets mru) :=
  ⟨rfl, Nat.zero_le _, fun hSome => absurd rfl hSome⟩

/- An access only moves the marks, to a range of the buffer. -/
theorem inv_access
    {numSets : Nat}
    {t t' : TrackedRlb}
    {address : BitVec 64}
    {miss : Range}
    (hInv : Inv numSets t)
    (hStep : t.step (.access address miss) = some t') :
    Inv numSets t' := by
  cases hStep
  unfold Rlb.access
  split
  · rename_i e hFound
    have hMem := List.mem_of_find?_eq_some hFound
    have hLt : e.2 < t.rlb.ranges.length := by
      simpa using (List.mem_zipIdx hMem).2.1
    exact ⟨hInv.numSets_eq, hInv.length_le,
      fun _ => ⟨e.2, hLt, rfl⟩⟩
  · exact hInv

/- An insertion leaves its range at the end of the buffer. -/
theorem inv_insertEntry
    {numSets : Nat}
    {t t' : TrackedRlb}
    {draws : List Nat}
    {range : Range}
    (hSets : 1 ≤ numSets)
    (hInv : Inv numSets t)
    (hStep : t.step (.insertEntry draws range) = some t') :
    Inv numSets t' := by
  have hEq := hInv.numSets_eq
  have hLe := hInv.length_le
  rcases Option.map_eq_some_iff.mp hStep with
    ⟨rlb, hInsert, hNext⟩
  rw [Rlb.insertEntry_eq (hEq ▸ hSets)] at hInsert
  rcases Option.map_eq_some_iff.mp hInsert with
    ⟨candidate, hDrawn, hBuffer⟩
  rcases Rlb.drawn_eq_some hDrawn with ⟨-, d, -, hIndex⟩
  have hLt : candidate < t.rlb.numSets :=
    hIndex ▸ Nat.mod_lt d (hEq ▸ hSets)
  rw [← hNext, ← hBuffer]
  refine ⟨hEq, ?_, fun _ => ⟨_, ?_, rfl⟩⟩
  · change _ ≤ t.rlb.numSets
    rw [List.length_append, List.length_singleton]
    split_ifs with hFull
    · rw [List.length_eraseIdx_of_lt (hFull ▸ hLt)]
      omega
    · omega
  · rw [List.length_append, List.length_singleton]
    omega

/- The most recent range is safe exactly where it is marked. -/
theorem keepsRecent_iff
    {numSets : Nat}
    {t : TrackedRlb}
    (hInv : Inv numSets t) :
    t.KeepsRecent ↔
      (2 ≤ t.rlb.numSets →
        t.rlb.ranges.length = t.rlb.numSets →
          t.recent = some t.rlb.mru) := by
  constructor
  · intro hKeeps hSeveral hFull
    have hSome : t.rlb.ranges ≠ [] := by
      rw [← List.length_pos_iff]
      omega
    rcases hInv.recent_lt hSome with ⟨i, hLt, hRecent⟩
    rw [hRecent, Option.some.injEq]
    by_contra hNe
    have hMod : i % t.rlb.numSets = i :=
      Nat.mod_eq_of_lt (hFull ▸ hLt)
    have hDrawn : t.rlb.drawn [i] = some i := by
      simp [Rlb.drawn, hMod, hNe]
    exact hKeeps hSeveral hFull [i] i hDrawn hRecent
  · intro hMarked hSeveral hFull draws candidate hDrawn hEq
    rw [hMarked hSeveral hFull, Option.some.injEq] at hEq
    exact (Rlb.drawn_eq_some hDrawn).1 hEq.symm

theorem replaces_iff_marksRecent
    {numSets : Nat}
    {t : TrackedRlb}
    {op : RlbOp}
    (hSets : 1 ≤ numSets)
    (hInv : Inv numSets t) :
    t.MarksRecent op ↔ t.Replaces op := by
  cases op with
  | access address miss =>
      exact iff_of_true trivial
        ⟨fun t' hStep => (inv_access hInv hStep).length_le, trivial⟩
  | insertEntry draws range =>
      have hEnds := Rlb.terminates_iff
        (hInv.numSets_eq.symm ▸ hSets : 1 ≤ t.rlb.numSets)
        range
      have hKeeps := keepsRecent_iff hInv
      constructor
      · rintro ⟨hSingle, hSeveral⟩
        exact ⟨fun t' hStep =>
          (inv_insertEntry hSets hInv hStep).length_le,
          hEnds.mpr hSingle, hKeeps.mpr hSeveral⟩
      · rintro ⟨-, hEnd, hKeep⟩
        exact ⟨hEnds.mp hEnd, hKeeps.mp hKeep⟩

/-
  Every call of a run is as asked exactly when the mark is
  right at every insertion.
-/
theorem replaces_iff
    {numSets : Nat}
    (hSets : 1 ≤ numSets)
    (mru : Nat)
    (ops : List RlbOp) :
    Run.Along step Replaces (construct numSets mru) ops ↔
      Run.Along step MarksRecent (construct numSets mru) ops := by
  have hAll : Run.Along step (fun _ _ => True)
      (construct numSets mru) ops :=
    Run.along_of_forall_mem _ (fun _ _ => trivial)
  refine (Run.along_iff_along ?_ ?_
    (inv_construct numSets mru) hAll).symm
  · intro t op t' hInv _ _ hStep
    cases op with
    | access address miss => exact inv_access hInv hStep
    | insertEntry draws range =>
        exact inv_insertEntry hSets hInv hStep
  · intro t op hInv _
    exact replaces_iff_marksRecent hSets hInv

/- Two sets; the range hit last stays when a third comes. -/
theorem replaces_run_hit :
    Run.Along step Replaces (construct 2 7)
      [.insertEntry [0] ⟨0, 0x1000, 0⟩,
        .insertEntry [1] ⟨0x1000, 0x2000, 0⟩,
        .access 0x500 ⟨0, 0, 0⟩,
        .insertEntry [0, 2, 3] ⟨0x2000, 0x3000, 0⟩] :=
  (replaces_iff (by decide) 7 _).mpr (by decide +kernel)

/-
  With one set, an insertion after a hit never ends. With two
  sets, the range inserted last may be taken out.
-/
theorem not_replaces_run :
    ¬ Run.Along step Replaces (construct 1 7)
        [.insertEntry [0] ⟨0, 0x1000, 0⟩,
          .access 0x500 ⟨0, 0, 0⟩,
          .insertEntry [0] ⟨0x1000, 0x2000, 0⟩] ∧
      ¬ Run.Along step Replaces (construct 2 7)
        [.insertEntry [0] ⟨0, 0x1000, 0⟩,
          .insertEntry [1] ⟨0x1000, 0x2000, 0⟩,
          .insertEntry [1] ⟨0x2000, 0x3000, 0⟩] := by
  refine ⟨?_, ?_⟩
  · rintro ⟨-, hAfter⟩
    have hThird := ((hAfter _ rfl).2 _ rfl).1
    have hMarked := (Rlb.terminates_iff (by decide) _).mp hThird.2.1
    exact hMarked rfl rfl
  · rintro ⟨-, hAfter⟩
    have hThird := ((hAfter _ rfl).2 _ rfl).1
    exact hThird.2.2 (by decide) rfl [1] 1 rfl rfl

end TrackedRlb

end RangeMmu

end Virtuoso
