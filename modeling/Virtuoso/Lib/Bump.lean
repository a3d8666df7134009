import Mathlib.Data.Nat.Basic
import Virtuoso.Lib.Span

/-
  Serial placement by a pointer that only moves up.

  A request reserves bytes at the pointer. Its region starts
  at a page: the pointer is rounded down to a page, and the
  page is rounded up to the alignment of the request. The
  pointer moves by the reserved bytes, whatever was rounded,
  and wraps around at `top`.

  The regions are disjoint, and end below a limit where other
  memory starts, exactly if after each request what rounding
  takes is covered by what is reserved and not used.

  Regions that are given back in the reverse order form a
  stack below the pointer.

  Main declarations:
    * `Bump.pairwise_place_iff`
    * `Bump.Stacked.pairwise`
-/

------------------------------------------------------------
-- Placement
------------------------------------------------------------

namespace Bump

/-
  Reserved bytes, used bytes and the alignment in pages.
-/
structure Request where
  bytes : Nat
  used : Nat
  align : Nat
deriving DecidableEq

/- A request that uses what it reserves, at any page. -/
def plain (bytes : Nat) : Request :=
  ⟨bytes, bytes, 1⟩

/- The bytes between the page of a pointer and the region. -/
def lead (page pointer : Nat) (q : Request) : Nat :=
  ((pointer / page + q.align - 1) / q.align * q.align -
    pointer / page) * page

/- The first byte of a region. -/
def startOf (page pointer : Nat) (q : Request) : Nat :=
  (pointer / page + q.align - 1) / q.align * q.align * page

/- The bytes of a region. -/
def spanOf (page pointer : Nat) (q : Request) : Span :=
  ⟨startOf page pointer q, startOf page pointer q + q.used - 1⟩

/- The regions of requests, one after the other. -/
def place (page top : Nat) : Nat → List Request → List Span
| _, [] => []
| pointer, q :: qs =>
    spanOf page pointer q ::
      place page top ((pointer + q.bytes) % top) qs

/- The bytes from an address on, of which there may be none. -/
def bytesFrom (start size : Nat) : List Span :=
  if 0 < size then [⟨start, start + size - 1⟩] else []

/- The regions of requests that may use no bytes. -/
def placeAll
    (page top : Nat) :
    Nat → List Request → List Span
| _, [] => []
| pointer, q :: qs =>
    bytesFrom (startOf page pointer q) q.used ++
      placeAll page top ((pointer + q.bytes) % top) qs

/-
  After each request, the bytes that rounding takes from the
  next region are reserved and not used, and the last region
  ends at a limit, if there is memory behind it.
-/
def Rounds
    (page limit stop : Nat) :
    Nat → List Request → Prop
| _, [] => True
| pointer, [q] =>
    limit < stop →
      pointer / page * page + lead page pointer q + q.used ≤ limit
| pointer, q :: q' :: qs =>
    lead page pointer q + q.used + (pointer + q.bytes) % page ≤
        q.bytes + pointer % page +
          lead page (pointer + q.bytes) q' ∧
      Rounds page limit stop (pointer + q.bytes) (q' :: qs)

instance decidableRounds
    (page limit stop : Nat) :
    (pointer : Nat) → (qs : List Request) →
      Decidable (Rounds page limit stop pointer qs)
| _, [] => isTrue trivial
| pointer, [q] =>
    inferInstanceAs (Decidable (limit < stop →
      pointer / page * page + lead page pointer q + q.used ≤ limit))
| pointer, q :: q' :: qs =>
    @instDecidableAnd _ _ inferInstance
      (decidableRounds page limit stop (pointer + q.bytes)
        (q' :: qs))

/- What one request needs for its place. -/
structure Step
    (page limit pointer : Nat)
    (q : Request) : Prop where
  align : 0 < q.align
  used : 0 < q.used
  kind : (q.align = 1 ∧ q.bytes ≤ q.used) ∨
    (q.align * page ≤ q.bytes ∧ pointer + q.bytes ≤ limit)

/-
  Each request uses what it reserves, or more, from any page,
  or it reserves at least its alignment and ends below the
  limit.
-/
def Placeable (page limit : Nat) : Nat → List Request → Prop
| _, [] => True
| pointer, q :: qs =>
    Step page limit pointer q ∧
      Placeable page limit (pointer + q.bytes) qs

/- Of two regions the second starts after the first ends. -/
theorem apart_iff_of_le
    {s u s' u' : Nat}
    (hUsed : 0 < u)
    (hUsed' : 0 < u')
    (hOrder : s ≤ s') :
    Span.Apart ⟨s, s + u - 1⟩ ⟨s', s' + u' - 1⟩ ↔ s + u ≤ s' := by
  constructor
  · intro hApart
    by_contra hInside
    refine hApart s' ⟨hOrder, ?_⟩ ⟨Nat.le_refl s', ?_⟩
    · change s' ≤ s + u - 1
      omega
    · change s' ≤ s' + u' - 1
      omega
  · rintro hEnd p ⟨_, hStop⟩ ⟨hStart, _⟩
    change p ≤ s + u - 1 at hStop
    change s' ≤ p at hStart
    omega

variable {qs : List Request}

/- A request without bytes does not move the pointer. -/
theorem placeAll_eq
    (page : Nat)
    {top pointer : Nat}
    (hTop : pointer < top)
    (hNone : ∀ q ∈ qs, q.used = 0 → q.bytes = 0) :
    placeAll page top pointer qs =
      place page top pointer
        (qs.filter (fun q => decide (0 < q.used))) := by
  induction qs generalizing pointer with
  | nil => rfl
  | cons q qs ih =>
      have hTail : ∀ q ∈ qs, q.used = 0 → q.bytes = 0 :=
        fun q' hMem => hNone q' (List.mem_cons_of_mem q hMem)
      have hNext := Nat.mod_lt (pointer + q.bytes)
        (Nat.lt_of_le_of_lt (Nat.zero_le pointer) hTop)
      by_cases hUsed : 0 < q.used
      · rw [List.filter_cons_of_pos (by simpa using hUsed),
          place, placeAll, bytesFrom, if_pos hUsed,
          ih hNext hTail]
        rfl
      · have hBytes := hNone q List.mem_cons_self (by omega)
        rw [List.filter_cons_of_neg (by simpa using hUsed),
          placeAll, bytesFrom, if_neg hUsed, hBytes,
          Nat.add_zero, Nat.mod_eq_of_lt hTop]
        exact ih hTop hTail

theorem placeAll_append
    (page : Nat)
    {top pointer : Nat}
    (hTop : pointer < top)
    (qs qs' : List Request) :
    placeAll page top pointer (qs ++ qs') =
      placeAll page top pointer qs ++
        placeAll page top
          ((pointer + (qs.map Request.bytes).sum) % top) qs' := by
  induction qs generalizing pointer with
  | nil => simp [placeAll, Nat.mod_eq_of_lt hTop]
  | cons q qs ih =>
      have hNext := Nat.mod_lt (pointer + q.bytes)
        (Nat.lt_of_le_of_lt (Nat.zero_le pointer) hTop)
      rw [List.cons_append, placeAll, placeAll, ih hNext,
        List.append_assoc, List.map_cons, List.sum_cons,
        Nat.mod_add_mod, Nat.add_assoc]

variable {page top limit stop : Nat} {pointer : Nat}
variable {q q' : Request}

/- A page is rounded up by less than the alignment. -/
theorem roundUp_bounds
    (n : Nat)
    {align : Nat}
    (hAlign : 0 < align) :
    n ≤ (n + align - 1) / align * align ∧
      (n + align - 1) / align * align ≤ n + align - 1 := by
  refine ⟨?_, Nat.div_mul_le_self _ _⟩
  have hMod := Nat.div_add_mod (n + align - 1) align
  have hLess := Nat.mod_lt (n + align - 1) hAlign
  rw [Nat.mul_comm] at hMod
  omega

/- The start is the page of the pointer and the lead. -/
theorem startOf_eq
    (page pointer : Nat)
    (hAlign : 0 < q.align) :
    startOf page pointer q =
      pointer / page * page + lead page pointer q := by
  have hUp := (roundUp_bounds (pointer / page) hAlign).1
  unfold startOf lead
  rw [← Nat.add_mul, Nat.add_sub_cancel' hUp]

theorem lead_of_align_one
    (page pointer : Nat)
    (hAlign : q.align = 1) :
    lead page pointer q = 0 := by
  simp [lead, hAlign]

theorem lead_add_page_le
    (page pointer : Nat)
    (hAlign : 0 < q.align) :
    lead page pointer q + page ≤ q.align * page := by
  have hUp := (roundUp_bounds (pointer / page) hAlign).2
  unfold lead
  generalize (pointer / page + q.align - 1) / q.align *
    q.align = up at hUp ⊢
  generalize pointer / page = down at hUp ⊢
  calc
    (up - down) * page + page = (up - down + 1) * page := by
      ring
    _ ≤ q.align * page :=
      Nat.mul_le_mul_right page (by omega)

/- The pages of a pointer before and after a request. -/
theorem pointer_eq
    (page pointer : Nat) :
    pointer = pointer / page * page + pointer % page := by
  rw [Nat.mul_comm]
  exact (Nat.div_add_mod pointer page).symm

theorem floor_add_le
    (hPage : 0 < page)
    (pointer : Nat)
    {n bytes : Nat}
    (hBytes : n * page ≤ bytes) :
    pointer / page * page + n * page ≤
      (pointer + bytes) / page * page := by
  rw [← Nat.add_mul]
  apply Nat.mul_le_mul_right
  rw [← Nat.add_mul_div_right pointer n hPage]
  exact Nat.div_le_div_right (by omega)

/- A pointer less than a page above a limit of whole pages. -/
theorem floor_le_of_lt
    (hPage : 0 < page)
    (hLimit : page ∣ limit)
    (hLess : pointer < limit + page) :
    pointer / page * page ≤ limit := by
  rcases hLimit with ⟨n, hEq⟩
  subst hEq
  have hDiv : pointer / page < n + 1 := by
    rw [Nat.div_lt_iff_lt_mul hPage, Nat.add_mul, Nat.one_mul,
      Nat.mul_comm n page]
    exact hLess
  calc
    pointer / page * page ≤ n * page :=
      Nat.mul_le_mul_right page (by omega)
    _ = page * n := Nat.mul_comm n page

------------------------------------------------------------
-- Requests In Order
------------------------------------------------------------

/- The next region does not start before this one. -/
theorem Step.start_le
    (hPage : 0 < page)
    (hStep : Step page limit pointer q)
    (hAlign : 0 < q'.align) :
    startOf page pointer q ≤
      startOf page (pointer + q.bytes) q' := by
  rw [startOf_eq page pointer hStep.align, startOf_eq page _ hAlign]
  rcases hStep.kind with ⟨hOne, _⟩ | ⟨hBytes, _⟩
  · rw [lead_of_align_one page pointer hOne]
    have hFloor := floor_add_le hPage pointer
      (show 0 * page ≤ q.bytes by omega)
    omega
  · have hFloor := floor_add_le hPage pointer hBytes
    have hLead := lead_add_page_le page pointer hStep.align
    omega

/- A region ends before the next one if rounding fits. -/
theorem Step.end_le_iff
    (hStep : Step page limit pointer q)
    (hAlign : 0 < q'.align) :
    startOf page pointer q + q.used ≤
        startOf page (pointer + q.bytes) q' ↔
      lead page pointer q + q.used + (pointer + q.bytes) % page ≤
        q.bytes + pointer % page +
          lead page (pointer + q.bytes) q' := by
  rw [startOf_eq page pointer hStep.align, startOf_eq page _ hAlign]
  have hOld := pointer_eq page pointer
  have hNew := pointer_eq page (pointer + q.bytes)
  omega

/- A region starts at the limit at most. -/
theorem Step.startOf_le
    (hStep : Step page limit pointer q)
    (hFloor : pointer / page * page ≤ limit) :
    startOf page pointer q ≤ limit := by
  rw [startOf_eq page pointer hStep.align]
  rcases hStep.kind with ⟨hOne, _⟩ | ⟨hBytes, hEnd⟩
  · rw [lead_of_align_one page pointer hOne]
    omega
  · have hLead := lead_add_page_le page pointer hStep.align
    have hOld := pointer_eq page pointer
    omega

/- A region is apart from the memory behind the limit. -/
theorem Step.outside_iff
    (hStep : Step page limit pointer q)
    (hFloor : limit < stop → pointer / page * page ≤ limit) :
    (∀ p, limit ≤ p → p < stop → ¬ (spanOf page pointer q).Has p) ↔
      (limit < stop → startOf page pointer q + q.used ≤ limit) := by
  have hUsed := hStep.used
  constructor
  · intro hApart hLess
    have hStart := hStep.startOf_le (hFloor hLess)
    by_contra hOver
    refine hApart limit (Nat.le_refl limit) hLess ⟨hStart, ?_⟩
    change limit ≤ startOf page pointer q + q.used - 1
    omega
  · rintro hEnd p hLow hHigh ⟨_, hStop⟩
    change p ≤ startOf page pointer q + q.used - 1 at hStop
    have := hEnd (by omega)
    omega

/- The next pointer is at most in the page at the limit. -/
theorem Step.floor_le
    (hPage : 0 < page)
    (hLimit : page ∣ limit)
    (hStep : Step page limit pointer q)
    (hEnd : startOf page pointer q + q.used ≤ limit) :
    pointer + q.bytes < limit + page ∧
      (pointer + q.bytes) / page * page ≤ limit := by
  rw [startOf_eq page pointer hStep.align] at hEnd
  have hLess : pointer + q.bytes < limit + page := by
    rcases hStep.kind with ⟨_, hUsed⟩ | ⟨_, hFit⟩
    · have hOld := pointer_eq page pointer
      have hMod := Nat.mod_lt pointer hPage
      omega
    · omega
  exact ⟨hLess, floor_le_of_lt hPage hLimit hLess⟩

/- Rounded regions end at the limit, all of them. -/
theorem end_le_of_rounds
    (hPlace : Placeable page limit pointer (q :: qs))
    (hRounds : Rounds page limit stop pointer (q :: qs))
    (hLess : limit < stop) :
    startOf page pointer q + q.used ≤ limit := by
  induction qs generalizing pointer q with
  | nil =>
      rw [startOf_eq page pointer hPlace.1.align]
      exact hRounds hLess
  | cons q' qs ih =>
      have hNext := ih hPlace.2 hRounds.2
      have hUsed := hPlace.2.1.used
      have hEnd := (hPlace.1.end_le_iff
        hPlace.2.1.align).mpr hRounds.1
      omega

/- Plain requests may follow each other anywhere. -/
theorem placeable_plain
    (page limit pointer : Nat)
    (sizes : List Nat) :
    Placeable page limit pointer
      ((sizes.map plain).filter
        (fun q => decide (0 < q.used))) := by
  induction sizes generalizing pointer with
  | nil => trivial
  | cons bytes sizes ih =>
      rw [List.map_cons]
      by_cases hUsed : 0 < bytes
      · rw [List.filter_cons_of_pos (by exact decide_eq_true hUsed)]
        exact ⟨⟨Nat.one_pos, hUsed,
          Or.inl ⟨rfl, Nat.le_refl bytes⟩⟩, ih _⟩
      · rw [List.filter_cons_of_neg
          (by exact fun hTrue =>
            hUsed (of_decide_eq_true hTrue))]
        exact ih pointer

/- Requests that end below the limit, before others. -/
theorem Placeable.append
    {qs rest : List Request}
    (hFit : pointer + (qs.map Request.bytes).sum ≤ limit)
    (hKind : ∀ q ∈ qs, 0 < q.align ∧ 0 < q.used ∧
      (q.align = 1 ∧ q.bytes ≤ q.used ∨ q.align * page ≤ q.bytes))
    (hRest : ∀ pointer, Placeable page limit pointer rest) :
    Placeable page limit pointer (qs ++ rest) := by
  induction qs generalizing pointer with
  | nil => exact hRest pointer
  | cons q qs ih =>
      rw [List.map_cons, List.sum_cons] at hFit
      rcases hKind q List.mem_cons_self with
        ⟨hAlign, hUsed, hOne⟩
      refine ⟨⟨hAlign, hUsed, ?_⟩, ih (by omega) ?_⟩
      · exact hOne.imp id (fun hBytes => ⟨hBytes, by omega⟩)
      · intro q' hMem
        exact hKind q' (List.mem_cons_of_mem q hMem)

section NoWrap

variable (hPage : 0 < page)
variable (hLimit : page ∣ limit)
variable (hTop : limit + page ≤ top)

include hPage hLimit hTop

/- The pointer does not wrap behind a region that fits. -/
theorem Step.next_eq
    (hStep : Step page limit pointer q)
    {rest : Nat}
    (hNoWrap : limit < stop ∨ pointer + (q.bytes + rest) < top)
    (hEnd : limit < stop →
      startOf page pointer q + q.used ≤ limit) :
    (pointer + q.bytes) % top = pointer + q.bytes ∧
      (limit < stop → (pointer + q.bytes) / page * page ≤ limit) ∧
      (limit < stop ∨ pointer + q.bytes + rest < top) := by
  have hNext : limit < stop →
      pointer + q.bytes < limit + page ∧
        (pointer + q.bytes) / page * page ≤ limit :=
    fun hLess => hStep.floor_le hPage hLimit (hEnd hLess)
  refine ⟨Nat.mod_eq_of_lt ?_, fun hLess => (hNext hLess).2, ?_⟩
  · rcases hNoWrap with hLess | hSum
    · have := (hNext hLess).1
      omega
    · omega
  · rcases hNoWrap with hLess | hSum
    · exact Or.inl hLess
    · exact Or.inr (by omega)

/- Rounded regions start one after the other. -/
theorem start_le_of_rounds
    (hPlace : Placeable page limit pointer (q :: qs))
    (hNoWrap : limit < stop ∨
      pointer + (q.bytes + (qs.map Request.bytes).sum) < top)
    (hRounds : Rounds page limit stop pointer (q :: qs))
    {span : Span}
    (hMem : span ∈ place page top pointer (q :: qs)) :
    startOf page pointer q ≤ span.start := by
  induction qs generalizing pointer q with
  | nil =>
      rw [place, place, List.mem_singleton] at hMem
      rw [hMem]
      exact Nat.le_refl _
  | cons q' qs ih =>
      rw [place] at hMem
      rcases List.mem_cons.mp hMem with hHead | hTail
      · rw [hHead]
        exact Nat.le_refl _
      · rcases hPlace.1.next_eq hPage hLimit hTop hNoWrap
            (end_le_of_rounds hPlace hRounds) with
          ⟨hNext, _, hNoWrap'⟩
        rw [hNext] at hTail
        have hLater := ih hPlace.2 hNoWrap' hRounds.2 hTail
        have hStart := hPlace.1.start_le hPage hPlace.2.1.align
        omega

/-
  The regions are pairwise disjoint and apart from the memory
  behind the limit exactly if rounding fits.
-/
theorem pairwise_place_iff
    (hPlace : Placeable page limit pointer qs)
    (hFloor : limit < stop → pointer / page * page ≤ limit)
    (hNoWrap : limit < stop ∨
      pointer + (qs.map Request.bytes).sum < top) :
    ((place page top pointer qs).Pairwise Span.Apart ∧
        ∀ span ∈ place page top pointer qs, ∀ p, limit ≤ p →
          p < stop → ¬ span.Has p) ↔
      Rounds page limit stop pointer qs := by
  induction qs generalizing pointer with
  | nil => simp [place, Rounds]
  | cons q qs ih =>
      have hOutside := hPlace.1.outside_iff hFloor
      cases qs with
      | nil =>
          rw [Rounds, ← startOf_eq page pointer
            hPlace.1.align, ← hOutside]
          simp [place]
      | cons q' qs =>
          have hStart := hPlace.1.start_le hPage hPlace.2.1.align
          constructor
          · rintro ⟨hPairwise, hAway⟩
            have hEnd := hOutside.mp (hAway _ List.mem_cons_self)
            rcases hPlace.1.next_eq hPage hLimit hTop hNoWrap
                hEnd with ⟨hNext, hFloor', hNoWrap'⟩
            rw [place, hNext] at hPairwise hAway
            rw [List.pairwise_cons] at hPairwise
            have hRest := (ih hPlace.2 hFloor' hNoWrap').mp
              ⟨hPairwise.2, fun span hMem =>
                hAway span (List.mem_cons_of_mem _ hMem)⟩
            refine ⟨?_, hRest⟩
            rw [← hPlace.1.end_le_iff hPlace.2.1.align,
              ← apart_iff_of_le hPlace.1.used
                hPlace.2.1.used hStart]
            exact hPairwise.1 _ List.mem_cons_self
          · intro hRounds
            have hEnd := end_le_of_rounds hPlace hRounds
            have hApart := (hPlace.1.end_le_iff
              hPlace.2.1.align).mpr hRounds.1
            rcases hPlace.1.next_eq hPage hLimit hTop hNoWrap
                hEnd with ⟨hNext, hFloor', hNoWrap'⟩
            rcases (ih hPlace.2 hFloor' hNoWrap').mpr
              hRounds.2 with ⟨hPairwise, hAway⟩
            rw [place, hNext]
            refine ⟨List.pairwise_cons.mpr ⟨?_, hPairwise⟩, ?_⟩
            · rintro span hMem p ⟨_, hStop⟩ ⟨hLow, _⟩
              have hLater := start_le_of_rounds hPage hLimit
                hTop hPlace.2 hNoWrap' hRounds.2 hMem
              have hUsed := hPlace.1.used
              change p ≤ startOf page pointer q + q.used - 1
                at hStop
              omega
            · intro span hMem
              rcases List.mem_cons.mp hMem with hHead | hTail
              · rw [hHead]
                exact hOutside.mpr hEnd
              · exact hAway span hTail

end NoWrap

/-
  Regions from a base up to a pointer, the last one first,
  each of them from a page on.
-/
def Stacked (page base : Nat) : Nat → List Span → Prop
| pointer, [] => pointer = base
| pointer, s :: l =>
    s.start ≤ s.stop ∧ s.stop + 1 = pointer ∧
      page ∣ s.start ∧ Stacked page base s.start l

variable {base : Nat} {l : List Span}

theorem Stacked.base_le
    (hStacked : Stacked page base pointer l) :
    base ≤ pointer := by
  induction l generalizing pointer with
  | nil => exact Nat.le_of_eq hStacked.symm
  | cons s l ih =>
      rcases hStacked with ⟨hNonempty, hStop, _, hRest⟩
      have := ih hRest
      omega

theorem Stacked.bounds
    (hStacked : Stacked page base pointer l)
    {s : Span}
    (hMem : s ∈ l) :
    base ≤ s.start ∧ s.stop < pointer := by
  induction l generalizing pointer with
  | nil => cases hMem
  | cons t l ih =>
      rcases hStacked with ⟨hNonempty, hStop, _, hRest⟩
      rcases List.mem_cons.mp hMem with hHead | hTail
      · subst hHead
        exact ⟨hRest.base_le, by omega⟩
      · have := ih hRest hTail
        omega

/- The regions of a stack are disjoint. -/
theorem Stacked.pairwise
    (hStacked : Stacked page base pointer l) :
    l.Pairwise Span.Apart := by
  induction l generalizing pointer with
  | nil => exact List.Pairwise.nil
  | cons s l ih =>
      rcases hStacked with ⟨_, _, _, hRest⟩
      refine List.Pairwise.cons ?_ (ih hRest)
      rintro t hMem p ⟨hLow, _⟩ ⟨_, hHigh⟩
      have := (hRest.bounds hMem).2
      omega

/- A region at a pointer that is the start of a page. -/
theorem Stacked.push
    (hStacked : Stacked page base pointer l)
    (hAligned : page ∣ pointer)
    {bytes : Nat}
    (hBytes : 0 < bytes) :
    Stacked page base (pointer + bytes)
      (⟨pointer, pointer + bytes - 1⟩ :: l) := by
  refine ⟨?_, ?_, hAligned, hStacked⟩
  · change pointer ≤ pointer + bytes - 1
    omega
  · change pointer + bytes - 1 + 1 = pointer + bytes
    omega

/- Inside of a page there is the end of the last region. -/
theorem Stacked.exists_of_not_dvd
    (hPage : 0 < page)
    (hBase : page ∣ base)
    (hStacked : Stacked page base pointer l)
    (hInside : ¬ page ∣ pointer) :
    ∃ s ∈ l, s.Has (pointer / page * page) := by
  cases l with
  | nil => exact absurd (hStacked ▸ hBase) hInside
  | cons s l =>
      rcases hStacked with ⟨hNonempty, hStop, hAligned, _⟩
      refine ⟨s, List.mem_cons_self, ?_, ?_⟩
      · rcases hAligned with ⟨n, hEq⟩
        have hLe : n ≤ pointer / page := by
          rw [Nat.le_div_iff_mul_le hPage, Nat.mul_comm, ← hEq]
          omega
        rw [hEq, Nat.mul_comm page n]
        exact Nat.mul_le_mul_right page hLe
      · have hEq := pointer_eq page pointer
        have hMod : 0 < pointer % page :=
          Nat.pos_of_ne_zero (fun hZero =>
            hInside (Nat.dvd_of_mod_eq_zero hZero))
        omega

end Bump
