import Virtuoso.PageTable.Cuckoo.Basic

/-
  What the tables of one page size contain.

  Every tag lies in at most one slot, and in a slot where the
  walk looks for it. An insertion adds one translation, or
  leaves exactly one element, with all its translations,
  without a slot.

  Main declarations:
    * `Cuckoo.Content`
    * `Cuckoo.insertElement_spec`
-/

namespace Virtuoso

namespace Cuckoo

/- The element translates the page to the frame. -/
def Element.Has
    (e : Element)
    (tag : Nat)
    (i : Fin 8)
    (ppn : Nat) : Prop :=
  e.tag = some tag ∧ e.validityBits i = true ∧ e.frames i = ppn

/- Some slot translates the page to the frame. -/
def Content
    (n : Nest)
    (tag : Nat)
    (i : Fin 8)
    (ppn : Nat) : Prop :=
  ∃ way pos, (n.table way pos).Has tag i ppn

/- Some slot has the tag. -/
def Stores (n : Nest) (tag : Nat) : Prop :=
  ∃ way pos, (n.table way pos).tag = some tag

/- The invariant of the tables of one page size. -/
structure Placed (c : Config) (n : Nest) : Prop where
  size_pos : 0 < n.size
  home : ∀ way pos tag, (n.table way pos).tag = some tag →
    way < c.ways ∧ pos = position c n tag way
  unique : ∀ way pos way' pos' tag,
    (n.table way pos).tag = some tag →
      (n.table way' pos').tag = some tag → way = way' ∧ pos = pos'
  occupied : ∀ way pos tag,
    (n.table way pos).tag = some tag →
      ∃ i, (n.table way pos).validityBits i = true

/- An element that has a translation and no slot. -/
def Displaced (n : Nest) (e : Element) : Prop :=
  (∃ tag, e.tag = some tag ∧ ¬ Stores n tag) ∧
    ∃ i, e.validityBits i = true

variable {c : Config} {n : Nest}

theorem Content.stores
    {tag ppn : Nat}
    {i : Fin 8}
    (hContent : Content n tag i ppn) :
    Stores n tag := by
  rcases hContent with ⟨way, pos, hTag, -⟩
  exact ⟨way, pos, hTag⟩

theorem placed_fresh
    {size : Nat}
    (hSize : 0 < size)
    (numItems : Nat) :
    Placed c (Nest.fresh size numItems) := by
  refine ⟨hSize, ?_, ?_, ?_⟩
  · intro way pos tag hTag
    cases hTag
  · intro way pos way' pos' tag hTag
    cases hTag
  · intro way pos tag hTag
    cases hTag

theorem not_content_fresh
    (size numItems tag : Nat)
    (i : Fin 8)
    (ppn : Nat) :
    ¬ Content (Nest.fresh size numItems) tag i ppn := by
  rintro ⟨way, pos, hTag, -⟩
  cases hTag

/- Only the tables and their size matter. -/
theorem placed_congr
    {n' : Nest}
    (hPlaced : Placed c n)
    (hSize : n'.size = n.size)
    (hTable : n'.table = n.table) :
    Placed c n' := by
  cases n
  cases n'
  simp only at hSize hTable
  subst hSize
  subst hTable
  exact ⟨hPlaced.size_pos, hPlaced.home, hPlaced.unique,
    hPlaced.occupied⟩

theorem content_congr
    {n' : Nest}
    (hTable : n'.table = n.table)
    (tag : Nat)
    (i : Fin 8)
    (ppn : Nat) :
    Content n' tag i ppn ↔ Content n tag i ppn := by
  unfold Content
  rw [hTable]

@[simp] theorem size_set
    (way pos : Nat)
    (e : Element) :
    (n.set way pos e).size = n.size := rfl

@[simp] theorem table_set_self
    (way pos : Nat)
    (e : Element) :
    (n.set way pos e).table way pos = e := by
  simp [Nest.set]

theorem table_set_of_ne
    {way pos way' pos' : Nat}
    (e : Element)
    (hNe : ¬ (way' = way ∧ pos' = pos)) :
    (n.set way pos e).table way' pos' = n.table way' pos' := by
  unfold Nest.set
  by_cases hWay : way' = way
  · subst hWay
    have hPos : pos' ≠ pos := fun hEq => hNe ⟨rfl, hEq⟩
    simp [hPos]
  · simp [Function.update_of_ne hWay]

/- Writing a slot exchanges its content. -/
theorem content_set
    (way pos : Nat)
    (e : Element)
    (tag : Nat)
    (i : Fin 8)
    (ppn : Nat) :
    Content (n.set way pos e) tag i ppn ∨
        (n.table way pos).Has tag i ppn ↔
      Content n tag i ppn ∨ e.Has tag i ppn := by
  constructor
  · rintro (⟨way', pos', hHas⟩ | hOld)
    · by_cases hSlot : way' = way ∧ pos' = pos
      · rw [hSlot.1, hSlot.2, table_set_self] at hHas
        exact Or.inr hHas
      · rw [table_set_of_ne e hSlot] at hHas
        exact Or.inl ⟨way', pos', hHas⟩
    · exact Or.inl ⟨way, pos, hOld⟩
  · rintro (⟨way', pos', hHas⟩ | hNew)
    · by_cases hSlot : way' = way ∧ pos' = pos
      · rw [hSlot.1, hSlot.2] at hHas
        exact Or.inr hHas
      · refine Or.inl ⟨way', pos', ?_⟩
        rw [table_set_of_ne e hSlot]
        exact hHas
    · refine Or.inl ⟨way, pos, ?_⟩
      rw [table_set_self]
      exact hNew

/- Writing an element into a slot of its tag. -/
theorem placed_set
    (hPlaced : Placed c n)
    {way pos tag : Nat}
    {e : Element}
    (hWay : way < c.ways)
    (hPos : pos = position c n tag way)
    (hTag : e.tag = some tag)
    (hNew : ∀ way' pos',
      (n.table way' pos').tag = some tag → way' = way ∧ pos' = pos)
    (hValid : ∃ i, e.validityBits i = true) :
    Placed c (n.set way pos e) := by
  refine ⟨hPlaced.size_pos, ?_, ?_, ?_⟩
  · intro way' pos' tag' hTag'
    by_cases hSlot : way' = way ∧ pos' = pos
    · rw [hSlot.1, hSlot.2, table_set_self, hTag] at hTag'
      cases hTag'
      rw [hSlot.1, hSlot.2]
      exact ⟨hWay, hPos⟩
    · rw [table_set_of_ne e hSlot] at hTag'
      exact hPlaced.home way' pos' tag' hTag'
  · intro way₁ pos₁ way₂ pos₂ tag' hFirst hSecond
    by_cases hSlot₁ : way₁ = way ∧ pos₁ = pos
    · by_cases hSlot₂ : way₂ = way ∧ pos₂ = pos
      · exact ⟨hSlot₁.1.trans hSlot₂.1.symm,
          hSlot₁.2.trans hSlot₂.2.symm⟩
      · rw [hSlot₁.1, hSlot₁.2, table_set_self, hTag] at hFirst
        cases hFirst
        rw [table_set_of_ne e hSlot₂] at hSecond
        exact absurd (hNew way₂ pos₂ hSecond) hSlot₂
    · by_cases hSlot₂ : way₂ = way ∧ pos₂ = pos
      · rw [hSlot₂.1, hSlot₂.2, table_set_self, hTag] at hSecond
        cases hSecond
        rw [table_set_of_ne e hSlot₁] at hFirst
        exact absurd (hNew way₁ pos₁ hFirst) hSlot₁
      · rw [table_set_of_ne e hSlot₁] at hFirst
        rw [table_set_of_ne e hSlot₂] at hSecond
        exact hPlaced.unique way₁ pos₁ way₂ pos₂ tag' hFirst hSecond
  · intro way' pos' tag' hTag'
    by_cases hSlot : way' = way ∧ pos' = pos
    · rw [hSlot.1, hSlot.2, table_set_self]
      exact hValid
    · rw [table_set_of_ne e hSlot] at hTag' ⊢
      exact hPlaced.occupied way' pos' tag' hTag'

theorem wayAt_lt
    (c : Config)
    (k : Nat) :
    wayAt c k < c.ways := by
  have hLength : c.permutation.length = c.ways := by
    rw [c.isPermutation.length_eq, List.length_range]
  have hLt : k % c.ways < c.permutation.length := by
    rw [hLength]
    exact Nat.mod_lt k c.ways_pos
  have hGet : wayAt c k = c.permutation[k % c.ways] := by
    simp [wayAt, List.getD, List.getElem?_eq_getElem hLt]
  rw [hGet]
  exact List.mem_range.mp
    (c.isPermutation.mem_iff.mp (List.getElem_mem hLt))

/-
  The eviction loop places the element or ends with another
  one in hand; no translation is lost.
-/
theorem evict_spec
    (retries k : Nat)
    {old : Element}
    (hPlaced : Placed c n)
    (hOld : Displaced n old) :
    Placed c (evict c retries k n old).2.1 ∧
      (evict c retries k n old).2.1.size = n.size ∧
      ((evict c retries k n old).1 = true →
        ∀ tag i ppn,
          Content (evict c retries k n old).2.1 tag i ppn ↔
            Content n tag i ppn ∨ old.Has tag i ppn) ∧
      ((evict c retries k n old).1 = false →
        Displaced (evict c retries k n old).2.1
            (evict c retries k n old).2.2 ∧
          ∀ tag i ppn,
            Content (evict c retries k n old).2.1 tag i ppn ∨
                (evict c retries k n old).2.2.Has tag i ppn ↔
              Content n tag i ppn ∨ old.Has tag i ppn) := by
  induction retries generalizing k n old with
  | zero =>
      refine ⟨hPlaced, rfl, ?_, ?_⟩
      · intro hTrue
        cases hTrue
      · intro _
        exact ⟨hOld, fun tag i ppn => Iff.rfl⟩
  | succ retries ih =>
      rcases hOld with ⟨⟨tag, hTag, hNot⟩, hValid⟩
      have hGet : old.tag.getD 0 = tag := by
        rw [hTag, Option.getD_some]
      have hSet : Placed c (n.set (wayAt c k)
          (position c n tag (wayAt c k)) old) := by
        refine placed_set hPlaced (wayAt_lt c k) rfl hTag ?_ hValid
        intro way' pos' hTag'
        exact absurd ⟨way', pos', hTag'⟩ hNot
      rw [evict]
      simp only [hGet]
      set way := wayAt c k
      set pos := position c n tag way
      by_cases hEmpty : (n.table way pos).tag = none
      · rw [if_pos hEmpty]
        refine ⟨?_, rfl, ?_, ?_⟩
        · exact placed_congr hSet rfl rfl
        · intro _ tag' i ppn
          have hContent :=
            content_set (n := n) way pos old tag' i ppn
          have hNone : ¬ (n.table way pos).Has tag' i ppn := by
            intro hHas
            rw [hHas.1] at hEmpty
            cases hEmpty
          rw [← hContent]
          simp only [hNone, or_false]
          exact content_congr rfl tag' i ppn
        · intro hFalse
          cases hFalse
      · rw [if_neg hEmpty]
        rcases Option.ne_none_iff_exists'.mp hEmpty with
          ⟨tag₂, hTag₂⟩
        have hNe : (n.table way pos).tag ≠ old.tag := by
          intro hEq
          exact hNot ⟨way, pos, hEq.trans hTag⟩
        rw [if_pos hNe]
        have hDisplaced : Displaced (n.set way pos old)
            (n.table way pos) := by
          refine ⟨⟨tag₂, hTag₂, ?_⟩,
            hPlaced.occupied way pos tag₂ hTag₂⟩
          rintro ⟨way', pos', hTag'⟩
          by_cases hSlot : way' = way ∧ pos' = pos
          · rw [hSlot.1, hSlot.2, table_set_self] at hTag'
            exact hNe (hTag₂.trans hTag'.symm)
          · rw [table_set_of_ne old hSlot] at hTag'
            exact hSlot
              (hPlaced.unique way' pos' way pos tag₂ hTag' hTag₂)
        rcases ih (k + 1) hSet hDisplaced with
          ⟨hPlaced', hSize, hPlace, hFail⟩
        refine ⟨hPlaced', hSize, ?_, ?_⟩
        · intro hTrue tag' i ppn
          rw [hPlace hTrue tag' i ppn]
          exact content_set way pos old tag' i ppn
        · intro hFalse
          refine ⟨(hFail hFalse).1, fun tag' i ppn => ?_⟩
          rw [(hFail hFalse).2 tag' i ppn]
          exact content_set way pos old tag' i ppn

/- The entry translates the page, and the page is new. -/
structure Insertable
    (n : Nest)
    (entry : Element)
    (vpn : Nat) : Prop where
  tag : entry.tag = some (vpn / 8)
  valid : entry.validityBits (blockIndex vpn) = true
  fresh : ∀ ppn, ¬ Content n (vpn / 8) (blockIndex vpn) ppn

/- The translation that an insertion adds. -/
def Adds
    (entry : Element)
    (vpn tag : Nat)
    (i : Fin 8)
    (ppn : Nat) : Prop :=
  tag = vpn / 8 ∧ i = blockIndex vpn ∧
    entry.frames (blockIndex vpn) = ppn

theorem has_only_iff
    {entry : Element}
    {vpn : Nat}
    (hInsert : Insertable n entry vpn)
    (tag : Nat)
    (i : Fin 8)
    (ppn : Nat) :
    (entry.only (blockIndex vpn)).Has tag i ppn ↔
      Adds entry vpn tag i ppn := by
  unfold Element.Has Element.only Adds
  simp only [hInsert.tag, hInsert.valid]
  by_cases hIndex : i = blockIndex vpn
  · simp [hIndex, eq_comm]
  · simp [hIndex]

/- An absent translation has an element or a free tag. -/
theorem not_stores_of_findUpdate
    (hPlaced : Placed c n)
    {entry : Element}
    {vpn : Nat}
    (hInsert : Insertable n entry vpn)
    (hFind : findUpdate c n (vpn / 8) (blockIndex vpn) = none) :
    ¬ Stores n (vpn / 8) := by
  rintro ⟨way, pos, hTag⟩
  rcases hPlaced.home way pos _ hTag with ⟨hWay, hPos⟩
  have hMissed := List.find?_eq_none.mp hFind way
    (List.mem_range.mpr hWay)
  rw [← hPos] at hMissed
  simp only [hTag, decide_true, Bool.true_and] at hMissed
  apply hInsert.fresh ((n.table way pos).frames _)
  exact ⟨way, pos, hTag, by simpa using hMissed, rfl⟩

theorem findUpdate_eq_some
    {tag way : Nat}
    {i : Fin 8}
    (hFind : findUpdate c n tag i = some way) :
    way < c.ways ∧
      (n.table way (position c n tag way)).tag = some tag ∧
      (n.table way (position c n tag way)).validityBits i =
        false := by
  have hMem := List.mem_of_find?_eq_some hFind
  have hHit := List.find?_some hFind
  simp only [Bool.and_eq_true, decide_eq_true_eq,
    Bool.not_eq_true'] at hHit
  exact ⟨List.mem_range.mp hMem, hHit.1, hHit.2⟩

/- The element after a translation was added in place. -/
def Element.put
    (e : Element)
    (index : Fin 8)
    (ppn : Nat) : Element :=
  { e with
    validityBits := Function.update e.validityBits index true
    frames := Function.update e.frames index ppn }

theorem has_put_iff
    {e : Element}
    {tag : Nat}
    {index : Fin 8}
    (hTag : e.tag = some tag)
    (hUnset : e.validityBits index = false)
    (ppn tag' : Nat)
    (i : Fin 8)
    (ppn' : Nat) :
    (e.put index ppn).Has tag' i ppn' ↔
      e.Has tag' i ppn' ∨ tag' = tag ∧ i = index ∧ ppn = ppn' := by
  unfold Element.Has Element.put
  simp only [hTag]
  by_cases hIndex : i = index
  · subst hIndex
    simp [hUnset, eq_comm]
  · simp [hIndex]

/- An insertion whose tag is present. -/
theorem insertElement_of_findUpdate
    (hPlaced : Placed c n)
    {entry : Element}
    {vpn way : Nat}
    (hFind : findUpdate c n (vpn / 8) (blockIndex vpn) = some way)
    (nonResident : List Element) :
    ∃ n',
      insertElement c n nonResident entry vpn =
          (true, n', nonResident) ∧
        Placed c n' ∧ n'.size = n.size ∧
        ∀ tag i ppn,
          Content n' tag i ppn ↔
            Content n tag i ppn ∨ Adds entry vpn tag i ppn := by
  rcases findUpdate_eq_some hFind with ⟨hWay, hTag, hUnset⟩
  set pos := position c n (vpn / 8) way with hPos
  refine ⟨n.set way pos ((n.table way pos).put
    (blockIndex vpn) (entry.frames (blockIndex vpn))),
    ?_, ?_, rfl, ?_⟩
  · simp [insertElement, hFind, Element.put, Element.only, ← hPos]
  · refine placed_set hPlaced hWay hPos hTag ?_ ?_
    · intro way' pos' hTag'
      exact hPlaced.unique way' pos' way pos _ hTag' hTag
    · exact ⟨blockIndex vpn, by simp [Element.put]⟩
  · intro tag i ppn
    have hPut := has_put_iff hTag hUnset
      (entry.frames (blockIndex vpn)) tag i ppn
    have hSet := content_set (n := n) way pos
      ((n.table way pos).put (blockIndex vpn)
        (entry.frames (blockIndex vpn))) tag i ppn
    have hSelf : (n.table way pos).Has tag i ppn →
        Content n tag i ppn := fun hHas => ⟨way, pos, hHas⟩
    have hKept : (n.table way pos).Has tag i ppn →
        Content (n.set way pos ((n.table way pos).put
          (blockIndex vpn) (entry.frames (blockIndex vpn))))
          tag i ppn := by
      intro hHas
      refine ⟨way, pos, ?_⟩
      rw [table_set_self]
      exact hPut.mpr (Or.inl hHas)
    unfold Adds
    tauto

/-
  An insertion adds the translation, or fails with one
  element without a slot and every translation in the tables
  or in that element.
-/
theorem insertElement_spec
    (hPlaced : Placed c n)
    {entry : Element}
    {vpn : Nat}
    (hInsert : Insertable n entry vpn)
    (nonResident : List Element) :
    (∃ n',
      insertElement c n nonResident entry vpn =
          (true, n', nonResident) ∧
        Placed c n' ∧ n'.size = n.size ∧
        ∀ tag i ppn,
          Content n' tag i ppn ↔
            Content n tag i ppn ∨ Adds entry vpn tag i ppn) ∨
    ∃ n' old,
      insertElement c n nonResident entry vpn =
          (false, n', nonResident ++ [old]) ∧
        Placed c n' ∧ n'.size = n.size ∧ Displaced n' old ∧
        ∀ tag i ppn,
          Content n' tag i ppn ∨ old.Has tag i ppn ↔
            Content n tag i ppn ∨ Adds entry vpn tag i ppn := by
  cases hFind : findUpdate c n (vpn / 8) (blockIndex vpn) with
  | some way =>
      left
      exact insertElement_of_findUpdate hPlaced hFind nonResident
  | none =>
      have hNot := not_stores_of_findUpdate hPlaced hInsert hFind
      have hDisplaced : Displaced n
          (entry.only (blockIndex vpn)) := by
        refine ⟨⟨vpn / 8, hInsert.tag, hNot⟩, blockIndex vpn, ?_⟩
        simp [Element.only, hInsert.valid]
      have hEvict := evict_spec 48 0 hPlaced hDisplaced
      simp only [has_only_iff hInsert] at hEvict
      rcases hLoop : evict c 48 0 n
          (entry.only (blockIndex vpn)) with ⟨placed, n', old⟩
      rw [hLoop] at hEvict
      rcases hEvict with ⟨hPlaced', hSize, hPlace, hFail⟩
      cases placed with
      | true =>
          left
          refine ⟨n', ?_, hPlaced', hSize, hPlace rfl⟩
          simp [insertElement, hFind, hLoop]
      | false =>
          right
          rcases hFail rfl with ⟨hOld, hContent⟩
          rcases hOld.1 with ⟨tag, hTag, -⟩
          refine ⟨n', old, ?_, hPlaced', hSize, hOld, hContent⟩
          simp only at hTag
          simp [insertElement, hFind, hLoop, hTag]

end Cuckoo

end Virtuoso
