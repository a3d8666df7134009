import Virtuoso.PageTable.Hdc.Basic

/-
  The invariant of an open-addressing table: no probe is
  broken by a gap, the entry count is exact and one slot is
  free. Tags are never removed, so a deletion leaves no gap,
  and a resize copies every tag.

  Main declarations:
    * `Hdc.Slotted`
    * `Hdc.deleteFrom_spec`
-/

------------------------------------------------------------
-- Slots, Walks And Resizing
------------------------------------------------------------

namespace Virtuoso

namespace Hdc

variable {c : Config} {size : Nat} {slots : Nat → Entry}

/- The tags of the slots. -/
def tags (slots : Nat → Entry) (p : Nat) : Option Nat :=
  (slots p).tag

/- Unbroken probes, and nothing in an empty slot. -/
structure Slotted
    (c : Config)
    (size : Nat)
    (slots : Nat → Entry) : Prop where
  chained : Probe.Chained size
    (fun tag => hashFunction c tag size) (tags slots)
  blank : ∀ p, (slots p).tag = none → ∀ i, (slots p).valid i = false

/- The slots hold the translations of a map. -/
def Represents
    (m : Nat → Option Nat)
    (slots : Nat → Entry) : Prop :=
  ∀ vpn ppn, m vpn = some ppn ↔
    ∃ p, (slots p).tag = some (vpn / 8) ∧
      (slots p).valid (blockOffset vpn) = true ∧
        (slots p).ppn (blockOffset vpn) = ppn

/- The counter is right and leaves a slot free. -/
structure Inv (c : Config) (t : Table) : Prop where
  slotted : Slotted c t.size t.slots
  counted : t.entryCount = Probe.occupied t.size (tags t.slots)
  free : t.entryCount < t.size

theorem tags_update
    (slots : Nat → Entry)
    (p : Nat)
    (e : Entry) :
    tags (Function.update slots p e) =
      Function.update (tags slots) p e.tag := by
  funext q
  exact Function.apply_update (fun _ e => Entry.tag e) slots p e q

theorem hashFunction_lt
    (hPos : 0 < size)
    (tag : Nat) :
    hashFunction c tag size < size :=
  Nat.mod_lt _ hPos

/- A stop that ignores the other tags. -/
def StopsFor (tag : Nat) (stop : Entry → Bool) : Prop :=
  ∀ e : Entry, e.tag ≠ none → e.tag ≠ some tag → stop e = false

/- A probe for a stored tag ends at its slot. -/
theorem probeFor_stored
    (hSlotted : Slotted c size slots)
    {stop : Entry → Bool}
    {tag p : Nat}
    (hStops : StopsFor tag stop)
    (hTag : (slots p).tag = some tag)
    (hStop : stop (slots p) = true) :
    (probeFor c stop slots size tag).2 = some p := by
  rcases hSlotted.chained.first hTag with
    ⟨d, hD, hSlot, hBefore⟩
  have hPos : 0 < size := by omega
  unfold probeFor
  rw [Probe.probe_eq (hashFunction_lt hPos tag) hD
    (by rw [hSlot]; exact hStop)
    (fun e hE =>
      hStops _ (hBefore e hE).1 (hBefore e hE).2)]
  rw [hSlot]

/- A probe for a tag that is not stored ends at a gap. -/
theorem probeFor_gap
    {stop : Entry → Bool}
    {tag : Nat}
    (hFree : ∃ p < size, tags slots p = none)
    (hStops : StopsFor tag stop)
    (hGap : ∀ e : Entry, e.tag = none → stop e = true)
    (hNew : ∀ p, (slots p).tag ≠ some tag) :
    ∃ d < size,
      (probeFor c stop slots size tag).2 =
        some (Probe.slotAt size (hashFunction c tag size) d) ∧
      tags slots
        (Probe.slotAt size (hashFunction c tag size) d) = none ∧
      ∀ e < d, tags slots
        (Probe.slotAt size (hashFunction c tag size) e) ≠ none := by
  have hPos : 0 < size := by
    rcases hFree with ⟨p, hP, -⟩
    omega
  rcases Probe.exists_first_empty hFree
      (hashFunction_lt (c := c) hPos tag) with
    ⟨d, hD, hNone, hBefore⟩
  refine ⟨d, hD, ?_, hNone, hBefore⟩
  unfold probeFor
  rw [Probe.probe_eq (hashFunction_lt hPos tag) hD
    (hGap _ hNone)
    (fun e hE => hStops _ (hBefore e hE) (hNew _))]

variable {t : Table}

theorem Inv.exists_free
    (hInv : Inv c t) :
    ∃ p < t.size, tags t.slots p = none := by
  apply Probe.exists_empty_of_occupied_lt
  rw [← hInv.counted]
  exact hInv.free

theorem stopsFor_stopsWalk
    (tag : Nat) :
    StopsFor tag (stopsWalk tag) := by
  intro e hNone hOther
  simp [stopsWalk, hNone, hOther]

variable {m : Nat → Option Nat}

/- A stored block has the translations of the map. -/
theorem represents_stored
    (hSlotted : Slotted c size slots)
    (hMap : Represents m slots)
    {vpn p : Nat}
    (hTag : (slots p).tag = some (vpn / 8)) :
    m vpn =
      if (slots p).valid (blockOffset vpn) then
        some ((slots p).ppn (blockOffset vpn))
      else
        none := by
  by_cases hValid : (slots p).valid (blockOffset vpn) = true
  · rw [if_pos hValid]
    exact (hMap vpn _).mpr ⟨p, hTag, hValid, rfl⟩
  · rw [if_neg hValid]
    apply Option.eq_none_iff_forall_ne_some.mpr
    intro ppn hSome
    rcases (hMap vpn ppn).mp hSome with
      ⟨q, hTag', hValid', -⟩
    have hEq := hSlotted.chained.unique p q _ hTag hTag'
    subst hEq
    exact hValid hValid'

theorem represents_none
    (hMap : Represents m slots)
    {vpn : Nat}
    (hNew : ∀ p, (slots p).tag ≠ some (vpn / 8)) :
    m vpn = none := by
  apply Option.eq_none_iff_forall_ne_some.mpr
  intro ppn hSome
  rcases (hMap vpn ppn).mp hSome with ⟨p, hTag, -⟩
  exact hNew p hTag

/- A walk ends, with the translation of the map. -/
theorem walkTable_spec
    (hInv : Inv c t)
    (hMap : Represents m t.slots)
    (address : Nat)
    (pageSize : PageSize) :
    (walkTable c t address pageSize).map Prod.snd =
      some ((m (pageSize.vpn address)).map
        (fun ppn => (ppn, pageSize.bits))) := by
  by_cases hStored :
      ∃ p, (t.slots p).tag = some (pageSize.vpn address / 8)
  · rcases hStored with ⟨p, hTag⟩
    have hProbe := probeFor_stored hInv.slotted
      (stopsFor_stopsWalk _) hTag (by simp [stopsWalk, hTag])
    rw [represents_stored hInv.slotted hMap hTag]
    simp only [walkTable, hProbe, Option.map_some, hTag,
      decide_true, Bool.true_and]
    split
    · rfl
    · rfl
  · push Not at hStored
    rcases probeFor_gap (c := c) hInv.exists_free
        (stopsFor_stopsWalk _) (fun e hNone => by
          simp [stopsWalk, hNone]) hStored with
      ⟨d, -, hProbe, hNone, -⟩
    unfold tags at hNone
    rw [represents_none hMap hStored]
    simp [walkTable, hProbe, hNone]

variable {e : Entry}

/- A new entry in a gap behind no other gap. -/
theorem Slotted.fill
    (hSlotted : Slotted c size slots)
    {tag d : Nat}
    (hTag : e.tag = some tag)
    (hNew : ∀ p, (slots p).tag ≠ some tag)
    (hD : d < size)
    (hBefore : ∀ e < d, tags slots
      (Probe.slotAt size (hashFunction c tag size) e) ≠ none) :
    Slotted c size
      (Function.update slots
        (Probe.slotAt size (hashFunction c tag size) d)
        e) := by
  constructor
  · rw [tags_update, hTag]
    exact hSlotted.chained.insert hNew hD hBefore
  · intro p hNone i
    by_cases hEq : p = Probe.slotAt size (hashFunction c tag size) d
    · rw [hEq, Function.update_self, hTag] at hNone
      cases hNone
    · rw [Function.update_of_ne hEq] at hNone ⊢
      exact hSlotted.blank p hNone i

variable {p : Nat}

/- Changing a tagged entry in place keeps the probes. -/
theorem Slotted.rewrite
    (hSlotted : Slotted c size slots)
    (hTag : e.tag = (slots p).tag)
    (hSome : e.tag ≠ none) :
    Slotted c size (Function.update slots p e) ∧
      tags (Function.update slots p e) = tags slots := by
  have hTags : tags (Function.update slots p e) = tags slots := by
    rw [tags_update, hTag]
    exact Function.update_eq_self p (tags slots)
  refine ⟨⟨hTags ▸ hSlotted.chained, ?_⟩, hTags⟩
  intro q hNone i
  by_cases hEq : q = p
  · rw [hEq, Function.update_self] at hNone
    exact absurd hNone hSome
  · rw [Function.update_of_ne hEq] at hNone ⊢
    exact hSlotted.blank q hNone i

theorem stopsFor_isEmpty
    {tag : Nat} :
    StopsFor tag isEmpty := by
  intro e hNone _
  simp [isEmpty, hNone]

/- The tagged entries after a gap is filled. -/
theorem exists_update_iff
    {e e' : Entry}
    (hNone : tags slots p = none)
    (hSome : e'.tag ≠ none) :
    (∃ q, Function.update slots p e q = e') ↔
      e = e' ∨ ∃ q, slots q = e' := by
  constructor
  · rintro ⟨q, hEq⟩
    by_cases hSlot : q = p
    · rw [hSlot, Function.update_self] at hEq
      exact Or.inl hEq
    · rw [Function.update_of_ne hSlot] at hEq
      exact Or.inr ⟨q, hEq⟩
  · rintro (hEq | ⟨q, hEq⟩)
    · exact ⟨p, by rw [Function.update_self, hEq]⟩
    · refine ⟨q, ?_⟩
      rw [Function.update_of_ne, hEq]
      intro hSlot
      rw [← hEq, hSlot] at hSome
      exact hSome hNone

/-
  The new slots after the first `k` slots of the old table
  were copied.
-/
structure Copied
    (c : Config)
    (old : Nat → Entry)
    (newSize k : Nat)
    (slots : Nat → Entry) : Prop where
  slotted : Slotted c newSize slots
  counted : Probe.occupied newSize (tags slots) =
    Probe.occupied k (tags old)
  same : ∀ e : Entry, e.tag ≠ none →
    ((∃ p, slots p = e) ↔ ∃ j < k, old j = e)

/- Copying the next slot. -/
theorem copied_succ
    {old : Nat → Entry}
    {oldSize newSize k : Nat}
    (hOld : Slotted c oldSize old)
    (hCopied : Copied c old newSize k slots)
    (hRoom : Probe.occupied k (tags old) < newSize) :
    Copied c old newSize (k + 1)
      (rehashEntry c newSize slots (old k)) := by
  cases hTag : (old k).tag with
  | none =>
      have hRehash : rehashEntry c newSize slots (old k) =
          slots := by
        simp [rehashEntry, hTag]
      rw [hRehash]
      refine ⟨hCopied.slotted, ?_, ?_⟩
      · rw [Probe.occupied_succ, hCopied.counted]
        simp [tags, hTag]
      · intro e hSome
        rw [hCopied.same e hSome]
        constructor
        · rintro ⟨j, hJ, hEq⟩
          exact ⟨j, by omega, hEq⟩
        · rintro ⟨j, hJ, hEq⟩
          refine ⟨j, ?_, hEq⟩
          by_contra hLast
          have hK : j = k := by omega
          rw [← hEq, hK] at hSome
          exact hSome hTag
  | some tag =>
      have hNew : ∀ p, (slots p).tag ≠ some tag := by
        intro p hStored
        rcases (hCopied.same (slots p) (by
            rw [hStored]; exact Option.some_ne_none tag)).mp
            ⟨p, rfl⟩ with ⟨j, hJ, hEq⟩
        rw [← hEq] at hStored
        have := hOld.chained.unique j k tag hStored hTag
        omega
      have hFree := Probe.exists_empty_of_occupied_lt
        (n := newSize) (by rw [hCopied.counted]; exact hRoom)
      rcases probeFor_gap (c := c) hFree
          stopsFor_isEmpty (fun e hNone => by
            simp [isEmpty, hNone]) hNew with
        ⟨d, hD, hProbe, hNone, hBefore⟩
      have hRehash : rehashEntry c newSize slots (old k) =
          Function.update slots (Probe.slotAt newSize
            (hashFunction c tag newSize) d) (old k) := by
        simp [rehashEntry, hTag, hProbe]
      rw [hRehash]
      refine ⟨hCopied.slotted.fill hTag hNew hD hBefore, ?_, ?_⟩
      · rw [tags_update, hTag, Probe.occupied_update
          (Probe.slotAt_lt (by omega) _ _) hNone,
          hCopied.counted, Probe.occupied_succ]
        simp [tags, hTag]
      · intro e hSome
        rw [exists_update_iff hNone hSome, hCopied.same e hSome]
        constructor
        · rintro (hEq | ⟨j, hJ, hEq⟩)
          · exact ⟨k, by omega, hEq⟩
          · exact ⟨j, by omega, hEq⟩
        · rintro ⟨j, hJ, hEq⟩
          by_cases hLast : j = k
          · rw [hLast] at hEq
            exact Or.inl hEq
          · exact Or.inr ⟨j, by omega, hEq⟩

/- All slots are copied. -/
theorem copied_foldl
    {old : Nat → Entry}
    {oldSize newSize : Nat}
    (hOld : Slotted c oldSize old)
    (hRoom : Probe.occupied oldSize (tags old) < newSize)
    {k : Nat}
    (hK : k ≤ oldSize) :
    Copied c old newSize k
      ((List.range k).foldl
        (fun slots j => rehashEntry c newSize slots (old j))
        (fun _ => Entry.empty)) := by
  induction k with
  | zero =>
      refine ⟨⟨Probe.chained_empty, ?_⟩, ?_, ?_⟩
      · intro p _ i
        rfl
      · exact (Probe.occupied_empty (κ := Nat)).trans (by
          simp [Probe.occupied])
      · intro e hSome
        constructor
        · rintro ⟨p, hEq⟩
          exact absurd (congrArg Entry.tag hEq).symm hSome
        · rintro ⟨j, hJ, -⟩
          omega
  | succ k ih =>
      rw [List.range_succ, List.foldl_append]
      apply copied_succ hOld (ih (by omega))
      have := Probe.occupied_mono (m := k) (n := oldSize)
        (by omega) (tags old)
      omega

/- The same tagged entries hold the same translations. -/
theorem represents_congr
    {slots' : Nat → Entry}
    (hSame : ∀ e : Entry, e.tag ≠ none →
      ((∃ p, slots' p = e) ↔ ∃ p, slots p = e))
    (hMap : Represents m slots) :
    Represents m slots' := by
  intro vpn ppn
  rw [hMap vpn ppn]
  constructor
  · rintro ⟨p, hTag, hValid, hPpn⟩
    rcases (hSame (slots p) (by simp [hTag])).mpr
      ⟨p, rfl⟩ with ⟨q, hEq⟩
    exact ⟨q, by rw [hEq]; exact ⟨hTag, hValid, hPpn⟩⟩
  · rintro ⟨p, hTag, hValid, hPpn⟩
    rcases (hSame (slots' p) (by simp [hTag])).mp
      ⟨p, rfl⟩ with ⟨q, hEq⟩
    exact ⟨q, by rw [hEq]; exact ⟨hTag, hValid, hPpn⟩⟩

/- A resize keeps the translations and makes room. -/
theorem resizeTable_spec
    (hSlotted : Slotted c t.size t.slots)
    (hCount : t.entryCount = Probe.occupied t.size (tags t.slots))
    (hPos : 0 < t.size)
    (hLe : t.entryCount ≤ t.size)
    (hMap : Represents m t.slots)
    (kernelStartAddress : Nat) :
    Inv c (resizeTable c t kernelStartAddress).1 ∧
      Represents m
        (resizeTable c t kernelStartAddress).1.slots := by
  have hLarger : t.size < t.size * c.resizeFactor := by
    have := Nat.mul_le_mul_left t.size c.two_le_resizeFactor
    omega
  have hRoom : Probe.occupied t.size (tags t.slots) <
      t.size * c.resizeFactor := by
    omega
  have hCopied := copied_foldl hSlotted hRoom (Nat.le_refl t.size)
  refine ⟨⟨hCopied.slotted, ?_, ?_⟩, ?_⟩
  · exact hCount.trans hCopied.counted.symm
  · exact Nat.lt_of_le_of_lt hLe hLarger
  · apply represents_congr _ hMap
    intro e hSome
    rw [show (∃ p, (resizeTable c t
      kernelStartAddress).1.slots p = e) ↔ _ from
        hCopied.same e hSome]
    constructor
    · rintro ⟨j, -, hEq⟩
      exact ⟨j, hEq⟩
    · rintro ⟨p, hEq⟩
      refine ⟨p, ?_, hEq⟩
      cases hTag : e.tag with
      | none => exact absurd hTag hSome
      | some tag =>
          rw [← hEq] at hTag
          exact hSlotted.chained.lt hTag

------------------------------------------------------------
-- Updates And Deletions
------------------------------------------------------------

/- The page number of a block and an offset in it. -/
theorem vpn_ext
    {vpn vpn' : Nat}
    (hTag : vpn / 8 = vpn' / 8)
    (hOffset : blockOffset vpn = blockOffset vpn') :
    vpn = vpn' := by
  have hMod : vpn % 8 = vpn' % 8 := congrArg Fin.val hOffset
  omega

/-
  Rewriting one translation of a block, where the block has
  the tag or is a gap for it.
-/
theorem represents_update
    (hMap : Represents m slots)
    {vpn p : Nat}
    {ppn : Option Nat}
    (hTag : e.tag = some (vpn / 8))
    (hOnly : ∀ q, (slots q).tag = some (vpn / 8) → q = p)
    (hOther : ∀ i, i ≠ blockOffset vpn →
      e.valid i = (slots p).valid i ∧ e.ppn i = (slots p).ppn i)
    (hOwn : (slots p).tag = some (vpn / 8) ∨
      (slots p).tag = none ∧ ∀ i, (slots p).valid i = false)
    (hWritten : ∀ x,
      ppn = some x ↔ e.valid (blockOffset vpn) = true ∧
        e.ppn (blockOffset vpn) = x) :
    Represents (Function.update m vpn ppn)
      (Function.update slots p e) := by
  intro vpn' x
  by_cases hVpn : vpn' = vpn
  · subst hVpn
    rw [Function.update_self, hWritten]
    constructor
    · rintro ⟨hValid, hPpn⟩
      exact ⟨p, by
        rw [Function.update_self]
        exact ⟨hTag, hValid, hPpn⟩⟩
    · rintro ⟨q, hTag', hValid, hPpn⟩
      by_cases hEq : q = p
      · rw [hEq, Function.update_self] at hValid hPpn
        exact ⟨hValid, hPpn⟩
      · rw [Function.update_of_ne hEq] at hTag'
        exact absurd (hOnly q hTag') hEq
  · rw [Function.update_of_ne hVpn, hMap vpn' x]
    have hOffset : vpn' / 8 = vpn / 8 →
        blockOffset vpn' ≠ blockOffset vpn :=
      fun hSame hOff => hVpn (vpn_ext hSame hOff)
    constructor
    · rintro ⟨q, hTag', hValid, hPpn⟩
      refine ⟨q, ?_⟩
      by_cases hEq : q = p
      · subst hEq
        rcases hOwn with hOwn | ⟨hOwn, -⟩
        · have hSame : vpn' / 8 = vpn / 8 :=
            Option.some.inj (hTag'.symm.trans hOwn)
          rcases hOther _ (hOffset hSame) with
            ⟨hValid', hPpn'⟩
          rw [Function.update_self, hTag, hSame, hValid', hPpn']
          exact ⟨rfl, hValid, hPpn⟩
        · rw [hOwn] at hTag'
          cases hTag'
      · rw [Function.update_of_ne hEq]
        exact ⟨hTag', hValid, hPpn⟩
    · rintro ⟨q, hTag', hValid, hPpn⟩
      refine ⟨q, ?_⟩
      by_cases hEq : q = p
      · subst hEq
        rw [Function.update_self] at hTag' hValid hPpn
        have hSame : vpn' / 8 = vpn / 8 :=
          Option.some.inj (hTag'.symm.trans hTag)
        rcases hOther _ (hOffset hSame) with
          ⟨hValid', hPpn'⟩
        rw [hValid'] at hValid
        rw [hPpn'] at hPpn
        rcases hOwn with hOwn | ⟨-, hBlank⟩
        · exact ⟨by rw [hOwn, hSame], hValid, hPpn⟩
        · rw [hBlank] at hValid
          cases hValid
      · rw [Function.update_of_ne hEq] at hTag' hValid hPpn
        exact ⟨hTag', hValid, hPpn⟩

/- What a written translation reads as. -/
theorem put_read
    (e : Entry)
    (offset : Fin 8)
    (ppn x : Nat) :
    some ppn = some x ↔
      (e.put offset ppn).valid offset = true ∧
        (e.put offset ppn).ppn offset = x := by
  simp [Entry.put]

theorem put_other
    (e : Entry)
    {offset i : Fin 8}
    (ppn : Nat)
    (hNe : i ≠ offset) :
    (e.put offset ppn).valid i = e.valid i ∧
      (e.put offset ppn).ppn i = e.ppn i := by
  simp [Entry.put, hNe]

theorem stopsFor_stopsUpdate
    (tag : Nat)
    (offset : Fin 8) :
    StopsFor tag (stopsUpdate tag offset) := by
  intro e hNone hOther
  simp [stopsUpdate, hNone, hOther]

theorem stopsFor_stopsDelete
    (tag : Nat)
    (offset : Fin 8) :
    StopsFor tag (stopsDelete tag offset) := by
  intro e hNone hOther
  simp [stopsDelete, hNone, hOther]

/- Changing a tagged entry in place keeps the invariant. -/
theorem inv_rewrite
    (hInv : Inv c t)
    (hTag : e.tag = (t.slots p).tag)
    (hSome : e.tag ≠ none) :
    Inv c { t with slots := Function.update t.slots p e } := by
  rcases hInv.slotted.rewrite hTag hSome with
    ⟨hSlotted, hTags⟩
  refine ⟨hSlotted, ?_, hInv.free⟩
  simp only [hTags]
  exact hInv.counted

/- The update of a block that is in the table. -/
theorem updateTable_stored
    (hInv : Inv c t)
    (hMap : Represents m t.slots)
    {vpn p : Nat}
    (hTag : (t.slots p).tag = some (vpn / 8))
    (hUnmapped : m vpn = none)
    (ppn kernelStartAddress : Nat) :
    Inv c (updateTable c t vpn ppn kernelStartAddress).1 ∧
      Represents (Function.update m vpn (some ppn))
        (updateTable c t vpn ppn kernelStartAddress).1.slots := by
  have hInvalid : (t.slots p).valid (blockOffset vpn) = false := by
    have hRead := represents_stored hInv.slotted hMap hTag
    rw [hUnmapped] at hRead
    by_contra hValid
    simp [Bool.eq_true_of_not_eq_false hValid] at hRead
  have hProbe := probeFor_stored hInv.slotted
    (stopsFor_stopsUpdate _ (blockOffset vpn)) hTag
    (by simp [stopsUpdate, hTag, hInvalid])
  have hUpdate :
      updateTable c t vpn ppn kernelStartAddress =
        ({ t with
            slots := Function.update t.slots p
              ((t.slots p).put (blockOffset vpn) ppn) },
          kernelStartAddress) := by
    simp [updateTable, hProbe, hTag]
  rw [hUpdate]
  refine ⟨inv_rewrite hInv rfl (by simp [Entry.put, hTag]), ?_⟩
  exact represents_update hMap hTag
    (fun q hQ => hInv.slotted.chained.unique q p _ hQ hTag)
    (fun i hNe => put_other _ _ hNe) (Or.inl hTag)
    (put_read _ _ _)

/-
  The update of a block that is not in the table. It takes a
  gap, and a table without another gap is resized.
-/
theorem updateTable_new
    (hInv : Inv c t)
    (hMap : Represents m t.slots)
    {vpn : Nat}
    (hNew : ∀ p, (t.slots p).tag ≠ some (vpn / 8))
    (ppn kernelStartAddress : Nat) :
    Inv c (updateTable c t vpn ppn kernelStartAddress).1 ∧
      Represents (Function.update m vpn (some ppn))
        (updateTable c t vpn ppn kernelStartAddress).1.slots := by
  rcases probeFor_gap (c := c) hInv.exists_free
      (stopsFor_stopsUpdate _ (blockOffset vpn))
      (fun e hNone => by simp [stopsUpdate, hNone])
      hNew with ⟨d, hD, hProbe, hNone, hBefore⟩
  obtain ⟨p, hP⟩ : ∃ p, p = Probe.slotAt t.size
      (hashFunction c (vpn / 8) t.size) d := ⟨_, rfl⟩
  obtain ⟨filled, hFilled⟩ : ∃ filled : Table, filled =
      { t with
        slots := Function.update t.slots p
          { (t.slots p).put (blockOffset vpn) ppn with
            tag := some (vpn / 8) }
        entryCount := t.entryCount + 1 } := ⟨_, rfl⟩
  have hPos : 0 < t.size := by
    have := hInv.free
    omega
  rw [← hP] at hProbe hNone
  have hSlotted : Slotted c filled.size filled.slots := by
    rw [hFilled, hP]
    exact hInv.slotted.fill rfl hNew hD hBefore
  have hCount : filled.entryCount =
      Probe.occupied filled.size (tags filled.slots) := by
    rw [hFilled]
    simp only [tags_update]
    rw [Probe.occupied_update
      (by rw [hP]; exact Probe.slotAt_lt hPos _ _) hNone,
      hInv.counted]
  have hFilledMap :
      Represents (Function.update m vpn (some ppn))
        filled.slots := by
    rw [hFilled]
    exact represents_update hMap rfl
      (fun q hQ => absurd hQ (hNew q))
      (fun i hNe => put_other _ _ hNe)
      (Or.inr ⟨hNone, hInv.slotted.blank p hNone⟩)
      (put_read _ _ _)
  have hUpdate :
      updateTable c t vpn ppn kernelStartAddress =
        if c.crossed filled.entryCount filled.size then
          resizeTable c filled kernelStartAddress
        else
          (filled, kernelStartAddress) := by
    have hGap : (t.slots p).tag = none := hNone
    rw [hFilled]
    simp only [updateTable, hProbe, hGap, if_true]
  have hSize : filled.size = t.size := by rw [hFilled]
  have hFull : filled.entryCount ≤ filled.size := by
    have := hInv.free
    rw [hFilled]
    simp only
    omega
  rw [hUpdate]
  by_cases hCrossed : c.crossed filled.entryCount filled.size = true
  · rw [if_pos hCrossed]
    exact resizeTable_spec hSlotted hCount (by omega) hFull
      hFilledMap _
  · rw [if_neg hCrossed]
    -- A full table has crossed every threshold up to 1.
    have hNotFull : filled.entryCount ≠ filled.size := by
      intro hEq
      rw [hEq] at hCrossed
      exact hCrossed (c.crossed_full _ (by omega))
    exact ⟨⟨hSlotted, hCount, by simp only; omega⟩, hFilledMap⟩

/- An update of an unmapped page adds it to the map. -/
theorem updateTable_spec
    (hInv : Inv c t)
    (hMap : Represents m t.slots)
    {vpn : Nat}
    (hUnmapped : m vpn = none)
    (ppn kernelStartAddress : Nat) :
    Inv c (updateTable c t vpn ppn kernelStartAddress).1 ∧
      Represents (Function.update m vpn (some ppn))
        (updateTable c t vpn ppn kernelStartAddress).1.slots := by
  by_cases hStored : ∃ p, (t.slots p).tag = some (vpn / 8)
  · rcases hStored with ⟨p, hTag⟩
    exact updateTable_stored hInv hMap hTag hUnmapped _ _
  · push Not at hStored
    exact updateTable_new hInv hMap hStored _ _

/- A deletion of a mapped page removes it from the map. -/
theorem deleteFrom_mapped
    (hInv : Inv c t)
    (hMap : Represents m t.slots)
    {vpn : Nat}
    (hMapped : m vpn ≠ none) :
    ∃ t', deleteFrom c t vpn = some t' ∧ Inv c t' ∧
      Represents (Function.update m vpn none) t'.slots := by
  rcases Option.ne_none_iff_exists'.mp hMapped with
    ⟨ppn, hSome⟩
  rcases (hMap vpn ppn).mp hSome with ⟨p, hTag, hValid, -⟩
  have hProbe := probeFor_stored hInv.slotted
    (stopsFor_stopsDelete _ (blockOffset vpn)) hTag
    (by simp [stopsDelete, hTag, hValid])
  have hDelete : deleteFrom c t vpn = some
      { t with
        slots := Function.update t.slots p
          { t.slots p with
            valid := Function.update (t.slots p).valid
              (blockOffset vpn) false } } := by
    simp [deleteFrom, hProbe, hTag, hValid]
  refine ⟨_, hDelete, inv_rewrite hInv rfl (by simp [hTag]), ?_⟩
  refine represents_update hMap ?_
    (fun q hQ => hInv.slotted.chained.unique q p _ hQ hTag)
    ?_ (Or.inl hTag) ?_
  · exact hTag
  · intro i hNe
    simp [hNe]
  · intro x
    simp

/- A probe of a table with a gap stops at some slot. -/
theorem probeFor_stops
    (stop : Entry → Bool)
    (tag : Nat)
    (hFree : ∃ p < size, tags slots p = none)
    (hGap : ∀ e : Entry, e.tag = none → stop e = true) :
    ∃ p < size,
      (probeFor c stop slots size tag).2 = some p ∧
        stop (slots p) = true := by
  rcases hFree with ⟨gap, hLt, hNone⟩
  have hHome : hashFunction c tag size < size :=
    hashFunction_lt (by omega) tag
  rcases Probe.exists_slotAt hHome hLt with ⟨d, hD, hSlot⟩
  have hExists : ∃ d, stop (slots (Probe.slotAt size
      (hashFunction c tag size) d)) = true :=
    ⟨d, by rw [hSlot]; exact hGap _ hNone⟩
  have hLe : Nat.find hExists ≤ d :=
    Nat.find_min' hExists (by rw [hSlot]; exact hGap _ hNone)
  refine ⟨Probe.slotAt size (hashFunction c tag size)
    (Nat.find hExists), Probe.slotAt_lt (by omega) _ _, ?_,
    Nat.find_spec hExists⟩
  unfold probeFor
  rw [Probe.probe_eq hHome (by omega) (Nat.find_spec hExists)
    (fun e hE => by simpa using Nat.find_min hExists hE)]

/- A deletion of a page that is not mapped does nothing. -/
theorem deleteFrom_unmapped
    (hInv : Inv c t)
    (hMap : Represents m t.slots)
    {vpn : Nat}
    (hUnmapped : m vpn = none) :
    deleteFrom c t vpn = some t := by
  rcases probeFor_stops (c := c)
      (stopsDelete (vpn / 8) (blockOffset vpn)) (vpn / 8)
      hInv.exists_free
      (fun e hNone => by simp [stopsDelete, hNone]) with
    ⟨p, -, hProbe, -⟩
  have hAbsent : ¬ ((t.slots p).tag = some (vpn / 8) ∧
      (t.slots p).valid (blockOffset vpn) = true) := by
    rintro ⟨hTag, hValid⟩
    rw [(hMap vpn _).mpr ⟨p, hTag, hValid, rfl⟩] at hUnmapped
    cases hUnmapped
  simp only [deleteFrom, hProbe, Option.map_some, if_neg hAbsent]

/- A deletion removes a page from the map. -/
theorem deleteFrom_spec
    (hInv : Inv c t)
    (hMap : Represents m t.slots)
    (vpn : Nat) :
    ∃ t', deleteFrom c t vpn = some t' ∧ Inv c t' ∧
      Represents (Function.update m vpn none) t'.slots := by
  cases hMapped : m vpn with
  | some ppn =>
      exact deleteFrom_mapped hInv hMap (by simp [hMapped])
  | none =>
      refine ⟨t, deleteFrom_unmapped hInv hMap hMapped, hInv, ?_⟩
      rw [← hMapped, Function.update_eq_self]
      exact hMap

end Hdc

end Virtuoso
