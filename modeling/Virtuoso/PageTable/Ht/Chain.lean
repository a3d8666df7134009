import Virtuoso.PageTable.Ht.Basic

/-
  The chains of the chained hash page table.

  The operations keep one invariant of a chain: only its last
  entry may be empty, and no tag comes twice. An update fills
  an empty entry only at the end, and a deletion moves the
  rest of the chain forward.

  Main declarations:
    * `Ht.Sound`
    * `Ht.deleteChain_spec`
-/

------------------------------------------------------------
-- Sound Chains And Updates
------------------------------------------------------------

namespace Virtuoso

namespace Ht

variable {chain rest : List Entry} {e : Entry} {tag : Nat}
variable {offset : Fin 8}

/- The chain stores a tag. -/
def Stores (chain : List Entry) (tag : Nat) : Prop :=
  ∃ e ∈ chain, e.tag = some tag

/- The chain stores a translation. -/
def Has
    (chain : List Entry)
    (tag : Nat)
    (offset : Fin 8)
    (ppn : Nat) : Prop :=
  ∃ e ∈ chain, e.tag = some tag ∧ e.valid offset = true ∧
    e.ppn offset = ppn

/-
  Every entry but the last has a tag that does not come again
  behind it.
-/
def Sound :
    List Entry → Prop
| [] => False
| [_] => True
| e :: e' :: rest =>
    (∃ tag, e.tag = some tag ∧ ¬ Stores (e' :: rest) tag) ∧
      Sound (e' :: rest)

theorem stores_cons :
    Stores (e :: rest) tag ↔
      e.tag = some tag ∨ Stores rest tag := by
  simp [Stores]

theorem has_cons
    {ppn : Nat} :
    Has (e :: rest) tag offset ppn ↔
      (e.tag = some tag ∧ e.valid offset = true ∧
        e.ppn offset = ppn) ∨
      Has rest tag offset ppn := by
  simp [Has]

variable {chain' : List Entry}

theorem has_append
    {ppn : Nat} :
    Has (chain ++ chain') tag offset ppn ↔
      Has chain tag offset ppn ∨ Has chain' tag offset ppn := by
  simp [Has, or_and_right, exists_or]

theorem stores_append
    {chain' : List Entry} :
    Stores (chain ++ chain') tag ↔
      Stores chain tag ∨ Stores chain' tag := by
  simp [Stores, or_and_right, exists_or]

theorem not_has_nil
    {ppn : Nat} :
    ¬ Has [] tag offset ppn := by
  simp [Has]

theorem Has.stores
    {ppn : Nat}
    (hHas : Has chain tag offset ppn) :
    Stores chain tag := by
  rcases hHas with ⟨e, hMem, hTag, -⟩
  exact ⟨e, hMem, hTag⟩

theorem sound_cons
    (hNonempty : rest ≠ []) :
    Sound (e :: rest) ↔
      (∃ tag, e.tag = some tag ∧ ¬ Stores rest tag) ∧
        Sound rest := by
  cases rest with
  | nil => exact absurd rfl hNonempty
  | cons e' rest => rfl

theorem Sound.ne_nil
    (hSound : Sound chain) :
    chain ≠ [] := by
  intro hNil
  rw [hNil] at hSound
  exact hSound

/- A tag in front of a sound chain is not met behind it. -/
theorem Sound.not_stores_tail
    (hSound : Sound (e :: rest))
    (hTag : e.tag = some tag) :
    ¬ Stores rest tag := by
  by_cases hNonempty : rest = []
  · rw [hNonempty]
    simp [Stores]
  · rcases ((sound_cons hNonempty).mp hSound).1 with
      ⟨tag', hTag', hNew⟩
    rw [hTag] at hTag'
    cases hTag'
    exact hNew

theorem Sound.tail
    (hSound : Sound (e :: rest))
    (hNonempty : rest ≠ []) :
    Sound rest :=
  ((sound_cons hNonempty).mp hSound).2

/- Before the end of a sound chain no entry is empty. -/
theorem Sound.eq_nil_of_empty
    (hSound : Sound (e :: rest))
    (hEmpty : e.tag = none) :
    rest = [] := by
  by_contra hNonempty
  rcases ((sound_cons hNonempty).mp hSound).1 with
    ⟨tag, hTag, -⟩
  rw [hEmpty] at hTag
  cases hTag

/- Replacing the rest of a sound chain. -/
theorem Sound.replaceTail
    {rest' : List Entry}
    (hSound : Sound (e :: rest))
    (hNonempty : rest ≠ [])
    (hSound' : Sound rest')
    (hStores : ∀ tag, e.tag = some tag → ¬ Stores rest' tag) :
    Sound (e :: rest') := by
  rw [sound_cons hSound'.ne_nil]
  rcases ((sound_cons hNonempty).mp hSound).1 with
    ⟨tag, hTag, -⟩
  exact ⟨⟨tag, hTag, hStores tag hTag⟩, hSound'⟩

/- Replacing the first entry by one with the same tag. -/
theorem Sound.replaceHead
    {e' : Entry}
    (hSound : Sound (e :: rest))
    (hTag : e'.tag = e.tag) :
    Sound (e' :: rest) := by
  by_cases hNonempty : rest = []
  · rw [hNonempty]
    trivial
  · rw [sound_cons hNonempty] at hSound ⊢
    rw [hTag]
    exact hSound

/- A walk finds exactly the translations of a chain. -/
theorem walkChain_spec
    (hSound : Sound chain)
    (level counter ppn : Nat) :
    (walkChain level tag offset counter chain).2 = some ppn ↔
      Has chain tag offset ppn := by
  induction chain generalizing counter with
  | nil => exact absurd rfl hSound.ne_nil
  | cons e rest ih =>
      rw [has_cons, walkChain]
      by_cases hTag : e.tag = some tag
      · have hRest : ¬ Has rest tag offset ppn :=
          fun hHas => hSound.not_stores_tail hTag hHas.stores
        cases hValid : e.valid offset with
        | true => simp [hTag, hRest]
        | false => simp [hTag, hRest]
      · by_cases hNil : rest = []
        · simp [hTag, hNil, not_has_nil]
        · have hFurther := ih (hSound.tail hNil) (counter + 1)
          simp [hTag, hNil, hFurther]

/- The translations after one is added. -/
def Adds
    (chain chain' : List Entry)
    (tag : Nat)
    (offset : Fin 8)
    (ppn : Nat) : Prop :=
  ∀ tag' offset' x, Has chain' tag' offset' x ↔
    if tag' = tag ∧ offset' = offset then x = ppn
    else Has chain tag' offset' x

/- The translations of one new entry. -/
theorem has_single
    {tag' : Nat}
    {offset' : Fin 8}
    {ppn : Fin 8 → Nat}
    {address x : Nat} :
    Has [Entry.single tag offset ppn address] tag' offset' x ↔
      tag' = tag ∧ offset' = offset ∧ x = ppn offset := by
  simp only [Has, Entry.single, List.mem_singleton,
    exists_eq_left, Option.some.injEq]
  constructor
  · rintro ⟨hTag, hValid, hPpn⟩
    by_cases hOffset : offset' = offset
    · subst hOffset
      exact ⟨hTag.symm, rfl, hPpn.symm⟩
    · simp [hOffset] at hValid
  · rintro ⟨hTag, hOffset, hPpn⟩
    subst hTag hOffset hPpn
    simp

/- What an update makes of a chain. -/
structure Updated
    (chain chain' : List Entry)
    (tag : Nat)
    (offset : Fin 8)
    (ppn : Nat) : Prop where
  sound : Sound chain'
  adds : Adds chain chain' tag offset ppn
  stores : ∀ tag', Stores chain' tag' →
    tag' = tag ∨ Stores chain tag'

/- An empty entry is the whole chain, and is filled. -/
theorem updated_filled
    (hEmpty : e.tag = none)
    (tag : Nat)
    (offset : Fin 8)
    (ppn : Fin 8 → Nat)
    (address : Nat) :
    Updated [e] [Entry.single tag offset ppn address] tag
      offset (ppn offset) := by
  refine ⟨trivial, ?_, ?_⟩
  · intro tag' offset' x
    rw [has_single, has_cons]
    by_cases hSame : tag' = tag ∧ offset' = offset
    · simp [hSame]
    · rw [if_neg hSame, ← and_assoc]
      simp [hSame, hEmpty, not_has_nil]
  · intro tag' hStores
    rcases hStores with ⟨e', hMem, hTag⟩
    rw [List.mem_singleton] at hMem
    rw [hMem] at hTag
    exact Or.inl (Option.some.inj hTag).symm

/- A translation is written into the entry of its tag. -/
theorem updated_put
    (hSound : Sound (e :: rest))
    (hTag : e.tag = some tag)
    (ppn : Nat) :
    Updated (e :: rest) (e.put offset ppn :: rest) tag offset
      ppn := by
  have hRest := hSound.not_stores_tail hTag
  refine ⟨hSound.replaceHead rfl, ?_, ?_⟩
  · intro tag' offset' x
    rw [has_cons, has_cons]
    by_cases hSame : tag' = tag ∧ offset' = offset
    · rcases hSame with ⟨hTag', hOffset'⟩
      subst hTag' hOffset'
      have hNone : ¬ Has rest tag' offset' x :=
        fun hHas => hRest hHas.stores
      simp [Entry.put, hTag, hNone, eq_comm]
    · rw [if_neg hSame]
      by_cases hOffset : offset' = offset
      · have hTag' : tag' ≠ tag :=
          fun hEq => hSame ⟨hEq, hOffset⟩
        simp [Entry.put, hTag, Ne.symm hTag']
      · simp [Entry.put, hOffset]
  · intro tag' hStores
    rw [stores_cons] at hStores ⊢
    exact Or.inr hStores

/- A chain with another entry in front. -/
theorem Updated.cons
    {ppn : Nat}
    (hUpdated : Updated rest chain' tag offset ppn)
    (hSound : Sound (e :: chain'))
    (hOther : e.tag ≠ some tag) :
    Updated (e :: rest) (e :: chain') tag offset ppn := by
  refine ⟨hSound, ?_, ?_⟩
  · intro tag' offset' x
    rw [has_cons, has_cons, hUpdated.adds tag' offset' x]
    by_cases hSame : tag' = tag ∧ offset' = offset
    · rw [if_pos hSame, if_pos hSame, hSame.1]
      simp [hOther]
    · rw [if_neg hSame, if_neg hSame]
  · intro tag' hStores
    rw [stores_cons] at hStores ⊢
    rcases hStores with hHead | hTail
    · exact Or.inr (Or.inl hHead)
    · rcases hUpdated.stores tag' hTail with hEq | hOld
      · exact Or.inl hEq
      · exact Or.inr (Or.inr hOld)

/- The translation in a new entry behind the chain. -/
theorem updated_nil
    (tag : Nat)
    (offset : Fin 8)
    (ppn : Fin 8 → Nat)
    (address : Nat) :
    Updated [] [Entry.single tag offset ppn address] tag
      offset (ppn offset) := by
  have hFilled := updated_filled
    (e := Entry.empty 0) rfl tag offset ppn address
  refine ⟨trivial, ?_, ?_⟩
  · intro tag' offset' x
    rw [hFilled.adds tag' offset' x, has_cons]
    simp [Entry.empty]
  · intro tag' hStores
    rcases hFilled.stores tag' hStores with hEq | hOld
    · exact Or.inl hEq
    · simp [Stores, Entry.empty] at hOld

/-
  An update of a chain without the translation adds it and
  keeps the chain sound.
-/
theorem updateChain_spec
    (hSound : Sound chain)
    (hNew : ∀ x, ¬ Has chain tag offset x)
    (ppn address : Nat) :
    Updated chain
      (updateChain tag offset ppn address chain).2 tag offset
      ppn := by
  induction chain with
  | nil => exact absurd rfl hSound.ne_nil
  | cons e rest ih =>
      rw [updateChain]
      by_cases hEmpty : e.tag = none
      · rw [if_pos hEmpty, hSound.eq_nil_of_empty hEmpty]
        have hFilled := updated_filled hEmpty tag offset
          (Function.update e.ppn offset ppn)
          e.emulatedPhysicalAddress
        rwa [Function.update_self] at hFilled
      rw [if_neg hEmpty]
      by_cases hOwn : e.tag = some tag
      · have hInvalid : e.valid offset = false := by
          by_contra hValid
          exact hNew _ (has_cons.mpr (Or.inl
            ⟨hOwn, by simpa using hValid, rfl⟩))
        rw [if_pos ⟨hOwn, hInvalid⟩]
        exact updated_put hSound hOwn ppn
      rw [if_neg (fun hBoth => hOwn hBoth.1)]
      by_cases hNil : rest = []
      · subst hNil
        rw [if_pos List.isEmpty_nil]
        have hChained := updated_nil tag offset
          (Function.update (fun _ => 0) offset ppn) address
        rw [Function.update_self] at hChained
        apply hChained.cons _ hOwn
        rcases Option.ne_none_iff_exists'.mp hEmpty with
          ⟨other, hOther⟩
        refine ⟨⟨other, hOther, ?_⟩, trivial⟩
        intro hStores
        rcases hChained.stores other hStores with hEq | hOld
        · exact hOwn (hEq ▸ hOther)
        · simp [Stores] at hOld
      · rw [if_neg (by simpa using hNil)]
        have hRest := ih (hSound.tail hNil)
          (fun x hHas => hNew x (has_cons.mpr (Or.inr hHas)))
        apply hRest.cons _ hOwn
        apply hSound.replaceTail hNil hRest.sound
        intro other hOther hStores
        rcases hRest.stores other hStores with hEq | hOld
        · exact hOwn (hEq ▸ hOther)
        · exact hSound.not_stores_tail hOther hOld

------------------------------------------------------------
-- Deletions And Tags
------------------------------------------------------------

/- What a deletion makes of a chain. -/
structure Removed
    (chain chain' : List Entry)
    (tag : Nat)
    (offset : Fin 8) : Prop where
  sound : Sound chain'
  removes : ∀ tag' offset' x, Has chain' tag' offset' x ↔
    ¬ (tag' = tag ∧ offset' = offset) ∧ Has chain tag' offset' x
  stores : ∀ tag', Stores chain' tag' → Stores chain tag'

/- The translations of an entry after one is cleared. -/
theorem valid_clear_iff
    {offset' : Fin 8} :
    (e.clear offset).valid offset' = true ↔
      offset' ≠ offset ∧ e.valid offset' = true := by
  by_cases hOffset : offset' = offset
  · simp [Entry.clear, hOffset]
  · simp [Entry.clear, hOffset]

theorem ppn_clear
    {offset' : Fin 8}
    (hOffset : offset' ≠ offset) :
    (e.clear offset).ppn offset' = e.ppn offset' := by
  simp [Entry.clear, hOffset]

/- The entry of the tag keeps its other translations. -/
theorem removed_clear
    (hSound : Sound (e :: rest))
    (hTag : e.tag = some tag) :
    Removed (e :: rest) (e.clear offset :: rest) tag offset := by
  have hRest := hSound.not_stores_tail hTag
  refine ⟨hSound.replaceHead rfl, ?_, ?_⟩
  · intro tag' offset' x
    rw [has_cons, has_cons, valid_clear_iff]
    constructor
    · rintro (⟨hTag', ⟨hOffset, hValid⟩, hPpn⟩ | hHas)
      · rw [ppn_clear hOffset] at hPpn
        exact ⟨fun hSame => hOffset hSame.2,
          Or.inl ⟨hTag', hValid, hPpn⟩⟩
      · refine ⟨?_, Or.inr hHas⟩
        rintro ⟨hSame, -⟩
        exact hRest (hSame ▸ hHas.stores)
    · rintro ⟨hNe, ⟨hTag', hValid, hPpn⟩ | hHas⟩
      · have hSame : tag' = tag :=
          Option.some.inj (hTag'.symm.trans hTag)
        have hOffset : offset' ≠ offset :=
          fun hEq => hNe ⟨hSame, hEq⟩
        exact Or.inl ⟨hTag', ⟨hOffset, hValid⟩,
          (ppn_clear hOffset).trans hPpn⟩
      · exact Or.inr hHas
  · intro tag' hStores
    rw [stores_cons] at hStores ⊢
    exact hStores

/- An entry without translations may be dropped. -/
theorem Removed.drop
    (hRemoved : Removed chain (e :: rest) tag offset)
    (hInvalid : ∀ i, e.valid i = false)
    {rest' : List Entry}
    (hSound : Sound rest')
    (hHas : ∀ tag' offset' x,
      Has rest' tag' offset' x ↔ Has rest tag' offset' x)
    (hStores : ∀ tag', Stores rest' tag' → Stores rest tag') :
    Removed chain rest' tag offset := by
  refine ⟨hSound, ?_, ?_⟩
  · intro tag' offset' x
    rw [← hRemoved.removes, has_cons, hHas, hInvalid]
    simp
  · intro tag' hStored
    apply hRemoved.stores tag'
    rw [stores_cons]
    exact Or.inr (hStores tag' hStored)

/- A chain with another entry in front. -/
theorem Removed.cons
    (hRemoved : Removed rest chain' tag offset)
    (hSound : Sound (e :: chain'))
    (hOther : e.tag ≠ some tag) :
    Removed (e :: rest) (e :: chain') tag offset := by
  refine ⟨hSound, ?_, ?_⟩
  · intro tag' offset' x
    rw [has_cons, has_cons, hRemoved.removes tag' offset' x]
    constructor
    · rintro (⟨hTag', hHead⟩ | ⟨hNe, hHas⟩)
      · refine ⟨?_, Or.inl ⟨hTag', hHead⟩⟩
        rintro ⟨hSame, -⟩
        exact hOther (hSame ▸ hTag')
      · exact ⟨hNe, Or.inr hHas⟩
    · rintro ⟨hNe, hHead | hHas⟩
      · exact Or.inl hHead
      · exact Or.inr ⟨hNe, hHas⟩
  · intro tag' hStores
    rw [stores_cons] at hStores ⊢
    rcases hStores with hHead | hTail
    · exact Or.inl hHead
    · exact Or.inr (hRemoved.stores tag' hTail)

/- Removing a translation from the entry of its tag. -/
theorem removed_head
    (hSound : Sound (e :: rest))
    (hTag : e.tag = some tag) :
    Removed (e :: rest)
      (deleteChain tag offset (e :: rest)) tag offset := by
  have hCleared : Removed (e :: rest)
      (e.clear offset :: rest) tag offset :=
    removed_clear hSound hTag
  rw [deleteChain, if_pos hTag]
  by_cases hInvalid : ∀ i, (e.clear offset).valid i = false
  · simp only [if_pos hInvalid]
    cases rest with
    | nil =>
        refine hCleared.drop hInvalid ?_ ?_ ?_
        · trivial
        · intro tag' offset' x
          simp [Has]
        · intro tag' hStores
          simp [Stores] at hStores
    | cons next rest' =>
        exact hCleared.drop hInvalid
          (hSound.tail (List.cons_ne_nil _ _))
          (fun _ _ _ => Iff.rfl) (fun _ hStores => hStores)
  · simp only [if_neg hInvalid]
    exact hCleared

/- A deletion removes one translation of a sound chain. -/
theorem deleteChain_spec
    (hSound : Sound chain)
    (tag : Nat)
    (offset : Fin 8) :
    Removed chain (deleteChain tag offset chain) tag offset := by
  induction chain with
  | nil => exact absurd rfl hSound.ne_nil
  | cons e rest ih =>
      by_cases hTag : e.tag = some tag
      · exact removed_head hSound hTag
      · rw [deleteChain, if_neg hTag]
        by_cases hNil : rest = []
        · subst hNil
          refine ⟨trivial, ?_, fun _ hStores => hStores⟩
          intro tag' offset' x
          refine ⟨fun hHas => ⟨?_, hHas⟩, And.right⟩
          rintro ⟨hSame, -⟩
          rcases stores_cons.mp hHas.stores with hHead | hNone
          · exact hTag (hSame ▸ hHead)
          · simp [deleteChain, Stores] at hNone
        · have hRest := ih (hSound.tail hNil)
          apply hRest.cons _ hTag
          apply hSound.replaceTail hNil hRest.sound
          intro other hOther hStores
          exact hSound.not_stores_tail hOther
            (hRest.stores other hStores)

/- The first entry of a tag, which a walk reads. -/
def firstOf
    (tag : Nat)
    (chain : List Entry) :
    Option Entry :=
  chain.find? (fun e => decide (e.tag = some tag))

/- The entries behind the first one of a tag. -/
def behind (tag : Nat) : List Entry → List Entry
| [] => []
| e :: rest => if e.tag = some tag then rest else behind tag rest

/- What the entry gives for one of its pages. -/
def Entry.found (e : Entry) (offset : Fin 8) : Option Nat :=
  if e.valid offset then some (e.ppn offset) else none

theorem snd_walkChain
    (level counter : Nat) :
    (walkChain level tag offset counter chain).2 =
      (firstOf tag chain).bind (fun e => e.found offset) := by
  induction chain generalizing counter with
  | nil => rfl
  | cons e rest ih =>
      rw [walkChain]
      by_cases hTag : e.tag = some tag
      · cases hValid : e.valid offset with
        | true => simp [hTag, firstOf, Entry.found, hValid]
        | false => simp [hTag, firstOf, Entry.found, hValid]
      · have hFirst : firstOf tag (e :: rest) =
            firstOf tag rest := by
          simp [firstOf, hTag]
        rw [if_neg hTag, hFirst]
        cases rest with
        | nil => rfl
        | cons next rest' => exact ih (counter + 1)

/- A deletion leaves the entries of the other tags. -/
theorem firstOf_deleteChain_of_ne
    {tag' : Nat}
    (hNe : tag' ≠ tag)
    (offset : Fin 8)
    (chain : List Entry) :
    firstOf tag' (deleteChain tag offset chain) =
      firstOf tag' chain := by
  induction chain with
  | nil => rfl
  | cons e rest ih =>
      rw [deleteChain]
      by_cases hTag : e.tag = some tag
      · have hOther : e.tag ≠ some tag' := by
          rw [hTag, ne_eq, Option.some.injEq]
          exact Ne.symm hNe
        have hClear : (e.clear offset).tag ≠ some tag' :=
          hOther
        rw [if_pos hTag]
        simp only
        split
        · cases rest with
          | nil => simp [firstOf, hOther]
          | cons next rest' => simp [firstOf, hOther]
        · simp [firstOf, hOther, hClear]
      · rw [if_neg hTag]
        unfold firstOf at ih ⊢
        rw [List.find?_cons, List.find?_cons, ih]

/-
  The first entry of the tag after a deletion. An entry
  without translations gives way to the next one of its tag.
-/
theorem firstOf_deleteChain
    (tag : Nat)
    (offset : Fin 8)
    (chain : List Entry) :
    firstOf tag (deleteChain tag offset chain) =
      (firstOf tag chain).bind (fun e =>
        if ∀ i, (e.clear offset).valid i = false then
          firstOf tag (behind tag chain)
        else
          some (e.clear offset)) := by
  induction chain with
  | nil => rfl
  | cons e rest ih =>
      rw [deleteChain, behind]
      by_cases hTag : e.tag = some tag
      · have hFirst : firstOf tag (e :: rest) = some e := by
          simp [firstOf, hTag]
        rw [if_pos hTag, if_pos hTag, hFirst, Option.bind_some]
        simp only
        split
        · cases rest with
          | nil => simp [firstOf]
          | cons next rest' => rfl
        · simp [firstOf, Entry.clear, hTag]
      · have hFirst : ∀ chain, firstOf tag (e :: chain) =
            firstOf tag chain := by
          intro chain
          simp [firstOf, hTag]
        rw [if_neg hTag, if_neg hTag, hFirst, hFirst, ih]

/- The loops of a resize see every tagged entry of a chain. -/
theorem mem_takeWhile_iff
    (hSound : Sound chain) :
    e ∈ chain.takeWhile (fun e => e.tag.isSome) ↔
      e ∈ chain ∧ e.tag ≠ none := by
  induction chain with
  | nil => simp
  | cons first rest ih =>
      by_cases hEmpty : first.tag = none
      · rw [hSound.eq_nil_of_empty hEmpty]
        simp only [List.takeWhile_cons, hEmpty,
          Option.isSome_none, Bool.false_eq_true, if_false,
          List.not_mem_nil, List.mem_singleton, false_iff]
        rintro ⟨hEq, hSome⟩
        exact hSome (hEq ▸ hEmpty)
      · have hTagged : first.tag.isSome = true :=
          Option.isSome_iff_ne_none.mpr hEmpty
        by_cases hNil : rest = []
        · subst hNil
          simp only [List.takeWhile_cons, hTagged, if_true,
            List.takeWhile_nil, List.mem_singleton]
          constructor
          · intro hEq
            exact ⟨hEq, hEq ▸ hEmpty⟩
          · exact And.left
        · have hRest := ih (hSound.tail hNil)
          simp only [List.takeWhile_cons, hTagged, if_true,
            List.mem_cons, hRest]
          constructor
          · rintro (hEq | ⟨hMem, hSome⟩)
            · exact ⟨Or.inl hEq, hEq ▸ hEmpty⟩
            · exact ⟨Or.inr hMem, hSome⟩
          · rintro ⟨hEq | hMem, hSome⟩
            · exact Or.inl hEq
            · exact Or.inr ⟨hMem, hSome⟩

/- No tag comes twice in a chain. -/
theorem nodup_takeWhile
    (hSound : Sound chain) :
    ((chain.takeWhile (fun e => e.tag.isSome)).map
      Entry.tag).Nodup := by
  induction chain with
  | nil => simp
  | cons first rest ih =>
      by_cases hEmpty : first.tag = none
      · simp [hEmpty]
      · have hTagged : first.tag.isSome = true :=
          Option.isSome_iff_ne_none.mpr hEmpty
        by_cases hNil : rest = []
        · simp [hNil, hTagged]
        · simp only [List.takeWhile_cons, hTagged, if_true,
            List.map_cons, List.nodup_cons]
          refine ⟨?_, ih (hSound.tail hNil)⟩
          rcases Option.ne_none_iff_exists'.mp hEmpty with
            ⟨tag, hTag⟩
          rw [hTag, List.mem_map]
          rintro ⟨e, hMem, hSame⟩
          exact hSound.not_stores_tail hTag
            ⟨e, (List.takeWhile_subset _ hMem), hSame⟩

end Ht

end Virtuoso
