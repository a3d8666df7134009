import Mathlib.Data.List.Nodup
import Virtuoso.PageTable.Ht.Chain

/-
  The resize of the chained hash page table: every tagged
  entry of the old table is put into the bucket of its tag in
  the new one, so the translations stay the same.

  Main declarations:
    * `Ht.Inv`
    * `Ht.resizeTable_spec`
-/

namespace Virtuoso

namespace Ht

variable {c : Config}

/- Sound chains that hold the tags of their buckets. -/
structure Inv
    (c : Config)
    (size : Nat)
    (buckets : Nat → List Entry) : Prop where
  sound : ∀ b, Sound (buckets b)
  home : ∀ b tag, Stores (buckets b) tag →
    hashFunction c tag size = b

/- The buckets hold the translations of a map. -/
def Represents
    (c : Config)
    (m : Nat → Option Nat)
    (size : Nat)
    (buckets : Nat → List Entry) : Prop :=
  ∀ vpn ppn, m vpn = some ppn ↔
    Has (buckets (hashFunction c (vpn / 8) size)) (vpn / 8)
      (blockOffset vpn) ppn

theorem not_has_fresh
    {tablePa b tag ppn : Nat}
    {offset : Fin 8} :
    ¬ Has (freshBuckets tablePa b) tag offset ppn := by
  simp [Has, freshBuckets, Entry.empty]

theorem not_stores_fresh
    {tablePa b tag : Nat} :
    ¬ Stores (freshBuckets tablePa b) tag := by
  simp [Stores, freshBuckets, Entry.empty]

theorem inv_fresh
    (size tablePa : Nat) :
    Inv c size (freshBuckets tablePa) := by
  constructor
  · intro b
    trivial
  · intro b tag hStores
    exact absurd hStores not_stores_fresh

variable {chain : List Entry}

/- Replacing one bucket by a chain with tags of the bucket. -/
theorem Inv.replace
    {size : Nat}
    {buckets : Nat → List Entry}
    (hInv : Inv c size buckets)
    {idx : Nat}
    (hSound : Sound chain)
    (hHome : ∀ tag, Stores chain tag →
      hashFunction c tag size = idx) :
    Inv c size (Function.update buckets idx chain) := by
  constructor
  · intro b
    by_cases hEq : b = idx
    · rw [hEq, Function.update_self]
      exact hSound
    · rw [Function.update_of_ne hEq]
      exact hInv.sound b
  · intro b tag hStores
    by_cases hEq : b = idx
    · rw [hEq, Function.update_self] at hStores
      rw [hEq]
      exact hHome tag hStores
    · rw [Function.update_of_ne hEq] at hStores
      exact hInv.home b tag hStores

variable {e : Entry}

/- Adding a new tag behind a chain without empty entries. -/
theorem Sound.append
    {tag : Nat}
    (hSound : Sound chain)
    (hTagged : ∀ x ∈ chain, x.tag ≠ none)
    (hTag : e.tag = some tag)
    (hNew : ¬ Stores chain tag) :
    Sound (chain ++ [e]) := by
  induction chain with
  | nil => exact absurd rfl hSound.ne_nil
  | cons first rest ih =>
      rw [List.cons_append, sound_cons (by simp)]
      rcases Option.ne_none_iff_exists'.mp
          (hTagged first (by simp)) with ⟨other, hOther⟩
      rw [stores_cons, not_or] at hNew
      have hBehind : ¬ Stores (rest ++ [e]) other := by
        rintro ⟨x, hMem, hSame⟩
        rcases List.mem_append.mp hMem with hRest | hLast
        · exact hSound.not_stores_tail hOther ⟨x, hRest, hSame⟩
        · rw [List.mem_singleton] at hLast
          rw [hLast, hTag] at hSame
          exact hNew.1 (hOther.trans hSame.symm)
      refine ⟨⟨other, hOther, hBehind⟩, ?_⟩
      by_cases hNil : rest = []
      · rw [hNil]
        trivial
      · exact ih (hSound.tail hNil)
          (fun x hMem => hTagged x (List.mem_cons_of_mem _ hMem))
          hNew.2

/-
  The new table after the entries `done` were put into it. An
  empty entry is the only one of its bucket.
-/
structure Rehashed
    (c : Config)
    (newSize : Nat)
    (done : List Entry)
    (buckets : Nat → List Entry) : Prop where
  inv : Inv c newSize buckets
  packed : ∀ b, (∃ e, buckets b = [e] ∧ e.tag = none) ∨
    ∀ e ∈ buckets b, e.tag ≠ none
  has : ∀ b tag offset x, Has (buckets b) tag offset x ↔
    hashFunction c tag newSize = b ∧ Has done tag offset x
  stores : ∀ b tag, Stores (buckets b) tag → Stores done tag

/- The bucket of a new entry after it was put there. -/
structure Placed
    (chain chain' : List Entry)
    (e : Entry) : Prop where
  sound : Sound chain'
  tagged : ∀ x ∈ chain', x.tag ≠ none
  has : ∀ tag offset x, Has chain' tag offset x ↔
    Has chain tag offset x ∨ Has [e] tag offset x
  stores : ∀ tag, Stores chain' tag →
    Stores chain tag ∨ e.tag = some tag

theorem placed_root
    {dst e : Entry}
    (hEmpty : dst.tag = none)
    (hSome : e.tag ≠ none) :
    Placed [dst]
      [{ dst with
          tag := e.tag
          valid := e.valid
          ppn := e.ppn }] e := by
  refine ⟨trivial, ?_, ?_, ?_⟩
  · intro x hMem
    rw [List.mem_singleton] at hMem
    rw [hMem]
    exact hSome
  · intro tag offset x
    simp [Has, hEmpty]
  · rintro tag ⟨x, hMem, hTag⟩
    rw [List.mem_singleton] at hMem
    rw [hMem] at hTag
    exact Or.inr hTag

theorem placed_append
    {tag : Nat}
    (hSound : Sound chain)
    (hTagged : ∀ x ∈ chain, x.tag ≠ none)
    (hTag : e.tag = some tag)
    (hNew : ¬ Stores chain tag)
    (address : Nat) :
    Placed chain
      (chain ++ [{ e with emulatedPhysicalAddress := address }])
      e := by
  refine ⟨hSound.append hTagged hTag hNew, ?_, ?_, ?_⟩
  · intro x hMem
    rcases List.mem_append.mp hMem with hOld | hLast
    · exact hTagged x hOld
    · rw [List.mem_singleton] at hLast
      rw [hLast, hTag]
      exact Option.some_ne_none tag
  · intro tag' offset x
    rw [has_append]
    simp [Has]
  · intro tag' hStores
    rw [stores_append] at hStores
    simpa [Stores] using hStores

variable {r : Rebuilt}

/- One entry changes the bucket of its tag only. -/
theorem rehashEntry_placed
    {newSize tag : Nat}
    {done : List Entry}
    (hDone : Rehashed c newSize done r.buckets)
    (hTag : e.tag = some tag)
    (hNew : ¬ Stores done tag) :
    ∃ chain,
      (rehashEntry c newSize r e).buckets =
        Function.update r.buckets
          (hashFunction c tag newSize) chain ∧
      Placed (r.buckets (hashFunction c tag newSize)) chain e := by
  have hSome : e.tag ≠ none := by
    rw [hTag]
    exact Option.some_ne_none tag
  cases hBucket : r.buckets (hashFunction c tag newSize) with
  | nil =>
      exact absurd hBucket (hDone.inv.sound _).ne_nil
  | cons dst rest =>
      have hPacked := hDone.packed (hashFunction c tag newSize)
      rw [hBucket] at hPacked
      have hSound := hDone.inv.sound (hashFunction c tag newSize)
      rw [hBucket] at hSound
      have hNotHere : ¬ Stores (dst :: rest) tag := by
        rw [← hBucket]
        exact fun hStores => hNew (hDone.stores _ _ hStores)
      by_cases hEmpty : dst.tag = none
      · have hNil := hSound.eq_nil_of_empty hEmpty
        subst hNil
        refine ⟨_, ?_, placed_root hEmpty hSome⟩
        simp [rehashEntry, hTag, hBucket, hEmpty]
      · have hOther : dst.tag ≠ e.tag := by
          rw [hTag]
          exact fun hSame =>
            hNotHere (stores_cons.mpr (Or.inl hSame))
        have hTagged : ∀ x ∈ dst :: rest, x.tag ≠ none := by
          rcases hPacked with ⟨x, hEq, hNone⟩ | hAll
          · cases hEq
            exact absurd hNone hEmpty
          · exact hAll
        refine ⟨_, ?_, placed_append hSound hTagged hTag
          hNotHere r.kernelStartAddress⟩
        rw [hTag] at hOther
        simp [rehashEntry, hTag, hBucket, hEmpty, hOther,
          handleFineGrainedPageTableAllocations]

/- Putting one more entry into the new table. -/
theorem rehashed_step
    {newSize tag : Nat}
    {done : List Entry}
    (hDone : Rehashed c newSize done r.buckets)
    (hTag : e.tag = some tag)
    (hNew : ¬ Stores done tag) :
    Rehashed c newSize (done ++ [e])
      (rehashEntry c newSize r e).buckets := by
  rcases rehashEntry_placed hDone hTag hNew with
    ⟨chain, hBuckets, hPlaced⟩
  rw [hBuckets]
  refine ⟨hDone.inv.replace hPlaced.sound ?_, ?_, ?_, ?_⟩
  · intro tag' hStores
    rcases hPlaced.stores tag' hStores with hOld | hSame
    · exact hDone.inv.home _ tag' hOld
    · rw [hTag] at hSame
      rw [Option.some.inj hSame]
  · intro b
    by_cases hEq : b = hashFunction c tag newSize
    · rw [hEq, Function.update_self]
      exact Or.inr hPlaced.tagged
    · rw [Function.update_of_ne hEq]
      exact hDone.packed b
  · intro b tag' offset x
    rw [has_append]
    have hLast : Has [e] tag' offset x → tag' = tag := by
      rintro ⟨e', hMem, hSame, -⟩
      rw [List.mem_singleton] at hMem
      rw [hMem, hTag] at hSame
      exact (Option.some.inj hSame).symm
    by_cases hEq : b = hashFunction c tag newSize
    · rw [hEq, Function.update_self, hPlaced.has, hDone.has]
      constructor
      · rintro (⟨hHome, hHas⟩ | hHas)
        · exact ⟨hHome, Or.inl hHas⟩
        · exact ⟨by rw [hLast hHas], Or.inr hHas⟩
      · rintro ⟨hHome, hHas | hHas⟩
        · exact Or.inl ⟨hHome, hHas⟩
        · exact Or.inr hHas
    · rw [Function.update_of_ne hEq, hDone.has]
      constructor
      · rintro ⟨hHome, hHas⟩
        exact ⟨hHome, Or.inl hHas⟩
      · rintro ⟨hHome, hHas | hHas⟩
        · exact ⟨hHome, hHas⟩
        · rw [hLast hHas] at hHome
          exact absurd hHome.symm hEq
  · intro b tag' hStores
    rw [stores_append]
    by_cases hEq : b = hashFunction c tag newSize
    · rw [hEq, Function.update_self] at hStores
      rcases hPlaced.stores tag' hStores with hOld | hSame
      · exact Or.inl (hDone.stores _ tag' hOld)
      · exact Or.inr ⟨e, by simp, hSame⟩
    · rw [Function.update_of_ne hEq] at hStores
      exact Or.inl (hDone.stores b tag' hStores)

/- Putting a list of entries with distinct tags. -/
theorem rehashed_foldl
    {newSize : Nat}
    {done entries : List Entry}
    (hDone : Rehashed c newSize done r.buckets)
    (hTagged : ∀ e ∈ entries, e.tag ≠ none)
    (hDistinct : ((done ++ entries).map Entry.tag).Nodup) :
    Rehashed c newSize (done ++ entries)
      (entries.foldl (rehashEntry c newSize) r).buckets := by
  induction entries generalizing done r with
  | nil =>
      rw [List.append_nil]
      exact hDone
  | cons e rest ih =>
      rcases Option.ne_none_iff_exists'.mp
          (hTagged e (by simp)) with ⟨tag, hTag⟩
      have hNew : ¬ Stores done tag := by
        rintro ⟨x, hMem, hSame⟩
        rw [List.map_append, List.nodup_append] at hDistinct
        exact hDistinct.2.2 _ (List.mem_map_of_mem hMem) _
          (List.mem_map_of_mem (List.mem_cons_self))
          (hSame.trans hTag.symm)
      have hSplit : done ++ e :: rest = (done ++ [e]) ++ rest := by
        simp
      rw [hSplit, List.foldl_cons]
      rw [hSplit] at hDistinct
      exact ih (rehashed_step hDone hTag hNew)
        (fun x hMem => hTagged x (List.mem_cons_of_mem _ hMem))
        hDistinct

variable {t : Table}

theorem mem_entriesOf
    (hInv : Inv c t.size t.buckets)
    {e : Entry} :
    e ∈ entriesOf t ↔
      ∃ b < t.size, e ∈ t.buckets b ∧ e.tag ≠ none := by
  simp only [entriesOf, List.mem_flatMap, List.mem_range,
    mem_takeWhile_iff (hInv.sound _)]

/- The entries of a table have the translations of it. -/
theorem has_entriesOf
    (hInv : Inv c t.size t.buckets)
    (hPos : 0 < t.size)
    {tag x : Nat}
    {offset : Fin 8} :
    Has (entriesOf t) tag offset x ↔
      Has (t.buckets (hashFunction c tag t.size)) tag offset x := by
  constructor
  · rintro ⟨e, hMem, hTag, hRead⟩
    rcases (mem_entriesOf hInv).mp hMem with
      ⟨b, -, hBucket, -⟩
    rw [hInv.home b tag ⟨e, hBucket, hTag⟩]
    exact ⟨e, hBucket, hTag, hRead⟩
  · rintro ⟨e, hMem, hTag, hRead⟩
    refine ⟨e, (mem_entriesOf hInv).mpr ⟨_,
      Nat.mod_lt _ hPos, hMem, ?_⟩, hTag, hRead⟩
    rw [hTag]
    exact Option.some_ne_none tag

theorem nodup_entriesOf
    (hInv : Inv c t.size t.buckets) :
    ((entriesOf t).map Entry.tag).Nodup := by
  rw [entriesOf, List.map_flatMap, List.nodup_flatMap]
  refine ⟨fun b _ => nodup_takeWhile (hInv.sound b), ?_⟩
  apply List.nodup_range.imp
  intro b b' hNe tag hMem hMem'
  rcases List.mem_map.mp hMem with ⟨e, hE, hTag⟩
  rcases List.mem_map.mp hMem' with ⟨e', hE', hTag'⟩
  rcases (mem_takeWhile_iff (hInv.sound b)).mp hE with
    ⟨hBucket, hSome⟩
  rcases (mem_takeWhile_iff (hInv.sound b')).mp hE' with
    ⟨hBucket', -⟩
  rcases Option.ne_none_iff_exists'.mp hSome with ⟨k, hK⟩
  have hK' : e'.tag = some k := by
    rw [hTag', ← hTag, hK]
  exact hNe ((hInv.home b k ⟨e, hBucket, hK⟩).symm.trans
    (hInv.home b' k ⟨e', hBucket', hK'⟩))

/- A resize keeps the translations. -/
theorem resizeTable_spec
    {m : Nat → Option Nat}
    (hInv : Inv c t.size t.buckets)
    (hPos : 0 < t.size)
    (hMap : Represents c m t.size t.buckets)
    (kernelStartAddress : Nat) :
    Inv c (resizeTable c t kernelStartAddress).1.size
        (resizeTable c t kernelStartAddress).1.buckets ∧
      0 < (resizeTable c t kernelStartAddress).1.size ∧
      Represents c m
        (resizeTable c t kernelStartAddress).1.size
        (resizeTable c t kernelStartAddress).1.buckets := by
  have hStart : Rehashed c (t.size * c.resizeFactor) []
      (freshBuckets (handlePageTableAllocations
        kernelStartAddress
        (t.size * c.resizeFactor * 64)).1) := by
    refine ⟨inv_fresh _ _, ?_, ?_, ?_⟩
    · intro b
      exact Or.inl ⟨_, rfl, rfl⟩
    · intro b tag offset x
      simp [not_has_fresh, not_has_nil]
    · intro b tag hStores
      exact absurd hStores not_stores_fresh
  have hTagged : ∀ e ∈ entriesOf t, e.tag ≠ none := by
    intro e hMem
    rcases (mem_entriesOf hInv).mp hMem with ⟨_, _, _, hSome⟩
    exact hSome
  have hAll := rehashed_foldl
    (r := ⟨_, 0, kernelStartAddress +
      t.size * c.resizeFactor * 64⟩) hStart hTagged
    (nodup_entriesOf hInv)
  refine ⟨hAll.inv, ?_, ?_⟩
  · have := c.two_le_resizeFactor
    exact Nat.mul_pos hPos (by omega)
  · intro vpn ppn
    rw [hMap vpn ppn, ← has_entriesOf hInv hPos]
    exact ((hAll.has _ _ _ _).trans (and_iff_right rfl)).symm

end Ht

end Virtuoso
