import Mathlib.Data.List.Nodup
import Virtuoso.PageTable.Cuckoo.Insertion

/-
  Rehashing.

  A rehash that succeeds has moved every translation of the
  old tables, and those of the entry without a slot, to the
  new tables. A rehash that fails leaves the old tables as
  they were, and keeps the entry without a slot exactly when
  the migration of the old tables was complete.

  Main declarations:
    * `Cuckoo.migrate_spec`
    * `Cuckoo.rehashUntil_spec`
-/

namespace Virtuoso

namespace Cuckoo

variable {c : Config} {n : Nest}

/- A translation of the list. -/
def Listed
    (l : List (Element × Nat))
    (tag : Nat)
    (i : Fin 8)
    (ppn : Nat) : Prop :=
  ∃ item ∈ l, Adds item.1 item.2 tag i ppn

theorem blockIndex_add
    (tag : Nat)
    (i : Fin 8) :
    blockIndex (tag * 8 + i.val) = i := by
  apply Fin.ext
  simp only [blockIndex]
  omega

theorem div_add
    (tag : Nat)
    (i : Fin 8) :
    (tag * 8 + i.val) / 8 = tag := by
  omega

variable {e : Element}

theorem mem_itemsOf
    {item : Element × Nat} :
    item ∈ itemsOf e ↔
      item.1 = e ∧ ∃ tag i, e.tag = some tag ∧
        e.validityBits i = true ∧ item.2 = tag * 8 + i.val := by
  rcases item with ⟨e', vpn⟩
  unfold itemsOf
  cases hTag : e.tag with
  | none => simp
  | some tag =>
      simp only [List.mem_map, List.mem_filter,
        List.mem_finRange, true_and, Prod.mk.injEq]
      constructor
      · rintro ⟨i, hValid, hEq, hVpn⟩
        exact ⟨hEq.symm, tag, i, rfl, hValid, hVpn.symm⟩
      · rintro ⟨hEq, tag', i, hTag', hValid, hVpn⟩
        cases hTag'
        exact ⟨i, hValid, hEq.symm, hVpn.symm⟩

/- The listed translations of an element are its own. -/
theorem listed_itemsOf
    (e : Element)
    (tag : Nat)
    (i : Fin 8)
    (ppn : Nat) :
    Listed (itemsOf e) tag i ppn ↔ e.Has tag i ppn := by
  constructor
  · rintro ⟨item, hMem, hTag, hIndex, hPpn⟩
    rcases mem_itemsOf.mp hMem with
      ⟨hElement, tag', j, hTag', hValid, hVpn⟩
    rw [hVpn, div_add] at hTag
    rw [hVpn, blockIndex_add] at hIndex hPpn
    rw [hElement] at hPpn
    exact ⟨hTag' ▸ hTag ▸ rfl, hIndex ▸ hValid, hIndex ▸ hPpn⟩
  · rintro ⟨hTag, hValid, hPpn⟩
    refine ⟨(e, tag * 8 + i.val), ?_, ?_⟩
    · exact mem_itemsOf.mpr ⟨rfl, tag, i, hTag, hValid, rfl⟩
    · refine ⟨(div_add tag i).symm, (blockIndex_add tag i).symm, ?_⟩
      rw [blockIndex_add]
      exact hPpn

theorem mem_items
    {item : Element × Nat} :
    item ∈ items c n ↔
      ∃ way < c.ways, ∃ pos < n.size,
        item ∈ itemsOf (n.table way pos) := by
  simp [items]

/- The listed translations of a table are its content. -/
theorem listed_items
    (hPlaced : Placed c n)
    (tag : Nat)
    (i : Fin 8)
    (ppn : Nat) :
    Listed (items c n) tag i ppn ↔ Content n tag i ppn := by
  constructor
  · rintro ⟨item, hMem, hAdds⟩
    rcases mem_items.mp hMem with ⟨way, -, pos, -, hSlot⟩
    exact ⟨way, pos,
      (listed_itemsOf _ tag i ppn).mp ⟨item, hSlot, hAdds⟩⟩
  · rintro ⟨way, pos, hHas⟩
    rcases hPlaced.home way pos tag hHas.1 with ⟨hWay, hPos⟩
    have hLt : pos < n.size := by
      rw [hPos]
      exact Nat.mod_lt _ hPlaced.size_pos
    rcases (listed_itemsOf _ tag i ppn).mpr hHas with
      ⟨item, hMem, hAdds⟩
    exact ⟨item, mem_items.mpr ⟨way, hWay, pos, hLt, hMem⟩, hAdds⟩

/- A page number is listed once for each element. -/
theorem nodup_itemsOf
    (e : Element) :
    ((itemsOf e).map Prod.snd).Nodup := by
  unfold itemsOf
  cases e.tag with
  | none => simp
  | some tag =>
      simp only [List.map_map]
      apply List.Nodup.map_on
      · intro i _ j _ hEq
        apply Fin.ext
        simp only [Function.comp_apply] at hEq
        omega
      · exact (List.nodup_finRange 8).filter _

/- Slots with a common page number are one slot. -/
theorem slot_unique
    (hPlaced : Placed c n)
    {way pos way' pos' vpn : Nat}
    (hFirst : vpn ∈ (itemsOf (n.table way pos)).map Prod.snd)
    (hSecond : vpn ∈ (itemsOf (n.table way' pos')).map Prod.snd) :
    way = way' ∧ pos = pos' := by
  rcases List.mem_map.mp hFirst with ⟨item, hMem, hVpn⟩
  rcases List.mem_map.mp hSecond with ⟨item', hMem', hVpn'⟩
  rcases mem_itemsOf.mp hMem with
    ⟨-, tag, i, hTag, -, hEq⟩
  rcases mem_itemsOf.mp hMem' with
    ⟨-, tag', i', hTag', -, hEq'⟩
  have hSame : tag = tag' := by
    have := i.isLt
    have := i'.isLt
    omega
  subst hSame
  exact hPlaced.unique way pos way' pos' tag hTag hTag'

/- A page number is listed once for all tables. -/
theorem nodup_items
    (hPlaced : Placed c n) :
    ((items c n).map Prod.snd).Nodup := by
  unfold items
  rw [List.map_flatMap, List.nodup_flatMap]
  refine ⟨?_, ?_⟩
  · intro way _
    rw [List.map_flatMap, List.nodup_flatMap]
    refine ⟨fun pos _ => nodup_itemsOf _, ?_⟩
    refine List.nodup_range.imp ?_
    intro pos pos' hNe vpn hFirst hSecond
    exact hNe (slot_unique hPlaced hFirst hSecond).2
  · refine List.nodup_range.imp ?_
    intro way way' hNe vpn hFirst hSecond
    simp only [List.map_flatMap, List.mem_flatMap] at hFirst hSecond
    rcases hFirst with ⟨pos, -, hFirst⟩
    rcases hSecond with ⟨pos', -, hSecond⟩
    exact hNe (slot_unique hPlaced hFirst hSecond).1

/-
  A list of new translations with distinct page numbers is
  inserted whole, or the insertion fails.
-/
theorem insertAll_spec
    (l : List (Element × Nat))
    (hPlaced : Placed c n)
    (hDistinct : (l.map Prod.snd).Nodup)
    (hInsert : ∀ item ∈ l, Insertable n item.1 item.2)
    (nonResident : List Element) :
    (∃ n',
      insertAll c l n nonResident = (true, n', nonResident) ∧
        Placed c n' ∧
        ∀ tag i ppn,
          Content n' tag i ppn ↔
            Content n tag i ppn ∨ Listed l tag i ppn) ∨
      (insertAll c l n nonResident).1 = false := by
  induction l generalizing n with
  | nil =>
      left
      refine ⟨n, rfl, hPlaced, fun tag i ppn => ?_⟩
      simp [Listed]
  | cons item rest ih =>
      rcases item with ⟨e, vpn⟩
      rw [List.map_cons, List.nodup_cons] at hDistinct
      rcases insertElement_spec hPlaced
          (hInsert (e, vpn) (by simp)) nonResident with
        ⟨n', hEq, hPlaced', -, hContent⟩ | ⟨n', old, hEq, -⟩
      · have hRest : ∀ item ∈ rest,
            Insertable n' item.1 item.2 := by
          intro item hMem
          have hItem := hInsert item (by simp [hMem])
          refine ⟨hItem.tag, hItem.valid, ?_⟩
          intro ppn hHas
          rcases (hContent _ _ ppn).mp hHas with
            hOld | ⟨hTag, hIndex, -⟩
          · exact hItem.fresh ppn hOld
          · apply hDistinct.1
            have hVpn : item.2 = vpn := by
              have hMod : item.2 % 8 = vpn % 8 :=
                congrArg Fin.val hIndex
              omega
            exact List.mem_map.mpr ⟨item, hMem, hVpn⟩
        have hStep : insertAll c ((e, vpn) :: rest) n
            nonResident = insertAll c rest n' nonResident := by
          simp [insertAll, hEq]
        rw [hStep]
        rcases ih hPlaced' hDistinct.2 hRest with
          ⟨n'', hAll, hPlaced'', hContent'⟩ | hFail
        · left
          refine ⟨n'', hAll, hPlaced'', fun tag i ppn => ?_⟩
          rw [hContent', hContent, or_assoc]
          simp [Listed]
        · exact Or.inr hFail
      · right
        simp [insertAll, hEq]

theorem insertable_of_mem_itemsOf
    {n' : Nest}
    {item : Element × Nat}
    (hMem : item ∈ itemsOf e)
    (hFresh : ∀ tag i ppn, e.tag = some tag →
      e.validityBits i = true → ¬ Content n' tag i ppn) :
    Insertable n' item.1 item.2 := by
  rcases mem_itemsOf.mp hMem with
    ⟨hElement, tag, i, hTag, hValid, hVpn⟩
  refine ⟨?_, ?_, ?_⟩
  · rw [hElement, hVpn, div_add]
    exact hTag
  · rw [hElement, hVpn, blockIndex_add]
    exact hValid
  · intro ppn
    rw [hVpn, div_add, blockIndex_add]
    exact hFresh tag i ppn hTag hValid

variable {newSize : Nat}

/- A complete migration keeps the content. -/
theorem migrate_spec
    (hPlaced : Placed c n)
    (hSize : 0 < newSize)
    (nonResident : List Element) :
    (∃ n',
      migrate c n nonResident newSize = (true, n', nonResident) ∧
        Placed c n' ∧
        ∀ tag i ppn, Content n' tag i ppn ↔ Content n tag i ppn) ∨
      (migrate c n nonResident newSize).1 = false := by
  unfold migrate
  rcases insertAll_spec (items c n)
      (placed_fresh (c := c) hSize n.numItems)
      (nodup_items hPlaced)
      (fun item hMem => by
        rcases mem_items.mp hMem with
          ⟨way, -, pos, -, hSlot⟩
        exact insertable_of_mem_itemsOf hSlot
          (fun tag i ppn _ _ => not_content_fresh _ _ _ _ _))
      nonResident with
    ⟨n', hEq, hPlaced', hContent⟩ | hFail
  · left
    refine ⟨n', hEq, hPlaced', fun tag i ppn => ?_⟩
    rw [hContent, listed_items hPlaced]
    simp [not_content_fresh]
  · exact Or.inr hFail

/- The translations of an entry that may be waiting. -/
def Waiting
    (pending : Option Element)
    (tag : Nat)
    (i : Fin 8)
    (ppn : Nat) : Prop :=
  ∃ e, pending = some e ∧ e.Has tag i ppn

/- Inserting the waiting entry after a migration. -/
theorem insertNonResident_spec
    (hPlaced : Placed c n)
    {pending : Option Element}
    (hPending : ∀ e, pending = some e → Displaced n e) :
    (∃ n',
      insertNonResident c pending.toList.length 0 n
            pending.toList = (true, n', []) ∧
        Placed c n' ∧
        ∀ tag i ppn,
          Content n' tag i ppn ↔
            Content n tag i ppn ∨ Waiting pending tag i ppn) ∨
      (insertNonResident c pending.toList.length 0 n
        pending.toList).1 = false := by
  cases pending with
  | none =>
      left
      refine ⟨n, rfl, hPlaced, fun tag i ppn => ?_⟩
      simp [Waiting]
  | some e =>
      rcases hPending e rfl with ⟨⟨tag, hTag, hNot⟩, -⟩
      have hInsert : ∀ item ∈ itemsOf e,
          Insertable n item.1 item.2 := by
        intro item hMem
        apply insertable_of_mem_itemsOf hMem
        intro tag' i ppn hTag' _ hContent
        rw [hTag] at hTag'
        cases hTag'
        exact hNot hContent.stores
      rcases insertAll_spec (itemsOf e) hPlaced
          (nodup_itemsOf e) hInsert [e] with
        ⟨n', hEq, hPlaced', hContent⟩ | hFail
      · left
        refine ⟨n', ?_, hPlaced', fun tag' i ppn => ?_⟩
        · simp [insertNonResident, hEq]
        · rw [hContent, listed_itemsOf]
          simp [Waiting]
      · right
        rcases hAll : insertAll c (itemsOf e) n [e] with
          ⟨done, n', rest⟩
        rw [hAll] at hFail
        simp only at hFail
        subst hFail
        simp [insertNonResident, hAll]

/-
  The outcomes of a rehash with an entry that may be waiting.
-/
theorem rehash_spec
    (hPlaced : Placed c n)
    {pending : Option Element}
    (hPending : ∀ e, pending = some e → Displaced n e)
    (hSize : 0 < newSize) :
    (∃ n',
      rehash c n pending.toList newSize = (true, n', []) ∧
        (migrate c n pending.toList newSize).1 = true ∧
        Placed c n' ∧
        ∀ tag i ppn,
          Content n' tag i ppn ↔
            Content n tag i ppn ∨ Waiting pending tag i ppn) ∨
    (∃ k,
      rehash c n pending.toList newSize =
          (false, { n with numItems := k }, pending.toList) ∧
        (migrate c n pending.toList newSize).1 = true) ∨
    ∃ k,
      rehash c n pending.toList newSize =
          (false, { n with numItems := k }, []) ∧
        (migrate c n pending.toList newSize).1 = false := by
  rcases migrate_spec hPlaced hSize pending.toList with
    ⟨n', hMigrate, hPlaced', hContent⟩ | hFail
  · have hPending' : ∀ e, pending = some e → Displaced n' e := by
      intro e hEq
      rcases hPending e hEq with ⟨⟨tag, hTag, hNot⟩, hValid⟩
      refine ⟨⟨tag, hTag, ?_⟩, hValid⟩
      rintro ⟨way, pos, hTag'⟩
      rcases hPlaced'.occupied way pos tag hTag' with
        ⟨i, hValid'⟩
      have hHas : Content n' tag i ((n'.table way pos).frames i) :=
        ⟨way, pos, hTag', hValid', rfl⟩
      exact hNot ((hContent _ _ _).mp hHas).stores
    rcases insertNonResident_spec hPlaced' hPending' with
      ⟨n'', hInsert, hPlaced'', hContent'⟩ | hFail
    · left
      refine ⟨n'', ?_, by rw [hMigrate], hPlaced'', ?_⟩
      · simp [rehash, hMigrate, hInsert]
      · intro tag i ppn
        rw [hContent', hContent]
    · right
      left
      rcases hAll : insertNonResident c pending.toList.length
          0 n' pending.toList with ⟨done, n'', rest⟩
      rw [hAll] at hFail
      simp only at hFail
      subst hFail
      refine ⟨n''.numItems, ?_, by rw [hMigrate]⟩
      simp [rehash, hMigrate, hAll]
  · right
    right
    rcases hAll : migrate c n pending.toList newSize with
      ⟨done, n', rest⟩
    rw [hAll] at hFail
    simp only at hFail
    subst hFail
    exact ⟨n'.numItems, by simp [rehash, hAll], rfl⟩

/- No round of the loop fails while it migrates the tables. -/
def Migrates
    (c : Config) :
    Nat → Nest → List Element → Nat → Prop
| 0, _, _, _ => True
| fuel + 1, n, nonResident, newSize =>
    (migrate c n nonResident newSize).1 = true ∧
      ((rehash c n nonResident newSize).1 = false →
        Migrates c fuel (rehash c n nonResident newSize).2.1
          (rehash c n nonResident newSize).2.2
          (c.grow newSize))

theorem displaced_congr
    {n' : Nest}
    (hTable : n'.table = n.table)
    (hDisplaced : Displaced n e) :
    Displaced n' e := by
  unfold Displaced Stores at *
  rw [hTable]
  exact hDisplaced

/-
  The loop ends with the entry in the tables if no round
  failed while it migrated them, and without it otherwise.
-/
theorem rehashUntil_spec
    (fuel : Nat)
    (hPlaced : Placed c n)
    (pending : Option Element)
    (hPending : ∀ e, pending = some e → Displaced n e)
    (hSize : 0 < newSize)
    {r : Nest × List Element}
    (hLoop : rehashUntil c fuel n pending.toList newSize = some r) :
    r.2 = [] ∧ Placed c r.1 ∧
      ∀ tag i ppn,
        Content r.1 tag i ppn ↔
          Content n tag i ppn ∨
            Migrates c fuel n pending.toList newSize ∧
              Waiting pending tag i ppn := by
  induction fuel generalizing n pending newSize with
  | zero => cases hLoop
  | succ fuel ih =>
      rw [rehashUntil, Option.ite_none_right_eq_some] at hLoop
      replace hLoop := hLoop.2
      rw [Migrates]
      rcases rehash_spec hPlaced hPending hSize with
        ⟨n', hEq, hHere, hPlaced', hContent⟩ |
          ⟨k, hEq, hHere⟩ | ⟨k, hEq, hFail⟩
      · rw [hEq] at hLoop
        cases hLoop
        refine ⟨rfl, hPlaced', fun tag i ppn => ?_⟩
        rw [hContent, hEq]
        simp [hHere]
      · rw [hEq] at hLoop
        rw [hEq, hHere]
        simpa [Content] using ih (n := { n with numItems := k })
          (placed_congr hPlaced rfl rfl) pending
          (fun e hSome => displaced_congr rfl (hPending e hSome))
          (c.grow_pos _ hSize) hLoop
      · -- the entry is dropped, and the loop goes on without
        rw [hEq] at hLoop
        rw [hFail]
        simpa [Waiting, Content] using ih
          (n := { n with numItems := k })
          (placed_congr hPlaced rfl rfl) none
          (fun e hSome => by cases hSome)
          (c.grow_pos _ hSize) hLoop

/- With an entry that waits. -/
theorem rehashUntil_waiting
    (fuel : Nat)
    (hPlaced : Placed c n)
    (hDisplaced : Displaced n e)
    (hSize : 0 < newSize)
    {r : Nest × List Element}
    (hLoop : rehashUntil c fuel n [e] newSize = some r) :
    r.2 = [] ∧ Placed c r.1 ∧
      ∀ tag i ppn,
        Content r.1 tag i ppn ↔
          Content n tag i ppn ∨
            Migrates c fuel n [e] newSize ∧ e.Has tag i ppn := by
  simpa [Waiting] using rehashUntil_spec fuel hPlaced
    (some e)
    (fun e' hSome => Option.some.inj hSome ▸ hDisplaced)
    hSize hLoop

end Cuckoo

end Virtuoso
