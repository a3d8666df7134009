import Virtuoso.PageTable.Cuckoo.Deletion
import Virtuoso.PageTable.Design
import Virtuoso.PageTable.Hdc.Runs
import Virtuoso.PageTable.Ht.Runs
import Virtuoso.PageTable.Radix.Deletion

/-
  Deletions in the four page tables.

  In every state that a radix table of at least four levels
  reaches, a deletion removes the page of a mapped address.
  The deletion of the three hash tables reads the tables of
  the 4KB pages only: it removes no page that a 2MB page
  translates, and in the chained and the cuckoo table no page
  with a second copy that comes up.

  Main declarations:
    * `Radix.design`
    * `removes_reached`
-/

------------------------------------------------------------
-- Single Tables
------------------------------------------------------------

namespace Virtuoso

namespace Radix

/- The radix table as a design. -/
def design : Design Session Op :=
  ⟨step, .delete, fun s => initializeWalk s.table, page⟩

/- A session keeps the shape of its table. -/
theorem shape_step
    {levels : Nat}
    (s : Session)
    (op : Op)
    (s' : Session)
    (hShape : s.table.levels = levels ∧
      s.table.pageSizeList = [12, 21])
    (hStep : step s op = some s') :
    s'.table.levels = levels ∧
      s'.table.pageSizeList = [12, 21] := by
  cases op with
  | update address ppn pageSize frames =>
      rcases Option.map_eq_some_iff.mp hStep with
        ⟨r, hUpdate, hState⟩
      subst hState
      unfold updatePageTableFrames at hUpdate
      split at hUpdate
      · cases hUpdate
        exact hShape
      · cases hUpdate
  | delete address =>
      rcases Option.map_eq_some_iff.mp hStep with
        ⟨t, hDelete, hState⟩
      subst hState
      unfold deletePage at hDelete
      split at hDelete
      · cases hDelete
        exact hShape
      · cases hDelete

/- A table of at least four levels deletes whole pages. -/
theorem removes_of_shape
    {s : Session}
    (hLevels : 4 ≤ s.table.levels)
    (hSizes : s.table.pageSizeList = [12, 21])
    (address : Nat) :
    design.Removes s address := by
  intro r ppn bits hWalk hFound
  have hPath : walk s.table.levels [12, 21] address
      s.table.levels s.table.root = some r := by
    rw [← hSizes]
    exact hWalk
  rcases delete_walk s.table.levels s.table.root hPath hFound with
    ⟨root, hDeleted, ⟨r', hWalk', hFault⟩, leaf, -, hSize, hOthers⟩
  refine ⟨⟨{ s.table with root := root },
    .delete address :: s.past⟩, ?_, ⟨r', ?_, hFault⟩, ?_⟩
  · simp [design, step, deletePage, hDeleted]
  · rw [← hSizes] at hWalk'
    exact hWalk'
  · intro other hNe
    have hSame := hOthers other (parts_of_page_ne hLevels hSize hNe)
    rw [← hSizes] at hSame
    exact congrArg (Option.map PTWResult.answer) hSame

end Radix

namespace Hdc

variable {c : Config}

/- The table of HDC as a design. -/
def design (c : Config) : Design PageTableHDC PageMap.Op :=
  Design.hashed (step c) (initializeWalk c)

/- What the table of a page size has for an address. -/
def find
    (c : Config)
    (t : PageTableHDC)
    (pageSize : PageSize)
    (address : Nat) :
    Option (Option (Nat × Nat)) :=
  (walkTable c (t.tables pageSize) address pageSize).map Prod.snd

/- A slot of the probe of a walk decides what is found. -/
theorem map_snd_walkTable
    (t : Table)
    (address : Nat)
    (pageSize : PageSize) :
    (walkTable c t address pageSize).map Prod.snd =
      (probeFor c (stopsWalk (pageSize.vpn address / 8))
        t.slots t.size (pageSize.vpn address / 8)).2.map
          (fun pos =>
            if (t.slots pos).tag = some (pageSize.vpn address / 8) ∧
                (t.slots pos).valid (blockOffset
                  (pageSize.vpn address)) = true then
              some ((t.slots pos).ppn (blockOffset
                (pageSize.vpn address)), pageSize.bits)
            else none) := by
  simp [walkTable, Option.map_map, Function.comp_def]

theorem layered
    (c : Config) :
    Design.Layered (step c) (initializeWalk c) (find c) := by
  refine ⟨?_, ?_, ?_⟩
  · intro t a
    unfold initializeWalk find
    cases walkTable c (t.tables .fourKb) a .fourKb with
    | none => rfl
    | some small =>
        cases walkTable c (t.tables .twoMb) a .twoMb with
        | none => rfl
        | some large => rfl
  · intro t pageSize a ppn bits hFind
    rw [find, map_snd_walkTable] at hFind
    rcases Option.map_eq_some_iff.mp hFind with
      ⟨pos, -, hHit⟩
    split at hHit
    · cases hHit
      rfl
    · cases hHit
  · intro t a t' hStep b
    rcases Option.map_eq_some_iff.mp hStep with
      ⟨table, -, hState⟩
    rw [← hState, find, find]
    rfl

/- A table without one translation of a slot. -/
def Table.clear
    (t : Table)
    (pos : Nat)
    (offset : Fin 8) : Table :=
  { t with
    slots := Function.update t.slots pos
      { t.slots pos with
        valid := Function.update (t.slots pos).valid offset
          false } }

/- The walks of a cleared table probe the same slots. -/
theorem probeFor_clear
    (t : Table)
    (pos : Nat)
    (offset : Fin 8)
    (tag : Nat) :
    probeFor c (stopsWalk tag) (t.clear pos offset).slots
        (t.clear pos offset).size tag =
      probeFor c (stopsWalk tag) t.slots t.size tag := by
  refine Probe.probe_congr ?_ _ _
  intro p
  by_cases hEq : p = pos
  · simp [Table.clear, hEq, stopsWalk]
  · simp [Table.clear, hEq]

/- Another page reads the same in a cleared slot. -/
theorem hit_clear_of_ne
    {t : Table}
    {pos vpn : Nat}
    (hTag : (t.slots pos).tag = some (vpn / 8))
    {other : Nat}
    (hNe : other ≠ vpn)
    (p : Nat) :
    (((t.clear pos (blockOffset vpn)).slots p).tag =
          some (other / 8) ∧
        ((t.clear pos (blockOffset vpn)).slots p).valid
          (blockOffset other) = true) ↔
      (t.slots p).tag = some (other / 8) ∧
        (t.slots p).valid (blockOffset other) = true := by
  by_cases hEq : p = pos
  · subst hEq
    simp only [Table.clear, Function.update_self]
    refine and_congr_right (fun hTag' => ?_)
    rw [hTag, Option.some.injEq] at hTag'
    have hOffset : blockOffset other ≠ blockOffset vpn := by
      intro hSame
      have hMod : other % 8 = vpn % 8 := congrArg Fin.val hSame
      omega
    rw [Function.update_of_ne hOffset]
  · simp [Table.clear, hEq]

/-
  The deletion stops at the slot of the walk, whose tag it
  leaves, so no other walk changes.
-/
theorem deletes_found
    {t : PageTableHDC}
    {address : Nat}
    {x : Nat × Nat}
    (hFind : find c t .fourKb address = some (some x)) :
    ∃ t', step c t (.delete address) = some t' ∧
      find c t' .fourKb address = some none ∧
      ∀ other, PageSize.fourKb.vpn other ≠
          PageSize.fourKb.vpn address →
        find c t' .fourKb other = find c t .fourKb other := by
  rw [find, map_snd_walkTable] at hFind
  rcases Option.map_eq_some_iff.mp hFind with
    ⟨pos, hProbe, hHit⟩
  split at hHit
  case isFalse => cases hHit
  case isTrue hSlot =>
    rcases hSlot with ⟨hTag, hValid⟩
    have hStop : (probeFor c
        (stopsDelete (PageSize.fourKb.vpn address / 8)
          (blockOffset (PageSize.fourKb.vpn address)))
        (t.tables .fourKb).slots (t.tables .fourKb).size
        (PageSize.fourKb.vpn address / 8)).2 = some pos := by
      refine Probe.probe_of_imp ?_ hProbe
        (by simp [stopsDelete, hTag, hValid])
      intro e hDelete
      simp only [stopsDelete, stopsWalk, Bool.or_eq_true,
        Bool.and_eq_true] at hDelete ⊢
      exact hDelete.imp_left And.left
    have hDelete : deletePage c t address = some
        { t with
          tables := Function.update t.tables .fourKb
            ((t.tables .fourKb).clear pos
              (blockOffset (PageSize.fourKb.vpn address))) } := by
      rw [deletePage, deleteFrom, hStop]
      simp only [Option.map_some, hTag, hValid, and_self, if_true]
      rw [← hTag]
      rfl
    refine ⟨_, hDelete, ?_, ?_⟩
    · simp only [find, Function.update_self]
      rw [map_snd_walkTable, probeFor_clear, hProbe]
      simp [Table.clear]
    · intro other hNe
      simp only [find, Function.update_self]
      rw [map_snd_walkTable, map_snd_walkTable, probeFor_clear]
      refine Option.map_congr ?_
      intro p _
      simp only [hit_clear_of_ne hTag hNe]
      by_cases hEq : p = pos
      · simp [Table.clear, hEq]
      · simp [Table.clear, hEq]

/- Only 2MB pages stay. -/
theorem removes_iff
    (t : PageTableHDC)
    (address : Nat) :
    (design c).Removes t address ↔
      ¬ (design c).MappedLarge t address := by
  constructor
  · intro hRemoves hLarge
    exact (layered c).not_removes_of_mappedLarge hLarge hRemoves
  · intro hSmall
    exact (layered c).removes hSmall
      (fun _ hFind => deletes_found hFind)

end Hdc

namespace Ht

variable {c : Config}

/- The chained table as a design. -/
def design (c : Config) : Design PageTableHT PageMap.Op :=
  Design.hashed (step c)
    (fun t address => some (initializeWalk c t address))

/- The chain of the 4KB table that a page belongs to. -/
def smallChain
    (c : Config)
    (t : PageTableHT)
    (vpn : Nat) :
    List Entry :=
  (t.tables .fourKb).buckets
    (hashFunction c (vpn / 8) (t.tables .fourKb).size)

/-
  The entry that translates a page has no other translation,
  and the next entry of its tag has one.
-/
def Stacked
    (c : Config)
    (t : PageTableHT)
    (address : Nat) : Prop :=
  let vpn := PageSize.fourKb.vpn address
  let chain := smallChain c t vpn
  ∃ e ∈ firstOf (vpn / 8) chain,
    e.valid (blockOffset vpn) = true ∧
      (∀ i, (e.clear (blockOffset vpn)).valid i = false) ∧
      ∃ next ∈ firstOf (vpn / 8) (behind (vpn / 8) chain),
        ∃ i, next.valid i = true

instance
    (t : PageTableHT)
    (address : Nat) :
    Decidable (Stacked c t address) :=
  inferInstanceAs (Decidable (∃ e ∈ firstOf _ _, _))

/- What the table of a page size has for an address. -/
def find
    (c : Config)
    (t : PageTableHT)
    (pageSize : PageSize)
    (address : Nat) :
    Option (Option (Nat × Nat)) :=
  some (walkTable c (t.tables pageSize) address pageSize).2

theorem find_fourKb
    (t : PageTableHT)
    (address : Nat) :
    find c t .fourKb address =
      some (((firstOf (PageSize.fourKb.vpn address / 8)
        (smallChain c t (PageSize.fourKb.vpn address))).bind
          (fun e => e.found
            (blockOffset (PageSize.fourKb.vpn address)))).map
        (fun ppn => (ppn, PageSize.fourKb.bits))) := by
  rw [find, walkTable, snd_walkChain]
  rfl

theorem layered
    (c : Config) :
    Design.Layered (step c)
      (fun t address => some (initializeWalk c t address))
      (find c) := by
  refine ⟨fun _ _ => rfl, ?_, ?_⟩
  · intro t pageSize a ppn bits hFind
    rcases Option.map_eq_some_iff.mp (Option.some.inj hFind)
      with ⟨ppn', -, hEq⟩
    exact (congrArg Prod.snd hEq).symm
  · intro t a t' hStep b
    rw [← Option.some.inj hStep]
    rfl

/- The chains of the 4KB table after a deletion. -/
theorem smallChain_deletePage
    (t : PageTableHT)
    (address vpn : Nat) :
    smallChain c (deletePage c t address) vpn =
      if hashFunction c (vpn / 8) (t.tables .fourKb).size =
          hashFunction c (PageSize.fourKb.vpn address / 8)
            (t.tables .fourKb).size then
        deleteChain (PageSize.fourKb.vpn address / 8)
          (blockOffset (PageSize.fourKb.vpn address))
          (smallChain c t vpn)
      else
        smallChain c t vpn := by
  unfold smallChain deletePage
  simp only [Function.update_self, Function.update_apply]
  split
  · rename_i hSame
    rw [hSame]
  · rfl

/- The pages of other blocks keep their entries. -/
theorem firstOf_deletePage_of_ne
    (t : PageTableHT)
    {address vpn : Nat}
    (hNe : vpn / 8 ≠ PageSize.fourKb.vpn address / 8) :
    firstOf (vpn / 8) (smallChain c (deletePage c t address) vpn) =
      firstOf (vpn / 8) (smallChain c t vpn) := by
  rw [smallChain_deletePage]
  split
  · exact firstOf_deleteChain_of_ne hNe _ _
  · rfl

/- The entry of a page of the same block. -/
theorem firstOf_deletePage
    (t : PageTableHT)
    {address vpn : Nat}
    (hTag : vpn / 8 = PageSize.fourKb.vpn address / 8) :
    firstOf (vpn / 8) (smallChain c (deletePage c t address) vpn) =
      (firstOf (vpn / 8) (smallChain c t vpn)).bind (fun e =>
        if ∀ i, (e.clear (blockOffset
            (PageSize.fourKb.vpn address))).valid i = false then
          firstOf (vpn / 8) (behind (vpn / 8) (smallChain c t vpn))
        else
          some (e.clear (blockOffset
            (PageSize.fourKb.vpn address)))) := by
  rw [smallChain_deletePage, hTag, if_pos rfl]
  exact firstOf_deleteChain _ _ _

theorem found_clear
    (e : Entry)
    (offset i : Fin 8) :
    (e.clear offset).found i =
      if i = offset then none else e.found i := by
  by_cases hEq : i = offset
  · simp [Entry.found, Entry.clear, hEq]
  · simp [Entry.found, Entry.clear, hEq]

theorem found_eq_none
    {e : Entry}
    {i : Fin 8}
    (hValid : e.valid i = false) :
    e.found i = none := by
  simp [Entry.found, hValid]

/- A page whose block is not stacked is taken out alone. -/
theorem deletes_found
    {t : PageTableHT}
    {address : Nat}
    (hSingle : ¬ Stacked c t address)
    {x : Nat × Nat}
    (hFind : find c t .fourKb address = some (some x)) :
    ∃ t', step c t (.delete address) = some t' ∧
      find c t' .fourKb address = some none ∧
      ∀ other, PageSize.fourKb.vpn other ≠
          PageSize.fourKb.vpn address →
        find c t' .fourKb other = find c t .fourKb other := by
  -- What a page of the block finds before and after.
  have hBlock : ∀ vpn,
      vpn / 8 = PageSize.fourKb.vpn address / 8 →
        (firstOf (vpn / 8)
            (smallChain c (deletePage c t address) vpn)).bind
              (fun e => e.found (blockOffset vpn)) =
          if blockOffset vpn =
              blockOffset (PageSize.fourKb.vpn address) then
            none
          else
            (firstOf (vpn / 8) (smallChain c t vpn)).bind
              (fun e => e.found (blockOffset vpn)) := by
    intro vpn hTag
    have hChain : smallChain c t vpn =
        smallChain c t (PageSize.fourKb.vpn address) := by
      rw [smallChain, hTag]
      rfl
    rw [firstOf_deletePage t hTag, hTag, hChain]
    rw [find_fourKb, Option.some.injEq] at hFind
    cases hFirst : firstOf (PageSize.fourKb.vpn address / 8)
        (smallChain c t (PageSize.fourKb.vpn address)) with
    | none => simp [hFirst] at hFind
    | some e =>
        rw [hFirst, Option.bind_some] at hFind
        have hValid : e.valid (blockOffset
            (PageSize.fourKb.vpn address)) = true := by
          by_contra hNot
          rw [found_eq_none (Bool.eq_false_iff.mpr hNot)] at hFind
          cases hFind
        rw [Option.bind_some, Option.bind_some]
        split
        · rename_i hAlone
          have hOwn : (e.clear (blockOffset
              (PageSize.fourKb.vpn address))).found
                (blockOffset vpn) = none :=
            found_eq_none (hAlone _)
          rw [found_clear] at hOwn
          rw [hOwn, Option.bind_eq_none_iff]
          intro next hNext
          apply found_eq_none
          by_contra hNot
          exact hSingle ⟨e, hFirst, hValid, hAlone, next,
            hNext, _, Bool.not_eq_false _ ▸ hNot⟩
        · rw [Option.bind_some, found_clear]
  refine ⟨_, rfl, ?_, ?_⟩
  · rw [find_fourKb, hBlock _ rfl, if_pos rfl]
    rfl
  · intro other hNe
    rw [find_fourKb, find_fourKb]
    by_cases hTag : PageSize.fourKb.vpn other / 8 =
        PageSize.fourKb.vpn address / 8
    · have hOffset :
          blockOffset (PageSize.fourKb.vpn other) ≠
            blockOffset (PageSize.fourKb.vpn address) :=
        fun hSame => hNe (vpn_eq_iff.mp ⟨hTag, hSame⟩)
      rw [hBlock _ hTag, if_neg hOffset]
    · rw [firstOf_deletePage_of_ne t hTag]

/- An address of the page at an offset of a block. -/
def addressAt (tag : Nat) (i : Fin 8) : Nat :=
  (tag * 8 + i.val) * 4096

theorem vpn_addressAt
    (tag : Nat)
    (i : Fin 8) :
    PageSize.fourKb.vpn (addressAt tag i) / 8 = tag ∧
      blockOffset (PageSize.fourKb.vpn (addressAt tag i)) = i := by
  have hLess := i.isLt
  simp only [PageSize.vpn, PageSize.bits, addressAt,
    blockOffset, Fin.ext_iff]
  omega

/- The block behind a stacked one comes up in its place. -/
theorem not_removes_of_stacked
    {t : PageTableHT}
    {address : Nat}
    (hSmall : ¬ (design c).MappedLarge t address)
    (hStacked : Stacked c t address) :
    ¬ (design c).Removes t address := by
  rcases hStacked with
    ⟨e, hFirst, hValid, hAlone, next, hNext, i, hOther⟩
  have hFind : find c t .fourKb address =
      some (some (e.ppn (blockOffset
        (PageSize.fourKb.vpn address)), 12)) := by
    rw [find_fourKb, Option.mem_def.mp hFirst]
    simp [Entry.found, hValid, PageSize.bits]
  have hLarge : find c t .twoMb address = some none :=
    congrArg some ((layered c).twoMb_eq_none hSmall hFind rfl)
  -- What the pages of the block find after the deletion.
  have hAfter : ∀ a, PageSize.fourKb.vpn a / 8 =
      PageSize.fourKb.vpn address / 8 →
        blockOffset (PageSize.fourKb.vpn a) = i →
          find c (deletePage c t address) .fourKb a =
            some (some (next.ppn i, 12)) := by
    intro a hTag hOffset
    have hChain :
        smallChain c t (PageSize.fourKb.vpn a) =
          smallChain c t (PageSize.fourKb.vpn address) := by
      rw [smallChain, hTag]
      rfl
    rw [find_fourKb, firstOf_deletePage t hTag, hTag, hChain,
      Option.mem_def.mp hFirst, Option.bind_some,
      if_pos hAlone, Option.mem_def.mp hNext, hOffset]
    simp [Entry.found, hOther, PageSize.bits]
  by_cases hOwn : i = blockOffset (PageSize.fourKb.vpn address)
  · exact (layered c).not_removes_of_found hFind hLarge rfl
      hLarge (hAfter address rfl hOwn.symm) (Or.inl rfl)
  · rcases vpn_addressAt (PageSize.fourKb.vpn address / 8) i
      with ⟨hTag, hOffset⟩
    set other :=
      addressAt (PageSize.fourKb.vpn address / 8) i with hEq
    have hRegion : PageSize.twoMb.vpn other =
        PageSize.twoMb.vpn address := by
      have hLess := i.isLt
      simp only [hEq, PageSize.vpn, PageSize.bits, addressAt]
      omega
    have hOtherLarge : find c t .twoMb other = some none := by
      rw [← hLarge, find, find, walkTable, walkTable, hRegion]
    have hInvalid : e.valid i = false := by
      by_contra hNot
      have hClear := valid_clear_iff.mpr
        ⟨hOwn, Bool.not_eq_false _ ▸ hNot⟩
      rw [hAlone i] at hClear
      cases hClear
    have hChain :
        smallChain c t (PageSize.fourKb.vpn other) =
          smallChain c t (PageSize.fourKb.vpn address) := by
      rw [smallChain, hTag]
      rfl
    refine (layered c).not_removes_of_found hFind hLarge rfl
      hOtherLarge (hAfter other hTag hOffset)
      (Or.inr ⟨?_, ?_⟩)
    · intro hSame
      rw [hSame] at hOffset
      exact hOwn hOffset.symm
    · rw [find_fourKb, hTag, hChain,
        Option.mem_def.mp hFirst, Option.bind_some, hOffset,
        found_eq_none hInvalid]
      rfl

/- 2MB pages stay, and so do the translations underneath. -/
theorem removes_iff
    (t : PageTableHT)
    (address : Nat) :
    (design c).Removes t address ↔
      ¬ (design c).MappedLarge t address ∧
        ¬ Stacked c t address := by
  constructor
  · intro hRemoves
    have hSmall : ¬ (design c).MappedLarge t address :=
      fun hLarge =>
        (layered c).not_removes_of_mappedLarge hLarge hRemoves
    exact ⟨hSmall, fun hStacked =>
      not_removes_of_stacked hSmall hStacked hRemoves⟩
  · rintro ⟨hSmall, hSingle⟩
    exact (layered c).removes hSmall
      (fun _ hFind => deletes_found hSingle hFind)

end Ht

namespace Cuckoo

variable {c : Config}

/- The cuckoo table as a design. -/
def design
    (c : Config)
    (fuel : Nat) :
    Design PageTableCuckoo PageMap.Op :=
  Design.hashed (operate c fuel)
    (fun t address => some (initializeWalk c t address))

/- What the ways of a page size have for an address. -/
def find
    (c : Config)
    (t : PageTableCuckoo)
    (pageSize : PageSize)
    (address : Nat) :
    Option (Option (Nat × Nat)) :=
  some ((hits c t address pageSize).getLast?.map
    (fun x => (x.1, x.2.bits)))

theorem snd_of_mem_hits
    {t : PageTableCuckoo}
    {address : Nat}
    {pageSize : PageSize}
    {x : Nat × PageSize}
    (hMem : x ∈ hits c t address pageSize) :
    x.2 = pageSize := by
  rcases List.mem_filterMap.mp hMem with ⟨way, -, hProbe⟩
  rw [snd_probe] at hProbe
  rcases Option.map_eq_some_iff.mp hProbe with ⟨ppn, -, hEq⟩
  rw [← hEq]

theorem layered
    (c : Config)
    (fuel : Nat) :
    Design.Layered (operate c fuel)
      (fun t address => some (initializeWalk c t address))
      (find c) := by
  refine ⟨?_, ?_, ?_⟩
  · intro t a
    have hWalk := translation_eq (c := c) t a
    rw [List.getLast?_append, Option.map_or] at hWalk
    simp only [find, Option.map_some, Option.bind_some,
      PTWResult.answer, isPagefault_eq, hWalk]
  · intro t pageSize a ppn bits hFind
    rcases Option.map_eq_some_iff.mp (Option.some.inj hFind)
      with ⟨x, hLast, hEq⟩
    have hSize :=
      snd_of_mem_hits (List.mem_of_getLast? hLast)
    rw [← hSize]
    exact (congrArg Prod.snd hEq).symm
  · intro t a t' hStep b
    rw [← Option.some.inj hStep]
    rfl

/- The hits of another page are the same, in every way. -/
theorem hits_deletePage_of_ne
    (t : PageTableCuckoo)
    {address other : Nat}
    (hNe : PageSize.fourKb.vpn other ≠
      PageSize.fourKb.vpn address) :
    hits c (deletePage c t address) other .fourKb =
      hits c t other .fourKb := by
  unfold hits
  apply List.filterMap_congr
  intro way _
  rw [probe_deletePage, if_neg (fun hBoth => hNe hBoth.2)]

/- A deleted page is hit exactly if another way has it. -/
theorem hits_deletePage_eq_nil_iff
    (t : PageTableCuckoo)
    (address : Nat) :
    hits c (deletePage c t address) address .fourKb = [] ↔
      ¬ Doubled c t address := by
  unfold hits Doubled
  rw [List.filterMap_eq_nil_iff]
  push Not
  refine forall₂_congr (fun way _ => ?_)
  rw [probe_deletePage]
  by_cases hFirst : findTag c (t.nests .fourKb)
      (PageSize.fourKb.vpn address / 8) = some way
  · simp [hFirst]
  · simp [hFirst]

theorem exists_find
    {t : PageTableCuckoo}
    {address : Nat}
    {pageSize : PageSize}
    (hHit : hits c t address pageSize ≠ []) :
    ∃ x, find c t pageSize address = some (some x) := by
  rw [find, List.getLast?_eq_some_getLast hHit]
  exact ⟨_, rfl⟩

/- 2MB pages stay, and so do copies in other ways. -/
theorem removes_iff
    (fuel : Nat)
    (t : PageTableCuckoo)
    (address : Nat) :
    (design c fuel).Removes t address ↔
      ¬ (design c fuel).MappedLarge t address ∧
        ¬ Doubled c t address := by
  constructor
  · intro hRemoves
    have hSmall : ¬ (design c fuel).MappedLarge t address :=
      fun hLarge =>
        (layered c fuel).not_removes_of_mappedLarge hLarge hRemoves
    refine ⟨hSmall, fun hDoubled => ?_⟩
    have hStays : hits c (deletePage c t address) address
        .fourKb ≠ [] :=
      fun hNil => (hits_deletePage_eq_nil_iff t address).mp
        hNil hDoubled
    have hHit : hits c t address .fourKb ≠ [] := by
      rcases hDoubled with ⟨way, hWay, -, hProbe⟩
      intro hNil
      exact hProbe (List.filterMap_eq_nil_iff.mp hNil way hWay)
    rcases exists_find hHit with ⟨x, hFind⟩
    rcases exists_find hStays with ⟨y, hAfter⟩
    have hLarge : find c t .twoMb address = some none :=
      congrArg some
        ((layered c fuel).twoMb_eq_none hSmall hFind rfl)
    exact (layered c fuel).not_removes_of_found hFind hLarge
      rfl hLarge hAfter (Or.inl rfl) hRemoves
  · rintro ⟨hSmall, hOnce⟩
    refine (layered c fuel).removes hSmall (fun _ _ =>
      ⟨_, rfl, ?_, ?_⟩)
    · rw [find, (hits_deletePage_eq_nil_iff t address).mpr hOnce]
      rfl
    · intro other hNe
      rw [find, find, hits_deletePage_of_ne t hNe]

end Cuckoo

------------------------------------------------------------
-- The Four Page Tables
------------------------------------------------------------

/-
  The deletions of the radix table in the states it reaches,
  and those of the hash tables in every state.
-/
theorem removes_reached
    (address : Nat) :
    (∀ levels, 4 ≤ levels →
      ∀ ops s,
        Run.run Radix.step (Radix.start levels) ops = some s →
          Radix.design.Removes s address) ∧
    (∀ (c : Hdc.Config) t,
      (Hdc.design c).Removes t address ↔
        ¬ (Hdc.design c).MappedLarge t address) ∧
    (∀ (c : Ht.Config) t,
      (Ht.design c).Removes t address ↔
        ¬ (Ht.design c).MappedLarge t address ∧
          ¬ Ht.Stacked c t address) ∧
    ∀ (c : Cuckoo.Config) fuel t,
      (Cuckoo.design c fuel).Removes t address ↔
        ¬ (Cuckoo.design c fuel).MappedLarge t address ∧
          ¬ Cuckoo.Doubled c t address := by
  refine ⟨?_, ?_, ?_, ?_⟩
  · intro levels hLevels ops s hRun
    rcases Run.run_invariant Radix.shape_step
        ⟨rfl, rfl⟩ hRun with ⟨hShape, hSizes⟩
    exact Radix.removes_of_shape (hShape ▸ hLevels) hSizes address
  · exact fun c t => Hdc.removes_iff t address
  · exact fun c t => Ht.removes_iff t address
  · exact fun c fuel t => Cuckoo.removes_iff fuel t address

/- A 4KB page beside a 2MB page, in each of the tables. -/
def bothSizes : List PageMap.Op :=
  [.update 0x1000 7 .fourKb, .update 0x400000 512 .twoMb]

/- One bucket that all blocks share. -/
def Ht.oneBucket : Ht.Config :=
  ⟨fun _ => 0, fun count size => decide (size < count), 2,
    Nat.one_lt_two⟩

/- One slot, which grows as soon as it is filled. -/
def Hdc.oneSlot : Hdc.Config :=
  Config.ofThreshold (fun _ => 0) 1 full_le_one 2 Nat.one_lt_two

/- The 4KB page of the run is removed from all tables. -/
theorem removes_reached_small :
    (∃ s, Run.run Radix.step (Radix.start 4)
        [.update 0x1000 7 .fourKb [1, 2, 3]] = some s ∧
      Radix.design.Removes s 0x1000) ∧
    (∃ t, Run.run (Hdc.step Hdc.oneSlot)
        (Hdc.construct (fun _ => 1) 0) bothSizes = some t ∧
      (Hdc.design Hdc.oneSlot).Removes t 0x1000) ∧
    (∃ t, Run.run (Ht.step Ht.oneBucket)
        (Ht.construct (fun _ => 1) 0) bothSizes = some t ∧
      (Ht.design Ht.oneBucket).Removes t 0x1000) ∧
    ∃ t, Run.run (Cuckoo.operate Cuckoo.halfFull 4)
        (Cuckoo.construct (fun _ => 2)) bothSizes = some t ∧
      (Cuckoo.design Cuckoo.halfFull 4).Removes t 0x1000 := by
  have hRadix : ∃ s ∈ Run.run Radix.step (Radix.start 4)
      [.update 0x1000 7 .fourKb [1, 2, 3]], True := by
    decide +kernel
  have hHdc : ∃ t ∈ Run.run (Hdc.step Hdc.oneSlot)
      (Hdc.construct (fun _ => 1) 0) bothSizes,
      ¬ (Hdc.design Hdc.oneSlot).MappedLarge t 0x1000 := by
    decide +kernel
  have hHt : ∃ t ∈ Run.run (Ht.step Ht.oneBucket)
      (Ht.construct (fun _ => 1) 0) bothSizes,
      ¬ (Ht.design Ht.oneBucket).MappedLarge t 0x1000 ∧
        ¬ Ht.Stacked Ht.oneBucket t 0x1000 := by
    decide +kernel
  have hCuckoo : ∃ t ∈ Run.run
      (Cuckoo.operate Cuckoo.halfFull 4)
      (Cuckoo.construct (fun _ => 2)) bothSizes,
      ¬ (Cuckoo.design Cuckoo.halfFull 4).MappedLarge t 0x1000 ∧
        ¬ Cuckoo.Doubled Cuckoo.halfFull t 0x1000 := by
    decide +kernel
  rcases hRadix with ⟨s, hRun, -⟩
  rcases hHdc with ⟨t₁, hRun₁, hSmall₁⟩
  rcases hHt with ⟨t₂, hRun₂, hSmall₂⟩
  rcases hCuckoo with ⟨t₃, hRun₃, hSmall₃⟩
  rcases removes_reached 0x1000 with
    ⟨hFirst, hSecond, hThird, hFourth⟩
  exact ⟨⟨s, hRun, hFirst 4 (Nat.le_refl 4) _ s hRun⟩,
    ⟨t₁, hRun₁, (hSecond _ t₁).mpr hSmall₁⟩,
    ⟨t₂, hRun₂, (hThird _ t₂).mpr hSmall₂⟩, t₃, hRun₃,
    (hFourth _ 4 t₃).mpr hSmall₃⟩

/-
  The 2MB page of the same run is still translated after its
  deletion, in each of the hash tables.
-/
theorem not_removes_hugePage :
    (∃ t, Run.run (Hdc.step Hdc.oneSlot)
        (Hdc.construct (fun _ => 1) 0) bothSizes = some t ∧
      ¬ (Hdc.design Hdc.oneSlot).Removes t 0x400000) ∧
    (∃ t, Run.run (Ht.step Ht.oneBucket)
        (Ht.construct (fun _ => 1) 0) bothSizes = some t ∧
      ¬ (Ht.design Ht.oneBucket).Removes t 0x400000) ∧
    ∃ t, Run.run (Cuckoo.operate Cuckoo.halfFull 4)
        (Cuckoo.construct (fun _ => 2)) bothSizes = some t ∧
      ¬ (Cuckoo.design Cuckoo.halfFull 4).Removes t 0x400000 := by
  have hHdc : ∃ t ∈ Run.run (Hdc.step Hdc.oneSlot)
      (Hdc.construct (fun _ => 1) 0) bothSizes,
      (Hdc.design Hdc.oneSlot).Survives t 0x400000 := by
    decide +kernel
  have hHt : ∃ t ∈ Run.run (Ht.step Ht.oneBucket)
      (Ht.construct (fun _ => 1) 0) bothSizes,
      (Ht.design Ht.oneBucket).Survives t 0x400000 := by
    decide +kernel
  have hCuckoo : ∃ t ∈ Run.run
      (Cuckoo.operate Cuckoo.halfFull 4)
      (Cuckoo.construct (fun _ => 2)) bothSizes,
      (Cuckoo.design Cuckoo.halfFull 4).Survives t 0x400000 := by
    decide +kernel
  rcases hHdc with ⟨t₁, hRun₁, hStays₁⟩
  rcases hHt with ⟨t₂, hRun₂, hStays₂⟩
  rcases hCuckoo with ⟨t₃, hRun₃, hStays₃⟩
  exact ⟨⟨t₁, hRun₁, hStays₁.not_removes⟩,
    ⟨t₂, hRun₂, hStays₂.not_removes⟩, t₃, hRun₃,
    hStays₃.not_removes⟩

end Virtuoso
