import Virtuoso.Lib.Run
import Virtuoso.PageTable.Radix.Entry

/-
  Runs of the radix page table.

  A session is a table together with the operations it has
  performed. With four levels the walk agrees with the
  abstract mapping in every state of a session exactly when
  no 4KB page is mapped in a region that was ever mapped with
  2MB, and only regions that were mapped before are deleted
  from. With any other number of levels the indices do not
  match the page sizes.

  Main declarations:
    * `Radix.Session`
    * `Radix.agrees_run_iff`
-/

------------------------------------------------------------
-- Sessions, Walks And Entries
------------------------------------------------------------

namespace Virtuoso

namespace Radix

open PTEntry

/- The calls that change the table. -/
inductive Op
  | update (address ppn : Nat) (pageSize : PageSize)
      (frames : List Nat)
  | delete (address : Nat)
deriving DecidableEq

/- A table and its operations, the latest first. -/
structure Session where
  table : PageTableRadix
  past : List Op

/- The table as it is constructed. -/
def start (levels : Nat) : Session :=
  ⟨construct levels [12, 21], []⟩

/- A call, noted in the history if it succeeds. -/
def step (s : Session) : Op → Option Session
| .update address ppn pageSize frames =>
    (updatePageTableFrames s.table address ppn pageSize
      frames).map (fun r =>
        ⟨r.2, .update address ppn pageSize frames :: s.past⟩)
| .delete address =>
    (deletePage s.table address).map
      (fun t => ⟨t, .delete address :: s.past⟩)

/- The mapping that the operations stand for. -/
def mappingOf :
    List Op → Mapping
| [] => Mapping.empty
| .update address ppn pageSize _ :: past =>
    (mappingOf past).map pageSize (pageOf address) ppn
| .delete address :: past =>
    (mappingOf past).unmap (pageOf address)

/-
  Every walk reports a fault exactly when the page has no
  mapping, and returns the mapping otherwise.
-/
def Agrees (s : Session) : Prop :=
  ∀ address, ∃ r, initializeWalk s.table address = some r ∧
    r.translation = mappingOf s.past (pageOf address) ∧
    r.isPagefault = (mappingOf s.past (pageOf address)).isNone

/- An update of some page in a 2MB region. -/
def Op.mapsIn (region : Nat) : Op → Bool
| .update address _ _ _ => pageOf address / 512 == region
| .delete _ => false

/- An update with a 2MB page of a 2MB region. -/
def Op.mapsLargeIn (region : Nat) : Op → Bool
| .update address _ .twoMb _ =>
    pageOf address / 512 == region
| _ => false

/-
  The operations that the table supports: a 4KB page is not
  mapped where a 2MB page was, a deletion stays in regions
  mapped before, and the page number is not the invalid one.
-/
def WithinReach (s : Session) : Op → Prop
| .update _ ppn .twoMb _ => ppn ≠ invalidPpn
| .update address ppn .fourKb _ =>
    ppn ≠ invalidPpn ∧
      ∀ op ∈ s.past, op.mapsLargeIn (pageOf address / 512) = false
| .delete address =>
    ∃ op ∈ s.past, op.mapsIn (pageOf address / 512) = true

/- An update brings the frames that are missing. -/
def Supplied (s : Session) : Op → Prop
| .update address _ pageSize frames =>
    missingFrames s.table.levels address s.table.levels
        (some s.table.root) ≤
      frames.length + (leafLevel pageSize - 1)
| .delete _ => True

/- The walks that end: at an entry without a page, at a leaf,
   or below an entry. -/
inductive Walks
    (levels : Nat)
    (sizes : List Nat)
    (address : Nat) :
    Nat → PTFrame → PTWResult → Prop
  | absent {level o : Nat} {f : PTFrame} {access : PTWAccess} :
      offset levels (level + 1) address = some o →
      Walks levels sizes address (level + 1) f
        ⟨none, [access], true, level⟩
  | leaf {level o size : Nat} {f : PTFrame}
      {access : PTWAccess} :
      offset levels (level + 1) address = some o →
      (f.entries o).isPte = true → sizes[level]? = some size →
      Walks levels sizes address (level + 1) f
        ⟨some ((f.entries o).ppn, size), [access], false, 0⟩
  | through {level o : Nat} {f next : PTFrame}
      {access : PTWAccess} {r : PTWResult} :
      offset levels (level + 1) address = some o →
      (f.entries o).isPte = false →
      (f.entries o).readNext = some (some next) →
      Walks levels sizes address level next r →
      Walks levels sizes address (level + 1) f
        { r with accesses := access :: r.accesses }

theorem walks_of_walk
    {levels address : Nat}
    {sizes : List Nat}
    {level : Nat}
    {f : PTFrame}
    {r : PTWResult}
    (hWalk : walk levels sizes address level f = some r) :
    Walks levels sizes address level f r := by
  induction level generalizing f r with
  | zero => simp [walk] at hWalk
  | succ level ih =>
      rw [walk] at hWalk
      cases hOffset : offset levels (level + 1) address with
      | none => simp [hOffset] at hWalk
      | some o =>
          simp only [hOffset] at hWalk
          by_cases hPte : (f.entries o).isPte
          · rw [if_pos hPte] at hWalk
            split at hWalk
            · cases hWalk
            · cases hWalk
              exact .absent hOffset
            · split at hWalk
              · cases hWalk
              · split at hWalk
                · cases hWalk
                · rename_i size hSize
                  cases hWalk
                  exact .leaf hOffset hPte hSize
          · rw [if_neg hPte] at hWalk
            split at hWalk
            · cases hWalk
            · cases hWalk
              exact .absent hOffset
            · rename_i next hNext
              rcases Option.map_eq_some_iff.mp hWalk with
                ⟨below, hBelow, hEq⟩
              subst hEq
              exact .through hOffset (Bool.eq_false_iff.mpr hPte)
                hNext (ih hBelow)

/- A walk faults exactly when it has no translation. -/
theorem isPagefault_walk
    {levels address : Nat}
    {sizes : List Nat}
    (level : Nat)
    (f : PTFrame)
    {r : PTWResult}
    (hWalk : walk levels sizes address level f = some r) :
    r.isPagefault = r.translation.isNone := by
  replace hWalk := walks_of_walk hWalk
  induction hWalk with
  | absent _ => rfl
  | leaf _ _ _ => rfl
  | through _ _ _ _ ih => exact ih

/- A 2MB update of an entry. -/
theorem entryOk_writeTranslation
    (e : PTEntry PTFrame)
    {ppn : Nat}
    (hPpn : ppn ≠ invalidPpn) :
    EntryOk (e.writeTranslation ppn) := by
  left
  cases hWord : e.word with
  | nextLevel frame =>
      exact ⟨rfl, true, frame,
        by simp [writeTranslation, writeValid, hWord],
        fun _ => hPpn⟩
  | valid bit under =>
      exact ⟨rfl, true, under,
        by simp [writeTranslation, writeValid, hWord],
        fun _ => hPpn⟩

theorem view_writeTranslation
    (e : PTEntry PTFrame)
    (ppn address : Nat) :
    view (e.writeTranslation ppn) address = some (ppn, 21) := by
  cases hWord : e.word with
  | nextLevel frame =>
      simp [view, writeTranslation, writeValid, hWord]
  | valid bit under =>
      simp [view, writeTranslation, writeValid, hWord]

theorem walkEntry_writeTranslation_invalid
    (e : PTEntry PTFrame)
    (address : Nat) :
    walkEntry (e.writeTranslation invalidPpn) address = none := by
  cases hWord : e.word with
  | nextLevel frame =>
      simp [walkEntry, writeTranslation, writeValid, readValid,
        hWord]
  | valid bit under =>
      simp [walkEntry, writeTranslation, writeValid, readValid,
        hWord]

/- The first-level step of an update. -/
theorem update_one
    (address ppn : Nat)
    (frame : Option PTFrame)
    (frames : List Nat)
    (hEnough : missingFrames 4 address 1 frame ≤ frames.length) :
    ∃ f rest,
      update 4 address ppn .fourKb 1 frame frames =
          some (some (f.setEntry (index 1 address)
            ((f.entries (index 1 address)).writeTranslation
              ppn)), rest) ∧
        (frame = some f ∨
          frame = none ∧ f.entries = fun _ => fresh true) := by
  have hOffset := offset_one address
  cases frame with
  | some f =>
      refine ⟨f, frames, ?_, Or.inl rfl⟩
      simp [update, hOffset, enter, leafLevel]
  | none =>
      cases frames with
      | nil => simp [missingFrames] at hEnough
      | cons first rest =>
          refine ⟨.mk first (fun _ => fresh true), rest, ?_,
            Or.inr ⟨rfl, rfl⟩⟩
          simp [update, hOffset, enter, leafLevel]

theorem slotOk_writeTranslation
    (e : PTEntry PTFrame)
    {ppn : Nat}
    (hPpn : ppn ≠ invalidPpn) :
    SlotOk (e.writeTranslation ppn) := by
  cases hWord : e.word with
  | nextLevel frame =>
      exact ⟨rfl, Or.inr ⟨true, frame,
        by simp [writeTranslation, writeValid, hWord],
        fun _ => hPpn⟩⟩
  | valid bit under =>
      exact ⟨rfl, Or.inr ⟨true, under,
        by simp [writeTranslation, writeValid, hWord],
        fun _ => hPpn⟩⟩

variable {e : PTEntry PTFrame}

/- A 4KB update of an entry that points to the first level. -/
theorem updateEntry_fourKb
    {next : Option PTFrame}
    (hPte : e.isPte = false)
    (hWord : e.word = .nextLevel next)
    (hSlots : ∀ f, next = some f → ∀ o, SlotOk (f.entries o))
    {address ppn : Nat}
    {frames : List Nat}
    (hEnough : missingFrames 4 address 1 next ≤ frames.length) :
    ∃ e' rest,
      updateEntry address ppn .fourKb e frames = some (e', rest) ∧
        e'.isPte = false ∧
        (∃ f, e'.word = .nextLevel (some f)) ∧
        (ppn ≠ invalidPpn → EntryOk e') ∧
        (ppn = invalidPpn → walkEntry e' address = none) ∧
        ∀ other,
          view e' other =
            if index 1 other = index 1 address then
              some (ppn, 12)
            else
              view e other := by
  have hRead : e.readNext = some next := by
    simp [readNext, hWord]
  rcases update_one address ppn next frames hEnough with
    ⟨f, rest, hUpdate, hFrame⟩
  set written := (f.entries (index 1 address)).writeTranslation
    ppn with hWritten
  have hSlots' : ∀ o, SlotOk (f.entries o) := by
    intro o
    rcases hFrame with hSome | ⟨-, hFresh⟩
    · exact hSlots f hSome o
    · rw [hFresh]
      exact ⟨rfl, Or.inl rfl⟩
  have hWrite : ∃ under, written.word = .valid true under := by
    rw [hWritten]
    cases hWord' : (f.entries (index 1 address)).word with
    | nextLevel frame =>
        exact ⟨frame, by
          simp [writeTranslation, writeValid, hWord']⟩
    | valid bit under =>
        exact ⟨under, by
          simp [writeTranslation, writeValid, hWord']⟩
  rcases hWrite with ⟨under, hValid⟩
  refine ⟨e.link (some (f.setEntry (index 1 address) written)),
    rest, ?_, hPte, ⟨_, rfl⟩, ?_, ?_, ?_⟩
  · simp [updateEntry, hRead, hUpdate]
  · intro hPpn
    refine Or.inr ⟨hPte, _, rfl, ?_⟩
    intro g hEq o
    cases hEq
    by_cases hIndex : o = index 1 address
    · subst hIndex
      simp only [PTFrame.entries_setEntry, Function.update_self]
      exact slotOk_writeTranslation _ hPpn
    · simp only [PTFrame.entries_setEntry,
        Function.update_of_ne hIndex]
      exact hSlots' o
  · intro hPpn
    have hOffset := offset_one address
    have hPte' : written.isPte = true := rfl
    have hPpn' : written.ppn = invalidPpn := hPpn
    simp [walkEntry, link, hPte, readNext, walk, hOffset,
      hPte', readValid, hValid, hPpn']
  · intro other
    by_cases hIndex : index 1 other = index 1 address
    · have hPpn' : written.ppn = ppn := rfl
      simp [view, link, hIndex, hValid, hPpn']
    · rw [if_neg hIndex]
      rcases hFrame with hSome | ⟨hNone, hFresh⟩
      · simp [view, link, hWord, hSome,
          Function.update_of_ne hIndex]
      · simp [view, link, hWord, hNone, hFresh, fresh,
          Function.update_of_ne hIndex]

/-
  A 4KB update under a written 2MB translation: the address
  is lost to every later walk.
-/
theorem updateEntry_fourKb_of_isPte
    {e e' : PTEntry PTFrame}
    (hPte : e.isPte = true)
    {bit : Bool}
    {under : Option PTFrame}
    (hWord : e.word = .valid bit under)
    {address ppn : Nat}
    {frames rest : List Nat}
    (hUpdate :
      updateEntry address ppn .fourKb e frames = some (e', rest)) :
    walkEntry e' address = none := by
  have hOffset := offset_one address
  simp only [updateEntry] at hUpdate
  cases hRead : e.readNext with
  | none => simp [hRead] at hUpdate
  | some next =>
      have hNone : next = none := by
        cases bit with
        | true => simp [readNext, hWord] at hRead
        | false =>
            cases under with
            | none => simpa [readNext, hWord] using hRead.symm
            | some f => simp [readNext, hWord] at hRead
      subst hNone
      cases frames with
      | nil => simp [hRead, update, hOffset, enter] at hUpdate
      | cons first frames =>
          simp only [hRead, update, hOffset, enter,
            leafLevel] at hUpdate
          cases hUpdate
          simp [walkEntry, link, hPte, readValid]

/- A deletion of a 2MB translation. -/
theorem deleteEntry_of_isPte
    (hPte : e.isPte = true)
    (address : Nat) :
    ∃ e',
      deleteEntry address e = some e' ∧
        e'.isPte = true ∧ EntryOk e' ∧
        ∀ other, view e' other = none := by
  refine ⟨e.clearTranslation, ?_, hPte, ?_, ?_⟩
  · simp [deleteEntry, hPte]
  · left
    cases hWord : e.word with
    | nextLevel frame =>
        exact ⟨hPte, false, frame,
          by simp [clearTranslation, writeValid, hWord],
          fun hBit => absurd hBit (by decide)⟩
    | valid bit under =>
        exact ⟨hPte, false, under,
          by simp [clearTranslation, writeValid, hWord],
          fun hBit => absurd hBit (by decide)⟩
  · intro other
    cases hWord : e.word with
    | nextLevel frame =>
        simp [view, clearTranslation, writeValid, hWord]
    | valid bit under =>
        simp [view, clearTranslation, writeValid, hWord]

variable {f : PTFrame}

/- A deletion below an entry that points to a frame. -/
theorem deleteEntry_of_nextLevel
    (hPte : e.isPte = false)
    (hWord : e.word = .nextLevel (some f))
    (hSlots : ∀ o, SlotOk (f.entries o))
    (address : Nat) :
    ∃ e',
      deleteEntry address e = some e' ∧
        e'.isPte = false ∧
        (∃ g, e'.word = .nextLevel (some g)) ∧
        EntryOk e' ∧
        ∀ other,
          view e' other =
            if index 1 other = index 1 address then none
            else view e other := by
  have hRead : e.readNext = some (some f) := by
    simp [readNext, hWord]
  have hOffset := offset_one address
  set slot := f.entries (index 1 address) with hSlot
  have hCleared : ∃ under,
      slot.clearTranslation.word = .valid false under := by
    cases hWord' : slot.word with
    | nextLevel frame =>
        exact ⟨frame, by
          simp [clearTranslation, writeValid, hWord']⟩
    | valid bit under =>
        exact ⟨under, by
          simp [clearTranslation, writeValid, hWord']⟩
  rcases hCleared with ⟨under, hCleared⟩
  have hSlotPte : slot.isPte = true := (hSlots _).1
  refine ⟨e.link (some (f.setEntry (index 1 address)
    slot.clearTranslation)), ?_, hPte, ⟨_, rfl⟩, ?_, ?_⟩
  · simp [deleteEntry, hPte, hRead, delete, hOffset, ← hSlot,
      hSlotPte]
  · refine Or.inr ⟨hPte, _, rfl, ?_⟩
    intro g hEq o
    cases hEq
    by_cases hIndex : o = index 1 address
    · subst hIndex
      simp only [PTFrame.entries_setEntry, Function.update_self]
      exact ⟨hSlotPte, Or.inr ⟨false, under, hCleared,
        fun hBit => absurd hBit (by decide)⟩⟩
    · simp only [PTFrame.entries_setEntry,
        Function.update_of_ne hIndex]
      exact hSlots o
  · intro other
    by_cases hIndex : index 1 other = index 1 address
    · simp [view, link, hIndex, hCleared]
    · simp [view, link, hWord, hIndex]

/- A deletion below a null pointer follows it. -/
theorem deleteEntry_of_null
    (hPte : e.isPte = false)
    (hWord : e.word = .nextLevel none)
    (address : Nat) :
    deleteEntry address e = none := by
  simp [deleteEntry, hPte, readNext, hWord, delete]

------------------------------------------------------------
-- The Invariant And Its Steps
------------------------------------------------------------

/- The entry of the region of an address. -/
def entryOf
    (t : PageTableRadix)
    (address : Nat) : PTEntry PTFrame :=
  regionEntry address 2 (some t.root)

/-
  What the past says about the entry of a region: it is a
  translation once a 2MB page was mapped, points to a frame
  once only 4KB pages were, and gives the current mapping.
-/
structure Reflects
    (past : List Op)
    (address : Nat)
    (e : PTEntry PTFrame) : Prop where
  ok : EntryOk e
  large : e.isPte = true ↔
    ∃ op ∈ past, op.mapsLargeIn (pageOf address / 512) = true
  small : e.isPte = false →
    ((∃ f, e.word = .nextLevel (some f)) ↔
      ∃ op ∈ past, op.mapsIn (pageOf address / 512) = true)
  view : view e address = mappingOf past (pageOf address)

/- The entries reflect the history of the calls. -/
structure Inv (s : Session) : Prop where
  levels : s.table.levels = 4
  sizes : s.table.pageSizeList = [12, 21]
  upper : Upper 2 (some s.table.root)
  reflects : ∀ address,
    Reflects s.past address (entryOf s.table address)

variable {s s' : Session}

/- The walk of a session from the entry of the region. -/
theorem initializeWalk_eq
    {t : PageTableRadix}
    (hLevels : t.levels = 4)
    (hSizes : t.pageSizeList = [12, 21])
    (hUpper : Upper 2 (some t.root))
    (address : Nat) :
    (initializeWalk t address).map (fun r => r.translation) =
      walkEntry (entryOf t address) address := by
  unfold initializeWalk entryOf
  rw [hLevels, hSizes]
  exact walk_region (Nat.le_refl 2) hUpper

theorem agrees_of_inv
    (hInv : Inv s) :
    Agrees s := by
  intro address
  have hEntry := hInv.reflects address
  have hWalk := initializeWalk_eq hInv.levels hInv.sizes
    hInv.upper address
  rw [walkEntry_eq_view hEntry.ok, hEntry.view] at hWalk
  rcases Option.map_eq_some_iff.mp hWalk with
    ⟨r, hResult, hEq⟩
  refine ⟨r, hResult, hEq, ?_⟩
  rw [isPagefault_walk _ _ hResult, hEq]

theorem inv_start :
    Inv (start 4) := by
  refine ⟨rfl, rfl, ?_, ?_⟩
  · exact upper_newFrame 2 0
  · intro address
    have hEntry : entryOf (start 4).table address =
        fresh false := regionEntry_newFrame address 2 0
    rw [hEntry]
    refine ⟨?_, ?_, ?_, rfl⟩
    · exact Or.inr ⟨rfl, none, rfl, fun f hEq => by
        cases hEq⟩
    · simp [fresh, start]
    · simp [fresh, start]

/-
  An operation that replaces the entry of its own region by
  one that reflects the longer past keeps the invariant.
-/
theorem inv_of_regionEntry
    (hInv : Inv s)
    {address : Nat}
    {op : Op}
    (hUpper : Upper 2 (some f))
    (hRegions : ∀ other,
      regionEntry other 2 (some f) =
        if SamePath 2 address other then e
        else entryOf s.table other)
    (hSame : ∀ other,
      pageOf other / 512 = pageOf address / 512 →
        Reflects (op :: s.past) other e)
    (hOther : ∀ other e',
      pageOf other / 512 ≠ pageOf address / 512 →
        Reflects s.past other e' →
          Reflects (op :: s.past) other e') :
    Inv ⟨{ s.table with root := f }, op :: s.past⟩ := by
  refine ⟨hInv.levels, hInv.sizes, hUpper, ?_⟩
  intro other
  have hEntry : entryOf { s.table with root := f } other =
      if SamePath 2 address other then e
      else entryOf s.table other := hRegions other
  rw [hEntry]
  by_cases hPath : SamePath 2 address other
  · rw [if_pos hPath]
    exact hSame other
      ((samePath_two_iff address other).mp hPath).symm
  · rw [if_neg hPath]
    apply hOther other _ _ (hInv.reflects other)
    intro hEq
    exact hPath ((samePath_two_iff address other).mpr hEq.symm)

/- The entry is shared by the addresses of a region. -/
theorem entryOf_congr
    (t : PageTableRadix)
    {address other : Nat}
    (hRegion : pageOf other / 512 = pageOf address / 512) :
    entryOf t other = entryOf t address :=
  regionEntry_congr 2 (some t.root)
    ((samePath_two_iff address other).mpr hRegion.symm)

/- The past of another region does not change. -/
theorem Reflects.cons_of_ne
    {past : List Op}
    {op : Op}
    {other : Nat}
    (hReflects : Reflects past other e)
    (hMaps : op.mapsIn (pageOf other / 512) = false)
    (hLarge : op.mapsLargeIn (pageOf other / 512) = false)
    (hMapping :
      mappingOf (op :: past) (pageOf other) =
        mappingOf past (pageOf other)) :
    Reflects (op :: past) other e := by
  refine ⟨hReflects.ok, ?_, ?_, ?_⟩
  · simpa [hLarge] using hReflects.large
  · simpa [hMaps] using hReflects.small
  · rw [hMapping]
    exact hReflects.view

theorem reflects_update_other
    {past : List Op}
    {address ppn : Nat}
    {pageSize : PageSize}
    {frames : List Nat}
    {other : Nat}
    (hNe : pageOf other / 512 ≠ pageOf address / 512)
    (hReflects : Reflects past other e) :
    Reflects (.update address ppn pageSize frames :: past)
      other e := by
  apply hReflects.cons_of_ne
  · simpa [Op.mapsIn] using hNe.symm
  · cases pageSize with
    | fourKb => rfl
    | twoMb => simpa [Op.mapsLargeIn] using hNe.symm
  · simp only [mappingOf, Mapping.map]
    rw [if_neg]
    cases pageSize with
    | fourKb =>
        simp only [PageSize.pages, Nat.div_one]
        intro hEq
        exact hNe (by rw [hEq])
    | twoMb => exact hNe

theorem reflects_delete_other
    {past : List Op}
    {address other : Nat}
    (hNe : pageOf other / 512 ≠ pageOf address / 512)
    (hReflects : Reflects past other e) :
    Reflects (.delete address :: past) other e := by
  apply hReflects.cons_of_ne rfl rfl
  simp only [mappingOf, Mapping.unmap]
  have hPage : pageOf other ≠ pageOf address := by
    intro hEq
    exact hNe (by rw [hEq])
  split
  · rw [if_neg (fun h => hNe h.1)]
  · rw [if_neg hPage]

/- An update of a session from the entry of its region. -/
theorem updates_session
    (hInv : Inv s)
    {address ppn : Nat}
    {pageSize : PageSize}
    {frames : List Nat}
    (hSupplied : Supplied s (.update address ppn pageSize frames)) :
    UpdatesRegion address ppn pageSize 2
      (some s.table.root) frames := by
  apply update_region address ppn pageSize (Nat.le_refl 2)
    _ _ hInv.upper
  have hEnough := hSupplied
  simp only [Supplied, hInv.levels] at hEnough
  exact hEnough

theorem step_update_of_some
    (hInv : Inv s)
    {address ppn : Nat}
    {pageSize : PageSize}
    {frames rest : List Nat}
    (hUpdate :
      update 4 address ppn pageSize (2 + 2)
        (some s.table.root) frames = some (some f, rest)) :
    step s (.update address ppn pageSize frames) =
      some ⟨{ s.table with root := f },
        .update address ppn pageSize frames :: s.past⟩ := by
  simp only [step, updatePageTableFrames, hInv.levels]
  rw [hUpdate]
  rfl

/- A 2MB update. -/
theorem step_update_twoMb
    (hInv : Inv s)
    {address ppn : Nat}
    {frames : List Nat}
    (hSupplied : Supplied s (.update address ppn .twoMb frames))
    (hPpn : ppn ≠ invalidPpn) :
    ∃ s',
      step s (.update address ppn .twoMb frames) = some s' ∧
        Inv s' := by
  rcases updates_session hInv hSupplied with
    ⟨rest, -, -, hSome⟩
  rcases hSome _ rest rfl with ⟨f, hUpdate, hUpper, hRegions⟩
  refine ⟨_, step_update_of_some hInv hUpdate, ?_⟩
  refine inv_of_regionEntry hInv hUpper hRegions ?_
    (fun other e' hNe hOld => reflects_update_other hNe hOld)
  intro other hRegion
  refine ⟨entryOk_writeTranslation _ hPpn, ?_, ?_, ?_⟩
  · simp [writeTranslation, Op.mapsLargeIn, hRegion]
  · intro hPte
    simp [writeTranslation] at hPte
  · rw [view_writeTranslation]
    simp [mappingOf, Mapping.map, PageSize.pages, hRegion,
      PageSize.bits]

/- A 4KB update of a region without 2MB translation. -/
theorem step_update_fourKb
    (hInv : Inv s)
    {address ppn : Nat}
    {frames : List Nat}
    (hSupplied : Supplied s (.update address ppn .fourKb frames))
    (hPpn : ppn ≠ invalidPpn)
    (hSmall : ∀ op ∈ s.past,
      op.mapsLargeIn (pageOf address / 512) = false) :
    ∃ s',
      step s (.update address ppn .fourKb frames) = some s' ∧
        Inv s' := by
  rcases updates_session hInv hSupplied with
    ⟨rest, hEnough, -, hSome⟩
  have hEntry := hInv.reflects address
  have hNoLarge : ¬ ∃ op ∈ s.past,
      op.mapsLargeIn (pageOf address / 512) = true := by
    rintro ⟨op, hMem, hMaps⟩
    rw [hSmall op hMem] at hMaps
    cases hMaps
  rcases hEntry.ok with
    ⟨hPte, -⟩ | ⟨hPte, next, hWord, hSlots⟩
  · exact absurd (hEntry.large.mp hPte) hNoLarge
  · rcases updateEntry_fourKb hPte hWord hSlots
        (by simpa [leafLevel] using hEnough next hWord) with
      ⟨e', rest', hUpdate, hPte', hNext, hOk, -, hView⟩
    rcases hSome e' rest' hUpdate with
      ⟨f, hTable, hUpper, hRegions⟩
    refine ⟨_, step_update_of_some hInv hTable, ?_⟩
    refine inv_of_regionEntry hInv hUpper hRegions ?_
      (fun other e' hNe hOld => reflects_update_other hNe hOld)
    intro other hRegion
    have hOther := hInv.reflects other
    rw [entryOf_congr s.table hRegion] at hOther
    refine ⟨hOk hPpn, ?_, ?_, ?_⟩
    · rw [hPte', hRegion]
      simpa [Op.mapsLargeIn] using hSmall
    · intro _
      simp [hNext, Op.mapsIn, hRegion]
    · rw [hView]
      simp only [mappingOf, Mapping.map, PageSize.pages,
        PageSize.bits, Nat.div_one]
      by_cases hIndex : index 1 other = index 1 address
      · rw [if_pos hIndex, if_pos
          ((pageOf_eq_iff other address).mpr ⟨hRegion, hIndex⟩)]
      · rw [if_neg hIndex, if_neg (fun hEq => hIndex
          ((pageOf_eq_iff other address).mp hEq).2)]
        exact hOther.view

/- A walk without outcome is no agreement. -/
theorem not_agrees_of_walkEntry
    (t : PageTableRadix)
    (past : List Op)
    (address : Nat)
    (hLevels : t.levels = 4)
    (hSizes : t.pageSizeList = [12, 21])
    (hUpper : Upper 2 (some t.root))
    (hNone : walkEntry (entryOf t address) address = none) :
    ¬ Agrees ⟨t, past⟩ := by
  intro hAgrees
  rcases hAgrees address with ⟨r, hWalk, -⟩
  have hEq := initializeWalk_eq hLevels hSizes hUpper address
  rw [hNone, hWalk] at hEq
  cases hEq

/- An update out of reach is not found by the walk. -/
theorem not_agrees_update
    (hInv : Inv s)
    {address ppn : Nat}
    {pageSize : PageSize}
    {frames : List Nat}
    (hSupplied : Supplied s (.update address ppn pageSize frames))
    (hBeyond :
      ¬ WithinReach s (.update address ppn pageSize frames))
    (hStep :
      step s (.update address ppn pageSize frames) = some s') :
    ¬ Agrees s' := by
  rcases updates_session hInv hSupplied with
    ⟨rest, hEnough, hNone, hSome⟩
  have hEntry := hInv.reflects address
  cases hUpdate : updateEntry address ppn pageSize
      (regionEntry address 2 (some s.table.root)) rest with
  | none =>
      simp only [step, updatePageTableFrames, hInv.levels] at hStep
      rw [hNone hUpdate] at hStep
      cases hStep
  | some r =>
      rcases r with ⟨e', rest'⟩
      rcases hSome e' rest' hUpdate with
        ⟨f, hTable, hUpper, hRegions⟩
      rw [step_update_of_some hInv hTable] at hStep
      cases hStep
      apply not_agrees_of_walkEntry
        { s.table with root := f } _ address hInv.levels
        hInv.sizes hUpper
      have hHere : entryOf { s.table with root := f }
          address = e' := by
        refine (hRegions address).trans (if_pos ?_)
        exact fun j _ => rfl
      rw [hHere]
      cases pageSize with
      | twoMb =>
          have hPpn : ppn = invalidPpn := by
            by_contra hNe
            exact hBeyond hNe
          cases hUpdate
          rw [hPpn]
          exact walkEntry_writeTranslation_invalid _ _
      | fourKb =>
          rcases hEntry.ok with
            ⟨hPte, bit, under, hWord, -⟩ |
              ⟨hPte, next, hWord, hSlots⟩
          · exact updateEntry_fourKb_of_isPte hPte hWord hUpdate
          · have hPpn : ppn = invalidPpn := by
              by_contra hNe
              apply hBeyond
              refine ⟨hNe, fun op hMem => ?_⟩
              by_contra hMaps
              rw [Bool.not_eq_false] at hMaps
              have hLarge :=
                hEntry.large.mpr ⟨op, hMem, hMaps⟩
              rw [hLarge] at hPte
              cases hPte
            rcases updateEntry_fourKb hPte hWord hSlots
                (by simpa [leafLevel] using hEnough next hWord) with
              ⟨e'', rest'', hUpdate', -, -, -, hLost, -⟩
            rw [entryOf, hUpdate] at hUpdate'
            cases hUpdate'
            exact hLost hPpn

theorem mapsIn_of_mapsLargeIn
    {op : Op}
    {region : Nat}
    (hLarge : op.mapsLargeIn region = true) :
    op.mapsIn region = true := by
  cases op with
  | delete address => cases hLarge
  | update address ppn pageSize frames =>
      cases pageSize with
      | fourKb => cases hLarge
      | twoMb => exact hLarge

theorem step_delete_of_some
    (hInv : Inv s)
    {address : Nat}
    (hDelete :
      delete 4 address (2 + 2) (some s.table.root) =
        some (some f)) :
    step s (.delete address) =
      some ⟨{ s.table with root := f },
        .delete address :: s.past⟩ := by
  simp only [step, deletePage, hInv.levels]
  rw [hDelete]
  rfl

/- A deletion in a region that was mapped with 2MB. -/
theorem step_delete_large
    (hInv : Inv s)
    {address : Nat}
    (hPte : (entryOf s.table address).isPte = true) :
    ∃ s', step s (.delete address) = some s' ∧ Inv s' := by
  rcases deleteEntry_of_isPte hPte address with
    ⟨e', hDelete, hPte', hOk, hView⟩
  rcases (delete_region address (Nat.le_refl 2) _
      hInv.upper).2 e' hDelete with
    ⟨f, hTable, hUpper, hRegions⟩
  refine ⟨_, step_delete_of_some hInv hTable, ?_⟩
  refine inv_of_regionEntry hInv hUpper hRegions ?_
    (fun other e' hNe hOld => reflects_delete_other hNe hOld)
  intro other hRegion
  have hHere := hInv.reflects address
  have hOther := hInv.reflects other
  rw [entryOf_congr s.table hRegion] at hOther
  refine ⟨hOk, ?_, ?_, ?_⟩
  · have hLarge := hOther.large.mp hPte
    simpa [hPte', Op.mapsLargeIn] using hLarge
  · intro hNot
    rw [hPte'] at hNot
    cases hNot
  · rw [hView, mappingOf]
    rcases hHere.ok with
      ⟨-, bit, under, hWord, -⟩ | ⟨hNot, -⟩
    · cases bit with
      | true =>
          have hTrue : ∀ a, view (entryOf s.table address) a =
              some ((entryOf s.table address).ppn, 21) := by
            intro a
            simp [view, hWord]
          symm
          apply Mapping.unmap_of_large
            (hHere.view.symm.trans (hTrue address)) hRegion
          rw [← hHere.view, ← hOther.view, hTrue, hTrue]
      | false =>
          have hFalse : ∀ a,
              view (entryOf s.table address) a = none := by
            intro a
            simp [view, hWord]
          rw [Mapping.unmap_of_not_large]
          · rw [← hOther.view, hFalse]
            simp
          · intro ppn
            rw [← hHere.view, hFalse]
            simp
    · rw [hNot] at hPte
      cases hPte

/- A deletion in a region with 4KB pages only. -/
theorem step_delete_small
    (hInv : Inv s)
    {address : Nat}
    (hPte : (entryOf s.table address).isPte = false)
    {g : PTFrame}
    (hWord : (entryOf s.table address).word = .nextLevel (some g)) :
    ∃ s', step s (.delete address) = some s' ∧ Inv s' := by
  have hHere := hInv.reflects address
  have hSlots : ∀ o, SlotOk (g.entries o) := by
    rcases hHere.ok with ⟨hNot, -⟩ | ⟨-, next, hWord', hAll⟩
    · rw [hPte] at hNot
      cases hNot
    · rw [hWord] at hWord'
      cases hWord'
      exact hAll g rfl
  rcases deleteEntry_of_nextLevel hPte hWord hSlots
      address with ⟨e', hDelete, hPte', hNext, hOk, hView⟩
  rcases (delete_region address (Nat.le_refl 2) _
      hInv.upper).2 e' hDelete with
    ⟨f, hTable, hUpper, hRegions⟩
  refine ⟨_, step_delete_of_some hInv hTable, ?_⟩
  refine inv_of_regionEntry hInv hUpper hRegions ?_
    (fun other e' hNe hOld => reflects_delete_other hNe hOld)
  intro other hRegion
  have hOther := hInv.reflects other
  rw [entryOf_congr s.table hRegion] at hOther
  refine ⟨hOk, ?_, ?_, ?_⟩
  · have hLarge := hOther.large
    rw [hPte] at hLarge
    rw [hPte']
    simpa [Op.mapsLargeIn] using hLarge
  · intro _
    have hSmall := (hOther.small hPte).mp ⟨g, hWord⟩
    simpa [hNext, Op.mapsIn] using hSmall
  · rw [hView, mappingOf, Mapping.unmap_of_not_large]
    · by_cases hIndex : index 1 other = index 1 address
      · rw [if_pos hIndex, if_pos
          ((pageOf_eq_iff other address).mpr ⟨hRegion, hIndex⟩)]
      · rw [if_neg hIndex, if_neg (fun hEq => hIndex
          ((pageOf_eq_iff other address).mp hEq).2)]
        exact hOther.view
    · intro ppn
      rw [← hHere.view]
      simp only [view, hWord]
      split <;> simp

/- A deletion elsewhere follows a null pointer. -/
theorem step_delete_beyond
    (hInv : Inv s)
    {address : Nat}
    (hBeyond : ¬ WithinReach s (.delete address)) :
    step s (.delete address) = none := by
  have hHere := hInv.reflects address
  have hNone :
      deleteEntry address (entryOf s.table address) = none := by
    rcases hHere.ok with
      ⟨hPte, -⟩ | ⟨hPte, next, hWord, -⟩
    · rcases hHere.large.mp hPte with ⟨op, hMem, hLarge⟩
      exact absurd ⟨op, hMem, mapsIn_of_mapsLargeIn hLarge⟩ hBeyond
    · cases next with
      | none => exact deleteEntry_of_null hPte hWord address
      | some f =>
          exact absurd ((hHere.small hPte).mp ⟨f, hWord⟩) hBeyond
  have hTable := (delete_region address (Nat.le_refl 2) _
    hInv.upper).1 hNone
  simp only [step, deletePage, hInv.levels]
  rw [hTable]
  rfl

/- A step within reach keeps the invariant. -/
theorem step_inv
    (hInv : Inv s)
    (op : Op)
    (hSupplied : Supplied s op)
    (hReach : WithinReach s op) :
    ∃ s', step s op = some s' ∧ Inv s' := by
  cases op with
  | update address ppn pageSize frames =>
      cases pageSize with
      | fourKb =>
          exact step_update_fourKb hInv hSupplied hReach.1 hReach.2
      | twoMb => exact step_update_twoMb hInv hSupplied hReach
  | delete address =>
      have hHere := hInv.reflects address
      cases hPte : (entryOf s.table address).isPte with
      | true => exact step_delete_large hInv hPte
      | false =>
          rcases (hHere.small hPte).mpr hReach with ⟨f, hWord⟩
          exact step_delete_small hInv hPte hWord

/- A step out of reach breaks the agreement. -/
theorem step_not_agrees
    (hInv : Inv s)
    (op : Op)
    (hSupplied : Supplied s op)
    (hBeyond : ¬ WithinReach s op)
    (hStep : step s op = some s') :
    ¬ Agrees s' := by
  cases op with
  | update address ppn pageSize frames =>
      exact not_agrees_update hInv hSupplied hBeyond hStep
  | delete address =>
      rw [step_delete_beyond hInv hBeyond] at hStep
      cases hStep

------------------------------------------------------------
-- Other Numbers Of Levels And Runs
------------------------------------------------------------

/- The walk agrees with the mapping after every operation. -/
def AgreesThroughout
    (levels : Nat)
    (ops : List Op) : Prop :=
  ∀ front, front <+: ops →
    ∃ s, Run.run step (start levels) front = some s ∧ Agrees s

/- One 4KB page at address zero. -/
def mapZero (levels : Nat) : Op :=
  .update 0 7 .fourKb (List.replicate levels 0)

theorem missingFrames_le
    (levels address level : Nat)
    (frame : Option PTFrame) :
    missingFrames levels address level frame ≤ level := by
  induction level generalizing frame with
  | zero => exact Nat.le_refl 0
  | succ level ih =>
      cases frame with
      | none => exact Nat.le_refl _
      | some f =>
          unfold missingFrames
          split
          · exact Nat.zero_le _
          · split
            · exact Nat.le_succ_of_le (ih _)
            · exact Nat.zero_le _

theorem supplied_mapZero
    (levels : Nat) :
    Run.Along step Supplied (start levels)
      [mapZero levels] := by
  refine ⟨?_, fun _ _ => trivial⟩
  have hLe := missingFrames_le levels 0 levels
    (some (start levels).table.root)
  have hLength : (List.replicate levels 0).length +
      (leafLevel .fourKb - 1) = levels := by
    simp [leafLevel]
  change missingFrames levels 0 levels
      (some (start levels).table.root) ≤
    (List.replicate levels 0).length + (leafLevel .fourKb - 1)
  rw [hLength]
  exact hLe

theorem withinReach_mapZero
    (levels : Nat) :
    Run.Along step WithinReach (start levels)
      [mapZero levels] := by
  refine ⟨⟨by decide, ?_⟩, fun _ _ => trivial⟩
  intro op hMem
  cases hMem

/-
  A walk after the update that shows another translation
  than the mapping of the page.
-/
theorem not_agreesThroughout_of_walk
    (levels address : Nat)
    (found : Option (Nat × Nat))
    (hWalk :
      (step (start levels) (mapZero levels)).map
          (fun s => (initializeWalk s.table address).map
            (fun r => r.translation)) =
        some (some found))
    (hNe : found ≠ mappingOf [mapZero levels] (pageOf address)) :
    ¬ AgreesThroughout levels [mapZero levels] := by
  intro hAll
  rcases hAll [mapZero levels] (List.prefix_refl _) with
    ⟨s, hRun, hAgrees⟩
  rcases Run.run_cons_eq_some hRun with ⟨s', hStep, hNil⟩
  rw [Run.run_nil, Option.some.injEq] at hNil
  subst hNil
  rw [hStep] at hWalk
  rcases hAgrees address with ⟨r, hResult, hEq, -⟩
  have hPast : s'.past = [mapZero levels] := by
    rcases Option.map_eq_some_iff.mp hStep with ⟨t, -, hState⟩
    rw [← hState]
    rfl
  rw [Option.map_some, hResult, Option.map_some] at hWalk
  simp only [Option.some.injEq] at hWalk
  exact hNe (by rw [← hWalk, hEq, hPast])

/- From six levels on, an update shifts by a negative amount. -/
theorem update_of_six_le
    (k j address ppn : Nat)
    (frame : Option PTFrame)
    (frames : List Nat) :
    update (k + 6) address ppn .fourKb (k + 1 + j) frame
      frames = none := by
  induction j generalizing frame frames with
  | zero =>
      have hOffset : offset (k + 6) (k + 1) address = none := by
        unfold offset
        rw [if_neg (by omega)]
      rw [Nat.add_zero, update, hOffset]
  | succ j ih =>
      have hLeaf : k + 1 + j + 1 ≠ leafLevel .fourKb := by
        simp only [leafLevel]
        omega
      rw [← Nat.add_assoc, update]
      cases offset (k + 6) (k + 1 + j + 1) address with
      | none => rfl
      | some o =>
          cases enter (k + 1 + j + 1) frame frames with
          | none => rfl
          | some r =>
              simp only [hLeaf, if_false]
              cases (r.1.entries o).readNext with
              | none => rfl
              | some next => simp [ih]

/- Without four levels one 4KB page is enough to disagree. -/
theorem not_agreesThroughout_mapZero
    {levels : Nat}
    (hLevels : levels ≠ 4) :
    ¬ AgreesThroughout levels [mapZero levels] := by
  match levels, hLevels with
  | 0, _ =>
      intro hAll
      rcases hAll [] (List.nil_prefix) with
        ⟨s, hRun, hAgrees⟩
      cases hRun
      rcases hAgrees 0 with ⟨r, hWalk, -⟩
      cases hWalk
  | 1, _ =>
      exact not_agreesThroughout_of_walk 1 4096
        (some (7, 12)) rfl (by decide)
  | 2, _ =>
      exact not_agreesThroughout_of_walk 2 4096
        (some (7, 12)) rfl (by decide)
  | 3, _ =>
      exact not_agreesThroughout_of_walk 3 4096
        (some (7, 12)) rfl (by decide)
  | 5, _ =>
      exact not_agreesThroughout_of_walk 5 8 none rfl (by decide)
  | k + 6, _ =>
      intro hAll
      rcases hAll [mapZero (k + 6)] (List.prefix_refl _) with
        ⟨s, hRun, -⟩
      rcases Run.run_cons_eq_some hRun with ⟨s', hStep, -⟩
      have hNone := update_of_six_le k 5 0 7
        (some (start (k + 6)).table.root)
        (List.replicate (k + 6) 0)
      have hTable :
          updatePageTableFrames (start (k + 6)).table 0 7
            .fourKb (List.replicate (k + 6) 0) = none := by
        unfold updatePageTableFrames
        rw [show (start (k + 6)).table.levels = k + 6 from rfl]
        rw [show k + 1 + 5 = k + 6 by omega] at hNone
        rw [hNone]
      simp only [step, mapZero, hTable, Option.map_none] at hStep
      cases hStep

/-
  With four levels the walk agrees with the mapping
  throughout a run exactly when every operation is within
  reach, and with another number of levels it disagrees on a
  run within reach.
-/
theorem agrees_run_iff
    (levels : Nat) :
    (levels = 4 → ∀ ops,
      Run.Along step Supplied (start levels) ops →
        (AgreesThroughout levels ops ↔
          Run.Along step WithinReach (start levels) ops)) ∧
    (levels ≠ 4 → ∃ ops,
      Run.Along step Supplied (start levels) ops ∧
        Run.Along step WithinReach (start levels) ops ∧
        ¬ AgreesThroughout levels ops) := by
  constructor
  · intro hLevels ops hSupplied
    subst hLevels
    symm
    exact Run.along_iff_forall_prefix
      (fun s hInv => agrees_of_inv hInv)
      (fun s op hInv hEnough hReach =>
        step_inv hInv op hEnough hReach)
      (fun s op s' hInv hEnough hBeyond hStep =>
        step_not_agrees hInv op hEnough hBeyond hStep)
      inv_start hSupplied
  · intro hLevels
    exact ⟨[mapZero levels], supplied_mapZero levels,
      withinReach_mapZero levels,
      not_agreesThroughout_mapZero hLevels⟩

instance
    (s : Session)
    (op : Op) :
    Decidable (Supplied s op) :=
  match op with
  | .update address _ pageSize frames =>
      inferInstanceAs (Decidable
        (missingFrames s.table.levels address s.table.levels
            (some s.table.root) ≤
          frames.length + (leafLevel pageSize - 1)))
  | .delete _ => isTrue trivial

instance
    (s : Session)
    (op : Op) :
    Decidable (WithinReach s op) :=
  match op with
  | .update _ ppn .twoMb _ =>
      inferInstanceAs (Decidable (ppn ≠ invalidPpn))
  | .update address ppn .fourKb _ =>
      inferInstanceAs (Decidable (ppn ≠ invalidPpn ∧
        ∀ op ∈ s.past,
          op.mapsLargeIn (pageOf address / 512) = false))
  | .delete address =>
      inferInstanceAs (Decidable (∃ op ∈ s.past,
        op.mapsIn (pageOf address / 512) = true))

/- Both page sizes and a deletion in a four-level table. -/
theorem agrees_run_small :
    AgreesThroughout 4
      [.update 0 7 .fourKb [1, 2, 3],
        .update (2 ^ 21) 512 .twoMb [], .delete 4096,
        .update 0 1024 .twoMb [], .delete 0] :=
  ((agrees_run_iff 4).1 rfl _ (by decide)).mpr (by decide)

/-
  A 4KB page mapped after the deletion of a 2MB page is not
  found, and a deletion in an untouched table has no outcome.
-/
theorem agrees_run_remapped :
    Run.Along step Supplied (start 4)
        [.update 0 512 .twoMb [1, 2], .delete 0,
          .update 0 7 .fourKb [3]] ∧
      ¬ AgreesThroughout 4
        [.update 0 512 .twoMb [1, 2], .delete 0,
          .update 0 7 .fourKb [3]] ∧
      Run.run step (start 4) [.delete 0] = none := by
  refine ⟨by decide, ?_, rfl⟩
  intro hAll
  rcases hAll _ (List.prefix_refl _) with ⟨s, hRun, hAgrees⟩
  rcases hAgrees 0 with ⟨r, hWalk, -⟩
  have hLost :
      (Run.run step (start 4)
        [.update 0 512 .twoMb [1, 2], .delete 0,
          .update 0 7 .fourKb [3]]).map
          (fun s => initializeWalk s.table 0) = some none := rfl
  rw [hRun, Option.map_some, hWalk] at hLost
  cases hLost

end Radix

end Virtuoso
