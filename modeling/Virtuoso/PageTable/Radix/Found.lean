import Virtuoso.PageTable.Radix.Deletion
import Virtuoso.PageTable.Radix.Faults
import Virtuoso.PageTable.Radix.Frames

/-
  Updates that a walk finds.

  After a fault the page of the address is put into the
  table. The next walk of the address finds it exactly when
  the address and the page have the same index on every level
  down to the entry of the page, and no entry above is a
  translation. The entry above a 4KB page is one once a 2MB
  page was mapped there, also after its deletion.

  Main declarations:
    * `Radix.update_of_takes`
    * `Radix.takes_of_inv`
-/

------------------------------------------------------------
-- The Path Of A Page
------------------------------------------------------------

namespace Virtuoso

namespace Radix

open PTEntry

/-
  The path of an address leads to the entry of the page of
  the given size. Below a null pointer new frames are made.
-/
def Takes
    (levels : Nat)
    (sizes : List Nat)
    (address page : Nat)
    (pageSize : PageSize) :
    Nat → Option PTFrame → Prop
| 0, _ => False
| level + 1, frame =>
    ∃ o, offset levels (level + 1) address = some o ∧
      offset levels (level + 1) page = some o ∧
        if level + 1 = leafLevel pageSize then
          sizes[level]? = some pageSize.bits
        else
          match frame with
          | none =>
              Takes levels sizes address page pageSize level none
          | some f =>
              (f.entries o).isPte = false ∧
                ∃ next, (f.entries o).readNext = some next ∧
                  Takes levels sizes address page pageSize
                    level next

/- The walk of the address ends at the page. -/
def Finds
    (levels : Nat)
    (sizes : List Nat)
    (address level : Nat)
    (f : PTFrame)
    (page : Nat × Nat) : Prop :=
  ∃ r, walk levels sizes address level f = some r ∧
    r.isPagefault = false ∧ r.translation = some page

/- The walk of the address ends at a fault. -/
def FaultsAt
    (levels : Nat)
    (sizes : List Nat)
    (address level : Nat)
    (f : PTFrame) : Prop :=
  ∃ r, walk levels sizes address level f = some r ∧
    r.isPagefault = true

variable {levels address page ppn bits level o : Nat}
variable {sizes frames rest : List Nat} {pageSize : PageSize}
variable {f g : PTFrame}

theorem FaultsAt.not_finds
    (hFaults : FaultsAt levels sizes address level f)
    (found : Nat × Nat) :
    ¬ Finds levels sizes address level f found := by
  rcases hFaults with ⟨r, hWalk, hFault⟩
  rintro ⟨r', hWalk', hFine, -⟩
  rw [hWalk, Option.some.injEq] at hWalk'
  rw [← hWalk', hFault] at hFine
  cases hFine

/- A written entry is found if its page number is valid. -/
theorem finds_written_iff
    (hOffset : offset levels (level + 1) address = some o) :
    Finds levels sizes address (level + 1)
        (f.setEntry o ((f.entries o).writeTranslation ppn))
        (ppn, bits) ↔
      ppn ≠ invalidPpn ∧ sizes[level]? = some bits := by
  have hPte : ((f.entries o).writeTranslation ppn).isPte =
      true := rfl
  have hPpn : ((f.entries o).writeTranslation ppn).ppn = ppn := rfl
  have hRead : ((f.entries o).writeTranslation
      ppn).readValid = some true := by
    cases hWord : (f.entries o).word with
    | nextLevel next =>
        simp [writeTranslation, writeValid, readValid, hWord]
    | valid bit under =>
        simp [writeTranslation, writeValid, readValid, hWord]
  unfold Finds
  simp only [walk, hOffset, PTFrame.entries_setEntry,
    Function.update_self, hPte, hRead, hPpn, if_true]
  by_cases hInvalid : ppn = invalidPpn
  · simp [hInvalid]
  · rw [if_neg hInvalid]
    cases hSize : sizes[level]? with
    | none => simp
    | some size => simp [hInvalid]

/- A linked entry leads to what is found below. -/
theorem finds_link_iff
    (hOffset : offset levels (level + 1) address = some o)
    (found : Nat × Nat) :
    Finds levels sizes address (level + 1)
        (f.setEntry o ((f.entries o).link (some g))) found ↔
      (f.entries o).isPte = false ∧
        Finds levels sizes address level g found := by
  have hPte : ((f.entries o).link (some g)).isPte =
      (f.entries o).isPte := rfl
  have hNext : ((f.entries o).link (some g)).readNext =
      some (some g) := rfl
  have hValid : ((f.entries o).link (some g)).readValid =
      none := rfl
  unfold Finds
  simp only [walk, hOffset, PTFrame.entries_setEntry,
    Function.update_self, hPte, hNext, hValid]
  cases (f.entries o).isPte with
  | true => simp
  | false => simp [Option.map_eq_some_iff]

/- A fault below the entry of the current frame. -/
theorem FaultsAt.below
    (hFaults : FaultsAt levels sizes address (level + 1) f)
    (hOffset : offset levels (level + 1) address = some o)
    (hPte : (f.entries o).isPte = false)
    (hNext : (f.entries o).readNext = some (some g)) :
    FaultsAt levels sizes address level g := by
  rcases hFaults with ⟨r, hWalk, hFault⟩
  simp only [walk, hOffset, hPte, hNext, Bool.false_eq_true,
    if_false, Option.map_eq_some_iff] at hWalk
  rcases hWalk with ⟨below, hBelow, rfl⟩
  exact ⟨below, hBelow, hFault⟩

/- A new frame has no translation. -/
theorem faultsAt_newFrame
    (hOffset : offset levels (level + 1) address = some o)
    (isPte : Bool) :
    FaultsAt levels sizes address (level + 1)
      (.mk ppn (fun _ => fresh isPte)) := by
  cases isPte with
  | true =>
      simp [FaultsAt, walk, hOffset, PTFrame.entries, fresh,
        readValid]
  | false =>
      simp [FaultsAt, walk, hOffset, PTFrame.entries, fresh,
        readNext]

/- The frame of an update faults if the walk did. -/
theorem faultsAt_enter
    {frame : Option PTFrame}
    (hFaults : ∀ f ∈ frame,
      FaultsAt levels sizes address (level + 1) f)
    (hOffset : offset levels (level + 1) address = some o)
    (hEnter : enter (level + 1) frame frames = some (f, rest)) :
    FaultsAt levels sizes address (level + 1) f := by
  cases frame with
  | some current =>
      simp only [enter, Option.some.injEq, Prod.mk.injEq] at hEnter
      rw [← hEnter.1]
      exact hFaults current rfl
  | none =>
      cases frames with
      | nil => cases hEnter
      | cons new frames =>
          simp only [enter, Option.some.injEq,
            Prod.mk.injEq] at hEnter
          rw [← hEnter.1]
          exact faultsAt_newFrame hOffset _

------------------------------------------------------------
-- Updates
------------------------------------------------------------

/-
  The frame in which an update goes on to the next level,
  where the path takes the page.
-/
theorem enter_of_takes
    {frame : Option PTFrame}
    (hTakes : Takes levels sizes address page pageSize
      (level + 1) frame)
    (hOffset : offset levels (level + 1) address = some o)
    (hLeaf : level + 1 ≠ leafLevel pageSize)
    (hFrames : level + 1 ≤ frames.length) :
    ∃ f rest, enter (level + 1) frame frames = some (f, rest) ∧
      level ≤ rest.length ∧
      (f.entries o).isPte = false ∧
      ∃ next, (f.entries o).readNext = some next ∧
        Takes levels sizes address page pageSize level next := by
  rcases hTakes with ⟨o', hAddress, -, hBelow⟩
  have hSame : o' = o :=
    Option.some.inj (hAddress.symm.trans hOffset)
  subst hSame
  rw [if_neg hLeaf] at hBelow
  cases frame with
  | some f =>
      rcases hBelow with ⟨hPte, next, hNext, hRest⟩
      exact ⟨f, frames, rfl, by omega, hPte, next, hNext, hRest⟩
  | none =>
      cases frames with
      | nil => cases hFrames
      | cons new frames =>
          refine ⟨_, frames, rfl, by simpa using hFrames, ?_,
            none, rfl, hBelow⟩
          cases level with
          | zero => exact absurd hBelow (by simp [Takes])
          | succ level => rfl

/- The update of a page that the path takes. -/
theorem update_of_takes
    (level : Nat)
    {frame : Option PTFrame}
    {frames : List Nat}
    (hTakes : Takes levels sizes address page pageSize level frame)
    (hValid : ppn ≠ invalidPpn)
    (hFrames : level ≤ frames.length) :
    ∃ f rest, update levels page ppn pageSize level frame
        frames = some (some f, rest) ∧
      Finds levels sizes address level f (ppn, pageSize.bits) := by
  induction level generalizing frame frames with
  | zero => exact absurd hTakes (by simp [Takes])
  | succ level ih =>
      have hAll := hTakes
      rcases hTakes with ⟨o, hAddress, hPage, hBelow⟩
      by_cases hLeaf : level + 1 = leafLevel pageSize
      · rw [if_pos hLeaf] at hBelow
        have hEnter : ∃ f rest,
            enter (level + 1) frame frames = some (f, rest) := by
          cases frame with
          | some f => exact ⟨f, frames, rfl⟩
          | none =>
              cases frames with
              | nil => cases hFrames
              | cons new frames => exact ⟨_, frames, rfl⟩
        rcases hEnter with ⟨f, rest, hEnter⟩
        refine ⟨_, rest, ?_,
          (finds_written_iff (f := f) hAddress).mpr
            ⟨hValid, hBelow⟩⟩
        simp only [update, hPage, hEnter]
        rw [if_pos hLeaf]
      · rcases enter_of_takes hAll hAddress hLeaf hFrames with
          ⟨f, rest, hEnter, hEnough, hPte, next, hNext, hRest⟩
        rcases ih hRest hEnough with
          ⟨g, rest', hUpdate, hFinds⟩
        refine ⟨_, rest', ?_,
          (finds_link_iff (f := f) hAddress _).mpr ⟨hPte, hFinds⟩⟩
        simp only [update, hPage, hEnter, hNext, hUpdate]
        rw [if_neg hLeaf]

/- The path takes a page if it does so one level below. -/
theorem takes_of_below
    {frame next : Option PTFrame}
    (hEnter : enter (level + 1) frame frames = some (f, rest))
    (hAddress : offset levels (level + 1) address = some o)
    (hPage : offset levels (level + 1) page = some o)
    (hLeaf : level + 1 ≠ leafLevel pageSize)
    (hPte : (f.entries o).isPte = false)
    (hNext : (f.entries o).readNext = some next)
    (hBelow : Takes levels sizes address page pageSize level next) :
    Takes levels sizes address page pageSize (level + 1) frame := by
  refine ⟨o, hAddress, hPage, ?_⟩
  rw [if_neg hLeaf]
  cases frame with
  | some current =>
      simp only [enter, Option.some.injEq, Prod.mk.injEq] at hEnter
      rw [hEnter.1]
      exact ⟨hPte, next, hNext, hBelow⟩
  | none =>
      cases frames with
      | nil => cases hEnter
      | cons new frames =>
          simp only [enter, Option.some.injEq,
            Prod.mk.injEq] at hEnter
          rw [← hEnter.1] at hNext
          have hNone : next = none :=
            (Option.some.inj hNext).symm
          rw [hNone] at hBelow
          exact hBelow

theorem PTFrame.setEntry_self
    (f : PTFrame)
    (o : Nat) :
    f.setEntry o (f.entries o) = f := by
  cases f with
  | mk ppn entries =>
      simp [PTFrame.setEntry, PTFrame.entries, PTFrame.emulatedPpn]

/-
  What an update has done in the current frame: nothing, the
  leaf, or a link to a frame updated below.
-/
theorem update_succ
    {frame : Option PTFrame}
    {f' : PTFrame}
    (hUpdate : update levels page ppn pageSize (level + 1)
      frame frames = some (some f', rest)) :
    ∃ o f frames', offset levels (level + 1) page = some o ∧
      enter (level + 1) frame frames = some (f, frames') ∧
      (f' = f ∨
        (level + 1 = leafLevel pageSize ∧
          f' = f.setEntry o ((f.entries o).writeTranslation ppn)) ∨
        (level + 1 ≠ leafLevel pageSize ∧
          ∃ next g, (f.entries o).readNext = some next ∧
            update levels page ppn pageSize level next
              frames' = some (some g, rest) ∧
            f' = f.setEntry o ((f.entries o).link (some g)))) := by
  rw [update] at hUpdate
  split at hUpdate
  · rename_i o f frames' hPage hEnter
    refine ⟨o, f, frames', hPage, hEnter, ?_⟩
    by_cases hLeaf : level + 1 = leafLevel pageSize
    · simp only [if_pos hLeaf, Option.some.injEq,
        Prod.mk.injEq] at hUpdate
      exact Or.inr (Or.inl ⟨hLeaf, hUpdate.1.symm⟩)
    · simp only [if_neg hLeaf] at hUpdate
      split at hUpdate
      · cases hUpdate
      · rename_i next hNext
        split at hUpdate
        · cases hUpdate
        · rename_i next' frames'' hInner
          simp only [Option.some.injEq, Prod.mk.injEq] at hUpdate
          rcases hUpdate with ⟨hFrame, rfl⟩
          cases next' with
          | none =>
              left
              rw [← hFrame]
              exact PTFrame.setEntry_self f o
          | some g =>
              exact Or.inr (Or.inr ⟨hLeaf, next, g, hNext,
                hInner, hFrame.symm⟩)
  · cases hUpdate

/-
  If the walk of an address faulted and finds the page after
  an update, then its path takes the page.
-/
theorem takes_of_finds
    (level : Nat)
    {frame : Option PTFrame}
    {frames rest : List Nat}
    {f' : PTFrame}
    (hFaults : ∀ f ∈ frame, FaultsAt levels sizes address level f)
    (hUpdate : update levels page ppn pageSize level frame
      frames = some (some f', rest))
    (hFinds : Finds levels sizes address level f'
      (ppn, pageSize.bits)) :
    Takes levels sizes address page pageSize level frame ∧
      ppn ≠ invalidPpn := by
  induction level generalizing frame frames rest f' with
  | zero =>
      rcases hFinds with ⟨r, hWalk, -⟩
      cases hWalk
  | succ level ih =>
      rcases update_succ hUpdate with
        ⟨o, f, frames', hPage, hEnter, hDone⟩
      cases hIndex : offset levels (level + 1) address with
      | none =>
          rcases hFinds with ⟨r, hWalk, -⟩
          simp [walk, hIndex] at hWalk
      | some o' =>
          have hFault := faultsAt_enter hFaults hIndex hEnter
          -- the walk does not read the entry of another path
          have hAddress : ∀ e, f' = f.setEntry o e →
              offset levels (level + 1) address = some o := by
            intro e hFrame
            by_contra hOther
            apply hFault.not_finds (ppn, pageSize.bits)
            rwa [hFrame, Finds,
              walk_setEntry_of_ne f e hOther] at hFinds
          rcases hDone with hSame | ⟨hLeaf, hFrame⟩ |
            ⟨hLeaf, next, g, hNext, hInner, hFrame⟩
          · rw [hSame] at hFinds
            exact absurd hFinds (hFault.not_finds _)
          · have hHere := hAddress _ hFrame
            rw [hFrame] at hFinds
            rcases (finds_written_iff hHere).mp hFinds with
              ⟨hValid, hSize⟩
            refine ⟨⟨o, hHere, hPage, ?_⟩, hValid⟩
            rw [if_pos hLeaf]
            exact hSize
          · have hHere := hAddress _ hFrame
            rw [hFrame] at hFinds
            rcases (finds_link_iff hHere _).mp hFinds with
              ⟨hPte, hBelow⟩
            have hFaultsNext : ∀ f₀ ∈ next,
                FaultsAt levels sizes address level f₀ := by
              intro f₀ hMem
              rw [Option.mem_def.mp hMem] at hNext
              exact hFault.below hHere hPte hNext
            rcases ih hFaultsNext hInner hBelow with
              ⟨hTakes, hValid⟩
            exact ⟨takes_of_below hEnter hHere hPage hLeaf
              hPte hNext hTakes, hValid⟩

/- The first level takes every 4KB page. -/
theorem takes_one
    (address : Nat)
    (frame : Option PTFrame) :
    Takes 4 [12, 21] address (address / 2 ^ 12 * 2 ^ 12)
      .fourKb 1 frame := by
  have hOffset : offset 4 1 address = some (index 1 address) :=
    offset_four (by decide) (by decide) address
  exact ⟨index 1 address, hOffset,
    (offset_page (by decide) (by decide) address).trans
      hOffset, rfl⟩

/-
  Above the second level there are pointers only, so the path
  takes a 2MB page, and a 4KB page where no 2MB page was.
-/
theorem takes_of_upper
    {n address : Nat}
    {frame : Option PTFrame}
    (hLe : n ≤ 2)
    (hUpper : Upper n frame)
    (hEntry : pageSize = .fourKb →
      ∃ next, (regionEntry address n frame).isPte = false ∧
        (regionEntry address n frame).word = .nextLevel next) :
    Takes 4 [12, 21] address (address / 2 ^ 12 * 2 ^ 12)
      pageSize (n + 2) frame := by
  have hOffset : offset 4 (n + 2) address =
      some (index (n + 2) address) :=
    offset_four (by omega) (by omega) address
  have hPage : offset 4 (n + 2)
      (address / 2 ^ 12 * 2 ^ 12) = some (index (n + 2) address) :=
    (offset_page (by omega) (by omega) address).trans hOffset
  induction n generalizing frame with
  | zero =>
      refine ⟨index 2 address, hOffset, hPage, ?_⟩
      cases pageSize with
      | twoMb => rfl
      | fourKb =>
          rw [if_neg (by decide)]
          cases frame with
          | none => exact takes_one address none
          | some f =>
              rcases hEntry rfl with ⟨next, hPte, hWord⟩
              have hNext :
                  (f.entries (index 2 address)).readNext =
                    some next := by
                unfold readNext
                rw [show (f.entries (index 2 address)).word =
                  .nextLevel next from hWord]
              exact ⟨hPte, next, hNext, takes_one address next⟩
  | succ n ih =>
      have hOffset' : offset 4 (n + 2) address =
          some (index (n + 2) address) :=
        offset_four (by omega) (by omega) address
      have hPage' : offset 4 (n + 2)
          (address / 2 ^ 12 * 2 ^ 12) =
            some (index (n + 2) address) :=
        (offset_page (by omega) (by omega) address).trans hOffset'
      have hLeaf : n + 2 + 1 ≠ leafLevel pageSize := by
        cases pageSize with
        | fourKb =>
            rw [leafLevel]
            omega
        | twoMb =>
            rw [leafLevel]
            omega
      refine ⟨index (n + 3) address, hOffset, hPage, ?_⟩
      rw [if_neg hLeaf]
      cases frame with
      | none =>
          apply ih (by omega)
          · cases n with
            | zero => trivial
            | succ n => trivial
          · intro _
            rw [regionEntry_none]
            exact ⟨none, rfl, rfl⟩
          · exact hOffset'
          · exact hPage'
      | some f =>
          rcases hUpper (index (n + 3) address) with
            ⟨hPte, next, hWord, hBelow⟩
          have hNext :
              (f.entries (index (n + 3) address)).readNext =
                some next := by
            simp [readNext, hWord]
          refine ⟨hPte, next, hNext, ?_⟩
          apply ih (by omega) hBelow
          · intro hSize
            have hHere := hEntry hSize
            simp only [regionEntry, hWord] at hHere
            exact hHere
          · exact hOffset'
          · exact hPage'

/-
  In a table from which nothing was deleted, the path of
  every address that is not mapped takes pages of both sizes.
-/
theorem takes_of_inv
    {s : Session}
    (hInv : Inv s)
    (hGrows : Grows s.past)
    {address : Nat}
    (hUnmapped : mappingOf s.past (pageOf address) = none)
    (pageSize : PageSize) :
    Takes s.table.levels s.table.pageSizeList address
      (address / 2 ^ 12 * 2 ^ 12) pageSize s.table.levels
      (some s.table.root) := by
  rw [hInv.levels, hInv.sizes]
  refine takes_of_upper (n := 2) (Nat.le_refl 2) hInv.upper ?_
  intro _
  have hEntry := hInv.reflects address
  rcases hEntry.ok with ⟨hPte, -⟩ | ⟨hPte, next, hWord, -⟩
  · rcases hEntry.large.mp hPte with ⟨op, hMem, hLarge⟩
    rw [mapsLargeIn_of_unmapped hGrows hUnmapped op hMem] at hLarge
    cases hLarge
  · exact ⟨next, hPte, hWord⟩

end Radix

end Virtuoso
