import Mathlib.Tactic.IntervalCases
import Mathlib.Tactic.NormNum
import Virtuoso.PageTable.Radix.Basic

/-
  The four-level radix table as a table of second-level
  entries.

  With four levels the two upper levels only lead to a
  second-level entry. An update and a deletion change the
  entry of their own 2MB region and no other, and a walk
  reads the entry of its region.

  Main declarations:
    * `Radix.regionEntry`
    * `Radix.walk_region`
-/

------------------------------------------------------------
-- The Entry Of A Region
------------------------------------------------------------

namespace Virtuoso

namespace Radix

open PTEntry

/- The index of an address at a level of a four-level table. -/
def index (level address : Nat) : Nat :=
  address / 2 ^ (9 * level + 3) % 512

theorem offset_four
    {level : Nat}
    (hLow : 1 ≤ level)
    (hHigh : level ≤ 4)
    (address : Nat) :
    offset 4 level address = some (index level address) := by
  interval_cases level <;> rfl

theorem offset_one
    (address : Nat) :
    offset 4 (0 + 1) address = some (index 1 address) :=
  offset_four (by decide) (by decide) address

/- The 4KB page of an address, of which the table uses 36 bits. -/
def pageOf (address : Nat) : Nat :=
  address / 2 ^ 12 % 2 ^ 36

/- The same path through the upper levels. -/
def SamePath (n address address' : Nat) : Prop :=
  ∀ j ≤ n, index (j + 2) address = index (j + 2) address'

instance
    (n address address' : Nat) :
    Decidable (SamePath n address address') :=
  inferInstanceAs (Decidable (∀ j ≤ n,
    index (j + 2) address = index (j + 2) address'))

theorem samePath_two_iff
    (address address' : Nat) :
    SamePath 2 address address' ↔
      pageOf address / 512 = pageOf address' / 512 := by
  unfold pageOf
  constructor
  · intro hSame
    have hTwo := hSame 0 (by decide)
    have hThree := hSame 1 (by decide)
    have hFour := hSame 2 (by decide)
    simp only [index] at hTwo hThree hFour
    omega
  · intro hEq j hLe
    simp only [index]
    interval_cases j <;> simp only [Nat.reduceMul,
      Nat.reduceAdd, Nat.reducePow] at * <;> omega

theorem pageOf_eq_iff
    (address address' : Nat) :
    pageOf address = pageOf address' ↔
      pageOf address / 512 = pageOf address' / 512 ∧
        index 1 address = index 1 address' := by
  simp only [pageOf, index]
  omega

/-
  The second-level entry on the path of an address, from a
  frame `n` levels above the second.
-/
def regionEntry
    (address : Nat) :
    Nat → Option PTFrame → PTEntry PTFrame
| _, none => fresh false
| 0, some f => f.entries (index 2 address)
| n + 1, some f =>
    match (f.entries (index (n + 3) address)).word with
    | .nextLevel next => regionEntry address n next
    | .valid _ _ => fresh false

@[simp] theorem regionEntry_none
    (address n : Nat) :
    regionEntry address n none = fresh false := by
  cases n with
  | zero => rfl
  | succ n => rfl

/- The upper levels hold pointers only. -/
def Upper :
    Nat → Option PTFrame → Prop
| 0, _ => True
| _ + 1, none => True
| n + 1, some f =>
    ∀ o, (f.entries o).isPte = false ∧
      ∃ next, (f.entries o).word = .nextLevel next ∧ Upper n next

/- An entry of a first-level frame. -/
def SlotOk (e : PTEntry PTFrame) : Prop :=
  e.isPte = true ∧
    (e.word = .nextLevel none ∨
      ∃ bit under, e.word = .valid bit under ∧
        (bit = true → e.ppn ≠ invalidPpn))

/-
  A second-level entry is a written 2MB translation or a
  pointer to a frame of 4KB translations.
-/
def EntryOk (e : PTEntry PTFrame) : Prop :=
  (e.isPte = true ∧ ∃ bit under, e.word = .valid bit under ∧
      (bit = true → e.ppn ≠ invalidPpn)) ∨
    (e.isPte = false ∧ ∃ next, e.word = .nextLevel next ∧
      ∀ f, next = some f → ∀ o, SlotOk (f.entries o))

/- The translation that an entry gives to an address. -/
def view
    (e : PTEntry PTFrame)
    (address : Nat) : Option (Nat × Nat) :=
  match e.word with
  | .valid true _ => some (e.ppn, 21)
  | .valid false _ => none
  | .nextLevel none => none
  | .nextLevel (some f) =>
      match (f.entries (index 1 address)).word with
      | .valid true _ =>
          some ((f.entries (index 1 address)).ppn, 12)
      | _ => none

theorem regionEntry_congr
    {address address' : Nat}
    (n : Nat)
    (frame : Option PTFrame)
    (hSame : SamePath n address address') :
    regionEntry address' n frame = regionEntry address n frame := by
  induction n generalizing frame with
  | zero =>
      cases frame with
      | none => rfl
      | some f =>
          have hIndex := hSame 0 (Nat.le_refl 0)
          simp only [regionEntry]
          rw [← hIndex]
  | succ n ih =>
      cases frame with
      | none => rfl
      | some f =>
          have hIndex := hSame (n + 1) (Nat.le_refl _)
          have hBelow : SamePath n address address' :=
            fun j hLe => hSame j (Nat.le_succ_of_le hLe)
          simp only [regionEntry]
          rw [← hIndex]
          cases hWord :
              (f.entries (index (n + 1 + 2) address)).word with
          | nextLevel next => exact ih next hBelow
          | valid bit under => rfl

variable {f : PTFrame}

/-
  The region entries after one entry of an upper frame was
  linked to a changed frame.
-/
theorem regionEntry_link
    {n address : Nat}
    {next next' : Option PTFrame}
    {e e' : PTEntry PTFrame}
    (hWord :
      (f.entries (index (n + 3) address)).word = .nextLevel next)
    (hLink : e'.word = .nextLevel next')
    (hBelow : ∀ other,
      regionEntry other n next' =
        if SamePath n address other then e
        else regionEntry other n next)
    (other : Nat) :
    regionEntry other (n + 1)
        (some (f.setEntry (index (n + 3) address) e')) =
      if SamePath (n + 1) address other then e
      else regionEntry other (n + 1) (some f) := by
  by_cases hIndex : index (n + 3) other = index (n + 3) address
  · have hIff : SamePath (n + 1) address other ↔
        SamePath n address other := by
      constructor
      · intro hSame j hLe
        exact hSame j (Nat.le_succ_of_le hLe)
      · intro hSame j hLe
        rcases Nat.lt_or_eq_of_le hLe with hLt | hEq
        · exact hSame j (Nat.le_of_lt_succ hLt)
        · subst hEq
          exact hIndex.symm
    simp only [regionEntry, hIndex, PTFrame.entries_setEntry,
      Function.update_self, hLink, hWord, hBelow, hIff]
  · have hNot : ¬ SamePath (n + 1) address other := by
      intro hSame
      exact hIndex (hSame (n + 1) (Nat.le_refl _)).symm
    rw [if_neg hNot]
    simp only [regionEntry, PTFrame.entries_setEntry,
      Function.update_of_ne hIndex]

/- The region entries after a second-level entry changed. -/
theorem regionEntry_setEntry_two
    (address : Nat)
    (f : PTFrame)
    (e : PTEntry PTFrame)
    (other : Nat) :
    regionEntry other 0 (some (f.setEntry (index 2 address) e)) =
      if SamePath 0 address other then e
      else regionEntry other 0 (some f) := by
  by_cases hIndex : index 2 other = index 2 address
  · have hSame : SamePath 0 address other := by
      intro j hLe
      rw [Nat.le_zero.mp hLe]
      exact hIndex.symm
    simp [regionEntry, hSame, hIndex]
  · have hNot : ¬ SamePath 0 address other := by
      intro hSame
      exact hIndex (hSame 0 (Nat.le_refl 0)).symm
    simp [regionEntry, hNot, Function.update_of_ne hIndex]

/- The upper levels after such a link. -/
theorem upper_link
    {n o : Nat}
    {e' : PTEntry PTFrame}
    {next' : Option PTFrame}
    (hUpper : Upper (n + 1) (some f))
    (hPte : e'.isPte = false)
    (hLink : e'.word = .nextLevel next')
    (hNext : Upper n next') :
    Upper (n + 1) (some (f.setEntry o e')) := by
  intro other
  by_cases hEq : other = o
  · subst hEq
    simp only [PTFrame.entries_setEntry, Function.update_self]
    exact ⟨hPte, next', hLink, hNext⟩
  · simp only [PTFrame.entries_setEntry, Function.update_of_ne hEq]
    exact hUpper other

/- The walk of an address from the entry of its region. -/
def walkEntry
    (e : PTEntry PTFrame)
    (address : Nat) :
    Option (Option (Nat × Nat)) :=
  if e.isPte then
    match e.readValid with
    | none => none
    | some false => some none
    | some true =>
        if e.ppn = invalidPpn then none
        else some (some (e.ppn, 21))
  else
    match e.readNext with
    | none => none
    | some none => some none
    | some (some f) =>
        (walk 4 [12, 21] address 1 f).map (fun r => r.translation)

/- A walk depends only on the entry of the region. -/
theorem walk_region
    {n address : Nat}
    (hLe : n ≤ 2)
    (hUpper : Upper n (some f)) :
    (walk 4 [12, 21] address (n + 2) f).map
        (fun r => r.translation) =
      walkEntry (regionEntry address n (some f)) address := by
  induction n generalizing f with
  | zero =>
      have hOffset : offset 4 (1 + 1) address =
          some (index 2 address) :=
        offset_four (by decide) (by decide) address
      have hEntry : regionEntry address 0 (some f) =
          f.entries (index 2 address) := rfl
      rw [hEntry]
      unfold walk walkEntry
      simp only [hOffset]
      by_cases hPte : (f.entries (index 2 address)).isPte
      · rw [if_pos hPte, if_pos hPte]
        cases (f.entries (index 2 address)).readValid with
        | none => rfl
        | some bit =>
            cases bit with
            | false => rfl
            | true =>
                by_cases hPpn :
                    (f.entries (index 2 address)).ppn = invalidPpn
                · simp [hPpn]
                · simp [hPpn]
      · rw [if_neg hPte, if_neg hPte]
        cases (f.entries (index 2 address)).readNext with
        | none => rfl
        | some next =>
            cases next with
            | none => rfl
            | some g => simp [Function.comp_def]
  | succ n ih =>
      have hOffset : offset 4 (n + 2 + 1) address =
          some (index (n + 3) address) :=
        offset_four (by omega) (by omega) address
      rcases hUpper (index (n + 3) address) with
        ⟨hPte, next, hWord, hNext⟩
      have hRead :
          (f.entries (index (n + 3) address)).readNext =
            some next := by
        simp [readNext, hWord]
      rw [show n + 1 + 2 = n + 2 + 1 by omega]
      unfold walk
      simp only [hOffset, hPte, hRead, regionEntry, hWord]
      cases next with
      | none =>
          rw [regionEntry_none]
          rfl
      | some g =>
          simp only [Bool.false_eq_true, if_false, Option.map_map]
          exact ih (by omega) hNext

/- An entry that is well formed is walked to its view. -/
theorem walkEntry_eq_view
    {e : PTEntry PTFrame}
    (hOk : EntryOk e)
    (address : Nat) :
    walkEntry e address = some (view e address) := by
  rcases hOk with
    ⟨hPte, bit, under, hWord, hPpn⟩ | ⟨hPte, next, hWord, hSlots⟩
  · cases bit with
    | true =>
        simp [walkEntry, hPte, readValid, hWord, view, hPpn rfl]
    | false => simp [walkEntry, hPte, readValid, hWord, view]
  · cases next with
    | none => simp [walkEntry, hPte, readNext, hWord, view]
    | some f =>
        have hOffset := offset_one address
        rcases hSlots f rfl (index 1 address) with
          ⟨hSlot, hNull | ⟨bit, under, hValid, hPpn⟩⟩
        · simp [walkEntry, hPte, readNext, hWord, view, walk,
            hOffset, hSlot, readValid, hNull]
        · cases bit with
          | true =>
              simp [walkEntry, hPte, readNext, hWord, view,
                walk, hOffset, hSlot, readValid, hValid,
                hPpn rfl]
          | false =>
              simp [walkEntry, hPte, readNext, hWord, view,
                walk, hOffset, hSlot, readValid, hValid]

------------------------------------------------------------
-- Updates And Deletions
------------------------------------------------------------

theorem missingFrames_some
    {address level : Nat}
    (hLe : level + 1 ≤ 4)
    {next : Option PTFrame}
    (hWord :
      (f.entries (index (level + 1) address)).word =
        .nextLevel next) :
    missingFrames 4 address (level + 1) (some f) =
      missingFrames 4 address level next := by
  have hOffset : offset 4 (level + 1) address =
      some (index (level + 1) address) :=
    offset_four (by omega) hLe address
  simp [missingFrames, hOffset, hWord]

/- An update from the entry of its region. -/
def updateEntry
    (address ppn : Nat)
    (pageSize : PageSize)
    (e : PTEntry PTFrame)
    (frames : List Nat) :
    Option (PTEntry PTFrame × List Nat) :=
  match pageSize with
  | .twoMb => some (e.writeTranslation ppn, frames)
  | .fourKb =>
      match e.readNext with
      | none => none
      | some next =>
          match update 4 address ppn .fourKb 1 next frames with
          | none => none
          | some (next', frames') =>
              some (e.link next', frames')

/- The level-two step of an update. -/
theorem update_two
    (address ppn : Nat)
    (pageSize : PageSize)
    (f : PTFrame)
    (frames : List Nat) :
    update 4 address ppn pageSize 2 (some f) frames =
      (updateEntry address ppn pageSize
        (f.entries (index 2 address)) frames).map
          (fun r => (some (f.setEntry (index 2 address) r.1),
            r.2)) := by
  have hOffset : offset 4 (1 + 1) address =
      some (index 2 address) :=
    offset_four (by decide) (by decide) address
  rw [update]
  cases pageSize with
  | twoMb => simp [hOffset, enter, leafLevel, updateEntry]
  | fourKb =>
      simp only [hOffset, enter, leafLevel, updateEntry]
      cases hNext : (f.entries (index 2 address)).readNext with
      | none => simp
      | some next =>
          cases hBelow :
              update 4 address ppn .fourKb 1 next frames with
          | none => simp [hBelow]
          | some r => simp [hBelow]

/-
  What an update from `n` levels above the second does: it
  runs out of the upper levels with frames left for the rest
  and replaces the entry of its own region.
-/
def UpdatesRegion
    (address ppn : Nat)
    (pageSize : PageSize)
    (n : Nat)
    (frame : Option PTFrame)
    (frames : List Nat) : Prop :=
  ∃ rest,
    (∀ next, (regionEntry address n frame).word = .nextLevel next →
      missingFrames 4 address 1 next ≤
        rest.length + (leafLevel pageSize - 1)) ∧
    (updateEntry address ppn pageSize
        (regionEntry address n frame) rest = none →
      update 4 address ppn pageSize (n + 2) frame frames = none) ∧
    ∀ e rest',
      updateEntry address ppn pageSize
          (regionEntry address n frame) rest =
        some (e, rest') →
      ∃ f,
        update 4 address ppn pageSize (n + 2) frame frames =
            some (some f, rest') ∧
          Upper n (some f) ∧
          ∀ other,
            regionEntry other n (some f) =
              if SamePath n address other then e
              else regionEntry other n frame

/- The frame that fills a null pointer above level one. -/
def newFrame (ppn : Nat) : PTFrame :=
  .mk ppn (fun _ => fresh false)

theorem regionEntry_newFrame
    (address n ppn : Nat) :
    regionEntry address n (some (newFrame ppn)) = fresh false := by
  cases n with
  | zero => rfl
  | succ n => exact regionEntry_none address n

theorem upper_none
    (n : Nat) :
    Upper n none := by
  cases n with
  | zero => trivial
  | succ n => trivial

theorem upper_newFrame
    (n ppn : Nat) :
    Upper n (some (newFrame ppn)) := by
  cases n with
  | zero => trivial
  | succ n => exact fun _ => ⟨rfl, none, rfl, upper_none n⟩

/- A null pointer is filled with the first frame. -/
theorem UpdatesRegion.of_newFrame
    {address ppn : Nat}
    {pageSize : PageSize}
    {n first : Nat}
    {frames : List Nat}
    (hNew : UpdatesRegion address ppn pageSize n
      (some (newFrame first)) frames) :
    UpdatesRegion address ppn pageSize n none
      (first :: frames) := by
  have hEnter :
      update 4 address ppn pageSize (n + 2) none (first :: frames) =
        update 4 address ppn pageSize (n + 2)
          (some (newFrame first)) frames := by
    simp [update, enter, newFrame]
  unfold UpdatesRegion at *
  simp only [regionEntry_newFrame] at hNew
  simp only [regionEntry_none, hEnter]
  exact hNew

theorem updatesRegion_zero
    (address ppn : Nat)
    (pageSize : PageSize)
    (f : PTFrame)
    (frames : List Nat)
    (hEnough :
      missingFrames 4 address 2 (some f) ≤
        frames.length + (leafLevel pageSize - 1)) :
    UpdatesRegion address ppn pageSize 0 (some f) frames := by
  refine ⟨frames, ?_, ?_, ?_⟩
  · intro next hWord
    simp only [regionEntry] at hWord
    rw [missingFrames_some (by decide) hWord] at hEnough
    exact hEnough
  · intro hNone
    simp only [regionEntry] at hNone
    rw [update_two, hNone]
    rfl
  · intro e rest' hSome
    simp only [regionEntry] at hSome
    refine ⟨f.setEntry (index 2 address) e, ?_, trivial, ?_⟩
    · rw [update_two, hSome]
      rfl
    · exact regionEntry_setEntry_two address f e

theorem updatesRegion_succ
    {address ppn : Nat}
    {pageSize : PageSize}
    {n : Nat}
    (hLe : n + 1 ≤ 2)
    {next : Option PTFrame}
    {frames : List Nat}
    (hUpper : Upper (n + 1) (some f))
    (hWord :
      (f.entries (index (n + 3) address)).word = .nextLevel next)
    (hBelow : UpdatesRegion address ppn pageSize n next frames) :
    UpdatesRegion address ppn pageSize (n + 1) (some f) frames := by
  have hOffset : offset 4 (n + 2 + 1) address =
      some (index (n + 3) address) :=
    offset_four (by omega) (by omega) address
  have hLeaf : n + 2 + 1 ≠ leafLevel pageSize := by
    cases pageSize with
    | fourKb => simp [leafLevel]
    | twoMb => simp [leafLevel]
  have hRead :
      (f.entries (index (n + 3) address)).readNext = some next := by
    simp [readNext, hWord]
  have hEntry : regionEntry address (n + 1) (some f) =
      regionEntry address n next := by
    simp [regionEntry, hWord]
  rcases hBelow with ⟨rest, hEnough, hNone, hSome⟩
  refine ⟨rest, ?_, ?_, ?_⟩
  · rw [hEntry]
    exact hEnough
  · intro hFail
    rw [hEntry] at hFail
    have hFail' := hNone hFail
    rw [show n + 1 + 2 = n + 2 + 1 by omega, update]
    simp [hOffset, enter, hLeaf, hRead, hFail']
  · intro e rest' hRest
    rw [hEntry] at hRest
    rcases hSome e rest' hRest with
      ⟨g, hUpdate, hUpper', hRegions⟩
    refine ⟨f.setEntry (index (n + 3) address)
      ((f.entries (index (n + 3) address)).link (some g)),
      ?_, ?_, ?_⟩
    · rw [show n + 1 + 2 = n + 2 + 1 by omega, update]
      simp [hOffset, enter, hLeaf, hRead, hUpdate]
    · exact upper_link hUpper (hUpper _).1 rfl hUpper'
    · exact regionEntry_link hWord rfl hRegions

/- An update changes the entry of its own region. -/
theorem update_region
    (address ppn : Nat)
    (pageSize : PageSize)
    {n : Nat}
    (hLe : n ≤ 2)
    (frame : Option PTFrame)
    (frames : List Nat)
    (hUpper : Upper n frame)
    (hEnough :
      missingFrames 4 address (n + 2) frame ≤
        frames.length + (leafLevel pageSize - 1)) :
    UpdatesRegion address ppn pageSize n frame frames := by
  have hLeaf : leafLevel pageSize ≤ 2 := by
    cases pageSize with
    | fourKb => simp [leafLevel]
    | twoMb => simp [leafLevel]
  induction n generalizing frame frames with
  | zero =>
      cases frame with
      | some f =>
          exact updatesRegion_zero address ppn pageSize f
            frames hEnough
      | none =>
          cases frames with
          | nil =>
              simp only [missingFrames, List.length_nil] at hEnough
              omega
          | cons first frames =>
              have hWord :
                  ((newFrame first).entries
                    (index 2 address)).word = .nextLevel none := rfl
              apply UpdatesRegion.of_newFrame
              apply updatesRegion_zero
              rw [missingFrames_some (by decide) hWord]
              simp only [missingFrames,
                List.length_cons] at hEnough ⊢
              omega
  | succ n ih =>
      cases frame with
      | some f =>
          rcases hUpper (index (n + 3) address) with
            ⟨hPte, next, hWord, hNext⟩
          apply updatesRegion_succ hLe hUpper hWord
          apply ih (by omega) next frames hNext
          exact (missingFrames_some (by omega) hWord) ▸ hEnough
      | none =>
          cases frames with
          | nil =>
              simp only [missingFrames, List.length_nil] at hEnough
              omega
          | cons first frames =>
              have hWord :
                  ((newFrame first).entries
                    (index (n + 3) address)).word =
                      .nextLevel none := rfl
              apply UpdatesRegion.of_newFrame
              apply updatesRegion_succ hLe
                (upper_newFrame (n + 1) first) hWord
              apply ih (by omega) none frames (upper_none n)
              cases n with
              | zero =>
                  simp only [missingFrames,
                    List.length_cons] at hEnough ⊢
                  omega
              | succ n =>
                  simp only [missingFrames,
                    List.length_cons] at hEnough ⊢
                  omega

/- A deletion from the entry of its region. -/
def deleteEntry
    (address : Nat)
    (e : PTEntry PTFrame) :
    Option (PTEntry PTFrame) :=
  if e.isPte then
    some e.clearTranslation
  else
    match e.readNext with
    | none => none
    | some next =>
        match delete 4 address 1 next with
        | none => none
        | some next' => some (e.link next')

/- The level-two step of a deletion. -/
theorem delete_two
    (address : Nat)
    (f : PTFrame) :
    delete 4 address 2 (some f) =
      (deleteEntry address
        (f.entries (index 2 address))).map
          (fun e => some (f.setEntry (index 2 address) e)) := by
  have hOffset : offset 4 (1 + 1) address =
      some (index 2 address) :=
    offset_four (by decide) (by decide) address
  unfold delete deleteEntry
  simp only [hOffset]
  by_cases hPte : (f.entries (index 2 address)).isPte
  · rw [if_pos hPte, if_pos hPte]
    rfl
  · rw [if_neg hPte, if_neg hPte]
    cases (f.entries (index 2 address)).readNext with
    | none => rfl
    | some next =>
        cases hBelow : delete 4 address 1 next with
        | none => simp [hBelow]
        | some next' => simp [hBelow]

/- A deletion changes the entry of its own region. -/
theorem delete_region
    (address : Nat)
    {n : Nat}
    (hLe : n ≤ 2)
    (frame : Option PTFrame)
    (hUpper : Upper n frame) :
    (deleteEntry address (regionEntry address n frame) = none →
      delete 4 address (n + 2) frame = none) ∧
    ∀ e,
      deleteEntry address (regionEntry address n frame) = some e →
        ∃ f,
          delete 4 address (n + 2) frame = some (some f) ∧
            Upper n (some f) ∧
            ∀ other,
              regionEntry other n (some f) =
                if SamePath n address other then e
                else regionEntry other n frame := by
  induction n generalizing frame with
  | zero =>
      cases frame with
      | none =>
          refine ⟨fun _ => rfl, fun e hSome => ?_⟩
          simp [deleteEntry, fresh, readNext, delete] at hSome
      | some f =>
          simp only [regionEntry]
          refine ⟨fun hNone => ?_, fun e hSome => ?_⟩
          · rw [delete_two, hNone]
            rfl
          · refine ⟨f.setEntry (index 2 address) e, ?_, trivial, ?_⟩
            · rw [delete_two, hSome]
              rfl
            · exact regionEntry_setEntry_two address f e
  | succ n ih =>
      cases frame with
      | none =>
          refine ⟨fun _ => rfl, fun e hSome => ?_⟩
          simp [deleteEntry, fresh, readNext, delete] at hSome
      | some f =>
          have hOffset : offset 4 (n + 2 + 1) address =
              some (index (n + 3) address) :=
            offset_four (by omega) (by omega) address
          rcases hUpper (index (n + 3) address) with
            ⟨hPte, next, hWord, hNext⟩
          have hRead :
              (f.entries (index (n + 3) address)).readNext =
                some next := by
            simp [readNext, hWord]
          have hEntry :
              regionEntry address (n + 1) (some f) =
                regionEntry address n next := by
            simp [regionEntry, hWord]
          rw [hEntry, show n + 1 + 2 = n + 2 + 1 by omega]
          rcases ih (by omega) next hNext with
            ⟨hNone, hSome⟩
          refine ⟨fun hFail => ?_, fun e hDelete => ?_⟩
          · simp [delete, hOffset, hPte, hRead, hNone hFail]
          · rcases hSome e hDelete with
              ⟨g, hBelow, hUpper', hRegions⟩
            refine ⟨f.setEntry (index (n + 3) address)
              ((f.entries (index (n + 3) address)).link
                (some g)), ?_, ?_, ?_⟩
            · rw [delete]
              simp [hOffset, hPte, hRead, hBelow]
            · exact upper_link hUpper hPte rfl hUpper'
            · exact regionEntry_link hWord rfl hRegions

end Radix

end Virtuoso
