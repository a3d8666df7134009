import Virtuoso.PageTable.Radix.Faults

/-
  The frames that are missing after an update.

  An update of a 4KB page builds the frames missing on its
  path and no others, so that another path misses afterwards
  what it missed before, up to the frame at which the two
  paths part. An update without enough frames fails.

  Main declarations:
    * `Radix.missingFrames_update`
    * `Radix.update_eq_none_of_missing`
-/

namespace Virtuoso

namespace Radix

open PTEntry

/-
  The frames below a level, on the path of an address, that
  the path of another address does not go through.
-/
def unshared (other address : Nat) : Nat → Nat
| 0 => 0
| level + 1 =>
    if index (level + 1) address = index (level + 1) other then
      unshared other address level
    else
      level

theorem unshared_le
    (other address level : Nat) :
    unshared other address (level + 1) ≤ level := by
  induction level with
  | zero =>
      unfold unshared
      split_ifs
      · exact Nat.le_refl 0
      · exact Nat.le_refl 0
  | succ level ih =>
      unfold unshared
      split_ifs
      · exact ih.trans (Nat.le_succ level)
      · exact Nat.le_refl _

/- The path of an address goes through pointers only. -/
def Pointers (address : Nat) : Nat → Option PTFrame → Prop
| level + 2, some f =>
    ∃ next, (f.entries (index (level + 2) address)).word =
        .nextLevel next ∧
      Pointers address (level + 1) next
| _, _ => True

/- A frame misses no frames but those below it. -/
theorem missingFrames_some_le
    {address level : Nat}
    (hLe : level + 1 ≤ 4)
    (f : PTFrame) :
    missingFrames 4 address (level + 1) (some f) ≤ level := by
  rw [missingFrames, offset_four (by omega) hLe]
  simp only
  split
  · exact missingFrames_le 4 address level _
  · exact Nat.zero_le level

theorem missingFrames_none
    (address level : Nat) :
    missingFrames 4 address level none = level := by
  cases level with
  | zero => rfl
  | succ level => rfl

/- A frame that is new misses all frames below it. -/
theorem missingFrames_fresh
    {address level : Nat}
    (hLe : level + 1 ≤ 4)
    {f : PTFrame}
    {isPte : Bool}
    (hFresh : f.entries = fun _ => fresh isPte) :
    missingFrames 4 address (level + 1) (some f) = level := by
  have hWord : (f.entries (index (level + 1) address)).word =
      .nextLevel none := by
    rw [hFresh]
    rfl
  rw [missingFrames_some hLe hWord, missingFrames_none]

/- Another path is not changed by an entry of this one. -/
theorem missingFrames_setEntry_of_ne
    {address level o : Nat}
    (hLe : level + 1 ≤ 4)
    (f : PTFrame)
    (e : PTEntry PTFrame)
    (hNe : index (level + 1) address ≠ o) :
    missingFrames 4 address (level + 1) (some (f.setEntry o e)) =
      missingFrames 4 address (level + 1) (some f) := by
  rw [missingFrames, missingFrames, offset_four (by omega) hLe]
  simp only [PTFrame.entries_setEntry, Function.update_of_ne hNe]

/-
  What an update of a 4KB page builds: it fails without the
  frames missing on its path, and another path misses
  afterwards no frame that the two paths share.
-/
structure Builds
    (address ppn level : Nat)
    (frame : Option PTFrame)
    (frames : List Nat) : Prop where
  fails :
    frames.length < missingFrames 4 address (level + 1) frame →
      update 4 address ppn .fourKb (level + 1) frame frames = none
  shares : ∀ frame' rest,
    update 4 address ppn .fourKb (level + 1) frame frames =
        some (frame', rest) →
      frame'.isSome ∧ ∀ other,
        missingFrames 4 other (level + 1) frame' =
          min (missingFrames 4 other (level + 1) frame)
            (unshared address other (level + 1))

/- At the first level an update writes an entry. -/
theorem builds_leaf
    (address ppn : Nat)
    (f : PTFrame)
    (frames : List Nat) :
    Builds address ppn 0 (some f) frames := by
  have hNone : ∀ other (g : PTFrame),
      missingFrames 4 other 1 (some g) = 0 :=
    fun other g =>
      Nat.le_zero.mp (missingFrames_some_le (by decide) g)
  have hOffset := offset_one address
  refine ⟨?_, ?_⟩
  · intro hShort
    rw [hNone] at hShort
    exact absurd hShort (Nat.not_lt_zero _)
  · intro frame' rest hUpdate
    simp only [update, hOffset, enter, leafLevel, if_true,
      Option.some.injEq, Prod.mk.injEq] at hUpdate
    rcases hUpdate with ⟨rfl, rfl⟩
    refine ⟨rfl, fun other => ?_⟩
    rw [hNone, hNone, Nat.zero_min]

/- Above the first level an update follows a pointer. -/
theorem builds_inner
    {address ppn level : Nat}
    (hLe : level + 2 ≤ 4)
    {f : PTFrame}
    {next : Option PTFrame}
    {frames : List Nat}
    (hWord : (f.entries (index (level + 2) address)).word =
      .nextLevel next)
    (hBelow : Builds address ppn level next frames) :
    Builds address ppn (level + 1) (some f) frames := by
  have hOffset : offset 4 (level + 1 + 1) address =
      some (index (level + 2) address) :=
    offset_four (by omega) hLe address
  have hRead : (f.entries (index (level + 2)
      address)).readNext = some next := by
    simp [readNext, hWord]
  have hLeaf : level + 1 + 1 ≠ leafLevel .fourKb := by
    simp [leafLevel]
  refine ⟨?_, ?_⟩
  · intro hShort
    rw [missingFrames_some hLe hWord] at hShort
    rw [update]
    simp [hOffset, enter, hLeaf, hRead, hBelow.fails hShort]
  · intro frame' rest hUpdate
    rw [update] at hUpdate
    simp only [hOffset, enter, hLeaf, if_false, hRead] at hUpdate
    split at hUpdate
    · cases hUpdate
    · rename_i next' rest' hInner
      simp only [Option.some.injEq, Prod.mk.injEq] at hUpdate
      rcases hUpdate with ⟨rfl, rfl⟩
      rcases hBelow.shares next' rest' hInner with
        ⟨hSome, hShares⟩
      rcases Option.isSome_iff_exists.mp hSome with ⟨g, rfl⟩
      refine ⟨rfl, fun other => ?_⟩
      unfold unshared
      by_cases hSame : index (level + 2) other =
          index (level + 2) address
      · have hNew : ((f.setEntry (index (level + 2) address)
            ((f.entries (index (level + 2) address)).link
              (some g))).entries (index (level + 2)
                other)).word = .nextLevel (some g) := by
          rw [hSame, PTFrame.entries_setEntry, Function.update_self]
          rfl
        rw [if_pos hSame, missingFrames_some hLe hNew,
          missingFrames_some hLe (hSame ▸ hWord),
          hShares other]
      · rw [if_neg hSame,
          missingFrames_setEntry_of_ne hLe f _ hSame,
          min_eq_left (missingFrames_some_le hLe f)]

/- A null pointer is filled with a new frame. -/
theorem Builds.of_new
    {address ppn level first : Nat}
    (hLe : level + 1 ≤ 4)
    {frames : List Nat}
    (hNew : Builds address ppn level
      (some (.mk first (fun _ => fresh (level + 1 == 1))))
      frames) :
    Builds address ppn level none (first :: frames) := by
  have hEnter :
      update 4 address ppn .fourKb (level + 1) none
          (first :: frames) =
        update 4 address ppn .fourKb (level + 1)
          (some (.mk first (fun _ => fresh (level + 1 == 1))))
          frames := by
    simp [update, enter]
  have hMissing : ∀ other,
      missingFrames 4 other (level + 1)
        (some (.mk first (fun _ => fresh (level + 1 == 1)))) =
          level :=
    fun other => missingFrames_fresh hLe rfl
  refine ⟨?_, ?_⟩
  · intro hShort
    rw [missingFrames_none, List.length_cons] at hShort
    rw [hEnter]
    apply hNew.fails
    rw [hMissing]
    omega
  · intro frame' rest hUpdate
    rw [hEnter] at hUpdate
    rcases hNew.shares frame' rest hUpdate with
      ⟨hSome, hShares⟩
    refine ⟨hSome, fun other => ?_⟩
    have hBound := unshared_le address other level
    rw [hShares other, hMissing, missingFrames_none,
      min_eq_right hBound,
      min_eq_right (hBound.trans (Nat.le_succ level))]

theorem builds_nil
    (address ppn level : Nat) :
    Builds address ppn level none [] := by
  have hNone : update 4 address ppn .fourKb (level + 1) none
      [] = none := by
    unfold update
    split
    · simp [enter] at *
    · rfl
  refine ⟨fun _ => hNone, ?_⟩
  intro frame' rest hUpdate
  rw [hNone] at hUpdate
  cases hUpdate

/- An update builds what is missing on its path. -/
theorem builds_update
    (address ppn : Nat)
    {level : Nat}
    (hLe : level + 1 ≤ 4)
    (frame : Option PTFrame)
    (frames : List Nat)
    (hPointers : Pointers address (level + 1) frame) :
    Builds address ppn level frame frames := by
  induction level generalizing frame frames with
  | zero =>
      cases frame with
      | some f => exact builds_leaf address ppn f frames
      | none =>
          cases frames with
          | nil => exact builds_nil address ppn 0
          | cons first frames =>
              exact (builds_leaf address ppn _ frames).of_new hLe
  | succ level ih =>
      cases frame with
      | some f =>
          rcases hPointers with ⟨next, hWord, hNext⟩
          exact builds_inner hLe hWord
            (ih (by omega) next frames hNext)
      | none =>
          cases frames with
          | nil => exact builds_nil address ppn (level + 1)
          | cons first frames =>
              apply Builds.of_new hLe
              apply builds_inner hLe rfl
              exact ih (by omega) none frames (by
                cases level with
                | zero => trivial
                | succ level => trivial)

/- The path of a region whose entry is a pointer. -/
theorem pointers_of_upper
    {n address : Nat}
    {frame : Option PTFrame}
    {next : Option PTFrame}
    (hUpper : Upper n frame)
    (hWord : (regionEntry address n frame).word = .nextLevel next) :
    Pointers address (n + 2) frame := by
  induction n generalizing frame with
  | zero =>
      cases frame with
      | none => trivial
      | some f => exact ⟨next, hWord, trivial⟩
  | succ n ih =>
      cases frame with
      | none => trivial
      | some f =>
          rcases hUpper (index (n + 3) address) with
            ⟨-, below, hBelow, hRest⟩
          refine ⟨below, hBelow, ih hRest ?_⟩
          simp only [regionEntry, hBelow] at hWord
          exact hWord

/- An update does not get below an entry without a pointer. -/
theorem update_eq_none_of_readNext
    {n address : Nat}
    (hLe : n ≤ 2)
    {frame : Option PTFrame}
    (hUpper : Upper n frame)
    (hRead : (regionEntry address n frame).readNext = none)
    (ppn : Nat)
    (frames : List Nat) :
    update 4 address ppn .fourKb (n + 2) frame frames = none := by
  induction n generalizing frame with
  | zero =>
      cases frame with
      | none => simp [fresh, readNext] at hRead
      | some f =>
          simp only [regionEntry] at hRead
          rw [update_two, updateEntry]
          simp [hRead]
  | succ n ih =>
      cases frame with
      | none => simp [fresh, readNext] at hRead
      | some f =>
          have hOffset : offset 4 (n + 2 + 1) address =
              some (index (n + 3) address) :=
            offset_four (by omega) (by omega) address
          rcases hUpper (index (n + 3) address) with
            ⟨-, below, hBelow, hRest⟩
          simp only [regionEntry, hBelow] at hRead
          have hNext : (f.entries (index (n + 3)
              address)).readNext = some below := by
            simp [readNext, hBelow]
          have hLeaf : n + 2 + 1 ≠ leafLevel .fourKb := by
            simp [leafLevel]
          rw [show n + 1 + 2 = n + 2 + 1 by omega, update]
          simp [hOffset, enter, hLeaf, hNext,
            ih (by omega) hRest hRead]

/- The frames missing on the path of an address. -/
def missing (s : Session) (address : Nat) : Nat :=
  missingFrames 4 address 4 (some s.table.root)

/- A 2MB page was mapped in the region of an address. -/
def Large (s : Session) (address : Nat) : Prop :=
  ∃ op ∈ s.past, op.mapsLargeIn (pageOf address / 512) = true

instance
    (s : Session)
    (address : Nat) :
    Decidable (Large s address) :=
  inferInstanceAs (Decidable (∃ op ∈ s.past, _ = true))

/- The regions that were mapped with 2MB pages still are. -/
def KeepsLarge (s : Session) : Prop :=
  ∀ address, Large s address →
    (mappingOf s.past (pageOf address)).isSome

variable {s : Session}

theorem not_large_iff
    {address : Nat} :
    ¬ Large s address ↔ ∀ op ∈ s.past,
      op.mapsLargeIn (pageOf address / 512) = false := by
  unfold Large
  push Not
  simp only [ne_eq, Bool.not_eq_true]

/- Updates of 4KB pages map no region with 2MB pages. -/
theorem large_fourKb
    {t : PageTableRadix}
    {past : List Op}
    {address ppn : Nat}
    {frames : List Nat}
    (other : Nat) :
    Large ⟨t, .update address ppn .fourKb frames :: past⟩ other ↔
      ∃ op ∈ past, op.mapsLargeIn (pageOf other / 512) = true := by
  unfold Large
  simp [Op.mapsLargeIn]

/- An update of a 4KB page in a region of 2MB pages. -/
theorem update_of_large
    (hInv : Inv s)
    (hKeeps : KeepsLarge s)
    {address : Nat}
    (hLarge : Large s address)
    (ppn : Nat)
    (frames : List Nat) :
    updatePageTableFrames s.table address ppn .fourKb frames =
      none := by
  have hEntry := hInv.reflects address
  have hPte := hEntry.large.mpr hLarge
  have hRead : (entryOf s.table address).readNext = none := by
    rcases hEntry.ok with
      ⟨-, bit, under, hWord, -⟩ | ⟨hNot, -⟩
    · cases bit with
      | true => simp [readNext, hWord]
      | false =>
          have hView := hEntry.view
          have hSome := hKeeps address hLarge
          rw [← hView] at hSome
          simp [view, hWord] at hSome
    · rw [hPte] at hNot
      cases hNot
  have hNone := update_eq_none_of_readNext (Nat.le_refl 2)
    hInv.upper hRead ppn frames
  simp only [updatePageTableFrames, hInv.levels, hNone]

theorem builds_session
    (hInv : Inv s)
    {address : Nat}
    (hSmall : ¬ Large s address)
    (ppn : Nat)
    (frames : List Nat) :
    Builds address ppn 3 (some s.table.root) frames := by
  have hEntry := hInv.reflects address
  rcases hEntry.ok with ⟨hPte, -⟩ | ⟨-, next, hWord, -⟩
  · exact absurd (hEntry.large.mp hPte) hSmall
  · exact builds_update address ppn (by decide) _ frames
      (pointers_of_upper hInv.upper hWord)

/- An update with fewer frames than are missing. -/
theorem update_of_short
    (hInv : Inv s)
    {address : Nat}
    (hSmall : ¬ Large s address)
    {frames : List Nat}
    (hShort : frames.length < missing s address)
    (ppn : Nat) :
    updatePageTableFrames s.table address ppn .fourKb frames =
      none := by
  have hNone := (builds_session hInv hSmall ppn frames).fails hShort
  simp only [updatePageTableFrames, hInv.levels, hNone]

/- An update with all frames that are missing. -/
theorem update_of_enough
    (hInv : Inv s)
    {address ppn : Nat}
    (hSmall : ¬ Large s address)
    {frames : List Nat}
    (hEnough : missing s address ≤ frames.length)
    (hPpn : ppn ≠ invalidPpn) :
    ∃ used t,
      updatePageTableFrames s.table address ppn .fourKb
          frames = some (used, t) ∧
        Inv ⟨t, .update address ppn .fourKb frames :: s.past⟩ ∧
        ∀ other, missing ⟨t, .update address ppn .fourKb
            frames :: s.past⟩ other =
          min (missing s other) (unshared address other 4) := by
  have hSupplied :
      Supplied s (.update address ppn .fourKb frames) := by
    simp only [Supplied, hInv.levels]
    exact hEnough.trans (Nat.le_add_right _ _)
  rcases step_update_fourKb hInv hSupplied hPpn
      (not_large_iff.mp hSmall) with ⟨s', hStep, hInv'⟩
  rcases Option.map_eq_some_iff.mp hStep with
    ⟨⟨used, t⟩, hUpdate, rfl⟩
  refine ⟨used, t, hUpdate, hInv', fun other => ?_⟩
  unfold updatePageTableFrames at hUpdate
  rw [hInv.levels] at hUpdate
  split at hUpdate
  · rename_i root rest hTable
    simp only [Option.some.injEq, Prod.mk.injEq] at hUpdate
    have hShares := (builds_session hInv hSmall ppn
      frames).shares (some root) rest hTable
    unfold missing
    rw [← hUpdate.2]
    exact hShares.2 other
  · cases hUpdate

end Radix

end Virtuoso
