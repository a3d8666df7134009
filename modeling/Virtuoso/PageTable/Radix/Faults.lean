import Virtuoso.PageTable.Radix.Runs

/-
  Faults of the radix page table: the frames that a walk asks
  for, and where 2MB mappings come from.

  Main declarations:
    * `Radix.missingFrames_le_requestedFrames`
    * `Radix.exists_mapsLargeIn`
-/

namespace Virtuoso

namespace Radix

open PTEntry

/- A pointer that is read is the word of its entry. -/
theorem word_of_readNext
    {e : PTEntry PTFrame}
    {f : PTFrame}
    (hRead : e.readNext = some (some f)) :
    e.word = .nextLevel (some f) := by
  unfold readNext at hRead
  split at hRead
  · rename_i frame hWord
    rw [hWord, Option.some.inj hRead]
  · simp at hRead
  · cases hRead

/-
  A walk that faults asks for as many frames as are missing
  on the path to the first level, or for more.
-/
theorem missingFrames_le_requestedFrames
    {levels address : Nat}
    {sizes : List Nat}
    (level : Nat)
    (f : PTFrame)
    {r : PTWResult}
    (hWalk : walk levels sizes address level f = some r)
    (hFault : r.isPagefault = true) :
    missingFrames levels address level (some f) ≤
      r.requestedFrames := by
  -- below an entry there are `level` frames at most
  have hBelow : ∀ {level o : Nat} (f : PTFrame),
      offset levels (level + 1) address = some o →
      missingFrames levels address (level + 1) (some f) ≤
        level := by
    intro level o f hOffset
    rw [missingFrames, hOffset]
    simp only
    split
    · exact missingFrames_le levels address level _
    · exact Nat.zero_le level
  replace hWalk := walks_of_walk hWalk
  induction hWalk with
  | absent hOffset => exact hBelow _ hOffset
  | leaf _ _ _ => cases hFault
  | through hOffset _ hRead _ ih =>
      rw [missingFrames, hOffset]
      simp only [word_of_readNext hRead]
      exact ih hFault

/- The index of an address is the index of its page. -/
theorem offset_page
    {level : Nat}
    (hLow : 1 ≤ level)
    (hHigh : level ≤ 4)
    (address : Nat) :
    offset 4 level (address / 2 ^ 12 * 2 ^ 12) =
      offset 4 level address := by
  rw [offset_four hLow hHigh, offset_four hLow hHigh]
  unfold index
  have hCases : level = 1 ∨ level = 2 ∨ level = 3 ∨ level = 4 := by
    omega
  rcases hCases with rfl | rfl | rfl | rfl
  · congr 1
    omega
  · congr 1
    omega
  · congr 1
    omega
  · congr 1
    omega

theorem missingFrames_page
    (address : Nat)
    {level : Nat}
    (hHigh : level ≤ 4)
    (frame : Option PTFrame) :
    missingFrames 4 (address / 2 ^ 12 * 2 ^ 12) level frame =
      missingFrames 4 address level frame := by
  induction level generalizing frame with
  | zero => rfl
  | succ level ih =>
      cases frame with
      | none => rfl
      | some f =>
          rw [missingFrames, missingFrames,
            offset_page (by omega) hHigh]
          split
          · rfl
          · split
            · exact ih (by omega) _
            · rfl

/-
  The frames of a faulting walk are enough for an update of
  the page.
-/
theorem supplied_of_walk
    {s : Session}
    (hInv : Inv s)
    {address ppn : Nat}
    {pageSize : PageSize}
    {frames : List Nat}
    {r : PTWResult}
    (hWalk : initializeWalk s.table address = some r)
    (hFault : r.isPagefault = true)
    (hFrames : r.requestedFrames ≤ frames.length) :
    Supplied s (.update (address / 2 ^ 12 * 2 ^ 12) ppn
      pageSize frames) := by
  have hMissing := missingFrames_le_requestedFrames
    s.table.levels s.table.root hWalk hFault
  rw [hInv.levels] at hMissing
  simp only [Supplied, hInv.levels]
  rw [missingFrames_page address (Nat.le_refl 4)]
  omega

/- A supported operation that returns keeps the invariant. -/
theorem inv_of_step
    {s t : Session}
    {op : Op}
    (hInv : Inv s)
    (hSupplied : Supplied s op)
    (hReach : WithinReach s op)
    (hStep : step s op = some t) :
    Inv t ∧ t.past = op :: s.past := by
  rcases step_inv hInv op hSupplied hReach with
    ⟨t', hOutcome, hNext⟩
  rw [hStep, Option.some.injEq] at hOutcome
  refine ⟨hOutcome ▸ hNext, ?_⟩
  cases op with
  | update address ppn pageSize frames =>
      rcases Option.map_eq_some_iff.mp hStep with ⟨_, _, hEq⟩
      rw [← hEq]
  | delete address =>
      rcases Option.map_eq_some_iff.mp hStep with ⟨_, _, hEq⟩
      rw [← hEq]

/- A 2MB mapping comes from an update with a 2MB page. -/
theorem exists_mapsLargeIn
    {past : List Op}
    {page ppn : Nat}
    (hLarge : mappingOf past page = some (ppn, 21)) :
    ∃ op ∈ past, op.mapsLargeIn (page / 512) = true := by
  induction past with
  | nil => cases hLarge
  | cons op past ih =>
      -- an older mapping that is still there
      have hOlder :
          mappingOf past page = some (ppn, 21) →
            ∃ op' ∈ op :: past,
              op'.mapsLargeIn (page / 512) = true := by
        intro hOld
        rcases ih hOld with ⟨op', hMem, hMaps⟩
        exact ⟨op', List.mem_cons_of_mem op hMem, hMaps⟩
      cases op with
      | update address ppn' pageSize frames =>
          simp only [mappingOf, Mapping.map] at hLarge
          split_ifs at hLarge with hPage
          · cases pageSize with
            | fourKb => simp [PageSize.bits] at hLarge
            | twoMb =>
                refine ⟨_, List.mem_cons_self, ?_⟩
                simp only [PageSize.pages] at hPage
                simp [Op.mapsLargeIn, hPage]
          · exact hOlder hLarge
      | delete address =>
          simp only [mappingOf, Mapping.unmap] at hLarge
          split at hLarge
          · split_ifs at hLarge
            exact hOlder hLarge
          · split_ifs at hLarge
            exact hOlder hLarge

end Radix

end Virtuoso
