import Virtuoso.PageTable.Radix.Faults

/-
  The frames that a radix page table keeps.

  An update takes the frames of its list from the front, and
  every frame of the tree afterwards is one of the tree
  before or one that was taken. A frame below an entry stays
  one of the table when a 2MB page is written over its
  pointer.

  Main declarations:
    * `Radix.update_holds`
    * `Radix.mapsLargeIn_of_unmapped`
-/

namespace Virtuoso

namespace Radix

/- The frame below an entry, also under a translation. -/
def PTEntry.child (e : PTEntry PTFrame) : Option PTFrame :=
  match e.word with
  | .nextLevel frame => frame
  | .valid _ under => under

/- A frame of the tree has the number. -/
inductive PTFrame.Holds :
    PTFrame → Nat → Prop
  | here
      (f : PTFrame) :
      PTFrame.Holds f f.emulatedPpn
  | inside
      {f child : PTFrame}
      {n : Nat}
      (o : Nat)
      (hChild : (f.entries o).child = some child)
      (hHolds : PTFrame.Holds child n) :
      PTFrame.Holds f n

theorem child_writeTranslation
    (e : PTEntry PTFrame)
    (ppn : Nat) :
    (e.writeTranslation ppn).child = e.child := by
  cases hWord : e.word with
  | nextLevel frame =>
      simp [PTEntry.child, PTEntry.writeTranslation,
        PTEntry.writeValid, hWord]
  | valid bit under =>
      simp [PTEntry.child, PTEntry.writeTranslation,
        PTEntry.writeValid, hWord]

/- A pointer that is read points to the frame below. -/
theorem child_of_readNext
    {e : PTEntry PTFrame}
    {next : Option PTFrame}
    (hRead : e.readNext = some next) :
    e.child = next := by
  unfold PTEntry.readNext at hRead
  unfold PTEntry.child
  split at hRead
  · next frame hWord =>
      rw [hWord]
      exact Option.some.inj hRead
  · next hWord =>
      rw [hWord]
      exact Option.some.inj hRead
  · cases hRead

/- A new frame has no frame below it. -/
theorem holds_newFrame
    {ppn n : Nat}
    {isPte : Bool}
    (hHolds : PTFrame.Holds
      (.mk ppn (fun _ => PTEntry.fresh isPte)) n) :
    n = ppn := by
  cases hHolds with
  | here => rfl
  | inside o hChild _ =>
      simp [PTFrame.entries, PTEntry.child, PTEntry.fresh] at hChild

/- The frames after one entry was replaced. -/
theorem holds_setEntry
    {f : PTFrame}
    {o n : Nat}
    {e : PTEntry PTFrame}
    (hHolds : (f.setEntry o e).Holds n) :
    f.Holds n ∨ ∃ child, e.child = some child ∧ child.Holds n := by
  cases hHolds with
  | here => exact Or.inl (PTFrame.Holds.here f)
  | @inside _ child _ o' hChild hBelow =>
      rw [PTFrame.entries_setEntry] at hChild
      by_cases hSame : o' = o
      · subst hSame
        rw [Function.update_self] at hChild
        exact Or.inr ⟨child, hChild, hBelow⟩
      · rw [Function.update_of_ne hSame] at hChild
        exact Or.inl (PTFrame.Holds.inside o' hChild hBelow)

/- The frame in which an update continues. -/
theorem enter_holds
    {level : Nat}
    {frame : Option PTFrame}
    {frames rest : List Nat}
    {current : PTFrame}
    (hEnter : enter level frame frames = some (current, rest)) :
    ∃ used, frames = used ++ rest ∧
      ∀ n, current.Holds n →
        (∃ f ∈ frame, f.Holds n) ∨ n ∈ used := by
  cases frame with
  | some f =>
      simp only [enter, Option.some.injEq, Prod.mk.injEq] at hEnter
      rw [← hEnter.1, ← hEnter.2]
      exact ⟨[], rfl, fun n hHolds => Or.inl ⟨f, rfl, hHolds⟩⟩
  | none =>
      cases frames with
      | nil => cases hEnter
      | cons ppn frames =>
          simp only [enter, Option.some.injEq,
            Prod.mk.injEq] at hEnter
          rw [← hEnter.1, ← hEnter.2]
          refine ⟨[ppn], rfl, fun n hHolds => Or.inr ?_⟩
          rw [holds_newFrame hHolds]
          exact List.mem_singleton_self ppn

/-
  An update takes frames from the front of its list. All
  frames afterwards were there before or are among these.
-/
theorem update_holds
    {levels address ppn : Nat}
    {pageSize : PageSize}
    (level : Nat)
    {frame frame' : Option PTFrame}
    {frames rest : List Nat}
    (hUpdate :
      update levels address ppn pageSize level frame frames =
        some (frame', rest)) :
    ∃ used, frames = used ++ rest ∧
      ∀ f' ∈ frame', ∀ n, f'.Holds n →
        (∃ f ∈ frame, f.Holds n) ∨ n ∈ used := by
  induction level generalizing frame frame' frames rest with
  | zero =>
      simp only [update, Option.some.injEq,
        Prod.mk.injEq] at hUpdate
      rw [← hUpdate.1, ← hUpdate.2]
      exact ⟨[], rfl, fun f hMem n hHolds =>
        Or.inl ⟨f, hMem, hHolds⟩⟩
  | succ level ih =>
      rw [update] at hUpdate
      split at hUpdate
      · next o current frames' hOffset hEnter =>
          rcases enter_holds hEnter with
            ⟨taken, hTaken, hCurrent⟩
          simp only at hUpdate
          split_ifs at hUpdate with hLeaf
          · simp only [Option.some.injEq, Prod.mk.injEq] at hUpdate
            rw [← hUpdate.1, ← hUpdate.2]
            refine ⟨taken, hTaken, fun f' hMem n hHolds => ?_⟩
            rw [← Option.some.inj hMem] at hHolds
            rcases holds_setEntry hHolds with
              hOld | ⟨child, hChild, hBelow⟩
            · exact hCurrent n hOld
            · rw [child_writeTranslation] at hChild
              exact hCurrent n
                (PTFrame.Holds.inside o hChild hBelow)
          · split at hUpdate
            · cases hUpdate
            · next next hRead =>
                split at hUpdate
                · cases hUpdate
                · next next' frames'' hInner =>
                    simp only [Option.some.injEq,
                      Prod.mk.injEq] at hUpdate
                    rw [← hUpdate.1, ← hUpdate.2]
                    rcases ih hInner with
                      ⟨used, hUsed, hBelow⟩
                    have hPointer := child_of_readNext hRead
                    -- what is below the entry is below the frame
                    have hEntry : ∀ f n, next = some f →
                        f.Holds n → current.Holds n := by
                      intro f n hNext hHolds
                      exact PTFrame.Holds.inside o
                        (hPointer.trans hNext) hHolds
                    refine ⟨taken ++ used, ?_, ?_⟩
                    · rw [hTaken, hUsed, List.append_assoc]
                    · intro f' hMem n hHolds
                      rw [← Option.some.inj hMem] at hHolds
                      have hAll : current.Holds n ∨ n ∈ used := by
                        rcases holds_setEntry hHolds with
                          hOld | ⟨child, hChild, hDown⟩
                        · exact Or.inl hOld
                        · cases hNew : next' with
                          | none =>
                              rw [hNew, PTEntry.link] at hChild
                              exact Or.inl
                                (PTFrame.Holds.inside o hChild
                                  hDown)
                          | some g =>
                              rw [hNew] at hChild hBelow
                              have hSame : g = child :=
                                Option.some.inj hChild
                              rw [← hSame] at hDown
                              rcases hBelow g rfl n hDown with
                                ⟨f, hNext, hHolds⟩ | hUsedHere
                              · exact Or.inl (hEntry f n hNext
                                  hHolds)
                              · exact Or.inr hUsedHere
                      rcases hAll with hOld | hNew
                      · rcases hCurrent n hOld with
                          hBefore | hHere
                        · exact Or.inl hBefore
                        · exact Or.inr
                            (List.mem_append_left _ hHere)
                      · exact Or.inr (List.mem_append_right _ hNew)
      · cases hUpdate

/- The frames that an update of the table takes. -/
theorem updatePageTableFrames_holds
    {t t' : PageTableRadix}
    {address ppn used : Nat}
    {pageSize : PageSize}
    {frames : List Nat}
    (hUpdate : updatePageTableFrames t address ppn pageSize
      frames = some (used, t')) :
    used ≤ frames.length ∧
      ∀ n, t'.root.Holds n →
        t.root.Holds n ∨ n ∈ frames.take used := by
  unfold updatePageTableFrames at hUpdate
  split at hUpdate
  · next root rest hLoop =>
      simp only [Option.some.injEq, Prod.mk.injEq] at hUpdate
      rcases update_holds t.levels hLoop with
        ⟨taken, hTaken, hHolds⟩
      have hUsed : used = taken.length := by
        rw [← hUpdate.1, hTaken, List.length_append]
        omega
      refine ⟨?_, fun n hIn => ?_⟩
      · rw [hUsed, hTaken, List.length_append]
        omega
      · rw [← hUpdate.2] at hIn
        rw [hUsed, hTaken, List.take_left]
        rcases hHolds root rfl n hIn with
          ⟨f, hRoot, hOld⟩ | hNew
        · rw [Option.some.inj hRoot]
          exact Or.inl hOld
        · exact Or.inr hNew
  · cases hUpdate

/- No operation removes a mapping. -/
def Grows (past : List Op) : Prop :=
  ∀ address, Op.delete address ∉ past

/- A 2MB page maps all pages of its region for good. -/
theorem isSome_of_mapsLargeIn
    {past : List Op}
    (hGrows : Grows past)
    {op : Op}
    (hMem : op ∈ past)
    {page : Nat}
    (hLarge : op.mapsLargeIn (page / 512) = true) :
    (mappingOf past page).isSome := by
  induction past with
  | nil => cases hMem
  | cons first past ih =>
      cases first with
      | delete address =>
          exact absurd List.mem_cons_self (hGrows address)
      | update address ppn pageSize frames =>
          simp only [mappingOf, Mapping.map]
          split_ifs with hHere
          · rfl
          · apply ih (fun a hIn => hGrows a
              (List.mem_cons_of_mem _ hIn))
            rcases List.mem_cons.mp hMem with hFirst | hRest
            · rw [hFirst] at hLarge
              cases pageSize with
              | fourKb => cases hLarge
              | twoMb =>
                  simp only [Op.mapsLargeIn, beq_iff_eq] at hLarge
                  exact absurd hLarge.symm hHere
            · exact hRest

theorem mapsLargeIn_of_unmapped
    {past : List Op}
    (hGrows : Grows past)
    {page : Nat}
    (hNone : mappingOf past page = none) :
    ∀ op ∈ past, op.mapsLargeIn (page / 512) = false := by
  intro op hMem
  by_contra hLarge
  rw [Bool.not_eq_false] at hLarge
  have hSome := isSome_of_mapsLargeIn hGrows hMem hLarge
  rw [hNone] at hSome
  cases hSome

end Radix

end Virtuoso
