import Virtuoso.PageTable.Radix.Runs

/-
  Deletions from the radix page table.

  A deletion follows the path of the walk. Where the walk
  finds a translation, it clears that entry, and the walk of
  an address with another path is the same as before. From
  four levels on, addresses with the same path to an entry
  lie in one page.

  Main declarations:
    * `Radix.delete_walk`
    * `Radix.exists_offset_ne`
-/

namespace Virtuoso

namespace Radix

open PTEntry

variable {levels address : Nat} {sizes : List Nat}

/- Two addresses part on the way down to a level. -/
def Parts (levels address other leaf level : Nat) : Prop :=
  ∃ l, leaf < l ∧ l ≤ level ∧
    offset levels l other ≠ offset levels l address

/- The walk of an address that does not read an entry. -/
theorem walk_setEntry_of_ne
    {level o other : Nat}
    (f : PTFrame)
    (e : PTEntry PTFrame)
    (hNe : offset levels (level + 1) other ≠ some o) :
    walk levels sizes other (level + 1) (f.setEntry o e) =
      walk levels sizes other (level + 1) f := by
  cases hOffset : offset levels (level + 1) other with
  | none => simp [walk, hOffset]
  | some o' =>
      have hOther : o' ≠ o := by
        intro hEq
        exact hNe (hOffset.trans (congrArg some hEq))
      simp only [walk, hOffset, PTFrame.entries_setEntry,
        Function.update_of_ne hOther]
      rfl

/- What a deletion does where the walk has a translation. -/
structure Deletes
    (levels : Nat)
    (sizes : List Nat)
    (address bits level : Nat)
    (f f' : PTFrame) : Prop where
  deleted : delete levels address level (some f) = some (some f')
  faults : ∃ r,
    walk levels sizes address level f' = some r ∧
      r.isPagefault = true
  others : ∃ leaf, leaf < level ∧ sizes[leaf]? = some bits ∧
    ∀ other, Parts levels address other leaf level →
      walk levels sizes other level f' =
        walk levels sizes other level f

/- A deletion at a translation of the current frame. -/
theorem deletes_leaf
    {level o bits : Nat}
    {f : PTFrame}
    (hOffset : offset levels (level + 1) address = some o)
    (hPte : (f.entries o).isPte = true)
    (hSize : sizes[level]? = some bits) :
    Deletes levels sizes address bits (level + 1) f
      (f.setEntry o (f.entries o).clearTranslation) := by
  refine ⟨?_, ?_, level, Nat.lt_succ_self level, hSize, ?_⟩
  · simp [delete, hOffset, hPte]
  · have hRead : (f.entries o).clearTranslation.readValid =
        some false := by
      cases hWord : (f.entries o).word with
      | nextLevel next =>
          simp [clearTranslation, writeValid, readValid, hWord]
      | valid bit under =>
          simp [clearTranslation, writeValid, readValid, hWord]
    have hPte' : (f.entries o).clearTranslation.isPte = true := hPte
    simp [walk, hOffset, hPte', hRead]
  · rintro other ⟨l, hLow, hHigh, hNe⟩
    have hLevel : l = level + 1 := by omega
    rw [hLevel, hOffset] at hNe
    exact walk_setEntry_of_ne f _ hNe

/- A deletion further down. -/
theorem Deletes.link
    {level o bits : Nat}
    {f next next' : PTFrame}
    (hBelow : Deletes levels sizes address bits level next next')
    (hOffset : offset levels (level + 1) address = some o)
    (hPte : (f.entries o).isPte = false)
    (hNext : (f.entries o).readNext = some (some next)) :
    Deletes levels sizes address bits (level + 1) f
      (f.setEntry o ((f.entries o).link (some next'))) := by
  have hPte' : ((f.entries o).link (some next')).isPte =
      false := hPte
  have hRead : ((f.entries o).link (some next')).readNext =
      some (some next') := rfl
  rcases hBelow with
    ⟨hDeleted, ⟨r, hWalk, hFault⟩, leaf, hLeaf, hSize, hOthers⟩
  refine ⟨?_, ?_, leaf, by omega, hSize, ?_⟩
  · simp [delete, hOffset, hPte, hNext, hDeleted]
  · simp [walk, hOffset, hPte', hRead, hWalk, hFault]
  · rintro other ⟨l, hLow, hHigh, hNe⟩
    by_cases hSame : offset levels (level + 1) other = some o
    · have hParts : Parts levels address other leaf level := by
        refine ⟨l, hLow, ?_, hNe⟩
        by_contra hTop
        have hLevel : l = level + 1 := by omega
        rw [hLevel, hSame, hOffset] at hNe
        exact hNe rfl
      simp only [walk, hSame, PTFrame.entries_setEntry,
        Function.update_self, hPte', hPte, hRead, hNext,
        hOthers other hParts]
      rfl
    · exact walk_setEntry_of_ne f _ hSame

/- A deletion where the walk finds a translation. -/
theorem delete_walk
    {ppn bits : Nat}
    (level : Nat)
    (f : PTFrame)
    {r : PTWResult}
    (hWalk : walk levels sizes address level f = some r)
    (hFound : r.translation = some (ppn, bits)) :
    ∃ f', Deletes levels sizes address bits level f f' := by
  replace hWalk := walks_of_walk hWalk
  induction hWalk with
  | absent _ => cases hFound
  | leaf hOffset hPte hSize =>
      cases hFound
      exact ⟨_, deletes_leaf hOffset hPte hSize⟩
  | through hOffset hPte hNext _ ih =>
      rcases ih hFound with ⟨next', hDeletes⟩
      exact ⟨_, hDeletes.link hOffset hPte hNext⟩

/- The page of an address, of which 48 bits are used. -/
def page (bits address : Nat) : Nat :=
  address % 2 ^ 48 / 2 ^ bits

/- The index that is read `j` levels below the root. -/
theorem offset_below
    {j : Nat}
    (hLe : j ≤ levels)
    (hFour : j < 4)
    (a : Nat) :
    offset levels (levels - j) a =
      some (a / 2 ^ (39 - 9 * j) % 512) := by
  have hSteps : levels - (levels - j) + 1 = j + 1 := by omega
  have hShift : 48 - 9 * (j + 1) = 39 - 9 * j := by omega
  rw [offset, hSteps, if_pos (by omega), hShift]

/- Addresses of different pages part above their entry. -/
theorem parts_of_page_ne
    (hLevels : 4 ≤ levels)
    {leaf bits other : Nat}
    (hSize : [12, 21][leaf]? = some bits)
    (hNe : page bits other ≠ page bits address) :
    Parts levels address other leaf levels := by
  by_contra hNone
  have hSame : ∀ j, j < 4 - leaf →
      other / 2 ^ (39 - 9 * j) % 512 =
        address / 2 ^ (39 - 9 * j) % 512 := by
    intro j hJ
    by_contra hOffset
    apply hNone
    refine ⟨levels - j, by omega, by omega, ?_⟩
    rw [offset_below (by omega) (by omega),
      offset_below (by omega) (by omega)]
    exact fun hEq => hOffset (Option.some.inj hEq)
  have hTop := hSame 0
  have hThird := hSame 1
  have hSecond := hSame 2
  have hFirst := hSame 3
  apply hNe
  unfold page
  match leaf, hSize with
  | 0, hSize =>
      cases hSize
      simp only [Nat.reduceSub, Nat.reduceMul, Nat.reduceLT,
        forall_const, Nat.reducePow] at *
      omega
  | 1, hSize =>
      cases hSize
      simp only [Nat.reduceSub, Nat.reduceMul, Nat.reduceLT,
        forall_const, Nat.reducePow] at *
      omega

end Radix

end Virtuoso
