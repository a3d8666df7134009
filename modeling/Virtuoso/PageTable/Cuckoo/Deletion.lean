import Virtuoso.PageTable.Cuckoo.Runs
import Virtuoso.PageTable.PageMap

/-
  Deletions from the elastic cuckoo page table.

  A deletion clears the translation in the first way that has
  the tag. A page that was mapped twice has another way with
  a copy, which the deletion leaves.

  Main declarations:
    * `Cuckoo.operate`
    * `Cuckoo.probe_deletePage`
-/

namespace Virtuoso

namespace Cuckoo

variable {c : Config} {n : Nest}

/- One call; a walk does not change the tables. -/
def operate
    (c : Config)
    (fuel : Nat)
    (t : PageTableCuckoo) :
    PageMap.Op → Option PageTableCuckoo
| .update address ppn pageSize =>
    updatePageTableFrames c fuel t address ppn pageSize
| .delete address => some (deletePage c t address)

/- An update of a page that is not held keeps the tables. -/
theorem update_placed
    {fuel : Nat}
    {t t' : PageTableCuckoo}
    {m : Mapped}
    (hResident : t.nonResidentEntries = [])
    (hPlaced : ∀ pageSize, Placed c (t.nests pageSize))
    (hFresh : ∀ ppn, ¬ Translates t m.address m.pageSize ppn)
    (hUpdate :
      updatePageTableFrames c fuel t m.address m.ppn
        m.pageSize = some t') :
    t'.nonResidentEntries = [] ∧
      ∀ pageSize, Placed c (t'.nests pageSize) := by
  have hAll : ∀ nest, Placed c nest → ∀ pageSize,
      Placed c (Function.update t.nests m.pageSize nest
        pageSize) := by
    intro nest hNest pageSize
    by_cases hSize : pageSize = m.pageSize
    · rw [hSize, Function.update_self]
      exact hNest
    · rw [Function.update_of_ne hSize]
      exact hPlaced pageSize
  rcases update_cases hResident (hPlaced _) hFresh hUpdate with
    ⟨n₁, -, hGrow, -, ⟨n₂, -, hPlaced₂, -, hState⟩ |
      ⟨n₂, old, r, -, hPlaced₂, hOld, -, hLoop, hState⟩⟩
  · rw [hState]
    exact ⟨rfl, hAll n₂ hPlaced₂⟩
  · rcases rehashUntil_waiting fuel hPlaced₂ hOld hGrow
        hLoop with ⟨hNil, hPlaced₃, -⟩
    rw [hState]
    exact ⟨hNil, hAll r.1 hPlaced₃⟩

/- The first way with a tag has it in the slot of the tag. -/
theorem findTag_eq_some
    {tag way : Nat}
    (hFind : findTag c n tag = some way) :
    (n.table way (position c n tag way)).tag = some tag := by
  have hHit := List.find?_some hFind
  simpa using hHit

/- What a probe finds in an element. -/
def Element.found (e : Element) (vpn : Nat) : Option Nat :=
  if e.tag = some (vpn / 8) ∧
      e.validityBits (blockIndex vpn) = true then
    some (e.frames (blockIndex vpn))
  else
    none

/- A cleared element of a block has its other pages. -/
theorem found_clear
    {e : Element}
    {vpn : Nat}
    (hTag : e.tag = some (vpn / 8))
    (other : Nat) :
    (e.clear (blockIndex vpn)).found other =
      if other = vpn then none else e.found other := by
  by_cases hSame : other = vpn
  · subst hSame
    simp [Element.found, Element.clear]
  · rw [if_neg hSame]
    by_cases hBlock : other / 8 = vpn / 8
    · have hIndex : blockIndex other ≠ blockIndex vpn := by
        simp only [blockIndex, ne_eq, Fin.mk.injEq]
        omega
      cases hBit : e.validityBits (blockIndex other) with
      | false =>
          simp [Element.found, Element.clear,
            Function.update_of_ne hIndex, hBit]
      | true =>
          have hKept : ¬ ∀ j, Function.update e.validityBits
              (blockIndex vpn) false j = false := by
            intro hAll
            have hBit' := hAll (blockIndex other)
            rw [Function.update_of_ne hIndex, hBit] at hBit'
            cases hBit'
          simp [Element.found, Element.clear, hKept,
            Function.update_of_ne hIndex]
    · have hBefore : e.found other = none := by
        simp [Element.found, hTag, Ne.symm hBlock]
      rw [hBefore, Element.found, if_neg]
      rintro ⟨hTag', -⟩
      unfold Element.clear at hTag'
      simp only at hTag'
      split at hTag'
      · cases hTag'
      · rw [hTag, Option.some.injEq] at hTag'
        exact hBlock hTag'.symm

theorem snd_probe
    (t : PageTableCuckoo)
    (address : Nat)
    (pageSize : PageSize)
    (way : Nat) :
    (probe c t address pageSize way).2 =
      (((t.nests pageSize).table way
        (position c (t.nests pageSize)
          (pageSize.vpn address / 8) way)).found
            (pageSize.vpn address)).map
              (fun ppn => (ppn, pageSize)) := by
  unfold Element.found PageSize.vpn
  simp only [probe, Bool.and_eq_true, decide_eq_true_eq]
  split
  · rfl
  · rfl

/-
  After a deletion a probe misses the page in the first way
  of its tag, and finds everything else as before.
-/
theorem probe_deletePage
    (t : PageTableCuckoo)
    (address other way : Nat) :
    (probe c (deletePage c t address) other .fourKb way).2 =
      if findTag c (t.nests .fourKb)
            (PageSize.fourKb.vpn address / 8) = some way ∧
          PageSize.fourKb.vpn other =
            PageSize.fourKb.vpn address then
        none
      else
        (probe c t other .fourKb way).2 := by
  have hNest : (deletePage c t address).nests .fourKb =
      deleteFrom c (t.nests .fourKb)
        (PageSize.fourKb.vpn address) := by
    simp [deletePage, PageSize.vpn]
  rw [snd_probe, snd_probe, hNest]
  cases hFind : findTag c (t.nests .fourKb)
      (PageSize.fourKb.vpn address / 8) with
  | none => simp [deleteFrom, hFind]
  | some first =>
      have hTag := findTag_eq_some hFind
      set n := t.nests .fourKb
      set vpn := PageSize.fourKb.vpn address
      set pos := position c n (vpn / 8) first with hPos
      have hSet : deleteFrom c n vpn = n.set first pos
          ((n.table first pos).clear (blockIndex vpn)) := by
        simp [deleteFrom, hFind, hPos]
      rw [hSet]
      change (((n.set first pos _).table way
        (position c n _ way)).found _).map _ = _
      by_cases hSlot : way = first ∧
          position c n (PageSize.fourKb.vpn other / 8) way = pos
      · rw [hSlot.2, hSlot.1, table_set_self, found_clear hTag]
        by_cases hSame : PageSize.fourKb.vpn other = vpn
        · simp [hSame]
        · simp [hSame]
      · rw [table_set_of_ne _ hSlot, if_neg]
        rintro ⟨hWay, hSame⟩
        have hFirst := Option.some.inj hWay
        apply hSlot
        rw [hSame, hPos, hFirst]
        exact ⟨rfl, rfl⟩

/- A page is in a way that its deletion does not clear. -/
def Doubled
    (c : Config)
    (t : PageTableCuckoo)
    (address : Nat) : Prop :=
  ∃ way ∈ List.range c.ways,
    findTag c (t.nests .fourKb)
        (PageSize.fourKb.vpn address / 8) ≠ some way ∧
      (probe c t address .fourKb way).2 ≠ none

instance
    (t : PageTableCuckoo)
    (address : Nat) :
    Decidable (Doubled c t address) :=
  inferInstanceAs (Decidable (∃ way ∈ List.range c.ways, _))

end Cuckoo

end Virtuoso
