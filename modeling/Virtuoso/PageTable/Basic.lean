import Mathlib.Algebra.Group.Nat.Defs
import Mathlib.Logic.Function.Basic

/-
  What the page tables have in common: page sizes, the result
  of a walk, and the abstract mapping a page table stands for.

  Key definitions include:
    * `PageSize`
    * `Mapping`
-/

namespace Virtuoso

/- The page sizes of the configurations. -/
inductive PageSize
  | fourKb
  | twoMb
deriving DecidableEq, Repr

instance
    {P : PageSize → Prop}
    [DecidablePred P] :
    Decidable (∀ pageSize, P pageSize) :=
  decidable_of_iff (P .fourKb ∧ P .twoMb)
    ⟨fun hBoth => fun
      | .fourKb => hBoth.1
      | .twoMb => hBoth.2,
      fun hAll => ⟨hAll .fourKb, hAll .twoMb⟩⟩

/- The number of bits of a page offset. -/
def PageSize.bits :
    PageSize → Nat
| .fourKb => 12
| .twoMb => 21

/- The number of 4KB pages in a page. -/
def PageSize.pages :
    PageSize → Nat
| .fourKb => 1
| .twoMb => 512

/- One access of a walk, as pushed to `visited_pts`. -/
structure PTWAccess where
  tableLevel : Nat
  depth : Nat
  physicalAddr : Nat
  isPte : Bool
deriving DecidableEq, Repr

/-
  `PTWResult`. The page number and the page size of the
  translation are present when there was no page fault; the
  source leaves them uninitialised otherwise.
-/
structure PTWResult where
  translation : Option (Nat × Nat)
  accesses : List PTWAccess
  isPagefault : Bool
  requestedFrames : Nat
deriving DecidableEq, Repr

/- The place of a page in its block is below 8. -/
theorem mod_eight_lt
    (vpn : Nat) :
    vpn % 8 < 8 :=
  Nat.mod_lt vpn (by decide)

/- `static_cast<IntPtr>(-1)`. -/
def invalidPpn : Nat :=
  2 ^ 64 - 1

/-
  `PhysicalMemoryAllocator::handle_page_table_allocations`:
  the frame, and the kernel address after the request.
-/
def handlePageTableAllocations
    (kernelStartAddress bytes : Nat) :
    Nat × Nat :=
  (kernelStartAddress / 4096, kernelStartAddress + bytes)

/- `handle_fine_grained_page_table_allocations`. -/
def handleFineGrainedPageTableAllocations
    (kernelStartAddress bytes : Nat) :
    Nat × Nat :=
  (kernelStartAddress, kernelStartAddress + bytes)

/-
  The size of a hash table is an `int`, and so are the bytes
  that are requested for it, 64 for each slot.
-/
def FitsInt (size : Nat) : Prop :=
  size * 64 < 2 ^ 31

instance (size : Nat) : Decidable (FitsInt size) :=
  inferInstanceAs (Decidable (_ < _))

/-
  The mapping a page table stands for: the page number and
  the page size in bits, at each 4KB virtual page.
-/
abbrev Mapping :=
  Nat → Option (Nat × Nat)

namespace Mapping

/- Nothing is mapped. -/
def empty : Mapping :=
  fun _ => none

/- Map the page of the given size around a 4KB page. -/
def map
    (m : Mapping)
    (size : PageSize)
    (page ppn : Nat) : Mapping :=
  fun q =>
    if q / size.pages = page / size.pages then
      some (ppn, size.bits)
    else
      m q

/- Remove the mapping that covers a 4KB page. -/
def unmap (m : Mapping) (page : Nat) : Mapping :=
  fun q =>
    match m page with
    | some (_, 21) =>
        if q / 512 = page / 512 ∧ (m q).map Prod.snd = some 21 then
          none
        else
          m q
    | _ => if q = page then none else m q

/- Unmapping a 4KB page or a page without mapping. -/
theorem unmap_of_not_large
    {m : Mapping}
    {page : Nat}
    (hSmall : ∀ ppn, m page ≠ some (ppn, 21))
    (q : Nat) :
    m.unmap page q = if q = page then none else m q := by
  unfold unmap
  split
  · rename_i ppn hLarge
    exact absurd hLarge (hSmall ppn)
  · rfl

/- Unmapping a 2MB page. -/
theorem unmap_of_large
    {m : Mapping}
    {page ppn : Nat}
    (hLarge : m page = some (ppn, 21))
    {q : Nat}
    (hRegion : q / 512 = page / 512)
    (hSame : m q = m page) :
    m.unmap page q = none := by
  unfold unmap
  rw [hLarge] at hSame
  simp [hLarge, hSame, hRegion]

end Mapping

end Virtuoso
