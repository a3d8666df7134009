import Virtuoso.Lib.Run
import Virtuoso.PageTable.Basic

/-
  The finite map that a hash page table stands for: a page
  number for each mapped page, by page size and virtual page
  number. The memory of such a table is the extents that it
  obtained from the allocator.

  Key definitions include:
    * `PageMap`
    * `PageMap.Answers`
-/

namespace Virtuoso

/- The frames of the pages of each size. -/
abbrev PageMap :=
  PageSize → Nat → Option Nat

/- The number of the virtual page of an address. -/
def PageSize.vpn
    (pageSize : PageSize)
    (address : Nat) : Nat :=
  address / 2 ^ pageSize.bits

namespace PageMap

/- Nothing is mapped. -/
def empty : PageMap :=
  fun _ _ => none

/- Map a virtual page, or remove its mapping. -/
def set
    (m : PageMap)
    (pageSize : PageSize)
    (vpn : Nat)
    (ppn : Option Nat) : PageMap :=
  Function.update m pageSize (Function.update (m pageSize) vpn ppn)

/-
  The page that translates an address, with its page size in
  bits. A 2MB page comes before a 4KB page.
-/
def lookup
    (m : PageMap)
    (address : Nat) :
    Option (Nat × Nat) :=
  match m .twoMb (PageSize.twoMb.vpn address) with
  | some ppn => some (ppn, PageSize.twoMb.bits)
  | none =>
      (m .fourKb (PageSize.fourKb.vpn address)).map
        (fun ppn => (ppn, PageSize.fourKb.bits))

/- An address without a mapped page is not translated. -/
theorem lookup_eq_none_iff
    {m : PageMap}
    {address : Nat} :
    m.lookup address = none ↔
      ∀ pageSize : PageSize,
        m pageSize (pageSize.vpn address) = none := by
  unfold lookup
  constructor
  · intro hNone pageSize
    cases hLarge : m .twoMb (PageSize.twoMb.vpn address) with
    | some ppn => simp [hLarge] at hNone
    | none =>
        simp only [hLarge, Option.map_eq_none_iff] at hNone
        cases pageSize with
        | fourKb => exact hNone
        | twoMb => exact hLarge
  · intro hNone
    simp [hNone .twoMb, hNone .fourKb]

/- The result of a walk for an address is what the map says. -/
structure Answers
    (m : PageMap)
    (address : Nat)
    (r : PTWResult) : Prop where
  translation : r.translation = m.lookup address
  isPagefault : r.isPagefault = true ↔
    ∀ pageSize : PageSize, m pageSize (pageSize.vpn address) = none

/- The calls that change a page table. -/
inductive Op
  | update (address ppn : Nat) (pageSize : PageSize)
  | delete (address : Nat)
deriving DecidableEq, Repr

/- What a call does to the map. -/
def apply (m : PageMap) : Op → PageMap
| .update address ppn pageSize =>
    m.set pageSize (pageSize.vpn address) (some ppn)
| .delete address =>
    m.set .fourKb (PageSize.fourKb.vpn address) none

/-
  An update is of a page that is not mapped, and a deletion
  of a 4KB page that is.
-/
def Permits (m : PageMap) : Op → Prop
| .update address _ pageSize =>
    m pageSize (pageSize.vpn address) = none
| .delete address =>
    m .fourKb (PageSize.fourKb.vpn address) ≠ none

instance (m : PageMap) : ∀ op, Decidable (m.Permits op)
| .update _ _ _ => inferInstanceAs (Decidable (_ = none))
| .delete _ => inferInstanceAs (Decidable (_ ≠ none))

end PageMap

/- A range of byte addresses from the allocator. -/
structure Extent where
  start : Nat
  bytes : Nat
deriving DecidableEq, Repr

namespace Extent

/- The address lies in the extent. -/
def Contains (r : Extent) (a : Nat) : Prop :=
  r.start ≤ a ∧ a < r.start + r.bytes

instance
    (r : Extent)
    (a : Nat) :
    Decidable (r.Contains a) :=
  inferInstanceAs (Decidable (_ ∧ _))

end Extent

/- One call of `updatePageTableFrames`. -/
structure Update where
  address : Nat
  ppn : Nat
  pageSize : PageSize
deriving DecidableEq, Repr

end Virtuoso
