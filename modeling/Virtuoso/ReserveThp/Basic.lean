import Mathlib.Algebra.Order.Field.Rat
import Virtuoso.Buddy.Basic
import Virtuoso.Lib.Assoc

/-
  The reservation-based allocator of `reserve_thp.h`.

  A user page is placed at its offset in a 2MB block that is
  reserved for its 2MB region, the region is promoted once
  enough of its pages are used, and the buddy allocator
  serves everything else. When the buddy allocator is
  exhausted the least used region is demoted.

  The map `two_mb_map` is an association list. Its order is
  never observed: `std::sort` leaves the order of equally
  used regions open, and `pick` selects one of them. The log,
  the counters in `stats` and the core are left out, and so
  is the flag of an instruction allocation, which the source
  ignores. A failed assertion is an outcome of `none`.

  Key definitions include:
    * `ReserveThp`
    * `ReserveThp.givePageFast`
-/

namespace Virtuoso

/- An entry of `two_mb_map`. -/
structure Region where
  regionBegin : Nat
  bitset : Nat → Bool
  promoted : Bool

namespace Region

/- The number of used pages. -/
def count (r : Region) : Nat :=
  (List.range 512).countP r.bitset

/- The frames of the region. -/
def span (r : Region) : Span :=
  ⟨r.regionBegin, r.regionBegin + 511⟩

/-
  The blocks that a demotion of the region frees, as the
  arguments of `free`: the end of a freed block is the page
  after the unused page.
-/
def putBack (r : Region) : List Span :=
  ((List.range 512).filter (fun j => !r.bitset j)).map
    (fun j => ⟨r.regionBegin + j, r.regionBegin + (j + 1)⟩)

end Region

/- The regions of 2MB, by their number. -/
abbrev TwoMbMap :=
  List (Nat × Region)

/- `two_mb_map.erase(key)`. -/
def TwoMbMap.erase (m : TwoMbMap) (key : Nat) : TwoMbMap :=
  m.filter (fun e => e.1 != key)

theorem TwoMbMap.lookup_erase
    (m : TwoMbMap)
    (key key' : Nat) :
    (m.erase key).lookup key' =
      if key' = key then none else m.lookup key' :=
  Assoc.lookup_erase m key key'

/- The map after one of its regions was used. -/
theorem TwoMbMap.lookup_cons_erase
    (m : TwoMbMap)
    (key : Nat)
    (region : Region)
    (key' : Nat) :
    List.lookup key' ((key, region) :: m.erase key) =
      if key' = key then some region else m.lookup key' :=
  Assoc.lookup_insert m key region key'

/- The allocator, with the regions it reserves. -/
structure ReserveThp where
  buddy : Buddy
  twoMbMap : TwoMbMap
  thresholdForPromotion : ℚ

/-
  The result of an allocation. `frame` is `none` where the
  source returns `-1`, and `demoted` records the region that
  was demoted on the way.
-/
structure Placement where
  frame : Option Nat
  pageSize : Nat
  demoted : Option Region

namespace ReserveThp

/- No region is reserved. -/
def construct
    (memorySize maxOrder kernelSize : Nat)
    (thresholdForPromotion : ℚ) :
    Option ReserveThp :=
  (Buddy.construct memorySize maxOrder kernelSize).map
    (fun buddy => ⟨buddy, [], thresholdForPromotion⟩)

/- The regions that are not promoted. -/
def unpromoted (m : TwoMbMap) : TwoMbMap :=
  m.filter (fun e => !e.2.promoted)

/- The regions that may be first after sorting. -/
def leastUsed (m : TwoMbMap) : TwoMbMap :=
  (unpromoted m).filter (fun e =>
    (unpromoted m).all (fun e' =>
      decide (e.2.count ≤ e'.2.count)))

/- The region at the front of the sorted vector. -/
def utilizationFront
    (m : TwoMbMap)
    (pick : Nat) :
    Option (Nat × Region) :=
  (leastUsed m)[pick % (leastUsed m).length]?

/- Free every block of a list. -/
def freeAll (b : Buddy) (blocks : List Span) : Buddy :=
  blocks.foldl (fun b s => b.free s.start s.stop) b

/- `demote_page`, with the region that it demotes. -/
def demotePage
    (s : ReserveThp)
    (pick : Nat) :
    Option (Region × ReserveThp) :=
  match utilizationFront s.twoMbMap pick with
  | none => none
  | some (region2MB, region) =>
      some (region,
        { s with
          buddy := freeAll s.buddy region.putBack
          twoMbMap := TwoMbMap.erase s.twoMbMap region2MB })

/-
  The second half of `checkFor2MBAllocation`: mark the page
  in its region and promote the region above the threshold.
  A request to a promoted region fails an assertion.
-/
def markPage
    (s : ReserveThp)
    (region2MB : Nat)
    (region : Region)
    (offset : Nat) :
    Option ((Nat × Bool) × ReserveThp) :=
  if region.promoted then
    none
  else
    let marked :=
      { region with
        bitset := Function.update region.bitset offset true }
    let rest := TwoMbMap.erase s.twoMbMap region2MB
    if (marked.count : ℚ) / 512 > s.thresholdForPromotion
    then
      some ((region.regionBegin, true),
        { s with
          twoMbMap :=
            (region2MB, { marked with promoted := true }) :: rest })
    else
      some ((region.regionBegin + offset, false),
        { s with twoMbMap := (region2MB, marked) :: rest })

/- A region with a fresh 2MB block. -/
def reserved
    (s : ReserveThp)
    (buddy : Buddy)
    (region2MB : Nat)
    (block : Span) : ReserveThp :=
  { s with
    buddy := buddy
    twoMbMap :=
      (region2MB, ⟨block.start, fun _ => false, false⟩) ::
        s.twoMbMap }

/-
  `checkFor2MBAllocation`: the frame and whether the region
  was promoted, or nothing when no 2MB block is left.
-/
def checkFor2MBAllocation
    (s : ReserveThp)
    (address : Nat) :
    Option (Option (Nat × Bool) × ReserveThp) :=
  let region2MB := address / 2 ^ 21
  let offset := address / 2 ^ 12 % 512
  match s.twoMbMap.lookup region2MB with
  | some region =>
      (markPage s region2MB region offset).map
        (fun r => (some r.1, r.2))
  | none =>
      match s.buddy.reserve2mbPage with
      | none => none
      | some (none, b) => some (none, { s with buddy := b })
      | some (some block, b) =>
          (markPage (reserved s b region2MB block) region2MB
            ⟨block.start, fun _ => false, false⟩ offset).map
              (fun r => (some r.1, r.2))

/- An allocation that goes to the buddy allocator. -/
def fromBuddy
    (s : ReserveThp)
    (bytes : Nat) :
    Option (Option Nat × ReserveThp) :=
  (s.buddy.allocate bytes).map
    (fun r => (r.1, { s with buddy := r.2 }))

/- `ReservationTHPAllocator::allocate`. -/
def allocate
    (s : ReserveThp)
    (bytes address : Nat)
    (isPagetableAllocation : Bool)
    (pick : Nat) :
    Option (Placement × ReserveThp) :=
  if isPagetableAllocation then
    (fromBuddy s bytes).map (fun r => (⟨r.1, 12, none⟩, r.2))
  else
    match checkFor2MBAllocation s address with
    | none => none
    | some (some (frame, promoted), s') =>
        some (⟨some frame, if promoted then 21 else 12, none⟩, s')
    | some (none, s') =>
        match fromBuddy s' bytes with
        | none => none
        | some (some frame, s'') =>
            some (⟨some frame, 12, none⟩, s'')
        | some (none, s'') =>
            match demotePage s'' pick with
            | none => none
            | some (region, s''') =>
                (fromBuddy s''' bytes).map
                  (fun r => (⟨r.1, 12, some region⟩, r.2))

/- `ReservationTHPAllocator::givePageFast`. -/
def givePageFast
    (s : ReserveThp)
    (bytes : Nat) :
    Option (Option Nat × ReserveThp) :=
  fromBuddy s bytes

end ReserveThp

end Virtuoso
