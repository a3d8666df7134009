import Virtuoso.Buddy.Basic

/-
  The range allocation of `eager_paging.h`.

  A VMA is backed by ranges of consecutive pages, each the
  largest power of two that fits what remains and that the
  buddy allocator has. Page numbers are natural numbers; the
  log and the statistics are left out.

  Key definitions include:
    * `EagerPaging.Range`
    * `EagerPaging.allocateRanges`
-/

namespace Virtuoso

namespace EagerPaging

/-
  `Range`, of `bounds` pages from `vpn` on, backed by the
  frames from `offset` on.
-/
structure Range where
  vpn : Nat
  bounds : Nat
  offset : Nat
deriving DecidableEq

/- The pages of a range. -/
def Range.pages (range : Range) : Span :=
  ⟨range.vpn, range.vpn + range.bounds - 1⟩

/- The frames of a range. -/
def Range.frames (range : Range) : Span :=
  ⟨range.offset, range.offset + range.bounds - 1⟩

/-
  The inner loop: ask for a block of `order`, and for smaller
  ones while there is none. The outcome has the order of the
  block and its first page.
-/
def tryOrders
    (b : Buddy) :
    Nat → Option (Option (Nat × Nat) × Buddy)
| 0 =>
    match b.allocate (2 ^ 0 * 4096) with
    | none => none
    | some (none, b') => some (none, b')
    | some (some ppn, b') => some (some (0, ppn), b')
| order + 1 =>
    match b.allocate (2 ^ (order + 1) * 4096) with
    | none => none
    | some (none, b') => tryOrders b' order
    | some (some ppn, b') => some (some (order + 1, ppn), b')

/-
  The outer loop, from `currentVpn` on. `fuel` bounds the
  iterations, and no outcome means that they do not suffice
  or that the behaviour is undefined.
-/
def allocateFrom :
    Nat → Nat → Nat → Buddy → Option (List Range × Buddy)
| 0, _, remaining, b =>
    if remaining = 0 then some ([], b) else none
| fuel + 1, currentVpn, remaining, b =>
    if remaining = 0 then
      some ([], b)
    else
      match tryOrders b
          (min (Nat.log 2 remaining) b.maxOrder) with
      | none => none
      | some (none, b') => some ([], b')
      | some (some (order, ppn), b') =>
          match allocateFrom fuel (currentVpn + 2 ^ order)
              (remaining - 2 ^ order) b' with
          | none => none
          | some (ranges, b'') =>
              some (⟨currentVpn, 2 ^ order, ppn⟩ :: ranges, b'')

/-
  `EagerPagingAllocator::allocate_ranges`, on fewer than
  `2 ^ 31` pages. Every iteration backs a page.
-/
def allocateRanges
    (b : Buddy)
    (startVa endVa : Nat) :
    Option (List Range × Buddy) :=
  let remaining := (endVa - startVa) / 4096
  allocateFrom remaining (startVa / 4096) remaining b

end EagerPaging

end Virtuoso
