import Virtuoso.PhysicalMemory.Basic
import Virtuoso.ReserveThp.Basic

/-
  The allocator of `asap.h`.

  Its map of regions, the demotion and the requests to the
  buddy allocator are those of the reservation allocator, and
  are taken from there. It differs in two places: instruction
  pages come from the instruction area of the base class, and
  the frame of a page is returned with its offset also when
  the region is promoted.

  Main declarations:
    * `Asap.allocateUser_eq`
-/

namespace Virtuoso

/- The base class, and the lists and the map of `thp`. -/
structure Asap where
  memory : PhysicalMemoryAllocator
  thp : ReserveThp

namespace Asap

open ReserveThp

/- `ASAPAllocator::ASAPAllocator`. -/
def construct
    (memorySize maxOrder kernelSize : Nat)
    (thresholdForPromotion : ℚ) :
    Option Asap :=
  (ReserveThp.construct memorySize maxOrder kernelSize
    thresholdForPromotion).map
      (fun thp =>
        ⟨PhysicalMemoryAllocator.construct kernelSize, thp⟩)

/-
  The second half of `checkFor2MBAllocation`. The offset is
  added to the begin of the region in both branches.
-/
def markPage
    (s : ReserveThp)
    (region2MB : Nat)
    (region : Region)
    (offset : Nat) :
    Option ((Nat × Bool) × ReserveThp) :=
  if region.promoted then
    none
  else
    let marked :=
      { region with
        bitset := Function.update region.bitset offset true }
    let rest := TwoMbMap.erase s.twoMbMap region2MB
    if (marked.count : ℚ) / 512 > s.thresholdForPromotion
    then
      some ((region.regionBegin + offset, true),
        { s with
          twoMbMap :=
            (region2MB, { marked with promoted := true }) :: rest })
    else
      some ((region.regionBegin + offset, false),
        { s with twoMbMap := (region2MB, marked) :: rest })

/- `checkFor2MBAllocation`. -/
def checkFor2MBAllocation
    (s : ReserveThp)
    (address : Nat) :
    Option (Option (Nat × Bool) × ReserveThp) :=
  let region2MB := address / 2 ^ 21
  let offset := address / 2 ^ 12 % 512
  match s.twoMbMap.lookup region2MB with
  | some region =>
      (markPage s region2MB region offset).map
        (fun r => (some r.1, r.2))
  | none =>
      match s.buddy.reserve2mbPage with
      | none => none
      | some (none, b) => some (none, { s with buddy := b })
      | some (some block, b) =>
          (markPage (reserved s b region2MB block) region2MB
            ⟨block.start, fun _ => false, false⟩ offset).map
              (fun r => (some r.1, r.2))

/- A request that is neither for code nor for page tables. -/
def allocateUser
    (s : ReserveThp)
    (bytes address pick : Nat) :
    Option (Placement × ReserveThp) :=
  match checkFor2MBAllocation s address with
  | none => none
  | some (some (frame, promoted), s') =>
      some (⟨some frame, if promoted then 21 else 12, none⟩, s')
  | some (none, s') =>
      match fromBuddy s' bytes with
      | none => none
      | some (some frame, s'') =>
          some (⟨some frame, 12, none⟩, s'')
      | some (none, s'') =>
          match demotePage s'' pick with
          | none => none
          | some (region, s''') =>
              (fromBuddy s''' bytes).map
                (fun r => (⟨r.1, 12, some region⟩, r.2))

/- `ASAPAllocator::allocate`. -/
def allocate
    (a : Asap)
    (bytes address : Nat)
    (isPagetableAllocation isInstructionAllocation : Bool)
    (pick : Nat) :
    Option (Placement × Asap) :=
  if isInstructionAllocation then
    let r := a.memory.allocateInstruction bytes
    some (⟨r.1, 12, none⟩, { a with memory := r.2 })
  else if isPagetableAllocation then
    (fromBuddy a.thp bytes).map
      (fun r => (⟨r.1, 12, none⟩, { a with thp := r.2 }))
  else
    (allocateUser a.thp bytes address pick).map
      (fun r => (r.1, { a with thp := r.2 }))

/- `ASAPAllocator::givePageFast`. -/
def givePageFast
    (a : Asap)
    (bytes : Nat) :
    Option (Option Nat × Asap) :=
  (fromBuddy a.thp bytes).map
    (fun r => (r.1, { a with thp := r.2 }))

/- The frame that is returned in place of the region. -/
def shifted
    (offset : Nat)
    (placed : Nat × Bool) : Nat × Bool :=
  (if placed.2 then placed.1 + offset else placed.1, placed.2)

theorem markPage_eq
    (s : ReserveThp)
    (key : Nat)
    (region : Region)
    (offset : Nat) :
    markPage s key region offset =
      (ReserveThp.markPage s key region offset).map
        (fun r => (shifted offset r.1, r.2)) := by
  unfold markPage ReserveThp.markPage
  simp only
  split_ifs
  · rfl
  · rfl
  · rfl

theorem checkFor2MBAllocation_eq
    (s : ReserveThp)
    (va : Nat) :
    checkFor2MBAllocation s va =
      (ReserveThp.checkFor2MBAllocation s va).map
        (fun r =>
          (r.1.map (shifted (va / 2 ^ 12 % 512)), r.2)) := by
  unfold checkFor2MBAllocation ReserveThp.checkFor2MBAllocation
  simp only
  cases hLookup : s.twoMbMap.lookup (va / 2 ^ 21) with
  | some region =>
      simp only [markPage_eq, Option.map_map]
      rfl
  | none =>
      simp only
      cases hReserve : s.buddy.reserve2mbPage with
      | none => rfl
      | some r =>
          rcases r with ⟨block, b⟩
          cases block with
          | none => rfl
          | some block =>
              simp only [markPage_eq, Option.map_map]
              rfl

/- The frame of an answer of the reservation allocator. -/
def shiftedPlacement
    (offset : Nat)
    (placement : Placement) : Placement :=
  if placement.pageSize = 21 then
    { placement with
      frame := placement.frame.map (fun f => f + offset) }
  else
    placement

/-
  A user request has the answer of the reservation allocator,
  up to the offset in a region that is promoted.
-/
theorem allocateUser_eq
    (s : ReserveThp)
    (bytes va pick : Nat) :
    allocateUser s bytes va pick =
      (s.allocate bytes va false pick).map
        (fun r =>
          (shiftedPlacement (va / 2 ^ 12 % 512) r.1, r.2)) := by
  unfold allocateUser ReserveThp.allocate
  rw [checkFor2MBAllocation_eq]
  simp only [Bool.false_eq_true, if_false]
  cases hCheck : ReserveThp.checkFor2MBAllocation s va with
  | none => rfl
  | some r =>
      rcases r with ⟨placed, s'⟩
      cases placed with
      | some placed =>
          rcases placed with ⟨frame, promoted⟩
          cases promoted with
          | true => rfl
          | false => rfl
      | none =>
          simp only [Option.map_some, Option.map_none]
          cases hBuddy : fromBuddy s' bytes with
          | none => rfl
          | some r =>
              rcases r with ⟨frame, s''⟩
              cases frame with
              | some frame => rfl
              | none =>
                  simp only
                  cases hDemote : demotePage s'' pick with
                  | none => rfl
                  | some r =>
                      simp only [Option.map_map]
                      rfl

end Asap

end Virtuoso
