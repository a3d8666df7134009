import Virtuoso.RangeTable.Basic
import Virtuoso.Tlb.Hierarchy

/-
  The translation of `RangeMMU` in `mmu_range.cc`, with the
  range lookaside buffer of `rangelb.cc`.

  After a miss in the TLBs, the translation asks for a range:
  first the range lookaside buffer (RLB), then the range
  table. Without a range, it walks the page table. A walk
  that faults is repeated when the fault was handled.

  Words are kept as words: addresses and frames have 64 bits,
  and the offset that a range walk returns has 32. The range
  that a miss in the RLB returns is never written before it
  is read, so its content is an input of the translation. So
  are the random numbers, the walks and the range tables that
  the handler of the faults leaves behind.

  The TLBs of this MMU are looked up without a page table, so
  that no prefetcher is asked for predictions. The latencies,
  the statistics and the log are left out.

  Key definitions include:
    * `RangeMmu.Rlb`
    * `RangeMmu.performAddressTranslation`
-/

namespace Virtuoso

namespace RangeMmu

/- `Range`; `vpn` and `bounds` are addresses of bytes. -/
structure Range where
  vpn : BitVec 64
  bounds : BitVec 64
  offset : BitVec 64
deriving DecidableEq

/- The address lies in the range. -/
def Range.Contains
    (range : Range)
    (address : BitVec 64) : Prop :=
  range.vpn ≤ address ∧ address < range.bounds

instance
    (range : Range)
    (address : BitVec 64) :
    Decidable (range.Contains address) :=
  inferInstanceAs (Decidable (_ ∧ _))

/- The buffer of ranges, with the last one used. -/
structure Rlb where
  numSets : Nat
  ranges : List Range
  mru : Nat

/- `RLB::access`, with the content of the range `miss`. -/
def Rlb.access
    (rlb : Rlb)
    (address : BitVec 64)
    (miss : Range) : (Bool × Range) × Rlb :=
  match rlb.ranges.zipIdx.find? (fun e =>
      decide (e.1.Contains address)) with
  | some e => ((true, e.1), { rlb with mru := e.2 })
  | none => ((false, miss), rlb)

/-
  `RLB::insert_entry`: random numbers are drawn until one
  differs from the last hit.
-/
def Rlb.insertEntry
    (rlb : Rlb)
    (draws : List Nat)
    (range : Range) : Option Rlb :=
  if rlb.numSets = 0 then
    none
  else
    ((draws.map (fun d => d % rlb.numSets)).find?
        (fun candidate => candidate != rlb.mru)).map
      (fun candidate =>
        { rlb with
          ranges :=
            (if rlb.ranges.length = rlb.numSets then
              rlb.ranges.eraseIdx candidate
            else
              rlb.ranges) ++ [range] })

/- The outcome of a page table walk. -/
inductive PtwOutcome
  | pageFault (handled : RangeTable.RangeTableBtree)
  | mapped (ppn pageSize : Nat)

/- What a translation reads from outside of the state. -/
structure Request where
  address : BitVec 64
  instruction : Bool
  now : Nat
  miss : Range
  draws : List Nat
  walks : List PtwOutcome

/- The request as the TLBs see it. -/
def Request.toTlbs (r : Request) : Mmu.Request where
  address := r.address
  instruction := r.instruction
  now := r.now
  picks := fun _ _ _ => 0
  outputs := fun _ _ => []
  walk := none

/- The MMU, with the areas and the range table. -/
structure State (σ : Type) where
  prefetchEnabled : Bool
  vmas : List (BitVec 64 × BitVec 64)
  tlbs : TlbSubsystem σ
  rlb : Rlb
  rangeTable : RangeTable.RangeTableBtree

variable {σ : Type}

/- `findVMA`, which has to find one. -/
def findVMA
    (vmas : List (BitVec 64 × BitVec 64))
    (address : BitVec 64) :
    Option (BitVec 64 × BitVec 64) :=
  vmas.find? (fun v =>
    decide (v.1 ≤ address ∧ address < v.2))

/- The range of a key of the range table. -/
def rangeOf (slot : RangeTable.Slot) : Range :=
  ⟨BitVec.ofNat 64 slot.key.1, BitVec.ofNat 64 slot.key.2,
    BitVec.ofNat 64 slot.value.offset⟩

/-
  The start of a range and its offset, as `performRangeWalk`
  returns them: the offset becomes an `int`.
-/
def Range.returned
    (range : Range) : BitVec 64 × BitVec 32 :=
  (range.vpn, range.offset.setWidth 32)

/- What is returned when there is no range. -/
def noRange : BitVec 64 × BitVec 32 :=
  (BitVec.allOnes 64, BitVec.allOnes 32)

/-
  `performRangeWalk`. After a hit in the range table, the
  range of the table goes to the RLB, and the range that the
  RLB returned is read.
-/
def performRangeWalk
    (rlb : Rlb)
    (rangeTable : RangeTable.RangeTableBtree)
    (r : Request) :
    Option ((BitVec 64 × BitVec 32) × Rlb) :=
  let hitRlb := rlb.access r.address r.miss
  if hitRlb.1.1 then
    some (hitRlb.1.2.returned, hitRlb.2)
  else
    match RangeTable.lookup rangeTable r.address.toNat with
    | none => none
    | some (none, _) => some (noRange, hitRlb.2)
    | some (some (keys, i), _) =>
        match (keys.entries ++ keys.beyond)[i]? with
        | none => none
        | some slot =>
            (hitRlb.2.insertEntry r.draws
                (rangeOf slot)).map (fun rlb' =>
              (hitRlb.1.2.returned, rlb'))

/- The frame of an address in a range. -/
def rangePpn
    (address : BitVec 64)
    (walked : BitVec 64 × BitVec 32) : BitVec 64 :=
  (address >>> 12 - walked.1 / 4096) + walked.2.signExtend 64

/-
  The loop of page table walks, up to the first one that does
  not fault.
-/
def performPTWs
    (rangeTable : RangeTable.RangeTableBtree) :
    List PtwOutcome →
      Option ((Nat × Nat) × RangeTable.RangeTableBtree)
| [] => none
| .pageFault handled :: rest => performPTWs handled rest
| .mapped ppn pageSize :: _ =>
    some ((ppn, pageSize), rangeTable)

/- The frame and the page size that were found. -/
structure Resolved where
  ppn : Nat
  pageSize : Nat
  hitLevel : Option Nat
  rangeWalk : Option (BitVec 64 × BitVec 32)

/- The range walk and the page table walk after a TLB miss. -/
def resolveMiss
    (s : State σ)
    (r : Request) : Option (Resolved × State σ) :=
  (performRangeWalk s.rlb s.rangeTable r).bind (fun w =>
    if w.1.1 ≠ BitVec.allOnes 64 then
      some (⟨(rangePpn r.address w.1).toNat, 12, none,
        some w.1⟩, { s with rlb := w.2 })
    else
      (performPTWs s.rangeTable r.walks).map (fun p =>
        (⟨p.1.1, p.1.2, none, some w.1⟩,
          { s with rlb := w.2, rangeTable := p.2 })))

/- The phases before the allocation in the TLBs. -/
def resolve
    (s : State σ)
    (r : Request) : Option (Resolved × State σ) :=
  (Mmu.searchLevels r.toTlbs (List.range s.tlbs.length)
      ⟨s.tlbs, []⟩).bind (fun out =>
    let s' := { s with tlbs := out.2.tlbs }
    match out.1 with
    | some (level, block) =>
        some (⟨block.ppn, block.pageSize, some level, none⟩, s')
    | none => resolveMiss s' r)

/-
  The allocation in the TLBs, which leaves the last level out
  when prefetching is enabled.
-/
def allocateTlbs
    (s : State σ)
    (r : Request)
    (found : Resolved) : Option (State σ) :=
  let levels :=
    if s.prefetchEnabled then s.tlbs.length - 1
    else s.tlbs.length
  (Mmu.allocateLevels r.toTlbs
      ⟨r.address, found.pageSize, found.ppn, found.hitLevel⟩
      (List.range levels) [] ⟨s.tlbs, []⟩).map (fun out =>
    { s with tlbs := out.tlbs })

/-
  The physical address, where the page size is the number of
  its bits.
-/
def physicalAddress
    (found : Resolved)
    (address : BitVec 64) : Nat :=
  (found.ppn * 4096 + address.toNat % found.pageSize) % 2 ^ 64

/- What a translation returns, and what its walk returned. -/
structure Outcome where
  physicalAddress : Nat
  rangeWalk : Option (BitVec 64 × BitVec 32)

/- `performAddressTranslation`. -/
def performAddressTranslation
    (s : State σ)
    (r : Request) : Option (Outcome × State σ) :=
  match findVMA s.vmas r.address with
  | none => none
  | some _ =>
      (resolve s r).bind (fun found =>
        (allocateTlbs found.2 r found.1).map (fun s' =>
          (⟨physicalAddress found.1 r.address,
            found.1.rangeWalk⟩, s')))

end RangeMmu

end Virtuoso
