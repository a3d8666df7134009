import Mathlib.Algebra.Group.Nat.Defs
import Virtuoso.Lib.LruMap

/-
  The UTLB of `utopia_tlb.cc`.

  A set holds an entry in each way and a stack of its ways,
  the latest use first, in bytes. Entries of 4KB and of 2MB
  pages share the sets. An address has the number of its page
  under a page size; the low bits of the number are the set
  and the others the tag. The statistics, the latency and the
  log are left out.

  Key definitions include:
    * `UtopiaTlb.lookup`
    * `UtopiaTlb.step`
-/

namespace Virtuoso

/- `UTLBEntry`, with whether the page size is 2MB. -/
structure UtlbEntry where
  vpnTag : Nat
  segId : Nat
  wayIdx : Nat
  pageSizeBit : Bool
  valid : Bool

namespace UtlbEntry

/- An entry without a page. -/
def empty : UtlbEntry :=
  ⟨0, 0, 0, false, false⟩

/- The size of the page, from its bit. -/
def getPageSizeBits (e : UtlbEntry) : Nat :=
  if e.pageSizeBit then 21 else 12

end UtlbEntry

/- The entries, with the order of their use. -/
structure UtlbSet where
  entry : Nat → UtlbEntry
  lruStack : List Nat

/- The UTLB with its sets. -/
structure UtopiaTlb where
  associativity : Nat
  setIndexBits : Nat
  sets : Nat → UtlbSet

/- What a call returns. -/
inductive UtlbResult where
| lookup (found : Option (Nat × Nat × Nat))
| allocate (eviction : Bool)
| invalidate (found : Bool)
| flush
deriving DecidableEq

/- A call, with an address and the bits of a page size. -/
inductive UtlbOp where
| lookup (address pageSizeBits : Nat)
| allocate (address pageSizeBits segId wayIdx : Nat)
| invalidate (address pageSizeBits : Nat)
| flush

namespace UtopiaTlb

/- The ways in order, the first of them as used last. -/
def resetStack (associativity : Nat) : List Nat :=
  (List.range associativity).map (fun way => way % 2 ^ 8)

/- `UtopiaTLB::UtopiaTLB`. -/
def construct
    (numEntries associativity : Nat) : UtopiaTlb where
  associativity := associativity
  setIndexBits := Nat.log2 (numEntries / associativity)
  sets := fun _ =>
    ⟨fun _ => UtlbEntry.empty, resetStack associativity⟩

/- The page of an address. -/
def vpn (address pageSizeBits : Nat) : Nat :=
  address / 2 ^ pageSizeBits

/- The set of a page. -/
def getSetIndex
    (t : UtopiaTlb)
    (address pageSizeBits : Nat) : Nat :=
  vpn address pageSizeBits % 2 ^ t.setIndexBits

/- The tag of a page. -/
def getVPNTag
    (t : UtopiaTlb)
    (address pageSizeBits : Nat) : Nat :=
  vpn address pageSizeBits / 2 ^ t.setIndexBits

/- The way becomes the youngest, in a byte. -/
def updateLRU (s : UtlbSet) (way : Nat) : UtlbSet :=
  { s with
    lruStack := way % 2 ^ 8 :: s.lruStack.erase (way % 2 ^ 8) }

/- The first way without an entry, or the last of the stack. -/
def getLRUVictim
    (associativity : Nat)
    (s : UtlbSet) : Option Nat :=
  match (List.range associativity).find?
      (fun way => !(s.entry way).valid) with
  | some way => some way
  | none => s.lruStack.getLast?

/- The search of all ways. -/
def findWay
    (associativity : Nat)
    (s : UtlbSet)
    (vpnTag pageSizeBits : Nat) : Option Nat :=
  (List.range associativity).find? (fun way =>
    (s.entry way).valid && (s.entry way).vpnTag == vpnTag &&
      (s.entry way).pageSizeBit == (pageSizeBits == 21))

/- The entry of a way is written. -/
def setEntry
    (s : UtlbSet)
    (way : Nat)
    (e : UtlbEntry) : UtlbSet :=
  { s with entry := Function.update s.entry way e }

/- A set has changed. -/
def setSet
    (t : UtopiaTlb)
    (index : Nat)
    (s : UtlbSet) : UtopiaTlb :=
  { t with sets := Function.update t.sets index s }

/- A hit gives the segment and the way. -/
def lookup
    (t : UtopiaTlb)
    (address pageSizeBits : Nat) :
    Option (Nat × Nat × Nat) × UtopiaTlb :=
  let index := t.getSetIndex address pageSizeBits
  let set := t.sets index
  match findWay t.associativity set
      (t.getVPNTag address pageSizeBits) pageSizeBits with
  | none => (none, t)
  | some way =>
      let e := set.entry way
      (some (e.segId, e.wayIdx, e.getPageSizeBits),
        t.setSet index (updateLRU set way))

/- The stack of a set must have a last way. -/
def allocate
    (t : UtopiaTlb)
    (address pageSizeBits segId wayIdx : Nat) :
    Option (Bool × UtopiaTlb) :=
  let index := t.getSetIndex address pageSizeBits
  let set := t.sets index
  let vpnTag := t.getVPNTag address pageSizeBits
  match findWay t.associativity set vpnTag pageSizeBits with
  | some way =>
      some (false, t.setSet index (updateLRU
        (setEntry set way
          { set.entry way with
            segId := segId, wayIdx := wayIdx }) way))
  | none =>
      (getLRUVictim t.associativity set).map (fun way =>
        ((set.entry way).valid, t.setSet index (updateLRU
          (setEntry set way ⟨vpnTag, segId, wayIdx,
            pageSizeBits == 21, true⟩) way)))

/- The entry of a page is invalid from now on. -/
def invalidate
    (t : UtopiaTlb)
    (address pageSizeBits : Nat) : Bool × UtopiaTlb :=
  let index := t.getSetIndex address pageSizeBits
  let set := t.sets index
  match findWay t.associativity set
      (t.getVPNTag address pageSizeBits) pageSizeBits with
  | none => (false, t)
  | some way =>
      (true, t.setSet index (setEntry set way
        { set.entry way with valid := false }))

/- No entry is valid, and the orders start again. -/
def flush (t : UtopiaTlb) : UtopiaTlb :=
  { t with
    sets := fun index =>
      ⟨fun way =>
          { (t.sets index).entry way with valid := false },
        resetStack t.associativity⟩ }

/- A call, with what it returns. -/
def step
    (t : UtopiaTlb) : UtlbOp → Option (UtlbResult × UtopiaTlb)
| .lookup address bits =>
    let r := t.lookup address bits
    some (.lookup r.1, r.2)
| .allocate address bits segId wayIdx =>
    (t.allocate address bits segId wayIdx).map
      (fun r => (.allocate r.1, r.2))
| .invalidate address bits =>
    let r := t.invalidate address bits
    some (.invalidate r.1, r.2)
| .flush => some (.flush, t.flush)

end UtopiaTlb

end Virtuoso
