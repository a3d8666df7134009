import Virtuoso.Mplru.Basic

/-
  The sets of `cache_set_lru.cc` and `cache_set_chirp.cc`.

  The bytes of the ways are moved as in the set of
  `cache_set_mplru.cc`, which derives from the first of them.
  A plain set makes several attempts to find a victim that is
  not in a lower level. A CHiRP set prefers a victim whose
  stored signature was predicted dead, by a table that it
  shares with the other sets; the table is passed to each
  call and returned. The statistics are left out.

  A call is made with whatever blocks the set holds by then,
  and returns the way that it chose or was told about.

  Key definitions include:
    * `LruSet.getReplacementIndex`
    * `MplruSet.call`
-/

namespace Virtuoso

/- A set with the age of each way. -/
structure LruSet where
  associativity : Nat
  numAttempts : Nat
  block : Nat → CacheBlock
  lruBits : Nat → Nat

namespace LruSet

/- `CacheSetLRU::CacheSetLRU`. -/
def create (associativity numAttempts : Nat) : LruSet where
  associativity := associativity
  numAttempts := numAttempts
  block := fun _ => CacheBlock.empty
  lruBits := fun way => way % 2 ^ 8

/- The way becomes the youngest, and younger ones age. -/
def moveToMRU (s : LruSet) (accessed : Nat) : LruSet :=
  { s with lruBits := MplruSet.bumped s.lruBits accessed }

/- A block that waits for an upgrade stays. -/
def isValidReplacement (s : LruSet) (way : Nat) : Bool :=
  (s.block way).cstate != .sharedUpgrading

/- The first way without a block. -/
def findInvalid (s : LruSet) : Option Nat :=
  (List.range s.associativity).find?
    (fun way => !(s.block way).isValid)

/- The search of one attempt. -/
def victim (s : LruSet) : Nat :=
  ((List.range s.associativity).foldl
    (fun (best : Nat × Nat) way =>
      if best.2 < s.lruBits way ∧
          s.isValidReplacement way = true then
        (way, s.lruBits way)
      else best)
    (0, 0)).1

/-
  The attempts that are left. All but the last ask the
  controller, if there is one, whether a lower level has the
  block.
-/
def attempts
    (cntlr : Option (Nat → CacheBlock → Bool)) :
    Nat → Nat → LruSet → Option (Nat × LruSet)
| 0, _, _ => none
| left + 1, attempt, s =>
    let index := s.victim
    if index < s.associativity then
      if left = 0 then
        some (index, s.moveToMRU index)
      else
        match cntlr with
        | none => none
        | some isInLowerLevelCache =>
            if isInLowerLevelCache attempt (s.block index) then
              attempts cntlr left (attempt + 1) (s.moveToMRU index)
            else
              some (index, s.moveToMRU index)
    else
      none

/- An invalid way is taken before the oldest. -/
def getReplacementIndex
    (s : LruSet)
    (cntlr : Option (Nat → CacheBlock → Bool)) :
    Option (Nat × LruSet) :=
  match s.findInvalid with
  | some way => some (way, s.moveToMRU way)
  | none => attempts cntlr s.numAttempts 0 s

/- The way is used; a way past the last is undefined. -/
def updateReplacementIndex
    (s : LruSet)
    (accessed : Nat) : Option (Nat × LruSet) :=
  if accessed < s.associativity then
    some (accessed, s.moveToMRU accessed)
  else
    none

/- The calls of the cache. -/
inductive Call where
| getReplacementIndex (block : Nat → CacheBlock)
    (cntlr : Option (Nat → CacheBlock → Bool))
| updateReplacementIndex (accessed : Nat)

/- A call, with the way that it returns. -/
def call (s : LruSet) : Call → Option (Nat × LruSet)
| .getReplacementIndex block cntlr =>
    { s with block := block }.getReplacementIndex cntlr
| .updateReplacementIndex accessed =>
    s.updateReplacementIndex accessed

end LruSet

/- `CacheSetInfoCHiRP`. -/
structure ChirpInfo where
  tableSize : Nat
  threshold : Nat
  predictionTable : Nat → Nat
  pathHist : BitVec 64
  condHist : BitVec 64
  uncondIndHist : BitVec 64

namespace ChirpInfo

/- A word is folded into 16 bits. -/
def hash16 (raw : BitVec 64) : Nat :=
  let half := raw ^^^ (raw >>> 32)
  (half ^^^ (half >>> 16)).toNat % 2 ^ 16

/- The signature of an access, from the history. -/
def computeSignature
    (info : ChirpInfo)
    (pc : BitVec 64) : Nat :=
  hash16 ((pc >>> 2) ^^^ info.pathHist ^^^ info.condHist ^^^
    info.uncondIndHist)

/- The counter says that the block is dead. -/
def predictDead (info : ChirpInfo) (index : Nat) : Bool :=
  decide (info.threshold ≤ info.predictionTable index)

/- The counters have two bits. -/
def incrementCounter
    (info : ChirpInfo)
    (index : Nat) : ChirpInfo :=
  { info with
    predictionTable := Function.update info.predictionTable
      index (if info.predictionTable index < 3 then
        info.predictionTable index + 1
      else info.predictionTable index) }

/- A counter stays at 0. -/
def decrementCounter
    (info : ChirpInfo)
    (index : Nat) : ChirpInfo :=
  { info with
    predictionTable := Function.update info.predictionTable
      index (info.predictionTable index - 1) }

end ChirpInfo

/- A set whose blocks may be predicted dead. -/
structure ChirpSet where
  lru : LruSet
  sig : Nat → Nat
  predDead : Nat → Bool
  firstHit : Nat → Bool

namespace ChirpSet

/- `CacheSetCHiRP::CacheSetCHiRP`. -/
def create (associativity : Nat) : ChirpSet where
  lru := LruSet.create associativity 1
  sig := fun _ => 0
  predDead := fun _ => false
  firstHit := fun _ => true

/- The signature and the prediction of a way are renewed. -/
def renew
    (s : ChirpSet)
    (info : ChirpInfo)
    (pc : BitVec 64)
    (way : Nat)
    (firstHit : Bool) : ChirpSet :=
  let sig := info.computeSignature pc
  { lru := s.lru.moveToMRU way
    sig := Function.update s.sig way sig
    predDead := Function.update s.predDead way
      (info.predictDead (sig % info.tableSize))
    firstHit := Function.update s.firstHit way firstHit }

/-
  The last of the ways with the largest byte among those that
  `p` accepts, or `start`.
-/
def search
    (s : ChirpSet)
    (start : Nat)
    (p : Nat → Bool) : Nat :=
  ((List.range s.lru.associativity).foldl
    (fun (best : Nat × Nat) way =>
      if s.lru.isValidReplacement way = true ∧ p way = true ∧
          best.2 ≤ s.lru.lruBits way then
        (way, s.lru.lruBits way)
      else best)
    (start, 0)).1

/- A dead block leaves before the oldest. -/
def victim (s : ChirpSet) : Nat :=
  let deadVictim := s.search s.lru.associativity s.predDead
  if deadVictim < s.lru.associativity then deadVictim
  else s.search 0 (fun _ => true)

/- The table has no entry to use if its size is zero. -/
def getReplacementIndex
    (s : ChirpSet)
    (info : ChirpInfo)
    (pc : BitVec 64) : Option (Nat × ChirpSet × ChirpInfo) :=
  if info.tableSize = 0 then
    none
  else
    match s.lru.findInvalid with
    | some way => some (way, s.renew info pc way true, info)
    | none =>
        let way := s.victim
        let trained :=
          if s.firstHit way then
            info.incrementCounter (s.sig way % info.tableSize)
          else info
        some (way, s.renew trained pc way true, trained)

/- The first use of a block trains the predictor. -/
def updateReplacementIndex
    (s : ChirpSet)
    (info : ChirpInfo)
    (accessed : Nat)
    (pc : BitVec 64) : Option (Nat × ChirpSet × ChirpInfo) :=
  if info.tableSize = 0 ∨ s.lru.associativity ≤ accessed then
    none
  else
    let trained :=
      if s.firstHit accessed then
        info.decrementCounter (s.sig accessed % info.tableSize)
      else info
    some (accessed, s.renew trained pc accessed false, trained)

/- The calls, each with the state of the predictor. -/
inductive Call where
| getReplacementIndex (block : Nat → CacheBlock)
    (info : ChirpInfo) (pc : BitVec 64)
| updateReplacementIndex (info : ChirpInfo) (accessed : Nat)
    (pc : BitVec 64)

/- A call, with the way that it returns. -/
def call (s : ChirpSet) : Call → Option (Nat × ChirpSet)
| .getReplacementIndex block info pc =>
    let s' : ChirpSet :=
      { s with lru := { s.lru with block := block } }
    (s'.getReplacementIndex info pc).map (fun r => (r.1, r.2.1))
| .updateReplacementIndex info accessed pc =>
    (s.updateReplacementIndex info accessed pc).map
      (fun r => (r.1, r.2.1))

end ChirpSet

namespace MplruSet

/- The calls, with those that reserve ways. -/
inductive Call where
| getReplacementIndex (block : Nat → CacheBlock)
    (controller : Option Int)
| withReservation (block : Nat → CacheBlock)
    (reservedWays : Nat)
| withDataReservation (block : Nat → CacheBlock)
    (reservedWays : Nat)
| updateReplacementIndex (accessed : Nat)

/- A call, with the way that it returns. -/
def call (s : MplruSet) : Call → Option (Nat × MplruSet)
| .getReplacementIndex block controller =>
    { s with block := block }.getReplacementIndex controller
| .withReservation block reservedWays =>
    { s with block := block
      }.getReplacementIndexWithReservation reservedWays
| .withDataReservation block reservedWays =>
    { s with block := block
      }.getReplacementIndexWithDataReservation reservedWays
| .updateReplacementIndex accessed =>
    if accessed < s.associativity then s.replace accessed
    else none

end MplruSet

end Virtuoso
