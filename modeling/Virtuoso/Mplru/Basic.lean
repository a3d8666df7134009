import Mathlib.Algebra.Group.Nat.Defs
import Mathlib.Logic.Function.Basic

/-
  The replacement of `cache_set_mplru.cc`, which prefers to
  evict data or metadata, over that of `cache_set_lru.cc`.

  A set is its blocks and a byte for each way, zero for the
  way that was used last. A set of this policy makes a single
  attempt, so that the lower levels are never asked. What the
  controller answers is part of an insertion.

  The statistics and the log are left out.

  Key definitions include:
    * `MplruSet`
    * `MplruSet.step`
-/

namespace Virtuoso

/- The coherence states of a block. -/
inductive CacheState where
| invalid
| shared
| sharedUpgrading
| exclusive
| owned
| modified
deriving DecidableEq, Repr

/- What a block holds. -/
inductive BlockType where
| pageTableData
| pageTableInstruction
| utopiaFp
| utopiaTar
| utopiaRadixInternal
| utopiaRadixLeaf
| instruction
| data
deriving DecidableEq, Repr

/- `isMetadataBlockType`. -/
def BlockType.isMetadata : BlockType → Bool
| .pageTableData => true
| .pageTableInstruction => true
| .utopiaFp => true
| .utopiaTar => true
| .utopiaRadixInternal => true
| .utopiaRadixLeaf => true
| .instruction => false
| .data => false

/- What the replacement reads of `CacheBlockInfo`. -/
structure CacheBlock where
  tag : BitVec 64
  cstate : CacheState
  blockType : BlockType
deriving DecidableEq, Repr

namespace CacheBlock

/- A block as it is created. -/
def empty : CacheBlock where
  tag := BitVec.allOnes 64
  cstate := .invalid
  blockType := .data

/- An invalid block has the tag of all ones. -/
def isValid (b : CacheBlock) : Bool :=
  b.tag != BitVec.allOnes 64

/- The block holds metadata of a translation. -/
def isPageTableBlock (b : CacheBlock) : Bool :=
  b.blockType.isMetadata

/- The type of the block is kept. -/
def invalidate (b : CacheBlock) : CacheBlock :=
  { b with tag := BitVec.allOnes 64, cstate := .invalid }

end CacheBlock

/- When metadata has priority over data. -/
inductive MetadataPriorityMode where
| always
| adaptive
| disabled
deriving DecidableEq, Repr

/-
  A set of `associativity` ways. `lastUse` is no field of the
  source: it notes at which of its uses a way was used last,
  zero for a way that was not used.
-/
structure MplruSet where
  associativity : Nat
  mode : MetadataPriorityMode
  block : Nat → CacheBlock
  lruBits : Nat → Nat
  uses : Nat
  lastUse : Nat → Nat

namespace MplruSet

/- The constructors of the set. -/
def create
    (associativity : Nat)
    (mode : MetadataPriorityMode) : MplruSet where
  associativity := associativity
  mode := mode
  block := fun _ => CacheBlock.empty
  lruBits := fun way => way % 2 ^ 8
  uses := 0
  lastUse := fun _ => 0

/- The bytes of the ways, after a use of one of them. -/
def bumped (bits : Nat → Nat) (accessed way : Nat) : Nat :=
  if way = accessed then 0
  else if bits way < bits accessed then
    (bits way + 1) % 2 ^ 8
  else bits way

/- The way becomes the youngest, and younger ones age. -/
def moveToMRU (s : MplruSet) (accessed : Nat) : MplruSet :=
  { s with
    lruBits := bumped s.lruBits accessed
    uses := s.uses + 1
    lastUse := Function.update s.lastUse accessed (s.uses + 1) }

/- A block that waits for an upgrade stays. -/
def isValidReplacement (s : MplruSet) (way : Nat) : Bool :=
  (s.block way).cstate != .sharedUpgrading

/- The block of the way holds data. -/
def isData (s : MplruSet) (way : Nat) : Bool :=
  !(s.block way).isPageTableBlock

/- The block of the way holds metadata. -/
def isMetadata (s : MplruSet) (way : Nat) : Bool :=
  (s.block way).isPageTableBlock

/- The first way without a valid block. -/
def findInvalid (s : MplruSet) : Option Nat :=
  (List.range s.associativity).find?
    (fun way => !(s.block way).isValid)

/-
  The search of the victim: the first of the ways that `p`
  accepts with the largest byte above zero, or `start`.
-/
def findLRU
    (s : MplruSet)
    (start : Nat)
    (p : Nat → Bool) : Nat :=
  ((List.range s.associativity).foldl
    (fun (best : Nat × Nat) way =>
      if best.2 < s.lruBits way ∧ p way = true then
        (way, s.lruBits way)
      else best)
    (start, 0)).1

/- The victim, unless the search found none. -/
def found (s : MplruSet) (way : Nat) : Option Nat :=
  if way < s.associativity then some way else none

/- The oldest block of data. -/
def findLRUDataBlock (s : MplruSet) : Nat :=
  s.findLRU s.associativity (fun way =>
    (s.block way).isValid && s.isData way &&
      s.isValidReplacement way)

/- The oldest block of metadata. -/
def findLRUMetadataBlock (s : MplruSet) : Nat :=
  s.findLRU s.associativity (fun way =>
    (s.block way).isValid && s.isMetadata way &&
      s.isValidReplacement way)

/- The top of the bottom of the order, as a byte. -/
def thresholdBits (s : MplruSet) (percentile : Nat) : Nat :=
  s.associativity * (100 - percentile) % 2 ^ 32 / 100 % 2 ^ 8

/- The oldest block of data among the old blocks. -/
def findLRUDataBlockInPercentile
    (s : MplruSet)
    (percentile : Nat) : Nat :=
  s.findLRU s.associativity (fun way =>
    (s.block way).isValid && s.isData way &&
      decide (s.thresholdBits percentile ≤ s.lruBits way) &&
      s.isValidReplacement way)

/- The oldest block of metadata among the old blocks. -/
def findLRUMetadataBlockInPercentile
    (s : MplruSet)
    (percentile : Nat) : Nat :=
  s.findLRU s.associativity (fun way =>
    (s.block way).isValid && s.isMetadata way &&
      decide (s.thresholdBits percentile ≤ s.lruBits way) &&
      s.isValidReplacement way)

/- The way that is replaced, marked as used last. -/
def replace
    (s : MplruSet)
    (way : Nat) : Option (Nat × MplruSet) :=
  some (way, s.moveToMRU way)

/-
  `CacheSetLRU::getReplacementIndex`, with one attempt. Where
  no way has a byte above zero, it is the first.
-/
def getLRUReplacementIndex
    (s : MplruSet) : Option (Nat × MplruSet) :=
  match s.findInvalid with
  | some way => s.replace way
  | none =>
      let index := s.findLRU 0 s.isValidReplacement
      if index < s.associativity then s.replace index else none

/- The first of two victims, or that of plain LRU. -/
def replaceFirst
    (s : MplruSet)
    (first second : Option Nat) : Option (Nat × MplruSet) :=
  match first with
  | some way => s.replace way
  | none =>
      match second with
      | some way => s.replace way
      | none => s.getLRUReplacementIndex

/- The number of blocks of metadata. -/
def metadataCount (s : MplruSet) : Nat :=
  ((List.range s.associativity).filter (fun way =>
    (s.block way).isValid && s.isMetadata way)).length

/- The number of blocks of data. -/
def dataCount (s : MplruSet) : Nat :=
  ((List.range s.associativity).filter (fun way =>
    (s.block way).isValid && s.isData way)).length

/- Some ways are reserved for metadata. -/
def getReplacementIndexWithReservation
    (s : MplruSet)
    (reservedWays : Nat) : Option (Nat × MplruSet) :=
  let data := s.found s.findLRUDataBlock
  -- Below the reservation data must leave, above it data is
  -- what leaves first.
  if s.metadataCount < reservedWays ∧ data.isSome then
    s.replaceFirst data none
  else
    s.replaceFirst data (s.found s.findLRUMetadataBlock)

/- Some ways are reserved for data. -/
def getReplacementIndexWithDataReservation
    (s : MplruSet)
    (reservedWays : Nat) : Option (Nat × MplruSet) :=
  let metadata := s.found s.findLRUMetadataBlock
  if s.dataCount < reservedWays ∧ metadata.isSome then
    s.replaceFirst metadata none
  else
    s.replaceFirst metadata (s.found s.findLRUDataBlock)

/-
  The policy, between 0 and 11. The controller of the
  adaptive mode may not be initialized.
-/
def getPolicyId
    (s : MplruSet)
    (controller : Option Int) : Nat :=
  match s.mode with
  | .disabled => 0
  | .always => 3
  | .adaptive =>
      match controller with
      | some level => (max 0 (min 11 level)).toNat
      | none => 0

/- The protection of metadata, by its level. -/
def protectMetadata
    (s : MplruSet) : Nat → Option (Nat × MplruSet)
| 0 => s.getLRUReplacementIndex
| 1 =>
    s.replaceFirst (s.found (s.findLRUDataBlockInPercentile 25))
      none
| 2 =>
    s.replaceFirst (s.found (s.findLRUDataBlockInPercentile 50))
      none
| 3 =>
    s.replaceFirst (s.found s.findLRUDataBlock)
      (s.found s.findLRUMetadataBlock)
| 4 =>
    s.getReplacementIndexWithReservation (s.associativity / 4)
| 5 =>
    s.getReplacementIndexWithReservation (s.associativity / 2)
| _ => s.getLRUReplacementIndex

/- The protection of data, by its level. -/
def protectData
    (s : MplruSet) : Nat → Option (Nat × MplruSet)
| 0 => s.getLRUReplacementIndex
| 1 =>
    s.replaceFirst
      (s.found (s.findLRUMetadataBlockInPercentile 25)) none
| 2 =>
    s.replaceFirst
      (s.found (s.findLRUMetadataBlockInPercentile 50)) none
| 3 =>
    s.replaceFirst (s.found s.findLRUMetadataBlock)
      (s.found s.findLRUDataBlock)
| 4 =>
    s.getReplacementIndexWithDataReservation (s.associativity / 4)
| 5 =>
    s.getReplacementIndexWithDataReservation (s.associativity / 2)
| _ => s.getLRUReplacementIndex

/- `CacheSetMPLRU::getReplacementIndex`. -/
def getReplacementIndex
    (s : MplruSet)
    (controller : Option Int) : Option (Nat × MplruSet) :=
  match s.findInvalid with
  | some way => s.replace way
  | none =>
      let policyId := s.getPolicyId controller
      if policyId ≤ 5 then s.protectMetadata policyId
      else s.protectData (policyId - 6)

/- The block of a way is written. -/
def setBlock
    (s : MplruSet)
    (way : Nat)
    (b : CacheBlock) : MplruSet :=
  { s with block := Function.update s.block way b }

/- `CacheSet::insert`. -/
def insert
    (s : MplruSet)
    (b : CacheBlock)
    (controller : Option Int) : Option MplruSet :=
  match s.getReplacementIndex controller with
  | none => none
  | some (way, next) => some (next.setBlock way b)

/- The last way with the tag. -/
def find (s : MplruSet) (tag : BitVec 64) : Option Nat :=
  (List.range s.associativity).reverse.find?
    (fun way => (s.block way).tag == tag)

/- `CacheSet::invalidate`. -/
def invalidate
    (s : MplruSet)
    (tag : BitVec 64) : MplruSet :=
  match s.find tag with
  | none => s
  | some way => s.setBlock way (s.block way).invalidate

/- What happens to a set. -/
inductive Event where
| insert (b : CacheBlock) (controller : Option Int)
| access (tag : BitVec 64)
| invalidate (tag : BitVec 64)
| setCState (way : Nat) (cstate : CacheState)
| setBlockType (way : Nat) (blockType : BlockType)

/- One event; only an insertion may be undefined. -/
def step (s : MplruSet) : Event → Option MplruSet
| .insert b controller => s.insert b controller
| .access tag =>
    match s.find tag with
    | none => some s
    | some way => some (s.moveToMRU way)
| .invalidate tag => some (s.invalidate tag)
| .setCState way cstate =>
    some (s.setBlock way { s.block way with cstate := cstate })
| .setBlockType way blockType =>
    some (s.setBlock way
      { s.block way with blockType := blockType })

end MplruSet

end Virtuoso
