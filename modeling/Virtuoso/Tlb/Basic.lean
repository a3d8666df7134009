import Mathlib.Algebra.Group.Nat.Defs
import Mathlib.Data.List.Basic

/-
  The TLBs of `tlb.cc`, over the sets of `cache.cc` and
  `cache_set.cc`.

  A TLB is a set-associative cache of blocks. A block belongs
  to a page, given by its tag and its page size, and the tag
  decides the set. A TLB with a prefetch queue takes entries
  from the queue only, when their walks have completed.

  Addresses are words of 64 bits. The replacement policy is a
  parameter: it selects the way of a new block and is told
  about every use of a block. Its state may hold anything
  that its choices depend on. `lru` is the policy that is
  taken by default. `picks` selects the queue entry among
  those of the least timestamp. What the prefetchers predict
  is left open, so that the mark of prefetched blocks, which
  only they are told about, the statistics, the latencies and
  the log are left out.

  Key definitions include:
    * `TlbBlock`
    * `Replacement.lru`
-/

namespace Virtuoso

/- `CacheBlockInfo`, with whether its state is shared. -/
structure TlbBlock where
  tag : BitVec 64
  pageSize : Nat
  ppn : Nat
  shared : Bool
deriving DecidableEq

namespace TlbBlock

/- A block as it is created. -/
def empty : TlbBlock :=
  ⟨BitVec.allOnes 64, 0, 0, false⟩

/- An invalid block has the tag of all ones. -/
def isValid (b : TlbBlock) : Bool :=
  b.tag != BitVec.allOnes 64

/- The block has no page any more. -/
def invalidate (b : TlbBlock) : TlbBlock :=
  { b with tag := BitVec.allOnes 64, shared := false }

/- The comparison of `findTLB` and `invalidateTLB`. -/
def isFor
    (b : TlbBlock)
    (tag : BitVec 64)
    (pageSize : Nat) : Bool :=
  b.tag == tag && b.pageSize == pageSize

end TlbBlock

/-
  A replacement policy: the way in a set that is replaced,
  and the note that a way was used.
-/
structure Replacement (σ : Type) where
  getReplacementIndex : σ → Nat → List TlbBlock → Option (Nat × σ)
  updateReplacementIndex : σ → Nat → Nat → σ

/- The accesses that a TLB is for. -/
inductive TlbType
  | instruction
  | data
  | unified
deriving DecidableEq

/- An entry of the prefetch queue. -/
structure QueryEntry where
  timestamp : Nat
  pageSize : Nat
  ppn : Nat
  address : BitVec 64
deriving DecidableEq

/- The parameters that a TLB is constructed with. -/
structure TlbConfig where
  numEntries : Nat
  associativity : Nat
  pageSizes : List Nat
  type : TlbType
  allocateOnMiss : Bool
  prefetch : Bool
  maxPrefetchCount : Nat

namespace TlbConfig

/- The number of sets. -/
def numSets (c : TlbConfig) : Nat :=
  c.numEntries / c.associativity

end TlbConfig

/- A region without a counter has the count zero. -/
structure Tlb (σ : Type) where
  config : TlbConfig
  policy : Replacement σ
  sets : List (List TlbBlock)
  replacement : σ
  queue : List QueryEntry
  regionRefcount : Nat → Nat

namespace Tlb

variable {σ : Type}

/- `TLB::TLB`, with the checks on the number of entries. -/
def construct
    (config : TlbConfig)
    (policy : Replacement σ)
    (replacement : σ) : Option (Tlb σ) :=
  if config.numSets * config.associativity = config.numEntries ∧
      2 ^ Nat.log2 config.numSets = config.numSets then
    some
      { config := config
        policy := policy
        sets := List.replicate config.numSets
          (List.replicate config.associativity TlbBlock.empty)
        replacement := replacement
        queue := []
        regionRefcount := fun _ => 0 }
  else
    none

/- The tag that `splitAddressTLB` returns. -/
def tagOf
    (address : BitVec 64)
    (pageSize : Nat) : BitVec 64 :=
  address >>> pageSize

/- The set that `splitAddressTLB` returns for a tag. -/
def setIndex (t : Tlb σ) (tag : BitVec 64) : Nat :=
  tag.toNat &&& (t.config.numSets - 1)

/- The TLB holds pages of this size. -/
def supportsPageSize (t : Tlb σ) (pageSize : Nat) : Bool :=
  t.config.pageSizes.contains pageSize

/- `findTLB`: the last way with a block of the page. -/
def findTLB
    (set : List TlbBlock)
    (tag : BitVec 64)
    (pageSize : Nat) : Option (Nat × TlbBlock) :=
  set.zipIdx.reverse.findSome? (fun e =>
    if e.1.isFor tag pageSize then some (e.2, e.1) else none)

/-
  The loop over the page sizes: the set and the way of the
  first block that is found and valid.
-/
def findSingleLineTLB
    (t : Tlb σ)
    (address : BitVec 64) :
    List Nat → Option (Nat × Nat × TlbBlock)
| [] => none
| pageSize :: rest =>
    let tag := tagOf address pageSize
    let set := t.sets.getD (t.setIndex tag) []
    match findTLB set tag pageSize with
    | none => t.findSingleLineTLB address rest
    | some (way, block) =>
        if block.shared then
          some (t.setIndex tag, way, block)
        else
          t.findSingleLineTLB address rest

/- `accessSingleLineTLB`, which updates the replacement. -/
def accessSingleLineTLB
    (t : Tlb σ)
    (address : BitVec 64) :
    Option TlbBlock × Tlb σ :=
  match t.findSingleLineTLB address t.config.pageSizes with
  | none => (none, t)
  | some (set, way, block) =>
      (some block,
        { t with
          replacement := t.policy.updateReplacementIndex
            t.replacement set way })

/- The entries of a set with one way replaced. -/
def setBlock
    (t : Tlb σ)
    (set way : Nat)
    (block : TlbBlock) : Tlb σ :=
  { t with
    sets := t.sets.modify set (fun s => s.set way block) }

/-
  `insertSingleLineTLB`: the block of the way that is
  replaced, if it is valid, is evicted.
-/
def insertSingleLineTLB
    (t : Tlb σ)
    (address : BitVec 64)
    (pageSize ppn : Nat) :
    Option (Option TlbBlock × Tlb σ) :=
  let tag := tagOf address pageSize
  let index := t.setIndex tag
  let set := t.sets.getD index []
  match t.policy.getReplacementIndex t.replacement index set
  with
  | none => none
  | some (way, replacement) =>
      match set[way]? with
      | none => none
      | some old =>
          some (if old.isValid then some old else none,
            setBlock { t with replacement := replacement }
              index way ⟨tag, pageSize, ppn, true⟩)

/- `containsTLB`. -/
def containsTLB (t : Tlb σ) (address : BitVec 64) : Bool :=
  t.config.pageSizes.any (fun pageSize =>
    let tag := tagOf address pageSize
    (findTLB (t.sets.getD (t.setIndex tag) []) tag pageSize).isSome)

/- `CacheSet::invalidateTLB`. -/
def invalidateSet
    (set : List TlbBlock)
    (tag : BitVec 64)
    (pageSize : Nat) : List TlbBlock :=
  set.map (fun b =>
    if b.isFor tag pageSize then b.invalidate else b)

/-
  `invalidate`: the blocks of the address under every page
  size are invalidated. The page size of the call is not
  read. It is checked that no block of the address is left.
-/
def invalidate
    (t : Tlb σ)
    (address : BitVec 64) : Option (Tlb σ) :=
  let t' := t.config.pageSizes.foldl
    (fun (t : Tlb σ) pageSize =>
      let tag := tagOf address pageSize
      { t with
        sets := t.sets.modify (t.setIndex tag)
          (fun set => invalidateSet set tag pageSize) })
    t
  if t'.containsTLB address then none else some t'

/- `allocate`; prefetching TLBs only allocate themselves. -/
def allocate
    (t : Tlb σ)
    (address : BitVec 64)
    (pageSize ppn : Nat)
    (selfAlloc : Bool) :
    Option (Option TlbBlock × Tlb σ) :=
  if t.config.prefetch && !selfAlloc then
    some (none, t)
  else
    t.insertSingleLineTLB address pageSize ppn

/- The region of 32KB of an address. -/
def regionId (address : BitVec 64) : Nat :=
  address.toNat / 2 ^ 15

/- The entry on top of the queue, if its walk completed. -/
def dueEntry
    (queue : List QueryEntry)
    (now pick : Nat) : Option QueryEntry :=
  let least := queue.filter (fun e =>
    queue.all (fun e' => decide (e.timestamp ≤ e'.timestamp)))
  (least[pick % least.length]?).filter (fun e =>
    decide (e.timestamp ≤ now))

/- Take an entry from the queue. -/
def popEntry (t : Tlb σ) (e : QueryEntry) : Tlb σ :=
  let region := regionId e.address
  { t with
    queue := t.queue.erase e
    regionRefcount := Function.update t.regionRefcount region
      (t.regionRefcount region - 1) }

/- One iteration of the loop that empties the queue. -/
def materialize
    (t : Tlb σ)
    (now pick : Nat) : Option (Option TlbBlock × Tlb σ) :=
  match dueEntry t.queue now pick with
  | none => some (none, t)
  | some e =>
      (t.popEntry e).allocate e.address e.pageSize e.ppn true

/- The loop; no iteration adds an entry to the queue. -/
def materializeAll
    (now : Nat)
    (picks : Nat → Nat) :
    Nat → Tlb σ → Option (Tlb σ)
| 0, t => some t
| n + 1, t =>
    (t.materialize now (picks n)).bind (fun r =>
      materializeAll now picks n r.2)

/- Put the predictions of one prefetcher into the queue. -/
def enqueueBatch
    (t : Tlb σ)
    (batch : List QueryEntry) : Tlb σ :=
  batch.foldl
    (fun (t : Tlb σ) e =>
      if e.ppn = 0 ∨ t.config.maxPrefetchCount ≤ t.queue.length then
        t
      else
        let region := regionId e.address
        { t with
          queue := t.queue ++ [e]
          regionRefcount := Function.update t.regionRefcount
            region (t.regionRefcount region + 1) })
    t

/- The region of the first usable prediction is queued. -/
def batchDeduped
    (t : Tlb σ)
    (batch : List QueryEntry) : Bool :=
  (batch.find? (fun e => e.ppn != 0)).any (fun e =>
    decide (0 < t.regionRefcount (regionId e.address)))

/- The loop over the prefetchers while the queue has room. -/
def enqueue
    (t : Tlb σ)
    (outputs : List (List QueryEntry)) : Tlb σ :=
  outputs.foldl
    (fun (t : Tlb σ) batch =>
      if t.config.maxPrefetchCount ≤ t.queue.length ∨
          t.batchDeduped batch then
        t
      else
        t.enqueueBatch batch)
    t

/- What a lookup reads from outside of the TLB. -/
structure Lookup where
  address : BitVec 64
  now : Nat
  picks : Nat → Nat
  outputs : List (List QueryEntry)

/- `lookup`: the block that was hit. -/
def lookup
    (t : Tlb σ)
    (request : Lookup) :
    Option (Option TlbBlock × Tlb σ) :=
  if t.config.prefetch then
    (materializeAll request.now request.picks t.queue.length t).map
      (fun t =>
        let r := t.accessSingleLineTLB request.address
        (r.1, r.2.enqueue request.outputs))
  else
    some (t.accessSingleLineTLB request.address)

end Tlb

namespace Replacement

/- `moveToMRU` on the positions of the ways of a set. -/
def moveToMRU (bits : List Nat) (way : Nat) : List Nat :=
  (bits.map (fun b =>
    if b < bits.getD way 0 then (b + 1) % 256 else b)).set way 0

/- The way with the greatest position. -/
def leastRecent (bits : List Nat) : Nat :=
  (bits.zipIdx.foldl
    (fun (best : Nat × Nat) b =>
      if best.2 < b.1 then (b.2, b.1) else best) (0, 0)).1

/- `CacheSetLRU`: the positions of all ways, set by set. -/
def lru : Replacement (List (List Nat)) where
  getReplacementIndex := fun s set blocks =>
    let bits := s.getD set []
    let way := (blocks.findIdx? (fun b =>
      !b.isValid)).getD (leastRecent bits)
    some (way, s.set set (moveToMRU bits way))
  updateReplacementIndex := fun s set way =>
    s.set set (moveToMRU (s.getD set []) way)

/- The positions as the constructor sets them. -/
def lruInit
    (numSets associativity : Nat) : List (List Nat) :=
  List.replicate numSets
    ((List.range associativity).map (fun i => i % 256))

end Replacement

end Virtuoso
