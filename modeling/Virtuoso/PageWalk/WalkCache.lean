import Virtuoso.PageTable.Basic
import Virtuoso.Tlb.Basic

/-
  The page walk caches of `pwc.cc` and the filter of
  `radix_filter.cc` over them.

  Each level has a set-associative cache of entries of the
  page table, replaced by plain LRU. The filter looks up the
  accesses of a walk in the caches of their depths and keeps
  those that miss, which brings their entries in.

  The statistics, latencies and the log are left out.

  Key definitions include:
    * `PwcSet`
    * `RadixFilter.step`
-/

namespace Virtuoso

/- A set of ways, of which the invalid ones have no tag. -/
structure PwcSet where
  ways : List (Option Nat)
  lruBits : List Nat
deriving DecidableEq, Repr

namespace PwcSet

/- An empty set, with its ways in order. -/
def construct (associativity : Nat) : PwcSet where
  ways := List.replicate associativity none
  lruBits := (List.range associativity).map (fun i => i % 256)

/- The last way with the tag. -/
def find (s : PwcSet) (tag : Nat) : Option Nat :=
  (List.range s.ways.length).reverse.find?
    (fun way => s.ways[way]? == some (some tag))

/- The way becomes the youngest. -/
def use (s : PwcSet) (way : Nat) : PwcSet :=
  { s with lruBits := Replacement.moveToMRU s.lruBits way }

/- The first invalid way, or else the one used first. -/
def victim (s : PwcSet) : Nat :=
  (s.ways.findIdx? (fun way => way.isNone)).getD
    (Replacement.leastRecent s.lruBits)

/- The tag that leaves a set when another one is inserted. -/
def evicted (s : PwcSet) : Option Nat :=
  s.ways.getD s.victim none

/- The tag takes the place of the victim. -/
def insert (s : PwcSet) (tag : Nat) : PwcSet :=
  { (s.use s.victim) with
    ways := s.ways.set s.victim (some tag) }

end PwcSet

/-
  The configuration of the walk caches: a cache has a power of
  two of sets and a set has a way.
-/
structure PwcConfig where
  enabled : Bool
  maxPwcLevel : Nat
  log2Sets : Nat → Nat
  associativity : Nat → Nat
  associativity_pos : ∀ level, 0 < associativity level

namespace PwcConfig

/- The set of a tag at a level, masked from its number. -/
def setIndex (c : PwcConfig) (level tag : Nat) : Nat :=
  tag % 2 ^ c.log2Sets level

end PwcConfig

/- What happened last to an entry at a level. -/
inductive PwcChange where
| brought (walk : Nat) (counted : Bool)
| evicted
deriving DecidableEq, Repr

/-
  The filter. `walks` and `history` are no fields of the
  source: they count the walks so far and note what happened
  to the entries of each level, the latest first.
-/
structure RadixFilter where
  config : PwcConfig
  caches : Nat → Nat → PwcSet
  walks : Nat
  history : List ((Nat × Nat) × PwcChange)

namespace RadixFilter

/- The constructor. -/
def init (c : PwcConfig) : RadixFilter where
  config := c
  caches := fun level _ => PwcSet.construct (c.associativity level)
  walks := 0
  history := []

/- The tag of an entry of eight bytes. -/
def tagOf (address : Nat) : Nat :=
  address / 8

/- The set of a tag in the cache of a level. -/
def setOf (f : RadixFilter) (level tag : Nat) : PwcSet :=
  f.caches level (f.config.setIndex level tag)

/- The set of a tag has changed. -/
def setSet
    (f : RadixFilter)
    (level tag : Nat)
    (s : PwcSet) : RadixFilter :=
  { f with
    caches := Function.update f.caches level
      (Function.update (f.caches level)
        (f.config.setIndex level tag) s) }

/- Note what happened to an entry. -/
def note
    (f : RadixFilter)
    (level tag : Nat)
    (change : PwcChange) : RadixFilter :=
  { f with history := ((level, tag), change) :: f.history }

/- The history of a level gets an eviction. -/
def noteEvicted
    (f : RadixFilter)
    (level : Nat) : Option Nat → RadixFilter
| none => f
| some tag => f.note level tag .evicted

/- `PWC::lookup`, which allocates when it misses. -/
def lookup
    (f : RadixFilter)
    (address level : Nat)
    (count : Bool) : Bool × RadixFilter :=
  let tag := tagOf address
  let s := f.setOf level tag
  match s.find tag with
  | some way => (true, f.setSet level tag (s.use way))
  | none =>
      (false,
        ((f.setSet level tag (s.insert tag)).noteEvicted level
          s.evicted).note level tag (.brought f.walks count))

/- One access of a walk, and whether it is filtered out. -/
def filterAccess
    (f : RadixFilter)
    (count : Bool)
    (a : PTWAccess) : Bool × RadixFilter :=
  if a.depth < f.config.maxPwcLevel then
    f.lookup a.physicalAddr a.depth count
  else
    (false, f)

/- The loop over the accesses of a walk. -/
def filterAccesses
    (count : Bool) :
    RadixFilter → List PTWAccess → List PTWAccess × RadixFilter
| f, [] => ([], f)
| f, a :: rest =>
    let (pwcHit, f') := f.filterAccess count a
    let (kept, f'') := filterAccesses count f' rest
    (if pwcHit then kept else a :: kept, f'')

/- `RadixFilter::filterPTWResult`. -/
def filterPTWResult
    (f : RadixFilter)
    (r : PTWResult)
    (count : Bool) : PTWResult × RadixFilter :=
  let (accesses, f') :=
    if f.config.enabled then filterAccesses count f r.accesses
    else ([], f)
  ({ translation := r.translation
     accesses := accesses
     isPagefault := r.isPagefault
     -- The constructor of the result has no argument for it.
     requestedFrames := 0 },
    { f' with walks := f'.walks + 1 })

/- `RadixFilter::lookupPWC`, which is no part of a walk. -/
def lookupPWC
    (f : RadixFilter)
    (address level : Nat) : Bool × RadixFilter :=
  if f.config.enabled ∧ level < f.config.maxPwcLevel then
    f.lookup address level false
  else
    (false, f)

/- The calls of the filter. -/
inductive Call where
| filterPTWResult (r : PTWResult) (count : Bool)
| lookupPWC (address level : Nat)

/- The filter after a call. -/
def next (f : RadixFilter) : Call → RadixFilter
| .filterPTWResult r count => (f.filterPTWResult r count).2
| .lookupPWC address level => (f.lookupPWC address level).2

/- Every call of the filter returns. -/
def step
    (f : RadixFilter)
    (c : Call) : Option RadixFilter :=
  some (f.next c)

end RadixFilter

end Virtuoso
