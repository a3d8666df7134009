import Mathlib.Algebra.Group.Nat.Defs
import Mathlib.Logic.Function.Basic
import Virtuoso.Lib.Assoc
import Virtuoso.Tlb.Basic

/-
  The agile TLB prefetcher, from `AgileTLBPrefetcher.cc`.

  Three predictors propose pages for a miss, and one of them
  is chosen. Its pages are walked, and the pages next to them
  in a line of eight entries are taken along, where a table
  of free distances admits them. What each predictor would
  have proposed goes into a fake queue.

  A walk asks the page table and the walker, whose state is
  `τ`; the program calls the prefetcher with a page table
  only. Pages, instruction pointers and strides are words of
  64 bits. The statistics are left out.

  Key definitions include:
    * `Atp`
    * `Atp.performPrefetch`
-/

------------------------------------------------------------
-- State And Bookkeeping
------------------------------------------------------------

namespace Virtuoso

/- What the prefetcher reads of a `PTWResult`. -/
structure AtpWalk where
  faultHappened : Bool
  ppn : Nat
  pageSize : Nat
deriving DecidableEq

/-
  The walk of an address, which restarts after a fault, and
  the time at which a timed walk of it completes.
-/
structure AtpWalker (τ : Type) where
  initializeWalk : τ → BitVec 64 → AtpWalk × τ
  completion : τ → BitVec 64 → Nat

/- A page that was not admitted, with its distance. -/
structure SamplerEntry where
  valid : Bool
  vpn : BitVec 64
  freeDistance : Int
deriving DecidableEq

/- A page of a fake queue. -/
structure FpqEntry where
  valid : Bool
  vpn : BitVec 64
deriving DecidableEq

/- The last miss and stride of an instruction. -/
structure MaspEntry where
  valid : Bool
  pcTag : BitVec 64
  lastMissVpn : BitVec 64
  stride : BitVec 64
  strideValid : Bool
deriving DecidableEq

/- The child prefetchers. -/
inductive AtpChild
  | h2p
  | masp
  | stp
deriving DecidableEq

/- A fake prefetch queue and its replacement pointer. -/
structure FakeQueue where
  entries : List FpqEntry
  fifoPtr : Nat

/- The parameters that the prefetcher is constructed with. -/
structure AtpConfig where
  samplerSize : Nat
  fpqSize : Nat
  fdtCounterBits : Nat
  fdtThreshold : Nat
  enablePrefBits : Nat
  select1Bits : Nat
  select2Bits : Nat
  maspEntries : Nat
  maspAssoc : Nat
  pageShift : Nat

namespace AtpConfig

/- The largest count that a distance can have. -/
def fdtMax (c : AtpConfig) : Nat :=
  (2 ^ c.fdtCounterBits - 1) % 2 ^ 16

/- The greatest value of a counter of some bits. -/
def counterMax (bits : Nat) : Nat :=
  (2 ^ bits - 1) % 2 ^ 8

/- The sets of the table of MASP. -/
def maspSets (c : AtpConfig) : Nat :=
  c.maspEntries / c.maspAssoc

end AtpConfig

/- The state of the prefetcher. -/
structure Atp where
  config : AtpConfig
  sampler : List SamplerEntry
  samplerFifoPtr : Nat
  fdt : List Nat
  freeMeta : List (BitVec 64 × Int)
  pendingVpns : List (BitVec 64)
  enablePref : Nat
  select1 : Nat
  select2 : Nat
  fpq : AtpChild → FakeQueue
  h2pLast1Vpn : BitVec 64
  h2pLast2Vpn : BitVec 64
  h2pHave1 : Bool
  h2pHave2 : Bool
  maspTable : List MaspEntry
  maspRrPtr : List Nat

namespace Atp

/- `AgileTLBPrefetcher::AgileTLBPrefetcher`. -/
def construct (c : AtpConfig) : Atp :=
  { config := c
    sampler := List.replicate c.samplerSize ⟨false, 0, 0⟩
    samplerFifoPtr := 0
    fdt := List.replicate 14 0
    freeMeta := []
    pendingVpns := []
    enablePref := 0
    select1 := 0
    select2 := 0
    fpq := fun _ =>
      ⟨List.replicate c.fpqSize ⟨false, 0⟩, 0⟩
    h2pLast1Vpn := 0
    h2pLast2Vpn := 0
    h2pHave1 := false
    h2pHave2 := false
    maspTable := List.replicate c.maspEntries
      ⟨false, 0, 0, 0, false⟩
    maspRrPtr := List.replicate c.maspSets 0 }

/- The distances of the loops, without zero. -/
def distances : List Int :=
  [-7, -6, -5, -4, -3, -2, -1, 1, 2, 3, 4, 5, 6, 7]

/- The distances are -7 to -1 and 1 to 7. -/
def fdtIndexFromDistance (dist : Int) : Nat :=
  if dist < 0 then (dist + 7).toNat
  else (dist - 1 + 7).toNat

/- All counters are halved when one of them is saturated. -/
def decayFDTIfNeeded (a : Atp) : Atp :=
  if a.fdt.any (fun v => decide (a.config.fdtMax ≤ v)) then
    { a with fdt := a.fdt.map (fun v => v / 2) }
  else a

/- A counter that stays at its largest value. -/
def satInc (v maxv : Nat) : Nat :=
  if v < maxv then v + 1 else v

/- A counter that stays at 0. -/
def satDec (v : Nat) : Nat :=
  if v > 0 then v - 1 else v

/- A free page at this distance was of use. -/
def incrementFDTForDistance (a : Atp) (dist : Int) : Atp :=
  decayFDTIfNeeded
    { a with
      fdt := a.fdt.modify (fdtIndexFromDistance dist)
        (fun v => satInc v a.config.fdtMax) }

/- The counter of the distance is above the threshold. -/
def admits (a : Atp) (dist : Int) : Bool :=
  decide (a.config.fdtThreshold <
    a.fdt.getD (fdtIndexFromDistance dist) 0)

/- The entry of the neighbour is in the same line. -/
def inLine (vpn : BitVec 64) (dist : Int) : Bool :=
  let neighborSlot := ((vpn.toNat % 8 : Nat) : Int) + dist
  decide (0 ≤ neighborSlot ∧ neighborSlot < 8)

/- The page at a distance, around the largest VPN. -/
def neighborOf (vpn : BitVec 64) (dist : Int) : BitVec 64 :=
  vpn + BitVec.ofInt 64 dist

/- The distance at which a pending page was free. -/
def recordFreeMeta
    (a : Atp)
    (vpn : BitVec 64)
    (freeDistance : Int) : Atp :=
  { a with
    freeMeta := Assoc.insert a.freeMeta vpn freeDistance }

/- The page was proposed and has not been hit. -/
def isPending (a : Atp) (vpn : BitVec 64) : Bool :=
  a.pendingVpns.contains vpn

/- A page is proposed. -/
def markPending (a : Atp) (vpn : BitVec 64) : Atp :=
  { a with pendingVpns := List.insert vpn a.pendingVpns }

/- A page is not pending any more. -/
def consumePending (a : Atp) (vpn : BitVec 64) : Atp :=
  { a with
    pendingVpns := a.pendingVpns.filter (fun v => v != vpn) }

/- `lookupAndConsumeFreeMeta`, and the credit on success. -/
def creditFreeMeta (a : Atp) (vpn : BitVec 64) : Atp :=
  match a.freeMeta.lookup vpn with
  | none => a
  | some dist =>
      incrementFDTForDistance
        { a with freeMeta := Assoc.erase a.freeMeta vpn } dist

/- A page takes the place of the oldest one. -/
def samplerInstall
    (a : Atp)
    (vpn : BitVec 64)
    (freeDistance : Int) : Atp :=
  { a with
    sampler :=
      a.sampler.set a.samplerFifoPtr ⟨true, vpn, freeDistance⟩
    samplerFifoPtr :=
      (a.samplerFifoPtr + 1) % a.config.samplerSize }

/- The probe of the sampler, and the credit on a hit. -/
def probeSampler (a : Atp) (vpn : BitVec 64) : Atp :=
  match a.sampler.findIdx?
      (fun e => e.valid && e.vpn == vpn) with
  | none => a
  | some idx =>
      let a := a.incrementFDTForDistance
        ((a.sampler.map SamplerEntry.freeDistance).getD idx 0)
      { a with
        sampler := a.sampler.modify idx
          (fun e => { e with valid := false }) }

/- The page is in the fake queue. -/
def fpqLookup (q : FakeQueue) (vpn : BitVec 64) : Bool :=
  q.entries.any (fun e => e.valid && e.vpn == vpn)

/- A page takes the place of the oldest one. -/
def fpqInstall
    (q : FakeQueue)
    (vpn : BitVec 64) : FakeQueue :=
  { entries := q.entries.set q.fifoPtr ⟨true, vpn⟩
    fifoPtr := (q.fifoPtr + 1) % q.entries.length }

/- The address of a page. -/
def pageAddr (a : Atp) (vpn : BitVec 64) : BitVec 64 :=
  vpn <<< a.config.pageShift

/- `inAnyTLB`, of what the TLBs of the hierarchy contain. -/
def inAnyTLB
    (a : Atp)
    (contains : BitVec 64 → Bool)
    (vpn : BitVec 64) : Bool :=
  contains (a.pageAddr vpn)

------------------------------------------------------------
-- Predictions And Prefetches
------------------------------------------------------------

/- Two strides of the last misses. -/
def predictH2P
    (a : Atp)
    (vpn : BitVec 64) : List (BitVec 64) :=
  if a.h2pHave2 then
    let p1 := vpn + (vpn - a.h2pLast1Vpn)
    let p2 := vpn + (a.h2pLast1Vpn - a.h2pLast2Vpn)
    (if 0 < p1.toInt then [p1] else []) ++
      (if 0 < p2.toInt ∧ p2 ≠ p1 then [p2] else [])
  else []

/- The set in which the instruction is kept. -/
def maspSetIndex (a : Atp) (eip : BitVec 64) : Nat :=
  eip.toNat % a.config.maspSets % 2 ^ 32

/- The index in the table of the entry of an instruction. -/
def maspFind (a : Atp) (eip : BitVec 64) : Option Nat :=
  let base := a.maspSetIndex eip * a.config.maspAssoc
  ((List.range a.config.maspAssoc).map (base + ·)).find?
    (fun i => a.maspTable[i]?.any
      (fun e => e.valid && e.pcTag == eip))

/- The stride of an instruction and its last distance. -/
def predictMASP
    (a : Atp)
    (vpn eip : BitVec 64) : List (BitVec 64) :=
  match (a.maspFind eip).bind (fun i => a.maspTable[i]?) with
  | none => []
  | some e =>
      let p := vpn + e.stride
      let preds :=
        if e.strideValid ∧ e.stride ≠ 0 ∧ 0 < p.toInt then [p]
        else []
      let d := vpn - e.lastMissVpn
      let p2 := vpn + d
      if d ≠ 0 ∧ 0 < p2.toInt ∧ p2 ∉ preds then
        preds ++ [p2]
      else preds

/- The pages next to the miss. -/
def predictSTP (vpn : BitVec 64) : List (BitVec 64) :=
  (if 0 < (vpn - 2).toInt then [vpn - 2] else []) ++
    (if 0 < (vpn - 1).toInt then [vpn - 1] else []) ++
    [vpn + 1, vpn + 2]

/- The predictions of a child for a miss. -/
def predict
    (a : Atp)
    (vpn eip : BitVec 64) :
    AtpChild → List (BitVec 64)
| .h2p => a.predictH2P vpn
| .masp => a.predictMASP vpn eip
| .stp => predictSTP vpn

/- The miss becomes the last one. -/
def updateH2PHistory (a : Atp) (vpn : BitVec 64) : Atp :=
  { a with
    h2pLast2Vpn := a.h2pLast1Vpn
    h2pHave2 := a.h2pHave1
    h2pLast1Vpn := vpn
    h2pHave1 := true }

/- The entry of the instruction, or a free or a replaced one. -/
def updateMASP (a : Atp) (vpn eip : BitVec 64) : Atp :=
  let set := a.maspSetIndex eip
  let base := set * a.config.maspAssoc
  match a.maspFind eip with
  | some i =>
      { a with
        maspTable := a.maspTable.modify i (fun e =>
          { e with
            stride := vpn - e.lastMissVpn
            strideValid := true
            lastMissVpn := vpn }) }
  | none =>
      let fresh : MaspEntry := ⟨true, eip, vpn, 0, false⟩
      match ((List.range a.config.maspAssoc).map
          (base + ·)).find? (fun i =>
            a.maspTable[i]?.any (fun e => !e.valid)) with
      | some i =>
          { a with maspTable := a.maspTable.set i fresh }
      | none =>
          let way := a.maspRrPtr.getD set 0
          { a with
            maspRrPtr := a.maspRrPtr.set set
              ((way + 1) % a.config.maspAssoc)
            maspTable := a.maspTable.set (base + way) fresh }

/- The table of `updateATPCounters`. -/
def updateATPCounters (a : Atp) (h0 h1 h2 : Bool) : Atp :=
  let c := a.config
  let up0 := satInc a.enablePref
    (AtpConfig.counterMax c.enablePrefBits)
  let up1 := satInc a.select1
    (AtpConfig.counterMax c.select1Bits)
  let up2 := satInc a.select2
    (AtpConfig.counterMax c.select2Bits)
  match h0, h1, h2 with
  | false, false, false =>
      { a with enablePref := satDec a.enablePref }
  | false, false, true =>
      { a with
        enablePref := up0
        select1 := satDec a.select1
        select2 := up2 }
  | false, true, false =>
      { a with
        enablePref := up0
        select1 := satDec a.select1
        select2 := satDec a.select2 }
  | false, true, true =>
      { a with
        enablePref := up0
        select1 := satDec a.select1 }
  | true, false, false =>
      { a with enablePref := up0, select1 := up1 }
  | true, false, true =>
      { a with enablePref := up0, select2 := up2 }
  | true, true, false =>
      { a with enablePref := up0, select2 := satDec a.select2 }
  | true, true, true => { a with enablePref := up0 }

/- `msb`, of a counter of some bits. -/
def msb (v width : Nat) : Bool :=
  v.testBit (width - 1)

/- The child that is chosen, unless prefetching is disabled. -/
def chooseATPChild (a : Atp) : Option AtpChild :=
  if !msb a.enablePref a.config.enablePrefBits then none
  else if msb a.select1 a.config.select1Bits then
    some .h2p
  else if msb a.select2 a.config.select2Bits then
    some .stp
  else some .masp

variable {τ : Type}

/- `directPageTableLookupVPN`. -/
def directPageTableLookupVPN
    (w : AtpWalker τ)
    (a : Atp)
    (t : τ)
    (vpn : BitVec 64) : Option (Nat × Nat) × τ :=
  let r := w.initializeWalk t (a.pageAddr vpn)
  (if r.1.faultHappened ∨ r.1.ppn = 0 then none
    else some (r.1.ppn, r.1.pageSize), r.2)

/- `PTWTransparent`: a timed walk, whose fault is not read. -/
def ptwTransparent
    (w : AtpWalker τ)
    (t : τ)
    (address : BitVec 64) : QueryEntry × τ :=
  let r := w.initializeWalk t address
  ({ timestamp := w.completion t address
     pageSize := r.1.pageSize
     ppn := r.1.ppn
     address := address }, r.2)

/- What the loops over pages change. -/
structure Progress (τ : Type) where
  atp : Atp
  walks : τ
  result : List QueryEntry

/- A neighbour is taken along, sampled or left out. -/
def freeStep
    (w : AtpWalker τ)
    (contains : BitVec 64 → Bool)
    (vpn : BitVec 64)
    (completion : Nat)
    (s : Progress τ)
    (dist : Int) : Progress τ :=
  if inLine vpn dist then
    let neighbor := neighborOf vpn dist
    let r := directPageTableLookupVPN w s.atp s.walks neighbor
    match r.1 with
    | none => { s with walks := r.2 }
    | some (ppn, pageSize) =>
        if s.atp.admits dist then
          if s.atp.inAnyTLB contains neighbor ∨
              s.atp.isPending neighbor then
            { s with walks := r.2 }
          else
            { atp := (s.atp.recordFreeMeta neighbor
                dist).markPending neighbor
              walks := r.2
              result := s.result ++
                [⟨completion, pageSize, ppn,
                  s.atp.pageAddr neighbor⟩] }
        else
          { s with
            atp := s.atp.samplerInstall neighbor dist
            walks := r.2 }
  else s

/-
  `processFreePTEsFromCompletedWalk`. Every caller inserts
  into the real queue.
-/
def processFreePTEs
    (w : AtpWalker τ)
    (contains : BitVec 64 → Bool)
    (vpn : BitVec 64)
    (pageSize completion : Nat)
    (s : Progress τ) : Progress τ :=
  if pageSize ≠ s.atp.config.pageShift then s
  else
    distances.foldl (freeStep w contains vpn completion) s

/- One distance of `getSBFPAdmittedFreeVPNs`. -/
def admittedStep
    (w : AtpWalker τ)
    (a : Atp)
    (vpn : BitVec 64)
    (s : List (BitVec 64) × τ)
    (dist : Int) : List (BitVec 64) × τ :=
  if inLine vpn dist ∧ a.admits dist then
    let neighbor := neighborOf vpn dist
    let r := directPageTableLookupVPN w a s.2 neighbor
    (if r.1.isSome then s.1 ++ [neighbor] else s.1, r.2)
  else s

/- `getSBFPAdmittedFreeVPNs`. -/
def admittedFreeVPNs
    (w : AtpWalker τ)
    (a : Atp)
    (t : τ)
    (vpn : BitVec 64) : List (BitVec 64) × τ :=
  distances.foldl (admittedStep w a vpn) ([], t)

/- One target of the loop that issues real prefetches. -/
def issueStep
    (w : AtpWalker τ)
    (contains : BitVec 64 → Bool)
    (s : Progress τ)
    (target : BitVec 64) : Progress τ :=
  if target = 0 ∨ s.atp.inAnyTLB contains target ∨
      s.atp.isPending target then s
  else
    let r := ptwTransparent w s.walks (s.atp.pageAddr target)
    if r.1.ppn ≠ 0 then
      let s' := processFreePTEs w contains target r.1.pageSize
        r.1.timestamp
        { s with
          atp := s.atp.markPending target
          walks := r.2 }
      { s' with result := s'.result ++ [r.1] }
    else { s with walks := r.2 }

/- The loop over the predictions of the chosen child. -/
def issue
    (w : AtpWalker τ)
    (contains : BitVec 64 → Bool)
    (preds : List (BitVec 64))
    (s : Progress τ) : Progress τ :=
  preds.foldl (issueStep w contains) s

/- One prediction of the loop that fills a fake queue. -/
def fakeStep
    (w : AtpWalker τ)
    (a : Atp)
    (s : List (BitVec 64) × τ)
    (fvpn : BitVec 64) : List (BitVec 64) × τ :=
  if fvpn = 0 then s
  else
    let r := directPageTableLookupVPN w a s.2 fvpn
    if r.1.isSome then
      let free := admittedFreeVPNs w a r.2 fvpn
      (s.1 ++ fvpn :: free.1, free.2)
    else (s.1, r.2)

/- The pages that are put into the fake queue of a child. -/
def fakeTargets
    (w : AtpWalker τ)
    (a : Atp)
    (preds : List (BitVec 64))
    (t : τ) : List (BitVec 64) × τ :=
  preds.foldl (fakeStep w a) ([], t)

/- The fake queue of one child is filled. -/
def updateFpq
    (w : AtpWalker τ)
    (vpn eip : BitVec 64)
    (s : Atp × τ)
    (child : AtpChild) : Atp × τ :=
  let r := fakeTargets w s.1 (s.1.predict vpn eip child) s.2
  ({ s.1 with
     fpq := Function.update s.1.fpq child
       (r.1.foldl fpqInstall (s.1.fpq child)) }, r.2)

/- What a call reads from outside. -/
structure AtpCall where
  address : BitVec 64
  eip : BitVec 64
  contains : BitVec 64 → Bool

/- The page of the call. -/
def AtpCall.vpn (call : AtpCall) (a : Atp) : BitVec 64 :=
  call.address >>> a.config.pageShift

/- A hit of a prefetched page is credited. -/
def consumeHit (a : Atp) (vpn : BitVec 64) : Atp :=
  (a.consumePending vpn).creditFreeMeta vpn

/- The demand walk of a miss and its free neighbours. -/
def demandWalk
    (w : AtpWalker τ)
    (call : AtpCall)
    (a : Atp)
    (t : τ) : Progress τ :=
  let vpn := call.vpn a
  let r := ptwTransparent w t call.address
  let s : Progress τ := ⟨a.probeSampler vpn, r.2, []⟩
  if r.1.ppn ≠ 0 then
    processFreePTEs w call.contains vpn r.1.pageSize r.1.timestamp s
  else s

/- The fake queues are probed and the counters updated. -/
def rateChildren (a : Atp) (vpn : BitVec 64) : Atp :=
  a.updateATPCounters (fpqLookup (a.fpq .h2p) vpn)
    (fpqLookup (a.fpq .masp) vpn) (fpqLookup (a.fpq .stp) vpn)

/- The real prefetches of the chosen child, after a miss. -/
def issueChosen
    (w : AtpWalker τ)
    (call : AtpCall)
    (s : Progress τ) : Progress τ :=
  let vpn := call.vpn s.atp
  match s.atp.chooseATPChild with
  | none => s
  | some child =>
      issue w call.contains (s.atp.predict vpn call.eip child) s

/- The fake queues and the histories, after a miss. -/
def train
    (w : AtpWalker τ)
    (call : AtpCall)
    (a : Atp)
    (t : τ) : Atp × τ :=
  let vpn := call.vpn a
  let s := [AtpChild.h2p, .masp, .stp].foldl
    (updateFpq w vpn call.eip) (a, t)
  ((s.1.updateH2PHistory vpn).updateMASP vpn call.eip, s.2)

/- The walks of a miss, which make the list of prefetches. -/
def handleMiss
    (w : AtpWalker τ)
    (call : AtpCall)
    (a : Atp)
    (t : τ) : Progress τ :=
  let s := demandWalk w call a t
  issueChosen w call
    { s with atp := s.atp.rateChildren (call.vpn a) }

/- The state after a hit of a prefetched page. -/
def afterHit
    (call : AtpCall)
    (pqHit : Bool)
    (a : Atp) : Atp :=
  if pqHit then a.consumeHit (call.vpn a) else a

/- `performPrefetch`. -/
def performPrefetch
    (w : AtpWalker τ)
    (call : AtpCall)
    (tlbHit pqHit : Bool)
    (a : Atp)
    (t : τ) : Progress τ :=
  let a := afterHit call pqHit a
  if tlbHit then ⟨a, t, []⟩
  else
    let s := handleMiss w call a t
    let r := train w call s.atp s.walks
    ⟨r.1, r.2, s.result⟩

end Atp

end Virtuoso
