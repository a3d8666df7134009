import Virtuoso.Numa.Basic
import Virtuoso.ReserveThp.Basic

/-
  The reservation allocator of `numa_reserve_thp.h`.

  Every node has a map of regions of its own. The node of a
  request is chosen by the policy from the loads of the nodes
  and the node of the faulting core. When it cannot serve the
  request, the other nodes are tried in order.

  A load is the quotient of two doubles; `quotient` stands
  for the division, whose rounding is left open. The hints
  and counters of the placement engine, which the choice of a
  node does not read, the statistics and the log are left
  out. `pick` selects one of the least used regions, as for
  the allocator without nodes.

  Key definitions include:
    * `PlacementEngine.selectAllocationNode`
    * `NumaReserveThp.allocate`
-/

namespace Virtuoso

/- The policies of placement. -/
inductive NumaPolicy
  | cpuLocal
  | bind
  | interleave
  | preferred
deriving DecidableEq

/- The use of a node. -/
structure NodeLoad where
  capacityBytes : Nat
  usedBytes : Nat

/- The engine that selects a node. -/
structure PlacementEngine where
  policy : NumaPolicy
  utilizationThreshold : ℚ
  quotient : Nat → Nat → ℚ
  nodes : List NodeLoad
  bindMask : List Bool
  preferredNode : Nat

namespace PlacementEngine

/- The part of a node that is in use. -/
def utilization (e : PlacementEngine) (n : NodeLoad) : ℚ :=
  if n.capacityBytes = 0 then 0
  else e.quotient n.usedBytes n.capacityBytes

/- The node exists and is used less than the threshold. -/
def belowThreshold
    (e : PlacementEngine)
    (nodeId : Nat) : Bool :=
  (e.nodes[nodeId]?).any (fun n =>
    decide (e.utilization n < e.utilizationThreshold))

/-
  The least used of the allowed nodes. The search starts with
  node 0 and the double next to 1.1.
-/
def leastUtilized
    (e : PlacementEngine)
    (allowed : Nat → Bool) : Nat :=
  (e.nodes.zipIdx.foldl
    (fun (best : Nat × ℚ) n =>
      if allowed n.2 ∧ e.utilization n.1 < best.2 then
        (n.2, e.utilization n.1)
      else
        best)
    (0, 2476979795053773 / 2251799813685248)).1

/- `selectAllocationNode`. -/
def selectAllocationNode
    (e : PlacementEngine)
    (vpn cpuLocalNode : Nat) : Nat :=
  match e.policy with
  | .cpuLocal =>
      if e.belowThreshold cpuLocalNode then cpuLocalNode
      else e.leastUtilized (fun _ => true)
  | .bind =>
      e.leastUtilized (fun i => e.bindMask.getD i false)
  | .interleave => vpn % e.nodes.length
  | .preferred =>
      if e.belowThreshold e.preferredNode then e.preferredNode
      else e.leastUtilized (fun _ => true)

/- `recordAllocation`. -/
def recordAllocation
    (e : PlacementEngine)
    (nodeId bytes : Nat) : PlacementEngine :=
  { e with
    nodes := e.nodes.modify nodeId (fun n =>
      { n with
        usedBytes := (n.usedBytes + bytes) % 2 ^ 64 }) }

end PlacementEngine

/- The allocator, with a map of regions for each node. -/
structure NumaReserveThp where
  numa : NumaBuddy
  engine : PlacementEngine
  twoMbMaps : List TwoMbMap
  thresholdForPromotion : ℚ
  coresPerNode : Nat

/- The answer to a request, with the node that it is from. -/
structure NumaPlacement where
  nodeId : Nat
  frame : Nat
  pageSize : Nat

namespace NumaReserveThp

/- The engine as the constructor configures it. -/
def engineOf
    (policy : NumaPolicy)
    (utilizationThreshold : ℚ)
    (quotient : Nat → Nat → ℚ)
    (sizes : List NodeSize) : PlacementEngine :=
  { policy := policy
    utilizationThreshold := utilizationThreshold
    quotient := quotient
    nodes := sizes.map (fun size =>
      ⟨Buddy.sub64 size.memMb size.kernelMb * 2 ^ 20 % 2 ^ 64, 0⟩)
    bindMask := sizes.map (fun _ => true)
    preferredNode := 0 }

/- `NumaReservationTHPAllocator`. -/
def construct
    (maxOrder coresTotal : Nat)
    (sizes : List NodeSize)
    (engine : PlacementEngine)
    (thresholdForPromotion : ℚ) :
    Option NumaReserveThp :=
  (NumaBuddy.construct 0 maxOrder sizes).map (fun numa =>
    { numa := numa
      engine := engine
      twoMbMaps := numa.nodes.map (fun _ => [])
      thresholdForPromotion := thresholdForPromotion
      coresPerNode :=
        NumaKernel.coresOf coresTotal numa.nodes.length })

/- The map of a node with one region replaced. -/
def setRegion
    (s : NumaReserveThp)
    (nodeId : Nat)
    (map : TwoMbMap)
    (key : Nat)
    (region : Region) : NumaReserveThp :=
  { s with
    twoMbMaps := s.twoMbMaps.set nodeId
      ((key, region) :: TwoMbMap.erase map key) }

/-
  The second half of `checkFor2MBAllocationOnNode`: mark the
  page and promote the region above the threshold.
-/
def markOnNode
    (s : NumaReserveThp)
    (nodeId : Nat)
    (map : TwoMbMap)
    (key : Nat)
    (region : Region)
    (offset : Nat) :
    Option ((Nat × Bool) × NumaReserveThp) :=
  if region.promoted then
    none
  else
    let marked :=
      { region with
        bitset := Function.update region.bitset offset true }
    if (marked.count : ℚ) / 512 > s.thresholdForPromotion
    then
      some ((region.regionBegin, true),
        s.setRegion nodeId map key
          { marked with promoted := true })
    else
      some ((region.regionBegin + offset, false),
        s.setRegion nodeId map key marked)

/- `checkFor2MBAllocationOnNode`. -/
def checkFor2MBAllocationOnNode
    (s : NumaReserveThp)
    (address nodeId : Nat) :
    Option (Option (Nat × Bool) × NumaReserveThp) :=
  let region2MB := address / 2 ^ 21
  let offset := address / 2 ^ 12 % 512
  match s.twoMbMaps[nodeId]? with
  | none => some (none, s)
  | some map =>
      match map.lookup region2MB with
      | some region =>
          (s.markOnNode nodeId map region2MB region
            offset).map (fun r => (some r.1, r.2))
      | none =>
          match s.numa.reserve2MBPage nodeId with
          | none => none
          | some (none, numa) =>
              some (none, { s with numa := numa })
          | some (some first, numa) =>
              (markOnNode { s with numa := numa } nodeId map
                region2MB ⟨first, fun _ => false, false⟩
                offset).map (fun r => (some r.1, r.2))

/- Free every block of a list. -/
def freeAll
    (a : NumaBuddy)
    (blocks : List Span) : NumaBuddy :=
  blocks.foldl (fun a t => a.free t.start t.stop) a

/- `demote_page_on_node`, where a region is demoted. -/
def demotePageOnNode
    (s : NumaReserveThp)
    (nodeId pick : Nat) :
    Option NumaReserveThp :=
  (s.twoMbMaps[nodeId]?).bind (fun map =>
    (ReserveThp.utilizationFront map pick).map (fun e =>
      { s with
        numa := freeAll s.numa e.2.putBack
        twoMbMaps := s.twoMbMaps.set nodeId
          (TwoMbMap.erase map e.1) }))

/- Count an allocation of 4KB on a node. -/
def record
    (s : NumaReserveThp)
    (nodeId : Nat) : NumaReserveThp :=
  { s with
    engine := s.engine.recordAllocation nodeId 4096 }

/-
  Try a node: a page of the region of the address, or a page
  of the buddy allocator.
-/
def tryNode
    (s : NumaReserveThp)
    (bytes address nodeId : Nat) :
    Option (Option NumaPlacement × NumaReserveThp) :=
  match s.checkFor2MBAllocationOnNode address nodeId with
  | none => none
  | some (some (frame, promoted), s') =>
      some (some ⟨nodeId, frame, if promoted then 21 else 12⟩,
        s'.record nodeId)
  | some (none, s') =>
      match s'.numa.allocate nodeId bytes with
      | none => none
      | some (some frame, numa) =>
          some (some ⟨nodeId, frame, 12⟩,
            record { s' with numa := numa } nodeId)
      | some (none, numa) =>
          some (none, { s' with numa := numa })

/- The loop over the other nodes; without memory it aborts. -/
def spill
    (bytes address : Nat) :
    List Nat → NumaReserveThp →
      Option (NumaPlacement × NumaReserveThp)
| [], _ => none
| n :: ns, s =>
    match s.tryNode bytes address n with
    | none => none
    | some (some placement, s') => some (placement, s')
    | some (none, s') => spill bytes address ns s'

/- The node that a request is directed to. -/
def targetNode
    (s : NumaReserveThp)
    (address coreId : Nat) : Nat :=
  s.engine.selectAllocationNode (address / 2 ^ 12)
    (NumaKernel.nodeOfCore s.coresPerNode s.numa.nodes.length
      coreId)

/- The nodes other than the target, in order. -/
def otherNodes
    (s : NumaReserveThp)
    (target : Nat) : List Nat :=
  (List.range s.numa.nodes.length).filter (fun n =>
    decide (n ≠ target))

/- The retry after a demotion on the target node. -/
def retry
    (s : NumaReserveThp)
    (bytes nodeId pick : Nat) :
    Option (Option NumaPlacement × NumaReserveThp) :=
  match s.demotePageOnNode nodeId pick with
  | none => some (none, s)
  | some s' =>
      (s'.numa.allocate nodeId bytes).map (fun r =>
        match r with
        | (some frame, numa) =>
            (some ⟨nodeId, frame, 12⟩,
              record { s' with numa := numa } nodeId)
        | (none, numa) => (none, { s' with numa := numa }))

/- `NumaReservationTHPAllocator::allocate`. -/
def allocate
    (s : NumaReserveThp)
    (bytes address coreId pick : Nat) :
    Option (NumaPlacement × NumaReserveThp) :=
  let target := s.targetNode address coreId
  match s.tryNode bytes address target with
  | none => none
  | some (some placement, s') => some (placement, s')
  | some (none, s') =>
      match s'.retry bytes target pick with
      | none => none
      | some (some placement, s'') => some (placement, s'')
      | some (none, s'') =>
          spill bytes address (s.otherNodes target) s''

end NumaReserveThp

end Virtuoso
