import Virtuoso.Buddy.Basic

/-
  The memory of the NUMA nodes, from `numa_buddy_allocator.h`
  and the kernel pages of `numa_reserve_thp.h`.

  Every node has a buddy allocator for its own page numbers,
  which are shifted by the first page of the node. The kernel
  pages of a node are handed out by a pointer of the node.
  Page numbers have 64 bits, and sizes in megabytes are cast
  to `int` for the buddy allocators. A size that is negative
  as an `int` makes the constructor fill the memory of the
  host, and there is no allocator then.

  Key definitions include:
    * `NumaBuddy`
    * `NumaKernel.handlePageTableAllocations`
-/

namespace Virtuoso

/- `NodeBuddy`. -/
structure NumaNode where
  buddy : Buddy
  basePfn : Nat
  numPages : Nat
  kernelPages : Nat

/- The allocators of all nodes. -/
structure NumaBuddy where
  nodes : List NumaNode

/- The capacity of a node and its kernel part, in megabytes. -/
structure NodeSize where
  memMb : Nat
  kernelMb : Nat

/- `mb * 1024 / 4` in 64 bits. -/
def pagesOfMb (mb : Nat) : Nat :=
  mb * 1024 % 2 ^ 64 / 4

/- `static_cast<int>` of a size, where it is not negative. -/
def castInt (mb : Nat) : Option Nat :=
  if mb % 2 ^ 32 < 2 ^ 31 then some (mb % 2 ^ 32) else none

namespace NumaBuddy

/- The buddy allocator of a node. -/
def nodeBuddy
    (maxOrder : Nat)
    (size : NodeSize) :
    Option Buddy :=
  (castInt size.memMb).bind (fun mem =>
    (castInt size.kernelMb).bind (fun kernel =>
      Buddy.construct mem maxOrder kernel))

/- The loop of the constructor, from page `currentPfn` on. -/
def addNodes
    (maxOrder : Nat) :
    Nat → List NodeSize → Option (List NumaNode)
| _, [] => some []
| currentPfn, size :: sizes =>
    (nodeBuddy maxOrder size).bind (fun b =>
      (addNodes maxOrder
        ((currentPfn + pagesOfMb size.memMb) % 2 ^ 64)
        sizes).map
          (fun nodes =>
            ⟨b, currentPfn, pagesOfMb size.memMb,
              pagesOfMb size.kernelMb⟩ :: nodes))

/- `NumaBuddyAllocator::NumaBuddyAllocator`. -/
def construct
    (globalKernelMb maxOrder : Nat)
    (sizes : List NodeSize) :
    Option NumaBuddy :=
  if sizes = [] then
    none
  else
    (addNodes maxOrder (pagesOfMb globalKernelMb) sizes).map
      NumaBuddy.mk

/- The node with another buddy allocator. -/
def setBuddy
    (a : NumaBuddy)
    (nodeId : Nat)
    (node : NumaNode)
    (b : Buddy) : NumaBuddy :=
  ⟨a.nodes.set nodeId { node with buddy := b }⟩

/- `NumaBuddyAllocator::allocate`. -/
def allocate
    (a : NumaBuddy)
    (nodeId bytes : Nat) :
    Option (Option Nat × NumaBuddy) :=
  match a.nodes[nodeId]? with
  | none => some (none, a)
  | some node =>
      (node.buddy.allocate bytes).map
        (fun r =>
          (r.1.map (fun localPfn =>
              (localPfn + node.basePfn) % 2 ^ 64),
            a.setBuddy nodeId node r.2))

/- `NumaBuddyAllocator::reserve2MBPage`: the first page. -/
def reserve2MBPage
    (a : NumaBuddy)
    (nodeId : Nat) :
    Option (Option Nat × NumaBuddy) :=
  match a.nodes[nodeId]? with
  | none => some (none, a)
  | some node =>
      node.buddy.reserve2mbPage.map
        (fun r =>
          (r.1.map (fun block =>
              (block.start + node.basePfn) % 2 ^ 64),
            a.setBuddy nodeId node r.2))

/- `NumaBuddyAllocator::getNodeForPFN`. -/
def getNodeForPfn (a : NumaBuddy) (globalPfn : Nat) : Nat :=
  (a.nodes.findIdx? (fun node =>
    decide (node.basePfn ≤ globalPfn) &&
      decide (globalPfn <
        (node.basePfn + node.numPages) % 2 ^ 64))).getD 0

/- `NumaBuddyAllocator::free`. -/
def free
    (a : NumaBuddy)
    (globalStartPfn globalEndPfn : Nat) : NumaBuddy :=
  let nodeId := a.getNodeForPfn globalStartPfn
  match a.nodes[nodeId]? with
  | none => a
  | some node =>
      a.setBuddy nodeId node
        (node.buddy.free
          (Buddy.sub64 globalStartPfn node.basePfn)
          (Buddy.sub64 globalEndPfn node.basePfn))

end NumaBuddy

/- The pointers of `NumaReservationTHPAllocator`. -/
structure NumaKernel where
  coresPerNode : Nat
  nextPfn : List Nat
  endPfn : List Nat

namespace NumaKernel

/- The number of cores of a node. -/
def coresOf (coresTotal numNodes : Nat) : Nat :=
  if 0 < coresTotal ∧ 0 < numNodes then
    max (coresTotal / numNodes) 1
  else
    1

/- The pointers as the constructor sets them. -/
def construct
    (coresTotal : Nat)
    (a : NumaBuddy) : NumaKernel :=
  { coresPerNode := coresOf coresTotal a.nodes.length
    nextPfn := a.nodes.mapIdx (fun i node =>
      if i = 0 then (node.basePfn + 1) % 2 ^ 64
      else node.basePfn)
    endPfn := a.nodes.map (fun node =>
      (node.basePfn + node.kernelPages) % 2 ^ 64) }

/- The node of a core. -/
def nodeOfCore (coresPerNode numNodes coreId : Nat) : Nat :=
  if 1 < numNodes ∧ coreId ≠ 2 ^ 64 - 1 then
    min (coreId % 2 ^ 32 / coresPerNode) (numNodes - 1)
  else
    0

/- The pages of a node from its pointer on are enough. -/
def hasRoom (k : NumaKernel) (pages nodeId : Nat) : Bool :=
  match k.nextPfn[nodeId]?, k.endPfn[nodeId]? with
  | some next, some last =>
      decide ((next + pages) % 2 ^ 64 ≤ last)
  | _, _ => false

/- Hand out pages of a node. -/
def advance
    (k : NumaKernel)
    (pages nodeId : Nat) :
    Option ((Nat × Nat) × NumaKernel) :=
  (k.nextPfn[nodeId]?).map (fun pfn =>
    ((nodeId, pfn),
      { k with
        nextPfn := k.nextPfn.set nodeId ((pfn + pages) % 2 ^ 64) }))

/- The number of pages of a request, rounded up. -/
def pagesNeeded (bytes : Nat) : Nat :=
  (bytes + 4095) % 2 ^ 64 / 4096

/-
  `handle_page_table_allocations`: the node that serves the
  request and the page number. Without room on any node an
  assertion fails.
-/
def handlePageTableAllocations
    (k : NumaKernel)
    (bytes coreId : Nat) :
    Option ((Nat × Nat) × NumaKernel) :=
  let numNodes := k.nextPfn.length
  let target := nodeOfCore k.coresPerNode numNodes coreId
  let pages := pagesNeeded bytes
  if k.hasRoom pages target then
    k.advance pages target
  else
    ((List.range numNodes).find? (fun n =>
      decide (n ≠ target) && k.hasRoom pages n)).bind
        (k.advance pages)

end NumaKernel

end Virtuoso
