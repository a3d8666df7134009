import Mathlib.Algebra.BigOperators.Group.List.Basic
import Mathlib.Tactic.Linarith
import Virtuoso.Buddy.Within
import Virtuoso.Lib.Run
import Virtuoso.Numa.Basic

/-
  The page ranges of the NUMA nodes.

  The nodes split the memory into consecutive ranges, with
  the kernel pages first. The pages that are handed out for a
  node stay in its range as long as the pages that are put
  back do, and the sizes fit into the page numbers.

  Main declarations:
    * `Numa.partitioned_along`
-/

------------------------------------------------------------
-- The System And Its Invariant
------------------------------------------------------------

namespace Virtuoso

/- The pages of a node, with its kernel pages first. -/
structure NodeRange where
  basePfn : Nat
  numPages : Nat
  kernelPages : Nat
deriving DecidableEq

namespace NodeRange

/- The frame lies in the range. -/
def Has (r : NodeRange) (p : Nat) : Prop :=
  r.basePfn ≤ p ∧ p < r.basePfn + r.numPages

/- The page is not one of the kernel. -/
def HasData (r : NodeRange) (p : Nat) : Prop :=
  r.basePfn + r.kernelPages ≤ p ∧ p < r.basePfn + r.numPages

/- The frame is one of the kernel's in the range. -/
def HasKernel (r : NodeRange) (p : Nat) : Prop :=
  r.Has p ∧ p < r.basePfn + r.kernelPages

end NodeRange

/- The range of frames of a node. -/
def NumaNode.range (n : NumaNode) : NodeRange :=
  ⟨n.basePfn, n.numPages, n.kernelPages⟩

/- The ranges of all nodes. -/
def NumaBuddy.ranges (a : NumaBuddy) : List NodeRange :=
  a.nodes.map NumaNode.range

namespace Numa

/- Pages that were returned for a node. -/
structure Grant where
  nodeId : Nat
  pages : Span
deriving DecidableEq

/- The allocator and all pages that it has returned. -/
structure System where
  numa : NumaBuddy
  kernel : NumaKernel
  data : List Grant
  tables : List Grant

/- The calls of the allocator. -/
inductive Op
  | allocate (nodeId bytes : Nat)
  | reserve2MBPage (nodeId : Nat)
  | free (globalStartPfn globalEndPfn : Nat)
  | handlePageTableAllocations (bytes coreId : Nat)

/- The grant of a block of pages. -/
def granted
    (nodeId count : Nat)
    (page : Option Nat) : List Grant :=
  match page with
  | none => []
  | some p => [⟨nodeId, ⟨p, p + count - 1⟩⟩]

/- One call, with the frames that it grants. -/
def step (s : System) : Op → Option System
| .allocate nodeId bytes =>
    (s.numa.allocate nodeId bytes).map
      (fun r =>
        { s with
          numa := r.2
          data := granted nodeId
            (2 ^ Buddy.orderOf (bytes / 4096)) r.1 ++ s.data })
| .reserve2MBPage nodeId =>
    (s.numa.reserve2MBPage nodeId).map
      (fun r =>
        { s with
          numa := r.2
          data := granted nodeId 512 r.1 ++ s.data })
| .free globalStartPfn globalEndPfn =>
    some
      { s with
        numa := s.numa.free globalStartPfn globalEndPfn }
| .handlePageTableAllocations bytes coreId =>
    (s.kernel.handlePageTableAllocations bytes coreId).map
      (fun r =>
        { s with
          kernel := r.2
          tables := granted r.1.1
            (NumaKernel.pagesNeeded bytes) (some r.1.2) ++
              s.tables })

/- The system before the first call. -/
def start (coresTotal : Nat) (a : NumaBuddy) : System :=
  ⟨a, NumaKernel.construct coresTotal a, [], []⟩

/- The pages of a grant are pages of its node. -/
def Lies
    (s : System)
    (part : NodeRange → Nat → Prop)
    (g : Grant) : Prop :=
  ∃ r, s.numa.ranges[g.nodeId]? = some r ∧
    ∀ p, g.pages.Has p →
      part r p ∧ s.numa.getNodeForPfn p = g.nodeId

/-
  The nodes partition the pages: `getNodeForPFN` inverts the
  ranges, data pages are in the range of their node, page
  tables in its kernel part, and no page is shared by data
  and page tables or by two nodes.
-/
structure Partitioned (s : System) : Prop where
  inverts : ∀ (i : Nat) (r : NodeRange),
    s.numa.ranges[i]? = some r →
      ∀ p, r.Has p → s.numa.getNodeForPfn p = i
  data : ∀ g ∈ s.data, Lies s NodeRange.HasData g
  tables : ∀ g ∈ s.tables, Lies s NodeRange.HasKernel g
  separate : ∀ g ∈ s.tables, ∀ g' ∈ s.data, g.pages.Apart g'.pages
  nodes : ∀ g ∈ s.data ++ s.tables,
    ∀ g' ∈ s.data ++ s.tables, g.nodeId ≠ g'.nodeId →
      g.pages.Apart g'.pages

/-
  The kernel part of a node is no larger than the node and no
  larger than an `int`, and the memory fits into the numbers.
-/
def Sound
    (globalKernelMb : Nat)
    (sizes : List NodeSize) : Prop :=
  (∀ size ∈ sizes,
      size.kernelMb ≤ size.memMb ∧ size.kernelMb < 2 ^ 31) ∧
    (globalKernelMb + (sizes.map NodeSize.memMb).sum) * 1024 <
      2 ^ 64

/-
  A request is for a page at least. What is put back is,
  rounded up to a power of two, a part of the data pages of
  one node, and the node has a free list for its order. Page
  tables have pages.
-/
def Meets (s : System) : Op → Prop
| .allocate _ bytes => 4096 ≤ bytes
| .reserve2MBPage _ => True
| .free globalStartPfn globalEndPfn =>
    globalStartPfn ≤ globalEndPfn ∧
      ∃ node ∈ s.numa.nodes,
        node.basePfn + node.kernelPages ≤ globalStartPfn ∧
          globalStartPfn + 2 ^ Buddy.orderOf
              (globalEndPfn - globalStartPfn + 1) ≤
            node.basePfn + node.numPages ∧
          Buddy.orderOf (globalEndPfn - globalStartPfn + 1) <
            2 * (node.buddy.maxOrder + 1)
| .handlePageTableAllocations bytes _ =>
    0 < bytes ∧ bytes + 4095 < 2 ^ 64

/- Consecutive ranges that fit into the page numbers. -/
structure Laid (ranges : List NodeRange) : Prop where
  ordered : ranges.Pairwise (fun r r' =>
    r.basePfn + r.numPages ≤ r'.basePfn)
  small : ∀ r ∈ ranges, r.kernelPages ≤ r.numPages ∧
    r.basePfn + r.numPages ≤ 2 ^ 62

variable {a : NumaBuddy}

theorem getNodeForPfn_eq
    (a : NumaBuddy)
    (p : Nat) :
    a.getNodeForPfn p =
      (a.ranges.findIdx? (fun r =>
        decide (r.basePfn ≤ p) &&
          decide (p < (r.basePfn + r.numPages) %
            2 ^ 64))).getD 0 := by
  unfold NumaBuddy.getNodeForPfn NumaBuddy.ranges
  rw [List.findIdx?_map]
  rfl

/- `getNodeForPFN` inverts the ranges. -/
theorem Laid.getNodeForPfn
    (hLaid : Laid a.ranges)
    {i : Nat}
    {r : NodeRange}
    (hGet : a.ranges[i]? = some r)
    {p : Nat}
    (hHas : r.Has p) :
    a.getNodeForPfn p = i := by
  rcases List.getElem?_eq_some_iff.mp hGet with ⟨hLt, hEq⟩
  have hWrap : ∀ r ∈ a.ranges,
      (r.basePfn + r.numPages) % 2 ^ 64 =
        r.basePfn + r.numPages := by
    intro r hMem
    have hSmall := (hLaid.small r hMem).2
    exact Nat.mod_eq_of_lt (by omega)
  have hFound : a.ranges.findIdx? (fun r =>
      decide (r.basePfn ≤ p) &&
        decide (p < (r.basePfn + r.numPages) % 2 ^ 64)) =
          some i := by
    rw [List.findIdx?_eq_some_iff_getElem]
    refine ⟨hLt, ?_, fun j hJ => ?_⟩
    · rw [hWrap _ (List.getElem_mem hLt), hEq]
      simp [hHas.1, hHas.2]
    · have hBefore := List.pairwise_iff_getElem.mp
        hLaid.ordered j i (Nat.lt_trans hJ hLt) hLt hJ
      rw [hEq] at hBefore
      rw [hWrap _ (List.getElem_mem _)]
      have hLow := hHas.1
      have hNot : ¬ p < a.ranges[j].basePfn +
          a.ranges[j].numPages := by
        omega
      simp [hNot]
  rw [getNodeForPfn_eq, hFound, Option.getD_some]

/- Ranges of two nodes share no page. -/
theorem Laid.same
    (hLaid : Laid a.ranges)
    {i j : Nat}
    {r r' : NodeRange}
    (hGet : a.ranges[i]? = some r)
    (hGet' : a.ranges[j]? = some r')
    {p : Nat}
    (hHas : r.Has p)
    (hHas' : r'.Has p) :
    i = j :=
  (hLaid.getNodeForPfn hGet hHas).symm.trans
    (hLaid.getNodeForPfn hGet' hHas')

variable {nodeId : Nat}

theorem ranges_setBuddy
    {node : NumaNode}
    (hGet : a.nodes[nodeId]? = some node)
    (b : Buddy) :
    (a.setBuddy nodeId node b).ranges = a.ranges := by
  rcases List.getElem?_eq_some_iff.mp hGet with ⟨hLt, hEq⟩
  unfold NumaBuddy.ranges NumaBuddy.setBuddy
  rw [List.map_set]
  have hIn : nodeId < (a.nodes.map NumaNode.range).length := by
    rw [List.length_map]
    exact hLt
  have hAt : (a.nodes.map NumaNode.range)[nodeId] =
      NumaNode.range { node with buddy := b } := by
    rw [List.getElem_map, hEq]
    rfl
  rw [← hAt]
  exact List.set_getElem_self hIn

/- The pages of a grant are in a part of the range. -/
def Placed
    (ranges : List NodeRange)
    (part : NodeRange → Nat → Prop)
    (g : Grant) : Prop :=
  ∃ r, ranges[g.nodeId]? = some r ∧ ∀ p, g.pages.Has p → part r p

/- The pointer of a node is behind its first page. -/
def Pointed
    (k : NumaKernel)
    (i : Nat)
    (r : NodeRange) : Prop :=
  ∃ next, k.nextPfn[i]? = some next ∧
    k.endPfn[i]? = some (r.basePfn + r.kernelPages) ∧
    r.basePfn ≤ next ∧ next ≤ 2 ^ 62 + 1

/- The nodes hold and grant frames of their own only. -/
structure Inv (s : System) : Prop where
  laid : Laid s.numa.ranges
  within : ∀ node ∈ s.numa.nodes,
    Buddy.Within node.kernelPages (fun _ => node.numPages)
      node.buddy.freeList
  lengths : s.kernel.nextPfn.length = s.numa.ranges.length
  pointed : ∀ (i : Nat) (r : NodeRange),
    s.numa.ranges[i]? = some r → Pointed s.kernel i r
  data : ∀ g ∈ s.data, Placed s.numa.ranges NodeRange.HasData g
  tables : ∀ g ∈ s.tables,
    Placed s.numa.ranges NodeRange.HasKernel g

variable {s s' : System}

theorem has_of_hasData
    {r : NodeRange}
    {p : Nat}
    (hHas : r.HasData p) :
    r.Has p := by
  rcases hHas with ⟨hLow, hHigh⟩
  exact ⟨by omega, hHigh⟩

/- Placed grants lie on their nodes. -/
theorem Laid.lies
    (hLaid : Laid s.numa.ranges)
    {part : NodeRange → Nat → Prop}
    (hPart : ∀ r p, part r p → r.Has p)
    {g : Grant}
    (hPlaced : Placed s.numa.ranges part g) :
    Lies s part g := by
  rcases hPlaced with ⟨r, hGet, hPages⟩
  refine ⟨r, hGet, fun p hHas => ⟨hPages p hHas, ?_⟩⟩
  exact hLaid.getNodeForPfn hGet (hPart r p (hPages p hHas))

theorem Inv.partitioned
    (hInv : Inv s) :
    Partitioned s := by
  have hPlaced : ∀ g ∈ s.data ++ s.tables,
      Placed s.numa.ranges NodeRange.Has g := by
    intro g hMem
    rcases List.mem_append.mp hMem with hData | hTable
    · rcases hInv.data g hData with ⟨r, hGet, hPages⟩
      exact ⟨r, hGet, fun p hHas =>
        has_of_hasData (hPages p hHas)⟩
    · rcases hInv.tables g hTable with ⟨r, hGet, hPages⟩
      exact ⟨r, hGet, fun p hHas => (hPages p hHas).1⟩
  refine ⟨?_, ?_, ?_, ?_, ?_⟩
  · intro i r hGet p hHas
    exact hInv.laid.getNodeForPfn hGet hHas
  · intro g hMem
    exact hInv.laid.lies (fun _ _ hHas => has_of_hasData hHas)
      (hInv.data g hMem)
  · intro g hMem
    exact hInv.laid.lies (fun _ _ hHas => hHas.1)
      (hInv.tables g hMem)
  · intro g hTable g' hData p hHas hHas'
    rcases hInv.tables g hTable with ⟨r, hGet, hPages⟩
    rcases hInv.data g' hData with ⟨r', hGet', hPages'⟩
    have hSame := hInv.laid.same hGet hGet' (hPages p hHas).1
      (has_of_hasData (hPages' p hHas'))
    rw [hSame, hGet', Option.some.injEq] at hGet
    have hBelow := (hPages p hHas).2
    have hAbove := (hPages' p hHas').1
    rw [hGet] at hAbove
    omega
  · intro g hMem g' hMem' hNe p hHas hHas'
    rcases hPlaced g hMem with ⟨r, hGet, hPages⟩
    rcases hPlaced g' hMem' with ⟨r', hGet', hPages'⟩
    exact hNe (hInv.laid.same hGet hGet' (hPages p hHas)
      (hPages' p hHas'))

------------------------------------------------------------
-- Steps And Runs
------------------------------------------------------------

/- A node with another buddy allocator within its range. -/
theorem Inv.setBuddy
    (hInv : Inv s)
    {node : NumaNode}
    (hGet : s.numa.nodes[nodeId]? = some node)
    {b : Buddy}
    (hWithin : Buddy.Within node.kernelPages
      (fun _ => node.numPages) b.freeList) :
    Inv { s with numa := s.numa.setBuddy nodeId node b } := by
  have hRanges := ranges_setBuddy hGet b
  refine ⟨hRanges ▸ hInv.laid, ?_, hRanges ▸ hInv.lengths,
    hRanges ▸ hInv.pointed, hRanges ▸ hInv.data,
    hRanges ▸ hInv.tables⟩
  intro other hMem
  rcases List.mem_or_eq_of_mem_set hMem with hOld | hNew
  · exact hInv.within other hOld
  · rw [hNew]
    exact hWithin

/- Pages of a node that lie in its data part. -/
theorem Inv.grant
    (hInv : Inv s)
    {node : NumaNode}
    (hGet : s.numa.nodes[nodeId]? = some node)
    {page : Option Nat}
    {count : Nat}
    (hPos : 0 < count)
    (hPages : ∀ p ∈ page, node.kernelPages ≤ p ∧
      p + count ≤ node.numPages) :
    Inv { s with
      data := granted nodeId count
        (page.map (fun p => (p + node.basePfn) % 2 ^ 64)) ++
          s.data } := by
  refine { hInv with data := ?_ }
  intro g hMem
  cases page with
  | none => exact hInv.data g hMem
  | some p =>
      have hRange : s.numa.ranges[nodeId]? = some node.range := by
        rw [NumaBuddy.ranges, List.getElem?_map, hGet]
        rfl
      rcases List.mem_cons.mp hMem with hNew | hOld
      · have hSmall := (hInv.laid.small _
          (List.mem_of_getElem? hRange)).2
        rcases hPages p rfl with ⟨hLow, hHigh⟩
        have hWrap : (p + node.basePfn) % 2 ^ 64 =
            p + node.basePfn := by
          apply Nat.mod_eq_of_lt
          simp only [NumaNode.range] at hSmall
          omega
        subst hNew
        refine ⟨node.range, hRange, fun q hHas => ?_⟩
        rcases hHas with ⟨hFirst, hLast⟩
        simp only [hWrap] at hFirst hLast
        simp only [NodeRange.HasData, NumaNode.range]
        omega
      · exact hInv.data g hOld

theorem inv_allocate
    (hInv : Inv s)
    {nodeId bytes : Nat}
    (hStep : step s (.allocate nodeId bytes) = some s') :
    Inv s' := by
  rcases Option.map_eq_some_iff.mp hStep with ⟨r, hCall, hEq⟩
  unfold NumaBuddy.allocate at hCall
  cases hGet : s.numa.nodes[nodeId]? with
  | none =>
      simp only [hGet, Option.some.injEq] at hCall
      subst hCall
      subst hEq
      exact hInv
  | some node =>
      simp only [hGet] at hCall
      rcases Option.map_eq_some_iff.mp hCall with
        ⟨⟨page, b⟩, hBuddy, hPair⟩
      subst hPair
      subst hEq
      rcases Buddy.within_allocate antitone_const
          (hInv.within node (List.mem_of_getElem? hGet))
          hBuddy with ⟨hWithin, hPages⟩
      exact (hInv.grant hGet (Nat.two_pow_pos _)
        hPages).setBuddy hGet hWithin

theorem inv_reserve2MBPage
    (hInv : Inv s)
    (hStep : step s (.reserve2MBPage nodeId) = some s') :
    Inv s' := by
  rcases Option.map_eq_some_iff.mp hStep with ⟨r, hCall, hEq⟩
  unfold NumaBuddy.reserve2MBPage at hCall
  cases hGet : s.numa.nodes[nodeId]? with
  | none =>
      simp only [hGet, Option.some.injEq] at hCall
      subst hCall
      subst hEq
      exact hInv
  | some node =>
      simp only [hGet] at hCall
      rcases Option.map_eq_some_iff.mp hCall with
        ⟨⟨block, b⟩, hBuddy, hPair⟩
      subst hPair
      subst hEq
      rcases Buddy.within_reserve2mbPage antitone_const
          (hInv.within node (List.mem_of_getElem? hGet))
          hBuddy with ⟨hWithin, hPages⟩
      have hStarts : ∀ p ∈ block.map Span.start,
          node.kernelPages ≤ p ∧ p + 512 ≤ node.numPages := by
        intro p hMem
        rcases Option.map_eq_some_iff.mp hMem with
          ⟨t, hBlock, hStart⟩
        rw [← hStart]
        exact hPages t hBlock
      have hGrant := hInv.grant hGet (by decide) hStarts
      rw [Option.map_map] at hGrant
      exact hGrant.setBuddy hGet hWithin

theorem inv_free
    (hInv : Inv s)
    {first last : Nat}
    (hMeets : Meets s (.free first last)) :
    Inv { s with numa := s.numa.free first last } := by
  rcases hMeets with ⟨hLe, node, hOwner, hLow, hHigh, _⟩
  rcases List.mem_iff_getElem?.mp hOwner with ⟨i, hGet⟩
  have hRange : s.numa.ranges[i]? = some node.range := by
    rw [NumaBuddy.ranges, List.getElem?_map, hGet]
    rfl
  have hPos : 0 < 2 ^ Buddy.orderOf (last - first + 1) :=
    Nat.two_pow_pos _
  have hCount : last - first + 1 ≤
      2 ^ Buddy.orderOf (last - first + 1) :=
    Nat.le_pow_clog (by decide) _
  have hSmall := (hInv.laid.small _ (List.mem_of_getElem? hRange)).2
  simp only [NumaNode.range] at hSmall
  have hHas : node.range.Has first := by
    simp only [NodeRange.Has, NumaNode.range]
    omega
  have hNode : s.numa.getNodeForPfn first = i :=
    hInv.laid.getNodeForPfn hRange hHas
  unfold NumaBuddy.free
  simp only [hNode, hGet]
  apply hInv.setBuddy hGet
  rw [Buddy.sub64_of_le (by omega) (by omega),
    Buddy.sub64_of_le (by omega) (by omega)]
  have hSame : last - node.basePfn - (first - node.basePfn) +
      1 = last - first + 1 := by
    omega
  apply Buddy.within_free
    (hInv.within node (List.mem_of_getElem? hGet))
  · omega
  · omega
  · rw [hSame]
    omega

/- The pages of a node that a request for kernel pages takes. -/
theorem Inv.advance
    (hInv : Inv s)
    {bytes nodeId : Nat}
    (hBytes : 0 < bytes ∧ bytes + 4095 < 2 ^ 64)
    (hRoom : s.kernel.hasRoom (NumaKernel.pagesNeeded bytes)
      nodeId = true)
    {r : (Nat × Nat) × NumaKernel}
    (hAdvance : s.kernel.advance
      (NumaKernel.pagesNeeded bytes) nodeId = some r) :
    Inv { s with
      kernel := r.2
      tables := granted r.1.1 (NumaKernel.pagesNeeded bytes)
        (some r.1.2) ++ s.tables } := by
  rcases Option.map_eq_some_iff.mp hAdvance with
    ⟨next, hNext, hEq⟩
  subst hEq
  rcases List.getElem?_eq_some_iff.mp hNext with ⟨hLt, -⟩
  have hIn : nodeId < s.numa.ranges.length :=
    hInv.lengths ▸ hLt
  rcases show ∃ range, s.numa.ranges[nodeId]? = some range from
    ⟨_, List.getElem?_eq_getElem hIn⟩ with ⟨range, hGet⟩
  rcases hInv.pointed nodeId range hGet with
    ⟨next', hNext', hLast, hLow, hHigh⟩
  rw [hNext, Option.some.injEq] at hNext'
  subst hNext'
  have hSmall := hInv.laid.small range (List.mem_of_getElem? hGet)
  have hPages : 0 < NumaKernel.pagesNeeded bytes ∧
      NumaKernel.pagesNeeded bytes ≤ 2 ^ 52 := by
    unfold NumaKernel.pagesNeeded
    rw [Nat.mod_eq_of_lt hBytes.2]
    omega
  generalize NumaKernel.pagesNeeded bytes = pages at hPages hRoom ⊢
  have hWrap : (next + pages) % 2 ^ 64 = next + pages :=
    Nat.mod_eq_of_lt (by omega)
  simp only [NumaKernel.hasRoom, hNext, hLast, hWrap,
    decide_eq_true_eq] at hRoom
  refine { hInv with
    lengths := ?_, pointed := ?_, tables := ?_ }
  · rw [List.length_set]
    exact hInv.lengths
  · intro i other hOther
    by_cases hSame : nodeId = i
    · subst hSame
      rw [hGet, Option.some.injEq] at hOther
      subst hOther
      refine ⟨next + pages, ?_, hLast, by omega, by omega⟩
      rw [List.getElem?_set_self hLt, hWrap]
    · rcases hInv.pointed i other hOther with
        ⟨next', hNext', hRest⟩
      refine ⟨next', ?_, hRest⟩
      rw [List.getElem?_set_ne hSame]
      exact hNext'
  · intro g hMem
    rcases List.mem_cons.mp hMem with hNew | hOld
    · subst hNew
      refine ⟨range, hGet, fun p hHas => ?_⟩
      rcases hHas with ⟨hFirst, hEnd⟩
      simp only at hFirst hEnd
      refine ⟨⟨?_, ?_⟩, ?_⟩
      · omega
      · omega
      · omega
    · exact hInv.tables g hOld

theorem inv_handlePageTableAllocations
    (hInv : Inv s)
    {bytes coreId : Nat}
    (hBytes : 0 < bytes ∧ bytes + 4095 < 2 ^ 64)
    (hStep :
      step s (.handlePageTableAllocations bytes coreId) = some s') :
    Inv s' := by
  rcases Option.map_eq_some_iff.mp hStep with ⟨r, hCall, hEq⟩
  subst hEq
  unfold NumaKernel.handlePageTableAllocations at hCall
  simp only at hCall
  split_ifs at hCall with hRoom
  · exact hInv.advance hBytes hRoom hCall
  · rcases Option.bind_eq_some_iff.mp hCall with
      ⟨n, hFind, hAdvance⟩
    have hTest := List.find?_some hFind
    rw [Bool.and_eq_true] at hTest
    exact hInv.advance hBytes hTest.2 hAdvance

/- A call that meets the condition keeps the invariant. -/
theorem inv_step
    {op : Op}
    (hInv : Inv s)
    (hMeets : Meets s op)
    (hStep : step s op = some s') :
    Inv s' := by
  cases op with
  | allocate nodeId bytes => exact inv_allocate hInv hStep
  | reserve2MBPage nodeId =>
      exact inv_reserve2MBPage hInv hStep
  | free first last =>
      rw [← Option.some.inj hStep]
      exact inv_free hInv hMeets
  | handlePageTableAllocations bytes coreId =>
      exact inv_handlePageTableAllocations hInv hMeets hStep

theorem pagesOfMb_eq
    {mb : Nat}
    (hSmall : mb * 1024 < 2 ^ 64) :
    pagesOfMb mb = mb * 256 := by
  rw [pagesOfMb, Nat.mod_eq_of_lt hSmall]
  omega

/- The pages of a new node are behind its kernel pages. -/
theorem within_nodeBuddy
    {maxOrder : Nat}
    {size : NodeSize}
    {b : Buddy}
    (hKernel : size.kernelMb < 2 ^ 31)
    (hBuddy : NumaBuddy.nodeBuddy maxOrder size = some b) :
    Buddy.Within (size.kernelMb * 256)
      (fun _ => size.memMb * 256) b.freeList := by
  rcases Option.bind_eq_some_iff.mp hBuddy with
    ⟨mem, hMem, hRest⟩
  rcases Option.bind_eq_some_iff.mp hRest with
    ⟨kernel, hCast, hConstruct⟩
  have hMemLe : mem ≤ size.memMb := by
    unfold castInt at hMem
    split_ifs at hMem
    rw [← Option.some.inj hMem]
    exact Nat.mod_le _ _
  have hSame : kernel = size.kernelMb := by
    unfold castInt at hCast
    split_ifs at hCast
    rw [← Option.some.inj hCast]
    exact Nat.mod_eq_of_lt (by omega)
  intro k block hIn
  have hFits := Buddy.within_construct hConstruct k block hIn
  have hLow := hFits.low
  have hHigh := hFits.high
  simp only [Buddy.pagesInMb] at hLow hHigh
  refine ⟨by omega, ?_, hFits.short, hFits.long⟩
  change block.start + 2 ^ k ≤ size.memMb * 256
  omega

/- The nodes are laid out from the current page on. -/
theorem laid_addNodes
    {maxOrder : Nat}
    {sizes : List NodeSize}
    (hSizes : ∀ size ∈ sizes,
      size.kernelMb ≤ size.memMb ∧ size.kernelMb < 2 ^ 31)
    {current : Nat}
    (hSum : current + (sizes.map NodeSize.memMb).sum * 256 < 2 ^ 62)
    {nodes : List NumaNode}
    (hAdd : NumaBuddy.addNodes maxOrder current sizes =
      some nodes) :
    Laid (nodes.map NumaNode.range) ∧
      (∀ r ∈ nodes.map NumaNode.range, current ≤ r.basePfn) ∧
      ∀ node ∈ nodes, Buddy.Within node.kernelPages
        (fun _ => node.numPages) node.buddy.freeList := by
  induction sizes generalizing current nodes with
  | nil =>
      rw [NumaBuddy.addNodes, Option.some.injEq] at hAdd
      subst hAdd
      exact ⟨⟨List.Pairwise.nil, by simp⟩, by simp, by simp⟩
  | cons size sizes ih =>
      rw [List.map_cons, List.sum_cons] at hSum
      generalize hTotal :
        (sizes.map NodeSize.memMb).sum = total at hSum
      rcases hSizes size (by simp) with ⟨hLe, hInt⟩
      rw [NumaBuddy.addNodes] at hAdd
      rcases Option.bind_eq_some_iff.mp hAdd with
        ⟨b, hBuddy, hRest⟩
      rcases Option.map_eq_some_iff.mp hRest with
        ⟨rest, hNodes, hEq⟩
      subst hEq
      have hWrap : (current + size.memMb * 256) % 2 ^ 64 =
          current + size.memMb * 256 :=
        Nat.mod_eq_of_lt (by linarith)
      rw [pagesOfMb_eq
          (show size.memMb * 1024 < 2 ^ 64 by linarith),
        hWrap] at hNodes
      rw [pagesOfMb_eq
          (show size.memMb * 1024 < 2 ^ 64 by linarith),
        pagesOfMb_eq
          (show size.kernelMb * 1024 < 2 ^ 64 by linarith)]
      rcases ih (fun other hMem =>
          hSizes other (List.mem_cons_of_mem _ hMem))
          (by rw [hTotal]; linarith) hNodes with ⟨hLaid, hAfter, hWithin⟩
      refine ⟨⟨?_, ?_⟩, ?_, ?_⟩
      · exact List.Pairwise.cons hAfter hLaid.ordered
      · intro r hMem
        rcases List.mem_cons.mp hMem with hFirst | hLater
        · subst hFirst
          simp only [NumaNode.range]
          omega
        · exact hLaid.small r hLater
      · intro r hMem
        rcases List.mem_cons.mp hMem with hFirst | hLater
        · rw [hFirst]
          exact Nat.le_refl _
        · have hBase := hAfter r hLater
          omega
      · intro node hMem
        rcases List.mem_cons.mp hMem with hFirst | hLater
        · rw [hFirst]
          exact within_nodeBuddy hInt hBuddy
        · exact hWithin node hLater

/- A new system satisfies the invariant. -/
theorem inv_start
    {globalKernelMb maxOrder : Nat}
    {sizes : List NodeSize}
    (hSound : Sound globalKernelMb sizes)
    (coresTotal : Nat)
    (hConstruct : NumaBuddy.construct globalKernelMb maxOrder
      sizes = some a) :
    Inv (start coresTotal a) := by
  rcases hSound with ⟨hSizes, hFit⟩
  unfold NumaBuddy.construct at hConstruct
  split_ifs at hConstruct
  rcases Option.map_eq_some_iff.mp hConstruct with
    ⟨nodes, hAdd, hEq⟩
  subst hEq
  generalize hTotal : (sizes.map NodeSize.memMb).sum = total at hFit
  rw [pagesOfMb_eq
    (show globalKernelMb * 1024 < 2 ^ 64 by linarith)] at hAdd
  rcases laid_addNodes hSizes (by rw [hTotal]; linarith) hAdd with
    ⟨hLaid, -, hWithin⟩
  refine ⟨hLaid, hWithin, ?_, ?_, by simp [start], by simp [start]⟩
  · simp [start, NumaKernel.construct, NumaBuddy.ranges]
  · intro i r hGet
    have hSmall := hLaid.small r (List.mem_of_getElem? hGet)
    rw [NumaBuddy.ranges, start, List.getElem?_map] at hGet
    rcases Option.map_eq_some_iff.mp hGet with
      ⟨node, hNode, hEq⟩
    subst hEq
    simp only [NumaNode.range] at hSmall
    have hEnd : (node.basePfn + node.kernelPages) % 2 ^ 64 =
        node.basePfn + node.kernelPages :=
      Nat.mod_eq_of_lt (by omega)
    have hFirst : (node.basePfn + 1) % 2 ^ 64 = node.basePfn + 1 :=
      Nat.mod_eq_of_lt (by omega)
    refine ⟨if i = 0 then node.basePfn + 1
      else node.basePfn, ?_, ?_, ?_, ?_⟩
    · simp only [start, NumaKernel.construct,
        List.getElem?_mapIdx, hNode, Option.map_some, hFirst]
    · simp only [start, NumaKernel.construct,
        List.getElem?_map, hNode, Option.map_some, hEnd]
      rfl
    · simp only [NumaNode.range]
      split_ifs
      · omega
      · omega
    · split_ifs
      · omega
      · omega

/-
  In every run whose calls meet the condition, on nodes whose
  sizes are sound, the nodes partition the pages.
-/
theorem partitioned_along
    (globalKernelMb maxOrder coresTotal : Nat)
    (sizes : List NodeSize)
    (hSound : Sound globalKernelMb sizes)
    (a : NumaBuddy)
    (hConstruct : NumaBuddy.construct globalKernelMb maxOrder
      sizes = some a)
    (ops : List Op)
    (hAlong : Run.Along step Meets (start coresTotal a) ops) :
    ∀ front, front <+: ops →
      ∀ s, Run.run step (start coresTotal a) front = some s →
        Partitioned s := by
  intro front hFront s hRun
  have hInit := inv_start hSound coresTotal hConstruct
  exact (Run.along_inv
    (fun _ _ _ hInv hMeets hStep => inv_step hInv hMeets hStep)
    hInit hAlong hFront hRun).1.partitioned

instance (s : System) (op : Op) : Decidable (Meets s op) :=
  match op with
  | .allocate _ bytes =>
      inferInstanceAs (Decidable (4096 ≤ bytes))
  | .reserve2MBPage _ => isTrue trivial
  | .free globalStartPfn globalEndPfn =>
      inferInstanceAs (Decidable
        (globalStartPfn ≤ globalEndPfn ∧
          ∃ node ∈ s.numa.nodes,
            node.basePfn + node.kernelPages ≤ globalStartPfn ∧
              globalStartPfn + 2 ^ Buddy.orderOf
                  (globalEndPfn - globalStartPfn + 1) ≤
                node.basePfn + node.numPages ∧
              Buddy.orderOf (globalEndPfn - globalStartPfn + 1) <
                2 * (node.buddy.maxOrder + 1)))
  | .handlePageTableAllocations bytes _ =>
      inferInstanceAs
        (Decidable (0 < bytes ∧ bytes + 4095 < 2 ^ 64))

/- Two nodes of four megabytes, half of each for the kernel. -/
theorem sound_twoNodes :
    Sound 0 [⟨4, 2⟩, ⟨4, 2⟩] := by
  refine ⟨?_, by decide⟩
  intro size hMem
  simp only [List.mem_cons, List.not_mem_nil, or_false] at hMem
  rcases hMem with hEq | hEq
  · subst hEq
    decide
  · subst hEq
    decide

theorem partitioned_along_twoNodes :
    ∃ a ∈ NumaBuddy.construct 0 9 [⟨4, 2⟩, ⟨4, 2⟩],
      ∃ s ∈ Run.run step (start 2 a)
          [.reserve2MBPage 0, .free 1022 1023, .allocate 0 4096,
            .allocate 1 4096,
            .handlePageTableAllocations 4096 1],
        s.data = [⟨1, ⟨2047, 2047⟩⟩, ⟨0, ⟨1023, 1023⟩⟩,
            ⟨0, ⟨512, 1023⟩⟩] ∧
          s.tables = [⟨1, ⟨1024, 1024⟩⟩] ∧ Partitioned s := by
  refine ⟨_, Option.get_mem ?_, _, Option.get_mem ?_, ?_, ?_, ?_⟩
  iterate 4 decide +kernel
  exact partitioned_along 0 9 2 _ sound_twoNodes _
    (Option.get_mem _) _
    (by decide +kernel) _ (List.prefix_refl _) _
    (Option.get_mem _)

/-
  The last page of a region is put back with the page behind
  it, which is the first page of the next node.
-/
theorem not_partitioned_nextNode :
    ∃ a ∈ NumaBuddy.construct 0 9 [⟨4, 2⟩, ⟨4, 2⟩],
      ∃ s ∈ Run.run step (start 2 a)
          [.reserve2MBPage 0, .free 1023 1024, .allocate 0 4096,
            .handlePageTableAllocations 4096 1],
        s.data = [⟨0, ⟨1024, 1024⟩⟩, ⟨0, ⟨512, 1023⟩⟩] ∧
          s.tables = [⟨1, ⟨1024, 1024⟩⟩] ∧
          s.numa.getNodeForPfn 1024 = 1 ∧ ¬ Partitioned s := by
  refine ⟨_, Option.get_mem ?_, _, Option.get_mem ?_,
    ?_, ?_, ?_, fun hPartitioned => ?_⟩
  iterate 5 decide +kernel
  exact hPartitioned.separate ⟨1, ⟨1024, 1024⟩⟩
    (by decide +kernel) ⟨0, ⟨1024, 1024⟩⟩
    (by decide +kernel) 1024
    ⟨by decide, by decide⟩ ⟨by decide, by decide⟩

end Numa

end Virtuoso
