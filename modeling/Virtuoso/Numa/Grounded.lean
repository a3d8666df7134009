import Mathlib.Data.List.MinMax
import Virtuoso.Numa.Outcomes
import Virtuoso.Numa.Ranges
import Virtuoso.ReserveThp.Runs

/-
  Where the regions of the nodes lie.

  The regions of a node lie in its range, so that a demotion
  puts the unused pages back on the node itself. A block that
  is put back has one page too many, but it is too small to
  be reserved as a region again.

  Main declarations:
    * `NumaReserveThp.grounded_answeredAt`
    * `NumaReserveThp.retry_spec`
-/

------------------------------------------------------------
-- Regions In Their Nodes
------------------------------------------------------------

namespace Virtuoso

namespace NumaBuddy

open Numa

variable {a : NumaBuddy}

theorem setBuddy_setBuddy
    {nodeId : Nat}
    {node : NumaNode}
    (b b' : Buddy) :
    (a.setBuddy nodeId node b).setBuddy nodeId
        { node with buddy := b } b' =
      a.setBuddy nodeId node b' := by
  simp [setBuddy]

/- A page of a node is put back on the node. -/
theorem free_eq
    (hLaid : Laid a.ranges)
    {nodeId : Nat}
    {node : NumaNode}
    (hGet : a.nodes[nodeId]? = some node)
    {p : Nat}
    (hHas : node.range.Has p) :
    a.free p (p + 1) =
      a.setBuddy nodeId node
        (node.buddy.free (p - node.basePfn)
          (p - node.basePfn + 1)) := by
  have hRange : a.ranges[nodeId]? = some node.range := by
    rw [ranges, List.getElem?_map, hGet]
    rfl
  have hSmall := (hLaid.small _ (List.mem_of_getElem? hRange)).2
  have hNode := hLaid.getNodeForPfn hRange hHas
  rcases hHas with ⟨hLow, hHigh⟩
  simp only [NumaNode.range] at hLow hHigh hSmall
  have hFirst : Buddy.sub64 p node.basePfn = p - node.basePfn :=
    Buddy.sub64_of_le hLow (by omega)
  have hLast : Buddy.sub64 (p + 1) node.basePfn =
      p - node.basePfn + 1 := by
    rw [Buddy.sub64_of_le (by omega) (by omega)]
    omega
  unfold free
  simp only [hNode, hGet, hFirst, hLast]

end NumaBuddy

namespace NumaReserveThp

open ReserveThp Numa

/- What is put back is one page longer than the node allows. -/
def slack (numPages k : Nat) : Nat :=
  if k ≤ 1 then numPages + 1 else numPages

theorem antitone_slack
    (numPages : Nat) :
    Antitone (slack numPages) := by
  intro k k' hLe
  unfold slack
  split_ifs <;> omega

/- Blocks of one page and the page behind it on a node. -/
def OnNode (node : NumaNode) (t : Span) : Prop :=
  t.stop = t.start + 1 ∧ node.range.HasData t.start

variable {nodeId : Nat}

/- What putting back such blocks does. -/
theorem freeAll_spec
    {blocks : List Span}
    {a : NumaBuddy}
    (hLaid : Laid a.ranges)
    {node : NumaNode}
    (hGet : a.nodes[nodeId]? = some node)
    (hBlocks : ∀ t ∈ blocks, OnNode node t) :
    ∃ b, freeAll a blocks = a.setBuddy nodeId node b ∧
      b.maxOrder = node.buddy.maxOrder ∧
      (∀ k, k ≠ 1 → b.freeList k = node.buddy.freeList k) ∧
      (b.freeList 1).length =
        (node.buddy.freeList 1).length + blocks.length ∧
      (Buddy.Within node.kernelPages (slack node.numPages)
          node.buddy.freeList →
        Buddy.Within node.kernelPages (slack node.numPages)
          b.freeList) := by
  induction blocks generalizing a node with
  | nil =>
      refine ⟨node.buddy, ?_, rfl, fun _ _ => rfl, rfl, id⟩
      rw [NumaBuddy.setBuddy_self hGet]
      rfl
  | cons t blocks ih =>
      rcases hBlocks t (by simp) with ⟨hStop, hData⟩
      let first := t.start - node.basePfn
      let b₁ := node.buddy.free first (first + 1)
      let node₁ : NumaNode := { node with buddy := b₁ }
      have hStep : a.free t.start t.stop =
          a.setBuddy nodeId node b₁ := by
        rw [hStop]
        exact NumaBuddy.free_eq hLaid hGet (has_of_hasData hData)
      have hOrder : Buddy.orderOf (first + 1 - first + 1) = 1 := by
        rw [Nat.add_sub_cancel_left]
        decide
      have hLists : b₁.freeList =
          Buddy.pushBack node.buddy.freeList 1
            ⟨first, first + 1⟩ := by
        simp only [b₁, Buddy.free, hOrder]
      have hGet₁ :
          (a.setBuddy nodeId node b₁).nodes[nodeId]? =
            some node₁ := by
        rw [NumaBuddy.getElem?_setBuddy hGet, if_pos rfl]
      have hLaid₁ : Laid (a.setBuddy nodeId node b₁).ranges := by
        rw [ranges_setBuddy hGet]
        exact hLaid
      rcases ih hLaid₁ hGet₁ (fun t' hMem =>
          hBlocks t' (List.mem_cons_of_mem t hMem)) with
        ⟨b, hFree, hMax, hOther, hLength, hWithin⟩
      refine ⟨b, ?_, hMax, ?_, ?_, ?_⟩
      · change freeAll (a.free t.start t.stop) blocks = _
        rw [hStep, hFree]
        exact NumaBuddy.setBuddy_setBuddy b₁ b
      · intro k hNe
        rw [hOther k hNe]
        change b₁.freeList k = _
        rw [hLists, Buddy.pushBack, Function.update_of_ne hNe]
      · rw [hLength]
        change (b₁.freeList 1).length + _ = _
        rw [hLists, Buddy.pushBack, Function.update_self,
          List.length_append, List.length_singleton,
          List.length_cons]
        omega
      · intro hOld
        apply hWithin
        apply Buddy.within_free hOld
        · omega
        · have hLow := hData.1
          simp only [NumaNode.range] at hLow
          change node.kernelPages ≤ t.start - node.basePfn
          omega
        · have hHigh := hData.2
          have hLow := hData.1
          simp only [NumaNode.range] at hHigh hLow
          rw [hOrder]
          change t.start - node.basePfn + 2 ≤ node.numPages + 1
          omega

/- The region lies in the data pages of a node. -/
def RootedAt
    (ranges : List NodeRange)
    (nodeId : Nat)
    (region : Region) : Prop :=
  ∃ r, ranges[nodeId]? = some r ∧
    r.basePfn + r.kernelPages ≤ region.regionBegin ∧
    region.regionBegin + 512 ≤ r.basePfn + r.numPages

/- The blocks and the regions of the nodes are their own. -/
structure Grounded (s : NumaReserveThp) : Prop where
  laid : Laid s.numa.ranges
  lengths : s.twoMbMaps.length = s.numa.nodes.length
  within : ∀ node ∈ s.numa.nodes,
    Buddy.Within node.kernelPages (slack node.numPages)
      node.buddy.freeList
  rooted : ∀ (nodeId : Nat) (map : TwoMbMap),
    s.twoMbMaps[nodeId]? = some map →
      ∀ e ∈ map, RootedAt s.numa.ranges nodeId e.2

variable {s s' : NumaReserveThp}

/- Another buddy allocator for one of the nodes. -/
theorem Grounded.setBuddy
    (hGrounded : Grounded s)
    {node : NumaNode}
    (hGet : s.numa.nodes[nodeId]? = some node)
    {b : Buddy}
    (hWithin : Buddy.Within node.kernelPages
      (slack node.numPages) b.freeList) :
    Grounded
      { s with numa := s.numa.setBuddy nodeId node b } := by
  have hRanges := ranges_setBuddy hGet b
  refine ⟨hRanges ▸ hGrounded.laid, ?_, ?_,
    hRanges ▸ hGrounded.rooted⟩
  · simp only [NumaBuddy.setBuddy, List.length_set]
    exact hGrounded.lengths
  · intro other hMem
    rcases List.mem_or_eq_of_mem_set hMem with hOld | hNew
    · exact hGrounded.within other hOld
    · rw [hNew]
      exact hWithin

theorem grounded_allocate
    (hGrounded : Grounded s)
    {page : Option Nat}
    {numa : NumaBuddy}
    (hCall : s.numa.allocate nodeId 4096 = some (page, numa)) :
    Grounded { s with numa := numa } := by
  rcases NumaBuddy.allocate_cases hCall with
    ⟨-, -, hSame⟩ | ⟨node, localPage, b, hGet, hBuddy, -, hEq⟩
  · rw [hSame]
    exact hGrounded
  · rw [hEq]
    exact hGrounded.setBuddy hGet
      (Buddy.within_allocate (antitone_slack _)
        (hGrounded.within node (List.mem_of_getElem? hGet))
        hBuddy).1

/- A reservation returns a region of the node. -/
theorem grounded_reserve2MBPage
    (hGrounded : Grounded s)
    {nodeId first : Nat}
    {numa : NumaBuddy}
    (hCall : s.numa.reserve2MBPage nodeId =
      some (some first, numa)) :
    Grounded { s with numa := numa } ∧
      numa.ranges = s.numa.ranges ∧
      RootedAt s.numa.ranges nodeId
        ⟨first, fun _ => false, false⟩ := by
  rcases NumaBuddy.reserve2MBPage_cases hCall with
    ⟨-, hNone, -⟩ | ⟨node, block, b, hGet, hBuddy, hPage, hEq⟩
  · cases hNone
  · cases block with
    | none => cases hPage
    | some t =>
        have hRange : s.numa.ranges[nodeId]? = some node.range := by
          rw [NumaBuddy.ranges, List.getElem?_map, hGet]
          rfl
        have hSmall := (hGrounded.laid.small _
          (List.mem_of_getElem? hRange)).2
        rcases Buddy.within_reserve2mbPage (antitone_slack _)
            (hGrounded.within node (List.mem_of_getElem? hGet))
            hBuddy with ⟨hWithin, hBlock⟩
        rcases hBlock t rfl with ⟨hLow, hHigh⟩
        change t.start + 512 ≤ node.numPages at hHigh
        rw [Option.map_some, Option.some.injEq] at hPage
        simp only [NumaNode.range] at hSmall
        have hWrap : (t.start + node.basePfn) % 2 ^ 64 =
            t.start + node.basePfn :=
          Nat.mod_eq_of_lt (by omega)
        rw [hEq]
        refine ⟨hGrounded.setBuddy hGet hWithin,
          ranges_setBuddy hGet b, node.range, hRange, ?_, ?_⟩
        · simp only [NumaNode.range, hPage, hWrap]
          omega
        · simp only [NumaNode.range, hPage, hWrap]
          omega

variable {e : Nat × Region}

theorem mem_setRegion
    {map : TwoMbMap}
    {key : Nat}
    {region : Region}
    (hMem : e ∈ (key, region) :: TwoMbMap.erase map key) :
    e = (key, region) ∨ e ∈ map := by
  rcases List.mem_cons.mp hMem with hNew | hOld
  · exact Or.inl hNew
  · exact Or.inr (List.mem_of_mem_filter hOld)

/- Another region in the map of a node. -/
theorem Grounded.setRegion
    (hGrounded : Grounded s)
    {nodeId key : Nat}
    {map : TwoMbMap}
    {region : Region}
    (hMap : s.twoMbMaps[nodeId]? = some map)
    (hRooted : RootedAt s.numa.ranges nodeId region) :
    Grounded (s.setRegion nodeId map key region) := by
  refine ⟨hGrounded.laid, ?_, hGrounded.within, ?_⟩
  · simp only [NumaReserveThp.setRegion, List.length_set]
    exact hGrounded.lengths
  · intro i other hOther e hMem
    simp only [NumaReserveThp.setRegion] at hOther
    rw [List.getElem?_set] at hOther
    split_ifs at hOther with hSame hLt
    · cases hOther
      subst hSame
      rcases mem_setRegion hMem with hNew | hOld
      · rw [hNew]
        exact hRooted
      · exact hGrounded.rooted nodeId map hMap e hOld
    · exact hGrounded.rooted i other hOther e hMem

theorem Grounded.record
    (hGrounded : Grounded s)
    (nodeId : Nat) :
    Grounded (s.record nodeId) :=
  ⟨hGrounded.laid, hGrounded.lengths, hGrounded.within,
    hGrounded.rooted⟩

/- An answer of a node keeps everything in place. -/
theorem grounded_answeredAt
    (hGrounded : Grounded s)
    {va nodeId : Nat}
    {placement : NumaPlacement}
    (hAnswered : AnsweredAt s va nodeId placement s') :
    Grounded s' := by
  cases hAnswered with
  | @inRegion map region numa hMap hFound hOpen promoted =>
      apply Grounded.record
      cases hFound with
      | tracked hLookup =>
          have hRooted : RootedAt s.numa.ranges nodeId
              (useOf region (va / 2 ^ 12 % 512) promoted) :=
            hGrounded.rooted nodeId map hMap _
              (mem_of_lookup hLookup)
          exact hGrounded.setRegion hMap hRooted
      | @reserved first numa hLookup hReserve =>
          rcases grounded_reserve2MBPage hGrounded hReserve with
            ⟨hNext, hRanges, hRooted⟩
          have hUsed : RootedAt numa.ranges nodeId
              (useOf ⟨first, fun _ => false, false⟩
                (va / 2 ^ 12 % 512) promoted) := by
            rw [hRanges]
            exact hRooted
          exact hNext.setRegion hMap hUsed
  | fromBuddy hLookup hDepleted hCall =>
      exact (grounded_allocate hGrounded hCall).record nodeId

------------------------------------------------------------
-- Demotion
------------------------------------------------------------

/- A region of the node can be demoted with a gain. -/
def hasPartlyUsed
    (s : NumaReserveThp)
    (nodeId : Nat) : Bool :=
  (s.twoMbMaps[nodeId]?).any (fun map =>
    map.any (fun e =>
      !e.2.promoted && decide (e.2.count < 512)))

/- What a demotion on a node does. -/
structure Demotes
    (s : NumaReserveThp)
    (nodeId : Nat)
    (e : Nat × Region)
    (s' : NumaReserveThp) : Prop where
  regions : ∃ map, s.twoMbMaps[nodeId]? = some map ∧
    e ∈ map ∧ e.2.promoted = false ∧
    (∀ e' ∈ map, e'.2.promoted = false → e.2.count ≤ e'.2.count) ∧
    s'.twoMbMaps = s.twoMbMaps.set nodeId (TwoMbMap.erase map e.1)
  blocks : ∃ node b, s.numa.nodes[nodeId]? = some node ∧
    s'.numa = s.numa.setBuddy nodeId node b ∧
    b.maxOrder = node.buddy.maxOrder ∧
    (∀ k, k ≠ 1 → b.freeList k = node.buddy.freeList k) ∧
    (b.freeList 1).length =
      (node.buddy.freeList 1).length + e.2.putBack.length

/- A demotion keeps everything in place. -/
theorem grounded_demotePageOnNode
    (hGrounded : Grounded s)
    {nodeId pick : Nat}
    (hDemote : s.demotePageOnNode nodeId pick = some s') :
    Grounded s' ∧ ∃ e, Demotes s nodeId e s' := by
  rcases Option.bind_eq_some_iff.mp hDemote with
    ⟨map, hMap, hRest⟩
  rcases Option.map_eq_some_iff.mp hRest with
    ⟨e, hFront, hEq⟩
  subst hEq
  rcases mem_of_utilizationFront hFront with
    ⟨hMem, hOpen, hLeast⟩
  rcases hGrounded.rooted nodeId map hMap e hMem with
    ⟨r, hRange, hLow, hHigh⟩
  have hNode : ∃ node, s.numa.nodes[nodeId]? = some node ∧
      node.range = r := by
    rw [NumaBuddy.ranges, List.getElem?_map] at hRange
    exact Option.map_eq_some_iff.mp hRange
  rcases hNode with ⟨node, hGet, hSame⟩
  subst hSame
  have hBlocks : ∀ t ∈ e.2.putBack, OnNode node t := by
    intro t hBlock
    rcases List.mem_map.mp hBlock with ⟨j, hJ, hEq⟩
    have hLt := List.mem_range.mp (List.mem_of_mem_filter hJ)
    subst hEq
    refine ⟨by simp only; omega, ?_, ?_⟩
    · simp only
      omega
    · simp only
      omega
  rcases freeAll_spec hGrounded.laid hGet hBlocks with
    ⟨b, hFree, hMax, hOther, hLength, hWithin⟩
  rw [hFree]
  refine ⟨?_, e, ?_, ?_⟩
  · have hNext := hGrounded.setBuddy hGet (hWithin
      (hGrounded.within node (List.mem_of_getElem? hGet)))
    refine ⟨hNext.laid, ?_, hNext.within, ?_⟩
    · rw [List.length_set]
      exact hNext.lengths
    · intro i other hSome e' hEntry
      simp only at hSome
      rw [List.getElem?_set] at hSome
      split_ifs at hSome with hSelf hLt
      · cases hSome
        subst hSelf
        exact hNext.rooted nodeId map hMap e'
          (List.mem_of_mem_filter hEntry)
      · exact hNext.rooted i other hSome e' hEntry
  · exact ⟨map, hMap, hMem, hOpen, hLeast, rfl⟩
  · exact ⟨node, b, hGet, rfl, hMax, hOther, hLength⟩

/- The same nodes are depleted after a demotion. -/
theorem Demotes.depletedAt_iff
    (hDemotes : Demotes s nodeId e s')
    (i : Nat) :
    s'.numa.DepletedAt i ↔ s.numa.DepletedAt i := by
  rcases hDemotes.blocks with
    ⟨node, b, hGet, hNuma, hMax, hOther, -⟩
  have hSame : b.Depleted ↔ node.buddy.Depleted := by
    constructor
    · intro hNew
      refine ⟨(hOther 9 (by decide)).symm.trans hNew.nine, ?_⟩
      intro k hTen hLe
      rw [← hOther k (by omega)]
      exact hNew.above k hTen (hMax ▸ hLe)
    · intro hOld
      refine ⟨(hOther 9 (by decide)).trans hOld.nine, ?_⟩
      intro k hTen hLe
      rw [hOther k (by omega)]
      exact hOld.above k hTen (hMax ▸ hLe)
  unfold NumaBuddy.DepletedAt
  rw [hNuma, NumaBuddy.getElem?_setBuddy hGet]
  by_cases hSelf : nodeId = i
  · subst hSelf
    simp only [if_true, hGet, Option.some.injEq, forall_eq', hSame]
  · rw [if_neg hSelf]

theorem putBack_ne_nil_iff
    (region : Region) :
    region.putBack ≠ [] ↔ region.count < 512 := by
  rw [count_lt_iff]
  refine ⟨fun hSome => ?_, fun ⟨j, hLt, hUnset⟩ hNil => ?_⟩
  · by_contra hFull
    apply hSome
    apply putBack_eq_nil
    intro j hLt
    by_contra hUnset
    exact hFull ⟨j, hLt, by simpa using hUnset⟩
  · unfold Region.putBack at hNil
    rw [List.map_eq_nil_iff, List.filter_eq_nil_iff] at hNil
    have hSet := hNil j (List.mem_range.mpr hLt)
    simp [hUnset] at hSet

/- The region that is demoted is partly used if one is. -/
theorem Demotes.hasPartlyUsed_iff
    (hDemotes : Demotes s nodeId e s') :
    s.hasPartlyUsed nodeId = true ↔ e.2.putBack ≠ [] := by
  rcases hDemotes.regions with
    ⟨map, hMap, hMem, hOpen, hLeast, -⟩
  rw [putBack_ne_nil_iff, hasPartlyUsed, hMap, Option.any_some,
    List.any_eq_true]
  refine ⟨?_, fun hLt => ⟨e, hMem, by simp [hOpen, hLt]⟩⟩
  rintro ⟨e', hMem', hTest⟩
  rw [Bool.and_eq_true, decide_eq_true_eq] at hTest
  have hCount := hLeast e' hMem' (by simpa using hTest.1)
  omega

/- A region can be demoted unless all are promoted. -/
theorem unpromoted_of_utilizationFront
    {map : TwoMbMap}
    {pick : Nat}
    (hFront : utilizationFront map pick = none) :
    unpromoted map = [] := by
  unfold utilizationFront at hFront
  rw [List.getElem?_eq_none_iff] at hFront
  have hNil : leastUsed map = [] := by
    by_contra hSome
    have hLt := Nat.mod_lt pick (List.length_pos_iff.mpr hSome)
    omega
  rw [← List.argmin_eq_none (f := fun e => e.2.count)]
  by_contra hSome
  rcases Option.ne_none_iff_exists'.mp hSome with
    ⟨e, hLeast⟩
  have hMem : e ∈ leastUsed map := by
    refine List.mem_filter.mpr ⟨List.argmin_mem hLeast, ?_⟩
    rw [List.all_eq_true]
    intro e' hMem'
    rw [decide_eq_true_eq]
    exact List.le_of_mem_argmin
      (f := fun e : Nat × Region => e.2.count) hMem' hLeast
  rw [hNil] at hMem
  cases hMem

/- No region of the node can be demoted. -/
theorem hasPartlyUsed_of_none
    {nodeId pick : Nat}
    (hDemote : s.demotePageOnNode nodeId pick = none) :
    s.hasPartlyUsed nodeId = false := by
  unfold hasPartlyUsed
  cases hMap : s.twoMbMaps[nodeId]? with
  | none => rfl
  | some map =>
      have hFront : utilizationFront map pick = none := by
        simpa [demotePageOnNode, hMap] using hDemote
      rw [Option.any_some, List.any_eq_false]
      intro e hMem hTest
      rw [Bool.and_eq_true] at hTest
      have hOpen : e ∈ unpromoted map :=
        List.mem_filter.mpr ⟨hMem, hTest.1⟩
      rw [unpromoted_of_utilizationFront hFront] at hOpen
      cases hOpen

/-
  The retry on a node without a block: it succeeds exactly
  when a partly used region was demoted.
-/
theorem retry_spec
    (hGrounded : Grounded s)
    {key nodeId pick : Nat}
    (hLacks : Lacks s key nodeId)
    (hServes : s.canServe key nodeId = false)
    {outcome : Option NumaPlacement}
    (hRetry : s.retry 4096 nodeId pick = some (outcome, s')) :
    ∃ s₁, (s₁ = s ∨ ∃ e, Demotes s nodeId e s₁) ∧
      Grounded s₁ ∧
      ((outcome = none ∧ s' = s₁ ∧ s.hasPartlyUsed nodeId = false) ∨
        ∃ frame numa,
          outcome = some ⟨nodeId, frame, 12⟩ ∧
            s.hasPartlyUsed nodeId = true ∧
            s₁.numa.allocate nodeId 4096 = some (some frame, numa) ∧
            s' = record { s₁ with numa := numa } nodeId) := by
  unfold retry at hRetry
  cases hDemote : s.demotePageOnNode nodeId pick with
  | none =>
      simp only [hDemote, Option.some.injEq,
        Prod.mk.injEq] at hRetry
      exact ⟨s, Or.inl rfl, hGrounded, Or.inl
        ⟨hRetry.1.symm, hRetry.2.symm,
          hasPartlyUsed_of_none hDemote⟩⟩
  | some s₁ =>
      simp only [hDemote] at hRetry
      rcases grounded_demotePageOnNode hGrounded hDemote with
        ⟨hNext, e, hDemotes⟩
      refine ⟨s₁, Or.inr ⟨e, hDemotes⟩, hNext, ?_⟩
      rcases Option.map_eq_some_iff.mp hRetry with
        ⟨⟨page, numa⟩, hCall, hEq⟩
      rcases hDemotes.blocks with
        ⟨node, b, hGet, hNuma, hMax, hOther, hLength⟩
      have hGet₁ : s₁.numa.nodes[nodeId]? =
          some { node with buddy := b } := by
        rw [hNuma, NumaBuddy.getElem?_setBuddy hGet, if_pos rfl]
      -- all lists of the node were empty before
      have hEmpty : ∀ k ≤ node.buddy.maxOrder,
          node.buddy.freeList k = [] := by
        rw [canServe, Bool.or_eq_false_iff, hGet,
          Option.any_some, hasBlock_eq_false_iff] at hServes
        exact hServes.2.2
      have hFour := hLacks.lists node hGet
      have hCount : (b.freeList 1).length = e.2.putBack.length := by
        rw [hLength, hEmpty 1 (by omega), List.length_nil,
          Nat.zero_add]
      rcases NumaBuddy.allocate_cases hCall with
        ⟨hNone, -, -⟩ |
          ⟨node', localPage, b', hGet', hBuddy, hPage, hState⟩
      · rw [hGet₁] at hNone
        cases hNone
      · rw [hGet₁, Option.some.injEq] at hGet'
        subst hGet'
        have hIff : localPage = none ↔ e.2.putBack = [] := by
          rw [allocate_page_iff hBuddy]
          refine ⟨fun hAll => ?_, fun hNil k hLe => ?_⟩
          · have hOne := hAll 1 (by simp only [hMax]; omega)
            simp only at hOne
            rw [hOne, List.length_nil] at hCount
            exact List.length_eq_zero_iff.mp hCount.symm
          · by_cases hOne : k = 1
            · rw [hNil, List.length_nil] at hCount
              rw [hOne]
              exact List.length_eq_zero_iff.mp hCount
            · exact (hOther k hOne).trans (hEmpty k (hMax ▸ hLe))
        cases localPage with
        | none =>
            left
            rw [Option.map_none] at hPage
            subst hPage
            simp only [Prod.mk.injEq] at hEq
            refine ⟨hEq.1.symm, ?_, ?_⟩
            · rw [← hEq.2, hState, allocate_page_none hBuddy,
                NumaBuddy.setBuddy_self hGet₁]
            · rw [← Bool.not_eq_true,
                hDemotes.hasPartlyUsed_iff, not_not]
              exact hIff.mp rfl
        | some p =>
            right
            rw [Option.map_some] at hPage
            subst hPage
            simp only [Prod.mk.injEq] at hEq
            refine ⟨_, numa, hEq.1.symm, ?_, hCall, hEq.2.symm⟩
            rw [hDemotes.hasPartlyUsed_iff]
            intro hNil
            cases hIff.mpr hNil

end NumaReserveThp

end Virtuoso
