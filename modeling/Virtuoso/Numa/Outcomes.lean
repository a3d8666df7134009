import Virtuoso.Buddy.Depleted
import Virtuoso.Numa.Reserve
import Virtuoso.ReserveThp.Outcomes

/-
  What a request to one node can do.

  A node answers in the region of the address, which may be
  reserved on the way, or with a page of its buddy allocator.
  Otherwise it is left as it was.

  Main declarations:
    * `NumaReserveThp.tryNode_spec`
-/

------------------------------------------------------------
-- Nodes
------------------------------------------------------------

namespace Virtuoso

namespace NumaBuddy

variable {a a' : NumaBuddy}

/- No 2MB block is left on the node. -/
def DepletedAt (a : NumaBuddy) (nodeId : Nat) : Prop :=
  ∀ node, a.nodes[nodeId]? = some node → node.buddy.Depleted

variable {nodeId : Nat} {node : NumaNode}

theorem setBuddy_self
    (hGet : a.nodes[nodeId]? = some node) :
    a.setBuddy nodeId node node.buddy = a := by
  rcases List.getElem?_eq_some_iff.mp hGet with ⟨hLt, hEq⟩
  cases a
  simp only [setBuddy, NumaBuddy.mk.injEq]
  have hKept := List.set_getElem_self hLt
  rw [hEq] at hKept
  exact hKept

/- The nodes after one buddy allocator was replaced. -/
theorem getElem?_setBuddy
    (hGet : a.nodes[nodeId]? = some node)
    (b : Buddy)
    (i : Nat) :
    (a.setBuddy nodeId node b).nodes[i]? =
      if nodeId = i then some { node with buddy := b }
      else a.nodes[i]? := by
  rcases List.getElem?_eq_some_iff.mp hGet with ⟨hLt, -⟩
  rw [setBuddy, List.getElem?_set]
  split_ifs with hSame
  · rfl
  · rfl

/- A replaced buddy allocator that is depleted if it was. -/
theorem depletedAt_setBuddy
    (hGet : a.nodes[nodeId]? = some node)
    {b : Buddy}
    (hKeeps : node.buddy.Depleted → b.Depleted)
    {i : Nat}
    (hDepleted : a.DepletedAt i) :
    (a.setBuddy nodeId node b).DepletedAt i := by
  intro other hOther
  rw [getElem?_setBuddy hGet] at hOther
  split_ifs at hOther with hSame
  · cases hOther
    exact hKeeps (hDepleted node (hSame ▸ hGet))
  · exact hDepleted other hOther

/- The outcomes of an allocation on a node. -/
theorem allocate_cases
    {nodeId bytes : Nat}
    {page : Option Nat}
    (hCall : a.allocate nodeId bytes = some (page, a')) :
    (a.nodes[nodeId]? = none ∧ page = none ∧ a' = a) ∨
      ∃ node localPage b,
        a.nodes[nodeId]? = some node ∧
          node.buddy.allocate bytes = some (localPage, b) ∧
          page = localPage.map
            (fun p => (p + node.basePfn) % 2 ^ 64) ∧
          a' = a.setBuddy nodeId node b := by
  unfold allocate at hCall
  cases hGet : a.nodes[nodeId]? with
  | none =>
      simp only [hGet, Option.some.injEq, Prod.mk.injEq] at hCall
      exact Or.inl ⟨rfl, hCall.1.symm, hCall.2.symm⟩
  | some node =>
      simp only [hGet] at hCall
      rcases Option.map_eq_some_iff.mp hCall with
        ⟨⟨localPage, b⟩, hBuddy, hEq⟩
      simp only [Prod.mk.injEq] at hEq
      exact Or.inr ⟨node, localPage, b, rfl, hBuddy,
        hEq.1.symm, hEq.2.symm⟩

/- The outcomes of a reservation on a node. -/
theorem reserve2MBPage_cases
    {page : Option Nat}
    (hCall : a.reserve2MBPage nodeId = some (page, a')) :
    (a.nodes[nodeId]? = none ∧ page = none ∧ a' = a) ∨
      ∃ node block b,
        a.nodes[nodeId]? = some node ∧
          node.buddy.reserve2mbPage = some (block, b) ∧
          page = block.map
            (fun t => (t.start + node.basePfn) % 2 ^ 64) ∧
          a' = a.setBuddy nodeId node b := by
  unfold reserve2MBPage at hCall
  cases hGet : a.nodes[nodeId]? with
  | none =>
      simp only [hGet, Option.some.injEq, Prod.mk.injEq] at hCall
      exact Or.inl ⟨rfl, hCall.1.symm, hCall.2.symm⟩
  | some node =>
      simp only [hGet] at hCall
      rcases Option.map_eq_some_iff.mp hCall with
        ⟨⟨block, b⟩, hBuddy, hEq⟩
      simp only [Prod.mk.injEq] at hEq
      exact Or.inr ⟨node, block, b, rfl, hBuddy,
        hEq.1.symm, hEq.2.symm⟩

/- An allocation leaves every depleted node depleted. -/
theorem depletedAt_allocate
    {nodeId bytes : Nat}
    {page : Option Nat}
    (hCall : a.allocate nodeId bytes = some (page, a'))
    {i : Nat}
    (hDepleted : a.DepletedAt i) :
    a'.DepletedAt i := by
  rcases allocate_cases hCall with
    ⟨-, -, hSame⟩ | ⟨node, localPage, b, hGet, hBuddy, -, hEq⟩
  · rw [hSame]
    exact hDepleted
  · rw [hEq]
    exact depletedAt_setBuddy hGet
      (fun hOld => hOld.allocate hBuddy) hDepleted

/- A reservation is not possible on a depleted node. -/
theorem DepletedAt.reserve2MBPage
    {nodeId first : Nat}
    (hDepleted : a.DepletedAt nodeId) :
    a.reserve2MBPage nodeId ≠ some (some first, a') := by
  intro hCall
  rcases reserve2MBPage_cases hCall with
    ⟨-, hNone, -⟩ | ⟨node, block, b, hGet, hBuddy, hPage, -⟩
  · cases hNone
  · cases block with
    | none => cases hPage
    | some t =>
        exact (hDepleted node hGet).reserve2mbPage hBuddy

/- Other nodes keep their blocks in a reservation. -/
theorem depletedAt_reserve2MBPage
    {nodeId first : Nat}
    (hCall : a.reserve2MBPage nodeId = some (some first, a'))
    {i : Nat}
    (hDepleted : a.DepletedAt i) :
    a'.DepletedAt i := by
  rcases reserve2MBPage_cases hCall with
    ⟨-, hNone, -⟩ | ⟨node, block, b, hGet, hBuddy, hPage, hEq⟩
  · cases hNone
  · cases block with
    | none => cases hPage
    | some t =>
        rw [hEq]
        refine depletedAt_setBuddy hGet (fun hOld => ?_) hDepleted
        exact absurd hBuddy hOld.reserve2mbPage

end NumaBuddy

------------------------------------------------------------
-- Answers Of A Node
------------------------------------------------------------

namespace NumaReserveThp

open ReserveThp

variable {s s' : NumaReserveThp}

/- The region of a request on a node. -/
inductive FoundOn
    (s : NumaReserveThp)
    (nodeId key : Nat)
    (map : TwoMbMap) :
    Region → NumaBuddy → Prop
  | tracked
      {region : Region}
      (hLookup : map.lookup key = some region) :
      FoundOn s nodeId key map region s.numa
  | reserved
      {first : Nat}
      {numa : NumaBuddy}
      (hLookup : map.lookup key = none)
      (hReserve :
        s.numa.reserve2MBPage nodeId = some (some first, numa)) :
      FoundOn s nodeId key map ⟨first, fun _ => false, false⟩ numa

/- The answers of a node to a request of 4KB. -/
inductive AnsweredAt
    (s : NumaReserveThp)
    (va nodeId : Nat) :
    NumaPlacement → NumaReserveThp → Prop
  | inRegion
      {map : TwoMbMap}
      {region : Region}
      {numa : NumaBuddy}
      (hMap : s.twoMbMaps[nodeId]? = some map)
      (hFound : FoundOn s nodeId (va / 2 ^ 21) map region numa)
      (hOpen : region.promoted = false)
      (promoted : Bool) :
      AnsweredAt s va nodeId
        ⟨nodeId, frameIn region (va / 2 ^ 12 % 512) promoted,
          if promoted then 21 else 12⟩
        (record (setRegion { s with numa := numa } nodeId map
          (va / 2 ^ 21)
          (useOf region (va / 2 ^ 12 % 512) promoted)) nodeId)
  | fromBuddy
      {numa : NumaBuddy}
      {frame : Nat}
      (hLookup : ∀ map, s.twoMbMaps[nodeId]? = some map →
        map.lookup (va / 2 ^ 21) = none)
      (hDepleted : s.numa.DepletedAt nodeId)
      (hCall :
        s.numa.allocate nodeId 4096 = some (some frame, numa)) :
      AnsweredAt s va nodeId ⟨nodeId, frame, 12⟩
        (record { s with numa := numa } nodeId)

/- A free list holds a block. -/
def hasBlock (b : Buddy) : Bool :=
  !(b.freeList 9).isEmpty ||
    (List.range (b.maxOrder + 1)).any (fun k =>
      !(b.freeList k).isEmpty)

/-
  The node has the region of the address or a free block, so
  that it can serve a request without a demotion.
-/
def canServe
    (s : NumaReserveThp)
    (key nodeId : Nat) : Bool :=
  (s.twoMbMaps[nodeId]?).any (fun map =>
      (map.lookup key).isSome) ||
    (s.numa.nodes[nodeId]?).any (fun node =>
      hasBlock node.buddy)

/- Marking a page answers with the region of the page. -/
theorem eq_of_markOnNode
    {nodeId key offset : Nat}
    {map : TwoMbMap}
    {region : Region}
    {placed : Nat × Bool}
    (hMark :
      s.markOnNode nodeId map key region offset =
        some (placed, s')) :
    region.promoted = false ∧
      ∃ promoted,
        placed = (frameIn region offset promoted, promoted) ∧
          s' = s.setRegion nodeId map key
            (useOf region offset promoted) := by
  unfold markOnNode at hMark
  cases hOpen : region.promoted with
  | true => simp [hOpen] at hMark
  | false =>
      simp only [hOpen, Bool.false_eq_true, if_false] at hMark
      split_ifs at hMark with hAbove
      · cases hMark
        exact ⟨rfl, true, rfl, rfl⟩
      · simp only [Option.some.injEq, Prod.mk.injEq] at hMark
        refine ⟨rfl, false, hMark.1.symm, ?_⟩
        rw [← hMark.2, ← hOpen]
        rfl

/- A buddy allocator without a block refuses everything. -/
theorem hasBlock_eq_false_iff
    (b : Buddy) :
    hasBlock b = false ↔
      b.freeList 9 = [] ∧ ∀ k ≤ b.maxOrder, b.freeList k = [] := by
  unfold hasBlock
  rw [Bool.or_eq_false_iff, List.any_eq_false]
  simp only [List.mem_range, Nat.lt_succ_iff,
    Bool.not_eq_true, Bool.not_eq_false',
    List.isEmpty_iff]

variable {b b' : Buddy}

theorem hasBlock_of_reserve
    {block : Span}
    (hReserve : b.reserve2mbPage = some (some block, b')) :
    hasBlock b = true := by
  by_contra hNone
  rw [Bool.not_eq_true, hasBlock_eq_false_iff] at hNone
  have hDepleted : b.Depleted :=
    ⟨hNone.1, fun i _ hMax => hNone.2 i hMax⟩
  exact hDepleted.reserve2mbPage hReserve

theorem orderOf_page :
    Buddy.orderOf (4096 / 4096) = 0 := by
  decide

/- One page is refused only when all lists are empty. -/
theorem allocate_page_iff
    {page : Option Nat}
    (hCall : b.allocate 4096 = some (page, b')) :
    page = none ↔ ∀ k ≤ b.maxOrder, b.freeList k = [] := by
  unfold Buddy.allocate at hCall
  simp only [orderOf_page] at hCall
  cases hScan : b.firstNonEmpty 0 with
  | none =>
      have hEmpty := Buddy.firstNonEmpty_eq_none.mp hScan
      rw [hScan, Option.getD_none, Nat.zero_max, if_pos rfl,
        Option.some.injEq, Prod.mk.injEq] at hCall
      exact ⟨fun _ k hMax => hEmpty k (Nat.zero_le k) hMax,
        fun _ => hCall.1.symm⟩
  | some i =>
      rcases Buddy.firstNonEmpty_eq_some hScan with
        ⟨-, hMax, hSome⟩
      rw [hScan, Option.getD_some, if_neg (by omega)] at hCall
      refine ⟨fun hNone => ?_, fun hEmpty =>
        absurd (hEmpty i hMax) hSome⟩
      split at hCall
      · cases hCall
      · split at hCall
        · cases hCall
        · rw [Option.some.injEq, Prod.mk.injEq, hNone] at hCall
          cases hCall.1

/- A refused page leaves the buddy allocator as it was. -/
theorem allocate_page_none
    (hCall : b.allocate 4096 = some (none, b')) :
    b' = b := by
  unfold Buddy.allocate at hCall
  simp only at hCall
  split_ifs at hCall with hEnd
  · simp only [Option.some.injEq, Prod.mk.injEq] at hCall
    exact hCall.2.symm
  · split at hCall
    · cases hCall
    · split at hCall
      · cases hCall
      · simp at hCall

/- The node has neither the region nor a 2MB block. -/
structure Lacks
    (s : NumaReserveThp)
    (key nodeId : Nat) : Prop where
  lookup : ∀ map, s.twoMbMaps[nodeId]? = some map →
    map.lookup key = none
  depleted : s.numa.DepletedAt nodeId
  lists : ∀ node, s.numa.nodes[nodeId]? = some node →
    4 ≤ node.buddy.maxOrder

theorem canServe_of_found
    {nodeId key : Nat}
    {map : TwoMbMap}
    {region : Region}
    {numa : NumaBuddy}
    (hMap : s.twoMbMaps[nodeId]? = some map)
    (hFound : FoundOn s nodeId key map region numa) :
    s.canServe key nodeId = true := by
  unfold canServe
  rw [Bool.or_eq_true]
  cases hFound with
  | tracked hLookup =>
      left
      simp [hMap, hLookup]
  | reserved hLookup hReserve =>
      right
      rcases NumaBuddy.reserve2MBPage_cases hReserve with
        ⟨-, hNone, -⟩ | ⟨node, block, b, hGet, hBuddy, hPage, -⟩
      · cases hNone
      · cases block with
        | none => cases hPage
        | some t => simp [hGet, hasBlock_of_reserve hBuddy]

/- The outcomes of `checkFor2MBAllocationOnNode`. -/
theorem checkFor2MBAllocationOnNode_spec
    (hLengths : s.twoMbMaps.length = s.numa.nodes.length)
    {va nodeId : Nat}
    {placed : Option (Nat × Bool)}
    (hCheck :
      s.checkFor2MBAllocationOnNode va nodeId = some (placed, s')) :
    (placed = none ∧ s' = s ∧ Lacks s (va / 2 ^ 21) nodeId) ∨
      ∃ map region numa promoted,
        s.twoMbMaps[nodeId]? = some map ∧
          FoundOn s nodeId (va / 2 ^ 21) map region numa ∧
          region.promoted = false ∧
          placed = some (frameIn region (va / 2 ^ 12 % 512)
            promoted, promoted) ∧
          s' = setRegion { s with numa := numa } nodeId map
            (va / 2 ^ 21)
            (useOf region (va / 2 ^ 12 % 512) promoted) := by
  unfold checkFor2MBAllocationOnNode at hCheck
  cases hMap : s.twoMbMaps[nodeId]? with
  | none =>
      left
      simp only [hMap, Option.some.injEq, Prod.mk.injEq] at hCheck
      have hNone : s.numa.nodes[nodeId]? = none := by
        rw [List.getElem?_eq_none_iff] at hMap ⊢
        omega
      refine ⟨hCheck.1.symm, hCheck.2.symm, ?_, ?_, ?_⟩
      · intro map hSome
        rw [hMap] at hSome
        cases hSome
      · intro node hSome
        rw [hNone] at hSome
        cases hSome
      · intro node hSome
        rw [hNone] at hSome
        cases hSome
  | some map =>
      simp only [hMap] at hCheck
      cases hLookup : map.lookup (va / 2 ^ 21) with
      | some region =>
          right
          simp only [hLookup] at hCheck
          rcases Option.map_eq_some_iff.mp hCheck with
            ⟨⟨placed', s₁⟩, hMark, hEq⟩
          rcases eq_of_markOnNode hMark with
            ⟨hOpen, promoted, hPlaced, hState⟩
          simp only [Prod.mk.injEq] at hEq
          refine ⟨map, region, s.numa, promoted, rfl,
            .tracked hLookup, hOpen, ?_, ?_⟩
          · rw [← hEq.1, hPlaced]
          · rw [← hEq.2, hState]
      | none =>
          simp only [hLookup] at hCheck
          cases hReserve : s.numa.reserve2MBPage nodeId with
          | none => simp [hReserve] at hCheck
          | some r =>
              rcases r with ⟨first, numa⟩
              simp only [hReserve] at hCheck
              cases first with
              | some first =>
                  right
                  simp only at hCheck
                  rcases Option.map_eq_some_iff.mp hCheck with
                    ⟨⟨placed', s₁⟩, hMark, hEq⟩
                  rcases eq_of_markOnNode hMark with
                    ⟨hOpen, promoted, hPlaced, hState⟩
                  simp only [Prod.mk.injEq] at hEq
                  refine ⟨map, _, numa, promoted, rfl,
                    .reserved hLookup hReserve, hOpen, ?_, ?_⟩
                  · rw [← hEq.1, hPlaced]
                  · rw [← hEq.2, hState]
              | none =>
                  left
                  simp only [Option.some.injEq,
                    Prod.mk.injEq] at hCheck
                  rcases NumaBuddy.reserve2MBPage_cases
                      hReserve with
                    ⟨hNone, -, -⟩ |
                      ⟨node, block, b, hGet, hBuddy, hPage, hEq⟩
                  · rw [List.getElem?_eq_none_iff,
                      ← hLengths,
                      ← List.getElem?_eq_none_iff,
                      hMap] at hNone
                    cases hNone
                  · cases block with
                    | some t => cases hPage
                    | none =>
                        have hSame :=
                          Buddy.reserve2mbPage_none hBuddy
                        refine ⟨hCheck.1.symm, ?_, ?_, ?_, ?_⟩
                        · rw [← hCheck.2, hEq, hSame,
                            NumaBuddy.setBuddy_self hGet]
                        · intro other hSome
                          rw [hMap, Option.some.injEq] at hSome
                          rw [← hSome]
                          exact hLookup
                        · intro other hSome
                          rw [hGet, Option.some.injEq] at hSome
                          rw [← hSome]
                          exact
                            Buddy.depleted_of_reserve2mbPage hBuddy
                        · intro other hSome
                          rw [hGet, Option.some.injEq] at hSome
                          rw [← hSome]
                          by_contra hFew
                          rw [Buddy.reserve2mbPage,
                            if_pos (by omega)] at hBuddy
                          cases hBuddy

/- A node that lacks the region and has no block. -/
theorem canServe_of_lacks
    {key nodeId : Nat}
    (hLacks : Lacks s key nodeId)
    (hEmpty : ∀ node, s.numa.nodes[nodeId]? = some node →
      ∀ k ≤ node.buddy.maxOrder, node.buddy.freeList k = []) :
    s.canServe key nodeId = false := by
  unfold canServe
  rw [Bool.or_eq_false_iff]
  refine ⟨?_, ?_⟩
  · cases hMap : s.twoMbMaps[nodeId]? with
    | none => rfl
    | some map => simp [hLacks.lookup map hMap]
  · cases hGet : s.numa.nodes[nodeId]? with
    | none => rfl
    | some node =>
        rw [Option.any_some, hasBlock_eq_false_iff]
        exact ⟨(hLacks.depleted node hGet).nine, hEmpty node hGet⟩

/- Every outcome of a request to one node. -/
theorem tryNode_spec
    (hLengths : s.twoMbMaps.length = s.numa.nodes.length)
    {va nodeId : Nat}
    {outcome : Option NumaPlacement}
    (hTry : s.tryNode 4096 va nodeId = some (outcome, s')) :
    (outcome = none ∧ s' = s ∧
        s.canServe (va / 2 ^ 21) nodeId = false ∧
        Lacks s (va / 2 ^ 21) nodeId) ∨
      ∃ placement, outcome = some placement ∧
        s.canServe (va / 2 ^ 21) nodeId = true ∧
        AnsweredAt s va nodeId placement s' := by
  unfold tryNode at hTry
  cases hCheck : s.checkFor2MBAllocationOnNode va nodeId with
  | none => simp [hCheck] at hTry
  | some r =>
      rcases r with ⟨placed, s₁⟩
      simp only [hCheck] at hTry
      rcases checkFor2MBAllocationOnNode_spec hLengths hCheck with
        ⟨hNone, hSame, hLacks⟩ |
          ⟨map, region, numa, promoted, hMap, hFound, hOpen,
            hPlaced, hState⟩
      · subst hNone
        subst hSame
        simp only at hTry
        cases hCall : s₁.numa.allocate nodeId 4096 with
        | none => simp [hCall] at hTry
        | some r =>
            rcases r with ⟨frame, numa⟩
            simp only [hCall] at hTry
            cases frame with
            | some frame =>
                right
                simp only [Option.some.injEq, Prod.mk.injEq] at hTry
                rcases NumaBuddy.allocate_cases hCall with
                  ⟨-, hNone, -⟩ |
                    ⟨node, page, b, hGet, hBuddy, hPage, -⟩
                · cases hNone
                · refine ⟨_, hTry.1.symm, ?_, ?_⟩
                  · have hServes : ¬ ∀ k ≤ node.buddy.maxOrder,
                        node.buddy.freeList k = [] := by
                      rw [← allocate_page_iff hBuddy]
                      intro hNone
                      rw [hNone] at hPage
                      cases hPage
                    have hBlock : hasBlock node.buddy = true := by
                      by_contra hNot
                      rw [Bool.not_eq_true,
                        hasBlock_eq_false_iff] at hNot
                      exact hServes hNot.2
                    simp [canServe, hGet, hBlock]
                  · rw [← hTry.2]
                    exact .fromBuddy hLacks.lookup
                      hLacks.depleted hCall
            | none =>
                left
                simp only [Option.some.injEq, Prod.mk.injEq] at hTry
                rcases NumaBuddy.allocate_cases hCall with
                  ⟨hNone, -, hSame⟩ |
                    ⟨node, page, b, hGet, hBuddy, hPage, hEq⟩
                · refine ⟨hTry.1.symm, ?_, ?_, hLacks⟩
                  · rw [← hTry.2, hSame]
                  · apply canServe_of_lacks hLacks
                    intro node hSome
                    rw [hNone] at hSome
                    cases hSome
                · cases page with
                  | some p => cases hPage
                  | none =>
                      refine ⟨hTry.1.symm, ?_, ?_, hLacks⟩
                      · rw [← hTry.2, hEq,
                          allocate_page_none hBuddy,
                          NumaBuddy.setBuddy_self hGet]
                      · apply canServe_of_lacks hLacks
                        intro other hSome
                        rw [hGet, Option.some.injEq] at hSome
                        rw [← hSome]
                        exact (allocate_page_iff hBuddy).mp rfl
      · subst hPlaced
        subst hState
        right
        simp only [Option.some.injEq, Prod.mk.injEq] at hTry
        refine ⟨_, hTry.1.symm, canServe_of_found hMap hFound, ?_⟩
        rw [← hTry.2]
        exact .inRegion hMap hFound hOpen promoted

end NumaReserveThp

end Virtuoso
