import Mathlib.Data.List.Find
import Virtuoso.Numa.Grounded
import Virtuoso.ReserveThp.Promotion

/-
  The nodes that the pages of a region are on.

  Every node has its own map of regions, so a region that has
  pages on one node can be reserved on another node as well.
  While this does not happen, and no page of a region that is
  still open is served outside of it, a region is reserved on
  at most one node and its promotion keeps every translation.

  Main declarations:
    * `NumaReserveThp.allocate_spec`
    * `NumaReserveThp.oneNode_along`
-/

------------------------------------------------------------
-- The System And Its Regions
------------------------------------------------------------

namespace Virtuoso

namespace NumaReserveThp

open ReserveThp Numa

/- The answer to a request, with the node that it is from. -/
structure Reply where
  nodeId : Nat
  answer : Answer
deriving DecidableEq

/- The allocator and its replies, with the latest first. -/
structure Machine where
  thp : NumaReserveThp
  replies : List Reply

/- A request of a core for the page of an address. -/
structure Request where
  va : Nat
  coreId : Nat
  pick : Nat

/- What the handler is told. -/
def NumaPlacement.reply
    (placement : NumaPlacement)
    (va : Nat) : Reply :=
  ⟨placement.nodeId, ⟨va, some placement.frame, placement.pageSize⟩⟩

/- A request that is served adds its reply. -/
def step
    (m : Machine)
    (request : Request) : Option Machine :=
  (m.thp.allocate 4096 request.va request.coreId request.pick).map
    (fun r =>
      ⟨r.2, NumaPlacement.reply r.1 request.va :: m.replies⟩)

/- The region of a key on a node. -/
def regionOn
    (s : NumaReserveThp)
    (nodeId key : Nat) : Option Region :=
  (s.twoMbMaps[nodeId]?).bind (fun map => map.lookup key)

/-
  A region is reserved on at most one node, and a 2MB answer
  agrees with every answer before it.
-/
structure OneNode (m : Machine) : Prop where
  reserved : ∀ key i j,
    regionOn m.thp i key ≠ none →
      regionOn m.thp j key ≠ none → i = j
  agrees : m.replies.Pairwise (fun later earlier =>
    KeepsTranslation later.answer earlier.answer)

/-
  The node that serves a request: the node it is directed to,
  when it has the region, a block or a region to demote, and
  otherwise the first other node with the region or a block.
-/
def home
    (s : NumaReserveThp)
    (va coreId : Nat) : Option Nat :=
  let target := s.targetNode va coreId
  if s.canServe (va / 2 ^ 21) target || s.hasPartlyUsed target then
    some target
  else
    (s.otherNodes target).find? (s.canServe (va / 2 ^ 21))

/-
  The request finds its region on the node that serves it.
  Otherwise, where the node has a 2MB block for the region,
  no page of the region is on another node, and where it has
  none, no node has the region open.
-/
def Joins (m : Machine) (request : Request) : Prop :=
  ∀ n ∈ home m.thp request.va request.coreId,
    regionOn m.thp n (request.va / 2 ^ 21) ≠ none ∨
      (¬ m.thp.numa.DepletedAt n ∧
        ∀ r ∈ m.replies,
          r.answer.region = request.va / 2 ^ 21 → r.nodeId = n) ∨
      (m.thp.numa.DepletedAt n ∧
        ∀ map ∈ m.thp.twoMbMaps,
          ∀ region ∈ map.lookup (request.va / 2 ^ 21),
            region.promoted = true)

variable {s s' : NumaReserveThp}

theorem regionOn_eq_some_iff
    {nodeId key : Nat}
    {region : Region} :
    regionOn s nodeId key = some region ↔
      ∃ map, s.twoMbMaps[nodeId]? = some map ∧
        map.lookup key = some region := by
  unfold regionOn
  rw [Option.bind_eq_some_iff]

theorem regionOn_of_map
    {nodeId key : Nat}
    {map : TwoMbMap}
    (hMap : s.twoMbMaps[nodeId]? = some map) :
    regionOn s nodeId key = map.lookup key := by
  simp [regionOn, hMap]

/- The regions after one of them was replaced. -/
theorem regionOn_setRegion
    {nodeId key : Nat}
    {map : TwoMbMap}
    (hMap : s.twoMbMaps[nodeId]? = some map)
    (numa : NumaBuddy)
    (region : Region)
    (i k : Nat) :
    regionOn
        (record (setRegion { s with numa := numa } nodeId map
          key region) nodeId) i k =
      if nodeId = i ∧ k = key then some region
      else regionOn s i k := by
  rcases List.getElem?_eq_some_iff.mp hMap with ⟨hLt, -⟩
  simp only [regionOn, record, setRegion, List.getElem?_set]
  by_cases hSame : nodeId = i
  · subst hSame
    simp only [hLt, if_true, Option.bind_some, true_and, hMap,
      TwoMbMap.lookup_cons_erase]
  · simp only [hSame, false_and, if_false]

/- A demotion forgets regions of its node only. -/
theorem Demotes.regionOn
    {nodeId : Nat}
    {e : Nat × Region}
    (hDemotes : Demotes s nodeId e s')
    (i k : Nat) :
    NumaReserveThp.regionOn s' i k = NumaReserveThp.regionOn s i k ∨
      (i = nodeId ∧ NumaReserveThp.regionOn s' i k = none) := by
  rcases hDemotes.regions with ⟨map, hMap, -, -, -, hMaps⟩
  rcases List.getElem?_eq_some_iff.mp hMap with ⟨hLt, -⟩
  simp only [NumaReserveThp.regionOn, hMaps, List.getElem?_set]
  by_cases hSame : nodeId = i
  · subst hSame
    simp only [hLt, if_true, Option.bind_some, hMap,
      TwoMbMap.lookup_erase]
    split_ifs
    · exact Or.inr ⟨trivial, rfl⟩
    · exact Or.inl rfl
  · simp only [if_neg hSame, true_or]

/- A demotion does not change what other nodes can serve. -/
theorem Demotes.canServe
    {nodeId : Nat}
    {e : Nat × Region}
    (hDemotes : Demotes s nodeId e s')
    {i : Nat}
    (hOther : i ≠ nodeId)
    (key : Nat) :
    s'.canServe key i = s.canServe key i := by
  rcases hDemotes.regions with ⟨map, -, -, -, -, hMaps⟩
  rcases hDemotes.blocks with ⟨node, b, hGet, hNuma, -⟩
  unfold NumaReserveThp.canServe
  rw [hMaps, List.getElem?_set_ne hOther.symm, hNuma,
    NumaBuddy.getElem?_setBuddy hGet, if_neg hOther.symm]

/- The loop answers with the first node that can serve. -/
theorem spill_spec
    (hLengths : s.twoMbMaps.length = s.numa.nodes.length)
    {va : Nat}
    {ns : List Nat}
    {placement : NumaPlacement}
    (hSpill : spill 4096 va ns s = some (placement, s')) :
    ∃ n, ns.find? (s.canServe (va / 2 ^ 21)) = some n ∧
      AnsweredAt s va n placement s' := by
  induction ns with
  | nil => simp [spill] at hSpill
  | cons n ns ih =>
      rw [spill] at hSpill
      cases hTry : s.tryNode 4096 va n with
      | none => simp [hTry] at hSpill
      | some r =>
          rcases r with ⟨outcome, s₁⟩
          simp only [hTry] at hSpill
          rcases tryNode_spec hLengths hTry with
            ⟨hNone, hSame, hServes, -⟩ |
              ⟨placed, hSome, hServes, hAnswered⟩
          · subst hNone
            subst hSame
            have hSkip : ¬ s₁.canServe (va / 2 ^ 21) n = true := by
              rw [hServes]
              exact Bool.false_ne_true
            rw [List.find?_cons_of_neg hSkip]
            exact ih hSpill
          · subst hSome
            simp only [Option.some.injEq, Prod.mk.injEq] at hSpill
            rw [← hSpill.1, ← hSpill.2]
            exact ⟨n, List.find?_cons_of_pos hServes, hAnswered⟩

/- A node that lacks a region may have demoted another. -/
def Yields
    (s : NumaReserveThp)
    (key nodeId : Nat)
    (s' : NumaReserveThp) : Prop :=
  s' = s ∨ Lacks s key nodeId ∧ ∃ e, Demotes s nodeId e s'

theorem Lacks.regionOn
    {key nodeId : Nat}
    (hLacks : Lacks s key nodeId) :
    NumaReserveThp.regionOn s nodeId key = none := by
  unfold NumaReserveThp.regionOn
  rw [Option.bind_eq_none_iff]
  exact hLacks.lookup

/- The regions of the key are on the same nodes as before. -/
theorem Yields.regionOn
    {key nodeId : Nat}
    (hYields : Yields s key nodeId s')
    (i : Nat) :
    NumaReserveThp.regionOn s' i key =
      NumaReserveThp.regionOn s i key := by
  rcases hYields with hEq | ⟨hLacks, e, hDemotes⟩
  · rw [hEq]
  · rcases hDemotes.regionOn i key with hSame | ⟨hOwn, hNone⟩
    · exact hSame
    · rw [hNone, hOwn, hLacks.regionOn]

theorem Yields.depletedAt_iff
    {key nodeId : Nat}
    (hYields : Yields s key nodeId s')
    (i : Nat) :
    s'.numa.DepletedAt i ↔ s.numa.DepletedAt i := by
  rcases hYields with hEq | ⟨-, e, hDemotes⟩
  · rw [hEq]
  · exact hDemotes.depletedAt_iff i

/-
  Every request is answered by its home, possibly after a
  demotion on the node that it was directed to.
-/
theorem allocate_spec
    (hGrounded : Grounded s)
    {va coreId pick : Nat}
    {placement : NumaPlacement}
    (hCall : s.allocate 4096 va coreId pick =
      some (placement, s')) :
    ∃ n s₁, home s va coreId = some n ∧
      Yields s (va / 2 ^ 21) (s.targetNode va coreId) s₁ ∧
      Grounded s₁ ∧
      AnsweredAt s₁ va n placement s' := by
  unfold allocate at hCall
  unfold home
  simp only at hCall ⊢
  generalize s.targetNode va coreId = target at hCall ⊢
  cases hTry : s.tryNode 4096 va target with
  | none => simp [hTry] at hCall
  | some r =>
      rcases r with ⟨outcome, s₀⟩
      simp only [hTry] at hCall
      rcases tryNode_spec hGrounded.lengths hTry with
        ⟨hNone, hSame, hServes, hLacks⟩ |
          ⟨placed, hSome, hServes, hAnswered⟩
      · subst hNone
        subst hSame
        simp only at hCall
        cases hRetry : s₀.retry 4096 target pick with
        | none => simp [hRetry] at hCall
        | some r =>
            rcases r with ⟨outcome, s₂⟩
            simp only [hRetry] at hCall
            rcases retry_spec hGrounded hLacks hServes hRetry
              with ⟨s₁, hFrom, hNext, hOutcome⟩
            have hYields : Yields s₀ (va / 2 ^ 21) target s₁ := by
              rcases hFrom with hEq | hDemotes
              · exact Or.inl hEq
              · exact Or.inr ⟨hLacks, hDemotes⟩
            rcases hOutcome with
              ⟨hNone, hSame, hPartly⟩ |
                ⟨frame, numa, hSome, hPartly, hPage, hSame⟩
            · subst hNone
              subst hSame
              simp only at hCall
              rcases spill_spec hNext.lengths hCall with
                ⟨n, hFind, hAnswered⟩
              refine ⟨n, s₂, ?_, hYields, hNext, hAnswered⟩
              rw [hServes, hPartly, Bool.or_false,
                if_neg Bool.false_ne_true, ← hFind]
              apply List.find?_congr
              intro i hMem
              have hOther : i ≠ target := by
                simpa using (List.mem_filter.mp hMem).2
              rcases hFrom with hEq | ⟨e, hDemotes⟩
              · rw [hEq]
              · exact (hDemotes.canServe hOther _).symm
            · subst hSome
              subst hSame
              simp only [Option.some.injEq, Prod.mk.injEq] at hCall
              rw [← hCall.1, ← hCall.2]
              refine ⟨target, s₁, ?_, hYields, hNext, ?_⟩
              · rw [hPartly, Bool.or_true, if_pos rfl]
              · refine .fromBuddy ?_ ?_ hPage
                · intro map hMap
                  rw [← regionOn_of_map hMap, hYields.regionOn]
                  exact hLacks.regionOn
                · rw [hYields.depletedAt_iff]
                  exact hLacks.depleted
      · subst hSome
        simp only [Option.some.injEq, Prod.mk.injEq] at hCall
        rw [← hCall.1, ← hCall.2]
        refine ⟨target, s, ?_, Or.inl rfl, hGrounded, hAnswered⟩
        rw [hServes, Bool.true_or, if_pos rfl]

------------------------------------------------------------
-- The Invariant And Runs
------------------------------------------------------------

/-
  Every region belongs to a node that has answered with one
  of its pages. The answers in a region that may still be
  promoted are at their offsets.
-/
structure Inv (m : Machine) : Prop where
  grounded : Grounded m.thp
  unique : ∀ key i j,
    regionOn m.thp i key ≠ none →
      regionOn m.thp j key ≠ none → i = j
  owned : ∀ key n, regionOn m.thp n key ≠ none →
    ∃ r ∈ m.replies, r.answer.region = key ∧ r.nodeId = n
  placed : ∀ key n region,
    regionOn m.thp n key = some region →
      region.promoted = false →
        ∀ r ∈ m.replies, r.answer.region = key → r.answer.At region
  tracked : ∀ r ∈ m.replies,
    regionOn m.thp r.nodeId r.answer.region ≠ none ∨
      m.thp.numa.DepletedAt r.nodeId
  agrees : m.replies.Pairwise (fun later earlier =>
    KeepsTranslation later.answer earlier.answer)

theorem Inv.oneNode
    {m : Machine}
    (hInv : Inv m) :
    OneNode m :=
  ⟨hInv.unique, hInv.agrees⟩

variable {replies : List Reply}

/- A demotion on a node without 2MB blocks. -/
theorem Inv.yields
    (hInv : Inv ⟨s, replies⟩)
    {key nodeId : Nat}
    (hYields : Yields s key nodeId s')
    (hGrounded : Grounded s') :
    Inv ⟨s', replies⟩ := by
  rcases hYields with hEq | ⟨hLacks, e, hDemotes⟩
  · rw [hEq]
    exact hInv
  · have hHad : ∀ i k region,
        regionOn s' i k = some region →
          regionOn s i k = some region := by
      intro i k region hSome
      rcases hDemotes.regionOn i k with hSame | ⟨-, hNone⟩
      · exact hSame ▸ hSome
      · rw [hNone] at hSome
        cases hSome
    have hHeld : ∀ i k, regionOn s' i k ≠ none →
        regionOn s i k ≠ none := by
      intro i k hSome
      rcases Option.ne_none_iff_exists'.mp hSome with
        ⟨region, hRegion⟩
      rw [hHad i k region hRegion]
      exact Option.some_ne_none region
    refine ⟨hGrounded, ?_, ?_, ?_, ?_, hInv.agrees⟩
    · intro k i j hI hJ
      exact hInv.unique k i j (hHeld i k hI) (hHeld j k hJ)
    · intro k n hSome
      exact hInv.owned k n (hHeld n k hSome)
    · intro k n region hSome
      exact hInv.placed k n region (hHad n k region hSome)
    · intro r hMem
      rw [hDemotes.depletedAt_iff]
      rcases hInv.tracked r hMem with hHeldOn | hDepleted
      · rcases hDemotes.regionOn r.nodeId r.answer.region with
          hSame | ⟨hOwn, -⟩
        · left
          rw [hSame]
          exact hHeldOn
        · right
          rw [hOwn]
          exact hLacks.depleted
      · exact Or.inr hDepleted

/- Finding the region of a request depletes no node anew. -/
theorem FoundOn.depletedAt
    {nodeId key : Nat}
    {map : TwoMbMap}
    {region : Region}
    {numa : NumaBuddy}
    (hFound : FoundOn s nodeId key map region numa)
    {i : Nat}
    (hDepleted : s.numa.DepletedAt i) :
    numa.DepletedAt i := by
  cases hFound with
  | tracked hLookup => exact hDepleted
  | reserved hLookup hReserve =>
      exact NumaBuddy.depletedAt_reserve2MBPage hReserve hDepleted

/- An answer in a region that is on no other node. -/
theorem Inv.inRegion
    (hInv : Inv ⟨s, replies⟩)
    {va nodeId : Nat}
    {map : TwoMbMap}
    {region : Region}
    {numa : NumaBuddy}
    (hMap : s.twoMbMaps[nodeId]? = some map)
    (hFound : FoundOn s nodeId (va / 2 ^ 21) map region numa)
    (hOpen : region.promoted = false)
    (promoted : Bool)
    (hOnly : ∀ i, regionOn s i (va / 2 ^ 21) ≠ none → i = nodeId)
    (hAt : ∀ r ∈ replies, r.answer.region = va / 2 ^ 21 →
      r.answer.At region) :
    Inv
      ⟨record (setRegion { s with numa := numa } nodeId map
          (va / 2 ^ 21)
          (useOf region (va / 2 ^ 12 % 512) promoted)) nodeId,
        ⟨nodeId, ⟨va, some (frameIn region (va / 2 ^ 12 % 512)
            promoted), if promoted then 21 else 12⟩⟩ ::
          replies⟩ := by
  have hGrounded := grounded_answeredAt hInv.grounded
    (.inRegion hMap hFound hOpen promoted)
  refine ⟨hGrounded, ?_, ?_, ?_, ?_, ?_⟩
  · intro key i j hI hJ
    simp only [regionOn_setRegion hMap] at hI hJ
    by_cases hKey : key = va / 2 ^ 21
    · subst hKey
      have hSelf : ∀ i, (if nodeId = i ∧
          va / 2 ^ 21 = va / 2 ^ 21 then
            some (useOf region (va / 2 ^ 12 % 512) promoted)
          else regionOn s i (va / 2 ^ 21)) ≠ none → i = nodeId := by
        intro i hSome
        by_cases hOwn : nodeId = i
        · exact hOwn.symm
        · rw [if_neg (fun hBoth => hOwn hBoth.1)] at hSome
          exact hOnly i hSome
      rw [hSelf i hI, hSelf j hJ]
    · rw [if_neg (fun hBoth => hKey hBoth.2)] at hI hJ
      exact hInv.unique key i j hI hJ
  · intro key n hSome
    simp only [regionOn_setRegion hMap] at hSome
    by_cases hNew : nodeId = n ∧ key = va / 2 ^ 21
    · exact ⟨_, List.mem_cons_self, hNew.2.symm, hNew.1⟩
    · rw [if_neg hNew] at hSome
      rcases hInv.owned key n hSome with ⟨r, hMem, hReply⟩
      exact ⟨r, List.mem_cons_of_mem _ hMem, hReply⟩
  · intro key n region' hSome hOpen' r hMem hKey
    simp only [regionOn_setRegion hMap] at hSome
    by_cases hNew : nodeId = n ∧ key = va / 2 ^ 21
    · rw [if_pos hNew, Option.some.injEq] at hSome
      subst hSome
      have hSmall : promoted = false := hOpen'
      subst hSmall
      rcases List.mem_cons.mp hMem with hEq | hOld
      · subst hEq
        exact ⟨rfl, rfl⟩
      · exact hAt r hOld (hKey.trans hNew.2)
    · rw [if_neg hNew] at hSome
      rcases List.mem_cons.mp hMem with hEq | hOld
      · subst hEq
        subst hKey
        have hOwn : n = nodeId := by
          apply hOnly n
          intro hNone
          have hSome' : regionOn s n (va / 2 ^ 21) =
              some region' := hSome
          rw [hNone] at hSome'
          cases hSome'
        exact absurd ⟨hOwn.symm, rfl⟩ hNew
      · exact hInv.placed key n region' hSome hOpen' r hOld hKey
  · intro r hMem
    simp only [regionOn_setRegion hMap]
    rcases List.mem_cons.mp hMem with hEq | hOld
    · subst hEq
      left
      rw [if_pos ⟨rfl, rfl⟩]
      exact Option.some_ne_none _
    · by_cases hNew : nodeId = r.nodeId ∧
          r.answer.region = va / 2 ^ 21
      · left
        rw [if_pos hNew]
        exact Option.some_ne_none _
      · rw [if_neg hNew]
        rcases hInv.tracked r hOld with hHeld | hDepleted
        · exact Or.inl hHeld
        · exact Or.inr (hFound.depletedAt hDepleted)
  · refine List.Pairwise.cons ?_ hInv.agrees
    intro r hMem hLarge hRegion
    cases promoted with
    | false => simp at hLarge
    | true =>
        rcases hAt r hMem hRegion with ⟨hFrame, hSize⟩
        refine ⟨region.regionBegin, rfl, hFrame, hSize, ?_⟩
        intro va' hPage
        exact finalPhysicalAddress_promoted _ hPage

/- A page of a node while no node has the region open. -/
theorem Inv.fromBuddy
    (hInv : Inv ⟨s, replies⟩)
    {va nodeId frame : Nat}
    {numa : NumaBuddy}
    (hDepleted : s.numa.DepletedAt nodeId)
    (hCall : s.numa.allocate nodeId 4096 = some (some frame, numa))
    (hClosed : ∀ n region,
      regionOn s n (va / 2 ^ 21) = some region →
        region.promoted = true) :
    Inv
      ⟨record { s with numa := numa } nodeId,
        ⟨nodeId, ⟨va, some frame, 12⟩⟩ :: replies⟩ := by
  have hGrounded :=
    (grounded_allocate hInv.grounded hCall).record nodeId
  refine ⟨hGrounded, hInv.unique, ?_, ?_, ?_, ?_⟩
  · intro key n hSome
    rcases hInv.owned key n hSome with ⟨r, hMem, hReply⟩
    exact ⟨r, List.mem_cons_of_mem _ hMem, hReply⟩
  · intro key n region hSome hOpen r hMem hKey
    rcases List.mem_cons.mp hMem with hEq | hOld
    · subst hEq
      subst hKey
      rw [hClosed n region hSome] at hOpen
      cases hOpen
    · exact hInv.placed key n region hSome hOpen r hOld hKey
  · intro r hMem
    rcases List.mem_cons.mp hMem with hEq | hOld
    · subst hEq
      exact Or.inr (NumaBuddy.depletedAt_allocate hCall hDepleted)
    · rcases hInv.tracked r hOld with hHeld | hEmpty
      · exact Or.inl hHeld
      · exact Or.inr (NumaBuddy.depletedAt_allocate hCall hEmpty)
  · refine List.Pairwise.cons ?_ hInv.agrees
    intro r hMem hLarge
    exact absurd hLarge (by simp)

/- A request that joins its region keeps the invariant. -/
theorem inv_step
    {m m' : Machine}
    {request : Request}
    (hInv : Inv m)
    (hJoins : Joins m request)
    (hStep : step m request = some m') :
    Inv m' := by
  rcases m with ⟨s, replies⟩
  rcases Option.map_eq_some_iff.mp hStep with
    ⟨⟨placement, s'⟩, hCall, hEq⟩
  subst hEq
  rcases allocate_spec hInv.grounded hCall with
    ⟨n, s₁, hHome, hYields, hGrounded, hAnswered⟩
  have hInv₁ := hInv.yields hYields hGrounded
  have hCase := hJoins n hHome
  simp only at hCase
  rw [← hYields.regionOn, ← hYields.depletedAt_iff] at hCase
  cases hAnswered with
  | @inRegion map region numa hMap hFound hOpen promoted =>
      have hRegion :
          regionOn s₁ n (request.va / 2 ^ 21) =
            map.lookup (request.va / 2 ^ 21) :=
        regionOn_of_map hMap
      cases hFound with
      | tracked hLookup =>
          rw [hLookup] at hRegion
          refine hInv₁.inRegion hMap (.tracked hLookup) hOpen
            promoted ?_ ?_
          · intro i hSome
            refine hInv₁.unique _ i n hSome ?_
            rw [hRegion]
            exact Option.some_ne_none region
          · exact hInv₁.placed _ n region hRegion hOpen
      | reserved hLookup hReserve =>
          rw [hLookup] at hRegion
          -- no page of the region was answered before
          have hFresh : ∀ r ∈ replies,
              r.answer.region ≠ request.va / 2 ^ 21 := by
            intro r hMem hKey
            rcases hCase with hHeld | ⟨-, hAll⟩ | ⟨hDepleted, -⟩
            · exact hHeld hRegion
            · have hNode := hAll r hMem hKey
              rcases hInv₁.tracked r hMem with
                hHeld | hDepleted
              · rw [hNode, hKey] at hHeld
                exact hHeld hRegion
              · rw [hNode] at hDepleted
                exact hDepleted.reserve2MBPage hReserve
            · exact hDepleted.reserve2MBPage hReserve
          refine hInv₁.inRegion hMap
            (.reserved hLookup hReserve) hOpen promoted ?_ ?_
          · intro i hSome
            rcases hInv₁.owned _ i hSome with
              ⟨r, hMem, hKey, -⟩
            exact absurd hKey (hFresh r hMem)
          · intro r hMem hKey
            exact absurd hKey (hFresh r hMem)
  | @fromBuddy numa frame hLookup hDepleted hPage =>
      refine hInv₁.fromBuddy hDepleted hPage ?_
      intro i region hSome
      have hNone : regionOn s₁ n (request.va / 2 ^ 21) = none := by
        unfold regionOn
        rw [Option.bind_eq_none_iff]
        exact hLookup
      rcases hCase with hHeld | ⟨hBlocks, -⟩ | ⟨-, hAll⟩
      · exact absurd hNone hHeld
      · exact absurd hDepleted hBlocks
      · rw [hYields.regionOn] at hSome
        rcases regionOn_eq_some_iff.mp hSome with
          ⟨map, hMap, hEntry⟩
        exact hAll map (List.mem_of_getElem? hMap) region hEntry

/- A new allocator satisfies the invariant. -/
theorem inv_start
    {maxOrder coresTotal : Nat}
    {sizes : List NodeSize}
    (hSound : Sound 0 sizes)
    {engine : PlacementEngine}
    {threshold : ℚ}
    (hConstruct : construct maxOrder coresTotal sizes engine
      threshold = some s) :
    Inv ⟨s, []⟩ := by
  rcases Option.map_eq_some_iff.mp hConstruct with
    ⟨numa, hNuma, hEq⟩
  subst hEq
  have hNodes := Numa.inv_start hSound coresTotal hNuma
  have hNone : ∀ i key, regionOn
      { numa := numa
        engine := engine
        twoMbMaps := numa.nodes.map (fun _ => [])
        thresholdForPromotion := threshold
        coresPerNode := NumaKernel.coresOf coresTotal
          numa.nodes.length } i key = none := by
    intro i key
    simp only [regionOn, List.getElem?_map]
    cases numa.nodes[i]? with
    | none => rfl
    | some node => rfl
  refine ⟨⟨hNodes.laid, by simp, ?_, ?_⟩, ?_, ?_, ?_, by simp,
    List.Pairwise.nil⟩
  · intro node hMem k block hBlock
    refine (hNodes.within node hMem k block hBlock).mono ?_
    change node.numPages ≤ slack node.numPages k
    unfold slack
    split_ifs <;> omega
  · intro i map hMap e hEntry
    have hNil : map = [] := by
      rcases List.mem_map.mp (List.mem_of_getElem? hMap) with
        ⟨node, -, hEq⟩
      exact hEq.symm
    rw [hNil] at hEntry
    cases hEntry
  · intro key i j hSome
    exact absurd (hNone i key) hSome
  · intro key n hSome
    exact absurd (hNone n key) hSome
  · intro key n region hSome
    have hEmpty := hNone n key
    rw [hSome] at hEmpty
    cases hEmpty

/-
  In every run whose requests join their regions, with any
  policy, threshold and number of nodes and cores, a region
  is reserved on at most one node and a 2MB answer agrees
  with every answer before it.
-/
theorem oneNode_along
    (maxOrder coresTotal : Nat)
    (sizes : List NodeSize)
    (hSound : Sound 0 sizes)
    (engine : PlacementEngine)
    (threshold : ℚ)
    (s : NumaReserveThp)
    (hConstruct : construct maxOrder coresTotal sizes engine
      threshold = some s)
    (requests : List Request)
    (hAlong : Run.Along step Joins ⟨s, []⟩ requests) :
    ∀ front, front <+: requests →
      ∀ m, Run.run step ⟨s, []⟩ front = some m → OneNode m := by
  intro front hFront m hRun
  exact (Run.along_inv
    (fun _ _ _ hInv hJoins hStep => inv_step hInv hJoins hStep)
    (inv_start hSound hConstruct) hAlong hFront hRun).1.oneNode

instance (b : Buddy) : Decidable b.Depleted :=
  decidable_of_iff
    (b.freeList 9 = [] ∧
      ∀ i < b.maxOrder + 1, 10 ≤ i → b.freeList i = [])
    ⟨fun h => ⟨h.1, fun i hLow hHigh =>
      h.2 i (Nat.lt_succ_of_le hHigh) hLow⟩,
      fun h => ⟨h.nine, fun i hHigh hLow =>
        h.above i hLow (Nat.le_of_lt_succ hHigh)⟩⟩

instance
    (a : NumaBuddy)
    (nodeId : Nat) :
    Decidable (a.DepletedAt nodeId) :=
  decidable_of_iff
    (∀ node ∈ a.nodes[nodeId]?, node.buddy.Depleted) Iff.rfl

instance
    (m : Machine)
    (request : Request) :
    Decidable (Joins m request) :=
  inferInstanceAs (Decidable
    (∀ n ∈ home m.thp request.va request.coreId, _))

/- The cores of two nodes use a region on the same node. -/
theorem oneNode_along_bound :
    ∃ s ∈ construct 9 2 [⟨4, 2⟩, ⟨4, 2⟩]
        (engineOf .interleave 1 (fun m n => m / n)
          [⟨4, 2⟩, ⟨4, 2⟩]) (1 / 512),
      ∃ m ∈ Run.run step ⟨s, []⟩ [⟨4096, 0, 0⟩, ⟨12288, 1, 0⟩],
        m.replies =
            [⟨1, ⟨12288, some 1536, 21⟩⟩,
              ⟨1, ⟨4096, some 1537, 12⟩⟩] ∧
          OneNode m := by
  refine ⟨_, Option.get_mem ?_, _, Option.get_mem ?_, ?_, ?_⟩
  iterate 3 decide +kernel
  exact oneNode_along 9 2 _ sound_twoNodes _ _ _
    (Option.get_mem _) _
    (by decide +kernel) _ (List.prefix_refl _) _
    (Option.get_mem _)

/-
  Two cores use a region, each on its own node. The region is
  promoted on the first node, and the 2MB page does not have
  the page that was taken on the second.
-/
theorem not_oneNode_twoCores :
    ∃ s ∈ construct 9 2 [⟨4, 2⟩, ⟨4, 2⟩]
        (engineOf .cpuLocal 1 (fun m n => m / n)
          [⟨4, 2⟩, ⟨4, 2⟩]) (1 / 512),
      ∃ m ∈ Run.run step ⟨s, []⟩
          [⟨4096, 0, 0⟩, ⟨8192, 1, 0⟩, ⟨12288, 0, 0⟩],
        m.replies =
            [⟨0, ⟨12288, some 512, 21⟩⟩,
              ⟨1, ⟨8192, some 1538, 12⟩⟩,
              ⟨0, ⟨4096, some 513, 12⟩⟩] ∧
          regionOn m.thp 0 0 ≠ none ∧
          regionOn m.thp 1 0 ≠ none ∧
          ¬ OneNode m := by
  refine ⟨_, Option.get_mem ?_, _, Option.get_mem ?_,
    ?_, ?_, ?_, fun hOneNode => ?_⟩
  iterate 5 decide +kernel
  have hSame := hOneNode.reserved 0 0 1
    (by decide +kernel) (by decide +kernel)
  omega

end NumaReserveThp

end Virtuoso
