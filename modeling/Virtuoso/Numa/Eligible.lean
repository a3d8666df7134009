import Virtuoso.Lib.FirstLeast
import Virtuoso.Numa.Speculation

/-
  Allocation on the nodes that are speculated on.

  The choice of one node and the set of eligible nodes agree
  while a node that may be chosen is below the bound of the
  search, and the fallback of one is that of the other.

  Main declarations:
    * `PlacementEngine.leastUtilized_eq_iff`
    * `SpeculationEngine.agrees_iff`
-/

namespace Virtuoso

namespace PlacementEngine

/- The double next to 1.1, where the search starts. -/
def searchBound : ℚ :=
  2476979795053773 / 2251799813685248

variable (e : PlacementEngine)

/- An allowed node that the search can find. -/
def Findable (allowed : Nat → Bool) (nodeId : Nat) : Prop :=
  ∃ n, e.nodes[nodeId]? = some n ∧ allowed nodeId = true ∧
    e.utilization n < searchBound

/-
  The first of the allowed nodes with the least utilization,
  or node 0 where all of them are above the bound.
-/
def IsLeastUtilized
    (allowed : Nat → Bool)
    (nodeId : Nat) : Prop :=
  (∃ n, e.nodes[nodeId]? = some n ∧ allowed nodeId = true ∧
    e.utilization n < searchBound ∧
    ∀ j m, e.nodes[j]? = some m → allowed j = true →
      e.utilization n ≤ e.utilization m ∧
        (j < nodeId → e.utilization n < e.utilization m)) ∨
  (nodeId = 0 ∧ ∀ j, ¬ e.Findable allowed j)

/- The allowed nodes, with what they are compared by. -/
def candidates (allowed : Nat → Bool) : List (Nat × ℚ) :=
  (e.nodes.zipIdx.filter (fun n => allowed n.2)).map
    (fun n => (n.2, e.utilization n.1))

variable {e}

theorem mem_candidates_iff
    {allowed : Nat → Bool}
    {c : Nat × ℚ} :
    c ∈ e.candidates allowed ↔
      ∃ n, e.nodes[c.1]? = some n ∧ allowed c.1 = true ∧
        e.utilization n = c.2 := by
  rw [candidates, List.mem_map]
  constructor
  · rintro ⟨⟨n, i⟩, hMem, rfl⟩
    rw [List.mem_filter, List.mem_zipIdx_iff_getElem?] at hMem
    exact ⟨n, hMem.1, hMem.2, rfl⟩
  · rintro ⟨n, hNode, hAllowed, hValue⟩
    refine ⟨(n, c.1), ?_, ?_⟩
    · rw [List.mem_filter, List.mem_zipIdx_iff_getElem?]
      exact ⟨hNode, hAllowed⟩
    · exact Prod.ext rfl hValue

theorem candidates_pairwise
    (allowed : Nat → Bool) :
    (e.candidates allowed).Pairwise (fun c d => c.1 < d.1) := by
  have hIndices :
      (e.nodes.zipIdx.map Prod.snd).Pairwise (· < ·) := by
    rw [List.zipIdx_map_snd]
    exact List.pairwise_lt_range' ..
  rw [candidates, List.pairwise_map]
  exact (List.pairwise_map.mp hIndices).filter _

theorem leastUtilized_eq_scan
    (allowed : Nat → Bool) :
    e.leastUtilized allowed =
      (FirstLeast.scan (0, searchBound)
        (e.candidates allowed)).1 := by
  rw [leastUtilized, FirstLeast.scan, candidates,
    List.foldl_map, List.foldl_filter]
  congr 2
  funext best n
  by_cases hAllowed : allowed n.2 = true
  · rw [if_pos hAllowed]
    congr 1
    rw [eq_iff_iff]
    exact and_iff_right hAllowed
  · rw [if_neg hAllowed, if_neg (fun hBoth => hAllowed hBoth.1)]

/- What the search of `getLeastUtilizedNode` finds. -/
theorem leastUtilized_eq_iff
    (allowed : Nat → Bool)
    (nodeId : Nat) :
    e.leastUtilized allowed = nodeId ↔
      e.IsLeastUtilized allowed nodeId := by
  rw [leastUtilized_eq_scan, FirstLeast.scan_eq_iff _ _
    (candidates_pairwise allowed), IsLeastUtilized]
  apply or_congr
  · constructor
    · rintro ⟨v, hBelow, hMem, hAll⟩
      rcases mem_candidates_iff.mp hMem with
        ⟨n, hNode, hAllowed, rfl⟩
      refine ⟨n, hNode, hAllowed, hBelow, ?_⟩
      intro j m hJ hAllowedJ
      exact hAll (j, e.utilization m)
        (mem_candidates_iff.mpr ⟨m, hJ, hAllowedJ, rfl⟩)
    · rintro ⟨n, hNode, hAllowed, hBelow, hAll⟩
      refine ⟨e.utilization n, hBelow,
        mem_candidates_iff.mpr ⟨n, hNode, hAllowed, rfl⟩, ?_⟩
      intro c hC
      rcases mem_candidates_iff.mp hC with
        ⟨m, hJ, hAllowedJ, hValue⟩
      rw [← hValue]
      exact hAll c.1 m hJ hAllowedJ
  · apply and_congr_right
    intro _
    constructor
    · rintro hNone j ⟨n, hNode, hAllowed, hBelow⟩
      exact absurd hBelow (not_lt_of_ge
        (hNone (j, e.utilization n)
          (mem_candidates_iff.mpr ⟨n, hNode, hAllowed, rfl⟩)))
    · intro hNone c hC
      rcases mem_candidates_iff.mp hC with
        ⟨n, hNode, hAllowed, hValue⟩
      rw [← hValue]
      exact not_lt.mp (fun hBelow =>
        hNone c.1 ⟨n, hNode, hAllowed, hBelow⟩)

theorem isLeastUtilized_leastUtilized
    (allowed : Nat → Bool) :
    e.IsLeastUtilized allowed (e.leastUtilized allowed) :=
  (leastUtilized_eq_iff allowed _).mp rfl

theorem belowThreshold_iff
    {nodeId : Nat} :
    e.belowThreshold nodeId = true ↔
      ∃ n, e.nodes[nodeId]? = some n ∧
        e.utilization n < e.utilizationThreshold := by
  rw [belowThreshold, Option.any_eq_true]
  simp only [decide_eq_true_eq]

theorem mem_spillNodes_iff
    {nodeId : Nat} :
    nodeId ∈ e.spillNodes ↔ e.belowThreshold nodeId = true := by
  rw [spillNodes, List.mem_filter, List.mem_range]
  apply and_iff_right_of_imp
  intro hBelow
  rcases belowThreshold_iff.mp hBelow with ⟨n, hNode, _⟩
  exact (List.getElem?_eq_some_iff.mp hNode).1

/- The search finds one of the nodes below the threshold. -/
theorem leastUtilized_mem_spillNodes_iff
    (hSpill : e.spillNodes ≠ []) :
    e.leastUtilized (fun _ => true) ∈ e.spillNodes ↔
      e.belowThreshold 0 = true ∨
        ∃ j, e.Findable (fun _ => true) j := by
  rcases List.exists_mem_of_ne_nil _ hSpill with ⟨j, hJ⟩
  rcases belowThreshold_iff.mp (mem_spillNodes_iff.mp hJ) with
    ⟨m, hM, hBelow⟩
  rw [mem_spillNodes_iff]
  have hLeast := e.isLeastUtilized_leastUtilized (fun _ => true)
  generalize e.leastUtilized (fun _ => true) = r at *
  rcases hLeast with
    ⟨n, hNode, hAllowed, hBound, hAll⟩ | ⟨hZero, hNone⟩
  · constructor
    · intro _
      exact Or.inr ⟨r, n, hNode, hAllowed, hBound⟩
    · intro _
      exact belowThreshold_iff.mpr ⟨n, hNode,
        (hAll j m hM rfl).1.trans_lt hBelow⟩
  · rw [hZero]
    constructor
    · exact Or.inl
    · intro hOr
      exact hOr.resolve_right (fun ⟨i, hI⟩ => hNone i hI)

/- The node is one of the bind mask. -/
def isBound (e : PlacementEngine) (nodeId : Nat) : Bool :=
  e.bindMask.getD nodeId false

/-
  The choice of a node falls back on an eligible one. Without
  a node of the policy below its threshold, it searches all
  nodes, of the mask for `bind`, and ends with node 0 where
  each of them is over the bound of the search.
-/
def FallbackAgrees
    (e : PlacementEngine)
    (cpuLocalNode : Nat) : Prop :=
  match e.policy with
  | .cpuLocal =>
      e.belowThreshold cpuLocalNode = true ∨
        e.spillNodes = [] ∨
        e.belowThreshold 0 = true ∨
        ∃ j, e.Findable (fun _ => true) j
  | .bind =>
      (∀ j, j < e.nodes.length → e.isBound j = false) ∨
        e.isBound 0 = true ∨
        ∃ j, e.Findable e.isBound j
  | .interleave => True
  | .preferred =>
      e.belowThreshold e.preferredNode = true ∨
        (e.spillNodes = [] ∧
          e.IsLeastUtilized (fun _ => true) e.preferredNode) ∨
        (e.spillNodes ≠ [] ∧
          (e.belowThreshold 0 = true ∨
            ∃ j, e.Findable (fun _ => true) j))

theorem leastUtilized_lt
    (hNodes : 0 < e.nodes.length)
    (allowed : Nat → Bool) :
    e.leastUtilized allowed < e.nodes.length := by
  rcases e.isLeastUtilized_leastUtilized allowed with
    ⟨n, hNode, _⟩ | ⟨hZero, _⟩
  · exact (List.getElem?_eq_some_iff.mp hNode).1
  · rw [hZero]
    exact hNodes

theorem leastUtilized_mem_bound_iff
    (hNodes : 0 < e.nodes.length) :
    e.leastUtilized e.isBound ∈
        (List.range e.nodes.length).filter e.isBound ↔
      e.isBound 0 = true ∨ ∃ j, e.Findable e.isBound j := by
  have hLt := leastUtilized_lt hNodes e.isBound
  rw [List.mem_filter, List.mem_range, and_iff_right hLt]
  have hLeast := e.isLeastUtilized_leastUtilized e.isBound
  generalize e.leastUtilized e.isBound = r at *
  rcases hLeast with
    ⟨n, hNode, hAllowed, hBound, hAll⟩ | ⟨hZero, hNone⟩
  · exact iff_of_true hAllowed
      (Or.inr ⟨r, n, hNode, hAllowed, hBound⟩)
  · rw [hZero]
    constructor
    · exact Or.inl
    · intro hOr
      exact hOr.resolve_right (fun ⟨i, hI⟩ => hNone i hI)

theorem allocation_eligible_iff
    (hNodes : 0 < e.nodes.length)
    (vpn cpuLocalNode : Nat) :
    e.selectAllocationNode vpn cpuLocalNode ∈
        e.getEligibleNodes vpn cpuLocalNode ↔
      e.FallbackAgrees cpuLocalNode := by
  unfold selectAllocationNode getEligibleNodes FallbackAgrees
  cases e.policy with
  | cpuLocal =>
      dsimp only
      by_cases hBelow : e.belowThreshold cpuLocalNode = true
      · rw [if_pos hBelow, if_pos hBelow]
        exact iff_of_true (List.mem_singleton_self _)
          (Or.inl hBelow)
      · rw [if_neg hBelow, if_neg hBelow]
        by_cases hSpill : e.spillNodes = []
        · rw [if_pos hSpill]
          exact iff_of_true
            (List.mem_range.mpr (leastUtilized_lt hNodes _))
            (Or.inr (Or.inl hSpill))
        · rw [if_neg hSpill,
            leastUtilized_mem_spillNodes_iff hSpill,
            or_iff_right hBelow, or_iff_right hSpill]
  | bind =>
      have hMask : (fun i => e.bindMask.getD i false) =
          e.isBound := rfl
      dsimp only
      rw [hMask]
      by_cases hNone :
          (List.range e.nodes.length).filter e.isBound = []
      · have hAll : ∀ j, j < e.nodes.length →
            e.isBound j = false := by
          intro j hJ
          have hNot := List.filter_eq_nil_iff.mp hNone j
            (List.mem_range.mpr hJ)
          exact Bool.eq_false_iff.mpr hNot
        have hZero : e.leastUtilized e.isBound = 0 := by
          rw [leastUtilized_eq_iff]
          refine Or.inr ⟨rfl, ?_⟩
          rintro j ⟨n, hNode, hAllowed, _⟩
          rw [hAll j (List.getElem?_eq_some_iff.mp hNode).1]
            at hAllowed
          contradiction
        rw [if_pos hNone, hZero]
        exact iff_of_true (List.mem_singleton_self 0) (Or.inl hAll)
      · rw [if_neg hNone, leastUtilized_mem_bound_iff hNodes]
        symm
        apply or_iff_right
        intro hAll
        apply hNone
        rw [List.filter_eq_nil_iff]
        intro j hJ
        rw [hAll j (List.mem_range.mp hJ)]
        exact Bool.false_ne_true
  | interleave =>
      exact iff_of_true (List.mem_singleton_self _) trivial
  | preferred =>
      dsimp only
      by_cases hBelow : e.belowThreshold e.preferredNode = true
      · rw [if_pos hBelow, if_pos hBelow]
        exact iff_of_true (List.mem_singleton_self _)
          (Or.inl hBelow)
      · rw [if_neg hBelow, if_neg hBelow, or_iff_right hBelow]
        by_cases hSpill : e.spillNodes = []
        · rw [if_pos hSpill, List.mem_singleton,
            leastUtilized_eq_iff, and_iff_right hSpill]
          symm
          exact or_iff_left (fun hNot => hNot.1 hSpill)
        · rw [if_neg hSpill,
            leastUtilized_mem_spillNodes_iff hSpill,
            and_iff_right hSpill]
          symm
          exact or_iff_right (fun hBoth => hSpill hBoth.1)

end PlacementEngine

namespace SpeculationEngine

/- Speculation and allocation keep to the eligible nodes. -/
structure Agrees
    (s : SpeculationEngine)
    (vpn hashIdx cpuLocalNode : Nat) : Prop where
  some : s.selectSpeculationNodes vpn hashIdx cpuLocalNode ≠ []
  chosen : Chosen (s.engine.getEligibleNodes vpn cpuLocalNode)
    (max 1 s.maxSpeculationNodes)
    (s.selectSpeculationNodes vpn hashIdx cpuLocalNode)
  allocation : s.engine.selectAllocationNode vpn cpuLocalNode ∈
    s.engine.getEligibleNodes vpn cpuLocalNode

/-
  Speculation always keeps to the policy, and allocation does
  exactly where its fallback is that of the eligible nodes.
-/
theorem agrees_iff
    (s : SpeculationEngine)
    (vpn hashIdx cpuLocalNode : Nat) :
    s.Agrees vpn hashIdx cpuLocalNode ↔
      s.engine.FallbackAgrees cpuLocalNode := by
  have hNodes : 0 < s.engine.nodes.length :=
    (Nat.zero_le _).trans_lt s.preferredLt
  rw [← PlacementEngine.allocation_eligible_iff hNodes vpn]
  constructor
  · exact Agrees.allocation
  · intro hAllocation
    have hSelect := s.chosen_select vpn hashIdx cpuLocalNode
    exact ⟨hSelect.1, hSelect.2, hAllocation⟩

/-
  The only node of the mask has twice the bytes that it has
  room for, and node 0 is chosen.
-/
theorem not_agrees_overcommitted :
    ¬ Agrees {
      engine := {
        policy := .bind
        utilizationThreshold := 9 / 10
        quotient := fun used capacity => used / capacity
        nodes := [⟨4096, 0⟩, ⟨4096, 8192⟩]
        bindMask := [false, true]
        preferredNode := 0 }
      counters := ⟨2, 32, [[0, 0]]⟩
      nodeHints := ⟨2, [0]⟩
      maxSpeculationNodes := 3
      sorting := ScoreSort.stable
      preferredLt := by decide } 0 0 0 := by
  intro hAgrees
  have hAllocation := hAgrees.allocation
  revert hAllocation
  decide +kernel

end SpeculationEngine

end Virtuoso
