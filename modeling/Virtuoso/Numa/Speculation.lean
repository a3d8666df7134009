import Mathlib.Data.List.Sort
import Virtuoso.Numa.Reserve

/-
  The nodes that are speculated on, from `numa_policy.h`.

  The policy gives the eligible nodes of a page. Of these, the
  counters of the hash function choose some and, where they
  are not confident, the hint of the page does.

  `std::sort` leaves the order of nodes with equal counters
  open; `sort` stands for what it does.

  Main declarations:
    * `SpeculationEngine.chosen_select`
-/

namespace Virtuoso

namespace PlacementEngine

/- The nodes below the threshold. -/
def spillNodes (e : PlacementEngine) : List Nat :=
  (List.range e.nodes.length).filter e.belowThreshold

/- `getEligibleNodes`. -/
def getEligibleNodes
    (e : PlacementEngine)
    (vpn cpuLocalNode : Nat) : List Nat :=
  match e.policy with
  | .cpuLocal =>
      if e.belowThreshold cpuLocalNode then
        [cpuLocalNode]
      else if e.spillNodes = [] then
        List.range e.nodes.length
      else
        e.spillNodes
  | .bind =>
      let bound := (List.range e.nodes.length).filter
        (fun i => e.bindMask.getD i false)
      if bound = [] then [0] else bound
  | .interleave => [vpn % e.nodes.length]
  | .preferred =>
      if e.belowThreshold e.preferredNode then
        [e.preferredNode]
      else if e.spillNodes = [] then
        [e.preferredNode]
      else
        e.spillNodes

end PlacementEngine

/- A sort by falling score, as `std::sort` does it. -/
structure ScoreSort where
  sort : List (Int × Nat) → List (Int × Nat)
  perm : ∀ l, (sort l).Perm l
  falling : ∀ l, (sort l).Pairwise (fun a b => b.1 ≤ a.1)

/- One that keeps the order of equal scores. -/
def ScoreSort.stable : ScoreSort where
  sort := List.insertionSort (fun a b => b.1 ≤ a.1)
  perm := List.perm_insertionSort _
  falling := by
    have : Std.Total (fun a b : Int × Nat => b.1 ≤ a.1) :=
      ⟨fun a b => le_total b.1 a.1⟩
    have : IsTrans (Int × Nat) (fun a b => b.1 ≤ a.1) :=
      ⟨fun a b c hAB hBC => le_trans hBC hAB⟩
    exact List.pairwise_insertionSort _

/- The counters of each hash function, one for each node. -/
structure AdaptiveNodeCounter where
  numNodes : Nat
  confidenceThreshold : Int
  counters : List (List Int)

namespace AdaptiveNodeCounter

/- The nodes with the highest scores, best first. -/
def getTopKNodes
    (sorting : ScoreSort)
    (a : AdaptiveNodeCounter)
    (hashIdx k : Nat) : List Nat :=
  match a.counters[hashIdx]? with
  | none => []
  | some row =>
      let scored := (List.range a.numNodes).map (fun n =>
        (row.getD n 0, n))
      ((sorting.sort scored).take k).map Prod.snd

/- The two largest scores, which start at zero. -/
def topScores (scores : List Int) : Int × Int :=
  scores.foldl
    (fun top score =>
      if top.1 < score then (score, top.1)
      else if top.2 < score then (top.1, score)
      else top)
    (0, 0)

/- The best score is clear of the second. -/
def isConfident
    (a : AdaptiveNodeCounter)
    (hashIdx : Nat) : Bool :=
  match a.counters[hashIdx]? with
  | none => true
  | some row =>
      let top := topScores
        ((List.range a.numNodes).map (fun n => row.getD n 0))
      decide (a.numNodes < 2) ||
        decide (a.confidenceThreshold ≤ top.1 - top.2)

end AdaptiveNodeCounter

/- The hints of all pages, packed in bytes. -/
structure PageNodeHints where
  bitsPerHint : Nat
  data : List Nat

/- A page that is not covered has the hint zero. -/
def PageNodeHints.getHint
    (h : PageNodeHints)
    (pageNum : Nat) : Nat :=
  let bitOffset := pageNum * h.bitsPerHint % 2 ^ 64
  match h.data[bitOffset / 8]? with
  | none => 0
  | some byte =>
      byte / 2 ^ (bitOffset % 8) % 2 ^ h.bitsPerHint

/-
  A placement engine of at least one node, of which one is
  preferred.
-/
structure SpeculationEngine where
  engine : PlacementEngine
  counters : AdaptiveNodeCounter
  nodeHints : PageNodeHints
  maxSpeculationNodes : Nat
  sorting : ScoreSort
  preferredLt : engine.preferredNode < engine.nodes.length

namespace SpeculationEngine

/-
  The loop over the ranked nodes after the hinted node, which
  is not taken twice.
-/
def fill
    (eligible : List Nat)
    (k : Nat) :
    List Nat → List Nat → List Nat
| result, [] => result
| result, node :: ranked =>
    if k ≤ result.length then
      result
    else if node ∉ result ∧ node ∈ eligible then
      fill eligible k (result ++ [node]) ranked
    else
      fill eligible k result ranked

/- The loop over the ranked nodes without a hint. -/
def choose
    (eligible : List Nat)
    (k : Nat) :
    List Nat → List Nat → List Nat
| result, [] => result
| result, node :: ranked =>
    let result :=
      if node ∈ eligible then result ++ [node] else result
    if k ≤ result.length then
      result
    else
      choose eligible k result ranked

/- The first eligible node where none was chosen. -/
def orFirst (eligible result : List Nat) : List Nat :=
  if result = [] then eligible.take 1 else result

/- `selectSpeculationNodes`. -/
def selectSpeculationNodes
    (s : SpeculationEngine)
    (vpn hashIdx cpuLocalNode : Nat) : List Nat :=
  let eligible := s.engine.getEligibleNodes vpn cpuLocalNode
  let k := s.maxSpeculationNodes
  let topK := s.counters.getTopKNodes s.sorting hashIdx k
  if eligible.length ≤ 1 then
    eligible
  else if s.counters.isConfident hashIdx then
    orFirst eligible (choose eligible k [] topK)
  else
    let hintedNode := s.nodeHints.getHint vpn
    let hinted :=
      if hintedNode ∈ eligible then [hintedNode] else []
    orFirst eligible (fill eligible k hinted topK)

/- Some eligible nodes, each once, and at most so many. -/
structure Chosen
    (eligible : List Nat)
    (bound : Nat)
    (result : List Nat) : Prop where
  nodup : result.Nodup
  length : result.length ≤ bound
  eligible : ∀ node ∈ result, node ∈ eligible

theorem Chosen.append
    {eligible result : List Nat}
    {k node : Nat}
    (hChosen : Chosen eligible (max 1 k) result)
    (hRoom : result.length < k)
    (hNew : node ∉ result)
    (hEligible : node ∈ eligible) :
    Chosen eligible (max 1 k) (result ++ [node]) where
  nodup := by
    rw [List.nodup_append]
    refine ⟨hChosen.nodup, List.nodup_singleton node, ?_⟩
    intro a hA b hB
    rw [List.mem_singleton.mp hB]
    exact fun hEq => hNew (hEq ▸ hA)
  length := by
    rw [List.length_append, List.length_singleton]
    omega
  eligible := fun a hA => by
    rcases List.mem_append.mp hA with hOld | hNew
    · exact hChosen.eligible a hOld
    · rw [List.mem_singleton.mp hNew]
      exact hEligible

variable {k : Nat}

theorem chosen_fill
    {eligible result ranked : List Nat}
    (hChosen : Chosen eligible (max 1 k) result) :
    Chosen eligible (max 1 k) (fill eligible k result ranked) := by
  induction ranked generalizing result with
  | nil => exact hChosen
  | cons node ranked ih =>
      rw [fill]
      split
      · exact hChosen
      · rename_i hRoom
        split
        · rename_i hNew
          exact ih (hChosen.append (by omega) hNew.1 hNew.2)
        · exact ih hChosen

theorem chosen_choose
    {eligible result ranked : List Nat}
    (hChosen : Chosen eligible (max 1 k) result)
    (hRoom : ranked ≠ [] → result.length < k)
    (hNodup : (result ++ ranked).Nodup) :
    Chosen eligible (max 1 k)
      (choose eligible k result ranked) := by
  induction ranked generalizing result with
  | nil => exact hChosen
  | cons node ranked ih =>
      have hLess := hRoom (List.cons_ne_nil _ _)
      have hSplit := List.nodup_append.mp hNodup
      have hNew : node ∉ result := fun hMem =>
        hSplit.2.2 node hMem node (List.mem_cons_self ..) rfl
      rw [choose]
      by_cases hEligible : node ∈ eligible
      · rw [if_pos hEligible]
        have hNext := hChosen.append hLess hNew hEligible
        split
        · exact hNext
        · rename_i hMore
          apply ih hNext (fun _ => by omega)
          rwa [List.append_assoc, List.singleton_append]
      · rw [if_neg hEligible, if_neg (by omega)]
        apply ih hChosen (fun _ => hLess)
        exact hNodup.sublist
          (List.Sublist.append_left
            (List.sublist_cons_self node ranked) result)

theorem nodup_getTopKNodes
    (sorting : ScoreSort)
    (a : AdaptiveNodeCounter)
    (hashIdx k : Nat) :
    (a.getTopKNodes sorting hashIdx k).Nodup := by
  unfold AdaptiveNodeCounter.getTopKNodes
  split
  · exact List.nodup_nil
  · rename_i row _
    have hPerm := (sorting.perm ((List.range a.numNodes).map
      (fun n => (row.getD n 0, n)))).map Prod.snd
    rw [List.map_map, Function.comp_def, List.map_id'] at hPerm
    have hSorted := hPerm.nodup_iff.mpr List.nodup_range
    exact hSorted.sublist ((List.take_sublist _ _).map _)

theorem length_getTopKNodes_le
    (sorting : ScoreSort)
    (a : AdaptiveNodeCounter)
    (hashIdx k : Nat) :
    (a.getTopKNodes sorting hashIdx k).length ≤ k := by
  unfold AdaptiveNodeCounter.getTopKNodes
  split
  · exact Nat.zero_le k
  · rw [List.length_map]
    exact List.length_take_le _ _

/- The first eligible node stands in for none. -/
theorem chosen_orFirst
    {eligible result : List Nat}
    (hSome : eligible ≠ [])
    (hChosen : Chosen eligible (max 1 k) result) :
    orFirst eligible result ≠ [] ∧
      Chosen eligible (max 1 k) (orFirst eligible result) := by
  unfold orFirst
  cases eligible with
  | nil => contradiction
  | cons e es =>
      split
      · refine ⟨List.cons_ne_nil _ _, ?_⟩
        exact {
          nodup := List.nodup_singleton e
          length := le_max_left 1 k
          eligible := fun a hA => by
            rw [List.mem_singleton.mp hA]
            exact List.mem_cons_self .. }
      · rename_i hResult
        exact ⟨hResult, hChosen⟩

theorem getEligibleNodes_ne_nil
    (s : SpeculationEngine)
    (vpn cpuLocalNode : Nat) :
    s.engine.getEligibleNodes vpn cpuLocalNode ≠ [] := by
  have hNodes : List.range s.engine.nodes.length ≠ [] := by
    rw [Ne, List.range_eq_nil]
    have := s.preferredLt
    omega
  unfold PlacementEngine.getEligibleNodes
  split
  · split
    · exact List.cons_ne_nil _ _
    · split
      · exact hNodes
      · assumption
  · dsimp only
    split
    · exact List.cons_ne_nil _ _
    · assumption
  · exact List.cons_ne_nil _ _
  · split
    · exact List.cons_ne_nil _ _
    · split
      · exact List.cons_ne_nil _ _
      · assumption

/- Some eligible nodes are speculated on, and not too many. -/
theorem chosen_select
    (s : SpeculationEngine)
    (vpn hashIdx cpuLocalNode : Nat) :
    s.selectSpeculationNodes vpn hashIdx cpuLocalNode ≠ [] ∧
      Chosen (s.engine.getEligibleNodes vpn cpuLocalNode)
        (max 1 s.maxSpeculationNodes)
        (s.selectSpeculationNodes vpn hashIdx cpuLocalNode) := by
  have hSome := s.getEligibleNodes_ne_nil vpn cpuLocalNode
  have hRanked := nodup_getTopKNodes s.sorting s.counters
    hashIdx s.maxSpeculationNodes
  unfold selectSpeculationNodes
  generalize s.engine.getEligibleNodes vpn cpuLocalNode =
    eligible at *
  dsimp only
  split
  · rename_i hOne
    refine ⟨hSome, ?_⟩
    exact {
      nodup := by
        cases eligible with
        | nil => exact List.nodup_nil
        | cons e es =>
            have hNil : es = [] :=
              List.length_eq_zero_iff.mp
                (Nat.le_zero.mp (Nat.le_of_succ_le_succ hOne))
            rw [hNil]
            exact List.nodup_singleton e
      length := hOne.trans (le_max_left 1 _)
      eligible := fun node hNode => hNode }
  · split
    · apply chosen_orFirst hSome
      apply chosen_choose
      · exact {
          nodup := List.nodup_nil
          length := Nat.zero_le _
          eligible := fun node hNode => by contradiction }
      · intro hMore
        have hLength := length_getTopKNodes_le s.sorting
          s.counters hashIdx s.maxSpeculationNodes
        exact (List.length_pos_iff.mpr hMore).trans_le hLength
      · exact hRanked
    · apply chosen_orFirst hSome
      apply chosen_fill
      split
      · rename_i hHinted
        exact {
          nodup := List.nodup_singleton _
          length := le_max_left 1 _
          eligible := fun node hNode => by
            rw [List.mem_singleton.mp hNode]
            exact hHinted }
      · exact {
          nodup := List.nodup_nil
          length := Nat.zero_le _
          eligible := fun node hNode => by contradiction }

end SpeculationEngine

end Virtuoso
