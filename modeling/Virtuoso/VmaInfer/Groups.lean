import Mathlib.Data.List.Chain
import Virtuoso.Lib.Blocks
import Virtuoso.VmaInfer.Basic

/-
  The groups of the second pass of the inference.

  The runs are the ends of blocks of the sorted pages, whose
  neighbours are close. Each split cuts blocks further, so
  that the groups of all the runs are the sorted pages again.

  Main declarations:
    * `exists_blocks_mergeRuns`
    * `exists_groupsOf`
-/

namespace Virtuoso.VmaInfer

open Blocks

/- The pages are merged into one run. -/
def Close (gapPages : Int) (v v' : Int) : Prop :=
  v' - v ≤ gapPages + 1

/- The runs that are closed, and the one that is open. -/
structure Merged
    (gapPages : Int)
    (front : List (List Int))
    (g : List Int)
    (s : List (Int × Int) × Int × Int) : Prop where
  closed : List.Forall₂ (fun g r => Ends g r.1 r.2) front s.1
  opened : Ends g s.2.1 s.2.2
  close : ∀ g' ∈ front ++ [g], g'.IsChain (Close gapPages)

variable {g : List Int}

theorem merged_mergeStep
    {gapPages : Int}
    {front : List (List Int)}
    {s : List (Int × Int) × Int × Int}
    (vpn : Int)
    (hMerged : Merged gapPages front g s) :
    ∃ front' g', Grows (front ++ [g]) vpn (front' ++ [g']) ∧
      Merged gapPages front' g' (mergeStep gapPages s vpn) := by
  rw [mergeStep]
  split_ifs with hFar
  · refine ⟨front ++ [g], [vpn], Or.inl rfl, ?_⟩
    constructor
    · exact List.rel_append hMerged.closed
        (.cons hMerged.opened .nil)
    · exact ⟨rfl, rfl⟩
    · intro g' hMem
      rcases List.mem_append.mp hMem with hMem | hMem
      · exact hMerged.close g' hMem
      · rw [List.mem_singleton.mp hMem]
        exact List.isChain_singleton vpn
  · refine ⟨front, g ++ [vpn], Or.inr ⟨front, g, rfl, rfl⟩, ?_⟩
    constructor
    · exact hMerged.closed
    · constructor
      · rw [List.head?_append, hMerged.opened.1]
        rfl
      · rw [List.getLast?_append]
        rfl
    · intro g' hMem
      rcases List.mem_append.mp hMem with hMem | hMem
      · exact hMerged.close g' (by simp [hMem])
      · rw [List.mem_singleton.mp hMem, List.isChain_append]
        refine ⟨hMerged.close g (by simp),
          List.isChain_singleton vpn, ?_⟩
        intro v hLast v' hHead
        rw [hMerged.opened.2, Option.mem_some_iff] at hLast
        simp only [List.head?_cons, Option.mem_some_iff] at hHead
        rw [Close]
        omega

theorem exists_merged_foldl
    {gapPages : Int}
    {front : List (List Int)}
    {s : List (Int × Int) × Int × Int}
    (rest : List Int)
    (hNil : [] ∉ front ++ [g])
    (hMerged : Merged gapPages front g s) :
    ∃ front' g',
      (front' ++ [g']).flatten = (front ++ [g]).flatten ++ rest ∧
      [] ∉ front' ++ [g'] ∧
      Merged gapPages front' g'
        (rest.foldl (mergeStep gapPages) s) := by
  induction rest generalizing front g s with
  | nil => exact ⟨front, g, by simp, hNil, hMerged⟩
  | cons vpn rest ih =>
      rcases merged_mergeStep vpn hMerged with
        ⟨front', g', hGrows, hMerged'⟩
      rcases ih (hGrows.nil_notMem hNil) hMerged' with
        ⟨front'', g'', hFlatten, hNil'', hMerged''⟩
      refine ⟨front'', g'', ?_, hNil'', hMerged''⟩
      rw [hFlatten, hGrows.flatten]
      simp

/- The runs are the ends of blocks of close pages. -/
theorem exists_blocks_mergeRuns
    (sortedVpns : List Int)
    (gapPages : Int) :
    ∃ blocks : List (List Int),
      blocks.flatten = sortedVpns ∧
      List.Forall₂ (fun g r => Ends g r.1 r.2) blocks
        (mergeRuns sortedVpns gapPages) ∧
      ∀ g ∈ blocks, g.IsChain (Close gapPages) := by
  cases sortedVpns with
  | nil => exact ⟨[], rfl, .nil, by simp⟩
  | cons first rest =>
      have hFirst : Merged gapPages [] [first]
          ([], first, first) := by
        constructor
        · exact .nil
        · exact ⟨rfl, rfl⟩
        · intro g hMem
          rw [List.mem_singleton.mp hMem]
          exact List.isChain_singleton first
      rcases exists_merged_foldl rest (by simp) hFirst with
        ⟨front, g, hFlatten, -, hMerged⟩
      refine ⟨front ++ [g], by simpa using hFlatten, ?_,
        hMerged.close⟩
      exact List.rel_append hMerged.closed
        (.cons hMerged.opened .nil)

/- A split is defined and cuts the pages into groups. -/
def Cut
    (vpns : List Int)
    (split : Option (List (List Int))) : Prop :=
  ∃ groups, split = some groups ∧ groups.flatten = vpns ∧
    [] ∉ groups

theorem grows_extend
    {groups : List (List Int)}
    (vpn : Int)
    (differ : Bool)
    (hNe : groups ≠ []) :
    Grows groups vpn (extend groups vpn differ) := by
  rw [extend]
  cases differ with
  | true => exact Or.inl rfl
  | false =>
      refine Or.inr ⟨groups.dropLast, groups.getLast hNe,
        (List.dropLast_append_getLast hNe).symm, ?_⟩
      rw [if_neg (by decide), appendLast,
        List.getLastD_eq_getLast?,
        List.getLast?_eq_some_getLast hNe]
      rfl

variable {stats : Pages} {vpns : List Int}

/- The pages are keys of the dictionary. -/
def Known (stats : Pages) (vpns : List Int) : Prop :=
  ∀ v ∈ vpns, ∃ ps, stats v = some ps

theorem exists_firstTouchStep
    {groups : List (List Int)}
    {vpn : Int}
    (threshold : Int)
    (hNe : groups ≠ [])
    (hNil : [] ∉ groups)
    (hKnown : Known stats groups.flatten)
    (hVpn : ∃ ps, stats vpn = some ps) :
    ∃ differ, firstTouchStep stats threshold groups vpn =
      some (extend groups vpn differ) := by
  have hLast := List.getLast_mem hNe
  have hLastNe : groups.getLast hNe ≠ [] :=
    fun hEq => hNil (hEq ▸ hLast)
  rcases hKnown _ (List.mem_flatten.mpr ⟨_, hLast,
    List.getLast_mem hLastNe⟩) with ⟨prev, hPrev⟩
  rcases hVpn with ⟨curr, hCurr⟩
  refine ⟨decide (|curr.firstIdx - prev.firstIdx| > threshold), ?_⟩
  rw [firstTouchStep, List.getLastD_eq_getLast?,
    List.getLast?_eq_some_getLast hNe, Option.getD_some,
    List.getLast?_eq_some_getLast hLastNe]
  simp only [Option.bind_eq_bind, Option.bind_some, hPrev, hCurr]

theorem cut_splitByFirstTouch
    (threshold : Int)
    (hKnown : Known stats vpns) :
    Cut vpns (splitByFirstTouch vpns stats threshold) := by
  cases vpns with
  | nil => exact ⟨[], rfl, rfl, by simp⟩
  | cons first rest =>
      have hRest : ∀ v ∈ rest, ∃ ps, stats v = some ps :=
        fun v hMem => hKnown v (List.mem_cons_of_mem first hMem)
      rcases Blocks.exists_foldlM
        (firstTouchStep stats threshold)
        (fun groups => groups) (fun v => v)
        (fun v => ∃ ps, stats v = some ps) rest [[first]]
        (by simp) (by simp)
        (by simpa using hKnown first (by simp)) hRest
        (by
          intro groups vpn hMem hNe hNil hAll
          rcases exists_firstTouchStep threshold hNe hNil hAll
            (hRest vpn hMem) with ⟨differ, hStep⟩
          exact ⟨_, hStep, grows_extend vpn differ hNe⟩) with
        ⟨groups, hFold, hFlatten, hNil⟩
      exact ⟨groups, hFold, by simpa using hFlatten, hNil⟩

theorem exists_writeFracInWindow
    (center halfWindow : Int)
    (hKnown : Known stats vpns) :
    ∃ wf, writeFracInWindow vpns stats center halfWindow =
      some wf := by
  have hWindow : ∀ lo hi, ∃ pages,
      ((vpns.take hi).drop lo).mapM stats = some pages :=
    fun lo hi => Traverse.exists_mapM (fun v hMem =>
      hKnown v (List.mem_of_mem_take (List.mem_of_mem_drop hMem)))
  rw [writeFracInWindow]
  rcases hWindow _ _ with ⟨pages, hPages⟩
  dsimp only
  rw [hPages]
  exact ⟨_, rfl⟩

theorem exists_writeFracStep
    {half : Int}
    (wfSplitDelta : ℚ)
    (s : List (List Int) × ℚ)
    (page : Int × Nat)
    (hKnown : Known stats vpns) :
    ∃ differ curWf,
      writeFracStep vpns stats half wfSplitDelta s page =
        some (extend s.1 page.1 differ, curWf) := by
  rcases exists_writeFracInWindow page.2 half hKnown with
    ⟨curWf, hCurWf⟩
  refine ⟨decide (|curWf - s.2| > wfSplitDelta), curWf, ?_⟩
  rw [writeFracStep, hCurWf]
  rfl

theorem cut_splitByWriteFrac
    (wfWindow : Int)
    (wfSplitDelta : ℚ)
    (hKnown : Known stats vpns) :
    Cut vpns
      (splitByWriteFrac vpns stats wfWindow wfSplitDelta) := by
  rcases vpns with _ | ⟨first, _ | ⟨second, rest⟩⟩
  · exact ⟨[], rfl, rfl, by simp⟩
  · exact ⟨[[first]], rfl, rfl, by simp⟩
  · rcases exists_writeFracInWindow 0 (Int.fdiv wfWindow 2)
      hKnown with ⟨prevWf, hPrev⟩
    rcases Blocks.exists_foldlM
      (writeFracStep (first :: second :: rest) stats
        (Int.fdiv wfWindow 2) wfSplitDelta)
      Prod.fst Prod.fst (fun _ => True)
      ((second :: rest).zipIdx 1) ([[first]], prevWf)
      (by simp) (by simp) (by simp) (by simp)
      (by
        intro s page _ hNe _ _
        rcases exists_writeFracStep wfSplitDelta s page hKnown
          with ⟨differ, curWf, hStep⟩
        exact ⟨_, hStep, grows_extend page.1 differ hNe⟩) with ⟨s, hFold, hFlatten, hNil⟩
    refine ⟨s.1, ?_, ?_, hNil⟩
    · rw [splitByWriteFrac, hPrev]
      simp only [Option.bind_eq_bind, Option.bind_some, hFold]
      simp
    · rw [hFlatten, List.zipIdx_map_fst]
      rfl

/- Cutting every block cuts the pages. -/
theorem exists_mapM_of_cut
    {α : Type*}
    {next : α → Option (List (List Int))}
    {blocks : List (List Int)}
    {xs : List α}
    (hCuts : List.Forall₂ (fun g x => Cut g (next x)) blocks xs) :
    ∃ final, xs.mapM next = some final ∧
      final.flatten.flatten = blocks.flatten ∧
      [] ∉ final.flatten ∧
      ∀ g ∈ final.flatten, ∃ block ∈ blocks,
        ∀ v ∈ g, v ∈ block := by
  induction hCuts with
  | nil => exact ⟨[], rfl, rfl, by simp, by simp⟩
  | @cons block x blocks xs hHead _ ih =>
      rcases hHead with ⟨groups, hSome, hFlatten, hNil⟩
      rcases ih with ⟨final, hFinal, hFlatten', hNil', hIn⟩
      refine ⟨groups :: final, by simp [hSome, hFinal], ?_, ?_, ?_⟩
      · rw [List.flatten_cons, List.flatten_append, hFlatten,
          hFlatten', List.flatten_cons]
      · rw [List.flatten_cons, List.mem_append]
        exact fun h => h.elim hNil hNil'
      · intro g hMem
        rcases List.mem_append.mp hMem with hMem | hMem
        · refine ⟨block, List.mem_cons_self, fun v hV => ?_⟩
          rw [← hFlatten]
          exact List.mem_flatten.mpr ⟨g, hMem, hV⟩
        · rcases hIn g hMem with ⟨block', hBlock, hAll⟩
          exact ⟨block', List.mem_cons_of_mem block hBlock, hAll⟩

/- Cutting the groups of a cut cuts the pages. -/
theorem Cut.bind
    {split : Option (List (List Int))}
    (next : List Int → Option (List (List Int)))
    (hCut : Cut vpns split)
    (hNext : ∀ g, (∀ v ∈ g, v ∈ vpns) → Cut g (next g)) :
    Cut vpns (do
      let groups ← split
      let final ← groups.mapM next
      some final.flatten) := by
  rcases hCut with ⟨groups, hSplit, hFlatten, -⟩
  have hCuts : ∀ g ∈ groups, Cut g (next g) := by
    intro g hMem
    refine hNext g (fun v hV => ?_)
    rw [← hFlatten]
    exact List.mem_flatten.mpr ⟨g, hMem, hV⟩
  rcases exists_mapM_of_cut (List.forall₂_same.mpr hCuts) with
    ⟨final, hFinal, hFlatten', hNil, -⟩
  exact ⟨final.flatten, by simp [hSplit, hFinal],
    hFlatten'.trans hFlatten, hNil⟩

theorem cut_applySplits
    (timeSplitUnits wfWindow : Int)
    (wfSplitDelta : ℚ)
    (hKnown : Known stats vpns)
    (hNe : vpns ≠ []) :
    Cut vpns (applySplits vpns stats timeSplitUnits wfWindow
      wfSplitDelta) := by
  have hFirst : Cut vpns (if timeSplitUnits > 0 then
      splitByFirstTouch vpns stats timeSplitUnits
    else some [vpns]) := by
    split_ifs
    · exact cut_splitByFirstTouch timeSplitUnits hKnown
    · exact ⟨[vpns], rfl, by simp, by simp [hNe.symm]⟩
  have hCut := hFirst.bind _ (fun g hIn =>
    cut_splitByWriteFrac wfWindow wfSplitDelta
      (fun v hV => hKnown v (hIn v hV)))
  rw [applySplits]
  split_ifs at hCut ⊢ <;> exact hCut

/- The groups cut the pages and stay within close runs. -/
structure Grouped
    (gapPages : Int)
    (sortedVpns : List Int)
    (groups : List (List Int)) : Prop where
  flatten : groups.flatten = sortedVpns
  nil_notMem : [] ∉ groups
  close : ∀ g ∈ groups, ∀ u ∈ g, ∀ v ∈ g, u < v →
    (∀ w ∈ sortedVpns, u < w → ¬w < v) →
    Close gapPages u v

/- The pages within the ends of a block are the block. -/
theorem cut_subGroups
    (params : Params)
    {blocks : List (List Int)}
    {run : Int × Int}
    (hSorted : blocks.flatten.Pairwise (· < ·))
    (hKnown : Known stats blocks.flatten)
    (hBlock : g ∈ blocks)
    (hEnds : Ends g run.1 run.2) :
    Cut g (subGroups params blocks.flatten stats run) := by
  rw [subGroups, filter_span hSorted hBlock hEnds]
  apply cut_applySplits
  · exact fun v hV =>
      hKnown v (List.mem_flatten.mpr ⟨g, hBlock, hV⟩)
  · exact List.ne_nil_of_mem hEnds.mem.1

theorem exists_groupsOf
    (params : Params)
    (hSorted : vpns.Pairwise (· < ·))
    (hKnown : Known stats vpns) :
    ∃ groups, groupsOf params vpns stats = some groups ∧
      Grouped params.gapPages vpns groups := by
  rcases exists_blocks_mergeRuns vpns params.gapPages with
    ⟨blocks, hFlatten, hEnds, hChains⟩
  subst hFlatten
  have hCuts : List.Forall₂ (fun g run =>
      Cut g (subGroups params blocks.flatten stats run))
      blocks (mergeRuns blocks.flatten params.gapPages) := by
    refine List.forall₂_iff_get.mpr
      ⟨hEnds.length_eq, fun i hI hI' => ?_⟩
    exact cut_subGroups params hSorted hKnown
      (List.get_mem blocks ⟨i, hI⟩) (hEnds.get hI hI')
  rcases exists_mapM_of_cut hCuts with
    ⟨final, hFinal, hFlatten, hNil, hIn⟩
  refine ⟨final.flatten, by simp [groupsOf, hFinal],
    hFlatten, hNil, ?_⟩
  intro g hG u hU v hV hLt hNext
  rcases hIn g hG with ⟨block, hBlock, hAll⟩
  refine rel_of_isChain (hChains block hBlock)
    ((List.pairwise_flatten.mp hSorted).1 block hBlock)
    (hAll u hU) (hAll v hV) hLt (fun w hW => hNext w ?_)
  exact List.mem_flatten.mpr ⟨block, hBlock, hW⟩

end Virtuoso.VmaInfer
