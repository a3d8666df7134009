import Mathlib.Data.Finset.Card
import Mathlib.Data.List.Sort
import Mathlib.Data.Int.ConditionallyCompleteOrder
import Mathlib.Order.CompletePartialOrder
import Virtuoso.VmaInfer.Groups
import Virtuoso.VmaInfer.Statistics

/-
  The regions of the inference partition the touched pages.

  A region is the span of a group with enough pages, and its
  numbers count the accesses to the span.

  Main declarations:
    * `inferRegions_partitions`
-/

------------------------------------------------------------
-- Touched Pages And Regions
------------------------------------------------------------

namespace Virtuoso.VmaInfer

open Blocks

/- The pages with an access. -/
def touched
    (pageSize : Int)
    (accesses : List MemAccess) : Finset Int :=
  (accesses.map (fun acc => acc.vpn pageSize)).toFinset

variable {pageSize : Int} {accesses : List MemAccess}
variable {stats : Stats}

theorem mem_touched
    (vpn : Int) :
    vpn ∈ touched pageSize accesses ↔
      ∃ acc ∈ accesses, acc.vpn pageSize = vpn := by
  rw [touched, List.mem_toFinset, List.mem_map]

theorem mem_sortedKeys
    (hRecords : Records pageSize accesses stats)
    (vpn : Int) :
    vpn ∈ sortedKeys stats ↔ vpn ∈ touched pageSize accesses := by
  rw [sortedKeys, (List.mergeSort_perm _ _).mem_iff,
    hRecords.mem_keys_iff, mem_touched]

theorem pairwise_sortedKeys
    (hRecords : Records pageSize accesses stats) :
    (sortedKeys stats).Pairwise (· < ·) := by
  have hLe : (sortedKeys stats).Pairwise (· ≤ ·) := by
    refine (List.pairwise_mergeSort ?_ ?_ _).imp
      (fun h => of_decide_eq_true h)
    · intro u v w hUv hVw
      exact decide_eq_true
        ((of_decide_eq_true hUv).trans (of_decide_eq_true hVw))
    · intro u v
      rcases Int.le_total u v with h | h <;> simp [h]
  have hNodup : (sortedKeys stats).Nodup :=
    (List.mergeSort_perm _ _).nodup_iff.mpr hRecords.nodup
  exact (hLe.and hNodup).imp (fun h => lt_of_le_of_ne h.1 h.2)

theorem known_sortedKeys
    (hRecords : Records pageSize accesses stats) :
    Known (fun vpn => stats.lookup vpn) (sortedKeys stats) := by
  intro vpn hMem
  cases hLookup : stats.lookup vpn with
  | some ps => exact ⟨ps, hLookup⟩
  | none =>
      rw [mem_sortedKeys hRecords, mem_touched,
        ← hRecords.mem_keys_iff] at hMem
      exact absurd hMem (Assoc.lookup_eq_none_iff.mp hLookup)

/- Permuted accesses have the same sorted pages. -/
theorem sortedKeys_eq
    {accesses' : List MemAccess}
    {stats' : Stats}
    (hPerm : accesses.Perm accesses')
    (hRecords : Records pageSize accesses stats)
    (hRecords' : Records pageSize accesses' stats') :
    sortedKeys stats = sortedKeys stats' := by
  have hSorted := pairwise_sortedKeys hRecords
  have hSorted' := pairwise_sortedKeys hRecords'
  have hKeys : (sortedKeys stats).Perm (sortedKeys stats') := by
    rw [List.perm_ext_iff_of_nodup (hSorted.imp ne_of_lt)
      (hSorted'.imp ne_of_lt)]
    intro vpn
    rw [mem_sortedKeys hRecords, mem_sortedKeys hRecords',
      mem_touched, mem_touched]
    simp [hPerm.mem_iff]
  exact hKeys.eq_of_pairwise
    (fun _ _ _ _ hLt hGt => absurd hGt (lt_asymm hLt))
    hSorted hSorted'

/- The pages from the first to the last of a region. -/
def Region.span (r : Region) : Set Int :=
  Set.Icc r.startVpn r.endVpn

/- The accesses to the span of a region. -/
def accessesIn
    (pageSize : Int)
    (accesses : List MemAccess)
    (r : Region) : List MemAccess :=
  accesses.filter (fun acc => decide
    (r.startVpn ≤ acc.vpn pageSize ∧ acc.vpn pageSize ≤ r.endVpn))

/- The numbers of a region are those of its span. -/
structure Region.Fits
    (pageSize gapPages : Int)
    (accesses : List MemAccess)
    (r : Region) : Prop where
  touchedPages : r.numPagesTouched =
    ((touched pageSize accesses).filter
      (fun v => r.startVpn ≤ v ∧ v ≤ r.endVpn)).card
  reads : r.reads = readCount (accessesIn pageSize accesses r)
  writes : r.writes = writeCount (accessesIn pageSize accesses r)
  first : IsLeast (indices (accessesIn pageSize accesses r))
    r.firstTouchTs
  last : IsGreatest
    (indices (accessesIn pageSize accesses r)) r.lastTouchTs
  close : ∀ u ∈ touched pageSize accesses,
    ∀ v ∈ touched pageSize accesses,
    u ∈ r.span → v ∈ r.span → u < v →
    (∀ w ∈ touched pageSize accesses, u < w → ¬w < v) →
    v - u ≤ gapPages + 1

theorem describes_foldl
    {pages : List PageStats}
    {accss : List (List MemAccess)}
    (t : Totals)
    (accs : List MemAccess)
    (hNonneg : ∀ ps ∈ pages, 0 ≤ ps.lastIdx)
    (hTotals : t.Describes accs)
    (hPages : List.Forall₂ PageStats.Describes pages accss) :
    (pages.foldl Totals.add t).Describes
      (accs ++ accss.flatten) := by
  induction hPages generalizing t accs with
  | nil => simpa using hTotals
  | @cons ps accs' pages accss hHead _ ih =>
      rw [List.foldl_cons, List.flatten_cons, ← List.append_assoc]
      exact ih (t.add ps) (accs ++ accs')
        (fun ps' hMem => hNonneg ps' (by simp [hMem]))
        (Totals.describes_add (hNonneg ps (by simp)) hTotals hHead)

theorem describes_mapM
    {g : List Int}
    {pages : List PageStats}
    (hRecords : Records pageSize accesses stats)
    (hMap : g.mapM (fun vpn => stats.lookup vpn) = some pages) :
    List.Forall₂ PageStats.Describes pages
      (g.map (accessesTo pageSize accesses)) := by
  rw [Traverse.mapM_eq_some_iff] at hMap
  induction hMap with
  | nil => exact .nil
  | cons hHead _ ih =>
      exact .cons (hRecords.present _ _ hHead) ih

/- What the loop finds of a group describes the accesses to
   its pages. -/
theorem describes_group
    {g : List Int}
    {pages : List PageStats}
    (hRecords : Records pageSize accesses stats)
    (hNonneg : ∀ acc ∈ accesses, 0 ≤ acc.recIdx)
    (hMap : g.mapM (fun vpn => stats.lookup vpn) = some pages) :
    (pages.foldl Totals.add {}).Describes
      (gather (fun acc : MemAccess => acc.vpn pageSize)
        accesses g) := by
  have hPages : ∀ ps ∈ pages, 0 ≤ ps.lastIdx := by
    intro ps hMem
    rcases (Traverse.mem_of_mapM hMap ps).mp hMem with
      ⟨vpn, -, hLookup⟩
    rcases (hRecords.present vpn ps hLookup).last.1 with
      ⟨acc, hAcc, hEq⟩
    rw [← hEq]
    exact hNonneg acc (List.mem_filter.mp hAcc).1
  have hFold := describes_foldl {} [] hPages
    Totals.describes_default (describes_mapM hRecords hMap)
  rw [List.nil_append, ← List.flatMap_def] at hFold
  exact hFold

variable {gapPages : Int} {groups : List (List Int)}
variable {g : List Int} {r : Region}

theorem span_iff
    (hRecords : Records pageSize accesses stats)
    (hGrouped : Grouped gapPages (sortedKeys stats) groups)
    (hMem : g ∈ groups)
    (hEnds : Ends g r.startVpn r.endVpn)
    {vpn : Int}
    (hTouched : vpn ∈ touched pageSize accesses) :
    r.startVpn ≤ vpn ∧ vpn ≤ r.endVpn ↔ vpn ∈ g := by
  have hSorted := pairwise_sortedKeys hRecords
  rw [← mem_sortedKeys hRecords, ← hGrouped.flatten] at hTouched
  rw [← hGrouped.flatten] at hSorted
  exact mem_span_iff hSorted hMem hEnds hTouched

theorem mem_touched_of_mem
    (hRecords : Records pageSize accesses stats)
    (hGrouped : Grouped gapPages (sortedKeys stats) groups)
    (hMem : g ∈ groups)
    {vpn : Int}
    (hVpn : vpn ∈ g) :
    vpn ∈ touched pageSize accesses := by
  rw [← mem_sortedKeys hRecords, ← hGrouped.flatten]
  exact List.mem_flatten.mpr ⟨g, hMem, hVpn⟩

theorem pairwise_group
    (hRecords : Records pageSize accesses stats)
    (hGrouped : Grouped gapPages (sortedKeys stats) groups)
    (hMem : g ∈ groups) :
    g.Pairwise (· < ·) := by
  have hSorted := pairwise_sortedKeys hRecords
  rw [← hGrouped.flatten] at hSorted
  exact (List.pairwise_flatten.mp hSorted).1 g hMem

/- The accesses to the span are those to the group. -/
theorem gather_perm_accessesIn
    (hRecords : Records pageSize accesses stats)
    (hGrouped : Grouped gapPages (sortedKeys stats) groups)
    (hMem : g ∈ groups)
    (hEnds : Ends g r.startVpn r.endVpn) :
    (gather (fun acc : MemAccess => acc.vpn pageSize)
      accesses g).Perm (accessesIn pageSize accesses r) := by
  have hNodup : g.Nodup :=
    (pairwise_group hRecords hGrouped hMem).imp ne_of_lt
  refine (gather_perm _ accesses hNodup).trans
    (List.Perm.of_eq (List.filter_congr ?_))
  intro acc hAcc
  rw [decide_eq_decide]
  exact (span_iff hRecords hGrouped hMem hEnds
    ((mem_touched _).mpr ⟨acc, hAcc, rfl⟩)).symm

theorem card_touched
    (hRecords : Records pageSize accesses stats)
    (hGrouped : Grouped gapPages (sortedKeys stats) groups)
    (hMem : g ∈ groups)
    (hEnds : Ends g r.startVpn r.endVpn) :
    ((touched pageSize accesses).filter
      (fun v => r.startVpn ≤ v ∧ v ≤ r.endVpn)).card =
      g.length := by
  have hNodup : g.Nodup :=
    (pairwise_group hRecords hGrouped hMem).imp ne_of_lt
  rw [← List.toFinset_card_of_nodup hNodup]
  congr 1
  ext v
  rw [Finset.mem_filter, List.mem_toFinset]
  constructor
  · rintro ⟨hTouched, hSpan⟩
    exact (span_iff hRecords hGrouped hMem hEnds hTouched).mp hSpan
  · intro hV
    have hTouched :=
      mem_touched_of_mem hRecords hGrouped hMem hV
    exact ⟨hTouched, (span_iff hRecords hGrouped hMem hEnds
      hTouched).mpr hV⟩

theorem Totals.Describes.perm
    {t : Totals}
    {accs accs' : List MemAccess}
    (hPerm : accs.Perm accs')
    (hTotals : t.Describes accs) :
    t.Describes accs' where
  reads := by
    rw [hTotals.reads, readCount, readCount, hPerm.countP_eq]
  writes := by
    rw [hTotals.writes, writeCount, writeCount, hPerm.countP_eq]
  first := by
    rw [← indices_perm hPerm]
    exact hTotals.first
  none := fun hNone => by
    rcases hTotals.none hNone with ⟨hEmpty, hZero⟩
    rw [hEmpty, List.nil_perm] at hPerm
    exact ⟨hPerm, hZero⟩
  last := fun hNe => by
    rw [← indices_perm hPerm]
    refine hTotals.last (fun hEmpty => hNe ?_)
    rw [hEmpty, List.nil_perm] at hPerm
    exact hPerm

/- The fields that the loop fills. -/
theorem exists_region
    {pages : Pages}
    {found : List PageStats}
    {a b : Int}
    (pageSize : Int)
    (hEnds : Ends g a b)
    (hMap : g.mapM pages = some found) :
    ∃ r, computeRegion g pages pageSize = some r ∧
      r.startVpn = a ∧ r.endVpn = b ∧
      r.pageSize = pageSize ∧ r.numPagesTouched = g.length ∧
      r.reads = (found.foldl Totals.add {}).reads ∧
      r.writes = (found.foldl Totals.add {}).writes ∧
      r.firstTouchTs = (found.foldl Totals.add {}).firstT.getD 0 ∧
      r.lastTouchTs = (found.foldl Totals.add {}).lastT := by
  rw [computeRegion, hEnds.1, hEnds.2]
  simp only [Option.bind_eq_bind, Option.bind_some, hMap]
  exact ⟨_, rfl, rfl, rfl, rfl, rfl, rfl, rfl, rfl, rfl⟩

/- A group gives a region that fits its span. -/
theorem exists_computeRegion
    (hRecords : Records pageSize accesses stats)
    (hNonneg : ∀ acc ∈ accesses, 0 ≤ acc.recIdx)
    (hGrouped : Grouped gapPages (sortedKeys stats) groups)
    (hMem : g ∈ groups) :
    ∃ r, computeRegion g (fun vpn => stats.lookup vpn)
        pageSize = some r ∧
      Ends g r.startVpn r.endVpn ∧ r.pageSize = pageSize ∧
      r.Fits pageSize gapPages accesses := by
  have hNe : g ≠ [] :=
    fun hEq => hGrouped.nil_notMem (hEq ▸ hMem)
  rcases exists_ends hNe with ⟨a, b, hEnds⟩
  have hKnown : ∀ v ∈ g, ∃ ps, stats.lookup v = some ps := by
    intro v hV
    apply known_sortedKeys hRecords
    rw [← hGrouped.flatten]
    exact List.mem_flatten.mpr ⟨g, hMem, hV⟩
  rcases Traverse.exists_mapM hKnown with ⟨pages, hMap⟩
  have hTotals := describes_group hRecords hNonneg hMap
  rcases exists_region pageSize hEnds hMap with ⟨r, hRegion,
    hStart, hEnd, hSize, hLength, hReads, hWrites, hFirst,
    hLast⟩
  rw [← hStart, ← hEnd] at hEnds
  replace hTotals := hTotals.perm
    (gather_perm_accessesIn hRecords hGrouped hMem hEnds)
  have hSome : accessesIn pageSize accesses r ≠ [] := by
    have hTouched := mem_touched_of_mem hRecords hGrouped hMem
      hEnds.mem.1
    have hSpan := (span_iff hRecords hGrouped hMem hEnds
      hTouched).mpr hEnds.mem.1
    rcases (mem_touched _).mp hTouched with ⟨acc, hAcc, hEq⟩
    refine List.ne_nil_of_mem
      (List.mem_filter.mpr ⟨hAcc, decide_eq_true ?_⟩)
    rw [hEq]
    exact hSpan
  refine ⟨r, hRegion, hEnds, hSize, ?_⟩
  constructor
  · rw [hLength, card_touched hRecords hGrouped hMem hEnds]
  · rw [hReads, hTotals.reads]
  · rw [hWrites, hTotals.writes]
  · rw [hFirst]
    cases hCase : (pages.foldl Totals.add {}).firstT with
    | none => exact absurd (hTotals.none hCase).1 hSome
    | some i => exact hTotals.first i hCase
  · rw [hLast]
    exact hTotals.last hSome
  · intro u hU v hV hUIn hVIn hLt hNext
    refine hGrouped.close g hMem u
      ((span_iff hRecords hGrouped hMem hEnds hU).mp hUIn) v
      ((span_iff hRecords hGrouped hMem hEnds hV).mp hVIn)
      hLt (fun w hW => hNext w ?_)
    exact (mem_sortedKeys hRecords w).mp hW

------------------------------------------------------------
-- The Result
------------------------------------------------------------

/- The regions and the small groups share out the pages. -/
structure Partitions
    (params : Params)
    (accesses : List MemAccess)
    (groups : List (List Int))
    (regions : List Region) : Prop where
  order : groups.flatten.Pairwise (· < ·)
  covers : ∀ v, v ∈ groups.flatten ↔
    v ∈ touched params.pageSize accesses
  sorted : regions.Pairwise (fun r r' => r.startAddr < r'.startAddr)
  disjoint : regions.Pairwise (fun r r' => Disjoint r.span r'.span)
  fits : ∀ r ∈ regions,
    r.Fits params.pageSize params.gapPages accesses
  dropped : ∀ v,
    (v ∈ touched params.pageSize accesses ∧
        ∀ r ∈ regions, v ∉ r.span) ↔
      ∃ g ∈ groups, (g.length : Int) < params.minPages ∧ v ∈ g

/- A label changes no number of a region. -/
theorem Region.Fits.relabel
    (label : Label)
    (hFits : r.Fits pageSize gapPages accesses) :
    Region.Fits pageSize gapPages accesses
      { r with label := label } :=
  ⟨hFits.touchedPages, hFits.reads, hFits.writes,
    hFits.first, hFits.last, hFits.close⟩

/- Regions in order, with disjoint spans. -/
def Before (r r' : Region) : Prop :=
  r.startAddr < r'.startAddr ∧ Disjoint r.span r'.span

theorem before_of_ends
    {g g' : List Int}
    {r r' : Region}
    (hPage : 0 < pageSize)
    (hOwn : g.Pairwise (· < ·))
    (hEnds : Ends g r.startVpn r.endVpn)
    (hEnds' : Ends g' r'.startVpn r'.endVpn)
    (hSize : r.pageSize = pageSize)
    (hSize' : r'.pageSize = pageSize)
    (hBlocks : ∀ a b a' b', Ends g a b → Ends g' a' b' → b < a') :
    Before r r' := by
  have hLt := hBlocks _ _ _ _ hEnds hEnds'
  have hLe := (hEnds.le hOwn hEnds.mem.1).2
  constructor
  · rw [Region.startAddr, Region.startAddr, hSize, hSize']
    exact Int.mul_lt_mul_of_pos_right (hLe.trans_lt hLt) hPage
  · rw [Set.disjoint_left]
    intro v hIn hIn'
    exact absurd (hIn.2.trans_lt hLt) (not_lt_of_ge hIn'.1)

/- The groups that are not skipped. -/
def largeGroups
    (minPages : Int)
    (groups : List (List Int)) : List (List Int) :=
  groups.filter (fun grp => decide (¬(grp.length : Int) < minPages))

theorem mem_largeGroups
    {minPages : Int} :
    g ∈ largeGroups minPages groups ↔
      g ∈ groups ∧ ¬(g.length : Int) < minPages := by
  rw [largeGroups, List.mem_filter, decide_eq_true_eq]

variable {params : Params}

/- The regions of the large groups partition the pages. -/
theorem partitions_computed
    {regions : List Region}
    (hPage : 0 < params.pageSize)
    (hRecords : Records params.pageSize accesses stats)
    (hNonneg : ∀ acc ∈ accesses, 0 ≤ acc.recIdx)
    (hGrouped : Grouped params.gapPages (sortedKeys stats) groups)
    (hMap : (largeGroups params.minPages groups).mapM
      (fun grp => computeRegion grp
        (fun vpn => stats.lookup vpn) params.pageSize) =
      some regions) :
    Partitions params accesses groups regions := by
  have hSorted := pairwise_sortedKeys hRecords
  rw [← hGrouped.flatten] at hSorted
  have hRegion : ∀ g ∈ groups, ∀ r,
      computeRegion g (fun vpn => stats.lookup vpn)
        params.pageSize = some r →
      Ends g r.startVpn r.endVpn ∧
        r.pageSize = params.pageSize ∧
        r.Fits params.pageSize params.gapPages accesses := by
    intro g hMem r hSome
    rcases exists_computeRegion hRecords hNonneg hGrouped hMem
      with ⟨r', hSome', hFacts⟩
    rw [hSome] at hSome'
    rw [Option.some.inj hSome']
    exact hFacts
  have hBefore : regions.Pairwise Before := by
    refine Traverse.pairwise_of_mapM hMap
      ((pairwise_ends hSorted).sublist List.filter_sublist) ?_
    intro g hG g' hG' r r' hBlocks hSome hSome'
    have hMem := (mem_largeGroups.mp hG).1
    have hMem' := (mem_largeGroups.mp hG').1
    rcases hRegion g hMem r hSome with ⟨hEnds, hSize, -⟩
    rcases hRegion g' hMem' r' hSome' with
      ⟨hEnds', hSize', -⟩
    exact before_of_ends hPage
      (pairwise_group hRecords hGrouped hMem) hEnds hEnds'
      hSize hSize' hBlocks
  constructor
  · exact hSorted
  · intro v
    rw [hGrouped.flatten, mem_sortedKeys hRecords]
  · exact hBefore.imp And.left
  · exact hBefore.imp And.right
  · intro r hMem
    rcases (Traverse.mem_of_mapM hMap r).mp hMem with
      ⟨g, hG, hSome⟩
    exact (hRegion g (mem_largeGroups.mp hG).1 r hSome).2.2
  · intro v
    constructor
    · rintro ⟨hTouched, hOut⟩
      have hIn := hTouched
      rw [← mem_sortedKeys hRecords, ← hGrouped.flatten] at hIn
      rcases List.mem_flatten.mp hIn with ⟨g, hMem, hV⟩
      refine ⟨g, hMem, by_contra (fun hLarge => ?_), hV⟩
      rcases exists_computeRegion hRecords hNonneg hGrouped
        hMem with ⟨r, hSome, hEnds, -⟩
      exact hOut r ((Traverse.mem_of_mapM hMap r).mpr
        ⟨g, mem_largeGroups.mpr ⟨hMem, hLarge⟩, hSome⟩)
        ((span_iff hRecords hGrouped hMem hEnds hTouched).mpr hV)
    · rintro ⟨g, hMem, hSmall, hV⟩
      have hTouched :=
        mem_touched_of_mem hRecords hGrouped hMem hV
      refine ⟨hTouched, fun r hR hSpan => ?_⟩
      rcases (Traverse.mem_of_mapM hMap r).mp hR with
        ⟨g', hG', hSome⟩
      rcases mem_largeGroups.mp hG' with ⟨hMem', hLarge⟩
      have hV' := (span_iff hRecords hGrouped hMem'
        (hRegion g' hMem' r hSome).1 hTouched).mp hSpan
      rw [eq_of_mem_blocks hSorted hMem hMem' hV hV'] at hSmall
      exact hLarge hSmall

theorem Partitions.relabel
    {regions : List Region}
    (label : Region → Label)
    (hPartitions : Partitions params accesses groups regions) :
    Partitions params accesses groups
      (regions.map (fun r => { r with label := label r })) where
  order := hPartitions.order
  covers := hPartitions.covers
  sorted := by
    rw [List.pairwise_map]
    exact hPartitions.sorted
  disjoint := by
    rw [List.pairwise_map]
    exact hPartitions.disjoint
  fits := by
    intro r hMem
    rcases List.mem_map.mp hMem with ⟨r', hR', hEq⟩
    rw [← hEq]
    exact (hPartitions.fits r' hR').relabel _
  dropped := by
    intro v
    rw [← hPartitions.dropped v, List.forall_mem_map]
    rfl

theorem regionsOf_nil
    (params : Params)
    (pages : Pages) :
    regionsOf params [] pages = some [] := by
  simp [regionsOf, groupsOf, mergeRuns]

/- The second pass on the first one's statistics. -/
theorem exists_regionsOf
    (hPage : 0 < params.pageSize)
    (hRecords : Records params.pageSize accesses stats)
    (hNonneg : ∀ acc ∈ accesses, 0 ≤ acc.recIdx) :
    ∃ groups regions,
      groupsOf params (sortedKeys stats)
        (fun vpn => stats.lookup vpn) = some groups ∧
      regionsOf params (sortedKeys stats)
        (fun vpn => stats.lookup vpn) = some regions ∧
      Partitions params accesses groups regions := by
  rcases exists_groupsOf params (pairwise_sortedKeys hRecords)
    (known_sortedKeys hRecords) with ⟨groups, hSome, hGrouped⟩
  rcases Traverse.exists_mapM (fun g hMem => by
    rcases exists_computeRegion hRecords hNonneg hGrouped
      (mem_largeGroups.mp hMem).1 with ⟨r, hRegion, -⟩
    exact ⟨r, hRegion⟩) with ⟨regions, hMap⟩
  have hPartitions := (partitions_computed hPage hRecords
    hNonneg hGrouped hMap).relabel
    (fun r => classify r regions)
  refine ⟨groups, _, hSome, ?_, hPartitions⟩
  have hMap' := hMap
  rw [largeGroups] at hMap'
  rw [regionsOf, hSome]
  simp only [Option.bind_eq_bind, Option.bind_some, hMap']
  rw [List.mergeSort_of_pairwise]
  exact hPartitions.sorted.imp (fun h => decide_eq_true h.le)

/- A permutation of the accesses changes nothing. -/
theorem inferRegions_perm
    {accesses' : List MemAccess}
    (hPage : params.pageSize ≠ 0)
    (hPerm : accesses.Perm accesses') :
    inferRegions params accesses =
      inferRegions params accesses' := by
  rcases exists_buildPageStats accesses hPage with
    ⟨stats, hStats, hRecords⟩
  rcases exists_buildPageStats accesses' hPage with
    ⟨stats', hStats', hRecords'⟩
  have hKeys := sortedKeys_eq hPerm hRecords hRecords'
  have hLookup : (fun vpn => stats.lookup vpn) =
      (fun vpn => stats'.lookup vpn) :=
    funext (hRecords.lookup_eq hPerm hRecords')
  have hEmpty : stats.isEmpty = stats'.isEmpty := by
    have hLength := congrArg List.length hKeys
    rw [sortedKeys, sortedKeys, List.length_mergeSort,
      List.length_mergeSort, List.length_map,
      List.length_map] at hLength
    rw [Bool.eq_iff_iff, List.isEmpty_iff_length_eq_zero,
      List.isEmpty_iff_length_eq_zero, hLength]
  rw [inferRegions, inferRegions, hStats, hStats']
  simp only [Option.bind_eq_bind, Option.bind_some, hEmpty,
    hKeys, hLookup]

/- The regions of any accesses partition the touched pages,
   in every order of the accesses. -/
theorem inferRegions_partitions
    (params : Params)
    (accesses : List MemAccess)
    (hPage : 1 ≤ params.pageSize)
    (hNonneg : ∀ acc ∈ accesses, 0 ≤ acc.recIdx) :
    ∃ groups regions,
      touchedGroups params accesses = some groups ∧
      inferRegions params accesses = some regions ∧
      Partitions params accesses groups regions ∧
      ∀ accesses', accesses.Perm accesses' →
        inferRegions params accesses' = some regions := by
  have hPos : 0 < params.pageSize := by omega
  rcases exists_buildPageStats accesses
    (by omega : params.pageSize ≠ 0) with
    ⟨stats, hStats, hRecords⟩
  rcases exists_regionsOf hPos hRecords hNonneg with
    ⟨groups, regions, hGroups, hRegions, hPartitions⟩
  have hInfer : inferRegions params accesses = some regions := by
    rw [inferRegions, hStats]
    simp only [Option.bind_eq_bind, Option.bind_some]
    split_ifs with hEmpty
    · rw [List.isEmpty_iff] at hEmpty
      rw [← hRegions, hEmpty, sortedKeys, List.map_nil,
        List.mergeSort_nil, regionsOf_nil]
    · exact hRegions
  refine ⟨groups, regions, ?_, hInfer, hPartitions, ?_⟩
  · rw [touchedGroups, hStats]
    exact hGroups
  · intro accesses' hPerm
    rw [← inferRegions_perm hPos.ne' hPerm]
    exact hInfer

/- Two pages of one run, and the same in the other order. -/
theorem inferRegions_partitions_twoPages :
    ∃ groups regions,
      touchedGroups { minPages := 1 }
        [⟨0, 4096, true, 3⟩, ⟨0, 0, false, 1⟩] =
        some groups ∧
      inferRegions { minPages := 1 }
        [⟨0, 4096, true, 3⟩, ⟨0, 0, false, 1⟩] =
        some regions ∧
      Partitions { minPages := 1 }
        [⟨0, 4096, true, 3⟩, ⟨0, 0, false, 1⟩]
        groups regions ∧
      ∀ accesses',
        [⟨0, 4096, true, 3⟩, ⟨0, 0, false, 1⟩].Perm accesses' →
        inferRegions { minPages := 1 } accesses' = some regions :=
  inferRegions_partitions { minPages := 1 }
    [⟨0, 4096, true, 3⟩, ⟨0, 0, false, 1⟩] (by decide)
    (by decide)

end Virtuoso.VmaInfer
