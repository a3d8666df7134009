import Mathlib.Algebra.Order.Field.Rat
import Virtuoso.Lib.Assoc

/-
  The inference of memory areas from traces, from `infer.py`.

  An access goes to a page. The touched pages are merged into
  runs, the runs are split into groups, and each group with
  enough pages becomes a region.

  A missing key, an empty list or a page size of zero raises
  an error, which is `none`. Fractions are exact: the floats
  of the source are rationals here.

  Key definitions include:
    * `buildPageStatsFromTrace`
    * `inferRegions`
-/

namespace Virtuoso.VmaInfer

/- One memory access of a trace record. -/
structure MemAccess where
  ip : Int
  addr : Int
  isWrite : Bool
  recIdx : Int
deriving DecidableEq

/- What is counted for a page. -/
structure PageStats where
  reads : Nat := 0
  writes : Nat := 0
  firstIdx : Int := 0
  lastIdx : Int := 0
deriving DecidableEq

/- The page of an access, with the division of Python. -/
def MemAccess.vpn
    (acc : MemAccess)
    (pageSize : Int) : Int :=
  Int.fdiv acc.addr pageSize

/- One access more to the page. -/
def PageStats.touch
    (ps : PageStats)
    (acc : MemAccess) : PageStats :=
  { reads := if acc.isWrite then ps.reads else ps.reads + 1
    writes := if acc.isWrite then ps.writes + 1 else ps.writes
    firstIdx :=
      if acc.recIdx < ps.firstIdx then acc.recIdx
      else ps.firstIdx
    lastIdx :=
      if acc.recIdx > ps.lastIdx then acc.recIdx
      else ps.lastIdx }

/- The dictionary `{vpn: PageStats}`. -/
abbrev Stats := List (Int × PageStats)

/- The body of the loop over the accesses. -/
def recordAccess
    (pageSize : Int)
    (stats : Stats)
    (acc : MemAccess) : Option Stats :=
  if pageSize = 0 then none
  else
    let vpn := acc.vpn pageSize
    let ps := (stats.lookup vpn).getD
      { firstIdx := acc.recIdx, lastIdx := acc.recIdx }
    some (Assoc.insert stats vpn (ps.touch acc))

/- The pages of the trace, as they are accessed. -/
def buildPageStatsFromTrace
    (accesses : List MemAccess)
    (pageSize : Int) : Option Stats :=
  accesses.foldlM (recordAccess pageSize) []

/- The body of the loop, over the runs, their start and the
   page before. -/
def mergeStep
    (gapPages : Int)
    (s : List (Int × Int) × Int × Int)
    (vpn : Int) : List (Int × Int) × Int × Int :=
  if vpn - s.2.2 > gapPages + 1 then
    (s.1 ++ [(s.2.1, s.2.2)], vpn, vpn)
  else (s.1, s.2.1, vpn)

/- `_merge_runs`, of sorted pages. -/
def mergeRuns
    (sortedVpns : List Int)
    (gapPages : Int) : List (Int × Int) :=
  match sortedVpns with
  | [] => []
  | first :: rest =>
      let s := rest.foldl (mergeStep gapPages)
        ([], first, first)
      s.1 ++ [(s.2.1, s.2.2)]

/- The second pass reads the dictionary only by `stats[vpn]`. -/
abbrev Pages := Int → Option PageStats

/- `groups[-1].append(vpn)`. -/
def appendLast
    (groups : List (List Int))
    (vpn : Int) : List (List Int) :=
  groups.dropLast ++ [groups.getLastD [] ++ [vpn]]

/- A new group where the pages differ, or the last one. -/
def extend
    (groups : List (List Int))
    (vpn : Int)
    (differ : Bool) : List (List Int) :=
  if differ then groups ++ [[vpn]]
  else appendLast groups vpn

/- A page touched at another time starts a group. -/
def firstTouchStep
    (stats : Pages)
    (threshold : Int)
    (groups : List (List Int))
    (vpn : Int) : Option (List (List Int)) := do
  let prevVpn ← (groups.getLastD []).getLast?
  let prev ← stats prevVpn
  let curr ← stats vpn
  some (extend groups vpn
    (decide (|curr.firstIdx - prev.firstIdx| > threshold)))

/- `_split_by_first_touch`. -/
def splitByFirstTouch
    (vpns : List Int)
    (stats : Pages)
    (threshold : Int) : Option (List (List Int)) :=
  match vpns with
  | [] => some []
  | first :: rest =>
      rest.foldlM (firstTouchStep stats threshold) [[first]]

/- `_write_frac_in_window`. -/
def writeFracInWindow
    (vpns : List Int)
    (stats : Pages)
    (center halfWindow : Int) : Option ℚ := do
  let lo := max 0 (center - halfWindow)
  let hi := min (vpns.length : Int) (center + halfWindow + 1)
  let pages ←
    ((vpns.take hi.toNat).drop lo.toNat).mapM stats
  let r := (pages.map PageStats.reads).sum
  let w := (pages.map PageStats.writes).sum
  let total := r + w
  some (if total ≠ 0 then (w : ℚ) / total else 0)

/- The groups and the fraction of the page before. -/
def writeFracStep
    (vpns : List Int)
    (stats : Pages)
    (half : Int)
    (wfSplitDelta : ℚ)
    (s : List (List Int) × ℚ)
    (page : Int × Nat) : Option (List (List Int) × ℚ) := do
  let curWf ← writeFracInWindow vpns stats page.2 half
  some (extend s.1 page.1
    (decide (|curWf - s.2| > wfSplitDelta)), curWf)

/- `_split_by_write_frac`. -/
def splitByWriteFrac
    (vpns : List Int)
    (stats : Pages)
    (wfWindow : Int)
    (wfSplitDelta : ℚ) : Option (List (List Int)) :=
  match vpns with
  | [] => some []
  | [vpn] => some [[vpn]]
  | first :: rest => do
      let half := Int.fdiv wfWindow 2
      let prevWf ← writeFracInWindow vpns stats 0 half
      let s ← (rest.zipIdx 1).foldlM
        (writeFracStep vpns stats half wfSplitDelta)
        ([[first]], prevWf)
      some s.1

/- `_apply_splits`, of the pages of a run. -/
def applySplits
    (runVpns : List Int)
    (stats : Pages)
    (timeSplitUnits wfWindow : Int)
    (wfSplitDelta : ℚ) : Option (List (List Int)) := do
  let groups ←
    if timeSplitUnits > 0 then
      splitByFirstTouch runVpns stats timeSplitUnits
    else some [runVpns]
  let final ← groups.mapM (fun grp =>
    splitByWriteFrac grp stats wfWindow wfSplitDelta)
  some final.flatten

/- The kinds of regions. -/
inductive Label where
  | unknown
  | stackCandidate
  | rwAnonCandidate
  | roOrFileCandidate
deriving DecidableEq

/- An inferred region. -/
structure Region where
  startVpn : Int
  endVpn : Int
  pageSize : Int
  numPagesSpan : Int := 0
  numPagesTouched : Nat := 0
  touchDensity : ℚ := 0
  reads : Nat := 0
  writes : Nat := 0
  writeFrac : ℚ := 0
  firstTouchTs : Int := 0
  lastTouchTs : Int := 0
  label : Label := Label.unknown
deriving DecidableEq

/- The first address of the region. -/
def Region.startAddr (r : Region) : Int :=
  r.startVpn * r.pageSize

/- The address behind the region. -/
def Region.endAddr (r : Region) : Int :=
  (r.endVpn + 1) * r.pageSize

/- The locals of the loop of `_compute_region`. -/
structure Totals where
  reads : Nat := 0
  writes : Nat := 0
  firstT : Option Int := none
  lastT : Int := 0

/- A page is counted in the totals. -/
def Totals.add (t : Totals) (ps : PageStats) : Totals :=
  { reads := t.reads + ps.reads
    writes := t.writes + ps.writes
    firstT :=
      match t.firstT with
      | none => some ps.firstIdx
      | some first =>
          if ps.firstIdx < first then some ps.firstIdx
          else some first
    lastT :=
      if ps.lastIdx > t.lastT then ps.lastIdx else t.lastT }

/- `_compute_region`. -/
def computeRegion
    (vpns : List Int)
    (stats : Pages)
    (pageSize : Int) : Option Region := do
  let startVpn ← vpns.head?
  let endVpn ← vpns.getLast?
  let pages ← vpns.mapM stats
  let t := pages.foldl Totals.add {}
  let span := endVpn - startVpn + 1
  let total := t.reads + t.writes
  some
    { startVpn := startVpn
      endVpn := endVpn
      pageSize := pageSize
      numPagesSpan := span
      numPagesTouched := vpns.length
      touchDensity :=
        if span ≠ 0 then (vpns.length : ℚ) / span else 0
      reads := t.reads
      writes := t.writes
      writeFrac :=
        if total ≠ 0 then (t.writes : ℚ) / total else 0
      firstTouchTs := t.firstT.getD 0
      lastTouchTs := t.lastT }

/- `_classify`, where the thresholds are decimal fractions. -/
def classify
    (region : Region)
    (allRegions : List Region) : Label :=
  match allRegions with
  | [] => Label.unknown
  | r :: rest =>
      let maxAddr := rest.foldl
        (fun m q => max m q.endAddr) r.endAddr
      let minAddr := rest.foldl
        (fun m q => min m q.startAddr) r.startAddr
      let addrRange : Int :=
        if maxAddr > minAddr then maxAddr - minAddr else 1
      let highThreshold : ℚ := minAddr + 9 / 10 * addrRange
      let isHigh := highThreshold ≤ (region.startAddr : ℚ)
      let earliest := rest.foldl
        (fun m q => min m q.firstTouchTs) r.firstTouchTs
      let latest := rest.foldl
        (fun m q => max m q.lastTouchTs) r.lastTouchTs
      let tsRange : Int :=
        if latest > earliest then latest - earliest else 1
      let relFirstTouch : ℚ :=
        ((region.firstTouchTs - earliest : Int) : ℚ) / tsRange
      if isHigh ∧ region.touchDensity > 1 / 2 ∧
          region.writeFrac > 1 / 10 then
        Label.stackCandidate
      else if region.writeFrac > 1 / 5 ∧
          relFirstTouch > 3 / 10 then
        Label.rwAnonCandidate
      else if region.writeFrac < 1 / 100 ∧
          relFirstTouch < 1 / 5 then
        Label.roOrFileCandidate
      else Label.unknown

/- The keyword arguments of `infer_regions`. -/
structure Params where
  pageSize : Int := 4096
  gapPages : Int := 4
  minPages : Int := 8
  timeSplitUnits : Int := 50
  wfWindow : Int := 64
  wfSplitDelta : ℚ := 1 / 5

/- `sorted(stats.keys())`. -/
def sortedKeys (stats : Stats) : List Int :=
  (stats.map Prod.fst).mergeSort (fun v v' => decide (v ≤ v'))

/- The groups of a run, of the pages touched within it. -/
def subGroups
    (params : Params)
    (sortedVpns : List Int)
    (stats : Pages)
    (run : Int × Int) : Option (List (List Int)) :=
  applySplits
    (sortedVpns.filter (fun v => decide (run.1 ≤ v ∧ v ≤ run.2)))
    stats params.timeSplitUnits params.wfWindow
    params.wfSplitDelta

/- The groups of all the runs. -/
def groupsOf
    (params : Params)
    (sortedVpns : List Int)
    (stats : Pages) : Option (List (List Int)) := do
  let groups ←
    (mergeRuns sortedVpns params.gapPages).mapM
      (subGroups params sortedVpns stats)
  some groups.flatten

/- The groups that `infer_regions` makes of the accesses. -/
def touchedGroups
    (params : Params)
    (accesses : List MemAccess) :
    Option (List (List Int)) := do
  let stats ← buildPageStatsFromTrace accesses params.pageSize
  groupsOf params (sortedKeys stats) (fun vpn => stats.lookup vpn)

/- The second pass, from the runs to the sorted regions. -/
def regionsOf
    (params : Params)
    (sortedVpns : List Int)
    (stats : Pages) : Option (List Region) := do
  let groups ← groupsOf params sortedVpns stats
  let large := groups.filter
    (fun grp => decide (¬(grp.length : Int) < params.minPages))
  let allRegions ← large.mapM
    (fun grp => computeRegion grp stats params.pageSize)
  let labelled := allRegions.map
    (fun r => { r with label := classify r allRegions })
  some (labelled.mergeSort
    (fun r r' => decide (r.startAddr ≤ r'.startAddr)))

/- `infer_regions`. -/
def inferRegions
    (params : Params)
    (accesses : List MemAccess) : Option (List Region) := do
  let stats ← buildPageStatsFromTrace accesses params.pageSize
  if stats.isEmpty then some []
  else
    regionsOf params (sortedKeys stats)
      (fun vpn => stats.lookup vpn)

end Virtuoso.VmaInfer
