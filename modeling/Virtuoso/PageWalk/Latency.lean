import Mathlib.Algebra.BigOperators.Group.List.Lemmas
import Mathlib.Algebra.GroupWithZero.Nat
import Mathlib.Algebra.Order.BigOperators.Group.List
import Mathlib.Algebra.Order.Group.Nat
import Mathlib.Data.List.Fold
import Virtuoso.PageTable.Basic

/-
  The latency of a page walk, as `calculatePTWCycles` of
  `mmu_base.cc` adds it up.

  The accesses of a walk go level by level through all tables
  in parallel. The latency of a level is that of its slowest
  access; an access of the translation itself stands for its
  level, and what would start after it has arrived is not
  performed. Without a translation the levels of all tables
  are added up in one sum, though the largest sum of a single
  table is looked for.

  Times are 64-bit numbers of femtoseconds that wrap around.
  What the caches answer is given for each access; where the
  accesses have hit, the statistics and the logs are left
  out.

  Main declarations:
    * `PTWTiming.calculatePTWCycles_eq_iff`
-/

------------------------------------------------------------
-- Levels And Accesses
------------------------------------------------------------

namespace Virtuoso

/-
  The arrays by table and level, and the table, the level and
  the arrival of the translation (`correct_table`,
  `correct_level`, `correct_access_translation_time`).
-/
structure PTWTiming where
  levelLatency : Nat → Nat → Nat
  fetchDelay : Nat → Nat
  correctTable : Option Nat
  correctLevel : Option Nat
  correctTime : Nat

namespace PTWTiming

/- `SubsecondTime::MaxTime`. -/
def maxTime : Nat := 18446744073709551615

/- Times are unsigned words. -/
def addTime (a b : Nat) : Nat :=
  (a + b) % 18446744073709551616

/- Before the first access. -/
def start : PTWTiming where
  levelLatency := fun _ _ => 0
  fetchDelay := fun _ => 0
  correctTable := none
  correctLevel := none
  correctTime := maxTime

/- The latency of one level of a table. -/
def setLatency
    (s : PTWTiming)
    (table level latency : Nat) : PTWTiming :=
  { s with
    levelLatency := Function.update s.levelLatency table
      (Function.update (s.levelLatency table) level latency) }

/-
  An access of the current level and table: the cache is not
  accessed once the translation has arrived.
-/
def access
    (latency : Nat → Nat)
    (now level table : Nat)
    (s : PTWTiming)
    (req : PTWAccess × Nat) : PTWTiming :=
  if req.1.depth = level ∧ req.1.tableLevel = table then
    let issued := addTime now (s.fetchDelay table)
    let cost :=
      if issued < s.correctTime then latency req.2 else 0
    if req.1.isPte then
      { s.setLatency table level cost with
        correctTable := some table
        correctLevel := some level
        correctTime := addTime issued cost }
    else if s.levelLatency table level < cost ∧
        s.correctLevel ≠ some level then
      s.setLatency table level cost
    else s
  else s

/- All accesses of a level and a table. -/
def visit
    (latency : Nat → Nat)
    (now : Nat)
    (reqs : List (PTWAccess × Nat))
    (level : Nat)
    (s : PTWTiming)
    (table : Nat) : PTWTiming :=
  let s := reqs.foldl (access latency now level table) s
  { s with
    fetchDelay := Function.update s.fetchDelay table
      (addTime (s.fetchDelay table) (s.levelLatency table level)) }

/- The loops over the levels and the tables. -/
def walk
    (latency : Nat → Nat)
    (now : Nat)
    (reqs : List (PTWAccess × Nat))
    (levels tables : Nat) : PTWTiming :=
  (List.range (levels + 1)).foldl
    (fun s level => (List.range (tables + 1)).foldl
      (visit latency now reqs level) s)
    start

/- The sum that goes on from the levels of a table. -/
def addLevels
    (s : PTWTiming)
    (levels : Nat)
    (total table : Nat) : Nat :=
  (List.range (levels + 1)).foldl
    (fun total level =>
      addTime total (s.levelLatency table level))
    total

/-
  Without a translation the sum is not reset for each table,
  and the largest one is not used.
-/
def total (s : PTWTiming) (levels tables : Nat) : Nat :=
  match s.correctTable with
  | some table => s.addLevels levels 0 table
  | none =>
      ((List.range (tables + 1)).foldl
        (fun (sums : Nat × Nat) table =>
          let walkLatency := s.addLevels levels sums.1 table
          (walkLatency, max sums.2 walkLatency))
        (0, 0)).1

/- The depth of the deepest access. -/
def maxDepth (accesses : List PTWAccess) : Nat :=
  (accesses.map PTWAccess.depth).foldl max 0

/- The highest table that is accessed. -/
def maxTable (accesses : List PTWAccess) : Nat :=
  (accesses.map PTWAccess.tableLevel).foldl max 0

/-
  The latency of a walk that starts at a time, where the
  accesses take the given latencies.
-/
def calculatePTWCycles
    (latency : Nat → Nat)
    (now : Nat)
    (result : PTWResult) : Nat :=
  let accesses := result.accesses
  let levels := maxDepth accesses
  let tables := maxTable accesses
  (walk latency now accesses.zipIdx levels tables).total
    levels tables

/- The accesses of a level of a table. -/
def ofLevel
    (table level : Nat)
    (req : PTWAccess × Nat) : Bool :=
  decide (req.1.depth = level ∧ req.1.tableLevel = table)

/- The slowest access of a level of a table. -/
def slowest
    (latency : Nat → Nat)
    (reqs : List (PTWAccess × Nat))
    (table level : Nat) : Nat :=
  ((reqs.filter (ofLevel table level)).map
    (fun req => latency req.2)).foldl max 0

/- The levels of a table before a level, one after another. -/
def tableLatency
    (latency : Nat → Nat)
    (reqs : List (PTWAccess × Nat))
    (table levels : Nat) : Nat :=
  ((List.range levels).map (slowest latency reqs table)).sum

/-
  The latency of a walk: up to the translation, or that of
  the slowest table.
-/
def expected
    (latency : Nat → Nat)
    (result : PTWResult) : Nat :=
  let reqs := result.accesses.zipIdx
  match reqs.find? (fun req => req.1.isPte) with
  | some pte =>
      tableLatency latency reqs pte.1.tableLevel pte.1.depth +
        latency pte.2
  | none =>
      ((List.range (maxTable result.accesses + 1)).map
        (fun table => tableLatency latency reqs table
          (maxDepth result.accesses + 1))).foldl max 0

variable {latency : Nat → Nat} {now : Nat}
variable {reqs : List (PTWAccess × Nat)} {s : PTWTiming}
variable {table level levels tables : Nat}

theorem addTime_of_lt
    {a b : Nat}
    (hFits : a + b < maxTime) :
    addTime a b = a + b :=
  Nat.mod_eq_of_lt (by rw [maxTime] at hFits; omega)

theorem tableLatency_succ
    (latency : Nat → Nat)
    (reqs : List (PTWAccess × Nat))
    (table level : Nat) :
    tableLatency latency reqs table (level + 1) =
      tableLatency latency reqs table level +
        slowest latency reqs table level := by
  rw [tableLatency, tableLatency, List.range_succ,
    List.map_append, List.sum_append]
  rfl

theorem tableLatency_mono
    (latency : Nat → Nat)
    (reqs : List (PTWAccess × Nat))
    (table : Nat)
    {level' : Nat}
    (hLe : level ≤ level') :
    tableLatency latency reqs table level ≤
      tableLatency latency reqs table level' := by
  induction level', hLe using Nat.le_induction with
  | base => exact Nat.le_refl _
  | succ level' _ ih =>
      rw [tableLatency_succ]
      omega

theorem setLatency_self :
    s.setLatency table level (s.levelLatency table level) = s := by
  rw [setLatency, Function.update_eq_self, Function.update_eq_self]

theorem fetchDelay_setLatency
    {a : Nat} :
    (s.setLatency table level a).fetchDelay = s.fetchDelay :=
  rfl

theorem setLatency_setLatency
    {a b : Nat} :
    (s.setLatency table level a).setLatency table level b =
      s.setLatency table level b := by
  simp [setLatency]

theorem levelLatency_setLatency
    {a : Nat} :
    (s.setLatency table level a).levelLatency table level = a := by
  simp [setLatency]

theorem levelLatency_setLatency_of_ne
    {a table' level' : Nat}
    (hNe : table' = table → level' ≠ level) :
    (s.setLatency table level a).levelLatency table' level' =
      s.levelLatency table' level' := by
  by_cases hTable : table' = table
  · subst hTable
    simp [setLatency, hNe rfl]
  · simp [setLatency, hTable]

variable {req : PTWAccess × Nat}

/- An access that is not of the translation. -/
theorem access_of_issued
    (hPte : ofLevel table level req = true → req.1.isPte = false)
    (hIssued : addTime now (s.fetchDelay table) < s.correctTime)
    (hLevel : s.correctLevel ≠ some level) :
    access latency now level table s req =
      if ofLevel table level req then
        s.setLatency table level
          (max (s.levelLatency table level) (latency req.2))
      else s := by
  rw [access, ofLevel]
  by_cases hOf : req.1.depth = level ∧ req.1.tableLevel = table
  · have hPte' : req.1.isPte = false :=
      hPte (decide_eq_true hOf)
    simp only [hOf, and_self, if_true, decide_true, hPte',
      hIssued, hLevel, ne_eq, not_false_eq_true, and_true,
      Bool.false_eq_true, if_false]
    split_ifs with hSlower
    · rw [max_eq_right (Nat.le_of_lt hSlower)]
    · rw [max_eq_left (Nat.not_lt.mp hSlower), setLatency_self]
  · rw [if_neg hOf, decide_eq_false hOf]
    rfl

/- The level has the latency of its slowest access. -/
theorem foldl_access_of_issued
    (hPte : ∀ req ∈ reqs, ofLevel table level req = true →
      req.1.isPte = false)
    (hIssued : addTime now (s.fetchDelay table) < s.correctTime)
    (hLevel : s.correctLevel ≠ some level) :
    reqs.foldl (access latency now level table) s =
      s.setLatency table level
        (((reqs.filter (ofLevel table level)).map
          (fun req => latency req.2)).foldl max
            (s.levelLatency table level)) := by
  induction reqs generalizing s with
  | nil => exact setLatency_self.symm
  | cons req reqs ih =>
      have hRest : ∀ req ∈ reqs,
          ofLevel table level req = true → req.1.isPte = false :=
        fun req hMem => hPte req (by simp [hMem])
      rw [List.foldl_cons, access_of_issued
        (hPte req (by simp)) hIssued hLevel]
      by_cases hOf : ofLevel table level req = true
      · rw [if_pos hOf, ih (s := s.setLatency table level _)
            hRest hIssued hLevel,
          List.filter_cons_of_pos hOf, List.map_cons,
          List.foldl_cons, levelLatency_setLatency,
          setLatency_setLatency]
      · rw [if_neg hOf, ih hRest hIssued hLevel,
          List.filter_cons_of_neg hOf]

/- What is not issued or comes beside the translation. -/
theorem foldl_access_of_late
    (latency : Nat → Nat)
    (hPte : ∀ req ∈ reqs, ofLevel table level req = true →
      req.1.isPte = false)
    (hLate :
      ¬ addTime now (s.fetchDelay table) < s.correctTime ∨
        s.correctLevel = some level) :
    reqs.foldl (access latency now level table) s = s := by
  induction reqs with
  | nil => rfl
  | cons req reqs ih =>
      have hSame : access latency now level table s req = s := by
        rw [access]
        by_cases hOf : req.1.depth = level ∧
            req.1.tableLevel = table
        · have hPte' : req.1.isPte = false :=
            hPte req (by simp) (decide_eq_true hOf)
          rw [if_pos hOf]
          rcases hLate with hLate | hLevel
          · simp [hPte', hLate]
          · simp [hPte', hLevel]
        · rw [if_neg hOf]
      rw [List.foldl_cons, hSame]
      exact ih (fun req hMem => hPte req (by simp [hMem]))

/- The other levels and tables are unchanged. -/
theorem foldl_access_frame
    (s : PTWTiming)
    (latency : Nat → Nat)
    (now : Nat)
    (hPte : ∀ req ∈ reqs, ofLevel table level req = true →
      req.1.isPte = false) :
    ∃ a, reqs.foldl (access latency now level table) s =
      s.setLatency table level a := by
  by_cases hIssued :
      addTime now (s.fetchDelay table) < s.correctTime
  · by_cases hLevel : s.correctLevel = some level
    · exact ⟨_, (foldl_access_of_late latency hPte
        (Or.inr hLevel)).trans setLatency_self.symm⟩
    · exact ⟨_, foldl_access_of_issued hPte hIssued hLevel⟩
  · exact ⟨_, (foldl_access_of_late latency hPte
      (Or.inl hIssued)).trans setLatency_self.symm⟩

variable {pte : PTWAccess × Nat}

/- The access of the translation stands for its level. -/
theorem foldl_access_of_pte
    (latency : Nat → Nat)
    {front back : List (PTWAccess × Nat)}
    (hPte : pte.1.isPte = true)
    (hFront : ∀ req ∈ front, req.1.isPte = false)
    (hBack : ∀ req ∈ back, req.1.isPte = false)
    (hIssued : addTime now (s.fetchDelay pte.1.tableLevel) <
      s.correctTime)
    (hLevel : s.correctLevel ≠ some pte.1.depth) :
    (front ++ pte :: back).foldl
        (access latency now pte.1.depth pte.1.tableLevel) s =
      { s.setLatency pte.1.tableLevel pte.1.depth
          (latency pte.2) with
        correctTable := some pte.1.tableLevel
        correctLevel := some pte.1.depth
        correctTime :=
          addTime (addTime now
            (s.fetchDelay pte.1.tableLevel))
            (latency pte.2) } := by
  have hHere : ∀ t : PTWTiming,
      addTime now (t.fetchDelay pte.1.tableLevel) < t.correctTime →
      access latency now pte.1.depth pte.1.tableLevel t pte =
        { t.setLatency pte.1.tableLevel pte.1.depth
            (latency pte.2) with
          correctTable := some pte.1.tableLevel
          correctLevel := some pte.1.depth
          correctTime :=
            addTime (addTime now
              (t.fetchDelay pte.1.tableLevel))
              (latency pte.2) } := by
    intro t hTime
    rw [access, if_pos ⟨rfl, rfl⟩]
    simp only [hTime, hPte, if_true]
  rw [List.foldl_append, foldl_access_of_issued
    (fun req hMem _ => hFront req hMem) hIssued hLevel,
    List.foldl_cons,
    hHere (s.setLatency pte.1.tableLevel pte.1.depth _) hIssued,
    foldl_access_of_late latency
      (fun req hMem _ => hBack req hMem) (Or.inr rfl),
    setLatency_setLatency]
  rfl

------------------------------------------------------------
-- Walks
------------------------------------------------------------

/- The levels that are over when a table is reached. -/
def done (level table t : Nat) : Nat :=
  if t < table then level + 1 else level

/- The translation has not arrived. -/
structure Searching
    (latency : Nat → Nat)
    (reqs : List (PTWAccess × Nat))
    (tables level table : Nat)
    (s : PTWTiming) : Prop where
  correctTable_eq : s.correctTable = none
  correctLevel_eq : s.correctLevel = none
  correctTime_eq : s.correctTime = maxTime
  fetchDelay_eq : ∀ t ≤ tables, s.fetchDelay t =
    tableLatency latency reqs t (done level table t)
  levelLatency_eq : ∀ t ≤ tables, ∀ l, s.levelLatency t l =
    if l < done level table t then slowest latency reqs t l
    else 0

/- The translation has arrived. -/
structure Arrived
    (latency : Nat → Nat)
    (now : Nat)
    (reqs : List (PTWAccess × Nat))
    (pte : PTWAccess × Nat)
    (s : PTWTiming) : Prop where
  correctTable_eq : s.correctTable = some pte.1.tableLevel
  fetchDelay_eq : s.fetchDelay pte.1.tableLevel =
    tableLatency latency reqs pte.1.tableLevel pte.1.depth +
      latency pte.2
  correctTime_eq : s.correctTime =
    addTime now (s.fetchDelay pte.1.tableLevel)
  levelLatency_eq : ∀ l, s.levelLatency pte.1.tableLevel l =
    if l < pte.1.depth then
      slowest latency reqs pte.1.tableLevel l
    else if l = pte.1.depth then latency pte.2
    else 0

theorem done_succ
    {t : Nat} :
    done level (table + 1) t =
      if t = table then level + 1 else done level table t := by
  unfold done
  split_ifs <;> omega

theorem searching_visit
    (hSearch : Searching latency reqs tables level table s)
    (hTable : table ≤ tables)
    (hPte : ∀ req ∈ reqs, ofLevel table level req = true →
      req.1.isPte = false)
    (hFits : now +
      tableLatency latency reqs table (level + 1) < maxTime) :
    Searching latency reqs tables level (table + 1)
      (visit latency now reqs level s table) := by
  have hSucc := tableLatency_succ latency reqs table level
  have hDone : done level table table = level :=
    if_neg (Nat.lt_irrefl _)
  have hDelay := hSearch.fetchDelay_eq table hTable
  have hLevel := hSearch.levelLatency_eq table hTable level
  rw [hDone] at hDelay hLevel
  rw [if_neg (Nat.lt_irrefl _)] at hLevel
  have hIssued : addTime now (s.fetchDelay table) <
      s.correctTime := by
    rw [hDelay, hSearch.correctTime_eq, addTime_of_lt (by omega)]
    omega
  have hFold :
      reqs.foldl (access latency now level table) s =
        s.setLatency table level
          (slowest latency reqs table level) := by
    rw [foldl_access_of_issued hPte hIssued
      (by rw [hSearch.correctLevel_eq]; simp), hLevel]
    rfl
  simp only [visit]
  rw [hFold, levelLatency_setLatency]
  refine ⟨hSearch.correctTable_eq, hSearch.correctLevel_eq,
    hSearch.correctTime_eq, ?_, ?_⟩
  · intro t hLe
    rw [done_succ]
    by_cases hEq : t = table
    · rw [if_pos hEq, hEq, hSucc, ← hDelay]
      refine (Function.update_self _ _ _).trans ?_
      rw [fetchDelay_setLatency]
      exact addTime_of_lt (by omega)
    · rw [if_neg hEq]
      refine (Function.update_of_ne hEq _ _).trans ?_
      exact hSearch.fetchDelay_eq t hLe
  · intro t hLe l
    have hOld := hSearch.levelLatency_eq t hLe l
    rw [done_succ]
    by_cases hEq : t = table
    · subst hEq
      rw [if_pos rfl]
      by_cases hSame : l = level
      · subst hSame
        rw [if_pos (Nat.lt_succ_self _)]
        exact levelLatency_setLatency
      · refine (levelLatency_setLatency_of_ne
          (fun _ => hSame)).trans ?_
        rw [hOld, hDone]
        split_ifs <;> first | rfl | omega
    · rw [if_neg hEq]
      exact (levelLatency_setLatency_of_ne
        (fun hTable => absurd hTable hEq)).trans hOld

/- The visit that accesses the translation. -/
theorem arrived_visit_of_pte
    {front back : List (PTWAccess × Nat)}
    (hReqs : reqs = front ++ pte :: back)
    (hSearch : Searching latency reqs tables pte.1.depth
      pte.1.tableLevel s)
    (hTable : pte.1.tableLevel ≤ tables)
    (hPte : pte.1.isPte = true)
    (hFront : ∀ req ∈ front, req.1.isPte = false)
    (hBack : ∀ req ∈ back, req.1.isPte = false)
    (hFits : now + (tableLatency latency reqs
      pte.1.tableLevel pte.1.depth + latency pte.2) < maxTime) :
    Arrived latency now reqs pte
      (visit latency now reqs pte.1.depth s pte.1.tableLevel) := by
  have hDone : done pte.1.depth pte.1.tableLevel
      pte.1.tableLevel = pte.1.depth :=
    if_neg (Nat.lt_irrefl _)
  have hDelay := hSearch.fetchDelay_eq _ hTable
  rw [hDone] at hDelay
  have hIssued : addTime now (s.fetchDelay pte.1.tableLevel) <
      s.correctTime := by
    rw [hDelay, hSearch.correctTime_eq, addTime_of_lt (by omega)]
    omega
  have hFold := foldl_access_of_pte latency hPte hFront hBack hIssued
    (by rw [hSearch.correctLevel_eq]; simp)
  rw [← hReqs] at hFold
  have hArrival : addTime
        (tableLatency latency reqs pte.1.tableLevel
          pte.1.depth) (latency pte.2) =
      tableLatency latency reqs pte.1.tableLevel pte.1.depth +
        latency pte.2 :=
    addTime_of_lt (by omega)
  have hStart : addTime now
        (tableLatency latency reqs pte.1.tableLevel pte.1.depth) =
      now + tableLatency latency reqs pte.1.tableLevel
        pte.1.depth :=
    addTime_of_lt (by omega)
  simp only [visit]
  rw [hFold]
  have hNew : Function.update s.fetchDelay pte.1.tableLevel
        (addTime (s.fetchDelay pte.1.tableLevel)
          (latency pte.2)) pte.1.tableLevel =
      tableLatency latency reqs pte.1.tableLevel pte.1.depth +
        latency pte.2 := by
    rw [Function.update_self, hDelay, hArrival]
  constructor
  · rfl
  · simp only [levelLatency_setLatency, fetchDelay_setLatency]
    exact hNew
  · simp only [levelLatency_setLatency, fetchDelay_setLatency]
    rw [hNew, hDelay, hStart, addTime_of_lt (by omega),
      addTime_of_lt hFits, Nat.add_assoc]
  · intro l
    have hOld := hSearch.levelLatency_eq _ hTable l
    rw [hDone] at hOld
    by_cases hSame : l = pte.1.depth
    · subst hSame
      rw [if_neg (Nat.lt_irrefl _), if_pos rfl]
      exact levelLatency_setLatency
    · rw [if_neg hSame]
      exact (levelLatency_setLatency_of_ne
        (fun _ => hSame)).trans hOld

/- The visits after the translation has arrived. -/
theorem arrived_visit
    (hArrived : Arrived latency now reqs pte s)
    (hPte : ∀ req ∈ reqs, ofLevel table level req = true →
      req.1.isPte = false)
    (hLater : table = pte.1.tableLevel → pte.1.depth < level)
    (hFits : now + (tableLatency latency reqs
      pte.1.tableLevel pte.1.depth + latency pte.2) < maxTime) :
    Arrived latency now reqs pte
      (visit latency now reqs level s table) := by
  by_cases hTable : table = pte.1.tableLevel
  · -- Nothing is issued: it would start at the arrival.
    have hLate : ¬ addTime now (s.fetchDelay table) <
        s.correctTime := by
      rw [hTable, hArrived.correctTime_eq]
      exact Nat.lt_irrefl _
    have hFold := foldl_access_of_late latency hPte (Or.inl hLate)
    have hZero : s.levelLatency table level = 0 := by
      have hAfter := hLater hTable
      rw [hTable, hArrived.levelLatency_eq,
        if_neg (by omega), if_neg (by omega)]
    have hDelay := hArrived.fetchDelay_eq
    simp only [visit]
    rw [hFold, hZero, addTime_of_lt (by rw [hTable]; omega),
      Nat.add_zero, Function.update_eq_self]
    exact hArrived
  · rcases foldl_access_frame s latency now hPte with ⟨a, hFold⟩
    have hNe : pte.1.tableLevel ≠ table := Ne.symm hTable
    simp only [visit]
    rw [hFold]
    have hKeep : Function.update s.fetchDelay table
          (addTime ((s.setLatency table level a).fetchDelay table)
            ((s.setLatency table level a).levelLatency table
              level)) pte.1.tableLevel =
        s.fetchDelay pte.1.tableLevel :=
      Function.update_of_ne hNe _ _
    constructor
    · exact hArrived.correctTable_eq
    · exact hKeep.trans hArrived.fetchDelay_eq
    · rw [fetchDelay_setLatency]
      exact hArrived.correctTime_eq.trans
        (congrArg (addTime now) hKeep.symm)
    · intro l
      exact (levelLatency_setLatency_of_ne
        (fun hEq => absurd hEq hNe)).trans
        (hArrived.levelLatency_eq l)

/- What holds before each visit holds after the loops. -/
theorem walk_induction
    (latency : Nat → Nat)
    (now : Nat)
    (reqs : List (PTWAccess × Nat))
    (levels tables : Nat)
    {P : Nat → Nat → PTWTiming → Prop}
    (hStart : P 0 0 start)
    (hVisit : ∀ level ≤ levels, ∀ table ≤ tables, ∀ s,
      P level table s →
        P level (table + 1) (visit latency now reqs level s table))
    (hNext : ∀ level s,
      P level (tables + 1) s → P (level + 1) 0 s) :
    P (levels + 1) 0 (walk latency now reqs levels tables) := by
  have hTables : ∀ level ≤ levels, ∀ s, P level 0 s →
      ∀ n ≤ tables + 1, P level n ((List.range n).foldl
        (visit latency now reqs level) s) := by
    intro level hLevel s hHere n
    induction n with
    | zero => exact fun _ => hHere
    | succ n ih =>
        intro hLe
        rw [List.range_succ, List.foldl_append]
        exact hVisit level hLevel n (by omega) _ (ih (by omega))
  have hLevels : ∀ n ≤ levels + 1, P n 0
      ((List.range n).foldl
        (fun s level => (List.range (tables + 1)).foldl
          (visit latency now reqs level) s) start) := by
    intro n
    induction n with
    | zero => exact fun _ => hStart
    | succ n ih =>
        intro hLe
        rw [List.range_succ (n := n), List.foldl_append]
        apply hNext
        exact hTables n (by omega) _ (ih (by omega)) _
          (Nat.le_refl _)
  exact hLevels _ (Nat.le_refl _)

theorem searching_start :
    Searching latency reqs tables 0 0 start where
  correctTable_eq := rfl
  correctLevel_eq := rfl
  correctTime_eq := rfl
  fetchDelay_eq := fun _ _ => rfl
  levelLatency_eq := fun _ _ _ => rfl

theorem searching_next
    (hSearch : Searching latency reqs tables level (tables + 1) s) :
    Searching latency reqs tables (level + 1) 0 s := by
  have hDone : ∀ t ≤ tables,
      done level (tables + 1) t = done (level + 1) 0 t := by
    intro t hLe
    rw [done, done, if_pos (by omega), if_neg (by omega)]
  refine ⟨hSearch.correctTable_eq, hSearch.correctLevel_eq,
    hSearch.correctTime_eq, ?_, ?_⟩
  · intro t hLe
    rw [← hDone t hLe]
    exact hSearch.fetchDelay_eq t hLe
  · intro t hLe l
    rw [← hDone t hLe]
    exact hSearch.levelLatency_eq t hLe l

theorem searching_walk
    (hPte : ∀ req ∈ reqs, req.1.isPte = false)
    (hFits : ∀ t ≤ tables, now +
      tableLatency latency reqs t (levels + 1) < maxTime) :
    Searching latency reqs tables (levels + 1) 0
      (walk latency now reqs levels tables) := by
  apply walk_induction latency now reqs levels tables
    searching_start
  · intro level hLevel table hTable s hSearch
    have hMono := tableLatency_mono latency reqs table
      (show level + 1 ≤ levels + 1 by omega)
    have hHere := hFits table hTable
    exact searching_visit hSearch hTable
      (fun req hMem _ => hPte req hMem) (by omega)
  · intro level s
    exact searching_next

theorem arrived_walk
    {front back : List (PTWAccess × Nat)}
    (hReqs : reqs = front ++ pte :: back)
    (hLevel : pte.1.depth ≤ levels)
    (hTable : pte.1.tableLevel ≤ tables)
    (hPte : pte.1.isPte = true)
    (hFront : ∀ req ∈ front, req.1.isPte = false)
    (hBack : ∀ req ∈ back, req.1.isPte = false)
    (hFits : ∀ t ≤ tables, now +
      tableLatency latency reqs t (levels + 1) < maxTime)
    (hFitsPte : now + (tableLatency latency reqs
      pte.1.tableLevel pte.1.depth + latency pte.2) < maxTime) :
    Arrived latency now reqs pte
      (walk latency now reqs levels tables) := by
  have hOther : ∀ level table,
      ¬ (level = pte.1.depth ∧ table = pte.1.tableLevel) →
      ∀ req ∈ reqs, ofLevel table level req = true →
        req.1.isPte = false := by
    intro level table hNe req hMem hOf
    rw [hReqs, List.mem_append, List.mem_cons] at hMem
    rcases hMem with hMem | hEq | hMem
    · exact hFront req hMem
    · have hBoth := of_decide_eq_true hOf
      rw [hEq] at hBoth
      exact absurd ⟨hBoth.1.symm, hBoth.2.symm⟩ hNe
    · exact hBack req hMem
  have hWalk := walk_induction latency now reqs levels tables
    (P := fun level table s =>
      if pte.1.depth < level ∨
          pte.1.depth = level ∧ pte.1.tableLevel < table then
        Arrived latency now reqs pte s
      else Searching latency reqs tables level table s)
    ?_ ?_ ?_
  · rw [if_pos (by omega)] at hWalk
    exact hWalk
  · rw [if_neg (by omega)]
    exact searching_start
  · intro level hLe table hLe' s hHere
    by_cases hPassed : pte.1.depth < level ∨
        pte.1.depth = level ∧ pte.1.tableLevel < table
    · rw [if_pos hPassed] at hHere
      rw [if_pos (by omega)]
      exact arrived_visit hHere
        (hOther level table (by omega)) (by omega) hFitsPte
    · rw [if_neg hPassed] at hHere
      by_cases hNow : level = pte.1.depth ∧ table = pte.1.tableLevel
      · rcases hNow with ⟨hEq, hEq'⟩
        subst hEq hEq'
        rw [if_pos (by omega)]
        exact arrived_visit_of_pte hReqs hHere hTable hPte
          hFront hBack hFitsPte
      · rw [if_neg (by omega)]
        have hMono := tableLatency_mono latency reqs table
          (show level + 1 ≤ levels + 1 by omega)
        have hFit := hFits table hLe'
        exact searching_visit hHere hLe'
          (hOther level table hNow) (by omega)
  · intro level s hHere
    by_cases hPassed : pte.1.depth < level ∨
        pte.1.depth = level ∧ pte.1.tableLevel < tables + 1
    · rw [if_pos hPassed] at hHere
      rw [if_pos (by omega)]
      exact hHere
    · rw [if_neg hPassed] at hHere
      rw [if_neg (by omega)]
      exact searching_next hHere

------------------------------------------------------------
-- Totals And Their Terms
------------------------------------------------------------

theorem foldl_addTime
    {total : Nat}
    {l : List Nat}
    (hFits : total + l.sum < maxTime) :
    l.foldl addTime total = total + l.sum := by
  induction l generalizing total with
  | nil => rfl
  | cons a l ih =>
      rw [List.sum_cons] at hFits ⊢
      rw [List.foldl_cons, addTime_of_lt (by omega),
        ih (by omega), Nat.add_assoc]

theorem addLevels_eq
    {sum : Nat}
    (hFits : sum +
      ((List.range (levels + 1)).map
        (s.levelLatency table)).sum < maxTime) :
    s.addLevels levels sum table =
      sum + ((List.range (levels + 1)).map
        (s.levelLatency table)).sum := by
  rw [addLevels, ← List.foldl_map, foldl_addTime hFits]

/- The levels behind the translation add nothing. -/
theorem sum_arrived
    (hArrived : Arrived latency now reqs pte s)
    (n : Nat) :
    ((List.range n).map (s.levelLatency pte.1.tableLevel)).sum =
      if n ≤ pte.1.depth then
        tableLatency latency reqs pte.1.tableLevel n
      else
        tableLatency latency reqs pte.1.tableLevel
          pte.1.depth + latency pte.2 := by
  induction n with
  | zero => rfl
  | succ n ih =>
      rw [List.range_succ, List.map_append, List.sum_append,
        ih, List.map_singleton, List.sum_singleton,
        hArrived.levelLatency_eq]
      by_cases hBefore : n < pte.1.depth
      · rw [if_pos (by omega), if_pos hBefore,
          if_pos (by omega), tableLatency_succ]
      · by_cases hHere : n = pte.1.depth
        · rw [hHere, if_pos (Nat.le_refl _),
            if_neg (Nat.lt_irrefl _), if_pos rfl,
            if_neg (by omega)]
        · rw [if_neg (by omega), if_neg hBefore,
            if_neg hHere, if_neg (by omega), Nat.add_zero]

theorem total_arrived
    (hArrived : Arrived latency now reqs pte s)
    (hLevel : pte.1.depth ≤ levels)
    (hFits : now + (tableLatency latency reqs
      pte.1.tableLevel pte.1.depth + latency pte.2) < maxTime) :
    s.total levels tables =
      tableLatency latency reqs pte.1.tableLevel
        pte.1.depth + latency pte.2 := by
  have hSum := sum_arrived hArrived (levels + 1)
  rw [if_neg (by omega)] at hSum
  rw [total, hArrived.correctTable_eq]
  simp only
  rw [addLevels_eq (by omega), hSum, Nat.zero_add]

/- All tables are added up. -/
theorem total_searching
    (hSearch : Searching latency reqs tables (levels + 1) 0 s)
    (hFits : ((List.range (tables + 1)).map (fun t =>
      tableLatency latency reqs t (levels + 1))).sum < maxTime) :
    s.total levels tables =
      ((List.range (tables + 1)).map (fun t =>
        tableLatency latency reqs t (levels + 1))).sum := by
  have hTable : ∀ t ≤ tables,
      ((List.range (levels + 1)).map (s.levelLatency t)).sum =
      tableLatency latency reqs t (levels + 1) := by
    intro t hLe
    rw [tableLatency]
    congr 1
    apply List.map_congr_left
    intro l hMem
    rw [hSearch.levelLatency_eq t hLe, done,
      if_neg (Nat.not_lt_zero t),
      if_pos (List.mem_range.mp hMem)]
  have hSums : ∀ n ≤ tables + 1,
      ((List.range n).map (fun t =>
        tableLatency latency reqs t (levels + 1))).sum < maxTime →
      ((List.range n).foldl
        (fun (sums : Nat × Nat) table =>
          (s.addLevels levels sums.1 table,
            max sums.2 (s.addLevels levels sums.1 table)))
        (0, 0)).1 =
      ((List.range n).map (fun t =>
        tableLatency latency reqs t (levels + 1))).sum := by
    intro n
    induction n with
    | zero => exact fun _ _ => rfl
    | succ n ih =>
        intro hLe hFit
        rw [List.range_succ, List.map_append,
          List.sum_append, List.map_singleton,
          List.sum_singleton] at hFit ⊢
        rw [List.foldl_append, List.foldl_cons, List.foldl_nil,
          ih (by omega) (by omega),
          addLevels_eq (by rw [hTable n (by omega)]; exact hFit),
          hTable n (by omega)]
  rw [total, hSearch.correctTable_eq]
  exact hSums _ (Nat.le_refl _) hFits

theorem le_max_of_mem
    {a : Nat}
    {l : List Nat}
    (hMem : a ∈ l) :
    a ≤ l.foldl max 0 := by
  rw [List.foldl_eq_foldr]
  induction l with
  | nil => cases hMem
  | cons b l ih =>
      rw [List.foldr_cons]
      rcases List.mem_cons.mp hMem with hEq | hRest
      · rw [hEq]
        exact Nat.le_max_left _ _
      · exact (ih hRest).trans (Nat.le_max_right _ _)

theorem max_eq_zero_iff
    {l : List Nat} :
    l.foldl max 0 = 0 ↔ ∀ a ∈ l, a = 0 := by
  constructor
  · intro hZero a hMem
    have hLe := le_max_of_mem hMem
    omega
  · intro hAll
    rw [List.foldl_eq_foldr]
    induction l with
    | nil => rfl
    | cons b l ih =>
        rw [List.foldr_cons, hAll b (by simp),
          ih (fun a hMem => hAll a (by simp [hMem]))]
        rfl

/- A sum is its largest term if the others are zero. -/
theorem sum_eq_max_iff
    (l : List Nat) :
    l.sum = l.foldl max 0 ↔
      l.Pairwise (fun a b => a = 0 ∨ b = 0) := by
  have hLe : ∀ l : List Nat, l.foldr max 0 ≤ l.sum := by
    intro l
    induction l with
    | nil => exact Nat.le_refl _
    | cons a l ih =>
        rw [List.foldr_cons, List.sum_cons]
        omega
  rw [List.foldl_eq_foldr]
  induction l with
  | nil => simp
  | cons a l ih =>
      rw [List.sum_cons, List.foldr_cons, List.pairwise_cons]
      have hRest := hLe l
      refine Iff.trans ?_ (and_congr_right fun _ => ih)
      by_cases hZero : a = 0
      · simp [hZero]
      · constructor
        · intro hEq
          have hSum : l.sum = 0 := by omega
          refine ⟨?_, by omega⟩
          intro b hMem
          exact Or.inr
            (List.sum_eq_zero_iff_forall_eq_nat.mp hSum b hMem)
        · rintro ⟨hAll, hEq⟩
          have hSum : l.sum = 0 :=
            List.sum_eq_zero_iff_forall_eq_nat.mpr
              (fun b hMem => (hAll b hMem).resolve_left hZero)
          omega

/- A table takes no time if its accesses take none. -/
theorem tableLatency_eq_zero_iff
    {t : Nat}
    (hDepth : ∀ req ∈ reqs, req.1.depth ≤ levels) :
    tableLatency latency reqs t (levels + 1) = 0 ↔
      ∀ req ∈ reqs, req.1.tableLevel = t → latency req.2 = 0 := by
  rw [tableLatency, List.sum_eq_zero_iff_forall_eq_nat]
  constructor
  · intro hAll req hMem hTable
    have hLevel := hAll _ (List.mem_map.mpr
      ⟨req.1.depth,
        List.mem_range.mpr
          (Nat.lt_succ_of_le (hDepth req hMem)), rfl⟩)
    rw [slowest, max_eq_zero_iff] at hLevel
    apply hLevel
    apply List.mem_map.mpr
    refine ⟨req, List.mem_filter.mpr ⟨hMem, ?_⟩, rfl⟩
    exact decide_eq_true ⟨rfl, hTable⟩
  · intro hAll a hMem
    rcases List.mem_map.mp hMem with ⟨l, -, hEq⟩
    rw [← hEq, slowest, max_eq_zero_iff]
    intro b hMem'
    rcases List.mem_map.mp hMem' with ⟨req, hFilter, hEq'⟩
    rcases List.mem_filter.mp hFilter with ⟨hReq, hOf⟩
    rw [← hEq']
    exact hAll req hReq (of_decide_eq_true hOf).2

/- The accesses of only one table take time. -/
def OneTable
    (latency : Nat → Nat)
    (accesses : List PTWAccess) : Prop :=
  ∀ req ∈ accesses.zipIdx, ∀ req' ∈ accesses.zipIdx,
    req.1.tableLevel ≠ req'.1.tableLevel →
      latency req.2 = 0 ∨ latency req'.2 = 0

instance
    (latency : Nat → Nat)
    (accesses : List PTWAccess) :
    Decidable (OneTable latency accesses) :=
  inferInstanceAs (Decidable (∀ req ∈ _, ∀ req' ∈ _, _ → _))

/- No time and no sum of the walk wraps around. -/
def Fits
    (latency : Nat → Nat)
    (now : Nat)
    (accesses : List PTWAccess) : Prop :=
  now + ((List.range (maxTable accesses + 1)).map (fun t =>
    tableLatency latency accesses.zipIdx t
      (maxDepth accesses + 1))).sum < maxTime

instance
    (latency : Nat → Nat)
    (now : Nat)
    (accesses : List PTWAccess) :
    Decidable (Fits latency now accesses) :=
  inferInstanceAs (Decidable (_ < maxTime))

theorem depth_le_maxDepth
    {accesses : List PTWAccess}
    (hMem : req ∈ accesses.zipIdx) :
    req.1.depth ≤ maxDepth accesses :=
  le_max_of_mem (List.mem_map_of_mem
    (List.fst_mem_of_mem_zipIdx hMem))

theorem tableLevel_le_maxTable
    {accesses : List PTWAccess}
    (hMem : req ∈ accesses.zipIdx) :
    req.1.tableLevel ≤ maxTable accesses :=
  le_max_of_mem (List.mem_map_of_mem
    (List.fst_mem_of_mem_zipIdx hMem))

/- Each table fits. -/
theorem Fits.of_table
    {accesses : List PTWAccess}
    (hFits : Fits latency now accesses)
    (t : Nat)
    (hLe : t ≤ maxTable accesses) :
    now + tableLatency latency accesses.zipIdx t
      (maxDepth accesses + 1) < maxTime := by
  have hTerm : tableLatency latency accesses.zipIdx t
        (maxDepth accesses + 1) ≤
      ((List.range (maxTable accesses + 1)).map (fun t =>
        tableLatency latency accesses.zipIdx t
          (maxDepth accesses + 1))).sum :=
    List.le_sum_of_mem (List.mem_map.mpr
      ⟨t, List.mem_range.mpr (Nat.lt_succ_of_le hLe), rfl⟩)
  unfold Fits at hFits
  omega

/- The translation is among the slowest of its level. -/
theorem latency_le_slowest
    (latency : Nat → Nat)
    (hMem : req ∈ reqs) :
    latency req.2 ≤ slowest latency reqs req.1.tableLevel
      req.1.depth :=
  le_max_of_mem (List.mem_map_of_mem (List.mem_filter.mpr
    ⟨hMem, decide_eq_true ⟨rfl, rfl⟩⟩))

/- The only access that is marked. -/
theorem find?_marked
    {accesses : List PTWAccess}
    (hOne : accesses.countP PTWAccess.isPte ≤ 1)
    (hFind : accesses.zipIdx.find? (fun req => req.1.isPte) =
      some pte) :
    ∃ front back,
      accesses.zipIdx = front ++ pte :: back ∧
      pte.1.isPte = true ∧
      (∀ req ∈ front, req.1.isPte = false) ∧
      ∀ req ∈ back, req.1.isPte = false := by
  rcases List.find?_eq_some_iff_append.mp hFind with
    ⟨hPte, front, back, hReqs, hFront⟩
  refine ⟨front, back, hReqs, hPte, ?_, ?_⟩
  · intro req hMem
    simpa using hFront req hMem
  · have hCount : (accesses.zipIdx.map Prod.fst).countP
        PTWAccess.isPte ≤ 1 := by
      rw [List.zipIdx_map_fst]
      exact hOne
    rw [hReqs, List.countP_map, List.countP_append,
      List.countP_cons_of_pos (by simpa using hPte)] at hCount
    intro req hMem
    by_contra hMarked
    have hPos := List.countP_pos_iff.mpr
      ⟨req, hMem, show (PTWAccess.isPte ∘ Prod.fst) req =
        true by simpa using hMarked⟩
    omega

/- The tables but one take no time. -/
theorem pairwise_iff_oneTable
    {accesses : List PTWAccess} :
    (List.range (maxTable accesses + 1)).Pairwise
        (fun t t' =>
          tableLatency latency accesses.zipIdx t
              (maxDepth accesses + 1) = 0 ∨
            tableLatency latency accesses.zipIdx t'
              (maxDepth accesses + 1) = 0) ↔
      OneTable latency accesses := by
  have hZero : ∀ t, tableLatency latency accesses.zipIdx t
        (maxDepth accesses + 1) = 0 ↔
      ∀ req ∈ accesses.zipIdx, req.1.tableLevel = t →
        latency req.2 = 0 :=
    fun t => tableLatency_eq_zero_iff
      (fun _ hMem => depth_le_maxDepth hMem)
  constructor
  · intro hPairwise req hMem req' hMem' hNe
    have : Std.Symm (fun t t' =>
        tableLatency latency accesses.zipIdx t
            (maxDepth accesses + 1) = 0 ∨
          tableLatency latency accesses.zipIdx t'
            (maxDepth accesses + 1) = 0) :=
      ⟨fun _ _ => Or.symm⟩
    have hBoth := hPairwise.forall
      (List.mem_range.mpr (Nat.lt_succ_of_le
        (tableLevel_le_maxTable hMem)))
      (List.mem_range.mpr (Nat.lt_succ_of_le
        (tableLevel_le_maxTable hMem'))) hNe
    rw [hZero, hZero] at hBoth
    rcases hBoth with hFirst | hSecond
    · exact Or.inl (hFirst req hMem rfl)
    · exact Or.inr (hSecond req' hMem' rfl)
  · intro hOne
    apply List.nodup_range.pairwise_of_forall_ne
    intro t _ t' _ hNe
    rw [hZero, hZero]
    by_contra hBoth
    push Not at hBoth
    rcases hBoth with
      ⟨⟨req, hMem, hTable, hSlow⟩, req', hMem', hTable', hSlow'⟩
    have hApart : req.1.tableLevel ≠ req'.1.tableLevel := by
      rw [hTable, hTable']
      exact hNe
    rcases hOne req hMem req' hMem' hApart with hFast | hFast
    · exact hSlow hFast
    · exact hSlow' hFast

/-
  The latency of a walk is as documented exactly when the
  translation is found or only one table takes time.
-/
theorem calculatePTWCycles_eq_iff
    (latency : Nat → Nat)
    (now : Nat)
    (result : PTWResult)
    (hOne : result.accesses.countP PTWAccess.isPte ≤ 1)
    (hFits : Fits latency now result.accesses) :
    calculatePTWCycles latency now result =
        expected latency result ↔
      (∃ access ∈ result.accesses, access.isPte = true) ∨
        OneTable latency result.accesses := by
  rw [calculatePTWCycles, expected]
  cases hFind : result.accesses.zipIdx.find?
      (fun req => req.1.isPte) with
  | some pte =>
      rcases find?_marked hOne hFind with
        ⟨front, back, hReqs, hPte, hFront, hBack⟩
      have hMem : pte ∈ result.accesses.zipIdx := by
        rw [hReqs]
        simp
      have hLevel := depth_le_maxDepth hMem
      have hTable := tableLevel_le_maxTable hMem
      have hFitsPte : now + (tableLatency latency
          result.accesses.zipIdx pte.1.tableLevel
          pte.1.depth + latency pte.2) < maxTime := by
        have hSlowest := latency_le_slowest latency hMem
        have hSucc := tableLatency_succ latency
          result.accesses.zipIdx pte.1.tableLevel pte.1.depth
        have hMono := tableLatency_mono latency
          result.accesses.zipIdx pte.1.tableLevel
          (Nat.succ_le_succ hLevel)
        have hHere := hFits.of_table _ hTable
        simp only [Nat.succ_eq_add_one] at hMono
        omega
      have hArrived := arrived_walk hReqs hLevel hTable hPte
        hFront hBack hFits.of_table hFitsPte
      have hMarked := List.fst_mem_of_mem_zipIdx hMem
      exact ⟨fun _ => Or.inl ⟨_, hMarked, hPte⟩,
        fun _ => total_arrived hArrived hLevel hFitsPte⟩
  | none =>
      have hNone : ∀ req ∈ result.accesses.zipIdx,
          req.1.isPte = false := by
        simpa using List.find?_eq_none.mp hFind
      have hSearch := searching_walk hNone hFits.of_table
      have hSum : ((List.range (maxTable result.accesses +
          1)).map (fun t => tableLatency latency
            result.accesses.zipIdx t
              (maxDepth result.accesses + 1))).sum <
          maxTime := by
        unfold Fits at hFits
        omega
      simp only
      rw [total_searching hSearch hSum, sum_eq_max_iff,
        List.pairwise_map, pairwise_iff_oneTable]
      constructor
      · exact Or.inr
      · rintro (⟨access, hMem, hPte⟩ | hOneTable)
        · rcases List.getElem?_of_mem hMem with ⟨i, hGet⟩
          have hReq : (access, i) ∈ result.accesses.zipIdx :=
            List.mem_zipIdx_iff_getElem?.mpr hGet
          rw [hNone _ hReq] at hPte
          cases hPte
        · exact hOneTable

/- A found walk of two tables, with one parallel access. -/
theorem calculatePTWCycles_found :
    calculatePTWCycles (fun i => [10, 20, 5, 40].getD i 0) 1000
        ⟨some (7, 12),
          [⟨0, 0, 0x1000, false⟩, ⟨0, 0, 0x2000, false⟩,
            ⟨0, 1, 0x3000, true⟩, ⟨1, 0, 0x4000, false⟩],
          false, 0⟩ =
      expected (fun i => [10, 20, 5, 40].getD i 0)
        ⟨some (7, 12),
          [⟨0, 0, 0x1000, false⟩, ⟨0, 0, 0x2000, false⟩,
            ⟨0, 1, 0x3000, true⟩, ⟨1, 0, 0x4000, false⟩],
          false, 0⟩ :=
  (calculatePTWCycles_eq_iff _ _ _ (by decide)
    (by decide)).mpr (Or.inl (by decide))

/-
  A faulting walk of two tables takes the sum of both instead
  of the slower one.
-/
theorem calculatePTWCycles_fault :
    calculatePTWCycles (fun i => [10, 40].getD i 0) 1000
        ⟨none,
          [⟨0, 0, 0x1000, false⟩, ⟨1, 0, 0x2000, false⟩],
          true, 1⟩ = 50 ∧
      expected (fun i => [10, 40].getD i 0)
        ⟨none,
          [⟨0, 0, 0x1000, false⟩, ⟨1, 0, 0x2000, false⟩],
          true, 1⟩ = 40 := by
  decide +kernel

end PTWTiming

end Virtuoso
