import Mathlib.Tactic.Linarith
import Mathlib.Tactic.Ring
import Virtuoso.Lib.Run
import Virtuoso.Utopia.CostTopK

/-
  Runs of the cost-based migration policy.

  The table keeps the score and the index of its minimum
  beside its entries. Every change of the table recomputes
  them, but for the new score of a page after its migration.
  In a run that offers no new page to a full table while the
  minimum is out of date, a new page replaces an entry with
  the least score, and is refused only if its score is not
  above that. The pages of the table stay distinct and the
  credits bound the migrations in any run.

  Main declarations:
    * `Utopia.CostTopKState.tableMin`
    * `Utopia.CostTopKState.topK_run`
-/

------------------------------------------------------------
-- Replacements In A Table
------------------------------------------------------------

namespace Virtuoso

namespace Utopia

namespace CostTopKState

/- The score and the index that `recomputeTopKMin` sets. -/
def tableMin
    (table : List CostTopKEntry) :
    Nat × Option Nat :=
  let best := table.zipIdx.foldl minStep (2 ^ 16 - 1, none)
  (if best.2.isNone then 0 else best.1, best.2)

/- The kept minimum is that of the table. -/
def Fresh (s : CostTopKState) : Prop :=
  (s.topkMinScore, s.topkMinIdx) = tableMin s.topkTable

instance (s : CostTopKState) : Decidable s.Fresh :=
  inferInstanceAs (Decidable (_ = _))

/- What the loop over the slots finds. -/
theorem foldl_minStep
    (slots : List (CostTopKEntry × Nat))
    (best : Nat × Option Nat) :
    let found := slots.foldl minStep best
    (found = best ∨ ∃ slot ∈ slots, slot.1.valid = true ∧
      found = (slot.1.scoreSnapshot, some slot.2)) ∧
      found.1 ≤ best.1 ∧
      ∀ slot ∈ slots, slot.1.valid = true →
        found.1 ≤ slot.1.scoreSnapshot := by
  induction slots generalizing best with
  | nil => simp
  | cons slot slots ih =>
      intro found
      rcases ih (minStep best slot) with
        ⟨hFound, hBest, hSlots⟩
      change found = _ ∨ _ at hFound
      change found.1 ≤ _ at hBest
      have hStep : (minStep best slot).1 ≤ best.1 ∧
          (slot.1.valid = true →
            (minStep best slot).1 ≤ slot.1.scoreSnapshot) ∧
          (minStep best slot = best ∨ slot.1.valid = true ∧
            minStep best slot =
              (slot.1.scoreSnapshot, some slot.2)) := by
        unfold minStep
        split
        · rename_i hLess
          exact ⟨hLess.2.le, fun _ => Nat.le_refl _,
            Or.inr ⟨hLess.1, rfl⟩⟩
        · rename_i hNot
          refine ⟨Nat.le_refl _, ?_, Or.inl rfl⟩
          intro hValid
          exact not_lt.mp (fun hLess => hNot ⟨hValid, hLess⟩)
      refine ⟨?_, hBest.trans hStep.1, ?_⟩
      · rcases hFound with hSame | ⟨other, hMem, hRest⟩
        · rcases hStep.2.2 with hKept | ⟨hValid, hTaken⟩
          · exact Or.inl (hSame.trans hKept)
          · exact Or.inr ⟨slot, by simp, hValid, hSame.trans hTaken⟩
        · exact Or.inr ⟨other, List.mem_cons_of_mem _ hMem, hRest⟩
      · intro other hMem hValid
        rcases List.mem_cons.mp hMem with hHead | hTail
        · subst hHead
          exact hBest.trans (hStep.2.1 hValid)
        · exact hSlots other hTail hValid

/- Without an index every score is the largest one. -/
theorem le_of_tableMin_none
    {table : List CostTopKEntry}
    {score : Nat}
    (hMin : tableMin table = (score, none)) :
    ∀ e ∈ table, e.valid = true → 2 ^ 16 - 1 ≤ e.scoreSnapshot := by
  intro e hMem hValid
  rcases foldl_minStep table.zipIdx (2 ^ 16 - 1, none) with
    ⟨hFound, -, hSlots⟩
  have hIdx := congrArg Prod.snd hMin
  change (table.zipIdx.foldl minStep
    (2 ^ 16 - 1, none)).2 = none at hIdx
  rcases List.mem_iff_getElem?.mp hMem with ⟨i, hGet⟩
  have hSlot : (e, i) ∈ table.zipIdx :=
    List.mem_zipIdx_iff_getElem?.mpr hGet
  rcases hFound with hSame | ⟨slot, -, -, hTaken⟩
  · have hLe := hSlots (e, i) hSlot hValid
    rw [hSame] at hLe
    exact hLe
  · rw [hTaken] at hIdx
    cases hIdx

/- The index is that of a valid entry with the least score. -/
theorem exists_of_tableMin_some
    {table : List CostTopKEntry}
    {score i : Nat}
    (hMin : tableMin table = (score, some i)) :
    ∃ e, table[i]? = some e ∧ e.valid = true ∧
      e.scoreSnapshot = score ∧
      ∀ o ∈ table, o.valid = true → score ≤ o.scoreSnapshot := by
  rcases foldl_minStep table.zipIdx (2 ^ 16 - 1, none) with
    ⟨hFound, -, hSlots⟩
  have hIdx := congrArg Prod.snd hMin
  have hScore := congrArg Prod.fst hMin
  change (table.zipIdx.foldl minStep
    (2 ^ 16 - 1, none)).2 = some i at hIdx
  simp only [tableMin, hIdx, Option.isNone_some,
    Bool.false_eq_true, if_false] at hScore
  rcases hFound with hSame | ⟨slot, hMem, hValid, hTaken⟩
  · rw [hSame] at hIdx
    cases hIdx
  · rw [hTaken, Option.some.injEq] at hIdx
    rw [hTaken] at hScore
    have hGet := List.mem_zipIdx_iff_getElem?.mp hMem
    rw [hIdx] at hGet
    refine ⟨slot.1, hGet, hValid, hScore, ?_⟩
    intro o hOther hOtherValid
    rcases List.mem_iff_getElem?.mp hOther with ⟨j, hAt⟩
    have hLe := hSlots (o, j)
      (List.mem_zipIdx_iff_getElem?.mpr hAt) hOtherValid
    rw [hTaken] at hLe
    rw [← hScore]
    exact hLe

/- A new page is offered to a table without a free slot. -/
def Contends
    (config : CostTopKConfig)
    (s : CostTopKState)
    (vpn : Nat) : Prop :=
  config.enabled = true ∧ s.findEntry vpn = none ∧
    ∀ e ∈ s.topkTable, e.valid = true

instance
    (config : CostTopKConfig)
    (s : CostTopKState)
    (vpn : Nat) :
    Decidable (Contends config s vpn) :=
  inferInstanceAs (Decidable (_ ∧ _ ∧ _))

/-
  The page takes the slot of an entry with the least score,
  or its score is not above any score.
-/
def Replaces
    (table table' : List CostTopKEntry)
    (vpn score : Nat) : Prop :=
  (table' = table ∧ ∀ e ∈ table, score ≤ e.scoreSnapshot) ∨
    ∃ i e, table[i]? = some e ∧
      table' = table.set i ⟨true, vpn, score, 1, 0⟩ ∧
      ∀ o ∈ table, e.scoreSnapshot ≤ o.scoreSnapshot

variable {s : CostTopKState}

/- With a fresh minimum the replaced entry is a least one. -/
theorem replaces_of_fresh
    {config : CostTopKConfig}
    {vpn score : Nat}
    (hContends : Contends config s vpn)
    (hFresh : s.Fresh)
    (hScore : score < 2 ^ 16) :
    Replaces s.topkTable
      (s.updateCostTopK config vpn score).topkTable
      vpn score := by
  rcases hContends with ⟨hEnabled, hNew, hFull⟩
  have hNone : s.topkTable.findIdx? (fun e => !e.valid) = none := by
    rw [List.findIdx?_eq_none_iff]
    intro e hMem
    simp [hFull e hMem]
  unfold Fresh at hFresh
  cases hIdx : s.topkMinIdx with
  | none =>
      left
      rw [hIdx] at hFresh
      have hLarge := le_of_tableMin_none hFresh.symm
      refine ⟨?_, ?_⟩
      · simp only [updateCostTopK, hEnabled, if_true, hNew,
          hNone, hIdx]
      · intro e hMem
        have hLe := hLarge e hMem (hFull e hMem)
        omega
  | some i =>
      rw [hIdx] at hFresh
      rcases exists_of_tableMin_some hFresh.symm with
        ⟨e, hGet, -, hLeast, hAll⟩
      by_cases hAbove : s.topkMinScore < score
      · right
        refine ⟨i, e, hGet, ?_, ?_⟩
        · simp only [updateCostTopK, hEnabled, if_true, hNew,
            hNone, hIdx, if_pos hAbove]
          rfl
        · intro o hMem
          rw [hLeast]
          exact hAll o hMem (hFull o hMem)
      · left
        refine ⟨?_, ?_⟩
        · simp only [updateCostTopK, hEnabled, if_true, hNew,
            hNone, hIdx, if_neg hAbove]
        · intro o hMem
          have hLe := hAll o hMem (hFull o hMem)
          omega

/- The valid entries have pairwise distinct pages. -/
def Distinct (table : List CostTopKEntry) : Prop :=
  ∀ (i j : Nat) (e e' : CostTopKEntry),
    table[i]? = some e → table[j]? = some e' →
      e.valid = true → e'.valid = true → e.vpn = e'.vpn → i = j

section Distinct

variable {table table' : List CostTopKEntry}

/- Entries that keep their pages stay distinct. -/
theorem Distinct.of_keys
    (hDistinct : Distinct table)
    (hKeys : ∀ (i : Nat) (e' : CostTopKEntry),
      table'[i]? = some e' →
        ∃ e : CostTopKEntry, table[i]? = some e ∧
          e.valid = e'.valid ∧ e.vpn = e'.vpn) :
    Distinct table' := by
  intro i j e e' hAt hAt' hValid hValid' hSame
  rcases hKeys i e hAt with ⟨old, hOld, hFlag, hVpn⟩
  rcases hKeys j e' hAt' with ⟨old', hOld', hFlag', hVpn'⟩
  exact hDistinct i j old old' hOld hOld' (hFlag.trans hValid)
    (hFlag'.trans hValid') (hVpn.trans (hSame.trans hVpn'.symm))

theorem Distinct.modify
    (hDistinct : Distinct table)
    (i : Nat)
    {f : CostTopKEntry → CostTopKEntry}
    (hKey : ∀ e, (f e).valid = e.valid ∧ (f e).vpn = e.vpn) :
    Distinct (table.modify i f) := by
  apply hDistinct.of_keys
  intro j e' hAt
  rw [List.getElem?_modify] at hAt
  rcases Option.map_eq_some_iff.mp hAt with ⟨e, hGet, hEq⟩
  refine ⟨e, hGet, ?_⟩
  rw [← hEq]
  split
  · exact ⟨(hKey e).1.symm, (hKey e).2.symm⟩
  · exact ⟨rfl, rfl⟩

theorem Distinct.map
    (hDistinct : Distinct table)
    {f : CostTopKEntry → CostTopKEntry}
    (hKey : ∀ e, (f e).valid = e.valid ∧ (f e).vpn = e.vpn) :
    Distinct (table.map f) := by
  apply hDistinct.of_keys
  intro j e' hAt
  rw [List.getElem?_map] at hAt
  rcases Option.map_eq_some_iff.mp hAt with ⟨e, hGet, hEq⟩
  refine ⟨e, hGet, ?_⟩
  rw [← hEq]
  exact ⟨(hKey e).1.symm, (hKey e).2.symm⟩

/- A page that no entry has may take any slot. -/
theorem Distinct.set
    (hDistinct : Distinct table)
    {new : CostTopKEntry}
    (hNew : ∀ e ∈ table, e.valid = true → e.vpn ≠ new.vpn)
    (k : Nat) :
    Distinct (table.set k new) := by
  have hOther : ∀ {i : Nat} {e : CostTopKEntry},
      (table.set k new)[i]? = some e → i ≠ k →
        table[i]? = some e := by
    intro i e hAt hNe
    rwa [List.getElem?_set_ne (Ne.symm hNe)] at hAt
  have hAtNew : ∀ {i : Nat} {e : CostTopKEntry},
      (table.set k new)[i]? = some e → i = k → e = new := by
    intro i e hAt hEq
    subst hEq
    rw [List.getElem?_set_self'] at hAt
    rcases Option.map_eq_some_iff.mp hAt with
      ⟨old, hOld, hIs⟩
    exact hIs.symm
  intro i j e e' hAt hAt' hValid hValid' hSame
  by_cases hHere : i = k
  · by_cases hHere' : j = k
    · exact hHere.trans hHere'.symm
    · have hMem := List.mem_of_getElem? (hOther hAt' hHere')
      rw [hAtNew hAt hHere] at hSame
      exact absurd hSame.symm (hNew e' hMem hValid')
  · have hMem := List.mem_of_getElem? (hOther hAt hHere)
    by_cases hHere' : j = k
    · rw [hAtNew hAt' hHere'] at hSame
      exact absurd hSame (hNew e hMem hValid)
    · exact hDistinct i j e e' (hOther hAt hHere)
        (hOther hAt' hHere') hValid hValid' hSame

end Distinct

/- A page that is not found is the page of no valid entry. -/
theorem vpn_ne_of_findEntry
    {vpn : Nat}
    (hNew : s.findEntry vpn = none) :
    ∀ e ∈ s.topkTable, e.valid = true → e.vpn ≠ vpn := by
  unfold findEntry at hNew
  rw [List.findIdx?_eq_none_iff] at hNew
  intro e hMem hValid hEq
  have hTest := hNew e hMem
  simp [hValid, hEq] at hTest

/- An update keeps the pages distinct. -/
theorem distinct_updateCostTopK
    {config : CostTopKConfig}
    (hDistinct : Distinct s.topkTable)
    (vpn score : Nat) :
    Distinct (s.updateCostTopK config vpn score).topkTable := by
  unfold updateCostTopK
  split
  · cases hFind : s.findEntry vpn with
    | some i =>
        exact hDistinct.modify i (fun _ => ⟨rfl, rfl⟩)
    | none =>
        have hNew := vpn_ne_of_findEntry hFind
        cases s.topkTable.findIdx? (fun e => !e.valid) with
        | some i => exact hDistinct.set hNew i
        | none =>
            cases s.topkMinIdx with
            | none => exact hDistinct
            | some i =>
                simp only
                split
                · exact hDistinct.set hNew i
                · exact hDistinct
  · exact hDistinct

------------------------------------------------------------
-- Runs
------------------------------------------------------------

/-
  `considerCostBasedMigration`. The migration of the page by
  the allocator returns `newPpn`, which is 0 on a failure.
-/
def considerCostBasedMigration
    (config : CostTopKConfig)
    (s : CostTopKState)
    (pageSizeBits vpn newPpn : Nat) :
    Bool × CostTopKState :=
  match eligible config s pageSizeBits vpn with
  | none => (false, s)
  | some i =>
      if newPpn = 0 then
        (false, s)
      else
        (true, noteMigration config s i vpn newPpn)

/- A call. -/
inductive CostOp
  | bumpCostScore (vpn inc : Nat)
  | updateCostTopK (vpn score : Nat)
  | processEpochs
  | considerCostBasedMigration
      (pageSizeBits vpn newPpn : Nat)
deriving DecidableEq

/- The policy and the number of migrations that it issued. -/
structure Ranking where
  state : CostTopKState
  issued : Nat

/- Perform a call. -/
def perform
    (config : CostTopKConfig)
    (r : Ranking) :
    CostOp → Option Ranking
| .bumpCostScore vpn inc =>
    some { r with state := bumpCostScore config r.state vpn inc }
| .updateCostTopK vpn score =>
    some
      { r with state := updateCostTopK config r.state vpn score }
| .processEpochs =>
    some { r with state := processEpochs config r.state }
| .considerCostBasedMigration pageSizeBits vpn newPpn =>
    let outcome := considerCostBasedMigration config r.state
      pageSizeBits vpn newPpn
    some
      { state := outcome.2
        issued :=
          if outcome.1 then r.issued + 1 else r.issued }

/- The policy before the first call. -/
def start (config : CostTopKConfig) : Ranking :=
  ⟨construct config, 0⟩

/- Scores are 16-bit numbers. -/
def CostOp.Typed :
    CostOp → Prop
| .updateCostTopK _ score => score < 2 ^ 16
| _ => True

/-
  No new page is offered to a full table while the kept
  minimum is out of date.
-/
def ReadsFresh
    (config : CostTopKConfig)
    (r : Ranking) :
    CostOp → Prop
| .updateCostTopK vpn _ =>
    Contends config r.state vpn → r.state.Fresh
| _ => True

instance
    (config : CostTopKConfig)
    (r : Ranking)
    (op : CostOp) :
    Decidable (ReadsFresh config r op) :=
  match op with
  | .updateCostTopK vpn _ =>
      inferInstanceAs (Decidable
        (Contends config r.state vpn → r.state.Fresh))
  | .bumpCostScore _ _ => isTrue trivial
  | .processEpochs => isTrue trivial
  | .considerCostBasedMigration _ _ _ => isTrue trivial

/- A contending update replaces a least entry or is refused. -/
def KeepsLargest
    (config : CostTopKConfig)
    (r : Ranking) :
    CostOp → Prop
| .updateCostTopK vpn score =>
    Contends config r.state vpn →
      Replaces r.state.topkTable
        (updateCostTopK config r.state vpn score).topkTable
        vpn score
| _ => True

/-
  The invariant: with `refills` credit epochs so far, the
  credits that were spent are those that were given less
  those that are left, or fewer.
-/
structure Books
    (config : CostTopKConfig)
    (r : Ranking) : Prop where
  distinct : Distinct r.state.topkTable
  low : 0 ≤ r.state.credits
  high : r.state.credits ≤ config.creditsMax
  epochs : ∃ refills : Nat,
    r.state.translationCounter =
        refills * config.creditEpochTranslations +
          r.state.creditEpochCounter ∧
      r.state.creditEpochCounter < config.creditEpochTranslations ∧
      (r.issued : Int) + r.state.credits ≤
        config.creditsMax + config.creditsRefill * refills

/-
  A configuration in which credits can be counted, with sums
  that an `int` holds, and with shifts that are defined.
-/
structure CountsCredits
    (config : CostTopKConfig) : Prop where
  max : 0 ≤ config.creditsMax
  refill : 0 ≤ config.creditsRefill
  epoch : 0 < config.creditEpochTranslations
  sum : config.creditsMax + config.creditsRefill < 2 ^ 31
  score : config.scoreBits < 31
  shift : config.postMigrateScoreShift < 32

section Runs

variable {config : CostTopKConfig} {r r' : Ranking}

theorem books_start
    (hConfig : CountsCredits config) :
    Books config (start config) := by
  refine ⟨?_, hConfig.max, le_refl _, 0, ?_, hConfig.epoch, ?_⟩
  · intro i j e e' hAt _ hValid
    have hMem := List.mem_of_getElem? hAt
    have hEq := List.eq_of_mem_replicate hMem
    rw [hEq] at hValid
    cases hValid
  · simp [start, construct]
  · simp [start, construct]

/- The epochs of a translation keep the books. -/
theorem books_processEpochs
    (hConfig : CountsCredits config)
    (hBooks : Books config r) :
    Books config
      { r with state := processEpochs config r.state } := by
  rcases hBooks with
    ⟨hDistinct, hLow, hHigh, refills, hCount, hLess, hSpent⟩
  unfold processEpochs
  split
  · have hRank : ∀ s : CostTopKState,
        Distinct s.topkTable →
          Distinct (processRankEpoch config s).topkTable ∧
            (processRankEpoch config s).credits = s.credits ∧
            (processRankEpoch config s).translationCounter =
              s.translationCounter ∧
            (processRankEpoch config s).creditEpochCounter =
              s.creditEpochCounter := by
      intro s hTable
      unfold processRankEpoch
      split
      · refine ⟨hTable.map ?_, rfl, rfl, rfl⟩
        intro e
        unfold decay
        split
        · exact ⟨rfl, rfl⟩
        · exact ⟨rfl, rfl⟩
      · exact ⟨hTable, rfl, rfl, rfl⟩
    rcases hRank
        { r.state with
          translationCounter := r.state.translationCounter + 1
          rankEpochCounter := r.state.rankEpochCounter + 1
          creditEpochCounter :=
            r.state.creditEpochCounter + 1 }
        hDistinct with ⟨hTable, hCredits, hTotal, hEpoch⟩
    simp only at hCredits hTotal hEpoch
    generalize processRankEpoch config _ = ranked
      at hTable hCredits hTotal hEpoch ⊢
    unfold processCreditEpoch
    split
    · rename_i hFull
      have hRefill := hConfig.refill
      have hMax := hConfig.max
      have hTurn : r.state.creditEpochCounter + 1 =
          config.creditEpochTranslations := by
        omega
      refine ⟨hTable, ?_, min_le_right _ _, refills + 1, ?_,
        hConfig.epoch, ?_⟩
      · simp only [hCredits]
        omega
      · simp only [hTotal, hCount]
        rw [Nat.add_assoc, hTurn, Nat.succ_mul, Nat.add_zero]
      · have hGiven : config.creditsRefill *
            ((refills + 1 : Nat) : Int) =
              config.creditsRefill * refills +
                config.creditsRefill := by
          push_cast
          ring
        simp only [hGiven, hCredits]
        omega
    · rename_i hMore
      refine ⟨hTable, ?_, ?_, refills, ?_, ?_, ?_⟩
      · rw [hCredits]
        exact hLow
      · rw [hCredits]
        exact hHigh
      · simp only [hTotal, hCount, hEpoch]
        omega
      · simp only [hEpoch] at hMore ⊢
        omega
      · simp only [hCredits]
        exact hSpent
  · exact ⟨hDistinct, hLow, hHigh, refills, hCount, hLess, hSpent⟩

/- A migration needs a credit. -/
theorem credits_pos_of_eligible
    {pageSizeBits vpn i : Nat}
    (hEligible : eligible config s pageSizeBits vpn = some i) :
    0 < s.credits := by
  unfold eligible at hEligible
  split at hEligible
  · split at hEligible
    · cases hEligible
    · split at hEligible
      · cases hEligible
      · split at hEligible
        · rename_i hChecks
          exact hChecks.2.2.2
        · cases hEligible
  · cases hEligible

/- A migration takes one credit. -/
theorem books_considerCostBasedMigration
    (hBooks : Books config r)
    {pageSizeBits vpn newPpn : Nat}
    (hStep : perform config r
      (.considerCostBasedMigration pageSizeBits vpn newPpn) =
        some r') :
    Books config r' := by
  simp only [perform, Option.some.injEq] at hStep
  subst hStep
  unfold considerCostBasedMigration
  cases hEligible : eligible config r.state pageSizeBits vpn with
  | none => exact hBooks
  | some i =>
      simp only
      split
      · exact hBooks
      · have hPos := credits_pos_of_eligible hEligible
        rcases hBooks with
          ⟨hDistinct, hLow, hHigh, refills, hCount, hLess, hSpent⟩
        refine ⟨?_, ?_, ?_, refills, hCount, hLess, ?_⟩
        · exact hDistinct.modify i (fun _ => ⟨rfl, rfl⟩)
        · change 0 ≤ r.state.credits - 1
          omega
        · change r.state.credits - 1 ≤ config.creditsMax
          omega
        · change ((r.issued + 1 : Nat) : Int) +
            (r.state.credits - 1) ≤ _
          push_cast
          omega

/- Every call keeps the books. -/
theorem books_step
    (hConfig : CountsCredits config)
    (hBooks : Books config r)
    {op : CostOp}
    (hStep : perform config r op = some r') :
    Books config r' := by
  cases op with
  | bumpCostScore vpn inc =>
      simp only [perform, Option.some.injEq] at hStep
      subst hStep
      exact ⟨hBooks.distinct, hBooks.low, hBooks.high,
        hBooks.epochs⟩
  | updateCostTopK vpn score =>
      simp only [perform, Option.some.injEq] at hStep
      subst hStep
      have hSame : ∀ s : CostTopKState,
          (updateCostTopK config s vpn score).credits = s.credits ∧
            (updateCostTopK config s vpn
              score).translationCounter = s.translationCounter ∧
            (updateCostTopK config s vpn
              score).creditEpochCounter = s.creditEpochCounter := by
        intro s
        unfold updateCostTopK
        repeat' split
        all_goals exact ⟨rfl, rfl, rfl⟩
      rcases hSame r.state with ⟨hCredits, hTotal, hEpoch⟩
      rcases hBooks with
        ⟨hDistinct, hLow, hHigh, refills, hCount, hLess, hSpent⟩
      refine ⟨distinct_updateCostTopK hDistinct vpn score,
        ?_, ?_, refills, ?_, ?_, ?_⟩
      · rw [hCredits]
        exact hLow
      · rw [hCredits]
        exact hHigh
      · simp only [hTotal, hEpoch]
        exact hCount
      · simp only [hEpoch]
        exact hLess
      · simp only [hCredits]
        exact hSpent
  | processEpochs =>
      simp only [perform, Option.some.injEq] at hStep
      subst hStep
      exact books_processEpochs hConfig hBooks
  | considerCostBasedMigration pageSizeBits vpn newPpn =>
      exact books_considerCostBasedMigration hBooks hStep

/- The credits that were given bound the migrations. -/
theorem issued_le
    (hBooks : Books config r) :
    (r.issued : Int) ≤
      config.creditsMax + config.creditsRefill *
        ((r.state.translationCounter /
          config.creditEpochTranslations : Nat) : Int) := by
  rcases hBooks with
    ⟨-, hLow, -, refills, hCount, hLess, hSpent⟩
  have hPos : 0 < config.creditEpochTranslations := by omega
  have hRefills : r.state.translationCounter /
      config.creditEpochTranslations = refills := by
    rw [hCount, Nat.mul_comm, Nat.mul_add_div hPos,
      Nat.div_eq_of_lt hLess, Nat.add_zero]
  rw [hRefills]
  omega

end Runs

/-
  In every run that offers no new page to a full table while
  the kept minimum is out of date, every contending update
  replaces an entry with the least score or is refused with a
  score that is not above any, and in the state it reaches
  the pages of the table are distinct, the credits are in
  their range, and the credits that were given bound the
  migrations.
-/
theorem topK_run
    (config : CostTopKConfig)
    (_hEntries : 1 ≤ config.topkEntries)
    (hConfig : CountsCredits config)
    (ops : List CostOp)
    (hTyped : ∀ op ∈ ops, op.Typed)
    (hFresh :
      Run.Along (perform config) (ReadsFresh config)
        (start config) ops)
    {r : Ranking}
    (hRun : Run.run (perform config) (start config) ops = some r) :
    Run.Along (perform config) (KeepsLargest config)
        (start config) ops ∧
      Distinct r.state.topkTable ∧
      0 ≤ r.state.credits ∧
      r.state.credits ≤ config.creditsMax ∧
      (r.issued : Int) ≤
        config.creditsMax + config.creditsRefill *
          ((r.state.translationCounter /
            config.creditEpochTranslations : Nat) : Int) := by
  have hBooks : Books config r :=
    Run.run_invariant
      (fun _ _ _ hBefore hStep =>
        books_step hConfig hBefore hStep)
      (books_start hConfig) hRun
  refine ⟨?_, hBooks.distinct, hBooks.low, hBooks.high,
    issued_le hBooks⟩
  refine Run.Along.mono ?_
    (hFresh.and (Run.along_of_forall_mem _ hTyped))
  rintro s op ⟨hRead, hOp⟩
  cases op with
  | bumpCostScore vpn inc => trivial
  | updateCostTopK vpn score =>
      intro hContends
      exact replaces_of_fresh hContends (hRead hContends) hOp
  | processEpochs => trivial
  | considerCostBasedMigration pageSizeBits vpn newPpn =>
      trivial

/- A policy with a table of two pages. -/
def twoPages : CostTopKConfig :=
  { enabled := true
    pageSizeBits := 12
    scoreBits := 10
    ptwBaseInc := 1
    dramIncCap := 0
    topkEntries := 2
    stickyThreshold := 1
    cooldownEpochs := 2
    rankEpochTranslations := 1
    creditEpochTranslations := 2
    creditsMax := 4
    creditsRefill := 1
    migrateThreshold := 10
    postMigrateScoreShift := 2 }

/- An epoch after a migration brings the minimum up to date. -/
theorem topK_run_epoch :
    ∃ r,
      Run.run (perform twoPages) (start twoPages)
        [.bumpCostScore 1 100, .updateCostTopK 1 100,
          .bumpCostScore 2 200, .updateCostTopK 2 200,
          .considerCostBasedMigration 12 2 7, .processEpochs,
          .updateCostTopK 3 150] = some r ∧
        Distinct r.state.topkTable ∧
        r.state.credits ≤ 4 := by
  have hRun : ∃ r,
      Run.run (perform twoPages) (start twoPages)
        [.bumpCostScore 1 100, .updateCostTopK 1 100,
          .bumpCostScore 2 200, .updateCostTopK 2 200,
          .considerCostBasedMigration 12 2 7, .processEpochs,
          .updateCostTopK 3 150] = some r :=
    ⟨_, rfl⟩
  rcases hRun with ⟨r, hRun⟩
  have hAll := topK_run twoPages (by decide)
    ⟨by decide, by decide, by decide, by decide, by decide,
      by decide⟩ _
    (by simp [CostOp.Typed]) (by decide +kernel) hRun
  exact ⟨r, hRun, hAll.2.1, hAll.2.2.2.1⟩

/-
  After the migration of page 2 its score is 50, and the kept
  minimum is still the score 100 of page 1. The new page 3
  takes the slot of page 1.
-/
theorem topK_run_stale :
    ∃ r,
      Run.run (perform twoPages) (start twoPages)
        [.bumpCostScore 1 100, .updateCostTopK 1 100,
          .bumpCostScore 2 200, .updateCostTopK 2 200,
          .considerCostBasedMigration 12 2 7] = some r ∧
        Contends twoPages r.state 3 ∧
        ¬ Replaces r.state.topkTable
          (updateCostTopK twoPages r.state 3 150).topkTable
          3 150 := by
  have hRun : ∃ r,
      Run.run (perform twoPages) (start twoPages)
        [.bumpCostScore 1 100, .updateCostTopK 1 100,
          .bumpCostScore 2 200, .updateCostTopK 2 200,
          .considerCostBasedMigration 12 2 7] = some r ∧
        Contends twoPages r.state 3 ∧
        r.state.topkTable =
          [⟨true, 1, 100, 1, 0⟩, ⟨true, 2, 50, 1, 2⟩] ∧
        (updateCostTopK twoPages r.state 3 150).topkTable =
          [⟨true, 3, 150, 1, 0⟩, ⟨true, 2, 50, 1, 2⟩] :=
    ⟨_, rfl, by decide +kernel, by decide +kernel,
      by decide +kernel⟩
  rcases hRun with ⟨r, hRun, hContends, hBefore, hAfter⟩
  refine ⟨r, hRun, hContends, ?_⟩
  rw [hBefore, hAfter]
  rintro (⟨hSame, -⟩ | ⟨i, e, hGet, hSet, hLeast⟩)
  · simp at hSame
  · cases i with
    | zero =>
        simp only [List.getElem?_cons_zero,
          Option.some.injEq] at hGet
        have hLe := hLeast ⟨true, 2, 50, 1, 2⟩ (by simp)
        rw [← hGet] at hLe
        simp at hLe
    | succ i => simp at hSet

end CostTopKState

end Utopia

end Virtuoso
