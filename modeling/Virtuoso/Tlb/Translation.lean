import Virtuoso.Tlb.Unique

/-
  What a translation does to the TLB hierarchy.

  The search changes no block, except in TLBs with a prefetch
  queue. Where it misses a TLB, the TLB does not hold the
  page of the translation, and none of the victims that are
  pushed before the page is filled in is that page. So every
  page is fresh where it is filled in.

  Main declarations:
    * `Mmu.searchLevels_spec`
    * `Mmu.steps_performAddressTranslation`
-/

------------------------------------------------------------
-- Steps And The Search
------------------------------------------------------------

namespace Virtuoso

namespace Mmu

variable {σ : Type} {h h' : TlbSubsystem σ}
variable {s s' s'' : Session σ} {o : Op}
variable {out : Option TlbBlock}

/-
  The session is continued by operations that lead from one
  hierarchy to the other and fill in fresh pages only.
-/
def Steps (s s' : Session σ) : Prop :=
  ∃ ops, s'.trail = s.trail ++ ops ∧
    Run.run step s.tlbs ops = some s'.tlbs ∧
    Run.Along step FillsFresh s.tlbs ops

theorem Steps.refl
    (s : Session σ) :
    Steps s s :=
  ⟨[], by simp, rfl, trivial⟩

theorem Steps.trans
    (hFirst : Steps s s')
    (hSecond : Steps s' s'') :
    Steps s s'' := by
  rcases hFirst with ⟨ops, hTrail, hRun, hAlong⟩
  rcases hSecond with ⟨ops', hTrail', hRun', hAlong'⟩
  refine ⟨ops ++ ops', ?_, ?_, ?_⟩
  · rw [hTrail', hTrail, List.append_assoc]
  · rw [Run.run_append_of_some ops' hRun]
    exact hRun'
  · exact Run.along_append hRun hAlong hAlong'

theorem steps_perform
    (hPerform : perform s o = some (out, s'))
    (hFills : FillsFresh s.tlbs o) :
    Steps s s' := by
  refine ⟨[o], (exec_of_perform hPerform).2, ?_, hFills,
    fun _ _ => trivial⟩
  rw [Run.run_cons_of_some [] (step_of_perform hPerform)]
  rfl

theorem Steps.shaped
    (hSteps : Steps s s')
    (hShaped : Each Tlb.Shaped s.tlbs) :
    Each Tlb.Shaped s'.tlbs := by
  rcases hSteps with ⟨ops, -, hRun, -⟩
  exact Run.run_invariant
    (fun _ _ _ hOld hStep => shaped_step hOld hStep)
    hShaped hRun

/- An operation that fills nothing in. -/
theorem fillsFresh_of_none
    (hNone : ∀ t : Tlb σ, t.filled o.op = none) :
    FillsFresh h o := by
  intro t _ p hFilled
  rw [hNone t] at hFilled
  cases hFilled

variable {t t' : Tlb σ}

theorem exec_config
    {op : TlbOp}
    (hExec : t.exec op = some (out, t')) :
    t'.config = t.config := by
  rcases Tlb.exec_cases hExec with
    ⟨-, -, -, hConfig, -⟩ | ⟨_, _, _, _, _, -, hInserts, -⟩
  · exact hConfig
  · exact hInserts.config

/-
  The TLBs are the same, with the same blocks where there is
  no prefetch queue.
-/
def Kept (h h' : TlbSubsystem σ) : Prop :=
  ∀ i j t', tlbAt h' i j = some t' →
    ∃ t, tlbAt h i j = some t ∧ t'.config = t.config ∧
      (t.config.prefetch = false → t'.sets = t.sets)

theorem Kept.refl
    (h : TlbSubsystem σ) :
    Kept h h :=
  fun _ _ t hAt => ⟨t, hAt, rfl, fun _ => rfl⟩

theorem Kept.trans
    {h'' : TlbSubsystem σ}
    (hFirst : Kept h h')
    (hSecond : Kept h' h'') :
    Kept h h'' := by
  intro i j t'' hAt''
  rcases hSecond i j t'' hAt'' with
    ⟨t', hAt', hConfig', hSets'⟩
  rcases hFirst i j t' hAt' with ⟨t, hAt, hConfig, hSets⟩
  refine ⟨t, hAt, hConfig'.trans hConfig, fun hPlain => ?_⟩
  exact (hSets' (hConfig ▸ hPlain)).trans (hSets hPlain)

/- The parts of a search take such steps. -/
structure Searches (s s' : Session σ) : Prop where
  steps : Steps s s'
  kept : Kept s.tlbs s'.tlbs

theorem Searches.refl
    (s : Session σ) :
    Searches s s :=
  ⟨.refl s, .refl s.tlbs⟩

theorem Searches.trans
    (hFirst : Searches s s')
    (hSecond : Searches s' s'') :
    Searches s s'' :=
  ⟨hFirst.steps.trans hSecond.steps, hFirst.kept.trans hSecond.kept⟩

/- An operation that inserts only with a prefetch queue. -/
theorem searches_perform
    (hPerform : perform s o = some (out, s'))
    (hFilled : ∀ t : Tlb σ, t.filled o.op = none)
    (hPlain : ∀ t, tlbAt s.tlbs o.level o.index = some t →
      t.config.prefetch = false → t.offered o.op = none) :
    Searches s s' := by
  refine ⟨steps_perform hPerform (fillsFresh_of_none hFilled), ?_⟩
  rcases tlbAt_exec (exec_of_perform hPerform).1 with
    ⟨t, t', hAt, hOp, hAfter⟩
  intro i j t₁ hAt₁
  rw [hAfter] at hAt₁
  split_ifs at hAt₁ with hSame
  · cases hAt₁
    rw [hSame.1, hSame.2]
    refine ⟨t, hAt, exec_config hOp, fun hNone => ?_⟩
    rcases Tlb.exec_cases hOp with
      ⟨-, -, hSets, -⟩ | ⟨_, _, _, _, _, hTakes, -⟩
    · exact hSets
    · rcases hTakes.page with hPage | hPage
      · rw [hPlain t hAt hNone] at hPage
        cases hPage
      · rw [hFilled t] at hPage
        cases hPage
  · exact ⟨t₁, hAt₁, rfl, fun _ => rfl⟩

variable {r : Request}

theorem searches_materializeAt
    {level index n : Nat}
    (hCall : materializeAt r level index n s = some s') :
    Searches s s' := by
  induction n generalizing s with
  | zero =>
      rw [← Option.some.inj hCall]
      exact .refl s
  | succ n ih =>
      rcases Option.bind_eq_some_iff.mp hCall with
        ⟨⟨out, s₁⟩, hPerform, hRest⟩
      have hFirst : Searches s s₁ := by
        refine searches_perform hPerform (fun _ => rfl) ?_
        intro t hAt hPlain
        simp [Tlb.offered, hPlain]
      exact hFirst.trans (ih hRest)

/- No page of the address is held. -/
def Missing (address : BitVec 64) (t : Tlb σ) : Prop :=
  ∀ size ∈ t.config.pageSizes,
    ¬ t.Holds (Tlb.tagOf address size) size

theorem Missing.of_sets
    {address : BitVec 64}
    (hMissing : Missing address t)
    (hConfig : t'.config = t.config)
    (hSets : t'.sets = t.sets) :
    Missing address t' := by
  intro size hSize hHolds
  rw [hConfig] at hSize
  apply hMissing size hSize
  rcases hHolds with ⟨k, i, b, hBlock, hRest⟩
  refine ⟨k, i, b, ?_, hRest⟩
  rw [Tlb.blockAt, hSets] at hBlock
  exact hBlock

/- The lookup of a TLB without a prefetch queue that missed. -/
theorem lookupAt_spec
    {level index : Nat}
    {t : Tlb σ}
    (hShaped : Each Tlb.Shaped s.tlbs)
    (hAt : tlbAt s.tlbs level index = some t)
    (hCall : lookupAt r level index t s = some (out, s')) :
    Searches s s' ∧
      (out = none → t.config.prefetch = false →
        Missing r.address t) := by
  rcases Option.bind_eq_some_iff.mp hCall with
    ⟨s₁, hFirst, hRest⟩
  rcases Option.bind_eq_some_iff.mp hRest with
    ⟨⟨hit, s₂⟩, hSecond, hRest⟩
  rcases Option.map_eq_some_iff.mp hRest with
    ⟨⟨_, s₃⟩, hThird, hEq⟩
  simp only [Prod.mk.injEq] at hEq
  rw [← hEq.1, ← hEq.2]
  have hSearches := searches_materializeAt hFirst
  refine ⟨(hSearches.trans (searches_perform hSecond
      (fun _ => rfl) (fun _ _ _ => rfl))).trans
    (searches_perform hThird (fun _ => rfl)
      (fun _ _ _ => rfl)), fun hMiss hPlain => ?_⟩
  rcases tlbAt_exec (exec_of_perform hSecond).1 with
    ⟨t₁, t', hAt₁, hOp, -⟩
  rcases hSearches.kept level index t₁ hAt₁ with
    ⟨t₀, hAt₀, hConfig, hSets⟩
  have hSame : t₀ = t :=
    Option.some.inj (hAt₀.symm.trans hAt)
  subst hSame
  have hOut : (t₁.accessSingleLineTLB r.address).1 = hit :=
    congrArg Prod.fst (Option.some.inj hOp)
  have hMissing : Missing r.address t₁ :=
    (hSearches.steps.shaped hShaped _ _ t₁
      hAt₁).not_holds_of_find
      (Tlb.find_of_access (hOut.trans hMiss))
  exact hMissing.of_sets hConfig.symm (hSets hPlain).symm

/- The TLBs of the path in a level miss the address. -/
def MissedAt
    (r : Request)
    (h : TlbSubsystem σ)
    (level : Nat)
    (index : Nat) : Prop :=
  ∀ t, tlbAt h level index = some t → onPath r t = true →
    t.config.prefetch = false → Missing r.address t

theorem MissedAt.kept
    {level index : Nat}
    (hMissed : MissedAt r h level index)
    (hKept : Kept h h') :
    MissedAt r h' level index := by
  intro t' hAt' hPath hPlain
  rcases hKept level index t' hAt' with
    ⟨t, hAt, hConfig, hSets⟩
  unfold onPath at hPath
  rw [hConfig] at hPath hPlain
  exact (hMissed t hAt hPath hPlain).of_sets hConfig (hSets hPlain)

theorem searchLevel_spec
    {level : Nat}
    {indexList : List Nat}
    {hit : Option TlbBlock}
    (hShaped : Each Tlb.Shaped s.tlbs)
    (hCall : searchLevel r level indexList hit s = some (out, s')) :
    Searches s s' ∧
      (out = none → hit = none ∧
        ∀ index ∈ indexList, MissedAt r s'.tlbs level index) := by
  induction indexList generalizing s hit with
  | nil =>
      rw [searchLevel, Option.some.injEq, Prod.mk.injEq] at hCall
      rw [← hCall.1, ← hCall.2]
      exact ⟨.refl s, fun hNone => ⟨hNone, by simp⟩⟩
  | cons index rest ih =>
      rcases Option.bind_eq_some_iff.mp hCall with
        ⟨t, hAt, hRest⟩
      split_ifs at hRest with hPath
      · rcases Option.bind_eq_some_iff.mp hRest with
          ⟨⟨own, s₁⟩, hLookup, hLater⟩
        rcases lookupAt_spec hShaped hAt hLookup with
          ⟨hFirst, hOwn⟩
        rcases ih (hFirst.steps.shaped hShaped) hLater with
          ⟨hSecond, hMissed⟩
        refine ⟨hFirst.trans hSecond, fun hNone => ?_⟩
        rcases hMissed hNone with ⟨hBoth, hTail⟩
        rw [Option.orElse_eq_orElse, Option.orElse_eq_or,
          Option.or_eq_none_iff] at hBoth
        refine ⟨hBoth.2, fun i hMem => ?_⟩
        rcases List.mem_cons.mp hMem with hHere | hThere
        · subst hHere
          apply MissedAt.kept _ (hFirst.trans hSecond).kept
          intro t' hAt' _ hPlain
          rw [hAt, Option.some.injEq] at hAt'
          subst hAt'
          exact hOwn hBoth.1 hPlain
        · exact hTail i hThere
      · rcases ih hShaped hRest with ⟨hSearches, hMissed⟩
        refine ⟨hSearches, fun hNone => ?_⟩
        rcases hMissed hNone with ⟨hHit, hTail⟩
        refine ⟨hHit, fun i hMem => ?_⟩
        rcases List.mem_cons.mp hMem with hHere | hThere
        · subst hHere
          apply MissedAt.kept _ hSearches.kept
          intro t' hAt' hPath' _
          rw [hAt, Option.some.injEq] at hAt'
          rw [← hAt'] at hPath'
          exact absurd hPath' hPath
        · exact hTail i hThere

/- An index without a TLB is missed. -/
theorem mem_indices
    {level index : Nat}
    {t : Tlb σ}
    (hAt : tlbAt h level index = some t) :
    index ∈ indices h level := by
  rcases Option.bind_eq_some_iff.mp hAt with
    ⟨tlbs, hLevel, hIndex⟩
  rcases List.getElem?_eq_some_iff.mp hIndex with ⟨hLt, -⟩
  rw [indices, List.mem_range, List.getD_eq_getElem?_getD, hLevel]
  exact hLt

theorem Kept.mem_indices
    (hKept : Kept h h')
    {level index : Nat}
    {t' : Tlb σ}
    (hAt' : tlbAt h' level index = some t') :
    index ∈ indices h level := by
  rcases hKept level index t' hAt' with ⟨t, hAt, -⟩
  exact Mmu.mem_indices hAt

/- The levels above the hit have missed the address. -/
theorem searchLevels_spec
    {levels : List Nat}
    {found : Option (Nat × TlbBlock)}
    (hShaped : Each Tlb.Shaped s.tlbs)
    (hOrder : levels.Pairwise (fun l l' => l < l'))
    (hCall : searchLevels r levels s = some (found, s')) :
    Searches s s' ∧
      ∀ l ∈ levels, (∀ p ∈ found, l < p.1) →
        ∀ index, MissedAt r s'.tlbs l index := by
  induction levels generalizing s with
  | nil =>
      rw [searchLevels, Option.some.injEq, Prod.mk.injEq] at hCall
      rw [← hCall.2]
      exact ⟨.refl s, by simp⟩
  | cons level rest ih =>
      rcases Option.bind_eq_some_iff.mp hCall with
        ⟨⟨hit, s₁⟩, hLevel, hRest⟩
      rcases searchLevel_spec hShaped hLevel with
        ⟨hFirst, hMissed⟩
      cases hHit : hit with
      | some block =>
          simp only [hHit, Option.some.injEq,
            Prod.mk.injEq] at hRest
          rw [← hRest.1, ← hRest.2]
          refine ⟨hFirst, fun l hMem hAbove => ?_⟩
          have hLt : l < level := hAbove _ rfl
          rcases List.mem_cons.mp hMem with hHere | hLater
          · omega
          · have hAfter := List.rel_of_pairwise_cons hOrder hLater
            omega
      | none =>
          simp only [hHit] at hRest
          rcases ih (hFirst.steps.shaped hShaped)
            (List.Pairwise.of_cons hOrder) hRest with
            ⟨hSecond, hLater⟩
          refine ⟨hFirst.trans hSecond, fun l hMem hAbove => ?_⟩
          rcases List.mem_cons.mp hMem with hHere | hTail
          · subst hHere
            intro index t' hAt'
            have hIndex :=
              (hFirst.trans hSecond).kept.mem_indices hAt'
            exact ((hMissed hHit).2 index hIndex).kept
              hSecond.kept t' hAt'
          · exact hLater l hTail hAbove

------------------------------------------------------------
-- Allocation And Translation
------------------------------------------------------------

/- The page that a translation fills in. -/
def Fill.tag (f : Fill) : BitVec 64 :=
  Tlb.tagOf f.address f.pageSize

/- A block of another page. -/
def Fill.Other (f : Fill) (b : TlbBlock) : Prop :=
  Tlb.TagFits b ∧ b.isFor f.tag f.pageSize = false

/- The TLB does not hold the page. -/
def Fill.Clear
    (f : Fill)
    (h : TlbSubsystem σ)
    (level index : Nat) : Prop :=
  ∀ t, tlbAt h level index = some t → ¬ t.Holds f.tag f.pageSize

variable {f : Fill} {level index : Nat}

/- All other TLBs are left. -/
def Frame
    (h h' : TlbSubsystem σ)
    (level index : Nat) : Prop :=
  ∀ i j, ¬ (i = level ∧ j = index) → tlbAt h' i j = tlbAt h i j

theorem frame_perform
    {op : TlbOp}
    (hPerform : perform s ⟨level, index, op⟩ = some (out, s')) :
    Frame s.tlbs s'.tlbs level index := by
  rcases tlbAt_exec (exec_of_perform hPerform).1 with
    ⟨t, t', -, -, hAfter⟩
  intro i j hOther
  rw [hAfter, if_neg hOther]

theorem Frame.trans
    {h'' : TlbSubsystem σ}
    (hFirst : Frame h h' level index)
    (hSecond : Frame h' h'' level index) :
    Frame h h'' level index :=
  fun i j hOther =>
    (hSecond i j hOther).trans (hFirst i j hOther)

/- A victim of a TLB that does not hold the page. -/
theorem other_of_inserts
    {address : BitVec 64}
    {pageSize ppn way : Nat}
    {old : TlbBlock}
    (hShaped : t.Shaped)
    (hClear : ¬ t.Holds f.tag f.pageSize)
    (hInserts : Tlb.Inserts t address pageSize ppn way old t') :
    ∀ b ∈ Tlb.victimOf old, f.Other b := by
  intro b hVictim
  unfold Tlb.victimOf at hVictim
  split_ifs at hVictim with hValid
  · cases hVictim
    refine ⟨hShaped.fits_of_valid hInserts.before hValid, ?_⟩
    by_contra hFor
    rw [Bool.not_eq_false] at hFor
    exact hClear ⟨_, _, old, hInserts.before, hValid, hFor⟩
  · cases hVictim

/- Pushing another page keeps the page away. -/
theorem push_spec
    {v : TlbBlock}
    (hShaped : Each Tlb.Shaped s.tlbs)
    (hPerform : perform s ⟨level, index,
      .push (v.tag <<< v.pageSize) v.pageSize v.ppn⟩ =
        some (out, s'))
    (hOther : f.Other v)
    (hClear : f.Clear s.tlbs level index) :
    f.Clear s'.tlbs level index ∧ ∀ b ∈ out, f.Other b := by
  rcases tlbAt_exec (exec_of_perform hPerform).1 with
    ⟨t, t', hAt, hOp, hAfter⟩
  have hOwn : tlbAt s'.tlbs level index = some t' := by
    rw [hAfter, if_pos ⟨rfl, rfl⟩]
  have hNot := hClear t hAt
  rcases Tlb.exec_cases hOp with
    ⟨-, -, hSets, -, hNone⟩ |
      ⟨address, pageSize, ppn, way, old, hTakes, hInserts, hOut⟩
  · refine ⟨fun t₁ hAt₁ hHolds => ?_, fun b hMem => ?_⟩
    · rw [hOwn, Option.some.injEq] at hAt₁
      subst hAt₁
      apply hNot
      rcases hHolds with ⟨k, i, b, hBlock, hRest⟩
      rw [Tlb.blockAt, hSets] at hBlock
      exact ⟨k, i, b, hBlock, hRest⟩
    · rcases hNone with hNone | ⟨_, hAccess⟩
      · rw [hNone] at hMem
        cases hMem
      · cases hAccess
  · have hSame : address = v.tag <<< v.pageSize ∧
        pageSize = v.pageSize := by
      rcases hTakes.page with hOffered | hFilled
      · simp only [Tlb.offered] at hOffered
        split_ifs at hOffered
        simp only [Option.some.injEq, Prod.mk.injEq] at hOffered
        exact ⟨hOffered.1.symm, hOffered.2.symm⟩
      · cases hFilled
    rw [hSame.1, hSame.2] at hInserts
    refine ⟨fun t₁ hAt₁ hHolds => ?_, ?_⟩
    · rw [hOwn, Option.some.injEq] at hAt₁
      subst hAt₁
      rcases hInserts.holds hHolds with ⟨hTag, hSize⟩ | hOld
      · rw [hOther.1] at hTag
        have hFor := TlbBlock.isFor_iff.mpr ⟨hTag, hSize⟩
        rw [hOther.2] at hFor
        cases hFor
      · exact hNot hOld
    · rw [hOut]
      exact other_of_inserts (hShaped _ _ t hAt) hNot hInserts

/- The page is fresh where it is filled in. -/
theorem fill_spec
    (hShaped : Each Tlb.Shaped s.tlbs)
    (hPerform : perform s ⟨level, index,
      .fill f.address f.pageSize f.ppn⟩ = some (out, s'))
    (hClear : f.Clear s.tlbs level index) :
    Steps s s' ∧ ∀ b ∈ out, f.Other b := by
  rcases tlbAt_exec (exec_of_perform hPerform).1 with
    ⟨t, t', hAt, hOp, -⟩
  have hNot := hClear t hAt
  refine ⟨steps_perform hPerform ?_, ?_⟩
  · intro t₁ hAt₁ p hFilled
    have hSame : t = t₁ :=
      Option.some.inj (hAt.symm.trans hAt₁)
    subst hSame
    simp only [Tlb.filled] at hFilled
    split_ifs at hFilled
    · cases hFilled
      exact Tlb.fresh_of_not_holds hNot
    · cases hFilled
  · rcases Tlb.exec_cases hOp with
      ⟨-, -, -, -, hNone⟩ |
        ⟨address, pageSize, ppn, way, old, -, hInserts, hOut⟩
    · intro b hMem
      rcases hNone with hNone | ⟨_, hAccess⟩
      · rw [hNone] at hMem
        cases hMem
      · cases hAccess
    · rw [hOut]
      exact other_of_inserts (hShaped _ _ t hAt) hNot hInserts

/- Pushing victims to a TLB. -/
theorem pushVictims_spec
    {victims evicted out : List TlbBlock}
    (hShaped : Each Tlb.Shaped s.tlbs)
    (hCall : pushVictims level index victims evicted s =
      some (out, s')) :
    Steps s s' ∧ Frame s.tlbs s'.tlbs level index ∧
      ((∀ v ∈ victims, f.Other v) →
        (∀ v ∈ evicted, f.Other v) →
          f.Clear s.tlbs level index →
            f.Clear s'.tlbs level index ∧
              ∀ v ∈ out, f.Other v) := by
  induction victims generalizing evicted s with
  | nil =>
      rw [pushVictims, Option.some.injEq, Prod.mk.injEq] at hCall
      rw [← hCall.1, ← hCall.2]
      exact ⟨.refl s, fun _ _ _ => rfl,
        fun _ hEvicted hClear => ⟨hClear, hEvicted⟩⟩
  | cons v rest ih =>
      rcases Option.bind_eq_some_iff.mp hCall with
        ⟨⟨own, s₁⟩, hPerform, hRest⟩
      have hFirst := steps_perform hPerform
        (fillsFresh_of_none (fun _ => rfl))
      rcases ih (hFirst.shaped hShaped) hRest with
        ⟨hSecond, hFrame, hOthers⟩
      refine ⟨hFirst.trans hSecond,
        (frame_perform hPerform).trans hFrame, ?_⟩
      intro hVictims hEvicted hClear
      rcases push_spec hShaped hPerform
        (hVictims v (by simp)) hClear with ⟨hNext, hOwn⟩
      refine hOthers
        (fun v' hMem => hVictims v' (by simp [hMem]))
        (fun v' hMem => ?_) hNext
      rcases List.mem_append.mp hMem with hOld | hNew
      · exact hEvicted v' hOld
      · exact hOwn v' (Option.mem_toList.mp hNew)

/- Filling the page into a TLB that does not hold it. -/
theorem fillTlb_spec
    {evicted out : List TlbBlock}
    (hShaped : Each Tlb.Shaped s.tlbs)
    (hCall : fillTlb f level index evicted s = some (out, s'))
    (hClear : f.reaches level = true → f.Clear s.tlbs level index) :
    Steps s s' ∧ Frame s.tlbs s'.tlbs level index ∧
      (f.reaches level = true →
        (∀ v ∈ evicted, f.Other v) → ∀ v ∈ out, f.Other v) := by
  unfold fillTlb at hCall
  split_ifs at hCall with hReaches
  · rcases Option.map_eq_some_iff.mp hCall with
      ⟨⟨own, s₁⟩, hPerform, hEq⟩
    simp only [Prod.mk.injEq] at hEq
    rcases fill_spec hShaped hPerform (hClear hReaches) with
      ⟨hSteps, hOwn⟩
    rw [← hEq.1, ← hEq.2]
    refine ⟨hSteps, frame_perform hPerform, ?_⟩
    intro _ hEvicted v hMem
    rcases List.mem_append.mp hMem with hOld | hNew
    · exact hEvicted v hOld
    · exact hOwn v (Option.mem_toList.mp hNew)
  · simp only [Option.some.injEq, Prod.mk.injEq] at hCall
    rw [← hCall.1, ← hCall.2]
    exact ⟨.refl s, fun _ _ _ => rfl, fun _ hEvicted =>
      hEvicted⟩

/- The TLB may be filled, and does not hold the page. -/
def ClearAt
    (r : Request)
    (f : Fill)
    (h : TlbSubsystem σ)
    (level index : Nat) : Prop :=
  ∀ t, tlbAt h level index = some t → onPath r t = true →
    t.config.prefetch = false → ¬ t.Holds f.tag f.pageSize

/- The loop over the TLBs of a level. -/
theorem allocateLevel_spec
    {victims : List TlbBlock}
    {indexList : List Nat}
    {evicted out : List TlbBlock}
    (hShaped : Each Tlb.Shaped s.tlbs)
    (hNodup : indexList.Nodup)
    (hCall : allocateLevel r f level victims indexList evicted
      s = some (out, s'))
    (hClear : f.reaches level = true →
      (∀ v ∈ victims, f.Other v) ∧
        (∀ v ∈ evicted, f.Other v) ∧
        ∀ index ∈ indexList, ClearAt r f s.tlbs level index) :
    Steps s s' ∧
      (∀ i j, i ≠ level → tlbAt s'.tlbs i j = tlbAt s.tlbs i j) ∧
      (f.reaches level = true → ∀ v ∈ out, f.Other v) := by
  induction indexList generalizing evicted s with
  | nil =>
      rw [allocateLevel, Option.some.injEq, Prod.mk.injEq] at hCall
      rw [← hCall.1, ← hCall.2]
      exact ⟨.refl s, fun _ _ _ => rfl,
        fun hReaches => (hClear hReaches).2.1⟩
  | cons index rest ih =>
      rcases List.nodup_cons.mp hNodup with ⟨hNew, hRestNodup⟩
      rcases Option.bind_eq_some_iff.mp hCall with
        ⟨t, hAt, hRest⟩
      split_ifs at hRest with hActs
      · rw [Bool.and_eq_true, Bool.not_eq_true'] at hActs
        rcases Option.bind_eq_some_iff.mp hRest with
          ⟨⟨pushed, s₁⟩, hPush, hRest⟩
        rcases Option.bind_eq_some_iff.mp hRest with
          ⟨⟨filled, s₂⟩, hFill, hLater⟩
        rcases pushVictims_spec (f := f) hShaped hPush with
          ⟨hFirst, hFrame, hOthers⟩
        -- victims of other pages do not bring the page in
        have hPushed : f.reaches level = true →
            f.Clear s₁.tlbs level index ∧
              ∀ v ∈ pushed, f.Other v := by
          intro hReaches
          rcases hClear hReaches with
            ⟨hVictims, hEvicted, hAll⟩
          refine hOthers hVictims hEvicted ?_
          intro t' hAt'
          have hSame : t = t' :=
            Option.some.inj (hAt.symm.trans hAt')
          subst hSame
          exact hAll index (by simp) t hAt hActs.1 hActs.2
        rcases fillTlb_spec (hFirst.shaped hShaped) hFill
          (fun hReaches => (hPushed hReaches).1) with
          ⟨hSecond, hFrame', hFilled⟩
        have hBoth := hFirst.trans hSecond
        have hFrames := hFrame.trans hFrame'
        have hNext : f.reaches level = true →
            (∀ v ∈ victims, f.Other v) ∧
              (∀ v ∈ filled, f.Other v) ∧
              ∀ j ∈ rest, ClearAt r f s₂.tlbs level j := by
          intro hReaches
          rcases hClear hReaches with ⟨hVictims, -, hAll⟩
          refine ⟨hVictims, hFilled hReaches
            (hPushed hReaches).2, fun j hMem => ?_⟩
          have hOther : ¬ (level = level ∧ j = index) := by
            rintro ⟨-, hSame⟩
            exact hNew (hSame ▸ hMem)
          intro t' hAt'
          rw [hFrames level j hOther] at hAt'
          exact hAll j (by simp [hMem]) t' hAt'
        rcases ih (hBoth.shaped hShaped) hRestNodup hLater hNext
          with ⟨hThird, hOutside, hOut⟩
        refine ⟨hBoth.trans hThird, fun i j hOther => ?_, hOut⟩
        rw [hOutside i j hOther]
        exact hFrames i j (fun hSame => hOther hSame.1)
      · refine ih hShaped hRestNodup hRest ?_
        intro hReaches
        rcases hClear hReaches with ⟨hVictims, hEvicted, hAll⟩
        exact ⟨hVictims, hEvicted, fun j hMem =>
          hAll j (by simp [hMem])⟩

/- A level above one that is filled is filled. -/
theorem Fill.reaches_of_lt
    {level' : Nat}
    (hReaches : f.reaches level' = true)
    (hLt : level < level') :
    f.reaches level = true := by
  unfold Fill.reaches at hReaches ⊢
  cases hHit : f.hitLevel with
  | none => rfl
  | some hit =>
      rw [hHit, Option.all_some, decide_eq_true_eq] at hReaches
      rw [Option.all_some, decide_eq_true_eq]
      omega

/- The loop over the levels. -/
theorem steps_allocateLevels
    {levels : List Nat}
    {victims : List TlbBlock}
    (hShaped : Each Tlb.Shaped s.tlbs)
    (hOrder : levels.Pairwise (fun l l' => l < l'))
    (hCall : allocateLevels r f levels victims s = some s')
    (hClear : ∀ l ∈ levels, f.reaches l = true →
      (∀ v ∈ victims, f.Other v) ∧
        ∀ index, ClearAt r f s.tlbs l index) :
    Steps s s' := by
  induction levels generalizing victims s with
  | nil =>
      rw [← Option.some.inj hCall]
      exact .refl s
  | cons level rest ih =>
      rcases Option.bind_eq_some_iff.mp hCall with
        ⟨⟨out, s₁⟩, hLevel, hRest⟩
      have hHere : f.reaches level = true →
          (∀ v ∈ victims, f.Other v) ∧
            (∀ v ∈ ([] : List TlbBlock), f.Other v) ∧
            ∀ index ∈ indices s.tlbs level,
              ClearAt r f s.tlbs level index := by
        intro hReaches
        rcases hClear level (by simp) hReaches with
          ⟨hVictims, hAll⟩
        exact ⟨hVictims, by simp, fun index _ => hAll index⟩
      rcases allocateLevel_spec hShaped List.nodup_range hLevel
        hHere with ⟨hFirst, hOutside, hOut⟩
      refine hFirst.trans (ih (hFirst.shaped hShaped)
        (List.Pairwise.of_cons hOrder) hRest ?_)
      intro l hMem hReaches
      have hLt := List.rel_of_pairwise_cons hOrder hMem
      refine ⟨hOut (Fill.reaches_of_lt hReaches hLt), ?_⟩
      intro index t hAt
      rw [hOutside l index (by omega)] at hAt
      exact (hClear l (by simp [hMem]) hReaches).2 index t hAt

/- What is filled in after a search, and how far. -/
theorem fillOf_eq_some
    {found : Option (Nat × TlbBlock)}
    (hFill : fillOf r found = some f) :
    f.address = r.address ∧ f.hitLevel = found.map Prod.fst := by
  unfold fillOf at hFill
  cases found with
  | some p =>
      rw [← Option.some.inj hFill]
      exact ⟨rfl, rfl⟩
  | none =>
      rcases Option.map_eq_some_iff.mp hFill with
        ⟨w, -, hEq⟩
      rw [← hEq]
      exact ⟨rfl, rfl⟩

/-
  A translation takes steps that fill in fresh pages only.
-/
theorem steps_performAddressTranslation
    (hShaped : Each Tlb.Shaped s.tlbs)
    (hCall : performAddressTranslation s r = some s') :
    Steps s s' := by
  rcases Option.bind_eq_some_iff.mp hCall with
    ⟨⟨found, s₁⟩, hSearch, hRest⟩
  rcases searchLevels_spec hShaped List.pairwise_lt_range
    hSearch with ⟨hSearches, hMissed⟩
  cases hFill : fillOf r found with
  | none =>
      simp only [hFill, Option.some.injEq] at hRest
      rw [← hRest]
      exact hSearches.steps
  | some f =>
      simp only [hFill] at hRest
      rcases fillOf_eq_some hFill with ⟨hAddress, hHit⟩
      have hShaped₁ := hSearches.steps.shaped hShaped
      refine hSearches.steps.trans (steps_allocateLevels
        hShaped₁ List.pairwise_lt_range hRest ?_)
      intro l hMem hReaches
      refine ⟨by simp, fun index t hAt hPath hPlain hHolds =>
        ?_⟩
      have hAbove : ∀ p ∈ found, l < p.1 := by
        intro p hFound
        rw [Fill.reaches, hHit, hFound, Option.map_some,
          Option.all_some, decide_eq_true_eq] at hReaches
        exact hReaches
      have hLevel : l ∈ List.range s.tlbs.length := by
        rcases hSearches.kept l index t hAt with
          ⟨t₀, hAt₀, -⟩
        rcases Option.bind_eq_some_iff.mp hAt₀ with
          ⟨tlbs, hLevel, -⟩
        exact List.mem_range.mpr
          (List.getElem?_eq_some_iff.mp hLevel).1
      have hMissing := hMissed l hLevel hAbove index t hAt
        hPath hPlain
      -- a size that is not supported is never held
      have hSize : f.pageSize ∈ t.config.pageSizes := by
        rcases hHolds with ⟨k, i, b, hBlock, hValid, hFor⟩
        rw [← (TlbBlock.isFor_iff.mp hFor).2]
        exact (hShaped₁ l index t hAt).supported hPlain k i b
          hBlock hValid
      apply hMissing f.pageSize hSize
      rw [← hAddress]
      exact hHolds

end Mmu

end Virtuoso
