import Virtuoso.Tlb.Hierarchy

/-
  Pages with two blocks in one TLB.

  An insertion does not look for a block of its page. A page
  that is inserted while the TLB holds it in another way than
  the one that is replaced has two blocks afterwards. No
  other operation gives a page a second block.

  Main declarations:
    * `Tlb.Inserts.unique_iff`
    * `Mmu.not_unique_of_step`
-/

namespace Virtuoso

namespace Tlb

variable {σ : Type} {t t' : Tlb σ}

/- No two valid blocks are of the same page. -/
def Unique (t : Tlb σ) : Prop :=
  ∀ k l i j b c, t.blockAt k i = some b →
    t.blockAt l j = some c → b.isValid = true →
      c.isFor b.tag b.pageSize = true → k = l ∧ i = j

/-
  Every valid block of the page in its set is in the way that
  the policy replaces.
-/
def Fresh
    (t : Tlb σ)
    (address : BitVec 64)
    (pageSize : Nat) : Prop :=
  let tag := tagOf address pageSize
  let set := t.sets.getD (t.setIndex tag) []
  ∀ e ∈ set.zipIdx, e.1.isValid = true →
    e.1.isFor tag pageSize = true →
      (t.policy.getReplacementIndex t.replacement
        (t.setIndex tag) set).map Prod.fst = some e.2

instance
    (t : Tlb σ)
    (address : BitVec 64)
    (pageSize : Nat) :
    Decidable (Fresh t address pageSize) :=
  inferInstanceAs (Decidable
    (∀ e ∈ (t.sets.getD (t.setIndex
      (tagOf address pageSize)) []).zipIdx, _))

variable {address : BitVec 64} {pageSize ppn way : Nat}
variable {old : TlbBlock}

/- A page that is not held can be inserted. -/
theorem fresh_of_not_holds
    (hNot : ¬ t.Holds (tagOf address pageSize) pageSize) :
    Fresh t address pageSize := by
  intro e hMem hValid hFor
  have hBlock :
      t.blockAt (t.setIndex (tagOf address pageSize)) e.2 =
        some e.1 := by
    rw [blockAt_eq_getD]
    exact List.mem_zipIdx_iff_getElem?.mp hMem
  exact absurd ⟨_, e.2, e.1, hBlock, hValid, hFor⟩ hNot

/- Exactly a fresh page keeps the blocks of pages single. -/
theorem Inserts.unique_iff
    (hShaped : Shaped t)
    (hUnique : Unique t)
    (hInserts : Inserts t address pageSize ppn way old t') :
    Unique t' ↔ Fresh t address pageSize := by
  rcases hInserts.chosen with ⟨next, hChosen⟩
  constructor
  · intro hAfter e hMem hValid hFor
    rw [hChosen, Option.map_some, Option.some.injEq]
    by_contra hOther
    have hBlock :
        t.blockAt (t.setIndex (tagOf address pageSize)) e.2 =
          some e.1 := by
      rw [blockAt_eq_getD]
      exact List.mem_zipIdx_iff_getElem?.mp hMem
    have hKept := hInserts.kept hBlock
      (fun hBoth => hOther hBoth.2.symm)
    have hNew := hInserts.after
      (t.setIndex (tagOf address pageSize)) way
    rw [if_pos ⟨rfl, rfl⟩] at hNew
    rcases TlbBlock.isFor_iff.mp hFor with ⟨hTag, hSize⟩
    have hSame := hAfter _ _ _ _ e.1 _ hKept hNew hValid
      (TlbBlock.isFor_iff.mpr ⟨hTag.symm, hSize.symm⟩)
    exact hOther hSame.2.symm
  · intro hFresh k l i j b c hB hC hValid hFor
    -- a held block of the new page is in the replaced way
    have hPlace : ∀ k i b, t.blockAt k i = some b →
        b.isValid = true →
          b.isFor (tagOf address pageSize) pageSize = true →
            k = t.setIndex (tagOf address pageSize) ∧ i = way := by
      intro k i b hBlock hValid hFor
      have hSet := hShaped.index_of_valid hBlock hValid
      rw [(TlbBlock.isFor_iff.mp hFor).1] at hSet
      refine ⟨hSet, ?_⟩
      rw [blockAt_eq_getD, hSet] at hBlock
      have hWay := hFresh (b, i)
        (List.mk_mem_zipIdx_iff_getElem?.mpr hBlock) hValid hFor
      rw [hChosen, Option.map_some, Option.some.injEq] at hWay
      exact hWay.symm
    rcases TlbBlock.isFor_iff.mp hFor with ⟨hTag, hSize⟩
    rw [hInserts.after] at hB hC
    split_ifs at hB with hFirst
    · cases hB
      split_ifs at hC with hSecond
      · exact ⟨hFirst.1.trans hSecond.1.symm,
          hFirst.2.trans hSecond.2.symm⟩
      · have hValid' : c.isValid = true := by
          rw [TlbBlock.isValid_iff] at hValid ⊢
          rw [hTag]
          exact hValid
        exact absurd (hPlace l j c hC hValid' hFor) hSecond
    · split_ifs at hC with hSecond
      · cases hC
        exact absurd (hPlace k i b hB hValid
          (TlbBlock.isFor_iff.mpr ⟨hTag.symm, hSize.symm⟩))
          hFirst
      · exact hUnique k l i j b c hB hC hValid hFor

/- The page that an operation brings from elsewhere. -/
def offered (t : Tlb σ) : TlbOp → Option (BitVec 64 × Nat)
| .materialize now pick =>
    if t.config.prefetch then
      (dueEntry t.queue now pick).map (fun e =>
        (e.address, e.pageSize))
    else
      none
| .push address pageSize _ =>
    if t.supportsPageSize pageSize && !t.config.prefetch then
      some (address, pageSize)
    else
      none
| _ => none

/- The page of the translation that is filled in. -/
def filled (t : Tlb σ) : TlbOp → Option (BitVec 64 × Nat)
| .fill address pageSize _ =>
    if t.supportsPageSize pageSize &&
        t.config.allocateOnMiss && !t.config.prefetch then
      some (address, pageSize)
    else
      none
| _ => none

/- The block that an insertion evicts. -/
def victimOf (old : TlbBlock) : Option TlbBlock :=
  if old.isValid then some old else none

/- An allocation that is not made for the queue. -/
theorem allocate_cases
    {out : Option TlbBlock}
    (hAllocate : t.allocate address pageSize ppn false =
      some (out, t')) :
    (t.config.prefetch = true ∧ out = none ∧ t' = t) ∨
      (t.config.prefetch = false ∧
        ∃ way old, Inserts t address pageSize ppn way old t' ∧
          out = victimOf old) := by
  unfold allocate at hAllocate
  cases hPrefetch : t.config.prefetch with
  | true =>
      simp only [hPrefetch, Bool.not_false, Bool.and_true,
        if_true, Option.some.injEq, Prod.mk.injEq] at hAllocate
      exact Or.inl ⟨rfl, hAllocate.1.symm, hAllocate.2.symm⟩
  | false =>
      simp only [hPrefetch, Bool.false_and,
        Bool.false_eq_true, if_false] at hAllocate
      exact Or.inr ⟨rfl, insertSingleLineTLB_spec hAllocate⟩

/- What is inserted, and where. -/
structure Takes
    (t : Tlb σ)
    (op : TlbOp)
    (address : BitVec 64)
    (pageSize : Nat) : Prop where
  page : t.offered op = some (address, pageSize) ∨
    t.filled op = some (address, pageSize)
  supports : t.config.prefetch = false →
    pageSize ∈ t.config.pageSizes

/- Every operation inserts a page or changes no block. -/
theorem exec_cases
    {op : TlbOp}
    {out : Option TlbBlock}
    (hExec : t.exec op = some (out, t')) :
    (t.offered op = none ∧ t.filled op = none ∧
        t'.sets = t.sets ∧ t'.config = t.config ∧
        (out = none ∨ ∃ address, op = .access address)) ∨
      ∃ address pageSize ppn way old,
        Takes t op address pageSize ∧
          Inserts t address pageSize ppn way old t' ∧
          out = victimOf old := by
  cases op with
  | materialize now pick =>
      simp only [exec] at hExec
      split_ifs at hExec with hPrefetch
      · unfold materialize at hExec
        cases hDue : dueEntry t.queue now pick with
        | none =>
            simp only [hDue, Option.some.injEq,
              Prod.mk.injEq] at hExec
            left
            rw [← hExec.2]
            exact ⟨by simp [offered, hDue], rfl, rfl, rfl,
              Or.inl hExec.1.symm⟩
        | some e =>
            simp only [hDue, allocate, Bool.not_true,
              Bool.and_false, Bool.false_eq_true,
              if_false] at hExec
            rcases insertSingleLineTLB_spec hExec with
              ⟨way, old, hInserts, hOut⟩
            right
            refine ⟨e.address, e.pageSize, e.ppn, way, old,
              ⟨Or.inl ?_, ?_⟩,
              ⟨hInserts.chosen, hInserts.before,
                hInserts.after, hInserts.config,
                hInserts.policy⟩, hOut⟩
            · simp [offered, hPrefetch, hDue]
            · intro hPlain
              rw [hPrefetch] at hPlain
              cases hPlain
      · simp only [Option.some.injEq, Prod.mk.injEq] at hExec
        left
        rw [← hExec.2]
        exact ⟨by simp [offered, hPrefetch], rfl, rfl, rfl,
          Or.inl hExec.1.symm⟩
  | access address =>
      left
      have hNext : (t.accessSingleLineTLB address).2 = t' :=
        congrArg Prod.snd (Option.some.inj hExec)
      rcases accessSingleLineTLB_kept t address with
        ⟨hSets, hConfig, -⟩
      rw [hNext] at hSets hConfig
      exact ⟨rfl, rfl, hSets, hConfig, Or.inr ⟨address, rfl⟩⟩
  | enqueue outputs =>
      left
      rcases enqueue_kept t outputs with ⟨hSets, hConfig, -⟩
      simp only [exec] at hExec
      split_ifs at hExec
      · simp only [Option.some.injEq, Prod.mk.injEq] at hExec
        rw [← hExec.2]
        exact ⟨rfl, rfl, hSets, hConfig, Or.inl hExec.1.symm⟩
      · simp only [Option.some.injEq, Prod.mk.injEq] at hExec
        rw [← hExec.2]
        exact ⟨rfl, rfl, rfl, rfl, Or.inl hExec.1.symm⟩
  | push address pageSize ppn =>
      simp only [exec] at hExec
      split_ifs at hExec with hSupports
      · rcases allocate_cases hExec with
          ⟨hPrefetch, hNone, hSame⟩ |
            ⟨hPlain, way, old, hInserts, hOut⟩
        · left
          rw [hSame]
          exact ⟨by simp [offered, hPrefetch], rfl, rfl, rfl,
            Or.inl hNone⟩
        · right
          refine ⟨address, pageSize, ppn, way, old,
            ⟨Or.inl ?_, fun _ => ?_⟩, hInserts, hOut⟩
          · simp [offered, hSupports, hPlain]
          · simpa [supportsPageSize] using hSupports
      · simp only [Option.some.injEq, Prod.mk.injEq] at hExec
        left
        rw [← hExec.2]
        exact ⟨by simp [offered, hSupports], rfl, rfl, rfl,
          Or.inl hExec.1.symm⟩
  | fill address pageSize ppn =>
      simp only [exec] at hExec
      split_ifs at hExec with hFills
      · rcases allocate_cases hExec with
          ⟨hPrefetch, hNone, hSame⟩ |
            ⟨hPlain, way, old, hInserts, hOut⟩
        · left
          rw [hSame]
          exact ⟨rfl, by simp [filled, hPrefetch], rfl, rfl,
            Or.inl hNone⟩
        · right
          refine ⟨address, pageSize, ppn, way, old,
            ⟨Or.inr ?_, fun _ => ?_⟩, hInserts, hOut⟩
          · simp [filled, hFills, hPlain]
          · rw [Bool.and_eq_true] at hFills
            simpa [supportsPageSize] using hFills.1
      · simp only [Option.some.injEq, Prod.mk.injEq] at hExec
        left
        rw [← hExec.2]
        exact ⟨rfl, by simp [filled, hFills], rfl, rfl,
          Or.inl hExec.1.symm⟩

theorem Unique.of_sets
    (hUnique : Unique t)
    (hSets : t'.sets = t.sets) :
    Unique t' := by
  intro k l i j b c hB hC
  rw [blockAt, hSets] at hB hC
  exact hUnique k l i j b c hB hC

/- A new TLB holds no page. -/
theorem unique_construct
    {config : TlbConfig}
    {policy : Replacement σ}
    {replacement : σ}
    (hConstruct : construct config policy replacement = some t) :
    Unique t := by
  intro k l i j b c hB hC hValid
  rw [blockAt_construct hConstruct hB] at hValid
  cases hValid

end Tlb

namespace Mmu

variable {σ : Type} {h h' : TlbSubsystem σ} {o : Op}

/- Every TLB of the hierarchy has the property. -/
def Each (P : Tlb σ → Prop) (h : TlbSubsystem σ) : Prop :=
  ∀ i j t, tlbAt h i j = some t → P t

/-
  A victim that is pushed, or a prefetched page, is not held
  by the TLB in another way than the one that is replaced.
-/
def OffersFresh (h : TlbSubsystem σ) (o : Op) : Prop :=
  ∀ t ∈ tlbAt h o.level o.index,
    ∀ p ∈ t.offered o.op, t.Fresh p.1 p.2

/- The same for the page of the translation. -/
def FillsFresh (h : TlbSubsystem σ) (o : Op) : Prop :=
  ∀ t ∈ tlbAt h o.level o.index,
    ∀ p ∈ t.filled o.op, t.Fresh p.1 p.2

instance
    (h : TlbSubsystem σ)
    (o : Op) :
    Decidable (OffersFresh h o) :=
  inferInstanceAs (Decidable (∀ t ∈ tlbAt h o.level o.index, _))

/- The TLBs hold every page once. -/
structure Inv (h : TlbSubsystem σ) : Prop where
  shaped : Each Tlb.Shaped h
  unique : Each Tlb.Unique h

/- A property that the operation gives its TLB. -/
theorem Each.step
    {P : Tlb σ → Prop}
    (hEach : Each P h)
    (hStep : step h o = some h')
    (hOwn : ∀ t t' out, tlbAt h o.level o.index = some t →
      t.exec o.op = some (out, t') → P t') :
    Each P h' := by
  rcases tlbAt_step hStep with
    ⟨t, t', out, hAt, hOp, hAfter⟩
  intro i j t₁ hAt₁
  rw [hAfter] at hAt₁
  split_ifs at hAt₁ with hSame
  · cases hAt₁
    exact hOwn t t' out hAt hOp
  · exact hEach i j t₁ hAt₁

theorem shaped_step
    (hShaped : Each Tlb.Shaped h)
    (hStep : step h o = some h') :
    Each Tlb.Shaped h' := by
  refine hShaped.step hStep ?_
  intro t t' out hAt hOp
  have hOld := hShaped _ _ t hAt
  rcases Tlb.exec_cases hOp with
    ⟨-, -, hSets, hConfig, -⟩ |
      ⟨address, pageSize, ppn, way, old, hTakes, hInserts, -⟩
  · exact hOld.of_sets hSets hConfig
  · exact hInserts.shaped hOld hTakes.supports

/- An operation with a fresh page keeps the invariant. -/
theorem inv_step
    (hInv : Inv h)
    (hFills : FillsFresh h o)
    (hOffers : OffersFresh h o)
    (hStep : step h o = some h') :
    Inv h' := by
  refine ⟨shaped_step hInv.shaped hStep, ?_⟩
  refine hInv.unique.step hStep ?_
  intro t t' out hAt hOp
  have hUnique := hInv.unique _ _ t hAt
  rcases Tlb.exec_cases hOp with
    ⟨-, -, hSets, -⟩ |
      ⟨address, pageSize, ppn, way, old, hTakes, hInserts, -⟩
  · exact hUnique.of_sets hSets
  · rw [hInserts.unique_iff (hInv.shaped _ _ t hAt) hUnique]
    rcases hTakes.page with hOffered | hFilled
    · exact hOffers t hAt _ hOffered
    · exact hFills t hAt _ hFilled

/- Any other page has two blocks afterwards. -/
theorem not_unique_of_step
    (hInv : Inv h)
    (hStale : ¬ OffersFresh h o)
    (hStep : step h o = some h') :
    ¬ Each Tlb.Unique h' := by
  intro hUnique'
  apply hStale
  intro t hAt p hOffered
  rcases tlbAt_step hStep with
    ⟨t₁, t', out, hAt₁, hOp, hAfter⟩
  have hSame : t₁ = t :=
    Option.some.inj (hAt₁.symm.trans hAt)
  subst hSame
  have hUnique := hInv.unique _ _ t₁ hAt
  have hNext : t'.Unique := by
    apply hUnique' o.level o.index t'
    rw [hAfter, if_pos ⟨rfl, rfl⟩]
  rcases Tlb.exec_cases hOp with
    ⟨hNone, -, -, -⟩ |
      ⟨address, pageSize, ppn, way, old, hTakes, hInserts, -⟩
  · rw [hNone] at hOffered
    cases hOffered
  · have hFresh := (hInserts.unique_iff
      (hInv.shaped _ _ t₁ hAt) hUnique).mp hNext
    rcases hTakes.page with hThis | hFilled
    · rw [hThis] at hOffered
      cases hOffered
      exact hFresh
    · -- no operation both offers and fills
      cases hOp' : o.op with
      | fill a n f => simp [hOp', Tlb.offered] at hOffered
      | materialize now pick =>
          simp [hOp', Tlb.filled] at hFilled
      | access a => simp [hOp', Tlb.filled] at hFilled
      | enqueue outputs =>
          simp [hOp', Tlb.filled] at hFilled
      | push a n f => simp [hOp', Tlb.filled] at hFilled

end Mmu

end Virtuoso
