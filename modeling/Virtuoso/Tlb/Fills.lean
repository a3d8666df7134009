import Virtuoso.Tlb.Cascade

/-
  What the fill loops of the MMU designs leave in the TLBs.

  A fill has an outcome, keeps what the TLBs may hold, and
  changes only the TLBs of the levels that it visits. After a
  miss, it changes nothing exactly if no TLB takes the page.

  Main declarations:
    * `MmuDesign.allocateLevels_fills`
    * `MmuDesign.allocateLevels_changes`
-/

namespace Virtuoso

namespace MmuDesign

open Mmu (tlbAt setTlb onPath indices)
open Mmu (Fill Request Each SamePlaces blockAtPlace)

variable {σ : Type}
variable {ok : Nat → σ → Prop} {Q : TlbBlock → Prop}
variable {t t' : Tlb σ} {h h' h'' : TlbSubsystem σ}
variable {P P' : Nat → Nat → Prop} {level index : Nat}

------------------------------------------------------------
-- Fills
------------------------------------------------------------

/- Only the TLBs at the given places can differ. -/
structure FillsAt
    (ok : Nat → σ → Prop)
    (Q : TlbBlock → Prop)
    (P : Nat → Nat → Prop)
    (h h' : TlbSubsystem σ) : Prop where
  each : Each (Tlb.Contents ok Q) h'
  places : SamePlaces h h'
  frame : ∀ i j, ¬ P i j → tlbAt h' i j = tlbAt h i j

theorem FillsAt.refl
    (hEach : Each (Tlb.Contents ok Q) h) :
    FillsAt ok Q P h h :=
  ⟨hEach, fun _ _ => rfl, fun _ _ _ => rfl⟩

theorem FillsAt.trans
    (hFirst : FillsAt ok Q P h h')
    (hSecond : FillsAt ok Q P h' h'') :
    FillsAt ok Q P h h'' :=
  ⟨hSecond.each, hFirst.places.trans hSecond.places,
    fun i j hOut => (hSecond.frame i j hOut).trans
      (hFirst.frame i j hOut)⟩

theorem FillsAt.mono
    (hFills : FillsAt ok Q P h h')
    (hSub : ∀ i j, P i j → P' i j) :
    FillsAt ok Q P' h h' :=
  ⟨hFills.each, hFills.places, fun i j hOut =>
    hFills.frame i j (fun hIn => hOut (hSub i j hIn))⟩

/- The victims of some insertions. -/
def Evicts
    (Q : TlbBlock → Prop)
    (es : List Insertion) : Prop :=
  ∀ v ∈ evictedTranslations es, Tlb.Carried Q v

theorem evicts_nil :
    Evicts Q [] :=
  fun _ hMem => absurd hMem List.not_mem_nil

theorem Evicts.append
    {es es' : List Insertion}
    (hFirst : Evicts Q es)
    (hSecond : Evicts Q es') :
    Evicts Q (es ++ es') := by
  intro v hMem
  rw [evictedTranslations_append] at hMem
  rcases List.mem_append.mp hMem with hLeft | hRight
  · exact hFirst v hLeft
  · exact hSecond v hRight

theorem allocateAt_fills
    (isVictim : Bool)
    {address : BitVec 64}
    {pageSize ppn : Nat}
    (hEach : Each (Tlb.Contents ok Q) h)
    (hAt : (tlbAt h level index).isSome)
    (hNew : Q ⟨Tlb.tagOf address pageSize, pageSize, ppn, true⟩) :
    ∃ es h', allocateAt h level index isVictim address
        pageSize ppn = some (es, h') ∧
      FillsAt ok Q (fun i j => i = level ∧ j = index) h h' ∧
        Evicts Q es := by
  rcases Option.isSome_iff_exists.mp hAt with ⟨t, hTlb⟩
  rcases (hEach _ _ t hTlb).allocate hNew with
    ⟨out, t', hAllocate, hContents, hOut⟩
  have hAfter := Mmu.tlbAt_setTlb hTlb t'
  have hCall : allocateAt h level index isVictim address
      pageSize ppn = some
        (if t.config.prefetch then []
          else [⟨index, isVictim, address, pageSize, ppn,
            out⟩], setTlb h level index t') := by
    simp only [allocateAt, hTlb, Option.bind_some, hAllocate,
      Option.map_some]
  refine ⟨_, _, hCall, ⟨?_, ?_, ?_⟩, ?_⟩
  · intro i j t₁ hAt₁
    rw [hAfter] at hAt₁
    split_ifs at hAt₁ with hHere
    · rw [← Option.some.inj hAt₁]
      exact hContents
    · exact hEach i j t₁ hAt₁
  · intro i j
    rw [hAfter]
    split_ifs with hHere
    · rw [hHere.1, hHere.2, hTlb]
      rfl
    · rfl
  · intro i j hOther
    rw [hAfter, if_neg hOther]
  · intro v hMem
    rcases List.mem_filterMap.mp hMem with ⟨e, hIn, hVictim⟩
    split_ifs at hIn
    · cases hIn
    · rw [List.mem_singleton.mp hIn] at hVictim
      exact hOut v hVictim

variable {victims : List TlbBlock}

theorem pushVictims_fills
    (D : MmuDesign)
    (f : Fill)
    (hEach : Each (Tlb.Contents ok Q) h)
    (hAt : (tlbAt h level index).isSome)
    (hVictims : ∀ v ∈ victims, Tlb.Carried Q v) :
    ∃ es h', pushVictims D f level index victims h = some (es, h') ∧
      FillsAt ok Q (fun i j => i = level ∧ j = index) h h' ∧
        Evicts Q es := by
  induction victims generalizing h with
  | nil => exact ⟨[], h, rfl, .refl hEach, evicts_nil⟩
  | cons v rest ih =>
      rcases Option.isSome_iff_exists.mp hAt with ⟨t, hTlb⟩
      have hOwn := hVictims v List.mem_cons_self
      have hBlock : (⟨Tlb.tagOf (v.tag <<< v.pageSize)
          v.pageSize, v.pageSize, v.ppn, true⟩ : TlbBlock) = v := by
        rw [show Tlb.tagOf (v.tag <<< v.pageSize) v.pageSize =
          v.tag from hOwn.fits, ← hOwn.shared]
      have hFirst : ∃ es h₁,
          (if t.supportsPageSize (D.testedSize f v) then
            allocateAt h level index true
              (v.tag <<< v.pageSize) v.pageSize v.ppn
          else
            some ([], h)) = some (es, h₁) ∧
          FillsAt ok Q (fun i j => i = level ∧ j = index) h h₁ ∧
            Evicts Q es := by
        split_ifs
        · refine allocateAt_fills true hEach hAt ?_
          rw [hBlock]
          exact hOwn.prop
        · exact ⟨[], h, rfl, .refl hEach, evicts_nil⟩
      rcases hFirst with ⟨es, h₁, hCall, hFills, hEvicts⟩
      rcases ih hFills.each (by rw [hFills.places]; exact hAt)
          (fun v' hMem => hVictims v'
            (List.mem_cons_of_mem _ hMem)) with
        ⟨es', h', hRest, hFills', hEvicts'⟩
      refine ⟨es ++ es', h', ?_, hFills.trans hFills',
        hEvicts.append hEvicts'⟩
      simp only [pushVictims, hTlb, Option.bind_some, hCall,
        hRest, Option.map_some]

variable {f : Fill}

theorem fillTlb_fills
    (hEach : Each (Tlb.Contents ok Q) h)
    (hAt : (tlbAt h level index).isSome)
    (hFill : Q f.block) :
    ∃ es h', fillTlb f level index h = some (es, h') ∧
      FillsAt ok Q (fun i j => i = level ∧ j = index) h h' ∧
        Evicts Q es := by
  rcases Option.isSome_iff_exists.mp hAt with ⟨t, hTlb⟩
  simp only [fillTlb, hTlb, Option.bind_some]
  split_ifs
  · exact allocateAt_fills false hEach hAt hFill
  · exact ⟨[], h, rfl, .refl hEach, evicts_nil⟩

theorem allocateLevel_fills
    (D : MmuDesign)
    (r : Request)
    (places : List Nat)
    (hEach : Each (Tlb.Contents ok Q) h)
    (hPlaces : ∀ index ∈ places, (tlbAt h level index).isSome)
    (hFill : Q f.block)
    (hVictims : ∀ v ∈ victims, Tlb.Carried Q v) :
    ∃ es h', allocateLevel D r f level victims places h =
        some (es, h') ∧
      FillsAt ok Q (fun i j => i = level ∧ j ∈ places) h h' ∧
        Evicts Q es := by
  induction places generalizing h with
  | nil => exact ⟨[], h, rfl, .refl hEach, evicts_nil⟩
  | cons index rest ih =>
      have hAt := hPlaces index List.mem_cons_self
      rcases Option.isSome_iff_exists.mp hAt with ⟨t, hTlb⟩
      have hSub : ∀ i j, i = level ∧ j ∈ rest →
          i = level ∧ j ∈ index :: rest :=
        fun i j hIn => ⟨hIn.1, List.mem_cons_of_mem _ hIn.2⟩
      have hHere : ∀ i j, i = level ∧ j = index →
          i = level ∧ j ∈ index :: rest := by
        intro i j hIn
        rw [hIn.2]
        exact ⟨hIn.1, List.mem_cons_self⟩
      have hRest : ∀ {h₁ : TlbSubsystem σ},
          SamePlaces h h₁ → ∀ i ∈ rest,
            (tlbAt h₁ level i).isSome := by
        intro h₁ hSame i hMem
        rw [hSame]
        exact hPlaces i (List.mem_cons_of_mem _ hMem)
      cases hVisits : D.visits r t with
      | true =>
          rcases pushVictims_fills D f hEach hAt hVictims with
            ⟨es, h₁, hPush, hFills₁, hEvicts₁⟩
          rcases fillTlb_fills hFills₁.each
              (by rw [hFills₁.places]; exact hAt) hFill with
            ⟨es', h₂, hFilled, hFills₂, hEvicts₂⟩
          have hBoth := hFills₁.trans hFills₂
          rcases ih hBoth.each (hRest hBoth.places) with
            ⟨es'', h', hCall, hFills', hEvicts'⟩
          refine ⟨es ++ (es' ++ es''), h', ?_,
            (hBoth.mono hHere).trans (hFills'.mono hSub),
            hEvicts₁.append (hEvicts₂.append hEvicts')⟩
          simp only [allocateLevel, hTlb, Option.bind_some,
            hVisits, if_true, hPush, hFilled, hCall,
            Option.map_some]
      | false =>
          rcases ih hEach (hRest (fun _ _ => rfl)) with
            ⟨es, h', hCall, hFills, hEvicts⟩
          refine ⟨es, h', ?_, hFills.mono hSub, hEvicts⟩
          simp only [allocateLevel, hTlb, Option.bind_some,
            hVisits, Bool.false_eq_true, if_false, hCall]

/- A fill has an outcome and keeps what the TLBs may hold. -/
theorem allocateLevels_fills
    (D : MmuDesign)
    (r : Request)
    (levels : List Nat)
    (hEach : Each (Tlb.Contents ok Q) h)
    (hFill : Q f.block)
    (hVictims : ∀ v ∈ victims, Tlb.Carried Q v) :
    ∃ out h', allocateLevels D r f levels victims h =
        some (out, h') ∧
      FillsAt ok Q (fun i _ => i ∈ levels) h h' := by
  induction levels generalizing h victims with
  | nil => exact ⟨[], h, rfl, .refl hEach⟩
  | cons level rest ih =>
      rcases allocateLevel_fills D r (indices h level) hEach
          (fun _ hMem => Mmu.isSome_of_mem_indices hMem)
          hFill hVictims with
        ⟨es, h₁, hCall, hFills₁, hEvicts⟩
      rcases ih hFills₁.each hEvicts with
        ⟨out, h', hRest, hFills'⟩
      refine ⟨es :: out, h', ?_, (hFills₁.mono ?_).trans
        (hFills'.mono ?_)⟩
      · simp only [allocateLevels, hCall, Option.bind_some,
          hRest, Option.map_some]
      · intro i j hIn
        rw [hIn.1]
        exact List.mem_cons_self
      · intro i j hIn
        exact List.mem_cons_of_mem _ hIn

------------------------------------------------------------
-- What A Fill Changes
------------------------------------------------------------

/- The translation of a page goes to the TLB. -/
def takes (pageSize : Nat) (t : Tlb σ) : Bool :=
  t.supportsPageSize pageSize && t.config.allocateOnMiss &&
    !t.config.prefetch

theorem tagOf_ne_allOnes
    {pageSize : Nat}
    (hSize : 0 < pageSize)
    (address : BitVec 64) :
    Tlb.tagOf address pageSize ≠ BitVec.allOnes 64 := by
  intro hEq
  have hNat := congrArg BitVec.toNat hEq
  rw [Tlb.tagOf, BitVec.toNat_ushiftRight,
    Nat.shiftRight_eq_div_pow, BitVec.toNat_allOnes] at hNat
  have hTwo : 2 ^ 1 ≤ 2 ^ pageSize :=
    Nat.pow_le_pow_right (by decide) hSize
  have hHalf : address.toNat / 2 ^ pageSize ≤
      address.toNat / 2 ^ 1 :=
    Nat.div_le_div_left hTwo (by decide)
  have hLt := address.isLt
  omega

/- The insertion of a page that was missed is seen. -/
theorem sets_ne_of_insert
    {address : BitVec 64}
    {pageSize ppn : Nat}
    {out : Option TlbBlock}
    (hContents : Tlb.Contents ok Q t)
    (hMiss : (t.accessSingleLineTLB address).1 = none)
    (hSupports : t.supportsPageSize pageSize = true)
    (hSize : 0 < pageSize)
    (hInsert : t.insertSingleLineTLB address pageSize ppn =
      some (out, t')) :
    t'.sets ≠ t.sets := by
  intro hSame
  rcases Tlb.insertSingleLineTLB_spec hInsert with
    ⟨way, old, hInserts, -⟩
  have hNew := hInserts.after
    (t.setIndex (Tlb.tagOf address pageSize)) way
  rw [if_pos ⟨rfl, rfl⟩, Tlb.blockAt, hSame] at hNew
  have hMem : pageSize ∈ t.config.pageSizes :=
    List.contains_iff_mem.mp hSupports
  refine hContents.placed.not_holds_of_find
    (Tlb.find_of_access hMiss) pageSize hMem
    ⟨_, way, _, hNew, ?_, ?_⟩
  · exact TlbBlock.isValid_iff.mpr (tagOf_ne_allOnes hSize address)
  · exact TlbBlock.isFor_iff.mpr ⟨rfl, rfl⟩

theorem setTlb_self
    (hAt : tlbAt h level index = some t) :
    setTlb h level index t = h := by
  rcases Option.bind_eq_some_iff.mp hAt with
    ⟨tlbs, hLevel, hIndex⟩
  rcases List.getElem?_eq_some_iff.mp hIndex with
    ⟨hLt, hGet⟩
  refine List.ext_getElem? (fun k => ?_)
  rw [setTlb, List.getElem?_modify]
  by_cases hHere : level = k
  · subst hHere
    rw [hLevel, ← hGet]
    simp
  · cases h[k]? with
    | none => rfl
    | some _ => simp [hHere]

variable {D : MmuDesign} {r : Request} {f : Fill}

/- A TLB at one of the places took the page and differs. -/
def Changed
    (r : Request)
    (pageSize : Nat)
    (P : Nat → Nat → Prop)
    (h h' : TlbSubsystem σ) : Prop :=
  ∃ i j t t', P i j ∧ tlbAt h i j = some t ∧
    onPath r t = true ∧ takes pageSize t = true ∧
      tlbAt h' i j = some t' ∧ t'.sets ≠ t.sets

/- Nothing was hit, so the page goes to all levels. -/
structure Walked (r : Request) (f : Fill) : Prop where
  address : f.address = r.address
  hitLevel : f.hitLevel = none
  pageSize : 0 < f.pageSize

variable {es : List Insertion}

/- The page goes to one TLB, or it stays as it is. -/
theorem fillTlb_changes
    (hWalked : Walked r f)
    (hEach : Each (Tlb.Contents ok Q) h)
    (hAt : tlbAt h level index = some t)
    (hPath : onPath r t = true)
    (hMissed : blockAtPlace r h level index = none)
    (hCall : fillTlb f level index h = some (es, h')) :
    (takes f.pageSize t = false ∧ es = [] ∧ h' = h) ∨
      (takes f.pageSize t = true ∧
        ∃ t', tlbAt h' level index = some t' ∧
          t'.sets ≠ t.sets) := by
  have hReaches : f.reaches level = true := by
    rw [Fill.reaches, hWalked.hitLevel]
    rfl
  rw [blockAtPlace, hAt, Option.bind_some, Mmu.blockFor,
    if_pos hPath, ← hWalked.address] at hMissed
  simp only [fillTlb, hAt, Option.bind_some, hReaches,
    Bool.and_true] at hCall
  unfold takes
  cases hTest : (t.supportsPageSize f.pageSize &&
      t.config.allocateOnMiss) with
  | false =>
      simp only [hTest, Bool.false_eq_true, if_false,
        Option.some.injEq, Prod.mk.injEq] at hCall
      exact Or.inl ⟨rfl, hCall.1.symm, hCall.2.symm⟩
  | true =>
      simp only [hTest, if_true, allocateAt, hAt,
        Option.bind_some] at hCall
      rcases Option.map_eq_some_iff.mp hCall with
        ⟨⟨out, t'⟩, hAllocate, hEq⟩
      rw [Prod.mk.injEq] at hEq
      unfold Tlb.allocate at hAllocate
      cases hPrefetch : t.config.prefetch with
      | true =>
          simp only [hPrefetch, Bool.not_false, Bool.and_true,
            if_true, Option.some.injEq,
            Prod.mk.injEq] at hAllocate hEq
          rw [← hAllocate.2, setTlb_self hAt] at hEq
          exact Or.inl ⟨rfl, hEq.1.symm, hEq.2.symm⟩
      | false =>
          simp only [hPrefetch, Bool.false_and,
            Bool.false_eq_true, if_false] at hAllocate hEq
          refine Or.inr ⟨rfl, t', ?_, ?_⟩
          · rw [← hEq.2, Mmu.tlbAt_setTlb hAt, if_pos ⟨rfl, rfl⟩]
          · exact sets_ne_of_insert (hEach _ _ t hAt) hMissed
              (Bool.and_eq_true_iff.mp hTest).1
              hWalked.pageSize hAllocate

theorem Changed.mono
    {pageSize : Nat}
    (hChanged : Changed r pageSize P h h')
    (hSub : ∀ i j, P i j → P' i j) :
    Changed r pageSize P' h h' := by
  rcases hChanged with ⟨i, j, t, t', hIn, hRest⟩
  exact ⟨i, j, t, t', hSub i j hIn, hRest⟩

/- Later fills at other places leave the change. -/
theorem Changed.frame
    {pageSize : Nat}
    (hChanged : Changed r pageSize P h h')
    (hFrame : ∀ i j, P i j → tlbAt h'' i j = tlbAt h' i j) :
    Changed r pageSize P h h'' := by
  rcases hChanged with
    ⟨i, j, t, t', hIn, hAt, hPath, hTakes, hAt', hSets⟩
  refine ⟨i, j, t, t', hIn, hAt, hPath, hTakes, ?_, hSets⟩
  rw [hFrame i j hIn]
  exact hAt'

/- Without victims, the first TLB that takes the page differs. -/
theorem allocateLevel_changes
    (hWalked : Walked r f)
    (hVisits : ∀ t : Tlb σ, D.visits r t = onPath r t)
    (places : List Nat)
    (hNodup : places.Nodup)
    (hEach : Each (Tlb.Contents ok Q) h)
    (hPlaces : ∀ index ∈ places, (tlbAt h level index).isSome)
    (hMissed : ∀ index, blockAtPlace r h level index = none)
    (hBlock : Q f.block)
    (hCall : allocateLevel D r f level [] places h =
      some (es, h')) :
    (es = [] ∧ h' = h ∧ ∀ index ∈ places, ∀ t,
      tlbAt h level index = some t → onPath r t = true →
        takes f.pageSize t = false) ∨
      Changed r f.pageSize
        (fun i j => i = level ∧ j ∈ places) h h' := by
  have hNoVictims : ∀ v ∈ ([] : List TlbBlock), Tlb.Carried Q v :=
    fun _ hMem => absurd hMem List.not_mem_nil
  induction places generalizing es h' with
  | nil =>
      simp only [allocateLevel, Option.some.injEq,
        Prod.mk.injEq] at hCall
      exact Or.inl ⟨hCall.1.symm, hCall.2.symm,
        fun _ hMem => absurd hMem List.not_mem_nil⟩
  | cons index rest ih =>
      have hAt := hPlaces index List.mem_cons_self
      rcases Option.isSome_iff_exists.mp hAt with ⟨t, hTlb⟩
      rcases List.nodup_cons.mp hNodup with ⟨hNotIn, hRest⟩
      have hPlaces' : ∀ i ∈ rest, (tlbAt h level i).isSome :=
        fun i hMem => hPlaces i (List.mem_cons_of_mem _ hMem)
      have hSub : ∀ i j, i = level ∧ j ∈ rest →
          i = level ∧ j ∈ index :: rest :=
        fun i j hIn => ⟨hIn.1, List.mem_cons_of_mem _ hIn.2⟩
      have hHere : ∀ t₁, tlbAt h level index = some t₁ →
          t₁ = t := by
        intro t₁ hAt₁
        rw [hTlb] at hAt₁
        exact (Option.some.inj hAt₁).symm
      simp only [allocateLevel, hTlb, Option.bind_some,
        hVisits] at hCall
      cases hPath : onPath r t with
      | false =>
          simp only [hPath, Bool.false_eq_true, if_false] at hCall
          rcases ih hRest hPlaces' hCall with
            ⟨hNil, hSame, hNone⟩ | hChanged
          · refine Or.inl ⟨hNil, hSame, ?_⟩
            intro i hMem t₁ hAt₁ hPath₁
            rcases List.mem_cons.mp hMem with hFirst | hLater
            · subst hFirst
              rw [hHere t₁ hAt₁, hPath] at hPath₁
              cases hPath₁
            · exact hNone i hLater t₁ hAt₁ hPath₁
          · exact Or.inr (hChanged.mono hSub)
      | true =>
          simp only [hPath, if_true, pushVictims,
            Option.bind_some] at hCall
          rcases Option.bind_eq_some_iff.mp hCall with
            ⟨⟨es₁, h₁⟩, hFill, hLater⟩
          rcases Option.map_eq_some_iff.mp hLater with
            ⟨⟨es₂, h₂⟩, hLevel, hEq⟩
          simp only [List.nil_append, Prod.mk.injEq] at hEq
          have hEnd : h₂ = h' := hEq.2
          subst hEnd
          rcases fillTlb_changes hWalked hEach hTlb hPath
              (hMissed index) hFill with
            ⟨hTakes, hNil, hSame⟩ | ⟨hTakes, t', hAt', hSets⟩
          · subst hSame hNil
            rcases ih hRest hPlaces' hLevel with
              ⟨hNil, hSame, hNone⟩ | hChanged
            · refine Or.inl ⟨?_, hSame, ?_⟩
              · rw [← hEq.1, hNil]
                rfl
              · intro i hMem t₁ hAt₁ hPath₁
                rcases List.mem_cons.mp hMem with
                  hFirst | hLater'
                · subst hFirst
                  rw [hHere t₁ hAt₁]
                  exact hTakes
                · exact hNone i hLater' t₁ hAt₁ hPath₁
            · exact Or.inr (hChanged.mono hSub)
          · refine Or.inr ⟨level, index, t, t',
              ⟨rfl, List.mem_cons_self⟩, hTlb, hPath, hTakes,
              ?_, hSets⟩
            rcases fillTlb_fills hEach hAt hBlock with
              ⟨_, _, hFill', hFills₁, -⟩
            rw [hFill, Option.some.injEq, Prod.mk.injEq] at hFill'
            rw [← hFill'.2] at hFills₁
            rcases allocateLevel_fills D r rest hFills₁.each
                (fun i hMem => by
                  rw [hFills₁.places]
                  exact hPlaces' i hMem) hBlock hNoVictims with
              ⟨_, _, hLevel', hFills₂, -⟩
            rw [hLevel, Option.some.injEq, Prod.mk.injEq] at hLevel'
            rw [hLevel'.2, hFills₂.frame level index
              (fun hIn => hNotIn hIn.2)]
            exact hAt'

theorem allocateLevels_changes
    (hWalked : Walked r f)
    (hVisits : ∀ t : Tlb σ, D.visits r t = onPath r t)
    (levels : List Nat)
    (hNodup : levels.Nodup)
    (hEach : Each (Tlb.Contents ok Q) h)
    (hMissed : ∀ level index, blockAtPlace r h level index = none)
    (hBlock : Q f.block)
    {out : List (List Insertion)}
    (hCall : allocateLevels D r f levels [] h = some (out, h')) :
    (h' = h ∧ ∀ level ∈ levels, ∀ index t,
      tlbAt h level index = some t → onPath r t = true →
        takes f.pageSize t = false) ∨
      Changed r f.pageSize (fun i _ => i ∈ levels) h h' := by
  have hNoVictims : ∀ v ∈ ([] : List TlbBlock), Tlb.Carried Q v :=
    fun _ hMem => absurd hMem List.not_mem_nil
  induction levels generalizing out h' with
  | nil =>
      simp only [allocateLevels, Option.some.injEq,
        Prod.mk.injEq] at hCall
      exact Or.inl ⟨hCall.2.symm,
        fun _ hMem => absurd hMem List.not_mem_nil⟩
  | cons level rest ih =>
      rcases List.nodup_cons.mp hNodup with ⟨hNotIn, hRest⟩
      have hPlaces : ∀ index ∈ indices h level,
          (tlbAt h level index).isSome :=
        fun _ hMem => Mmu.isSome_of_mem_indices hMem
      rcases Option.bind_eq_some_iff.mp hCall with
        ⟨⟨es₁, h₁⟩, hLevel, hLater⟩
      rcases Option.map_eq_some_iff.mp hLater with
        ⟨⟨out₁, h₂⟩, hLevels, hEq⟩
      rw [Prod.mk.injEq] at hEq
      have hEnd : h₂ = h' := hEq.2
      subst hEnd
      rcases allocateLevel_changes hWalked hVisits
          (indices h level) List.nodup_range hEach hPlaces
          (hMissed level) hBlock hLevel with
        ⟨hNil, hSame, hNone⟩ | hChanged
      · subst hSame hNil
        rcases ih hRest hLevels with
          ⟨hSame, hNone'⟩ | hChanged
        · refine Or.inl ⟨hSame, ?_⟩
          intro i hMem index t hAt hPath
          rcases List.mem_cons.mp hMem with hFirst | hLater'
          · subst hFirst
            exact hNone index (Mmu.mem_indices hAt) t hAt hPath
          · exact hNone' i hLater' index t hAt hPath
        · exact Or.inr (hChanged.mono
            (fun i _ hIn => List.mem_cons_of_mem _ hIn))
      · rcases allocateLevel_fills D r (indices h level) hEach
            hPlaces hBlock hNoVictims with
          ⟨_, _, hLevel', hFills₁, hEvicts⟩
        rw [hLevel, Option.some.injEq, Prod.mk.injEq] at hLevel'
        rw [← hLevel'.2] at hFills₁
        rw [← hLevel'.1] at hEvicts
        rcases allocateLevels_fills D r rest hFills₁.each
            hBlock hEvicts with
          ⟨_, _, hLevels', hFills₂⟩
        rw [hLevels, Option.some.injEq, Prod.mk.injEq] at hLevels'
        rw [← hLevels'.2] at hFills₂
        have hFramed := hChanged.frame (fun i j hIn =>
          hFills₂.frame i j (fun hMem => by
            rw [hIn.1] at hMem
            exact hNotIn hMem))
        refine Or.inr (hFramed.mono (fun i j hIn => ?_))
        rw [hIn.1]
        exact List.mem_cons_self

end MmuDesign

end Virtuoso
