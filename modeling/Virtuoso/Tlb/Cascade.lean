import Virtuoso.Tlb.Contents
import Virtuoso.Tlb.Invalidation

/-
  Victims in the fill loops of the MMU designs, from `mmu.cc`,
  `mmu_spec.cc`, `mmu_virt.cc`, `mmu_pomtlb.cc`, `mmu_dmt.cc`
  and `mmu_hw_faults.cc`.

  The designs search the TLBs in the same way, and each has a
  copy of the loop that fills them. The copies differ in the
  page size that is tested before a victim is inserted, and in
  what they leave out when there are prefetch queues. What is
  filled in after a miss is given with the request: a walk, a
  nested walk or a software TLB found it.

  A fill loop lists the insertions of each level. A prefetch
  queue takes no demand entries, so it is no TLB that victims
  go to, and what is evicted from it while it is emptied is
  dropped.

  Main declarations:
    * `MmuDesign.cascades_run`
-/

------------------------------------------------------------
-- Tidy Hierarchies
------------------------------------------------------------

namespace Virtuoso

/- The designs with a loop over the levels. -/
inductive MmuDesign
  | base
  | spec
  | virt
  | pomTlb
  | dmt
  | hwFault
deriving DecidableEq

namespace MmuDesign

open Mmu (tlbAt setTlb onPath indices searchLevels fillOf)
open Mmu (Fill Request)

variable {σ : Type}

/- An insertion into a TLB of a level, and what it evicts. -/
structure Insertion where
  index : Nat
  isVictim : Bool
  address : BitVec 64
  pageSize : Nat
  ppn : Nat
  evicted : Option TlbBlock
deriving DecidableEq

/- `evicted_translations` of a level. -/
def evictedTranslations
    (insertions : List Insertion) : List TlbBlock :=
  insertions.filterMap Insertion.evicted

/- `allocate` of one of the TLBs; a queue inserts nothing. -/
def allocateAt
    (h : TlbSubsystem σ)
    (level index : Nat)
    (isVictim : Bool)
    (address : BitVec 64)
    (pageSize ppn : Nat) :
    Option (List Insertion × TlbSubsystem σ) :=
  (tlbAt h level index).bind (fun t =>
    (t.allocate address pageSize ppn false).map (fun r =>
      (if t.config.prefetch then
        []
      else
        [⟨index, isVictim, address, pageSize, ppn, r.1⟩],
      setTlb h level index r.2)))

/- The page size that is tested for a victim. -/
def testedSize
    (d : MmuDesign)
    (f : Fill)
    (v : TlbBlock) : Nat :=
  match d with
  | .spec => f.pageSize
  | _ => v.pageSize

/- The victims of the level above that go to a TLB. -/
def pushVictims
    (d : MmuDesign)
    (f : Fill)
    (level index : Nat) :
    List TlbBlock → TlbSubsystem σ →
      Option (List Insertion × TlbSubsystem σ)
| [], h => some ([], h)
| v :: rest, h =>
    (tlbAt h level index).bind (fun t =>
      (if t.supportsPageSize (d.testedSize f v) then
        allocateAt h level index true (v.tag <<< v.pageSize)
          v.pageSize v.ppn
      else
        some ([], h)).bind (fun first =>
          (pushVictims d f level index rest first.2).map
            (fun later => (first.1 ++ later.1, later.2))))

/- The current translation. -/
def fillTlb
    (f : Fill)
    (level index : Nat)
    (h : TlbSubsystem σ) :
    Option (List Insertion × TlbSubsystem σ) :=
  (tlbAt h level index).bind (fun t =>
    if t.supportsPageSize f.pageSize &&
        t.config.allocateOnMiss && f.reaches level then
      allocateAt h level index false f.address f.pageSize f.ppn
    else
      some ([], h))

/- The base MMU passes over prefetch queues. -/
def visits
    (d : MmuDesign)
    (r : Request)
    (t : Tlb σ) : Bool :=
  onPath r t && !(decide (d = .base) && t.config.prefetch)

/- The loop over the TLBs of a level. -/
def allocateLevel
    (d : MmuDesign)
    (r : Request)
    (f : Fill)
    (level : Nat)
    (victims : List TlbBlock) :
    List Nat → TlbSubsystem σ →
      Option (List Insertion × TlbSubsystem σ)
| [], h => some ([], h)
| index :: rest, h =>
    (tlbAt h level index).bind (fun t =>
      if d.visits r t then
        (pushVictims d f level index victims h).bind
          (fun pushed =>
            (fillTlb f level index pushed.2).bind
              (fun filled =>
                (allocateLevel d r f level victims rest
                    filled.2).map (fun later =>
                  (pushed.1 ++ (filled.1 ++ later.1), later.2))))
      else
        allocateLevel d r f level victims rest h)

/- The loop over the levels. -/
def allocateLevels
    (d : MmuDesign)
    (r : Request)
    (f : Fill) :
    List Nat → List TlbBlock → TlbSubsystem σ →
      Option (List (List Insertion) × TlbSubsystem σ)
| [], _, h => some ([], h)
| level :: rest, victims, h =>
    (allocateLevel d r f level victims (indices h level)
        h).bind (fun out =>
      (allocateLevels d r f rest
          (evictedTranslations out.1) out.2).map (fun later =>
        (out.1 :: later.1, later.2)))

/-
  `tlb_levels`: all designs but the base MMU leave out the
  last level when prefetching is enabled.
-/
def tlbLevels
    (d : MmuDesign)
    (prefetchEnabled : Bool)
    (levels : Nat) : Nat :=
  if d ≠ .base ∧ prefetchEnabled then levels - 1 else levels

/- `performAddressTranslation`, as far as the TLBs go. -/
def translate
    (d : MmuDesign)
    (prefetchEnabled : Bool)
    (h : TlbSubsystem σ)
    (r : Request) :
    Option (List (List Insertion) × TlbSubsystem σ) :=
  (searchLevels r (List.range h.length) ⟨h, []⟩).bind
    (fun out =>
      match fillOf r out.1 with
      | none => some ([], out.2.tlbs)
      | some f =>
          allocateLevels d r f
            (List.range (d.tlbLevels prefetchEnabled
              out.2.tlbs.length)) [] out.2.tlbs)

/- The hierarchy after a translation. -/
def step
    (d : MmuDesign)
    (prefetchEnabled : Bool)
    (h : TlbSubsystem σ)
    (r : Request) : Option (TlbSubsystem σ) :=
  (d.translate prefetchEnabled h r).map Prod.snd

/- The page that is inserted: its tag, size and frame. -/
def Insertion.page
    (e : Insertion) : BitVec 64 × Nat × Nat :=
  (Tlb.tagOf e.address e.pageSize, e.pageSize, e.ppn)

/- The page of a block. -/
def pageOf (b : TlbBlock) : BitVec 64 × Nat × Nat :=
  (b.tag, b.pageSize, b.ppn)

/- The victims that a TLB of a level takes, in order. -/
def taken
    (insertions : List Insertion)
    (index : Nat) : List (BitVec 64 × Nat × Nat) :=
  (insertions.filter (fun e =>
    e.isVictim && decide (e.index = index))).map Insertion.page

/- The TLBs of the path that take demand entries. -/
def takesDemand (r : Request) (t : Tlb σ) : Bool :=
  onPath r t && !t.config.prefetch

/-
  Each TLB of the path takes the victims of the level above
  whose page size it supports, and no other TLB takes any.
-/
def Cascades
    (h : TlbSubsystem σ)
    (r : Request)
    (levels : List (List Insertion)) : Prop :=
  (∀ index, taken (levels.getD 0 []) index = []) ∧
    ∀ level index t, tlbAt h (level + 1) index = some t →
      taken (levels.getD (level + 1) []) index =
        if takesDemand r t then
          ((evictedTranslations
            (levels.getD level [])).filter (fun v =>
              t.supportsPageSize v.pageSize)).map pageOf
        else
          []

/- Entries have a page size that their TLB supports. -/
def Sized (h : TlbSubsystem σ) : Prop :=
  ∀ i j t, tlbAt h i j = some t →
    ∀ set way b, t.blockAt set way = some b →
      b.isValid = true → t.supportsPageSize b.pageSize = true

/- Prefetched pages have a size that their queue supports. -/
def Prefetches (h : TlbSubsystem σ) (r : Request) : Prop :=
  ∀ i j t, tlbAt h i j = some t →
    t.config.prefetch = true →
      ∀ batch ∈ r.outputs i j, ∀ e ∈ batch,
        t.supportsPageSize e.pageSize = true

/-
  Prefetched pages have a size that their queue supports; a
  level that is left out has only prefetch queues; and in the
  speculative MMU a TLB supports all page sizes of a TLB in
  the level above, or none of them.
-/
structure Meets
    (d : MmuDesign)
    (prefetchEnabled : Bool)
    (h : TlbSubsystem σ)
    (r : Request) : Prop where
  prefetches : Prefetches h r
  lastLevel : d ≠ .base → prefetchEnabled = true →
    ∀ j t, tlbAt h (h.length - 1) j = some t →
      takesDemand r t = false
  agree : d = .spec → ∀ i j k t t',
    tlbAt h i j = some t → tlbAt h (i + 1) k = some t' →
      takesDemand r t = true → takesDemand r t' = true →
        ∀ a b, t.supportsPageSize a = true →
          t.supportsPageSize b = true →
            t'.supportsPageSize a = t'.supportsPageSize b

/- Blocks are in place and, like the queue, of known sizes. -/
structure Tidy (t : Tlb σ) : Prop extends Tlb.Placed t where
  sized : ∀ set way b, t.blockAt set way = some b →
    b.isValid = true → t.supportsPageSize b.pageSize = true
  queued : ∀ e ∈ t.queue, t.supportsPageSize e.pageSize = true

variable {t t' : Tlb σ}

theorem supportsPageSize_congr
    (hConfig : t'.config = t.config)
    (pageSize : Nat) :
    t'.supportsPageSize pageSize = t.supportsPageSize pageSize := by
  unfold Tlb.supportsPageSize
  rw [hConfig]

/- A change that leaves the blocks alone. -/
theorem Tidy.of_sets
    (hTidy : Tidy t)
    (hSets : t'.sets = t.sets)
    (hConfig : t'.config = t.config)
    (hQueue : ∀ e ∈ t'.queue,
      t.supportsPageSize e.pageSize = true) :
    Tidy t' := by
  refine ⟨hTidy.toPlaced.of_sets hSets hConfig, ?_, ?_⟩
  · intro set way b hBlock hValid
    rw [Tlb.blockAt, hSets] at hBlock
    rw [supportsPageSize_congr hConfig]
    exact hTidy.sized set way b hBlock hValid
  · intro e hMem
    rw [supportsPageSize_congr hConfig]
    exact hQueue e hMem

/- An insertion of a page of a size that is supported. -/
theorem Tidy.insert
    (hTidy : Tidy t)
    {address : BitVec 64}
    {pageSize ppn : Nat}
    {evicted : Option TlbBlock}
    (hSupports : t.supportsPageSize pageSize = true)
    (hInsert : t.insertSingleLineTLB address pageSize ppn =
      some (evicted, t')) :
    Tidy t' ∧ t'.config = t.config ∧
      ∀ v ∈ evicted, Tlb.TagFits v ∧
        t.supportsPageSize v.pageSize = true := by
  rcases Tlb.insertSingleLineTLB_spec hInsert with
    ⟨way, old, hInserts, hEvicted⟩
  have hQueue := Tlb.insertSingleLineTLB_queue hInsert
  refine ⟨⟨hInserts.placed hTidy.toPlaced, ?_, ?_⟩,
    hInserts.config, ?_⟩
  · intro k i b hBlock hValid
    rw [supportsPageSize_congr hInserts.config]
    rw [hInserts.after] at hBlock
    split_ifs at hBlock
    · cases hBlock
      exact hSupports
    · exact hTidy.sized k i b hBlock hValid
  · intro e hMem
    rw [supportsPageSize_congr hInserts.config]
    rw [hQueue] at hMem
    exact hTidy.queued e hMem
  · intro v hVictim
    rw [hEvicted] at hVictim
    split_ifs at hVictim with hValid
    · cases hVictim
      exact ⟨hTidy.fits_of_valid hInserts.before hValid,
        hTidy.sized _ _ old hInserts.before hValid⟩
    · cases hVictim

/- What the queue holds after the prefetchers were asked. -/
theorem mem_enqueue
    (outputs : List (List QueryEntry))
    {e : QueryEntry}
    (hMem : e ∈ (t.enqueue outputs).queue) :
    e ∈ t.queue ∨ ∃ batch ∈ outputs, e ∈ batch := by
  refine Tlb.enqueue_inv
    (P := fun t' => ∀ e ∈ t'.queue,
      e ∈ t.queue ∨ ∃ batch ∈ outputs, e ∈ batch)
    outputs ?_ (fun _ hOld => Or.inl hOld) e hMem
  intro t' new hKept _ hNew e hIn
  rcases List.mem_append.mp hIn with hOld | hLast
  · exact hKept e hOld
  · rw [List.mem_singleton.mp hLast]
    exact Or.inr hNew

/- A search operation keeps a TLB tidy. -/
theorem Tidy.exec
    (hTidy : Tidy t)
    {op : TlbOp}
    {out : Option TlbBlock}
    (hSearch : (∃ now pick, op = .materialize now pick) ∨
      (∃ address, op = .access address) ∨
      ∃ outputs, op = .enqueue outputs ∧
        (t.config.prefetch = true →
          ∀ batch ∈ outputs, ∀ e ∈ batch,
            t.supportsPageSize e.pageSize = true))
    (hExec : t.exec op = some (out, t')) :
    Tidy t' := by
  rcases hSearch with
    ⟨now, pick, hOp⟩ | ⟨address, hOp⟩ | ⟨outputs, hOp, hSizes⟩
  · subst hOp
    simp only [Tlb.exec] at hExec
    split_ifs at hExec
    · unfold Tlb.materialize at hExec
      cases hDue : Tlb.dueEntry t.queue now pick with
      | none =>
          simp only [hDue, Option.some.injEq,
            Prod.mk.injEq] at hExec
          rw [← hExec.2]
          exact hTidy
      | some e =>
          simp only [hDue, Tlb.allocate, Bool.not_true,
            Bool.and_false, Bool.false_eq_true,
            if_false] at hExec
          have hPopped : Tidy (t.popEntry e) :=
            hTidy.of_sets rfl rfl (fun e' hMem =>
              hTidy.queued e' (List.mem_of_mem_erase hMem))
          exact (hPopped.insert (hTidy.queued e
            (Tlb.mem_of_dueEntry hDue)) hExec).1
    · simp only [Option.some.injEq, Prod.mk.injEq] at hExec
      rw [← hExec.2]
      exact hTidy
  · subst hOp
    have hNext : (t.accessSingleLineTLB address).2 = t' :=
      congrArg Prod.snd (Option.some.inj hExec)
    rcases Tlb.accessSingleLineTLB_kept t address with
      ⟨hSets, hConfig, _, hQueue⟩
    rw [hNext] at hSets hConfig hQueue
    refine hTidy.of_sets hSets hConfig (fun e hMem => ?_)
    rw [hQueue] at hMem
    exact hTidy.queued e hMem
  · subst hOp
    simp only [Tlb.exec] at hExec
    split_ifs at hExec with hPrefetch
    · simp only [Option.some.injEq, Prod.mk.injEq] at hExec
      rcases Tlb.enqueue_kept t outputs with
        ⟨hSets, hConfig, _⟩
      rw [← hExec.2]
      refine hTidy.of_sets hSets hConfig (fun e hMem => ?_)
      rcases mem_enqueue outputs hMem with
        hOld | ⟨batch, hBatch, hIn⟩
      · exact hTidy.queued e hOld
      · exact hSizes hPrefetch batch hBatch e hIn
    · simp only [Option.some.injEq, Prod.mk.injEq] at hExec
      rw [← hExec.2]
      exact hTidy

/- The TLBs are those of another hierarchy, and tidy. -/
structure Within (h₀ h : TlbSubsystem σ) : Prop where
  length : h.length = h₀.length
  width : ∀ level, indices h level = indices h₀ level
  tlb : ∀ i j t', tlbAt h i j = some t' →
    Tidy t' ∧ ∃ t, tlbAt h₀ i j = some t ∧ t'.config = t.config

variable {h₀ h h' : TlbSubsystem σ} {level index : Nat}

theorem length_getD_modify
    {α : Type}
    (l : List (List α))
    (i : Nat)
    (f : List α → List α)
    (hLength : ∀ a, (f a).length = a.length)
    (k : Nat) :
    ((l.modify i f).getD k []).length = (l.getD k []).length := by
  rw [List.getD_eq_getElem?_getD, List.getElem?_modify,
    List.getD_eq_getElem?_getD]
  cases l[k]? with
  | none => rfl
  | some a =>
      simp only [Option.map_eq_map, Option.map_some,
        Option.getD_some]
      split_ifs
      · exact hLength a
      · rfl

theorem Within.setTlb
    (hWithin : Within h₀ h)
    (hAt : tlbAt h level index = some t)
    (hTidy : Tidy t')
    (hConfig : t'.config = t.config) :
    Within h₀ (Mmu.setTlb h level index t') := by
  refine ⟨?_, ?_, ?_⟩
  · rw [Mmu.setTlb, List.length_modify]
    exact hWithin.length
  · intro k
    rw [← hWithin.width k, indices, indices, Mmu.setTlb,
      length_getD_modify _ _ _ (fun tlbs => List.length_set)]
  · intro i j t₁ hAt₁
    rw [Mmu.tlbAt_setTlb hAt] at hAt₁
    split_ifs at hAt₁ with hSame
    · rw [← Option.some.inj hAt₁, hSame.1, hSame.2]
      rcases (hWithin.tlb level index t hAt).2 with
        ⟨t₀, hAt₀, hConfig₀⟩
      exact ⟨hTidy, t₀, hAt₀, hConfig.trans hConfig₀⟩
    · exact hWithin.tlb i j t₁ hAt₁

/- The TLBs of a hierarchy of new TLBs. -/
theorem within_new
    (hNew : ∀ i j t, tlbAt h i j = some t →
      ∃ config policy replacement,
        Tlb.construct config policy replacement = some t) :
    Within h h := by
  refine ⟨rfl, fun _ => rfl, fun i j t hAt => ⟨?_, t, hAt, rfl⟩⟩
  rcases hNew i j t hAt with
    ⟨config, policy, replacement, hConstruct⟩
  refine ⟨(Tlb.shaped_construct hConstruct).toPlaced, ?_, ?_⟩
  · intro set way b hBlock hValid
    rw [Tlb.blockAt_construct hConstruct hBlock] at hValid
    cases hValid
  · unfold Tlb.construct at hConstruct
    split_ifs at hConstruct
    rw [← Option.some.inj hConstruct]
    intro e hMem
    cases hMem

theorem Within.sized
    (hWithin : Within h₀ h) :
    Sized h :=
  fun i j t hAt => (hWithin.tlb i j t hAt).1.sized

variable {r : Request}
variable {s s' : Mmu.Session σ} {out : Option TlbBlock}

theorem Within.perform
    (hWithin : Within h₀ s.tlbs)
    (hFetches : Prefetches h₀ r)
    {op : TlbOp}
    (hSearch : (∃ now pick, op = .materialize now pick) ∨
      (∃ address, op = .access address) ∨
      op = .enqueue (r.outputs level index))
    (hPerform : Mmu.perform s ⟨level, index, op⟩ = some (out, s')) :
    Within h₀ s'.tlbs := by
  rcases Option.bind_eq_some_iff.mp
    (Mmu.exec_of_perform hPerform).1 with ⟨t, hAt, hRest⟩
  rcases Option.map_eq_some_iff.mp hRest with
    ⟨⟨out', t'⟩, hExec, hEq⟩
  rw [Prod.mk.injEq] at hEq
  rw [← hEq.2]
  rcases hWithin.tlb level index t hAt with
    ⟨hTidy, t₀, hAt₀, hConfig₀⟩
  refine hWithin.setTlb hAt (hTidy.exec ?_ hExec)
    (Mmu.exec_config hExec)
  rcases hSearch with hOp | hOp | hOp
  · exact Or.inl hOp
  · exact Or.inr (Or.inl hOp)
  · refine Or.inr (Or.inr ⟨_, hOp, ?_⟩)
    intro hPrefetch batch hBatch e hMem
    rw [supportsPageSize_congr hConfig₀]
    rw [hConfig₀] at hPrefetch
    exact hFetches level index t₀ hAt₀ hPrefetch batch hBatch e hMem

theorem Within.materializeAt
    (hWithin : Within h₀ s.tlbs)
    (hFetches : Prefetches h₀ r)
    {n : Nat}
    (hCall : Mmu.materializeAt r level index n s = some s') :
    Within h₀ s'.tlbs := by
  induction n generalizing s with
  | zero =>
      rw [← Option.some.inj hCall]
      exact hWithin
  | succ n ih =>
      rcases Option.bind_eq_some_iff.mp hCall with
        ⟨⟨out, s₁⟩, hPerform, hRest⟩
      exact ih (hWithin.perform hFetches
        (Or.inl ⟨_, _, rfl⟩) hPerform) hRest

theorem Within.lookupAt
    (hWithin : Within h₀ s.tlbs)
    (hFetches : Prefetches h₀ r)
    (hCall : Mmu.lookupAt r level index t s = some (out, s')) :
    Within h₀ s'.tlbs := by
  rcases Option.bind_eq_some_iff.mp hCall with
    ⟨s₁, hFirst, hRest⟩
  rcases Option.bind_eq_some_iff.mp hRest with
    ⟨⟨hit, s₂⟩, hSecond, hLast⟩
  rcases Option.map_eq_some_iff.mp hLast with
    ⟨⟨_, s₃⟩, hThird, hEq⟩
  rw [Prod.mk.injEq] at hEq
  rw [← hEq.2]
  have hEmptied := hWithin.materializeAt hFetches hFirst
  have hAccessed := hEmptied.perform hFetches
    (Or.inr (Or.inl ⟨_, rfl⟩)) hSecond
  exact hAccessed.perform hFetches (Or.inr (Or.inr rfl)) hThird

theorem Within.searchLevel
    (hWithin : Within h₀ s.tlbs)
    (hFetches : Prefetches h₀ r)
    {indexList : List Nat}
    {hit : Option TlbBlock}
    (hCall : Mmu.searchLevel r level indexList hit s =
      some (out, s')) :
    Within h₀ s'.tlbs := by
  induction indexList generalizing s hit with
  | nil =>
      rw [Mmu.searchLevel, Option.some.injEq,
        Prod.mk.injEq] at hCall
      rw [← hCall.2]
      exact hWithin
  | cons index rest ih =>
      rcases Option.bind_eq_some_iff.mp hCall with
        ⟨t, hAt, hRest⟩
      split_ifs at hRest with hPath
      · rcases Option.bind_eq_some_iff.mp hRest with
          ⟨⟨own, s₁⟩, hLookup, hLater⟩
        exact ih (hWithin.lookupAt hFetches hLookup) hLater
      · exact ih hWithin hRest

theorem Within.searchLevels
    (hWithin : Within h₀ s.tlbs)
    (hFetches : Prefetches h₀ r)
    {levels : List Nat}
    {found : Option (Nat × TlbBlock)}
    (hCall : Mmu.searchLevels r levels s = some (found, s')) :
    Within h₀ s'.tlbs := by
  induction levels generalizing s with
  | nil =>
      rw [Mmu.searchLevels, Option.some.injEq,
        Prod.mk.injEq] at hCall
      rw [← hCall.2]
      exact hWithin
  | cons level rest ih =>
      rcases Option.bind_eq_some_iff.mp hCall with
        ⟨⟨hit, s₁⟩, hLevel, hRest⟩
      have hFirst := hWithin.searchLevel hFetches hLevel
      cases hHit : hit with
      | some block =>
          simp only [hHit, Option.some.injEq,
            Prod.mk.injEq] at hRest
          rw [← hRest.2]
          exact hFirst
      | none =>
          simp only [hHit] at hRest
          exact ih hFirst hRest

------------------------------------------------------------
-- A TLB
------------------------------------------------------------

variable {d : MmuDesign} {f : Fill} {es : List Insertion}

theorem evictedTranslations_append
    (es es' : List Insertion) :
    evictedTranslations (es ++ es') =
      evictedTranslations es ++ evictedTranslations es' :=
  List.filterMap_append

theorem taken_append
    (es es' : List Insertion)
    (index : Nat) :
    taken (es ++ es') index =
      taken es index ++ taken es' index := by
  unfold taken
  rw [List.filter_append, List.map_append]

/- Insertions elsewhere, or of no victims, take none. -/
theorem taken_eq_nil
    (hOther : ∀ e ∈ es, e.isVictim = false ∨ e.index ≠ index) :
    taken es index = [] := by
  unfold taken
  rw [List.map_eq_nil_iff, List.filter_eq_nil_iff]
  intro e hMem
  rcases hOther e hMem with hFill | hIndex
  · simp [hFill]
  · simp [hIndex]

/-
  A victim was evicted by a TLB of the level that supports its
  size and, in the speculative MMU, also the current size.
-/
structure Source
    (d : MmuDesign)
    (r : Request)
    (f : Fill)
    (h₀ : TlbSubsystem σ)
    (level : Nat)
    (v : TlbBlock) : Prop where
  fits : Tlb.TagFits v
  tlb : ∃ index t, tlbAt h₀ level index = some t ∧
    takesDemand r t = true ∧
    t.supportsPageSize v.pageSize = true ∧
    (d = .spec → t.supportsPageSize f.pageSize = true)

/- What an allocation inserts and evicts. -/
theorem allocateAt_spec
    (hWithin : Within h₀ h)
    (hAt₀ : tlbAt h₀ level index = some t)
    {isVictim : Bool}
    {address : BitVec 64}
    {pageSize ppn : Nat}
    (hSupports : t.config.prefetch = false →
      t.supportsPageSize pageSize = true)
    (hCall : allocateAt h level index isVictim address pageSize
      ppn = some (es, h')) :
    Within h₀ h' ∧
      ((t.config.prefetch = true ∧ es = []) ∨
        (t.config.prefetch = false ∧
          ∃ evicted, es =
              [⟨index, isVictim, address, pageSize, ppn, evicted⟩] ∧
            ∀ v ∈ evicted, Tlb.TagFits v ∧
              t.supportsPageSize v.pageSize = true)) := by
  rcases Option.bind_eq_some_iff.mp hCall with
    ⟨t₁, hAt, hRest⟩
  rcases Option.map_eq_some_iff.mp hRest with
    ⟨⟨out, t'⟩, hAllocate, hEq⟩
  rw [Prod.mk.injEq] at hEq
  rw [← hEq.1, ← hEq.2]
  rcases hWithin.tlb level index t₁ hAt with
    ⟨hTidy, t₀, hSame, hConfig⟩
  rw [hAt₀, Option.some.injEq] at hSame
  subst hSame
  rw [← hConfig, ← supportsPageSize_congr hConfig] at hSupports
  unfold Tlb.allocate at hAllocate
  rw [← hConfig]
  cases hPrefetch : t₁.config.prefetch with
  | true =>
      simp only [hPrefetch, Bool.not_false, Bool.and_true,
        if_true, Option.some.injEq, Prod.mk.injEq] at hAllocate
      rw [← hAllocate.2]
      exact ⟨hWithin.setTlb hAt hTidy rfl, Or.inl ⟨rfl, rfl⟩⟩
  | false =>
      simp only [hPrefetch, Bool.false_and,
        Bool.false_eq_true, if_false] at hAllocate
      rcases hTidy.insert (hSupports hPrefetch) hAllocate with
        ⟨hTidy', hConfig', hEvicted⟩
      refine ⟨hWithin.setTlb hAt hTidy' hConfig',
        Or.inr ⟨rfl, out, rfl, fun v hVictim => ?_⟩⟩
      rw [← supportsPageSize_congr hConfig]
      exact hEvicted v hVictim

/- The page that a victim is pushed with is its own. -/
theorem page_of_victim
    {v : TlbBlock}
    (hFits : Tlb.TagFits v)
    (evicted : Option TlbBlock) :
    Insertion.page ⟨index, true, v.tag <<< v.pageSize,
      v.pageSize, v.ppn, evicted⟩ = pageOf v := by
  unfold Insertion.page pageOf
  rw [Prod.mk.injEq]
  exact ⟨hFits, rfl⟩

/-
  The outcome of the victims and of the current translation
  at one TLB.
-/
structure Visited
    (d : MmuDesign)
    (r : Request)
    (f : Fill)
    (h₀ : TlbSubsystem σ)
    (level index : Nat)
    (es : List Insertion) : Prop where
  own : ∀ e ∈ es, e.index = index
  sources : ∀ v ∈ evictedTranslations es, Source d r f h₀ level v

theorem Visited.append
    {es' : List Insertion}
    (hFirst : Visited d r f h₀ level index es)
    (hSecond : Visited d r f h₀ level index es') :
    Visited d r f h₀ level index (es ++ es') := by
  refine ⟨fun e hMem => ?_, fun v hMem => ?_⟩
  · rcases List.mem_append.mp hMem with hIn | hIn
    · exact hFirst.own e hIn
    · exact hSecond.own e hIn
  · rw [evictedTranslations_append] at hMem
    rcases List.mem_append.mp hMem with hIn | hIn
    · exact hFirst.sources v hIn
    · exact hSecond.sources v hIn

theorem visited_nil :
    Visited d r f h₀ level index [] := by
  refine ⟨fun e hMem => ?_, fun v hMem => ?_⟩
  · cases hMem
  · cases hMem

theorem visited_allocateAt
    (hWithin : Within h₀ h)
    (hAt₀ : tlbAt h₀ level index = some t)
    (hPath : onPath r t = true)
    {isVictim : Bool}
    {address : BitVec 64}
    {pageSize ppn : Nat}
    (hSupports : t.config.prefetch = false →
      t.supportsPageSize pageSize = true)
    (hSpec : d = .spec → t.supportsPageSize f.pageSize = true)
    (hCall : allocateAt h level index isVictim address pageSize
      ppn = some (es, h')) :
    Visited d r f h₀ level index es := by
  rcases (allocateAt_spec hWithin hAt₀ hSupports hCall).2 with
    ⟨_, hNone⟩ | ⟨hPlain, evicted, hOne, hEvicted⟩
  · rw [hNone]
    exact visited_nil
  · rw [hOne]
    refine ⟨fun e hMem => ?_, fun v hMem => ?_⟩
    · rw [List.mem_singleton.mp hMem]
    · have hVictim : v ∈ evicted := by
        rcases List.mem_filterMap.mp hMem with ⟨e, hIn, hOut⟩
        rw [List.mem_singleton.mp hIn] at hOut
        exact hOut
      rcases hEvicted v hVictim with ⟨hFits, hSize⟩
      refine ⟨hFits, index, t, hAt₀, ?_, hSize, hSpec⟩
      rw [takesDemand, hPath, hPlain]
      rfl

variable {vs : List TlbBlock}

/- The victims that go to a TLB of the path. -/
theorem pushVictims_spec
    (hWithin : Within h₀ h)
    (hAt₀ : tlbAt h₀ level index = some t)
    (hPath : onPath r t = true)
    (hFits : ∀ v ∈ vs, Tlb.TagFits v)
    (hTested : ∀ v ∈ vs, t.config.prefetch = false →
      t.supportsPageSize (d.testedSize f v) =
        t.supportsPageSize v.pageSize)
    (hCall : pushVictims d f level index vs h = some (es, h')) :
    Within h₀ h' ∧ Visited d r f h₀ level index es ∧
      taken es index =
        if t.config.prefetch then []
        else (vs.filter (fun v =>
          t.supportsPageSize v.pageSize)).map pageOf := by
  induction vs generalizing h es h' with
  | nil =>
      rw [pushVictims, Option.some.injEq, Prod.mk.injEq] at hCall
      rw [← hCall.1, ← hCall.2]
      refine ⟨hWithin, visited_nil, ?_⟩
      split_ifs
      · rfl
      · rfl
  | cons v rest ih =>
      rcases Option.bind_eq_some_iff.mp hCall with
        ⟨t₁, hAt, hRest⟩
      rcases Option.bind_eq_some_iff.mp hRest with
        ⟨⟨first, h₁⟩, hFirst, hTail⟩
      rcases Option.map_eq_some_iff.mp hTail with
        ⟨⟨later, h₂⟩, hLater, hEq⟩
      rw [Prod.mk.injEq] at hEq
      rcases (hWithin.tlb level index t₁ hAt).2 with
        ⟨t₀, hSame, hConfig⟩
      rw [hAt₀, Option.some.injEq] at hSame
      subst hSame
      rw [supportsPageSize_congr hConfig] at hFirst
      have hOwn := hTested v List.mem_cons_self
      have hHead : Within h₀ h₁ ∧
          Visited d r f h₀ level index first ∧
          taken first index =
            if t.config.prefetch then []
            else (([v] : List TlbBlock).filter (fun v =>
              t.supportsPageSize v.pageSize)).map pageOf := by
        split_ifs at hFirst with hTest
        · have hSupports : t.config.prefetch = false →
              t.supportsPageSize v.pageSize = true :=
            fun hPlain => (hOwn hPlain).symm.trans hTest
          have hSpec : d = .spec →
              t.supportsPageSize f.pageSize = true := by
            intro hDesign
            rw [hDesign] at hTest
            exact hTest
          rcases allocateAt_spec hWithin hAt₀ hSupports hFirst
            with ⟨hNext, hOut⟩
          refine ⟨hNext, visited_allocateAt hWithin hAt₀ hPath
            hSupports hSpec hFirst, ?_⟩
          rcases hOut with
            ⟨hQueue, hNone⟩ | ⟨hPlain, evicted, hOne, _⟩
          · rw [hNone, hQueue]
            rfl
          · have hPage := @page_of_victim index v
              (hFits v List.mem_cons_self) evicted
            rw [hOne, hPlain]
            simp only [taken, List.filter, Bool.true_and,
              decide_true, List.map, hPage, hSupports hPlain,
              Bool.false_eq_true, if_false]
        · rw [Option.some.injEq, Prod.mk.injEq] at hFirst
          rw [← hFirst.1, ← hFirst.2]
          refine ⟨hWithin, visited_nil, ?_⟩
          cases hPlain : t.config.prefetch with
          | true => rfl
          | false =>
              rw [hOwn hPlain] at hTest
              simp [hTest, taken]
      rcases hHead with ⟨hWithin₁, hVisited₁, hTaken₁⟩
      rcases ih hWithin₁
          (fun v' hMem => hFits v' (List.mem_cons_of_mem v hMem))
          (fun v' hMem =>
            hTested v' (List.mem_cons_of_mem v hMem)) hLater
        with ⟨hWithin₂, hVisited₂, hTaken₂⟩
      rw [← hEq.1, ← hEq.2]
      refine ⟨hWithin₂, hVisited₁.append hVisited₂, ?_⟩
      rw [taken_append, hTaken₁, hTaken₂]
      split_ifs
      · rfl
      · rw [← List.map_append, ← List.filter_append,
          List.singleton_append]

/- The current translation at a TLB of the path. -/
theorem fillTlb_spec
    (hWithin : Within h₀ h)
    (hAt₀ : tlbAt h₀ level index = some t)
    (hPath : onPath r t = true)
    (hCall : fillTlb f level index h = some (es, h')) :
    Within h₀ h' ∧ Visited d r f h₀ level index es ∧
      taken es index = [] := by
  rcases Option.bind_eq_some_iff.mp hCall with
    ⟨t₁, hAt, hRest⟩
  rcases (hWithin.tlb level index t₁ hAt).2 with
    ⟨t₀, hSame, hConfig⟩
  rw [hAt₀, Option.some.injEq] at hSame
  subst hSame
  split_ifs at hRest with hTest
  · rw [supportsPageSize_congr hConfig, Bool.and_eq_true,
      Bool.and_eq_true] at hTest
    have hSupports := hTest.1.1
    rcases allocateAt_spec hWithin hAt₀ (fun _ => hSupports)
      hRest with ⟨hNext, hOut⟩
    refine ⟨hNext, visited_allocateAt hWithin hAt₀ hPath
      (fun _ => hSupports) (fun _ => hSupports) hRest, ?_⟩
    apply taken_eq_nil
    intro e hMem
    rcases hOut with ⟨_, hNone⟩ | ⟨_, evicted, hOne, _⟩
    · rw [hNone] at hMem
      cases hMem
    · rw [hOne] at hMem
      rw [List.mem_singleton.mp hMem]
      exact Or.inl rfl
  · rw [Option.some.injEq, Prod.mk.injEq] at hRest
    rw [← hRest.1, ← hRest.2]
    exact ⟨hWithin, visited_nil, rfl⟩

------------------------------------------------------------
-- Levels And Runs
------------------------------------------------------------

/- What a TLB takes of the victims of the level above. -/
def expected
    (r : Request)
    (t : Tlb σ)
    (vs : List TlbBlock) : List (BitVec 64 × Nat × Nat) :=
  if takesDemand r t then
    (vs.filter (fun v => t.supportsPageSize v.pageSize)).map pageOf
  else
    []

theorem allocateLevel_spec
    (hWithin : Within h₀ h)
    (hFits : ∀ v ∈ vs, Tlb.TagFits v)
    (hTested : ∀ v ∈ vs, ∀ index t,
      tlbAt h₀ level index = some t → takesDemand r t = true →
        t.supportsPageSize (d.testedSize f v) =
          t.supportsPageSize v.pageSize)
    {indexList : List Nat}
    (hNodup : indexList.Nodup)
    (hCall : allocateLevel d r f level vs indexList h =
      some (es, h')) :
    Within h₀ h' ∧
      (∀ v ∈ evictedTranslations es, Source d r f h₀ level v) ∧
      (∀ e ∈ es, e.index ∈ indexList) ∧
      ∀ index ∈ indexList, ∀ t,
        tlbAt h₀ level index = some t →
          taken es index = expected r t vs := by
  induction indexList generalizing h es h' with
  | nil =>
      rw [allocateLevel, Option.some.injEq, Prod.mk.injEq] at hCall
      rw [← hCall.1, ← hCall.2]
      refine ⟨hWithin, ?_, ?_, ?_⟩
      · intro v hMem
        cases hMem
      · intro e hMem
        cases hMem
      · intro index hMem
        cases hMem
  | cons index rest ih =>
      rcases List.nodup_cons.mp hNodup with ⟨hNew, hNodup'⟩
      rcases Option.bind_eq_some_iff.mp hCall with
        ⟨t₁, hAt, hRest⟩
      rcases (hWithin.tlb level index t₁ hAt).2 with
        ⟨t, hAt₀, hConfig⟩
      have hPathSame : onPath r t₁ = onPath r t := by
        unfold onPath
        rw [hConfig]
      have hHead : ∃ own h₁ later,
          allocateLevel d r f level vs rest h₁ = some (later, h') ∧
          es = own ++ later ∧ Within h₀ h₁ ∧
          Visited d r f h₀ level index own ∧
          taken own index = expected r t vs := by
        split_ifs at hRest with hVisit
        · rcases Option.bind_eq_some_iff.mp hRest with
            ⟨⟨pushed, h₁⟩, hPush, hMore⟩
          rcases Option.bind_eq_some_iff.mp hMore with
            ⟨⟨filled, h₂⟩, hFill, hLast⟩
          rcases Option.map_eq_some_iff.mp hLast with
            ⟨⟨later, h₃⟩, hLater, hEq⟩
          rw [Prod.mk.injEq] at hEq
          rw [visits, hPathSame, Bool.and_eq_true] at hVisit
          have hPath := hVisit.1
          rcases pushVictims_spec hWithin hAt₀ hPath hFits
              (fun v hMem hPlain => hTested v hMem index t hAt₀
                (by rw [takesDemand, hPath, hPlain]; rfl))
              hPush with ⟨hWithin₁, hVisited₁, hTaken₁⟩
          rcases fillTlb_spec hWithin₁ hAt₀ hPath hFill with
            ⟨hWithin₂, hVisited₂, hTaken₂⟩
          refine ⟨pushed ++ filled, h₂, later, ?_, ?_, hWithin₂,
            hVisited₁.append hVisited₂, ?_⟩
          · have hEnd : h₃ = h' := hEq.2
            rw [← hEnd]
            exact hLater
          · rw [← hEq.1, List.append_assoc]
          · rw [taken_append, hTaken₁, hTaken₂, expected,
              takesDemand, hPath]
            cases t.config.prefetch with
            | true => rfl
            | false => simp
        · refine ⟨[], h, es, hRest, rfl, hWithin, visited_nil, ?_⟩
          have hSkips : takesDemand r t = false := by
            rw [visits, hPathSame, hConfig] at hVisit
            unfold takesDemand
            cases hPath : onPath r t with
            | false => rfl
            | true =>
                cases hPrefetch : t.config.prefetch with
                | true => rfl
                | false =>
                    rw [hPath, hPrefetch, Bool.and_false] at hVisit
                    exact absurd rfl hVisit
          rw [expected, hSkips]
          rfl
      rcases hHead with
        ⟨own, h₁, later, hLater, hAll, hWithin₁, hVisited, hOwn⟩
      rcases ih hWithin₁ hNodup' hLater with
        ⟨hWithin₂, hSources, hIndices, hTaken⟩
      rw [hAll]
      refine ⟨hWithin₂, ?_, ?_, ?_⟩
      · intro v hMem
        rw [evictedTranslations_append] at hMem
        rcases List.mem_append.mp hMem with hIn | hIn
        · exact hVisited.sources v hIn
        · exact hSources v hIn
      · intro e hMem
        rcases List.mem_append.mp hMem with hIn | hIn
        · rw [hVisited.own e hIn]
          exact List.mem_cons_self
        · exact List.mem_cons_of_mem index (hIndices e hIn)
      · intro i hMem t' hAt'
        rw [taken_append]
        rcases List.mem_cons.mp hMem with hHere | hThere
        · subst hHere
          rw [hAt₀, Option.some.injEq] at hAt'
          subst hAt'
          have hNone : taken later i = [] :=
            taken_eq_nil (fun e hIn => Or.inr (fun hSame =>
              hNew (hSame ▸ hIndices e hIn)))
          rw [hOwn, hNone, List.append_nil]
        · have hNone : taken own i = [] :=
            taken_eq_nil (fun e hIn => Or.inr (fun hSame =>
              hNew (by
                rw [← hVisited.own e hIn, hSame]
                exact hThere)))
          rw [hNone, List.nil_append]
          exact hTaken i hThere t' hAt'

/- The victims of a level meet the test of the next one. -/
theorem Source.tested
    {enabled : Bool}
    (hMeets : Meets d enabled h₀ r)
    {v : TlbBlock}
    (hSource : Source d r f h₀ level v)
    {index : Nat}
    {t' : Tlb σ}
    (hAt : tlbAt h₀ (level + 1) index = some t')
    (hTakes : takesDemand r t' = true) :
    t'.supportsPageSize (d.testedSize f v) =
      t'.supportsPageSize v.pageSize := by
  rcases hSource.tlb with
    ⟨i, t, hAt₀, hDemand, hSize, hSpec⟩
  cases hDesign : d with
  | spec =>
      exact hMeets.agree hDesign level i index t t' hAt₀ hAt
        hDemand hTakes _ _ (hSpec hDesign) hSize
  | base => rfl
  | virt => rfl
  | pomTlb => rfl
  | dmt => rfl
  | hwFault => rfl

theorem nodup_indices
    (h : TlbSubsystem σ)
    (level : Nat) :
    (indices h level).Nodup :=
  List.nodup_range

/- The levels from one of them on. -/
theorem allocateLevels_spec
    {enabled : Bool}
    (hMeets : Meets d enabled h₀ r)
    (hWithin : Within h₀ h)
    {n : Nat}
    (hFits : ∀ v ∈ vs, Tlb.TagFits v)
    (hTested : ∀ v ∈ vs, ∀ index t,
      tlbAt h₀ level index = some t → takesDemand r t = true →
        t.supportsPageSize (d.testedSize f v) =
          t.supportsPageSize v.pageSize)
    {levels : List (List Insertion)}
    (hCall : allocateLevels d r f (List.range' level n) vs h =
      some (levels, h')) :
    Within h₀ h' ∧ levels.length = n ∧
      (∀ index t, tlbAt h₀ level index = some t → 0 < n →
        taken (levels.getD 0 []) index = expected r t vs) ∧
      (∀ index, tlbAt h₀ level index = none →
        taken (levels.getD 0 []) index = []) ∧
      ∀ m index t, m + 1 < n →
        tlbAt h₀ (level + m + 1) index = some t →
          taken (levels.getD (m + 1) []) index =
            expected r t
              (evictedTranslations (levels.getD m [])) := by
  induction n generalizing level vs h levels with
  | zero =>
      rw [List.range'_zero, allocateLevels, Option.some.injEq,
        Prod.mk.injEq] at hCall
      rw [← hCall.1, ← hCall.2]
      exact ⟨hWithin, rfl, fun _ _ _ hLt => by omega,
        fun _ _ => rfl, fun _ _ _ hLt => by omega⟩
  | succ n ih =>
      rw [List.range'_succ] at hCall
      rcases Option.bind_eq_some_iff.mp hCall with
        ⟨⟨es, h₁⟩, hLevel, hRest⟩
      rcases Option.map_eq_some_iff.mp hRest with
        ⟨⟨later, h₂⟩, hLater, hEq⟩
      rw [Prod.mk.injEq] at hEq
      have hEnd : h₂ = h' := hEq.2
      rw [hEnd] at hLater
      rcases allocateLevel_spec hWithin hFits hTested
          (nodup_indices h level) hLevel with
        ⟨hWithin₁, hSources, hIndices, hTaken⟩
      have hHere : ∀ index t, tlbAt h₀ level index = some t →
          taken es index = expected r t vs := by
        intro index t hAt
        refine hTaken index ?_ t hAt
        rw [hWithin.width]
        exact Mmu.mem_indices hAt
      rcases ih hWithin₁ (fun v hMem => (hSources v hMem).fits)
          (fun v hMem index t hAt hTakes =>
            (hSources v hMem).tested hMeets hAt hTakes)
          hLater with
        ⟨hWithin₂, hLength, hFirst, hOutside, hNext⟩
      rw [← hEq.1]
      refine ⟨hWithin₂, ?_, ?_, ?_, ?_⟩
      · rw [List.length_cons, hLength]
      · intro index t hAt _
        exact hHere index t hAt
      · intro index hNone
        apply taken_eq_nil
        intro e hMem
        right
        intro hSame
        have hIn := hIndices e hMem
        rw [hSame, hWithin.width] at hIn
        have hSome := Mmu.isSome_of_mem_indices hIn
        rw [hNone] at hSome
        cases hSome
      · intro m index t hLt hAt
        cases m with
        | zero =>
            rw [Nat.add_zero] at hAt
            exact hFirst index t hAt (by omega)
        | succ m =>
            refine hNext m index t (by omega) ?_
            rw [← hAt]
            congr 1
            omega

variable {enabled : Bool} {levels : List (List Insertion)}

/- Without a fill there are no victims. -/
theorem cascades_nil :
    Cascades h r [] := by
  refine ⟨fun _ => rfl, fun level index t _ => ?_⟩
  simp [taken, evictedTranslations]

theorem lt_length_of_tlbAt
    (hAt : tlbAt h level index = some t) :
    level < h.length := by
  rcases Option.bind_eq_some_iff.mp hAt with ⟨_, hLevel, _⟩
  exact (List.getElem?_eq_some_iff.mp hLevel).1

/- Cascades depend on the parameters of the TLBs only. -/
theorem Cascades.of_within
    (hCascades : Cascades h₀ r levels)
    (hWithin : Within h₀ h) :
    Cascades h r levels := by
  refine ⟨hCascades.1, fun level index t' hAt => ?_⟩
  rcases (hWithin.tlb _ _ t' hAt).2 with ⟨t, hAt₀, hConfig⟩
  have hDemand : takesDemand r t' = takesDemand r t := by
    unfold takesDemand onPath
    rw [hConfig]
  rw [hCascades.2 level index t hAt₀, hDemand]
  simp only [supportsPageSize_congr hConfig]

/- A translation keeps TLBs tidy, and its victims cascade. -/
theorem translate_spec
    (hMeets : Meets d enabled h₀ r)
    (hWithin : Within h₀ h)
    (hCall : d.translate enabled h r = some (levels, h')) :
    Within h₀ h' ∧ Cascades h₀ r levels := by
  rcases Option.bind_eq_some_iff.mp hCall with
    ⟨⟨found, s⟩, hSearch, hRest⟩
  have hSearched : Within h₀ s.tlbs :=
    Within.searchLevels (s := ⟨h, []⟩) hWithin
      hMeets.prefetches hSearch
  simp only at hRest
  split at hRest
  · rw [Option.some.injEq, Prod.mk.injEq] at hRest
    rw [← hRest.1, ← hRest.2]
    exact ⟨hSearched, cascades_nil⟩
  · rename_i f _
    rw [List.range_eq_range'] at hRest
    rcases allocateLevels_spec hMeets hSearched
        (fun v hMem => absurd hMem List.not_mem_nil)
        (fun v hMem => absurd hMem List.not_mem_nil) hRest with
      ⟨hAfter, hLength, hFirst, hOutside, hNext⟩
    rw [hSearched.length] at hLength hFirst hNext
    refine ⟨hAfter, ?_, ?_⟩
    · intro index
      cases hAt : tlbAt h₀ 0 index with
      | none => exact hOutside index hAt
      | some t =>
          cases levels with
          | nil => rfl
          | cons es later =>
              rw [hFirst index t hAt (by
                rw [← hLength]
                exact Nat.succ_pos _), expected]
              split_ifs
              · rfl
              · rfl
    · intro level index t hAt
      by_cases hLt : level + 1 < d.tlbLevels enabled h₀.length
      · exact hNext level index t hLt (by
          rw [Nat.zero_add]
          exact hAt)
      · -- The last level was left out.
        have hIn := lt_length_of_tlbAt hAt
        have hBeyond : levels.getD (level + 1) [] = [] := by
          rw [List.getD_eq_getElem?_getD,
            List.getElem?_eq_none (by omega)]
          rfl
        have hSkips : takesDemand r t = false := by
          unfold tlbLevels at hLt
          split_ifs at hLt with hLeft
          · refine hMeets.lastLevel hLeft.1 hLeft.2 index t ?_
            have hLast : h₀.length - 1 = level + 1 := by omega
            rw [hLast]
            exact hAt
          · exact absurd hIn hLt
        rw [hBeyond, hSkips]
        rfl

/-
  In every design: from new TLBs, a run of translations that
  meet the condition leaves only entries of sizes that their
  TLB supports, and the victims of each further translation
  cascade.
-/
theorem cascades_run
    (hNew : ∀ i j t, tlbAt h₀ i j = some t →
      ∃ config policy replacement,
        Tlb.construct config policy replacement = some t)
    {rs : List Request}
    (hMeets : ∀ r ∈ rs, Meets d enabled h₀ r)
    (hRun : Run.run (d.step enabled) h₀ rs = some h) :
    Sized h ∧
      ∀ r levels h', Meets d enabled h₀ r →
        d.translate enabled h r = some (levels, h') →
          Cascades h r levels := by
  have hWithin : Within h₀ h := by
    refine Run.run_inv (I := Within h₀)
      (fun h₁ r h₂ hBefore hMeet hStep => ?_)
      (within_new hNew)
      (Run.along_of_forall_mem (Q := Meets d enabled h₀) _
        hMeets) hRun
    rcases Option.map_eq_some_iff.mp hStep with
      ⟨⟨levels, h₃⟩, hCall, hEq⟩
    rw [← hEq]
    exact (translate_spec hMeet hBefore hCall).1
  refine ⟨hWithin.sized, fun r levels h' hMeet hCall => ?_⟩
  exact (translate_spec hMeet hWithin hCall).2.of_within hWithin

/- A page of 2MB and one of 4KB, whose walks found them. -/
def mixedRequests : List Request :=
  [⟨0, false, 0, fun _ _ _ => 0, fun _ _ => [], some (512, 21)⟩,
    ⟨0x40000000, false, 0, fun _ _ _ => 0, fun _ _ => [],
      some (7, 12)⟩]

/-
  A run of the speculative MMU whose second level supports
  both page sizes takes the victim of the other size.
-/
theorem cascades_run_mixed :
    ∃ t ∈ Tlb.construct
        ⟨1, 1, [12, 21], .data, true, false, 0⟩
        Replacement.lru (Replacement.lruInit 1 1),
      ∃ t' ∈ Tlb.construct
          ⟨4, 4, [12, 21], .unified, false, false, 0⟩
          Replacement.lru (Replacement.lruInit 1 4),
        ∃ h ∈ Run.run (step .spec false) [[t], [t']] mixedRequests,
          Sized h ∧
            ∃ u ∈ tlbAt h 1 0,
              u.blockAt 0 0 = some ⟨0, 21, 512, true⟩ := by
  have hRuns : ∃ t ∈ Tlb.construct
        ⟨1, 1, [12, 21], .data, true, false, 0⟩
        Replacement.lru (Replacement.lruInit 1 1),
      ∃ t' ∈ Tlb.construct
          ⟨4, 4, [12, 21], .unified, false, false, 0⟩
          Replacement.lru (Replacement.lruInit 1 4),
        (t.config.pageSizes = [12, 21] ∧
          t'.config.pageSizes = [12, 21]) ∧
        ∃ h ∈ Run.run (step .spec false) [[t], [t']] mixedRequests,
          ∃ u ∈ tlbAt h 1 0,
            u.blockAt 0 0 = some ⟨0, 21, 512, true⟩ := by
    decide +kernel
  rcases hRuns with
    ⟨t, hFirst, t', hSecond, hSizes, h, hRun, hTaken⟩
  refine ⟨t, hFirst, t', hSecond, h, hRun, ?_, hTaken⟩
  have hTlbs : ∀ i j u, tlbAt [[t], [t']] i j = some u →
      u = t ∨ u = t' := by
    intro i j u hAt
    match i, j with
    | 0, 0 => exact Or.inl (Option.some.inj hAt).symm
    | 1, 0 => exact Or.inr (Option.some.inj hAt).symm
    | 0, _ + 1 => cases hAt
    | 1, _ + 1 => cases hAt
    | _ + 2, _ => cases hAt
  have hBoth : ∀ i j u, tlbAt [[t], [t']] i j = some u →
      u.config.pageSizes = [12, 21] := by
    intro i j u hAt
    rcases hTlbs i j u hAt with hEq | hEq
    · rw [hEq]
      exact hSizes.1
    · rw [hEq]
      exact hSizes.2
  have hRun' : Run.run (step .spec false)
      ([[t], [t']] : TlbSubsystem _) mixedRequests = some h :=
    hRun
  refine (cascades_run ?_ ?_ hRun').1
  · intro i j u hAt
    rcases hTlbs i j u hAt with hEq | hEq
    · rw [hEq]
      exact ⟨_, _, _, hFirst⟩
    · rw [hEq]
      exact ⟨_, _, _, hSecond⟩
  · intro r hMem
    refine ⟨?_, fun _ hEnabled => Bool.noConfusion hEnabled, ?_⟩
    · intro i j u _ _ batch hBatch
      have hNone : r.outputs = fun _ _ => [] := by
        simp only [mixedRequests, List.mem_cons,
          List.not_mem_nil, or_false] at hMem
        rcases hMem with hEq | hEq
        · rw [hEq]
        · rw [hEq]
      rw [hNone] at hBatch
      cases hBatch
    · intro _ i j k u u' hAt hAt' _ _ a b hA hB
      unfold Tlb.supportsPageSize at hA hB ⊢
      rw [hBoth i j u hAt] at hA hB
      rw [hBoth (i + 1) k u' hAt', hA, hB]

/-
  In the speculative MMU a page of 2MB goes to a TLB that
  supports 4KB only, when the page that replaces it has 4KB.
-/
theorem not_sized_run_mixed :
    ∃ t ∈ Tlb.construct
        ⟨1, 1, [12, 21], .data, true, false, 0⟩
        Replacement.lru (Replacement.lruInit 1 1),
      ∃ t' ∈ Tlb.construct
          ⟨4, 4, [12], .unified, false, false, 0⟩
          Replacement.lru (Replacement.lruInit 1 4),
        ∃ h ∈ Run.run (step .spec false) [[t], [t']] mixedRequests,
          ¬ Sized h := by
  refine ⟨_, Option.get_mem ?_, _, Option.get_mem ?_,
    _, Option.get_mem ?_, fun hSized => ?_⟩
  iterate 3 decide +kernel
  refine absurd (hSized 1 0 _ (Option.get_mem ?_) 0 0
    ⟨0, 21, 512, true⟩ ?_ (by decide)) ?_
  iterate 3 decide +kernel

end MmuDesign

end Virtuoso
