import Virtuoso.Atp.Queue
import Virtuoso.Lib.Run
import Virtuoso.Tlb.Fills
import Virtuoso.Tlb.Invalidation

/-
  Runs of a TLB with the agile prefetcher.

  A lookup first turns the entries that are due into marked
  blocks, then takes the mark of the block that it hits, and
  lets the prefetcher propose pages. Where none of these
  loses a pending page, the bookkeeping of the prefetcher
  stays consistent with the queue and the blocks.

  Main declarations:
    * `AtpTlb.consistent_materialize`
    * `AtpTlb.consistent_of_run`
-/

namespace Virtuoso

namespace AtpTlb

open Tlb

variable {σ τ : Type}

------------------------------------------------------------
-- The Queue And Its Entries
------------------------------------------------------------

/- Proposals are taken until the queue is full. -/
theorem queue_enqueueBatch
    (t : Tlb σ)
    (batch : List QueryEntry)
    (hPpn : ∀ e ∈ batch, e.ppn ≠ 0) :
    (t.enqueueBatch batch).queue = t.queue ++
      batch.take (t.config.maxPrefetchCount - t.queue.length) := by
  induction batch generalizing t with
  | nil => simp [enqueueBatch]
  | cons e batch ih =>
      have hRest : ∀ e ∈ batch, e.ppn ≠ 0 :=
        fun e hMem => hPpn e (List.mem_cons_of_mem _ hMem)
      by_cases hFull : t.config.maxPrefetchCount ≤ t.queue.length
      · have hSkip : t.enqueueBatch (e :: batch) =
            t.enqueueBatch batch := by
          rw [enqueueBatch, List.foldl_cons,
            if_pos (Or.inr hFull), enqueueBatch]
        rw [hSkip, ih t hRest, Nat.sub_eq_zero_of_le hFull]
        simp
      · have hTake : ¬(e.ppn = 0 ∨
            t.config.maxPrefetchCount ≤ t.queue.length) := by
          rintro (hZero | hLe)
          · exact hPpn e List.mem_cons_self hZero
          · exact hFull hLe
        obtain ⟨n, hRoom⟩ : ∃ n,
            t.config.maxPrefetchCount - t.queue.length = n + 1 :=
          ⟨t.config.maxPrefetchCount - t.queue.length - 1, by omega⟩
        rw [enqueueBatch, List.foldl_cons, if_neg hTake,
          ← enqueueBatch, ih _ hRest, hRoom,
          List.take_succ_cons, List.append_assoc]
        dsimp only
        rw [List.length_append, List.length_singleton,
          show t.config.maxPrefetchCount -
            (t.queue.length + 1) = n by omega]
        rfl

/- A proposal is in the queue, unless it was dropped. -/
theorem mem_enqueue_or_dropped
    (t : Tlb σ)
    (batch : List QueryEntry)
    (hRoom : t.queue.length < t.config.maxPrefetchCount)
    (hPpn : ∀ e ∈ batch, e.ppn ≠ 0) :
    (∀ e ∈ t.queue, e ∈ (t.enqueue [batch]).queue) ∧
      ∀ e ∈ batch, e ∈ (t.enqueue [batch]).queue ∨
        e ∈ dropped t batch := by
  have hOne : t.enqueue [batch] =
      if t.config.maxPrefetchCount ≤ t.queue.length ∨
        t.batchDeduped batch then t
      else t.enqueueBatch batch := rfl
  rw [hOne, dropped]
  by_cases hDeduped : t.batchDeduped batch
  · rw [if_pos (Or.inr hDeduped), if_pos hDeduped]
    exact ⟨fun e hMem => hMem, fun e hMem => Or.inr hMem⟩
  · rw [if_neg (fun h => h.elim (Nat.not_le_of_lt hRoom)
      hDeduped), if_neg hDeduped,
      queue_enqueueBatch t batch hPpn]
    refine ⟨fun e hMem => List.mem_append_left _ hMem,
      fun e hMem => ?_⟩
    rw [← List.take_append_drop (t.config.maxPrefetchCount -
      t.queue.length) batch, List.mem_append] at hMem
    rcases hMem with hTaken | hDropped
    · exact Or.inl (List.mem_append_right _ hTaken)
    · exact Or.inr hDropped

theorem replacedAt_of_inserts
    {t t' : Tlb σ}
    {address : BitVec 64}
    {pageSize ppn way : Nat}
    {old : TlbBlock}
    (hInserts : Inserts t address pageSize ppn way old t') :
    replacedAt t address pageSize =
      some (t.setIndex (tagOf address pageSize), way) := by
  rcases hInserts.chosen with ⟨next, hChosen⟩
  rw [replacedAt, hChosen]
  rfl

variable {s s' : AtpTlb σ τ}

/- An entry that is due becomes a block that has a mark. -/
theorem materialize_cases
    {now pick : Nat}
    (hStep : s.materialize now pick = some s') :
    s' = s ∨ ∃ e way old evicted t',
      dueEntry s.tlb.queue now pick = some e ∧
        (s.tlb.popEntry e).allocate e.address e.pageSize
          e.ppn true = some (evicted, t') ∧
        Inserts (s.tlb.popEntry e) e.address e.pageSize e.ppn
          way old t' ∧
        t'.queue = s.tlb.queue.erase e ∧
        s' =
          { s with
            tlb := t'
            marks := (foundAt t' e.address).toList ++
              unmark s.marks (some
                (s.tlb.setIndex (tagOf e.address e.pageSize),
                  way)) } := by
  rw [materialize] at hStep
  cases hDue : dueEntry s.tlb.queue now pick with
  | none =>
      rw [hDue] at hStep
      exact Or.inl (Option.some.inj hStep).symm
  | some e =>
      rw [hDue] at hStep
      dsimp only at hStep
      rcases Option.map_eq_some_iff.mp hStep with
        ⟨⟨evicted, t'⟩, hAllocate, hEq⟩
      have hInsert := hAllocate
      rw [allocate, Bool.not_true, Bool.and_false,
        if_neg (by decide)] at hInsert
      rcases insertSingleLineTLB_spec hInsert with
        ⟨way, old, hInserts, -⟩
      rw [replacedAt_of_inserts hInserts] at hEq
      exact Or.inr ⟨e, way, old, evicted, t', rfl, hAllocate,
        hInserts, insertSingleLineTLB_queue hInsert, hEq.symm⟩

/- The page of the entry is found after its insertion. -/
theorem exists_found
    {t t' : Tlb σ}
    {address : BitVec 64}
    {pageSize ppn way : Nat}
    {old : TlbBlock}
    (hPlaced : t'.Placed)
    (hInserts : Inserts t address pageSize ppn way old t')
    (hPos : 0 < pageSize)
    (hSize : pageSize ∈ t.config.pageSizes) :
    ∃ place, foundAt t' address = some place := by
  have hHolds : t'.Holds (tagOf address pageSize) pageSize := by
    refine ⟨t.setIndex (tagOf address pageSize), way,
      ⟨tagOf address pageSize, pageSize, ppn, true⟩,
      ?_, ?_, ?_⟩
    · rw [hInserts.after, if_pos ⟨rfl, rfl⟩]
    · exact TlbBlock.isValid_iff.mpr
        (MmuDesign.tagOf_ne_allOnes hPos address)
    · exact TlbBlock.isFor_iff.mpr ⟨rfl, rfl⟩
  cases hFind : foundAt t' address with
  | some place => exact ⟨place, rfl⟩
  | none =>
      rw [foundAt, Option.map_eq_none_iff] at hFind
      rw [← hInserts.config] at hSize
      exact absurd hHolds
        (hPlaced.not_holds_of_find hFind pageSize hSize)

/- The block of an address that is found has the address. -/
theorem block_of_foundAt
    {t : Tlb σ}
    {address : BitVec 64}
    {place : Nat × Nat}
    (hFind : foundAt t address = some place) :
    ∃ b, t.findSingleLineTLB address t.config.pageSizes =
        some (place.1, place.2, b) ∧
      t.blockAt place.1 place.2 = some b ∧
      b.shared = true ∧ b.tag = tagOf address b.pageSize := by
  rcases Option.map_eq_some_iff.mp hFind with
    ⟨⟨k, i, b⟩, hSome, hEq⟩
  rw [← hEq]
  rcases find_eq_some hSome with ⟨hBlock, hShared, -, hTag⟩
  exact ⟨b, hSome, hBlock, hShared, hTag⟩

theorem consistent_materialize
    {now pick : Nat}
    (hConsistent : s.Consistent)
    (hPlaced : s.tlb.Placed)
    (hSpares : ∀ e, dueEntry s.tlb.queue now pick = some e →
      s.Spares e)
    (hStep : s.materialize now pick = some s') :
    s'.Consistent ∧ s'.tlb.Placed := by
  rcases materialize_cases hStep with hEq | ⟨e, way, old,
    evicted, t', hDue, hAllocate, hInserts, hQueue, hEq⟩
  · rw [hEq]
    exact ⟨hConsistent, hPlaced⟩
  · have hPopped : (s.tlb.popEntry e).Placed :=
      hPlaced.of_sets rfl rfl
    have hPlaced' : t'.Placed := hInserts.placed hPopped
    rcases hSpares e hDue with ⟨⟨hPos, hSize⟩, hSpared⟩
    rcases exists_found hPlaced' hInserts hPos hSize with
      ⟨place, hFind⟩
    rcases block_of_foundAt hFind with
      ⟨b, hLine, hBlock, hShared, hTag⟩
    -- The block that has the mark now stands for its pages.
    have hRenewed : ∀ address, b.tag = tagOf address b.pageSize →
        s'.Backed address := by
      intro address hOwn
      rw [hEq]
      exact Or.inr ⟨place, by simp [hFind], b, hBlock, hShared,
        hOwn⟩
    have hQueued : ∀ address, s.Queued address →
        s'.Backed address := by
      rintro address ⟨e', hMem, hAddress⟩
      by_cases hSame : e' = e
      · exact hRenewed address (by rw [← hAddress, hSame, hTag])
      · rw [hEq]
        refine Or.inl ⟨e', ?_, hAddress⟩
        dsimp only
        rw [hQueue]
        exact (List.mem_erase_of_ne hSame).mpr hMem
    have hOther : ∀ other address,
        other ≠ (s.tlb.setIndex (tagOf e.address e.pageSize),
          way) → s.MarkedAt other address →
        s'.Backed address := by
      rintro other address hNe ⟨hMark, b', hBlock', hFacts⟩
      rw [hEq]
      refine Or.inr ⟨other, ?_, b', ?_, hFacts⟩
      · refine List.mem_append_right _
          (List.mem_filter.mpr ⟨hMark, ?_⟩)
        simpa using hNe
      · refine hInserts.kept hBlock' (fun hAt => hNe ?_)
        exact Prod.ext hAt.1 hAt.2
    have hAtp : s'.atp = s.atp := by rw [hEq]
    refine ⟨⟨fun vpn hMem => ?_, fun vpn hMem => ?_⟩, ?_⟩
    · rw [hAtp] at hMem ⊢
      rcases hConsistent.pending vpn hMem with hIn |
        ⟨other, hMarked⟩
      · exact hQueued _ hIn
      · by_cases hSame : other =
          (s.tlb.setIndex (tagOf e.address e.pageSize), way)
        · rw [hSame] at hMarked
          have hPlace := replacedAt_of_inserts hInserts
          rcases hSpared _ hPlace vpn hMem hMarked with (hIn | ⟨other', hNe, hMarked'⟩) |
            hRenews
          · exact hQueued _ hIn
          · exact hOther other' _ hNe hMarked'
          · rcases hRenews with ⟨evicted', t'', k, i, b',
              hAllocate', hLine', hTag'⟩
            rw [hAllocate, Option.some.injEq, Prod.mk.injEq]
              at hAllocate'
            rw [← hAllocate'.2, hLine, Option.some.injEq,
              Prod.mk.injEq, Prod.mk.injEq] at hLine'
            rw [← hLine'.2.2] at hTag'
            exact hRenewed _ hTag'
        · exact hOther other _ hSame hMarked
    · rw [hAtp] at hMem ⊢
      exact hConsistent.free vpn hMem
    · rw [hEq]
      exact hPlaced'

/- What holds after all the entries that are due. -/
theorem consistent_materializeAll
    {now : Nat}
    {picks : Nat → Nat}
    (n : Nat)
    (hConsistent : s.Consistent)
    (hPlaced : s.tlb.Placed)
    (hSpares : SparesAll now picks n s)
    (hAll : materializeAll now picks n s = some s') :
    s'.Consistent ∧ s'.tlb.Placed := by
  induction n generalizing s with
  | zero =>
      rw [materializeAll, Option.some.injEq] at hAll
      rw [← hAll]
      exact ⟨hConsistent, hPlaced⟩
  | succ n ih =>
      rw [materializeAll] at hAll
      rcases Option.bind_eq_some_iff.mp hAll with
        ⟨next, hStep, hRest⟩
      rcases consistent_materialize hConsistent hPlaced
        hSpares.1 hStep with ⟨hConsistent', hPlaced'⟩
      exact ih hConsistent' hPlaced' (hSpares.2 next hStep) hRest

------------------------------------------------------------
-- Accesses And Runs
------------------------------------------------------------

/- The blocks are the same, the queue has not lost entries,
   and only the block that was hit can have lost its mark. -/
structure Carries
    (hit : Option (Nat × Nat))
    (s s' : AtpTlb σ τ) : Prop where
  sets : s'.tlb.sets = s.tlb.sets
  config : s'.tlb.config = s.tlb.config
  queue : ∀ e ∈ s.tlb.queue, e ∈ s'.tlb.queue
  marks : s'.marks = unmark s.marks hit

theorem Carries.queued
    {hit : Option (Nat × Nat)}
    {address : BitVec 64}
    (hCarries : Carries hit s s')
    (hQueued : s.Queued address) :
    s'.Queued address := by
  rcases hQueued with ⟨e, hMem, hEq⟩
  exact ⟨e, hCarries.queue e hMem, hEq⟩

theorem Carries.markedAt
    {hit : Option (Nat × Nat)}
    {address : BitVec 64}
    {place : Nat × Nat}
    (hCarries : Carries hit s s')
    (hOther : hit ≠ some place)
    (hMarked : s.MarkedAt place address) :
    s'.MarkedAt place address := by
  rcases hMarked with ⟨hMark, b, hBlock, hFacts⟩
  refine ⟨?_, b, ?_, hFacts⟩
  · rw [hCarries.marks, unmark, List.mem_filter]
    exact ⟨hMark, by simpa using hOther.symm⟩
  · rw [blockAt, hCarries.sets]
    exact hBlock

theorem Carries.backed
    {hit : Option (Nat × Nat)}
    {address : BitVec 64}
    (hCarries : Carries hit s s')
    (hBacked : s.Backed address)
    (hElse : ∀ place, hit = some place →
      s.MarkedAt place address →
      s.BackedWithout place address) :
    s'.Backed address := by
  rcases hBacked with hQueued | ⟨place, hMarked⟩
  · exact Or.inl (hCarries.queued hQueued)
  · by_cases hHit : hit = some place
    · rcases hElse place hHit hMarked with hQueued |
        ⟨other, hNe, hMarked'⟩
      · exact Or.inl (hCarries.queued hQueued)
      · refine Or.inr ⟨other, hCarries.markedAt ?_ hMarked'⟩
        rw [hHit]
        exact fun hEq => hNe (Option.some.inj hEq).symm
    · exact Or.inr ⟨place, hCarries.markedAt hHit hMarked⟩

theorem carries_access
    (w : AtpWalker τ)
    (s : AtpTlb σ τ)
    (l : AtpLookup) :
    Carries (foundAt s.tlb l.call.address) s (access w s l) := by
  rcases accessSingleLineTLB_kept s.tlb l.call.address with
    ⟨hSets, hConfig, -, hQueue⟩
  rw [access]
  dsimp only
  split_ifs with hCalled
  · rcases enqueue_kept
      (s.tlb.accessSingleLineTLB l.call.address).2
      [(predictions w s l).result] with
      ⟨hSets', hConfig', -⟩
    refine ⟨hSets'.trans hSets, hConfig'.trans hConfig,
      fun e hMem => ?_, rfl⟩
    rcases enqueue_queue
      (s.tlb.accessSingleLineTLB l.call.address).2
      [(predictions w s l).result] with ⟨added, hAdded⟩
    dsimp only
    rw [hAdded, hQueue]
    exact List.mem_append_left added hMem
  · refine ⟨hSets, hConfig, fun e hMem => ?_, rfl⟩
    dsimp only
    rw [hQueue]
    exact hMem

variable {s : AtpTlb σ τ}

/- A marked block that is hit is seen by the prefetcher. -/
theorem pqHit_of_markedAt
    {address address' : BitVec 64}
    {place : Nat × Nat}
    (hHit : foundAt s.tlb address = some place)
    (hMarked : s.MarkedAt place address') :
    s.pqHit address = true := by
  rw [pqHit, hHit]
  simpa using hMarked.1

theorem dropped_access
    (t : Tlb σ)
    (address : BitVec 64)
    (batch : List QueryEntry) :
    dropped (t.accessSingleLineTLB address).2 batch =
      dropped t batch := by
  rw [accessSingleLineTLB]
  split <;> rfl

variable {w : AtpWalker τ} {l : AtpLookup}

/- A proposal is in the queue then, unless it was dropped. -/
theorem queued_or_dropped
    (hCalled : s.isCalled l = true)
    (hPpn : ∀ e ∈ (predictions w s l).result, e.ppn ≠ 0)
    (e : QueryEntry)
    (hMem : e ∈ (predictions w s l).result) :
    (access w s l).Queued e.address ∨
      e ∈ dropped s.tlb (predictions w s l).result := by
  have hRoom : s.tlb.queue.length <
      s.tlb.config.maxPrefetchCount := by
    rw [isCalled, Bool.and_eq_true, decide_eq_true_eq] at hCalled
    exact hCalled.2
  rcases accessSingleLineTLB_kept s.tlb l.call.address with
    ⟨-, hConfig, -, hQueue⟩
  rw [← hQueue, ← hConfig] at hRoom
  rcases (mem_enqueue_or_dropped _ _ hRoom hPpn).2 e hMem with
    hIn | hDropped
  · refine Or.inl ⟨e, ?_, rfl⟩
    rw [access, if_pos hCalled]
    exact hIn
  · rw [dropped_access] at hDropped
    exact Or.inr hDropped

theorem consistent_access
    (hConsistent : s.Consistent)
    (hConsumes : s.Consumes l)
    (hAccepts : Accepts w s l) :
    (access w s l).Consistent := by
  have hCarries := carries_access w s l
  by_cases hCalled : s.isCalled l = true
  · have hProposes := Atp.proposes_performPrefetch w l.call
      (foundAt s.tlb l.call.address).isSome
      (s.pqHit l.call.address) s.atp s.walks
    have hAtp : (access w s l).atp = (predictions w s l).atp := by
      rw [access, if_pos hCalled]
    have hConfig : (predictions w s l).atp.config = s.atp.config :=
      hProposes.config.trans (Atp.config_afterHit _ _ _)
    have hAddr : ∀ vpn, (access w s l).atp.pageAddr vpn =
        s.atp.pageAddr vpn := by
      intro vpn
      rw [hAtp]
      exact Atp.pageAddr_congr hConfig vpn
    constructor
    · intro vpn hMem
      rw [hAddr]
      rw [hAtp] at hMem
      rcases hProposes.pending vpn hMem with hOld | ⟨e, hE, hEq⟩
      · rcases (Atp.pending_afterHit _ _ _ vpn).mp hOld with
          ⟨hPending, hNot⟩
        refine hCarries.backed (hConsistent.pending vpn hPending) ?_
        intro place hHit hMarked
        rcases hConsumes place hHit vpn hPending hMarked with
          ⟨-, hOwn⟩ | hElse
        · exact absurd ⟨pqHit_of_markedAt hHit hMarked, hOwn⟩ hNot
        · exact hElse
      · have hSame : e.address = s.atp.pageAddr vpn := by
          rw [hEq]
          exact Atp.pageAddr_congr (Atp.config_afterHit _ _ _) vpn
        rw [← hSame]
        rcases queued_or_dropped hCalled hProposes.ppn e hE
          with hQueued | hDropped
        · exact Or.inl hQueued
        · exact Or.inl (hCarries.queued
            (hAccepts hCalled e hDropped))
    · intro vpn hMem
      rw [hAtp] at hMem ⊢
      rcases hProposes.free vpn hMem with hOld | hNew
      · rcases Atp.free_afterHit _ _ _ vpn hOld with
          ⟨hFree, hNot⟩
        refine hProposes.kept vpn
          ((Atp.pending_afterHit _ _ _ vpn).mpr
            ⟨hConsistent.free vpn hFree, hNot⟩)
      · exact hNew
  · have hAtp : (access w s l).atp = s.atp := by
      rw [access, if_neg hCalled]
    constructor
    · intro vpn hMem
      rw [hAtp] at hMem ⊢
      refine hCarries.backed (hConsistent.pending vpn hMem) ?_
      intro place hHit hMarked
      rcases hConsumes place hHit vpn hMem hMarked with
        ⟨hOther, -⟩ | hElse
      · exact absurd hOther hCalled
      · exact hElse
    · intro vpn hMem
      rw [hAtp] at hMem ⊢
      exact hConsistent.free vpn hMem

/- A TLB without a queue never calls the prefetcher. -/
structure Inv (s : AtpTlb σ τ) : Prop where
  consistent : s.Consistent
  placed : s.tlb.Placed
  unused : s.tlb.config.prefetch = false →
    s.atp.pendingVpns = [] ∧ s.atp.freeMeta = []

theorem inv_construct
    {config : TlbConfig}
    {policy : Replacement σ}
    {replacement : σ}
    {atpConfig : AtpConfig}
    {walks : τ}
    (hConstruct : construct config policy replacement atpConfig
      walks = some s) :
    s.Inv := by
  rcases Option.map_eq_some_iff.mp hConstruct with
    ⟨t, hTlb, hEq⟩
  rw [← hEq]
  refine ⟨⟨?_, ?_⟩, (shaped_construct hTlb).toPlaced, ?_⟩
  · intro vpn hMem
    cases hMem
  · intro vpn hMem
    cases hMem
  · exact fun _ => ⟨rfl, rfl⟩

theorem config_materializeAll
    {now : Nat}
    {picks : Nat → Nat}
    (n : Nat)
    (hAll : materializeAll now picks n s = some s') :
    s'.tlb.config = s.tlb.config := by
  induction n generalizing s with
  | zero =>
      rw [materializeAll, Option.some.injEq] at hAll
      rw [hAll]
  | succ n ih =>
      rw [materializeAll] at hAll
      rcases Option.bind_eq_some_iff.mp hAll with
        ⟨next, hStep, hRest⟩
      rw [ih hRest]
      rcases materialize_cases hStep with hEq | ⟨e, way, old,
        evicted, t', -, -, hInserts, -, hEq⟩
      · rw [hEq]
      · rw [hEq]
        exact hInserts.config

/- A lookup that meets the conditions stays consistent. -/
theorem inv_lookup
    (hInv : s.Inv)
    (hMeets : Meets w s l)
    (hStep : lookup w s l = some s') :
    s'.Inv := by
  rw [lookup] at hStep
  cases hPrefetch : s.tlb.config.prefetch with
  | true =>
      rw [if_pos hPrefetch] at hStep
      rcases Option.map_eq_some_iff.mp hStep with
        ⟨next, hAll, hEq⟩
      rcases consistent_materializeAll _ hInv.consistent
        hInv.placed hMeets.1 hAll with
        ⟨hConsistent, hPlaced⟩
      rcases hMeets.2 next hAll with ⟨hConsumes, hAccepts⟩
      have hCarries := carries_access w next l
      rw [← hEq]
      refine ⟨consistent_access hConsistent hConsumes hAccepts,
        hPlaced.of_sets hCarries.sets hCarries.config,
        fun hPlain => ?_⟩
      rw [hCarries.config, config_materializeAll _ hAll,
        hPrefetch] at hPlain
      cases hPlain
  | false =>
      rw [if_neg (by simp [hPrefetch]), Option.some.injEq] at hStep
      rcases hInv.unused hPrefetch with ⟨hPending, hFree⟩
      rcases accessSingleLineTLB_kept s.tlb l.call.address with
        ⟨hSets, hConfig, -, -⟩
      rw [← hStep]
      refine ⟨⟨fun vpn hMem => ?_, fun vpn hMem => ?_⟩,
        hInv.placed.of_sets hSets hConfig,
        fun _ => ⟨hPending, hFree⟩⟩
      · dsimp only at hMem
        rw [hPending] at hMem
        cases hMem
      · dsimp only at hMem
        rw [hFree] at hMem
        cases hMem

/-
  Every run whose lookups meet the conditions reaches states
  that are consistent.
-/
theorem consistent_of_run
    (w : AtpWalker τ)
    (config : TlbConfig)
    (policy : Replacement σ)
    (replacement : σ)
    (atpConfig : AtpConfig)
    (walks : τ)
    (ls : List AtpLookup)
    (s s' : AtpTlb σ τ)
    (hConstruct : construct config policy replacement atpConfig
      walks = some s)
    (hMeets : Run.Along (lookup w) (Meets w) s ls)
    (hRun : Run.run (lookup w) s ls = some s') :
    s'.Consistent :=
  (Run.run_inv (fun _ _ _ hInv hMeets hStep =>
    inv_lookup hInv hMeets hStep) (inv_construct hConstruct)
    hMeets hRun).consistent

/- Every page is mapped, and walks take the same time. -/
def mappedPages : AtpWalker Unit where
  initializeWalk := fun _ _ => (⟨false, 5, 12⟩, ())
  completion := fun _ _ => 100

/- One bit for each counter, so that one hit enables STP. -/
def quickConfig : AtpConfig where
  samplerSize := 4
  fpqSize := 16
  fdtCounterBits := 10
  fdtThreshold := 100
  enablePrefBits := 1
  select1Bits := 1
  select2Bits := 1
  maspEntries := 4
  maspAssoc := 2
  pageShift := 12

/- A small TLB with a queue of the given length. -/
def queueOf
    (maxPrefetchCount : Nat) :
    Option (AtpTlb (List (List Nat)) Unit) :=
  construct ⟨4, 4, [12], .unified, true, true,
    maxPrefetchCount⟩ Replacement.lru
    (Replacement.lruInit 1 4) quickConfig ()

/- A miss of the page at an address. -/
def missOf
    (address : BitVec 64)
    (now : Nat) : AtpLookup where
  call := ⟨address, 0, fun _ => false⟩
  now := now
  picks := fun _ => 0
  hasPageTable := true

/- Every entry that is due takes a place without a mark. -/
def takesFree
    (now : Nat)
    (picks : Nat → Nat) :
    Nat → AtpTlb σ τ → Bool
| 0, _ => true
| n + 1, s =>
    (dueEntry s.tlb.queue now (picks n)).all (fun e =>
      decide (0 < e.pageSize) &&
        s.tlb.config.pageSizes.contains e.pageSize &&
        (replacedAt s.tlb e.address e.pageSize).all
          (fun place => !s.marks.contains place)) &&
      (s.materialize now (picks n)).all (takesFree now picks n)

/- Only the page of the lookup is consumed by a hit. -/
def hitsOwn (s : AtpTlb σ τ) (l : AtpLookup) : Bool :=
  (foundAt s.tlb l.call.address).all (fun place =>
    s.isCalled l && s.atp.pendingVpns.all (fun vpn =>
      vpn == l.call.vpn s.atp ||
        (s.tlb.blockAt place.1 place.2).all (fun b =>
          b.tag != tagOf (s.atp.pageAddr vpn) b.pageSize)))

/- This, and no proposal is dropped. -/
def isCalm
    (w : AtpWalker τ)
    (s : AtpTlb σ τ)
    (l : AtpLookup) : Bool :=
  takesFree l.now l.picks s.tlb.queue.length s &&
    (materializeAll l.now l.picks s.tlb.queue.length s).all
      (fun s' => hitsOwn s' l &&
        (dropped s'.tlb (predictions w s' l).result).isEmpty)

/- Every lookup of the run is calm. -/
def isCalmAlong
    (w : AtpWalker τ) :
    AtpTlb σ τ → List AtpLookup → Bool
| _, [] => true
| s, l :: ls =>
    isCalm w s l &&
      (lookup w s l).all (fun s' => isCalmAlong w s' ls)

theorem sparesAll_of_takesFree
    {now n : Nat}
    {picks : Nat → Nat}
    (hFree : takesFree now picks n s = true) :
    SparesAll now picks n s := by
  induction n generalizing s with
  | zero => trivial
  | succ n ih =>
      rw [takesFree, Bool.and_eq_true] at hFree
      refine ⟨fun e hDue => ?_, fun s' hNext => ?_⟩
      · have hEntry := hFree.1
        rw [hDue, Option.all_some, Bool.and_eq_true,
          Bool.and_eq_true, decide_eq_true_eq,
          List.contains_iff_mem] at hEntry
        refine ⟨hEntry.1, fun place hPlace vpn _ hMarked => ?_⟩
        have hNone := hEntry.2
        rw [hPlace, Option.all_some,
          List.contains_iff_mem.mpr hMarked.1] at hNone
        cases hNone
      · have hRest := hFree.2
        rw [hNext, Option.all_some] at hRest
        exact ih hRest

theorem meets_of_isCalm
    (hCalm : isCalm w s l = true) :
    Meets w s l := by
  rw [isCalm, Bool.and_eq_true] at hCalm
  refine ⟨sparesAll_of_takesFree hCalm.1, fun s' hAll => ?_⟩
  have hLater := hCalm.2
  rw [hAll, Option.all_some, Bool.and_eq_true,
    List.isEmpty_iff] at hLater
  constructor
  · intro place hHit vpn hPending hMarked
    have hOwn := hLater.1
    rw [hitsOwn, hHit, Option.all_some, Bool.and_eq_true] at hOwn
    have hPage := List.all_eq_true.mp hOwn.2 vpn hPending
    rcases hMarked.2 with ⟨b, hBlock, -, hTag⟩
    rw [hBlock, Option.all_some, ← hTag, bne_self_eq_false,
      Bool.or_false, beq_iff_eq] at hPage
    exact Or.inl ⟨hOwn.1, hPage⟩
  · intro _ e hMem
    rw [hLater.2] at hMem
    cases hMem

theorem along_of_isCalm
    {ls : List AtpLookup}
    (hCalm : isCalmAlong w s ls = true) :
    Run.Along (lookup w) (Meets w) s ls := by
  induction ls generalizing s with
  | nil => trivial
  | cons l ls ih =>
      rw [isCalmAlong, Bool.and_eq_true] at hCalm
      refine ⟨meets_of_isCalm hCalm.1, fun s' hStep => ?_⟩
      have hRest := hCalm.2
      rw [hStep, Option.all_some] at hRest
      exact ih hRest

/- The four proposals of the second miss become marked
   blocks, and the third lookup hits one of them. -/
theorem consistent_of_run_room :
    ∃ s s', queueOf 4 = some s ∧
      Run.run (lookup mappedPages) s
        [missOf 0x10000 0, missOf 0x11000 1,
          missOf 0x12000 100] = some s' ∧
      (s'.tlb.queue.length = 0 ∧ s'.marks.length = 3 ∧
        s'.atp.pendingVpns.length = 3) ∧ s'.Consistent := by
  have hRun : ((queueOf 4).any (fun s =>
      isCalmAlong mappedPages s [missOf 0x10000 0,
          missOf 0x11000 1, missOf 0x12000 100] &&
        (Run.run (lookup mappedPages) s [missOf 0x10000 0,
          missOf 0x11000 1, missOf 0x12000 100]).any
          (fun s' => decide (s'.tlb.queue.length = 0 ∧
            s'.marks.length = 3 ∧
            s'.atp.pendingVpns.length = 3)))) = true := by
    decide +kernel
  rcases (Option.any_eq_true _ _).mp hRun with
    ⟨s, hConstruct, hBoth⟩
  rcases Bool.and_eq_true_iff.mp hBoth with ⟨hCalm, hLast⟩
  rcases (Option.any_eq_true _ _).mp hLast with
    ⟨s', hRun', hLength⟩
  exact ⟨s, s', hConstruct, hRun', of_decide_eq_true hLength,
    consistent_of_run mappedPages _ _ _ _ _ _ s s' hConstruct
      (along_of_isCalm hCalm) hRun'⟩

/- A page that is pending without an entry or a block. -/
def hasLost (s : AtpTlb σ τ) : Bool :=
  s.marks.isEmpty && s.atp.pendingVpns.any (fun vpn =>
    s.tlb.queue.all (fun e => e.address != s.atp.pageAddr vpn))

theorem not_consistent_of_hasLost
    (hLost : s.hasLost = true) :
    ¬s.Consistent := by
  rw [hasLost, Bool.and_eq_true, List.isEmpty_iff,
    List.any_eq_true] at hLost
  rcases hLost with ⟨hMarks, vpn, hMem, hAll⟩
  intro hConsistent
  rcases hConsistent.pending vpn hMem with ⟨e, hE, hEq⟩ |
    ⟨place, hMark, -⟩
  · have hNe := List.all_eq_true.mp hAll e hE
    rw [hEq] at hNe
    simp at hNe
  · rw [hMarks] at hMark
    cases hMark

/- A queue of one entry drops three of the four proposals. -/
theorem not_consistent_capped :
    ∃ s s', queueOf 1 = some s ∧
      Run.run (lookup mappedPages) s
        [missOf 0x10000 0, missOf 0x11000 1] = some s' ∧
      ¬s'.Consistent := by
  have hRun : ((queueOf 1).any (fun s =>
      (Run.run (lookup mappedPages) s
        [missOf 0x10000 0, missOf 0x11000 1]).any
          hasLost)) = true := by
    decide +kernel
  rcases (Option.any_eq_true _ _).mp hRun with
    ⟨s, hConstruct, hNext⟩
  rcases (Option.any_eq_true _ _).mp hNext with
    ⟨s', hRun', hLost⟩
  exact ⟨s, s', hConstruct, hRun', not_consistent_of_hasLost hLost⟩

end AtpTlb

end Virtuoso
