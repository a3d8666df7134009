import Virtuoso.Tlb.Invalidation

/-
  The prefetch queue of a TLB and its counters. A counter is
  kept for each region of 32KB that has an entry in the
  queue; entries that become blocks count down, and the
  predictions that are queued count up, up to the capacity.

  Main declarations:
    * `Tlb.accounts_lookup`
    * `Tlb.accounts_run`
-/

namespace Virtuoso

namespace Tlb

variable {σ : Type} {t t' : Tlb σ}

/- The entries of a queue in a region. -/
def entriesIn
    (queue : List QueryEntry)
    (region : Nat) : Nat :=
  queue.countP (fun e => regionId e.address == region)

/- The counters are right and the capacity is respected. -/
structure Accounts (t : Tlb σ) : Prop where
  counts : ∀ region,
    t.regionRefcount region = entriesIn t.queue region
  capped : t.queue.length ≤ t.config.maxPrefetchCount

/- `lookup` as a step, with its block left out. -/
def lookupStep
    (t : Tlb σ)
    (request : Lookup) : Option (Tlb σ) :=
  (t.lookup request).map Prod.snd

theorem Accounts.push
    (hAccounts : Accounts t)
    (hRoom : t.queue.length < t.config.maxPrefetchCount)
    (e : QueryEntry) :
    Accounts (t.pushEntry e) := by
  refine ⟨fun region => ?_, ?_⟩
  · simp only [pushEntry, entriesIn, List.countP_append,
      List.countP_singleton, beq_iff_eq]
    have hCount := hAccounts.counts region
    rw [entriesIn] at hCount
    by_cases hHere : regionId e.address = region
    · rw [if_pos hHere, hHere, Function.update_self, hCount]
    · rw [if_neg hHere, Function.update_of_ne
        (Ne.symm hHere), hCount, Nat.add_zero]
  · simp only [pushEntry, List.length_append, List.length_singleton]
    exact hRoom

/- An entry that is taken was counted in its region. -/
theorem Accounts.pop
    (hAccounts : Accounts t)
    {e : QueryEntry}
    (hMem : e ∈ t.queue) :
    Accounts (t.popEntry e) := by
  refine ⟨fun region => ?_, ?_⟩
  · have hSplit := (List.perm_cons_erase hMem).countP_eq
      (fun e => regionId e.address == region)
    have hCount := hAccounts.counts region
    rw [entriesIn, hSplit, List.countP_cons] at hCount
    simp only [popEntry, entriesIn]
    by_cases hHere : regionId e.address = region
    · rw [if_pos (beq_iff_eq.mpr hHere)] at hCount
      rw [hHere, Function.update_self, hCount, Nat.add_sub_cancel]
    · rw [if_neg (by simpa using hHere)] at hCount
      rw [Function.update_of_ne (Ne.symm hHere), hCount,
        Nat.add_zero]
  · exact Nat.le_trans List.length_erase_le hAccounts.capped

/- What the accounts depend on. -/
theorem Accounts.of_same
    (hAccounts : Accounts t)
    (hConfig : t'.config = t.config)
    (hQueue : t'.queue = t.queue)
    (hCounts : t'.regionRefcount = t.regionRefcount) :
    Accounts t' := by
  refine ⟨fun region => ?_, ?_⟩
  · rw [hCounts, hQueue]
    exact hAccounts.counts region
  · rw [hQueue, hConfig]
    exact hAccounts.capped

theorem Accounts.insert
    (hAccounts : Accounts t)
    {address : BitVec 64}
    {pageSize ppn : Nat}
    {out : Option TlbBlock}
    (hInsert : t.insertSingleLineTLB address pageSize ppn =
      some (out, t')) :
    Accounts t' := by
  unfold insertSingleLineTLB at hInsert
  simp only at hInsert
  split at hInsert
  · cases hInsert
  · split at hInsert
    · cases hInsert
    · cases hInsert
      exact hAccounts.of_same rfl rfl rfl

theorem accounts_materializeAll
    {now : Nat}
    {picks : Nat → Nat}
    {n : Nat}
    (hAccounts : Accounts t)
    (hCall : materializeAll now picks n t = some t') :
    Accounts t' := by
  induction n generalizing t with
  | zero =>
      rw [← Option.some.inj hCall]
      exact hAccounts
  | succ n ih =>
      rcases Option.bind_eq_some_iff.mp hCall with
        ⟨⟨out, next⟩, hFirst, hRest⟩
      refine ih ?_ hRest
      unfold materialize at hFirst
      cases hDue : dueEntry t.queue now (picks n) with
      | none =>
          rw [hDue] at hFirst
          cases hFirst
          exact hAccounts
      | some e =>
          simp only [hDue, allocate, Bool.not_true,
            Bool.and_false, Bool.false_eq_true,
            if_false] at hFirst
          exact (hAccounts.pop (mem_of_dueEntry hDue)).insert hFirst

theorem Accounts.access
    (hAccounts : Accounts t)
    (address : BitVec 64) :
    Accounts (t.accessSingleLineTLB address).2 := by
  unfold accessSingleLineTLB
  split
  · exact hAccounts
  · exact hAccounts.of_same rfl rfl rfl

/- Every lookup keeps the accounts. -/
theorem accounts_lookup
    {request : Lookup}
    (hAccounts : Accounts t)
    (hStep : t.lookupStep request = some t') :
    Accounts t' := by
  unfold lookupStep lookup at hStep
  split_ifs at hStep
  · rw [Option.map_map] at hStep
    rcases Option.map_eq_some_iff.mp hStep with
      ⟨ready, hReady, hNext⟩
    rw [← hNext]
    exact enqueue_inv request.outputs
      (fun _ e hKept hRoom _ => hKept.push hRoom e)
      ((accounts_materializeAll hAccounts hReady).access _)
  · cases hStep
    exact hAccounts.access _

/-
  In every state that lookups reach, each region is counted
  as often as the queue has an entry in it, and the queue is
  within its capacity.
-/
theorem accounts_run
    {config : TlbConfig}
    {policy : Replacement σ}
    {replacement : σ}
    (hConstruct : construct config policy replacement = some t)
    (requests : List Lookup)
    (hRun : Run.run lookupStep t requests = some t') :
    Accounts t' := by
  refine Run.run_invariant
    (fun _ _ _ hOld hStep => accounts_lookup hOld hStep)
    ?_ hRun
  unfold construct at hConstruct
  split_ifs at hConstruct
  cases hConstruct
  exact ⟨fun _ => rfl, Nat.zero_le _⟩

/- Three predictions, and a lookup when one is due. -/
def twoLookups : List Lookup :=
  [⟨0x1000, 0, id, [[⟨3, 12, 7, 0x8000⟩,
      ⟨9, 12, 8, 0x9000⟩, ⟨9, 12, 9, 0xa000⟩]]⟩,
    ⟨0x8000, 5, id, []⟩]

/- The third does not fit; the first becomes a block. -/
theorem accounts_run_twoLookups :
    ∃ t t', construct ⟨2, 2, [12], .data, false, true, 2⟩
        Replacement.lru (Replacement.lruInit 1 2) = some t ∧
      Run.run lookupStep t twoLookups = some t' ∧
      t'.queue = [⟨9, 12, 8, 0x9000⟩] ∧ Accounts t' :=
  ⟨_, _, rfl, rfl, rfl, @accounts_run _ _ _
    ⟨2, 2, [12], .data, false, true, 2⟩ Replacement.lru
    (Replacement.lruInit 1 2) rfl twoLookups rfl⟩

end Tlb

end Virtuoso
