import Mathlib.Data.List.Nodup
import Virtuoso.Recency.List

/-
  The victims of the recency prefetcher.

  A page that leaves a TLB is to be in the recency list after
  the next demand that is processed, behind the pages that
  left after it, unless it is demanded again. The prefetcher
  keeps only the victim that was reported last, so the ones
  before it are right only if the list had them already.

  Main declarations:
    * `RecencySession.records_iff`
    * `RecencySession.records_run_iff`
-/

------------------------------------------------------------
-- Sessions
------------------------------------------------------------

namespace Virtuoso

section Evict

variable {α : Type*} [DecidableEq α]
variable {v : α} {l r m : List α}

/- A page leaves after all others. -/
def evict (v : α) (l : List α) : List α :=
  v :: l.filter (fun w => decide (w ≠ v))

theorem mem_foldr_evict :
    v ∈ r.foldr evict [] ↔ v ∈ r := by
  induction r with
  | nil => rfl
  | cons w r ih =>
      rw [List.foldr_cons, evict, List.mem_cons,
        List.mem_filter, ih, List.mem_cons]
      by_cases hEq : v = w <;> simp [hEq]

/-
  The pages of a list `l` and of reports `r` since, in the
  order of eviction, without those of `d`.
-/
def evictions (r d l : List α) : List α :=
  (r.foldr evict []).filter (fun w => decide (w ∉ d)) ++
    l.filter (fun w => decide (w ∉ r ∧ w ∉ d))

/- A report is the latest, whether or not it was dropped. -/
theorem evict_evictions
    (r d l : List α)
    (v : α) :
    evict v (evictions r d l) =
      evictions (v :: r)
        (d.filter (fun w => decide (w ≠ v))) l := by
  rw [evict, evictions, evictions, List.foldr_cons, evict,
    List.filter_cons_of_pos (by simp), List.filter_append,
    List.filter_filter, List.filter_filter,
    List.filter_filter, List.cons_append]
  congr 2
  · apply List.filter_congr
    intro w _
    by_cases hEq : w = v <;> simp [hEq]
  · apply List.filter_congr
    intro w _
    by_cases hEq : w = v <;> simp [hEq]

theorem filter_evictions
    (r d l : List α)
    (v : α) :
    (evictions r d l).filter (fun w => decide (w ≠ v)) =
      evictions r (v :: d) l := by
  rw [evictions, evictions, List.filter_append,
    List.filter_filter, List.filter_filter]
  congr 1
  · apply List.filter_congr
    intro w _
    by_cases hEq : w = v <;> simp [hEq]
  · apply List.filter_congr
    intro w _
    by_cases hEq : w = v <;> simp [hEq]

/- Nothing was reported. -/
theorem evictions_nil
    (d l : List α) :
    evictions [] d l = l.filter (fun w => decide (w ∉ d)) := by
  simp [evictions]

/- The last report is the first, if it is not dropped. -/
theorem evictions_cons
    (r d l : List α)
    (v : α) :
    evictions (v :: r) d l =
      [v].filter (fun w => decide (w ∉ d)) ++
        ((r.foldr evict []).filter
            (fun w => decide (w ≠ v ∧ w ∉ d)) ++
          l.filter (fun w => decide (w ∉ v :: r ∧ w ∉ d))) := by
  rw [evictions, List.foldr_cons, evict,
    ← List.singleton_append, List.filter_append,
    List.filter_filter, List.append_assoc]
  congr 2
  apply List.filter_congr
  intro w _
  by_cases hEq : w = v <;> simp [hEq]

/- Some pages come first if the others follow in order. -/
theorem prefix_iff_eq_append
    (hNodup : m.Nodup) :
    r <+: m ↔ m = r ++ m.filter (fun w => decide (w ∉ r)) := by
  constructor
  · rintro ⟨t, hEq⟩
    subst hEq
    rcases List.nodup_append.mp hNodup with ⟨-, -, hApart⟩
    have hNone : r.filter (fun w => decide (w ∉ r)) = [] := by
      simp [List.filter_eq_nil_iff]
    have hAll : t.filter (fun w => decide (w ∉ r)) = t := by
      rw [List.filter_eq_self]
      intro w hMem
      exact decide_eq_true (fun hOld => hApart w hOld w hMem rfl)
    rw [List.filter_append, hNone, hAll, List.nil_append]
  · intro hEq
    exact ⟨_, hEq.symm⟩

/- Where nothing else is asked for, an erasure is no loss. -/
theorem filter_erase
    {p : α → Bool}
    (hDrop : p v = false) :
    (l.erase v).filter p = l.filter p := by
  induction l with
  | nil => rfl
  | cons w l ih =>
      by_cases hEq : w = v
      · rw [hEq, List.erase_cons_head, List.filter_cons, hDrop]
        rfl
      · rw [List.erase_cons_tail (by simpa using hEq),
          List.filter_cons, List.filter_cons, ih]

end Evict

/-
  `reported` has the victims since the last processed demand,
  the latest first; `evicted` the pages that were not
  demanded since they were reported, the latest first; and
  `demanded` those that were.
-/
structure RecencySession where
  prefetcher : RecencyPrefetcher
  reported : List Nat
  evicted : List Nat
  demanded : List Nat

namespace RecencySession

open RecencyPrefetcher (Request invalidVpn consume)

/- No victim has been reported. -/
def start
    (config : RecencyConfig)
    (coreId : Nat) : RecencySession :=
  ⟨.construct config coreId, [], [], []⟩

/- A request, with what it reports and queues. -/
def call
    (t : RecencySession)
    (request : Request) : RecencySession :=
  let s := t.prefetcher
  let v := s.vpnOf request.address
  match request with
  | .notifyVictim _ _ _ =>
      { prefetcher := s.step request
        reported := v :: t.reported
        evicted := evict v t.evicted
        demanded :=
          t.demanded.filter (fun w => decide (w ≠ v)) }
  | .performPrefetch _ _ _ =>
      { prefetcher := s.step request
        reported :=
          if s.processes request = none then t.reported
          else []
        evicted := t.evicted.filter (fun w => decide (w ≠ v))
        demanded := v :: t.demanded }

/- Every request returns. -/
def step
    (t : RecencySession)
    (request : Request) :
    Option RecencySession :=
  some (t.call request)

/- The pages of the recency list. -/
def Lists (t : RecencySession) (l : List Nat) : Prop :=
  t.prefetcher.links.Follows t.prefetcher.stackHeadVpn l

/-
  After a processed demand the pages of the list that were
  not demanded again are those that were reported, in the
  order of eviction.
-/
def Records
    (t : RecencySession)
    (request : Request) : Prop :=
  t.prefetcher.processes request ≠ none →
    ∃ l, (t.call request).Lists l ∧
      l.filter (fun w =>
          decide (w ∉ (t.call request).demanded)) =
        (t.call request).evicted

/-
  Of the victims before the last one, those that were not
  demanded again are already the first of the list.
-/
def Keeps (t : RecencySession) (request : Request) : Prop :=
  t.prefetcher.processes request ≠ none →
    let v := t.prefetcher.vpnOf request.address
    match t.reported with
    | [] => True
    | last :: others =>
        (last = invalidVpn → last ∈ v :: t.demanded) ∧
        ∃ l, t.Lists l ∧
          (others.foldr evict []).filter (fun w =>
              decide (w ≠ last ∧ w ∉ v :: t.demanded)) <+:
            l.filter (fun w =>
              decide (w ≠ last ∧ w ∉ v :: t.demanded))

------------------------------------------------------------
-- The Invariant And Runs
------------------------------------------------------------

/-
  The pages that left are the reported ones, and those of the
  list behind them.
-/
structure Inv
    (t : RecencySession)
    (l : List Nat) : Prop where
  valid : t.prefetcher.Valid l
  pending :
    t.prefetcher.pendingVictimVpn = t.reported.headD invalidVpn
  evicted_eq : t.evicted = evictions t.reported t.demanded l

variable {t : RecencySession} {l : List Nat}

theorem Inv.lists
    (hInv : t.Inv l) :
    t.Lists l :=
  hInv.valid.represents.follows

theorem inv_start
    (config : RecencyConfig)
    (coreId : Nat) :
    (start config coreId).Inv [] where
  valid := RecencyPrefetcher.valid_construct config coreId
  pending := rfl
  evicted_eq := rfl

theorem inv_notifyVictim
    (hInv : t.Inv l)
    (address pageSize ppn : Nat) :
    (t.call (.notifyVictim address pageSize ppn)).Inv l where
  valid := RecencyPrefetcher.valid_notifyVictim address
    pageSize ppn hInv.valid
  pending := rfl
  evicted_eq := by
    simp only [call]
    rw [hInv.evicted_eq]
    exact evict_evictions _ _ _ _

variable {address : Nat} {pt : Option RecencyLookups}
variable {tlbHit : Bool}

/- A demand that is not processed. -/
theorem inv_unprocessed
    (hInv : t.Inv l)
    (hNone : t.prefetcher.processes
      (.performPrefetch address pt tlbHit) = none)
    (hStep : t.prefetcher.step
      (.performPrefetch address pt tlbHit) = t.prefetcher) :
    (t.call (.performPrefetch address pt tlbHit)).Inv l where
  valid := by
    rw [call, hStep]
    exact hInv.valid
  pending := by
    simp only [call, hStep, hNone, if_true]
    exact hInv.pending
  evicted_eq := by
    simp only [call, hNone, if_true]
    rw [hInv.evicted_eq]
    exact filter_evictions _ _ _ _

/-
  The order of a processed demand is that of the eviction if
  the other reports are the first of the list.
-/
theorem filter_consume_eq_iff
    {v : Nat}
    {d : List Nat}
    (last : Nat)
    (others : List Nat)
    (hNodup : l.Nodup)
    (hNil : invalidVpn ∉ l)
    (hDrop : v ∈ d) :
    ((consume last l).erase v).filter (fun w => decide (w ∉ d)) =
        evictions (last :: others) d l ↔
      (last = invalidVpn → last ∈ d) ∧
        (others.foldr evict []).filter
            (fun w => decide (w ≠ last ∧ w ∉ d)) <+:
          l.filter (fun w => decide (w ≠ last ∧ w ∉ d)) := by
  have hErase : ((consume last l).erase v).filter
        (fun w => decide (w ∉ d)) =
      (consume last l).filter (fun w => decide (w ∉ d)) :=
    filter_erase (by simp [hDrop])
  have hRest : l.filter
        (fun w => decide (w ∉ last :: others ∧ w ∉ d)) =
      (l.filter (fun w => decide (w ≠ last ∧ w ∉ d))).filter
        (fun w => decide (w ∉ (others.foldr evict []).filter
          (fun w => decide (w ≠ last ∧ w ∉ d)))) := by
    rw [List.filter_filter]
    apply List.filter_congr
    intro w _
    simp only [List.mem_filter, mem_foldr_evict]
    by_cases hEq : w = last <;> by_cases hMem : w ∈ d <;>
      simp [hEq, hMem]
  rw [hErase, evictions_cons, hRest,
    prefix_iff_eq_append (hNodup.filter _)]
  by_cases hSome : last = invalidVpn
  · have hOut : last ∉ l := hSome ▸ hNil
    have hSame : l.filter (fun w => decide (w ∉ d)) =
        l.filter (fun w => decide (w ≠ last ∧ w ∉ d)) := by
      apply List.filter_congr
      intro w hMem
      have hNe : w ≠ last := fun hEq => hOut (hEq ▸ hMem)
      simp [hNe]
    rw [consume, if_pos hSome, ← hSame]
    by_cases hMem : last ∈ d
    · have hEmpty : [last].filter (fun w => decide (w ∉ d)) =
          [] := by
        simp [hMem]
      rw [hEmpty, List.nil_append]
      exact ⟨fun hEq => ⟨fun _ => hMem, hEq⟩, And.right⟩
    · constructor
      · intro hEq
        have hIn : last ∈ l.filter (fun w => decide (w ∉ d)) := by
          rw [hEq]
          simp [hMem]
        exact absurd (List.mem_filter.mp hIn).1 hOut
      · intro hBoth
        exact absurd (hBoth.1 hSome) hMem
  · have hSame : (l.erase last).filter (fun w => decide (w ∉ d)) =
        l.filter (fun w => decide (w ≠ last ∧ w ∉ d)) := by
      rw [hNodup.erase_eq_filter, List.filter_filter]
      apply List.filter_congr
      intro w _
      by_cases hEq : w = last <;> simp [hEq]
    rw [consume, if_neg hSome, ← List.singleton_append,
      List.filter_append, hSame, List.append_cancel_left_eq]
    exact ⟨fun hEq => ⟨fun hNone => absurd hNone hSome, hEq⟩,
      And.right⟩

/- A processed demand, and the list that it leaves. -/
theorem processed
    (hInv : t.Inv l)
    (hSome : t.prefetcher.processes
      (.performPrefetch address pt tlbHit) ≠ none) :
    (t.call (.performPrefetch address pt tlbHit)).prefetcher.Valid
      ((consume (t.reported.headD invalidVpn) l).erase
        (t.prefetcher.vpnOf address)) ∧
    (t.call (.performPrefetch address pt
        tlbHit)).prefetcher.pendingVictimVpn = invalidVpn ∧
    (t.call (.performPrefetch address pt
        tlbHit)).reported = [] := by
  rcases RecencyPrefetcher.step_performPrefetch t.prefetcher
      address pt tlbHit with
    ⟨hNone, -⟩ | ⟨pt', s', hProcessed, -, hStep⟩
  · exact absurd hNone hSome
  · have hValid : (t.prefetcher.step
          (.performPrefetch address pt tlbHit)).Valid
        (t.prefetcher.listAfter l
          (.performPrefetch address pt tlbHit)) :=
      RecencyPrefetcher.valid_step hInv.valid
    rw [RecencyPrefetcher.listAfter, hProcessed,
      hInv.pending] at hValid
    refine ⟨hValid, ?_, if_neg hSome⟩
    rw [call, hStep]
    exact RecencyPrefetcher.pendingVictimVpn_demand _ _ _

theorem records_iff_evicted
    {l' : List Nat}
    {request : Request}
    (hValid : (t.call request).prefetcher.Valid l')
    (hSome : t.prefetcher.processes request ≠ none) :
    t.Records request ↔
      l'.filter (fun w =>
          decide (w ∉ (t.call request).demanded)) =
        (t.call request).evicted := by
  have hLists : (t.call request).Lists l' :=
    hValid.represents.follows
  constructor
  · intro hRecords
    rcases hRecords hSome with ⟨other, hOther, hEq⟩
    rw [hLists.unique hOther]
    exact hEq
  · intro hEq _
    exact ⟨l', hLists, hEq⟩

/- What is asked of the list before a processed demand. -/
theorem keeps_iff
    (hInv : t.Inv l)
    (hSome : t.prefetcher.processes
      (.performPrefetch address pt tlbHit) ≠ none) :
    t.Keeps (.performPrefetch address pt tlbHit) ↔
      ∀ last others, t.reported = last :: others →
        (last = invalidVpn →
          last ∈ t.prefetcher.vpnOf address :: t.demanded) ∧
        (others.foldr evict []).filter (fun w =>
            decide (w ≠ last ∧
              w ∉ t.prefetcher.vpnOf address :: t.demanded)) <+:
          l.filter (fun w =>
            decide (w ≠ last ∧
              w ∉ t.prefetcher.vpnOf address :: t.demanded)) := by
  cases hReported : t.reported with
  | nil => simp [Keeps, hReported]
  | cons last others =>
      constructor
      · intro hKeeps last' others' hEq
        cases hEq
        have hHere := hKeeps hSome
        simp only [hReported] at hHere
        rcases hHere with ⟨hPage, other, hOther, hFirst⟩
        rw [hInv.lists.unique hOther]
        exact ⟨hPage, hFirst⟩
      · intro hAll _
        rcases hAll last others rfl with ⟨hPage, hFirst⟩
        simp only [hReported]
        exact ⟨hPage, l, hInv.lists, hFirst⟩

/- A demand is right exactly if the last victim is enough. -/
theorem records_iff
    (request : Request)
    (hInv : t.Inv l) :
    t.Records request ↔ t.Keeps request := by
  cases request with
  | notifyVictim address pageSize ppn =>
      exact ⟨fun _ hSome => absurd rfl hSome,
        fun _ hSome => absurd rfl hSome⟩
  | performPrefetch address pt tlbHit =>
      by_cases hNone : t.prefetcher.processes
          (.performPrefetch address pt tlbHit) = none
      · exact ⟨fun _ hSome => absurd hNone hSome,
          fun _ hSome => absurd hNone hSome⟩
      · rcases processed hInv hNone with ⟨hValid, -, -⟩
        rw [records_iff_evicted hValid hNone, keeps_iff hInv hNone]
        have hEvicted : (t.call (.performPrefetch address pt
              tlbHit)).evicted =
            evictions t.reported
              (t.prefetcher.vpnOf address :: t.demanded) l := by
          rw [← filter_evictions, ← hInv.evicted_eq]
          rfl
        rw [hEvicted]
        have hRep := hInv.valid.represents
        cases hReported : t.reported with
        | nil =>
            have hErase := filter_erase (l := l)
              (v := t.prefetcher.vpnOf address)
              (p := fun w => decide (w ∉
                t.prefetcher.vpnOf address :: t.demanded))
              (by simp)
            rw [evictions_nil]
            exact ⟨fun _ _ _ hEq => by simp at hEq, fun _ => hErase⟩
        | cons last others =>
            have hIff := filter_consume_eq_iff last others
              hRep.nodup hRep.nil_not_mem
              (List.mem_cons_self
                (a := t.prefetcher.vpnOf address)
                (l := t.demanded))
            refine hIff.trans ?_
            constructor
            · intro hBoth last' others' hEq
              cases hEq
              exact hBoth
            · intro hAll
              exact hAll last others rfl

/- Every call that records the victims keeps the invariant. -/
theorem inv_call
    (request : Request)
    (hInv : t.Inv l)
    (hRecords : t.Records request) :
    ∃ l', (t.call request).Inv l' := by
  cases request with
  | notifyVictim address pageSize ppn =>
      exact ⟨l, inv_notifyVictim hInv address pageSize ppn⟩
  | performPrefetch address pt tlbHit =>
      by_cases hNone : t.prefetcher.processes
          (.performPrefetch address pt tlbHit) = none
      · rcases RecencyPrefetcher.step_performPrefetch
            t.prefetcher address pt tlbHit with
          ⟨-, hStep⟩ | ⟨pt', s', hSome, -, -⟩
        · exact ⟨l, inv_unprocessed hInv hNone hStep⟩
        · rw [hNone] at hSome
          cases hSome
      · rcases processed hInv hNone with
          ⟨hValid, hPending, hReported⟩
        refine ⟨_, hValid, ?_, ?_⟩
        · rw [hPending, hReported]
          rfl
        · rw [hReported, evictions_nil]
          exact ((records_iff_evicted hValid hNone).mp
            hRecords).symm

/-
  A run records every victim exactly when, at each processed
  demand, the victims before the last one are the first of
  the list.
-/
theorem records_run_iff
    (config : RecencyConfig)
    (coreId : Nat)
    (requests : List Request) :
    Run.Along step Records (start config coreId) requests ↔
      Run.Along step Keeps (start config coreId) requests := by
  have hAll : Run.Along step (fun _ _ => True)
      (start config coreId) requests :=
    Run.along_of_forall_mem _ (fun _ _ => trivial)
  have hAfter : ∀ (t : RecencySession) (request : Request)
      (t' : RecencySession), (∃ l, t.Inv l) → True →
      t.Records request → step t request = some t' →
        ∃ l, t'.Inv l := by
    intro t request t' hSome _ hRecords hStep
    rcases hSome with ⟨l, hInv⟩
    cases hStep
    exact inv_call request hInv hRecords
  have hIff : ∀ (t : RecencySession) (request : Request),
      (∃ l, t.Inv l) → True →
        (t.Records request ↔ t.Keeps request) := by
    intro t request hSome _
    rcases hSome with ⟨l, hInv⟩
    exact records_iff request hInv
  exact Run.along_iff_along hAfter hIff
    ⟨[], inv_start config coreId⟩ hAll

/- The values of `mmu_recency.cfg`. -/
def plainConfig : RecencyConfig :=
  ⟨12, true, true, true, false, true⟩

/- Lookups that find a frame for every page. -/
def plainLookups : RecencyLookups where
  directWalk := fun _ => some (1, 12)
  transparentWalk := fun _ => none
  contains := fun _ => false

/-
  Two pages leave before the next miss, as two TLBs report
  them: only the later one is in the list after the miss.
-/
theorem not_records_run :
    (∃ t ∈ Run.run step (start plainConfig 0)
        [.notifyVictim 0x1000 12 5, .notifyVictim 0x2000 12 6,
          .performPrefetch 0x3000 (some plainLookups) false],
      t.Lists [2] ∧ t.evicted = [2, 1]) ∧
    ¬ Run.Along step Records (start plainConfig 0)
      [.notifyVictim 0x1000 12 5, .notifyVictim 0x2000 12 6,
        .performPrefetch 0x3000 (some plainLookups) false] := by
  constructor
  · exact ⟨_, rfl, by
      simp only [Lists]
      decide +kernel⟩
  · rintro ⟨-, hAfter⟩
    rcases hAfter _ rfl with ⟨-, hAfter'⟩
    have hRecords := (hAfter' _ rfl).1
    rcases hRecords (by decide +kernel) with
      ⟨l, hLists, hEq⟩
    have hList : l = [2] :=
      hLists.unique (by decide +kernel)
    subst hList
    revert hEq
    decide +kernel

end RecencySession

end Virtuoso
