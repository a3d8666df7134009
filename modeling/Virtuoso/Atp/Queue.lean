import Virtuoso.Atp.Basic
import Virtuoso.Tlb.Blocks

/-
  A TLB with a prefetch queue and the agile prefetcher, from
  `tlb.cc`.

  The blocks that come from the queue are marked, by set and
  way, until a lookup hits them. A page is pending from its
  proposal to the hit that consumes it. Pending pages are to
  be in the queue or in a marked block, but the queue drops
  proposals, and marked blocks are replaced.

  Main declarations:
    * `Atp.proposes_performPrefetch`
    * `Atp.pending_afterHit`
-/

------------------------------------------------------------
-- Consistent Queues
------------------------------------------------------------

namespace Virtuoso

/- A TLB whose prefetcher is ATP. -/
structure AtpTlb (σ τ : Type) where
  tlb : Tlb σ
  marks : List (Nat × Nat)
  atp : Atp
  walks : τ

/- What a lookup reads from outside. -/
structure AtpLookup where
  call : Atp.AtpCall
  now : Nat
  picks : Nat → Nat
  hasPageTable : Bool

namespace AtpTlb

open Tlb

variable {σ τ : Type}

/- Where a page is inserted. -/
def replacedAt
    (t : Tlb σ)
    (address : BitVec 64)
    (pageSize : Nat) : Option (Nat × Nat) :=
  let index := t.setIndex (tagOf address pageSize)
  (t.policy.getReplacementIndex t.replacement index
    (t.sets.getD index [])).map (fun r => (index, r.1))

/- A new block has no mark. -/
def unmark
    (marks : List (Nat × Nat))
    (place : Option (Nat × Nat)) : List (Nat × Nat) :=
  marks.filter (fun p => some p != place)

/- The place of the block that the TLB finds. -/
def foundAt
    (t : Tlb σ)
    (address : BitVec 64) : Option (Nat × Nat) :=
  (t.findSingleLineTLB address t.config.pageSizes).map
    (fun r => (r.1, r.2.1))

/-
  One entry of the queue becomes a block. The mark is put on
  the block that is found for the address of the entry.
-/
def materialize
    (s : AtpTlb σ τ)
    (now pick : Nat) : Option (AtpTlb σ τ) :=
  match dueEntry s.tlb.queue now pick with
  | none => some s
  | some e =>
      let t := s.tlb.popEntry e
      (t.allocate e.address e.pageSize e.ppn true).map
        (fun r =>
          { s with
            tlb := r.2
            marks := (foundAt r.2 e.address).toList ++
              unmark s.marks (replacedAt t e.address e.pageSize) })

/- The loop; no iteration adds an entry to the queue. -/
def materializeAll
    (now : Nat)
    (picks : Nat → Nat) :
    Nat → AtpTlb σ τ → Option (AtpTlb σ τ)
| 0, s => some s
| n + 1, s =>
    (s.materialize now (picks n)).bind (materializeAll now picks n)

/- The block that is hit has a mark. -/
def pqHit (s : AtpTlb σ τ) (address : BitVec 64) : Bool :=
  (foundAt s.tlb address).any (fun p => s.marks.contains p)

/- The prefetcher is called while the queue has room. -/
def isCalled (s : AtpTlb σ τ) (l : AtpLookup) : Bool :=
  l.hasPageTable &&
    decide (s.tlb.queue.length < s.tlb.config.maxPrefetchCount)

/- The call of the prefetcher. -/
def predictions
    (w : AtpWalker τ)
    (s : AtpTlb σ τ)
    (l : AtpLookup) : Atp.Progress τ :=
  s.atp.performPrefetch w l.call
    (foundAt s.tlb l.call.address).isSome
    (s.pqHit l.call.address) s.walks

/- A lookup after the queue entries that are due. -/
def access
    (w : AtpWalker τ)
    (s : AtpTlb σ τ)
    (l : AtpLookup) : AtpTlb σ τ :=
  let t := (s.tlb.accessSingleLineTLB l.call.address).2
  let marks := unmark s.marks (foundAt s.tlb l.call.address)
  if s.isCalled l then
    let r := predictions w s l
    { tlb := t.enqueue [r.result]
      marks := marks
      atp := r.atp
      walks := r.walks }
  else { s with tlb := t, marks := marks }

/- `TLB::lookup`. -/
def lookup
    (w : AtpWalker τ)
    (s : AtpTlb σ τ)
    (l : AtpLookup) : Option (AtpTlb σ τ) :=
  if s.tlb.config.prefetch then
    (materializeAll l.now l.picks s.tlb.queue.length s).map
      (fun s => access w s l)
  else
    some
      { s with
        tlb := (s.tlb.accessSingleLineTLB l.call.address).2
        marks :=
          unmark s.marks (foundAt s.tlb l.call.address) }

/- A new TLB and a new prefetcher. -/
def construct
    (config : TlbConfig)
    (policy : Replacement σ)
    (replacement : σ)
    (atpConfig : AtpConfig)
    (walks : τ) : Option (AtpTlb σ τ) :=
  (Tlb.construct config policy replacement).map (fun t =>
    ⟨t, [], Atp.construct atpConfig, walks⟩)

/- The page has an entry in the queue. -/
def Queued (s : AtpTlb σ τ) (address : BitVec 64) : Prop :=
  ∃ e ∈ s.tlb.queue, e.address = address

/- A marked block in the place has the page. -/
def MarkedAt
    (s : AtpTlb σ τ)
    (place : Nat × Nat)
    (address : BitVec 64) : Prop :=
  place ∈ s.marks ∧ ∃ b,
    s.tlb.blockAt place.1 place.2 = some b ∧
      b.shared = true ∧ b.tag = tagOf address b.pageSize

/- The page is in the queue or in a marked block. -/
def Backed (s : AtpTlb σ τ) (address : BitVec 64) : Prop :=
  s.Queued address ∨ ∃ place, s.MarkedAt place address

/- The page is so, without the block in a place. -/
def BackedWithout
    (s : AtpTlb σ τ)
    (place : Nat × Nat)
    (address : BitVec 64) : Prop :=
  s.Queued address ∨
    ∃ other, other ≠ place ∧ s.MarkedAt other address

/- The pending pages match the queue and the marked blocks,
   and the pages with a free distance are pending. -/
structure Consistent (s : AtpTlb σ τ) : Prop where
  pending : ∀ vpn ∈ s.atp.pendingVpns, s.Backed (s.atp.pageAddr vpn)
  free : ∀ vpn ∈ s.atp.freeMeta.map Prod.fst,
    vpn ∈ s.atp.pendingVpns

/- The block that is found for the entry, once the entry is
   inserted, has the page. -/
def Renews
    (t : Tlb σ)
    (e : QueryEntry)
    (address : BitVec 64) : Prop :=
  ∃ evicted t' set way b,
    t.allocate e.address e.pageSize e.ppn true =
        some (evicted, t') ∧
      t'.findSingleLineTLB e.address t'.config.pageSizes =
        some (set, way, b) ∧
      b.tag = tagOf address b.pageSize

/-
  The page of an entry can be found after its insertion, and
  the block that is replaced was not the only one to stand
  for a pending page outside the page of the entry.
-/
def Spares (s : AtpTlb σ τ) (e : QueryEntry) : Prop :=
  (0 < e.pageSize ∧ e.pageSize ∈ s.tlb.config.pageSizes) ∧
    ∀ place,
      replacedAt s.tlb e.address e.pageSize = some place →
      ∀ vpn ∈ s.atp.pendingVpns,
        s.MarkedAt place (s.atp.pageAddr vpn) →
        s.BackedWithout place (s.atp.pageAddr vpn) ∨
          Renews (s.tlb.popEntry e) e (s.atp.pageAddr vpn)

/- This holds of every entry that becomes a block. -/
def SparesAll
    (now : Nat)
    (picks : Nat → Nat) :
    Nat → AtpTlb σ τ → Prop
| 0, _ => True
| n + 1, s =>
    (∀ e, dueEntry s.tlb.queue now (picks n) = some e →
      s.Spares e) ∧
      ∀ s', s.materialize now (picks n) = some s' →
        SparesAll now picks n s'

/-
  A marked block is hit while the prefetcher is called, and
  is the only one to stand for the page of the lookup at
  most.
-/
def Consumes (s : AtpTlb σ τ) (l : AtpLookup) : Prop :=
  ∀ place, foundAt s.tlb l.call.address = some place →
    ∀ vpn ∈ s.atp.pendingVpns,
      s.MarkedAt place (s.atp.pageAddr vpn) →
      (s.isCalled l = true ∧ vpn = l.call.vpn s.atp) ∨
        s.BackedWithout place (s.atp.pageAddr vpn)

/- The proposals that the queue does not take. -/
def dropped
    (t : Tlb σ)
    (batch : List QueryEntry) : List QueryEntry :=
  if t.batchDeduped batch then batch
  else
    batch.drop (t.config.maxPrefetchCount - t.queue.length)

/- No proposal is dropped, unless its page is in the queue. -/
def Accepts
    (w : AtpWalker τ)
    (s : AtpTlb σ τ)
    (l : AtpLookup) : Prop :=
  s.isCalled l = true →
    ∀ e ∈ dropped s.tlb (predictions w s l).result,
      s.Queued e.address

/- What a lookup needs. -/
def Meets
    (w : AtpWalker τ)
    (s : AtpTlb σ τ)
    (l : AtpLookup) : Prop :=
  SparesAll l.now l.picks s.tlb.queue.length s ∧
    ∀ s', materializeAll l.now l.picks s.tlb.queue.length s =
        some s' →
      Consumes s' l ∧ Accepts w s' l

------------------------------------------------------------
-- Proposals
------------------------------------------------------------

end AtpTlb

namespace Atp

variable {τ : Type}

/- What the bookkeeping depends on is the same. -/
structure Keeps (a a' : Atp) : Prop where
  config : a'.config = a.config
  pending : a'.pendingVpns = a.pendingVpns
  free : a'.freeMeta = a.freeMeta

theorem Keeps.refl
    (a : Atp) :
    Keeps a a :=
  ⟨rfl, rfl, rfl⟩

theorem Keeps.trans
    {a b c : Atp}
    (hFirst : Keeps a b)
    (hSecond : Keeps b c) :
    Keeps a c :=
  ⟨hSecond.config.trans hFirst.config,
    hSecond.pending.trans hFirst.pending,
    hSecond.free.trans hFirst.free⟩

theorem keeps_incrementFDT
    (a : Atp)
    (dist : Int) :
    Keeps a (a.incrementFDTForDistance dist) := by
  rw [incrementFDTForDistance, decayFDTIfNeeded]
  split_ifs <;> exact ⟨rfl, rfl, rfl⟩

theorem keeps_probeSampler
    (a : Atp)
    (vpn : BitVec 64) :
    Keeps a (a.probeSampler vpn) := by
  rw [probeSampler]
  cases a.sampler.findIdx? (fun e => e.valid && e.vpn == vpn) with
  | none => exact Keeps.refl a
  | some idx =>
      exact (keeps_incrementFDT a _).trans ⟨rfl, rfl, rfl⟩

theorem keeps_rateChildren
    (a : Atp)
    (vpn : BitVec 64) :
    Keeps a (a.rateChildren vpn) := by
  rw [rateChildren]
  cases fpqLookup (a.fpq .h2p) vpn <;>
    cases fpqLookup (a.fpq .masp) vpn <;>
    cases fpqLookup (a.fpq .stp) vpn <;>
    exact ⟨rfl, rfl, rfl⟩

theorem keeps_updateMASP
    (a : Atp)
    (vpn eip : BitVec 64) :
    Keeps a (a.updateMASP vpn eip) := by
  unfold updateMASP
  dsimp only
  split
  · exact ⟨rfl, rfl, rfl⟩
  · split <;> exact ⟨rfl, rfl, rfl⟩

variable (w : AtpWalker τ)

theorem keeps_updateFpq
    (vpn eip : BitVec 64)
    (l : List AtpChild)
    (s : Atp × τ) :
    Keeps s.1 (l.foldl (updateFpq w vpn eip) s).1 := by
  induction l generalizing s with
  | nil => exact Keeps.refl s.1
  | cons child l ih =>
      have hStep : Keeps s.1 (updateFpq w vpn eip s child).1 :=
        ⟨rfl, rfl, rfl⟩
      exact hStep.trans (ih (updateFpq w vpn eip s child))

theorem keeps_train
    (call : AtpCall)
    (a : Atp)
    (t : τ) :
    Keeps a (train w call a t).1 := by
  have hHistory : ∀ (a : Atp) vpn,
      Keeps a (a.updateH2PHistory vpn) :=
    fun a vpn => ⟨rfl, rfl, rfl⟩
  exact ((keeps_updateFpq w (call.vpn a) call.eip _ (a, t)).trans
    (hHistory _ _)).trans (keeps_updateMASP _ _ _)

/-
  A loop adds entries to the list, and only their pages to
  the pending ones.
-/
structure Proposes
    (s s' : Progress τ)
    (batch : List QueryEntry) : Prop where
  config : s'.atp.config = s.atp.config
  result : s'.result = s.result ++ batch
  ppn : ∀ e ∈ batch, e.ppn ≠ 0
  pending : ∀ vpn ∈ s'.atp.pendingVpns,
    vpn ∈ s.atp.pendingVpns ∨
      ∃ e ∈ batch, e.address = s.atp.pageAddr vpn
  kept : ∀ vpn ∈ s.atp.pendingVpns, vpn ∈ s'.atp.pendingVpns
  free : ∀ vpn ∈ s'.atp.freeMeta.map Prod.fst,
    vpn ∈ s.atp.freeMeta.map Prod.fst ∨ vpn ∈ s'.atp.pendingVpns

theorem pageAddr_congr
    {a a' : Atp}
    (hConfig : a'.config = a.config)
    (vpn : BitVec 64) :
    a'.pageAddr vpn = a.pageAddr vpn := by
  rw [pageAddr, pageAddr, hConfig]

theorem Proposes.of_keeps
    {s s' : Progress τ}
    (hKeeps : Keeps s.atp s'.atp)
    (hResult : s'.result = s.result) :
    Proposes s s' [] where
  config := hKeeps.config
  result := by rw [hResult, List.append_nil]
  ppn := by simp
  pending := fun vpn hMem => Or.inl (hKeeps.pending ▸ hMem)
  kept := fun vpn hMem => hKeeps.pending ▸ hMem
  free := fun vpn hMem => Or.inl (hKeeps.free ▸ hMem)

theorem Proposes.trans
    {s s' s'' : Progress τ}
    {batch batch' : List QueryEntry}
    (hFirst : Proposes s s' batch)
    (hSecond : Proposes s' s'' batch') :
    Proposes s s'' (batch ++ batch') where
  config := hSecond.config.trans hFirst.config
  result := by
    rw [hSecond.result, hFirst.result, List.append_assoc]
  ppn := by
    intro e hMem
    rcases List.mem_append.mp hMem with hMem | hMem
    · exact hFirst.ppn e hMem
    · exact hSecond.ppn e hMem
  pending := by
    intro vpn hMem
    rcases hSecond.pending vpn hMem with hOld | ⟨e, hE, hEq⟩
    · rcases hFirst.pending vpn hOld with hOld | ⟨e, hE, hEq⟩
      · exact Or.inl hOld
      · exact Or.inr ⟨e, List.mem_append_left batch' hE, hEq⟩
    · rw [pageAddr_congr hFirst.config] at hEq
      exact Or.inr ⟨e, List.mem_append_right batch hE, hEq⟩
  kept := fun vpn hMem =>
    hSecond.kept vpn (hFirst.kept vpn hMem)
  free := by
    intro vpn hMem
    rcases hSecond.free vpn hMem with hOld | hNew
    · rcases hFirst.free vpn hOld with hOld | hNew
      · exact Or.inl hOld
      · exact Or.inr (hSecond.kept vpn hNew)
    · exact Or.inr hNew

/- The rest of the state changes freely. -/
theorem Proposes.keep
    {s s' : Progress τ}
    {batch : List QueryEntry}
    {a : Atp}
    (hFirst : Proposes s s' batch)
    (hKeeps : Keeps s'.atp a)
    (walks : τ) :
    Proposes s ⟨a, walks, s'.result⟩ batch := by
  have hLast : Proposes s' ⟨a, walks, s'.result⟩ [] :=
    Proposes.of_keeps hKeeps rfl
  rw [← List.append_nil batch]
  exact hFirst.trans hLast

/- What every step of a loop does, the loop does. -/
theorem exists_proposes_foldl
    {α : Type}
    {step : Progress τ → α → Progress τ}
    (hStep : ∀ s x, ∃ batch, Proposes s (step s x) batch)
    (l : List α)
    (s : Progress τ) :
    ∃ batch, Proposes s (l.foldl step s) batch := by
  induction l generalizing s with
  | nil =>
      exact ⟨[], Proposes.of_keeps (Keeps.refl s.atp) rfl⟩
  | cons x l ih =>
      rcases hStep s x with ⟨batch, hFirst⟩
      rcases ih (step s x) with ⟨batch', hRest⟩
      exact ⟨batch ++ batch', hFirst.trans hRest⟩

/- A neighbour is proposed with its free distance. -/
theorem proposes_neighbor
    (s : Progress τ)
    (walks : τ)
    (neighbor : BitVec 64)
    (dist : Int)
    {e : QueryEntry}
    (hAddress : e.address = s.atp.pageAddr neighbor)
    (hPpn : e.ppn ≠ 0) :
    Proposes s
      { atp := (s.atp.recordFreeMeta neighbor
          dist).markPending neighbor
        walks := walks
        result := s.result ++ [e] } [e] where
  config := rfl
  result := rfl
  ppn := by simpa using hPpn
  pending := by
    intro vpn hMem
    rcases List.mem_insert_iff.mp hMem with hEq | hOld
    · exact Or.inr ⟨e, by simp, by rw [hAddress, hEq]⟩
    · exact Or.inl hOld
  kept := fun vpn hMem => List.mem_insert_of_mem hMem
  free := by
    intro vpn hMem
    rcases List.mem_map.mp hMem with ⟨entry, hIn, hEq⟩
    rcases List.mem_cons.mp hIn with hNew | hOld
    · refine Or.inr (List.mem_insert_iff.mpr (Or.inl ?_))
      rw [← hEq, hNew]
    · exact Or.inl (List.mem_map.mpr
        ⟨entry, (Assoc.mem_erase.mp hOld).1, hEq⟩)

theorem directPageTableLookupVPN_ppn
    {w : AtpWalker τ}
    {a : Atp}
    {t : τ}
    {vpn : BitVec 64}
    {ppn pageSize : Nat}
    (hSome : (directPageTableLookupVPN w a t vpn).1 =
      some (ppn, pageSize)) :
    ppn ≠ 0 := by
  rw [directPageTableLookupVPN] at hSome
  dsimp only at hSome
  split_ifs at hSome with hFailed
  intro hZero
  rw [Option.some.injEq, Prod.mk.injEq] at hSome
  exact hFailed (Or.inr (hSome.1.trans hZero))

theorem exists_proposes_freeStep
    (contains : BitVec 64 → Bool)
    (vpn : BitVec 64)
    (completion : Nat)
    (s : Progress τ)
    (dist : Int) :
    ∃ batch, Proposes s
      (freeStep w contains vpn completion s dist) batch := by
  have hSame : ∀ s' : Progress τ, Keeps s.atp s'.atp →
      s'.result = s.result → ∃ batch, Proposes s s' batch :=
    fun s' hKeeps hResult =>
      ⟨[], Proposes.of_keeps hKeeps hResult⟩
  by_cases hLine : inLine vpn dist
  · rw [freeStep, if_pos hLine]
    dsimp only
    split
    · exact hSame _ ⟨rfl, rfl, rfl⟩ rfl
    · next ppn pageSize hSome =>
        split_ifs
        · exact hSame _ ⟨rfl, rfl, rfl⟩ rfl
        · exact ⟨_, proposes_neighbor s _ _ dist rfl
            (directPageTableLookupVPN_ppn hSome)⟩
        · exact hSame _ ⟨rfl, rfl, rfl⟩ rfl
  · rw [freeStep, if_neg hLine]
    exact hSame s (Keeps.refl s.atp) rfl

theorem exists_proposes_processFreePTEs
    (contains : BitVec 64 → Bool)
    (vpn : BitVec 64)
    (pageSize completion : Nat)
    (s : Progress τ) :
    ∃ batch, Proposes s
      (processFreePTEs w contains vpn pageSize completion s)
      batch := by
  rw [processFreePTEs]
  split_ifs
  · exact ⟨[], Proposes.of_keeps (Keeps.refl s.atp) rfl⟩
  · exact exists_proposes_foldl
      (exists_proposes_freeStep w contains vpn completion)
      distances s

/- A target is pending before its entry is in the list. -/
theorem exists_proposes_target
    (contains : BitVec 64 → Bool)
    (s : Progress τ)
    (target : BitVec 64)
    {r : QueryEntry × τ}
    (hAddress : r.1.address = s.atp.pageAddr target)
    (hPpn : r.1.ppn ≠ 0) :
    let s' := processFreePTEs w contains target r.1.pageSize
      r.1.timestamp
      { s with atp := s.atp.markPending target, walks := r.2 }
    ∃ batch, Proposes s
      { s' with result := s'.result ++ [r.1] } batch := by
  intro s'
  rcases exists_proposes_processFreePTEs w contains target
    r.1.pageSize r.1.timestamp
    { s with atp := s.atp.markPending target, walks := r.2 }
    with ⟨batch, hFree⟩
  refine ⟨batch ++ [r.1], ?_⟩
  constructor
  · exact hFree.config
  · rw [← List.append_assoc, ← hFree.result]
  · intro e hMem
    rcases List.mem_append.mp hMem with hMem | hMem
    · exact hFree.ppn e hMem
    · rw [List.mem_singleton.mp hMem]
      exact hPpn
  · intro vpn hMem
    rcases hFree.pending vpn hMem with hOld | ⟨e, hE, hEq⟩
    · rcases List.mem_insert_iff.mp hOld with hEq | hOld
      · exact Or.inr ⟨r.1, by simp, by rw [hAddress, hEq]⟩
      · exact Or.inl hOld
    · exact Or.inr ⟨e, List.mem_append_left _ hE, hEq⟩
  · intro vpn hMem
    exact hFree.kept vpn (List.mem_insert_of_mem hMem)
  · exact hFree.free

theorem exists_proposes_issueStep
    (contains : BitVec 64 → Bool)
    (s : Progress τ)
    (target : BitVec 64) :
    ∃ batch, Proposes s (issueStep w contains s target) batch := by
  have hSame : ∀ walks, Proposes s { s with walks := walks } [] :=
    fun walks => Proposes.of_keeps (Keeps.refl s.atp) rfl
  rw [issueStep]
  dsimp only
  split_ifs with hSkip hPpn
  · exact ⟨[], hSame s.walks⟩
  · exact exists_proposes_target w contains s target
      (r := ptwTransparent w s.walks (s.atp.pageAddr target))
      rfl hPpn
  · exact ⟨[], hSame _⟩

theorem exists_proposes_demandWalk
    (call : AtpCall)
    (a : Atp)
    (t : τ) :
    ∃ batch, Proposes ⟨a, t, []⟩ (demandWalk w call a t) batch := by
  have hProbe : Proposes (⟨a, t, []⟩ : Progress τ)
      ⟨a.probeSampler (call.vpn a),
        (ptwTransparent w t call.address).2, []⟩ [] :=
    Proposes.of_keeps (keeps_probeSampler a _) rfl
  rw [demandWalk]
  split_ifs with hPpn
  · rcases exists_proposes_processFreePTEs w call.contains
      (call.vpn a) (ptwTransparent w t call.address).1.pageSize
      (ptwTransparent w t call.address).1.timestamp
      ⟨a.probeSampler (call.vpn a),
        (ptwTransparent w t call.address).2, []⟩ with
      ⟨batch, hFree⟩
    exact ⟨[] ++ batch, hProbe.trans hFree⟩
  · exact ⟨[], hProbe⟩

theorem exists_proposes_issueChosen
    (call : AtpCall)
    (s : Progress τ) :
    ∃ batch, Proposes s (issueChosen w call s) batch := by
  rw [issueChosen]
  cases s.atp.chooseATPChild with
  | none =>
      exact ⟨[], Proposes.of_keeps (Keeps.refl s.atp) rfl⟩
  | some child =>
      exact exists_proposes_foldl
        (exists_proposes_issueStep w call.contains) _ s

theorem exists_proposes_handleMiss
    (call : AtpCall)
    (a : Atp)
    (t : τ) :
    ∃ batch, Proposes ⟨a, t, []⟩ (handleMiss w call a t) batch := by
  rcases exists_proposes_demandWalk w call a t with
    ⟨batch, hDemand⟩
  have hRate := hDemand.keep
    (keeps_rateChildren _ (call.vpn a))
    (demandWalk w call a t).walks
  rcases exists_proposes_issueChosen w call
    { demandWalk w call a t with
      atp := (demandWalk w call a t).atp.rateChildren
        (call.vpn a) } with ⟨batch', hIssue⟩
  exact ⟨_, hRate.trans hIssue⟩

/- What becomes pending in a call is in the list of it. -/
theorem proposes_performPrefetch
    (call : AtpCall)
    (tlbHit pqHit : Bool)
    (a : Atp)
    (t : τ) :
    Proposes ⟨afterHit call pqHit a, t, []⟩
      (performPrefetch w call tlbHit pqHit a t)
      (performPrefetch w call tlbHit pqHit a t).result := by
  rw [performPrefetch]
  dsimp only
  split_ifs with hHit
  · exact Proposes.of_keeps (Keeps.refl _) rfl
  · rcases exists_proposes_handleMiss w call
      (afterHit call pqHit a) t with ⟨batch, hMiss⟩
    have hTrain := keeps_train w call
      (handleMiss w call (afterHit call pqHit a) t).atp
      (handleMiss w call (afterHit call pqHit a) t).walks
    have hAll := hMiss.keep hTrain (train w call
      (handleMiss w call (afterHit call pqHit a) t).atp
      (handleMiss w call (afterHit call pqHit a) t).walks).2
    have hBatch := hMiss.result
    rw [List.nil_append] at hBatch
    rw [← hBatch] at hAll
    exact hAll

/- A hit takes its page from both tables. -/
theorem config_afterHit
    (call : AtpCall)
    (pqHit : Bool)
    (a : Atp) :
    (afterHit call pqHit a).config = a.config := by
  rw [afterHit]
  split_ifs
  · rw [consumeHit, creditFreeMeta]
    split
    · rfl
    · exact (keeps_incrementFDT _ _).config
  · rfl

theorem pending_afterHit
    (call : AtpCall)
    (pqHit : Bool)
    (a : Atp)
    (vpn : BitVec 64) :
    vpn ∈ (afterHit call pqHit a).pendingVpns ↔
      vpn ∈ a.pendingVpns ∧ ¬(pqHit = true ∧ vpn = call.vpn a) := by
  rw [afterHit]
  split_ifs with hHit
  · have hConsumed :
        (a.consumeHit (call.vpn a)).pendingVpns =
          a.pendingVpns.filter (fun v => v != call.vpn a) := by
      rw [consumeHit, creditFreeMeta]
      split
      · rfl
      · exact (keeps_incrementFDT _ _).pending
    rw [hConsumed, List.mem_filter, hHit]
    simp
  · simp [hHit]

theorem free_afterHit
    (call : AtpCall)
    (pqHit : Bool)
    (a : Atp)
    (vpn : BitVec 64)
    (hMem : vpn ∈ (afterHit call pqHit a).freeMeta.map Prod.fst) :
    vpn ∈ a.freeMeta.map Prod.fst ∧
      ¬(pqHit = true ∧ vpn = call.vpn a) := by
  rw [afterHit] at hMem
  split_ifs at hMem with hHit
  · rw [consumeHit, creditFreeMeta] at hMem
    have hSame : (a.consumePending (call.vpn a)).freeMeta =
        a.freeMeta := rfl
    rw [hSame] at hMem
    cases hLookup : a.freeMeta.lookup (call.vpn a) with
    | none =>
        rw [hLookup] at hMem
        refine ⟨hMem, fun hOwn => ?_⟩
        rw [hOwn.2] at hMem
        exact Assoc.lookup_eq_none_iff.mp hLookup hMem
    | some dist =>
        rw [hLookup] at hMem
        dsimp only at hMem
        rw [(keeps_incrementFDT _ _).free] at hMem
        rcases List.mem_map.mp hMem with ⟨e, hE, hEq⟩
        rcases Assoc.mem_erase.mp hE with ⟨hOld, hNe⟩
        refine ⟨List.mem_map.mpr ⟨e, hOld, hEq⟩, fun hOwn => hNe ?_⟩
        rw [hEq, hOwn.2]
  · exact ⟨hMem, fun hOwn => hHit hOwn.1⟩

end Atp

end Virtuoso
