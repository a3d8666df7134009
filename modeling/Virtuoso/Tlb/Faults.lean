import Virtuoso.Tlb.Fills

/-
  Page faults in userspace mode, from `mmu_pomtlb.cc`,
  `mmu_dmt.cc`, `mmu_spec.cc` and `mmu_hw_faults.cc`.

  On a TLB miss the designs walk the page table once. When the
  walk faults, the fault is handled outside of the simulator,
  and all designs but the POM-TLB one return -1. A walk that
  faults leaves a frame and a page size, which are what the
  page table happens to have in them.

  The lookups are made without a page table, so no prefetcher
  is asked and the prefetch queues stay empty. The tests of
  the hardware fault handler and the page walk caches change
  no TLB and are left out.

  Main declarations:
    * `FaultingMmu.cachesNothing_iff`
-/

------------------------------------------------------------
-- The Designs
------------------------------------------------------------

namespace Virtuoso

/- The designs that handle a page fault. -/
inductive FaultingMmu
  | pomTlb
  | dmt
  | spec
  | hwFault
deriving DecidableEq

/- `PTWOutcome`; the page size -1 stands for no page size. -/
structure PtwOutcome where
  pageFault : Bool
  ppn : BitVec 64
  pageSize : Int

/- The tables of a speculation engine, and their updates. -/
structure SpecEngine (τ : Type) where
  invokeSpecEngine : τ → BitVec 64 → BitVec 64 → Bool → τ
  allocateInSpecEngine : τ → BitVec 64 → BitVec 64 → τ

/- The TLBs, the software TLBs and the speculation tables. -/
structure MmuState (σ τ : Type) where
  tlbs : TlbSubsystem σ
  pomTlbs : List (Tlb σ)
  tables : τ

/-
  A call of `performAddressTranslation`, with the outcome of
  the walk if there is one, the address of its last access
  and whether the page table is a radix one.
-/
structure Access where
  address : BitVec 64
  instruction : Bool
  now : Nat
  walk : PtwOutcome
  lastAccess : BitVec 64
  radix : Bool

/- The lookups get no page table and no predictions. -/
def Access.request (a : Access) : Mmu.Request :=
  ⟨a.address, a.instruction, a.now, fun _ _ _ => 0,
    fun _ _ => [], none⟩

/- What a translation gives and leaves. -/
structure TranslationOutcome (σ τ : Type) where
  result : BitVec 64
  walked : Bool
  state : MmuState σ τ

namespace FaultingMmu

open Mmu (tlbAt onPath searchLevels)
open Mmu (Fill Request Each Unmoved blockAtPlace)
open MmuDesign (allocateLevels allocateLevels_fills takes)
open MmuDesign (allocateLevels_changes sets_ne_of_insert)
open MmuDesign (Changed)

variable {σ τ : Type}

/- The loop that fills the TLBs. -/
def design : FaultingMmu → MmuDesign
  | pomTlb => .pomTlb
  | dmt => .dmt
  | spec => .spec
  | hwFault => .hwFault

/-
  `page_size_in_bytes`, as the shifts are on x86: of an `int`
  in two designs, of 64 bits in the others.
-/
def pageBytes
    (d : FaultingMmu)
    (pageSize : Int) : BitVec 64 :=
  match d with
  | pomTlb | spec =>
      (1#32 <<< (pageSize % 32).toNat).signExtend 64
  | dmt | hwFault => 1#64 <<< (pageSize % 64).toNat

/- The frame, with the offset in the page. -/
def physicalAddress
    (d : FaultingMmu)
    (address ppn : BitVec 64)
    (pageSize : Int) : BitVec 64 :=
  ppn * 4096 + address % d.pageBytes pageSize

/- The lookups in all software TLBs; the last hit counts. -/
def searchPomTlbs
    (a : Access) :
    List (Tlb σ) → Option (Option TlbBlock × List (Tlb σ))
| [] => some (none, [])
| t :: rest =>
    (t.lookup ⟨a.address, a.now, fun _ => 0, []⟩).bind
      (fun out => (searchPomTlbs a rest).map (fun later =>
        (later.1 <|> out.1, out.2 :: later.2)))

/- The software TLBs that take a walk's translation. -/
def fillPomTlbs
    (address : BitVec 64)
    (pageSize ppn : Nat) :
    List (Tlb σ) → Option (List (Tlb σ))
| [] => some []
| t :: rest =>
    (if t.supportsPageSize pageSize && t.config.allocateOnMiss then
      (t.allocate address pageSize ppn false).map Prod.snd
    else
      some t).bind (fun t' =>
        (fillPomTlbs address pageSize ppn rest).map
          (fun rest' => t' :: rest'))

/-
  The fill loops over the levels that are filled; no TLB
  supports a negative page size.
-/
def fillTlbs
    (d : FaultingMmu)
    (tlbLevels : Nat)
    (a : Access)
    (ppn : BitVec 64)
    (pageSize : Int)
    (hitLevel : Option Nat)
    (h : TlbSubsystem σ) : Option (TlbSubsystem σ) :=
  if pageSize < 0 then
    some h
  else
    (allocateLevels d.design a.request
      ⟨a.address, pageSize.toNat, ppn.toNat, hitLevel⟩
      (List.range tlbLevels) [] h).map Prod.snd

/- After the fills: the result of the translation. -/
def finish
    (d : FaultingMmu)
    (tlbLevels : Nat)
    (a : Access)
    (ppn : BitVec 64)
    (pageSize : Int)
    (hitLevel : Option Nat)
    (walked : Bool)
    (m : MmuState σ τ) : Option (TranslationOutcome σ τ) :=
  (d.fillTlbs tlbLevels a ppn pageSize hitLevel
    m.tlbs).map (fun tlbs =>
      ⟨d.physicalAddress a.address ppn pageSize, walked,
        { m with tlbs := tlbs }⟩)

/- A miss in the TLBs of the POM-TLB design. -/
def translatePom
    (tlbLevels : Nat)
    (a : Access)
    (m : MmuState σ τ) : Option (TranslationOutcome σ τ) :=
  (searchPomTlbs a m.pomTlbs).bind (fun out =>
    match out.1 with
    | some block =>
        pomTlb.finish tlbLevels a
          (BitVec.ofNat 64 block.ppn) block.pageSize none false
          { m with pomTlbs := out.2 }
    | none =>
        (pomTlb.finish tlbLevels a a.walk.ppn
          a.walk.pageSize none true m).bind (fun o =>
            (if a.walk.pageSize < 0 then
              some out.2
            else
              fillPomTlbs a.address a.walk.pageSize.toNat
                a.walk.ppn.toNat out.2).map (fun pomTlbs =>
              { o with
                state := { o.state with
                  pomTlbs := pomTlbs } })))

/- The speculation engine in the walk, if it has no fault. -/
def invokeInWalk
    (engine : SpecEngine τ)
    (a : Access)
    (tables : τ) : τ :=
  if a.radix && !a.walk.pageFault then
    engine.invokeSpecEngine tables a.address a.lastAccess true
  else
    tables

/- The speculation engine after the walk. -/
def invokeAfterWalk
    (engine : SpecEngine τ)
    (a : Access)
    (tables : τ) : τ :=
  let mask := (spec.pageBytes a.walk.pageSize) - 1
  engine.invokeSpecEngine tables a.address
    ((a.walk.ppn <<< 12) ||| (a.address &&& mask)) false

/- A miss in the TLBs of the speculative design. -/
def translateSpec
    (tlbLevels : Nat)
    (engine : SpecEngine τ)
    (a : Access)
    (m : MmuState σ τ) : Option (TranslationOutcome σ τ) :=
  let tables := invokeInWalk engine a m.tables
  -- it is asserted that the frame of the walk is not -1
  if a.walk.ppn = BitVec.allOnes 64 then
    none
  else if a.walk.pageFault then
    some ⟨BitVec.allOnes 64, true, { m with tables := tables }⟩
  else
    (spec.finish tlbLevels a a.walk.ppn a.walk.pageSize
      none true { m with
        tables := invokeAfterWalk engine a tables }).map
      (fun o => { o with
        state := { o.state with
          tables := engine.allocateInSpecEngine o.state.tables
            a.address a.walk.ppn } })

/- A miss in the TLBs of the other designs. -/
def translateWalk
    (d : FaultingMmu)
    (tlbLevels : Nat)
    (a : Access)
    (m : MmuState σ τ) : Option (TranslationOutcome σ τ) :=
  if a.walk.pageFault then
    some ⟨BitVec.allOnes 64, true, m⟩
  else
    d.finish tlbLevels a a.walk.ppn a.walk.pageSize none true m

/- A miss in the TLBs. -/
def translateMiss
    (d : FaultingMmu)
    (tlbLevels : Nat)
    (engine : SpecEngine τ)
    (a : Access)
    (m : MmuState σ τ) : Option (TranslationOutcome σ τ) :=
  match d with
  | pomTlb => translatePom tlbLevels a m
  | spec => translateSpec tlbLevels engine a m
  | dmt | hwFault => d.translateWalk tlbLevels a m

/- `performAddressTranslation` in userspace mode. -/
def performAddressTranslation
    (d : FaultingMmu)
    (prefetchEnabled : Bool)
    (engine : SpecEngine τ)
    (m : MmuState σ τ)
    (a : Access) : Option (TranslationOutcome σ τ) :=
  let tlbLevels :=
    d.design.tlbLevels prefetchEnabled m.tlbs.length
  (searchLevels a.request (List.range m.tlbs.length)
    ⟨m.tlbs, []⟩).bind (fun out =>
      let m' := { m with tlbs := out.2.tlbs }
      match out.1 with
      | some (level, block) =>
          d.finish tlbLevels a
            (BitVec.ofNat 64 block.ppn) block.pageSize
            (some level) false m'
      | none => d.translateMiss tlbLevels engine a m')

/- A translation, as a step of the MMU. -/
def step
    (d : FaultingMmu)
    (prefetchEnabled : Bool)
    (engine : SpecEngine τ)
    (m : MmuState σ τ)
    (a : Access) : Option (MmuState σ τ) :=
  (d.performAddressTranslation prefetchEnabled engine m a).map
    TranslationOutcome.state

/- The TLBs and the tables hold what they held. -/
structure Unchanged (m m' : MmuState σ τ) : Prop where
  tlbs : Unmoved m.tlbs m'.tlbs
  pomTlbs :
    m'.pomTlbs.map (fun t => (t.sets, t.config)) =
      m.pomTlbs.map (fun t => (t.sets, t.config))
  tables : m'.tables = m.tables

/-
  When the page is mapped, translating the address again
  walks to the mapping.
-/
def Retries
    (d : FaultingMmu)
    (prefetchEnabled : Bool)
    (engine : SpecEngine τ)
    (a : Access)
    (m : MmuState σ τ) : Prop :=
  ∀ b : Access, b.address = a.address →
    b.instruction = a.instruction →
      b.walk.pageFault = false →
        b.walk.ppn ≠ BitVec.allOnes 64 →
          ∃ o, d.performAddressTranslation prefetchEnabled
              engine m b = some o ∧
            o.walked = true ∧
              o.result = d.physicalAddress b.address
                b.walk.ppn b.walk.pageSize

/- The translation returns -1, changes nothing and retries. -/
def CachesNothing
    (d : FaultingMmu)
    (prefetchEnabled : Bool)
    (engine : SpecEngine τ)
    (m : MmuState σ τ)
    (a : Access) : Prop :=
  ∃ o, d.performAddressTranslation prefetchEnabled engine m
      a = some o ∧
    o.result = BitVec.allOnes 64 ∧ Unchanged m o.state ∧
      d.Retries prefetchEnabled engine a o.state

/- No TLB that is searched has an entry for the address. -/
def Missed
    (d : FaultingMmu)
    (m : MmuState σ τ)
    (a : Access) : Prop :=
  (∀ level index,
    blockAtPlace a.request m.tlbs level index = none) ∧
    (d = pomTlb → ∀ t ∈ m.pomTlbs,
      (t.accessSingleLineTLB a.address).1 = none)

/- No TLB that is filled takes pages of the size. -/
def NotTaken
    (tlbLevels : Nat)
    (m : MmuState σ τ)
    (a : Access)
    (pageSize : Nat) : Prop :=
  (∀ level < tlbLevels, ∀ index t,
    tlbAt m.tlbs level index = some t →
      onPath a.request t = true → takes pageSize t = false) ∧
    ∀ t ∈ m.pomTlbs, takes pageSize t = false

/-
  No TLB has an entry for the page. In the POM-TLB design the
  walk leaves the frame and the size of a page at the end of
  the physical addresses, and no TLB takes it; in the
  speculative design the frame that it leaves is not -1.
-/
def Clears
    (d : FaultingMmu)
    (prefetchEnabled : Bool)
    (m : MmuState σ τ)
    (a : Access) : Prop :=
  d.Missed m a ∧
    match d with
    | pomTlb =>
        pomTlb.physicalAddress a.address a.walk.ppn
            a.walk.pageSize = BitVec.allOnes 64 ∧
          (0 ≤ a.walk.pageSize →
            NotTaken (MmuDesign.pomTlb.tlbLevels
              prefetchEnabled m.tlbs.length) m a
                a.walk.pageSize.toNat)
    | spec => a.walk.ppn ≠ BitVec.allOnes 64
    | dmt | hwFault => True

variable {ok : Nat → σ → Prop}
variable {t t' : Tlb σ} {h h' : TlbSubsystem σ}

/- A TLB with its blocks in place and an empty queue. -/
abbrev Working (ok : Nat → σ → Prop) (t : Tlb σ) : Prop :=
  Tlb.Contents ok (fun _ => True) t

theorem working_allocate
    (hWorking : Working ok t)
    (address : BitVec 64)
    (pageSize ppn : Nat) :
    ∃ out t', t.allocate address pageSize ppn false =
      some (out, t') ∧ Working ok t' := by
  have hNew : (fun _ : TlbBlock => True)
      ⟨Tlb.tagOf address pageSize, pageSize, ppn, true⟩ :=
    trivial
  rcases hWorking.allocate hNew with
    ⟨out, t', hAllocate, hWorking', -⟩
  exact ⟨out, t', hAllocate, hWorking'⟩

/- The blocks of a list of TLBs, and their configurations. -/
abbrev held
    (l : List (Tlb σ)) :
    List (List (List TlbBlock) × TlbConfig) :=
  l.map (fun t => (t.sets, t.config))

/- With an empty queue, a lookup is an access. -/
theorem lookup_working
    (hWorking : Working ok t)
    (a : Access) :
    t.lookup ⟨a.address, a.now, fun _ => 0, []⟩ =
      some (t.accessSingleLineTLB a.address) := by
  unfold Tlb.lookup
  split_ifs
  · rw [hWorking.queue]
    rfl
  · rfl

theorem searchPomTlbs_spec
    (a : Access)
    (l : List (Tlb σ))
    (hWorking : ∀ t ∈ l, Working ok t) :
    ∃ found l', searchPomTlbs a l = some (found, l') ∧
      (∀ t ∈ l', Working ok t) ∧ held l' = held l ∧
        (found = none ↔ ∀ t ∈ l,
          (t.accessSingleLineTLB a.address).1 = none) := by
  induction l with
  | nil =>
      refine ⟨none, [], rfl, hWorking, rfl, ?_⟩
      exact iff_of_true rfl
        (fun _ hMem => absurd hMem List.not_mem_nil)
  | cons t rest ih =>
      have hOwn := hWorking t List.mem_cons_self
      rcases ih (fun t' hMem => hWorking t'
          (List.mem_cons_of_mem _ hMem)) with
        ⟨found, l', hRest, hLater, hHeld, hNone⟩
      rcases Tlb.accessSingleLineTLB_kept t a.address with
        ⟨hSets, hConfig, -, -⟩
      refine ⟨found <|> (t.accessSingleLineTLB a.address).1,
        (t.accessSingleLineTLB a.address).2 :: l', ?_, ?_, ?_,
        ?_⟩
      · simp only [searchPomTlbs, lookup_working hOwn,
          Option.bind_some, hRest, Option.map_some]
      · intro t' hMem
        rcases List.mem_cons.mp hMem with hFirst | hIn
        · rw [hFirst]
          exact hOwn.access a.address
        · exact hLater t' hIn
      · simp only [held, List.map_cons, hSets, hConfig] at hHeld ⊢
        rw [hHeld]
      · rw [Option.orElse_eq_orElse, Option.orElse_eq_or,
          Option.or_eq_none_iff, hNone, List.forall_mem_cons]
        exact And.comm

/- The fill of a software TLB, and when it is seen. -/
theorem fillPomTlb_spec
    (hWorking : Working ok t)
    (address : BitVec 64)
    (pageSize ppn : Nat) :
    ∃ t', (if t.supportsPageSize pageSize &&
        t.config.allocateOnMiss then
      (t.allocate address pageSize ppn false).map Prod.snd
    else some t) = some t' ∧ Working ok t' ∧
      (0 < pageSize →
        (t.accessSingleLineTLB address).1 = none →
          ((t'.sets, t'.config) = (t.sets, t.config) ↔
            takes pageSize t = false)) := by
  unfold takes
  cases hTest : (t.supportsPageSize pageSize &&
      t.config.allocateOnMiss) with
  | false =>
      exact ⟨t, rfl, hWorking, fun _ _ => iff_of_true rfl rfl⟩
  | true =>
      rcases working_allocate hWorking address pageSize ppn with
        ⟨out, t', hAllocate, hWorking'⟩
      refine ⟨t', ?_, hWorking', fun hSize hMiss => ?_⟩
      · rw [if_pos rfl, hAllocate]
        rfl
      · unfold Tlb.allocate at hAllocate
        cases hPrefetch : t.config.prefetch with
        | true =>
            simp only [hPrefetch, Bool.not_false,
              Bool.and_true, if_true, Option.some.injEq,
              Prod.mk.injEq] at hAllocate
            rw [← hAllocate.2]
            exact iff_of_true rfl rfl
        | false =>
            simp only [hPrefetch, Bool.false_and,
              Bool.false_eq_true, if_false] at hAllocate
            have hSets := sets_ne_of_insert hWorking hMiss
              (Bool.and_eq_true_iff.mp hTest).1 hSize hAllocate
            exact iff_of_false
              (fun hEq => hSets (Prod.mk.inj hEq).1)
              Bool.noConfusion

/- The software TLBs after a fill, and when they differ. -/
theorem fillPomTlbs_spec
    (address : BitVec 64)
    (pageSize ppn : Nat)
    (l : List (Tlb σ))
    (hWorking : ∀ t ∈ l, Working ok t) :
    ∃ l', fillPomTlbs address pageSize ppn l = some l' ∧
      (∀ t ∈ l', Working ok t) ∧
        (0 < pageSize →
          (∀ t ∈ l, (t.accessSingleLineTLB address).1 = none) →
          (held l' = held l ↔ ∀ t ∈ l,
            takes pageSize t = false)) := by
  induction l with
  | nil =>
      refine ⟨[], rfl, hWorking, fun _ _ => ?_⟩
      exact iff_of_true rfl
        (fun _ hMem => absurd hMem List.not_mem_nil)
  | cons t rest ih =>
      rcases ih (fun t' hMem => hWorking t'
          (List.mem_cons_of_mem _ hMem)) with
        ⟨l', hRest, hLater, hIff⟩
      rcases fillPomTlb_spec (hWorking t List.mem_cons_self)
          address pageSize ppn with
        ⟨t', hCall, hWorking', hOwnIff⟩
      refine ⟨t' :: l', ?_, ?_, fun hSize hMissed => ?_⟩
      · simp only [fillPomTlbs, hCall, Option.bind_some, hRest,
          Option.map_some]
      · intro t₁ hMem
        rcases List.mem_cons.mp hMem with hHere | hIn
        · rw [hHere]
          exact hWorking'
        · exact hLater t₁ hIn
      · rw [List.forall_mem_cons] at hMissed
        have hHead := hOwnIff hSize hMissed.1
        have hTail := hIff hSize hMissed.2
        simp only [held, List.map_cons, List.cons.injEq,
          List.forall_mem_cons] at hTail ⊢
        rw [hHead, hTail]

------------------------------------------------------------
-- Translations
------------------------------------------------------------

/- No lookup or fill of a TLB fails. -/
structure Ready
    (ok : Nat → σ → Prop)
    (m : MmuState σ τ) : Prop where
  tlbs : Each (Working ok) m.tlbs
  pomTlbs : ∀ t ∈ m.pomTlbs, Working ok t

variable {d : FaultingMmu} {m m' : MmuState σ τ}
variable {a b : Access} {engine : SpecEngine τ}
variable {prefetchEnabled : Bool}

/- The search changes no contents, and misses if all do. -/
theorem search_spec
    (hEach : Each (Working ok) h)
    (a : Access) :
    ∃ found s', searchLevels a.request (List.range h.length)
        ⟨h, []⟩ = some (found, s') ∧
      Each (Working ok) s'.tlbs ∧ Unmoved h s'.tlbs ∧
        (found = none ↔ ∀ level index,
          blockAtPlace a.request h level index = none) := by
  have hEach' : Each (Working ok)
      (⟨h, []⟩ : Mmu.Session σ).tlbs := hEach
  rcases Mmu.searchLevels_contents (r := a.request)
      (fun _ _ => rfl) (List.range h.length) hEach' with
    ⟨found, s', hCall, hAfter, hUnmoved, hNone, -⟩
  refine ⟨found, s', hCall, hAfter, hUnmoved, ?_⟩
  rw [hNone]
  refine ⟨fun hAll level index => ?_,
    fun hAll level _ => hAll level⟩
  by_cases hLt : level < h.length
  · exact hAll level (List.mem_range.mpr hLt) index
  · rw [blockAtPlace, tlbAt, List.getElem?_eq_none
      (Nat.le_of_not_lt hLt)]
    rfl

theorem blockFor_request
    (hAddress : b.address = a.address)
    (hPath : b.instruction = a.instruction) :
    (Mmu.blockFor b.request : Tlb σ → Option TlbBlock) =
      Mmu.blockFor a.request := by
  funext t
  unfold Mmu.blockFor onPath Access.request
  rw [hAddress, hPath]

theorem access_eq_none
    {address : BitVec 64}
    (hSets : t'.sets = t.sets)
    (hConfig : t'.config = t.config)
    (hMiss : (t'.accessSingleLineTLB address).1 = none) :
    (t.accessSingleLineTLB address).1 = none := by
  have hFind := Tlb.find_of_access hMiss
  rw [Mmu.findSingleLineTLB_congr hSets hConfig, hConfig] at hFind
  rw [Tlb.accessSingleLineTLB, hFind]

/- Two calls that are for the same address and path. -/
theorem missed_congr
    (hUnchanged : Unchanged m m')
    (hAddress : b.address = a.address)
    (hPath : b.instruction = a.instruction)
    (hMissed : d.Missed m' b) :
    d.Missed m a := by
  refine ⟨fun level index => ?_, fun hPom t hMem => ?_⟩
  · have hBlock := hMissed.1 level index
    rw [hUnchanged.tlbs.blockAtPlace, blockAtPlace,
      blockFor_request hAddress hPath] at hBlock
    exact hBlock
  · have hHeld : (t.sets, t.config) ∈ held m'.pomTlbs := by
      rw [held, hUnchanged.pomTlbs]
      exact List.mem_map_of_mem hMem
    rcases List.mem_map.mp hHeld with ⟨t', hMem', hEq⟩
    rw [Prod.mk.injEq] at hEq
    have hMiss := hMissed.2 hPom t' hMem'
    rw [hAddress] at hMiss
    exact access_eq_none hEq.1 hEq.2 hMiss

/- The end of a translation. -/
theorem finish_spec
    (hEach : Each (Working ok) m.tlbs)
    (d : FaultingMmu)
    (tlbLevels : Nat)
    (a : Access)
    (ppn : BitVec 64)
    (pageSize : Int)
    (hitLevel : Option Nat)
    (walked : Bool) :
    ∃ tlbs, d.fillTlbs tlbLevels a ppn pageSize hitLevel
        m.tlbs = some tlbs ∧ Each (Working ok) tlbs ∧
      d.finish tlbLevels a ppn pageSize hitLevel walked m =
        some ⟨d.physicalAddress a.address ppn pageSize, walked,
          { m with tlbs := tlbs }⟩ := by
  have hFill : ∃ tlbs, d.fillTlbs tlbLevels a ppn pageSize
      hitLevel m.tlbs = some tlbs ∧ Each (Working ok) tlbs := by
    unfold fillTlbs
    split_ifs
    · exact ⟨m.tlbs, rfl, hEach⟩
    · have hFill : (fun _ : TlbBlock => True) (Fill.block
          ⟨a.address, pageSize.toNat, ppn.toNat, hitLevel⟩) :=
        trivial
      rcases allocateLevels_fills d.design a.request
          (List.range tlbLevels) hEach hFill
          (fun _ hMem => absurd hMem List.not_mem_nil) with
        ⟨out, tlbs, hCall, hFills⟩
      exact ⟨tlbs, by rw [hCall]; rfl, hFills.each⟩
  rcases hFill with ⟨tlbs, hCall, hAfter⟩
  refine ⟨tlbs, hCall, hAfter, ?_⟩
  rw [finish, hCall]
  rfl

/- The software TLBs after a fill of a walked translation. -/
def filledPomTlbs
    (a : Access)
    (l : List (Tlb σ)) : Option (List (Tlb σ)) :=
  if a.walk.pageSize < 0 then
    some l
  else
    fillPomTlbs a.address a.walk.pageSize.toNat a.walk.ppn.toNat l

/- All software TLBs missed: the walk is filled in. -/
structure PomMissed
    (ok : Nat → σ → Prop)
    (tlbLevels : Nat)
    (a : Access)
    (m : MmuState σ τ)
    (tlbs : TlbSubsystem σ)
    (searched filled : List (Tlb σ)) : Prop where
  fills : pomTlb.fillTlbs tlbLevels a a.walk.ppn
    a.walk.pageSize none m.tlbs = some tlbs
  working : ∀ t ∈ searched, Working ok t
  same : held searched = held m.pomTlbs
  fillsPom : filledPomTlbs a searched = some filled
  ready : Ready ok { m with tlbs := tlbs, pomTlbs := filled }
  call : translatePom tlbLevels a m =
    some ⟨pomTlb.physicalAddress a.address a.walk.ppn
      a.walk.pageSize, true,
      { m with tlbs := tlbs, pomTlbs := filled }⟩

theorem translatePom_missed
    (hReady : Ready ok m)
    (tlbLevels : Nat)
    (hMissed : ∀ t ∈ m.pomTlbs,
      (t.accessSingleLineTLB a.address).1 = none) :
    ∃ tlbs searched filled,
      PomMissed ok tlbLevels a m tlbs searched filled := by
  rcases searchPomTlbs_spec a m.pomTlbs hReady.pomTlbs with
    ⟨found, searched, hSearch, hWorking, hHeld, hNone⟩
  rcases finish_spec hReady.tlbs pomTlb tlbLevels a a.walk.ppn
      a.walk.pageSize none true with
    ⟨tlbs, hTlbs, hEach, hFinish⟩
  have hFill : ∃ filled, filledPomTlbs a searched =
      some filled ∧ ∀ t ∈ filled, Working ok t := by
    unfold filledPomTlbs
    split_ifs
    · exact ⟨searched, rfl, hWorking⟩
    · rcases fillPomTlbs_spec a.address a.walk.pageSize.toNat
          a.walk.ppn.toNat searched hWorking with
        ⟨filled, hCall, hAfter, -⟩
      exact ⟨filled, hCall, hAfter⟩
  rcases hFill with ⟨filled, hFilled, hAfter⟩
  refine ⟨tlbs, searched, filled, hTlbs, hWorking, hHeld,
    hFilled, ⟨hEach, hAfter⟩, ?_⟩
  rw [hNone.mpr hMissed] at hSearch
  unfold filledPomTlbs at hFilled
  simp only [translatePom, hSearch, Option.bind_some, hFinish,
    hFilled, Option.map_some]

/- A translation after a miss in the TLBs. -/
theorem translateMiss_spec
    (hReady : Ready ok m)
    (d : FaultingMmu)
    (tlbLevels : Nat)
    (engine : SpecEngine τ)
    (a : Access)
    (hAssert : d = spec → a.walk.ppn ≠ BitVec.allOnes 64) :
    ∃ o, d.translateMiss tlbLevels engine a m = some o ∧
      Ready ok o.state ∧
      (o.walked = true ↔ (d = pomTlb → ∀ t ∈ m.pomTlbs,
        (t.accessSingleLineTLB a.address).1 = none)) ∧
      (o.walked = true → a.walk.pageFault = false →
        o.result = d.physicalAddress a.address a.walk.ppn
          a.walk.pageSize) := by
  have hWalk : ∀ D : FaultingMmu, D ≠ pomTlb →
      ∃ o, D.translateWalk tlbLevels a m = some o ∧
        Ready ok o.state ∧
        (o.walked = true ↔ (D = pomTlb → ∀ t ∈ m.pomTlbs,
          (t.accessSingleLineTLB a.address).1 = none)) ∧
        (o.walked = true → a.walk.pageFault = false →
          o.result = D.physicalAddress a.address a.walk.ppn
            a.walk.pageSize) := by
    intro D hOther
    rcases finish_spec hReady.tlbs D tlbLevels a a.walk.ppn
        a.walk.pageSize none true with
      ⟨tlbs, -, hEach, hFinish⟩
    unfold translateWalk
    cases hFault : a.walk.pageFault with
    | true =>
        exact ⟨_, rfl, hReady,
          iff_of_true rfl (fun hPom => absurd hPom hOther),
          fun _ hNo => Bool.noConfusion hNo⟩
    | false =>
        rw [if_neg Bool.false_ne_true, hFinish]
        exact ⟨_, rfl, ⟨hEach, hReady.pomTlbs⟩,
          iff_of_true rfl (fun hPom => absurd hPom hOther),
          fun _ _ => rfl⟩
  cases d with
  | dmt => exact hWalk dmt (by decide)
  | hwFault => exact hWalk hwFault (by decide)
  | spec =>
      have hReady' : Ready ok { m with
          tables := invokeAfterWalk engine a
            (invokeInWalk engine a m.tables) } :=
        ⟨hReady.tlbs, hReady.pomTlbs⟩
      rcases finish_spec hReady'.tlbs spec tlbLevels a
          a.walk.ppn a.walk.pageSize none true with
        ⟨tlbs, -, hEach, hFinish⟩
      simp only [translateMiss, translateSpec, if_neg (hAssert rfl)]
      cases hFault : a.walk.pageFault with
      | true =>
          exact ⟨_, rfl, ⟨hReady.tlbs, hReady.pomTlbs⟩,
            iff_of_true rfl (fun hPom => nomatch hPom),
            fun _ hNo => Bool.noConfusion hNo⟩
      | false =>
          rw [if_neg Bool.false_ne_true, hFinish]
          exact ⟨_, rfl, ⟨hEach, hReady.pomTlbs⟩,
            iff_of_true rfl (fun hPom => nomatch hPom),
            fun _ _ => rfl⟩
  | pomTlb =>
      by_cases hMissed : ∀ t ∈ m.pomTlbs,
          (t.accessSingleLineTLB a.address).1 = none
      · rcases translatePom_missed hReady tlbLevels hMissed
          with ⟨tlbs, searched, filled, hPom⟩
        exact ⟨_, hPom.call, hPom.ready,
          iff_of_true rfl (fun _ => hMissed),
          fun _ _ => rfl⟩
      · rcases searchPomTlbs_spec a m.pomTlbs hReady.pomTlbs
          with ⟨found, searched, hSearch, hWorking, -, hNone⟩
        cases hFound : found with
        | none => exact absurd (hNone.mp hFound) hMissed
        | some block =>
            have hReady' : Each (Working ok)
                ({ m with pomTlbs := searched } :
                  MmuState σ τ).tlbs := hReady.tlbs
            rcases finish_spec hReady' pomTlb tlbLevels a
                (BitVec.ofNat 64 block.ppn) block.pageSize none
                false with ⟨tlbs, -, hEach, hFinish⟩
            have hCall : pomTlb.translateMiss tlbLevels engine
                a m = some ⟨pomTlb.physicalAddress a.address
                  (BitVec.ofNat 64 block.ppn) block.pageSize,
                  false, { m with
                    tlbs := tlbs
                    pomTlbs := searched }⟩ := by
              simp only [translateMiss, translatePom, hSearch,
                hFound, Option.bind_some]
              exact hFinish
            refine ⟨_, hCall, ⟨hEach, hWorking⟩, ?_, ?_⟩
            · exact iff_of_false Bool.false_ne_true
                (fun hAll => hMissed (hAll rfl))
            · exact fun hNo => Bool.noConfusion hNo

/- After a hit in the TLBs there is no walk. -/
theorem performAddressTranslation_of_hit
    (hReady : Ready ok m)
    {p : Nat × TlbBlock}
    {s' : Mmu.Session σ}
    (hSearch : searchLevels a.request
      (List.range m.tlbs.length) ⟨m.tlbs, []⟩ = some (some p, s'))
    (hEach : Each (Working ok) s'.tlbs) :
    ∃ o, d.performAddressTranslation prefetchEnabled engine m
        a = some o ∧
      Ready ok o.state ∧ o.walked = false := by
  have hReady' : Ready ok { m with tlbs := s'.tlbs } :=
    ⟨hEach, hReady.pomTlbs⟩
  rcases finish_spec hReady'.tlbs d
      (d.design.tlbLevels prefetchEnabled m.tlbs.length) a
      (BitVec.ofNat 64 p.2.ppn) p.2.pageSize (some p.1)
      false with ⟨tlbs, -, hAfter, hFinish⟩
  have hCall : d.performAddressTranslation prefetchEnabled
      engine m a = some ⟨d.physicalAddress a.address
        (BitVec.ofNat 64 p.2.ppn) p.2.pageSize, false,
        { m with tlbs := tlbs }⟩ := by
    simp only [performAddressTranslation, hSearch, Option.bind_some]
    exact hFinish
  exact ⟨_, hCall, ⟨hAfter, hReady.pomTlbs⟩, rfl⟩

/- After a miss, the outcome is the one of `translateMiss`. -/
theorem performAddressTranslation_of_miss
    {s' : Mmu.Session σ}
    (hSearch : searchLevels a.request
      (List.range m.tlbs.length) ⟨m.tlbs, []⟩ = some (none, s')) :
    d.performAddressTranslation prefetchEnabled engine m a =
      d.translateMiss
        (d.design.tlbLevels prefetchEnabled m.tlbs.length)
        engine a { m with tlbs := s'.tlbs } := by
  simp only [performAddressTranslation, hSearch, Option.bind_some]

/- A translation has an outcome unless the assertion fails. -/
theorem performAddressTranslation_spec
    (prefetchEnabled : Bool)
    (engine : SpecEngine τ)
    (hReady : Ready ok m)
    (hAssert : d = spec → a.walk.ppn ≠ BitVec.allOnes 64) :
    ∃ o, d.performAddressTranslation prefetchEnabled engine m
        a = some o ∧
      Ready ok o.state ∧ (o.walked = true ↔ d.Missed m a) ∧
        (o.walked = true → a.walk.pageFault = false →
          o.result = d.physicalAddress a.address a.walk.ppn
            a.walk.pageSize) := by
  rcases search_spec hReady.tlbs a with
    ⟨found, s', hSearch, hEach, hUnmoved, hNone⟩
  cases hFound : found with
  | some p =>
      rw [hFound] at hSearch hNone
      rcases performAddressTranslation_of_hit hReady hSearch
          hEach with ⟨o, hCall, hAfter, hWalked⟩
      refine ⟨o, hCall, hAfter, ?_, ?_⟩
      · refine iff_of_false (by rw [hWalked]; decide)
          (fun hMissed => ?_)
        cases hNone.mpr hMissed.1
      · intro hWalk
        rw [hWalked] at hWalk
        cases hWalk
  | none =>
      rw [hFound] at hSearch hNone
      have hReady' : Ready ok { m with tlbs := s'.tlbs } :=
        ⟨hEach, hReady.pomTlbs⟩
      rcases translateMiss_spec hReady' d
          (d.design.tlbLevels prefetchEnabled m.tlbs.length)
          engine a hAssert with
        ⟨o, hCall, hAfter, hWalked, hResult⟩
      refine ⟨o, ?_, hAfter, ?_, hResult⟩
      · rw [performAddressTranslation_of_miss hSearch]
        exact hCall
      · rw [hWalked]
        exact ⟨fun hPom => ⟨hNone.mp rfl, hPom⟩,
          fun hMissed => hMissed.2⟩

/- Without an entry, the assertion holds if there is a result. -/
theorem assertion_of_missed
    {o : TranslationOutcome σ τ}
    (hReady : Ready ok m)
    (hMissed : spec.Missed m a)
    (hCall : spec.performAddressTranslation prefetchEnabled
      engine m a = some o) :
    a.walk.ppn ≠ BitVec.allOnes 64 := by
  intro hEq
  rcases search_spec hReady.tlbs a with
    ⟨found, s', hSearch, -, -, hNone⟩
  rw [hNone.mpr hMissed.1] at hSearch
  rw [performAddressTranslation_of_miss hSearch] at hCall
  simp only [translateMiss, translateSpec, if_pos hEq] at hCall
  cases hCall

theorem ready_of_call
    {o : TranslationOutcome σ τ}
    (hReady : Ready ok m)
    (hCall : d.performAddressTranslation prefetchEnabled
      engine m a = some o) :
    Ready ok o.state := by
  by_cases hAssert : d = spec → a.walk.ppn ≠ BitVec.allOnes 64
  · rcases performAddressTranslation_spec prefetchEnabled
        engine hReady hAssert with ⟨o', hCall', hAfter, -⟩
    rw [hCall, Option.some.injEq] at hCall'
    rw [hCall']
    exact hAfter
  · rcases search_spec hReady.tlbs a with
      ⟨found, s', hSearch, hEach, -, hNone⟩
    cases hFound : found with
    | some p =>
        rw [hFound] at hSearch
        rcases performAddressTranslation_of_hit hReady hSearch
            hEach with ⟨o', hCall', hAfter, -⟩
        rw [hCall, Option.some.injEq] at hCall'
        rw [hCall']
        exact hAfter
    | none =>
        rcases Classical.not_imp.mp hAssert with
          ⟨hSpec, hEq⟩
        subst hSpec
        refine absurd (assertion_of_missed hReady ⟨?_, ?_⟩
          hCall) hEq
        · exact hNone.mp hFound
        · exact fun hPom => nomatch hPom

/- So every run of translations stays in such states. -/
theorem ready_run
    {l : List Access}
    (hReady : Ready ok m)
    (hRun : Run.run (d.step prefetchEnabled engine) m l = some m') :
    Ready ok m' := by
  refine Run.run_invariant (fun m a m' hReady hStep => ?_)
    hReady hRun
  rcases Option.map_eq_some_iff.mp hStep with ⟨o, hCall, hEq⟩
  rw [← hEq]
  exact ready_of_call hReady hCall

------------------------------------------------------------
-- Page Faults
------------------------------------------------------------

/- The address that a page of one byte has is not -1. -/
theorem pageSize_pos
    {address ppn : BitVec 64}
    {pageSize : Int}
    (hNonneg : 0 ≤ pageSize)
    (hResult : pomTlb.physicalAddress address ppn pageSize =
      BitVec.allOnes 64) :
    0 < pageSize.toNat := by
  rcases Int.eq_ofNat_of_zero_le hNonneg with ⟨n, hNat⟩
  subst hNat
  cases n with
  | succ n => exact Nat.succ_pos n
  | zero =>
      have hOne : pomTlb.pageBytes (0 : Nat) = 1#64 := by
        decide
      have hNat := congrArg BitVec.toNat hResult
      rw [physicalAddress, hOne, BitVec.umod_one,
        BitVec.add_zero, BitVec.toNat_mul,
        BitVec.toNat_allOnes] at hNat
      have hBase : (4096 : BitVec 64).toNat = 4096 := by
        decide
      rw [hBase] at hNat
      omega

theorem retries_of_missed
    (hReady : Ready ok m)
    (hMissed : d.Missed m a) :
    d.Retries prefetchEnabled engine a m := by
  intro b hAddress hPath hMapped hFrame
  rcases performAddressTranslation_spec prefetchEnabled engine
      hReady (fun _ => hFrame) with
    ⟨o, hCall, -, hWalked, hResult⟩
  have hMissed' : d.Missed m b :=
    missed_congr ⟨.refl _, rfl, rfl⟩ hAddress.symm hPath.symm
      hMissed
  have hWalk := hWalked.mpr hMissed'
  exact ⟨o, hCall, hWalk, hResult hWalk hMapped⟩

/- A retry that walks shows that there was no entry. -/
theorem missed_of_retries
    (hReady : Ready ok m')
    (hUnchanged : Unchanged m m')
    (hRetries : d.Retries prefetchEnabled engine a m') :
    d.Missed m a := by
  have hFrame : (0 : BitVec 64) ≠ BitVec.allOnes 64 := by
    decide
  rcases hRetries ⟨a.address, a.instruction, a.now,
      ⟨false, 0, 12⟩, 0, false⟩ rfl rfl rfl hFrame with
    ⟨o, hCall, hWalk, -⟩
  rcases performAddressTranslation_spec
      (a := ⟨a.address, a.instruction, a.now, ⟨false, 0, 12⟩,
        0, false⟩)
      prefetchEnabled engine hReady (fun _ => hFrame) with
    ⟨o', hCall', -, hWalked, -⟩
  rw [hCall, Option.some.injEq] at hCall'
  rw [hCall'] at hWalk
  exact missed_congr hUnchanged rfl rfl (hWalked.mp hWalk)

theorem not_changed_of_unmoved
    {r : Request}
    {pageSize : Nat}
    {P : Nat → Nat → Prop}
    (hUnmoved : Unmoved h h') :
    ¬ Changed r pageSize P h h' := by
  rintro ⟨i, j, t, t', -, hAt, -, -, hAt', hSets⟩
  have hSame := hUnmoved i j
  rw [hAt, hAt', Option.map_some, Option.map_some,
    Option.some.injEq, Prod.mk.injEq] at hSame
  exact hSets hSame.1

/- Unmoved TLBs take the same pages. -/
theorem takes_of_unmoved
    {r : Request}
    {pageSize level index : Nat}
    (hUnmoved : Unmoved h h')
    (hTaken : ∀ t, tlbAt h' level index = some t →
      onPath r t = true → takes pageSize t = false) :
    ∀ t, tlbAt h level index = some t →
      onPath r t = true → takes pageSize t = false := by
  intro t hAt hPath
  have hSame := hUnmoved level index
  rw [hAt, Option.map_some, Option.map_eq_some_iff] at hSame
  rcases hSame with ⟨t', hAt', hEq⟩
  have hConfig : t'.config = t.config :=
    (Prod.mk.inj hEq).2
  have hTakes := hTaken t' hAt' (by
    rw [onPath, hConfig]
    exact hPath)
  rw [takes, Tlb.supportsPageSize, hConfig] at hTakes
  exact hTakes

theorem takes_of_held
    {pageSize : Nat}
    {l l' : List (Tlb σ)}
    (hHeld : held l' = held l)
    (hTaken : ∀ t ∈ l', takes pageSize t = false) :
    ∀ t ∈ l, takes pageSize t = false := by
  intro t hMem
  have hIn : (t.sets, t.config) ∈ held l' := by
    rw [hHeld]
    exact List.mem_map_of_mem hMem
  rcases List.mem_map.mp hIn with ⟨t', hMem', hEq⟩
  have hTakes := hTaken t' hMem'
  rw [takes, Tlb.supportsPageSize, (Prod.mk.inj hEq).2] at hTakes
  exact hTakes

theorem design_visits
    (d : FaultingMmu)
    (r : Request)
    (t : Tlb σ) :
    d.design.visits r t = onPath r t := by
  cases d <;> simp [MmuDesign.visits, design]

/- The faulting walk of the POM-TLB design is filled in. -/
theorem unchanged_pom_iff
    {tlbLevels : Nat}
    {tlbs : TlbSubsystem σ}
    {searched filled : List (Tlb σ)}
    (hReady : Ready ok m)
    (hMissed : pomTlb.Missed m a)
    (hPom : PomMissed ok tlbLevels a m tlbs searched filled)
    (hResult : pomTlb.physicalAddress a.address a.walk.ppn
      a.walk.pageSize = BitVec.allOnes 64) :
    Unchanged m { m with tlbs := tlbs, pomTlbs := filled } ↔
      (0 ≤ a.walk.pageSize →
        NotTaken tlbLevels m a a.walk.pageSize.toNat) := by
  have hFills := hPom.fills
  have hFilled := hPom.fillsPom
  unfold fillTlbs at hFills
  unfold filledPomTlbs at hFilled
  split_ifs at hFills hFilled with hNegative
  · rw [Option.some.injEq] at hFills hFilled
    refine iff_of_true ⟨?_, ?_, rfl⟩
      (fun hNonneg => absurd hNegative (by omega))
    · rw [← hFills]
      exact .refl _
    · rw [← hFilled]
      exact hPom.same
  · have hNonneg : 0 ≤ a.walk.pageSize := by omega
    have hSize := pageSize_pos hNonneg hResult
    rcases Option.map_eq_some_iff.mp hFills with
      ⟨⟨out, h'⟩, hCall, hEnd⟩
    have hSame : h' = tlbs := hEnd
    subst hSame
    have hMiss : ∀ t ∈ searched,
        (t.accessSingleLineTLB a.address).1 = none := by
      intro t hMem
      have hIn : (t.sets, t.config) ∈ held m.pomTlbs := by
        rw [← hPom.same]
        exact List.mem_map_of_mem hMem
      rcases List.mem_map.mp hIn with ⟨t', hMem', hEq⟩
      rw [Prod.mk.injEq] at hEq
      exact access_eq_none hEq.1 hEq.2 (hMissed.2 rfl t' hMem')
    rcases fillPomTlbs_spec a.address a.walk.pageSize.toNat
        a.walk.ppn.toNat searched hPom.working with
      ⟨filled', hFilled', -, hIff⟩
    rw [hFilled, Option.some.injEq] at hFilled'
    rw [← hFilled'] at hIff
    have hPomIff : held filled = held m.pomTlbs ↔
        ∀ t ∈ m.pomTlbs, takes a.walk.pageSize.toNat t = false := by
      rw [← hPom.same, hIff hSize hMiss]
      exact ⟨takes_of_held hPom.same, takes_of_held hPom.same.symm⟩
    have hTlbs := allocateLevels_changes
      ⟨rfl, rfl, hSize⟩ (design_visits pomTlb a.request)
      (List.range tlbLevels) List.nodup_range hReady.tlbs
      hMissed.1 trivial hCall
    constructor
    · intro hUnchanged _
      rcases hTlbs with ⟨-, hNone⟩ | hChanged
      · refine ⟨fun level hLt => ?_, hPomIff.mp hUnchanged.pomTlbs⟩
        exact hNone level (List.mem_range.mpr hLt)
      · exact absurd hChanged
          (not_changed_of_unmoved hUnchanged.tlbs)
    · intro hTaken
      rcases hTaken hNonneg with ⟨hLevels, hList⟩
      refine ⟨?_, hPomIff.mpr hList, rfl⟩
      rcases hTlbs with
        ⟨hSame, -⟩ | ⟨i, j, t, t', hIn, hAt, hPath, hTakes, -⟩
      · rw [hSame]
        exact .refl _
      · have hNone := hLevels i (List.mem_range.mp hIn) j t
          hAt hPath
        rw [hTakes] at hNone
        cases hNone

theorem Unchanged.of_search
    (hUnmoved : Unmoved m.tlbs h)
    (m' : MmuState σ τ) :
    Unchanged { m with tlbs := h } m' ↔ Unchanged m m' := by
  constructor
  · intro hAfter
    exact ⟨hUnmoved.trans hAfter.tlbs, hAfter.pomTlbs,
      hAfter.tables⟩
  · intro hAfter
    refine ⟨fun i j => ?_, hAfter.pomTlbs, hAfter.tables⟩
    exact (hAfter.tlbs i j).trans (hUnmoved i j).symm

theorem notTaken_of_search
    {tlbLevels pageSize : Nat}
    (hUnmoved : Unmoved m.tlbs h) :
    NotTaken tlbLevels { m with tlbs := h } a pageSize ↔
      NotTaken tlbLevels m a pageSize := by
  have hBack : Unmoved h m.tlbs :=
    fun i j => (hUnmoved i j).symm
  constructor
  · intro hTaken
    exact ⟨fun level hLt index => takes_of_unmoved hUnmoved
      (hTaken.1 level hLt index), hTaken.2⟩
  · intro hTaken
    exact ⟨fun level hLt index => takes_of_unmoved hBack
      (hTaken.1 level hLt index), hTaken.2⟩

/- A walk that faults, where no TLB has an entry. -/
theorem performAddressTranslation_fault
    (prefetchEnabled : Bool)
    (engine : SpecEngine τ)
    (hReady : Ready ok m)
    (hFault : a.walk.pageFault = true)
    (hMissed : d.Missed m a)
    (hAssert : d = spec → a.walk.ppn ≠ BitVec.allOnes 64) :
    ∃ o, d.performAddressTranslation prefetchEnabled engine m
        a = some o ∧
      Ready ok o.state ∧
      ((o.result = BitVec.allOnes 64 ∧ Unchanged m o.state) ↔
        d.Clears prefetchEnabled m a) := by
  rcases search_spec hReady.tlbs a with
    ⟨found, s', hSearch, hEach, hUnmoved, hNone⟩
  rw [hNone.mpr hMissed.1] at hSearch
  rw [performAddressTranslation_of_miss hSearch]
  have hReady' : Ready ok { m with tlbs := s'.tlbs } :=
    ⟨hEach, hReady.pomTlbs⟩
  have hSame : Unchanged m { m with tlbs := s'.tlbs } :=
    ⟨hUnmoved, rfl, rfl⟩
  have hMissed' : d.Missed { m with tlbs := s'.tlbs } a :=
    missed_congr ⟨fun i j => (hUnmoved i j).symm, rfl, rfl⟩
      rfl rfl hMissed
  cases d with
  | dmt =>
      refine ⟨⟨BitVec.allOnes 64, true, _⟩, ?_, hReady',
        iff_of_true ⟨rfl, hSame⟩ ⟨hMissed, trivial⟩⟩
      exact if_pos hFault
  | hwFault =>
      refine ⟨⟨BitVec.allOnes 64, true, _⟩, ?_, hReady',
        iff_of_true ⟨rfl, hSame⟩ ⟨hMissed, trivial⟩⟩
      exact if_pos hFault
  | spec =>
      have hTables : invokeInWalk engine a m.tables = m.tables := by
        simp [invokeInWalk, hFault]
      refine ⟨⟨BitVec.allOnes 64, true, _⟩, ?_, hReady',
        iff_of_true ⟨rfl, hSame⟩ ⟨hMissed, hAssert rfl⟩⟩
      simp only [translateMiss, translateSpec,
        if_neg (hAssert rfl), hFault, if_true, hTables]
  | pomTlb =>
      rcases translatePom_missed hReady'
          (pomTlb.design.tlbLevels prefetchEnabled
            m.tlbs.length) (hMissed.2 rfl) with
        ⟨tlbs, searched, filled, hPom⟩
      refine ⟨_, hPom.call, hPom.ready, ?_⟩
      have hIff := fun hResult =>
        unchanged_pom_iff hReady' hMissed' hPom hResult
      constructor
      · rintro ⟨hResult, hUnchanged⟩
        refine ⟨hMissed, hResult, fun hNonneg => ?_⟩
        exact (notTaken_of_search hUnmoved).mp
          ((hIff hResult).mp
            ((Unchanged.of_search hUnmoved _).mpr hUnchanged)
            hNonneg)
      · rintro ⟨-, hResult, hTaken⟩
        refine ⟨hResult, (Unchanged.of_search hUnmoved _).mp
          ((hIff hResult).mpr (fun hNonneg => ?_))⟩
        exact (notTaken_of_search hUnmoved).mpr (hTaken hNonneg)

/-
  A translation whose walk faults returns -1, leaves the
  contents of all tables and is retried with a walk exactly if
  no TLB has an entry and the fault has an exit.
-/
theorem cachesNothing_iff
    (prefetchEnabled : Bool)
    (engine : SpecEngine τ)
    (hReady : Ready ok m)
    (hFault : a.walk.pageFault = true) :
    d.CachesNothing prefetchEnabled engine m a ↔
      d.Clears prefetchEnabled m a := by
  constructor
  · rintro ⟨o, hCall, hResult, hUnchanged, hRetries⟩
    have hMissed := missed_of_retries
      (ready_of_call hReady hCall) hUnchanged hRetries
    have hAssert : d = spec → a.walk.ppn ≠ BitVec.allOnes 64 := by
      intro hSpec
      subst hSpec
      exact assertion_of_missed hReady hMissed hCall
    rcases performAddressTranslation_fault prefetchEnabled
        engine hReady hFault hMissed hAssert with
      ⟨o', hCall', -, hIff⟩
    rw [hCall, Option.some.injEq] at hCall'
    rw [hCall'] at hResult hUnchanged
    exact hIff.mp ⟨hResult, hUnchanged⟩
  · intro hClears
    have hAssert : d = spec → a.walk.ppn ≠ BitVec.allOnes 64 := by
      intro hSpec
      subst hSpec
      exact hClears.2
    rcases performAddressTranslation_fault prefetchEnabled
        engine hReady hFault hClears.1 hAssert with
      ⟨o, hCall, hAfter, hIff⟩
    rcases hIff.mpr hClears with ⟨hResult, hUnchanged⟩
    refine ⟨o, hCall, hResult, hUnchanged,
      retries_of_missed hAfter (missed_congr ?_ rfl rfl hClears.1)⟩
    exact ⟨fun i j => (hUnchanged.tlbs i j).symm,
      hUnchanged.pomTlbs.symm, hUnchanged.tables.symm⟩

/- A walk of the page at 5000h that leaves the frame 7. -/
def faultingAccess : Access :=
  ⟨0x5123, false, 0, ⟨true, 7, 12⟩, 0, true⟩

/- The page is mapped to the frame 9. -/
def mappedAccess : Access :=
  ⟨0x5123, false, 0, ⟨false, 9, 12⟩, 0, true⟩

/- An engine without tables. -/
def noEngine : SpecEngine Unit :=
  ⟨fun _ _ _ _ => (), fun _ _ _ => ()⟩

theorem cachesNothing_faultingAccess :
    ∃ t ∈ Tlb.construct ⟨4, 4, [12], .data, true, false, 0⟩
        Replacement.lru (Replacement.lruInit 1 4),
      dmt.CachesNothing false noEngine ⟨[[t]], [], ()⟩
        faultingAccess := by
  have hNew : ∃ t ∈ Tlb.construct
        ⟨4, 4, [12], .data, true, false, 0⟩
        Replacement.lru (Replacement.lruInit 1 4),
      (t.accessSingleLineTLB 0x5123).1 = none := by
    decide +kernel
  rcases hNew with ⟨t, hConstruct, hMiss⟩
  have hTlbs : ∀ i j t', tlbAt [[t]] i j = some t' → t' = t := by
    intro i j t' hAt
    match i, j with
    | 0, 0 => exact (Option.some.inj hAt).symm
    | 0, _ + 1 => cases hAt
    | _ + 1, _ => cases hAt
  have hReady : Ready Replacement.LruReady
      (⟨[[t]], [], ()⟩ : MmuState (List (List Nat)) Unit) := by
    refine ⟨fun i j t' hAt => ?_,
      fun _ hMem => absurd hMem List.not_mem_nil⟩
    rw [hTlbs i j t' hAt]
    exact Tlb.contents_construct hConstruct
      Replacement.lru_selects (Replacement.lruInit_ready 1 4) _
  refine ⟨t, hConstruct, (cachesNothing_iff false noEngine
    hReady rfl).mpr ⟨⟨fun level index => ?_,
      fun hPom => nomatch hPom⟩, trivial⟩⟩
  cases hAt : tlbAt [[t]] level index with
  | none => rw [blockAtPlace, hAt, Option.bind_none]
  | some t' =>
      have hBlock := hMiss
      rw [← hTlbs level index t' hAt] at hBlock
      rw [blockAtPlace, hAt, Option.bind_some, Mmu.blockFor]
      split_ifs
      · exact hBlock
      · rfl

/-
  The POM-TLB design returns an address in the frame that the
  walk left, and after the page is mapped it still does.
-/
theorem not_cachesNothing_pomTlb :
    (∃ t ∈ Tlb.construct ⟨4, 4, [12], .data, true, false, 0⟩
        Replacement.lru (Replacement.lruInit 1 4),
      ¬ pomTlb.CachesNothing false noEngine ⟨[[t]], [t], ()⟩
        faultingAccess) ∧
      ∃ t ∈ Tlb.construct ⟨4, 4, [12], .data, true, false, 0⟩
          Replacement.lru (Replacement.lruInit 1 4),
        ∃ o ∈ pomTlb.performAddressTranslation false noEngine
            ⟨[[t]], [t], ()⟩ faultingAccess,
          o.result = 0x7123 ∧
            (pomTlb.performAddressTranslation false noEngine
              o.state mappedAccess).map
                TranslationOutcome.result = some 0x7123 := by
  have hRuns : ∃ t ∈ Tlb.construct
        ⟨4, 4, [12], .data, true, false, 0⟩
        Replacement.lru (Replacement.lruInit 1 4),
      ∃ o ∈ pomTlb.performAddressTranslation false noEngine
          ⟨[[t]], [t], ()⟩ faultingAccess,
        o.result = 0x7123 ∧
          (pomTlb.performAddressTranslation false noEngine
            o.state mappedAccess).map
              TranslationOutcome.result = some 0x7123 := by
    decide +kernel
  refine ⟨?_, hRuns⟩
  rcases hRuns with ⟨t, hConstruct, o, hCall, hResult, -⟩
  refine ⟨t, hConstruct, ?_⟩
  rintro ⟨o', hCall', hFault, -⟩
  rw [Option.mem_def.mp hCall, Option.some.injEq] at hCall'
  rw [← hCall', hResult] at hFault
  exact absurd hFault (by decide)

end FaultingMmu

end Virtuoso
