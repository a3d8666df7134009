import Virtuoso.Tlb.Hierarchy
import Virtuoso.Utopia.Translation.Steps

/-
  Migrations that are refused, in `mmu_utopia.cc`.

  `migratePage` returns 0 when it places no page. The policy
  that is based on costs reads this as a failure and goes on
  with the frame of the page table. The threshold-based one
  takes the 0 as the new frame, and invalidates the TLBs.

  An attempt begins after the decision for it. Its outcome is
  the frame that the translation goes on with: the one that
  the TLBs are filled with and that the physical address is
  made of. The caches of the segments' metadata, the maps of
  the sanity checks and the migration queue, which only adds
  latency, are left out.

  Main declarations:
    * `Utopia.System.form_run`
    * `Utopia.CoreState.leavesUnchanged_iff`
-/

------------------------------------------------------------
-- Attempts
------------------------------------------------------------

namespace Virtuoso

namespace Utopia

/- The bit is set for pages of 2MB. -/
structure UtlbEntry where
  vpnTag : Nat
  segId : Nat
  wayIdx : Nat
  pageSizeBit : Bool
  valid : Bool
deriving DecidableEq

/- The UTLB with its sets. -/
structure Utlb where
  setIndexBits : Nat
  sets : List (List UtlbEntry)
deriving DecidableEq

namespace Utlb

/- The set of a page. -/
def getSetIndex
    (u : Utlb)
    (address pageSizeBits : Nat) : Nat :=
  address / 2 ^ pageSizeBits % 2 ^ u.setIndexBits

/- The tag of a page. -/
def getVPNTag
    (u : Utlb)
    (address pageSizeBits : Nat) : Nat :=
  address / 2 ^ pageSizeBits / 2 ^ u.setIndexBits

/- The comparison of an entry with a page. -/
def isFor
    (e : UtlbEntry)
    (vpnTag pageSizeBits : Nat) : Bool :=
  e.valid && e.vpnTag == vpnTag &&
    e.pageSizeBit == decide (pageSizeBits = 21)

/- `UtopiaTLB::invalidate`: the first entry of the page. -/
def invalidate
    (u : Utlb)
    (address pageSizeBits : Nat) : Utlb :=
  { u with
    sets := u.sets.modify (u.getSetIndex address pageSizeBits)
      (fun set =>
        match set.findIdx? (fun e =>
            isFor e (u.getVPNTag address pageSizeBits)
              pageSizeBits) with
        | none => set
        | some way =>
            set.modify way (fun e => { e with valid := false }))
  }

end Utlb

/- The system with the TLBs of a core. -/
structure CoreState (σ : Type) where
  system : System
  tlbs : TlbSubsystem σ
  utlb : Option Utlb

/- A translation that the page table served. -/
structure Served where
  address : Nat
  core : Nat
  app : Nat
  dramAccesses : Nat
  ppn : Nat
  pageSizeBits : Nat

/-
  The frame that a translation goes on with, and the state
  that it goes on in.
-/
structure Outcome (σ : Type) where
  ppn : Nat
  state : CoreState σ

/- The page missed the segments, and a walk found it. -/
def Served.By (x : Served) (s : System) : Prop :=
  (s.allocator.isInRestSeg x.address x.app).1 = false ∧
    ∃ r, s.initializeWalk x.app x.address = some r ∧
      r.translation = some (x.ppn, x.pageSizeBits)

namespace Outcome

variable {σ : Type}

/- What the TLBs are filled with. -/
def fill (o : Outcome σ) (x : Served) : Mmu.Fill :=
  ⟨BitVec.ofNat 64 x.address, x.pageSizeBits, o.ppn, none⟩

/- The member `final_physical_address`. -/
def physicalAddress (o : Outcome σ) (x : Served) : Nat :=
  o.ppn * 4096 + x.address % 2 ^ x.pageSizeBits

end Outcome

namespace CoreState

variable {σ : Type}

/- The TLBs of the instruction or of the data path. -/
def invalidatePath
    (instruction : Bool)
    (address : Nat)
    (tlbs : TlbSubsystem σ) : Option (TlbSubsystem σ) :=
  tlbs.mapM (fun level => level.mapM (fun t =>
    if t.config.type =
        (if instruction then .data else .instruction) then
      some t
    else
      t.invalidate (BitVec.ofNat 64 address)))

/- `performTLBShootdown`. -/
def performTLBShootdown
    (m : CoreState σ)
    (address pageSizeBits : Nat) : Option (CoreState σ) :=
  ((invalidatePath false address m.tlbs).bind
    (invalidatePath true address)).map (fun tlbs =>
      { m with
        tlbs := tlbs
        utlb := m.utlb.map (fun u =>
          u.invalidate address pageSizeBits) })

/- The shootdowns of the page and of the evicted page. -/
def shootdowns
    (m : CoreState σ)
    (x : Served) : Option (CoreState σ) :=
  let a := m.system.allocator
  (m.performTLBShootdown x.address x.pageSizeBits).bind
    (fun m' =>
      if a.lastCausedEviction then
        m'.performTLBShootdown a.lastEvictedAddress
          a.lastEvictedPageSizeBits
      else
        some m')

/-
  An attempt to migrate the page: for an entry of the cost
  table, or else by the threshold-based policy.
-/
def attempt
    (m : CoreState σ)
    (x : Served)
    (target : Nat)
    (entry : Option Nat) : Option (Outcome σ) :=
  (m.system.migratePage x.address x.ppn target x.app).bind
    (fun r =>
      let newPpn := r.1.getD 0
      let m' := { m with
        system := r.2.noteMigration entry (x.address / 2 ^ 12) r.1 }
      if entry.isSome ∧ newPpn = 0 then
        some ⟨x.ppn, m'⟩
      else
        (m'.shootdowns x).map (fun m'' => ⟨newPpn, m''⟩))

/- The contents of the TLBs, without the replacement. -/
def entries
    (m : CoreState σ) :
    List (List (List (List TlbBlock))) × Option Utlb :=
  (m.tlbs.map (fun level => level.map Tlb.sets), m.utlb)

/- The segments, tables, blocks, credits and TLBs are as before. -/
structure Untouched (m m' : CoreState σ) : Prop where
  restSegs : m'.system.allocator.restSegs =
    m.system.allocator.restSegs
  pageTables : m'.system.pageTables = m.system.pageTables
  buddy : m'.system.allocator.buddy = m.system.allocator.buddy
  thpRegions : m'.system.allocator.thpRegions =
    m.system.allocator.thpRegions
  costTopKState : m'.system.allocator.costTopKState =
    m.system.allocator.costTopKState
  entries : m'.entries = m.entries

/- `migratePage` places no page. -/
def Refuses
    (m : CoreState σ)
    (x : Served)
    (target : Nat) : Prop :=
  (m.system.allocator.migratePage x.address x.ppn target
    x.app).1 = none

/-
  An attempt that is refused goes on with the frame of the
  page table, and changes nothing.
-/
def LeavesUnchanged
    (m : CoreState σ)
    (x : Served)
    (target : Nat)
    (entry : Option Nat) : Prop :=
  m.Refuses x target →
    ∃ o, m.attempt x target entry = some o ∧
      o.fill x = ⟨BitVec.ofNat 64 x.address, x.pageSizeBits,
        x.ppn, none⟩ ∧
      o.physicalAddress x =
        x.ppn * 4096 + x.address % 2 ^ x.pageSizeBits ∧
      m.Untouched o.state

/- A segment takes the page, whose region is not reserved. -/
def Placeable
    (m : CoreState σ)
    (x : Served)
    (target : Nat) : Prop :=
  m.system.allocator.isTracked x.address = false ∧
    ∃ size : PageSize, size.bits = target ∧
      (m.system.allocator.restSegs size).isSome = true

/- No TLB has an entry that the shootdowns remove. -/
def Quiet
    (m : CoreState σ)
    (x : Served)
    (target : Nat) : Prop :=
  ∃ m', { m with system :=
      { m.system with
        allocator := (m.system.allocator.migratePage x.address
          x.ppn target x.app).2 } }.shootdowns x = some m' ∧
    m'.entries = m.entries

end CoreState

namespace System

variable {s s' : System} {a : Allocator}

/- What an allocation keeps. -/
theorem keeps_of_serves
    {page core : Nat}
    {result : (Option Nat × PageSize) × Allocator}
    (hServes : a.Serves page core result) :
    a.Keeps result.2 := by
  cases hServes with
  | found _ hSteady _ _ => exact hSteady.toKeeps
  | added _ hAdds _ _ _ => exact hAdds.toKeeps
  | region _ hSteady _ _ => exact hSteady.toKeeps
  | block _ hSteady => exact hSteady.toKeeps

theorem keeps_of_moves
    {page target app : Nat}
    {result : Option Nat × Allocator}
    (hMoves : a.Moves page target app result) :
    a.Keeps result.2 := by
  cases hMoves with
  | refused hSteady _ => exact hSteady.toKeeps
  | moved _ _ _ hAdds _ _ _ => exact hAdds.toKeeps

theorem keeps_migratePage
    (hForm : s.allocator.Form)
    {address oldPpn target app : Nat}
    {r : Option Nat × System}
    (hMigrate : s.migratePage address oldPpn target app = some r) :
    s.allocator.Keeps r.2.allocator := by
  have hKeeps := keeps_of_moves (Allocator.moves_migratePage
    hForm address oldPpn target app)
  unfold migratePage at hMigrate
  split at hMigrate
  · rename_i a hResult
    rw [hResult] at hKeeps
    rw [← Option.some.inj hMigrate]
    exact hKeeps
  · rename_i newPpn a hResult
    rw [hResult] at hKeeps
    rcases Option.map_eq_some_iff.mp hMigrate with
      ⟨table, _, hEq⟩
    rw [← hEq]
    exact hKeeps

/- A step keeps the form of the segments. -/
theorem form_step
    (hForm : s.allocator.Form)
    {op : Op}
    (hStep : s.step op = some s') :
    s'.allocator.Form := by
  cases op with
  | fault address core app kernelStartAddress =>
      rw [step] at hStep
      rcases afterLookup_cases hForm hStep with
        ⟨_, a', _, hEq, _, hSteady, _⟩ |
        ⟨_, _, r, _, hNext⟩
      · subst hEq
        exact hSteady.toKeeps.form hForm
      · split_ifs at hNext with hFault
        · unfold handlePageFault at hNext
          simp only at hNext
          split at hNext
          · cases hNext
          · rename_i ppn size a hAllocate
            have hKeeps := keeps_of_serves
              (Allocator.serves_allocate hForm hAllocate)
            split_ifs at hNext
            · rw [← Option.some.inj hNext]
              exact hKeeps.form hForm
            · rcases updatePageTableFrames_eq_some hNext with
                ⟨_, table, _, hEq⟩
              subst hEq
              exact hKeeps.form hForm
        · rw [← Option.some.inj hNext]
          exact hForm
  | serviced address core app dramAccesses =>
      rw [step] at hStep
      rcases afterLookup_cases hForm hStep with
        ⟨_, a', _, hEq, _, hSteady, _⟩ |
        ⟨_, _, r, _, hNext⟩
      · subst hEq
        exact hSteady.toKeeps.form hForm
      · split at hNext
        · rw [← Option.some.inj hNext]
          exact hForm
        · rename_i ppn bits hTranslation
          unfold considerMigration at hNext
          have hSpec := (decideMigration_spec s core
            (address / 2 ^ 12) bits dramAccesses).1
          simp only at hNext
          split at hNext
          · rename_i s₁ hDecide
            rw [hDecide] at hSpec
            rw [← Option.some.inj hNext]
            exact hSpec.steady.toKeeps.form hForm
          · rename_i target entry s₁ hDecide
            rw [hDecide] at hSpec
            have hForm₁ := hSpec.steady.toKeeps.form hForm
            rcases Option.map_eq_some_iff.mp hNext with
              ⟨r₂, hMigrate, hEq⟩
            rw [← hEq]
            have hNoted := alike_noteMigration r₂.2 entry
              (address / 2 ^ 12) r₂.1
            exact hNoted.steady.toKeeps.form
              ((keeps_migratePage hForm₁ hMigrate).form hForm₁)
  | restSegWalk mode address app =>
      exact (restSegWalk_step hStep).2.1.toKeeps.form hForm
  | touchWayLRU size address way =>
      exact (touchWayLRU_step hStep).2.1.toKeeps.form hForm
  | allocatePageTable bytes =>
      exact (allocatePageTable_step hStep).2.1.toKeeps.form hForm

theorem form_run
    (hBuilt : a.Built)
    (legacy : LegacyConfig)
    {ops : List Op}
    (hRun : Run.run step (start a legacy) ops = some s) :
    s.allocator.Form :=
  Run.run_invariant (I := fun s => s.allocator.Form)
    (fun _ _ _ hForm hStep => form_step hForm hStep)
    hBuilt.form hRun

end System

------------------------------------------------------------
-- Attempts That Are Refused
------------------------------------------------------------

namespace CoreState

variable {σ : Type} {m m' : CoreState σ} {x : Served}
variable {target : Nat} {entry : Option Nat}

theorem system_performTLBShootdown
    {address pageSizeBits : Nat}
    (hCall : m.performTLBShootdown address pageSizeBits = some m') :
    m'.system = m.system := by
  rcases Option.map_eq_some_iff.mp hCall with ⟨tlbs, _, hEq⟩
  rw [← hEq]

theorem system_shootdowns
    (hCall : m.shootdowns x = some m') :
    m'.system = m.system := by
  rcases Option.bind_eq_some_iff.mp hCall with
    ⟨m₁, hFirst, hRest⟩
  split_ifs at hRest
  · rw [system_performTLBShootdown hRest,
      system_performTLBShootdown hFirst]
  · rw [← Option.some.inj hRest, system_performTLBShootdown hFirst]

/- A lookup reads nothing but the segments. -/
theorem isInRestSegFrom_congr
    {a a' : Allocator}
    (hSegs : a'.restSegs = a.restSegs)
    (address app : Nat)
    (sizes : List PageSize) :
    (Allocator.isInRestSegFrom address app sizes a').1 =
      (Allocator.isInRestSegFrom address app sizes a).1 := by
  induction sizes with
  | nil => rfl
  | cons size sizes ih =>
      rw [Allocator.isInRestSegFrom,
        Allocator.isInRestSegFrom, hSegs]
      cases a.restSegs size with
      | none => exact ih
      | some r =>
          simp only
          split
          · rfl
          · exact ih

/- A decision does not change how a page is served. -/
theorem by_alike
    {s s' : System}
    (hAlike : System.Alike s s')
    (hServed : x.By s) :
    x.By s' := by
  rcases hServed with ⟨hMiss, r, hWalk, hTranslation⟩
  refine ⟨?_, r, ?_, hTranslation⟩
  · unfold Allocator.isInRestSeg
    rw [hAlike.order, isInRestSegFrom_congr hAlike.restSegs]
    exact hMiss
  · unfold System.initializeWalk
    rw [hAlike.pageTables]
    exact hWalk

/- What a refusal leaves behind. -/
theorem migratePage_of_refuses
    (hForm : m.system.allocator.Form)
    (hServed : x.By m.system)
    (hRefuses : m.Refuses x target) :
    ∃ a', m.system.allocator.migratePage x.address x.ppn
        target x.app = (none, a') ∧
      (a' = m.system.allocator ∨
        a' = m.system.allocator.resetEviction) := by
  rcases Allocator.isInRestSeg_spec hForm x.address x.app with
    ⟨hMiss, hNone⟩ | ⟨_, a', hHit, _⟩
  · unfold Refuses at hRefuses
    unfold Allocator.migratePage at hRefuses ⊢
    rw [hMiss] at hRefuses ⊢
    simp only at hRefuses ⊢
    split_ifs at hRefuses ⊢ with hTracked
    · exact ⟨_, rfl, Or.inl rfl⟩
    · split at hRefuses
      · exact ⟨_, rfl, Or.inr rfl⟩
      · split at hRefuses
        · exact ⟨_, rfl, Or.inr rfl⟩
        · rename_i r hSeg
          have hReset :
              m.system.allocator.Steady
                m.system.allocator.resetEviction :=
            Allocator.steady_of_eq rfl rfl
          rcases Allocator.migrateTo_spec
            (hReset.toKeeps.form hForm) hSeg
            (hNone _) x.ppn with ⟨ppn, a', hMoved, _⟩
          rw [hMoved] at hRefuses
          cases hRefuses
  · have hMiss := hServed.1
    rw [hHit] at hMiss
    cases hMiss

/- A migration is refused where no segment takes the page. -/
theorem refuses_iff
    (hForm : m.system.allocator.Form)
    (hServed : x.By m.system)
    (target : Nat) :
    m.Refuses x target ↔ ¬ m.Placeable x target := by
  rcases Allocator.isInRestSeg_spec hForm x.address x.app with
    ⟨hMiss, hNone⟩ | ⟨_, a', hHit, _⟩
  · constructor
    · rintro hRefuses ⟨hOpen, size, hBits, hSome⟩
      have hUntracked : ¬ m.system.allocator.Tracked
          (x.address / 2 ^ 12 / 512) := by
        rw [← Allocator.isTracked_iff, hOpen]
        exact Bool.false_ne_true
      have hMoves := Allocator.migratePage_ne_none hForm
        hNone hUntracked hSome x.ppn
      rw [hBits] at hMoves
      exact hMoves hRefuses
    · intro hNot
      unfold Refuses Allocator.migratePage
      rw [hMiss]
      simp only
      split_ifs with hTracked
      · rfl
      · split
        · rfl
        · rename_i size hFind
          split
          · rfl
          · rename_i r hSeg
            exfalso
            apply hNot
            refine ⟨Bool.eq_false_iff.mpr hTracked, size, ?_, ?_⟩
            · simpa using List.find?_some hFind
            · rw [hSeg]
              rfl
  · have hMiss := hServed.1
    rw [hHit] at hMiss
    cases hMiss

/- An attempt that is refused, up to the shootdowns. -/
theorem attempt_of_refuses
    (hForm : m.system.allocator.Form)
    (hServed : x.By m.system)
    (hRefuses : m.Refuses x target)
    (entry : Option Nat) :
    ∃ m₁ : CoreState σ,
      m₁ = { m with system :=
        { m.system with
          allocator := (m.system.allocator.migratePage
            x.address x.ppn target x.app).2 } } ∧
      m.attempt x target entry =
        (if entry.isSome then some ⟨x.ppn, m₁⟩
        else (m₁.shootdowns x).map (fun m₂ => ⟨0, m₂⟩)) ∧
      m.Untouched m₁ := by
  rcases migratePage_of_refuses hForm hServed hRefuses with
    ⟨a', hCall, hSame⟩
  refine ⟨_, rfl, ?_, ?_⟩
  · have hNote : ∀ s : System,
        s.noteMigration entry (x.address / 2 ^ 12) none = s := by
      intro s
      cases entry with
      | none => rfl
      | some i => rfl
    unfold attempt System.migratePage
    rw [hCall]
    simp only [Option.bind_some, hNote, Option.getD_none, and_true]
  · rw [hCall]
    rcases hSame with hEq | hEq
    · rw [hEq]
      exact ⟨rfl, rfl, rfl, rfl, rfl, rfl⟩
    · rw [hEq]
      exact ⟨rfl, rfl, rfl, rfl, rfl, rfl⟩

/-
  In every state that can be reached, with any TLBs: a page
  that the page table serves is left as it is by a refused
  attempt exactly if the attempt is based on costs, or is not
  refused, or the frame is 0 as well.
-/
theorem leavesUnchanged_iff
    {buddy : Buddy}
    {configs : List RestSegConfig}
    {fingerprintBits : Nat}
    {percent : Int}
    {config : CostTopKConfig}
    {a : Allocator}
    (hConstruct : Allocator.construct buddy configs
      fingerprintBits percent config = some a)
    (legacy : LegacyConfig)
    {ops : List System.Op}
    {s s' : System}
    (hRun : Run.run System.step (System.start a legacy) ops =
      some s)
    (tlbs : TlbSubsystem σ)
    (utlb : Option Utlb)
    (x : Served)
    (hServed : x.By s)
    (hDecide : s.decideMigration x.core (x.address / 2 ^ 12)
      x.pageSizeBits x.dramAccesses = (some (target, entry), s')) :
    LeavesUnchanged ⟨s', tlbs, utlb⟩ x target entry ↔
      entry.isSome = true ∨
        Placeable ⟨s', tlbs, utlb⟩ x target ∨
        (x.ppn = 0 ∧ Quiet ⟨s', tlbs, utlb⟩ x target) := by
  have hAlike := (System.decideMigration_spec s x.core
    (x.address / 2 ^ 12) x.pageSizeBits x.dramAccesses).1
  rw [hDecide] at hAlike
  have hForm : s'.allocator.Form :=
    hAlike.steady.toKeeps.form (System.form_run
      (Allocator.built_construct hConstruct) legacy hRun)
  have hServed' : x.By s' := by_alike hAlike hServed
  have hRefuses := refuses_iff
    (m := ⟨s', tlbs, utlb⟩) hForm hServed' target
  constructor
  · intro hLeaves
    cases hEntry : entry.isSome with
    | true => exact Or.inl rfl
    | false =>
        by_cases hPlace : Placeable ⟨s', tlbs, utlb⟩ x target
        · exact Or.inr (Or.inl hPlace)
        · have hRefused := hRefuses.mpr hPlace
          rcases hLeaves hRefused with
            ⟨o, hAttempt, hFill, _, hUntouched⟩
          rcases attempt_of_refuses hForm hServed' hRefused
            entry with ⟨m₁, hEq, hForms, _⟩
          rw [hAttempt, hEntry] at hForms
          rcases Option.map_eq_some_iff.mp hForms.symm with
            ⟨m₂, hShoot, hOutcome⟩
          subst hOutcome
          subst hEq
          exact Or.inr (Or.inr
            ⟨(congrArg Mmu.Fill.ppn hFill).symm, m₂, hShoot,
              hUntouched.entries⟩)
  · intro hCases hRefused
    rcases attempt_of_refuses hForm hServed' hRefused entry
      with ⟨m₁, hEq, hForms, hSame⟩
    rcases hCases with hEntry | hPlace | hZero
    · rw [hEntry] at hForms
      exact ⟨_, hForms, rfl, rfl, hSame⟩
    · exact absurd hPlace (hRefuses.mp hRefused)
    · rcases hZero with ⟨hPpn, m₂, hShoot, hQuiet⟩
      rw [← hEq] at hShoot
      cases hEntry : entry.isSome with
      | true =>
          rw [hEntry] at hForms
          exact ⟨_, hForms, rfl, rfl, hSame⟩
      | false =>
          rw [hEntry, hShoot] at hForms
          have hSystem := system_shootdowns hShoot
          refine ⟨_, hForms, ?_, ?_, ?_⟩
          · rw [hPpn]
            rfl
          · rw [hPpn]
            rfl
          · refine ⟨?_, ?_, ?_, ?_, ?_, hQuiet⟩
            · rw [hSystem]
              exact hSame.restSegs
            · rw [hSystem]
              exact hSame.pageTables
            · rw [hSystem]
              exact hSame.buddy
            · rw [hSystem]
              exact hSame.thpRegions
            · rw [hSystem]
              exact hSame.costTopKState

/-
  A policy based on costs leaves a page of a region that is
  reserved as it is.
-/
theorem leavesUnchanged_cost :
    ∃ b ∈ Buddy.construct 12 9 8,
      ∃ a ∈ Allocator.construct b [⟨2, .twoMb, 1, 512⟩] 4 75
          ⟨true, 12, 10, 1, 3, 1, 1, 2, 1024, 8192, 4, 1, 1, 2⟩,
        ∃ s ∈ Run.run System.step
            (System.start a ⟨true, 1, 0⟩)
            [.fault 0 0 0 0x400000, .fault 0x200000 0 0 0x400000],
          ∃ t ∈ Tlb.construct
              ⟨4, 4, [12, 21], .unified, true, false, 0⟩
              Replacement.lru (Replacement.lruInit 1 4),
            s.allocator.isTracked 0x200000 = true ∧
              LeavesUnchanged
                ⟨(s.decideMigration 0 0x200 12 0).2, [[t]], none⟩
                ⟨0x200000, 0, 0, 0, 2560, 12⟩ 21 (some 0) := by
  have hMeets : ∃ b ∈ Buddy.construct 12 9 8,
      ∃ a ∈ Allocator.construct b [⟨2, .twoMb, 1, 512⟩] 4 75
          ⟨true, 12, 10, 1, 3, 1, 1, 2, 1024, 8192, 4, 1, 1, 2⟩,
        ∃ s ∈ Run.run System.step
            (System.start a ⟨true, 1, 0⟩)
            [.fault 0 0 0 0x400000, .fault 0x200000 0 0 0x400000],
          s.allocator.isTracked 0x200000 = true ∧
            (s.allocator.isInRestSeg 0x200000 0).1 = false ∧
            (s.initializeWalk 0 0x200000).bind
              PTWResult.translation = some (2560, 12) ∧
            (s.decideMigration 0 0x200 12 0).1 =
              some (21, some 0) := by
    decide +kernel
  have hMade : ∃ t ∈ Tlb.construct
      ⟨4, 4, [12, 21], .unified, true, false, 0⟩
      Replacement.lru (Replacement.lruInit 1 4),
      t.config.type = .unified := by
    decide +kernel
  rcases hMeets with
    ⟨b, hBuddy, a, hMake, s, hRun, hTracked, hMiss, hServed,
      hDecide⟩
  rcases hMade with ⟨t, hTlb, _⟩
  rcases Option.bind_eq_some_iff.mp hServed with
    ⟨r, hWalk, hTranslation⟩
  refine ⟨b, hBuddy, a, hMake, s, hRun, t, hTlb, hTracked, ?_⟩
  exact (leavesUnchanged_iff hMake ⟨true, 1, 0⟩ hRun [[t]] none
    ⟨0x200000, 0, 0, 0, 2560, 12⟩
    ⟨hMiss, r, hWalk, hTranslation⟩
    (Prod.ext hDecide rfl)).mpr (Or.inl rfl)

/-
  The threshold-based policy goes on with frame 0 for a page
  of a region that is reserved.
-/
theorem not_leavesUnchanged_legacy :
    ∃ b ∈ Buddy.construct 12 9 8,
      ∃ a ∈ Allocator.construct b [⟨2, .twoMb, 1, 512⟩] 4 75
          ⟨false, 12, 10, 1, 3, 1, 1, 2, 1024, 8192, 4, 1, 1, 2⟩,
        ∃ s ∈ Run.run System.step
            (System.start a ⟨true, 1, 0⟩)
            [.fault 0 0 0 0x400000, .fault 0x200000 0 0 0x400000],
          ∃ t ∈ Tlb.construct
              ⟨4, 4, [12, 21], .unified, true, false, 0⟩
              Replacement.lru (Replacement.lruInit 1 4),
            Served.By ⟨0x200000, 0, 0, 0, 2560, 12⟩ s ∧
              (s.decideMigration 0 0x200 12 0).1 = some (12, none) ∧
              ¬ LeavesUnchanged
                ⟨(s.decideMigration 0 0x200 12 0).2, [[t]], none⟩
                ⟨0x200000, 0, 0, 0, 2560, 12⟩ 12 none := by
  have hFails : ∃ b ∈ Buddy.construct 12 9 8,
      ∃ a ∈ Allocator.construct b [⟨2, .twoMb, 1, 512⟩] 4 75
          ⟨false, 12, 10, 1, 3, 1, 1, 2, 1024, 8192, 4, 1, 1, 2⟩,
        ∃ s ∈ Run.run System.step
            (System.start a ⟨true, 1, 0⟩)
            [.fault 0 0 0 0x400000, .fault 0x200000 0 0 0x400000],
          (s.allocator.isInRestSeg 0x200000 0).1 = false ∧
            (s.initializeWalk 0 0x200000).bind
              PTWResult.translation = some (2560, 12) ∧
            (s.decideMigration 0 0x200 12 0).1 = some (12, none) ∧
            ((s.decideMigration 0 0x200 12 0
              ).2.allocator.migratePage 0x200000 2560 12 0).1 =
                none := by
    decide +kernel
  have hMade : ∃ t ∈ Tlb.construct
      ⟨4, 4, [12, 21], .unified, true, false, 0⟩
      Replacement.lru (Replacement.lruInit 1 4),
      t.config.type = .unified := by
    decide +kernel
  rcases hFails with
    ⟨b, hBuddy, a, hMake, s, hRun, hMiss, hFound, hDecide, hRefused⟩
  rcases hMade with ⟨t, hTlb, _⟩
  rcases Option.bind_eq_some_iff.mp hFound with
    ⟨r, hWalk, hTranslation⟩
  have hServed : Served.By ⟨0x200000, 0, 0, 0, 2560, 12⟩ s :=
    ⟨hMiss, r, hWalk, hTranslation⟩
  refine ⟨b, hBuddy, a, hMake, s, hRun, t, hTlb, hServed,
    hDecide, ?_⟩
  have hAlike := (System.decideMigration_spec s 0 0x200 12 0).1
  have hForm := hAlike.steady.toKeeps.form (System.form_run
    (Allocator.built_construct hMake) ⟨true, 1, 0⟩ hRun)
  intro hLeaves
  rcases hLeaves hRefused with ⟨o, hAttempt, hFill, _, _⟩
  rcases attempt_of_refuses
    (m := ⟨(s.decideMigration 0 0x200 12 0).2, [[t]], none⟩)
    (x := ⟨0x200000, 0, 0, 0, 2560, 12⟩) hForm
    (by_alike hAlike hServed) hRefused none with
    ⟨m₁, _, hForms, _⟩
  rw [hAttempt] at hForms
  rcases Option.map_eq_some_iff.mp hForms.symm with
    ⟨m₂, _, hOutcome⟩
  rw [← hOutcome] at hFill
  have hPpn : 0 = 2560 := congrArg Mmu.Fill.ppn hFill
  cases hPpn

end CoreState

end Utopia

end Virtuoso
