import Virtuoso.Tlb.Invalidation
import Virtuoso.Tlb.Translation

/-
  What the TLBs hold after a search and an allocation, and
  that both always have an outcome.

  A TLB is ready when its policy selects a way of every set.
  `Q` is a property of translations. It is a property of all
  that the TLBs hold as long as it is one of all that is
  filled in, since what is pushed to the next level was held
  before. The TLBs are looked up without a page table here,
  so that their prefetch queues stay empty.

  Main declarations:
    * `Tlb.Contents.allocate`
    * `Mmu.allocateLevels_contents`
-/

------------------------------------------------------------
-- Ready TLBs And Their Contents
------------------------------------------------------------

namespace Virtuoso

variable {σ : Type}

/-
  In the states of a policy for the given number of ways, it
  selects one of the ways.
-/
structure Replacement.Selects
    (policy : Replacement σ)
    (ok : Nat → σ → Prop) : Prop where
  get : ∀ ways s index blocks, 0 < ways → ok ways s →
    blocks.length = ways →
      ∃ way s', policy.getReplacementIndex s index blocks =
          some (way, s') ∧ way < ways ∧ ok ways s'
  update : ∀ ways s index way, ok ways s →
    ok ways (policy.updateReplacementIndex s index way)

namespace Tlb

variable {t t' : Tlb σ} {ok : Nat → σ → Prop}
variable {address : BitVec 64} {pageSize ppn : Nat}

/- The sets are full, and the policy finds a victim. -/
structure Ready
    (ok : Nat → σ → Prop)
    (t : Tlb σ) : Prop where
  selects : t.policy.Selects ok
  state : ok t.config.associativity t.replacement
  ways : 0 < t.config.associativity
  numSets : 0 < t.config.numSets
  sets : t.sets.length = t.config.numSets
  set : ∀ set ∈ t.sets, set.length = t.config.associativity

theorem Ready.setIndex_lt
    (hReady : Ready ok t)
    (tag : BitVec 64) :
    t.setIndex tag < t.sets.length := by
  have hLe : t.setIndex tag ≤ t.config.numSets - 1 :=
    Nat.and_le_right
  have hPos := hReady.numSets
  rw [hReady.sets]
  omega

theorem Ready.setBlock
    (hReady : Ready ok t)
    (set way : Nat)
    (block : TlbBlock) :
    Ready ok (t.setBlock set way block) := by
  refine ⟨hReady.selects, hReady.state, hReady.ways,
    hReady.numSets, ?_, ?_⟩
  · rw [Tlb.setBlock, List.length_modify]
    exact hReady.sets
  · intro blocks hMem
    rcases List.mem_iff_getElem?.mp hMem with ⟨k, hGet⟩
    simp only [Tlb.setBlock, List.getElem?_modify] at hGet
    rcases Option.map_eq_some_iff.mp hGet with
      ⟨old, hOld, hEq⟩
    have hLength := hReady.set old (List.mem_of_getElem? hOld)
    rw [← hEq]
    split_ifs
    · rw [List.length_set]
      exact hLength
    · exact hLength

theorem Ready.replacement
    (hReady : Ready ok t)
    {next : σ}
    (hNext : ok t.config.associativity next) :
    Ready ok { t with replacement := next } :=
  ⟨hReady.selects, hNext, hReady.ways, hReady.numSets,
    hReady.sets, hReady.set⟩

/- Every insertion into a ready TLB has an outcome. -/
theorem Ready.insertSingleLineTLB
    (hReady : Ready ok t)
    (address : BitVec 64)
    (pageSize ppn : Nat) :
    ∃ out t', t.insertSingleLineTLB address pageSize ppn =
        some (out, t') ∧ Ready ok t' := by
  have hLt := hReady.setIndex_lt (tagOf address pageSize)
  have hSet : (t.sets.getD
      (t.setIndex (tagOf address pageSize)) []).length =
        t.config.associativity := by
    rw [List.getD_eq_getElem?_getD, List.getElem?_eq_getElem hLt]
    exact hReady.set _ (List.getElem_mem hLt)
  rcases hReady.selects.get _ t.replacement
      (t.setIndex (tagOf address pageSize)) _ hReady.ways
      hReady.state hSet with
    ⟨way, next, hChosen, hWay, hNext⟩
  rw [← hSet] at hWay
  have hAfter := (hReady.replacement hNext).setBlock
    (t.setIndex (tagOf address pageSize)) way
    ⟨tagOf address pageSize, pageSize, ppn, true⟩
  simp only [Tlb.insertSingleLineTLB, hChosen,
    List.getElem?_eq_getElem hWay]
  exact ⟨_, _, rfl, hAfter⟩

/- The translations that the TLB can return. -/
structure Contents
    (ok : Nat → σ → Prop)
    (Q : TlbBlock → Prop)
    (t : Tlb σ) : Prop where
  ready : Ready ok t
  placed : Placed t
  queue : t.queue = []
  held : ∀ k i b, t.blockAt k i = some b → b.shared = true → Q b

/- A block that was held. -/
structure Carried
    (Q : TlbBlock → Prop)
    (b : TlbBlock) : Prop where
  shared : b.shared = true
  fits : TagFits b
  prop : Q b

variable {Q : TlbBlock → Prop}

theorem Contents.insert
    (hContents : Contents ok Q t)
    (hNew : Q ⟨tagOf address pageSize, pageSize, ppn, true⟩) :
    ∃ out t', t.insertSingleLineTLB address pageSize ppn =
        some (out, t') ∧ Contents ok Q t' ∧
      ∀ b ∈ out, Carried Q b := by
  rcases hContents.ready.insertSingleLineTLB address pageSize
      ppn with ⟨out, t', hInsert, hReady⟩
  rcases insertSingleLineTLB_spec hInsert with
    ⟨way, old, hInserts, hOut⟩
  refine ⟨out, t', hInsert, ⟨hReady,
    hInserts.placed hContents.placed, ?_, ?_⟩, ?_⟩
  · rw [insertSingleLineTLB_queue hInsert]
    exact hContents.queue
  · intro k i b hBlock hShared
    rw [hInserts.after] at hBlock
    split_ifs at hBlock with hHere
    · rw [← Option.some.inj hBlock]
      exact hNew
    · exact hContents.held k i b hBlock hShared
  · intro b hMem
    rw [hOut] at hMem
    split_ifs at hMem with hValid
    · have hSame : old = b := Option.some.inj hMem
      subst hSame
      have hShared := hContents.placed.shared _ _ old
        hInserts.before hValid
      exact ⟨hShared,
        hContents.placed.fits _ _ old hInserts.before hShared,
        hContents.held _ _ old hInserts.before hShared⟩
    · cases hMem

/- An allocation in a TLB, which may prefetch. -/
theorem Contents.allocate
    (hContents : Contents ok Q t)
    (hNew : Q ⟨tagOf address pageSize, pageSize, ppn, true⟩) :
    ∃ out t', t.allocate address pageSize ppn false =
        some (out, t') ∧ Contents ok Q t' ∧
      ∀ b ∈ out, Carried Q b := by
  unfold Tlb.allocate
  split_ifs
  · exact ⟨none, t, rfl, hContents, by simp⟩
  · exact hContents.insert hNew

/- A victim of the level above is taken. -/
theorem Contents.push
    (hContents : Contents ok Q t)
    {v : TlbBlock}
    (hCarried : Carried Q v) :
    ∃ out t', t.exec (.push (v.tag <<< v.pageSize) v.pageSize
        v.ppn) = some (out, t') ∧ Contents ok Q t' ∧
      ∀ b ∈ out, Carried Q b := by
  have hSame : (⟨tagOf (v.tag <<< v.pageSize) v.pageSize,
      v.pageSize, v.ppn, true⟩ : TlbBlock) = v := by
    have hFits : tagOf (v.tag <<< v.pageSize) v.pageSize =
      v.tag := hCarried.fits
    rw [hFits, ← hCarried.shared]
  simp only [Tlb.exec]
  split_ifs
  · apply hContents.allocate
    rw [hSame]
    exact hCarried.prop
  · exact ⟨none, t, rfl, hContents, by simp⟩

theorem Contents.fill
    (hContents : Contents ok Q t)
    (hNew : Q ⟨tagOf address pageSize, pageSize, ppn, true⟩) :
    ∃ out t', t.exec (.fill address pageSize ppn) =
        some (out, t') ∧ Contents ok Q t' ∧
      ∀ b ∈ out, Carried Q b := by
  simp only [Tlb.exec]
  split_ifs
  · exact hContents.allocate hNew
  · exact ⟨none, t, rfl, hContents, by simp⟩

/- An access tells the policy about the block that is hit. -/
theorem Contents.access
    (hContents : Contents ok Q t)
    (address : BitVec 64) :
    Contents ok Q (t.accessSingleLineTLB address).2 := by
  rcases accessSingleLineTLB_kept t address with
    ⟨hSets, hConfig, -, hQueue⟩
  refine ⟨?_, hContents.placed.of_sets hSets hConfig, ?_, ?_⟩
  · unfold accessSingleLineTLB
    split
    · exact hContents.ready
    · exact hContents.ready.replacement
        (hContents.ready.selects.update _ _ _ _
          hContents.ready.state)
  · rw [hQueue]
    exact hContents.queue
  · intro k i b hBlock
    rw [blockAt, hSets] at hBlock
    exact hContents.held k i b hBlock

/- A block that is hit is one of the address. -/
theorem Contents.hit
    (hContents : Contents ok Q t)
    {b : TlbBlock}
    (hHit : (t.accessSingleLineTLB address).1 = some b) :
    Q b ∧ b.tag = tagOf address b.pageSize := by
  unfold accessSingleLineTLB at hHit
  split at hHit
  · cases hHit
  · next set way block hFind =>
      rw [Option.some.injEq] at hHit
      subst hHit
      rcases find_eq_some hFind with
        ⟨hBlock, hShared, -, hTag⟩
      exact ⟨hContents.held _ _ _ hBlock hShared, hTag⟩

end Tlb

namespace Replacement

/- The positions of the ways are set up for all sets. -/
def LruReady (ways : Nat) (s : List (List Nat)) : Prop :=
  ∀ bits ∈ s, bits.length = ways

variable {ways : Nat}

theorem foldl_best_lt
    {entries : List (Nat × Nat)}
    (hEntries : ∀ e ∈ entries, e.2 < ways)
    {best : Nat × Nat}
    (hBest : best.1 < ways) :
    (entries.foldl
      (fun (best : Nat × Nat) b =>
        if best.2 < b.1 then (b.2, b.1) else best)
      best).1 < ways := by
  induction entries generalizing best with
  | nil => exact hBest
  | cons e rest ih =>
      rw [List.foldl_cons]
      apply ih (fun e' hMem => hEntries e' (by simp [hMem]))
      split_ifs
      · exact hEntries e (by simp)
      · exact hBest

theorem leastRecent_lt
    {bits : List Nat}
    (hPos : 0 < ways)
    (hLength : bits.length ≤ ways) :
    leastRecent bits < ways := by
  apply foldl_best_lt _ hPos
  intro e hMem
  rcases List.mem_zipIdx hMem with ⟨-, hLt, -⟩
  omega

theorem LruReady.length_getD_le
    {s : List (List Nat)}
    (hReady : LruReady ways s)
    (index : Nat) :
    (s.getD index []).length ≤ ways := by
  rw [List.getD_eq_getElem?_getD]
  cases hGet : s[index]? with
  | none => simp
  | some bits =>
      exact Nat.le_of_eq (hReady bits (List.mem_of_getElem? hGet))

theorem LruReady.moveToMRU
    {s : List (List Nat)}
    (hReady : LruReady ways s)
    (index way : Nat) :
    LruReady ways
      (s.set index (moveToMRU (s.getD index []) way)) := by
  intro bits hMem
  rcases List.mem_or_eq_of_mem_set hMem with hOld | hNew
  · exact hReady bits hOld
  · by_cases hLt : index < s.length
    · rw [hNew, Replacement.moveToMRU, List.length_set,
        List.length_map, List.getD_eq_getElem?_getD,
        List.getElem?_eq_getElem hLt]
      exact hReady _ (List.getElem_mem hLt)
    · rw [List.set_eq_of_length_le (by omega)] at hMem
      exact hReady bits hMem

theorem lru_selects :
    lru.Selects LruReady := by
  refine ⟨?_, ?_⟩
  · intro ways s index blocks hPos hReady hLength
    refine ⟨_, _, rfl, ?_, hReady.moveToMRU index _⟩
    cases hFree : blocks.findIdx? (fun b => !b.isValid) with
    | none =>
        exact leastRecent_lt hPos (hReady.length_getD_le index)
    | some way =>
        rcases List.findIdx?_eq_some_iff_getElem.mp hFree with
          ⟨hLt, -⟩
        rw [← hLength]
        exact hLt
  · intro ways s index way hReady
    exact hReady.moveToMRU index way

theorem lruInit_ready
    (numSets ways : Nat) :
    LruReady ways (lruInit numSets ways) := by
  intro bits hMem
  rw [List.eq_of_mem_replicate hMem, List.length_map,
    List.length_range]

end Replacement

namespace Tlb

/- A TLB as it is constructed holds nothing. -/
theorem contents_construct
    {t : Tlb σ}
    {ok : Nat → σ → Prop}
    {config : TlbConfig}
    {policy : Replacement σ}
    {replacement : σ}
    (hConstruct : construct config policy replacement = some t)
    (hSelects : policy.Selects ok)
    (hState : ok config.associativity replacement)
    (Q : TlbBlock → Prop) :
    Contents ok Q t := by
  have hShaped := shaped_construct hConstruct
  have hBlocks := fun k i b =>
    blockAt_construct hConstruct (k := k) (i := i) (b := b)
  unfold construct at hConstruct
  split_ifs at hConstruct with hChecks
  have hSets : 0 < config.numSets := by
    rw [← hChecks.2]
    exact Nat.two_pow_pos _
  have hWays : 0 < config.associativity := by
    rcases Nat.eq_zero_or_pos config.associativity with
      hZero | hPos
    · rw [TlbConfig.numSets, hZero, Nat.div_zero] at hSets
      omega
    · exact hPos
  rw [Option.some.injEq] at hConstruct
  subst hConstruct
  refine ⟨⟨hSelects, hState, hWays, hSets, ?_, ?_⟩,
    hShaped.toPlaced, rfl, ?_⟩
  · exact List.length_replicate
  · intro set hMem
    rw [List.eq_of_mem_replicate hMem]
    exact List.length_replicate
  · intro k i b hBlock hShared
    rw [hBlocks k i b hBlock] at hShared
    cases hShared

end Tlb

------------------------------------------------------------
-- Searches And Allocations
------------------------------------------------------------

namespace Mmu

variable {s s' s'' : Session σ} {h h' h'' : TlbSubsystem σ}
variable {ok : Nat → σ → Prop} {Q : TlbBlock → Prop}
variable {r : Request}

/- The TLBs hold what they held. -/
def Unmoved (h h' : TlbSubsystem σ) : Prop :=
  ∀ i j, (tlbAt h' i j).map (fun t => (t.sets, t.config)) =
    (tlbAt h i j).map (fun t => (t.sets, t.config))

theorem Unmoved.refl
    (h : TlbSubsystem σ) :
    Unmoved h h :=
  fun _ _ => rfl

theorem Unmoved.trans
    (hFirst : Unmoved h h')
    (hSecond : Unmoved h' h'') :
    Unmoved h h'' :=
  fun i j => (hSecond i j).trans (hFirst i j)

/- There are TLBs at the same places. -/
def SamePlaces (h h' : TlbSubsystem σ) : Prop :=
  ∀ i j, (tlbAt h' i j).isSome = (tlbAt h i j).isSome

theorem SamePlaces.trans
    (hFirst : SamePlaces h h')
    (hSecond : SamePlaces h' h'') :
    SamePlaces h h'' :=
  fun i j => (hSecond i j).trans (hFirst i j)

theorem isSome_of_mem_indices
    {level index : Nat}
    (hMem : index ∈ indices h level) :
    (tlbAt h level index).isSome := by
  rw [indices, List.mem_range, List.getD_eq_getElem?_getD] at hMem
  cases hLevel : h[level]? with
  | none =>
      rw [hLevel] at hMem
      simp at hMem
  | some tlbs =>
      rw [hLevel, Option.getD_some] at hMem
      rw [tlbAt, hLevel, Option.bind_some,
        List.getElem?_eq_getElem hMem]
      rfl

variable {t t' : Tlb σ}

/- An operation with a known outcome on its TLB. -/
theorem perform_of_exec
    {level index : Nat}
    {op : TlbOp}
    {out : Option TlbBlock}
    {P : Tlb σ → Prop}
    (hEach : Each P s.tlbs)
    (hAt : tlbAt s.tlbs level index = some t)
    (hExec : t.exec op = some (out, t'))
    (hOwn : P t') :
    ∃ s', perform s ⟨level, index, op⟩ = some (out, s') ∧
      Each P s'.tlbs ∧ SamePlaces s.tlbs s'.tlbs ∧
      ∀ i j, tlbAt s'.tlbs i j =
        if i = level ∧ j = index then some t'
        else tlbAt s.tlbs i j := by
  have hPerform : perform s ⟨level, index, op⟩ =
      some (out, ⟨setTlb s.tlbs level index t',
        s.trail ++ [⟨level, index, op⟩]⟩) := by
    simp only [perform, exec, hAt, Option.bind_some, hExec,
      Option.map_some]
  have hAfter := tlbAt_setTlb hAt t'
  refine ⟨_, hPerform, ?_, ?_, hAfter⟩
  · intro i j t₁ hAt₁
    rw [hAfter] at hAt₁
    split_ifs at hAt₁ with hHere
    · rw [← Option.some.inj hAt₁]
      exact hOwn
    · exact hEach i j t₁ hAt₁
  · intro i j
    rw [hAfter]
    split_ifs with hHere
    · rw [hHere.1, hHere.2, hAt]
      rfl
    · rfl

/- The block that a lookup of the TLB returns. -/
def blockFor (r : Request) (t : Tlb σ) : Option TlbBlock :=
  if onPath r t then (t.accessSingleLineTLB r.address).1
  else none

theorem findSingleLineTLB_congr
    (hSets : t'.sets = t.sets)
    (hConfig : t'.config = t.config)
    (address : BitVec 64)
    (sizes : List Nat) :
    t'.findSingleLineTLB address sizes =
      t.findSingleLineTLB address sizes := by
  induction sizes with
  | nil => rfl
  | cons size sizes ih =>
      simp only [Tlb.findSingleLineTLB, Tlb.setIndex, hSets,
        hConfig, ih]

theorem blockFor_congr
    (hSets : t'.sets = t.sets)
    (hConfig : t'.config = t.config) :
    blockFor r t' = blockFor r t := by
  have hAccess : (t'.accessSingleLineTLB r.address).1 =
      (t.accessSingleLineTLB r.address).1 := by
    simp only [Tlb.accessSingleLineTLB,
      findSingleLineTLB_congr hSets hConfig, hConfig]
    cases t.findSingleLineTLB r.address t.config.pageSizes with
    | none => rfl
    | some _ => rfl
  have hPath : onPath r t' = onPath r t := by
    simp only [onPath, hConfig]
  rw [blockFor, blockFor, hPath, hAccess]

/- What a lookup at a place of the hierarchy returns. -/
def blockAtPlace
    (r : Request)
    (h : TlbSubsystem σ)
    (level index : Nat) : Option TlbBlock :=
  (tlbAt h level index).bind (blockFor r)

theorem Unmoved.blockAtPlace
    (hUnmoved : Unmoved h h')
    (level index : Nat) :
    blockAtPlace r h' level index =
      blockAtPlace r h level index := by
  have hSame := hUnmoved level index
  unfold Mmu.blockAtPlace
  cases hOld : tlbAt h level index with
  | none =>
      rw [hOld, Option.map_none, Option.map_eq_none_iff] at hSame
      rw [hSame]
  | some t =>
      rw [hOld, Option.map_some, Option.map_eq_some_iff] at hSame
      rcases hSame with ⟨t', hNew, hEq⟩
      rw [Prod.mk.injEq] at hEq
      rw [hNew, Option.bind_some, Option.bind_some,
        blockFor_congr hEq.1 hEq.2]

theorem Unmoved.samePlaces
    (hUnmoved : Unmoved h h') :
    SamePlaces h h' := by
  intro i j
  have hSame := congrArg Option.isSome (hUnmoved i j)
  simpa using hSame

/- An operation that does not change what its TLB holds. -/
theorem unmoved_of_after
    {level index : Nat}
    (hAt : tlbAt h level index = some t)
    (hSets : t'.sets = t.sets)
    (hConfig : t'.config = t.config)
    (hAfter : ∀ i j, tlbAt h' i j =
      if i = level ∧ j = index then some t'
      else tlbAt h i j) :
    Unmoved h h' := by
  intro i j
  rw [hAfter]
  split_ifs with hHere
  · rw [hHere.1, hHere.2, hAt, Option.map_some,
      Option.map_some, hSets, hConfig]
  · rfl

/- Without predictions, nothing is put into a queue. -/
theorem exec_enqueue_nil
    (t : Tlb σ) :
    t.exec (.enqueue []) = some (none, t) := by
  simp only [Tlb.exec]
  split_ifs
  · rfl
  · rfl

/- A lookup with an empty queue and without predictions. -/
theorem lookupAt_contents
    {level index : Nat}
    {t : Tlb σ}
    (hOutputs : ∀ i j, r.outputs i j = [])
    (hEach : Each (Tlb.Contents ok Q) s.tlbs)
    (hAt : tlbAt s.tlbs level index = some t) :
    ∃ s', lookupAt r level index t s =
        some ((t.accessSingleLineTLB r.address).1, s') ∧
      Each (Tlb.Contents ok Q) s'.tlbs ∧
      Unmoved s.tlbs s'.tlbs := by
  have hContents := (hEach _ _ t hAt).access r.address
  rcases Tlb.accessSingleLineTLB_kept t r.address with
    ⟨hSets, hConfig, -, -⟩
  have hExec : t.exec (.access r.address) =
      some ((t.accessSingleLineTLB r.address).1,
        (t.accessSingleLineTLB r.address).2) := rfl
  rcases perform_of_exec hEach hAt hExec hContents with
    ⟨s₁, hAccess, hEach₁, -, hAfter₁⟩
  have hAt₁ : tlbAt s₁.tlbs level index =
      some (t.accessSingleLineTLB r.address).2 := by
    rw [hAfter₁, if_pos ⟨rfl, rfl⟩]
  rcases perform_of_exec hEach₁ hAt₁ (exec_enqueue_nil _)
      hContents with ⟨s₂, hEnqueue, hEach₂, -, hAfter₂⟩
  refine ⟨s₂, ?_, hEach₂,
    (unmoved_of_after hAt hSets hConfig hAfter₁).trans
      (unmoved_of_after hAt₁ rfl rfl hAfter₂)⟩
  simp only [lookupAt, (hEach _ _ t hAt).queue,
    List.length_nil, materializeAt, Option.bind_some, hAccess,
    hOutputs, hEnqueue, Option.map_some]

/- The last hit of a level counts. -/
theorem searchLevel_contents
    (hOutputs : ∀ i j, r.outputs i j = [])
    (level : Nat)
    (indexList : List Nat)
    (hit : Option TlbBlock)
    (hEach : Each (Tlb.Contents ok Q) s.tlbs)
    (hPlaces : ∀ index ∈ indexList,
      (tlbAt s.tlbs level index).isSome) :
    ∃ out s', searchLevel r level indexList hit s = some (out, s') ∧
      Each (Tlb.Contents ok Q) s'.tlbs ∧
      Unmoved s.tlbs s'.tlbs ∧
      (out = none ↔ hit = none ∧ ∀ index ∈ indexList,
        blockAtPlace r s.tlbs level index = none) ∧
      (∀ b ∈ out, b ∈ hit ∨
        ∃ index, blockAtPlace r s.tlbs level index = some b) := by
  induction indexList generalizing s hit with
  | nil =>
      exact ⟨hit, s, rfl, hEach, .refl _, by simp,
        fun b hMem => Or.inl hMem⟩
  | cons index rest ih =>
      rcases Option.isSome_iff_exists.mp
          (hPlaces index (by simp)) with ⟨t, hAt⟩
      have hRest : ∀ {s₁ : Session σ},
          Unmoved s.tlbs s₁.tlbs → ∀ i ∈ rest,
            (tlbAt s₁.tlbs level i).isSome := by
        intro s₁ hUnmoved i hMem
        rw [hUnmoved.samePlaces]
        exact hPlaces i (by simp [hMem])
      have hHere : blockAtPlace r s.tlbs level index =
          blockFor r t := by
        rw [blockAtPlace, hAt, Option.bind_some]
      cases hPath : onPath r t with
      | true =>
          have hBlock : blockFor r t =
              (t.accessSingleLineTLB r.address).1 := by
            rw [blockFor, if_pos hPath]
          rcases lookupAt_contents hOutputs hEach hAt with
            ⟨s₁, hLookup, hEach₁, hUnmoved₁⟩
          rcases ih ((t.accessSingleLineTLB r.address).1 <|>
              hit) hEach₁ (hRest hUnmoved₁) with
            ⟨out, s', hCall, hEach', hUnmoved', hNone, hSome⟩
          refine ⟨out, s', ?_, hEach',
            hUnmoved₁.trans hUnmoved', ?_, ?_⟩
          · simp only [searchLevel, hAt, Option.bind_some,
              hPath, if_true, hLookup, hCall]
          · rw [hNone, Option.orElse_eq_orElse,
              Option.orElse_eq_or, Option.or_eq_none_iff,
              List.forall_mem_cons, hHere, hBlock]
            simp only [hUnmoved₁.blockAtPlace]
            tauto
          · intro b hMem
            rcases hSome b hMem with hOld | ⟨i, hFound⟩
            · rw [Option.orElse_eq_orElse,
                Option.orElse_eq_or, Option.mem_def,
                Option.or_eq_some_iff] at hOld
              rcases hOld with hOwn | ⟨-, hOld⟩
              · exact Or.inr ⟨index, by
                  rw [hHere, hBlock, hOwn]⟩
              · exact Or.inl hOld
            · rw [hUnmoved₁.blockAtPlace] at hFound
              exact Or.inr ⟨i, hFound⟩
      | false =>
          have hBlock : blockFor r t = none := by
            rw [blockFor, hPath]
            rfl
          rcases ih hit hEach (hRest (.refl _)) with
            ⟨out, s', hCall, hEach', hUnmoved', hNone, hSome⟩
          refine ⟨out, s', ?_, hEach', hUnmoved', ?_, hSome⟩
          · simp only [searchLevel, hAt, Option.bind_some,
              hPath, Bool.false_eq_true, if_false, hCall]
          · rw [hNone, List.forall_mem_cons, hHere, hBlock]
            tauto

/- The hit comes from the first level with one. -/
theorem searchLevels_contents
    (hOutputs : ∀ i j, r.outputs i j = [])
    (levels : List Nat)
    (hEach : Each (Tlb.Contents ok Q) s.tlbs) :
    ∃ found s', searchLevels r levels s = some (found, s') ∧
      Each (Tlb.Contents ok Q) s'.tlbs ∧
      Unmoved s.tlbs s'.tlbs ∧
      (found = none ↔ ∀ level ∈ levels, ∀ index,
        blockAtPlace r s.tlbs level index = none) ∧
      (∀ p ∈ found, ∃ index,
        blockAtPlace r s.tlbs p.1 index = some p.2) := by
  induction levels generalizing s with
  | nil =>
      exact ⟨none, s, rfl, hEach, .refl _, by simp, by simp⟩
  | cons level rest ih =>
      rcases searchLevel_contents hOutputs level
          (indices s.tlbs level) none hEach
          (fun _ hMem => isSome_of_mem_indices hMem) with
        ⟨out, s₁, hCall, hEach₁, hUnmoved₁, hNone, hSome⟩
      have hLevel : (∀ index ∈ indices s.tlbs level,
          blockAtPlace r s.tlbs level index = none) ↔
            ∀ index, blockAtPlace r s.tlbs level index = none := by
        refine ⟨fun hAll index => ?_,
          fun hAll index _ => hAll index⟩
        cases hAt : tlbAt s.tlbs level index with
        | none => rw [blockAtPlace, hAt, Option.bind_none]
        | some t => exact hAll index (mem_indices hAt)
      cases hOut : out with
      | some b =>
          refine ⟨some (level, b), s₁, ?_, hEach₁, hUnmoved₁,
            ?_, ?_⟩
          · simp only [searchLevels, hCall, Option.bind_some, hOut]
          · rw [List.forall_mem_cons, ← hLevel]
            refine iff_of_false (by simp) (fun hAll => ?_)
            have hMiss := hNone.mpr ⟨rfl, hAll.1⟩
            rw [hOut] at hMiss
            cases hMiss
          · intro p hMem
            rw [← Option.some.inj hMem]
            rcases hSome b hOut with hOld | hFound
            · cases hOld
            · exact hFound
      | none =>
          rcases ih hEach₁ with
            ⟨found, s', hRest, hEach', hUnmoved', hMiss, hHit⟩
          simp only [hUnmoved₁.blockAtPlace] at hMiss hHit
          refine ⟨found, s', ?_, hEach',
            hUnmoved₁.trans hUnmoved', ?_, hHit⟩
          · simp only [searchLevels, hCall, Option.bind_some,
              hOut, hRest]
          · rw [hMiss, List.forall_mem_cons]
            exact ⟨fun hAll => ⟨hLevel.mp (hNone.mp hOut).2,
              hAll⟩, fun hAll => hAll.2⟩

/- The TLBs with their contents, at the same places. -/
structure Holding
    (ok : Nat → σ → Prop)
    (Q : TlbBlock → Prop)
    (s s' : Session σ) : Prop where
  each : Each (Tlb.Contents ok Q) s'.tlbs
  places : SamePlaces s.tlbs s'.tlbs

theorem Holding.trans
    (hFirst : Holding ok Q s s')
    (hSecond : Holding ok Q s' s'') :
    Holding ok Q s s'' :=
  ⟨hSecond.each, hFirst.places.trans hSecond.places⟩

theorem forall_mem_append_toList
    {evicted : List TlbBlock}
    {out : Option TlbBlock}
    (hOld : ∀ b ∈ evicted, Tlb.Carried Q b)
    (hNew : ∀ b ∈ out, Tlb.Carried Q b) :
    ∀ b ∈ evicted ++ out.toList, Tlb.Carried Q b := by
  intro b hMem
  rcases List.mem_append.mp hMem with hLeft | hRight
  · exact hOld b hLeft
  · exact hNew b (Option.mem_toList.mp hRight)

variable {f : Fill} {level index : Nat}
variable {victims evicted : List TlbBlock}

theorem pushVictims_contents
    (hEach : Each (Tlb.Contents ok Q) s.tlbs)
    (hAt : (tlbAt s.tlbs level index).isSome)
    (hVictims : ∀ v ∈ victims, Tlb.Carried Q v)
    (hEvicted : ∀ v ∈ evicted, Tlb.Carried Q v) :
    ∃ out s', pushVictims level index victims evicted s =
        some (out, s') ∧ Holding ok Q s s' ∧
      ∀ v ∈ out, Tlb.Carried Q v := by
  induction victims generalizing s evicted with
  | nil =>
      exact ⟨evicted, s, rfl, ⟨hEach, fun _ _ => rfl⟩, hEvicted⟩
  | cons v rest ih =>
      rcases Option.isSome_iff_exists.mp hAt with ⟨t, hTlb⟩
      rcases (hEach _ _ t hTlb).push (hVictims v (by simp)) with
        ⟨out, t', hExec, hOwn, hOut⟩
      rcases perform_of_exec hEach hTlb hExec hOwn with
        ⟨s₁, hPerform, hEach₁, hPlaces, -⟩
      rcases ih hEach₁ (by rw [hPlaces]; exact hAt)
          (fun v' hMem => hVictims v' (by simp [hMem]))
          (forall_mem_append_toList hEvicted hOut) with
        ⟨all, s', hCall, hHolding, hAll⟩
      refine ⟨all, s', ?_,
        Holding.trans ⟨hEach₁, hPlaces⟩ hHolding, hAll⟩
      simp only [pushVictims, hPerform, Option.bind_some, hCall]

/- The translation that is filled in. -/
def Fill.block (f : Fill) : TlbBlock :=
  ⟨Tlb.tagOf f.address f.pageSize, f.pageSize, f.ppn, true⟩

theorem fillTlb_contents
    (hEach : Each (Tlb.Contents ok Q) s.tlbs)
    (hAt : (tlbAt s.tlbs level index).isSome)
    (hFill : Q f.block)
    (hEvicted : ∀ v ∈ evicted, Tlb.Carried Q v) :
    ∃ out s', fillTlb f level index evicted s =
        some (out, s') ∧ Holding ok Q s s' ∧
      ∀ v ∈ out, Tlb.Carried Q v := by
  unfold fillTlb
  split_ifs with hReaches
  · rcases Option.isSome_iff_exists.mp hAt with ⟨t, hTlb⟩
    rcases (hEach _ _ t hTlb).fill hFill with
      ⟨out, t', hExec, hOwn, hOut⟩
    rcases perform_of_exec hEach hTlb hExec hOwn with
      ⟨s', hPerform, hEach', hPlaces, -⟩
    refine ⟨evicted ++ out.toList, s', ?_,
      ⟨hEach', hPlaces⟩,
      forall_mem_append_toList hEvicted hOut⟩
    simp only [hPerform, Option.map_some]
  · exact ⟨evicted, s, rfl, ⟨hEach, fun _ _ => rfl⟩, hEvicted⟩

theorem allocateLevel_contents
    (level : Nat)
    (indexList : List Nat)
    (hEach : Each (Tlb.Contents ok Q) s.tlbs)
    (hPlaces : ∀ index ∈ indexList,
      (tlbAt s.tlbs level index).isSome)
    (hFill : Q f.block)
    (hVictims : ∀ v ∈ victims, Tlb.Carried Q v)
    (hEvicted : ∀ v ∈ evicted, Tlb.Carried Q v) :
    ∃ out s', allocateLevel r f level victims indexList
        evicted s = some (out, s') ∧ Holding ok Q s s' ∧
      ∀ v ∈ out, Tlb.Carried Q v := by
  induction indexList generalizing s evicted with
  | nil =>
      exact ⟨evicted, s, rfl, ⟨hEach, fun _ _ => rfl⟩, hEvicted⟩
  | cons index rest ih =>
      have hAt := hPlaces index (by simp)
      rcases Option.isSome_iff_exists.mp hAt with ⟨t, hTlb⟩
      have hRest : ∀ {s₁ : Session σ},
          SamePlaces s.tlbs s₁.tlbs → ∀ i ∈ rest,
            (tlbAt s₁.tlbs level i).isSome := by
        intro s₁ hSame i hMem
        rw [hSame]
        exact hPlaces i (by simp [hMem])
      cases hActs : (onPath r t && !t.config.prefetch) with
      | true =>
          rcases pushVictims_contents hEach hAt hVictims
              hEvicted with
            ⟨pushed, s₁, hPush, hHolding₁, hPushed⟩
          rcases fillTlb_contents hHolding₁.each
              (by rw [hHolding₁.places]; exact hAt) hFill
              hPushed with
            ⟨filled, s₂, hFilled, hHolding₂, hOut⟩
          have hBoth := hHolding₁.trans hHolding₂
          rcases ih hBoth.each (hRest hBoth.places) hOut with
            ⟨out, s', hCall, hHolding', hAll⟩
          refine ⟨out, s', ?_, hBoth.trans hHolding', hAll⟩
          simp only [allocateLevel, hTlb, Option.bind_some,
            hActs, if_true, hPush, hFilled, hCall]
      | false =>
          rcases ih hEach (hRest (fun _ _ => rfl)) hEvicted with
            ⟨out, s', hCall, hHolding', hAll⟩
          refine ⟨out, s', ?_, hHolding', hAll⟩
          simp only [allocateLevel, hTlb, Option.bind_some,
            hActs, Bool.false_eq_true, if_false, hCall]

/- An allocation has an outcome and keeps the property. -/
theorem allocateLevels_contents
    (levels : List Nat)
    (hEach : Each (Tlb.Contents ok Q) s.tlbs)
    (hFill : Q f.block)
    (hVictims : ∀ v ∈ victims, Tlb.Carried Q v) :
    ∃ s', allocateLevels r f levels victims s = some s' ∧
      Holding ok Q s s' := by
  induction levels generalizing s victims with
  | nil => exact ⟨s, rfl, hEach, fun _ _ => rfl⟩
  | cons level rest ih =>
      have hNone : ∀ v ∈ ([] : List TlbBlock),
          Tlb.Carried Q v := by simp
      rcases allocateLevel_contents (r := r) level
          (indices s.tlbs level) hEach
          (fun _ hMem => isSome_of_mem_indices hMem) hFill
          hVictims hNone with
        ⟨out, s₁, hCall, hHolding, hOut⟩
      rcases ih hHolding.each hOut with
        ⟨s', hRest, hHolding'⟩
      refine ⟨s', ?_, hHolding.trans hHolding'⟩
      simp only [allocateLevels, hCall, Option.bind_some, hRest]

end Mmu

end Virtuoso
