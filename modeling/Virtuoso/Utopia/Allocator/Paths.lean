import Virtuoso.Utopia.Allocator.Segments
import Virtuoso.Utopia.Layout
import Virtuoso.Utopia.Utlb.Basic

/-
  The lookup paths after runs of the allocator and of the
  Utopia TLBs.

  With two segments of one page size, `allocate` places pages
  in the second one and `migratePage` tries the first one
  before, and all paths look at both. An entry of a Utopia
  TLB names a segment and no application, and it stays when
  the segment loses the page.

  The functional lookup divides the physical page number by
  the page size, as if it were an address. So the paths agree
  exactly where all of them miss. The walks of all kinds
  agree on each page that is in one segment, and so does an
  entry that names the segment.

  Main declarations:
    * `Utopia.Paths.step`
    * `Utopia.Paths.pathsAgree_run_iff`
-/

------------------------------------------------------------
-- Paths And Runs
------------------------------------------------------------

namespace Virtuoso

namespace Utopia

/-
  The allocator and the Utopia TLB of each core. Of two
  segments of one page size, the first is `shadowed`: the
  indices of the allocator name the second one.
-/
structure Paths where
  allocator : Allocator
  shadowed : Option (PageSize × RestSeg)
  utlb : Nat → UtopiaTlb

namespace Paths

/- The vector `restsegs`. -/
def restSegs (s : Paths) : List RestSeg :=
  s.shadowed.toList.map Prod.snd ++
    s.allocator.order.filterMap s.allocator.restSegs

/- The first of two segments of one page size, and the rest. -/
def shadow :
    List RestSegConfig → Option RestSegConfig × List RestSegConfig
| [first, second] =>
    if first.pageSize = second.pageSize then
      (some first, [second])
    else
      (none, [first, second])
| configs => (none, configs)

/-
  `UtopiaAllocator::UtopiaAllocator` for one or two segments,
  and the Utopia TLBs.
-/
def construct
    (buddy : Buddy)
    (configs : List RestSegConfig)
    (fingerprintBits : Nat)
    (percent : Int)
    (config : CostTopKConfig)
    (numEntries associativity : Nat) :
    Option Paths :=
  (Allocator.construct buddy (shadow configs).2 fingerprintBits
    percent config).bind (fun a =>
      match (shadow configs).1 with
      | none =>
          some ⟨a, none,
            fun _ => UtopiaTlb.construct numEntries associativity⟩
      | some c =>
          (RestSeg.construct c.sizeMb c.pageSize.bits c.assoc
            c.base fingerprintBits).map (fun r =>
              ⟨a, some (c.pageSize, r),
                fun _ => UtopiaTlb.construct numEntries
                  associativity⟩))

/-
  `migratePage` with a segment in front of the one of its
  page size.
-/
def migrateShadowed
    (s : Paths)
    (size : PageSize)
    (r : RestSeg)
    (address oldPpn targetPageSizeBits app : Nat) :
    Option Nat × Paths :=
  match r.inRestSeg address app with
  | (true, r') => (none, { s with shadowed := some (size, r') })
  | (false, _) =>
      match s.allocator.isInRestSeg address app with
      | (true, a) => (none, { s with allocator := a })
      | (false, a) =>
          if size.bits = targetPageSizeBits ∧
              ¬ a.isTracked address then
            match r.allocate address app true with
            | (.failed, r') =>
                -- the loop goes on to the second segment
                let moved := a.migratePage address oldPpn
                  targetPageSizeBits app
                (moved.1,
                  { s with
                    allocator := moved.2
                    shadowed := some (size, r') })
            | (result, r') =>
                let noted :=
                  a.resetEviction.noteEviction size result
                (some ((r'.calculatePhysicalAddress address
                    app).getD invalidPpn),
                  { s with
                    allocator :=
                      { noted with
                        buddy := noted.buddy.free oldPpn oldPpn }
                    shadowed := some (size, r') })
          else
            let moved := a.migratePage address oldPpn
              targetPageSizeBits app
            (moved.1, { s with allocator := moved.2 })

/- `UtopiaAllocator::migratePage`. -/
def migratePage
    (s : Paths)
    (address oldPpn targetPageSizeBits app : Nat) :
    Option Nat × Paths :=
  match s.shadowed with
  | some (size, r) =>
      s.migrateShadowed size r address oldPpn targetPageSizeBits app
  | none =>
      let moved := s.allocator.migratePage address oldPpn
        targetPageSizeBits app
      (moved.1, { s with allocator := moved.2 })

/-
  A call of the allocator, or one that a core makes to its
  Utopia TLB: which lookups, fills and invalidations it makes
  depends on the other TLBs, so that any may come.
-/
inductive Op
  | allocate (bytes address core : Nat)
      (isPagetableAllocation : Bool)
  | migratePage (address oldPpn targetPageSizeBits app : Nat)
  | utlb (core : Nat) (call : UtlbOp)

/- The addresses of the allocator have 48 bits. -/
def Op.InRange :
    Op → Prop
| .allocate _ address _ _ => address < 2 ^ 48
| .migratePage address _ _ _ => address < 2 ^ 48
| .utlb _ _ => True

/- Perform one call. -/
def step (s : Paths) : Op → Option Paths
| .allocate bytes address core isPagetableAllocation =>
    (s.allocator.allocate bytes address core
      isPagetableAllocation).map
      (fun result => { s with allocator := result.2 })
| .migratePage address oldPpn targetPageSizeBits app =>
    some (s.migratePage address oldPpn targetPageSizeBits app).2
| .utlb core call =>
    ((s.utlb core).step call).map (fun result =>
      { s with
        utlb := Function.update s.utlb core result.2 })

/- The segments in the order of a walk. -/
def walkOrder
    (s : Paths)
    (mode : WalkMode) :
    List RestSeg :=
  match mode.firstRestSeg with
  | some 1 => s.restSegs.reverse
  | _ => s.restSegs

/-
  The answer of `MemoryManagementUnitUtopia::RestSegWalk`,
  the first of its order. The accesses of several segments do
  not read each other's.
-/
def restSegWalk
    (s : Paths)
    (mode : WalkMode)
    (address app : Nat) :
    Option (Nat × Nat) :=
  (s.walkOrder mode).findSome? (fun r =>
    r.access mode.radixLookupEnabled address app)

/-
  The answer of `functionalRSWLookup`. The page number is
  divided by the page size, although it is no address.
-/
def functionalRSWLookup
    (s : Paths)
    (address app : Nat) :
    Option (Nat × Nat) :=
  s.restSegs.findSome? (fun r =>
    if (r.inRestSeg address app).1 then
      some (r.geometry.pageSizeBits,
        (r.calculatePhysicalAddress address app).getD
          invalidPpn / 4096)
    else
      none)

/-
  The entry that a core finds in its Utopia TLB, of a 2MB or
  else of a 4KB page: the segment, the way and the page size.
-/
def utlbEntry
    (t : UtopiaTlb)
    (address : Nat) :
    Option (Nat × Nat × Nat) :=
  match t.lookup address 21 with
  | (some entry, _) => some entry
  | (none, t') => (t'.lookup address 12).1

/-
  The page size and the physical page at a hit in the Utopia
  TLB of a core, with -1 for a page that the segment of the
  entry does not have.
-/
def utlbHit
    (s : Paths)
    (core address app : Nat) :
    Option (Nat × Nat) :=
  (utlbEntry (s.utlb core) address).map (fun entry =>
    (entry.2.2,
      (s.restSegs[entry.1]?.bind (fun r =>
        r.calculatePhysicalAddress address app)).getD
          invalidPpn))

/- All paths have one answer, the Utopia TLBs if they hit. -/
def PathsAgree (s : Paths) (address app : Nat) : Prop :=
  ∃ answer,
    (∀ mode, s.restSegWalk mode address app = answer) ∧
      s.functionalRSWLookup address app = answer ∧
      ∀ core hit, s.utlbHit core address app = some hit →
        answer = some hit

/-
  No tags and no radix way table have a page, and no Utopia
  TLB has an entry for its address.
-/
structure Unknown
    (s : Paths)
    (address app : Nat) : Prop where
  tags : ∀ r ∈ s.restSegs, ¬ r.Held (r.geometry.vpn address) app
  radix : ∀ r ∈ s.restSegs,
    r.radixWayTables.way app (r.geometry.vpn address) = none
  utlb : ∀ core, utlbEntry (s.utlb core) address = none

/-
  The walks of all kinds answer with a page of a segment, and
  so do the entries that name the segment.
-/
def FoundIn
    (s : Paths)
    (i : Nat)
    (r : RestSeg)
    (address app : Nat) : Prop :=
  ∃ ppn,
    (∀ mode, s.restSegWalk mode address app =
      some (r.geometry.pageSizeBits, ppn)) ∧
    ∀ core way, utlbEntry (s.utlb core) address =
        some (i, way, r.geometry.pageSizeBits) →
      s.utlbHit core address app =
        some (r.geometry.pageSizeBits, ppn)

variable {s s' s₀ : Paths}

/- The segments are reached by operations of their own. -/
def RunsTo (s s' : Paths) : Prop :=
  ∀ r' ∈ s'.restSegs, ∃ r ∈ s.restSegs, r.RunsTo r'

theorem RunsTo.refl
    (s : Paths) :
    s.RunsTo s :=
  fun r hMem => ⟨r, hMem, RestSeg.RunsTo.refl r⟩

theorem RunsTo.trans
    {s'' : Paths}
    (hFirst : s.RunsTo s')
    (hSecond : s'.RunsTo s'') :
    s.RunsTo s'' := by
  intro r'' hMem
  rcases hSecond r'' hMem with ⟨r', hIn, hRuns'⟩
  rcases hFirst r' hIn with ⟨r, hIn', hRuns⟩
  exact ⟨r, hIn', hRuns.trans hRuns'⟩

/- The segment in front and the others run for themselves. -/
theorem runsTo_of_parts
    (hAllocator : s.allocator.RunsTo s'.allocator)
    (hShadowed : ∀ e' ∈ s'.shadowed, ∃ e ∈ s.shadowed,
      e.2.RunsTo e'.2) :
    s.RunsTo s' := by
  intro r' hMem
  rcases List.mem_append.mp hMem with hFront | hRest
  · rcases List.mem_map.mp hFront with ⟨e', hIn, hEq⟩
    rcases hShadowed e' (Option.mem_toList.mp hIn) with
      ⟨e, hOld, hRuns⟩
    exact ⟨e.2, List.mem_append_left _ (List.mem_map_of_mem
      (Option.mem_toList.mpr hOld)), hEq ▸ hRuns⟩
  · rcases List.mem_filterMap.mp hRest with
      ⟨size, hSize, hSeg⟩
    rcases hAllocator.exists_old hSeg with ⟨r, hOld, hRuns⟩
    rw [hAllocator.order] at hSize
    exact ⟨r, List.mem_append_right _
      (List.mem_filterMap.mpr ⟨size, hSize, hOld⟩), hRuns⟩

variable {r : RestSeg}

theorem runsTo_migrateShadowed
    {size : PageSize}
    {address : Nat}
    (hAddress : address < 2 ^ 48)
    (hShadowed : s.shadowed = some (size, r))
    (oldPpn target app : Nat) :
    s.RunsTo (s.migrateShadowed size r address oldPpn target
      app).2 := by
  have hFound := RestSeg.runsTo_inRestSeg hAddress r app
  have hPlaced := RestSeg.runsTo_allocate hAddress r app true
  have hSearch :=
    Allocator.runsTo_isInRestSeg hAddress s.allocator app
  -- the segment in front stays, or is replaced by its own run
  have hStays : ∀ e' ∈ s.shadowed, ∃ e ∈ s.shadowed,
      e.2.RunsTo e'.2 :=
    fun e' hMem => ⟨e', hMem, RestSeg.RunsTo.refl e'.2⟩
  have hRuns : ∀ r', r.RunsTo r' →
      ∀ e' ∈ some (size, r'), ∃ e ∈ s.shadowed,
        e.2.RunsTo e'.2 := by
    rintro r' hRun e' hMem
    cases hMem
    exact ⟨(size, r), hShadowed, hRun⟩
  unfold migrateShadowed
  generalize r.inRestSeg address app = found at hFound ⊢
  rcases found with ⟨inside, r₁⟩
  cases inside with
  | true =>
      exact runsTo_of_parts (Allocator.runsTo_of_eq rfl rfl)
        (hRuns r₁ hFound)
  | false =>
      simp only
      generalize s.allocator.isInRestSeg address app = searched
        at hSearch ⊢
      rcases searched with ⟨held, a⟩
      cases held with
      | true => exact runsTo_of_parts hSearch hStays
      | false =>
          have hMoved := hSearch.trans
            (Allocator.runsTo_migratePage hAddress a oldPpn
              target app)
          simp only
          split_ifs with hHere
          · generalize r.allocate address app true = result
              at hPlaced ⊢
            rcases result with ⟨outcome, r₂⟩
            have hBuddy : ∀ a', a'.restSegs = a.restSegs →
                a'.order = a.order →
                s.allocator.RunsTo a' :=
              fun a' hSegs hOrder => hSearch.trans
                (Allocator.runsTo_of_eq hSegs hOrder)
            cases outcome with
            | failed =>
                exact runsTo_of_parts hMoved (hRuns r₂ hPlaced)
            | placed =>
                exact runsTo_of_parts (hBuddy _ rfl rfl)
                  (hRuns r₂ hPlaced)
            | evicted victim =>
                exact runsTo_of_parts (hBuddy _ rfl rfl)
                  (hRuns r₂ hPlaced)
          · exact runsTo_of_parts hMoved hStays

/- What a call does is a run of each segment. -/
theorem runsTo_step
    {op : Op}
    (hRange : op.InRange)
    (hStep : s.step op = some s') :
    s.RunsTo s' := by
  have hStays : ∀ e' ∈ s.shadowed, ∃ e ∈ s.shadowed,
      e.2.RunsTo e'.2 :=
    fun e' hMem => ⟨e', hMem, RestSeg.RunsTo.refl e'.2⟩
  cases op with
  | allocate bytes address core isPagetableAllocation =>
      rcases Option.map_eq_some_iff.mp hStep with
        ⟨result, hAllocate, hEq⟩
      rw [← hEq]
      exact runsTo_of_parts
        (Allocator.runsTo_allocate hRange hAllocate) hStays
  | migratePage address oldPpn target app =>
      rw [step, Option.some.injEq] at hStep
      rw [← hStep]
      unfold migratePage
      split
      · rename_i size r hShadowed
        exact runsTo_migrateShadowed hRange hShadowed oldPpn
          target app
      · exact runsTo_of_parts (Allocator.runsTo_migratePage
          hRange s.allocator oldPpn target app) hStays
  | utlb core call =>
      rcases Option.map_eq_some_iff.mp hStep with
        ⟨result, _, hEq⟩
      rw [← hEq]
      exact RunsTo.refl s

theorem runsTo_run
    {ops : List Op}
    (hOps : ∀ op ∈ ops, op.InRange)
    (hRun : Run.run step s ops = some s') :
    s.RunsTo s' := by
  refine Run.run_inv (I := fun s' => s.RunsTo s')
    (C := fun _ op => op.InRange) ?_
    (RunsTo.refl s) (Run.along_of_forall_mem _ hOps) hRun
  intro s₁ op s₂ hRuns hRange hStep
  exact hRuns.trans (runsTo_step hRange hStep)

/- A segment is one of a configuration. -/
def Configured
    (fingerprintBits : Nat)
    (configs : List RestSegConfig)
    (r : RestSeg) : Prop :=
  ∃ c ∈ configs, RestSeg.construct c.sizeMb c.pageSize.bits
    c.assoc c.base fingerprintBits = some r

variable {configs : List RestSegConfig}

theorem configured_addRestSegs
    {a a' : Allocator}
    {fingerprintBits : Nat}
    (hAdd : Allocator.addRestSegs fingerprintBits configs a =
      some a')
    {size : PageSize}
    (hSeg : a'.restSegs size = some r) :
    a.restSegs size = some r ∨
      Configured fingerprintBits configs r := by
  induction configs generalizing a with
  | nil =>
      rw [Allocator.addRestSegs, Option.some.injEq] at hAdd
      exact Or.inl (hAdd ▸ hSeg)
  | cons c configs ih =>
      rcases Option.bind_eq_some_iff.mp hAdd with
        ⟨next, hFirst, hRest⟩
      rcases Option.map_eq_some_iff.mp hFirst with
        ⟨r₁, hMake, hNext⟩
      rcases ih hRest with hOld | ⟨c', hMem, hConfig⟩
      · rw [← hNext] at hOld
        by_cases hSize : size = c.pageSize
        · subst hSize
          have hEq : r₁ = r := by
            simpa [Allocator.setRestSeg] using hOld
          exact Or.inr ⟨c, List.mem_cons_self, hEq ▸ hMake⟩
        · left
          simpa [Allocator.setRestSeg, hSize] using hOld
      · exact Or.inr ⟨c', List.mem_cons_of_mem c hMem, hConfig⟩

variable {fingerprintBits numEntries associativity : Nat}

/- The segments of a new allocator are those configured. -/
theorem configured_construct
    {buddy : Buddy}
    {percent : Int}
    {config : CostTopKConfig}
    (hConstruct : construct buddy configs fingerprintBits
      percent config numEntries associativity = some s)
    (hMem : r ∈ s.restSegs) :
    Configured fingerprintBits configs r := by
  have hSub : ∀ c ∈ (shadow configs).2, c ∈ configs := by
    intro c hIn
    unfold shadow at hIn
    split at hIn
    · split_ifs at hIn
      · exact List.mem_cons_of_mem _ hIn
      · exact hIn
    · exact hIn
  have hFront : ∀ c ∈ (shadow configs).1, c ∈ configs := by
    intro c hIn
    unfold shadow at hIn
    split at hIn
    · split_ifs at hIn
      · cases hIn
        exact List.mem_cons_self
      · cases hIn
    · cases hIn
  rcases Option.bind_eq_some_iff.mp hConstruct with
    ⟨a, hAllocator, hRest⟩
  have hRight : ∀ r ∈ a.order.filterMap a.restSegs,
      Configured fingerprintBits configs r := by
    intro r' hIn
    rcases List.mem_filterMap.mp hIn with ⟨size, _, hSeg⟩
    rcases configured_addRestSegs hAllocator hSeg with
      hNone | ⟨c, hConfig, hMake⟩
    · cases hNone
    · exact ⟨c, hSub c hConfig, hMake⟩
  cases hShadow : (shadow configs).1 with
  | none =>
      rw [hShadow, Option.some.injEq] at hRest
      rw [← hRest] at hMem
      exact hRight r hMem
  | some c =>
      rw [hShadow] at hRest
      rcases Option.map_eq_some_iff.mp hRest with
        ⟨r₁, hMake, hEq⟩
      rw [← hEq] at hMem
      rcases List.mem_cons.mp hMem with hFirst | hIn
      · exact ⟨c, hFront c hShadow, hFirst ▸ hMake⟩
      · exact hRight r hIn

theorem utlb_construct
    {buddy : Buddy}
    {percent : Int}
    {config : CostTopKConfig}
    (hConstruct : construct buddy configs fingerprintBits
      percent config numEntries associativity = some s)
    (core : Nat) :
    s.utlb core = UtopiaTlb.construct numEntries associativity := by
  rcases Option.bind_eq_some_iff.mp hConstruct with
    ⟨a, _, hRest⟩
  cases hShadow : (shadow configs).1 with
  | none =>
      rw [hShadow, Option.some.injEq] at hRest
      rw [← hRest]
  | some c =>
      rw [hShadow] at hRest
      rcases Option.map_eq_some_iff.mp hRest with ⟨r, _, hEq⟩
      rw [← hEq]

------------------------------------------------------------
-- Agreement
------------------------------------------------------------

/- The answer of the functional lookup and of the tags. -/
theorem functionalRSWLookup_eq
    (s : Paths)
    (address app : Nat) :
    s.functionalRSWLookup address app =
      (s.restSegWalk ⟨false, none⟩ address app).map
        (fun hit => (hit.1, hit.2 / 4096)) := by
  unfold functionalRSWLookup restSegWalk
  change _ = (s.restSegs.findSome? (fun r =>
    r.access false address app)).map _
  rw [List.map_findSome?]
  congr 1
  funext r
  unfold RestSeg.access
  simp only [Function.comp_apply, Bool.false_eq_true, if_false]
  split_ifs with hFound
  · rfl
  · rfl

theorem mem_walkOrder_iff
    (s : Paths)
    (mode : WalkMode)
    (r : RestSeg) :
    r ∈ s.walkOrder mode ↔ r ∈ s.restSegs := by
  unfold walkOrder
  split
  · exact List.mem_reverse
  · rfl

/- A walk misses exactly if all its accesses do. -/
theorem restSegWalk_eq_none_iff
    (s : Paths)
    (mode : WalkMode)
    (address app : Nat) :
    s.restSegWalk mode address app = none ↔
      ∀ r ∈ s.restSegs,
        r.access mode.radixLookupEnabled address app = none := by
  unfold restSegWalk
  rw [List.findSome?_eq_none_iff]
  exact forall_congr' (fun r =>
    imp_congr_left (mem_walkOrder_iff s mode r))

theorem access_tags_eq_none_iff
    (r : RestSeg)
    (address app : Nat) :
    r.access false address app = none ↔
      ¬ r.Held (r.geometry.vpn address) app := by
  rw [RestSeg.access_tags, Option.map_eq_none_iff,
    ← RestSeg.calculatePhysicalAddress_isSome_iff,
    Option.not_isSome_iff_eq_none]

theorem access_radix_eq_none_iff
    (r : RestSeg)
    (address app : Nat) :
    r.access true address app = none ↔
      r.radixWayTables.way app (r.geometry.vpn address) = none :=
  Option.map_eq_none_iff

/-
  With one segment of each page size, a walk answers as that
  of the allocator does, and so does the functional lookup.
-/
theorem restSegWalk_eq_allocator
    (hAlone : s.shadowed = none)
    (hForm : s.allocator.Form)
    (hRadix : s.allocator.RadixSound)
    (mode : WalkMode)
    {address : Nat}
    (hAddress : address < 2 ^ 48)
    (app : Nat) :
    s.restSegWalk mode address app =
      (s.allocator.restSegWalk mode address app).1 := by
  have hOrder : s.walkOrder mode =
      (s.allocator.walkOrder mode).filterMap
        s.allocator.restSegs := by
    unfold walkOrder Allocator.walkOrder restSegs
    rw [hAlone]
    rcases mode.firstRestSeg with _ | _ | _ | first
    iterate 2 rfl
    · simp
    · rfl
  rw [Allocator.restSegWalk_eq hForm (fun _ => hRadix) hAddress]
  unfold restSegWalk Allocator.translationIn
  rw [hOrder, ← List.head?_filterMap, List.filterMap_filterMap,
    List.head?_filterMap]
  congr 1
  funext size
  unfold Allocator.restSegPpn
  cases hSeg : s.allocator.restSegs size with
  | none => rfl
  | some r =>
      rw [Option.bind_some, Option.bind_some,
        (hRadix size r hSeg).access_eq hAddress,
        hForm.pageSize size r hSeg]

theorem functionalRSWLookup_eq_allocator
    (hAlone : s.shadowed = none)
    (hForm : s.allocator.Form)
    (hRadix : s.allocator.RadixSound)
    {address : Nat}
    (hAddress : address < 2 ^ 48)
    (app : Nat) :
    s.functionalRSWLookup address app =
      (s.allocator.functionalRSWLookup address app).1 := by
  rw [functionalRSWLookup_eq, restSegWalk_eq_allocator hAlone
      hForm hRadix _ hAddress,
    Allocator.functionalRSWLookup_eq hForm,
    Allocator.restSegWalk_eq hForm (fun _ => hRadix) hAddress]
  rfl

/- A page of a segment is behind the base of the segment. -/
theorem calculatePhysicalAddress_pos
    (hLow : 0 < r.geometry.basePhysicalAddress)
    (hHigh : r.geometry.basePhysicalAddress < 2 ^ 53)
    {address app ppn : Nat}
    (hPpn : r.calculatePhysicalAddress address app =
      some ppn) :
    0 < ppn := by
  rcases Option.map_eq_some_iff.mp hPpn with ⟨way, _, hEq⟩
  rw [← hEq]
  unfold Geometry.calculatePPNFromWay
  simp only
  have hLess := Nat.mod_lt
    (((r.geometry.splitAddress address).2 *
      r.geometry.associativity + way) *
        2 ^ (r.geometry.pageSizeBits - 12))
    (show 0 < 2 ^ 32 by decide)
  rw [Nat.mod_eq_of_lt (by omega)]
  omega

/-
  Of segments behind the first page, the paths agree exactly
  where all of them miss.
-/
theorem pathsAgree_iff
    (hBases : ∀ r ∈ s.restSegs,
      0 < r.geometry.basePhysicalAddress ∧
        r.geometry.basePhysicalAddress < 2 ^ 53)
    (address app : Nat) :
    s.PathsAgree address app ↔ s.Unknown address app := by
  constructor
  · rintro ⟨answer, hWalks, hFunctional, hUtlb⟩
    have hNone : answer = none := by
      rw [functionalRSWLookup_eq, hWalks] at hFunctional
      cases answer with
      | none => rfl
      | some hit =>
          exfalso
          rw [Option.map_some, Option.some.injEq] at hFunctional
          have hDiv := congrArg Prod.snd hFunctional
          have hWalk := hWalks ⟨false, none⟩
          rcases List.exists_of_findSome?_eq_some hWalk with
            ⟨r, hMem, hHit⟩
          rw [RestSeg.access_tags] at hHit
          rcases Option.map_eq_some_iff.mp hHit with
            ⟨ppn, hPpn, hEq⟩
          rcases hBases r ((mem_walkOrder_iff s _ r).mp hMem) with
            ⟨hLow, hHigh⟩
          have hPos := calculatePhysicalAddress_pos hLow hHigh
            hPpn
          rw [← hEq] at hDiv
          simp only at hDiv
          omega
    subst hNone
    have hMiss := fun mode =>
      (restSegWalk_eq_none_iff s mode address app).mp (hWalks mode)
    refine ⟨?_, ?_, ?_⟩
    · exact fun r hMem => (access_tags_eq_none_iff r address
        app).mp (hMiss ⟨false, none⟩ r hMem)
    · exact fun r hMem => (access_radix_eq_none_iff r address
        app).mp (hMiss ⟨true, none⟩ r hMem)
    · intro core
      have hNone : s.utlbHit core address app = none := by
        cases hHit : s.utlbHit core address app with
        | none => rfl
        | some hit => cases hUtlb core hit hHit
      exact Option.map_eq_none_iff.mp hNone
  · rintro ⟨hTags, hRadix, hUtlb⟩
    have hMiss : ∀ mode, s.restSegWalk mode address app = none := by
      intro mode
      rw [restSegWalk_eq_none_iff]
      intro r hMem
      cases mode.radixLookupEnabled with
      | false =>
          exact (access_tags_eq_none_iff r address app).mpr
            (hTags r hMem)
      | true =>
          exact (access_radix_eq_none_iff r address app).mpr
            (hRadix r hMem)
    refine ⟨none, hMiss, ?_, ?_⟩
    · rw [functionalRSWLookup_eq, hMiss]
      rfl
    · intro core hit hHit
      unfold utlbHit at hHit
      rw [hUtlb core] at hHit
      cases hHit

/- An answer that no access contradicts is that of a walk. -/
theorem restSegWalk_of_only
    {mode : WalkMode}
    {address app : Nat}
    {hit : Nat × Nat}
    (hMem : r ∈ s.restSegs)
    (hHit : r.access mode.radixLookupEnabled address app = some hit)
    (hOnly : ∀ r' ∈ s.restSegs, ∀ hit',
      r'.access mode.radixLookupEnabled address app =
        some hit' → hit' = hit) :
    s.restSegWalk mode address app = some hit := by
  cases hWalk : s.restSegWalk mode address app with
  | none =>
      have hNone := (restSegWalk_eq_none_iff s mode address
        app).mp hWalk r hMem
      rw [hHit] at hNone
      cases hNone
  | some hit' =>
      rcases List.exists_of_findSome?_eq_some hWalk with
        ⟨r', hIn, hAnswer⟩
      rw [hOnly r' ((mem_walkOrder_iff s mode r').mp hIn) hit'
        hAnswer]

/- The walks find a page that is in one segment. -/
theorem foundIn_of_only
    (hInv : ∀ r ∈ s.restSegs, r.Inv)
    {address : Nat}
    (hAddress : address < 2 ^ 48)
    {app i : Nat}
    (hSeg : s.restSegs[i]? = some r)
    (hHeld : r.Held (r.geometry.vpn address) app)
    (hOnly : ∀ j r', s.restSegs[j]? = some r' →
      r'.Held (r'.geometry.vpn address) app → j = i) :
    s.FoundIn i r address app := by
  rcases Option.isSome_iff_exists.mp
      ((RestSeg.calculatePhysicalAddress_isSome_iff r address
        app).mpr hHeld) with ⟨ppn, hPpn⟩
  have hMem := List.mem_of_getElem? hSeg
  refine ⟨ppn, ?_, ?_⟩
  · intro mode
    apply restSegWalk_of_only hMem
    · rw [(hInv r hMem).access_eq hAddress, hPpn]
      rfl
    · intro r' hMem' hit' hHit
      rw [(hInv r' hMem').access_eq hAddress] at hHit
      rcases Option.map_eq_some_iff.mp hHit with
        ⟨ppn', hPpn', hEq⟩
      rcases List.getElem?_of_mem hMem' with ⟨j, hAt⟩
      have hHeld' := (RestSeg.calculatePhysicalAddress_isSome_iff
        r' address app).mp (by rw [hPpn']; rfl)
      rw [hOnly j r' hAt hHeld', hSeg, Option.some.injEq] at hAt
      subst hAt
      rw [hPpn, Option.some.injEq] at hPpn'
      rw [← hEq, hPpn']
  · intro core way hEntry
    unfold utlbHit
    rw [hEntry, Option.map_some, hSeg, Option.bind_some, hPpn]
    rfl

/-
  The number of sets and the ways are powers of two, the
  latter such that the leaves of the radix way table have
  room for a way.
-/
structure Suited (c : RestSegParams) : Prop where
  sets : c.numSets.isPowerOfTwo
  ways : c.assoc.isPowerOfTwo
  limit : c.assoc ≤ 2 ^ 17 ∨ c.assoc = 2 ^ 19 ∨ c.assoc = 2 ^ 23

/-
  For one or two segments and all runs: the paths agree
  exactly on the pages that no segment and no Utopia TLB
  knows. With powers of two the radix way tables know the
  pages of the tags, and all paths but the functional lookup
  agree on each page that is not in two segments.
-/
theorem pathsAgree_run_iff
    {kernelSize numCores fingerprintBits : Nat}
    {numEntries associativity : Nat}
    {params : List RestSegParams}
    {placed : List Placed}
    {m : PhysicalMemoryAllocator}
    (hPlace : placeRestSegs numCores fingerprintBits params
      (PhysicalMemoryAllocator.construct kernelSize) =
        some (placed, m))
    (hFit : 4096 + ((layoutRequests numCores params).map
      Bump.Request.bytes).sum < 2 ^ 64)
    {buddy : Buddy}
    {percent : Int}
    {config : CostTopKConfig}
    (hConstruct : construct buddy (configsOf params placed)
      fingerprintBits percent config numEntries associativity =
        some s)
    {ops : List Op}
    (hOps : ∀ op ∈ ops, op.InRange)
    (hRun : Run.run step s ops = some s')
    {address : Nat}
    (hAddress : address < 2 ^ 48)
    (app : Nat) :
    (s'.PathsAgree address app ↔ s'.Unknown address app) ∧
      ((∀ c ∈ params, Suited c) →
        (∀ r ∈ s'.restSegs,
          ¬ r.Held (r.geometry.vpn address) app →
            r.radixWayTables.way app (r.geometry.vpn address) =
              none) ∧
        ∀ i r, s'.restSegs[i]? = some r →
          r.Held (r.geometry.vpn address) app →
          (∀ j r', s'.restSegs[j]? = some r' →
            r'.Held (r'.geometry.vpn address) app → j = i) →
          s'.FoundIn i r address app) := by
  have hRuns := runsTo_run hOps hRun
  -- each segment comes from that of a parameter at its place
  have hOrigin : ∀ r' ∈ s'.restSegs, ∃ r g, ∃ c ∈ params,
      ∃ p ∈ placed, r.RunsTo r' ∧ r = RestSeg.fresh g ∧
        0 < g.numSets ∧
        g = ⟨c.pageSize.bits, c.assoc, c.numSets,
          p.restSeg.geometry.basePhysicalAddress,
          fingerprintBits⟩ := by
    intro r' hMem
    rcases hRuns r' hMem with ⟨r, hIn, hRunsTo⟩
    rcases configured_construct hConstruct hIn with
      ⟨config, hConfig, hMake⟩
    rcases List.mem_map.mp hConfig with ⟨⟨c, p⟩, hZip, hEq⟩
    subst hEq
    rcases RestSeg.construct_eq_some hMake with
      ⟨hFresh, hSets, _⟩
    rcases List.of_mem_zip hZip with ⟨hParam, hPlaced⟩
    rw [hFresh] at hSets
    exact ⟨r, _, c, hParam, p, hPlaced, hRunsTo, hFresh, hSets, rfl⟩
  have hBases : ∀ r' ∈ s'.restSegs,
      0 < r'.geometry.basePhysicalAddress ∧
        r'.geometry.basePhysicalAddress < 2 ^ 53 := by
    intro r' hMem
    rcases hOrigin r' hMem with
      ⟨r, g, c, _, p, hPlaced, hRunsTo, hFresh, _, hGeometry⟩
    have hShaped : RestSeg.Shaped g r :=
      hFresh ▸ ⟨rfl, fun _ => rfl⟩
    rw [(hRunsTo.shaped hShaped).1, hGeometry]
    exact base_of_placeRestSegs (Nat.le_refl 4096) hFit hPlace p
      hPlaced
  refine ⟨pathsAgree_iff hBases address app, ?_⟩
  intro hSuited
  have hInv : ∀ r' ∈ s'.restSegs, r'.Inv := by
    intro r' hMem
    rcases hOrigin r' hMem with
      ⟨r, g, c, hParam, p, _, hRunsTo, hFresh, hSets, hGeometry⟩
    rcases hSuited c hParam with ⟨hPower, hWays, hLimit⟩
    rcases RestSeg.fit_of_isPowerOfTwo hSets
        (hGeometry ▸ hPower) (hGeometry ▸ hWays)
        (hGeometry ▸ hLimit) with ⟨hFits, hReaches⟩
    apply hRunsTo.inv
    rw [hFresh]
    refine RestSeg.inv_fresh hFits ?_ hReaches
    rw [hGeometry]
    cases c.pageSize with
    | fourKb => exact Nat.le_refl 12
    | twoMb => exact (by decide : 12 ≤ 21)
  refine ⟨?_, ?_⟩
  · intro r hMem hAbsent
    rw [← access_radix_eq_none_iff,
      (hInv r hMem).access_eq hAddress, ← RestSeg.access_tags]
    exact (access_tags_eq_none_iff r address app).mpr hAbsent
  · intro i r hSeg hHeld hOnly
    exact foundIn_of_only hInv hAddress hSeg hHeld hOnly

/- The defaults of the migration policy, which is off. -/
def defaultCostTopK : CostTopKConfig :=
  ⟨false, 12, 10, 1, 3, 16, 2, 2, 1024, 8192, 4, 1, 32, 2⟩

/-
  With two 2MB segments and an entry of a Utopia TLB for a
  page of the second one: the paths agree on the page of
  another region, and all but one of them on that page.
-/
theorem pathsAgree_run_elsewhere :
    ∃ placed ∈ placeRestSegs 1 4
        [⟨2, .twoMb, 1⟩, ⟨2, .twoMb, 1⟩]
        (PhysicalMemoryAllocator.construct 16),
      ∃ b ∈ Buddy.construct 17 8 16,
      ∃ s ∈ construct b (configsOf
          [⟨2, .twoMb, 1⟩, ⟨2, .twoMb, 1⟩] placed.1) 4 75
          defaultCostTopK 8 2,
      ∃ s' ∈ Run.run step s [.allocate 4096 0x5000 0 false,
          .utlb 0 (.allocate 0x5000 21 1 0)],
        s'.PathsAgree 0x400000 0 ∧
          ∃ r, s'.FoundIn 1 r 0x5000 0 ∧
            utlbEntry (s'.utlb 0) 0x5000 = some (1, 0, 21) := by
  have hMeets :
      ∃ placed ∈ placeRestSegs 1 4
          [⟨2, .twoMb, 1⟩, ⟨2, .twoMb, 1⟩]
          (PhysicalMemoryAllocator.construct 16),
        ∃ b ∈ Buddy.construct 17 8 16,
        ∃ s ∈ construct b (configsOf
            [⟨2, .twoMb, 1⟩, ⟨2, .twoMb, 1⟩] placed.1) 4 75
            defaultCostTopK 8 2,
        ∃ s' ∈ Run.run step s [.allocate 4096 0x5000 0 false,
            .utlb 0 (.allocate 0x5000 21 1 0)],
          s'.restSegs.all (fun r =>
            (r.access false 0x400000 0).isNone &&
              (r.access true 0x400000 0).isNone) = true ∧
          utlbEntry (s'.utlb 0) 0x400000 = none ∧
          utlbEntry (s'.utlb 0) 0x5000 = some (1, 0, 21) ∧
          s'.restSegs.map (fun r =>
            (r.access false 0x5000 0).isSome) = [false, true] := by
    decide +kernel
  rcases hMeets with
    ⟨⟨placed, m⟩, hPlace, b, hBuddy, s, hConstruct, s', hRun,
      hMiss, hFree, hEntry, hFound⟩
  have hOps : ∀ op ∈ [Op.allocate 4096 0x5000 0 false,
      .utlb 0 (.allocate 0x5000 21 1 0)], op.InRange := by
    simp [Op.InRange]
  have hAll := fun address (hAddress : address < 2 ^ 48) =>
    pathsAgree_run_iff hPlace (by decide +kernel) hConstruct
      hOps hRun hAddress 0
  have hParams : ∀ c ∈ [(⟨2, .twoMb, 1⟩ : RestSegParams),
      ⟨2, .twoMb, 1⟩], Suited c := by
    have hOne : Suited ⟨2, .twoMb, 1⟩ :=
      ⟨⟨0, by decide⟩, ⟨0, by decide⟩, by decide⟩
    simp [hOne]
  -- no call names the TLB of another core
  have hOthers : ∀ core, core ≠ 0 →
      s'.utlb core = UtopiaTlb.construct 8 2 := by
    intro core hCore
    rw [← utlb_construct hConstruct core]
    rcases Run.run_cons_eq_some hRun with ⟨s₁, hStep₁, hRest⟩
    rcases Run.run_cons_eq_some hRest with ⟨s₂, hStep₂, hEnd⟩
    rcases Option.map_eq_some_iff.mp hStep₁ with ⟨_, _, hOne⟩
    rcases Option.map_eq_some_iff.mp hStep₂ with ⟨_, _, hTwo⟩
    rw [← Option.some.inj hEnd, ← hTwo, ← hOne]
    exact Function.update_of_ne hCore _ _
  rw [List.all_eq_true] at hMiss
  refine ⟨(placed, m), hPlace, b, hBuddy, s, hConstruct, s',
    hRun, (hAll 0x400000 (by decide)).1.mpr ⟨?_, ?_, ?_⟩, ?_⟩
  · intro r hMem
    have hBoth := hMiss r hMem
    rw [Bool.and_eq_true, Option.isNone_iff_eq_none] at hBoth
    exact (access_tags_eq_none_iff r _ _).mp hBoth.1
  · intro r hMem
    have hBoth := hMiss r hMem
    rw [Bool.and_eq_true, Option.isNone_iff_eq_none,
      Option.isNone_iff_eq_none] at hBoth
    exact (access_radix_eq_none_iff r _ _).mp hBoth.2
  · intro core
    by_cases hCore : core = 0
    · rw [hCore]
      exact hFree
    · rw [hOthers core hCore]
      decide
  · have hHeld : ∀ i r, s'.restSegs[i]? = some r →
        (r.Held (r.geometry.vpn 0x5000) 0 ↔ i = 1) := by
      intro i r hSeg
      have hAt := congrArg (fun l => l[i]?) hFound
      simp only [List.getElem?_map, hSeg, Option.map_some] at hAt
      rw [← not_iff_not, ← access_tags_eq_none_iff,
        ← Option.not_isSome_iff_eq_none]
      match i with
      | 0 =>
          have hNo : (r.access false 0x5000 0).isSome = false :=
            by simpa using hAt
          simp [hNo]
      | 1 =>
          have hYes : (r.access false 0x5000 0).isSome = true :=
            by simpa using hAt
          simp [hYes]
      | i + 2 => simp at hAt
    have hLength := congrArg List.length hFound
    rw [List.length_map] at hLength
    have hSeg : s'.restSegs[1]? = some (s'.restSegs.get
        ⟨1, by rw [hLength]; decide⟩) :=
      List.getElem?_eq_getElem _
    refine ⟨_, ((hAll 0x5000 (by decide)).2 hParams).2 1 _ hSeg
      ((hHeld 1 _ hSeg).mpr rfl) ?_, hEntry⟩
    exact fun j r' hAt hIn => (hHeld j r' hAt).mp hIn

/-
  The page of the allocation is page 512, and the functional
  lookup reports page 0.
-/
theorem pathsAgree_run_divided :
    ∃ placed ∈ placeRestSegs 1 4 [⟨2, .twoMb, 1⟩]
        (PhysicalMemoryAllocator.construct 8),
      ∃ b ∈ Buddy.construct 9 8 8,
      ∃ s ∈ construct b (configsOf [⟨2, .twoMb, 1⟩] placed.1) 4
          75 defaultCostTopK 8 2,
      ∃ s' ∈ Run.run step s [.allocate 4096 0x5000 0 false],
        ¬ s'.PathsAgree 0x5000 0 := by
  refine ⟨_, Option.get_mem ?_, _, Option.get_mem ?_,
    _, Option.get_mem ?_, _, Option.get_mem ?_, ?_⟩
  iterate 4 decide +kernel
  rintro ⟨answer, hWalks, hSame, _⟩
  have hFunctional := hWalks ⟨false, none⟩
  rw [← hSame] at hFunctional
  revert hFunctional
  decide +kernel

end Paths

end Utopia

end Virtuoso
