import Virtuoso.Utopia.Allocator.Walk

/-
  Each segment of the allocator runs as a segment of its own:
  whatever the allocator and the lookups do to a segment is a
  sequence of the segment's operations.

  What holds after every run of a segment therefore holds of
  the segments of the allocator.

  Main declarations:
    * `Utopia.Allocator.runsTo_allocate`
    * `Utopia.Allocator.RunsTo.radixSound`
-/

namespace Virtuoso

namespace Utopia

namespace RestSeg

variable {r r' r'' : RestSeg}

/- A segment is reached by operations on 48-bit addresses. -/
def RunsTo (r r' : RestSeg) : Prop :=
  ∃ ops : List Op, (∀ op ∈ ops, op.address < 2 ^ 48) ∧
    Run.run step r ops = some r'

theorem RunsTo.refl
    (r : RestSeg) :
    r.RunsTo r :=
  ⟨[], by simp, rfl⟩

theorem RunsTo.trans
    (hFirst : r.RunsTo r')
    (hSecond : r'.RunsTo r'') :
    r.RunsTo r'' := by
  rcases hFirst with ⟨ops, hAddress, hRun⟩
  rcases hSecond with ⟨ops', hAddress', hRun'⟩
  refine ⟨ops ++ ops', ?_, ?_⟩
  · intro op hMem
    rcases List.mem_append.mp hMem with hLeft | hRight
    · exact hAddress op hLeft
    · exact hAddress' op hRight
  · rw [Run.run_append_of_some ops' hRun]
    exact hRun'

theorem runsTo_step
    {op : Op}
    (hAddress : op.address < 2 ^ 48)
    (hStep : r.step op = some r') :
    r.RunsTo r' := by
  refine ⟨[op], by simpa using hAddress, ?_⟩
  rw [Run.run_cons_of_some [] hStep, Run.run_nil]

/- Runs keep the shape of a segment, and its invariant. -/
theorem RunsTo.shaped
    {g : Geometry}
    (hShaped : Shaped g r)
    (hRuns : r.RunsTo r') :
    Shaped g r' := by
  rcases hRuns with ⟨ops, _, hRun⟩
  exact Run.run_invariant
    (fun _ _ _ hBefore hStep => shaped_step hBefore hStep)
    hShaped hRun

theorem RunsTo.inv
    (hInv : r.Inv)
    (hRuns : r.RunsTo r') :
    r'.Inv := by
  rcases hRuns with ⟨ops, hAddress, hRun⟩
  rcases exists_run hInv hAddress with ⟨r₁, hRun₁, hInv₁⟩
  have hEq : r₁ = r' :=
    Option.some.inj (hRun₁.symm.trans hRun)
  exact hEq ▸ hInv₁

variable {address : Nat}

theorem runsTo_allocate
    (hAddress : address < 2 ^ 48)
    (r : RestSeg)
    (app : Nat)
    (forceEvict : Bool) :
    r.RunsTo (r.allocate address app forceEvict).2 := by
  have hStep : r.step (.allocate address app forceEvict) =
      some (r.allocate address app forceEvict).2 := rfl
  refine runsTo_step ?_ hStep
  exact hAddress

theorem runsTo_inRestSeg
    (hAddress : address < 2 ^ 48)
    (r : RestSeg)
    (app : Nat) :
    r.RunsTo (r.inRestSeg address app).2 := by
  have hStep : r.step (.inRestSeg address app) =
      some (r.inRestSeg address app).2 := rfl
  refine runsTo_step ?_ hStep
  exact hAddress

theorem runsTo_lookupWayRadix
    (hAddress : address < 2 ^ 48)
    (r : RestSeg)
    (app : Nat) :
    r.RunsTo (r.lookupWayRadix address app).2 := by
  have hStep : r.step (.lookupWayRadix address app) =
      some (r.lookupWayRadix address app).2 := rfl
  refine runsTo_step ?_ hStep
  exact hAddress

theorem runsTo_touchWayLRU
    (hAddress : address < 2 ^ 48)
    (r : RestSeg)
    (way : Nat) :
    r.RunsTo (r.touchWayLRU address way) := by
  have hStep : r.step (.touchWayLRU address way) =
      some (r.touchWayLRU address way) := rfl
  refine runsTo_step ?_ hStep
  exact hAddress

end RestSeg

namespace Allocator

variable {a a' a'' : Allocator} {address : Nat}

/- Each segment is reached by its own operations. -/
structure RunsTo (a a' : Allocator) : Prop where
  order : a'.order = a.order
  segs : ∀ size, Option.Rel RestSeg.RunsTo (a.restSegs size)
    (a'.restSegs size)

theorem runsTo_of_eq
    (hSegs : a'.restSegs = a.restSegs)
    (hOrder : a'.order = a.order) :
    a.RunsTo a' := by
  refine ⟨hOrder, fun size => ?_⟩
  rw [hSegs]
  cases a.restSegs size with
  | none => exact .none
  | some r => exact .some (RestSeg.RunsTo.refl r)

theorem RunsTo.trans
    (hFirst : a.RunsTo a')
    (hSecond : a'.RunsTo a'') :
    a.RunsTo a'' := by
  refine ⟨hSecond.order.trans hFirst.order, fun size => ?_⟩
  have hOne := hFirst.segs size
  have hTwo := hSecond.segs size
  generalize a.restSegs size = x at hOne
  generalize a'.restSegs size = y at hOne hTwo
  generalize a''.restSegs size = z at hTwo
  cases hOne with
  | none =>
      cases hTwo with
      | none => exact .none
  | some hRuns =>
      cases hTwo with
      | some hRuns' => exact .some (hRuns.trans hRuns')

/- The segment before a run of its operations. -/
theorem RunsTo.exists_old
    (hRuns : a.RunsTo a')
    {size : PageSize}
    {r' : RestSeg}
    (hSeg : a'.restSegs size = some r') :
    ∃ r, a.restSegs size = some r ∧ r.RunsTo r' := by
  have hRel := hRuns.segs size
  rw [hSeg] at hRel
  generalize a.restSegs size = x at hRel
  cases hRel with
  | some hBoth => exact ⟨_, rfl, hBoth⟩

theorem runsTo_setRestSeg
    {size : PageSize}
    {r r' : RestSeg}
    (hSeg : a.restSegs size = some r)
    (hRuns : r.RunsTo r') :
    a.RunsTo (a.setRestSeg size r') := by
  refine ⟨rfl, fun size' => ?_⟩
  by_cases hEq : size' = size
  · rw [hEq, setRestSeg_self, hSeg]
    exact .some hRuns
  · rw [setRestSeg_of_ne a r' hEq]
    exact (runsTo_of_eq rfl rfl).segs size'

theorem runsTo_isInRestSegFrom
    (hAddress : address < 2 ^ 48)
    (a : Allocator)
    (app : Nat)
    (sizes : List PageSize) :
    a.RunsTo (isInRestSegFrom address app sizes a).2 := by
  induction sizes with
  | nil => exact runsTo_of_eq rfl rfl
  | cons size sizes ih =>
      rw [isInRestSegFrom]
      cases hSeg : a.restSegs size with
      | none => exact ih
      | some r =>
          have hRuns := RestSeg.runsTo_inRestSeg hAddress r app
          simp only
          generalize r.inRestSeg address app = result at hRuns ⊢
          rcases result with ⟨found, r'⟩
          cases found with
          | true => exact runsTo_setRestSeg hSeg hRuns
          | false => exact ih

theorem runsTo_isInRestSeg
    (hAddress : address < 2 ^ 48)
    (a : Allocator)
    (app : Nat) :
    a.RunsTo (a.isInRestSeg address app).2 :=
  runsTo_isInRestSegFrom hAddress a app a.order

theorem runsTo_tryRestSeg
    (hAddress : address < 2 ^ 48)
    (a : Allocator)
    (size : PageSize)
    (core : Nat) :
    a.RunsTo (a.tryRestSeg size address core).2 := by
  unfold tryRestSeg
  cases hSeg : a.restSegs size with
  | none => exact runsTo_of_eq rfl rfl
  | some r =>
      have hRuns :=
        RestSeg.runsTo_allocate hAddress r core false
      simp only
      generalize r.allocate address core false = result at hRuns ⊢
      rcases result with ⟨result, r'⟩
      have hSet := runsTo_setRestSeg hSeg hRuns
      cases result with
      | failed => exact hSet
      | placed => exact hSet.trans (runsTo_of_eq rfl rfl)
      | evicted victim => exact hSet.trans (runsTo_of_eq rfl rfl)

/- The regions are no part of the segments. -/
theorem runsTo_tryAllocateTHP
    {result : Option (Nat × Bool)}
    (hTry : a.tryAllocateTHP address = some (result, a')) :
    a.RunsTo a' := by
  unfold tryAllocateTHP at hTry
  split at hTry
  · simp only [Option.some.injEq, Prod.mk.injEq] at hTry
    rw [← hTry.2]
    exact runsTo_of_eq rfl rfl
  · split at hTry
    · cases hTry
    · simp only [Option.some.injEq, Prod.mk.injEq] at hTry
      rw [← hTry.2]
      exact runsTo_of_eq rfl rfl
    · simp only [Option.some.injEq, Prod.mk.injEq] at hTry
      rw [← hTry.2]
      exact runsTo_of_eq rfl rfl

theorem runsTo_fromBuddy
    {bytes : Nat}
    {result : (Option Nat × PageSize) × Allocator}
    (hAllocate : a.fromBuddy bytes = some result) :
    a.RunsTo result.2 := by
  rcases Option.map_eq_some_iff.mp hAllocate with
    ⟨taken, _, hEq⟩
  rw [← hEq]
  exact runsTo_of_eq rfl rfl

theorem runsTo_allocateSmall
    (hAddress : address < 2 ^ 48)
    {bytes core : Nat}
    {result : (Option Nat × PageSize) × Allocator}
    (hAllocate : a.allocateSmall bytes address core = some result) :
    a.RunsTo result.2 := by
  have hRuns := runsTo_tryRestSeg hAddress a .fourKb core
  unfold allocateSmall at hAllocate
  generalize a.tryRestSeg .fourKb address core = tried
    at hRuns hAllocate
  rcases tried with ⟨placed, a'⟩
  cases placed with
  | true =>
      simp only [Option.some.injEq] at hAllocate
      rw [← hAllocate]
      exact hRuns
  | false =>
      simp only at hAllocate
      have hReset : a'.RunsTo (a'.resetLast false) :=
        runsTo_of_eq rfl rfl
      exact (hRuns.trans hReset).trans (runsTo_fromBuddy hAllocate)

theorem runsTo_allocate
    (hAddress : address < 2 ^ 48)
    {bytes core : Nat}
    {isPagetableAllocation : Bool}
    {result : (Option Nat × PageSize) × Allocator}
    (hAllocate : a.allocate bytes address core
      isPagetableAllocation = some result) :
    a.RunsTo result.2 := by
  unfold allocate at hAllocate
  split_ifs at hAllocate with hTable
  · exact runsTo_fromBuddy hAllocate
  · have hRuns := runsTo_tryRestSeg hAddress a .twoMb core
    generalize a.tryRestSeg .twoMb address core = tried
      at hRuns hAllocate
    rcases tried with ⟨placed, a₁⟩
    cases placed with
    | true =>
        simp only [Option.some.injEq] at hAllocate
        rw [← hAllocate]
        exact hRuns
    | false =>
        apply hRuns.trans
        cases hTry : a₁.tryAllocateTHP address with
        | none => simp [hTry] at hAllocate
        | some tried =>
            rcases tried with ⟨found, a₂⟩
            have hRegions := runsTo_tryAllocateTHP hTry
            simp only [hTry] at hAllocate
            cases found with
            | none =>
                exact hRegions.trans
                  (runsTo_allocateSmall hAddress hAllocate)
            | some frame =>
                simp only [Option.some.injEq] at hAllocate
                rw [← hAllocate]
                exact hRegions.trans (runsTo_of_eq rfl rfl)

theorem runsTo_migrateTo
    (hAddress : address < 2 ^ 48)
    {size : PageSize}
    {r : RestSeg}
    (hSeg : a.restSegs size = some r)
    (oldPpn app : Nat) :
    a.RunsTo (a.migrateTo size r address oldPpn app).2 := by
  have hRuns := RestSeg.runsTo_allocate hAddress r app true
  unfold migrateTo
  generalize r.allocate address app true = result at hRuns ⊢
  rcases result with ⟨result, r'⟩
  have hSet := runsTo_setRestSeg hSeg hRuns
  cases result with
  | failed => exact hSet
  | placed => exact hSet.trans (runsTo_of_eq rfl rfl)
  | evicted victim => exact hSet.trans (runsTo_of_eq rfl rfl)

theorem runsTo_migratePage
    (hAddress : address < 2 ^ 48)
    (a : Allocator)
    (oldPpn target app : Nat) :
    a.RunsTo (a.migratePage address oldPpn target app).2 := by
  have hRuns := runsTo_isInRestSeg hAddress a app
  unfold migratePage
  generalize a.isInRestSeg address app = found at hRuns ⊢
  rcases found with ⟨found, a'⟩
  cases found with
  | true => exact hRuns
  | false =>
      apply hRuns.trans
      simp only
      split_ifs with hTracked
      · exact runsTo_of_eq rfl rfl
      · split
        · exact runsTo_of_eq rfl rfl
        · split
          · exact runsTo_of_eq rfl rfl
          · rename_i size _ r hSeg
            have hReset : a'.RunsTo a'.resetEviction :=
              runsTo_of_eq rfl rfl
            apply hReset.trans
            apply runsTo_migrateTo hAddress
            exact hSeg

theorem runsTo_accessRestSegDispatch
    (hAddress : address < 2 ^ 48)
    (a : Allocator)
    (radix : Bool)
    (app : Nat)
    (size : PageSize) :
    a.RunsTo
      (a.accessRestSegDispatch radix address app size).2 := by
  unfold accessRestSegDispatch
  cases hSeg : a.restSegs size with
  | none => exact runsTo_of_eq rfl rfl
  | some r =>
      simp only
      split_ifs
      · have hRuns :=
          RestSeg.runsTo_lookupWayRadix hAddress r app
        unfold accessRestSegRadix
        generalize r.lookupWayRadix address app = result at hRuns ⊢
        rcases result with ⟨found, r'⟩
        cases found with
        | none => exact runsTo_setRestSeg hSeg hRuns
        | some way =>
            exact runsTo_setRestSeg hSeg (hRuns.trans
              (RestSeg.runsTo_touchWayLRU hAddress r' way))
      · have hRuns := RestSeg.runsTo_inRestSeg hAddress r app
        unfold accessRestSeg
        generalize r.inRestSeg address app = result at hRuns ⊢
        rcases result with ⟨found, r'⟩
        cases found with
        | false => exact runsTo_setRestSeg hSeg hRuns
        | true => exact runsTo_setRestSeg hSeg hRuns

theorem runsTo_restSegWalk
    (hAddress : address < 2 ^ 48)
    (a : Allocator)
    (mode : WalkMode)
    (app : Nat) :
    a.RunsTo (a.restSegWalk mode address app).2 :=
  restSegWalk_rel (fun _ => runsTo_of_eq rfl rfl)
    (fun _ _ _ hFirst hSecond => hFirst.trans hSecond)
    (fun a size => runsTo_accessRestSegDispatch hAddress a _
      app size) a

/-
  The radix way tables of a geometry name the ways: pages are
  told apart, and the entries of the leaves fit.
-/
def RadixReady (a : Allocator) : Prop :=
  ∀ size r, a.restSegs size = some r →
    RestSeg.Fit r.geometry ∧
      RadixLeaf.Reaches (wayBitsOf r.geometry.associativity)

/- In each run, the radix way tables name the ways. -/
theorem RunsTo.radixSound
    (hBuilt : a.Built)
    (hReady : a.RadixReady)
    (hRuns : a.RunsTo a') :
    a'.RadixSound := by
  intro size r' hSeg
  rcases hRuns.exists_old hSeg with ⟨r, hOld, hSegRuns⟩
  rcases hReady size r hOld with ⟨hFit, hReaches⟩
  rcases hBuilt.segs size r hOld with ⟨g, hFresh, hBits, _⟩
  subst hFresh
  apply hSegRuns.inv
  apply RestSeg.inv_fresh hFit _ hReaches
  change 12 ≤ g.pageSizeBits
  rw [hBits]
  cases size with
  | fourKb => decide
  | twoMb => decide

end Allocator

end Utopia

end Virtuoso
