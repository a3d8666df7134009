import Virtuoso.Utopia.Coalesce.Insertion

/-
  How the calls of the coalescing allocator reach its
  segments.

  A property of the segments is kept by a call if the four
  operations that calls make on segments keep it: insertions
  that may not evict, searches, the coalescing of a region
  and the insertion of a migrated page.

  Main declarations:
    * `Utopia.HashCoalesce.all_step`
    * `Utopia.HashCoalesce.all_construct`
-/

namespace Virtuoso

namespace Utopia

namespace HashCoalesce

variable {a a' : HashCoalesce}
variable {P : PageSize → RestSegCoalesce → Prop}
variable {address core app : Nat}

/- The segments have a property. -/
def All
    (P : PageSize → RestSegCoalesce → Prop)
    (a : HashCoalesce) : Prop :=
  ∀ size c, a.restSegs size = some c → P size c

theorem All.setRestSeg
    (hAll : All P a)
    {size : PageSize}
    {c : RestSegCoalesce}
    (hSeg : P size c) :
    All P (a.setRestSeg size c) := by
  intro size' c' hEq
  by_cases hSize : size' = size
  · subst hSize
    simp only [HashCoalesce.setRestSeg, Function.update_self,
      Option.some.injEq] at hEq
    exact hEq ▸ hSeg
  · simp only [HashCoalesce.setRestSeg,
      Function.update_of_ne hSize] at hEq
    exact hAll size' c' hEq

theorem restSegs_tryAllocateTHP
    {result : Option (Nat × Bool)}
    (hTry : a.tryAllocateTHP address = some (result, a')) :
    a'.restSegs = a.restSegs := by
  unfold tryAllocateTHP at hTry
  split at hTry
  · simp only [Option.some.injEq, Prod.mk.injEq] at hTry
    rw [← hTry.2]
    rfl
  · split at hTry
    · simp at hTry
    · simp only [Option.some.injEq, Prod.mk.injEq] at hTry
      rw [← hTry.2]
    · simp only [Option.some.injEq, Prod.mk.injEq] at hTry
      rw [← hTry.2]
      rfl

theorem restSegs_fromBuddy
    {bytes : Nat}
    {result : (Option Nat × PageSize) × HashCoalesce}
    (hAllocate : a.fromBuddy bytes = some result) :
    result.2.restSegs = a.restSegs := by
  rcases Option.map_eq_some_iff.mp hAllocate with
    ⟨taken, _, hEq⟩
  rw [← hEq]

theorem All.tryRestSeg
    (hKeep :
      ∀ size c, P size c → P size (c.allocate address core false).2)
    (hAll : All P a)
    (size : PageSize) :
    All P (a.tryRestSeg size address core).2 := by
  unfold HashCoalesce.tryRestSeg
  cases hSeg : a.restSegs size with
  | none => exact hAll
  | some c =>
      have hNext := hKeep size c (hAll size c hSeg)
      simp only
      generalize c.allocate address core false = result at hNext ⊢
      rcases result with ⟨outcome, c'⟩
      cases outcome with
      | failed => exact hAll.setRestSeg hNext
      | placed => exact hAll.setRestSeg hNext
      | evicted _ => exact hAll.setRestSeg hNext

theorem All.allocateSmall
    (hKeep :
      ∀ size c, P size c → P size (c.allocate address core false).2)
    (hAll : All P a)
    {bytes : Nat}
    {result : (Option Nat × PageSize) × HashCoalesce}
    (hAllocate : a.allocateSmall bytes address core = some result) :
    All P result.2 := by
  have hTried := hAll.tryRestSeg hKeep .fourKb
  unfold HashCoalesce.allocateSmall at hAllocate
  generalize a.tryRestSeg .fourKb address core = tried
    at hTried hAllocate
  rcases tried with ⟨taken, next⟩
  cases taken with
  | true =>
      rw [← Option.some.inj hAllocate]
      exact hTried
  | false =>
      intro size c hSeg
      rw [restSegs_fromBuddy hAllocate] at hSeg
      exact hTried size c hSeg

theorem All.allocateUncoalesced
    (hKeep :
      ∀ size c, P size c → P size (c.allocate address core false).2)
    (hAll : All P a)
    {bytes : Nat}
    {result : (Option Nat × PageSize) × HashCoalesce}
    (hAllocate :
      a.allocateUncoalesced bytes address core = some result) :
    All P result.2 := by
  have hTried := hAll.tryRestSeg hKeep .twoMb
  unfold HashCoalesce.allocateUncoalesced at hAllocate
  generalize a.tryRestSeg .twoMb address core = tried
    at hTried hAllocate
  rcases tried with ⟨taken, next⟩
  cases taken with
  | true =>
      rw [← Option.some.inj hAllocate]
      exact hTried
  | false =>
      simp only at hAllocate
      cases hThp : next.tryAllocateTHP address with
      | none => simp [hThp] at hAllocate
      | some reserved =>
          rcases reserved with ⟨found, after⟩
          have hAfter : All P after := by
            intro size c hSeg
            rw [restSegs_tryAllocateTHP hThp] at hSeg
            exact hTried size c hSeg
          simp only [hThp] at hAllocate
          cases found with
          | some region =>
              rw [← Option.some.inj hAllocate]
              exact hAfter
          | none => exact hAfter.allocateSmall hKeep hAllocate

theorem All.isInRestSegFrom
    (hKeep :
      ∀ size c, P size c → P size (c.inRestSeg address app).2)
    (hAll : All P a)
    (sizes : List PageSize) :
    All P (HashCoalesce.isInRestSegFrom address app sizes a).2 := by
  induction sizes with
  | nil => exact hAll
  | cons size sizes ih =>
      unfold HashCoalesce.isInRestSegFrom
      cases hSeg : a.restSegs size with
      | none => exact ih
      | some c =>
          have hNext := hKeep size c (hAll size c hSeg)
          simp only
          generalize c.inRestSeg address app = result at hNext ⊢
          rcases result with ⟨found, c'⟩
          cases found with
          | true => exact hAll.setRestSeg hNext
          | false => exact ih

/- A search that finds nothing changes nothing. -/
theorem isInRestSegFrom_of_false
    (sizes : List PageSize)
    (hFalse : (isInRestSegFrom address app sizes a).1 = false) :
    (isInRestSegFrom address app sizes a).2 = a := by
  induction sizes with
  | nil => rfl
  | cons size sizes ih =>
      unfold isInRestSegFrom at hFalse ⊢
      cases hSeg : a.restSegs size with
      | none =>
          simp only [hSeg] at hFalse
          exact ih hFalse
      | some c =>
          simp only [hSeg] at hFalse ⊢
          generalize c.inRestSeg address app = result at hFalse ⊢
          rcases result with ⟨found, c'⟩
          cases found with
          | true => exact absurd hFalse (by simp)
          | false => exact ih hFalse

/-
  The segment that a migration inserts its page into, if it
  comes so far.
-/
def migrationTarget
    (a : HashCoalesce)
    (address targetPageSizeBits app : Nat) :
    Option PageSize :=
  if (a.isInRestSeg address app).1 ∨ a.isTracked address then
    none
  else
    a.order.find? (fun size => size.bits == targetPageSizeBits)

theorem All.migratePage
    {oldPpn target : Nat}
    (hSearch :
      ∀ size c, P size c → P size (c.inRestSeg address app).2)
    (hMigrate :
      ∀ size c, a.migrationTarget address target app = some size →
        a.restSegs size = some c →
        P size (c.allocate address app true).2)
    (hAll : All P a) :
    All P (a.migratePage address oldPpn target app).2 := by
  have hSearched := hAll.isInRestSegFrom hSearch a.order
  have hSame :
      (HashCoalesce.isInRestSegFrom address app a.order
        a).1 = false →
      (HashCoalesce.isInRestSegFrom address app a.order a).2 = a :=
    isInRestSegFrom_of_false a.order
  unfold migrationTarget isInRestSeg at hMigrate
  unfold HashCoalesce.migratePage isInRestSeg
  generalize HashCoalesce.isInRestSegFrom address app a.order
    a = found at hSearched hSame hMigrate ⊢
  rcases found with ⟨inside, next⟩
  cases inside with
  | true => exact hSearched
  | false =>
      have hNext : next = a := hSame rfl
      subst hNext
      simp only
      split_ifs with hTracked
      · exact hAll
      · simp only [Bool.false_eq_true, hTracked, or_self,
          if_false] at hMigrate
        cases hFind : next.order.find? (fun size =>
            size.bits == target) with
        | none => exact hAll
        | some size =>
            simp only
            cases hSeg : next.restSegs size with
            | none => exact hAll
            | some c =>
                have hMoved := hMigrate size c hFind hSeg
                simp only [migrateTo]
                generalize c.allocate address app true = result
                  at hMoved ⊢
                rcases result with ⟨outcome, c'⟩
                cases outcome with
                | failed => exact hAll.setRestSeg hMoved
                | placed => exact hAll.setRestSeg hMoved
                | evicted _ => exact hAll.setRestSeg hMoved

theorem All.tryCoalesce
    {bytes : Nat}
    (hCoalesce :
      bytes = 4096 → ∀ c, a.restSegs .fourKb = some c →
        P .fourKb (c.coalesce address core).2)
    (hAll : All P a) :
    All P (a.tryCoalesce bytes address core).2 := by
  unfold HashCoalesce.tryCoalesce
  split_ifs with hBytes
  · cases hSeg : a.restSegs .fourKb with
    | none => exact hAll
    | some c =>
        have hNext := hCoalesce hBytes c hSeg
        simp only
        generalize c.coalesce address core = result at hNext ⊢
        rcases result with ⟨taken, c'⟩
        cases taken with
        | true => exact hAll.setRestSeg hNext
        | false => exact hAll.setRestSeg hNext
  · exact hAll

/-
  A property of the segments that the operations of a call
  keep is kept by the call.
-/
theorem all_step
    {op : Op}
    (hInsert :
      ∀ size c app, P size c →
        P size (c.allocate op.address app false).2)
    (hSearch :
      ∀ size c app, P size c →
        P size (c.inRestSeg op.address app).2)
    (hCoalesce :
      ∀ address core,
        op = .allocate 4096 address core false →
        ∀ c, a.restSegs .fourKb = some c →
          P .fourKb (c.coalesce address core).2)
    (hMigrate :
      ∀ address oldPpn target app,
        op = .migratePage address oldPpn target app →
        ∀ size c, a.migrationTarget address target app = some size →
          a.restSegs size = some c →
          P size (c.allocate address app true).2)
    (hAll : All P a)
    (hStep : a.step op = some a') :
    All P a' := by
  cases op with
  | allocate bytes address core isPagetableAllocation =>
      rcases Option.map_eq_some_iff.mp hStep with
        ⟨result, hAllocate, hEnd⟩
      rw [← hEnd]
      unfold HashCoalesce.allocate at hAllocate
      cases isPagetableAllocation with
      | true =>
          intro size c hSeg
          rw [if_pos rfl] at hAllocate
          rw [restSegs_fromBuddy hAllocate] at hSeg
          exact hAll size c hSeg
      | false =>
          simp only [Bool.false_eq_true, if_false] at hAllocate
          have hTried : All P
              (a.tryCoalesce bytes address core).2 := by
            apply hAll.tryCoalesce
            rintro rfl c hSeg
            exact hCoalesce address core rfl c hSeg
          generalize a.tryCoalesce bytes address core = tried
            at hTried hAllocate
          rcases tried with ⟨taken, next⟩
          cases taken with
          | true =>
              rw [← Option.some.inj hAllocate]
              exact hTried
          | false =>
              exact hTried.allocateUncoalesced
                (fun size c => hInsert size c core) hAllocate
  | migratePage address oldPpn target app =>
      rw [← Option.some.inj hStep]
      exact hAll.migratePage
        (fun size c => hSearch size c app)
        (hMigrate address oldPpn target app rfl)

/- A new segment of a configuration. -/
def Fresh (size : PageSize) (c : RestSegCoalesce) : Prop :=
  ∃ sizeMb assoc base fingerprintBits,
    RestSegCoalesce.construct sizeMb size.bits assoc base
      fingerprintBits = some c

theorem all_addRestSegs
    {fingerprintBits : Nat}
    {configs : List RestSegConfig}
    (hNew : ∀ config ∈ configs, ∀ c,
      RestSegCoalesce.construct config.sizeMb
          config.pageSize.bits config.assoc config.base
          fingerprintBits = some c →
        P config.pageSize c)
    (hAll : All P a)
    (hAdd : addRestSegs fingerprintBits configs a = some a') :
    All P a' := by
  induction configs generalizing a with
  | nil => exact Option.some.inj hAdd ▸ hAll
  | cons config configs ih =>
      rcases Option.bind_eq_some_iff.mp hAdd with
        ⟨next, hNext, hRest⟩
      rcases Option.map_eq_some_iff.mp hNext with
        ⟨c, hConstruct, hEq⟩
      apply ih (fun other hMem =>
        hNew other (List.mem_cons_of_mem config hMem)) _ hRest
      rw [← hEq]
      exact hAll.setRestSeg
        (hNew config List.mem_cons_self c hConstruct)

/-
  A property that the segments of the configurations have is
  one of all segments of a new allocator.
-/
theorem all_construct_of
    {buddy : Buddy}
    {configs : List RestSegConfig}
    {fingerprintBits : Nat}
    {threshold : Int}
    (hNew : ∀ config ∈ configs, ∀ c,
      RestSegCoalesce.construct config.sizeMb
          config.pageSize.bits config.assoc config.base
          fingerprintBits = some c →
        P config.pageSize c)
    (hConstruct : construct buddy configs fingerprintBits
      threshold = some a) :
    All P a :=
  all_addRestSegs hNew (fun _ _ hSeg => by simp at hSeg) hConstruct

theorem all_construct
    {buddy : Buddy}
    {configs : List RestSegConfig}
    {fingerprintBits : Nat}
    {threshold : Int}
    (hConstruct : construct buddy configs fingerprintBits
      threshold = some a) :
    All Fresh a :=
  all_construct_of (fun _ _ _ hNew => ⟨_, _, _, _, hNew⟩) hConstruct

end HashCoalesce

end Utopia

end Virtuoso
