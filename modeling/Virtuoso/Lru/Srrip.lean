import Mathlib.Data.List.Basic
import Mathlib.Data.Nat.ModEq
import Virtuoso.Lib.Run
import Virtuoso.Mplru.Basic

/-
  The sets of `cache_set_srrip.cc`.

  A way has a re-reference value. A search for a victim sweeps
  over the ways from a pointer on, for one with the greatest
  possible value, and ages all of them between two sweeps.
  All but the last attempt may be rejected, as in the set of
  `cache_set_lru.cc`. The statistics are left out, but not the
  assertion of `CacheSetInfoLRU::increment`.

  Main declarations:
    * `SrripSet.returns_run`
    * `SrripSet.takesOldest_run`
-/

------------------------------------------------------------
-- Sets And Searches
------------------------------------------------------------

namespace Virtuoso

/- The parameters of the policy. -/
structure SrripConfig where
  associativity : Nat
  rripNumbits : Nat
  numAttempts : Nat
  tlbEnabled : Bool

namespace SrripConfig

/- The value of a block that may leave, in a byte. -/
def rripMax (c : SrripConfig) : Nat :=
  (2 ^ c.rripNumbits - 1) % 2 ^ 8

/- The value of a new block, one below, in a byte. -/
def rripInsert (c : SrripConfig) : Nat :=
  (c.rripMax + (2 ^ 8 - 1)) % 2 ^ 8

end SrripConfig

/- A set, with the pointer of its search. -/
structure SrripSet where
  block : Nat → CacheBlock
  rripBits : Nat → Nat
  replacementPointer : Nat

/- What a call may ask of the cache controller. -/
abbrev Controller := Option (Nat → CacheBlock → Bool)

namespace SrripSet

/- `CacheSetSRRIP::CacheSetSRRIP`. -/
def create (c : SrripConfig) : SrripSet :=
  ⟨fun _ => CacheBlock.empty, fun _ => c.rripInsert, 0⟩

/- The value of one way is written. -/
def setBits (s : SrripSet) (way value : Nat) : SrripSet :=
  { s with rripBits := Function.update s.rripBits way value }

/- The pointer moves on, around the last way. -/
def advance (c : SrripConfig) (s : SrripSet) : SrripSet :=
  { s with
    replacementPointer :=
      (s.replacementPointer + 1) % c.associativity % 2 ^ 8 }

/- A block of the page table is kept. -/
def isKept
    (c : SrripConfig)
    (s : SrripSet)
    (way : Nat) : Bool :=
  (s.block way).isPageTableBlock && c.tlbEnabled

/- If an attempt is rejected, with a controller to ask. -/
def rejects
    (c : SrripConfig)
    (cntlr : Controller)
    (attempt : Nat)
    (s : SrripSet) : Option Bool :=
  if attempt + 1 < c.numAttempts then
    cntlr.map (fun isInLowerLevelCache =>
      isInLowerLevelCache attempt (s.block s.replacementPointer) ||
        s.isKept c s.replacementPointer)
  else
    some false

/- A block that waits for an upgrade stays. -/
def isValidReplacement (s : SrripSet) (way : Nat) : Bool :=
  (s.block way).cstate != .sharedUpgrading

/-
  The sweep over the ways, and the victim if there is one. A
  rejected way is looked at once more.
-/
def sweep
    (c : SrripConfig)
    (cntlr : Controller) :
    Nat → Nat → SrripSet → Option (Option Nat × Nat × SrripSet)
| 0, attempt, s => some (none, attempt, s)
| left + 1, attempt, s =>
    let index := s.replacementPointer
    if c.rripMax ≤ s.rripBits index then
      match s.rejects c cntlr attempt with
      | none => none
      | some true =>
          sweep c cntlr left (attempt + 1) (s.setBits index 0)
      | some false =>
          if s.isValidReplacement index then
            some (some index, attempt,
              (s.advance c).setBits index c.rripInsert)
          else none
    else
      sweep c cntlr left attempt (s.advance c)

/- Every block comes one closer to leaving. -/
def age (c : SrripConfig) (s : SrripSet) : SrripSet :=
  { s with
    rripBits := fun way =>
      if way < c.associativity ∧ s.rripBits way < c.rripMax then
        s.rripBits way + 1
      else s.rripBits way }

/- The sweeps that are left. The error is after the last. -/
def search
    (c : SrripConfig)
    (cntlr : Controller) :
    Nat → Nat → SrripSet → Option (Nat × SrripSet)
| 0, _, _ => none
| left + 1, attempt, s =>
    match s.sweep c cntlr c.associativity attempt with
    | none => none
    | some (some index, _, s') => some (index, s')
    | some (none, attempt', s') =>
        search c cntlr left attempt' (s'.age c)

/- The first way without a block. -/
def findInvalid
    (c : SrripConfig)
    (s : SrripSet) : Option Nat :=
  (List.range c.associativity).find?
    (fun way => !(s.block way).isValid)

/- An invalid way is taken before a search begins. -/
def getReplacementIndex
    (c : SrripConfig)
    (s : SrripSet)
    (cntlr : Controller) : Option (Nat × SrripSet) :=
  match s.findInvalid c with
  | some way =>
      some (way, s.setBits way
        (if s.isKept c way then 0 else c.rripInsert))
  | none => s.search c cntlr (c.rripMax + 1) 0

/- The value counts the accesses to a position. -/
def updateReplacementIndex
    (c : SrripConfig)
    (s : SrripSet)
    (accessed : Nat) : Option SrripSet :=
  if accessed < c.associativity ∧
      s.rripBits accessed < c.associativity then
    some (s.setBits accessed
      (if s.isKept c accessed then 0
      else s.rripBits accessed - 1))
  else
    none

/- The calls of the cache. -/
inductive Call where
| getReplacementIndex (block : Nat → CacheBlock)
    (cntlr : Controller)
| updateReplacementIndex (block : Nat → CacheBlock)
    (accessed : Nat)

/- A call is made with the blocks that the set holds by then. -/
def step
    (c : SrripConfig)
    (s : SrripSet) : Call → Option SrripSet
| .getReplacementIndex block cntlr =>
    ({ s with block := block }.getReplacementIndex c
      cntlr).map Prod.snd
| .updateReplacementIndex block accessed =>
    { s with block := block }.updateReplacementIndex c accessed

variable {c : SrripConfig} {cntlr : Controller}
variable {s : SrripSet} {attempt left : Nat}

/- How many of the ways from a pointer on are below `bound`. -/
def young
    (c : SrripConfig)
    (bits : Nat → Nat)
    (bound pointer count : Nat) : Nat :=
  (List.range count).countP (fun i =>
    decide (bits ((pointer + i) % c.associativity) < bound))

theorem young_succ
    (c : SrripConfig)
    (bits : Nat → Nat)
    (bound pointer count : Nat) :
    young c bits bound pointer (count + 1) =
      young c bits bound ((pointer + 1) % c.associativity) count +
      if bits (pointer % c.associativity) < bound then 1
      else 0 := by
  rw [young, List.range_succ_eq_map, List.countP_cons,
    List.countP_map, young]
  simp only [Function.comp_def, Nat.mod_add_mod,
    Nat.add_right_comm, Nat.add_assoc, Nat.add_zero,
    decide_eq_true_eq, Nat.succ_eq_add_one]

theorem young_update
    (bits : Nat → Nat)
    (bound pointer way value : Nat)
    {count : Nat}
    (hCount : count ≤ c.associativity) :
    young c (Function.update bits way value) bound pointer
        count ≤ young c bits bound pointer count + 1 := by
  induction count with
  | zero => simp [young]
  | succ count ih =>
      have hLast : ∀ bits, young c bits bound pointer
          (count + 1) = young c bits bound pointer count +
            if bits ((pointer + count) % c.associativity) <
              bound then 1 else 0 := by
        intro bits
        simp [young, List.range_succ]
      rw [hLast, hLast]
      by_cases hEq : (pointer + count) % c.associativity = way
      · -- the ways before are other ones
        have hSame : young c (Function.update bits way value)
            bound pointer count =
            young c bits bound pointer count := by
          refine List.countP_congr fun i hMem => ?_
          have hLt := List.mem_range.mp hMem
          have hNe : (pointer + i) % c.associativity ≠ way := by
            intro hWay
            have hMod := Nat.ModEq.add_left_cancel' pointer
              (hWay.trans hEq.symm)
            exact hLt.ne (Nat.ModEq.eq_of_lt_of_lt hMod
              (hLt.trans_le (Nat.le_of_succ_le hCount)) hCount)
          simp [hNe]
        rw [hSame]
        split_ifs <;> omega
      · rw [Function.update_of_ne hEq]
        have hRest := ih (Nat.le_of_succ_le hCount)
        omega

/- The values are counted within the ways, and there are more
   ways than two for each attempt but the last. -/
structure Fits (c : SrripConfig) : Prop where
  numbits : 1 ≤ c.rripNumbits
  values : 2 ^ c.rripNumbits ≤ c.associativity
  ways : c.associativity ≤ 2 ^ 8
  attempts : 2 * (c.numAttempts - 1) < c.associativity

theorem Fits.values_eq
    (hFits : Fits c) :
    1 ≤ c.rripMax ∧ c.rripMax < c.associativity ∧
      c.rripInsert = c.rripMax - 1 := by
  have hTwo : 2 ^ 1 ≤ 2 ^ c.rripNumbits :=
    Nat.pow_le_pow_right (by decide) hFits.numbits
  have hLe := hFits.values.trans hFits.ways
  have hMax : c.rripMax = 2 ^ c.rripNumbits - 1 :=
    Nat.mod_eq_of_lt (by omega)
  have hValues := hFits.values
  have hInsert : c.rripInsert =
      (c.rripMax + (2 ^ 8 - 1)) % 2 ^ 8 := rfl
  omega

/- What every call keeps. -/
structure Bounded
    (c : SrripConfig)
    (s : SrripSet) : Prop where
  bits : ∀ way, s.rripBits way ≤ c.rripMax
  pointer : s.replacementPointer < c.associativity

/- A search may take every way, and has a controller to ask. -/
structure Serves
    (c : SrripConfig)
    (cntlr : Controller)
    (s : SrripSet) : Prop where
  valid : ∀ way < c.associativity, s.isValidReplacement way
  controller : cntlr = none → c.numAttempts ≤ 1

theorem Bounded.setBits
    {value : Nat}
    (hBounded : Bounded c s)
    (way : Nat)
    (hValue : value ≤ c.rripMax) :
    Bounded c (s.setBits way value) := by
  refine ⟨fun other => ?_, hBounded.pointer⟩
  by_cases hEq : other = way
  · simpa [SrripSet.setBits, hEq] using hValue
  · simpa [SrripSet.setBits, hEq] using hBounded.bits other

theorem Bounded.advance
    (hFits : Fits c)
    (hBounded : Bounded c s) :
    Bounded c (s.advance c) ∧ (s.advance c).replacementPointer =
      (s.replacementPointer + 1) % c.associativity := by
  have hLt := Nat.mod_lt (s.replacementPointer + 1)
    (Nat.zero_lt_of_lt hBounded.pointer)
  have hEq : (s.advance c).replacementPointer =
      (s.replacementPointer + 1) % c.associativity :=
    Nat.mod_eq_of_lt (hLt.trans_le hFits.ways)
  exact ⟨⟨hBounded.bits, hEq ▸ hLt⟩, hEq⟩

theorem Bounded.age
    (hBounded : Bounded c s) :
    Bounded c (s.age c) := by
  refine ⟨fun way => ?_, hBounded.pointer⟩
  have hLe := hBounded.bits way
  simp only [SrripSet.age]
  split_ifs <;> omega

/-
  A sweep takes a way, or it has seen few old ones: each of
  the ways it saw was young, or was rejected and seen twice.
-/
theorem sweep_spec
    (hFits : Fits c)
    (hBounded : Bounded c s)
    (hServes : Serves c cntlr s)
    (hAttempt : attempt ≤ c.numAttempts - 1)
    (hLeft : left ≤ c.associativity) :
    ∃ found attempt' s',
      s.sweep c cntlr left attempt = some (found, attempt', s') ∧
      Bounded c s' ∧ Serves c cntlr s' ∧
      (∀ index, found = some index → index < c.associativity) ∧
      (found = none → attempt' ≤ c.numAttempts - 1 ∧
        (∀ bound pointer,
          young c s'.rripBits bound pointer c.associativity +
              attempt ≤
            young c s.rripBits bound pointer c.associativity +
              attempt') ∧
        left ≤ young c s.rripBits c.rripMax
            s.replacementPointer left +
          2 * (c.numAttempts - 1 - attempt)) := by
  have hValues := hFits.values_eq
  induction left generalizing s attempt with
  | zero =>
      refine ⟨none, attempt, s, rfl, hBounded, hServes, by simp,
        fun _ => ⟨hAttempt, fun _ _ => le_rfl, Nat.zero_le _⟩⟩
  | succ left ih =>
      have hIndex : s.replacementPointer % c.associativity =
          s.replacementPointer :=
        Nat.mod_eq_of_lt hBounded.pointer
      simp only [sweep]
      by_cases hOld : c.rripMax ≤ s.rripBits s.replacementPointer
      · rw [if_pos hOld]
        cases hRejects : s.rejects c cntlr attempt with
        | none =>
            rw [rejects] at hRejects
            split_ifs at hRejects with hAsks
            have hFew := hServes.controller
              (Option.map_eq_none_iff.mp hRejects)
            omega
        | some rejected =>
            cases rejected with
            | false =>
                have hValid := hServes.valid _ hBounded.pointer
                dsimp only
                rw [if_pos hValid]
                refine ⟨_, _, _, rfl, ?_, ?_, ?_, by simp⟩
                · exact (hBounded.advance hFits).1.setBits _
                    (by omega)
                · exact ⟨hServes.valid, hServes.controller⟩
                · intro index hEq
                  exact Option.some.inj hEq ▸ hBounded.pointer
            | true =>
                have hMore : attempt + 1 ≤ c.numAttempts - 1 := by
                  by_contra hLast
                  rw [rejects, if_neg (by omega)] at hRejects
                  simp at hRejects
                rcases ih (hBounded.setBits
                    s.replacementPointer (Nat.zero_le _))
                    ⟨hServes.valid, hServes.controller⟩ hMore
                    (Nat.le_of_succ_le hLeft) with
                  ⟨found, attempt', s', hSweep, hBounded',
                    hServes', hFound, hNone⟩
                refine ⟨found, attempt', s', hSweep, hBounded',
                  hServes', hFound, fun h => ?_⟩
                rcases hNone h with ⟨hLast, hYoung, hSeen⟩
                refine ⟨hLast, fun bound pointer => ?_, ?_⟩
                · have hThis := hYoung bound pointer
                  have hOne := young_update (c := c) s.rripBits
                    bound pointer s.replacementPointer 0
                    (le_refl _)
                  simp only [SrripSet.setBits] at hThis
                  omega
                · have hOne := young_update s.rripBits c.rripMax
                    s.replacementPointer s.replacementPointer 0
                    (Nat.le_of_succ_le hLeft)
                  have hLonger : young c s.rripBits c.rripMax
                      s.replacementPointer left ≤
                      young c s.rripBits c.rripMax
                        s.replacementPointer (left + 1) := by
                    simp [young, List.range_succ]
                  simp only [SrripSet.setBits] at hSeen
                  omega
      · rw [if_neg hOld]
        rcases hBounded.advance hFits with ⟨hNext, hPointer⟩
        rcases ih hNext ⟨hServes.valid, hServes.controller⟩
            hAttempt (Nat.le_of_succ_le hLeft) with
          ⟨found, attempt', s', hSweep, hBounded', hServes',
            hFound, hNone⟩
        refine ⟨found, attempt', s', hSweep, hBounded', hServes',
          hFound, fun h => ?_⟩
        rcases hNone h with ⟨hLast, hYoung, hSeen⟩
        refine ⟨hLast, hYoung, ?_⟩
        rw [hPointer] at hSeen
        have hYes : s.rripBits s.replacementPointer <
            c.rripMax := not_le.mp hOld
        have hFirst := young_succ c s.rripBits c.rripMax
          s.replacementPointer left
        rw [hIndex, if_pos hYes] at hFirst
        rw [hFirst]
        exact Nat.succ_le_of_lt (Nat.lt_of_le_of_lt hSeen
          (by simp only [SrripSet.advance]; omega))

/-
  After `round` agings at most as many ways as were rejected
  have a value below `round`.
-/
theorem search_spec
    (round : Nat)
    (hFits : Fits c)
    (hBounded : Bounded c s)
    (hServes : Serves c cntlr s)
    (hAttempt : attempt ≤ c.numAttempts - 1)
    (hRound : round + left = c.rripMax)
    (hYoung : ∀ pointer,
      young c s.rripBits round pointer c.associativity ≤ attempt) :
    ∃ index s', s.search c cntlr (left + 1) attempt =
        some (index, s') ∧
      index < c.associativity ∧ Bounded c s' := by
  have hMany := hFits.attempts
  induction left generalizing s attempt round with
  | zero =>
      rcases sweep_spec hFits hBounded hServes hAttempt
          (le_refl _) with
        ⟨found, attempt', s', hSweep, hBounded', -, hFound, hNone⟩
      cases found with
      | some index =>
          exact ⟨index, s', by simp [search, hSweep],
            hFound index rfl, hBounded'⟩
      | none =>
          have hSeen := (hNone rfl).2.2
          have hFew := hYoung s.replacementPointer
          rw [Nat.add_zero] at hRound
          rw [hRound] at hFew
          omega
  | succ left ih =>
      rcases sweep_spec hFits hBounded hServes hAttempt
          (le_refl _) with
        ⟨found, attempt', s', hSweep, hBounded', hServes',
          hFound, hNone⟩
      cases found with
      | some index =>
          exact ⟨index, s', by rw [search, hSweep],
            hFound index rfl, hBounded'⟩
      | none =>
          rcases hNone rfl with ⟨hLast, hCount, -⟩
          have hAged : ∀ pointer, young c (s'.age c).rripBits
              (round + 1) pointer c.associativity ≤
              attempt' := by
            intro pointer
            have hBefore := hCount round pointer
            have hFew := hYoung pointer
            have hLe : young c (s'.age c).rripBits (round + 1)
                pointer c.associativity ≤
                young c s'.rripBits round pointer
                  c.associativity := by
              refine List.countP_mono_left fun i _ hLt => ?_
              have hIn := Nat.mod_lt (pointer + i)
                (Nat.zero_lt_of_lt hBounded.pointer)
              simp only [SrripSet.age, hIn, true_and,
                decide_eq_true_eq] at hLt ⊢
              split_ifs at hLt <;> omega
            omega
          rw [search, hSweep]
          exact ih (round + 1) hBounded'.age
            ⟨hServes'.valid, hServes'.controller⟩ hLast
            (by omega) hAged

theorem getReplacementIndex_spec
    (hFits : Fits c)
    (hBounded : Bounded c s)
    (hServes : Serves c cntlr s) :
    ∃ index s', s.getReplacementIndex c cntlr = some (index, s') ∧
      index < c.associativity ∧ Bounded c s' := by
  unfold getReplacementIndex
  split
  · rename_i way hFree
    refine ⟨_, _, rfl,
      List.mem_range.mp (List.mem_of_find?_eq_some hFree), ?_⟩
    apply hBounded.setBits
    have := hFits.values_eq
    split_ifs <;> omega
  · exact search_spec 0 hFits hBounded hServes
      (Nat.zero_le _) (Nat.zero_add _)
      (fun pointer => by simp [young])

------------------------------------------------------------
-- Runs And Victims
------------------------------------------------------------

/- The blocks can be replaced, and the way is one of the set. -/
def Permits (c : SrripConfig) (s : SrripSet) : Call → Prop
| .getReplacementIndex block cntlr =>
    Serves c cntlr { s with block := block }
| .updateReplacementIndex _ accessed =>
    accessed < c.associativity

theorem exists_step
    (hFits : Fits c)
    (hBounded : Bounded c s)
    {call : Call}
    (hPermits : Permits c s call) :
    ∃ s', step c s call = some s' ∧ Bounded c s' := by
  cases call with
  | getReplacementIndex block cntlr =>
      rcases getReplacementIndex_spec hFits
          (s := { s with block := block })
          ⟨hBounded.bits, hBounded.pointer⟩ hPermits with
        ⟨index, s', hGet, -, hNext⟩
      exact ⟨s', by simp [step, hGet], hNext⟩
  | updateReplacementIndex block accessed =>
      have hLe := hBounded.bits accessed
      have hValues := hFits.values_eq
      refine ⟨_, if_pos ⟨hPermits, by dsimp only; omega⟩, ?_⟩
      refine Bounded.setBits
        (s := { s with block := block })
        ⟨hBounded.bits, hBounded.pointer⟩ _ ?_
      dsimp only
      split_ifs <;> omega

theorem exists_bounded
    (hFits : Fits c)
    (calls : List Call)
    (hAlong : Run.Along (step c) (Permits c) (create c) calls) :
    ∃ s, Run.run (step c) (create c) calls = some s ∧
      Bounded c s := by
  have hValues := hFits.values_eq
  exact Run.run_total
    (fun _ _ hBounded hPermits =>
      exists_step hFits hBounded hPermits)
    (create c) calls
    ⟨fun _ => by simp only [create]; omega,
      Nat.zero_lt_of_lt hValues.2.1⟩ hAlong

/-
  No run of permitted calls ends in the error of a search: all
  of its calls return, and so does a further search.
-/
theorem returns_run
    (hFits : Fits c)
    (calls : List Call)
    (hAlong : Run.Along (step c) (Permits c) (create c) calls) :
    ∃ s, Run.run (step c) (create c) calls = some s ∧
      ∀ block cntlr, Serves c cntlr { s with block := block } →
        ∃ index s', { s with block := block
            }.getReplacementIndex c cntlr = some (index, s') ∧
          index < c.associativity := by
  rcases exists_bounded hFits calls hAlong with
    ⟨s, hRun, hBounded⟩
  refine ⟨s, hRun, fun block cntlr hServes => ?_⟩
  rcases getReplacementIndex_spec hFits
      (s := { s with block := block })
      ⟨hBounded.bits, hBounded.pointer⟩ hServes with
    ⟨index, s', hGet, hLt, -⟩
  exact ⟨index, s', hGet, hLt⟩

/- The block of every way is one of data. -/
def filled (_ : Nat) : CacheBlock :=
  ⟨0, .shared, .data⟩

/- Two of three attempts are rejected. -/
theorem returns_run_threeAttempts :
    ∃ s, Run.run (step ⟨8, 2, 3, false⟩)
      (create ⟨8, 2, 3, false⟩)
      [.getReplacementIndex filled
        (some fun _ _ => true)] = some s := by
  rcases returns_run (c := ⟨8, 2, 3, false⟩)
      ⟨by decide, by decide, by decide, by decide⟩
      [.getReplacementIndex filled (some fun _ _ => true)]
      ⟨⟨fun _ _ => rfl, nofun⟩, fun _ _ => trivial⟩ with
    ⟨s, hRun, -⟩
  exact ⟨s, hRun⟩

/-
  The victim is the first of the oldest ways from the pointer
  on. All ways have aged as it had to, and it is renewed.
-/
structure TakesOldest
    (c : SrripConfig)
    (s : SrripSet)
    (index : Nat)
    (s' : SrripSet) : Prop where
  oldest : ∀ way < c.associativity,
    s.rripBits way ≤ s.rripBits index
  first : ∃ k < c.associativity,
    index = (s.replacementPointer + k) % c.associativity ∧
      ∀ i < k, s.rripBits
          ((s.replacementPointer + i) % c.associativity) <
        s.rripBits index
  aged : ∀ way < c.associativity, s'.rripBits way =
    if way = index then c.rripInsert
    else s.rripBits way + (c.rripMax - s.rripBits index)
  pointer : s'.replacementPointer = (index + 1) % c.associativity

/- A sweep that cannot be rejected stops at the first way with
   the greatest value. -/
theorem sweep_single
    {found : Option Nat}
    {attempt' : Nat}
    {s' : SrripSet}
    (hFits : Fits c)
    (hSingle : c.numAttempts ≤ 1)
    (hBounded : Bounded c s)
    (hSweep : s.sweep c cntlr left attempt =
      some (found, attempt', s')) :
    (found = none ∧ s'.rripBits = s.rripBits ∧
        s'.replacementPointer =
          (s.replacementPointer + left) % c.associativity ∧
        ∀ i < left, s.rripBits
            ((s.replacementPointer + i) % c.associativity) <
          c.rripMax) ∨
      ∃ k < left, ∃ index, found = some index ∧
        index = (s.replacementPointer + k) % c.associativity ∧
        c.rripMax ≤ s.rripBits index ∧
        s'.rripBits =
          Function.update s.rripBits index c.rripInsert ∧
        s'.replacementPointer = (index + 1) % c.associativity ∧
        ∀ i < k, s.rripBits
            ((s.replacementPointer + i) % c.associativity) <
          c.rripMax := by
  have hHere : s.replacementPointer % c.associativity =
      s.replacementPointer := Nat.mod_eq_of_lt hBounded.pointer
  induction left generalizing s with
  | zero =>
      cases hSweep
      exact .inl ⟨rfl, rfl, hHere.symm, by simp⟩
  | succ left ih =>
      rcases hBounded.advance hFits with ⟨hNext, hPointer⟩
      simp only [sweep] at hSweep
      by_cases hOld : c.rripMax ≤ s.rripBits s.replacementPointer
      · have hRejects : s.rejects c cntlr attempt = some false :=
          if_neg (by omega)
        rw [if_pos hOld, hRejects] at hSweep
        dsimp only at hSweep
        split_ifs at hSweep
        cases hSweep
        exact .inr ⟨0, Nat.succ_pos left, _, rfl, hHere.symm,
          hOld, rfl, hPointer, by simp⟩
      · rw [if_neg hOld] at hSweep
        have hLater : ∀ i, ((s.advance c).replacementPointer +
            i) % c.associativity =
            (s.replacementPointer + (i + 1)) % c.associativity := by
          intro i
          rw [hPointer, Nat.mod_add_mod]
          congr 1
          omega
        have hAll : ∀ n, (∀ i < n, s.rripBits
              (((s.advance c).replacementPointer + i) %
                c.associativity) < c.rripMax) →
            ∀ i < n + 1, s.rripBits ((s.replacementPointer + i) %
              c.associativity) < c.rripMax := by
          intro n hBelow i hI
          cases i with
          | zero => simpa [hHere] using hOld
          | succ i => exact hLater i ▸ hBelow i (by omega)
        rcases ih hNext hSweep (Nat.mod_eq_of_lt hNext.pointer) with
          ⟨hNone, hBits, hEnd, hBelow⟩ |
          ⟨k, hK, index, hFound, hIndex, hAt, hBits, hEnd, hBelow⟩
        · exact .inl ⟨hNone, hBits, hEnd.trans (hLater left),
            hAll left hBelow⟩
        · exact .inr ⟨k + 1, Nat.succ_lt_succ hK, index, hFound,
            hIndex.trans (hLater k), hAt, hBits, hEnd,
            hAll k hBelow⟩

theorem takesOldest_of_search
    {index : Nat}
    {s' : SrripSet}
    (hFits : Fits c)
    (hSingle : c.numAttempts ≤ 1)
    (hBounded : Bounded c s)
    (hSearch : s.search c cntlr left attempt = some (index, s')) :
    TakesOldest c s index s' := by
  induction left generalizing s attempt with
  | zero => cases hSearch
  | succ left ih =>
      rw [search] at hSearch
      cases hSweep : s.sweep c cntlr c.associativity attempt with
      | none =>
          rw [hSweep] at hSearch
          cases hSearch
      | some r =>
          rcases r with ⟨found, attempt', t⟩
          rw [hSweep] at hSearch
          rcases sweep_single hFits hSingle hBounded hSweep with
            ⟨hNone, hBits, hEnd, hBelow⟩ |
            ⟨k, hK, i, hFound, hIndex, hAt, hBits, hEnd, hBelow⟩
          · -- all ways are younger, and age by one
            subst hNone
            have hPointer : t.replacementPointer =
                s.replacementPointer := by
              rw [hEnd, Nat.add_mod_right,
                Nat.mod_eq_of_lt hBounded.pointer]
            have hAge : ∀ way < c.associativity,
                (t.age c).rripBits way = s.rripBits way + 1 ∧
                  s.rripBits way < c.rripMax := by
              intro way hWay
              have hP := hBounded.pointer
              have hLess : s.rripBits way < c.rripMax := by
                by_cases hLe : s.replacementPointer ≤ way
                · have := hBelow (way - s.replacementPointer)
                    (by omega)
                  rwa [Nat.add_sub_cancel' hLe,
                    Nat.mod_eq_of_lt hWay] at this
                · have := hBelow (way + c.associativity -
                    s.replacementPointer) (by omega)
                  rwa [Nat.add_sub_cancel' (by omega),
                    Nat.add_mod_right,
                    Nat.mod_eq_of_lt hWay] at this
              simp [SrripSet.age, hBits, hWay, hLess]
            have hOf := ih (s := t.age c) (Bounded.age
              ⟨fun way => hBits ▸ hBounded.bits way,
                hPointer ▸ hBounded.pointer⟩) hSearch
            rcases hOf.first with ⟨k, hK, hIndex, hFirst⟩
            have hIn : index < c.associativity :=
              hIndex ▸ Nat.mod_lt _
                (Nat.zero_lt_of_lt hBounded.pointer)
            have hAt := hAge index hIn
            refine ⟨fun way hWay => ?_, ⟨k, hK, ?_, fun i hI =>
              ?_⟩, fun way hWay => ?_, hOf.pointer⟩
            · have := hOf.oldest way hWay
              have := hAge way hWay
              omega
            · rw [hIndex]
              exact congrArg (fun p => (p + k) %
                c.associativity) hPointer
            · have hLt := hFirst i hI
              have hWay := hAge
                ((s.replacementPointer + i) % c.associativity)
                (Nat.mod_lt _ (Nat.zero_lt_of_lt hBounded.pointer))
              rw [show (t.age c).replacementPointer =
                s.replacementPointer from hPointer] at hLt
              omega
            · have := hAge way hWay
              rw [hOf.aged way hWay]
              split_ifs <;> omega
          · subst hFound
            cases hSearch
            have hGreatest := hBounded.bits index
            refine ⟨fun way _ => (hBounded.bits way).trans hAt,
              ⟨k, hK, hIndex, fun j hJ =>
                (hBelow j hJ).trans_le hAt⟩,
              fun way _ => ?_, hEnd⟩
            rw [hBits, Function.update_apply]
            split_ifs <;> omega

/-
  After any run, a full set with a single attempt gives up the
  first of its oldest ways.
-/
theorem takesOldest_run
    (hFits : Fits c)
    (hSingle : c.numAttempts ≤ 1)
    (calls : List Call)
    (hAlong : Run.Along (step c) (Permits c) (create c) calls)
    (hRun : Run.run (step c) (create c) calls = some s)
    (block : Nat → CacheBlock)
    (hFull : { s with block := block }.findInvalid c = none)
    (hServes : Serves c cntlr { s with block := block }) :
    ∃ index s', { s with block := block
        }.getReplacementIndex c cntlr = some (index, s') ∧
      TakesOldest c s index s' := by
  rcases exists_bounded hFits calls hAlong with
    ⟨s₁, hRun', hBounded⟩
  rw [hRun, Option.some.injEq] at hRun'
  subst hRun'
  rcases getReplacementIndex_spec hFits
      (s := { s with block := block })
      ⟨hBounded.bits, hBounded.pointer⟩ hServes with
    ⟨index, s', hGet, -, -⟩
  refine ⟨index, s', hGet, ?_⟩
  rw [getReplacementIndex, hFull] at hGet
  have hOf := takesOldest_of_search hFits hSingle
    (s := { s with block := block })
    ⟨hBounded.bits, hBounded.pointer⟩ hGet
  exact ⟨hOf.oldest, hOf.first, hOf.aged, hOf.pointer⟩

/- The way that was accessed is the youngest. -/
theorem takesOldest_run_accessed :
    ∃ s ∈ Run.run (step ⟨4, 2, 1, false⟩)
        (create ⟨4, 2, 1, false⟩)
        [.updateReplacementIndex filled 0],
      ∃ index s', { s with block := filled
          }.getReplacementIndex ⟨4, 2, 1, false⟩ none =
            some (index, s') ∧
        TakesOldest ⟨4, 2, 1, false⟩ s index s' :=
  ⟨_, rfl, takesOldest_run (c := ⟨4, 2, 1, false⟩)
    ⟨by decide, by decide, by decide, by decide⟩ (by decide)
    [.updateReplacementIndex filled 0]
    ⟨Nat.zero_lt_succ 3, fun _ _ => trivial⟩ rfl filled rfl
    ⟨fun _ _ => rfl, fun _ => Nat.le_refl 1⟩⟩

end SrripSet

end Virtuoso
