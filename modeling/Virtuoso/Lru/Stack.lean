import Mathlib.Data.List.Nodup
import Mathlib.Data.List.Perm.Subperm
import Virtuoso.Lru.Basic
import Virtuoso.Mplru.Order
import Virtuoso.Tlb.Contents

/-
  The bytes of the ways of a set as a stack. All policies
  change them by touching one way after the other, and a
  touch moves a way to the front of the stack. The lists of
  bytes that the TLBs keep are those of such sets.

  Main declarations:
    * `Lru.touch_bumped`
    * `Lru.keepsStack`
    * `LruSet.getReplacementIndex_eq_lru`
-/

namespace Virtuoso

namespace Lru

/- The bytes of the ways are each position once. -/
def IsStack (ways : Nat) (bits : Nat → Nat) : Prop :=
  ((List.range ways).map bits).Perm (List.range ways)

/- One way comes to the front, and the others keep order. -/
structure Touch
    (ways : Nat)
    (bits : Nat → Nat)
    (way : Nat)
    (bits' : Nat → Nat) : Prop where
  isStack : IsStack ways bits'
  front : bits' way = 0
  order : ∀ i < ways, ∀ j < ways, i ≠ way → j ≠ way →
    (bits' i < bits' j ↔ bits i < bits j)

/- Touches in turn, the last of them of the given way. -/
inductive Touches
    (ways : Nat) :
    (Nat → Nat) → Nat → (Nat → Nat) → Prop
| last {bits way bits'} (hWay : way < ways)
    (hTouch : Touch ways bits way bits') :
    Touches ways bits way bits'
| next {bits other middle way bits'} (hOther : other < ways)
    (hTouch : Touch ways bits other middle)
    (hRest : Touches ways middle way bits') :
    Touches ways bits way bits'

/-
  After every sequence of calls the bytes are a stack, and a
  further call touches ways, last the one that it returns.
-/
def KeepsStack
    {σ κ : Type}
    (ways : Nat)
    (bits : σ → Nat → Nat)
    (call : σ → κ → Option (Nat × σ))
    (initial : σ) : Prop :=
  ∀ calls s,
    Run.run (fun s c => (call s c).map Prod.snd) initial
        calls = some s →
      IsStack ways (bits s) ∧
        ∀ c way s', call s c = some (way, s') →
          Touches ways (bits s) way (bits s')

/- Bytes that tell the ways apart, within their number. -/
structure Stack (ways : Nat) (bits : Nat → Nat) : Prop where
  bytes : ∀ way, bits way < 2 ^ 8
  within : ∀ way < ways, bits way < ways
  distinct : ∀ way < ways, ∀ other < ways,
    bits way = bits other → way = other

section Touches

variable {ways : Nat} {bits : Nat → Nat} {way : Nat}

theorem Stack.isStack
    (hStack : Stack ways bits) :
    IsStack ways bits := by
  have hNodup : ((List.range ways).map bits).Nodup := by
    refine List.Nodup.map_on ?_ List.nodup_range
    intro i hI j hJ hEq
    exact hStack.distinct i (List.mem_range.mp hI) j
      (List.mem_range.mp hJ) hEq
  refine (List.subperm_of_subset hNodup
    ?_).perm_of_length_le (by simp)
  intro b hMem
  rcases List.mem_map.mp hMem with ⟨i, hI, hEq⟩
  rw [← hEq]
  exact List.mem_range.mpr (hStack.within i (List.mem_range.mp hI))

theorem stack_bumped
    (hStack : Stack ways bits)
    (hWay : way < ways) :
    Stack ways (MplruSet.bumped bits way) where
  bytes := MplruSet.bumped_lt hStack.bytes
  within := by
    intro other hOther
    have hAccessed := hStack.within way hWay
    have hWithin := hStack.within other hOther
    by_cases hEq : other = way
    · rw [MplruSet.bumped, if_pos hEq]
      omega
    · rw [MplruSet.bumped_of_ne hStack.bytes hEq]
      split_ifs <;> omega
  distinct := MplruSet.bumped_injOn hStack.bytes
    hStack.distinct hWay

theorem touch_bumped
    (hStack : Stack ways bits)
    (hWay : way < ways) :
    Touch ways bits way (MplruSet.bumped bits way) where
  isStack := (stack_bumped hStack hWay).isStack
  front := if_pos rfl
  order := by
    intro i hI j hJ hNeI hNeJ
    -- no other way has the byte of the one that is touched
    have hBitI : bits i ≠ bits way :=
      fun hEq => hNeI (hStack.distinct i hI way hWay hEq)
    have hBitJ : bits j ≠ bits way :=
      fun hEq => hNeJ (hStack.distinct j hJ way hWay hEq)
    rw [MplruSet.bumped_of_ne hStack.bytes hNeI,
      MplruSet.bumped_of_ne hStack.bytes hNeJ]
    split_ifs <;> omega

theorem touches_bumped
    (hStack : Stack ways bits)
    (hWay : way < ways) :
    Stack ways (MplruSet.bumped bits way) ∧
      Touches ways bits way (MplruSet.bumped bits way) :=
  ⟨stack_bumped hStack hWay, .last hWay (touch_bumped hStack hWay)⟩

end Touches

/- What the calls of a policy have to show. -/
theorem keepsStack_of_call
    {σ κ : Type}
    {ways : Nat}
    {bits : σ → Nat → Nat}
    (associativity : σ → Nat)
    {call : σ → κ → Option (Nat × σ)}
    {initial : σ}
    (hCall : ∀ s c way s', associativity s = ways →
      Stack ways (bits s) → call s c = some (way, s') →
        associativity s' = ways ∧ Stack ways (bits s') ∧
          Touches ways (bits s) way (bits s'))
    (hWays : associativity initial = ways)
    (hInitial : Stack ways (bits initial)) :
    KeepsStack ways bits call initial := by
  intro calls s hRun
  have hReached := Run.run_invariant
    (I := fun s => associativity s = ways ∧ Stack ways (bits s))
    (fun s c s' hOld hStep => by
      rcases Option.map_eq_some_iff.mp hStep with
        ⟨⟨way, next⟩, hOutcome, hEq⟩
      rcases hCall s c way next hOld.1 hOld.2 hOutcome with
        ⟨hWays', hStack', -⟩
      exact hEq ▸ ⟨hWays', hStack'⟩)
    ⟨hWays, hInitial⟩ hRun
  refine ⟨hReached.2.isStack, ?_⟩
  intro c way s' hOutcome
  exact (hCall s c way s' hReached.1 hReached.2 hOutcome).2.2

/- The bytes that the constructors set. -/
theorem stack_initial
    {ways : Nat}
    (hFew : ways ≤ 2 ^ 8) :
    Stack ways (fun way => way % 2 ^ 8) where
  bytes := fun way => Nat.mod_lt way (by decide)
  within := by
    intro way hWay
    rw [Nat.mod_eq_of_lt (by omega)]
    exact hWay
  distinct := by
    intro way hWay other hOther hEq
    rwa [Nat.mod_eq_of_lt (by omega),
      Nat.mod_eq_of_lt (by omega)] at hEq

section Policies

variable {ways : Nat}

theorem touches_attempts
    {cntlr : Option (Nat → CacheBlock → Bool)}
    {left attempt way : Nat}
    {s s' : LruSet}
    (hWays : s.associativity = ways)
    (hStack : Stack ways s.lruBits)
    (hCall : LruSet.attempts cntlr left attempt s =
      some (way, s')) :
    s'.associativity = ways ∧ Stack ways s'.lruBits ∧
      Touches ways s.lruBits way s'.lruBits := by
  induction left generalizing attempt s with
  | zero => cases hCall
  | succ left ih =>
      unfold LruSet.attempts at hCall
      dsimp only at hCall
      split_ifs at hCall with hIndex hLast
      · cases hCall
        exact ⟨hWays, touches_bumped hStack (hWays ▸ hIndex)⟩
      · cases cntlr with
        | none => cases hCall
        | some isInLowerLevelCache =>
            dsimp only at hCall
            have hTouched := touches_bumped hStack (hWays ▸ hIndex)
            split_ifs at hCall
            · -- a lower level has the block: try again
              rcases ih (s := s.moveToMRU s.victim) hWays
                  hTouched.1 hCall with
                ⟨hWays', hStack', hRest⟩
              exact ⟨hWays', hStack',
                .next (hWays ▸ hIndex)
                  (touch_bumped hStack (hWays ▸ hIndex))
                  hRest⟩
            · cases hCall
              exact ⟨hWays, hTouched⟩

theorem keepsStack_lru
    (hFew : ways ≤ 2 ^ 8)
    (numAttempts : Nat) :
    KeepsStack ways LruSet.lruBits LruSet.call
      (LruSet.create ways numAttempts) := by
  refine keepsStack_of_call LruSet.associativity
    ?_ rfl (stack_initial hFew)
  intro s c way s' hWays hStack hCall
  cases c with
  | getReplacementIndex block cntlr =>
      rw [LruSet.call, LruSet.getReplacementIndex] at hCall
      split at hCall
      · rename_i found hFound
        cases hCall
        have hLt := List.mem_range.mp
          (List.mem_of_find?_eq_some hFound)
        exact ⟨hWays, touches_bumped hStack (hWays ▸ hLt)⟩
      · exact touches_attempts
          (s := { s with block := block }) hWays hStack hCall
  | updateReplacementIndex accessed =>
      rw [LruSet.call, LruSet.updateReplacementIndex] at hCall
      split_ifs at hCall with hLt
      cases hCall
      exact ⟨hWays, touches_bumped hStack (hWays ▸ hLt)⟩

theorem keepsStack_mplru
    (hFew : ways ≤ 2 ^ 8)
    (mode : MetadataPriorityMode) :
    KeepsStack ways MplruSet.lruBits MplruSet.call
      (MplruSet.create ways mode) := by
  refine keepsStack_of_call MplruSet.associativity
    ?_ rfl (stack_initial hFew)
  intro s c way s' hWays hStack hCall
  have hReplaces : ∀ {block r},
      { s with block := block }.Replaces r →
        r = some (way, s') →
          s'.associativity = ways ∧ Stack ways s'.lruBits ∧
            Touches ways s.lruBits way s'.lruBits := by
    intro block r hReplaces hEq
    rcases hReplaces way s' hEq with ⟨hLt, hNext⟩
    rw [hNext]
    exact ⟨hWays, touches_bumped hStack (hWays ▸ hLt)⟩
  cases c with
  | getReplacementIndex block controller =>
      exact hReplaces
        (MplruSet.replaces_getReplacementIndex _ _) hCall
  | withReservation block reservedWays =>
      have hFound := MplruSet.replaces_found
        { s with block := block }
      rw [MplruSet.call,
        MplruSet.getReplacementIndexWithReservation_eq]
        at hCall
      exact hReplaces (hFound _ _) hCall
  | withDataReservation block reservedWays =>
      have hFound := MplruSet.replaces_found
        { s with block := block }
      rw [MplruSet.call,
        MplruSet.getReplacementIndexWithDataReservation_eq]
        at hCall
      exact hReplaces (hFound _ _) hCall
  | updateReplacementIndex accessed =>
      rw [MplruSet.call] at hCall
      split_ifs at hCall with hLt
      exact hReplaces (MplruSet.replaces_replace s hLt) hCall

/- A search ends at a way of the set or where it started. -/
theorem search_le
    (s : ChirpSet)
    (start : Nat)
    (p : Nat → Bool) :
    s.search start p = start ∨
      s.search start p < s.lru.associativity := by
  refine List.foldlRecOn
    (motive := fun best : Nat × Nat =>
      best.1 = start ∨ best.1 < s.lru.associativity)
    _ _ (Or.inl rfl) ?_
  intro best hBest way hMem
  split_ifs
  · exact Or.inr (List.mem_range.mp hMem)
  · exact hBest

theorem victim_lt
    {s : ChirpSet}
    (hSome : 0 < s.lru.associativity) :
    s.victim < s.lru.associativity := by
  unfold ChirpSet.victim
  dsimp only
  split_ifs with hDead
  · exact hDead
  · rcases search_le s 0 (fun _ => true) with
      hStart | hLt
    · rw [hStart]
      exact hSome
    · exact hLt

theorem keepsStack_chirp
    (hSome : 0 < ways)
    (hFew : ways ≤ 2 ^ 8) :
    KeepsStack ways (fun s => s.lru.lruBits) ChirpSet.call
      (ChirpSet.create ways) := by
  refine keepsStack_of_call 
    (fun s => s.lru.associativity) ?_ rfl
    (stack_initial hFew)
  intro s c way s' hWays hStack hCall
  cases c with
  | getReplacementIndex block info pc =>
      rcases Option.map_eq_some_iff.mp hCall with
        ⟨r, hOutcome, hEq⟩
      unfold ChirpSet.getReplacementIndex at hOutcome
      split_ifs at hOutcome
      split at hOutcome
      · rename_i found hFound
        cases hOutcome
        cases hEq
        have hLt := List.mem_range.mp
          (List.mem_of_find?_eq_some hFound)
        exact ⟨hWays, touches_bumped hStack (hWays ▸ hLt)⟩
      · cases hOutcome
        cases hEq
        have hLt := victim_lt (s :=
          { s with lru := { s.lru with block := block } })
          (hWays ▸ hSome)
        exact ⟨hWays, touches_bumped hStack (hWays ▸ hLt)⟩
  | updateReplacementIndex info accessed pc =>
      rcases Option.map_eq_some_iff.mp hCall with
        ⟨r, hOutcome, hEq⟩
      unfold ChirpSet.updateReplacementIndex at hOutcome
      by_cases hNone : info.tableSize = 0 ∨
          s.lru.associativity ≤ accessed
      · rw [if_pos hNone] at hOutcome
        cases hOutcome
      · rw [if_neg hNone] at hOutcome
        cases hOutcome
        cases hEq
        rw [not_or, Nat.not_le] at hNone
        exact ⟨hWays, touches_bumped hStack (hWays ▸ hNone.2)⟩

end Policies

/-
  On the sets of all three policies the bytes stay a stack,
  and every call brings the way that it returns to the front.
-/
theorem keepsStack
    (ways : Nat)
    (hSome : 1 ≤ ways)
    (hFew : ways ≤ 256) :
    (∀ numAttempts, KeepsStack ways LruSet.lruBits
        LruSet.call (LruSet.create ways numAttempts)) ∧
      (∀ mode, KeepsStack ways MplruSet.lruBits
        MplruSet.call (MplruSet.create ways mode)) ∧
      KeepsStack ways (fun s => s.lru.lruBits) ChirpSet.call
        (ChirpSet.create ways) :=
  ⟨keepsStack_lru hFew, keepsStack_mplru hFew,
    keepsStack_chirp hSome hFew⟩

/- The largest number of ways that the bytes tell apart. -/
theorem keepsStack_allBytes :
    (∀ numAttempts, KeepsStack 256 LruSet.lruBits
        LruSet.call (LruSet.create 256 numAttempts)) ∧
      (∀ mode, KeepsStack 256 MplruSet.lruBits
        MplruSet.call (MplruSet.create 256 mode)) ∧
      KeepsStack 256 (fun s => s.lru.lruBits) ChirpSet.call
        (ChirpSet.create 256) :=
  keepsStack 256 (by decide) (by decide)

end Lru

namespace LruSet

/- The bytes of the ways, one after the other. -/
def positions (s : LruSet) : List Nat :=
  (List.range s.associativity).map s.lruBits

variable {s : LruSet} {way : Nat}

theorem positions_moveToMRU
    (hWay : way < s.associativity) :
    (s.moveToMRU way).positions =
      Replacement.moveToMRU s.positions way := by
  have hAccessed : s.positions.getD way 0 = s.lruBits way := by
    simp [positions, List.getD, hWay]
  rw [Replacement.moveToMRU, hAccessed]
  apply List.ext_getElem
  · simp [positions, moveToMRU]
  · intro i hI _
    by_cases hEq : i = way
    · simp [positions, moveToMRU, MplruSet.bumped, hEq]
    · simp [positions, moveToMRU, MplruSet.bumped, hEq, Ne.symm hEq]

/- A TLB has no block that is being upgraded. -/
theorem leastRecent_positions
    (hSettled : ∀ way < s.associativity,
      s.isValidReplacement way = true) :
    Replacement.leastRecent s.positions = s.victim := by
  have hZip : s.positions.zipIdx =
      (List.range s.associativity).map
        (fun way => (s.lruBits way, way)) := by
    apply List.ext_getElem <;> simp [positions]
  rw [Replacement.leastRecent, hZip, List.foldl_map, victim]
  refine congrArg Prod.fst (List.foldl_ext _ _ _ ?_)
  intro best way hMem
  simp [hSettled way (List.mem_range.mp hMem)]

/-
  The replacement policy of a TLB is a set of one attempt
  whose blocks are valid as those of the TLB.
-/
theorem getReplacementIndex_eq_lru
    {blocks : List TlbBlock}
    (hSome : 0 < s.associativity)
    (hAttempts : s.numAttempts = 1)
    (hSettled : ∀ way < s.associativity,
      s.isValidReplacement way = true)
    (hBlocks : blocks.map TlbBlock.isValid =
      (List.range s.associativity).map
        (fun way => (s.block way).isValid))
    (cntlr : Option (Nat → CacheBlock → Bool)) :
    Replacement.lru.getReplacementIndex [s.positions] 0 blocks =
      (s.getReplacementIndex cntlr).map
        (fun r => (r.1, [r.2.positions])) := by
  have hLength : s.positions.length = s.associativity := by
    simp [positions]
  have hInvalid : blocks.findIdx? (fun b => !b.isValid) =
      s.findInvalid := by
    have hFirst : blocks.findIdx? (fun b => !b.isValid) =
        (blocks.map TlbBlock.isValid).findIdx? not := by
      rw [List.findIdx?_map]
      rfl
    rw [hFirst, hBlocks, List.findIdx?_map, findInvalid]
    apply Option.ext
    intro way
    rw [List.findIdx?_eq_some_iff_getElem, List.find?_range_eq_some]
    simp
  rw [getReplacementIndex, ← hInvalid]
  simp only [Replacement.lru]
  cases hFound : blocks.findIdx? (fun b => !b.isValid) with
  | some way =>
      rw [hInvalid] at hFound
      have hWay := List.mem_range.mp
        (List.mem_of_find?_eq_some hFound)
      simp [positions_moveToMRU hWay]
  | none =>
      have hVictim : s.victim < s.associativity := by
        rw [← leastRecent_positions hSettled]
        exact Replacement.leastRecent_lt hSome hLength.le
      simp [attempts, hAttempts, hVictim,
        leastRecent_positions hSettled,
        positions_moveToMRU hVictim]

theorem updateReplacementIndex_eq_lru
    (hWay : way < s.associativity) :
    s.updateReplacementIndex way = some (way, s.moveToMRU way) ∧
    Replacement.lru.updateReplacementIndex [s.positions] 0
        way = [(s.moveToMRU way).positions] := by
  simp [updateReplacementIndex, hWay, Replacement.lru,
    positions_moveToMRU hWay]

end LruSet

end Virtuoso
