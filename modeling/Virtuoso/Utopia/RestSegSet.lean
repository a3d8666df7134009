import Mathlib.Data.List.Basic
import Mathlib.Data.Nat.Notation
import Mathlib.Logic.Function.Basic
import Mathlib.Tactic.SplitIfs

/-
  One set of the restricted segment in `utopia.h`.

  A way is an index below the associativity. The counters
  are natural numbers, taken to stay below `UINT64_MAX`,
  the first value of `min_lru`. The count of reuses and the
  counts of fingerprint matches are statistics and are left
  out.

  Main declarations:
    * `Utopia.RestSegSet.performs_insert`
    * `Utopia.RestSegSet.Performs.inserts`
-/

------------------------------------------------------------
-- Sets And Searches
------------------------------------------------------------

namespace Virtuoso

namespace Utopia

/- A page of a set. -/
structure RestSegEntry where
  valid : Bool
  tag : Nat
  fingerprint : BitVec 8
  owner : Nat
  lruCounter : Nat
deriving DecidableEq

/- A set with the counter of its uses. -/
structure RestSegSet where
  associativity : Nat
  entries : Nat → RestSegEntry
  globalLruCounter : Nat

/-
  What an insertion did: it found the entry, it took a free
  way, it replaced the entry of a tag and an owner, or it
  failed. The source returns these as the flags `success`,
  `was_hit`, `used_free_way` and `eviction_occurred`.
-/
inductive Insertion
  | hit (way : Nat)
  | free (way : Nat)
  | evict (way tag owner : Nat)
  | fail
deriving DecidableEq

namespace RestSegSet

/- `RestSegSet::RestSegSet`. -/
def construct (associativity : Nat) : RestSegSet :=
  ⟨associativity, fun _ => ⟨false, 0, 0#8, 0, 0⟩, 0⟩

/- The entry is valid and of a tag and an owner. -/
def matchesEntry
    (e : RestSegEntry)
    (tag owner : Nat) : Bool :=
  e.valid && e.tag == tag && e.owner == owner

/- `RestSegSet::findEntry`. -/
def findEntry
    (s : RestSegSet)
    (tag owner : Nat) :
    Option Nat :=
  (List.range s.associativity).find?
    (fun i => matchesEntry (s.entries i) tag owner)

/-
  `RestSegSet::findEntryWithFingerprintShadow`, which goes
  on after a match and returns the last one.
-/
def findEntryWithFingerprintShadow
    (s : RestSegSet)
    (tag owner : Nat) :
    Option Nat :=
  (List.range s.associativity).foldl
    (fun result i =>
      if matchesEntry (s.entries i) tag owner then
        some i
      else
        result)
    none

/- `RestSegSet::findFreeWay`. -/
def findFreeWay (s : RestSegSet) : Option Nat :=
  (List.range s.associativity).find? (fun i => !(s.entries i).valid)

/- One turn of the loop of `findLRUVictim`. -/
def lruStep
    (s : RestSegSet)
    (victim : Option Nat)
    (i : Nat) :
    Option Nat :=
  if (s.entries i).valid then
    match victim with
    | none => some i
    | some v =>
        if (s.entries i).lruCounter < (s.entries v).lruCounter then
          some i
        else
          some v
  else
    victim

/- `RestSegSet::findLRUVictim`. -/
def findLRUVictim (s : RestSegSet) : Option Nat :=
  (List.range s.associativity).foldl s.lruStep none

/- Make the entry of a way the most recent one. -/
def refresh (s : RestSegSet) (way : Nat) : RestSegSet :=
  let counter := s.globalLruCounter + 1
  { s with
    entries := Function.update s.entries way
      { s.entries way with lruCounter := counter }
    globalLruCounter := counter }

/- Write a new entry into a way. -/
def fill
    (s : RestSegSet)
    (way tag owner : Nat)
    (fingerprint : BitVec 8) : RestSegSet :=
  let counter := s.globalLruCounter + 1
  { s with
    entries := Function.update s.entries way
      ⟨true, tag, fingerprint, owner, counter⟩
    globalLruCounter := counter }

/- `RestSegSet::isWayFree`. -/
def isWayFree (s : RestSegSet) (way : Nat) : Bool :=
  decide (way < s.associativity) && !(s.entries way).valid

/- `RestSegSet::insert`, from the search for a free way on. -/
def insertAnywhere
    (s : RestSegSet)
    (tag owner : Nat)
    (fingerprint : BitVec 8)
    (forceEvict : Bool) :
    Insertion × RestSegSet :=
  match s.findFreeWay with
  | some way => (.free way, s.fill way tag owner fingerprint)
  | none =>
      if forceEvict then
        match s.findLRUVictim with
        | none => (.fail, s)
        | some way =>
            (.evict way (s.entries way).tag (s.entries way).owner,
              s.fill way tag owner fingerprint)
      else
        (.fail, s)

/- `RestSegSet::insert`. -/
def insert
    (s : RestSegSet)
    (tag owner : Nat)
    (fingerprint : BitVec 8)
    (forceEvict : Bool)
    (preferredWay : Option Nat) :
    Insertion × RestSegSet :=
  match s.findEntry tag owner with
  | some way => (.hit way, s.refresh way)
  | none =>
      match preferredWay with
      | none => s.insertAnywhere tag owner fingerprint forceEvict
      | some way =>
          if s.isWayFree way then
            (.free way, s.fill way tag owner fingerprint)
          else
            s.insertAnywhere tag owner fingerprint forceEvict

/- `RestSegSet::tryInsertAtWay`. -/
def tryInsertAtWay
    (s : RestSegSet)
    (tag owner : Nat)
    (fingerprint : BitVec 8)
    (way : Nat) :
    Insertion × RestSegSet :=
  match s.findEntry tag owner with
  | some way => (.hit way, s.refresh way)
  | none =>
      if s.isWayFree way then
        (.free way, s.fill way tag owner fingerprint)
      else
        (.fail, s)

/- `RestSegSet::touchEntry`. -/
def touchEntry (s : RestSegSet) (way : Nat) : RestSegSet :=
  if way < s.associativity ∧ (s.entries way).valid then
    s.refresh way
  else
    s

/- A way holds a valid entry of a tag and an owner. -/
def Holds (s : RestSegSet) (way tag owner : Nat) : Prop :=
  way < s.associativity ∧
    matchesEntry (s.entries way) tag owner = true

instance
    (s : RestSegSet)
    (way tag owner : Nat) :
    Decidable (s.Holds way tag owner) :=
  inferInstanceAs (Decidable (_ ∧ _))

/- No way holds an entry of a tag and an owner. -/
def Lacks (s : RestSegSet) (tag owner : Nat) : Prop :=
  ∀ way, ¬ s.Holds way tag owner

/- Every way holds a valid entry. -/
def Full (s : RestSegSet) : Prop :=
  ∀ way < s.associativity, (s.entries way).valid = true

/- A tag and an owner are in one way at most. -/
def Sound (s : RestSegSet) : Prop :=
  ∀ way way' tag owner, s.Holds way tag owner →
    s.Holds way' tag owner → way = way'

/- Two sets hold the same entries. -/
structure Same (s s' : RestSegSet) : Prop where
  associativity : s'.associativity = s.associativity
  valid : ∀ way, (s'.entries way).valid = (s.entries way).valid
  holds : ∀ way tag owner,
    s'.Holds way tag owner ↔ s.Holds way tag owner

/- `s'` is `s` with a new entry in a way. -/
structure Filled
    (s s' : RestSegSet)
    (way tag owner : Nat) : Prop where
  inside : way < s.associativity
  associativity : s'.associativity = s.associativity
  valid : ∀ way', (s'.entries way').valid =
    if way' = way then true else (s.entries way').valid
  holds : ∀ way' tag' owner',
    s'.Holds way' tag' owner' ↔
      if way' = way then
        tag' = tag ∧ owner' = owner
      else
        s.Holds way' tag' owner'

/-
  All that an insertion of a tag and an owner can do. It
  evicts only if it may.
-/
inductive Inserts
    (s : RestSegSet)
    (tag owner : Nat)
    (forceEvict : Bool) :
    Insertion × RestSegSet → Prop
  | hit {way : Nat} {s' : RestSegSet} :
      s.Holds way tag owner → s.Same s' →
      Inserts s tag owner forceEvict (.hit way, s')
  | free {way : Nat} {s' : RestSegSet} :
      s.Lacks tag owner →
      (s.entries way).valid = false →
      s.Filled s' way tag owner →
      Inserts s tag owner forceEvict (.free way, s')
  | evict {way oldTag oldOwner : Nat} {s' : RestSegSet} :
      forceEvict = true → s.Lacks tag owner → s.Full →
      s.Holds way oldTag oldOwner →
      s.Filled s' way tag owner →
      Inserts s tag owner forceEvict
        (.evict way oldTag oldOwner, s')
  | fail :
      s.Lacks tag owner →
      Inserts s tag owner forceEvict (.fail, s)

/- What an insertion does to the set, with its stamps. -/
inductive Performs
    (s : RestSegSet)
    (tag owner : Nat)
    (fingerprint : BitVec 8)
    (forceEvict : Bool) :
    Insertion × RestSegSet → Prop
  | hit {way : Nat} :
      s.Holds way tag owner →
      Performs s tag owner fingerprint forceEvict
        (.hit way, s.refresh way)
  | free {way : Nat} :
      s.Lacks tag owner →
      way < s.associativity →
      (s.entries way).valid = false →
      Performs s tag owner fingerprint forceEvict
        (.free way, s.fill way tag owner fingerprint)
  | evict {way : Nat} :
      forceEvict = true →
      s.Lacks tag owner →
      s.Full →
      s.findLRUVictim = some way →
      Performs s tag owner fingerprint forceEvict
        (.evict way (s.entries way).tag (s.entries way).owner,
          s.fill way tag owner fingerprint)
  | fail :
      s.Lacks tag owner →
      Performs s tag owner fingerprint forceEvict (.fail, s)

variable {s s' : RestSegSet} {way tag owner : Nat}

theorem matchesEntry_iff
    {e : RestSegEntry} :
    matchesEntry e tag owner = true ↔
      e.valid = true ∧ e.tag = tag ∧ e.owner = owner := by
  simp [matchesEntry, and_assoc]

/- A way holds one entry at most. -/
theorem Holds.eq
    {tag' owner' : Nat}
    (hHolds : s.Holds way tag owner)
    (hHolds' : s.Holds way tag' owner') :
    tag = tag' ∧ owner = owner' := by
  rcases matchesEntry_iff.mp hHolds.2 with ⟨_, hTag, hOwner⟩
  rcases matchesEntry_iff.mp hHolds'.2 with
    ⟨_, hTag', hOwner'⟩
  exact ⟨hTag.symm.trans hTag', hOwner.symm.trans hOwner'⟩

theorem Holds.valid
    (hHolds : s.Holds way tag owner) :
    (s.entries way).valid = true :=
  (matchesEntry_iff.mp hHolds.2).1

/- A valid entry is held under its own tag and owner. -/
theorem holds_of_valid
    (hWay : way < s.associativity)
    (hValid : (s.entries way).valid = true) :
    s.Holds way (s.entries way).tag (s.entries way).owner :=
  ⟨hWay, matchesEntry_iff.mpr ⟨hValid, rfl, rfl⟩⟩

theorem holds_of_findEntry
    (hFind : s.findEntry tag owner = some way) :
    s.Holds way tag owner := by
  have hMem := List.mem_of_find?_eq_some hFind
  have hMatch := List.find?_some hFind
  exact ⟨List.mem_range.mp hMem, by simpa using hMatch⟩

theorem findEntry_eq_none_iff :
    s.findEntry tag owner = none ↔ s.Lacks tag owner := by
  simp only [findEntry, List.find?_eq_none, List.mem_range,
    Lacks, Holds, not_and]

/- In a sound set the search finds the way that holds. -/
theorem findEntry_eq_some_iff
    (hSound : s.Sound) :
    s.findEntry tag owner = some way ↔ s.Holds way tag owner := by
  constructor
  · exact holds_of_findEntry
  · intro hHolds
    cases hFind : s.findEntry tag owner with
    | none =>
        exact absurd hHolds (findEntry_eq_none_iff.mp hFind way)
    | some way' =>
        rw [hSound way way' tag owner hHolds
          (holds_of_findEntry hFind)]

theorem invalid_of_findFreeWay
    (hFind : s.findFreeWay = some way) :
    way < s.associativity ∧ (s.entries way).valid = false := by
  have hMem := List.mem_of_find?_eq_some hFind
  have hFree := List.find?_some hFind
  exact ⟨List.mem_range.mp hMem, by simpa using hFree⟩

theorem full_of_findFreeWay
    (hFind : s.findFreeWay = none) :
    s.Full := by
  intro way hWay
  simpa using List.find?_eq_none.mp hFind way
    (List.mem_range.mpr hWay)

/- The victim so far is a valid way of the set. -/
theorem valid_of_lruFold
    (s : RestSegSet)
    (ways : List Nat)
    (hWays : ∀ i ∈ ways, i < s.associativity)
    {victim : Option Nat}
    (hVictim :
      ∀ v ∈ victim,
        v < s.associativity ∧ (s.entries v).valid = true) :
    ∀ v ∈ ways.foldl s.lruStep victim,
      v < s.associativity ∧ (s.entries v).valid = true := by
  induction ways generalizing victim with
  | nil => exact hVictim
  | cons i ways ih =>
      apply ih (fun j hMem => hWays j (by simp [hMem]))
      intro v hStep
      unfold lruStep at hStep
      by_cases hValid : (s.entries i).valid = true
      · rw [if_pos hValid] at hStep
        have hOwn : i < s.associativity ∧
            (s.entries i).valid = true :=
          ⟨hWays i (by simp), hValid⟩
        cases victim with
        | none =>
            simp only [Option.mem_def, Option.some.injEq] at hStep
            exact hStep ▸ hOwn
        | some old =>
            simp only at hStep
            split_ifs at hStep with hOlder
            · simp only [Option.mem_def, Option.some.injEq] at hStep
              exact hStep ▸ hOwn
            · simp only [Option.mem_def, Option.some.injEq] at hStep
              exact hStep ▸ hVictim old rfl
      · rw [if_neg hValid] at hStep
        exact hVictim v hStep

theorem valid_of_findLRUVictim
    (hFind : s.findLRUVictim = some way) :
    way < s.associativity ∧ (s.entries way).valid = true :=
  valid_of_lruFold s (List.range s.associativity)
    (fun _ hMem => List.mem_range.mp hMem) (by simp) way hFind

theorem isWayFree_iff :
    s.isWayFree way = true ↔
      way < s.associativity ∧ (s.entries way).valid = false := by
  simp [isWayFree]

------------------------------------------------------------
-- Steps And Soundness
------------------------------------------------------------

theorem Same.refl
    (s : RestSegSet) :
    s.Same s :=
  ⟨rfl, fun _ => rfl, fun _ _ _ => Iff.rfl⟩

theorem same_refresh
    (s : RestSegSet)
    (way : Nat) :
    s.Same (s.refresh way) := by
  refine ⟨rfl, ?_, ?_⟩
  · intro way'
    by_cases hWay : way' = way
    · simp [refresh, hWay]
    · simp [refresh, hWay]
  · intro way' tag owner
    unfold Holds
    rw [matchesEntry_iff, matchesEntry_iff]
    by_cases hWay : way' = way
    · simp [refresh, hWay]
    · simp [refresh, hWay]

theorem same_touchEntry
    (s : RestSegSet)
    (way : Nat) :
    s.Same (s.touchEntry way) := by
  unfold touchEntry
  split_ifs
  · exact same_refresh s way
  · exact Same.refl s

theorem filled_fill
    (hWay : way < s.associativity)
    (tag owner : Nat)
    (fingerprint : BitVec 8) :
    s.Filled (s.fill way tag owner fingerprint) way tag owner := by
  refine ⟨hWay, rfl, ?_, ?_⟩
  · intro way'
    by_cases hEq : way' = way
    · simp [fill, hEq]
    · simp [fill, hEq]
  · intro way' tag' owner'
    unfold Holds
    rw [matchesEntry_iff]
    by_cases hEq : way' = way
    · subst hEq
      simp [fill, hWay, eq_comm]
    · simp [fill, hEq, matchesEntry_iff]

theorem performs_insertAnywhere
    (hLacks : s.Lacks tag owner)
    (fingerprint : BitVec 8)
    (forceEvict : Bool) :
    s.Performs tag owner fingerprint forceEvict
      (s.insertAnywhere tag owner fingerprint forceEvict) := by
  unfold insertAnywhere
  cases hFree : s.findFreeWay with
  | some way =>
      rcases invalid_of_findFreeWay hFree with
        ⟨hWay, hInvalid⟩
      exact .free hLacks hWay hInvalid
  | none =>
      cases forceEvict with
      | false => exact .fail hLacks
      | true =>
          simp only [if_true]
          cases hVictim : s.findLRUVictim with
          | none => exact .fail hLacks
          | some way =>
              exact .evict rfl hLacks
                (full_of_findFreeWay hFree) hVictim

theorem performs_insert
    (s : RestSegSet)
    (tag owner : Nat)
    (fingerprint : BitVec 8)
    (forceEvict : Bool)
    (preferredWay : Option Nat) :
    s.Performs tag owner fingerprint forceEvict
      (s.insert tag owner fingerprint forceEvict preferredWay) := by
  unfold RestSegSet.insert
  cases hFind : s.findEntry tag owner with
  | some way => exact .hit (holds_of_findEntry hFind)
  | none =>
      have hLacks := findEntry_eq_none_iff.mp hFind
      cases preferredWay with
      | none => exact performs_insertAnywhere hLacks _ _
      | some way =>
          simp only
          split_ifs with hFree
          · rcases isWayFree_iff.mp hFree with
              ⟨hWay, hInvalid⟩
            exact .free hLacks hWay hInvalid
          · exact performs_insertAnywhere hLacks _ _

theorem performs_tryInsertAtWay
    (s : RestSegSet)
    (tag owner : Nat)
    (fingerprint : BitVec 8)
    (way : Nat)
    (forceEvict : Bool) :
    s.Performs tag owner fingerprint forceEvict
      (s.tryInsertAtWay tag owner fingerprint way) := by
  unfold tryInsertAtWay
  cases hFind : s.findEntry tag owner with
  | some way' => exact .hit (holds_of_findEntry hFind)
  | none =>
      have hLacks := findEntry_eq_none_iff.mp hFind
      simp only
      split_ifs with hFree
      · rcases isWayFree_iff.mp hFree with ⟨hWay, hInvalid⟩
        exact .free hLacks hWay hInvalid
      · exact .fail hLacks

/- What it does is what an insertion can do. -/
theorem Performs.inserts
    {fingerprint : BitVec 8}
    {forceEvict : Bool}
    {r : Insertion × RestSegSet}
    (hPerforms : s.Performs tag owner fingerprint forceEvict r) :
    s.Inserts tag owner forceEvict r := by
  cases hPerforms with
  | hit hHolds => exact .hit hHolds (same_refresh s _)
  | free hLacks hWay hInvalid =>
      exact .free hLacks hInvalid (filled_fill hWay _ _ _)
  | evict hForce hLacks hFull hVictim =>
      rcases valid_of_findLRUVictim hVictim with
        ⟨hWay, hValid⟩
      exact .evict hForce hLacks hFull
        (holds_of_valid hWay hValid) (filled_fill hWay _ _ _)
  | fail hLacks => exact .fail hLacks

theorem inserts_tryInsertAtWay
    (s : RestSegSet)
    (tag owner : Nat)
    (fingerprint : BitVec 8)
    (way : Nat)
    (forceEvict : Bool) :
    s.Inserts tag owner forceEvict
      (s.tryInsertAtWay tag owner fingerprint way) :=
  (performs_tryInsertAtWay _ _ _ fingerprint _ _).inserts

/- What fails at last is the insertion at any way. -/
theorem insertAnywhere_of_insert_fail
    {fingerprint : BitVec 8}
    {forceEvict : Bool}
    {preferredWay : Option Nat}
    (hFail :
      (s.insert tag owner fingerprint forceEvict
        preferredWay).1 = .fail) :
    (s.insertAnywhere tag owner fingerprint forceEvict).1 =
      .fail := by
  unfold RestSegSet.insert at hFail
  cases hFind : s.findEntry tag owner with
  | some way => simp [hFind] at hFail
  | none =>
      simp only [hFind] at hFail
      cases preferredWay with
      | none => exact hFail
      | some way =>
          simp only at hFail
          split_ifs at hFail
          exact hFail

/- An insertion that may not evict fails on full sets only. -/
theorem full_of_insertAnywhere_fail
    {fingerprint : BitVec 8}
    (hFail :
      (s.insertAnywhere tag owner fingerprint false).1 = .fail) :
    s.Full := by
  unfold insertAnywhere at hFail
  cases hFree : s.findFreeWay with
  | some way => simp [hFree] at hFail
  | none => exact full_of_findFreeWay hFree

theorem sound_construct
    (associativity : Nat) :
    (construct associativity).Sound := by
  intro way way' tag owner hHolds
  have hValid := hHolds.valid
  simp [construct] at hValid

theorem Sound.same
    (hSound : s.Sound)
    (hSame : s.Same s') :
    s'.Sound := by
  intro way way' tag owner hHolds hHolds'
  exact hSound way way' tag owner
    ((hSame.holds way tag owner).mp hHolds)
    ((hSame.holds way' tag owner).mp hHolds')

theorem Sound.filled
    (hSound : s.Sound)
    (hLacks : s.Lacks tag owner)
    (hFilled : s.Filled s' way tag owner) :
    s'.Sound := by
  intro way₁ way₂ tag' owner' hHolds₁ hHolds₂
  rw [hFilled.holds] at hHolds₁ hHolds₂
  by_cases hFirst : way₁ = way
  · by_cases hSecond : way₂ = way
    · rw [hFirst, hSecond]
    · rw [if_pos hFirst] at hHolds₁
      rw [if_neg hSecond, hHolds₁.1, hHolds₁.2] at hHolds₂
      exact absurd hHolds₂ (hLacks way₂)
  · rw [if_neg hFirst] at hHolds₁
    by_cases hSecond : way₂ = way
    · rw [if_pos hSecond] at hHolds₂
      rw [hHolds₂.1, hHolds₂.2] at hHolds₁
      exact absurd hHolds₁ (hLacks way₁)
    · rw [if_neg hSecond] at hHolds₂
      exact hSound way₁ way₂ tag' owner' hHolds₁ hHolds₂

/- An insertion keeps a set sound. -/
theorem Inserts.sound
    {forceEvict : Bool}
    {result : Insertion × RestSegSet}
    (hInserts : s.Inserts tag owner forceEvict result)
    (hSound : s.Sound) :
    result.2.Sound := by
  cases hInserts with
  | hit _ hSame => exact hSound.same hSame
  | free hLacks _ hFilled => exact hSound.filled hLacks hFilled
  | evict _ hLacks _ _ hFilled =>
      exact hSound.filled hLacks hFilled
  | fail _ => exact hSound

end RestSegSet

end Utopia

end Virtuoso
