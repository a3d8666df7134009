import Mathlib.Data.Nat.Basic
import Virtuoso.Lib.FirstLeast
import Virtuoso.Lib.Run
import Virtuoso.Mplru.Basic

/-
  The order of the ways of a set, and the search for a victim.

  The bytes of the ways never tell two ways apart in the wrong
  order, and up to 256 ways no two bytes are equal.

  Main declarations:
    * `MplruSet.ordered_step`
    * `MplruSet.findLRU_cases`
-/

namespace Virtuoso

namespace MplruSet

section Bytes

variable {bits : Nat → Nat} {accessed : Nat}

theorem bumped_lt
    (hBytes : ∀ way, bits way < 2 ^ 8)
    (way : Nat) :
    bumped bits accessed way < 2 ^ 8 := by
  have hWay := hBytes way
  unfold bumped
  split_ifs <;> omega

/- A byte below another one has room for one more. -/
theorem bumped_of_ne
    (hBytes : ∀ way, bits way < 2 ^ 8)
    {way : Nat}
    (hNe : way ≠ accessed) :
    bumped bits accessed way =
      if bits way < bits accessed then bits way + 1
      else bits way := by
  have hAccessed := hBytes accessed
  rw [bumped, if_neg hNe]
  by_cases hBelow : bits way < bits accessed
  · rw [if_pos hBelow, if_pos hBelow, Nat.mod_eq_of_lt]
    omega
  · rw [if_neg hBelow, if_neg hBelow]

theorem bumped_le_bumped
    (hBytes : ∀ way, bits way < 2 ^ 8)
    {way other : Nat}
    (hWay : way ≠ accessed)
    (hOther : other ≠ accessed)
    (hLe : bits way ≤ bits other) :
    bumped bits accessed way ≤ bumped bits accessed other := by
  rw [bumped_of_ne hBytes hWay, bumped_of_ne hBytes hOther]
  split_ifs <;> omega

/- Distinct bytes stay distinct. -/
theorem bumped_injOn
    (hBytes : ∀ way, bits way < 2 ^ 8)
    {ways : Nat}
    (hDistinct :
      ∀ way < ways, ∀ other < ways,
        bits way = bits other → way = other)
    (hAccessed : accessed < ways) :
    ∀ way < ways, ∀ other < ways,
      bumped bits accessed way = bumped bits accessed other →
        way = other := by
  have hPositive :
      ∀ way < ways, way ≠ accessed →
        0 < bumped bits accessed way := by
    intro way hWay hNe
    have hBits : bits way ≠ bits accessed :=
      fun hEq => hNe (hDistinct way hWay accessed hAccessed hEq)
    rw [bumped_of_ne hBytes hNe]
    split_ifs <;> omega
  have hZero : bumped bits accessed accessed = 0 := by
    rw [bumped, if_pos rfl]
  intro way hWay other hOther hEq
  by_cases hMine : way = accessed
  · by_cases hIts : other = accessed
    · rw [hMine, hIts]
    · have hPos := hPositive other hOther hIts
      rw [← hEq, hMine, hZero] at hPos
      exact absurd hPos (Nat.lt_irrefl 0)
  · by_cases hIts : other = accessed
    · have hPos := hPositive way hWay hMine
      rw [hEq, hIts, hZero] at hPos
      exact absurd hPos (Nat.lt_irrefl 0)
    · apply hDistinct way hWay other hOther
      have hBits : bits way ≠ bits accessed :=
        fun h => hMine (hDistinct way hWay accessed hAccessed h)
      have hBits' : bits other ≠ bits accessed :=
        fun h => hIts (hDistinct other hOther accessed hAccessed h)
      rw [bumped_of_ne hBytes hMine,
        bumped_of_ne hBytes hIts] at hEq
      split_ifs at hEq <;> omega

end Bytes

/-
  The bytes and the uses of the ways of a set: a way that was
  used later does not have the larger byte.
-/
structure Ordered (s : MplruSet) : Prop where
  bytes : ∀ way, s.lruBits way < 2 ^ 8
  past : ∀ way, s.lastUse way ≤ s.uses
  used :
    ∀ way < s.associativity,
      (s.block way).isValid = true → 0 < s.lastUse way
  apart :
    ∀ way other, 0 < s.lastUse way →
      s.lastUse way = s.lastUse other → way = other
  later :
    ∀ way < s.associativity, ∀ other < s.associativity,
      s.lastUse way < s.lastUse other →
        s.lruBits other ≤ s.lruBits way
  distinct :
    s.associativity ≤ 2 ^ 8 →
      ∀ way < s.associativity, ∀ other < s.associativity,
        s.lruBits way = s.lruBits other → way = other

theorem ordered_create
    (associativity : Nat)
    (mode : MetadataPriorityMode) :
    (create associativity mode).Ordered where
  bytes way := Nat.mod_lt way (by decide)
  past _ := Nat.le_refl 0
  used way _ hValid := by
    simp [create, CacheBlock.empty, CacheBlock.isValid] at hValid
  apart way _ hUsed := absurd hUsed (Nat.lt_irrefl 0)
  later way _ other _ hLt := absurd hLt (Nat.lt_irrefl 0)
  distinct hFew way hWay other hOther hEq := by
    rw [create] at hEq hFew hWay hOther
    dsimp only at hEq hFew hWay hOther
    rwa [Nat.mod_eq_of_lt (by omega),
      Nat.mod_eq_of_lt (by omega)] at hEq

variable {s : MplruSet}

/- A use of a way keeps the order, and it is the last one. -/
theorem Ordered.moveToMRU
    (hOrder : s.Ordered)
    {accessed : Nat}
    (hAccessed : accessed < s.associativity) :
    (s.moveToMRU accessed).Ordered where
  bytes := bumped_lt hOrder.bytes
  past way := by
    have hPast := hOrder.past way
    simp only [MplruSet.moveToMRU, Function.update_apply]
    split_ifs <;> omega
  used way hWay hValid := by
    have hUsed := hOrder.used way hWay hValid
    simp only [MplruSet.moveToMRU, Function.update_apply]
    split_ifs <;> omega
  apart way other := by
    have hWay := hOrder.past way
    have hOther := hOrder.past other
    have hApart := hOrder.apart way other
    simp only [MplruSet.moveToMRU, Function.update_apply]
    split_ifs with hMine hIts hIts
    · intro _ _
      rw [hMine, hIts]
    · intro _ hEq
      omega
    · intro _ hEq
      omega
    · exact hApart
  later way hWay other hOther := by
    have hPast := hOrder.past other
    have hLater := hOrder.later way hWay other hOther
    simp only [MplruSet.moveToMRU, Function.update_apply]
    split_ifs with hMine hIts hIts
    · intro hLt
      exact absurd hLt (Nat.lt_irrefl _)
    · intro hLt
      omega
    · intro _
      rw [hIts, bumped, if_pos rfl]
      exact Nat.zero_le _
    · intro hLt
      exact bumped_le_bumped hOrder.bytes hIts hMine (hLater hLt)
  distinct hFew :=
    bumped_injOn hOrder.bytes (hOrder.distinct hFew) hAccessed

/- What a block holds does not change the order. -/
theorem Ordered.setBlock
    (hOrder : s.Ordered)
    {way : Nat}
    {b : CacheBlock}
    (hUsed :
      way < s.associativity → b.isValid = true →
        0 < s.lastUse way) :
    (s.setBlock way b).Ordered where
  bytes := hOrder.bytes
  past := hOrder.past
  used other hOther hValid := by
    simp only [MplruSet.setBlock, Function.update_apply] at hValid
    by_cases hOwn : other = way
    · rw [if_pos hOwn] at hValid
      rw [hOwn] at hOther ⊢
      exact hUsed hOther hValid
    · rw [if_neg hOwn] at hValid
      exact hOrder.used other hOther hValid
  apart := hOrder.apart
  later := hOrder.later
  distinct := hOrder.distinct

/-
  Of two used ways, the one whose byte is the largest of both
  was used first, if there are no more ways than bytes.
-/
theorem Ordered.lastUse_lt
    (hOrder : s.Ordered)
    (hFew : s.associativity ≤ 2 ^ 8)
    {way other : Nat}
    (hWay : way < s.associativity)
    (hOther : other < s.associativity)
    (hValid : (s.block way).isValid = true)
    (hNe : other ≠ way)
    (hLe : s.lruBits other ≤ s.lruBits way) :
    s.lastUse way < s.lastUse other := by
  have hUsed := hOrder.used way hWay hValid
  have hUses : s.lastUse way ≠ s.lastUse other :=
    fun hEq => hNe (hOrder.apart way other hUsed hEq).symm
  have hBits : s.lruBits other ≠ s.lruBits way :=
    fun hEq =>
      hNe (hOrder.distinct hFew other hOther way hWay hEq)
  by_contra hNot
  have hBefore : s.lastUse other < s.lastUse way := by omega
  have hGe := hOrder.later other hOther way hWay hBefore
  omega

theorem findInvalid_eq_none_iff
    (s : MplruSet) :
    s.findInvalid = none ↔
      ∀ way < s.associativity, (s.block way).isValid = true := by
  rw [findInvalid, List.find?_eq_none]
  simp

theorem findInvalid_lt
    {way : Nat}
    (hFound : s.findInvalid = some way) :
    way < s.associativity :=
  List.mem_range.mp (List.mem_of_find?_eq_some hFound)

theorem find_lt
    {tag : BitVec 64}
    {way : Nat}
    (hFound : s.find tag = some way) :
    way < s.associativity :=
  List.mem_range.mp (List.mem_reverse.mp
    (List.mem_of_find?_eq_some hFound))

theorem findLRU_eq_climb
    (s : MplruSet)
    (start : Nat)
    (p : Nat → Bool) :
    s.findLRU start p =
      (FirstLeast.climb s.lruBits (start, 0)
        ((List.range s.associativity).filter p)).1 := by
  rw [findLRU, FirstLeast.climb, List.foldl_filter]
  congr 2
  funext best way
  by_cases hAccepted : p way = true
  · rw [if_pos hAccepted]
    congr 1
    rw [eq_iff_iff]
    exact and_iff_left hAccepted
  · rw [if_neg hAccepted, if_neg (fun hBoth => hAccepted hBoth.2)]

/-
  The search ends at a way with the largest byte, or none of
  the ways has a byte above zero.
-/
theorem findLRU_cases
    (s : MplruSet)
    (start : Nat)
    (p : Nat → Bool) :
    (∃ way, s.findLRU start p = way ∧
        way < s.associativity ∧ p way = true ∧
        0 < s.lruBits way ∧
        ∀ other < s.associativity, p other = true →
          s.lruBits other ≤ s.lruBits way) ∨
      (s.findLRU start p = start ∧
        ∀ other < s.associativity, p other = true →
          s.lruBits other = 0) := by
  rw [findLRU_eq_climb]
  rcases FirstLeast.climb_spec s.lruBits (start, 0)
      ((List.range s.associativity).filter p) with
    ⟨way, hMem, hEnd, hBeyond, hAll⟩ | ⟨hEnd, hAll⟩
  · rw [List.mem_filter, List.mem_range] at hMem
    refine Or.inl ⟨way, congrArg Prod.fst hEnd, hMem.1,
      hMem.2, hBeyond, ?_⟩
    intro other hOther hAccepted
    exact hAll other (List.mem_filter.mpr
      ⟨List.mem_range.mpr hOther, hAccepted⟩)
  · refine Or.inr ⟨congrArg Prod.fst hEnd, ?_⟩
    intro other hOther hAccepted
    exact Nat.le_zero.mp (hAll other (List.mem_filter.mpr
      ⟨List.mem_range.mpr hOther, hAccepted⟩))

/- A way of the set is replaced, and marked as used last. -/
def Replaces
    (s : MplruSet)
    (r : Option (Nat × MplruSet)) : Prop :=
  ∀ way next, r = some (way, next) →
    way < s.associativity ∧ next = s.moveToMRU way

theorem replaces_replace
    (s : MplruSet)
    {way : Nat}
    (hWay : way < s.associativity) :
    s.Replaces (s.replace way) := by
  intro way' next hEq
  rw [replace, Option.some.injEq, Prod.mk.injEq] at hEq
  rw [← hEq.1, ← hEq.2]
  exact ⟨hWay, rfl⟩

theorem replaces_getLRUReplacementIndex
    (s : MplruSet) :
    s.Replaces s.getLRUReplacementIndex := by
  unfold getLRUReplacementIndex
  cases hInvalid : s.findInvalid with
  | some way => exact s.replaces_replace (findInvalid_lt hInvalid)
  | none =>
      dsimp only
      split_ifs with hIndex
      · exact s.replaces_replace hIndex
      · intro way next hEq
        cases hEq

theorem found_lt
    {index way : Nat}
    (hFound : s.found index = some way) :
    way < s.associativity := by
  unfold found at hFound
  split_ifs at hFound with hIndex
  exact Option.some.inj hFound ▸ hIndex

theorem replaces_replaceFirst
    (s : MplruSet)
    {first second : Option Nat}
    (hFirst : ∀ way, first = some way → way < s.associativity)
    (hSecond : ∀ way, second = some way → way < s.associativity) :
    s.Replaces (s.replaceFirst first second) := by
  unfold replaceFirst
  cases first with
  | some way => exact s.replaces_replace (hFirst way rfl)
  | none =>
      cases second with
      | some way => exact s.replaces_replace (hSecond way rfl)
      | none => exact s.replaces_getLRUReplacementIndex

/- The reservation does not change which block leaves. -/
theorem getReplacementIndexWithReservation_eq
    (s : MplruSet)
    (reservedWays : Nat) :
    s.getReplacementIndexWithReservation reservedWays =
      s.replaceFirst (s.found s.findLRUDataBlock)
        (s.found s.findLRUMetadataBlock) := by
  unfold getReplacementIndexWithReservation
  cases hData : s.found s.findLRUDataBlock with
  | none => simp
  | some way => simp [replaceFirst]

theorem getReplacementIndexWithDataReservation_eq
    (s : MplruSet)
    (reservedWays : Nat) :
    s.getReplacementIndexWithDataReservation reservedWays =
      s.replaceFirst (s.found s.findLRUMetadataBlock)
        (s.found s.findLRUDataBlock) := by
  unfold getReplacementIndexWithDataReservation
  cases hMetadata : s.found s.findLRUMetadataBlock with
  | none => simp
  | some way => simp [replaceFirst]

theorem replaces_found
    (s : MplruSet)
    (i j : Nat) :
    s.Replaces (s.replaceFirst (s.found i) (s.found j)) :=
  s.replaces_replaceFirst (fun _ => found_lt) (fun _ => found_lt)

theorem replaces_getReplacementIndex
    (s : MplruSet)
    (controller : Option Int) :
    s.Replaces (s.getReplacementIndex controller) := by
  have hNone : ∀ way, none = some way → way < s.associativity :=
    fun way hEq => by cases hEq
  have hOne (i : Nat) :
      s.Replaces (s.replaceFirst (s.found i) none) :=
    s.replaces_replaceFirst (fun _ => found_lt) hNone
  unfold getReplacementIndex
  cases hInvalid : s.findInvalid with
  | some way => exact s.replaces_replace (findInvalid_lt hInvalid)
  | none =>
      dsimp only
      split_ifs
      · unfold protectMetadata
        split
        · exact s.replaces_getLRUReplacementIndex
        · exact hOne _
        · exact hOne _
        · exact s.replaces_found _ _
        · rw [getReplacementIndexWithReservation_eq]
          exact s.replaces_found _ _
        · rw [getReplacementIndexWithReservation_eq]
          exact s.replaces_found _ _
        · exact s.replaces_getLRUReplacementIndex
      · unfold protectData
        split
        · exact s.replaces_getLRUReplacementIndex
        · exact hOne _
        · exact hOne _
        · exact s.replaces_found _ _
        · rw [getReplacementIndexWithDataReservation_eq]
          exact s.replaces_found _ _
        · rw [getReplacementIndexWithDataReservation_eq]
          exact s.replaces_found _ _
        · exact s.replaces_getLRUReplacementIndex

theorem ordered_step
    {s next : MplruSet}
    {e : Event}
    (hOrder : s.Ordered)
    (hStep : s.step e = some next) :
    next.Ordered := by
  cases e with
  | insert b controller =>
      rw [step, insert] at hStep
      cases hIndex : s.getReplacementIndex controller with
      | none =>
          rw [hIndex] at hStep
          cases hStep
      | some r =>
          rcases r with ⟨way, used⟩
          rcases s.replaces_getReplacementIndex controller
              way used hIndex with
            ⟨hWay, hUsed⟩
          rw [hIndex, hUsed] at hStep
          rw [← Option.some.inj hStep]
          apply (hOrder.moveToMRU hWay).setBlock
          intro _ _
          simp [MplruSet.moveToMRU]
  | access tag =>
      rw [step] at hStep
      cases hFind : s.find tag with
      | none =>
          rw [hFind] at hStep
          exact Option.some.inj hStep ▸ hOrder
      | some way =>
          rw [hFind] at hStep
          rw [← Option.some.inj hStep]
          exact hOrder.moveToMRU (find_lt hFind)
  | invalidate tag =>
      rw [step, invalidate] at hStep
      cases hFind : s.find tag with
      | none =>
          rw [hFind] at hStep
          exact Option.some.inj hStep ▸ hOrder
      | some way =>
          rw [hFind] at hStep
          rw [← Option.some.inj hStep]
          apply hOrder.setBlock
          intro _ hValid
          simp [CacheBlock.isValid, CacheBlock.invalidate] at hValid
  | setCState way cstate =>
      rw [← Option.some.inj hStep]
      exact hOrder.setBlock
        (fun hWay hValid => hOrder.used way hWay hValid)
  | setBlockType way blockType =>
      rw [← Option.some.inj hStep]
      exact hOrder.setBlock
        (fun hWay hValid => hOrder.used way hWay hValid)

end MplruSet

end Virtuoso
