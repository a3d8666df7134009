import Virtuoso.Mplru.Order

/-
  The victims of the strongest levels of MPLRU.

  From level 3 on, the blocks of one class are to leave before
  any of the other class. The search leaves out the way that
  was used last, so that the class is missed where this is
  its only replaceable block.

  Main declarations:
    * `MplruSet.chooses_iff`
    * `MplruSet.along_behaves_iff_along_searchable`
-/

namespace Virtuoso

namespace MplruSet

/- Every way holds a block. -/
def Full (s : MplruSet) : Prop :=
  ∀ way < s.associativity, (s.block way).isValid = true

instance (s : MplruSet) : Decidable s.Full :=
  inferInstanceAs (Decidable (∀ way < s.associativity, _))

/- A replaceable block of a class. -/
def Candidate
    (s : MplruSet)
    (ofClass : Nat → Bool)
    (way : Nat) : Prop :=
  way < s.associativity ∧ ofClass way = true ∧
    s.isValidReplacement way = true

instance
    (s : MplruSet)
    (ofClass : Nat → Bool)
    (way : Nat) :
    Decidable (s.Candidate ofClass way) :=
  inferInstanceAs (Decidable (_ ∧ _ ∧ _))

/-
  The way is a replaceable block of the class, and of these
  the one that was used least recently. The bytes of the ways
  tell the uses apart up to 256 ways.
-/
structure Prefers
    (s : MplruSet)
    (ofClass : Nat → Bool)
    (way : Nat) : Prop where
  candidate : s.Candidate ofClass way
  bits :
    ∀ other, s.Candidate ofClass other →
      s.lruBits other ≤ s.lruBits way
  lastUse :
    s.associativity ≤ 2 ^ 8 →
      ∀ other, s.Candidate ofClass other → other ≠ way →
        s.lastUse way < s.lastUse other

/- Where the class has a candidate, one is chosen. -/
def Chooses
    (s : MplruSet)
    (ofClass : Nat → Bool)
    (controller : Option Int) : Prop :=
  (∃ way, s.Candidate ofClass way) →
    ∃ way next,
      s.getReplacementIndex controller = some (way, next) ∧
        s.Prefers ofClass way

/- The policies M3, M4 and M5. -/
def dataFirst (policyId : Nat) : Prop :=
  policyId = 3 ∨ policyId = 4 ∨ policyId = 5

/- The policies D3, D4 and D5. -/
def metadataFirst (policyId : Nat) : Prop :=
  policyId = 9 ∨ policyId = 10 ∨ policyId = 11

/- What is asked of an event. -/
def Behaves (s : MplruSet) : Event → Prop
| .insert _ controller =>
    s.Full →
      (dataFirst (s.getPolicyId controller) →
        s.Chooses s.isData controller) ∧
      (metadataFirst (s.getPolicyId controller) →
        s.Chooses s.isMetadata controller)
| _ => True

/-
  Where the class has a candidate, one is not in the place of
  the way used last. Else no block that can be replaced has
  another place, and the first way is of the class.
-/
def Reaches (s : MplruSet) (ofClass : Nat → Bool) : Prop :=
  (∃ way, s.Candidate ofClass way) →
    (∃ way, s.Candidate ofClass way ∧ 0 < s.lruBits way) ∨
      (s.Candidate ofClass 0 ∧
        ∀ way < s.associativity,
          s.isValidReplacement way = true → s.lruBits way = 0)

/- The search of an insertion reaches its class. -/
def Searchable (s : MplruSet) : Event → Prop
| .insert _ controller =>
    s.Full →
      (dataFirst (s.getPolicyId controller) → s.Reaches s.isData) ∧
      (metadataFirst (s.getPolicyId controller) →
        s.Reaches s.isMetadata)
| _ => True

section Search

variable {s : MplruSet}
variable (hFull : s.Full)

include hFull

/- The search for a block of a class in a full set. -/
theorem found_cases
    (ofClass : Nat → Bool) :
    (∃ way,
      s.found (s.findLRU s.associativity (fun way =>
        (s.block way).isValid && ofClass way &&
          s.isValidReplacement way)) = some way ∧
      s.Candidate ofClass way ∧ 0 < s.lruBits way ∧
      ∀ other, s.Candidate ofClass other →
        s.lruBits other ≤ s.lruBits way) ∨
    (s.found (s.findLRU s.associativity (fun way =>
        (s.block way).isValid && ofClass way &&
          s.isValidReplacement way)) = none ∧
      ∀ other, s.Candidate ofClass other →
        s.lruBits other = 0) := by
  rcases s.findLRU_cases s.associativity (fun way =>
      (s.block way).isValid && ofClass way &&
        s.isValidReplacement way) with
    ⟨way, hFind, hWay, hAccepted, hBits, hAll⟩ | ⟨hFind, hAll⟩
  · simp only [Bool.and_eq_true] at hAccepted
    refine Or.inl ⟨way, ?_,
      ⟨hWay, hAccepted.1.2, hAccepted.2⟩, hBits, ?_⟩
    · rw [hFind, found, if_pos hWay]
    · rintro other ⟨hOther, hClass, hValid⟩
      exact hAll other hOther
        (by simp [hFull other hOther, hClass, hValid])
  · refine Or.inr ⟨?_, ?_⟩
    · rw [hFind, found, if_neg (Nat.lt_irrefl _)]
    · rintro other ⟨hOther, hClass, hValid⟩
      exact hAll other hOther
        (by simp [hFull other hOther, hClass, hValid])

theorem getReplacementIndex_of_dataFirst
    {controller : Option Int}
    (hPolicy : dataFirst (s.getPolicyId controller)) :
    s.getReplacementIndex controller =
      s.replaceFirst (s.found s.findLRUDataBlock)
        (s.found s.findLRUMetadataBlock) := by
  rw [getReplacementIndex, s.findInvalid_eq_none_iff.mpr hFull]
  rcases hPolicy with hPolicy | hPolicy | hPolicy <;>
    simp [hPolicy, protectMetadata,
      getReplacementIndexWithReservation_eq]

theorem getReplacementIndex_of_metadataFirst
    {controller : Option Int}
    (hPolicy : metadataFirst (s.getPolicyId controller)) :
    s.getReplacementIndex controller =
      s.replaceFirst (s.found s.findLRUMetadataBlock)
        (s.found s.findLRUDataBlock) := by
  rw [getReplacementIndex, s.findInvalid_eq_none_iff.mpr hFull]
  rcases hPolicy with hPolicy | hPolicy | hPolicy <;>
    simp [hPolicy, protectData,
      getReplacementIndexWithDataReservation_eq]

/- The first way is the victim where no byte is above zero. -/
theorem getLRUReplacementIndex_of_zero
    (hSome : 0 < s.associativity)
    (hZero :
      ∀ way < s.associativity,
        s.isValidReplacement way = true → s.lruBits way = 0) :
    s.getLRUReplacementIndex = s.replace 0 := by
  have hIndex : s.findLRU 0 s.isValidReplacement = 0 := by
    rcases s.findLRU_cases 0 s.isValidReplacement with
      ⟨way, -, hWay, hValid, hBits, -⟩ | ⟨hStart, -⟩
    · rw [hZero way hWay hValid] at hBits
      exact absurd hBits (Nat.lt_irrefl 0)
    · exact hStart
  rw [getLRUReplacementIndex, s.findInvalid_eq_none_iff.mpr hFull]
  dsimp only
  rw [hIndex, if_pos hSome]

/- The victim with the largest byte was used first. -/
theorem prefers_of_bits
    (hOrder : s.Ordered)
    {ofClass : Nat → Bool}
    {way : Nat}
    (hCandidate : s.Candidate ofClass way)
    (hBits :
      ∀ other, s.Candidate ofClass other →
        s.lruBits other ≤ s.lruBits way) :
    s.Prefers ofClass way where
  candidate := hCandidate
  bits := hBits
  lastUse hFew other hOther hNe :=
    hOrder.lastUse_lt hFew hCandidate.1 hOther.1
      (hFull way hCandidate.1) hNe (hBits other hOther)

/-
  A search of one class before the other chooses well exactly
  where it can reach a block of the class.
-/
theorem prefers_iff_reaches
    (hOrder : s.Ordered)
    {ofClass others : Nat → Bool}
    (hOthers : ∀ way, others way = !ofClass way)
    {first second : Option Nat}
    (hFirst :
      first = s.found (s.findLRU s.associativity (fun way =>
        (s.block way).isValid && ofClass way &&
          s.isValidReplacement way)))
    (hSecond :
      second = s.found (s.findLRU s.associativity (fun way =>
        (s.block way).isValid && others way &&
          s.isValidReplacement way))) :
    ((∃ way, s.Candidate ofClass way) →
      ∃ way next,
        s.replaceFirst first second = some (way, next) ∧
          s.Prefers ofClass way) ↔
      s.Reaches ofClass := by
  rw [Reaches]
  apply imp_congr_right
  rintro ⟨any, hAny⟩
  rcases found_cases hFull ofClass with
    ⟨way, hFound, hCandidate, hPositive, hAll⟩ | ⟨hNone, hZero⟩
  · -- The search of the class ends at its victim.
    apply iff_of_true
    · refine ⟨way, s.moveToMRU way, ?_,
        prefers_of_bits hFull hOrder hCandidate hAll⟩
      rw [hFirst, hFound]
      rfl
    · exact Or.inl ⟨way, hCandidate, hPositive⟩
  · rw [hFirst, hNone]
    rcases found_cases hFull others with
      ⟨way, hFound, hCandidate, hPositive, -⟩ | ⟨hNone', hZero'⟩
    · -- A block of the other class is the victim.
      apply iff_of_false
      · rintro ⟨way', next, hEq, hPrefers⟩
        rw [hSecond, hFound, replaceFirst, replace,
          Option.some.injEq, Prod.mk.injEq] at hEq
        have hClass := hPrefers.candidate.2.1
        have hOther := hCandidate.2.1
        rw [hOthers, hEq.1, hClass] at hOther
        cases hOther
      · rintro (⟨way', hClass, hBits⟩ | ⟨-, hAll⟩)
        · rw [hZero way' hClass] at hBits
          exact absurd hBits (Nat.lt_irrefl 0)
        · rw [hAll way hCandidate.1 hCandidate.2.2] at hPositive
          exact absurd hPositive (Nat.lt_irrefl 0)
    · -- Plain LRU finds none of the blocks either.
      have hEvery :
          ∀ way < s.associativity,
            s.isValidReplacement way = true →
              s.lruBits way = 0 := by
        intro way hWay hValid
        cases hClass : ofClass way with
        | true => exact hZero way ⟨hWay, hClass, hValid⟩
        | false =>
            exact hZero' way
              ⟨hWay, by rw [hOthers, hClass]; rfl, hValid⟩
      have hVictim : s.replaceFirst none second = s.replace 0 := by
        rw [hSecond, hNone']
        exact getLRUReplacementIndex_of_zero hFull
          (Nat.zero_lt_of_lt hAny.1) hEvery
      rw [hVictim]
      constructor
      · rintro ⟨way, next, hEq, hPrefers⟩
        rw [replace, Option.some.injEq, Prod.mk.injEq] at hEq
        exact Or.inr ⟨hEq.1 ▸ hPrefers.candidate, hEvery⟩
      · rintro (⟨way, hClass, hBits⟩ | ⟨hClass, -⟩)
        · rw [hZero way hClass] at hBits
          exact absurd hBits (Nat.lt_irrefl 0)
        · refine ⟨0, _, rfl, prefers_of_bits hFull hOrder hClass ?_⟩
          intro other hOther
          rw [hZero other hOther]
          exact Nat.zero_le _

end Search

theorem chooses_data_iff
    {s : MplruSet}
    (hFull : s.Full)
    (hOrder : s.Ordered)
    {controller : Option Int}
    (hPolicy : dataFirst (s.getPolicyId controller)) :
    s.Chooses s.isData controller ↔ s.Reaches s.isData := by
  rw [Chooses, getReplacementIndex_of_dataFirst hFull hPolicy]
  apply prefers_iff_reaches hFull hOrder _ rfl rfl
  intro way
  rw [isData, Bool.not_not]
  rfl

theorem chooses_metadata_iff
    {s : MplruSet}
    (hFull : s.Full)
    (hOrder : s.Ordered)
    {controller : Option Int}
    (hPolicy : metadataFirst (s.getPolicyId controller)) :
    s.Chooses s.isMetadata controller ↔ s.Reaches s.isMetadata := by
  rw [Chooses, getReplacementIndex_of_metadataFirst hFull hPolicy]
  exact prefers_iff_reaches hFull hOrder (fun _ => rfl) rfl rfl

theorem behaves_iff_searchable
    {s : MplruSet}
    (hOrder : s.Ordered)
    (e : Event) :
    s.Behaves e ↔ s.Searchable e := by
  cases e with
  | insert b controller =>
      apply imp_congr_right
      intro hFull
      apply and_congr
      · apply imp_congr_right
        exact chooses_data_iff hFull hOrder
      · apply imp_congr_right
        exact chooses_metadata_iff hFull hOrder
  | access tag => rfl
  | invalidate tag => rfl
  | setCState way cstate => rfl
  | setBlockType way blockType => rfl

/-
  Whatever happens to a set, its insertions choose well if and
  only if each of them can reach a block of its class.
-/
theorem along_behaves_iff_along_searchable
    (associativity : Nat)
    (mode : MetadataPriorityMode)
    (events : List Event) :
    Run.Along step Behaves (create associativity mode) events ↔
      Run.Along step Searchable (create associativity mode)
        events := by
  apply Run.along_iff_along (I := Ordered) (E := fun _ _ => True)
  · intro s e next hOrder _ _ hStep
    exact ordered_step hOrder hStep
  · intro s e hOrder _
    exact behaves_iff_searchable hOrder e
  · exact ordered_create associativity mode
  · exact Run.along_of_forall_mem _ (fun _ _ => trivial)

/- Two ways, with metadata and then data inserted. -/
def metadataThenData : MplruSet :=
  ((((create 2 .always).moveToMRU 0).setBlock 0
    ⟨1, .shared, .pageTableData⟩).moveToMRU 1).setBlock 1
      ⟨2, .shared, .data⟩

/- The metadata leaves, since the data was used last. -/
theorem not_along_behaves_metadataThenData :
    ¬ Run.Along step Behaves (create 2 .always)
        [ .insert ⟨1, .shared, .pageTableData⟩ none,
          .insert ⟨2, .shared, .data⟩ none,
          .insert ⟨3, .shared, .data⟩ none ] := by
  intro hAlong
  have hThird :
      metadataThenData.Behaves (.insert ⟨3, .shared, .data⟩ none) :=
    ((hAlong.2 _ rfl).2 _ rfl).1
  rcases (hThird (by decide +kernel)).1 (Or.inl rfl)
      ⟨1, by decide +kernel⟩ with
    ⟨way, next, hIndex, hPrefers⟩
  have hVictim :
      (metadataThenData.getReplacementIndex none).map
        Prod.fst = some 0 := by
    decide +kernel
  rw [hIndex, Option.map_some, Option.some.injEq] at hVictim
  dsimp only at hVictim
  have hData := hPrefers.candidate.2.1
  rw [hVictim] at hData
  exact absurd hData (by decide +kernel)

end MplruSet

end Virtuoso
