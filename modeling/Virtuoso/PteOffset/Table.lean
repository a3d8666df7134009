import Virtuoso.Lib.Run
import Virtuoso.PteOffset.Codec

/-
  The slots of `pte_offset_codec.h` as a table of offsets and
  how often they were met.

  An update adds one to the confidence of its offset, or puts
  it into a slot of the lowest confidence. Where encoding and
  decoding are inverse, no offset is ever in two slots. They
  are for an offset of any width that is read back, which
  signed offsets of 65 bits and more are not, nor are
  negative ones of 64 bits.

  Main declarations:
    * `PTEOffsetConfig.victim_spec`
    * `PTEOffsetConfig.frequency_run`
-/

------------------------------------------------------------
-- Updates
------------------------------------------------------------

namespace Virtuoso

namespace PTEOffsetConfig

/- The updates of an entry. -/
inductive Op
  | encodeUpdate (newDelta initConf : BitVec 32)
  | decayAllConf
deriving DecidableEq

/- One update of an entry. -/
def step
    (cfg : PTEOffsetConfig)
    (v : BitVec 128) :
    Op → Option (BitVec 128)
| .encodeUpdate newDelta initConf =>
    cfg.encodeUpdate v newDelta initConf
| .decayAllConf => cfg.decayAllConf v

/- An offset that is not zero, and a possible confidence. -/
def Permitted (cfg : PTEOffsetConfig) : Op → Prop
| .encodeUpdate newDelta initConf =>
    cfg.RepresentableDelta newDelta ∧ newDelta ≠ 0#32 ∧
      ∃ m ∈ cfg.maxConf, initConf ≤ m
| .decayAllConf => True

variable {cfg : PTEOffsetConfig}
variable {es es' : List PTEOffsetEntry}

/- No offset but zero is in two slots. -/
def Unique (es : List PTEOffsetEntry) : Prop :=
  ∀ (i j : Nat) (e e' : PTEOffsetEntry),
    es[i]? = some e → es[j]? = some e' →
      e.deltaVpn = e'.deltaVpn → e.deltaVpn ≠ 0#32 → i = j

/-
  One slot has the offset, with one more match or taken from
  an entry of the lowest confidence; the others are as they
  were.
-/
def Updates
    (cfg : PTEOffsetConfig)
    (newDelta initConf : BitVec 32)
    (es es' : List PTEOffsetEntry) : Prop :=
  ∃ (i : Nat) (e' : PTEOffsetEntry),
    es'[i]? = some e' ∧ e'.deltaVpn = newDelta ∧
    (∀ (j : Nat) (e : PTEOffsetEntry), es'[j]? = some e →
      e.deltaVpn = newDelta → j = i) ∧
    (∀ j, j ≠ i → es'[j]? = es[j]?) ∧
    ((∃ e : PTEOffsetEntry, ∃ m ∈ cfg.maxConf,
        es[i]? = some e ∧ e.deltaVpn = newDelta ∧
        e'.conf.toNat = min (e.conf.toNat + 1) m.toNat) ∨
      ((∀ e ∈ es, e.deltaVpn ≠ newDelta) ∧
        e'.conf = initConf ∧
        ∃ old : PTEOffsetEntry, es[i]? = some old ∧
          ∀ e ∈ es, old.conf ≤ e.conf))

/- The first slot of the lowest confidence. -/
theorem foldl_lowest
    (es : List PTEOffsetEntry)
    (k : Nat)
    (best : Nat × BitVec 32) :
    let found := (es.zipIdx k).foldl
      (fun (best : Nat × BitVec 32) entry =>
        if entry.1.conf < best.2 then (entry.2, entry.1.conf)
        else best) best
    (found = best ∨
      ∃ j e, es[j]? = some e ∧ found = (k + j, e.conf)) ∧
      found.2 ≤ best.2 ∧ ∀ e ∈ es, found.2 ≤ e.conf := by
  induction es generalizing k best with
  | nil => simp
  | cons e es ih =>
      rw [List.zipIdx_cons, List.foldl_cons]
      by_cases hLower : e.conf < best.2
      · rw [if_pos hLower]
        rcases ih (k + 1) (k, e.conf) with
          ⟨hFound, hBest, hAll⟩
        refine ⟨Or.inr ?_, ?_, ?_⟩
        · rcases hFound with hEq | ⟨j, e', hGet, hEq⟩
          · exact ⟨0, e, rfl, hEq⟩
          · refine ⟨j + 1, e', hGet, hEq.trans ?_⟩
            rw [Nat.add_assoc, Nat.add_comm 1 j]
        · exact BitVec.le_trans hBest (BitVec.le_of_lt hLower)
        · intro e' hMem
          rcases List.mem_cons.mp hMem with hEq | hRest
          · rw [hEq]
            exact hBest
          · exact hAll e' hRest
      · rw [if_neg hLower]
        rcases ih (k + 1) best with ⟨hFound, hBest, hAll⟩
        refine ⟨?_, hBest, ?_⟩
        · rcases hFound with hEq | ⟨j, e', hGet, hEq⟩
          · exact Or.inl hEq
          · refine Or.inr ⟨j + 1, e', hGet, hEq.trans ?_⟩
            rw [Nat.add_assoc, Nat.add_comm 1 j]
        · intro e' hMem
          rcases List.mem_cons.mp hMem with hEq | hRest
          · rw [hEq]
            exact BitVec.le_trans hBest (BitVec.not_lt.mp hLower)
          · exact hAll e' hRest

theorem victim_spec
    (hSome : es ≠ []) :
    ∃ old, es[victim es]? = some old ∧
      ∀ e ∈ es, old.conf ≤ e.conf := by
  cases es with
  | nil => exact absurd rfl hSome
  | cons first rest =>
      rw [victim]
      rcases foldl_lowest rest 1 (0, first.conf) with
        ⟨hFound, hBest, hAll⟩
      rcases hFound with hEq | ⟨j, e', hGet, hEq⟩
      · rw [hEq] at hBest hAll ⊢
        refine ⟨first, rfl, ?_⟩
        intro e hMem
        rcases List.mem_cons.mp hMem with hHead | hRest
        · rw [hHead]
          exact hBest
        · exact hAll e hRest
      · rw [hEq] at hBest hAll ⊢
        refine ⟨e', ?_, ?_⟩
        · rw [Nat.add_comm 1 j, List.getElem?_cons_succ]
          exact hGet
        · intro e hMem
          rcases List.mem_cons.mp hMem with hHead | hRest
          · rw [hHead]
            exact hBest
          · exact hAll e hRest

/- The law of an update keeps the offsets apart. -/
theorem Updates.unique
    {newDelta initConf : BitVec 32}
    (hUpdates : cfg.Updates newDelta initConf es es')
    (hUnique : Unique es) :
    Unique es' := by
  rcases hUpdates with
    ⟨i, e₀, hGet₀, hDelta₀, hOnly, hOther, -⟩
  intro j k e e' hGet hGet' hSame hSome
  by_cases hJ : j = i
  · subst hJ
    rw [hGet₀, Option.some.injEq] at hGet
    rw [← hGet, hDelta₀] at hSame
    exact (hOnly k e' hGet' hSame.symm).symm
  · by_cases hK : k = i
    · subst hK
      rw [hGet₀, Option.some.injEq] at hGet'
      rw [← hGet', hDelta₀] at hSame
      exact hOnly j e hGet hSame
    · rw [hOther j hJ] at hGet
      rw [hOther k hK] at hGet'
      exact hUnique j k e e' hGet hGet' hSame hSome

theorem unique_decay
    (hUnique : Unique es) :
    Unique (es.map decay) := by
  have hDelta : ∀ e, (decay e).deltaVpn = e.deltaVpn := by
    intro e
    rw [decay]
    split_ifs <;> rfl
  intro i j e e' hGet hGet' hSame hSome
  rw [List.getElem?_map] at hGet hGet'
  rcases Option.map_eq_some_iff.mp hGet with
    ⟨old, hOld, hEq⟩
  rcases Option.map_eq_some_iff.mp hGet' with
    ⟨old', hOld', hEq'⟩
  rw [← hEq, hDelta] at hSame hSome
  rw [← hEq', hDelta] at hSame
  exact hUnique i j old old' hOld hOld' hSame hSome

theorem toNat_bump
    {m conf : BitVec 32}
    (hLe : conf ≤ m) :
    (bump m conf).toNat = min (conf.toNat + 1) m.toNat := by
  have hLe' : conf.toNat ≤ m.toNat := hLe
  rw [bump]
  split_ifs with hLess
  · have hLess' : conf.toNat < m.toNat := hLess
    have hMax := m.isLt
    rw [BitVec.toNat_add, BitVec.toNat_ofNat]
    omega
  · have hEq : ¬ conf.toNat < m.toNat := hLess
    omega

theorem getElem?_modify_here
    {f : PTEOffsetEntry → PTEOffsetEntry}
    {e : PTEOffsetEntry}
    {i : Nat}
    (hGet : es[i]? = some e) :
    (es.modify i f)[i]? = some (f e) := by
  simp [hGet]

theorem getElem?_modify_other
    {f : PTEOffsetEntry → PTEOffsetEntry}
    {i j : Nat}
    (hNe : j ≠ i) :
    (es.modify i f)[j]? = es[j]? := by
  simp [Ne.symm hNe]

/- The entries after an update of an offset. -/
theorem updated_spec
    {newDelta m : BitVec 32}
    (initConf : BitVec 32)
    (hMax : cfg.maxConf = some m)
    (hSome : es ≠ [])
    (hUnique : Unique es)
    (hConf : ∀ e ∈ es, e.conf ≤ m)
    (hDelta : newDelta ≠ 0#32) :
    ∃ es', cfg.updated es newDelta initConf = some es' ∧
      cfg.Updates newDelta initConf es es' := by
  rw [updated]
  cases hFind : es.findIdx?
      (fun e => decide (e.deltaVpn = newDelta)) with
  | some i =>
      rcases List.findIdx?_eq_some_iff_getElem.mp hFind with
        ⟨hLt, hTest, -⟩
      have hGet := List.getElem?_eq_getElem hLt
      have hHere : (es[i]).deltaVpn = newDelta :=
        of_decide_eq_true hTest
      rw [hMax]
      refine ⟨_, rfl, i, _, getElem?_modify_here hGet, hHere,
        ?_, fun j hNe => getElem?_modify_other hNe, Or.inl
          ⟨es[i], m, hMax, hGet, hHere,
            toNat_bump (hConf _ (List.getElem_mem hLt))⟩⟩
      intro j e hGet' hEq
      by_contra hNe
      rw [getElem?_modify_other hNe] at hGet'
      exact hNe (hUnique j i e _ hGet' hGet
        (hEq.trans hHere.symm) (hEq ▸ hDelta))
  | none =>
      have hAbsent : ∀ e ∈ es, e.deltaVpn ≠ newDelta := by
        intro e hMem
        simpa using List.findIdx?_eq_none_iff.mp hFind e hMem
      rcases victim_spec hSome with ⟨old, hGet, hLowest⟩
      refine ⟨_, rfl, victim es, ⟨newDelta, initConf⟩,
        getElem?_modify_here hGet, rfl, ?_,
        fun j hNe => getElem?_modify_other hNe, Or.inr
          ⟨hAbsent, rfl, old, hGet, hLowest⟩⟩
      intro j e hGet' hEq
      by_contra hNe
      rw [getElem?_modify_other hNe] at hGet'
      exact hAbsent e (List.mem_of_getElem? hGet') hEq

------------------------------------------------------------
-- Runs
------------------------------------------------------------

/-
  An operation has an outcome that keeps the law of the
  table.
-/
def FrequencyLaw
    (cfg : PTEOffsetConfig)
    (v : BitVec 128)
    (op : Op) : Prop :=
  ∃ es v' es', cfg.decode v = some es ∧
    cfg.step v op = some v' ∧ cfg.decode v' = some es' ∧
    Unique es' ∧
    (∀ e ∈ es', ∃ m ∈ cfg.maxConf, e.conf ≤ m) ∧
    match op with
    | .encodeUpdate newDelta initConf =>
        cfg.Updates newDelta initConf es es'
    | .decayAllConf => es' = es.map decay

/-
  The slots fit, the largest confidence is a word, and a
  signed offset has at most 64 bits.
-/
structure Sound (cfg : PTEOffsetConfig) : Prop where
  fits : cfg.Fits
  conf : cfg.confBits.toNat < 32
  storable : cfg.Storable 0#32

/- The offset of an update is read back. -/
def Reads (cfg : PTEOffsetConfig) : Op → Prop
| .encodeUpdate newDelta _ => cfg.Storable newDelta
| .decayAllConf => True

/- The entries of a payload, which can all be written. -/
structure Holds
    (cfg : PTEOffsetConfig)
    (v : BitVec 128)
    (es : List PTEOffsetEntry) : Prop where
  decode_eq : cfg.decode v = some es
  entries : ∀ e ∈ es, cfg.Representable e ∧ cfg.Storable e.deltaVpn
  unique : Unique es

theorem holds_zero
    (hSound : cfg.Sound)
    (hAccepted : cfg.Accepted) :
    cfg.Holds 0#128
      (List.replicate cfg.numEntries.toNat ⟨0#32, 0#32⟩) where
  decode_eq := by
    rw [decode_eq_some_iff]
    refine ⟨List.length_replicate, ?_⟩
    intro i e hGet
    rcases List.getElem?_eq_some_iff.mp hGet with ⟨hLt, hEq⟩
    rw [List.getElem_replicate] at hEq
    rw [List.length_replicate] at hLt
    subst hEq
    refine decodeSlot_of_bits hSound.fits hAccepted hLt
      representable_zero hSound.storable ?_
    intro p _
    simp [slotBits, entryBit]
  entries := by
    intro e hMem
    rw [List.eq_of_mem_replicate hMem]
    exact ⟨representable_zero, hSound.storable⟩
  unique := by
    intro i j e e' hGet _ _ hSome
    rw [List.eq_of_mem_replicate
      (List.mem_of_getElem? hGet)] at hSome
    exact absurd rfl hSome

variable {v : BitVec 128} {m : BitVec 32}

/- The confidences of representable entries. -/
theorem le_maxConf_iff
    {conf : BitVec 32}
    (hConf : cfg.confBits.toNat < 32)
    (hMax : cfg.maxConf = some m) :
    conf ≤ m ↔ conf.toNat < 2 ^ cfg.confBits.toNat := by
  rcases exists_maxConf hConf with ⟨c, hSome, hNat⟩
  rw [hMax, Option.some.injEq] at hSome
  subst hSome
  have hPos := Nat.two_pow_pos cfg.confBits.toNat
  rw [BitVec.le_def, hNat]
  omega

/- Entries that are written are held, and no others. -/
theorem Holds.encodeAll
    (hSound : cfg.Sound)
    (hAccepted : cfg.Accepted)
    (hLength : es'.length = cfg.numEntries.toNat)
    (hEntries : ∀ e ∈ es', cfg.Representable e ∧
      cfg.Storable e.deltaVpn)
    (hUnique : Unique es') :
    ∃ v', cfg.encodeAll v es' = some v' ∧ cfg.Holds v' es' := by
  rcases decode_encodeAll v hSound.fits hAccepted hLength
      hEntries with ⟨v', hSome, hDecode, -⟩
  exact ⟨v', hSome, hDecode, hEntries, hUnique⟩

/- The law of an operation whose outcome is held. -/
theorem Holds.confs
    (hSound : cfg.Sound)
    (hHolds : cfg.Holds v es) :
    ∀ e ∈ es, ∃ m ∈ cfg.maxConf, e.conf ≤ m := by
  intro e hMem
  rcases exists_maxConf hSound.conf with ⟨m, hMax, -⟩
  exact ⟨m, hMax, (le_maxConf_iff hSound.conf hMax).mpr
    (hHolds.entries e hMem).1.2⟩

theorem holds_encodeUpdate
    {newDelta initConf : BitVec 32}
    (hSound : cfg.Sound)
    (hAccepted : cfg.Accepted)
    (hPermitted : cfg.Permitted (.encodeUpdate newDelta initConf))
    (hReads : cfg.Storable newDelta)
    (hHolds : cfg.Holds v es) :
    ∃ v' es',
      cfg.encodeUpdate v newDelta initConf = some v' ∧
        cfg.Holds v' es' ∧
        cfg.Updates newDelta initConf es es' := by
  rcases hPermitted with ⟨hRange, hNonzero, m, hMax, hInit⟩
  have hLength := (decode_eq_some_iff.mp hHolds.decode_eq).1
  have hSome : es ≠ [] := by
    intro hEmpty
    have hPos := hAccepted.numEntries_pos
    rw [← hLength, hEmpty] at hPos
    exact Nat.lt_irrefl 0 hPos
  have hConf : ∀ e ∈ es, e.conf ≤ m :=
    fun e hMem => (le_maxConf_iff hSound.conf hMax).mpr
      (hHolds.entries e hMem).1.2
  rcases updated_spec initConf hMax hSome
      hHolds.unique hConf hNonzero with
    ⟨es', hUpdated, hUpdates⟩
  rcases exists_updated es newDelta initConf hSound.conf with
    ⟨other, hOther, hSame⟩
  rw [hUpdated, Option.some.injEq] at hOther
  subst hOther
  have hEntries : ∀ e ∈ es', cfg.Representable e ∧
      cfg.Storable e.deltaVpn := by
    rcases hUpdates with
      ⟨i, e', hGet, hDelta, -, hRest, hCases⟩
    intro e hMem
    rcases List.getElem?_of_mem hMem with ⟨j, hGet'⟩
    by_cases hHere : j = i
    · rw [hHere, hGet, Option.some.injEq] at hGet'
      subst hGet'
      rw [hDelta]
      refine ⟨⟨hDelta ▸ hRange, ?_⟩, hReads⟩
      rw [← le_maxConf_iff hSound.conf hMax]
      rcases hCases with
        ⟨old, m', hMax', -, -, hBump⟩ | ⟨-, hNew, -⟩
      · have hEq : m' = m :=
          Option.some.inj (hMax'.symm.trans hMax)
        subst hEq
        rw [BitVec.le_def, hBump]
        exact Nat.min_le_right _ _
      · rw [hNew]
        exact hInit
    · rw [hRest j hHere] at hGet'
      exact hHolds.entries e (List.mem_of_getElem? hGet')
  rcases Holds.encodeAll (v := v) hSound hAccepted
      (hSame.trans hLength) hEntries
      (hUpdates.unique hHolds.unique) with
    ⟨v', hEncode, hHolds'⟩
  refine ⟨v', es', ?_, hHolds', hUpdates⟩
  simp only [encodeUpdate, hHolds.decode_eq, hUpdated,
    Option.bind_eq_bind, Option.bind_some]
  exact hEncode

theorem holds_decayAllConf
    (hSound : cfg.Sound)
    (hAccepted : cfg.Accepted)
    (hHolds : cfg.Holds v es) :
    ∃ v', cfg.decayAllConf v = some v' ∧
      cfg.Holds v' (es.map decay) := by
  have hLength := (decode_eq_some_iff.mp hHolds.decode_eq).1
  rw [decayAllConf]
  split_ifs with hNone
  · have hSame : es.map decay = es := by
      refine (List.map_congr_left ?_).trans (List.map_id es)
      intro e hMem
      have hConf := (hHolds.entries e hMem).1.2
      rw [hNone] at hConf
      have hLess : e.conf.toNat < 1 := hConf
      have hZero : ¬ 0#32 < e.conf :=
        Nat.not_lt.mpr (Nat.le_of_lt_succ hLess)
      exact if_neg hZero
    rw [hSame]
    exact ⟨v, rfl, hHolds⟩
  · have hEntries : ∀ e ∈ es.map decay,
        cfg.Representable e ∧ cfg.Storable e.deltaVpn := by
      intro e hMem
      rcases List.mem_map.mp hMem with ⟨old, hOld, hEq⟩
      rcases hHolds.entries old hOld with
        ⟨⟨hRange, hConf⟩, hStorable⟩
      rw [← hEq, decay]
      split_ifs with hSome
      · refine ⟨⟨hRange, ?_⟩, hStorable⟩
        have hPos : 0 < old.conf.toNat := hSome
        have hLess : (old.conf - 1#32).toNat =
            old.conf.toNat - 1 := by
          have hMax := old.conf.isLt
          rw [BitVec.toNat_sub]
          simp only [BitVec.toNat_ofNat]
          omega
        simp only
        omega
      · exact ⟨⟨hRange, hConf⟩, hStorable⟩
    rcases Holds.encodeAll (v := v) hSound hAccepted
        ((List.length_map decay).trans hLength) hEntries
        (unique_decay hHolds.unique) with
      ⟨v', hEncode, hHolds'⟩
    refine ⟨v', ?_, hHolds'⟩
    simp only [hHolds.decode_eq, Option.bind_eq_bind,
      Option.bind_some]
    exact hEncode

/- One operation keeps the law and what is held. -/
theorem frequencyLaw_step
    {op : Op}
    (hSound : cfg.Sound)
    (hAccepted : cfg.Accepted)
    (hPermitted : cfg.Permitted op)
    (hReads : cfg.Reads op)
    (hHolds : cfg.Holds v es) :
    cfg.FrequencyLaw v op ∧
      ∃ v' es', cfg.step v op = some v' ∧ cfg.Holds v' es' := by
  cases op with
  | encodeUpdate newDelta initConf =>
      rcases holds_encodeUpdate hSound hAccepted hPermitted
          hReads hHolds with
        ⟨v', es', hStep, hHolds', hUpdates⟩
      exact ⟨⟨es, v', es', hHolds.decode_eq, hStep,
        hHolds'.decode_eq, hHolds'.unique,
        hHolds'.confs hSound, hUpdates⟩,
        v', es', hStep, hHolds'⟩
  | decayAllConf =>
      rcases holds_decayAllConf hSound hAccepted hHolds with
        ⟨v', hStep, hHolds'⟩
      exact ⟨⟨es, v', es.map decay, hHolds.decode_eq, hStep,
        hHolds'.decode_eq, hHolds'.unique,
        hHolds'.confs hSound, rfl⟩,
        v', es.map decay, hStep, hHolds'⟩

/-
  Every run from the zero payload keeps the law of the table,
  if the slots fit and every offset is read back.
-/
theorem frequency_run
    (cfg : PTEOffsetConfig)
    (ops : List Op)
    (hAccepted : cfg.Accepted)
    (hSound : cfg.Sound)
    (hPermitted : ∀ op ∈ ops, cfg.Permitted op)
    (hReads : ∀ op ∈ ops, cfg.Reads op) :
    Run.Along cfg.step cfg.FrequencyLaw 0#128 ops := by
  have hZero := holds_zero hSound hAccepted
  generalize 0#128 = v at hZero ⊢
  generalize List.replicate cfg.numEntries.toNat
    (⟨0#32, 0#32⟩ : PTEOffsetEntry) = es at hZero
  induction ops generalizing v es with
  | nil => trivial
  | cons op ops ih =>
      rcases frequencyLaw_step hSound hAccepted
          (hPermitted op (by simp)) (hReads op (by simp))
          hZero with ⟨hLaw, v', es', hStep, hHolds'⟩
      refine ⟨hLaw, ?_⟩
      intro other hOther
      have hEq : v' = other :=
        Option.some.inj (hStep.symm.trans hOther)
      subst hEq
      exact ih (fun op hMem => hPermitted op (by simp [hMem]))
        (fun op hMem => hReads op (by simp [hMem])) _ _ hHolds'

/- An offset is met twice, decays and is joined by another. -/
theorem frequency_run_four :
    Run.Along (step ⟨4, 12, 3, 5, true⟩)
      (FrequencyLaw ⟨4, 12, 3, 5, true⟩) 0#128
      [.encodeUpdate (-3#32) 1#32, .encodeUpdate (-3#32) 1#32,
        .decayAllConf, .encodeUpdate 7#32 2#32] :=
  frequency_run ⟨4, 12, 3, 5, true⟩ _ (by decide)
    ⟨by decide, by decide, by decide⟩
    (by
      intro op hMem
      simp only [List.mem_cons, List.not_mem_nil, or_false] at hMem
      rcases hMem with hEq | hEq | hEq | hEq <;> subst hEq
      · exact ⟨by decide, by decide, 7#32, rfl, by decide⟩
      · exact ⟨by decide, by decide, 7#32, rfl, by decide⟩
      · trivial
      · exact ⟨by decide, by decide, 7#32, rfl, by decide⟩)
    (by
      intro op hMem
      simp only [List.mem_cons, List.not_mem_nil, or_false] at hMem
      rcases hMem with hEq | hEq | hEq | hEq <;> subst hEq
      · exact fun _ => Or.inl (by decide)
      · exact fun _ => Or.inl (by decide)
      · trivial
      · exact fun _ => Or.inl (by decide))

/-
  A signed offset of 65 bits in a slot of 66 is never read:
  its sign bit is a shift by 64 of a word of 64 bits.
-/
theorem not_frequency_wide :
    Accepted ⟨1, 65, 1, 0, true⟩ ∧
      Permitted ⟨1, 65, 1, 0, true⟩ (.encodeUpdate 5#32 1#32) ∧
      step ⟨1, 65, 1, 0, true⟩ 0#128 (.encodeUpdate 5#32 1#32) =
        none ∧
      ¬ Run.Along (step ⟨1, 65, 1, 0, true⟩)
        (FrequencyLaw ⟨1, 65, 1, 0, true⟩) 0#128
        [.encodeUpdate 5#32 1#32] := by
  refine ⟨by decide, ⟨by decide, by decide, 1#32, rfl,
    by decide⟩, by decide, ?_⟩
  rintro ⟨⟨es, v', es', hDecode, -⟩, -⟩
  have hNone : decode ⟨1, 65, 1, 0, true⟩ 0#128 = none := by
    decide
  rw [hNone] at hDecode
  cases hDecode

end PTEOffsetConfig

end Virtuoso
