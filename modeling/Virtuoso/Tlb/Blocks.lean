import Virtuoso.Tlb.Basic

/-
  The blocks of a TLB.

  Every valid block lies in the set of its tag, and its tag
  is the tag of an address, so that the address of a victim
  has the same tag again. An insertion replaces one block of
  the set, and an access that finds nothing shows that no
  page of the address is held.

  Main declarations:
    * `Tlb.insertSingleLineTLB_spec`
    * `Tlb.Placed.not_holds_of_find`
-/

namespace Virtuoso

namespace TlbBlock

theorem isFor_iff
    {b : TlbBlock}
    {tag : BitVec 64}
    {pageSize : Nat} :
    b.isFor tag pageSize = true ↔
      b.tag = tag ∧ b.pageSize = pageSize := by
  simp [isFor]

theorem isValid_iff
    {b : TlbBlock} :
    b.isValid = true ↔ b.tag ≠ BitVec.allOnes 64 := by
  simp [isValid]

end TlbBlock

namespace Tlb

variable {σ : Type} {t t' : Tlb σ}

/- The block in a way of a set. -/
def blockAt (t : Tlb σ) (set way : Nat) : Option TlbBlock :=
  (t.sets[set]?).bind (fun s => s[way]?)

/- A valid block of the page is in the TLB. -/
def Holds
    (t : Tlb σ)
    (tag : BitVec 64)
    (pageSize : Nat) : Prop :=
  ∃ set way b, t.blockAt set way = some b ∧
    b.isValid = true ∧ b.isFor tag pageSize = true

/- The tag is the one of an address under its page size. -/
def TagFits (b : TlbBlock) : Prop :=
  tagOf (b.tag <<< b.pageSize) b.pageSize = b.tag

/- The blocks that were inserted are in their sets. -/
structure Placed (t : Tlb σ) : Prop where
  shared : ∀ set way b, t.blockAt set way = some b →
    b.isValid = true → b.shared = true
  index : ∀ set way b, t.blockAt set way = some b →
    b.shared = true → set = t.setIndex b.tag
  fits : ∀ set way b, t.blockAt set way = some b →
    b.shared = true → TagFits b

/- Without a prefetch queue, page sizes are supported. -/
structure Shaped (t : Tlb σ) : Prop extends Placed t where
  supported : t.config.prefetch = false →
    ∀ set way b, t.blockAt set way = some b →
      b.isValid = true → b.pageSize ∈ t.config.pageSizes

variable {b : TlbBlock}

theorem Placed.index_of_valid
    (hPlaced : Placed t)
    {set way : Nat}
    (hBlock : t.blockAt set way = some b)
    (hValid : b.isValid = true) :
    set = t.setIndex b.tag :=
  hPlaced.index set way b hBlock
    (hPlaced.shared set way b hBlock hValid)

theorem Placed.fits_of_valid
    (hPlaced : Placed t)
    {set way : Nat}
    (hBlock : t.blockAt set way = some b)
    (hValid : b.isValid = true) :
    TagFits b :=
  hPlaced.fits set way b hBlock
    (hPlaced.shared set way b hBlock hValid)

theorem blockAt_eq_getD
    (set way : Nat) :
    t.blockAt set way = (t.sets.getD set [])[way]? := by
  unfold blockAt
  rw [List.getD_eq_getElem?_getD]
  cases t.sets[set]? with
  | none => simp
  | some s => rfl

/- The blocks after one of them was replaced. -/
theorem blockAt_setBlock
    {set way : Nat}
    {old : TlbBlock}
    (hOld : t.blockAt set way = some old)
    (block : TlbBlock)
    (k i : Nat) :
    (t.setBlock set way block).blockAt k i =
      if k = set ∧ i = way then some block
      else t.blockAt k i := by
  rcases Option.bind_eq_some_iff.mp hOld with
    ⟨s, hSet, hWay⟩
  rcases List.getElem?_eq_some_iff.mp hWay with ⟨hLt, -⟩
  simp only [blockAt, setBlock, List.getElem?_modify]
  by_cases hSame : k = set
  · subst hSame
    simp only [hSet, Option.map_eq_map, Option.map_some,
      Option.bind_some, true_and, if_true, List.getElem?_set]
    by_cases hWays : i = way
    · subst hWays
      simp only [if_true, hLt]
    · simp only [if_neg (Ne.symm hWays), if_neg hWays]
  · simp only [if_neg (Ne.symm hSame), hSame, false_and,
      if_false, Option.map_eq_map, Option.map_id_fun', id_eq]

/- Shifting a tag back and forth keeps the tag. -/
theorem tagFits_tagOf
    (address : BitVec 64)
    (pageSize : Nat) :
    tagOf (tagOf address pageSize <<< pageSize) pageSize =
      tagOf address pageSize := by
  unfold tagOf
  apply BitVec.eq_of_toNat_eq
  simp only [BitVec.toNat_ushiftRight, BitVec.toNat_shiftLeft,
    Nat.shiftRight_eq_div_pow, Nat.shiftLeft_eq]
  have hLt : address.toNat / 2 ^ pageSize * 2 ^ pageSize < 2 ^ 64 :=
    Nat.lt_of_le_of_lt (Nat.div_mul_le_self _ _) address.isLt
  rw [Nat.mod_eq_of_lt hLt,
    Nat.mul_div_cancel _ (Nat.two_pow_pos pageSize)]

/-
  An insertion of a page replaces the way that the policy
  selects in the set of the page.
-/
structure Inserts
    (t : Tlb σ)
    (address : BitVec 64)
    (pageSize ppn : Nat)
    (way : Nat)
    (old : TlbBlock)
    (t' : Tlb σ) : Prop where
  chosen : ∃ next,
    t.policy.getReplacementIndex t.replacement
      (t.setIndex (tagOf address pageSize))
      (t.sets.getD (t.setIndex (tagOf address pageSize)) []) =
        some (way, next)
  before :
    t.blockAt (t.setIndex (tagOf address pageSize)) way = some old
  after : ∀ k i, t'.blockAt k i =
    if k = t.setIndex (tagOf address pageSize) ∧ i = way then
      some ⟨tagOf address pageSize, pageSize, ppn, true⟩
    else
      t.blockAt k i
  config : t'.config = t.config
  policy : t'.policy = t.policy

theorem insertSingleLineTLB_spec
    {address : BitVec 64}
    {pageSize ppn : Nat}
    {evicted : Option TlbBlock}
    (hInsert : t.insertSingleLineTLB address pageSize ppn =
      some (evicted, t')) :
    ∃ way old, Inserts t address pageSize ppn way old t' ∧
      evicted = if old.isValid then some old else none := by
  unfold insertSingleLineTLB at hInsert
  simp only at hInsert
  split at hInsert
  · cases hInsert
  · next way next hChosen =>
      split at hInsert
      · cases hInsert
      · next old hWay =>
          simp only [Option.some.injEq, Prod.mk.injEq] at hInsert
          have hBefore :
              t.blockAt (t.setIndex (tagOf address pageSize))
                way = some old := by
            rw [blockAt_eq_getD]
            exact hWay
          refine ⟨way, old,
            ⟨⟨next, hChosen⟩, hBefore, ?_, ?_, ?_⟩,
            hInsert.1.symm⟩
          · intro k i
            rw [← hInsert.2]
            exact blockAt_setBlock
              (t := { t with replacement := next }) hBefore _
              k i
          · rw [← hInsert.2]
            rfl
          · rw [← hInsert.2]
            rfl

variable {address : BitVec 64} {pageSize ppn way : Nat}
variable {old : TlbBlock}

theorem Inserts.setIndex
    (hInserts : Inserts t address pageSize ppn way old t')
    (tag : BitVec 64) :
    t'.setIndex tag = t.setIndex tag := by
  unfold Tlb.setIndex
  rw [hInserts.config]

theorem Inserts.placed
    (hPlaced : Placed t)
    (hInserts : Inserts t address pageSize ppn way old t') :
    Placed t' := by
  refine ⟨?_, ?_, ?_⟩
  · intro k i b hBlock hValid
    rw [hInserts.after] at hBlock
    split_ifs at hBlock with hNew
    · cases hBlock
      rfl
    · exact hPlaced.shared k i b hBlock hValid
  · intro k i b hBlock hShared
    rw [hInserts.setIndex]
    rw [hInserts.after] at hBlock
    split_ifs at hBlock with hNew
    · cases hBlock
      exact hNew.1
    · exact hPlaced.index k i b hBlock hShared
  · intro k i b hBlock hShared
    rw [hInserts.after] at hBlock
    split_ifs at hBlock with hNew
    · cases hBlock
      exact tagFits_tagOf address pageSize
    · exact hPlaced.fits k i b hBlock hShared

theorem Inserts.shaped
    (hShaped : Shaped t)
    (hInserts : Inserts t address pageSize ppn way old t')
    (hSupports : t.config.prefetch = false →
      pageSize ∈ t.config.pageSizes) :
    Shaped t' := by
  refine ⟨hInserts.placed hShaped.toPlaced, ?_⟩
  intro hPlain k i b hBlock hValid
  rw [hInserts.config] at hPlain ⊢
  rw [hInserts.after] at hBlock
  split_ifs at hBlock with hNew
  · cases hBlock
    exact hSupports hPlain
  · exact hShaped.supported hPlain k i b hBlock hValid

/- The pages that are held after an insertion. -/
theorem Inserts.holds
    (hInserts : Inserts t address pageSize ppn way old t')
    {tag : BitVec 64}
    {size : Nat}
    (hHolds : t'.Holds tag size) :
    (tagOf address pageSize = tag ∧ pageSize = size) ∨
      t.Holds tag size := by
  rcases hHolds with ⟨k, i, b, hBlock, hValid, hFor⟩
  rw [hInserts.after] at hBlock
  split_ifs at hBlock with hNew
  · cases hBlock
    exact Or.inl (TlbBlock.isFor_iff.mp hFor)
  · exact Or.inr ⟨k, i, b, hBlock, hValid, hFor⟩

/- Only the block of the way that is replaced can vanish. -/
theorem Inserts.kept
    (hInserts : Inserts t address pageSize ppn way old t')
    {k i : Nat}
    (hBlock : t.blockAt k i = some b)
    (hOther : ¬ (k = t.setIndex (tagOf address pageSize) ∧
      i = way)) :
    t'.blockAt k i = some b := by
  rw [hInserts.after, if_neg hOther]
  exact hBlock

theorem findTLB_eq_none_iff
    {set : List TlbBlock}
    {tag : BitVec 64} :
    findTLB set tag pageSize = none ↔
      ∀ b ∈ set, b.isFor tag pageSize = false := by
  unfold findTLB
  rw [List.findSome?_eq_none_iff]
  constructor
  · intro hNone b hMem
    rcases List.mem_iff_getElem?.mp hMem with ⟨i, hGet⟩
    have hEntry := hNone (b, i) (by
      rw [List.mem_reverse]
      exact List.mk_mem_zipIdx_iff_getElem?.mpr hGet)
    by_contra hFor
    rw [Bool.not_eq_false] at hFor
    rw [if_pos hFor] at hEntry
    cases hEntry
  · intro hNone e hMem
    rw [List.mem_reverse] at hMem
    have hGet := List.mem_zipIdx_iff_getElem?.mp hMem
    rw [hNone e.1 (List.mem_of_getElem? hGet)]
    exact if_neg Bool.false_ne_true

theorem findTLB_eq_some
    {set : List TlbBlock}
    {tag : BitVec 64}
    (hFind : findTLB set tag pageSize = some (way, b)) :
    set[way]? = some b ∧ b.isFor tag pageSize = true := by
  rcases List.exists_of_findSome?_eq_some hFind with
    ⟨e, hMem, hEntry⟩
  rw [List.mem_reverse] at hMem
  have hGet := List.mem_zipIdx_iff_getElem?.mp hMem
  split_ifs at hEntry with hFor
  simp only [Option.some.injEq, Prod.mk.injEq] at hEntry
  rw [← hEntry.1, ← hEntry.2]
  exact ⟨hGet, hFor⟩

/- Blocks of a page are found in the set of its tag. -/
theorem Placed.findTLB_of_holds
    (hPlaced : Placed t)
    {tag : BitVec 64}
    (hHolds : t.Holds tag pageSize) :
    ∃ way b,
      findTLB (t.sets.getD (t.setIndex tag) []) tag pageSize =
          some (way, b) ∧
        b.shared = true := by
  rcases hHolds with ⟨k, i, b, hBlock, hValid, hFor⟩
  have hSet := hPlaced.index_of_valid hBlock hValid
  rcases TlbBlock.isFor_iff.mp hFor with ⟨hTag, hSize⟩
  rw [hTag] at hSet
  subst hSet
  have hTagValid := TlbBlock.isValid_iff.mp hValid
  rw [hTag] at hTagValid
  cases hFind : findTLB (t.sets.getD (t.setIndex tag) []) tag
      pageSize with
  | none =>
      rw [blockAt_eq_getD] at hBlock
      have hNone := findTLB_eq_none_iff.mp hFind b
        (List.mem_of_getElem? hBlock)
      rw [hFor] at hNone
      cases hNone
  | some r =>
      rcases r with ⟨i', b'⟩
      rcases findTLB_eq_some hFind with ⟨hGet, hFor'⟩
      refine ⟨i', b', rfl, ?_⟩
      apply hPlaced.shared (t.setIndex tag) i' b'
      · rw [blockAt_eq_getD]
        exact hGet
      · rw [TlbBlock.isValid_iff, (TlbBlock.isFor_iff.mp hFor').1]
        exact hTagValid

/- A failed search has looked at every page size. -/
theorem Placed.not_holds_of_find
    (hPlaced : Placed t)
    {address : BitVec 64}
    {sizes : List Nat}
    (hFind : t.findSingleLineTLB address sizes = none) :
    ∀ size ∈ sizes, ¬ t.Holds (tagOf address size) size := by
  induction sizes with
  | nil => simp
  | cons size sizes ih =>
      rw [findSingleLineTLB] at hFind
      intro other hMem hHolds
      rcases List.mem_cons.mp hMem with hHere | hLater
      · subst hHere
        rcases hPlaced.findTLB_of_holds hHolds with
          ⟨i, b, hFound, hShared⟩
        simp only [hFound, hShared, if_true] at hFind
        cases hFind
      · split at hFind
        · exact ih hFind other hLater hHolds
        · split_ifs at hFind
          exact ih hFind other hLater hHolds

/- An access changes no block. -/
theorem accessSingleLineTLB_kept
    (t : Tlb σ)
    (address : BitVec 64) :
    (t.accessSingleLineTLB address).2.sets = t.sets ∧
      (t.accessSingleLineTLB address).2.config = t.config ∧
      (t.accessSingleLineTLB address).2.policy = t.policy ∧
      (t.accessSingleLineTLB address).2.queue = t.queue := by
  unfold accessSingleLineTLB
  split
  · exact ⟨rfl, rfl, rfl, rfl⟩
  · exact ⟨rfl, rfl, rfl, rfl⟩

theorem find_of_access
    {address : BitVec 64}
    (hMiss : (t.accessSingleLineTLB address).1 = none) :
    t.findSingleLineTLB address t.config.pageSizes = none := by
  unfold accessSingleLineTLB at hMiss
  split at hMiss
  · assumption
  · cases hMiss

/- Put one prediction into the queue. -/
def pushEntry (t : Tlb σ) (e : QueryEntry) : Tlb σ :=
  let region := regionId e.address
  { t with
    queue := t.queue ++ [e]
    regionRefcount := Function.update t.regionRefcount
      region (t.regionRefcount region + 1) }

/- What each prediction that is queued keeps is kept. -/
theorem enqueue_inv
    {P : Tlb σ → Prop}
    (outputs : List (List QueryEntry))
    (hPush : ∀ t e, P t →
      t.queue.length < t.config.maxPrefetchCount →
        (∃ batch ∈ outputs, e ∈ batch) → P (t.pushEntry e))
    {t : Tlb σ}
    (hOld : P t) :
    P (t.enqueue outputs) := by
  refine List.foldlRecOn outputs _ hOld ?_
  intro t hKept batch hBatch
  split_ifs
  · exact hKept
  · refine List.foldlRecOn batch _ hKept ?_
    intro t hKept e hMem
    split_ifs with hSkip
    · exact hKept
    · exact hPush t e hKept (by omega) ⟨batch, hBatch, hMem⟩

/- Queueing predictions changes no block. -/
theorem enqueue_kept
    (t : Tlb σ)
    (outputs : List (List QueryEntry)) :
    (t.enqueue outputs).sets = t.sets ∧
      (t.enqueue outputs).config = t.config ∧
      (t.enqueue outputs).policy = t.policy :=
  enqueue_inv (P := fun t' => t'.sets = t.sets ∧
      t'.config = t.config ∧ t'.policy = t.policy) outputs
    (fun _ _ hKept _ _ => hKept) ⟨rfl, rfl, rfl⟩

/- What the places of the blocks depend on. -/
theorem Placed.of_sets
    (hPlaced : Placed t)
    (hSets : t'.sets = t.sets)
    (hConfig : t'.config = t.config) :
    Placed t' := by
  have hBlock : ∀ k i, t'.blockAt k i = t.blockAt k i := by
    intro k i
    rw [blockAt, hSets]
    rfl
  have hIndex : ∀ tag, t'.setIndex tag = t.setIndex tag := by
    intro tag
    rw [setIndex, hConfig]
    rfl
  refine ⟨?_, ?_, ?_⟩
  · intro k i b hSome hValid
    exact hPlaced.shared k i b (hBlock k i ▸ hSome) hValid
  · intro k i b hSome hShared
    rw [hIndex]
    exact hPlaced.index k i b (hBlock k i ▸ hSome) hShared
  · intro k i b hSome hShared
    exact hPlaced.fits k i b (hBlock k i ▸ hSome) hShared

theorem Shaped.of_sets
    (hShaped : Shaped t)
    (hSets : t'.sets = t.sets)
    (hConfig : t'.config = t.config) :
    Shaped t' := by
  refine ⟨hShaped.toPlaced.of_sets hSets hConfig, ?_⟩
  intro hPlain k i b hSome hValid
  rw [hConfig] at hPlain ⊢
  rw [blockAt, hSets] at hSome
  exact hShaped.supported hPlain k i b hSome hValid

/- The blocks of a new TLB are empty. -/
theorem blockAt_construct
    {config : TlbConfig}
    {policy : Replacement σ}
    {replacement : σ}
    (hConstruct : construct config policy replacement = some t)
    {k i : Nat}
    (hBlock : t.blockAt k i = some b) :
    b = TlbBlock.empty := by
  unfold construct at hConstruct
  split_ifs at hConstruct
  rw [← Option.some.inj hConstruct] at hBlock
  rcases Option.bind_eq_some_iff.mp hBlock with
    ⟨set, hSet, hWay⟩
  have hEmpty := List.eq_of_mem_replicate
    (List.mem_of_getElem? hSet)
  rw [hEmpty] at hWay
  exact List.eq_of_mem_replicate (List.mem_of_getElem? hWay)

theorem shaped_construct
    {config : TlbConfig}
    {policy : Replacement σ}
    {replacement : σ}
    (hConstruct : construct config policy replacement = some t) :
    Shaped t := by
  refine ⟨⟨?_, ?_, ?_⟩, ?_⟩
  · intro k i b hBlock hValid
    rw [blockAt_construct hConstruct hBlock] at hValid
    cases hValid
  · intro k i b hBlock hShared
    rw [blockAt_construct hConstruct hBlock] at hShared
    cases hShared
  · intro k i b hBlock hShared
    rw [blockAt_construct hConstruct hBlock] at hShared
    cases hShared
  · intro _ k i b hBlock hValid
    rw [blockAt_construct hConstruct hBlock] at hValid
    cases hValid

end Tlb

end Virtuoso
