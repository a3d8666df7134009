import Mathlib.Data.List.TakeWhile
import Virtuoso.Lib.Probe
import Virtuoso.PageTable.Ht.Runs

/-
  The entry counter of the chained page table and the number
  of occupied root slots. An update counts every empty entry
  it fills, also behind a root; a resize counts the entries
  that it chains; a deletion counts nothing.

  Main declarations:
    * `Ht.occupiedRoots`
    * `Ht.along_counted_iff`
-/

------------------------------------------------------------
-- Root Slots And Resizing
------------------------------------------------------------

namespace Virtuoso

namespace Ht

variable {c : Config}

/- The tag of the root entry of a chain. -/
def headTag (chain : List Entry) : Option Nat :=
  chain.head?.bind Entry.tag

/- The tag in the first entry of a chain. -/
def rootTag
    (buckets : Nat → List Entry)
    (j : Nat) :
    Option Nat :=
  headTag (buckets j)

/- The root slots that hold a tag. -/
def occupiedRoots (t : Table) : Nat :=
  Probe.occupied t.size (rootTag t.buckets)

@[simp] theorem headTag_cons
    (e : Entry)
    (rest : List Entry) :
    headTag (e :: rest) = e.tag := rfl

theorem rootTag_update
    (buckets : Nat → List Entry)
    (idx : Nat)
    (chain : List Entry) :
    rootTag (Function.update buckets idx chain) =
      Function.update (rootTag buckets) idx (headTag chain) := by
  funext j
  exact Function.apply_update (fun _ chain => headTag chain)
    buckets idx chain j

theorem hashFunction_lt
    {size : Nat}
    (hPos : 0 < size)
    (tag : Nat) :
    hashFunction c tag size < size :=
  Nat.mod_lt _ hPos

/- No two of the tags share a bucket. -/
def Scattered
    (c : Config)
    (size : Nat)
    (tags : List Nat) : Prop :=
  ∀ x ∈ tags, ∀ y ∈ tags,
    hashFunction c x size = hashFunction c y size → x = y

instance
    (c : Config)
    (size : Nat)
    (tags : List Nat) :
    Decidable (Scattered c size tags) :=
  inferInstanceAs (Decidable (∀ x ∈ tags, ∀ y ∈ tags, _))

/-
  A table under construction that has taken in `tags`: each
  root has the first tag of its bucket, and entries that were
  chained are counted besides the roots.
-/
structure Rebuilds
    (c : Config)
    (size : Nat)
    (tags : List Nat)
    (r : Rebuilt) : Prop where
  nonempty : ∀ j, r.buckets j ≠ []
  vacant : ∀ j, rootTag r.buckets j = none →
    ∀ x ∈ tags, hashFunction c x size ≠ j
  rooted : ∀ j x, rootTag r.buckets j = some x →
    x ∈ tags ∧ hashFunction c x size = j
  le : Probe.occupied size (rootTag r.buckets) ≤ r.entryCount
  exact_iff :
    r.entryCount = Probe.occupied size (rootTag r.buckets) ↔
      Scattered c size tags

theorem rebuilds_fresh
    (c : Config)
    (size tablePa kernelStartAddress : Nat) :
    Rebuilds c size []
      ⟨freshBuckets tablePa, 0, kernelStartAddress⟩ := by
  have hNone : rootTag (freshBuckets tablePa) = fun _ => none := rfl
  constructor
  · intro j
    exact List.cons_ne_nil _ _
  · intro j _ x hMem
    cases hMem
  · intro j x hSome
    cases hSome
  · rw [hNone, Probe.occupied_empty]
  · simp only [hNone, Probe.occupied_empty, true_iff]
    intro x hMem
    cases hMem

/- A tag in a vacant bucket shares it with no other tag. -/
theorem scattered_append_vacant
    {size : Nat}
    {tags : List Nat}
    {x : Nat}
    (hVacant : ∀ y ∈ tags,
      hashFunction c y size ≠ hashFunction c x size) :
    Scattered c size (tags ++ [x]) ↔ Scattered c size tags := by
  constructor
  · intro hAll y hY z hZ
    exact hAll y (by simp [hY]) z (by simp [hZ])
  · intro hAll y hY z hZ hSame
    rcases List.mem_append.mp hY with hY | hY
    · rcases List.mem_append.mp hZ with hZ | hZ
      · exact hAll y hY z hZ hSame
      · rw [List.mem_singleton.mp hZ] at hSame
        exact absurd hSame (hVacant y hY)
    · rw [List.mem_singleton.mp hY] at hSame ⊢
      rcases List.mem_append.mp hZ with hZ | hZ
      · exact absurd hSame.symm (hVacant z hZ)
      · exact (List.mem_singleton.mp hZ).symm

/- A tag that is there already changes nothing. -/
theorem scattered_append_mem
    {size : Nat}
    {tags : List Nat}
    {x : Nat}
    (hMem : x ∈ tags) :
    Scattered c size (tags ++ [x]) ↔ Scattered c size tags := by
  have hSame : ∀ y, y ∈ tags ++ [x] ↔ y ∈ tags := by
    intro y
    rw [List.mem_append, List.mem_singleton]
    constructor
    · rintro (hY | hEq)
      · exact hY
      · exact hEq ▸ hMem
    · exact Or.inl
  unfold Scattered
  simp only [hSame]

section Steps

variable {size idx x : Nat} {tags : List Nat}
variable {r : Rebuilt} {chain : List Entry}

/- Buckets stay nonempty when one is replaced by a chain. -/
theorem Rebuilds.nonempty_update
    (hRebuilds : Rebuilds c size tags r)
    (hChain : chain ≠ [])
    (j : Nat) :
    Function.update r.buckets idx chain j ≠ [] := by
  by_cases hEq : j = idx
  · rw [hEq, Function.update_self]
    exact hChain
  · rw [Function.update_of_ne hEq]
    exact hRebuilds.nonempty j

/- The first entry of a bucket becomes its root. -/
theorem Rebuilds.fill
    (hRebuilds : Rebuilds c size tags r)
    (hPos : 0 < size)
    (hIdx : hashFunction c x size = idx)
    (hRoot : rootTag r.buckets idx = none)
    (hChain : chain ≠ [])
    (hHead : headTag chain = some x) :
    Rebuilds c size (tags ++ [x])
      { r with
        buckets := Function.update r.buckets idx chain
        entryCount := r.entryCount + 1 } := by
  have hRoots : rootTag (Function.update r.buckets idx
      chain) = Function.update (rootTag r.buckets) idx
        (some x) := by
    rw [rootTag_update, hHead]
  have hCount := Probe.occupied_update
    (hIdx ▸ hashFunction_lt hPos x) hRoot x
  have hLe := hRebuilds.le
  constructor
  · exact hRebuilds.nonempty_update hChain
  · intro j hNone y hMem hEq
    rw [hRoots] at hNone
    by_cases hJ : j = idx
    · rw [hJ, Function.update_self] at hNone
      cases hNone
    · rw [Function.update_of_ne hJ] at hNone
      rcases List.mem_append.mp hMem with hOld | hNew
      · exact hRebuilds.vacant j hNone y hOld hEq
      · rw [List.mem_singleton.mp hNew] at hEq
        exact hJ (hEq.symm.trans hIdx)
  · intro j y hSome
    rw [hRoots] at hSome
    by_cases hJ : j = idx
    · rw [hJ, Function.update_self] at hSome
      cases hSome
      exact ⟨by simp, hIdx.trans hJ.symm⟩
    · rw [Function.update_of_ne hJ] at hSome
      rcases hRebuilds.rooted j y hSome with ⟨hMem, hHash⟩
      exact ⟨by simp [hMem], hHash⟩
  · simp only [hRoots, hCount]
    omega
  · simp only [hRoots, hCount]
    rw [scattered_append_vacant (fun y hMem => by
      rw [hIdx]
      exact hRebuilds.vacant idx hRoot y hMem),
      ← hRebuilds.exact_iff]
    omega

/- A further entry of a bucket leaves its root. -/
theorem Rebuilds.keep
    (hRebuilds : Rebuilds c size tags r)
    (hIdx : hashFunction c x size = idx)
    {y : Nat}
    (hRoot : rootTag r.buckets idx = some y)
    (hChain : chain ≠ [])
    (hHead : headTag chain = some y)
    {entryCount : Nat}
    (hLe : r.entryCount ≤ entryCount)
    (hExact :
      entryCount = Probe.occupied size (rootTag r.buckets) ↔
        Scattered c size (tags ++ [x]))
    (kernelStartAddress : Nat) :
    Rebuilds c size (tags ++ [x])
      ⟨Function.update r.buckets idx chain, entryCount,
        kernelStartAddress⟩ := by
  have hRoots : rootTag (Function.update r.buckets idx
      chain) = rootTag r.buckets := by
    rw [rootTag_update, hHead, ← hRoot]
    exact Function.update_eq_self _ _
  have hCount := hRebuilds.le
  constructor
  · exact hRebuilds.nonempty_update hChain
  · intro j hNone z hMem hEq
    rw [hRoots] at hNone
    rcases List.mem_append.mp hMem with hOld | hNew
    · exact hRebuilds.vacant j hNone z hOld hEq
    · rw [List.mem_singleton.mp hNew, hIdx] at hEq
      rw [← hEq, hRoot] at hNone
      cases hNone
  · intro j z hSome
    rw [hRoots] at hSome
    rcases hRebuilds.rooted j z hSome with ⟨hMem, hHash⟩
    exact ⟨by simp [hMem], hHash⟩
  · simp only [hRoots]
    omega
  · simp only [hRoots]
    exact hExact

/- One entry of the old table is taken in. -/
theorem Rebuilds.rehashEntry
    (hRebuilds : Rebuilds c size tags r)
    (hPos : 0 < size)
    {e : Entry}
    (hTag : e.tag = some x) :
    Rebuilds c size (tags ++ [x]) (rehashEntry c size r e) := by
  unfold Ht.rehashEntry
  simp only [hTag, Option.getD_some]
  cases hBucket : r.buckets (hashFunction c x size) with
  | nil => exact absurd hBucket (hRebuilds.nonempty _)
  | cons dst rest =>
      have hRoot : rootTag r.buckets
          (hashFunction c x size) = dst.tag := by
        rw [rootTag, hBucket, headTag_cons]
      simp only
      by_cases hEmpty : dst.tag = none
      · rw [if_pos hEmpty]
        exact hRebuilds.fill hPos rfl (hRoot.trans hEmpty)
          (List.cons_ne_nil _ _) rfl
      · rw [if_neg hEmpty]
        rcases Option.ne_none_iff_exists'.mp hEmpty with
          ⟨y, hY⟩
        have hMem := hRebuilds.rooted _ y (hRoot.trans hY)
        by_cases hSame : dst.tag = some x
        · rw [if_pos hSame]
          have hHead : headTag (dst.merge e :: rest) = some x :=
            hSame
          refine hRebuilds.keep rfl (hRoot.trans hSame)
            (List.cons_ne_nil _ _) hHead (Nat.le_refl _) ?_ _
          rw [hSame] at hY
          cases hY
          rw [scattered_append_mem hMem.1]
          exact hRebuilds.exact_iff
        · rw [if_neg hSame]
          have hHead : headTag (dst :: rest ++
              [{ e with
                  tag := some x
                  emulatedPhysicalAddress :=
                    (handleFineGrainedPageTableAllocations
                      r.kernelStartAddress 64).1 }]) =
                some y := hY
          refine hRebuilds.keep rfl (hRoot.trans hY)
            (by simp) hHead (Nat.le_succ _) ?_ _
          -- The root has another tag of the same bucket.
          have hLe := hRebuilds.le
          constructor
          · intro hEq
            omega
          · intro hAll
            have hEq := hAll y (by simp [hMem.1]) x (by simp) hMem.2
            rw [hEq] at hY
            exact absurd hY hSame

end Steps

/- All entries of the old table are taken in. -/
theorem Rebuilds.foldl
    {size : Nat}
    (hPos : 0 < size)
    {es : List Entry}
    (hTagged : ∀ e ∈ es, e.tag.isSome = true)
    {tags : List Nat}
    {r : Rebuilt}
    (hRebuilds : Rebuilds c size tags r) :
    Rebuilds c size (tags ++ es.filterMap Entry.tag)
      (es.foldl (Ht.rehashEntry c size) r) := by
  induction es generalizing tags r with
  | nil => simpa using hRebuilds
  | cons e es ih =>
      rcases Option.isSome_iff_exists.mp
          (hTagged e (by simp)) with ⟨x, hTag⟩
      have hNext := ih
        (fun e' hMem =>
          hTagged e' (List.mem_cons_of_mem e hMem))
        (hRebuilds.rehashEntry hPos hTag)
      rw [List.append_assoc] at hNext
      rw [List.filterMap_cons_some hTag, List.foldl_cons]
      exact hNext

/- The tags that a resize takes to the new table. -/
def tagsOf (t : Table) : List Nat :=
  (entriesOf t).filterMap Entry.tag

variable {t : Table}

theorem tagged_entriesOf
    {e : Entry}
    (hMem : e ∈ entriesOf t) :
    e.tag.isSome = true := by
  rcases List.mem_flatMap.mp hMem with ⟨j, -, hChain⟩
  exact List.mem_takeWhile_imp
    (p := fun e : Entry => e.tag.isSome) hChain

/- The counter of a table is exact. -/
def Exact (t : Table) : Prop :=
  t.entryCount = occupiedRoots t

/- A table that can be used: every bucket has a root. -/
structure Usable (t : Table) : Prop where
  size_pos : 0 < t.size
  nonempty : ∀ j, t.buckets j ≠ []

/- A resize counts the roots if no bucket gets two tags. -/
theorem resizeTable_counts
    (hPos : 0 < t.size)
    (kernelStartAddress : Nat) :
    Usable (resizeTable c t kernelStartAddress).1 ∧
      (Exact (resizeTable c t kernelStartAddress).1 ↔
        Scattered c (t.size * c.resizeFactor) (tagsOf t)) := by
  have hNew : 0 < t.size * c.resizeFactor := by
    have := c.two_le_resizeFactor
    exact Nat.mul_pos hPos (by omega)
  have hRebuilds := Rebuilds.foldl hNew
    (fun e hMem => tagged_entriesOf (t := t) hMem)
    (rebuilds_fresh c (t.size * c.resizeFactor)
      (handlePageTableAllocations kernelStartAddress
        (t.size * c.resizeFactor * 64)).1
      (handlePageTableAllocations kernelStartAddress
        (t.size * c.resizeFactor * 64)).2)
  exact ⟨⟨hNew, hRebuilds.nonempty⟩, hRebuilds.exact_iff⟩

------------------------------------------------------------
-- Updates, Deletions And Runs
------------------------------------------------------------

/-
  The update of a translation reaches an empty entry before
  an entry of its block that lacks it.
-/
def fills (tag : Nat) (offset : Fin 8) : List Entry → Bool
| [] => false
| e :: rest =>
    decide (e.tag = none) ||
      (!(decide (e.tag = some tag) && !e.valid offset) &&
        fills tag offset rest)

/- What an update does to the tags of a chain. -/
structure Writes
    (tag : Nat)
    (offset : Fin 8)
    (chain : List Entry)
    (updated : Outcome × List Entry) : Prop where
  filled_iff : updated.1 = .filled ↔ fills tag offset chain = true
  nonempty : updated.2 ≠ []
  head : headTag updated.2 = (headTag chain).or (some tag)
  tags : updated.1 = .filled →
    (updated.2.takeWhile (fun e => e.tag.isSome)).filterMap
        Entry.tag =
      (chain.takeWhile (fun e => e.tag.isSome)).filterMap
        Entry.tag ++ [tag]

theorem updateChain_writes
    (tag : Nat)
    (offset : Fin 8)
    (ppn address : Nat)
    {chain : List Entry}
    (hChain : chain ≠ []) :
    Writes tag offset chain
      (updateChain tag offset ppn address chain) := by
  induction chain with
  | nil => exact absurd rfl hChain
  | cons e rest ih =>
      rw [updateChain]
      by_cases hEmpty : e.tag = none
      · rw [if_pos hEmpty]
        refine ⟨?_, by simp, ?_, ?_⟩
        · simp [fills, hEmpty]
        · simp [hEmpty, Entry.single]
        · intro _
          simp [hEmpty, Entry.single]
      · rw [if_neg hEmpty]
        rcases Option.ne_none_iff_exists'.mp hEmpty with
          ⟨own, hOwn⟩
        by_cases hClaim : e.tag = some tag ∧ e.valid offset = false
        · rw [if_pos hClaim]
          refine ⟨?_, by simp, ?_, fun hFilled => ?_⟩
          · simp [fills, hClaim]
          · simp [hOwn, Entry.put]
          · cases hFilled
        · rw [if_neg hClaim]
          have hFills : fills tag offset (e :: rest) =
              fills tag offset rest := by
            rw [not_and] at hClaim
            by_cases hTag : e.tag = some tag
            · simp [fills, hTag, hClaim hTag]
            · simp [fills, hTag, hEmpty]
          cases rest with
          | nil =>
              refine ⟨?_, by simp, ?_, fun hFilled => ?_⟩
              · rw [hFills]
                simp [fills]
              · simp [hOwn]
              · cases hFilled
          | cons next rest =>
              have hRest := ih (List.cons_ne_nil _ _)
              simp only [List.isEmpty_cons,
                Bool.false_eq_true, if_false]
              refine ⟨?_, by simp, ?_, fun hFilled => ?_⟩
              · rw [hFills]
                exact hRest.filled_iff
              · simp [hOwn]
              · have hTags := hRest.tags hFilled
                rw [List.takeWhile_cons_of_pos (by simp [hOwn]),
                  List.takeWhile_cons_of_pos (by simp [hOwn]),
                  List.filterMap_cons_some hOwn,
                  List.filterMap_cons_some hOwn, hTags,
                  List.cons_append]

/- The tags that a resize takes from one chain. -/
def chainTags (chain : List Entry) : List Nat :=
  (chain.takeWhile (fun e => e.tag.isSome)).filterMap Entry.tag

theorem mem_tagsOf
    {x : Nat} :
    x ∈ tagsOf t ↔ ∃ j < t.size, x ∈ chainTags (t.buckets j) := by
  simp only [tagsOf, entriesOf, chainTags,
    List.filterMap_flatMap, List.mem_flatMap, List.mem_range]

theorem scattered_congr
    {size : Nat}
    {tags tags' : List Nat}
    (hSame : ∀ x, x ∈ tags ↔ x ∈ tags') :
    Scattered c size tags ↔ Scattered c size tags' := by
  unfold Scattered
  simp only [hSame]

/- Filling an entry adds its tag to those of the table. -/
theorem mem_tagsOf_update
    {idx tag : Nat}
    {chain : List Entry}
    (hIdx : idx < t.size)
    (hTags : chainTags chain = chainTags (t.buckets idx) ++ [tag])
    (entryCount x : Nat) :
    x ∈ tagsOf
        { t with
          buckets := Function.update t.buckets idx chain
          entryCount := entryCount } ↔
      x ∈ tag :: tagsOf t := by
  rw [List.mem_cons, mem_tagsOf, mem_tagsOf]
  simp only
  constructor
  · rintro ⟨j, hJ, hMem⟩
    by_cases hEq : j = idx
    · rw [hEq, Function.update_self, hTags, List.mem_append,
        List.mem_singleton] at hMem
      rcases hMem with hOld | hNew
      · exact Or.inr ⟨idx, hIdx, hOld⟩
      · exact Or.inl hNew
    · rw [Function.update_of_ne hEq] at hMem
      exact Or.inr ⟨j, hJ, hMem⟩
  · rintro (hNew | ⟨j, hJ, hMem⟩)
    · refine ⟨idx, hIdx, ?_⟩
      rw [Function.update_self, hTags, hNew]
      simp
    · by_cases hEq : j = idx
      · refine ⟨idx, hIdx, ?_⟩
        rw [Function.update_self, hTags, ← hEq]
        simp [hMem]
      · refine ⟨j, hJ, ?_⟩
        rw [Function.update_of_ne hEq]
        exact hMem

/-
  An update that is counted: one that fills no entry, one that
  fills a root, and one after which a resize gives every tag a
  bucket of its own.
-/
def CountedUpdate
    (c : Config)
    (t : Table)
    (vpn : Nat) : Prop :=
  let tag := vpn / 8
  let idx := hashFunction c tag t.size
  fills tag (blockOffset vpn) (t.buckets idx) = true →
    if c.crossed (t.entryCount + 1) t.size = true then
      Scattered c (t.size * c.resizeFactor) (tag :: tagsOf t)
    else
      rootTag t.buckets idx = none

instance
    (c : Config)
    (t : Table)
    (vpn : Nat) :
    Decidable (CountedUpdate c t vpn) :=
  inferInstanceAs (Decidable (_ → ite _ _ _))

theorem Usable.update
    (hUsable : Usable t)
    {idx : Nat}
    {chain : List Entry}
    (hChain : chain ≠ [])
    (entryCount : Nat) :
    Usable
      { t with
        buckets := Function.update t.buckets idx chain
        entryCount := entryCount } := by
  refine ⟨hUsable.size_pos, fun j => ?_⟩
  by_cases hEq : j = idx
  · simp only [hEq, Function.update_self]
    exact hChain
  · simp only [Function.update_of_ne hEq]
    exact hUsable.nonempty j

/- A root is counted once, when it is first filled. -/
theorem occupiedRoots_update
    {idx tag : Nat}
    (hIdx : idx < t.size)
    {chain : List Entry}
    (hHead : headTag chain = (rootTag t.buckets idx).or (some tag))
    (entryCount : Nat) :
    occupiedRoots
        { t with
          buckets := Function.update t.buckets idx chain
          entryCount := entryCount } =
      occupiedRoots t +
        if rootTag t.buckets idx = none then 1 else 0 := by
  unfold occupiedRoots
  simp only [rootTag_update, hHead]
  cases hRoot : rootTag t.buckets idx with
  | none =>
      simp only [Option.none_or, if_true]
      exact Probe.occupied_update hIdx hRoot tag
  | some own =>
      rw [Option.some_or, ← hRoot, Function.update_eq_self]
      simp [hRoot]

/- An empty root is filled. -/
theorem fills_of_root
    {tag : Nat}
    {offset : Fin 8}
    {chain : List Entry}
    (hChain : chain ≠ [])
    (hHead : headTag chain = none) :
    fills tag offset chain = true := by
  cases chain with
  | nil => exact absurd rfl hChain
  | cons e rest =>
      rw [headTag_cons] at hHead
      simp [fills, hHead]

/- The tables after an update, and whether it was counted. -/
theorem updateTable_counts
    (hUsable : Usable t)
    (hExact : Exact t)
    (vpn ppn kernelStartAddress : Nat) :
    Usable (updateTable c t vpn ppn kernelStartAddress).1 ∧
      (Exact (updateTable c t vpn ppn kernelStartAddress).1 ↔
        CountedUpdate c t vpn) := by
  have hIdx := hashFunction_lt (c := c) hUsable.size_pos (vpn / 8)
  have hWrites := updateChain_writes (vpn / 8)
    (blockOffset vpn) ppn
    (handleFineGrainedPageTableAllocations kernelStartAddress 64).1
    (hUsable.nonempty (hashFunction c (vpn / 8) t.size))
  have hRoots := occupiedRoots_update hIdx hWrites.head
  have hUsed := fun entryCount =>
    @Usable.update t hUsable (hashFunction c (vpn / 8) t.size)
      _ hWrites.nonempty entryCount
  -- An update that fills no entry finds an occupied root.
  have hKept : fills (vpn / 8) (blockOffset vpn)
      (t.buckets (hashFunction c (vpn / 8) t.size)) ≠ true →
        Exact
          { t with
            buckets := Function.update t.buckets
              (hashFunction c (vpn / 8) t.size)
              (updateChain (vpn / 8) (blockOffset vpn) ppn
                (handleFineGrainedPageTableAllocations
                  kernelStartAddress 64).1
                (t.buckets (hashFunction c (vpn / 8)
                  t.size))).2 } := by
    intro hNot
    have hSome : rootTag t.buckets
        (hashFunction c (vpn / 8) t.size) ≠ none :=
      fun hNone =>
        hNot (fills_of_root (hUsable.nonempty _) hNone)
    have hSame := hRoots t.entryCount
    rw [if_neg hSome] at hSame
    exact hExact.trans hSame.symm
  unfold updateTable CountedUpdate
  simp only
  cases hOutcome : (updateChain (vpn / 8) (blockOffset vpn)
      ppn (handleFineGrainedPageTableAllocations
        kernelStartAddress 64).1
      (t.buckets (hashFunction c (vpn / 8) t.size))).1 with
  | filled =>
      have hFills := hWrites.filled_iff.mp hOutcome
      simp only [hFills, forall_const]
      by_cases hCrossed : c.crossed (t.entryCount + 1) t.size = true
      · rw [if_pos hCrossed, if_pos hCrossed]
        rcases resizeTable_counts (c := c)
            (hUsed (t.entryCount + 1)).size_pos
            kernelStartAddress with ⟨hNew, hCount⟩
        refine ⟨hNew, hCount.trans ?_⟩
        exact scattered_congr (mem_tagsOf_update hIdx
          (hWrites.tags hOutcome) (t.entryCount + 1))
      · rw [if_neg hCrossed, if_neg hCrossed]
        refine ⟨hUsed _, ?_⟩
        unfold Exact at hExact ⊢
        rw [hRoots]
        split
        · rename_i hNone
          simp only [hNone, iff_true]
          omega
        · rename_i hSome
          simp only [hSome, iff_false]
          omega
  | updated =>
      have hNot : fills (vpn / 8) (blockOffset vpn)
          (t.buckets (hashFunction c (vpn / 8) t.size)) ≠ true := by
        rw [Ne, ← hWrites.filled_iff, hOutcome]
        decide
      refine ⟨hUsed _, fun _ hTrue => absurd hTrue hNot, ?_⟩
      exact fun _ => hKept hNot
  | chained =>
      have hNot : fills (vpn / 8) (blockOffset vpn)
          (t.buckets (hashFunction c (vpn / 8) t.size)) ≠ true := by
        rw [Ne, ← hWrites.filled_iff, hOutcome]
        decide
      refine ⟨hUsed _, fun _ hTrue => absurd hTrue hNot, ?_⟩
      exact fun _ => hKept hNot

/-
  A deletion that is counted: the root is not emptied, or the
  entry behind it takes its place.
-/
def CountedDeletion
    (tag : Nat)
    (offset : Fin 8) :
    List Entry → Prop
| [] => True
| e :: rest =>
    e.tag = some tag →
      (∀ i, i ≠ offset → e.valid i = false) → headTag rest ≠ none

instance
    (tag : Nat)
    (offset : Fin 8) :
    ∀ chain, Decidable (CountedDeletion tag offset chain)
| [] => isTrue trivial
| _ :: _ => inferInstanceAs (Decidable (_ → _ → _ ≠ _))

theorem valid_clear_iff_forall
    (e : Entry)
    (offset : Fin 8) :
    (∀ i, (e.clear offset).valid i = false) ↔
      ∀ i, i ≠ offset → e.valid i = false := by
  simp only [← Bool.not_eq_true, valid_clear_iff, not_and]

/- The root keeps being occupied, or the deletion empties it. -/
theorem deleteChain_head
    (tag : Nat)
    (offset : Fin 8)
    (chain : List Entry) :
    (chain ≠ [] → deleteChain tag offset chain ≠ []) ∧
      (CountedDeletion tag offset chain →
        (headTag (deleteChain tag offset chain)).isSome =
          (headTag chain).isSome) ∧
      (¬ CountedDeletion tag offset chain →
        headTag chain ≠ none ∧
          headTag (deleteChain tag offset chain) = none) := by
  cases chain with
  | nil => simp [deleteChain, CountedDeletion]
  | cons e rest =>
      rw [deleteChain]
      simp only [valid_clear_iff_forall, CountedDeletion]
      by_cases hTag : e.tag = some tag
      · rw [if_pos hTag]
        by_cases hNone : ∀ i, i ≠ offset → e.valid i = false
        · rw [if_pos hNone]
          cases rest with
          | nil =>
              refine ⟨by simp, fun hCounted => ?_, fun _ => ?_⟩
              · exact absurd rfl (hCounted hTag hNone)
              · simp [hTag]
          | cons next rest' =>
              refine ⟨by simp, fun hCounted => ?_, fun hNot => ?_⟩
              · have hSome := hCounted hTag hNone
                rw [headTag_cons] at hSome
                simp [hTag, Option.isSome_iff_ne_none, hSome]
              · have hNext : next.tag = none := by
                  by_contra hSome
                  exact hNot (fun _ _ => hSome)
                simp [hTag, hNext]
        · rw [if_neg hNone]
          have hKept : (e.clear offset).tag = e.tag := rfl
          refine ⟨by simp, fun _ => ?_, fun hNot => ?_⟩
          · simp [hKept]
          · exact absurd (fun _ hAll => absurd hAll hNone) hNot
      · rw [if_neg hTag]
        simp [hTag]

/- The tables after a deletion, and whether it was counted. -/
theorem deleteTable_counts
    (hUsable : Usable t)
    (hExact : Exact t)
    (vpn : Nat)
    {t' : Table}
    (hTable : t' =
      { t with
        buckets := Function.update t.buckets
          (hashFunction c (vpn / 8) t.size)
          (deleteChain (vpn / 8) (blockOffset vpn)
            (t.buckets (hashFunction c (vpn / 8) t.size))) }) :
    Usable t' ∧
      (Exact t' ↔
        CountedDeletion (vpn / 8) (blockOffset vpn)
          (t.buckets (hashFunction c (vpn / 8) t.size))) := by
  have hIdx := hashFunction_lt (c := c) hUsable.size_pos (vpn / 8)
  rcases deleteChain_head (vpn / 8) (blockOffset vpn)
      (t.buckets (hashFunction c (vpn / 8) t.size)) with
    ⟨hChain, hCounted, hLost⟩
  subst hTable
  refine ⟨hUsable.update (hChain (hUsable.nonempty _)) _, ?_⟩
  have hReplace := Probe.occupied_replace hIdx
    (rootTag t.buckets)
    (headTag (deleteChain (vpn / 8) (blockOffset vpn)
      (t.buckets (hashFunction c (vpn / 8) t.size))))
  rw [← rootTag_update] at hReplace
  have hHead : rootTag t.buckets
      (hashFunction c (vpn / 8) t.size) =
        headTag (t.buckets (hashFunction c (vpn / 8) t.size)) := rfl
  unfold Exact occupiedRoots at hExact ⊢
  constructor
  · intro hEq
    by_contra hNot
    rcases hLost hNot with ⟨hSome, hNone⟩
    rw [hHead, hNone,
      if_pos (Option.isSome_iff_ne_none.mpr hSome)]
      at hReplace
    simp only [Option.isSome_none, Bool.false_eq_true,
      if_false] at hReplace
    simp only at hEq
    omega
  · intro hCount
    rw [hHead, ← hCounted hCount] at hReplace
    simp only
    omega

/- The calls after which an exact counter is exact. -/
def CountedBy
    (c : Config)
    (t : PageTableHT) :
    PageMap.Op → Prop
| .update address _ pageSize =>
    CountedUpdate c (t.tables pageSize) (pageSize.vpn address)
| .delete address =>
    let table := t.tables .fourKb
    let vpn := PageSize.fourKb.vpn address
    CountedDeletion (vpn / 8) (blockOffset vpn)
      (table.buckets (hashFunction c (vpn / 8) table.size))

instance
    (c : Config)
    (t : PageTableHT) :
    ∀ op, Decidable (CountedBy c t op)
| .update address _ pageSize =>
    inferInstanceAs (Decidable (CountedUpdate c
      (t.tables pageSize) (pageSize.vpn address)))
| .delete _ =>
    inferInstanceAs (Decidable (CountedDeletion _ _ _))

/- The counters of both tables are exact. -/
def AllExact (t : PageTableHT) : Prop :=
  ∀ pageSize, Usable (t.tables pageSize) ∧ Exact (t.tables pageSize)

theorem allExact_construct
    {sizes : PageSize → Nat}
    (hSizes : ∀ pageSize, 0 < sizes pageSize)
    (kernelStartAddress : Nat) :
    AllExact (construct sizes kernelStartAddress) := by
  have hTable : ∀ size tablePa, 0 < size →
      Usable ⟨size, freshBuckets tablePa, 0, tablePa⟩ ∧
        Exact ⟨size, freshBuckets tablePa, 0, tablePa⟩ := by
    intro size tablePa hPos
    refine ⟨⟨hPos, fun j => List.cons_ne_nil _ _⟩, ?_⟩
    exact (Probe.occupied_empty (κ := Nat)).symm
  intro pageSize
  cases pageSize with
  | fourKb => exact hTable _ _ (hSizes _)
  | twoMb => exact hTable _ _ (hSizes _)

/- Replacing one table of exact ones. -/
theorem AllExact.replace
    {t : PageTableHT}
    (hAll : AllExact t)
    {pageSize : PageSize}
    {table : Table}
    {P : Prop}
    (hTable : Usable table ∧ (Exact table ↔ P))
    (kernelStartAddress : Nat) :
    (P → AllExact
      ⟨Function.update t.tables pageSize table,
        kernelStartAddress⟩) ∧
      (¬ P → ∃ pageSize', ¬ Exact
        (Function.update t.tables pageSize table pageSize')) := by
  constructor
  · intro hHolds other
    by_cases hEq : other = pageSize
    · subst hEq
      simp only [Function.update_self]
      exact ⟨hTable.1, hTable.2.mpr hHolds⟩
    · simp only [Function.update_of_ne hEq]
      exact hAll other
  · intro hNot
    refine ⟨pageSize, ?_⟩
    rw [Function.update_self]
    exact fun hExact => hNot (hTable.2.mp hExact)

/- A call is counted, or it makes a counter inexact. -/
theorem step_decides
    {t t' : PageTableHT}
    {op : PageMap.Op}
    (hAll : AllExact t)
    (hStep : step c t op = some t') :
    (CountedBy c t op → AllExact t') ∧
      (¬ CountedBy c t op →
        ∃ pageSize, ¬ Exact (t'.tables pageSize)) := by
  cases op with
  | update address ppn pageSize =>
      cases hStep
      rcases hAll pageSize with ⟨hUsable, hExact⟩
      exact hAll.replace (updateTable_counts hUsable hExact
        _ _ _) _
  | delete address =>
      cases hStep
      rcases hAll .fourKb with ⟨hUsable, hExact⟩
      exact hAll.replace (deleteTable_counts hUsable hExact
        (PageSize.fourKb.vpn address) rfl) _

/-
  In every run the counters are exact in every state just when
  every call is counted.
-/
theorem along_counted_iff
    (c : Config)
    {sizes : PageSize → Nat}
    (hSizes : ∀ pageSize, 0 < sizes pageSize)
    (kernelStartAddress : Nat)
    (ops : List PageMap.Op) :
    Run.Along (step c) (CountedBy c)
        (construct sizes kernelStartAddress) ops ↔
      ∀ front, front <+: ops → ∀ t,
        Run.run (step c) (construct sizes kernelStartAddress)
            front = some t →
          ∀ pageSize, Exact (t.tables pageSize) := by
  have hTotal : ∀ (t : PageTableHT) (op : PageMap.Op), True →
      True → ∃ t', step c t op = some t' ∧ True := by
    intro t op _ _
    cases op with
    | update => exact ⟨_, rfl, trivial⟩
    | delete => exact ⟨_, rfl, trivial⟩
  rcases Run.run_total hTotal
      (construct sizes kernelStartAddress) ops trivial
      (Run.along_of_forall_mem _ (fun _ _ => trivial)) with
    ⟨t, hRun, -⟩
  refine Run.along_iff_of_run (E := fun _ _ => True)
    (I := AllExact) ?_ ?_ ?_
    (allExact_construct hSizes kernelStartAddress)
    (Run.along_of_forall_mem _ (fun _ _ => trivial)) hRun
  · intro t hAll pageSize
    exact (hAll pageSize).2
  · intro t op t' hAll _ hCounted hStep
    exact (step_decides hAll hStep).1 hCounted
  · intro t op t' hAll _ hNot hStep hExact
    rcases (step_decides hAll hStep).2 hNot with
      ⟨pageSize, hWrong⟩
    exact hWrong (hExact pageSize)

end Ht

end Virtuoso
