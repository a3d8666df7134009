import Virtuoso.Lib.Run
import Virtuoso.Tlb.Blocks

/-
  Invalidation of a page in a TLB.

  After an invalidation, a lookup of an address in the page
  may only hit a translation that was allocated or queued
  since. `invalidate` removes the blocks of its address under
  every page size. It leaves the entries of the prefetch
  queue, which become blocks later, and the blocks of smaller
  pages at other addresses of the page.

  Main declarations:
    * `Tlb.invalidate_spec`
    * `Tlb.complete_along`
-/

------------------------------------------------------------
-- The System And Its Invariant
------------------------------------------------------------

namespace Virtuoso

namespace Tlb

variable {σ : Type} {t t' : Tlb σ}

/-
  Two pages, each given by an address in it and its size,
  have an address in common.
-/
def Overlaps (p q : BitVec 64 × Nat) : Prop :=
  tagOf p.1 (max p.2 q.2) = tagOf q.1 (max p.2 q.2)

instance
    (p q : BitVec 64 × Nat) :
    Decidable (Overlaps p q) :=
  inferInstanceAs (Decidable (_ = _))

/- The page of a block. -/
def pageOf (b : TlbBlock) : BitVec 64 × Nat :=
  (b.tag <<< b.pageSize, b.pageSize)

/- A translation that was allocated or queued. -/
structure Produced where
  address : BitVec 64
  pageSize : Nat
  ppn : Nat

/- An invalidated page, and what was produced since. -/
structure Closed where
  page : BitVec 64 × Nat
  renewed : List Produced

/- The translation was produced since the invalidation. -/
def Closed.Renews
    (c : Closed)
    (tag : BitVec 64)
    (pageSize ppn : Nat) : Prop :=
  ∃ r ∈ c.renewed, tagOf r.address r.pageSize = tag ∧
    r.pageSize = pageSize ∧ r.ppn = ppn

/- Some translations come after the invalidation. -/
def Closed.add
    (produced : List Produced)
    (c : Closed) : Closed :=
  { c with renewed := produced ++ c.renewed }

/- A TLB with the pages that were invalidated. -/
structure Watch (σ : Type) where
  tlb : Tlb σ
  closed : List Closed

/- The operations of a TLB. -/
inductive WatchOp
  | lookup (request : Lookup)
  | allocate (address : BitVec 64) (pageSize ppn : Nat)
  | invalidate (address : BitVec 64) (pageSize : Nat)

/- What a lookup puts into the queue. -/
def queued
    (t : Tlb σ)
    (request : Lookup) : List QueryEntry :=
  if t.config.prefetch then
    ((materializeAll request.now request.picks t.queue.length
        t).map (fun t =>
      let t₁ := (t.accessSingleLineTLB request.address).2
      (t₁.enqueue request.outputs).queue.drop
        t₁.queue.length)).getD []
  else
    []

/- The translation in an entry of the queue. -/
def produced (e : QueryEntry) : Produced :=
  ⟨e.address, e.pageSize, e.ppn⟩

/- An operation, with the translations it produces. -/
def watch (s : Watch σ) : WatchOp → Option (Watch σ)
| .lookup request =>
    (s.tlb.lookup request).map (fun r =>
      ⟨r.2, s.closed.map (Closed.add
        ((s.tlb.queued request).map produced))⟩)
| .allocate address pageSize ppn =>
    (s.tlb.allocate address pageSize ppn false).map (fun r =>
      ⟨r.2, s.closed.map (Closed.add
        (if s.tlb.config.prefetch then []
          else [⟨address, pageSize, ppn⟩]))⟩)
| .invalidate address pageSize =>
    (s.tlb.invalidate address).map (fun t =>
      ⟨t, ⟨(address, pageSize), []⟩ :: s.closed⟩)

/-
  A hit in an invalidated page is a translation that was
  produced since, and an invalidation leaves the blocks of
  the pages that do not overlap its page.
-/
def Complete (s : Watch σ) : WatchOp → Prop
| .lookup request =>
    ∀ b t', s.tlb.lookup request = some (some b, t') →
      ∀ c ∈ s.closed,
        tagOf request.address c.page.2 = tagOf c.page.1 c.page.2 →
          c.Renews b.tag b.pageSize b.ppn
| .allocate _ _ _ => True
| .invalidate address pageSize =>
    ∀ t', s.tlb.invalidate address = some t' →
      ∀ k i b, s.tlb.blockAt k i = some b →
        b.isValid = true →
          ¬ Overlaps (pageOf b) (address, pageSize) →
            t'.blockAt k i = some b

/-
  No entry of the queue overlaps the page, and the blocks
  that do are blocks of the address itself. Only supported
  page sizes, which lookups look for, count.
-/
def Clears (s : Watch σ) : WatchOp → Prop
| .lookup _ => True
| .allocate _ _ _ => True
| .invalidate address pageSize =>
    (∀ e ∈ s.tlb.queue,
        e.pageSize ∈ s.tlb.config.pageSizes →
          ¬ Overlaps (e.address, e.pageSize) (address, pageSize)) ∧
      ∀ set ∈ s.tlb.sets, ∀ b ∈ set, b.shared = true →
        b.pageSize ∈ s.tlb.config.pageSizes →
          Overlaps (pageOf b) (address, pageSize) →
            b.tag = tagOf address b.pageSize

/- The tag under a larger page size follows from a tag. -/
theorem tagOf_of_le
    {a b : BitVec 64}
    {p q : Nat}
    (hTag : tagOf a p = tagOf b p)
    (hLe : p ≤ q) :
    tagOf a q = tagOf b q := by
  have hSplit : ∀ x : BitVec 64,
      tagOf x q = tagOf (tagOf x p) (q - p) := by
    intro x
    unfold tagOf
    rw [← BitVec.shiftRight_add, Nat.add_sub_cancel' hLe]
  rw [hSplit a, hSplit b, hTag]

/- The begin of a page is in the same larger pages. -/
theorem tagOf_begin
    (a : BitVec 64)
    {p q : Nat}
    (hLe : p ≤ q) :
    tagOf (tagOf a p <<< p) q = tagOf a q :=
  tagOf_of_le (tagFits_tagOf a p) hLe

variable {b : TlbBlock}

/- The page of a block with the tag of an address. -/
theorem overlaps_pageOf_iff
    {a : BitVec 64}
    (hTag : b.tag = tagOf a b.pageSize)
    (page : BitVec 64 × Nat) :
    Overlaps (pageOf b) page ↔ Overlaps (a, b.pageSize) page := by
  unfold Overlaps pageOf
  rw [hTag, tagOf_begin a (Nat.le_max_left _ _)]

/- A block of an address overlaps its other pages. -/
theorem overlaps_of_tag
    {a : BitVec 64}
    (hTag : b.tag = tagOf a b.pageSize)
    {page : BitVec 64 × Nat}
    (hIn : tagOf a page.2 = tagOf page.1 page.2) :
    Overlaps (pageOf b) page := by
  rw [overlaps_pageOf_iff hTag]
  exact tagOf_of_le hIn (Nat.le_max_right _ _)

/-
  What the TLB or its queue has of an invalidated page was
  produced since the invalidation.
-/
structure Covered (t : Tlb σ) (c : Closed) : Prop where
  blocks : ∀ k i b, t.blockAt k i = some b →
    b.shared = true → b.pageSize ∈ t.config.pageSizes →
      Overlaps (pageOf b) c.page → c.Renews b.tag b.pageSize b.ppn
  queue : ∀ e ∈ t.queue, e.pageSize ∈ t.config.pageSizes →
    Overlaps (e.address, e.pageSize) c.page →
      c.Renews (tagOf e.address e.pageSize) e.pageSize e.ppn

/- No closed page is held without a renewal. -/
structure WatchInv (s : Watch σ) : Prop where
  placed : Placed s.tlb
  covered : ∀ c ∈ s.closed, Covered s.tlb c

variable {c : Closed}

theorem Closed.Renews.add
    {tag : BitVec 64}
    {pageSize ppn : Nat}
    (hRenews : c.Renews tag pageSize ppn)
    (made : List Produced) :
    (c.add made).Renews tag pageSize ppn := by
  rcases hRenews with ⟨r, hMem, hSame⟩
  exact ⟨r, List.mem_append_right made hMem, hSame⟩

theorem Covered.add
    (hCovered : Covered t c)
    (made : List Produced) :
    Covered t (c.add made) :=
  ⟨fun k i b hBlock hShared hSize hOverlaps =>
      (hCovered.blocks k i b hBlock hShared hSize
        hOverlaps).add made,
    fun e hMem hSize hOverlaps =>
      (hCovered.queue e hMem hSize hOverlaps).add made⟩

variable {out : Option TlbBlock}

theorem insertSingleLineTLB_queue
    {address : BitVec 64}
    {pageSize ppn : Nat}
    (hInsert : t.insertSingleLineTLB address pageSize ppn =
      some (out, t')) :
    t'.queue = t.queue := by
  unfold insertSingleLineTLB at hInsert
  simp only at hInsert
  split at hInsert
  · cases hInsert
  · split at hInsert
    · cases hInsert
    · simp only [Option.some.injEq, Prod.mk.injEq] at hInsert
      rw [← hInsert.2]
      rfl

/- An insertion of a translation that was produced since. -/
theorem covered_insert
    (hCovered : Covered t c)
    {address : BitVec 64}
    {pageSize ppn : Nat}
    (hInsert : t.insertSingleLineTLB address pageSize ppn =
      some (out, t'))
    (hNew : pageSize ∈ t.config.pageSizes →
      Overlaps (address, pageSize) c.page →
        c.Renews (tagOf address pageSize) pageSize ppn) :
    Covered t' c := by
  rcases insertSingleLineTLB_spec hInsert with
    ⟨way, old, hInserts, -⟩
  refine ⟨?_, ?_⟩
  · intro k i b hBlock hShared hSize hOverlaps
    rw [hInserts.config] at hSize
    rw [hInserts.after] at hBlock
    split_ifs at hBlock with hHere
    · cases hBlock
      exact hNew hSize ((overlaps_pageOf_iff rfl _).mp hOverlaps)
    · exact hCovered.blocks k i b hBlock hShared hSize hOverlaps
  · rw [insertSingleLineTLB_queue hInsert, hInserts.config]
    exact hCovered.queue

theorem mem_of_dueEntry
    {queue : List QueryEntry}
    {now pick : Nat}
    {e : QueryEntry}
    (hDue : dueEntry queue now pick = some e) :
    e ∈ queue := by
  unfold dueEntry at hDue
  have hGet := (Option.filter_eq_some_iff.mp hDue).1
  exact List.mem_of_mem_filter (List.mem_of_getElem? hGet)

/- One iteration of the loop that empties the queue. -/
theorem covered_materialize
    (hPlaced : Placed t)
    {now pick : Nat}
    (hCall : t.materialize now pick = some (out, t')) :
    Placed t' ∧ t'.config = t.config ∧
      ∀ c, Covered t c → Covered t' c := by
  unfold materialize at hCall
  cases hDue : dueEntry t.queue now pick with
  | none =>
      simp only [hDue, Option.some.injEq, Prod.mk.injEq] at hCall
      rw [← hCall.2]
      exact ⟨hPlaced, rfl, fun _ hCovered => hCovered⟩
  | some e =>
      simp only [hDue, allocate, Bool.not_true, Bool.and_false,
        Bool.false_eq_true, if_false] at hCall
      rcases insertSingleLineTLB_spec hCall with
        ⟨way, old, hInserts, -⟩
      have hPopped : Placed (t.popEntry e) :=
        hPlaced.of_sets rfl rfl
      refine ⟨hInserts.placed hPopped, hInserts.config,
        fun c hCovered => ?_⟩
      have hRest : Covered (t.popEntry e) c := by
        refine ⟨hCovered.blocks, fun e' hMem => ?_⟩
        exact hCovered.queue e' (List.mem_of_mem_erase hMem)
      exact covered_insert hRest hCall
        (hCovered.queue e (mem_of_dueEntry hDue))

theorem covered_materializeAll
    {now : Nat}
    {picks : Nat → Nat}
    {n : Nat}
    (hPlaced : Placed t)
    (hCall : materializeAll now picks n t = some t') :
    Placed t' ∧ t'.config = t.config ∧
      ∀ c, Covered t c → Covered t' c := by
  induction n generalizing t with
  | zero =>
      rw [← Option.some.inj hCall]
      exact ⟨hPlaced, rfl, fun _ hCovered => hCovered⟩
  | succ n ih =>
      rcases Option.bind_eq_some_iff.mp hCall with
        ⟨⟨out, t₁⟩, hFirst, hRest⟩
      rcases covered_materialize hPlaced hFirst with
        ⟨hPlaced₁, hConfig₁, hCovered₁⟩
      rcases ih hPlaced₁ hRest with
        ⟨hPlaced', hConfig', hCovered'⟩
      exact ⟨hPlaced', hConfig'.trans hConfig₁,
        fun c hCovered => hCovered' c (hCovered₁ c hCovered)⟩

/- What the predictions of the prefetchers add. -/
theorem enqueue_queue
    (t : Tlb σ)
    (outputs : List (List QueryEntry)) :
    ∃ added, (t.enqueue outputs).queue = t.queue ++ added := by
  refine enqueue_inv
    (P := fun t' => ∃ added, t'.queue = t.queue ++ added)
    outputs ?_ ⟨[], by simp⟩
  rintro t' e ⟨added, hQueue⟩ - -
  refine ⟨added ++ [e], ?_⟩
  rw [pushEntry, hQueue, List.append_assoc]

/- The block that an access hits. -/
theorem find_eq_some
    {address : BitVec 64}
    {sizes : List Nat}
    {k i : Nat}
    (hFind : t.findSingleLineTLB address sizes = some (k, i, b)) :
    t.blockAt k i = some b ∧ b.shared = true ∧
      b.pageSize ∈ sizes ∧ b.tag = tagOf address b.pageSize := by
  induction sizes with
  | nil => cases hFind
  | cons size sizes ih =>
      rw [findSingleLineTLB] at hFind
      split at hFind
      · rcases ih hFind with ⟨hBlock, hShared, hMem, hTag⟩
        exact ⟨hBlock, hShared, List.mem_cons_of_mem _ hMem, hTag⟩
      · next way block hHere =>
          split_ifs at hFind with hShared
          · simp only [Option.some.injEq, Prod.mk.injEq] at hFind
            rcases hFind with ⟨hSet, hWay, hSame⟩
            subst hSet hWay hSame
            rcases findTLB_eq_some hHere with ⟨hGet, hFor⟩
            rcases TlbBlock.isFor_iff.mp hFor with
              ⟨hTag, hSize⟩
            rw [blockAt_eq_getD]
            refine ⟨hGet, hShared, ?_, ?_⟩
            · rw [hSize]
              exact List.mem_cons_self
            · rw [hSize]
              exact hTag
          · rcases ih hFind with ⟨hBlock, hShared', hMem, hTag⟩
            exact ⟨hBlock, hShared', List.mem_cons_of_mem _ hMem,
              hTag⟩

/- Invalidate the blocks of an address under one size. -/
def invalidateSize
    (address : BitVec 64)
    (t : Tlb σ)
    (pageSize : Nat) : Tlb σ :=
  { t with
    sets := t.sets.modify (t.setIndex (tagOf address pageSize))
      (fun set => invalidateSet set (tagOf address pageSize)
        pageSize) }

theorem blockAt_invalidateSize
    (address : BitVec 64)
    (t : Tlb σ)
    (pageSize k i : Nat) :
    (t.invalidateSize address pageSize).blockAt k i =
      (t.blockAt k i).map (fun b =>
        if k = t.setIndex (tagOf address pageSize) ∧
            b.isFor (tagOf address pageSize) pageSize = true
        then b.invalidate
        else b) := by
  simp only [blockAt, invalidateSize, List.getElem?_modify]
  cases t.sets[k]? with
  | none => rfl
  | some set =>
      by_cases hHere : k = t.setIndex (tagOf address pageSize)
      · subst hHere
        simp [invalidateSet]
      · simp [hHere, Ne.symm hHere]

/- What is left of the blocks, and what is kept. -/
theorem blockAt_invalidateSizes
    (address : BitVec 64)
    (sizes : List Nat)
    (t : Tlb σ) :
    let t' := sizes.foldl (invalidateSize address) t
    t'.config = t.config ∧ t'.queue = t.queue ∧
      (∀ k i b, t'.blockAt k i = some b → b.shared = true →
        t.blockAt k i = some b) ∧
      (∀ k i b, t'.blockAt k i = some b → b.isValid = true →
        t.blockAt k i = some b) ∧
      ∀ k i b, t.blockAt k i = some b →
        (∀ size ∈ sizes,
          b.isFor (tagOf address size) size = false) →
          t'.blockAt k i = some b := by
  induction sizes generalizing t with
  | nil =>
      exact ⟨rfl, rfl, fun _ _ _ hBlock _ => hBlock,
        fun _ _ _ hBlock _ => hBlock,
        fun _ _ _ hBlock _ => hBlock⟩
  | cons size sizes ih =>
      rcases ih (t.invalidateSize address size) with
        ⟨hConfig, hQueue, hShared, hValid, hKept⟩
      refine ⟨hConfig, hQueue, ?_, ?_, ?_⟩
      · intro k i b hBlock hLive
        have hHere := hShared k i b hBlock hLive
        rw [blockAt_invalidateSize] at hHere
        rcases Option.map_eq_some_iff.mp hHere with
          ⟨old, hOld, hEq⟩
        split_ifs at hEq
        · rw [← hEq] at hLive
          cases hLive
        · rw [← hEq]
          exact hOld
      · intro k i b hBlock hLive
        have hHere := hValid k i b hBlock hLive
        rw [blockAt_invalidateSize] at hHere
        rcases Option.map_eq_some_iff.mp hHere with
          ⟨old, hOld, hEq⟩
        split_ifs at hEq
        · rw [← hEq] at hLive
          simp [TlbBlock.invalidate, TlbBlock.isValid] at hLive
        · rw [← hEq]
          exact hOld
      · intro k i b hBlock hOther
        apply hKept k i b
        · rw [blockAt_invalidateSize, hBlock, Option.map_some,
            if_neg]
          rintro ⟨-, hFor⟩
          rw [hOther size (by simp)] at hFor
          cases hFor
        · intro size' hMem
          exact hOther size' (by simp [hMem])

/- What `invalidate` does, with the check at its end. -/
theorem invalidate_spec
    {address : BitVec 64}
    (hCall : t.invalidate address = some t') :
    t'.config = t.config ∧ t'.queue = t.queue ∧
      (∀ k i b, t'.blockAt k i = some b → b.shared = true →
        t.blockAt k i = some b) ∧
      (∀ k i b, t'.blockAt k i = some b → b.isValid = true →
        t.blockAt k i = some b) ∧
      (∀ k i b, t.blockAt k i = some b →
        (∀ size ∈ t.config.pageSizes,
          b.isFor (tagOf address size) size = false) →
          t'.blockAt k i = some b) ∧
      t'.containsTLB address = false := by
  unfold invalidate at hCall
  simp only at hCall
  split_ifs at hCall with hContains
  have hSame := Option.some.inj hCall
  rcases blockAt_invalidateSizes address t.config.pageSizes t
    with ⟨hConfig, hQueue, hShared, hValid, hKept⟩
  change t.config.pageSizes.foldl (invalidateSize address) t =
    t' at hSame
  rw [hSame] at hConfig hQueue hShared hValid hKept
  refine ⟨hConfig, hQueue, hShared, hValid, hKept, ?_⟩
  rw [← hSame, ← Bool.not_eq_true]
  exact hContains

/- No block of the address is left in its set. -/
theorem not_isFor_of_containsTLB
    {address : BitVec 64}
    (hNone : t.containsTLB address = false)
    {size i : Nat}
    (hSize : size ∈ t.config.pageSizes)
    (hBlock : t.blockAt (t.setIndex (tagOf address size)) i =
      some b) :
    b.isFor (tagOf address size) size = false := by
  unfold containsTLB at hNone
  rw [List.any_eq_false] at hNone
  have hFind := hNone size hSize
  simp only [Bool.not_eq_true, Option.isSome_eq_false_iff,
    Option.isNone_iff_eq_none] at hFind
  rw [blockAt_eq_getD] at hBlock
  exact findTLB_eq_none_iff.mp hFind b (List.mem_of_getElem? hBlock)

------------------------------------------------------------
-- Steps And Runs
------------------------------------------------------------

variable {s s' : Watch σ}

/- What an access hits was produced since. -/
theorem renews_of_access
    (hCovered : Covered t c)
    {address : BitVec 64}
    (hHit : (t.accessSingleLineTLB address).1 = some b)
    (hIn : tagOf address c.page.2 = tagOf c.page.1 c.page.2) :
    c.Renews b.tag b.pageSize b.ppn := by
  unfold accessSingleLineTLB at hHit
  split at hHit
  · cases hHit
  · next k i block hFind =>
      rw [← Option.some.inj hHit]
      rcases find_eq_some hFind with
        ⟨hBlock, hShared, hMem, hTag⟩
      exact hCovered.blocks k i block hBlock hShared hMem
        (overlaps_of_tag hTag hIn)

/- A lookup: its hit and the TLB after it. -/
theorem lookup_spec
    (hPlaced : Placed t)
    {request : Lookup}
    (hCall : t.lookup request = some (out, t')) :
    Placed t' ∧
      ∀ c, Covered t c →
        (∀ b, out = some b →
          tagOf request.address c.page.2 = tagOf c.page.1 c.page.2 →
            c.Renews b.tag b.pageSize b.ppn) ∧
          Covered t' (c.add ((t.queued request).map produced)) := by
  unfold lookup at hCall
  split_ifs at hCall with hPrefetch
  · rcases Option.map_eq_some_iff.mp hCall with
      ⟨t₁, hAll, hEq⟩
    simp only [Prod.mk.injEq] at hEq
    rcases covered_materializeAll hPlaced hAll with
      ⟨hPlaced₁, hConfig₁, hCovered₁⟩
    rcases accessSingleLineTLB_kept t₁ request.address with
      ⟨hSets, hConfig, -, hQueue⟩
    rcases enqueue_kept
      (t₁.accessSingleLineTLB request.address).2
      request.outputs with ⟨hSets', hConfig', -⟩
    refine ⟨?_, fun c hCovered => ⟨fun b hOut => ?_, ?_⟩⟩
    · rw [← hEq.2]
      exact hPlaced₁.of_sets (hSets'.trans hSets)
        (hConfig'.trans hConfig)
    · exact renews_of_access (hCovered₁ c hCovered)
        (hEq.1.trans hOut)
    · rw [← hEq.2]
      rcases enqueue_queue
        (t₁.accessSingleLineTLB request.address).2
        request.outputs with ⟨added, hAdded⟩
      have hQueued : t.queued request = added := by
        simp only [queued, hPrefetch, if_true, hAll,
          Option.map_some, Option.getD_some, hAdded,
          List.drop_left]
      have hNext := (hCovered₁ c hCovered).add (added.map produced)
      rw [hQueued]
      refine ⟨?_, ?_⟩
      · intro k i b hBlock hShared hSize
        rw [hConfig', hConfig] at hSize
        rw [blockAt, hSets', hSets] at hBlock
        exact hNext.blocks k i b hBlock hShared hSize
      · intro e hMem hSize hOverlaps
        rw [hConfig', hConfig] at hSize
        rw [hAdded, hQueue] at hMem
        rcases List.mem_append.mp hMem with hOld | hNew
        · exact hNext.queue e hOld hSize hOverlaps
        · exact ⟨produced e, List.mem_append_left _
            (List.mem_map_of_mem hNew), rfl, rfl, rfl⟩
  · have hQueued : t.queued request = [] := by
      simp [queued, hPrefetch]
    have hEq := Option.some.inj hCall
    have hOutEq :
        (t.accessSingleLineTLB request.address).1 = out := by
      rw [hEq]
    have hNextEq :
        (t.accessSingleLineTLB request.address).2 = t' := by
      rw [hEq]
    rcases accessSingleLineTLB_kept t request.address with
      ⟨hSets, hConfig, -, hQueue⟩
    rw [hNextEq] at hSets hConfig hQueue
    refine ⟨hPlaced.of_sets hSets hConfig, fun c hCovered =>
      ⟨fun b hOut => ?_, ?_⟩⟩
    · exact renews_of_access hCovered (hOutEq.trans hOut)
    · rw [hQueued]
      refine ⟨?_, ?_⟩
      · intro k i b hBlock hShared hSize hOverlaps
        rw [hConfig] at hSize
        rw [blockAt, hSets] at hBlock
        exact (hCovered.blocks k i b hBlock hShared hSize
          hOverlaps).add _
      · intro e hMem hSize hOverlaps
        rw [hConfig] at hSize
        rw [hQueue] at hMem
        exact (hCovered.queue e hMem hSize hOverlaps).add _

/- An allocation that is not made for the queue. -/
theorem covered_allocate
    (hInv : WatchInv s)
    {address : BitVec 64}
    {pageSize ppn : Nat}
    (hCall : s.tlb.allocate address pageSize ppn false =
      some (out, t')) :
    Placed t' ∧ ∀ c ∈ s.closed, Covered t'
      (c.add (if s.tlb.config.prefetch then []
        else [⟨address, pageSize, ppn⟩])) := by
  unfold allocate at hCall
  cases hPrefetch : s.tlb.config.prefetch with
  | true =>
      simp only [hPrefetch, Bool.not_false, Bool.and_true,
        if_true, Option.some.injEq, Prod.mk.injEq] at hCall
      rw [← hCall.2]
      exact ⟨hInv.placed, fun c hMem =>
        (hInv.covered c hMem).add _⟩
  | false =>
      simp only [hPrefetch, Bool.false_and,
        Bool.false_eq_true, if_false] at hCall
      rcases insertSingleLineTLB_spec hCall with
        ⟨way, old, hInserts, -⟩
      refine ⟨hInserts.placed hInv.placed, fun c hMem => ?_⟩
      refine covered_insert ((hInv.covered c hMem).add _) hCall
        (fun _ _ => ?_)
      exact ⟨⟨address, pageSize, ppn⟩, List.mem_cons_self, rfl,
        rfl, rfl⟩

/- An invalidation of a page that it can clear. -/
theorem covered_invalidate
    (hInv : WatchInv s)
    {address : BitVec 64}
    {pageSize : Nat}
    (hClears : Clears s (.invalidate address pageSize))
    (hCall : s.tlb.invalidate address = some t') :
    WatchInv ⟨t', ⟨(address, pageSize), []⟩ :: s.closed⟩ := by
  rcases invalidate_spec hCall with
    ⟨hConfig, hQueue, hShared, hValid, -, hContains⟩
  rcases hClears with ⟨hNoEntry, hOwn⟩
  have hIndex : ∀ tag, t'.setIndex tag = s.tlb.setIndex tag := by
    intro tag
    rw [setIndex, hConfig]
    rfl
  refine ⟨⟨?_, ?_, ?_⟩, ?_⟩
  · intro k i b hBlock hLive
    exact hInv.placed.shared k i b (hValid k i b hBlock hLive) hLive
  · intro k i b hBlock hLive
    rw [hIndex]
    exact hInv.placed.index k i b (hShared k i b hBlock hLive) hLive
  · intro k i b hBlock hLive
    exact hInv.placed.fits k i b (hShared k i b hBlock hLive) hLive
  · intro c hMem
    rcases List.mem_cons.mp hMem with hNew | hOld
    · subst hNew
      refine ⟨?_, ?_⟩
      · intro k i b hBlock hLive hSize hOverlaps
        rw [hConfig] at hSize
        have hBefore := hShared k i b hBlock hLive
        rcases Option.bind_eq_some_iff.mp hBefore with
          ⟨set, hSet, hWay⟩
        have hTag := hOwn set (List.mem_of_getElem? hSet) b
          (List.mem_of_getElem? hWay) hLive hSize hOverlaps
        -- such a block would still be found
        have hPlace := hInv.placed.index k i b hBefore hLive
        rw [hPlace, ← hIndex, hTag] at hBlock
        have hNot := not_isFor_of_containsTLB hContains
          (hConfig ▸ hSize) hBlock
        rw [TlbBlock.isFor_iff.mpr ⟨hTag, rfl⟩] at hNot
        cases hNot
      · intro e hEntry hSize hOverlaps
        rw [hQueue] at hEntry
        rw [hConfig] at hSize
        exact absurd hOverlaps (hNoEntry e hEntry hSize)
    · have hCovered := hInv.covered c hOld
      refine ⟨?_, ?_⟩
      · intro k i b hBlock hLive hSize
        rw [hConfig] at hSize
        exact hCovered.blocks k i b (hShared k i b hBlock hLive)
          hLive hSize
      · rw [hQueue, hConfig]
        exact hCovered.queue

/- A step that meets the condition keeps the invariant. -/
theorem inv_watch
    {op : WatchOp}
    (hInv : WatchInv s)
    (hClears : Clears s op)
    (hStep : watch s op = some s') :
    WatchInv s' := by
  cases op with
  | lookup request =>
      rcases Option.map_eq_some_iff.mp hStep with
        ⟨⟨out, t'⟩, hCall, hEq⟩
      subst hEq
      rcases lookup_spec hInv.placed hCall with
        ⟨hPlaced, hAfter⟩
      refine ⟨hPlaced, fun c hMem => ?_⟩
      rcases List.mem_map.mp hMem with ⟨c₀, hMem₀, hEq⟩
      rw [← hEq]
      exact (hAfter c₀ (hInv.covered c₀ hMem₀)).2
  | allocate address pageSize ppn =>
      rcases Option.map_eq_some_iff.mp hStep with
        ⟨⟨out, t'⟩, hCall, hEq⟩
      subst hEq
      rcases covered_allocate hInv hCall with
        ⟨hPlaced, hAfter⟩
      refine ⟨hPlaced, fun c hMem => ?_⟩
      rcases List.mem_map.mp hMem with ⟨c₀, hMem₀, hEq⟩
      rw [← hEq]
      exact hAfter c₀ hMem₀
  | invalidate address pageSize =>
      rcases Option.map_eq_some_iff.mp hStep with
        ⟨t', hCall, hEq⟩
      subst hEq
      exact covered_invalidate hInv hClears hCall

/- The invariant makes the next step complete. -/
theorem complete_of_inv
    (hInv : WatchInv s)
    (op : WatchOp) :
    Complete s op := by
  cases op with
  | lookup request =>
      intro b t' hCall c hMem hIn
      exact ((lookup_spec hInv.placed hCall).2 c
        (hInv.covered c hMem)).1 b rfl hIn
  | allocate address pageSize ppn => trivial
  | invalidate address pageSize =>
      intro t' hCall k i b hBlock hLive hApart
      rcases invalidate_spec hCall with
        ⟨-, -, -, -, hKept, -⟩
      apply hKept k i b hBlock
      intro size hSize
      by_contra hFor
      rw [Bool.not_eq_false] at hFor
      rcases TlbBlock.isFor_iff.mp hFor with ⟨hTag, hSame⟩
      apply hApart
      rw [← hSame] at hTag
      exact overlaps_of_tag hTag rfl

/-
  In every run from a new TLB whose invalidations can clear
  their pages, every invalidation is complete: what is hit in
  an invalidated page was produced since, and other pages are
  left.
-/
theorem complete_along
    (config : TlbConfig)
    (policy : Replacement σ)
    (replacement : σ)
    (t : Tlb σ)
    (hConstruct : construct config policy replacement = some t)
    (ops : List WatchOp)
    (hAlong : Run.Along watch Clears ⟨t, []⟩ ops) :
    ∀ front op, front ++ [op] <+: ops →
      ∀ s, Run.run watch ⟨t, []⟩ front = some s →
        Complete s op := by
  intro front op hFront s hRun
  have hInit : WatchInv (⟨t, []⟩ : Watch σ) :=
    ⟨(shaped_construct hConstruct).toPlaced, by simp⟩
  have hInv : WatchInv s :=
    (Run.along_inv
      (fun _ _ _ hInv hClears hStep =>
        inv_watch hInv hClears hStep)
      hInit hAlong
      ((List.prefix_append front [op]).trans hFront) hRun).1
  exact complete_of_inv hInv op

instance
    (s : Watch σ)
    (op : WatchOp) :
    Decidable (Clears s op) :=
  match op with
  | .lookup _ => isTrue trivial
  | .allocate _ _ _ => isTrue trivial
  | .invalidate address pageSize =>
      inferInstanceAs (Decidable
        ((∀ e ∈ s.tlb.queue,
            e.pageSize ∈ s.tlb.config.pageSizes →
              ¬ Overlaps (e.address, e.pageSize)
                (address, pageSize)) ∧
          ∀ set ∈ s.tlb.sets, ∀ b ∈ set, b.shared = true →
            b.pageSize ∈ s.tlb.config.pageSizes →
              Overlaps (pageOf b) (address, pageSize) →
                b.tag = tagOf address b.pageSize))

/- A prefetch that is queued after the invalidation. -/
theorem complete_along_renewed :
    ∃ t ∈ construct ⟨4, 4, [12, 21], .data, false, true, 8⟩
        Replacement.lru (Replacement.lruInit 1 4),
      ∃ s ∈ Run.run watch ⟨t, []⟩
          [.lookup ⟨0x1000, 0, fun _ => 0, [[⟨5, 12, 7, 0x1000⟩]]⟩,
            .lookup ⟨0x1000, 6, fun _ => 0, []⟩,
            .invalidate 0x1000 12,
            .lookup ⟨0x1000, 7, fun _ => 0,
              [[⟨9, 12, 8, 0x1000⟩]]⟩],
        ((s.tlb.lookup ⟨0x1000, 9, fun _ => 0, []⟩).bind
            Prod.fst).map TlbBlock.ppn = some 8 ∧
          Complete s (.lookup ⟨0x1000, 9, fun _ => 0, []⟩) := by
  refine ⟨_, Option.get_mem ?_, _, Option.get_mem ?_, ?_, ?_⟩
  iterate 3 decide +kernel
  exact complete_along _ _ _ _ (Option.get_mem _)
    (_ ++ [_]) (by decide +kernel) _ _
    (List.prefix_refl _) _ (Option.get_mem _)

/-
  A prefetch that was queued before the invalidation is put
  into the TLB after it and hit.
-/
theorem not_complete_queued :
    ∃ t ∈ construct ⟨4, 4, [12, 21], .data, false, true, 8⟩
        Replacement.lru (Replacement.lruInit 1 4),
      ∃ s ∈ Run.run watch ⟨t, []⟩
          [.lookup ⟨0x1000, 0, fun _ => 0, [[⟨5, 12, 7, 0x1000⟩]]⟩,
            .invalidate 0x1000 12],
        ((s.tlb.lookup ⟨0x1000, 6, fun _ => 0, []⟩).bind
            Prod.fst).map TlbBlock.ppn = some 7 ∧
          ¬ Complete s (.lookup ⟨0x1000, 6, fun _ => 0, []⟩) := by
  have hRuns :
      ∃ t ∈ construct ⟨4, 4, [12, 21], .data, false, true, 8⟩
          Replacement.lru (Replacement.lruInit 1 4),
        ∃ s ∈ Run.run watch ⟨t, []⟩
            [.lookup ⟨0x1000, 0, fun _ => 0,
                [[⟨5, 12, 7, 0x1000⟩]]⟩,
              .invalidate 0x1000 12],
          (∃ r ∈ s.tlb.lookup ⟨0x1000, 6, fun _ => 0, []⟩,
            ∃ b ∈ r.1, b.ppn = 7) ∧
            s.closed.map (fun c =>
              (c.page, c.renewed.length)) =
              [((0x1000, 12), 0)] := by
    decide +kernel
  rcases hRuns with
    ⟨t, hConstruct, s, hRun, ⟨⟨out, t'⟩, hCall, b, hOut, hPpn⟩,
      hClosed⟩
  simp only [Option.mem_def] at hOut hCall
  rw [hOut] at hCall
  refine ⟨t, hConstruct, s, hRun, ?_, ?_⟩
  · rw [hCall, Option.bind_some, Option.map_some, hPpn]
  · intro hComplete
    rcases List.map_eq_cons_iff.mp hClosed with
      ⟨c, rest, hList, hPage, -⟩
    simp only [Prod.mk.injEq] at hPage
    have hRenews := hComplete b t' hCall c (by simp [hList])
      (by rw [hPage.1])
    rcases hRenews with ⟨r, hMem, -⟩
    rw [List.length_eq_zero_iff.mp hPage.2] at hMem
    cases hMem

end Tlb

end Virtuoso
