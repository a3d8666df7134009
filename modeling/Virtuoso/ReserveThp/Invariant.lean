import Virtuoso.Buddy.Invariant
import Virtuoso.ReserveThp.Basic

/-
  Who holds which frame under the reservation allocator.

  The reserved regions and the frames that left the map tile
  the memory together with the free lists. Every use lies in
  a reserved region, at the offset of its page, or in frames
  that left the map.

  Main declarations:
    * `Use.Compatible`
    * `held_markPage`
-/

------------------------------------------------------------
-- Uses And The Map
------------------------------------------------------------

namespace Virtuoso

namespace ReserveThp

open Span Buddy

/-
  The frames returned to one request, with the virtual page
  of a user request.
-/
structure Use where
  page : Option Nat
  pageSize : Nat
  frames : Span

/-
  A later use shares no frame with an earlier one, except
  that a promoted region takes over the frames of its own
  4KB pages.
-/
def Use.Compatible (later earlier : Use) : Prop :=
  later.frames.Apart earlier.frames ∨
    later.pageSize = 21 ∧ earlier.pageSize = 12 ∧
      ∃ p q, later.page = some p ∧ earlier.page = some q ∧
        p / 512 = q / 512

/- The use of a page in the region reserved for it. -/
def InRegion (e : Nat × Region) (u : Use) : Prop :=
  ∃ page, u.page = some page ∧ page / 512 = e.1 ∧
    (u.pageSize = 12 ∧
        u.frames = ⟨e.2.regionBegin + page % 512,
          e.2.regionBegin + page % 512⟩ ∨
      e.2.promoted = true ∧ u.frames = e.2.span)

/- All frames of a use belong to one span. -/
def Inside (u : Use) (s : Span) : Prop :=
  ∀ p, u.frames.Has p → s.Has p

/- A use of frames outside the map or of a reserved region. -/
def Backed
    (m : TwoMbMap)
    (rest : List Span)
    (u : Use) : Prop :=
  (∃ s ∈ rest, Inside u s) ∨ ∃ e ∈ m, InRegion e u

/- The reserved frames. -/
def spans (m : TwoMbMap) : List Span :=
  m.map (fun e => e.2.span)

@[simp] theorem spans_cons
    (e : Nat × Region)
    (m : TwoMbMap) :
    spans (e :: m) = e.2.span :: spans m := rfl

/-
  The invariant: `rest` are the frames outside the map that
  are in use.
-/
structure Held
    (s : ReserveThp)
    (uses : List Use) : Prop where
  keys : (s.twoMbMap.map Prod.fst).Nodup
  backed : ∃ rest,
    Tiled s.buddy (spans s.twoMbMap ++ rest) ∧
      ∀ u ∈ uses, Backed s.twoMbMap rest u
  compatible : uses.Pairwise Use.Compatible

/- The part of the invariant that says where the uses lie. -/
structure Backing
    (s : ReserveThp)
    (uses : List Use) : Prop where
  keys : (s.twoMbMap.map Prod.fst).Nodup
  backed : ∃ rest,
    Tiled s.buddy (spans s.twoMbMap ++ rest) ∧
      ∀ u ∈ uses, Backed s.twoMbMap rest u

theorem Held.backing
    {s : ReserveThp}
    {uses : List Use}
    (hHeld : Held s uses) :
    Backing s uses :=
  ⟨hHeld.keys, hHeld.backed⟩

theorem Backing.held
    {s : ReserveThp}
    {uses : List Use}
    (hBacking : Backing s uses)
    (hCompatible : uses.Pairwise Use.Compatible) :
    Held s uses :=
  ⟨hBacking.keys, hBacking.backed, hCompatible⟩

variable {u : Use}

/- A use in a region stays inside the frames of the region. -/
theorem InRegion.inside
    {e : Nat × Region}
    (hIn : InRegion e u) :
    Inside u e.2.span := by
  intro p hHas
  rcases hIn with ⟨page, -, -, hSmall | hLarge⟩
  · rw [hSmall.2] at hHas
    have hLt := Nat.mod_lt page (show 0 < 512 by decide)
    unfold Has at *
    simp only [Region.span] at *
    omega
  · rw [hLarge.2] at hHas
    exact hHas

variable {m : TwoMbMap}

/- A backed use lies in one of the spans handed out. -/
theorem Backed.inside
    {rest : List Span}
    (hBacked : Backed m rest u) :
    ∃ s ∈ spans m ++ rest, Inside u s := by
  rcases hBacked with ⟨s, hMem, hInside⟩ | ⟨e, hMem, hIn⟩
  · exact ⟨s, List.mem_append_right _ hMem, hInside⟩
  · refine ⟨e.2.span, ?_, hIn.inside⟩
    apply List.mem_append_left
    exact List.mem_map_of_mem hMem

/- Uses of disjoint spans share no frame. -/
theorem apart_of_inside
    {u v : Use}
    {s t : Span}
    (hLeft : Inside u s)
    (hRight : Inside v t)
    (hApart : s.Apart t) :
    u.frames.Apart v.frames := by
  intro p hHas hHas'
  exact hApart p (hLeft p hHas) (hRight p hHas')

variable {b : Buddy}

/- The block handed out last shares no page with the others. -/
theorem tiled_head_apart
    {block : Span}
    {out : List Span}
    (hTiled : Tiled b (block :: out)) :
    ∀ s ∈ out, block.Apart s := by
  have hOnce : ∀ p, coverage (block :: out) p ≤ 1 := by
    intro p
    have := hTiled.once p
    omega
  exact (List.pairwise_cons.mp (pairwise_apart hOnce)).1

/- An entry found in the map, and the map without it. -/
theorem perm_of_lookup
    (hKeys : (m.map Prod.fst).Nodup)
    {key : Nat}
    {region : Region}
    (hMem : (key, region) ∈ m) :
    m.Perm ((key, region) :: TwoMbMap.erase m key) := by
  rcases List.append_of_mem hMem with ⟨l, l', hEq⟩
  subst hEq
  simp only [List.map_append, List.map_cons,
    List.nodup_append, List.nodup_cons] at hKeys
  rcases hKeys with ⟨-, ⟨hRight, -⟩, hLeft⟩
  have hEraseLeft : TwoMbMap.erase l key = l := by
    unfold TwoMbMap.erase
    rw [List.filter_eq_self]
    intro e hIn
    have hNe := hLeft e.1 (List.mem_map_of_mem hIn) key (by simp)
    simpa using hNe
  have hEraseRight : TwoMbMap.erase l' key = l' := by
    unfold TwoMbMap.erase
    rw [List.filter_eq_self]
    intro e hIn
    have hNe : e.1 ≠ key := by
      intro hEq
      exact hRight (hEq ▸ List.mem_map_of_mem hIn)
    simpa using hNe
  have hErase :
      TwoMbMap.erase (l ++ (key, region) :: l') key = l ++ l' := by
    rw [← hEraseLeft, ← hEraseRight]
    simp [TwoMbMap.erase]
  rw [hErase]
  exact List.perm_middle

theorem mem_of_lookup
    {key : Nat}
    {region : Region}
    (hLookup : m.lookup key = some region) :
    (key, region) ∈ m := by
  rcases List.lookup_eq_some_iff.mp hLookup with
    ⟨l, l', hEq, -⟩
  simp [hEq]

theorem spans_perm
    {m m' : TwoMbMap}
    (hPerm : m.Perm m') :
    (spans m).Perm (spans m') :=
  hPerm.map _

------------------------------------------------------------
-- The Steps Of An Allocation
------------------------------------------------------------

variable {s : ReserveThp} {uses : List Use}

/- A frame from the buddy allocator. -/
def buddyUse (page : Option Nat) (frame : Nat) : Use :=
  ⟨page, 12, ⟨frame, frame⟩⟩

variable {s' : ReserveThp}

/-
  A request to the buddy allocator returns a frame that no
  use holds, or finds all free lists empty.
-/
theorem backing_fromBuddy
    (hBacking : Backing s uses)
    {frame : Option Nat}
    (hCall : fromBuddy s 4096 = some (frame, s')) :
    (frame = none ∧ s' = s ∧ ∀ k, s.buddy.freeList k = []) ∨
      ∃ f, frame = some f ∧
        (∀ page, Backing s' (buddyUse page f :: uses)) ∧
        ∀ u ∈ uses, Apart ⟨f, f⟩ u.frames := by
  rcases hBacking.backed with ⟨rest, hTiled, hBacked⟩
  have hOrder : Buddy.orderOf (4096 / 4096) = 0 := by decide
  rcases allocate_spec hTiled 4096 (by rw [hOrder]; omega) with
    ⟨hNone, hEmpty⟩ | ⟨f, b, hSome, -, hTiled'⟩
  · left
    simp only [fromBuddy, hNone, Option.map_some,
      Option.some.injEq, Prod.mk.injEq] at hCall
    refine ⟨hCall.1.symm, hCall.2.symm, fun k => ?_⟩
    by_cases hLe : k ≤ s.buddy.maxOrder
    · exact hEmpty k (by rw [hOrder]; omega) hLe
    · apply List.eq_nil_iff_forall_not_mem.mpr
      intro block hMem
      exact hLe (hTiled.shelved k block hMem).1
  · right
    simp only [fromBuddy, hSome, Option.map_some,
      Option.some.injEq, Prod.mk.injEq] at hCall
    rcases hCall with ⟨hFrame, hState⟩
    refine ⟨f, hFrame.symm, ?_, ?_⟩
    · intro page
      subst hState
      rw [hOrder, Nat.pow_zero, Nat.add_sub_cancel] at hTiled'
      have hSelf : Inside (buddyUse page f) ⟨f, f⟩ :=
        fun p hHas => hHas
      refine ⟨hBacking.keys, ⟨⟨f, f⟩ :: rest, ?_, ?_⟩⟩
      · exact hTiled'.perm List.perm_middle.symm
      · intro u hMem
        rcases List.mem_cons.mp hMem with hEq | hOld
        · exact Or.inl ⟨_, by simp, hEq ▸ hSelf⟩
        · rcases hBacked u hOld with
            ⟨t, hIn, hInside⟩ | hRegion
          · exact Or.inl ⟨t, by simp [hIn], hInside⟩
          · exact Or.inr hRegion
    · intro u hMem p hHas hHas'
      rw [hOrder, Nat.pow_zero, Nat.add_sub_cancel] at hTiled'
      rcases (hBacked u hMem).inside with ⟨t, hIn, hInside⟩
      exact tiled_head_apart hTiled' t hIn p hHas (hInside p hHas')

theorem held_fromBuddy
    (hHeld : Held s uses)
    {frame : Option Nat}
    (hCall : fromBuddy s 4096 = some (frame, s')) :
    (frame = none ∧ s' = s ∧ ∀ k, s.buddy.freeList k = []) ∨
      ∃ f, frame = some f ∧ ∀ page,
        Held s' (buddyUse page f :: uses) := by
  rcases backing_fromBuddy hHeld.backing hCall with
    hNone | ⟨f, hFrame, hBacking, hApart⟩
  · exact Or.inl hNone
  · refine Or.inr ⟨f, hFrame, fun page => ?_⟩
    apply (hBacking page).held
    refine List.Pairwise.cons ?_ hHeld.compatible
    intro u hMem
    exact Or.inl (hApart u hMem)

/- A reservation adds a region that no use holds. -/
theorem backing_reserved
    (hBacking : Backing s uses)
    {key : Nat}
    (hLookup : s.twoMbMap.lookup key = none)
    {block : Span}
    (hReserve : s.buddy.reserve2mbPage = some (some block, b)) :
    Backing (reserved s b key block) uses ∧
      ∀ u ∈ uses,
        Apart ⟨block.start, block.start + 511⟩ u.frames := by
  rcases hBacking.backed with ⟨rest, hTiled, hBacked⟩
  have hLists : 4 ≤ s.buddy.maxOrder := by
    by_contra hFew
    simp only [reserve2mbPage] at hReserve
    rw [if_pos (by omega)] at hReserve
    cases hReserve
  rcases reserve2mbPage_spec hTiled hLists with
    ⟨hNone, -⟩ | ⟨block', b', hSome, -, hBlock, hTiled'⟩
  · rw [hNone] at hReserve
    cases hReserve
  · rw [hSome] at hReserve
    cases hReserve
    have hSpan : (⟨block.start, block.start + 511⟩ : Span) =
        block := by
      have hSize := hBlock.size
      cases block
      simp only [Span.mk.injEq, true_and] at *
      omega
    refine ⟨⟨?_, ⟨rest, ?_, ?_⟩⟩, ?_⟩
    · have hNew : key ∉ s.twoMbMap.map Prod.fst := by
        intro hMem
        rcases List.mem_map.mp hMem with ⟨e, hIn, hEq⟩
        have hNe := List.lookup_eq_none_iff.mp hLookup e hIn
        simp [hEq] at hNe
      exact List.nodup_cons.mpr ⟨hNew, hBacking.keys⟩
    · simpa [reserved, Region.span, hSpan] using hTiled'
    · intro u hMem
      rcases hBacked u hMem with hOut | ⟨e, hIn, hRegion⟩
      · exact Or.inl hOut
      · exact Or.inr ⟨e, List.mem_cons_of_mem _ hIn, hRegion⟩
    · intro u hMem p hHas hHas'
      rcases (hBacked u hMem).inside with ⟨t, hIn, hInside⟩
      rw [hSpan] at hHas
      exact tiled_head_apart hTiled' t hIn p hHas (hInside p hHas')

theorem held_reserved
    (hHeld : Held s uses)
    {key : Nat}
    (hLookup : s.twoMbMap.lookup key = none)
    {block : Span}
    (hReserve : s.buddy.reserve2mbPage = some (some block, b)) :
    Held (reserved s b key block) uses :=
  (backing_reserved hHeld.backing hLookup hReserve).1.held
    hHeld.compatible

/-
  Replacing a region by one with the same frames keeps the
  tiling and its uses. A use in the new region shares frames
  with uses of the region only.
-/
theorem backing_replace
    (hBacking : Backing s uses)
    {key : Nat}
    {region region' : Region}
    (hMem : (key, region) ∈ s.twoMbMap)
    (hBegin : region'.regionBegin = region.regionBegin)
    (hPromoted : region.promoted = true → region'.promoted = true)
    {u : Use}
    (hNew : InRegion (key, region') u) :
    Backing
        { s with
          twoMbMap := (key, region') ::
            TwoMbMap.erase s.twoMbMap key }
        (u :: uses) ∧
      ∀ v ∈ uses, InRegion (key, region) v ∨
        u.frames.Apart v.frames := by
  rcases hBacking.backed with ⟨rest, hTiled, hBacked⟩
  have hPerm := perm_of_lookup hBacking.keys hMem
  have hTiled' := hTiled.perm ((spans_perm hPerm).append_right rest)
  have hSpan : region'.span = region.span := by
    simp [Region.span, hBegin]
  refine ⟨⟨?_, ⟨rest, ?_, ?_⟩⟩, ?_⟩
  · have hKeys := hBacking.keys
    rw [(hPerm.map Prod.fst).nodup_iff] at hKeys
    simpa using hKeys
  · simpa [hSpan] using hTiled'
  · intro v hIn
    rcases List.mem_cons.mp hIn with hEq | hOld
    · exact Or.inr ⟨_, by simp, hEq ▸ hNew⟩
    · rcases hBacked v hOld with hOut | ⟨e, hEntry, hRegion⟩
      · exact Or.inl hOut
      · rcases List.mem_cons.mp (hPerm.mem_iff.mp hEntry) with
          hEq | hOther
        · refine Or.inr ⟨(key, region'), by simp, ?_⟩
          subst hEq
          rcases hRegion with
            ⟨page, hPage, hKey, hSmall | hLarge⟩
          · exact ⟨page, hPage, hKey,
              Or.inl ⟨hSmall.1, by rw [hSmall.2, hBegin]⟩⟩
          · exact ⟨page, hPage, hKey,
              Or.inr ⟨hPromoted hLarge.1, by rw [hLarge.2, hSpan]⟩⟩
        · exact Or.inr ⟨e, List.mem_cons_of_mem _ hOther, hRegion⟩
  · intro v hOld
    have hHere : Inside u region.span := hSpan ▸ hNew.inside
    have hApart := tiled_head_apart hTiled'
    rcases hBacked v hOld with
      ⟨t, hIn, hInside⟩ | ⟨e, hEntry, hRegion⟩
    · exact Or.inr (apart_of_inside hHere hInside
        (hApart t (List.mem_append_right _ hIn)))
    · rcases List.mem_cons.mp (hPerm.mem_iff.mp hEntry) with
        hEq | hOther
      · exact Or.inl (hEq ▸ hRegion)
      · refine Or.inr (apart_of_inside hHere hRegion.inside
          (hApart _ (List.mem_append_left _ ?_)))
        exact List.mem_map_of_mem hOther

/- The same with the uses of a region not yet promoted. -/
theorem held_replace
    (hHeld : Held s uses)
    {key : Nat}
    {region region' : Region}
    (hMem : (key, region) ∈ s.twoMbMap)
    (hBegin : region'.regionBegin = region.regionBegin)
    (hPromoted : region.promoted = false)
    (hNew : InRegion (key, region') u)
    (hSame : ∀ v ∈ uses, InRegion (key, region) v →
      u.Compatible v) :
    Held
      { s with
        twoMbMap := (key, region') ::
          TwoMbMap.erase s.twoMbMap key }
      (u :: uses) := by
  have hStays :
      region.promoted = true → region'.promoted = true := by
    intro hLarge
    rw [hPromoted] at hLarge
    cases hLarge
  rcases backing_replace hHeld.backing hMem hBegin hStays hNew
    with ⟨hBacking, hOthers⟩
  apply hBacking.held
  refine List.Pairwise.cons ?_ hHeld.compatible
  intro v hOld
  rcases hOthers v hOld with hRegion | hApart
  · exact hSame v hOld hRegion
  · exact Or.inl hApart

/- The use of a page in its region. -/
def regionUse (page : Nat) (placed : Nat × Bool) : Use :=
  if placed.2 then
    ⟨some page, 21, ⟨placed.1, placed.1 + 511⟩⟩
  else
    buddyUse (some page) placed.1

/- Marking a page that was not requested before. -/
theorem held_markPage
    (hHeld : Held s uses)
    {page : Nat}
    {region : Region}
    (hMem : (page / 512, region) ∈ s.twoMbMap)
    (hFresh : ∀ u ∈ uses, u.page ≠ some page)
    {placed : Nat × Bool}
    (hMark :
      markPage s (page / 512) region (page % 512) =
        some (placed, s')) :
    Held s' (regionUse page placed :: uses) := by
  unfold markPage at hMark
  cases hPromoted : region.promoted with
  | true => simp [hPromoted] at hMark
  | false =>
      simp only [hPromoted, Bool.false_eq_true, if_false] at hMark
      split at hMark
      · cases hMark
        refine held_replace hHeld hMem ?_ hPromoted ?_ ?_
        · rfl
        · exact ⟨page, rfl, rfl, Or.inr ⟨rfl, rfl⟩⟩
        · intro v hIn hRegion
          rcases hRegion with
            ⟨q, hPage, hKey, hSmall | hLarge⟩
          · exact Or.inr
              ⟨rfl, hSmall.1, page, q, rfl, hPage, hKey.symm⟩
          · rw [hPromoted] at hLarge
            exact absurd hLarge.1 (by decide)
      · cases hMark
        refine held_replace hHeld hMem ?_ hPromoted ?_ ?_
        · rfl
        · exact ⟨page, rfl, rfl, Or.inl ⟨rfl, rfl⟩⟩
        · intro v hIn hRegion
          rcases hRegion with
            ⟨q, hPage, hKey, hSmall | hLarge⟩
          · left
            intro p hHas hHas'
            rw [hSmall.2] at hHas'
            have hNe : page ≠ q := by
              intro hEq
              exact hFresh v hIn (hEq ▸ hPage)
            have hDiff : page % 512 ≠ q % 512 := by
              simp only at hKey
              omega
            unfold Has at hHas hHas'
            simp only [regionUse, buddyUse, Bool.false_eq_true,
              if_false] at hHas hHas'
            omega
          · rw [hPromoted] at hLarge
            exact absurd hLarge.1 (by decide)

/- A fully used region has nothing to put back. -/
theorem putBack_eq_nil
    {region : Region}
    (hFull : ∀ j < 512, region.bitset j = true) :
    region.putBack = [] := by
  unfold Region.putBack
  rw [List.map_eq_nil_iff, List.filter_eq_nil_iff]
  intro j hMem
  simp [hFull j (List.mem_range.mp hMem)]

variable {pick : Nat}

theorem mem_of_utilizationFront
    {e : Nat × Region}
    (hFront : utilizationFront m pick = some e) :
    e ∈ m ∧ e.2.promoted = false ∧
      ∀ e' ∈ m, e'.2.promoted = false → e.2.count ≤ e'.2.count := by
  have hMem := List.mem_of_getElem? hFront
  rcases List.mem_filter.mp hMem with ⟨hLeft, hLeast⟩
  rcases List.mem_filter.mp hLeft with ⟨hIn, hOpen⟩
  refine ⟨hIn, by simpa using hOpen, fun e' hIn' hOpen' => ?_⟩
  have hAll := List.all_eq_true.mp hLeast e'
    (List.mem_filter.mpr ⟨hIn', by simpa using hOpen'⟩)
  simpa using hAll

/- Demoting a fully used region only drops it from the map. -/
theorem backing_demotePage
    (hBacking : Backing s uses)
    (hFull : ∀ e ∈ s.twoMbMap, e.2.promoted = false →
      ∀ j < 512, e.2.bitset j = true)
    {region : Region}
    (hDemote : demotePage s pick = some (region, s')) :
    region.putBack = [] ∧ Backing s' uses := by
  unfold demotePage at hDemote
  cases hFront : utilizationFront s.twoMbMap pick with
  | none => simp [hFront] at hDemote
  | some e =>
      simp only [hFront, Option.some.injEq,
        Prod.mk.injEq] at hDemote
      rcases hDemote with ⟨hRegion, hState⟩
      subst hRegion
      subst hState
      rcases mem_of_utilizationFront hFront with
        ⟨hMem, hOpen, -⟩
      have hNil := putBack_eq_nil (hFull e hMem hOpen)
      refine ⟨hNil, ?_⟩
      rcases hBacking.backed with ⟨rest, hTiled, hBacked⟩
      have hPerm := perm_of_lookup hBacking.keys hMem
      refine ⟨?_, ⟨e.2.span :: rest, ?_, ?_⟩⟩
      · have hKeys := hBacking.keys
        rw [(hPerm.map Prod.fst).nodup_iff] at hKeys
        exact (List.nodup_cons.mp hKeys).2
      · have hTiled' := hTiled.perm
          ((spans_perm hPerm).append_right rest)
        rw [hNil]
        exact hTiled'.perm List.perm_middle.symm
      · intro u hIn
        rcases hBacked u hIn with
          ⟨t, hOut, hInside⟩ | ⟨e', hEntry, hRegion⟩
        · exact Or.inl ⟨t, by simp [hOut], hInside⟩
        · rcases List.mem_cons.mp (hPerm.mem_iff.mp hEntry)
            with hEq | hOther
          · subst hEq
            exact Or.inl ⟨_, by simp, hRegion.inside⟩
          · exact Or.inr ⟨e', hOther, hRegion⟩

theorem held_demotePage
    (hHeld : Held s uses)
    (hFull : ∀ e ∈ s.twoMbMap, e.2.promoted = false →
      ∀ j < 512, e.2.bitset j = true)
    {region : Region}
    (hDemote : demotePage s pick = some (region, s')) :
    region.putBack = [] ∧ Held s' uses := by
  rcases backing_demotePage hHeld.backing hFull hDemote with
    ⟨hNil, hBacking⟩
  exact ⟨hNil, hBacking.held hHeld.compatible⟩

end ReserveThp

end Virtuoso
