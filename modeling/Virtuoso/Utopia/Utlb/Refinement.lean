import Virtuoso.Lib.Run
import Virtuoso.Utopia.Utlb.Basic

/-
  The UTLB as a map of bounded size for each set.

  The map of a set is its valid entries in the order of the
  stack, so an entry that is invalidated leaves the map and
  its way stays in the stack until it is filled. The calls
  return what the map says, and what they evict is what was
  allocated or hit least recently.

  Main declarations:
    * `UtopiaTlb.Refines.returns`
    * `UtopiaTlb.follows_run`
-/

------------------------------------------------------------
-- Maps And Sets
------------------------------------------------------------

namespace Virtuoso

/- Places of pages in segments, the latest use first. -/
abbrev UtlbMap := Nat → List ((Nat × Nat) × (Nat × Nat))

/- The calls are about the two page sizes. -/
def UtlbOp.PageSize : UtlbOp → Prop
| .lookup _ bits => bits = 12 ∨ bits = 21
| .allocate _ bits _ _ => bits = 12 ∨ bits = 21
| .invalidate _ bits => bits = 12 ∨ bits = 21
| .flush => True

namespace UtlbMap

/- What a call returns and does, on 2 ^ `k` maps. -/
def step
    (ways k : Nat)
    (m : UtlbMap) : UtlbOp → UtlbResult × UtlbMap
| .lookup address bits =>
    let vpn := UtopiaTlb.vpn address bits
    let i := vpn % 2 ^ k
    (.lookup ((LruMap.get (vpn, bits) (m i)).map
        (fun place => (place.1, place.2, bits))),
      Function.update m i (LruMap.hit (vpn, bits) (m i)))
| .allocate address bits segId wayIdx =>
    let vpn := UtopiaTlb.vpn address bits
    let i := vpn % 2 ^ k
    let r := LruMap.put ways (vpn, bits) (segId, wayIdx) (m i)
    (.allocate r.1, Function.update m i r.2)
| .invalidate address bits =>
    let vpn := UtopiaTlb.vpn address bits
    let i := vpn % 2 ^ k
    (.invalidate (LruMap.get (vpn, bits) (m i)).isSome,
      Function.update m i (LruMap.drop (vpn, bits) (m i)))
| .flush => (.flush, fun _ => [])

end UtlbMap

/- The page of a valid entry in set `i`, and its place. -/
def UtlbEntry.view
    (k i : Nat)
    (e : UtlbEntry) : Option ((Nat × Nat) × (Nat × Nat)) :=
  if e.valid then
    some ((e.vpnTag * 2 ^ k + i, e.getPageSizeBits),
      (e.segId, e.wayIdx))
  else none

namespace UtopiaTlb

theorem getPageSizeBits_eq_iff
    {e : UtlbEntry}
    {bits : Nat}
    (hBits : bits = 12 ∨ bits = 21) :
    e.getPageSizeBits = bits ↔ e.pageSizeBit = (bits == 21) := by
  unfold UtlbEntry.getPageSizeBits
  rcases hBits with hEq | hEq <;> subst hEq <;>
    cases e.pageSizeBit <;> decide

/- The comparison of a search is one of pages. -/
theorem view_key_iff
    {k vpn bits : Nat}
    {e : UtlbEntry}
    (hBits : bits = 12 ∨ bits = 21) :
    (e.valid && e.vpnTag == vpn / 2 ^ k &&
        e.pageSizeBit == (bits == 21)) = true ↔
      e.view k (vpn % 2 ^ k) =
        some ((vpn, bits), (e.segId, e.wayIdx)) := by
  have hTag : e.vpnTag * 2 ^ k + vpn % 2 ^ k = vpn ↔
      e.vpnTag = vpn / 2 ^ k := by
    have hSplit := Nat.div_add_mod' vpn (2 ^ k)
    constructor
    · intro hEq
      refine Nat.eq_of_mul_eq_mul_right (Nat.two_pow_pos k) ?_
      omega
    · intro hEq
      rw [hEq, hSplit]
  unfold UtlbEntry.view
  split_ifs with hValid
  · simp [hValid, hTag, getPageSizeBits_eq_iff hBits]
  · simp [hValid]

theorem view_eq_some
    {k i : Nat}
    {e : UtlbEntry}
    {u : (Nat × Nat) × (Nat × Nat)}
    (hView : e.view k i = some u) :
    e.valid = true ∧
      u = ((e.vpnTag * 2 ^ k + i, e.getPageSizeBits),
        (e.segId, e.wayIdx)) := by
  unfold UtlbEntry.view at hView
  split_ifs at hView with hValid
  exact ⟨hValid, (Option.some.inj hView).symm⟩

/-
  Each way is in the stack once, and no two ways have valid
  entries of one page.
-/
structure Sound (ways k i : Nat) (s : UtlbSet) : Prop where
  stack : s.lruStack.Perm (List.range ways)
  distinct : ∀ way < ways, ∀ other < ways, ∀ u u',
    (s.entry way).view k i = some u →
      (s.entry other).view k i = some u' → u.1 = u'.1 → way = other

/- The stack of the ways has the map of the set. -/
structure Follows
    (ways k i : Nat)
    (l : List ((Nat × Nat) × (Nat × Nat)))
    (s : UtlbSet) : Prop where
  sound : Sound ways k i s
  uses : s.lruStack.filterMap
    (fun way => (s.entry way).view k i) = l

section Sets

variable {ways k i way : Nat} {s : UtlbSet} {e : UtlbEntry}
variable {l : List ((Nat × Nat) × (Nat × Nat))}
variable {page place : Nat × Nat}

theorem Sound.mem_stack
    (hSound : Sound ways k i s) :
    way ∈ s.lruStack ↔ way < ways :=
  hSound.stack.mem_iff.trans List.mem_range

theorem Sound.nodup
    (hSound : Sound ways k i s) :
    s.lruStack.Nodup :=
  hSound.stack.nodup_iff.mpr List.nodup_range

/- The one way with an entry of a page is its slot. -/
theorem Sound.only
    (hSound : Sound ways k i s)
    (hWay : way < ways)
    (hHere : (s.entry way).view k i = some (page, place)) :
    LruMap.Only s.lruStack
      (fun way => (s.entry way).view k i) page way := by
  intro other hMem u hView
  constructor
  · intro hKey
    exact hSound.distinct other (hSound.mem_stack.mp hMem)
      way hWay u (page, place) hView hHere hKey
  · intro hEq
    subst hEq
    exact congrArg Prod.fst
      (Option.some.inj (hView.symm.trans hHere))

theorem setEntry_of_ne
    {other : Nat}
    (hNe : other ≠ way) :
    (setEntry s way e).entry other = s.entry other :=
  Function.update_of_ne hNe _ _

theorem setEntry_eq_self :
    setEntry s way (s.entry way) = s := by
  rw [setEntry, Function.update_eq_self]

@[simp] theorem setEntry_self :
    (setEntry s way e).entry way = e :=
  Function.update_self _ _ _

/- A way that gets an entry of a page with none elsewhere. -/
theorem Sound.setEntry
    (hSound : Sound ways k i s)
    (hElse : ∀ u, e.view k i = some u →
      ∀ other < ways, other ≠ way →
        ∀ u', (s.entry other).view k i = some u' → u'.1 ≠ u.1) :
    Sound ways k i (setEntry s way e) where
  stack := hSound.stack
  distinct := by
    intro first hFirst second hSecond u u' hU hU' hKey
    by_cases hEq : first = way
    · by_cases hEq' : second = way
      · rw [hEq, hEq']
      · rw [hEq, setEntry_self] at hU
        rw [setEntry_of_ne hEq'] at hU'
        exact absurd hKey.symm
          (hElse u hU second hSecond hEq' u' hU')
    · rw [setEntry_of_ne hEq] at hU
      by_cases hEq' : second = way
      · rw [hEq', setEntry_self] at hU'
        exact absurd hKey (hElse u' hU' first hFirst hEq u hU)
      · rw [setEntry_of_ne hEq'] at hU'
        exact hSound.distinct first hFirst second hSecond u u'
          hU hU' hKey

theorem Sound.updateLRU
    (hFew : ways ≤ 256)
    (hSound : Sound ways k i s)
    (hWay : way < ways) :
    Sound ways k i (updateLRU s way) where
  stack := by
    have hByte : way % 2 ^ 8 = way :=
      Nat.mod_eq_of_lt (by omega)
    simp only [UtopiaTlb.updateLRU, hByte]
    exact (List.perm_cons_erase
      (hSound.mem_stack.mpr hWay)).symm.trans hSound.stack
  distinct := hSound.distinct

/- The map after an entry was put first. -/
theorem uses_front
    (hFew : ways ≤ 256)
    (hWay : way < ways) :
    (updateLRU (setEntry s way e) way).lruStack.filterMap
        (fun other => ((updateLRU (setEntry s way e)
          way).entry other).view k i) =
      (way :: s.lruStack.erase way).filterMap
        (fun other => ((setEntry s way e).entry other).view
          k i) := by
  have hByte : way % 2 ^ 8 = way :=
    Nat.mod_eq_of_lt (by omega)
  simp only [UtopiaTlb.updateLRU, UtopiaTlb.setEntry, hByte]

/- An entry of a page that only this way may have had. -/
theorem Follows.front
    (hFew : ways ≤ 256)
    (hFollows : Follows ways k i l s)
    (hWay : way < ways)
    (hOnly : LruMap.Only s.lruStack
      (fun way => (s.entry way).view k i) page way)
    (hView : e.view k i = some (page, place)) :
    Follows ways k i ((page, place) :: LruMap.drop page l)
      (updateLRU (setEntry s way e) way) where
  sound := by
    refine (hFollows.sound.setEntry ?_).updateLRU hFew hWay
    intro u hU other hOther hNe u' hU' hKey
    rw [hView, Option.some.injEq] at hU
    rw [← hU] at hKey
    exact hNe ((hOnly other
      (hFollows.sound.mem_stack.mpr hOther) u' hU').mp hKey)
  uses := by
    rw [uses_front hFew hWay, ← hFollows.uses]
    refine LruMap.filterMap_front hFollows.sound.nodup hOnly ?_ ?_
    · intro other hNe
      rw [setEntry_of_ne hNe]
    · rw [setEntry_self, hView]

/- A new page that takes the last way of a full set. -/
theorem Follows.evict
    (hFew : ways ≤ 256)
    (hFollows : Follows ways k i l s)
    (hLast : s.lruStack.getLast? = some way)
    (hFull : ∀ other < ways, (s.entry other).valid = true)
    (hNowhere : ∀ other < ways, ∀ u,
      (s.entry other).view k i = some u → u.1 ≠ page)
    (hView : e.view k i = some (page, place)) :
    Follows ways k i ((page, place) :: l.dropLast)
      (updateLRU (setEntry s way e) way) where
  sound := by
    refine (hFollows.sound.setEntry ?_).updateLRU hFew
      (hFollows.sound.mem_stack.mp (List.mem_of_getLast? hLast))
    intro u hU other hOther _ u' hU'
    rw [hView, Option.some.injEq] at hU
    rw [← hU]
    exact hNowhere other hOther u' hU'
  uses := by
    rw [uses_front hFew (hFollows.sound.mem_stack.mp
      (List.mem_of_getLast? hLast)), ← hFollows.uses]
    refine LruMap.filterMap_evict hFollows.sound.nodup hLast
      ?_ ?_ ?_
    · intro other hMem
      have hValid := hFull other (hFollows.sound.mem_stack.mp hMem)
      simp [UtlbEntry.view, hValid]
    · intro other hNe
      rw [setEntry_of_ne hNe]
    · rw [setEntry_self, hView]

/- An entry that is no longer valid, in its place. -/
theorem Follows.clear
    (hFollows : Follows ways k i l s)
    (hWay : way < ways)
    (hHere : (s.entry way).view k i = some (page, place)) :
    Follows ways k i (LruMap.drop page l)
      (setEntry s way
        { s.entry way with valid := false }) where
  sound := hFollows.sound.setEntry (fun u hU => by
    simp [UtlbEntry.view] at hU)
  uses := by
    rw [← hFollows.uses]
    refine LruMap.filterMap_clear
      (hFollows.sound.only hWay hHere) ?_ ?_
    · intro other hNe
      rw [setEntry_of_ne hNe]
    · rw [setEntry_self]
      simp [UtlbEntry.view]

/- There is room in the map while a way has no entry. -/
theorem Follows.length_lt_iff
    (hFollows : Follows ways k i l s) :
    l.length < ways ↔
      ∃ way < ways, (s.entry way).valid = false := by
  have hLength : s.lruStack.length = ways := by
    rw [hFollows.sound.stack.length_eq, List.length_range]
  rw [← hFollows.uses]
  nth_rewrite 1 [← hLength]
  rw [List.length_filterMap_lt_length_iff_exists]
  simp only [hFollows.sound.mem_stack, exists_prop,
    UtlbEntry.view, ite_eq_right_iff, reduceCtorEq, imp_false,
    Bool.not_eq_true]

/-
  A new page takes a way without an entry if there is one,
  and else that of the page used least recently.
-/
theorem Follows.victim
    (hSome : 1 ≤ ways)
    (hFew : ways ≤ 256)
    (hFollows : Follows ways k i l s)
    (hGet : LruMap.get page l = none)
    (hDrop : LruMap.drop page l = l)
    (hNowhere : ∀ other < ways, ∀ u,
      (s.entry other).view k i = some u → u.1 ≠ page)
    (hView : e.view k i = some (page, place)) :
    ∃ way, getLRUVictim ways s = some way ∧
      (s.entry way).valid = (LruMap.put ways page place l).1 ∧
      Follows ways k i (LruMap.put ways page place l).2
        (updateLRU (setEntry s way e) way) := by
  rw [LruMap.put, hGet]
  dsimp only
  unfold getLRUVictim
  cases hHole : (List.range ways).find?
      (fun way => !(s.entry way).valid) with
  | some way =>
      have hWay := List.mem_range.mp
        (List.mem_of_find?_eq_some hHole)
      have hFree : (s.entry way).valid = false := by
        simpa using List.find?_some hHole
      rw [if_pos (hFollows.length_lt_iff.mpr ⟨way, hWay, hFree⟩)]
      refine ⟨way, rfl, hFree, ?_⟩
      rw [← hDrop]
      refine hFollows.front hFew hWay ?_ hView
      intro other hMem u hU
      constructor
      · intro hKey
        exact absurd hKey (hNowhere other
          (hFollows.sound.mem_stack.mp hMem) u hU)
      · intro hEq
        rw [hEq] at hU
        rw [(view_eq_some hU).1] at hFree
        cases hFree
  | none =>
      have hFull : ∀ other < ways,
          (s.entry other).valid = true := by
        intro other hOther
        simpa using List.find?_eq_none.mp hHole other
          (List.mem_range.mpr hOther)
      have hRoom : ¬ l.length < ways := by
        intro hLt
        rcases hFollows.length_lt_iff.mp hLt with
          ⟨way, hWay, hFree⟩
        rw [hFull way hWay] at hFree
        cases hFree
      have hNe : s.lruStack ≠ [] := List.ne_nil_of_mem
        (hFollows.sound.mem_stack.mpr hSome)
      rw [if_neg hRoom]
      have hLast := List.getLast?_eq_some_getLast hNe
      have hWay := hFollows.sound.mem_stack.mp
        (List.getLast_mem hNe)
      exact ⟨_, hLast, hFull _ hWay,
        hFollows.evict hFew hLast hFull hNowhere hView⟩

/- A set without entries, with its stack as at the start. -/
theorem follows_reset
    {entry : Nat → UtlbEntry}
    (hFew : ways ≤ 256)
    (hEmpty : ∀ way, (entry way).valid = false) :
    Follows ways k i [] ⟨entry, resetStack ways⟩ := by
  have hNone : ∀ way, (entry way).view k i = none := by
    intro way
    simp [UtlbEntry.view, hEmpty way]
  have hStack : resetStack ways = List.range ways := by
    rw [resetStack]
    refine (List.map_congr_left (fun way hMem => ?_)).trans
      (List.map_id _)
    exact Nat.mod_eq_of_lt
      (Nat.lt_of_lt_of_le (List.mem_range.mp hMem) hFew)
  refine ⟨⟨hStack ▸ List.Perm.refl _, ?_⟩, ?_⟩
  · intro way _ other _ u _ hView
    rw [hNone] at hView
    cases hView
  · exact List.filterMap_eq_nil_iff.mpr (fun way _ => hNone way)

theorem findWay_some
    {vpn bits : Nat}
    (hBits : bits = 12 ∨ bits = 21)
    (hFind : findWay ways s (vpn / 2 ^ k) bits = some way) :
    way < ways ∧
      (s.entry way).view k (vpn % 2 ^ k) = some ((vpn, bits),
        ((s.entry way).segId, (s.entry way).wayIdx)) := by
  unfold findWay at hFind
  have hMatch := List.find?_some hFind
  exact ⟨List.mem_range.mp (List.mem_of_find?_eq_some hFind),
    (view_key_iff hBits).mp hMatch⟩

theorem findWay_none
    {vpn bits : Nat}
    (hBits : bits = 12 ∨ bits = 21)
    (hFind : findWay ways s (vpn / 2 ^ k) bits = none) :
    ∀ way < ways, ∀ u,
      (s.entry way).view k (vpn % 2 ^ k) = some u →
        u.1 ≠ (vpn, bits) := by
  intro way hWay u hView hKey
  apply List.find?_eq_none.mp hFind way (List.mem_range.mpr hWay)
  rw [view_key_iff hBits, hView, ← hKey]
  rw [(view_eq_some hView).2]

/- What a search finds is what the map has. -/
theorem Follows.get_some
    {vpn bits : Nat}
    (hFollows : Follows ways k (vpn % 2 ^ k) l s)
    (hBits : bits = 12 ∨ bits = 21)
    (hFind : findWay ways s (vpn / 2 ^ k) bits = some way) :
    LruMap.get (vpn, bits) l =
      some ((s.entry way).segId, (s.entry way).wayIdx) := by
  rcases findWay_some hBits hFind with ⟨hWay, hView⟩
  rw [← hFollows.uses]
  exact LruMap.get_filterMap
    (hFollows.sound.only hWay hView)
    (hFollows.sound.mem_stack.mpr hWay) hView

theorem Follows.get_none
    {vpn bits : Nat}
    (hFollows : Follows ways k (vpn % 2 ^ k) l s)
    (hBits : bits = 12 ∨ bits = 21)
    (hFind : findWay ways s (vpn / 2 ^ k) bits = none) :
    LruMap.get (vpn, bits) l = none ∧
      LruMap.drop (vpn, bits) l = l := by
  have hNowhere : ∀ way ∈ s.lruStack, ∀ u,
      (s.entry way).view k (vpn % 2 ^ k) = some u →
        u.1 ≠ (vpn, bits) := fun way hMem =>
    findWay_none hBits hFind way (hFollows.sound.mem_stack.mp hMem)
  rw [← hFollows.uses]
  exact ⟨LruMap.get_filterMap_none hNowhere,
    LruMap.drop_of_nowhere hNowhere⟩

/- The way that a search found, with its page used first. -/
theorem Follows.found
    {vpn bits : Nat}
    (hFew : ways ≤ 256)
    (hFollows : Follows ways k (vpn % 2 ^ k) l s)
    (hBits : bits = 12 ∨ bits = 21)
    (hFind : findWay ways s (vpn / 2 ^ k) bits = some way)
    (hView : e.view k (vpn % 2 ^ k) = some ((vpn, bits), place)) :
    Follows ways k (vpn % 2 ^ k)
      (((vpn, bits), place) :: LruMap.drop (vpn, bits) l)
      (updateLRU (setEntry s way e) way) := by
  rcases findWay_some hBits hFind with ⟨hWay, hHere⟩
  exact hFollows.front hFew hWay
    (hFollows.sound.only hWay hHere) hView

end Sets

------------------------------------------------------------
-- Calls And Runs
------------------------------------------------------------

/- Every set has its map. -/
structure Refines
    (ways k : Nat)
    (m : UtlbMap)
    (t : UtopiaTlb) : Prop where
  associativity : t.associativity = ways
  setIndexBits : t.setIndexBits = k
  sets : ∀ i, Follows ways k i (m i) (t.sets i)

/- A call returns what the maps say and refines them again. -/
def Returns
    (t : UtopiaTlb)
    (m : UtlbMap)
    (op : UtlbOp) : Prop :=
  ∃ r, t.step op = some r ∧
    r.1 = (m.step t.associativity t.setIndexBits op).1 ∧
    Refines t.associativity t.setIndexBits
      (m.step t.associativity t.setIndexBits op).2 r.2

section Calls

variable {ways k address bits : Nat}
variable {m : UtlbMap} {t : UtopiaTlb}

theorem Refines.setSet
    {i : Nat}
    {l : List ((Nat × Nat) × (Nat × Nat))}
    {s : UtlbSet}
    (hRefines : Refines ways k m t)
    (hSet : Follows ways k i l s) :
    Refines ways k (Function.update m i l) (t.setSet i s) where
  associativity := hRefines.associativity
  setIndexBits := hRefines.setIndexBits
  sets := by
    intro j
    by_cases hEq : j = i
    · subst hEq
      simpa [UtopiaTlb.setSet] using hSet
    · simpa [UtopiaTlb.setSet, hEq] using hRefines.sets j

theorem returns_lookup
    (hFew : t.associativity ≤ 256)
    (hBits : bits = 12 ∨ bits = 21)
    (hRefines : Refines t.associativity t.setIndexBits m t) :
    Returns t m (.lookup address bits) := by
  have hSet := hRefines.sets (t.getSetIndex address bits)
  refine ⟨_, rfl, ?_⟩
  simp only [lookup, UtlbMap.step, LruMap.hit]
  cases hFind : findWay t.associativity
      (t.sets (t.getSetIndex address bits))
      (t.getVPNTag address bits) bits with
  | none =>
      have hGet := (hSet.get_none hBits hFind).1
      simp only [getSetIndex] at hGet ⊢
      rw [hGet, Function.update_eq_self]
      exact ⟨rfl, hRefines⟩
  | some way =>
      have hGet := hSet.get_some hBits hFind
      have hView := (findWay_some hBits hFind).2
      have hSize := congrArg (fun u => u.1.2) (view_eq_some hView).2
      have hFront := hSet.found hFew hBits hFind hView
      rw [setEntry_eq_self] at hFront
      simp only [getSetIndex] at hGet hSize hFront ⊢
      rw [hGet]
      rw [← hSize]
      exact ⟨rfl, hRefines.setSet hFront⟩

theorem returns_invalidate
    (hBits : bits = 12 ∨ bits = 21)
    (hRefines : Refines t.associativity t.setIndexBits m t) :
    Returns t m (.invalidate address bits) := by
  have hSet := hRefines.sets (t.getSetIndex address bits)
  refine ⟨_, rfl, ?_⟩
  simp only [invalidate, UtlbMap.step]
  cases hFind : findWay t.associativity
      (t.sets (t.getSetIndex address bits))
      (t.getVPNTag address bits) bits with
  | none =>
      rcases hSet.get_none hBits hFind with ⟨hGet, hDrop⟩
      simp only [getSetIndex] at hGet hDrop ⊢
      rw [hGet, hDrop, Function.update_eq_self]
      exact ⟨rfl, hRefines⟩
  | some way =>
      have hGet := hSet.get_some hBits hFind
      rcases findWay_some hBits hFind with ⟨hWay, hView⟩
      have hClear := hSet.clear hWay hView
      simp only [getSetIndex] at hGet hClear ⊢
      rw [hGet]
      exact ⟨rfl, hRefines.setSet hClear⟩

/-
  A page that is not there takes a way without an entry if
  there is one, and else that of the page used least
  recently.
-/
theorem returns_allocate
    {segId wayIdx : Nat}
    (hSome : 1 ≤ t.associativity)
    (hFew : t.associativity ≤ 256)
    (hBits : bits = 12 ∨ bits = 21)
    (hRefines : Refines t.associativity t.setIndexBits m t) :
    Returns t m (.allocate address bits segId wayIdx) := by
  have hSet := hRefines.sets (t.getSetIndex address bits)
  unfold Returns
  simp only [step, allocate, UtlbMap.step]
  cases hFind : findWay t.associativity
      (t.sets (t.getSetIndex address bits))
      (t.getVPNTag address bits) bits with
  | some way =>
      have hGet := hSet.get_some hBits hFind
      have hMatch := (view_key_iff hBits).mpr
        (findWay_some hBits hFind).2
      -- only the place of the entry changes
      have hFront := hSet.found hFew hBits hFind
        (e := { (t.sets (t.getSetIndex address bits)).entry way with
          segId := segId, wayIdx := wayIdx })
        ((view_key_iff hBits).mp hMatch)
      simp only [getSetIndex] at hGet hFront ⊢
      rw [LruMap.put, hGet]
      exact ⟨_, rfl, rfl, hRefines.setSet hFront⟩
  | none =>
      rcases hSet.get_none hBits hFind with ⟨hGet, hDrop⟩
      have hNew : UtlbEntry.view t.setIndexBits
          (t.getSetIndex address bits)
          ⟨t.getVPNTag address bits, segId, wayIdx,
            bits == 21, true⟩ =
          some ((vpn address bits, bits), (segId, wayIdx)) :=
        (view_key_iff hBits).mp (by simp [getVPNTag])
      rcases hSet.victim hSome hFew hGet hDrop
          (findWay_none hBits hFind) hNew with
        ⟨way, hWay, hEvicts, hNext⟩
      rw [hWay, Option.map_some]
      refine ⟨_, rfl, ?_, hRefines.setSet hNext⟩
      exact congrArg UtlbResult.allocate hEvicts

theorem returns_flush
    (hFew : t.associativity ≤ 256) :
    Returns t m .flush := by
  refine ⟨_, rfl, rfl, rfl, rfl, fun i => ?_⟩
  exact follows_reset hFew (fun _ => rfl)

/- The result of every call, and the maps after it. -/
theorem Refines.returns
    (hSome : 1 ≤ ways)
    (hFew : ways ≤ 256)
    (hRefines : Refines ways k m t)
    (op : UtlbOp)
    (hOp : op.PageSize) :
    ∃ r, t.step op = some r ∧
      r.1 = (UtlbMap.step ways k m op).1 ∧
      Refines ways k (UtlbMap.step ways k m op).2 r.2 := by
  have hWays := hRefines.associativity
  have hSetIndexBits := hRefines.setIndexBits
  subst hWays hSetIndexBits
  cases op with
  | lookup address bits =>
      exact returns_lookup hFew hOp hRefines
  | allocate address bits segId wayIdx =>
      exact returns_allocate hSome hFew hOp hRefines
  | invalidate address bits =>
      exact returns_invalidate hOp hRefines
  | flush =>
      exact returns_flush hFew

end Calls

theorem refines_construct
    {numEntries ways k : Nat}
    (hFew : ways ≤ 256)
    (hSets : numEntries / ways = 2 ^ k) :
    Refines ways k (fun _ => []) (construct numEntries ways) where
  associativity := rfl
  setIndexBits := by
    rw [construct, hSets, Nat.log2_two_pow]
  sets := fun _ => follows_reset hFew (fun _ => rfl)

/-
  After all calls each set has its map, its stack is a
  permutation of its ways and no page has two valid entries
  in it; and a further call returns what the maps say.
-/
theorem follows_run
    (numEntries ways k : Nat)
    (hSome : 1 ≤ ways)
    (hFew : ways ≤ 256)
    (hSets : numEntries / ways = 2 ^ k)
    (ops : List UtlbOp)
    (hOps : ∀ op ∈ ops, op.PageSize) :
    let m := ops.foldl
      (fun m op => (UtlbMap.step ways k m op).2) (fun _ => [])
    ∃ t, Run.run (fun t op => (t.step op).map Prod.snd)
        (construct numEntries ways) ops = some t ∧
      Refines ways k m t ∧
      ∀ op, op.PageSize → ∃ t',
        t.step op = some ((UtlbMap.step ways k m op).1, t') := by
  have hStep : ∀ m t op, Refines ways k m t →
      op.PageSize →
        ∃ t', (step t op).map Prod.snd = some t' ∧
          Refines ways k (UtlbMap.step ways k m op).2 t' := by
    intro m t op hRefines hOp
    rcases hRefines.returns hSome hFew op hOp with
      ⟨r, hOutcome, -, hNext⟩
    exact ⟨r.2, by rw [hOutcome]; rfl, hNext⟩
  rcases Run.run_simulates hStep
      (refines_construct hFew hSets)
      (Run.permitted_of_forall_mem _ hOps) with
    ⟨t, hRun, hRefines⟩
  refine ⟨t, hRun, hRefines, fun op hOp => ?_⟩
  rcases hRefines.returns hSome hFew op hOp with
    ⟨r, hOutcome, hResult, -⟩
  exact ⟨r.2, by rw [hOutcome, ← hResult]⟩

/- A hole is filled before the other page is used again. -/
def refilled : List UtlbOp :=
  [.allocate 0x400000 21 1 2, .allocate 0x2000 12 0 3,
    .invalidate 0x400000 21, .allocate 0x4000 12 0 4,
    .lookup 0x2000 12, .allocate 0x6000 12 0 5]

/- The page in the hole was the one to be evicted. -/
theorem follows_run_refilled :
    ∃ t, Run.run (fun t op => (t.step op).map Prod.snd)
        (construct 4 2) refilled = some t ∧
      (∃ t', t.step (.lookup 0x4000 12) = some (.lookup none, t')) ∧
      ∃ t', t.step (.lookup 0x2000 12) =
        some (.lookup (some (0, 3, 12)), t') := by
  rcases follows_run 4 2 1 (by decide) (by decide) (by decide)
      refilled (by simp [refilled, UtlbOp.PageSize]) with
    ⟨t, hRun, -, hCalls⟩
  exact ⟨t, hRun, hCalls (.lookup 0x4000 12) (Or.inl rfl),
    hCalls (.lookup 0x2000 12) (Or.inl rfl)⟩

end UtopiaTlb

end Virtuoso
