import Mathlib.Data.List.Nodup
import Virtuoso.Utopia.RestSeg.Occupancy

/-
  The counters, fingerprints and LRU stamps of a restricted
  segment, along its history.

  A history remembers which way of which set each call used,
  the latest first. The stamps of a set order its ways by
  their latest uses, so that the way with the least stamp is
  the one least recently allocated, hit or touched.

  Main declarations:
    * `Utopia.RestSeg.setInvariant_run`
-/

namespace Virtuoso

namespace Utopia

namespace RestSegSet

variable {s s' : RestSegSet} {way tag owner : Nat}
variable {fingerprint : BitVec 8}

------------------------------------------------------------
-- Ordered Sets And Allocations
------------------------------------------------------------

/-
  The stamps of valid entries are different and not after the
  counter, and their fingerprints are those of their tags.
-/
structure Ordered
    (fingerprintBits : Nat)
    (s : RestSegSet) : Prop where
  sound : s.Sound
  inside : ∀ way, (s.entries way).valid = true →
    way < s.associativity
  below : ∀ way, (s.entries way).valid = true →
    (s.entries way).lruCounter ≤ s.globalLruCounter
  apart : ∀ way way', (s.entries way).valid = true →
    (s.entries way').valid = true →
    (s.entries way).lruCounter = (s.entries way').lruCounter →
      way = way'
  prints : ∀ way, (s.entries way).valid = true →
    (s.entries way).fingerprint =
      computeFingerprint (s.entries way).tag fingerprintBits

/- `s'` is `s` with the latest use in a way. -/
structure Used (s s' : RestSegSet) (way : Nat) : Prop where
  associativity : s'.associativity = s.associativity
  valid : (s'.entries way).valid = true
  latest : (s'.entries way).lruCounter = s.globalLruCounter + 1
  counter : s'.globalLruCounter = s.globalLruCounter + 1
  other : ∀ way', way' ≠ way → s'.entries way' = s.entries way'

theorem used_refresh
    (hValid : (s.entries way).valid = true) :
    s.Used (s.refresh way) way := by
  refine ⟨rfl, ?_, ?_, rfl, fun way' hNe => ?_⟩
  · simp [refresh, hValid]
  · simp [refresh]
  · simp [refresh, Function.update_of_ne hNe]

theorem used_fill
    (s : RestSegSet)
    (way tag owner : Nat)
    (fingerprint : BitVec 8) :
    s.Used (s.fill way tag owner fingerprint) way := by
  refine ⟨rfl, ?_, ?_, rfl, fun way' hNe => ?_⟩
  · simp [fill]
  · simp [fill]
  · simp [fill, Function.update_of_ne hNe]

/- A use keeps the stamps apart. -/
theorem Used.ordered
    {bits : Nat}
    (hUsed : s.Used s' way)
    (hOrdered : s.Ordered bits)
    (hSound : s'.Sound)
    (hWay : way < s.associativity)
    (hPrint : (s'.entries way).fingerprint =
      computeFingerprint (s'.entries way).tag bits) :
    s'.Ordered bits := by
  have hCounter := hUsed.counter
  have hLatest := hUsed.latest
  refine ⟨hSound, ?_, ?_, ?_, ?_⟩
  · intro i hValid
    rw [hUsed.associativity]
    by_cases hSame : i = way
    · exact hSame ▸ hWay
    · rw [hUsed.other i hSame] at hValid
      exact hOrdered.inside i hValid
  · intro i hValid
    by_cases hSame : i = way
    · rw [hSame, hLatest, hCounter]
    · rw [hUsed.other i hSame] at hValid ⊢
      have hBelow := hOrdered.below i hValid
      omega
  · intro i j hValid hValid' hEq
    by_cases hFirst : i = way
    · by_cases hSecond : j = way
      · rw [hFirst, hSecond]
      · rw [hUsed.other j hSecond] at hValid' hEq
        rw [hFirst] at hEq
        have hBelow := hOrdered.below j hValid'
        omega
    · rw [hUsed.other i hFirst] at hValid hEq
      by_cases hSecond : j = way
      · rw [hSecond] at hEq
        have hBelow := hOrdered.below i hValid
        omega
      · rw [hUsed.other j hSecond] at hValid' hEq
        exact hOrdered.apart i j hValid hValid' hEq
  · intro i hValid
    by_cases hSame : i = way
    · exact hSame ▸ hPrint
    · rw [hUsed.other i hSame] at hValid ⊢
      exact hOrdered.prints i hValid

theorem Ordered.refresh
    {bits : Nat}
    (hOrdered : s.Ordered bits)
    (hValid : (s.entries way).valid = true) :
    (s.refresh way).Ordered bits := by
  apply (used_refresh hValid).ordered hOrdered
    (hOrdered.sound.same (same_refresh s way))
    (hOrdered.inside way hValid)
  simp [RestSegSet.refresh, hOrdered.prints way hValid]

theorem Ordered.fill
    {bits : Nat}
    (hOrdered : s.Ordered bits)
    (hWay : way < s.associativity)
    (hLacks : s.Lacks tag owner) :
    (s.fill way tag owner
      (computeFingerprint tag bits)).Ordered bits := by
  apply (used_fill s way tag owner _).ordered hOrdered
    (hOrdered.sound.filled hLacks
      (filled_fill hWay tag owner _)) hWay
  simp [RestSegSet.fill]

end RestSegSet

namespace RestSeg

open RestSegSet

variable {r r' : RestSeg}

/- The set of an address. -/
def setAt (r : RestSeg) (address : Nat) : RestSegSet :=
  r.sets (r.geometry.splitAddress address).2

/- The free ways after one of them was used. -/
def takeFreeWay (r : RestSeg) (way : Nat) : Nat → Nat :=
  if way < r.geometry.associativity ∧ 0 < r.freeSetsPerWay way then
    Function.update r.freeSetsPerWay way (r.freeSetsPerWay way - 1)
  else
    r.freeSetsPerWay

@[simp] theorem freeSetsPerWay_maybeRotateGlobalWay
    (r : RestSeg) :
    r.maybeRotateGlobalWay.freeSetsPerWay = r.freeSetsPerWay := by
  unfold maybeRotateGlobalWay
  simp only
  split_ifs <;> rfl

/- The number of sets in which a way is free. -/
def freeSets (r : RestSeg) (way : Nat) : Nat :=
  (List.range r.geometry.numSets).countP
    (fun i => !((r.sets i).entries way).valid)

/-
  The set and the way that a call allocates, hits or touches.
-/
def usedBy (r : RestSeg) : Op → Option (Nat × Nat)
| .allocate address app forceEvict =>
    ((r.allocate address app forceEvict).2.lookupWay address
      app).map (fun way =>
        ((r.geometry.splitAddress address).2, way))
| .inRestSeg address app =>
    (r.lookupWay address app).map (fun way =>
      ((r.geometry.splitAddress address).2, way))
| .touchWayLRU address way =>
    if way < (r.setAt address).associativity ∧
        ((r.setAt address).entries way).valid then
      some ((r.geometry.splitAddress address).2, way)
    else
      none
| _ => none

/- A segment with the uses of its ways, the latest first. -/
structure History where
  seg : RestSeg
  uses : List (Nat × Nat)

namespace History

/- A call, with the page that it uses. -/
def step (h : History) (op : Op) : Option History :=
  (RestSeg.step h.seg op).map (fun r =>
    ⟨r, (h.seg.usedBy op).toList ++ h.uses⟩)

/- The latest use of a way is before that of another way. -/
def LessRecent (h : History) (set way way' : Nat) : Prop :=
  h.uses.idxOf (set, way') < h.uses.idxOf (set, way)

end History

/- What every call keeps. -/
structure Kept (h : History) : Prop where
  sets : 0 < h.seg.geometry.numSets
  associativity : ∀ i, (h.seg.sets i).associativity =
    h.seg.geometry.associativity
  ordered : ∀ i,
    (h.seg.sets i).Ordered h.seg.geometry.fingerprintBits
  free : ∀ way < h.seg.geometry.associativity,
    h.seg.freeSetsPerWay way = h.seg.freeSets way
  globalWay : h.seg.globalWay < h.seg.geometry.associativity
  ranked : ∀ i way way',
    ((h.seg.sets i).entries way).valid = true →
    ((h.seg.sets i).entries way').valid = true →
    ((h.seg.sets i).entries way).lruCounter <
        ((h.seg.sets i).entries way').lruCounter →
      h.LessRecent i way way'

variable {h h' : History}

/- A count after one of the elements of a list left it. -/
theorem countP_of_left
    {α : Type*}
    {p p' : α → Bool}
    {l : List α}
    (hNodup : l.Nodup)
    {a : α}
    (hMem : a ∈ l)
    (hBefore : p a = true)
    (hAfter : p' a = false)
    (hOther : ∀ b ∈ l, b ≠ a → p' b = p b) :
    l.countP p' + 1 = l.countP p := by
  induction l with
  | nil => cases hMem
  | cons b l ih =>
      rcases List.nodup_cons.mp hNodup with ⟨hNew, hTail⟩
      by_cases hHere : b = a
      · subst hHere
        have hSame : l.countP p' = l.countP p := by
          apply List.countP_congr
          intro c hIn
          rw [hOther c (List.mem_cons_of_mem b hIn)
            (fun hEq => hNew (hEq ▸ hIn))]
        rw [List.countP_cons_of_neg (by simp [hAfter]),
          List.countP_cons_of_pos hBefore, hSame]
      · have hIn : a ∈ l :=
          (List.mem_cons.mp hMem).resolve_left
            (fun hEq => hHere hEq.symm)
        have hRest := ih hTail hIn (fun c hC hNe =>
          hOther c (List.mem_cons_of_mem b hC) hNe)
        have hFirst := hOther b List.mem_cons_self hHere
        simp only [List.countP_cons, hFirst]
        omega

end RestSeg

end Utopia

end Virtuoso
