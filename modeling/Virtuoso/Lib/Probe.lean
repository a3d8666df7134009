import Mathlib.Data.Nat.Find
import Mathlib.Data.Nat.ModEq
import Mathlib.Data.Finset.Card
import Mathlib.Data.Finset.Range

/-
  Linear probing in a circular table.

  A probe starts at the home of a key and moves on until a
  slot stops it. `Chained` says when the probes of a table
  are not broken: between the home of a stored key and its
  slot there is no empty slot.

  Main declarations:
    * `Probe.probe`
    * `Probe.exists_first_empty`
-/

namespace Probe

variable {σ κ : Type*} {n : Nat}

/- The slot `d` steps after a home in a table of size `n`. -/
def slotAt (n home d : Nat) : Nat :=
  (home + d) % n

/-
  The slots visited from a position on, and the one that
  stopped the probe if there was one within the bound.
-/
def probe
    (stop : σ → Bool)
    (slots : Nat → σ)
    (n : Nat) :
    Nat → Nat → List Nat × Option Nat
| 0, _ => ([], none)
| fuel + 1, pos =>
    if stop (slots pos) then
      ([pos], some pos)
    else
      let rest := probe stop slots n fuel ((pos + 1) % n)
      (pos :: rest.1, rest.2)

theorem slotAt_lt
    (hPos : 0 < n)
    (home d : Nat) :
    slotAt n home d < n :=
  Nat.mod_lt _ hPos

theorem slotAt_zero
    {home : Nat}
    (hHome : home < n) :
    slotAt n home 0 = home :=
  Nat.mod_eq_of_lt hHome

theorem slotAt_succ
    (home d : Nat) :
    slotAt n ((home + 1) % n) d = slotAt n home (d + 1) := by
  unfold slotAt
  rw [Nat.mod_add_mod]
  congr 1
  omega

/- Fewer than `n` steps do not come back to a slot. -/
theorem slotAt_inj
    {home d e : Nat}
    (hD : d < n)
    (hE : e < n)
    (hSame : slotAt n home d = slotAt n home e) :
    d = e := by
  have hMod : d % n = e % n :=
    Nat.ModEq.add_left_cancel' home hSame
  rwa [Nat.mod_eq_of_lt hD, Nat.mod_eq_of_lt hE] at hMod

/- Every slot is reached from every home. -/
theorem exists_slotAt
    {home p : Nat}
    (hHome : home < n)
    (hP : p < n) :
    ∃ d < n, slotAt n home d = p := by
  by_cases hLe : home ≤ p
  · refine ⟨p - home, by omega, ?_⟩
    unfold slotAt
    rw [Nat.add_sub_cancel' hLe, Nat.mod_eq_of_lt hP]
  · refine ⟨n - home + p, by omega, ?_⟩
    unfold slotAt
    rw [show home + (n - home + p) = p + n by omega,
      Nat.add_mod_right, Nat.mod_eq_of_lt hP]

/- A probe stops at the first slot that stops it. -/
theorem probe_eq
    {stop : σ → Bool}
    {slots : Nat → σ} :
    ∀ {fuel home d : Nat},
      home < n →
        d < fuel →
          stop (slots (slotAt n home d)) = true →
            (∀ e < d,
              stop (slots (slotAt n home e)) = false) →
              probe stop slots n fuel home =
                ((List.range (d + 1)).map (slotAt n home),
                  some (slotAt n home d)) := by
  intro fuel
  induction fuel with
  | zero =>
      intro home d _ hLt
      omega
  | succ fuel ih =>
      intro home d hHome hLt hStop hBefore
      cases d with
      | zero =>
          rw [slotAt_zero hHome] at hStop
          simp [probe, hStop, slotAt_zero hHome]
      | succ d =>
          have hFirst := hBefore 0 (by omega)
          rw [slotAt_zero hHome] at hFirst
          have hNext : (home + 1) % n < n :=
            Nat.mod_lt _ (by omega)
          have hRest := ih hNext
            (d := d) (by omega)
            (by rw [slotAt_succ]; exact hStop)
            (by
              intro e hE
              rw [slotAt_succ]
              exact hBefore (e + 1) (by omega))
          rw [probe, hFirst, hRest]
          simp only [Bool.false_eq_true, if_false,
            slotAt_succ, Prod.mk.injEq, and_true]
          rw [List.range_succ_eq_map (n := d + 1)]
          simp [slotAt_zero hHome, Function.comp_def, slotAt_succ]

/- A probe stays in the table. -/
theorem lt_of_mem_probe
    {stop : σ → Bool}
    {slots : Nat → σ}
    {fuel home v : Nat}
    (hHome : home < n)
    (hMem : v ∈ (probe stop slots n fuel home).1) :
    v < n := by
  induction fuel generalizing home with
  | zero => cases hMem
  | succ fuel ih =>
      rw [probe] at hMem
      split at hMem
      · rw [List.mem_singleton.mp hMem]
        exact hHome
      · rcases List.mem_cons.mp hMem with hEq | hRest
        · rw [hEq]
          exact hHome
        · exact ih (Nat.mod_lt _ (by omega)) hRest

/- Probes that stop at the same slots are equal. -/
theorem probe_congr
    {stop stop' : σ → Bool}
    {slots slots' : Nat → σ}
    (hSame : ∀ p, stop (slots p) = stop' (slots' p))
    (fuel home : Nat) :
    probe stop slots n fuel home =
      probe stop' slots' n fuel home := by
  induction fuel generalizing home with
  | zero => rfl
  | succ fuel ih => rw [probe, probe, hSame home, ih]

/- A pickier probe stops at the slot if that slot stops it. -/
theorem probe_of_imp
    {stop stop' : σ → Bool}
    {slots : Nat → σ}
    (hImp : ∀ e, stop' e = true → stop e = true)
    {fuel home p : Nat}
    (hProbe : (probe stop slots n fuel home).2 = some p)
    (hStop : stop' (slots p) = true) :
    (probe stop' slots n fuel home).2 = some p := by
  induction fuel generalizing home with
  | zero => cases hProbe
  | succ fuel ih =>
      rw [probe] at hProbe ⊢
      by_cases hHere : stop (slots home) = true
      · rw [if_pos hHere, Option.some.injEq] at hProbe
        subst hProbe
        rw [if_pos hStop]
      · rw [if_neg hHere] at hProbe
        rw [if_neg (fun hOwn => hHere (hImp _ hOwn))]
        exact ih hProbe

/-
  Every stored key is reached from its home over slots that
  are not empty, and no key is stored twice.
-/
structure Chained
    (n : Nat)
    (home : κ → Nat)
    (key : Nat → Option κ) : Prop where
  reach : ∀ p k, key p = some k →
    ∃ d < n, slotAt n (home k) d = p ∧
      ∀ e < d, key (slotAt n (home k) e) ≠ none
  unique : ∀ p q k, key p = some k → key q = some k → p = q

variable {home : κ → Nat} {key : Nat → Option κ}

theorem chained_empty :
    Chained n home (fun _ => none) := by
  constructor
  · intro p k hKey
    cases hKey
  · intro p q k hKey
    cases hKey

variable {p : Nat} {k : κ}

/- Slots outside the table are empty. -/
theorem Chained.lt
    (hChained : Chained n home key)
    (hKey : key p = some k) :
    p < n := by
  rcases hChained.reach p k hKey with ⟨d, hD, hSlot, -⟩
  rw [← hSlot]
  exact slotAt_lt (by omega) _ _

/- Before the slot of a key neither it nor a gap is met. -/
theorem Chained.first
    (hChained : Chained n home key)
    (hKey : key p = some k) :
    ∃ d < n, slotAt n (home k) d = p ∧
      ∀ e < d, key (slotAt n (home k) e) ≠ none ∧
        key (slotAt n (home k) e) ≠ some k := by
  rcases hChained.reach p k hKey with
    ⟨d, hD, hSlot, hBefore⟩
  refine ⟨d, hD, hSlot, ?_⟩
  intro e hE
  refine ⟨hBefore e hE, ?_⟩
  intro hSame
  have hEq := hChained.unique _ _ _ hSame hKey
  rw [← hSlot] at hEq
  have := slotAt_inj (by omega) hD hEq
  omega

/- An empty slot is the first gap of some probe. -/
theorem exists_first_empty
    (hEmpty : ∃ p < n, key p = none)
    {start : Nat}
    (hStart : start < n) :
    ∃ d < n, key (slotAt n start d) = none ∧
      ∀ e < d, key (slotAt n start e) ≠ none := by
  classical
  rcases hEmpty with ⟨p, hP, hNone⟩
  rcases exists_slotAt hStart hP with ⟨d, hD, hSlot⟩
  have hSome : ∃ d, key (slotAt n start d) = none :=
    ⟨d, by rw [hSlot]; exact hNone⟩
  refine ⟨Nat.find hSome, ?_, Nat.find_spec hSome, ?_⟩
  · have := Nat.find_min' hSome (m := d)
      (by rw [hSlot]; exact hNone)
    omega
  · intro e hE
    exact Nat.find_min hSome hE

/- A new key behind no gap of its probe keeps the chains. -/
theorem Chained.insert
    (hChained : Chained n home key)
    {d : Nat}
    (hNew : ∀ p, key p ≠ some k)
    (hD : d < n)
    (hBefore : ∀ e < d, key (slotAt n (home k) e) ≠ none) :
    Chained n home
      (Function.update key (slotAt n (home k) d) (some k)) := by
  have hMono : ∀ p, key p ≠ none →
      Function.update key (slotAt n (home k) d) (some k) p ≠
        none := by
    intro p hP
    by_cases hEq : p = slotAt n (home k) d
    · rw [hEq, Function.update_self]
      exact Option.some_ne_none k
    · rwa [Function.update_of_ne hEq]
  constructor
  · intro p k' hKey
    by_cases hEq : p = slotAt n (home k) d
    · rw [hEq, Function.update_self] at hKey
      cases hKey
      refine ⟨d, hD, hEq.symm, ?_⟩
      intro e hE
      exact hMono _ (hBefore e hE)
    · rw [Function.update_of_ne hEq] at hKey
      rcases hChained.reach p k' hKey with
        ⟨d', hD', hSlot, hBefore'⟩
      refine ⟨d', hD', hSlot, ?_⟩
      intro e hE
      exact hMono _ (hBefore' e hE)
  · intro p q k' hP hQ
    by_cases hEqP : p = slotAt n (home k) d
    · by_cases hEqQ : q = slotAt n (home k) d
      · rw [hEqP, hEqQ]
      · rw [Function.update_of_ne hEqQ] at hQ
        rw [hEqP, Function.update_self] at hP
        cases hP
        exact absurd hQ (hNew q)
    · rw [Function.update_of_ne hEqP] at hP
      by_cases hEqQ : q = slotAt n (home k) d
      · rw [hEqQ, Function.update_self] at hQ
        cases hQ
        exact absurd hP (hNew p)
      · rw [Function.update_of_ne hEqQ] at hQ
        exact hChained.unique p q k' hP hQ

/- The number of slots that are not empty. -/
def occupied (n : Nat) (key : Nat → Option κ) : Nat :=
  ((Finset.range n).filter (fun p => (key p).isSome)).card

theorem occupied_empty :
    occupied n (fun _ => (none : Option κ)) = 0 := by
  simp [occupied]

theorem occupied_succ
    (n : Nat)
    (key : Nat → Option κ) :
    occupied (n + 1) key =
      occupied n key + if (key n).isSome then 1 else 0 := by
  unfold occupied
  rw [Finset.range_add_one, Finset.filter_insert]
  split
  · rw [Finset.card_insert_of_notMem (by simp)]
  · rfl

theorem occupied_mono
    {m : Nat}
    (hLe : m ≤ n)
    (key : Nat → Option κ) :
    occupied m key ≤ occupied n key := by
  apply Finset.card_le_card
  apply Finset.filter_subset_filter
  exact Finset.range_subset_range.mpr hLe

theorem occupied_congr
    {key' : Nat → Option κ}
    (hSame : ∀ p < n, (key p).isSome = (key' p).isSome) :
    occupied n key = occupied n key' := by
  unfold occupied
  congr 1
  apply Finset.filter_congr
  intro p hP
  rw [hSame p (Finset.mem_range.mp hP)]

/- Replacing a slot trades its count for the new one. -/
theorem occupied_replace
    (hP : p < n)
    (key : Nat → Option κ)
    (v : Option κ) :
    occupied n (Function.update key p v) +
        (if (key p).isSome then 1 else 0) =
      occupied n key + if v.isSome then 1 else 0 := by
  induction n with
  | zero => omega
  | succ n ih =>
      rw [occupied_succ, occupied_succ]
      by_cases hLast : p = n
      · subst hLast
        have hBelow : occupied p (Function.update key p v) =
            occupied p key := by
          apply occupied_congr
          intro q hQ
          rw [Function.update_of_ne (by omega)]
        rw [hBelow, Function.update_self]
        omega
      · have hRest := ih (by omega)
        rw [Function.update_of_ne (Ne.symm hLast)]
        omega

/- A table that is not full has an empty slot. -/
theorem exists_empty_of_occupied_lt
    (hLt : occupied n key < n) :
    ∃ p < n, key p = none := by
  by_contra hFull
  push Not at hFull
  have hAll : (Finset.range n).filter
      (fun p => (key p).isSome) = Finset.range n := by
    apply Finset.filter_true_of_mem
    intro p hP
    exact Option.isSome_iff_ne_none.mpr
      (hFull p (Finset.mem_range.mp hP))
  rw [occupied, hAll, Finset.card_range] at hLt
  omega

/- Filling an empty slot counts once. -/
theorem occupied_update
    (hP : p < n)
    (hNone : key p = none)
    (k : κ) :
    occupied n (Function.update key p (some k)) =
      occupied n key + 1 := by
  have hFilter : (Finset.range n).filter (fun q =>
      (Function.update key p (some k) q).isSome) =
        insert p ((Finset.range n).filter
          (fun q => (key q).isSome)) := by
    ext q
    by_cases hEq : q = p
    · subst hEq
      simp [hP]
    · simp [hEq]
  rw [occupied, hFilter, Finset.card_insert_of_notMem, occupied]
  simp [hNone]

end Probe
