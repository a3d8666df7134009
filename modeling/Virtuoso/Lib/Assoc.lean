import Mathlib.Data.List.Basic
import Mathlib.Data.List.Nodup

/-
  Association lists as finite maps.

  A key is erased everywhere and inserted at the front, so
  that lists without a repeated key stay so, and only the
  value found by `List.lookup` matters.

  Key definitions include:
    * `Assoc.erase`
    * `Assoc.insert`
-/

namespace Assoc

variable {κ υ : Type*}
variable [BEq κ] [LawfulBEq κ]

/- Remove a key. -/
def erase (m : List (κ × υ)) (key : κ) : List (κ × υ) :=
  m.filter (fun e => e.1 != key)

/- Set the value of a key. -/
def insert
    (m : List (κ × υ))
    (key : κ)
    (value : υ) : List (κ × υ) :=
  (key, value) :: erase m key

theorem lookup_erase
    [DecidableEq κ]
    (m : List (κ × υ))
    (key key' : κ) :
    (erase m key).lookup key' =
      if key' = key then none else m.lookup key' := by
  unfold erase
  induction m with
  | nil => simp
  | cons e m ih =>
      rw [List.filter_cons]
      by_cases hKey : e.1 = key
      · have hDrop : (e.1 != key) = false := by simp [hKey]
        rw [hDrop, if_neg (by decide), ih, List.lookup_cons]
        by_cases hOwn : key' = key
        · simp [hOwn]
        · have hOther : (key' == e.1) = false := by
            simpa [hKey] using hOwn
          rw [hOther]
      · have hKept : (e.1 != key) = true := by simpa using hKey
        rw [if_pos hKept, List.lookup_cons, List.lookup_cons]
        by_cases hOwn : key' = e.1
        · simp [hOwn, hKey]
        · have hOther : (key' == e.1) = false := by
            simpa using hOwn
          rw [hOther, ih]

theorem lookup_insert
    [DecidableEq κ]
    (m : List (κ × υ))
    (key : κ)
    (value : υ)
    (key' : κ) :
    (insert m key value).lookup key' =
      if key' = key then some value else m.lookup key' := by
  rw [insert, List.lookup_cons, lookup_erase]
  by_cases hEq : key' = key
  · simp [hEq]
  · have hNe : (key' == key) = false := by simpa using hEq
    rw [hNe, if_neg hEq, if_neg hEq]

variable {m : List (κ × υ)}

theorem mem_erase
    {key : κ}
    {e : κ × υ} :
    e ∈ erase m key ↔ e ∈ m ∧ e.1 ≠ key := by
  simp [erase]

variable {value : υ}

theorem mem_of_lookup
    {key : κ}
    (hLookup : m.lookup key = some value) :
    (key, value) ∈ m := by
  rcases List.lookup_eq_some_iff.mp hLookup with
    ⟨l, l', hEq, -⟩
  simp [hEq]

theorem lookup_eq_none_iff
    {key : κ} :
    m.lookup key = none ↔ key ∉ m.map Prod.fst := by
  rw [List.lookup_eq_none_iff]
  constructor
  · intro hNe hMem
    rcases List.mem_map.mp hMem with ⟨e, hIn, hEq⟩
    have := hNe e hIn
    simp [hEq] at this
  · intro hNot e hIn
    have hNe : key ≠ e.1 := by
      intro hEq
      exact hNot (hEq ▸ List.mem_map_of_mem hIn)
    simpa using hNe

theorem erase_of_lookup_none
    {key : κ}
    (hNone : m.lookup key = none) :
    erase m key = m := by
  unfold erase
  rw [List.filter_eq_self]
  intro e hIn
  have hNe : e.1 ≠ key := by
    intro hEq
    exact lookup_eq_none_iff.mp hNone
      (hEq ▸ List.mem_map_of_mem hIn)
  simpa using hNe

omit [LawfulBEq κ] in
theorem nodup_keys_erase
    (hKeys : (m.map Prod.fst).Nodup)
    (key : κ) :
    ((erase m key).map Prod.fst).Nodup :=
  hKeys.sublist (List.filter_sublist.map Prod.fst)

theorem nodup_keys_insert
    (hKeys : (m.map Prod.fst).Nodup)
    (key : κ)
    (value : υ) :
    ((insert m key value).map Prod.fst).Nodup := by
  refine List.nodup_cons.mpr ⟨?_, nodup_keys_erase hKeys key⟩
  intro hMem
  rcases List.mem_map.mp hMem with ⟨e, hIn, hEq⟩
  exact (mem_erase.mp hIn).2 hEq

/- The entries that satisfy a predicate, without one key. -/
theorem countP_erase
    (hKeys : (m.map Prod.fst).Nodup)
    {key : κ}
    (hLookup : m.lookup key = some value)
    (p : κ × υ → Bool) :
    (erase m key).countP p +
      (if p (key, value) then 1 else 0) = m.countP p := by
  induction m with
  | nil => simp at hLookup
  | cons e m ih =>
      rw [List.map_cons, List.nodup_cons] at hKeys
      rw [List.lookup_cons] at hLookup
      by_cases hKey : key = e.1
      · have hNone : m.lookup key = none := by
          rw [lookup_eq_none_iff, hKey]
          exact hKeys.1
        have hEntry : e = (key, value) := by
          have hFound : (key == e.1) = true := by simp [hKey]
          rw [hFound] at hLookup
          exact Prod.ext hKey.symm (Option.some.inj hLookup)
        have hRest : erase (e :: m) key = m := by
          rw [← erase_of_lookup_none hNone]
          simp [erase, hKey]
        rw [hRest, List.countP_cons, hEntry]
      · have hOther : (key == e.1) = false := by
          simpa using hKey
        have hRest : erase (e :: m) key = e :: erase m key := by
          simp [erase, Ne.symm hKey]
        rw [hOther] at hLookup
        rw [hRest, List.countP_cons, List.countP_cons,
          ← ih hKeys.2 hLookup]
        omega

omit [LawfulBEq κ] in
theorem countP_insert
    (m : List (κ × υ))
    (key : κ)
    (value : υ)
    (p : κ × υ → Bool) :
    (insert m key value).countP p =
      (erase m key).countP p +
        (if p (key, value) then 1 else 0) := by
  rw [insert, List.countP_cons]

theorem length_erase
    (hKeys : (m.map Prod.fst).Nodup)
    {key : κ}
    (hLookup : m.lookup key = some value) :
    (erase m key).length + 1 = m.length := by
  simpa using countP_erase hKeys hLookup (fun _ => true)

end Assoc
