import Mathlib.Data.List.Basic

/-
  Maps of bounded size that forget what was used least
  recently, as lists with the latest use first, and how they
  are kept in slots beside an order of the slots.

  Main declarations:
    * `LruMap.filterMap_front`
    * `LruMap.filterMap_evict`
-/

namespace LruMap

variable {κ ν : Type*} [DecidableEq κ]

/- The value of a key. -/
def get (k : κ) (l : List (κ × ν)) : Option ν :=
  (l.find? (fun e => e.1 == k)).map Prod.snd

/- The key is removed. -/
def drop (k : κ) (l : List (κ × ν)) : List (κ × ν) :=
  l.filter (fun e => e.1 != k)

/- A use of a key that is there. -/
def hit (k : κ) (l : List (κ × ν)) : List (κ × ν) :=
  match get k l with
  | none => l
  | some v => (k, v) :: drop k l

/-
  A new value for a key. Only a new key in a full map evicts,
  and what was used least recently leaves.
-/
def put
    (capacity : Nat)
    (k : κ)
    (v : ν)
    (l : List (κ × ν)) : Bool × List (κ × ν) :=
  match get k l with
  | some _ => (false, (k, v) :: drop k l)
  | none =>
      if l.length < capacity then (false, (k, v) :: l)
      else (true, (k, v) :: l.dropLast)

section Slots

variable {ι : Type*}
variable {order : List ι} {slot : ι} {f f' : ι → Option (κ × ν)}
variable {k : κ} {v : ν}

/- The key is in the slot or nowhere. -/
def Only
    (order : List ι)
    (f : ι → Option (κ × ν))
    (k : κ)
    (slot : ι) : Prop :=
  ∀ i ∈ order, ∀ e, f i = some e → (e.1 = k ↔ i = slot)

theorem get_filterMap
    (hOnly : Only order f k slot)
    (hMem : slot ∈ order)
    (hSlot : f slot = some (k, v)) :
    get k (order.filterMap f) = some v := by
  have hFind : (order.filterMap f).find?
      (fun e => e.1 == k) = some (k, v) := by
    cases hFound : (order.filterMap f).find?
        (fun e => e.1 == k) with
    | none =>
        have hNone := List.find?_eq_none.mp hFound (k, v)
          (List.mem_filterMap.mpr ⟨slot, hMem, hSlot⟩)
        simp at hNone
    | some e =>
        have hKey : e.1 = k := by
          simpa using List.find?_some hFound
        rcases List.mem_filterMap.mp
            (List.mem_of_find?_eq_some hFound) with
          ⟨i, hI, hE⟩
        rw [(hOnly i hI e hE).mp hKey, hSlot] at hE
        exact hE.symm
  rw [get, hFind]
  rfl

theorem get_filterMap_none
    (hNowhere : ∀ i ∈ order, ∀ e, f i = some e → e.1 ≠ k) :
    get k (order.filterMap f) = none := by
  rw [get, Option.map_eq_none_iff, List.find?_eq_none]
  intro e hMem
  rcases List.mem_filterMap.mp hMem with ⟨i, hI, hE⟩
  simpa using hNowhere i hI e hE

/- A key that is nowhere is not dropped. -/
theorem drop_of_nowhere
    (hNowhere : ∀ i ∈ order, ∀ e, f i = some e → e.1 ≠ k) :
    drop k (order.filterMap f) = order.filterMap f := by
  rw [drop, List.filter_eq_self]
  intro e hMem
  rcases List.mem_filterMap.mp hMem with ⟨i, hI, hE⟩
  simpa using hNowhere i hI e hE

variable [DecidableEq ι]

/- What a drop of a key leaves, slot by slot. -/
theorem drop_filterMap
    (hOnly : Only order f k slot) :
    drop k (order.filterMap f) = order.filterMap
      (fun i => if i = slot then none else f i) := by
  rw [drop, List.filter_filterMap]
  refine List.filterMap_congr (fun i hI => ?_)
  cases hE : f i with
  | none => simp
  | some e =>
      have hKey := hOnly i hI e hE
      by_cases hSlot : i = slot
      · simp [hSlot, Option.filter, hKey.mpr hSlot]
      · have hNe : e.1 ≠ k := fun hEq => hSlot (hKey.mp hEq)
        simp [hSlot, Option.filter, hNe]

/- A slot that is emptied drops its key. -/
theorem filterMap_clear
    (hOnly : Only order f k slot)
    (hSame : ∀ i, i ≠ slot → f' i = f i)
    (hEmpty : f' slot = none) :
    order.filterMap f' = drop k (order.filterMap f) := by
  rw [drop_filterMap hOnly]
  refine List.filterMap_congr (fun i _ => ?_)
  split_ifs with hSlot
  · rw [hSlot, hEmpty]
  · exact hSame i hSlot

/- A slot that comes to the front with its key. -/
theorem filterMap_front
    (hNodup : order.Nodup)
    (hOnly : Only order f k slot)
    (hSame : ∀ i, i ≠ slot → f' i = f i)
    (hNew : f' slot = some (k, v)) :
    (slot :: order.erase slot).filterMap f' =
      (k, v) :: drop k (order.filterMap f) := by
  rw [List.filterMap_cons_some hNew, drop_filterMap hOnly,
    hNodup.erase_eq_filter, List.filterMap_filter]
  congr 1
  refine List.filterMap_congr (fun i _ => ?_)
  by_cases hSlot : i = slot
  · simp [hSlot]
  · simp [hSlot, hSame i hSlot]

omit [DecidableEq κ] in
/- The last slot of a full order is taken for a new key. -/
theorem filterMap_evict
    (hNodup : order.Nodup)
    (hLast : order.getLast? = some slot)
    (hFull : ∀ i ∈ order, (f i).isSome = true)
    (hSame : ∀ i, i ≠ slot → f' i = f i)
    (hNew : f' slot = some (k, v)) :
    (slot :: order.erase slot).filterMap f' =
      (k, v) :: (order.filterMap f).dropLast := by
  have hSplit := List.dropLast_append_getLast? slot hLast
  have hNot : slot ∉ order.dropLast := by
    rw [← hSplit] at hNodup
    intro hMem
    exact (List.nodup_append.mp hNodup).2.2 slot hMem slot
      (by simp) rfl
  rcases Option.isSome_iff_exists.mp
      (hFull slot (List.mem_of_getLast? hLast)) with
    ⟨e, hE⟩
  rw [List.filterMap_cons_some hNew, ← hSplit,
    List.erase_append_right _ hNot, List.filterMap_append,
    List.filterMap_append]
  simp only [List.erase_cons_head, List.filterMap_nil,
    List.append_nil, List.filterMap_cons_some hE,
    List.dropLast_concat]
  congr 1
  exact List.filterMap_congr (fun i hI =>
    hSame i (fun hEq => hNot (hEq ▸ hI)))

end Slots

end LruMap
