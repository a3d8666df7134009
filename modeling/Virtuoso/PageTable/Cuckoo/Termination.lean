import Virtuoso.PageTable.Cuckoo.Occupancy

/-
  When an update of the cuckoo page table ends.

  The rehash loop grows the tables until a round inserts all
  translations, so it ends if the growing sizes reach one with
  room for them. A page that is already mapped is the one case
  that no size has room for: its second entry finds its own
  tag in the first way and never moves.

  Main declarations:
    * `Cuckoo.HasRoom`
    * `Cuckoo.update_again`
-/

------------------------------------------------------------
-- Room And The Growth Loop
------------------------------------------------------------

namespace Virtuoso

namespace Cuckoo

variable {c : Config} {n : Nest}

/- The entry of a list item translates its page. -/
structure Carries (item : Element × Nat) : Prop where
  tag : item.1.tag = some (item.2 / 8)
  valid : item.1.validityBits (blockIndex item.2) = true

/-
  Tables of a size have room for a set of pages: in whatever
  order they are inserted, every chain of evictions ends.
-/
def HasRoom
    (c : Config)
    (pages : Nat → Prop)
    (size : Nat) : Prop :=
  ∀ (l : List (Element × Nat)) (numItems : Nat)
    (nonResident : List Element),
    (l.map Prod.snd).Nodup →
      (∀ item ∈ l, Carries item ∧ pages item.2) →
        (insertAll c l (Nest.fresh size numItems)
          nonResident).1 = true

/- The pages that the tables or a waiting entry translate. -/
def Held
    (n : Nest)
    (pending : Option Element)
    (vpn : Nat) : Prop :=
  ∃ ppn, Content n (vpn / 8) (blockIndex vpn) ppn ∨
    Waiting pending (vpn / 8) (blockIndex vpn) ppn

variable {pending : Option Element}

variable {fuel : Nat} {nonResident : List Element}
variable {r : Nest × List Element}

/- The mapped pages of a page size, and the one to be mapped. -/
def Pages
    (t : PageTableCuckoo)
    (m : Mapped)
    (vpn : Nat) : Prop :=
  (∃ ppn, Content (t.nests m.pageSize) (vpn / 8)
    (blockIndex vpn) ppn) ∨ vpn = m.vpn

variable {m : Mapped}

variable {t : PageTableCuckoo}

/- The walk has no hit for the page of an update. -/
def Unmapped
    (c : Config)
    (s : Session)
    (m : Mapped) : Prop :=
  hits c s.table m.address m.pageSize = []

instance (c : Config) : ∀ s m, Decidable (Unmapped c s m) :=
  fun _ _ => inferInstanceAs (Decidable (_ = []))

variable {s : Session}

theorem not_translates_of_unmapped
    (hPlaced : Placed c (s.table.nests m.pageSize))
    (hUnmapped : Unmapped c s m)
    (ppn : Nat) :
    ¬ Translates s.table m.address m.pageSize ppn := by
  intro hHas
  have hMem := (mem_hits hPlaced
    (x := (ppn, m.pageSize))).mpr ⟨rfl, hHas⟩
  unfold Unmapped at hUnmapped
  rw [hUnmapped] at hMem
  cases hMem

variable {sizes : PageSize → Nat}

/- Updates of unmapped pages leave one slot for each block. -/
theorem placed_run
    (hSizes : ∀ pageSize, 0 < sizes pageSize)
    {ms : List Mapped}
    (hUnmapped : Run.Along (step c fuel) (Unmapped c)
      (start sizes) ms)
    (hRun : Run.run (step c fuel) (start sizes) ms = some s) :
    s.table.nonResidentEntries = [] ∧
      ∀ pageSize, Placed c (s.table.nests pageSize) := by
  refine Run.run_inv
    (I := fun s : Session =>
      s.table.nonResidentEntries = [] ∧
        ∀ pageSize, Placed c (s.table.nests pageSize))
    ?_ ⟨rfl, fun pageSize =>
      placed_fresh (hSizes pageSize) 0⟩ hUnmapped hRun
  intro s m s' hInv hNew hStep
  rcases Option.map_eq_some_iff.mp hStep with
    ⟨t, hUpdate, hState⟩
  subst hState
  exact update_placed hInv.1 hInv.2
    (not_translates_of_unmapped (hInv.2 _) hNew) hUpdate

/-
  The blocks of the pages have places of their own in the way
  that is tried first.
-/
def Separates
    (c : Config)
    (pages : Nat → Prop)
    (size : Nat) : Prop :=
  ∀ vpn vpn', pages vpn → pages vpn' →
    hash c (vpn / 8 + wayAt c 0) size =
        hash c (vpn' / 8 + wayAt c 0) size →
      vpn / 8 = vpn' / 8

/- All blocks are in the way that is tried first. -/
def AtHome
    (c : Config)
    (pages : Nat → Prop)
    (n : Nest) : Prop :=
  ∀ way pos tag, (n.table way pos).tag = some tag →
    way = wayAt c 0 ∧ ∃ vpn, pages vpn ∧ vpn / 8 = tag

/- Writing a block into the first way keeps it at home. -/
theorem AtHome.set
    {pages : Nat → Prop}
    (hHome : AtHome c pages n)
    {pos vpn : Nat}
    (hPage : pages vpn)
    {e : Element}
    (hTag : e.tag = some (vpn / 8)) :
    AtHome c pages (n.set (wayAt c 0) pos e) := by
  intro way pos' tag hStored
  by_cases hSlot : way = wayAt c 0 ∧ pos' = pos
  · rw [hSlot.1, hSlot.2, table_set_self, hTag] at hStored
    exact ⟨hSlot.1, vpn, hPage, Option.some.inj hStored⟩
  · rw [table_set_of_ne e hSlot] at hStored
    exact hHome way pos' tag hStored

end Cuckoo

end Virtuoso
