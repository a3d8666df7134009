import Virtuoso.Lib.Probe
import Virtuoso.PageTable.PageMap

/-
  The open-addressing page table of `pagetable_hdc.cc`.

  For each page size there is one table. A slot holds a tag
  and eight translations, and collisions move on to the next
  slot. The tag `-1` of an empty slot is `none`; no tag of a
  64-bit address has that value.

  CityHash is a parameter, and so is the comparison of the
  occupancy with the resize threshold. The sizes are `int`
  in the source: the constructor and a resize are undefined
  unless `FitsInt` holds, which `checkedRun` asks for.
  `distance_from_root`, the counters and the log are left
  out.

  Key definitions include:
    * `Hdc.PageTableHDC`
    * `Hdc.resizeTable`
-/

namespace Virtuoso

namespace Hdc

/- An entry holds the pages of one block of eight. -/
structure Entry where
  valid : Fin 8 → Bool
  tag : Option Nat
  ppn : Fin 8 → Nat

/- No block has taken the entry. -/
def Entry.empty : Entry :=
  ⟨fun _ => false, none, fun _ => 0⟩

/-
  What the table is configured with. `crossed count size` is
  the comparison of the occupancy with `m_resize_threshold`,
  which is at most 1.
-/
structure Config where
  cityHash64 : Nat → Nat
  crossed : Nat → Nat → Bool
  crossed_full : ∀ n, 0 < n → crossed n n = true
  resizeFactor : Nat
  two_le_resizeFactor : 2 ≤ resizeFactor

/- The table of one page size. -/
structure Table where
  size : Nat
  slots : Nat → Entry
  entryCount : Nat
  emulatedTableAddress : Nat

/- All tables, and the allocator they take memory from. -/
structure PageTableHDC where
  tables : PageSize → Table
  kernelStartAddress : Nat

/- `PageTableHDC::hashFunction`. -/
def hashFunction
    (c : Config)
    (address tableSize : Nat) : Nat :=
  c.cityHash64 address % tableSize

/- The place of a page in its block. -/
def blockOffset (vpn : Nat) : Fin 8 :=
  ⟨vpn % 8, mod_eight_lt vpn⟩

/-
  `PageTableHDC::PageTableHDC`, for 4KB and 2MB pages whose
  tables fit an `int`.
-/
def construct
    (sizes : PageSize → Nat)
    (kernelStartAddress : Nat) : PageTableHDC :=
  let small := handlePageTableAllocations kernelStartAddress
    (sizes .fourKb * 64)
  let large := handlePageTableAllocations small.2
    (sizes .twoMb * 64)
  ⟨fun
    | .fourKb =>
        ⟨sizes .fourKb, fun _ => Entry.empty, 0, small.1⟩
    | .twoMb =>
        ⟨sizes .twoMb, fun _ => Entry.empty, 0, large.1⟩,
    large.2⟩

/-
  A probe of a table from the home of a tag. Each loop of the
  source is such a probe, with its own slots to stop at.
-/
def probeFor
    (c : Config)
    (stop : Entry → Bool)
    (slots : Nat → Entry)
    (size tag : Nat) :
    List Nat × Option Nat :=
  Probe.probe stop slots size size (hashFunction c tag size)

/- The index of a page size in `m_page_size_list`. -/
def pageSizeIndex :
    PageSize → Nat
| .fourKb => 0
| .twoMb => 1

/- A walk stops at the tag and at an empty slot. -/
def stopsWalk (tag : Nat) (e : Entry) : Bool :=
  decide (e.tag = some tag) || decide (e.tag = none)

/-
  The walk of one table: the accesses, and the translation if
  there is one. A probe of all slots ends the program.
-/
def walkTable
    (c : Config)
    (t : Table)
    (address : Nat)
    (pageSize : PageSize) :
    Option (List PTWAccess × Option (Nat × Nat)) :=
  let vpn := pageSize.vpn address
  let tag := vpn / 8
  let offset := blockOffset vpn
  let probed := probeFor c (stopsWalk tag) t.slots t.size tag
  probed.2.map (fun pos =>
    let e := t.slots pos
    let hit := decide (e.tag = some tag) && e.valid offset
    (probed.1.mapIdx (fun depth visited =>
        ⟨pageSizeIndex pageSize, depth,
          t.emulatedTableAddress + 64 * visited + offset.val,
          decide (depth + 1 = probed.1.length) && hit⟩),
      if hit then some (e.ppn offset, pageSize.bits)
      else none))

/-
  `PageTableHDC::initializeWalk`, without a restart after a
  fault. The last page size with a translation wins.
-/
def initializeWalk
    (c : Config)
    (t : PageTableHDC)
    (address : Nat) :
    Option PTWResult := do
  let small ← walkTable c (t.tables .fourKb) address .fourKb
  let large ← walkTable c (t.tables .twoMb) address .twoMb
  let translation := large.2.or small.2
  return ⟨translation, small.1 ++ large.1, translation.isNone, 0⟩

/- No block has taken the entry. -/
def isEmpty (e : Entry) : Bool :=
  decide (e.tag = none)

/- Copy one entry of the old table into the new one. -/
def rehashEntry
    (c : Config)
    (newSize : Nat)
    (slots : Nat → Entry)
    (e : Entry) :
    Nat → Entry :=
  match e.tag with
  | none => slots
  | some tag =>
      match (probeFor c isEmpty slots newSize tag).2 with
      | none => slots
      | some idx => Function.update slots idx e

/-
  `PageTableHDC::resizeTable`, with the kernel address after
  the new table is allocated, for a new size that fits an
  `int`. Other products overflow, see `FitsUpdate`.
-/
def resizeTable
    (c : Config)
    (t : Table)
    (kernelStartAddress : Nat) :
    Table × Nat :=
  let newSize := t.size * c.resizeFactor
  let allocated := handlePageTableAllocations
    kernelStartAddress (newSize * 64)
  (⟨newSize,
    (List.range t.size).foldl
      (fun slots j => rehashEntry c newSize slots (t.slots j))
      (fun _ => Entry.empty),
    t.entryCount, allocated.1⟩, allocated.2)

/- Write one translation into an entry. -/
def Entry.put
    (e : Entry)
    (offset : Fin 8)
    (ppn : Nat) : Entry :=
  { e with
    valid := Function.update e.valid offset true
    ppn := Function.update e.ppn offset ppn }

/- An update stops where the translation can be written. -/
def stopsUpdate
    (tag : Nat)
    (offset : Fin 8)
    (e : Entry) : Bool :=
  decide (e.tag = none) ||
    (decide (e.tag = some tag) && !e.valid offset)

/- The update of one table. -/
def updateTable
    (c : Config)
    (t : Table)
    (vpn ppn kernelStartAddress : Nat) :
    Table × Nat :=
  let tag := vpn / 8
  let offset := blockOffset vpn
  match (probeFor c (stopsUpdate tag offset) t.slots t.size
      tag).2 with
  | none => (t, kernelStartAddress)
  | some pos =>
      let e := t.slots pos
      if e.tag = none then
        let filled : Table :=
          { t with
            slots := Function.update t.slots pos
              { e.put offset ppn with tag := some tag }
            entryCount := t.entryCount + 1 }
        if c.crossed filled.entryCount filled.size then
          resizeTable c filled kernelStartAddress
        else
          (filled, kernelStartAddress)
      else
        ({ t with
            slots := Function.update t.slots pos
              (e.put offset ppn) },
          kernelStartAddress)

/- The update fills a slot and crosses the threshold. -/
def resizes (c : Config) (t : Table) (vpn : Nat) : Bool :=
  match (probeFor c (stopsUpdate (vpn / 8) (blockOffset vpn))
      t.slots t.size (vpn / 8)).2 with
  | none => false
  | some pos =>
      decide ((t.slots pos).tag = none) &&
        c.crossed (t.entryCount + 1) t.size

/- The new size of a resize in the update fits an `int`. -/
def FitsUpdate
    (c : Config)
    (t : Table)
    (vpn : Nat) : Prop :=
  resizes c t vpn = true → FitsInt (t.size * c.resizeFactor)

instance
    (c : Config)
    (t : Table)
    (vpn : Nat) :
    Decidable (FitsUpdate c t vpn) :=
  inferInstanceAs (Decidable (_ → _))

/- `PageTableHDC::updatePageTableFrames`. -/
def updatePageTableFrames
    (c : Config)
    (t : PageTableHDC)
    (address ppn : Nat)
    (pageSize : PageSize) : PageTableHDC :=
  let updated := updateTable c (t.tables pageSize)
    (pageSize.vpn address) ppn t.kernelStartAddress
  ⟨Function.update t.tables pageSize updated.1, updated.2⟩

/- A deletion stops at the translation and at a gap. -/
def stopsDelete
    (tag : Nat)
    (offset : Fin 8)
    (e : Entry) : Bool :=
  (decide (e.tag = some tag) && e.valid offset) ||
    decide (e.tag = none)

/-
  The deletion from one table. The loop has no bound, but
  after one round it repeats and never ends.
-/
def deleteFrom
    (c : Config)
    (t : Table)
    (vpn : Nat) :
    Option Table :=
  let tag := vpn / 8
  let offset := blockOffset vpn
  (probeFor c (stopsDelete tag offset) t.slots t.size
      tag).2.map (fun pos =>
    let e := t.slots pos
    if e.tag = some tag ∧ e.valid offset = true then
      { t with
        slots := Function.update t.slots pos
          { e with
            valid := Function.update e.valid offset false } }
    else
      t)

/- `PageTableHDC::deletePage`, which only reads the first table. -/
def deletePage
    (c : Config)
    (t : PageTableHDC)
    (address : Nat) :
    Option PageTableHDC :=
  (deleteFrom c (t.tables .fourKb)
      (PageSize.fourKb.vpn address)).map (fun table =>
    { t with tables := Function.update t.tables .fourKb table })

end Hdc

end Virtuoso
