import Virtuoso.PageTable.PageMap

/-
  The chained hash page table of `pagetable_ht.cc`.

  For each page size there is one table of buckets. A bucket
  is the list of the entries of its chain, the root entry
  first; `next_entry` is the rest of the list. The tag `-1`
  of an empty entry is `none`.

  CityHash is a parameter, and so is the comparison of the
  occupancy with the resize threshold. The sizes are `int`
  in the source: the constructor and a resize are undefined
  unless `FitsInt` holds, which `checkedRun` asks for. Page
  numbers that the source leaves uninitialised are 0; no
  walk reads them. The counters and the log are left out.

  Key definitions include:
    * `Ht.PageTableHT`
    * `Ht.resizeTable`
-/

namespace Virtuoso

namespace Ht

/- An entry holds the pages of one block of eight. -/
structure Entry where
  tag : Option Nat
  ppn : Fin 8 → Nat
  valid : Fin 8 → Bool
  emulatedPhysicalAddress : Nat

/- An empty root entry. -/
def Entry.empty (emulatedPhysicalAddress : Nat) : Entry :=
  ⟨none, fun _ => 0, fun _ => false, emulatedPhysicalAddress⟩

/- The hash, the threshold and the factor of growth. -/
structure Config where
  cityHash64 : Nat → Nat
  crossed : Nat → Nat → Bool
  resizeFactor : Nat
  two_le_resizeFactor : 2 ≤ resizeFactor

/- The table of one page size. -/
structure Table where
  size : Nat
  buckets : Nat → List Entry
  entryCount : Nat
  tablePa : Nat

/- All tables, and the allocator they take memory from. -/
structure PageTableHT where
  tables : PageSize → Table
  kernelStartAddress : Nat

/- `PageTableHT::hashFunction`. -/
def hashFunction
    (c : Config)
    (address tableSize : Nat) : Nat :=
  c.cityHash64 address % tableSize

/- The place of a page in its block. -/
def blockOffset (vpn : Nat) : Fin 8 :=
  ⟨vpn % 8, mod_eight_lt vpn⟩

/- The root entries of a new table. -/
def freshBuckets (tablePa : Nat) (j : Nat) : List Entry :=
  [Entry.empty (tablePa + j * 64)]

/-
  `PageTableHT::PageTableHT`, for 4KB and 2MB pages whose
  tables fit an `int`.
-/
def construct
    (sizes : PageSize → Nat)
    (kernelStartAddress : Nat) : PageTableHT :=
  let small := handlePageTableAllocations kernelStartAddress
    (sizes .fourKb * 64)
  let large := handlePageTableAllocations small.2
    (sizes .twoMb * 64)
  ⟨fun
    | .fourKb =>
        ⟨sizes .fourKb, freshBuckets small.1, 0, small.1⟩
    | .twoMb =>
        ⟨sizes .twoMb, freshBuckets large.1, 0, large.1⟩,
    large.2⟩

/- The index of a page size in `m_page_size_list`. -/
def pageSizeIndex :
    PageSize → Nat
| .fourKb => 0
| .twoMb => 1

/- The access to an entry of a chain. -/
def accessOf
    (level counter : Nat)
    (offset : Fin 8)
    (e : Entry)
    (hit : Bool) : PTWAccess :=
  ⟨level, counter,
    e.emulatedPhysicalAddress * 4096 + offset.val * 8, hit⟩

/-
  The walk along a chain: the accesses, and the page number
  if the translation is found. The end of a chain in an entry
  with another tag is not accessed. The first case is the
  assertion that a chain has an entry.
-/
def walkChain
    (level tag : Nat)
    (offset : Fin 8) :
    Nat → List Entry → List PTWAccess × Option Nat
| _, [] => ([], none)
| counter, e :: rest =>
    if e.tag = some tag then
      if e.valid offset then
        ([accessOf level counter offset e true],
          some (e.ppn offset))
      else
        ([accessOf level counter offset e false], none)
    else if rest.isEmpty then
      (if e.tag = none then
        [accessOf level counter offset e false]
      else
        [], none)
    else
      let further := walkChain level tag offset (counter + 1)
        rest
      (accessOf level counter offset e false :: further.1,
        further.2)

/- The walk of one table. -/
def walkTable
    (c : Config)
    (t : Table)
    (address : Nat)
    (pageSize : PageSize) :
    List PTWAccess × Option (Nat × Nat) :=
  let vpn := pageSize.vpn address
  let walked := walkChain (pageSizeIndex pageSize) (vpn / 8)
    (blockOffset vpn) 0
    (t.buckets (hashFunction c (vpn / 8) t.size))
  (walked.1, walked.2.map (fun ppn => (ppn, pageSize.bits)))

/-
  `PageTableHT::initializeWalk`, without a restart after a
  fault. The last page size with a translation wins.
-/
def initializeWalk
    (c : Config)
    (t : PageTableHT)
    (address : Nat) : PTWResult :=
  let small := walkTable c (t.tables .fourKb) address .fourKb
  let large := walkTable c (t.tables .twoMb) address .twoMb
  let translation := large.2.or small.2
  ⟨translation, small.1 ++ large.1, translation.isNone, 0⟩

/- A table under construction during a resize. -/
structure Rebuilt where
  buckets : Nat → List Entry
  entryCount : Nat
  kernelStartAddress : Nat

/- Set the translations of an entry that has the same tag. -/
def Entry.merge (dst e : Entry) : Entry :=
  { dst with
    valid := fun i => e.valid i || dst.valid i
    ppn := fun i => if e.valid i then e.ppn i else dst.ppn i }

/-
  Put an old entry with a tag into the bucket of its tag. A
  chained entry gets a new address.
-/
def rehashEntry
    (c : Config)
    (newSize : Nat)
    (r : Rebuilt)
    (e : Entry) : Rebuilt :=
  let idx := hashFunction c (e.tag.getD 0) newSize
  match r.buckets idx with
  | [] => r
  | dst :: rest =>
      if dst.tag = none then
        { r with
          buckets := Function.update r.buckets idx
            ({ dst with
                tag := e.tag
                valid := e.valid
                ppn := e.ppn } :: rest)
          entryCount := r.entryCount + 1 }
      else if dst.tag = e.tag then
        { r with
          buckets := Function.update r.buckets idx
            (dst.merge e :: rest) }
      else
        let allocated :=
          handleFineGrainedPageTableAllocations
            r.kernelStartAddress 64
        ⟨Function.update r.buckets idx
            (dst :: rest ++
              [{ e with
                  emulatedPhysicalAddress := allocated.1 }]),
          r.entryCount + 1, allocated.2⟩

/-
  The entries of a table in the order of the loops, which
  leave a chain at its first empty entry.
-/
def entriesOf (t : Table) : List Entry :=
  (List.range t.size).flatMap (fun j =>
    (t.buckets j).takeWhile (fun e => e.tag.isSome))

/-
  `PageTableHT::resizeTable`, with the kernel address after
  all new entries are allocated, for a new size that fits an
  `int`. Other products overflow, see `FitsUpdate`.
-/
def resizeTable
    (c : Config)
    (t : Table)
    (kernelStartAddress : Nat) :
    Table × Nat :=
  let newSize := t.size * c.resizeFactor
  let allocated := handlePageTableAllocations
    kernelStartAddress (newSize * 64)
  let r := (entriesOf t).foldl (rehashEntry c newSize)
    ⟨freshBuckets allocated.1, 0, allocated.2⟩
  (⟨newSize, r.buckets, r.entryCount, allocated.1⟩,
    r.kernelStartAddress)

/- How an update ended. -/
inductive Outcome
  | filled
  | updated
  | chained
deriving DecidableEq, Repr

/- The entry with one translation only. -/
def Entry.single
    (tag : Nat)
    (offset : Fin 8)
    (ppn : Fin 8 → Nat)
    (emulatedPhysicalAddress : Nat) : Entry :=
  ⟨some tag, ppn,
    Function.update (fun _ => false) offset true,
    emulatedPhysicalAddress⟩

/- Write one translation into an entry. -/
def Entry.put
    (e : Entry)
    (offset : Fin 8)
    (ppn : Nat) : Entry :=
  { e with
    valid := Function.update e.valid offset true
    ppn := Function.update e.ppn offset ppn }

/-
  The update along a chain. Filling an empty entry cuts the
  chain behind it. `address` is where a new entry would be.
-/
def updateChain
    (tag : Nat)
    (offset : Fin 8)
    (ppn address : Nat) :
    List Entry → Outcome × List Entry
| [] => (.updated, [])
| e :: rest =>
    if e.tag = none then
      (.filled,
        [Entry.single tag offset
          (Function.update e.ppn offset ppn)
          e.emulatedPhysicalAddress])
    else if e.tag = some tag ∧ e.valid offset = false then
      (.updated, e.put offset ppn :: rest)
    else if rest.isEmpty then
      (.chained,
        [e, Entry.single tag offset
          (Function.update (fun _ => 0) offset ppn)
          address])
    else
      let further := updateChain tag offset ppn address rest
      (further.1, e :: further.2)

/- The update of one table. -/
def updateTable
    (c : Config)
    (t : Table)
    (vpn ppn kernelStartAddress : Nat) :
    Table × Nat :=
  let tag := vpn / 8
  let idx := hashFunction c tag t.size
  let allocated := handleFineGrainedPageTableAllocations
    kernelStartAddress 64
  let updated := updateChain tag (blockOffset vpn) ppn
    allocated.1 (t.buckets idx)
  let buckets := Function.update t.buckets idx updated.2
  match updated.1 with
  | .filled =>
      let filled : Table :=
        { t with
          buckets := buckets
          entryCount := t.entryCount + 1 }
      if c.crossed filled.entryCount filled.size then
        resizeTable c filled kernelStartAddress
      else
        (filled, kernelStartAddress)
  | .updated =>
      ({ t with buckets := buckets }, kernelStartAddress)
  | .chained => ({ t with buckets := buckets }, allocated.2)

/- The update fills a bucket and crosses the threshold. -/
def resizes (c : Config) (t : Table) (vpn : Nat) : Bool :=
  let idx := hashFunction c (vpn / 8) t.size
  decide ((updateChain (vpn / 8) (blockOffset vpn) 0 0
      (t.buckets idx)).1 = .filled) &&
    c.crossed (t.entryCount + 1) t.size

/- The new size of a resize in the update fits an `int`. -/
def FitsUpdate
    (c : Config)
    (t : Table)
    (vpn : Nat) : Prop :=
  resizes c t vpn = true → FitsInt (t.size * c.resizeFactor)

instance
    (c : Config)
    (t : Table)
    (vpn : Nat) :
    Decidable (FitsUpdate c t vpn) :=
  inferInstanceAs (Decidable (_ → _))

/- `PageTableHT::updatePageTableFrames`. -/
def updatePageTableFrames
    (c : Config)
    (t : PageTableHT)
    (address ppn : Nat)
    (pageSize : PageSize) : PageTableHT :=
  let updated := updateTable c (t.tables pageSize)
    (pageSize.vpn address) ppn t.kernelStartAddress
  ⟨Function.update t.tables pageSize updated.1, updated.2⟩

/- Clear one translation of an entry. -/
def Entry.clear (e : Entry) (offset : Fin 8) : Entry :=
  { e with
    valid := Function.update e.valid offset false
    ppn := Function.update e.ppn offset 0 }

/-
  The deletion along a chain. An entry without translations
  takes over the one behind it, or becomes empty.
-/
def deleteChain
    (tag : Nat)
    (offset : Fin 8) :
    List Entry → List Entry
| [] => []
| e :: rest =>
    if e.tag = some tag then
      let cleared := e.clear offset
      if ∀ i, cleared.valid i = false then
        match rest with
        | [] => [{ cleared with tag := none }]
        | next :: rest' =>
            ⟨next.tag, next.ppn, next.valid,
              next.emulatedPhysicalAddress⟩ :: rest'
      else
        cleared :: rest
    else
      e :: deleteChain tag offset rest

/- `PageTableHT::deletePage`, which only reads the first table. -/
def deletePage
    (c : Config)
    (t : PageTableHT)
    (address : Nat) : PageTableHT :=
  let vpn := PageSize.fourKb.vpn address
  let table := t.tables .fourKb
  let idx := hashFunction c (vpn / 8) table.size
  { t with
    tables := Function.update t.tables .fourKb
      { table with
        buckets := Function.update table.buckets idx
          (deleteChain (vpn / 8) (blockOffset vpn)
            (table.buckets idx)) } }

end Ht

end Virtuoso
