import Mathlib.Data.List.Perm.Basic
import Virtuoso.PageTable.Basic

/-
  The elastic cuckoo page table of `pagetable_cuckoo.cc`.

  For each page size there are `ways` tables of equal size. A
  slot holds a tag and eight translations. The tag `-1` of an
  empty slot is `none`; no tag of a 64-bit address has that
  value.

  CityHash is a parameter, and so are the shuffled order of
  the ways, the test of the load factor and the growth of a
  table by `m_scale`. A loop that grows a table until the
  migration succeeds has a bound on its rounds and returns
  `none` when the bound is reached or the size overflows. The
  cuckoo-walk table, the counters and the log are left out.

  Key definitions include:
    * `Cuckoo.PageTableCuckoo`
    * `Cuckoo.deletePage`
-/

namespace Virtuoso

namespace Cuckoo

/- A slot holds the pages of one block of eight. -/
structure Element where
  tag : Option Nat
  validityBits : Fin 8 → Bool
  frames : Fin 8 → Nat

/- `Element()`. -/
def Element.empty : Element :=
  ⟨none, fun _ => false, fun _ => invalidPpn⟩

/-
  What the constructor is given. `permutation` is the result
  of shuffling the ways with the fixed seed, `overloaded`
  compares the load of a table with the load factor, and
  `grow` multiplies a size by `m_scale`; the product has to
  fit an `int`, which `rehashUntil` tests.
-/
structure Config where
  ways : Nat
  permutation : List Nat
  isPermutation : permutation.Perm (List.range ways)
  ways_pos : 0 < ways
  cityHash64 : Nat → Nat
  overloaded : Nat → Nat → Bool
  grow : Nat → Nat
  grow_pos : ∀ n, 0 < n → 0 < grow n
  tablePpns : PageSize → Nat → Nat

/- The tables of one page size, by way and position. -/
structure Nest where
  size : Nat
  table : Nat → Nat → Element
  numItems : Nat

/- The tables, and the elements without a place. -/
structure PageTableCuckoo where
  nests : PageSize → Nest
  nonResidentEntries : List Element

/- A table without elements. -/
def Nest.fresh (size numItems : Nat) : Nest :=
  ⟨size, fun _ _ => Element.empty, numItems⟩

/- `PageTableCuckoo::PageTableCuckoo`. -/
def construct (sizes : PageSize → Nat) : PageTableCuckoo :=
  ⟨fun pageSize => Nest.fresh (sizes pageSize) 0, []⟩

/- Overwrite one slot. -/
def Nest.set
    (n : Nest)
    (way pos : Nat)
    (e : Element) : Nest :=
  { n with
    table := Function.update n.table way
      (Function.update (n.table way) pos e) }

/- `PageTableCuckoo::hash`. -/
def hash (c : Config) (key size : Nat) : Nat :=
  c.cityHash64 key % size

/- The position of a tag in a way. -/
def position
    (c : Config)
    (n : Nest)
    (tag way : Nat) : Nat :=
  hash c (tag + way) n.size

/- The place of a page in its block. -/
def blockIndex (vpn : Nat) : Fin 8 :=
  ⟨vpn % 8, mod_eight_lt vpn⟩

/- The element with only one translation of an entry. -/
def Element.only (e : Element) (index : Fin 8) : Element :=
  ⟨e.tag,
    fun i => if i = index then e.validityBits index else false,
    fun i => if i = index then e.frames index
      else invalidPpn⟩

/- The first way that has the tag without the translation. -/
def findUpdate
    (c : Config)
    (n : Nest)
    (tag : Nat)
    (index : Fin 8) :
    Option Nat :=
  (List.range c.ways).find? (fun way =>
    let e := n.table way (position c n tag way)
    decide (e.tag = some tag) && !e.validityBits index)

/- The way tried after `k` evictions. -/
def wayAt (c : Config) (k : Nat) : Nat :=
  c.permutation.getD (k % c.ways) 0

/-
  The eviction loop, with the element that is left without a
  slot when the retries run out. The last branch is the one
  the source expects never to take.
-/
def evict
    (c : Config) :
    Nat → Nat → Nest → Element → Bool × Nest × Element
| 0, _, n, old => (false, n, old)
| retries + 1, k, n, old =>
    let way := wayAt c k
    let pos := position c n (old.tag.getD 0) way
    let occupant := n.table way pos
    if occupant.tag = none then
      (true,
        { n.set way pos old with
          numItems := n.numItems + 1 }, old)
    else if occupant.tag ≠ old.tag then
      evict c retries (k + 1) (n.set way pos old) occupant
    else
      evict c retries k n old

/-
  `PageTableCuckoo::insertElement`, on the tables of one page
  size. The address enters through its page number.
-/
def insertElement
    (c : Config)
    (n : Nest)
    (nonResidentEntries : List Element)
    (entry : Element)
    (vpn : Nat) :
    Bool × Nest × List Element :=
  let tag := vpn / 8
  let index := blockIndex vpn
  let current := entry.only index
  match findUpdate c n tag index with
  | some way =>
      let pos := position c n tag way
      let e := n.table way pos
      (true,
        n.set way pos
          { e with
            validityBits :=
              Function.update e.validityBits index true
            frames := Function.update e.frames index
              (current.frames index) },
        nonResidentEntries)
  | none =>
      match evict c 48 0 n current with
      | (true, n', _) => (true, n', nonResidentEntries)
      | (false, n', old) =>
          (false, n',
            if old.tag = none then nonResidentEntries
            else nonResidentEntries ++ [old])

/- The translations of an element with their page numbers. -/
def itemsOf (e : Element) : List (Element × Nat) :=
  match e.tag with
  | none => []
  | some tag =>
      ((List.finRange 8).filter
        (fun i => e.validityBits i)).map
          (fun i => (e, tag * 8 + i.val))

/- The translations of all tables, in the order of the loops. -/
def items (c : Config) (n : Nest) : List (Element × Nat) :=
  (List.range c.ways).flatMap (fun way =>
    (List.range n.size).flatMap (fun pos =>
      itemsOf (n.table way pos)))

/- Insert a list of translations up to the first failure. -/
def insertAll
    (c : Config) :
    List (Element × Nat) → Nest → List Element →
      Bool × Nest × List Element
| [], n, nonResident => (true, n, nonResident)
| (e, vpn) :: rest, n, nonResident =>
    match insertElement c n nonResident e vpn with
    | (true, n', nonResident') =>
        insertAll c rest n' nonResident'
    | (false, n', nonResident') => (false, n', nonResident')

/-
  The loop over the non-resident entries, which erases the
  front of the list while it counts up.
-/
def insertNonResident
    (c : Config) :
    Nat → Nat → Nest → List Element → Bool × Nest × List Element
| 0, _, n, nonResident => (true, n, nonResident)
| fuel + 1, j, n, nonResident =>
    match nonResident[j]? with
    | none => (true, n, nonResident)
    | some entry =>
        match insertAll c (itemsOf entry) n nonResident with
        | (true, n', nonResident') =>
            insertNonResident c fuel (j + 1) n' nonResident'.tail
        | (false, n', nonResident') =>
            (false, n', nonResident')

/- The migration of the old tables. -/
def migrate
    (c : Config)
    (n : Nest)
    (nonResident : List Element)
    (newSize : Nat) :
    Bool × Nest × List Element :=
  insertAll c (items c n) (Nest.fresh newSize n.numItems)
    nonResident

/-
  `PageTableCuckoo::rehash`. A failure restores the tables
  and their size. The failed migration clears the
  non-resident entries, and a failure after it restores them.
-/
def rehash
    (c : Config)
    (n : Nest)
    (nonResident : List Element)
    (newSize : Nat) :
    Bool × Nest × List Element :=
  match migrate c n nonResident newSize with
  | (false, n', _) =>
      (false, { n with numItems := n'.numItems }, [])
  | (true, n', nonResident') =>
      match insertNonResident c nonResident'.length 0 n'
          nonResident' with
      | (false, n'', _) =>
          (false, { n with numItems := n''.numItems }, nonResident')
      | (true, n'', rest) => (true, n'', rest)

/-
  Rehash with growing sizes until it succeeds. A size that
  does not fit an `int` is undefined.
-/
def rehashUntil
    (c : Config) :
    Nat → Nest → List Element → Nat → Option (Nest × List Element)
| 0, _, _, _ => none
| fuel + 1, n, nonResident, newSize =>
    if newSize < 2 ^ 31 then
      match rehash c n nonResident newSize with
      | (true, n', nonResident') => some (n', nonResident')
      | (false, n', nonResident') =>
          rehashUntil c fuel n' nonResident' (c.grow newSize)
    else
      none

/- The rehash for a load above the load factor. -/
def relieve
    (c : Config)
    (fuel : Nat)
    (n : Nest)
    (nonResident : List Element) :
    Option (Nest × List Element) :=
  if c.overloaded n.numItems n.size then
    rehashUntil c fuel n nonResident (c.grow n.size)
  else
    some (n, nonResident)

/- The entry built for a mapping. -/
def entryFor (vpn ppn : Nat) : Element :=
  ⟨some (vpn / 8),
    Function.update (fun _ => false) (blockIndex vpn) true,
    Function.update (fun _ => invalidPpn) (blockIndex vpn) ppn⟩

/- `PageTableCuckoo::updatePageTableFrames`. -/
def updatePageTableFrames
    (c : Config)
    (fuel : Nat)
    (t : PageTableCuckoo)
    (address ppn : Nat)
    (pageSize : PageSize) :
    Option PageTableCuckoo :=
  let vpn := address / 2 ^ pageSize.bits
  match relieve c fuel (t.nests pageSize)
      t.nonResidentEntries with
  | none => none
  | some (n, nonResident) =>
      match insertElement c n nonResident (entryFor vpn ppn)
          vpn with
      | (true, n', nonResident') =>
          some ⟨Function.update t.nests pageSize n', nonResident'⟩
      | (false, n', nonResident') =>
          (rehashUntil c fuel n' nonResident'
            (c.grow n.size)).map (fun r =>
              ⟨Function.update t.nests pageSize r.1, r.2⟩)

/- The index of a page size in `m_page_size_list`. -/
def pageSizeIndex :
    PageSize → Nat
| .fourKb => 0
| .twoMb => 1

/- One probe of a walk: the access and what it found. -/
def probe
    (c : Config)
    (t : PageTableCuckoo)
    (address : Nat)
    (pageSize : PageSize)
    (way : Nat) :
    PTWAccess × Option (Nat × PageSize) :=
  let vpn := address / 2 ^ pageSize.bits
  let n := t.nests pageSize
  let pos := position c n (vpn / 8) way
  let e := n.table way pos
  let hit := decide (e.tag = some (vpn / 8)) &&
    e.validityBits (blockIndex vpn)
  (⟨pageSizeIndex pageSize, 0,
      c.tablePpns pageSize way * 4096 + pos * 64, hit⟩,
    if hit then some (e.frames (blockIndex vpn), pageSize)
    else none)

/- All probes of a walk, in the order of the loops. -/
def probes
    (c : Config)
    (t : PageTableCuckoo)
    (address : Nat) :
    List (PTWAccess × Option (Nat × PageSize)) :=
  [PageSize.fourKb, PageSize.twoMb].flatMap (fun pageSize =>
    (List.range c.ways).map (probe c t address pageSize))

/-
  `PageTableCuckoo::initializeWalk`. The last hit gives the
  result, and the accesses of other page sizes are dropped.
-/
def initializeWalk
    (c : Config)
    (t : PageTableCuckoo)
    (address : Nat) : PTWResult :=
  let all := probes c t address
  match (all.filterMap Prod.snd).getLast? with
  | none => ⟨none, all.map Prod.fst, true, 0⟩
  | some (ppn, pageSize) =>
      ⟨some (ppn, pageSize.bits),
        (all.map Prod.fst).filter (fun access =>
          access.tableLevel == pageSizeIndex pageSize),
        false, 0⟩

/- Clear one translation, and the tag with the last one. -/
def Element.clear (e : Element) (index : Fin 8) : Element :=
  let validityBits :=
    Function.update e.validityBits index false
  ⟨if ∀ i, validityBits i = false then none else e.tag,
    validityBits,
    Function.update e.frames index invalidPpn⟩

/- The first way that has the tag. -/
def findTag
    (c : Config)
    (n : Nest)
    (tag : Nat) :
    Option Nat :=
  (List.range c.ways).find? (fun way =>
    decide ((n.table way (position c n tag way)).tag = some tag))

/- The deletion from the tables of one page size. -/
def deleteFrom (c : Config) (n : Nest) (vpn : Nat) : Nest :=
  let tag := vpn / 8
  match findTag c n tag with
  | none => n
  | some way =>
      let pos := position c n tag way
      n.set way pos ((n.table way pos).clear (blockIndex vpn))

/-
  `PageTableCuckoo::deletePage`, which only reads the tables
  of the first page size.
-/
def deletePage
    (c : Config)
    (t : PageTableCuckoo)
    (address : Nat) : PageTableCuckoo :=
  { t with
    nests := Function.update t.nests .fourKb
      (deleteFrom c (t.nests .fourKb)
        (address / 2 ^ PageSize.fourKb.bits)) }

end Cuckoo

end Virtuoso
