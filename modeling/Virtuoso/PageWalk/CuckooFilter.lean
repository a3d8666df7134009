import Virtuoso.Lib.Run
import Virtuoso.PageTable.Cuckoo.Runs

/-
  The cuckoo-walk cache of `cwc.cc` and the filter of
  `cuckoo_filter.cc` over it.

  A row of the cache points to an entry of the cuckoo-walk
  table. Entries are objects with numbers, and only those in
  `objects` are alive. On a miss the filter lets the row
  point to its own copy of the entry, which ends with the
  call. What reads an entry that is not alive is undefined,
  and so has no outcome. The counters and the log are left
  out.

  Main declarations:
    * `CuckooFilter.filterPTWResult`
    * `CuckooFilter.keeps_run_iff`
-/

namespace Virtuoso

/- What is known of the pages of a section. -/
structure CwtSectionHeader where
  has4kbPage : Bool
  has2mbPage : Bool
  way : Nat

/- The sections of 1GB of addresses. -/
structure PmdCwtEntry where
  tag : Nat
  sectionHeader : Nat → CwtSectionHeader

/- No page of the sections is known. -/
def PmdCwtEntry.create (tag : Nat) : PmdCwtEntry :=
  ⟨tag, fun _ => ⟨false, false, 2 ^ 8 - 1⟩⟩

/- The rows by their latest use, and those of the tags. -/
structure CwCache where
  size : Nat
  lruList : List Nat
  map : List (Nat × Nat)

namespace CwCache

/- The row of a tag, which becomes the youngest. -/
def lookup
    (cwc : CwCache)
    (tag : Nat) : Option (Nat × CwCache) :=
  (cwc.map.lookup tag).map (fun row => (row,
    { cwc with lruList := row :: cwc.lruList.erase row }))

/- A row replaces that of its tag, or the oldest. -/
def insert
    (objects : Nat → Option PmdCwtEntry)
    (cwc : CwCache)
    (row : Nat) : Option CwCache :=
  (objects row).bind (fun entry =>
    match cwc.map.lookup entry.tag with
    | some old =>
        some { cwc with
          lruList := row :: cwc.lruList.erase old
          map := (entry.tag, row) ::
            cwc.map.filter (fun e => e.1 != entry.tag) }
    | none =>
        if cwc.lruList.length = cwc.size then
          -- the tag of the last row is read through the row
          (cwc.lruList.getLast?.bind objects).map
            (fun last =>
              { cwc with
                lruList := row :: cwc.lruList.dropLast
                map := (entry.tag, row) ::
                  cwc.map.filter (fun e => e.1 != last.tag) })
        else
          some { cwc with
            lruList := row :: cwc.lruList
            map := (entry.tag, row) :: cwc.map })

end CwCache

/- The page table with its cuckoo-walk table, and the cache. -/
structure CuckooFilter where
  table : Cuckoo.PageTableCuckoo
  pmdCwtEntries : Nat → Option PmdCwtEntry
  cwc : CwCache
  objects : Nat → Option PmdCwtEntry
  nextObject : Nat

namespace CuckooFilter

/- The filter before any walk. -/
def construct
    (sizes : PageSize → Nat)
    (entries : Nat) : CuckooFilter :=
  ⟨Cuckoo.construct sizes, fun _ => none, ⟨entries, [], []⟩,
    fun _ => none, 0⟩

/- The page size and the way of the last translation. -/
def resolve (accesses : List PTWAccess) : Nat × Nat :=
  (accesses.foldl (fun (s : (Nat × Nat) × Nat × Nat) a =>
      let level := a.tableLevel
      let way := if level ≠ s.1.1 then 0 else s.1.2
      ((level, way + 1),
        if a.isPte then (if level = 0 then 12 else 21, way)
        else s.2))
    ((0, 0), 0, 0)).2

/- The accesses to the way of 2MB pages, and those of 4KB. -/
def keepWay
    (header : CwtSectionHeader) :
    Nat → List PTWAccess → List PTWAccess
| _, [] => []
| wayCounter, a :: rest =>
    if a.tableLevel = 1 then
      if wayCounter = header.way then
        a :: keepWay header (wayCounter + 1) rest
      else
        keepWay header (wayCounter + 1) rest
    else if a.tableLevel = 0 ∧ header.has4kbPage then
      a :: keepWay header wayCounter rest
    else
      keepWay header wayCounter rest

/- What a hit returns and writes to the entry. -/
def filterHit
    (entry : PmdCwtEntry)
    (offset : Nat)
    (r : PTWResult) : PTWResult × PmdCwtEntry :=
  let header := entry.sectionHeader offset
  if header.has2mbPage then
    ({ r with accesses := keepWay header 0 r.accesses }, entry)
  else if header.has4kbPage then
    ({ r with
      accesses := r.accesses.filter
        (fun a => a.tableLevel == 0) }, entry)
  else
    let found := resolve r.accesses
    (r, { entry with
      sectionHeader := Function.update entry.sectionHeader
        offset ⟨found.1 == 12, found.1 == 21, found.2 % 2 ^ 8⟩ })

/- `PageTableCuckoo::retrieveCWTrow`. -/
def retrieveCWTrow
    (s : CuckooFilter)
    (address : Nat) : PmdCwtEntry :=
  (s.pmdCwtEntries (address / 2 ^ 30)).getD
    (PmdCwtEntry.create (2 ^ 64 - 1))

/- What the header of a hit rules out is left out. -/
def filterPTWResult
    (s : CuckooFilter)
    (address : Nat)
    (r : PTWResult) : Option (PTWResult × CuckooFilter) :=
  match s.cwc.lookup (address / 2 ^ 30) with
  | some (row, cwc) =>
      (s.objects row).map (fun entry =>
        let out := filterHit entry (address / 2 ^ 24 % 2 ^ 6) r
        (out.1, { s with
          cwc := cwc
          objects :=
            Function.update s.objects row (some out.2) }))
  | none =>
      let cwtRow := s.retrieveCWTrow address
      let alive := Function.update s.objects s.nextObject
        (some cwtRow)
      (s.cwc.insert alive s.nextObject).map (fun cwc =>
        -- the copy ends here, and `objects` is as before
        (r, { s with
          pmdCwtEntries := Function.update s.pmdCwtEntries
            (address / 2 ^ 30) (some cwtRow)
          cwc := cwc
          nextObject := s.nextObject + 1 }))

/- The end of `PageTableCuckoo::updatePageTableFrames`. -/
def recordPage
    (s : CuckooFilter)
    (address : Nat)
    (pageSize : PageSize) : Nat → Option PmdCwtEntry :=
  let tag := address / 2 ^ 30
  let offset := address / 2 ^ 24 % 2 ^ 6
  let entry := (s.pmdCwtEntries tag).getD (.create tag)
  let header := entry.sectionHeader offset
  Function.update s.pmdCwtEntries tag (some { entry with
    sectionHeader := Function.update entry.sectionHeader
      offset (match pageSize with
        | .fourKb => { header with has4kbPage := true }
        | .twoMb => { header with has2mbPage := true }) })

/- The calls of the table and the filter. -/
inductive Op where
| update (address ppn : Nat) (pageSize : PageSize)
| delete (address : Nat)
| walk (address : Nat)

variable {c : Cuckoo.Config} {fuel : Nat} {s s' : CuckooFilter}

/- A call on the table that the filter is of. -/
def step
    (c : Cuckoo.Config)
    (fuel : Nat)
    (s : CuckooFilter) : Op → Option CuckooFilter
| .update address ppn pageSize =>
    (Cuckoo.updatePageTableFrames c fuel s.table address ppn
      pageSize).map (fun t =>
        { s with
          table := t
          pmdCwtEntries := s.recordPage address pageSize })
| .delete address =>
    some { s with table := Cuckoo.deletePage c s.table address }
| .walk address =>
    (s.filterPTWResult address
      (Cuckoo.initializeWalk c s.table address)).map Prod.snd

/-
  A walk is filtered to a sublist of its accesses. The access
  of a translation stays.
-/
def Keeps (c : Cuckoo.Config) (s : CuckooFilter) : Op → Prop
| .walk address =>
    let walk := Cuckoo.initializeWalk c s.table address
    ∃ r s', s.filterPTWResult address walk = some (r, s') ∧
      r.accesses.Sublist walk.accesses ∧
      (walk.translation.isSome = true →
        ∃ a ∈ r.accesses, a.isPte = true)
| _ => True

/-
  The cache has no row for a walk, and it need not drop one
  to take the row of the walk.
-/
def Misses (s : CuckooFilter) : Op → Prop
| .walk address =>
    s.cwc.map.lookup (address / 2 ^ 30) = none ∧
      (s.cwc.map.lookup (s.retrieveCWTrow address).tag ≠ none ∨
        s.cwc.lruList.length ≠ s.cwc.size)
| _ => True

/- A walk with a translation has the access that found it. -/
theorem exists_isPte
    {t : Cuckoo.PageTableCuckoo}
    {address : Nat}
    (hFound : (Cuckoo.initializeWalk c t
      address).translation.isSome = true) :
    ∃ a ∈ (Cuckoo.initializeWalk c t address).accesses,
      a.isPte = true := by
  unfold Cuckoo.initializeWalk at hFound ⊢
  dsimp only at hFound ⊢
  cases hLast : ((Cuckoo.probes c t address).filterMap
      Prod.snd).getLast? with
  | none => simp [hLast] at hFound
  | some x =>
      rcases List.mem_filterMap.mp (List.mem_of_getLast? hLast) with
        ⟨probe, hMem, hHit⟩
      rcases List.mem_flatMap.mp hMem with
        ⟨pageSize, -, hProbe⟩
      rcases List.mem_map.mp hProbe with ⟨way, -, hEq⟩
      rw [← hEq] at hHit hMem
      simp only [Cuckoo.probe] at hHit
      split_ifs at hHit with hTest
      have hSize : x.2 = pageSize := by
        rw [← Option.some.inj hHit]
      refine ⟨(Cuckoo.probe c t address pageSize way).1,
        List.mem_filter.mpr ⟨List.mem_map_of_mem hMem, ?_⟩, hTest⟩
      simp [Cuckoo.probe, hSize]

/- No copy is alive between calls, and rows point to these. -/
structure Dead (s : CuckooFilter) : Prop where
  none_alive : s.objects = fun _ => none
  row_lt : ∀ row ∈ s.cwc.lruList, row < s.nextObject

theorem CwCache.row_of_insert
    {objects : Nat → Option PmdCwtEntry}
    {cwc cwc' : CwCache}
    {row : Nat}
    (hInsert : cwc.insert objects row = some cwc') :
    ∀ r ∈ cwc'.lruList, r = row ∨ r ∈ cwc.lruList := by
  rcases Option.bind_eq_some_iff.mp hInsert with
    ⟨entry, -, hEntry⟩
  intro r hMem
  split at hEntry
  · rw [← Option.some.inj hEntry] at hMem
    rcases List.mem_cons.mp hMem with hNew | hOld
    · exact .inl hNew
    · exact .inr (List.mem_of_mem_erase hOld)
  · split_ifs at hEntry
    · rcases Option.map_eq_some_iff.mp hEntry with ⟨_, -, hEq⟩
      rw [← hEq] at hMem
      rcases List.mem_cons.mp hMem with hNew | hOld
      · exact .inl hNew
      · exact .inr (List.dropLast_subset _ hOld)
    · rw [← Option.some.inj hEntry] at hMem
      exact List.mem_cons.mp hMem

/- Rows that point to nothing cannot be read. -/
theorem keeps_iff_misses
    (hDead : Dead s)
    (op : Op) :
    Misses s op ↔ Keeps c s op := by
  cases op with
  | update address ppn pageSize => exact Iff.rfl
  | delete address => exact Iff.rfl
  | walk address =>
      simp only [Misses, Keeps, filterPTWResult, CwCache.lookup]
      cases hRow : s.cwc.map.lookup (address / 2 ^ 30) with
      | some row =>
          simp [hDead.none_alive]
      | none =>
          simp only [Option.map_none, true_and, CwCache.insert,
            Function.update_self, Option.bind_some]
          cases hTag : s.cwc.map.lookup
              (s.retrieveCWTrow address).tag with
          | some old =>
              simpa using exists_isPte
          | none =>
              by_cases hFull : s.cwc.lruList.length = s.cwc.size
              · -- the last row is not the copy of this walk
                have hLast : s.cwc.lruList.getLast?.bind
                    (Function.update s.objects s.nextObject
                      (some (s.retrieveCWTrow address))) =
                    none := by
                  cases hRow : s.cwc.lruList.getLast? with
                  | none => rfl
                  | some row =>
                      have hLt := hDead.row_lt row
                        (List.mem_of_getLast? hRow)
                      simp [hDead.none_alive, Nat.ne_of_lt hLt]
                simp [hFull, hLast]
              · simpa [hFull] using exists_isPte

theorem Dead.of_step
    {op : Op}
    (hDead : Dead s)
    (hStep : step c fuel s op = some s') :
    Dead s' := by
  cases op with
  | update address ppn pageSize =>
      rcases Option.map_eq_some_iff.mp hStep with ⟨t, -, hEq⟩
      exact hEq ▸ ⟨hDead.none_alive, hDead.row_lt⟩
  | delete address =>
      exact Option.some.inj hStep ▸ ⟨hDead.none_alive, hDead.row_lt⟩
  | walk address =>
      rcases Option.map_eq_some_iff.mp hStep with
        ⟨⟨r, t⟩, hFilter, hEq⟩
      rw [← hEq]
      unfold filterPTWResult at hFilter
      split at hFilter
      · simp [hDead.none_alive] at hFilter
      · rcases Option.map_eq_some_iff.mp hFilter with
          ⟨cwc, hInsert, hOut⟩
        rw [← congrArg Prod.snd hOut]
        refine ⟨hDead.none_alive, fun row hMem => ?_⟩
        rcases CwCache.row_of_insert hInsert row hMem with
          hNew | hOld
        · exact hNew ▸ Nat.lt_succ_self _
        · exact Nat.lt_succ_of_lt (hDead.row_lt row hOld)

/-
  In any history the walks keep their translations exactly if
  the cache is no more than filled.
-/
theorem keeps_run_iff
    (c : Cuckoo.Config)
    (fuel entries : Nat)
    (sizes : PageSize → Nat)
    (ops : List Op) :
    Run.Along (step c fuel) Misses (construct sizes entries) ops ↔
      Run.Along (step c fuel) (Keeps c)
        (construct sizes entries) ops :=
  Run.along_iff_along (E := fun _ _ => True) (I := Dead)
    (fun _ _ _ hDead _ _ hStep => hDead.of_step hStep)
    (fun _ op hDead _ => keeps_iff_misses hDead op)
    ⟨rfl, by simp [construct]⟩
    (Run.along_of_forall_mem _ (fun _ _ => trivial))

/- The second walk of a region reads the copy of the first. -/
theorem keeps_run_second_walk :
    ¬ Run.Along (step Cuckoo.halfFull 4) (Keeps Cuckoo.halfFull)
      (construct (fun _ => 2) 4)
      [.update 0 1 .fourKb, .walk 0, .walk 0] := by
  rintro ⟨-, hUpdated⟩
  rcases ((hUpdated _ rfl).2 _ rfl).1 with
    ⟨r, s', hFilter, -⟩
  exact Option.some_ne_none _ hFilter.symm

end CuckooFilter

end Virtuoso
