import Virtuoso.Lib.Run
import Virtuoso.PageTable.Cuckoo.Rehash

/-
  Runs of the elastic cuckoo page table.

  Every page mapped so far is found in every state of a run
  exactly when pages of different sizes do not overlap and no
  rehash after a failed insertion fails while it migrates the
  old tables: such a failure clears the entry that waits for
  a slot.

  Main declarations:
    * `Cuckoo.Session`
    * `Cuckoo.allFound_run_iff`
-/

------------------------------------------------------------
-- Walks And Sessions
------------------------------------------------------------

namespace Virtuoso

namespace Cuckoo

variable {c : Config}

/- The page number of an address for a page size. -/
def vpnOf (pageSize : PageSize) (address : Nat) : Nat :=
  address / 2 ^ pageSize.bits

/- The tables of a page size translate the address. -/
def Translates
    (t : PageTableCuckoo)
    (address : Nat)
    (pageSize : PageSize)
    (ppn : Nat) : Prop :=
  Content (t.nests pageSize) (vpnOf pageSize address / 8)
    (blockIndex (vpnOf pageSize address)) ppn

/- The hits of the probes for a page size. -/
def hits
    (c : Config)
    (t : PageTableCuckoo)
    (address : Nat)
    (pageSize : PageSize) :
    List (Nat × PageSize) :=
  (List.range c.ways).filterMap
    (fun way => (probe c t address pageSize way).2)

theorem filterMap_probes
    (t : PageTableCuckoo)
    (address : Nat) :
    (probes c t address).filterMap Prod.snd =
      hits c t address .fourKb ++ hits c t address .twoMb := by
  simp [probes, hits, List.filterMap_map]

variable {t : PageTableCuckoo}

theorem mem_hits
    {address : Nat}
    {pageSize : PageSize}
    (hPlaced : Placed c (t.nests pageSize))
    {x : Nat × PageSize} :
    x ∈ hits c t address pageSize ↔
      x.2 = pageSize ∧ Translates t address pageSize x.1 := by
  unfold hits
  rw [List.mem_filterMap]
  constructor
  · rintro ⟨way, -, hProbe⟩
    simp only [probe] at hProbe
    split at hProbe
    · rename_i hHit
      simp only [Bool.and_eq_true, decide_eq_true_eq] at hHit
      cases hProbe
      exact ⟨rfl, way, _, hHit.1, hHit.2, rfl⟩
    · cases hProbe
  · rintro ⟨hSize, way, pos, hTag, hValid, hPpn⟩
    rcases hPlaced.home way pos _ hTag with ⟨hWay, hPos⟩
    refine ⟨way, List.mem_range.mpr hWay, ?_⟩
    rw [hPos] at hTag hValid hPpn
    unfold vpnOf at hTag hValid hPpn
    rcases x with ⟨ppn, size⟩
    simp only at hSize hPpn
    simp [probe, hTag, hValid, hPpn, hSize]

theorem Translates.unique
    {address : Nat}
    {pageSize : PageSize}
    (hPlaced : Placed c (t.nests pageSize))
    {ppn ppn' : Nat}
    (hFirst : Translates t address pageSize ppn)
    (hSecond : Translates t address pageSize ppn') :
    ppn = ppn' := by
  rcases hFirst with ⟨way, pos, hTag, -, hPpn⟩
  rcases hSecond with ⟨way', pos', hTag', -, hPpn'⟩
  rcases hPlaced.unique way pos way' pos' _ hTag hTag' with
    ⟨hWay, hPos⟩
  subst hWay
  subst hPos
  exact hPpn.symm.trans hPpn'

theorem translation_eq
    (t : PageTableCuckoo)
    (address : Nat) :
    (initializeWalk c t address).translation =
      ((hits c t address .fourKb ++
        hits c t address .twoMb).getLast?).map
          (fun x => (x.1, x.2.bits)) := by
  simp only [initializeWalk, filterMap_probes]
  cases (hits c t address .fourKb ++
      hits c t address .twoMb).getLast? with
  | none => rfl
  | some x => rfl

/- A fault is reported exactly without translation. -/
theorem isPagefault_eq
    (t : PageTableCuckoo)
    (address : Nat) :
    (initializeWalk c t address).isPagefault =
      (initializeWalk c t address).translation.isNone := by
  simp only [initializeWalk]
  cases ((probes c t address).filterMap Prod.snd).getLast? with
  | none => rfl
  | some x => rfl

/- What a walk returns is in the tables of a page size. -/
theorem exists_translates_of_walk
    (hPlaced : ∀ pageSize, Placed c (t.nests pageSize))
    {address ppn bits : Nat}
    (hWalk :
      (initializeWalk c t address).translation = some (ppn, bits)) :
    ∃ pageSize : PageSize, pageSize.bits = bits ∧
      Translates t address pageSize ppn := by
  rw [translation_eq] at hWalk
  rcases Option.map_eq_some_iff.mp hWalk with
    ⟨x, hLast, hEq⟩
  have hMem := List.mem_of_getLast? hLast
  simp only [Prod.mk.injEq] at hEq
  refine ⟨x.2, hEq.2, ?_⟩
  rw [← hEq.1]
  rcases List.mem_append.mp hMem with hSmall | hLarge
  · rcases (mem_hits (hPlaced _)).mp hSmall with ⟨hx, hHas⟩
    rw [hx]
    exact hHas
  · rcases (mem_hits (hPlaced _)).mp hLarge with ⟨hx, hHas⟩
    rw [hx]
    exact hHas

theorem translates_of_walk
    (hPlaced : ∀ pageSize, Placed c (t.nests pageSize))
    {address ppn : Nat}
    {pageSize : PageSize}
    (hWalk :
      (initializeWalk c t address).translation =
        some (ppn, pageSize.bits)) :
    Translates t address pageSize ppn := by
  rcases exists_translates_of_walk hPlaced hWalk with
    ⟨pageSize', hBits, hHas⟩
  have hSize : pageSize' = pageSize := by
    cases pageSize' with
    | fourKb =>
        cases pageSize with
        | fourKb => rfl
        | twoMb => exact absurd hBits (by decide)
    | twoMb =>
        cases pageSize with
        | fourKb => exact absurd hBits (by decide)
        | twoMb => rfl
  exact hSize ▸ hHas

/- A 2MB translation wins over a 4KB one. -/
theorem walk_of_twoMb
    (hPlaced : ∀ pageSize, Placed c (t.nests pageSize))
    {address ppn : Nat}
    (hHas : Translates t address .twoMb ppn) :
    (initializeWalk c t address).translation =
      some (ppn, PageSize.twoMb.bits) := by
  have hMem : (ppn, PageSize.twoMb) ∈ hits c t address .twoMb :=
    (mem_hits (hPlaced _)).mpr ⟨rfl, hHas⟩
  have hNe : hits c t address .twoMb ≠ [] :=
    List.ne_nil_of_mem hMem
  rw [translation_eq, List.getLast?_append_of_ne_nil _ hNe]
  rcases Option.ne_none_iff_exists'.mp
      (mt List.getLast?_eq_none_iff.mp hNe) with ⟨x, hLast⟩
  rcases (mem_hits (hPlaced _)).mp
      (List.mem_of_getLast? hLast) with ⟨hSize, hHas'⟩
  rw [hLast, Option.map_some, hSize, hHas'.unique (hPlaced _) hHas]

theorem walk_of_fourKb
    (hPlaced : ∀ pageSize, Placed c (t.nests pageSize))
    {address ppn : Nat}
    (hHas : Translates t address .fourKb ppn)
    (hNone : ∀ ppn', ¬ Translates t address .twoMb ppn') :
    (initializeWalk c t address).translation =
      some (ppn, PageSize.fourKb.bits) := by
  have hEmpty : hits c t address .twoMb = [] := by
    apply List.eq_nil_iff_forall_not_mem.mpr
    intro x hMem
    exact hNone x.1 ((mem_hits (hPlaced _)).mp hMem).2
  have hMem : (ppn, PageSize.fourKb) ∈ hits c t address .fourKb :=
    (mem_hits (hPlaced _)).mpr ⟨rfl, hHas⟩
  rw [translation_eq, hEmpty, List.append_nil]
  rcases Option.ne_none_iff_exists'.mp
      (mt List.getLast?_eq_none_iff.mp
        (List.ne_nil_of_mem hMem)) with ⟨x, hLast⟩
  rcases (mem_hits (hPlaced _)).mp
      (List.mem_of_getLast? hLast) with ⟨hSize, hHas'⟩
  rw [hLast, Option.map_some, hSize, hHas'.unique (hPlaced _) hHas]

/- One call of `updatePageTableFrames`. -/
structure Mapped where
  address : Nat
  ppn : Nat
  pageSize : PageSize
deriving DecidableEq

/- The virtual page that is mapped. -/
def Mapped.vpn (m : Mapped) : Nat :=
  vpnOf m.pageSize m.address

/- The pages of the two sizes are kept apart. -/
def Mapped.key (m : Mapped) : PageSize × Nat :=
  (m.pageSize, m.vpn)

/- A table and the pages it was asked to map. -/
structure Session where
  table : PageTableCuckoo
  past : List Mapped

/- The table as it is constructed. -/
def start (sizes : PageSize → Nat) : Session :=
  ⟨construct sizes, []⟩

/- One update, with at most `fuel` rounds of each rehash. -/
def step
    (c : Config)
    (fuel : Nat)
    (s : Session)
    (m : Mapped) :
    Option Session :=
  (updatePageTableFrames c fuel s.table m.address m.ppn
    m.pageSize).map (fun t => ⟨t, m :: s.past⟩)

/- The walk finds every mapped page with its page number. -/
def AllFound (c : Config) (s : Session) : Prop :=
  ∀ m ∈ s.past,
    (initializeWalk c s.table m.address).isPagefault = false ∧
      (initializeWalk c s.table m.address).translation =
        some (m.ppn, m.pageSize.bits)

/- Pages of different sizes lie in different 2MB regions. -/
def Separate (m m' : Mapped) : Prop :=
  m.pageSize ≠ m'.pageSize →
    m.address / 2 ^ 21 ≠ m'.address / 2 ^ 21

/-
  If the insertion of the page fails, the rehash that follows
  has no round that fails while migrating the old tables.
-/
def KeepsDisplaced
    (c : Config)
    (fuel : Nat)
    (t : PageTableCuckoo)
    (m : Mapped) : Prop :=
  ∀ n nonResident n' nonResident',
    relieve c fuel (t.nests m.pageSize) t.nonResidentEntries =
        some (n, nonResident) →
      insertElement c n nonResident (entryFor m.vpn m.ppn)
          m.vpn = (false, n', nonResident') →
        Migrates c fuel n' nonResident' (c.grow n.size)

/- The condition under which an update loses no page. -/
def Safe
    (c : Config)
    (fuel : Nat)
    (s : Session)
    (m : Mapped) : Prop :=
  (∀ m' ∈ s.past, Separate m m') ∧ KeepsDisplaced c fuel s.table m

instance :
    ∀ m m' : Mapped, Decidable (Separate m m') :=
  fun m m' =>
    inferInstanceAs (Decidable (m.pageSize ≠ m'.pageSize →
      m.address / 2 ^ 21 ≠ m'.address / 2 ^ 21))

instance decidableMigrates
    (c : Config) :
    ∀ fuel n nonResident newSize,
      Decidable (Migrates c fuel n nonResident newSize)
| 0, _, _, _ => isTrue trivial
| fuel + 1, n, nonResident, newSize =>
    have := decidableMigrates c fuel
      (rehash c n nonResident newSize).2.1
      (rehash c n nonResident newSize).2.2
      (c.grow newSize)
    inferInstanceAs (Decidable (_ ∧ (_ → _)))

variable {fuel : Nat}

/- The two results on which the condition depends. -/
theorem keepsDisplaced_iff
    {m : Mapped} :
    KeepsDisplaced c fuel t m ↔
      ∀ r ∈ relieve c fuel (t.nests m.pageSize)
          t.nonResidentEntries,
        (insertElement c r.1 r.2 (entryFor m.vpn m.ppn)
            m.vpn).1 = false →
          Migrates c fuel
            (insertElement c r.1 r.2
              (entryFor m.vpn m.ppn) m.vpn).2.1
            (insertElement c r.1 r.2
              (entryFor m.vpn m.ppn) m.vpn).2.2
            (c.grow r.1.size) := by
  constructor
  · intro hKeeps r hRelieve hFail
    apply hKeeps r.1 r.2 _ _ hRelieve
    rw [← hFail]
  · intro hKeeps n nonResident n' nonResident' hRelieve hFail
    have hMigrates := hKeeps (n, nonResident) hRelieve
    rw [hFail] at hMigrates
    exact hMigrates rfl

instance :
    ∀ fuel t m, Decidable (KeepsDisplaced c fuel t m) :=
  fun _ _ _ => decidable_of_iff _ keepsDisplaced_iff.symm

instance :
    ∀ fuel s m, Decidable (Safe c fuel s m) :=
  fun _ _ _ => inferInstanceAs (Decidable (_ ∧ _))

instance :
    ∀ s, Decidable (AllFound c s) :=
  fun s => inferInstanceAs (Decidable (∀ m ∈ s.past, _ ∧ _))

------------------------------------------------------------
-- Updates And Runs
------------------------------------------------------------

/- The pages recorded for a page size. -/
def Recorded
    (past : List Mapped)
    (pageSize : PageSize)
    (tag : Nat)
    (i : Fin 8)
    (ppn : Nat) : Prop :=
  ∃ m ∈ past, m.pageSize = pageSize ∧
    m.vpn = tag * 8 + i.val ∧ m.ppn = ppn

/- The tables hold exactly the recorded pages. -/
structure Holds (c : Config) (s : Session) : Prop where
  resident : s.table.nonResidentEntries = []
  placed : ∀ pageSize, Placed c (s.table.nests pageSize)
  content : ∀ pageSize tag i ppn,
    Content (s.table.nests pageSize) tag i ppn ↔
      Recorded s.past pageSize tag i ppn

theorem adds_entryFor
    (m : Mapped)
    (tag : Nat)
    (i : Fin 8)
    (ppn : Nat) :
    Adds (entryFor m.vpn m.ppn) m.vpn tag i ppn ↔
      m.vpn = tag * 8 + i.val ∧ m.ppn = ppn := by
  unfold Adds entryFor
  simp only [Function.update_self]
  constructor
  · rintro ⟨hTag, hIndex, hPpn⟩
    have hMod : i.val = m.vpn % 8 := congrArg Fin.val hIndex
    exact ⟨by omega, hPpn⟩
  · rintro ⟨hVpn, hPpn⟩
    refine ⟨by omega, Fin.ext ?_, hPpn⟩
    simp only [blockIndex]
    omega

theorem translates_iff
    {past : List Mapped}
    (hContent : ∀ pageSize tag i ppn,
      Content (t.nests pageSize) tag i ppn ↔
        Recorded past pageSize tag i ppn)
    (address : Nat)
    (pageSize : PageSize)
    (ppn : Nat) :
    Translates t address pageSize ppn ↔
      ∃ m ∈ past, m.pageSize = pageSize ∧
        m.vpn = vpnOf pageSize address ∧ m.ppn = ppn := by
  unfold Translates
  rw [hContent]
  have hVpn : vpnOf pageSize address / 8 * 8 +
      (blockIndex (vpnOf pageSize address)).val =
        vpnOf pageSize address := by
    simp only [blockIndex]
    omega
  unfold Recorded
  rw [hVpn]

/- A rehash for the load keeps the content. -/
theorem relieve_spec
    {n : Nest}
    (hPlaced : Placed c n)
    {r : Nest × List Element}
    (hRelieve : relieve c fuel n [] = some r) :
    r.2 = [] ∧ Placed c r.1 ∧
      ∀ tag i ppn, Content r.1 tag i ppn ↔ Content n tag i ppn := by
  unfold relieve at hRelieve
  split at hRelieve
  · simpa [Waiting] using rehashUntil_spec fuel hPlaced
      none (fun e hSome => by cases hSome)
      (c.grow_pos _ hPlaced.size_pos) hRelieve
  · cases hRelieve
    exact ⟨rfl, hPlaced, fun tag i ppn => Iff.rfl⟩

theorem recorded_cons
    (m : Mapped)
    (past : List Mapped)
    (tag : Nat)
    (i : Fin 8)
    (ppn : Nat) :
    Recorded (m :: past) m.pageSize tag i ppn ↔
      Recorded past m.pageSize tag i ppn ∨
        m.vpn = tag * 8 + i.val ∧ m.ppn = ppn := by
  simp [Recorded, or_comm]

variable {m : Mapped}

/- The entry of a page that is not held may be inserted. -/
theorem insertable_entryFor
    (hFresh : ∀ ppn, ¬ Translates t m.address m.pageSize ppn)
    {n : Nest}
    (hContent : ∀ tag i ppn,
      Content n tag i ppn ↔
        Content (t.nests m.pageSize) tag i ppn) :
    Insertable n (entryFor m.vpn m.ppn) m.vpn := by
  refine ⟨rfl, by simp [entryFor], ?_⟩
  intro ppn hHas
  rw [hContent] at hHas
  exact hFresh ppn hHas

/-
  What an update of a page that is not held does. After a
  rehash for the load the entry gets a slot, or one entry
  waits for the rehash loop that follows.
-/
theorem update_cases
    {t t' : PageTableCuckoo}
    (hResident : t.nonResidentEntries = [])
    (hPlaced : Placed c (t.nests m.pageSize))
    (hFresh : ∀ ppn, ¬ Translates t m.address m.pageSize ppn)
    (hUpdate :
      updatePageTableFrames c fuel t m.address m.ppn
        m.pageSize = some t') :
    ∃ n₁,
      relieve c fuel (t.nests m.pageSize)
          t.nonResidentEntries = some (n₁, []) ∧
        0 < c.grow n₁.size ∧
        (∀ tag i ppn,
          Content n₁ tag i ppn ↔
            Content (t.nests m.pageSize) tag i ppn) ∧
        ((∃ n₂,
          insertElement c n₁ [] (entryFor m.vpn m.ppn)
              m.vpn = (true, n₂, []) ∧
            Placed c n₂ ∧
            (∀ tag i ppn,
              Content n₂ tag i ppn ↔
                Content n₁ tag i ppn ∨
                  Adds (entryFor m.vpn m.ppn) m.vpn tag i ppn) ∧
            t' = ⟨Function.update t.nests m.pageSize n₂, []⟩) ∨
        ∃ n₂ old r,
          insertElement c n₁ [] (entryFor m.vpn m.ppn)
              m.vpn = (false, n₂, [old]) ∧
            Placed c n₂ ∧ Displaced n₂ old ∧
            (∀ tag i ppn,
              Content n₂ tag i ppn ∨ old.Has tag i ppn ↔
                Content n₁ tag i ppn ∨
                  Adds (entryFor m.vpn m.ppn) m.vpn tag i ppn) ∧
            rehashUntil c fuel n₂ [old] (c.grow n₁.size) = some r ∧
            t' = ⟨Function.update t.nests m.pageSize r.1,
              r.2⟩) := by
  have hVpn : m.address / 2 ^ m.pageSize.bits = m.vpn := rfl
  simp only [updatePageTableFrames, hResident, hVpn] at hUpdate
  rw [hResident]
  cases hRelieve : relieve c fuel (t.nests m.pageSize) [] with
  | none => simp [hRelieve] at hUpdate
  | some r =>
      rcases r with ⟨n₁, rest⟩
      rcases relieve_spec hPlaced hRelieve with
        ⟨hRest, hPlaced₁, hContent₁⟩
      simp only at hRest
      subst hRest
      simp only [hRelieve] at hUpdate
      refine ⟨n₁, rfl, c.grow_pos _ hPlaced₁.size_pos,
        hContent₁, ?_⟩
      rcases insertElement_spec hPlaced₁
          (insertable_entryFor hFresh hContent₁) [] with
        ⟨n₂, hEq, hPlaced₂, -, hContent₂⟩ |
          ⟨n₂, old, hEq, hPlaced₂, -, hOld, hContent₂⟩
      · simp only [hEq, Option.some.injEq] at hUpdate
        exact Or.inl ⟨n₂, hEq, hPlaced₂, hContent₂, hUpdate.symm⟩
      · simp only [hEq, List.nil_append] at hUpdate
        rcases Option.map_eq_some_iff.mp hUpdate with
          ⟨r, hLoop, hState⟩
        exact Or.inr ⟨n₂, old, r, hEq, hPlaced₂, hOld,
          hContent₂, hLoop, hState.symm⟩

variable {s : Session}

/- A page without a record is not in the tables. -/
theorem not_translates_of_fresh
    (hHolds : Holds c s)
    (hFresh : m.key ∉ s.past.map Mapped.key)
    (ppn : Nat) :
    ¬ Translates s.table m.address m.pageSize ppn := by
  intro hHas
  rcases (translates_iff hHolds.content _ _ _).mp hHas with
    ⟨m', hMem, hSize, hVpn, -⟩
  apply hFresh
  refine List.mem_map.mpr ⟨m', hMem, ?_⟩
  have hSame : m'.vpn = m.vpn := hVpn
  simp [Mapped.key, hSize, hSame]

/-
  What an update leaves in the tables of its page size: all
  pages when no round drops the displaced entry, and all but
  at least one page otherwise.
-/
theorem update_spec
    (hHolds : Holds c s)
    (hFresh : m.key ∉ s.past.map Mapped.key)
    (hUpdate :
      updatePageTableFrames c fuel s.table m.address m.ppn
        m.pageSize = some t) :
    ∃ n,
      t.nests = Function.update s.table.nests m.pageSize n ∧
        Placed c n ∧
        (KeepsDisplaced c fuel s.table m →
          t.nonResidentEntries = [] ∧
            ∀ tag i ppn,
              Content n tag i ppn ↔
                Recorded (m :: s.past) m.pageSize tag i ppn) ∧
        (¬ KeepsDisplaced c fuel s.table m →
          ∃ tag i ppn,
            Recorded (m :: s.past) m.pageSize tag i ppn ∧
              ¬ ∃ ppn', Content n tag i ppn') := by
  rcases update_cases hHolds.resident (hHolds.placed _)
      (not_translates_of_fresh hHolds hFresh) hUpdate with
    ⟨n₁, hRelieve, hGrow, hContent₁, hCases⟩
  have hRecorded : ∀ tag i ppn,
      (Content n₁ tag i ppn ∨
          Adds (entryFor m.vpn m.ppn) m.vpn tag i ppn) ↔
        Recorded (m :: s.past) m.pageSize tag i ppn := by
    intro tag i ppn
    rw [hContent₁, hHolds.content, adds_entryFor, recorded_cons]
  rcases hCases with
    ⟨n₂, hEq, hPlaced₂, hContent₂, hState⟩ |
      ⟨n₂, old, r, hEq, hPlaced₂, hOld, hContent₂, hLoop, hState⟩
  · subst hState
    refine ⟨n₂, rfl, hPlaced₂, ?_, ?_⟩
    · intro _
      refine ⟨rfl, fun tag i ppn => ?_⟩
      rw [hContent₂, hRecorded]
    · intro hDrops
      exfalso
      apply hDrops
      intro n nonResident n' nonResident' hRelieve' hFail
      rw [hRelieve] at hRelieve'
      cases hRelieve'
      rw [hEq] at hFail
      cases hFail
  · subst hState
    have hIff : KeepsDisplaced c fuel s.table m ↔
        Migrates c fuel n₂ [old] (c.grow n₁.size) := by
      constructor
      · intro hKeeps
        exact hKeeps n₁ [] n₂ [old] hRelieve hEq
      · intro hMigrates n nonResident n' nonResident'
          hRelieve' hFail
        rw [hRelieve] at hRelieve'
        cases hRelieve'
        rw [hEq] at hFail
        cases hFail
        exact hMigrates
    rcases rehashUntil_waiting fuel hPlaced₂ hOld hGrow
      hLoop with ⟨hNil, hPlaced₃, hContent₃⟩
    refine ⟨r.1, rfl, hPlaced₃, ?_, ?_⟩
    · intro hKeeps
      refine ⟨hNil, fun tag i ppn => ?_⟩
      rw [hContent₃, ← hRecorded, ← hContent₂,
        and_iff_right (hIff.mp hKeeps)]
    · intro hDrops
      rcases hOld with ⟨⟨tag, hTag, hNot⟩, i, hValid⟩
      refine ⟨tag, i, old.frames i, ?_, ?_⟩
      · rw [← hRecorded, ← hContent₂]
        exact Or.inr ⟨hTag, hValid, rfl⟩
      · rintro ⟨ppn', hHas⟩
        exact hNot (((hContent₃ _ _ _).mp hHas).resolve_right
          (fun hWaits => hDrops (hIff.mpr hWaits.1))).stores

/- The invariant of runs that lose no page. -/
structure Inv (c : Config) (s : Session) : Prop where
  holds : Holds c s
  separate : ∀ m ∈ s.past, ∀ m' ∈ s.past, Separate m m'

theorem vpnOf_twoMb
    (address : Nat) :
    vpnOf .twoMb address = address / 2 ^ 21 := rfl

theorem allFound_of_inv
    (hInv : Inv c s) :
    AllFound c s := by
  have hTranslates := translates_iff hInv.holds.content
  intro m hMem
  have hSelf : Translates s.table m.address m.pageSize m.ppn :=
    (hTranslates _ _ _).mpr ⟨m, hMem, rfl, rfl, rfl⟩
  have hWalk :
      (initializeWalk c s.table m.address).translation =
        some (m.ppn, m.pageSize.bits) := by
    cases hSize : m.pageSize with
    | twoMb =>
        rw [hSize] at hSelf
        exact walk_of_twoMb hInv.holds.placed hSelf
    | fourKb =>
        rw [hSize] at hSelf
        apply walk_of_fourKb hInv.holds.placed hSelf
        intro ppn' hLarge
        rcases (hTranslates _ _ _).mp hLarge with
          ⟨m', hMem', hSize', hVpn, -⟩
        apply hInv.separate m hMem m' hMem'
        · rw [hSize, hSize']
          decide
        · rw [Mapped.vpn, hSize'] at hVpn
          exact hVpn.symm
  exact ⟨by rw [isPagefault_eq, hWalk]; rfl, hWalk⟩

theorem inv_start
    {sizes : PageSize → Nat}
    (hSizes : ∀ pageSize, 0 < sizes pageSize) :
    Inv c (start sizes) := by
  refine ⟨⟨rfl, fun pageSize =>
    placed_fresh (hSizes pageSize) 0, ?_⟩, ?_⟩
  · intro pageSize tag i ppn
    constructor
    · intro hHas
      exact absurd hHas (not_content_fresh _ _ _ _ _)
    · rintro ⟨m, hMem, -⟩
      cases hMem
  · intro m hMem
    cases hMem

theorem recorded_cons_of_ne
    {pageSize : PageSize}
    (hNe : pageSize ≠ m.pageSize)
    (past : List Mapped)
    (tag : Nat)
    (i : Fin 8)
    (ppn : Nat) :
    Recorded (m :: past) pageSize tag i ppn ↔
      Recorded past pageSize tag i ppn := by
  simp [Recorded, hNe.symm]

variable {s s' : Session}

/- The state after an update that drops nothing. -/
theorem holds_step
    (hHolds : Holds c s)
    (hFresh : m.key ∉ s.past.map Mapped.key)
    (hKeeps : KeepsDisplaced c fuel s.table m)
    (hStep : step c fuel s m = some s') :
    Holds c s' ∧ s'.past = m :: s.past := by
  rcases Option.map_eq_some_iff.mp hStep with
    ⟨t, hUpdate, hState⟩
  subst hState
  rcases update_spec hHolds hFresh hUpdate with
    ⟨n, hNests, hPlaced, hKept, -⟩
  rcases hKept hKeeps with ⟨hNil, hContent⟩
  refine ⟨⟨hNil, ?_, ?_⟩, rfl⟩
  · intro pageSize
    rw [hNests]
    by_cases hSize : pageSize = m.pageSize
    · subst hSize
      rw [Function.update_self]
      exact hPlaced
    · rw [Function.update_of_ne hSize]
      exact hHolds.placed pageSize
  · intro pageSize tag i ppn
    rw [hNests]
    by_cases hSize : pageSize = m.pageSize
    · subst hSize
      rw [Function.update_self]
      exact hContent tag i ppn
    · rw [Function.update_of_ne hSize, hHolds.content,
        recorded_cons_of_ne hSize]

theorem Separate.symm
    {m m' : Mapped}
    (hSeparate : Separate m m') :
    Separate m' m :=
  fun hNe hEq => hSeparate hNe.symm hEq.symm

theorem inv_step
    (hInv : Inv c s)
    (hFresh : m.key ∉ s.past.map Mapped.key)
    (hSafe : Safe c fuel s m)
    (hStep : step c fuel s m = some s') :
    Inv c s' := by
  rcases holds_step hInv.holds hFresh hSafe.2 hStep with
    ⟨hHolds, hPast⟩
  refine ⟨hHolds, ?_⟩
  rw [hPast]
  intro m₁ hMem₁ m₂ hMem₂
  rcases List.mem_cons.mp hMem₁ with hEq₁ | hOld₁
  · rcases List.mem_cons.mp hMem₂ with hEq₂ | hOld₂
    · rw [hEq₁, hEq₂]
      exact fun hNe => absurd rfl hNe
    · rw [hEq₁]
      exact hSafe.1 m₂ hOld₂
  · rcases List.mem_cons.mp hMem₂ with hEq₂ | hOld₂
    · rw [hEq₂]
      exact (hSafe.1 m₁ hOld₁).symm
    · exact hInv.separate m₁ hOld₁ m₂ hOld₂

/- An overlap hides the 4KB page behind the 2MB page. -/
theorem not_allFound_of_overlap
    (hHolds : Holds c s)
    {m m' : Mapped}
    (hMem : m ∈ s.past)
    (hMem' : m' ∈ s.past)
    (hOverlap : ¬ Separate m m') :
    ¬ AllFound c s := by
  intro hAll
  have hTranslates := translates_iff hHolds.content
  have hHidden : ∀ small large : Mapped,
      small ∈ s.past → large ∈ s.past →
        small.pageSize = .fourKb → large.pageSize = .twoMb →
          small.address / 2 ^ 21 = large.address / 2 ^ 21 →
            False := by
    intro small large hSmall hLarge hFour hTwo hRegion
    have hHas : Translates s.table small.address .twoMb
        large.ppn := by
      apply (hTranslates _ _ _).mpr
      refine ⟨large, hLarge, hTwo, ?_, rfl⟩
      rw [Mapped.vpn, hTwo, vpnOf_twoMb, vpnOf_twoMb, hRegion]
    have hWalk := walk_of_twoMb hHolds.placed hHas
    rw [(hAll small hSmall).2, hFour] at hWalk
    simp [PageSize.bits] at hWalk
  simp only [Separate, not_forall, not_not] at hOverlap
  rcases hOverlap with ⟨hNe, hRegion⟩
  cases hSize : m.pageSize with
  | fourKb =>
      cases hSize' : m'.pageSize with
      | fourKb => exact hNe (hSize.trans hSize'.symm)
      | twoMb =>
          exact hHidden m m' hMem hMem' hSize hSize' hRegion
  | twoMb =>
      cases hSize' : m'.pageSize with
      | fourKb =>
          exact hHidden m' m hMem' hMem hSize' hSize hRegion.symm
      | twoMb => exact hNe (hSize.trans hSize'.symm)

/- An unsafe update makes some page not found. -/
theorem not_allFound_step
    (hInv : Inv c s)
    (hFresh : m.key ∉ s.past.map Mapped.key)
    (hUnsafe : ¬ Safe c fuel s m)
    (hStep : step c fuel s m = some s') :
    ¬ AllFound c s' := by
  by_cases hKeeps : KeepsDisplaced c fuel s.table m
  · rcases holds_step hInv.holds hFresh hKeeps hStep with
      ⟨hHolds, hPast⟩
    have hOverlap : ∃ m' ∈ s.past, ¬ Separate m m' := by
      by_contra hNone
      push Not at hNone
      exact hUnsafe ⟨hNone, hKeeps⟩
    rcases hOverlap with ⟨m', hMem', hOverlap⟩
    exact not_allFound_of_overlap hHolds
      (by simp [hPast]) (by simp [hPast, hMem']) hOverlap
  · rcases Option.map_eq_some_iff.mp hStep with
      ⟨t, hUpdate, hState⟩
    subst hState
    rcases update_spec hInv.holds hFresh hUpdate with
      ⟨n, hNests, hPlaced, -, hDropped⟩
    rcases hDropped hKeeps with
      ⟨tag, i, ppn, ⟨lost, hMem, hSize, hVpn, hPpn⟩, hNone⟩
    intro hAll
    have hPlacedAll : ∀ pageSize, Placed c (t.nests pageSize) := by
      intro pageSize
      rw [hNests]
      by_cases hEq : pageSize = m.pageSize
      · subst hEq
        rw [Function.update_self]
        exact hPlaced
      · rw [Function.update_of_ne hEq]
        exact hInv.holds.placed pageSize
    have hHas := translates_of_walk hPlacedAll (hAll lost hMem).2
    apply hNone
    refine ⟨lost.ppn, ?_⟩
    have hVpn' : vpnOf lost.pageSize lost.address =
        tag * 8 + i.val := hVpn
    unfold Translates at hHas
    rw [hVpn', div_add, blockIndex_add, hSize, hNests,
      Function.update_self] at hHas
    exact hHas

/-
  In a completed run of updates of distinct pages, every page
  mapped so far is found after each update exactly when every
  update is safe.
-/
theorem allFound_run_iff
    (c : Config)
    (fuel : Nat)
    (sizes : PageSize → Nat)
    (hSizes : ∀ pageSize, 0 < sizes pageSize)
    (ms : List Mapped)
    (hDistinct : (ms.map Mapped.key).Nodup)
    (s : Session)
    (hRun : Run.run (step c fuel) (start sizes) ms = some s) :
    (∀ front, front <+: ms →
      ∀ s', Run.run (step c fuel) (start sizes) front = some s' →
        AllFound c s') ↔
      Run.Along (step c fuel) (Safe c fuel) (start sizes) ms := by
  have hFresh : Run.Along (step c fuel)
      (fun s m => m.key ∉ s.past.map Mapped.key)
      (start sizes) ms := by
    refine Run.along_fresh Mapped.key
      (fun s : Session => s.past.map Mapped.key) ?_
      hDistinct ?_
    · intro s m s' hStep k hMem
      rcases Option.map_eq_some_iff.mp hStep with
        ⟨t, -, hState⟩
      subst hState
      simpa using hMem
    · intro m _ hMem
      cases hMem
  symm
  exact Run.along_iff_of_run
    (fun s hInv => allFound_of_inv hInv)
    (fun s m s' hInv hNew hSafe hStep =>
      inv_step hInv hNew hSafe hStep)
    (fun s m s' hInv hNew hUnsafe hStep =>
      not_allFound_step hInv hNew hUnsafe hStep)
    (inv_start hSizes) hFresh hRun

/- Two ways that grow as soon as they are half full. -/
def halfFull : Config where
  ways := 2
  permutation := [1, 0]
  isPermutation := by decide
  ways_pos := by decide
  cityHash64 := fun key => key * 5 + 1
  overloaded := fun numItems size => decide (size < 2 * numItems)
  grow := fun size => size * 2
  grow_pos := by omega
  tablePpns := fun _ way => way

/- Two pages of one block have been mapped. -/
def threePages : List Mapped :=
  [⟨0, 10, .fourKb⟩, ⟨0x8000, 11, .fourKb⟩,
    ⟨0x400000, 512, .twoMb⟩, ⟨0x10000, 12, .fourKb⟩]

theorem allFound_run_threePages :
    ∃ s, Run.run (step halfFull 4) (start (fun _ => 2))
        threePages = some s ∧
      AllFound halfFull s := by
  have hRun : (Run.run (step halfFull 4) (start (fun _ => 2))
      threePages).isSome = true := by
    decide +kernel
  rcases Option.isSome_iff_exists.mp hRun with ⟨s, hRun⟩
  refine ⟨s, hRun, ?_⟩
  exact (allFound_run_iff halfFull 4 (fun _ => 2)
    (by simp) threePages (by decide) s hRun).mpr
      (by decide +kernel) threePages (List.prefix_refl _) s
      hRun

/- One way, with two tags that collide until a size of 4. -/
def oneWay : Config where
  ways := 1
  permutation := [0]
  isPermutation := by decide
  ways_pos := by decide
  cityHash64 := fun key => if key = 1 then 3 else 0
  overloaded := fun _ _ => false
  grow := fun size => size * 3 / 2
  grow_pos := by omega
  tablePpns := fun _ way => way

/-
  The third page collides with the first one. The rehash to
  the next size fails while it migrates the tables and
  forgets the page that waits.
-/
theorem allFound_run_forgotten :
    ∃ s, Run.run (step oneWay 5) (start (fun _ => 2))
        [⟨0, 10, .fourKb⟩, ⟨0x8000, 11, .fourKb⟩,
          ⟨0x10000, 12, .fourKb⟩] = some s ∧
      ¬ AllFound oneWay s := by
  have hRun : ∃ s ∈ Run.run (step oneWay 5)
      (start (fun _ => 2))
      [⟨0, 10, .fourKb⟩, ⟨0x8000, 11, .fourKb⟩,
        ⟨0x10000, 12, .fourKb⟩],
      ¬ AllFound oneWay s := by
    decide +kernel
  exact hRun

end Cuckoo

end Virtuoso
