import Virtuoso.PageTable.PageMap
import Virtuoso.Tlb.Fills

/-
  Nested translation, from `mmu_virt.cc`.

  After a miss in the TLBs, the page table of the guest is
  walked for the virtual address, and the one of the host for
  the guest physical address. Both offsets are taken under the
  page size 4KB, whatever the pages are, and the translation
  is cached as one of a 4KB page.

  `composed` is the translation that both mappings stand for.
  A walk that faults ends with the frame that the handler maps
  the page to, if the fault is handled in the simulator. The
  lookups are made without a page table, so nothing is
  prefetched.

  Main declarations:
    * `VirtMmu.walked_eq_composed_iff`
    * `VirtMmu.composes_run_iff`
-/

------------------------------------------------------------
-- Composed Mappings
------------------------------------------------------------

namespace Virtuoso

namespace VirtMmu

open Mmu (tlbAt searchLevels fillOf Request Each Fill)

variable {σ : Type}

/-
  A page table and the frames that its faulting walks end
  with; there are none when faults are returned.
-/
structure Level where
  map : PageMap
  handled : Nat → Option Nat

/- The PPN of a walk, after the fault was handled. -/
def Level.walk
    (l : Level)
    (address : BitVec 64) : Option Nat :=
  match l.map.lookup address.toNat with
  | some page => some page.1
  | none => l.handled (address.toNat / 4096)

/- The frame, with the offset in the page. -/
def physicalAddress
    (ppn pageSize : Nat)
    (address : BitVec 64) : BitVec 64 :=
  BitVec.ofNat 64 (ppn * 4096 + address.toNat % 2 ^ pageSize)

/- The walks of both page tables; `page_size` is still 12. -/
def nestedWalk
    (guest host : Level)
    (address : BitVec 64) : Option Nat :=
  (guest.walk address).bind (fun gppn =>
    host.walk (physicalAddress gppn 12 address))

/- An access of the guest. -/
structure Access where
  address : BitVec 64
  instruction : Bool
  now : Nat

/- The request, with the walk of both tables. -/
def Access.request
    (guest host : Level)
    (a : Access) : Request :=
  ⟨a.address, a.instruction, a.now, fun _ _ _ => 0,
    fun _ _ => [],
    (nestedWalk guest host a.address).map (fun ppn => (ppn, 12))⟩

/- `performAddressTranslation`; no address stands for -1. -/
def performAddressTranslation
    (guest host : Level)
    (prefetchEnabled : Bool)
    (h : TlbSubsystem σ)
    (a : Access) :
    Option (Option (BitVec 64) × TlbSubsystem σ) :=
  let r := a.request guest host
  (searchLevels r (List.range h.length) ⟨h, []⟩).bind
    (fun out =>
      match fillOf r out.1 with
      | none => some (none, out.2.tlbs)
      | some f =>
          (MmuDesign.virt.allocateLevels r f
            (List.range (MmuDesign.virt.tlbLevels
              prefetchEnabled h.length)) [] out.2.tlbs).map
            (fun filled =>
              (some (physicalAddress f.ppn f.pageSize
                a.address), filled.2)))

/- The hierarchy after a translation. -/
def step
    (guest host : Level)
    (prefetchEnabled : Bool)
    (h : TlbSubsystem σ)
    (a : Access) : Option (TlbSubsystem σ) :=
  (performAddressTranslation guest host prefetchEnabled h
    a).map Prod.snd

/- The address that a mapping translates an address to. -/
def Level.translate
    (l : Level)
    (address : BitVec 64) : Option (BitVec 64) :=
  (l.map.lookup address.toNat).map (fun page =>
    physicalAddress page.1 page.2 address)

/- The translation by the guest and then by the host. -/
def composed
    (guest host : Level)
    (address : BitVec 64) : Option (BitVec 64) :=
  (guest.translate address).bind host.translate

/- The block translates the addresses of its page. -/
def BlockRight (guest host : Level) (b : TlbBlock) : Prop :=
  ∀ address, b.tag = Tlb.tagOf address b.pageSize →
    ∀ p ∈ composed guest host address,
      physicalAddress b.ppn b.pageSize address = p

/- The translation is right, and so are all entries then. -/
def Translates
    (guest host : Level)
    (prefetchEnabled : Bool)
    (h : TlbSubsystem σ)
    (a : Access) : Prop :=
  ∃ h', performAddressTranslation guest host prefetchEnabled h
      a = some (composed guest host a.address, h') ∧
    ∀ i j t, tlbAt h' i j = some t →
      ∀ set way b, t.blockAt set way = some b →
        b.isValid = true → BlockRight guest host b

/- The frame of the 4KB page that backs the address. -/
def backing
    (guest host : Level)
    (address : BitVec 64) : Option Nat :=
  (guest.map.lookup address.toNat).bind (fun g =>
    let gpa := (physicalAddress g.1 g.2 address).toNat
    (host.map.lookup gpa).map (fun p =>
      p.1 + gpa % 2 ^ p.2 / 4096))

/-
  The address is in the first 4KB of its guest page and of its
  host page. Further behind in a guest page, the host gives
  the start of the guest page the frame of the address.
-/
def Composes
    (guest host : Level)
    (address : BitVec 64) : Prop :=
  ∀ g ∈ guest.map.lookup address.toNat,
    let gpa := (physicalAddress g.1 g.2 address).toNat
    ∀ p ∈ host.map.lookup gpa,
      if address.toNat % 2 ^ g.2 < 4096 then
        gpa % 2 ^ p.2 < 4096
      else
        ∃ ppn ∈ host.walk (physicalAddress g.1 12 address),
          ppn % 2 ^ 52 = (p.1 + gpa % 2 ^ p.2 / 4096) % 2 ^ 52

variable {guest host : Level} {address : BitVec 64}

theorem lookup_bits
    {m : PageMap}
    {x : Nat}
    {page : Nat × Nat}
    (hLookup : m.lookup x = some page) :
    page.2 = 12 ∨ page.2 = 21 := by
  unfold PageMap.lookup at hLookup
  split at hLookup
  · rw [Option.some.injEq] at hLookup
    rw [← hLookup]
    exact Or.inr rfl
  · rcases Option.map_eq_some_iff.mp hLookup with
      ⟨ppn, -, hPage⟩
    rw [← hPage]
    exact Or.inl rfl

/- A mapping has one page for the addresses of 4KB. -/
theorem lookup_congr
    (m : PageMap)
    {x y : Nat}
    (hSame : x / 4096 = y / 4096) :
    m.lookup x = m.lookup y := by
  have hLarge : PageSize.twoMb.vpn x = PageSize.twoMb.vpn y := by
    simp only [PageSize.vpn, PageSize.bits]
    omega
  have hSmall : PageSize.fourKb.vpn x = PageSize.fourKb.vpn y := by
    simp only [PageSize.vpn, PageSize.bits]
    omega
  unfold PageMap.lookup
  rw [hLarge, hSmall]

variable {x y : BitVec 64}

theorem walk_congr
    (l : Level)
    (hSame : x.toNat / 4096 = y.toNat / 4096) :
    l.walk x = l.walk y := by
  unfold Level.walk
  rw [lookup_congr l.map hSame, hSame]

theorem toNat_physicalAddress
    (ppn pageSize : Nat)
    (address : BitVec 64) :
    (physicalAddress ppn pageSize address).toNat =
      (ppn * 4096 + address.toNat % 2 ^ pageSize) % 2 ^ 64 :=
  BitVec.toNat_ofNat _ _

/- Addresses in 4KB pages agree exactly if the frames do. -/
theorem physicalAddress_eq_iff
    (ppn ppn' : Nat)
    (address : BitVec 64) :
    physicalAddress ppn 12 address =
        physicalAddress ppn' 12 address ↔
      ppn % 2 ^ 52 = ppn' % 2 ^ 52 := by
  rw [← BitVec.toNat_inj, toNat_physicalAddress,
    toNat_physicalAddress]
  omega

/- The offset of an address in a page is kept. -/
theorem mod_physicalAddress
    {pageSize : Nat}
    (hSize : pageSize = 12 ∨ pageSize = 21)
    (ppn : Nat)
    (address : BitVec 64) :
    (physicalAddress ppn pageSize address).toNat % 4096 =
      address.toNat % 4096 := by
  rw [toNat_physicalAddress]
  rcases hSize with hSmall | hLarge
  · rw [hSmall]
    omega
  · rw [hLarge]
    omega

/- The page that an address of a page is translated to. -/
theorem div_physicalAddress
    {pageSize : Nat}
    (hSize : pageSize = 12 ∨ pageSize = 21)
    (ppn : Nat)
    (address : BitVec 64) :
    (physicalAddress ppn pageSize address).toNat / 4096 =
      (ppn + address.toNat / 4096 %
        2 ^ (pageSize - 12)) % 2 ^ 52 := by
  rw [toNat_physicalAddress]
  rcases hSize with hSmall | hLarge
  · rw [hSmall]
    omega
  · rw [hLarge]
    omega

theorem nestedWalk_congr
    (guest host : Level)
    (hSame : x.toNat / 4096 = y.toNat / 4096) :
    nestedWalk guest host x = nestedWalk guest host y := by
  unfold nestedWalk
  rw [walk_congr guest hSame]
  congr 1
  funext gppn
  apply walk_congr
  rw [div_physicalAddress (Or.inl rfl),
    div_physicalAddress (Or.inl rfl), hSame]

theorem backing_congr
    (guest host : Level)
    (hSame : x.toNat / 4096 = y.toNat / 4096) :
    backing guest host x = backing guest host y := by
  unfold backing
  rw [lookup_congr guest.map hSame]
  cases hGuest : guest.map.lookup y.toNat with
  | none => rfl
  | some g =>
      have hSize := lookup_bits hGuest
      have hPage : (physicalAddress g.1 g.2 x).toNat / 4096 =
          (physicalAddress g.1 g.2 y).toNat / 4096 := by
        rw [div_physicalAddress hSize,
          div_physicalAddress hSize, hSame]
      simp only [Option.bind_some]
      rw [lookup_congr host.map hPage]
      cases hHost : host.map.lookup
          (physicalAddress g.1 g.2 y).toNat with
      | none => rfl
      | some p =>
          simp only [Option.map_some, Option.some.injEq,
            Nat.add_left_cancel_iff]
          rcases lookup_bits hHost with hSmall | hLarge
          · rw [hSmall]
            omega
          · rw [hLarge]
            omega

/- The 4KB page of an address in a page. -/
theorem physicalAddress_frame
    {pageSize : Nat}
    (hSize : pageSize = 12 ∨ pageSize = 21)
    (ppn : Nat)
    {gpa address : BitVec 64}
    (hMod : gpa.toNat % 4096 = address.toNat % 4096) :
    physicalAddress ppn pageSize gpa =
      physicalAddress (ppn + gpa.toNat % 2 ^ pageSize / 4096)
        12 address := by
  rw [← BitVec.toNat_inj, toNat_physicalAddress,
    toNat_physicalAddress]
  rcases hSize with hSmall | hLarge
  · rw [hSmall]
    omega
  · rw [hLarge]
    omega

/- The composed translation is the one to the backing frame. -/
theorem composed_eq_backing
    (guest host : Level)
    (address : BitVec 64) :
    composed guest host address =
      (backing guest host address).map (fun ppn =>
        physicalAddress ppn 12 address) := by
  unfold composed backing Level.translate
  cases hGuest : guest.map.lookup address.toNat with
  | none => rfl
  | some g =>
      simp only [Option.map_some, Option.bind_some]
      cases hHost : host.map.lookup
          (physicalAddress g.1 g.2 address).toNat with
      | none => rfl
      | some p =>
          simp only [Option.map_some]
          exact congrArg some (physicalAddress_frame
            (lookup_bits hHost) p.1
            (mod_physicalAddress (lookup_bits hGuest) g.1 address))

/- The address that the nested walk is for. -/
def walked
    (guest host : Level)
    (address : BitVec 64) : Option (BitVec 64) :=
  (nestedWalk guest host address).map (fun ppn =>
    physicalAddress ppn 12 address)

/- When the nested walk composes both mappings. -/
theorem walked_eq_composed_iff
    (hMapped : (composed guest host address).isSome) :
    walked guest host address = composed guest host address ↔
      Composes guest host address := by
  rw [composed_eq_backing] at hMapped ⊢
  rw [Option.isSome_map] at hMapped
  rcases Option.isSome_iff_exists.mp hMapped with
    ⟨frame, hBacking⟩
  rcases Option.bind_eq_some_iff.mp hBacking with
    ⟨g, hGuest, hRest⟩
  rcases Option.map_eq_some_iff.mp hRest with
    ⟨p, hHost, hFrame⟩
  have hWalk : guest.walk address = some g.1 := by
    rw [Level.walk, hGuest]
  rw [hBacking, walked, nestedWalk, hWalk, Option.bind_some,
    Option.map_some, Option.map_eq_some_iff]
  simp only [physicalAddress_eq_iff, ← hFrame]
  simp only [Composes, hGuest, hHost, Option.mem_def,
    Option.some.injEq, forall_eq']
  split_ifs with hFirst
  · have hSame : physicalAddress g.1 12 address =
        physicalAddress g.1 g.2 address := by
      unfold physicalAddress
      congr 2
      rcases lookup_bits hGuest with hSmall | hLarge
      · rw [hSmall]
      · rw [hLarge] at hFirst ⊢
        omega
    have hFound : host.walk
        (physicalAddress g.1 12 address) = some p.1 := by
      rw [Level.walk, hSame, hHost]
    rw [hFound]
    simp only [Option.some.injEq, exists_eq_left']
    rcases lookup_bits hHost with hSmall | hLarge
    · rw [hSmall]
      omega
    · rw [hLarge]
      omega
  · exact Iff.rfl

------------------------------------------------------------
-- Translations
------------------------------------------------------------

variable {ok : Nat → σ → Prop} {h h' : TlbSubsystem σ}
variable {prefetchEnabled : Bool} {a : Access}
variable {accesses : List Access}

/- A block was walked for the 4KB page of one of the accesses. -/
structure WalkedFor
    (guest host : Level)
    (accesses : List Access)
    (b : TlbBlock) : Prop where
  pageSize : b.pageSize = 12
  access : ∃ a ∈ accesses, b.tag = Tlb.tagOf a.address 12 ∧
    nestedWalk guest host a.address = some b.ppn

theorem page_of_tagOf
    (hTag : Tlb.tagOf x 12 = Tlb.tagOf y 12) :
    x.toNat / 4096 = y.toNat / 4096 := by
  have hNat := congrArg BitVec.toNat hTag
  rw [Tlb.tagOf, Tlb.tagOf, BitVec.toNat_ushiftRight,
    BitVec.toNat_ushiftRight, Nat.shiftRight_eq_div_pow,
    Nat.shiftRight_eq_div_pow] at hNat
  exact hNat

/- A block that was walked for has the frame of the walk. -/
theorem WalkedFor.walk
    {b : TlbBlock}
    (hWalked : WalkedFor guest host accesses b)
    (hTag : b.tag = Tlb.tagOf address b.pageSize) :
    nestedWalk guest host address = some b.ppn := by
  rcases hWalked.access with ⟨a, -, hOwn, hWalk⟩
  rw [hWalked.pageSize] at hTag
  rw [← hWalk]
  exact nestedWalk_congr guest host
    (page_of_tagOf (hTag.symm.trans hOwn))

/- A translation has the address that the nested walk is for. -/
theorem performAddressTranslation_spec
    (guest host : Level)
    (prefetchEnabled : Bool)
    (hEach : Each (Tlb.Contents ok
      (WalkedFor guest host accesses)) h)
    (hMem : a ∈ accesses) :
    ∃ h', performAddressTranslation guest host prefetchEnabled
        h a = some (walked guest host a.address, h') ∧
      Each (Tlb.Contents ok
        (WalkedFor guest host accesses)) h' := by
  have hEach' : Each (Tlb.Contents ok
      (WalkedFor guest host accesses))
        (⟨h, []⟩ : Mmu.Session σ).tlbs := hEach
  rcases Mmu.searchLevels_contents (r := a.request guest host)
      (fun _ _ => rfl) (List.range h.length) hEach' with
    ⟨found, s', hSearch, hAfter, -, -, hSome⟩
  have hFill : ∀ f : Fill,
      fillOf (a.request guest host) found = some f →
        f.address = a.address ∧ f.pageSize = 12 ∧
          nestedWalk guest host a.address = some f.ppn := by
    intro f hFillOf
    cases hFound : found with
    | none =>
        rw [hFound] at hFillOf
        rcases Option.map_eq_some_iff.mp hFillOf with
          ⟨w, hWalk, hEq⟩
        rcases Option.map_eq_some_iff.mp hWalk with
          ⟨ppn, hNested, hPair⟩
        rw [← hEq, ← hPair]
        exact ⟨rfl, rfl, hNested⟩
    | some found' =>
        rcases hSome found' hFound with ⟨index, hPlace⟩
        rcases Option.bind_eq_some_iff.mp hPlace with
          ⟨t, hAt, hBlock⟩
        unfold Mmu.blockFor at hBlock
        split_ifs at hBlock
        rcases (hEach _ _ t hAt).hit hBlock with
          ⟨hWalked, hTag⟩
        rw [hFound] at hFillOf
        rw [← Option.some.inj hFillOf]
        exact ⟨rfl, hWalked.pageSize, hWalked.walk hTag⟩
  cases hCase : fillOf (a.request guest host) found with
  | none =>
      have hNone : nestedWalk guest host a.address = none := by
        cases hFound : found with
        | some _ =>
            rw [hFound] at hCase
            cases hCase
        | none =>
            rw [hFound] at hCase
            exact Option.map_eq_none_iff.mp
              (Option.map_eq_none_iff.mp hCase)
      refine ⟨s'.tlbs, ?_, hAfter⟩
      simp only [performAddressTranslation, hSearch,
        Option.bind_some, hCase, walked, hNone,
        Option.map_none]
  | some f =>
      rcases hFill f hCase with ⟨hAddress, hSize, hWalk⟩
      have hBlock : WalkedFor guest host accesses f.block := by
        refine ⟨hSize, a, hMem, ?_, hWalk⟩
        rw [Fill.block, hAddress, hSize]
      rcases MmuDesign.allocateLevels_fills .virt
          (a.request guest host)
          (List.range (MmuDesign.virt.tlbLevels
            prefetchEnabled h.length)) hAfter hBlock
          (fun _ hVictim => absurd hVictim List.not_mem_nil)
        with ⟨out, h', hCall, hFills⟩
      refine ⟨h', ?_, hFills.each⟩
      simp only [performAddressTranslation, hSearch,
        Option.bind_some, hCase, hCall, Option.map_some,
        walked, hWalk, hSize]

/- Blocks that were walked for composed pages are right. -/
theorem blockRight_of_walkedFor
    {b : TlbBlock}
    (hMapped : ∀ a ∈ accesses,
      (composed guest host a.address).isSome)
    (hComposes : ∀ a ∈ accesses, Composes guest host a.address)
    (hWalked : WalkedFor guest host accesses b) :
    BlockRight guest host b := by
  intro x hTag p hComposed
  rcases hWalked.access with ⟨a, hMem, hOwn, hWalk⟩
  have hRight := (walked_eq_composed_iff
    (hMapped a hMem)).mpr (hComposes a hMem)
  rw [hWalked.pageSize] at hTag ⊢
  have hPage := page_of_tagOf (hTag.symm.trans hOwn)
  rw [Option.mem_def, composed_eq_backing,
    backing_congr guest host hPage] at hComposed
  rcases Option.map_eq_some_iff.mp hComposed with
    ⟨frame, hBacking, hEq⟩
  rw [walked, hWalk, composed_eq_backing, hBacking,
    Option.map_some, Option.map_some, Option.some.injEq,
    physicalAddress_eq_iff] at hRight
  rw [← hEq, physicalAddress_eq_iff]
  exact hRight

/- The TLBs hold what was walked for the accesses. -/
abbrev Holds
    (ok : Nat → σ → Prop)
    (guest host : Level)
    (accesses : List Access)
    (h : TlbSubsystem σ) : Prop :=
  Each (Tlb.Contents ok (WalkedFor guest host accesses)) h

/- A step among the accesses. -/
theorem step_spec
    (guest host : Level)
    (prefetchEnabled : Bool)
    (hHolds : Holds ok guest host accesses h)
    (hMem : a ∈ accesses) :
    ∃ h', performAddressTranslation guest host prefetchEnabled
        h a = some (walked guest host a.address, h') ∧
      step guest host prefetchEnabled h a = some h' ∧
        Holds ok guest host accesses h' := by
  rcases performAddressTranslation_spec guest host
      prefetchEnabled hHolds hMem with ⟨h', hCall, hAfter⟩
  refine ⟨h', hCall, ?_, hAfter⟩
  rw [step, hCall]
  rfl

theorem translates_of_composes
    (prefetchEnabled : Bool)
    (hMapped : ∀ a ∈ accesses,
      (composed guest host a.address).isSome)
    (hComposes : ∀ a ∈ accesses, Composes guest host a.address)
    {later : List Access}
    (hSub : ∀ a ∈ later, a ∈ accesses)
    (hHolds : Holds ok guest host accesses h) :
    Run.Along (step guest host prefetchEnabled)
      (Translates guest host prefetchEnabled) h later := by
  induction later generalizing h with
  | nil => trivial
  | cons a later ih =>
      have hMem := hSub a List.mem_cons_self
      rcases step_spec guest host prefetchEnabled hHolds hMem
        with ⟨h', hCall, hStep, hAfter⟩
      refine ⟨⟨h', ?_, ?_⟩, fun next hNext => ?_⟩
      · rw [hCall, (walked_eq_composed_iff
          (hMapped a hMem)).mpr (hComposes a hMem)]
      · intro i j t hAt set way b hBlock hValid
        have hContents := hAfter i j t hAt
        have hShared := hContents.placed.shared set way b
          hBlock hValid
        exact blockRight_of_walkedFor hMapped hComposes
          (hContents.held set way b hBlock hShared)
      · rw [hStep, Option.some.injEq] at hNext
        rw [← hNext]
        exact ih (fun b hIn => hSub b
          (List.mem_cons_of_mem _ hIn)) hAfter

theorem composes_of_translates
    (hMapped : ∀ a ∈ accesses,
      (composed guest host a.address).isSome)
    {later : List Access}
    (hSub : ∀ a ∈ later, a ∈ accesses)
    (hHolds : Holds ok guest host accesses h)
    (hAlong : Run.Along (step guest host prefetchEnabled)
      (Translates guest host prefetchEnabled) h later) :
    ∀ a ∈ later, Composes guest host a.address := by
  induction later generalizing h with
  | nil => exact fun _ hMem => absurd hMem List.not_mem_nil
  | cons a later ih =>
      have hMem := hSub a List.mem_cons_self
      rcases step_spec guest host prefetchEnabled hHolds hMem
        with ⟨h', hCall, hStep, hAfter⟩
      rcases hAlong with ⟨⟨next, hRight, -⟩, hLater⟩
      intro b hIn
      rcases List.mem_cons.mp hIn with hHere | hTail
      · rw [hHere]
        rw [hCall, Option.some.injEq, Prod.mk.injEq] at hRight
        exact (walked_eq_composed_iff (hMapped a hMem)).mp hRight.1
      · exact ih (fun b hIn => hSub b
          (List.mem_cons_of_mem _ hIn)) hAfter
          (hLater h' hStep) b hTail

/-
  In a run from new TLBs, all translations and entries are
  right exactly if the pages of all accesses compose.
-/
theorem composes_run_iff
    (prefetchEnabled : Bool)
    (hNew : ∀ i j t, tlbAt h i j = some t →
      ∃ config policy replacement,
        policy.Selects ok ∧
          ok config.associativity replacement ∧
            Tlb.construct config policy replacement = some t)
    (hMapped : ∀ a ∈ accesses,
      (composed guest host a.address).isSome) :
    Run.Along (step guest host prefetchEnabled)
        (Translates guest host prefetchEnabled) h accesses ↔
      ∀ a ∈ accesses, Composes guest host a.address := by
  have hStart : Holds ok guest host accesses h := by
    intro i j t hAt
    rcases hNew i j t hAt with
      ⟨config, policy, replacement, hSelects, hState, hConstruct⟩
    exact Tlb.contents_construct hConstruct hSelects hState _
  exact ⟨composes_of_translates hMapped (fun _ hMem => hMem) hStart,
    fun hComposes => translates_of_composes prefetchEnabled
      hMapped hComposes (fun _ hMem => hMem) hStart⟩

/- The guest maps the page 5 to the page 7. -/
def smallGuest : Level :=
  ⟨PageMap.empty.set .fourKb 5 (some 7), fun _ => none⟩

/- The guest maps the second 2MB to the third. -/
def largeGuest : Level :=
  ⟨PageMap.empty.set .twoMb 1 (some 1024), fun _ => none⟩

/- The host maps all pages of 4KB to later frames. -/
def shiftedHost : Level :=
  ⟨fun pageSize vpn =>
    if pageSize = .fourKb then some (vpn + 9) else none,
    fun _ => none⟩

theorem translates_run_small :
    ∃ t ∈ Tlb.construct ⟨4, 4, [12], .data, true, false, 0⟩
        Replacement.lru (Replacement.lruInit 1 4),
      Run.Along (step smallGuest shiftedHost false)
        (Translates smallGuest shiftedHost false) [[t]]
        [⟨0x5123, false, 0⟩, ⟨0x5456, false, 1⟩] := by
  have hNew : ∃ t ∈ Tlb.construct
        ⟨4, 4, [12], .data, true, false, 0⟩
        Replacement.lru (Replacement.lruInit 1 4),
      t.queue = [] := by
    decide +kernel
  rcases hNew with ⟨t, hConstruct, -⟩
  have hTables : ∀ a ∈ ([⟨0x5123, false, 0⟩,
        ⟨0x5456, false, 1⟩] : List Access),
      (composed smallGuest shiftedHost a.address).isSome ∧
        smallGuest.map.lookup a.address.toNat = some (7, 12) ∧
          a.address.toNat % 4096 < 4096 := by
    decide +kernel
  have hTlbs : ∀ i j t', tlbAt [[t]] i j = some t' →
      ∃ config policy replacement,
        policy.Selects Replacement.LruReady ∧
          Replacement.LruReady config.associativity replacement ∧
            Tlb.construct config policy replacement = some t' := by
    intro i j t' hAt
    have hSame : t' = t := by
      match i, j with
      | 0, 0 => exact (Option.some.inj hAt).symm
      | 0, _ + 1 => cases hAt
      | _ + 1, _ => cases hAt
    rw [hSame]
    exact ⟨_, _, _, Replacement.lru_selects,
      Replacement.lruInit_ready 1 4, hConstruct⟩
  refine ⟨t, hConstruct, (composes_run_iff false hTlbs
    (fun a hMem => (hTables a hMem).1)).mpr ?_⟩
  intro a hMem g hGuest gpa p hHost
  rw [(hTables a hMem).2.1] at hGuest
  rw [← Option.some.inj hGuest]
  have hSmall : p.2 = 12 := by
    simp only [shiftedHost, PageMap.lookup] at hHost
    rw [← Option.some.inj hHost]
    rfl
  rw [hSmall]
  exact (if_pos (Nat.mod_lt _ (by decide))).mpr
    (Nat.mod_lt _ (by decide))

/-
  In a guest page of 2MB, the address 203123h is translated
  like the address 200123h.
-/
theorem not_translates_large :
    ∃ t ∈ Tlb.construct ⟨4, 4, [12], .data, true, false, 0⟩
        Replacement.lru (Replacement.lruInit 1 4),
      composed largeGuest shiftedHost 0x203123 = some 0x40c123 ∧
        ¬ Run.Along (step largeGuest shiftedHost false)
          (Translates largeGuest shiftedHost false) [[t]]
          [⟨0x203123, false, 0⟩] := by
  have hRuns : ∃ t ∈ Tlb.construct
        ⟨4, 4, [12], .data, true, false, 0⟩
        Replacement.lru (Replacement.lruInit 1 4),
      composed largeGuest shiftedHost 0x203123 = some 0x40c123 ∧
        (performAddressTranslation largeGuest shiftedHost
          false [[t]] ⟨0x203123, false, 0⟩).map Prod.fst =
            some (some 0x409123) := by
    decide +kernel
  rcases hRuns with ⟨t, hConstruct, hComposed, hCall⟩
  refine ⟨t, hConstruct, hComposed, ?_⟩
  rintro ⟨⟨h', hRight, -⟩, -⟩
  rw [hRight, Option.map_some, hComposed] at hCall
  have hSame : (some 0x40c123 : Option (BitVec 64)) =
      some 0x409123 := Option.some.inj hCall
  exact absurd hSame (by decide)

end VirtMmu

end Virtuoso
