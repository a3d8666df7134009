import Virtuoso.Buddy.Runs
import Virtuoso.Lib.Bump
import Virtuoso.PageTable.Basic
import Virtuoso.PhysicalMemory.Basic
import Virtuoso.Utopia.Allocator.Basic
import Virtuoso.Utopia.RestSeg.Runs

/-
  The physical layout of `utopia.h`.

  The constructor takes the memory of each segment, and the
  tag and fingerprint arrays of every core, from the kernel's
  pointer. The base of a segment is rounded up to its page
  size, while the pointer moves by the size alone, and the
  address of an array is rounded down to a page. The size of
  an array is requested modulo 2^32, and all of its sets are
  addressed. Radix nodes and page-table frames follow in the
  same way.

  The regions are disjoint exactly if what is rounded away is
  covered by bytes that are reserved and not used.

  Main declarations:
    * `Utopia.laidApart_layout_iff`
-/

------------------------------------------------------------
-- Regions As Placements
------------------------------------------------------------

namespace Virtuoso

namespace Utopia

/- The configuration of a segment, without its base. -/
structure RestSegParams where
  sizeMb : Nat
  pageSize : PageSize
  assoc : Nat
deriving DecidableEq

namespace RestSegParams

/- The member `num_sets`. -/
def numSets (c : RestSegParams) : Nat :=
  RestSeg.numSetsOf c.sizeMb c.pageSize.bits c.assoc

/- The member `size_bytes`. -/
def sizeBytes (c : RestSegParams) : Nat :=
  c.sizeMb * 2 ^ 20 % 2 ^ 64

/-
  The member `tag_entry_bytes`. The logarithm is rounded in
  double precision, which is exact for 32-bit numbers.
-/
def tagEntryBytes (c : RestSegParams) : Nat :=
  max 1 ((48 - c.pageSize.bits - Nat.clog 2 c.numSets) / 8)

/-
  `RestSeg::getTagArraySize`, a product of 32-bit numbers
  that is requested from the kernel.
-/
def getTagArraySize (c : RestSegParams) : Nat :=
  c.numSets * c.assoc * c.tagEntryBytes % 2 ^ 32

/- `RestSeg::getFingerprintArraySize`, in 32 bits as well. -/
def getFingerprintArraySize (c : RestSegParams) : Nat :=
  c.numSets * c.assoc * 1 % 2 ^ 32

/-
  The bytes of the tags of all sets, which
  `calculateTagAddress` addresses from the base on.
-/
def tagBytes (c : RestSegParams) : Nat :=
  c.numSets * c.assoc * c.tagEntryBytes

/-
  The bytes of the fingerprints of all sets, which
  `calculateFingerprintAddress` addresses.
-/
def fingerprintBytes (c : RestSegParams) : Nat :=
  c.numSets * c.assoc * 1

/- The requests of one core, of the sizes in 32 bits. -/
def arrayRequests (c : RestSegParams) : List Bump.Request :=
  [⟨c.getTagArraySize, c.tagBytes, 1⟩,
    ⟨c.getFingerprintArraySize, c.fingerprintBytes, 1⟩]

end RestSegParams

/- A segment and the array addresses of each core. -/
structure Placed where
  restSeg : RestSeg
  metadata : List (Nat × Nat)

/- A page number rounded up to the page size. -/
def alignedBasePpn
    (size : PageSize)
    (basePpn : Nat) : Nat :=
  (basePpn + size.pages - 1) / size.pages * size.pages

/- The arrays of the cores, tags before fingerprints. -/
def placeMetadata
    (tagSize fpSize : Nat) :
    Nat → PhysicalMemoryAllocator →
      List (Nat × Nat) × PhysicalMemoryAllocator
| 0, m => ([], m)
| cores + 1, m =>
    let tag := m.handlePageTableAllocations tagSize
    let fp := tag.2.handlePageTableAllocations fpSize
    let rest := placeMetadata tagSize fpSize cores fp.2
    ((tag.1 * 4096, fp.1 * 4096) :: rest.1, rest.2)

/- The body of the loop of the constructor. -/
def placeRestSeg
    (numCores fingerprintBits : Nat)
    (c : RestSegParams)
    (m : PhysicalMemoryAllocator) :
    Option (Placed × PhysicalMemoryAllocator) :=
  let base := m.handlePageTableAllocations c.sizeBytes
  let metadata := placeMetadata c.getTagArraySize
    c.getFingerprintArraySize numCores base.2
  (RestSeg.construct c.sizeMb c.pageSize.bits c.assoc
    (alignedBasePpn c.pageSize base.1) fingerprintBits).map
    (fun r => (⟨r, metadata.1⟩, metadata.2))

/- The loop of `UtopiaAllocator::UtopiaAllocator`. -/
def placeRestSegs
    (numCores fingerprintBits : Nat) :
    List RestSegParams → PhysicalMemoryAllocator →
      Option (List Placed × PhysicalMemoryAllocator)
| [], m => some ([], m)
| c :: params, m =>
    (placeRestSeg numCores fingerprintBits c m).bind
      (fun first =>
        (placeRestSegs numCores fingerprintBits params
          first.2).map
          (fun rest => (first.1 :: rest.1, rest.2)))

/- The configurations with the bases of their places. -/
def configsOf
    (params : List RestSegParams)
    (placed : List Placed) :
    List RestSegConfig :=
  (params.zip placed).map (fun q =>
    ⟨q.1.sizeMb, q.1.pageSize, q.1.assoc,
      q.2.restSeg.geometry.basePhysicalAddress⟩)

/- The bytes of a segment's pages. -/
def dataRegion (g : Geometry) : List Span :=
  Bump.bytesFrom (g.basePhysicalAddress * 4096)
    (g.numSets * g.associativity * 2 ^ (g.pageSizeBits - 12) * 4096)

/- The bytes of the arrays of all cores. -/
def metadataRegions
    (c : RestSegParams) :
    List (Nat × Nat) → List Span
| [] => []
| (tag, fp) :: bases =>
    Bump.bytesFrom tag c.tagBytes ++
      Bump.bytesFrom fp c.fingerprintBytes ++
      metadataRegions c bases

/- The bytes of the segments and of their arrays. -/
def placedRegions :
    List RestSegParams → List Placed → List Span
| c :: params, p :: placed =>
    dataRegion p.restSeg.geometry ++
      metadataRegions c p.metadata ++
      placedRegions params placed
| _, _ => []

/-
  The bytes of what is taken later: radix nodes and frames of
  page tables, of any sizes.
-/
def laterRegions :
    List Nat → PhysicalMemoryAllocator → List Span
| [], _ => []
| bytes :: sizes, m =>
    let taken := m.handlePageTableAllocations bytes
    Bump.bytesFrom (taken.1 * 4096) bytes ++
      laterRegions sizes taken.2

/-
  No byte belongs to two of the regions, or to one of them
  and to a frame of the buddy allocator.
-/
def LaidApart (regions : List Span) (b : Buddy) : Prop :=
  regions.Pairwise Span.Apart ∧
    ∀ region ∈ regions, ∀ k, ∀ block ∈ b.freeList k,
      region.Apart (blockBytes block)

/- The requests for one segment. -/
def restSegRequests
    (numCores : Nat)
    (c : RestSegParams) :
    List Bump.Request :=
  ⟨c.sizeBytes,
      c.numSets * c.assoc * c.pageSize.pages * 4096,
      c.pageSize.pages⟩ ::
    (List.replicate numCores c.arrayRequests).flatten

/- The requests of the constructor. -/
def layoutRequests
    (numCores : Nat)
    (params : List RestSegParams) :
    List Bump.Request :=
  params.flatMap (restSegRequests numCores)

section Placements

variable {m m' : PhysicalMemoryAllocator}

/- The region of a request for any page starts at its page. -/
theorem startOf_align_one
    (pointer bytes used : Nat) :
    Bump.startOf 4096 pointer ⟨bytes, used, 1⟩ =
      pointer / 4096 * 4096 := by
  simp [Bump.startOf]

/- The arrays of the cores, as requests of their sizes. -/
theorem metadataRegions_eq
    (c : RestSegParams)
    (cores : Nat)
    (m : PhysicalMemoryAllocator) :
    metadataRegions c (placeMetadata c.getTagArraySize
        c.getFingerprintArraySize cores m).1 =
      Bump.placeAll 4096 (2 ^ 64) m.kernelStartAddress
        (List.replicate cores c.arrayRequests).flatten := by
  induction cores generalizing m with
  | zero => rfl
  | succ cores ih =>
      rw [placeMetadata, metadataRegions, ih, List.replicate_succ,
        List.flatten_cons, RestSegParams.arrayRequests]
      -- the sizes are products that no step has to unfold
      generalize c.getTagArraySize = tagSize
      generalize c.getFingerprintArraySize = fpSize
      generalize c.tagBytes = tags
      generalize c.fingerprintBytes = fps
      simp only [List.cons_append, List.nil_append, Bump.placeAll,
        startOf_align_one, List.append_assoc]
      rfl

theorem start_placeMetadata
    (c : RestSegParams)
    (cores : Nat)
    (hStart : m.kernelStartAddress < 2 ^ 64) :
    (placeMetadata c.getTagArraySize c.getFingerprintArraySize
        cores m).2.kernelStartAddress =
      (m.kernelStartAddress +
        ((List.replicate cores c.arrayRequests).flatten.map
          Bump.Request.bytes).sum) % 2 ^ 64 := by
  induction cores generalizing m with
  | zero => exact (Nat.mod_eq_of_lt hStart).symm
  | succ cores ih =>
      have hNext (m : PhysicalMemoryAllocator) (bytes : Nat) :
          (m.handlePageTableAllocations bytes).2.kernelStartAddress =
            (m.kernelStartAddress + bytes) % 2 ^ 64 :=
        rfl
      have hArrays : (c.arrayRequests.map Bump.Request.bytes).sum =
          c.getTagArraySize + c.getFingerprintArraySize := by
        rw [RestSegParams.arrayRequests, List.map_cons,
          List.map_cons, List.map_nil, List.sum_cons,
          List.sum_cons, List.sum_nil, Nat.add_zero]
      rw [placeMetadata,
        ih (by rw [hNext]; exact Nat.mod_lt _ (by decide)),
        hNext, hNext, List.replicate_succ, List.flatten_cons,
        List.map_append, List.sum_append, hArrays]
      simp only [Nat.mod_add_mod, Nat.add_assoc]

variable {numCores fingerprintBits : Nat} {c : RestSegParams}

/- One segment and its arrays. -/
theorem placeRestSeg_spec
    {p : Placed}
    (hPlace : placeRestSeg numCores fingerprintBits c m =
      some (p, m')) :
    dataRegion p.restSeg.geometry ++ metadataRegions c p.metadata =
        Bump.placeAll 4096 (2 ^ 64) m.kernelStartAddress
          (restSegRequests numCores c) ∧
      m'.kernelStartAddress =
        (m.kernelStartAddress +
          ((restSegRequests numCores c).map
            Bump.Request.bytes).sum) % 2 ^ 64 ∧
      0 < c.numSets := by
  rcases Option.map_eq_some_iff.mp hPlace with
    ⟨r, hConstruct, hEq⟩
  rw [Prod.mk.injEq] at hEq
  rcases RestSeg.construct_eq_some hConstruct with
    ⟨hFresh, hSets, _⟩
  subst hFresh
  refine ⟨?_, ?_, hSets⟩
  · have hData : dataRegion (RestSeg.fresh
        ⟨c.pageSize.bits, c.assoc, c.numSets,
          alignedBasePpn c.pageSize (m.kernelStartAddress / 4096),
          fingerprintBits⟩).geometry =
        Bump.bytesFrom
          (alignedBasePpn c.pageSize
            (m.kernelStartAddress / 4096) * 4096)
          (c.numSets * c.assoc * c.pageSize.pages * 4096) := by
      cases c with
      | mk sizeMb pageSize assoc =>
          cases pageSize with
          | fourKb => rfl
          | twoMb => rfl
    rw [← hEq.1, restSegRequests, Bump.placeAll, metadataRegions_eq]
    exact congrArg₂ (· ++ ·) hData rfl
  · rw [← hEq.2, start_placeMetadata c _ (Nat.mod_lt _ (by decide)),
      restSegRequests, List.map_cons, List.sum_cons,
      PhysicalMemoryAllocator.handlePageTableAllocations,
      Nat.mod_add_mod, Nat.add_assoc]

theorem layoutRequests_cons
    (numCores : Nat)
    (c : RestSegParams)
    (params : List RestSegParams) :
    layoutRequests numCores (c :: params) =
      restSegRequests numCores c ++
        layoutRequests numCores params :=
  List.flatMap_cons

variable {params : List RestSegParams}

/- The loop places one segment and then the others. -/
theorem placeRestSegs_cons
    {placed : List Placed}
    (hPlace : placeRestSegs numCores fingerprintBits (c :: params)
      m = some (placed, m')) :
    ∃ first m₁ rest,
      placeRestSeg numCores fingerprintBits c m =
          some (first, m₁) ∧
        placeRestSegs numCores fingerprintBits params m₁ =
          some (rest, m') ∧
        placed = first :: rest := by
  rcases Option.bind_eq_some_iff.mp hPlace with
    ⟨first, hFirst, hRest⟩
  rcases Option.map_eq_some_iff.mp hRest with
    ⟨⟨rest, m₂⟩, hOthers, hEq⟩
  cases hEq
  exact ⟨first.1, first.2, rest, hFirst, hOthers, rfl⟩

/- The segments and their arrays. -/
theorem placeRestSegs_spec
    {placed : List Placed}
    (hStart : m.kernelStartAddress < 2 ^ 64)
    (hPlace : placeRestSegs numCores fingerprintBits params m =
      some (placed, m')) :
    placedRegions params placed =
        Bump.placeAll 4096 (2 ^ 64) m.kernelStartAddress
          (layoutRequests numCores params) ∧
      m'.kernelStartAddress =
        (m.kernelStartAddress +
          ((layoutRequests numCores params).map
            Bump.Request.bytes).sum) % 2 ^ 64 ∧
      ∀ c ∈ params, 0 < c.numSets := by
  induction params generalizing m placed with
  | nil =>
      rw [placeRestSegs, Option.some.injEq, Prod.mk.injEq] at hPlace
      rw [← hPlace.1, ← hPlace.2]
      exact ⟨rfl, (Nat.mod_eq_of_lt hStart).symm, by simp⟩
  | cons c params ih =>
      rcases placeRestSegs_cons hPlace with
        ⟨first, m₁, rest, hFirst, hOthers, rfl⟩
      rcases placeRestSeg_spec hFirst with
        ⟨hRegions, hNext, hSets⟩
      have hBound : m₁.kernelStartAddress < 2 ^ 64 := by
        rw [hNext]
        exact Nat.mod_lt _ (by decide)
      rcases ih hBound hOthers with
        ⟨hRegions', hNext', hSets'⟩
      refine ⟨?_, ?_, List.forall_mem_cons.mpr ⟨hSets, hSets'⟩⟩
      · rw [placedRegions, hRegions, hRegions', hNext,
          layoutRequests_cons,
          Bump.placeAll_append 4096 hStart]
      · rw [hNext', hNext, layoutRequests_cons,
          List.map_append, List.sum_append, Nat.mod_add_mod,
          Nat.add_assoc]

/- What is taken later, as plain requests. -/
theorem laterRegions_eq
    (sizes : List Nat)
    (m : PhysicalMemoryAllocator) :
    laterRegions sizes m =
      Bump.placeAll 4096 (2 ^ 64) m.kernelStartAddress
        (sizes.map Bump.plain) := by
  induction sizes generalizing m with
  | nil => rfl
  | cons bytes sizes ih =>
      rw [laterRegions, ih, List.map_cons, Bump.placeAll,
        Bump.plain, startOf_align_one]
      rfl

/- The geometry of a segment at its place. -/
theorem geometry_placeRestSeg
    {p : Placed}
    (hPlace : placeRestSeg numCores fingerprintBits c m =
      some (p, m')) :
    p.restSeg.geometry =
      ⟨c.pageSize.bits, c.assoc, c.numSets,
        alignedBasePpn c.pageSize (m.kernelStartAddress / 4096),
        fingerprintBits⟩ := by
  rcases Option.map_eq_some_iff.mp hPlace with
    ⟨r, hConstruct, hSame⟩
  rw [Prod.mk.injEq] at hSame
  rw [← hSame.1, (RestSeg.construct_eq_some hConstruct).1]
  rfl

/- A base is behind the first page, and a page number. -/
theorem base_of_placeRestSegs
    {placed : List Placed}
    (hLow : 4096 ≤ m.kernelStartAddress)
    (hSum : m.kernelStartAddress +
      ((layoutRequests numCores params).map
        Bump.Request.bytes).sum < 2 ^ 64)
    (hPlace : placeRestSegs numCores fingerprintBits params m =
      some (placed, m')) :
    ∀ p ∈ placed,
      0 < p.restSeg.geometry.basePhysicalAddress ∧
        p.restSeg.geometry.basePhysicalAddress < 2 ^ 53 := by
  induction params generalizing m placed with
  | nil =>
      rw [placeRestSegs, Option.some.injEq, Prod.mk.injEq] at hPlace
      rw [← hPlace.1]
      simp
  | cons c params ih =>
      rw [layoutRequests_cons, List.map_append,
        List.sum_append] at hSum
      rcases placeRestSegs_cons hPlace with
        ⟨first, m₁, rest, hFirst, hOthers, rfl⟩
      have hNext := (placeRestSeg_spec hFirst).2.1
      rw [Nat.mod_eq_of_lt (by omega)] at hNext
      have hLow' : 4096 ≤ m₁.kernelStartAddress := by omega
      rw [List.forall_mem_cons]
      refine ⟨?_, ih hLow' (by omega) hOthers⟩
      rw [geometry_placeRestSeg hFirst]
      simp only
      unfold alignedBasePpn
      cases c.pageSize with
      | fourKb =>
          simp only [PageSize.pages]
          omega
      | twoMb =>
          simp only [PageSize.pages]
          omega

/- The pages of a segment fit into its size. -/
theorem pages_mul_le_sizeBytes
    (hWays : c.assoc ≤ 64) :
    c.numSets * c.assoc * c.pageSize.pages * 4096 ≤
      c.sizeBytes := by
  unfold RestSegParams.numSets RestSeg.numSetsOf
    RestSegParams.sizeBytes
  simp only
  generalize c.sizeMb * 2 ^ 20 % 2 ^ 64 = size
  have hBytes : c.assoc * c.pageSize.pages * 4096 =
      c.assoc * 2 ^ c.pageSize.bits % 2 ^ 64 := by
    cases c.pageSize with
    | fourKb =>
        simp only [PageSize.pages, PageSize.bits]
        omega
    | twoMb =>
        simp only [PageSize.pages, PageSize.bits]
        omega
  rw [Nat.mul_assoc, Nat.mul_assoc, ← Nat.mul_assoc c.assoc, hBytes]
  exact Nat.le_trans
    (Nat.mul_le_mul_right _ (Nat.mod_le _ _))
    (Nat.div_mul_le_self _ _)

/- All pages of a segment start before a page. -/
def Geometry.Below (g : Geometry) (ppn : Nat) : Prop :=
  ∀ slot < g.numSets * g.associativity,
    g.basePhysicalAddress + slot * 2 ^ (g.pageSizeBits - 12) < ppn

theorem Geometry.Below.mono
    {g : Geometry}
    {ppn ppn' : Nat}
    (hBelow : g.Below ppn)
    (hLe : ppn ≤ ppn') :
    g.Below ppn' :=
  fun slot hSlot => Nat.lt_of_lt_of_le (hBelow slot hSlot) hLe

/-
  The pages of a segment start before the pointer after it:
  the base is rounded up by less than a page of the segment.
-/
theorem below_placeRestSeg
    (hWays : c.assoc ≤ 64)
    (hSum : m.kernelStartAddress +
      ((restSegRequests numCores c).map
        Bump.Request.bytes).sum < 2 ^ 64)
    {p : Placed}
    (hPlace : placeRestSeg numCores fingerprintBits c m =
      some (p, m')) :
    m.kernelStartAddress / 4096 ≤
        p.restSeg.geometry.basePhysicalAddress ∧
      p.restSeg.geometry.Below (m'.kernelStartAddress / 4096) := by
  have hNext := (placeRestSeg_spec hPlace).2.1
  rw [Nat.mod_eq_of_lt hSum, restSegRequests, List.map_cons,
    List.sum_cons] at hNext
  simp only at hNext
  have hPages := pages_mul_le_sizeBytes hWays
  rw [geometry_placeRestSeg hPlace]
  unfold Geometry.Below alignedBasePpn
  simp only
  generalize c.numSets * c.assoc = slots at hPages ⊢
  cases hSize : c.pageSize with
  | fourKb =>
      simp only [hSize, PageSize.pages, PageSize.bits] at hPages ⊢
      exact ⟨by omega, fun slot hSlot => by omega⟩
  | twoMb =>
      simp only [hSize, PageSize.pages, PageSize.bits] at hPages ⊢
      exact ⟨by omega, fun slot hSlot => by omega⟩

/-
  The segments are placed in order, each with the geometry of
  its parameters.
-/
theorem pairwise_placeRestSegs
    (hWays : ∀ c ∈ params, c.assoc ≤ 64)
    (hSum : m.kernelStartAddress +
      ((layoutRequests numCores params).map
        Bump.Request.bytes).sum < 2 ^ 64)
    {placed : List Placed}
    (hPlace : placeRestSegs numCores fingerprintBits params m =
      some (placed, m')) :
    (params.zip placed).Pairwise (fun q q' =>
        q.2.restSeg.geometry.Below
          q'.2.restSeg.geometry.basePhysicalAddress) ∧
      ∀ q ∈ params.zip placed,
        m.kernelStartAddress / 4096 ≤
            q.2.restSeg.geometry.basePhysicalAddress ∧
          q.2.restSeg.geometry.Below (2 ^ 52) ∧
          q.2.restSeg.geometry =
            ⟨q.1.pageSize.bits, q.1.assoc, q.1.numSets,
              q.2.restSeg.geometry.basePhysicalAddress,
              fingerprintBits⟩ := by
  induction params generalizing m placed with
  | nil => simp
  | cons c params ih =>
      rw [layoutRequests_cons, List.map_append,
        List.sum_append] at hSum
      rcases placeRestSegs_cons hPlace with
        ⟨first, m₁, rest, hFirst, hOthers, rfl⟩
      rcases below_placeRestSeg (hWays c List.mem_cons_self)
          (by omega) hFirst with ⟨hBase, hBelow⟩
      have hNext := (placeRestSeg_spec hFirst).2.1
      rw [Nat.mod_eq_of_lt (by omega)] at hNext
      rcases ih (fun c' hMem =>
          hWays c' (List.mem_cons_of_mem c hMem))
          (by omega) hOthers with ⟨hPairwise, hAll⟩
      refine ⟨List.pairwise_cons.mpr ⟨?_, hPairwise⟩, ?_⟩
      · exact fun q hMem => hBelow.mono (hAll q hMem).1
      · intro q hMem
        rcases List.mem_cons.mp hMem with hHead | hTail
        · subst hHead
          refine ⟨hBase, hBelow.mono (by omega), ?_⟩
          rw [geometry_placeRestSeg hFirst]
        · rcases hAll q hTail with ⟨hLow, hRest⟩
          exact ⟨by omega, hRest⟩

end Placements

------------------------------------------------------------
-- Disjoint Layouts
------------------------------------------------------------

/- A page of the segment fits into the segment. -/
theorem pages_le_sizeBytes
    {c : RestSegParams}
    (hSets : 0 < c.numSets) :
    0 < c.assoc ∧ c.pageSize.pages * 4096 ≤ c.sizeBytes := by
  unfold RestSegParams.numSets RestSeg.numSetsOf at hSets
  unfold RestSegParams.sizeBytes
  simp only at hSets
  generalize c.sizeMb * 2 ^ 20 % 2 ^ 64 = size at hSets ⊢
  have hQuot : 0 < size /
      (c.assoc * 2 ^ c.pageSize.bits % 2 ^ 64) :=
    Nat.lt_of_lt_of_le hSets (Nat.mod_le _ _)
  rcases Nat.div_pos_iff.mp hQuot with ⟨hSet, hLe⟩
  cases hSize : c.pageSize
  all_goals
    rw [hSize] at hSet hLe
    simp only [PageSize.bits, PageSize.pages] at hSet hLe ⊢
    omega

/- What the requests of the constructor have in common. -/
theorem kind_of_layoutRequests
    {numCores : Nat}
    {params : List RestSegParams}
    (hSets : ∀ c ∈ params, 0 < c.numSets)
    {q : Bump.Request}
    (hMem : q ∈ layoutRequests numCores params) :
    0 < q.align ∧ (q.used = 0 → q.bytes = 0) ∧
      (q.align = 1 ∧ q.bytes ≤ q.used ∨
        q.align * 4096 ≤ q.bytes) := by
  rcases List.mem_flatMap.mp hMem with ⟨c, hParam, hReq⟩
  rcases pages_le_sizeBytes (hSets c hParam) with
    ⟨hAssoc, hSize⟩
  have hPages : 0 < c.pageSize.pages := by
    cases c.pageSize with
    | fourKb => decide
    | twoMb => decide
  rcases List.mem_cons.mp hReq with hData | hArray
  · subst hData
    refine ⟨hPages, ?_, Or.inr hSize⟩
    intro hNone
    have hUsed : 0 < c.numSets * c.assoc * c.pageSize.pages *
        4096 :=
      Nat.mul_pos (Nat.mul_pos (Nat.mul_pos
        (hSets c hParam) hAssoc) hPages) (by decide)
    simp only at hNone
    omega
  · rcases List.mem_flatten.mp hArray with ⟨l, hList, hIn⟩
    rw [List.eq_of_mem_replicate hList,
      RestSegParams.arrayRequests] at hIn
    simp only [List.mem_cons, List.not_mem_nil, or_false] at hIn
    -- A size in 32 bits is at most the size of the array.
    rcases hIn with hTag | hFp
    · subst hTag
      have hLe := Nat.mod_le c.tagBytes (2 ^ 32)
      exact ⟨Nat.one_pos,
        fun hNone => Nat.le_zero.mp (hNone ▸ hLe),
        Or.inl ⟨rfl, hLe⟩⟩
    · subst hFp
      have hLe := Nat.mod_le c.fingerprintBytes (2 ^ 32)
      exact ⟨Nat.one_pos,
        fun hNone => Nat.le_zero.mp (hNone ▸ hLe),
        Or.inl ⟨rfl, hLe⟩⟩

/- The requests may be placed one after the other. -/
theorem placeable_layout
    {numCores : Nat}
    {params : List RestSegParams}
    (hSets : ∀ c ∈ params, 0 < c.numSets)
    {limit : Nat}
    (hFit : 4096 + ((layoutRequests numCores params).map
      Bump.Request.bytes).sum ≤ limit)
    (later : List Nat) :
    Bump.Placeable 4096 limit 4096
      ((layoutRequests numCores params ++
        later.map Bump.plain).filter
          (fun q => decide (0 < q.used))) := by
  rw [List.filter_append]
  apply Bump.Placeable.append
  · have hLess := List.Sublist.sum_le_sum
      ((List.filter_sublist
        (p := fun q : Bump.Request => decide (0 < q.used))
        (l := layoutRequests numCores params)).map
          Bump.Request.bytes) (fun _ _ => Nat.zero_le _)
    omega
  · intro q hMem
    rcases List.mem_filter.mp hMem with ⟨hIn, hUsed⟩
    rcases kind_of_layoutRequests hSets hIn with
      ⟨hAlign, _, hKind⟩
    exact ⟨hAlign, of_decide_eq_true hUsed, hKind⟩
  · intro pointer
    exact Bump.placeable_plain 4096 limit pointer later

/- The frames of a new buddy allocator are behind the kernel. -/
theorem apart_buddy_iff
    {memorySize maxOrder kernelSize : Nat}
    {b : Buddy}
    (hBuddy : Buddy.construct memorySize maxOrder kernelSize =
      some b)
    (region : Span) :
    (∀ k, ∀ block ∈ b.freeList k, region.Apart (blockBytes block)) ↔
      ∀ p, kernelSize * 2 ^ 20 ≤ p → p < memorySize * 2 ^ 20 →
        ¬ region.Has p := by
  have hInv := Buddy.freeListInv_of_inv
    (s := ⟨b, []⟩) ⟨Buddy.tiled_construct hBuddy,
      (Buddy.construct_eq_some hBuddy).2⟩
  constructor
  · intro hApart p hLow hHigh hHas
    have hFirst : kernelSize * 256 ≤ p / 4096 := by
      rw [Nat.le_div_iff_mul_le (by decide), Nat.mul_assoc]
      exact hLow
    have hLast : p / 4096 < memorySize * 256 := by
      rw [Nat.div_lt_iff_lt_mul (by decide), Nat.mul_assoc]
      exact hHigh
    rcases hInv.covered (p / 4096) hFirst hLast with
      ⟨k, block, hMem, hStart, hStop⟩ | ⟨used, hUsed, _⟩
    · refine hApart k block hMem p hHas ⟨?_, ?_⟩
      · exact (Nat.le_div_iff_mul_le (by decide)).mp hStart
      · change p ≤ block.stop * 4096 + 4095
        have hPage := Nat.mod_lt p (show 0 < 4096 by decide)
        have hEq := Nat.div_add_mod p 4096
        omega
    · cases hUsed
  · rintro hAway k block hMem p hHas ⟨hStart, hStop⟩
    rcases hInv.bounded k block hMem with ⟨hLow, hHigh⟩
    change block.start * 4096 ≤ p at hStart
    change p ≤ block.stop * 4096 + 4095 at hStop
    have hFirst := Nat.mul_le_mul_right 4096 hLow
    have hLast := Nat.mul_le_mul_right 4096
      (Nat.succ_le_of_lt hHigh)
    rw [Nat.mul_assoc] at hFirst hLast
    refine hAway p (Nat.le_trans hFirst hStart) ?_ hHas
    exact Nat.lt_of_lt_of_le (by omega) hLast

/-
  For every configuration whose requests fit into the kernel,
  and for all that is taken from the kernel later, the layout
  is disjoint exactly if rounding fits.
-/
theorem laidApart_layout_iff
    {memorySize maxOrder kernelSize : Nat}
    (hKernel : kernelSize < 2 ^ 31)
    {b : Buddy}
    (hBuddy : Buddy.construct memorySize maxOrder kernelSize =
      some b)
    {numCores fingerprintBits : Nat}
    {params : List RestSegParams}
    {placed : List Placed}
    {m : PhysicalMemoryAllocator}
    (hPlace : placeRestSegs numCores fingerprintBits params
      (PhysicalMemoryAllocator.construct kernelSize) =
        some (placed, m))
    (hFit : 4096 + ((layoutRequests numCores params).map
      Bump.Request.bytes).sum ≤ kernelSize * 2 ^ 20)
    (later : List Nat)
    (hNoWrap : kernelSize < memorySize ∨
      kernelSize * 2 ^ 20 + later.sum < 2 ^ 64) :
    LaidApart (placedRegions params placed ++
        laterRegions later m) b ↔
      Bump.Rounds 4096 (kernelSize * 2 ^ 20)
        (memorySize * 2 ^ 20) 4096
        ((layoutRequests numCores params ++
          later.map Bump.plain).filter
            (fun q => decide (0 < q.used))) := by
  have hStart : (PhysicalMemoryAllocator.construct
      kernelSize).kernelStartAddress < 2 ^ 64 := by
    change 4096 < 2 ^ 64
    decide
  rcases placeRestSegs_spec hStart hPlace with
    ⟨hRegions, hNext, hSets⟩
  have hNone : ∀ q ∈ layoutRequests numCores params ++
      later.map Bump.plain, q.used = 0 → q.bytes = 0 := by
    intro q hMem
    rcases List.mem_append.mp hMem with hIn | hLater
    · exact (kind_of_layoutRequests hSets hIn).2.1
    · rcases List.mem_map.mp hLater with ⟨bytes, _, hEq⟩
      subst hEq
      exact id
  have hAll : placedRegions params placed ++
      laterRegions later m =
        Bump.place 4096 (2 ^ 64) 4096
          ((layoutRequests numCores params ++
            later.map Bump.plain).filter
              (fun q => decide (0 < q.used))) := by
    rw [hRegions, laterRegions_eq, hNext,
      ← Bump.placeAll_eq 4096 (by decide) hNone,
      Bump.placeAll_append 4096 (by decide)]
    rfl
  have hSum := List.Sublist.sum_le_sum
    ((List.filter_sublist
      (p := fun q : Bump.Request => decide (0 < q.used))
      (l := layoutRequests numCores params ++
        later.map Bump.plain)).map Bump.Request.bytes)
    (fun _ _ => Nat.zero_le _)
  rw [List.map_append, List.sum_append, List.map_map] at hSum
  have hLater : (later.map
      (Bump.Request.bytes ∘ Bump.plain)).sum = later.sum := by
    rw [show Bump.Request.bytes ∘ Bump.plain = id from rfl,
      List.map_id]
  rw [← Bump.pairwise_place_iff (by decide)
      (Dvd.intro_left (kernelSize * 2 ^ 8) (by omega))
      (show kernelSize * 2 ^ 20 + 4096 ≤ 2 ^ 64 by omega)
      (placeable_layout hSets hFit later)
      (fun _ => by omega)
      (by rcases hNoWrap with hLess | hLess
          · exact Or.inl (by omega)
          · exact Or.inr (by omega)),
    ← hAll]
  unfold LaidApart
  simp only [apart_buddy_iff hBuddy]

/-
  A 4KB segment of 16MB with arrays of whole pages, for two
  cores, and two frames after it.
-/
theorem laidApart_layout_wholePages :
    ∃ b ∈ Buddy.construct 40 9 32,
      ∃ placed ∈ placeRestSegs 2 4 [⟨16, .fourKb, 1⟩]
          (PhysicalMemoryAllocator.construct 32),
        LaidApart (placedRegions [⟨16, .fourKb, 1⟩] placed.1 ++
          laterRegions [4096, 4096] placed.2) b := by
  have hMeets : (Buddy.construct 40 9 32).isSome ∧
      (placeRestSegs 2 4 [⟨16, .fourKb, 1⟩]
        (PhysicalMemoryAllocator.construct 32)).isSome ∧
      4096 + ((layoutRequests 2 [⟨16, .fourKb, 1⟩]).map
        Bump.Request.bytes).sum ≤ 32 * 2 ^ 20 ∧
      Bump.Rounds 4096 (32 * 2 ^ 20) (40 * 2 ^ 20) 4096
        ((layoutRequests 2 [⟨16, .fourKb, 1⟩] ++
          [4096, 4096].map Bump.plain).filter
            (fun q => decide (0 < q.used))) := by
    decide +kernel
  rcases hMeets with ⟨hBuddy, hPlace, hFit, hRounds⟩
  rcases Option.isSome_iff_exists.mp hBuddy with ⟨b, hBuddy⟩
  rcases Option.isSome_iff_exists.mp hPlace with
    ⟨⟨placed, m⟩, hPlace⟩
  exact ⟨b, hBuddy, (placed, m), hPlace,
    (laidApart_layout_iff (by decide) hBuddy hPlace hFit
      [4096, 4096] (Or.inl (by decide))).mpr hRounds⟩

/-
  The base of a 2MB segment is rounded up from the second
  page, and the tags of the first core are inside of it.
-/
theorem laidApart_layout_twoMb :
    ∃ b ∈ Buddy.construct 9 9 8,
      ∃ placed ∈ placeRestSegs 1 4 [⟨2, .twoMb, 1⟩]
          (PhysicalMemoryAllocator.construct 8),
        4096 + ((layoutRequests 1 [⟨2, .twoMb, 1⟩]).map
            Bump.Request.bytes).sum ≤ 8 * 2 ^ 20 ∧
          ¬ LaidApart (placedRegions [⟨2, .twoMb, 1⟩]
            placed.1 ++ laterRegions [] placed.2) b := by
  have hRegions : ∃ b ∈ Buddy.construct 9 9 8,
      ∃ placed ∈ placeRestSegs 1 4 [⟨2, .twoMb, 1⟩]
          (PhysicalMemoryAllocator.construct 8),
        placedRegions [⟨2, .twoMb, 1⟩] placed.1 ++
            laterRegions [] placed.2 =
          [⟨2097152, 4194303⟩, ⟨2101248, 2101250⟩,
            ⟨2101248, 2101248⟩] := by
    decide +kernel
  rcases hRegions with ⟨b, hBuddy, placed, hPlace, hRegions⟩
  refine ⟨b, hBuddy, placed, hPlace, by decide +kernel, ?_⟩
  rintro ⟨hPairwise, _⟩
  rw [hRegions, List.pairwise_cons] at hPairwise
  refine hPairwise.1 ⟨2101248, 2101250⟩ (by simp) 2101248
    ⟨?_, ?_⟩ ⟨?_, ?_⟩
  iterate 4 decide

end Utopia

end Virtuoso
