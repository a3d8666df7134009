import Mathlib.Data.Nat.ModEq
import Virtuoso.Lib.Assoc
import Virtuoso.Lib.Run

/-
  The huge page pools of `hugetlbfs.h`.

  Each page size has a pool of pages, a counter of its free
  pages and the number of pages of each application. The
  index of a free page is returned as a 32-bit number, so a
  pool is accounted for exactly in every run if and only if
  it has no more than `2 ^ 31` pages.

  The members of both pools are those of `HugePool`. The size
  of a page is the one of its pool. Page numbers and counters
  have 64 bits. The flag for overcommitment, which is not
  read, the statistics and the log are left out, and the
  memory of the host holds the tables of the pools.

  Main declarations:
    * `HugeTlbfs.exact_run_iff`
-/

------------------------------------------------------------
-- The Service And Its Counters
------------------------------------------------------------

namespace Virtuoso

/- The sizes of huge pages. -/
inductive HugePageSize
  | size2mb
  | size1gb
deriving DecidableEq

/- The number of 4KB pages. -/
def HugePageSize.pages :
    HugePageSize → Nat
| .size2mb => 512
| .size1gb => 262144

/- One page of a pool. -/
structure HugePageInfo where
  basePpn : Nat
  appId : Int
  vaddr : Nat
  inUse : Bool
deriving DecidableEq

/- The pages of one size. -/
structure HugePool where
  pages : List HugePageInfo
  freeHugepages : Nat
  appUsage : List (Int × Nat)
deriving DecidableEq

/- `static_cast<int>` of an index. -/
def toInt32 (n : Nat) : Int :=
  if n % 2 ^ 32 < 2 ^ 31 then
    (n % 2 ^ 32 : Nat)
  else
    (n % 2 ^ 32 : Nat) - 2 ^ 32

namespace HugePool

/- A pool of `count` pages of `size` 4KB pages. -/
def initializePool (basePpn size count : Nat) : HugePool :=
  { pages := (List.range count).map
      (fun i => ⟨(basePpn + i * size) % 2 ^ 64, -1, 0, false⟩)
    freeHugepages := count
    appUsage := [] }

/- `findFreeHugePage`. -/
def findFreeHugePage (p : HugePool) : Int :=
  match p.pages.findIdx? (fun page => !page.inUse) with
  | none => -1
  | some i => toInt32 i

/- `getAppHugePages`. -/
def usage (p : HugePool) (app : Int) : Nat :=
  (p.appUsage.lookup app).getD 0

/- The page and the counters after an allocation. -/
def take
    (p : HugePool)
    (i : Nat)
    (page : HugePageInfo)
    (app : Int)
    (vaddr : Nat) : HugePool :=
  { pages := p.pages.set i
      { page with inUse := true, appId := app, vaddr := vaddr }
    freeHugepages := (p.freeHugepages + (2 ^ 64 - 1)) % 2 ^ 64
    appUsage := Assoc.insert p.appUsage app
      ((p.usage app + 1) % 2 ^ 64) }

/- A page that is not in use. -/
def freed (page : HugePageInfo) : HugePageInfo :=
  { page with inUse := false, appId := -1, vaddr := 0 }

/- The page and the counters after a deallocation. -/
def give
    (p : HugePool)
    (i : Nat)
    (page : HugePageInfo) : HugePool :=
  { pages := p.pages.set i (freed page)
    freeHugepages := (p.freeHugepages + 1) % 2 ^ 64
    appUsage :=
      if 0 < p.usage page.appId then
        Assoc.insert p.appUsage page.appId (p.usage page.appId - 1)
      else
        p.appUsage }

/- The page is in use by an application. -/
def ownedBy (app : Int) (page : HugePageInfo) : Bool :=
  page.inUse && page.appId == app

/- The pool after all pages of an application were freed. -/
def giveAll (p : HugePool) (app : Int) : HugePool :=
  { pages := p.pages.map (fun page =>
      if ownedBy app page then freed page else page)
    freeHugepages :=
      (p.freeHugepages + p.pages.countP (ownedBy app)) % 2 ^ 64
    appUsage := Assoc.erase p.appUsage app }

end HugePool

/- The configuration of the pools. -/
structure HugeTlbfsConfig where
  enabled : Bool
  nrHugepages2mb : UInt64
  nrHugepages1gb : UInt64
  poolBasePpn : UInt64

/- The two pools of huge pages. -/
structure HugeTlbfs where
  enabled : Bool
  pool2mb : HugePool
  pool1gb : HugePool
deriving DecidableEq

namespace HugeTlbfs

/- `HugeTLBfs::HugeTLBfs` with `initializePool`. -/
def construct (cfg : HugeTlbfsConfig) : HugeTlbfs :=
  if cfg.enabled then
    let base := cfg.poolBasePpn.toNat
    let count2mb := cfg.nrHugepages2mb.toNat
    let count1gb := cfg.nrHugepages1gb.toNat
    { enabled := true
      pool2mb := HugePool.initializePool base
        HugePageSize.size2mb.pages count2mb
      pool1gb := HugePool.initializePool
        (base + count2mb * HugePageSize.size2mb.pages)
        HugePageSize.size1gb.pages count1gb }
  else
    ⟨false, HugePool.initializePool 0 0 0,
      HugePool.initializePool 0 0 0⟩

/- The pool of a size. -/
def pool (h : HugeTlbfs) : HugePageSize → HugePool
| .size2mb => h.pool2mb
| .size1gb => h.pool1gb

/- The pool of a size has changed. -/
def setPool
    (h : HugeTlbfs)
    (size : HugePageSize)
    (p : HugePool) : HugeTlbfs :=
  match size with
  | .size2mb => { h with pool2mb := p }
  | .size1gb => { h with pool1gb := p }

/- `allocateHugePage`, with `none` for -1. -/
def allocateHugePage
    (h : HugeTlbfs)
    (app : Int)
    (vaddr : Nat)
    (size : HugePageSize) :
    Option Nat × HugeTlbfs :=
  if h.enabled then
    let idx := (h.pool size).findFreeHugePage
    if idx < 0 then
      (none, h)
    else
      match (h.pool size).pages[idx.toNat]? with
      | none => (none, h)
      | some page =>
          (some page.basePpn,
            h.setPool size
              ((h.pool size).take idx.toNat page app vaddr))
  else
    (none, h)

/- `deallocateHugePage`. -/
def deallocateHugePage
    (h : HugeTlbfs)
    (basePpn : Nat)
    (size : HugePageSize) :
    Bool × HugeTlbfs :=
  if h.enabled then
    match (h.pool size).pages.findIdx? (fun page =>
        page.basePpn == basePpn && page.inUse) with
    | none => (false, h)
    | some i =>
        match (h.pool size).pages[i]? with
        | none => (false, h)
        | some page =>
            (true, h.setPool size ((h.pool size).give i page))
  else
    (false, h)

/- `deallocateAllForApp`. -/
def deallocateAllForApp
    (h : HugeTlbfs)
    (app : Int) :
    Nat × HugeTlbfs :=
  if h.enabled then
    (h.pool2mb.pages.countP (HugePool.ownedBy app) +
        h.pool1gb.pages.countP (HugePool.ownedBy app),
      { h with
        pool2mb := h.pool2mb.giveAll app
        pool1gb := h.pool1gb.giveAll app })
  else
    (0, h)

/- The calls of the service. -/
inductive Op
  | allocateHugePage (app : Int) (vaddr : Nat)
      (size : HugePageSize)
  | deallocateHugePage (basePpn : Nat) (size : HugePageSize)
  | deallocateAllForApp (app : Int)

/- Every call of the service returns. -/
def step (h : HugeTlbfs) : Op → Option HugeTlbfs
| .allocateHugePage app vaddr size =>
    some (h.allocateHugePage app vaddr size).2
| .deallocateHugePage basePpn size =>
    some (h.deallocateHugePage basePpn size).2
| .deallocateAllForApp app =>
    some (h.deallocateAllForApp app).2

/- The counters of a pool agree with its pages. -/
structure Counted (p : HugePool) : Prop where
  free : p.freeHugepages = p.pages.countP (fun page => !page.inUse)
  usage : ∀ app, p.usage app = p.pages.countP (HugePool.ownedBy app)

/- A 4KB page of a huge page. -/
def Covers
    (size : HugePageSize)
    (page : HugePageInfo)
    (ppn : Nat) : Prop :=
  ∃ i < size.pages, ppn = (page.basePpn + i) % 2 ^ 64

/- An application owns a 4KB page through a huge page. -/
def Owns (h : HugeTlbfs) (app : Int) (ppn : Nat) : Prop :=
  ∃ size, ∃ page ∈ (h.pool size).pages,
    HugePool.ownedBy app page = true ∧ Covers size page ppn

/-
  The counters are exact, no page has two owners, the pages
  of the pools do not overlap, and an allocation fails exactly
  when the counter of free pages is zero.
-/
structure Exact (h : HugeTlbfs) : Prop where
  counted : ∀ size, Counted (h.pool size)
  owner : ∀ app app' ppn,
    h.Owns app ppn → h.Owns app' ppn → app = app'
  apart : ∀ page ∈ h.pool2mb.pages, ∀ page' ∈ h.pool1gb.pages,
    ∀ ppn, Covers .size2mb page ppn → ¬ Covers .size1gb page' ppn
  fails : ∀ app vaddr size,
    (h.allocateHugePage app vaddr size).1 = none ↔
      (h.pool size).freeHugepages = 0

variable {p : HugePool} {h h' : HugeTlbfs} {i : Nat}

/- An index of a pool that is not too large is kept. -/
theorem toInt32_of_lt
    (hLt : i < 2 ^ 31) :
    toInt32 i = i := by
  have hMod : i % 2 ^ 32 = i :=
    Nat.mod_eq_of_lt (by omega)
  rw [toInt32, hMod, if_pos hLt]

/- The outcome of the search in a pool of `2 ^ 31` pages. -/
theorem findFreeHugePage_spec
    (hLength : p.pages.length ≤ 2 ^ 31) :
    (p.findFreeHugePage = -1 ∧
        p.pages.countP (fun page => !page.inUse) = 0) ∨
      ∃ (i : Nat) (page : HugePageInfo),
        p.findFreeHugePage = i ∧ p.pages[i]? = some page ∧
          page.inUse = false := by
  unfold HugePool.findFreeHugePage
  cases hFind : p.pages.findIdx? (fun page => !page.inUse) with
  | none =>
      left
      refine ⟨rfl, ?_⟩
      rw [List.countP_eq_zero]
      intro page hMem
      have := List.findIdx?_eq_none_iff.mp hFind page hMem
      simpa using this
  | some i =>
      right
      rcases List.findIdx?_eq_some_iff_getElem.mp hFind with
        ⟨hLt, hFree, -⟩
      refine ⟨i, p.pages[i], ?_, ?_, by simpa using hFree⟩
      · exact toInt32_of_lt (by omega)
      · exact List.getElem?_eq_getElem hLt

/- Replacing one page changes a count by that page. -/
theorem countP_set_page
    {page : HugePageInfo}
    (hGet : p.pages[i]? = some page)
    (page' : HugePageInfo)
    (f : HugePageInfo → Bool) :
    (p.pages.set i page').countP f + (if f page then 1 else 0) =
      p.pages.countP f + (if f page' then 1 else 0) := by
  rcases List.getElem?_eq_some_iff.mp hGet with ⟨hLt, hEq⟩
  have hMem : p.pages[i] ∈ p.pages := List.getElem_mem hLt
  rw [List.countP_set hLt, hEq]
  rw [hEq] at hMem
  cases hTest : f page with
  | false => simp
  | true =>
      have hPos : 0 < p.pages.countP f :=
        List.countP_pos_iff.mpr ⟨page, hMem, hTest⟩
      simp only [if_true]
      omega

theorem usage_insert
    (p : HugePool)
    (app app' : Int)
    (n : Nat) :
    ((Assoc.insert p.appUsage app n).lookup app').getD 0 =
      if app' = app then n else p.usage app' := by
  rw [Assoc.lookup_insert]
  split_ifs
  · rfl
  · rfl

/- An allocation keeps the counters exact. -/
theorem counted_take
    (hCounted : Counted p)
    (hLength : p.pages.length ≤ 2 ^ 31)
    {page : HugePageInfo}
    (hGet : p.pages[i]? = some page)
    (hFree : page.inUse = false)
    (app : Int)
    (vaddr : Nat) :
    Counted (p.take i page app vaddr) := by
  have hPages : ∀ f : HugePageInfo → Bool,
      p.pages.countP f ≤ 2 ^ 31 := fun f =>
    Nat.le_trans List.countP_le_length hLength
  refine ⟨?_, fun other => ?_⟩
  · have hSet := countP_set_page hGet
      { page with inUse := true, appId := app, vaddr := vaddr }
      (fun page => !page.inUse)
    have hBound := hPages (fun page => !page.inUse)
    simp only [hFree, Bool.not_false, Bool.not_true, if_true,
      Bool.false_eq_true, if_false, Nat.add_zero] at hSet
    simp only [HugePool.take, hCounted.free]
    omega
  · have hSet := countP_set_page hGet
      { page with inUse := true, appId := app, vaddr := vaddr }
      (HugePool.ownedBy other)
    have hBound := hPages (HugePool.ownedBy app)
    have hUsage := hCounted.usage app
    simp only [HugePool.ownedBy, hFree, Bool.false_and,
      Bool.true_and, Bool.false_eq_true, if_false,
      beq_iff_eq, Nat.add_zero] at hSet
    change ((Assoc.insert p.appUsage app
      ((p.usage app + 1) % 2 ^ 64)).lookup other).getD 0 = _
    rw [usage_insert]
    by_cases hOwn : other = app
    · subst hOwn
      rw [if_pos rfl] at hSet ⊢
      have hCount : (p.usage other + 1) % 2 ^ 64 =
          p.usage other + 1 := Nat.mod_eq_of_lt (by omega)
      rw [hCount, hUsage]
      exact hSet.symm
    · rw [if_neg (fun hEq => hOwn hEq.symm)] at hSet
      rw [if_neg hOwn, hCounted.usage other]
      exact hSet.symm

/- A deallocation keeps the counters exact. -/
theorem counted_give
    (hCounted : Counted p)
    (hLength : p.pages.length ≤ 2 ^ 31)
    {page : HugePageInfo}
    (hGet : p.pages[i]? = some page)
    (hUse : page.inUse = true) :
    Counted (p.give i page) := by
  have hOwner : HugePool.ownedBy page.appId page = true := by
    simp [HugePool.ownedBy, hUse]
  have hPos : 0 < p.usage page.appId := by
    rw [hCounted.usage, List.countP_pos_iff]
    exact ⟨page, List.mem_of_getElem? hGet, hOwner⟩
  refine ⟨?_, fun other => ?_⟩
  · have hSet := countP_set_page hGet (HugePool.freed page)
      (fun page => !page.inUse)
    have hBound : (p.give i page).pages.countP
        (fun page => !page.inUse) ≤ 2 ^ 31 := by
      apply Nat.le_trans List.countP_le_length
      rw [show (p.give i page).pages =
        p.pages.set i (HugePool.freed page) from rfl,
        List.length_set]
      exact hLength
    have hFreed : (!(HugePool.freed page).inUse) = true := rfl
    have hUsed : (!page.inUse) = false := by rw [hUse]; rfl
    simp only [hFreed, hUsed, if_true, Bool.false_eq_true,
      if_false, Nat.add_zero] at hSet
    change (p.freeHugepages + 1) % 2 ^ 64 =
      (p.pages.set i (HugePool.freed page)).countP
        (fun page => !page.inUse)
    change (p.pages.set i (HugePool.freed page)).countP
      (fun page => !page.inUse) ≤ 2 ^ 31 at hBound
    rw [hSet] at hBound ⊢
    rw [hCounted.free]
    exact Nat.mod_eq_of_lt (by omega)
  · have hSet := countP_set_page hGet (HugePool.freed page)
      (HugePool.ownedBy other)
    have hFreed :
        HugePool.ownedBy other (HugePool.freed page) = false :=
      rfl
    have hTest : HugePool.ownedBy other page = true ↔
        other = page.appId := by
      simp only [HugePool.ownedBy, hUse, Bool.true_and, beq_iff_eq]
      exact eq_comm
    have hUsage : (p.give i page).usage other =
        if other = page.appId then p.usage page.appId - 1
        else p.usage other := by
      change ((if 0 < p.usage page.appId then
          Assoc.insert p.appUsage page.appId
            (p.usage page.appId - 1)
        else
          p.appUsage).lookup other).getD 0 = _
      rw [if_pos hPos]
      exact usage_insert p page.appId other _
    simp only [hFreed, Bool.false_eq_true, if_false,
      Nat.add_zero] at hSet
    rw [hUsage]
    change _ = (p.pages.set i (HugePool.freed page)).countP
      (HugePool.ownedBy other)
    by_cases hOwn : other = page.appId
    · rw [if_pos (hTest.mpr hOwn)] at hSet
      rw [if_pos hOwn, hCounted.usage, ← hOwn]
      omega
    · rw [if_neg (fun hIs => hOwn (hTest.mp hIs)),
        Nat.add_zero] at hSet
      rw [if_neg hOwn, hCounted.usage]
      exact hSet.symm

/- Freeing all pages of an application, over its pool. -/
theorem countP_giveAll
    (pages : List HugePageInfo)
    (app : Int) :
    (pages.map (fun page =>
          if HugePool.ownedBy app page then
            HugePool.freed page
          else
            page)).countP (fun page => !page.inUse) =
        pages.countP (fun page => !page.inUse) +
          pages.countP (HugePool.ownedBy app) ∧
      ∀ other,
        (pages.map (fun page =>
            if HugePool.ownedBy app page then
              HugePool.freed page
            else
              page)).countP (HugePool.ownedBy other) =
          if other = app then 0
          else pages.countP (HugePool.ownedBy other) := by
  induction pages with
  | nil => simp
  | cons page pages ih =>
      rcases ih with ⟨ihFree, ihUsage⟩
      by_cases hOwn : HugePool.ownedBy app page = true
      · have hUse : page.inUse = true ∧ page.appId = app := by
          simpa [HugePool.ownedBy] using hOwn
        refine ⟨?_, fun other => ?_⟩
        · rw [List.map_cons, if_pos hOwn, List.countP_cons,
            List.countP_cons, List.countP_cons, ihFree]
          simp only [HugePool.freed, hUse.1, hOwn,
            Bool.not_false, Bool.not_true, if_true,
            Bool.false_eq_true, if_false]
          omega
        · have hNew : HugePool.ownedBy other
              (HugePool.freed page) = false := rfl
          rw [List.map_cons, if_pos hOwn, List.countP_cons,
            List.countP_cons, ihUsage, hNew]
          by_cases hSame : other = app
          · simp [hSame]
          · have hOther : HugePool.ownedBy other page = false := by
              simp [HugePool.ownedBy, hUse.2, Ne.symm hSame]
            simp [hSame, hOther]
      · refine ⟨?_, fun other => ?_⟩
        · rw [List.map_cons, if_neg hOwn, List.countP_cons,
            List.countP_cons, List.countP_cons, ihFree,
            if_neg hOwn]
          omega
        · rw [List.map_cons, if_neg hOwn, List.countP_cons,
            List.countP_cons, ihUsage]
          by_cases hSame : other = app
          · simp [hSame, hOwn]
          · simp [hSame]

theorem counted_giveAll
    (hCounted : Counted p)
    (hLength : p.pages.length ≤ 2 ^ 31)
    (app : Int) :
    Counted (p.giveAll app) := by
  rcases countP_giveAll p.pages app with ⟨hFree, hUsage⟩
  refine ⟨?_, fun other => ?_⟩
  · have hBound : (p.giveAll app).pages.countP
        (fun page => !page.inUse) ≤ 2 ^ 31 := by
      apply Nat.le_trans List.countP_le_length
      simp only [HugePool.giveAll, List.length_map]
      exact hLength
    simp only [HugePool.giveAll] at hBound ⊢
    rw [hFree] at hBound ⊢
    rw [hCounted.free]
    exact Nat.mod_eq_of_lt (by omega)
  · simp only [HugePool.giveAll, HugePool.usage, Assoc.lookup_erase]
    rw [hUsage]
    by_cases hSame : other = app
    · simp [hSame]
    · rw [if_neg hSame, if_neg hSame]
      exact hCounted.usage other

------------------------------------------------------------
-- Physical Pages
------------------------------------------------------------

/- The base pages of a pool. -/
def bases (p : HugePool) : List Nat :=
  p.pages.map HugePageInfo.basePpn

/- Replacing a page by one with its base page. -/
theorem map_basePpn_set
    {page page' : HugePageInfo}
    (hGet : p.pages[i]? = some page)
    (hBase : page'.basePpn = page.basePpn) :
    (p.pages.set i page').map HugePageInfo.basePpn = bases p := by
  rcases List.getElem?_eq_some_iff.mp hGet with ⟨hLt, hEq⟩
  have hSame : p.pages[i].basePpn = page'.basePpn := by
    rw [hEq, hBase]
  have hIn : i < (bases p).length := by
    rw [bases, List.length_map]
    exact hLt
  have hAt : (bases p)[i] = page'.basePpn := by
    simp only [bases, List.getElem_map]
    exact hSame
  rw [List.map_set, ← hAt]
  exact List.set_getElem_self hIn

theorem bases_giveAll
    (p : HugePool)
    (app : Int) :
    bases (p.giveAll app) = bases p := by
  simp only [bases, HugePool.giveAll, List.map_map]
  apply List.map_congr_left
  intro page _
  simp only [Function.comp]
  split_ifs
  · rfl
  · rfl

/- The first 4KB page of a pool. -/
def poolBase (cfg : HugeTlbfsConfig) : HugePageSize → Nat
| .size2mb => 0
| .size1gb =>
    cfg.nrHugepages2mb.toNat * HugePageSize.size2mb.pages

/- The number of pages of a pool. -/
def count
    (cfg : HugeTlbfsConfig)
    (size : HugePageSize) : Nat :=
  if cfg.enabled then
    match size with
    | .size2mb => cfg.nrHugepages2mb.toNat
    | .size1gb => cfg.nrHugepages1gb.toNat
  else
    0

/- A pool with a page belongs to an enabled service. -/
theorem enabled_of_lt_count
    {cfg : HugeTlbfsConfig}
    {size : HugePageSize}
    (hLt : i < count cfg size) :
    cfg.enabled = true := by
  by_contra hDisabled
  simp [count, hDisabled] at hLt

theorem count_lt
    (cfg : HugeTlbfsConfig)
    (size : HugePageSize) :
    count cfg size < 2 ^ 64 := by
  have h2mb := cfg.nrHugepages2mb.toNat_lt
  have h1gb := cfg.nrHugepages1gb.toNat_lt
  unfold count
  cases size with
  | size2mb => split_ifs <;> omega
  | size1gb => split_ifs <;> omega

theorem construct_pool
    (cfg : HugeTlbfsConfig)
    (size : HugePageSize) :
    (construct cfg).pool size =
      if cfg.enabled then
        HugePool.initializePool
          (cfg.poolBasePpn.toNat + poolBase cfg size)
          size.pages (count cfg size)
      else
        HugePool.initializePool 0 0 0 := by
  unfold construct
  split_ifs with hEnabled
  · cases size with
    | size2mb => simp [pool, poolBase, count, hEnabled]
    | size1gb => simp [pool, poolBase, count, hEnabled]
  · cases size with
    | size2mb => rfl
    | size1gb => rfl

theorem length_construct
    (cfg : HugeTlbfsConfig)
    (size : HugePageSize) :
    ((construct cfg).pool size).pages.length = count cfg size := by
  rw [construct_pool]
  split_ifs with hEnabled
  · simp [HugePool.initializePool]
  · simp [HugePool.initializePool, count, hEnabled]

/- No page of a new pool is in use. -/
theorem counted_construct
    (cfg : HugeTlbfsConfig)
    (size : HugePageSize) :
    Counted ((construct cfg).pool size) := by
  have hInit : ∀ b n c,
      Counted (HugePool.initializePool b n c) := by
    intro b n c
    refine ⟨?_, fun app => ?_⟩
    · simp [HugePool.initializePool, List.countP_map,
        Function.comp_def]
    · simp [HugePool.initializePool, HugePool.usage,
        HugePool.ownedBy, List.countP_map, Function.comp_def]
  rw [construct_pool]
  split_ifs
  · exact hInit _ _ _
  · exact hInit _ _ _

/- The pages stay in place and the counters are exact. -/
structure Inv
    (cfg : HugeTlbfsConfig)
    (h : HugeTlbfs) : Prop where
  enabled : h.enabled = cfg.enabled
  placed : ∀ size,
    bases (h.pool size) = bases ((construct cfg).pool size)
  counted : ∀ size, Counted (h.pool size)

variable {cfg : HugeTlbfsConfig}

theorem inv_construct
    (cfg : HugeTlbfsConfig) :
    Inv cfg (construct cfg) := by
  refine ⟨?_, fun _ => rfl, counted_construct cfg⟩
  unfold construct
  split_ifs with hEnabled
  · exact hEnabled.symm
  · simpa using hEnabled

/- A pool whose base pages are in place has all its pages. -/
theorem length_of_placed
    {size : HugePageSize}
    (hPlaced : bases (h.pool size) =
      bases ((construct cfg).pool size)) :
    (h.pool size).pages.length = count cfg size := by
  have hLength := congrArg List.length hPlaced
  rw [bases, bases, List.length_map, List.length_map,
    length_construct] at hLength
  exact hLength

theorem Inv.length
    (hInv : Inv cfg h)
    (size : HugePageSize) :
    (h.pool size).pages.length = count cfg size :=
  length_of_placed (hInv.placed size)

@[simp] theorem pool_setPool
    (h : HugeTlbfs)
    (size other : HugePageSize)
    (p : HugePool) :
    (h.setPool size p).pool other =
      if other = size then p else h.pool other := by
  cases size with
  | size2mb => cases other <;> rfl
  | size1gb => cases other <;> rfl

@[simp] theorem enabled_setPool
    (h : HugeTlbfs)
    (size : HugePageSize)
    (p : HugePool) :
    (h.setPool size p).enabled = h.enabled := by
  cases size with
  | size2mb => rfl
  | size1gb => rfl

/- A new pool in its place with exact counters. -/
theorem Inv.setPool
    (hInv : Inv cfg h)
    {size : HugePageSize}
    (hPlaced : bases p = bases (h.pool size))
    (hCounted : Counted p) :
    Inv cfg (h.setPool size p) := by
  refine ⟨?_, fun other => ?_, fun other => ?_⟩
  · rw [enabled_setPool]
    exact hInv.enabled
  · rw [pool_setPool]
    split_ifs with hOwn
    · rw [hOwn, hPlaced]
      exact hInv.placed size
    · exact hInv.placed other
  · rw [pool_setPool]
    split_ifs
    · exact hCounted
    · exact hInv.counted other

/- The outcome of an allocation from a pool. -/
theorem allocateHugePage_spec
    (hEnabled : h.enabled = true)
    {size : HugePageSize}
    (hLength : (h.pool size).pages.length ≤ 2 ^ 31)
    (app : Int)
    (vaddr : Nat) :
    (h.allocateHugePage app vaddr size = (none, h) ∧
        (h.pool size).pages.countP (fun page => !page.inUse) = 0) ∨
      ∃ (i : Nat) (page : HugePageInfo),
        (h.pool size).pages[i]? = some page ∧
          page.inUse = false ∧
          h.allocateHugePage app vaddr size =
            (some page.basePpn, h.setPool size
              ((h.pool size).take i page app vaddr)) := by
  rcases findFreeHugePage_spec hLength with
    ⟨hNone, hCount⟩ | ⟨i, page, hSome, hGet, hFree⟩
  · left
    refine ⟨?_, hCount⟩
    simp [allocateHugePage, hEnabled, hNone]
  · right
    refine ⟨i, page, hGet, hFree, ?_⟩
    have hIndex : ¬ (i : Int) < 0 := by omega
    simp only [allocateHugePage, hEnabled, if_true, hSome,
      if_neg hIndex, Int.toNat_natCast, hGet]

/- The outcome of a deallocation. -/
theorem deallocateHugePage_spec
    (h : HugeTlbfs)
    (basePpn : Nat)
    (size : HugePageSize) :
    h.deallocateHugePage basePpn size = (false, h) ∨
      ∃ (i : Nat) (page : HugePageInfo),
        (h.pool size).pages[i]? = some page ∧
          page.inUse = true ∧
          h.deallocateHugePage basePpn size =
            (true, h.setPool size ((h.pool size).give i page)) := by
  unfold deallocateHugePage
  split_ifs
  · cases hFind : (h.pool size).pages.findIdx? (fun page =>
        page.basePpn == basePpn && page.inUse) with
    | none => exact Or.inl rfl
    | some i =>
        right
        rcases List.findIdx?_eq_some_iff_getElem.mp hFind with
          ⟨hLt, hTest, -⟩
        have hGet := List.getElem?_eq_getElem hLt
        have hUse := (Bool.and_eq_true _ _ ▸ hTest).2
        refine ⟨i, _, hGet, hUse, ?_⟩
        simp only [hGet]
  · exact Or.inl rfl

/- No pool has more pages than an index can tell apart. -/
def Indexed (cfg : HugeTlbfsConfig) : Prop :=
  ∀ size, count cfg size ≤ 2 ^ 31

/- Every call keeps the invariant of indexed pools. -/
theorem inv_step
    (hIndexed : Indexed cfg)
    (hInv : Inv cfg h)
    {op : Op}
    (hStep : step h op = some h') :
    Inv cfg h' := by
  have hLength : ∀ size, (h.pool size).pages.length ≤ 2 ^ 31 := by
    intro size
    rw [hInv.length size]
    exact hIndexed size
  cases op with
  | allocateHugePage app vaddr size =>
      cases hStep
      by_cases hEnabled : h.enabled = true
      · rcases allocateHugePage_spec hEnabled (hLength size)
            app vaddr with
          ⟨hOut, -⟩ | ⟨i, page, hGet, hFree, hOut⟩
        · rw [hOut]
          exact hInv
        · rw [hOut]
          refine hInv.setPool (map_basePpn_set hGet rfl) ?_
          exact counted_take (hInv.counted size)
            (hLength size) hGet hFree app vaddr
      · rw [allocateHugePage, if_neg hEnabled]
        exact hInv
  | deallocateHugePage basePpn size =>
      cases hStep
      rcases deallocateHugePage_spec h basePpn size with
        hOut | ⟨i, page, hGet, hUse, hOut⟩
      · rw [hOut]
        exact hInv
      · rw [hOut]
        refine hInv.setPool (map_basePpn_set hGet rfl) ?_
        exact counted_give (hInv.counted size)
          (hLength size) hGet hUse
  | deallocateAllForApp app =>
      cases hStep
      by_cases hEnabled : h.enabled = true
      · have hOut : (h.deallocateAllForApp app).2 =
            (h.setPool .size2mb
              (h.pool2mb.giveAll app)).setPool .size1gb
                (h.pool1gb.giveAll app) := by
          rw [deallocateAllForApp, if_pos hEnabled]
          rfl
        rw [hOut]
        have hFirst : Inv cfg (h.setPool .size2mb
            (h.pool2mb.giveAll app)) :=
          hInv.setPool (bases_giveAll _ app)
            (counted_giveAll (hInv.counted .size2mb)
              (hLength .size2mb) app)
        exact hFirst.setPool (bases_giveAll _ app)
          (counted_giveAll (hInv.counted .size1gb)
            (hLength .size1gb) app)
      · rw [deallocateAllForApp, if_neg hEnabled]
        exact hInv

------------------------------------------------------------
-- Overlaps And Exact Accounting
------------------------------------------------------------

/- The base page of a page of a pool in its place. -/
theorem basePpn_of_placed
    {size : HugePageSize}
    (hPlaced : bases (h.pool size) =
      bases ((construct cfg).pool size))
    {page : HugePageInfo}
    (hGet : (h.pool size).pages[i]? = some page) :
    i < count cfg size ∧
      page.basePpn = (cfg.poolBasePpn.toNat +
        poolBase cfg size + i * size.pages) % 2 ^ 64 := by
  rcases List.getElem?_eq_some_iff.mp hGet with ⟨hLt, -⟩
  rw [length_of_placed hPlaced] at hLt
  refine ⟨hLt, ?_⟩
  have hBase : (bases (h.pool size))[i]? = some page.basePpn := by
    rw [bases, List.getElem?_map, hGet]
    rfl
  have hEnabled := enabled_of_lt_count hLt
  rw [hPlaced, construct_pool, if_pos hEnabled,
    bases, HugePool.initializePool, List.map_map,
    List.getElem?_map, List.getElem?_range hLt,
    Option.map_some, Option.some.injEq] at hBase
  exact hBase.symm

theorem Inv.basePpn
    (hInv : Inv cfg h)
    {size : HugePageSize}
    {page : HugePageInfo}
    (hGet : (h.pool size).pages[i]? = some page) :
    i < count cfg size ∧
      page.basePpn = (cfg.poolBasePpn.toNat +
        poolBase cfg size + i * size.pages) % 2 ^ 64 :=
  basePpn_of_placed (hInv.placed size) hGet

/- The position of a 4KB page in the memory of the pools. -/
def place
    (cfg : HugeTlbfsConfig)
    (size : HugePageSize)
    (i k : Nat) : Nat :=
  poolBase cfg size + (i * size.pages + k)

/- The pools fit into the page numbers. -/
theorem place_lt
    (hIndexed : Indexed cfg)
    {size : HugePageSize}
    {i k : Nat}
    (hLt : i < count cfg size)
    (hK : k < size.pages) :
    place cfg size i k < 2 ^ 64 := by
  have hEnabled := enabled_of_lt_count hLt
  have hBound2mb := hIndexed .size2mb
  have hBound1gb := hIndexed .size1gb
  cases size with
  | size2mb =>
      simp only [count, hEnabled, if_true, place, poolBase,
        HugePageSize.pages] at *
      omega
  | size1gb =>
      simp only [count, hEnabled, if_true, place, poolBase,
        HugePageSize.pages] at *
      omega

/- A position is in one page of one pool. -/
theorem place_inj
    {size size' : HugePageSize}
    {i j k k' : Nat}
    (hLt : i < count cfg size)
    (hLt' : j < count cfg size')
    (hK : k < size.pages)
    (hK' : k' < size'.pages)
    (hPlace : place cfg size i k = place cfg size' j k') :
    size = size' ∧ i = j := by
  have hEnabled := enabled_of_lt_count hLt
  cases size with
  | size2mb =>
      cases size' with
      | size2mb =>
          simp only [place, HugePageSize.pages] at hPlace hK hK'
          exact ⟨rfl, by omega⟩
      | size1gb =>
          simp only [count, hEnabled, if_true, place, poolBase,
            HugePageSize.pages] at *
          omega
  | size1gb =>
      cases size' with
      | size2mb =>
          simp only [count, hEnabled, if_true, place, poolBase,
            HugePageSize.pages] at *
          omega
      | size1gb =>
          simp only [place, HugePageSize.pages] at hPlace hK hK'
          exact ⟨rfl, by omega⟩

/- A 4KB page of a huge page has a position in the pools. -/
theorem Inv.place_of_covers
    (hInv : Inv cfg h)
    {size : HugePageSize}
    {page : HugePageInfo}
    (hGet : (h.pool size).pages[i]? = some page)
    {ppn : Nat}
    (hCovers : Covers size page ppn) :
    i < count cfg size ∧
      ∃ k < size.pages, ppn =
        (cfg.poolBasePpn.toNat + place cfg size i k) % 2 ^ 64 := by
  rcases hInv.basePpn hGet with ⟨hLt, hBase⟩
  rcases hCovers with ⟨k, hK, hPpn⟩
  refine ⟨hLt, k, hK, ?_⟩
  rw [hPpn, hBase, Nat.mod_add_mod, Nat.add_assoc, Nat.add_assoc]
  rfl

/- Pages that have a 4KB page in common are one page. -/
theorem Inv.same_page
    (hIndexed : Indexed cfg)
    (hInv : Inv cfg h)
    {size size' : HugePageSize}
    {i j : Nat}
    {page page' : HugePageInfo}
    (hGet : (h.pool size).pages[i]? = some page)
    (hGet' : (h.pool size').pages[j]? = some page')
    {ppn : Nat}
    (hCovers : Covers size page ppn)
    (hCovers' : Covers size' page' ppn) :
    size = size' ∧ i = j := by
  rcases hInv.place_of_covers hGet hCovers with
    ⟨hLt, k, hK, hPpn⟩
  rcases hInv.place_of_covers hGet' hCovers' with
    ⟨hLt', k', hK', hPpn'⟩
  have hCongr : place cfg size i k ≡
      place cfg size' j k' [MOD 2 ^ 64] :=
    Nat.ModEq.add_left_cancel' cfg.poolBasePpn.toNat
      (hPpn.symm.trans hPpn')
  have hPlace : place cfg size i k = place cfg size' j k' :=
    hCongr.eq_of_lt_of_lt (place_lt hIndexed hLt hK)
      (place_lt hIndexed hLt' hK')
  exact place_inj hLt hLt' hK hK' hPlace

/- Indexed pools are accounted for exactly. -/
theorem Inv.exact
    (hIndexed : Indexed cfg)
    (hInv : Inv cfg h) :
    Exact h := by
  refine ⟨hInv.counted, ?_, ?_, ?_⟩
  · rintro app app' ppn
      ⟨size, page, hMem, hOwn, hCovers⟩
      ⟨size', page', hMem', hOwn', hCovers'⟩
    rcases List.mem_iff_getElem?.mp hMem with ⟨i, hGet⟩
    rcases List.mem_iff_getElem?.mp hMem' with ⟨j, hGet'⟩
    rcases hInv.same_page hIndexed hGet hGet' hCovers
        hCovers' with ⟨hSize, hIndex⟩
    subst hSize
    subst hIndex
    rw [hGet, Option.some.injEq] at hGet'
    subst hGet'
    simp only [HugePool.ownedBy, Bool.and_eq_true,
      beq_iff_eq] at hOwn hOwn'
    exact hOwn.2.symm.trans hOwn'.2
  · intro page hMem page' hMem' ppn hCovers hCovers'
    rcases List.mem_iff_getElem?.mp hMem with ⟨i, hGet⟩
    rcases List.mem_iff_getElem?.mp hMem' with ⟨j, hGet'⟩
    have hSame := hInv.same_page hIndexed
      (show (h.pool .size2mb).pages[i]? = some page from hGet)
      (show (h.pool .size1gb).pages[j]? = some page' from
        hGet') hCovers hCovers'
    exact absurd hSame.1 (by decide)
  · intro app vaddr size
    have hLength : (h.pool size).pages.length ≤ 2 ^ 31 := by
      rw [hInv.length size]
      exact hIndexed size
    rw [(hInv.counted size).free]
    by_cases hEnabled : h.enabled = true
    · rcases allocateHugePage_spec hEnabled hLength app vaddr with
        ⟨hOut, hCount⟩ | ⟨i, page, hGet, hFree, hOut⟩
      · rw [hOut]
        exact ⟨fun _ => hCount, fun _ => rfl⟩
      · rw [hOut]
        refine ⟨fun hNone => by simp at hNone, fun hCount => ?_⟩
        rw [List.countP_eq_zero] at hCount
        have hUse := hCount page (List.mem_of_getElem? hGet)
        simp [hFree] at hUse
    · have hPages : (h.pool size).pages = [] := by
        rw [← List.length_eq_zero_iff, hInv.length size]
        rw [hInv.enabled] at hEnabled
        simp [count, hEnabled]
      rw [hPages]
      simp [allocateHugePage, hEnabled]

/- The pages of a pool are taken in order. -/
structure Filled (p : HugePool) (k : Nat) : Prop where
  taken : ∀ i page,
    p.pages[i]? = some page → (page.inUse = true ↔ i < k)
  free : p.freeHugepages + k = p.pages.length

theorem filled_construct
    (cfg : HugeTlbfsConfig)
    (size : HugePageSize) :
    Filled ((construct cfg).pool size) 0 := by
  have hInit : ∀ b n c,
      Filled (HugePool.initializePool b n c) 0 := by
    intro b n c
    refine ⟨fun i page hGet => ?_, ?_⟩
    · have hMem := List.mem_of_getElem? hGet
      simp only [HugePool.initializePool, List.mem_map] at hMem
      rcases hMem with ⟨j, -, hPage⟩
      simp [← hPage]
    · simp [HugePool.initializePool]
  rw [construct_pool]
  split_ifs
  · exact hInit _ _ _
  · exact hInit _ _ _

/- The first free page of a filled pool. -/
theorem Filled.findIdx
    {k : Nat}
    (hFilled : Filled p k)
    (hLt : k < p.pages.length) :
    p.pages.findIdx? (fun page => !page.inUse) = some k := by
  rw [List.findIdx?_eq_some_iff_getElem]
  refine ⟨hLt, ?_, fun j hJ => ?_⟩
  · have hTaken := hFilled.taken k _ (List.getElem?_eq_getElem hLt)
    simpa using hTaken
  · have hTaken := hFilled.taken j _
      (List.getElem?_eq_getElem (Nat.lt_trans hJ hLt))
    simp [hTaken.mpr hJ]

theorem Filled.take
    {k : Nat}
    (hFilled : Filled p k)
    (hLt : k < p.pages.length)
    (hLength : p.pages.length < 2 ^ 64)
    {page : HugePageInfo}
    (app : Int)
    (vaddr : Nat) :
    Filled (p.take k page app vaddr) (k + 1) := by
  have hFree := hFilled.free
  refine ⟨fun i page' hGet => ?_, ?_⟩
  · simp only [HugePool.take] at hGet
    rw [List.getElem?_set] at hGet
    split_ifs at hGet with hOwn
    · cases hGet
      simp only [true_iff]
      omega
    · have hTaken := hFilled.taken i page' hGet
      rw [hTaken]
      omega
  · simp only [HugePool.take, List.length_set]
    omega

/- The pages with small indices can all be taken. -/
theorem filled_run
    (cfg : HugeTlbfsConfig)
    (hEnabled : cfg.enabled = true)
    (size : HugePageSize)
    (k : Nat)
    (hLe : k ≤ count cfg size)
    (hIndex : k ≤ 2 ^ 31) :
    ∃ h, Run.run step (construct cfg)
        (List.replicate k (.allocateHugePage 0 0 size)) = some h ∧
      h.enabled = true ∧ Filled (h.pool size) k ∧
      (h.pool size).pages.length = count cfg size := by
  induction k with
  | zero =>
      refine ⟨construct cfg, rfl, ?_,
        filled_construct cfg size, length_construct cfg size⟩
      simp [construct, hEnabled]
  | succ k ih =>
      rcases ih (by omega) (by omega) with
        ⟨h, hRun, hOn, hFilled, hLength⟩
      have hLt : k < (h.pool size).pages.length := by omega
      have hIdx : (h.pool size).findFreeHugePage = k := by
        rw [HugePool.findFreeHugePage, hFilled.findIdx hLt]
        exact toInt32_of_lt (by omega)
      have hGet := List.getElem?_eq_getElem hLt
      have hNat : ¬ (k : Int) < 0 := by omega
      have hOut : (h.allocateHugePage 0 0 size).2 =
          h.setPool size ((h.pool size).take k
            (h.pool size).pages[k] 0 0) := by
        simp only [allocateHugePage, hOn, if_true, hIdx,
          if_neg hNat, Int.toNat_natCast, hGet]
      refine ⟨(h.allocateHugePage 0 0 size).2, ?_, ?_, ?_, ?_⟩
      · rw [List.replicate_succ', Run.run_append_of_some _ hRun,
          Run.run_cons_of_some _ rfl, Run.run_nil]
      · rw [hOut, enabled_setPool]
        exact hOn
      · rw [hOut, pool_setPool, if_pos rfl]
        apply hFilled.take hLt
        rw [hLength]
        exact count_lt cfg size
      · rw [hOut, pool_setPool, if_pos rfl, HugePool.take,
          List.length_set, hLength]

/-
  The first free index of a large pool becomes negative, so
  the allocation fails although pages are free.
-/
theorem not_exact_of_large
    {cfg : HugeTlbfsConfig}
    (size : HugePageSize)
    (hLarge : 2 ^ 31 < count cfg size) :
    ¬ ∀ ops h, Run.run step (construct cfg) ops = some h →
      Exact h := by
  intro hExact
  rcases filled_run cfg (enabled_of_lt_count hLarge) size
      (2 ^ 31) (Nat.le_of_lt hLarge) (Nat.le_refl _) with
    ⟨h, hRun, hOn, hFilled, hLength⟩
  have hLt : 2 ^ 31 < (h.pool size).pages.length := by
    rw [hLength]
    exact hLarge
  have hIdx : (h.pool size).findFreeHugePage = -2 ^ 31 := by
    rw [HugePool.findFreeHugePage, hFilled.findIdx hLt]
    decide
  have hNone : (h.allocateHugePage 0 0 size).1 = none := by
    simp [allocateHugePage, hOn, hIdx]
  have hZero := ((hExact _ h hRun).fails 0 0 size).mp hNone
  have hFree := hFilled.free
  omega

/-
  The accounting is exact in every reachable state if and
  only if the service is disabled or no pool has more than
  `2 ^ 31` pages.
-/
theorem exact_run_iff
    (cfg : HugeTlbfsConfig) :
    (∀ ops h, Run.run step (construct cfg) ops = some h → Exact h) ↔
      cfg.enabled = false ∨
        (cfg.nrHugepages2mb.toNat ≤ 2 ^ 31 ∧
          cfg.nrHugepages1gb.toNat ≤ 2 ^ 31) := by
  refine ⟨fun hExact => ?_, fun hSmall ops h hRun => ?_⟩
  · by_contra hLarge
    rw [not_or, Bool.not_eq_false, not_and_or, not_le,
      not_le] at hLarge
    rcases hLarge with ⟨hEnabled, hLarge | hLarge⟩
    · refine not_exact_of_large .size2mb ?_ hExact
      simpa [count, hEnabled] using hLarge
    · refine not_exact_of_large .size1gb ?_ hExact
      simpa [count, hEnabled] using hLarge
  · have hIndexed : Indexed cfg := by
      intro size
      rcases hSmall with hDisabled | ⟨h2mb, h1gb⟩
      · simp [count, hDisabled]
      · unfold count
        cases size with
        | size2mb => split_ifs <;> omega
        | size1gb => split_ifs <;> omega
    have hInv : Inv cfg h :=
      Run.run_invariant
        (fun _ _ _ hInv hStep => inv_step hIndexed hInv hStep)
        (inv_construct cfg) hRun
    exact hInv.exact hIndexed

/- A pool of one page more. -/
theorem not_exact_run_large :
    ¬ ∀ ops h,
      Run.run step (construct
        ⟨true, 2147483649, 0, 0⟩) ops = some h → Exact h :=
  not_exact_of_large .size2mb (by decide)

end HugeTlbfs

end Virtuoso
