import Virtuoso.CxlTier.Accounting
import Virtuoso.Lib.Run

/-
  The calls of the memory tier manager.

  Every placement and every migration keeps the counters and
  the hot and cold sets in step with the tracked pages, but
  the interleaving does not ask whether local DRAM has room.

  Main declarations:
    * `CxlMemoryTierManager.behaves_iff`
    * `CxlMemoryTierManager.along_behaves_iff`
-/

------------------------------------------------------------
-- The Invariant
------------------------------------------------------------

namespace Virtuoso

namespace CxlMemoryTierManager

/- The counters and sets agree with the tracked pages. -/
structure Sound (m : CxlMemoryTierManager) : Prop where
  used : ∀ t, m.usedBytes t = cxlPageSize * m.pageCount t
  capacity : m.usedBytes .localDram ≤ m.capacityBytes .localDram
  split :
    m.config.policy = .hotCold →
      ∀ page info, m.pageTable.lookup page = some info →
        Xor (page ∈ m.hotPages) (page ∈ m.coldPages)

/- Every tracked page stays tracked in its tier. -/
def SameTiers (m m' : CxlMemoryTierManager) : Prop :=
  ∀ page info, m.pageTable.lookup page = some info →
    ∃ info', m'.pageTable.lookup page = some info' ∧
      info'.tier = info.tier

/- No subtraction of a migration underflows. -/
def NoUnderflow
    (m : CxlMemoryTierManager)
    (w : Walk) : Prop :=
  m.config.policy = .hotCold →
    Run.Along (fun m page => some (tryPromotePage m page))
      Covered m (m.pagesToPromote w) ∧
    Run.Along (fun m page => some (tryDemotePage m page))
      Covered (m.promotePages w)
      ((m.promotePages w).pagesToDemote w)

/- Only a migration changes the tier of a page. -/
def Moves (m : CxlMemoryTierManager) : Call → Prop
| .getTier address => m.SameTiers (m.getTier address).2
| .recordAccess address time =>
    m.SameTiers (m.recordAccess address time)
| .checkMigration w => m.NoUnderflow w

/- What is asked of a call. -/
def Behaves (m : CxlMemoryTierManager) (c : Call) : Prop :=
  (m.next c).Sound ∧ m.Moves c

/-
  The placement of a new page leaves local DRAM within its
  capacity and does not wrap the bytes used.
-/
def Fits (m : CxlMemoryTierManager) : Call → Prop
| .getTier address =>
    m.config.enabled = true →
    m.pageTable.lookup (getPageNumber address) = none →
    match m.config.policy with
    | .firstTouch =>
        (m.tierInfo .localDram).HasRoom ∨
          m.usedBytes .cxlNear + cxlPageSize < 2 ^ 64
    | .hotCold =>
        m.usedBytes .cxlNear + cxlPageSize < 2 ^ 64
    | .interleave =>
        if m.currentInterleaveTier = .localDram then
          m.usedBytes .localDram + cxlPageSize ≤
            m.capacityBytes .localDram
        else
          m.usedBytes m.currentInterleaveTier + cxlPageSize < 2 ^ 64
    | _ => True
| _ => True

/- The state after a new page is placed in a tier. -/
structure Places
    (m m' : CxlMemoryTierManager)
    (page : Nat)
    (t : MemoryTier) : Prop where
  fresh : m.pageTable.lookup page = none
  pages : m'.pageTable = (m.track page t).pageTable
  tiers : m'.tierInfo = (m.track page t).tierInfo
  config : m'.config = m.config
  hot : m'.hotPages = m.hotPages
  cold :
    m.config.policy = .hotCold →
      t = .cxlNear ∧ m'.coldPages = m.coldPages.insert page

/- Tiers behind the link have no capacity check. -/
theorem fitsIn_iff_of_ne
    (m : CxlMemoryTierManager)
    {t : MemoryTier}
    (hTier : t ≠ .localDram) :
    m.FitsIn t ↔ m.usedBytes t + cxlPageSize < 2 ^ 64 := by
  constructor
  · intro hFits
    exact hFits.1
  · intro hLt
    exact ⟨hLt, fun hEq => absurd hEq hTier⟩

variable {m : CxlMemoryTierManager}

theorem places_firstTouch
    {page : Nat}
    (hNew : m.pageTable.lookup page = none)
    (hPolicy : m.config.policy = .firstTouch) :
    m.Places (m.getTierFirstTouch page).2 page
      m.firstTouchTier := by
  rw [getTierFirstTouch, hNew]
  refine ⟨hNew, rfl, rfl, rfl, rfl, fun hOther => ?_⟩
  rw [hPolicy] at hOther
  cases hOther

theorem places_hotCold
    {page : Nat}
    (hNew : m.pageTable.lookup page = none) :
    m.Places (m.getTierHotCold page).2 page .cxlNear := by
  rw [getTierHotCold, hNew]
  exact ⟨hNew, rfl, rfl, rfl, rfl, fun _ => ⟨rfl, rfl⟩⟩

/- Only the turn of the interleaving is advanced. -/
theorem advanceInterleave_eq
    (m : CxlMemoryTierManager) :
    ∃ counter tier,
      m.advanceInterleave =
        { m with
          interleaveCounter := counter
          currentInterleaveTier := tier } := by
  unfold advanceInterleave
  dsimp only
  split_ifs
  · exact ⟨_, _, rfl⟩
  · exact ⟨_, m.currentInterleaveTier, rfl⟩

theorem places_interleave
    {page : Nat}
    (hNew : m.pageTable.lookup page = none)
    (hPolicy : m.config.policy = .interleave) :
    m.Places (m.getTierInterleave page).2 page
      m.currentInterleaveTier := by
  rcases m.advanceInterleave_eq with ⟨counter, tier, hEq⟩
  rw [getTierInterleave, hNew]
  dsimp only
  rw [hEq]
  refine ⟨hNew, rfl, rfl, rfl, rfl, fun hOther => ?_⟩
  rw [hPolicy] at hOther
  cases hOther

/- The first touch takes local DRAM where it has room. -/
theorem Accounted.fitsIn_firstTouch_iff
    (hBooks : m.Accounted) :
    m.FitsIn m.firstTouchTier ↔
      (m.tierInfo .localDram).HasRoom ∨
        m.usedBytes .cxlNear + cxlPageSize < 2 ^ 64 := by
  by_cases hRoom : (m.tierInfo .localDram).HasRoom
  · have hTier : m.firstTouchTier = .localDram := by
      rw [firstTouchTier, if_pos hRoom]
    rw [hTier, hBooks.fitsIn_localDram_iff, ← hBooks.hasRoom_iff]
    exact (or_iff_left_of_imp fun _ => hRoom).symm
  · have hTier : m.firstTouchTier = .cxlNear := by
      rw [firstTouchTier, if_neg hRoom, ite_self]
    rw [hTier, fitsIn_iff_of_ne m (by decide)]
    exact (or_iff_right hRoom).symm

/-
  A call of `getTier` changes nothing, or it places a new
  page.
-/
theorem getTier_cases
    (hBooks : m.Accounted)
    (address : BitVec 64) :
    ((m.getTier address).2 = m ∧ m.Fits (.getTier address)) ∨
      ∃ t, m.Places (m.getTier address).2
          (getPageNumber address) t ∧
        (m.Fits (.getTier address) ↔ m.FitsIn t) := by
  cases hEnabled : m.config.enabled with
  | false =>
      left
      simp [getTier, Fits, hEnabled]
  | true =>
      cases hLookup :
          m.pageTable.lookup (getPageNumber address) with
      | some info =>
          left
          constructor
          · cases hPolicy : m.config.policy <;>
              simp [getTier, hEnabled, hPolicy, hLookup,
                getTierFirstTouch, getTierHotCold,
                getTierInterleave]
          · simp [Fits, hLookup]
      | none =>
          cases hPolicy : m.config.policy with
          | addressRange =>
              left
              simp [getTier, Fits, hEnabled, hPolicy]
          | allLocal =>
              left
              simp [getTier, Fits, hEnabled, hPolicy]
          | allCxl =>
              left
              simp [getTier, Fits, hEnabled, hPolicy]
          | firstTouch =>
              right
              refine ⟨m.firstTouchTier, ?_, ?_⟩
              · simp only [getTier, hEnabled, hPolicy]
                exact places_firstTouch hLookup hPolicy
              · rw [hBooks.fitsIn_firstTouch_iff]
                simp only [Fits, hEnabled, hLookup, hPolicy,
                  forall_const]
          | hotCold =>
              right
              refine ⟨.cxlNear, ?_, ?_⟩
              · simp only [getTier, hEnabled, hPolicy]
                exact places_hotCold hLookup
              · rw [fitsIn_iff_of_ne m (by decide)]
                simp only [Fits, hEnabled, hLookup, hPolicy,
                  forall_const]
          | interleave =>
              right
              refine ⟨m.currentInterleaveTier, ?_, ?_⟩
              · simp only [getTier, hEnabled, hPolicy]
                exact places_interleave hLookup hPolicy
              · simp only [Fits, hEnabled, hLookup, hPolicy,
                  forall_const]
                by_cases hTurn :
                    m.currentInterleaveTier = .localDram
                · rw [if_pos hTurn, hTurn,
                    hBooks.fitsIn_localDram_iff]
                · rw [if_neg hTurn, fitsIn_iff_of_ne m hTurn]

/- What holds in every state, until a page does not fit. -/
structure Inv (m : CxlMemoryTierManager) : Prop where
  books : m.Accounted
  split :
    m.config.policy = .hotCold →
      ∀ page info, m.pageTable.lookup page = some info →
        Xor (page ∈ m.hotPages) (page ∈ m.coldPages)
  hot : ∀ page ∈ m.hotPages, m.pageTable.lookup page ≠ none
  cold :
    m.config.policy = .hotCold →
      ∀ page ∈ m.coldPages,
        ∀ info, m.pageTable.lookup page = some info →
          info.tier ≠ .localDram

theorem Inv.sound
    (hInv : m.Inv) :
    m.Sound where
  used := hInv.books.used
  capacity := hInv.books.capacity
  split := hInv.split

/- Whole gigabytes leave room for one more page. -/
theorem gigabytes_lt
    (gb : Int) :
    CxlConfig.gigabytes gb + cxlPageSize < 2 ^ 64 := by
  have hSize : cxlPageSize = 4096 := rfl
  unfold CxlConfig.gigabytes
  omega

theorem inv_init
    (c : CxlConfig) :
    (init c).Inv where
  books :=
    { keys := List.nodup_nil
      used := fun t => by cases t <;> rfl
      bounded := fun t => by
        cases t <;> exact Nat.two_pow_pos 64
      capacity := Nat.zero_le _
      small := gigabytes_lt c.localDramCapacityGb }
  split _ page info hLookup := by
    simp [init] at hLookup
  hot page hHot := by
    simp [init] at hHot
  cold _ page hCold := by
    simp [init] at hCold

namespace Places

variable {m m' : CxlMemoryTierManager}
variable {page : Nat} {t : MemoryTier}
variable (hPlaces : m.Places m' page t)

include hPlaces

theorem usedBytes_eq
    (t' : MemoryTier) :
    m'.usedBytes t' = (m.track page t).usedBytes t' := by
  unfold usedBytes
  rw [hPlaces.tiers]

theorem capacityBytes_eq
    (t' : MemoryTier) :
    m'.capacityBytes t' = (m.track page t).capacityBytes t' := by
  unfold capacityBytes
  rw [hPlaces.tiers]

theorem lookup_eq
    (page' : Nat) :
    m'.pageTable.lookup page' =
      if page' = page then some (PageInfo.fresh t)
      else m.pageTable.lookup page' := by
  rw [hPlaces.pages, lookup_track]

theorem sameTiers :
    m.SameTiers m' := by
  intro page' info hLookup
  have hOther : page' ≠ page := by
    intro hEq
    rw [hEq, hPlaces.fresh] at hLookup
    cases hLookup
  refine ⟨info, ?_, rfl⟩
  rw [hPlaces.lookup_eq, if_neg hOther]
  exact hLookup

/- The new page fits where the next state is sound. -/
theorem fitsIn_of_sound
    (hBooks : m.Accounted)
    (hSound : m'.Sound) :
    m.FitsIn t := by
  have hCount : m'.pageCount t = (m.track page t).pageCount t := by
    unfold pageCount
    rw [hPlaces.pages]
  apply hBooks.fitsIn_of_track hPlaces.fresh
  · rw [← hPlaces.usedBytes_eq, ← hCount]
    exact hSound.used t
  · rw [← hPlaces.usedBytes_eq, ← hPlaces.capacityBytes_eq]
    exact hSound.capacity

/- A page that fits keeps the invariant. -/
theorem inv
    (hInv : m.Inv)
    (hFits : m.FitsIn t) :
    m'.Inv where
  books :=
    (hInv.books.track hPlaces.fresh hFits).of_eq
      hPlaces.pages hPlaces.usedBytes_eq
      hPlaces.capacityBytes_eq
  split hPolicy page' info hLookup := by
    rw [hPlaces.config] at hPolicy
    rw [hPlaces.hot, (hPlaces.cold hPolicy).2]
    rw [hPlaces.lookup_eq] at hLookup
    by_cases hOwn : page' = page
    · have hNotHot : page' ∉ m.hotPages := by
        intro hHot
        exact hInv.hot page' hHot (hOwn ▸ hPlaces.fresh)
      exact Or.inr ⟨List.mem_insert_iff.mpr (Or.inl hOwn), hNotHot⟩
    · rw [if_neg hOwn] at hLookup
      rw [List.mem_insert_iff, or_iff_right hOwn]
      exact hInv.split hPolicy page' info hLookup
  hot page' hHot := by
    rw [hPlaces.hot] at hHot
    rw [hPlaces.lookup_eq]
    by_cases hOwn : page' = page
    · rw [if_pos hOwn]
      exact Option.some_ne_none _
    · rw [if_neg hOwn]
      exact hInv.hot page' hHot
  cold hPolicy page' hCold info hLookup := by
    rw [hPlaces.config] at hPolicy
    rcases hPlaces.cold hPolicy with ⟨hTier, hInsert⟩
    rw [hInsert, List.mem_insert_iff] at hCold
    rw [hPlaces.lookup_eq] at hLookup
    by_cases hOwn : page' = page
    · rw [if_pos hOwn, Option.some.injEq] at hLookup
      rw [← hLookup, PageInfo.fresh, hTier]
      decide
    · rw [if_neg hOwn] at hLookup
      exact hInv.cold hPolicy page'
        (hCold.resolve_left hOwn) info hLookup

end Places

/- The state after an access to a tracked page. -/
structure Accesses
    (m m' : CxlMemoryTierManager)
    (page : Nat)
    (old info : PageInfo) : Prop where
  found : m.pageTable.lookup page = some old
  tier : info.tier = old.tier
  pages : m'.pageTable = Assoc.insert m.pageTable page info
  used : ∀ t, m'.usedBytes t = m.usedBytes t
  capacity : ∀ t, m'.capacityBytes t = m.capacityBytes t
  config : m'.config = m.config
  sets :
    (m'.hotPages = m.hotPages ∧ m'.coldPages = m.coldPages) ∨
      (m'.hotPages = m.hotPages.insert page ∧
        m'.coldPages = m.coldPages.filter (fun p => p ≠ page))

/- Counting an access leaves the bytes of the tiers. -/
theorem usedBytes_countAccess
    (m : CxlMemoryTierManager)
    (t t' : MemoryTier) :
    (m.updateTier t TierInfo.countAccess).usedBytes t' =
      m.usedBytes t' := by
  rw [usedBytes_updateTier]
  by_cases hTier : t' = t
  · rw [if_pos hTier, hTier]
    rfl
  · rw [if_neg hTier]

theorem recordAccess_cases
    (m : CxlMemoryTierManager)
    (address : BitVec 64)
    (time : Nat) :
    m.recordAccess address time = m ∨
      ∃ old info, m.Accesses (m.recordAccess address time)
        (getPageNumber address) old info := by
  cases hEnabled : m.config.enabled with
  | false =>
      left
      simp [recordAccess, hEnabled]
  | true =>
      cases hLookup :
          m.pageTable.lookup (getPageNumber address) with
      | none =>
          left
          simp [recordAccess, hEnabled, hLookup]
      | some old =>
          right
          have hUsed :=
            m.usedBytes_countAccess (accessed old time).tier
          have hLimit :=
            fun t => m.capacityBytes_updateTier
              (accessed old time).tier t
              TierInfo.capacityBytes_countAccess
          by_cases hHot : m.turnsHot (accessed old time)
          · refine ⟨old,
              { accessed old time with isHot := true }, ?_⟩
            simp only [recordAccess, hEnabled, hLookup,
              if_pos hHot, Bool.not_true, Bool.false_eq_true,
              if_false]
            exact ⟨hLookup, rfl, rfl, hUsed, hLimit, rfl,
              Or.inr ⟨rfl, rfl⟩⟩
          · refine ⟨old, accessed old time, ?_⟩
            simp only [recordAccess, hEnabled, hLookup,
              if_neg hHot, Bool.not_true, Bool.false_eq_true,
              if_false]
            exact ⟨hLookup, rfl, rfl, hUsed, hLimit, rfl,
              Or.inl ⟨rfl, rfl⟩⟩

namespace Accesses

variable {m m' : CxlMemoryTierManager}
variable {page : Nat} {old info : PageInfo}
variable (hAccess : m.Accesses m' page old info)

include hAccess

theorem lookup_eq
    (page' : Nat) :
    m'.pageTable.lookup page' =
      if page' = page then some info
      else m.pageTable.lookup page' := by
  rw [hAccess.pages, Assoc.lookup_insert]

/- The same pages are tracked, in the same tiers. -/
theorem exists_lookup
    {page' : Nat}
    {info' : PageInfo}
    (hLookup : m'.pageTable.lookup page' = some info') :
    ∃ before, m.pageTable.lookup page' = some before ∧
      before.tier = info'.tier := by
  rw [hAccess.lookup_eq] at hLookup
  by_cases hOwn : page' = page
  · rw [if_pos hOwn, Option.some.injEq] at hLookup
    refine ⟨old, hOwn ▸ hAccess.found, ?_⟩
    rw [← hLookup, hAccess.tier]
  · rw [if_neg hOwn] at hLookup
    exact ⟨info', hLookup, rfl⟩

theorem sameTiers :
    m.SameTiers m' := by
  intro page' info' hLookup
  rw [hAccess.lookup_eq]
  by_cases hOwn : page' = page
  · rw [if_pos hOwn]
    rw [hOwn, hAccess.found, Option.some.injEq] at hLookup
    exact ⟨info, rfl, hLookup ▸ hAccess.tier⟩
  · rw [if_neg hOwn]
    exact ⟨info', hLookup, rfl⟩

theorem inv
    (hInv : m.Inv) :
    m'.Inv where
  books :=
    (hInv.books.setPage hAccess.found hAccess.tier).of_eq
      hAccess.pages hAccess.used hAccess.capacity
  split hPolicy page' info' hLookup := by
    rw [hAccess.config] at hPolicy
    rcases hAccess.exists_lookup hLookup with
      ⟨before, hBefore, -⟩
    have hOld := hInv.split hPolicy page' before hBefore
    rcases hAccess.sets with ⟨hHot, hCold⟩ | ⟨hHot, hCold⟩
    · rw [hHot, hCold]
      exact hOld
    · rw [hHot, hCold, List.mem_insert_iff, List.mem_filter]
      by_cases hOwn : page' = page
      · exact Or.inl ⟨Or.inl hOwn, by simp [hOwn]⟩
      · simpa [hOwn] using hOld
  hot page' hHot := by
    rw [hAccess.lookup_eq]
    by_cases hOwn : page' = page
    · rw [if_pos hOwn]
      exact Option.some_ne_none _
    · rw [if_neg hOwn]
      apply hInv.hot page'
      rcases hAccess.sets with ⟨hSame, -⟩ | ⟨hInsert, -⟩
      · rwa [hSame] at hHot
      · rw [hInsert, List.mem_insert_iff] at hHot
        exact hHot.resolve_left hOwn
  cold hPolicy page' hCold info' hLookup := by
    rw [hAccess.config] at hPolicy
    rcases hAccess.exists_lookup hLookup with
      ⟨before, hBefore, hTier⟩
    have hOld : page' ∈ m.coldPages := by
      rcases hAccess.sets with ⟨-, hSame⟩ | ⟨-, hFilter⟩
      · rwa [hSame] at hCold
      · rw [hFilter] at hCold
        exact List.mem_of_mem_filter hCold
    exact hTier ▸ hInv.cold hPolicy page' hOld before hBefore

end Accesses

------------------------------------------------------------
-- Migrations And Runs
------------------------------------------------------------

theorem lookup_movePage
    (m : CxlMemoryTierManager)
    (page : Nat)
    (info : PageInfo)
    (t : MemoryTier)
    (page' : Nat) :
    (m.movePage page info t).pageTable.lookup page' =
      if page' = page then some { info with tier := t }
      else m.pageTable.lookup page' :=
  Assoc.lookup_insert m.pageTable page _ page'

/- A hot page that moves to local DRAM. -/
theorem Inv.movePage
    (hInv : m.Inv)
    {page : Nat}
    {info : PageInfo}
    (hHot : page ∈ m.hotPages)
    (hLookup : m.pageTable.lookup page = some info)
    (hTier : info.tier ≠ .localDram)
    (hFits : m.FitsIn .localDram) :
    (m.movePage page info .localDram).Inv where
  books := hInv.books.movePage hLookup hTier hFits
  split hPolicy page' info' hFound := by
    rw [lookup_movePage] at hFound
    by_cases hOwn : page' = page
    · exact hInv.split hPolicy page' info (hOwn ▸ hLookup)
    · rw [if_neg hOwn] at hFound
      exact hInv.split hPolicy page' info' hFound
  hot page' hMem := by
    rw [lookup_movePage]
    by_cases hOwn : page' = page
    · rw [if_pos hOwn]
      exact Option.some_ne_none _
    · rw [if_neg hOwn]
      exact hInv.hot page' hMem
  cold hPolicy page' hCold info' hFound := by
    rw [lookup_movePage] at hFound
    by_cases hOwn : page' = page
    · subst hOwn
      rcases hInv.split hPolicy page' info hLookup with
        ⟨-, hNotCold⟩ | ⟨-, hNotHot⟩
      · exact absurd hCold hNotCold
      · exact absurd hHot hNotHot
    · rw [if_neg hOwn] at hFound
      exact hInv.cold hPolicy page' hCold info' hFound

/- The counts of migrations are not part of the invariant. -/
theorem Inv.withCounts
    (hInv : m.Inv)
    (promoted failures : Nat) :
    Inv
      { m with
        pagesPromoted := promoted
        promotionFailures := failures } where
  books :=
    hInv.books.of_eq rfl (fun _ => rfl) (fun _ => rfl)
  split := hInv.split
  hot := hInv.hot
  cold := hInv.cold

/- A hot page is promoted, or it stays where it is. -/
theorem Inv.tryPromotePage
    (hInv : m.Inv)
    {page : Nat}
    (hHot : page ∈ m.hotPages) :
    (m.tryPromotePage page).Inv ∧
      (m.tryPromotePage page).hotPages = m.hotPages ∧
      (m.tryPromotePage page).config = m.config := by
  unfold CxlMemoryTierManager.tryPromotePage
  cases hLookup : m.pageTable.lookup page with
  | none => exact ⟨hInv, rfl, rfl⟩
  | some info =>
      dsimp only
      by_cases hLocal : info.tier = .localDram
      · rw [if_pos hLocal]
        exact ⟨hInv, rfl, rfl⟩
      · rw [if_neg hLocal]
        by_cases hRoom : (m.tierInfo .localDram).HasRoom
        · have hFits : m.FitsIn .localDram :=
            hInv.books.fitsIn_localDram_iff.mpr
              (hInv.books.hasRoom_iff.mp hRoom)
          have hMoved :=
            hInv.movePage hHot hLookup hLocal hFits
          rw [if_neg (not_not_intro hRoom)]
          exact ⟨hMoved.withCounts _ _, rfl, rfl⟩
        · rw [if_pos hRoom]
          exact ⟨hInv.withCounts _ _, rfl, rfl⟩

/-
  The loop over the hot pages: each promotion finds the books
  in order, and leaves them so.
-/
theorem Inv.promoteAll
    (hInv : m.Inv)
    (pages : List Nat)
    (hHot : ∀ page ∈ pages, page ∈ m.hotPages) :
    (pages.foldl CxlMemoryTierManager.tryPromotePage m).Inv ∧
      (pages.foldl
        CxlMemoryTierManager.tryPromotePage m).config = m.config ∧
      Run.Along
        (fun m page =>
          some (CxlMemoryTierManager.tryPromotePage m page))
        Covered m pages := by
  induction pages generalizing m with
  | nil => exact ⟨hInv, rfl, trivial⟩
  | cons page pages ih =>
      rcases hInv.tryPromotePage (hHot page List.mem_cons_self) with
        ⟨hNext, hSame, hConfig⟩
      have hRest :
          ∀ p ∈ pages, p ∈ (m.tryPromotePage page).hotPages := by
        intro p hMem
        rw [hSame]
        exact hHot p (List.mem_cons_of_mem page hMem)
      rcases ih hNext hRest with ⟨hEnd, hKeep, hAlong⟩
      refine ⟨hEnd, hKeep.trans hConfig, ?_⟩
      rw [Run.along_cons_of_some pages rfl]
      exact ⟨hInv.books.covered page, hAlong⟩

theorem Inv.promotePages
    (hInv : m.Inv)
    (w : Walk) :
    (m.promotePages w).Inv ∧
      (m.promotePages w).config = m.config ∧
      Run.Along
        (fun m page =>
          some (CxlMemoryTierManager.tryPromotePage m page))
        Covered m (m.pagesToPromote w) := by
  apply hInv.promoteAll
  intro page hMem
  exact (w.hotPerm m.hotPages).mem_iff.mp
    (List.mem_of_mem_filter hMem)

/- Cold pages are outside local DRAM already. -/
theorem Inv.pagesToDemote_eq_nil
    (hInv : m.Inv)
    (hPolicy : m.config.policy = .hotCold)
    (w : Walk) :
    m.pagesToDemote w = [] := by
  unfold pagesToDemote
  rw [List.filter_eq_nil_iff]
  intro page hMem hInside
  have hCold := (w.coldPerm m.coldPages).mem_iff.mp hMem
  unfold trackedInside at hInside
  cases hLookup : m.pageTable.lookup page with
  | none => simp [hLookup] at hInside
  | some info =>
      simp only [hLookup, decide_eq_true_eq] at hInside
      exact hInv.cold hPolicy page hCold info hLookup hInside

theorem Inv.noUnderflow
    (hInv : m.Inv)
    (w : Walk) :
    m.NoUnderflow w := by
  intro hPolicy
  rcases hInv.promotePages w with ⟨hNext, hConfig, hAlong⟩
  refine ⟨hAlong, ?_⟩
  rw [hNext.pagesToDemote_eq_nil (hConfig ▸ hPolicy) w]
  trivial

theorem Inv.checkMigration
    (hInv : m.Inv)
    (w : Walk) :
    (m.checkMigration w).Inv := by
  rcases hInv.promotePages w with ⟨hNext, hConfig, -⟩
  unfold CxlMemoryTierManager.checkMigration
  dsimp only
  split_ifs with hOff
  · exact hInv
  · have hPolicy : m.config.policy = .hotCold := by
      simp only [Bool.or_eq_true, not_or, bne_iff_ne,
        ne_eq, not_not] at hOff
      exact hOff.2
    rw [hNext.pagesToDemote_eq_nil (hConfig ▸ hPolicy) w]
    exact hNext
  · exact hNext

/- A call that fits keeps the invariant. -/
theorem Inv.next
    (hInv : m.Inv)
    {c : Call}
    (hFits : m.Fits c) :
    (m.next c).Inv := by
  cases c with
  | getTier address =>
      rcases getTier_cases hInv.books address with
        ⟨hSame, -⟩ | ⟨t, hPlaces, hIff⟩
      · rw [CxlMemoryTierManager.next, hSame]
        exact hInv
      · exact hPlaces.inv hInv (hIff.mp hFits)
  | recordAccess address time =>
      rcases m.recordAccess_cases address time with
        hSame | ⟨old, info, hAccess⟩
      · rw [CxlMemoryTierManager.next, hSame]
        exact hInv
      · exact hAccess.inv hInv
  | checkMigration w => exact hInv.checkMigration w

/- No call but a migration moves a page. -/
theorem Inv.moves
    (hInv : m.Inv)
    (c : Call) :
    m.Moves c := by
  have hRefl : m.SameTiers m :=
    fun _ info hLookup => ⟨info, hLookup, rfl⟩
  cases c with
  | getTier address =>
      rcases getTier_cases hInv.books address with
        ⟨hSame, -⟩ | ⟨t, hPlaces, -⟩
      · rw [Moves, hSame]
        exact hRefl
      · exact hPlaces.sameTiers
  | recordAccess address time =>
      rcases m.recordAccess_cases address time with
        hSame | ⟨old, info, hAccess⟩
      · rw [Moves, hSame]
        exact hRefl
      · exact hAccess.sameTiers
  | checkMigration w => exact hInv.noUnderflow w

/- A call behaves exactly where its new page fits. -/
theorem behaves_iff
    (hInv : m.Inv)
    (c : Call) :
    m.Behaves c ↔ m.Fits c := by
  constructor
  · rintro ⟨hSound, -⟩
    cases c with
    | getTier address =>
        rcases getTier_cases hInv.books address with
          ⟨-, hFits⟩ | ⟨t, hPlaces, hIff⟩
        · exact hFits
        · exact hIff.mpr (hPlaces.fitsIn_of_sound hInv.books hSound)
    | recordAccess address time => trivial
    | checkMigration w => trivial
  · intro hFits
    exact ⟨(hInv.next hFits).sound, hInv.moves c⟩

/-
  Whatever the configuration, the calls of a run behave if
  and only if every new page fits the tier that it is given.
-/
theorem along_behaves_iff
    (config : CxlConfig)
    (calls : List Call) :
    Run.Along step Behaves (init config) calls ↔
      Run.Along step Fits (init config) calls := by
  apply Run.along_iff_along (I := Inv) (E := fun _ _ => True)
  · intro m c m' hInv _ hBehaves hStep
    rw [← Option.some.inj hStep]
    exact hInv.next ((behaves_iff hInv c).mp hBehaves)
  · intro m c hInv _
    exact behaves_iff hInv c
  · exact inv_init config
  · exact Run.along_of_forall_mem _ (fun _ _ => trivial)

/- Interleaving over one page at a time, without local DRAM. -/
def interleaved : CxlConfig where
  enabled := true
  policy := .interleave
  localDramCapacityGb := 0
  cxlCapacityGb := 64
  cxlStart := 2 ^ 44
  hotThreshold := 1000
  interleaveGranularity := 1
  aboveNineTenths used capacity :=
    decide (capacity * 9 < used * 10)
  withinEightTenths used capacity :=
    decide (used * 10 ≤ capacity * 8)

/- The first page is put in a local DRAM without room. -/
theorem not_along_behaves_interleaved :
    ¬ Run.Along step Behaves (init interleaved) [.getTier 0] := by
  rintro ⟨⟨hSound, -⟩, -⟩
  have hUsed :
      ¬ ((init interleaved).next (.getTier 0)).usedBytes
          .localDram ≤
        ((init interleaved).next (.getTier 0)).capacityBytes
          .localDram := by
    decide +kernel
  exact hUsed hSound.capacity

end CxlMemoryTierManager

end Virtuoso
