import Virtuoso.CxlTier.Basic

/-
  The bytes used in the memory tiers.

  The bytes used in a tier are those of the pages tracked in
  it, which a page that fits and a page that moves keep so.

  Main declarations:
    * `CxlMemoryTierManager.Accounted.covered`
    * `CxlMemoryTierManager.Accounted.movePage`
-/

namespace Virtuoso

namespace CxlMemoryTierManager

/- The tracked pages whose tier is `t`. -/
def pageCount
    (m : CxlMemoryTierManager)
    (t : MemoryTier) : Nat :=
  m.pageTable.countP (fun e => e.2.tier = t)

theorem usedBytes_updateTier
    (m : CxlMemoryTierManager)
    (t t' : MemoryTier)
    (f : TierInfo → TierInfo) :
    (m.updateTier t f).usedBytes t' =
      if t' = t then (f (m.tierInfo t)).usedBytes
      else m.usedBytes t' := by
  unfold usedBytes updateTier
  by_cases hTier : t' = t
  · rw [if_pos hTier, hTier]
    simp
  · rw [if_neg hTier]
    simp [Function.update_of_ne hTier]

/- No update changes the capacities. -/
theorem capacityBytes_updateTier
    (m : CxlMemoryTierManager)
    (t t' : MemoryTier)
    {f : TierInfo → TierInfo}
    (hKeep : ∀ i, (f i).capacityBytes = i.capacityBytes) :
    (m.updateTier t f).capacityBytes t' = m.capacityBytes t' := by
  unfold capacityBytes updateTier
  by_cases hTier : t' = t
  · rw [hTier]
    simp [hKeep]
  · simp [Function.update_of_ne hTier]

@[simp] theorem usedBytes_setPage
    (m : CxlMemoryTierManager)
    (page : Nat)
    (info : PageInfo)
    (t : MemoryTier) :
    (m.setPage page info).usedBytes t = m.usedBytes t := rfl

@[simp] theorem capacityBytes_setPage
    (m : CxlMemoryTierManager)
    (page : Nat)
    (info : PageInfo)
    (t : MemoryTier) :
    (m.setPage page info).capacityBytes t = m.capacityBytes t := rfl

@[simp] theorem pageTable_setPage
    (m : CxlMemoryTierManager)
    (page : Nat)
    (info : PageInfo) :
    (m.setPage page info).pageTable =
      Assoc.insert m.pageTable page info := rfl

theorem usedBytes_addPage
    (m : CxlMemoryTierManager)
    (t t' : MemoryTier) :
    (m.updateTier t TierInfo.addPage).usedBytes t' =
      if t' = t then (m.usedBytes t + cxlPageSize) % 2 ^ 64
      else m.usedBytes t' :=
  usedBytes_updateTier m t t' TierInfo.addPage

theorem usedBytes_removePage
    (m : CxlMemoryTierManager)
    (t t' : MemoryTier) :
    (m.updateTier t TierInfo.removePage).usedBytes t' =
      if t' = t then
        (m.usedBytes t + (2 ^ 64 - cxlPageSize)) % 2 ^ 64
      else m.usedBytes t' :=
  usedBytes_updateTier m t t' TierInfo.removePage

theorem usedBytes_track
    (m : CxlMemoryTierManager)
    (page : Nat)
    (t t' : MemoryTier) :
    (m.track page t).usedBytes t' =
      if t' = t then (m.usedBytes t + cxlPageSize) % 2 ^ 64
      else m.usedBytes t' :=
  usedBytes_addPage m t t'

theorem capacityBytes_track
    (m : CxlMemoryTierManager)
    (page : Nat)
    (t t' : MemoryTier) :
    (m.track page t).capacityBytes t' = m.capacityBytes t' := by
  rw [track, capacityBytes_setPage, capacityBytes_updateTier]
  exact TierInfo.capacityBytes_addPage

theorem lookup_track
    (m : CxlMemoryTierManager)
    (page : Nat)
    (t : MemoryTier)
    (page' : Nat) :
    (m.track page t).pageTable.lookup page' =
      if page' = page then some (PageInfo.fresh t)
      else m.pageTable.lookup page' :=
  Assoc.lookup_insert m.pageTable page _ page'

/- The pages of a tier, when a new page is tracked. -/
theorem pageCount_track
    (m : CxlMemoryTierManager)
    {page : Nat}
    (t t' : MemoryTier)
    (hNew : m.pageTable.lookup page = none) :
    (m.track page t).pageCount t' =
      m.pageCount t' + if t' = t then 1 else 0 := by
  have hCount :=
    Assoc.countP_insert m.pageTable page (PageInfo.fresh t)
      (fun e => e.2.tier = t')
  rw [Assoc.erase_of_lookup_none hNew] at hCount
  simp only [PageInfo.fresh, decide_eq_true_eq,
    eq_comm (a := t)] at hCount
  exact hCount

/- The pages of a tier, when a tracked page is replaced. -/
theorem pageCount_setPage
    {m : CxlMemoryTierManager}
    (hKeys : (m.pageTable.map Prod.fst).Nodup)
    {page : Nat}
    {old : PageInfo}
    (hOld : m.pageTable.lookup page = some old)
    (info : PageInfo)
    (t : MemoryTier) :
    (m.setPage page info).pageCount t +
        (if old.tier = t then 1 else 0) =
      m.pageCount t + (if info.tier = t then 1 else 0) := by
  have hErase :=
    Assoc.countP_erase hKeys hOld (fun e => e.2.tier = t)
  have hInsert :=
    Assoc.countP_insert m.pageTable page info
      (fun e => e.2.tier = t)
  simp only [decide_eq_true_eq] at hErase hInsert
  rw [pageCount, pageTable_setPage, hInsert, pageCount, ← hErase]
  omega

/- The counters of bytes, on every reachable state. -/
structure Accounted (m : CxlMemoryTierManager) : Prop where
  keys : (m.pageTable.map Prod.fst).Nodup
  used : ∀ t, m.usedBytes t = cxlPageSize * m.pageCount t
  bounded : ∀ t, m.usedBytes t < 2 ^ 64
  capacity : m.usedBytes .localDram ≤ m.capacityBytes .localDram
  small : m.capacityBytes .localDram + cxlPageSize < 2 ^ 64

/- The books are kept in the page table and the tiers. -/
theorem Accounted.of_eq
    {m m' : CxlMemoryTierManager}
    (hBooks : m.Accounted)
    (hPages : m'.pageTable = m.pageTable)
    (hUsed : ∀ t, m'.usedBytes t = m.usedBytes t)
    (hCapacity : ∀ t, m'.capacityBytes t = m.capacityBytes t) :
    m'.Accounted where
  keys := hPages ▸ hBooks.keys
  used t := by
    rw [hUsed, pageCount, hPages]
    exact hBooks.used t
  bounded t := by
    rw [hUsed]
    exact hBooks.bounded t
  capacity := by
    rw [hUsed, hCapacity]
    exact hBooks.capacity
  small := by
    rw [hCapacity]
    exact hBooks.small

/- A page can be taken from the bytes used in its tier. -/
def Covered
    (m : CxlMemoryTierManager)
    (page : Nat) : Prop :=
  ∀ info, m.pageTable.lookup page = some info →
    cxlPageSize ≤ m.usedBytes info.tier

/- A page can be added to a tier. -/
def FitsIn
    (m : CxlMemoryTierManager)
    (t : MemoryTier) : Prop :=
  m.usedBytes t + cxlPageSize < 2 ^ 64 ∧
    (t = .localDram →
      m.usedBytes t + cxlPageSize ≤ m.capacityBytes .localDram)

namespace Accounted

variable {m : CxlMemoryTierManager}
variable (hBooks : m.Accounted)

include hBooks

/- A tracked page can be subtracted from its tier. -/
theorem covered
    (page : Nat) :
    m.Covered page := by
  intro info hLookup
  have hPositive : 0 < m.pageCount info.tier := by
    rw [pageCount, List.countP_pos_iff]
    exact ⟨(page, info), Assoc.mem_of_lookup hLookup, by simp⟩
  rw [hBooks.used info.tier]
  exact Nat.le_mul_of_pos_right cxlPageSize hPositive

/- The test for room is that of the numbers. -/
theorem hasRoom_iff :
    (m.tierInfo .localDram).HasRoom ↔
      m.usedBytes .localDram + cxlPageSize ≤
        m.capacityBytes .localDram := by
  have hSmall := hBooks.small
  have hCapacity := hBooks.capacity
  unfold TierInfo.HasRoom
  rw [Nat.mod_eq_of_lt]
  · rfl
  · unfold usedBytes capacityBytes at *
    omega

/- Local DRAM takes what is within its capacity. -/
theorem fitsIn_localDram_iff :
    m.FitsIn .localDram ↔
      m.usedBytes .localDram + cxlPageSize ≤
        m.capacityBytes .localDram := by
  have hSmall := hBooks.small
  constructor
  · intro hFits
    exact hFits.2 rfl
  · intro hRoom
    exact ⟨by omega, fun _ => hRoom⟩

variable {t : MemoryTier}

/- A new page is accounted for where it fits. -/
theorem track
    {page : Nat}
    (hNew : m.pageTable.lookup page = none)
    (hFits : m.FitsIn t) :
    (m.track page t).Accounted where
  keys := Assoc.nodup_keys_insert hBooks.keys page _
  used t' := by
    rw [usedBytes_track, pageCount_track m t t' hNew]
    by_cases hTier : t' = t
    · rw [if_pos hTier, if_pos hTier, hTier,
        Nat.mod_eq_of_lt hFits.1, hBooks.used t,
        Nat.mul_add_one]
    · rw [if_neg hTier, if_neg hTier, Nat.add_zero]
      exact hBooks.used t'
  bounded t' := by
    rw [usedBytes_track]
    by_cases hTier : t' = t
    · rw [if_pos hTier]
      exact Nat.mod_lt _ (by decide)
    · rw [if_neg hTier]
      exact hBooks.bounded t'
  capacity := by
    rw [usedBytes_track, capacityBytes_track]
    by_cases hTier : MemoryTier.localDram = t
    · rw [if_pos hTier, Nat.mod_eq_of_lt hFits.1]
      exact hFits.2 hTier.symm
    · rw [if_neg hTier]
      exact hBooks.capacity
  small := by
    rw [capacityBytes_track]
    exact hBooks.small

/- A new page fits where its books are sound. -/
theorem fitsIn_of_track
    {page : Nat}
    (hNew : m.pageTable.lookup page = none)
    (hUsed :
      (m.track page t).usedBytes t =
        cxlPageSize * (m.track page t).pageCount t)
    (hCapacity :
      (m.track page t).usedBytes .localDram ≤
        (m.track page t).capacityBytes .localDram) :
    m.FitsIn t := by
  rw [pageCount_track m t t hNew, if_pos rfl, usedBytes_track,
    if_pos rfl, Nat.mul_add_one, ← hBooks.used t] at hUsed
  have hLt : m.usedBytes t + cxlPageSize < 2 ^ 64 := by
    rw [← hUsed]
    exact Nat.mod_lt _ (by decide)
  refine ⟨hLt, fun hTier => ?_⟩
  subst hTier
  rw [usedBytes_track, if_pos rfl, capacityBytes_track,
    hUsed] at hCapacity
  exact hCapacity

/- A page whose tier stays is not accounted for anew. -/
theorem setPage
    {page : Nat}
    {old info : PageInfo}
    (hOld : m.pageTable.lookup page = some old)
    (hTier : info.tier = old.tier) :
    (m.setPage page info).Accounted where
  keys := Assoc.nodup_keys_insert hBooks.keys page info
  used t := by
    have hCount := pageCount_setPage hBooks.keys hOld info t
    rw [hTier, Nat.add_right_cancel_iff] at hCount
    rw [usedBytes_setPage, hCount]
    exact hBooks.used t
  bounded := hBooks.bounded
  capacity := hBooks.capacity
  small := hBooks.small

/- A page that moves is accounted for in its new tier. -/
theorem movePage
    {page : Nat}
    {info : PageInfo}
    (hLookup : m.pageTable.lookup page = some info)
    (hMoves : info.tier ≠ t)
    (hFits : m.FitsIn t) :
    (m.movePage page info t).Accounted := by
  have hCovered := hBooks.covered page info hLookup
  have hBound := hBooks.bounded info.tier
  have hSize : cxlPageSize = 4096 := rfl
  have hRemoved :
      (m.usedBytes info.tier + (2 ^ 64 - cxlPageSize)) %
        2 ^ 64 = m.usedBytes info.tier - cxlPageSize := by
    omega
  have hUsed :
      ∀ t', (m.movePage page info t).usedBytes t' =
        if t' = t then m.usedBytes t + cxlPageSize
        else if t' = info.tier then
          m.usedBytes info.tier - cxlPageSize
        else m.usedBytes t' := by
    intro t'
    rw [CxlMemoryTierManager.movePage, usedBytes_setPage,
      usedBytes_addPage, usedBytes_removePage,
      usedBytes_removePage, if_neg hMoves.symm, hRemoved,
      Nat.mod_eq_of_lt hFits.1]
  have hLimit :
      (m.movePage page info t).capacityBytes .localDram =
        m.capacityBytes .localDram := by
    rw [CxlMemoryTierManager.movePage, capacityBytes_setPage,
      capacityBytes_updateTier _ _ _ TierInfo.capacityBytes_addPage,
      capacityBytes_updateTier _ _ _
        TierInfo.capacityBytes_removePage]
  constructor
  case keys =>
    exact Assoc.nodup_keys_insert hBooks.keys page _
  case used =>
    intro t'
    have hCount :
        (m.movePage page info t).pageCount t' +
            (if info.tier = t' then 1 else 0) =
          m.pageCount t' + (if t = t' then 1 else 0) :=
      pageCount_setPage hBooks.keys hLookup
        { info with tier := t } t'
    have hOld := hBooks.used t'
    rw [hUsed t']
    by_cases hTo : t' = t
    · subst hTo
      rw [if_neg hMoves, if_pos rfl, Nat.add_zero] at hCount
      rw [if_pos rfl, hCount, Nat.mul_add_one, hOld]
    · rw [if_neg (Ne.symm hTo), Nat.add_zero] at hCount
      rw [if_neg hTo]
      by_cases hFrom : t' = info.tier
      · subst hFrom
        rw [if_pos rfl] at hCount
        rw [if_pos rfl, hOld, ← hCount, Nat.mul_add_one,
          Nat.add_sub_cancel]
      · rw [if_neg (Ne.symm hFrom), Nat.add_zero] at hCount
        rw [if_neg hFrom, hCount]
        exact hOld
  case bounded =>
    intro t'
    have hOld := hBooks.bounded t'
    have hRoom := hFits.1
    rw [hUsed t']
    split_ifs <;> omega
  case capacity =>
    have hOld := hBooks.capacity
    rw [hUsed, hLimit]
    by_cases hTo : MemoryTier.localDram = t
    · rw [if_pos hTo]
      exact hFits.2 hTo.symm
    · rw [if_neg hTo]
      by_cases hFrom : MemoryTier.localDram = info.tier
      · rw [if_pos hFrom, ← hFrom]
        omega
      · rw [if_neg hFrom]
        exact hOld
  case small =>
    rw [hLimit]
    exact hBooks.small

end Accounted

end CxlMemoryTierManager

end Virtuoso
