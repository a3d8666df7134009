import Mathlib.Algebra.Group.Int.Defs
import Mathlib.Algebra.Group.Nat.Defs
import Mathlib.Logic.Function.Basic

/-
  The cost-based migration policy of `utopia.h`: a score for
  each 4KB page, the table of the K most expensive pages, and
  the credits that limit migrations.

  A score is a 16-bit number and `sticky` and `cooldown` are
  8-bit numbers; they are natural numbers here, reduced where
  the source converts. The credits are an `int`, of which the
  overflow is undefined; they are integers here. The map of
  the scores has 0 for a page it does not hold. The counts of
  gated and issued migrations are left out.

  Key definitions include:
    * `Utopia.CostTopKConfig`
    * `Utopia.CostTopKState.eligible`
-/

namespace Virtuoso

namespace Utopia

/- A page of the table of costly pages. -/
structure CostTopKEntry where
  valid : Bool
  vpn : Nat
  scoreSnapshot : Nat
  sticky : Nat
  cooldown : Nat
deriving DecidableEq

/- The configuration of the migrations. -/
structure CostTopKConfig where
  enabled : Bool
  pageSizeBits : Nat
  scoreBits : Nat
  ptwBaseInc : Nat
  dramIncCap : Nat
  topkEntries : Nat
  stickyThreshold : Int
  cooldownEpochs : Int
  rankEpochTranslations : Nat
  creditEpochTranslations : Nat
  creditsMax : Int
  creditsRefill : Int
  migrateThreshold : Int
  postMigrateScoreShift : Nat
deriving DecidableEq

/- The scores, the table and the credits. -/
structure CostTopKState where
  vpnCostScore : Nat → Nat
  topkTable : List CostTopKEntry
  topkMinScore : Nat
  topkMinIdx : Option Nat
  translationCounter : Nat
  rankEpochCounter : Nat
  creditEpochCounter : Nat
  credits : Int
  lastMigrationPpn : Nat

/- `static_cast<UInt16>`. -/
def toUInt16 (n : Int) : Nat :=
  (n % 2 ^ 16).toNat

/- `static_cast<UInt8>`. -/
def toUInt8 (n : Int) : Nat :=
  (n % 2 ^ 8).toNat

namespace CostTopKState

/- The state that the allocator's constructor sets. -/
def construct (config : CostTopKConfig) : CostTopKState :=
  { vpnCostScore := fun _ => 0
    topkTable := List.replicate config.topkEntries
      ⟨false, 0, 0, 0, 0⟩
    topkMinScore := 0
    topkMinIdx := none
    translationCounter := 0
    rankEpochCounter := 0
    creditEpochCounter := 0
    credits := config.creditsMax
    lastMigrationPpn := 0 }

/- The largest score. -/
def maxScore (config : CostTopKConfig) : Nat :=
  toUInt16 (2 ^ config.scoreBits - 1)

/- `setCostScore`. -/
def setCostScore
    (config : CostTopKConfig)
    (s : CostTopKState)
    (vpn score : Nat) : CostTopKState :=
  { s with
    vpnCostScore := Function.update s.vpnCostScore vpn
      (min score (maxScore config)) }

/- The score that `bumpCostScore` returns. -/
def bumpedScore
    (config : CostTopKConfig)
    (s : CostTopKState)
    (vpn inc : Nat) : Nat :=
  min (toUInt16 (s.vpnCostScore vpn + toUInt16 inc))
    (maxScore config)

/- `bumpCostScore`. -/
def bumpCostScore
    (config : CostTopKConfig)
    (s : CostTopKState)
    (vpn inc : Nat) : CostTopKState :=
  { s with
    vpnCostScore := Function.update s.vpnCostScore vpn
      (bumpedScore config s vpn inc) }

/- One turn of the loop of `recomputeTopKMin`. -/
def minStep
    (best : Nat × Option Nat)
    (slot : CostTopKEntry × Nat) :
    Nat × Option Nat :=
  if slot.1.valid ∧ slot.1.scoreSnapshot < best.1 then
    (slot.1.scoreSnapshot, some slot.2)
  else
    best

/- `recomputeTopKMin`. -/
def recomputeTopKMin (s : CostTopKState) : CostTopKState :=
  let best :=
    s.topkTable.zipIdx.foldl minStep (2 ^ 16 - 1, none)
  { s with
    topkMinScore := if best.2.isNone then 0 else best.1
    topkMinIdx := best.2 }

/- Replace a table and its minimum. -/
def setTable
    (s : CostTopKState)
    (table : List CostTopKEntry) : CostTopKState :=
  recomputeTopKMin { s with topkTable := table }

/- The index of the entry of a page. -/
def findEntry
    (s : CostTopKState)
    (vpn : Nat) :
    Option Nat :=
  s.topkTable.findIdx? (fun e => e.valid && e.vpn == vpn)

/- An entry is updated with a new score. -/
def bumpEntry
    (score : Nat)
    (e : CostTopKEntry) : CostTopKEntry :=
  { e with
    scoreSnapshot := score
    sticky := if e.sticky < 3 then e.sticky + 1 else e.sticky }

/- `updateCostTopK`. -/
def updateCostTopK
    (config : CostTopKConfig)
    (s : CostTopKState)
    (vpn score : Nat) : CostTopKState :=
  if config.enabled then
    match s.findEntry vpn with
    | some i =>
        s.setTable (s.topkTable.modify i (bumpEntry score))
    | none =>
        match s.topkTable.findIdx? (fun e => !e.valid) with
        | some i =>
            s.setTable (s.topkTable.set i ⟨true, vpn, score, 1, 0⟩)
        | none =>
            match s.topkMinIdx with
            | none => s
            | some i =>
                if s.topkMinScore < score then
                  s.setTable
                    (s.topkTable.set i ⟨true, vpn, score, 1, 0⟩)
                else
                  s
  else
    s

/- The decay of an entry at the end of a ranking epoch. -/
def decay (e : CostTopKEntry) : CostTopKEntry :=
  if e.valid then
    { e with
      scoreSnapshot := e.scoreSnapshot / 2
      sticky := e.sticky - 1
      cooldown := e.cooldown - 1 }
  else
    e

/- The ranking epoch of `processEpochs`. -/
def processRankEpoch
    (config : CostTopKConfig)
    (s : CostTopKState) : CostTopKState :=
  if config.rankEpochTranslations ≤ s.rankEpochCounter then
    { s with rankEpochCounter := 0 }.setTable
      (s.topkTable.map decay)
  else
    s

/- The credit epoch of `processEpochs`. -/
def processCreditEpoch
    (config : CostTopKConfig)
    (s : CostTopKState) : CostTopKState :=
  if config.creditEpochTranslations ≤ s.creditEpochCounter then
    { s with
      creditEpochCounter := 0
      credits :=
        min (s.credits + config.creditsRefill) config.creditsMax }
  else
    s

/- `processEpochs`. -/
def processEpochs
    (config : CostTopKConfig)
    (s : CostTopKState) : CostTopKState :=
  if config.enabled then
    processCreditEpoch config
      (processRankEpoch config
        { s with
          translationCounter := s.translationCounter + 1
          rankEpochCounter := s.rankEpochCounter + 1
          creditEpochCounter := s.creditEpochCounter + 1 })
  else
    s

/-
  The checks of `considerCostBasedMigration`: the index of an
  entry that may be migrated.
-/
def eligible
    (config : CostTopKConfig)
    (s : CostTopKState)
    (pageSizeBits vpn : Nat) :
    Option Nat :=
  if config.enabled ∧ pageSizeBits = config.pageSizeBits then
    match s.findEntry vpn with
    | none => none
    | some i =>
        match s.topkTable[i]? with
        | none => none
        | some e =>
            if toUInt16 config.migrateThreshold ≤ e.scoreSnapshot ∧
                toUInt8 config.stickyThreshold ≤ e.sticky ∧
                e.cooldown = 0 ∧ 0 < s.credits then
              some i
            else
              none
  else
    none

/- What a successful migration changes. -/
def noteMigration
    (config : CostTopKConfig)
    (s : CostTopKState)
    (i vpn newPpn : Nat) : CostTopKState :=
  let newScore :=
    s.vpnCostScore vpn / 2 ^ config.postMigrateScoreShift
  { setCostScore config s vpn newScore with
    credits := s.credits - 1
    topkTable := s.topkTable.modify i (fun e =>
      { e with
        cooldown := toUInt8 config.cooldownEpochs
        scoreSnapshot := newScore })
    lastMigrationPpn := newPpn }

end CostTopKState

end Utopia

end Virtuoso
