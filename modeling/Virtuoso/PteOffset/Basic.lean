import Mathlib.Algebra.Group.Nat.Defs
import Mathlib.Data.List.Basic

/-
  The entries in the payload of a page-table entry, as
  `pte_offset_codec.h` packs them.

  A payload is a word of 128 bits. From a base bit on it has
  slots of equal width, each with an offset in its lower bits
  and a confidence in the upper ones.

  Words are bit vectors of the widths of the source. A shift
  by the width of its operand or more has no outcome, nor has
  a failed assertion. The text of `dumpPayload` is left out.

  Key definitions include:
    * `PTEOffsetEntry`, `PTEOffsetConfig`
    * `PTEOffsetConfig.decayAllConf`
-/

namespace Virtuoso

/- A distance, with the confidence in it. -/
structure PTEOffsetEntry where
  deltaVpn : BitVec 32
  conf : BitVec 32
deriving DecidableEq

/- The layout of the slots in an entry. -/
structure PTEOffsetConfig where
  numEntries : BitVec 32
  offsetBits : BitVec 32
  confBits : BitVec 32
  baseBit : BitVec 32
  signedOffset : Bool
deriving DecidableEq

namespace PTEOffset

/- A shift to the left, and one to the right. -/
def shl
    {w : Nat}
    (x : BitVec w)
    (k : BitVec 32) :
    Option (BitVec w) :=
  if k.toNat < w then some (x <<< k.toNat) else none

/- Shifts by the width or more are undefined. -/
def shr
    {w : Nat}
    (x : BitVec w)
    (k : BitVec 32) :
    Option (BitVec w) :=
  if k.toNat < w then some (x >>> k.toNat) else none

/- A field of the word, in 64 bits. -/
def extractBits
    (val : BitVec 128)
    (start width : BitVec 32) :
    Option (BitVec 64) := do
  let shifted ← shr val start
  let mask ← shl 1#128 width
  some ((shifted &&& (mask - 1#128)).setWidth 64)

/- From bits of a width to 32 bits, in two's complement. -/
def signExtend
    (val : BitVec 64)
    (width : BitVec 32) :
    Option (BitVec 32) :=
  if width = 0#32 then some 0#32
  else do
    let signBit ← shl 1#64 (width - 1#32)
    if val &&& signBit ≠ 0#64 then do
      let mask ← shl 1#64 width
      some ((val ||| ~~~(mask - 1#64)).setWidth 32)
    else some (val.setWidth 32)

end PTEOffset

namespace PTEOffsetConfig

open PTEOffset

/- The bits of all slots, in 32 bits. -/
def totalBits (cfg : PTEOffsetConfig) : BitVec 32 :=
  cfg.numEntries * (cfg.offsetBits + cfg.confBits)

/- The largest confidence of a slot. -/
def maxConf (cfg : PTEOffsetConfig) : Option (BitVec 32) :=
  if 0#32 < cfg.confBits then
    (shl 1#32 cfg.confBits).map (fun x => x - 1#32)
  else some 0#32

/- The slots end within the entry, in 32 bits. -/
def fitsInPayload (cfg : PTEOffsetConfig) : Bool :=
  decide (cfg.baseBit + cfg.totalBits ≤ 128#32)

/- The assertions of the constructor. -/
def Accepted (cfg : PTEOffsetConfig) : Prop :=
  cfg.fitsInPayload = true ∧ 0#32 < cfg.offsetBits ∧
    0#32 < cfg.numEntries

instance (cfg : PTEOffsetConfig) : Decidable cfg.Accepted :=
  inferInstanceAs (Decidable (_ = true ∧ _ < _ ∧ _ < _))

/- The bits of one slot. -/
def slotWidth (cfg : PTEOffsetConfig) : BitVec 32 :=
  cfg.offsetBits + cfg.confBits

/- The first bit of a slot. -/
def slotBase
    (cfg : PTEOffsetConfig)
    (i : Nat) : BitVec 32 :=
  cfg.baseBit + BitVec.ofNat 32 i * cfg.slotWidth

/- The offset of a field. -/
def readDelta
    (cfg : PTEOffsetConfig)
    (rawOffset : BitVec 64) :
    Option (BitVec 32) :=
  if cfg.signedOffset then
    signExtend rawOffset cfg.offsetBits
  else some (rawOffset.setWidth 32)

/- The confidence of a slot. -/
def readConf
    (cfg : PTEOffsetConfig)
    (pteValue : BitVec 128)
    (i : Nat) :
    Option (BitVec 32) :=
  if 0#32 < cfg.confBits then
    (extractBits pteValue (cfg.slotBase i + cfg.offsetBits)
      cfg.confBits).map (fun x => x.setWidth 32)
  else some 0#32

/- The entry of a slot. -/
def decodeSlot
    (cfg : PTEOffsetConfig)
    (pteValue : BitVec 128)
    (i : Nat) :
    Option PTEOffsetEntry := do
  let rawOffset ←
    extractBits pteValue (cfg.slotBase i) cfg.offsetBits
  let delta ← cfg.readDelta rawOffset
  let conf ← cfg.readConf pteValue i
  some ⟨delta, conf⟩

/- The contents of all slots. -/
def decode
    (cfg : PTEOffsetConfig)
    (pteValue : BitVec 128) :
    Option (List PTEOffsetEntry) :=
  (List.range cfg.numEntries.toNat).mapM (cfg.decodeSlot pteValue)

/- The offset of an entry, at the place of its field. -/
def writeDelta
    (cfg : PTEOffsetConfig)
    (delta : BitVec 32)
    (i : Nat) :
    Option (BitVec 128) := do
  let mask ← shl 1#128 cfg.offsetBits
  shl ((delta.signExtend 64).setWidth 128 &&& (mask - 1#128))
    (cfg.slotBase i)

/- A confidence in its place in a slot. -/
def writeConf
    (cfg : PTEOffsetConfig)
    (conf : BitVec 32)
    (i : Nat) :
    Option (BitVec 128) := do
  let mask ← shl 1#128 cfg.confBits
  shl (conf.setWidth 128 &&& (mask - 1#128))
    (cfg.slotBase i + cfg.offsetBits)

/- Put an entry into its slot, which is clear. -/
def encodeSlot
    (cfg : PTEOffsetConfig)
    (result : BitVec 128)
    (entry : PTEOffsetEntry × Nat) :
    Option (BitVec 128) :=
  (cfg.writeDelta entry.1.deltaVpn entry.2).bind fun off =>
    if 0#32 < cfg.confBits then
      (cfg.writeConf entry.1.conf entry.2).map fun conf =>
        result ||| off ||| conf
    else some (result ||| off)

/- The slots of an entry are written. -/
def encodeAll
    (cfg : PTEOffsetConfig)
    (baseValue : BitVec 128)
    (entries : List PTEOffsetEntry) :
    Option (BitVec 128) :=
  if entries.length = cfg.numEntries.toNat then do
    let ones ← shl 1#128 cfg.totalBits
    let regionMask ← shl (ones - 1#128) cfg.baseBit
    entries.zipIdx.foldlM cfg.encodeSlot
      (baseValue &&& ~~~regionMask)
  else none

/- The confidence after one more match. -/
def bump (maxConf conf : BitVec 32) : BitVec 32 :=
  if conf < maxConf then conf + 1#32 else maxConf

/- The first slot of the lowest confidence. -/
def victim (entries : List PTEOffsetEntry) : Nat :=
  match entries with
  | [] => 0
  | first :: rest =>
      ((rest.zipIdx 1).foldl
        (fun (best : Nat × BitVec 32) entry =>
          if entry.1.conf < best.2 then (entry.2, entry.1.conf)
          else best)
        (0, first.conf)).1

/- The entries after an update. -/
def updated
    (cfg : PTEOffsetConfig)
    (entries : List PTEOffsetEntry)
    (newDelta initConf : BitVec 32) :
    Option (List PTEOffsetEntry) :=
  match entries.findIdx?
      (fun e => decide (e.deltaVpn = newDelta)) with
  | some i =>
      cfg.maxConf.map (fun maxConf =>
        entries.modify i
          (fun e => { e with conf := bump maxConf e.conf }))
  | none =>
      some (entries.modify (victim entries)
        (fun _ => ⟨newDelta, initConf⟩))

/- A distance is added to those of an entry. -/
def encodeUpdate
    (cfg : PTEOffsetConfig)
    (oldPteValue : BitVec 128)
    (newDelta initConf : BitVec 32) :
    Option (BitVec 128) := do
  let entries ← cfg.decode oldPteValue
  let entries ← cfg.updated entries newDelta initConf
  cfg.encodeAll oldPteValue entries

/- An entry with its confidence lowered. -/
def decay (e : PTEOffsetEntry) : PTEOffsetEntry :=
  if 0#32 < e.conf then { e with conf := e.conf - 1#32 }
  else e

/- Every confidence of an entry is lowered. -/
def decayAllConf
    (cfg : PTEOffsetConfig)
    (pteValue : BitVec 128) :
    Option (BitVec 128) :=
  if cfg.confBits = 0#32 then some pteValue
  else do
    let entries ← cfg.decode pteValue
    cfg.encodeAll pteValue (entries.map decay)

end PTEOffsetConfig

end Virtuoso
