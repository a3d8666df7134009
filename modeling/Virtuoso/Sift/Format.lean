import Mathlib.Algebra.Group.Nat.Defs
import Mathlib.Data.List.TakeWhile
import Mathlib.Tactic.Common
import Virtuoso.Lib.Bytes

/-
  The instruction trace format of Sniper.

  `sift_format.h` and the classes that its writer and its
  reader share. A trace is a header and then records. The
  first byte tells the three kinds of records apart: the low
  four bits of a simple instruction are not zero, those of an
  extended one are, and the first byte of any other record is
  zero.

  Key definitions include:
    * `Sift.RecOtherType`
    * `Sift.Instruction`, `Sift.Callback`
-/

namespace Virtuoso

namespace Sift

/- An address of the traced program. -/
abbrev Address :=
  BitVec 64

/- The letters SIFT. -/
def magicNumber : BitVec 32 :=
  0x54464953

/- The bytes of a page. -/
def pageSizeSift : Address :=
  4096

/- The bytes of a page of instructions. -/
def icacheSize : Nat :=
  0x1000

/- The bits of an address within its page. -/
def icacheOffsetMask : Address :=
  BitVec.ofNat 64 icacheSize - 1

/- The bits of an address above its page. -/
def icachePageMask : Address :=
  ~~~icacheOffsetMask

/- The addresses that an instruction may access. -/
def maxDynamicAddresses : Nat :=
  2

/- The bits of `Option`. -/
def archIA32 : BitVec 64 :=
  2

/- The option of instruction bytes on demand. -/
def icacheVariable : BitVec 64 :=
  4

/- The option of physical addresses. -/
def physicalAddress : BitVec 64 :=
  8

/- The types of the records for other things. -/
inductive RecOtherType
  | icache
  | output
  | syscallRequest
  | syscallResponse
  | newThread
  | newThreadResponse
  | memoryRequest
  | memoryResponse
  | join
  | joinResponse
  | endResponse
  | icacheVariable
  | sync
  | syncResponse
  | logical2Physical
  | magicInstruction
  | magicInstructionResponse
  | routineChange
  | routineAnnounce
  | emu
  | emuResponse
  | fork
  | forkResponse
  | instructionCount
  | cacheOnly
  | isaChange
  | shutdown
  | finish
deriving DecidableEq

namespace RecOtherType

/- `RecOtherEnd` is `finish`, after all the others. -/
def all : List RecOtherType :=
  [.icache, .output, .syscallRequest, .syscallResponse,
    .newThread, .newThreadResponse, .memoryRequest,
    .memoryResponse, .join, .joinResponse, .endResponse,
    .icacheVariable, .sync, .syncResponse,
    .logical2Physical, .magicInstruction,
    .magicInstructionResponse, .routineChange,
    .routineAnnounce, .emu, .emuResponse, .fork,
    .forkResponse, .instructionCount, .cacheOnly,
    .isaChange, .shutdown, .finish]

/- The number of a type in the trace. -/
def code (type : RecOtherType) : Byte :=
  match type with
  | .finish => 0xff
  | _ => BitVec.ofNat 8 (all.idxOf type)

/- The type that a byte stands for, if it stands for one. -/
def ofCode (b : Byte) : Option RecOtherType :=
  all.find? (fun type => type.code == b)

@[simp] theorem ofCode_code
    (type : RecOtherType) :
    ofCode type.code = some type := by
  cases type <;> rfl

end RecOtherType

/- The accesses without an instruction. -/
inductive CacheOnlyType
  | branchTaken
  | branchNotTaken
  | memRead
  | memWrite
  | memIcache
deriving DecidableEq

/- The number of an access in the trace. -/
def CacheOnlyType.code :
    CacheOnlyType → Byte
| .branchTaken => 0
| .branchNotTaken => 1
| .memRead => 2
| .memWrite => 3
| .memIcache => 4

/- The events of a routine. -/
inductive RoutineOpType
  | enter
  | exit
  | assert
deriving DecidableEq

/- The number of an event in the trace. -/
def RoutineOpType.code :
    RoutineOpType → Byte
| .enter => 0
| .exit => 1
| .assert => 2

/- `Record::Other` without its data. -/
def otherRecord
    (type : RecOtherType)
    (size : BitVec 32) : List Byte :=
  0 :: type.code :: Bytes.ofWord size

/- The bit fields of `Record::Instruction`. -/
structure SimpleBits where
  size : BitVec 4
  numAddresses : BitVec 2
  isBranch : Bool
  taken : Bool
deriving DecidableEq

namespace SimpleBits

/- The bit fields of a simple record. -/
def toByte (f : SimpleBits) : Byte :=
  BitVec.ofBool f.taken ++ BitVec.ofBool f.isBranch ++
    f.numAddresses ++ f.size

/- The bit fields are read back. -/
def ofByte (b : Byte) : SimpleBits where
  size := b.extractLsb' 0 4
  numAddresses := b.extractLsb' 4 2
  isBranch := b.getLsbD 6
  taken := b.getLsbD 7

@[simp] theorem ofByte_toByte
    (f : SimpleBits) :
    ofByte f.toByte = f := by
  rcases f with ⟨size, numAddresses, isBranch, taken⟩
  have hAll : ∀ (s : BitVec 4) (n : BitVec 2)
      (b t : Bool),
      ofByte (toByte ⟨s, n, b, t⟩) = ⟨s, n, b, t⟩ := by
    decide +kernel
  exact hAll size numAddresses isBranch taken

theorem toByte_and
    (f : SimpleBits) :
    f.toByte &&& 0xf = f.size.setWidth 8 := by
  rcases f with ⟨size, numAddresses, isBranch, taken⟩
  have hAll : ∀ (s : BitVec 4) (n : BitVec 2)
      (b t : Bool),
      toByte ⟨s, n, b, t⟩ &&& 0xf = s.setWidth 8 := by
    decide +kernel
  exact hAll size numAddresses isBranch taken

end SimpleBits

/-
  The bit fields of `Record::InstructionExt` after its size,
  which fill its second byte.
-/
structure ExtBits where
  numAddresses : BitVec 2
  isBranch : Bool
  taken : Bool
  isPredicate : Bool
  executed : Bool
deriving DecidableEq

namespace ExtBits

/- The bit fields of an extended record. -/
def toByte (f : ExtBits) : Byte :=
  0#2 ++ BitVec.ofBool f.executed ++
    BitVec.ofBool f.isPredicate ++ BitVec.ofBool f.taken ++
    BitVec.ofBool f.isBranch ++ f.numAddresses

/- The bit fields are read back. -/
def ofByte (b : Byte) : ExtBits where
  numAddresses := b.extractLsb' 0 2
  isBranch := b.getLsbD 2
  taken := b.getLsbD 3
  isPredicate := b.getLsbD 4
  executed := b.getLsbD 5

@[simp] theorem ofByte_toByte
    (f : ExtBits) :
    ofByte f.toByte = f := by
  rcases f with ⟨numAddresses, isBranch, taken, isPredicate,
    executed⟩
  have hAll : ∀ (n : BitVec 2) (b t p e : Bool),
      ofByte (toByte ⟨n, b, t, p, e⟩) = ⟨n, b, t, p, e⟩ := by
    decide +kernel
  exact hAll numAddresses isBranch taken isPredicate executed

end ExtBits

/- The first byte of an extended instruction. -/
def extSize (size : BitVec 4) : Byte :=
  size ++ 0#4

theorem extSize_spec :
    ∀ size : BitVec 4,
      extSize size &&& 0xf = 0 ∧
        (extSize size).extractLsb' 4 4 = size ∧
        (extSize size = 0 ↔ size = 0) := by
  decide

/- A string of C, without the byte that ends it. -/
structure CString where
  bytes : List Byte
  noEnd : 0 ∉ bytes
deriving DecidableEq

namespace CString

/- The bytes of a string with its end. -/
def stored (s : CString) : List Byte :=
  s.bytes ++ [0]

/- The string at the start of a buffer. -/
def ofBuffer (buffer : List Byte) : Option CString :=
  if 0 ∈ buffer then
    some {
      bytes := buffer.takeWhile (fun b => b != 0)
      noEnd := fun hMem => by
        simpa using List.mem_takeWhile_imp hMem }
  else
    none

@[simp] theorem ofBuffer_stored
    (s : CString) :
    ofBuffer s.stored = some s := by
  have hBytes : s.stored.takeWhile (fun b => b != 0) = s.bytes := by
    have hAll : ∀ b ∈ s.bytes, (b != 0) = true :=
      fun b hb =>
        bne_iff_ne.mpr (fun hZero => s.noEnd (hZero ▸ hb))
    rw [stored, List.takeWhile_append_of_pos hAll]
    simp
  have hMem : 0 ∈ s.stored := by
    simp [stored]
  rw [ofBuffer, if_pos hMem]
  rcases s with ⟨bytes, noEnd⟩
  simpa using hBytes

end CString

/-
  Of the sixteen bytes of `data` those of the instruction. The
  field `next` is kept in the reader.
-/
structure StaticInstruction where
  addr : Address
  size : Byte
  data : List Byte
deriving DecidableEq

/- The fields of an instruction of this format. -/
structure Instruction where
  sinst : StaticInstruction
  addresses : List Address
  isBranch : Bool
  taken : Bool
  isPredicate : Bool
  executed : Bool
  isa : BitVec 32
deriving DecidableEq

/- The calls of the handlers. -/
inductive Callback
  | cacheOnly (icount type : Byte) (eip address : Address)
  | output (fd : Byte) (data : List Byte)
  | routineChange (event : Byte)
      (eip esp callEip : Address)
  | routineAnnounce (eip : Address) (name imgname : CString)
      (offset : BitVec 64) (line column : BitVec 32)
      (filename : CString)
deriving DecidableEq

/- The first address of the page. -/
def pageOf (address : Address) : Address :=
  address &&& icachePageMask

/- The place of the address in its page. -/
def offsetOf (address : Address) : Nat :=
  (address &&& icacheOffsetMask).toNat

theorem offsetOf_eq
    (address : Address) :
    offsetOf address = address.toNat % 4096 := by
  have hMask : icacheOffsetMask.toNat = 2 ^ 12 - 1 := by
    decide
  rw [offsetOf, BitVec.toNat_and, hMask,
    Nat.and_two_pow_sub_one_eq_mod]

theorem toNat_pageOf
    (address : Address) :
    (pageOf address).toNat = address.toNat / 4096 * 4096 := by
  have hDisjoint :
      pageOf address &&& (address &&& icacheOffsetMask) = 0#64 := by
    unfold pageOf icachePageMask
    ext i hi
    simp only [BitVec.getElem_and, BitVec.getElem_not,
      BitVec.getElem_zero]
    cases address[i] <;> cases icacheOffsetMask[i] <;> rfl
  have hSplit :
      pageOf address + (address &&& icacheOffsetMask) =
        address := by
    rw [BitVec.add_eq_or_of_and_eq_zero _ _ hDisjoint]
    unfold pageOf icachePageMask
    ext i hi
    simp only [BitVec.getElem_and, BitVec.getElem_not,
      BitVec.getElem_or]
    cases address[i] <;> cases icacheOffsetMask[i] <;> rfl
  have hNat := BitVec.toNat_add_of_and_eq_zero hDisjoint
  rw [hSplit] at hNat
  have hOffset := offsetOf_eq address
  unfold offsetOf at hOffset
  omega

@[simp] theorem pageOf_pageOf
    (address : Address) :
    pageOf (pageOf address) = pageOf address := by
  apply BitVec.eq_of_toNat_eq
  rw [toNat_pageOf, toNat_pageOf]
  omega

theorem offsetOf_lt
    (address : Address) :
    offsetOf address < icacheSize := by
  rw [offsetOf_eq]
  exact Nat.mod_lt _ (by decide)

variable {i : Nat}

/- Within the page of an address, bytes are counted up. -/
theorem toNat_add_of_within
    {address : Address}
    (hWithin : offsetOf address + i < icacheSize) :
    (address + BitVec.ofNat 64 i).toNat = address.toNat + i := by
  rw [offsetOf_eq, icacheSize] at hWithin
  rw [BitVec.toNat_add, BitVec.toNat_ofNat]
  omega

theorem pageOf_add
    {address : Address}
    (hWithin : offsetOf address + i < icacheSize) :
    pageOf (address + BitVec.ofNat 64 i) = pageOf address := by
  apply BitVec.eq_of_toNat_eq
  rw [toNat_pageOf, toNat_pageOf, toNat_add_of_within hWithin]
  rw [offsetOf_eq, icacheSize] at hWithin
  omega

theorem offsetOf_add
    {address : Address}
    (hWithin : offsetOf address + i < icacheSize) :
    offsetOf (address + BitVec.ofNat 64 i) =
      offsetOf address + i := by
  rw [offsetOf_eq, toNat_add_of_within hWithin]
  rw [offsetOf_eq, icacheSize] at *
  omega

/- The first address of the page after. -/
def nextPage (address : Address) : Address :=
  pageOf address + BitVec.ofNat 64 icacheSize

/- The page that follows starts where this one ends. -/
theorem add_of_end
    {address : Address}
    (hEnd : offsetOf address + i = icacheSize) :
    address + BitVec.ofNat 64 i = nextPage address := by
  apply BitVec.eq_of_toNat_eq
  rw [nextPage, BitVec.toNat_add, BitVec.toNat_add,
    toNat_pageOf, BitVec.toNat_ofNat, BitVec.toNat_ofNat]
  rw [offsetOf_eq] at hEnd
  rw [icacheSize] at *
  omega

@[simp] theorem offsetOf_nextPage
    (address : Address) :
    offsetOf (nextPage address) = 0 := by
  rw [offsetOf_eq, nextPage, BitVec.toNat_add, toNat_pageOf,
    BitVec.toNat_ofNat, icacheSize]
  omega

@[simp] theorem pageOf_nextPage
    (address : Address) :
    pageOf (nextPage address) = nextPage address := by
  apply BitVec.eq_of_toNat_eq
  have hOffset := offsetOf_nextPage address
  rw [offsetOf_eq] at hOffset
  rw [toNat_pageOf]
  omega

end Sift

end Virtuoso
