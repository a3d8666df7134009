import Virtuoso.Sift.Contents

/-
  Reading the records of a writer, one kind at a time.

  A record that is written and read again gives what it was
  written for. The one exception is an output whose record has
  a size that does not fit in 32 bits.

  Main declarations:
    * `Sift.record_output`
    * `Sift.record_instruction`
-/

namespace Virtuoso

namespace Sift

open Reader

variable (fresh : Address → IcachePage)
variable (r : Reader)
variable (rest : Input)

theorem record_otherRecord
    (type : RecOtherType)
    (size : BitVec 32) :
    r.record fresh (Sift.otherRecord type size ++ rest) =
      r.otherRecord fresh type.code size rest := by
  simp [record, Sift.otherRecord]

theorem record_finish :
    r.record fresh (Writer.finish ++ rest) =
      some (.finished, { r with seenEnd := true }, rest) := by
  rw [Writer.finish, record_otherRecord, Reader.otherRecord,
    RecOtherType.ofCode_code]
  rfl

theorem record_isaChange
    (newIsa : BitVec 32) :
    r.record fresh (Writer.isaChange newIsa ++ rest) =
      some (.next, { r with isa := newIsa }, rest) := by
  rw [Writer.isaChange, List.append_assoc, record_otherRecord,
    Reader.otherRecord, RecOtherType.ofCode_code]
  simp [readIsaChange, guard]

theorem record_cacheOnly
    (icount : Byte)
    (type : CacheOnlyType)
    (eip address : Address) :
    r.record fresh
        (Sift.otherRecord .cacheOnly 18 ++
          (icount :: type.code ::
            (Bytes.ofWord eip ++ Bytes.ofWord address)) ++
          rest) =
      some (.callback (.cacheOnly icount type.code eip address),
        r, rest) := by
  rw [List.append_assoc, record_otherRecord,
    Reader.otherRecord, RecOtherType.ofCode_code]
  simp [readCacheOnly, guard, callBack]

theorem record_routineChange
    (event : RoutineOpType)
    (eip esp callEip : Address) :
    r.record fresh
        (Writer.routineChange event eip esp callEip ++ rest) =
      some (.callback
        (.routineChange event.code eip esp callEip), r, rest) := by
  rw [Writer.routineChange, List.append_assoc,
    record_otherRecord, Reader.otherRecord,
    RecOtherType.ofCode_code]
  simp [readRoutineChange, guard, callBack]

theorem readString_sendString
    {s : CString}
    (hShort : s.bytes.length < 65535) :
    readString (Writer.sendString s ++ rest) = some (s, rest) := by
  have hLength :
      (Writer.storedLength s).toNat = s.stored.length := by
    rw [Writer.storedLength, BitVec.toNat_ofNat,
      CString.stored, List.length_append,
      Nat.mod_eq_of_lt (by omega)]
    rfl
  rw [Writer.sendString, hLength, List.take_length]
  simp [readString, hLength]

theorem record_routineAnnounce
    (eip : Address)
    {name imgname : CString}
    (offset : BitVec 64)
    (line column : BitVec 32)
    {filename : CString}
    (hName : name.bytes.length < 65535)
    (hImgname : imgname.bytes.length < 65535)
    (hFilename : filename.bytes.length < 65535) :
    r.record fresh
        (Writer.routineAnnounce eip name imgname offset line
          column filename ++ rest) =
      some (.callback
        (.routineAnnounce eip name imgname offset line column
          filename), r, rest) := by
  rw [Writer.routineAnnounce, List.append_assoc,
    record_otherRecord, Reader.otherRecord,
    RecOtherType.ofCode_code]
  simp [readRoutineAnnounce, callBack, List.append_assoc,
    readString_sendString, hName, hImgname, hFilename]

theorem record_output
    (fd : Byte)
    {data : List Byte}
    (hSome : 0 < data.length)
    (hFits : data.length < 2 ^ 32 - 1) :
    r.record fresh (Writer.output fd data ++ rest) =
      some (.callback (.output fd data), r, rest) := by
  have hSize : (1 : BitVec 32) + BitVec.ofNat 32 data.length >
      1 := by
    rw [gt_iff_lt, BitVec.lt_def, BitVec.toNat_add,
      BitVec.toNat_ofNat]
    simp
    omega
  have hRead :
      ((1 : BitVec 32) + BitVec.ofNat 32 data.length -
        1).toNat = data.length := by
    rw [BitVec.add_comm, BitVec.add_sub_cancel, BitVec.toNat_ofNat]
    exact Nat.mod_eq_of_lt (by omega)
  rw [Writer.output, List.append_assoc, record_otherRecord,
    Reader.otherRecord, RecOtherType.ofCode_code]
  simp only [readOutput, guard, if_pos hSize, hRead,
    List.cons_append, Bytes.readWord_cons, Option.pure_def,
    Option.bind_eq_bind, Option.bind_some, Bytes.read_length,
    Option.map_some, callBack]

/- One more byte than a size of 32 bits can count. -/
theorem record_output_full
    (fd : Byte)
    {data : List Byte}
    (hFull : data.length = 2 ^ 32 - 1) :
    r.record fresh (Writer.output fd data ++ rest) = none := by
  have hSize : (1 : BitVec 32) + BitVec.ofNat 32 data.length =
      0 := by
    rw [hFull]
    rfl
  rw [Writer.output, List.append_assoc, record_otherRecord,
    Reader.otherRecord, RecOtherType.ofCode_code]
  dsimp only
  rw [hSize]
  rfl

theorem record_logical2Physical
    (vp pp : Address) :
    r.record fresh
        (Sift.otherRecord .logical2Physical 16 ++
          (Bytes.ofWord vp ++ Bytes.ofWord pp) ++ rest) =
      some (.next,
        { r with
          vcache := Function.update r.vcache vp (some pp) },
        rest) := by
  rw [List.append_assoc, record_otherRecord,
    Reader.otherRecord, RecOtherType.ofCode_code]
  simp [readLogical2Physical, guard]

theorem record_icache
    (baseAddr : Address)
    {bytes : List Byte}
    (hLength : bytes.length = icacheSize) :
    r.record fresh
        (Sift.otherRecord .icache (8 + BitVec.ofNat 32 icacheSize) ++
          (Bytes.ofWord baseAddr ++ bytes) ++ rest) =
      some (.next,
        { r with
          icache := Function.update r.icache baseAddr
            (some (IcachePage.write (fresh baseAddr) 0 bytes)) },
        rest) := by
  rw [List.append_assoc, record_otherRecord,
    Reader.otherRecord, RecOtherType.ofCode_code]
  simp [readIcache, guard, Bytes.read_append rest hLength]

theorem record_icacheVariable
    (address : Address)
    {size : Byte}
    {bytes : List Byte}
    (hLength : bytes.length = size.toNat) :
    ∃ icache', (∀ rest, r.record fresh
        (Sift.otherRecord .icacheVariable
          (8 + size.setWidth 32) ++
          (Bytes.ofWord address ++ bytes) ++ rest) =
      some (.next, { r with icache := icache' }, rest)) ∧
      ∀ i (h : i < bytes.length),
        icacheByte icache' (address + BitVec.ofNat 64 i) =
          some bytes[i] := by
  have hByte := size.isLt
  have hSize :
      ((8 + size.setWidth 32 : BitVec 32).setWidth 64 - 8 :
        BitVec 64).toNat = bytes.length := by
    rw [hLength]
    bv_omega
  rcases @readVariable_spec r.icache fresh bytes.length
      address bytes (Nat.le_refl _) (by omega) with
    ⟨icache', hRead, hSet, _⟩
  refine ⟨icache', ?_, hSet⟩
  intro rest
  rw [List.append_assoc, record_otherRecord,
    Reader.otherRecord, RecOtherType.ofCode_code]
  simp only [readIcacheVariable, List.append_assoc,
    Bytes.readWord_sixtyFour, Option.bind_eq_bind,
    Option.bind_some, hSize, hRead]

theorem readAddresses_append
    (addresses : List Address) :
    readAddresses addresses.length
        (addresses.flatMap Bytes.ofWord ++ rest) =
      some (addresses, rest) := by
  induction addresses with
  | nil => rfl
  | cons address addresses ih =>
      simp [readAddresses, ih]

/- The static instruction that a call is about. -/
def InstructionCall.sinst
    (i : InstructionCall) : StaticInstruction where
  addr := i.addr
  size := i.size
  data := i.process.getCode i.addr i.size.toNat

/- What is read for a call. -/
def InstructionCall.result
    (i : InstructionCall)
    (isa : BitVec 32) : Instruction where
  sinst := i.sinst
  addresses := i.addresses
  isBranch := i.isBranch
  taken := i.taken
  isPredicate := i.isPredicate
  executed := i.executed
  isa := isa

/-
  An instruction of at least one and at most fifteen bytes,
  which ends below the last page, with at most two addresses.
-/
structure InstructionCall.Valid
    (i : InstructionCall) : Prop where
  sizePos : 0 < i.size.toNat
  sizeLt : i.size.toNat < 16
  addresses : i.addresses.length ≤ maxDynamicAddresses
  executed : i.isPredicate = false → i.executed = true
  fits : i.addr.toNat + i.size.toNat ≤ 2 ^ 64 - 4096

section

variable {r : Reader} {r' : Reader} {i : InstructionCall}

theorem toNat_numAddresses
    (hValid : i.Valid) :
    (BitVec.ofNat 2 i.addresses.length).toNat =
      i.addresses.length := by
  have hAddresses := hValid.addresses
  rw [maxDynamicAddresses] at hAddresses
  rw [BitVec.toNat_ofNat, Nat.mod_eq_of_lt (by omega)]

theorem setWidth_size
    (v : Nat)
    (hValid : i.Valid) :
    (i.size.setWidth 4).setWidth v = i.size.setWidth v := by
  apply BitVec.eq_of_toNat_eq
  rw [BitVec.toNat_setWidth, BitVec.toNat_setWidth,
    BitVec.toNat_setWidth, Nat.mod_eq_of_lt hValid.sizeLt]

theorem setWidth_size_ne_zero
    (hValid : i.Valid) :
    i.size.setWidth 4 ≠ 0 := by
  intro hZero
  have hNat := congrArg BitVec.toNat hZero
  have hPos := hValid.sizePos
  rw [BitVec.toNat_setWidth, Nat.mod_eq_of_lt hValid.sizeLt] at hNat
  exact absurd hNat (by simpa using hPos.ne')

theorem finishInstruction_append
    (hValid : i.Valid)
    (hStatic :
      ({ r with
          lastAddress := i.addr + i.size.setWidth 64 } :
        Reader).getStaticInstruction i.addr i.size =
          some (i.sinst, r')) :
    r.finishInstruction i.addr (i.size.setWidth 4)
        (Writer.extBits i)
        (i.addresses.flatMap Bytes.ofWord ++ rest) =
      some (.instruction (i.result r'.isa), r', rest) := by
  simp only [finishInstruction, Writer.extBits,
    toNat_numAddresses hValid, guard, if_pos hValid.addresses,
    setWidth_size _ hValid, BitVec.setWidth_eq,
    readAddresses_append, Option.bind_eq_bind,
    Option.pure_def, Option.bind_some, hStatic]
  rfl

/- An instruction that follows the one before it. -/
theorem record_simple
    (hValid : i.Valid)
    (hAddr : r.lastAddress = i.addr)
    (hPredicate : i.isPredicate = false)
    (hStatic :
      ({ r with
          lastAddress := i.addr + i.size.setWidth 64 } :
        Reader).getStaticInstruction i.addr i.size =
          some (i.sinst, r')) :
    r.record fresh
        ((Writer.simpleBits i).toByte ::
          (i.addresses.flatMap Bytes.ofWord ++ rest)) =
      some (.instruction (i.result r'.isa), r', rest) := by
  have hLow : (Writer.simpleBits i).toByte &&& 0xf ≠ 0 := by
    rw [SimpleBits.toByte_and]
    intro hZero
    apply setWidth_size_ne_zero hValid
    apply BitVec.eq_of_toNat_eq
    have hNat := congrArg BitVec.toNat hZero
    rw [BitVec.toNat_setWidth_of_le (by omega)] at hNat
    exact hNat
  have hByte : (Writer.simpleBits i).toByte ≠ 0 := by
    intro hZero
    rw [hZero] at hLow
    exact hLow rfl
  have hBits : Writer.extBits i = {
      numAddresses := (Writer.simpleBits i).numAddresses
      isBranch := (Writer.simpleBits i).isBranch
      taken := (Writer.simpleBits i).taken
      isPredicate := false
      executed := true } := by
    simp [Writer.extBits, Writer.simpleBits, hPredicate,
      hValid.executed hPredicate]
  have hFinish :=
    finishInstruction_append rest hValid hStatic
  rw [hBits, ← hAddr] at hFinish
  rw [record, Bytes.readWord_cons]
  simp only [Option.bind_eq_bind, Option.bind_some,
    if_neg hByte, if_pos hLow, simpleRecord,
    SimpleBits.ofByte_toByte]
  exact hFinish

theorem record_ext
    (hValid : i.Valid)
    (hStatic :
      ({ r with
          lastAddress := i.addr + i.size.setWidth 64 } :
        Reader).getStaticInstruction i.addr i.size =
          some (i.sinst, r')) :
    r.record fresh
        (extSize (i.size.setWidth 4) ::
          (Writer.extBits i).toByte ::
            (Bytes.ofWord i.addr ++
              (i.addresses.flatMap Bytes.ofWord ++ rest))) =
      some (.instruction (i.result r'.isa), r', rest) := by
  rcases extSize_spec (i.size.setWidth 4) with
    ⟨hLow, hSize, hZero⟩
  have hByte : extSize (i.size.setWidth 4) ≠ 0 :=
    fun hEq => setWidth_size_ne_zero hValid (hZero.mp hEq)
  rw [record, Bytes.readWord_cons]
  simp only [Option.bind_eq_bind, Option.bind_some,
    if_neg hByte, hLow, extRecord, Bytes.readWord_cons,
    Bytes.readWord_sixtyFour, ExtBits.ofByte_toByte, hSize]
  exact finishInstruction_append rest hValid hStatic

/- Both kinds of records give the instruction. -/
theorem record_instruction
    {w : Writer}
    (hValid : i.Valid)
    (hLast : w.lastAddress = r.lastAddress)
    (hStatic :
      ({ r with
          lastAddress := i.addr + i.size.setWidth 64 } :
        Reader).getStaticInstruction i.addr i.size =
          some (i.sinst, r')) :
    r.record fresh
        (w.instructionRecord i ++
          i.addresses.flatMap Bytes.ofWord ++ rest) =
      some (.instruction (i.result r'.isa), r', rest) := by
  rw [List.append_assoc, Writer.instructionRecord]
  by_cases hSimple : w.isSimple i = true
  · rw [if_pos hSimple]
    rw [Writer.isSimple, Bool.and_eq_true, beq_iff_eq,
      Bool.not_eq_true'] at hSimple
    exact record_simple fresh rest hValid
      (hLast.symm.trans hSimple.1.symm) hSimple.2 hStatic
  · rw [if_neg hSimple]
    exact record_ext fresh rest hValid hStatic

end

end Sift

end Virtuoso
