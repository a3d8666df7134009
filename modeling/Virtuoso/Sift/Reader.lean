import Virtuoso.Sift.Writer

/-
  The reader of instruction traces.

  `Sift::Reader::Read` on an uncompressed trace of this
  format. The records that the reader answers are left out,
  as are the traces of ChampSim. `none` stands for the end of
  the program at an assertion, and for reads past the end of
  the trace or of an array.

  Key definitions include:
    * `Sift.Reader`
    * `Sift.readAll`
-/

namespace Virtuoso

namespace Sift

/- The bytes of a page. -/
abbrev IcachePage :=
  Nat → Byte

/-
  A static instruction is known by its address, as `scache`
  keeps one for each: `next` has the field of that name of
  each of them.
-/
structure Reader where
  lastAddress : Address
  icache : Address → Option IcachePage
  scache : Address → Option StaticInstruction
  next : Address → Option StaticInstruction
  vcache : Address → Option Address
  traceHasPa : Bool
  seenEnd : Bool
  lastSinst : Option StaticInstruction
  isa : BitVec 32

/- The reader before the first record. -/
def Reader.init (traceHasPa : Bool) : Reader where
  lastAddress := 0
  icache := fun _ => none
  scache := fun _ => none
  next := fun _ => none
  vcache := fun _ => none
  traceHasPa := traceHasPa
  seenEnd := false
  lastSinst := none
  isa := 0

/- What a record makes the loop of `Read` do. -/
inductive Step
  | next
  | callback (c : Callback)
  | instruction (i : Instruction)
  | finished
deriving DecidableEq

/- The rest of the trace. -/
abbrev Input :=
  List Byte

namespace Reader

/-
  The loop of `staticInfoInstruction`. Each round copies at
  least one byte, so there are at most as many as bytes.
-/
def copyCode
    (icache : Address → Option IcachePage) :
    Nat → Address → Nat → Nat → Option (List Byte)
| 0, _, _, _ => some []
| fuel + 1, baseAddr, offset, size =>
    if size = 0 then
      some []
    else
      (icache baseAddr).bind (fun page =>
        let amount := min size (icacheSize - offset)
        (copyCode icache fuel
          (baseAddr + BitVec.ofNat 64 icacheSize) 0
          (size - amount)).map (fun rest =>
            (List.range amount).map
              (fun i => page (offset + i)) ++ rest))

/- The bytes of an instruction are copied. -/
def staticInfoInstruction
    (r : Reader)
    (addr : Address)
    (size : Byte) : Option StaticInstruction :=
  (copyCode r.icache size.toNat (pageOf addr) (offsetOf addr)
    size.toNat).map (fun data => {
      addr := addr
      size := size
      data := data })

/- The probable next instruction, if its address is right. -/
def expectedInstruction
    (r : Reader)
    (addr : Address) : Option StaticInstruction :=
  (r.lastSinst.bind (fun last => r.next last.addr)).filter
    (fun sinst => sinst.addr == addr)

/- The static instruction, and `scache` after the lookup. -/
def lookupInstruction
    (r : Reader)
    (addr : Address)
    (size : Byte) :
    Option (StaticInstruction ×
      (Address → Option StaticInstruction)) :=
  match r.expectedInstruction addr with
  | some sinst => some (sinst, r.scache)
  | none =>
      match r.scache addr with
      | some sinst =>
          if sinst.size = size then
            some (sinst, r.scache)
          else
            none
      | none =>
          (r.staticInfoInstruction addr size).map
            (fun sinst =>
              (sinst, Function.update r.scache addr (some sinst)))

/- `next` is only set once. -/
def linkNext
    (r : Reader)
    (sinst : StaticInstruction) :
    Address → Option StaticInstruction :=
  match r.lastSinst with
  | none => r.next
  | some last =>
      if r.next last.addr = none then
        Function.update r.next last.addr (some sinst)
      else
        r.next

/- The instruction, linked to the one before. -/
def getStaticInstruction
    (r : Reader)
    (addr : Address)
    (size : Byte) : Option (StaticInstruction × Reader) :=
  (r.lookupInstruction addr size).map (fun out =>
    (out.1,
      { r with
        scache := out.2
        next := r.linkNext out.1
        lastSinst := some out.1 }))

/- Some addresses are read. -/
def readAddresses :
    Nat → Input → Option (List Address × Input)
| 0, input => some ([], input)
| count + 1, input => do
    let (address, input) ← Bytes.readWord 64 input
    let (addresses, input) ← readAddresses count input
    some (address :: addresses, input)

/- What follows once the fields of a record are known. -/
def finishInstruction
    (r : Reader)
    (addr : Address)
    (size : BitVec 4)
    (f : ExtBits)
    (input : Input) : Option (Step × Reader × Input) := do
  let r := { r with
    lastAddress := addr + size.setWidth 64 }
  -- There is room for two addresses.
  guard (f.numAddresses.toNat ≤ maxDynamicAddresses)
  let (addresses, input) ←
    readAddresses f.numAddresses.toNat input
  let (sinst, r) ←
    r.getStaticInstruction addr (size.setWidth 8)
  some (.instruction {
      sinst := sinst
      addresses := addresses
      isBranch := f.isBranch
      taken := f.taken
      isPredicate := f.isPredicate
      executed := f.executed
      isa := r.isa }, r, input)

/- An instruction in one byte. -/
def simpleRecord
    (r : Reader)
    (byte : Byte)
    (input : Input) : Option (Step × Reader × Input) :=
  let f := SimpleBits.ofByte byte
  r.finishInstruction r.lastAddress f.size {
    numAddresses := f.numAddresses
    isBranch := f.isBranch
    taken := f.taken
    isPredicate := false
    executed := true } input

/- An instruction with its own address. -/
def extRecord
    (r : Reader)
    (byte : Byte)
    (input : Input) : Option (Step × Reader × Input) := do
  let (bits, input) ← Bytes.readWord 8 input
  let (addr, input) ← Bytes.readWord 64 input
  r.finishInstruction addr (byte.extractLsb' 4 4)
    (ExtBits.ofByte bits) input

/- Some bytes of the page are written. -/
def IcachePage.write
    (page : IcachePage)
    (offset : Nat)
    (bytes : List Byte) : IcachePage :=
  fun i =>
    if offset ≤ i then
      (bytes[i - offset]?).getD (page i)
    else
      page i

variable (fresh : Address → IcachePage)

/-
  The loop that reads the bytes of an instruction, of which
  each round takes at least one. A page that is not there is
  allocated, with contents that the source does not set.
-/
def readVariable :
    Nat → (Address → Option IcachePage) → Address → Nat →
    Input → Option ((Address → Option IcachePage) × Input)
| 0, icache, _, _, input => some (icache, input)
| fuel + 1, icache, address, sizeLeft, input =>
    if sizeLeft = 0 then
      some (icache, input)
    else do
      let baseAddr := pageOf address
      let page := (icache baseAddr).getD (fresh baseAddr)
      let offset := offsetOf address
      let amount := min sizeLeft (icacheSize - offset)
      let (bytes, input) ← Bytes.read amount input
      readVariable fuel
        (Function.update icache baseAddr
          (some (IcachePage.write page offset bytes)))
        (baseAddr + BitVec.ofNat 64 icacheSize)
        (sizeLeft - amount) input

/- Some bytes of instructions are kept. -/
def readIcacheVariable
    (r : Reader)
    (size : BitVec 32)
    (input : Input) : Option (Step × Reader × Input) := do
  let size := (size.setWidth 64 - 8 : BitVec 64).toNat
  let (address, input) ← Bytes.readWord 64 input
  let (icache, input) ←
    readVariable fresh size r.icache address size input
  some (.next, { r with icache := icache }, input)

/- A page of instructions is kept. -/
def readIcache
    (r : Reader)
    (size : BitVec 32)
    (input : Input) : Option (Step × Reader × Input) := do
  guard (size = 8 + BitVec.ofNat 32 icacheSize)
  let (address, input) ← Bytes.readWord 64 input
  let (bytes, input) ← Bytes.read icacheSize input
  let page := IcachePage.write (fresh address) 0 bytes
  some (.next,
    { r with
      icache := Function.update r.icache address (some page) },
    input)

/- A physical page is kept. -/
def readLogical2Physical
    (r : Reader)
    (size : BitVec 32)
    (input : Input) : Option (Step × Reader × Input) := do
  guard (size = 16)
  let (vp, input) ← Bytes.readWord 64 input
  let (pp, input) ← Bytes.readWord 64 input
  some (.next,
    { r with vcache := Function.update r.vcache vp (some pp) },
    input)

/- An access without an instruction. -/
def readCacheOnly
    (size : BitVec 32)
    (input : Input) : Option (Callback × Input) := do
  guard (size = 18)
  let (icount, input) ← Bytes.readWord 8 input
  let (type, input) ← Bytes.readWord 8 input
  let (eip, input) ← Bytes.readWord 64 input
  let (address, input) ← Bytes.readWord 64 input
  some (.cacheOnly icount type eip address, input)

/- An output of the program. -/
def readOutput
    (size : BitVec 32)
    (input : Input) : Option (Callback × Input) := do
  guard (size > 1)
  let (fd, input) ← Bytes.readWord 8 input
  let (bytes, input) ← Bytes.read (size - 1).toNat input
  some (.output fd bytes, input)

/- An event of a routine. -/
def readRoutineChange
    (size : BitVec 32)
    (input : Input) : Option (Callback × Input) := do
  guard (size = 25)
  let (event, input) ← Bytes.readWord 8 input
  let (eip, input) ← Bytes.readWord 64 input
  let (esp, input) ← Bytes.readWord 64 input
  let (callEip, input) ← Bytes.readWord 64 input
  some (.routineChange event eip esp callEip, input)

/- A string behind its length. -/
def readString
    (input : Input) : Option (CString × Input) := do
  let (len, input) ← Bytes.readWord 16 input
  let (buffer, input) ← Bytes.read len.toNat input
  let s ← CString.ofBuffer buffer
  some (s, input)

/- The names and places of a routine. -/
def readRoutineAnnounce
    (input : Input) : Option (Callback × Input) := do
  let (eip, input) ← Bytes.readWord 64 input
  let (name, input) ← readString input
  let (imgname, input) ← readString input
  let (offset, input) ← Bytes.readWord 64 input
  let (line, input) ← Bytes.readWord 32 input
  let (column, input) ← Bytes.readWord 32 input
  let (filename, input) ← readString input
  some (.routineAnnounce eip name imgname offset line column
    filename, input)

/- The instruction set changes. -/
def readIsaChange
    (r : Reader)
    (size : BitVec 32)
    (input : Input) : Option (Step × Reader × Input) := do
  guard (size = 4)
  let (newIsa, input) ← Bytes.readWord 32 input
  some (.next, { r with isa := newIsa }, input)

/- A record of a type that the loop does not know. -/
def skipRecord
    (r : Reader)
    (size : BitVec 32)
    (input : Input) : Option (Step × Reader × Input) := do
  let (_, input) ← Bytes.read size.toNat input
  some (.next, r, input)

/- A record that only calls a handler. -/
def callBack
    (r : Reader) :
    Callback × Input → Step × Reader × Input :=
  fun out => (.callback out.1, r, out.2)

/-
  The records of the other kind. Those that the reader would
  answer come from calls that are left out.
-/
def otherRecord
    (r : Reader)
    (type : Byte)
    (size : BitVec 32)
    (input : Input) : Option (Step × Reader × Input) :=
  match RecOtherType.ofCode type with
  | some .finish =>
      if size = 0 then
        some (.finished, { r with seenEnd := true }, input)
      else
        none
  | some .icache => r.readIcache fresh size input
  | some .icacheVariable =>
      r.readIcacheVariable fresh size input
  | some .logical2Physical =>
      r.readLogical2Physical size input
  | some .cacheOnly => (readCacheOnly size input).map r.callBack
  | some .output => (readOutput size input).map r.callBack
  | some .routineChange =>
      (readRoutineChange size input).map r.callBack
  | some .routineAnnounce =>
      (readRoutineAnnounce input).map r.callBack
  | some .isaChange => r.readIsaChange size input
  | some .instructionCount | some .syscallRequest
  | some .newThread | some .join | some .sync | some .fork
  | some .magicInstruction | some .emu => none
  | _ => r.skipRecord size input

/- One round of the loop of `Read`. -/
def record
    (r : Reader)
    (input : Input) : Option (Step × Reader × Input) := do
  let (byte, input) ← Bytes.readWord 8 input
  if byte = 0 then do
    let (type, input) ← Bytes.readWord 8 input
    let (size, input) ← Bytes.readWord 32 input
    r.otherRecord fresh type size input
  else if byte &&& 0xf ≠ 0 then
    r.simpleRecord byte input
  else
    r.extRecord byte input

/- What `Read` returns, with an instruction if it set one. -/
inductive Returned
  | instruction (i : Instruction)
  | unchanged
  | finished
deriving DecidableEq

/- What a read gives, and what is left. -/
structure ReadOut where
  callbacks : List Callback
  returned : Returned
  reader : Reader
  input : Input

/- A callback comes before. -/
def ReadOut.after
    (c : Callback)
    (out : ReadOut) : ReadOut :=
  { out with callbacks := c :: out.callbacks }

/- The loop of `Read`, for fewer than `fuel` records. -/
def read :
    Nat → Reader → Input → Option ReadOut
| 0, _, _ => none
| fuel + 1, r, input =>
    if r.seenEnd then
      some ⟨[], .unchanged, r, input⟩
    else
      match r.record fresh input with
      | none => none
      | some (.next, r, input) => read fuel r input
      | some (.callback c, r, input) =>
          (read fuel r input).map (ReadOut.after c)
      | some (.instruction i, r, input) =>
          some ⟨[], .instruction i, r, input⟩
      | some (.finished, r, input) =>
          some ⟨[], .finished, r, input⟩

end Reader

/- What a caller sees of a reader until it returns false. -/
inductive Event
  | callback (c : Callback)
  | instruction (i : Instruction)
  | unchanged
deriving DecidableEq

/- The events of a call, and of those that follow it. -/
def Reader.ReadOut.events
    (following : Reader → Input → Option (List Event))
    (out : ReadOut) : Option (List Event) :=
  let callbacks := out.callbacks.map Event.callback
  match out.returned with
  | .finished => some callbacks
  | .instruction i =>
      (following out.reader out.input).map (fun events =>
        callbacks ++ .instruction i :: events)
  | .unchanged =>
      (following out.reader out.input).map (fun events =>
        callbacks ++ .unchanged :: events)

variable (fresh : Address → IcachePage)

/- Calls of `Read` until it returns false. -/
def readCalls :
    Nat → Reader → Input → Option (List Event)
| 0, _, _ => none
| fuel + 1, r, input =>
    (r.read fresh (fuel + 1) input).bind
      (Reader.ReadOut.events (readCalls fuel))

/- `initStream` on a trace that is not compressed. -/
def initStream
    (input : Input) : Option (Reader × Input) := do
  let (magic, input) ← Bytes.readWord 32 input
  let (_, input) ← Bytes.readWord 32 input
  let (options, input) ← Bytes.readWord 64 input
  guard (magic = magicNumber)
  guard (options &&& ~~~(archIA32 ||| physicalAddress |||
    icacheVariable) = 0)
  some (Reader.init (options &&& physicalAddress ≠ 0), input)

/- Each record takes at least one byte of the trace. -/
def readAll
    (input : Input) : Option (List Event) := do
  let (r, input) ← initStream input
  readCalls fresh (input.length + 1) r input

end Sift

end Virtuoso
