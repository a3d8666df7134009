import Mathlib.Logic.Function.Basic
import Virtuoso.Sift.Format

/-
  The writer of instruction traces.

  The calls of `Sift::Writer` that wait for no response, with
  the bytes that each adds to the trace. Counters, compression
  and the calls that do wait are left out. A call gives `none`
  where an assertion of the source fails, or where its loop
  over the pages of an instruction never ends.

  Key definitions include:
    * `Sift.Options`, `Sift.Process`, `Sift.Call`
    * `Sift.write`
-/

namespace Virtuoso

namespace Sift

/- The flags that a writer is opened with. -/
structure Options where
  arch32 : Bool
  requiresIcachePerInsn : Bool
  sendVa2paMapping : Bool
deriving DecidableEq

/-
  What a call sees of the traced process: its memory, which
  `getCodeFunc` copies from, and what `va2pa_lookup` finds in
  the page map of the system.
-/
structure Process where
  code : Address → Byte
  va2paLookup : Address → Address

/- The bytes of the program at an address. -/
def Process.getCode
    (p : Process)
    (src : Address)
    (size : Nat) : List Byte :=
  (List.range size).map (fun i =>
    p.code (src + BitVec.ofNat 64 i))

@[simp] theorem Process.length_getCode
    (p : Process)
    (src : Address)
    (size : Nat) :
    (p.getCode src size).length = size := by
  rw [Process.getCode, List.length_map, List.length_range]

theorem Process.getElem_getCode
    (p : Process)
    (src : Address)
    {size i : Nat}
    (hI : i < (p.getCode src size).length) :
    (p.getCode src size)[i] = p.code (src + BitVec.ofNat 64 i) := by
  simp [Process.getCode]

/- The arguments for an instruction. -/
structure InstructionCall where
  process : Process
  addr : Address
  size : Byte
  addresses : List Address
  isBranch : Bool
  taken : Bool
  isPredicate : Bool
  executed : Bool

/- The calls of the writer. -/
inductive Call
  | instruction (i : InstructionCall)
  | isaChange (newIsa : BitVec 32)
  | cacheOnly (process : Process) (icount : Byte)
      (type : CacheOnlyType) (eip address : Address)
  | output (fd : Byte) (data : List Byte)
  | routineChange (event : RoutineOpType)
      (eip esp callEip : Address)
  | routineAnnounce (eip : Address) (name imgname : CString)
      (offset : BitVec 64) (line column : BitVec 32)
      (filename : CString)

/-
  `icache` has the pages whose bytes were sent or, sent for
  each instruction, the addresses of these.
-/
structure Writer where
  requiresIcachePerInsn : Bool
  sendVa2paMapping : Bool
  lastAddress : Address
  icache : Address → Bool
  va2pa : Address → Bool

/- Nothing has been sent. -/
def Writer.init (o : Options) : Writer where
  requiresIcachePerInsn := o.requiresIcachePerInsn
  sendVa2paMapping := o.sendVa2paMapping
  lastAddress := 0
  icache := fun _ => false
  va2pa := fun _ => false

/- The options in the header. -/
def Options.bits (o : Options) : BitVec 64 :=
  (if o.arch32 then archIA32 else 0) |||
    (if o.requiresIcachePerInsn then icacheVariable else 0) |||
    (if o.sendVa2paMapping then physicalAddress else 0)

/- The header, without extra options. -/
def header (o : Options) : List Byte :=
  Bytes.ofWord magicNumber ++ Bytes.ofWord (0 : BitVec 32) ++
    Bytes.ofWord o.bits

namespace Writer

/- The bytes of an instruction, the first time. -/
def sendVariable
    (w : Writer)
    (i : InstructionCall) : List Byte × Writer :=
  if w.icache i.addr then
    ([], w)
  else
    (otherRecord .icacheVariable (8 + i.size.setWidth 32) ++
        (Bytes.ofWord i.addr ++
          i.process.getCode i.addr i.size.toNat),
      { w with icache := Function.update w.icache i.addr true })

/- A page of instructions is sent once. -/
def sendPage
    (w : Writer)
    (p : Process)
    (baseAddr : Address) : List Byte × Writer :=
  if w.icache baseAddr then
    ([], w)
  else
    (otherRecord .icache (8 + BitVec.ofNat 32 icacheSize) ++
        (Bytes.ofWord baseAddr ++ p.getCode baseAddr icacheSize),
      { w with icache := Function.update w.icache baseAddr true })

/-
  The loop over the pages of an instruction. It does not end
  where its address wraps around, so one that has seen more
  pages than there are never ends.
-/
def sendPages
    (p : Process)
    (last : Address) :
    Nat → Address → Writer → Option (List Byte × Writer)
| 0, _, _ => none
| fuel + 1, baseAddr, w =>
    if baseAddr ≤ last then
      let (bytes, w) := w.sendPage p baseAddr
      (sendPages p last fuel
        (baseAddr + BitVec.ofNat 64 icacheSize) w).map
          (fun out => (bytes ++ out.1, out.2))
    else
      some ([], w)

/- The pages of the address space. -/
def pageCount : Nat :=
  2 ^ 52

/- The bytes of an instruction are sent before it. -/
def sendIcache
    (w : Writer)
    (i : InstructionCall) : Option (List Byte × Writer) :=
  if w.requiresIcachePerInsn then
    some (w.sendVariable i)
  else
    sendPages i.process
      (pageOf (i.addr + i.size.setWidth 64 - 1))
      (pageCount + 1) (pageOf i.addr) w

/- A mapping to the page zero is not sent. -/
def sendVa2pa
    (w : Writer)
    (p : Process)
    (va : Address) : List Byte × Writer :=
  let vp := va / pageSizeSift
  let pp := p.va2paLookup vp
  if w.sendVa2paMapping ∧ ¬ w.va2pa vp ∧ pp ≠ 0 then
    (otherRecord .logical2Physical 16 ++
        (Bytes.ofWord vp ++ Bytes.ofWord pp),
      { w with va2pa := Function.update w.va2pa vp true })
  else
    ([], w)

/- The physical pages of some addresses are sent. -/
def sendAllVa2pa
    (p : Process) :
    List Address → Writer → List Byte × Writer
| [], w => ([], w)
| va :: vas, w =>
    let (bytes, w) := w.sendVa2pa p va
    let (rest, w) := sendAllVa2pa p vas w
    (bytes ++ rest, w)

/- The bit fields of a simple record. -/
def simpleBits (i : InstructionCall) : SimpleBits where
  size := i.size.setWidth 4
  numAddresses := BitVec.ofNat 2 i.addresses.length
  isBranch := i.isBranch
  taken := i.taken

/- The bit fields of an extended record. -/
def extBits (i : InstructionCall) : ExtBits where
  numAddresses := BitVec.ofNat 2 i.addresses.length
  isBranch := i.isBranch
  taken := i.taken
  isPredicate := i.isPredicate
  executed := i.executed

/- The instruction follows and has no predicate. -/
def isSimple (w : Writer) (i : InstructionCall) : Bool :=
  i.addr == w.lastAddress && !i.isPredicate

/- The record of an instruction, without its addresses. -/
def instructionRecord
    (w : Writer)
    (i : InstructionCall) : List Byte :=
  if w.isSimple i then
    [(simpleBits i).toByte]
  else
    extSize (i.size.setWidth 4) :: (extBits i).toByte ::
      Bytes.ofWord i.addr

/- `last_address` after it, set before the size is added. -/
def lastAddressAfter
    (w : Writer)
    (i : InstructionCall) : Address :=
  (if w.isSimple i then w.lastAddress else i.addr) +
    i.size.setWidth 64

/- An instruction, after its bytes and pages. -/
def instruction
    (w : Writer)
    (i : InstructionCall) : Option (List Byte × Writer) :=
  if i.size < 16 ∧ i.addresses.length ≤ maxDynamicAddresses then
    (w.sendIcache i).map (fun sent =>
      let (icacheBytes, w) := sent
      let (va2paBytes, w) :=
        sendAllVa2pa i.process (i.addr :: i.addresses) w
      (icacheBytes ++ (va2paBytes ++ (w.instructionRecord i ++
          i.addresses.flatMap Bytes.ofWord)),
        { w with lastAddress := w.lastAddressAfter i }))
  else
    none

/- The instruction set changes. -/
def isaChange (newIsa : BitVec 32) : List Byte :=
  otherRecord .isaChange 4 ++ Bytes.ofWord newIsa

/- An access without an instruction. -/
def cacheOnly
    (w : Writer)
    (p : Process)
    (icount : Byte)
    (type : CacheOnlyType)
    (eip address : Address) : List Byte × Writer :=
  let (bytes, w) := sendAllVa2pa p [eip, address] w
  (bytes ++ (otherRecord .cacheOnly 18 ++
      (icount :: type.code ::
        (Bytes.ofWord eip ++ Bytes.ofWord address))),
    w)

/- The size of the record is counted in 32 bits. -/
def output (fd : Byte) (data : List Byte) : List Byte :=
  otherRecord .output (1 + BitVec.ofNat 32 data.length) ++
    (fd :: data)

/- An event of a routine. -/
def routineChange
    (event : RoutineOpType)
    (eip esp callEip : Address) : List Byte :=
  otherRecord .routineChange 25 ++
    (event.code :: (Bytes.ofWord eip ++
      (Bytes.ofWord esp ++ Bytes.ofWord callEip)))

/- A string and its end, after their number in 16 bits. -/
def storedLength (s : CString) : BitVec 16 :=
  BitVec.ofNat 16 (s.bytes.length + 1)

/- A string behind its length. -/
def sendString (s : CString) : List Byte :=
  Bytes.ofWord (storedLength s) ++
    s.stored.take (storedLength s).toNat

/- The names and places of a routine. -/
def routineAnnounce
    (eip : Address)
    (name imgname : CString)
    (offset : BitVec 64)
    (line column : BitVec 32)
    (filename : CString) : List Byte :=
  otherRecord .routineAnnounce
      (8 + 2 + (storedLength name).setWidth 32 +
        2 + (storedLength imgname).setWidth 32 +
        8 + 4 + 4 + 2 + (storedLength filename).setWidth 32) ++
    (Bytes.ofWord eip ++ (sendString name ++
      (sendString imgname ++ (Bytes.ofWord offset ++
        (Bytes.ofWord line ++ (Bytes.ofWord column ++
          sendString filename))))))

/- The record that ends the trace. -/
def finish : List Byte :=
  otherRecord .finish 0

/- What a call sends. -/
def call (w : Writer) : Call → Option (List Byte × Writer)
| .instruction i => w.instruction i
| .isaChange newIsa => some (isaChange newIsa, w)
| .cacheOnly p icount type eip address =>
    some (w.cacheOnly p icount type eip address)
| .output fd data => some (output fd data, w)
| .routineChange event eip esp callEip =>
    some (routineChange event eip esp callEip, w)
| .routineAnnounce eip name imgname offset line column filename =>
    some (routineAnnounce eip name imgname offset line column
      filename, w)

/- The bytes of the calls, and of `End` after them. -/
def calls :
    List Call → Writer → Option (List Byte)
| [], _ => some finish
| c :: cs, w =>
    (w.call c).bind (fun out =>
      (calls cs out.2).map (fun rest => out.1 ++ rest))

end Writer

/- The whole trace of a writer. -/
def write
    (o : Options)
    (cs : List Call) : Option (List Byte) :=
  (Writer.calls cs (Writer.init o)).map (fun bytes =>
    header o ++ bytes)

end Sift

end Virtuoso
