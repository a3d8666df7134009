import Mathlib.Algebra.Group.Nat.Defs
import Virtuoso.Lib.Memo

/-
  The instructions of ChampSim traces, from `sift_reader.cc`
  and `trace_thread.cc`.

  A record has fixed numbers of registers and addresses, of
  which zero stands for none. The decoded instructions are
  kept under the instruction pointer, the branch flag and the
  numbers of operands, but not under the registers.

  The address that `va2pa` gives for an instruction pointer is
  part of the record that is decoded. The statistics are left
  out. What the decoder library says of an instruction without
  an opcode is a parameter.

  Main declarations:
    * `ChampSimThread.decoded_agree_iff`
-/

namespace Virtuoso

/- A record of the trace, `input_instr`. -/
structure ChampSimRecord where
  ip : BitVec 64
  isBranch : Bool
  destinationRegisters : Fin 2 → BitVec 8
  sourceRegisters : Fin 4 → BitVec 8
  destinationMemory : Fin 2 → BitVec 64
  sourceMemory : Fin 4 → BitVec 64

/- What the decoder reads of a `Sift::Instruction`. -/
structure ChampSimInstruction where
  addr : BitVec 64
  size : Nat
  isBranch : Bool
  srcRegisters : List (BitVec 8)
  destRegisters : List (BitVec 8)
  srcAddresses : List (BitVec 64)
  destAddresses : List (BitVec 64)
deriving DecidableEq

/- The entries of an array that are not zero, in order. -/
def collect
    {n w : Nat}
    (entries : Fin n → BitVec w) : List (BitVec w) :=
  (List.ofFn entries).filter (fun entry => entry != 0)

/- `Reader::readChampSim`, with the size of instructions. -/
def readChampSim
    (r : ChampSimRecord) : ChampSimInstruction where
  addr := r.ip
  size := 4
  isBranch := r.isBranch
  srcRegisters := collect r.sourceRegisters
  destRegisters := collect r.destinationRegisters
  srcAddresses := collect r.sourceMemory
  destAddresses := collect r.destinationMemory

/- The types of an operand. -/
inductive OperandType where
| reg
| memory
| immediate
deriving DecidableEq, Repr

/- Operands are read or written. -/
inductive OperandDirection where
| read
| write
deriving DecidableEq, Repr

/- An operand of an instruction. -/
structure Operand where
  type : OperandType
  value : Nat
  direction : OperandDirection
deriving DecidableEq, Repr

/- The subtypes of a micro-operation. -/
inductive UopSubtype where
| fpAddSub
| fpMulDiv
| load
| store
| generic
| branch
deriving DecidableEq, Repr

/- The types of a micro-operation. -/
inductive UopType where
| load
| execute
| store
deriving DecidableEq, Repr

/- A micro-operation. The size of an execution is not set. -/
structure MicroOp where
  instructionPointer : BitVec 64
  operandSize : Nat
  type : UopType
  subtype : UopSubtype
  typeOffset : Nat
  intraInstructionDependencies : Nat
  name : String
  memoryAccessSize : Option Nat
  branch : Bool
  first : Bool
  last : Bool
deriving DecidableEq, Repr

/- The types of an instruction. -/
inductive InstructionType where
| generic
| branch
deriving DecidableEq, Repr

/- An instruction with its micro-operations. -/
structure DecodedInstruction where
  type : InstructionType
  operands : List Operand
  address : Nat
  size : Nat
  atomic : Bool
  disassembly : String
  isDynamic : Bool
  microOps : List MicroOp
deriving DecidableEq, Repr

/-
  The thread. The decoder gives the subtype of an execution
  without an opcode that is no branch.
-/
structure ChampSimThread where
  accessSize : Nat
  execSubtype : UopSubtype

namespace ChampSimThread

/- An instruction to decode, with its physical address. -/
structure Request where
  inst : ChampSimInstruction
  pa : Nat
deriving DecidableEq

/- `ChampSimCacheKey`. -/
structure CacheKey where
  pc : BitVec 64
  isBranch : Bool
  numSrcRegs : Nat
  numDestRegs : Nat
  numLoads : Nat
  numStores : Nat
deriving DecidableEq

/- What the decoded instructions are kept by. -/
def cacheKey (q : Request) : CacheKey where
  pc := q.inst.addr
  isBranch := q.inst.isBranch
  numSrcRegs := q.inst.srcRegisters.length
  numDestRegs := q.inst.destRegisters.length
  numLoads := q.inst.srcAddresses.length
  numStores := q.inst.destAddresses.length

/- A register that is read or written. -/
def registerOperand
    (direction : OperandDirection)
    (register : BitVec 8) : Operand :=
  ⟨.reg, register.toNat, direction⟩

/- An operand in memory has no address yet. -/
def memoryOperand
    (direction : OperandDirection)
    (_address : BitVec 64) : Operand :=
  ⟨.memory, 0, direction⟩

/- The sources come before the destinations. -/
def operands (inst : ChampSimInstruction) : List Operand :=
  inst.srcRegisters.map (registerOperand .read) ++
    inst.destRegisters.map (registerOperand .write) ++
    inst.srcAddresses.map (memoryOperand .read) ++
    inst.destAddresses.map (memoryOperand .write)

/- The size of an access, four bytes if none is set. -/
def memSize (t : ChampSimThread) : Nat :=
  if t.accessSize = 0 then 4 else t.accessSize

/- The micro-operation of an index, from the cache key. -/
def microOp
    (t : ChampSimThread)
    (key : CacheKey)
    (idx : Nat) : MicroOp :=
  let numExecs := 1
  let total := key.numLoads + numExecs + key.numStores
  let common : MicroOp :=
    { instructionPointer := key.pc
      operandSize := t.memSize * 8 % 2 ^ 32
      type := .load
      subtype := .load
      typeOffset := idx
      intraInstructionDependencies := 0
      name := "champsim-load"
      memoryAccessSize := some (t.memSize % 2 ^ 16)
      branch := false
      first := idx == 0
      last := idx == total - 1 }
  if idx < key.numLoads then
    common
  else if idx < key.numLoads + numExecs then
    { common with
      type := .execute
      subtype := if key.isBranch then .branch else t.execSubtype
      typeOffset := idx - key.numLoads
      intraInstructionDependencies := key.numLoads
      name := "champsim-exec"
      memoryAccessSize := none
      branch := key.isBranch }
  else
    { common with
      type := .store
      subtype := .store
      typeOffset := idx - key.numLoads - numExecs
      intraInstructionDependencies := numExecs
      name := "champsim-store" }

/- The loads, the execution and the stores. -/
def microOps
    (t : ChampSimThread)
    (key : CacheKey) : List MicroOp :=
  (List.range (key.numLoads + 1 + key.numStores)).map
    (t.microOp key)

/- The instruction that a miss creates. -/
def decodeFresh
    (t : ChampSimThread)
    (q : Request) : DecodedInstruction where
  type := if q.inst.isBranch then .branch else .generic
  operands := operands q.inst
  address := q.pa
  size := q.inst.size
  atomic := false
  disassembly := "champsim-trace"
  isDynamic := false
  microOps := t.microOps (cacheKey q)

/- `TraceThread::decodeChampsim`, over the cache. -/
def decodeChampsim
    (t : ChampSimThread)
    (cache : List (CacheKey × DecodedInstruction))
    (q : Request) :
    DecodedInstruction × List (CacheKey × DecodedInstruction) :=
  match cache.lookup (cacheKey q) with
  | some d => (d, cache)
  | none =>
      (t.decodeFresh q,
        Assoc.insert cache (cacheKey q) (t.decodeFresh q))

/- The request that a record of the trace gives rise to. -/
def request (r : ChampSimRecord × Nat) : Request :=
  ⟨readChampSim r.1, r.2⟩

/- The instructions of the records of a trace, in turn. -/
def decodeFrom
    (t : ChampSimThread) :
    List (CacheKey × DecodedInstruction) →
      List (ChampSimRecord × Nat) → List DecodedInstruction
| _, [] => []
| cache, r :: trace =>
    let (d, cache') := t.decodeChampsim cache (request r)
    d :: decodeFrom t cache' trace

/- The trace from an empty cache on. -/
def decodeTrace
    (t : ChampSimThread)
    (trace : List (ChampSimRecord × Nat)) :
    List DecodedInstruction :=
  t.decodeFrom [] trace

variable (t : ChampSimThread)

theorem decodeChampsim_eq_fetch
    (cache : List (CacheKey × DecodedInstruction))
    (q : Request) :
    t.decodeChampsim cache q =
      Memo.fetch cacheKey t.decodeFresh cache q := by
  rw [decodeChampsim, Memo.fetch]
  cases cache.lookup (cacheKey q) <;> rfl

/- The cache memoizes the decoding under the cache key. -/
theorem decodeFrom_eq_outputs
    (cache : List (CacheKey × DecodedInstruction))
    (trace : List (ChampSimRecord × Nat)) :
    t.decodeFrom cache trace =
      Memo.outputs cacheKey t.decodeFresh cache
        (trace.map request) := by
  induction trace generalizing cache with
  | nil => rfl
  | cons r trace ih =>
      rw [List.map_cons, Memo.outputs, ← ih, decodeFrom,
        decodeChampsim_eq_fetch]

/- What is compared of two decoded instructions. -/
def view
    (d : DecodedInstruction) :
    InstructionType × List Operand × List MicroOp :=
  (d.type, d.operands, d.microOps)

theorem registerOperand_injective
    (direction : OperandDirection) :
    Function.Injective (registerOperand direction) := by
  intro r r' hEq
  rw [registerOperand, registerOperand, Operand.mk.injEq] at hEq
  exact BitVec.eq_of_toNat_eq hEq.2.1

/- The memory operands depend on their number alone. -/
theorem map_memoryOperand
    (direction : OperandDirection)
    {l l' : List (BitVec 64)}
    (hLength : l.length = l'.length) :
    l.map (memoryOperand direction) =
      l'.map (memoryOperand direction) := by
  have hConst (l : List (BitVec 64)) :
      l.map (memoryOperand direction) =
        List.replicate l.length (memoryOperand direction 0) :=
    List.map_const' ..
  rw [hConst l, hConst l', hLength]

/- Equally many operands are equal if their registers are. -/
theorem operands_eq_iff
    {i i' : ChampSimInstruction}
    (hSrc : i.srcRegisters.length = i'.srcRegisters.length)
    (hLoads : i.srcAddresses.length = i'.srcAddresses.length)
    (hStores : i.destAddresses.length = i'.destAddresses.length) :
    operands i = operands i' ↔
      i.srcRegisters = i'.srcRegisters ∧
        i.destRegisters = i'.destRegisters := by
  rw [operands, operands, map_memoryOperand .read hLoads,
    map_memoryOperand .write hStores,
    List.append_left_inj, List.append_left_inj]
  constructor
  · intro hEq
    rcases List.append_inj hEq
        (by rw [List.length_map, List.length_map, hSrc]) with
      ⟨hRead, hWrite⟩
    exact ⟨List.map_injective_iff.mpr
        (registerOperand_injective .read) hRead,
      List.map_injective_iff.mpr
        (registerOperand_injective .write) hWrite⟩
  · rintro ⟨hRead, hWrite⟩
    rw [hRead, hWrite]

/- Under one key the views differ in the registers alone. -/
theorem determines_iff
    (q q' : Request) :
    Memo.Determines cacheKey t.decodeFresh view q q' ↔
      (cacheKey q = cacheKey q' →
        q.inst.srcRegisters = q'.inst.srcRegisters ∧
          q.inst.destRegisters = q'.inst.destRegisters) := by
  apply imp_congr_right
  intro hKey
  have hParts := hKey
  rw [cacheKey, cacheKey, CacheKey.mk.injEq] at hParts
  rcases hParts with
    ⟨-, hBranch, hSrc, -, hLoads, hStores⟩
  rw [← operands_eq_iff hSrc hLoads hStores]
  rw [view, view, decodeFresh, decodeFresh]
  simp only [Prod.mk.injEq]
  rw [hKey, hBranch]
  simp

/-
  Whatever the trace, the decoded instructions agree with
  those decoded without the cache if and only if records of
  one key have the same registers.
-/
theorem decoded_agree_iff
    (t : ChampSimThread)
    (trace : List (ChampSimRecord × Nat)) :
    List.Forall₂
        (fun d r => view d = view (t.decodeFresh (request r)))
        (t.decodeTrace trace) trace ↔
      trace.Pairwise (fun r r' =>
        cacheKey (request r) = cacheKey (request r') →
          collect r.1.sourceRegisters =
              collect r'.1.sourceRegisters ∧
            collect r.1.destinationRegisters =
              collect r'.1.destinationRegisters) := by
  have hMemo := Memo.outputs_nil_agree_iff cacheKey
    t.decodeFresh view (trace.map request)
  rw [List.forall₂_map_right_iff, List.pairwise_map] at hMemo
  rw [decodeTrace, decodeFrom_eq_outputs]
  refine hMemo.trans (List.Pairwise.iff ?_)
  intro r r'
  exact determines_iff t (request r) (request r')

/- A record that reads one register. -/
def reading (register : BitVec 8) : ChampSimRecord where
  ip := 4096
  isBranch := false
  destinationRegisters := fun _ => 0
  sourceRegisters := fun i => if i = 0 then register else 0
  destinationMemory := fun _ => 0
  sourceMemory := fun _ => 0

/- Another register is read at the same place. -/
theorem not_decoded_agree_reading :
    ¬ List.Forall₂
        (fun d r =>
          view d =
            view ((ChampSimThread.mk 4 .generic).decodeFresh
              (request r)))
        ((ChampSimThread.mk 4 .generic).decodeTrace
          [(reading 1, 4096), (reading 2, 4096)])
        [(reading 1, 4096), (reading 2, 4096)] := by
  intro hAgree
  have hFirst :
      (ChampSimThread.mk 4 .generic).decodeTrace
          [(reading 1, 4096), (reading 2, 4096)] =
        List.replicate 2
          ((ChampSimThread.mk 4 .generic).decodeFresh
            (request (reading 1, 4096))) := by
    decide +kernel
  rw [hFirst, List.replicate_succ, List.forall₂_cons,
    List.replicate_one, List.forall₂_cons] at hAgree
  exact absurd hAgree.2.1 (by decide +kernel)

end ChampSimThread

end Virtuoso
