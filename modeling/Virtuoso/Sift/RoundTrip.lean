import Virtuoso.Sift.Prelude

/-
  Round trips of instruction traces.

  A reader that follows a writer gives its instructions and
  its callbacks in the order of the calls. They stay in step
  over every call but an output of one byte less than fits
  in 32 bits, where the reader stops at an assertion.

  Main declarations:
    * `Sift.calls_read`
    * `Sift.roundTrip_iff`
-/

------------------------------------------------------------
-- A Reader And A Writer In Step
------------------------------------------------------------

namespace Virtuoso

namespace Sift

open Reader

/- Every kept instruction is the one of the calls. -/
def KnownStatics
    (cs : List Call)
    (scache : Address → Option StaticInstruction) : Prop :=
  ∀ a s, scache a = some s → s.addr = a ∧
    ∀ i, .instruction i ∈ cs → i.addr = a → s = i.sinst

/- The linked instructions are in the table. -/
def LinksKnown
    (scache next : Address → Option StaticInstruction) : Prop :=
  ∀ a s, next a = some s → scache s.addr = some s

section

variable {cs : List Call} {r : Reader} {i : InstructionCall}

theorem staticInfoInstruction_of_readable
    (hReadable : i.Readable r.icache) :
    r.staticInfoInstruction i.addr i.size = some i.sinst := by
  rw [staticInfoInstruction,
    copyCode_of_bytes _ (Nat.le_refl _) hReadable]
  rfl

theorem lookupInstruction_spec
    (hCall : .instruction i ∈ cs)
    (hSame : ∀ j, .instruction j ∈ cs → j.addr = i.addr →
      j.sinst = i.sinst)
    (hKnown : KnownStatics cs r.scache)
    (hLinks : LinksKnown r.scache r.next)
    (hReadable : (r.scache i.addr).isSome ∨ i.Readable r.icache) :
    ∃ scache,
      r.lookupInstruction i.addr i.size = some (i.sinst, scache) ∧
      KnownStatics cs scache ∧
      scache i.addr = some i.sinst ∧
      ∀ a s, r.scache a = some s → scache a = some s := by
  unfold lookupInstruction
  cases hExpected : r.expectedInstruction i.addr with
  | some s =>
      rw [expectedInstruction, Option.filter_eq_some_iff,
        Option.bind_eq_some_iff] at hExpected
      rcases hExpected with ⟨⟨last, _, hNext⟩, hAddr⟩
      have hKept := hLinks _ _ hNext
      rw [beq_iff_eq.mp hAddr] at hKept
      have hEq := (hKnown _ _ hKept).2 i hCall rfl
      subst hEq
      exact ⟨r.scache, rfl, hKnown, hKept, fun a s hS => hS⟩
  | none =>
      cases hFound : r.scache i.addr with
      | some s =>
          have hEq := (hKnown _ _ hFound).2 i hCall rfl
          subst hEq
          refine ⟨r.scache, ?_, hKnown, hFound, fun a s hS => hS⟩
          exact if_pos rfl
      | none =>
          rw [hFound] at hReadable
          have hRead := hReadable.resolve_left (by simp)
          dsimp only
          rw [staticInfoInstruction_of_readable hRead]
          refine ⟨_, rfl, ?_, Function.update_self .., ?_⟩
          · intro a s hS
            by_cases hAddr : a = i.addr
            · rw [hAddr, Function.update_self] at hS
              have hEq := Option.some.inj hS
              subst hEq
              refine ⟨hAddr.symm, ?_⟩
              intro j hJ hAt
              exact (hSame j hJ (hAt.trans hAddr)).symm
            · rw [Function.update_of_ne hAddr] at hS
              exact hKnown a s hS
          · intro a s hS
            have hAddr : a ≠ i.addr := by
              intro hEq
              rw [hEq, hFound] at hS
              contradiction
            rw [Function.update_of_ne hAddr]
            exact hS

theorem linksKnown_linkNext
    {scache : Address → Option StaticInstruction}
    {s : StaticInstruction}
    (hLinks : LinksKnown scache r.next)
    (hKept : scache s.addr = some s) :
    LinksKnown scache (r.linkNext s) := by
  unfold linkNext
  cases r.lastSinst with
  | none => exact hLinks
  | some last =>
      dsimp only
      split
      · intro a s' hNext
        by_cases hLast : a = last.addr
        · rw [hLast, Function.update_self] at hNext
          have hEq := Option.some.inj hNext
          subst hEq
          exact hKept
        · rw [Function.update_of_ne hLast] at hNext
          exact hLinks a s' hNext
      · exact hLinks

theorem getStaticInstruction_spec
    (hCall : .instruction i ∈ cs)
    (hSame : ∀ j, .instruction j ∈ cs → j.addr = i.addr →
      j.sinst = i.sinst)
    (hKnown : KnownStatics cs r.scache)
    (hLinks : LinksKnown r.scache r.next)
    (hReadable : (r.scache i.addr).isSome ∨ i.Readable r.icache) :
    ∃ scache next,
      r.getStaticInstruction i.addr i.size = some (i.sinst,
        { r with
          scache := scache
          next := next
          lastSinst := some i.sinst }) ∧
      KnownStatics cs scache ∧
      LinksKnown scache next ∧
      scache i.addr = some i.sinst ∧
      ∀ a s, r.scache a = some s → scache a = some s := by
  rcases lookupInstruction_spec hCall hSame hKnown hLinks
      hReadable with
    ⟨scache, hLookup, hKnown', hKept, hOld⟩
  refine ⟨scache, r.linkNext i.sinst, ?_, hKnown',
    linksKnown_linkNext ?_ hKept, hKept, hOld⟩
  · rw [getStaticInstruction, hLookup]
    rfl
  · intro a s hNext
    exact hOld _ _ (hLinks a s hNext)

end

/- The calls that a trace is claimed to keep. -/
def Call.Valid :
    Call → Prop
| .instruction i => i.Valid
| .output _ data => 0 < data.length ∧ data.length < 2 ^ 32
| .routineAnnounce _ name imgname _ _ _ filename =>
    name.bytes.length < 65535 ∧
      imgname.bytes.length < 65535 ∧
      filename.bytes.length < 65535
| _ => True

/-
  Equal addresses have equal sizes and code bytes. Sent by
  page, the code is that of the memory at every address.
-/
def SameCode
    (requiresIcachePerInsn : Bool)
    (cs : List Call) : Prop :=
  ∀ i j, .instruction i ∈ cs → .instruction j ∈ cs →
    (i.addr = j.addr → i.sinst = j.sinst) ∧
      (requiresIcachePerInsn = false →
        i.process.code = j.process.code)

/- What a reader is expected to give for a call. -/
def Call.events (isa : BitVec 32) : Call → List Event
| .instruction i => [.instruction (i.result isa)]
| .isaChange _ => []
| .cacheOnly _ icount type eip address =>
    [.callback (.cacheOnly icount type.code eip address)]
| .output fd data => [.callback (.output fd data)]
| .routineChange event eip esp callEip =>
    [.callback (.routineChange event.code eip esp callEip)]
| .routineAnnounce eip name imgname offset line column filename =>
    [.callback (.routineAnnounce eip name imgname offset line
      column filename)]

/- The instruction set after a call. -/
def Call.isaAfter (isa : BitVec 32) : Call → BitVec 32
| .isaChange newIsa => newIsa
| _ => isa

/- The events that the calls are to give. -/
def expected :
    BitVec 32 → List Call → List Event
| _, [] => []
| isa, c :: cs =>
    c.events isa ++ expected (c.isaAfter isa) cs

/- The size of the record of an output does not wrap. -/
def Call.Counted :
    Call → Prop
| .output _ data => data.length ≠ 2 ^ 32 - 1
| _ => True

instance (c : Call) : Decidable c.Counted :=
  match c with
  | .output _ data =>
      inferInstanceAs (Decidable (data.length ≠ 2 ^ 32 - 1))
  | .instruction _ | .isaChange _ | .cacheOnly ..
  | .routineChange .. | .routineAnnounce .. =>
      inferInstanceAs (Decidable True)

/- A reader in step with a writer that has these calls left. -/
structure Follows
    (w : Writer)
    (r : Reader)
    (cs : List Call) : Prop where
  lastAddress : w.lastAddress = r.lastAddress
  reading : r.seenEnd = false
  known : KnownStatics cs r.scache
  links : LinksKnown r.scache r.next
  perInsn : w.requiresIcachePerInsn = true →
    ∀ a, w.icache a = true → (r.scache a).isSome
  pages : w.requiresIcachePerInsn = false →
    ∀ i, .instruction i ∈ cs →
      HoldsPages i.process.code w.icache r.icache

section

variable (fresh : Address → IcachePage)
variable {w : Writer} {r : Reader} {i : InstructionCall}
variable {c : Call} {cs : List Call}

theorem Follows.tail
    (hFollows : Follows w r (c :: cs)) :
    Follows w r cs where
  lastAddress := hFollows.lastAddress
  reading := hFollows.reading
  known := fun a s hS => by
    rcases hFollows.known a s hS with ⟨hAddr, hOf⟩
    exact ⟨hAddr, fun i hI =>
      hOf i (List.mem_cons_of_mem c hI)⟩
  links := hFollows.links
  perInsn := hFollows.perInsn
  pages := fun hPages i hI =>
    hFollows.pages hPages i (List.mem_cons_of_mem c hI)

theorem sendIcache_passes
    (hFollows : Follows w r (.instruction i :: cs))
    (hValid : i.Valid) :
    ∃ bytes sent icache,
      w.sendIcache i = some (bytes, { w with icache := sent }) ∧
      Passes fresh r bytes [] { r with icache := icache } ∧
      ((r.scache i.addr).isSome ∨ i.Readable icache) ∧
      (w.requiresIcachePerInsn = true →
        ∀ a, sent a = true → a = i.addr ∨ w.icache a = true) ∧
      (w.requiresIcachePerInsn = false →
        HoldsPages i.process.code sent icache) := by
  unfold Writer.sendIcache
  by_cases hMode : w.requiresIcachePerInsn = true
  · rcases sendVariable_passes fresh i hFollows.reading
        (hFollows.perInsn hMode i.addr) with
      ⟨sent, icache, hWriter, hPasses, hReadable, hSent⟩
    refine ⟨_, sent, icache, ?_, hPasses, hReadable,
      fun _ => hSent, ?_⟩
    · rw [if_pos hMode, ← hWriter]
    · intro hPages
      rw [hMode] at hPages
      contradiction
  · have hPages : w.requiresIcachePerInsn = false :=
      Bool.eq_false_iff.mpr hMode
    have hPos := hValid.sizePos
    have hSize := hValid.sizeLt
    have hFits := hValid.fits
    have hLast :
        (pageOf (i.addr + i.size.setWidth 64 - 1)).toNat =
          (i.addr.toNat + i.size.toNat - 1) / 4096 * 4096 := by
      rw [toNat_pageOf]
      congr 2
      bv_omega
    have hFirst := toNat_pageOf i.addr
    rcases @sendPages_passes fresh r w i.process
        (pageOf (i.addr + i.size.setWidth 64 - 1))
        (Writer.pageCount + 1) (pageOf i.addr)
        (by rw [offsetOf_eq]; omega)
        (by omega)
        (by rw [Writer.pageCount]; omega)
        (by omega)
        hFollows.reading
        (hFollows.pages hPages i (List.mem_cons_self ..)) with
      ⟨bytes, sent, icache, hSend, hPasses, hHolds, _, hAll⟩
    refine ⟨bytes, sent, icache, ?_, hPasses,
      Or.inr (readable_of_pages hValid hHolds hAll), ?_,
      fun _ => hHolds⟩
    · rw [if_neg hMode]
      exact hSend
    · intro hTrue
      exact absurd hTrue hMode

/- The two once only the record of the instruction is left. -/
structure Prepared
    (w : Writer)
    (r : Reader)
    (i : InstructionCall)
    (cs : List Call) : Prop where
  lastAddress : w.lastAddress = r.lastAddress
  reading : r.seenEnd = false
  known : KnownStatics (.instruction i :: cs) r.scache
  links : LinksKnown r.scache r.next
  readable : (r.scache i.addr).isSome ∨ i.Readable r.icache
  perInsn : w.requiresIcachePerInsn = true →
    ∀ a, w.icache a = true → a = i.addr ∨ (r.scache a).isSome
  pages : w.requiresIcachePerInsn = false →
    HoldsPages i.process.code w.icache r.icache

theorem instruction_prepares
    (hFollows : Follows w r (.instruction i :: cs))
    (hValid : i.Valid) :
    ∃ sent w₁ r₁,
      w.instruction i = some
        (sent ++ (w₁.instructionRecord i ++
          i.addresses.flatMap Bytes.ofWord),
          { w₁ with lastAddress := w₁.lastAddressAfter i }) ∧
      Passes fresh r sent [] r₁ ∧
      Prepared w₁ r₁ i cs ∧
      r₁.isa = r.isa ∧
      w₁.requiresIcachePerInsn = w.requiresIcachePerInsn := by
  rcases sendIcache_passes fresh hFollows hValid with
    ⟨icacheBytes, sent, icache, hSend, hIcache, hReadable,
      hSent, hHolds⟩
  rcases @sendAllVa2pa_passes fresh
      { r with icache := icache } { w with icache := sent }
      i.process (i.addr :: i.addresses) hFollows.reading with
    ⟨va2pa, vcache, hWriter, hVa2pa⟩
  refine ⟨_, { w with icache := sent, va2pa := va2pa },
    { r with icache := icache, vcache := vcache }, ?_,
    hIcache.trans hVa2pa, ?_, rfl, rfl⟩
  · have hSize : i.size < 16 :=
      BitVec.lt_def.mpr hValid.sizeLt
    rw [Writer.instruction, if_pos ⟨hSize, hValid.addresses⟩, hSend]
    dsimp only [Option.map_some]
    rw [hWriter, List.append_assoc]
  · exact {
      lastAddress := hFollows.lastAddress
      reading := hFollows.reading
      known := hFollows.known
      links := hFollows.links
      readable := hReadable
      perInsn := fun hMode a hA =>
        (hSent hMode a hA).imp_right (hFollows.perInsn hMode a)
      pages := hHolds }

/- Simple or not, the next address is after the instruction. -/
theorem lastAddressAfter_eq
    (w : Writer)
    (i : InstructionCall) :
    w.lastAddressAfter i = i.addr + i.size.setWidth 64 := by
  unfold Writer.lastAddressAfter
  split
  · rename_i hSimple
    rw [Writer.isSimple, Bool.and_eq_true, beq_iff_eq] at hSimple
    rw [hSimple.1]
  · rfl

theorem length_instructionRecord_pos
    (w : Writer)
    (i : InstructionCall) :
    0 < (w.instructionRecord i).length := by
  unfold Writer.instructionRecord
  split <;> simp

theorem record_of_prepared
    (hPrepared : Prepared w r i cs)
    (hValid : i.Valid)
    (hSame : SameCode w.requiresIcachePerInsn
      (.instruction i :: cs)) :
    ∃ r',
      (∀ rest, r.record fresh
          (w.instructionRecord i ++
            i.addresses.flatMap Bytes.ofWord ++ rest) =
        some (.instruction (i.result r.isa), r', rest)) ∧
      Follows { w with lastAddress := w.lastAddressAfter i } r' cs ∧
      r'.isa = r.isa := by
  have hHead : .instruction i ∈ Call.instruction i :: cs :=
    List.mem_cons_self ..
  rcases @getStaticInstruction_spec _
      { r with lastAddress := i.addr + i.size.setWidth 64 } i
      hHead
      (fun j hJ hAddr => (hSame j i hJ hHead).1 hAddr)
      hPrepared.known hPrepared.links hPrepared.readable with
    ⟨scache, next, hStatic, hKnown, hLinks, hKept, hOld⟩
  refine ⟨{ r with
      lastAddress := i.addr + i.size.setWidth 64
      scache := scache
      next := next
      lastSinst := some i.sinst },
    fun rest => record_instruction fresh rest hValid
      hPrepared.lastAddress hStatic, ?_, rfl⟩
  exact {
    lastAddress := lastAddressAfter_eq w i
    reading := hPrepared.reading
    known := fun a s hS => by
      rcases hKnown a s hS with ⟨hAddr, hOf⟩
      exact ⟨hAddr, fun j hJ =>
        hOf j (List.mem_cons_of_mem _ hJ)⟩
    links := hLinks
    perInsn := fun hMode a hA => by
      rcases hPrepared.perInsn hMode a hA with hAt | hSome
      · rw [hAt]
        exact Option.isSome_iff_exists.mpr ⟨_, hKept⟩
      · rcases Option.isSome_iff_exists.mp hSome with ⟨s, hS⟩
        exact Option.isSome_iff_exists.mpr ⟨s, hOld a s hS⟩
    pages := fun hMode j hJ => by
      have hCode := (hSame i j hHead
        (List.mem_cons_of_mem _ hJ)).2 hMode
      rw [← hCode]
      exact hPrepared.pages hMode }

------------------------------------------------------------
-- Traces And Round Trips
------------------------------------------------------------

/- An instruction, or an output that is not counted. -/
def Call.Apart (c : Call) : Prop :=
  (∃ i, c = .instruction i) ∨ ¬ c.Counted

/- Every other call is passed with its callback. -/
theorem call_passes
    (hFollows : Follows w r (c :: cs))
    (hValid : c.Valid)
    (hApart : ¬ c.Apart) :
    ∃ bytes w' r' callbacks,
      w.call c = some (bytes, w') ∧
      Passes fresh r bytes callbacks r' ∧
      c.events r.isa = callbacks.map Event.callback ∧
      Follows w' r' cs ∧
      r'.isa = c.isaAfter r.isa ∧
      w'.requiresIcachePerInsn = w.requiresIcachePerInsn := by
  have hTail := hFollows.tail
  cases c with
  | instruction i => exact absurd (Or.inl ⟨i, rfl⟩) hApart
  | isaChange newIsa =>
      refine ⟨_, w, { r with isa := newIsa }, [], rfl,
        Passes.of_next hFollows.reading
          (otherRecord_ne_nil _ _ _)
          (fun rest => record_isaChange fresh r rest newIsa),
        rfl, ?_, rfl, rfl⟩
      exact {
        lastAddress := hTail.lastAddress
        reading := hTail.reading
        known := hTail.known
        links := hTail.links
        perInsn := hTail.perInsn
        pages := hTail.pages }
  | cacheOnly p icount type eip address =>
      rcases @sendAllVa2pa_passes fresh r w p [eip, address]
          hFollows.reading with
        ⟨va2pa, vcache, hWriter, hVa2pa⟩
      have hRecord : Passes fresh { r with vcache := vcache }
          _ _ _ :=
        Passes.of_callback hFollows.reading
          (otherRecord_ne_nil _ _ _)
          (fun rest => record_cacheOnly fresh
            { r with vcache := vcache } rest icount type eip
            address)
      refine ⟨_, { w with va2pa := va2pa },
        { r with vcache := vcache }, _, ?_,
        hVa2pa.trans hRecord, rfl, ?_, rfl, rfl⟩
      · rw [Writer.call, Writer.cacheOnly]
        dsimp only
        rw [hWriter]
      · exact {
          lastAddress := hTail.lastAddress
          reading := hTail.reading
          known := hTail.known
          links := hTail.links
          perInsn := hTail.perInsn
          pages := hTail.pages }
  | output fd data =>
      have hCounted : data.length ≠ 2 ^ 32 - 1 :=
        not_not.mp (fun hNot => hApart (Or.inr hNot))
      have hFits : data.length < 2 ^ 32 - 1 := by
        have := hValid.2
        omega
      exact ⟨_, w, r, _, rfl,
        Passes.of_callback hFollows.reading
          (otherRecord_ne_nil _ _ _)
          (fun rest =>
            record_output fresh r rest fd hValid.1 hFits),
        rfl, hTail, rfl, rfl⟩
  | routineChange event eip esp callEip =>
      exact ⟨_, w, r, _, rfl,
        Passes.of_callback hFollows.reading
          (otherRecord_ne_nil _ _ _)
          (fun rest => record_routineChange fresh r rest event
            eip esp callEip),
        rfl, hTail, rfl, rfl⟩
  | routineAnnounce eip name imgname offset line column
      filename =>
      exact ⟨_, w, r, _, rfl,
        Passes.of_callback hFollows.reading
          (otherRecord_ne_nil _ _ _)
          (fun rest => record_routineAnnounce fresh r rest eip
            offset line column hValid.1 hValid.2.1
            hValid.2.2),
        rfl, hTail, rfl, rfl⟩

theorem SameCode.tail
    {mode : Bool}
    (hSame : SameCode mode (c :: cs)) :
    SameCode mode cs :=
  fun i j hI hJ => hSame i j (List.mem_cons_of_mem c hI)
    (List.mem_cons_of_mem c hJ)

/- What is read of calls that are expected to be read back. -/
def outcome
    (isa : BitVec 32)
    (cs : List Call) : Option (List Event) :=
  if ∀ c ∈ cs, c.Counted then
    some (expected isa cs)
  else
    none

theorem outcome_cons
    (isa : BitVec 32)
    (hCounted : c.Counted)
    (cs : List Call) :
    outcome isa (c :: cs) =
      (outcome (c.isaAfter isa) cs).map (fun events =>
        c.events isa ++ events) := by
  unfold outcome
  by_cases hAll : ∀ c ∈ cs, c.Counted
  · rw [if_pos hAll,
      if_pos (List.forall_mem_cons.mpr ⟨hCounted, hAll⟩)]
    rfl
  · rw [if_neg hAll, if_neg (fun hCons =>
      hAll (List.forall_mem_cons.mp hCons).2)]
    rfl

theorem events_afterAll
    (following : Reader → Input → Option (List Event))
    (callbacks : List Callback)
    (out : ReadOut) :
    ReadOut.events following (out.afterAll callbacks) =
      (ReadOut.events following out).map (fun events =>
        callbacks.map Event.callback ++ events) := by
  unfold ReadOut.events ReadOut.afterAll
  cases out.returned <;> simp [Option.map_map, Function.comp_def]

/- Reading goes on after what is passed. -/
theorem read_bind_events
    {bytes : Input}
    {callbacks : List Callback}
    {r' : Reader}
    (hPasses : Passes fresh r bytes callbacks r')
    (following : Reader → Input → Option (List Event))
    (rest : Input)
    (inner : Nat)
    (hInner : (bytes ++ rest).length < inner) :
    ∃ inner', rest.length < inner' ∧
      (r.read fresh inner (bytes ++ rest)).bind
          (ReadOut.events following) =
        ((r'.read fresh inner' rest).bind
          (ReadOut.events following)).map (fun events =>
            callbacks.map Event.callback ++ events) := by
  rcases hPasses with ⟨n, hLe, hRead⟩
  rw [List.length_append] at hInner
  refine ⟨inner - n, by omega, ?_⟩
  have hSplit : inner = inner - n + n := by omega
  rw [hSplit, hRead, Nat.add_sub_cancel, Option.bind_map,
    Option.map_bind]
  congr 1
  funext out
  exact events_afterAll following callbacks out

/- An instruction ends a call of `Read`. -/
theorem read_instruction
    {record rest : Input}
    {r' : Reader}
    {j : Instruction}
    (hReading : r.seenEnd = false)
    (hRecord : r.record fresh (record ++ rest) =
      some (.instruction j, r', rest))
    (following : Reader → Input → Option (List Event))
    {inner : Nat}
    (hInner : 0 < inner) :
    (r.read fresh inner (record ++ rest)).bind
        (ReadOut.events following) =
      (following r' rest).map (fun events =>
        .instruction j :: events) := by
  cases inner with
  | zero => exact absurd hInner (Nat.not_lt_zero 0)
  | succ inner =>
      rw [Reader.read, hReading, hRecord]
      rfl

/- An output that is not counted ends the program. -/
theorem read_output_full
    {fd : Byte}
    {data rest : Input}
    (hReading : r.seenEnd = false)
    (hFull : data.length = 2 ^ 32 - 1)
    (inner : Nat) :
    r.read fresh inner (Writer.output fd data ++ rest) = none := by
  cases inner with
  | zero => rfl
  | succ inner =>
      rw [Reader.read, hReading,
        record_output_full fresh r rest fd hFull]
      rfl

theorem calls_read
    (cs : List Call)
    (hFollows : Follows w r cs)
    (hValid : ∀ c ∈ cs, c.Valid)
    (hSame : SameCode w.requiresIcachePerInsn cs) :
    ∃ bytes, Writer.calls cs w = some bytes ∧
      ∀ inner outer, bytes.length < inner →
        bytes.length ≤ outer →
        (r.read fresh inner bytes).bind
            (ReadOut.events (readCalls fresh outer)) =
          outcome r.isa cs := by
  induction cs generalizing w r with
  | nil =>
      refine ⟨Writer.finish, rfl, ?_⟩
      intro inner outer hInner _
      cases inner with
      | zero => exact absurd hInner (Nat.not_lt_zero _)
      | succ inner =>
          have hRecord := record_finish fresh r []
          rw [List.append_nil] at hRecord
          rw [Reader.read, hFollows.reading, hRecord]
          rfl
  | cons c cs ih =>
      have hHead := hValid c (List.mem_cons_self ..)
      have hTail : ∀ c' ∈ cs, c'.Valid := fun c' hC =>
        hValid c' (List.mem_cons_of_mem c hC)
      by_cases hApart : c.Apart
      · rcases hApart with ⟨i, rfl⟩ | hFull
        · rcases instruction_prepares fresh hFollows hHead with
            ⟨sent, w₁, r₁, hCall, hPasses, hPrepared, hIsa, hMode⟩
          rcases record_of_prepared fresh hPrepared hHead
              (hMode ▸ hSame) with
            ⟨r', hRecord, hFollows', hIsa'⟩
          rcases ih hFollows' hTail (hMode ▸ hSame.tail) with
            ⟨rest, hRest, hRead⟩
          have hSome : 0 < (w₁.instructionRecord i ++
              i.addresses.flatMap Bytes.ofWord).length := by
            rw [List.length_append]
            exact Nat.add_pos_left
              (length_instructionRecord_pos w₁ i) _
          generalize w₁.instructionRecord i ++
            i.addresses.flatMap Bytes.ofWord = record at *
          refine ⟨sent ++ (record ++ rest), ?_, ?_⟩
          · rw [Writer.calls, Writer.call, hCall,
              Option.bind_some, hRest, Option.map_some,
              List.append_assoc]
          · intro inner outer hInner hOuter
            rcases read_bind_events fresh hPasses
                (readCalls fresh outer) (record ++ rest) inner
                hInner with
              ⟨inner', hInner', hBind⟩
            rw [List.length_append, List.length_append] at hOuter
            rw [hBind, read_instruction fresh hPrepared.reading
              (hRecord rest) _ (by omega)]
            cases outer with
            | zero => omega
            | succ outer =>
                have hCounted : (Call.instruction i).Counted :=
                  trivial
                rw [readCalls,
                  hRead (outer + 1) outer (by omega) (by omega),
                  outcome_cons r.isa hCounted, hIsa', hIsa,
                  Option.map_map]
                rfl
        · cases c with
          | output fd data =>
              have hLength := not_not.mp hFull
              rcases ih hFollows.tail hTail hSame.tail with
                ⟨rest, hRest, _⟩
              refine ⟨Writer.output fd data ++ rest, ?_, ?_⟩
              · rw [Writer.calls, Writer.call, Option.bind_some,
                  hRest]
                rfl
              · intro inner outer _ _
                rw [read_output_full fresh hFollows.reading
                  hLength, outcome, if_neg (fun hAll =>
                    hFull (hAll _ (List.mem_cons_self ..)))]
                rfl
          | instruction _ | isaChange _ | cacheOnly _ _ _ _ _
          | routineChange _ _ _ _
          | routineAnnounce _ _ _ _ _ _ _ =>
              exact absurd trivial hFull
      · rcases call_passes fresh hFollows hHead hApart with
          ⟨bytes, w', r', callbacks, hCall, hPasses, hEvents,
            hFollows', hIsa, hMode⟩
        rcases ih hFollows' hTail (hMode ▸ hSame.tail) with
          ⟨rest, hRest, hRead⟩
        refine ⟨bytes ++ rest, ?_, ?_⟩
        · rw [Writer.calls, hCall, Option.bind_some, hRest]
          rfl
        · intro inner outer hInner hOuter
          rcases read_bind_events fresh hPasses
              (readCalls fresh outer) rest inner hInner with
            ⟨inner', hInner', hBind⟩
          rw [List.length_append] at hOuter
          have hCounted : c.Counted :=
            not_not.mp (fun hNot => hApart (Or.inr hNot))
          rw [hBind, hRead inner' outer hInner' (by omega),
            outcome_cons r.isa hCounted, hIsa, hEvents]

end

theorem initStream_header
    (o : Options)
    (rest : Input) :
    initStream (header o ++ rest) =
      some (Reader.init o.sendVa2paMapping, rest) := by
  rcases o with ⟨arch32, perInsn, sendVa2pa⟩
  have hOptions :
      Options.bits ⟨arch32, perInsn, sendVa2pa⟩ &&&
        ~~~(archIA32 ||| physicalAddress ||| icacheVariable) = 0 ∧
      decide (Options.bits ⟨arch32, perInsn, sendVa2pa⟩ &&&
        physicalAddress = 0#64) = !sendVa2pa := by
    revert arch32 perInsn sendVa2pa
    decide
  rw [header, List.append_assoc, List.append_assoc]
  simp [initStream, guard, hOptions.1, hOptions.2]

theorem follows_init
    (o : Options)
    (cs : List Call) :
    Follows (Writer.init o) (Reader.init o.sendVa2paMapping)
      cs where
  lastAddress := rfl
  reading := rfl
  known := fun a s hS => by contradiction
  links := fun a s hS => by contradiction
  perInsn := fun _ a hA => by contradiction
  pages := fun _ i _ a hA => by contradiction

theorem readAll_write
    (fresh : Address → IcachePage)
    {o : Options}
    {cs : List Call}
    (hValid : ∀ c ∈ cs, c.Valid)
    (hSame : SameCode o.requiresIcachePerInsn cs) :
    (write o cs).bind (readAll fresh) = outcome 0 cs := by
  rcases calls_read fresh cs (follows_init o cs) hValid hSame
    with ⟨bytes, hCalls, hRead⟩
  rw [write, hCalls, Option.map_some, Option.bind_some,
    readAll, initStream_header]
  exact hRead _ _ (Nat.lt_succ_self _) (Nat.le_refl _)

/-
  The reader gives back the instructions and the callbacks of
  a trace and then returns false if and only if no output has
  one byte less than fits in 32 bits.
-/
theorem roundTrip_iff
    (fresh : Address → IcachePage)
    {o : Options}
    {cs : List Call}
    (hValid : ∀ c ∈ cs, c.Valid)
    (hSame : SameCode o.requiresIcachePerInsn cs) :
    (write o cs).bind (readAll fresh) = some (expected 0 cs) ↔
      ∀ fd data, .output fd data ∈ cs →
        data.length ≠ 2 ^ 32 - 1 := by
  have hCounted : (∀ c ∈ cs, c.Counted) ↔
      ∀ fd data, .output fd data ∈ cs →
        data.length ≠ 2 ^ 32 - 1 := by
    constructor
    · intro hAll fd data hMem
      exact hAll _ hMem
    · intro hAll c hMem
      cases c with
      | output fd data => exact hAll fd data hMem
      | instruction _ | isaChange _ | cacheOnly _ _ _ _ _
      | routineChange _ _ _ _
      | routineAnnounce _ _ _ _ _ _ _ => trivial
  rw [readAll_write fresh hValid hSame, ← hCounted, outcome]
  split
  · rename_i hAll
    exact ⟨fun _ => hAll, fun _ => rfl⟩
  · rename_i hSome
    exact ⟨fun hEq => by contradiction,
      fun hAll => absurd hAll hSome⟩

/- A trace of one instruction and one output of three bytes. -/
theorem roundTrip_short :
    (write ⟨false, false, true⟩
        [.instruction {
          process := ⟨fun a => a.setWidth 8, fun vp => vp + 1⟩
          addr := 0x1ffe
          size := 4
          addresses := [0x3000]
          isBranch := false
          taken := false
          isPredicate := false
          executed := true },
        .output 1 [104, 105, 10]]).bind (readAll (fun _ _ => 0)) =
      some (expected 0
        [.instruction {
          process := ⟨fun a => a.setWidth 8, fun vp => vp + 1⟩
          addr := 0x1ffe
          size := 4
          addresses := [0x3000]
          isBranch := false
          taken := false
          isPredicate := false
          executed := true },
        .output 1 [104, 105, 10]]) := by
  apply (roundTrip_iff _ _ _).mpr
  · intro fd data hMem
    have hEq : (fd, data) = (1, [104, 105, 10]) := by
      simpa using hMem
    rw [(Prod.mk.inj hEq).2]
    decide
  · intro c hMem
    rcases List.mem_cons.mp hMem with hEq | hMem
    · rw [hEq]
      exact {
        sizePos := by decide
        sizeLt := by decide
        addresses := by decide
        executed := fun _ => rfl
        fits := by decide }
    · rw [List.mem_singleton.mp hMem]
      exact ⟨by decide, by decide⟩
  · intro i j hI hJ
    have hEq : i = j := by
      simp only [List.mem_cons, Call.instruction.injEq,
        List.not_mem_nil, or_false, reduceCtorEq] at hI hJ
      rw [hI, hJ]
    subst hEq
    exact ⟨fun _ => rfl, fun _ => rfl⟩

/-
  The record of an output of 2 ^ 32 - 1 bytes has the size
  zero, and the reader stops.
-/
theorem not_roundTrip_output :
    (write ⟨false, false, false⟩
        [.output 1 (List.replicate (2 ^ 32 - 1) 0)]).bind
          (readAll (fun _ _ => 0)) ≠
      some (expected 0
        [.output 1 (List.replicate (2 ^ 32 - 1) 0)]) := by
  have hLength :
      (List.replicate (2 ^ 32 - 1) (0 : Byte)).length =
        2 ^ 32 - 1 :=
    List.length_replicate
  generalize List.replicate (2 ^ 32 - 1) (0 : Byte) = data at *
  rw [readAll_write, outcome, if_neg]
  · simp
  · intro hAll
    exact hAll _ (List.mem_cons_self ..) hLength
  · intro c hMem
    rw [List.mem_singleton.mp hMem]
    exact ⟨by omega, by omega⟩
  · intro i j hI
    exact absurd (List.mem_singleton.mp hI) (by simp)

end Sift

end Virtuoso
