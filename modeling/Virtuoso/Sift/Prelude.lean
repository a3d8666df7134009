import Virtuoso.Sift.Records

/-
  What a writer sends before an instruction.

  The reader goes through the pages, the bytes and the
  mappings that a call sends first without a callback, and
  then has the bytes of the instruction.

  Main declarations:
    * `Sift.sendPages_passes`
    * `Sift.sendAllVa2pa_passes`
-/

namespace Virtuoso

namespace Sift

open Reader

/- Some callbacks come before. -/
def Reader.ReadOut.afterAll
    (callbacks : List Callback)
    (out : ReadOut) : ReadOut :=
  { out with callbacks := callbacks ++ out.callbacks }

variable (fresh : Address → IcachePage)

/-
  In front of anything, the bytes only make the given
  callbacks and lead to the second state. There are as many
  records as bytes at most.
-/
def Passes
    (r : Reader)
    (bytes : Input)
    (callbacks : List Callback)
    (r' : Reader) : Prop :=
  ∃ n, n ≤ bytes.length ∧ ∀ fuel rest,
    r.read fresh (fuel + n) (bytes ++ rest) =
      (r'.read fresh fuel rest).map (ReadOut.afterAll callbacks)

namespace Passes

variable {fresh : Address → IcachePage} {r r₁ r₂ : Reader}
variable {bytes bytes₁ bytes₂ : Input}
variable {callbacks callbacks₁ callbacks₂ : List Callback}

theorem nil
    (r : Reader) :
    Passes fresh r [] [] r := by
  refine ⟨0, Nat.le_refl 0, ?_⟩
  intro fuel rest
  rw [Nat.add_zero, List.nil_append]
  exact Option.map_id'.symm

theorem trans
    (hFirst : Passes fresh r bytes₁ callbacks₁ r₁)
    (hSecond : Passes fresh r₁ bytes₂ callbacks₂ r₂) :
    Passes fresh r (bytes₁ ++ bytes₂)
      (callbacks₁ ++ callbacks₂) r₂ := by
  rcases hFirst with ⟨n₁, hLe₁, hRead₁⟩
  rcases hSecond with ⟨n₂, hLe₂, hRead₂⟩
  refine ⟨n₂ + n₁, ?_, ?_⟩
  · rw [List.length_append]
    omega
  · intro fuel rest
    rw [← Nat.add_assoc, List.append_assoc, hRead₁, hRead₂,
      Option.map_map]
    congr 1
    funext out
    simp [ReadOut.afterAll]

theorem of_next
    (hReading : r.seenEnd = false)
    (hSome : bytes ≠ [])
    (hRecord : ∀ rest, r.record fresh (bytes ++ rest) =
      some (.next, r₁, rest)) :
    Passes fresh r bytes [] r₁ := by
  refine ⟨1, List.length_pos_iff.mpr hSome, ?_⟩
  intro fuel rest
  rw [Reader.read, hReading, hRecord]
  exact Option.map_id'.symm

theorem of_callback
    {c : Callback}
    (hReading : r.seenEnd = false)
    (hSome : bytes ≠ [])
    (hRecord : ∀ rest, r.record fresh (bytes ++ rest) =
      some (.callback c, r₁, rest)) :
    Passes fresh r bytes [c] r₁ := by
  refine ⟨1, List.length_pos_iff.mpr hSome, ?_⟩
  intro fuel rest
  rw [Reader.read, hReading, hRecord]
  rfl

end Passes

section

variable {r : Reader} {w : Writer}

theorem otherRecord_ne_nil
    (type : RecOtherType)
    (size : BitVec 32)
    (data : List Byte) :
    Sift.otherRecord type size ++ data ≠ [] := by
  simp [Sift.otherRecord]

variable (p : Process)

theorem sendVa2pa_passes
    (va : Address)
    (hReading : r.seenEnd = false) :
    ∃ va2pa vcache,
      (w.sendVa2pa p va).2 = { w with va2pa := va2pa } ∧
      Passes fresh r (w.sendVa2pa p va).1 []
        { r with vcache := vcache } := by
  unfold Writer.sendVa2pa
  dsimp only
  split
  · exact ⟨_, _, rfl, Passes.of_next hReading
      (otherRecord_ne_nil _ _ _)
      (fun rest => record_logical2Physical fresh r rest _ _)⟩
  · exact ⟨w.va2pa, r.vcache, rfl, Passes.nil r⟩

theorem sendAllVa2pa_passes
    (vas : List Address)
    (hReading : r.seenEnd = false) :
    ∃ va2pa vcache,
      (Writer.sendAllVa2pa p vas w).2 =
        { w with va2pa := va2pa } ∧
      Passes fresh r (Writer.sendAllVa2pa p vas w).1 []
        { r with vcache := vcache } := by
  induction vas generalizing r w with
  | nil => exact ⟨w.va2pa, r.vcache, rfl, Passes.nil r⟩
  | cons va vas ih =>
      rcases sendVa2pa_passes fresh p va (w := w) hReading with
        ⟨va2pa₁, vcache₁, hWriter₁, hPasses₁⟩
      rcases ih (w := (w.sendVa2pa p va).2)
          (r := { r with vcache := vcache₁ }) hReading with
        ⟨va2pa, vcache, hWriter, hPasses⟩
      refine ⟨va2pa, vcache, ?_, hPasses₁.trans hPasses⟩
      rw [Writer.sendAllVa2pa]
      dsimp only
      rw [hWriter, hWriter₁]

/- The reader has the bytes of the instruction. -/
def InstructionCall.Readable
    (i : InstructionCall)
    (icache : Address → Option IcachePage) : Prop :=
  ∀ k, k < i.size.toNat →
    icacheByte icache (i.addr + BitVec.ofNat 64 k) =
      some (i.process.code (i.addr + BitVec.ofNat 64 k))

theorem sendVariable_passes
    (i : InstructionCall)
    (hReading : r.seenEnd = false)
    (hKnown : w.icache i.addr = true → (r.scache i.addr).isSome) :
    ∃ sent icache,
      (w.sendVariable i).2 = { w with icache := sent } ∧
      Passes fresh r (w.sendVariable i).1 []
        { r with icache := icache } ∧
      ((r.scache i.addr).isSome ∨ i.Readable icache) ∧
      ∀ a, sent a = true → a = i.addr ∨ w.icache a = true := by
  unfold Writer.sendVariable
  by_cases hSent : w.icache i.addr = true
  · rw [if_pos hSent]
    exact ⟨w.icache, r.icache, rfl, Passes.nil r,
      Or.inl (hKnown hSent), fun a hA => Or.inr hA⟩
  rw [if_neg hSent]
  have hLength := i.process.length_getCode i.addr i.size.toNat
  rcases record_icacheVariable fresh r i.addr hLength with
    ⟨icache, hRecord, hSet⟩
  refine ⟨_, icache, rfl, Passes.of_next hReading
    (otherRecord_ne_nil _ _ _) hRecord, Or.inr ?_, ?_⟩
  · intro k hk
    rw [hSet k (by omega), Process.getElem_getCode]
  · intro a hA
    by_cases hSame : a = i.addr
    · exact Or.inl hSame
    · rw [Function.update_of_ne hSame] at hA
      exact Or.inr hA

/- The pages that were sent are in the reader. -/
def HoldsPages
    (code : Address → Byte)
    (sent : Address → Bool)
    (icache : Address → Option IcachePage) : Prop :=
  ∀ a, sent (pageOf a) = true → icacheByte icache a = some (code a)

theorem sendPage_passes
    {baseAddr : Address}
    (hStart : offsetOf baseAddr = 0)
    (hReading : r.seenEnd = false)
    (hHolds : HoldsPages p.code w.icache r.icache) :
    ∃ sent icache,
      (w.sendPage p baseAddr).2 = { w with icache := sent } ∧
      Passes fresh r (w.sendPage p baseAddr).1 []
        { r with icache := icache } ∧
      HoldsPages p.code sent icache ∧
      sent baseAddr = true ∧
      ∀ a, w.icache a = true → sent a = true := by
  unfold Writer.sendPage
  by_cases hSent : w.icache baseAddr = true
  · rw [if_pos hSent]
    exact ⟨w.icache, r.icache, rfl, Passes.nil r, hHolds,
      hSent, fun a hA => hA⟩
  rw [if_neg hSent]
  have hLength := p.length_getCode baseAddr icacheSize
  refine ⟨_, _, rfl, Passes.of_next hReading
    (otherRecord_ne_nil _ _ _)
    (fun rest => record_icache fresh r rest baseAddr hLength),
    ?_, Function.update_self .., ?_⟩
  · intro a hA
    by_cases hPage : pageOf a = baseAddr
    · have hOffset := offsetOf_lt a
      have hBase : pageOf baseAddr = baseAddr := by
        rw [← hPage, pageOf_pageOf]
      have hAddress : a = baseAddr + BitVec.ofNat 64 (offsetOf a) :=
        eq_add_of_page (hPage.trans hBase.symm) (by omega)
      rw [icacheByte, hPage, Function.update_self, Option.map_some]
      have hWrite := @write_within (fresh baseAddr) 0
        (offsetOf a) (p.getCode baseAddr icacheSize)
        (hLength.symm ▸ hOffset)
      rw [Nat.zero_add, Process.getElem_getCode,
        ← hAddress] at hWrite
      rw [hWrite]
    · rw [Function.update_of_ne hPage] at hA
      rw [icacheByte, Function.update_of_ne hPage]
      exact hHolds a hA
  · intro a hA
    by_cases hPage : a = baseAddr
    · rw [hPage, Function.update_self]
    · rw [Function.update_of_ne hPage]
      exact hA

/- All the pages from the first to the last are sent. -/
theorem sendPages_passes
    {last : Address}
    (fuel : Nat)
    {baseAddr : Address}
    (hStart : offsetOf baseAddr = 0)
    (hUpper : baseAddr.toNat ≤ last.toNat + 4096)
    (hFuel : last.toNat + 4096 < baseAddr.toNat + fuel * 4096)
    (hLast : last.toNat + 4096 < 2 ^ 64)
    (hReading : r.seenEnd = false)
    (hHolds : HoldsPages p.code w.icache r.icache) :
    ∃ bytes sent icache,
      Writer.sendPages p last fuel baseAddr w =
        some (bytes, { w with icache := sent }) ∧
      Passes fresh r bytes [] { r with icache := icache } ∧
      HoldsPages p.code sent icache ∧
      (∀ a, w.icache a = true → sent a = true) ∧
      ∀ a, offsetOf a = 0 → baseAddr ≤ a → a ≤ last →
        sent a = true := by
  induction fuel generalizing baseAddr w r with
  | zero => omega
  | succ fuel ih =>
      rw [Writer.sendPages]
      by_cases hMore : baseAddr ≤ last
      · rw [if_pos hMore]
        have hLe := BitVec.le_def.mp hMore
        have hNext :
            (baseAddr + BitVec.ofNat 64 icacheSize).toNat =
              baseAddr.toNat + 4096 := by
          rw [BitVec.toNat_add, BitVec.toNat_ofNat, icacheSize]
          omega
        rcases sendPage_passes fresh p hStart hReading hHolds
          with ⟨sent₁, icache₁, hWriter₁, hPasses₁, hHolds₁,
            hBase, hKept₁⟩
        rcases @ih { r with icache := icache₁ }
            { w with icache := sent₁ }
            (baseAddr + BitVec.ofNat 64 icacheSize)
            (by
              rw [offsetOf_eq] at hStart ⊢
              omega)
            (by omega) (by omega) hReading hHolds₁ with
          ⟨bytes, sent, icache, hSend, hPasses, hHolds', hKept,
            hAll⟩
        refine ⟨_, sent, icache, ?_, hPasses₁.trans hPasses,
          hHolds', fun a hA => hKept a (hKept₁ a hA), ?_⟩
        · dsimp only
          rw [hWriter₁, hSend]
          rfl
        · intro a hAligned hFrom hTo
          by_cases hSame : a = baseAddr
          · rw [hSame]
            exact hKept _ hBase
          · apply hAll a hAligned _ hTo
            rw [BitVec.le_def] at hFrom ⊢
            have hNe : a.toNat ≠ baseAddr.toNat :=
              fun hEq => hSame (BitVec.eq_of_toNat_eq hEq)
            rw [offsetOf_eq] at hStart hAligned
            omega
      · rw [if_neg hMore]
        refine ⟨[], w.icache, r.icache, rfl, Passes.nil r,
          hHolds, fun a hA => hA, ?_⟩
        intro a _ hFrom hTo
        exact absurd (BitVec.le_trans hFrom hTo) hMore

theorem readable_of_pages
    {i : InstructionCall}
    (hValid : i.Valid)
    {sent : Address → Bool}
    {icache : Address → Option IcachePage}
    (hHolds : HoldsPages i.process.code sent icache)
    (hAll : ∀ a, offsetOf a = 0 → pageOf i.addr ≤ a →
      a ≤ pageOf (i.addr + i.size.setWidth 64 - 1) →
      sent a = true) :
    i.Readable icache := by
  intro k hk
  apply hHolds
  have hPos := hValid.sizePos
  have hSize := hValid.sizeLt
  have hFits := hValid.fits
  have hAddr : (i.addr + BitVec.ofNat 64 k).toNat =
      i.addr.toNat + k := by
    rw [BitVec.toNat_add, BitVec.toNat_ofNat]
    omega
  have hEnd : (i.addr + i.size.setWidth 64 - 1).toNat =
      i.addr.toNat + i.size.toNat - 1 := by
    bv_omega
  apply hAll
  · rw [offsetOf_eq, toNat_pageOf]
    omega
  · rw [BitVec.le_def, toNat_pageOf, toNat_pageOf, hAddr]
    omega
  · rw [BitVec.le_def, toNat_pageOf, toNat_pageOf, hAddr, hEnd]
    omega

end

end Sift

end Virtuoso
