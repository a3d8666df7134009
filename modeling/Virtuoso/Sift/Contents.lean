import Virtuoso.Sift.Reader

/-
  The instruction bytes of a reader.

  The pages of `icache` are read as one memory of bytes. What
  `staticInfoInstruction` copies are the bytes of this memory
  from an address on, and the loop that reads the bytes of an
  instruction sets them.

  Main declarations:
    * `Sift.copyCode_of_bytes`
    * `Sift.readVariable_spec`
-/

namespace Virtuoso

namespace Sift

open Reader

/- The byte of an address in the sent pages. -/
def icacheByte
    (icache : Address → Option IcachePage)
    (address : Address) : Option Byte :=
  (icache (pageOf address)).map (fun page =>
    page (offsetOf address))

variable {icache : Address → Option IcachePage} {i : Nat}

theorem icacheByte_within
    {page : IcachePage}
    {address : Address}
    (hPage : icache (pageOf address) = some page)
    (hWithin : offsetOf address + i < icacheSize) :
    icacheByte icache (address + BitVec.ofNat 64 i) =
      some (page (offsetOf address + i)) := by
  rw [icacheByte, pageOf_add hWithin, hPage,
    offsetOf_add hWithin, Option.map_some]

theorem eq_add_of_page
    {address a : Address}
    (hPage : pageOf a = pageOf address)
    (hOffset : offsetOf a = offsetOf address + i) :
    a = address + BitVec.ofNat 64 i := by
  have hWithin : offsetOf address + i < icacheSize :=
    hOffset ▸ offsetOf_lt a
  apply BitVec.eq_of_toNat_eq
  rw [toNat_add_of_within hWithin]
  have hNat := congrArg BitVec.toNat hPage
  rw [toNat_pageOf, toNat_pageOf] at hNat
  rw [offsetOf_eq, offsetOf_eq] at hOffset
  omega

theorem add_ofNat_add
    (address : Address)
    (i j : Nat) :
    address + BitVec.ofNat 64 i + BitVec.ofNat 64 j =
      address + BitVec.ofNat 64 (i + j) := by
  rw [BitVec.add_assoc, ← BitVec.ofNat_add]

theorem add_ofNat_inj
    {address : Address}
    {i j : Nat}
    (hI : i < 2 ^ 64)
    (hJ : j < 2 ^ 64)
    (hEq : address + BitVec.ofNat 64 i =
      address + BitVec.ofNat 64 j) :
    i = j := by
  have hWord := (BitVec.add_right_inj address).mp hEq
  have hNat := congrArg BitVec.toNat hWord
  rwa [BitVec.toNat_ofNat, BitVec.toNat_ofNat,
    Nat.mod_eq_of_lt hI, Nat.mod_eq_of_lt hJ] at hNat

theorem copyCode_of_bytes
    (fuel : Nat)
    {address : Address}
    {size : Nat}
    {f : Nat → Byte}
    (hFuel : size ≤ fuel)
    (hBytes : ∀ i, i < size →
      icacheByte icache (address + BitVec.ofNat 64 i) =
        some (f i)) :
    copyCode icache fuel (pageOf address) (offsetOf address) size =
      some ((List.range size).map f) := by
  induction fuel generalizing address size f with
  | zero =>
      have hSize : size = 0 := by omega
      rw [hSize]
      rfl
  | succ fuel ih =>
      by_cases hSize : size = 0
      · rw [hSize]
        rfl
      have hOffset := offsetOf_lt address
      have hFirst := hBytes 0 (by omega)
      rw [icacheByte, pageOf_add (by omega)] at hFirst
      rcases Option.map_eq_some_iff.mp hFirst with
        ⟨page, hPage, _⟩
      generalize hAmount :
        min size (icacheSize - offsetOf address) = amount
      -- The second page is only entered at its start.
      have hNext : ∀ i, i < size - amount →
          icacheByte icache (nextPage address + BitVec.ofNat 64 i) =
            some (f (amount + i)) := by
        intro i hi
        have hEnd : offsetOf address + amount = icacheSize := by
          omega
        rw [← add_of_end hEnd, add_ofNat_add]
        exact hBytes _ (by omega)
      have hRest := ih (by omega) hNext
      rw [pageOf_nextPage, offsetOf_nextPage] at hRest
      have hChunk : ∀ i ∈ List.range amount,
          page (offsetOf address + i) = f i := by
        intro i hi
        have hLt := List.mem_range.mp hi
        have hByte := hBytes i (by omega)
        rw [icacheByte_within hPage (by omega)] at hByte
        exact Option.some.inj hByte
      rw [copyCode, if_neg hSize, hPage, Option.bind_some]
      dsimp only
      rw [hAmount, ← nextPage, hRest, Option.map_some,
        List.map_congr_left hChunk]
      have hSplit : size = amount + (size - amount) := by omega
      rw [hSplit, List.range_add, List.map_append,
        List.map_map, Nat.add_sub_cancel_left]
      rfl

theorem write_within
    {page : IcachePage}
    {offset i : Nat}
    {bytes : List Byte}
    (hWithin : i < bytes.length) :
    IcachePage.write page offset bytes (offset + i) = bytes[i] := by
  rw [IcachePage.write, if_pos (by omega),
    Nat.add_sub_cancel_left, List.getElem?_eq_getElem hWithin,
    Option.getD_some]

theorem write_outside
    {page : IcachePage}
    {offset k : Nat}
    {bytes : List Byte}
    (hOutside : k < offset ∨ offset + bytes.length ≤ k) :
    IcachePage.write page offset bytes k = page k := by
  unfold IcachePage.write
  split
  · rw [List.getElem?_eq_none (by omega), Option.getD_none]
  · rfl

section

variable {icache : Address → Option IcachePage}
variable {page : IcachePage} {address : Address}
variable {bytes : List Byte}

/- A page after some of its bytes are set from an address. -/
theorem icacheByte_write_within
    (hFits : offsetOf address + bytes.length ≤ icacheSize)
    (hWithin : i < bytes.length) :
    icacheByte (Function.update icache (pageOf address)
        (some (IcachePage.write page (offsetOf address) bytes)))
        (address + BitVec.ofNat 64 i) =
      some bytes[i] := by
  rw [icacheByte_within (Function.update_self ..) (by omega),
    write_within hWithin]

theorem icacheByte_write_outside
    {a : Address}
    {b : Byte}
    (hPage : (icache (pageOf address)).getD page = page)
    (hOutside : ∀ i, i < bytes.length →
      a ≠ address + BitVec.ofNat 64 i)
    (hByte : icacheByte icache a = some b) :
    icacheByte (Function.update icache (pageOf address)
        (some (IcachePage.write page (offsetOf address) bytes)))
        a =
      some b := by
  by_cases hSame : pageOf a = pageOf address
  · have hOld : page (offsetOf a) = b := by
      rw [icacheByte, hSame] at hByte
      rcases Option.map_eq_some_iff.mp hByte with
        ⟨old, hOld, hEq⟩
      rw [hOld, Option.getD_some] at hPage
      rw [← hPage, hEq]
    have hBeyond : offsetOf a < offsetOf address ∨
        offsetOf address + bytes.length ≤ offsetOf a := by
      by_contra hInside
      apply hOutside (offsetOf a - offsetOf address) (by omega)
      exact eq_add_of_page hSame (by omega)
    rw [icacheByte, hSame, Function.update_self,
      Option.map_some, write_outside hBeyond, hOld]
  · rw [icacheByte, Function.update_of_ne hSame]
    exact hByte

end

variable (fresh : Address → IcachePage)

/-
  The bytes are those of the trace, and the bytes that were
  there before stay elsewhere.
-/
theorem readVariable_spec
    (fuel : Nat)
    {address : Address}
    {bytes : List Byte}
    (hFuel : bytes.length ≤ fuel)
    (hLength : bytes.length < 2 ^ 64) :
    ∃ icache', (∀ rest, readVariable fresh fuel icache address
        bytes.length (bytes ++ rest) = some (icache', rest)) ∧
      (∀ i (h : i < bytes.length),
        icacheByte icache' (address + BitVec.ofNat 64 i) =
          some bytes[i]) ∧
      ∀ a b, (∀ i, i < bytes.length →
          a ≠ address + BitVec.ofNat 64 i) →
        icacheByte icache a = some b →
        icacheByte icache' a = some b := by
  induction fuel generalizing icache address bytes with
  | zero =>
      have hNil : bytes = [] :=
        List.length_eq_zero_iff.mp (by omega)
      subst hNil
      refine ⟨icache, fun _ => rfl, ?_, fun a b _ hByte => hByte⟩
      intro i hi
      exact absurd hi (Nat.not_lt_zero i)
  | succ fuel ih =>
      by_cases hNil : bytes.length = 0
      · have hNil := List.length_eq_zero_iff.mp hNil
        subst hNil
        refine ⟨icache, fun _ => rfl, ?_, fun a b _ hByte => hByte⟩
        intro i hi
        exact absurd hi (Nat.not_lt_zero i)
      have hOffset := offsetOf_lt address
      generalize hAmount :
        min bytes.length (icacheSize - offsetOf address) = amount
      have hTake : (bytes.take amount).length = amount := by
        rw [List.length_take]
        omega
      have hDrop : (bytes.drop amount).length =
          bytes.length - amount :=
        List.length_drop
      generalize hOne :
        Function.update icache (pageOf address)
          (some (IcachePage.write
            ((icache (pageOf address)).getD
              (fresh (pageOf address)))
            (offsetOf address) (bytes.take amount))) = one
      have hRead : ∀ rest,
          readVariable fresh (fuel + 1) icache address
            bytes.length (bytes ++ rest) =
          readVariable fresh fuel one (nextPage address)
            (bytes.drop amount).length
            (bytes.drop amount ++ rest) := by
        intro rest
        have hSplit : bytes ++ rest =
            bytes.take amount ++ (bytes.drop amount ++ rest) := by
          rw [← List.append_assoc, List.take_append_drop]
        rw [readVariable, if_neg hNil]
        dsimp only
        rw [hAmount, hSplit, Bytes.read_append _ hTake,
          hDrop, ← hOne]
        rfl
      rcases @ih one (nextPage address) (bytes.drop amount)
          (by omega) (by omega) with
        ⟨icache', hRest, hSet, hKept⟩
      -- The rounds that follow start where the next page does.
      have hNext : ∀ j, j < (bytes.drop amount).length →
          nextPage address + BitVec.ofNat 64 j =
            address + BitVec.ofNat 64 (amount + j) := by
        intro j hj
        rw [← add_of_end (i := amount) (by omega), add_ofNat_add]
      refine ⟨icache', fun rest => (hRead rest).trans (hRest rest),
        ?_, ?_⟩
      · intro i hi
        by_cases hFirst : i < amount
        · apply hKept
          · intro j hj
            rw [hNext j hj]
            intro hEq
            have := add_ofNat_inj (by omega) (by omega) hEq
            omega
          · have hByte : i < (bytes.take amount).length := by
              omega
            rw [← hOne, icacheByte_write_within (by omega) hByte,
              List.getElem_take]
        · have hByte := hSet (i - amount) (by omega)
          rw [hNext _ (by omega),
            Nat.add_sub_cancel' (by omega)] at hByte
          rw [hByte, List.getElem_drop]
          congr 2
          omega
      · intro a b hOutside hByte
        apply hKept
        · intro j hj
          rw [hNext j hj]
          exact hOutside _ (by omega)
        · rw [← hOne]
          apply icacheByte_write_outside _ _ hByte
          · cases icache (pageOf address) <;> rfl
          · intro i hi
            exact hOutside i (by omega)

end Sift

end Virtuoso
