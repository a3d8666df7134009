import Mathlib.Algebra.Group.Nat.Defs
import Mathlib.Data.List.Basic
import Mathlib.Data.Nat.Init

/-
  Byte strings with little-endian numbers.

  A reader takes what it reads from the front of its input
  and gives back the rest. Reading what was written, before
  any other bytes, gives the value and these bytes.

  Key definitions include:
    * `Bytes.ofNat`

  The rules are:
    * `Bytes.readWord_append`
-/

/- One byte. -/
abbrev Byte :=
  BitVec 8

namespace Bytes

/- The low bytes of a number, the lowest first. -/
def ofNat :
    Nat → Nat → List Byte
| 0, _ => []
| count + 1, value =>
    BitVec.ofNat 8 value :: ofNat count (value / 256)

/- The number of some bytes, the lowest one first. -/
def toNat :
    List Byte → Nat
| [] => 0
| b :: bytes => b.toNat + 256 * toNat bytes

/- The bytes of a word of whole bytes. -/
def ofWord {w : Nat} (x : BitVec w) : List Byte :=
  ofNat (w / 8) x.toNat

@[simp] theorem length_ofNat
    (count value : Nat) :
    (ofNat count value).length = count := by
  induction count generalizing value with
  | zero => rfl
  | succ count ih => rw [ofNat, List.length_cons, ih]

@[simp] theorem length_ofWord
    {w : Nat}
    (x : BitVec w) :
    (ofWord x).length = w / 8 :=
  length_ofNat _ _

theorem toNat_ofNat
    (count value : Nat) :
    toNat (ofNat count value) = value % 256 ^ count := by
  induction count generalizing value with
  | zero => rw [ofNat, toNat, Nat.pow_zero, Nat.mod_one]
  | succ count ih =>
      have hByte : 2 ^ 8 = 256 := rfl
      rw [ofNat, toNat, ih, BitVec.toNat_ofNat, hByte,
        Nat.pow_succ, Nat.mul_comm (256 ^ count) 256,
        Nat.mod_mul]

/- The given number of bytes from the front. -/
def read
    (count : Nat)
    (input : List Byte) :
    Option (List Byte × List Byte) :=
  if count ≤ input.length then
    some (input.take count, input.drop count)
  else
    none

/- A word from the front. -/
def readWord
    (w : Nat)
    (input : List Byte) :
    Option (BitVec w × List Byte) :=
  (read (w / 8) input).map (fun out =>
    (BitVec.ofNat w (toNat out.1), out.2))

theorem read_append
    {count : Nat}
    {bytes : List Byte}
    (rest : List Byte)
    (hLength : bytes.length = count) :
    read count (bytes ++ rest) = some (bytes, rest) := by
  subst hLength
  unfold read
  rw [if_pos (by simp), List.take_left, List.drop_left]

@[simp] theorem read_length
    (bytes rest : List Byte) :
    read bytes.length (bytes ++ rest) = some (bytes, rest) :=
  read_append rest rfl

theorem readWord_append
    {w : Nat}
    (x : BitVec w)
    (rest : List Byte)
    (hWhole : w / 8 * 8 = w) :
    readWord w (ofWord x ++ rest) = some (x, rest) := by
  have hPow : 256 ^ (w / 8) = 2 ^ w := by
    rw [show 256 = 2 ^ 8 from rfl, ← Nat.pow_mul,
      Nat.mul_comm, hWhole]
  rw [readWord, read_append rest (length_ofWord x),
    Option.map_some, ofWord, toNat_ofNat, hPow,
    Nat.mod_eq_of_lt x.isLt, BitVec.ofNat_toNat,
    BitVec.setWidth_eq]

/- Words of the sizes of the C types. -/
@[simp] theorem readWord_cons
    (x : Byte)
    (rest : List Byte) :
    readWord 8 (x :: rest) = some (x, rest) := by
  have hWord : ofWord x = [x] := by
    simp [ofWord, ofNat]
  have hRead := readWord_append x rest rfl
  rwa [hWord] at hRead

@[simp] theorem readWord_sixteen
    (x : BitVec 16)
    (rest : List Byte) :
    readWord 16 (ofWord x ++ rest) = some (x, rest) :=
  readWord_append x rest rfl

@[simp] theorem readWord_thirtyTwo
    (x : BitVec 32)
    (rest : List Byte) :
    readWord 32 (ofWord x ++ rest) = some (x, rest) :=
  readWord_append x rest rfl

@[simp] theorem readWord_sixtyFour
    (x : BitVec 64)
    (rest : List Byte) :
    readWord 64 (ofWord x ++ rest) = some (x, rest) :=
  readWord_append x rest rfl

end Bytes
