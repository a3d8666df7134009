import Virtuoso.PageTable.Basic

/-
  The radix page table of `pagetable_radix.cc`.

  Frames form a tree. An entry is the flag `is_pte` and the
  union `data`: its first word is either a pointer to the
  next level or starts with the byte `valid`, and its second
  word is `ppn`. The model keeps which member of the first
  word was written last, since the code reads the pointer of
  an entry whose `valid` was written and the other way round.

  A frame has 512 entries, the configured frame size. An
  operation returns `none` where the source follows a pointer
  that is none, reads the wrong member of the union, shifts
  by a negative amount or fails an assertion. The walk is
  the one that does not restart after a fault. The counters
  and the log are left out.

  Key definitions include:
    * `Radix.PTFrame`
    * `Radix.deletePage`
-/

namespace Virtuoso

namespace Radix

/-
  The first word of the union: a pointer, or a pointer whose
  low byte was overwritten by `valid`.
-/
inductive Word (F : Type)
  | nextLevel (frame : Option F)
  | valid (bit : Bool) (under : Option F)

/- An entry maps a page or points to a frame. -/
structure PTEntry (F : Type) where
  isPte : Bool
  word : Word F
  ppn : Nat

/- A frame of entries, with its own page number. -/
inductive PTFrame
  | mk (emulatedPpn : Nat) (entries : Nat → PTEntry PTFrame)

namespace PTFrame

/- The page number of the frame. -/
def emulatedPpn :
    PTFrame → Nat
| mk ppn _ => ppn

/- The entries of the frame. -/
def entries :
    PTFrame → Nat → PTEntry PTFrame
| mk _ entries => entries

/- Replace one entry of a frame. -/
def setEntry
    (f : PTFrame)
    (offset : Nat)
    (e : PTEntry PTFrame) : PTFrame :=
  mk f.emulatedPpn (Function.update f.entries offset e)

@[simp] theorem entries_setEntry
    (f : PTFrame)
    (offset : Nat)
    (e : PTEntry PTFrame) :
    (f.setEntry offset e).entries =
      Function.update f.entries offset e := rfl

end PTFrame

namespace PTEntry

/- The entry that a frame is filled with. -/
def fresh (isPte : Bool) : PTEntry PTFrame :=
  ⟨isPte, .nextLevel none, 0⟩

/-
  Read `data.next_level`. An overwritten low byte keeps only
  the null pointer, under a zero byte, a known value.
-/
def readNext
    (e : PTEntry PTFrame) :
    Option (Option PTFrame) :=
  match e.word with
  | .nextLevel frame => some frame
  | .valid false none => some none
  | .valid _ _ => none

/-
  Read `data.translation.valid`. The low byte of the address
  of a frame is unknown.
-/
def readValid (e : PTEntry PTFrame) : Option Bool :=
  match e.word with
  | .valid bit _ => some bit
  | .nextLevel none => some false
  | .nextLevel (some _) => none

/- Write `data.translation.valid`. -/
def writeValid
    (e : PTEntry PTFrame)
    (bit : Bool) : Word PTFrame :=
  match e.word with
  | .nextLevel frame => .valid bit frame
  | .valid _ under => .valid bit under

/- Write a translation. -/
def writeTranslation
    (e : PTEntry PTFrame)
    (ppn : Nat) : PTEntry PTFrame :=
  ⟨true, e.writeValid true, ppn⟩

/- Clear the translation, which keeps `is_pte`. -/
def clearTranslation
    (e : PTEntry PTFrame) : PTEntry PTFrame :=
  ⟨e.isPte, e.writeValid false, invalidPpn⟩

/- Point the entry to a frame. -/
def link
    (e : PTEntry PTFrame)
    (frame : Option PTFrame) : PTEntry PTFrame :=
  match frame with
  | none => e
  | some f => ⟨e.isPte, .nextLevel (some f), e.ppn⟩

end PTEntry

/- The table, with the page sizes of its leaves. -/
structure PageTableRadix where
  levels : Nat
  pageSizeList : List Nat
  root : PTFrame

/- `PageTableRadix::PageTableRadix`. -/
def construct
    (levels : Nat)
    (pageSizeList : List Nat) : PageTableRadix :=
  ⟨levels, pageSizeList, .mk 0 (fun _ => PTEntry.fresh false)⟩

/-
  The index of an address at a level. The shift is negative
  from the sixth step on.
-/
def offset (levels level address : Nat) : Option Nat :=
  if 9 * (levels - level + 1) ≤ 48 then
    some (address / 2 ^ (48 - 9 * (levels - level + 1)) % 512)
  else
    none

/- The loop of `initializeWalk`. -/
def walk
    (levels : Nat)
    (pageSizeList : List Nat)
    (address : Nat) :
    Nat → PTFrame → Option PTWResult
| 0, _ => none
| level + 1, frame =>
    match offset levels (level + 1) address with
    | none => none
    | some offset =>
        let entry := frame.entries offset
        let access := fun isPte =>
          (⟨0, levels - (level + 1),
            frame.emulatedPpn * 4096 + offset * 8,
            isPte⟩ : PTWAccess)
        if entry.isPte then
          match entry.readValid with
          | none => none
          | some false =>
              some ⟨none, [access false], true, level⟩
          | some true =>
              if entry.ppn = invalidPpn then
                none
              else
                match pageSizeList[level]? with
                | none => none
                | some pageSize =>
                    some ⟨some (entry.ppn, pageSize),
                      [access true], false, 0⟩
        else
          match entry.readNext with
          | none => none
          | some none =>
              some ⟨none, [access false], true, level⟩
          | some (some next) =>
              (walk levels pageSizeList address level
                next).map
                (fun r =>
                  { r with
                    accesses := access false :: r.accesses })

/- `PageTableRadix::initializeWalk`. -/
def initializeWalk
    (t : PageTableRadix)
    (address : Nat) :
    Option PTWResult :=
  walk t.levels t.pageSizeList address t.levels t.root

/-
  The frame to continue in: the current one, or a new frame
  from `frames` when the pointer is null.
-/
def enter
    (level : Nat) :
    Option PTFrame → List Nat → Option (PTFrame × List Nat)
| some frame, frames => some (frame, frames)
| none, [] => none
| none, ppn :: frames =>
    some (.mk ppn (fun _ => PTEntry.fresh (level == 1)), frames)

/- The level at which a page of some size has its entry. -/
def leafLevel :
    PageSize → Nat
| .fourKb => 1
| .twoMb => 2

/-
  The loop of `updatePageTableFrames`, with the frame that
  replaces the current one and the frames not used.
-/
def update
    (levels address ppn : Nat)
    (pageSize : PageSize) :
    Nat → Option PTFrame → List Nat →
      Option (Option PTFrame × List Nat)
| 0, frame, frames => some (frame, frames)
| level + 1, frame, frames =>
    match offset levels (level + 1) address,
        enter (level + 1) frame frames with
    | some offset, some (current, frames') =>
        let entry := current.entries offset
        if level + 1 = leafLevel pageSize then
          some (some (current.setEntry offset
            (entry.writeTranslation ppn)), frames')
        else
          match entry.readNext with
          | none => none
          | some next =>
              match update levels address ppn pageSize level
                  next frames' with
              | none => none
              | some (next', frames'') =>
                  some (some (current.setEntry offset
                    (entry.link next')), frames'')
    | _, _ => none

/-
  The frames missing on the path of an address down to the
  first level.
-/
def missingFrames
    (levels address : Nat) :
    Nat → Option PTFrame → Nat
| 0, _ => 0
| level + 1, none => level + 1
| level + 1, some frame =>
    match offset levels (level + 1) address with
    | none => 0
    | some offset =>
        match (frame.entries offset).word with
        | .nextLevel next =>
            missingFrames levels address level next
        | .valid _ _ => 0

/-
  `PageTableRadix::updatePageTableFrames`, with the number of
  frames that it allocated.
-/
def updatePageTableFrames
    (t : PageTableRadix)
    (address ppn : Nat)
    (pageSize : PageSize)
    (frames : List Nat) :
    Option (Nat × PageTableRadix) :=
  match update t.levels address ppn pageSize t.levels
      (some t.root) frames with
  | some (some root, rest) =>
      some (frames.length - rest.length,
        { t with root := root })
  | _ => none

/- The loop of `deletePage`. -/
def delete
    (levels address : Nat) :
    Nat → Option PTFrame → Option (Option PTFrame)
| 0, frame => some frame
| _ + 1, none => none
| level + 1, some frame =>
    match offset levels (level + 1) address with
    | none => none
    | some offset =>
        let entry := frame.entries offset
        if entry.isPte then
          some (some (frame.setEntry offset entry.clearTranslation))
        else
          match entry.readNext with
          | none => none
          | some next =>
              match delete levels address level next with
              | none => none
              | some next' =>
                  some (some (frame.setEntry offset
                    (entry.link next')))

/- `PageTableRadix::deletePage`. -/
def deletePage
    (t : PageTableRadix)
    (address : Nat) :
    Option PageTableRadix :=
  match delete t.levels address t.levels (some t.root) with
  | some (some root) => some { t with root := root }
  | _ => none

end Radix

end Virtuoso
