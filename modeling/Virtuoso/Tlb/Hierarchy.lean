import Virtuoso.Lib.Run
import Virtuoso.Tlb.Blocks

/-
  The TLB hierarchy in a translation of the base MMU, from
  `mmu.cc`.

  A translation searches the levels in order and stops at the
  first level with a hit. After a hit or a page table walk,
  it fills the TLBs of the levels above the hit, and what an
  insertion evicts is pushed to all TLBs of the next level.

  A translation acts on the TLBs by single operations, which
  it lists in its trail. The walk, which is not a part of the
  hierarchy, is given with the request: its outcome is a
  frame and a page size, or `none` where the fault is left to
  the kernel in userspace.

  Main declarations:
    * `Mmu.tlbAt_step`
-/

namespace Virtuoso

/-
  What a translation does to one TLB. A victim of the level
  above is pushed, and the page of the translation is filled
  in.
-/
inductive TlbOp
  | materialize (now pick : Nat)
  | access (address : BitVec 64)
  | enqueue (outputs : List (List QueryEntry))
  | push (address : BitVec 64) (pageSize ppn : Nat)
  | fill (address : BitVec 64) (pageSize ppn : Nat)

/-
  The operation with the block that it hits or evicts. The
  queue belongs to the TLBs that prefetch, and a page is only
  allocated where its size is supported.
-/
def Tlb.exec
    {σ : Type}
    (t : Tlb σ) :
    TlbOp → Option (Option TlbBlock × Tlb σ)
| .materialize now pick =>
    if t.config.prefetch then t.materialize now pick
    else some (none, t)
| .access address => some (t.accessSingleLineTLB address)
| .enqueue outputs =>
    if t.config.prefetch then some (none, t.enqueue outputs)
    else some (none, t)
| .push address pageSize ppn =>
    if t.supportsPageSize pageSize then
      t.allocate address pageSize ppn false
    else
      some (none, t)
| .fill address pageSize ppn =>
    if t.supportsPageSize pageSize && t.config.allocateOnMiss
    then
      t.allocate address pageSize ppn false
    else
      some (none, t)

/- The TLBs of the levels. -/
abbrev TlbSubsystem (σ : Type) := List (List (Tlb σ))

namespace Mmu

variable {σ : Type}

/- The TLB at a place of a level. -/
def tlbAt
    (h : TlbSubsystem σ)
    (level index : Nat) : Option (Tlb σ) :=
  (h[level]?).bind (fun tlbs => tlbs[index]?)

/- The TLB at a place has changed. -/
def setTlb
    (h : TlbSubsystem σ)
    (level index : Nat)
    (t : Tlb σ) : TlbSubsystem σ :=
  h.modify level (fun tlbs => tlbs.set index t)

/- An operation on one of the TLBs. -/
structure Op where
  level : Nat
  index : Nat
  op : TlbOp

/- One operation of the TLB at a place. -/
def exec
    (h : TlbSubsystem σ)
    (o : Op) : Option (Option TlbBlock × TlbSubsystem σ) :=
  (tlbAt h o.level o.index).bind (fun t =>
    (t.exec o.op).map (fun r =>
      (r.1, setTlb h o.level o.index r.2)))

/- The hierarchy after an operation. -/
def step
    (h : TlbSubsystem σ)
    (o : Op) : Option (TlbSubsystem σ) :=
  (exec h o).map Prod.snd

/- The hierarchy with the operations up to now. -/
structure Session (σ : Type) where
  tlbs : TlbSubsystem σ
  trail : List Op

/- An operation, noted in the trail. -/
def perform
    (s : Session σ)
    (o : Op) : Option (Option TlbBlock × Session σ) :=
  (exec s.tlbs o).map (fun r =>
    (r.1, ⟨r.2, s.trail ++ [o]⟩))

/- What a translation reads from outside of the TLBs. -/
structure Request where
  address : BitVec 64
  instruction : Bool
  now : Nat
  picks : Nat → Nat → Nat → Nat
  outputs : Nat → Nat → List (List QueryEntry)
  walk : Option (Nat × Nat)

/- The TLB is on the path of instructions or of data. -/
def onPath (r : Request) (t : Tlb σ) : Bool :=
  if r.instruction then
    t.config.type != .data
  else
    t.config.type != .instruction

/- Empty the queue of a TLB as far as its entries are due. -/
def materializeAt
    (r : Request)
    (level index : Nat) :
    Nat → Session σ → Option (Session σ)
| 0, s => some s
| n + 1, s =>
    (perform s ⟨level, index, .materialize r.now
        (r.picks level index n)⟩).bind (fun out =>
      materializeAt r level index n out.2)

/- `lookup` of one TLB. -/
def lookupAt
    (r : Request)
    (level index : Nat)
    (t : Tlb σ)
    (s : Session σ) :
    Option (Option TlbBlock × Session σ) :=
  (materializeAt r level index t.queue.length s).bind
    (fun s₁ =>
      (perform s₁ ⟨level, index, .access r.address⟩).bind
        (fun hit =>
          (perform hit.2 ⟨level, index,
              .enqueue (r.outputs level index)⟩).map
            (fun out => (hit.1, out.2))))

/- Search the TLBs of a level; the last hit counts. -/
def searchLevel
    (r : Request)
    (level : Nat) :
    List Nat → Option TlbBlock → Session σ →
      Option (Option TlbBlock × Session σ)
| [], hit, s => some (hit, s)
| index :: rest, hit, s =>
    (tlbAt s.tlbs level index).bind (fun t =>
      if onPath r t then
        (lookupAt r level index t s).bind (fun out =>
          searchLevel r level rest (out.1 <|> hit) out.2)
      else
        searchLevel r level rest hit s)

/- The indices of the TLBs of a level. -/
def indices (h : TlbSubsystem σ) (level : Nat) : List Nat :=
  List.range (h.getD level []).length

/- Search the levels up to the first one with a hit. -/
def searchLevels
    (r : Request) :
    List Nat → Session σ →
      Option (Option (Nat × TlbBlock) × Session σ)
| [], s => some (none, s)
| level :: rest, s =>
    (searchLevel r level (indices s.tlbs level) none s).bind
      (fun out =>
        match out.1 with
        | some block => some (some (level, block), out.2)
        | none => searchLevels r rest out.2)

/- What is filled in: the page, its frame and the hit level. -/
structure Fill where
  address : BitVec 64
  pageSize : Nat
  ppn : Nat
  hitLevel : Option Nat

/- The level is above the hit, or nothing was hit. -/
def Fill.reaches (f : Fill) (level : Nat) : Bool :=
  f.hitLevel.all (fun hit => decide (level < hit))

/- Push victims to a TLB, and list what is evicted. -/
def pushVictims
    (level index : Nat) :
    List TlbBlock → List TlbBlock → Session σ →
      Option (List TlbBlock × Session σ)
| [], evicted, s => some (evicted, s)
| v :: rest, evicted, s =>
    (perform s ⟨level, index,
        .push (v.tag <<< v.pageSize) v.pageSize
          v.ppn⟩).bind (fun out =>
      pushVictims level index rest (evicted ++ out.1.toList) out.2)

/- Fill the page into a TLB above the hit. -/
def fillTlb
    (f : Fill)
    (level index : Nat)
    (evicted : List TlbBlock)
    (s : Session σ) :
    Option (List TlbBlock × Session σ) :=
  if f.reaches level then
    (perform s ⟨level, index,
        .fill f.address f.pageSize f.ppn⟩).map (fun out =>
      (evicted ++ out.1.toList, out.2))
  else
    some (evicted, s)

/- The loop over the TLBs of a level. -/
def allocateLevel
    (r : Request)
    (f : Fill)
    (level : Nat)
    (victims : List TlbBlock) :
    List Nat → List TlbBlock → Session σ →
      Option (List TlbBlock × Session σ)
| [], evicted, s => some (evicted, s)
| index :: rest, evicted, s =>
    (tlbAt s.tlbs level index).bind (fun t =>
      if onPath r t && !t.config.prefetch then
        (pushVictims level index victims evicted s).bind
          (fun pushed =>
            (fillTlb f level index pushed.1 pushed.2).bind
              (fun filled =>
                allocateLevel r f level victims rest filled.1
                  filled.2))
      else
        allocateLevel r f level victims rest evicted s)

/- The loop over the levels. -/
def allocateLevels
    (r : Request)
    (f : Fill) :
    List Nat → List TlbBlock → Session σ → Option (Session σ)
| [], _, s => some s
| level :: rest, victims, s =>
    (allocateLevel r f level victims (indices s.tlbs level) []
        s).bind (fun out =>
      allocateLevels r f rest out.1 out.2)

/- What was hit or walked to, if the translation goes on. -/
def fillOf
    (r : Request)
    (hit : Option (Nat × TlbBlock)) : Option Fill :=
  match hit with
  | some (level, block) =>
      some ⟨r.address, block.pageSize, block.ppn, some level⟩
  | none =>
      r.walk.map (fun w => ⟨r.address, w.2, w.1, none⟩)

/- `performAddressTranslation`. -/
def performAddressTranslation
    (s : Session σ)
    (r : Request) : Option (Session σ) :=
  (searchLevels r (List.range s.tlbs.length) s).bind
    (fun out =>
      match fillOf r out.1 with
      | none => some out.2
      | some f =>
          allocateLevels r f (List.range out.2.tlbs.length) []
            out.2)

variable {h h' : TlbSubsystem σ} {s s' : Session σ} {o : Op}
variable {out : Option TlbBlock}

/- The TLBs after one of them was replaced. -/
theorem tlbAt_setTlb
    {level index : Nat}
    {t : Tlb σ}
    (hAt : tlbAt h level index = some t)
    (t' : Tlb σ)
    (i j : Nat) :
    tlbAt (setTlb h level index t') i j =
      if i = level ∧ j = index then some t'
      else tlbAt h i j := by
  rcases Option.bind_eq_some_iff.mp hAt with
    ⟨tlbs, hLevel, hIndex⟩
  rcases List.getElem?_eq_some_iff.mp hIndex with ⟨hLt, -⟩
  simp only [tlbAt, setTlb, List.getElem?_modify]
  by_cases hSame : i = level
  · subst hSame
    simp only [hLevel, Option.map_eq_map, Option.map_some,
      Option.bind_some, true_and, if_true, List.getElem?_set]
    by_cases hOwn : j = index
    · subst hOwn
      simp only [if_true, hLt]
    · simp only [if_neg (Ne.symm hOwn), if_neg hOwn]
  · simp only [if_neg (Ne.symm hSame), hSame, false_and,
      if_false, Option.map_eq_map, Option.map_id_fun', id_eq]

/- An operation acts on its TLB and leaves the others. -/
theorem tlbAt_exec
    (hExec : exec h o = some (out, h')) :
    ∃ t t', tlbAt h o.level o.index = some t ∧
      t.exec o.op = some (out, t') ∧
      ∀ i j, tlbAt h' i j =
        if i = o.level ∧ j = o.index then some t'
        else tlbAt h i j := by
  rcases Option.bind_eq_some_iff.mp hExec with
    ⟨t, hAt, hRest⟩
  rcases Option.map_eq_some_iff.mp hRest with
    ⟨⟨out', t'⟩, hOp, hEq⟩
  simp only [Prod.mk.injEq] at hEq
  refine ⟨t, t', hAt, ?_, ?_⟩
  · rw [hOp, hEq.1]
  · intro i j
    rw [← hEq.2]
    exact tlbAt_setTlb hAt t' i j

theorem tlbAt_step
    (hStep : step h o = some h') :
    ∃ t t' out, tlbAt h o.level o.index = some t ∧
      t.exec o.op = some (out, t') ∧
      ∀ i j, tlbAt h' i j =
        if i = o.level ∧ j = o.index then some t'
        else tlbAt h i j := by
  rcases Option.map_eq_some_iff.mp hStep with
    ⟨⟨out, h₁⟩, hExec, hEq⟩
  simp only at hEq
  subst hEq
  rcases tlbAt_exec hExec with ⟨t, t', hAt, hOp, hAfter⟩
  exact ⟨t, t', out, hAt, hOp, hAfter⟩

theorem exec_of_perform
    (hPerform : perform s o = some (out, s')) :
    exec s.tlbs o = some (out, s'.tlbs) ∧
      s'.trail = s.trail ++ [o] := by
  rcases Option.map_eq_some_iff.mp hPerform with
    ⟨⟨out', h₁⟩, hExec, hEq⟩
  simp only [Prod.mk.injEq] at hEq
  rw [← hEq.1, ← hEq.2]
  exact ⟨hExec, rfl⟩

theorem step_of_perform
    (hPerform : perform s o = some (out, s')) :
    step s.tlbs o = some s'.tlbs := by
  rw [step, (exec_of_perform hPerform).1]
  rfl

end Mmu

end Virtuoso
