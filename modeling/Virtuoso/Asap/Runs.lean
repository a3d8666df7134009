import Virtuoso.Asap.Basic
import Virtuoso.Buddy.Runs
import Virtuoso.ReserveThp.Backing
import Virtuoso.ReserveThp.Promotion

/-
  Promotion under the allocator of `asap.h`.

  The entry of a promoted region starts at the frame of the
  page that promotes it. Earlier translations are kept and the
  frames of two regions stay apart in every run in which the
  first page of a region promotes it, no partly used region is
  demoted, and the frames of the instruction area are not the
  frames of a region.

  Main declarations:
    * `Asap.preserved_along`
-/

------------------------------------------------------------
-- The System And Its Invariant
------------------------------------------------------------

namespace Virtuoso

namespace Asap

open ReserveThp

/- The answer to a user, for data or for instructions. -/
structure Reply where
  answer : Answer
  isInstruction : Bool
deriving DecidableEq

/- The frames of an answer. -/
def uses (a : Answer) : List Use :=
  usesOf (some (a.va / 2 ^ 12)) a.pageSize a.frame

/- The allocator and its replies, with the latest first. -/
structure Machine where
  asap : Asap
  replies : List Reply

/- The calls of the allocator. -/
inductive Op
  | allocate (va pick : Nat)
  | instruction (va : Nat)
  | pagetable (va pick : Nat)
  | givePageFast

/- The machine after a user was answered. -/
def replied
    (s : Machine)
    (va : Nat)
    (isInstruction : Bool)
    (r : Placement × Asap) : Machine :=
  ⟨r.2, ⟨⟨va, r.1.frame, r.1.pageSize⟩, isInstruction⟩ :: s.replies⟩

/- Serve one request of 4KB and log the replies to users. -/
def step (s : Machine) : Op → Option Machine
| .allocate va pick =>
    (s.asap.allocate 4096 va false false pick).map
      (replied s va false)
| .instruction va =>
    (s.asap.allocate 4096 va false true 0).map (replied s va true)
| .pagetable va pick =>
    (s.asap.allocate 4096 va true false pick).map
      (fun r => { s with asap := r.2 })
| .givePageFast =>
    (s.asap.givePageFast 4096).map (fun r => { s with asap := r.2 })

/-
  A 2MB answer maps the pages of its region that were mapped
  before to where their entries map them.
-/
def Keeps (later earlier : Answer) : Prop :=
  later.pageSize = 21 → earlier.region = later.region →
    ∀ p ∈ later.frame, ∀ q ∈ earlier.frame,
      p + earlier.offset = q ∧
        ∀ va, va / 2 ^ 12 = earlier.va / 2 ^ 12 →
          finalPhysicalAddress p 21 va =
            finalPhysicalAddress q earlier.pageSize va

/- Answers in two regions share no frame. -/
def RegionsApart (a a' : Answer) : Prop :=
  a.region ≠ a'.region →
    ∀ u ∈ uses a, ∀ v ∈ uses a', u.frames.Apart v.frames

/- What a promotion has to preserve. -/
def Preserved (s : Machine) : Prop :=
  s.replies.Pairwise (fun r r' =>
    Keeps r.answer r'.answer ∧ RegionsApart r.answer r'.answer)

/- The region of an address, or the one reserved for it. -/
def regionFor
    (s : ReserveThp)
    (key : Nat) :
    Option Region :=
  match s.twoMbMap.lookup key with
  | some region => some region
  | none =>
      match s.buddy.reserve2mbPage with
      | some (some block, _) =>
          some ⟨block.start, fun _ => false, false⟩
      | _ => none

/-
  The frames that a user request is about to take: those of
  its region, or the last page of the free block that the
  buddy allocator selects.
-/
def target (s : ReserveThp) (va : Nat) : Option Span :=
  match regionFor s (va / 2 ^ 21) with
  | some region =>
      if promotes s region (va / 2 ^ 12 % 512) then
        some region.span
      else
        some ⟨region.regionBegin + va / 2 ^ 12 % 512,
          region.regionBegin + va / 2 ^ 12 % 512⟩
  | none =>
      (s.buddy.candidate 4096).map
        (fun block => ⟨block.stop, block.stop⟩)

/-
  The first page of its region promotes it, and instruction
  pages of the region are at their offsets.
-/
def PromotesFirst (s : Machine) (va : Nat) : Prop :=
  ∀ region ∈ regionFor s.asap.thp (va / 2 ^ 21),
    promotes s.asap.thp region (va / 2 ^ 12 % 512) = true →
      va / 2 ^ 12 % 512 = 0 ∧
        ∀ r ∈ s.replies, r.isInstruction = true →
          r.answer.region = va / 2 ^ 21 →
            ∀ q ∈ r.answer.frame,
              region.regionBegin + r.answer.offset = q

/- No instruction page of another region is about to be taken. -/
def SparesCode (s : Machine) (va : Nat) : Prop :=
  ∀ frames ∈ target s.asap.thp va,
    ∀ r ∈ s.replies, r.isInstruction = true →
      r.answer.region ≠ va / 2 ^ 21 →
        ∀ u ∈ uses r.answer, frames.Apart u.frames

/- The next instruction page belongs to no other region. -/
def SparesData (s : Machine) (va : Nat) : Prop :=
  ∀ q ∈ (s.asap.memory.allocateInstruction 4096).1,
    ∀ r ∈ s.replies, r.answer.region ≠ va / 2 ^ 21 →
      ∀ u ∈ uses r.answer, Span.Apart ⟨q, q⟩ u.frames

/- The condition on the state and the request. -/
def Meets (s : Machine) : Op → Prop
| .allocate va pick =>
    DemotesFull ⟨s.asap.thp, [], []⟩ (.allocate va false pick) ∧
      PromotesFirst s va ∧ SparesCode s va
| .instruction va => SparesData s va
| .pagetable _ _ => True
| .givePageFast => True

/- The answers for data, with the latest first. -/
def dataAnswers (replies : List Reply) : List Answer :=
  (replies.filter (fun r => !r.isInstruction)).map Reply.answer

/-
  The answers for data are those of a reservation allocator,
  and the allocator holds their frames.
-/
structure Inv (s : Machine) : Prop where
  mapper : Mapper.Inv ⟨s.asap.thp, dataAnswers s.replies⟩
  backing : Backing s.asap.thp
    ((dataAnswers s.replies).flatMap uses)
  small : ∀ r ∈ s.replies, r.isInstruction = true →
    r.answer.pageSize = 12
  preserved : Preserved s

variable {s s' : Machine}

theorem mem_dataAnswers
    {replies : List Reply}
    {r : Reply}
    (hMem : r ∈ replies)
    (hData : r.isInstruction = false) :
    r.answer ∈ dataAnswers replies := by
  apply List.mem_map_of_mem
  rw [List.mem_filter]
  exact ⟨hMem, by simp [hData]⟩

/- The uses of an answer carry its page. -/
theorem page_of_mem_uses
    {a : Answer}
    {u : Use}
    (hMem : u ∈ uses a) :
    u.page = some (a.va / 2 ^ 12) := by
  unfold uses usesOf at hMem
  cases hFrame : a.frame with
  | none => simp [hFrame] at hMem
  | some f =>
      rw [hFrame] at hMem
      rw [List.mem_singleton.mp hMem]

/- A use in a region belongs to an answer in the region. -/
theorem not_within_of_ne
    {a : Answer}
    {u : Use}
    (hMem : u ∈ uses a)
    {key : Nat}
    (hNe : key ≠ a.region) :
    ¬ u.Within key := by
  rintro ⟨page, hPage, hKey⟩
  rw [page_of_mem_uses hMem, Option.some.injEq] at hPage
  apply hNe
  rw [← hKey, ← hPage, ← region_eq]
  rfl

/- The reservation allocator keeps translations as well. -/
theorem keeps_of_keepsTranslation
    {later earlier : Answer}
    (hKeeps : KeepsTranslation later earlier) :
    Keeps later earlier := by
  intro hLarge hRegion p hLater q hEarlier
  rcases hKeeps hLarge hRegion with
    ⟨base, hFrame, hOld, hSize, hSame⟩
  rw [Option.mem_def] at hLater hEarlier
  rw [hFrame, Option.some.injEq] at hLater
  rw [hOld, Option.some.injEq] at hEarlier
  subst hLater
  subst hEarlier
  rw [hSize]
  exact ⟨rfl, hSame⟩

------------------------------------------------------------
-- Steps And Runs
------------------------------------------------------------

/- A frame from the free lists for the kernel. -/
theorem inv_fromBuddy
    (hInv : Inv s)
    {frame : Option Nat}
    {thp' : ReserveThp}
    (hCall : fromBuddy s.asap.thp 4096 = some (frame, thp')) :
    Inv ⟨{ s.asap with thp := thp' }, s.replies⟩ := by
  refine ⟨Mapper.inv_fromBuddy hInv.mapper hCall, ?_,
    hInv.small, hInv.preserved⟩
  rcases backing_fromBuddy hInv.backing hCall with
    ⟨-, hSame, -⟩ | ⟨f, -, hNext, -⟩
  · rw [hSame]
    exact hInv.backing
  · exact (hNext none).tail

theorem regionFor_of_found
    {thp : ReserveThp}
    {key : Nat}
    {region : Region}
    {b : Buddy}
    (hFound : Found thp key region b) :
    regionFor thp key = some region := by
  cases hFound with
  | tracked hLookup => simp [regionFor, hLookup]
  | reserved hLookup hReserve =>
      simp [regionFor, hLookup, hReserve]

theorem regionFor_of_depleted
    {thp : ReserveThp}
    {key : Nat}
    (hLookup : thp.twoMbMap.lookup key = none)
    (hDepleted : thp.buddy.Depleted) :
    regionFor thp key = none := by
  unfold regionFor
  rw [hLookup]
  simp only
  split
  · rename_i block b hReserve
    exact absurd hReserve hDepleted.reserve2mbPage
  · rfl

/- Without partly used regions nothing is put back. -/
theorem retry_of_full
    {thp thp₁ thp₂ thp' : ReserveThp}
    {known : List Use}
    (hBacking : Backing thp known)
    {frame : Option Nat}
    {region : Region}
    {pick : Nat}
    (hCall : fromBuddy thp 4096 = some (none, thp₁))
    (hFull : Exhausted thp.buddy → RegionsFull thp.twoMbMap)
    (hDemote : demotePage thp₁ pick = some (region, thp₂))
    (hRetry : fromBuddy thp₂ 4096 = some (frame, thp')) :
    frame = none := by
  rcases backing_fromBuddy hBacking hCall with
    ⟨-, hSame, hEmpty⟩ | ⟨f, hFrame, -, -⟩
  · subst hSame
    have hExhausted : Exhausted thp₁.buddy :=
      fun k _ => hEmpty k
    have hNil := (backing_demotePage hBacking
      (hFull hExhausted) hDemote).1
    have hBuddy : thp₂.buddy = thp₁.buddy := by
      unfold demotePage at hDemote
      split at hDemote
      · cases hDemote
      · simp only [Option.some.injEq, Prod.mk.injEq] at hDemote
        rw [← hDemote.2, hDemote.1, hNil]
        rfl
    rw [← hBuddy] at hExhausted
    rw [fromBuddy_of_exhausted hExhausted, Option.some.injEq,
      Prod.mk.injEq] at hRetry
    exact hRetry.1.symm
  · cases hFrame

variable {placement : Placement} {va pick : Nat}
variable {thp thp' : ReserveThp}

/- A user request takes the frames that it was about to. -/
theorem target_of_serves
    {known : List Use}
    (hBacking : Backing thp known)
    (hFull : DemotesFull ⟨thp, [], []⟩ (.allocate va false pick))
    (hServes : Serves thp va pick placement thp')
    {u : Use}
    (hMem : u ∈ usesOf (some (va / 2 ^ 12))
      placement.pageSize placement.frame) :
    u.frames ∈ target thp va := by
  cases hServes with
  | @inRegion region b hFound hOpen promoted hPromotes =>
      rw [List.mem_singleton.mp hMem]
      simp only [target, regionFor_of_found hFound, hPromotes]
      cases promoted with
      | true => rfl
      | false => rfl
  | @fallback frame thp' hLookup hDepleted hCall =>
      rw [List.mem_singleton.mp hMem]
      simp only [target, regionFor_of_depleted hLookup hDepleted]
      rcases hBacking.backed with ⟨rest, hTiled, -⟩
      rcases Buddy.upper_of_allocate hTiled
          (eq_of_fromBuddy hCall).2 with
        ⟨block, hCandidate, hEnd⟩
      have hOrder : Buddy.orderOf (4096 / 4096) = 0 := by
        decide
      rw [hOrder, Nat.pow_zero, Nat.add_right_cancel_iff] at hEnd
      rw [hCandidate, hEnd]
      rfl
  | demotion hLookup hDepleted hCall hDemote hRetry =>
      have hNone := retry_of_full hBacking hCall
        (hFull hLookup) hDemote hRetry
      subst hNone
      simp [usesOf] at hMem

/- A promotion by the first page answers with the region. -/
theorem shiftedPlacement_of_first
    (hFirst : ∀ region ∈ regionFor thp (va / 2 ^ 21),
      promotes thp region (va / 2 ^ 12 % 512) = true →
        va / 2 ^ 12 % 512 = 0)
    (hServes : Serves thp va pick placement thp') :
    shiftedPlacement (va / 2 ^ 12 % 512) placement = placement := by
  cases hServes with
  | @inRegion region b hFound hOpen promoted hPromotes =>
      cases promoted with
      | false => rfl
      | true =>
          have hZero := hFirst region
            (regionFor_of_found hFound) hPromotes
          rw [shiftedPlacement, if_pos rfl, hZero]
          rfl
  | fallback hLookup hDepleted hCall => rfl
  | demotion hLookup hDepleted hCall hDemote hRetry => rfl

/- An instruction page of a region that is promoted. -/
theorem keeps_instruction
    {a : Answer}
    (hSmall : a.pageSize = 12)
    (hPlaced : ∀ region ∈ regionFor thp (va / 2 ^ 21),
      promotes thp region (va / 2 ^ 12 % 512) = true →
        a.region = va / 2 ^ 21 →
          ∀ q ∈ a.frame, region.regionBegin + a.offset = q)
    (hServes : Serves thp va pick placement thp') :
    Keeps ⟨va, placement.frame, placement.pageSize⟩ a := by
  intro hLarge hRegion p hLater q hEarlier
  cases hServes with
  | @inRegion region b hFound hOpen promoted hPromotes =>
      cases promoted with
      | false => simp at hLarge
      | true =>
          rw [Option.mem_def, Option.some.injEq] at hLater
          have hBase : region.regionBegin = p := hLater
          have hOffset := hPlaced region
            (regionFor_of_found hFound) hPromotes hRegion q
            hEarlier
          subst hBase
          subst hOffset
          refine ⟨rfl, fun va' hPage => ?_⟩
          rw [hSmall]
          exact finalPhysicalAddress_promoted _ hPage
  | fallback hLookup hDepleted hCall => simp at hLarge
  | demotion hLookup hDepleted hCall hDemote hRetry =>
      simp at hLarge

/- A user request that meets the condition. -/
theorem inv_serves
    (hInv : Inv s)
    {thp' : ReserveThp}
    (hFull : DemotesFull ⟨s.asap.thp, [], []⟩
      (.allocate va false pick))
    (hFirst : PromotesFirst s va)
    (hSpares : SparesCode s va)
    (hServes : Serves s.asap.thp va pick placement thp') :
    Inv (replied s va false
      (placement, { s.asap with thp := thp' })) := by
  have hMapper := Mapper.inv_serves hInv.mapper hServes
  rcases backing_serves hInv.backing hFull hServes with
    ⟨hBacking, hOthers⟩
  refine ⟨hMapper, hBacking, ?_, ?_⟩
  · intro r hMem hCode
    rcases List.mem_cons.mp hMem with hEq | hOld
    · rw [hEq] at hCode
      cases hCode
    · exact hInv.small r hOld hCode
  · refine List.Pairwise.cons ?_ hInv.preserved
    intro r hMem
    cases hKind : r.isInstruction with
    | false =>
        have hData := mem_dataAnswers hMem hKind
        refine ⟨?_, fun hNe u hNew v hOld => ?_⟩
        · exact keeps_of_keepsTranslation
            ((List.pairwise_cons.mp hMapper.kept).1 _ hData)
        · have hUse : v ∈ (dataAnswers s.replies).flatMap uses :=
            List.mem_flatMap.mpr ⟨r.answer, hData, hOld⟩
          rcases hOthers u hNew v hUse with hWithin | hApart
          · exact absurd hWithin (not_within_of_ne hOld hNe)
          · exact hApart
    | true =>
        refine ⟨?_, fun hNe u hNew v hOld => ?_⟩
        · apply keeps_instruction (hInv.small r hMem hKind)
            _ hServes
          intro region hFound hPromotes hRegion
          exact (hFirst region hFound hPromotes).2 r hMem
            hKind hRegion
        · have hTarget := target_of_serves hInv.backing hFull
            hServes hNew
          exact hSpares _ hTarget r hMem hKind (Ne.symm hNe) v hOld

/- An instruction page that meets the condition. -/
theorem inv_instruction
    (hInv : Inv s)
    {va : Nat}
    (hSpares : SparesData s va)
    (memory : PhysicalMemoryAllocator) :
    Inv (replied s va true
      (⟨(s.asap.memory.allocateInstruction 4096).1, 12, none⟩,
        { s.asap with memory := memory })) := by
  refine ⟨hInv.mapper, hInv.backing, ?_, ?_⟩
  · intro r hMem hCode
    rcases List.mem_cons.mp hMem with hEq | hOld
    · rw [hEq]
    · exact hInv.small r hOld hCode
  · refine List.Pairwise.cons ?_ hInv.preserved
    intro r hMem
    refine ⟨fun hLarge => absurd hLarge (by simp), ?_⟩
    intro hNe u hNew v hOld
    cases hFrame : (s.asap.memory.allocateInstruction 4096).1 with
    | none => simp [uses, usesOf, hFrame] at hNew
    | some q =>
        simp only [uses, hFrame] at hNew
        rw [List.mem_singleton.mp hNew]
        exact hSpares q hFrame r hMem (Ne.symm hNe) v hOld

theorem inv_step
    {op : Op}
    (hInv : Inv s)
    (hMeets : Meets s op)
    (hStep : step s op = some s') :
    Inv s' := by
  cases op with
  | allocate va pick =>
      rcases hMeets with ⟨hFull, hFirst, hSpares⟩
      rcases Option.map_eq_some_iff.mp hStep with
        ⟨r, hCall, hEq⟩
      rcases Option.map_eq_some_iff.mp hCall with
        ⟨r', hUser, hPair⟩
      rw [allocateUser_eq] at hUser
      rcases Option.map_eq_some_iff.mp hUser with
        ⟨⟨placement, thp'⟩, hReserve, hPlaced⟩
      have hServes := serves_of_allocate hReserve
      rw [shiftedPlacement_of_first
        (fun region hFound hPromotes =>
          (hFirst region hFound hPromotes).1) hServes]
        at hPlaced
      subst hPlaced
      subst hPair
      subst hEq
      exact inv_serves hInv hFull hFirst hSpares hServes
  | instruction va =>
      rw [← Option.some.inj hStep]
      exact inv_instruction hInv hMeets _
  | pagetable va pick =>
      rcases Option.map_eq_some_iff.mp hStep with
        ⟨r, hCall, hEq⟩
      rcases Option.map_eq_some_iff.mp hCall with
        ⟨⟨frame, thp'⟩, hBuddy, hPair⟩
      subst hPair
      subst hEq
      exact inv_fromBuddy hInv hBuddy
  | givePageFast =>
      rcases Option.map_eq_some_iff.mp hStep with
        ⟨r, hCall, hEq⟩
      rcases Option.map_eq_some_iff.mp hCall with
        ⟨⟨frame, thp'⟩, hBuddy, hPair⟩
      subst hPair
      subst hEq
      exact inv_fromBuddy hInv hBuddy

/-
  In every run whose requests meet the condition, promotions
  keep the translations and regions share no frame.
-/
theorem preserved_along
    (memorySize maxOrder kernelSize : Nat)
    (threshold : ℚ)
    (a : Asap)
    (hConstruct :
      construct memorySize maxOrder kernelSize threshold = some a)
    (ops : List Op)
    (hAlong : Run.Along step Meets ⟨a, []⟩ ops) :
    ∀ front, front <+: ops →
      ∀ s, Run.run step ⟨a, []⟩ front = some s → Preserved s := by
  intro front hFront s hRun
  have hInit : Inv ⟨a, []⟩ := by
    rcases Option.map_eq_some_iff.mp hConstruct with
      ⟨thp, hThp, hEq⟩
    rcases Option.map_eq_some_iff.mp hThp with
      ⟨b, hBuddy, hEq'⟩
    subst hEq'
    subst hEq
    refine ⟨⟨?_, ?_, List.Pairwise.nil⟩,
      ⟨List.nodup_nil, [], ?_, ?_⟩, ?_, List.Pairwise.nil⟩
    · intro key region hLookup
      simp at hLookup
    · simp [dataAnswers]
    · simpa [spans] using Buddy.tiled_construct hBuddy
    · simp [dataAnswers]
    · simp
  exact (Run.along_inv
    (fun _ _ _ hInv hMeets hStep => inv_step hInv hMeets hStep)
    hInit hAlong hFront hRun).1.preserved

instance (a a' : Answer) : Decidable (RegionsApart a a') :=
  inferInstanceAs (Decidable (_ → _))

instance
    (s : Machine)
    (va : Nat) :
    Decidable (PromotesFirst s va) :=
  inferInstanceAs (Decidable
    (∀ region ∈ regionFor s.asap.thp (va / 2 ^ 21), _))

instance
    (s : Machine)
    (va : Nat) :
    Decidable (SparesCode s va) :=
  inferInstanceAs (Decidable (∀ frames ∈ target s.asap.thp va, _))

instance
    (s : Machine)
    (va : Nat) :
    Decidable (SparesData s va) :=
  inferInstanceAs (Decidable
    (∀ q ∈ (s.asap.memory.allocateInstruction 4096).1, _))

instance (s : Machine) (op : Op) : Decidable (Meets s op) :=
  match op with
  | .allocate va pick =>
      inferInstanceAs (Decidable
        (DemotesFull ⟨s.asap.thp, [], []⟩
            (.allocate va false pick) ∧
          PromotesFirst s va ∧ SparesCode s va))
  | .instruction va => inferInstanceAs (Decidable (SparesData s va))
  | .pagetable _ _ => isTrue trivial
  | .givePageFast => isTrue trivial

/- The first page of a region promotes it. -/
theorem preserved_along_first :
    ∃ a ∈ construct 4 9 0 (1 / 512),
      ∃ s ∈ Run.run step ⟨a, []⟩
          [.instruction (2 ^ 30), .allocate 4096 0, .allocate 0 0],
        s.replies.map (fun r => r.answer.pageSize) = [21, 12, 12] ∧
          Preserved s := by
  refine ⟨_, Option.get_mem ?_, _, Option.get_mem ?_, ?_,
    preserved_along 4 9 0 (1 / 512) _ (Option.get_mem _) _ ?_
      _ (List.prefix_refl _) _ (Option.get_mem _)⟩
  iterate 4 decide +kernel

/-
  The second page of a region promotes it, and the 2MB entry
  starts at the frame of the second page.
-/
theorem not_preserved_second :
    ∃ a ∈ construct 4 9 0 (1 / 512),
      ∃ s ∈ Run.run step ⟨a, []⟩ [.allocate 0 0, .allocate 4096 0],
        s.replies.map Reply.answer =
            [⟨4096, some 513, 21⟩, ⟨0, some 512, 12⟩] ∧
          ¬ Preserved s := by
  have hRuns :
      ∃ a ∈ construct 4 9 0 (1 / 512),
        ∃ s ∈ Run.run step ⟨a, []⟩
            [.allocate 0 0, .allocate 4096 0],
          s.replies.map Reply.answer =
            [⟨4096, some 513, 21⟩, ⟨0, some 512, 12⟩] := by
    decide +kernel
  rcases hRuns with ⟨a, hConstruct, s, hRun, hAnswers⟩
  refine ⟨a, hConstruct, s, hRun, hAnswers, ?_⟩
  intro hPreserved
  have hPairs : (s.replies.map Reply.answer).Pairwise Keeps :=
    hPreserved.map _ (fun _ _ hPair => hPair.1)
  rw [hAnswers] at hPairs
  have hFirst := (List.pairwise_cons.mp hPairs).1
    ⟨0, some 512, 12⟩ (by simp) rfl (by decide) 513 rfl 512 rfl
  exact absurd hFirst.1 (by decide)

end Asap

end Virtuoso
