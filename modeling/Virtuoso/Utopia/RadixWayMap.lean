import Mathlib.Data.List.Induction
import Virtuoso.Utopia.RadixWayTable

/-
  The radix way table as a map from pages to ways.

  After any sequence of updates a lookup returns the way of
  the latest mapping of the page, cut to the bits that an
  entry has for it. The bits are the rounded-down logarithm
  of the associativity, so the ways above that power of two
  come back as smaller ones.

  Main declarations:
    * `Utopia.RadixWayTable.lookupWay_latest_iff`
-/

namespace Virtuoso

namespace Utopia

namespace RadixWayTable

/- An update of a table. -/
inductive TableOp
  | setMapping (vpn way : Nat)
  | clearMapping (vpn : Nat)
deriving DecidableEq

/- Perform an update. -/
def perform (t : RadixWayTable) : TableOp → RadixWayTable
| .setMapping vpn way => t.setMapping vpn way
| .clearMapping vpn => t.clearMapping vpn

/-
  The pages are those of addresses of 48 bits, and the ways
  are those of the associativity.
-/
def Valid
    (pageSizeBits associativity : Nat) :
    TableOp → Prop
| .setMapping vpn way =>
    vpn < 2 ^ (48 - pageSizeBits) ∧ way < associativity
| .clearMapping vpn => vpn < 2 ^ (48 - pageSizeBits)

/- What an update says about a page. -/
def remember
    (vpn : Nat)
    (found : Option Nat) :
    TableOp → Option Nat
| .setMapping vpn' way =>
    if vpn = vpn' then some way else found
| .clearMapping vpn' =>
    if vpn = vpn' then none else found

/-
  The way of the latest mapping of a page, if the page was
  not cleared since.
-/
def latest (ops : List TableOp) (vpn : Nat) : Option Nat :=
  ops.foldl (remember vpn) none

/- The ways that come back are among those that were set. -/
theorem mem_of_latest
    {ops : List TableOp}
    {vpn way : Nat}
    (hLatest : latest ops vpn = some way) :
    .setMapping vpn way ∈ ops := by
  induction ops using List.reverseRecOn with
  | nil => cases hLatest
  | append_singleton ops op ih =>
      rw [latest, List.foldl_append] at hLatest
      change remember vpn (latest ops vpn) op = some way at hLatest
      cases op with
      | setMapping vpn' way' =>
          rw [remember] at hLatest
          split at hLatest
          · rename_i hSame
            rw [Option.some.injEq] at hLatest
            simp [hSame, hLatest]
          · exact List.mem_append_left _ (ih hLatest)
      | clearMapping vpn' =>
          rw [remember] at hLatest
          split at hLatest
          · cases hLatest
          · exact List.mem_append_left _ (ih hLatest)

variable {pageSizeBits associativity : Nat}

/- The ways of every associativity fit the bytes of a leaf. -/
theorem reaches_wayBitsOf
    (hMost : associativity ≤ 65536) :
    RadixLeaf.Reaches (wayBitsOf associativity) := by
  left
  have hLog : Nat.log2 associativity ≤ 16 := by
    by_cases hZero : associativity = 0
    · rw [hZero]
      decide
    · have hLess : Nat.log2 associativity < 17 :=
        (Nat.log2_lt hZero).mpr (by omega)
      omega
  unfold wayBitsOf
  omega

/- The table after some updates, and its sizes. -/
theorem sound_foldl
    (hPage : 12 ≤ pageSizeBits)
    (hMost : associativity ≤ 65536)
    (ops : List TableOp) :
    let t := ops.foldl perform
      (construct pageSizeBits associativity)
    t.Sound ∧ t.pageSizeBits = pageSizeBits ∧
      t.wayBits = wayBitsOf associativity := by
  induction ops using List.reverseRecOn with
  | nil =>
      exact ⟨sound_construct hPage (reaches_wayBitsOf hMost),
        rfl, rfl⟩
  | append_singleton ops op ih =>
      rcases ih with ⟨hSound, hSize, hWays⟩
      intro t
      have hLast : t = (ops.foldl perform
          (construct pageSizeBits associativity)).perform op :=
        List.foldl_append
      rw [hLast]
      cases op with
      | setMapping vpn way =>
          exact ⟨sound_setMapping hSound vpn way, hSize, hWays⟩
      | clearMapping vpn =>
          exact ⟨sound_clearMapping hSound vpn, hSize, hWays⟩

/-
  After any updates a lookup returns the way of the latest
  mapping, cut to the bits that an entry has.
-/
theorem lookupWay_foldl
    (hPage : 12 ≤ pageSizeBits)
    (hMost : associativity ≤ 65536)
    {ops : List TableOp}
    (hValid : ∀ op ∈ ops, Valid pageSizeBits associativity op)
    {vpn : Nat}
    (hVpn : vpn < 2 ^ (48 - pageSizeBits)) :
    (ops.foldl perform
      (construct pageSizeBits associativity)).lookupWay vpn =
        (latest ops vpn).map
          (fun way => way % 2 ^ wayBitsOf associativity) := by
  induction ops using List.reverseRecOn with
  | nil => rfl
  | append_singleton ops op ih =>
      have hBefore := ih (fun other hMem =>
        hValid other (List.mem_append_left _ hMem))
      have hOp := hValid op (by simp)
      rcases sound_foldl hPage hMost ops with
        ⟨hSound, hSize, hWays⟩
      rw [List.foldl_append, latest, List.foldl_append]
      change ((ops.foldl perform _).perform op).lookupWay vpn =
        (remember vpn (latest ops vpn) op).map _
      cases op with
      | setMapping vpn' way =>
          have hVpn' : vpn' < 2 ^ (48 - pageSizeBits) := hOp.1
          rw [← hSize] at hVpn hVpn'
          rw [perform,
            lookupWay_setMapping hSound hVpn' hVpn way, hBefore,
            hWays, remember]
          split
          · rfl
          · rfl
      | clearMapping vpn' =>
          have hVpn' : vpn' < 2 ^ (48 - pageSizeBits) := hOp
          rw [← hSize] at hVpn hVpn'
          rw [perform,
            lookupWay_clearMapping hSound hVpn' hVpn, hBefore,
            remember]
          split
          · rfl
          · rfl

/-
  After every prefix of the updates each lookup returns the
  latest mapping exactly when each way that is set fits the
  bits of an entry, which are the rounded-down logarithm of
  the associativity and at least one.
-/
theorem lookupWay_latest_iff
    (hPage : pageSizeBits = 12 ∨ pageSizeBits = 21)
    (_hLeast : 1 ≤ associativity)
    (hMost : associativity ≤ 65536)
    (ops : List TableOp)
    (hValid : ∀ op ∈ ops, Valid pageSizeBits associativity op) :
    (∀ front, front <+: ops →
      ∀ vpn, vpn < 2 ^ (48 - pageSizeBits) →
        (front.foldl perform (construct pageSizeBits
          associativity)).lookupWay vpn = latest front vpn) ↔
      ∀ vpn way, .setMapping vpn way ∈ ops →
        way < 2 ^ max 1 (Nat.log2 associativity) := by
  have hLow : 12 ≤ pageSizeBits := by omega
  have hFront : ∀ {front : List TableOp}, front <+: ops →
      ∀ {vpn : Nat}, vpn < 2 ^ (48 - pageSizeBits) →
        (front.foldl perform (construct pageSizeBits
          associativity)).lookupWay vpn =
            (latest front vpn).map
              (fun way =>
                way % 2 ^ max 1 (Nat.log2 associativity)) := by
    intro front hPrefix vpn hVpn
    exact lookupWay_foldl hLow hMost
      (fun op hMem => hValid op (hPrefix.subset hMem)) hVpn
  constructor
  · intro hAll vpn way hMem
    rcases List.append_of_mem hMem with ⟨before, rest, hOps⟩
    have hPrefix : before ++ [.setMapping vpn way] <+: ops := by
      rw [hOps]
      exact ⟨rest, by simp⟩
    have hVpn : vpn < 2 ^ (48 - pageSizeBits) :=
      (hValid _ hMem).1
    have hLatest :
        latest (before ++ [.setMapping vpn way]) vpn =
          some way := by
      simp [latest, remember]
    have hFound := hAll _ hPrefix vpn hVpn
    rw [hFront hPrefix hVpn, hLatest, Option.map_some,
      Option.some.injEq] at hFound
    rw [← hFound]
    exact Nat.mod_lt way (Nat.two_pow_pos _)
  · intro hFits front hPrefix vpn hVpn
    rw [hFront hPrefix hVpn]
    cases hLatest : latest front vpn with
    | none => rfl
    | some way =>
        have hMem := hPrefix.subset (mem_of_latest hLatest)
        rw [Option.map_some, Nat.mod_eq_of_lt (hFits vpn way hMem)]

/- With six ways the first four come back. -/
theorem lookupWay_latest_six :
    ([TableOp.setMapping 5 3, .clearMapping 7,
      .setMapping 7 2].foldl perform (construct 12 6)).lookupWay 7 =
      latest [.setMapping 5 3, .clearMapping 7,
        .setMapping 7 2] 7 := by
  have hOps : ∀ op ∈ [TableOp.setMapping 5 3,
      .clearMapping 7, .setMapping 7 2], Valid 12 6 op := by
    simp [Valid]
  refine (lookupWay_latest_iff (Or.inl rfl) (by decide)
    (by decide) _ hOps).mpr ?_ _ (List.prefix_refl _) 7
    (by decide)
  intro vpn way hMem
  have hLog : Nat.log2 6 = 2 := by decide
  simp only [List.mem_cons, TableOp.setMapping.injEq,
    reduceCtorEq, List.not_mem_nil, or_false,
    false_or] at hMem
  rw [hLog]
  change way < 4
  omega

/- With three ways the third comes back as the first. -/
theorem lookupWay_latest_three :
    Valid 12 3 (.setMapping 0 2) ∧
      ([TableOp.setMapping 0 2].foldl perform
        (construct 12 3)).lookupWay 0 = some 0 ∧
      latest [.setMapping 0 2] 0 = some 2 := by
  have hOps : ∀ op ∈ [TableOp.setMapping 0 2], Valid 12 3 op := by
    simp [Valid]
  refine ⟨hOps _ (by simp), ?_, rfl⟩
  rw [lookupWay_foldl (by decide) (by decide) hOps (by decide)]
  decide

end RadixWayTable

end Utopia

end Virtuoso
