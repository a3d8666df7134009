import Mathlib.Data.List.Induction
import Mathlib.Data.Nat.Bitwise
import Virtuoso.Lib.Keyed

/-
  The radix table of `RecencyPointerTable.h`, which holds the
  pointers of the recency list.

  The header documents four levels, each indexed with nine
  bits of the page number, and pages of 4KB. The key of a
  page of the levels 2 and 1 has the nine bits of the index
  as well, so that these pages are not shared; and a leaf of
  512 entries of 16 bytes is twice as large as its page.

  Addresses are natural numbers: a table has at most `2 ^ 29`
  pages from its base on, so nothing wraps around.

  Main declarations:
    * `RecencyPointerTable.documented_iff`
-/

------------------------------------------------------------
-- The Table And Its Keys
------------------------------------------------------------

namespace Virtuoso

/-
  `pages` has the address of the next page (`m_next_alloc`)
  and the pages by their keys (`m_level_pages`).
-/
structure RecencyPointerTable where
  physBase : Nat
  rootPhys : Nat
  pages : Keyed.Table Nat

namespace RecencyPointerTable

/- The bytes of an entry of a directory. -/
def dirEntrySize : Nat := 8

/- The bytes of an entry of a leaf. -/
def leafEntrySize : Nat := 16

/- The bytes of a page of the table. -/
def pageSize : Nat := 4096

/- `RecencyPointerTable::RecencyPointerTable`. -/
def construct (physBase : Nat) : RecencyPointerTable :=
  ⟨physBase, physBase, ⟨physBase + pageSize, fun _ => none⟩⟩

/- The level is above the bits of the path. -/
def packKey (level pre : Nat) : Nat :=
  level <<< 48 ||| (pre &&& 0x0000FFFFFFFFFFFF)

/- The nine bits of a level. -/
def extractIndex (vpn level : Nat) : Nat :=
  (vpn >>> (9 * level)) &&& ((1 <<< 9) - 1)

/- The low bits that the key of a level leaves out. -/
def keyShift (level : Nat) : Nat :=
  if level = 2 then 18 else 9

/- The keys of the pages of the levels 2, 1 and 0. -/
def pageKey (vpn level : Nat) : Nat :=
  packKey level (vpn >>> keyShift level)

/-
  `getWalkAddresses`: the addresses from the root to the
  leaf, with zeros from the first missing page on.
-/
def getWalkAddresses
    (t : RecencyPointerTable)
    (vpn : Nat) : List Nat :=
  let root := t.rootPhys + extractIndex vpn 3 * dirEntrySize
  match t.pages.page (pageKey vpn 2) with
  | none => [root, 0, 0, 0]
  | some page₂ =>
      let second := page₂ + extractIndex vpn 2 * dirEntrySize
      match t.pages.page (pageKey vpn 1) with
      | none => [root, second, 0, 0]
      | some page₁ =>
          let third :=
            page₁ + extractIndex vpn 1 * dirEntrySize
          match t.pages.page (pageKey vpn 0) with
          | none => [root, second, third, 0]
          | some page₀ =>
              [root, second, third,
                page₀ + extractIndex vpn 0 * leafEntrySize]

/- `ensureAllocated`, from level 2 down. -/
def ensureAllocated
    (t : RecencyPointerTable)
    (vpn : Nat) : RecencyPointerTable :=
  { t with
    pages :=
      Keyed.request pageSize
        (Keyed.request pageSize
          (Keyed.request pageSize t.pages (pageKey vpn 2))
          (pageKey vpn 1))
        (pageKey vpn 0) }

/- A use of the table. -/
inductive Access
  | ensureAllocated (vpn : Nat)
  | getWalkAddresses (vpn : Nat)
deriving DecidableEq

/- The page that is accessed. -/
def Access.vpn :
    Access → Nat
| .ensureAllocated vpn => vpn
| .getWalkAddresses vpn => vpn

/- The table after an access; reading does not change it. -/
def perform
    (t : RecencyPointerTable) :
    Access → RecencyPointerTable
| .ensureAllocated vpn => t.ensureAllocated vpn
| .getWalkAddresses _ => t

/- The page that a walk reads at a level, if there is one. -/
def pageAt
    (t : RecencyPointerTable)
    (vpn level : Nat) :
    Option Nat :=
  if level = 3 then some t.rootPhys
  else t.pages.page (pageKey vpn level)

/- The bits of a page number above the index of a level. -/
def above (vpn level : Nat) : Nat :=
  vpn / 2 ^ (9 * (level + 1))

/-
  The table that the header documents, for the page numbers
  that were accessed: they share a page at a level exactly
  when they agree above its index; the address at a level is
  in its page; leaf entries differ; and the pages of different
  nodes do not overlap.
-/
structure Documented
    (t : RecencyPointerTable)
    (vpns : List Nat) : Prop where
  shared_iff :
    ∀ level ≤ 3, ∀ v ∈ vpns, ∀ w ∈ vpns, ∀ p q,
      t.pageAt v level = some p → t.pageAt w level = some q →
        (p = q ↔ above v level = above w level)
  inside :
    ∀ level ≤ 3, ∀ v ∈ vpns, ∀ p,
      t.pageAt v level = some p →
        ∃ address,
          (t.getWalkAddresses v)[3 - level]? = some address ∧
            p ≤ address ∧ address < p + pageSize
  leaf_ne :
    ∀ v ∈ vpns, ∀ w ∈ vpns, v ≠ w →
      t.pageAt v 0 ≠ none → t.pageAt w 0 ≠ none →
        (t.getWalkAddresses v)[3]? ≠ (t.getWalkAddresses w)[3]?
  apart :
    ∀ level ≤ 3, ∀ level' ≤ 3, ∀ v ∈ vpns, ∀ w ∈ vpns,
      ∀ p q, t.pageAt v level = some p →
        t.pageAt w level' = some q →
          (level, above v level) ≠ (level', above w level') →
            p + pageSize ≤ q ∨ q + pageSize ≤ p

/- The page numbers that were written. -/
def written (accesses : List Access) : List Nat :=
  accesses.filterMap (fun
    | .ensureAllocated vpn => some vpn
    | .getWalkAddresses _ => none)

/- A page of the level was allocated for these bits. -/
def Present
    (accesses : List Access)
    (bits vpn : Nat) : Prop :=
  ∃ u ∈ written accesses, u / 2 ^ bits = vpn / 2 ^ bits

instance
    (accesses : List Access)
    (bits vpn : Nat) :
    Decidable (Present accesses bits vpn) :=
  inferInstanceAs (Decidable (∃ u ∈ _, _ = _))

/-
  The accesses stay in the first half of each leaf, and those
  that share the bits above the index of level 2 or of level
  1 share the index as well.
-/
def Narrow (accesses : List Access) : Prop :=
  (∀ a ∈ accesses, Present accesses 9 a.vpn → a.vpn % 512 < 256) ∧
  ∀ a ∈ accesses, ∀ b ∈ accesses,
    (Present accesses 18 a.vpn → Present accesses 18 b.vpn →
      above a.vpn 2 = above b.vpn 2 →
        above a.vpn 1 = above b.vpn 1) ∧
    (Present accesses 9 a.vpn → Present accesses 9 b.vpn →
      above a.vpn 1 = above b.vpn 1 → above a.vpn 0 = above b.vpn 0)

instance
    (accesses : List Access) :
    Decidable (Narrow accesses) :=
  inferInstanceAs (Decidable ((∀ a ∈ _, _ → _) ∧
    ∀ a ∈ _, ∀ b ∈ _, (_ → _ → _ → _) ∧ (_ → _ → _ → _)))

theorem packKey_eq
    (level pre : Nat) :
    packKey level pre = level * 2 ^ 48 + pre % 2 ^ 48 := by
  unfold packKey
  have hMask : pre &&& 0x0000FFFFFFFFFFFF = pre % 2 ^ 48 :=
    Nat.and_two_pow_sub_one_eq_mod pre 48
  rw [hMask, ← Nat.shiftLeft_add_eq_or_of_lt
    (Nat.mod_lt _ (by decide)), Nat.shiftLeft_eq]

theorem extractIndex_eq
    (vpn level : Nat) :
    extractIndex vpn level = vpn / 2 ^ (9 * level) % 512 := by
  unfold extractIndex
  rw [Nat.shiftRight_eq_div_pow]
  exact Nat.and_two_pow_sub_one_eq_mod _ 9

/- A key tells the level and the bits that it has. -/
theorem pageKey_eq_iff
    {v w level level' : Nat}
    (hV : v < 2 ^ 36)
    (hW : w < 2 ^ 36) :
    pageKey v level = pageKey w level' ↔
      level = level' ∧
        v / 2 ^ keyShift level = w / 2 ^ keyShift level' := by
  have hLt : ∀ x bits, x < 2 ^ 36 → x / 2 ^ bits < 2 ^ 48 := by
    intro x bits hX
    have hLe := Nat.div_le_self x (2 ^ bits)
    omega
  have hLtV := hLt v (keyShift level) hV
  have hLtW := hLt w (keyShift level') hW
  unfold pageKey
  rw [packKey_eq, packKey_eq, Nat.shiftRight_eq_div_pow,
    Nat.shiftRight_eq_div_pow, Nat.mod_eq_of_lt hLtV,
    Nat.mod_eq_of_lt hLtW]
  generalize v / 2 ^ keyShift level = x at hLtV ⊢
  generalize w / 2 ^ keyShift level' = y at hLtW ⊢
  omega

/-
  What the accesses lead to: the pages are apart and behind
  the root, a page is there when it was written for its bits,
  and each leaf page lies behind its page of level 1.
-/
structure Inv
    (physBase : Nat)
    (accesses : List Access)
    (t : RecencyPointerTable) : Prop where
  root : t.rootPhys = physBase
  spaced : Keyed.Spaced (physBase + pageSize) pageSize t.pages
  present :
    ∀ level ≤ 2, ∀ vpn < 2 ^ 36,
      t.pages.page (pageKey vpn level) ≠ none ↔
        Present accesses (keyShift level) vpn
  paired :
    ∀ vpn < 2 ^ 36,
      (t.pages.page (pageKey vpn 1) = none ∧
        t.pages.page (pageKey vpn 0) = none) ∨
      ∃ page, t.pages.page (pageKey vpn 1) = some page ∧
        t.pages.page (pageKey vpn 0) = some (page + pageSize)

theorem inv_construct
    (physBase : Nat) :
    Inv physBase [] (construct physBase) := by
  refine ⟨rfl, Keyed.spaced_empty _ _, ?_, ?_⟩
  · intro level _ vpn _
    simp [construct, Present, written]
  · intro vpn _
    exact Or.inl ⟨rfl, rfl⟩

theorem present_append_walk
    {accesses : List Access}
    {vpn bits v : Nat} :
    Present (accesses ++ [.getWalkAddresses vpn]) bits v ↔
      Present accesses bits v := by
  simp [Present, written]

theorem present_append_write
    {accesses : List Access}
    {vpn bits v : Nat} :
    Present (accesses ++ [.ensureAllocated vpn]) bits v ↔
      v / 2 ^ bits = vpn / 2 ^ bits ∨ Present accesses bits v := by
  simp only [Present, written, List.filterMap_append,
    List.filterMap_cons, List.filterMap_nil,
    List.mem_append, List.mem_singleton]
  constructor
  · rintro ⟨u, hMem | hEq, hBits⟩
    · exact Or.inr ⟨u, hMem, hBits⟩
    · exact Or.inl (hEq ▸ hBits.symm)
  · rintro (hBits | ⟨u, hMem, hBits⟩)
    · exact ⟨vpn, Or.inr rfl, hBits.symm⟩
    · exact ⟨u, Or.inl hMem, hBits⟩

variable {t : RecencyPointerTable}

/- The pages of a level after a write. -/
theorem page_ensureAllocated_ne_none_iff
    {vpn v level : Nat}
    (hVpn : vpn < 2 ^ 36)
    (hV : v < 2 ^ 36)
    (hLevel : level ≤ 2) :
    (t.ensureAllocated vpn).pages.page (pageKey v level) ≠ none ↔
      v / 2 ^ keyShift level = vpn / 2 ^ keyShift level ∨
        t.pages.page (pageKey v level) ≠ none := by
  simp only [ensureAllocated, Keyed.page_request_ne_none_iff,
    pageKey_eq_iff hV hVpn]
  have hCases : level = 0 ∨ level = 1 ∨ level = 2 := by
    omega
  rcases hCases with hEq | hEq | hEq
  · subst hEq
    simp
  · subst hEq
    simp
  · subst hEq
    simp

/- A write gives a level-1 page and its leaf at once. -/
theorem paired_ensureAllocated
    {physBase : Nat}
    {accesses : List Access}
    {vpn v : Nat}
    (hInv : Inv physBase accesses t)
    (hVpn : vpn < 2 ^ 36)
    (hV : v < 2 ^ 36) :
    ((t.ensureAllocated vpn).pages.page (pageKey v 1) = none ∧
      (t.ensureAllocated vpn).pages.page (pageKey v 0) = none) ∨
    ∃ page,
      (t.ensureAllocated vpn).pages.page (pageKey v 1) = some page ∧
        (t.ensureAllocated vpn).pages.page (pageKey v 0) =
          some (page + pageSize) := by
  have hNe : ∀ level level', level ≠ level' →
      pageKey v level ≠ pageKey vpn level' := by
    intro level level' hDiffer hEq
    exact hDiffer ((pageKey_eq_iff hV hVpn).mp hEq).1
  simp only [ensureAllocated]
  rw [Keyed.page_request_of_ne (hNe 1 0 (by decide))]
  by_cases hSame : v / 2 ^ 9 = vpn / 2 ^ 9
  · have hKey₁ : pageKey v 1 = pageKey vpn 1 :=
      (pageKey_eq_iff hV hVpn).mpr ⟨rfl, hSame⟩
    have hKey₀ : pageKey v 0 = pageKey vpn 0 :=
      (pageKey_eq_iff hV hVpn).mpr ⟨rfl, hSame⟩
    have hFirst₁ : (Keyed.request pageSize t.pages
        (pageKey vpn 2)).page (pageKey v 1) =
          t.pages.page (pageKey v 1) :=
      Keyed.page_request_of_ne (hNe 1 2 (by decide))
    have hFirst₀ : (Keyed.request pageSize t.pages
        (pageKey vpn 2)).page (pageKey v 0) =
          t.pages.page (pageKey v 0) :=
      Keyed.page_request_of_ne (hNe 0 2 (by decide))
    rw [← hKey₁, ← hKey₀]
    generalize Keyed.request pageSize t.pages
      (pageKey vpn 2) = first at hFirst₁ hFirst₀ ⊢
    have hApart : pageKey v 0 ≠ pageKey v 1 :=
      hKey₁ ▸ hNe 0 1 (by decide)
    right
    rcases hInv.paired v hV with
      ⟨hNone₁, hNone₀⟩ | ⟨page, hPage₁, hPage₀⟩
    · rw [hNone₁] at hFirst₁
      rw [hNone₀] at hFirst₀
      have hSecond₀ : (Keyed.request pageSize first
          (pageKey v 1)).page (pageKey v 0) = none := by
        rw [Keyed.page_request_of_ne hApart]
        exact hFirst₀
      refine ⟨first.next, Keyed.page_request_of_none hFirst₁, ?_⟩
      rw [Keyed.page_request_of_none hSecond₀,
        Keyed.request_of_none hFirst₁]
    · rw [hPage₁] at hFirst₁
      rw [hPage₀] at hFirst₀
      exact ⟨page, Keyed.page_request_of_some hFirst₁,
        Keyed.page_request_of_some
          (Keyed.page_request_of_some hFirst₀)⟩
  · have hKey₁ : pageKey v 1 ≠ pageKey vpn 1 :=
      fun hEq => hSame ((pageKey_eq_iff hV hVpn).mp hEq).2
    have hKey₀ : pageKey v 0 ≠ pageKey vpn 0 :=
      fun hEq => hSame ((pageKey_eq_iff hV hVpn).mp hEq).2
    rw [Keyed.page_request_of_ne hKey₁,
      Keyed.page_request_of_ne (hNe 1 2 (by decide)),
      Keyed.page_request_of_ne hKey₀,
      Keyed.page_request_of_ne (hNe 0 1 (by decide)),
      Keyed.page_request_of_ne (hNe 0 2 (by decide))]
    exact hInv.paired v hV

theorem inv_perform
    {physBase : Nat}
    {accesses : List Access}
    {a : Access}
    (hInv : Inv physBase accesses t)
    (hVpn : a.vpn < 2 ^ 36) :
    Inv physBase (accesses ++ [a]) (t.perform a) := by
  cases a with
  | ensureAllocated vpn =>
      have hWritten : vpn < 2 ^ 36 := hVpn
      refine ⟨hInv.root, ?_, ?_, ?_⟩
      · exact Keyed.spaced_request (Keyed.spaced_request
          (Keyed.spaced_request hInv.spaced _) _) _
      · intro level hLevel v hV
        rw [perform, page_ensureAllocated_ne_none_iff hWritten
          hV hLevel, hInv.present level hLevel v hV,
          present_append_write]
      · intro v hV
        exact paired_ensureAllocated hInv hWritten hV
  | getWalkAddresses vpn =>
      refine ⟨hInv.root, hInv.spaced, ?_, hInv.paired⟩
      intro level hLevel v hV
      rw [present_append_walk]
      exact hInv.present level hLevel v hV

/- The table after a sequence of accesses. -/
def reached
    (physBase : Nat)
    (accesses : List Access) : RecencyPointerTable :=
  accesses.foldl perform (construct physBase)

theorem inv_reached
    {physBase : Nat}
    {accesses : List Access}
    (hVpns : ∀ a ∈ accesses, a.vpn < 2 ^ 36) :
    Inv physBase accesses (reached physBase accesses) := by
  induction accesses using List.reverseRecOn with
  | nil => exact inv_construct physBase
  | append_singleton accesses a ih =>
      rw [reached, List.foldl_append]
      exact inv_perform
        (ih (fun b hMem => hVpns b (by simp [hMem])))
        (hVpns a (by simp))

variable {physBase : Nat} {accesses : List Access}
variable {t : RecencyPointerTable} {v w p q level : Nat}

theorem pageAt_of_le
    (hLevel : level ≤ 2) :
    t.pageAt v level = t.pages.page (pageKey v level) :=
  if_neg (by omega)

/- Page numbers that agree above some bits agree further up. -/
theorem div_eq_of_le
    {bits bits' : Nat}
    (hLe : bits ≤ bits')
    (hEq : v / 2 ^ bits = w / 2 ^ bits) :
    v / 2 ^ bits' = w / 2 ^ bits' := by
  have hSplit : 2 ^ bits' = 2 ^ bits * 2 ^ (bits' - bits) := by
    rw [← Nat.pow_add, Nat.add_sub_cancel' hLe]
  rw [hSplit, ← Nat.div_div_eq_div_mul,
    ← Nat.div_div_eq_div_mul, hEq]

theorem keyShift_le
    (hLevel : level ≤ 2) :
    keyShift level ≤ 9 * (level + 1) := by
  unfold keyShift
  split_ifs <;> omega

/- The pages of a level are there from its bits up. -/
theorem Present.mono
    {bits bits' : Nat}
    (hLe : bits ≤ bits')
    (hPresent : Present accesses bits v) :
    Present accesses bits' v := by
  rcases hPresent with ⟨u, hMem, hEq⟩
  exact ⟨u, hMem, div_eq_of_le hLe hEq⟩

theorem Inv.present_iff
    (hInv : Inv physBase accesses t)
    (hV : v < 2 ^ 36)
    (hLevel : level ≤ 2) :
    t.pageAt v level ≠ none ↔
      Present accesses (keyShift level) v := by
  rw [pageAt_of_le hLevel]
  exact hInv.present level hLevel v hV

/-
  Below the root, two page numbers share a page exactly when
  they agree in the bits of its key.
-/
theorem Inv.shared_iff
    (hInv : Inv physBase accesses t)
    (hV : v < 2 ^ 36)
    (hW : w < 2 ^ 36)
    (hLevel : level ≤ 2)
    (hPage : t.pageAt v level = some p)
    (hPage' : t.pageAt w level = some q) :
    p = q ↔ v / 2 ^ keyShift level = w / 2 ^ keyShift level := by
  rw [pageAt_of_le hLevel] at hPage hPage'
  constructor
  · intro hEq
    have hKey := hInv.spaced.key_eq (by decide) hPage (hEq ▸ hPage')
    exact ((pageKey_eq_iff hV hW).mp hKey).2
  · intro hBits
    have hKey : pageKey v level = pageKey w level :=
      (pageKey_eq_iff hV hW).mpr ⟨rfl, hBits⟩
    rw [hKey, hPage', Option.some.injEq] at hPage
    exact hPage.symm

/- Pages of different keys, and the root, do not overlap. -/
theorem Inv.apart
    (hInv : Inv physBase accesses t)
    {level' : Nat}
    (hV : v < 2 ^ 36)
    (hW : w < 2 ^ 36)
    (hLevel : level ≤ 3)
    (hLevel' : level' ≤ 3)
    (hPage : t.pageAt v level = some p)
    (hPage' : t.pageAt w level' = some q)
    (hNodes : (level, above v level) ≠ (level', above w level')) :
    p + pageSize ≤ q ∨ q + pageSize ≤ p := by
  have hBehind : ∀ {x level r}, level ≤ 2 →
      t.pageAt x level = some r → physBase + pageSize ≤ r := by
    intro x level r hLe hSome
    rw [pageAt_of_le hLe] at hSome
    exact hInv.spaced.base_le _ r hSome
  rcases Nat.lt_or_eq_of_le hLevel with hLt | hRoot
  · have hLe : level ≤ 2 := by omega
    rcases Nat.lt_or_eq_of_le hLevel' with hLt' | hRoot'
    · have hLe' : level' ≤ 2 := by omega
      rw [pageAt_of_le hLe] at hPage
      rw [pageAt_of_le hLe'] at hPage'
      apply hInv.spaced.apart _ _ p q _ hPage hPage'
      intro hKey
      rcases (pageKey_eq_iff hV hW).mp hKey with
        ⟨hSame, hBits⟩
      subst hSame
      exact hNodes (Prod.ext rfl
        (div_eq_of_le (keyShift_le hLe) hBits))
    · subst hRoot'
      cases hPage'
      rw [hInv.root]
      exact Or.inr (hBehind hLe hPage)
  · subst hRoot
    cases hPage
    rcases Nat.lt_or_eq_of_le hLevel' with hLt' | hRoot'
    · have hLe' : level' ≤ 2 := by omega
      rw [hInv.root]
      exact Or.inl (hBehind hLe' hPage')
    · subst hRoot'
      apply absurd _ hNodes
      rw [above, above, Nat.div_eq_of_lt hV, Nat.div_eq_of_lt hW]

/- The walk has the pages of all levels that are there. -/
theorem Inv.walk
    (hInv : Inv physBase accesses t)
    (hV : v < 2 ^ 36)
    (hLevel : level ≤ 3)
    (hPage : t.pageAt v level = some p) :
    (t.getWalkAddresses v)[3 - level]? =
      some (p + v / 2 ^ (9 * level) % 512 *
        (if level = 0 then leafEntrySize
        else dirEntrySize)) := by
  -- a page of level 1 comes with one of level 2
  have hSecond : t.pages.page (pageKey v 1) ≠ none →
      t.pages.page (pageKey v 2) ≠ none := by
    intro hSome
    rw [hInv.present 2 (by decide) v hV]
    exact ((hInv.present 1 (by decide) v hV).mp hSome).mono
      (by decide)
  have hCases : level = 3 ∨ level = 2 ∨ level = 1 ∨ level = 0 := by
    omega
  unfold getWalkAddresses
  rw [← extractIndex_eq]
  rcases hCases with hEq | hEq | hEq | hEq
  · subst hEq
    cases hPage
    split
    · rfl
    · split
      · rfl
      · split <;> rfl
  · subst hEq
    rw [pageAt_of_le (by decide)] at hPage
    rw [hPage]
    simp only
    split
    · rfl
    · split <;> rfl
  · subst hEq
    rw [pageAt_of_le (by decide)] at hPage
    rcases Option.ne_none_iff_exists'.mp
        (hSecond (by simp [hPage])) with ⟨page₂, hPage₂⟩
    rw [hPage₂, hPage]
    simp only
    split <;> rfl
  · subst hEq
    rw [pageAt_of_le (by decide)] at hPage
    rcases hInv.paired v hV with
      ⟨-, hNone⟩ | ⟨page₁, hPage₁, -⟩
    · rw [hNone] at hPage
      cases hPage
    · rcases Option.ne_none_iff_exists'.mp
          (hSecond (by simp [hPage₁])) with ⟨page₂, hPage₂⟩
      rw [hPage₂, hPage₁, hPage]
      rfl

/- Leaf pages are two pages apart. -/
theorem Inv.leaf_apart
    (hInv : Inv physBase accesses t)
    (hV : v < 2 ^ 36)
    (hW : w < 2 ^ 36)
    (hPage : t.pageAt v 0 = some p)
    (hPage' : t.pageAt w 0 = some q)
    (hNe : p ≠ q) :
    p + 2 * pageSize ≤ q ∨ q + 2 * pageSize ≤ p := by
  rw [pageAt_of_le (by decide)] at hPage hPage'
  -- the page of level 1 of the later leaf is between them
  have hBetween : ∀ {x y a b}, x < 2 ^ 36 → y < 2 ^ 36 →
      t.pages.page (pageKey x 0) = some a →
        t.pages.page (pageKey y 0) = some b →
          a + pageSize ≤ b → a + 2 * pageSize ≤ b := by
    intro x y a b hX hY hLeaf hLeaf' hBefore
    rcases hInv.paired y hY with
      ⟨-, hNone⟩ | ⟨page, hFirst, hSecond⟩
    · rw [hNone] at hLeaf'
      cases hLeaf'
    · rw [hSecond, Option.some.injEq] at hLeaf'
      have hKeys : pageKey x 0 ≠ pageKey y 1 := by
        intro hKey
        have hLevel := ((pageKey_eq_iff hX hY).mp hKey).1
        omega
      have hApart := hInv.spaced.apart _ _ a page hKeys hLeaf hFirst
      unfold pageSize at hLeaf' hBefore hApart ⊢
      omega
  have hKeys : pageKey v 0 ≠ pageKey w 0 := by
    intro hKey
    rw [hKey, hPage', Option.some.injEq] at hPage
    exact hNe hPage.symm
  rcases hInv.spaced.apart _ _ p q hKeys hPage hPage' with
    hBefore | hAfter
  · exact Or.inl (hBetween hV hW hPage hPage' hBefore)
  · exact Or.inr (hBetween hW hV hPage' hPage hAfter)

------------------------------------------------------------
-- The Documented Table
------------------------------------------------------------

/- Leaf entries differ, also behind the end of their page. -/
theorem Inv.leaf_ne
    (hInv : Inv physBase accesses t)
    (hV : v < 2 ^ 36)
    (hW : w < 2 ^ 36)
    (hNe : v ≠ w)
    (hPage : t.pageAt v 0 = some p)
    (hPage' : t.pageAt w 0 = some q) :
    (t.getWalkAddresses v)[3]? ≠ (t.getWalkAddresses w)[3]? := by
  have hWalk := hInv.walk hV (Nat.zero_le 3) hPage
  have hWalk' := hInv.walk hW (Nat.zero_le 3) hPage'
  rw [Nat.sub_zero] at hWalk hWalk'
  rw [hWalk, hWalk', Ne, Option.some.injEq]
  simp only [if_true, Nat.mul_zero, Nat.pow_zero, Nat.div_one,
    leafEntrySize]
  intro hEq
  have hLtV := Nat.mod_lt v (by decide : 512 > 0)
  have hLtW := Nat.mod_lt w (by decide : 512 > 0)
  by_cases hSame : p = q
  · have hBits : v / 2 ^ 9 = w / 2 ^ 9 :=
      (hInv.shared_iff hV hW (Nat.zero_le 2) hPage hPage').mp hSame
    have hIndex : v % 512 = w % 512 := by omega
    apply hNe
    rw [← Nat.div_add_mod v 512, ← Nat.div_add_mod w 512, hIndex]
    exact congrArg (512 * · + w % 512) hBits
  · have hApart :=
      hInv.leaf_apart hV hW hPage hPage' hSame
    unfold pageSize at hApart
    omega

/- Only a leaf has addresses behind its page. -/
theorem Inv.inside_iff
    (hInv : Inv physBase accesses t)
    (hV : v < 2 ^ 36)
    (hLevel : level ≤ 3)
    (hPage : t.pageAt v level = some p) :
    (∃ address,
      (t.getWalkAddresses v)[3 - level]? = some address ∧
        p ≤ address ∧ address < p + pageSize) ↔
      (level = 0 → v % 512 < 256) := by
  rw [hInv.walk hV hLevel hPage]
  have hLt := Nat.mod_lt (v / 2 ^ (9 * level)) (by decide : 512 > 0)
  unfold pageSize dirEntrySize leafEntrySize
  by_cases hLeaf : level = 0
  · subst hLeaf
    simp only [if_true, Nat.mul_zero, Nat.pow_zero,
      Nat.div_one, forall_const] at hLt ⊢
    constructor
    · rintro ⟨address, hEq, hBounds⟩
      cases hEq
      omega
    · intro hHalf
      exact ⟨_, rfl, by omega, by omega⟩
  · simp only [hLeaf, if_false, false_implies, iff_true]
    exact ⟨_, rfl, by omega, by omega⟩

/-
  Pages are shared as documented exactly when bits above the
  index that agree make the bits of the key agree.
-/
theorem Inv.documented_shared_iff
    (hInv : Inv physBase accesses t)
    (hV : v < 2 ^ 36)
    (hW : w < 2 ^ 36)
    (hLevel : level ≤ 2)
    (hPage : t.pageAt v level = some p)
    (hPage' : t.pageAt w level = some q) :
    (p = q ↔ above v level = above w level) ↔
      (above v level = above w level →
        v / 2 ^ keyShift level = w / 2 ^ keyShift level) := by
  rw [hInv.shared_iff hV hW hLevel hPage hPage']
  constructor
  · intro hIff
    exact hIff.mpr
  · intro hImp
    exact ⟨div_eq_of_le (keyShift_le hLevel), hImp⟩

theorem Inv.narrow_of_documented
    (hInv : Inv physBase accesses t)
    (hVpns : ∀ a ∈ accesses, a.vpn < 2 ^ 36)
    (hDocumented : t.Documented (accesses.map Access.vpn)) :
    Narrow accesses := by
  have hShared : ∀ level, level ≤ 2 →
      ∀ a ∈ accesses, ∀ b ∈ accesses,
        Present accesses (keyShift level) a.vpn →
          Present accesses (keyShift level) b.vpn →
            above a.vpn level = above b.vpn level →
              a.vpn / 2 ^ keyShift level =
                b.vpn / 2 ^ keyShift level := by
    intro level hLevel a hMem b hMem' hHere hThere
    have hA := hVpns a hMem
    have hB := hVpns b hMem'
    rcases Option.ne_none_iff_exists'.mp
        ((hInv.present_iff hA hLevel).mpr hHere) with
      ⟨p, hPage⟩
    rcases Option.ne_none_iff_exists'.mp
        ((hInv.present_iff hB hLevel).mpr hThere) with
      ⟨q, hPage'⟩
    exact (hInv.documented_shared_iff hA hB hLevel hPage
      hPage').mp (hDocumented.shared_iff level (by omega)
        a.vpn (List.mem_map_of_mem hMem)
        b.vpn (List.mem_map_of_mem hMem') p q hPage hPage')
  refine ⟨?_, ?_⟩
  · intro a hMem hHere
    have hA := hVpns a hMem
    rcases Option.ne_none_iff_exists'.mp
        ((hInv.present_iff hA (Nat.zero_le 2)).mpr hHere) with
      ⟨p, hPage⟩
    exact (hInv.inside_iff hA (Nat.zero_le 3) hPage).mp
      (hDocumented.inside 0 (Nat.zero_le 3) a.vpn
        (List.mem_map_of_mem hMem) p hPage) rfl
  · intro a hMem b hMem'
    exact ⟨hShared 2 (by decide) a hMem b hMem',
      hShared 1 (by decide) a hMem b hMem'⟩

theorem Inv.documented_of_narrow
    (hInv : Inv physBase accesses t)
    (hVpns : ∀ a ∈ accesses, a.vpn < 2 ^ 36)
    (hNarrow : Narrow accesses) :
    t.Documented (accesses.map Access.vpn) := by
  have hLt : ∀ v ∈ accesses.map Access.vpn, v < 2 ^ 36 := by
    intro v hMem
    rcases List.mem_map.mp hMem with ⟨a, hAccess, hEq⟩
    exact hEq ▸ hVpns a hAccess
  refine ⟨?_, ?_, ?_, ?_⟩
  · intro level hLevel v hMem w hMem' p q hPage hPage'
    have hV := hLt v hMem
    have hW := hLt w hMem'
    rcases Nat.lt_or_eq_of_le hLevel with hBelow | hRoot
    · have hLe : level ≤ 2 := by omega
      rw [hInv.documented_shared_iff hV hW hLe hPage hPage']
      have hHere := (hInv.present_iff hV hLe).mp (by simp [hPage])
      have hThere := (hInv.present_iff hW hLe).mp (by simp [hPage'])
      rcases List.mem_map.mp hMem with ⟨a, hA, hEq⟩
      rcases List.mem_map.mp hMem' with ⟨b, hB, hEq'⟩
      subst hEq hEq'
      have hCases : level = 2 ∨ level = 1 ∨ level = 0 := by
        omega
      rcases hCases with hTwo | hOne | hZero
      · subst hTwo
        exact (hNarrow.2 a hA b hB).1 hHere hThere
      · subst hOne
        exact (hNarrow.2 a hA b hB).2 hHere hThere
      · subst hZero
        exact id
    · subst hRoot
      cases hPage
      cases hPage'
      simp only [above, true_iff]
      rw [Nat.div_eq_of_lt hV, Nat.div_eq_of_lt hW]
  · intro level hLevel v hMem p hPage
    have hV := hLt v hMem
    rw [hInv.inside_iff hV hLevel hPage]
    intro hLeaf
    subst hLeaf
    have hHere := (hInv.present_iff hV (Nat.zero_le 2)).mp
      (by simp [hPage])
    rcases List.mem_map.mp hMem with ⟨a, hA, hEq⟩
    subst hEq
    exact hNarrow.1 a hA hHere
  · intro v hMem w hMem' hNe hLeaf hLeaf'
    rcases Option.ne_none_iff_exists'.mp hLeaf with
      ⟨p, hPage⟩
    rcases Option.ne_none_iff_exists'.mp hLeaf' with
      ⟨q, hPage'⟩
    exact hInv.leaf_ne (hLt v hMem) (hLt w hMem') hNe hPage hPage'
  · intro level hLevel level' hLevel' v hMem w hMem' p q
      hPage hPage' hNodes
    exact hInv.apart (hLt v hMem) (hLt w hMem') hLevel
      hLevel' hPage hPage' hNodes

/-
  The table is as documented exactly when the accesses stay
  in half leaves and share no page of a level in part.
-/
theorem documented_iff
    (physBase : Nat)
    {accesses : List Access}
    (hVpns : ∀ a ∈ accesses, a.vpn < 2 ^ 36) :
    (reached physBase accesses).Documented
        (accesses.map Access.vpn) ↔
      Narrow accesses := by
  have hInv : Inv physBase accesses
      (reached physBase accesses) := inv_reached hVpns
  exact ⟨hInv.narrow_of_documented hVpns,
    hInv.documented_of_narrow hVpns⟩

/- Two pages of one leaf, and one far away. -/
theorem documented_reached_far :
    (reached 0xE00000000000
        [.ensureAllocated 3, .ensureAllocated 255,
          .ensureAllocated (2 ^ 35), .getWalkAddresses 3,
          .getWalkAddresses 512]).Documented
      [3, 255, 2 ^ 35, 3, 512] :=
  (documented_iff _ (by decide)).mpr (by decide)

/-
  Entry 256 of a leaf is behind the page of the leaf, where
  the next page is placed; and two pages whose numbers differ
  in the index of level 1 have different pages there.
-/
theorem not_documented_reached :
    ¬ (reached 0xE00000000000
        [.ensureAllocated 256]).Documented [256] ∧
      ¬ (reached 0xE00000000000
        [.ensureAllocated 0, .ensureAllocated 512]).Documented
          [0, 512] := by
  refine ⟨?_, ?_⟩
  · intro hDocumented
    rcases hDocumented.inside 0 (by decide) 256 (by decide)
        0xE00000003000 rfl with ⟨address, hEq, -, hLt⟩
    cases hEq
    exact absurd hLt (by decide)
  · intro hDocumented
    have hIff := hDocumented.shared_iff 1 (by decide) 0
      (by decide) 512 (by decide) 0xE00000002000
      0xE00000004000 rfl rfl
    exact absurd (hIff.mpr rfl) (by decide)

end RecencyPointerTable

end Virtuoso
