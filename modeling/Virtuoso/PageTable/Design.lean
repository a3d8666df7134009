import Virtuoso.PageTable.PageMap

/-
  The interface of the page tables.

  A design is a page table seen through its calls, the
  deletion among them, and its walk. A hash table has one
  table for each page size, of which a deletion reads the
  one of the 4KB pages only.

  Main declarations:
    * `Design`
    * `Design.Layered.removes`
-/

namespace Virtuoso

/-
  The calls of a page table. `page bits address` is the page
  of an address for a page size in bits.
-/
structure Design (σ ε : Type) where
  step : σ → ε → Option σ
  delete : Nat → ε
  walk : σ → Nat → Option PTWResult
  page : Nat → Nat → Nat

/- What the caller of a walk learns about an address. -/
def PTWResult.answer
    (r : PTWResult) :
    Option (Nat × Nat) × Bool :=
  (r.translation, r.isPagefault)

namespace Design

variable {σ ε : Type}

/-
  If the address is mapped, its deletion ends, its walk then
  faults, and the walks outside its page answer as before.
-/
def Removes
    (d : Design σ ε)
    (s : σ)
    (address : Nat) : Prop :=
  ∀ r ppn bits,
    d.walk s address = some r →
      r.translation = some (ppn, bits) →
        ∃ s', d.step s (d.delete address) = some s' ∧
          (∃ r', d.walk s' address = some r' ∧
            r'.isPagefault = true) ∧
          ∀ other, d.page bits other ≠ d.page bits address →
            (d.walk s' other).map PTWResult.answer =
              (d.walk s other).map PTWResult.answer

/- The walk of the address ends at a 2MB page. -/
def MappedLarge
    (d : Design σ ε)
    (s : σ)
    (address : Nat) : Prop :=
  ∃ r ppn, d.walk s address = some r ∧
    r.translation = some (ppn, PageSize.twoMb.bits)

theorem mappedLarge_iff
    {d : Design σ ε}
    {s : σ}
    {address : Nat} :
    d.MappedLarge s address ↔
      ∃ r ∈ d.walk s address,
        r.translation.map Prod.snd = some PageSize.twoMb.bits := by
  constructor
  · rintro ⟨r, ppn, hWalk, hFound⟩
    exact ⟨r, hWalk, by rw [hFound]; rfl⟩
  · rintro ⟨r, hWalk, hFound⟩
    rcases Option.map_eq_some_iff.mp hFound with
      ⟨⟨ppn, bits⟩, hTranslation, hBits⟩
    exact ⟨r, ppn, hWalk, hBits ▸ hTranslation⟩

instance
    (d : Design σ ε)
    (s : σ)
    (address : Nat) :
    Decidable (d.MappedLarge s address) :=
  decidable_of_iff _ mappedLarge_iff.symm

/- The address is mapped before and after its deletion. -/
def Survives
    (d : Design σ ε)
    (s : σ)
    (address : Nat) : Prop :=
  ∃ r ∈ d.walk s address, r.translation.isSome = true ∧
    ∃ s' ∈ d.step s (d.delete address),
      ∃ r' ∈ d.walk s' address, r'.isPagefault = false

instance
    (d : Design σ ε)
    (s : σ)
    (address : Nat) :
    Decidable (d.Survives s address) :=
  inferInstanceAs (Decidable (∃ r ∈ d.walk s address,
    r.translation.isSome = true ∧
      ∃ s' ∈ d.step s (d.delete address),
        ∃ r' ∈ d.walk s' address, r'.isPagefault = false))

theorem Survives.not_removes
    {d : Design σ ε}
    {s : σ}
    {address : Nat}
    (hSurvives : d.Survives s address) :
    ¬ d.Removes s address := by
  rcases hSurvives with
    ⟨r, hWalk, hSome, s', hStep, r', hWalk', hMapped⟩
  rcases Option.isSome_iff_exists.mp hSome with
    ⟨⟨ppn, bits⟩, hFound⟩
  intro hRemoves
  rcases hRemoves r ppn bits hWalk hFound with
    ⟨t, hStep', ⟨r'', hWalk'', hFault⟩, -⟩
  have hState : s' = t :=
    Option.some.inj (hStep.symm.trans hStep')
  subst hState
  have hResult : r' = r'' :=
    Option.some.inj (hWalk'.symm.trans hWalk'')
  subst hResult
  rw [hMapped] at hFault
  cases hFault

/- The design of a hash table for each page size. -/
def hashed
    (step : σ → PageMap.Op → Option σ)
    (walk : σ → Nat → Option PTWResult) :
    Design σ PageMap.Op :=
  ⟨step, .delete, walk, fun bits address =>
    address / 2 ^ bits⟩

/-
  One table for each page size, where `find` is what a table
  has for an address and `none` a search without end. A walk
  prefers the 2MB table, and a deletion leaves it alone.
-/
structure Layered
    (step : σ → PageMap.Op → Option σ)
    (walk : σ → Nat → Option PTWResult)
    (find : σ → PageSize → Nat →
      Option (Option (Nat × Nat))) : Prop where
  walk : ∀ s a, (walk s a).map PTWResult.answer =
    (find s .fourKb a).bind (fun small =>
      (find s .twoMb a).map (fun large =>
        (large.or small, (large.or small).isNone)))
  bits : ∀ s pageSize a ppn bits,
    find s pageSize a = some (some (ppn, bits)) →
      bits = pageSize.bits
  twoMb : ∀ s a s', step s (.delete a) = some s' →
    ∀ b, find s' .twoMb b = find s .twoMb b

variable {step : σ → PageMap.Op → Option σ}
variable {walk : σ → Nat → Option PTWResult}
variable
  {find : σ → PageSize → Nat → Option (Option (Nat × Nat))}
variable {s s' : σ} {address : Nat}

/- What the tables have for the address of a walk. -/
theorem Layered.found
    (hLayered : Layered step walk find)
    {r : PTWResult}
    (hWalk : walk s address = some r) :
    ∃ small large, find s .fourKb address = some small ∧
      find s .twoMb address = some large ∧
      r.translation = large.or small ∧
      r.isPagefault = (large.or small).isNone := by
  have hAnswer := hLayered.walk s address
  rw [hWalk, Option.map_some, eq_comm] at hAnswer
  rcases Option.bind_eq_some_iff.mp hAnswer with
    ⟨small, hSmall, hRest⟩
  rcases Option.map_eq_some_iff.mp hRest with
    ⟨large, hLarge, hEq⟩
  exact ⟨small, large, hSmall, hLarge,
    (congrArg Prod.fst hEq).symm,
    (congrArg Prod.snd hEq).symm⟩

theorem Layered.exists_walk
    (hLayered : Layered step walk find)
    {small large : Option (Nat × Nat)}
    (hSmall : find s .fourKb address = some small)
    (hLarge : find s .twoMb address = some large) :
    ∃ r, walk s address = some r ∧
      r.answer = (large.or small, (large.or small).isNone) := by
  have hAnswer := hLayered.walk s address
  rw [hSmall, hLarge] at hAnswer
  exact Option.map_eq_some_iff.mp hAnswer

/- A 2MB page stays. -/
theorem Layered.not_removes_of_mappedLarge
    (hLayered : Layered step walk find)
    (hMapped : (hashed step walk).MappedLarge s address) :
    ¬ (hashed step walk).Removes s address := by
  rcases hMapped with ⟨r, ppn, hWalk, hFound⟩
  intro hRemoves
  rcases hRemoves r ppn _ hWalk hFound with
    ⟨s', hStep, ⟨r', hWalk', hFault⟩, -⟩
  rcases hLayered.found hWalk with
    ⟨small, large, hSmall, hLarge, hOr, -⟩
  rcases hLayered.found hWalk' with
    ⟨small', large', -, hLarge', -, hNone⟩
  rw [hLayered.twoMb s address s' hStep, hLarge,
    Option.some.injEq] at hLarge'
  subst hLarge'
  rw [hFound] at hOr
  cases large with
  | some x => simp [hFault] at hNone
  | none =>
      rw [Option.none_or] at hOr
      have hBits := hLayered.bits s .fourKb address ppn _
        (hOr ▸ hSmall)
      exact absurd hBits (by decide)

/- Nothing is found in a 2MB page, if the walk ends in none. -/
theorem Layered.twoMb_eq_none
    (hLayered : Layered step walk find)
    (hSmall : ¬ (hashed step walk).MappedLarge s address)
    {small large : Option (Nat × Nat)}
    (hFind : find s .fourKb address = some small)
    (hLarge : find s .twoMb address = some large) :
    large = none := by
  rcases hLayered.exists_walk hFind hLarge with
    ⟨r, hWalk, hAnswer⟩
  cases large with
  | none => rfl
  | some x =>
      have hBits := hLayered.bits s _ _ x.1 x.2 hLarge
      exact absurd ⟨r, x.1, hWalk,
        hBits ▸ congrArg Prod.fst hAnswer⟩ hSmall

/- A page outside the 2MB pages, as its table has it. -/
theorem Layered.mappedSmall
    (hLayered : Layered step walk find)
    (hSmall : ¬ (hashed step walk).MappedLarge s address)
    {r : PTWResult}
    {ppn bits : Nat}
    (hWalk : walk s address = some r)
    (hFound : r.translation = some (ppn, bits)) :
    bits = PageSize.fourKb.bits ∧
      find s .fourKb address = some (some (ppn, bits)) ∧
      find s .twoMb address = some none := by
  rcases hLayered.found hWalk with
    ⟨small, large, hFind, hLarge, hOr, -⟩
  have hNone := hLayered.twoMb_eq_none hSmall hFind hLarge
  subst hNone
  rw [hFound, Option.none_or] at hOr
  rw [← hOr] at hFind
  exact ⟨hLayered.bits s _ _ _ _ hFind, hFind, hLarge⟩

/-
  A page is removed where its deletion takes it, and no page
  else, out of the table of the 4KB pages.
-/
theorem Layered.removes
    (hLayered : Layered step walk find)
    (hSmall : ¬ (hashed step walk).MappedLarge s address)
    (hDeletes : ∀ x,
      find s .fourKb address = some (some x) →
        ∃ s', step s (.delete address) = some s' ∧
          find s' .fourKb address = some none ∧
          ∀ other, PageSize.fourKb.vpn other ≠
              PageSize.fourKb.vpn address →
            find s' .fourKb other = find s .fourKb other) :
    (hashed step walk).Removes s address := by
  intro r ppn bits hWalk hFound
  rcases hLayered.mappedSmall hSmall hWalk hFound with
    ⟨hBits, hFind, hLarge⟩
  rcases hDeletes _ hFind with ⟨s', hStep, hGone, hOthers⟩
  have hTwoMb := hLayered.twoMb s address s' hStep
  rcases hLayered.exists_walk hGone
      ((hTwoMb address).trans hLarge) with
    ⟨r', hWalk', hAnswer⟩
  refine ⟨s', hStep, ⟨r', hWalk', congrArg Prod.snd hAnswer⟩, ?_⟩
  intro other hOther
  subst hBits
  change (walk s' other).map _ = (walk s other).map _
  rw [hLayered.walk s' other, hLayered.walk s other,
    hOthers other hOther, hTwoMb other]

/-
  A page is not removed where its deletion leaves it, or
  brings another page, in the table of the 4KB pages.
-/
theorem Layered.not_removes_of_found
    (hLayered : Layered step walk find)
    {x y : Nat × Nat}
    (hFound : find s .fourKb address = some (some x))
    (hLarge : find s .twoMb address = some none)
    (hStep : step s (.delete address) = some s')
    {other : Nat}
    (hOther : find s .twoMb other = some none)
    (hAfter : find s' .fourKb other = some (some y))
    (hChanged : other = address ∨
      PageSize.fourKb.vpn other ≠ PageSize.fourKb.vpn address ∧
        find s .fourKb other = some none) :
    ¬ (hashed step walk).Removes s address := by
  intro hRemoves
  rcases hLayered.exists_walk hFound hLarge with
    ⟨r, hWalk, hAnswer⟩
  have hBits := hLayered.bits s _ _ x.1 x.2 hFound
  rcases hRemoves r x.1 x.2 hWalk (congrArg Prod.fst hAnswer) with
    ⟨s₁, hStep', ⟨r', hWalk', hFault⟩, hOthers⟩
  have hState : s' = s₁ :=
    Option.some.inj (hStep.symm.trans hStep')
  subst hState
  rcases hLayered.exists_walk hAfter
      ((hLayered.twoMb s address s' hStep other).trans
        hOther) with ⟨r₁, hWalk₁, hAnswer₁⟩
  rcases hChanged with hEq | ⟨hNe, hBefore⟩
  · subst hEq
    have hSame : r₁ = r' :=
      Option.some.inj (hWalk₁.symm.trans hWalk')
    have hMapped : r₁.isPagefault = false :=
      congrArg Prod.snd hAnswer₁
    rw [hSame, hFault] at hMapped
    cases hMapped
  · rcases hLayered.exists_walk hBefore hOther with
      ⟨r₂, hWalk₂, hAnswer₂⟩
    have hSame := hOthers other (hBits ▸ hNe)
    change (walk s' other).map _ = (walk s other).map _ at hSame
    rw [hWalk₁, hWalk₂, Option.map_some, Option.map_some,
      hAnswer₁, hAnswer₂] at hSame
    cases hSame

end Design

end Virtuoso
