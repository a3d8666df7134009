import Virtuoso.ReserveThp.Outcomes
import Virtuoso.ReserveThp.Runs

/-
  The frames that the outcomes of a user request take.

  A request that demotes no partly used region takes frames
  that no earlier use holds, except for the uses of its own
  region.

  Main declarations:
    * `ReserveThp.backing_found`
    * `ReserveThp.backing_serves`
-/

namespace Virtuoso

namespace ReserveThp

/-
  A page used in a region that was found for it shares frames
  with uses of a tracked region only.
-/
theorem backing_found
    {s : ReserveThp}
    {uses : List Use}
    (hBacking : Backing s uses)
    {key : Nat}
    {region region' : Region}
    {b : Buddy}
    (hFound : Found s key region b)
    (hBegin : region'.regionBegin = region.regionBegin)
    (hPromoted : region.promoted = true → region'.promoted = true)
    {u : Use}
    (hNew : InRegion (key, region') u) :
    Backing (afterUse s b key region') (u :: uses) ∧
      ∀ v ∈ uses,
        (s.twoMbMap.lookup key = some region ∧
            InRegion (key, region) v) ∨
          u.frames.Apart v.frames := by
  cases hFound with
  | tracked hLookup =>
      rcases backing_replace hBacking (mem_of_lookup hLookup)
          hBegin hPromoted hNew with ⟨hNext, hOthers⟩
      refine ⟨hNext, fun v hMem => ?_⟩
      rcases hOthers v hMem with hRegion | hApart
      · exact Or.inl ⟨hLookup, hRegion⟩
      · exact Or.inr hApart
  | @reserved block b hLookup hReserve =>
      rcases backing_reserved hBacking hLookup hReserve with
        ⟨hReserved, hApart⟩
      rcases backing_replace hReserved
          (by simp [reserved]) hBegin hPromoted hNew with
        ⟨hNext, -⟩
      refine ⟨?_, fun v hMem => ?_⟩
      · rw [← afterUse_reserved s b key block]
        exact hNext
      · right
        intro p hHas hHas'
        refine hApart v hMem p ?_ hHas'
        have hIn := hNew.inside p hHas
        simpa [Region.span, hBegin] using hIn

/- The use of a page in a region that has just been used. -/
theorem inRegion_usesOf
    (region : Region)
    (va : Nat)
    (key : Nat)
    (hKey : va / 2 ^ 12 / 512 = key) :
    InRegion (key, region)
      ⟨some (va / 2 ^ 12), if region.promoted then 21 else 12,
        ⟨frameIn region (va / 2 ^ 12 % 512) region.promoted,
          frameIn region (va / 2 ^ 12 % 512) region.promoted +
            (2 ^ ((if region.promoted then 21 else 12) - 12) -
              1)⟩⟩ := by
  refine ⟨va / 2 ^ 12, rfl, hKey, ?_⟩
  cases hPromoted : region.promoted with
  | true => exact Or.inr ⟨rfl, rfl⟩
  | false => exact Or.inl ⟨rfl, rfl⟩

variable {s s' : ReserveThp} {uses : List Use}

/- The use belongs to a page of a region. -/
def Use.Within (u : Use) (key : Nat) : Prop :=
  ∃ page, u.page = some page ∧ page / 512 = key

/- A use may be forgotten. -/
theorem Backing.tail
    {u : Use}
    (hBacking : Backing s (u :: uses)) :
    Backing s uses := by
  rcases hBacking.backed with ⟨rest, hTiled, hBacked⟩
  refine ⟨hBacking.keys, rest, hTiled, fun v hMem => ?_⟩
  exact hBacked v (List.mem_cons_of_mem u hMem)

/- A request that only the free lists can serve. -/
theorem backing_usesOf
    (hBacking : Backing s uses)
    {frame : Option Nat}
    (hCall : fromBuddy s 4096 = some (frame, s'))
    (page : Option Nat) :
    Backing s' (usesOf page 12 frame ++ uses) ∧
      ∀ u ∈ usesOf page 12 frame, ∀ v ∈ uses,
        u.frames.Apart v.frames := by
  rcases backing_fromBuddy hBacking hCall with
    ⟨hNone, hSame, -⟩ | ⟨f, hFrame, hNext, hApart⟩
  · subst hNone
    subst hSame
    exact ⟨hBacking, by simp [usesOf]⟩
  · subst hFrame
    refine ⟨hNext page, fun u hNew v hMem => ?_⟩
    rw [List.mem_singleton.mp hNew]
    exact hApart v hMem

/-
  A request that demotes no partly used region shares frames
  with the uses of its own region only.
-/
theorem backing_serves
    (hBacking : Backing s uses)
    {va pick : Nat}
    {placement : Placement}
    (hFull : s.twoMbMap.lookup (va / 2 ^ 21) = none →
      Exhausted s.buddy → RegionsFull s.twoMbMap)
    (hServes : Serves s va pick placement s') :
    let added := usesOf (some (va / 2 ^ 12))
      placement.pageSize placement.frame
    Backing s' (added ++ uses) ∧
      ∀ u ∈ added, ∀ v ∈ uses,
        v.Within (va / 2 ^ 21) ∨ u.frames.Apart v.frames := by
  cases hServes with
  | @inRegion region b hFound hOpen promoted hPromotes =>
      let used := useOf region (va / 2 ^ 12 % 512) promoted
      have hStays :
          region.promoted = true → used.promoted = true := by
        intro hLarge
        rw [hOpen] at hLarge
        cases hLarge
      have hBegin : used.regionBegin = region.regionBegin := rfl
      have hNew := inRegion_usesOf used va _ (region_eq va).symm
      rcases backing_found hBacking hFound hBegin hStays
          hNew with ⟨hNext, hOthers⟩
      refine ⟨hNext, fun u hAdded v hMem => ?_⟩
      rw [List.mem_singleton.mp hAdded]
      rcases hOthers v hMem with ⟨-, hRegion⟩ | hApart
      · rcases hRegion with ⟨page, hPage, hKey, -⟩
        exact Or.inl ⟨page, hPage, hKey⟩
      · exact Or.inr hApart
  | fallback hLookup hDepleted hCall =>
      rcases backing_usesOf hBacking hCall _ with
        ⟨hNext, hApart⟩
      exact ⟨hNext, fun u hAdded v hMem =>
        Or.inr (hApart u hAdded v hMem)⟩
  | @demotion region frame s₁ s₂ s' hLookup hDepleted hCall
      hDemote hRetry =>
      rcases backing_fromBuddy hBacking hCall with
        ⟨-, hSame, hEmpty⟩ | ⟨f, hFrame, -, -⟩
      · subst hSame
        rcases backing_demotePage hBacking
            (hFull hLookup (fun k _ => hEmpty k)) hDemote with
          ⟨-, hDemoted⟩
        rcases backing_usesOf hDemoted hRetry _ with
          ⟨hNext, hApart⟩
        exact ⟨hNext, fun u hAdded v hMem =>
          Or.inr (hApart u hAdded v hMem)⟩
      · cases hFrame

end ReserveThp

end Virtuoso
