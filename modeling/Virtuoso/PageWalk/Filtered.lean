import Virtuoso.Lib.Run
import Virtuoso.PageWalk.WalkCache
import Virtuoso.Tlb.Contents

/-
  What the page walk caches filter out of a walk.

  An entry is in the cache of a level exactly if the last that
  happened to it there is that it was brought in. The filter
  removes the accesses to these entries, also those of leaves,
  and without caches it removes all.

  Main declarations:
    * `RadixFilter.Tracks.lookup`
    * `RadixFilter.along_behaves_iff_along_meets`
-/

------------------------------------------------------------
-- Sets, Histories And Accesses
------------------------------------------------------------

namespace Virtuoso

namespace PwcSet

/- The tag is in the set. -/
def Holds (s : PwcSet) (tag : Nat) : Prop :=
  some tag ∈ s.ways

/- There are ways, a place for each, and no tag twice. -/
structure Valid (s : PwcSet) : Prop where
  pos : 0 < s.ways.length
  bits : s.lruBits.length = s.ways.length
  unique :
    ∀ (i j tag : Nat), s.ways[i]? = some (some tag) →
      s.ways[j]? = some (some tag) → i = j

theorem valid_construct
    {associativity : Nat}
    (hPos : 0 < associativity) :
    (construct associativity).Valid where
  pos := by simpa [construct] using hPos
  bits := by simp [construct]
  unique i j tag hI _ := by
    simp [construct, List.getElem?_replicate] at hI

theorem not_holds_construct
    (associativity tag : Nat) :
    ¬ (construct associativity).Holds tag := by
  simp [Holds, construct, List.mem_replicate]

theorem find_eq_none_iff
    (s : PwcSet)
    (tag : Nat) :
    s.find tag = none ↔ ¬ s.Holds tag := by
  rw [find, List.find?_eq_none, Holds]
  simp only [List.mem_reverse, List.mem_range, beq_iff_eq]
  constructor
  · intro hNone hMem
    rcases List.mem_iff_getElem?.mp hMem with ⟨i, hI⟩
    rcases List.getElem?_eq_some_iff.mp hI with ⟨hLt, -⟩
    exact hNone i hLt hI
  · intro hNot i _ hI
    exact hNot (List.mem_of_getElem? hI)

theorem length_moveToMRU
    (bits : List Nat)
    (way : Nat) :
    (Replacement.moveToMRU bits way).length = bits.length := by
  rw [Replacement.moveToMRU, List.length_set, List.length_map]

variable {s : PwcSet}

theorem Valid.use
    (hValid : s.Valid)
    (way : Nat) :
    (s.use way).Valid where
  pos := hValid.pos
  bits := by
    rw [PwcSet.use, length_moveToMRU]
    exact hValid.bits
  unique := hValid.unique

theorem Valid.victim_lt
    (hValid : s.Valid) :
    s.victim < s.ways.length := by
  unfold victim
  cases hFree : s.ways.findIdx? (fun way => way.isNone) with
  | none =>
      exact Replacement.leastRecent_lt hValid.pos
        (Nat.le_of_eq hValid.bits)
  | some way =>
      rcases List.findIdx?_eq_some_iff_getElem.mp hFree with
        ⟨hLt, -⟩
      exact hLt

/- The ways after an insertion. -/
theorem getElem?_insert
    (hValid : s.Valid)
    (tag i : Nat) :
    (s.insert tag).ways[i]? =
      if i = s.victim then some (some tag)
      else s.ways[i]? := by
  rw [insert, List.getElem?_set]
  by_cases hVictim : i = s.victim
  · rw [if_pos hVictim.symm, if_pos hVictim,
      if_pos hValid.victim_lt]
  · rw [if_neg (Ne.symm hVictim), if_neg hVictim]

theorem getElem?_victim
    (hValid : s.Valid) :
    s.ways[s.victim]? = some s.evicted := by
  rw [evicted, List.getD_eq_getElem?_getD,
    List.getElem?_eq_getElem hValid.victim_lt]
  rfl

/- An insertion brings a tag in and takes one out. -/
theorem holds_insert_iff
    (hValid : s.Valid)
    (tag tag' : Nat) :
    (s.insert tag).Holds tag' ↔
      tag' = tag ∨ (s.Holds tag' ∧ s.evicted ≠ some tag') := by
  have hVictim := getElem?_victim hValid
  rw [Holds, List.mem_iff_getElem?]
  constructor
  · rintro ⟨i, hI⟩
    rw [getElem?_insert hValid] at hI
    by_cases hAt : i = s.victim
    · rw [if_pos hAt] at hI
      simp only [Option.some.injEq] at hI
      exact Or.inl hI.symm
    · rw [if_neg hAt] at hI
      refine Or.inr ⟨List.mem_of_getElem? hI, ?_⟩
      intro hEvicted
      rw [hEvicted] at hVictim
      exact hAt (hValid.unique i s.victim tag' hI hVictim)
  · rintro (hNew | ⟨hOld, hStays⟩)
    · refine ⟨s.victim, ?_⟩
      rw [getElem?_insert hValid, if_pos rfl, hNew]
    · rcases List.mem_iff_getElem?.mp hOld with ⟨i, hI⟩
      refine ⟨i, ?_⟩
      rw [getElem?_insert hValid, if_neg]
      · exact hI
      · intro hAt
        rw [hAt, hVictim] at hI
        exact hStays (Option.some.inj hI)

theorem Valid.insert
    (hValid : s.Valid)
    {tag : Nat}
    (hNew : ¬ s.Holds tag) :
    (s.insert tag).Valid where
  pos := by
    rw [PwcSet.insert, List.length_set]
    exact hValid.pos
  bits := by
    rw [PwcSet.insert, PwcSet.use, length_moveToMRU,
      List.length_set]
    exact hValid.bits
  unique i j tag' hI hJ := by
    rw [getElem?_insert hValid] at hI hJ
    split_ifs at hI hJ with hAtI hAtJ hAtJ
    · rw [hAtI, hAtJ]
    · simp only [Option.some.injEq] at hI
      exact absurd (hI ▸ List.mem_of_getElem? hJ) hNew
    · simp only [Option.some.injEq] at hJ
      exact absurd (hJ ▸ List.mem_of_getElem? hI) hNew
    · exact hValid.unique i j tag' hI hJ

end PwcSet

namespace RadixFilter

/- The last that happened to an entry at a level. -/
def lastOf
    (f : RadixFilter)
    (level tag : Nat) : Option PwcChange :=
  f.history.lookup (level, tag)

/- The caches hold what was brought in and not evicted. -/
structure Tracks (f : RadixFilter) : Prop where
  valid : ∀ level index, (f.caches level index).Valid
  home :
    ∀ level index tag, (f.caches level index).Holds tag →
      f.config.setIndex level tag = index
  known :
    ∀ level tag,
      (f.setOf level tag).Holds tag ↔
        ∃ walk counted,
          f.lastOf level tag = some (.brought walk counted)

theorem tracks_init
    (c : PwcConfig) :
    (init c).Tracks where
  valid level _ :=
    PwcSet.valid_construct (c.associativity_pos level)
  home level _ tag hHolds :=
    absurd hHolds (PwcSet.not_holds_construct _ tag)
  known level tag := by
    apply iff_of_false
    · exact PwcSet.not_holds_construct _ tag
    · rintro ⟨walk, counted, hLast⟩
      cases hLast

theorem caches_setSet
    (f : RadixFilter)
    (level tag : Nat)
    (s : PwcSet)
    (level' index : Nat) :
    (f.setSet level tag s).caches level' index =
      if level' = level ∧ index = f.config.setIndex level tag
      then s else f.caches level' index := by
  unfold setSet
  by_cases hLevel : level' = level
  · subst hLevel
    by_cases hIndex : index = f.config.setIndex level' tag
    · simp [hIndex]
    · simp [hIndex]
  · simp [hLevel]

theorem lookup_cons
    (history : List ((Nat × Nat) × PwcChange))
    (key key' : Nat × Nat)
    (change : PwcChange) :
    ((key, change) :: history).lookup key' =
      if key' = key then some change
      else history.lookup key' := by
  rw [List.lookup_cons]
  by_cases hKey : key' = key
  · simp [hKey]
  · have hOther : (key' == key) = false := by simpa using hKey
    rw [hOther, if_neg hKey]

theorem lastOf_note
    (f : RadixFilter)
    (level tag : Nat)
    (change : PwcChange)
    (level' tag' : Nat) :
    (f.note level tag change).lastOf level' tag' =
      if level' = level ∧ tag' = tag then some change
      else f.lastOf level' tag' := by
  rw [lastOf, note, lookup_cons]
  simp only [Prod.mk.injEq]
  rfl

theorem lastOf_noteEvicted
    (f : RadixFilter)
    (level : Nat)
    (tag : Option Nat)
    (level' tag' : Nat) :
    (f.noteEvicted level tag).lastOf level' tag' =
      if level' = level ∧ tag = some tag' then some .evicted
      else f.lastOf level' tag' := by
  cases tag with
  | none => simp [noteEvicted]
  | some tag =>
      rw [noteEvicted, lastOf_note]
      simp only [Option.some.injEq, eq_comm]

@[simp] theorem caches_noteEvicted
    (f : RadixFilter)
    (level : Nat)
    (tag : Option Nat) :
    (f.noteEvicted level tag).caches = f.caches := by
  cases tag <;> rfl

@[simp] theorem config_noteEvicted
    (f : RadixFilter)
    (level : Nat)
    (tag : Option Nat) :
    (f.noteEvicted level tag).config = f.config := by
  cases tag <;> rfl

variable {f : RadixFilter}

/- A use of a way changes nothing that is tracked. -/
theorem Tracks.setSet_use
    (hTracks : f.Tracks)
    (level tag way : Nat) :
    (f.setSet level tag ((f.setOf level tag).use way)).Tracks := by
  have hHolds :
      ∀ level' index tag',
        ((f.setSet level tag
          ((f.setOf level tag).use way)).caches level'
            index).Holds tag' ↔
          (f.caches level' index).Holds tag' := by
    intro level' index tag'
    rw [caches_setSet]
    split_ifs with hAt
    · rw [hAt.1, hAt.2]
      rfl
    · rfl
  constructor
  case valid =>
    intro level' index
    rw [caches_setSet]
    split_ifs
    · exact (hTracks.valid _ _).use way
    · exact hTracks.valid level' index
  case home =>
    intro level' index tag' hMem
    exact hTracks.home level' index tag'
      ((hHolds level' index tag').mp hMem)
  case known =>
    intro level' tag'
    exact (hHolds level' _ tag').trans (hTracks.known level' tag')

/- The state after a miss. -/
def missed
    (f : RadixFilter)
    (level tag : Nat)
    (change : PwcChange) : RadixFilter :=
  ((f.setSet level tag ((f.setOf level tag).insert tag)
    ).noteEvicted level (f.setOf level tag).evicted).note
      level tag change

/- An entry that was missed is brought in, for another one. -/
theorem Tracks.missed
    (hTracks : f.Tracks)
    {level tag : Nat}
    (hMiss : ¬ (f.setOf level tag).Holds tag)
    (walk : Nat)
    (counted : Bool) :
    (f.missed level tag (.brought walk counted)).Tracks := by
  have hValid : (f.setOf level tag).Valid :=
    hTracks.valid level _
  have hCaches :
      ∀ level' index,
        (f.missed level tag
          (.brought walk counted)).caches level' index =
          if level' = level ∧ index = f.config.setIndex level tag
          then (f.setOf level tag).insert tag
          else f.caches level' index := by
    intro level' index
    rw [RadixFilter.missed]
    exact (congrFun (congrFun (caches_noteEvicted _ _ _) _) _
      ).trans (caches_setSet f level tag _ level' index)
  have hConfig :
      (f.missed level tag (.brought walk counted)).config =
        f.config := by
    rw [RadixFilter.missed]
    exact config_noteEvicted _ _ _
  have hEvictedHome :
      ∀ tag', (f.setOf level tag).evicted = some tag' →
        (f.setOf level tag).Holds tag' ∧
        f.config.setIndex level tag' =
          f.config.setIndex level tag := by
    intro tag' hEvicted
    have hVictim := PwcSet.getElem?_victim hValid
    rw [hEvicted] at hVictim
    have hHolds := List.mem_of_getElem? hVictim
    exact ⟨hHolds, hTracks.home level _ tag' hHolds⟩
  constructor
  case valid =>
    intro level' index
    rw [hCaches]
    split_ifs
    · exact hValid.insert hMiss
    · exact hTracks.valid level' index
  case home =>
    intro level' index tag' hMem
    rw [hCaches] at hMem
    rw [hConfig]
    split_ifs at hMem with hAt
    · rcases (PwcSet.holds_insert_iff hValid tag tag').mp hMem
        with hNew | ⟨hOld, -⟩
      · rw [hNew, hAt.1, hAt.2]
      · rw [hAt.1, hAt.2]
        exact hTracks.home level _ tag' hOld
    · exact hTracks.home level' index tag' hMem
  case known =>
    intro level' tag'
    have hSet :
        (f.missed level tag (.brought walk counted)).setOf
            level' tag' =
          if level' = level ∧
            f.config.setIndex level' tag' =
              f.config.setIndex level tag
          then (f.setOf level tag).insert tag
          else f.setOf level' tag' := by
      rw [setOf, hConfig, hCaches]
      rfl
    have hLast :
        (f.missed level tag (.brought walk counted)).lastOf
            level' tag' =
          if level' = level ∧ tag' = tag then
            some (.brought walk counted)
          else if level' = level ∧
            (f.setOf level tag).evicted = some tag'
          then some .evicted
          else f.lastOf level' tag' := by
      rw [RadixFilter.missed, lastOf_note, lastOf_noteEvicted]
      rfl
    rw [hSet, hLast]
    by_cases hLevel : level' = level
    · subst hLevel
      by_cases hTag : tag' = tag
      · subst hTag
        rw [if_pos ⟨rfl, rfl⟩, if_pos ⟨rfl, rfl⟩,
          PwcSet.holds_insert_iff hValid]
        simp
      · have hNotNew : ¬ (level' = level' ∧ tag' = tag) :=
          fun hBoth => hTag hBoth.2
        rw [if_neg hNotNew]
        by_cases hIndex :
            f.config.setIndex level' tag' =
              f.config.setIndex level' tag
        · have hSame : f.setOf level' tag' = f.setOf level' tag := by
            rw [setOf, setOf, hIndex]
          have hKnown := hTracks.known level' tag'
          rw [hSame] at hKnown
          rw [if_pos ⟨rfl, hIndex⟩,
            PwcSet.holds_insert_iff hValid, or_iff_right hTag]
          by_cases hEvicted :
              (f.setOf level' tag).evicted = some tag'
          · rw [if_pos ⟨rfl, hEvicted⟩]
            simp [hEvicted]
          · rw [if_neg (fun hBoth => hEvicted hBoth.2),
              and_iff_left hEvicted]
            exact hKnown
        · rw [if_neg (fun hBoth => hIndex hBoth.2), if_neg]
          · exact hTracks.known level' tag'
          · intro hBoth
            exact hIndex (hEvictedHome tag' hBoth.2).2
    · rw [if_neg (fun hBoth => hLevel hBoth.1),
        if_neg (fun hBoth => hLevel hBoth.1),
        if_neg (fun hBoth => hLevel hBoth.1)]
      exact hTracks.known level' tag'

theorem Tracks.lookup
    (hTracks : f.Tracks)
    (address level : Nat)
    (count : Bool) :
    (f.lookup address level count).2.Tracks := by
  unfold RadixFilter.lookup
  dsimp only
  cases hFind : (f.setOf level (tagOf address)).find
      (tagOf address) with
  | some way => exact hTracks.setSet_use level _ way
  | none =>
      exact hTracks.missed
        ((PwcSet.find_eq_none_iff _ _).mp hFind) f.walks count

theorem Tracks.filterAccess
    (hTracks : f.Tracks)
    (count : Bool)
    (a : PTWAccess) :
    (f.filterAccess count a).2.Tracks := by
  unfold RadixFilter.filterAccess
  split_ifs
  · exact hTracks.lookup _ _ count
  · exact hTracks

/- What the entry of an access went through at its depth. -/
def lastOfAccess
    (f : RadixFilter)
    (a : PTWAccess) : Option PwcChange :=
  f.lastOf a.depth (tagOf a.physicalAddr)

/- An access is filtered out where its entry is cached. -/
theorem filterAccess_fst_iff
    (hTracks : f.Tracks)
    (count : Bool)
    (a : PTWAccess) :
    (f.filterAccess count a).1 = true ↔
      a.depth < f.config.maxPwcLevel ∧
        ∃ walk counted,
          f.lastOfAccess a = some (.brought walk counted) := by
  unfold RadixFilter.filterAccess
  by_cases hDepth : a.depth < f.config.maxPwcLevel
  · rw [if_pos hDepth, and_iff_right hDepth, lastOfAccess,
      ← hTracks.known]
    unfold RadixFilter.lookup
    dsimp only
    cases hFind : (f.setOf a.depth (tagOf a.physicalAddr)).find
        (tagOf a.physicalAddr) with
    | some way =>
        apply iff_of_true rfl
        by_contra hNot
        rw [(PwcSet.find_eq_none_iff _ _).mpr hNot] at hFind
        cases hFind
    | none =>
        apply iff_of_false Bool.false_ne_true
        exact (PwcSet.find_eq_none_iff _ _).mp hFind
  · rw [if_neg hDepth]
    apply iff_of_false Bool.false_ne_true
    exact fun hBoth => hDepth hBoth.1

/-
  The entry of the access was brought in by an earlier counted
  walk and not evicted since.
-/
def Cached (f : RadixFilter) (a : PTWAccess) : Prop :=
  a.depth < f.config.maxPwcLevel ∧
    ∃ walk < f.walks, f.lastOfAccess a = some (.brought walk true)

instance
    (f : RadixFilter)
    (a : PTWAccess) :
    Decidable (f.Cached a) :=
  inferInstanceAs (Decidable (_ ∧ _))

/- The accesses of a walk without the cached ones. -/
def uncached
    (count : Bool) :
    RadixFilter → List PTWAccess → List PTWAccess
| _, [] => []
| f, a :: rest =>
    let kept := uncached count (f.filterAccess count a).2 rest
    if f.Cached a then kept else a :: kept

/- What is asked of the filter. -/
structure Filters
    (f : RadixFilter)
    (r : PTWResult)
    (count : Bool) : Prop where
  enabled :
    f.config.enabled = true →
      (f.filterPTWResult r count).1.accesses =
        uncached count f r.accesses
  disabled :
    f.config.enabled = false →
      (f.filterPTWResult r count).1.accesses = r.accesses
  leaves :
    (f.filterPTWResult r count).1.accesses.filter PTWAccess.isPte =
      r.accesses.filter PTWAccess.isPte
  translation :
    (f.filterPTWResult r count).1.translation = r.translation
  isPagefault :
    (f.filterPTWResult r count).1.isPagefault = r.isPagefault
  requestedFrames :
    (f.filterPTWResult r count).1.requestedFrames =
      r.requestedFrames

/- Only a filtered walk has something to satisfy. -/
def Behaves (f : RadixFilter) : Call → Prop
| .filterPTWResult r count => f.Filters r count
| .lookupPWC _ _ => True

/-
  If the entry of the access is cached, then an earlier
  counted walk brought it in, and it is no leaf.
-/
def Harmless (f : RadixFilter) (a : PTWAccess) : Prop :=
  a.depth < f.config.maxPwcLevel →
    ∀ walk counted,
      f.lastOfAccess a = some (.brought walk counted) →
        counted = true ∧ walk < f.walks ∧ a.isPte = false

/-
  No frames are requested, and the accesses of the walk are
  harmless in turn, or there are none without walk caches.
-/
def Meets (f : RadixFilter) : Call → Prop
| .filterPTWResult r count =>
    r.requestedFrames = 0 ∧
      if f.config.enabled then
        Run.Along (fun f a => some (f.filterAccess count a).2)
          Harmless f r.accesses
      else r.accesses = []
| .lookupPWC _ _ => True

------------------------------------------------------------
-- Calls And Runs
------------------------------------------------------------

theorem fst_filterAccesses_cons
    (count : Bool)
    (f : RadixFilter)
    (a : PTWAccess)
    (rest : List PTWAccess) :
    (filterAccesses count f (a :: rest)).1 =
      if (f.filterAccess count a).1 then
        (filterAccesses count (f.filterAccess count a).2 rest).1
      else
        a :: (filterAccesses count
          (f.filterAccess count a).2 rest).1 := rfl

theorem snd_filterAccesses_cons
    (count : Bool)
    (f : RadixFilter)
    (a : PTWAccess)
    (rest : List PTWAccess) :
    (filterAccesses count f (a :: rest)).2 =
      (filterAccesses count
        (f.filterAccess count a).2 rest).2 := rfl

theorem uncached_cons
    (count : Bool)
    (f : RadixFilter)
    (a : PTWAccess)
    (rest : List PTWAccess) :
    uncached count f (a :: rest) =
      if f.Cached a then
        uncached count (f.filterAccess count a).2 rest
      else
        a :: uncached count (f.filterAccess count a).2 rest :=
  rfl

theorem Tracks.filterAccesses
    (hTracks : f.Tracks)
    (count : Bool)
    (accesses : List PTWAccess) :
    (RadixFilter.filterAccesses count f accesses).2.Tracks := by
  induction accesses generalizing f with
  | nil => exact hTracks
  | cons a rest ih =>
      rw [snd_filterAccesses_cons]
      exact ih (hTracks.filterAccess count a)

/- What the filter keeps is part of the walk, in order. -/
theorem filterAccesses_sublist
    (count : Bool)
    (f : RadixFilter)
    (accesses : List PTWAccess) :
    (filterAccesses count f accesses).1.Sublist accesses := by
  induction accesses generalizing f with
  | nil => exact List.Sublist.refl []
  | cons a rest ih =>
      rw [fst_filterAccesses_cons]
      split_ifs
      · exact (ih _).cons a
      · exact (ih _).cons_cons a

/- A cached entry is found, so no more is kept than asked. -/
theorem filterAccesses_sublist_uncached
    (hTracks : f.Tracks)
    (count : Bool)
    (accesses : List PTWAccess) :
    (filterAccesses count f accesses).1.Sublist
      (uncached count f accesses) := by
  induction accesses generalizing f with
  | nil => exact List.Sublist.refl []
  | cons a rest ih =>
      have hRest := ih (hTracks.filterAccess count a)
      rw [fst_filterAccesses_cons, uncached_cons]
      by_cases hCached : f.Cached a
      · have hHit : (f.filterAccess count a).1 = true := by
          rcases hCached with ⟨hDepth, walk, -, hLast⟩
          exact (filterAccess_fst_iff hTracks count a).mpr
            ⟨hDepth, walk, true, hLast⟩
        rw [if_pos hHit, if_pos hCached]
        exact hRest
      · rw [if_neg hCached]
        split_ifs
        · exact hRest.cons a
        · exact hRest.cons_cons a

/-
  The loop keeps what is asked, leaves included, exactly where
  the accesses are harmless in turn.
-/
theorem filterAccesses_eq_iff
    (hTracks : f.Tracks)
    (count : Bool)
    (accesses : List PTWAccess) :
    ((filterAccesses count f accesses).1 =
        uncached count f accesses ∧
      (filterAccesses count f accesses).1.filter PTWAccess.isPte =
        accesses.filter PTWAccess.isPte) ↔
      Run.Along (fun f a => some (f.filterAccess count a).2)
        Harmless f accesses := by
  induction accesses generalizing f with
  | nil => exact iff_of_true ⟨rfl, rfl⟩ trivial
  | cons a rest ih =>
      have hTail := ih (hTracks.filterAccess count a)
      have hIff := filterAccess_fst_iff hTracks count a
      rw [Run.along_cons_of_some rest rfl, ← hTail,
        fst_filterAccesses_cons, uncached_cons]
      cases hHit : (f.filterAccess count a).1 with
      | false =>
          -- The access is kept, as its entry is not cached.
          have hNot :
              ¬ (a.depth < f.config.maxPwcLevel ∧
                ∃ walk counted,
                  f.lastOfAccess a =
                    some (.brought walk counted)) := by
            intro hFound
            rw [hIff.mpr hFound] at hHit
            cases hHit
          have hHarmless : f.Harmless a :=
            fun hDepth walk counted hLast =>
              absurd ⟨hDepth, walk, counted, hLast⟩ hNot
          have hKept : ¬ f.Cached a := by
            rintro ⟨hDepth, walk, -, hLast⟩
            exact hNot ⟨hDepth, walk, true, hLast⟩
          rw [if_neg Bool.false_ne_true, if_neg hKept,
            and_iff_right hHarmless, List.filter_cons,
            List.filter_cons]
          apply and_congr
          · rw [List.cons.injEq, and_iff_right rfl]
          · split_ifs
            · rw [List.cons.injEq, and_iff_right rfl]
            · rfl
      | true =>
          rcases hIff.mp hHit with
            ⟨hDepth, walk, counted, hLast⟩
          rw [if_pos rfl]
          by_cases hGood :
              counted = true ∧ walk < f.walks ∧ a.isPte = false
          · -- The filter removes what it is asked to.
            rcases hGood with ⟨hCounted, hEarlier, hInner⟩
            subst hCounted
            have hCached : f.Cached a :=
              ⟨hDepth, walk, hEarlier, hLast⟩
            have hHarmless : f.Harmless a := by
              intro _ walk' counted' hLast'
              rw [hLast, Option.some.injEq,
                PwcChange.brought.injEq] at hLast'
              rw [← hLast'.1, ← hLast'.2]
              exact ⟨rfl, hEarlier, hInner⟩
            rw [if_pos hCached, and_iff_right hHarmless,
              List.filter_cons, if_neg (by rw [hInner]; decide)]
          · -- It removes one access more than it is asked to.
            apply iff_of_false
            · rintro ⟨hKept, hLeaves⟩
              by_cases hCached : f.Cached a
              · have hLeaf : a.isPte = true := by
                  rcases hCached with ⟨-, walk', hLt, hLast'⟩
                  rw [hLast, Option.some.injEq,
                    PwcChange.brought.injEq] at hLast'
                  by_contra hInner
                  rw [Bool.not_eq_true] at hInner
                  exact hGood ⟨hLast'.2, hLast'.1 ▸ hLt, hInner⟩
                have hLe := ((filterAccesses_sublist count
                  (f.filterAccess count a).2 rest).filter
                    PTWAccess.isPte).length_le
                rw [hLeaves, List.filter_cons, if_pos hLeaf,
                  List.length_cons] at hLe
                omega
              · have hLe := (filterAccesses_sublist_uncached
                  (hTracks.filterAccess count a) count
                    rest).length_le
                rw [if_neg hCached] at hKept
                rw [hKept, List.length_cons] at hLe
                omega
            · rintro ⟨hHarmless, -⟩
              exact hGood (hHarmless hDepth walk counted hLast)

theorem behaves_iff_meets
    (hTracks : f.Tracks)
    (c : Call) :
    f.Behaves c ↔ f.Meets c := by
  cases c with
  | lookupPWC address level => rfl
  | filterPTWResult r count =>
      have hLoop := filterAccesses_eq_iff hTracks count r.accesses
      cases hEnabled : f.config.enabled with
      | true =>
          have hAccesses :
              (f.filterPTWResult r count).1.accesses =
                (filterAccesses count f r.accesses).1 := by
            simp [RadixFilter.filterPTWResult, hEnabled]
          simp only [Behaves, Meets, hEnabled, if_true]
          rw [← hLoop]
          constructor
          · rintro ⟨hKept, -, hLeaves, -, -, hFrames⟩
            rw [hAccesses] at hKept hLeaves
            exact ⟨hFrames.symm, hKept hEnabled, hLeaves⟩
          · rintro ⟨hFrames, hKept, hLeaves⟩
            refine ⟨fun _ => ?_, fun hOff => ?_, ?_, rfl, rfl,
              hFrames.symm⟩
            · rw [hAccesses, hKept]
            · rw [hEnabled] at hOff
              cases hOff
            · rw [hAccesses, hLeaves]
      | false =>
          have hAccesses :
              (f.filterPTWResult r count).1.accesses = [] := by
            simp [RadixFilter.filterPTWResult, hEnabled]
          simp only [Behaves, Meets, hEnabled,
            Bool.false_eq_true, if_false]
          constructor
          · rintro ⟨-, hAll, -, -, -, hFrames⟩
            exact ⟨hFrames.symm,
              (hAll hEnabled).symm.trans hAccesses⟩
          · rintro ⟨hFrames, hNone⟩
            refine ⟨fun hOn => ?_, fun _ => ?_, ?_, rfl, rfl,
              hFrames.symm⟩
            · rw [hEnabled] at hOn
              cases hOn
            · rw [hAccesses, hNone]
            · rw [hAccesses, hNone]

theorem Tracks.next
    (hTracks : f.Tracks)
    (c : Call) :
    (f.next c).Tracks := by
  have hCount :
      ∀ f : RadixFilter, f.Tracks →
        Tracks { f with walks := f.walks + 1 } :=
    fun f h => ⟨h.valid, h.home, h.known⟩
  cases c with
  | filterPTWResult r count =>
      rw [RadixFilter.next, RadixFilter.filterPTWResult]
      dsimp only
      split_ifs
      · exact hCount _ (hTracks.filterAccesses count r.accesses)
      · exact hCount f hTracks
  | lookupPWC address level =>
      rw [RadixFilter.next, RadixFilter.lookupPWC]
      split_ifs
      · exact hTracks.lookup address level false
      · exact hTracks

/-
  Whatever the configuration and the history of the filter,
  it filters every walk as asked if and only if every walk
  meets the condition.
-/
theorem along_behaves_iff_along_meets
    (config : PwcConfig)
    (calls : List Call) :
    Run.Along step Behaves (init config) calls ↔
      Run.Along step Meets (init config) calls := by
  apply Run.along_iff_along (I := Tracks) (E := fun _ _ => True)
  · intro f c next hTracks _ _ hStep
    rw [← Option.some.inj hStep]
    exact hTracks.next c
  · intro f c hTracks _
    exact behaves_iff_meets hTracks c
  · exact tracks_init config
  · exact Run.along_of_forall_mem _ (fun _ _ => trivial)

/- No walk caches are configured. -/
def withoutCaches : PwcConfig where
  enabled := false
  maxPwcLevel := 3
  log2Sets := fun _ => 3
  associativity := fun _ => 4
  associativity_pos := fun _ => by decide

/- A walk to a page of 4 KB, over four levels. -/
def fourLevelWalk : PTWResult where
  translation := some (5, 12)
  accesses :=
    [ ⟨0, 0, 0, false⟩, ⟨0, 1, 4096, false⟩,
      ⟨0, 2, 8192, false⟩, ⟨0, 3, 12288, true⟩ ]
  isPagefault := false
  requestedFrames := 0

/- Without walk caches the filter removes every access. -/
theorem not_along_behaves_withoutCaches :
    ¬ Run.Along step Behaves (init withoutCaches)
        [.filterPTWResult fourLevelWalk true] := by
  rintro ⟨hFilters, -⟩
  have hAll := hFilters.disabled rfl
  exact absurd hAll (by decide +kernel)

end RadixFilter

end Virtuoso
