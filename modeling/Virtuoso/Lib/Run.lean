import Mathlib.Data.List.Basic

/-
  Runs of partial step functions.

  A system is a step function `σ → ε → Option σ`, where
  `none` says that the step has no defined outcome: the
  program aborts or its behaviour is undefined.

  The induction rules are:
    * `Run.run_total`
    * `Run.run_follows`
-/

------------------------------------------------------------
-- Runs
------------------------------------------------------------

namespace Run

variable {σ ε : Type*}

/- Fold a partial step function over a list of events. -/
def run (step : σ → ε → Option σ) : σ → List ε → Option σ
| s, [] => some s
| s, e :: es =>
    match step s e with
    | none => none
    | some s' => run step s' es

/-
  Every step of the run from `s`, up to the first step that
  has no outcome, is taken in a state and with an event that
  satisfy `C`.
-/
def Along
    (step : σ → ε → Option σ)
    (C : σ → ε → Prop) :
    σ → List ε → Prop
| _, [] => True
| s, e :: es =>
    C s e ∧ ∀ s', step s e = some s' → Along step C s' es

variable {step : σ → ε → Option σ}
variable {C : σ → ε → Prop} {I : σ → Prop}

@[simp] theorem run_nil
    (s : σ) :
    run step s [] = some s := rfl

variable {s s' : σ}

theorem run_cons_of_some
    {e : ε}
    (es : List ε)
    (hStep : step s e = some s') :
    run step s (e :: es) = run step s' es := by
  simp [run, hStep]

variable {es : List ε}

/- The first step of a completed run and the run after it. -/
theorem run_cons_eq_some
    {s s'' : σ}
    {e : ε}
    (hRun : run step s (e :: es) = some s'') :
    ∃ s', step s e = some s' ∧ run step s' es = some s'' := by
  cases hStep : step s e with
  | none =>
      simp [run, hStep] at hRun
  | some s' =>
      refine ⟨s', rfl, ?_⟩
      simpa [run, hStep] using hRun

/- What is met along a run whose first step has an outcome. -/
theorem along_cons_of_some
    {e : ε}
    (es : List ε)
    (hStep : step s e = some s') :
    Along step C s (e :: es) ↔ C s e ∧ Along step C s' es := by
  constructor
  · rintro ⟨hHere, hAfter⟩
    exact ⟨hHere, hAfter s' hStep⟩
  · rintro ⟨hHere, hAfter⟩
    refine ⟨hHere, fun other hOther => ?_⟩
    rw [hStep] at hOther
    exact Option.some.inj hOther ▸ hAfter

/- A run is continued in the state that it ends in. -/
theorem run_append_of_some
    (es' : List ε)
    (hRun : run step s es = some s') :
    run step s (es ++ es') = run step s' es' := by
  induction es generalizing s with
  | nil =>
      rw [run_nil, Option.some.injEq] at hRun
      rw [hRun, List.nil_append]
  | cons e es ih =>
      rcases run_cons_eq_some hRun with
        ⟨next, hOutcome, hRest⟩
      rw [List.cons_append, run_cons_of_some _ hOutcome]
      exact ih hRest

/- A step with an outcome only where a condition is met. -/
def restrict
    (step : σ → ε → Option σ)
    (C : σ → ε → Prop)
    [∀ s e, Decidable (C s e)]
    (s : σ)
    (e : ε) :
    Option σ :=
  if C s e then step s e else none

/- The completed runs of a restricted step. -/
theorem run_restrict_eq_some
    [∀ s e, Decidable (C s e)] :
    run (restrict step C) s es = some s' ↔
      Along step C s es ∧ run step s es = some s' := by
  induction es generalizing s with
  | nil => simp [Along]
  | cons e es ih =>
      simp only [run, restrict, Along]
      by_cases hHere : C s e
      · rw [if_pos hHere]
        cases hStep : step s e with
        | none => simp
        | some next => simpa [hHere] using ih
      · simp [hHere]

/-
  The completed runs of a restricted step, from a state that
  is there under a condition.
-/
def guarded
    (P : Prop)
    [Decidable P]
    (step : σ → ε → Option σ)
    (C : σ → ε → Prop)
    [∀ s e, Decidable (C s e)]
    (s : σ)
    (es : List ε) :
    Option σ :=
  if P then run (restrict step C) s es else none

theorem guarded_eq_some
    {P : Prop}
    [Decidable P]
    [∀ s e, Decidable (C s e)] :
    guarded P step C s es = some s' ↔
      (P ∧ Along step C s es) ∧ run step s es = some s' := by
  rw [guarded, Option.ite_none_right_eq_some,
    run_restrict_eq_some, and_assoc]

/- A permitted run is continued by a permitted run. -/
theorem along_append
    {es es' : List ε}
    (hRun : run step s es = some s')
    (hAlong : Along step C s es)
    (hAfter : Along step C s' es') :
    Along step C s (es ++ es') := by
  induction es generalizing s with
  | nil =>
      rw [run_nil, Option.some.injEq] at hRun
      rw [hRun, List.nil_append]
      exact hAfter
  | cons e es ih =>
      rcases run_cons_eq_some hRun with
        ⟨next, hOutcome, hRest⟩
      refine ⟨hAlong.1, fun other hOther => ?_⟩
      have hEq : next = other :=
        Option.some.inj (hOutcome.symm.trans hOther)
      subst hEq
      exact ih hRest (hAlong.2 next hOutcome)

/-
  Progress and preservation: where every permitted step has
  an outcome that keeps the invariant, a permitted run ends
  in a state that satisfies it.
-/
theorem run_total
    (hStep : ∀ s e, I s → C s e → ∃ s', step s e = some s' ∧ I s')
    (s : σ)
    (es : List ε)
    (hInit : I s)
    (hAlong : Along step C s es) :
    ∃ s', run step s es = some s' ∧ I s' := by
  induction es generalizing s with
  | nil => exact ⟨s, rfl, hInit⟩
  | cons e es ih =>
      rcases hStep s e hInit hAlong.1 with
        ⟨s', hOutcome, hNext⟩
      rw [run_cons_of_some es hOutcome]
      exact ih s' hNext (hAlong.2 s' hOutcome)

/-
  Preservation alone: the invariant holds in the state that a
  completed permitted run ends in.
-/
theorem run_inv
    (hStep : ∀ s e s', I s → C s e → step s e = some s' → I s')
    {s s' : σ}
    {es : List ε}
    (hInit : I s)
    (hAlong : Along step C s es)
    (hRun : run step s es = some s') :
    I s' := by
  induction es generalizing s with
  | nil =>
      rw [run_nil, Option.some.injEq] at hRun
      exact hRun ▸ hInit
  | cons e es ih =>
      rcases run_cons_eq_some hRun with
        ⟨next, hOutcome, hRest⟩
      exact ih (hStep s e next hInit hAlong.1 hOutcome)
        (hAlong.2 next hOutcome) hRest

/-
  The invariant holds in every state that a permitted run
  goes through, and the next event is permitted there.
-/
theorem along_inv
    (hStep : ∀ s e s', I s → C s e → step s e = some s' → I s')
    {s : σ}
    {es : List ε}
    (hInit : I s)
    (hAlong : Along step C s es)
    {front : List ε}
    (hFront : front <+: es)
    {t : σ}
    (hRun : run step s front = some t) :
    I t ∧ ∀ e, front ++ [e] <+: es → C t e := by
  induction front generalizing s es with
  | nil =>
      rw [run_nil, Option.some.injEq] at hRun
      subst hRun
      refine ⟨hInit, fun e hNext => ?_⟩
      rcases hNext with ⟨rest, hEq⟩
      rw [← hEq] at hAlong
      exact hAlong.1
  | cons e front ih =>
      rcases run_cons_eq_some hRun with
        ⟨next, hOutcome, hRest⟩
      cases es with
      | nil => simp at hFront
      | cons e' es =>
          rcases List.cons_prefix_cons.mp hFront with
            ⟨hEq, hTail⟩
          subst hEq
          have hNext := hStep s e next hInit hAlong.1 hOutcome
          rcases ih hNext (hAlong.2 next hOutcome) hTail hRest
            with ⟨hEnd, hAfter⟩
          refine ⟨hEnd, fun other hOther => ?_⟩
          exact hAfter other (List.cons_prefix_cons.mp hOther).2

/- What is permitted along a run is along its beginnings. -/
theorem Along.of_prefix
    {s : σ}
    {front es : List ε}
    (hFront : front <+: es)
    (hAlong : Along step C s es) :
    Along step C s front := by
  induction front generalizing s es with
  | nil => trivial
  | cons e front ih =>
      cases es with
      | nil => simp at hFront
      | cons e' es =>
          rcases List.cons_prefix_cons.mp hFront with
            ⟨hEq, hTail⟩
          subst hEq
          exact ⟨hAlong.1, fun s' hStep =>
            ih hTail (hAlong.2 s' hStep)⟩

/- An invariant of every step is one of every run. -/
theorem run_invariant
    (hStep : ∀ s e s', I s → step s e = some s' → I s')
    (hInit : I s)
    (hRun : run step s es = some s') :
    I s' := by
  induction es generalizing s with
  | nil =>
      rw [run_nil, Option.some.injEq] at hRun
      exact hRun ▸ hInit
  | cons e es ih =>
      rcases run_cons_eq_some hRun with
        ⟨next, hOutcome, hRest⟩
      exact ih (hStep s e next hInit hOutcome) hRest

/- A condition on the events alone is met along every run. -/
theorem along_of_forall_mem
    {Q : ε → Prop}
    (s : σ)
    (hAll : ∀ e ∈ es, Q e) :
    Along step (fun _ e => Q e) s es := by
  induction es generalizing s with
  | nil => trivial
  | cons e es ih =>
      refine ⟨hAll e (by simp), fun s' _ => ih s' ?_⟩
      intro other hMem
      exact hAll other (List.mem_cons_of_mem e hMem)

/-
  A step that misses the condition leaves a mark that stays,
  so a completed run without the mark met the condition.
-/
theorem along_of_run
    {Bad : σ → Prop}
    (hStep : ∀ s e s', step s e = some s' → C s e ∨ Bad s')
    (hKeep : ∀ s e s', step s e = some s' → Bad s → Bad s')
    (hRun : run step s es = some s')
    (hGood : ¬ Bad s') :
    Along step C s es := by
  induction es generalizing s with
  | nil => trivial
  | cons e es ih =>
      rcases run_cons_eq_some hRun with
        ⟨next, hOutcome, hRest⟩
      have hNext : ¬ Bad next := by
        intro hBad
        apply hGood
        exact run_inv
          (fun s e s' hMark _ hStep => hKeep s e s' hStep hMark)
          hBad
          (along_of_forall_mem next (fun _ _ => trivial))
          hRest
      refine ⟨?_, ?_⟩
      · rcases hStep s e next hOutcome with hMet | hBad
        · exact hMet
        · exact absurd hBad hNext
      · intro other hOther
        have hEq : next = other :=
          Option.some.inj (hOutcome.symm.trans hOther)
        exact hEq ▸ ih hRest

/-
  The exact condition of a property of all prefixes: a step
  that meets the condition keeps the invariant, which implies
  the property, and any other step breaks the property.
-/
theorem along_iff_forall_prefix
    {Good : σ → Prop}
    {E : σ → ε → Prop}
    (hGood : ∀ s, I s → Good s)
    (hStep :
      ∀ s e, I s → E s e → C s e → ∃ s', step s e = some s' ∧ I s')
    (hBad :
      ∀ s e s', I s → E s e → ¬ C s e →
        step s e = some s' → ¬ Good s')
    {s : σ}
    {es : List ε}
    (hInit : I s)
    (hEnv : Along step E s es) :
    Along step C s es ↔
      ∀ front, front <+: es →
        ∃ s', run step s front = some s' ∧ Good s' := by
  induction es generalizing s with
  | nil =>
      constructor
      · intro _ front hFront
        rw [List.prefix_nil.mp hFront]
        exact ⟨s, rfl, hGood s hInit⟩
      · intro _
        trivial
  | cons e es ih =>
      constructor
      · rintro ⟨hHere, hRest⟩ front hFront
        cases front with
        | nil => exact ⟨s, rfl, hGood s hInit⟩
        | cons e' front =>
            rcases List.cons_prefix_cons.mp hFront with
              ⟨hEq, hTail⟩
            subst hEq
            rcases hStep s e' hInit hEnv.1 hHere with
              ⟨s', hOutcome, hNext⟩
            rw [run_cons_of_some front hOutcome]
            exact (ih hNext (hEnv.2 s' hOutcome)).mp
              (hRest s' hOutcome) front hTail
      · intro hAll
        have hHere : C s e := by
          by_contra hMissed
          rcases hAll [e] (by simp) with ⟨s', hRun, hEnd⟩
          rcases run_cons_eq_some hRun with
            ⟨next, hOutcome, hNil⟩
          rw [run_nil, Option.some.injEq] at hNil
          subst hNil
          exact hBad s e next hInit hEnv.1 hMissed hOutcome hEnd
        refine ⟨hHere, ?_⟩
        intro s' hOutcome
        rcases hStep s e hInit hEnv.1 hHere with
          ⟨next, hOutcome', hNext⟩
        have hEq : next = s' :=
          Option.some.inj (hOutcome'.symm.trans hOutcome)
        subst hEq
        apply (ih hNext (hEnv.2 next hOutcome)).mpr
        intro front hFront
        rcases hAll (e :: front)
            (List.cons_prefix_cons.mpr ⟨rfl, hFront⟩) with
          ⟨s'', hRun, hEnd⟩
        rw [run_cons_of_some front hOutcome] at hRun
        exact ⟨s'', hRun, hEnd⟩

/-
  The same for a completed run: the property is asked of the
  states that are reached.
-/
theorem along_iff_of_run
    {Good : σ → Prop}
    {E : σ → ε → Prop}
    (hGood : ∀ s, I s → Good s)
    (hStep :
      ∀ s e s', I s → E s e → C s e → step s e = some s' → I s')
    (hBad :
      ∀ s e s', I s → E s e → ¬ C s e →
        step s e = some s' → ¬ Good s')
    {s s' : σ}
    {es : List ε}
    (hInit : I s)
    (hEnv : Along step E s es)
    (hRun : run step s es = some s') :
    Along step C s es ↔
      ∀ front, front <+: es →
        ∀ t, run step s front = some t → Good t := by
  induction es generalizing s with
  | nil =>
      constructor
      · intro _ front hFront t hFrontRun
        rw [List.prefix_nil.mp hFront, run_nil,
          Option.some.injEq] at hFrontRun
        exact hFrontRun ▸ hGood s hInit
      · intro _
        trivial
  | cons e es ih =>
      rcases run_cons_eq_some hRun with
        ⟨next, hOutcome, hRest⟩
      constructor
      · rintro ⟨hHere, hAfter⟩ front hFront t hFrontRun
        have hNext := hStep s e next hInit hEnv.1 hHere hOutcome
        cases front with
        | nil =>
            rw [run_nil, Option.some.injEq] at hFrontRun
            exact hFrontRun ▸ hGood s hInit
        | cons e' front =>
            rcases List.cons_prefix_cons.mp hFront with
              ⟨hEq, hTail⟩
            subst hEq
            rw [run_cons_of_some front hOutcome] at hFrontRun
            exact (ih hNext (hEnv.2 next hOutcome) hRest).mp
              (hAfter next hOutcome) front hTail t hFrontRun
      · intro hAll
        have hHere : C s e := by
          by_contra hMissed
          apply hBad s e next hInit hEnv.1 hMissed hOutcome
          apply hAll [e] (by simp) next
          rw [run_cons_of_some [] hOutcome, run_nil]
        refine ⟨hHere, ?_⟩
        intro other hOther
        have hEq : next = other :=
          Option.some.inj (hOutcome.symm.trans hOther)
        subst hEq
        have hNext := hStep s e next hInit hEnv.1 hHere hOutcome
        apply (ih hNext (hEnv.2 next hOutcome) hRest).mpr
        intro front hFront t hFrontRun
        apply hAll (e :: front)
          (List.cons_prefix_cons.mpr ⟨rfl, hFront⟩) t
        rw [run_cons_of_some front hOutcome]
        exact hFrontRun

/-
  Two conditions that agree under an invariant are met along
  the same runs, if the steps that meet one keep it.
-/
theorem along_iff_along
    {C' E : σ → ε → Prop}
    (hStep :
      ∀ s e s', I s → E s e → C s e → step s e = some s' → I s')
    (hIff : ∀ s e, I s → E s e → (C s e ↔ C' s e))
    {s : σ}
    {es : List ε}
    (hInit : I s)
    (hEnv : Along step E s es) :
    Along step C s es ↔ Along step C' s es := by
  induction es generalizing s with
  | nil => rfl
  | cons e es ih =>
      have hHere := hIff s e hInit hEnv.1
      constructor
      · rintro ⟨hMet, hAfter⟩
        refine ⟨hHere.mp hMet, fun s' hOutcome => ?_⟩
        have hNext := hStep s e s' hInit hEnv.1 hMet hOutcome
        exact (ih hNext (hEnv.2 s' hOutcome)).mp
          (hAfter s' hOutcome)
      · rintro ⟨hMet, hAfter⟩
        have hFirst := hHere.mpr hMet
        refine ⟨hFirst, fun s' hOutcome => ?_⟩
        have hNext :=
          hStep s e s' hInit hEnv.1 hFirst hOutcome
        exact (ih hNext (hEnv.2 s' hOutcome)).mpr
          (hAfter s' hOutcome)

/-
  Events with distinct keys are new in turn, where a step
  makes no key known but the one of its event.
-/
theorem along_fresh
    {κ : Type*}
    (key : ε → κ)
    (seen : σ → List κ)
    (hSeen :
      ∀ s e s', step s e = some s' →
        ∀ k ∈ seen s', k = key e ∨ k ∈ seen s)
    {s : σ}
    {es : List ε}
    (hDistinct : (es.map key).Nodup)
    (hNew : ∀ e ∈ es, key e ∉ seen s) :
    Along step (fun s e => key e ∉ seen s) s es := by
  induction es generalizing s with
  | nil => trivial
  | cons e es ih =>
      rw [List.map_cons, List.nodup_cons] at hDistinct
      refine ⟨hNew e (by simp), fun s' hOutcome => ?_⟩
      apply ih hDistinct.2
      intro later hLater hKnown
      rcases hSeen s e s' hOutcome _ hKnown with hEq | hOld
      · exact hDistinct.1 (hEq ▸ List.mem_map_of_mem hLater)
      · exact hNew later (by simp [hLater]) hOld

/- Conditions may be weakened along a run. -/
theorem Along.mono
    {C' : σ → ε → Prop}
    (hImp : ∀ s e, C s e → C' s e)
    {s : σ}
    (hAlong : Along step C s es) :
    Along step C' s es := by
  induction es generalizing s with
  | nil => trivial
  | cons e es ih =>
      exact ⟨hImp s e hAlong.1,
        fun s' hOutcome => ih (hAlong.2 s' hOutcome)⟩

/- Two conditions met along a run are met together. -/
theorem Along.and
    {C' : σ → ε → Prop}
    {s : σ}
    (hLeft : Along step C s es)
    (hRight : Along step C' s es) :
    Along step (fun s e => C s e ∧ C' s e) s es := by
  induction es generalizing s with
  | nil => trivial
  | cons e es ih =>
      exact ⟨⟨hLeft.1, hRight.1⟩,
        fun s' hOutcome =>
          ih (hLeft.2 s' hOutcome) (hRight.2 s' hOutcome)⟩

instance
    [∀ s e, Decidable (C s e)]
    (s : σ)
    (es : List ε) :
    Decidable (Along step C s es) :=
  decideAlong s es
where
  decideAlong : (s : σ) → (es : List ε) →
      Decidable (Along step C s es)
  | _, [] => isTrue trivial
  | s, e :: es =>
      match hStep : step s e with
      | none =>
          decidable_of_iff (C s e) (by simp [Along, hStep])
      | some s' =>
          have := decideAlong s' es
          decidable_of_iff (C s e ∧ Along step C s' es)
            (by simp [Along, hStep])

------------------------------------------------------------
-- Simulation
------------------------------------------------------------

variable {μ : Type*}

/-
  Every event is permitted in the abstract state it meets,
  where each event changes the abstract state by `apply`.
-/
def Permitted
    (apply : μ → ε → μ)
    (P : μ → ε → Prop) :
    μ → List ε → Prop
| _, [] => True
| m, e :: es => P m e ∧ Permitted apply P (apply m e) es

/-
  Forward simulation: where every permitted step has an
  outcome that keeps the relation, a permitted run ends in a
  state related to the abstract one.
-/
theorem run_simulates
    {apply : μ → ε → μ}
    {P : μ → ε → Prop}
    {R : μ → σ → Prop}
    (hStep :
      ∀ m s e, R m s → P m e →
        ∃ s', step s e = some s' ∧ R (apply m e) s')
    {m : μ}
    {s : σ}
    {es : List ε}
    (hInit : R m s)
    (hPermitted : Permitted apply P m es) :
    ∃ s', run step s es = some s' ∧ R (es.foldl apply m) s' := by
  induction es generalizing m s with
  | nil => exact ⟨s, rfl, hInit⟩
  | cons e es ih =>
      rcases hStep m s e hInit hPermitted.1 with
        ⟨s', hOutcome, hNext⟩
      rw [run_cons_of_some es hOutcome]
      exact ih hNext hPermitted.2

/- A condition on the events alone is met from any state. -/
theorem permitted_of_forall_mem
    {apply : μ → ε → μ}
    {Q : ε → Prop}
    (m : μ)
    (hAll : ∀ e ∈ es, Q e) :
    Permitted apply (fun _ e => Q e) m es := by
  induction es generalizing m with
  | nil => trivial
  | cons e es ih =>
      exact ⟨hAll e (by simp), ih _ (fun other hMem =>
        hAll other (List.mem_cons_of_mem e hMem))⟩

/- The case of steps that all have an outcome. -/
theorem run_follows
    {apply : μ → ε → μ}
    {R : μ → σ → Prop}
    (hStep :
      ∀ m s e, R m s → ∃ s', step s e = some s' ∧ R (apply m e) s')
    {m : μ}
    {s : σ}
    (hInit : R m s)
    (es : List ε) :
    ∃ s', run step s es = some s' ∧ R (es.foldl apply m) s' := by
  exact run_simulates (fun m s e hR _ => hStep m s e hR)
    hInit (permitted_of_forall_mem m (fun _ _ => trivial))

instance
    {apply : μ → ε → μ}
    {P : μ → ε → Prop}
    [∀ m e, Decidable (P m e)]
    (m : μ)
    (es : List ε) :
    Decidable (Permitted apply P m es) :=
  decidePermitted m es
where
  decidePermitted : (m : μ) → (es : List ε) →
      Decidable (Permitted apply P m es)
  | _, [] => isTrue trivial
  | m, e :: es =>
      have := decidePermitted (apply m e) es
      inferInstanceAs (Decidable (P m e ∧ _))

end Run
