import Mathlib.Data.List.Basic

/-
  Loops that try again after a failure.

  A loop makes an attempt, returns its result unless it is a
  failure, and does something before the next attempt
  otherwise. `none` says that the program ends there. The
  number of attempts is bounded: a loop that is still running
  under every bound never returns.

  Key definitions include:
    * `Retry.run`

  The rules are:
    * `Retry.run_eq_running`
-/

/- A loop that tries again after a failed attempt. -/
structure Retry (σ ρ : Type*) where
  attempt : σ → Option ρ
  failed : ρ → Bool
  recover : σ → Option σ

namespace Retry

variable {σ ρ : Type*}

/- How a loop ended, with the attempts that failed. -/
inductive Outcome
    (σ ρ : Type*)
  | running
  | ended
  | returned (failures : List ρ) (result : ρ) (state : σ)
deriving DecidableEq

/- The outcome after one more failure at the start. -/
def Outcome.after (failure : ρ) : Outcome σ ρ → Outcome σ ρ
| .running => .running
| .ended => .ended
| .returned failures result state =>
    .returned (failure :: failures) result state

/- At most as many attempts as the bound says. -/
def run (l : Retry σ ρ) : Nat → σ → Outcome σ ρ
| 0, _ => .running
| fuel + 1, s =>
    match l.attempt s with
    | none => .ended
    | some r =>
        if l.failed r then
          match l.recover s with
          | none => .ended
          | some s' => (run l fuel s').after r
        else
          .returned [] r s

/- The loop returns under some bound. -/
def Returns
    (l : Retry σ ρ)
    (s : σ)
    (failures : List ρ)
    (result : ρ)
    (state : σ) : Prop :=
  ∃ fuel, l.run fuel s = .returned failures result state

variable {l : Retry σ ρ} {s s' t : σ} {r result : ρ}
variable {failures : List ρ}

theorem run_of_passed
    (hAttempt : l.attempt s = some r)
    (hPassed : l.failed r = false)
    (fuel : Nat) :
    l.run (fuel + 1) s = .returned [] r s := by
  simp [run, hAttempt, hPassed]

theorem run_of_failed
    (hAttempt : l.attempt s = some r)
    (hFailed : l.failed r = true)
    (hRecover : l.recover s = some s')
    (fuel : Nat) :
    l.run (fuel + 1) s = (l.run fuel s').after r := by
  simp [run, hAttempt, hFailed, hRecover]

theorem Outcome.after_eq_returned
    {o : Outcome σ ρ}
    (hReturned : o.after r = .returned failures result t) :
    ∃ rest, failures = r :: rest ∧ o = .returned rest result t := by
  cases o with
  | running => cases hReturned
  | ended => cases hReturned
  | returned rest result' state =>
      cases hReturned
      exact ⟨rest, rfl, rfl⟩

/-
  A loop returns at once, or after a failure as it does in
  the state it recovers to.
-/
theorem returns_iff :
    l.Returns s failures result t ↔
      (failures = [] ∧ l.attempt s = some result ∧
        l.failed result = false ∧ t = s) ∨
      ∃ r s' rest, failures = r :: rest ∧
        l.attempt s = some r ∧ l.failed r = true ∧
          l.recover s = some s' ∧ l.Returns s' rest result t := by
  constructor
  · rintro ⟨fuel, hRun⟩
    cases fuel with
    | zero => cases hRun
    | succ fuel =>
        rw [run] at hRun
        cases hAttempt : l.attempt s with
        | none => simp [hAttempt] at hRun
        | some r =>
            simp only [hAttempt] at hRun
            cases hFailed : l.failed r with
            | false =>
                simp only [hFailed, Bool.false_eq_true,
                  if_false, Outcome.returned.injEq] at hRun
                rcases hRun with ⟨rfl, rfl, rfl⟩
                exact Or.inl ⟨rfl, rfl, hFailed, rfl⟩
            | true =>
                simp only [hFailed, if_true] at hRun
                cases hRecover : l.recover s with
                | none => simp [hRecover] at hRun
                | some s' =>
                    simp only [hRecover] at hRun
                    rcases Outcome.after_eq_returned hRun
                      with ⟨rest, hList, hRest⟩
                    exact Or.inr ⟨r, s', rest, hList, rfl,
                      hFailed, rfl, fuel, hRest⟩
  · rintro (⟨rfl, hAttempt, hPassed, rfl⟩ |
      ⟨r, s', rest, rfl, hAttempt, hFailed, hRecover, fuel, hRun⟩)
    · exact ⟨1, run_of_passed hAttempt hPassed 0⟩
    · refine ⟨fuel + 1, ?_⟩
      rw [run_of_failed hAttempt hFailed hRecover, hRun]
      rfl

/- What a recovery keeps holds when the loop returns. -/
theorem Returns.invariant
    {I : σ → Prop}
    (hKeeps : ∀ s s', I s → l.recover s = some s' → I s')
    (hInit : I s)
    (hReturns : l.Returns s failures result t) :
    I t := by
  induction failures generalizing s with
  | nil =>
      rcases returns_iff.mp hReturns with
        ⟨-, -, -, rfl⟩ | ⟨_, _, _, hList, -⟩
      · exact hInit
      · cases hList
  | cons failure failures ih =>
      rcases returns_iff.mp hReturns with
        ⟨hList, -⟩ | ⟨_, s', _, hList, -, -, hRecover, hRest⟩
      · cases hList
      · cases hList
        exact ih (hKeeps s s' hInit hRecover) hRest

/-
  What every recovery increases by one has been increased by
  the number of failures.
-/
theorem Returns.length
    (measure : σ → Nat)
    (hCounts : ∀ s s', l.recover s = some s' →
      measure s' = measure s + 1)
    (hReturns : l.Returns s failures result t) :
    measure t = measure s + failures.length := by
  induction failures generalizing s with
  | nil =>
      rcases returns_iff.mp hReturns with
        ⟨-, -, -, rfl⟩ | ⟨_, _, _, hList, -⟩
      · rfl
      · cases hList
  | cons failure failures ih =>
      rcases returns_iff.mp hReturns with
        ⟨hList, -⟩ | ⟨_, s', _, hList, -, -, hRecover, hRest⟩
      · cases hList
      · cases hList
        rw [ih hRest, hCounts s s' hRecover, List.length_cons]
        omega

/- A recovery that changes nothing is repeated for ever. -/
theorem run_eq_running
    (hAttempt : l.attempt s = some r)
    (hFailed : l.failed r = true)
    (hRecover : l.recover s = some s)
    (fuel : Nat) :
    l.run fuel s = .running := by
  induction fuel with
  | zero => rfl
  | succ fuel ih =>
      rw [run_of_failed hAttempt hFailed hRecover, ih]
      rfl

end Retry
