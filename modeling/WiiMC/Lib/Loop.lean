import Mathlib.Tactic.Common

/-!
# Loops

A loop turns as long as a condition holds of its state.

* `Reaches`: the states that a loop passes through.
* `run`: the loop, with a limit on the number of its turns.
* `exists_run`: a measure that falls at each turn is such a limit.
* `Reaches.of_run`, `Reaches.run_eq`: the end of the loop lies behind what it passes through.
-/

namespace Loop

variable {σ : Type*} {cond : σ → Prop} {body : σ → σ} {s t u : σ}

/-- The loop `while (cond) body` passes from the one state through the other. -/
inductive Reaches (cond : σ → Prop) (body : σ → σ) : σ → σ → Prop
  | refl (s : σ) : Reaches cond body s s
  | turn {s t : σ} (hc : cond s) (h : Reaches cond body (body s) t) : Reaches cond body s t

theorem Reaches.one (hc : cond s) : Reaches cond body s (body s) := .turn hc (.refl _)

theorem Reaches.trans (h : Reaches cond body s t) (h' : Reaches cond body t u) :
    Reaches cond body s u := by
  induction h with
  | refl s => exact h'
  | turn hc _ ih => exact .turn hc (ih h')

/-- What each turn preserves holds of all that is reached. -/
theorem Reaches.invariant {I : σ → Prop} (hI : ∀ s, cond s → I s → I (body s))
    (h : Reaches cond body s t) (hs : I s) : I t := by
  induction h with
  | refl s => exact hs
  | turn hc _ ih => exact ih (hI _ hc hs)

variable [DecidablePred cond] {fuel : ℕ}

/-- The end of the loop; `none` where it turns more than `fuel` times. -/
def run (cond : σ → Prop) [DecidablePred cond] (body : σ → σ) : ℕ → σ → Option σ
  | 0, s => if cond s then none else some s
  | fuel + 1, s => if cond s then run cond body fuel (body s) else some s

theorem run_of_not (h : ¬cond s) : run cond body fuel s = some s := by
  cases fuel <;> exact if_neg h

/-- A measure that falls at each turn bounds the number of turns. -/
theorem exists_run (m : σ → ℕ) (hm : ∀ s, cond s → m (body s) < m s) (h : m s ≤ fuel) :
    ∃ t, run cond body fuel s = some t := by
  induction fuel generalizing s with
  | zero =>
    refine ⟨s, run_of_not fun hc => ?_⟩
    exact Nat.not_lt_zero _ (Nat.lt_of_lt_of_le (hm s hc) h)
  | succ fuel ih =>
    by_cases hc : cond s
    · rw [run, if_pos hc]
      exact ih (Nat.le_of_lt_succ (Nat.lt_of_lt_of_le (hm s hc) h))
    · exact ⟨s, run_of_not hc⟩

/-- The end of a run is reached. -/
theorem reaches_of_run (hrun : run cond body fuel s = some u) : Reaches cond body s u := by
  induction fuel generalizing s with
  | zero =>
    rw [run, Option.ite_none_left_eq_some, Option.some.injEq] at hrun
    exact hrun.2 ▸ .refl s
  | succ fuel ih =>
    rw [run] at hrun
    split_ifs at hrun with hc
    · exact .turn hc (ih hrun)
    · exact Option.some.inj hrun ▸ .refl s

/-- The condition does not hold any more where the loop ends. -/
theorem not_of_run (hrun : run cond body fuel s = some u) : ¬cond u := by
  induction fuel generalizing s with
  | zero =>
    rw [run, Option.ite_none_left_eq_some, Option.some.injEq] at hrun
    exact hrun.2 ▸ hrun.1
  | succ fuel ih =>
    rw [run] at hrun
    split_ifs at hrun with hc
    · exact ih hrun
    · exact Option.some.inj hrun ▸ hc

/-- The loop ends behind every state that it passes through. -/
theorem Reaches.of_run (h : Reaches cond body s t) (hrun : run cond body fuel s = some u) :
    Reaches cond body t u := by
  induction h generalizing fuel with
  | refl s => exact reaches_of_run hrun
  | turn hc _ ih =>
    cases fuel with
    | zero =>
      rw [run, if_pos hc] at hrun
      exact absurd hrun nofun
    | succ fuel =>
      rw [run, if_pos hc] at hrun
      exact ih hrun

/-- Where it does not turn any more, it ends. -/
theorem Reaches.run_eq (h : Reaches cond body s t) (ht : ¬cond t)
    (hrun : run cond body fuel s = some u) : u = t := by
  cases h.of_run hrun with
  | refl => rfl
  | turn hc => exact absurd hc ht

end Loop
