import Mathlib.Tactic.Common

/-!
# Labelled transition systems

A system is a set of initial states and an executable partial step function; every choice the
environment makes (which thread moves, how many bytes a read returns) is part of the label.
Runs are restricted by a predicate `ok` on the state before a step and its label, so that a
result can name the steps it assumes of the environment, or the steps it excludes.

* `System.Reachable.invariant`: the invariant rule.
* `System.Reachable.exec`: a finite list of labels that executes leads to a reachable state.
-/

namespace Transition

/-- A labelled transition system with an executable step function. -/
structure System (σ α : Type*) where
  /-- The initial states. -/
  init : σ → Prop
  /-- The effect of a label, `none` where the label is not enabled. -/
  step : σ → α → Option σ

namespace System

variable {σ α : Type*} (S : System σ α)

/-- States at the end of a run from an initial state whose every step satisfies `ok`. -/
inductive Reachable (ok : σ → α → Prop) : σ → Prop
  | init {s : σ} : S.init s → Reachable ok s
  | step {s t : σ} {a : α} : Reachable ok s → ok s a → S.step s a = some t → Reachable ok t

/-- Execute a list of labels. -/
def exec : σ → List α → Option σ
  | s, [] => some s
  | s, a :: as => (S.step s a).bind fun t => exec t as

variable {S} in
theorem exec_append {s : σ} (as bs : List α) :
    S.exec s (as ++ bs) = (S.exec s as).bind fun t => S.exec t bs := by
  induction as generalizing s with
  | nil => rfl
  | cons a as ih =>
      rw [List.cons_append, exec, exec, Option.bind_assoc]
      exact congrArg _ (funext fun t => ih)

/-- Every step of the execution of `as` from `s` satisfies `ok`. -/
def OkAlong (ok : σ → α → Prop) : σ → List α → Prop
  | _, [] => True
  | s, a :: as => ok s a ∧ ∀ t, S.step s a = some t → OkAlong ok t as

variable {S} {ok : σ → α → Prop}

/-- The invariant rule: what holds initially and is preserved by every admitted step from a
reachable state holds in every reachable state. -/
theorem Reachable.invariant {I : σ → Prop} (hinit : ∀ s, S.init s → I s)
    (hstep : ∀ s a t, S.Reachable ok s → I s → ok s a → S.step s a = some t → I t) {s : σ}
    (hs : S.Reachable ok s) : I s := by
  induction hs with
  | init h => exact hinit _ h
  | step hs hok hst ih => exact hstep _ _ _ hs ih hok hst

/-- Admitting more steps reaches more states. -/
theorem Reachable.mono {ok' : σ → α → Prop} (h : ∀ s a, ok s a → ok' s a) {s : σ}
    (hs : S.Reachable ok s) : S.Reachable ok' s := by
  induction hs with
  | init h => exact .init h
  | step _ hok hst ih => exact .step ih (h _ _ hok) hst

/-- Whether a run satisfies a restriction that can be decided is found out by executing it. -/
instance OkAlong.instDecidable [∀ s a, Decidable (ok s a)] :
    (s : σ) → (as : List α) → Decidable (S.OkAlong ok s as)
  | _, [] => isTrue trivial
  | s, a :: as =>
      have := fun t => OkAlong.instDecidable t as
      inferInstanceAs (Decidable (ok s a ∧ ∀ t ∈ S.step s a, S.OkAlong ok t as))

/-- A restriction on the labels alone holds along an execution if it holds of every label. -/
theorem OkAlong.of_forall {P : α → Prop} {as : List α} (h : ∀ a ∈ as, P a) (s : σ) :
    S.OkAlong (fun _ a => P a) s as := by
  induction as generalizing s with
  | nil => trivial
  | cons a as ih =>
      exact ⟨h a List.mem_cons_self, fun t _ => ih (fun b hb => h b (List.mem_cons_of_mem a hb)) t⟩

/-- A restriction that holds along an execution holds along its second part. -/
theorem OkAlong.of_append {s t : σ} {as bs : List α} (h : S.OkAlong ok s (as ++ bs))
    (hex : S.exec s as = some t) : S.OkAlong ok t bs := by
  induction as generalizing s with
  | nil =>
      cases hex
      exact h
  | cons a as ih =>
      rw [System.exec] at hex
      obtain ⟨u, hu, hex⟩ := Option.bind_eq_some_iff.mp hex
      exact ih (h.2 u hu) hex

/-- A list of admitted labels that executes leads from a reachable state to a reachable one. -/
theorem Reachable.exec {s t : σ} {as : List α} (hs : S.Reachable ok s)
    (hok : S.OkAlong ok s as) (hex : S.exec s as = some t) : S.Reachable ok t := by
  induction as generalizing s with
  | nil =>
      cases hex
      exact hs
  | cons a as ih =>
      rw [System.exec] at hex
      obtain ⟨u, hu, hex⟩ := Option.bind_eq_some_iff.mp hex
      exact ih (hs.step hok.1 hu) (hok.2 u hu) hex

end System

end Transition
