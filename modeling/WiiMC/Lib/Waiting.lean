import WiiMC.Lib.Transition

/-!
# Waiting for another party

One party waits until another one has got somewhere, and anyone may take steps in the meantime. The
wait is over after a number of steps of the other party that is known from the start, if each of
them brings it nearer and no step of anyone takes it away again.

* `System.During`: a condition holds from the start to the end of an execution.
* `System.countP_add_le_rank`: the bound on the steps of the party that is waited for.
* `System.During.never`: a condition that no step ends lasts for good.
* `System.During.and`: what the steps of the wait keep holds during it.
-/

namespace Transition

namespace System

variable {σ α : Type*} (S : System σ α)

/-- `W` holds in every state of the execution of `as` from `s`. -/
def During (W : σ → Prop) : σ → List α → Prop
  | s, [] => W s
  | s, a :: as => W s ∧ ∀ t, S.step s a = some t → During W t as

variable {S} {W : σ → Prop} {s t : σ} {as : List α}

theorem During.head (h : S.During W s as) : W s := by
  cases as with
  | nil => exact h
  | cons a as => exact h.1

/-- The steps of the party that is waited for, and the rank that is left, are bounded by the rank
at the start. -/
theorem countP_add_le_rank {rank : σ → ℕ} {p : α → Bool}
    (hstep : ∀ s a t, W s → W t → S.step s a = some t →
      rank t + (if p a then 1 else 0) ≤ rank s)
    (hw : S.During W s as) (hex : S.exec s as = some t) : as.countP p + rank t ≤ rank s := by
  induction as generalizing s with
  | nil =>
    cases hex
    simp
  | cons a as ih =>
    rw [exec] at hex
    obtain ⟨u, hu, hex⟩ := Option.bind_eq_some_iff.mp hex
    have hrest := ih (hw.2 u hu) hex
    have hfirst := hstep s a u hw.1 (hw.2 u hu).head hu
    rw [List.countP_cons]
    omega

/-- What no step ends holds to the end. -/
theorem During.never (hstep : ∀ s a t, W s → S.step s a = some t → W t) (hs : W s)
    (as : List α) : S.During W s as := by
  induction as generalizing s with
  | nil => exact hs
  | cons a as ih => exact ⟨hs, fun t ht => ih (hstep s a t hs ht)⟩

/-- What the steps of the wait keep holds during it. -/
theorem During.and {I : σ → Prop}
    (hstep : ∀ s a t, W s → W t → I s → S.step s a = some t → I t) (hs : I s)
    (h : S.During W s as) : S.During (fun s => W s ∧ I s) s as := by
  induction as generalizing s with
  | nil => exact ⟨h, hs⟩
  | cons a as ih =>
    exact ⟨⟨h.1, hs⟩, fun t ht => ih (hstep s a t h.1 (h.2 t ht).head hs ht) (h.2 t ht)⟩

theorem During.last (h : S.During W s as) (hex : S.exec s as = some t) : W t := by
  induction as generalizing s with
  | nil =>
    cases hex
    exact h
  | cons a as ih =>
    rw [exec] at hex
    obtain ⟨u, hu, hex⟩ := Option.bind_eq_some_iff.mp hex
    exact ih (h.2 u hu) hex

end System

end Transition
