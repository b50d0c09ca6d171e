import Mathlib.Tactic.Common

/-!
# Programs that call upon a world

A sequential program computes, calls upon a world that answers, and loops. The world is a
relation, so that it may answer in many ways and may have changed by itself before it does.

* `Program.Runs`: what a program can give in a world, and the world it leaves.
* `Program.interp`: a program over one kind of calls made one over another kind, by an
  implementation of the calls that keeps a state of its own.
* `Program.runs_of_interp`: if the implementation of each call simulates the call, then that of
  every program simulates the program.
* `Loops.invariant`: the invariant rule for loops.
-/

variable {α β γ σ τ υ : Type}

/-- The loop that repeats `body` until it gives a result. -/
inductive Loops (body : β → σ → β ⊕ γ → σ → Prop) : β → σ → γ → σ → Prop
  | leave {b : β} {s t : σ} {c : γ} (h : body b s (.inr c) t) : Loops body b s c t
  | again {b b' : β} {s t u : σ} {c : γ} (h : body b s (.inl b') t) (hl : Loops body b' t c u) :
      Loops body b s c u

/-- What each turn preserves, and the last one turns into a result, holds of the result. -/
theorem Loops.invariant {body : β → σ → β ⊕ γ → σ → Prop} {I : β → σ → Prop}
    {Q : γ → σ → Prop} (hagain : ∀ b s b' t, I b s → body b s (.inl b') t → I b' t)
    (hleave : ∀ b s c t, I b s → body b s (.inr c) t → Q c t) {b : β} {s u : σ} {c : γ}
    (h : Loops body b s c u) (hI : I b s) : Q c u := by
  induction h with
  | leave h => exact hleave _ _ _ _ hI h
  | again h _ ih => exact ih (hagain _ _ _ _ hI h)

/-- A program over the calls `E`; `A e` is the type of the answers to `e`. -/
inductive Program (E : Type) (A : E → Type) : Type → Type 1
  /-- Give a result. -/
  | ret {α : Type} (a : α) : Program E A α
  /-- Call upon the world, and go on with its answer. -/
  | call {α : Type} (e : E) (next : A e → Program E A α) : Program E A α
  /-- Repeat `body` until it gives a result, and go on with that. -/
  | loop {α β γ : Type} (body : β → Program E A (β ⊕ γ)) (b : β) (next : γ → Program E A α) :
      Program E A α

namespace Program

variable {E E' : Type} {A : E → Type} {A' : E' → Type}

/-- One program after another. -/
def bind {α β : Type} : Program E A α → (α → Program E A β) → Program E A β
  | .ret a, k => k a
  | .call e next, k => .call e fun x => (next x).bind k
  | .loop body b next, k => .loop body b fun c => (next c).bind k

/-- A function of a program's result. -/
def map (f : α → β) (p : Program E A α) : Program E A β := p.bind fun a => .ret (f a)

/-- What a program can give in the world `W`, and the world it leaves. -/
def Runs (W : (e : E) → σ → A e → σ → Prop) : {α : Type} → Program E A α → σ → α → σ → Prop
  | _, .ret a, s, x, t => x = a ∧ t = s
  | _, .call e next, s, x, t => ∃ y u, W e s y u ∧ Runs W (next y) u x t
  | _, .loop body b next, s, x, t =>
      ∃ c u, Loops (fun b => Runs W (body b)) b s c u ∧ Runs W (next c) u x t

variable {W : (e : E) → σ → A e → σ → Prop} {s t : σ}

@[simp]
theorem runs_ret {a x : α} : Runs W (.ret a) s x t ↔ x = a ∧ t = s := Iff.rfl

@[simp]
theorem runs_call {e : E} {next : A e → Program E A α} {x : α} :
    Runs W (.call e next) s x t ↔ ∃ y u, W e s y u ∧ Runs W (next y) u x t := Iff.rfl

/-- A sequence runs by running its parts. -/
theorem runs_bind {p : Program E A α} {k : α → Program E A β} {x : β} :
    Runs W (p.bind k) s x t ↔ ∃ a u, Runs W p s a u ∧ Runs W (k a) u x t := by
  induction p generalizing s with
  | ret a =>
    constructor
    · intro h
      exact ⟨a, s, ⟨rfl, rfl⟩, h⟩
    · rintro ⟨_, _, ⟨rfl, rfl⟩, h⟩
      exact h
  | call e next ih =>
    constructor
    · rintro ⟨y, u, hy, h⟩
      obtain ⟨a, v, ha, hk⟩ := ih y |>.mp h
      exact ⟨a, v, ⟨y, u, hy, ha⟩, hk⟩
    · rintro ⟨a, v, ⟨y, u, hy, ha⟩, hk⟩
      exact ⟨y, u, hy, ih y |>.mpr ⟨a, v, ha, hk⟩⟩
  | loop body b next _ ih =>
    constructor
    · rintro ⟨c, u, hc, h⟩
      obtain ⟨a, v, ha, hk⟩ := ih c |>.mp h
      exact ⟨a, v, ⟨c, u, hc, ha⟩, hk⟩
    · rintro ⟨a, v, ⟨c, u, hc, ha⟩, hk⟩
      exact ⟨c, u, hc, ih c |>.mpr ⟨a, v, ha, hk⟩⟩

theorem runs_map {f : α → β} {p : Program E A α} {x : β} :
    Runs W (p.map f) s x t ↔ ∃ a, Runs W p s a t ∧ x = f a := by
  rw [map, runs_bind]
  constructor
  · rintro ⟨a, _, ha, rfl, rfl⟩
    exact ⟨a, ha, rfl⟩
  · rintro ⟨a, ha, rfl⟩
    exact ⟨a, t, ha, rfl, rfl⟩

/-- The state handed on with either outcome of a turn. -/
def handOn : (β ⊕ γ) × τ → (β × τ) ⊕ (γ × τ)
  | (.inl b, t) => .inl (b, t)
  | (.inr c, t) => .inr (c, t)

/-- A program whose calls are implemented by programs over other calls, with a state. -/
def interp (h : (e : E) → τ → Program E' A' (A e × τ)) :
    {α : Type} → Program E A α → τ → Program E' A' (α × τ)
  | _, .ret a, t => .ret (a, t)
  | _, .call e next, t => (h e t).bind fun x => interp h (next x.1) x.2
  | _, .loop body b next, t =>
      .loop (fun bt : _ × τ => (interp h (body bt.1) bt.2).map handOn) (b, t)
        fun c => interp h (next c.1) c.2

/-- Whenever the implementation `h` of a call gives an answer, the call could give it too, and
both go on in worlds that `R` relates. -/
def Simulates {W : (e : E') → σ → A' e → σ → Prop} (h : (e : E) → τ → Program E' A' (A e × τ))
    (V : (e : E) → υ → A e → υ → Prop) (R : σ → τ → υ → Prop) : Prop :=
  ∀ e s t v x s' t', R s t v → Runs W (h e t) s (x, t') s' → ∃ v', V e v x v' ∧ R s' t' v'

variable {V : (e : E) → υ → A e → υ → Prop} {W : (e : E') → σ → A' e → σ → Prop}
  {h : (e : E) → τ → Program E' A' (A e × τ)} {R : σ → τ → υ → Prop}

/-- What holds of every call holds of every program. -/
theorem runs_of_interp (hsim : Simulates (W := W) h V R) (p : Program E A α) {s s' : σ} {t t' : τ}
    {v : υ} {x : α} (hR : R s t v) (hruns : Runs W (p.interp h t) s (x, t') s') :
    ∃ v', Runs V p v x v' ∧ R s' t' v' := by
  induction p generalizing s s' t t' v with
  | ret a =>
    obtain ⟨hx, rfl⟩ := hruns
    cases hx
    exact ⟨v, ⟨rfl, rfl⟩, hR⟩
  | call e next ih =>
    obtain ⟨⟨y, t₁⟩, s₁, hy, hruns⟩ := runs_bind.mp hruns
    obtain ⟨v₁, hV, hR⟩ := hsim e s t v y s₁ t₁ hR hy
    obtain ⟨v', hv', hR⟩ := ih y hR hruns
    exact ⟨v', ⟨y, v₁, hV, hv'⟩, hR⟩
  | @loop _ β γ body b next ihbody ihnext =>
    obtain ⟨⟨c, t₁⟩, s₁, hloop, hruns⟩ := hruns
    -- the loops run side by side, by induction over the turns of the implementation
    have side : ∀ (bt : β × τ) (ct : γ × τ) (s₀ s₁ : σ),
        Loops (fun bt : β × τ => Runs W ((interp h (body bt.1) bt.2).map handOn)) bt s₀ ct s₁ →
        ∀ v, R s₀ bt.2 v →
          ∃ v', Loops (fun b => Runs V (body b)) bt.1 v ct.1 v' ∧ R s₁ ct.2 v' := by
      intro bt ct s₀ s₁ hl
      induction hl with
      | leave hb =>
        intro v hR
        obtain ⟨⟨a, t₂⟩, ha, heq⟩ := runs_map.mp hb
        cases a with
        | inl b' => cases heq
        | inr c' =>
          cases heq
          obtain ⟨v', hv', hR⟩ := ihbody _ hR ha
          exact ⟨v', .leave hv', hR⟩
      | again hb _ ih =>
        intro v hR
        obtain ⟨⟨a, t₂⟩, ha, heq⟩ := runs_map.mp hb
        cases a with
        | inr c' => cases heq
        | inl b' =>
          cases heq
          obtain ⟨v₁, hv₁, hR⟩ := ihbody _ hR ha
          obtain ⟨v', hv', hR⟩ := ih v₁ hR
          exact ⟨v', .again hv₁ hv', hR⟩
    obtain ⟨v₁, hl, hR⟩ := side (b, t) (c, t₁) s s₁ hloop v hR
    obtain ⟨v', hv', hR⟩ := ihnext c hR hruns
    exact ⟨v', ⟨c, v₁, hl, hv'⟩, hR⟩

end Program
