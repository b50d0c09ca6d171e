import Mathlib.Tactic.Common

/-!
# What arrives of a wire

A sender puts the list `w` on a wire and a receiver sees `p`: all of `w` and maybe more behind
it, or a proper prefix if the wire is cut.

* `Arrives p w`: the receiver's list `p` and the sender's list `w` agree as far as both go.
* `Arrives.split`: a field at the start of `w` has arrived as a whole, or the cut is inside it.
* `Arrives.exists_append`: what has been read is the start of a field that is not shorter.
-/

namespace Wire

variable {α : Type*}

/-- `p` is what arrives of `w`. -/
def Arrives (p w : List α) : Prop := w <+: p ∨ p <+: w

@[simp]
theorem arrives_append_left (a : List α) {p w : List α} :
    Arrives (a ++ p) (a ++ w) ↔ Arrives p w := by
  unfold Arrives
  rw [List.prefix_append_right_inj, List.prefix_append_right_inj]

/-- The field `a` at the start of a wire has arrived, or the wire is cut inside it. -/
theorem Arrives.split {p a w : List α} (h : Arrives p (a ++ w)) :
    (∃ q, p = a ++ q ∧ Arrives q w) ∨ (p <+: a ∧ p ≠ a) := by
  have hcases : a <+: p ∨ p <+: a := by
    rcases h with h | h
    · exact Or.inl ((List.prefix_append a w).trans h)
    · exact List.prefix_or_prefix_of_prefix (List.prefix_append a w) h
  by_cases ha : a <+: p
  · obtain ⟨q, rfl⟩ := ha
    exact Or.inl ⟨q, rfl, (arrives_append_left a).mp h⟩
  · refine Or.inr ⟨hcases.resolve_left ha, ?_⟩
    rintro rfl
    exact ha (List.prefix_refl p)

/-- What has been read is the start of a field that is not shorter. -/
theorem Arrives.exists_append {bs rest d w : List α} (h : Arrives (bs ++ rest) w) (hd : d <+: w)
    (hle : bs.length ≤ d.length) : ∃ d', d = bs ++ d' := by
  have hbs : bs <+: bs ++ rest := List.prefix_append bs rest
  have hpre : bs <+: d := by
    rcases h with h | h
    · exact List.prefix_of_prefix_length_le hbs (hd.trans h) hle
    · exact List.prefix_of_prefix_length_le (hbs.trans h) hd hle
  exact hpre.imp fun _ h => h.symm

/-- Behind a cut inside the field `a` nothing has arrived of the whole. -/
theorem not_prefix_of_cut {p a : List α} (hp : p <+: a) (hne : p ≠ a) (w : List α) :
    ¬ a ++ w <+: p := by
  intro h
  have hlen := h.length_le
  have hlen' := hp.length_le
  rw [List.length_append] at hlen
  exact hne (hp.eq_of_length (by omega))

end Wire
