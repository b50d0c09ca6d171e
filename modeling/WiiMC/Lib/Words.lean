import Mathlib.Data.List.Infix
import Mathlib.Tactic.Common

/-!
# Words and lines

A text is a list of words with separators between them.

* `words`: the words, where separators next to each other count as one.
* `cutBehind`, `Cut`: the text is cut behind each separator.
* `Broken`: the text is broken into lines, at separators that may be dropped.
* `Broken.words_eq`: nothing but separators is lost.
-/

namespace Words

variable {α : Type*} [DecidableEq α] {sep : α} {l t rest u : List α} {ls : List (List α)} {c : α}

/-! ## Words -/

/-- The words of a text. -/
def words (sep : α) (l : List α) : List (List α) := (l.splitOn sep).filter (· ≠ [])

/-- There are no words in nothing. -/
@[simp] theorem words_nil (sep : α) : words sep [] = [] := by simp [words]

/-- A separator ends the words in front of it. -/
theorem words_append_cons (sep : α) (l t : List α) :
    words sep (l ++ sep :: t) = words sep l ++ words sep t := by
  rw [words, List.splitOn_append_cons_self, List.filter_append, words, words]

/-- A separator at the end makes no word. -/
theorem words_concat (sep : α) (l : List α) : words sep (l ++ [sep]) = words sep l := by
  rw [words_append_cons, words_nil, List.append_nil]

/-- Without a separator there is one word, or none. -/
theorem words_of_not_mem (h : sep ∉ l) : words sep l = if l = [] then [] else [l] := by
  rw [words, List.splitOn_eq_singleton h]
  by_cases hl : l = [] <;> simp [hl]

/-- A word is a part of the text. -/
theorem infix_of_mem_words {w : List α} (h : w ∈ words sep l) : w <:+: l := by
  induction hn : l.length using Nat.strong_induction_on generalizing l with
  | _ n ih =>
    by_cases hsep : sep ∈ l
    · obtain ⟨a, b, rfl⟩ := List.append_of_mem hsep
      rw [words_append_cons, List.mem_append] at h
      rw [List.length_append, List.length_cons] at hn
      obtain h | h := h
      · exact (ih a.length (by omega) h rfl).trans (List.prefix_append a _).isInfix
      · exact (ih b.length (by omega) h rfl).trans
          ((List.suffix_cons sep b).trans (List.suffix_append a _)).isInfix
    · rw [words_of_not_mem hsep] at h
      split_ifs at h
      · exact absurd h List.not_mem_nil
      · exact List.mem_singleton.mp h ▸ List.infix_rfl

/-! ## Cuts -/

/-- The text, cut behind each separator. -/
def cutBehind (sep : α) : List α → List (List α)
  | [] => []
  | c :: l =>
      if c = sep then [c] :: cutBehind sep l
      else match cutBehind sep l with
      | [] => [[c]]
      | w :: ws => (c :: w) :: ws

/-- The parts are put together again. -/
theorem flatten_cutBehind (sep : α) (l : List α) : (cutBehind sep l).flatten = l := by
  induction l with
  | nil => rfl
  | cons c l ih =>
    rw [cutBehind]
    split_ifs
    · rw [List.flatten_cons, ih, List.singleton_append]
    · cases hcut : cutBehind sep l with
      | nil =>
        rw [hcut] at ih
        rw [← ih]
        rfl
      | cons w ws =>
        rw [hcut] at ih
        rw [← ih]
        rfl

/-- Each piece is a word without separators and one element more, which is a separator unless the
piece is the last one. -/
inductive Cut (sep : α) : List (List α) → Prop
  | nil : Cut sep []
  | last {u : List α} {c : α} (hu : sep ∉ u) : Cut sep [u ++ [c]]
  | cons {u : List α} {ws : List (List α)} (hu : sep ∉ u) (hws : ws ≠ []) (h : Cut sep ws) :
      Cut sep ((u ++ [sep]) :: ws)

/-- Each part but the last ends in its only separator. -/
theorem cut_cutBehind (sep : α) (l : List α) : Cut sep (cutBehind sep l) := by
  induction l with
  | nil => exact .nil
  | cons c l ih =>
    rw [cutBehind]
    split_ifs with hc
    · subst hc
      by_cases hl : cutBehind c l = []
      · rw [hl]
        exact .last List.not_mem_nil
      · exact .cons List.not_mem_nil hl ih
    · have hcons : ∀ {u : List α}, sep ∉ u → sep ∉ c :: u := fun hu hmem =>
        (List.mem_cons.mp hmem).elim (fun heq => hc heq.symm) hu
      generalize cutBehind sep l = ws at ih
      cases ih with
      | nil => exact .last List.not_mem_nil
      | last hu => exact .last (hcons hu)
      | cons hu hws h => exact .cons (hcons hu) hws h

omit [DecidableEq α] in
/-- The first part ends in its only separator, or is the last one. -/
theorem Cut.head {w : List α} {ws : List (List α)} (h : Cut sep (w :: ws)) :
    ∃ u c, w = u ++ [c] ∧ sep ∉ u ∧ (c = sep ∨ ws = []) ∧ Cut sep ws := by
  cases h with
  | last hu => exact ⟨_, _, rfl, hu, .inr rfl, .nil⟩
  | cons hu _ h => exact ⟨_, _, rfl, hu, .inl rfl, h⟩

omit [DecidableEq α] in
/-- No part is empty. -/
theorem Cut.nil_not_mem {ws : List (List α)} (h : Cut sep ws) : [] ∉ ws := by
  induction h with
  | nil => exact List.not_mem_nil
  | last => simp
  | cons _ _ _ ih => simpa using ih

omit [DecidableEq α] in
/-- Some parts are some elements. -/
theorem Cut.flatten_ne_nil {ws : List (List α)} (h : Cut sep ws) (hws : ws ≠ []) :
    ws.flatten ≠ [] := by
  obtain ⟨w, ws, rfl⟩ := List.exists_cons_of_ne_nil hws
  have hhead := h.nil_not_mem
  rw [List.mem_cons, not_or] at hhead
  rw [List.flatten_cons]
  exact List.append_ne_nil_of_left_ne_nil (Ne.symm hhead.1) _

/-! ## Lines -/

/-- The text is broken into lines, each at a separator, which is dropped or stays at the end of the
line; `rest` is left over. -/
inductive Broken (sep : α) : List (List α) → List α → List α → Prop
  | done (t : List α) : Broken sep [] t t
  | drop {l t rest : List α} {ls : List (List α)} (h : Broken sep ls t rest) :
      Broken sep (l :: ls) (l ++ sep :: t) rest
  | keep {l t rest : List α} {ls : List (List α)} (hl : l.getLast? = some sep ∨ t = [])
      (h : Broken sep ls t rest) : Broken sep (l :: ls) (l ++ t) rest

/-- The words are those of the lines, in their order. -/
theorem Broken.words_eq (h : Broken sep ls t rest) :
    words sep t = ls.flatMap (words sep) ++ words sep rest := by
  induction h with
  | done t => rfl
  | drop _ ih => rw [words_append_cons, ih, List.flatMap_cons, List.append_assoc]
  | @keep l t rest ls hl h ih =>
    rw [List.flatMap_cons, List.append_assoc, ← ih]
    obtain hl | rfl := hl
    · obtain ⟨a, rfl⟩ := List.getLast?_eq_some_iff.mp hl
      rw [words_concat, List.append_assoc, List.singleton_append, words_append_cons]
    · rw [List.append_nil, words_nil, List.append_nil]

end Words
