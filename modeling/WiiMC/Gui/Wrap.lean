import WiiMC.Gui.Text

/-!
# What a wrapped text looks like

The lines are to be the text again, but for the spaces at which it has been broken. They are unless a
word that is too wide comes to the beginning of a line behind the first one: the loop goes back to the
space in front of that line, again and again, and writes in front of the buffer each time.

* `WellWrapped`: what wrapping is for.
* `fill`, `Fits`: the lines that words fill, and the texts that are wrapped well.
* `settlesFrom`: what the loop comes to from any line on.
* `wraps_iff`: the one by the other.
-/

namespace WiiMC.Gui

open Loop Words Wrap

variable (width : List UInt32 → ℤ) (maxWidth : ℤ)

/-- A text is not less wide than a part of it. -/
def Growing : Prop := ∀ s t : List UInt32, s <:+: t → width s ≤ width t

/-! ## What wrapping is for -/

/-- A line is not too wide, or one word is all that stands in it. -/
structure Narrow (line : List UInt32) : Prop where
  several : 1 < (words 32 line).length → width line ≤ maxWidth
  /-- With the space behind it, where it is not the last word. -/
  alone : ∀ w ∈ words 32 line, maxWidth < width w → line = w ∨ line = w ++ [32]

/-- The text is wrapped, and only cut off behind the twentieth line. -/
structure WellWrapped (text : WideText) (s : Wrap) : Prop where
  few : s.textDyn.length ≤ 20
  written : InBuffer text s.written
  broken : ∃ rest, Broken 32 s.textDyn text.chars rest ∧
    words 32 text.chars = s.textDyn.flatMap (words 32) ++ words 32 rest ∧
    (rest = [] ∨ s.textDyn.length = 20)
  narrow : ∀ line ∈ s.textDyn, Narrow width maxWidth line

/-- The loop ends, and has wrapped the text. -/
def Wraps (text : WideText) : Prop :=
  ∃ s, wrap width maxWidth text = some s ∧ WellWrapped width maxWidth text s

/-! ## The words that stand in the way -/

/-- The lines that words fill, each with its space: a word stands on the line before it if there is
room. -/
def fill : List UInt32 → List (List UInt32) → List (List UInt32)
  | line, [] => [line]
  | line, w :: ws =>
      if line = [] ∨ width (line ++ w) ≤ maxWidth then fill (line ++ w) ws else line :: fill w ws

/-- Every word but the first one fits together with its space, unless the words in front of it fill
twenty lines. -/
def Fits (text : WideText) : Prop :=
  ∀ i w, (cutBehind 32 text.chars)[i + 1]? = some w → maxWidth < width w →
    20 ≤ (fill width maxWidth [] ((cutBehind 32 text.chars).take (i + 1))).length

/-- The same from a line on that has been begun, where `k` lines are full. -/
def Roomy : ℕ → List UInt32 → List (List UInt32) → Prop
  | _, _, [] => True
  | k, line, w :: ws =>
      if line = [] ∨ width (line ++ w) ≤ maxWidth then Roomy k (line ++ w) ws
      else k + 1 < 20 → width w ≤ maxWidth ∧ Roomy (k + 1) w ws

/-- The same at the beginning of a line, where only the first one may begin with a word that is too
wide. -/
def Ready (pre : List UInt32) (k : ℕ) (line : List UInt32) (ws : List (List UInt32)) : Prop :=
  Roomy width maxWidth k line ws ∧
    (line = [] → pre ≠ [] → ∀ w ∈ ws.head?, width w ≤ maxWidth)

variable {width maxWidth} {text : WideText} {lines more : List (List UInt32)} {k : ℕ}
  {pre L line u w rest tail : List UInt32} {ws : List (List UInt32)} {c : UInt32} {written : List ℤ}
  {s t : Wrap}

/-- A word that fits on the line makes it longer. -/
theorem roomy_fits (h : L = [] ∨ width (L ++ w) ≤ maxWidth) :
    Roomy width maxWidth k L (w :: ws) ↔ Roomy width maxWidth k (L ++ w) ws := by
  rw [Roomy, if_pos h]

/-- Where there is no room behind a line, the word begins the next one. -/
theorem roomy_break (hL : L ≠ []) (hpre : pre ≠ []) (hwide : maxWidth < width (L ++ w)) :
    Roomy width maxWidth k L (w :: ws) ↔
      (k + 1 < 20 → Ready width maxWidth pre (k + 1) [] (w :: ws)) := by
  have hno : ¬(L = [] ∨ width (L ++ w) ≤ maxWidth) := fun h => h.elim hL (Int.not_le.mpr hwide)
  rw [Roomy, if_neg hno]
  refine forall_congr' fun hk => ?_
  rw [Ready, roomy_fits (.inl rfl), List.nil_append, and_comm]
  refine and_congr_right fun _ => ?_
  simp [hpre]

/-- A word that fits is put on the line. -/
theorem fill_fits (h : L = [] ∨ width (L ++ w) ≤ maxWidth) :
    fill width maxWidth L (w :: ws) = fill width maxWidth (L ++ w) ws := by
  rw [fill, if_pos h]

/-- A word that does not fit begins one line more. -/
theorem length_fill_break (hL : L ≠ []) (hwide : maxWidth < width (L ++ w)) :
    (fill width maxWidth L (w :: ws)).length = (fill width maxWidth w ws).length + 1 := by
  have hno : ¬(L = [] ∨ width (L ++ w) ≤ maxWidth) := fun h => h.elim hL (Int.not_le.mpr hwide)
  rw [fill, if_neg hno, List.length_cons]

/-- The words that are too wide come behind twenty lines. -/
theorem roomy_iff (hmono : Growing width) (hL : L ≠ []) (hws : [] ∉ ws) :
    Roomy width maxWidth k L ws ↔ ∀ i w, ws[i]? = some w → maxWidth < width w →
      20 ≤ k + (fill width maxWidth L (ws.take i)).length := by
  induction ws generalizing k L with
  | nil => exact iff_of_true trivial fun i w hw => absurd hw nofun
  | cons w ws ih =>
    rw [List.mem_cons, not_or] at hws
    have hone : (fill width maxWidth L ((w :: ws).take 0)).length = 1 := rfl
    by_cases hfits : width (L ++ w) ≤ maxWidth
    · rw [roomy_fits (.inr hfits), ih (List.append_ne_nil_of_left_ne_nil hL w) hws.2]
      have hw : width w ≤ maxWidth := Int.le_trans (hmono _ _ (List.suffix_append L w).isInfix) hfits
      constructor
      · intro h i w' hw' hwide
        cases i with
        | zero => exact absurd (Option.some.inj hw' ▸ hw) (Int.not_le.mpr hwide)
        | succ i =>
          rw [List.take_succ_cons, fill_fits (.inr hfits)]
          exact h i w' hw' hwide
      · intro h i w' hw' hwide
        have hbehind := h (i + 1) w' hw' hwide
        rwa [List.take_succ_cons, fill_fits (.inr hfits)] at hbehind
    · have hbreak : maxWidth < width (L ++ w) := Int.not_le.mp hfits
      have hno : ¬(L = [] ∨ width (L ++ w) ≤ maxWidth) := fun h => h.elim hL hfits
      rw [Roomy, if_neg hno, ih (Ne.symm hws.1) hws.2]
      constructor
      · intro h i w' hw' hwide
        cases i with
        | zero =>
          -- The word itself is too wide for the next line.
          rw [hone]
          by_contra hlt
          exact absurd (Option.some.inj hw' ▸ (h (by omega)).1) (Int.not_le.mpr hwide)
        | succ i =>
          rw [List.take_succ_cons, length_fill_break hL hbreak]
          by_cases hk : k + 1 < 20
          · have hbehind := (h hk).2 i w' hw' hwide
            omega
          · omega
      · intro h hk
        refine ⟨Int.not_lt.mp fun hwide => ?_, fun i w' hw' hwide => ?_⟩
        · have hfirst := h 0 w rfl hwide
          rw [hone] at hfirst
          omega
        · have hbehind := h (i + 1) w' hw' hwide
          rw [List.take_succ_cons, length_fill_break hL hbreak] at hbehind
          omega

/-- The first word of the text is not looked at. -/
theorem fits_iff (hmono : Growing width) :
    Fits width maxWidth text ↔ Ready width maxWidth [] 0 [] (cutBehind 32 text.chars) := by
  rw [Fits, Ready, and_iff_left fun _ h => absurd rfl h]
  have hnil : [] ∉ cutBehind 32 text.chars := (cut_cutBehind 32 text.chars).nil_not_mem
  cases hcut : cutBehind 32 text.chars with
  | nil => exact iff_of_true (fun i w hw => absurd hw nofun) trivial
  | cons w ws =>
    rw [hcut, List.mem_cons, not_or] at hnil
    rw [roomy_fits (.inl rfl), List.nil_append, roomy_iff hmono (Ne.symm hnil.1) hnil.2]
    refine forall₂_congr fun i w' => ?_
    rw [List.getElem?_cons_succ, List.take_succ_cons, fill_fits (.inl rfl), List.nil_append,
      Nat.zero_add]

/-! ## Lines -/

/-- A line that is not too wide is narrow. -/
theorem Narrow.of_le (hmono : Growing width) (h : width line ≤ maxWidth) :
    Narrow width maxWidth line :=
  ⟨fun _ => h, fun w hw hwide => absurd
    (Int.le_trans (hmono w line (infix_of_mem_words hw)) h) (Int.not_le.mpr hwide)⟩

/-- A word and what is behind it. -/
theorem Narrow.of_word (hu : 32 ∉ u) (c : UInt32) : Narrow width maxWidth (u ++ [c]) := by
  have hone : ∀ v : List UInt32, 32 ∉ v → (words 32 v).length ≤ 1 ∧ ∀ w ∈ words 32 v, w = v :=
    fun v hv => by
      rw [words_of_not_mem hv]
      split_ifs with hnil
      · exact ⟨by decide, nofun⟩
      · exact ⟨Nat.le_refl 1, fun w hw => List.mem_singleton.mp hw⟩
  by_cases hc : c = 32
  · obtain ⟨hlen, hword⟩ := hone u hu
    rw [hc]
    refine ⟨fun h => ?_, fun w hw _ => ?_⟩
    · rw [words_concat] at h
      exact absurd hlen (Nat.not_le.mpr h)
    · rw [words_concat] at hw
      exact .inr (hword w hw ▸ rfl)
  · have hmem : 32 ∉ u ++ [c] := by
      rw [List.mem_append, List.mem_singleton, not_or]
      exact ⟨hu, Ne.symm hc⟩
    obtain ⟨hlen, hword⟩ := hone _ hmem
    exact ⟨fun h => absurd hlen (Nat.not_le.mpr h), fun w hw _ => .inl (hword w hw).symm⟩

/-- The loop has ended, with `tail` wrapped behind `lines`. -/
structure Finished (width : List UInt32 → ℤ) (maxWidth : ℤ) (text : WideText)
    (lines : List (List UInt32)) (tail : List UInt32) (t : Wrap) : Prop where
  stopped : ¬Running text t
  written : InBuffer text t.written
  few : t.textDyn.length ≤ 20
  broken : ∃ more rest, t.textDyn = lines ++ more ∧ Broken 32 more tail rest ∧
    (rest = [] ∨ t.textDyn.length = 20) ∧ ∀ line ∈ more, Narrow width maxWidth line

/-- A loop that has come to the end of the text has finished. -/
theorem Ended.finished (h : Ended text lines t) (hlines : lines.length ≤ 20) :
    Finished width maxWidth text lines [] t := by
  refine ⟨h.not_running, h.written, h.textDyn ▸ hlines, [], [], ?_, .done [], .inl rfl, nofun⟩
  rw [h.textDyn, List.append_nil]

/-- Behind the twentieth line the text is cut off. -/
theorem finished_full (hlines : lines.length = 20) (hwritten : InBuffer text written) {p : ℕ} :
    Finished width maxWidth text lines tail (within lines p L line written) := by
  refine ⟨fun h => ?_, hwritten, hlines.le, [], tail, (List.append_nil _).symm, .done tail,
    .inr hlines, nofun⟩
  exact Nat.lt_irrefl 20 (hlines ▸ h.2)

/-- A line that is ended by a space is in front of the rest. -/
theorem Finished.drop (h : Finished width maxWidth text (lines ++ [line]) tail t)
    (hline : Narrow width maxWidth line) :
    Finished width maxWidth text lines (line ++ 32 :: tail) t := by
  obtain ⟨more, rest, htextDyn, hbroken, hrest, hnarrow⟩ := h.broken
  refine ⟨h.stopped, h.written, h.few, line :: more, rest, ?_, hbroken.drop, hrest, ?_⟩
  · rw [htextDyn, List.append_assoc, List.singleton_append]
  · exact List.forall_mem_cons.mpr ⟨hline, hnarrow⟩

/-- A line that has its space is in front of the rest. -/
theorem Finished.keep (h : Finished width maxWidth text (lines ++ [line]) tail t)
    (hline : Narrow width maxWidth line) (hend : line.getLast? = some 32 ∨ tail = []) :
    Finished width maxWidth text lines (line ++ tail) t := by
  obtain ⟨more, rest, htextDyn, hbroken, hrest, hnarrow⟩ := h.broken
  refine ⟨h.stopped, h.written, h.few, line :: more, rest, ?_, hbroken.keep hend, hrest, ?_⟩
  · rw [htextDyn, List.append_assoc, List.singleton_append]
  · exact List.forall_mem_cons.mpr ⟨hline, hnarrow⟩

/-! ## Words -/

/-- The states that the loop passes through. -/
abbrev Passes (width : List UInt32 → ℤ) (maxWidth : ℤ) (text : WideText) : Wrap → Wrap → Prop :=
  Reaches (Running text) (turn width maxWidth text)

/-- A word that fits. -/
theorem passes_fits (h : text.chars = pre ++ L ++ (u ++ 32 :: rest)) (hu : 32 ∉ u)
    (hrest : rest ≠ []) (hlines : lines.length < 20) (hwritten : InBuffer text written)
    (hfits : width (L ++ (u ++ [32])) ≤ maxWidth) :
    ∃ written', InBuffer text written' ∧
      Passes width maxWidth text (within lines pre.length L L written)
        (within lines pre.length (L ++ (u ++ [32])) (L ++ (u ++ [32])) written') := by
  obtain ⟨written', hwritten', hreach⟩ := reaches_word width maxWidth L hu h hlines hwritten
  have h' : text.chars = pre ++ (L ++ u) ++ 32 :: rest := by rw [h]; simp
  rw [← List.append_assoc] at hfits ⊢
  refine ⟨_, hwritten'.put h', hreach.trans (.turn (running_within h' hlines) ?_)⟩
  rw [turn_fits h' hrest hfits]
  exact .refl _

/-- A last word that fits. -/
theorem passes_last (h : text.chars = pre ++ L ++ (u ++ [c])) (hu : 32 ∉ u)
    (hlines : lines.length < 20) (hwritten : InBuffer text written)
    (hfits : width (L ++ (u ++ [c])) ≤ maxWidth) :
    ∃ t, Ended text (lines ++ [L ++ (u ++ [c])]) t ∧
      Passes width maxWidth text (within lines pre.length L L written) t := by
  obtain ⟨written', hwritten', hreach⟩ := reaches_word width maxWidth L hu h hlines hwritten
  have h' : text.chars = pre ++ (L ++ u) ++ [c] := by rw [h]; simp
  rw [← List.append_assoc] at hfits ⊢
  exact ⟨_, turn_last h' hfits hwritten', hreach.trans (.one (running_within h' hlines))⟩

/-- A word for which there is no room behind the line. -/
theorem passes_break (h : text.chars = pre ++ (L ++ [32]) ++ (u ++ c :: rest)) (hu : 32 ∉ u)
    (hend : c = 32 ∨ rest = []) (hlines : lines.length < 20) (hwritten : InBuffer text written)
    (hwide : maxWidth < width (L ++ [32] ++ (u ++ [c]))) :
    ∃ written', InBuffer text written' ∧
      Passes width maxWidth text (within lines pre.length (L ++ [32]) (L ++ [32]) written)
        (within (lines ++ [L]) (pre ++ (L ++ [32])).length [] [] written') := by
  obtain ⟨written', hwritten', hreach⟩ := reaches_word width maxWidth (L ++ [32]) hu h hlines hwritten
  have h' : text.chars = pre ++ (L ++ [32] ++ u) ++ c :: rest := by rw [h]; simp
  have hlen := length_within h'
  simp only [List.length_append] at hlen
  rw [← List.append_assoc] at hwide
  refine ⟨written' ++ [((L ++ [32] ++ u).length : ℤ), ((L ++ [32] ++ u).length + 1 : ℕ)] ++
    [(L.length : ℤ)], fun i hi => ?_, hreach.trans (.turn (running_within h' hlines) ?_)⟩
  · obtain hi | hi := List.mem_append.mp hi
    · exact hwritten'.put h' i hi
    · rw [List.mem_singleton.mp hi]
      omega
  · rw [turn_break h' hend hwide rfl (List.prefix_append _ _)]
    exact .refl _

/-- A first word that is too wide. -/
theorem passes_wide (h : text.chars = u ++ 32 :: rest) (hu : 32 ∉ u) (hlines : lines.length < 20)
    (hwritten : InBuffer text written) (hwide : maxWidth < width (u ++ [32])) :
    ∃ written', InBuffer text written' ∧
      Passes width maxWidth text (within lines 0 [] [] written)
        (within (lines ++ [u ++ [32]]) (u ++ [32]).length [] [] written') := by
  obtain ⟨written', hwritten', hreach⟩ := reaches_word width maxWidth [] hu
    (show text.chars = [] ++ [] ++ (u ++ 32 :: rest) from h) hlines hwritten
  have h' : text.chars = [] ++ u ++ 32 :: rest := h
  refine ⟨_, hwritten'.put h', hreach.trans (.turn (running_within h' hlines) ?_)⟩
  rw [List.length_nil, List.nil_append, turn_wide h hwide]
  exact .refl _

/-- An only word that is too wide. -/
theorem passes_wide_last (h : text.chars = u ++ [c]) (hu : 32 ∉ u) (hlines : lines.length < 20)
    (hwritten : InBuffer text written) (hwide : maxWidth < width (u ++ [c])) :
    ∃ t, Ended text (lines ++ [u ++ [c]]) t ∧
      Passes width maxWidth text (within lines 0 [] [] written) t := by
  obtain ⟨written', hwritten', hreach⟩ := reaches_word width maxWidth [] hu
    (show text.chars = [] ++ [] ++ (u ++ [c]) from h) hlines hwritten
  have h' : text.chars = [] ++ u ++ [c] := h
  exact ⟨_, turn_wide_last h hwide hwritten', hreach.trans (.one (running_within h' hlines))⟩

/-- A word that is too wide at the beginning of another line. -/
theorem passes_stuck (h : text.chars = pre ++ (u ++ c :: rest)) (hu : 32 ∉ u)
    (hend : c = 32 ∨ rest = []) (hpre : pre ≠ []) (hlines : lines.length < 20)
    (hwritten : InBuffer text written) (hwide : maxWidth < width (u ++ [c])) :
    ∃ t, -1 ∈ t.written ∧
      Passes width maxWidth text (within lines pre.length [] [] written) t := by
  have h' : text.chars = pre ++ [] ++ (u ++ c :: rest) := by rw [h, List.append_nil]
  obtain ⟨written', hwritten', hreach⟩ := reaches_word width maxWidth [] hu h' hlines hwritten
  have h'' : text.chars = pre ++ u ++ c :: rest := by rw [h, List.append_assoc]
  refine ⟨_, turn_stuck h'' hend hwide hpre, hreach.trans (.one (running_within h'' hlines))⟩

/-! ## The end of the text -/

/-- The loop ends well where it is ready, and writes in front of a buffer where it is not. -/
def Settles (width : List UInt32 → ℤ) (maxWidth : ℤ) (text : WideText) (ready : Prop)
    (lines : List (List UInt32)) (tail : List UInt32) (t : Wrap) : Prop :=
  ready ∧ Finished width maxWidth text lines tail t ∨ ¬ready ∧ -1 ∈ t.written

/-- Between the words nothing changes. -/
theorem ready_fits (hw : w ≠ []) (h : width (L ++ w) ≤ maxWidth) :
    Ready width maxWidth pre k L (w :: ws) ↔ Ready width maxWidth pre k (L ++ w) ws := by
  rw [Ready, Ready, roomy_fits (.inr h)]
  refine and_congr_right fun _ => iff_of_true (fun hL _ w' hw' => ?_) fun hnil => ?_
  · obtain rfl := Option.some.inj hw'
    rwa [hL, List.nil_append] at h
  · exact absurd hnil (List.append_ne_nil_of_right_ne_nil L hw)

/-- A word that does not fit begins a line, if there is one left. -/
theorem ready_break (hL : L ≠ []) (hwide : maxWidth < width (L ++ w)) :
    Ready width maxWidth pre k L (w :: ws) ↔
      (k + 1 < 20 → Ready width maxWidth (pre ++ L) (k + 1) [] (w :: ws)) := by
  rw [Ready, and_iff_left fun hnil => absurd hnil hL]
  exact roomy_break hL (List.append_ne_nil_of_right_ne_nil pre hL) hwide

/-- Behind a first word that is too wide there is no room. -/
theorem ready_wide (hmono : Growing width) (hw : w ≠ []) (hwide : maxWidth < width w) (hws : ws ≠ []) :
    Ready width maxWidth [] 0 [] (w :: ws) ↔ Ready width maxWidth w 1 [] ws := by
  obtain ⟨w', ws, rfl⟩ := List.exists_cons_of_ne_nil hws
  have hno : maxWidth < width (w ++ w') :=
    Int.lt_of_lt_of_le hwide (hmono _ _ (List.prefix_append w w').isInfix)
  rw [Ready, and_iff_left fun _ h => absurd rfl h, roomy_fits (.inl rfl), List.nil_append,
    roomy_break hw hw hno]
  exact forall_prop_of_true (by decide)

/-- From the beginning of a word on, with the words `ws` left. -/
def SettlesFrom (width : List UInt32 → ℤ) (maxWidth : ℤ) (text : WideText)
    (lines : List (List UInt32)) (pre L : List UInt32) (ws : List (List UInt32)) : Prop :=
  ∀ written, InBuffer text written → ∃ t,
    Passes width maxWidth text (within lines pre.length L L written) t ∧
      Settles width maxWidth text (Ready width maxWidth pre lines.length L ws) lines
        (L ++ ws.flatten) t

/-- The last word fits. -/
theorem settlesFrom_last (hmono : Growing width) (h : text.chars = pre ++ L ++ (u ++ [c]))
    (hu : 32 ∉ u) (hlines : lines.length < 20) (hfits : width (L ++ (u ++ [c])) ≤ maxWidth) :
    SettlesFrom width maxWidth text lines pre L [u ++ [c]] := by
  intro written hwritten
  have hw : u ++ [c] ≠ [] := List.concat_ne_nil c u
  obtain ⟨t, ht, hreach⟩ := passes_last h hu hlines hwritten hfits
  refine ⟨t, hreach, .inl ⟨?_, ?_⟩⟩
  · rw [ready_fits hw hfits]
    exact ⟨trivial, fun hnil => absurd hnil (List.append_ne_nil_of_right_ne_nil L hw)⟩
  · have hfinished : Finished width maxWidth text (lines ++ [L ++ (u ++ [c])]) [] t :=
      ht.finished (by rw [List.length_append]; exact hlines)
    have hkeep := hfinished.keep (.of_le hmono hfits) (.inr rfl)
    rwa [List.append_assoc] at hkeep

/-- A word that fits is followed by the rest of the text. -/
theorem settlesFrom_fits (h : text.chars = pre ++ L ++ (u ++ 32 :: ws.flatten)) (hu : 32 ∉ u)
    (hws : ws.flatten ≠ []) (hlines : lines.length < 20)
    (hfits : width (L ++ (u ++ [32])) ≤ maxWidth)
    (hnext : SettlesFrom width maxWidth text lines pre (L ++ (u ++ [32])) ws) :
    SettlesFrom width maxWidth text lines pre L ((u ++ [32]) :: ws) := by
  intro written hwritten
  obtain ⟨written', hwritten', hreach⟩ := passes_fits h hu hws hlines hwritten hfits
  obtain ⟨t, hreach', ht⟩ := hnext written' hwritten'
  rw [List.append_assoc, ← List.flatten_cons] at ht
  rw [ready_fits (List.concat_ne_nil 32 u) hfits]
  exact ⟨t, hreach.trans hreach', ht⟩

/-- The word begins another line, unless this was the twentieth. -/
theorem settlesFrom_break (hmono : Growing width)
    (h : text.chars = pre ++ (L ++ [32]) ++ (u ++ c :: ws.flatten)) (hu : 32 ∉ u)
    (hend : c = 32 ∨ ws = []) (hlines : lines.length < 20) (hfits : width (L ++ [32]) ≤ maxWidth)
    (hwide : maxWidth < width (L ++ [32] ++ (u ++ [c])))
    (hnext : lines.length + 1 < 20 → SettlesFrom width maxWidth text (lines ++ [L])
      (pre ++ (L ++ [32])) [] ((u ++ [c]) :: ws)) :
    SettlesFrom width maxWidth text lines pre (L ++ [32]) ((u ++ [c]) :: ws) := by
  intro written hwritten
  have hnarrow : Narrow width maxWidth L :=
    .of_le hmono (Int.le_trans (hmono _ _ (List.prefix_append L [32]).isInfix) hfits)
  have hlength : (lines ++ [L]).length = lines.length + 1 := by
    rw [List.length_append, List.length_singleton]
  obtain ⟨written', hwritten', hreach⟩ := passes_break h hu
    (hend.imp_right fun hnil => by rw [hnil, List.flatten_nil]) hlines hwritten hwide
  rw [ready_break (List.concat_ne_nil 32 L) hwide, List.append_assoc L, List.singleton_append]
  by_cases hfull : lines.length + 1 < 20
  · obtain ⟨t, hreach', ht⟩ := hnext hfull written' hwritten'
    rw [hlength, List.nil_append] at ht
    rw [forall_prop_of_true hfull]
    exact ⟨t, hreach.trans hreach', ht.imp (And.imp_right fun ht => ht.drop hnarrow) id⟩
  · have htwenty : (lines ++ [L]).length = 20 := by omega
    exact ⟨_, hreach, .inl ⟨fun hlt => absurd hlt hfull, (finished_full htwenty hwritten').drop hnarrow⟩⟩

/-- The only word of the text is too wide. -/
theorem settlesFrom_wide_last (h : text.chars = u ++ [c]) (hu : 32 ∉ u)
    (hwide : maxWidth < width (u ++ [c])) :
    SettlesFrom width maxWidth text [] [] [] [u ++ [c]] := by
  intro written hwritten
  have hnone : ([] : List (List UInt32)).length < 20 := Nat.zero_lt_succ 19
  obtain ⟨t, ht, hreach⟩ := passes_wide_last h hu hnone hwritten hwide
  refine ⟨t, hreach, .inl ⟨?_, ?_⟩⟩
  · rw [Ready, roomy_fits (.inl rfl)]
    exact ⟨trivial, fun _ hnil => absurd rfl hnil⟩
  · have hfinished : Finished width maxWidth text ([] ++ [u ++ [c]]) [] t :=
      ht.finished (Nat.le_add_left 1 19)
    have hkeep := hfinished.keep (.of_word hu c) (.inr rfl)
    exact hkeep

/-- The first word of the text is too wide, and others follow. -/
theorem settlesFrom_wide (hmono : Growing width) (h : text.chars = u ++ 32 :: ws.flatten)
    (hu : 32 ∉ u) (hws : ws ≠ []) (hwide : maxWidth < width (u ++ [32]))
    (hnext : SettlesFrom width maxWidth text [u ++ [32]] (u ++ [32]) [] ws) :
    SettlesFrom width maxWidth text [] [] [] ((u ++ [32]) :: ws) := by
  intro written hwritten
  have hnone : ([] : List (List UInt32)).length < 20 := Nat.zero_lt_succ 19
  obtain ⟨written', hwritten', hreach⟩ := passes_wide h hu hnone hwritten hwide
  obtain ⟨t, hreach', ht⟩ := hnext written' hwritten'
  have hready := ready_wide hmono (List.concat_ne_nil 32 u) hwide hws
  refine ⟨t, hreach.trans hreach', ht.imp (fun ht => ⟨hready.mpr ht.1, ?_⟩)
    (And.imp_left (mt hready.mp))⟩
  have hfinished : Finished width maxWidth text ([] ++ [u ++ [32]]) ws.flatten t := ht.2
  exact hfinished.keep (.of_word hu 32) (.inl List.getLast?_concat)

/-- A word that is too wide for a line of its own stops the loop. -/
theorem settlesFrom_stuck (h : text.chars = pre ++ (u ++ c :: ws.flatten)) (hu : 32 ∉ u)
    (hend : c = 32 ∨ ws = []) (hpre : pre ≠ []) (hlines : lines.length < 20)
    (hwide : maxWidth < width (u ++ [c])) :
    SettlesFrom width maxWidth text lines pre [] ((u ++ [c]) :: ws) := by
  intro written hwritten
  obtain ⟨t, ht, hreach⟩ := passes_stuck h hu
    (hend.imp_right fun hnil => by rw [hnil, List.flatten_nil]) hpre hlines hwritten hwide
  refine ⟨t, hreach, .inr ⟨fun hready => ?_, ht⟩⟩
  exact absurd (hready.2 rfl hpre _ rfl) (Int.not_le.mpr hwide)

/-- The induction is on the words that are left, where a word that begins another line is met
twice. -/
theorem settlesFrom (hmono : Growing width) (hcut : Cut 32 ws) (hws : ws ≠ [])
    (h : text.chars = pre ++ L ++ ws.flatten) (hL : L = [] ∨ ∃ L₀, L = L₀ ++ [32])
    (hfits : L ≠ [] → width L ≤ maxWidth) (hfirst : pre = [] → lines = [])
    (hlines : lines.length < 20) : SettlesFrom width maxWidth text lines pre L ws := by
  -- The measure falls with every word, and with every line that is broken off.
  induction hn : 2 * ws.length + (if L = [] then 0 else 1) using Nat.strong_induction_on
    generalizing ws pre L lines with
  | _ n ih =>
  obtain ⟨w, ws, rfl⟩ := List.exists_cons_of_ne_nil hws
  obtain ⟨u, c, rfl, hu, hend, htail⟩ := hcut.head
  rw [List.length_cons] at hn
  rw [List.flatten_cons] at h
  have hword : text.chars = pre ++ L ++ (u ++ c :: ws.flatten) := by rw [h]; simp
  by_cases hnarrow : width (L ++ (u ++ [c])) ≤ maxWidth
  -- the word fits into the line
  · by_cases hlast : ws = []
    · subst hlast
      exact settlesFrom_last hmono hword hu hlines hnarrow
    · obtain rfl := hend.resolve_right hlast
      refine settlesFrom_fits hword hu (htail.flatten_ne_nil hlast) hlines hnarrow ?_
      exact ih _ (by split_ifs at hn ⊢ <;> omega) htail hlast (by rw [h]; simp)
        (.inr ⟨L ++ u, (List.append_assoc _ _ _).symm⟩) (fun _ => hnarrow) hfirst hlines rfl
  · have hwide : maxWidth < width (L ++ (u ++ [c])) := Int.not_le.mp hnarrow
    -- it does not: it stands alone, or the line is broken in front of it
    obtain rfl | ⟨L₀, rfl⟩ := hL
    · rw [List.append_nil] at h hword
      by_cases hpre : pre = []
      · obtain rfl := hfirst hpre
        subst hpre
        by_cases hlast : ws = []
        · subst hlast
          exact settlesFrom_wide_last hword hu hwide
        · obtain rfl := hend.resolve_right hlast
          refine settlesFrom_wide hmono hword hu hlast hwide ?_
          exact ih _ (by omega) htail hlast (by rw [h]; simp) (.inl rfl) (absurd rfl)
            (fun hnil => absurd hnil (List.concat_ne_nil 32 u)) (Nat.le_add_left 2 18) rfl
      · exact settlesFrom_stuck hword hu hend hpre hlines hwide
    · have hL : L₀ ++ [32] ≠ [] := List.concat_ne_nil 32 L₀
      rw [if_neg hL] at hn
      refine settlesFrom_break hmono hword hu hend hlines (hfits hL) hwide fun hmore => ?_
      exact ih _ (by rw [if_pos rfl, List.length_cons]; omega) hcut hws
        (by rw [h]; simp) (.inl rfl) (absurd rfl)
        (fun hnil => absurd hnil (List.append_ne_nil_of_right_ne_nil pre hL))
        (by rw [List.length_append]; exact hmore) rfl

/-- The loop comes to an end, which depends on the words. -/
theorem exists_settles (hmono : Growing width) (maxWidth : ℤ) (text : WideText) :
    ∃ t, Passes width maxWidth text start t ∧
      Settles width maxWidth text (Fits width maxWidth text) [] text.chars t := by
  rw [fits_iff hmono]
  have hflatten := flatten_cutBehind 32 text.chars
  by_cases hws : cutBehind 32 text.chars = []
  · rw [hws, List.flatten_nil] at hflatten
    have hended : Ended text [] start :=
      ⟨rfl, (congrArg List.length hflatten : 0 = text.chars.length), nofun⟩
    rw [hws, ← hflatten]
    refine ⟨start, .refl _, .inl ⟨⟨trivial, fun _ hnil => absurd rfl hnil⟩, ?_⟩⟩
    exact hended.finished (Nat.zero_le 20)
  · have hsettles : SettlesFrom width maxWidth text [] [] [] (cutBehind 32 text.chars) :=
      settlesFrom hmono (cut_cutBehind 32 text.chars) hws hflatten.symm (.inl rfl) (absurd rfl)
        (fun _ => rfl) (Nat.zero_lt_succ 19)
    obtain ⟨t, hreach, ht⟩ := hsettles [] nofun
    rw [List.nil_append, hflatten] at ht
    exact ⟨t, hreach, ht⟩

/-- The text is wrapped if and only if no word behind the first one is too wide for a line, or
twenty lines are full in front of it. -/
theorem wraps_iff (hmono : Growing width) (maxWidth : ℤ) (text : WideText) :
    Wraps width maxWidth text ↔ Fits width maxWidth text := by
  obtain ⟨s, hs⟩ := exists_wrap width maxWidth text
  obtain ⟨t, hreach, ⟨hfits, ht⟩ | ⟨hno, ht⟩⟩ := exists_settles hmono maxWidth text
  · obtain rfl := hreach.run_eq ht.stopped hs
    obtain ⟨more, rest, htextDyn, hbroken, hrest, hnarrow⟩ := ht.broken
    obtain rfl : s.textDyn = more := htextDyn
    exact iff_of_true
      ⟨s, hs, ht.few, ht.written, ⟨rest, hbroken, hbroken.words_eq, hrest⟩, hnarrow⟩ hfits
  · -- What has been written in front of the buffer stays written to the end.
    have hend : -1 ∈ s.written :=
      (hreach.of_run hs).invariant (I := fun s => -1 ∈ s.written) (fun _ _ => mem_written_turn) ht
    refine iff_of_false (fun ⟨s', hs', hwell⟩ => ?_) hno
    obtain rfl : s = s' := Option.some.inj (hs.symm.trans hs')
    exact absurd (hwell.written _ hend).1 (by decide)

/-- Where each word fits with the space behind it, the text is wrapped. -/
theorem fits_of_le (h : ∀ w ∈ cutBehind 32 text.chars, width w ≤ maxWidth) :
    Fits width maxWidth text := fun _ w hw hwide =>
  absurd (h w (List.mem_of_getElem? hw)) (Int.not_le.mpr hwide)

/-- The number of characters. -/
theorem growing_length : Growing fun l => (l.length : ℤ) := fun _ _ h =>
  Int.ofNat_le.mpr h.length_le

theorem wraps_iff_three :
    Wraps (fun l => (l.length : ℤ)) 5 ⟨[97, 32, 98, 98, 98, 32, 99], by decide, by decide⟩ :=
  (wraps_iff growing_length 5 _).mpr (fits_of_le (by decide +kernel))

/-- The second word is too wide: the loop writes in front of the buffer, and the word is repeated on
every line up to the twentieth. -/
theorem not_wraps_second : ∃ text : WideText, text.chars = [97, 32, 98, 98, 98, 32, 99] ∧
    Growing (fun l => (l.length : ℤ)) ∧ ¬Wraps (fun l => (l.length : ℤ)) 2 text ∧
      (wrap (fun l => (l.length : ℤ)) 2 text).map Wrap.textDyn =
        some ([97] :: List.replicate 19 [98, 98, 98, 32]) := by
  let text : WideText := ⟨[97, 32, 98, 98, 98, 32, 99], by decide, by decide⟩
  refine ⟨text, rfl, growing_length, fun ⟨s, hs, hwell⟩ => ?_, by decide +kernel⟩
  have hrun : (wrap (fun l => (l.length : ℤ)) 2 text).all fun s => decide (-1 ∈ s.written) := by
    decide +kernel
  rw [hs, Option.all_some, decide_eq_true_iff] at hrun
  exact absurd (hwell.written _ hrun).1 (by decide)

end WiiMC.Gui
