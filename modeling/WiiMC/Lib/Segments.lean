import WiiMC.Lib.Bytes

/-!
# Segments of a path and percent escapes

* `Segments.join`: a path from its segments, each behind a separator.
* `Segments.exists_join`, `Segments.join_inj`: every path has segments, and only one list of them.
* `Segments.close`: a path from its segments, each in front of a separator.
* `Segments.close_prefix_iff`: such paths are prefixes of each other where their segments are.
* `Percent.Decodes`: the text that a text with percent escapes stands for. The predicate `esc` says
  which bytes may be written as an escape.
* `Percent.Decodes.join`: a separator that is never escaped keeps the segments apart.
-/

namespace Segments

variable {α : Type*} {sep : α} {s s' : List α} {ss ss' : List (List α)}

/-- The path with the segments `ss`, each behind a separator. -/
def join (sep : α) (ss : List (List α)) : List α := ss.flatMap (sep :: ·)

/-- No segments are joined to nothing. -/
@[simp]
theorem join_nil : join sep [] = [] := rfl

/-- Each segment has its separator in front. -/
@[simp]
theorem join_cons : join sep (s :: ss) = sep :: (s ++ join sep ss) := rfl

/-- Two groups of segments are joined one after the other. -/
@[simp]
theorem join_append : join sep (ss ++ ss') = join sep ss ++ join sep ss' := List.flatMap_append

/-- No segment has a separator in it. -/
def Plain (sep : α) (ss : List (List α)) : Prop := ∀ s ∈ ss, sep ∉ s

/-- The rest of plain segments is plain. -/
theorem Plain.tail (h : Plain sep (s :: ss)) : Plain sep ss :=
  fun s' hs' => h s' (List.mem_cons_of_mem s hs')

/-- One more segment in front is plain, if it has no separator in it. -/
theorem plain_cons (hs : sep ∉ s) (h : Plain sep ss) : Plain sep (s :: ss) :=
  List.forall_mem_cons.mpr ⟨hs, h⟩

/-- One more segment behind is plain, if it has no separator in it. -/
theorem plain_concat (h : Plain sep ss) (hs : sep ∉ s) : Plain sep (ss ++ [s]) := by
  intro t ht
  rcases List.mem_append.mp ht with ht | ht
  · exact h t ht
  · rwa [List.mem_singleton.mp ht]

/-- A text is a first segment, and a path behind it. -/
theorem exists_append_join (sep : α) (l : List α) :
    ∃ s ss, sep ∉ s ∧ Plain sep ss ∧ l = s ++ join sep ss := by
  induction l with
  | nil => exact ⟨[], [], List.not_mem_nil, nofun, rfl⟩
  | cons c l ih =>
      obtain ⟨s, ss, hs, hss, rfl⟩ := ih
      by_cases hc : c = sep
      · subst hc
        exact ⟨[], s :: ss, List.not_mem_nil, plain_cons hs hss, rfl⟩
      · refine ⟨c :: s, ss, ?_, hss, rfl⟩
        rw [List.mem_cons, not_or]
        exact ⟨Ne.symm hc, hs⟩

/-- What starts with a separator is a path. -/
theorem exists_join {l : List α} (h : l.head? = some sep) :
    ∃ ss, ss ≠ [] ∧ Plain sep ss ∧ l = join sep ss := by
  cases l with
  | nil => cases h
  | cons c l =>
      cases h
      obtain ⟨s, ss, hs, hss, hl⟩ := exists_append_join sep l
      exact ⟨s :: ss, List.cons_ne_nil s ss, plain_cons hs hss, congrArg _ hl⟩

/-- The first segment ends at the first separator. -/
theorem append_join_inj (hs : sep ∉ s) (hs' : sep ∉ s')
    (h : s ++ join sep ss = s' ++ join sep ss') : s = s' ∧ join sep ss = join sep ss' := by
  induction s generalizing s' with
  | nil =>
      cases s' with
      | nil => exact ⟨rfl, h⟩
      | cons c s' =>
          cases ss with
          | nil => cases h
          | cons t ss =>
              -- the separator in front of `t` would be the first element of `s'`
              rw [List.nil_append, join_cons, List.cons_append, List.cons.injEq] at h
              exact absurd (h.1 ▸ List.mem_cons_self) hs'
  | cons c s ih =>
      cases s' with
      | nil =>
          cases ss' with
          | nil => cases h
          | cons t ss' =>
              rw [List.nil_append, join_cons, List.cons_append, List.cons.injEq] at h
              exact absurd (h.1 ▸ List.mem_cons_self) hs
      | cons c' s' =>
          rw [List.cons_append, List.cons_append, List.cons.injEq] at h
          obtain ⟨rfl, h⟩ := h
          obtain ⟨rfl, hrest⟩ := ih (fun hm => hs (List.mem_cons_of_mem _ hm))
            (fun hm => hs' (List.mem_cons_of_mem _ hm)) h
          exact ⟨rfl, hrest⟩

/-- A path has only one list of segments. -/
theorem join_inj (hss : Plain sep ss) (hss' : Plain sep ss') (h : join sep ss = join sep ss') :
    ss = ss' := by
  induction ss generalizing ss' with
  | nil =>
      cases ss' with
      | nil => rfl
      | cons s' ss' => cases h
  | cons s ss ih =>
      cases ss' with
      | nil => cases h
      | cons s' ss' =>
          obtain ⟨rfl, hrest⟩ := append_join_inj (hss s List.mem_cons_self)
            (hss' s' List.mem_cons_self) (List.cons.inj h).2
          rw [ih hss.tail hss'.tail hrest]

/-- Splitting at the separator returns the segments. -/
theorem splitOn_append_join [BEq α] [LawfulBEq α] (hs : sep ∉ s) (hss : Plain sep ss) :
    (s ++ join sep ss).splitOn sep = s :: ss := by
  induction ss generalizing s with
  | nil => rw [join_nil, List.append_nil, List.splitOn_eq_singleton hs]
  | cons t ss ih =>
      rw [join_cons, List.splitOn_append_cons_self_of_not_mem hs,
        ih (hss t List.mem_cons_self) hss.tail]

/-! ## Separators at the end -/

/-- The path with the segments `ss`, each in front of a separator. -/
def close (sep : α) (ss : List (List α)) : List α := ss.flatMap (· ++ [sep])

/-- No segments are closed to nothing. -/
@[simp]
theorem close_nil : close sep [] = [] := rfl

/-- Each segment has its separator behind it. -/
@[simp]
theorem close_cons : close sep (s :: ss) = s ++ sep :: close sep ss := by
  rw [close, List.flatMap_cons, List.append_assoc]
  rfl

/-- Two groups of segments are closed one after the other. -/
@[simp]
theorem close_append : close sep (ss ++ ss') = close sep ss ++ close sep ss' := List.flatMap_append

/-- Closed segments end in a separator. -/
theorem getLast?_close (h : ss ≠ []) : (close sep ss).getLast? = some sep := by
  obtain ⟨init, last, rfl⟩ := (List.eq_nil_or_concat ss).resolve_left h
  rw [List.concat_eq_append, close_append, close_cons, close_nil]
  simp

/-- The first separators of two texts are at the same place if one begins the other. -/
theorem append_cons_prefix_iff {a b : List α} (hs : sep ∉ s) (hs' : sep ∉ s') :
    s ++ sep :: a <+: s' ++ sep :: b ↔ s = s' ∧ a <+: b := by
  induction s generalizing s' with
  | nil =>
      cases s' with
      | nil => simp
      | cons c s' =>
          have hc : sep ≠ c := fun h => hs' (h ▸ List.mem_cons_self)
          simp [hc]
  | cons c s ih =>
      cases s' with
      | nil =>
          have hc : c ≠ sep := fun h => hs (h ▸ List.mem_cons_self)
          simp [hc]
      | cons c' s' =>
          rw [List.cons_append, List.cons_append, List.cons_prefix_cons,
            ih (fun hm => hs (List.mem_cons_of_mem _ hm)) fun hm => hs' (List.mem_cons_of_mem _ hm),
            List.cons.injEq, and_assoc]

/-- A path begins with another one where its segments do. -/
theorem close_prefix_iff (hss : Plain sep ss) (hss' : Plain sep ss') :
    close sep ss <+: close sep ss' ↔ ss <+: ss' := by
  induction ss generalizing ss' with
  | nil => simp
  | cons s ss ih =>
      cases ss' with
      | nil => simp
      | cons s' ss' =>
          rw [close_cons, close_cons, append_cons_prefix_iff (hss s List.mem_cons_self)
            (hss' s' List.mem_cons_self), ih hss.tail hss'.tail, List.cons_prefix_cons]

/-- The last segment without its separator. -/
theorem close_append_eq_join {t : List α} {ts : List (List α)} (h : ss ++ [s] = t :: ts) :
    close sep ss ++ s = t ++ join sep ts := by
  induction ss generalizing t ts with
  | nil =>
      obtain ⟨rfl, rfl⟩ := List.cons.inj h
      simp
  | cons r ss ih =>
      rw [List.cons_append] at h
      obtain ⟨rfl, rfl⟩ := List.cons.inj h
      obtain ⟨r', rest, hrest⟩ := List.exists_cons_of_ne_nil
        (List.append_ne_nil_of_right_ne_nil ss (List.cons_ne_nil s []))
      rw [close_cons, List.append_assoc, List.cons_append, ih hrest, hrest, join_cons]

/-- Separators are not next to each other where no segment is empty. -/
theorem not_doubled (hs : sep ∉ s) (hss : Plain sep ss) (hne : [] ∉ ss) :
    ¬[sep, sep] <:+: s ++ join sep ss := by
  induction ss generalizing s with
  | nil =>
      rintro hin
      rw [join_nil, List.append_nil] at hin
      exact hs (hin.subset List.mem_cons_self)
  | cons t ss ih =>
      rintro ⟨u, v, huv⟩
      have hfirst : ∀ w, sep :: w ≠ t ++ join sep ss := fun w hw => by
        cases t with
        | nil => exact hne List.mem_cons_self
        | cons c t => exact hss _ List.mem_cons_self ((List.cons.inj hw).1 ▸ List.mem_cons_self)
      rw [join_cons, List.append_assoc] at huv
      rcases List.append_eq_append_iff.mp huv with ⟨w, hw, hrest⟩ | ⟨w, hw, hrest⟩
      · cases w with
        | nil => exact hfirst _ (List.cons.inj hrest).2
        | cons c w =>
            obtain rfl := (List.cons.inj hrest).1
            exact hs (hw ▸ List.mem_append_right _ List.mem_cons_self)
      · cases w with
        | nil => exact hfirst _ (List.cons.inj hrest).2.symm
        | cons c w =>
            -- Both are behind the first segment.
            refine ih (hss t List.mem_cons_self) hss.tail (fun h => hne (.tail _ h)) ⟨w, v, ?_⟩
            rw [List.append_assoc]
            exact (List.cons.inj hrest).2.symm

end Segments

namespace Percent

open Bytes

/-- The byte with the hexadecimal digits `a` and `b`. -/
def byte (a b : UInt8) : UInt8 := UInt8.ofNat (digitVal a * 16 + digitVal b)

/-- `s` stands for `t`; the bytes that are written as an escape are among `esc`. -/
inductive Decodes (esc : UInt8 → Prop) : List UInt8 → List UInt8 → Prop
  | nil : Decodes esc [] []
  | plain {c : UInt8} {s t : List UInt8} (hc : c ≠ 37) (h : Decodes esc s t) :
      Decodes esc (c :: s) (c :: t)
  | escape {a b : UInt8} {s t : List UInt8} (ha : isXDigit a = true) (hb : isXDigit b = true)
      (hesc : esc (byte a b)) (h : Decodes esc s t) :
      Decodes esc (37 :: a :: b :: s) (byte a b :: t)

namespace Decodes

variable {esc esc' : UInt8 → Prop} {s s' t t' : List UInt8} {d : UInt8}

/-- What may be escaped may be escaped where more is. -/
theorem mono (hesc : ∀ c, esc c → esc' c) (h : Decodes esc s t) : Decodes esc' s t := by
  induction h with
  | nil => exact .nil
  | plain hc _ ih => exact .plain hc ih
  | escape ha hb hc _ ih => exact .escape ha hb (hesc _ hc) ih

/-- Two texts are decoded one after the other. -/
theorem append (h : Decodes esc s t) (h' : Decodes esc s' t') :
    Decodes esc (s ++ s') (t ++ t') := by
  induction h with
  | nil => exact h'
  | plain hc _ ih => exact .plain hc ih
  | escape ha hb hc _ ih => exact .escape ha hb hc ih

/-- A text stands for one text only. -/
theorem unique (h : Decodes esc s t) (h' : Decodes esc' s t') : t = t' := by
  induction h generalizing t' with
  | nil =>
      cases h'
      rfl
  | plain hc _ ih =>
      cases h' with
      | plain _ h' => rw [ih h']
      | escape => exact absurd rfl hc
  | escape _ _ _ _ ih =>
      cases h' with
      | plain hc => exact absurd rfl hc
      | escape _ _ _ h' => rw [ih h']

/-- A byte that is not in the text, and is never escaped, is not in what it stands for. -/
theorem not_mem (hd : ¬ esc d) (hs : d ∉ s) (h : Decodes esc s t) : d ∉ t := by
  induction h with
  | nil => exact List.not_mem_nil
  | plain _ _ ih =>
      rw [List.mem_cons, not_or] at hs ⊢
      exact ⟨hs.1, ih hs.2⟩
  | escape _ _ hc _ ih =>
      rw [List.mem_cons, not_or] at hs ⊢
      simp only [List.mem_cons, not_or] at hs
      refine ⟨?_, ih hs.2.2.2⟩
      rintro rfl
      exact hd hc

/-- A byte that is neither `%` nor a digit divides a text. -/
theorem split (hd : d ≠ 37) (hdigit : isXDigit d = false) (h : Decodes esc (s ++ d :: s') t) :
    ∃ t₁ t₂, t = t₁ ++ d :: t₂ ∧ Decodes esc s t₁ ∧ Decodes esc s' t₂ := by
  have hno : isXDigit d ≠ true := by rw [hdigit]; exact Bool.false_ne_true
  generalize hw : s ++ d :: s' = w at h
  induction h generalizing s with
  | nil => simp at hw
  | @plain c w t hc h ih =>
      cases s with
      | nil =>
          cases hw
          exact ⟨[], t, rfl, .nil, h⟩
      | cons c' s =>
          cases hw
          obtain ⟨t₁, t₂, rfl, h₁, h₂⟩ := ih rfl
          exact ⟨c :: t₁, t₂, rfl, .plain hc h₁, h₂⟩
  | @escape a b w t ha hb hesc h ih =>
      -- the escape lies on one side of `d`, which is none of its three bytes
      rcases s with _ | ⟨p, _ | ⟨a', _ | ⟨b', s⟩⟩⟩
      · exact absurd (List.cons.inj hw).1 hd
      · cases hw
        exact absurd ha hno
      · cases hw
        exact absurd hb hno
      · cases hw
        obtain ⟨t₁, t₂, rfl, h₁, h₂⟩ := ih rfl
        exact ⟨byte a b :: t₁, t₂, rfl, .escape ha hb hesc h₁, h₂⟩

/-- A separator that is no part of an escape keeps the segments apart. -/
theorem join {ss : List (List UInt8)} (hd : d ≠ 37) (hdigit : isXDigit d = false)
    (h : Decodes esc (Segments.join d ss) t) :
    ∃ ts, t = Segments.join d ts ∧ List.Forall₂ (Decodes esc) ss ts := by
  induction ss generalizing t with
  | nil =>
      cases h
      exact ⟨[], rfl, .nil⟩
  | cons s ss ih =>
      rw [Segments.join_cons] at h
      obtain ⟨t₁, t₂, rfl, h₁, h₂⟩ := split (s := []) hd hdigit h
      cases h₁
      cases ss with
      | nil =>
          rw [Segments.join_nil, List.append_nil] at h₂
          exact ⟨[t₂], by simp, .cons h₂ .nil⟩
      | cons s' ss =>
          obtain ⟨t₁, t₃, rfl, h₁, h₃⟩ := split hd hdigit h₂
          obtain ⟨ts, hts, hall⟩ := ih (.plain hd h₃)
          refine ⟨t₁ :: ts, ?_, .cons h₁ hall⟩
          rw [Segments.join_cons, ← hts]
          rfl

end Decodes

/-- The segments of what a path stands for have no separator either. -/
theorem plain_of_decodes {esc : UInt8 → Prop} {d : UInt8} {ss ts : List (List UInt8)}
    (hd : ¬ esc d) (hss : Segments.Plain d ss) (h : List.Forall₂ (Decodes esc) ss ts) :
    Segments.Plain d ts := by
  induction h with
  | nil => exact nofun
  | cons hst _ ih =>
      exact Segments.plain_cons (hst.not_mem hd (hss _ List.mem_cons_self)) (ih hss.tail)

end Percent
