import Mathlib.Logic.Function.Basic
import Mathlib.Data.List.Nodup
import Mathlib.Tactic.Common

/-!
# Doubly linked lists

The nodes of a list are pointers, and the memory is the two fields `next` and `prior` as functions
of the pointer. A null pointer is `none`.

* `Seg`, `Back`: the way along `next`, and the way back along `prior`.
* `Chain`: a list whose nodes are linked both ways, with its two ends.
* `Built`: a list whose last node is not yet terminated.
* `Built.hang`: a node is hung behind the last one.
* `Chain.unlink`: a node is taken out.
-/

namespace Linked

/-- The fields through which nodes are linked. -/
structure Links (P : Type*) where
  next : P → Option P
  prior : P → Option P

variable {P : Type*}

/-! ## The way along the list -/

/-- From `p` the nodes `l` lead to `q`. -/
def Seg (next : P → Option P) : Option P → List P → Option P → Prop
  | p, [], q => p = q
  | p, x :: l, q => p = some x ∧ Seg next (next x) l q

/-- The nodes `l` lead back to `t`. -/
def Back (prior : P → Option P) : Option P → List P → Prop
  | _, [] => True
  | t, x :: l => prior x = t ∧ Back prior (some x) l

variable {next next' prior prior' : P → Option P} {p q t : Option P} {x y : P} {l l' : List P}

/-- A segment depends on the successors of its nodes only. -/
theorem Seg.congr (h : Seg next p l q) (heq : ∀ x ∈ l, next' x = next x) : Seg next' p l q := by
  induction l generalizing p with
  | nil => exact h
  | cons x l ih =>
      refine ⟨h.1, ?_⟩
      rw [heq x List.mem_cons_self]
      exact ih h.2 fun y hy => heq y (List.mem_cons_of_mem x hy)

/-- The links back depend on the predecessors of the nodes only. -/
theorem Back.congr (h : Back prior t l) (heq : ∀ x ∈ l, prior' x = prior x) : Back prior' t l := by
  induction l generalizing t with
  | nil => trivial
  | cons x l ih =>
      refine ⟨(heq x List.mem_cons_self).trans h.1, ?_⟩
      exact ih h.2 fun y hy => heq y (List.mem_cons_of_mem x hy)

/-- A segment is cut anywhere. -/
theorem seg_append : Seg next p (l ++ l') q ↔ ∃ m, Seg next p l m ∧ Seg next m l' q := by
  induction l generalizing p with
  | nil =>
      constructor
      · intro h
        exact ⟨p, rfl, h⟩
      · rintro ⟨m, rfl, h⟩
        exact h
  | cons x l ih =>
      constructor
      · rintro ⟨hp, h⟩
        obtain ⟨m, hl, hl'⟩ := ih.mp h
        exact ⟨m, ⟨hp, hl⟩, hl'⟩
      · rintro ⟨m, ⟨hp, hl⟩, hl'⟩
        exact ⟨hp, ih.mpr ⟨m, hl, hl'⟩⟩

/-- The links back are cut anywhere. -/
theorem back_append :
    Back prior t (l ++ l') ↔ Back prior t l ∧ Back prior (l.getLast?.or t) l' := by
  induction l generalizing t with
  | nil =>
      constructor
      · intro h
        exact ⟨trivial, h⟩
      · intro h
        exact h.2
  | cons x l ih =>
      have hlast : ((x :: l).getLast?).or t = l.getLast?.or (some x) := by
        rw [List.getLast?_cons]
        cases l.getLast? <;> rfl
      rw [hlast]
      constructor
      · intro h
        exact ⟨⟨h.1, (ih.mp h.2).1⟩, (ih.mp h.2).2⟩
      · intro h
        exact ⟨h.1.1, ih.mpr ⟨h.1.2, h.2⟩⟩

/-- A way to the null pointer starts at its first node. -/
theorem Seg.head (h : Seg next p l none) : p = l.head? := by
  cases l with
  | nil => exact h
  | cons x l => exact h.1

/-- There is one way to the null pointer. -/
theorem Seg.unique (h : Seg next p l none) (h' : Seg next p l' none) : l = l' := by
  induction l generalizing p l' with
  | nil =>
      cases l' with
      | nil => rfl
      | cons y l' => exact absurd (h.symm.trans h'.1) nofun
  | cons x l ih =>
      cases l' with
      | nil => exact absurd (h'.symm.trans h.1) nofun
      | cons y l' =>
          have hxy : x = y := Option.some.inj (h.1.symm.trans h'.1)
          subst hxy
          rw [ih h.2 h'.2]

/-- No node is met twice on a way to the null pointer. -/
theorem Seg.nodup (h : Seg next p l none) : l.Nodup := by
  induction l generalizing p with
  | nil => exact List.nodup_nil
  | cons x l ih =>
      refine List.nodup_cons.mpr ⟨fun hx => ?_, ih h.2⟩
      -- from a second `x` on the way would be the same as from the first one
      obtain ⟨l₁, l₂, rfl⟩ := List.append_of_mem hx
      obtain ⟨m, -, hm⟩ := seg_append.mp h.2
      have heq := congrArg List.length (h.2.unique hm.2)
      rw [List.length_append, List.length_cons] at heq
      omega

/-! ## Chains -/

/-- The nodes `l` are linked both ways between `first` and `last`. -/
structure Chain (L : Links P) (first last : Option P) (l : List P) : Prop where
  forward : Seg L.next first l none
  backward : Back L.prior none l
  last_eq : last = l.getLast?

/-- The nodes `l` are linked both ways from `first` on, and the last of them is not terminated. -/
structure Built (L : Links P) (first last : Option P) (l : List P) : Prop where
  forward : Seg L.next first l.dropLast l.getLast?
  backward : Back L.prior none l
  last_eq : last = l.getLast?
  nodup : l.Nodup

variable {L : Links P} {first last : Option P}

namespace Chain

/-- No node of a chain comes twice. -/
theorem nodup (h : Chain L first last l) : l.Nodup := h.forward.nodup

/-- The first node of a chain is the head of the list. -/
theorem first_eq (h : Chain L first last l) : first = l.head? := h.forward.head

/-- The chain is determined by where it starts. -/
theorem unique {last' : Option P} (h : Chain L first last l) (h' : Chain L first last' l') :
    l = l' := h.forward.unique h'.forward

/-- The successor of a node is what comes behind it in the list. -/
theorem next_eq {xs ys : List P} (h : Chain L first last (xs ++ x :: ys)) :
    L.next x = ys.head? := by
  obtain ⟨m, -, -, hys⟩ := seg_append.mp h.forward
  exact hys.head

/-- The predecessor of a node is what comes in front of it in the list. -/
theorem prior_eq {xs ys : List P} (h : Chain L first last (xs ++ x :: ys)) :
    L.prior x = xs.getLast? := by
  have hx := (back_append.mp h.backward).2.1
  rwa [Option.or_none] at hx

/-- `next` and `prior` are inverse to each other on the chain. -/
theorem next_iff_prior (h : Chain L first last l) (hx : x ∈ l) (hy : y ∈ l) :
    L.next x = some y ↔ L.prior y = some x := by
  constructor
  · intro hxy
    obtain ⟨xs, ys, rfl⟩ := List.append_of_mem hx
    rw [h.next_eq] at hxy
    obtain ⟨ys, rfl⟩ := List.head?_eq_some_iff.mp hxy
    rw [List.append_cons] at h
    rw [h.prior_eq, List.getLast?_concat]
  · intro hxy
    obtain ⟨xs, ys, rfl⟩ := List.append_of_mem hy
    rw [h.prior_eq] at hxy
    obtain ⟨xs, rfl⟩ := List.getLast?_eq_some_iff.mp hxy
    rw [List.append_assoc] at h
    exact h.next_eq

/-- A chain has been built. -/
theorem built (h : Chain L first last l) : Built L first last l where
  forward := by
    rcases List.eq_nil_or_concat l with rfl | ⟨xs, x, rfl⟩
    · exact h.forward
    · rw [List.concat_eq_append, List.dropLast_concat, List.getLast?_concat]
      obtain ⟨m, hxs, hx, -⟩ := seg_append.mp (List.concat_eq_append ▸ h.forward)
      exact hx ▸ hxs
  backward := h.backward
  last_eq := h.last_eq
  nodup := h.nodup

end Chain

/-- A built list whose last node is terminated is a chain. -/
theorem Built.chain (h : Built L first last l) (hlast : ∀ x ∈ last, L.next x = none) :
    Chain L first last l where
  forward := by
    rcases List.eq_nil_or_concat l with rfl | ⟨xs, x, rfl⟩
    · exact h.forward
    · have hforward := h.forward
      have hx := hlast x (by rw [h.last_eq, List.concat_eq_append, List.getLast?_concat]; rfl)
      rw [List.concat_eq_append] at hforward ⊢
      rw [List.dropLast_concat, List.getLast?_concat] at hforward
      exact seg_append.mpr ⟨some x, hforward, rfl, hx⟩
  backward := h.backward
  last_eq := h.last_eq

/-- The empty list has been built. -/
theorem built_nil (L : Links P) : Built L none none [] := ⟨rfl, trivial, rfl, List.nodup_nil⟩

/-! ## Operations -/

variable [DecidableEq P]

namespace Links

def setNext (L : Links P) (x : P) (q : Option P) : Links P :=
  { L with next := Function.update L.next x q }

def setPrior (L : Links P) (x : P) (q : Option P) : Links P :=
  { L with prior := Function.update L.prior x q }

/-- Storing a predecessor changes no successor. -/
@[simp] theorem setPrior_next (L : Links P) (x : P) (q : Option P) :
    (L.setPrior x q).next = L.next := rfl

/-- The successor that was stored is read. -/
@[simp] theorem setNext_next_self (L : Links P) (x : P) (q : Option P) :
    (L.setNext x q).next x = q := Function.update_self ..

/-- The predecessor that was stored is read. -/
@[simp] theorem setPrior_prior_self (L : Links P) (x : P) (q : Option P) :
    (L.setPrior x q).prior x = q := Function.update_self ..

/-- The successors of the other nodes are kept. -/
theorem setNext_next_of_ne (L : Links P) {x y : P} (q : Option P) (h : y ≠ x) :
    (L.setNext x q).next y = L.next y := Function.update_of_ne h ..

/-- The predecessors of the other nodes are kept. -/
theorem setPrior_prior_of_ne (L : Links P) {x y : P} (q : Option P) (h : y ≠ x) :
    (L.setPrior x q).prior y = L.prior y := Function.update_of_ne h ..

/-- `x` is hung behind the last node, if there is one. -/
def hang (L : Links P) (last : Option P) (x : P) : Links P :=
  match last with
  | none => L.setPrior x none
  | some t => (L.setPrior x (some t)).setNext t (some x)

/-- `x` is taken out from between its neighbours. -/
def unlink (L : Links P) (x : P) : Links P :=
  let L' := match L.prior x with
    | none => L
    | some p => L.setNext p (L.next x)
  match L.next x with
  | none => L'
  | some n => L'.setPrior n (L.prior x)

/-- Hanging a node on the last one stores its predecessor. -/
theorem hang_prior (L : Links P) (last : Option P) (x : P) :
    (L.hang last x).prior = Function.update L.prior x last := by
  cases last <;> rfl

/-- Hanging a node behind `last` changes the way from `last` only. -/
theorem hang_next_of_ne (L : Links P) {last : Option P} {x y : P} (h : last ≠ some y) :
    (L.hang last x).next y = L.next y := by
  cases last with
  | none => rfl
  | some t => exact setNext_next_of_ne _ _ fun hy => h (congrArg some hy.symm)

end Links

/-- A segment without the node is kept. -/
theorem Seg.setNext (h : Seg L.next p l q) (hx : x ∉ l) (r : Option P) :
    Seg (L.setNext x r).next p l q :=
  h.congr fun _ hy => L.setNext_next_of_ne r fun heq => hx (heq ▸ hy)

/-- The links back of the other nodes are kept. -/
theorem Back.setPrior (h : Back L.prior t l) (hx : x ∉ l) (r : Option P) :
    Back (L.setPrior x r).prior t l :=
  h.congr fun _ hy => L.setPrior_prior_of_ne r fun heq => hx (heq ▸ hy)

/-- A segment that does not reach the last node is kept. -/
theorem Seg.hang (h : Seg L.next p l q) (hlast : ∀ y ∈ l, last ≠ some y) (x : P) :
    Seg (L.hang last x).next p l q :=
  h.congr fun y hy => L.hang_next_of_ne (hlast y hy)

/-- A new node is hung behind the last one. -/
theorem Built.hang (h : Built L first last l) (hx : x ∉ l) :
    Built (L.hang last x) (if last = none then some x else first) (some x) (l ++ [x]) where
  forward := by
    rw [List.dropLast_concat, List.getLast?_concat, h.last_eq]
    rcases List.eq_nil_or_concat l with rfl | ⟨xs, t, rfl⟩
    · rfl
    · have hforward := h.forward
      have ht := h.nodup
      rw [List.concat_eq_append] at hforward ht ⊢
      rw [List.dropLast_concat, List.getLast?_concat] at hforward
      rw [List.getLast?_concat, if_neg nofun]
      -- the nodes before `t` are untouched
      have htxs : t ∉ xs := fun hmem => (List.nodup_append.mp ht).2.2 t hmem t (by simp) rfl
      refine seg_append.mpr ⟨some t, ?_, rfl, ?_⟩
      · exact hforward.congr fun y hy => L.hang_next_of_ne fun heq =>
          htxs (Option.some.inj heq ▸ hy)
      · exact Links.setNext_next_self ..
  backward := by
    rw [Links.hang_prior]
    refine back_append.mpr ⟨?_, ?_, trivial⟩
    · exact h.backward.congr fun y hy =>
        Function.update_of_ne (by rintro rfl; exact hx hy) ..
    · rw [Function.update_self, h.last_eq, Option.or_none]
  last_eq := List.getLast?_concat.symm
  nodup := by
    have hnodup := h.nodup.concat hx
    rwa [List.concat_eq_append] at hnodup

/-- The last node is terminated. -/
theorem Built.terminate (h : Built L first (some x) l) :
    Chain (L.setNext x none) first (some x) l where
  forward := by
    obtain ⟨xs, rfl⟩ := List.getLast?_eq_some_iff.mp h.last_eq.symm
    have hforward := h.forward
    rw [List.dropLast_concat, List.getLast?_concat] at hforward
    have hx : x ∉ xs := fun hmem => (List.nodup_append.mp h.nodup).2.2 x hmem x (by simp) rfl
    exact seg_append.mpr ⟨some x, hforward.setNext hx none, rfl, L.setNext_next_self x none⟩
  backward := h.backward
  last_eq := h.last_eq

/-- The first node of a part gets another predecessor. -/
theorem Back.head_setPrior {ys : List P} (h : Back L.prior p ys) (hys : ys.Nodup)
    (hy : ys.head? = some y) (r : Option P) : Back (L.setPrior y r).prior r ys := by
  obtain ⟨ys, rfl⟩ := List.head?_eq_some_iff.mp hy
  exact ⟨L.setPrior_prior_self y r, Back.setPrior h.2 (List.nodup_cons.mp hys).1 r⟩

/-- The last node of a segment gets another successor. -/
theorem Seg.last_setNext {xs : List P} (h : Seg L.next p (xs ++ [x]) q) (hx : x ∉ xs)
    (r : Option P) : Seg (L.setNext x r).next p (xs ++ [x]) r := by
  obtain ⟨m, hxs, hm, -⟩ := seg_append.mp h
  exact seg_append.mpr ⟨m, hxs.setNext hx r, hm, L.setNext_next_self x r⟩

/-- A node is taken out of a chain. -/
theorem Chain.unlink {xs ys : List P} (h : Chain L first last (xs ++ x :: ys)) :
    Chain (L.unlink x) (if L.prior x = none then L.next x else first)
      (if L.next x = none then L.prior x else last) (xs ++ ys) := by
  obtain ⟨m, hxs, hm, hys⟩ := seg_append.mp h.forward
  have hback := back_append.mp h.backward
  obtain ⟨hndxs, hndys, hne⟩ := List.nodup_append.mp h.nodup
  have hnd : ys.Nodup := (List.nodup_cons.mp hndys).2
  have hnext := h.next_eq
  have hprior := h.prior_eq
  have hlast : last = ys.getLast?.or (some x) := by
    rw [h.last_eq, List.getLast?_append, List.getLast?_cons]
    cases ys.getLast? <;> rfl
  -- the way from the node before `x` leads to the one behind it
  have hforward : Seg (L.unlink x).next (if L.prior x = none then L.next x else first) (xs ++ ys)
      none := by
    have hfields : (L.unlink x).next = (match L.prior x with
        | none => L
        | some p => L.setNext p (L.next x)).next := by
      unfold Links.unlink
      cases L.next x <;> rfl
    rw [hfields, hprior]
    rcases List.eq_nil_or_concat xs with rfl | ⟨xs, p, rfl⟩
    · exact hys
    · rw [List.concat_eq_append] at *
      rw [List.getLast?_concat, if_neg nofun]
      have hp : p ∉ xs := fun hmem => (List.nodup_append.mp hndxs).2.2 p hmem p (by simp) rfl
      have hpys : p ∉ ys := fun hmem => hne p (by simp) p (List.mem_cons_of_mem x hmem) rfl
      exact seg_append.mpr ⟨L.next x, hxs.last_setNext hp _, hys.setNext hpys _⟩
  have hbackward : Back (L.unlink x).prior none (xs ++ ys) := by
    have hfields : (L.unlink x).prior = (match L.next x with
        | none => L
        | some n => L.setPrior n (L.prior x)).prior := by
      unfold Links.unlink
      cases L.next x <;> cases L.prior x <;> rfl
    rw [hfields, hnext]
    cases ys with
    | nil => exact (List.append_nil xs).symm ▸ hback.1
    | cons n ys =>
        have hn : n ∉ xs := fun hmem => hne n hmem n (by simp) rfl
        refine back_append.mpr ⟨hback.1.setPrior hn _, ?_⟩
        rw [Option.or_none, ← hprior]
        exact hback.2.2.head_setPrior hnd rfl _
  refine ⟨hforward, hbackward, ?_⟩
  rw [hnext, hprior, hlast, List.getLast?_append]
  cases ys with
  | nil => rfl
  | cons n ys =>
      rw [List.head?_cons, if_neg nofun, List.getLast?_cons]
      rfl

end Linked
