import Mathlib.Logic.Function.Basic
import Mathlib.Tactic.Common

/-!
# The files of a card

A card holds at most one file for each name. The operations are what is left on the card where they
succeed; whether they do is for the caller to say. A write that is not completed leaves a part of
the data.

* `remove`, `put`, `rename`: the operations.
* `canRename`: a file is not renamed onto another one.
-/

namespace Files

/-- What a card holds, by the names of its files. -/
abbrev Card (N : Type*) := N → Option (List UInt8)

variable {N : Type*} [DecidableEq N]

namespace Card

/-- A file is removed. -/
def remove (c : Card N) (n : N) : Card N := Function.update c n none

/-- A file holds `data` from now on. -/
def put (c : Card N) (n : N) (data : List UInt8) : Card N := Function.update c n (some data)

/-- There is a file to be renamed, and none with the new name. -/
def canRename (c : Card N) (a b : N) : Bool := (c a).isSome && (c b).isNone

/-- A file is renamed. -/
def rename (c : Card N) (a b : N) : Card N := Function.update (Function.update c b (c a)) a none

variable (c : Card N) {m n : N} (data : List UInt8)

@[simp] theorem remove_self (n : N) : c.remove n n = none := Function.update_self ..

@[simp] theorem remove_of_ne (h : m ≠ n) : c.remove n m = c m := Function.update_of_ne h ..

@[simp] theorem put_self (n : N) : c.put n data n = some data := Function.update_self ..

@[simp] theorem put_of_ne (h : m ≠ n) : c.put n data m = c m := Function.update_of_ne h ..

theorem rename_new (h : m ≠ n) : c.rename n m m = c n := by
  rw [rename, Function.update_of_ne h, Function.update_self]

end Card

end Files
