import Ircd.Lib.CString

/-!
# Buffers

A buffer is the list of its cells, and a pointer into it is a place. `poke` writes a cell, `cadena`
reads the C string at a place; both give `none` where they leave the buffer. The rules run them over
a buffer whose parts are known: `poke_append` and `cadena_append`.
-/

namespace Buffer

open CString

variable {α : Type*} {i : Nat}

/-- `mem[i] = c`. -/
def poke (mem : List α) (i : Nat) (c : α) : Option (List α) :=
  if i < mem.length then some (mem.set i c) else none

/-- The string at a place of the buffer, which has to end inside it. -/
def cadena (mem : List Char) (i : Nat) : Option CStr :=
  if nul ∈ mem.drop i then some ((mem.drop i).takeWhile (· ≠ nul)) else none

/-- A cell between two parts is written. -/
theorem poke_append {a b : List α} {c d : α} (h : a.length = i) :
    poke (a ++ c :: b) i d = some (a ++ d :: b) := by
  have hlt : i < (a ++ c :: b).length := by
    rw [List.length_append, List.length_cons]
    omega
  rw [poke, if_pos hlt, List.set_append_right _ _ (Nat.le_of_eq h), h, Nat.sub_self,
    List.set_cons_zero]

variable {a b s : List Char}

/-- The string up to a terminator. -/
theorem cadena_append (h : a.length = i) (hs : nul ∉ s) :
    cadena (a ++ (s ++ nul :: b)) i = some s := by
  have hstop : (s ++ nul :: b).takeWhile (· ≠ nul) = s :=
    takeWhile_stop b (fun x hx ↦ decide_eq_true fun heq ↦ hs (heq ▸ hx)) (by simp)
  rw [cadena, ← h, List.drop_left, if_pos (by simp), hstop]

/-- The string at the start of the buffer. -/
theorem cadena_zero (hs : nul ∉ s) : cadena (s ++ nul :: b) 0 = some s :=
  cadena_append (a := []) rfl hs

end Buffer
