import Mathlib.Data.List.Nodup
import Mathlib.Logic.Function.Basic

/-!
# First visits

A traversal that marks what it visits goes over the elements of its lists that were not marked, each
at its first place. `fresh` is that list, and `fresh_append` puts two traversals together.
-/

namespace Firsts

variable {α : Type} [DecidableEq α]

/-- The marks with one more. -/
def mark (seen : α → Bool) (x : α) : α → Bool :=
  Function.update seen x true

/-- The marks after a traversal. -/
def after (seen : α → Bool) (xs : List α) : α → Bool :=
  xs.foldl mark seen

/-- The elements that a traversal visits. -/
def fresh (seen : α → Bool) : List α → List α
  | [] => []
  | x :: xs => if seen x then fresh seen xs else x :: fresh (mark seen x) xs

variable {seen : α → Bool} {x y : α} {xs ys : List α}

theorem mark_eq_true : mark seen x y = true ↔ y = x ∨ seen y = true := by
  by_cases h : y = x
  · subst h
    simp [mark]
  · simp [mark, h]

theorem mark_of_seen (h : seen x = true) : mark seen x = seen := by
  rw [mark, ← h, Function.update_eq_self]

theorem after_cons : after seen (x :: xs) = after (mark seen x) xs :=
  rfl

theorem fresh_of_seen (h : seen x = true) : fresh seen (x :: xs) = fresh seen xs :=
  if_pos h

theorem fresh_of_not_seen (h : seen x = false) :
    fresh seen (x :: xs) = x :: fresh (mark seen x) xs :=
  if_neg (by rw [h]; exact Bool.false_ne_true)

/-- A traversal visits what it meets and has not seen. -/
theorem mem_fresh : x ∈ fresh seen xs ↔ x ∈ xs ∧ seen x = false := by
  induction xs generalizing seen with
  | nil => simp [fresh]
  | cons y ys ih =>
      cases hy : seen y with
      | true =>
          rw [fresh_of_seen hy, ih, List.mem_cons]
          refine ⟨fun h ↦ ⟨.inr h.1, h.2⟩, fun h ↦ ⟨h.1.resolve_left ?_, h.2⟩⟩
          rintro rfl
          exact absurd h.2 (by simp [hy])
      | false =>
          have hmark := @mark_eq_true α _ seen y x
          rw [fresh_of_not_seen hy, List.mem_cons, List.mem_cons, ih, ← Bool.not_eq_true, hmark]
          by_cases h : x = y
          · subst h
            simp [hy]
          · simp [h]

/-- Two traversals, one after the other. -/
theorem fresh_append : fresh seen (xs ++ ys) = fresh seen xs ++ fresh (after seen xs) ys := by
  induction xs generalizing seen with
  | nil => rfl
  | cons x xs ih =>
      rw [List.cons_append, after_cons]
      cases hx : seen x with
      | true => rw [fresh_of_seen hx, fresh_of_seen hx, ih, mark_of_seen hx]
      | false => rw [fresh_of_not_seen hx, fresh_of_not_seen hx, ih, List.cons_append]

end Firsts
