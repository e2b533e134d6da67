import Mathlib.Logic.Basic

/-!
# Words of flags

A word holds flags as the bits that are on in it. `has` is the test of a flag, `x & f`; setting a
flag is `x ||| f` and clearing it is `x &&& ~~~f`. The lemmas say what a change of one flag does to
the test of another.
-/

namespace Flags

variable {w : Nat} {x y f g : BitVec w}

/-- `x & f`: some flag of `f` is on in `x`. -/
def has (x f : BitVec w) : Bool :=
  x &&& f ≠ 0#w

/-- A flag is set or cleared. -/
def put (b : Bool) (f x : BitVec w) : BitVec w :=
  if b then x ||| f else x &&& ~~~f

theorem has_eq_true : has x f = true ↔ x &&& f ≠ 0#w := by
  rw [has, decide_eq_true_eq]

theorem has_eq_false : has x f = false ↔ x &&& f = 0#w := by
  rw [has, decide_eq_false_iff_not, not_not]

/-- No flag is on in the empty word. -/
@[simp] theorem has_zero : has 0#w f = false := by
  rw [has_eq_false, BitVec.zero_and]

/-- A flag is on in a union where it is on in a part. -/
@[simp] theorem has_or : has (x ||| y) f = (has x f || has y f) := by
  have hor : (x ||| y) &&& f = (x &&& f) ||| (y &&& f) := by
    ext i
    simp only [BitVec.getElem_and, BitVec.getElem_or, Bool.and_or_distrib_right]
  rw [has, has, has, hor, ← Bool.decide_or]
  refine decide_eq_decide.mpr ?_
  rw [← not_and_or, not_iff_not, BitVec.or_eq_zero_iff]

/-- Clearing flags turns those flags off. -/
theorem has_clear_of_sub (h : f &&& ~~~g = 0#w) : has (x &&& ~~~g) f = false := by
  rw [has_eq_false, BitVec.and_assoc, BitVec.and_comm (~~~g), h, BitVec.and_zero]

/-- Clearing flags leaves the others. -/
theorem has_clear_of_disjoint (h : f &&& g = 0#w) : has (x &&& ~~~g) f = has x f := by
  have hand : (x &&& ~~~g) &&& f = x &&& f := by
    ext i hi
    have hbit := congrArg (fun v ↦ v[i]) h
    simp only [BitVec.getElem_and, BitVec.getElem_zero, BitVec.getElem_not] at hbit ⊢
    cases hx : x[i] <;> cases hf : f[i] <;> simp_all
  rw [has, has, hand]

/-- Flags that are part of others are apart from what those are apart from. -/
theorem and_eq_zero_of_sub (hfg : f &&& ~~~g = 0#w) (hgx : g &&& x = 0#w) : f &&& x = 0#w := by
  ext i hi
  have hf := congrArg (fun v ↦ v[i]) hfg
  have hg := congrArg (fun v ↦ v[i]) hgx
  simp only [BitVec.getElem_and, BitVec.getElem_not, BitVec.getElem_zero] at hf hg ⊢
  cases hbit : f[i] <;> cases hbit' : g[i] <;> simp_all

/-- What is on after clearing flags was on before. -/
theorem has_of_has_clear (h : has (x &&& ~~~g) f = true) : has x f = true := by
  rw [has_eq_true] at h ⊢
  intro hzero
  rw [BitVec.and_assoc, BitVec.and_comm (~~~g), ← BitVec.and_assoc, hzero, BitVec.zero_and] at h
  exact h rfl

/-- A flag is on in itself. -/
theorem has_self (hf : f ≠ 0#w) : has f f = true := by
  rwa [has_eq_true, BitVec.and_self]

/-- A flag that is written reads back. -/
theorem has_put_self (hf : f ≠ 0#w) (b : Bool) : has (put b f x) f = b := by
  cases b with
  | false => exact has_clear_of_sub (BitVec.and_not_self f)
  | true => rw [put, if_pos rfl, has_or, has_self hf, Bool.or_true]

/-- Writing a flag leaves the others. -/
theorem has_put_of_disjoint (h : f &&& g = 0#w) (b : Bool) : has (put b g x) f = has x f := by
  cases b with
  | false => exact has_clear_of_disjoint h
  | true =>
      have hg : has g f = false := has_eq_false.mpr ((BitVec.and_comm g f).trans h)
      rw [put, if_pos rfl, has_or, hg, Bool.or_false]

end Flags
