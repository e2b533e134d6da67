import Mathlib.Algebra.Order.Group.Nat
import Mathlib.Data.Nat.Bitwise
import Mathlib.Tactic.Ring

/-!
# Numbers of several words

A list of words of `w` bits is one number, the first word the highest. The high `k` bits of it are a
number of their own, `top`, which is read off word by word (`top_cons_of_le`, `top_cons_within`).
Numbers with the same high bits are the block between the one that ends in zeros and the one that
ends in ones (`div_eq_iff_between`).
-/

namespace Words

variable {w k x y n : ℕ} {l m : List ℕ}

/-- The number that words of `w` bits are. -/
def value (w : ℕ) : List ℕ → ℕ
  | [] => 0
  | x :: l => x * 2 ^ (w * l.length) + value w l

/-- The high `k` bits. -/
def top (w k : ℕ) (l : List ℕ) : ℕ :=
  value w l / 2 ^ (w * l.length - k)

/-- The list is one of words of `w` bits. -/
def Fits (w : ℕ) (l : List ℕ) : Prop :=
  ∀ x ∈ l, x < 2 ^ w

theorem Fits.of_cons (h : Fits w (x :: l)) : x < 2 ^ w ∧ Fits w l :=
  ⟨h x List.mem_cons_self, fun y hy ↦ h y (List.mem_cons_of_mem _ hy)⟩

theorem value_lt (h : Fits w l) : value w l < 2 ^ (w * l.length) := by
  induction l with
  | nil => simp [value]
  | cons x l ih =>
      obtain ⟨hx, hl⟩ := h.of_cons
      have hrest := ih hl
      have hpow : 2 ^ (w * (x :: l).length) = 2 ^ w * 2 ^ (w * l.length) := by
        rw [List.length_cons, Nat.mul_succ, Nat.add_comm, Nat.pow_add]
      have hle : (x + 1) * 2 ^ (w * l.length) ≤ 2 ^ w * 2 ^ (w * l.length) :=
        Nat.mul_le_mul_right _ hx
      rw [value, hpow]
      calc x * 2 ^ (w * l.length) + value w l
          < x * 2 ^ (w * l.length) + 2 ^ (w * l.length) := Nat.add_lt_add_left hrest _
        _ = (x + 1) * 2 ^ (w * l.length) := by ring
        _ ≤ 2 ^ w * 2 ^ (w * l.length) := hle

/-- The words of two lists, one behind the other. -/
theorem value_append (l m : List ℕ) :
    value w (l ++ m) = value w l * 2 ^ (w * m.length) + value w m := by
  induction l with
  | nil => simp [value]
  | cons x l ih =>
      rw [List.cons_append, value, ih, value, List.length_append, Nat.mul_add, Nat.pow_add]
      ring

/-- A number has one list of words of a length. -/
theorem value_inj (hl : Fits w l) (hm : Fits w m) (hlen : l.length = m.length) :
    value w l = value w m ↔ l = m := by
  refine ⟨fun h ↦ ?_, congrArg _⟩
  induction l generalizing m with
  | nil => exact (List.length_eq_zero_iff.mp hlen.symm).symm
  | cons x l ih =>
      cases m with
      | nil => cases hlen
      | cons y m =>
          have hlen' : l.length = m.length := Nat.succ.inj hlen
          rw [value, value, ← hlen', Nat.mul_comm, Nat.mul_comm y] at h
          have hlt := value_lt hl.of_cons.2
          have hlt' := value_lt hm.of_cons.2
          rw [← hlen'] at hlt'
          have hpos : 0 < 2 ^ (w * l.length) := Nat.two_pow_pos _
          have hxy : x = y := by
            have hdiv := congrArg (· / 2 ^ (w * l.length)) h
            simpa only [Nat.mul_add_div hpos, Nat.div_eq_of_lt hlt, Nat.div_eq_of_lt hlt',
              Nat.add_zero] using hdiv
          subst hxy
          rw [ih hl.of_cons.2 hm.of_cons.2 hlen' (Nat.add_left_cancel h)]

/-! ## The high bits -/

/-- The high bits lie in the first word. -/
theorem top_cons_within (hk : k ≤ w) (h : Fits w l) : top w k (x :: l) = x / 2 ^ (w - k) := by
  have hexp : w * (x :: l).length - k = w * l.length + (w - k) := by
    rw [List.length_cons, Nat.mul_succ]
    omega
  rw [top, hexp, Nat.pow_add, ← Nat.div_div_eq_div_mul, value, Nat.add_comm,
    Nat.add_mul_div_right _ _ (Nat.two_pow_pos _), Nat.div_eq_of_lt (value_lt h), Nat.zero_add]

/-- The high bits are those of the first word and some of the others. -/
theorem top_cons_of_le (hk : w ≤ k) (hkl : k ≤ w * (x :: l).length) :
    top w k (x :: l) = x * 2 ^ (k - w) + top w (k - w) l := by
  rw [List.length_cons, Nat.mul_succ] at hkl
  have hexp : w * (x :: l).length - k = w * l.length - (k - w) := by
    rw [List.length_cons, Nat.mul_succ]
    omega
  have hsplit : 2 ^ (w * l.length) = 2 ^ (k - w) * 2 ^ (w * l.length - (k - w)) := by
    rw [← Nat.pow_add]
    congr 1
    omega
  rw [top, hexp, value, hsplit, ← Nat.mul_assoc, Nat.add_comm,
    Nat.add_mul_div_right _ _ (Nat.two_pow_pos _), Nat.add_comm, top]

theorem top_lt (h : Fits w l) (hk : k ≤ w * l.length) : top w k l < 2 ^ k := by
  have hsplit : 2 ^ (w * l.length) = 2 ^ k * 2 ^ (w * l.length - k) := by
    rw [← Nat.pow_add]
    congr 1
    omega
  rw [top, Nat.div_lt_iff_lt_mul (Nat.two_pow_pos _), ← hsplit]
  exact value_lt h

/-- High bits are compared word by word. -/
theorem top_cons_eq_iff (hx : Fits w (x :: l)) (hy : Fits w (y :: m)) (hlen : l.length = m.length)
    (hk : w ≤ k) (hkl : k ≤ w * (x :: l).length) :
    top w k (x :: l) = top w k (y :: m) ↔ x = y ∧ top w (k - w) l = top w (k - w) m := by
  have hkm : k ≤ w * (y :: m).length := by
    rw [List.length_cons, ← hlen]
    exact hkl
  have hrest : k - w ≤ w * l.length := by
    rw [List.length_cons, Nat.mul_succ] at hkl
    omega
  rw [top_cons_of_le hk hkl, top_cons_of_le hk hkm]
  have hl := top_lt hx.of_cons.2 hrest
  have hm := top_lt hy.of_cons.2 (hlen ▸ hrest)
  constructor
  · intro heq
    have hdiv : ∀ a b : ℕ, b < 2 ^ (k - w) → (a * 2 ^ (k - w) + b) / 2 ^ (k - w) = a :=
      fun a b hb ↦ by
        rw [Nat.add_comm, Nat.add_mul_div_right _ _ (Nat.two_pow_pos _), Nat.div_eq_of_lt hb,
          Nat.zero_add]
    have hxy : x = y := by rw [← hdiv x _ hl, heq, hdiv y _ hm]
    subst hxy
    exact ⟨rfl, Nat.add_left_cancel heq⟩
  · rintro ⟨rfl, heq⟩
    rw [heq]

/-- The high bits are the bits from `w * l.length - k` on. -/
theorem top_eq_iff_testBit (hl : Fits w l) (hm : Fits w m) (hlen : l.length = m.length)
    (hk : k ≤ w * l.length) : top w k l = top w k m ↔
      ∀ i < k, (value w l).testBit (w * l.length - 1 - i) =
        (value w m).testBit (w * l.length - 1 - i) := by
  rw [top, top, ← hlen, ← Nat.shiftRight_eq_div_pow, ← Nat.shiftRight_eq_div_pow]
  have hm' := value_lt hm
  rw [← hlen] at hm'
  constructor
  · intro heq i hi
    have hbit := congrArg (fun v ↦ v.testBit (k - 1 - i)) heq
    simp only [Nat.testBit_shiftRight] at hbit
    rwa [show w * l.length - 1 - i = w * l.length - k + (k - 1 - i) by omega]
  · intro h
    refine Nat.eq_of_testBit_eq fun j ↦ ?_
    rw [Nat.testBit_shiftRight, Nat.testBit_shiftRight]
    by_cases hj : j < k
    · have hbit := h (k - 1 - j) (by omega)
      rwa [show w * l.length - 1 - (k - 1 - j) = w * l.length - k + j by omega] at hbit
    · have hpow : 2 ^ (w * l.length) ≤ 2 ^ (w * l.length - k + j) :=
        Nat.pow_le_pow_right (by omega) (by omega)
      rw [Nat.testBit_lt_two_pow ((value_lt hl).trans_le hpow),
        Nat.testBit_lt_two_pow (hm'.trans_le hpow)]

/-! ## Blocks -/

/-- The numbers with given high bits are a block. -/
theorem div_eq_iff_between {a b s : ℕ} :
    a / 2 ^ s = b / 2 ^ s ↔
      b / 2 ^ s * 2 ^ s ≤ a ∧ a ≤ b / 2 ^ s * 2 ^ s + (2 ^ s - 1) := by
  have hpos := Nat.two_pow_pos s
  rw [Nat.div_eq_iff hpos]
  omega

end Words
