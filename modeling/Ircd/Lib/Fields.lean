import Ircd.Lib.CString
import Mathlib.Data.List.Induction
import Mathlib.Tactic.IntervalCases

/-!
# Fields and decimal numbers

A text is split at a separator into its fields. `splitOn_append` gives the fields of two texts, one
behind the other: the last field of the first one and the first field of the second one become one.
A `Canonical` field is digits without a leading zero, and as such the decimal text of its number
(`decimal_ofDigitChars`).
-/

namespace Fields

open CString

/-! ## The fields of a text -/

section

variable {α : Type*} [BEq α] {a : α} {xs ys : List α} {p q : List α} {ps qs : List (List α)}

/-- There is a last field. -/
theorem exists_splitOn (a : α) (xs : List α) : ∃ ps p, xs.splitOn a = ps ++ [p] :=
  ⟨_, _, (List.dropLast_concat_getLast (List.splitOn_ne_nil a xs)).symm⟩

/-- There is one field more than separators. -/
theorem length_splitOn (a : α) (xs : List α) : (xs.splitOn a).length = xs.count a + 1 := by
  induction xs with
  | nil => rfl
  | cons x xs ih =>
      rw [List.splitOn_cons_eq_if_modifyHead, List.count_cons]
      split_ifs with hsep
      · rw [List.length_cons, ih]
      · rw [List.length_modifyHead, ih]

/-- The fields of two texts, one behind the other. -/
theorem splitOn_append (hx : xs.splitOn a = ps ++ [p]) (hy : ys.splitOn a = q :: qs) :
    (xs ++ ys).splitOn a = ps ++ (p ++ q) :: qs := by
  induction xs generalizing ps p with
  | nil =>
      rw [List.splitOn_nil] at hx
      obtain ⟨rfl, hp⟩ := List.append_inj' ((List.nil_append _).trans hx) rfl
      rw [List.nil_append, hy, ← List.singleton_inj.mp hp, List.nil_append, List.nil_append]
  | cons x xs ih =>
      obtain ⟨ps', p', hxs⟩ := exists_splitOn a xs
      rw [List.splitOn_cons_eq_if_modifyHead, hxs] at hx
      rw [List.cons_append, List.splitOn_cons_eq_if_modifyHead, ih hxs]
      split_ifs at hx ⊢ with hsep
      · rw [← List.cons_append] at hx
        obtain ⟨rfl, hp⟩ := List.append_inj' hx rfl
        rw [List.singleton_inj.mp hp, List.cons_append]
      · cases ps' with
        | nil =>
            obtain ⟨rfl, hp⟩ := List.append_inj' ((List.nil_append _).trans hx) rfl
            rw [← List.singleton_inj.mp hp]
            rfl
        | cons o ps' =>
            rw [List.cons_append, List.modifyHead_cons, ← List.cons_append] at hx
            obtain ⟨rfl, hp⟩ := List.append_inj' hx rfl
            rw [List.singleton_inj.mp hp]
            rfl

/-- A text is its fields with separators between them. -/
theorem eq_of_splitOn [LawfulBEq α] (h : xs.splitOn a = ys.splitOn a) : xs = ys := by
  exact (List.intercalate_splitOn a).symm.trans ((congrArg _ h).trans (List.intercalate_splitOn a))

end

/-! ## Decimal fields -/

/-- Digits without a leading zero. -/
structure Canonical (d : CStr) : Prop where
  digit : ∀ c ∈ d, c.isDigit = true
  zero : d.head? = some '0' → d = ['0']

variable {d p : CStr} {n : Nat}

/-- The number of a text starts with those of its parts in front. -/
theorem ofDigitChars_le (h : p <+: d) : Nat.ofDigitChars 10 p 0 ≤ Nat.ofDigitChars 10 d 0 := by
  obtain ⟨q, rfl⟩ := h
  have hpos : 0 < 10 ^ q.length := Nat.pow_pos (by decide)
  calc Nat.ofDigitChars 10 p 0
      ≤ 10 ^ q.length * Nat.ofDigitChars 10 p 0 := Nat.le_mul_of_pos_left _ hpos
    _ ≤ 10 ^ q.length * Nat.ofDigitChars 10 p 0 + Nat.ofDigitChars 10 q 0 := Nat.le_add_right _ _
    _ = Nat.ofDigitChars 10 (p ++ q) 0 := by
      rw [Nat.ofDigitChars_append]
      exact Nat.ofDigitChars_eq_ofDigitChars_zero.symm

theorem Canonical.of_isPrefix (h : Canonical d) (hp : p <+: d) : Canonical p := by
  obtain ⟨q, rfl⟩ := hp
  refine ⟨fun c hc ↦ h.digit c (List.mem_append_left _ hc), fun hzero ↦ ?_⟩
  cases p with
  | nil => cases hzero
  | cons c p =>
      have hd := h.zero hzero
      rw [List.cons_append] at hd
      obtain ⟨rfl, hnil⟩ := List.cons.inj hd
      rw [(List.append_eq_nil_iff.mp hnil).1]

/-- The text of a number has no leading zero. -/
theorem canonical_decimal (n : Nat) : Canonical (decimal n) := by
  refine ⟨fun c hc ↦ isDigit_of_mem_decimal hc, ?_⟩
  induction n using Nat.strongRecOn with
  | ind n ih =>
      intro hzero
      rw [decimal, Nat.toDigits_eq_if (by decide)] at hzero ⊢
      split_ifs at hzero ⊢ with hlt
      · rw [Option.some.inj hzero]
      · have hhead : (decimal (n / 10)).head? = some '0' := by
          rwa [List.head?_append, Option.or_of_isSome
            (List.isSome_head?.mpr Nat.toDigits_ne_nil)] at hzero
        have hdiv : decimal (n / 10) = ['0'] := ih (n / 10) (by omega) hhead
        have hval : Nat.ofDigitChars 10 (decimal (n / 10)) 0 = n / 10 :=
          Nat.ofDigitChars_ten_toDigits
        rw [hdiv] at hval
        have hten : n / 10 = 0 := hval.symm.trans (by decide)
        omega

/-- A digit is the text of its number. -/
theorem decimal_digit {c : Char} (hc : c.isDigit = true) :
    c.toNat - '0'.toNat < 10 ∧ decimal (c.toNat - '0'.toNat) = [c] := by
  have hrange : 48 ≤ c.toNat ∧ c.toNat ≤ 57 := by
    simpa [Char.isDigit, UInt32.le_iff_toNat_le] using hc
  have htable : ∀ n, 48 ≤ n → n ≤ 57 → Nat.digitChar (n - 48) = Char.ofNat n := by
    intro n hlow hhigh
    interval_cases n <;> rfl
  have hlt : c.toNat - 48 < 10 := by omega
  refine ⟨hlt, ?_⟩
  show Nat.toDigits 10 (c.toNat - 48) = [c]
  rw [Nat.toDigits_of_lt_base hlt, htable _ hrange.1 hrange.2, Char.ofNat_toNat]

/-- Digits without a leading zero are the text of their number. -/
theorem decimal_ofDigitChars (h : Canonical d) (hd : d ≠ []) :
    decimal (Nat.ofDigitChars 10 d 0) = d := by
  induction d using List.reverseRecOn with
  | nil => exact absurd rfl hd
  | append_singleton d c ih =>
      obtain ⟨hten, hdigit⟩ := decimal_digit (h.digit c (by simp))
      rw [Nat.ofDigitChars_append, Nat.ofDigitChars_cons, Nat.ofDigitChars_nil]
      by_cases hnil : d = []
      · subst hnil
        rw [Nat.ofDigitChars_nil, Nat.mul_zero, Nat.zero_add]
        exact hdigit
      · have hfront := ih (h.of_isPrefix (List.prefix_append _ _)) hnil
        have hpos : 0 < Nat.ofDigitChars 10 d 0 := by
          by_contra hzero
          rw [Nat.eq_zero_of_not_pos hzero] at hfront
          have hall := h.zero (by rw [← hfront]; rfl)
          rw [← hfront] at hall
          cases hall
        rw [decimal, ← Nat.toDigits_append_toDigits (by decide) hpos hten]
        exact congrArg₂ _ hfront hdigit

end Fields
