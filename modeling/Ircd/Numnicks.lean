import Ircd.Lib.CString

/-!
# Base-64 numerics

The alphabet `convert2y` of `ircd/numnicks.c`, its inverse `convert2n` and the two conversions. The
main result is `base64toint_inttobase64`: a number that fits in the given count of digits is read
back from its text.
-/

namespace Ircd

open CString

/-- The digits, in the order of their values. -/
def numnickDigits : CStr :=
  "ABCDEFGHIJKLMNOPQRSTUVWXYZabcdefghijklmnopqrstuvwxyz0123456789[]".toList

/-- The character of a digit. -/
def convert2y (n : Nat) : Char :=
  numnickDigits.getD n 'A'

/-- The value of a character, 0 for one that is no digit. -/
def convert2n (c : Char) : Nat :=
  if numnickDigits.idxOf c < 64 then numnickDigits.idxOf c else 0

/-- `inttobase64 (buf, v, count)`: the last `count` digits of a number. -/
def inttobase64 (v : Nat) : Nat → CStr
  | 0 => []
  | count + 1 => inttobase64 (v / 64) count ++ [convert2y (v % 64)]

/-- `base64toint`, computed in an `unsigned int`. -/
def base64toint (s : CStr) : Nat :=
  s.foldl (fun i c ↦ (i * 64 + convert2n c) % 2 ^ 32) 0

theorem nodup_numnickDigits : numnickDigits.Nodup := by
  decide

/-- A digit is read back. -/
theorem convert2n_convert2y {n : Nat} (h : n < 64) : convert2n (convert2y n) = n := by
  have hlen : n < numnickDigits.length := h
  have hget : convert2y n = numnickDigits[n] := by simp [convert2y, hlen]
  have hidx := nodup_numnickDigits.idxOf_getElem n hlen
  simp only [convert2n, hget, hidx, h, if_true]

theorem convert2y_mem (n : Nat) : convert2y n ∈ numnickDigits := by
  by_cases h : n < numnickDigits.length
  · simp [convert2y, h]
  · rw [convert2y, List.getD_eq_getElem?_getD, List.getElem?_eq_none (by omega)]
    decide

/-- The text of a number has digits only. -/
theorem mem_inttobase64 {v count : Nat} {c : Char} (h : c ∈ inttobase64 v count) :
    c ∈ numnickDigits := by
  induction count generalizing v with
  | zero => simp [inttobase64] at h
  | succ count ih =>
      rw [inttobase64, List.mem_append, List.mem_singleton] at h
      rcases h with h | rfl
      · exact ih h
      · exact convert2y_mem _

theorem length_inttobase64 (v count : Nat) : (inttobase64 v count).length = count := by
  induction count generalizing v with
  | zero => rfl
  | succ count ih => simp [inttobase64, ih]

/-- The digits of a number determine it up to the width of an `unsigned int`. -/
theorem base64toint_inttobase64_mod (v count : Nat) :
    base64toint (inttobase64 v count) = v % 64 ^ count % 2 ^ 32 := by
  induction count generalizing v with
  | zero => simp [inttobase64, base64toint, Nat.mod_one]
  | succ count ih =>
      have hdigit := convert2n_convert2y (Nat.mod_lt v (by omega : 64 > 0))
      have hprefix := ih (v / 64)
      have hsplit : v % 64 ^ (count + 1) = v / 64 % 64 ^ count * 64 + v % 64 := by
        rw [Nat.pow_succ', Nat.mod_mul]
        omega
      unfold base64toint at hprefix ⊢
      rw [inttobase64, List.foldl_append, hprefix]
      simp only [List.foldl_cons, List.foldl_nil, hdigit, hsplit]
      omega

/-- A number that fits in the digits is read back. -/
theorem base64toint_inttobase64 {v count : Nat} (h : v < 64 ^ count) (hv : v < 2 ^ 32) :
    base64toint (inttobase64 v count) = v := by
  rw [base64toint_inttobase64_mod, Nat.mod_eq_of_lt h, Nat.mod_eq_of_lt hv]

end Ircd
