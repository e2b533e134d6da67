import Mathlib.Algebra.Ring.Int.Defs
import Mathlib.Algebra.Ring.Nat
import Mathlib.Data.List.TakeWhile

/-!
# C strings

A NUL-terminated character array is the list of its characters, the terminator left out.
`strchr`, `strtok` and `atol` follow the C library on that representation: `strtok` returns the
token together with the text its internal pointer is left at, so that a chain of calls is a chain
of applications. The main results are the equations that run `strtok` and `atol` over a text built
by joining fields, `strtok_append` and `atol_decimal_append`.
-/

namespace CString

/-- The characters of a C string before its terminator. -/
abbrev CStr := List Char

/-- The character that ends a C string. -/
abbrev nul : Char := Char.ofNat 0

/-! ## Searching and splitting -/

/-- The text after the first occurrence of `c`, which is `strchr (s, c) + 1`; empty when `c` does
not occur. -/
def strchr (s : CStr) (c : Char) : CStr :=
  (s.dropWhile (· != c)).tail

/-- The part of a text before the first `c`. -/
def before (s : CStr) (c : Char) : CStr :=
  s.takeWhile (· != c)

/-- `strtok` called on `s` with the characters of `delim` as delimiters: leading delimiters are
skipped, the token runs to the next delimiter, and that one delimiter is consumed. -/
def strtok (delim : List Char) (s : CStr) : Option CStr × CStr :=
  match s.dropWhile delim.contains with
  | [] => (none, [])
  | c :: rest =>
      (some ((c :: rest).takeWhile (!delim.contains ·)),
        ((c :: rest).dropWhile (!delim.contains ·)).tail)

/-- A field is a nonempty text without any of the delimiters. -/
def Field (delim : List Char) (s : CStr) : Prop :=
  s ≠ [] ∧ ∀ c ∈ s, c ∉ delim

instance (delim : List Char) (s : CStr) : Decidable (Field delim s) :=
  inferInstanceAs (Decidable (_ ∧ _))

/-- The search for `c` runs over a text that does not contain it. -/
theorem bne_of_not_mem {s : CStr} {c : Char} (h : c ∉ s) : ∀ x ∈ s, (x != c) = true := by
  intro x hx
  rw [bne_iff_ne]
  rintro rfl
  exact h hx

/-- A scan over `s` that stops at `c` takes `s`. -/
theorem takeWhile_stop {p : Char → Bool} {s : CStr} {c : Char} (rest : CStr)
    (hs : ∀ x ∈ s, p x = true) (hc : p c = false) : (s ++ c :: rest).takeWhile p = s := by
  simp [List.takeWhile_append_of_pos hs, hc]

/-- A scan over `s` that stops at `c` leaves `c` and what follows it. -/
theorem dropWhile_stop {p : Char → Bool} {s : CStr} {c : Char} (rest : CStr)
    (hs : ∀ x ∈ s, p x = true) (hc : p c = false) :
    (s ++ c :: rest).dropWhile p = c :: rest := by
  simp [List.dropWhile_append_of_pos hs, hc]

/-- A text without `c` is skipped as a whole by the search for `c`. -/
theorem strchr_append {s : CStr} {c : Char} (rest : CStr) (h : c ∉ s) :
    strchr (s ++ c :: rest) c = rest := by
  rw [strchr, dropWhile_stop rest (bne_of_not_mem h) (bne_self_eq_false c), List.tail_cons]

/-- The part before the first `c` of a text that has one after `s`. -/
theorem before_append {s : CStr} {c : Char} (rest : CStr) (h : c ∉ s) :
    before (s ++ c :: rest) c = s := by
  exact takeWhile_stop rest (bne_of_not_mem h) (bne_self_eq_false c)

/-- `strrchr`: the place of the last `c`. -/
def strrchr (c : Char) : CStr → Option Nat
  | [] => none
  | d :: s =>
      match strrchr c s with
      | some i => some (i + 1)
      | none => if d = c then some 0 else none

theorem strrchr_eq_none {s : CStr} {c : Char} (h : c ∉ s) : strrchr c s = none := by
  induction s with
  | nil => rfl
  | cons d s ih =>
      rw [List.mem_cons, not_or] at h
      simp only [strrchr, ih h.2, if_neg (Ne.symm h.1)]

theorem strrchr_append {a b : CStr} {c : Char} (h : c ∉ b) :
    strrchr c (a ++ c :: b) = some a.length := by
  induction a with
  | nil => simp [strrchr, strrchr_eq_none h]
  | cons d a ih => simp only [List.cons_append, strrchr, ih, List.length_cons]

/-- The part of a text behind its last `c`, which is the text itself when `c` does not occur. -/
def afterLast (c : Char) (s : CStr) : CStr :=
  match strrchr c s with
  | some i => s.drop (i + 1)
  | none => s

/-- The part of a text before its last `c`. -/
def beforeLast (c : Char) (s : CStr) : CStr :=
  match strrchr c s with
  | some i => s.take i
  | none => []

theorem afterLast_eq_self {s : CStr} {c : Char} (h : c ∉ s) : afterLast c s = s := by
  rw [afterLast, strrchr_eq_none h]

theorem afterLast_cut (a : CStr) {b : CStr} {c : Char} (h : c ∉ b) :
    afterLast c (a ++ c :: b) = b := by
  simp only [afterLast, strrchr_append h]
  rw [← List.drop_drop, List.drop_left]
  rfl

theorem beforeLast_cut (a : CStr) {b : CStr} {c : Char} (h : c ∉ b) :
    beforeLast c (a ++ c :: b) = a := by
  simp only [beforeLast, strrchr_append h, List.take_left]

/-- A text is cut at its last `c`. -/
theorem eq_beforeLast_append {s : CStr} {c : Char} (h : c ∈ s) :
    s = beforeLast c s ++ c :: afterLast c s ∧ c ∉ afterLast c s := by
  obtain ⟨b, a, hrev, hb⟩ := List.eq_append_cons_of_mem (List.mem_reverse.mpr h)
  have hb : c ∉ b.reverse := fun hmem ↦ hb (List.mem_reverse.mp hmem)
  have hs : s = a.reverse ++ c :: b.reverse := by
    rw [← List.reverse_reverse s, hrev, List.reverse_append, List.reverse_cons, List.append_assoc]
    rfl
  rw [hs, afterLast_cut _ hb, beforeLast_cut _ hb]
  exact ⟨rfl, hb⟩

/-- The last `c` of a text that has one behind `a`. -/
theorem afterLast_append (a : CStr) {b : CStr} {c : Char} :
    afterLast c (a ++ c :: b) = afterLast c b := by
  by_cases hb : c ∈ b
  · obtain ⟨hcut, hlast⟩ := eq_beforeLast_append hb
    have hsplit : a ++ c :: b = (a ++ c :: beforeLast c b) ++ c :: afterLast c b := by
      rw [List.append_assoc, List.cons_append, ← hcut]
    rw [hsplit, afterLast_cut _ hlast]
  · rw [afterLast_cut a hb, afterLast_eq_self hb]

theorem beforeLast_append (a : CStr) {b : CStr} {c : Char} (h : c ∈ b) :
    beforeLast c (a ++ c :: b) = a ++ c :: beforeLast c b := by
  obtain ⟨hcut, hlast⟩ := eq_beforeLast_append h
  have hsplit : a ++ c :: b = (a ++ c :: beforeLast c b) ++ c :: afterLast c b := by
    rw [List.append_assoc, List.cons_append, ← hcut]
  rw [hsplit, beforeLast_cut _ hlast]

/-- A text without `c` is its own part before `c`. -/
theorem before_eq_self {s : CStr} {c : Char} (h : c ∉ s) : before s c = s := by
  rw [before, List.takeWhile_eq_self_iff]
  exact bne_of_not_mem h

/-- A field is scanned to its end. -/
theorem Field.scan {delim : List Char} {s : CStr} (h : Field delim s) :
    ∀ x ∈ s, (!delim.contains x) = true := by
  intro x hx
  simpa using h.2 x hx

/-- The skipping of leading delimiters stops at a field. -/
theorem Field.dropWhile_append {delim : List Char} {s : CStr} (h : Field delim s) (rest : CStr) :
    (s ++ rest).dropWhile delim.contains = s ++ rest := by
  cases s with
  | nil => exact absurd rfl h.1
  | cons x xs => simp [h.2 x (by simp)]

/-- `strtok` on a text that begins with a field. -/
theorem strtok_append {delim : List Char} {s : CStr} {c : Char} (rest : CStr)
    (hs : Field delim s) (hc : c ∈ delim) :
    strtok delim (s ++ c :: rest) = (some s, rest) := by
  obtain ⟨x, xs, rfl⟩ := List.exists_cons_of_ne_nil hs.1
  have hstop : (!delim.contains c) = false := by simpa using hc
  have hskip := hs.dropWhile_append (c :: rest)
  have htake := takeWhile_stop rest hs.scan hstop
  have hdrop := dropWhile_stop rest hs.scan hstop
  rw [List.cons_append] at hskip htake hdrop ⊢
  simp only [strtok, hskip, htake, hdrop, List.tail_cons]

/-- `strtok` on a text that is one field up to its last delimiters. -/
theorem strtok_append_delims {delim : List Char} {s fin : CStr} (hs : Field delim s)
    (hfin : ∀ c ∈ fin, c ∈ delim) : strtok delim (s ++ fin) = (some s, fin.tail) := by
  cases fin with
  | cons c rest => exact strtok_append rest hs (hfin c (by simp))
  | nil =>
      obtain ⟨x, xs, rfl⟩ := List.exists_cons_of_ne_nil hs.1
      have hskip := hs.dropWhile_append []
      have htake := List.takeWhile_eq_self_iff.mpr hs.scan
      have hdrop := List.dropWhile_eq_nil_iff.mpr hs.scan
      rw [List.append_nil] at hskip ⊢
      simp only [strtok, hskip, htake, hdrop, List.tail_nil]

/-- Delimiters at the end of a text do not change its token, and what is left keeps some of them. -/
theorem strtok_append_end {delim : List Char} (s : CStr) {fin : CStr}
    (hfin : ∀ c ∈ fin, c ∈ delim) : ∃ fin' : CStr, (∀ c ∈ fin', c ∈ fin) ∧
      strtok delim (s ++ fin) = ((strtok delim s).1, (strtok delim s).2 ++ fin') := by
  have hdelim : ∀ c ∈ fin, delim.contains c = true := by simpa using hfin
  cases hs : s.dropWhile delim.contains with
  | nil =>
      have hall := List.dropWhile_eq_nil_iff.mp hs
      have hskip : (s ++ fin).dropWhile delim.contains = [] := by
        rw [List.dropWhile_append_of_pos hall, List.dropWhile_eq_nil_iff.mpr hdelim]
      exact ⟨[], by simp, by simp only [strtok, hs, hskip, List.append_nil]⟩
  | cons x xs =>
      have hskip : (s ++ fin).dropWhile delim.contains = x :: (xs ++ fin) := by
        rw [List.dropWhile_append, hs]
        rfl
      have hcons : x :: (xs ++ fin) = x :: xs ++ fin := rfl
      by_cases hall : ∀ y ∈ x :: xs, (!delim.contains y) = true
      · have htake := List.takeWhile_eq_self_iff.mpr hall
        have hdrop := List.dropWhile_eq_nil_iff.mpr hall
        have hfield : Field delim (x :: xs) := ⟨by simp, fun y hy ↦ by simpa using hall y hy⟩
        have htoken := strtok_append_delims hfield hfin
        have hstart := hfield.dropWhile_append fin
        rw [List.cons_append] at hstart htoken
        simp only [strtok, hstart] at htoken
        refine ⟨fin.tail, fun c hc ↦ List.mem_of_mem_tail hc, ?_⟩
        simp only [strtok, hs, hskip, htoken, htake, hdrop, List.tail_nil, List.nil_append]
      · have hdrop : (x :: xs).dropWhile (!delim.contains ·) ≠ [] :=
          fun h ↦ hall (List.dropWhile_eq_nil_iff.mp h)
        have htake : ((x :: xs).takeWhile (!delim.contains ·)).length ≠ (x :: xs).length := by
          intro h
          apply hall
          rw [← List.takeWhile_eq_self_iff]
          exact (List.takeWhile_prefix _).eq_of_length h
        refine ⟨fin, fun _ h ↦ h, ?_⟩
        simp only [strtok, hs, hskip]
        rw [hcons, List.takeWhile_append, if_neg htake, List.dropWhile_append,
          if_neg (by simpa using hdrop), List.tail_append_of_ne_nil hdrop]

/-! ## Blocks of memory -/

/-- The `n` bytes at `dst` and those at `src` have a byte in common. -/
def overlap (dst src n : Nat) : Bool :=
  n ≠ 0 && dst < src + n && src < dst + n

/-- `memcpy (m + dst, m + src, n)` inside one block, byte by byte from the front. C defines it only
where the two blocks do not `overlap`. -/
def memcpy (m : List Char) (dst src : Nat) : Nat → List Char
  | 0 => m
  | n + 1 => (memcpy m dst src n).set (dst + n) ((memcpy m dst src n).getD (src + n) ' ')

@[simp] theorem length_memcpy (m : List Char) (dst src n : Nat) :
    (memcpy m dst src n).length = m.length := by
  induction n with
  | zero => rfl
  | succ n ih => rw [memcpy, List.length_set, ih]

/-- Each byte after a copy towards the front, byte by byte. -/
theorem getElem?_memcpy {m : List Char} {dst src n : Nat} (h : dst ≤ src)
    (hlen : src + n ≤ m.length) (i : Nat) :
    (memcpy m dst src n)[i]? = if dst ≤ i ∧ i < dst + n then m[src + (i - dst)]? else m[i]? := by
  induction n generalizing i with
  | zero => rw [memcpy, if_neg (by omega)]
  | succ n ih =>
      have hbyte : (memcpy m dst src n).getD (src + n) ' ' = m[src + n] := by
        rw [List.getD_eq_getElem?_getD, ih (by omega), if_neg (by omega)]
        simp [show src + n < m.length by omega]
      rw [memcpy, hbyte, List.getElem?_set]
      by_cases hi : dst + n = i
      · subst hi
        rw [if_pos rfl, if_pos (by rw [length_memcpy]; omega), if_pos (by omega),
          show src + (dst + n - dst) = src + n by omega, List.getElem?_eq_getElem (by omega)]
      · rw [if_neg hi, ih (by omega)]
        by_cases hin : dst ≤ i ∧ i < dst + n
        · rw [if_pos hin, if_pos (by omega)]
        · rw [if_neg hin, if_neg (by omega)]

/-- A copy towards the front is defined if its bytes fit into the gap between the two places. -/
theorem overlap_eq_false_iff {dst src n : Nat} (h : dst ≤ src) (hn : 0 < n) :
    overlap dst src n = false ↔ n ≤ src - dst := by
  simp only [overlap, ne_eq, decide_not, Bool.and_eq_false_iff, Bool.not_eq_false',
    decide_eq_true_eq, decide_eq_false_iff_not]
  omega

/-- The front of the block after a copy. -/
theorem take_memcpy {m : List Char} {dst src n : Nat} (h : dst ≤ src)
    (hlen : src + n ≤ m.length) :
    (memcpy m dst src n).take (dst + n) = m.take dst ++ (m.drop src).take n := by
  apply List.ext_getElem?
  intro i
  rw [List.getElem?_take, getElem?_memcpy h hlen, List.getElem?_append, List.length_take,
    min_eq_left (by omega), List.getElem?_take, List.getElem?_take, List.getElem?_drop]
  by_cases hdst : i < dst
  · rw [if_pos (by omega), if_neg (by omega), if_pos hdst, if_pos hdst]
  · by_cases hn : i < dst + n
    · rw [if_pos hn, if_pos (by omega), if_neg hdst, if_pos (by omega)]
    · rw [if_neg hn, if_neg hdst, if_neg (by omega)]

/-- A copy towards the front leaves what is behind it. -/
theorem drop_memcpy {m : List Char} {dst src n j : Nat} (h : dst ≤ src)
    (hlen : src + n ≤ m.length) (hj : dst + n ≤ j) :
    (memcpy m dst src n).drop j = m.drop j := by
  apply List.ext_getElem?
  intro i
  rw [List.getElem?_drop, List.getElem?_drop, getElem?_memcpy h hlen, if_neg (by omega)]

/-! ## Decimal numbers -/

/-- The decimal text of a number, as `%u` prints it. -/
def decimal (n : Nat) : CStr :=
  Nat.toDigits 10 n

/-- The blanks that `atol` skips. -/
def isSpace (c : Char) : Bool :=
  c = ' ' ∨ (9 ≤ c.toNat ∧ c.toNat ≤ 13)

/-- The value of the digits at the head of a text. -/
def digits (s : CStr) : Nat :=
  Nat.ofDigitChars 10 (s.takeWhile Char.isDigit) 0

/-- `atol` with a 64-bit `long`: blanks, an optional sign and digits, the value kept within the
range of the type. -/
def atol (s : CStr) : Int :=
  match s.dropWhile isSpace with
  | '-' :: rest => max (-2 ^ 63) (-digits rest)
  | '+' :: rest => min (2 ^ 63 - 1) (digits rest)
  | rest => min (2 ^ 63 - 1) (digits rest)

/-- The conversion of an integer to a 32-bit `unsigned int`. -/
def toUnsigned (n : Int) : Nat :=
  (n % 2 ^ 32).toNat

theorem toUnsigned_lt (n : Int) : toUnsigned n < 2 ^ 32 := by
  unfold toUnsigned
  omega

theorem toUnsigned_of_lt {n : Nat} (h : n < 2 ^ 32) : toUnsigned n = n := by
  unfold toUnsigned
  omega

/-- Every character of a decimal text is a digit. -/
theorem isDigit_of_mem_decimal {n : Nat} {c : Char} (h : c ∈ decimal n) : c.isDigit = true :=
  Nat.isDigit_of_mem_toDigits (by omega) (by omega) h

theorem decimal_ne_nil (n : Nat) : decimal n ≠ [] :=
  Nat.toDigits_ne_nil

/-- A character that is not a digit does not occur in a decimal text. -/
theorem not_mem_decimal {n : Nat} {c : Char} (hc : c.isDigit = false) : c ∉ decimal n :=
  fun h ↦ by simp [isDigit_of_mem_decimal h] at hc

/-- A digit is not a blank. -/
theorem isSpace_of_isDigit {c : Char} (hc : c.isDigit = true) : isSpace c = false := by
  simp only [Char.isDigit, ge_iff_le, Bool.and_eq_true, decide_eq_true_eq,
    UInt32.le_iff_toNat_le] at hc
  have h48 : 48 ≤ c.toNat := hc.1
  simp only [isSpace, decide_eq_false_iff_not, not_or, not_and]
  refine ⟨?_, fun _ ↦ by omega⟩
  rintro rfl
  revert h48
  decide

/-- `atol` reads a number that begins with a digit, whatever follows its digits. -/
theorem atol_cifras {cifras rest : CStr} (hne : cifras ≠ [])
    (hdigit : ∀ x ∈ cifras, x.isDigit = true) (hrest : rest.head?.all (fun c ↦ !c.isDigit)) :
    atol (cifras ++ rest) = min (2 ^ 63 - 1) (Nat.ofDigitChars 10 cifras 0 : Int) := by
  obtain ⟨c, cs, hcs⟩ := List.exists_cons_of_ne_nil hne
  have hc : c.isDigit = true := hdigit c (by simp [hcs])
  have htake : (cifras ++ rest).takeWhile Char.isDigit = cifras := by
    rw [List.takeWhile_append_of_pos hdigit]
    cases rest with
    | nil => simp
    | cons r rs => simpa using hrest
  have hval : digits (cifras ++ rest) = Nat.ofDigitChars 10 cifras 0 := by
    rw [digits, htake]
  have hdrop : (cifras ++ rest).dropWhile isSpace = cifras ++ rest := by
    simp [hcs, isSpace_of_isDigit hc]
  have hminus : c ≠ '-' := by rintro rfl; exact absurd hc (by decide)
  have hplus : c ≠ '+' := by rintro rfl; exact absurd hc (by decide)
  unfold atol
  rw [hdrop, ← hval]
  rw [hcs, List.cons_append]
  split
  · next heq => exact absurd (List.cons.inj heq).1 hminus
  · next heq => exact absurd (List.cons.inj heq).1 hplus
  · rfl

/-- `atol` reads a decimal text back, whatever follows it that is not a digit. -/
theorem atol_decimal_append {n : Nat} {rest : CStr} (hn : n < 2 ^ 63)
    (hrest : rest.head?.all (fun c ↦ !c.isDigit)) : atol (decimal n ++ rest) = n := by
  rw [atol_cifras (decimal_ne_nil n) (fun _ hx ↦ isDigit_of_mem_decimal hx) hrest, decimal,
    Nat.ofDigitChars_ten_toDigits]
  omega

/-- `atoi`: the conversion of an `atol` to a 32-bit `int`. -/
def atoi (s : CStr) : Int :=
  (atol s).bmod (2 ^ 32)

/-- The decimal text of an integer, as `%d` prints it. -/
def entero (n : Int) : CStr :=
  if n < 0 then '-' :: decimal n.natAbs else decimal n.natAbs

/-- `atol` reads an integer back. -/
theorem atol_entero {n : Int} (hmin : -2 ^ 63 ≤ n) (hmax : n < 2 ^ 63) : atol (entero n) = n := by
  by_cases hneg : n < 0
  · have htake : (decimal n.natAbs).takeWhile Char.isDigit = decimal n.natAbs :=
      List.takeWhile_eq_self_iff.mpr fun x hx ↦ isDigit_of_mem_decimal hx
    have hval : digits (decimal n.natAbs) = n.natAbs := by
      rw [digits, htake, decimal, Nat.ofDigitChars_ten_toDigits]
    have hspace : ('-' :: decimal n.natAbs).dropWhile isSpace = '-' :: decimal n.natAbs :=
      List.dropWhile_cons_of_neg (by decide)
    rw [entero, if_pos hneg, atol, hspace]
    show max (-2 ^ 63) (-(digits (decimal n.natAbs) : Int)) = n
    rw [hval]
    omega
  · have hread := @atol_decimal_append n.natAbs [] (by omega) rfl
    rw [List.append_nil] at hread
    rw [entero, if_neg hneg, hread]
    omega

/-- `atoi` reads an `int` back. -/
theorem atoi_entero {n : Int} (hmin : -2 ^ 31 ≤ n) (hmax : n < 2 ^ 31) : atoi (entero n) = n := by
  rw [atoi, atol_entero (by omega) (by omega)]
  exact Int.bmod_eq_of_le (by omega) (by omega)

/-! ## Text inside a line -/

/-- A text as it stands inside a line: no line end and no terminator. -/
def Plain (s : CStr) : Prop :=
  '\n' ∉ s ∧ '\r' ∉ s ∧ nul ∉ s

instance (s : CStr) : Decidable (Plain s) :=
  inferInstanceAs (Decidable (_ ∧ _))

theorem plain_append {s t : CStr} : Plain (s ++ t) ↔ Plain s ∧ Plain t := by
  simp only [Plain, List.mem_append, not_or]
  grind

/-- The parts of a plain text are plain. -/
theorem Plain.of_subset {s t : CStr} (h : Plain s) (hts : ∀ c ∈ t, c ∈ s) : Plain t :=
  ⟨fun hc ↦ h.1 (hts _ hc), fun hc ↦ h.2.1 (hts _ hc), fun hc ↦ h.2.2 (hts _ hc)⟩

theorem Plain.not_mem {s : CStr} (h : Plain s) {c : Char} (hc : c = '\n' ∨ c = '\r') :
    c ∉ s := by
  rcases hc with rfl | rfl
  exacts [h.1, h.2.1]

/-- A word of a line: nonempty and without blanks. -/
def Word (s : CStr) : Prop :=
  s ≠ [] ∧ ' ' ∉ s ∧ Plain s

instance (s : CStr) : Decidable (Word s) :=
  inferInstanceAs (Decidable (_ ∧ _))

/-- A word is a field when every delimiter is a blank or a line end. -/
theorem Word.field {s : CStr} (h : Word s) {delim : List Char}
    (hd : ∀ c ∈ delim, c = ' ' ∨ c = '\r' ∨ c = '\n') : Field delim s := by
  refine ⟨h.1, fun c hc hmem ↦ ?_⟩
  rcases hd c hmem with rfl | rfl | rfl
  exacts [h.2.1 hc, h.2.2.2.1 hc, h.2.2.1 hc]

/-- A number prints as a word. -/
theorem word_decimal (n : Nat) : Word (decimal n) :=
  ⟨decimal_ne_nil n, not_mem_decimal rfl, not_mem_decimal rfl, not_mem_decimal rfl,
    not_mem_decimal rfl⟩

end CString
