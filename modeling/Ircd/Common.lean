import Ircd.Lib.CString

/-!
# What the modules share

The lengths of texts and classes of characters that several parts of the program use. `toLower` is the table `NTL_tolower_tab` of `ircd/common.c`, which folds ASCII letters, the IRC
punctuation pairs and the Latin-1 letters. `strhash` is the hash of `ircd/hash.c`, with the tables
`hash_weight` and `hash_map` as the functions `hash_init` fills them from.
-/

namespace Ircd

open CString

/-! ## Lengths -/

/-- The size of the buffer of a client, and of the other buffers for a line. -/
abbrev BUFSIZE : Nat := 512

def NICKLEN : Nat := 30

def USERLEN : Nat := 10

def HOSTLEN : Nat := 63

def REALLEN : Nat := 70

/-! ## Characters -/

/-- A line ends with a carriage return or a line feed. -/
def finLinea (g : Char) : Bool :=
  g = '\n' ∨ g = '\r'

/-- `isAlpha`: the characters with `NTL_ALPHA` in `NTL_char_attrib`, which are the letters and the
punctuation that IRC counts among them. -/
def isAlpha (c : Char) : Bool :=
  (0x41 ≤ c.toNat ∧ c.toNat ≤ 0x5e) ∨ (0x61 ≤ c.toNat ∧ c.toNat ≤ 0x7e)

/-- The codes that `NTL_tolower_tab` moves up by 32. -/
def isUpperCode (n : Nat) : Bool :=
  (0x41 ≤ n ∧ n ≤ 0x5e) ∨ (0xc0 ≤ n ∧ n ≤ 0xcf) ∨ (0xd1 ≤ n ∧ n ≤ 0xd6) ∨ (0xd8 ≤ n ∧ n ≤ 0xde)

/-- The lower-case form of a character. -/
def toLower (c : Char) : Char :=
  if isUpperCode c.toNat then Char.ofNat (c.toNat + 32) else c

/-- A code that is moved up is no longer one that moves. -/
theorem isUpperCode_add {n : Nat} (h : isUpperCode n = true) : isUpperCode (n + 32) = false := by
  simp only [isUpperCode, decide_eq_true_eq, decide_eq_false_iff_not] at h ⊢
  omega

theorem toNat_ofNat_of_isUpperCode {n : Nat} (h : isUpperCode n = true) :
    (Char.ofNat (n + 32)).toNat = n + 32 := by
  simp only [isUpperCode, decide_eq_true_eq] at h
  have hvalid : (n + 32).isValidChar := .inl (by omega)
  have hofNat : Char.ofNat (n + 32) = Char.ofNatAux (n + 32) hvalid := dif_pos hvalid
  rw [hofNat]
  rfl

/-- Folding a folded character changes nothing. -/
@[simp] theorem toLower_toLower (c : Char) : toLower (toLower c) = toLower c := by
  by_cases h : isUpperCode c.toNat = true
  · have hcode := toNat_ofNat_of_isUpperCode h
    simp [toLower, h, hcode, isUpperCode_add h]
  · simp [toLower, h]

/-- A folded character is not one that moves. -/
theorem isUpperCode_toLower (c : Char) : isUpperCode (toLower c).toNat = false := by
  by_cases h : isUpperCode c.toNat = true
  · rw [toLower, if_pos h, toNat_ofNat_of_isUpperCode h]
    exact isUpperCode_add h
  · rw [toLower, if_neg h]
    simpa using h

/-- Characters without case. -/
theorem toLower_eq_iff {c d : Char} (hd : toLower d = d) (hup : d.toNat < 32 + 0x41) :
    toLower c = d ↔ c = d := by
  constructor
  · intro h
    by_cases hc : isUpperCode c.toNat = true
    · have hcode := congrArg Char.toNat h
      rw [toLower, if_pos hc, toNat_ofNat_of_isUpperCode hc] at hcode
      simp only [isUpperCode, decide_eq_true_eq] at hc
      omega
    · rwa [toLower, if_neg hc] at h
  · rintro rfl
    exact hd

/-- Only the terminator is folded to the terminator. -/
@[simp] theorem toLower_eq_nul {c : Char} : toLower c = nul ↔ c = nul :=
  toLower_eq_iff (by decide) (by decide)

/-- The lower-case copy of a key, made by the loop over `toLower`. -/
def fold (s : CStr) : CStr :=
  s.map toLower

@[simp] theorem fold_fold (s : CStr) : fold (fold s) = fold s := by
  simp [fold]

/-- `hash_weight`: the byte of the first character that is equal up to case. -/
def hashWeight (c : Char) : Nat :=
  let n := c.toNat
  if 32 ≤ n ∧ isUpperCode (n - 32) then n - 32 else n

/-- The number of buckets of the name tables, the modulus of `strhash`. -/
def HASHSIZE : Nat := 32768

/-- `hash_map`: multiplication by `HASHSHIFT` modulo `HASHSIZE`. -/
def hashMap (h : Nat) : Nat :=
  h * 257 % HASHSIZE

/-- The hash of a nonempty string. -/
def strhash : CStr → Nat
  | [] => 0
  | c :: n => hashMap (n.foldl (fun h c ↦ hashMap h + hashWeight c) (hashWeight c))

end Ircd
