import Ircd.Addr.Text
import Ircd.Crule.Token
import Ircd.Mask.Charset
import Mathlib.Data.List.Chain

/-!
# User names

The check that `register_user` of `ircd/s_user.c` makes of the user name. One pass keeps the
counters, and what it does not find out on the way is decided from them. A letter is there what
`isLower` and `isUpper` say, which count the IRC punctuation pairs in; `aceptado_iff` tells exactly
for which names the check is the rule of its comment.
-/

namespace Ircd.User.Username

open CString Match

/-! ## The check -/

def NTL_ALNUM : BitVec 32 := 0x0001

def NTL_DIGIT : BitVec 32 := 0x0008

def isLower (c : Char) : Bool :=
  ntlCharAttrib c &&& NTL_LOWER ≠ 0

def isUpper (c : Char) : Bool :=
  ntlCharAttrib c &&& NTL_UPPER ≠ 0

def isDigit (c : Char) : Bool :=
  ntlCharAttrib c &&& NTL_DIGIT ≠ 0

def isAlnum (c : Char) : Bool :=
  ntlCharAttrib c &&& NTL_ALNUM ≠ 0

/-- One of the three characters that may separate the others. -/
def esOtro (c : Char) : Bool :=
  c = '-' ∨ c = '_' ∨ c = '.'

/-- A third separator, or a third group of digits. -/
def sobra (n : Nat) : Bool :=
  2 < n

/-- The local variables of the check. A line is too short for the counters, which are of type
`short`, to overflow. -/
structure Cuenta where
  pos : Nat := 0
  lower : Nat := 0
  upper : Nat := 0
  leadcaps : Nat := 0
  other : Nat := 0
  digits : Nat := 0
  digitgroups : Nat := 0
  badid : Bool := false
  c : Char := '\x00'
  d : Char := 'a'

namespace Cuenta

/-- The tests of one round of the loop. -/
def revisa (st : Cuenta) (c : Char) : Cuenta :=
  if isLower c then { st with lower := st.lower + 1 }
  else if isUpper c then
    { st with
      upper := st.upper + 1
      leadcaps := if (st.leadcaps ≠ 0 ∨ st.pos = 1) ∧ st.lower = 0 ∧ st.digits = 0 then
          st.leadcaps + 1
        else st.leadcaps }
  else if isDigit c then
    if st.pos = 1 ∨ isDigit st.d = false then
      { st with
        digits := st.digits + 1
        digitgroups := st.digitgroups + 1
        badid := st.badid || sobra (st.digitgroups + 1) }
    else { st with digits := st.digits + 1 }
  else if esOtro c then
    { st with
      other := st.other + 1
      badid := st.badid || decide (st.pos = 1 ∨ esOtro st.d ∨ sobra (st.other + 1)) }
  else { st with badid := true }

/-- One round of the loop. -/
def caracter (st : Cuenta) (c : Char) : Cuenta :=
  { revisa { st with pos := st.pos + 1, c := c } c with d := c }

/-- The loop. -/
def recorre (st : Cuenta) : CStr → Cuenta
  | [] => st
  | c :: tmpstr => if st.badid then st else (st.caracter c).recorre tmpstr

/-- The tests behind the loop. The character `inicio` is `tmpstr2[0]`. -/
def falla (st : Cuenta) (inicio : Char) : Bool :=
  if st.lower ≠ 0 ∧ st.upper ≠ 0 ∧
      (st.leadcaps = 0 ∨ 3 < st.leadcaps ∨ 2 < st.upper ∧ st.leadcaps < st.upper) then true
  else if st.digitgroups = 2 ∧ ¬(isDigit inicio ∨ isDigit st.c) then true
  else if st.lower = 0 ∧ st.upper = 0 ∨ ¬isAlnum st.c then true
  else false

end Cuenta

/-- The name behind a leading tilde. -/
def sinTilde (username : CStr) : CStr :=
  if username.head? = some '~' then username.tail else username

/-- `badid` at the end of the check. -/
def badid (username : CStr) : Bool :=
  let tmpstr2 := sinTilde username
  let st := Cuenta.recorre {} tmpstr2
  st.badid || st.falla (tmpstr2.headD '\x00')

/-- Whether `register_user` refuses a user name. The name `ident` is the one of the client, with
`gotid` when an ident server has answered. -/
def rechazado (desactivarIdent gotid : Bool) (ident username : CStr) : Bool :=
  !desactivarIdent && (badid username && (!gotid || decide (ident ≠ username)))

/-! ## The rule -/

/-- The groups of digits, behind a digit or not. -/
def gruposDesde : Bool → CStr → Nat
  | _, [] => 0
  | previo, c :: u => (if c.isDigit ∧ previo = false then 1 else 0) + gruposDesde c.isDigit u

/-- The number of groups of digits. -/
def grupos (u : CStr) : Nat :=
  gruposDesde false u

/-- The rule, for letters that are told by `min` and `may`. -/
structure Regla (min may : Char → Bool) (u : CStr) : Prop where
  permitidos : ∀ c ∈ u, min c ∨ may c ∨ c.isDigit ∨ esOtro c
  letra : ∃ c ∈ u, min c ∨ may c
  otros : u.countP esOtro ≤ 2
  separados : u.IsChain fun a b ↦ ¬(esOtro a ∧ esOtro b)
  primero : ∀ c ∈ u.head?, ¬esOtro c
  ultimo : ∀ c ∈ u.getLast?, ¬esOtro c
  digitos : grupos u ≤ 2
  extremo : grupos u = 2 → (∃ c ∈ u.head?, c.isDigit) ∨ ∃ c ∈ u.getLast?, c.isDigit
  mayusculas : (∃ c ∈ u, min c) → (∃ c ∈ u, may c) → (∃ c ∈ u.head?, may c) ∧
    (u.countP may ≤ 2 ∨ u.countP may = 3 ∧ u.Pairwise fun a b ↦ may b → ¬(min a ∨ a.isDigit))

/-- The characters that the check takes for letters. -/
def especiales : List Char :=
  ['[', '\\', ']', '^', '{', '|', '}', '~']

/-! ## Characters -/

/-- The attributes that the check asks for, as ranges of codes. -/
theorem attribCode_bits {n : Nat} (h : n < 256) :
    ((attribCode n).getLsbD 5 = true ↔ 0x61 ≤ n ∧ n ≤ 0x7e) ∧
      ((attribCode n).getLsbD 9 = true ↔ 0x41 ≤ n ∧ n ≤ 0x5e) ∧
      ((attribCode n).getLsbD 3 = true ↔ 0x30 ≤ n ∧ n ≤ 0x39) ∧
      ((attribCode n).getLsbD 0 = true ↔
        0x30 ≤ n ∧ n ≤ 0x39 ∨ 0x41 ≤ n ∧ n ≤ 0x5e ∨ 0x61 ≤ n ∧ n ≤ 0x7e) := by
  have htable : ∀ n < 256,
      ((attribCode n).getLsbD 5 = true ↔ 0x61 ≤ n ∧ n ≤ 0x7e) ∧
        ((attribCode n).getLsbD 9 = true ↔ 0x41 ≤ n ∧ n ≤ 0x5e) ∧
        ((attribCode n).getLsbD 3 = true ↔ 0x30 ≤ n ∧ n ≤ 0x39) ∧
        ((attribCode n).getLsbD 0 = true ↔
          0x30 ≤ n ∧ n ≤ 0x39 ∨ 0x41 ≤ n ∧ n ≤ 0x5e ∨ 0x61 ≤ n ∧ n ≤ 0x7e) := by
    decide +kernel
  exact htable n h

/-- A bit of the attributes of a character, where none is set from 256 on. -/
theorem attrib_bit {i : Nat} (hi : i < 32) {P : Nat → Prop} (hP : ∀ n, P n → n < 256)
    (h : ∀ n < 256, (attribCode n).getLsbD i = true ↔ P n) (c : Char) :
    ntlCharAttrib c &&& BitVec.twoPow 32 i ≠ 0 ↔ P c.toNat := by
  rw [and_twoPow_ne_zero _ hi, ntlCharAttrib]
  by_cases hlt : c.toNat < 256
  · exact h _ hlt
  · have hcero : (attribCode c.toNat).getLsbD i = false := by
      rw [attribCode_of_le (not_lt.mp hlt)]
      exact BitVec.getLsbD_zero
    exact iff_of_false (by rw [hcero]; exact Bool.false_ne_true) fun hp ↦ hlt (hP _ hp)

theorem isLower_iff (c : Char) : isLower c = true ↔ 0x61 ≤ c.toNat ∧ c.toNat ≤ 0x7e := by
  rw [isLower, decide_eq_true_eq]
  exact attrib_bit (i := 5) (by omega) (P := fun n ↦ 0x61 ≤ n ∧ n ≤ 0x7e) (by omega)
    (fun n hn ↦ (attribCode_bits hn).1) c

theorem isUpper_iff (c : Char) : isUpper c = true ↔ 0x41 ≤ c.toNat ∧ c.toNat ≤ 0x5e := by
  rw [isUpper, decide_eq_true_eq]
  exact attrib_bit (i := 9) (by omega) (P := fun n ↦ 0x41 ≤ n ∧ n ≤ 0x5e) (by omega)
    (fun n hn ↦ (attribCode_bits hn).2.1) c

theorem isDigit_iff (c : Char) : isDigit c = true ↔ 0x30 ≤ c.toNat ∧ c.toNat ≤ 0x39 := by
  rw [isDigit, decide_eq_true_eq]
  exact attrib_bit (i := 3) (by omega) (P := fun n ↦ 0x30 ≤ n ∧ n ≤ 0x39) (by omega)
    (fun n hn ↦ (attribCode_bits hn).2.2.1) c

theorem isAlnum_iff (c : Char) : isAlnum c = true ↔ isDigit c ∨ isUpper c ∨ isLower c := by
  rw [isDigit_iff, isUpper_iff, isLower_iff, isAlnum, decide_eq_true_eq]
  exact attrib_bit (i := 0) (by omega)
    (P := fun n ↦ 0x30 ≤ n ∧ n ≤ 0x39 ∨ 0x41 ≤ n ∧ n ≤ 0x5e ∨ 0x61 ≤ n ∧ n ≤ 0x7e) (by omega)
    (fun n hn ↦ (attribCode_bits hn).2.2.2) c

theorem esOtro_iff (c : Char) : esOtro c = true ↔ c.toNat = 0x2d ∨ c.toNat = 0x5f ∨
    c.toNat = 0x2e := by
  simp only [esOtro, decide_eq_true_eq, ← Char.toNat_inj]
  rfl

/-- The four kinds of characters of the loop have no character in common. -/
theorem clases (c : Char) :
    (isLower c → isUpper c = false ∧ isDigit c = false ∧ esOtro c = false) ∧
      (isUpper c → isDigit c = false ∧ esOtro c = false) ∧ (isDigit c → esOtro c = false) := by
  simp only [← Bool.not_eq_true, isLower_iff, isUpper_iff, isDigit_iff, esOtro_iff]
  omega

/-- The digits are the ones of ASCII. -/
theorem isDigit_eq (c : Char) : isDigit c = c.isDigit := by
  rw [Bool.eq_iff_iff, isDigit_iff, Char.isDigit_iff_toNat]
  rfl

/-- The letters and digits of connection rules and of addresses are the same. -/
theorem isAlnum_eq (c : Char) : isAlnum c = Crule.isAlnum c ∧ isDigit c = Addr.isDigit c := by
  have hdigit : isDigit c = Addr.isDigit c := by
    rw [Bool.eq_iff_iff, isDigit_iff, Addr.isDigit, decide_eq_true_eq, Char.le_def, Char.le_def]
    rfl
  refine ⟨?_, hdigit⟩
  rw [Bool.eq_iff_iff, isAlnum_iff, isDigit_eq, isUpper_iff, isLower_iff, Crule.isAlnum,
    decide_eq_true_eq, isAlpha, decide_eq_true_eq]
  tauto

theorem mem_especiales_iff (c : Char) :
    c ∈ especiales ↔ 0x5b ≤ c.toNat ∧ c.toNat ≤ 0x5e ∨ 0x7b ≤ c.toNat ∧ c.toNat ≤ 0x7e := by
  have hcodes : c ∈ especiales ↔ c.toNat ∈ especiales.map Char.toNat :=
    (List.mem_map_of_injective fun _ _ ↦ Char.toNat_inj.mp).symm
  have hlist : especiales.map Char.toNat = [0x5b, 0x5c, 0x5d, 0x5e, 0x7b, 0x7c, 0x7d, 0x7e] := rfl
  rw [hcodes, hlist]
  simp only [List.mem_cons, List.not_mem_nil, or_false]
  omega

/-- The letters are the ones of ASCII and eight more. -/
theorem letra_ascii (c : Char) :
    (isLower c = true ↔ c.isLower ∨ 0x7b ≤ c.toNat ∧ c.toNat ≤ 0x7e) ∧
      (isUpper c = true ↔ c.isUpper ∨ 0x5b ≤ c.toNat ∧ c.toNat ≤ 0x5e) := by
  have hlower : c.isLower = (decide (c.val ≥ 'a'.val) && decide (c.val ≤ 'z'.val)) := rfl
  have hupper : c.isUpper = decide (c.val ≥ 'A'.val ∧ c.val ≤ 'Z'.val) := rfl
  rw [isLower_iff, isUpper_iff, hlower, hupper]
  simp only [UInt32.le_iff_toNat_le, ge_iff_le, Bool.and_eq_true,
    decide_eq_true_eq, Char.toNat, Char.reduceVal, UInt32.reduceToNat]
  omega

/-! ## What the loop has counted -/

/-- A character that may stand before the last of the letters at the beginning. -/
def esCabeza (c : Char) : Bool :=
  !isLower c && !isDigit c

/-- The upper-case letters before the first digit or lower-case letter, in a name that begins with
one. -/
def cabeza (u : CStr) : Nat :=
  if u.head?.any isUpper then (u.takeWhile esCabeza).countP isUpper else 0

/-- The variables of the loop behind the characters `u`. -/
def estado (u : CStr) : Cuenta where
  pos := u.length
  lower := u.countP isLower
  upper := u.countP isUpper
  leadcaps := cabeza u
  other := u.countP esOtro
  digits := u.countP isDigit
  digitgroups := grupos u
  c := u.getLastD '\x00'
  d := u.getLastD 'a'

/-- What the loop finds out on the way. -/
structure Limpio (u : CStr) : Prop where
  permitidos : ∀ c ∈ u, isLower c ∨ isUpper c ∨ c.isDigit ∨ esOtro c
  otros : u.countP esOtro ≤ 2
  separados : u.IsChain fun a b ↦ ¬(esOtro a ∧ esOtro b)
  primero : ∀ c ∈ u.head?, ¬esOtro c
  digitos : grupos u ≤ 2

/-- What the loop asks of one character behind `u`. -/
def Paso (u : CStr) (c : Char) : Prop :=
  (isLower c ∨ isUpper c ∨ isDigit c ∨ esOtro c) ∧
    (esOtro c → u ≠ [] ∧ esOtro (u.getLastD 'a') = false ∧ sobra (u.countP esOtro + 1) = false) ∧
    (isDigit c → u = [] ∨ isDigit (u.getLastD 'a') = false → sobra (grupos u + 1) = false)

theorem sobra_eq_false (n : Nat) : sobra n = false ↔ n ≤ 2 := by
  rw [sobra, decide_eq_false_iff_not, not_lt]

theorem gruposDesde_concat (b : Bool) (u : CStr) (c : Char) :
    gruposDesde b (u ++ [c]) = gruposDesde b u +
      if c.isDigit ∧ (u.getLast?.map Char.isDigit).getD b = false then 1 else 0 := by
  induction u generalizing b with
  | nil =>
      rw [List.nil_append, gruposDesde, gruposDesde, gruposDesde, Nat.add_zero, Nat.zero_add]
      rfl
  | cons a u ih =>
      rw [List.cons_append, gruposDesde, ih, gruposDesde, Nat.add_assoc, List.getLast?_cons]
      cases u.getLast? <;> rfl

theorem getLastD_concat (u : CStr) (c d : Char) : (u ++ [c]).getLastD d = c := by
  simp

/-- A digit begins a group where no digit is before it. -/
theorem grupos_concat (u : CStr) (c : Char) : grupos (u ++ [c]) =
    grupos u + if isDigit c ∧ (u = [] ∨ isDigit (u.getLastD 'a') = false) then 1 else 0 := by
  rw [grupos, gruposDesde_concat, grupos]
  congr 1
  refine if_congr (and_congr (by rw [isDigit_eq]) ?_) rfl rfl
  cases u using List.reverseRecOn with
  | nil => simp
  | append_singleton u a => simp [isDigit_eq]

instance (u : CStr) (c : Char) : Decidable (Paso u c) :=
  inferInstanceAs (Decidable (_ ∧ _ ∧ _))

theorem limpio_nil : Limpio [] where
  permitidos := by simp
  otros := by simp
  separados := List.isChain_nil
  primero := by simp
  digitos := by simp [grupos, gruposDesde]

/-- A character keeps the separators apart if it is none or the one before it is none. -/
theorem separados_concat (u : CStr) (c : Char) :
    (u ++ [c]).IsChain (fun a b ↦ ¬(esOtro a ∧ esOtro b)) ↔
      u.IsChain (fun a b ↦ ¬(esOtro a ∧ esOtro b)) ∧
        (esOtro c → u ≠ [] → esOtro (u.getLastD 'a') = false) := by
  rw [List.isChain_append]
  cases u using List.reverseRecOn with
  | nil => simp
  | append_singleton u a =>
      refine and_congr_right fun hu ↦ ?_
      by_cases hc : esOtro c = true <;> simp [hc]

/-- The loop finds out at each character whether the name is still in order. -/
theorem limpio_concat (u : CStr) (c : Char) : Limpio (u ++ [c]) ↔ Limpio u ∧ Paso u c := by
  have hcount : (u ++ [c]).countP esOtro = u.countP esOtro + if esOtro c then 1 else 0 := by
    rw [List.countP_append, List.countP_singleton]
  have hgrupos := grupos_concat u c
  have hdigit := isDigit_eq c
  constructor
  · intro h
    have hchain := (separados_concat u c).mp h.separados
    have hotros := hcount ▸ h.otros
    have hdigitos := hgrupos ▸ h.digitos
    refine ⟨⟨fun a ha ↦ h.permitidos a (List.mem_append_left _ ha), by omega, hchain.1,
      fun a ha ↦ h.primero a ?_, by omega⟩, ?_, fun hc ↦ ?_, fun hc hnew ↦ ?_⟩
    · rw [List.head?_append, Option.mem_def.mp ha]
      rfl
    · rw [hdigit]
      exact h.permitidos c (by simp)
    · have hne : u ≠ [] := fun hnil ↦ h.primero c (by simp [hnil]) hc
      rw [if_pos hc] at hotros
      exact ⟨hne, hchain.2 hc hne, (sobra_eq_false _).mpr hotros⟩
    · rw [if_pos ⟨hc, hnew⟩] at hdigitos
      exact (sobra_eq_false _).mpr hdigitos
  · intro hlimpio
    obtain ⟨h, hperm, hotro, hdig⟩ := hlimpio
    refine ⟨fun a ha ↦ ?_, ?_, (separados_concat u c).mpr ⟨h.separados, fun hc _ ↦ (hotro hc).2.1⟩,
      fun a ha ↦ ?_, ?_⟩
    · obtain hu | rfl := (List.mem_append.mp ha).imp_right List.mem_singleton.mp
      · exact h.permitidos a hu
      · rwa [hdigit] at hperm
    · rw [hcount]
      split
      · next hc => exact (sobra_eq_false _).mp (hotro hc).2.2
      · exact h.otros
    · cases u with
      | nil =>
          obtain rfl : c = a := by simpa using ha
          exact fun hc ↦ (hotro hc).1 rfl
      | cons b u => exact h.primero a ha
    · rw [hgrupos]
      split
      · next hc => exact (sobra_eq_false _).mp (hdig hc.1 hc.2)
      · exact h.digitos

/-- What is counted at the beginning of a list, when a character is put at its end. -/
theorem countP_takeWhile_concat (p q : Char → Bool) (u : CStr) (c : Char) :
    ((u ++ [c]).takeWhile q).countP p =
      (u.takeWhile q).countP p + if u.all q ∧ q c ∧ p c then 1 else 0 := by
  induction u with
  | nil => cases hq : q c <;> cases hp : p c <;> simp [hq, hp]
  | cons a u ih =>
      by_cases ha : q a = true
      · simp [ha, ih, List.countP_cons, Nat.add_right_comm]
      · simp [ha]

theorem esCabeza_of_isUpper {c : Char} (h : isUpper c = true) : esCabeza c = true := by
  have hlow : ¬isLower c := fun hl ↦ by simp [(clases c).1 hl] at h
  simp [esCabeza, hlow, ((clases c).2.1 h).1]

/-- No digit or lower-case letter has been met. -/
theorem all_esCabeza_iff (u : CStr) :
    u.all esCabeza = true ↔ u.countP isLower = 0 ∧ u.countP isDigit = 0 := by
  rw [List.countP_eq_zero, List.countP_eq_zero, List.all_eq_true]
  simp only [esCabeza, Bool.and_eq_true, Bool.not_eq_true', Bool.not_eq_true, ← forall_and]

theorem cabeza_cons {a : Char} (h : isUpper a = true) (u : CStr) :
    cabeza (a :: u) = ((a :: u).takeWhile esCabeza).countP isUpper := by
  simp [cabeza, h]

theorem cabeza_cons_ne_zero {a : Char} (h : isUpper a = true) (u : CStr) : cabeza (a :: u) ≠ 0 := by
  rw [cabeza_cons h, List.takeWhile_cons_of_pos (esCabeza_of_isUpper h), List.countP_cons_of_pos h]
  omega

/-- A character keeps the count of the letters at the beginning, unless it is one of them. -/
theorem cabeza_concat (u : CStr) (c : Char) : cabeza (u ++ [c]) =
    if isUpper c ∧ (cabeza u ≠ 0 ∨ u = []) ∧ u.countP isLower = 0 ∧ u.countP isDigit = 0 then
      cabeza u + 1
    else cabeza u := by
  have hall := all_esCabeza_iff u
  by_cases hup : isUpper c = true
  · cases u with
    | nil => simp [cabeza, hup, esCabeza_of_isUpper hup]
    | cons a u =>
        by_cases hini : isUpper a = true
        · have hpos := cabeza_cons_ne_zero hini u
          rw [List.cons_append, cabeza_cons hini, ← List.cons_append, countP_takeWhile_concat,
            ← cabeza_cons hini]
          by_cases hlimpia : (a :: u).all esCabeza = true
          · rw [if_pos ⟨hlimpia, esCabeza_of_isUpper hup, hup⟩,
              if_pos ⟨hup, .inl hpos, hall.mp hlimpia⟩]
          · rw [if_neg fun h ↦ hlimpia h.1, if_neg fun h ↦ hlimpia (hall.mpr h.2.2)]
            rfl
        · simp [cabeza, hini]
  · rw [if_neg fun h ↦ hup h.1]
    cases u with
    | nil => simp [cabeza, hup]
    | cons a u =>
        by_cases hini : isUpper a = true
        · have hcuenta := countP_takeWhile_concat isUpper esCabeza (a :: u) c
          rw [if_neg fun h ↦ hup h.2.2] at hcuenta
          simpa [cabeza, hini] using hcuenta
        · simp [cabeza, hini]

/-- One round counts one character. -/
theorem caracter_estado (u : CStr) (c : Char) :
    (estado u).caracter c = { estado (u ++ [c]) with badid := !decide (Paso u c) } := by
  obtain ⟨hmin, hmay, hdig⟩ := clases c
  have hcab := cabeza_concat u c
  have hgru := grupos_concat u c
  by_cases h1 : isLower c = true
  · obtain ⟨h2, h3, h4⟩ := hmin h1
    have hpaso : Paso u c := by simp [Paso, h1, h3, h4]
    simp [Cuenta.caracter, Cuenta.revisa, estado, h1, h2, h3, h4, hcab, hgru, hpaso,
      List.countP_append]
  by_cases h2 : isUpper c = true
  · obtain ⟨h3, h4⟩ := hmay h2
    have hpaso : Paso u c := by simp [Paso, h2, h3, h4]
    simp [Cuenta.caracter, Cuenta.revisa, estado, h1, h2, h3, h4, hcab, hgru, hpaso,
      List.countP_append]
  by_cases h3 : isDigit c = true
  · have h4 := hdig h3
    by_cases hnew : u = [] ∨ isDigit (u.getLastD 'a') = false
    · have hpaso : Paso u c ↔ sobra (grupos u + 1) = false :=
        ⟨fun h ↦ h.2.2 h3 hnew, fun h ↦ ⟨by simp [h3], by simp [h4], fun _ _ ↦ h⟩⟩
      simp [Cuenta.caracter, Cuenta.revisa, estado, h1, h2, h3, h4, hcab, hgru, hpaso, hnew,
        List.countP_append, -List.getLastD_eq_getLast?, getLastD_concat]
    · have hpaso : Paso u c := ⟨by simp [h3], by simp [h4], fun _ hn ↦ absurd hn hnew⟩
      simp [Cuenta.caracter, Cuenta.revisa, estado, h1, h2, h3, h4, hcab, hgru, hpaso, hnew,
        List.countP_append, -List.getLastD_eq_getLast?, getLastD_concat]
  by_cases h4 : esOtro c = true
  · have hpaso : Paso u c ↔
        ¬(u = [] ∨ esOtro (u.getLastD 'a') ∨ sobra (u.countP esOtro + 1)) := by
      simp [Paso, h3, h4]
    simp [Cuenta.caracter, Cuenta.revisa, estado, h1, h2, h3, h4, hcab, hgru, hpaso,
      List.countP_append, -List.getLastD_eq_getLast?, getLastD_concat]
  · have hpaso : ¬Paso u c := by simp [Paso, h1, h2, h3, h4]
    simp [Cuenta.caracter, Cuenta.revisa, estado, h1, h2, h3, h4, hcab, hgru, hpaso,
      List.countP_append]

/-! ## The whole loop -/

theorem limpio_of_append {u t : CStr} (h : Limpio (u ++ t)) : Limpio u := by
  induction t using List.reverseRecOn with
  | nil => rwa [List.append_nil] at h
  | append_singleton t c ih =>
      rw [← List.append_assoc] at h
      exact ih ((limpio_concat _ c).mp h).1

/-- The loop comes to the end of a name in order, having counted its characters, and stops on
another one. -/
theorem recorre_estado {u : CStr} (t : CStr) (hu : Limpio u) :
    Limpio (u ++ t) ∧ (estado u).recorre t = estado (u ++ t) ∨
      ¬Limpio (u ++ t) ∧ ((estado u).recorre t).badid = true := by
  induction t generalizing u with
  | nil =>
      rw [List.append_nil]
      exact .inl ⟨hu, rfl⟩
  | cons c t ih =>
      have hronda : (estado u).recorre (c :: t) =
          ({ estado (u ++ [c]) with badid := !decide (Paso u c) } : Cuenta).recorre t := by
        rw [← caracter_estado]
        rfl
      rw [List.append_cons, hronda]
      by_cases hpaso : Paso u c
      · rw [decide_eq_true hpaso]
        exact ih ((limpio_concat u c).mpr ⟨hu, hpaso⟩)
      · refine .inr ⟨fun h ↦ hpaso ((limpio_concat u c).mp (limpio_of_append h)).2, ?_⟩
        rw [decide_eq_false hpaso]
        cases t <;> rfl

/-- The loop and the tests behind it. -/
theorem badid_eq_false_iff (username : CStr) : badid username = false ↔
    Limpio (sinTilde username) ∧ (estado (sinTilde username)).falla
      ((sinTilde username).headD '\x00') = false := by
  have hinicio : ({} : Cuenta) = estado [] := rfl
  rw [badid, hinicio]
  obtain ⟨hlimpio, hfin⟩ | ⟨hmal, hfin⟩ := recorre_estado (sinTilde username) limpio_nil
  · simp only [List.nil_append] at hlimpio hfin
    simp [hfin, hlimpio, show (estado (sinTilde username)).badid = false from rfl]
  · simp only [List.nil_append] at hmal
    simp [hfin, hmal]

/-! ## The tests behind the loop -/

variable {u : CStr}

/-- The upper-case letters all stand at the beginning. -/
theorem countP_takeWhile_eq_iff (u : CStr) :
    (u.takeWhile esCabeza).countP isUpper = u.countP isUpper ↔
      u.Pairwise fun a b ↦ isUpper b → ¬(isLower a ∨ a.isDigit) := by
  induction u with
  | nil => simp
  | cons a u ih =>
      rw [List.pairwise_cons]
      by_cases ha : esCabeza a = true
      · have hclase : ¬(isLower a ∨ a.isDigit) := by
          rw [← isDigit_eq]
          simpa [esCabeza] using ha
        rw [List.takeWhile_cons_of_pos ha, List.countP_cons, List.countP_cons,
          Nat.add_right_cancel_iff, ih]
        exact ⟨fun h ↦ ⟨fun _ _ _ ↦ hclase, h⟩, fun h ↦ h.2⟩
      · have hclase : isLower a ∨ a.isDigit := by
          rw [← isDigit_eq]
          simpa [esCabeza, or_iff_not_imp_left] using ha
        have hup : ¬isUpper a = true := fun h ↦ ha (esCabeza_of_isUpper h)
        rw [List.takeWhile_cons_of_neg ha, List.countP_nil, List.countP_cons_of_neg hup, eq_comm,
          List.countP_eq_zero]
        exact ⟨fun h ↦ ⟨fun b hb hub ↦ absurd hub (h b hb),
            List.pairwise_of_forall_mem_list fun _ _ b hb hub ↦ absurd hub (h b hb)⟩,
          fun h b hb hub ↦ h.1 b hb hub hclase⟩

/-- The test of a name with letters of both cases. -/
theorem mixta_iff (u : CStr) :
    (cabeza u = 0 ∨ 3 < cabeza u ∨ 2 < u.countP isUpper ∧ cabeza u < u.countP isUpper) ↔
      ¬((∃ c ∈ u.head?, isUpper c) ∧ (u.countP isUpper ≤ 2 ∨ u.countP isUpper = 3 ∧
        u.Pairwise fun a b ↦ isUpper b → ¬(isLower a ∨ a.isDigit))) := by
  rw [← countP_takeWhile_eq_iff]
  have hle : (u.takeWhile esCabeza).countP isUpper ≤ u.countP isUpper :=
    (List.takeWhile_sublist esCabeza).countP_le
  cases u with
  | nil => simp [cabeza]
  | cons a u =>
      by_cases hini : isUpper a = true
      · have hpos := cabeza_cons_ne_zero hini u
        simp only [List.head?_cons, Option.mem_def, Option.some.injEq, exists_eq_left', hini,
          true_and, ← cabeza_cons hini u] at hle ⊢
        omega
      · simp [cabeza, hini]

theorem falla_eq_false_iff (st : Cuenta) (inicio : Char) : st.falla inicio = false ↔
    ¬(st.lower ≠ 0 ∧ st.upper ≠ 0 ∧
        (st.leadcaps = 0 ∨ 3 < st.leadcaps ∨ 2 < st.upper ∧ st.leadcaps < st.upper)) ∧
      ¬(st.digitgroups = 2 ∧ ¬(isDigit inicio ∨ isDigit st.c)) ∧
      ¬(st.lower = 0 ∧ st.upper = 0 ∨ ¬isAlnum st.c) := by
  rw [Cuenta.falla]
  split
  · next h => exact iff_of_false Bool.true_eq_false.mp fun hno ↦ hno.1 h
  · next hmay =>
      split
      · next h => exact iff_of_false Bool.true_eq_false.mp fun hno ↦ hno.2.1 h
      · next hext =>
          split
          · next h => exact iff_of_false Bool.true_eq_false.mp fun hno ↦ hno.2.2 h
          · next hfin => exact iff_of_true rfl ⟨hmay, hext, hfin⟩

/-- The letters of a name with both cases. -/
theorem mayusculas_iff (u : CStr) :
    ((∃ c ∈ u, isLower c) → (∃ c ∈ u, isUpper c) → (∃ c ∈ u.head?, isUpper c) ∧
      (u.countP isUpper ≤ 2 ∨ u.countP isUpper = 3 ∧
        u.Pairwise fun a b ↦ isUpper b → ¬(isLower a ∨ a.isDigit))) ↔
      ¬(u.countP isLower ≠ 0 ∧ u.countP isUpper ≠ 0 ∧
        (cabeza u = 0 ∨ 3 < cabeza u ∨ 2 < u.countP isUpper ∧ cabeza u < u.countP isUpper)) := by
  rw [mixta_iff, ← List.countP_pos_iff, ← List.countP_pos_iff, Nat.pos_iff_ne_zero,
    Nat.pos_iff_ne_zero, not_and, not_and, not_not]

/-- The digits of a name with two groups of them. -/
theorem extremo_iff (u : CStr) :
    (grupos u = 2 → (∃ c ∈ u.head?, c.isDigit) ∨ ∃ c ∈ u.getLast?, c.isDigit) ↔
      ¬(grupos u = 2 ∧ ¬(isDigit (u.headD '\x00') ∨ isDigit (u.getLastD '\x00'))) := by
  have hcero : isDigit '\x00' = false := by decide
  rw [not_and, not_not]
  refine imp_congr_right fun _ ↦ or_congr ?_ ?_
  · cases u with
    | nil => simp [hcero]
    | cons a u => simp [isDigit_eq]
  · cases u using List.reverseRecOn with
    | nil => simp [hcero]
    | append_singleton u a => simp [isDigit_eq]

/-- The end of a name that the loop has found in order. -/
theorem final_iff (h : Limpio u) :
    ((∃ c ∈ u, isLower c ∨ isUpper c) ∧ ∀ c ∈ u.getLast?, ¬esOtro c) ↔
      ¬(u.countP isLower = 0 ∧ u.countP isUpper = 0 ∨ ¬isAlnum (u.getLastD '\x00')) := by
  have hletra : (∃ c ∈ u, isLower c ∨ isUpper c) ↔
      ¬(u.countP isLower = 0 ∧ u.countP isUpper = 0) := by
    rw [not_and_or, ← ne_eq, ← ne_eq, ← Nat.pos_iff_ne_zero, ← Nat.pos_iff_ne_zero,
      List.countP_pos_iff, List.countP_pos_iff, ← exists_or]
    simp only [and_or_left]
  rw [not_or, not_not, hletra]
  refine and_congr_right fun hex ↦ ?_
  cases u using List.reverseRecOn with
  | nil => simp at hex
  | append_singleton u a =>
      have hclase := h.permitidos a (by simp)
      obtain ⟨hmin, hmay, hdig⟩ := clases a
      rw [← isDigit_eq] at hclase
      rw [getLastD_concat, isAlnum_iff]
      simp only [List.getLast?_concat, Option.mem_def, Option.some.injEq, forall_eq']
      constructor
      · intro hno
        obtain h | h | h | h := hclase
        · exact .inr (.inr h)
        · exact .inr (.inl h)
        · exact .inl h
        · exact absurd h hno
      · intro halnum hotro
        obtain h | h | h := halnum
        · simp [hdig h] at hotro
        · simp [hmay h] at hotro
        · simp [hmin h] at hotro

/-- The rule with the letters of the check. -/
theorem regla_iff (u : CStr) : Regla isLower isUpper u ↔
    Limpio u ∧ (estado u).falla (u.headD '\x00') = false := by
  rw [falla_eq_false_iff]
  constructor
  · intro h
    have hlimpio : Limpio u := ⟨h.permitidos, h.otros, h.separados, h.primero, h.digitos⟩
    exact ⟨hlimpio, (mayusculas_iff u).mp h.mayusculas, (extremo_iff u).mp h.extremo,
      (final_iff hlimpio).mp ⟨h.letra, h.ultimo⟩⟩
  · intro h
    obtain ⟨hlimpio, hmay, hext, hfin⟩ := h
    have hletra := (final_iff hlimpio).mpr hfin
    exact ⟨hlimpio.permitidos, hletra.1, hlimpio.otros, hlimpio.separados, hlimpio.primero,
      hletra.2, hlimpio.digitos, (extremo_iff u).mpr hext, (mayusculas_iff u).mpr hmay⟩

/-! ## The rule of the comment -/

/-- Without the eight characters, the letters of the check are the ones of ASCII. -/
theorem letras_eq {c : Char} (h : c ∉ especiales) :
    isLower c = c.isLower ∧ isUpper c = c.isUpper := by
  rw [mem_especiales_iff] at h
  obtain ⟨hmin, hmay⟩ := letra_ascii c
  exact ⟨Bool.eq_iff_iff.mpr (hmin.trans (or_iff_left (by omega))),
    Bool.eq_iff_iff.mpr (hmay.trans (or_iff_left (by omega)))⟩

/-- The rule looks at its letters only where they stand in the name. -/
theorem regla_congr {min may min' may' : Char → Bool}
    (h : ∀ c ∈ u, min' c = min c ∧ may' c = may c) (hr : Regla min may u) : Regla min' may' u := by
  have hcount : u.countP may' = u.countP may :=
    List.countP_congr fun c hc ↦ by rw [(h c hc).2]
  refine ⟨fun c hc ↦ ?_, ?_, hr.otros, hr.separados, hr.primero, hr.ultimo, hr.digitos, hr.extremo,
    fun hmin hmay ↦ ?_⟩
  · rw [(h c hc).1, (h c hc).2]
    exact hr.permitidos c hc
  · obtain ⟨c, hc, hletra⟩ := hr.letra
    exact ⟨c, hc, by rwa [(h c hc).1, (h c hc).2]⟩
  · obtain ⟨a, ha, hmina⟩ := hmin
    obtain ⟨b, hb, hmayb⟩ := hmay
    rw [(h a ha).1] at hmina
    rw [(h b hb).2] at hmayb
    obtain ⟨⟨c, hc, hini⟩, hnum⟩ := hr.mayusculas ⟨a, ha, hmina⟩ ⟨b, hb, hmayb⟩
    rw [hcount]
    refine ⟨⟨c, hc, ?_⟩, hnum.imp_right fun htres ↦ ⟨htres.1, htres.2.imp_of_mem ?_⟩⟩
    · rwa [(h c (List.mem_of_mem_head? hc)).2]
    · intro x y hx hy hxy
      rwa [(h x hx).1, (h y hy).2]

/-- A name by the rule has none of the eight characters. -/
theorem not_especial_of_regla (h : Regla Char.isLower Char.isUpper u) :
    ∀ c ∈ u, c ∉ especiales := by
  have hascii : (especiales.all fun c ↦
      !(c.isLower || c.isUpper || c.isDigit || esOtro c)) = true := by
    decide
  intro c hc hesp
  have hno := List.all_eq_true.mp hascii c hesp
  have hletra := h.permitidos c hc
  simp only [Bool.not_eq_true', Bool.or_eq_false_iff] at hno
  simp [hno] at hletra

/-- The check of a user without ident is the rule of its comment exactly for the names that have
none of the characters `[\]^{|}~`, or that break the rule with these as letters. -/
theorem aceptado_iff (ident username : CStr) :
    (rechazado false false ident username = false ↔
      Regla Char.isLower Char.isUpper (sinTilde username)) ↔
    (Regla isLower isUpper (sinTilde username) → ∀ c ∈ sinTilde username, c ∉ especiales) := by
  have hacepta : rechazado false false ident username = false ↔
      Regla isLower isUpper (sinTilde username) := by
    rw [regla_iff, ← badid_eq_false_iff]
    simp [rechazado]
  rw [hacepta]
  constructor
  · intro h hr
    exact not_especial_of_regla (h.mp hr)
  · intro h
    constructor
    · intro hr
      refine regla_congr (fun c hc ↦ ?_) hr
      obtain ⟨hmin, hmay⟩ := letras_eq (h hr c hc)
      exact ⟨hmin.symm, hmay.symm⟩
    · intro hr
      exact regla_congr (fun c hc ↦ letras_eq (not_especial_of_regla hr c hc)) hr

/-- A brace is taken for a letter. -/
theorem not_aceptado_regla : ¬∀ ident username, rechazado false false ident username = false ↔
    Regla Char.isLower Char.isUpper (sinTilde username) := by
  intro h
  have hr := (h [] ['a', '{', 'b']).mp (by decide)
  have hllave := hr.permitidos '{' (by decide)
  exact absurd hllave (by decide)

end Ircd.User.Username
