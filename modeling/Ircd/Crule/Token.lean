import Ircd.Common

/-!
# Tokens of a connection rule

`gettoken` and `getword` are `crule_gettoken` and `crule_getword` of `ircd/crule.c`: each returns
what it writes through its pointers, and last the text it leaves `*ruleptr` at. `lexemas` is the
sequence of tokens that a caller sees that takes the word whenever a token announces one, as every
caller does. `lexemas_eq` says what stands at its head.
-/

namespace Ircd.Crule

open CString

/-- `CR_MAXARGLEN`. -/
def CR_MAXARGLEN : Nat := 80

/-- `CR_MAXARGS`. -/
def CR_MAXARGS : Nat := 3

/-- `enum crule_token`. -/
inductive Token where
  | crUnknown | crEnd | crAnd | crOr | crNot | crOpenparen | crCloseparen | crComma | crWord
  deriving DecidableEq

/-- `enum crule_errcode`. -/
inductive Errcode where
  | crNoerr | crUnexpcttok | crUnknwtok | crExpctand | crExpctor | crExpctprim | crExpctopen
  | crExpctclose | crUnknwfunc | crArgmismat
  deriving DecidableEq

/-! ## Characters -/

/-- `isAlnum`. -/
def isAlnum (c : Char) : Bool :=
  isAlpha c ∨ c.isDigit

/-- The characters other than letters and digits that a word may have. -/
def comodin (c : Char) : Bool :=
  c = '*' ∨ c = '?' ∨ c = '.' ∨ c = '-'

/-- A word may begin with the character. -/
def iniciaPalabra (c : Char) : Bool :=
  isAlpha c || comodin c

/-- A word may have the character. -/
def dePalabra (c : Char) : Bool :=
  isAlnum c || comodin c

/-- The blanks between tokens. -/
def blanco (c : Char) : Bool :=
  c = ' ' ∨ c = '\t'

theorem dePalabra_of_inicia {c : Char} (h : iniciaPalabra c = true) : dePalabra c = true := by
  rw [iniciaPalabra, Bool.or_eq_true] at h
  rw [dePalabra, isAlnum, Bool.or_eq_true]
  exact h.imp (fun h ↦ decide_eq_true (.inl h)) id

/-! ## The scanner -/

/-- `crule_gettoken` from the loop on, with `pending` and `*ruleptr`. -/
def gettokenDesde (pending : Char) : CStr → Errcode × Token × CStr
  | [] => (.crNoerr, .crEnd, [])
  | c :: r =>
    if blanco c then gettokenDesde pending r
    else if c = '&' then
      if pending = nul then gettokenDesde '&' r
      else if pending = '&' then (.crNoerr, .crAnd, r)
      else (.crUnknwtok, .crUnknown, r)
    else if c = '|' then
      if pending = nul then gettokenDesde '|' r
      else if pending = '|' then (.crNoerr, .crOr, r)
      else (.crUnknwtok, .crUnknown, r)
    else if c = '!' then (.crNoerr, .crNot, r)
    else if c = '(' then (.crNoerr, .crOpenparen, r)
    else if c = ')' then (.crNoerr, .crCloseparen, r)
    else if c = ',' then (.crNoerr, .crComma, r)
    else if c = ':' then (.crNoerr, .crEnd, r)
    else if iniciaPalabra c then (.crNoerr, .crWord, c :: r)
    else (.crUnknwtok, .crUnknown, c :: r)

/-- `crule_gettoken`. -/
def gettoken (ruleptr : CStr) : Errcode × Token × CStr :=
  gettokenDesde nul ruleptr

/-- `crule_getword`: at most `maxlen` characters of a word, and the text after them. -/
def getword : Nat → CStr → CStr × CStr
  | 0, r => ([], r)
  | _ + 1, [] => ([], [])
  | maxlen + 1, c :: r =>
    if dePalabra c then (c :: (getword maxlen r).1, (getword maxlen r).2) else ([], c :: r)

/-- What a token is followed by in the text: nothing is lost, a token other than the end takes
characters, and the pointer is left at the first character of a word. -/
theorem gettokenDesde_spec (pending : Char) (r : CStr) {e : Errcode} {t : Token} {s : CStr}
    (h : gettokenDesde pending r = (e, t, s)) :
    s.length ≤ r.length ∧ (e = .crNoerr ↔ t ≠ .crUnknown) ∧
      (t = .crWord → ∃ c u, s = c :: u ∧ iniciaPalabra c = true) ∧
      (t ≠ .crWord → t ≠ .crEnd → t ≠ .crUnknown → s.length < r.length) := by
  fun_induction gettokenDesde pending r with
  | case1 => cases h; simp
  | case2 pending c r hc ih | case3 r hc ih | case6 r hc hc' ih =>
      obtain ⟨hle, he, hw, hlt⟩ := ih h
      rw [List.length_cons]
      exact ⟨by omega, he, hw, fun h₁ h₂ h₃ ↦ Nat.lt_succ_of_lt (hlt h₁ h₂ h₃)⟩
  | case14 pending c r h₁ h₂ h₃ h₄ h₅ h₆ h₇ h₈ hc =>
      cases h
      exact ⟨Nat.le_refl _, by simp, fun _ ↦ ⟨c, r, rfl, hc⟩, fun h ↦ absurd rfl h⟩
  | _ => cases h; simp

/-- A word has a character. -/
theorem length_getword {c : Char} {u : CStr} {n : Nat} (hc : iniciaPalabra c = true)
    (hn : 0 < n) : (getword n (c :: u)).2.length ≤ u.length ∧ (getword n (c :: u)).1 ≠ [] := by
  have hle (k : Nat) (v : CStr) : (getword k v).2.length ≤ v.length := by
    fun_induction getword k v with
    | case3 k d v hd ih => exact Nat.le_succ_of_le ih
    | _ => exact Nat.le_refl _
  obtain ⟨k, rfl⟩ := Nat.exists_eq_succ_of_ne_zero (Nat.ne_of_gt hn)
  rw [getword, if_pos (dePalabra_of_inicia hc)]
  exact ⟨hle k u, List.cons_ne_nil _ _⟩

/-- `crule_getword` as the parser calls it. -/
def leePalabra (r : CStr) : CStr × CStr :=
  getword (CR_MAXARGLEN - 1) r

/-- The scanner fails on an unknown token only. -/
theorem gettoken_err (r : CStr) :
    (gettoken r).1 = .crNoerr ↔ (gettoken r).2.1 ≠ .crUnknown :=
  (gettokenDesde_spec _ _ rfl).2.1

/-- A token other than the end takes characters. -/
theorem length_gettoken {r : CStr} (hword : (gettoken r).2.1 ≠ .crWord)
    (hend : (gettoken r).2.1 ≠ .crEnd) (hunknown : (gettoken r).2.1 ≠ .crUnknown) :
    (gettoken r).2.2.length < r.length :=
  (gettokenDesde_spec _ _ rfl).2.2.2 hword hend hunknown

/-- A word takes characters. -/
theorem length_leePalabra {r : CStr} (hword : (gettoken r).2.1 = .crWord) :
    (leePalabra (gettoken r).2.2).2.length < r.length := by
  obtain ⟨hle, -, hinicia, -⟩ := gettokenDesde_spec nul r rfl
  obtain ⟨c, u, hu, hc⟩ := hinicia hword
  have hlt : (leePalabra (c :: u)).2.length < (c :: u).length :=
    Nat.lt_succ_of_le (length_getword hc (by decide)).1
  rw [← hu] at hlt
  exact Nat.lt_of_lt_of_le hlt hle

/-- A word that a token announces is not empty. -/
theorem leePalabra_ne_nil {r : CStr} (hword : (gettoken r).2.1 = .crWord) :
    (leePalabra (gettoken r).2.2).1 ≠ [] := by
  obtain ⟨c, u, hu, hc⟩ := (gettokenDesde_spec nul r rfl).2.2.1 hword
  have hne : (leePalabra (c :: u)).1 ≠ [] := (length_getword hc (by decide)).2
  rwa [← hu] at hne

/-! ## The sequence of tokens -/

/-- A token together with its word. -/
inductive Lexema where
  | tok (t : Token)
  | palabra (w : CStr)
  deriving DecidableEq

/-- The tokens of a text, up to its end or the first unknown one. -/
def lexemas (r : CStr) : List Lexema :=
  let t := (gettoken r).2.1
  let s := (gettoken r).2.2
  if t = .crWord then .palabra (leePalabra s).1 :: lexemas (leePalabra s).2
  else if t = .crEnd ∨ t = .crUnknown then [.tok t]
  else .tok t :: lexemas s
termination_by r.length
decreasing_by
  · exact length_leePalabra ‹_›
  · exact length_gettoken ‹_› (not_or.mp ‹_›).1 (not_or.mp ‹_›).2

/-- The tokens from the one ahead on, when the text after it is `s`. -/
def lexemasDesde (t : Token) (s : CStr) : List Lexema :=
  if t = .crWord then .palabra (leePalabra s).1 :: lexemas (leePalabra s).2
  else if t = .crEnd ∨ t = .crUnknown then [.tok t]
  else .tok t :: lexemas s

theorem lexemas_eq (r : CStr) : lexemas r = lexemasDesde (gettoken r).2.1 (gettoken r).2.2 := by
  rw [lexemas, lexemasDesde]

/-- A text has at most as many tokens as characters, and the one at its end. -/
theorem length_lexemas (r : CStr) : (lexemas r).length ≤ r.length + 1 := by
  fun_induction lexemas r with
  | case1 r t s h ih =>
      have hlt : (leePalabra s).2.length < r.length := length_leePalabra h
      rw [List.length_cons]
      omega
  | case2 r t h h' => exact Nat.le_add_left _ _
  | case3 r t s h h' ih =>
      have hlt : s.length < r.length := length_gettoken h (not_or.mp h').1 (not_or.mp h').2
      rw [List.length_cons]
      omega

end Ircd.Crule
