import Ircd.Addr.Text
import Ircd.Mask.Charset
import Ircd.Watch.Lists
import Mathlib.Data.Finset.Basic

/-!
# Requests of WHO

The parameters of `m_who` of `ircd/whocmds.c`: the mask, the selectors, the fields of the replies and
the query type. The mask is compiled when it is not a list, and fields on which it cannot match are
taken out of the comparison.
-/

namespace Ircd.Who

open CString

/-! ## Selectors and fields -/

/-- `WHO_FIELD_QTY` and the others. -/
inductive Campo
  | qty | cha | uid | nip | hos | ser | nic | fla | dis | ren
deriving DecidableEq

/-- `WHO_FIELD_DEF`. -/
def WHO_FIELD_DEF : Finset Campo := {.nic, .uid, .hos, .ser}

/-- `bitsel` and `matchsel`. -/
structure Selectores where
  /-- `WHOSELECT_OPER`. -/
  oper : Bool
  /-- `WHOSELECT_EXTRA`. -/
  extra : Bool
  matchsel : Finset Campo

/-- A letter of the selectors. -/
def Selectores.letra (puedeExtra : Bool) (s : Selectores) (ch : Char) : Selectores :=
  match ch with
  | 'o' | 'O' => { s with oper := true }
  | 'x' | 'X' => if puedeExtra then { s with extra := true } else s
  | 'n' | 'N' => { s with matchsel := insert .nic s.matchsel }
  | 'u' | 'U' => { s with matchsel := insert .uid s.matchsel }
  | 'h' | 'H' => { s with matchsel := insert .hos s.matchsel }
  | 'i' | 'I' => { s with matchsel := insert .nip s.matchsel }
  | 's' | 'S' => { s with matchsel := insert .ser s.matchsel }
  | 'r' | 'R' => { s with matchsel := insert .ren s.matchsel }
  | _ => s

/-- The selectors of a text, and what is left from the `%` or the comma on. -/
def selectores (puedeExtra : Bool) (s : Selectores) : CStr → Selectores × CStr
  | [] => (s, [])
  | ch :: p =>
      if ch ≠ '%' ∧ ch ≠ ',' then selectores puedeExtra (s.letra puedeExtra ch) p
      else (s, ch :: p)

/-- The field of a letter. -/
def campo : Char → Option Campo
  | 'c' | 'C' => some .cha
  | 'd' | 'D' => some .dis
  | 'f' | 'F' => some .fla
  | 'h' | 'H' => some .hos
  | 'i' | 'I' => some .nip
  | 'n' | 'N' => some .nic
  | 'r' | 'R' => some .ren
  | 's' | 'S' => some .ser
  | 't' | 'T' => some .qty
  | 'u' | 'U' => some .uid
  | _ => none

/-- The fields of a text, the number of its letters, and what is left from the comma on. -/
def campos (fields : Finset Campo) (counter : ℕ) : CStr → Finset Campo × ℕ × CStr
  | [] => (fields, counter, [])
  | ch :: p =>
      if ch ≠ ',' then campos ((campo ch).elim fields (insert · fields)) (counter + 1) p
      else (fields, counter, ch :: p)

/-- The query type is cut behind three digits. -/
def tipo (qrt : CStr) : CStr :=
  (qrt.take 3).takeWhile Char.isDigit

/-! ## The request -/

/-- What `m_who` has read of its parameters. -/
structure Peticion where
  mask : Option CStr
  oper : Bool
  extra : Bool
  matchsel : Finset Campo
  fields : Finset Campo
  counter : ℕ
  qrt : Option CStr

/-- The mask of a request: nothing, `0` and `*` stand for everyone. -/
def mascara (parv : List CStr) : Option CStr :=
  match if 3 < parv.length then parv[3]? else parv[1]? with
  | none | some [] | some ['0'] | some ['*'] => none
  | some mask => some mask

/-- The parameters. `puedeExtra` is `HasPriv (sptr, PRIV_WHOX) && IsAnOper (sptr)`, and
`sinServidor` is `ocultar_servidores && !IsAnOper (sptr)`. -/
def peticion (puedeExtra sinServidor : Bool) (parv : List CStr) : Peticion :=
  let (sel, p) := selectores puedeExtra ⟨false, false, ∅⟩ (parv[2]?.getD [])
  let (fields, counter, p) := if p.head? = some '%' then campos ∅ 0 p.tail else (∅, 0, p)
  let qrt := if p.head? = some ',' then some p.tail else none
  let matchsel := if sel.matchsel = ∅ then WHO_FIELD_DEF else sel.matchsel
  let counter := if fields = ∅ then 7 else counter
  { mask := (mascara parv).map (·.take 510)
    oper := sel.oper
    extra := sel.extra
    matchsel := if sinServidor then matchsel.erase .ser else matchsel
    fields := fields
    counter := 2048 / (counter + 4)
    qrt := if .qty ∈ fields then qrt.map tipo else none }

/-- Only who may select with `x` is shown more. -/
theorem extra_peticion (sinServidor : Bool) (parv : List CStr) :
    (peticion false sinServidor parv).extra = false := by
  have hletra (s : Selectores) (ch : Char) : (s.letra false ch).extra = s.extra := by
    unfold Selectores.letra
    split <;> rfl
  have hsel (s : Selectores) (p : CStr) : (selectores false s p).1.extra = s.extra := by
    induction p generalizing s with
    | nil => rfl
    | cons ch p ih =>
        unfold selectores
        split
        · rw [ih, hletra]
        · rfl
  exact hsel _ _

/-- A mask is not empty. -/
theorem mask_peticion (puedeExtra sinServidor : Bool) (parv : List CStr) :
    (peticion puedeExtra sinServidor parv).mask ≠ some [] := by
  have hmask : mascara parv ≠ some [] := by
    unfold mascara
    split
    · simp
    · simp
    · simp
    · simp
    · next h _ _ _ => exact fun hnil ↦ h (Option.some.inj hnil)
  show (mascara parv).map (·.take 510) ≠ some []
  cases hm : mascara parv with
  | none => simp
  | some mask =>
      rw [Option.map_some]
      intro hnil
      have htake := Option.some.inj hnil
      rw [List.take_eq_nil_iff] at htake
      rcases htake with h | rfl
      · cases h
      · exact hmask hm

/-! ## The mask -/

/-- The compiled mask, its address, and the fields that are compared with it. -/
structure Patron where
  mask : CStr
  cmask : List Char
  minlen : ℕ
  imask : Option (IPcheck.IrcInAddr × Option ℕ)
  matchsel : Finset Campo

/-- `if (minlen > n || !(cset & attrib)) matchsel &= ~campo`. -/
def quita (minlen : ℕ) (cset : BitVec 32) (n : ℕ) (attrib : BitVec 32) (campo : Campo)
    (matchsel : Finset Campo) : Finset Campo :=
  if n < minlen ∨ cset &&& attrib = 0 then matchsel.erase campo else matchsel

/-- The mask as it is compiled. `servidores` says whether `markMatchexServer` marks some server. -/
def patron (servidores : List Char → ℕ → Bool) (mask : CStr) (matchsel : Finset Campo) : Patron :=
  let c := matchcomp Match.ntlCharAttrib (some mask)
  let imask := (Addr.ipmaskParse mask true).map (·.2)
  let matchsel := if imask = none then matchsel.erase .nip else matchsel
  let matchsel := quita c.minlen c.charset NICKLEN Match.NTL_IRCNK .nic matchsel
  let matchsel := quita c.minlen c.charset HOSTLEN Match.NTL_IRCHN .ser matchsel
  let matchsel := if servidores c.cmask c.minlen then matchsel else matchsel.erase .ser
  let matchsel := quita c.minlen c.charset USERLEN Match.NTL_IRCUI .uid matchsel
  let matchsel := quita c.minlen c.charset HOSTLEN Match.NTL_IRCHN .hos matchsel
  ⟨mask, c.cmask, c.minlen, imask, matchsel⟩

end Ircd.Who
