import Ircd.Match

/-!
# Masks that cover masks

`mmatch` of `ircd/match.c` tells whether a mask covers another one. `true` is the return value 0.
-/

namespace Ircd

open CString

namespace Match

/-- The test at the end of the old mask: behind its last `?` there is a star, which is neither the
first character nor escaped. -/
def colaEstrella (oldMask : CStr) : Bool :=
  match oldMask.reverse.dropWhile (· == '?') with
  | '*' :: c :: _ => c ≠ '\\'
  | _ => false

/-- `++na`, where an escaped wildcard is one character. -/
def tras : CStr → CStr
  | '\\' :: c :: na => if isWild c then na else c :: na
  | na => na.tail

/-- An escaped wildcard is read without its backslash. -/
def escape : CStr → Bool × CStr
  | '\\' :: c :: m => if isWild c then (true, c :: m) else (false, '\\' :: c :: m)
  | m => (false, m)

/-- The comparison of two characters. -/
def parecidas (mq nq : Bool) (m n : Char) : Bool :=
  (m = '*' ∧ ¬mq) ∨ ((¬mq ∨ nq) ∧ toLower m = toLower n) ∨ (m = '?' ∧ ¬mq ∧ (n ≠ '*' ∨ nq))

/-- The loop of `mmatch`. -/
def mmatchDesde (oldMask : CStr) : Nat → CStr → CStr → CStr → CStr → Bool → Bool
  | 0, _, _, _, _, _ => false
  | fuel + 1, m, n, ma, na, wild =>
      let estrella := peek m = '*'
      let m := if estrella then m.dropWhile (· == '*') else m
      let (wild, ma, na) := if estrella then (true, m, n) else (wild, ma, na)
      let compara (m n na : CStr) : Bool :=
        let (mq, m) := escape m
        let (nq, n) := escape n
        if parecidas mq nq (peek m) (peek n) then mmatchDesde oldMask fuel m.tail n.tail ma na wild
        else if wild then mmatchDesde oldMask fuel ma (tras na) ma (tras na) wild
        else false
      match m, n with
      | [], [] => true
      | [], _ :: _ =>
          if colaEstrella oldMask then true else if wild then compara ma (tras na) (tras na) else false
      | m, [] => (m.dropWhile (· == '*')).isEmpty
      | m, n => compara m n na

end Match

/-- `mmatch (old_mask, new_mask) == 0`. Each round takes a character off a mask, or starts again one
character of the new mask later. -/
def mmatch (oldMask newMask : CStr) : Bool :=
  Match.mmatchDesde oldMask ((newMask.length + 2) * (oldMask.length + newMask.length + 3)) oldMask
    newMask oldMask newMask false

example : mmatch "*!*@*.ES".toList "nick!*@ppp?.red.es".toList = true := by decide +kernel

example : mmatch "a?c*".toList "a*c*".toList = false := by decide +kernel

end Ircd
