import Ircd.Common

/-!
# Wildcard masks

`ircMatch` and `matchCase` are `match` and `match_case` of `ircd/match.c`, two copies of one
algorithm that differ in the folding of characters. The string argument is the memory at the
pointer: its characters, the terminator and the bytes after it, because the search for the
character after a star steps over the terminator when it starts there. Reading past the end of
that list gives the terminator. `true` is the return value 0.
-/

namespace Ircd

open CString

namespace Match

/-- The memory at a pointer to `s` when `after` follows its terminator. -/
def memory (s : CStr) (after : List Char) : List Char :=
  s ++ nul :: after

/-- The character a pointer reads. -/
def peek (s : List Char) : Char :=
  s.headD nul

@[simp] theorem peek_cons (c : Char) (s : List Char) : peek (c :: s) = c := rfl

/-- The two characters that a backslash escapes. -/
def isWild (c : Char) : Bool :=
  c = '*' ∨ c = '?'

/-- The literal at the head of a mask and the mask after it, escapes resolved. -/
def literal : CStr → Char × CStr
  | [] => (nul, [])
  | '\\' :: c :: m => if isWild c then (c, m) else ('\\', c :: m)
  | c :: m => (c, m)

/-- The run of wildcards after a star: each `?` consumes a character. The result is the mask from
its next literal on, which is the rollback point `bm`, and the string left. -/
def skipWild : CStr → List Char → Option (CStr × List Char)
  | '?' :: m, s => if peek s = nul then none else skipWild m s.tail
  | '*' :: m, s => skipWild m s
  | m, s => some (m, s)

/-- `while (toLower (*s++) != ch) if (!*s) return 1`: the string after the first `ch`. The first
character is compared before any test for the end. -/
def search (f : Char → Char) (ch : Char) : List Char → Option (List Char)
  | [] => none
  | c :: s => if f c = ch then some s else if peek s = nul then none else search f ch s

/-- What the comparison of the mask up to its next star ends with. -/
inductive Outcome where
  | accept
  | reject
  | retry
  | star (m : CStr) (s : List Char)

/-- The rest of the chunk after the character found by `search`. -/
def chunk (f : Char → Char) : CStr → List Char → Outcome
  | [], s => if peek s = nul then .accept else .retry
  | '*' :: m, s => .star m s
  | '?' :: m, s => if peek s = nul then .reject else chunk f m s.tail
  | '\\' :: c :: m, s =>
      if isWild c then
        if f (peek s) ≠ f c then .retry
        else if peek s = nul then .reject else chunk f m s.tail
      else
        if f (peek s) ≠ f '\\' then .retry
        else if peek s = nul then .reject else chunk f (c :: m) s.tail
  | c :: m, s =>
      if f (peek s) ≠ f c then .retry
      else if peek s = nul then .reject else chunk f m s.tail

/-- The label `got_star`. Every return to it has a shorter string, which bounds the fuel. -/
def gotStar (f : Char → Char) : Nat → CStr → List Char → Bool
  | 0, _, _ => false
  | fuel + 1, m, s =>
      match skipWild m s with
      | none => false
      | some ([], _) => true
      | some (bm, s) =>
          match search f (f (literal bm).1) s with
          | none => false
          | some bs =>
              match chunk f (literal bm).2 bs with
              | .accept => true
              | .reject => false
              | .retry => gotStar f fuel bm bs
              | .star m s => gotStar f fuel m s

/-- The head of the mask, before its first star. -/
def head (f : Char → Char) : CStr → List Char → Bool
  | [], s => peek s = nul
  | '*' :: m, s => gotStar f (s.length + 1) m s
  | '?' :: m, s => if peek s = nul then false else head f m s.tail
  | '\\' :: c :: m, s =>
      if isWild c then
        if f (peek s) ≠ f c ∨ peek s = nul then false else head f m s.tail
      else
        if f (peek s) ≠ f '\\' ∨ peek s = nul then false else head f (c :: m) s.tail
  | c :: m, s =>
      if f (peek s) ≠ f c ∨ peek s = nul then false else head f m s.tail

end Match

/-- `match (mask, string) == 0`. -/
def ircMatch (mask : CStr) (string : List Char) : Bool :=
  Match.head toLower mask string

/-- `match_case (mask, string) == 0`. -/
def matchCase (mask : CStr) (string : List Char) : Bool :=
  Match.head id mask string

/-- The inner loop of `collapse`, entered at the first star that another wildcard follows. -/
def collapseFrom (star : Bool) : CStr → CStr
  | [] => if star then ['*'] else []
  | '*' :: m => collapseFrom true m
  | '?' :: m => '?' :: collapseFrom star m
  | '\\' :: c :: m =>
      if Match.isWild c then
        (if star then ['*'] else []) ++ '\\' :: c :: collapseFrom false m
      else
        (if star then ['*'] else []) ++ '\\' :: collapseFrom false (c :: m)
  | c :: m => (if star then ['*'] else []) ++ c :: collapseFrom false m

/-- `collapse`: runs of wildcards with a star keep their `?` and one final star. -/
def collapse : CStr → CStr
  | [] => []
  | '*' :: c :: m =>
      if Match.isWild c then collapseFrom false ('*' :: c :: m) else '*' :: collapse (c :: m)
  | '\\' :: c :: m =>
      if Match.isWild c then '\\' :: c :: collapse m else '\\' :: collapse (c :: m)
  | c :: m => c :: collapse m

example : collapse "a**?b*".toList = "a?*b*".toList := by decide

example : ircMatch "*.IRC?hispano.org".toList
    (Match.memory "alpha.irc-hispano.org".toList []) = true := by decide

end Ircd
