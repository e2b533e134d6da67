import Ircd.Lib.Sscanf
import Ircd.User.Canonize

/-!
# `read_authports`

The reply of an ident server, of `ircd/s_auth.c`. It is read to the buffer of the client behind what is
there, matched against a format, and taken apart at its last two colons. The two local arrays are
lists of their sizes, and a write outside of an array gives `none`.
-/

namespace Ircd.Auth

open Buffer CString Sscanf
open User.Canonize (strcpy)

/-- `IDENT_OK` and `IDENT_BAD`. -/
inductive Aviso where
  | identOk
  | identBad

/-- What the function reads and writes of a client and of `ircstp`. `auth`, `access` and `gotid` are
`DoingAuth`, `SetAccess` and `FLAGS_GOTID`. -/
structure Cliente where
  buffer : List Char
  count : Nat
  lasttime : Int
  authfd : Bool
  auth : Bool
  dns : Bool
  access : Bool
  userPort : Bool
  gotid : Bool
  username : CStr
  abad : Nat
  asuc : Nat
  avisos : List Aviso

/-- The local arrays `ruser` and `system`, which start with what is on the stack. -/
structure Pila where
  ruser : List Char
  system : List Char
  length_ruser : ruser.length = USERLEN + 1
  length_system : system.length = 8

/-- `"%hd , %hd : USERID : %*[^:]: %10s"`. -/
def formato : List Directive :=
  [.short, .blanks, .lit [','], .blanks, .short, .blanks, .lit [':'], .blanks,
    .lit ['U', 'S', 'E', 'R', 'I', 'D'], .blanks, .lit [':'], .blanks, .skip ':', .lit [':'],
    .blanks, .word 10]

/-- What `remp` and `locp` have behind the match. -/
def puertos : List Value → Nat × Nat
  | .short remp :: .short locp :: _ => (remp, locp)
  | .short remp :: _ => (remp, 0)
  | _ => (0, 0)

/-- What `sscanf` puts in `ruser`. -/
def palabra : List Value → CStr
  | [_, _, .word w] => w
  | _ => []

/-- `!isSpace (*s) && *s != ':' && *s != '@'`. -/
def guarda (c : Char) : Bool :=
  !isSpace c && c ≠ ':' && c ≠ '@'

/-- `strncpy`. -/
def strncpy (mem : List Char) (s : CStr) (n : Nat) : Option (List Char) :=
  if n ≤ mem.length then some (s.take n ++ List.replicate (n - s.length) nul ++ mem.drop n) else none

/-- `for (t = ruser; *s && (t < ruser + sizeof (ruser)); s++)`, from `t` on. -/
def copia : CStr → Nat → List Char → Option (Nat × List Char)
  | [], t, ruser => some (t, ruser)
  | c :: s, t, ruser =>
      if t < USERLEN + 1 then
        if guarda c then do copia s (t + 1) (← poke ruser t c)
        else copia s t ruser
      else some (t, ruser)

/-- The fields at the last two colons: `buffer`, `ruser` and `system`. -/
def campos (buffer ruser system : List Char) : Option (List Char × List Char × List Char) := do
  let s ← strrchr ':' (← cadena buffer 0)
  let buffer ← poke buffer s nul
  let t ← strrchr ':' (← cadena buffer 0)
  let system ← strncpy system ((← cadena buffer (t + 1)).dropWhile isSpace) 7
  let system ← poke system 7 nul
  let (t, ruser) ← copia (← cadena buffer (s + 1)) 0 ruser
  let ruser ← poke ruser t nul
  some (buffer, ruser, system)

/-- From `close (cptr->authfd)` on. -/
def acaba (puertos : Nat × Nat) (ruser system : List Char) (c : Cliente) : Option Cliente := do
  let c := { c with
    count := 0
    authfd := false
    auth := false
    access := c.access || !c.dns }
  if puertos.2 = 0 ∨ puertos.1 = 0 ∨ ruser.head? = some nul then some { c with abad := c.abad + 1 }
  else
    let ruser ← cadena ruser 0
    let system ← cadena system 0
    some
      { c with
        asuc := c.asuc + 1
        username := ruser.take USERLEN
        gotid := c.gotid || system.take 5 ≠ ['O', 'T', 'H', 'E', 'R']
        avisos := if c.userPort then c.avisos ++ [.identOk] else c.avisos }

/-- `read` and the terminator behind what it gives. -/
def recibe (lectura : Option (List Char)) (c : Cliente) : Option Cliente :=
  match lectura with
  | none => some c
  | some datos => do
      let buffer ← strcpy c.buffer c.count datos
      some { c with buffer := buffer, count := c.count + datos.length }

/-- From the match on, where `leido` is what `sscanf` assigns. -/
def examina (len : Int) (texto : CStr) (leido : List Value) (ruser system : List Char)
    (c : Cliente) : Option Cliente :=
  if leido.length = 3 then do
    let ruser ← strcpy ruser 0 (palabra leido)
    let (buffer, ruser, system) ← campos c.buffer ruser system
    acaba (puertos leido) ruser system { c with buffer := buffer }
  else if len ≠ 0 then
    if '\n' ∉ texto ∧ '\r' ∉ texto then some c
    else
      acaba (puertos leido) ruser system
        { c with avisos := if c.userPort then c.avisos ++ [.identBad] else c.avisos }
  else acaba (puertos leido) ruser system c

/-- `read_authports`, where `lectura` is what `read` gives, and `none` is an error. -/
def readAuthports (now : Int) (pila : Pila) (lectura : Option (List Char)) (c : Cliente) :
    Option Cliente := do
  let len := lectura.elim (-1) fun datos ↦ (datos.length : Int)
  let system ← poke pila.system 0 nul
  let ruser ← poke pila.ruser 0 nul
  let c ← recibe lectura c
  let c := { c with lasttime := now }
  let texto ← cadena c.buffer 0
  let leido := if 0 < len ∧ c.count ≠ BUFSIZE - 1 then sscanf formato texto else []
  examina len texto leido ruser system c

end Ircd.Auth
