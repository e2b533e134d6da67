import Ircd.User.Umode

/-!
# Entry, operators and exit

`register_user`, `m_user`, `m_oper` and `m_svsumode` of `ircd/s_user.c` and `exit_one_client` of
`ircd/s_misc.c`, as far as they change the modes of a client and the counters that depend on them.
What decides whether `register_user` admits a client, and whether `m_oper` accepts a password, is
read from the environment.
-/

namespace Ircd.User

open CString Flags

/-- `SNO_NOISY`: `SNO_SERVKILL|SNO_UNAUTH`. -/
abbrev SNO_NOISY : BitVec 32 := 0x2#32 ||| 0x20#32

/-- `UFLAGS`. -/
abbrev UFLAGS : BitVec 32 := FLAGS_INVISIBLE ||| FLAGS_WALLOP ||| FLAGS_SERVNOTICE

/-! ## Entry -/

/-- A client that `make_client` has made. -/
def Cliente.nuevo (name : CStr) (myConnect : Bool) : Cliente where
  name := name
  myConnect := myConnect
  isUser := false
  flags := 0#32
  hmodes := 0#32
  snomask := 0#32
  privs := 0#64

/-- What becomes of a client at a point where it may be registered: the parts of its entry are not
all there yet, `register_user` admits it, or it is sent away. -/
inductive Entrada where
  | espera
  | admitido
  | rechazado
deriving DecidableEq

/-- `register_user`, once it has admitted the client. -/
def registerUser (x : Cliente) (n : Nrof) : Cliente × Nrof :=
  let x := { x with isUser := true }
  let n := if has x.flags FLAGS_INVISIBLE then { n with invClients := n.invClients + 1 } else n
  let n := if !x.myUser && x.isHelpOp then { n with helpers := n.helpers + 1 } else n
  if x.myConnect && x.snomask &&& SNO_NOISY != 0#32 then
    (x.setSnomask (x.snomask &&& SNO_NOISY) .add, n)
  else (x, n)

/-- The client where it may be registered. -/
def Entrada.aplica (entra : Entrada) (x : Cliente) (n : Nrof) : Option Cliente × Nrof :=
  match entra with
  | .espera => (some x, n)
  | .admitido => (registerUser x n).map some id
  | .rechazado => (none, n)

/-- The modes that a client asks for with `USER`. -/
def Cliente.pideEntrada (host server : CStr) (x : Cliente) : Cliente :=
  let x := if '.' ∉ host then x.setFlag (UFLAGS &&& BitVec.ofInt 32 (atoi host)) else x
  if has x.flags FLAGS_SERVNOTICE then
    x.setSnomask
      (if server.head?.any Addr.isDigit && decide ('.' ∉ server) then
        BitVec.ofInt 32 (atoi server) &&& SNO_USER
      else SNO_DEFAULT) .set
  else x

/-- `m_user`, for a client that is not registered yet. It may be registered when it has a name. -/
def mUser (host server : CStr) (entra : Entrada) (x : Cliente) (n : Nrof) :
    Option Cliente × Nrof :=
  let x := x.pideEntrada host server
  if x.name = [] then (some x, n) else entra.aplica x n

/-! ## Operators -/

/-- A line of the configuration that makes operators. -/
structure ConfOper where
  passwd : CStr
  locop : Bool
  privs : BitVec 64

/-- What `m_oper` reads: whether the request comes from a server, the line for the name and the
host, whether the class has room, and the cipher of passwords. -/
structure EntornoOper where
  deServidor : Bool
  conf : Option ConfOper
  hayClase : Bool
  crypt : CStr → CStr → CStr

/-- The client that a line makes an operator. -/
def ConfOper.hazOper (aconf : ConfOper) (sptr : Cliente) (n : Nrof) : Cliente × Nrof :=
  let (x, n) :=
    if !sptr.myConnect || aconf.locop then
      ((sptr.clearFlag FLAGS_OPER).setFlag FLAGS_LOCOP, n)
    else
      let x := sptr.clearFlag FLAGS_LOCOP
      let n := if !x.isOper then { n with opers := n.opers + 1 } else n
      ({ x.setFlag FLAGS_OPER with privs := aconf.privs }, n)
  let x := x.setFlag (FLAGS_WALLOP ||| FLAGS_SERVNOTICE ||| FLAGS_DEBUG)
  let x := x.setSnomask SNO_OPERDEFAULT .add
  ({ x with privs := aconf.privs }.setOperCmd, n)

/-- `m_oper`. -/
def mOper (e : EntornoOper) (name password : CStr) (sptr : Cliente) (n : Nrof) : Cliente × Nrof :=
  if !e.deServidor ∧ (name = [] ∨ password = []) then (sptr, n)
  else if e.deServidor ∧ !sptr.isOper then
    (sptr.setFlag FLAGS_OPER, { n with opers := n.opers + 1 })
  else if sptr.isAnOper then (sptr, n)
  else
    match e.conf with
    | none => (sptr, n)
    | some aconf =>
        if !e.hayClase then (sptr, n)
        else if e.crypt password aconf.passwd = aconf.passwd then aconf.hazOper sptr n
        else (sptr, n)

/-! ## `m_svsumode` -/

/-- The variables of the loop over the letters. `what` is true for `MODE_ADD`. -/
structure LecturaSvs where
  acptr : Cliente
  what : Bool
  tmpmask : BitVec 32

/-- The letters of the tables. -/
def LecturaSvs.modo (c : Char) (l : LecturaSvs) : LecturaSvs :=
  match userModes.find? fun flag ↦ flag.2 = c with
  | some (flag, _) =>
      if l.what then { l with acptr := l.acptr.setFlag flag }
      else if has flag (FLAGS_OPER ||| FLAGS_LOCOP) then
        { l with
          acptr := l.acptr.clearFlag (FLAGS_OPER ||| FLAGS_LOCOP)
          tmpmask := if l.acptr.myConnect then l.acptr.snomask &&& ~~~SNO_OPER else l.tmpmask }
      else { l with acptr := l.acptr.clearFlag flag }
  | none =>
      match userHmodes.find? fun flag ↦ flag.2 = c with
      | some (flag, _) =>
          { l with acptr := if l.what then l.acptr.setHmode flag else l.acptr.clearHmode flag }
      | none => l

/-- The `switch` over a letter. -/
def LecturaSvs.letra (l : LecturaSvs) (c : Char) : LecturaSvs :=
  match c with
  | '+' => { l with what := true }
  | '-' => { l with what := false }
  | 'V' =>
      { l with
        acptr :=
          if l.what then l.acptr.setHmode HMODE_PENDVALIDATION
          else l.acptr.clearHmode HMODE_PENDVALIDATION }
  | ' ' | '\n' | '\r' | '\t' => l
  | c => l.modo c

/-- `m_svsumode`, for the client that its first parameter names. `vhost` tells whether the name has
a record of a virtual host. -/
def mSvsumode (vhost : Bool) (p : List CStr) (acptr : Cliente) (n : Nrof) : Cliente × Nrof :=
  let l := p.flatten.foldl LecturaSvs.letra ⟨acptr, true, 0#32⟩
  let n := n.cuenta (recoge userModes acptr.flags) (recoge userHmodes acptr.hmodes) l.acptr
  let x := l.acptr.quitaHmode (!vhost) HMODE_VHOSTPERSO
  (if x.myUser && l.tmpmask != x.snomask then x.setSnomask l.tmpmask .set else x, n)

/-! ## Exit -/

/-- `exit_one_client`. -/
def exitOneClient (x : Cliente) (n : Nrof) : Nrof :=
  if x.isUser then
    let n := if x.isHelpOp then { n with helpers := n.helpers - 1 } else n
    let n :=
      if has x.flags FLAGS_INVISIBLE then { n with invClients := n.invClients - 1 } else n
    if x.isOper then { n with opers := n.opers - 1 } else n
  else n

end Ircd.User
