import Ircd.Addr.Text
import Ircd.Common
import Ircd.User.Status

/-!
# User modes

`m_umode` of `ircd/s_user.c`. The letters of a request are applied first, and what the client may
not change is undone afterwards. Announcements to other servers and the confs of operators are left
out. `autorizado_iff` in `User/Grants.lean` says when a request of a local user gives it no mode that
it is not entitled to: always, but for a record of the operator table with the letter `O`.
-/

namespace Ircd.User

open CString Flags

/-! ## Masks of notices -/

/-- `is_snomask`. -/
def isSnomask (word : CStr) : Bool :=
  match word with
  | [] => false
  | c :: word => if Addr.isDigit c then true else if isAlpha c then false else isSnomask word

/-- `SNO_ADD`, `SNO_DEL` and `SNO_SET`. -/
inductive Sno where
  | add
  | del
  | set
deriving DecidableEq

/-- `umode_make_snomask`. `what` is true for `MODE_ADD`. -/
def umodeMakeSnomask (oldmask : BitVec 32) (arg : CStr) (what : Bool) : BitVec 32 :=
  let (snoWhat, arg) : Sno × CStr :=
    match arg with
    | '+' :: arg => (if what then .add else .del, arg)
    | '-' :: arg => (if what then .del else .add, arg)
    | arg => (if what then .set else .del, arg)
  let newmask := BitVec.ofInt 32 (atoi arg)
  match snoWhat with
  | .add => newmask ||| oldmask
  | .del => oldmask &&& ~~~newmask
  | .set => newmask

/-- `set_snomask`. -/
def Cliente.setSnomask (newmask : BitVec 32) (what : Sno) (cptr : Cliente) : Cliente :=
  let newmask :=
    match what with
    | .add => newmask ||| cptr.snomask
    | .del => cptr.snomask &&& ~~~newmask
    | .set => newmask
  { cptr with snomask := if cptr.isAnOper then newmask &&& SNO_ALL else 0#32 }

/-! ## The letters -/

/-- What is sent to the client. -/
inductive Respuesta where
  | errNeedmoreparams
  | errNosuchchannel (name : CStr)
  | errUsersdontmatch
  | rplUmodeis (modes : CStr)
  | rplSnomask (mask : BitVec 32)
  | errUmodeunknownflag
deriving DecidableEq

/-- The variables of the loop over the letters. `what` is true for `MODE_ADD`. -/
structure Lectura where
  sptr : Cliente
  what : Bool
  tmpmask : BitVec 32
  snomaskGiven : Bool
  salida : List Respuesta

namespace Lectura

/-- The mask of the letter `s`, which may be the next parameter. -/
def mascara (sigue : Option CStr) (l : Lectura) : Lectura :=
  match sigue.filter isSnomask with
  | some arg =>
      { l with
        snomaskGiven := true
        tmpmask := umodeMakeSnomask l.tmpmask arg l.what &&&
          if l.sptr.isAnOper then SNO_ALL else SNO_USER }
  | none =>
      { l with
        tmpmask :=
          if l.what then if l.sptr.isAnOper then SNO_OPERDEFAULT else SNO_DEFAULT else 0#32 }

/-- The letter `s`. -/
def servnotice (sigue : Option CStr) (l : Lectura) : Lectura :=
  let l := l.mascara sigue
  { l with
    sptr :=
      if l.tmpmask ≠ 0#32 then l.sptr.setFlag FLAGS_SERVNOTICE
      else l.sptr.clearFlag FLAGS_SERVNOTICE }

/-- The letters of the tables. -/
def modo (c : Char) (l : Lectura) : Lectura :=
  match userModes.find? fun flag ↦ flag.2 = c with
  | some (flag, _) =>
      if l.what then { l with sptr := l.sptr.setFlag flag }
      else if has flag (FLAGS_OPER ||| FLAGS_LOCOP) then
        let l := { l with sptr := l.sptr.clearFlag (FLAGS_OPER ||| FLAGS_LOCOP) }
        if l.sptr.myConnect then
          { l with tmpmask := l.sptr.snomask &&& ~~~SNO_OPER, sptr := l.sptr.clearOperCmd }
        else l
      else { l with sptr := l.sptr.clearFlag flag }
  | none =>
      match userHmodes.find? fun flag ↦ flag.2 = c with
      | some (flag, _) =>
          { l with sptr := if l.what then l.sptr.setHmode flag else l.sptr.clearHmode flag }
      | none =>
          if l.sptr.myConnect then { l with salida := l.salida ++ [.errUmodeunknownflag] } else l

/-- The `switch` over a letter. -/
def letra (c : Char) (sigue : Option CStr) (l : Lectura) : Lectura :=
  match c with
  | '+' => { l with what := true }
  | '-' => { l with what := false }
  | 's' => l.servnotice sigue
  | ' ' | '\n' | '\r' | '\t' => l
  | c => l.modo c

end Lectura

/-- The parameters that follow, after a letter. -/
def tras (c : Char) (p : List CStr) : List CStr :=
  if c = 's' ∧ p.head?.any isSnomask then p.tail else p

/-- The loop over the letters of a parameter, with the parameters that follow. -/
def leePalabra : CStr → List CStr → Lectura → List CStr × Lectura
  | [], p, l => (p, l)
  | c :: m, p, l => leePalabra m (tras c p) (l.letra c p.head?)

/-- The loop over the parameters. -/
def leeUmodes : Nat → List CStr → Lectura → Lectura
  | 0, _, l => l
  | _ + 1, [], l => l
  | fuel + 1, m :: p, l =>
      let (p, l) := leePalabra m p l
      leeUmodes fuel p l

/-! ## What is undone -/

/-- A bit of `flags` is cleared on a condition. -/
def Cliente.quitaFlag (c : Bool) (f : BitVec 32) (x : Cliente) : Cliente :=
  if c then x.clearFlag f else x

/-- A bit of `hmodes` is cleared on a condition. -/
def Cliente.quitaHmode (c : Bool) (f : BitVec 32) (x : Cliente) : Cliente :=
  if c then x.clearHmode f else x

/-- A bit of `hmodes` is written. -/
def Cliente.putHmode (b : Bool) (f : BitVec 32) (x : Cliente) : Cliente :=
  { x with hmodes := put b f x.hmodes }

/-- What is read while a request is undone: whether it comes from a server, whether the name has a
`U` line and a record of a virtual host, the modes before, and the status. -/
structure Revision where
  deServidor : Bool
  uline : Bool
  vhost : Bool
  setflags : BitVec 32
  sethmodes : BitVec 32
  statusbdd : BitVec 32

namespace Revision

variable (r : Revision)

/-- The operators. -/
def operadores (x : Cliente) : Cliente :=
  let x := x.quitaFlag (x.myUser && !has r.setflags FLAGS_OPER && x.isOper &&
    !has r.statusbdd FLAGS_OPER) FLAGS_OPER
  x.quitaFlag (!has r.setflags FLAGS_LOCOP && has x.flags FLAGS_LOCOP && !r.deServidor) FLAGS_LOCOP

/-- The modes that only servers change. -/
def servidores (x : Cliente) : Cliente :=
  if !r.deServidor then
    let x := x.putHmode (has r.sethmodes HMODE_NICKREGISTERED) HMODE_NICKREGISTERED
    let x := x.putHmode (has r.sethmodes HMODE_NICKSUSPENDED) HMODE_NICKSUSPENDED
    let x := x.putHmode (has r.sethmodes HMODE_VHOSTPERSO) HMODE_VHOSTPERSO
    let x := x.putHmode (has r.sethmodes HMODE_SSL) HMODE_SSL
    let x := x.putHmode (has r.sethmodes HMODE_DOCKING) HMODE_DOCKING
    let x := x.quitaHmode (!has r.sethmodes HMODE_USERDEAF) HMODE_USERDEAF
    let x := x.quitaHmode (!has r.sethmodes HMODE_USERBITCH) HMODE_USERBITCH
    let x := x.quitaHmode (!has r.sethmodes HMODE_USERNOJOIN) HMODE_USERNOJOIN
    x.putHmode (has r.sethmodes HMODE_PENDVALIDATION) HMODE_PENDVALIDATION
  else x

/-- A local client whose nick is registered. -/
def registrado (x : Cliente) : Cliente :=
  let x := x.quitaHmode (!has r.sethmodes HMODE_HELPOP && x.isHelpOp &&
    !has r.statusbdd HMODE_HELPOP) HMODE_HELPOP
  let x := x.quitaHmode (!has r.sethmodes HMODE_ADMIN && has x.hmodes HMODE_ADMIN &&
    !has r.statusbdd HMODE_ADMIN) HMODE_ADMIN
  let x := x.quitaHmode (!has r.sethmodes HMODE_CODER && has x.hmodes HMODE_CODER &&
    !has r.statusbdd HMODE_CODER) HMODE_CODER
  let x := x.quitaHmode (x.myConnect && !r.vhost) HMODE_VHOSTPERSO
  if !has r.sethmodes HMODE_NICKREGISTERED then
    if r.vhost then x.setHmode HMODE_VHOSTPERSO else x.clearHmode HMODE_VHOSTPERSO
  else x

/-- A local client whose nick is not registered. -/
def noRegistrado (x : Cliente) (n : Nrof) : Cliente × Nrof :=
  let x := x.clearHmode HMODE_MSGONLYREG
  let x := x.clearHmode HMODE_NOCHAN
  let x := x.clearHmode HMODE_DOCKING
  let n := if x.isHelpOp then { n with helpers := n.helpers - 1 } else n
  let x := x.clearHmode HMODE_HELPOP
  let x := x.clearHmode HMODE_ADMIN
  let x := x.clearHmode HMODE_CODER
  let n := if x.isOper then { n with opers := n.opers - 1 } else n
  let x := x.clearFlag FLAGS_OPER
  let x := x.clearHmode HMODE_SERVICESBOT
  let x := x.quitaHmode (!r.vhost) HMODE_VHOSTPERSO
  let x := x.quitaHmode (!x.isOperCmd) HMODE_HIDDENVIEWER
  (x.quitaHmode (!x.isOperCmd) HMODE_NOIDLE, n)

/-- The two cases of a local client. -/
def segunNick (x : Cliente) (n : Nrof) : Cliente × Nrof :=
  if x.myConnect && has x.hmodes HMODE_NICKREGISTERED then (r.registrado x, n)
  else if x.myConnect then r.noRegistrado x n
  else (x, n)

/-- The virtual host, when it is no longer hidden, and the modes `D` and `P`. -/
def ircops (x : Cliente) : Cliente :=
  let x := x.quitaHmode (has r.sethmodes HMODE_HIDDEN && !has x.hmodes HMODE_HIDDEN &&
    has x.hmodes HMODE_VHOSTPERSO) HMODE_VHOSTPERSO
  let x :=
    if !r.deServidor && !x.isOper then
      x.putHmode (has r.sethmodes HMODE_USERDEAF) HMODE_USERDEAF
    else x
  if !r.deServidor && !x.isOper then
    x.putHmode (has r.sethmodes HMODE_USERBITCH) HMODE_USERBITCH
  else x

/-- The notices of servers, for operators only. -/
def servnotice (x : Cliente) : Cliente :=
  if !has r.setflags FLAGS_SERVNOTICE && !r.deServidor && !x.isAnOper then
    (x.clearFlag FLAGS_SERVNOTICE).setSnomask 0#32 .set
  else x

/-- The modes that need a privilege, an operator or a bot. -/
def privilegios (x : Cliente) : Cliente :=
  let x := x.quitaFlag (!has r.setflags FLAGS_CHSERV && !r.deServidor &&
    x.hasPriv PRIV_CHANSERV = 0#64) FLAGS_CHSERV
  let x := r.servnotice x
  let x := x.quitaHmode (!has r.sethmodes HMODE_SERVICESBOT && !r.deServidor &&
    !has r.statusbdd HMODE_SERVICESBOT && !r.uline) HMODE_SERVICESBOT
  let x := x.quitaHmode (x.myUser && !has r.sethmodes HMODE_NOCHAN && has x.hmodes HMODE_NOCHAN &&
    !has x.hmodes HMODE_NICKREGISTERED) HMODE_NOCHAN
  let x := x.quitaHmode (x.myUser && !has r.sethmodes HMODE_HIDDENVIEWER &&
    has x.hmodes HMODE_HIDDENVIEWER && x.hasPriv PRIV_HIDDEN_VIEWER = 0#64) HMODE_HIDDENVIEWER
  let x := x.quitaHmode (x.myUser && !has r.sethmodes HMODE_WHOIS &&
    has x.hmodes HMODE_WHOIS && x.hasPriv PRIV_WHOIS_NOTICE = 0#64) HMODE_WHOIS
  x.quitaHmode (x.myUser && !has r.sethmodes HMODE_NOIDLE &&
    has x.hmodes HMODE_NOIDLE && x.hasPriv PRIV_HIDE_IDLE = 0#64) HMODE_NOIDLE

/-- All that is undone. -/
def aplica (x : Cliente) (n : Nrof) : Cliente × Nrof :=
  let (x, n) := r.segunNick (r.servidores (r.operadores x)) n
  (r.privilegios (r.ircops x), n)

end Revision

/-! ## `m_umode` -/

/-- The counters after a change of modes. -/
def Nrof.cuenta (setflags sethmodes : BitVec 32) (x : Cliente) (n : Nrof) : Nrof where
  opers := n.opers - (if has setflags FLAGS_OPER && !x.isOper then 1 else 0) +
    (if !has setflags FLAGS_OPER && x.isOper then 1 else 0)
  helpers := n.helpers - (if has sethmodes HMODE_HELPOP && !x.isHelpOp then 1 else 0) +
    (if !has sethmodes HMODE_HELPOP && x.isHelpOp then 1 else 0)
  invClients := n.invClients -
    (if has setflags FLAGS_INVISIBLE && !has x.flags FLAGS_INVISIBLE then 1 else 0) +
    (if !has setflags FLAGS_INVISIBLE && has x.flags FLAGS_INVISIBLE then 1 else 0)

/-- What `m_umode` reads besides its parameters: whether the request comes from a server, whether
the client has a `U` line, the tables, and which names are those of users, with whether it is the
client itself. -/
structure Entorno where
  deServidor : Bool
  uline : Bool
  registros : Registros
  findUser : CStr → Option Bool

/-- The letters of the modes that are on. -/
def letrasDe (x : Cliente) : CStr :=
  (userModes.filter fun flag ↦ has x.flags flag.1).map Prod.snd ++
    (userHmodes.filter fun flag ↦ has x.hmodes flag.1).map Prod.snd

/-- The client of a request after its letters have been read. -/
def Cliente.lee (p : List CStr) (sptr : Cliente) : Lectura :=
  leeUmodes p.length p ⟨sptr, true, if sptr.myConnect then sptr.snomask else 0#32, false, []⟩

/-- What is read while a request of a client is undone. -/
def Entorno.revision (e : Entorno) (sptr leido : Cliente) : Revision where
  deServidor := e.deServidor
  uline := e.uline
  vhost := (e.registros.ipvirtualdb sptr.name).isSome
  setflags := recoge userModes sptr.flags
  sethmodes := recoge userHmodes sptr.hmodes
  statusbdd := if leido.myUser then getStatus e.registros leido else 0#32

/-- `m_umode`. -/
def mUmode (e : Entorno) (parv : List CStr) (sptr : Cliente) (n : Nrof) :
    Cliente × Nrof × List Respuesta :=
  match parv with
  | [] | [_] => (sptr, n, [.errNeedmoreparams])
  | _ :: name :: p =>
      match e.findUser name with
      | none => (sptr, n, if sptr.myConnect then [.errNosuchchannel name] else [])
      | some false => (sptr, n, if e.deServidor then [] else [.errUsersdontmatch])
      | some true =>
          match p with
          | [] =>
              (sptr, n, .rplUmodeis ('+' :: letrasDe sptr) ::
                if has sptr.flags FLAGS_SERVNOTICE && sptr.myConnect &&
                    sptr.snomask != (if sptr.isOper then SNO_OPERDEFAULT else SNO_DEFAULT) then
                  [.rplSnomask sptr.snomask]
                else [])
          | m :: p =>
              let l := sptr.lee (m :: p)
              let r := e.revision sptr l.sptr
              let (x, n) := r.aplica l.sptr n
              let n := n.cuenta r.setflags r.sethmodes x
              let x :=
                if x.myConnect && l.tmpmask != x.snomask then x.setSnomask l.tmpmask .set else x
              let salida :=
                if x.myConnect && x.snomask != 0#32 && l.snomaskGiven then
                  l.salida ++ [.rplSnomask x.snomask]
                else l.salida
              (x.quitaFlag (has x.flags MODE_ISWATCH) MODE_ISWATCH, n, salida)

end Ircd.User
