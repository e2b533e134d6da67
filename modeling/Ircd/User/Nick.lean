import Ircd.User.Entry

/-!
# Modes and changes of nick

What a change of nick does to the modes of a client: the second half of `m_nick_local`, the end of
`m_nick_remoto`, and `rename_user` of `ircd/s_user.c`. The modes that the old nick had are taken
away, those that the operator table gives to the new one are set, and both are counted; the modes of
the fields `automodes` are added as they are.
-/

namespace Ircd.User

open CString Flags

/-! ## Letters that are added -/

/-- The flag of a letter in a table. -/
def bitDe (tabla : List (BitVec 32 × Char)) (c : Char) : BitVec 32 :=
  ((tabla.find? fun flag ↦ flag.2 = c).map Prod.fst).getD 0#32

/-- `mask_user_flags`. `add` is true under a plus sign. -/
def maskUserFlags (add : Bool) (p : CStr) (addf addh : BitVec 32) : BitVec 32 × BitVec 32 :=
  match p with
  | [] => (addf, addh)
  | c :: p =>
      if c = ' ' ∨ c = '\t' then (addf, addh)
      else if c = '+' then maskUserFlags true p addf addh
      else if c = '-' then maskUserFlags false p addf addh
      else if add then maskUserFlags add p (addf ||| bitDe userModes c) (addh ||| bitDe userHmodes c)
      else maskUserFlags add p addf addh

/-- Flags are added to both words. -/
def Cliente.suma (x : Cliente) (flags hmodes : BitVec 32) : Cliente :=
  { x with flags := x.flags ||| flags, hmodes := x.hmodes ||| hmodes }

/-- The flags of a text of modes, if there is one. -/
def automodesDe (modes : Option CStr) : BitVec 32 × BitVec 32 :=
  match modes with
  | some modes => maskUserFlags true modes 0#32 0#32
  | none => (0#32, 0#32)

/-- The modes of a text are added. -/
def Cliente.automodes (modes : Option CStr) (x : Cliente) : Cliente :=
  x.suma (automodesDe modes).1 (automodesDe modes).2

/-- The modes that a server sends, letter by letter. -/
def Cliente.recibe (modos : CStr) (x : Cliente) : Cliente :=
  modos.foldl (fun x c ↦ x.suma (bitDe userModes c) (bitDe userHmodes c)) x

/-! ## Records -/

/-- `DDB_NICK_FORBID`. -/
abbrev DDB_NICK_FORBID : Int := 1

/-- `DDB_NICK_SUSPEND`. -/
abbrev DDB_NICK_SUSPEND : Int := 2

/-- What is read of a record of the table of nicks. -/
structure Ficha where
  flags : Int
  pass : Option CStr
  automodes : Option CStr
  snomask : BitVec 32
deriving DecidableEq

/-- What a change of nick reads of the database: the tables, the records in the JSON format, where
they parse, and the modes that every client gets. -/
structure Bdd where
  registros : Registros
  nickdb : CStr → Option CStr
  fichaJson : CStr → Option Ficha
  privsJson : CStr → Option (BitVec 64)
  autoUsermodes : Option CStr

/-- A record of the table of nicks, in the JSON format or with the flags behind the password. -/
def Bdd.ficha (b : Bdd) (valor : CStr) : Ficha :=
  if valor.head? = some '{' then (b.fichaJson valor).getD ⟨0, none, none, 0#32⟩
  else
    { flags :=
        if valor.getLast? = some '+' then DDB_NICK_SUSPEND
        else if valor.getLast? = some '*' then DDB_NICK_FORBID
        else 0
      pass := some valor
      automodes := none
      snomask := 0#32 }

/-- `set_privs`. -/
def Bdd.setPrivs (b : Bdd) (sptr : Cliente) : Cliente :=
  if !sptr.myConnect then sptr
  else
    { sptr with
      privs :=
        match b.registros.operdb sptr.name with
        | none => 0#64
        | some valor =>
            if valor.head? = some '{' then (b.privsJson valor).getD 0#64
            else BitVec.ofInt 64 (atol (valor.drop 2)) }

/-! ## Modes of a nick -/

/-- The modes of the operator table are taken away. -/
def borraStatus (x : Cliente) (n : Nrof) : Cliente × Nrof :=
  let n := if x.isHelpOp then { n with helpers := n.helpers - 1 } else n
  let x := x.clearHmode HMODE_HELPOP
  let x := x.clearHmode HMODE_ADMIN
  let x := x.clearHmode HMODE_CODER
  let n := if x.isOper then { n with opers := n.opers - 1 } else n
  let x := x.clearFlag FLAGS_OPER
  (x.clearHmode HMODE_SERVICESBOT, n)

/-- The modes of a registered nick are taken away. -/
def borraRegistro (x : Cliente) (n : Nrof) : Cliente × Nrof :=
  let x := x.clearHmode HMODE_NICKREGISTERED
  let x := x.clearHmode HMODE_NICKSUSPENDED
  let x := x.clearHmode HMODE_MSGONLYREG
  let x := x.clearHmode HMODE_NOCHAN
  borraStatus (x.clearHmode HMODE_DOCKING) n

/-- The nick of the client is registered, or it is suspended. -/
def Cliente.autentificado (x : Cliente) : Bool :=
  has x.hmodes HMODE_NICKREGISTERED || has x.hmodes HMODE_NICKSUSPENDED

/-- What a client loses that leaves a registered nick. `whois` and `vhost` are what `rename_user`
and `m_nick_local` take away besides. -/
def parcheDB69 (whois vhost : Bool) (x : Cliente) (n : Nrof) : Cliente × Nrof :=
  if x.autentificado then
    let (x, n) := borraRegistro (x.quitaHmode whois HMODE_WHOIS) n
    let x := x.quitaHmode (vhost && has x.hmodes HMODE_VHOSTPERSO) HMODE_VHOSTPERSO
    let x := x.quitaHmode (!x.isOperCmd) HMODE_HIDDENVIEWER
    (x.quitaHmode (!x.isOperCmd) HMODE_NOIDLE, n)
  else (x, n)

/-- A bit of `hmodes` is set on a condition. -/
def Cliente.daHmode (c : Bool) (f : BitVec 32) (x : Cliente) : Cliente :=
  if c then x.setHmode f else x

/-- The modes of the operator table are set. -/
def poneStatus (b : Bdd) (status : BitVec 32) (x : Cliente) (n : Nrof) : Cliente × Nrof :=
  let x := x.daHmode (has status HMODE_ADMIN) HMODE_ADMIN
  let x := x.daHmode (has status HMODE_CODER) HMODE_CODER
  let x := x.daHmode (has status HMODE_SERVICESBOT) HMODE_SERVICESBOT
  let n :=
    if has status HMODE_HELPOP && !x.isHelpOp then { n with helpers := n.helpers + 1 } else n
  let x := x.daHmode (has status HMODE_HELPOP) HMODE_HELPOP
  if has status FLAGS_OPER then
    let n := if !x.isOper then { n with opers := n.opers + 1 } else n
    let x := x.setFlag FLAGS_OPER
    let x := x.setFlag (FLAGS_WALLOP ||| FLAGS_SERVNOTICE ||| FLAGS_DEBUG)
    (b.setPrivs (x.setSnomask SNO_OPERDEFAULT .add), n)
  else (x, n)

/-- The nick is marked as registered or as suspended, and the client is hidden. -/
def Bdd.identifica (b : Bdd) (suspendido : Bool) (x : Cliente) : Cliente :=
  let x := x.setHmode (if suspendido then HMODE_NICKSUSPENDED else HMODE_NICKREGISTERED)
  let x := x.setHmode HMODE_HIDDEN
  x.daHmode (b.registros.ipvirtualdb x.name).isSome HMODE_VHOSTPERSO

/-- The mask of notices of a record. -/
def Cliente.daSnomask (snomask : BitVec 32) (x : Cliente) : Cliente :=
  if snomask != 0#32 then (x.setSnomask snomask .set).setFlag FLAGS_SERVNOTICE else x

/-! ## `m_nick_local` -/

/-- A change of nick that `m_nick_local` has decided on. -/
structure Cambio where
  nick : CStr
  nick_ne : nick ≠ []
  hflag : Bool
  suspendido : Bool
  equivalentes : Bool
  automodes : Option CStr
  snomask : BitVec 32

/-- The modes of a new nick. -/
def Cambio.modos (c : Cambio) (b : Bdd) (x : Cliente) (n : Nrof) : Cliente × Nrof :=
  if c.equivalentes then (x, n)
  else if c.hflag then
    let x := b.identifica c.suspendido x
    let statusbdd := getStatus b.registros x
    let (x, n) :=
      if statusbdd != 0#32 && !c.suspendido then poneStatus b statusbdd x n else borraStatus x n
    let x := if c.suspendido then x else x.automodes c.automodes
    (x.daSnomask c.snomask, n)
  else borraRegistro x n

/-- A local client that takes its first nick, at a port with `ssl` or without. -/
def Cambio.primero (c : Cambio) (b : Bdd) (ssl : Bool) (entra : Entrada) (x : Cliente) (n : Nrof) :
    Option Cliente × Nrof :=
  match entra.aplica { x with name := c.nick } n with
  | (none, n) => (none, n)
  | (some x, n) =>
      let x := (x.setHmode HMODE_HIDDEN).automodes b.autoUsermodes
      (c.modos b (x.daHmode ssl HMODE_SSL) n).map some id

/-- A local client that changes its nick. -/
def Cambio.otro (c : Cambio) (b : Bdd) (x : Cliente) (n : Nrof) : Cliente × Nrof :=
  let (x, n) := if x.isUser && !c.equivalentes then parcheDB69 false true x n else (x, n)
  c.modos b { x with name := c.nick } n

/-- `m_nick_local`, once it has decided on a change of nick. -/
def mNickLocal (c : Cambio) (b : Bdd) (ssl : Bool) (entra : Entrada) (x : Cliente) (n : Nrof) :
    Option Cliente × Nrof :=
  let x := x.clearFlag MODE_ISWATCH
  if x.name = [] then c.primero b ssl entra x n else (c.otro b x n).map some id

/-! ## `m_nick_remoto` -/

/-- The user that a server introduces, with its modes. `expulsado` tells whether `register_user`
sends it away in the end. -/
def nuevoRemoto (b : Bdd) (nick modos : CStr) (expulsado : Bool) (n : Nrof) :
    Option Cliente × Nrof :=
  let x := (Cliente.nuevo nick false).recibe modos
  let x := x.daHmode (has x.hmodes HMODE_NICKREGISTERED && (b.registros.ipvirtualdb nick).isSome)
    HMODE_VHOSTPERSO
  let (x, n) := registerUser x n
  if expulsado then (none, exitOneClient x n) else (some x, n)

/-- `m_nick_remoto`, for a user that changes its nick, with the modes that follow. -/
def mNickRemoto (b : Bdd) (nick modos : CStr) (equivalentes : Bool) (x : Cliente) (n : Nrof) :
    Cliente × Nrof :=
  let x := x.clearFlag MODE_ISWATCH
  let (x, n) := if equivalentes then (x, n) else parcheDB69 false false x n
  let x := { x.recibe modos with name := nick }
  let x := x.quitaHmode (has x.hmodes HMODE_VHOSTPERSO) HMODE_VHOSTPERSO
  (if !equivalentes && (b.registros.ipvirtualdb x.name).isSome then x.setFlag MODE_ISWATCH else x, n)

/-! ## `rename_user` -/

/-- The modes of a nick that `rename_user` gives. -/
def Bdd.renombra (b : Bdd) (reg : Ficha) (x : Cliente) (n : Nrof) : Cliente × Nrof :=
  let x := b.identifica (reg.flags = DDB_NICK_SUSPEND) x
  if has x.hmodes HMODE_NICKSUSPENDED then (x, n)
  else
    let status := getStatus b.registros x
    let (x, n) := if status != 0#32 then poneStatus b status x n else (x, n)
    ((x.automodes reg.automodes).daSnomask reg.snomask, n)

/-- `rename_user`. -/
def renameUser (b : Bdd) (nick : CStr) (x : Cliente) (n : Nrof) : Cliente × Nrof :=
  let (x, n) := parcheDB69 true false x n
  let x := { x with name := nick }
  let x := x.quitaHmode (has x.hmodes HMODE_VHOSTPERSO) HMODE_VHOSTPERSO
  match b.nickdb x.name with
  | none => (x, n)
  | some valor => b.renombra (b.ficha valor) x n

end Ircd.User
