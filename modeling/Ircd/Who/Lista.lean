import Ircd.Channel.Listing
import Ircd.Lib.Firsts
import Ircd.Who.Peticion

/-!
# The replies of WHO

`m_who` of `ircd/whocmds.c` goes over the users in four loops: over the members of each channel that
the mask names, over the nicks that it names, over the members of the channels of the requester, and
over all clients. A user that was processed in one of them is marked with `who_marker`, and the
replies are counted.
-/

namespace Ircd.Who

open CString

/-! ## The network -/

/-- The privileges that `m_who` asks for. -/
inductive Priv
  | whox | showInvis | showAllInvis | unlimitQuery | seeChan

/-- What `m_who` reads of a client. -/
structure Cliente (κ : Type) where
  isUser : Bool
  myConnect : Bool
  name : CStr
  username : CStr
  host : CStr
  /-- The host that hides the other one. -/
  vhost : CStr
  info : CStr
  ip : IPcheck.IrcInAddr
  /-- The name of `user->server`. -/
  server : CStr
  invisible : Bool
  anOper : Bool
  admin : Bool
  coder : Bool
  hidden : Bool
  hiddenViewer : Bool
  /-- `user->channel`. -/
  channel : List κ

/-- A link of `chptr->members`. -/
structure Miembro (υ : Type) where
  cptr : υ
  /-- `CHFL_ZOMBIE`. -/
  zombie : Bool

/-- A channel, with one link for each member. -/
structure Canal (υ : Type) where
  secret : Bool
  members : List (Miembro υ)
  nodup : (members.map (·.cptr)).Nodup

/-- The state that `m_who` runs in. -/
structure Red (υ κ : Type) where
  cliente : υ → Cliente κ
  canal : κ → Canal υ
  /-- The clients from `me.prev` on. -/
  clientes : List υ
  findUser : CStr → Option υ
  findChannel : CStr → Option κ
  /-- The names of the servers of `server_list`, which all servers of users are in. -/
  serverList : List CStr
  hasPriv : υ → Priv → Bool
  ocultarServidores : Bool
  /-- The bytes before a string in memory. -/
  antes : CStr → List Char
  whoMarker : UInt32
  marker : υ → UInt32

/-- A reply, of the user `acptr` with the channel `repchan`; the fields are those of the request. -/
structure Respuesta (υ κ : Type) where
  acptr : υ
  repchan : Option κ

/-- What the loops change. -/
structure Estado (υ κ : Type) where
  marker : υ → UInt32
  counter : Int
  salida : List (Respuesta υ κ)

section

variable {υ κ : Type} [DecidableEq υ]

/-- `move_marker`. -/
def Red.moveMarker (s : Red υ κ) : UInt32 × (υ → UInt32) :=
  if s.whoMarker + 1 = 0 then (1, fun u ↦ if u ∈ s.clientes then 0 else s.marker u)
  else (s.whoMarker + 1, s.marker)

/-- `IsMember`. -/
def isMember (chptr : Canal υ) (u : υ) : Bool :=
  match chptr.members.find? (·.cptr = u) with
  | some lp => !lp.zombie
  | none => false

/-- `can_viewhost`. -/
def canViewhost (sptr acptr : Cliente κ) : Bool :=
  sptr.hiddenViewer &&
    (sptr.admin || sptr.coder || (!acptr.anOper && !acptr.admin && !acptr.coder))

variable (s : Red υ κ) (sptr : υ) (q : Peticion)

/-- `get_visiblehost (acptr, sptr, 0)`. -/
def visiblehost (acptr : υ) : CStr :=
  let a := s.cliente acptr
  if !a.isUser || !(s.cliente sptr).isUser then ['*']
  else if !a.hidden || canViewhost (s.cliente sptr) a || acptr = sptr then a.host
  else a.vhost

/-- `get_visiblehost (acptr, NULL, 0)`. -/
def anonimo (acptr : υ) : CStr :=
  let a := s.cliente acptr
  if !a.isUser then ['*'] else if !a.hidden then a.host else a.vhost

/-- `SEE_USER`. -/
def seeUser (acptr : υ) : Bool :=
  (sptr = acptr || !(s.cliente acptr).invisible) ||
    (q.extra && (s.cliente acptr).myConnect &&
      (s.hasPriv sptr .showInvis || s.hasPriv sptr .showAllInvis)) ||
    (q.extra && s.hasPriv sptr .showAllInvis)

/-- `SEE_CHANNEL`. -/
def seeChannel (chptr : Canal υ) : Bool :=
  !chptr.secret || (q.extra && s.hasPriv sptr .seeChan)

/-- `!((bitsel & WHOSELECT_OPER) && !IsAnOper (acptr))`. -/
def pasaOper (acptr : υ) : Bool :=
  !q.oper || (s.cliente acptr).anOper

/-! ## The loops -/

/-- `SHOW_MORE`, which counts even when it fails. -/
def showMore (st : Estado υ κ) : Bool × Estado υ κ :=
  if s.hasPriv sptr .unlimitQuery then (true, st)
  else (0 ≤ st.counter, { st with counter := st.counter - 1 })

variable (whoMarker : UInt32)

/-- `Process`. -/
def process (acptr : υ) (st : Estado υ κ) : Option (Estado υ κ) :=
  if st.marker acptr = whoMarker then none
  else some { st with marker := Function.update st.marker acptr whoMarker }

omit [DecidableEq υ] in
/-- `do_who`. -/
def doWho (acptr : υ) (repchan : Option κ) (st : Estado υ κ) : Estado υ κ :=
  { st with salida := st.salida ++ [⟨acptr, repchan⟩] }

/-- The loop over the members of a channel of the mask. -/
def listaCanal (chptr : κ) (isthere : Bool) : List (Miembro υ) → Estado υ κ → Estado υ κ
  | [], st => st
  | lp :: ls, st =>
      let acptr := lp.cptr
      if !pasaOper s q acptr then listaCanal chptr isthere ls st
      else if acptr ≠ sptr && lp.zombie then listaCanal chptr isthere ls st
      else if !(isthere || seeUser s sptr q acptr) then listaCanal chptr isthere ls st
      else
        match process whoMarker acptr st with
        | none => listaCanal chptr isthere ls st
        | some st =>
            if isthere then listaCanal chptr isthere ls (doWho acptr (some chptr) st)
            else
              match showMore s sptr st with
              | (false, st) => st
              | (true, st) => listaCanal chptr isthere ls (doWho acptr (some chptr) st)

/-- An element of the mask list. -/
def elemento (nick : CStr) (st : Estado υ κ) : Estado υ κ :=
  match if Channel.isChannelName (nick ++ [nul]) then s.findChannel nick else none with
  | some chptr =>
      let isthere := isMember (s.canal chptr) sptr
      if isthere || seeChannel s sptr q (s.canal chptr) then
        listaCanal s sptr q whoMarker chptr isthere (s.canal chptr).members st
      else st
  | none =>
      match s.findUser nick with
      | none => st
      | some acptr =>
          if pasaOper s q acptr then
            match process whoMarker acptr st with
            | none => st
            | some st =>
                match showMore s sptr st with
                | (false, st) => st
                | (true, st) => doWho acptr none st
          else st

/-- The comparison of a user with the mask. -/
def casa (p : Patron) (acptr : υ) : Bool :=
  let a := s.cliente acptr
  let exec (text : CStr) : Bool := matchexec (s.antes text) (text ++ [nul]) p.cmask p.minlen = 0
  (.nic ∈ p.matchsel && exec a.name) ||
    (.uid ∈ p.matchsel && exec a.username) ||
    (.ser ∈ p.matchsel && exec a.server) ||
    (.hos ∈ p.matchsel && (exec (visiblehost s sptr acptr) || exec (anonimo s acptr))) ||
    (.ren ∈ p.matchsel && exec a.info) ||
    (.nip ∈ p.matchsel && !(a.hidden && !canViewhost (s.cliente sptr) a) &&
      match p.imask with
      | some (imask, ibits) => IPcheck.ipmaskCheck a.ip imask (ibits.getD 0) ≠ 0
      | none => false)

/-- A loop of the mask search. `ve` is what it asks of a user before the mask. -/
def busca (ve : υ → Bool) (p : Option Patron) (repchan : Option κ) :
    List υ → Estado υ κ → Estado υ κ
  | [], st => st
  | acptr :: us, st =>
      if !(s.cliente acptr).isUser then busca ve p repchan us st
      else
        match process whoMarker acptr st with
        | none => busca ve p repchan us st
        | some st =>
            if !pasaOper s q acptr then busca ve p repchan us st
            else if !ve acptr then busca ve p repchan us st
            else if !p.all (casa s sptr · acptr) then busca ve p repchan us st
            else
              match showMore s sptr st with
              | (false, st) => st
              | (true, st) => busca ve p repchan us (doWho acptr repchan st)

/-- The loop over the channels of the requester. -/
def comunes (p : Option Patron) : List κ → Estado υ κ → Estado υ κ
  | [], st => st
  | chptr :: cs, st =>
      comunes p cs (busca s sptr q whoMarker (fun _ ↦ true) p (some chptr)
        ((s.canal chptr).members.map (·.cptr)) st)

/-- The mask, compiled. -/
def compilada : Option Patron :=
  q.mask.map fun mask ↦ patron
    (fun cmask minlen ↦ s.serverList.any fun name ↦
      matchexec (s.antes name) (name ++ [nul]) cmask minlen = 0) mask q.matchsel

/-- `matchsel` after the mask was compiled. -/
def matchsel : Finset Campo :=
  match compilada s q with
  | some p => p.matchsel
  | none => q.matchsel

/-- The mask search. -/
def busqueda (st : Estado υ κ) : Estado υ κ :=
  let p := compilada s q
  let st :=
    if 1 ≤ st.counter ∧ matchsel s q ≠ ∅ then
      comunes s sptr q whoMarker p (s.cliente sptr).channel st
    else st
  if 1 ≤ st.counter ∧ matchsel s q ≠ ∅ then
    busca s sptr q whoMarker (seeUser s sptr q) p none s.clientes st
  else st

/-- The elements of the mask. -/
def lista : List CStr :=
  match q.mask with
  | some mask => Watch.tokens [','] mask.length mask
  | none => []

/-- `commas`. -/
def commas : Bool :=
  q.mask.any (·.contains ',')

/-- The loops of `m_who`. -/
def bucles : Estado υ κ :=
  let (whoMarker, marker) := s.moveMarker
  let st := (lista q).foldl (fun st nick ↦ elemento s sptr q whoMarker nick st)
    ⟨marker, q.counter, []⟩
  if !(commas q || st.counter < 1) then busqueda s sptr q whoMarker st else st

/-- What `m_who` sends: the replies, the mask of `RPL_ENDOFWHO`, and whether the query was too
long. -/
structure Resultado (υ κ : Type) where
  respuestas : List (Respuesta υ κ)
  endOfWho : CStr
  queryTooLong : Bool

/-- The request of a user. -/
def peticionDe (parv : List CStr) : Peticion :=
  peticion (s.hasPriv sptr .whox && (s.cliente sptr).anOper)
    (s.ocultarServidores && !(s.cliente sptr).anOper) parv

/-- `m_who`, for a requester that is a user. -/
def mWho (parv : List CStr) : Resultado υ κ :=
  let q := peticionDe s sptr parv
  let st := bucles s sptr q
  { respuestas := st.salida
    endOfWho := (q.mask.map (before · ' ')).elim ['*'] fun m ↦ if m = [] then ['*'] else m
    queryTooLong := st.counter < 0 }

end

end Ircd.Who
