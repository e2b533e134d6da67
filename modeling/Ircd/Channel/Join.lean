import Ircd.Channel.Keys
import Ircd.Channel.Latin
import Ircd.Channel.Listing
import Ircd.Channel.Names
import Ircd.Channel.Part
import Ircd.User.Targets

/-!
# Joining a list of channels

`m_join` of `ircd/channel.c`, with `can_join` and the `check_target_limit` of `ircd/s_user.c`. The
zombie mark, the flags, the number of parameters and the buffers outlive a turn of the loop, and the
messages to the other servers are built behind it. `mJoin_lista` says when a list does the same as
its channels one by one.
-/

namespace Ircd.Channel

open CString Hash
open IPcheck (TARGET_DELAY)
open User.Targets (MAXTARGETS)

/-! ## The user and the channels -/

/-- What `m_join` reads of a user. The flag `TS8` comes from the server that a user is on, and is not
set for local users. -/
structure Entrante (κ : Type) extends Saliente κ where
  ts8 : Bool
  docking : Bool
  anOper : Bool
  ssl : Bool
  noJoin : Bool
  privChanLimit : Bool
  privWalkChan : Bool
  privWalkLchan : Bool
  name : CStr
  ts8_local : myUser = true → ts8 = false

/-- What the calls share. A redirection gives the name of the channel it leads to, and `hash` is that
of the address of a channel. -/
structure AjustesJoin (γ : Type) extends Ajustes γ where
  tsTime : Int
  now : Int
  maxchannelsperuser : Int
  canalDebug : Option CStr
  conversionUtf : Bool
  redirige : CStr → Option CStr
  badChannel : CStr → Bool
  hash : γ → UInt8

/-- What `m_join` changes: beside the channels their creation times and owners, and the last targets
of the user. -/
structure Mundo (γ κ : Type) where
  red : Red γ κ
  creationtime : γ → Int
  owner : γ → Option CStr
  targets : List (UInt8)
  nexttarget : Int

/-- The creation time of a channel that a remote `JOIN` has created. -/
def MAGIC_REMOTE_JOIN_TS : Int := 1270080000

/-- What `can_join` adds for an operator who may come in all the same. -/
def MAGIC_OPER_OVERRIDE : Nat := 1000

/-- The limit of the channel is reached. -/
def ERR_CHANNELISFULL : Nat := 471

/-- The channel is `+i`. -/
def ERR_INVITEONLYCHAN : Nat := 473

/-- A ban of the channel matches. -/
def ERR_BANNEDFROMCHAN : Nat := 474

/-- The key is another one. -/
def ERR_BADCHANNELKEY : Nat := 475

/-- The channel is `+R`. -/
def ERR_NEEDREGGEDNICK : Nat := 477

/-- The channel is for secure connections. -/
def ERR_NOSSL : Nat := 488

/-- The channel is for operators. -/
def ERR_OPERONLY : Nat := 526

/-! ## Names -/

/-- `isIrcCh`. -/
def isIrcCh (c : Char) : Bool :=
  c.toNat ≠ 7 ∧ c ≠ ' ' ∧ c ≠ ',' ∧ c.toNat ≠ 160

/-- `IsChannelName` of a text without its terminator. -/
def esNombreCanal (name : CStr) : Bool :=
  isChannelName (name ++ [nul])

/-- The loop that looks for the last `0` of the line. `parv1` is where the line begins. -/
def buscaCero : Nat → CStr → CStr → CStr
  | 0, _, parv1 => parv1
  | _ + 1, [], parv1 => parv1
  | fuel + 1, c :: p, parv1 =>
      if c = '0' ∧ p.head?.all fun d ↦ d = ',' ∨ !isIrcCh d then
        match p with
        | [] => c :: p
        | _ :: p' => buscaCero fuel p' (c :: p)
      else
        match (c :: p).dropWhile (· ≠ ',') with
        | [] => parv1
        | _ :: p => buscaCero fuel p parv1

/-- The conversion of the line from UTF-8. -/
def convierte (conversionUtf : Bool) (p : CStr) : CStr :=
  let src := p.map fun c ↦ UInt8.ofNat c.toNat
  if conversionUtf ∧ isUtf8 src then
    ((utf8ToLatin1 (src ++ [0])).getD []).map fun b ↦ Char.ofNat b.toNat
  else p

section

variable {γ κ : Type} [DecidableEq γ] [DecidableEq κ] [Fintype γ]

/-! ## `can_join` -/

omit [DecidableEq γ] [Fintype γ] in
/-- `compall` finds the key in the ring. -/
def abre (key ring : CStr) : Bool :=
  compall (key ++ [nul]) (ring ++ [nul]) = some 0

/-- `can_join`. -/
def canJoin (e : AjustesJoin γ) (q : Entrante κ) (chname : CStr) (canal : Canal κ)
    (owner : Option CStr) (invited : Bool) (key : Option CStr) : Nat :=
  let llave : CStr → Bool := fun k ↦ key.any fun ring ↦ ring ≠ [] ∧ abre k ring
  let lleno : Bool := canal.limit ≠ 0 ∧ canal.limit ≤ canal.users
  let banned := isBannedSinCache e.resto q.cliente canal.banlist
  if q.servicesBot then 0
  else if Modo.regchan ∈ canal.mode ∧ q.nickRegistered ∧ owner = some q.name ∧
      llave "OWNER".toList then 0
  else if Modo.operonly ∈ canal.mode ∧ !q.anOper then ERR_OPERONLY
  else
    let overrideJoin :=
      if q.privWalkChan ∧ llave "OVERRIDE".toList then MAGIC_OPER_OVERRIDE
      else if q.anOper ∧ chname.head? = some '&' ∧ q.privWalkLchan ∧ llave "OVERRIDE".toList then
        MAGIC_OPER_OVERRIDE
      else 0
    if Modo.regnicks ∈ canal.mode ∧ !q.nickRegistered then overrideJoin + ERR_NEEDREGGEDNICK
    else if (Modo.inviteonly ∈ canal.mode ∨ banned ∨ lleno) ∧ !invited then
      overrideJoin +
        (if lleno then ERR_CHANNELISFULL
        else if Modo.inviteonly ∈ canal.mode then ERR_INVITEONLYCHAN else ERR_BANNEDFROMCHAN)
    else if Modo.sslonly ∈ canal.mode ∧ !q.ssl then overrideJoin + ERR_NOSSL
    else if canal.key.any fun k ↦ !llave k then overrideJoin + ERR_BADCHANNELKEY
    else 0

/-- `check_target_limit`: whether the user addresses too many targets. -/
def checkTargetLimit (e : AjustesJoin γ) (q : Entrante κ) (target : γ) (created : Bool)
    (m : Mundo γ κ) : Bool × Mundo γ κ :=
  let hash := e.hash target
  if q.channelService ∨ q.anOper ∨ q.docking then (false, m)
  else if m.targets.head? = some hash then (false, m)
  else if hash ∈ m.targets then (false, { m with targets := hash :: m.targets.erase hash })
  else if !created ∧ e.now < m.nexttarget then
    (true, if m.nexttarget - e.now < TARGET_DELAY + 8 then
      { m with nexttarget := m.nexttarget + 2 } else m)
  else
    let nexttarget :=
      if created then m.nexttarget
      else max (m.nexttarget + TARGET_DELAY) (e.now - TARGET_DELAY * (MAXTARGETS - 1))
    (false, { m with
      targets := hash :: m.targets.take (MAXTARGETS - 1)
      nexttarget := nexttarget })

omit [DecidableEq γ] [DecidableEq κ] [Fintype γ] in
/-- It does what it does for a client with a full table. -/
theorem checkTargetLimit_eq {e : AjustesJoin γ} {q : Entrante κ} {target : γ} {address : Nat}
    (h : e.hash target = User.Targets.hashTarget address) (s : User.Targets.Cliente)
    (created : Bool) (m : Mundo γ κ) :
    checkTargetLimit e q target created
        { m with targets := s.targets, nexttarget := s.nexttarget } =
      let v := s.checkTargetLimit (q.channelService || q.anOper || q.docking) e.now address created
      (v.limite, { m with targets := v.sptr.targets, nexttarget := v.sptr.nexttarget }) := by
  unfold checkTargetLimit User.Targets.Cliente.checkTargetLimit User.Targets.Cliente.revisaHash
  rw [h]
  generalize User.Targets.hashTarget address = hash
  dsimp only
  by_cases hexento : q.channelService = true ∨ q.anOper = true ∨ q.docking = true
  · have hlibre : (q.channelService || q.anOper || q.docking) = true := by
      simpa [or_assoc] using hexento
    rw [if_pos hexento, if_pos hlibre]
  have hlibre : ¬(q.channelService || q.anOper || q.docking) = true := by
    simpa [or_assoc] using hexento
  rw [if_neg hexento, if_neg hlibre]
  cases hfind : s.targets.finIdxOf? hash with
  | some p =>
      obtain ⟨b, c, htargets, hb, hlength⟩ := User.Targets.Cliente.finIdxOf_parts hfind
      have hmem : hash ∈ s.targets := by
        rw [htargets]
        exact List.mem_append_right _ List.mem_cons_self
      cases b with
      | nil =>
          have hcero : p.val = 0 := hlength.symm
          have hhead : s.targets.head? = some hash := by
            rw [htargets]
            rfl
          rw [if_pos hhead]
          dsimp only
          rw [if_pos hcero]
      | cons d b =>
          have hcero : ¬p.val = 0 := by
            rw [← hlength]
            exact Nat.succ_ne_zero _
          have hhead : ¬s.targets.head? = some hash := by
            rw [htargets]
            simp only [List.cons_append, List.head?_cons, Option.some.injEq]
            exact fun heq ↦ hb (heq ▸ List.mem_cons_self)
          have herase : s.targets.erase hash = d :: b ++ c := by
            rw [htargets, List.erase_append_right _ hb, List.erase_cons_head]
          have hmueve : (s.pon 0 p hash (Nat.zero_le p) p.isLt).targets =
              hash :: (d :: b ++ c) := by
            have hmove := User.Targets.desplaza_append (a := []) (b := d :: b) (c := c) hash hash
            rw [List.nil_append, ← htargets, List.length_nil, Nat.zero_add, hlength] at hmove
            exact hmove
          rw [if_neg hhead, if_pos hmem]
          dsimp only
          rw [if_neg hcero, herase, hmueve]
          rfl
  | none =>
      have hmem : hash ∉ s.targets := List.finIdxOf?_eq_none_iff.mp hfind
      have hhead : ¬s.targets.head? = some hash := fun heq ↦ hmem (List.mem_of_head? heq)
      have hpone : (s.pon 0 (MAXTARGETS - 1) hash (Nat.zero_le _) s.ultimo_lt).targets =
          hash :: s.targets.take (MAXTARGETS - 1) := by
        obtain ⟨a, b, x, htargets, ha, hlength⟩ :=
          s.targets_parts (show 0 < User.Targets.MAXTARGETS by decide)
        obtain rfl := List.length_eq_zero_iff.mp ha
        rw [List.nil_append] at htargets
        have hlen : b.length = MAXTARGETS - 1 := (Nat.zero_add _).symm.trans hlength
        have hmove := User.Targets.desplaza_append (a := []) (b := b) (c := []) x hash
        rw [List.nil_append, ← htargets, List.length_nil, Nat.zero_add, hlen] at hmove
        have htake : s.targets.take (MAXTARGETS - 1) = b := by
          rw [htargets, ← hlen, List.take_left]
        rw [htake]
        exact hmove.trans (by rw [List.nil_append, List.append_nil])
      rw [if_neg hhead, if_neg hmem]
      dsimp only
      cases created with
      | true =>
          simp only [Bool.not_true, Bool.false_eq_true, false_and, if_false, if_true]
          rw [← hpone]
          rfl
      | false =>
          simp only [Bool.not_false, true_and, Bool.false_eq_true, if_false]
          by_cases hespera : e.now < s.nexttarget
          · rw [if_pos hespera, if_pos hespera]
            split_ifs <;> rfl
          · rw [if_neg hespera, if_neg hespera]
            have hmax : max (s.nexttarget + TARGET_DELAY)
                (e.now - TARGET_DELAY * (MAXTARGETS - 1)) =
                  if s.nexttarget + TARGET_DELAY < e.now - TARGET_DELAY * (MAXTARGETS - 1) then
                    e.now - TARGET_DELAY * (MAXTARGETS - 1) else s.nexttarget + TARGET_DELAY := by
              split_ifs with hlt
              · exact max_eq_right hlt.le
              · exact max_eq_left (not_lt.mp hlt)
            rw [← hpone, hmax]

/-! ## A turn of the loop -/

/-- `ChannelExists`. -/
def channelExists (name : CStr) (m : Mundo γ κ) : Bool × Mundo γ κ :=
  let r := m.red.tabla.seek name fun _ ↦ true
  (r.1.isSome, { m with red := { m.red with tabla := r.2 } })

/-- `get_channel`, with the data of a channel that it has counted as a new one. -/
def pideCanal (e : AjustesJoin γ) (q : Entrante κ) (name : CStr) (create : Bool) (m : Mundo γ κ) :
    Option (Option γ × Mundo γ κ) :=
  (getChannel e.sys q.myUser name create m.red).map fun (chptr, red) ↦
    (chptr, match chptr with
      | some c =>
          if red.nrofChannels = m.red.nrofChannels then { m with red := red }
          else { m with
            red := red
            creationtime := Function.update m.creationtime c (if q.myUser then e.tsTime else 0)
            owner := Function.update m.owner c none }
      | none => { m with red := red })

/-- `flags` and `sendcreate` of a local user, with the name, which is cut off. -/
def eligeFlags (redirigido : Bool) (name : CStr) (m : Mundo γ κ) :
    CStr × (Finset Chfl × Bool) × Mundo γ κ :=
  let nuevo : CStr → Finset Chfl × Bool :=
    fun name ↦ (if isModelessChannel name then {.deopped} else {.chanop}, true)
  let (existe, m) := channelExists name m
  if existe then (name, ({.deopped}, false), m)
  else if CHANNELLEN < name.length then
    let name := if redirigido then name else name.take CHANNELLEN
    let (existe, m) := channelExists name m
    if existe then (name, ({.deopped}, false), m) else (name, nuevo name, m)
  else (name, nuevo name, m)

/-- What comes before `get_channel`: the name is left out, or the loop ends, or it goes on with
`flags` and `sendcreate`, which are set for a local user. -/
inductive Previo (γ κ : Type) where
  | fuera
  | rompe (flags : Finset Chfl) (sendcreate : Bool) (chptr : Option γ) (m : Mundo γ κ)
  | sigue (name : CStr) (elegido : Option (Finset Chfl × Bool)) (m : Mundo γ κ)

/-- The checks of the name. -/
def previo (e : AjustesJoin γ) (q : Entrante κ) (name : CStr) (m : Mundo γ κ) :
    Option (Previo γ κ) :=
  if !q.myUser then
    if name.head? = some '&' ∨ !esNombreCanal name then some .fuera else some (.sigue name none m)
  else if !esNombreCanal name ∨ name.any (· < ' ') then some .fuera
  else
    let redir := e.redirige name
    let name := redir.getD name
    if e.badChannel name ∧ !q.anOper then some .fuera
    else
      let (name, elegido, m) := eligeFlags redir.isSome name m
      if !q.docking ∧ e.maxchannelsperuser ≤ m.red.joined q.sptr ∧ !q.privChanLimit then
        (pideCanal e q name false m).map fun (chptr, m) ↦ .rompe elegido.1 elegido.2 chptr m
      else some (.sigue name (some elegido) m)

/-- What `get_channel` and the list of its members give: the user is a member already, or was a
zombie with some flags, or is new. -/
inductive Encuentro (γ κ : Type) where
  | yaEsta (chptr : γ) (m : Mundo γ κ)
  | zombie (chptr : γ) (flags : Finset Chfl) (m : Mundo γ κ)
  | nuevo (chptr : γ) (m : Mundo γ κ)

/-- The channel is looked for or created, and a zombie is taken out of it. -/
def encuentra (e : AjustesJoin γ) (q : Entrante κ) (name : CStr) (m : Mundo γ κ) :
    Option (Encuentro γ κ) := do
  let (chptr, m) ← pideCanal e q name true m
  let chptr ← chptr
  match findUserLink (m.red.canal chptr).members q.sptr with
  | none => return .nuevo chptr m
  | some lp =>
      if .zombie ∈ lp.flags then
        let red ← removeUserFromChannel q.sptr chptr m.red
        let (chptr, m) ← pideCanal e q name true { m with red := red }
        let chptr ← chptr
        return .zombie chptr (lp.flags ∩ {.deopped, .servopok}) m
      else return .yaEsta chptr m

/-- A message to the members of a channel. -/
inductive AnuncioJoin (γ : Type) where
  | join (chptr : γ)
  | leftAll (chptr : γ)
deriving DecidableEq

/-- The variables of `m_join` that outlive a turn. `conTS` tells whether `parc` is greater than 2,
and the buffers are kept as their names, with their lengths. -/
structure Entrando (γ κ : Type) where
  mundo : Mundo γ κ
  zombie : Bool
  flags : Finset Chfl
  sendcreate : Bool
  conTS : Bool
  chptr : Option γ
  jbuf : List CStr
  jlen : Nat
  mbuf : List CStr
  mlen : Nat
  anuncios : List (AnuncioJoin γ)

/-- The creation time of a channel that the user tries to enter, and whether `parc` stays. -/
def ponTS (keysOrTS : Option CStr) (conTS : Bool) (creationtime : Int) : Int × Bool :=
  let creationtime := if creationtime = 0 then MAGIC_REMOTE_JOIN_TS else creationtime
  match conTS, keysOrTS with
  | true, some ts =>
      if creationtime = MAGIC_REMOTE_JOIN_TS then (atoi ts, true) else (creationtime, false)
  | _, _ => (creationtime, conTS)

/-- A name is put into a buffer that has room for it. -/
def apunta (buf : List CStr) (len : Nat) (name : CStr) : List CStr × Nat :=
  if len < BUFSIZE - name.length - 2 then
    (buf ++ [name], len + (if buf = [] then 0 else 1) + name.length)
  else (buf, len)

omit [DecidableEq γ] [DecidableEq κ] [Fintype γ] in
/-- The end of a turn: the name goes into a buffer unless it is that of a local channel. -/
def anota (name : CStr) (x : Entrando γ κ) : Entrando γ κ :=
  if name.head? = some '&' then x
  else if x.sendcreate then
    let (mbuf, mlen) := apunta x.mbuf x.mlen name
    { x with mbuf := mbuf, mlen := mlen, sendcreate := false }
  else
    let (jbuf, jlen) := apunta x.jbuf x.jlen name
    { x with jbuf := jbuf, jlen := jlen }

/-- The user enters the channel. -/
def mete (q : Entrante κ) (chptr : γ) (x : Entrando γ κ) : Entrando γ κ :=
  let name := x.mundo.red.tabla.name chptr
  let red := addUserToChannel chptr q.sptr x.flags x.mundo.red
  let red := if q.myUser then delInvite q.sptr chptr red else red
  anota name { x with
    mundo := { x.mundo with red := red }
    anuncios := x.anuncios ++ [.join chptr] }

/-- The tests for a local user: the state after them, when they refuse the user. -/
def rechaza (e : AjustesJoin γ) (q : Entrante κ) (keysOrTS : Option CStr) (chptr : γ)
    (m : Mundo γ κ) : Bool × Mundo γ κ :=
  let invited : Bool := chptr ∈ m.red.invited q.sptr
  let created : Bool := (m.red.canal chptr).users = 0
  let (limitado, m) := if invited then (false, m) else checkTargetLimit e q chptr created m
  if limitado then
    (true, if created then { m with red := sub1FromChannel chptr m.red } else m)
  else
    let i := canJoin e q (m.red.tabla.name chptr) (m.red.canal chptr) (m.owner chptr) invited
      keysOrTS
    (i ≠ 0 ∧ i ≤ MAGIC_OPER_OVERRIDE, m)

/-- The user owns the channel. -/
def esOwner (q : Entrante κ) (chptr : γ) (m : Mundo γ κ) : Bool :=
  Modo.regchan ∈ (m.red.canal chptr).mode ∧ q.nickRegistered ∧ m.owner chptr = some q.name

/-- What follows `get_channel` for a user who is not yet a member. -/
def admite (e : AjustesJoin γ) (q : Entrante κ) (keysOrTS : Option CStr) (chptr : γ)
    (x : Entrando γ κ) : Entrando γ κ :=
  let (creationtime, conTS) := ponTS keysOrTS x.conTS (x.mundo.creationtime chptr)
  let flags :=
    if x.zombie then x.flags
    else (if !q.myUser then {.deopped} else x.flags) ∪ (if q.ts8 then {.servopok} else ∅)
  let x := { x with
    mundo := { x.mundo with
      creationtime := Function.update x.mundo.creationtime chptr creationtime }
    conTS := conTS
    flags := flags
    chptr := some chptr }
  if q.myUser then
    let (no, m) := rechaza e q keysOrTS chptr x.mundo
    if no then { x with mundo := m }
    else mete q chptr { x with
      mundo := m
      flags := if esOwner q chptr m then {.owner} else x.flags }
  else mete q chptr x

/-- `JOIN 0`: the loop over the channels of the user. -/
def dejaTodos (q : Entrante κ) : Nat → Red γ κ → List (AnuncioJoin γ) →
    Option (Red γ κ × List (AnuncioJoin γ))
  | 0, red, as => some (red, as)
  | fuel + 1, red, as =>
      match red.channel q.sptr with
      | [] => some (red, as)
      | chptr :: _ =>
          let zombie := (findUserLink (red.canal chptr).members q.sptr).any fun lp ↦
            .zombie ∈ lp.flags
          (removeUserFromChannel q.sptr chptr red).bind fun red ↦
            dejaTodos q fuel red (if zombie then as else as ++ [.leftAll chptr])

/-- A turn of the loop of `m_join`, and whether it is the last one. -/
def vueltaJoin (e : AjustesJoin γ) (q : Entrante κ) (keysOrTS : Option CStr) (name : CStr)
    (x : Entrando γ κ) : Option (Bool × Entrando γ κ) := do
  let name := if q.myUser then name.takeWhile isIrcCh else name
  if name = ['0'] then
    let (red, anuncios) ← dejaTodos q (x.mundo.red.channel q.sptr).length x.mundo.red x.anuncios
    return (false, anota name { x with
      mundo := { x.mundo with red := red }
      jbuf := [], jlen := 0, mbuf := [], mlen := 0, anuncios := anuncios })
  match ← previo e q name x.mundo with
  | .fuera => return (false, x)
  | .rompe flags sendcreate chptr m =>
      return (true, { x with mundo := m, flags := flags, sendcreate := sendcreate, chptr := chptr })
  | .sigue name elegido m =>
      let x := { x with
        flags := elegido.elim x.flags Prod.fst
        sendcreate := elegido.elim x.sendcreate Prod.snd }
      match ← encuentra e q name m with
      | .yaEsta chptr m => return (false, { x with mundo := m, chptr := some chptr })
      | .zombie chptr flags m =>
          return (false, admite e q keysOrTS chptr
            { x with mundo := m, zombie := true, flags := flags })
      | .nuevo chptr m => return (false, admite e q keysOrTS chptr { x with mundo := m })

/-- The loop of `m_join`. -/
def vueltasJoin (e : AjustesJoin γ) (q : Entrante κ) (keysOrTS : Option CStr) :
    List CStr → Entrando γ κ → Option (Entrando γ κ)
  | [], x => some x
  | name :: names, x =>
      match vueltaJoin e q keysOrTS name x with
      | none => none
      | some (true, x) => some x
      | some (false, x) => vueltasJoin e q keysOrTS names x

/-- What `m_join` leaves: the state, the messages to members, the channels joined and created that
the other servers are told of, the joined ones with the time stamp, and the grants to an owner. -/
structure Entrado (γ κ : Type) where
  mundo : Mundo γ κ
  anuncios : List (AnuncioJoin γ)
  joins : List (CStr × Option CStr)
  creates : List CStr
  owners : List γ

/-- The variables at the start. -/
def Entrando.inicio (keysOrTS : Option CStr) (m : Mundo γ κ) : Entrando γ κ :=
  ⟨m, false, ∅, false, keysOrTS.isSome, none, [], 0, [], 0, []⟩

/-- What follows the loop. -/
def Entrando.fin (keysOrTS : Option CStr) (x : Entrando γ κ) : Entrado γ κ where
  mundo := x.mundo
  anuncios := x.anuncios
  joins := x.jbuf.map fun name ↦ (name, if x.conTS then keysOrTS else none)
  creates := x.mbuf
  owners := if x.flags = {.owner} then x.chptr.toList else []

/-- `m_join` of a user, with `parv[1]` and the keys or the time stamp. -/
def mJoin (e : AjustesJoin γ) (q : Entrante κ) (channels : CStr) (keysOrTS : Option CStr)
    (m : Mundo γ κ) : Option (Entrado γ κ) :=
  if channels = [] then some (Entrando.fin keysOrTS (.inicio keysOrTS m))
  else
    let parv1 := if q.myUser ∧ q.noJoin then e.canalDebug else some channels
    match parv1 with
    | none => some (Entrando.fin keysOrTS (.inicio keysOrTS m))
    | some parv1 =>
        let parv1 := convierte e.conversionUtf (buscaCero parv1.length parv1 parv1)
        (vueltasJoin e q keysOrTS (fichas parv1) (.inicio keysOrTS m)).map
          (Entrando.fin keysOrTS)

/-- The channels one by one, each with the same parameters. -/
def mJoins (e : AjustesJoin γ) (q : Entrante κ) (keysOrTS : Option CStr) :
    List CStr → Mundo γ κ → Option (Entrado γ κ)
  | [], m => some ⟨m, [], [], [], []⟩
  | name :: names, m =>
      match mJoin e q name keysOrTS m with
      | none => none
      | some r => (mJoins e q keysOrTS names r.mundo).map fun r' ↦
          ⟨r'.mundo, r.anuncios ++ r'.anuncios, r.joins ++ r'.joins, r.creates ++ r'.creates,
            r.owners ++ r'.owners⟩

end

end Ircd.Channel
