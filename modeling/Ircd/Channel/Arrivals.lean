import Ircd.Channel.Join

/-!
# Channels joined one by one

What `m_join` of `ircd/channel.c` does with each name of a list, from the state that the names before
it leave. The variables of the loop keep something of the channels before: the zombie mark and the
flags, `parc`, the room in the buffers, and the grant to an owner, which is only made for the last
channel. `listas_iff` in `Channel/Sequence.lean` rests on this: a channel gets what a command of its
own would do to it as long as the channels before it leave it what such a command would find.
-/

namespace Ircd.Channel

open CString Hash

section

variable {γ κ : Type}

/-! ## States -/

/-- The states differ at most in the chains of the hash table. -/
def Mundo.Mismo (m m' : Mundo γ κ) : Prop :=
  ∃ tabla : Tabla γ, tabla.name = m.red.tabla.name ∧
    m' = { m with red := { m.red with tabla := tabla } }

theorem Mundo.Mismo.refl (m : Mundo γ κ) : m.Mismo m :=
  ⟨m.red.tabla, rfl, rfl⟩

theorem Mundo.Mismo.trans {m m' m'' : Mundo γ κ} (h : m.Mismo m') (h' : m'.Mismo m'') :
    m.Mismo m'' := by
  obtain ⟨tabla, hname, rfl⟩ := h
  obtain ⟨tabla', hname', rfl⟩ := h'
  exact ⟨tabla', hname'.trans hname, rfl⟩

/-! ## What comes of a name -/

/-- A channel that a user tries to enter: its name, the flags that the user had in it as a zombie,
whether the user creates it, whether another server has created it, and whether the user gets in, has
a `user`, and owns it. -/
structure Llegada (γ : Type) where
  chptr : γ
  name : CStr
  zombie : Option (Finset Chfl)
  create : Bool
  magic : Bool
  entra : Bool
  user : Bool
  owner : Bool

/-- What comes of a name: it is left out, or the user does not try to enter the channel, or does. -/
inductive Suerte (γ : Type) where
  | fuera
  | otra
  | llega (l : Llegada γ)

/-- The channel that the user tries to enter. -/
def Suerte.llegadas : Suerte γ → List (Llegada γ)
  | .fuera => []
  | .otra => []
  | .llega l => [l]

/-- The channels that the user tries to enter, in order. -/
def llegadas (ss : List (Suerte γ)) : List (Llegada γ) :=
  ss.flatMap Suerte.llegadas

/-- The user gets into a channel that other servers know. -/
def Llegada.esGlobal (l : Llegada γ) : Bool :=
  l.entra ∧ l.name.head? ≠ some '&'

/-- The name that is told to the other servers as that of a channel that is created, or joined. The
names of channels are far shorter than the buffer. -/
def Llegada.dicho (create : Bool) (l : Llegada γ) : List CStr :=
  if l.esGlobal ∧ l.create = create ∧ 0 < BUFSIZE - l.name.length - 2 then [l.name] else []

/-- What is told to the members. -/
def Llegada.anuncios (l : Llegada γ) : List (AnuncioJoin γ) :=
  if l.entra then [.join l.chptr] else []

/-- The flags of a member, or those of an owner. -/
def Llegada.banderas (l : Llegada γ) (flags : Finset Chfl) : Finset Chfl :=
  if l.owner then {.owner} else flags

/-- What comes of channels that the user tries to enter by a command for each. -/
def entrado (keysOrTS : Option CStr) (mundo : Mundo γ κ) (ls : List (Llegada γ)) : Entrado γ κ where
  mundo := mundo
  anuncios := ls.flatMap Llegada.anuncios
  joins := ls.flatMap fun l ↦ (l.dicho false).map fun name ↦
    (name, if l.magic then keysOrTS else none)
  creates := ls.flatMap (Llegada.dicho true)
  owners := (ls.filter Llegada.owner).map Llegada.chptr

/-- What comes of two commands, one after the other. -/
def Entrado.mas (r r' : Entrado γ κ) : Entrado γ κ :=
  ⟨r'.mundo, r.anuncios ++ r'.anuncios, r.joins ++ r'.joins, r.creates ++ r'.creates,
    r.owners ++ r'.owners⟩

theorem Entrado.mas_assoc (r r' r'' : Entrado γ κ) :
    (r.mas r').mas r'' = r.mas (r'.mas r'') := by
  simp [Entrado.mas, List.append_assoc]

theorem entrado_append (keysOrTS : Option CStr) (m m' : Mundo γ κ) (ls ls' : List (Llegada γ)) :
    entrado keysOrTS m' (ls ++ ls') = (entrado keysOrTS m ls).mas (entrado keysOrTS m' ls') := by
  simp [entrado, Entrado.mas]

/-- The channel has the creation time of one that another server has created. -/
def EsMagic (creationtime : Int) : Prop :=
  creationtime = 0 ∨ creationtime = MAGIC_REMOTE_JOIN_TS

instance (creationtime : Int) : Decidable (EsMagic creationtime) :=
  inferInstanceAs (Decidable (_ ∨ _))

/-- `clean_channelname`. -/
def limpia (q : Entrante κ) (name : CStr) : CStr :=
  if q.myUser then name.takeWhile isIrcCh else name

/-- The flags of a user from another server in a channel that they enter. -/
def deFuera (q : Entrante κ) : Finset Chfl :=
  {.deopped} ∪ if q.ts8 then {.servopok} else ∅

/-- The flags of a user who does not own the channel. -/
def sinOwner (q : Entrante κ) (zombie : Bool) (flags : Finset Chfl) : Finset Chfl :=
  if zombie then flags
  else (if !q.myUser then {.deopped} else flags) ∪ (if q.ts8 then {.servopok} else ∅)

/-- What is found under a name: the state with `flags` and `sendcreate`, if they are set. -/
inductive Hallazgo (γ κ : Type) where
  | fuera
  | rompe (flags : Finset Chfl) (sendcreate : Bool) (chptr : Option γ) (m : Mundo γ κ)
  | esta (elegido : Option (Finset Chfl × Bool)) (chptr : γ) (m : Mundo γ κ)
  | llega (elegido : Option (Finset Chfl × Bool)) (zombie : Option (Finset Chfl)) (chptr : γ)
      (m : Mundo γ κ)

variable {e : AjustesJoin γ} {q : Entrante κ} {m m' : Mundo γ κ}

/-- Whether a name goes into a buffer, and the buffer with it. -/
def apuntaSi (b : Bool) (name : CStr) (buf : List CStr × Nat) : List CStr × Nat :=
  if b then apunta buf.1 buf.2 name else buf

theorem anota_eq (name : CStr) (x : Entrando γ κ) : anota name x =
    { x with
      sendcreate := x.sendcreate && !decide (name.head? ≠ some '&')
      jbuf := (apuntaSi (decide (name.head? ≠ some '&') && !x.sendcreate) name (x.jbuf, x.jlen)).1
      jlen := (apuntaSi (decide (name.head? ≠ some '&') && !x.sendcreate) name (x.jbuf, x.jlen)).2
      mbuf := (apuntaSi (decide (name.head? ≠ some '&') && x.sendcreate) name (x.mbuf, x.mlen)).1
      mlen :=
        (apuntaSi (decide (name.head? ≠ some '&') && x.sendcreate) name (x.mbuf, x.mlen)).2 } := by
  unfold anota apuntaSi
  by_cases hamp : name.head? = some '&'
  · simp [hamp]
  · cases x.sendcreate <;> simp [hamp]

/-- The flags of a user who does not own the channel are no owner's. -/
theorem sinOwner_ne {flags : Finset Chfl} (h : flags ≠ {.owner}) (zombie : Bool) :
    sinOwner q zombie flags ≠ {.owner} := by
  have hmem : ∀ c ∈ sinOwner q zombie flags, c ≠ .owner → sinOwner q zombie flags ≠ {.owner} := by
    intro c hc hne heq
    rw [heq, Finset.mem_singleton] at hc
    exact hne hc
  cases zombie with
  | true => exact h
  | false =>
      cases hts8 : q.ts8 with
      | true => exact hmem .servopok (by simp [sinOwner, hts8]) (by decide)
      | false =>
          cases hmio : q.myUser with
          | true => simpa [sinOwner, hts8, hmio] using h
          | false => exact hmem .deopped (by simp [sinOwner, hmio]) (by decide)

/-- `flags` are set for a local user, and not to those of an owner. -/
def Elegido (q : Entrante κ) (elegido : Option (Finset Chfl × Bool)) : Prop :=
  elegido.isSome = q.myUser ∧ ∀ p ∈ elegido, p.1 ≠ {.owner}

/-- A local user is in as many channels as they may be in. -/
def Lleno (e : AjustesJoin γ) (q : Entrante κ) (m : Mundo γ κ) : Prop :=
  q.myUser = true ∧ q.docking = false ∧ e.maxchannelsperuser ≤ m.red.joined q.sptr ∧
    q.privChanLimit = false

/-- What the checks of a name leave: `flags` are no owner's, and the loop ends for a user who is in
as many channels as they may be in. -/
def Previo.Bien (e : AjustesJoin γ) (q : Entrante κ) (m : Mundo γ κ) : Previo γ κ → Prop
  | .fuera => True
  | .rompe flags _ _ m' => flags ≠ {.owner} ∧ Lleno e q m ∧ m.Mismo m'
  | .sigue _ elegido m' => Elegido q elegido ∧ m.Mismo m'

/-- What is found under a name. -/
def Hallazgo.Bien (e : AjustesJoin γ) (q : Entrante κ) (m : Mundo γ κ) : Hallazgo γ κ → Prop
  | .fuera => True
  | .rompe flags _ _ m' => flags ≠ {.owner} ∧ Lleno e q m ∧ m.Mismo m'
  | .esta elegido _ m' => Elegido q elegido ∧ m.Mismo m'
  | .llega elegido zombie _ _ => Elegido q elegido ∧ ∀ z ∈ zombie, z ≠ {.owner}

end

section

variable {γ κ : Type} [DecidableEq γ] [DecidableEq κ] [Fintype γ]

/-- What is found under a name, before the channel is entered. -/
def halla (e : AjustesJoin γ) (q : Entrante κ) (name : CStr) (m : Mundo γ κ) :
    Option (Hallazgo γ κ) :=
  match previo e q name m with
  | none => none
  | some .fuera => some .fuera
  | some (.rompe flags sendcreate chptr m) => some (.rompe flags sendcreate chptr m)
  | some (.sigue name elegido m) => (encuentra e q name m).map fun
      | .yaEsta chptr m => .esta elegido chptr m
      | .zombie chptr flags m => .llega elegido (some flags) chptr m
      | .nuevo chptr m => .llega elegido none chptr m

/-- The channel that is found. -/
def llegada (e : AjustesJoin γ) (q : Entrante κ) (keysOrTS : Option CStr) (chptr : γ)
    (zombie : Option (Finset Chfl)) (create : Bool) (m : Mundo γ κ) : Llegada γ where
  chptr := chptr
  name := m.red.tabla.name chptr
  zombie := zombie
  create := create
  magic := EsMagic (m.creationtime chptr)
  entra := !(q.myUser && (rechaza e q keysOrTS chptr m).1)
  user := m.red.user q.sptr
  owner := q.myUser && !(rechaza e q keysOrTS chptr m).1 && esOwner q chptr m

/-- The state when the channel has been entered with the creation time and the flags, or the user has
been refused. -/
def tras (e : AjustesJoin γ) (q : Entrante κ) (keysOrTS : Option CStr) (chptr : γ)
    (creationtime : Int) (flags : Finset Chfl) (m : Mundo γ κ) : Mundo γ κ :=
  let m := { m with creationtime := Function.update m.creationtime chptr creationtime }
  if q.myUser then
    let (no, m) := rechaza e q keysOrTS chptr m
    if no then m
    else { m with red := delInvite q.sptr chptr (addUserToChannel chptr q.sptr flags m.red) }
  else { m with red := addUserToChannel chptr q.sptr flags m.red }

/-- What a command with one name does. -/
def paso (e : AjustesJoin γ) (q : Entrante κ) (keysOrTS : Option CStr) (name : CStr)
    (m : Mundo γ κ) : Option (Suerte γ × Mundo γ κ) :=
  (halla e q name m).map fun
    | .fuera => (.fuera, m)
    | .rompe _ _ _ m => (.otra, m)
    | .esta _ _ m => (.otra, m)
    | .llega elegido zombie chptr m =>
        let l := llegada e q keysOrTS chptr zombie (elegido.any Prod.snd) m
        let flags := sinOwner q zombie.isSome (zombie.getD (elegido.elim ∅ Prod.fst))
        (.llega l, tras e q keysOrTS chptr
          (ponTS keysOrTS keysOrTS.isSome (m.creationtime chptr)).1 (l.banderas flags) m)

/-- What comes of the names one by one. -/
def suertes (e : AjustesJoin γ) (q : Entrante κ) (keysOrTS : Option CStr) :
    List CStr → Mundo γ κ → List (Suerte γ)
  | [], _ => []
  | name :: names, m =>
      match paso e q keysOrTS (limpia q name) m with
      | none => []
      | some (s, m) => s :: suertes e q keysOrTS names m

variable {e : AjustesJoin γ} {q : Entrante κ} {keysOrTS : Option CStr} {x : Entrando γ κ}
  {m m' : Mundo γ κ} {chptr : γ} {name : CStr}

/-! ## A turn of the loop -/

/-- The tests do not read the creation time. -/
theorem rechaza_creationtime (f : γ → Int) :
    rechaza e q keysOrTS chptr { m with creationtime := f } =
      ((rechaza e q keysOrTS chptr m).1,
        { (rechaza e q keysOrTS chptr m).2 with creationtime := f }) := by
  have htarget : ∀ created, checkTargetLimit e q chptr created { m with creationtime := f } =
      ((checkTargetLimit e q chptr created m).1,
        { (checkTargetLimit e q chptr created m).2 with creationtime := f }) := by
    intro created
    unfold checkTargetLimit
    dsimp only
    split_ifs <;> rfl
  unfold rechaza
  dsimp only
  rw [htarget]
  split_ifs <;> rfl

/-- A user who is not refused changes no channel yet. -/
theorem rechaza_admitido (h : (rechaza e q keysOrTS chptr m).1 = false) :
    (rechaza e q keysOrTS chptr m).2.red = m.red ∧
      (rechaza e q keysOrTS chptr m).2.owner = m.owner := by
  have htarget : ∀ created, (checkTargetLimit e q chptr created m).2.red = m.red ∧
      (checkTargetLimit e q chptr created m).2.owner = m.owner := by
    intro created
    unfold checkTargetLimit
    dsimp only
    split_ifs <;> exact ⟨rfl, rfl⟩
  unfold rechaza at h ⊢
  by_cases hinvited : chptr ∈ m.red.invited q.sptr
  · simp [hinvited]
  · cases hlim : (checkTargetLimit e q chptr (decide ((m.red.canal chptr).users = 0)) m).1 with
    | true => simp [hinvited, hlim] at h
    | false => simpa [hinvited, hlim] using htarget _

/-- What follows `get_channel`. -/
theorem admite_eq (zombie : Option (Finset Chfl)) {l : Llegada γ}
    (hl : llegada e q keysOrTS chptr zombie x.sendcreate x.mundo = l) :
    admite e q keysOrTS chptr x =
      { mundo := tras e q keysOrTS chptr
          (ponTS keysOrTS x.conTS (x.mundo.creationtime chptr)).1
          (l.banderas (sinOwner q x.zombie x.flags)) x.mundo
        zombie := x.zombie
        flags := l.banderas (sinOwner q x.zombie x.flags)
        sendcreate := x.sendcreate && !l.esGlobal
        conTS := (ponTS keysOrTS x.conTS (x.mundo.creationtime chptr)).2
        chptr := some chptr
        jbuf := (apuntaSi (l.esGlobal && (l.create == false)) l.name (x.jbuf, x.jlen)).1
        jlen := (apuntaSi (l.esGlobal && (l.create == false)) l.name (x.jbuf, x.jlen)).2
        mbuf := (apuntaSi (l.esGlobal && (l.create == true)) l.name (x.mbuf, x.mlen)).1
        mlen := (apuntaSi (l.esGlobal && (l.create == true)) l.name (x.mbuf, x.mlen)).2
        anuncios := x.anuncios ++ l.anuncios } := by
  subst hl
  unfold admite tras
  dsimp only
  rw [rechaza_creationtime]
  dsimp only
  cases hmio : q.myUser with
  | false =>
      simp only [Bool.false_eq_true, if_false]
      unfold mete
      dsimp only
      rw [anota_eq, hmio]
      simp only [Bool.false_eq_true, if_false]
      simp [llegada, hmio, Llegada.esGlobal, Llegada.banderas, Llegada.anuncios, sinOwner]
  | true =>
      simp only [if_true]
      cases hno : (rechaza e q keysOrTS chptr x.mundo).1 with
      | true =>
          simp [llegada, hmio, hno, Llegada.esGlobal, Llegada.banderas, Llegada.anuncios, sinOwner,
            apuntaSi]
      | false =>
          obtain ⟨hred, howner⟩ := rechaza_admitido hno
          have hesOwner : esOwner q chptr (rechaza e q keysOrTS chptr x.mundo).2 =
              esOwner q chptr x.mundo := by
            unfold esOwner
            rw [hred, howner]
          have hesOwner' : esOwner q chptr { (rechaza e q keysOrTS chptr x.mundo).2 with
              creationtime := Function.update x.mundo.creationtime chptr
                (ponTS keysOrTS x.conTS (x.mundo.creationtime chptr)).1 } =
              esOwner q chptr x.mundo := hesOwner
          simp only [Bool.false_eq_true, if_false]
          unfold mete
          dsimp only
          rw [anota_eq, hesOwner', hred, hmio]
          simp [llegada, hmio, hno, Llegada.esGlobal, Llegada.banderas, Llegada.anuncios, sinOwner]

/-- A turn for a name that is not `0`. -/
theorem vueltaJoin_eq (h : limpia q name ≠ ['0']) (x : Entrando γ κ) :
    vueltaJoin e q keysOrTS name x = (halla e q (limpia q name) x.mundo).map fun
      | .fuera => (false, x)
      | .rompe flags sendcreate chptr m =>
          (true, { x with mundo := m, flags := flags, sendcreate := sendcreate, chptr := chptr })
      | .esta elegido chptr m =>
          (false, { x with
            mundo := m
            flags := elegido.elim x.flags Prod.fst
            sendcreate := elegido.elim x.sendcreate Prod.snd
            chptr := some chptr })
      | .llega elegido zombie chptr m =>
          (false, admite e q keysOrTS chptr { x with
            mundo := m
            zombie := x.zombie || zombie.isSome
            flags := zombie.getD (elegido.elim x.flags Prod.fst)
            sendcreate := elegido.elim x.sendcreate Prod.snd }) := by
  unfold vueltaJoin halla
  rw [show (if q.myUser = true then name.takeWhile isIrcCh else name) = limpia q name from rfl]
  dsimp only
  rw [if_neg h]
  cases previo e q (limpia q name) x.mundo with
  | none => rfl
  | some p =>
      cases p with
      | fuera => rfl
      | rompe flags sendcreate chptr m => rfl
      | sigue name elegido m =>
          show (encuentra e q name m).bind _ = Option.map _ ((encuentra e q name m).map _)
          cases encuentra e q name m with
          | none => rfl
          | some n => cases n <;> simp

omit [DecidableEq κ] in
theorem eligeFlags_ne (redirigido : Bool) (name : CStr) (m : Mundo γ κ) :
    (eligeFlags redirigido name m).2.1.1 ≠ {.owner} := by
  have hdeopped : ({.deopped} : Finset Chfl) ≠ {.owner} := by decide
  have hchanop : ({.chanop} : Finset Chfl) ≠ {.owner} := by decide
  unfold eligeFlags
  dsimp only
  split_ifs <;> assumption

omit [DecidableEq κ] in
theorem channelExists_mismo (name : CStr) (m : Mundo γ κ) : m.Mismo (channelExists name m).2 :=
  ⟨_, Tabla.name_seek _ _ _, rfl⟩

omit [DecidableEq κ] in
theorem eligeFlags_mismo (redirigido : Bool) (name : CStr) (m : Mundo γ κ) :
    m.Mismo (eligeFlags redirigido name m).2.2 := by
  have hagain : ∀ name', m.Mismo (channelExists name' (channelExists name m).2).2 :=
    fun name' ↦ (channelExists_mismo name m).trans (channelExists_mismo name' _)
  unfold eligeFlags
  dsimp only
  split_ifs <;> first | exact channelExists_mismo name m | exact hagain _

omit [DecidableEq κ] in
/-- A channel that is only looked for. -/
theorem pideCanal_mismo (name : CStr) (m : Mundo γ κ) :
    ∃ chptr m', pideCanal e q name false m = some (chptr, m') ∧ m.Mismo m' := by
  obtain ⟨chptr, tabla, hget, hname⟩ : ∃ chptr tabla,
      getChannel e.sys q.myUser name false m.red = some (chptr, { m.red with tabla := tabla }) ∧
        tabla.name = m.red.tabla.name := by
    unfold getChannel
    by_cases hnil : name = []
    · exact ⟨none, m.red.tabla, if_pos hnil, rfl⟩
    · obtain ⟨r, hr⟩ : ∃ r, m.red.tabla.seek
          (if q.myUser = true ∧ CHANNELLEN < name.length then name.take CHANNELLEN else name)
          (fun _ ↦ true) = r := ⟨_, rfl⟩
      refine ⟨r.1, r.2, ?_, by rw [← hr, Tabla.name_seek]⟩
      rw [if_neg hnil]
      dsimp only
      rw [hr]
      obtain ⟨_ | chptr, tabla⟩ := r <;> rfl
  refine ⟨chptr, { m with red := { m.red with tabla := tabla } }, ?_, ⟨tabla, hname, rfl⟩⟩
  unfold pideCanal
  rw [hget, Option.map_some]
  cases chptr with
  | none => rfl
  | some c => simp

omit [DecidableEq κ] in
theorem previo_bien {p : Previo γ κ} (h : previo e q name m = some p) : p.Bien e q m := by
  unfold previo at h
  cases hmio : q.myUser with
  | false =>
      simp only [hmio, Bool.not_false, if_true] at h
      split_ifs at h
      · cases h
        trivial
      · cases h
        exact ⟨⟨by rw [hmio]; rfl, by simp⟩, .refl m⟩
  | true =>
      simp only [hmio, Bool.not_true, Bool.false_eq_true, if_false] at h
      have helige := eligeFlags_ne (e.redirige name).isSome ((e.redirige name).getD name) m
      have hmismo := eligeFlags_mismo (e.redirige name).isSome ((e.redirige name).getD name) m
      obtain ⟨r, hr⟩ : ∃ r, eligeFlags (e.redirige name).isSome ((e.redirige name).getD name) m = r :=
        ⟨_, rfl⟩
      rw [hr] at h helige hmismo
      obtain ⟨chptr, m', hpide, hmismo'⟩ := @pideCanal_mismo _ _ _ _ e q r.1 r.2.2
      rw [hpide] at h
      split_ifs at h with hfalse hmal hlleno
      · cases h
        trivial
      · cases h
        trivial
      · cases h
        refine ⟨helige, ⟨hmio, by simpa using hlleno.1, ?_, by simpa using hlleno.2.2⟩,
          hmismo.trans hmismo'⟩
        obtain ⟨tabla, -, hm⟩ := hmismo
        have hjoined := hlleno.2.1
        rw [hm] at hjoined
        exact hjoined
      · cases h
        exact ⟨⟨by rw [hmio]; rfl, by simpa using helige⟩, hmismo⟩

/-- The flags of a zombie that are kept are no owner's. -/
theorem encuentra_zombie {flags : Finset Chfl}
    (h : encuentra e q name m = some (.zombie chptr flags m')) : flags ≠ {.owner} := by
  obtain ⟨lp, hlp⟩ : ∃ lp : Miembro κ, flags = lp.flags ∩ {.deopped, .servopok} := by
    unfold encuentra at h
    simp only [Option.bind_eq_bind, Option.pure_def, Option.bind_eq_some_iff] at h
    obtain ⟨⟨c, m₁⟩, -, c', -, h⟩ := h
    split at h
    · cases h
    · split_ifs at h with hzombie
      · simp only [Option.bind_eq_some_iff] at h
        obtain ⟨red, -, ⟨c₁, m₂⟩, -, c₂, -, h⟩ := h
        cases h
        exact ⟨_, rfl⟩
      · cases h
  intro heq
  have howner : Chfl.owner ∈ lp.flags ∩ {.deopped, .servopok} := by
    rw [← hlp, heq]
    exact Finset.mem_singleton_self _
  have hmem := (Finset.mem_inter.mp howner).2
  revert hmem
  decide

omit [DecidableEq κ] in
/-- A channel with members is not created. -/
theorem pideCanal_members {lp : Miembro κ} (create : Bool)
    (h : pideCanal e q name create m = some (some chptr, m'))
    (hlp : lp ∈ (m'.red.canal chptr).members) : m.Mismo m' := by
  unfold pideCanal getChannel at h
  by_cases hnil : name = []
  · simp [hnil] at h
  · obtain ⟨r, hr⟩ : ∃ r, m.red.tabla.seek
        (if q.myUser = true ∧ CHANNELLEN < name.length then name.take CHANNELLEN else name)
        (fun _ ↦ true) = r := ⟨_, rfl⟩
    have hname : r.2.name = m.red.tabla.name := by rw [← hr, Tabla.name_seek]
    rw [if_neg hnil] at h
    dsimp only at h
    rw [hr] at h
    obtain ⟨_ | c, tabla⟩ := r
    · dsimp only at h
      cases create with
      | false => simp at h
      | true =>
          cases hsys : e.sys.pide m.red.enUso with
          | none => simp [hsys] at h
          | some c =>
              -- the block has been zeroed
              simp only [hsys, if_true, Option.map_some, Option.some.injEq, Prod.mk.injEq] at h
              obtain ⟨rfl, rfl⟩ := h
              simp [Canal.nuevo] at hlp
    · simp only [Option.map_some, if_true, Option.some.injEq, Prod.mk.injEq] at h
      exact ⟨tabla, hname, h.2.symm⟩

/-- Where the user is a member already, the channel is only looked for. -/
theorem encuentra_yaEsta (h : encuentra e q name m = some (.yaEsta chptr m')) : m.Mismo m' := by
  unfold encuentra at h
  simp only [Option.bind_eq_bind, Option.pure_def, Option.bind_eq_some_iff] at h
  obtain ⟨⟨c, m₁⟩, hpide, c', hc, h⟩ := h
  split at h
  · cases h
  · rename_i lp hlp
    split_ifs at h with hzombie
    · simp only [Option.bind_eq_some_iff] at h
      obtain ⟨red, -, ⟨c₁, m₂⟩, -, c₂, -, h⟩ := h
      cases h
    · cases h
      cases hc
      exact pideCanal_members true hpide (List.mem_of_find?_eq_some hlp)

theorem halla_bien {f : Hallazgo γ κ} (h : halla e q name m = some f) : f.Bien e q m := by
  unfold halla at h
  cases hp : previo e q name m with
  | none =>
      rw [hp] at h
      cases h
  | some p =>
      have hbien := previo_bien hp
      rw [hp] at h
      cases p with
      | fuera =>
          cases h
          trivial
      | rompe flags sendcreate chptr m' =>
          cases h
          exact hbien
      | sigue name elegido m' =>
          obtain ⟨n, hn, hf⟩ := Option.map_eq_some_iff.mp h
          subst hf
          cases n with
          | yaEsta chptr m'' => exact ⟨hbien.1, hbien.2.trans (encuentra_yaEsta hn)⟩
          | zombie chptr flags m'' =>
              exact ⟨hbien.1, fun z hz ↦ by
                rw [← Option.some.inj hz]
                exact encuentra_zombie hn⟩
          | nuevo chptr m'' => exact ⟨hbien.1, by simp⟩

end

end Ircd.Channel
