import Ircd.Channel.Members

/-!
# Requests for mode changes

The first half of `set_mode_local` of `ircd/channel.c`: the loop that reads the letters and the
parameters of a request, up to the test of the privileges of the client that makes it. The main
theorem, `sinPrivilegios_iff`, says when a request that is refused has left the channel as it was:
the loop itself takes the pending invitations back where it reads an `i` under a minus sign.
-/

namespace Ircd.Channel

open CString Hash

/-! ## The request -/

/-- `MAXMODEPARAMS`. -/
def MAXMODEPARAMS : Nat := 6

/-- `KEYLEN`. -/
def KEYLEN : Nat := 23

/-- `MODE_ADD` and `MODE_DEL`. -/
inductive Signo where
  | add
  | del
deriving DecidableEq

/-- What a change that has a parameter is about. -/
inductive Objeto (κ : Type) where
  | chanop (who : κ)
  | voice (who : κ)
  | ban (cp : CStr)
  | key (cp : CStr)
  | limit
deriving DecidableEq

/-- An entry of `chops`. -/
structure Chop (κ : Type) where
  signo : Signo
  objeto : Objeto κ
deriving DecidableEq

/-- What is sent to the client while its request is read. -/
inductive Respuesta (κ : Type) where
  | errNosuchnick (user : CStr)
  | errUsernotinchannel (who : κ)
  | errIsrealservice (nick : CStr)
  | errIschanservice (nick : CStr)
  | errIsoperlchan (nick : CStr)
  | errKeyset
  | rplBanlist (b : Ban)
  | rplEndofbanlist
  | errNeedmoreparams
  | errUnknownmode (c : Char)

/-- The two clients of a request, and what is read of them and of others. `findChasing` looks a
nick up, also among those that were in use, and `operOnLocalChannel` tells the operators when the
channel is a local one. -/
structure Entorno (κ : Type) where
  cptr : κ
  sptr : κ
  botmode : Bool
  findChasing : CStr → Option κ
  servicesBot : κ → Bool
  anOper : κ → Bool
  channelService : κ → Bool
  enServicio : κ → Bool
  operOnLocalChannel : κ → Bool
  privDeopLchan : κ → Bool

/-- `canal_flags`. -/
def canalFlags : List (Modo × Char) :=
  [(.private, 'p'), (.secret, 's'), (.moderated, 'm'), (.noprivmsgs, 'n'), (.topiclimit, 't'),
    (.inviteonly, 'i'), (.voice, 'v'), (.key, 'k'), (.limit, 'l'), (.regchan, 'r'),
    (.regnicks, 'R'), (.operonly, 'O'), (.msgnonreg, 'M'), (.noctcp, 'C'), (.nonotice, 'N'),
    (.noquitparts, 'u'), (.deljoins, 'D'), (.nocolour, 'c'), (.msgnonweb, 'W'), (.sslonly, 'z')]

/-- The variables of the loop. `curr` is empty where it is `NULL` or at the end of a text, and
`parv` begins at the parameter that it points to. -/
structure Lectura (κ : Type) where
  curr : CStr
  parv : List CStr
  parc : Int
  whatt : Signo
  newmode : Finset Modo
  chops : List (Chop κ)
  nusers : Nat
  limitset : Bool
  limitWrong : Bool
  keychange : Bool
  banlsent : Bool
  salida : List (Respuesta κ)

/-- The variables before the loop. -/
def Lectura.inicio {κ : Type} (canal : Canal κ) (parv : List CStr) : Lectura κ :=
  ⟨parv.headD [], parv, parv.length, .add, canal.mode, [], 0, false, false, false, false, []⟩

section

variable {γ κ : Type} [DecidableEq γ] [DecidableEq κ]

/-- `IsMember`. -/
def isMember (cptr : κ) (chptr : Canal κ) : Option (Miembro κ) :=
  (findUserLink chptr.members cptr).filter fun m ↦ .zombie ∉ m.flags

/-! ## The letters -/

namespace Lectura

variable (e : Entorno κ) (canal : Canal κ)

/-- `*parv`. -/
def parametro (l : Lectura κ) : CStr :=
  l.parv.headD []

/-- A reply is sent. -/
def responde (r : Respuesta κ) (l : Lectura κ) : Lectura κ :=
  { l with salida := l.salida ++ [r] }

/-- A change is put in `chops`. -/
def pon (objeto : Objeto κ) (l : Lectura κ) : Lectura κ :=
  { l with chops := l.chops ++ [⟨l.whatt, objeto⟩] }

/-- The letters `o` and `v`. -/
def miembro (c : Char) (l : Lectura κ) : Lectura κ :=
  let l := { l with parc := l.parc - 1 }
  if l.parc ≤ 0 then l
  else
    let l := { l with parv := l.parv.tail }
    if MAXMODEPARAMS ≤ l.chops.length then l
    else
      match e.findChasing l.parametro with
      | none => l.responde (.errNosuchnick l.parametro)
      | some who =>
          if isMember who canal = none then l.responde (.errUsernotinchannel who)
          else if l.whatt = .del ∧ e.channelService who ∧ c = 'o' ∧ e.sptr ≠ who then
            l.responde (if e.enServicio who then .errIsrealservice l.parametro
              else .errIschanservice l.parametro)
          else if l.whatt = .del ∧ e.operOnLocalChannel who ∧ e.privDeopLchan who ∧
              who ≠ e.sptr ∧ c = 'o' then
            l.responde (.errIsoperlchan l.parametro)
          else l.pon (if c = 'o' then .chanop who else .voice who)

/-- What is left of a key: it ends at a blank, a colon or a character that is negative. -/
def limpia (s : CStr) : CStr :=
  (s.takeWhile fun c ↦ ' ' < c ∧ c.toNat < 128 ∧ c ≠ ':').take KEYLEN

/-- The letter `k`. -/
def clave (l : Lectura κ) : Lectura κ :=
  let l := { l with parc := l.parc - 1 }
  if l.parc ≤ 0 then l
  else
    let l := { l with parv := l.parv.tail }
    if l.keychange then l
    else
      let l := { l with parv := limpia l.parametro :: l.parv.tail }
      if l.parametro = [] then l
      else if MAXMODEPARAMS ≤ l.chops.length then l
      else
        match l.whatt with
        | .add =>
            if canal.key.isSome then l.responde .errKeyset
            else if .key ∉ canal.modosProhibidos then
              { l.pon (.key (l.parametro.take KEYLEN)) with keychange := true }
            else l
        | .del =>
            match canal.key with
            | some key =>
                if strCasediff key l.parametro = 0 ∧ .key ∉ canal.modosObligatorios then
                  { l.pon (.key key) with keychange := true }
                else l
            | none => l

/-- The letter `b`. -/
def ban (l : Lectura κ) : Lectura κ :=
  let l := { l with parc := l.parc - 1 }
  if l.parc ≤ 0 then
    if l.banlsent then l
    else
      { l with
        salida := l.salida ++ canal.banlist.map Respuesta.rplBanlist ++ [.rplEndofbanlist]
        banlsent := true }
  else
    let l := { l with parv := l.parv.tail }
    if l.parametro = [] then l
    else
      let l := { l with parv := before l.parametro ' ' :: l.parv.tail }
      if MAXMODEPARAMS ≤ l.chops.length ∨ l.parametro.head? = some ':' ∨ l.parametro = [] then l
      else l.pon (.ban l.parametro)

/-- The parameter of `+l` is read. It is eaten here only, when no limit has been read yet. -/
def leeNusers (l : Lectura κ) : Lectura κ :=
  if l.nusers = 0 then
    let l := { l with parv := l.parv.tail }
    if atoi l.parametro < 1 then { l with limitWrong := true }
    else { l with nusers := (atoi l.parametro).toNat }
  else l

/-- The letter `l`. -/
def limite (l : Lectura κ) : Lectura κ :=
  if l.limitset then
    if l.whatt = .add then
      let l := { l with parc := l.parc - 1 }
      if 0 < l.parc then { l with parv := l.parv.tail } else l
    else l
  else if l.whatt = .del then
    if .limit ∉ canal.modosObligatorios then { l with limitset := true, nusers := 0 } else l
  else
    let l := { l with parc := l.parc - 1 }
    if 0 < l.parc then
      if l.parametro = [] then l
      else if MAXMODEPARAMS ≤ l.chops.length then l
      else if l.limitWrong then l.responde .errNeedmoreparams
      else
        let l := l.leeNusers
        if l.nusers = 0 then l
        else if .limit ∉ canal.modosProhibidos then { l.pon .limit with limitset := true }
        else l
    else l.responde .errNeedmoreparams

/-- The letters of `canal_flags`. -/
def simple (c : Char) (l : Lectura κ) : Lectura κ :=
  match canalFlags.find? fun ip ↦ ip.2 = c with
  | none => l.responde (.errUnknownmode c)
  | some (modo, _) =>
      match l.whatt with
      | .add =>
          let newmode :=
            if modo = .private then l.newmode.erase .secret
            else if modo = .secret then l.newmode.erase .private
            else l.newmode
          { l with newmode := insert modo newmode }
      | .del => { l with newmode := l.newmode.erase modo }

/-- The `switch` over a letter, without what it does to the invitations. -/
def letra (c : Char) (l : Lectura κ) : Lectura κ :=
  match c with
  | '+' => { l with whatt := .add }
  | '-' => { l with whatt := .del }
  | 'o' => l.miembro e canal c
  | 'v' => l.miembro e canal c
  | 'k' => l.clave canal
  | 'b' => l.ban canal
  | 'l' => l.limite canal
  | 'r' => l
  | 'O' => if e.anOper e.cptr then l.simple c else l
  | c => l.simple c

/-- The end of a turn of the loop: at the end of a text the next parameter is read. -/
def avanza (l : Lectura κ) : Lectura κ :=
  if l.curr = [] ∧ 0 < l.parc then
    let parv := l.parv.tail
    { l with curr := parv.headD [], parv := parv, parc := l.parc - 1 }
  else l

end Lectura

/-! ## The loop -/

/-- `while ((lp = chptr->invites)) del_invite (lp->value.cptr, chptr)`. -/
def quitaInvites (chptr : γ) (s : Red γ κ) : Red γ κ :=
  delInvites chptr (s.canal chptr).invites.length s

/-- A turn of the loop. -/
def turno (e : Entorno κ) (chptr : γ) (c : Char) (curr : CStr) (l : Lectura κ) (s : Red γ κ) :
    Lectura κ × Red γ κ :=
  let s := if c = 'i' ∧ l.whatt = .del then quitaInvites chptr s else s
  (({ l with curr := curr }.letra e (s.canal chptr) c).avanza, s)

/-- `while (curr && *curr)`. -/
def leeModos (e : Entorno κ) (chptr : γ) : Nat → Lectura κ → Red γ κ →
    Option (Lectura κ × Red γ κ)
  | 0, _, _ => none
  | fuel + 1, l, s =>
      match l.curr with
      | [] => some (l, s)
      | c :: curr =>
          let (l, s) := turno e chptr c curr l s
          leeModos e chptr fuel l s

/-- What is left to read at most, with one turn to end. -/
def Lectura.turnos (l : Lectura κ) : Nat :=
  l.curr.length + (l.parv.tail.map fun p ↦ p.length + 1).sum + 1

/-- How `set_mode_local` leaves its first half: it returns because the client is no member, it
returns a value because the client is no channel operator, or it goes on to the changes. -/
inductive Salida (γ κ : Type) where
  | noMiembro (s : Red γ κ)
  | sinPrivilegios (ret : Int) (s : Red γ κ)
  | cambia (l : Lectura κ) (s : Red γ κ)

/-- The first half of `set_mode_local`. -/
def setModeLocal (e : Entorno κ) (chptr : γ) (parv : List CStr) (s : Red γ κ) :
    Option (Salida γ κ) :=
  let tmp := isMember e.sptr (s.canal chptr)
  if !e.servicesBot e.cptr ∧ tmp = none then some (.noMiembro s)
  else
    let l := Lectura.inicio (s.canal chptr) parv
    match leeModos e chptr l.turnos l s with
    | none => none
    | some (l, s) =>
        if !e.botmode ∧ !e.servicesBot e.sptr ∧ (tmp.all fun m ↦ .chanop ∉ m.flags) then
          some (.sinPrivilegios
            (if l.chops ≠ [] ∨ l.newmode ≠ (s.canal chptr).mode ∨ l.limitset ∨ l.keychange then 0
              else -1) s)
        else some (.cambia l s)

/-! ## Reading ends -/

namespace Lectura

variable {e : Entorno κ} {canal : Canal κ} {l : Lectura κ}

/-- What a letter does to the texts that are left: `curr` stays, and `parv` moves by one at most. -/
def Consume (l l' : Lectura κ) : Prop :=
  l'.curr = l.curr ∧ (l'.parv.tail = l.parv.tail ∨ l'.parv.tail = l.parv.tail.tail)

omit [DecidableEq κ] in
/-- Texts that stay as they are. -/
theorem Consume.igual {l' : Lectura κ} (hcurr : l'.curr = l.curr) (hparv : l'.parv = l.parv) :
    l.Consume l' :=
  ⟨hcurr, .inl (congrArg List.tail hparv)⟩

/-- The letters `o` and `v` eat one parameter. -/
theorem consume_miembro (c : Char) : l.Consume (l.miembro e canal c) := by
  unfold miembro
  dsimp only
  split
  · exact .igual rfl rfl
  · refine ⟨?_, .inr ?_⟩ <;> repeat' split
    all_goals rfl

omit [DecidableEq κ] in
/-- The letter `k` eats one parameter. -/
theorem consume_clave : l.Consume (l.clave canal) := by
  unfold clave
  dsimp only
  split
  · exact .igual rfl rfl
  · -- All the branches of the test of the key leave the texts where they are.
    refine ⟨?_, .inr ?_⟩ <;> repeat' split
    all_goals rfl

omit [DecidableEq κ] in
/-- The letter `b` eats one parameter, if there is one. -/
theorem consume_ban : l.Consume (l.ban canal) := by
  unfold ban
  dsimp only
  split
  · split_ifs <;> exact .igual rfl rfl
  · refine ⟨?_, .inr ?_⟩ <;> split_ifs <;> rfl

omit [DecidableEq κ] in
/-- Reading a limit eats one parameter at most. -/
theorem consume_leeNusers : l.Consume l.leeNusers := by
  unfold leeNusers
  split
  · refine ⟨?_, .inr ?_⟩ <;> (dsimp only; split) <;> rfl
  · exact .igual rfl rfl

omit [DecidableEq κ] in
/-- The letter `l` eats one parameter at most. -/
theorem consume_limite : l.Consume (l.limite canal) := by
  have hlee : l.Consume { l with parc := l.parc - 1 }.leeNusers :=
    consume_leeNusers (l := { l with parc := l.parc - 1 })
  unfold limite
  dsimp only
  repeat' split
  all_goals first | exact hlee | exact .igual rfl rfl | exact ⟨rfl, .inr rfl⟩

omit [DecidableEq κ] in
/-- The other letters eat nothing. -/
theorem consume_simple (c : Char) : l.Consume (l.simple c) := by
  unfold simple
  split
  · exact .igual rfl rfl
  · split <;> exact .igual rfl rfl

/-- A letter eats one parameter at most. -/
theorem consume_letra (c : Char) : l.Consume (l.letra e canal c) := by
  unfold letra
  split
  · exact .igual rfl rfl
  · exact .igual rfl rfl
  · exact consume_miembro _
  · exact consume_miembro _
  · exact consume_clave
  · exact consume_ban
  · exact consume_limite
  · exact .igual rfl rfl
  · split
    · exact consume_simple _
    · exact .igual rfl rfl
  · exact consume_simple _

omit [DecidableEq κ] in
/-- What is left to read after a letter. -/
theorem Consume.turnos_le {l' : Lectura κ} (h : l.Consume l') : l'.turnos ≤ l.turnos := by
  obtain ⟨hcurr, hparv⟩ := h
  have hsum : (l'.parv.tail.map fun p ↦ p.length + 1).sum ≤
      (l.parv.tail.map fun p ↦ p.length + 1).sum := by
    rcases hparv with heq | heq <;> rw [heq]
    cases l.parv.tail with
    | nil => exact le_rfl
    | cons p ps => simp
  unfold turnos
  rw [hcurr]
  omega

omit [DecidableEq κ] in
/-- Taking the next text leaves no more to read. -/
theorem turnos_avanza_le : l.avanza.turnos ≤ l.turnos := by
  unfold avanza
  split
  · next h =>
      unfold turnos
      dsimp only
      cases l.parv.tail with
      | nil => simp
      | cons p ps =>
          simp only [List.headD_cons, List.tail_cons, List.map_cons, List.sum_cons]
          omega
  · exact le_rfl

end Lectura

variable {e : Entorno κ} {chptr : γ} {l : Lectura κ} {s : Red γ κ}

/-- A turn reads a letter. -/
theorem turnos_turno (e : Entorno κ) (chptr : γ) (s : Red γ κ) {c : Char} {curr : CStr}
    (hcurr : l.curr = c :: curr) : (turno e chptr c curr l s).1.turnos < l.turnos := by
  have hletra : ({ l with curr := curr }.letra e ((turno e chptr c curr l s).2.canal chptr)
      c).turnos ≤ Lectura.turnos { l with curr := curr } :=
    (Lectura.consume_letra c).turnos_le
  have hlt : Lectura.turnos { l with curr := curr } < l.turnos := by
    unfold Lectura.turnos
    rw [hcurr, List.length_cons]
    dsimp only
    omega
  exact (Lectura.turnos_avanza_le.trans hletra).trans_lt hlt

/-- The loop ends. -/
theorem isSome_leeModos {fuel : Nat} (hfuel : l.turnos ≤ fuel) :
    (leeModos e chptr fuel l s).isSome = true := by
  induction fuel generalizing l s with
  | zero =>
      unfold Lectura.turnos at hfuel
      omega
  | succ fuel ih =>
      rw [leeModos]
      cases hcurr : l.curr with
      | nil => rfl
      | cons c curr =>
          exact ih (Nat.lt_succ_iff.mp ((turnos_turno e chptr s hcurr).trans_le hfuel))

/-! ## The invitations -/

/-- The letters that the loop reads, each with the sign that it is read under. -/
def Lectura.letras (e : Entorno κ) (canal : Canal κ) : Nat → Lectura κ → List (Signo × Char)
  | 0, _ => []
  | fuel + 1, l =>
      match l.curr with
      | [] => []
      | c :: curr =>
          (l.whatt, c) :: letras e canal fuel ({ l with curr := curr }.letra e canal c).avanza

/-- The letters that are read of a request. -/
def letras (e : Entorno κ) (canal : Canal κ) (parv : List CStr) : List (Signo × Char) :=
  let l := Lectura.inicio canal parv
  l.letras e canal l.turnos

omit [DecidableEq γ] [DecidableEq κ] in
/-- What a channel is, its invitations left out. -/
theorem letra_invites [DecidableEq κ] (canal : Canal κ) (invites : List κ) (c : Char) :
    l.letra e { canal with invites := invites } c = l.letra e canal c := by
  rfl

/-- Reading a request takes no notice of the invitations. -/
theorem letras_invites (canal : Canal κ) (invites : List κ) {fuel : Nat} :
    l.letras e { canal with invites := invites } fuel = l.letras e canal fuel := by
  induction fuel generalizing l with
  | zero => rfl
  | succ fuel ih =>
      rw [Lectura.letras, Lectura.letras]
      cases l.curr with
      | nil => rfl
      | cons c curr =>
          dsimp only
          rw [letra_invites, ih]

/-- The loop over the invitations takes them all back. -/
theorem canal_quitaInvites (chptr : γ) (s : Red γ κ) :
    (quitaInvites chptr s).canal chptr = { s.canal chptr with invites := [] } :=
  canal_delInvites le_rfl

/-- A second loop over the invitations finds none. -/
theorem quitaInvites_quitaInvites (chptr : γ) (s : Red γ κ) :
    quitaInvites chptr (quitaInvites chptr s) = quitaInvites chptr s :=
  delInvites_nil (by rw [canal_quitaInvites]) _

/-- All that reading a request does to the channels. -/
theorem leeModos_red {fuel : Nat} {l' : Lectura κ} {s' : Red γ κ}
    (hlee : leeModos e chptr fuel l s = some (l', s')) :
    s' = if (.del, 'i') ∈ l.letras e (s.canal chptr) fuel then quitaInvites chptr s else s := by
  induction fuel generalizing l s with
  | zero => cases hlee
  | succ fuel ih =>
      rw [leeModos] at hlee
      rw [Lectura.letras]
      cases hcurr : l.curr with
      | nil =>
          rw [hcurr] at hlee
          cases hlee
          rfl
      | cons c curr =>
          rw [hcurr] at hlee
          have hs' := ih hlee
          dsimp only [turno] at hs' ⊢
          by_cases hi : c = 'i' ∧ l.whatt = .del
          · have hmem : (Signo.del, 'i') = (l.whatt, c) := by rw [hi.1, hi.2]
            rw [if_pos hi, canal_quitaInvites, letras_invites, letra_invites,
              quitaInvites_quitaInvites, ite_self] at hs'
            rw [if_pos (hmem ▸ List.mem_cons_self)]
            exact hs'
          · have hmem : (Signo.del, 'i') ≠ (l.whatt, c) := fun heq ↦
              hi ⟨(congrArg Prod.snd heq).symm, (congrArg Prod.fst heq).symm⟩
            rw [if_neg hi] at hs'
            simpa only [List.mem_cons, hmem, false_or] using hs'

/-! ## Requests that are refused -/

variable {tmp : Miembro κ}

/-- A request of a member who is no channel operator is refused once it has been read. -/
theorem setModeLocal_sinPrivilegios (parv : List CStr)
    (hmember : isMember e.sptr (s.canal chptr) = some tmp) (hchanop : .chanop ∉ tmp.flags)
    (hbot : e.servicesBot e.sptr = false) (hbotmode : e.botmode = false) :
    ∃ ret, setModeLocal e chptr parv s = some (.sinPrivilegios ret
      (if (.del, 'i') ∈ letras e (s.canal chptr) parv then quitaInvites chptr s else s)) := by
  have hread : ∃ p, leeModos e chptr (Lectura.inicio (s.canal chptr) parv).turnos
      (Lectura.inicio (s.canal chptr) parv) s = some p :=
    Option.isSome_iff_exists.mp (isSome_leeModos le_rfl)
  obtain ⟨⟨l, s'⟩, hlee⟩ := hread
  refine ⟨if l.chops ≠ [] ∨ l.newmode ≠ (s'.canal chptr).mode ∨ l.limitset ∨ l.keychange then 0
    else -1, ?_⟩
  rw [letras, ← leeModos_red hlee]
  simp [setModeLocal, hmember, hlee, hbotmode, hbot, hchanop]

/-- A request of a member who is no channel operator leaves the channel as it was if and only if no
invitation is pending or no `i` is read under a minus sign. -/
theorem sinPrivilegios_iff (e : Entorno κ) (chptr : γ) (parv : List CStr) (s : Red γ κ)
    (tmp : Miembro κ) (hmember : isMember e.sptr (s.canal chptr) = some tmp)
    (hchanop : .chanop ∉ tmp.flags) (hbot : e.servicesBot e.sptr = false)
    (hbotmode : e.botmode = false) :
    ∃ ret s', setModeLocal e chptr parv s = some (.sinPrivilegios ret s') ∧
      (s'.canal chptr = s.canal chptr ↔
        (s.canal chptr).invites = [] ∨ (.del, 'i') ∉ letras e (s.canal chptr) parv) := by
  obtain ⟨ret, heq⟩ := setModeLocal_sinPrivilegios parv hmember hchanop hbot hbotmode
  refine ⟨ret, _, heq, ?_⟩
  by_cases hi : (.del, 'i') ∈ letras e (s.canal chptr) parv
  · rw [if_pos hi, canal_quitaInvites]
    constructor
    · intro hsame
      exact .inl (congrArg Canal.invites hsame).symm
    · intro h
      have hnil := h.resolve_right fun hnot ↦ hnot hi
      rw [← hnil]
  · rw [if_neg hi]
    exact iff_of_true rfl (.inr hi)

end

/-! ## A guest of a channel -/

/-- A channel without members. -/
def sinMiembros : Red Unit Bool where
  canal _ := Canal.nuevo
  lista := ⟨fun _ ↦ none, fun _ ↦ none, some ()⟩
  tabla := (Tabla.conNombre ⟨fun _ ↦ none, fun _ ↦ none, fun _ ↦ []⟩ () "#irc".toList).add ()
  enUso := {()}
  nrofChannels := 1
  user _ := true
  channel _ := []
  joined _ := 0
  invited _ := []

/-- The channel with a member who has no privileges and with a guest. -/
def conInvitado : Red Unit Bool :=
  addInvite 10 false () (addUserToChannel () true ∅ sinMiembros)

/-- A request of the member. -/
def delMiembro : Entorno Bool where
  cptr := true
  sptr := true
  botmode := false
  findChasing _ := none
  servicesBot _ := false
  anOper _ := false
  channelService _ := false
  enServicio _ := false
  operOnLocalChannel _ := false
  privDeopLchan _ := false

/-- The request `+i-n` leaves the guest where it is. -/
theorem sinPrivilegios_iff_invitado :
    (.del, 'i') ∉ letras delMiembro (conInvitado.canal ()) ["+i-n".toList] ∧
      ∃ ret s', setModeLocal delMiembro () ["+i-n".toList] conInvitado =
          some (.sinPrivilegios ret s') ∧
        (s'.canal () = conInvitado.canal () ↔ (conInvitado.canal ()).invites = [] ∨
          (.del, 'i') ∉ letras delMiembro (conInvitado.canal ()) ["+i-n".toList]) :=
  ⟨by decide, sinPrivilegios_iff delMiembro () ["+i-n".toList] conInvitado ⟨true, ∅⟩ (by decide)
    (by decide) rfl rfl⟩

/-- The request `-i` is refused, and the guest is no longer invited. -/
theorem not_sinPrivilegios :
    ¬∀ (e : Entorno Bool) (parv : List CStr) (s : Red Unit Bool) (tmp : Miembro Bool),
      isMember e.sptr (s.canal ()) = some tmp → .chanop ∉ tmp.flags →
        e.servicesBot e.sptr = false → e.botmode = false → ∀ ret s',
          setModeLocal e () parv s = some (.sinPrivilegios ret s') →
            s'.canal () = s.canal () := by
  intro h
  have hsame := h delMiembro ["-i".toList] conInvitado ⟨true, ∅⟩ (by decide) (by decide) rfl rfl
    (-1) (quitaInvites () conInvitado) rfl
  exact absurd (congrArg Canal.invites hsame) (by decide)

end Ircd.Channel
