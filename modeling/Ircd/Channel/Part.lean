import Ircd.Channel.Bans
import Ircd.Channel.Members

/-!
# Parting from a list of channels

`m_part` of `ircd/channel.c`, with `can_send`. The comment outlives a turn of the loop, and the
message to the other servers is built behind it, so a channel that allows no comment also takes it
from those behind it, and for the servers from all. `mPart_iff` says when a list does the same as its
channels one by one.
-/

namespace Ircd.Channel

open CString Hash

/-! ## The user -/

/-- What `m_part` reads of a user. -/
structure Saliente (κ : Type) where
  sptr : κ
  myUser : Bool
  channelService : Bool
  servicesBot : Bool
  nickRegistered : Bool
  webIRC : Bool
  cliente : Cliente

/-- `strtoken` with a comma, until it gives `NULL`. -/
def fichas (s : CStr) : List CStr :=
  (s.splitOn ',').filter (· ≠ [])

/-- `get_channel` cuts off the name that a local user gives. -/
def recortaNombre (mio : Bool) (chname : CStr) : CStr :=
  if mio ∧ CHANNELLEN < chname.length then chname.take CHANNELLEN else chname

/-- `IsModelessChannel`. -/
def isModelessChannel (name : CStr) : Bool :=
  name.head? = some '+' ∧ name.tail.head? ≠ some '@'

/-- What the calls of one command share: the memory, what is behind the texts that bans are compared
with, and `mensaje_part_personalizado`. -/
structure Ajustes (γ : Type) where
  sys : Watch.Malloc γ
  resto : Nat → CStr → List Char
  mensajePartPersonalizado : Option CStr

/-! ## The comment -/

section

variable {γ κ : Type}

/-- A `PART` that is sent, to the members of the channel or to the user alone. -/
structure AnuncioPart (γ : Type) where
  chptr : γ
  todos : Bool
  comment : Option CStr

/-- A channel that is left: its name, whether it allows a comment, and the announcement to the
members or to the user alone, if there is one. -/
structure Partida (γ : Type) where
  chptr : γ
  name : CStr
  deja : Bool
  anuncia : Option Bool

/-- The announcement with a comment. -/
def Partida.anuncio (p : Partida γ) (comment : Option CStr) : List (AnuncioPart γ) :=
  (p.anuncia.map fun todos ↦ ⟨p.chptr, todos, comment⟩).toList

/-- The channel is known to other servers. -/
def Partida.esGlobal (p : Partida γ) : Bool :=
  p.name.head? ≠ some '&'

/-- What is told to the other servers. -/
def Partida.servidor (p : Partida γ) (comment : Option CStr) : List (CStr × Option CStr) :=
  if p.esGlobal then [(p.name, comment)] else []

/-- The comment of a command. -/
def comentario (resto : List CStr) : Option CStr :=
  resto.getLast?.filter (· ≠ [])

/-- The user has a message of the server instead of the comment. -/
def Personal (e : Ajustes γ) (q : Saliente κ) : Prop :=
  q.myUser = true ∧ e.mensajePartPersonalizado.isSome = true

instance (e : Ajustes γ) (q : Saliente κ) : Decidable (Personal e q) :=
  inferInstanceAs (Decidable (_ ∧ _))

/-- The comment behind a channel that is left. -/
def trasComment (e : Ajustes γ) (q : Saliente κ) (comment : Option CStr) (p : Partida γ) :
    Option CStr :=
  if Personal e q then e.mensajePartPersonalizado else if p.deja then comment else none

/-- The announcements of the loop. -/
def anunciosPart (e : Ajustes γ) (q : Saliente κ) :
    Option CStr → List (Partida γ) → List (AnuncioPart γ)
  | _, [] => []
  | comment, p :: ps =>
      p.anuncio (trasComment e q comment p) ++ anunciosPart e q (trasComment e q comment p) ps

variable {e : Ajustes γ} {q : Saliente κ}

/-- No channel is told of a comment that it does not allow, or not told of one that it allows, for
what the channels before it allow, or for the servers those behind it. -/
def Parejas (ps : List (Partida γ)) : Prop :=
  (∀ before p after, ps = before ++ p :: after → p.anuncia.isSome = true → p.deja = true →
    ∀ p' ∈ before, p'.deja = true) ∧
  ∀ p ∈ ps, p.esGlobal = true → p.deja = true → ∀ p' ∈ ps, p'.deja = true

/-- The comment that is left of `t` while all channels have allowed it. -/
def siTodos (b : Bool) (t : CStr) : Option CStr :=
  if b then some t else none

theorem siTodos_inj {b b' : Bool} {t : CStr} : siTodos b t = siTodos b' t ↔ b = b' := by
  cases b <;> cases b' <;> simp [siTodos]

theorem trasComment_siTodos (hper : ¬Personal e q) (b : Bool) (t : CStr) (p : Partida γ) :
    trasComment e q (siTodos b t) p = siTodos (b && p.deja) t := by
  cases b <;> cases hdeja : p.deja <;> simp [trasComment, hper, siTodos, hdeja]

theorem foldl_siTodos (hper : ¬Personal e q) (b : Bool) (t : CStr) (ps : List (Partida γ)) :
    ps.foldl (trasComment e q) (siTodos b t) = siTodos (b && ps.all Partida.deja) t := by
  induction ps generalizing b with
  | nil => simp
  | cons p ps ih => rw [List.foldl_cons, trasComment_siTodos hper, ih, List.all_cons, Bool.and_assoc]

/-- The announcement tells the comment, if there is an announcement. -/
theorem anuncio_inj {p : Partida γ} {c c' : Option CStr} :
    p.anuncio c = p.anuncio c' ↔ (p.anuncia.isSome = true → c = c') := by
  unfold Partida.anuncio
  cases p.anuncia <;> simp

theorem length_anuncio (p : Partida γ) (c c' : Option CStr) :
    (p.anuncio c).length = (p.anuncio c').length := by
  unfold Partida.anuncio
  cases p.anuncia <;> rfl

theorem servidor_inj {p : Partida γ} {c c' : Option CStr} :
    p.servidor c = p.servidor c' ↔ (p.esGlobal = true → c = c') := by
  unfold Partida.servidor
  cases p.esGlobal <;> simp

theorem length_servidor (p : Partida γ) (c c' : Option CStr) :
    (p.servidor c).length = (p.servidor c').length := by
  unfold Partida.servidor
  cases p.esGlobal <;> rfl

/-- The announcements are those of the channels one by one, when those before allow what each one
allows. -/
theorem anunciosPart_iff (hper : ¬Personal e q) (b : Bool) (t : CStr) (ps : List (Partida γ)) :
    anunciosPart e q (siTodos b t) ps =
        (ps.flatMap fun p ↦ p.anuncio (trasComment e q (siTodos true t) p)) ↔
      ∀ before p after, ps = before ++ p :: after → p.anuncia.isSome = true → p.deja = true →
        b = true ∧ ∀ p' ∈ before, p'.deja = true := by
  induction ps generalizing b with
  | nil => simp [anunciosPart]
  | cons p ps ih =>
      have hlen := length_anuncio p (trasComment e q (siTodos b t) p)
        (trasComment e q (siTodos true t) p)
      have happend : ∀ {as bs : List (AnuncioPart γ)},
          p.anuncio (trasComment e q (siTodos b t) p) ++ as =
              p.anuncio (trasComment e q (siTodos true t) p) ++ bs ↔
            p.anuncio (trasComment e q (siTodos b t) p) =
              p.anuncio (trasComment e q (siTodos true t) p) ∧ as = bs :=
        ⟨fun h ↦ List.append_inj h hlen, fun h ↦ congrArg₂ _ h.1 h.2⟩
      rw [anunciosPart, List.flatMap_cons, happend, anuncio_inj, trasComment_siTodos hper b t p,
        trasComment_siTodos hper true t p, siTodos_inj, ih]
      constructor
      · rintro ⟨hp, hps⟩ before p' after heq hanuncia hdeja
        cases before with
        | nil =>
            rw [List.nil_append, List.cons.injEq] at heq
            obtain ⟨rfl, -⟩ := heq
            have hb := hp hanuncia
            rw [hdeja, Bool.and_true, Bool.and_true] at hb
            exact ⟨hb, by simp⟩
        | cons x before =>
            rw [List.cons_append, List.cons.injEq] at heq
            obtain ⟨rfl, heq⟩ := heq
            obtain ⟨hb, hbefore⟩ := hps before p' after heq hanuncia hdeja
            rw [Bool.and_eq_true] at hb
            exact ⟨hb.1, List.forall_mem_cons.mpr ⟨hb.2, hbefore⟩⟩
      · intro h
        constructor
        · intro hanuncia
          cases hdeja : p.deja with
          | false => simp
          | true => rw [(h [] p ps rfl hanuncia hdeja).1]
        · intro before p' after heq hanuncia hdeja
          obtain ⟨hb, hbefore⟩ := h (p :: before) p' after (by rw [heq]; rfl) hanuncia hdeja
          rw [List.forall_mem_cons] at hbefore
          rw [hb, hbefore.1]
          exact ⟨rfl, hbefore.2⟩

/-- The servers are told what they are told of the channels one by one, when a channel that allows
the comment is left with channels that allow it. -/
theorem servidores_iff (hper : ¬Personal e q) (b : Bool) (t : CStr) (ps : List (Partida γ)) :
    (ps.flatMap fun p ↦ p.servidor (siTodos b t)) =
        (ps.flatMap fun p ↦ p.servidor (trasComment e q (siTodos true t) p)) ↔
      ∀ p ∈ ps, p.esGlobal = true → b = p.deja := by
  induction ps with
  | nil => simp
  | cons p ps ih =>
      have hlen := length_servidor p (siTodos b t) (trasComment e q (siTodos true t) p)
      rw [List.flatMap_cons, List.flatMap_cons, List.forall_mem_cons, ← ih]
      have hp : p.servidor (siTodos b t) = p.servidor (trasComment e q (siTodos true t) p) ↔
          (p.esGlobal = true → b = p.deja) := by
        rw [servidor_inj, trasComment_siTodos hper, siTodos_inj, Bool.true_and]
      rw [← hp]
      exact ⟨fun h ↦ List.append_inj h hlen, fun h ↦ congrArg₂ _ h.1 h.2⟩

/-- Where the comment no longer changes, all are told of it. -/
theorem anunciosPart_const {comment k : Option CStr} (h : ∀ p, trasComment e q comment p = k)
    (hk : ∀ p, trasComment e q k p = k) (ps : List (Partida γ)) :
    anunciosPart e q comment ps = ps.flatMap fun p ↦ p.anuncio k := by
  induction ps generalizing comment with
  | nil => rfl
  | cons p ps ih => rw [anunciosPart, List.flatMap_cons, h p, ih hk]

theorem foldl_const {k : Option CStr} (hk : ∀ p, trasComment e q k p = k) (ps : List (Partida γ)) :
    ps.foldl (trasComment e q) k = k := by
  induction ps with
  | nil => rfl
  | cons p ps ih => rw [List.foldl_cons, hk p, ih]

/-- A comment that each channel changes to the same is told as by the channels one by one. -/
theorem comentarios_const {comment k : Option CStr} (h : ∀ p, trasComment e q comment p = k)
    (hk : ∀ p, trasComment e q k p = k) (ps : List (Partida γ)) :
    anunciosPart e q comment ps = (ps.flatMap fun p ↦ p.anuncio (trasComment e q comment p)) ∧
      (ps.flatMap fun p ↦ p.servidor (ps.foldl (trasComment e q) comment)) =
        ps.flatMap fun p ↦ p.servidor (trasComment e q comment p) := by
  constructor
  · rw [anunciosPart_const h hk]
    simp only [h]
  · cases ps with
    | nil => rfl
    | cons p ps =>
        rw [List.foldl_cons, h p, foldl_const hk]
        simp only [h]

/-- The comments are those of the channels one by one. -/
theorem comentarios_iff (comment : Option CStr) (ps : List (Partida γ)) :
    (anunciosPart e q comment ps = (ps.flatMap fun p ↦ p.anuncio (trasComment e q comment p)) ∧
        (ps.flatMap fun p ↦ p.servidor (ps.foldl (trasComment e q) comment)) =
          ps.flatMap fun p ↦ p.servidor (trasComment e q comment p)) ↔
      Personal e q ∨ comment = none ∨ Parejas ps := by
  by_cases hper : Personal e q
  · have htras : ∀ c (p : Partida γ), trasComment e q c p = e.mensajePartPersonalizado :=
      fun c p ↦ if_pos hper
    exact iff_of_true (comentarios_const (htras comment) (htras _) ps) (Or.inl hper)
  · cases comment with
    | none =>
        have htras : ∀ p : Partida γ, trasComment e q none p = none := by
          intro p
          simp [trasComment, hper]
        exact iff_of_true (comentarios_const htras htras ps) (Or.inr (Or.inl rfl))
    | some t =>
        have hsome : some t = siTodos true t := rfl
        rw [hsome, anunciosPart_iff hper, foldl_siTodos hper, servidores_iff hper]
        simp only [hper, false_or, Bool.true_and, true_and, siTodos, if_true, reduceCtorEq, Parejas]
        refine and_congr_right fun _ ↦ forall₃_congr fun p hp hglobal ↦ ?_
        -- the channels all allow the comment exactly when this one does
        rw [← List.all_eq_true]
        cases hdeja : p.deja with
        | true => simp
        | false =>
            have hnot : ps.all Partida.deja = false := List.all_eq_false.mpr ⟨p, hp, by simp [hdeja]⟩
            simp [hnot]

end

/-! ## `m_part` -/

section

variable {γ κ : Type} [DecidableEq κ]

/-- `can_send` gives 0. The ban that it keeps in the link of a member is left out, as the link is
taken out behind the call. -/
def canSend (e : Ajustes γ) (q : Saliente κ) (chname : CStr) (canal : Canal κ) : Bool :=
  if q.channelService ∨ q.servicesBot then true
  else
    let lp := (findUserLink canal.members q.sptr).filter fun m ↦ .zombie ∉ m.flags
    let flag := lp.all fun m ↦ .chanop ∉ m.flags ∧ .voice ∉ m.flags
    let banned : Bool :=
      match lp with
      | none => isBannedSinCache e.resto q.cliente canal.banlist
      | some m => (isBanned e.resto q.cliente canal.banlist m).1
    if flag ∧ q.myUser ∧ (banned ∨ Modo.msgnonreg ∈ canal.mode ∧ !q.nickRegistered ∨
        Modo.msgnonweb ∈ canal.mode ∧ !q.nickRegistered ∧ !q.webIRC) then false
    else if Modo.moderated ∈ canal.mode ∧ flag then false
    else if lp.isNone ∧ (Modo.noprivmsgs ∈ canal.mode ∨ isModelessChannel chname) then false
    else true

/-- What the loop of `m_part` changes. `pbuf` is kept as its names. -/
structure Saliendo (γ κ : Type) where
  red : Red γ κ
  comment : Option CStr
  pbuf : List CStr
  anuncios : List (AnuncioPart γ)

/-- What `m_part` leaves: the channels, the messages to members, and that to the other servers. -/
structure Salido (γ κ : Type) where
  red : Red γ κ
  anuncios : List (AnuncioPart γ)
  servidores : List (CStr × Option CStr)

variable [DecidableEq γ] [Fintype γ]

/-- A turn of the loop of `m_part`. -/
def vueltaPart (e : Ajustes γ) (q : Saliente κ) (x : Saliendo γ κ) (name : CStr) :
    Option (Saliendo γ κ) :=
  let name := recortaNombre q.myUser name
  match getChannel e.sys q.myUser name false x.red with
  | none => none
  | some (none, red) => some { x with red := red }
  | some (some chptr, red) =>
      if name.head? = some '&' ∧ !q.myUser then some { x with red := red }
      else
        match findUserLink (red.canal chptr).members q.sptr with
        | none => some { x with red := red }
        | some lp =>
            let pbuf := if name.head? = some '&' then x.pbuf else x.pbuf ++ [name]
            let comment :=
              if q.myUser ∧ e.mensajePartPersonalizado.isSome then e.mensajePartPersonalizado
              else if !canSend e q (red.tabla.name chptr) (red.canal chptr) ∨
                  .noquitparts ∈ (red.canal chptr).mode then none
              else x.comment
            let anuncios :=
              if .zombie ∉ lp.flags then x.anuncios ++ [⟨chptr, true, comment⟩]
              else if q.myUser then x.anuncios ++ [⟨chptr, false, comment⟩]
              else x.anuncios
            (removeUserFromChannel q.sptr chptr red).map fun red ↦ ⟨red, comment, pbuf, anuncios⟩

/-- `m_part` of a user, with `parv[1]` and the parameters behind it. -/
def mPart (e : Ajustes γ) (q : Saliente κ) (channels : CStr) (resto : List CStr) (red : Red γ κ) :
    Option (Salido γ κ) :=
  let comment := resto.getLast?.filter (· ≠ [])
  ((fichas channels).foldlM (vueltaPart e q) ⟨red, comment, [], []⟩).map fun x ↦
    ⟨x.red, x.anuncios, x.pbuf.map fun name ↦ (name, x.comment)⟩

/-- The channels one by one, each with the same parameters. -/
def mParts (e : Ajustes γ) (q : Saliente κ) (resto : List CStr) :
    List CStr → Red γ κ → Option (Salido γ κ)
  | [], red => some ⟨red, [], []⟩
  | name :: names, red =>
      match mPart e q name resto red with
      | none => none
      | some r => (mParts e q resto names r.red).map fun r' ↦
          ⟨r'.red, r.anuncios ++ r'.anuncios, r.servidores ++ r'.servidores⟩

/-! ## The channels that are left -/

/-- What a turn of the loop does to the channels. -/
def parte (e : Ajustes γ) (q : Saliente κ) (name : CStr) (red : Red γ κ) :
    Option (Option (Partida γ) × Red γ κ) :=
  let name := recortaNombre q.myUser name
  match getChannel e.sys q.myUser name false red with
  | none => none
  | some (none, red) => some (none, red)
  | some (some chptr, red) =>
      if name.head? = some '&' ∧ !q.myUser then some (none, red)
      else
        match findUserLink (red.canal chptr).members q.sptr with
        | none => some (none, red)
        | some lp =>
            (removeUserFromChannel q.sptr chptr red).map fun red' ↦
              (some ⟨chptr, name, canSend e q (red.tabla.name chptr) (red.canal chptr) ∧
                .noquitparts ∉ (red.canal chptr).mode,
                if .zombie ∉ lp.flags then some true else if q.myUser then some false else none⟩,
                red')

/-- The channels that are left, in order, and what they leave. -/
def partidas (e : Ajustes γ) (q : Saliente κ) :
    List CStr → Red γ κ → Option (List (Partida γ) × Red γ κ)
  | [], red => some ([], red)
  | name :: names, red =>
      match parte e q name red with
      | none => none
      | some (p, red) => (partidas e q names red).map fun r ↦ (p.toList ++ r.1, r.2)

variable {e : Ajustes γ} {q : Saliente κ}

/-- A turn leaves a channel, or none. -/
theorem vueltaPart_eq (x : Saliendo γ κ) (name : CStr) :
    vueltaPart e q x name = (parte e q name x.red).map fun r ↦
      { red := r.2
        comment := r.1.elim x.comment (trasComment e q x.comment)
        pbuf := x.pbuf ++ (r.1.toList.filter Partida.esGlobal).map Partida.name
        anuncios := x.anuncios ++ r.1.elim [] fun p ↦ p.anuncio (trasComment e q x.comment p) } := by
  unfold vueltaPart parte
  dsimp only
  cases getChannel e.sys q.myUser (recortaNombre q.myUser name) false x.red with
  | none => rfl
  | some r =>
      obtain ⟨_ | chptr, red⟩ := r
      · simp
      · dsimp only
        by_cases hlocal : (recortaNombre q.myUser name).head? = some '&' ∧ (!q.myUser) = true
        · rw [if_pos hlocal, if_pos hlocal]
          simp
        · rw [if_neg hlocal, if_neg hlocal]
          cases findUserLink (red.canal chptr).members q.sptr with
          | none => simp
          | some lp =>
              dsimp only
              rw [Option.map_map]
              congr 1
              funext red'
              have hcomment : (if q.myUser = true ∧ e.mensajePartPersonalizado.isSome = true then
                  e.mensajePartPersonalizado
                else if (!canSend e q (red.tabla.name chptr) (red.canal chptr)) = true ∨
                    .noquitparts ∈ (red.canal chptr).mode then none else x.comment) =
                  trasComment e q x.comment ⟨chptr, recortaNombre q.myUser name,
                    canSend e q (red.tabla.name chptr) (red.canal chptr) ∧
                      .noquitparts ∉ (red.canal chptr).mode,
                    if .zombie ∉ lp.flags then some true
                    else if q.myUser = true then some false else none⟩ := by
                unfold trasComment Personal
                dsimp only
                by_cases hquit : .noquitparts ∈ (red.canal chptr).mode
                · simp [hquit]
                · cases canSend e q (red.tabla.name chptr) (red.canal chptr) <;> simp [hquit]
              rw [hcomment]
              simp only [Function.comp_apply, Option.elim_some, Option.toList_some,
                Saliendo.mk.injEq, true_and]
              constructor
              · by_cases hamp : (recortaNombre q.myUser name).head? = some '&'
                · simp [hamp, Partida.esGlobal]
                · simp [hamp, Partida.esGlobal]
              · by_cases hzombie : .zombie ∈ lp.flags
                · cases hmio : q.myUser <;> simp [hzombie, Partida.anuncio]
                · simp [hzombie, Partida.anuncio]

/-- The loop leaves the channels one by one. -/
theorem foldlM_vueltaPart (names : List CStr) (x : Saliendo γ κ) :
    names.foldlM (vueltaPart e q) x = (partidas e q names x.red).map fun r ↦
      { red := r.2
        comment := r.1.foldl (trasComment e q) x.comment
        pbuf := x.pbuf ++ (r.1.filter Partida.esGlobal).map Partida.name
        anuncios := x.anuncios ++ anunciosPart e q x.comment r.1 } := by
  induction names generalizing x with
  | nil => simp [partidas, anunciosPart]
  | cons name names ih =>
      rw [List.foldlM_cons, vueltaPart_eq, partidas]
      cases parte e q name x.red with
      | none => rfl
      | some r =>
          obtain ⟨p, red⟩ := r
          rw [Option.map_some, Option.bind_eq_bind, Option.bind_some, ih]
          dsimp only
          rw [Option.map_map]
          congr 1
          funext r
          cases p with
          | none => simp
          | some p => cases hglobal : p.esGlobal <;> simp [anunciosPart, hglobal]

/-! ## Names -/

/-- A name can be an element of a list. -/
def Nombre (name : CStr) : Prop :=
  name ≠ [] ∧ ',' ∉ name

/-- The text of a list of names. -/
def lista (names : List CStr) : CStr :=
  [','].intercalate names

theorem fichas_lista {names : List CStr} (h : ∀ n ∈ names, Nombre n) :
    fichas (lista names) = names := by
  cases names with
  | nil => rfl
  | cons n names =>
      have hcomma : ∀ l ∈ n :: names, ',' ∉ l := fun l hl ↦ (h l hl).2
      rw [fichas, lista, List.splitOn_intercalate _ hcomma (List.cons_ne_nil n names),
        List.filter_eq_self]
      exact fun l hl ↦ decide_eq_true (h l hl).1

/-! ## A list and its channels -/

/-- What a list does. -/
theorem mPart_lista (resto : List CStr) (red : Red γ κ) {names : List CStr}
    (h : ∀ n ∈ names, Nombre n) :
    mPart e q (lista names) resto red = (partidas e q names red).map fun r ↦
      { red := r.2
        anuncios := anunciosPart e q (comentario resto) r.1
        servidores := r.1.flatMap fun p ↦
          p.servidor (r.1.foldl (trasComment e q) (comentario resto)) } := by
  rw [mPart, fichas_lista h, foldlM_vueltaPart, Option.map_map]
  congr 1
  funext r
  simp only [Function.comp_apply, List.nil_append, Salido.mk.injEq, true_and, comentario,
    List.map_map]
  generalize r.1.foldl _ _ = comment
  induction r.1 with
  | nil => rfl
  | cons p ps ih =>
      rw [List.flatMap_cons, ← ih]
      cases hglobal : p.esGlobal <;> simp [Partida.servidor, hglobal]

/-- What the channels do one by one. -/
theorem mParts_eq (resto : List CStr) {names : List CStr} (h : ∀ n ∈ names, Nombre n)
    (red : Red γ κ) :
    mParts e q resto names red = (partidas e q names red).map fun r ↦
      { red := r.2
        anuncios := r.1.flatMap fun p ↦ p.anuncio (trasComment e q (comentario resto) p)
        servidores := r.1.flatMap fun p ↦
          p.servidor (trasComment e q (comentario resto) p) } := by
  induction names generalizing red with
  | nil => rfl
  | cons name names ih =>
      have hname : ∀ n ∈ [name], Nombre n := by simpa using h name List.mem_cons_self
      have hone := @mPart_lista _ _ _ _ _ e q resto red _ hname
      rw [lista, List.intercalate_singleton] at hone
      rw [mParts, hone, partidas, partidas]
      cases parte e q name red with
      | none => rfl
      | some r =>
          obtain ⟨p, red'⟩ := r
          have hrest := ih (fun n hn ↦ h n (List.mem_cons_of_mem _ hn)) red'
          simp only [partidas, Option.map_some, hrest, Option.map_map]
          congr 1
          funext r
          cases p <;> simp [anunciosPart]

/-- A list of channels is left as its channels are one by one if and only if there is no comment, or
a message of the server in its place; or no channel that allows the comment comes behind one that
does not and is announced, and all channels allow it as soon as one allows it that other servers
know. -/
theorem mPart_iff (resto : List CStr) (red : Red γ κ) {names : List CStr}
    (h : ∀ n ∈ names, Nombre n) :
    mPart e q (lista names) resto red = mParts e q resto names red ↔
      ∀ r, partidas e q names red = some r →
        Personal e q ∨ comentario resto = none ∨ Parejas r.1 := by
  rw [mPart_lista resto red h, mParts_eq resto h]
  cases partidas e q names red with
  | none => simp
  | some r =>
      obtain ⟨ps, red'⟩ := r
      simp only [Option.map_some, Option.some.injEq, Salido.mk.injEq, true_and, forall_eq']
      exact comentarios_iff (comentario resto) ps

end

end Ircd.Channel
