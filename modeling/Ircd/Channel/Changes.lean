import Ircd.Channel.Bans
import Ircd.Channel.Antichain
import Ircd.Channel.Modes

/-!
# Changes of modes

The second half of `set_mode_local` of `ircd/channel.c`: the changes that a request makes once it has
been read and the privileges of the client have been tested, and the texts `mbuf`, `pbuf` and
`npbuf` of them. A change that the client may not make is not applied but sent back to it, in
`bmodebuf` and `bparambuf`. The calls behind the changes that only send the texts are left out, and
so is `*badop`, which is 0 throughout. `mode_cambiaModos` gives the simple modes that are left.
-/

namespace Ircd.Channel

open CString Hash

/-! ## The texts -/

/-- `MODEBUFLEN`. -/
def MODEBUFLEN : Nat := 200

/-- `NUMNICKLEN`. -/
def NUMNICKLEN : Nat := 5

/-- The letters and the parameters of changes, and the sign that has been written last. -/
structure Escrito where
  mbuf : CStr
  pbuf : CStr
  whatt : Option Signo
deriving DecidableEq

/-- The character of a sign. -/
def Signo.letra : Signo → Char
  | .add => '+'
  | .del => '-'

/-- The sign of the change back. -/
def Signo.vuelta : Signo → Signo
  | .add => .del
  | .del => .add

/-- A mode is put on or taken off. -/
def Signo.pone : Signo → Modo → Finset Modo → Finset Modo
  | .add, modo, mode => insert modo mode
  | .del, modo, mode => mode.erase modo

/-- `if (whatt != signo) { *mbuf++ = …; whatt = signo; }`. -/
def Escrito.conSigno (signo : Signo) (t : Escrito) : Escrito :=
  if t.whatt = some signo then t
  else { t with mbuf := t.mbuf ++ [signo.letra], whatt := some signo }

/-- `*mbuf++ = c`. -/
def Escrito.conLetra (c : Char) (t : Escrito) : Escrito :=
  { t with mbuf := t.mbuf ++ [c] }

/-- `strcat (pbuf, cp); strcat (pbuf, " ")`. -/
def Escrito.conParametro (cp : CStr) (t : Escrito) : Escrito :=
  { t with pbuf := t.pbuf ++ cp ++ [' '] }

/-- `mbuf--`, where it has just written a sign, which is the one `prevWhatt` no longer. -/
def Escrito.sinSigno (prevWhatt : Option Signo) (t : Escrito) : Escrito :=
  if t.mbuf.getLast? = some '+' ∨ t.mbuf.getLast? = some '-' then
    { t with mbuf := t.mbuf.dropLast, whatt := prevWhatt }
  else t

/-- The two clients of a request, and what the changes read of them and of others. -/
structure Autoridad (κ : Type) extends Entorno κ where
  now : Int
  autor : Autor
  name : κ → CStr
  numNick : κ → CStr
  privModeLchan : κ → Bool

/-- The variables of the changes: the channel, what has been written of the changes that are made
and of those that are sent back, and the bans that other bans have taken the place of. -/
structure Cambios (κ : Type) where
  canal : Canal κ
  hecho : Escrito
  npbuf : CStr
  rebote : Escrito
  prevWhatt : Option Signo
  addBanidCalled : Bool
  removed : List Ban

section

variable {κ : Type} [DecidableEq κ]

/-! ## The changes -/

/-- `is_deopped`, of a user. -/
def isDeopped (cptr : κ) (chptr : Canal κ) : Bool :=
  match findUserLink chptr.members cptr with
  | some lp => .deopped ∈ lp.flags
  | none => true

/-- `bounce`. -/
def Autoridad.bounce (a : Autoridad κ) (canal : Canal κ) : Bool :=
  if a.servicesBot a.sptr ∨ a.botmode then false
  else isDeopped a.sptr canal && a.privModeLchan a.sptr && !a.operOnLocalChannel a.sptr

/-- `MODE_WPARAS`. -/
def MODE_WPARAS : Finset Modo := {.voice, .key, .limit}

omit [DecidableEq κ] in
/-- `newmode` as it is left for the changes. -/
def nuevoModo (canal : Canal κ) (newmode : Finset Modo) : Finset Modo :=
  let activacionModos := newmode \ canal.mode
  let newmode := newmode \ (activacionModos ∩ {.regchan, .deljoins})
  -- +r stays as it is
  let newmode :=
    if .regchan ∈ canal.mode then insert .regchan newmode else newmode.erase .regchan
  ((newmode \ canal.modosProhibidos) ∪ canal.modosObligatorios) \ MODE_WPARAS

/-- The loops over `canal_flags` that put modes on and take them off. -/
def simples (bounce : Bool) (signo : Signo) (cambian : Finset Modo) :
    List (Modo × Char) → Cambios κ → Cambios κ
  | [], s => s
  | (modo, c) :: ip, s =>
      let s :=
        if modo ∉ cambian then s
        else if bounce then
          { s with rebote := (s.rebote.conSigno signo.vuelta).conLetra c }
        else
          { s with
            canal.mode := signo.pone modo s.canal.mode
            hecho := (s.hecho.conSigno signo).conLetra c }
      simples bounce signo cambian ip s

/-- The limit is taken off. -/
def sinLimite (bounce : Bool) (l : Lectura κ) (s : Cambios κ) : Cambios κ :=
  if l.limitset ∧ l.nusers = 0 ∧ s.canal.limit ≠ 0 then
    if bounce then
      { s with
        rebote := ((s.rebote.conSigno .add).conLetra 'l').conParametro (decimal s.canal.limit) }
    else
      { s with
        canal.mode := s.canal.mode.erase .limit
        canal.limit := 0
        hecho := (s.hecho.conSigno .del).conLetra 'l' }
  else s

/-- The letter and the parameter of an entry of `chops`. -/
def Objeto.texto (a : Autoridad κ) (nusers : Nat) : Objeto κ → Char × CStr
  | .chanop who => ('o', a.name who)
  | .voice who => ('v', a.name who)
  | .ban cp => ('b', prettyMask cp)
  | .key cp => ('k', cp)
  | .limit => ('l', decimal nusers)

/-- A change that is made is written. -/
def Cambios.hace (c : Char) (cp ncp : CStr) (s : Cambios κ) : Cambios κ :=
  { s with
    hecho := (s.hecho.conLetra c).conParametro cp
    npbuf := s.npbuf ++ ncp ++ [' '] }

/-- A change that is not made leaves no sign. -/
def Cambios.calla (s : Cambios κ) : Cambios κ :=
  { s with hecho := s.hecho.sinSigno s.prevWhatt }

/-- The change back is written. -/
def Cambios.devuelve (signo : Signo) (c : Char) (cp : CStr) (s : Cambios κ) : Cambios κ :=
  { s with rebote := ((s.rebote.conSigno signo).conLetra c).conParametro cp }

/-- The flags of a member are changed. -/
def Cambios.conFlags (who : κ) (f : Finset Chfl → Finset Chfl) (s : Cambios κ) : Cambios κ :=
  { s with canal.members := s.canal.members.map fun m ↦
      if m.cptr = who then { m with flags := f m.flags } else m }

omit [DecidableEq κ] in
/-- A key is put on or taken off. -/
def cambiaKey (bounce : Bool) (signo : Signo) (cp : CStr) (s : Cambios κ) : Cambios κ :=
  let cp := cp.take KEYLEN
  let cambia : Bool :=
    match signo, s.canal.key with
    | .add, none => true
    | .add, some key => strCasediff key cp ≠ 0
    | .del, key => key.isSome
  if !cambia then s
  else if bounce then
    (match s.canal.key with
    | none => s.devuelve .del 'k' cp
    | some key => s.devuelve .add 'k' key).calla
  else
    { s.hace 'k' cp cp with
      canal.key :=
        match signo with
        | .add => some cp
        | .del => none }

omit [DecidableEq κ] in
/-- A limit is put on. -/
def cambiaLimit (bounce : Bool) (nusers : Nat) (s : Cambios κ) : Cambios κ :=
  if nusers = 0 ∨ nusers = s.canal.limit then s
  else if bounce then
    (if s.canal.limit = 0 then { s with rebote := (s.rebote.conSigno .del).conLetra 'l' }
    else s.devuelve .add 'l' (decimal s.canal.limit)).calla
  else { s.hace 'l' (decimal nusers) (decimal nusers) with canal.limit := nusers }

/-- A member is made operator or is given voice, or the contrary. -/
def cambiaMiembro (a : Autoridad κ) (bounce : Bool) (signo : Signo) (who : κ) (flag : Chfl) (c : Char)
    (s : Cambios κ) : Cambios κ :=
  let tiene := (findUserLink s.canal.members who).any fun tmp ↦ flag ∈ tmp.flags
  let cambia : Bool :=
    match signo with
    | .add => !tiene
    | .del => tiene
  if !cambia then s.calla
  else if bounce then
    ((s.conFlags who fun flags ↦
      if flag ≠ .chanop then flags
      else
        match signo with
        | .add => insert .deopped flags
        | .del => flags.erase .deopped).devuelve signo.vuelta c (a.name who)).calla
  else
    ((s.conFlags who fun flags ↦
      match signo with
      | .add => if flag = .chanop then (insert flag flags).erase .deopped else insert flag flags
      | .del => flags.erase flag).hace c (a.name who) (a.numNick who ++ [' ']))

/-- A ban is put on or taken off. -/
def cambiaBan (a : Autoridad κ) (bounce : Bool) (signo : Signo) (cp : CStr) (s : Cambios κ) :
    Cambios κ :=
  let (ret, s) : Int × Cambios κ :=
    match signo with
    | .add =>
        let (ret, canal, removed) :=
          addBanid a.now a.autor cp (!bounce) (!s.addBanidCalled) s.canal
        (ret, { s with
          canal := canal
          removed := removed ++ s.removed
          addBanidCalled := s.addBanidCalled || ret = 0 })
    | .del =>
        let (ret, canal) := delBanid cp (!bounce) s.canal
        (ret, { s with canal := canal })
  if ret ≠ 0 then s.calla
  else if bounce then (s.devuelve signo.vuelta 'b' cp).calla
  else s.hace 'b' cp cp

/-- The entries of `chops`, up to one that has no room in the texts. -/
def cambiaChops (a : Autoridad κ) (bounce : Bool) (nusers : Nat) :
    List (Chop κ) → Cambios κ → Cambios κ
  | [], s => s
  | lp :: chops, s =>
      let s :=
        if s.hecho.whatt = some lp.signo then s
        else { s with hecho := s.hecho.conSigno lp.signo, prevWhatt := s.hecho.whatt }
      let (c, cp) := lp.objeto.texto a nusers
      if MODEBUFLEN < s.hecho.pbuf.length + cp.length + 13 ∨
          MODEBUFLEN < s.npbuf.length + cp.length + NUMNICKLEN + 12 then s
      else
        cambiaChops a bounce nusers chops
          (match lp.objeto with
          | .key _ => cambiaKey bounce lp.signo cp s
          | .limit => cambiaLimit bounce nusers s
          | .chanop who => cambiaMiembro a bounce lp.signo who .chanop c s
          | .voice who => cambiaMiembro a bounce lp.signo who .voice c s
          | .ban _ => cambiaBan a bounce lp.signo cp s)

/-- The second half of `set_mode_local`. -/
def cambiaModos (a : Autoridad κ) (l : Lectura κ) (canal : Canal κ) : Cambios κ :=
  let bounce := a.bounce canal
  let newmode := nuevoModo canal l.newmode
  let s : Cambios κ := ⟨canal, ⟨[], [], none⟩, [], ⟨[], [], none⟩, none, false, []⟩
  let s := simples bounce .add (newmode \ canal.mode) canalFlags s
  let s := simples bounce .del (canal.mode \ newmode) canalFlags s
  let s := sinLimite bounce l s
  cambiaChops a bounce l.nusers l.chops s

/-! ## The simple modes -/

omit [DecidableEq κ] in
/-- The modes of a channel and its locks. -/
def Canal.modos (canal : Canal κ) : Finset Modo × Finset Modo × Finset Modo :=
  (canal.mode, canal.modosObligatorios, canal.modosProhibidos)

variable {a : Autoridad κ} {bounce : Bool} {signo : Signo} {cambian : Finset Modo}
  {ip : List (Modo × Char)} {s : Cambios κ} {l : Lectura κ} {canal : Canal κ}

/-- Every mode has its letter. -/
theorem mem_canalFlags (m : Modo) : m ∈ canalFlags.map Prod.fst := by
  cases m <;> decide

omit [DecidableEq κ] in
/-- What is sent back is not applied. -/
theorem canal_simples_rebote : (simples true signo cambian ip s).canal = s.canal := by
  induction ip generalizing s with
  | nil => rfl
  | cons x ip ih =>
      obtain ⟨modo, c⟩ := x
      rw [simples, ih]
      split <;> rfl

omit [DecidableEq κ] in
/-- The loops leave the locks as they are. -/
theorem candados_simples :
    (simples bounce signo cambian ip s).canal.modos.2 = s.canal.modos.2 := by
  induction ip generalizing s with
  | nil => rfl
  | cons x ip ih =>
      obtain ⟨modo, c⟩ := x
      rw [simples, ih]
      split_ifs <;> rfl

omit [DecidableEq κ] in
/-- The first loop puts on the modes that have a letter. -/
theorem mem_simples_add {m : Modo} :
    m ∈ (simples false .add cambian ip s).canal.mode ↔
      m ∈ s.canal.mode ∨ m ∈ cambian ∧ m ∈ ip.map Prod.fst := by
  induction ip generalizing s with
  | nil => simp [simples]
  | cons x ip ih =>
      obtain ⟨modo, c⟩ := x
      rw [simples, ih]
      by_cases hmodo : modo ∈ cambian
      · simp [hmodo, Signo.pone]
        grind
      · simp [hmodo]
        grind

omit [DecidableEq κ] in
/-- The second loop takes them off. -/
theorem mem_simples_del {m : Modo} :
    m ∈ (simples false .del cambian ip s).canal.mode ↔
      m ∈ s.canal.mode ∧ ¬ (m ∈ cambian ∧ m ∈ ip.map Prod.fst) := by
  induction ip generalizing s with
  | nil => simp [simples]
  | cons x ip ih =>
      obtain ⟨modo, c⟩ := x
      rw [simples, ih]
      by_cases hmodo : modo ∈ cambian
      · simp [hmodo, Signo.pone]
        grind
      · simp [hmodo]
        grind

/-! ## The changes with parameters -/

omit [DecidableEq κ] in
theorem modos_addBanid (now : Int) (cptr : Autor) (banid : CStr) (change firsttime : Bool) :
    (addBanid now cptr banid change firsttime canal).2.1.modos = canal.modos := by
  unfold addBanid
  dsimp only
  split
  · rfl
  · split_ifs <;> rfl

omit [DecidableEq κ] in
theorem modos_delBanid (banid : CStr) (change : Bool) :
    (delBanid banid change canal).2.modos = canal.modos := by
  unfold delBanid
  split_ifs <;> rfl

omit [DecidableEq κ] in
theorem modos_cambiaKey (cp : CStr) : (cambiaKey bounce signo cp s).canal.modos = s.canal.modos := by
  unfold cambiaKey
  dsimp only
  generalize (cp.take KEYLEN) = cp
  cases hkey : s.canal.key with
  | none => split_ifs <;> rfl
  | some key => split_ifs <;> rfl

omit [DecidableEq κ] in
theorem modos_cambiaLimit (nusers : Nat) :
    (cambiaLimit bounce nusers s).canal.modos = s.canal.modos := by
  unfold cambiaLimit
  split_ifs <;> rfl

theorem modos_cambiaMiembro (who : κ) (flag : Chfl) (c : Char) :
    (cambiaMiembro a bounce signo who flag c s).canal.modos = s.canal.modos := by
  unfold cambiaMiembro
  dsimp only
  split_ifs <;> rfl

omit [DecidableEq κ] in
theorem modos_cambiaBan (cp : CStr) : (cambiaBan a bounce signo cp s).canal.modos = s.canal.modos := by
  unfold cambiaBan
  cases signo with
  | add =>
      obtain ⟨x, hx⟩ : ∃ x, x = addBanid a.now a.autor cp (!bounce) (!s.addBanidCalled) s.canal :=
        ⟨_, rfl⟩
      have hmodos : x.2.1.modos = s.canal.modos := by
        rw [hx]
        exact modos_addBanid _ _ _ _ _
      dsimp only
      rw [← hx]
      split_ifs <;> exact hmodos
  | del =>
      obtain ⟨x, hx⟩ : ∃ x, x = delBanid cp (!bounce) s.canal := ⟨_, rfl⟩
      have hmodos : x.2.modos = s.canal.modos := by
        rw [hx]
        exact modos_delBanid _ _
      dsimp only
      rw [← hx]
      split_ifs <;> exact hmodos

/-- The entries of `chops` leave the simple modes and the locks as they are. -/
theorem modos_cambiaChops (nusers : Nat) (chops : List (Chop κ)) :
    (cambiaChops a bounce nusers chops s).canal.modos = s.canal.modos := by
  induction chops generalizing s with
  | nil => rfl
  | cons lp chops ih =>
      obtain ⟨s', hs', hmodos⟩ : ∃ s' : Cambios κ, s' = (if s.hecho.whatt = some lp.signo then s
          else { s with hecho := s.hecho.conSigno lp.signo, prevWhatt := s.hecho.whatt }) ∧
          s'.canal.modos = s.canal.modos := ⟨_, rfl, by split_ifs <;> rfl⟩
      rw [cambiaChops, ← hs']
      dsimp only
      split_ifs
      · exact hmodos
      · rw [ih, ← hmodos]
        cases lp.objeto with
        | chanop who => exact modos_cambiaMiembro who _ _
        | voice who => exact modos_cambiaMiembro who _ _
        | ban cp => exact modos_cambiaBan _
        | key cp => exact modos_cambiaKey _
        | limit => exact modos_cambiaLimit _

/-! ## The modes that are left -/

/-- A change that is sent back leaves the modes and the locks as they were. -/
theorem modos_cambiaModos_rebote (hbounce : a.bounce canal = true) :
    (cambiaModos a l canal).canal.modos = canal.modos := by
  rw [cambiaModos, modos_cambiaChops, hbounce]
  have hlimite : ∀ s : Cambios κ, (sinLimite true l s).canal = s.canal := by
    intro s
    unfold sinLimite
    split <;> rfl
  rw [hlimite, canal_simples_rebote, canal_simples_rebote]

/-- A change that is applied leaves the locks as they were. -/
theorem candados_cambiaModos : (cambiaModos a l canal).canal.modos.2 = canal.modos.2 := by
  have hlimite : ∀ s : Cambios κ,
      (sinLimite (a.bounce canal) l s).canal.modos.2 = s.canal.modos.2 := by
    intro s
    unfold sinLimite
    split_ifs <;> rfl
  rw [cambiaModos, modos_cambiaChops, hlimite, candados_simples, candados_simples]

/-- A change that is applied leaves the modes that have been worked out. -/
theorem mode_cambiaModos (hbounce : a.bounce canal = false) :
    (cambiaModos a l canal).canal.mode = nuevoModo canal l.newmode := by
  have hlimit : .limit ∉ nuevoModo canal l.newmode := by simp [nuevoModo, MODE_WPARAS]
  have hmode : ∀ s : Cambios κ, s.canal.mode = nuevoModo canal l.newmode →
      (sinLimite false l s).canal.mode = nuevoModo canal l.newmode := by
    intro s hs
    unfold sinLimite
    split
    · show s.canal.mode.erase .limit = _
      rw [hs, Finset.erase_eq_of_notMem hlimit]
    · exact hs
  show (cambiaModos a l canal).canal.modos.1 = _
  rw [cambiaModos, modos_cambiaChops, hbounce]
  refine hmode _ ?_
  ext m
  rw [mem_simples_del, mem_simples_add]
  have hletra := mem_canalFlags m
  simp only [Finset.mem_sdiff, hletra, and_true]
  tauto

end

end Ircd.Channel
