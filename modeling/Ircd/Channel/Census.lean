import Ircd.Channel.Members

/-!
# The census of the channels

`Censo` is what the links between channels and clients satisfy: both sides agree on them, the
counters are their numbers, and a block that is not in use has none. Each function of
`Ircd.Channel.Members` keeps it, and `Censo.removeUserFromChannel` says what the removal of a member
leaves.
-/

namespace Ircd.Channel

open CString Hash

variable {γ κ : Type} [DecidableEq γ] [DecidableEq κ]

/-- The clients that the links of a channel lead to. -/
def Red.miembros (s : Red γ κ) (chptr : γ) : List κ :=
  (s.canal chptr).members.map Miembro.cptr

/-- The clients that are invited to a channel. -/
def Red.invitados (s : Red γ κ) (chptr : γ) : List κ :=
  (s.canal chptr).invites

/-- Both sides of the links agree, the counters are right, and the free blocks have no links. -/
structure Censo (s : Red γ κ) : Prop where
  vinculos : Incidence s.miembros s.channel
  invitaciones : Incidence s.invitados s.invited
  users : ∀ c, (s.canal c).users = (s.canal c).members.length
  joined : ∀ u, s.joined u = (s.channel u).length
  libre : ∀ c, c ∉ s.enUso → (s.canal c).members = [] ∧ (s.canal c).invites = [] ∧
    (s.canal c).banlist = []
  tabla : Coherente s.tabla s.enUso
  lista : ∃ xs, s.lista.Holds xs ∧ ∀ c, c ∈ xs ↔ c ∈ s.enUso
  nrofChannels : s.nrofChannels = s.enUso.card

variable {s : Red γ κ} {chptr c : γ} {sptr cptr who u : κ}

/-! ## Links of one channel -/

/-- What an operation on a channel writes: the channel, and what the clients keep. -/
def Red.conEnlaces (s : Red γ κ) (chptr : γ) (canal : Canal κ) (channel : κ → List γ)
    (joined : κ → Int) (invited : κ → List γ) : Red γ κ :=
  { s with
    canal := Function.update s.canal chptr canal
    channel := channel
    joined := joined
    invited := invited }

omit [DecidableEq κ] in
/-- A part of the channels after one of them is written. -/
theorem campo_update {α : Type} (f : γ → Canal κ) (chptr : γ) (canal : Canal κ)
    (campo : Canal κ → α) : (fun c ↦ campo (Function.update f chptr canal c)) =
      Function.update (fun c ↦ campo (f c)) chptr (campo canal) := by
  funext c
  by_cases hc : c = chptr
  · subst hc
    rw [Function.update_self, Function.update_self]
  · rw [Function.update_of_ne hc, Function.update_of_ne hc]

omit [DecidableEq κ] in
/-- A channel in use is written, with the links at both ends. -/
theorem Censo.conEnlaces (h : Censo s) (hchptr : chptr ∈ s.enUso) {canal : Canal κ}
    {channel : κ → List γ} {joined : κ → Int} {invited : κ → List γ}
    (hvinculos : Incidence
      (Function.update s.miembros chptr (canal.members.map Miembro.cptr)) channel)
    (hinvitaciones : Incidence (Function.update s.invitados chptr canal.invites) invited)
    (husers : canal.users = canal.members.length)
    (hjoined : ∀ u, joined u = (channel u).length) :
    Censo (s.conEnlaces chptr canal channel joined invited) where
  vinculos := by
    have heq := campo_update s.canal chptr canal fun c ↦ c.members.map Miembro.cptr
    show Incidence (fun c ↦ (Function.update s.canal chptr canal c).members.map Miembro.cptr) _
    rw [heq]
    exact hvinculos
  invitaciones := by
    have heq := campo_update s.canal chptr canal Canal.invites
    show Incidence (fun c ↦ (Function.update s.canal chptr canal c).invites) _
    rw [heq]
    exact hinvitaciones
  users c := by
    show (Function.update s.canal chptr canal c).users =
      (Function.update s.canal chptr canal c).members.length
    by_cases hc : c = chptr
    · subst hc
      rw [Function.update_self, husers]
    · rw [Function.update_of_ne hc, h.users]
  joined := hjoined
  libre c hc := by
    have hne : c ≠ chptr := fun heq ↦ hc (heq ▸ hchptr)
    show (Function.update s.canal chptr canal c).members = [] ∧
      (Function.update s.canal chptr canal c).invites = [] ∧
      (Function.update s.canal chptr canal c).banlist = []
    rw [Function.update_of_ne hne]
    exact h.libre c hc
  tabla := h.tabla
  lista := h.lista
  nrofChannels := h.nrofChannels

omit [DecidableEq κ] in
/-- The links of a channel are not changed. -/
theorem Censo.vinculos_self (h : Censo s) (chptr : γ) :
    Incidence (Function.update s.miembros chptr ((s.canal chptr).members.map Miembro.cptr))
      s.channel := by
  rw [show (s.canal chptr).members.map Miembro.cptr = s.miembros chptr from rfl,
    Function.update_eq_self]
  exact h.vinculos

omit [DecidableEq κ] in
/-- The invitations to a channel are not changed. -/
theorem Censo.invitaciones_self (h : Censo s) (chptr : γ) :
    Incidence (Function.update s.invitados chptr (s.canal chptr).invites) s.invited := by
  rw [show (s.canal chptr).invites = s.invitados chptr from rfl, Function.update_eq_self]
  exact h.invitaciones

/-! ## Members -/

/-- The clients of the members that stay. -/
theorem map_eraseP (l : List (Miembro κ)) (u : κ) :
    (l.eraseP (esDe u)).map Miembro.cptr = (l.map Miembro.cptr).erase u := by
  induction l with
  | nil => rfl
  | cons m l ih =>
      by_cases hm : m.cptr = u
      · simp [esDe, hm]
      · have hne : (m.cptr == u) = false := by simpa using hm
        simp [esDe, hm, hne, ← ih]

omit [DecidableEq γ] in
/-- One member less. -/
theorem length_eraseP (hsptr : sptr ∈ s.miembros chptr) :
    ((s.canal chptr).members.eraseP (esDe sptr)).length = (s.canal chptr).members.length - 1 := by
  rw [Red.miembros] at hsptr
  rw [← List.length_map Miembro.cptr, map_eraseP, List.length_erase_of_mem hsptr, List.length_map]

/-- A user comes in who is not there. -/
theorem Censo.addUserToChannel (h : Censo s) (hchptr : chptr ∈ s.enUso)
    (hwho : who ∉ s.miembros chptr) (flags : Finset Chfl) :
    Censo (addUserToChannel chptr who flags s) := by
  rw [Channel.addUserToChannel]
  split
  · refine h.conEnlaces hchptr (h.vinculos.link hwho (.refl _) (.refl _))
      (h.invitaciones_self chptr) ?_ fun u ↦ ?_
    · exact congrArg (· + 1) (h.users chptr)
    · by_cases hu : u = who
      · subst hu
        rw [Function.update_self, Function.update_self]
        exact congrArg (· + 1) (h.joined u)
      · rw [Function.update_of_ne hu, Function.update_of_ne hu]
        exact h.joined u
  · exact h

/-- The channel without the link to a user, and with the counter of its users corrected. -/
def Red.sin (s : Red γ κ) (chptr : γ) (sptr : κ) : Red γ κ :=
  s.conEnlaces chptr
    { s.canal chptr with
      members := (s.canal chptr).members.eraseP (esDe sptr)
      users := (s.canal chptr).users - 1 }
    (Function.update s.channel sptr ((s.channel sptr).erase chptr))
    (Function.update s.joined sptr (s.joined sptr - 1)) s.invited

/-- A user goes out. -/
theorem Censo.sin (h : Censo s) (hchptr : chptr ∈ s.enUso) (hsptr : sptr ∈ s.miembros chptr) :
    Censo (s.sin chptr sptr) := by
  have hvinculos := h.vinculos.unlink chptr sptr
  rw [show (s.miembros chptr).erase sptr = _ from (map_eraseP _ sptr).symm] at hvinculos
  refine h.conEnlaces hchptr hvinculos (h.invitaciones_self chptr) ?_ fun u ↦ ?_
  · rw [h.users, length_eraseP hsptr]
  · by_cases hu : u = sptr
    · subst hu
      have hmem : chptr ∈ s.channel u := (h.vinculos.mem_iff chptr u).mp hsptr
      have hpos := List.length_pos_of_mem hmem
      rw [Function.update_self, Function.update_self, h.joined, List.length_erase_of_mem hmem]
      omega
    · rw [Function.update_of_ne hu, Function.update_of_ne hu, h.joined]

/-- A member is marked. -/
theorem Censo.hazZombie (h : Censo s) (hchptr : chptr ∈ s.enUso) (who : κ) :
    Censo (hazZombie chptr who s) := by
  have hmap : ((s.canal chptr).members.map fun m ↦
      if m.cptr = who then { m with flags := insert .zombie m.flags } else m).map Miembro.cptr =
      (s.canal chptr).members.map Miembro.cptr := by
    rw [List.map_map]
    refine List.map_congr_left fun m _ ↦ ?_
    simp only [Function.comp]
    split <;> rfl
  refine h.conEnlaces hchptr ?_ (h.invitaciones_self chptr) ?_ h.joined
  · rw [hmap]
    exact h.vinculos_self chptr
  · rw [List.length_map, h.users]

omit [DecidableEq κ] in
/-- The modes of a channel do not matter. -/
theorem Censo.conMode (h : Censo s) (hchptr : chptr ∈ s.enUso) (mode : Finset Modo) :
    Censo (s.cambia chptr fun c ↦ { c with mode := mode }) :=
  h.conEnlaces hchptr (h.vinculos_self chptr) (h.invitaciones_self chptr) (h.users chptr) h.joined

/-! ## Invitations -/

/-- An invitation is taken back. -/
theorem Censo.delInvite (h : Censo s) (hchptr : chptr ∈ s.enUso) (cptr : κ) :
    Censo (delInvite cptr chptr s) :=
  h.conEnlaces hchptr (h.vinculos_self chptr) (h.invitaciones.unlink chptr cptr)
    (h.users chptr) h.joined

omit [DecidableEq κ] in
/-- A channel that somebody is invited to is in use. -/
theorem Censo.enUso_of_invited (h : Censo s) (hc : c ∈ s.invited cptr) : c ∈ s.enUso := by
  by_contra hno
  have hmem := (h.invitaciones.mem_iff c cptr).mpr hc
  rw [Red.invitados, (h.libre c hno).2.1] at hmem
  cases hmem

/-- Taking an invitation back makes no new one. -/
theorem not_invited_delInvite (hnot : chptr ∉ s.invited cptr) (c : γ) :
    chptr ∉ (Channel.delInvite cptr c s).invited cptr := by
  show chptr ∉ Function.update s.invited cptr _ cptr
  rw [Function.update_self]
  exact mt List.mem_of_mem_erase hnot

/-- An invitation. -/
theorem Censo.addInvite (h : Censo s) (hchptr : chptr ∈ s.enUso) (maximo : Nat) (cptr : κ) :
    Censo (addInvite maximo cptr chptr s) := by
  have hdel := h.delInvite hchptr cptr
  have hnot : chptr ∉ (Channel.delInvite cptr chptr s).invited cptr := by
    show chptr ∉ Function.update s.invited cptr _ cptr
    rw [Function.update_self]
    exact (h.invitaciones.nodup_right cptr).not_mem_erase
  -- What is done when the list is full keeps both facts.
  have hlink : ∀ s' : Red γ κ, Censo s' → chptr ∈ s'.enUso → chptr ∉ s'.invited cptr →
      Censo { s'.cambia chptr (fun c ↦ { c with invites := cptr :: c.invites }) with
        invited := Function.update s'.invited cptr (s'.invited cptr ++ [chptr]) } := by
    intro s' h' hchptr' hnot'
    exact h'.conEnlaces hchptr' (h'.vinculos_self chptr)
      (h'.invitaciones.link (mt (h'.invitaciones.mem_iff chptr cptr).mp hnot') (.refl _)
        (List.perm_append_singleton _ _)) (h'.users chptr) h'.joined
  rw [Channel.addInvite]
  split
  · split
    · next c _ hfull =>
        have hc : c ∈ (Channel.delInvite cptr chptr s).enUso := by
          have hmem : c ∈ (Channel.delInvite cptr chptr s).invited cptr := by
            rw [hfull]
            exact List.mem_cons_self
          exact hdel.enUso_of_invited hmem
        exact hlink _ (hdel.delInvite hc cptr) hchptr (not_invited_delInvite hnot c)
    · exact hlink _ hdel hchptr hnot
  · exact hlink _ hdel hchptr hnot

/-- The loop over the invitations to a channel keeps the census. -/
theorem Censo.delInvites (h : Censo s) (hchptr : chptr ∈ s.enUso) (fuel : Nat) :
    Censo (delInvites chptr fuel s) ∧ (delInvites chptr fuel s).enUso = s.enUso := by
  induction fuel generalizing s with
  | zero => exact ⟨h, rfl⟩
  | succ fuel ih =>
      rw [Channel.delInvites]
      cases (s.canal chptr).invites with
      | nil => exact ⟨h, rfl⟩
      | cons cptr rest => exact ih (h.delInvite hchptr cptr) hchptr

/-! ## Blocks -/

variable [Fintype γ]

/-- A channel without members is freed. -/
theorem Censo.libera (h : Censo s) (hchptr : chptr ∈ s.enUso)
    (hempty : (s.canal chptr).members = []) :
    Censo (libera chptr s) ∧ (libera chptr s).enUso = s.enUso.erase chptr := by
  obtain ⟨h', henUso⟩ := h.delInvites hchptr (s.canal chptr).invites.length
  have hcanal := canal_delInvites (le_refl (s.canal chptr).invites.length)
  rw [Channel.libera]
  generalize Channel.delInvites chptr (s.canal chptr).invites.length s = s' at h' hcanal henUso
  have hchptr' : chptr ∈ s'.enUso := henUso ▸ hchptr
  have hbans : Censo (s'.conEnlaces chptr { s'.canal chptr with banlist := [] } s'.channel
      s'.joined s'.invited) :=
    h'.conEnlaces hchptr' (h'.vinculos_self chptr) (h'.invitaciones_self chptr) (h'.users chptr)
      h'.joined
  refine ⟨⟨hbans.vinculos, hbans.invitaciones, hbans.users, hbans.joined, fun c hc ↦ ?_,
    h'.tabla.rem, ?_, ?_⟩, congrArg (Finset.erase · chptr) henUso⟩
  · by_cases hcc : c = chptr
    · subst hcc
      show (Function.update s'.canal c _ c).members = [] ∧
        (Function.update s'.canal c _ c).invites = [] ∧
        (Function.update s'.canal c _ c).banlist = []
      rw [Function.update_self, hcanal]
      exact ⟨hempty, rfl, rfl⟩
    · exact hbans.libre c fun hmem ↦ hc (Finset.mem_erase.mpr ⟨hcc, hmem⟩)
  · obtain ⟨xs, hxs, hmem⟩ := h'.lista
    obtain ⟨as, bs, rfl⟩ := List.append_of_mem ((hmem chptr).mpr hchptr')
    have hnodup := hxs.links.nodup
    refine ⟨as ++ bs, hxs.drop, fun c ↦ ?_⟩
    show c ∈ as ++ bs ↔ c ∈ s'.enUso.erase chptr
    rw [Finset.mem_erase, ← hmem]
    have hnot : chptr ∉ as ++ bs := (List.nodup_middle.mp hnodup |> List.nodup_cons.mp).1
    by_cases hcc : c = chptr
    · subst hcc
      simp [hnot]
    · simp [hcc]
  · show s'.nrofChannels - 1 = ((s'.enUso.erase chptr).card : Int)
    have hpos := Finset.card_pos.mpr ⟨chptr, hchptr'⟩
    rw [h'.nrofChannels, Finset.card_erase_of_mem hchptr']
    omega

omit [Fintype γ] [DecidableEq κ] in
/-- A part of the channels that a free block has no more of than a new one. -/
theorem Censo.campo_nuevo {α : Type} (campo : Canal κ → List α) {p : γ}
    (hviejo : campo (s.canal p) = []) (hcero : campo Canal.nuevo = []) :
    (fun c ↦ campo (Function.update s.canal p Canal.nuevo c)) = fun c ↦ campo (s.canal c) := by
  rw [campo_update, hcero, ← hviejo]
  exact Function.update_eq_self ..

omit [Fintype γ] [DecidableEq κ] in
/-- A free block is taken for a new channel. -/
theorem Censo.nuevo (h : Censo s) {p : γ} (hp : p ∉ s.enUso) {tabla : Tabla γ} {nombre : CStr}
    (htabla : Coherente tabla s.enUso)
    (hnombre : ∀ q ∈ s.enUso, fold (tabla.name q) ≠ fold nombre) :
    Censo { s with
      canal := Function.update s.canal p Canal.nuevo
      lista := s.lista.push p
      tabla := (tabla.conNombre p nombre).add p
      nrofChannels := s.nrofChannels + 1
      enUso := insert p s.enUso } := by
  obtain ⟨hmembers, hinvites, -⟩ := h.libre p hp
  have hmiembros : (fun c ↦ (Function.update s.canal p Canal.nuevo c).members.map Miembro.cptr) =
      s.miembros :=
    Censo.campo_nuevo (fun c ↦ c.members.map Miembro.cptr) (by rw [hmembers]; rfl) rfl
  have hinvitados : (fun c ↦ (Function.update s.canal p Canal.nuevo c).invites) = s.invitados :=
    Censo.campo_nuevo Canal.invites hinvites rfl
  refine ⟨?_, ?_, fun c ↦ ?_, h.joined, fun c hc ↦ ?_, htabla.add hp hnombre, ?_, ?_⟩
  · show Incidence (fun c ↦ (Function.update s.canal p Canal.nuevo c).members.map Miembro.cptr) _
    rw [hmiembros]
    exact h.vinculos
  · show Incidence (fun c ↦ (Function.update s.canal p Canal.nuevo c).invites) _
    rw [hinvitados]
    exact h.invitaciones
  · show (Function.update s.canal p Canal.nuevo c).users =
      (Function.update s.canal p Canal.nuevo c).members.length
    by_cases hc : c = p
    · subst hc
      rw [Function.update_self]
      rfl
    · rw [Function.update_of_ne hc, h.users]
  · obtain ⟨hcp, hc⟩ := not_or.mp (mt Finset.mem_insert.mpr hc)
    show (Function.update s.canal p Canal.nuevo c).members = [] ∧
      (Function.update s.canal p Canal.nuevo c).invites = [] ∧
      (Function.update s.canal p Canal.nuevo c).banlist = []
    rw [Function.update_of_ne hcp]
    exact h.libre c hc
  · obtain ⟨xs, hxs, hmem⟩ := h.lista
    refine ⟨p :: xs, hxs.push (mt (hmem p).mp hp), fun c ↦ ?_⟩
    rw [List.mem_cons, hmem, Finset.mem_insert]
  · show s.nrofChannels + 1 = ((insert p s.enUso).card : Int)
    rw [h.nrofChannels, Finset.card_insert_of_notMem hp]
    rfl

omit [DecidableEq κ] in
/-- A channel is found or made. -/
theorem Censo.getChannel (h : Censo s) (sys : Watch.Malloc γ) {mio create : Bool} {chname : CStr}
    {r : Option γ} {s' : Red γ κ} (hget : getChannel sys mio chname create s = some (r, s')) :
    Censo s' := by
  rw [Channel.getChannel] at hget
  split at hget
  · obtain ⟨-, rfl⟩ := Prod.mk.inj (Option.some.inj hget)
    exact h
  · generalize (if mio ∧ CHANNELLEN < chname.length then chname.take CHANNELLEN else chname) =
      nombre at hget
    dsimp only at hget
    obtain ⟨htabla, hseek⟩ := h.tabla.seek nombre fun _ ↦ true
    have hnames := s.tabla.name_seek nombre fun _ ↦ true
    generalize s.tabla.seek nombre (fun _ ↦ true) = resultado at hget htabla hseek hnames
    obtain ⟨hallado, tabla⟩ := resultado
    cases hallado with
    | some q =>
        obtain ⟨-, rfl⟩ := Prod.mk.inj (Option.some.inj hget)
        exact ⟨h.vinculos, h.invitaciones, h.users, h.joined, h.libre, htabla, h.lista,
          h.nrofChannels⟩
    | none =>
        dsimp only at hget
        split at hget
        · cases hpide : sys.pide s.enUso with
          | none => rw [hpide] at hget; cases hget
          | some p =>
              rw [hpide] at hget
              obtain ⟨-, rfl⟩ := Prod.mk.inj (Option.some.inj hget)
              have hp : p ∉ s.enUso := sys.libre _ p hpide
              refine h.nuevo hp htabla fun q hq heq ↦ ?_
              have hnames : tabla.name = s.tabla.name := hnames
              rw [hnames] at heq
              have hfound := (hseek q).mpr ⟨hq, rfl, strCasediff_eq_zero.mpr heq.symm⟩
              cases hfound
        · obtain ⟨-, rfl⟩ := Prod.mk.inj (Option.some.inj hget)
          exact ⟨h.vinculos, h.invitaciones, h.users, h.joined, h.libre, htabla, h.lista,
            h.nrofChannels⟩

/-! ## A member less -/

omit [Fintype γ] in
/-- The counter is corrected after the links have been taken out. -/
theorem cambia_desenlaza (s : Red γ κ) (chptr : γ) (sptr : κ) :
    (desenlaza chptr sptr s).cambia chptr (fun c ↦ { c with users := c.users - 1 }) =
      s.sin chptr sptr := by
  simp only [Red.cambia, desenlaza, Red.sin, Red.conEnlaces, Function.update_self,
    Function.update_idem]

omit [Fintype γ] in
theorem canal_sin (s : Red γ κ) (chptr : γ) (sptr : κ) :
    (s.sin chptr sptr).canal chptr = { s.canal chptr with
      members := (s.canal chptr).members.eraseP (esDe sptr)
      users := (s.canal chptr).users - 1 } :=
  Function.update_self ..

/-- What an operation leaves of a channel: it has the given members, and it is freed if and only if
there are none and it is not registered. No other block is freed. -/
structure Queda (s s' : Red γ κ) (chptr : γ) (quedan : List (Miembro κ)) : Prop where
  censo : Censo s'
  members : (s'.canal chptr).members = quedan
  enUso : chptr ∈ s'.enUso ↔ quedan ≠ [] ∨ .regchan ∈ (s.canal chptr).mode
  mode : quedan ≠ [] → (s'.canal chptr).mode = (s.canal chptr).mode
  otros : ∀ c, c ≠ chptr → (c ∈ s'.enUso ↔ c ∈ s.enUso)

omit [DecidableEq κ] [Fintype γ] [DecidableEq γ] in
/-- The modes and the blocks in use are all that matters of the state before. -/
theorem Queda.de {s₁ s' : Red γ κ} {quedan : List (Miembro κ)} (h : Queda s₁ s' chptr quedan)
    (hmode : (s₁.canal chptr).mode = (s.canal chptr).mode)
    (hotros : ∀ c, c ≠ chptr → (c ∈ s₁.enUso ↔ c ∈ s.enUso)) : Queda s s' chptr quedan :=
  ⟨h.censo, h.members, hmode ▸ h.enUso, hmode ▸ h.mode, fun c hc ↦
    (h.otros c hc).trans (hotros c hc)⟩

/-- `sub1_from_channel` after the counter of the users has been decremented. -/
theorem Censo.queda (h : Censo s) (hchptr : chptr ∈ s.enUso) :
    Queda s (if (s.canal chptr).users ≠ 0 then s
      else if .regchan ∈ (s.canal chptr).mode then s else Channel.libera chptr s) chptr
      (s.canal chptr).members := by
  have hempty : (s.canal chptr).members = [] ↔ (s.canal chptr).users = 0 := by
    rw [h.users, List.length_eq_zero_iff]
  split
  · next husers =>
      exact ⟨h, rfl, iff_of_true hchptr (Or.inl (mt hempty.mp husers)), fun _ ↦ rfl,
        fun _ _ ↦ Iff.rfl⟩
  · next husers =>
      have hnil := hempty.mpr (not_not.mp husers)
      split
      · next hreg =>
          exact ⟨h, rfl, iff_of_true hchptr (Or.inr hreg), fun _ ↦ rfl, fun _ _ ↦ Iff.rfl⟩
      · next hreg =>
          obtain ⟨h', henUso⟩ := h.libera hchptr hnil
          have hout : chptr ∉ (Channel.libera chptr s).enUso := by
            rw [henUso]
            exact Finset.notMem_erase _ _
          rw [hnil]
          refine ⟨h', (h'.libre chptr hout).1, by simp [hout, hreg], fun hne ↦ absurd rfl hne,
            fun c hc ↦ ?_⟩
          rw [henUso, Finset.mem_erase]
          exact and_iff_right hc

/-- An empty channel goes unless it is registered. -/
theorem Censo.sub1FromChannel (h : Censo s) (hchptr : chptr ∈ s.enUso)
    (hempty : (s.canal chptr).members = []) : Queda s (sub1FromChannel chptr s) chptr [] := by
  have husers : (s.canal chptr).users = 0 := by rw [h.users, hempty, List.length_nil]
  have hsame : (s.cambia chptr fun c ↦ { c with users := c.users - 1 }) = s := by
    have hcanal : { s.canal chptr with users := (s.canal chptr).users - 1 } = s.canal chptr := by
      generalize s.canal chptr = x at husers
      cases x
      subst husers
      rfl
    simp only [Red.cambia, hcanal, Function.update_eq_self]
  have hqueda := h.queda hchptr
  rw [hempty] at hqueda
  rw [Channel.sub1FromChannel, hsame]
  exact hqueda

/-- A user goes out of a channel. -/
theorem Censo.sub1_desenlaza (h : Censo s) (hchptr : chptr ∈ s.enUso)
    (hsptr : sptr ∈ s.miembros chptr) :
    Queda s (Channel.sub1FromChannel chptr (desenlaza chptr sptr s)) chptr
      ((s.canal chptr).members.eraseP (esDe sptr)) := by
  have hqueda : Queda (s.sin chptr sptr) _ chptr _ := (h.sin hchptr hsptr).queda hchptr
  have hmembers : ((s.sin chptr sptr).canal chptr).members =
      (s.canal chptr).members.eraseP (esDe sptr) := by rw [canal_sin]
  rw [hmembers] at hqueda
  rw [Channel.sub1FromChannel, cambia_desenlaza]
  exact hqueda.de (by rw [canal_sin]) fun _ _ ↦ Iff.rfl

/-- When only zombies are left, they all go out. -/
theorem Censo.saca (h : Censo s) {fuel : Nat} (hchptr : chptr ∈ s.enUso)
    (hsptr : sptr ∈ s.miembros chptr) (hfuel : (s.canal chptr).members.length ≤ fuel) :
    ∃ s', saca chptr false fuel sptr s = some s' ∧ chptr ∈ s'.enUso ∧
      Queda s (Channel.sub1FromChannel chptr s') chptr [] := by
  induction fuel generalizing s sptr with
  | zero =>
      have hnil := List.length_eq_zero_iff.mp (Nat.le_zero.mp hfuel)
      rw [Red.miembros, hnil] at hsptr
      cases hsptr
  | succ fuel ih =>
      have hqueda := h.sub1_desenlaza hchptr hsptr
      have hcanal : ((desenlaza chptr sptr s).canal chptr).members =
          (s.canal chptr).members.eraseP (esDe sptr) := by
        simp [desenlaza, Red.cambia]
      rw [Channel.saca, if_pos hchptr]
      simp only [Bool.false_eq_true, if_false]
      rw [hcanal]
      cases hrest : (s.canal chptr).members.eraseP (esDe sptr) with
      | nil =>
          rw [hrest] at hqueda
          exact ⟨_, rfl, hchptr, hqueda⟩
      | cons m rest =>
          rw [hrest] at hqueda
          have hne : m :: rest ≠ [] := List.cons_ne_nil _ _
          have hlength := length_eraseP hsptr
          rw [hrest] at hlength
          have hmem : m.cptr ∈
              (Channel.sub1FromChannel chptr (desenlaza chptr sptr s)).miembros chptr := by
            rw [Red.miembros, hqueda.members]
            exact List.mem_cons_self
          obtain ⟨s', hsaca, henUso, hfin⟩ := ih hqueda.censo (hqueda.enUso.mpr (Or.inl hne)) hmem
            (by rw [hqueda.members, hlength]; omega)
          exact ⟨s', hsaca, henUso, hfin.de (hqueda.mode hne) hqueda.otros⟩

/-- A member goes out. Either members stay of whom not all are zombies, or all go. -/
theorem Censo.removeUserFromChannel (h : Censo s) (hchptr : chptr ∈ s.enUso)
    (hsptr : sptr ∈ s.miembros chptr) :
    ∃ s' members, removeUserFromChannel sptr chptr s = some s' ∧ Queda s s' chptr members ∧
      (members = [] ∨ ∃ m ∈ members, .zombie ∉ m.flags) := by
  rw [Channel.removeUserFromChannel]
  cases hlp : (s.canal chptr).members.any fun m ↦ !(.zombie ∈ m.flags ∨ m.cptr = sptr) with
  | true =>
      have hqueda := h.sub1_desenlaza hchptr hsptr
      refine ⟨_, _, ?_, hqueda, Or.inr ?_⟩
      · simp only [Channel.saca, if_pos hchptr, if_true]
        exact if_pos hchptr
      · obtain ⟨m, hm, hno⟩ := List.any_eq_true.mp hlp
        simp only [Bool.not_eq_true', decide_eq_false_iff_not, not_or] at hno
        have hother : ¬esDe sptr m = true := by simpa [esDe] using hno.2
        exact ⟨m, (List.mem_eraseP_of_neg hother).mpr hm, hno.1⟩
  | false =>
      obtain ⟨s', hsaca, henUso, hqueda⟩ :=
        h.saca hchptr hsptr (Nat.le_succ (s.canal chptr).members.length)
      refine ⟨_, [], ?_, hqueda, Or.inl rfl⟩
      simp only [hsaca, if_pos henUso]

end Ircd.Channel
