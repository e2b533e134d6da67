import Ircd.Channel.Census

/-!
# Runs of the channels

The calls of the functions of `Ircd.Channel.Census` and the states that they lead to. The main
theorem, `consistente_alcanza`, is about the runs in which `sub1_from_channel` is only called for a
channel without members, which is how the program calls it; `not_users_alcanza` is a run in which
it is called for one that has a member.
-/

namespace Ircd.Channel

open CString Hash

/-- A call. The mark of a zombie and a change of modes are made by other functions. -/
inductive Llamada (γ κ : Type) where
  | getChannel (mio : Bool) (chname : CStr) (create : Bool)
  | addUserToChannel (chptr : γ) (who : κ) (flags : Finset Chfl)
  | removeUserFromChannel (sptr : κ) (chptr : γ)
  | sub1FromChannel (chptr : γ)
  | hazZombie (chptr : γ) (who : κ)
  | addInvite (cptr : κ) (chptr : γ)
  | delInvite (cptr : κ) (chptr : γ)
  | conMode (chptr : γ) (mode : Finset Modo)

section

variable {γ κ : Type} [DecidableEq γ] [DecidableEq κ] [Fintype γ]

/-- The state after a call. -/
def Llamada.aplica (sys : Watch.Malloc γ) (maximo : Nat) (s : Red γ κ) :
    Llamada γ κ → Option (Red γ κ)
  | .getChannel mio chname create => (Channel.getChannel sys mio chname create s).map Prod.snd
  | .addUserToChannel chptr who flags => some (Channel.addUserToChannel chptr who flags s)
  | .removeUserFromChannel sptr chptr => Channel.removeUserFromChannel sptr chptr s
  | .sub1FromChannel chptr => some (Channel.sub1FromChannel chptr s)
  | .hazZombie chptr who => some (Channel.hazZombie chptr who s)
  | .addInvite cptr chptr => some (Channel.addInvite maximo cptr chptr s)
  | .delInvite cptr chptr => some (Channel.delInvite cptr chptr s)
  | .conMode chptr mode => some (s.cambia chptr fun c ↦ { c with mode := mode })

omit [DecidableEq γ] [DecidableEq κ] [Fintype γ] in
/-- A user is only added who is not on the channel, and a member is removed. -/
def Llamada.Pedida (s : Red γ κ) : Llamada γ κ → Prop
  | .getChannel _ _ _ => True
  | .addUserToChannel chptr who _ => chptr ∈ s.enUso ∧ who ∉ s.miembros chptr
  | .removeUserFromChannel sptr chptr => chptr ∈ s.enUso ∧ sptr ∈ s.miembros chptr
  | .hazZombie chptr who => chptr ∈ s.enUso ∧ who ∈ s.miembros chptr
  | .sub1FromChannel chptr | .addInvite _ chptr | .delInvite _ chptr | .conMode chptr _ =>
      chptr ∈ s.enUso

omit [DecidableEq γ] [DecidableEq κ] [Fintype γ] in
/-- A call as the program makes it: `sub1_from_channel` is for a channel without members. -/
def Llamada.Permitida (s : Red γ κ) (l : Llamada γ κ) : Prop :=
  l.Pedida s ∧ ∀ chptr, l = .sub1FromChannel chptr → (s.canal chptr).members = []

/-- The states that calls of a kind lead to. -/
inductive Alcanza (clase : Red γ κ → Llamada γ κ → Prop) (sys : Watch.Malloc γ) (maximo : Nat)
    (inicial : Red γ κ) : Red γ κ → Prop where
  | inicio : Alcanza clase sys maximo inicial inicial
  | paso {s s' : Red γ κ} {l : Llamada γ κ} (h : Alcanza clase sys maximo inicial s)
      (hl : clase s l) (haplica : l.aplica sys maximo s = some s') :
      Alcanza clase sys maximo inicial s'

/-- The state without channels. -/
def Red.inicial (user : κ → Bool) : Red γ κ where
  canal _ := Canal.nuevo
  lista := ⟨fun _ ↦ none, fun _ ↦ none, none⟩
  tabla := ⟨fun _ ↦ none, fun _ ↦ none, fun _ ↦ []⟩
  enUso := ∅
  nrofChannels := 0
  user := user
  channel _ := []
  joined _ := 0
  invited _ := []

omit [Fintype γ] [DecidableEq κ] [DecidableEq γ] in
theorem censo_inicial (user : κ → Bool) : Censo (Red.inicial user : Red γ κ) where
  vinculos := Incidence.empty
  invitaciones := Incidence.empty
  users _ := rfl
  joined _ := rfl
  libre _ _ := ⟨rfl, rfl, rfl⟩
  tabla := Coherente.vacia ⟨fun _ ↦ none, fun _ ↦ none, fun _ ↦ []⟩
  lista := ⟨[], ⟨rfl, trivial⟩, by simp [Red.inicial]⟩
  nrofChannels := rfl

/-- A call that takes a member or an empty channel away. -/
def Llamada.Resta (chptr : γ) : Llamada γ κ → Prop
  | .removeUserFromChannel _ c | .sub1FromChannel c => c = chptr
  | _ => False

variable {s s' : Red γ κ} {sys : Watch.Malloc γ} {maximo : Nat}

/-- A permitted call keeps the census. -/
theorem Censo.aplica (h : Censo s) {l : Llamada γ κ} (hl : l.Permitida s)
    (haplica : l.aplica sys maximo s = some s') : Censo s' := by
  obtain ⟨hl, hsub⟩ := hl
  cases l with
  | getChannel mio chname create =>
      obtain ⟨⟨r, s''⟩, hget, rfl⟩ := Option.map_eq_some_iff.mp haplica
      exact h.getChannel sys hget
  | addUserToChannel chptr who flags =>
      obtain rfl := Option.some.inj haplica
      exact h.addUserToChannel hl.1 hl.2 flags
  | removeUserFromChannel sptr chptr =>
      obtain ⟨s'', members, hremove, hqueda, -⟩ := h.removeUserFromChannel hl.1 hl.2
      obtain rfl := Option.some.inj (haplica.symm.trans hremove)
      exact hqueda.censo
  | sub1FromChannel chptr =>
      obtain rfl := Option.some.inj haplica
      exact (h.sub1FromChannel hl (hsub chptr rfl)).censo
  | hazZombie chptr who =>
      obtain rfl := Option.some.inj haplica
      exact h.hazZombie hl.1 who
  | addInvite cptr chptr =>
      obtain rfl := Option.some.inj haplica
      exact h.addInvite hl maximo cptr
  | delInvite cptr chptr =>
      obtain rfl := Option.some.inj haplica
      exact h.delInvite hl cptr
  | conMode chptr mode =>
      obtain rfl := Option.some.inj haplica
      exact h.conMode hl mode

/-- A run of permitted calls keeps the census. -/
theorem censo_alcanza {user : κ → Bool}
    (h : Alcanza (fun s l ↦ Llamada.Permitida s l) sys maximo (Red.inicial user) s) : Censo s := by
  induction h with
  | inicio => exact censo_inicial user
  | paso _ hl haplica ih => exact ih.aplica hl haplica

/-! ## What a call frees -/

omit [DecidableEq κ] in
/-- No block is freed when a channel is looked for. -/
theorem enUso_getChannel {mio create : Bool} {chname : CStr} {r : Option γ}
    (hget : getChannel sys mio chname create s = some (r, s')) : s.enUso ⊆ s'.enUso := by
  rw [getChannel] at hget
  split at hget
  · obtain ⟨-, rfl⟩ := Prod.mk.inj (Option.some.inj hget)
    exact subset_rfl
  · dsimp only at hget
    split at hget
    · obtain ⟨-, rfl⟩ := Prod.mk.inj (Option.some.inj hget)
      exact subset_rfl
    · split at hget
      · split at hget
        · cases hget
        · obtain ⟨-, rfl⟩ := Prod.mk.inj (Option.some.inj hget)
          exact Finset.subset_insert _ _
      · obtain ⟨-, rfl⟩ := Prod.mk.inj (Option.some.inj hget)
        exact subset_rfl

omit [Fintype γ] in
theorem enUso_addUserToChannel (s : Red γ κ) (chptr : γ) (who : κ) (flags : Finset Chfl) :
    (addUserToChannel chptr who flags s).enUso = s.enUso := by
  rw [addUserToChannel]
  split <;> rfl

omit [Fintype γ] in
theorem enUso_addInvite (s : Red γ κ) (cptr : κ) (chptr : γ) :
    (addInvite maximo cptr chptr s).enUso = s.enUso := by
  rw [addInvite]
  split
  · split <;> rfl
  · rfl

/-- A block is freed when an operation leaves it without members, and it is not registered. -/
def Llamada.Libera (s s' : Red γ κ) (l : Llamada γ κ) : Prop :=
  ∀ c ∈ s.enUso, c ∉ s'.enUso ↔
    l.Resta c ∧ (s'.canal c).members = [] ∧ .regchan ∉ (s.canal c).mode

omit [DecidableEq γ] [DecidableEq κ] [Fintype γ] in
/-- A call that takes nothing away frees nothing. -/
theorem libera_of_subset {l : Llamada γ κ} (hsub : s.enUso ⊆ s'.enUso)
    (hresta : ∀ c, ¬l.Resta c) : l.Libera s s' := fun c hc ↦
  iff_of_false (not_not.mpr (hsub hc)) fun hall ↦ hresta c hall.1

omit [DecidableEq γ] [DecidableEq κ] [Fintype γ] in
/-- What is left of a channel tells whether it is freed. -/
theorem Queda.libera {chptr : γ} {quedan : List (Miembro κ)} (h : Queda s s' chptr quedan)
    {l : Llamada γ κ} (hl : ∀ c, l.Resta c ↔ chptr = c) : l.Libera s s' := by
  intro c hc
  rw [hl]
  by_cases hcc : chptr = c
  · subst hcc
    rw [h.enUso, h.members]
    tauto
  · rw [h.otros c (Ne.symm hcc)]
    exact iff_of_false (not_not.mpr hc) fun hall ↦ hcc hall.1

/-- A permitted call frees what it has to, and no other block. -/
theorem Censo.libera_aplica (h : Censo s) {l : Llamada γ κ} (hl : l.Permitida s)
    (haplica : l.aplica sys maximo s = some s') : l.Libera s s' := by
  obtain ⟨hl, hsub⟩ := hl
  cases l with
  | getChannel mio chname create =>
      obtain ⟨⟨r, s''⟩, hget, rfl⟩ := Option.map_eq_some_iff.mp haplica
      exact libera_of_subset (enUso_getChannel hget) fun _ ↦ id
  | addUserToChannel chptr who flags =>
      obtain rfl := Option.some.inj haplica
      exact libera_of_subset (enUso_addUserToChannel s chptr who flags).superset fun _ ↦ id
  | removeUserFromChannel sptr chptr =>
      obtain ⟨s'', members, hremove, hqueda, -⟩ := h.removeUserFromChannel hl.1 hl.2
      obtain rfl := Option.some.inj (haplica.symm.trans hremove)
      exact hqueda.libera fun _ ↦ Iff.rfl
  | sub1FromChannel chptr =>
      obtain rfl := Option.some.inj haplica
      exact (h.sub1FromChannel hl (hsub chptr rfl)).libera fun _ ↦ Iff.rfl
  | addInvite cptr chptr =>
      obtain rfl := Option.some.inj haplica
      exact libera_of_subset (enUso_addInvite s cptr chptr).superset fun _ ↦ id
  | hazZombie | delInvite | conMode =>
      obtain rfl := Option.some.inj haplica
      exact libera_of_subset subset_rfl fun _ ↦ id

/-- A permitted call fails only for want of memory. -/
theorem Censo.aplica_eq_none (h : Censo s) {l : Llamada γ κ} (hl : l.Permitida s)
    (hnone : l.aplica sys maximo s = none) :
    ∃ mio chname create, l = .getChannel mio chname create := by
  cases l with
  | getChannel mio chname create => exact ⟨mio, chname, create, rfl⟩
  | removeUserFromChannel sptr chptr =>
      obtain ⟨s', members, hremove, -⟩ := h.removeUserFromChannel hl.1.1 hl.1.2
      cases hnone.symm.trans hremove
  | _ => cases hnone

/-! ## The census in the words of the program -/

/-- The links, the counters and the tables of the channels agree. -/
structure Consistente (s : Red γ κ) : Prop where
  users : ∀ c, (s.canal c).users = (s.canal c).members.length
  unaVez : ∀ c u, (s.miembros c).count u = (s.channel u).count c ∧ (s.miembros c).count u ≤ 1
  joined : ∀ u, s.joined u = (s.channel u).length
  libre : ∀ c, c ∉ s.enUso → (s.canal c).members = [] ∧ (s.canal c).invites = [] ∧
    (s.canal c).banlist = [] ∧ ∀ u, c ∉ s.channel u ∧ c ∉ s.invited u
  hash : UnaVez s.tabla s.enUso
  lista : ∃ xs, s.lista.Holds xs ∧ xs.Nodup ∧ ∀ c, c ∈ xs ↔ c ∈ s.enUso
  nrofChannels : s.nrofChannels = s.enUso.card

omit [Fintype γ] in
theorem Censo.consistente (h : Censo s) : Consistente s where
  users := h.users
  unaVez c u := by
    have hleft := List.nodup_iff_count_le_one.mp (h.vinculos.nodup_left c) u
    have hright := List.nodup_iff_count_le_one.mp (h.vinculos.nodup_right u) c
    have hmem := h.vinculos.mem_iff c u
    rw [← List.count_pos_iff, ← List.count_pos_iff] at hmem
    omega
  joined := h.joined
  libre c hc := by
    obtain ⟨hmembers, hinvites, hbanlist⟩ := h.libre c hc
    refine ⟨hmembers, hinvites, hbanlist, fun u ↦ ⟨?_, fun hu ↦ hc (h.enUso_of_invited hu)⟩⟩
    rw [← h.vinculos.mem_iff, Red.miembros, hmembers]
    exact List.not_mem_nil
  hash := h.tabla.unaVez
  lista := by
    obtain ⟨xs, hxs, hmem⟩ := h.lista
    exact ⟨xs, hxs, hxs.links.nodup, hmem⟩
  nrofChannels := h.nrofChannels

/-- What a call does: it reads no freed block, it frees the blocks that it has to, and a removal does
not leave zombies alone. -/
structure Efecto (sys : Watch.Malloc γ) (maximo : Nat) (s : Red γ κ) (l : Llamada γ κ) : Prop where
  falla : l.aplica sys maximo s = none → ∃ mio chname create, l = .getChannel mio chname create
  libera : ∀ s', l.aplica sys maximo s = some s' → l.Libera s s'
  zombies : ∀ s' sptr chptr, l = .removeUserFromChannel sptr chptr →
    l.aplica sys maximo s = some s' →
    (s'.canal chptr).members = [] ∨ ∃ m ∈ (s'.canal chptr).members, .zombie ∉ m.flags

/-- In every state that the calls of the program lead to, links, counters and tables agree, and each
further call frees exactly the blocks without members that are not registered. -/
theorem consistente_alcanza (sys : Watch.Malloc γ) (maximo : Nat) (user : κ → Bool) (s : Red γ κ)
    (h : Alcanza (fun s l ↦ Llamada.Permitida s l) sys maximo (Red.inicial user) s) :
    Consistente s ∧ ∀ l : Llamada γ κ, l.Permitida s → Efecto sys maximo s l := by
  have hcenso := censo_alcanza h
  refine ⟨hcenso.consistente, fun l hl ↦ ⟨hcenso.aplica_eq_none hl,
    fun s' ↦ hcenso.libera_aplica hl, fun s' sptr chptr hremove haplica ↦ ?_⟩⟩
  subst hremove
  obtain ⟨s'', members, hremove, hqueda, hzombies⟩ :=
    hcenso.removeUserFromChannel hl.1.1 hl.1.2
  obtain rfl := Option.some.inj (haplica.symm.trans hremove)
  rwa [hqueda.members]

end

/-! ## A channel with one member -/

/-- A memory for one channel. -/
def unBloque : Watch.Malloc (Fin 1) where
  pide d := if d = ∅ then some ⟨0, Nat.zero_lt_one⟩ else none
  libre d p h := by
    split at h
    · next hd => rw [hd]; exact Finset.notMem_empty p
    · cases h

/-- A new channel. -/
def unCanal : Red (Fin 1) Unit :=
  ((Llamada.getChannel true "#irc".toList true).aplica unBloque 10 (Red.inicial fun _ ↦ true)).get
    (by decide)

/-- The channel with a member. -/
def conUno : Red (Fin 1) Unit :=
  addUserToChannel ⟨0, Nat.zero_lt_one⟩ () ∅ unCanal

theorem alcanza_unCanal (clase : Red (Fin 1) Unit → Llamada (Fin 1) Unit → Prop)
    (h : ∀ s mio chname create, clase s (.getChannel mio chname create)) :
    Alcanza clase unBloque 10 (Red.inicial fun _ ↦ true) unCanal :=
  .paso .inicio (h _ true "#irc".toList true) (Option.some_get _).symm

/-- A new channel for two users. -/
def canalDos : Red (Fin 1) Bool :=
  ((Llamada.getChannel true "#irc".toList true).aplica unBloque 10 (Red.inicial fun _ ↦ true)).get
    (by decide)

/-- The channel with an operator. -/
def conOp : Red (Fin 1) Bool :=
  addUserToChannel ⟨0, Nat.zero_lt_one⟩ true {.chanop} canalDos

/-- The operator has invited another user, who is on the channel now. -/
def conDos : Red (Fin 1) Bool :=
  addUserToChannel ⟨0, Nat.zero_lt_one⟩ false ∅ (addInvite 10 false ⟨0, Nat.zero_lt_one⟩ conOp)

/-- The other user has been kicked, and is a zombie until the `PART` comes. -/
def conZombie : Red (Fin 1) Bool :=
  hazZombie ⟨0, Nat.zero_lt_one⟩ false (delInvite false ⟨0, Nat.zero_lt_one⟩ conDos)

/-- The state with a zombie agrees. -/
theorem consistente_alcanza_zombie : Consistente conZombie ∧
    ∀ l : Llamada (Fin 1) Bool, l.Permitida conZombie → Efecto unBloque 10 conZombie l := by
  refine consistente_alcanza unBloque 10 (fun _ ↦ true) conZombie ?_
  have hcanal : Alcanza (fun s l ↦ Llamada.Permitida s l) unBloque 10 (Red.inicial fun _ ↦ true)
      canalDos :=
    .paso (l := .getChannel true "#irc".toList true) .inicio ⟨trivial, by simp⟩
      (Option.some_get _).symm
  have hop : Alcanza (fun s l ↦ Llamada.Permitida s l) unBloque 10 (Red.inicial fun _ ↦ true)
      conOp :=
    .paso (l := .addUserToChannel 0 true {.chanop}) hcanal ⟨⟨by decide, by decide⟩, by simp⟩ rfl
  have hdos : Alcanza (fun s l ↦ Llamada.Permitida s l) unBloque 10 (Red.inicial fun _ ↦ true)
      conDos :=
    .paso (l := .addUserToChannel 0 false ∅)
      (.paso (l := .addInvite false 0) hop
        ⟨show (0 : Fin 1) ∈ conOp.enUso by decide, by simp⟩ rfl)
      ⟨⟨by decide, by decide⟩, by simp⟩ rfl
  exact .paso (l := .hazZombie 0 false)
    (.paso (l := .delInvite false 0) hdos
      ⟨show (0 : Fin 1) ∈ conDos.enUso by decide, by simp⟩ rfl)
    ⟨⟨by decide, by decide⟩, by simp⟩ rfl

/-- After `sub1_from_channel` for a channel with a member, the counter is 0, and the block is freed
with the link to the member. -/
theorem not_users_alcanza :
    ¬∀ s : Red (Fin 1) Unit,
      Alcanza (fun s l ↦ Llamada.Pedida s l) unBloque 10 (Red.inicial fun _ ↦ true) s →
        ∀ c, (s.canal c).users = (s.canal c).members.length := by
  intro h
  have husers := h (sub1FromChannel 0 conUno)
    (.paso (l := .sub1FromChannel 0)
      (.paso (l := .addUserToChannel 0 () ∅) (alcanza_unCanal _ fun _ _ _ _ ↦ trivial)
        ⟨by decide, by decide⟩ rfl)
      (show (0 : Fin 1) ∈ conUno.enUso by decide) rfl) 0
  revert husers
  decide

end Ircd.Channel
