import Ircd.Channel.Changes
import Ircd.Lib.Run

/-!
# Locks on modes

`mascara_canal_flags` of `ircd/channel.c` reads the modes of a registered channel, and `ircd/s_bdd.c`
locks the channel with them. The main result is `candados_run`: a request that `set_mode_local`
applies leaves the modes on that are locked on, off those that are locked off, and `r` as it was, and
a channel is never private and secret at once.
-/

namespace Ircd.Channel

open CString Hash Run

/-! ## The masks -/

/-- The loop of `mascara_canal_flags`. -/
def leeMascara : Signo → CStr → Finset Modo × Finset Modo → Finset Modo × Finset Modo
  | _, [], x => x
  | modo, c :: p, (add, del) =>
      if c = nul ∨ c = ' ' ∨ c = '\t' then (add, del)
      else if c = '+' then leeMascara .add p (add, del)
      else if c = '-' then leeMascara .del p (add, del)
      else
        match canalFlags.find? fun ip ↦ ip.2 = c with
        | none => leeMascara modo p (add, del)
        | some (i, _) =>
            leeMascara modo p
              (match modo with
              | .add => (insert i add, del)
              | .del => (add, insert i del))

/-- `mascara_canal_flags`. -/
def mascaraCanalFlags (modos : CStr) : Finset Modo × Finset Modo :=
  let (add, del) := leeMascara .add modos (∅, ∅)
  let add := if .private ∈ add ∧ .secret ∈ add then add.erase .private else add
  let del := if .private ∈ add then insert .secret del else del
  let del := if .secret ∈ add then insert .private del else del
  (add, del \ add)

/-- The modes of `crea_canal_persistente`, for a channel that it has found or made. -/
def creaCanalPersistente {κ : Type} (modes : CStr) (virgen : Bool) (canal : Canal κ) : Canal κ :=
  let (add, del) := mascaraCanalFlags modes
  { canal with
    modosObligatorios := insert .regchan add
    modosProhibidos := del.erase .regchan
    mode := insert .regchan
      (if virgen then ((canal.mode \ del) ∪ add) \ MODE_WPARAS else canal.mode) }

/-- The modes of a channel whose register is taken out. -/
def borraCanalPersistente {κ : Type} (canal : Canal κ) : Canal κ :=
  if .regchan ∈ canal.mode then
    { canal with
      mode := canal.mode.erase .regchan
      modosObligatorios := ∅
      modosProhibidos := ∅ }
  else canal

/-- A channel cannot be private and secret. -/
def Excluye (modos : Finset Modo) : Prop :=
  ¬ (.private ∈ modos ∧ .secret ∈ modos)

/-- The masks of a register: what is locked on is not locked off, and `p` and `s` are never locked on
together. -/
theorem mascara_disjoint (modos : CStr) :
    Disjoint (mascaraCanalFlags modos).1 (mascaraCanalFlags modos).2 ∧
      Excluye (mascaraCanalFlags modos).1 := by
  refine ⟨Finset.disjoint_sdiff, ?_⟩
  unfold mascaraCanalFlags Excluye
  dsimp only
  split_ifs with h <;> grind

/-- Where `p` is locked on, `s` is locked off. -/
theorem mascara_private {modos : CStr} (h : .private ∈ (mascaraCanalFlags modos).1) :
    .secret ∈ (mascaraCanalFlags modos).2 := by
  have hs : Modo.secret ∉ (mascaraCanalFlags modos).1 := fun hs ↦ (mascara_disjoint modos).2 ⟨h, hs⟩
  unfold mascaraCanalFlags at h hs ⊢
  dsimp only at h hs ⊢
  grind

/-- Where `s` is locked on, `p` is locked off. -/
theorem mascara_secret {modos : CStr} (h : .secret ∈ (mascaraCanalFlags modos).1) :
    .private ∈ (mascaraCanalFlags modos).2 := by
  have hp : Modo.private ∉ (mascaraCanalFlags modos).1 := fun hp ↦ (mascara_disjoint modos).2 ⟨hp, h⟩
  unfold mascaraCanalFlags at h hp ⊢
  dsimp only at h hp ⊢
  grind

/-! ## The locks of a channel -/

/-- A channel has no locks, or those of the modes of a register. -/
def Canal.Cerrado {κ : Type} (canal : Canal κ) : Prop :=
  canal.modosObligatorios = ∅ ∧ canal.modosProhibidos = ∅ ∨
    .regchan ∈ canal.mode ∧ ∃ modes,
      canal.modosObligatorios = insert .regchan (mascaraCanalFlags modes).1 ∧
      canal.modosProhibidos = (mascaraCanalFlags modes).2.erase .regchan

/-- What the locks and the modes of a channel are like. -/
structure Candado {κ : Type} (canal : Canal κ) : Prop where
  regchan : .regchan ∈ canal.modosObligatorios → .regchan ∈ canal.mode
  abierto : .regchan ∉ canal.modosProhibidos
  ajenos : Disjoint canal.modosObligatorios canal.modosProhibidos
  privado : .private ∈ canal.modosObligatorios → .secret ∈ canal.modosProhibidos
  secreto : .secret ∈ canal.modosObligatorios → .private ∈ canal.modosProhibidos
  excluye : Excluye canal.mode

section

variable {κ : Type} {canal : Canal κ} {modes : CStr} {virgen : Bool} {newmode : Finset Modo}

/-- The locks of a channel. -/
theorem Canal.Cerrado.candado (h : canal.Cerrado) (hexcluye : Excluye canal.mode) :
    Candado canal := by
  rcases h with ⟨hobl, hpro⟩ | ⟨hreg, modes, hobl, hpro⟩
  · refine ⟨?_, ?_, ?_, ?_, ?_, hexcluye⟩ <;> simp [hobl, hpro]
  · obtain ⟨hdisjoint, -⟩ := mascara_disjoint modes
    refine ⟨fun _ ↦ hreg, hpro ▸ Finset.notMem_erase _ _, ?_, ?_, ?_, hexcluye⟩
    · rw [hobl, hpro]
      rw [Finset.disjoint_left] at hdisjoint ⊢
      intro m hm
      rcases Finset.mem_insert.mp hm with rfl | hm
      · exact Finset.notMem_erase _ _
      · exact fun hdel ↦ hdisjoint hm (Finset.mem_of_mem_erase hdel)
    · rw [hobl, hpro]
      intro hp
      have hp := (Finset.mem_insert.mp hp).resolve_left (by decide)
      exact Finset.mem_erase.mpr ⟨by decide, mascara_private hp⟩
    · rw [hobl, hpro]
      intro hs
      have hs := (Finset.mem_insert.mp hs).resolve_left (by decide)
      exact Finset.mem_erase.mpr ⟨by decide, mascara_secret hs⟩

/-- A register locks a channel. -/
theorem cerrado_crea (modes : CStr) (virgen : Bool) (canal : Canal κ) :
    (creaCanalPersistente modes virgen canal).Cerrado :=
  .inr ⟨Finset.mem_insert_self _ _, modes, rfl, rfl⟩

/-- A register keeps `p` and `s` apart. -/
theorem excluye_crea (h : Excluye canal.mode) :
    Excluye (creaCanalPersistente modes virgen canal).mode := by
  obtain ⟨hdisjoint, hexcluye⟩ := mascara_disjoint modes
  have hp := @mascara_private modes
  have hs := @mascara_secret modes
  rw [Finset.disjoint_left] at hdisjoint
  unfold Excluye creaCanalPersistente MODE_WPARAS at *
  cases virgen <;> simp <;> grind

/-- A register locks a channel with its modes. -/
theorem Candado.crea (h : Candado canal) : Candado (creaCanalPersistente modes virgen canal) :=
  (cerrado_crea modes virgen canal).candado (excluye_crea h.excluye)

/-- A register that is taken out takes its locks with it. -/
theorem Candado.borra (h : Candado canal) : Candado (borraCanalPersistente canal) := by
  unfold borraCanalPersistente
  split_ifs with hreg
  · exact ⟨fun h ↦ absurd h (Finset.notMem_empty _), Finset.notMem_empty _,
      Finset.disjoint_empty_left _, fun h ↦ absurd h (Finset.notMem_empty _),
      fun h ↦ absurd h (Finset.notMem_empty _),
      fun hps ↦ h.excluye ⟨Finset.mem_of_mem_erase hps.1, Finset.mem_of_mem_erase hps.2⟩⟩
  · exact h

/-- What is locked on is on. -/
theorem mem_nuevoModo_obligatorio {m : Modo} (hm : m ∈ canal.modosObligatorios)
    (hsimple : m ∉ MODE_WPARAS) : m ∈ nuevoModo canal newmode :=
  Finset.mem_sdiff.mpr ⟨Finset.mem_union_right _ hm, hsimple⟩

/-- What is locked off is off. -/
theorem Candado.not_mem_nuevoModo (h : Candado canal) {m : Modo}
    (hm : m ∈ canal.modosProhibidos) : m ∉ nuevoModo canal newmode := by
  have hnot : m ∉ canal.modosObligatorios := fun hobl ↦ Finset.disjoint_left.mp h.ajenos hobl hm
  simp [nuevoModo, hm, hnot]

/-- `r` stays as it is. -/
theorem Candado.regchan_nuevoModo (h : Candado canal) :
    .regchan ∈ nuevoModo canal newmode ↔ .regchan ∈ canal.mode := by
  have hobl := h.regchan
  have hpro := h.abierto
  unfold nuevoModo
  by_cases hreg : .regchan ∈ canal.mode <;> simp [hreg, hpro, MODE_WPARAS]
  exact fun h ↦ hreg (hobl h)

/-- `p` and `s` still exclude each other. -/
theorem Candado.excluye_nuevoModo (h : Candado canal) (hnew : Excluye newmode) :
    Excluye (nuevoModo canal newmode) := by
  rintro ⟨hp, hs⟩
  -- Neither of them is locked on, since the other one is on.
  have hpobl : .private ∉ canal.modosObligatorios := fun hobl ↦
    h.not_mem_nuevoModo (h.privado hobl) hs
  have hsobl : .secret ∉ canal.modosObligatorios := fun hobl ↦
    h.not_mem_nuevoModo (h.secreto hobl) hp
  unfold nuevoModo at hp hs
  by_cases hreg : .regchan ∈ canal.mode <;> simp [hreg, hpobl, hsobl] at hp hs <;>
    exact hnew ⟨hp.1.1, hs.1.1⟩

end

/-! ## The modes of a request -/

section

variable {γ κ : Type} [DecidableEq γ] [DecidableEq κ] {e : Entorno κ} {canal : Canal κ}
  {l l' : Lectura κ} {chptr : γ} {s s' : Red γ κ}

omit [DecidableEq κ] in
/-- The letters of `canal_flags` keep `p` and `s` apart. -/
theorem excluye_simple (c : Char) (h : Excluye l.newmode) : Excluye (l.simple c).newmode := by
  unfold Lectura.simple
  split
  · exact h
  · split
    · unfold Excluye at h ⊢
      dsimp only
      split_ifs <;> grind
    · exact fun hps ↦ h ⟨Finset.mem_of_mem_erase hps.1, Finset.mem_of_mem_erase hps.2⟩

theorem newmode_miembro (c : Char) : (l.miembro e canal c).newmode = l.newmode := by
  unfold Lectura.miembro
  dsimp only
  repeat' split
  all_goals rfl

omit [DecidableEq κ] in
theorem newmode_clave : (l.clave canal).newmode = l.newmode := by
  unfold Lectura.clave
  dsimp only
  repeat' split
  all_goals rfl

omit [DecidableEq κ] in
theorem newmode_ban : (l.ban canal).newmode = l.newmode := by
  unfold Lectura.ban
  dsimp only
  repeat' split
  all_goals rfl

omit [DecidableEq κ] in
theorem newmode_leeNusers : l.leeNusers.newmode = l.newmode := by
  unfold Lectura.leeNusers
  dsimp only
  repeat' split
  all_goals rfl

omit [DecidableEq κ] in
theorem newmode_limite : (l.limite canal).newmode = l.newmode := by
  have hlee : { l with parc := l.parc - 1 }.leeNusers.newmode = l.newmode :=
    newmode_leeNusers (l := { l with parc := l.parc - 1 })
  unfold Lectura.limite
  dsimp only
  repeat' split
  all_goals first | rfl | exact hlee

omit [DecidableEq κ] in
theorem newmode_avanza : l.avanza.newmode = l.newmode := by
  unfold Lectura.avanza
  split <;> rfl

/-- Every letter keeps `p` and `s` apart. -/
theorem excluye_letra (c : Char) (h : Excluye l.newmode) :
    Excluye (l.letra e canal c).newmode := by
  unfold Lectura.letra
  split
  · exact h
  · exact h
  · rwa [newmode_miembro]
  · rwa [newmode_miembro]
  · rwa [newmode_clave]
  · rwa [newmode_ban]
  · rwa [newmode_limite]
  · exact h
  · split
    · exact excluye_simple _ h
    · exact h
  · exact excluye_simple _ h

/-- The loop keeps `p` and `s` apart. -/
theorem excluye_leeModos {fuel : Nat} (h : Excluye l.newmode)
    (hlee : leeModos e chptr fuel l s = some (l', s')) : Excluye l'.newmode := by
  induction fuel generalizing l s with
  | zero => cases hlee
  | succ fuel ih =>
      rw [leeModos] at hlee
      cases hcurr : l.curr with
      | nil =>
          rw [hcurr] at hlee
          cases hlee
          exact h
      | cons c curr =>
          rw [hcurr] at hlee
          refine ih ?_ hlee
          show Excluye (Lectura.avanza _).newmode
          rw [newmode_avanza]
          exact excluye_letra (l := { l with curr := curr }) c h

/-- The loop changes nothing of a channel but its invitations. -/
theorem modos_leeModos {fuel : Nat} (hlee : leeModos e chptr fuel l s = some (l', s')) :
    (s'.canal chptr).modos = (s.canal chptr).modos := by
  rw [leeModos_red hlee]
  split_ifs
  · rw [canal_quitaInvites]
    rfl
  · rfl

/-! ## Runs -/

/-- What happens to a channel: a register of it is read or taken out, or modes are asked for. -/
inductive Suceso (κ : Type) where
  | crea (modes : CStr) (virgen : Bool)
  | borra
  | modo (a : Autoridad κ) (parv : List CStr)

/-- The channels after it. -/
def Suceso.aplica (chptr : γ) (o : Suceso κ) (s : Red γ κ) : Red γ κ :=
  match o with
  | .crea modes virgen => s.cambia chptr (creaCanalPersistente modes virgen)
  | .borra => s.cambia chptr borraCanalPersistente
  | .modo a parv =>
      match setModeLocal a.toEntorno chptr parv s with
      | some (.cambia l s) => s.cambia chptr fun canal ↦ (cambiaModos a l canal).canal
      | some (.noMiembro s) => s
      | some (.sinPrivilegios _ s) => s
      | none => s

/-- The changes of a request are applied. -/
def Aplicada (a : Autoridad κ) (chptr : γ) (parv : List CStr) (s : Red γ κ) : Prop :=
  ∃ l s', setModeLocal a.toEntorno chptr parv s = some (.cambia l s') ∧
    a.bounce (s'.canal chptr) = false

/-- What the locks of a channel ask of a request that is applied. -/
structure Respeta (antes despues : Canal κ) : Prop where
  obligatorios : ∀ m ∈ antes.modosObligatorios, m ∉ MODE_WPARAS → m ∈ despues.mode
  prohibidos : ∀ m ∈ antes.modosProhibidos, m ∉ MODE_WPARAS → m ∉ despues.mode
  regchan : .regchan ∈ despues.mode ↔ .regchan ∈ antes.mode

omit [DecidableEq κ] in
/-- A channel with the modes and the locks of another one. -/
theorem Candado.congr {canal' : Canal κ} (h : Candado canal) (heq : canal'.modos = canal.modos) :
    Candado canal' := by
  obtain ⟨hmode, hlocks⟩ := Prod.mk.inj heq
  obtain ⟨hobl, hpro⟩ := Prod.mk.inj hlocks
  refine ⟨?_, ?_, ?_, ?_, ?_, ?_⟩
  · rw [hobl, hmode]
    exact h.regchan
  · rw [hpro]
    exact h.abierto
  · rw [hobl, hpro]
    exact h.ajenos
  · rw [hobl, hpro]
    exact h.privado
  · rw [hobl, hpro]
    exact h.secreto
  · rw [hmode]
    exact h.excluye

/-- The changes of a request that is applied. -/
theorem Candado.cambia (h : Candado canal) {a : Autoridad κ} (hbounce : a.bounce canal = false)
    (hnew : Excluye l.newmode) : Candado (cambiaModos a l canal).canal := by
  have hmode := mode_cambiaModos (l := l) hbounce
  have hlocks : (cambiaModos a l canal).canal.modos.2 = canal.modos.2 := candados_cambiaModos
  obtain ⟨hobl, hpro⟩ := Prod.mk.inj hlocks
  refine ⟨?_, ?_, ?_, ?_, ?_, ?_⟩
  · rw [hobl, hmode, h.regchan_nuevoModo]
    exact h.regchan
  · rw [hpro]
    exact h.abierto
  · rw [hobl, hpro]
    exact h.ajenos
  · rw [hobl, hpro]
    exact h.privado
  · rw [hobl, hpro]
    exact h.secreto
  · rw [hmode]
    exact h.excluye_nuevoModo hnew

/-- How the first half of a request ends. -/
theorem setModeLocal_cases (e : Entorno κ) (chptr : γ) (parv : List CStr) (s : Red γ κ) :
    setModeLocal e chptr parv s = some (.noMiembro s) ∨
      ∃ l s', leeModos e chptr (Lectura.inicio (s.canal chptr) parv).turnos
          (Lectura.inicio (s.canal chptr) parv) s = some (l, s') ∧
        ((∃ ret, setModeLocal e chptr parv s = some (.sinPrivilegios ret s')) ∨
          setModeLocal e chptr parv s = some (.cambia l s')) := by
  by_cases hmember : !e.servicesBot e.cptr ∧ isMember e.sptr (s.canal chptr) = none
  · exact .inl (if_pos hmember)
  · have hread : ∃ p, leeModos e chptr (Lectura.inicio (s.canal chptr) parv).turnos
        (Lectura.inicio (s.canal chptr) parv) s = some p :=
      Option.isSome_iff_exists.mp (isSome_leeModos le_rfl)
    obtain ⟨⟨l, s'⟩, hlee⟩ := hread
    refine .inr ⟨l, s', hlee, ?_⟩
    unfold setModeLocal
    dsimp only
    rw [if_neg hmember, hlee]
    dsimp only
    split
    · exact .inl ⟨_, rfl⟩
    · exact .inr rfl

omit [DecidableEq κ] in
/-- A channel after a change. -/
theorem canal_cambia (f : Canal κ → Canal κ) : (s.cambia chptr f).canal chptr = f (s.canal chptr) :=
  Function.update_self _ _ _

/-- What happens to a channel leaves its locks those of a register, or none, and `p` and `s` apart. -/
theorem Candado.aplica (h : Candado (s.canal chptr)) (o : Suceso κ) :
    Candado ((o.aplica chptr s).canal chptr) := by
  cases o with
  | crea modes virgen =>
      rw [Suceso.aplica, canal_cambia]
      exact h.crea
  | borra =>
      rw [Suceso.aplica, canal_cambia]
      exact h.borra
  | modo a parv =>
      rw [Suceso.aplica]
      rcases setModeLocal_cases a.toEntorno chptr parv s with hset | ⟨l, s', hlee, hset⟩
      · rw [hset]
        exact h
      · have hleido := h.congr (modos_leeModos hlee)
        rcases hset with ⟨ret, hset⟩ | hset
        · rw [hset]
          exact hleido
        · rw [hset]
          dsimp only
          rw [canal_cambia]
          cases hbounce : a.bounce (s'.canal chptr) with
          | true => exact hleido.congr (modos_cambiaModos_rebote hbounce)
          | false =>
              exact hleido.cambia hbounce (excluye_leeModos h.excluye hlee)

/-- What a request that is applied leaves. -/
theorem Candado.respeta (h : Candado (s.canal chptr)) {a : Autoridad κ} {parv : List CStr}
    (hap : Aplicada a chptr parv s) :
    Respeta (s.canal chptr) (((Suceso.modo a parv).aplica chptr s).canal chptr) := by
  obtain ⟨l, s', hset, hbounce⟩ := hap
  have hmodos : (s'.canal chptr).modos = (s.canal chptr).modos := by
    rcases setModeLocal_cases a.toEntorno chptr parv s with hno | ⟨l₁, s₁, hlee, ⟨ret, hno⟩ | hsi⟩
    · rw [hset] at hno
      cases hno
    · rw [hset] at hno
      cases hno
    · rw [hset] at hsi
      cases hsi
      exact modos_leeModos hlee
  obtain ⟨hmode, hlocks⟩ := Prod.mk.inj hmodos
  obtain ⟨hobl, hpro⟩ := Prod.mk.inj hlocks
  have hleido := h.congr hmodos
  have hfin : (((Suceso.modo a parv).aplica chptr s).canal chptr).mode =
      nuevoModo (s'.canal chptr) l.newmode := by
    rw [Suceso.aplica, hset]
    dsimp only
    rw [canal_cambia]
    exact mode_cambiaModos hbounce
  refine ⟨fun m hm hsimple ↦ ?_, fun m hm _ ↦ ?_, ?_⟩
  · rw [hfin]
    exact mem_nuevoModo_obligatorio (hobl ▸ hm) hsimple
  · rw [hfin]
    exact hleido.not_mem_nuevoModo (hpro ▸ hm)
  · rw [hfin, hleido.regchan_nuevoModo, hmode]

/-- The masks of a register exclude each other, and in every run from a channel that is not both
private and secret a request that is applied leaves the modes as the locks ask, and `p` and `s`
apart. -/
theorem candados_run (chptr : γ) (s : Red γ κ) (l : List (Suceso κ))
    (hcerrado : (s.canal chptr).Cerrado) (hexcluye : Excluye (s.canal chptr).mode) :
    (∀ modos, Disjoint (mascaraCanalFlags modos).1 (mascaraCanalFlags modos).2 ∧
      Excluye (mascaraCanalFlags modos).1) ∧
    EveryStep (Suceso.aplica chptr) (fun o s ↦
      Excluye ((o.aplica chptr s).canal chptr).mode ∧
      ∀ a parv, o = .modo a parv → Aplicada a chptr parv s →
        Respeta (s.canal chptr) ((o.aplica chptr s).canal chptr)) s l := by
  refine ⟨mascara_disjoint, ?_⟩
  have hpaso : ∀ (o : Suceso κ) (s : Red γ κ), Candado (s.canal chptr) → True →
      Candado ((o.aplica chptr s).canal chptr) := fun o s h _ ↦ h.aplica o
  refine everyStep_of_invariant hpaso (fun o s h _ ↦ ⟨(h.aplica o).excluye, ?_⟩)
    (hcerrado.candado hexcluye) (everyStep_of_forall fun _ _ ↦ trivial)
  rintro a parv rfl hap
  exact h.respeta hap

end

/-! ## A private channel -/

/-- A channel operator. -/
def operador : Autoridad Bool where
  toEntorno := delMiembro
  now := 0
  autor := ⟨"ana".toList, true, false⟩
  name _ := "ana".toList
  numNick _ := "AAAAA".toList
  privModeLchan _ := false

/-- A private channel with its operator. -/
def privado : Red Unit Bool :=
  (addUserToChannel () true {.chanop} sinMiembros).cambia () fun canal ↦
    { canal with mode := {.private} }

/-- The channel is registered with `+ntp-s`, and its operator asks for `+s-n`. -/
theorem candados_run_privado :
    (∀ modos, Disjoint (mascaraCanalFlags modos).1 (mascaraCanalFlags modos).2 ∧
      Excluye (mascaraCanalFlags modos).1) ∧
    EveryStep (Suceso.aplica ()) (fun o s ↦
      Excluye ((o.aplica () s).canal ()).mode ∧
      ∀ a parv, o = .modo a parv → Aplicada a () parv s →
        Respeta (s.canal ()) ((o.aplica () s).canal ())) privado
      [.crea "+ntp-s".toList false, .modo operador ["+s-n".toList]] :=
  candados_run () privado _ (.inl ⟨rfl, rfl⟩) (by
    rintro ⟨-, hs⟩
    revert hs
    decide)

end Ircd.Channel
