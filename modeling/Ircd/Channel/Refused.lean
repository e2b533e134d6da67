import Ircd.Channel.Turns

/-!
# Attempts in vain

A `JOIN` of a channel that leaves everything as it is and tells nobody anything: the channel is not
tried, or the user is refused and neither the creation time nor the targets of the user change
(`paso_calla`).
-/

namespace Ircd.Channel

open CString Hash
open IPcheck (TARGET_DELAY)

section

variable {γ κ : Type} {m m' m'' : Mundo γ κ}

theorem Mundo.Mismo.symm (h : m.Mismo m') : m'.Mismo m := by
  obtain ⟨tabla, hname, rfl⟩ := h
  exact ⟨m.red.tabla, hname.symm, rfl⟩

/-- The command tells nobody anything, and leaves the state as it is. -/
def Calla (m : Mundo γ κ) (r : Entrado γ κ) : Prop :=
  m.Mismo r.mundo ∧ r.anuncios = [] ∧ r.joins = [] ∧ r.creates = [] ∧ r.owners = []

theorem Calla.mas {r r' : Entrado γ κ} (h : Calla m r) (h' : Calla r.mundo r') :
    Calla m (r.mas r') := by
  obtain ⟨hmundo, ha, hj, hc, ho⟩ := h
  obtain ⟨hmundo', ha', hj', hc', ho'⟩ := h'
  refine ⟨hmundo.trans hmundo', ?_, ?_, ?_, ?_⟩ <;> simp [Entrado.mas, *]

/-- Where two commands leave everything as it is and the first one does, the second one does. -/
theorem Calla.of_mas {r r' : Entrado γ κ} (h : Calla m r) (hmas : Calla m (r.mas r')) :
    Calla r.mundo r' := by
  obtain ⟨hmundo, ha, hj, hc, ho⟩ := hmas
  simp only [Entrado.mas, List.append_eq_nil_iff] at hmundo ha hj hc ho
  exact ⟨h.1.symm.trans hmundo, ha.2, hj.2, hc.2, ho.2⟩

/-- What comes behind a command adds nothing if and only if it leaves everything as it is. -/
theorem mismo_mas_iff {r r' : Entrado γ κ} : r.Mismo (r.mas r') ↔ Calla r.mundo r' := by
  simp [Entrado.Mismo, Entrado.mas, Calla]

end

/-! ## A channel that has been created -/

section

variable {γ κ : Type} [DecidableEq γ] [DecidableEq κ] [Fintype γ] {e : AjustesJoin γ}
  {q : Entrante κ} {keysOrTS : Option CStr} {m m' : Mundo γ κ} {chptr : γ} {name : CStr}
  {s : Red γ κ}

omit [DecidableEq κ] in
/-- A channel is found, or is a new one. -/
theorem pideCanal_cases (h : pideCanal e q name true m = some (some chptr, m')) :
    m.Mismo m' ∨ m'.red.canal chptr = Canal.nuevo := by
  unfold pideCanal getChannel at h
  by_cases hnil : name = []
  · simp [hnil] at h
  · obtain ⟨r, hr⟩ : ∃ r, m.red.tabla.seek
        (if q.myUser = true ∧ CHANNELLEN < name.length then name.take CHANNELLEN else name)
        (fun _ ↦ true) = r := ⟨_, rfl⟩
    have hname : r.2.name = m.red.tabla.name := by rw [← hr, Tabla.name_seek]
    rw [if_neg hnil] at h
    dsimp only at h
    rw [hr] at h
    obtain ⟨_ | c, tabla⟩ := r
    · dsimp only at h
      cases hsys : e.sys.pide m.red.enUso with
      | none => simp [hsys] at h
      | some c =>
          simp only [hsys, if_true, Option.map_some, Option.some.injEq, Prod.mk.injEq] at h
          obtain ⟨rfl, rfl⟩ := h
          exact .inr (by simp)
    · simp only [Option.map_some, if_true, Option.some.injEq, Prod.mk.injEq] at h
      exact .inl ⟨tabla, hname, h.2.symm⟩

omit [DecidableEq γ] [DecidableEq κ] [Fintype γ] in
/-- Nobody is limited in channels that they create. -/
theorem checkTargetLimit_creado : (checkTargetLimit e q chptr true m).1 = false := by
  unfold checkTargetLimit
  dsimp only
  split_ifs
  all_goals first | rfl | simp_all

omit [DecidableEq γ] [DecidableEq κ] [Fintype γ] in
/-- `check_target_limit` reads and writes the targets alone. -/
theorem checkTargetLimit_resto (created : Bool) :
    ∃ targets nexttarget, (checkTargetLimit e q chptr created m).2 =
      { m with targets := targets, nexttarget := nexttarget } := by
  unfold checkTargetLimit
  dsimp only
  split_ifs <;> exact ⟨_, _, rfl⟩

omit [DecidableEq γ] [DecidableEq κ] [Fintype γ] in
/-- A new channel refuses nobody. -/
theorem canJoin_nuevo (owner : Option CStr) (invited : Bool) :
    canJoin e q name (Canal.nuevo : Canal κ) owner invited keysOrTS = 0 := by
  simp [canJoin, Canal.nuevo, isBannedSinCache, vetado]

theorem rechaza_nuevo (h : m.red.canal chptr = Canal.nuevo) :
    (rechaza e q keysOrTS chptr m).1 = false := by
  have hcreado : decide ((m.red.canal chptr).users = 0) = true := by
    rw [h]
    rfl
  obtain ⟨targets, nexttarget, hresto⟩ := @checkTargetLimit_resto _ _ e q m chptr true
  unfold rechaza
  dsimp only
  rw [hcreado]
  by_cases hinvited : chptr ∈ m.red.invited q.sptr
  · simp [hinvited, h, canJoin_nuevo]
  · simp [hinvited, checkTargetLimit_creado, hresto, h, canJoin_nuevo]

/-! ## A refusal -/

/-- `check_target_limit` leaves the targets as they are: it is not called, or does not count, or the
channel is the last target, or the user has to wait for long already. -/
def SinCuenta (e : AjustesJoin γ) (q : Entrante κ) (chptr : γ) (m : Mundo γ κ) : Prop :=
  chptr ∈ m.red.invited q.sptr ∨ (q.channelService ∨ q.anOper ∨ q.docking) ∨
    m.targets.head? = some (e.hash chptr) ∨
    e.hash chptr ∉ m.targets ∧ (m.red.canal chptr).users ≠ 0 ∧
      TARGET_DELAY + 8 ≤ m.nexttarget - e.now

omit [DecidableEq γ] [DecidableEq κ] [Fintype γ] in
theorem checkTargetLimit_igual (created : Bool) :
    ((checkTargetLimit e q chptr created m).2.targets = m.targets ∧
      (checkTargetLimit e q chptr created m).2.nexttarget = m.nexttarget) ↔
    (q.channelService ∨ q.anOper ∨ q.docking) ∨ m.targets.head? = some (e.hash chptr) ∨
      e.hash chptr ∉ m.targets ∧ created = false ∧ TARGET_DELAY + 8 ≤ m.nexttarget - e.now := by
  have hpone : ∀ targets : List (UInt8), m.targets.head? ≠ some (e.hash chptr) →
      e.hash chptr :: targets ≠ m.targets := by
    intro targets hhead heq
    rw [← heq] at hhead
    exact hhead rfl
  unfold checkTargetLimit
  dsimp only
  by_cases hlibre : q.channelService = true ∨ q.anOper = true ∨ q.docking = true
  · simp [hlibre]
  rw [if_neg hlibre, or_iff_right hlibre]
  by_cases hhead : m.targets.head? = some (e.hash chptr)
  · rw [if_pos hhead]
    exact iff_of_true ⟨rfl, rfl⟩ (.inl hhead)
  rw [if_neg hhead, or_iff_right hhead]
  by_cases hmem : e.hash chptr ∈ m.targets
  · rw [if_pos hmem]
    exact iff_of_false (fun h ↦ hpone _ hhead h.1) fun h ↦ h.1 hmem
  rw [if_neg hmem]
  by_cases hespera : (!created) = true ∧ e.now < m.nexttarget
  · rw [if_pos hespera]
    by_cases hcerca : m.nexttarget - e.now < TARGET_DELAY + 8
    · rw [if_pos hcerca]
      refine iff_of_false (fun h ↦ ?_) fun h ↦ absurd hcerca (not_lt.mpr h.2.2)
      have hmas : m.nexttarget + 2 = m.nexttarget := h.2
      omega
    · rw [if_neg hcerca]
      exact iff_of_true ⟨rfl, rfl⟩ ⟨hmem, by simpa using hespera.1, not_lt.mp hcerca⟩
  · rw [if_neg hespera]
    refine iff_of_false (fun h ↦ hpone _ hhead h.1) fun h ↦ hespera ⟨by simp [h.2.1], ?_⟩
    have hlejos := h.2.2
    unfold TARGET_DELAY at hlejos
    omega

/-- `rechaza` changes the targets at most. -/
theorem rechaza_resto :
    ∃ targets nexttarget, (rechaza e q keysOrTS chptr m).2 =
        { m with targets := targets, nexttarget := nexttarget } ∧
      ((targets = m.targets ∧ nexttarget = m.nexttarget) ↔ SinCuenta e q chptr m) := by
  by_cases hinvited : chptr ∈ m.red.invited q.sptr
  · refine ⟨m.targets, m.nexttarget, ?_, iff_of_true ⟨rfl, rfl⟩ (.inl hinvited)⟩
    unfold rechaza
    simp [hinvited]
  · obtain ⟨targets, nexttarget, hresto⟩ := @checkTargetLimit_resto _ _ e q m chptr
      (decide ((m.red.canal chptr).users = 0))
    have higual := @checkTargetLimit_igual _ _ e q m chptr
      (decide ((m.red.canal chptr).users = 0))
    rw [hresto] at higual
    refine ⟨targets, nexttarget, ?_, ?_⟩
    · unfold rechaza
      cases hlim : (checkTargetLimit e q chptr (decide ((m.red.canal chptr).users = 0)) m).1 with
      | false => simp [hinvited, hlim, hresto]
      | true =>
          -- a user who has created the channel is not limited
          have hcreado : decide ((m.red.canal chptr).users = 0) = false := by
            cases hdec : decide ((m.red.canal chptr).users = 0) with
            | false => rfl
            | true =>
                rw [hdec, checkTargetLimit_creado] at hlim
                cases hlim
          have husers : (m.red.canal chptr).users ≠ 0 := of_decide_eq_false hcreado
          rw [hcreado] at hlim hresto
          simp [hinvited, hlim, hresto, husers]
    · simpa [SinCuenta, hinvited] using higual

/-- A refusal changes the creation time and the targets at most. -/
theorem tras_eq (hmio : q.myUser = true) (hno : (rechaza e q keysOrTS chptr m).1 = true)
    (creationtime : Int) (flags : Finset Chfl) :
    ∃ targets nexttarget, tras e q keysOrTS chptr creationtime flags m = { m with
        creationtime := Function.update m.creationtime chptr creationtime
        targets := targets
        nexttarget := nexttarget } ∧
      ((targets = m.targets ∧ nexttarget = m.nexttarget) ↔ SinCuenta e q chptr m) := by
  obtain ⟨targets, nexttarget, hresto, hcuenta⟩ :=
    @rechaza_resto _ _ _ _ _ e q keysOrTS m chptr
  refine ⟨targets, nexttarget, ?_, hcuenta⟩
  unfold tras
  dsimp only
  rw [rechaza_creationtime, hresto]
  simp [hmio, hno]

/-- The state behind a refusal is the one before it, if neither the creation time nor the targets
change. -/
theorem tras_rechazado (hmio : q.myUser = true) (hno : (rechaza e q keysOrTS chptr m).1 = true)
    (creationtime : Int) (flags : Finset Chfl) :
    m.Mismo (tras e q keysOrTS chptr creationtime flags m) ↔
      creationtime = m.creationtime chptr ∧ SinCuenta e q chptr m := by
  obtain ⟨targets, nexttarget, htras, hcuenta⟩ :=
    @tras_eq _ _ _ _ _ e q keysOrTS m chptr hmio hno creationtime flags
  rw [htras, ← hcuenta]
  constructor
  · rintro ⟨tabla, -, heq⟩
    have hct := congrFun (congrArg Mundo.creationtime heq) chptr
    dsimp only at hct
    rw [Function.update_self] at hct
    exact ⟨hct, congrArg Mundo.targets heq, congrArg Mundo.nexttarget heq⟩
  · rintro ⟨rfl, rfl, rfl⟩
    exact ⟨m.red.tabla, rfl, by rw [Function.update_eq_self]⟩

theorem red_tras_rechazado (hmio : q.myUser = true)
    (hno : (rechaza e q keysOrTS chptr m).1 = true) {creationtime : Int} {flags : Finset Chfl} :
    (tras e q keysOrTS chptr creationtime flags m).red = m.red := by
  obtain ⟨targets, nexttarget, htras, -⟩ :=
    @tras_eq _ _ _ _ _ e q keysOrTS m chptr hmio hno creationtime flags
  rw [htras]

/-! ## A zombie -/

omit [Fintype γ] in
theorem members_delInvites (fuel : Nat) (s : Red γ κ) (c : γ) :
    ((delInvites chptr fuel s).canal c).members = (s.canal c).members := by
  induction fuel generalizing s with
  | zero => rfl
  | succ fuel ih =>
      cases hinvites : (s.canal chptr).invites with
      | nil => rw [delInvites_nil hinvites]
      | cons cptr rest =>
          rw [delInvites, hinvites]
          dsimp only
          rw [ih]
          show (Function.update s.canal chptr _ c).members = _
          by_cases hc : c = chptr
          · rw [hc, Function.update_self]
          · rw [Function.update_of_ne hc]

theorem members_sub1FromChannel (s : Red γ κ) :
    ((sub1FromChannel chptr s).canal chptr).members = (s.canal chptr).members := by
  obtain ⟨s₁, hs₁⟩ : ∃ s₁, s.cambia chptr (fun c ↦ { c with users := c.users - 1 }) = s₁ := ⟨_, rfl⟩
  have hmembers : (s₁.canal chptr).members = (s.canal chptr).members := by
    rw [← hs₁]
    show (Function.update s.canal chptr _ chptr).members = _
    rw [Function.update_self]
  have hlibera : ((libera chptr s₁).canal chptr).members = (s₁.canal chptr).members := by
    show (Function.update (delInvites chptr _ s₁).canal chptr _ chptr).members = _
    rw [Function.update_self]
    exact members_delInvites _ _ _
  unfold sub1FromChannel
  dsimp only
  rw [hs₁]
  split_ifs
  · exact hmembers
  · exact hmembers
  · exact hlibera.trans hmembers

/-- `remove_user_from_channel` takes out one member or more. -/
theorem length_saca {lp : Bool} {fuel : Nat} {sptr : κ} {s s' : Red γ κ}
    (h : saca chptr lp fuel sptr s = some s') :
    (s'.canal chptr).members.length ≤ ((s.canal chptr).members.eraseP (esDe sptr)).length := by
  induction fuel generalizing sptr s with
  | zero => cases h
  | succ fuel ih =>
      have hself : ((desenlaza chptr sptr s).canal chptr).members =
          (s.canal chptr).members.eraseP (esDe sptr) := by
        show (Function.update s.canal chptr _ chptr).members = _
        rw [Function.update_self]
      rw [saca] at h
      dsimp only at h
      split_ifs at h
      · cases h
        exact hself.symm ▸ le_rfl
      · split at h
        · cases h
          exact hself.symm ▸ le_rfl
        · refine (ih h).trans ?_
          rw [members_sub1FromChannel, hself]
          exact List.length_eraseP_le

theorem length_removeUserFromChannel {sptr : κ} {s s' : Red γ κ} {lp : Miembro κ}
    (hlp : findUserLink (s.canal chptr).members sptr = some lp)
    (h : removeUserFromChannel sptr chptr s = some s') :
    (s'.canal chptr).members.length < (s.canal chptr).members.length := by
  unfold removeUserFromChannel at h
  dsimp only at h
  split at h
  · cases h
  · next s₁ hsaca =>
      split_ifs at h
      cases h
      rw [members_sub1FromChannel]
      refine (length_saca hsaca).trans_lt ?_
      have hmem : lp ∈ (s.canal chptr).members := List.mem_of_find?_eq_some hlp
      have hes : esDe sptr lp = true := List.find?_some hlp
      have hpos := List.length_pos_of_mem hmem
      rw [List.length_eraseP_of_mem hmem hes]
      omega

/-! ## What is found -/

/-- The user is new in the channel, which is found or created. -/
theorem encuentra_nuevo (h : encuentra e q name m = some (.nuevo chptr m')) :
    m.Mismo m' ∨ m'.red.canal chptr = Canal.nuevo := by
  unfold encuentra at h
  simp only [Option.bind_eq_bind, Option.pure_def, Option.bind_eq_some_iff] at h
  obtain ⟨⟨c, m₁⟩, hpide, c', hc, h⟩ := h
  split at h
  · cases h
    cases hc
    exact pideCanal_cases hpide
  · split_ifs at h
    · simp only [Option.bind_eq_some_iff] at h
      obtain ⟨red, -, ⟨c₁, m₂⟩, -, c₂, -, h⟩ := h
      cases h
    · cases h

/-- A zombie is taken out of the channel, which is created again or has fewer members. -/
theorem encuentra_zombie_members {flags : Finset Chfl}
    (h : encuentra e q name m = some (.zombie chptr flags m')) :
    m'.red.canal chptr = Canal.nuevo ∨
      ∃ c, (m'.red.canal c).members.length < (m.red.canal c).members.length := by
  unfold encuentra at h
  simp only [Option.bind_eq_bind, Option.pure_def, Option.bind_eq_some_iff] at h
  obtain ⟨⟨c, m₁⟩, hpide, c', hc, h⟩ := h
  cases hc
  split at h
  · cases h
  · next lp hlp =>
      split_ifs at h
      · simp only [Option.bind_eq_some_iff] at h
        obtain ⟨red, hred, ⟨c₁, m₂⟩, hpide', c₂, hc₂, h⟩ := h
        cases h
        cases hc₂
        obtain ⟨tabla, -, hm₁⟩ := pideCanal_members true hpide (List.mem_of_find?_eq_some hlp)
        rcases pideCanal_cases hpide' with ⟨tabla', -, hm'⟩ | hnuevo
        · refine .inr ⟨c', ?_⟩
          have hless := length_removeUserFromChannel hlp hred
          rw [hm₁] at hless
          rw [hm']
          exact hless
        · exact .inl hnuevo
      · cases h

/-- The user is refused, and neither the creation time of the channel nor their targets change. -/
structure EnVano (e : AjustesJoin γ) (q : Entrante κ) (keysOrTS : Option CStr) (chptr : γ)
    (m : Mundo γ κ) : Prop where
  rechaza : (rechaza e q keysOrTS chptr m).1 = true
  creationtime : EsMagic (m.creationtime chptr) →
    m.creationtime chptr = keysOrTS.elim MAGIC_REMOTE_JOIN_TS atoi
  cuenta : SinCuenta e q chptr m

/-- Nothing comes of a name: it is left out, or the user is in the channel or may be in no more, or
tries to enter it in vain, where they have not been a zombie. -/
def Ocioso (e : AjustesJoin γ) (q : Entrante κ) (keysOrTS : Option CStr) (name : CStr)
    (m : Mundo γ κ) : Prop :=
  match halla e q name m with
  | none => False
  | some (.llega _ zombie chptr m) => zombie = none ∧ EnVano e q keysOrTS chptr m
  | some _ => True

/-- The creation time that is set is the one before. -/
theorem ponTS_igual (ct : Int) : (ponTS keysOrTS keysOrTS.isSome ct).1 = ct ↔
    (EsMagic ct → ct = keysOrTS.elim MAGIC_REMOTE_JOIN_TS atoi) := by
  cases keysOrTS with
  | none =>
      by_cases hcero : ct = 0
      · simp [ponTS, EsMagic, hcero, eq_comm]
      · simp [ponTS, EsMagic, hcero]
  | some ts =>
      rw [Option.isSome_some, ponTS_fst]
      by_cases hmagic : EsMagic ct
      · simp [hmagic, eq_comm]
      · simp [hmagic]

/-- An attempt comes behind a look for the channel, and a zombie is taken out of it. -/
theorem halla_llega {elegido : Option (Finset Chfl × Bool)} {zombie : Option (Finset Chfl)}
    (h : halla e q name m = some (.llega elegido zombie chptr m')) :
    ∃ name' m₁, m.Mismo m₁ ∧ encuentra e q name' m₁ =
      some (zombie.elim (.nuevo chptr m') fun flags ↦ .zombie chptr flags m') := by
  unfold halla at h
  cases hp : previo e q name m with
  | none =>
      rw [hp] at h
      cases h
  | some p =>
      have hbien := previo_bien hp
      rw [hp] at h
      cases p with
      | fuera => cases h
      | rompe flags sendcreate chptr m₁ => cases h
      | sigue name' elegido' m₁ =>
          obtain ⟨n, hn, hf⟩ := Option.map_eq_some_iff.mp h
          refine ⟨name', m₁, hbien.2, ?_⟩
          cases n with
          | yaEsta chptr m₂ => cases hf
          | zombie chptr flags m₂ =>
              cases hf
              exact hn
          | nuevo chptr m₂ =>
              cases hf
              exact hn

/-- An attempt leaves everything as it is if and only if it is in vain and the user has not been a
zombie. -/
theorem llega_calla (hmio : q.myUser = true) {elegido : Option (Finset Chfl × Bool)}
    {zombie : Option (Finset Chfl)} {create : Bool} {flags : Finset Chfl} {l : Llegada γ}
    (hf : halla e q name m = some (.llega elegido zombie chptr m'))
    (hl : llegada e q keysOrTS chptr zombie create m' = l) :
    Calla m (entrado keysOrTS (tras e q keysOrTS chptr
      (ponTS keysOrTS keysOrTS.isSome (m'.creationtime chptr)).1 flags m') [l]) ↔
        zombie = none ∧ EnVano e q keysOrTS chptr m' := by
  cases hno : (rechaza e q keysOrTS chptr m').1 with
  | false =>
      -- the members are told of a user who gets in
      have hentra : l.entra = true := by simp [← hl, llegada, hno]
      refine iff_of_false (fun hcalla ↦ ?_) fun hvano ↦ by
        have hrechaza := hvano.2.rechaza
        rw [hno] at hrechaza
        cases hrechaza
      have hanuncios := hcalla.2.1
      simp [entrado, Llegada.anuncios, hentra] at hanuncios
  | true =>
      have hentra : l.entra = false := by simp [← hl, llegada, hno, hmio]
      have howner : l.owner = false := by simp [← hl, llegada, hno]
      have hcalla (m₁ : Mundo γ κ) : Calla m (entrado keysOrTS m₁ [l]) ↔ m.Mismo m₁ := by
        simp [Calla, entrado, Llegada.anuncios, Llegada.dicho, Llegada.esGlobal, hentra, howner]
      rw [hcalla]
      have hnuevo : m'.red.canal chptr ≠ Canal.nuevo := by
        intro hnuevo
        rw [rechaza_nuevo hnuevo] at hno
        cases hno
      obtain ⟨name', m₁, hm₁, hencuentra⟩ := halla_llega hf
      cases zombie with
      | none =>
          have hm' : m.Mismo m' := hm₁.trans ((encuentra_nuevo hencuentra).resolve_right hnuevo)
          have hsame : m.Mismo (tras e q keysOrTS chptr
              (ponTS keysOrTS keysOrTS.isSome (m'.creationtime chptr)).1 flags m') ↔
                m'.Mismo (tras e q keysOrTS chptr
                  (ponTS keysOrTS keysOrTS.isSome (m'.creationtime chptr)).1 flags m') :=
            ⟨hm'.symm.trans, hm'.trans⟩
          rw [hsame, tras_rechazado hmio hno, ponTS_igual]
          exact ⟨fun h ↦ ⟨rfl, hno, h.1, h.2⟩, fun h ↦ ⟨h.2.creationtime, h.2.cuenta⟩⟩
      | some z =>
          refine iff_of_false (fun hmismo ↦ ?_) fun h ↦ by cases h.1
          obtain ⟨c, hless⟩ := (encuentra_zombie_members hencuentra).resolve_left hnuevo
          obtain ⟨tabla, -, heq⟩ := hm₁
          obtain ⟨tabla', -, heq'⟩ := hmismo
          have hred := congrArg (fun m ↦ m.red.canal) heq'
          rw [red_tras_rechazado hmio hno] at hred
          rw [heq, hred] at hless
          exact lt_irrefl _ hless

/-- A command of a local user leaves everything as it is if and only if nothing comes of the name. -/
theorem paso_calla (hmio : q.myUser = true) {s : Suerte γ}
    (h : paso e q keysOrTS name m = some (s, m')) :
    Calla m (entrado keysOrTS m' s.llegadas) ↔ Ocioso e q keysOrTS name m := by
  have hnada : ∀ m₁ : Mundo γ κ, m.Mismo m₁ →
      Calla m (entrado keysOrTS m₁ ([] : List (Llegada γ))) :=
    fun m₁ hm₁ ↦ ⟨hm₁, rfl, rfl, rfl, rfl⟩
  unfold paso at h
  unfold Ocioso
  cases hf : halla e q name m with
  | none =>
      rw [hf] at h
      cases h
  | some f =>
      have hbien := halla_bien hf
      rw [hf] at h
      cases f with
      | fuera =>
          cases h
          exact iff_of_true (hnada m (.refl m)) trivial
      | rompe flags sendcreate chptr m₁ =>
          cases h
          exact iff_of_true (hnada _ hbien.2.2) trivial
      | esta elegido chptr m₁ =>
          cases h
          exact iff_of_true (hnada _ hbien.2) trivial
      | llega elegido zombie chptr m₁ =>
          cases h
          exact llega_calla hmio hf rfl

/-! ## Again and again -/

/-- Nothing comes of a name, so many times. -/
def Ociosos (e : AjustesJoin γ) (q : Entrante κ) (keysOrTS : Option CStr) (name : CStr) :
    Nat → Mundo γ κ → Prop
  | 0, _ => True
  | n + 1, m => Ocioso e q keysOrTS name m ∧
      ∀ s m', paso e q keysOrTS name m = some (s, m') → Ociosos e q keysOrTS name n m'

theorem Ocioso.paso (h : Ocioso e q keysOrTS name m) :
    ∃ s m', Channel.paso e q keysOrTS name m = some (s, m') := by
  unfold Ocioso at h
  cases hf : halla e q name m with
  | none =>
      rw [hf] at h
      exact h.elim
  | some f =>
      rw [Channel.paso, hf]
      exact ⟨_, _, rfl⟩

end

end Ircd.Channel
