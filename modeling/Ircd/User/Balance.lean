import Ircd.User.Recount

/-!
# What one client counts

Entry, exit and the changes of nick, as they bear on one client and the counters. `Cuadra` states
that a counter changes by what the client has gained or lost as a registered user, and the theorems
say exactly when each function achieves that: `cuadra_registerUser`, `Cambio.cuadra_primero` and
`Cambio.cuadra_otro`, `cuadra_nuevoRemoto`, `cuadra_mNickRemoto` and `cuadra_renameUser`.
-/

namespace Ircd.User

open CString Flags

/-! ## One client -/

/-- What a client counts for a mark. -/
def peso (m : Marca) (x : Option Cliente) : Int :=
  uno (x.any fun x ↦ x.isUser && m.tiene x)

/-- A counter changes by what the client has gained. -/
def Cuadra (m : Marca) (x : Option Cliente) (n : Nrof) (s : Option Cliente × Nrof) : Prop :=
  m.de s.2 + peso m x = m.de n + peso m s.1

section

variable {m : Marca} {x : Cliente} {n : Nrof}

theorem peso_some : peso m (some x) = uno (x.isUser && m.tiene x) :=
  rfl

/-- A user that stays is counted when the counter moves with the mark. -/
theorem cuadra_iff_cuenta {s : Cliente × Nrof} (hx : x.isUser = true) (hs : s.1.isUser = true) :
    Cuadra m (some x) n (s.map some id) ↔ Cuenta m x n s.1 s.2 := by
  unfold Cuadra Cuenta
  rw [Prod.map_fst, Prod.map_snd, id, peso_some, peso_some, hx, hs, Bool.true_and, Bool.true_and]
  omega

/-- A client that is not registered is counted when the counter stays. -/
theorem cuadra_iff_de {s : Cliente × Nrof} (hx : x.isUser = false) (hs : s.1.isUser = false) :
    Cuadra m (some x) n (s.map some id) ↔ m.de s.2 = m.de n := by
  unfold Cuadra
  rw [Prod.map_fst, Prod.map_snd, id, peso_some, peso_some, hx, hs, Bool.false_and, Bool.false_and,
    uno_false]
  omega

/-- A client that nothing happens to. -/
theorem cuadra_refl : Cuadra m (some x) n (some x, n) :=
  rfl

/-- The counters after `register_user`. -/
theorem registerUser_snd : (registerUser x n).2 =
    { n with
      helpers := n.helpers + uno (!x.myConnect && x.isHelpOp)
      invClients := n.invClients + uno (has x.flags FLAGS_INVISIBLE) } := by
  have hhelp : (!{ x with isUser := true }.myUser && { x with isUser := true }.isHelpOp) =
      (!x.myConnect && x.isHelpOp) := by
    rw [Cliente.myUser, Bool.and_true]
    rfl
  unfold registerUser
  dsimp only
  rw [hhelp, apply_ite Prod.snd, ite_self]
  cases has x.flags FLAGS_INVISIBLE <;> cases !x.myConnect && x.isHelpOp <;> simp

/-- A client that is registered is a user with the marks that it had. -/
theorem registerUser_fst : (registerUser x n).1.isUser = true ∧
    (registerUser x n).1.name = x.name ∧ m.tiene (registerUser x n).1 = m.tiene x := by
  unfold registerUser
  dsimp only
  split
  · exact ⟨rfl, rfl, rfl⟩
  · exact ⟨rfl, rfl, rfl⟩

/-- The registration of a client counts its marks when it is invisible only, or a remote user that
is no operator. -/
theorem cuadra_registerUser (hx : x.isUser = false) :
    Cuadra m (some x) n ((registerUser x n).map some id) ↔
      (m.tiene x = true → m = .invisible ∨ m = .helpop ∧ x.myConnect = false) := by
  obtain ⟨huser, -, htiene⟩ := @registerUser_fst m x n
  have hsnd := @registerUser_snd x n
  unfold Cuadra
  rw [Prod.map_fst, Prod.map_snd, id, hsnd, peso_some, peso_some, hx, huser, htiene,
    Bool.false_and, Bool.true_and, uno_false]
  cases m with
  | oper =>
      cases hoper : Marca.oper.tiene x <;> simp [Marca.de]
  | helpop =>
      rw [tiene_helpop]
      cases x.isHelpOp <;> cases x.myConnect <;> simp [Marca.de]
  | invisible =>
      rw [tiene_invisible]
      cases has x.flags FLAGS_INVISIBLE <;> simp [Marca.de]

/-- A client that leaves is no longer counted. -/
theorem cuadra_exitOneClient : Cuadra m (some x) n (none, exitOneClient x n) := by
  unfold Cuadra exitOneClient
  rw [peso_some]
  cases x.isUser with
  | false => simp [peso]
  | true =>
      rw [if_pos rfl, Bool.true_and]
      cases m with
      | oper =>
          cases x.isHelpOp <;> cases has x.flags FLAGS_INVISIBLE <;> cases hoper : x.isOper <;>
            simp [Marca.de, peso, hoper]
      | helpop =>
          cases hhelp : x.isHelpOp <;> cases has x.flags FLAGS_INVISIBLE <;> cases x.isOper <;>
            simp [Marca.de, peso, hhelp]
      | invisible =>
          cases x.isHelpOp <;> cases hinv : has x.flags FLAGS_INVISIBLE <;> cases x.isOper <;>
            simp [Marca.de, peso, hinv]

end

/-! ## Changes of nick -/

namespace Cambio

/-- The mark that a client has before the modes of the new nick. -/
def antes (c : Cambio) (b : Bdd) (m : Marca) (x : Cliente) : Bool :=
  if x.name = [] then m.tiene x || m.enTexto b.autoUsermodes
  else if x.isUser && !c.equivalentes then
    m.tiene x && (decide (m = .invisible) || !x.autentificado)
  else m.tiene x

/-- A change of nick that leaves the counters right. A mark that the client gets with the modes of
the record is one that it has already. Where the client is registered at this point, it has no mark
that is not counted then, and it gets none with the modes of every client. Where it stays
unregistered, no mark is counted. -/
def Limpio (c : Cambio) (b : Bdd) (entra : Entrada) (x : Cliente) (m : Marca) : Prop :=
  if x.isUser then c.anade m = true → c.tras b m (c.antes b m x) = true
  else if x.name = [] ∧ entra = .admitido then
    (m.tiene x = true → m = .invisible) ∧ (m.enTexto b.autoUsermodes = true → m.tiene x = true) ∧
      (c.anade m = true → c.tras b m (c.antes b m x) = true)
  else x.name = [] ∧ entra = .rechazado ∨ c.tras b m (c.antes b m x) = c.antes b m x

variable {c : Cambio} {b : Bdd} {m : Marca} {x : Cliente} {n : Nrof}

/-- Who the client is after it has changed its nick. -/
theorem quien_otro : (c.otro b x n).1.isUser = x.isUser ∧ (c.otro b x n).1.name = c.nick := by
  unfold otro
  cases x.isUser && !c.equivalentes with
  | false => exact ⟨(Quien.modos c b).isUser, (Quien.modos c b).name⟩
  | true =>
      exact ⟨(Quien.modos c b).isUser.trans (Quien.parcheDB69 false true).isUser,
        (Quien.modos c b).name⟩

/-- The marks and the counters after a client has changed its nick. -/
theorem marcas_otro (hname : x.name ≠ []) :
    m.tiene (c.otro b x n).1 = (c.tras b m (c.antes b m x) || c.anade m) ∧
      m.de (c.otro b x n).2 = m.de n + uno (c.tras b m (c.antes b m x)) - uno (m.tiene x) := by
  unfold otro antes
  rw [if_neg hname]
  cases x.isUser && !c.equivalentes with
  | false =>
      rw [if_neg Bool.false_ne_true, if_neg Bool.false_ne_true]
      exact ⟨tiene_modos rfl, de_modos rfl⟩
  | true =>
      rw [if_pos rfl, if_pos rfl]
      have htiene := @tiene_parcheDB69 m x n false true
      have hcuenta := @cuenta_parcheDB69 m x n false true
      rw [Cuenta, htiene] at hcuenta
      generalize parcheDB69 false true x n = s at htiene hcuenta
      have hantes : m.tiene { s.1 with name := c.nick } =
          (m.tiene x && (decide (m = .invisible) || !x.autentificado)) := htiene
      have hde := de_modos (c := c) (b := b) (m := m) (n := s.2) (x := { s.1 with name := c.nick }) rfl
      rw [hantes] at hde
      refine ⟨(tiene_modos rfl).trans (by rw [hantes]), ?_⟩
      dsimp only
      rw [hde]
      omega

/-- A client that changes its nick. -/
theorem cuadra_otro (hname : x.name ≠ []) (entra : Entrada) :
    Cuadra m (some x) n ((c.otro b x n).map some id) ↔ c.Limpio b entra x m := by
  obtain ⟨htiene, hde⟩ := marcas_otro (c := c) (b := b) (m := m) (n := n) hname
  have hnot : ¬(x.name = [] ∧ entra = .admitido) := fun h ↦ hname h.1
  unfold Limpio
  cases hx : x.isUser with
  | true =>
      rw [if_pos rfl]
      refine (cuadra_iff_cuenta hx (quien_otro.1.trans hx)).trans ?_
      have hiff : Cuenta m x n (c.otro b x n).1 (c.otro b x n).2 ↔
          uno (c.tras b m (c.antes b m x)) = uno (c.tras b m (c.antes b m x) || c.anade m) := by
        rw [Cuenta, htiene, hde]
        omega
      rw [hiff, uno_inj]
      cases c.tras b m (c.antes b m x) <;> cases c.anade m <;> simp
  | false =>
      rw [if_neg Bool.false_ne_true, if_neg hnot]
      refine (cuadra_iff_de hx (quien_otro.1.trans hx)).trans ?_
      have hantes : c.antes b m x = m.tiene x := by
        rw [antes, if_neg hname, hx, Bool.false_and, if_neg Bool.false_ne_true]
      rw [hde, hantes, or_iff_right (fun h ↦ hname h.1), ← uno_inj]
      omega

/-- The modes of every client that a client gets with its first nick. -/
def conAuto (b : Bdd) (ssl : Bool) (x : Cliente) : Cliente :=
  ((x.setHmode HMODE_HIDDEN).automodes b.autoUsermodes).daHmode ssl HMODE_SSL

theorem quien_conAuto (ssl : Bool) : Quien x (conAuto b ssl x) :=
  Quien.trans (y := (x.setHmode HMODE_HIDDEN).automodes b.autoUsermodes) ⟨rfl, rfl, rfl⟩
    (Quien.daHmode ssl HMODE_SSL)

theorem tiene_conAuto (ssl : Bool) :
    m.tiene (conAuto b ssl x) = (m.tiene x || m.enTexto b.autoUsermodes) := by
  have hhidden : has HMODE_HIDDEN m.maskH = false := by
    cases m <;> decide
  rw [conAuto, tiene_daHmode_of_disjoint (by cases m <;> decide), tiene_automodes, tiene_setHmode,
    hhidden, Bool.or_false]

/-- A client that takes its first nick. -/
theorem primero_eq (ssl : Bool) (entra : Entrada) : c.primero b ssl entra x n =
    match entra.aplica { x with name := c.nick } n with
    | (none, n) => (none, n)
    | (some x, n) => (c.modos b (conAuto b ssl x) n).map some id :=
  rfl

/-- The operator table has nothing to do with the mark `i`. -/
theorem tras_invisible (on : Bool) : c.tras b .invisible on = on := by
  unfold tras
  rw [if_pos rfl, ite_self]

/-- A client that is not registered and takes its first nick. -/
theorem cuadra_primero (hname : x.name = []) (hx : x.isUser = false) (hlocal : x.myConnect = true)
    (ssl : Bool) (entra : Entrada) :
    Cuadra m (some x) n (c.primero b ssl entra x n) ↔ c.Limpio b entra x m := by
  have hantes : c.antes b m x = (m.tiene x || m.enTexto b.autoUsermodes) := by
    rw [antes, if_pos hname]
  have hnick : m.tiene { x with name := c.nick } = m.tiene x := rfl
  unfold Limpio
  rw [hx, if_neg Bool.false_ne_true, primero_eq]
  cases entra with
  | espera =>
      have htiene := tiene_conAuto (b := b) (m := m) (x := { x with name := c.nick }) ssl
      rw [hnick, ← hantes] at htiene
      have hquien := quien_conAuto (b := b) (x := { x with name := c.nick }) ssl
      rw [if_neg (by simp)]
      refine (cuadra_iff_de hx ((Quien.modos c b).isUser.trans (hquien.isUser.trans hx))).trans ?_
      rw [de_modos hquien.name, htiene, ← uno_inj]
      simp only [reduceCtorEq, and_false, false_or]
      omega
  | rechazado =>
      rw [if_neg (by simp)]
      refine iff_of_true ?_ (.inl ⟨hname, rfl⟩)
      unfold Cuadra
      rw [peso_some, hx]
      rfl
  | admitido =>
      rw [if_pos ⟨hname, rfl⟩]
      obtain ⟨huser, hnombre, hmarca⟩ :=
        @registerUser_fst m { x with name := c.nick } n
      have hsnd := @registerUser_snd { x with name := c.nick } n
      have hreg : Entrada.admitido.aplica { x with name := c.nick } n =
          (some (registerUser { x with name := c.nick } n).1,
            (registerUser { x with name := c.nick } n).2) := rfl
      rw [hreg]
      dsimp only
      generalize registerUser { x with name := c.nick } n = s at huser hnombre hmarca hsnd
      have htiene := tiene_conAuto (b := b) (m := m) (x := s.1) ssl
      rw [hmarca, hnick, ← hantes] at htiene
      have hquien := quien_conAuto (b := b) (x := s.1) ssl
      have hfin := tiene_modos (c := c) (b := b) (m := m) (n := s.2) (hquien.name.trans hnombre)
      have hde := de_modos (c := c) (b := b) (m := m) (n := s.2) (hquien.name.trans hnombre)
      have hisUser := (Quien.modos (x := conAuto b ssl s.1) (n := s.2) c b).isUser.trans
        (hquien.isUser.trans huser)
      rw [htiene] at hfin hde
      unfold Cuadra
      rw [Prod.map_fst, Prod.map_snd, id, peso_some, peso_some, hx, hisUser, hfin, hde, hsnd, hantes,
        Bool.false_and, Bool.true_and, uno_false]
      have hhelp : { x with name := c.nick }.isHelpOp = x.isHelpOp := rfl
      cases m with
      | invisible =>
          rw [tras_invisible, tiene_invisible]
          cases has x.flags FLAGS_INVISIBLE <;> cases Marca.invisible.enTexto b.autoUsermodes <;>
            cases c.anade .invisible <;> simp [Marca.de]
      | oper =>
          generalize c.tras b .oper _ = tras
          cases Marca.oper.tiene x <;> cases Marca.oper.enTexto b.autoUsermodes <;>
            cases c.anade .oper <;> cases tras <;> simp [Marca.de] <;> omega
      | helpop =>
          rw [hhelp, hlocal]
          generalize c.tras b .helpop _ = tras
          cases Marca.helpop.tiene x <;> cases Marca.helpop.enTexto b.autoUsermodes <;>
            cases c.anade .helpop <;> cases tras <;> simp [Marca.de] <;> omega

end Cambio

/-! ## Remote users -/

section

variable {b : Bdd} {m : Marca} {x : Cliente} {n : Nrof}

/-- The client that a server introduces, before it is registered. -/
theorem nuevoRemoto_eq (name modos : CStr) (expulsado : Bool) : ∃ y : Cliente,
    y.isUser = false ∧ y.myConnect = false ∧ y.name = name ∧
      (∀ m : Marca, m.tiene y = decide (m.letra ∈ modos)) ∧
      nuevoRemoto b name modos expulsado n =
        if expulsado then (none, exitOneClient (registerUser y n).1 (registerUser y n).2)
        else (registerUser y n).map some id := by
  have hquien := (Quien.recibe (x := Cliente.nuevo name false) modos).trans (Quien.daHmode
    (has ((Cliente.nuevo name false).recibe modos).hmodes HMODE_NICKREGISTERED &&
      (b.registros.ipvirtualdb name).isSome) HMODE_VHOSTPERSO)
  refine ⟨_, hquien.isUser, hquien.myConnect, hquien.name, fun m ↦ ?_, rfl⟩
  have hnuevo : m.tiene (Cliente.nuevo name false) = false := by
    rw [Marca.tiene, Marca.en, Cliente.nuevo, has_zero, has_zero, Bool.or_false]
  rw [tiene_daHmode_of_disjoint (by cases m <;> decide), tiene_recibe, hnuevo, Bool.false_or]

/-- A user that a server introduces is counted but for the mark `o`. -/
theorem cuadra_nuevoRemoto (name modos : CStr) (expulsado : Bool) :
    Cuadra m none n (nuevoRemoto b name modos expulsado n) ↔ (m = .oper → 'o' ∉ modos) := by
  obtain ⟨y, huser, hconnect, -, htiene, heq⟩ := nuevoRemoto_eq (b := b) (n := n) name modos expulsado
  have hreg := cuadra_registerUser (m := m) (n := n) huser
  have hletra : (m.tiene y = true → m = .invisible ∨ m = .helpop ∧ y.myConnect = false) ↔
      (m = .oper → 'o' ∉ modos) := by
    rw [htiene, hconnect, decide_eq_true_eq]
    cases m <;> simp [Marca.letra]
  have hnone : ∀ s, Cuadra m none n s ↔ Cuadra m (some y) n s := by
    intro s
    unfold Cuadra
    rw [peso_some, huser]
    rfl
  rw [hnone, heq, ← hletra, ← hreg]
  cases expulsado with
  | false => exact Iff.rfl
  | true =>
      have hexit := cuadra_exitOneClient (m := m) (x := (registerUser y n).1) (n := (registerUser y n).2)
      rw [if_pos rfl]
      unfold Cuadra at hexit ⊢
      rw [Prod.map_fst, Prod.map_snd, id]
      dsimp only at hexit ⊢
      constructor
      · intro h
        omega
      · intro h
        omega

/-- A user of another server that changes its nick is counted when it has the marks that come with
the new nick already. -/
theorem cuadra_mNickRemoto (name modos : CStr) (equivalentes : Bool) (hx : x.isUser = true) :
    Cuadra m (some x) n ((mNickRemoto b name modos equivalentes x n).map some id) ↔
      (m.letra ∈ modos → m.tiene x = true ∧
        (equivalentes = true ∨ m = .invisible ∨ x.autentificado = false)) := by
  have hwatch : has MODE_ISWATCH m.maskF = false := by
    cases m <;> decide
  have hclear : m.tiene (x.clearFlag MODE_ISWATCH) = m.tiene x :=
    tiene_clearFlag (by cases m <;> decide)
  have hcola : ∀ (d : Bool) (y : Cliente),
      m.tiene (if d then y.setFlag MODE_ISWATCH else y) = m.tiene y ∧
        (if d then y.setFlag MODE_ISWATCH else y).isUser = y.isUser := by
    intro d y
    cases d with
    | false => exact ⟨rfl, rfl⟩
    | true => exact ⟨tiene_setFlag.trans (by rw [hwatch, Bool.or_false]), rfl⟩
  have hantes : ∃ s : Cliente × Nrof, (if equivalentes then (x.clearFlag MODE_ISWATCH, n)
      else parcheDB69 false false (x.clearFlag MODE_ISWATCH) n) = s ∧ Quien x s.1 ∧
      Cuenta m x n s.1 s.2 ∧ (m.tiene s.1 = true ↔ m.tiene x = true ∧
        (equivalentes = true ∨ m = .invisible ∨ x.autentificado = false)) := by
    refine ⟨_, rfl, ?_⟩
    cases equivalentes with
    | true => exact ⟨⟨rfl, rfl, rfl⟩, Cuenta.refl.of_tiene hclear, by simp [hclear]⟩
    | false =>
        have hauth : (x.clearFlag MODE_ISWATCH).autentificado = x.autentificado := rfl
        rw [if_neg Bool.false_ne_true, tiene_parcheDB69, hclear, hauth]
        exact ⟨Quien.trans (y := x.clearFlag MODE_ISWATCH) ⟨rfl, rfl, rfl⟩
          (Quien.parcheDB69 false false), (cuenta_parcheDB69 false false).of_tiene hclear, by simp⟩
  obtain ⟨s, hs, hquien, hcuenta, htiene⟩ := hantes
  have hfin : ∃ z : Cliente, mNickRemoto b name modos equivalentes x n = (z, s.2) ∧
      z.isUser = true ∧ m.tiene z = (m.tiene s.1 || decide (m.letra ∈ modos)) := by
    unfold mNickRemoto
    dsimp only
    rw [hs]
    have hvhost : ∀ (d : Bool), m.tiene ({ s.1.recibe modos with name := name }.quitaHmode d
        HMODE_VHOSTPERSO) = (m.tiene s.1 || decide (m.letra ∈ modos)) := fun d ↦
      (tiene_quitaHmode (by cases m <;> decide) d).trans (tiene_recibe modos)
    have huser : ∀ (d : Bool), ({ s.1.recibe modos with name := name }.quitaHmode d
        HMODE_VHOSTPERSO).isUser = true := fun d ↦
      (Quien.quitaHmode d _).isUser.trans
        (((Quien.recibe modos).isUser.trans hquien.isUser).trans hx)
    exact ⟨_, rfl, (hcola _ _).2.trans (huser _), (hcola _ _).1.trans (hvhost _)⟩
  obtain ⟨z, hz, huser, htienez⟩ := hfin
  rw [hz, cuadra_iff_cuenta hx huser, hcuenta.iff_of_or htienez, htiene, decide_eq_true_eq]

/-! ## `rename_user` -/

/-- A change of nick by `rename_user` that leaves the counters right: a mark that the client gets
with the modes of the record is one that it has already. -/
def Bdd.LimpioRename (b : Bdd) (name : CStr) (x : Cliente) (m : Marca) : Prop :=
  ∀ valor, b.nickdb name = some valor → (b.ficha valor).flags ≠ DDB_NICK_SUSPEND →
    m.enTexto (b.ficha valor).automodes = true →
      m.tiene x = true ∧ (m = .invisible ∨ x.autentificado = false) ∨
        m.da (b.statusDe name) = true

/-- What clears a mode leaves no mode that was not there. -/
theorem has_clearHmode {f g : BitVec 32} (h : has x.hmodes f = false) :
    has (x.clearHmode g).hmodes f = false := by
  rw [← Bool.not_eq_true] at h ⊢
  exact fun hon ↦ h (has_of_has_clear hon)

/-- A client that leaves its nick has no suspended nick. -/
theorem has_parcheDB69 (whois vhost : Bool) :
    has (parcheDB69 whois vhost x n).1.hmodes HMODE_NICKSUSPENDED = false := by
  have hquita : ∀ (d : Bool) (f : BitVec 32) (y : Cliente), has y.hmodes HMODE_NICKSUSPENDED = false →
      has (y.quitaHmode d f).hmodes HMODE_NICKSUSPENDED = false := by
    intro d f y hy
    cases d with
    | false => exact hy
    | true => exact has_clearHmode hy
  have hstatus : ∀ y : Cliente, has y.hmodes HMODE_NICKSUSPENDED = false →
      has (borraStatus y n).1.hmodes HMODE_NICKSUSPENDED = false := fun y hy ↦
    has_clearHmode (x := ((((y.clearHmode HMODE_HELPOP).clearHmode HMODE_ADMIN).clearHmode
      HMODE_CODER).clearFlag FLAGS_OPER)) (has_clearHmode (has_clearHmode (has_clearHmode hy)))
  unfold parcheDB69
  cases hauth : x.autentificado with
  | false => exact (Bool.or_eq_false_iff.mp hauth).2
  | true =>
      exact hquita _ _ _ <| hquita _ _ _ <| hquita _ _ _ <| hstatus _ <| has_clearHmode <|
        has_clearHmode <| has_clearHmode <| has_clear_of_sub (BitVec.and_not_self _)

/-- A nick that is given without its record being suspended. -/
theorem has_identifica (suspendido : Bool) (hx : has x.hmodes HMODE_NICKSUSPENDED = false) :
    has (b.identifica suspendido x).hmodes HMODE_NICKSUSPENDED = suspendido := by
  have hda : ∀ (d : Bool) (y : Cliente), has (y.daHmode d HMODE_VHOSTPERSO).hmodes
      HMODE_NICKSUSPENDED = has y.hmodes HMODE_NICKSUSPENDED := by
    intro d y
    cases d with
    | false => rfl
    | true => exact has_or.trans (Bool.or_false _)
  rw [Bdd.identifica, hda, Cliente.setHmode, Cliente.setHmode, has_or, has_or, hx]
  cases suspendido <;> decide

/-- A client stays who it is when `rename_user` gives it the modes of a nick. -/
theorem quien_renombra (reg : Ficha) : Quien x (b.renombra reg x n).1 := by
  have hpone : ∀ (d : Bool) (status : BitVec 32) (y : Cliente),
      Quien y (if d then poneStatus b status y n else (y, n)).1 := by
    intro d status y
    cases d with
    | false => exact .refl y
    | true => exact Quien.poneStatus b status
  have hfin : ∀ y : Cliente, Quien y ((y.automodes reg.automodes).daSnomask reg.snomask) := fun y ↦
    Quien.trans (y := y.automodes reg.automodes) ⟨rfl, rfl, rfl⟩ (Quien.daSnomask _)
  unfold Bdd.renombra
  dsimp only
  split
  · exact Quien.identifica b _
  · exact (Quien.identifica b _).trans ((hpone _ _ _).trans (hfin _))

/-- The modes of a nick that `rename_user` gives to a client. -/
theorem marcas_renombra (reg : Ficha) (hname : x.name = name)
    (hx : has x.hmodes HMODE_NICKSUSPENDED = false) :
    ∃ y, Cuenta m x n y (b.renombra reg x n).2 ∧
      (m.tiene y = true ↔ m.tiene x = true ∨
        reg.flags ≠ DDB_NICK_SUSPEND ∧ m.da (b.statusDe name) = true) ∧
      m.tiene (b.renombra reg x n).1 = (m.tiene y ||
        decide (reg.flags ≠ DDB_NICK_SUSPEND) && m.enTexto reg.automodes) := by
  have htiene := tiene_identifica (m := m) (x := x) b (reg.flags = DDB_NICK_SUSPEND)
  have hstatus := b.getStatus_eq
    ((Quien.identifica (x := x) b (reg.flags = DDB_NICK_SUSPEND)).name.trans hname)
  unfold Bdd.renombra
  dsimp only
  rw [has_identifica _ hx, hstatus]
  by_cases hsusp : reg.flags = DDB_NICK_SUSPEND
  · rw [if_pos (decide_eq_true hsusp)]
    refine ⟨_, Cuenta.refl.of_tiene htiene, ?_, ?_⟩
    · rw [htiene, or_iff_left fun h ↦ h.1 hsusp]
    · have hnot : decide (reg.flags ≠ DDB_NICK_SUSPEND) = false :=
        decide_eq_false (not_not_intro hsusp)
      rw [hnot, Bool.false_and, Bool.or_false]
  · rw [if_neg (by rwa [decide_eq_true_eq])]
    generalize b.identifica (reg.flags = DDB_NICK_SUSPEND) x = y at htiene
    have hpone : ∃ s, (if (b.statusDe name != 0#32) = true then
        poneStatus b (b.statusDe name) y n else (y, n)) = s ∧ Cuenta m y n s.1 s.2 ∧
        m.tiene s.1 = (m.tiene y || m.da (b.statusDe name)) := by
      refine ⟨_, rfl, ?_⟩
      by_cases hzero : b.statusDe name = 0#32
      · have hda : m.da 0#32 = false := by
          cases m <;> decide
        rw [hzero, hda, if_neg (by decide), Bool.or_false]
        exact ⟨.refl, rfl⟩
      · rw [if_pos (by simpa using hzero)]
        exact ⟨cuenta_poneStatus b _, tiene_poneStatus b _⟩
    obtain ⟨s, hs, hcuenta, htiene'⟩ := hpone
    rw [hs]
    refine ⟨s.1, hcuenta.of_tiene htiene, ?_, ?_⟩
    · rw [htiene', htiene, Bool.or_eq_true_iff]
      exact or_congr_right (and_iff_right hsusp).symm
    · rw [tiene_daSnomask, tiene_automodes, decide_eq_true hsusp, Bool.true_and]

/-- `rename_user` counts the marks that it changes, but for those of the record. -/
theorem cuadra_renameUser (name : CStr) (hx : x.isUser = true) :
    Cuadra m (some x) n ((renameUser b name x n).map some id) ↔ b.LimpioRename name x m := by
  have htiene := tiene_parcheDB69 (m := m) (x := x) (n := n) true false
  have hcuenta := cuenta_parcheDB69 (m := m) (x := x) (n := n) true false
  have hquien := Quien.parcheDB69 (x := x) (n := n) true false
  have hsusp := has_parcheDB69 (x := x) (n := n) true false
  have hsuyo : ∃ (y : Cliente) (n' : Nrof), renameUser b name x n =
      (b.nickdb name).elim (y, n') (fun valor ↦ b.renombra (b.ficha valor) y n') ∧
      y.name = name ∧ y.isUser = true ∧ has y.hmodes HMODE_NICKSUSPENDED = false ∧
      Cuenta m x n y n' ∧ (m.tiene y = true ↔ m.tiene x = true ∧
        (m = .invisible ∨ x.autentificado = false)) := by
    generalize hs : parcheDB69 true false x n = s at htiene hcuenta hquien hsusp
    have hvhost := Quien.quitaHmode (x := { s.1 with name := name })
      (has s.1.hmodes HMODE_VHOSTPERSO) HMODE_VHOSTPERSO
    have htiene' : m.tiene ({ s.1 with name := name }.quitaHmode (has s.1.hmodes HMODE_VHOSTPERSO)
        HMODE_VHOSTPERSO) = m.tiene s.1 :=
      tiene_quitaHmode (x := { s.1 with name := name }) (by cases m <;> decide) _
    refine ⟨{ s.1 with name := name }.quitaHmode (has s.1.hmodes HMODE_VHOSTPERSO)
      HMODE_VHOSTPERSO, s.2, ?_, hvhost.name, hvhost.isUser.trans (hquien.isUser.trans hx), ?_,
      hcuenta.tiene_eq htiene', ?_⟩
    · unfold renameUser
      rw [hs]
      dsimp only
      cases hreg : b.nickdb name with
      | none => simp only [hvhost.name, hreg, Option.elim_none]
      | some valor => simp only [hvhost.name, hreg, Option.elim_some]
    · cases has s.1.hmodes HMODE_VHOSTPERSO with
      | false => exact hsusp
      | true => exact has_clearHmode (x := { s.1 with name := name }) hsusp
    · rw [htiene', htiene]
      simp
  obtain ⟨y, n', heq, hname, huser, hysusp, hcuentay, htieney⟩ := hsuyo
  rw [heq]
  unfold Bdd.LimpioRename
  cases hreg : b.nickdb name with
  | none => exact iff_of_true ((cuadra_iff_cuenta hx huser).mpr hcuentay) (by simp)
  | some valor =>
      obtain ⟨z, hcuentaz, htienez, hfin⟩ :=
        marcas_renombra (b := b) (m := m) (n := n') (b.ficha valor) hname hysusp
      have htotal : Cuenta m x n z (b.renombra (b.ficha valor) y n').2 := by
        rw [Cuenta] at hcuentay hcuentaz ⊢
        omega
      rw [Option.elim_some, cuadra_iff_cuenta hx ((quien_renombra _).isUser.trans huser),
        htotal.iff_of_or hfin, htienez, htieney]
      simp only [Option.some.injEq, forall_eq', Bool.and_eq_true_iff, decide_eq_true_eq, and_imp]
      refine forall_congr' fun hsuspendido ↦ ?_
      rw [and_iff_right hsuspendido]

end

end Ircd.User
