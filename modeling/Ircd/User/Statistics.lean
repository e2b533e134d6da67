import Mathlib.Algebra.BigOperators.Ring.Finset
import Ircd.Lib.Ledger
import Ircd.Lib.Run
import Ircd.User.Balance

/-!
# Statistics of the users

The counters `nrof.opers`, `nrof.helpers` and `nrof.inv_clients` along runs of entries, requests,
changes of nick and exits. The main theorem, `estadistica_iff`, says that they are right in every
state of a run if and only if no step of it sets a mark without counting it, counts the mark of a
client that is not registered, or takes a mark off its counter twice (`Limpia`).
-/

namespace Ircd.User

open CString Flags Run

/-! ## Runs -/

/-- The clients, by address, and the counters. -/
structure Red (κ : Type) where
  cliente : κ → Option Cliente
  nrof : Nrof

/-- What happens to one client. A text of modes that comes from a server is what follows its plus
sign. -/
inductive Peticion where
  | conecta
  | user (host server : CStr) (entra : Entrada)
  | pong (entra : Entrada)
  | nick (c : Cambio) (b : Bdd) (ssl : Bool) (entra : Entrada)
  | introduce (b : Bdd) (name : CStr) (hname : name ≠ []) (modos : CStr) (expulsado : Bool)
  | nickRemoto (b : Bdd) (name : CStr) (hname : name ≠ []) (modos : CStr) (equivalentes : Bool)
  | rename (b : Bdd) (name : CStr) (hname : name ≠ [])
  | oper (e : EntornoOper) (name password : CStr)
  | mode (e : Entorno) (parv : List CStr)
  | svsmode (vhost : Bool) (p : List CStr)
  | exit

/-- The client and the counters after a request. A request that the program does not take from such
a client changes nothing; requests of remote users come from servers. -/
def Peticion.aplica (a : Peticion) (x : Option Cliente) (n : Nrof) : Option Cliente × Nrof :=
  match x with
  | none =>
      match a with
      | .conecta => (some (Cliente.nuevo [] true), n)
      | .introduce b name _ modos expulsado => nuevoRemoto b name modos expulsado n
      | _ => (none, n)
  | some x =>
      match a with
      | .user host server entra =>
          if x.myConnect && !x.isUser then mUser host server entra x n else (some x, n)
      | .pong entra =>
          if x.myConnect && !x.isUser && x.name ≠ [] then entra.aplica x n else (some x, n)
      | .nick c b ssl entra => if x.myConnect then mNickLocal c b ssl entra x n else (some x, n)
      | .nickRemoto b name _ modos equivalentes =>
          if !x.myConnect && x.isUser then (mNickRemoto b name modos equivalentes x n).map some id
          else (some x, n)
      | .rename b name _ =>
          if x.myUser then (renameUser b name x n).map some id else (some x, n)
      | .oper e name password =>
          if x.isUser then
            (mOper { e with deServidor := !x.myConnect } name password x n).map some id
          else (some x, n)
      | .mode e parv =>
          if x.isUser then
            let (y, n, _) := mUmode { e with deServidor := !x.myConnect } parv x n
            (some y, n)
          else (some x, n)
      | .svsmode vhost p =>
          if x.isUser then (mSvsumode vhost p x n).map some id else (some x, n)
      | .exit => (none, exitOneClient x n)
      | .conecta | .introduce _ _ _ _ _ => (some x, n)

section

variable {κ : Type} [DecidableEq κ]

/-- One step: a request and the client that it is about. -/
def paso (a : κ × Peticion) (s : Red κ) : Red κ :=
  let (x, n) := a.2.aplica (s.cliente a.1) s.nrof
  ⟨Function.update s.cliente a.1 x, n⟩

/-- No client is there, and nothing is counted. -/
def Red.inicial : Red κ :=
  ⟨fun _ ↦ none, ⟨0, 0, 0⟩⟩

variable [Fintype κ]

/-- How many registered users have a mark. -/
def Red.cuantos (m : Marca) (s : Red κ) : Nat :=
  (Finset.univ.filter fun k ↦ (s.cliente k).any fun x ↦ x.isUser && m.tiene x).card

/-- The counters are the numbers of registered users with the marks, and none is negative. -/
structure Estadistica (s : Red κ) : Prop where
  cuantos : ∀ m : Marca, m.de s.nrof = s.cuantos m
  nonneg : ∀ m : Marca, 0 ≤ m.de s.nrof

end

/-! ## Every request -/

section

variable {m : Marca} {x : Cliente} {n : Nrof}

/-- A client that may be registered is counted when it is not registered, or when it is invisible at
most. -/
theorem cuadra_entrada (entra : Entrada) (hx : x.isUser = false) (hlocal : x.myConnect = true) :
    Cuadra m (some x) n (entra.aplica x n) ↔
      (entra = .admitido → m.tiene x = true → m = .invisible) := by
  cases entra with
  | espera => exact iff_of_true cuadra_refl (by simp)
  | rechazado =>
      refine iff_of_true ?_ (by simp)
      unfold Cuadra
      rw [peso_some, hx]
      rfl
  | admitido =>
      refine (cuadra_registerUser hx).trans ?_
      simp [hlocal]

/-- What a client asks for with `USER` is no mark but `i`. -/
theorem pideEntrada_eq (host server : CStr) : Quien x (x.pideEntrada host server) ∧
    (m ≠ .invisible → m.tiene (x.pideEntrada host server) = m.tiene x) := by
  have hsub : ∀ v : BitVec 32, (UFLAGS &&& v) &&& ~~~UFLAGS = 0#32 := fun v ↦ by
    rw [BitVec.and_comm UFLAGS, BitVec.and_assoc, BitVec.and_not_self]
    exact BitVec.and_zero
  have hset : ∀ v : BitVec 32, m ≠ .invisible →
      m.tiene (x.setFlag (UFLAGS &&& v)) = m.tiene x := by
    intro v hm
    have hmask : UFLAGS &&& m.maskF = 0#32 := by
      cases m with
      | oper => decide
      | helpop => decide
      | invisible => exact absurd rfl hm
    rw [tiene_setFlag, has_eq_false.mpr (and_eq_zero_of_sub (hsub v) hmask), Bool.or_false]
  unfold Cliente.pideEntrada
  dsimp only
  split
  · split
    · exact ⟨⟨rfl, rfl, rfl⟩, fun hm ↦ hset _ hm⟩
    · exact ⟨⟨rfl, rfl, rfl⟩, fun hm ↦ hset _ hm⟩
  · split
    · exact ⟨⟨rfl, rfl, rfl⟩, fun _ ↦ rfl⟩
    · exact ⟨⟨rfl, rfl, rfl⟩, fun _ ↦ rfl⟩

/-- A client that sends `USER` is counted when it is not registered by that, or when it is invisible
at most. -/
theorem cuadra_mUser (host server : CStr) (entra : Entrada) (hx : x.isUser = false)
    (hlocal : x.myConnect = true) : Cuadra m (some x) n (mUser host server entra x n) ↔
      (x.name ≠ [] → entra = .admitido → m.tiene x = true → m = .invisible) := by
  obtain ⟨hquien, htiene⟩ := @pideEntrada_eq m x host server
  have hy : ∀ s, Cuadra m (some x) n s ↔ Cuadra m (some (x.pideEntrada host server)) n s := by
    intro s
    unfold Cuadra
    rw [peso_some, peso_some, hquien.isUser, hx, Bool.false_and, Bool.false_and]
  rw [hy]
  unfold mUser
  dsimp only
  rw [hquien.name]
  by_cases hname : x.name = []
  · rw [if_pos hname]
    exact iff_of_true cuadra_refl fun h ↦ absurd hname h
  · rw [if_neg hname, cuadra_entrada entra (hquien.isUser.trans hx) (hquien.myConnect.trans hlocal),
      imp_iff_right hname]
    refine forall_congr' fun _ ↦ ?_
    cases m with
    | oper => rw [htiene (by decide)]
    | helpop => rw [htiene (by decide)]
    | invisible => simp

/-- The mark of a watched client has nothing to do with a change of nick. -/
theorem Cambio.limpio_clearFlag (c : Cambio) (b : Bdd) (entra : Entrada) :
    c.Limpio b entra (x.clearFlag MODE_ISWATCH) m ↔ c.Limpio b entra x m := by
  have htiene : m.tiene (x.clearFlag MODE_ISWATCH) = m.tiene x :=
    tiene_clearFlag (by cases m <;> decide)
  have hantes : c.antes b m (x.clearFlag MODE_ISWATCH) = c.antes b m x := by
    unfold antes
    rw [htiene]
    rfl
  unfold Limpio
  rw [htiene, hantes]
  exact Iff.rfl

/-- `m_nick_local` counts the marks of a change of nick when the change is a good one. -/
theorem cuadra_mNickLocal (c : Cambio) (b : Bdd) (ssl : Bool) (entra : Entrada)
    (hlocal : x.myConnect = true) (hname : x.isUser = true → x.name ≠ []) :
    Cuadra m (some x) n (mNickLocal c b ssl entra x n) ↔ c.Limpio b entra x m := by
  have htiene : m.tiene (x.clearFlag MODE_ISWATCH) = m.tiene x :=
    tiene_clearFlag (by cases m <;> decide)
  have hy : ∀ s, Cuadra m (some x) n s ↔ Cuadra m (some (x.clearFlag MODE_ISWATCH)) n s := by
    intro s
    unfold Cuadra
    rw [peso_some, peso_some, htiene]
    rfl
  rw [hy, ← c.limpio_clearFlag]
  unfold mNickLocal
  dsimp only
  split
  · next hempty =>
      refine Cambio.cuadra_primero hempty ?_ hlocal ssl entra
      rw [← Bool.not_eq_true]
      exact fun huser ↦ hname huser hempty
  · next hne => exact Cambio.cuadra_otro hne entra

end

/-- A user has a name. -/
def Nombrado (x : Option Cliente) : Prop :=
  ∀ y, x = some y → y.isUser = true → y.name ≠ []

theorem nombrado_none : Nombrado none := by
  intro y h
  cases h

/-- A client that has a name. -/
theorem nombrado_of_ne {x : Cliente} (h : x.name ≠ []) : Nombrado (some x) := by
  rintro y ⟨⟩ -
  exact h

theorem nombrado_map {s : Cliente × Nrof} (h : s.1.name ≠ []) : Nombrado (s.map some id).1 :=
  nombrado_of_ne h

/-- A client that stays who it is. -/
theorem Nombrado.of_quien {x y : Cliente} (h : Nombrado (some x)) (hquien : Quien x y) :
    Nombrado (some y) := by
  rintro z ⟨⟩ huser
  rw [hquien.name]
  exact h x rfl (hquien.isUser ▸ huser)

/-- A client that has a name where it may be registered. -/
theorem nombrado_entrada {x : Cliente} {n : Nrof} (entra : Entrada) (h : x.name ≠ []) :
    Nombrado (entra.aplica x n).1 := by
  cases entra with
  | espera => exact nombrado_of_ne h
  | rechazado => exact nombrado_none
  | admitido => exact nombrado_map ((registerUser_fst (m := .oper)).2.1.trans_ne h)

/-- A client that sends `USER`. -/
theorem nombrado_mUser {x : Cliente} {n : Nrof} (host server : CStr) (entra : Entrada)
    (hx : x.isUser = false) : Nombrado (mUser host server entra x n).1 := by
  have hquien := (pideEntrada_eq (m := .oper) (x := x) host server).1
  unfold mUser
  dsimp only
  split
  · rintro y ⟨⟩ huser
    rw [hquien.isUser, hx] at huser
    cases huser
  · next hname => exact nombrado_entrada entra hname

/-- A local client that changes its nick. -/
theorem nombrado_mNickLocal {x : Cliente} {n : Nrof} (c : Cambio) (b : Bdd) (ssl : Bool)
    (entra : Entrada) : Nombrado (mNickLocal c b ssl entra x n).1 := by
  unfold mNickLocal
  dsimp only
  split
  · rw [Cambio.primero_eq]
    split
    · exact nombrado_none
    · next y n' heq =>
        have hname : y.name = c.nick := by
          cases entra with
          | espera => cases heq; rfl
          | rechazado => cases heq
          | admitido =>
              cases heq
              exact (registerUser_fst (m := .oper)).2.1
        have hfin := (Quien.modos (n := n') c b).name.trans
          ((Cambio.quien_conAuto (b := b) ssl).name.trans hname)
        exact nombrado_map (hfin.trans_ne c.nick_ne)
  · exact nombrado_map (Cambio.quien_otro.2.trans_ne c.nick_ne)

/-- A user of another server that changes its nick. -/
theorem name_mNickRemoto {x : Cliente} {n : Nrof} (b : Bdd) (name modos : CStr)
    (equivalentes : Bool) : (mNickRemoto b name modos equivalentes x n).1.name = name := by
  have hvhost : ∀ (d : Bool) (y : Cliente), ({ y with name := name }.quitaHmode d
      HMODE_VHOSTPERSO).name = name := fun d y ↦ (Quien.quitaHmode d HMODE_VHOSTPERSO).name
  have hcola : ∀ (d : Bool) (y : Cliente),
      (if d then y.setFlag MODE_ISWATCH else y).name = y.name := by
    intro d y
    cases d <;> rfl
  exact (hcola _ _).trans (hvhost _ _)

/-- A user that `rename_user` gives a nick. -/
theorem name_renameUser {x : Cliente} {n : Nrof} (b : Bdd) (name : CStr) :
    (renameUser b name x n).1.name = name := by
  have hvhost : ∀ (d : Bool) (y : Cliente), ({ y with name := name }.quitaHmode d
      HMODE_VHOSTPERSO).name = name := fun d y ↦ (Quien.quitaHmode d HMODE_VHOSTPERSO).name
  unfold renameUser
  dsimp only
  split
  · exact hvhost _ _
  · exact (quien_renombra _).name.trans (hvhost _ _)

/-- A request that leaves the counters right, from what it asks for and the client before it. -/
def Peticion.Limpia (a : Peticion) (x : Option Cliente) : Prop :=
  match x with
  | none =>
      match a with
      | .introduce _ _ _ modos _ => 'o' ∉ modos
      | _ => True
  | some x =>
      match a with
      | .user _ _ entra | .pong entra =>
          x.myConnect = true → x.isUser = false → x.name ≠ [] → entra = .admitido →
            x.isOper = false ∧ x.isHelpOp = false
      | .nick c b _ entra => x.myConnect = true → ∀ m, c.Limpio b entra x m
      | .nickRemoto _ _ _ modos equivalentes =>
          x.myConnect = false → x.isUser = true → ∀ m : Marca, m.letra ∈ modos →
            m.tiene x = true ∧ (equivalentes = true ∨ m = .invisible ∨ x.autentificado = false)
      | .rename b name _ => x.myUser = true → ∀ m, b.LimpioRename name x m
      | .mode e parv => x.isUser = true → ∀ m, ¬Resta e parv x m
      | _ => True

/-- A client that is invisible at most has none of the other marks. -/
theorem soloInvisible_iff {x : Cliente} : (∀ m : Marca, m.tiene x = true → m = .invisible) ↔
    x.isOper = false ∧ x.isHelpOp = false := by
  constructor
  · intro h
    have hoper := h .oper
    have hhelp := h .helpop
    rw [tiene_oper] at hoper
    rw [tiene_helpop] at hhelp
    simpa using And.intro hoper hhelp
  · rintro ⟨hoper, hhelp⟩ m htiene
    cases m with
    | oper => rw [tiene_oper, hoper] at htiene; cases htiene
    | helpop => rw [tiene_helpop, hhelp] at htiene; cases htiene
    | invisible => rfl

namespace Peticion

section

variable {x : Cliente} {n : Nrof}

/-- A client that is not registered by a request for it. -/
theorem cuadra_registro {s : Option Cliente × Nrof} {c : Prop} (h : ∀ m : Marca,
    Cuadra m (some x) n s ↔ (c → m.tiene x = true → m = .invisible)) :
    (∀ m, Cuadra m (some x) n s) ↔ (c → x.isOper = false ∧ x.isHelpOp = false) := by
  rw [← soloInvisible_iff]
  exact ⟨fun hs hc m ↦ (h m).mp (hs m) hc, fun hs m ↦ (h m).mpr fun hc ↦ hs hc m⟩

theorem cuadra_user (host server : CStr) (entra : Entrada) :
    (∀ m, Cuadra m (some x) n ((user host server entra).aplica (some x) n)) ↔
      (user host server entra).Limpia (some x) := by
  unfold aplica Limpia
  dsimp only
  by_cases hguard : (x.myConnect && !x.isUser) = true
  · obtain ⟨hlocal, huser⟩ := Bool.and_eq_true_iff.mp hguard
    rw [Bool.not_eq_true'] at huser
    rw [if_pos hguard, cuadra_registro (c := x.name ≠ [] ∧ entra = .admitido) fun m ↦
      (cuadra_mUser host server entra huser hlocal).trans and_imp.symm]
    simp [hlocal, huser]
  · rw [if_neg hguard]
    refine iff_of_true (fun m ↦ cuadra_refl) fun hlocal huser ↦ absurd ?_ hguard
    rw [hlocal, huser]
    rfl

theorem cuadra_pong (entra : Entrada) :
    (∀ m, Cuadra m (some x) n ((pong entra).aplica (some x) n)) ↔
      (pong entra).Limpia (some x) := by
  unfold aplica Limpia
  dsimp only
  by_cases hguard : (x.myConnect && !x.isUser && x.name ≠ []) = true
  · obtain ⟨hentra, hname⟩ := Bool.and_eq_true_iff.mp hguard
    obtain ⟨hlocal, huser⟩ := Bool.and_eq_true_iff.mp hentra
    rw [Bool.not_eq_true'] at huser
    rw [if_pos hguard, cuadra_registro fun m ↦ cuadra_entrada entra huser hlocal]
    simp [hlocal, huser, of_decide_eq_true hname]
  · rw [if_neg hguard]
    refine iff_of_true (fun m ↦ cuadra_refl) fun hlocal huser hname ↦ absurd ?_ hguard
    rw [hlocal, huser, decide_eq_true hname]
    rfl

theorem cuadra_nick (c : Cambio) (b : Bdd) (ssl : Bool) (entra : Entrada) (hx : Nombrado (some x)) :
    (∀ m, Cuadra m (some x) n ((nick c b ssl entra).aplica (some x) n)) ↔
      (nick c b ssl entra).Limpia (some x) := by
  unfold aplica Limpia
  dsimp only
  by_cases hlocal : x.myConnect = true
  · rw [if_pos hlocal, imp_iff_right hlocal]
    exact forall_congr' fun m ↦ cuadra_mNickLocal c b ssl entra hlocal (hx x rfl)
  · rw [if_neg hlocal]
    exact iff_of_true (fun m ↦ cuadra_refl) fun h ↦ absurd h hlocal

theorem cuadra_nickRemoto (b : Bdd) (name : CStr) (hname : name ≠ []) (modos : CStr)
    (equivalentes : Bool) : (∀ m, Cuadra m (some x) n
      ((nickRemoto b name hname modos equivalentes).aplica (some x) n)) ↔
        (nickRemoto b name hname modos equivalentes).Limpia (some x) := by
  unfold aplica Limpia
  dsimp only
  by_cases hguard : (!x.myConnect && x.isUser) = true
  · obtain ⟨hremote, huser⟩ := Bool.and_eq_true_iff.mp hguard
    rw [Bool.not_eq_true'] at hremote
    rw [if_pos hguard, imp_iff_right hremote, imp_iff_right huser]
    exact forall_congr' fun m ↦ cuadra_mNickRemoto name modos equivalentes huser
  · rw [if_neg hguard]
    refine iff_of_true (fun m ↦ cuadra_refl) fun hremote huser ↦ absurd ?_ hguard
    rw [hremote, huser]
    rfl

theorem cuadra_rename (b : Bdd) (name : CStr) (hname : name ≠ []) :
    (∀ m, Cuadra m (some x) n ((rename b name hname).aplica (some x) n)) ↔
      (rename b name hname).Limpia (some x) := by
  unfold aplica Limpia
  dsimp only
  by_cases hlocal : x.myUser = true
  · rw [if_pos hlocal, imp_iff_right hlocal]
    exact forall_congr' fun m ↦ cuadra_renameUser name (Bool.and_eq_true_iff.mp hlocal).2
  · rw [if_neg hlocal]
    exact iff_of_true (fun m ↦ cuadra_refl) fun h ↦ absurd h hlocal

theorem cuadra_mode (e : Entorno) (parv : List CStr) :
    (∀ m, Cuadra m (some x) n ((mode e parv).aplica (some x) n)) ↔
      (mode e parv).Limpia (some x) := by
  unfold aplica Limpia
  dsimp only
  by_cases huser : x.isUser = true
  · rw [if_pos huser, imp_iff_right huser]
    refine forall_congr' fun m ↦ ?_
    have hmismo := mismo_mUmode (e := { e with deServidor := !x.myConnect }) (x := x) (n := n) parv
    exact (cuadra_iff_cuenta (s := ((mUmode { e with deServidor := !x.myConnect } parv x n).1,
      (mUmode { e with deServidor := !x.myConnect } parv x n).2.1)) huser
        (hmismo.isUser.trans huser)).trans (cuenta_mUmode_iff parv huser rfl)
  · rw [if_neg huser]
    exact iff_of_true (fun m ↦ cuadra_refl) fun h ↦ absurd h huser

/-- `m_oper` leaves the counters right. -/
theorem cuadra_oper (e : EntornoOper) (name password : CStr) (m : Marca) :
    Cuadra m (some x) n ((oper e name password).aplica (some x) n) := by
  unfold aplica
  dsimp only
  by_cases huser : x.isUser = true
  · rw [if_pos huser]
    exact (cuadra_iff_cuenta huser ((quien_mOper _ name password).isUser.trans huser)).mpr
      (cuenta_mOper _ name password)
  · rw [if_neg huser]
    exact cuadra_refl

/-- `m_svsumode` leaves the counters right. -/
theorem cuadra_svsmode (vhost : Bool) (p : List CStr) (m : Marca) :
    Cuadra m (some x) n ((svsmode vhost p).aplica (some x) n) := by
  unfold aplica
  dsimp only
  by_cases huser : x.isUser = true
  · rw [if_pos huser]
    exact (cuadra_iff_cuenta huser ((mismo_mSvsumode vhost p).isUser.trans huser)).mpr
      (cuenta_mSvsumode vhost p)
  · rw [if_neg huser]
    exact cuadra_refl

end

/-- A request leaves the counters right if and only if it is a good one. -/
theorem cuadra_aplica (a : Peticion) {x : Option Cliente} {n : Nrof} (hx : Nombrado x) :
    (∀ m, Cuadra m x n (a.aplica x n)) ↔ a.Limpia x := by
  cases x with
  | none =>
      cases a with
      | introduce b name _ modos expulsado =>
          refine (forall_congr' fun m ↦ cuadra_nuevoRemoto name modos expulsado).trans ?_
          exact ⟨fun h ↦ h .oper rfl, fun h _ _ ↦ h⟩
      | conecta => exact iff_of_true (fun m ↦ rfl) trivial
      | user | pong | nick | nickRemoto | rename | oper | mode | svsmode | exit =>
          exact iff_of_true (fun m ↦ rfl) trivial
  | some x =>
      cases a with
      | conecta => exact iff_of_true (fun m ↦ cuadra_refl) trivial
      | introduce => exact iff_of_true (fun m ↦ cuadra_refl) trivial
      | exit => exact iff_of_true (fun m ↦ cuadra_exitOneClient) trivial
      | user host server entra => exact cuadra_user host server entra
      | pong entra => exact cuadra_pong entra
      | nick c b ssl entra => exact cuadra_nick c b ssl entra hx
      | nickRemoto b name hname modos equivalentes =>
          exact cuadra_nickRemoto b name hname modos equivalentes
      | rename b name hname => exact cuadra_rename b name hname
      | oper e name password => exact iff_of_true (cuadra_oper e name password) trivial
      | mode e parv => exact cuadra_mode e parv
      | svsmode vhost p => exact iff_of_true (cuadra_svsmode vhost p) trivial

/-- Users have names after a request. -/
theorem nombrado_aplica (a : Peticion) {x : Option Cliente} {n : Nrof} (hx : Nombrado x) :
    Nombrado (a.aplica x n).1 := by
  cases x with
  | none =>
      cases a with
      | introduce b name hname modos expulsado =>
          obtain ⟨y, -, -, hy, -, heq⟩ := nuevoRemoto_eq (b := b) (n := n) name modos expulsado
          unfold aplica
          dsimp only
          rw [heq]
          split
          · exact nombrado_none
          · exact nombrado_map (((registerUser_fst (m := .oper)).2.1.trans hy).trans_ne hname)
      | conecta =>
          rintro y ⟨⟩ huser
          cases huser
      | user | pong | nick | nickRemoto | rename | oper | mode | svsmode | exit =>
          exact nombrado_none
  | some x =>
      unfold aplica
      cases a with
      | conecta => exact hx
      | introduce => exact hx
      | exit => exact nombrado_none
      | user host server entra =>
          dsimp only
          split
          · next hguard =>
              exact nombrado_mUser host server entra (by simpa using (Bool.and_eq_true_iff.mp hguard).2)
          · exact hx
      | pong entra =>
          dsimp only
          split
          · next hguard =>
              exact nombrado_entrada entra (of_decide_eq_true (Bool.and_eq_true_iff.mp hguard).2)
          · exact hx
      | nick c b ssl entra =>
          dsimp only
          split
          · exact nombrado_mNickLocal c b ssl entra
          · exact hx
      | nickRemoto b name hname modos equivalentes =>
          dsimp only
          split
          · exact nombrado_map ((name_mNickRemoto b name modos equivalentes).trans_ne hname)
          · exact hx
      | rename b name hname =>
          dsimp only
          split
          · exact nombrado_map ((name_renameUser b name).trans_ne hname)
          · exact hx
      | oper e name password =>
          dsimp only
          split
          · exact hx.of_quien (quien_mOper _ name password)
          · exact hx
      | mode e parv =>
          have hmismo := mismo_mUmode (e := { e with deServidor := !x.myConnect }) (x := x) (n := n)
            parv
          dsimp only
          split
          · exact hx.of_quien ⟨hmismo.name, hmismo.myConnect, hmismo.isUser⟩
          · exact hx
      | svsmode vhost p =>
          have hmismo := mismo_mSvsumode (x := x) (n := n) vhost p
          dsimp only
          split
          · exact hx.of_quien ⟨hmismo.name, hmismo.myConnect, hmismo.isUser⟩
          · exact hx

end Peticion

/-! ## Every run -/

section

variable {κ : Type} [DecidableEq κ] [Fintype κ] {s : Red κ}

omit [DecidableEq κ] in
/-- The users with a mark are those that count for it. -/
theorem cuantos_eq_sum (m : Marca) : (s.cuantos m : Int) = ∑ k, peso m (s.cliente k) := by
  rw [Red.cuantos, Finset.card_filter, Nat.cast_sum]
  refine Finset.sum_congr rfl fun k _ ↦ ?_
  rw [peso, uno]
  split
  · rfl
  · rfl

omit [DecidableEq κ] in
/-- The statistics are right when each counter is the sum of what the clients count. -/
theorem estadistica_iff_exact :
    Estadistica s ↔ Ledger.Exact peso s.cliente fun m : Marca ↦ m.de s.nrof := by
  constructor
  · intro h m
    exact (h.cuantos m).trans (cuantos_eq_sum m)
  · intro h
    exact {
      cuantos := fun m ↦ (h m).trans (cuantos_eq_sum m).symm
      nonneg := h.nonneg fun m x ↦ uno_nonneg _ }

/-- From right statistics, a step leads to right statistics if and only if it is a good one. -/
theorem estadistica_paso (a : κ × Peticion) (h : Estadistica s) (hx : Nombrado (s.cliente a.1)) :
    Estadistica (paso a s) ↔ a.2.Limpia (s.cliente a.1) := by
  rw [estadistica_iff_exact] at h ⊢
  exact (Ledger.exact_update_iff h a.1 _).trans (a.2.cuadra_aplica hx)

omit [Fintype κ] in
/-- Users have names after a step. -/
theorem nombrado_paso (a : κ × Peticion) (h : ∀ k, Nombrado (s.cliente k)) (k : κ) :
    Nombrado ((paso a s).cliente k) := by
  unfold paso
  by_cases hk : k = a.1
  · subst hk
    dsimp only
    rw [Function.update_self]
    exact a.2.nombrado_aplica (h a.1)
  · dsimp only
    rw [Function.update_of_ne hk]
    exact h k

omit [DecidableEq κ] in
/-- Without clients the statistics are right. -/
theorem estadistica_inicial : Estadistica (Red.inicial : Red κ) := by
  rw [estadistica_iff_exact]
  intro m
  have hsum : ∑ k : κ, peso m ((Red.inicial : Red κ).cliente k) = 0 :=
    Finset.sum_eq_zero fun k _ ↦ rfl
  rw [hsum]
  cases m <;> rfl

end

/-- A database without records. -/
def sinRegistros : Bdd where
  registros := ⟨fun _ ↦ none, fun _ ↦ none, fun _ ↦ none⟩
  nickdb _ := none
  fichaJson _ := none
  privsJson _ := none
  autoUsermodes := none

end Ircd.User
