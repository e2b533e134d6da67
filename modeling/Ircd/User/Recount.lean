import Ircd.User.Grants
import Ircd.User.Marks

/-!
# Requests and the counters

What `m_umode`, `m_svsumode` and `m_oper` do to the counters. All three count the marks that a
client gains and loses, but `m_umode` takes the marks of a local client whose nick is not registered
off the counters twice, once where it clears them and once where it compares the modes with the old
ones (`de_mUmode`). `Resta` says which requests come to that.
-/

namespace Ircd.User

open CString Flags

/-! ## The letters of an operator -/

/-- What the letters ask for the mode of an operator: `-O` takes it away as well as `-o`. -/
def pedidoOper (what on : Bool) : List Letra → Bool
  | [] => on
  | (c, _) :: xs =>
      if c = '+' then pedidoOper true on xs
      else if c = '-' then pedidoOper false on xs
      else if c = 'o' then pedidoOper what what xs
      else if c = 'O' then pedidoOper what (what && on) xs
      else pedidoOper what on xs

/-- The letters of a request and what they ask for the mode of an operator. -/
def pideOper (on : Bool) (p : List CStr) : Bool :=
  pedidoOper true on (letrasUmodes p.length p)

section

variable {l : Lectura} {c : Char} {sigue : Option CStr}

/-- What a letter does to the mode of an operator. -/
theorem has_letra_oper : has (l.letra c sigue).sptr.flags FLAGS_OPER =
    if c = 'o' then l.what
    else if c = 'O' then l.what && has l.sptr.flags FLAGS_OPER
    else has l.sptr.flags FLAGS_OPER := by
  unfold Lectura.letra
  split
  · rfl
  · rfl
  · obtain ⟨-, b, heq⟩ := @servnotice_eq l sigue
    rw [heq, if_neg (by decide), if_neg (by decide)]
    exact has_put_of_disjoint (by decide) b
  · rfl
  · rfl
  · rfl
  · rfl
  · cases hfind : userModes.find? fun flag ↦ flag.2 = c with
    | some a =>
        have ha := List.mem_of_find?_eq_some hfind
        have hletra : a.2 = c := by simpa using List.find?_some hfind
        rw [(modo_of_userModes hfind).2]
        subst hletra
        simp only [userModes, List.mem_cons, List.not_mem_nil, or_false] at ha
        rcases ha with rfl | rfl | rfl | rfl | rfl | rfl | rfl | rfl
        · cases l.what with
          | false => exact has_clear_of_sub (by decide)
          | true => exact has_or.trans ((congrArg _ (has_self (by decide))).trans (Bool.or_true _))
        · cases l.what with
          | false => exact has_clear_of_sub (by decide)
          | true => exact has_or.trans (Bool.or_false _)
        all_goals
          cases l.what with
          | false => exact has_clear_of_disjoint (by decide)
          | true => exact has_or.trans (Bool.or_false _)
    | none =>
        have hno : c ≠ 'o' ∧ c ≠ 'O' := by
          constructor <;>
          · rintro rfl
            exact absurd hfind (by decide)
        rw [if_neg hno.1, if_neg hno.2]
        cases hfind' : userHmodes.find? fun flag ↦ flag.2 = c with
        | some a => rw [(modo_of_userHmodes hfind hfind').2]
        | none => rw [(modo_of_none hfind hfind').2]

/-- What a request asks for the mode of an operator. -/
theorem has_foldl_oper (xs : List Letra) (l : Lectura) :
    has (xs.foldl Lectura.lee l).sptr.flags FLAGS_OPER =
      pedidoOper l.what (has l.sptr.flags FLAGS_OPER) xs := by
  induction xs generalizing l with
  | nil => rfl
  | cons x xs ih =>
      obtain ⟨c, sigue⟩ := x
      rw [List.foldl_cons, ih, pedidoOper, Lectura.lee, what_letra, has_letra_oper]
      by_cases hplus : c = '+'
      · subst hplus
        rfl
      · rw [if_neg hplus, if_neg hplus]
        by_cases hminus : c = '-'
        · subst hminus
          rfl
        · rw [if_neg hminus, if_neg hminus]
          split_ifs <;> rfl

/-- The mode of an operator after a request has been read. -/
theorem has_lee_oper (p : List CStr) (sptr : Cliente) :
    has (sptr.lee p).sptr.flags FLAGS_OPER = pideOper (has sptr.flags FLAGS_OPER) p := by
  rw [Cliente.lee, leeUmodes_eq, has_foldl_oper, pideOper]

end

/-! ## Old and new modes are compared -/

section

variable {m : Marca} {x : Cliente} {n : Nrof}

/-- The marks among the modes that a loop over the tables finds. -/
theorem en_recoge : m.en (recoge userModes x.flags) (recoge userHmodes x.hmodes) = m.tiene x := by
  have hzero : ∀ f : BitVec 32, has f 0#32 = false := fun f ↦ has_eq_false.mpr BitVec.and_zero
  cases m with
  | oper =>
      rw [tiene_oper, Marca.en, Marca.maskF, Marca.maskH, hzero, Bool.or_false]
      exact separa_userModes.has_recoge (a := (FLAGS_OPER, 'o')) (by decide) x.flags
  | helpop =>
      rw [tiene_helpop, Marca.en, Marca.maskF, Marca.maskH, hzero, Bool.false_or]
      exact separa_userHmodes.has_recoge (a := (HMODE_HELPOP, 'h')) (by decide) x.hmodes
  | invisible =>
      rw [tiene_invisible, Marca.en, Marca.maskF, Marca.maskH, hzero, Bool.or_false]
      exact separa_userModes.has_recoge (a := (FLAGS_INVISIBLE, 'i')) (by decide) x.flags

/-- The comparison of the modes counts each mark that was gained or lost. -/
theorem de_cuenta (setflags sethmodes : BitVec 32) : m.de (n.cuenta setflags sethmodes x) =
    m.de n + uno (m.tiene x) - uno (m.en setflags sethmodes) := by
  have hzero : ∀ f : BitVec 32, has f 0#32 = false := fun f ↦ has_eq_false.mpr BitVec.and_zero
  cases m with
  | oper =>
      rw [tiene_oper, Marca.en, Marca.maskF, Marca.maskH, hzero, Bool.or_false, Marca.de, Marca.de,
        Nrof.cuenta]
      cases has setflags FLAGS_OPER <;> cases x.isOper <;> simp
  | helpop =>
      rw [tiene_helpop, Marca.en, Marca.maskF, Marca.maskH, hzero, Bool.false_or, Marca.de, Marca.de,
        Nrof.cuenta]
      cases has sethmodes HMODE_HELPOP <;> cases x.isHelpOp <;> simp
  | invisible =>
      rw [tiene_invisible, Marca.en, Marca.maskF, Marca.maskH, hzero, Bool.or_false, Marca.de,
        Marca.de, Nrof.cuenta]
      cases has setflags FLAGS_INVISIBLE <;> cases has x.flags FLAGS_INVISIBLE <;> simp

/-- A letter of `m_svsumode` changes the modes only. -/
theorem mismo_letraSvs (l : LecturaSvs) (c : Char) : Mismo l.acptr (l.letra c).acptr := by
  unfold LecturaSvs.letra
  split
  · exact .refl _
  · exact .refl _
  · cases l.what <;> exact ⟨rfl, rfl, rfl, rfl⟩
  · exact .refl _
  · exact .refl _
  · exact .refl _
  · exact .refl _
  · unfold LecturaSvs.modo
    split
    · split
      · exact ⟨rfl, rfl, rfl, rfl⟩
      · split
        · exact ⟨rfl, rfl, rfl, rfl⟩
        · exact ⟨rfl, rfl, rfl, rfl⟩
    · split
      · cases l.what <;> exact ⟨rfl, rfl, rfl, rfl⟩
      · exact .refl _

/-- `m_svsumode` counts the marks that it changes. -/
theorem cuenta_mSvsumode (vhost : Bool) (p : List CStr) :
    Cuenta m x n (mSvsumode vhost p x n).1 (mSvsumode vhost p x n).2 := by
  unfold mSvsumode
  dsimp only
  generalize (p.flatten.foldl LecturaSvs.letra ⟨x, true, 0#32⟩) = l
  have hvhost : m.tiene (l.acptr.quitaHmode (!vhost) HMODE_VHOSTPERSO) = m.tiene l.acptr :=
    tiene_quitaHmode (by cases m <;> decide) _
  have hcuenta : Cuenta m x n l.acptr
      (n.cuenta (recoge userModes x.flags) (recoge userHmodes x.hmodes) l.acptr) := by
    rw [Cuenta, de_cuenta, en_recoge]
    omega
  refine hcuenta.tiene_eq ?_
  split
  · rw [tiene_setSnomask, hvhost]
  · exact hvhost

/-- `m_svsumode` changes the modes only. -/
theorem mismo_mSvsumode (vhost : Bool) (p : List CStr) : Mismo x (mSvsumode vhost p x n).1 := by
  have hfold : ∀ (cs : List Char) (l : LecturaSvs),
      Mismo l.acptr (cs.foldl LecturaSvs.letra l).acptr := by
    intro cs
    induction cs with
    | nil => exact fun l ↦ .refl _
    | cons c cs ih => exact fun l ↦ (mismo_letraSvs l c).trans (ih _)
  have hl := hfold p.flatten ⟨x, true, 0#32⟩
  unfold mSvsumode
  dsimp only
  generalize p.flatten.foldl LecturaSvs.letra ⟨x, true, 0#32⟩ = l at hl
  have hvhost : Mismo l.acptr (l.acptr.quitaHmode (!vhost) HMODE_VHOSTPERSO) := by
    cases vhost <;> exact ⟨rfl, rfl, rfl, rfl⟩
  split
  · exact (hl.trans hvhost).trans ⟨rfl, rfl, rfl, rfl⟩
  · exact hl.trans hvhost

/-! ## Operators -/

/-- A client that becomes an operator is counted. -/
theorem cuenta_setOper (hoper : x.isOper = false) :
    Cuenta m x n (x.setFlag FLAGS_OPER) { n with opers := n.opers + 1 } := by
  have hset : has FLAGS_OPER m.maskF = decide (m = .oper) := by
    cases m <;> decide
  rw [Cuenta, tiene_setFlag, hset]
  cases m with
  | oper => simp [Marca.de, hoper]
  | helpop => simp [Marca.de]
  | invisible => simp [Marca.de]

/-- `SetOperCmd` sets no bit of the word. -/
theorem Cliente.setOperCmd_eq : x.setOperCmd = x := by
  have hflags : (x.flags.setWidth 64 ||| FLAGS_OPERCMD).setWidth 32 = x.flags := by
    rw [BitVec.setWidth_or, BitVec.setWidth_setWidth_of_le _ (by decide), BitVec.setWidth_eq]
    exact BitVec.or_zero
  rw [setOperCmd, hflags]

/-- A client that was no operator and becomes one by a line of the configuration is counted. -/
theorem cuenta_hazOper (aconf : ConfOper) (hoper : x.isOper = false) :
    Cuenta m x n (aconf.hazOper x n).1 (aconf.hazOper x n).2 := by
  have hwallop : has (FLAGS_WALLOP ||| FLAGS_SERVNOTICE ||| FLAGS_DEBUG) m.maskF = false := by
    cases m <;> decide
  have hlocop : has FLAGS_LOCOP m.maskF = false := by
    cases m <;> decide
  have hcola : ∀ y : Cliente, m.tiene ({ ((y.setFlag (FLAGS_WALLOP ||| FLAGS_SERVNOTICE |||
      FLAGS_DEBUG)).setSnomask SNO_OPERDEFAULT .add) with privs := aconf.privs }.setOperCmd) =
        m.tiene y := by
    intro y
    have hset : m.tiene (y.setFlag (FLAGS_WALLOP ||| FLAGS_SERVNOTICE ||| FLAGS_DEBUG)) =
        m.tiene y := by
      rw [tiene_setFlag, hwallop, Bool.or_false]
    rw [Cliente.setOperCmd_eq]
    exact hset
  unfold ConfOper.hazOper
  cases !x.myConnect || aconf.locop with
  | true =>
      rw [if_pos rfl]
      refine (Cuenta.refl (x := x)).tiene_eq ?_
      rw [hcola, tiene_setFlag, hlocop, Bool.or_false]
      cases m with
      | oper => rw [tiene_oper, tiene_oper, hoper]; exact has_clear_of_sub (by decide)
      | helpop => exact tiene_clearFlag (by decide)
      | invisible => exact tiene_clearFlag (by decide)
  | false =>
    rw [if_neg Bool.false_ne_true]
    have hclear : m.tiene (x.clearFlag FLAGS_LOCOP) = m.tiene x :=
      tiene_clearFlag (by cases m <;> decide)
    have hoper' : (x.clearFlag FLAGS_LOCOP).isOper = false :=
      (has_clear_of_disjoint (by decide)).trans hoper
    dsimp only
    rw [hoper', Bool.not_false, if_pos rfl]
    exact ((cuenta_setOper hoper').of_tiene hclear).tiene_eq (hcola _)

/-- `m_oper` counts the mark that it sets. -/
theorem cuenta_mOper (e : EntornoOper) (name password : CStr) :
    Cuenta m x n (mOper e name password x n).1 (mOper e name password x n).2 := by
  unfold mOper
  by_cases hparam : !e.deServidor ∧ (name = [] ∨ password = [])
  · rw [if_pos hparam]
    exact .refl
  · rw [if_neg hparam]
    by_cases hserv : e.deServidor ∧ !x.isOper
    · rw [if_pos hserv]
      exact cuenta_setOper (by simpa using hserv.2)
    · rw [if_neg hserv]
      by_cases han : x.isAnOper = true
      · rw [if_pos han]
        exact .refl
      · rw [if_neg han]
        have hoper : x.isOper = false := by
          rw [Bool.not_eq_true, Cliente.isAnOper, has_eq_false] at han
          exact has_eq_false.mpr ((BitVec.and_comm ..).trans
            (and_eq_zero_of_sub (by decide) ((BitVec.and_comm ..).trans han)))
        cases e.conf with
        | none => exact .refl
        | some aconf =>
            dsimp only
            split
            · exact .refl
            · split
              · exact cuenta_hazOper aconf hoper
              · exact .refl

/-- A client stays who it is when it becomes an operator. -/
theorem quien_mOper (e : EntornoOper) (name password : CStr) :
    Quien x (mOper e name password x n).1 := by
  have hhaz : ∀ aconf : ConfOper, Quien x (aconf.hazOper x n).1 := by
    intro aconf
    unfold ConfOper.hazOper
    cases !x.myConnect || aconf.locop with
    | true => exact ⟨rfl, rfl, rfl⟩
    | false => exact ⟨rfl, rfl, rfl⟩
  unfold mOper
  split
  · exact .refl x
  · split
    · exact ⟨rfl, rfl, rfl⟩
    · split
      · exact .refl x
      · split
        · exact .refl x
        · split
          · exact .refl x
          · split
            · exact hhaz _
            · exact .refl x

end

/-! ## `m_umode` -/

namespace Revision

variable {r : Revision} {m : Marca} {x : Cliente} {n : Nrof}

/-- The counters after the test of a nick that is not registered. -/
theorem noRegistrado_snd : (r.noRegistrado x n).2 =
    { n with opers := n.opers - uno x.isOper, helpers := n.helpers - uno x.isHelpOp } := by
  have hhelp : (((x.clearHmode HMODE_MSGONLYREG).clearHmode HMODE_NOCHAN).clearHmode
      HMODE_DOCKING).isHelpOp = x.isHelpOp := by
    rw [← tiene_helpop, tiene_clearHmode (by decide), tiene_clearHmode (by decide),
      tiene_clearHmode (by decide), tiene_helpop]
  have hoper : ((((((x.clearHmode HMODE_MSGONLYREG).clearHmode HMODE_NOCHAN).clearHmode
      HMODE_DOCKING).clearHmode HMODE_HELPOP).clearHmode HMODE_ADMIN).clearHmode
        HMODE_CODER).isOper = x.isOper := rfl
  unfold noRegistrado
  dsimp only
  rw [hhelp, hoper]
  cases x.isHelpOp <;> cases x.isOper <;> simp

/-- The mark is taken off its counter before the modes are compared. -/
def descuenta (m : Marca) (x : Cliente) : Bool :=
  decide (m ≠ .invisible) && (x.myConnect && (!has x.hmodes HMODE_NICKREGISTERED && m.tiene x))

/-- A counter after the test of the nick. -/
theorem de_segunNick : m.de (r.segunNick x n).2 = m.de n - uno (descuenta m x) := by
  unfold segunNick descuenta
  cases x.myConnect with
  | false => simp
  | true =>
      cases has x.hmodes HMODE_NICKREGISTERED with
      | true => simp
      | false =>
          have hsnd := noRegistrado_snd (r := r) (x := x) (n := n)
          cases m <;> simp [hsnd, Marca.de]

/-- A counter after all the tests. -/
theorem de_aplica : m.de (r.aplica x n).2 = m.de n - uno (descuenta m (r.medio x)) :=
  de_segunNick

/-- The test of a registered nick changes the modes only. -/
theorem mismo_registrado : Mismo x (r.registrado x) := by
  have hquita : ∀ (c : Bool) (f : BitVec 32) (y : Cliente), Mismo y (y.quitaHmode c f) :=
    fun c _ _ ↦ by cases c <;> exact ⟨rfl, rfl, rfl, rfl⟩
  unfold registrado
  dsimp only
  generalize hy : Cliente.quitaHmode _ HMODE_VHOSTPERSO _ = y
  have hxy : Mismo x y := hy ▸ (hquita _ _ x).trans
    ((hquita _ _ _).trans ((hquita _ _ _).trans (hquita _ _ _)))
  split
  · split
    · exact hxy.trans ⟨rfl, rfl, rfl, rfl⟩
    · exact hxy.trans ⟨rfl, rfl, rfl, rfl⟩
  · exact hxy

/-- The tests change the modes only. -/
theorem mismo_aplica : Mismo x (r.aplica x n).1 := by
  have hnick : Mismo (r.medio x) (r.segunNick (r.medio x) n).1 := by
    unfold segunNick
    split
    · exact mismo_registrado
    · split
      · exact recorta_noRegistrado.toMismo
      · exact .refl _
  exact (r.mismo_medio x).trans <| hnick.trans <|
    recorta_ircops.toMismo.trans recorta_privilegios.toMismo

end Revision

/-- A request by which `m_umode` takes a mark off its counter twice: that of a local client whose
nick is not registered, and which has the mark after its letters have been read, and after the test
of the operators. -/
def Resta (e : Entorno) (parv : List CStr) (x : Cliente) (m : Marca) : Prop :=
  x.myConnect = true ∧ has x.hmodes HMODE_NICKREGISTERED = false ∧
    ∃ de name p, parv = de :: name :: p ∧ p ≠ [] ∧ e.findUser name = some true ∧
      match m with
      | .oper => pideOper x.isOper p = true ∧ (x.isOper = true ∨ 'o' ∈ e.registros.concede x.name)
      | .helpop => pide 'h' x.isHelpOp p = true
      | .invisible => False

section

variable {e : Entorno} {m : Marca} {x : Cliente} {n : Nrof}

/-- A counter after a request that changes modes. -/
theorem de_mUmode {de name : CStr} {p : List CStr} (hp : p ≠ [])
    (hname : e.findUser name = some true) :
    m.de (mUmode e (de :: name :: p) x n).2.1 - uno (m.tiene (mUmode e (de :: name :: p) x n).1) =
      m.de n - uno (m.tiene x) -
        uno (Revision.descuenta m ((e.revision x (x.lee p).sptr).medio (x.lee p).sptr)) := by
  cases p with
  | nil => exact absurd rfl hp
  | cons q p =>
      have htiene : m.tiene (mUmode e (de :: name :: q :: p) x n).1 =
          m.tiene ((e.revision x (x.lee (q :: p)).sptr).aplica (x.lee (q :: p)).sptr n).1 := by
        have hrecorta := recorta_mUmode de q p x n hname
        have hF : m.maskF &&& ~~~(~~~MODE_ISWATCH) = 0#32 := by cases m <;> decide
        have hH : m.maskH &&& ~~~(BitVec.allOnes 32) = 0#32 := by cases m <;> decide
        rw [Marca.tiene, Marca.tiene, Marca.en, Marca.en, hrecorta.fijosF _ hF,
          hrecorta.fijosH _ hH]
      have hde : m.de (mUmode e (de :: name :: q :: p) x n).2.1 =
          m.de (((e.revision x (x.lee (q :: p)).sptr).aplica (x.lee (q :: p)).sptr n).2.cuenta
            (recoge userModes x.flags) (recoge userHmodes x.hmodes)
            ((e.revision x (x.lee (q :: p)).sptr).aplica (x.lee (q :: p)).sptr n).1) := by
        rw [mUmode, hname]
        rfl
      rw [htiene, hde, de_cuenta, Revision.de_aplica, en_recoge]
      omega

/-- A mark that a request of a local user takes off its counter before the modes are compared. -/
theorem descuenta_iff {p : List CStr} (hlocal : x.myUser = true) (hserv : e.deServidor = false) :
    Revision.descuenta m ((e.revision x (x.lee p).sptr).medio (x.lee p).sptr) = true ↔
      has x.hmodes HMODE_NICKREGISTERED = false ∧
        match m with
        | .oper => pideOper x.isOper p = true ∧
            (x.isOper = true ∨ 'o' ∈ e.registros.concede x.name)
        | .helpop => pide 'h' x.isHelpOp p = true
        | .invisible => False := by
  have hy := mismo_lee p x
  have hreg : has ((e.revision x (x.lee p).sptr).medio (x.lee p).sptr).hmodes HMODE_NICKREGISTERED =
      has x.hmodes HMODE_NICKREGISTERED :=
    has_medio_of_mem hserv (a := (HMODE_NICKREGISTERED, 'r')) (by decide) (by decide)
  have hconnect := myConnect_medio (e := e) hy hlocal
  unfold Revision.descuenta
  rw [hreg, hconnect]
  cases m with
  | invisible => simp
  | helpop =>
      have hhelp : Marca.helpop.tiene ((e.revision x (x.lee p).sptr).medio (x.lee p).sptr) =
          pide 'h' x.isHelpOp p := by
        rw [tiene_helpop, Cliente.isHelpOp, Revision.has_medio _ _ (by decide)]
        exact has_lee_hmodes (a := (HMODE_HELPOP, 'h')) (by decide) p x
      simp [hhelp]
  | oper =>
      have hoper : Marca.oper.tiene ((e.revision x (x.lee p).sptr).medio (x.lee p).sptr) = true ↔
          pideOper x.isOper p = true ∧ (x.isOper = true ∨ 'o' ∈ e.registros.concede x.name) := by
        have hstatus := has_getStatus e.registros (x.lee p).sptr (a := (FLAGS_OPER, 'o')) (by decide)
        rw [tiene_oper, Cliente.isOper, Revision.flags_medio, Revision.has_operadores_oper,
          has_lee_oper, hy.myUser, hlocal, has_setflags (a := (FLAGS_OPER, 'o')) (by decide),
          statusbdd_eq hy hlocal, Bool.not_true, Bool.false_or, Bool.and_eq_true_iff,
          Bool.or_eq_true_iff, hstatus, hy.name]
        rfl
      rw [tiene_oper] at hoper
      simp [hoper]

/-- A request changes modes when it is about the client itself and has letters. -/
def CambiaModos (e : Entorno) (parv : List CStr) : Prop :=
  ∃ de name p, parv = de :: name :: p ∧ p ≠ [] ∧ e.findUser name = some true

/-- Any other request changes nothing. -/
theorem mUmode_of_not (parv : List CStr) (h : ¬CambiaModos e parv) :
    (mUmode e parv x n).1 = x ∧ (mUmode e parv x n).2.1 = n := by
  cases parv with
  | nil => exact ⟨rfl, rfl⟩
  | cons de parv =>
      cases parv with
      | nil => exact ⟨rfl, rfl⟩
      | cons name p =>
          cases hname : e.findUser name with
          | none =>
              simp only [mUmode, hname]
              exact ⟨trivial, trivial⟩
          | some suyo =>
              cases suyo with
              | false =>
                  simp only [mUmode, hname]
                  exact ⟨trivial, trivial⟩
              | true =>
                  cases p with
                  | nil =>
                      simp only [mUmode, hname]
                      exact ⟨trivial, trivial⟩
                  | cons m p => exact absurd ⟨de, name, m :: p, rfl, by simp, hname⟩ h

/-- A request changes the modes only. -/
theorem mismo_mUmode (parv : List CStr) : Mismo x (mUmode e parv x n).1 := by
  by_cases h : CambiaModos e parv
  · obtain ⟨de, name, p, rfl, hp, hname⟩ := h
    cases p with
    | nil => exact absurd rfl hp
    | cons q p =>
        exact (mismo_lee (q :: p) x).trans
          (Revision.mismo_aplica.trans (recorta_mUmode de q p x n hname).toMismo)
  · rw [(mUmode_of_not parv h).1]
    exact .refl x

/-- A request of a user moves the counters with the marks, but for one that takes a mark off twice. -/
theorem cuenta_mUmode_iff (parv : List CStr) (huser : x.isUser = true)
    (hserv : e.deServidor = !x.myConnect) :
    Cuenta m x n (mUmode e parv x n).1 (mUmode e parv x n).2.1 ↔ ¬Resta e parv x m := by
  by_cases h : CambiaModos e parv
  · obtain ⟨de, name, p, rfl, hp, hname⟩ := h
    have hde := @de_mUmode e m x n de name p hp hname
    have hcuenta : Cuenta m x n (mUmode e (de :: name :: p) x n).1
        (mUmode e (de :: name :: p) x n).2.1 ↔ Revision.descuenta m
          ((e.revision x (x.lee p).sptr).medio (x.lee p).sptr) = false := by
      rw [Cuenta, hde]
      cases Revision.descuenta m ((e.revision x (x.lee p).sptr).medio (x.lee p).sptr) <;> simp
    rw [hcuenta, ← Bool.not_eq_true, not_iff_not]
    cases hconnect : x.myConnect with
    | false =>
        have hmedio : ((e.revision x (x.lee p).sptr).medio (x.lee p).sptr).myConnect = false :=
          ((mismo_lee p x).trans (Revision.mismo_medio _ _)).myConnect.trans hconnect
        refine iff_of_false ?_ fun hresta ↦ ?_
        · simp [Revision.descuenta, hmedio]
        · exact absurd (hconnect.symm.trans hresta.1) Bool.false_ne_true
    | true =>
        rw [hconnect] at hserv
        rw [descuenta_iff (by rw [Cliente.myUser, hconnect, huser]; rfl) hserv]
        constructor
        · rintro ⟨hreg, hpide⟩
          exact ⟨hconnect, hreg, de, name, p, rfl, hp, hname, hpide⟩
        · rintro ⟨-, hreg, de', name', p', heq, -, -, hpide⟩
          cases heq
          exact ⟨hreg, hpide⟩
  · rw [(mUmode_of_not parv h).1, (mUmode_of_not parv h).2]
    refine iff_of_true .refl fun hresta ↦ h ?_
    obtain ⟨-, -, de, name, p, heq, hp, hname, -⟩ := hresta
    exact ⟨de, name, p, heq, hp, hname⟩

end

end Ircd.User
