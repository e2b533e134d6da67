import Ircd.User.Nick

/-!
# Marks that are counted

The three marks of a client that have a counter, and what entry, exit and a change of nick do to
them. `Cuenta` states that a counter moves with the mark: most parts of the program count what they
set and what they clear (`cuenta_borraStatus`, `cuenta_poneStatus`, `cuenta_parcheDB69`), and the
mark that a client ends up with tells the rest (`tiene_modos` and the lemmas before it).
-/

namespace Ircd.User

open CString Flags

/-- The marks that are counted. -/
inductive Marca where
  | oper
  | helpop
  | invisible
deriving DecidableEq

namespace Marca

/-- The bit of a mark in `flags`. -/
def maskF : Marca → BitVec 32
  | oper => FLAGS_OPER
  | helpop => 0#32
  | invisible => FLAGS_INVISIBLE

/-- The bit of a mark in `hmodes`. -/
def maskH : Marca → BitVec 32
  | helpop => HMODE_HELPOP
  | oper | invisible => 0#32

/-- The mark is on in a pair of words. -/
def en (m : Marca) (flags hmodes : BitVec 32) : Bool :=
  has flags m.maskF || has hmodes m.maskH

/-- The client has the mark. -/
def tiene (m : Marca) (x : Cliente) : Bool :=
  m.en x.flags x.hmodes

/-- The counter of the mark. -/
def de (m : Marca) (n : Nrof) : Int :=
  match m with
  | oper => n.opers
  | helpop => n.helpers
  | invisible => n.invClients

/-- The status of the operator table grants the mark. -/
def da (m : Marca) (status : BitVec 32) : Bool :=
  match m with
  | oper => has status FLAGS_OPER
  | helpop => has status HMODE_HELPOP
  | invisible => false

end Marca

/-- The letter of a mark. -/
def Marca.letra : Marca → Char
  | oper => 'o'
  | helpop => 'h'
  | invisible => 'i'

/-- The letter of a mark stands in a text of modes under a plus sign. -/
def Marca.enTexto (m : Marca) (modes : Option CStr) : Bool :=
  modes.any fun p ↦ decide (m.letra ∈ modosConcedidos true p)

/-- What a client with a mark counts. -/
def uno (b : Bool) : Int :=
  if b then 1 else 0

@[simp] theorem uno_true : uno true = 1 := rfl

@[simp] theorem uno_false : uno false = 0 := rfl

theorem uno_nonneg (b : Bool) : 0 ≤ uno b := by
  cases b <;> decide

/-- Two marks count the same when they are the same. -/
theorem uno_inj {b b' : Bool} : uno b = uno b' ↔ b = b' := by
  cases b <;> cases b' <;> decide

/-! ## Changes that leave the marks -/

section

variable {m : Marca} {x : Cliente} {n : Nrof} {f : BitVec 32}

@[simp] theorem tiene_oper : Marca.oper.tiene x = x.isOper := by
  have hzero : has x.hmodes 0#32 = false := has_eq_false.mpr BitVec.and_zero
  rw [Marca.tiene, Marca.en, Marca.maskF, Marca.maskH, hzero, Bool.or_false, Cliente.isOper]

@[simp] theorem tiene_helpop : Marca.helpop.tiene x = x.isHelpOp := by
  have hzero : has x.flags 0#32 = false := has_eq_false.mpr BitVec.and_zero
  rw [Marca.tiene, Marca.en, Marca.maskF, Marca.maskH, hzero, Bool.false_or, Cliente.isHelpOp]

@[simp] theorem tiene_invisible : Marca.invisible.tiene x = has x.flags FLAGS_INVISIBLE := by
  have hzero : has x.hmodes 0#32 = false := has_eq_false.mpr BitVec.and_zero
  rw [Marca.tiene, Marca.en, Marca.maskF, Marca.maskH, hzero, Bool.or_false]

@[simp] theorem tiene_setSnomask (mask : BitVec 32) (what : Sno) :
    m.tiene (x.setSnomask mask what) = m.tiene x :=
  rfl

/-- A flag that is set. -/
theorem tiene_setFlag : m.tiene (x.setFlag f) = (m.tiene x || has f m.maskF) := by
  rw [Marca.tiene, Marca.tiene, Marca.en, Marca.en, Cliente.setFlag, has_or, Bool.or_right_comm]

/-- A flag of the second word that is set. -/
theorem tiene_setHmode : m.tiene (x.setHmode f) = (m.tiene x || has f m.maskH) := by
  rw [Marca.tiene, Marca.tiene, Marca.en, Marca.en, Cliente.setHmode, has_or, Bool.or_assoc]

/-- Flags that are added to both words. -/
theorem tiene_suma (f g : BitVec 32) : m.tiene (x.suma f g) = (m.tiene x || m.en f g) := by
  rw [Marca.tiene, Marca.tiene, Marca.en, Marca.en, Marca.en, Cliente.suma, has_or, has_or]
  cases has x.flags m.maskF <;> cases has x.hmodes m.maskH <;> simp

/-- A flag that is no mark is cleared. -/
theorem tiene_clearFlag (hf : m.maskF &&& f = 0#32) : m.tiene (x.clearFlag f) = m.tiene x := by
  rw [Marca.tiene, Marca.tiene, Marca.en, Marca.en, Cliente.clearFlag, has_clear_of_disjoint hf]

/-- A flag of the second word that is no mark is cleared. -/
theorem tiene_clearHmode (hf : m.maskH &&& f = 0#32) : m.tiene (x.clearHmode f) = m.tiene x := by
  rw [Marca.tiene, Marca.tiene, Marca.en, Marca.en, Cliente.clearHmode, has_clear_of_disjoint hf]

/-- A flag of the second word that is no mark is cleared on a condition. -/
theorem tiene_quitaHmode (hf : m.maskH &&& f = 0#32) (c : Bool) :
    m.tiene (x.quitaHmode c f) = m.tiene x := by
  cases c with
  | false => rfl
  | true => exact tiene_clearHmode hf

/-- A flag of the second word that is set on a condition. -/
theorem tiene_daHmode (c : Bool) :
    m.tiene (x.daHmode c f) = (m.tiene x || (c && has f m.maskH)) := by
  cases c with
  | false => rw [Bool.false_and, Bool.or_false]; rfl
  | true => exact tiene_setHmode

/-- A flag of the second word that is no mark is set on a condition. -/
theorem tiene_daHmode_of_disjoint (hf : has f m.maskH = false) (c : Bool) :
    m.tiene (x.daHmode c f) = m.tiene x := by
  rw [tiene_daHmode, hf, Bool.and_false, Bool.or_false]

/-- The flag of a letter in a table is that of a mode when the letter is. -/
theorem Separa.has_bitDe {tabla : List (BitVec 32 × Char)} (h : Separa tabla) {a : BitVec 32 × Char}
    (ha : a ∈ tabla) (c : Char) : has (bitDe tabla c) a.1 = decide (c = a.2) := by
  rw [bitDe]
  cases hfind : tabla.find? fun flag ↦ flag.2 = c with
  | none =>
      have hne : c ≠ a.2 := by
        intro heq
        rw [heq, h.find? ha] at hfind
        cases hfind
      rw [Option.map_none, Option.getD_none, has_zero, decide_eq_false hne]
  | some b =>
      have hletra : b.2 = c := by simpa using List.find?_some hfind
      rw [Option.map_some, Option.getD_some]
      by_cases hc : c = a.2
      · rw [h.letras b (List.mem_of_find?_eq_some hfind) a ha (hletra.trans hc),
          has_self (h.ne_zero a ha), decide_eq_true hc]
      · have hne : b ≠ a := fun heq ↦ hc (heq ▸ hletra.symm)
        rw [decide_eq_false hc, has_eq_false]
        exact h.disjoint b (List.mem_of_find?_eq_some hfind) a ha hne

/-- The flags of a letter are those of a mark when the letter is. -/
theorem en_bitDe (c : Char) :
    m.en (bitDe userModes c) (bitDe userHmodes c) = decide (c = m.letra) := by
  have hzero : ∀ f : BitVec 32, has f 0#32 = false := fun f ↦ has_eq_false.mpr BitVec.and_zero
  cases m with
  | oper =>
      rw [Marca.en, Marca.maskF, Marca.maskH, hzero, Bool.or_false]
      exact separa_userModes.has_bitDe (a := (FLAGS_OPER, 'o')) (by decide) c
  | helpop =>
      rw [Marca.en, Marca.maskF, Marca.maskH, hzero, Bool.false_or]
      exact separa_userHmodes.has_bitDe (a := (HMODE_HELPOP, 'h')) (by decide) c
  | invisible =>
      rw [Marca.en, Marca.maskF, Marca.maskH, hzero, Bool.or_false]
      exact separa_userModes.has_bitDe (a := (FLAGS_INVISIBLE, 'i')) (by decide) c

/-- Flags that are joined. -/
theorem Marca.en_or (f g h k : BitVec 32) : m.en (f ||| g) (h ||| k) = (m.en f h || m.en g k) := by
  rw [en, en, en, has_or, has_or]
  cases has f m.maskF <;> cases has g m.maskF <;> cases has h m.maskH <;> simp

/-- The marks of a text of modes. -/
theorem en_maskUserFlags (add : Bool) (p : CStr) (f h : BitVec 32) :
    m.en (maskUserFlags add p f h).1 (maskUserFlags add p f h).2 =
      (m.en f h || decide (m.letra ∈ modosConcedidos add p)) := by
  induction p generalizing add f h with
  | nil => simp [maskUserFlags, modosConcedidos]
  | cons c p ih =>
      rw [maskUserFlags, modosConcedidos]
      split_ifs with hblank hplus hminus hadd
      · simp
      · exact ih true f h
      · exact ih false f h
      · rw [ih, Marca.en_or, en_bitDe, Bool.or_assoc, ← Bool.decide_or]
        simp only [List.mem_cons, eq_comm]
      · exact ih add f h

/-- The modes of a text that are added. -/
theorem tiene_automodes (modes : Option CStr) :
    m.tiene (x.automodes modes) = (m.tiene x || m.enTexto modes) := by
  have hzero : m.en 0#32 0#32 = false := by rw [Marca.en, has_zero, has_zero, Bool.or_false]
  rw [Cliente.automodes, tiene_suma]
  cases modes with
  | none => rw [automodesDe, hzero, Marca.enTexto, Option.any_none]
  | some p => rw [automodesDe, en_maskUserFlags, hzero, Bool.false_or, Marca.enTexto, Option.any_some]

/-- The marks of the modes that a server sends. -/
theorem tiene_recibe (modos : CStr) :
    m.tiene (x.recibe modos) = (m.tiene x || decide (m.letra ∈ modos)) := by
  induction modos generalizing x with
  | nil => simp [Cliente.recibe]
  | cons c modos ih =>
      rw [Cliente.recibe, List.foldl_cons, ← Cliente.recibe, ih, tiene_suma, en_bitDe,
        Bool.or_assoc, ← Bool.decide_or]
      simp only [List.mem_cons, eq_comm]

/-! ## Changes that count the marks -/

/-- A counter moves with the mark. -/
def Cuenta (m : Marca) (x : Cliente) (n : Nrof) (y : Cliente) (n' : Nrof) : Prop :=
  m.de n' - uno (m.tiene y) = m.de n - uno (m.tiene x)

theorem Cuenta.refl : Cuenta m x n x n :=
  rfl

/-- The counters when the marks of the operator table go. -/
theorem borraStatus_snd : (borraStatus x n).2 =
    { n with opers := n.opers - uno x.isOper, helpers := n.helpers - uno x.isHelpOp } := by
  have hoper : (((x.clearHmode HMODE_HELPOP).clearHmode HMODE_ADMIN).clearHmode
      HMODE_CODER).isOper = x.isOper := rfl
  unfold borraStatus
  dsimp only
  rw [hoper]
  cases x.isHelpOp <;> cases x.isOper <;> simp

/-- What is left of the marks when those of the operator table go. -/
theorem tiene_borraStatus :
    m.tiene (borraStatus x n).1 = (decide (m = .invisible) && m.tiene x) := by
  unfold borraStatus
  dsimp only
  rw [tiene_clearHmode (by cases m <;> decide)]
  cases m with
  | oper => rw [tiene_oper, Cliente.isOper, Cliente.clearFlag, has_clear_of_sub (by decide)]; rfl
  | helpop =>
      rw [tiene_clearFlag (by decide), tiene_clearHmode (by decide), tiene_clearHmode (by decide),
        tiene_helpop, Cliente.isHelpOp, Cliente.clearHmode, has_clear_of_sub (by decide)]
      rfl
  | invisible =>
      rw [tiene_clearFlag (by decide), tiene_clearHmode (by decide), tiene_clearHmode (by decide),
        tiene_clearHmode (by decide)]
      rfl

/-- The marks of the operator table are counted when they go. -/
theorem cuenta_borraStatus : Cuenta m x n (borraStatus x n).1 (borraStatus x n).2 := by
  rw [Cuenta, tiene_borraStatus, borraStatus_snd]
  cases m <;> simp [Marca.de]

/-- A change that leaves the mark, and then one that counts it. -/
theorem Cuenta.of_tiene {y z : Cliente} {n' : Nrof} (h : Cuenta m y n z n')
    (hy : m.tiene y = m.tiene x) : Cuenta m x n z n' := by
  rwa [Cuenta, ← hy]

/-- A change that counts the mark, and then one that leaves it. -/
theorem Cuenta.tiene_eq {y z : Cliente} {n' : Nrof} (h : Cuenta m x n y n')
    (hz : m.tiene z = m.tiene y) : Cuenta m x n z n' := by
  rwa [Cuenta, hz]

/-- After a change that counts the mark, the mark is added without counting: it must be there. -/
theorem Cuenta.iff_of_or {y z : Cliente} {n' : Nrof} {d : Bool} (h : Cuenta m x n y n')
    (hz : m.tiene z = (m.tiene y || d)) : Cuenta m x n z n' ↔ (d = true → m.tiene y = true) := by
  have hiff : Cuenta m x n z n' ↔ uno (m.tiene y) = uno (m.tiene y || d) := by
    rw [Cuenta] at h
    rw [Cuenta, hz]
    omega
  rw [hiff, uno_inj]
  cases m.tiene y <;> cases d <;> simp

/-- The modes of a registered nick that are no marks. -/
theorem tiene_antes_borraRegistro : m.tiene (((((x.clearHmode HMODE_NICKREGISTERED).clearHmode
    HMODE_NICKSUSPENDED).clearHmode HMODE_MSGONLYREG).clearHmode HMODE_NOCHAN).clearHmode
      HMODE_DOCKING) = m.tiene x := by
  rw [tiene_clearHmode (by cases m <;> decide), tiene_clearHmode (by cases m <;> decide),
    tiene_clearHmode (by cases m <;> decide), tiene_clearHmode (by cases m <;> decide),
    tiene_clearHmode (by cases m <;> decide)]

/-- What is left of the marks when a nick is no longer registered. -/
theorem tiene_borraRegistro :
    m.tiene (borraRegistro x n).1 = (decide (m = .invisible) && m.tiene x) := by
  rw [borraRegistro, tiene_borraStatus, tiene_antes_borraRegistro]

/-- The marks are counted when a nick is no longer registered. -/
theorem cuenta_borraRegistro : Cuenta m x n (borraRegistro x n).1 (borraRegistro x n).2 :=
  cuenta_borraStatus.of_tiene tiene_antes_borraRegistro

/-- What is left of the marks when a client leaves its nick. -/
theorem tiene_parcheDB69 (whois vhost : Bool) : m.tiene (parcheDB69 whois vhost x n).1 =
    (m.tiene x && (decide (m = .invisible) || !x.autentificado)) := by
  unfold parcheDB69
  cases hreg : x.autentificado with
  | false => rw [if_neg Bool.false_ne_true, Bool.not_false, Bool.or_true, Bool.and_true]
  | true =>
      rw [if_pos rfl, Bool.not_true, Bool.or_false, Bool.and_comm]
      dsimp only
      rw [tiene_quitaHmode (by cases m <;> decide), tiene_quitaHmode (by cases m <;> decide),
        tiene_quitaHmode (by cases m <;> decide), tiene_borraRegistro,
        tiene_quitaHmode (by cases m <;> decide)]

/-- The marks are counted when a client leaves its nick. -/
theorem cuenta_parcheDB69 (whois vhost : Bool) :
    Cuenta m x n (parcheDB69 whois vhost x n).1 (parcheDB69 whois vhost x n).2 := by
  unfold parcheDB69
  cases x.autentificado with
  | false => exact .refl
  | true =>
      rw [if_pos rfl]
      dsimp only
      have hwhois : m.tiene (x.quitaHmode whois HMODE_WHOIS) = m.tiene x :=
        tiene_quitaHmode (by cases m <;> decide) whois
      refine (cuenta_borraRegistro.of_tiene hwhois).tiene_eq ?_
      rw [tiene_quitaHmode (by cases m <;> decide), tiene_quitaHmode (by cases m <;> decide),
        tiene_quitaHmode (by cases m <;> decide)]

/-- Privileges are no marks. -/
theorem tiene_setPrivs (b : Bdd) : m.tiene (b.setPrivs x) = m.tiene x := by
  unfold Bdd.setPrivs
  split
  · rfl
  · rfl

/-- The client before the mark `h` of the operator table is set. -/
theorem tiene_antes_poneStatus (c c' c'' : Bool) :
    m.tiene (((x.daHmode c HMODE_ADMIN).daHmode c' HMODE_CODER).daHmode c'' HMODE_SERVICESBOT) =
      m.tiene x := by
  rw [tiene_daHmode_of_disjoint (by cases m <;> decide),
    tiene_daHmode_of_disjoint (by cases m <;> decide),
    tiene_daHmode_of_disjoint (by cases m <;> decide)]

/-- The marks when those of the operator table are set. -/
theorem tiene_poneStatus (b : Bdd) (status : BitVec 32) :
    m.tiene (poneStatus b status x n).1 = (m.tiene x || m.da status) := by
  have hwallop : has (FLAGS_WALLOP ||| FLAGS_SERVNOTICE ||| FLAGS_DEBUG) m.maskF = false := by
    cases m <;> decide
  unfold poneStatus
  dsimp only
  cases hoper : has status FLAGS_OPER with
  | false =>
      rw [if_neg Bool.false_ne_true, tiene_daHmode, tiene_antes_poneStatus]
      cases m with
      | oper => rw [Marca.da, hoper, Marca.maskH, has_eq_false.mpr BitVec.and_zero, Bool.and_false]
      | helpop => rw [Marca.da, Marca.maskH, has_self (by decide), Bool.and_true]
      | invisible => rw [Marca.da, Marca.maskH, has_eq_false.mpr BitVec.and_zero, Bool.and_false]
  | true =>
      rw [if_pos rfl, tiene_setPrivs, tiene_setSnomask, tiene_setFlag, hwallop, Bool.or_false,
        tiene_setFlag, tiene_daHmode, tiene_antes_poneStatus]
      cases m with
      | oper => rw [Marca.da, hoper, Marca.maskF, has_self (by decide), Bool.or_true, Bool.or_true]
      | helpop =>
          rw [Marca.da, Marca.maskH, has_self (by decide), Bool.and_true, Marca.maskF,
            has_eq_false.mpr BitVec.and_zero, Bool.or_false]
      | invisible =>
          have hinvisible : has FLAGS_OPER Marca.invisible.maskF = false := by decide
          rw [Marca.da, Marca.maskH, has_eq_false.mpr BitVec.and_zero, Bool.and_false,
            Bool.or_false, hinvisible, Bool.or_false]

/-- The counters when the marks of the operator table are set. -/
theorem poneStatus_snd (b : Bdd) (status : BitVec 32) : (poneStatus b status x n).2 =
    { n with
      opers := n.opers + uno (has status FLAGS_OPER && !x.isOper)
      helpers := n.helpers + uno (has status HMODE_HELPOP && !x.isHelpOp) } := by
  have hantes := fun m ↦ @tiene_antes_poneStatus m x (has status HMODE_ADMIN)
    (has status HMODE_CODER) (has status HMODE_SERVICESBOT)
  have hhelp := hantes .helpop
  rw [tiene_helpop, tiene_helpop] at hhelp
  unfold poneStatus
  dsimp only
  generalize hy : ((x.daHmode (has status HMODE_ADMIN) HMODE_ADMIN).daHmode
    (has status HMODE_CODER) HMODE_CODER).daHmode (has status HMODE_SERVICESBOT)
      HMODE_SERVICESBOT = y at hhelp hantes
  have hoper : (y.daHmode (has status HMODE_HELPOP) HMODE_HELPOP).isOper = x.isOper := by
    rw [← tiene_oper, tiene_daHmode_of_disjoint (by decide), hantes, tiene_oper]
  rw [hhelp, hoper]
  cases has status FLAGS_OPER <;> cases has status HMODE_HELPOP <;> cases x.isOper <;>
    cases x.isHelpOp <;> simp

/-- The marks of the operator table are counted when they are set. -/
theorem cuenta_poneStatus (b : Bdd) (status : BitVec 32) :
    Cuenta m x n (poneStatus b status x n).1 (poneStatus b status x n).2 := by
  rw [Cuenta, tiene_poneStatus, poneStatus_snd]
  cases m with
  | oper =>
      rw [tiene_oper, Marca.da, Marca.de, Marca.de]
      cases x.isOper <;> cases has status FLAGS_OPER <;> simp
  | helpop =>
      rw [tiene_helpop, Marca.da, Marca.de, Marca.de]
      cases x.isHelpOp <;> cases has status HMODE_HELPOP <;> simp
  | invisible => rw [Marca.da, Bool.or_false, Marca.de, Marca.de]

/-- The nick of a client and its virtual host are no marks. -/
theorem tiene_identifica (b : Bdd) (suspendido : Bool) :
    m.tiene (b.identifica suspendido x) = m.tiene x := by
  have hnick : has (if suspendido then HMODE_NICKSUSPENDED else HMODE_NICKREGISTERED) m.maskH =
      false := by
    cases suspendido <;> cases m <;> decide
  have hhidden : has HMODE_HIDDEN m.maskH = false := by
    cases m <;> decide
  rw [Bdd.identifica, tiene_daHmode_of_disjoint (by cases m <;> decide), tiene_setHmode, hhidden,
    Bool.or_false, tiene_setHmode, hnick, Bool.or_false]

/-- The mask of notices is no mark. -/
theorem tiene_daSnomask (snomask : BitVec 32) : m.tiene (x.daSnomask snomask) = m.tiene x := by
  have hserv : has FLAGS_SERVNOTICE m.maskF = false := by
    cases m <;> decide
  unfold Cliente.daSnomask
  split
  · rw [tiene_setFlag, hserv, Bool.or_false, tiene_setSnomask]
  · rfl

end

/-! ## Who the client is -/

/-- The name of a client stays, its connection, and whether it is a user. -/
structure Quien (x y : Cliente) : Prop where
  name : y.name = x.name
  myConnect : y.myConnect = x.myConnect
  isUser : y.isUser = x.isUser

namespace Quien

variable {x y z : Cliente} {n : Nrof}

theorem refl (x : Cliente) : Quien x x :=
  ⟨rfl, rfl, rfl⟩

theorem trans (h : Quien x y) (h' : Quien y z) : Quien x z :=
  ⟨h'.name.trans h.name, h'.myConnect.trans h.myConnect, h'.isUser.trans h.isUser⟩

theorem quitaHmode (c : Bool) (f : BitVec 32) : Quien x (x.quitaHmode c f) := by
  cases c <;> exact ⟨rfl, rfl, rfl⟩

theorem daHmode (c : Bool) (f : BitVec 32) : Quien x (x.daHmode c f) := by
  cases c <;> exact ⟨rfl, rfl, rfl⟩

theorem borraStatus : Quien x (borraStatus x n).1 :=
  ⟨rfl, rfl, rfl⟩

theorem clearHmode (f : BitVec 32) : Quien x (x.clearHmode f) :=
  ⟨rfl, rfl, rfl⟩

theorem borraRegistro : Quien x (borraRegistro x n).1 :=
  (clearHmode _).trans <| (clearHmode _).trans <| (clearHmode _).trans <|
    (clearHmode _).trans <| (clearHmode _).trans borraStatus

theorem parcheDB69 (whois vhost : Bool) : Quien x (parcheDB69 whois vhost x n).1 := by
  unfold User.parcheDB69
  split
  · exact (quitaHmode _ _).trans <| borraRegistro.trans <| (quitaHmode _ _).trans <|
      (quitaHmode _ _).trans (quitaHmode _ _)
  · exact .refl x

theorem setPrivs (b : Bdd) : Quien x (b.setPrivs x) := by
  unfold Bdd.setPrivs
  split <;> exact ⟨rfl, rfl, rfl⟩

theorem setOper (b : Bdd) (flags : BitVec 32) : Quien x
    (b.setPrivs (((x.setFlag FLAGS_OPER).setFlag flags).setSnomask SNO_OPERDEFAULT .add)) :=
  trans (y := ((x.setFlag FLAGS_OPER).setFlag flags).setSnomask SNO_OPERDEFAULT .add)
    ⟨rfl, rfl, rfl⟩ (setPrivs b)

theorem poneStatus (b : Bdd) (status : BitVec 32) : Quien x (poneStatus b status x n).1 := by
  have hantes := (daHmode (x := x) (has status HMODE_ADMIN) HMODE_ADMIN).trans <|
    (daHmode (has status HMODE_CODER) HMODE_CODER).trans <|
    (daHmode (has status HMODE_SERVICESBOT) HMODE_SERVICESBOT).trans <|
      daHmode (has status HMODE_HELPOP) HMODE_HELPOP
  unfold User.poneStatus
  dsimp only
  split
  · exact hantes.trans (setOper b _)
  · exact hantes

theorem identifica (b : Bdd) (suspendido : Bool) : Quien x (b.identifica suspendido x) :=
  trans (y := (x.setHmode _).setHmode HMODE_HIDDEN) ⟨rfl, rfl, rfl⟩ (daHmode _ _)

theorem daSnomask (snomask : BitVec 32) : Quien x (x.daSnomask snomask) := by
  unfold Cliente.daSnomask
  split <;> exact ⟨rfl, rfl, rfl⟩

theorem modos (c : Cambio) (b : Bdd) : Quien x (c.modos b x n).1 := by
  unfold Cambio.modos
  split
  · exact .refl x
  · split
    · have hstatus : ∀ (d : Bool) (status : BitVec 32) (y : Cliente),
          Quien y (if d then User.poneStatus b status y n else User.borraStatus y n).1 := by
        intro d status y
        cases d with
        | false => exact borraStatus
        | true => exact poneStatus b status
      have hautomodes : ∀ y : Cliente,
          Quien y (if c.suspendido then y else y.automodes c.automodes) := by
        intro y
        split
        · exact .refl y
        · exact ⟨rfl, rfl, rfl⟩
      have hy := hstatus (getStatus b.registros (b.identifica c.suspendido x) != 0#32 &&
        !c.suspendido) (getStatus b.registros (b.identifica c.suspendido x))
          (b.identifica c.suspendido x)
      exact (identifica b c.suspendido).trans (hy.trans ((hautomodes _).trans (daSnomask _)))
    · exact borraRegistro

theorem recibe (modos : CStr) : Quien x (x.recibe modos) := by
  induction modos generalizing x with
  | nil => exact .refl x
  | cons c modos ih => exact trans (y := x.suma _ _) ⟨rfl, rfl, rfl⟩ ih

end Quien

/-! ## Changes of nick -/

/-- The status that the operator table gives to a nick. -/
def Bdd.statusDe (b : Bdd) (nick : CStr) : BitVec 32 :=
  getStatus b.registros (Cliente.nuevo nick true)

/-- The status depends on the name only. -/
theorem Bdd.getStatus_eq (b : Bdd) {x : Cliente} {nick : CStr} (hname : x.name = nick) :
    getStatus b.registros x = b.statusDe nick := by
  rw [statusDe, getStatus, getStatus, hname, Cliente.nuevo]

namespace Cambio

variable (c : Cambio) (b : Bdd) (m : Marca)

/-- The modes of the operator table are given. -/
def conStatus : Bool :=
  c.hflag && (b.statusDe c.nick != 0#32 && !c.suspendido)

/-- The mark that a client has once the operator table has been seen, from the one it had. -/
def tras (antes : Bool) : Bool :=
  if c.equivalentes then antes
  else if m = .invisible then antes
  else c.conStatus b && (antes || m.da (b.statusDe c.nick))

/-- The mark is one of the modes of the record, which are added without counting. -/
def anade : Bool :=
  !c.equivalentes && (c.hflag && (!c.suspendido && m.enTexto c.automodes))

variable {c b m} {x : Cliente} {n : Nrof}

/-- The marks after the modes of a new nick. -/
theorem tiene_modos (hname : x.name = c.nick) :
    m.tiene (c.modos b x n).1 = (c.tras b m (m.tiene x) || c.anade m) := by
  unfold modos tras anade conStatus
  cases c.equivalentes with
  | true => simp
  | false =>
      simp only [Bool.false_eq_true, if_false, Bool.not_false, Bool.true_and]
      cases c.hflag with
      | false =>
          rw [if_neg Bool.false_ne_true, tiene_borraRegistro]
          cases m <;> simp
      | true =>
          have hstatus : getStatus b.registros (b.identifica c.suspendido x) =
              b.statusDe c.nick := b.getStatus_eq ((Quien.identifica b _).name.trans hname)
          simp only [if_true, hstatus, Bool.true_and, tiene_daSnomask]
          cases hcon : b.statusDe c.nick != 0#32 && !c.suspendido with
          | true =>
              have hsusp := (Bool.and_eq_true_iff.mp hcon).2
              rw [Bool.not_eq_true'] at hsusp
              simp only [hsusp, if_true, Bool.false_eq_true, if_false, tiene_automodes,
                tiene_poneStatus, tiene_identifica, Bool.not_false, Bool.true_and]
              cases m <;> simp [Marca.da]
          | false =>
              cases c.suspendido with
              | true =>
                  simp only [Bool.false_eq_true, if_false, if_true, tiene_borraStatus,
                    tiene_identifica]
                  cases m <;> simp
              | false =>
                  simp only [Bool.false_eq_true, if_false, tiene_automodes, tiene_borraStatus,
                    tiene_identifica, Bool.not_false, Bool.true_and, Bool.false_and]
                  cases m <;> simp

/-- The counters after the modes of a new nick. -/
theorem de_modos (hname : x.name = c.nick) : m.de (c.modos b x n).2 =
    m.de n + uno (c.tras b m (m.tiene x)) - uno (m.tiene x) := by
  unfold modos tras conStatus
  cases c.equivalentes with
  | true => simp
  | false =>
      simp only [Bool.false_eq_true, if_false]
      cases c.hflag with
      | false =>
          have hcuenta := @cuenta_borraRegistro m x n
          rw [Cuenta, tiene_borraRegistro] at hcuenta
          rw [if_neg Bool.false_ne_true]
          cases m <;> simp_all
      | true =>
          have hstatus : getStatus b.registros (b.identifica c.suspendido x) =
              b.statusDe c.nick := b.getStatus_eq ((Quien.identifica b _).name.trans hname)
          simp only [if_true, hstatus, Bool.true_and]
          cases b.statusDe c.nick != 0#32 && !c.suspendido with
          | true =>
              have hcuenta := @cuenta_poneStatus m (b.identifica c.suspendido x) n b
                (b.statusDe c.nick)
              rw [Cuenta, tiene_poneStatus, tiene_identifica] at hcuenta
              cases m <;> simp_all [Marca.da] <;> omega
          | false =>
              have hcuenta := @cuenta_borraStatus m (b.identifica c.suspendido x) n
              rw [Cuenta, tiene_borraStatus, tiene_identifica] at hcuenta
              cases m <;> simp_all

end Cambio

end Ircd.User
