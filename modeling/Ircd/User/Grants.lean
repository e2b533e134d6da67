import Ircd.User.Letters

/-!
# Modes that a user is entitled to

What `m_umode` lets a local user change. After the letters of a request have been applied, each test
of `m_umode` takes modes away (`Recorta`) and leaves others as they are. The main theorem,
`autorizado_iff`, says that a request gives the user no mode that it is not entitled to if and only
if it does not ask for `h` with a record of the operator table that grants `O` and not `h`.
-/

namespace Ircd.User

open CString Flags

/-! ## Modes are taken away -/

/-- The modes that the tests may also set. -/
abbrev libres : BitVec 32 := HMODE_USERDEAF ||| HMODE_USERBITCH

/-- A test takes modes away, and it leaves those of two masks as they are. -/
structure Recorta (fijosF fijosH : BitVec 32) (x y : Cliente) : Prop extends Mismo x y where
  flags : ∀ f, has y.flags f = true → has x.flags f = true
  hmodes : ∀ f, f &&& libres = 0 → has y.hmodes f = true → has x.hmodes f = true
  fijosF : ∀ f, f &&& ~~~fijosF = 0 → has y.flags f = has x.flags f
  fijosH : ∀ f, f &&& ~~~fijosH = 0 → has y.hmodes f = has x.hmodes f

namespace Recorta

variable {F H F' H' g : BitVec 32} {x y z : Cliente}

theorem refl (x : Cliente) : Recorta F H x x :=
  ⟨.refl x, fun _ ↦ id, fun _ _ ↦ id, fun _ _ ↦ rfl, fun _ _ ↦ rfl⟩

theorem trans (h : Recorta F H x y) (h' : Recorta F H y z) : Recorta F H x z where
  toMismo := h.toMismo.trans h'.toMismo
  flags f := h.flags f ∘ h'.flags f
  hmodes f hf := h.hmodes f hf ∘ h'.hmodes f hf
  fijosF f hf := (h'.fijosF f hf).trans (h.fijosF f hf)
  fijosH f hf := (h'.fijosH f hf).trans (h.fijosH f hf)

/-- Fewer modes that are left as they are. -/
theorem mono (h : Recorta F H x y) (hF : F' &&& ~~~F = 0) (hH : H' &&& ~~~H = 0) :
    Recorta F' H' x y :=
  { h with
    fijosF := fun f hf ↦ h.fijosF f (and_eq_zero_of_sub hf hF)
    fijosH := fun f hf ↦ h.fijosH f (and_eq_zero_of_sub hf hH) }

/-- A flag is cleared. -/
theorem quitaFlag (c : Bool) (hg : F &&& g = 0) : Recorta F H x (x.quitaFlag c g) := by
  cases c with
  | false => exact .refl x
  | true =>
      exact {
        toMismo := ⟨rfl, rfl, rfl, rfl⟩
        flags := fun f hf ↦ has_of_has_clear hf
        hmodes := fun _ _ ↦ id
        fijosF := fun f hf ↦ has_clear_of_disjoint (and_eq_zero_of_sub hf hg)
        fijosH := fun _ _ ↦ rfl }

/-- A flag of the second word is cleared. -/
theorem quitaHmode (c : Bool) (hg : H &&& g = 0) : Recorta F H x (x.quitaHmode c g) := by
  cases c with
  | false => exact .refl x
  | true =>
      exact {
        toMismo := ⟨rfl, rfl, rfl, rfl⟩
        flags := fun _ ↦ id
        hmodes := fun f _ hf ↦ has_of_has_clear hf
        fijosF := fun _ _ ↦ rfl
        fijosH := fun f hf ↦ has_clear_of_disjoint (and_eq_zero_of_sub hf hg) }

/-- A flag that may be set is written. -/
theorem putHmode (b : Bool) (hg : H &&& g = 0) (hlibre : g &&& ~~~libres = 0) :
    Recorta F H x (x.putHmode b g) where
  toMismo := ⟨rfl, rfl, rfl, rfl⟩
  flags _ := id
  hmodes f hf hon := by
    have hdisj : g &&& f = 0 := and_eq_zero_of_sub hlibre ((BitVec.and_comm ..).trans hf)
    rwa [Cliente.putHmode, has_put_of_disjoint ((BitVec.and_comm ..).trans hdisj)] at hon
  fijosF _ _ := rfl
  fijosH f hf := has_put_of_disjoint (and_eq_zero_of_sub hf hg) b

/-- The mask of notices is no mode. -/
theorem setSnomask (mask : BitVec 32) (what : Sno) : Recorta F H x (x.setSnomask mask what) :=
  ⟨⟨rfl, rfl, rfl, rfl⟩, fun _ ↦ id, fun _ _ ↦ id, fun _ _ ↦ rfl, fun _ _ ↦ rfl⟩

/-- A test that is made on a condition. -/
theorem ite (c : Prop) [Decidable c] (h : Recorta F H x y) : Recorta F H x (if c then y else x) := by
  split
  · exact h
  · exact .refl x

/-- A flag that is left as it is. -/
theorem isAnOper (h : Recorta F H x y) (hF : (FLAGS_OPER ||| FLAGS_LOCOP) &&& ~~~F = 0) :
    y.isAnOper = x.isAnOper :=
  h.fijosF _ hF

/-- A privilege that is left as it is. -/
theorem hasPriv (h : Recorta F H x y) (hF : (FLAGS_OPER ||| FLAGS_LOCOP) &&& ~~~F = 0)
    (priv : BitVec 64) : y.hasPriv priv = x.hasPriv priv := by
  rw [Cliente.hasPriv, Cliente.hasPriv, h.myUser, h.isAnOper hF, h.privs]

end Recorta

/-! ## One flag -/

/-- What is left of a flag that is cleared on a condition. -/
theorem has_quitaFlag (c : Bool) (f : BitVec 32) (x : Cliente) :
    has (x.quitaFlag c f).flags f = (has x.flags f && !c) := by
  cases c with
  | false => exact (Bool.and_true _).symm
  | true => exact (has_clear_of_sub (BitVec.and_not_self f)).trans (Bool.and_false _).symm

/-- What is left of a flag of the second word that is cleared on a condition. -/
theorem has_quitaHmode (c : Bool) (f : BitVec 32) (x : Cliente) :
    has (x.quitaHmode c f).hmodes f = (has x.hmodes f && !c) := by
  cases c with
  | false => exact (Bool.and_true _).symm
  | true => exact (has_clear_of_sub (BitVec.and_not_self f)).trans (Bool.and_false _).symm

/-- What is cleared always. -/
theorem clearHmode_eq (f : BitVec 32) (x : Cliente) : x.clearHmode f = x.quitaHmode true f :=
  rfl

theorem hmodes_clearFlag (f : BitVec 32) (x : Cliente) : (x.clearFlag f).hmodes = x.hmodes :=
  rfl

theorem hmodes_quitaFlag (c : Bool) (f : BitVec 32) (x : Cliente) :
    (x.quitaFlag c f).hmodes = x.hmodes := by
  cases c <;> rfl

theorem flags_quitaHmode (c : Bool) (f : BitVec 32) (x : Cliente) :
    (x.quitaHmode c f).flags = x.flags := by
  cases c <;> rfl

/-- A flag that is cleared leaves the others. -/
theorem has_quitaFlag_of_disjoint {f g : BitVec 32} (h : f &&& g = 0) (c : Bool) (x : Cliente) :
    has (x.quitaFlag c g).flags f = has x.flags f :=
  (Recorta.quitaFlag (H := 0) c h).fijosF f (BitVec.and_not_self f)

/-- A flag of the second word that is cleared leaves the others. -/
theorem has_quitaHmode_of_disjoint {f g : BitVec 32} (h : f &&& g = 0) (c : Bool) (x : Cliente) :
    has (x.quitaHmode c g).hmodes f = has x.hmodes f :=
  (Recorta.quitaHmode (F := 0) c h).fijosH f (BitVec.and_not_self f)

/-- A flag of the second word that is written leaves the others. -/
theorem has_putHmode_of_disjoint {f g : BitVec 32} (h : f &&& g = 0) (b : Bool) (x : Cliente) :
    has (x.putHmode b g).hmodes f = has x.hmodes f :=
  has_put_of_disjoint h b

/-- A flag of the second word that is written reads back. -/
theorem has_putHmode {f : BitVec 32} (hf : f ≠ 0) (b : Bool) (x : Cliente) :
    has (x.putHmode b f).hmodes f = b :=
  has_put_self hf b

theorem myUser_quitaHmode (c : Bool) (f : BitVec 32) (x : Cliente) :
    (x.quitaHmode c f).myUser = x.myUser :=
  (Recorta.quitaHmode (F := 0) (H := 0) c BitVec.zero_and).myUser

theorem hasPriv_quitaHmode (c : Bool) (f : BitVec 32) (x : Cliente) (priv : BitVec 64) :
    (x.quitaHmode c f).hasPriv priv = x.hasPriv priv :=
  (Recorta.quitaHmode (F := .allOnes 32) (H := 0) c BitVec.zero_and).hasPriv (by decide) priv

namespace Revision

variable {r : Revision} {x : Cliente} {n : Nrof}

/-! ## The tests -/

/-- The test of the operators looks at their two flags only. -/
theorem recorta_operadores :
    Recorta (~~~(FLAGS_OPER ||| FLAGS_LOCOP)) (BitVec.allOnes 32) x (r.operadores x) :=
  (Recorta.quitaFlag _ (by decide)).trans (.quitaFlag _ (by decide))

/-- Who is an operator after the test. -/
theorem has_operadores_oper : has (r.operadores x).flags FLAGS_OPER =
    (has x.flags FLAGS_OPER &&
      (!x.myUser || has r.setflags FLAGS_OPER || has r.statusbdd FLAGS_OPER)) := by
  rw [operadores, has_quitaFlag_of_disjoint (by decide), has_quitaFlag, Cliente.isOper]
  cases has x.flags FLAGS_OPER <;> cases x.myUser <;> simp

/-- Who is a local operator after the test. -/
theorem has_operadores_locop : has (r.operadores x).flags FLAGS_LOCOP =
    (has x.flags FLAGS_LOCOP && (has r.setflags FLAGS_LOCOP || r.deServidor)) := by
  rw [operadores, has_quitaFlag, has_quitaFlag_of_disjoint (by decide)]
  cases has x.flags FLAGS_LOCOP <;> simp

/-- The modes that only servers change, but for those that also services may clear. -/
def deServicios : List (BitVec 32) :=
  [HMODE_NICKREGISTERED, HMODE_NICKSUSPENDED, HMODE_VHOSTPERSO, HMODE_SSL, HMODE_PENDVALIDATION]

/-- All the modes that the test of the servers writes. -/
abbrev DE_SERVIDORES : BitVec 32 :=
  HMODE_NICKREGISTERED ||| HMODE_NICKSUSPENDED ||| HMODE_VHOSTPERSO ||| HMODE_SSL |||
    HMODE_DOCKING ||| HMODE_USERDEAF ||| HMODE_USERBITCH ||| HMODE_USERNOJOIN |||
    HMODE_PENDVALIDATION

/-- The modes that only servers change are put back. -/
theorem has_servidores_of_mem (hserv : r.deServidor = false) {f : BitVec 32}
    (hf : f ∈ deServicios) : has (r.servidores x).hmodes f = has r.sethmodes f := by
  simp only [deServicios, List.mem_cons, List.not_mem_nil, or_false] at hf
  rcases hf with rfl | rfl | rfl | rfl | rfl <;>
    simp (disch := decide) only [servidores, hserv, Bool.not_false, if_true, has_putHmode,
      has_putHmode_of_disjoint, has_quitaHmode_of_disjoint]

/-- The other modes are left as they are. -/
theorem has_servidores_of_disjoint {f : BitVec 32} (hf : f &&& DE_SERVIDORES = 0) :
    has (r.servidores x).hmodes f = has x.hmodes f := by
  have hsub : ∀ g, DE_SERVIDORES &&& g = g → f &&& g = 0 := by
    intro g hg
    rw [← hg, ← BitVec.and_assoc, hf]
    exact BitVec.zero_and
  rw [servidores]
  split
  · dsimp only
    rw [has_putHmode_of_disjoint (hsub HMODE_PENDVALIDATION (by decide)),
      has_quitaHmode_of_disjoint (hsub HMODE_USERNOJOIN (by decide)),
      has_quitaHmode_of_disjoint (hsub HMODE_USERBITCH (by decide)),
      has_quitaHmode_of_disjoint (hsub HMODE_USERDEAF (by decide)),
      has_putHmode_of_disjoint (hsub HMODE_DOCKING (by decide)),
      has_putHmode_of_disjoint (hsub HMODE_SSL (by decide)),
      has_putHmode_of_disjoint (hsub HMODE_VHOSTPERSO (by decide)),
      has_putHmode_of_disjoint (hsub HMODE_NICKSUSPENDED (by decide)),
      has_putHmode_of_disjoint (hsub HMODE_NICKREGISTERED (by decide))]
  · rfl

/-- The rest of the client is left as it is. -/
theorem servidores_igual : Mismo x (r.servidores x) ∧ (r.servidores x).flags = x.flags := by
  have hquita : ∀ (c : Bool) (f : BitVec 32) (y : Cliente),
      Mismo x y ∧ y.flags = x.flags →
        Mismo x (y.quitaHmode c f) ∧ (y.quitaHmode c f).flags = x.flags := by
    intro c f y h
    cases c <;> exact ⟨h.1.trans ⟨rfl, rfl, rfl, rfl⟩, h.2⟩
  have hput : ∀ (b : Bool) (f : BitVec 32) (y : Cliente),
      Mismo x y ∧ y.flags = x.flags →
        Mismo x (y.putHmode b f) ∧ (y.putHmode b f).flags = x.flags := by
    intro b f y h
    exact ⟨h.1.trans ⟨rfl, rfl, rfl, rfl⟩, h.2⟩
  rw [servidores]
  split
  · exact hput _ _ _ <| hquita _ _ _ <| hquita _ _ _ <| hquita _ _ _ <| hput _ _ _ <|
      hput _ _ _ <| hput _ _ _ <| hput _ _ _ <| hput _ _ _ ⟨.refl x, rfl⟩
  · exact ⟨.refl x, rfl⟩

/-- The test of a registered nick. -/
theorem recorta_registrado (hreg : has r.sethmodes HMODE_NICKREGISTERED = true) :
    Recorta (BitVec.allOnes 32)
      (~~~(HMODE_HELPOP ||| HMODE_ADMIN ||| HMODE_CODER ||| HMODE_VHOSTPERSO)) x
      (r.registrado x) := by
  rw [registrado, hreg]
  exact (Recorta.quitaHmode _ (by decide)).trans <| (Recorta.quitaHmode _ (by decide)).trans <|
    (Recorta.quitaHmode _ (by decide)).trans (.quitaHmode _ (by decide))

/-- The modes that the status grants to a registered nick. -/
def deStatus : List (BitVec 32) :=
  [HMODE_HELPOP, HMODE_ADMIN, HMODE_CODER]

/-- A mode of the status stays when the client had it or the status grants it. -/
theorem has_registrado (hreg : has r.sethmodes HMODE_NICKREGISTERED = true) {f : BitVec 32}
    (hf : f ∈ deStatus) : has (r.registrado x).hmodes f =
      (has x.hmodes f && (has r.sethmodes f || has r.statusbdd f)) := by
  simp only [deStatus, List.mem_cons, List.not_mem_nil, or_false] at hf
  rcases hf with rfl | rfl | rfl <;>
    simp (disch := decide) only [registrado, hreg, Bool.not_true, Bool.false_eq_true, if_false,
      has_quitaHmode, has_quitaHmode_of_disjoint, Cliente.isHelpOp] <;>
    cases has x.hmodes _ <;> simp

/-- The test of a nick that is not registered. -/
theorem recorta_noRegistrado : Recorta (~~~FLAGS_OPER)
    (~~~(HMODE_MSGONLYREG ||| HMODE_NOCHAN ||| HMODE_DOCKING ||| HMODE_HELPOP ||| HMODE_ADMIN |||
      HMODE_CODER ||| HMODE_SERVICESBOT ||| HMODE_VHOSTPERSO ||| HMODE_HIDDENVIEWER |||
      HMODE_NOIDLE)) x (r.noRegistrado x n).1 :=
  (Recorta.quitaHmode true (by decide)).trans <| (Recorta.quitaHmode true (by decide)).trans <|
    (Recorta.quitaHmode true (by decide)).trans <| (Recorta.quitaHmode true (by decide)).trans <|
    (Recorta.quitaHmode true (by decide)).trans <| (Recorta.quitaHmode true (by decide)).trans <|
    (Recorta.quitaFlag true (by decide)).trans <| (Recorta.quitaHmode true (by decide)).trans <|
    (Recorta.quitaHmode _ (by decide)).trans <| (Recorta.quitaHmode _ (by decide)).trans <|
    .quitaHmode _ (by decide)

/-- The status grants nothing to a nick that is not registered. -/
theorem has_noRegistrado {f : BitVec 32} (hf : f ∈ deStatus) :
    has (r.noRegistrado x n).1.hmodes f = false := by
  simp only [deStatus, List.mem_cons, List.not_mem_nil, or_false] at hf
  rcases hf with rfl | rfl | rfl <;>
    simp (disch := decide) only [noRegistrado, clearHmode_eq, has_quitaHmode_of_disjoint,
      hmodes_clearFlag, has_quitaHmode, Bool.not_true, Bool.and_false]

/-- The tests of the virtual host and of the modes `D` and `P`. -/
theorem recorta_ircops : Recorta (BitVec.allOnes 32)
    (~~~(HMODE_VHOSTPERSO ||| HMODE_USERDEAF ||| HMODE_USERBITCH)) x (r.ircops x) :=
  (Recorta.quitaHmode _ (by decide)).trans <|
    (Recorta.ite _ (.putHmode _ (by decide) (by decide))).trans <|
    .ite _ (.putHmode _ (by decide) (by decide))

/-- The test of the notices. -/
theorem recorta_servnotice :
    Recorta (~~~FLAGS_SERVNOTICE) (BitVec.allOnes 32) x (r.servnotice x) := by
  rw [servnotice]
  split
  · exact (Recorta.quitaFlag true (by decide)).trans (.setSnomask _ _)
  · exact .refl x

/-- The tests of the privileges. -/
theorem recorta_privilegios : Recorta (~~~(FLAGS_CHSERV ||| FLAGS_SERVNOTICE))
    (~~~(HMODE_SERVICESBOT ||| HMODE_NOCHAN ||| HMODE_HIDDENVIEWER ||| HMODE_WHOIS |||
      HMODE_NOIDLE)) x (r.privilegios x) :=
  (Recorta.quitaFlag _ (by decide)).trans <|
    (recorta_servnotice.mono (by decide) (by decide)).trans <|
    (Recorta.quitaHmode _ (by decide)).trans <| (Recorta.quitaHmode _ (by decide)).trans <|
    (Recorta.quitaHmode _ (by decide)).trans <| (Recorta.quitaHmode _ (by decide)).trans <|
    .quitaHmode _ (by decide)

/-- The privilege of a mode. -/
def dePrivilegio : List (BitVec 32 × BitVec 64) :=
  [(HMODE_HIDDENVIEWER, PRIV_HIDDEN_VIEWER), (HMODE_WHOIS, PRIV_WHOIS_NOTICE),
    (HMODE_NOIDLE, PRIV_HIDE_IDLE)]

/-- The tests of the first word leave the second word as it is. -/
theorem hmodes_servnotice (c : Bool) (f : BitVec 32) :
    (r.servnotice (x.quitaFlag c f)).hmodes = x.hmodes := by
  rw [servnotice]
  split
  · exact hmodes_quitaFlag c f x
  · exact hmodes_quitaFlag c f x

/-- The tests of the first word in front of those of the second. -/
theorem recorta_chserv (c : Bool) : Recorta (~~~(FLAGS_CHSERV ||| FLAGS_SERVNOTICE))
    (BitVec.allOnes 32) x (r.servnotice (x.quitaFlag c FLAGS_CHSERV)) :=
  (Recorta.quitaFlag c (by decide)).trans (recorta_servnotice.mono (by decide) (by decide))

/-- A mode that needs a privilege stays when the client had it or it has the privilege. -/
theorem has_privilegios {a : BitVec 32 × BitVec 64} (ha : a ∈ dePrivilegio)
    (hlocal : x.myUser = true) : has (r.privilegios x).hmodes a.1 =
      (has x.hmodes a.1 && (has r.sethmodes a.1 || x.hasPriv a.2 ≠ 0#64)) := by
  have hpriv : ∀ c priv, (r.servnotice (x.quitaFlag c FLAGS_CHSERV)).hasPriv priv =
      x.hasPriv priv := fun c ↦ (recorta_chserv c).hasPriv (by decide)
  have huser : ∀ c, (r.servnotice (x.quitaFlag c FLAGS_CHSERV)).myUser = true :=
    fun c ↦ (recorta_chserv c).myUser.trans hlocal
  simp only [dePrivilegio, List.mem_cons, List.not_mem_nil, or_false] at ha
  rcases ha with rfl | rfl | rfl <;>
    simp (disch := decide) only [privilegios, has_quitaHmode_of_disjoint, has_quitaHmode,
      hmodes_servnotice, myUser_quitaHmode, hasPriv_quitaHmode, hpriv, huser, Bool.true_and] <;>
    cases has x.hmodes _ <;> cases has r.sethmodes _ <;> simp

/-- The mode `k` stays when the client had it or it has the privilege. -/
theorem has_privilegios_chserv : has (r.privilegios x).flags FLAGS_CHSERV =
    (has x.flags FLAGS_CHSERV &&
      (has r.setflags FLAGS_CHSERV || r.deServidor || x.hasPriv PRIV_CHANSERV ≠ 0#64)) := by
  have hserv : ∀ y : Cliente, has (r.servnotice y).flags FLAGS_CHSERV = has y.flags FLAGS_CHSERV :=
    fun y ↦ recorta_servnotice.fijosF _ (by decide)
  simp only [privilegios, flags_quitaHmode, hserv, has_quitaFlag]
  cases has x.flags _ <;> cases has r.setflags _ <;> cases r.deServidor <;> simp

/-- The mode `B` stays when the client had it or the status or a `U` line grants it. -/
theorem has_privilegios_servicesbot : has (r.privilegios x).hmodes HMODE_SERVICESBOT =
    (has x.hmodes HMODE_SERVICESBOT && (has r.sethmodes HMODE_SERVICESBOT || r.deServidor ||
      has r.statusbdd HMODE_SERVICESBOT || r.uline)) := by
  simp (disch := decide) only [privilegios, has_quitaHmode_of_disjoint, has_quitaHmode,
    hmodes_servnotice]
  cases has x.hmodes _ <;> cases has r.sethmodes _ <;> cases r.deServidor <;> simp

/-- The test of the nick of a local client. -/
theorem recorta_segunNick (hlocal : x.myConnect = true)
    (hreg : has x.hmodes HMODE_NICKREGISTERED = has r.sethmodes HMODE_NICKREGISTERED) :
    Recorta (~~~FLAGS_OPER) (HMODE_NICKREGISTERED ||| HMODE_NICKSUSPENDED ||| HMODE_SSL |||
      HMODE_PENDVALIDATION) x (r.segunNick x n).1 := by
  rw [segunNick, hlocal, Bool.true_and]
  cases hon : has x.hmodes HMODE_NICKREGISTERED with
  | true => exact (recorta_registrado (hreg.symm.trans hon)).mono (by decide) (by decide)
  | false => exact recorta_noRegistrado.mono (by decide) (by decide)

/-- A mode of the status stays when the nick is registered and the client had the mode or the status
grants it. -/
theorem has_segunNick (hlocal : x.myConnect = true)
    (hreg : has x.hmodes HMODE_NICKREGISTERED = has r.sethmodes HMODE_NICKREGISTERED)
    {f : BitVec 32} (hf : f ∈ deStatus) : has (r.segunNick x n).1.hmodes f =
      (has x.hmodes f && (has r.sethmodes HMODE_NICKREGISTERED &&
        (has r.sethmodes f || has r.statusbdd f))) := by
  rw [segunNick, hlocal, Bool.true_and, ← hreg]
  cases hon : has x.hmodes HMODE_NICKREGISTERED with
  | true =>
      rw [Bool.true_and]
      exact has_registrado (hreg.symm.trans hon) hf
  | false =>
      rw [Bool.false_and, Bool.and_false]
      exact has_noRegistrado hf

end Revision

/-! ## The modes of a request -/

/-- A user has no mode after a request that it is not entitled to. -/
structure Autorizado (e : Entorno) (antes despues : Cliente) : Prop where
  servicios : ∀ f ∈ [HMODE_NICKREGISTERED, HMODE_NICKSUSPENDED, HMODE_SSL, HMODE_PENDVALIDATION],
    has despues.hmodes f = has antes.hmodes f
  vhost : has despues.hmodes HMODE_VHOSTPERSO → has antes.hmodes HMODE_VHOSTPERSO ∨
    (e.registros.ipvirtualdb antes.name).isSome
  oper : has despues.flags FLAGS_OPER → has antes.flags FLAGS_OPER ∨
    'o' ∈ e.registros.concede antes.name
  admin : has despues.hmodes HMODE_ADMIN → has antes.hmodes HMODE_ADMIN ∨
    'a' ∈ e.registros.concede antes.name
  coder : has despues.hmodes HMODE_CODER → has antes.hmodes HMODE_CODER ∨
    'C' ∈ e.registros.concede antes.name
  helpop : has despues.hmodes HMODE_HELPOP → has antes.hmodes HMODE_HELPOP ∨
    'h' ∈ e.registros.concede antes.name
  servicesbot : has despues.hmodes HMODE_SERVICESBOT → has antes.hmodes HMODE_SERVICESBOT ∨
    'B' ∈ e.registros.concede antes.name ∨ e.uline
  chserv : has despues.flags FLAGS_CHSERV → has antes.flags FLAGS_CHSERV ∨
    despues.isAnOper ∧ has despues.privs PRIV_CHANSERV
  privilegios : ∀ a ∈ Revision.dePrivilegio, has despues.hmodes a.1 → has antes.hmodes a.1 ∨
    despues.isAnOper ∧ has despues.privs a.2
  locop : has despues.flags FLAGS_LOCOP → has antes.flags FLAGS_LOCOP

/-- A request that changes nothing gives nothing. -/
theorem Autorizado.refl (e : Entorno) (x : Cliente) : Autorizado e x x where
  servicios _ _ := rfl
  vhost := .inl
  oper := .inl
  admin := .inl
  coder := .inl
  helpop := .inl
  servicesbot := .inl
  chserv := .inl
  privilegios _ _ := .inl
  locop := id

/-- A request for `h` of a registered nick whose record grants `O` and not `h`. -/
structure PideAyuda (e : Entorno) (parv : List CStr) (sptr : Cliente) : Prop where
  letra : ∃ de name p, parv = de :: name :: p ∧ e.findUser name = some true ∧
    pide 'h' false p = true
  registrado : has sptr.hmodes HMODE_NICKREGISTERED
  noTiene : has sptr.hmodes HMODE_HELPOP = false
  concede : 'O' ∈ e.registros.concede sptr.name
  noConcede : 'h' ∉ e.registros.concede sptr.name

/-- A privilege is one of an operator. -/
theorem hasPriv_ne_zero {x : Cliente} {priv : BitVec 64} (h : x.hasPriv priv ≠ 0#64) :
    x.isAnOper = true ∧ has x.privs priv = true := by
  rw [Cliente.hasPriv] at h
  split at h
  · exact absurd rfl h
  · next hno =>
      simp only [Bool.not_eq_true', not_or, Bool.not_eq_false] at hno
      exact ⟨hno.2, has_eq_true.mpr h⟩

section

variable {e : Entorno} {sptr y z : Cliente} {n : Nrof}

/-- The flags before a request, as they are kept while it is undone. -/
theorem has_setflags {a : BitVec 32 × Char} (ha : a ∈ userModes) :
    has (e.revision sptr y).setflags a.1 = has sptr.flags a.1 :=
  separa_userModes.has_recoge ha sptr.flags

/-- The second word before a request, as it is kept while it is undone. -/
theorem has_sethmodes {a : BitVec 32 × Char} (ha : a ∈ userHmodes) :
    has (e.revision sptr y).sethmodes a.1 = has sptr.hmodes a.1 :=
  separa_userHmodes.has_recoge ha sptr.hmodes

/-- The status of a local user is that of its record. -/
theorem statusbdd_eq (hy : Mismo sptr y) (hlocal : sptr.myUser = true) :
    (e.revision sptr y).statusbdd = getStatus e.registros y :=
  if_pos (hy.myUser.trans hlocal)

/-- All that is left of the bits of a request after the test of the nick. -/
theorem recorta_cola (r : Revision) (x : Cliente) (hz : Recorta (~~~MODE_ISWATCH) (.allOnes 32)
    (r.privilegios (r.ircops x)) z) :
    Recorta (FLAGS_OPER ||| FLAGS_LOCOP ||| FLAGS_INVISIBLE)
      (HMODE_NICKREGISTERED ||| HMODE_NICKSUSPENDED ||| HMODE_SSL ||| HMODE_PENDVALIDATION |||
        HMODE_HELPOP ||| HMODE_ADMIN ||| HMODE_CODER) x z :=
  (Revision.recorta_ircops.mono (by decide) (by decide)).trans <|
    (Revision.recorta_privilegios.mono (by decide) (by decide)).trans
      (hz.mono (by decide) (by decide))

/-- The client after the tests of the operators and of the servers. -/
def Revision.medio (r : Revision) (x : Cliente) : Cliente :=
  r.servidores (r.operadores x)

theorem Revision.mismo_medio (r : Revision) (x : Cliente) : Mismo x (r.medio x) :=
  recorta_operadores.toMismo.trans servidores_igual.1

theorem Revision.flags_medio (r : Revision) (x : Cliente) :
    (r.medio x).flags = (r.operadores x).flags :=
  servidores_igual.2

/-- The modes that the first tests leave as they are. -/
theorem Revision.has_medio (r : Revision) (x : Cliente) {f : BitVec 32}
    (hf : f &&& DE_SERVIDORES = 0) : has (r.medio x).hmodes f = has x.hmodes f := by
  rw [medio, has_servidores_of_disjoint hf]
  exact recorta_operadores.fijosH f (by rw [BitVec.not_allOnes]; exact BitVec.and_zero)

variable (hy : Mismo sptr y) (hlocal : sptr.myUser = true) (hserv : e.deServidor = false)
  (hz : Recorta (~~~MODE_ISWATCH) (.allOnes 32) ((e.revision sptr y).privilegios
    ((e.revision sptr y).ircops ((e.revision sptr y).segunNick
      ((e.revision sptr y).medio y) n).1)) z)

include hserv

/-- The first tests put back what only servers change. -/
theorem has_medio_of_mem {a : BitVec 32 × Char} (ha : a ∈ userHmodes)
    (hf : a.1 ∈ Revision.deServicios) :
    has ((e.revision sptr y).medio y).hmodes a.1 = has sptr.hmodes a.1 :=
  (Revision.has_servidores_of_mem hserv hf).trans (has_sethmodes ha)

include hy hlocal

omit hserv in
theorem myConnect_medio : ((e.revision sptr y).medio y).myConnect = true :=
  ((hy.trans (Revision.mismo_medio _ y)).myConnect).trans (Bool.and_eq_true_iff.mp hlocal).1

/-- The test of the nick, and what follows. -/
theorem recorta_nick : Recorta (~~~FLAGS_OPER) (HMODE_NICKREGISTERED ||| HMODE_NICKSUSPENDED |||
    HMODE_SSL ||| HMODE_PENDVALIDATION) ((e.revision sptr y).medio y)
      ((e.revision sptr y).segunNick ((e.revision sptr y).medio y) n).1 :=
  Revision.recorta_segunNick (myConnect_medio hy hlocal)
    (Revision.has_servidores_of_mem hserv (by decide))

include hz

omit hy hlocal hserv in
theorem recorta_fin : Recorta (FLAGS_OPER ||| FLAGS_LOCOP ||| FLAGS_INVISIBLE)
    (HMODE_NICKREGISTERED ||| HMODE_NICKSUSPENDED ||| HMODE_SSL ||| HMODE_PENDVALIDATION |||
      HMODE_HELPOP ||| HMODE_ADMIN ||| HMODE_CODER)
    ((e.revision sptr y).segunNick ((e.revision sptr y).medio y) n).1 z :=
  recorta_cola _ _ hz

/-- What is left of a mode of the status after all the tests. -/
theorem has_deStatus {a : BitVec 32 × Char} (ha : a ∈ userHmodes)
    (hf : a.1 ∈ Revision.deStatus) : has z.hmodes a.1 =
      (has y.hmodes a.1 && (has sptr.hmodes HMODE_NICKREGISTERED &&
        (has sptr.hmodes a.1 || has (getStatus e.registros y) a.1))) := by
  have hdisj : a.1 &&& Revision.DE_SERVIDORES = 0 ∧
      a.1 &&& ~~~(HMODE_NICKREGISTERED ||| HMODE_NICKSUSPENDED ||| HMODE_SSL |||
        HMODE_PENDVALIDATION ||| HMODE_HELPOP ||| HMODE_ADMIN ||| HMODE_CODER) = 0 := by
    simp only [Revision.deStatus, List.mem_cons, List.not_mem_nil, or_false] at hf
    rcases hf with h | h | h <;> rw [h] <;> decide
  rw [(recorta_fin hz).fijosH _ hdisj.2, Revision.has_segunNick (myConnect_medio hy hlocal)
      (Revision.has_servidores_of_mem hserv (by decide)) hf, Revision.has_medio _ _ hdisj.1,
    has_sethmodes (a := (HMODE_NICKREGISTERED, 'r')) (by decide), has_sethmodes ha,
    statusbdd_eq hy hlocal]

/-- The tests that follow the first ones. -/
theorem recorta_medio : Recorta (FLAGS_LOCOP ||| FLAGS_INVISIBLE)
    (HMODE_NICKREGISTERED ||| HMODE_NICKSUSPENDED ||| HMODE_SSL ||| HMODE_PENDVALIDATION)
    ((e.revision sptr y).medio y) z :=
  ((recorta_nick hy hlocal hserv).mono (by decide) (by decide)).trans
    ((recorta_fin hz).mono (by decide) (by decide))

/-- A client is an operator after a request when it was one or its record grants it. -/
theorem oper_of_fin (hon : has z.flags FLAGS_OPER = true) :
    has sptr.flags FLAGS_OPER = true ∨ 'o' ∈ e.registros.concede sptr.name := by
  have hmedio := (recorta_medio hy hlocal hserv hz).flags _ hon
  rw [Revision.flags_medio, Revision.has_operadores_oper, hy.myUser, hlocal,
    has_setflags (a := (FLAGS_OPER, 'o')) (by decide), statusbdd_eq hy hlocal] at hmedio
  rcases Bool.or_eq_true_iff.mp (Bool.and_eq_true_iff.mp hmedio).2 with hset | hstatus
  · exact .inl hset
  · have hconcede := (has_getStatus e.registros y (a := (FLAGS_OPER, 'o')) (by decide)).mp hstatus
    rw [hy.name] at hconcede
    exact .inr hconcede

/-- A client is a local operator after a request when it was one. -/
theorem locop_of_fin (hon : has z.flags FLAGS_LOCOP = true) :
    has sptr.flags FLAGS_LOCOP = true := by
  have hmedio := (recorta_medio hy hlocal hserv hz).flags _ hon
  have hfalse : (e.revision sptr y).deServidor = false := hserv
  rw [Revision.flags_medio, Revision.has_operadores_locop, hfalse, Bool.or_false,
    has_setflags (a := (FLAGS_LOCOP, 'O')) (by decide)] at hmedio
  exact (Bool.and_eq_true_iff.mp hmedio).2

/-- A mode of the status that a client has after a request. -/
theorem deStatus_of_fin {a : BitVec 32 × Char} (ha : a ∈ userHmodes)
    (hf : a.1 ∈ Revision.deStatus) (hletra : a ∈ letrasStatus) (hon : has z.hmodes a.1 = true) :
    has sptr.hmodes a.1 = true ∨ a.2 ∈ e.registros.concede sptr.name := by
  rw [has_deStatus hy hlocal hserv hz ha hf, Bool.and_eq_true_iff, Bool.and_eq_true_iff,
    Bool.or_eq_true_iff, has_getStatus e.registros y hletra, hy.name] at hon
  exact hon.2.2

/-- The mode `B` that a client has after a request. -/
theorem servicesbot_of_fin (hon : has z.hmodes HMODE_SERVICESBOT = true) :
    has sptr.hmodes HMODE_SERVICESBOT = true ∨
      'B' ∈ e.registros.concede sptr.name ∨ e.uline = true := by
  have hprivs := hz.hmodes _ (by decide) hon
  have hfalse : (e.revision sptr y).deServidor = false := hserv
  have hmem : (HMODE_SERVICESBOT, 'B') ∈ letrasStatus := by decide
  rw [Revision.has_privilegios_servicesbot, hfalse, Bool.or_false,
    has_sethmodes (a := (HMODE_SERVICESBOT, 'B')) (by decide), statusbdd_eq hy hlocal,
    Bool.and_eq_true_iff, Bool.or_eq_true_iff, Bool.or_eq_true_iff,
    has_getStatus e.registros y hmem, hy.name] at hprivs
  rcases hprivs.2 with (hset | hconcede) | huline
  · exact .inl hset
  · exact .inr (.inl hconcede)
  · exact .inr (.inr huline)

omit hy hlocal hserv in
/-- A privilege that a test has seen is held after the request. -/
theorem hasPriv_of_fin {priv : BitVec 64}
    (hpriv : ((e.revision sptr y).ircops ((e.revision sptr y).segunNick
      ((e.revision sptr y).medio y) n).1).hasPriv priv ≠ 0#64) :
    z.isAnOper = true ∧ has z.privs priv = true := by
  have hfin : Recorta (FLAGS_OPER ||| FLAGS_LOCOP) 0 ((e.revision sptr y).ircops
      ((e.revision sptr y).segunNick ((e.revision sptr y).medio y) n).1) z :=
    (Revision.recorta_privilegios.mono (by decide) (by decide)).trans
      (hz.mono (by decide) (by decide))
  rw [← hfin.hasPriv (by decide)] at hpriv
  exact hasPriv_ne_zero hpriv

omit hy hlocal in
/-- The mode `k` that a client has after a request. -/
theorem chserv_of_fin (hon : has z.flags FLAGS_CHSERV = true) :
    has sptr.flags FLAGS_CHSERV = true ∨ z.isAnOper = true ∧ has z.privs PRIV_CHANSERV = true := by
  have hprivs := hz.flags _ hon
  have hfalse : (e.revision sptr y).deServidor = false := hserv
  rw [Revision.has_privilegios_chserv, hfalse, Bool.or_false,
    has_setflags (a := (FLAGS_CHSERV, 'k')) (by decide), Bool.and_eq_true_iff,
    Bool.or_eq_true_iff, decide_eq_true_eq] at hprivs
  exact hprivs.2.imp_right (hasPriv_of_fin hz)

/-- A mode of an operator that a client has after a request. -/
theorem privilegio_of_fin {a : BitVec 32 × BitVec 64} (ha : a ∈ Revision.dePrivilegio)
    (hon : has z.hmodes a.1 = true) :
    has sptr.hmodes a.1 = true ∨ z.isAnOper = true ∧ has z.privs a.2 = true := by
  have hlibre : a.1 &&& libres = 0 := by
    simp only [Revision.dePrivilegio, List.mem_cons, List.not_mem_nil, or_false] at ha
    rcases ha with rfl | rfl | rfl <;> decide
  have hset : has (e.revision sptr y).sethmodes a.1 = has sptr.hmodes a.1 := by
    simp only [Revision.dePrivilegio, List.mem_cons, List.not_mem_nil, or_false] at ha
    rcases ha with rfl | rfl | rfl
    · exact has_sethmodes (a := (HMODE_HIDDENVIEWER, 'X')) (by decide)
    · exact has_sethmodes (a := (HMODE_WHOIS, 'W')) (by decide)
    · exact has_sethmodes (a := (HMODE_NOIDLE, 'I')) (by decide)
  have huser : Mismo sptr ((e.revision sptr y).ircops ((e.revision sptr y).segunNick
      ((e.revision sptr y).medio y) n).1) :=
    (hy.trans (Revision.mismo_medio _ y)).trans
      ((recorta_nick hy hlocal hserv).toMismo.trans Revision.recorta_ircops.toMismo)
  have hprivs := hz.hmodes _ hlibre hon
  rw [Revision.has_privilegios ha (huser.myUser.trans hlocal), hset,
    Bool.and_eq_true_iff, Bool.or_eq_true_iff, decide_eq_true_eq] at hprivs
  exact hprivs.2.imp_right (hasPriv_of_fin hz)

/-- A mode of the services is what it was before the request. -/
theorem servicio_of_fin {a : BitVec 32 × Char} (ha : a ∈ userHmodes)
    (hf : a.1 ∈ [HMODE_NICKREGISTERED, HMODE_NICKSUSPENDED, HMODE_SSL, HMODE_PENDVALIDATION]) :
    has z.hmodes a.1 = has sptr.hmodes a.1 := by
  have hserv' : a.1 ∈ Revision.deServicios := by
    simp only [List.mem_cons, List.not_mem_nil, or_false] at hf
    rcases hf with h | h | h | h <;> rw [h] <;> decide
  have hfijo : a.1 &&& ~~~(HMODE_NICKREGISTERED ||| HMODE_NICKSUSPENDED ||| HMODE_SSL |||
      HMODE_PENDVALIDATION) = 0 := by
    simp only [List.mem_cons, List.not_mem_nil, or_false] at hf
    rcases hf with h | h | h | h <;> rw [h] <;> decide
  exact ((recorta_medio hy hlocal hserv hz).fijosH _ hfijo).trans (has_medio_of_mem hserv ha hserv')

/-- But for `h`, a request gives nothing that the user is not entitled to. -/
theorem autorizado_of_helpop (hhelpop : has z.hmodes HMODE_HELPOP = true →
    has sptr.hmodes HMODE_HELPOP = true ∨ 'h' ∈ e.registros.concede sptr.name) :
    Autorizado e sptr z where
  servicios f hf := by
    have hf' := hf
    simp only [List.mem_cons, List.not_mem_nil, or_false] at hf'
    rcases hf' with rfl | rfl | rfl | rfl
    · exact servicio_of_fin hy hlocal hserv hz (a := (HMODE_NICKREGISTERED, 'r')) (by decide) hf
    · exact servicio_of_fin hy hlocal hserv hz (a := (HMODE_NICKSUSPENDED, 'S')) (by decide) hf
    · exact servicio_of_fin hy hlocal hserv hz (a := (HMODE_SSL, 'z')) (by decide) hf
    · exact servicio_of_fin hy hlocal hserv hz (a := (HMODE_PENDVALIDATION, 'V')) (by decide) hf
  vhost hon := by
    have hmedio := (recorta_medio hy hlocal hserv hz).hmodes _ (by decide) hon
    rw [has_medio_of_mem hserv (a := (HMODE_VHOSTPERSO, 'v')) (by decide) (by decide)] at hmedio
    exact .inl hmedio
  oper := oper_of_fin hy hlocal hserv hz
  admin := deStatus_of_fin hy hlocal hserv hz (a := (HMODE_ADMIN, 'a')) (by decide) (by decide)
    (by decide)
  coder := deStatus_of_fin hy hlocal hserv hz (a := (HMODE_CODER, 'C')) (by decide) (by decide)
    (by decide)
  helpop := hhelpop
  servicesbot := servicesbot_of_fin hy hlocal hserv hz
  chserv := chserv_of_fin hserv hz
  privilegios _ := privilegio_of_fin hy hlocal hserv hz
  locop := locop_of_fin hy hlocal hserv hz

end

/-- A request that changes modes, after all the tests. -/
theorem recorta_mUmode {e : Entorno} {name : CStr} (de m : CStr) (p : List CStr) (sptr : Cliente)
    (n : Nrof) (hname : e.findUser name = some true) :
    Recorta (~~~MODE_ISWATCH) (.allOnes 32)
      ((e.revision sptr (sptr.lee (m :: p)).sptr).aplica (sptr.lee (m :: p)).sptr n).1
      (mUmode e (de :: name :: m :: p) sptr n).1 := by
  rw [mUmode, hname]
  dsimp only
  exact (Recorta.ite _ (.setSnomask _ _)).trans (.quitaFlag _ (by decide))

/-- A request of a local user gives it no mode that it is not entitled to, if and only if it does not
ask for `h` where its record grants `O` and not `h`. -/
theorem autorizado_iff (e : Entorno) (parv : List CStr) (sptr : Cliente) (n : Nrof)
    (hlocal : sptr.myUser = true) (hserv : e.deServidor = false) :
    Autorizado e sptr (mUmode e parv sptr n).1 ↔ ¬PideAyuda e parv sptr := by
  constructor
  · rintro h ⟨⟨de, name, p, rfl, hname, hpide⟩, hreg, hno, hO, hh⟩
    cases p with
    | nil => cases hpide
    | cons m p =>
        have hy := mismo_lee (m :: p) sptr
        have hhelpop := has_deStatus hy hlocal hserv (recorta_mUmode de m p sptr n hname)
          (a := (HMODE_HELPOP, 'h')) (by decide) (by decide)
        have hstatus : has (getStatus e.registros (sptr.lee (m :: p)).sptr) HMODE_HELPOP = true := by
          rw [has_getStatus_helpop, hy.name]
          exact .inr hO
        rw [has_lee_hmodes (a := (HMODE_HELPOP, 'h')) (by decide), hno, hpide, hreg, hstatus] at hhelpop
        rcases h.helpop hhelpop with hold | hconcede
        · rw [hno] at hold
          cases hold
        · exact hh hconcede
  · intro h
    match parv, h with
    | [], _ => exact .refl e sptr
    | [_], _ => exact .refl e sptr
    | de :: name :: p, h =>
        cases hname : e.findUser name with
        | none =>
            simp only [mUmode, hname]
            exact .refl e sptr
        | some suyo =>
            match suyo, p, hname, h with
            | false, _, hname, _ =>
                simp only [mUmode, hname]
                exact .refl e sptr
            | true, [], hname, _ =>
                simp only [mUmode, hname]
                exact .refl e sptr
            | true, m :: p, hname, h =>
                have hy := mismo_lee (m :: p) sptr
                have hz := recorta_mUmode de m p sptr n hname
                refine autorizado_of_helpop hy hlocal hserv hz fun hon ↦ ?_
                rw [has_deStatus hy hlocal hserv hz (a := (HMODE_HELPOP, 'h')) (by decide) (by decide),
                  has_lee_hmodes (a := (HMODE_HELPOP, 'h')) (by decide), Bool.and_eq_true_iff,
                  Bool.and_eq_true_iff, Bool.or_eq_true_iff, has_getStatus_helpop, hy.name] at hon
                obtain ⟨hpide, hreg, hconcede⟩ := hon
                by_contra hnot
                obtain ⟨hno, hh⟩ := not_or.mp hnot
                rw [Bool.not_eq_true] at hno
                rw [hno] at hpide
                exact h ⟨⟨de, name, m :: p, rfl, hname, hpide⟩, hreg, hno,
                  (hconcede.resolve_left (mt .inl hnot)).resolve_left hh, hh⟩

/-- A record in the JSON format that grants `O`. -/
def valorO : CStr :=
  "\x7b\"modes\":\"+O\"\x7d".toList

/-- What is read while a user asks for modes whose record grants `O`. -/
def conValorO : Entorno where
  deServidor := false
  uline := false
  registros :=
    ⟨fun name ↦ if name = "ana".toList then some valorO else none, fun _ ↦ none,
      fun valor ↦ if valor = valorO then some (some "+O".toList) else none⟩
  findUser name := if name = "ana".toList then some true else none

/-- A local user whose nick is registered. -/
def usuario : Cliente where
  name := "ana".toList
  myConnect := true
  isUser := true
  flags := 0#32
  hmodes := HMODE_NICKREGISTERED
  snomask := 0#32
  privs := 0#64

/-- The user may ask for what it likes but `h`. -/
theorem autorizado_iff_usuario :
    ¬PideAyuda conValorO ["ana".toList, "ana".toList, "+iO-h+a".toList] usuario ∧
      (Autorizado conValorO usuario (mUmode conValorO
          ["ana".toList, "ana".toList, "+iO-h+a".toList] usuario ⟨0, 0, 0⟩).1 ↔
        ¬PideAyuda conValorO ["ana".toList, "ana".toList, "+iO-h+a".toList] usuario) := by
  refine ⟨?_, autorizado_iff conValorO _ usuario ⟨0, 0, 0⟩ rfl rfl⟩
  rintro ⟨⟨de, name, p, heq, -, hpide⟩, -⟩
  cases heq
  revert hpide
  decide

/-- The user asks for `h`, and it gets it. -/
theorem not_autorizado :
    ¬∀ (e : Entorno) (parv : List CStr) (sptr : Cliente) (n : Nrof), sptr.myUser = true →
      e.deServidor = false → Autorizado e sptr (mUmode e parv sptr n).1 := by
  intro h
  have hhelpop := (h conValorO ["ana".toList, "ana".toList, "+h".toList] usuario ⟨0, 0, 0⟩ rfl
    rfl).helpop (by decide)
  revert hhelpop
  decide

end Ircd.User
