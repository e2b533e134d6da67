import Ircd.IPcheck.Search
import Ircd.Lib.Run
import Ircd.Lib.Tally
import Mathlib.Data.List.Count

/-!
# The registry counts the clients of an address

For each vector of the registry and each prefix, the entry of the prefix counts the clients that
were registered with it in that vector, after any events (`Registro.Cuenta`). The number that
`IPcheck_nr` returns is that of all clients of the prefix as long as no two addresses of one prefix
are kept in different vectors, which the hash allows for 6to4 addresses. `conecta_eq_some` and
`disconnect_eq_some` say what an event makes of the counts.
-/

namespace Ircd.IPcheck

/-! ## What the registry counts -/

/-- The clients that are registered with a prefix in a vector. -/
def enVector (regs : List IrcInAddr) (h : UInt16) (p : UInt16 × UInt16 × UInt16 × UInt16) : Nat :=
  regs.countP fun a ↦ calculateHash (canonicalize a) = h ∧ prefijo (canonicalize a) = p

/-- The registry counts the registered clients, in each vector. -/
def Registro.Cuenta (s : Registro) (regs : List IrcInAddr) : Prop :=
  ∀ h, Tally IPregistry.clave (fun e ↦ e.connected.toNat) (enVector regs h) (s.hashtable h).vector ∧
    (s.hashtable h).vector.length ≤ (s.hashtable h).allocatedLength.toNat

theorem enVector_le (regs : List IrcInAddr) (h : UInt16)
    (p : UInt16 × UInt16 × UInt16 × UInt16) : enVector regs h p ≤ regs.length :=
  List.countP_le_length

/-- One more client. -/
theorem enVector_cons (a : IrcInAddr) (regs : List IrcInAddr) :
    enVector (a :: regs) (calculateHash (canonicalize a)) =
      Function.update (enVector regs (calculateHash (canonicalize a))) (prefijo (canonicalize a))
        (enVector regs (calculateHash (canonicalize a)) (prefijo (canonicalize a)) + 1) := by
  funext p
  by_cases hp : p = prefijo (canonicalize a)
  · subst hp
    rw [Function.update_self, enVector, List.countP_cons_of_pos (by simp)]
    rfl
  · rw [Function.update_of_ne hp, enVector, List.countP_cons_of_neg (by simp [Ne.symm hp])]
    rfl

theorem enVector_cons_of_ne {a : IrcInAddr} {h : UInt16} (hh : h ≠ calculateHash (canonicalize a))
    (regs : List IrcInAddr) : enVector (a :: regs) h = enVector regs h := by
  funext p
  rw [enVector, List.countP_cons_of_neg (by simp [Ne.symm hh])]
  rfl

/-- One client less. -/
theorem enVector_erase {a : IrcInAddr} {regs : List IrcInAddr} (ha : a ∈ regs) :
    enVector (regs.erase a) (calculateHash (canonicalize a)) =
      Function.update (enVector regs (calculateHash (canonicalize a))) (prefijo (canonicalize a))
        (enVector regs (calculateHash (canonicalize a)) (prefijo (canonicalize a)) - 1) := by
  funext p
  by_cases hp : p = prefijo (canonicalize a)
  · subst hp
    rw [Function.update_self, enVector, List.countP_erase]
    simp [ha, enVector]
  · rw [Function.update_of_ne hp, enVector, List.countP_erase]
    simp [enVector, Ne.symm hp]

theorem enVector_erase_of_ne {a : IrcInAddr} {h : UInt16} (hh : h ≠ calculateHash (canonicalize a))
    (regs : List IrcInAddr) : enVector (regs.erase a) h = enVector regs h := by
  funext p
  rw [enVector, List.countP_erase]
  simp [enVector, Ne.symm hh]

theorem Registro.vector_pon_self (s : Registro) (ip : IrcInAddr) (iprv : IPregistryVector) :
    (s.pon ip iprv).hashtable (calculateHash ip) = iprv :=
  Function.update_self ..

theorem Registro.vector_pon_of_ne (s : Registro) {ip : IrcInAddr} (iprv : IPregistryVector)
    {h : UInt16} (hh : h ≠ calculateHash ip) : (s.pon ip iprv).hashtable h = s.hashtable h :=
  Function.update_of_ne hh ..

variable {s : Registro} {regs : List IrcInAddr}

/-- `IPcheck_nr` returns the count of the vector. -/
theorem Registro.Cuenta.nr_eq (hs : s.Cuenta regs) (a : IrcInAddr) :
    (nr a s).toNat
      = enVector regs (calculateHash (canonicalize a)) (prefijo (canonicalize a)) := by
  have htally := (hs (calculateHash (canonicalize a))).1
  rw [nr]
  cases hfind : registryFind (s.vector (canonicalize a)) (canonicalize a) with
  | none =>
      rw [registryFind_eq_none] at hfind
      by_contra hne
      obtain ⟨e, he, hclave⟩ := htally.complete (prefijo (canonicalize a)) (fun hcero ↦ hne hcero.symm)
      exact hfind e he hclave
  | some i =>
      obtain ⟨front, back, e, hvector, rfl, hclave⟩ := registryFind_some hfind
      have hmem : e ∈ (s.vector (canonicalize a)).vector := by simp [hvector]
      have hcuenta := htally.count_eq e hmem
      simp only [hvector, List.getElem?_append_right, Nat.le_refl, Nat.sub_self,
        List.getElem?_cons_zero, Option.map_some, Option.getD_some]
      rw [hclave] at hcuenta
      exact hcuenta

/-! ## A client connects -/

/-- What the two functions for a new client have in common: a new entry or a change of the old. -/
def conecta (canon : IrcInAddr) (nueva : IPregistry) (f : IPregistry → IPregistry) (s : Registro) :
    Option Registro :=
  match registryFind (s.vector canon) canon with
  | none => (registryAdd (s.vector canon) nueva).map (s.pon canon)
  | some i => some (s.pon canon ((s.vector canon).cambia i f))

/-- A change of an entry to a value that was computed before. -/
theorem cambia_const {iprv : IPregistryVector} {front back : List IPregistry} {e : IPregistry}
    (h : iprv.vector = front ++ e :: back) (f : IPregistry → IPregistry) :
    iprv.cambia front.length (fun _ ↦ f e) = iprv.cambia front.length f := by
  rw [IPregistryVector.cambia, IPregistryVector.cambia, h, modify_length, modify_length]

theorem localConnect_fst (cptr : Cliente) (now : Nat) (clones : Bool) (since : Int)
    (s : Registro) :
    (localConnect cptr now clones since s).map (·.1) =
      conecta (canonicalize cptr.ip) (entradaNueva (canonicalize cptr.ip) now 1)
        (·.reconecta now clones) s := by
  unfold localConnect conecta
  dsimp only
  cases hfind : registryFind (s.vector (canonicalize cptr.ip)) (canonicalize cptr.ip) with
  | none =>
      dsimp only
      cases registryAdd (s.vector (canonicalize cptr.ip))
        (entradaNueva (canonicalize cptr.ip) now 1) <;> rfl
  | some i =>
      obtain ⟨front, back, e, hvector, rfl, -⟩ := registryFind_some hfind
      have he : (s.vector (canonicalize cptr.ip)).vector[front.length]? = some e := by
        simp [hvector]
      simp only [he, Option.bind_eq_bind, Option.bind_some, ← cambia_const hvector]
      split_ifs <;> rfl

theorem remoteConnect_fst (cptr : Cliente) (now : Nat) (isBurst : Bool) (s : Registro) :
    (remoteConnect cptr now isBurst s).map (·.1) =
      conecta (canonicalize cptr.ip)
        (entradaNueva (canonicalize cptr.ip) now (if isBurst then 1 else 0))
        (·.reconectaRemoto now isBurst) s := by
  unfold remoteConnect conecta
  dsimp only
  cases hfind : registryFind (s.vector (canonicalize cptr.ip)) (canonicalize cptr.ip) with
  | none =>
      dsimp only
      cases registryAdd (s.vector (canonicalize cptr.ip))
        (entradaNueva (canonicalize cptr.ip) now (if isBurst then 1 else 0)) <;> rfl
  | some i =>
      obtain ⟨front, back, e, hvector, rfl, -⟩ := registryFind_some hfind
      have he : (s.vector (canonicalize cptr.ip)).vector[front.length]? = some e := by
        simp [hvector]
      simp only [he, Option.bind_eq_bind, Option.bind_some, ← cambia_const hvector]
      split_ifs <;> rfl

/-- The parts of an entry that the counts depend on, after a client connects again. -/
theorem reconecta_cuenta (e : IPregistry) (now : Nat) (clones : Bool) :
    (e.reconecta now clones).ip = e.ip ∧
      (e.reconecta now clones).connected = e.connected + 1 := by
  have hintento (e : IPregistry) :
      e.otroIntento.ip = e.ip ∧ e.otroIntento.connected = e.connected := by
    unfold IPregistry.otroIntento
    split <;> exact ⟨rfl, rfl⟩
  unfold IPregistry.reconecta
  dsimp only
  split
  · exact ⟨rfl, rfl⟩
  · rw [(hintento _).1, (hintento _).2]
    split <;> exact ⟨rfl, rfl⟩

theorem reconectaRemoto_cuenta (e : IPregistry) (now : Nat) (isBurst : Bool) :
    (e.reconectaRemoto now isBurst).ip = e.ip ∧
      (e.reconectaRemoto now isBurst).connected = e.connected + 1 := by
  have hintento (e : IPregistry) : (e.otroIntento.resetConnectTime now).ip = e.ip ∧
      (e.otroIntento.resetConnectTime now).connected = e.connected := by
    unfold IPregistry.otroIntento
    split <;> exact ⟨rfl, rfl⟩
  unfold IPregistry.reconectaRemoto
  dsimp only
  split
  · exact ⟨rfl, rfl⟩
  · split
    · split <;> exact ⟨rfl, rfl⟩
    · rw [(hintento _).1, (hintento _).2]
      split <;> exact ⟨rfl, rfl⟩

/-- There is room for a new entry in a vector. -/
def IPregistryVector.Cabe (iprv : IPregistryVector) : Prop :=
  iprv.vector.length = iprv.allocatedLength.toNat → iprv.allocatedLength.toNat + 4 < 65536

theorem registryAdd_eq_some {iprv : IPregistryVector}
    (hlen : iprv.vector.length ≤ iprv.allocatedLength.toNat) (hcabe : iprv.Cabe) (e : IPregistry) :
    ∃ allocatedLength : UInt16, registryAdd iprv e = some ⟨allocatedLength, iprv.vector ++ [e]⟩ ∧
      iprv.vector.length < allocatedLength.toNat := by
  by_cases hlleno : iprv.vector.length = iprv.allocatedLength.toNat
  · have hsuma : (iprv.allocatedLength + 4).toNat = iprv.allocatedLength.toNat + 4 := by
      have hmod := UInt16.toNat_add iprv.allocatedLength 4
      have hmenor := hcabe hlleno
      have hcuatro : (4 : UInt16).toNat = 4 := rfl
      omega
    have hmenor : iprv.vector.length < (iprv.allocatedLength + 4).toNat := by omega
    refine ⟨iprv.allocatedLength + 4, ?_, hmenor⟩
    rw [registryAdd]
    simp only [if_pos hlleno, if_pos hmenor]
  · have hmenor : iprv.vector.length < iprv.allocatedLength.toNat := by omega
    refine ⟨iprv.allocatedLength, ?_, hmenor⟩
    rw [registryAdd]
    simp only [if_neg hlleno, if_pos hmenor]

/-- Without room the new entry is written behind the vector. -/
theorem registryAdd_eq_none {iprv : IPregistryVector} (hcabe : ¬iprv.Cabe) (e : IPregistry) :
    registryAdd iprv e = none := by
  obtain ⟨hlleno, hdesborda⟩ := Classical.not_imp.mp hcabe
  have hsuma : ¬iprv.vector.length < (iprv.allocatedLength + 4).toNat := by
    have hmod := UInt16.toNat_add iprv.allocatedLength 4
    have hlt := iprv.allocatedLength.toNat_lt
    have hcuatro : (4 : UInt16).toNat = 4 := rfl
    omega
  rw [registryAdd]
  simp only [if_pos hlleno, if_neg hsuma]

/-- What an event of an address leaves of the registry: only its vector changes, where no other
prefix gets an entry and no entry with clients goes. -/
structure Registro.Cambia (s : Registro) (canon : IrcInAddr) (s' : Registro) : Prop where
  otras : ∀ h, h ≠ calculateHash canon → s'.hashtable h = s.hashtable h
  claves : ∀ e' ∈ (s'.vector canon).vector, e'.clave ≠ prefijo canon →
    ∃ e ∈ (s.vector canon).vector, e.clave = e'.clave
  quedan : ∀ e ∈ (s.vector canon).vector, e.connected ≠ 0 →
    ∃ e' ∈ (s'.vector canon).vector, e'.clave = e.clave

/-- The counts after a change of one vector. -/
theorem Registro.Cuenta.pon (hs : s.Cuenta regs) {regs' : List IrcInAddr} {canon : IrcInAddr}
    {iprv : IPregistryVector}
    (htally : Tally IPregistry.clave (fun e ↦ e.connected.toNat)
      (enVector regs' (calculateHash canon)) iprv.vector)
    (hlen : iprv.vector.length ≤ iprv.allocatedLength.toNat)
    (hotras : ∀ h, h ≠ calculateHash canon → enVector regs' h = enVector regs h) :
    (s.pon canon iprv).Cuenta regs' := by
  intro h
  by_cases hh : h = calculateHash canon
  · subst hh
    rw [Registro.vector_pon_self]
    exact ⟨htally, hlen⟩
  · rw [Registro.vector_pon_of_ne s iprv hh, hotras h hh]
    exact hs h

/-- A new client is counted. -/
theorem conecta_eq_some {a : IrcInAddr} (hs : s.Cuenta regs) (hregs : regs.length < 65535)
    (hcabe : registryFind (s.vector (canonicalize a)) (canonicalize a) = none →
      (s.vector (canonicalize a)).Cabe) {nueva : IPregistry} (hip : nueva.ip = canonicalize a)
    (huno : nueva.connected = 1) {f : IPregistry → IPregistry}
    (hf : ∀ e, (f e).ip = e.ip ∧ (f e).connected = e.connected + 1) :
    ∃ s', conecta (canonicalize a) nueva f s = some s' ∧ s'.Cuenta (a :: regs) ∧
      s.Cambia (canonicalize a) s' := by
  obtain ⟨htally, hlen⟩ := hs (calculateHash (canonicalize a))
  have hotras (h : UInt16) (hh : h ≠ calculateHash (canonicalize a)) :
      enVector (a :: regs) h = enVector regs h := enVector_cons_of_ne hh regs
  unfold conecta
  cases hfind : registryFind (s.vector (canonicalize a)) (canonicalize a) with
  | none =>
      obtain ⟨allocatedLength, hadd, hmenor⟩ := registryAdd_eq_some hlen (hcabe hfind) nueva
      rw [registryFind_eq_none] at hfind
      have hclave : nueva.clave = prefijo (canonicalize a) := by rw [IPregistry.clave, hip]
      have hcero : enVector regs (calculateHash (canonicalize a)) (prefijo (canonicalize a)) = 0 := by
        by_contra hne
        obtain ⟨e, he, hclave⟩ := htally.complete _ hne
        exact hfind e he hclave
      have htally' := htally.append (e := nueva) fun e he ↦ hclave ▸ hfind e he
      have hcuenta : nueva.connected.toNat = 0 + 1 := by
        rw [huno]
        rfl
      rw [hclave, hcuenta, ← hcero, ← enVector_cons] at htally'
      refine ⟨_, congrArg (Option.map _) hadd, hs.pon htally' ?_ hotras, ?_, ?_, ?_⟩
      · rw [List.length_append]
        exact hmenor
      · exact fun h hh ↦ Registro.vector_pon_of_ne s _ hh
      · intro e he hne
        rw [Registro.vector, Registro.vector_pon_self] at he
        rcases List.mem_append.mp he with he | he
        · exact ⟨e, he, rfl⟩
        · exact absurd (List.mem_singleton.mp he ▸ hclave) hne
      · intro e he _
        rw [Registro.vector, Registro.vector_pon_self]
        exact ⟨e, List.mem_append_left _ he, rfl⟩
  | some i =>
      obtain ⟨front, back, e, hvector, rfl, hclave⟩ := registryFind_some hfind
      obtain ⟨hfip, hfconnected⟩ := hf e
      have hfclave : (f e).clave = e.clave := by rw [IPregistry.clave, hfip, IPregistry.clave]
      have hmem : e ∈ (s.vector (canonicalize a)).vector := by simp [hvector]
      have hcuenta := htally.count_eq e hmem
      rw [hclave] at hcuenta
      have hmas : (f e).connected.toNat
          = enVector regs (calculateHash (canonicalize a)) (prefijo (canonicalize a)) + 1 := by
        have hle := enVector_le regs (calculateHash (canonicalize a)) (prefijo (canonicalize a))
        have hmod := UInt16.toNat_add e.connected 1
        have huno : (1 : UInt16).toNat = 1 := rfl
        rw [hfconnected]
        omega
      have hvector' : (s.hashtable (calculateHash (canonicalize a))).vector = front ++ e :: back :=
        hvector
      have htally' := (hvector' ▸ htally).replace hfclave
      rw [hclave, hmas, ← enVector_cons] at htally'
      have hcambia : ((s.vector (canonicalize a)).cambia front.length f).vector
          = front ++ f e :: back := by
        rw [IPregistryVector.cambia, hvector, modify_length]
      refine ⟨_, rfl, hs.pon (hcambia ▸ htally') ?_ hotras, ?_, ?_, ?_⟩
      · rw [hcambia]
        have hlen' : (front ++ e :: back).length
            ≤ (s.hashtable (calculateHash (canonicalize a))).allocatedLength.toNat := hvector' ▸ hlen
        show (front ++ f e :: back).length
          ≤ (s.hashtable (calculateHash (canonicalize a))).allocatedLength.toNat
        simpa using hlen'
      · exact fun h hh ↦ Registro.vector_pon_of_ne s _ hh
      · intro e' he hne
        rw [Registro.vector, Registro.vector_pon_self, hcambia] at he
        rcases List.mem_cons.mp (List.perm_middle.mem_iff.mp he) with rfl | he
        · exact absurd (hfclave.trans hclave) hne
        · refine ⟨e', ?_, rfl⟩
          rw [hvector]
          exact List.perm_middle.mem_iff.mpr (List.mem_cons_of_mem _ he)
      · intro e' he _
        rw [Registro.vector, Registro.vector_pon_self, hcambia]
        rw [hvector] at he
        rcases List.mem_cons.mp (List.perm_middle.mem_iff.mp he) with rfl | he
        · exact ⟨f e', by simp, hfclave⟩
        · exact ⟨e', List.perm_middle.mem_iff.mpr (List.mem_cons_of_mem _ he), rfl⟩

/-! ## A client leaves -/

theorem envejece_cuenta (ip : IrcInAddr) (now : Nat) (e : IPregistry) :
    (envejece ip now e).clave = e.clave ∧ (envejece ip now e).connected = e.connected := by
  unfold envejece IPregistry.olvidaTargets
  split
  · exact ⟨rfl, rfl⟩
  · split <;> exact ⟨rfl, rfl⟩

theorem desconecta_cuenta (e : IPregistry) (cptr : Cliente) (now : Nat) :
    ((e.desconecta cptr now).ip = e.ip ∨ (e.desconecta cptr now).ip = canonicalize cptr.ip) ∧
      (e.desconecta cptr now).connected = e.connected - 1 := by
  unfold IPregistry.desconecta
  dsimp only
  split
  · refine ⟨.inr rfl, ?_⟩
    dsimp only
    split
    · split <;> rfl
    · rfl
  · split
    · split <;> exact ⟨.inl rfl, rfl⟩
    · exact ⟨.inl rfl, rfl⟩

/-- The entries that the scan leaves count the same clients. -/
theorem recorre_tally {n : UInt16 × UInt16 × UInt16 × UInt16 → Nat} {es : List IPregistry}
    (h : Tally IPregistry.clave (fun e ↦ e.connected.toNat) n es) (ip : IrcInAddr) (now : Nat) :
    Tally IPregistry.clave (fun e ↦ e.connected.toNat) n (recorre ip now es.length 0 es).1 := by
  refine Tally.perm ?_ (recorre_perm ip now 0 (Nat.le_refl _))
  refine (h.filter fun e _ he ↦ ?_).map (fun e _ ↦ (envejece_cuenta ip now e).1) fun e _ ↦ ?_
  · simp only [queda, IPregistry.expirada, Bool.or_eq_false_iff, Bool.not_eq_false',
      decide_eq_true_eq] at he
    rw [he.2.1]
    rfl
  · rw [(envejece_cuenta ip now e).2]

theorem mem_recorre {ip : IrcInAddr} {now : Nat} {es : List IPregistry} {e' : IPregistry} :
    e' ∈ (recorre ip now es.length 0 es).1 ↔
      ∃ e ∈ es, queda ip now e = true ∧ envejece ip now e = e' := by
  rw [(recorre_perm ip now 0 (Nat.le_refl _)).mem_iff, List.mem_map]
  simp only [List.mem_filter, and_assoc]

/-- A vector never has more entries than it has room for. -/
theorem length_findWithExpire {iprv : IPregistryVector}
    (h : iprv.vector.length ≤ iprv.allocatedLength.toNat) (ip : IrcInAddr) (now clientes : Nat)
    (m : Media) :
    (recorre ip now iprv.vector.length 0 iprv.vector).1.length
      ≤ (findWithExpire iprv ip now clientes m).1.allocatedLength.toNat := by
  have hlen : (recorre ip now iprv.vector.length 0 iprv.vector).1.length ≤ iprv.vector.length := by
    rw [(recorre_perm ip now 0 (Nat.le_refl _)).length_eq, List.length_map]
    exact List.length_filter_le ..
  unfold findWithExpire
  dsimp only
  split
  · have hlt := iprv.allocatedLength.toNat_lt
    have hexacta : ((recorre ip now iprv.vector.length 0 iprv.vector).1.length.toUInt16).toNat
        = (recorre ip now iprv.vector.length 0 iprv.vector).1.length :=
      Nat.mod_eq_of_lt (by omega)
    omega
  · omega

/-- A client that leaves is no longer counted. -/
theorem disconnect_eq_some {cptr : Cliente} (hs : s.Cuenta regs) (hmem : cptr.ip ∈ regs)
    (now clientes : Nat) :
    ∃ s', disconnect cptr now clientes s = some s' ∧ s'.Cuenta (regs.erase cptr.ip) ∧
      s.Cambia (canonicalize cptr.ip) s' := by
  obtain ⟨htally, hlen⟩ := hs (calculateHash (canonicalize cptr.ip))
  have hotras (h : UInt16) (hh : h ≠ calculateHash (canonicalize cptr.ip)) :
      enVector (regs.erase cptr.ip) h = enVector regs h := enVector_erase_of_ne hh regs
  have hpos : enVector regs (calculateHash (canonicalize cptr.ip)) (prefijo (canonicalize cptr.ip))
      ≠ 0 := by
    have hcount : 0 < enVector regs (calculateHash (canonicalize cptr.ip))
        (prefijo (canonicalize cptr.ip)) := List.countP_pos_iff.mpr ⟨cptr.ip, hmem, by simp⟩
    omega
  -- the scan finds the entry of the client
  have hesta : ∃ e ∈ (s.vector (canonicalize cptr.ip)).vector,
      e.es (canonicalize cptr.ip) = true := by
    obtain ⟨e, he, hclave⟩ := htally.complete _ hpos
    exact ⟨e, he, (IPregistry.es_iff _ _).mpr hclave⟩
  obtain ⟨front, back, e, hvector, hindice, hes⟩ := recorre_some now 0 (Nat.le_refl _) hesta
  have hclave := (IPregistry.es_iff _ _).mp hes
  have hqueda := recorre_tally htally (canonicalize cptr.ip) now
  have hvector' : (recorre (canonicalize cptr.ip) now
      (s.hashtable (calculateHash (canonicalize cptr.ip))).vector.length 0
      (s.hashtable (calculateHash (canonicalize cptr.ip))).vector).1 = front ++ e :: back := hvector
  rw [hvector'] at hqueda
  -- and the entry is changed in its place
  obtain ⟨hip, hconnected⟩ := desconecta_cuenta e cptr now
  have hclave' : (e.desconecta cptr now).clave = e.clave := by
    rcases hip with hip | hip
    · rw [IPregistry.clave, hip, IPregistry.clave]
    · rw [hclave, IPregistry.clave, hip]
  have hmenos : (e.desconecta cptr now).connected.toNat = enVector regs
      (calculateHash (canonicalize cptr.ip)) (prefijo (canonicalize cptr.ip)) - 1 := by
    have hcuenta := hqueda.count_eq e (by simp)
    rw [hclave] at hcuenta
    have hmod := UInt16.toNat_sub e.connected 1
    have huno : (1 : UInt16).toNat = 1 := rfl
    have hlt := e.connected.toNat_lt
    rw [hconnected]
    omega
  have htally' := hqueda.replace hclave'
  rw [hclave, hmenos, ← enVector_erase hmem] at htally'
  have hlen' := length_findWithExpire hlen (canonicalize cptr.ip) now clientes s.media
  rw [hvector'] at hlen'
  have hretval : (findWithExpire (s.vector (canonicalize cptr.ip)) (canonicalize cptr.ip) now
      clientes s.media).2.1 = some front.length := hindice.trans (by rw [Nat.zero_add])
  have hcambia : ((findWithExpire (s.vector (canonicalize cptr.ip)) (canonicalize cptr.ip) now
      clientes s.media).1.cambia front.length (·.desconecta cptr now)).vector
      = front ++ e.desconecta cptr now :: back :=
    (congrArg (List.modify · front.length _) hvector).trans (modify_length front back e _)
  have hdisconnect : disconnect cptr now clientes s = some
      { s.pon (canonicalize cptr.ip) ((findWithExpire (s.vector (canonicalize cptr.ip))
          (canonicalize cptr.ip) now clientes s.media).1.cambia front.length
            (·.desconecta cptr now)) with
        media := (findWithExpire (s.vector (canonicalize cptr.ip)) (canonicalize cptr.ip) now
          clientes s.media).2.2 } := by
    simp only [disconnect, hretval, Option.bind_eq_bind, Option.bind_some]
  have hmem_iff {e' : IPregistry} (d : IPregistry) :
      e' ∈ front ++ d :: back ↔ e' = d ∨ e' ∈ front ++ back := by
    rw [List.perm_middle.mem_iff, List.mem_cons]
  refine ⟨_, hdisconnect, hs.pon (hcambia ▸ htally') ?_ hotras, ?_, ?_, ?_⟩
  · rw [hcambia]
    have hlargo : (front ++ e.desconecta cptr now :: back).length = (front ++ e :: back).length := by
      simp
    rw [hlargo]
    exact hlen'
  · exact fun h hh ↦ Registro.vector_pon_of_ne s _ hh
  · intro e' he hne
    have he' : e' ∈ front ++ e.desconecta cptr now :: back := by
      rw [← hcambia]
      simpa only [Registro.vector, Registro.vector_pon_self] using he
    rcases (hmem_iff _).mp he' with rfl | he'
    · exact absurd (hclave'.trans hclave) hne
    · have hrecorre := hvector.symm ▸ (hmem_iff e).mpr (.inr he')
      obtain ⟨d, hd, -, rfl⟩ := mem_recorre.mp hrecorre
      exact ⟨d, hd, (envejece_cuenta _ now d).1.symm⟩
  · intro d hd hconectada
    have hesta : ∃ d' ∈ front ++ e.desconecta cptr now :: back, d'.clave = d.clave := by
      by_cases hprefijo : d.clave = prefijo (canonicalize cptr.ip)
      · exact ⟨e.desconecta cptr now, by simp, hclave'.trans (hclave.trans hprefijo.symm)⟩
      · have hviva : queda (canonicalize cptr.ip) now d = true := by
          simp [queda, IPregistry.expirada, hconectada]
        have hrecorre := hvector ▸ mem_recorre.mpr ⟨d, hd, hviva, rfl⟩
        have hclave_d := (envejece_cuenta (canonicalize cptr.ip) now d).1
        rcases (hmem_iff e).mp hrecorre with rfl | hrecorre
        · exact absurd (hclave_d.symm.trans hclave) hprefijo
        · exact ⟨_, (hmem_iff _).mpr (.inr hrecorre), hclave_d⟩
    obtain ⟨d', hd', hclave_d⟩ := hesta
    refine ⟨d', ?_, hclave_d⟩
    rw [← hcambia] at hd'
    simpa only [Registro.vector, Registro.vector_pon_self] using hd'

end Ircd.IPcheck
