import Ircd.IPcheck.Counts

/-!
# The numbers of clones

Clients connect and leave in any order, and the registry is to tell how many clients there are of
the prefix of an address. `clones_right_iff` says when it does: exactly in the runs in which each
client that connects finds no entry of its prefix in another vector, and room in its own. Addresses
in 6to4 form that differ only behind their prefix can be in different vectors
(`clones_counted_apart`).
-/

namespace Ircd.IPcheck

/-! ## Runs -/

/-- The registry and the addresses of the clients that are registered. `indefinido` says that memory
outside of a vector was used. -/
structure Sistema where
  registro : Registro
  registrados : List IrcInAddr
  indefinido : Bool

/-- The start. -/
def Sistema.inicial : Sistema :=
  ⟨.inicial, [], false⟩

/-- What happens to the registry, with the time and what else the functions read. -/
inductive Evento where
  | localConnect (cptr : Cliente) (now : Nat) (clones : Bool) (since : Int)
  | remoteConnect (cptr : Cliente) (now : Nat) (isBurst : Bool)
  | disconnect (cptr : Cliente) (now clientes : Nat)

/-- One step. -/
def paso : Evento → Sistema → Sistema
  | .localConnect cptr now clones since, s =>
      match localConnect cptr now clones since s.registro with
      | none => { s with indefinido := true }
      | some (r, _, _) => { s with registro := r, registrados := cptr.ip :: s.registrados }
  | .remoteConnect cptr now isBurst, s =>
      match remoteConnect cptr now isBurst s.registro with
      | none => { s with indefinido := true }
      | some (r, _) => { s with registro := r, registrados := cptr.ip :: s.registrados }
  | .disconnect cptr now clientes, s =>
      match disconnect cptr now clientes s.registro with
      | none => { s with indefinido := true }
      | some r => { s with registro := r, registrados := s.registrados.erase cptr.ip }

/-- The client that an event registers. -/
def Evento.nuevo : Evento → Option Cliente
  | .localConnect cptr _ _ _ => some cptr
  | .remoteConnect cptr _ _ => some cptr
  | .disconnect _ _ _ => none

/-- Only registered clients leave, and there are never more than 65535. -/
def Evento.Licito : Evento → Sistema → Prop
  | .disconnect cptr _ _, s => cptr.ip ∈ s.registrados
  | _, s => s.registrados.length < 65535

instance (e : Evento) (s : Sistema) : Decidable (e.Licito s) :=
  match e with
  | .localConnect .. => inferInstanceAs (Decidable (s.registrados.length < 65535))
  | .remoteConnect .. => inferInstanceAs (Decidable (s.registrados.length < 65535))
  | .disconnect cptr _ _ => inferInstanceAs (Decidable (cptr.ip ∈ s.registrados))

/-- Two addresses have the same prefix in their canonical form. -/
def MismoPrefijo (a b : IrcInAddr) : Prop :=
  prefijo (canonicalize a) = prefijo (canonicalize b)

instance (a b : IrcInAddr) : Decidable (MismoPrefijo a b) :=
  inferInstanceAs (Decidable (_ = _))

/-- The numbers are right: `IPcheck_nr` counts the registered clients of a prefix, and no entry with
clients has a second entry of its prefix. -/
structure Sistema.Correcto (s : Sistema) : Prop where
  definido : s.indefinido = false
  cuenta : ∀ a ∈ s.registrados,
    (nr a s.registro).toNat = s.registrados.countP fun b ↦ MismoPrefijo a b
  unica : ∀ (h h' : UInt16) (i j : Nat) (e e' : IPregistry),
    (s.registro.hashtable h).vector[i]? = some e →
      (s.registro.hashtable h').vector[j]? = some e' → e.connected ≠ 0 → e.clave = e'.clave →
        h = h' ∧ i = j

/-- A step leaves the numbers right, and no entry with clients expires. -/
def Evento.Correcto (e : Evento) (s : Sistema) : Prop :=
  (paso e s).Correcto ∧ ∀ h, ∀ x ∈ (s.registro.hashtable h).vector, x.connected ≠ 0 →
    ∃ y ∈ ((paso e s).registro.hashtable h).vector, y.clave = x.clave

/-- A client that connects finds no entry of its prefix in another vector, and if it needs a new
entry there is room for it. -/
def Evento.Regular (e : Evento) (s : Sistema) : Prop :=
  ∀ cptr, e.nuevo = some cptr →
    (∀ h, h ≠ calculateHash (canonicalize cptr.ip) → ∀ x ∈ (s.registro.hashtable h).vector,
      x.clave ≠ prefijo (canonicalize cptr.ip)) ∧
    (registryFind (s.registro.vector (canonicalize cptr.ip)) (canonicalize cptr.ip) = none →
      (s.registro.vector (canonicalize cptr.ip)).Cabe)

/-! ## One step -/

/-- No entry with clients has an entry of its prefix in another vector. -/
def Registro.Separa (s : Registro) : Prop :=
  ∀ h, ∀ e ∈ (s.hashtable h).vector, e.connected ≠ 0 → ∀ h', h' ≠ h →
    ∀ e' ∈ (s.hashtable h').vector, e'.clave ≠ e.clave

/-- The invariant of correct runs. -/
def Sistema.Bueno (s : Sistema) : Prop :=
  s.indefinido = false ∧ s.registro.Cuenta s.registrados ∧ s.registro.Separa

/-- The event of a new client, as one function of the registry. -/
theorem paso_nuevo {e : Evento} {cptr : Cliente} (he : e.nuevo = some cptr) (s : Sistema) :
    ∃ (nueva : IPregistry) (f : IPregistry → IPregistry),
      nueva.ip = canonicalize cptr.ip ∧ nueva.connected = 1 ∧
      (∀ x, (f x).ip = x.ip ∧ (f x).connected = x.connected + 1) ∧
      paso e s =
        match conecta (canonicalize cptr.ip) nueva f s.registro with
        | none => { s with indefinido := true }
        | some r => { s with registro := r, registrados := cptr.ip :: s.registrados } := by
  cases e with
  | localConnect cptr' now clones since =>
      obtain rfl := Option.some.inj he
      refine ⟨entradaNueva (canonicalize cptr'.ip) now 1, (·.reconecta now clones), rfl, rfl,
        fun x ↦ reconecta_cuenta x now clones, ?_⟩
      rw [← localConnect_fst cptr' now clones since s.registro, paso]
      rcases localConnect cptr' now clones since s.registro with _ | ⟨r, -, -⟩ <;> rfl
  | remoteConnect cptr' now isBurst =>
      obtain rfl := Option.some.inj he
      refine ⟨entradaNueva (canonicalize cptr'.ip) now (if isBurst then 1 else 0),
        (·.reconectaRemoto now isBurst), rfl, rfl,
        fun x ↦ reconectaRemoto_cuenta x now isBurst, ?_⟩
      rw [← remoteConnect_fst cptr' now isBurst s.registro, paso]
      rcases remoteConnect cptr' now isBurst s.registro with _ | ⟨r, -⟩ <;> rfl
  | disconnect => cases he

/-- An entry with clients stays in its vector. -/
theorem Registro.Cambia.queda {s s' : Registro} {canon : IrcInAddr} (h : s.Cambia canon s')
    {k : UInt16} {x : IPregistry} (hx : x ∈ (s.hashtable k).vector) (hconnected : x.connected ≠ 0) :
    ∃ y ∈ (s'.hashtable k).vector, y.clave = x.clave := by
  by_cases hk : k = calculateHash canon
  · subst hk
    exact h.quedan x hx hconnected
  · rw [h.otras k hk]
    exact ⟨x, hx, rfl⟩

/-- An entry of another prefix was in its vector before. -/
theorem Registro.Cambia.estaba {s s' : Registro} {canon : IrcInAddr} (h : s.Cambia canon s')
    {k : UInt16} {y : IPregistry} (hy : y ∈ (s'.hashtable k).vector)
    (hclave : k = calculateHash canon → y.clave ≠ prefijo canon) :
    ∃ x ∈ (s.hashtable k).vector, x.clave = y.clave := by
  by_cases hk : k = calculateHash canon
  · subst hk
    exact h.claves y hy (hclave rfl)
  · rw [h.otras k hk] at hy
    exact ⟨y, hy, rfl⟩

/-- The entry of a counted prefix has clients. -/
theorem Registro.Cuenta.esta {s : Registro} {regs : List IrcInAddr} (hs : s.Cuenta regs)
    {h : UInt16} {p : UInt16 × UInt16 × UInt16 × UInt16} (hp : enVector regs h p ≠ 0) :
    ∃ e ∈ (s.hashtable h).vector, e.clave = p ∧ e.connected ≠ 0 := by
  obtain ⟨e, he, rfl⟩ := (hs h).1.complete p hp
  refine ⟨e, he, rfl, fun hcero ↦ hp ?_⟩
  rw [← (hs h).1.count_eq e he, hcero]
  rfl

/-- The prefix of an entry with clients is counted. -/
theorem Registro.Cuenta.cuenta {s : Registro} {regs : List IrcInAddr} (hs : s.Cuenta regs)
    {h : UInt16} {e : IPregistry} (he : e ∈ (s.hashtable h).vector) (hconnected : e.connected ≠ 0) :
    enVector regs h e.clave ≠ 0 := by
  rw [← (hs h).1.count_eq e he]
  exact fun hcero ↦ hconnected (UInt16.toNat_inj.mp hcero)

/-- The registered clients of a prefix are counted. -/
theorem enVector_of_mem {a : IrcInAddr} {regs : List IrcInAddr} (ha : a ∈ regs) :
    enVector regs (calculateHash (canonicalize a)) (prefijo (canonicalize a)) ≠ 0 := by
  have hpos : 0 < enVector regs (calculateHash (canonicalize a)) (prefijo (canonicalize a)) :=
    List.countP_pos_iff.mpr ⟨a, ha, by simp⟩
  omega

/-- An event keeps the prefixes apart when its own prefix has no entry in another vector. -/
theorem Registro.Separa.cambia {s s' : Registro} {regs regs' : List IrcInAddr} {canon : IrcInAddr}
    (hs : s.Separa) (hcuenta : s.Cuenta regs) (hcuenta' : s'.Cuenta regs') (h : s.Cambia canon s')
    (hregs : ∀ k p, (k = calculateHash canon → p ≠ prefijo canon) →
      enVector regs' k p = enVector regs k p)
    (hno : ∀ k, k ≠ calculateHash canon → ∀ x ∈ (s.hashtable k).vector, x.clave ≠ prefijo canon) :
    s'.Separa := by
  intro k e he hconnected k' hk' e' he' hclave
  -- the entry of the prefix of the event is in the vector of the event
  have hpropia {k : UInt16} {x : IPregistry} (hx : x ∈ (s'.hashtable k).vector)
      (hclave : x.clave = prefijo canon) : k = calculateHash canon := by
    by_contra hk
    exact hno k hk x (h.otras k hk ▸ hx) hclave
  by_cases hprefijo : e.clave = prefijo canon
  · have hk := hpropia he hprefijo
    have hk'' := hpropia he' (hclave.trans hprefijo)
    exact hk' (hk''.trans hk.symm)
  · -- any other was counted before
    have hantes := hcuenta'.cuenta he hconnected
    rw [hregs k e.clave fun _ ↦ hprefijo] at hantes
    obtain ⟨x, hx, hxclave, hxconnected⟩ := hcuenta.esta hantes
    obtain ⟨y, hy, hyclave⟩ := h.estaba he' fun _ ↦ hclave ▸ hprefijo
    exact hs k x hx hxconnected k' hk' y hy (hyclave.trans (hclave.trans hxclave.symm))

/-- The counts change only for the prefix of the client. -/
theorem enVector_cons_otra {a : IrcInAddr} {regs : List IrcInAddr} (k : UInt16)
    (p : UInt16 × UInt16 × UInt16 × UInt16)
    (h : k = calculateHash (canonicalize a) → p ≠ prefijo (canonicalize a)) :
    enVector (a :: regs) k p = enVector regs k p := by
  by_cases hk : k = calculateHash (canonicalize a)
  · subst hk
    rw [enVector_cons, Function.update_of_ne (h rfl)]
  · rw [enVector_cons_of_ne hk]

theorem enVector_erase_otra {a : IrcInAddr} {regs : List IrcInAddr} (ha : a ∈ regs) (k : UInt16)
    (p : UInt16 × UInt16 × UInt16 × UInt16)
    (h : k = calculateHash (canonicalize a) → p ≠ prefijo (canonicalize a)) :
    enVector (regs.erase a) k p = enVector regs k p := by
  by_cases hk : k = calculateHash (canonicalize a)
  · subst hk
    rw [enVector_erase ha, Function.update_of_ne (h rfl)]
  · rw [enVector_erase_of_ne hk]

/-- The numbers are right in states with the invariant. -/
theorem Sistema.Bueno.correcto {s : Sistema} (hs : s.Bueno) : s.Correcto := by
  obtain ⟨hdefinido, hcuenta, hsepara⟩ := hs
  refine ⟨hdefinido, fun a ha ↦ ?_, fun h h' i j e e' he he' hconnected hclave ↦ ?_⟩
  · rw [hcuenta.nr_eq a, enVector]
    refine List.countP_congr fun b hb ↦ ?_
    simp only [decide_eq_true_eq]
    constructor
    · rintro ⟨-, hprefijo⟩
      exact hprefijo.symm
    · intro hprefijo
      refine ⟨?_, hprefijo.symm⟩
      -- both addresses have an entry, and these are in one vector
      obtain ⟨e, he, hclave, hconnected⟩ := hcuenta.esta (enVector_of_mem ha)
      obtain ⟨e', he', hclave', -⟩ := hcuenta.esta (enVector_of_mem hb)
      by_contra hne
      exact hsepara _ e he hconnected _ hne e' he' (hclave'.trans (hprefijo.symm.trans hclave.symm))
  · have hh : h = h' := by
      by_contra hne
      exact hsepara h e (List.mem_of_getElem? he) hconnected h' (Ne.symm hne) e'
        (List.mem_of_getElem? he') hclave.symm
    subst hh
    refine ⟨rfl, ?_⟩
    obtain ⟨hi, -⟩ := List.getElem?_eq_some_iff.mp he
    have hi' : i < ((s.registro.hashtable h).vector.map IPregistry.clave).length := by simpa using hi
    refine (List.getElem?_inj hi' (hcuenta h).1.nodup).mp ?_
    rw [List.getElem?_map, List.getElem?_map, he, he', Option.map_some, Option.map_some, hclave]

/-- A client that finds no entry elsewhere, and room, is counted. -/
theorem paso_bueno {e : Evento} {s : Sistema} (hs : s.Bueno) (hlicito : e.Licito s)
    (hregular : e.Regular s) : (paso e s).Bueno ∧ e.Correcto s := by
  obtain ⟨hdefinido, hcuenta, hsepara⟩ := hs
  cases hnuevo : e.nuevo with
  | some cptr =>
      obtain ⟨hno, hcabe⟩ := hregular cptr hnuevo
      have hmenos : s.registrados.length < 65535 := by
        cases e with
        | localConnect => exact hlicito
        | remoteConnect => exact hlicito
        | disconnect => cases hnuevo
      obtain ⟨nueva, f, hip, huno, hf, hpaso⟩ := paso_nuevo hnuevo s
      obtain ⟨s', hconecta, hcuenta', hcambia⟩ := conecta_eq_some hcuenta hmenos hcabe hip huno hf
      rw [hconecta] at hpaso
      have hbueno : (paso e s).Bueno := by
        rw [hpaso]
        exact ⟨hdefinido, hcuenta', hsepara.cambia hcuenta hcuenta' hcambia enVector_cons_otra hno⟩
      refine ⟨hbueno, hbueno.correcto, fun h x hx hconnected ↦ ?_⟩
      rw [hpaso]
      exact hcambia.queda hx hconnected
  | none =>
      cases e with
      | localConnect => cases hnuevo
      | remoteConnect => cases hnuevo
      | disconnect cptr now clientes =>
          have hmem : cptr.ip ∈ s.registrados := hlicito
          obtain ⟨s', hdisconnect, hcuenta', hcambia⟩ := disconnect_eq_some hcuenta hmem now clientes
          have hno : ∀ k, k ≠ calculateHash (canonicalize cptr.ip) →
              ∀ x ∈ (s.registro.hashtable k).vector, x.clave ≠ prefijo (canonicalize cptr.ip) := by
            obtain ⟨e, he, hclave, hconnected⟩ := hcuenta.esta (enVector_of_mem hmem)
            intro k hk x hx hx'
            exact hsepara _ e he hconnected k hk x hx (hx'.trans hclave.symm)
          have hbueno : (paso (.disconnect cptr now clientes) s).Bueno := by
            rw [paso, hdisconnect]
            exact ⟨hdefinido, hcuenta',
              hsepara.cambia hcuenta hcuenta' hcambia (enVector_erase_otra hmem) hno⟩
          refine ⟨hbueno, hbueno.correcto, fun h x hx hconnected ↦ ?_⟩
          rw [paso, hdisconnect]
          exact hcambia.queda hx hconnected

/-- A client whose step leaves the numbers right found no entry elsewhere, and room. -/
theorem regular_of_correcto {e : Evento} {s : Sistema} (hs : s.Bueno) (hlicito : e.Licito s)
    (hcorrecto : e.Correcto s) : e.Regular s := by
  obtain ⟨hdefinido, hcuenta, hsepara⟩ := hs
  intro cptr hnuevo
  have hmenos : s.registrados.length < 65535 := by
    cases e with
    | localConnect => exact hlicito
    | remoteConnect => exact hlicito
    | disconnect => cases hnuevo
  obtain ⟨nueva, f, hip, huno, hf, hpaso⟩ := paso_nuevo hnuevo s
  have hcabe : registryFind (s.registro.vector (canonicalize cptr.ip)) (canonicalize cptr.ip) = none →
      (s.registro.vector (canonicalize cptr.ip)).Cabe := by
    intro hfind
    by_contra hlleno
    have hnone : conecta (canonicalize cptr.ip) nueva f s.registro = none := by
      rw [conecta, hfind]
      exact congrArg (Option.map _) (registryAdd_eq_none hlleno nueva)
    have hfuera := hcorrecto.1.definido
    rw [hpaso, hnone] at hfuera
    cases hfuera
  refine ⟨fun k hk x hx hclave ↦ ?_, hcabe⟩
  obtain ⟨s', hconecta, hcuenta', hcambia⟩ := conecta_eq_some hcuenta hmenos hcabe hip huno hf
  obtain ⟨d, hd, hdclave, hdconnected⟩ := hcuenta'.esta (enVector_of_mem List.mem_cons_self)
  obtain ⟨i, hi⟩ := List.getElem?_of_mem hd
  obtain ⟨j, hj⟩ := List.getElem?_of_mem (hcambia.otras k hk ▸ hx)
  have hunica := hcorrecto.1.unica (calculateHash (canonicalize cptr.ip)) k i j d x
  rw [hpaso, hconecta] at hunica
  exact hk (hunica hi hj hdconnected (hdclave.trans hclave.symm)).1.symm

/-! ## Runs -/

theorem Sistema.inicial_bueno : Sistema.inicial.Bueno := by
  refine ⟨rfl, fun h ↦ ⟨Tally.nil, Nat.le_refl 0⟩, fun h e he ↦ ?_⟩
  simp [Sistema.inicial, Registro.inicial, IPregistryVector.vacio] at he

/-- The numbers are right along exactly the runs in which each client that connects finds no entry
of its prefix in another vector, and room in its own. -/
theorem clones_right_iff (l : List Evento)
    (hl : Run.EveryStep paso Evento.Licito Sistema.inicial l) :
    Run.EveryStep paso Evento.Correcto Sistema.inicial l ↔
      Run.EveryStep paso Evento.Regular Sistema.inicial l := by
  refine Run.everyStep_iff_of_everyStep (P := Sistema.Bueno) (fun e s hs hlicito hcorrecto ↦ ?_)
    (fun e s hs hlicito ↦ ?_) Sistema.inicial_bueno hl
  · exact (paso_bueno hs hlicito (regular_of_correcto hs hlicito hcorrecto)).1
  · exact ⟨regular_of_correcto hs hlicito, fun hregular ↦ (paso_bueno hs hlicito hregular).2⟩

/-- A client with the address 1.2.3.4 connects and leaves. -/
def visita : List Evento :=
  let cptr : Cliente := ⟨⟨#v[0, 0, 0, 0, 0, 0, 0x0201, 0x0403]⟩, false, [], 0, 0⟩
  [.remoteConnect cptr 1000 false, .disconnect cptr 1100 1]

/-- Its numbers are right. -/
theorem clones_right_visita :
    Run.EveryStep paso Evento.Correcto Sistema.inicial visita ↔
      Run.EveryStep paso Evento.Regular Sistema.inicial visita :=
  clones_right_iff visita ⟨by decide +kernel, by decide +kernel, trivial⟩

/-- Two clients of the 6to4 network 2002:102:304::/48, with different words behind the prefix. -/
def vecinos : List Evento :=
  [.remoteConnect ⟨⟨#v[0x0220, 0x0201, 0x0403, 1, 0, 0, 0, 0]⟩, false, [], 0, 0⟩ 1000 false,
    .remoteConnect ⟨⟨#v[0x0220, 0x0201, 0x0403, 2, 0, 0, 0, 0]⟩, false, [], 0, 0⟩ 1001 false]

/-- They are counted apart: both are registered, and `IPcheck_nr` returns 1 for each. -/
theorem clones_counted_apart :
    Run.EveryStep paso Evento.Licito Sistema.inicial vecinos ∧
      ¬Run.EveryStep paso Evento.Correcto Sistema.inicial vecinos := by
  refine ⟨⟨by decide +kernel, by decide +kernel, trivial⟩, fun h ↦ ?_⟩
  have hcuenta := h.2.1.1.cuenta ⟨#v[0x0220, 0x0201, 0x0403, 2, 0, 0, 0, 0]⟩ List.mem_cons_self
  have hdistinta : ¬(nr ⟨#v[0x0220, 0x0201, 0x0403, 2, 0, 0, 0, 0]⟩
      (Run.final paso Sistema.inicial vecinos).registro).toNat =
        (Run.final paso Sistema.inicial vecinos).registrados.countP fun b ↦
          MismoPrefijo ⟨#v[0x0220, 0x0201, 0x0403, 2, 0, 0, 0, 0]⟩ b := by decide +kernel
  exact hdistinta hcuenta

end Ircd.IPcheck
