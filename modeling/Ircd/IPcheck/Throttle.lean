import Ircd.IPcheck.Registry
import Ircd.Lib.Run

/-!
# Connect attempts

The counter of an entry that connects are throttled by. `IPcheck_connect_fail` takes back the count
of a local connect that failed. The main result, `intentos_cabales`, says in which runs it does: the
counter does not wrap, and a connect with its failure leaves it no higher than the run without the
two would, as long as the counter still counts the connects whose failure is to come.
-/

namespace Ircd.IPcheck

/-! ## One entry -/

/-- `IPcheck_connect_fail`. -/
def connectFail (cptr : Cliente) (s : Registro) : Option Registro := do
  let canon := canonicalize cptr.ip
  let hash := s.vector canon
  let i ← registryFind hash canon
  some (s.pon canon (hash.cambia i (·.fallo)))

/-- The entry after a run. -/
def tras (canon : IrcInAddr) (hs : List Hecho) : Option IPregistry :=
  Run.final (Hecho.aplica canon) none hs

/-- `connect_attempts`. -/
def intentos (e : Option IPregistry) : Nat :=
  match e with
  | none => 0
  | some e => e.connectAttempts.val

/-! ## What is claimed of a run -/

/-- A failure takes the counter below zero, or a connect takes it over its greatest value. -/
def Hecho.DaLaVuelta (canon : IrcInAddr) (h : Hecho) (e : Option IPregistry) : Prop :=
  match h with
  | .connectFail _ => intentos e = 0 ∧ intentos (h.aplica canon e) = 15
  | .localConnect .. | .remoteConnect _ false => intentos e = 15 ∧ intentos (h.aplica canon e) = 0
  | _ => False

/-- The counter never wraps. -/
def SinVuelta (canon : IrcInAddr) (hs : List Hecho) : Prop :=
  Run.EveryStep (Hecho.aplica canon) (fun h e ↦ ¬ h.DaLaVuelta canon e) none hs

/-- A local connect and its failure leave the counter no higher than the run without the two. -/
def SinCastigo (canon : IrcInAddr) (hs : List Hecho) : Prop :=
  ∀ pre id now clones mid post,
    hs = pre ++ .localConnect id now clones true :: (mid ++ .connectFail id :: post) →
      .connectFail id ∉ mid →
        intentos (tras canon (pre ++ .localConnect id now clones true :: (mid ++ [.connectFail id]))) ≤
          intentos (tras canon (pre ++ mid))

/-! ## The connects whose failure is to come -/

/-- The entry, and the connects whose failure is to come, each with the entry as it would be without
that connect. -/
structure Espera where
  entrada : Option IPregistry
  pendientes : List (Nat × Option IPregistry)

/-- Nothing has happened. -/
def Espera.inicial : Espera :=
  ⟨none, []⟩

/-- An event, also in what would be without a connect. -/
def Espera.paso (canon : IrcInAddr) (h : Hecho) (s : Espera) : Espera where
  entrada := h.aplica canon s.entrada
  pendientes :=
    match h with
    | .localConnect id _ _ true =>
        (id, s.entrada) :: s.pendientes.map fun p ↦ (p.1, h.aplica canon p.2)
    | .connectFail id =>
        (s.pendientes.filter fun p ↦ p.1 ≠ id).map fun p ↦ (p.1, h.aplica canon p.2)
    | _ => s.pendientes.map fun p ↦ (p.1, h.aplica canon p.2)

/-- A failure is that of a connect, and each connect has its number. -/
def Hecho.Valido (h : Hecho) (s : Espera) : Prop :=
  match h with
  | .localConnect id _ _ true => id ∉ s.pendientes.map Prod.fst
  | .connectFail id => id ∈ s.pendientes.map Prod.fst
  | _ => True

/-- The event sets the counter to zero. -/
def Hecho.reinicia (h : Hecho) (e : Option IPregistry) : Bool :=
  match h, e with
  | .localConnect _ now clones _, some e =>
      e.connected + 1 ≠ 0 ∧ (e.connectedSince now > IPCHECK_CLONE_PERIOD ∨ clones)
  | .remoteConnect now _, some e =>
      e.connected + 1 ≠ 0 ∧ e.connectedSince now > IPCHECK_CLONE_PERIOD
  | .disconnect _ now, some e =>
      e.connected - 1 = 0 ∧ e.connectedSince now > IPCHECK_CLONE_LIMIT * IPCHECK_CLONE_PERIOD
  | _, _ => false

/-- The event is a connect that the counter counts. -/
def Hecho.suma (h : Hecho) (e : Option IPregistry) : Bool :=
  match h, e with
  | .localConnect .., none => true
  | .localConnect .., some e => e.connected + 1 ≠ 0
  | .remoteConnect _ isBurst, none => isBurst
  | .remoteConnect _ isBurst, some e => !isBurst ∧ e.connected + 1 ≠ 0
  | _, _ => false

/-- The event is a connect that is going to fail. -/
def Hecho.fracasa (h : Hecho) : Bool :=
  match h with
  | .localConnect _ _ _ falla => falla
  | _ => false

/-- While failures are to come, the counter is not set to zero, neither in the run nor in the run
without one of their connects, and what it counts it would also count without that connect. A connect
that is going to fail is counted, and is not the sixteenth of those that wait. -/
structure Hecho.Limpio (h : Hecho) (s : Espera) : Prop where
  reinicia : s.pendientes ≠ [] → h.reinicia s.entrada = false
  sombra : ∀ p ∈ s.pendientes, h.reinicia p.2 = false ∧ (h.suma s.entrada → h.suma p.2)
  propio : h.fracasa → h.suma s.entrada ∧ s.pendientes.length < 15

instance (h : Hecho) (s : Espera) : Decidable (h.Limpio s) :=
  decidable_of_iff
    ((s.pendientes ≠ [] → h.reinicia s.entrada = false) ∧
      (∀ p ∈ s.pendientes, h.reinicia p.2 = false ∧ (h.suma s.entrada → h.suma p.2)) ∧
      (h.fracasa → h.suma s.entrada ∧ s.pendientes.length < 15))
    ⟨fun h ↦ ⟨h.1, h.2.1, h.2.2⟩, fun h ↦ ⟨h.reinicia, h.sombra, h.propio⟩⟩

/-! ## One event -/

/-- The counter after another attempt. -/
theorem otroIntento_val (e : IPregistry) :
    e.otroIntento.connectAttempts.val = min 15 (e.connectAttempts.val + 1) := by
  have hfin : ∀ a : Fin 16, (if a + 1 = 0 then a else a + 1).val = min 15 (a.val + 1) := by decide
  rw [← hfin e.connectAttempts, IPregistry.otroIntento]
  split <;> rfl

/-- A local connect to an entry. -/
theorem reconecta_val (e : IPregistry) (now : Nat) (clones : Bool) :
    (e.reconecta now clones).connectAttempts.val =
      if e.connected + 1 = 0 then e.connectAttempts.val
      else min 15 ((if e.connectedSince now > IPCHECK_CLONE_PERIOD ∨ clones then 0
        else e.connectAttempts.val) + 1) := by
  unfold IPregistry.reconecta
  by_cases hcero : e.connected + 1 = 0
  · simp only [hcero, if_true]
  · simp only [hcero, if_false, otroIntento_val]
    congr 2
    by_cases hreinicia : e.connectedSince now > IPCHECK_CLONE_PERIOD ∨ clones = true
    · have hmismo : ({ e with connected := e.connected + 1 } : IPregistry).connectedSince now >
          IPCHECK_CLONE_PERIOD ∨ clones = true := hreinicia
      rw [if_pos hmismo, if_pos hreinicia]
      rfl
    · have hmismo : ¬ (({ e with connected := e.connected + 1 } : IPregistry).connectedSince now >
          IPCHECK_CLONE_PERIOD ∨ clones = true) := hreinicia
      rw [if_neg hmismo, if_neg hreinicia]
      rfl

/-- A remote connect to an entry. -/
theorem reconectaRemoto_val (e : IPregistry) (now : Nat) (isBurst : Bool) :
    (e.reconectaRemoto now isBurst).connectAttempts.val =
      if e.connected + 1 = 0 then e.connectAttempts.val
      else
        let a := if e.connectedSince now > IPCHECK_CLONE_PERIOD then 0 else e.connectAttempts.val
        if isBurst then a else min 15 (a + 1) := by
  unfold IPregistry.reconectaRemoto
  by_cases hcero : e.connected + 1 = 0
  · simp only [hcero, if_true]
  · have hresta : ∀ x : IPregistry, (x.otroIntento.resetConnectTime now).connectAttempts =
        x.otroIntento.connectAttempts := fun _ ↦ rfl
    have hmismo : ({ e with connected := e.connected + 1 } : IPregistry).connectedSince now =
        e.connectedSince now := rfl
    simp only [hcero, if_false, hmismo]
    cases isBurst <;> by_cases hreinicia : e.connectedSince now > IPCHECK_CLONE_PERIOD <;>
      simp [hreinicia, hresta, otroIntento_val]

/-- A disconnect. -/
theorem desconecta_val (e : IPregistry) (cptr : Cliente) (now : Nat) :
    (e.desconecta cptr now).connectAttempts.val =
      if e.connected - 1 = 0 ∧
        e.connectedSince now > IPCHECK_CLONE_LIMIT * IPCHECK_CLONE_PERIOD then 0
      else e.connectAttempts.val := by
  have hmismo : ({ e with connected := e.connected - 1 } : IPregistry).connectedSince now =
      e.connectedSince now := rfl
  unfold IPregistry.desconecta
  simp only [hmismo]
  by_cases hcero : e.connected - 1 = 0 <;>
    by_cases hreinicia : e.connectedSince now > IPCHECK_CLONE_LIMIT * IPCHECK_CLONE_PERIOD <;>
      cases cptr.myConnect <;> simp [hcero, hreinicia, IPregistry.resetConnectTime]

/-- The counter after an event that is no failure. -/
theorem intentos_aplica (canon : IrcInAddr) {h : Hecho} (hh : ∀ id, h ≠ .connectFail id)
    (e : Option IPregistry) :
    intentos (h.aplica canon e) =
      min 15 ((if h.reinicia e then 0 else intentos e) + if h.suma e then 1 else 0) := by
  cases h with
  | connectFail id => exact absurd rfl (hh id)
  | localConnect id now clones falla =>
      cases e with
      | none => rfl
      | some e =>
          have hle := e.connectAttempts.is_le
          simp only [Hecho.aplica, intentos, reconecta_val, Hecho.reinicia, Hecho.suma]
          by_cases hcero : e.connected + 1 = 0 <;> simp [hcero]
          omega
  | remoteConnect now isBurst =>
      cases e with
      | none => cases isBurst <;> rfl
      | some e =>
          have hle := e.connectAttempts.is_le
          simp only [Hecho.aplica, intentos, reconectaRemoto_val, Hecho.reinicia, Hecho.suma]
          by_cases hcero : e.connected + 1 = 0 <;> cases isBurst <;> simp [hcero]
          · omega
          · omega
          · split <;> omega
  | disconnect cptr now =>
      cases e with
      | none => rfl
      | some e =>
          have hle := e.connectAttempts.is_le
          simp only [Hecho.aplica, Option.map_some, intentos, desconecta_val, Hecho.reinicia,
            Hecho.suma, decide_eq_true_eq]
          split <;> simp
          omega

/-- The counter after a failure. -/
theorem intentos_fallo (canon : IrcInAddr) (id : Nat) (e : Option IPregistry) :
    intentos (Hecho.aplica canon (.connectFail id) e) = intentos e - 1 ∨
      intentos e = 0 ∧ intentos (Hecho.aplica canon (.connectFail id) e) = 15 := by
  cases e with
  | none => exact .inl rfl
  | some e =>
      have hfin : ∀ a : Fin 16, (a - 1).val = a.val - 1 ∨ a.val = 0 ∧ (a - 1).val = 15 := by decide
      exact hfin e.connectAttempts

theorem intentos_le (e : Option IPregistry) : intentos e ≤ 15 := by
  cases e with
  | none => exact Nat.zero_le _
  | some e => exact e.connectAttempts.is_le

/-- An event never takes the counter over its greatest value, and a failure takes it below zero only
from zero. -/
theorem not_daLaVuelta {canon : IrcInAddr} {h : Hecho} {e : Option IPregistry}
    (he : ∀ id, h = .connectFail id → intentos e ≠ 0) : ¬ h.DaLaVuelta canon e := by
  intro hvuelta
  cases h with
  | connectFail id => exact he id rfl hvuelta.1
  | disconnect cptr now => exact hvuelta
  | localConnect id now clones falla =>
      obtain ⟨hquince, hcero⟩ := hvuelta
      rw [intentos_aplica canon (by simp)] at hcero
      cases e with
      | none => exact absurd hquince (by decide)
      | some e =>
          by_cases hdesborda : e.connected + 1 = 0 <;>
            simp [Hecho.reinicia, Hecho.suma, hdesborda, hquince] at hcero
  | remoteConnect now isBurst =>
      cases isBurst with
      | true => exact hvuelta
      | false =>
          obtain ⟨hquince, hcero⟩ := hvuelta
          rw [intentos_aplica canon (by simp)] at hcero
          cases e with
          | none => exact absurd hquince (by decide)
          | some e =>
              by_cases hdesborda : e.connected + 1 = 0 <;>
                simp [Hecho.reinicia, Hecho.suma, hdesborda, hquince] at hcero

/-! ## Runs -/

/-- The counter counts the connects whose failure is to come, and is at most one higher than without
any one of them. -/
structure Espera.Bien (s : Espera) : Prop where
  cuenta : s.pendientes.length ≤ intentos s.entrada
  sombra : ∀ p ∈ s.pendientes, intentos s.entrada ≤ intentos p.2 + 1
  distintos : (s.pendientes.map Prod.fst).Nodup

theorem bien_inicial : Espera.inicial.Bien :=
  ⟨Nat.le_refl _, by simp [Espera.inicial], List.nodup_nil⟩

/-- The counter after an event that does not set it to zero, with and without a connect whose
failure is to come. -/
theorem intentos_sombra (canon : IrcInAddr) {h : Hecho} (hh : ∀ id, h ≠ .connectFail id)
    {e e' : Option IPregistry} (hle : intentos e ≤ intentos e' + 1) (he : h.reinicia e = false)
    (he' : h.reinicia e' = false) (hsuma : h.suma e → h.suma e') :
    intentos (h.aplica canon e) ≤ intentos (h.aplica canon e') + 1 := by
  have hmax := intentos_le e
  rw [intentos_aplica canon hh, intentos_aplica canon hh, he, he']
  cases hs : h.suma e with
  | false =>
      simp only [Bool.false_eq_true, if_false]
      omega
  | true =>
      simp only [hsuma hs, Bool.false_eq_true, if_false, if_true]
      omega

theorem map_fst_aplica (canon : IrcInAddr) (h : Hecho) (l : List (Nat × Option IPregistry)) :
    (l.map fun p ↦ (p.1, h.aplica canon p.2)).map Prod.fst = l.map Prod.fst := by
  rw [List.map_map]
  rfl

/-- An event that is no failure, for the connects whose failure is to come before it. -/
theorem Espera.Bien.suceso {canon : IrcInAddr} {h : Hecho} {s : Espera} (hs : s.Bien)
    (hlimpio : h.Limpio s) (hh : ∀ id, h ≠ .connectFail id) :
    (Espera.mk (h.aplica canon s.entrada)
      (s.pendientes.map fun p ↦ (p.1, h.aplica canon p.2))).Bien := by
  refine ⟨?_, ?_, by rw [map_fst_aplica]; exact hs.distintos⟩
  · rw [List.length_map]
    by_cases hnil : s.pendientes = []
    · simp [hnil]
    · have hcuenta := hs.cuenta
      have hmax := intentos_le s.entrada
      rw [intentos_aplica canon hh, hlimpio.reinicia hnil]
      simp only [Bool.false_eq_true, if_false]
      omega
  · intro p hp
    obtain ⟨q, hq, rfl⟩ := List.mem_map.mp hp
    obtain ⟨hreinicia, hsuma⟩ := hlimpio.sombra q hq
    exact intentos_sombra canon hh (hs.sombra q hq)
      (hlimpio.reinicia (List.ne_nil_of_mem hq)) hreinicia hsuma

/-- A connect that is going to fail is one more that is counted. -/
theorem Espera.Bien.intento {canon : IrcInAddr} {s : Espera} {id now : Nat} {clones : Bool}
    (hs : s.Bien)
    (hvalido : (Hecho.localConnect id now clones true).Valido s)
    (hlimpio : (Hecho.localConnect id now clones true).Limpio s) :
    (s.paso canon (.localConnect id now clones true)).Bien := by
  obtain ⟨-, hsombra, hdistintos⟩ := @Espera.Bien.suceso canon _ _ hs hlimpio (by simp)
  obtain ⟨hsuma, hquince⟩ := hlimpio.propio rfl
  have hintentos := intentos_aplica canon (h := .localConnect id now clones true) (by simp)
    s.entrada
  rw [hsuma, if_pos rfl] at hintentos
  refine ⟨?_, List.forall_mem_cons.mpr ⟨?_, hsombra⟩, ?_⟩
  · have hcuenta := hs.cuenta
    simp only [Espera.paso, List.length_cons, List.length_map, hintentos]
    by_cases hnil : s.pendientes = []
    · simp [hnil]
    · rw [hlimpio.reinicia hnil]
      simp only [Bool.false_eq_true, if_false]
      omega
  · simp only [Espera.paso, hintentos]
    split <;> omega
  · exact List.nodup_cons.mpr ⟨by rw [map_fst_aplica]; exact hvalido, hdistintos⟩

/-- A failure takes back its own connect. -/
theorem Espera.Bien.descuenta {canon : IrcInAddr} {s : Espera} {id : Nat} (hs : s.Bien)
    (hvalido : (Hecho.connectFail id).Valido s) : (s.paso canon (.connectFail id)).Bien := by
  obtain ⟨p, hp, rfl⟩ := List.mem_map.mp hvalido
  have hcuenta := hs.cuenta
  have hmenos : (s.pendientes.filter fun q ↦ q.1 ≠ p.1).length < s.pendientes.length :=
    List.length_filter_lt_length_iff_exists.mpr ⟨p, hp, by simp⟩
  have hfallo : intentos (Hecho.aplica canon (.connectFail p.1) s.entrada) =
      intentos s.entrada - 1 := by
    rcases intentos_fallo canon p.1 s.entrada with h | ⟨hcero, -⟩
    · exact h
    · omega
  refine ⟨?_, ?_, ?_⟩
  · simp only [Espera.paso, List.length_map, hfallo]
    omega
  · intro q hq
    obtain ⟨r, hr, rfl⟩ := List.mem_map.mp hq
    have hsombra := hs.sombra r (List.mem_filter.mp hr).1
    have hmax := intentos_le s.entrada
    simp only [Espera.paso, hfallo]
    rcases intentos_fallo canon p.1 r.2 with h | ⟨hcero, h⟩ <;> omega
  · simp only [Espera.paso]
    rw [map_fst_aplica]
    exact hs.distintos.sublist (List.filter_sublist.map _)

/-- An event leaves the connects whose failure is to come counted. -/
theorem Espera.Bien.paso {canon : IrcInAddr} {h : Hecho} {s : Espera} (hs : s.Bien)
    (hvalido : h.Valido s) (hlimpio : h.Limpio s) : (s.paso canon h).Bien := by
  cases h with
  | disconnect cptr now => exact hs.suceso hlimpio (by simp)
  | remoteConnect now isBurst => exact hs.suceso hlimpio (by simp)
  | localConnect id now clones falla =>
      cases falla with
      | false => exact hs.suceso hlimpio (by simp)
      | true => exact hs.intento hvalido hlimpio
  | connectFail id => exact hs.descuenta hvalido

theorem Espera.final_entrada (canon : IrcInAddr) (s : Espera) (hs : List Hecho) :
    (Run.final (Espera.paso canon) s hs).entrada =
      Run.final (Hecho.aplica canon) s.entrada hs := by
  induction hs generalizing s with
  | nil => rfl
  | cons h hs ih => exact ih (s.paso canon h)

/-- A connect whose failure is not in a run is still waited for at its end, with the entry that there
would be without it. -/
theorem Espera.mem_final {canon : IrcInAddr} {s : Espera} {id : Nat} {e : Option IPregistry}
    (he : (id, e) ∈ s.pendientes) {hs : List Hecho} (hid : .connectFail id ∉ hs) :
    (id, Run.final (Hecho.aplica canon) e hs) ∈ (Run.final (Espera.paso canon) s hs).pendientes := by
  induction hs generalizing s e with
  | nil => exact he
  | cons h hs ih =>
      rw [List.mem_cons, not_or] at hid
      refine ih ?_ hid.2
      have hmem : (id, h.aplica canon e) ∈ s.pendientes.map fun p ↦ (p.1, h.aplica canon p.2) :=
        List.mem_map_of_mem he
      cases h with
      | disconnect cptr now => exact hmem
      | remoteConnect now isBurst => exact hmem
      | localConnect id' now clones falla =>
          cases falla with
          | false => exact hmem
          | true => exact List.mem_cons_of_mem _ hmem
      | connectFail id' =>
          have hne : id ≠ id' := fun h ↦ hid.1 (by rw [h])
          exact List.mem_map_of_mem (List.mem_filter.mpr ⟨he, by simpa using hne⟩)

/-- A property of the entry at each step. -/
theorem Espera.everyStep_entrada {canon : IrcInAddr} {Q : Hecho → Option IPregistry → Prop}
    {s : Espera} {hs : List Hecho}
    (h : Run.EveryStep (Espera.paso canon) (fun h s ↦ Q h s.entrada) s hs) :
    Run.EveryStep (Hecho.aplica canon) Q s.entrada hs := by
  induction hs generalizing s with
  | nil => trivial
  | cons x hs ih => exact ⟨h.1, ih h.2⟩

/-- A failure of a connect that the counter counts takes it to what it was, or below. -/
theorem Espera.Bien.fallo {s : Espera} (hs : s.Bien) {p : Nat × Option IPregistry}
    (hp : p ∈ s.pendientes) (canon : IrcInAddr) (id : Nat) :
    intentos (Hecho.aplica canon (.connectFail id) s.entrada) ≤ intentos p.2 := by
  have hcuenta := hs.cuenta
  have hpos : 0 < s.pendientes.length := List.length_pos_of_mem hp
  have hsombra := hs.sombra p hp
  rcases intentos_fallo canon id s.entrada with h | ⟨hcero, -⟩ <;> omega

/-- In a run in which the counter counts the connects whose failure is to come, it never wraps, and a
connect with its failure leaves it no higher than the run without the two. -/
theorem intentos_cabales (canon : IrcInAddr) (hs : List Hecho)
    (hvalido : Run.EveryStep (Espera.paso canon) Hecho.Valido .inicial hs)
    (hlimpio : Run.EveryStep (Espera.paso canon) Hecho.Limpio .inicial hs) :
    SinVuelta canon hs ∧ SinCastigo canon hs := by
  have hsteps := Run.everyStep_and hvalido hlimpio
  have hpaso : ∀ h s, Espera.Bien s → Hecho.Valido h s ∧ Hecho.Limpio h s →
      (Espera.paso canon h s).Bien := fun h s hs hg ↦ hs.paso hg.1 hg.2
  refine ⟨?_, ?_⟩
  · refine Espera.everyStep_entrada (s := .inicial)
      (Run.everyStep_of_invariant hpaso ?_ bien_inicial hsteps)
    rintro h s hs ⟨hvalido, -⟩
    refine not_daLaVuelta fun id hid ↦ ?_
    subst hid
    have hpos : 0 < (s.pendientes.map Prod.fst).length := List.length_pos_of_mem hvalido
    rw [List.length_map] at hpos
    exact Nat.ne_of_gt (Nat.lt_of_lt_of_le hpos hs.cuenta)
  · rintro pre id now clones mid post rfl hmid
    -- the state when the failure comes, where its connect is still waited for
    obtain ⟨s, hs⟩ : ∃ s, s = Run.final (Espera.paso canon) .inicial pre := ⟨_, rfl⟩
    obtain ⟨s', hs'⟩ : ∃ s', s' = Run.final (Espera.paso canon)
        (s.paso canon (.localConnect id now clones true)) mid := ⟨_, rfl⟩
    have hpre : s.entrada = tras canon pre := by rw [hs, Espera.final_entrada]; rfl
    have hbien : s'.Bien := by
      rw [List.append_cons, ← List.append_assoc, Run.everyStep_append] at hsteps
      have hfinal := Run.invariant_final hpaso bien_inicial hsteps.1
      rwa [Run.final_append, Run.final_append, ← hs, Run.final_cons, Run.final_nil, ← hs'] at hfinal
    have hmem : (id, tras canon (pre ++ mid)) ∈ s'.pendientes := by
      have hstart : (id, s.entrada) ∈
          (s.paso canon (.localConnect id now clones true)).pendientes := List.mem_cons_self ..
      rw [tras, Run.final_append, ← tras, ← hpre, hs']
      exact Espera.mem_final hstart hmid
    have hfin : tras canon
        (pre ++ .localConnect id now clones true :: (mid ++ [.connectFail id])) =
          Hecho.aplica canon (.connectFail id) s'.entrada := by
      rw [tras, Run.final_append, Run.final_cons, Run.final_append, Run.final_cons, Run.final_nil,
        hs', Espera.final_entrada, ← tras, ← hpre]
      rfl
    rw [hfin]
    exact hbien.fallo hmem canon id

/-- A connect that fails while another client connects. -/
theorem intentos_cabales_uno :
    let hs : List Hecho := [.localConnect 0 100 false false, .localConnect 1 105 false true,
      .localConnect 2 110 false false, .connectFail 1]
    SinVuelta ⟨#v[0, 0, 0, 0, 0, 0, 0, 1]⟩ hs ∧ SinCastigo ⟨#v[0, 0, 0, 0, 0, 0, 0, 1]⟩ hs :=
  intentos_cabales _ _ ⟨trivial, by simp [Hecho.Valido, Espera.paso, Espera.inicial], trivial,
      by simp [Hecho.Valido, Espera.paso], trivial⟩
    ⟨by decide, by decide, by decide, by decide, trivial⟩

/-- A client in a burst connects more than 20 seconds after a connect that fails: the failure takes
the counter from 0 to 15. -/
theorem not_intentos_cabales :
    let canon : IrcInAddr := ⟨#v[0, 0, 0, 0, 0, 0, 0, 1]⟩
    let hs : List Hecho := [.localConnect 0 100 false true, .remoteConnect 121 true, .connectFail 0]
    Run.EveryStep (Espera.paso canon) Hecho.Valido .inicial hs ∧
      ¬ SinVuelta canon hs ∧ ¬ SinCastigo canon hs := by
  refine ⟨⟨by simp [Hecho.Valido, Espera.inicial], trivial, ?_, trivial⟩, ?_, ?_⟩
  · simp [Hecho.Valido, Espera.paso]
  · rintro ⟨-, -, hvuelta, -⟩
    exact hvuelta ⟨by decide, by decide⟩
  · intro h
    have hcastigo := h [] 0 100 false [.remoteConnect 121 true] [] rfl (by simp)
    exact absurd hcastigo (by decide)

end Ircd.IPcheck
