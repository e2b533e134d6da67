import Ircd.Lib.Run
import Ircd.Ping.Uping

/-!
# The counts of `UPING`

`sendB` and `receiveB` count down from the number of pings of a request, and nothing in the code stops
them at zero: the timer goes on after the last ping, and the socket is read while pings are left to be
sent. `uping_correcto` says that a run is free of faults, without a counter that wraps, and with a
report that is right, if and only if no ping is sent and no packet is read beyond the number of pings.
-/

namespace Ircd.Ping

open Buffer CString
open User.Canonize (strcpy)

/-! ## Runs -/

/-- A request with what has happened to it: `estado` is `none` after a fault, and the counts are the
pings that `sendto` took and the packets of 19 bytes or more that were read. -/
structure Corrida where
  estado : Option Estado
  avisos : List Aviso
  enviados : Nat
  recibidos : Nat

/-- The pings that an event sends. -/
def Evento.envios : Evento → Nat
  | .timer _ none => 1
  | _ => 0

/-- The packets of 19 bytes or more that an event is. -/
def Evento.recepciones : Evento → Nat
  | .packet _ paquete _ => if 19 ≤ paquete.length then 1 else 0
  | _ => 0

/-- An event, as long as the request lives. -/
def paso (me : Me) (e : Evento) (s : Corrida) : Corrida :=
  match s.estado with
  | some (.vivo c) =>
      match atiende me e c with
      | some (estado, avisos) =>
          ⟨some estado, s.avisos ++ avisos, s.enviados + e.envios, s.recibidos + e.recepciones⟩
      | none => ⟨none, s.avisos, s.enviados + e.envios, s.recibidos + e.recepciones⟩
  | _ => s

/-- A request that `m_uping` has made. -/
def inicial (c : Client) : Corrida :=
  ⟨some (.vivo c), [], 0, 0⟩

/-- A report has the numbers of pings that were sent and of packets that were read. -/
def Informe (enviados recibidos : Nat) (avisos : List Aviso) : Prop :=
  ∀ (cabecera : CStr) (sent recvd : Int) (min avg max : Nat),
    ⟨cabecera, .stats sent recvd min avg max⟩ ∈ avisos → sent = enviados ∧ recvd = recibidos

/-- What is asked of an event: no fault, no counter that wraps, and no wrong report. -/
def Correcto (me : Me) (e : Evento) (s : Corrida) : Prop :=
  (paso me e s).estado ≠ none ∧
    (∀ c c', s.estado = some (.vivo c) → (paso me e s).estado = some (.vivo c') →
      c'.sendB ≤ c.sendB ∧ c'.receiveB ≤ c.receiveB) ∧
    Informe (paso me e s).enviados (paso me e s).recibidos (paso me e s).avisos

/-- No more than `n` pings are sent and no more than `n` packets are read while the request lives. -/
def Contado (n : Nat) (e : Evento) (s : Corrida) : Prop :=
  ∀ c, s.estado = some (.vivo c) → s.enviados + e.envios ≤ n ∧ s.recibidos + e.recepciones ≤ n

/-! ## The invariant -/

/-- A request of `n` pings after some sent and some received, where `buffer` has at most 21 characters
for each packet. -/
structure Cuadra (n enviados recibidos : Nat) (c : Client) : Prop where
  n_le : n ≤ 20
  hopcount : c.hopcount = n
  sendB : c.sendB + enviados = n
  receiveB : c.receiveB + recibidos = n
  buffer : ∃ texto resto, c.buffer = texto ++ nul :: resto ∧ nul ∉ texto ∧
    texto.length ≤ 21 * recibidos ∧ texto.length + resto.length + 1 = BUFSIZE

/-- What an event leaves. -/
def Cuadra' (n enviados recibidos : Nat) : Estado → List Aviso → Prop
  | .vivo c, avisos => Cuadra n enviados recibidos c ∧ c.acpt.isSome = true ∧
      ∀ e r, Informe e r avisos
  | .libre, avisos => Informe enviados recibidos avisos

variable {me : Me} {r : Reloj} {c : Client} {n enviados recibidos : Nat} {now : Int}

/-- A list of notices without a report. -/
theorem informe_nil : Informe enviados recibidos [] := by
  intro _ _ _ _ _ _ h
  cases h

theorem informe_cons {a : Aviso} {avisos : List Aviso}
    (ha : ∀ (sent recvd : Int) min avg max, a.texto = .stats sent recvd min avg max →
      sent = enviados ∧ recvd = recibidos) (h : Informe enviados recibidos avisos) :
    Informe enviados recibidos (a :: avisos) := by
  intro cabecera sent recvd min avg max hmem
  rcases List.mem_cons.mp hmem with rfl | hmem
  · exact ha _ _ _ _ _ rfl
  · exact h _ _ _ _ _ _ hmem

theorem informe_append {avisos fin : List Aviso} (h : Informe enviados recibidos avisos)
    (hfin : Informe enviados recibidos fin) : Informe enviados recibidos (avisos ++ fin) := by
  intro cabecera sent recvd min avg max hmem
  rcases List.mem_append.mp hmem with hmem | hmem
  · exact h _ _ _ _ _ _ hmem
  · exact hfin _ _ _ _ _ _ hmem

/-- The text in `buffer` can be read. -/
theorem Cuadra.cadena (h : Cuadra n enviados recibidos c) :
    ∃ texto resto, c.buffer = texto ++ nul :: resto ∧ Buffer.cadena c.buffer 0 = some texto ∧
      texto.length ≤ 21 * recibidos ∧ texto.length + resto.length + 1 = BUFSIZE := by
  obtain ⟨texto, resto, hbuffer, hnul, hle, hlen⟩ := h.buffer
  exact ⟨texto, resto, hbuffer, by rw [hbuffer, cadena_zero hnul], hle, hlen⟩

/-- `end_ping` reports what has been sent and received. -/
theorem endPing_informe (me : Me) (now : Int) (h : Cuadra n enviados recibidos c) :
    ∃ avisos, endPing me now c = some (.libre, avisos) ∧ Informe enviados recibidos avisos := by
  obtain ⟨texto, resto, -, hcadena, -⟩ := h.cadena
  have hn := h.n_le
  have hhop := h.hopcount
  have hsend := h.sendB
  have hreceive := h.receiveB
  unfold endPing
  cases c.acpt with
  | none => exact ⟨[], rfl, informe_nil⟩
  | some acpt =>
      by_cases hstart : c.firsttime ≠ 0
      · by_cases hany : c.receiveB ≠ c.hopcount
        · have hdiv : toUnsigned (2 * (c.hopcount - c.receiveB)) ≠ 0 := by
            rw [toUnsigned]
            omega
          have hsent : ((c.hopcount : Int) - c.sendB).bmod (2 ^ 32) = enviados := by
            rw [Int.bmod_eq_of_le (by omega) (by omega)]
            omega
          have hrecvd : ((c.hopcount : Int) - c.receiveB).bmod (2 ^ 32) = recibidos := by
            rw [Int.bmod_eq_of_le (by omega) (by omega)]
            omega
          simp only [if_pos hstart, if_pos hany, hcadena, divide, if_neg hdiv, Option.bind_eq_bind,
            Option.bind_some]
          refine ⟨_, rfl, informe_cons (fun _ _ _ _ _ h ↦ by cases h) (informe_cons ?_ informe_nil)⟩
          intro sent recvd min avg max htexto
          cases htexto
          exact ⟨hsent, hrecvd⟩
        · simp only [if_pos hstart, if_neg hany]
          exact ⟨_, rfl, informe_cons (fun _ _ _ _ _ h ↦ by cases h) informe_nil⟩
      · simp only [if_neg hstart]
        exact ⟨_, rfl, informe_cons (fun _ _ _ _ _ h ↦ by cases h) informe_nil⟩

/-! ## The events -/

/-- `--` on a counter that is not zero. -/
theorem baja_of_pos {x : Nat} (hpos : 0 < x) (hx : x < 2 ^ 16) : baja x = x - 1 := by
  rw [baja]
  omega

theorem baja_zero : baja 0 = 65535 := rfl

/-- The structure after `start_ping`. -/
theorem startPing_cuadra (h : Cuadra n enviados recibidos c) (hacpt : c.acpt.isSome = true) :
    ∃ estado avisos, startPing me r c = some (estado, avisos) ∧
      Cuadra' n enviados recibidos estado avisos := by
  obtain ⟨acpt, hacpt⟩ := Option.isSome_iff_exists.mp hacpt
  simp only [startPing, hacpt]
  refine ⟨_, _, rfl, ⟨h.n_le, h.hopcount, h.sendB, h.receiveB, h.buffer⟩, rfl, fun _ _ ↦ ?_⟩
  exact informe_cons (fun _ _ _ _ _ h ↦ by cases h) informe_nil

/-- `send_ping`, as long as pings are left. -/
theorem sendPing_cuadra {error : Option CStr} (h : Cuadra n enviados recibidos c)
    (hacpt : c.acpt.isSome = true)
    (hleft : enviados + Evento.envios (.timer r error) ≤ n) :
    ∃ estado avisos, sendPing me r error c = some (estado, avisos) ∧
      Cuadra' n (enviados + Evento.envios (.timer r error)) recibidos estado avisos := by
  obtain ⟨acpt, hsome⟩ := Option.isSome_iff_exists.mp hacpt
  have hn := h.n_le
  have hsend := h.sendB
  unfold sendPing
  cases error with
  | some e =>
      obtain ⟨fin, hfin, hinforme⟩ := endPing_informe me r.now
        (c := { c with confs := marcaHora r c.confs })
        ⟨hn, h.hopcount, hsend, h.receiveB, h.buffer⟩
      simp only [hfin, Option.bind_eq_bind, Option.bind_some]
      simp only [hsome]
      exact ⟨_, _, rfl, informe_cons (fun _ _ _ _ _ h ↦ by cases h) hinforme⟩
  | none =>
      have hleft' : enviados + 1 ≤ n := hleft
      have hbaja : baja c.sendB = c.sendB - 1 := baja_of_pos (by omega) (by omega)
      have hsend' : c.sendB - 1 + (enviados + 1) = n := by omega
      simp only [hbaja]
      by_cases hlast : c.sendB - 1 ≤ 0
      · by_cases hdone : c.receiveB ≤ 0
        · obtain ⟨fin, hfin, hinforme⟩ := endPing_informe me r.now
            (c := { c with confs := marcaHora r c.confs, sendB := c.sendB - 1, ping := false })
            ⟨hn, h.hopcount, hsend', h.receiveB, h.buffer⟩
          simp only [if_pos hlast, if_pos hdone]
          exact ⟨_, _, hfin, hinforme⟩
        · simp only [if_pos hlast, if_neg hdone]
          exact ⟨_, _, rfl, ⟨hn, h.hopcount, hsend', h.receiveB, h.buffer⟩, hacpt,
            fun _ _ ↦ informe_nil⟩
      · simp only [if_neg hlast]
        exact ⟨_, _, rfl, ⟨hn, h.hopcount, hsend', h.receiveB, h.buffer⟩, hacpt,
          fun _ _ ↦ informe_nil⟩

/-- The division of `read_ping`, as long as packets are left. -/
theorem espera_eq (h : Cuadra n enviados recibidos c) :
    ∃ since firsttime, espera r c = some { c with since := since, firsttime := firsttime } := by
  have hn := h.n_le
  have hhop := h.hopcount
  have hreceive := h.receiveB
  have hdiv : toUnsigned (100 * (c.hopcount - c.receiveB + 1)) ≠ 0 := by
    rw [toUnsigned]
    omega
  simp only [espera, divide, if_neg hdiv, Option.bind_eq_bind, Option.bind_some]
  exact ⟨_, _, rfl⟩

/-- A ping time is written behind the others. -/
theorem anota_cuadra {t : Nat} (ht : t < 2 ^ 64) (h : Cuadra n enviados recibidos c)
    (hleft : recibidos + 1 ≤ n) :
    ∃ buffer, anota t c = some { c with buffer := buffer } ∧
      ∃ texto resto, buffer = texto ++ nul :: resto ∧ nul ∉ texto ∧
        texto.length ≤ 21 * (recibidos + 1) ∧ texto.length + resto.length + 1 = BUFSIZE := by
  obtain ⟨texto, resto, hbuffer, hnul, hle, hlen⟩ := h.buffer
  have hn := h.n_le
  have hdigits : (decimal t).length ≤ 20 :=
    (Nat.length_toDigits_le_iff (by decide) (by decide)).mpr (Nat.lt_trans ht (by decide))
  have hbuf : c.buffer.length = BUFSIZE := by
    rw [hbuffer, List.length_append, List.length_cons]
    omega
  have hfits : texto.length + (' ' :: decimal t).length < c.buffer.length := by
    rw [hbuf, BUFSIZE, List.length_cons]
    omega
  have hcadena : cadena c.buffer 0 = some texto := by
    rw [hbuffer, cadena_zero hnul]
  refine ⟨texto ++ ((' ' :: decimal t) ++ nul :: c.buffer.drop (texto.length +
    (' ' :: decimal t).length + 1)), ?_, texto ++ ' ' :: decimal t, _, (List.append_assoc _ _ _).symm,
    ?_, ?_, ?_⟩
  · have htake : c.buffer.take texto.length = texto := by
      rw [hbuffer, List.take_left]
    simp only [anota, hcadena, Option.bind_eq_bind, Option.bind_some, strcpy, if_pos hfits, htake]
  · rw [List.mem_append, List.mem_cons]
    rintro (h | h | h)
    · exact hnul h
    · exact absurd h (by decide)
    · exact not_mem_decimal (by decide) h
  · rw [List.length_append, List.length_cons]
    omega
  · rw [List.length_append, List.length_drop, hbuf]
    omega

theorem pingtime_lt (r : Reloj) (mem : List Char) : pingtime r mem < 2 ^ 64 := by
  rw [pingtime]
  omega

/-- The end of `read_ping`. -/
theorem descuenta_cuadra (hn : n ≤ 20) (hhop : c.hopcount = n) (hsend : c.sendB + enviados = n)
    (hreceive : c.receiveB + recibidos = n) (hacpt : c.acpt.isSome = true) (hleft : recibidos + 1 ≤ n)
    (hbuffer : ∃ texto resto, c.buffer = texto ++ nul :: resto ∧ nul ∉ texto ∧
      texto.length ≤ 21 * (recibidos + 1) ∧ texto.length + resto.length + 1 = BUFSIZE) :
    ∃ estado avisos, descuenta me r c = some (estado, avisos) ∧
      Cuadra' n enviados (recibidos + 1) estado avisos := by
  have hbaja : baja c.receiveB = c.receiveB - 1 := baja_of_pos (by omega) (by omega)
  have h : Cuadra n enviados (recibidos + 1) { c with receiveB := baja c.receiveB } := by
    refine ⟨hn, hhop, hsend, ?_, hbuffer⟩
    show baja c.receiveB + (recibidos + 1) = n
    rw [hbaja]
    omega
  rw [descuenta]
  split
  · obtain ⟨fin, hfin, hinforme⟩ := endPing_informe me r.now h
    exact ⟨_, _, hfin, hinforme⟩
  · exact ⟨_, _, rfl, h, hacpt, fun _ _ ↦ informe_nil⟩

/-- A ping time is counted, as long as packets are left. -/
theorem acumula_cuadra {t : Nat} (ht : t < 2 ^ 64) (h : Cuadra n enviados recibidos c)
    (hacpt : c.acpt.isSome = true) (hleft : recibidos + 1 ≤ n) :
    ∃ estado avisos, acumula me r t c = some (estado, avisos) ∧
      Cuadra' n enviados (recibidos + 1) estado avisos := by
  have hsuma : Cuadra n enviados recibidos (suma c t) :=
    ⟨h.n_le, h.hopcount, h.sendB, h.receiveB, h.buffer⟩
  obtain ⟨since, firsttime, hespera⟩ := espera_eq (r := r) hsuma
  have hsince : Cuadra n enviados recibidos
      { suma c t with since := since, firsttime := firsttime } :=
    ⟨h.n_le, h.hopcount, h.sendB, h.receiveB, h.buffer⟩
  obtain ⟨buffer, hanota, hbuffer⟩ := anota_cuadra ht hsince hleft
  rw [acumula, hespera, Option.bind_eq_bind, Option.bind_some, hanota, Option.bind_some]
  exact descuenta_cuadra h.n_le h.hopcount h.sendB h.receiveB hacpt hleft hbuffer

/-- `read_ping` on a packet, as long as packets are left. -/
theorem readPing_cuadra {paquete tras : List Char} (h : Cuadra n enviados recibidos c)
    (hacpt : c.acpt.isSome = true)
    (hleft : recibidos + Evento.recepciones (.packet r paquete tras) ≤ n) :
    ∃ estado avisos, readPing me r paquete tras c = some (estado, avisos) ∧
      Cuadra' n enviados (recibidos + Evento.recepciones (.packet r paquete tras)) estado avisos := by
  have hlen : (paquete.take UPINGBUFSIZE).length < 19 ↔ ¬ 19 ≤ paquete.length := by
    rw [List.length_take, UPINGBUFSIZE]
    omega
  unfold readPing
  generalize paquete.take UPINGBUFSIZE = datos at hlen ⊢
  have h₁ : Cuadra n enviados recibidos { c with confs := datos ++ c.confs.drop datos.length } :=
    ⟨h.n_le, h.hopcount, h.sendB, h.receiveB, h.buffer⟩
  by_cases hshort : 19 ≤ paquete.length
  · have hrecepciones : Evento.recepciones (.packet r paquete tras) = 1 := if_pos hshort
    rw [hrecepciones] at hleft ⊢
    simp only [if_neg (mt hlen.mp (not_not_intro hshort))]
    exact acumula_cuadra (pingtime_lt r _) h₁ hacpt hleft
  · have hrecepciones : Evento.recepciones (.packet r paquete tras) = 0 := if_neg hshort
    rw [hrecepciones]
    simp only [if_pos (hlen.mpr hshort)]
    exact ⟨_, _, rfl, h₁, hacpt, fun _ _ ↦ informe_nil⟩

/-- `read_ping` on an error. -/
theorem readError_cuadra {eagain : Bool} {error : CStr} (h : Cuadra n enviados recibidos c)
    (hacpt : c.acpt.isSome = true) :
    ∃ estado avisos, readError me r eagain error c = some (estado, avisos) ∧
      Cuadra' n enviados recibidos estado avisos := by
  have haviso : ∀ cab e s avisos, Informe e s avisos →
      Informe e s (⟨cab, .recvfrom error⟩ :: avisos) := fun _ _ _ _ h ↦
    informe_cons (fun _ _ _ _ _ h ↦ by cases h) h
  obtain ⟨fin, hfin, hinforme⟩ := endPing_informe me r.now h
  obtain ⟨acpt, hsome⟩ := Option.isSome_iff_exists.mp hacpt
  simp only [readError, hsome]
  cases eagain with
  | true => exact ⟨_, _, rfl, h, hacpt, fun _ _ ↦ haviso _ _ _ _ informe_nil⟩
  | false =>
      simp only [Bool.false_eq_true, if_false, hfin, Option.bind_eq_bind, Option.bind_some]
      exact ⟨_, _, rfl, haviso _ _ _ _ hinforme⟩

/-- An event of a request that does not go beyond its number of pings. -/
theorem atiende_cuadra (me : Me) (h : Cuadra n enviados recibidos c) (hacpt : c.acpt.isSome = true) (e : Evento)
    (henviados : enviados + e.envios ≤ n) (hrecibidos : recibidos + e.recepciones ≤ n) :
    ∃ estado avisos, atiende me e c = some (estado, avisos) ∧
      Cuadra' n (enviados + e.envios) (recibidos + e.recepciones) estado avisos := by
  cases e with
  | start r => exact startPing_cuadra h hacpt
  | timer r error => exact sendPing_cuadra h hacpt henviados
  | packet r paquete tras => exact readPing_cuadra h hacpt hrecibidos
  | error r eagain error => exact readError_cuadra h hacpt
  | cancel r acptr =>
      obtain ⟨fin, hfin, hinforme⟩ := endPing_informe me r.now
        (c := { c with acpt := acptr }) ⟨h.n_le, h.hopcount, h.sendB, h.receiveB, h.buffer⟩
      exact ⟨_, _, hfin, hinforme⟩

/-! ## Runs that keep to the number of pings -/

/-- No fault yet, and counts that are right. -/
def Sano (n : Nat) (s : Corrida) : Prop :=
  ∃ estado, s.estado = some estado ∧ Cuadra' n s.enviados s.recibidos estado s.avisos

variable {s : Corrida} {e : Evento}

/-- An event of a request that is freed. -/
theorem paso_libre (h : s.estado = some .libre) : paso me e s = s := by
  rw [paso, h]

theorem paso_vivo {estado : Estado} {avisos : List Aviso} (h : s.estado = some (.vivo c))
    (hatiende : atiende me e c = some (estado, avisos)) :
    paso me e s = ⟨some estado, s.avisos ++ avisos, s.enviados + e.envios,
      s.recibidos + e.recepciones⟩ := by
  simp only [paso, h, hatiende]

/-- An event without a fault. -/
theorem atiende_of_paso (h : s.estado = some (.vivo c)) (hfault : (paso me e s).estado ≠ none) :
    ∃ x, atiende me e c = some x := by
  cases hatiende : atiende me e c with
  | some x => exact ⟨x, rfl⟩
  | none =>
      refine absurd ?_ hfault
      simp only [paso, h, hatiende]

theorem paso_sano (hs : Sano n s) (he : Contado n e s) : Sano n (paso me e s) := by
  obtain ⟨estado, hestado, hcuadra⟩ := hs
  cases estado with
  | libre =>
      rw [paso_libre hestado]
      exact ⟨_, hestado, hcuadra⟩
  | vivo c =>
      obtain ⟨hcuadra, hacpt, havisos⟩ := hcuadra
      obtain ⟨estado, avisos, hatiende, hcuadra'⟩ :=
        atiende_cuadra me hcuadra hacpt e (he c hestado).1 (he c hestado).2
      rw [paso_vivo hestado hatiende]
      refine ⟨estado, rfl, ?_⟩
      cases estado with
      | libre => exact informe_append (havisos _ _) hcuadra'
      | vivo c' =>
          exact ⟨hcuadra'.1, hcuadra'.2.1, fun _ _ ↦
            informe_append (havisos _ _) (hcuadra'.2.2 _ _)⟩

theorem Sano.informe (hs : Sano n s) : Informe s.enviados s.recibidos s.avisos := by
  obtain ⟨estado, -, hcuadra⟩ := hs
  cases estado with
  | libre => exact hcuadra
  | vivo c => exact hcuadra.2.2 _ _

theorem Sano.cuadra (hs : Sano n s) (h : s.estado = some (.vivo c)) :
    Cuadra n s.enviados s.recibidos c ∧ c.acpt.isSome = true := by
  obtain ⟨estado, hestado, hcuadra⟩ := hs
  rw [hestado] at h
  cases h
  exact ⟨hcuadra.1, hcuadra.2.1⟩

/-- The counts of a run do not go back. -/
theorem le_paso (me : Me) (e : Evento) (s : Corrida) :
    s.enviados ≤ (paso me e s).enviados ∧ s.recibidos ≤ (paso me e s).recibidos := by
  unfold paso
  split
  · split <;> exact ⟨Nat.le_add_right _ _, Nat.le_add_right _ _⟩
  · exact ⟨Nat.le_refl _, Nat.le_refl _⟩

/-- What keeps to the number of pings is correct. -/
theorem correcto_of_contado (hs : Sano n s) (he : Contado n e s) : Correcto me e s := by
  have hs' : Sano n (paso me e s) := paso_sano hs he
  refine ⟨?_, fun c c' hc hc' ↦ ?_, hs'.informe⟩
  · obtain ⟨estado, hestado, -⟩ := hs'
    rw [hestado]
    exact Option.some_ne_none _
  · have hcuadra := (hs.cuadra hc).1
    have hcuadra' := (hs'.cuadra hc').1
    have hle := le_paso me e s
    have hsend := hcuadra.sendB
    have hsend' := hcuadra'.sendB
    have hreceive := hcuadra.receiveB
    have hreceive' := hcuadra'.receiveB
    omega

/-- A ping beyond the last one wraps `sendB`. -/
theorem sendPing_wrap (h : c.sendB = 0) :
    ∃ c', sendPing me r none c = some (.vivo c', []) ∧ c.sendB < c'.sendB := by
  have hbaja : baja c.sendB = 65535 := by rw [h, baja_zero]
  simp only [sendPing, hbaja]
  rw [if_neg (by decide)]
  exact ⟨_, rfl, by rw [h]; exact Nat.succ_pos _⟩

theorem espera_some {c' : Client} (h : espera r c = some c') :
    ∃ since firsttime, c' = { c with since := since, firsttime := firsttime } := by
  simp only [espera, Option.bind_eq_bind, Option.bind_eq_some_iff] at h
  obtain ⟨since, -, h⟩ := h
  exact ⟨_, _, (Option.some.inj h).symm⟩

theorem anota_some {t : Nat} {c' : Client} (h : anota t c = some c') :
    ∃ buffer, c' = { c with buffer := buffer } := by
  simp only [anota, Option.bind_eq_bind, Option.bind_eq_some_iff] at h
  obtain ⟨_, -, buffer, -, h⟩ := h
  exact ⟨buffer, (Option.some.inj h).symm⟩

/-- A packet beyond the last one wraps `receiveB`, if it is not a fault. -/
theorem readPing_wrap {paquete tras : List Char} (hlen : 19 ≤ paquete.length)
    (hacpt : c.acpt.isSome = true) (h : c.receiveB = 0) {estado : Estado} {avisos : List Aviso}
    (hread : readPing me r paquete tras c = some (estado, avisos)) :
    ∃ c', estado = .vivo c' ∧ c.receiveB < c'.receiveB := by
  have hlong : ¬ (paquete.take UPINGBUFSIZE).length < 19 := by
    rw [List.length_take, UPINGBUFSIZE]
    omega
  unfold readPing at hread
  simp only [if_neg hlong, acumula, descuenta, Option.bind_eq_bind, Option.bind_eq_some_iff] at hread
  obtain ⟨c₁, hespera, c₂, hanota, hread⟩ := hread
  obtain ⟨since, firsttime, rfl⟩ := espera_some hespera
  obtain ⟨buffer, rfl⟩ := anota_some hanota
  have hbaja : baja c.receiveB = 65535 := by rw [h, baja_zero]
  simp only [suma, hbaja] at hread
  rw [if_neg (by simp [Option.isSome_iff_ne_none.mp hacpt])] at hread
  cases hread
  exact ⟨_, rfl, by rw [h]; exact Nat.succ_pos _⟩

/-- What is correct keeps to the number of pings. -/
theorem contado_of_correcto (hs : Sano n s) (he : Correcto me e s) : Contado n e s := by
  intro c hc
  obtain ⟨hcuadra, hacpt⟩ := hs.cuadra hc
  obtain ⟨hfault, hwrap, -⟩ := he
  have hsend := hcuadra.sendB
  have hreceive := hcuadra.receiveB
  have hle : s.enviados ≤ n ∧ s.recibidos ≤ n := by omega
  cases e with
  | timer r error =>
      refine ⟨?_, hle.2⟩
      cases error with
      | some error => exact hle.1
      | none =>
          show s.enviados + 1 ≤ n
          by_contra hmore
          have hzero : c.sendB = 0 := by omega
          obtain ⟨c', hsend', hlt⟩ := @sendPing_wrap me r c hzero
          have hatiende : atiende me (.timer r none) c = some (.vivo c', []) := hsend'
          have hback := (hwrap c c' hc (by rw [paso_vivo hc hatiende])).1
          omega
  | packet r paquete tras =>
      refine ⟨hle.1, ?_⟩
      rw [Evento.recepciones]
      split
      · next hlen =>
          by_contra hmore
          have hzero : c.receiveB = 0 := by omega
          obtain ⟨⟨estado, avisos⟩, hread⟩ := atiende_of_paso hc hfault
          obtain ⟨c', rfl, hlt⟩ := readPing_wrap hlen hacpt hzero hread
          have hback := (hwrap c c' hc (by rw [paso_vivo hc hread])).2
          omega
      · exact hle.2
  | start | error | cancel => exact hle

/-- A request at its start. -/
theorem mUping_cuadra {acpt : Acpt} {name pings : CStr} {port : Nat} {confs : List Char}
    (h : mUping acpt name pings port now confs = some c) :
    Cuadra c.hopcount 0 0 c ∧ c.acpt.isSome = true := by
  rw [mUping] at h
  split at h
  · cases h
  · cases h
    refine ⟨⟨?_, rfl, rfl, rfl, [], List.replicate 511 nul, rfl, by simp, by simp, ?_⟩, rfl⟩
    · show (min 20 (atoi pings)).toNat ≤ 20
      omega
    · rw [List.length_replicate]
      rfl

/-- A request does not fault, wrap a counter or report a wrong number if and only if it sends and
receives no more pings than were asked for. -/
theorem uping_correcto (me : Me) (acpt : Acpt) (name pings : CStr) (port : Nat) (now : Int)
    (confs : List Char) (c : Client) (h : mUping acpt name pings port now confs = some c)
    (eventos : List Evento) :
    Run.EveryStep (paso me) (Correcto me) (inicial c) eventos ↔
      Run.EveryStep (paso me) (Contado c.hopcount) (inicial c) eventos := by
  have hsano : Sano c.hopcount (inicial c) :=
    ⟨_, rfl, (mUping_cuadra h).1, (mUping_cuadra h).2, fun _ _ ↦ informe_nil⟩
  exact Run.everyStep_iff
    (fun _ _ hs he ↦ paso_sano hs (contado_of_correcto hs he))
    (fun _ _ hs ↦ ⟨contado_of_correcto hs, correcto_of_contado hs⟩) hsano

/-- A user of this server. -/
def usuario : Acpt :=
  { myUser := true, fromServer := false, protocol := 10, name := ['u'], numNick := ['A', 'A'] }

/-- A clock. -/
def hora : Reloj :=
  { now := 1000, sec := 1000, usec := 0 }

/-- A request of one ping. -/
def pedido : Client :=
  { name := ['s']
    port := 7007
    hopcount := 1
    sendB := 1
    receiveB := 1
    sendM := 0
    receiveK := 0
    receiveM := 0
    since := 1000
    firsttime := 0
    ping := false
    acpt := some usuario
    buffer := List.replicate BUFSIZE nul
    confs := List.replicate UPINGBUFSIZE nul }

/-- A ping that is sent, and the packet that answers it. -/
theorem uping_correcto_uno : Run.EveryStep (paso ⟨['a'], ['A']⟩) (Correcto ⟨['a'], ['A']⟩)
    (inicial pedido) [.start hora, .timer hora none, .packet hora (List.replicate 19 '0') []] := by
  refine (uping_correcto ⟨['a'], ['A']⟩ usuario ['s'] ['1'] 7007 1000
    (List.replicate UPINGBUFSIZE nul) pedido rfl _).mpr ⟨?_, ?_, ?_, trivial⟩
  · exact fun _ _ ↦ ⟨by decide, by decide⟩
  · exact fun _ _ ↦ ⟨by decide, by decide⟩
  · exact fun _ _ ↦ ⟨by decide, by decide⟩

/-- The timer goes on after the only ping, and the counter of pings to send wraps. -/
theorem uping_no_correcto : ∃ c, mUping usuario ['s'] ['1'] 7007 1000
    (List.replicate UPINGBUFSIZE nul) = some c ∧ ¬ Run.EveryStep (paso ⟨['a'], ['A']⟩)
      (Correcto ⟨['a'], ['A']⟩) (inicial c) [.start hora, .timer hora none, .timer hora none] := by
  refine ⟨pedido, rfl, ?_⟩
  rintro ⟨-, -, ⟨-, hwrap, -⟩, -⟩
  exact absurd (hwrap _ _ rfl rfl).1 (by decide)

end Ircd.Ping
