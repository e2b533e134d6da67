import Ircd.Bsd.ReadPacket
import Ircd.Lib.Run

/-!
# The lines that are handed over

What `read_packet` hands to `parse_client` and `parse_server` over the whole life of a connection
that was accepted. A turn of its loop loses an unfinished line of exactly 510 bytes, and what is
queued behind the line that makes the connection a server link is handed over only if the loop comes
to its next turn, and then in one piece of at most 8192 bytes. The main theorem, `lineas_run`, says
that no line is lost or overtaken in the runs in which the loop makes no such turn.
-/

namespace Ircd.Bsd

open CString
open Dbuf (isEol)
open Packet (Buffer Resultado READBUF tramos completas pendiente corta Guarda)

/-! ## Runs between ends of lines -/

/-- A stream is an unfinished run, or a run with its end and a stream. -/
theorem linea_induction {P : List Char → Prop} (fin : ∀ s, (∀ c ∈ s, finLinea c = false) → P s)
    (cons : ∀ p g s, (∀ c ∈ p, finLinea c = false) → finLinea g = true → P s → P (p ++ g :: s))
    (s : List Char) : P s := by
  induction hn : s.length using Nat.strong_induction_on generalizing s with
  | h n ih =>
      by_cases hs : ∀ c ∈ s, finLinea c = false
      · exact fin s hs
      · have hspan := List.takeWhile_append_dropWhile (p := fun c ↦ !finLinea c) (l := s)
        cases hdrop : s.dropWhile (fun c ↦ !finLinea c) with
        | nil =>
            have hall := List.dropWhile_eq_nil_iff.mp hdrop
            exact absurd (fun c hc ↦ by simpa using hall c hc) hs
        | cons g t =>
            have hg : finLinea g = true := by
              have hne : s.dropWhile (fun c ↦ !finLinea c) ≠ [] := by
                rw [hdrop]
                exact List.cons_ne_nil g t
              have hhead := List.head_dropWhile_not (fun c ↦ !finLinea c) hne
              simpa [hdrop] using hhead
            rw [hdrop] at hspan
            rw [← hspan]
            refine cons _ g t (fun c hc ↦ by simpa using List.mem_takeWhile_imp hc) hg ?_
            refine ih t.length ?_ t rfl
            rw [← hn, ← hspan, List.length_append, List.length_cons]
            omega

theorem tramos_libre {s : List Char} (hs : ∀ c ∈ s, finLinea c = false) : tramos s = [s] :=
  List.splitOnP_eq_singleton hs

theorem pendiente_libre {s : List Char} (hs : ∀ c ∈ s, finLinea c = false) : pendiente s = s := by
  simp only [pendiente, tramos_libre hs, List.getLast_singleton]

theorem completas_libre {s : List Char} (hs : ∀ c ∈ s, finLinea c = false) : completas s = [] := by
  rw [completas, tramos_libre hs]
  rfl

/-- What comes behind a stream goes behind its unfinished run. -/
theorem completas_append (s x : List Char) :
    completas (s ++ x) = completas s ++ completas (pendiente s ++ x) := by
  induction s using linea_induction with
  | fin s hs => rw [completas_libre hs, pendiente_libre hs, List.nil_append]
  | cons p g s hp hg ih =>
      rw [List.append_assoc, List.cons_append, Packet.completas_cons hp hg,
        Packet.completas_cons hp hg, Packet.pendiente_cons hp hg, ih]
      split
      · rfl
      · rfl

theorem pendiente_append (s x : List Char) : pendiente (s ++ x) = pendiente (pendiente s ++ x) := by
  induction s using linea_induction with
  | fin s hs => rw [pendiente_libre hs]
  | cons p g s hp hg ih =>
      rw [List.append_assoc, List.cons_append, Packet.pendiente_cons hp hg,
        Packet.pendiente_cons hp hg, ih]

/-- No run of a stream is longer than 510 bytes. -/
def Cortas (s : List Char) : Prop :=
  (∀ t ∈ completas s, t.length ≤ 510) ∧ (pendiente s).length ≤ 510

theorem cortas_append {s x : List Char} (h : Cortas (s ++ x)) : Cortas (pendiente s ++ x) := by
  obtain ⟨hlineas, hfin⟩ := h
  rw [completas_append] at hlineas
  rw [pendiente_append] at hfin
  exact ⟨fun t ht ↦ hlineas t (List.mem_append_right _ ht), hfin⟩

/-! ## What is to hold -/

section

variable {σ : Type}

/-- The lines go to `parse_client` while the connection is not a server link, and then to
`parse_server`. -/
def EnOrden (entregas : List (Entrega σ)) (status : Status) : Prop :=
  ∃ antes despues, entregas = antes ++ despues ∧
    (∀ e ∈ antes, ∃ now cptr s, e = .client now cptr s ∧ cptr.status ≠ .server) ∧
    (∀ e ∈ despues, ∃ s, e = .server s) ∧ (status ≠ .server → despues = [])

/-- No line is lost: those that have been handed over and those that are queued are the lines that
have been received, in their order. -/
def Completa (v : Vida σ) : Prop :=
  match v.salida with
  | .cerrada => True
  | .abierta c => v.entregas.map Entrega.linea ++ completas c.recvQ = completas v.leidos ∧
      EnOrden v.entregas c.cptr.status

/-! ## When it does -/

/-- The test of the loop is safe: the queue is not one unfinished line of 510 bytes when a turn is
made, and what is queued for a server link is taken in one piece now. -/
def Prudente (now : Int) (c : Conexion σ) : Prop :=
  (c.cptr.status ≠ .server → c.sigue now = true →
    ¬(completas c.recvQ = [] ∧ (pendiente c.recvQ).length = 510)) ∧
  (c.cptr.status = .server → c.recvQ = [] ∨ c.sigue now = true ∧ c.recvQ.length ≤ READBUF)

variable (parseClient : Cptr σ → Buffer → Fin BUFSIZE → Cptr σ × Buffer × Resultado)
  (parseServer : σ → Buffer → Fin BUFSIZE → σ × Buffer × Resultado)

/-- Every test of the loop is safe. -/
def Prudentes (now : Int) : Nat → Conexion σ → Prop
  | 0, c => Prudente now c
  | fuel + 1, c => Prudente now c ∧
      (c.sigue now = true → c.cptr.status ≠ .server →
        ∀ s h recvQ, getmsg c.recvQ = .linea s h recvQ →
          ∀ cptr buffer, parseClient c.cptr (escribe c.buffer (s ++ [nul])) ⟨s.length, h⟩ =
              (cptr, buffer, .sigue) →
            Prudentes now fuel { c with cptr := cptr, buffer := buffer,
                                        count := ⟨0, Packet.zero_lt_BUFSIZE⟩, recvQ := recvQ })

/-- The connection behind the call of `recv`. -/
def Conexion.tras (a : Aviso) (c : Conexion σ) : Conexion σ :=
  if c.lee ∧ a.ready.isSome then c.recibe a.now else c

/-- A call whose loop is safe, if it comes to it. -/
def Segura (x : Suceso) (v : Vida σ) : Prop :=
  ∀ a c, x = .llamada a → v.salida = .abierta c → c.cptr.status ≠ .server → c.consultas = false →
    ¬(c.lee = true ∧ a.ready = some .espera) →
      Prudentes parseClient a.now (c.recvQ ++ c.leidos a).length
        { (c.avisa a).tras a with recvQ := c.recvQ ++ c.leidos a }

end

/-! ## What a turn takes from the queue -/

theorem finLinea_eq (c : Char) : finLinea c = isEol c := rfl

/-- Ends of lines in front change nothing. -/
theorem completas_dropWhile (q : List Char) : completas (q.dropWhile isEol) = completas q ∧
    pendiente (q.dropWhile isEol) = pendiente q := by
  induction q with
  | nil => exact ⟨rfl, rfl⟩
  | cons g q ih =>
      cases hg : isEol g with
      | false => rw [List.dropWhile_cons_of_neg (by simp [hg])]; exact ⟨rfl, rfl⟩
      | true =>
          have hcompletas := Packet.completas_cons (p := []) (s := q) (by simp) hg
          have hpendiente := Packet.pendiente_cons (p := []) (s := q) (by simp) hg
          rw [List.nil_append, if_pos rfl] at hcompletas
          rw [List.nil_append] at hpendiente
          rw [List.dropWhile_cons_of_pos hg, hcompletas, hpendiente]
          exact ih

/-- A text that is not taken whole goes on with an end of line. -/
theorem exists_isEol {s : List Char} (h : (s.takeWhile (!isEol ·)).length < s.length) :
    ∃ g t, s = s.takeWhile (!isEol ·) ++ g :: t ∧ isEol g = true := by
  have hspan := List.takeWhile_append_dropWhile (p := fun c ↦ !isEol c) (l := s)
  cases hdrop : s.dropWhile (fun c ↦ !isEol c) with
  | nil =>
      rw [hdrop, List.append_nil] at hspan
      rw [hspan] at h
      exact absurd h (Nat.lt_irrefl _)
  | cons g t =>
      have hne : s.dropWhile (fun c ↦ !isEol c) ≠ [] := by
        rw [hdrop]
        exact List.cons_ne_nil g t
      have hhead := List.head_dropWhile_not (fun c ↦ !isEol c) hne
      refine ⟨g, t, ?_, by simpa [hdrop] using hhead⟩
      rw [← hdrop]
      exact hspan.symm

/-- What `getmsg` leaves: a line has been taken from the queue, or there is no end of a line in the
first bytes of the queue. -/
theorem getmsg_spec (q : List Char) :
    match getmsg q with
    | .linea s _ q' => completas q = s :: completas q' ∧ pendiente q' = pendiente q ∧
        q'.length < q.length
    | .nada _ q' => completas q' = completas q ∧ pendiente q' = pendiente q ∧
        ∀ c ∈ q'.take BUFSIZE, isEol c = false := by
  obtain ⟨hcompletas, hpendiente⟩ := completas_dropWhile q
  have hsub : (q.dropWhile isEol).length ≤ q.length := (List.dropWhile_suffix _).length_le
  rw [getmsg]
  split_ifs with hlinea
  · obtain ⟨g, t, hbytes, hg⟩ := exists_isEol hlinea
    obtain ⟨s, hs⟩ : ∃ s, ((q.dropWhile isEol).take BUFSIZE).takeWhile (!isEol ·) = s := ⟨_, rfl⟩
    have hlibre : ∀ c ∈ s, finLinea c = false := fun c hc ↦ by
      rw [← hs] at hc
      rw [finLinea_eq]
      simpa using List.mem_takeWhile_imp hc
    rw [hs] at hbytes
    obtain ⟨r, hq⟩ : ∃ r, q.dropWhile isEol = s ++ g :: r := by
      refine ⟨t ++ (q.dropWhile isEol).drop BUFSIZE, ?_⟩
      rw [← List.cons_append, ← List.append_assoc, ← hbytes, List.take_append_drop]
    have hne : s ≠ [] := by
      rintro rfl
      have hhead := List.head?_dropWhile_not isEol q
      rw [hq] at hhead
      simp [hg] at hhead
    show completas q = _ :: completas _ ∧ pendiente _ = pendiente q ∧ _
    rw [hs, hq, List.drop_left, List.dropWhile_cons_of_pos hg, ← hcompletas, ← hpendiente, hq,
      Packet.completas_cons hlibre hg, if_neg hne, Packet.pendiente_cons hlibre hg]
    obtain ⟨hcompletas', hpendiente'⟩ := completas_dropWhile r
    refine ⟨by rw [hcompletas'], hpendiente', ?_⟩
    have hle := (List.dropWhile_suffix isEol (l := r)).length_le
    rw [hq, List.length_append, List.length_cons] at hsub
    omega
  · have hwhole := Dbuf.takeWhile_eq_of_not_lt hlinea
    refine ⟨hcompletas, hpendiente, fun c hc ↦ ?_⟩
    rw [← hwhole] at hc
    simpa using List.mem_takeWhile_imp hc

/-- With runs of at most 510 bytes, no end of a line in the first bytes means none at all. -/
theorem libre_of_nada {q : List Char} (hcortas : Cortas q)
    (h : ∀ c ∈ q.take BUFSIZE, isEol c = false) : (∀ c ∈ q, isEol c = false) ∧ q.length ≤ 510 := by
  induction q using linea_induction with
  | fin s hs =>
      have hlen := hcortas.2
      rw [pendiente_libre hs] at hlen
      exact ⟨hs, hlen⟩
  | cons p g s hp hg _ =>
      have hlen : p.length ≤ 510 := by
        by_cases hnil : p = []
        · rw [hnil]
          exact Nat.zero_le _
        · refine hcortas.1 p ?_
          rw [Packet.completas_cons hp hg, if_neg hnil]
          exact List.mem_cons_self
      obtain ⟨k, hk⟩ : ∃ k, BUFSIZE - p.length = k + 1 := by
        refine ⟨511 - p.length, ?_⟩
        show 512 - p.length = _
        omega
      have hmem : g ∈ (p ++ g :: s).take BUFSIZE := by
        rw [List.take_append, hk]
        exact List.mem_append_right _ List.mem_cons_self
      have hno := h g hmem
      rw [← finLinea_eq, hg] at hno
      cases hno

theorem pendiente_mem (s : List Char) : ∀ c ∈ pendiente s, finLinea c = false := by
  induction s using linea_induction with
  | fin s hs => rwa [pendiente_libre hs]
  | cons p g s hp hg ih => rwa [Packet.pendiente_cons hp hg]

theorem corta_of_length_le {s : CStr} (h : s.length ≤ 510) : corta s = s := by
  rw [Packet.corta_eq, List.take_of_length_le (h.trans (Nat.le_succ _))]

/-! ## One call -/

section

variable {σ : Type} {parseClient : Cptr σ → Buffer → Fin BUFSIZE → Cptr σ × Buffer × Resultado}
  {parseServer : σ → Buffer → Fin BUFSIZE → σ × Buffer × Resultado} {now : Int} {c : Conexion σ}
  {entregas : List (Entrega σ)} {leidos bytes : List Char}

/-- A connection between two calls. -/
structure Bien (entregas : List (Entrega σ)) (leidos : List Char) (c : Conexion σ) : Prop where
  lineas : entregas.map Entrega.linea ++ completas c.recvQ = completas leidos
  orden : EnOrden entregas c.cptr.status
  cola : c.cptr.status ≠ .server → pendiente c.recvQ = pendiente leidos
  servidor : c.cptr.status = .server → c.recvQ = [] ∧ c.consultas = false ∧
    Guarda ⟨c.cptr.resto, c.buffer, c.count⟩ (corta (pendiente leidos))

/-- A connection at the test of the loop. -/
structure Cola (entregas : List (Entrega σ)) (leidos : List Char) (c : Conexion σ) : Prop where
  lineas : entregas.map Entrega.linea ++ completas c.recvQ = completas leidos
  orden : EnOrden entregas c.cptr.status
  cola : pendiente c.recvQ = pendiente leidos
  count : c.cptr.status = .server → c.count.val = 0
  consultas : c.consultas = false

/-- `Bien`, unless the connection has been closed. -/
def Salida.Bien (entregas : List (Entrega σ)) (leidos : List Char) : Salida σ → Prop
  | .abierta c => Bsd.Bien entregas leidos c
  | .cerrada => True

theorem Salida.Bien.programa {r : Salida σ} (h : r.Bien entregas leidos) :
    (r.programa now).Bien entregas leidos := by
  cases r with
  | cerrada => trivial
  | abierta c =>
      show Bsd.Bien entregas leidos (c.programa now)
      rw [Conexion.programa]
      split
      · exact ⟨h.lineas, h.orden, h.cola, h.servidor⟩
      · exact h

/-- A line for `parse_client`. -/
theorem EnOrden.client {status : Status} {cptr : Cptr σ} {s : CStr}
    (h : EnOrden entregas cptr.status) (hstatus : cptr.status ≠ .server) :
    EnOrden (entregas ++ [.client now cptr s]) status := by
  obtain ⟨antes, despues, rfl, hantes, -, hnil⟩ := h
  obtain rfl := hnil hstatus
  refine ⟨antes ++ [.client now cptr s], [], by simp, fun e he ↦ ?_, fun e he ↦ ?_, fun _ ↦ rfl⟩
  swap
  · cases he
  rcases List.mem_append.mp he with he | he
  · exact hantes e he
  · exact ⟨now, cptr, s, List.mem_singleton.mp he, hstatus⟩

/-- Lines for `parse_server`. -/
theorem EnOrden.server (h : EnOrden entregas .server) (lineas : List CStr) :
    EnOrden (entregas ++ lineas.map .server) .server := by
  obtain ⟨antes, despues, rfl, hantes, hdespues, -⟩ := h
  refine ⟨antes, despues ++ lineas.map .server, List.append_assoc .., hantes, fun e he ↦ ?_,
    fun hne ↦ absurd rfl hne⟩
  rcases List.mem_append.mp he with he | he
  · exact hdespues e he
  · obtain ⟨s, -, rfl⟩ := List.mem_map.mp he
    exact ⟨s, rfl⟩

/-- What a server link gets goes behind the run in its buffer. -/
theorem alServidor_bien {p : CStr} (hstatus : c.cptr.status = .server)
    (hconsultas : c.consultas = false) (hcola : c.recvQ = []) (hp : ∀ x ∈ p, finLinea x = false)
    (hguarda : Guarda ⟨c.cptr.resto, c.buffer, c.count⟩ (corta p))
    (hlineas : entregas.map Entrega.linea ++ completas (p ++ bytes) = completas leidos)
    (hfin : pendiente (p ++ bytes) = pendiente leidos) (horden : EnOrden entregas .server)
    (hcortas : Cortas leidos) :
    (alServidor parseServer bytes c).2.Bien (entregas ++ (alServidor parseServer bytes c).1)
      leidos := by
  have hbucle : Packet.Entregadas (p ++ bytes)
      (Packet.dopacket parseServer ⟨c.cptr.resto, c.buffer, c.count⟩ bytes) :=
    Packet.entregadas_bucle parseServer hp hguarda.1 hguarda.2
  rw [alServidor]
  generalize Packet.dopacket parseServer ⟨c.cptr.resto, c.buffer, c.count⟩ bytes = r at hbucle ⊢
  obtain ⟨traza, e | mundo⟩ := r
  · obtain ⟨htraza, -, hguarda'⟩ := hbucle
    have hcorta : (completas (p ++ bytes)).map corta = completas (p ++ bytes) := by
      refine (List.map_congr_left fun s hs ↦ ?_).trans (List.map_id _)
      refine corta_of_length_le (hcortas.1 s ?_)
      rw [← hlineas]
      exact List.mem_append_right _ hs
    have hmap : traza.map (fun x ↦ (.server x.1 : Entrega σ)) =
        (completas (p ++ bytes)).map .server := by
      rw [← hcorta, ← htraza, List.map_map]
      rfl
    show Bien (entregas ++ traza.map fun x ↦ Entrega.server x.1) leidos _
    rw [hmap]
    refine ⟨?_, ?_, fun hne ↦ absurd hstatus hne, fun _ ↦ ⟨hcola, hconsultas, ?_⟩⟩
    · show _ ++ completas c.recvQ = _
      rw [hcola, List.map_append, List.map_map, ← hlineas, List.append_assoc]
      congr 1
      exact (congrArg (· ++ []) (List.map_id _)).trans (List.append_nil _)
    · show EnOrden _ c.cptr.status
      rw [hstatus]
      exact horden.server _
    · rw [← hfin]
      exact hguarda'
  · trivial

/-- A loop that is over leaves a connection between two calls. -/
theorem Cola.bien (h : Cola entregas leidos c) (hserver : c.cptr.status = .server → c.recvQ = []) :
    Bien entregas leidos c := by
  refine ⟨h.lineas, h.orden, fun _ ↦ h.cola, fun hstatus ↦ ⟨hserver hstatus, h.consultas, ?_⟩⟩
  have hfin := h.cola
  rw [hserver hstatus] at hfin
  rw [← hfin]
  exact ⟨h.count hstatus, Packet.linea_cero (h.count hstatus)⟩

theorem Cola.cortas (h : Cola entregas leidos c) (hcortas : Cortas leidos) : Cortas c.recvQ := by
  refine ⟨fun t ht ↦ hcortas.1 t ?_, ?_⟩
  · rw [← h.lineas]
    exact List.mem_append_right _ ht
  · rw [h.cola]
    exact hcortas.2

/-- A turn that finds no line. -/
theorem Cola.nada (h : Cola entregas leidos c) (hstatus : c.cptr.status ≠ .server) {buffer : Buffer}
    {nonl : Bool} {q : List Char} (hcompletas : completas q = completas c.recvQ)
    (hfin : pendiente q = pendiente c.recvQ) :
    Bien entregas leidos { c with buffer := buffer, recvQ := q, nonl := nonl } := by
  refine ⟨?_, h.orden, fun _ ↦ ?_, fun hserver ↦ absurd hserver hstatus⟩
  · show _ ++ completas q = _
    rw [hcompletas, h.lineas]
  · show pendiente q = _
    rw [hfin, h.cola]

/-- The loop hands over what is queued. -/
theorem bucle_bien {fuel : Nat} (h : Cola entregas leidos c) (hcortas : Cortas leidos)
    (hfuel : c.recvQ.length ≤ fuel) (hprudentes : Prudentes parseClient now fuel c) :
    (bucle parseClient parseServer now fuel c).2.Bien
      (entregas ++ (bucle parseClient parseServer now fuel c).1) leidos := by
  induction fuel generalizing c entregas with
  | zero =>
      rw [bucle, List.append_nil]
      exact h.bien fun _ ↦ List.eq_nil_of_length_eq_zero (Nat.le_zero.mp hfuel)
  | succ fuel ih =>
      obtain ⟨⟨hcortada, hserver⟩, hsiguen⟩ := hprudentes
      rw [bucle]
      by_cases hsigue : c.sigue now = true
      swap
      · -- the loop is over, and a server link has nothing queued
        rw [if_neg hsigue, List.append_nil]
        exact h.bien fun hstatus ↦ (hserver hstatus).resolve_right fun hs ↦ hsigue hs.1
      rw [if_pos hsigue]
      by_cases hstatus : c.cptr.status = .server
      · rw [if_pos hstatus]
        have hlen : c.recvQ.length ≤ READBUF := by
          rcases hserver hstatus with hnil | ⟨-, hlen⟩
          · rw [hnil]
            exact Nat.zero_le _
          · exact hlen
        rw [List.take_of_length_le hlen, List.drop_of_length_le hlen]
        have hcero := h.count hstatus
        refine alServidor_bien (p := []) hstatus h.consultas rfl (by simp) ?_ h.lineas h.cola ?_
          hcortas
        · exact ⟨hcero, Packet.linea_cero hcero⟩
        · rw [← hstatus]
          exact h.orden
      · rw [if_neg hstatus]
        have hspec := getmsg_spec c.recvQ
        cases hget : getmsg c.recvQ with
        | nada copiado q =>
            rw [hget] at hspec
            obtain ⟨hcompletas, hfin, hlibre⟩ := hspec
            have hqcortas : Cortas q := by
              have hq := h.cortas hcortas
              rwa [Cortas, ← hcompletas, ← hfin] at hq
            obtain ⟨hlibre', hlen⟩ := libre_of_nada hqcortas hlibre
            dsimp only
            split_ifs with hlt
            · rw [List.append_nil]
              exact h.nada hstatus hcompletas hfin
            · -- the queue is an unfinished line of 510 bytes
              refine absurd ⟨?_, ?_⟩ (hcortada hstatus hsigue)
              · rw [← hcompletas, completas_libre hlibre']
              · rw [← hfin, pendiente_libre hlibre']
                omega
        | linea s hs q =>
            rw [hget] at hspec
            obtain ⟨hcompletas, hfin, hlen⟩ := hspec
            have hprudentes := hsiguen hsigue hstatus s hs q hget
            dsimp only
            generalize hparse :
              parseClient c.cptr (escribe c.buffer (s ++ [nul])) ⟨s.length, hs⟩ = r
            obtain ⟨cptr, buffer, resultado⟩ := r
            cases resultado with
            | sigue =>
                have hcola : Cola (entregas ++ [.client now c.cptr s]) leidos
                    { c with cptr := cptr, buffer := buffer, count := ⟨0, Packet.zero_lt_BUFSIZE⟩,
                             recvQ := q } := by
                  refine ⟨?_, h.orden.client hstatus, ?_, fun _ ↦ rfl, h.consultas⟩
                  · show _ ++ completas q = _
                    rw [← h.lineas, hcompletas, List.map_append, List.append_assoc]
                    rfl
                  · show pendiente q = _
                    rw [hfin, h.cola]
                have hrest := ih hcola (Nat.le_of_lt_succ (hlen.trans_le hfuel))
                  (hprudentes cptr buffer hparse)
                rw [List.append_assoc] at hrest
                exact hrest
            | killed => trivial
            | dead => trivial

variable {clientFlood : Nat} {a : Aviso}

/-- What is received behind what has been received. -/
theorem Bien.append (h : Bien entregas leidos c) (hstatus : c.cptr.status ≠ .server)
    (bytes : List Char) :
    entregas.map Entrega.linea ++ completas (c.recvQ ++ bytes) = completas (leidos ++ bytes) ∧
      pendiente (c.recvQ ++ bytes) = pendiente (leidos ++ bytes) := by
  rw [completas_append c.recvQ, completas_append leidos, pendiente_append c.recvQ,
    pendiente_append leidos, h.cola hstatus, ← List.append_assoc, h.lineas]
  exact ⟨rfl, rfl⟩

theorem procesa_bien (h : Bien entregas leidos c) (hcortas : Cortas (leidos ++ bytes)) (cabe : Bool)
    (hprudentes : c.cptr.status ≠ .server → c.consultas = false →
      Prudentes parseClient now (c.recvQ ++ bytes).length { c with recvQ := c.recvQ ++ bytes }) :
    (procesa parseClient parseServer clientFlood now cabe bytes c).2.Bien
      (entregas ++ (procesa parseClient parseServer clientFlood now cabe bytes c).1)
      (leidos ++ bytes) := by
  rw [procesa]
  by_cases hstatus : c.cptr.status = .server
  · rw [if_pos hstatus]
    by_cases hbytes : bytes = []
    · rw [if_neg (not_not.mpr hbytes), hbytes, List.append_nil, List.append_nil]
      exact Salida.Bien.programa (r := .abierta c) h
    · rw [if_pos hbytes]
      obtain ⟨hcola, hconsultas, hguarda⟩ := h.servidor hstatus
      have hlineas := h.lineas
      rw [hcola] at hlineas
      have hall : entregas.map Entrega.linea ++ completas (pendiente leidos ++ bytes) =
          completas (leidos ++ bytes) := by
        rw [completas_append leidos, ← hlineas, show completas [] = [] from rfl, List.append_nil]
      refine Salida.Bien.programa (alServidor_bien hstatus hconsultas hcola (pendiente_mem leidos)
        hguarda hall (pendiente_append leidos bytes).symm ?_ hcortas)
      rw [← hstatus]
      exact h.orden
  · rw [if_neg hstatus]
    obtain ⟨hlineas, hfin⟩ := h.append hstatus bytes
    dsimp only
    split_ifs with hcabe hconsultas
    · rw [List.append_nil]
      exact ⟨hlineas, h.orden, fun _ ↦ hfin, fun hserver ↦ absurd hserver hstatus⟩
    · trivial
    · have hno : c.consultas = false := Bool.not_eq_true _ ▸ hconsultas
      have hcola : Cola entregas (leidos ++ bytes) { c with recvQ := c.recvQ ++ bytes } :=
        ⟨hlineas, h.orden, hfin, fun hserver ↦ absurd hserver hstatus, hno⟩
      exact Salida.Bien.programa (bucle_bien hcola hcortas (Nat.le_refl _) (hprudentes hstatus hno))
    · trivial

/-- A call of `read_packet`. -/
theorem readPacket_bien (h : Bien entregas leidos c) (hcortas : Cortas (leidos ++ c.leidos a))
    (hprudentes : c.cptr.status ≠ .server → c.consultas = false →
      ¬(c.lee = true ∧ a.ready = some .espera) →
      Prudentes parseClient a.now (c.recvQ ++ c.leidos a).length
        { c.tras a with recvQ := c.recvQ ++ c.leidos a }) :
    (readPacket parseClient parseServer clientFlood a c).2.Bien
      (entregas ++ (readPacket parseClient parseServer clientFlood a c).1)
      (leidos ++ c.leidos a) := by
  have hrecibe : Bien entregas leidos (c.recibe a.now) := ⟨h.lineas, h.orden, h.cola, h.servidor⟩
  rw [readPacket]
  rw [Conexion.leidos] at hcortas hprudentes ⊢
  rw [Conexion.tras] at hprudentes
  cases hlee : c.lee with
  | false =>
      simp only [hlee, Bool.false_eq_true, if_false, false_and] at hcortas hprudentes ⊢
      exact procesa_bien h hcortas a.cabe fun hs hc ↦ hprudentes hs hc not_false
  | true =>
      simp only [hlee, if_true, true_and] at hcortas hprudentes ⊢
      cases hready : a.ready with
      | none =>
          simp only [hready] at hcortas hprudentes ⊢
          exact procesa_bien h hcortas a.cabe fun hs hc ↦ hprudentes hs hc (by simp)
      | some r =>
          simp only [hready] at hcortas hprudentes ⊢
          cases r with
          | datos bytes =>
              dsimp only
              split_ifs with hnil
              · trivial
              · exact procesa_bien hrecibe hcortas a.cabe fun hs hc ↦ hprudentes hs hc (by simp)
          | espera =>
              rw [List.append_nil, List.append_nil]
              exact hrecibe
          | error => trivial

/-! ## The life of a connection -/

/-- `Bien` for the life of a connection. -/
def Vida.Bien (v : Vida σ) : Prop :=
  v.salida.Bien v.entregas v.leidos

theorem leidos_avisa (a : Aviso) (c : Conexion σ) : (c.avisa a).leidos a = c.leidos a := by
  rw [Conexion.avisa]
  split
  · rfl
  · rfl

theorem Vida.Bien.paso {v : Vida σ} (h : v.Bien) (x : Suceso)
    (hcortas : Cortas (paso parseClient parseServer clientFlood x v).leidos)
    (hsegura : Segura parseClient x v) : (paso parseClient parseServer clientFlood x v).Bien := by
  obtain ⟨salida, entregas, leidos, reloj⟩ := v
  cases salida with
  | cerrada => trivial
  | abierta c =>
      cases x with
      | resuelve now buffer =>
          show Bsd.Bien entregas leidos (c.resuelve now buffer)
          have hbien : Bsd.Bien entregas leidos c := h
          rw [Conexion.resuelve]
          split
          · next hconsultas =>
              refine ⟨hbien.lineas, hbien.orden, hbien.cola, fun hserver ↦ ?_⟩
              rw [(hbien.servidor hserver).2.1] at hconsultas
              cases hconsultas
          · exact hbien
      | llamada a =>
          have hbien : Bsd.Bien entregas leidos (c.avisa a) := by
            rw [Conexion.avisa]
            split
            · exact ⟨h.lineas, h.orden, h.cola, h.servidor⟩
            · exact h
          have hprudentes := hsegura a c rfl rfl
          show (readPacket parseClient parseServer clientFlood a (c.avisa a)).2.Bien
            (entregas ++ _) (leidos ++ c.leidos a)
          have hcortas' : Cortas (leidos ++ c.leidos a) := hcortas
          rw [← leidos_avisa] at hcortas' hprudentes ⊢
          refine readPacket_bien hbien hcortas' ?_
          revert hprudentes
          rw [Conexion.avisa]
          split
          · exact id
          · exact id

end

/-! ## The stream -/

/-- A stream of lines, each ended by CR LF. -/
def enLineas (lineas : List CStr) : List Char :=
  (lineas.map (· ++ ['\r', '\n'])).flatten

theorem completas_enLineas {lineas : List CStr} (h : ∀ l ∈ lineas, ∀ c ∈ l, finLinea c = false) :
    completas (enLineas lineas) = lineas.filter (· ≠ []) ∧ pendiente (enLineas lineas) = [] := by
  induction lineas with
  | nil => exact ⟨rfl, rfl⟩
  | cons l lineas ih =>
      obtain ⟨hl, hlineas⟩ := List.forall_mem_cons.mp h
      obtain ⟨hcompletas, hfin⟩ := ih hlineas
      have hstream : enLineas (l :: lineas) = l ++ '\r' :: ([] ++ '\n' :: enLineas lineas) := by
        simp [enLineas]
      have hno : ∀ c ∈ ([] : List Char), finLinea c = false := by simp
      rw [hstream, Packet.completas_cons hl rfl, Packet.completas_cons hno rfl, if_pos rfl,
        Packet.pendiente_cons hl rfl, Packet.pendiente_cons hno rfl, hcompletas, List.filter_cons]
      refine ⟨?_, hfin⟩
      by_cases hnil : l = []
      · simp [hnil]
      · simp [hnil]

theorem Cortas.of_append {s x : List Char} (h : Cortas (s ++ x)) : Cortas s := by
  obtain ⟨hlineas, hfin⟩ := cortas_append h
  have hantes := h.1
  rw [completas_append] at hantes
  refine ⟨fun t ht ↦ hantes t (List.mem_append_left _ ht), ?_⟩
  have hlibre := pendiente_mem s
  induction x using linea_induction with
  | fin x hx =>
      rw [pendiente_libre (List.forall_mem_append.mpr ⟨hlibre, hx⟩), List.length_append] at hfin
      omega
  | cons p g x hp hg _ =>
      -- the unfinished run is the start of the next line
      have hlinea : ∀ c ∈ pendiente s ++ p, finLinea c = false :=
        List.forall_mem_append.mpr ⟨hlibre, hp⟩
      by_cases hnil : pendiente s = []
      · rw [hnil]
        exact Nat.zero_le _
      · have hne : pendiente s ++ p ≠ [] := fun h ↦ hnil (List.append_eq_nil_iff.mp h).1
        rw [← List.append_assoc, Packet.completas_cons hlinea hg, if_neg hne] at hlineas
        have hlen := hlineas _ List.mem_cons_self
        rw [List.length_append] at hlen
        omega

/-- The bytes of a stream of short lines, as far as they have been received. -/
theorem cortas_of_comienzo {lineas : List CStr} {s : List Char}
    (h : ∀ l ∈ lineas, l.length ≤ 510 ∧ ∀ c ∈ l, finLinea c = false) (hs : s <+: enLineas lineas) :
    Cortas s := by
  obtain ⟨x, hx⟩ := hs
  refine Cortas.of_append (x := x) ?_
  obtain ⟨hcompletas, hfin⟩ := completas_enLineas fun l hl ↦ (h l hl).2
  rw [hx, Cortas, hcompletas, hfin]
  exact ⟨fun t ht ↦ (h t (List.mem_filter.mp ht).1).1, Nat.zero_le _⟩

section

variable {σ : Type} (parseClient : Cptr σ → Buffer → Fin BUFSIZE → Cptr σ × Buffer × Resultado)
  (parseServer : σ → Buffer → Fin BUFSIZE → σ × Buffer × Resultado) (clientFlood : Nat)

theorem leidos_paso (x : Suceso) (v : Vida σ) :
    v.leidos <+: (paso parseClient parseServer clientFlood x v).leidos := by
  rw [paso]
  split
  · exact List.prefix_rfl
  · split
    · exact List.prefix_append _ _
    · exact List.prefix_rfl

theorem leidos_final (xs : List Suceso) (v : Vida σ) :
    v.leidos <+: (Run.final (paso parseClient parseServer clientFlood) v xs).leidos := by
  induction xs generalizing v with
  | nil => exact List.prefix_rfl
  | cons x xs ih => exact (leidos_paso parseClient parseServer clientFlood x v).trans (ih _)

theorem bien_final {v : Vida σ} (xs : List Suceso) (h : v.Bien)
    (hcortas : Cortas (Run.final (paso parseClient parseServer clientFlood) v xs).leidos)
    (hsegura : Run.EveryStep (paso parseClient parseServer clientFlood) (Segura parseClient) v xs) :
    (Run.final (paso parseClient parseServer clientFlood) v xs).Bien := by
  induction xs generalizing v with
  | nil => exact h
  | cons x xs ih =>
      have hpaso : Cortas (paso parseClient parseServer clientFlood x v).leidos := by
        obtain ⟨y, hy⟩ := leidos_final parseClient parseServer clientFlood xs
          (paso parseClient parseServer clientFlood x v)
        refine Cortas.of_append (x := y) ?_
        rw [hy]
        exact hcortas
      exact ih (Vida.Bien.paso h x hpaso hsegura.1) hcortas hsegura.2

/-- The lines of a stream that have been received are handed over in their order, each once, apart
from those that are queued. -/
def SinPerdida (lineas : List CStr) (v : Vida σ) : Prop :=
  Completa v ∧ completas v.leidos <+: lineas.filter (· ≠ []) ∧
    (v.leidos = enLineas lineas → completas v.leidos = lineas.filter (· ≠ []))

/-- In every run in which the loop makes no unsafe turn, no line is lost. -/
theorem lineas_run (lineas : List CStr)
    (hlineas : ∀ l ∈ lineas, l.length ≤ 510 ∧ ∀ c ∈ l, finLinea c = false) (now : Int) (resto : σ)
    (buffer : Buffer) (consultas : Bool) (xs : List Suceso)
    (hleidos : (Run.final (paso parseClient parseServer clientFlood)
      (acepta now resto buffer consultas) xs).leidos <+: enLineas lineas)
    (hsegura : Run.EveryStep (paso parseClient parseServer clientFlood) (Segura parseClient)
      (acepta now resto buffer consultas) xs) :
    SinPerdida lineas (Run.final (paso parseClient parseServer clientFlood)
      (acepta now resto buffer consultas) xs) := by
  have hinicio : (acepta now resto buffer consultas).Bien := by
    refine ⟨rfl, ⟨[], [], rfl, by simp, by simp, fun _ ↦ rfl⟩, fun _ ↦ rfl, fun h ↦ ?_⟩
    cases h
  have hbien := bien_final parseClient parseServer clientFlood xs hinicio
    (cortas_of_comienzo hlineas hleidos) hsegura
  obtain ⟨hcompletas, -⟩ := completas_enLineas fun l hl ↦ (hlineas l hl).2
  refine ⟨?_, ?_, fun h ↦ by rw [h, hcompletas]⟩
  · rw [Completa]
    rw [Vida.Bien] at hbien
    split
    · trivial
    · next c hc =>
        rw [hc] at hbien
        exact ⟨hbien.lineas, hbien.orden⟩
  · obtain ⟨x, hx⟩ := hleidos
    rw [← hcompletas, ← hx, completas_append]
    exact List.prefix_append _ _

/-- For a connection that does not become a server link the only unsafe turn is the one on an
unfinished line of 510 bytes. -/
theorem prudentes_of_client
    (hparse : ∀ cptr buffer i, cptr.status ≠ .server →
      (parseClient cptr buffer i).1.status ≠ .server)
    (now : Int) {fuel : Nat} {c : Conexion σ} (hstatus : c.cptr.status ≠ .server)
    (hfin : (pendiente c.recvQ).length ≠ 510) : Prudentes parseClient now fuel c := by
  have hprudente : ∀ d : Conexion σ, d.cptr.status ≠ .server → (pendiente d.recvQ).length ≠ 510 →
      Prudente now d :=
    fun d hd hne ↦ ⟨fun _ _ h ↦ hne h.2, fun hserver ↦ absurd hserver hd⟩
  induction fuel generalizing c with
  | zero => exact hprudente c hstatus hfin
  | succ fuel ih =>
      refine ⟨hprudente c hstatus hfin, fun _ _ s hs q hget cptr buffer hsigue ↦ ?_⟩
      have hspec := getmsg_spec c.recvQ
      rw [hget] at hspec
      refine ih ?_ ?_
      · have hne := hparse c.cptr (escribe c.buffer (s ++ [nul])) ⟨s.length, hs⟩ hstatus
        rw [hsigue] at hne
        exact hne
      · show (pendiente q).length ≠ 510
        rw [hspec.2.1]
        exact hfin

end

/-! ## Two runs -/

/-- A parser that does nothing. -/
def calla (cptr : Cptr Unit) (buffer : Buffer) (_ : Fin BUFSIZE) : Cptr Unit × Buffer × Resultado :=
  (cptr, buffer, .sigue)

/-- `calla` for a server link. -/
def callaServer (resto : Unit) (buffer : Buffer) (_ : Fin BUFSIZE) : Unit × Buffer × Resultado :=
  (resto, buffer, .sigue)

/-- A read at the time 0. -/
def lectura (bytes : List Char) : Suceso :=
  .llamada ⟨0, some (.datos bytes), true⟩

/-- Two lines, the first one in two reads. -/
theorem lineas_run_hola :
    SinPerdida ["hola".toList, "adios".toList] (Run.final (paso calla callaServer 1536)
      (acepta 0 () (Vector.replicate _ nul) false)
      [lectura "ho".toList, lectura "la\r\nadios\r\n".toList]) := by
  have hestado : ∀ cptr buffer i, cptr.status ≠ .server →
      (calla cptr buffer i).1.status ≠ .server := fun _ _ _ h ↦ h
  refine lineas_run calla callaServer 1536 _ ?_ 0 () _ false _ ?_ ?_
  · intro l hl
    rcases List.mem_pair.mp hl with rfl | rfl
    · exact ⟨by decide, by simp [finLinea]⟩
    · exact ⟨by decide, by simp [finLinea]⟩
  · exact List.prefix_rfl
  · refine ⟨fun a c ha hc _ _ _ ↦ ?_, fun a c ha hc _ _ _ ↦ ?_, trivial⟩
    · obtain rfl := Suceso.llamada.inj ha
      obtain rfl := Salida.abierta.inj hc
      refine prudentes_of_client calla hestado _ (fun h ↦ by cases h) ?_
      show (pendiente "ho".toList).length ≠ 510
      decide
    · obtain rfl := Suceso.llamada.inj ha
      obtain rfl := Salida.abierta.inj ((show Salida.abierta _ = _ from rfl).trans hc)
      refine prudentes_of_client calla hestado _ (fun h ↦ by cases h) ?_
      show (pendiente "hola\r\nadios\r\n".toList).length ≠ 510
      decide

/-- Nothing has been handed over of a stream that has been received, and nothing is queued. -/
theorem not_sinPerdida {σ : Type} {v : Vida σ} {lineas : List CStr} {c : Conexion σ}
    (hsalida : v.salida = .abierta c) (hcola : c.recvQ = [])
    (hentregas : v.entregas.map Entrega.linea = []) (hleidos : v.leidos = enLineas lineas)
    (hne : lineas.filter (· ≠ []) ≠ []) : ¬SinPerdida lineas v := by
  rintro ⟨hcompleta, -, hstream⟩
  rw [Completa, hsalida] at hcompleta
  have hlineas := hcompleta.1
  rw [hstream hleidos, hentregas, hcola] at hlineas
  exact hne hlineas.symm

/-- A line of 510 bytes that comes without its end. -/
def cortada : Vida Unit :=
  Run.final (paso calla callaServer 1536) (acepta 0 () (Vector.replicate _ nul) false)
    [lectura (List.replicate 510 'x'), lectura "\r\n".toList]

theorem cortada_salida : (match cortada.salida with
    | .abierta c => some c.recvQ
    | .cerrada => none) = some [] := by
  decide +kernel

theorem cortada_entregas : cortada.entregas.isEmpty = true := by
  decide +kernel

/-- The line of 510 bytes is gone. -/
theorem not_lineas_run : ¬SinPerdida [List.replicate 510 'x'] cortada := by
  have hcola := cortada_salida
  cases hsalida : cortada.salida with
  | cerrada =>
      rw [hsalida] at hcola
      cases hcola
  | abierta c =>
      rw [hsalida] at hcola
      have hentregas : cortada.entregas = [] := List.isEmpty_iff.mp cortada_entregas
      exact not_sinPerdida hsalida (Option.some.inj hcola) (by rw [hentregas]; rfl)
        (by decide +kernel) (by decide +kernel)

end Ircd.Bsd
