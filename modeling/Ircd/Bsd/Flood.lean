import Ircd.Bsd.Framing
import Ircd.Hash.Table

/-!
# Flood control

`since` of a connection is the time that its commands have paid for: `parse_client` adds at least
two seconds for a command with `MFLG_SLOW`, `read_packet` raises it to the clock when it receives
data, and its loop goes on while it is less than ten seconds ahead of the clock. The handlers of the
commands are a parameter, and no handler changes `since`. The main theorem, `ritmo_run`, says that a
user with lines that wait is ten seconds ahead, and bounds the commands of a user in a period.
-/

namespace Ircd.Bsd

open CString
open Dbuf (isEol)
open Hash (strCasediff)
open Packet (Buffer Resultado READBUF completas pendiente)

/-! ## The commands -/

/-- `MFLG_SLOW`. -/
def MFLG_SLOW : Nat := 1

/-- `MFLG_UNREG`. -/
def MFLG_UNREG : Nat := 2

/-- An entry of `msgtab`, without what the parser counts. -/
structure Mensaje where
  cmd : CStr
  flags : Nat

/-- `msgtab`, with `ESNET_NEG`. -/
def msgtab : List Mensaje :=
  [⟨"PRIVMSG".toList, MFLG_SLOW⟩, ⟨"NICK".toList, MFLG_SLOW ||| MFLG_UNREG⟩,
   ⟨"NOTICE".toList, MFLG_SLOW⟩, ⟨"WALLCHOPS".toList, MFLG_SLOW⟩, ⟨"CPRIVMSG".toList, MFLG_SLOW⟩,
   ⟨"CNOTICE".toList, MFLG_SLOW⟩, ⟨"JOIN".toList, MFLG_SLOW⟩, ⟨"MODE".toList, MFLG_SLOW⟩,
   ⟨"BURST".toList, MFLG_SLOW⟩, ⟨"CREATE".toList, MFLG_SLOW⟩, ⟨"DESTRUCT".toList, MFLG_SLOW⟩,
   ⟨"QUIT".toList, MFLG_SLOW ||| MFLG_UNREG⟩, ⟨"PART".toList, MFLG_SLOW⟩,
   ⟨"TOPIC".toList, MFLG_SLOW⟩, ⟨"INVITE".toList, MFLG_SLOW⟩, ⟨"KICK".toList, MFLG_SLOW⟩,
   ⟨"WALLOPS".toList, MFLG_SLOW⟩, ⟨"DESYNCH".toList, MFLG_SLOW⟩, ⟨"PING".toList, MFLG_SLOW⟩,
   ⟨"PONG".toList, MFLG_SLOW ||| MFLG_UNREG⟩, ⟨"ERROR".toList, MFLG_SLOW ||| MFLG_UNREG⟩,
   ⟨"KILL".toList, MFLG_SLOW⟩, ⟨"USER".toList, MFLG_SLOW ||| MFLG_UNREG⟩,
   ⟨"AWAY".toList, MFLG_SLOW⟩, ⟨"ISON".toList, MFLG_SLOW⟩,
   ⟨"SERVER".toList, MFLG_SLOW ||| MFLG_UNREG⟩, ⟨"SQUIT".toList, MFLG_SLOW⟩,
   ⟨"WHOIS".toList, MFLG_SLOW⟩, ⟨"WHO".toList, MFLG_SLOW⟩, ⟨"WHOWAS".toList, MFLG_SLOW⟩,
   ⟨"LIST".toList, MFLG_SLOW⟩, ⟨"NAMES".toList, MFLG_SLOW⟩, ⟨"USERHOST".toList, MFLG_SLOW⟩,
   ⟨"USERIP".toList, MFLG_SLOW⟩, ⟨"TRACE".toList, MFLG_SLOW⟩,
   ⟨"PASS".toList, MFLG_SLOW ||| MFLG_UNREG⟩, ⟨"LUSERS".toList, MFLG_SLOW⟩,
   ⟨"USERS".toList, MFLG_SLOW⟩, ⟨"TIME".toList, MFLG_SLOW⟩, ⟨"SETTIME".toList, MFLG_SLOW⟩,
   ⟨"RPING".toList, MFLG_SLOW⟩, ⟨"RPONG".toList, MFLG_SLOW⟩, ⟨"OPER".toList, MFLG_SLOW⟩,
   ⟨"CONNECT".toList, MFLG_SLOW⟩, ⟨"UPING".toList, MFLG_SLOW⟩, ⟨"MAP".toList, MFLG_SLOW⟩,
   ⟨"VERSION".toList, MFLG_SLOW ||| MFLG_UNREG⟩, ⟨"STATS".toList, MFLG_SLOW⟩,
   ⟨"LINKS".toList, MFLG_SLOW⟩, ⟨"ADMIN".toList, MFLG_SLOW ||| MFLG_UNREG⟩,
   ⟨"HELP".toList, MFLG_SLOW⟩, ⟨"INFO".toList, MFLG_SLOW⟩, ⟨"MOTD".toList, MFLG_SLOW⟩,
   ⟨"CLOSE".toList, MFLG_SLOW⟩, ⟨"SILENCE".toList, MFLG_SLOW⟩, ⟨"GLINE".toList, MFLG_SLOW⟩,
   ⟨"END_OF_BURST".toList, MFLG_SLOW⟩, ⟨"EOB_ACK".toList, 1⟩,
   ⟨"HASH".toList, MFLG_SLOW ||| MFLG_UNREG⟩, ⟨"DNS".toList, MFLG_SLOW⟩,
   ⟨"REHASH".toList, MFLG_SLOW⟩, ⟨"RESTART".toList, MFLG_SLOW⟩, ⟨"DIE".toList, MFLG_SLOW⟩,
   ⟨"DB".toList, MFLG_SLOW⟩, ⟨"DBQ".toList, MFLG_SLOW⟩, ⟨"BMODE".toList, MFLG_SLOW⟩,
   ⟨"OPMODE".toList, MFLG_SLOW⟩, ⟨"GHOST".toList, MFLG_SLOW⟩,
   ⟨"CONFIG".toList, MFLG_SLOW ||| MFLG_UNREG⟩, ⟨"SVSNICK".toList, MFLG_SLOW⟩,
   ⟨"SVSMODE".toList, MFLG_SLOW⟩, ⟨"SVSJOIN".toList, MFLG_SLOW⟩, ⟨"SVSPART".toList, MFLG_SLOW⟩,
   ⟨"WATCH".toList, MFLG_SLOW⟩, ⟨"WEBIRC".toList, MFLG_SLOW ||| MFLG_UNREG⟩,
   ⟨"PROXY".toList, MFLG_SLOW ||| MFLG_UNREG⟩, ⟨"PRIVS".toList, MFLG_SLOW⟩,
   ⟨"SPAM".toList, MFLG_SLOW⟩]

/-- `msg_tree_parse_client`. -/
def busca (cmd : CStr) : Option Mensaje :=
  msgtab.find? fun m ↦ strCasediff m.cmd cmd = 0

/-- `mptr->flags & MFLG_SLOW`. -/
def Mensaje.lento (m : Mensaje) : Bool :=
  m.flags &&& MFLG_SLOW ≠ 0

/-- `mptr->flags & MFLG_UNREG`. -/
def Mensaje.unreg (m : Mensaje) : Bool :=
  m.flags &&& MFLG_UNREG ≠ 0

/-! ## `parse_client` -/

/-- A line behind its blanks and a sender. -/
def sinPrefijo (buffer : CStr) : CStr :=
  match buffer.dropWhile (· = ' ') with
  | ':' :: ch => (ch.dropWhile (· ≠ ' ')).dropWhile (· = ' ')
  | ch => ch

/-- What `parse_client` makes of a line: there is nothing, an unknown command, or a command with the
bytes `i` from its parameters to the end. -/
inductive Orden where
  | nada
  | desconocida
  | mensaje (m : Mensaje) (i : Nat)

/-- The head of `parse_client` on a text that stands in the buffer, with `bufend`. -/
def orden (buffer : CStr) (bufend : Nat) : Orden :=
  let ch := sinPrefijo buffer
  let s := ch.dropWhile (· ≠ ' ')
  if ch = [] then .nada
  else
    match busca (ch.takeWhile (· ≠ ' ')) with
    | none => .desconocida
    | some m => .mensaje m (bufend - (buffer.length - (if s = [] then ch else s.tail).length))

/-- What a command adds to `since`. -/
def Orden.cargo : Orden → Nat
  | .mensaje m i => if m.lento then 2 + i / 120 else 0
  | _ => 0

/-- `parse_client`. `efecto` is what the handler of a command does, or what comes of a line that has
none, or of a command that is refused. -/
def parseClient {σ : Type} (efecto : Orden → Cptr σ → Buffer → Cptr σ × Buffer × Resultado)
    (cptr : Cptr σ) (buffer : Buffer) (bufend : Fin BUFSIZE) : Cptr σ × Buffer × Resultado :=
  let o := orden (buffer.toList.takeWhile (· ≠ nul)) bufend
  let cptr := { cptr with since := cptr.since + o.cargo }
  let r := efecto o cptr buffer
  match o with
  | .mensaje m _ =>
      if cptr.status ≠ .user ∧ m.unreg = false then ({ cptr with resto := r.1.resto }, r.2)
      else ({ r.1 with since := cptr.since }, r.2)
  | _ => ({ cptr with resto := r.1.resto }, r.2)

/-- What `parse_client` makes of a line that `dbuf_getmsg` has taken from the queue. -/
def ordenDe (linea : CStr) : Orden :=
  orden (linea.takeWhile (· ≠ nul)) linea.length

/-- The line is a command with `MFLG_SLOW`. -/
def lenta (linea : CStr) : Bool :=
  match ordenDe linea with
  | .mensaje m _ => m.lento
  | _ => false

/-! ## What is to hold -/

section

variable {σ : Type}

/-- A command with `MFLG_SLOW` that an ordinary user has given in a period. -/
def Entrega.cuenta (desde : Int) (T : Nat) : Entrega σ → Bool
  | .client now cptr linea =>
      cptr.status = .user ∧ cptr.exento = false ∧ lenta linea ∧ desde ≤ now ∧ now ≤ desde + T
  | .server _ => false

/-- A line of a user that waits has ten seconds to wait, and in `T` seconds there are at most
`(T + 12) / 2` commands of a user. -/
def Limitada (v : Vida σ) : Prop :=
  (∀ c, v.salida = .abierta c → c.cptr.status = .user →
      completas c.recvQ = [] ∨ v.reloj + 10 ≤ c.cptr.since) ∧
    ∀ desde (T : Nat), 2 * (v.entregas.filter (Entrega.cuenta desde T)).length ≤ T + 12

/-- The calls have data or come from the timer, the clock does not go back, and it is at most two
seconds ahead of the last call where a line waits. -/
def Ritmo (x : Suceso) (v : Vida σ) : Prop :=
  ∀ a c, x = .llamada a → v.salida = .abierta c →
    v.reloj ≤ a.now ∧ (completas c.recvQ ≠ [] → a.now ≤ v.reloj + 2) ∧
      (a.ready = none ∧ c.evtimer ≠ none ∨ ∃ bytes, bytes ≠ [] ∧ a.ready = some (.datos bytes))

/-! ## What a line costs -/

/-- The commands for clients that are not registered are slow. -/
theorem lento_of_unreg {m : Mensaje} (hm : m ∈ msgtab) (h : m.unreg = true) : m.lento = true := by
  have hall : msgtab.all (fun m ↦ !m.unreg || m.lento) = true := by decide
  have hmem := List.all_eq_true.mp hall m hm
  rw [h] at hmem
  simpa using hmem

theorem mem_of_orden {buffer : CStr} {bufend i : Nat} {m : Mensaje}
    (h : orden buffer bufend = .mensaje m i) : m ∈ msgtab := by
  simp only [orden] at h
  split_ifs at h
  all_goals
    split at h
    · cases h
    · next hbusca =>
        obtain ⟨rfl, -⟩ := Orden.mensaje.inj h
        exact List.mem_of_find?_eq_some hbusca

theorem two_le_cargo {linea : CStr} (h : lenta linea = true) : 2 ≤ (ordenDe linea).cargo := by
  rw [lenta] at h
  split at h
  · next m i heq =>
      rw [heq, Orden.cargo, if_pos h]
      exact Nat.le_add_right 2 _
  · cases h

theorem takeWhile_append_nul (s t : CStr) :
    (s ++ nul :: t).takeWhile (· ≠ nul) = s.takeWhile (· ≠ nul) := by
  induction s with
  | nil => simp
  | cons c s ih =>
      rw [List.cons_append, List.takeWhile_cons, List.takeWhile_cons, ih]

/-- A line in a buffer, up to its terminator. -/
theorem takeWhile_escribe (buffer : Buffer) {s : CStr} (h : s.length < BUFSIZE) :
    (escribe buffer (s ++ [nul])).toList.takeWhile (· ≠ nul) = s.takeWhile (· ≠ nul) := by
  have hlen : (s ++ [nul]).length ≤ BUFSIZE := by
    rw [List.length_append, List.length_singleton]
    exact h
  rw [toList_escribe hlen, Dbuf.escribe, List.take_zero, List.nil_append, List.append_assoc]
  exact takeWhile_append_nul s _

/-- `parse_client` adds what a line costs to `since`, and a line that registers a user costs two
seconds at least. -/
theorem parseClient_spec (efecto : Orden → Cptr σ → Buffer → Cptr σ × Buffer × Resultado)
    (cptr : Cptr σ) (buffer : Buffer) {s : CStr} (h : s.length < BUFSIZE) :
    (parseClient efecto cptr (escribe buffer (s ++ [nul])) ⟨s.length, h⟩).1.since =
        cptr.since + (ordenDe s).cargo ∧
      (cptr.status ≠ .user →
        (parseClient efecto cptr (escribe buffer (s ++ [nul])) ⟨s.length, h⟩).1.status = .user →
          2 ≤ (ordenDe s).cargo) := by
  have horden : orden ((escribe buffer (s ++ [nul])).toList.takeWhile (· ≠ nul)) s.length =
      ordenDe s := by
    rw [takeWhile_escribe buffer h]
    rfl
  simp only [parseClient, horden]
  cases ho : ordenDe s with
  | nada => exact ⟨rfl, fun hno hsi ↦ absurd hsi hno⟩
  | desconocida => exact ⟨rfl, fun hno hsi ↦ absurd hsi hno⟩
  | mensaje m i =>
      dsimp only
      split_ifs with hrefusa
      · exact ⟨rfl, fun hno hsi ↦ absurd hsi hno⟩
      · refine ⟨rfl, fun hno _ ↦ ?_⟩
        have hunreg : m.unreg = true := by
          by_contra hm
          exact hrefusa ⟨hno, Bool.not_eq_true _ ▸ hm⟩
        rw [Orden.cargo, if_pos (lento_of_unreg (mem_of_orden ho) hunreg)]
        exact Nat.le_add_right 2 _

/-! ## What has been paid for -/

/-- A line is handed over when those before it have been paid for. -/
def Entrega.Paga : Entrega σ → Entrega σ → Prop
  | .client _ cptr linea, .client _ cptr' _ => cptr.since + (ordenDe linea).cargo ≤ cptr'.since
  | _, _ => True

/-- A line has been paid for. -/
def Entrega.Pagada (since : Int) : Entrega σ → Prop
  | .client _ cptr linea => cptr.since + (ordenDe linea).cargo ≤ since
  | .server _ => True

/-- A line of an ordinary user is handed over when the user is not behind the clock and less than
ten seconds ahead of it. -/
def Entrega.Puntual : Entrega σ → Prop
  | .client now cptr _ => cptr.status = .user → cptr.exento = false →
      now ≤ cptr.since ∧ cptr.since - now < 10
  | .server _ => True

/-- The lines that have been handed over. -/
structure Cuentas (entregas : List (Entrega σ)) (since : Int) : Prop where
  paga : entregas.Pairwise Entrega.Paga
  pagada : ∀ e ∈ entregas, e.Pagada since
  puntual : ∀ e ∈ entregas, e.Puntual

variable {entregas : List (Entrega σ)} {since : Int}

theorem Entrega.Pagada.mono {e : Entrega σ} {since' : Int} (h : e.Pagada since)
    (hle : since ≤ since') : e.Pagada since' := by
  cases e with
  | client now cptr linea => exact Int.le_trans h hle
  | server linea => trivial

theorem Cuentas.mono {since' : Int} (h : Cuentas entregas since) (hle : since ≤ since') :
    Cuentas entregas since' :=
  ⟨h.paga, fun e he ↦ (h.pagada e he).mono hle, h.puntual⟩

theorem Cuentas.client (h : Cuentas entregas since) {now : Int} {cptr : Cptr σ} {linea : CStr}
    (hsince : since ≤ cptr.since) (hpuntual : Entrega.Puntual (.client now cptr linea)) :
    Cuentas (entregas ++ [.client now cptr linea]) (cptr.since + (ordenDe linea).cargo) := by
  refine ⟨List.pairwise_append.mpr ⟨h.paga, List.pairwise_singleton _ _, fun e he x hx ↦ ?_⟩,
    fun e he ↦ ?_, fun e he ↦ ?_⟩
  · obtain rfl := List.mem_singleton.mp hx
    have hpagada := (h.pagada e he).mono hsince
    cases e with
    | client now' cptr' linea' => exact hpagada
    | server linea' => trivial
  · rcases List.mem_append.mp he with he | he
    · exact (h.pagada e he).mono (by omega)
    · obtain rfl := List.mem_singleton.mp he
      exact Int.le_refl _
  · rcases List.mem_append.mp he with he | he
    · exact h.puntual e he
    · obtain rfl := List.mem_singleton.mp he
      exact hpuntual

theorem Cuentas.server (h : Cuentas entregas since) (lineas : List CStr) :
    Cuentas (entregas ++ lineas.map .server) since := by
  have hserver : ∀ e : Entrega σ, e ∈ lineas.map .server → ∃ s, e = .server s := fun e he ↦ by
    obtain ⟨s, -, rfl⟩ := List.mem_map.mp he
    exact ⟨s, rfl⟩
  refine ⟨List.pairwise_append.mpr ⟨h.paga, ?_, fun e _ x hx ↦ ?_⟩, fun e he ↦ ?_, fun e he ↦ ?_⟩
  · rw [List.pairwise_map]
    exact List.pairwise_of_forall fun _ _ ↦ trivial
  · obtain ⟨s, rfl⟩ := hserver x hx
    cases e <;> trivial
  · rcases List.mem_append.mp he with he | he
    · exact h.pagada e he
    · obtain ⟨s, rfl⟩ := hserver e he
      trivial
  · rcases List.mem_append.mp he with he | he
    · exact h.puntual e he
    · obtain ⟨s, rfl⟩ := hserver e he
      trivial

/-- What had been paid for at a line. -/
def Entrega.marca : Entrega σ → Int
  | .client _ cptr _ => cptr.since
  | .server _ => 0

/-- Times that are two seconds apart, in a period. -/
theorem length_of_espaciados {l : List Int} {desde hasta : Int} (hle : desde ≤ hasta + 2)
    (hpar : l.Pairwise fun x y ↦ x + 2 ≤ y) (h : ∀ x ∈ l, desde ≤ x ∧ x ≤ hasta) :
    2 * (l.length : Int) ≤ hasta - desde + 2 := by
  induction l generalizing desde with
  | nil =>
      show 2 * (0 : Int) ≤ _
      omega
  | cons x l ih =>
      obtain ⟨hx, hl⟩ := List.pairwise_cons.mp hpar
      obtain ⟨hdesde, hhasta⟩ := h x List.mem_cons_self
      have hrest := @ih (x + 2) (by omega) hl fun y hy ↦
        ⟨hx y hy, (h y (List.mem_cons_of_mem x hy)).2⟩
      rw [List.length_cons]
      push_cast
      omega

/-- What has been paid for bounds the commands in a period. -/
theorem Cuentas.limite (h : Cuentas entregas since) (desde : Int) (T : Nat) :
    2 * (entregas.filter (Entrega.cuenta desde T)).length ≤ T + 12 := by
  obtain ⟨es, hes⟩ : ∃ es, entregas.filter (Entrega.cuenta desde T) = es := ⟨_, rfl⟩
  have hcuenta : ∀ e ∈ es, e ∈ entregas ∧ e.cuenta desde T = true := fun e he ↦ by
    rw [← hes] at he
    exact List.mem_filter.mp he
  have hpar : (es.map Entrega.marca).Pairwise fun x y ↦ x + 2 ≤ y := by
    rw [List.pairwise_map]
    have hpaga : es.Pairwise Entrega.Paga := by
      rw [← hes]
      exact h.paga.filter _
    refine hpaga.imp_of_mem fun {e e'} he he' hee' ↦ ?_
    cases e with
    | server s => cases (hcuenta _ he).2
    | client now cptr linea =>
        cases e' with
        | server s => cases (hcuenta _ he').2
        | client now' cptr' linea' =>
            have hlenta : lenta linea = true := (of_decide_eq_true (hcuenta _ he).2).2.2.1
            have hcargo := two_le_cargo hlenta
            have hsince : cptr.since + (ordenDe linea).cargo ≤ cptr'.since := hee'
            show cptr.since + 2 ≤ cptr'.since
            omega
  have hentre : ∀ x ∈ es.map Entrega.marca, desde ≤ x ∧ x ≤ desde + T + 9 := fun x hx ↦ by
    obtain ⟨e, he, rfl⟩ := List.mem_map.mp hx
    obtain ⟨hmem, hsi⟩ := hcuenta e he
    cases e with
    | server s => cases hsi
    | client now cptr linea =>
        obtain ⟨huser, hexento, -, hdesde, hhasta⟩ := of_decide_eq_true hsi
        obtain ⟨hclock, hahead⟩ := h.puntual _ hmem huser hexento
        show desde ≤ cptr.since ∧ cptr.since ≤ desde + T + 9
        omega
  have hlen := length_of_espaciados (by omega) hpar hentre
  rw [List.length_map] at hlen
  rw [hes]
  omega

/-! ## One call -/

variable {efecto : Orden → Cptr σ → Buffer → Cptr σ × Buffer × Resultado}
  {parseServer : σ → Buffer → Fin BUFSIZE → σ × Buffer × Resultado} {now reloj : Int}
  {c : Conexion σ} {bytes : List Char} {clientFlood : Nat}

/-- A connection after a call at a time: what waits has been received by then, and a user with lines
that wait is ten seconds ahead. -/
structure Puntual (entregas : List (Entrega σ)) (reloj : Int) (c : Conexion σ) : Prop where
  cuentas : Cuentas entregas c.cptr.since
  consultas : c.consultas = true → c.cptr.status = .unknown ∧ c.evtimer = none
  nonl : c.nonl = true → completas c.recvQ = []
  espera : completas c.recvQ ≠ [] → c.cptr.status ≠ .server → reloj ≤ c.cptr.since
  user : completas c.recvQ ≠ [] → c.cptr.status = .user → reloj + 10 ≤ c.cptr.since

/-- A connection with what it does behind `recv`: what has been received waits at most two seconds,
and a user is not behind the clock. -/
structure Listo (now : Int) (bytes : List Char) (c : Conexion σ) : Prop where
  consultas : c.consultas = true → c.cptr.status = .unknown ∧ c.evtimer = none ∧ now ≤ c.cptr.since
  nonl : c.nonl = true → completas (c.recvQ ++ bytes) = []
  espera : completas (c.recvQ ++ bytes) ≠ [] → c.cptr.status ≠ .server → now ≤ c.cptr.since + 2
  user : completas (c.recvQ ++ bytes) ≠ [] → c.cptr.status = .user → now ≤ c.cptr.since

/-- `Puntual`, or only what has been paid for once the connection is closed. -/
def Salida.Puntual (entregas : List (Entrega σ)) (reloj : Int) : Salida σ → Prop
  | .abierta c => Bsd.Puntual entregas reloj c
  | .cerrada => ∃ since, Cuentas entregas since

/-- `Puntual` behind the loop, where nothing is looked up. -/
def Salida.Hecha (entregas : List (Entrega σ)) (reloj : Int) : Salida σ → Prop
  | .abierta c => Bsd.Puntual entregas reloj c ∧ c.consultas = false
  | .cerrada => ∃ since, Cuentas entregas since

theorem Salida.Hecha.programa {r : Salida σ} (h : r.Hecha entregas reloj) :
    (r.programa now).Puntual entregas reloj := by
  cases r with
  | cerrada => exact h
  | abierta c =>
      obtain ⟨hpuntual, hconsultas⟩ := h
      show Bsd.Puntual entregas reloj (c.programa now)
      rw [Conexion.programa]
      split
      · refine ⟨hpuntual.cuentas, fun hsi ↦ ?_, hpuntual.nonl, hpuntual.espera, hpuntual.user⟩
        rw [show c.consultas = true from hsi] at hconsultas
        cases hconsultas
      · exact hpuntual

/-- A connection that has nothing looked up and no line that waits. -/
theorem puntual_of_completas (h : Cuentas entregas c.cptr.since) (hconsultas : c.consultas = false)
    (hnil : completas c.recvQ = []) : Puntual entregas reloj c := by
  refine ⟨h, fun hsi ↦ ?_, fun _ ↦ hnil, fun hne ↦ absurd hnil hne, fun hne ↦ absurd hnil hne⟩
  rw [hsi] at hconsultas
  cases hconsultas

/-- A server link. -/
theorem alServidor_hecha (h : Cuentas entregas c.cptr.since) (hstatus : c.cptr.status = .server)
    (hconsultas : c.consultas = false) (hnonl : c.nonl = true → completas c.recvQ = []) :
    (alServidor parseServer bytes c).2.Hecha (entregas ++ (alServidor parseServer bytes c).1)
      now := by
  rw [alServidor]
  generalize Packet.dopacket parseServer ⟨c.cptr.resto, c.buffer, c.count⟩ bytes = r
  obtain ⟨traza, e | mundo⟩ := r
  · have hcuentas := h.server (traza.map Prod.fst)
    rw [List.map_map] at hcuentas
    refine ⟨⟨hcuentas, fun hsi ↦ ?_, hnonl, fun _ hno ↦ absurd hstatus hno, fun _ huser ↦ ?_⟩,
      hconsultas⟩
    · rw [show c.consultas = true from hsi] at hconsultas
      cases hconsultas
    · rw [show c.cptr.status = .user from huser] at hstatus
      cases hstatus
  · have hcuentas := h.server (traza.map Prod.fst)
    rw [List.map_map] at hcuentas
    exact ⟨_, hcuentas⟩

/-- The loop stops when no line waits or the connection is ten seconds ahead. -/
theorem puntual_of_not_sigue (h : Cuentas entregas c.cptr.since) (hconsultas : c.consultas = false)
    (hnonl : c.nonl = true → completas c.recvQ = []) (hsigue : c.sigue now ≠ true) :
    Puntual entregas now c := by
  by_cases hnil : completas c.recvQ = []
  · exact puntual_of_completas h hconsultas hnil
  · have hcola : c.recvQ ≠ [] := fun hq ↦ hnil (by rw [hq]; rfl)
    have hno : c.nonl = false := by
      cases hn : c.nonl with
      | false => rfl
      | true => exact absurd (hnonl hn) hnil
    have hlejos : now + 10 ≤ c.cptr.since := by
      by_contra hcerca
      refine hsigue (decide_eq_true ⟨hcola, hno, Or.inr ?_⟩)
      omega
    refine ⟨h, fun hsi ↦ ?_, fun hsi ↦ ?_, fun _ _ ↦ by omega, fun _ _ ↦ hlejos⟩
    · rw [hsi] at hconsultas
      cases hconsultas
    · rw [hsi] at hno
      cases hno

/-- The loop. -/
theorem bucle_hecha {fuel : Nat} (h : Cuentas entregas c.cptr.since)
    (hconsultas : c.consultas = false) (hnonl : c.nonl = true → completas c.recvQ = []) (hfuel : c.recvQ.length ≤ fuel)
    (hespera : completas c.recvQ ≠ [] → c.cptr.status ≠ .server → now ≤ c.cptr.since + 2)
    (huser : completas c.recvQ ≠ [] → c.cptr.status = .user → now ≤ c.cptr.since) :
    (bucle (parseClient efecto) parseServer now fuel c).2.Hecha
      (entregas ++ (bucle (parseClient efecto) parseServer now fuel c).1) now := by
  induction fuel generalizing c entregas with
  | zero =>
      have hcola : c.recvQ = [] := List.eq_nil_of_length_eq_zero (Nat.le_zero.mp hfuel)
      rw [bucle, List.append_nil]
      exact ⟨puntual_of_completas h hconsultas (by rw [hcola]; rfl), hconsultas⟩
  | succ fuel ih =>
      rw [bucle]
      by_cases hsigue : c.sigue now = true
      swap
      · rw [if_neg hsigue, List.append_nil]
        exact ⟨puntual_of_not_sigue h hconsultas hnonl hsigue, hconsultas⟩
      obtain ⟨-, hno, hcerca⟩ := of_decide_eq_true hsigue
      rw [if_pos hsigue]
      by_cases hstatus : c.cptr.status = .server
      · rw [if_pos hstatus]
        refine alServidor_hecha h hstatus hconsultas fun hsi ↦ ?_
        rw [show c.nonl = true from hsi] at hno
        cases hno
      · rw [if_neg hstatus]
        have hspec := getmsg_spec c.recvQ
        cases hget : getmsg c.recvQ with
        | nada copiado q =>
            rw [hget] at hspec
            obtain ⟨hcompletas, -, hlibre⟩ := hspec
            dsimp only
            split_ifs with hlt
            · rw [List.append_nil]
              have hall : ∀ x ∈ q, finLinea x = false := by
                rw [List.take_of_length_le (by show q.length ≤ 512; omega)] at hlibre
                exact hlibre
              exact ⟨puntual_of_completas h hconsultas (completas_libre hall), hconsultas⟩
            · rw [List.append_nil]
              exact ⟨puntual_of_completas h hconsultas rfl, hconsultas⟩
        | linea s hs q =>
            rw [hget] at hspec
            have hcompletas : completas c.recvQ = s :: completas q := hspec.1
            have hlen : q.length < c.recvQ.length := hspec.2.2
            have hne : completas c.recvQ ≠ [] := by
              rw [hcompletas]
              exact List.cons_ne_nil _ _
            have hcuentas : Cuentas (entregas ++ [.client now c.cptr s])
                (c.cptr.since + (ordenDe s).cargo) := h.client (Int.le_refl _)
              fun hu hexento ↦ ⟨huser hne hu, hcerca.resolve_left (by rw [hexento]; simp)⟩
            have hparse := parseClient_spec efecto c.cptr c.buffer hs
            have hdos := hespera hne hstatus
            dsimp only
            generalize parseClient efecto c.cptr (escribe c.buffer (s ++ [nul])) ⟨s.length, hs⟩ = r
              at hparse ⊢
            obtain ⟨cptr, buffer, resultado⟩ := r
            cases resultado with
            | sigue =>
                have hsince : cptr.since = c.cptr.since + (ordenDe s).cargo := hparse.1
                rw [← hsince] at hcuentas
                have hrest := @ih _ { c with cptr := cptr, buffer := buffer,
                                             count := ⟨0, Packet.zero_lt_BUFSIZE⟩, recvQ := q }
                  hcuentas hconsultas ?_ (Nat.le_of_lt_succ (hlen.trans_le hfuel)) ?_ ?_
                · rw [List.append_assoc] at hrest
                  exact hrest
                · intro hsi
                  rw [show c.nonl = true from hsi] at hno
                  cases hno
                · intro _ _
                  show now ≤ cptr.since + 2
                  omega
                · intro _ hu
                  show now ≤ cptr.since
                  by_cases hya : c.cptr.status = .user
                  · have hclock := huser hne hya
                    omega
                  · have hcargo := hparse.2 hya hu
                    omega
            | killed => exact ⟨_, hcuentas⟩
            | dead => exact ⟨_, hcuentas⟩

theorem completas_of_append (h : completas (c.recvQ ++ bytes) = []) : completas c.recvQ = [] := by
  rw [completas_append] at h
  exact (List.append_eq_nil_iff.mp h).1

/-- `read_packet` behind the call of `recv`. -/
theorem procesa_puntual (h : Cuentas entregas c.cptr.since) (hlisto : Listo now bytes c)
    (cabe : Bool) :
    (procesa (parseClient efecto) parseServer clientFlood now cabe bytes c).2.Puntual
      (entregas ++ (procesa (parseClient efecto) parseServer clientFlood now cabe bytes c).1)
      now := by
  rw [procesa]
  by_cases hstatus : c.cptr.status = .server
  · rw [if_pos hstatus]
    have hconsultas : c.consultas = false := by
      cases hsi : c.consultas with
      | false => rfl
      | true =>
          have hunknown := (hlisto.consultas hsi).1
          rw [hstatus] at hunknown
          cases hunknown
    have hnonl : c.nonl = true → completas c.recvQ = [] :=
      fun hsi ↦ completas_of_append (hlisto.nonl hsi)
    refine Salida.Hecha.programa ?_
    split
    · exact alServidor_hecha h hstatus hconsultas hnonl
    · rw [List.append_nil]
      refine ⟨⟨h, fun hsi ↦ ?_, hnonl, fun _ hno ↦ absurd hstatus hno, fun _ huser ↦ ?_⟩,
        hconsultas⟩
      · rw [hsi] at hconsultas
        cases hconsultas
      · rw [huser] at hstatus
        cases hstatus
  · rw [if_neg hstatus]
    dsimp only
    split_ifs with hcabe hconsultas
    · rw [List.append_nil]
      obtain ⟨hunknown, htimer, hclock⟩ := hlisto.consultas hconsultas
      refine ⟨h, fun _ ↦ ⟨hunknown, htimer⟩, hlisto.nonl, fun _ _ ↦ hclock, fun _ huser ↦ ?_⟩
      rw [show c.cptr.status = .user from huser] at hunknown
      cases hunknown
    · rw [List.append_nil]
      exact ⟨_, h⟩
    · have hno : c.consultas = false := Bool.not_eq_true _ ▸ hconsultas
      exact Salida.Hecha.programa (bucle_hecha (c := { c with recvQ := c.recvQ ++ bytes }) h hno
        hlisto.nonl (Nat.le_refl _) hlisto.espera hlisto.user)
    · rw [List.append_nil]
      exact ⟨_, h⟩

theorem Conexion.recibe_since (c : Conexion σ) (now : Int) :
    now ≤ (c.recibe now).cptr.since ∧ c.cptr.since ≤ (c.recibe now).cptr.since := by
  show now ≤ (if c.cptr.since < now then now else c.cptr.since) ∧
    c.cptr.since ≤ if c.cptr.since < now then now else c.cptr.since
  split
  · omega
  · omega

/-- A call of `read_packet` that has no data, or does not read it. -/
theorem Puntual.sinDatos (h : Puntual entregas reloj c)
    (hespera : completas c.recvQ ≠ [] → now ≤ reloj + 2) (hconsultas : c.consultas = false) :
    Listo now [] c := by
  refine ⟨fun hsi ↦ ?_, ?_, ?_, ?_⟩
  · rw [hsi] at hconsultas
    cases hconsultas
  · rw [List.append_nil]
    exact h.nonl
  · rw [List.append_nil]
    intro hne hstatus
    have hclock := hespera hne
    have hsince := h.espera hne hstatus
    omega
  · rw [List.append_nil]
    intro hne huser
    have hclock := hespera hne
    have hsince := h.user hne huser
    omega

/-- A call of `read_packet`. -/
theorem readPacket_puntual {a : Aviso} (h : Puntual entregas reloj c)
    (hespera : completas c.recvQ ≠ [] → a.now ≤ reloj + 2)
    (hready : a.ready = none ∧ c.consultas = false ∨
      ∃ bytes, bytes ≠ [] ∧ a.ready = some (.datos bytes)) :
    (readPacket (parseClient efecto) parseServer clientFlood a c).2.Puntual
      (entregas ++ (readPacket (parseClient efecto) parseServer clientFlood a c).1) a.now := by
  rw [readPacket]
  rcases hready with ⟨hnone, hconsultas⟩ | ⟨bytes, hbytes, hdatos⟩
  · rw [hnone, ite_self]
    exact procesa_puntual h.cuentas (h.sinDatos hespera hconsultas) a.cabe
  · cases hlee : c.lee with
    | true =>
        rw [if_pos rfl, hdatos]
        dsimp only
        rw [if_neg hbytes]
        obtain ⟨hnow, hsince⟩ := c.recibe_since a.now
        refine procesa_puntual (h.cuentas.mono hsince) ⟨fun hsi ↦ ?_, fun hsi ↦ ?_, fun _ _ ↦ ?_,
          fun _ _ ↦ hnow⟩ a.cabe
        · exact ⟨(h.consultas hsi).1, (h.consultas hsi).2, hnow⟩
        · cases hsi
        · omega
    | false =>
        -- only a user is not read
        have huser : c.cptr.status = .user := by
          rw [Conexion.lee, Bool.not_eq_false'] at hlee
          exact (of_decide_eq_true hlee).1
        have hconsultas : c.consultas = false := by
          cases hsi : c.consultas with
          | false => rfl
          | true =>
              have hunknown := (h.consultas hsi).1
              rw [huser] at hunknown
              cases hunknown
        rw [if_neg Bool.false_ne_true]
        exact procesa_puntual h.cuentas (h.sinDatos hespera hconsultas) a.cabe

/-! ## The life of a connection -/

/-- `Puntual` for the life of a connection. -/
def Vida.Puntual (v : Vida σ) : Prop :=
  v.salida.Puntual v.entregas v.reloj

theorem Vida.Puntual.paso {v : Vida σ} (h : v.Puntual) (x : Suceso) (hritmo : Ritmo x v) :
    (paso (parseClient efecto) parseServer clientFlood x v).Puntual := by
  obtain ⟨salida, entregas, leidos, reloj⟩ := v
  cases salida with
  | cerrada => exact h
  | abierta c =>
      have hc : Bsd.Puntual entregas reloj c := h
      cases x with
      | resuelve now buffer =>
          show Bsd.Puntual entregas reloj (c.resuelve now buffer)
          rw [Conexion.resuelve]
          split
          · refine ⟨hc.cuentas, fun hsi ↦ ?_, hc.nonl, hc.espera, hc.user⟩
            cases hsi
          · exact hc
      | llamada a =>
          obtain ⟨-, hespera, hready⟩ := hritmo a c rfl rfl
          have havisa : Bsd.Puntual entregas reloj (c.avisa a) := by
            rw [Conexion.avisa]
            split
            · exact ⟨hc.cuentas, fun hsi ↦ ⟨(hc.consultas hsi).1, rfl⟩, hc.nonl, hc.espera, hc.user⟩
            · exact hc
          have hcola : (c.avisa a).recvQ = c.recvQ ∧ (c.avisa a).consultas = c.consultas := by
            rw [Conexion.avisa]
            split
            · exact ⟨rfl, rfl⟩
            · exact ⟨rfl, rfl⟩
          refine readPacket_puntual havisa ?_ ?_
          · rw [hcola.1]
            exact hespera
          · refine hready.imp_left fun hnone ↦ ⟨hnone.1, ?_⟩
            -- the timer is not set while anything is looked up
            rw [hcola.2]
            cases hsi : c.consultas with
            | false => rfl
            | true => exact absurd (hc.consultas hsi).2 hnone.2

theorem Vida.Puntual.limitada {v : Vida σ} (h : v.Puntual) : Limitada v := by
  rw [Vida.Puntual] at h
  constructor
  · intro c hc huser
    rw [hc] at h
    by_cases hnil : completas c.recvQ = []
    · exact Or.inl hnil
    · exact Or.inr (Puntual.user h hnil huser)
  · intro desde T
    cases hsalida : v.salida with
    | abierta c =>
        rw [hsalida] at h
        exact (Puntual.cuentas h).limite desde T
    | cerrada =>
        rw [hsalida] at h
        obtain ⟨since, hcuentas⟩ := h
        exact hcuentas.limite desde T

/-- In every run with calls that come in time, a user with lines that wait is ten seconds ahead of
the clock, and the commands in a period are bounded. -/
theorem ritmo_run (efecto : Orden → Cptr σ → Buffer → Cptr σ × Buffer × Resultado)
    (parseServer : σ → Buffer → Fin BUFSIZE → σ × Buffer × Resultado) (clientFlood : Nat)
    (now : Int) (resto : σ) (buffer : Buffer) (consultas : Bool) (xs : List Suceso)
    (hritmo : Run.EveryStep (paso (parseClient efecto) parseServer clientFlood) Ritmo
      (acepta now resto buffer consultas) xs) :
    Limitada (Run.final (paso (parseClient efecto) parseServer clientFlood)
      (acepta now resto buffer consultas) xs) := by
  have hinicio : (acepta now resto buffer consultas).Puntual := by
    refine ⟨⟨List.Pairwise.nil, by simp [acepta], by simp [acepta]⟩, fun hsi ↦ ⟨rfl, if_pos hsi⟩,
      fun _ ↦ rfl, fun hne ↦ absurd rfl hne, fun hne ↦ absurd rfl hne⟩
  exact Vida.Puntual.limitada (Run.invariant_final (fun x v hv hx ↦ hv.paso x hx) hinicio hritmo)

/-- A handler that makes every client a user. -/
def registra (_ : Orden) (cptr : Cptr Unit) (buffer : Buffer) : Cptr Unit × Buffer × Resultado :=
  ({ cptr with status := .user }, buffer, .sigue)

theorem ritmo_run_nick :
    Limitada (Run.final (paso (parseClient registra) callaServer 1536)
      (acepta 0 () (Vector.replicate _ nul) false) [lectura "NICK ana\r\nMOTD\r\n".toList]) := by
  refine ritmo_run registra callaServer 1536 0 () _ false _ ⟨fun a c ha hc ↦ ?_, trivial⟩
  obtain rfl := Suceso.llamada.inj ha
  obtain rfl := Salida.abierta.inj hc
  refine ⟨Int.le_refl 0, fun hne ↦ absurd rfl hne, Or.inr ⟨_, ?_, rfl⟩⟩
  exact List.cons_ne_nil _ _

end

end Ircd.Bsd
