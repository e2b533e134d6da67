import Ircd.Dbuf.Getmsg
import Ircd.Packet
import Ircd.Packet.Contadores

/-!
# Reading from a connection

`read_packet` of `ircd/s_bsd.c` for a connection that was accepted. What is received goes behind the
receive queue, and the lines are taken from there and handed to `parse_client` while the connection
is not too far ahead of the clock; when a line has made it a server link, what is left is handed to
`dopacket`, which gets all that is received from then on. The two parsers are parameters:
`parse_client` may change the client and its buffer in any way, and `parse_server` leaves a server
link one. The theorem `getmsg_refina` says that the queue is that of `ircd/dbuf.c`.
-/

namespace Ircd.Bsd

open CString
open Dbuf (isEol)
open Packet (Buffer Enlace Resultado READBUF)

/-! ## A connection -/

/-- `cptr->status`. A connection that was accepted is never connecting or in a handshake. -/
inductive Status where
  | unknown
  | user
  | server
deriving DecidableEq

/-- What `parse_client` works on besides the buffer, with `IsAnOper`, `IsDocking` and
`IsChannelService`. -/
structure Cptr (σ : Type) where
  status : Status
  oper : Bool
  docking : Bool
  channelService : Bool
  since : Int
  resto : σ

/-- A connection. `consultas` is `DoingDNS || DoingAuth`, `nonl` is `FLAGS_NONL`, and `evtimer` the
time that its timer is set to. -/
structure Conexion (σ : Type) where
  cptr : Cptr σ
  buffer : Buffer
  count : Fin BUFSIZE
  consultas : Bool
  nonl : Bool
  lasttime : Int
  recvQ : List Char
  evtimer : Option Int

/-- A connection after a call. -/
inductive Salida (σ : Type) where
  | abierta (c : Conexion σ)
  | cerrada

/-- A line that is handed to `parse_client`, with the clock and the client as they were, or to
`parse_server`. -/
inductive Entrega (σ : Type) where
  | client (now : Int) (cptr : Cptr σ) (linea : CStr)
  | server (linea : CStr)

/-- The line. -/
def Entrega.linea {σ : Type} : Entrega σ → CStr
  | .client _ _ linea => linea
  | .server linea => linea

/-- What `recv` gives: no bytes at the end of the stream, `EWOULDBLOCK` or `EAGAIN`, or another
error. -/
inductive Recv where
  | datos (bytes : List Char)
  | espera
  | error

/-! ## The receive queue -/

/-- What `dbuf_getmsg` finds: a line, or none with what it has copied, and the queue that it leaves.
-/
inductive Getmsg where
  | linea (s : CStr) (h : s.length < BUFSIZE) (recvQ : List Char)
  | nada (copiado recvQ : List Char)

/-- `dbuf_getmsg (&cptr->recvQ, cptr->buffer, BUFSIZE)`. -/
def getmsg (recvQ : List Char) : Getmsg :=
  let q := recvQ.dropWhile isEol
  let bytes := q.take BUFSIZE
  let linea := bytes.takeWhile (!isEol ·)
  if h : linea.length < bytes.length then
    .linea linea (h.trans_le (List.length_take_le _ _)) ((q.drop linea.length).dropWhile isEol)
  else .nada linea q

/-- A text is written to the start of a buffer. -/
def escribe (buffer : Buffer) (s : List Char) : Buffer :=
  Vector.ofFn fun i ↦ s[i.val]?.getD buffer[i]

/-! ## The function -/

section

variable {σ : Type}

/-- `!(IsUser(cptr) && DBufLength(&cptr->recvQ) > 6090)`. -/
def Conexion.lee (c : Conexion σ) : Bool :=
  !(c.cptr.status = .user ∧ 6090 < c.recvQ.length)

/-- What a call of `recv` leaves of the times and the flags. -/
def Conexion.recibe (now : Int) (c : Conexion σ) : Conexion σ :=
  { c with
    lasttime := now
    nonl := false
    cptr := { c.cptr with since := if c.cptr.since < now then now else c.cptr.since } }

/-- `IsChannelService(cptr) || IsAnOper(cptr) || IsDocking(cptr)`. -/
def Cptr.exento (cptr : Cptr σ) : Bool :=
  cptr.channelService || cptr.oper || cptr.docking

/-- The test of the loop. -/
def Conexion.sigue (now : Int) (c : Conexion σ) : Bool :=
  c.recvQ ≠ [] ∧ c.nonl = false ∧ (c.cptr.exento ∨ c.cptr.since - now < 10)

/-- `if (DBufLength(&cptr->recvQ) && !NoNewLine(cptr)) UpdateTimer(cptr, 2);`. -/
def Conexion.programa (now : Int) (c : Conexion σ) : Conexion σ :=
  if c.recvQ ≠ [] ∧ c.nonl = false then { c with evtimer := some (now + 2) } else c

variable (parseClient : Cptr σ → Buffer → Fin BUFSIZE → Cptr σ × Buffer × Resultado)
  (parseServer : σ → Buffer → Fin BUFSIZE → σ × Buffer × Resultado)

/-- `dopacket (cptr, readbuf, length)` for a server link. -/
def alServidor (bytes : List Char) (c : Conexion σ) : List (Entrega σ) × Salida σ :=
  let r := Packet.dopacket parseServer ⟨c.cptr.resto, c.buffer, c.count⟩ bytes
  (r.1.map fun x ↦ .server x.1,
    match r.2 with
    | .abierto e =>
        .abierta { c with cptr := { c.cptr with resto := e.mundo }, buffer := e.buffer,
                          count := e.count }
    | .cerrado _ => .cerrada)

/-- The loop over the receive queue. -/
def bucle (now : Int) : Nat → Conexion σ → List (Entrega σ) × Salida σ
  | 0, c => ([], .abierta c)
  | fuel + 1, c =>
      if c.sigue now then
        if c.cptr.status = .server then
          alServidor parseServer (c.recvQ.take READBUF) { c with recvQ := c.recvQ.drop READBUF }
        else
          match getmsg c.recvQ with
          | .nada copiado recvQ =>
              let c := { c with buffer := escribe c.buffer copiado, recvQ := recvQ }
              if recvQ.length < 510 then ([], .abierta { c with nonl := true })
              else ([], .abierta { c with recvQ := [] })
          | .linea s h recvQ =>
              match parseClient c.cptr (escribe c.buffer (s ++ [nul])) ⟨s.length, h⟩ with
              | (cptr, buffer, .sigue) =>
                  let r := bucle now fuel
                    { c with cptr := cptr, buffer := buffer, count := ⟨0, Packet.zero_lt_BUFSIZE⟩,
                             recvQ := recvQ }
                  (.client now c.cptr s :: r.1, r.2)
              | _ => ([.client now c.cptr s], .cerrada)
      else ([], .abierta c)

/-- What becomes of a connection behind the loop. -/
def Salida.programa (now : Int) : Salida σ → Salida σ
  | .abierta c => .abierta (c.programa now)
  | .cerrada => .cerrada

/-- `read_packet` behind the call of `recv`. `cabe` is whether `dbuf_put` finds memory. -/
def procesa (clientFlood : Nat) (now : Int) (cabe : Bool) (bytes : List Char) (c : Conexion σ) :
    List (Entrega σ) × Salida σ :=
  if c.cptr.status = .server then
    let r := if bytes ≠ [] then alServidor parseServer bytes c else ([], .abierta c)
    (r.1, r.2.programa now)
  else if cabe then
    let c := { c with recvQ := c.recvQ ++ bytes }
    if c.consultas then ([], .abierta c)
    else if c.cptr.status = .user ∧ clientFlood < c.recvQ.length ∧ c.cptr.docking = false ∧
        c.cptr.oper = false then ([], .cerrada)
    else
      let r := bucle parseClient parseServer now c.recvQ.length c
      (r.1, r.2.programa now)
  else ([], .cerrada)

/-- A call of `read_packet` by the event loop: the clock, what `recv` would give where the socket is
ready, and whether `dbuf_put` finds memory. -/
structure Aviso where
  now : Int
  ready : Option Recv
  cabe : Bool

/-- `read_packet`. -/
def readPacket (clientFlood : Nat) (a : Aviso) (c : Conexion σ) : List (Entrega σ) × Salida σ :=
  match if c.lee then a.ready else none with
  | none => procesa parseClient parseServer clientFlood a.now a.cabe [] c
  | some (.datos bytes) =>
      if bytes = [] then ([], .cerrada)
      else procesa parseClient parseServer clientFlood a.now a.cabe bytes (c.recibe a.now)
  | some .espera => ([], .abierta (c.recibe a.now))
  | some .error => ([], .cerrada)

/-! ## The life of a connection -/

/-- What is received in a call. -/
def Conexion.leidos (a : Aviso) (c : Conexion σ) : List Char :=
  if c.lee then
    match a.ready with
    | some (.datos bytes) => bytes
    | _ => []
  else []

/-- What happens to a connection: the event loop calls `read_packet`, by the timer where the socket
is not ready, or the lookups end, with what an ident reply has left in the buffer. -/
inductive Suceso where
  | llamada (a : Aviso)
  | resuelve (now : Int) (buffer : Buffer)

/-- A connection with the lines that have been handed over, the bytes that have been received, and
the clock at the last call. -/
structure Vida (σ : Type) where
  salida : Salida σ
  entregas : List (Entrega σ)
  leidos : List Char
  reloj : Int

/-- `ClearDNS` and `ClearAuth`, with `SetAccess` when nothing is looked up any more. -/
def Conexion.resuelve (now : Int) (buffer : Buffer) (c : Conexion σ) : Conexion σ :=
  if c.consultas then
    { c with
      consultas := false
      buffer := buffer
      count := ⟨0, Packet.zero_lt_BUFSIZE⟩
      evtimer := some now }
  else c

/-- The timer is not set any more when it calls. -/
def Conexion.avisa (a : Aviso) (c : Conexion σ) : Conexion σ :=
  if a.ready.isNone then { c with evtimer := none } else c

/-- What an event does. -/
def paso (clientFlood : Nat) (x : Suceso) (v : Vida σ) : Vida σ :=
  match v.salida with
  | .cerrada => v
  | .abierta c =>
      match x with
      | .llamada a =>
          let r := readPacket parseClient parseServer clientFlood a (c.avisa a)
          ⟨r.2, v.entregas ++ r.1, v.leidos ++ c.leidos a, a.now⟩
      | .resuelve now buffer => { v with salida := .abierta (c.resuelve now buffer) }

/-- A connection that has been accepted, by `add_connection` and `start_auth`. -/
def acepta (now : Int) (resto : σ) (buffer : Buffer) (consultas : Bool) : Vida σ where
  salida := .abierta {
    cptr := ⟨.unknown, false, false, false, now, resto⟩
    buffer := buffer
    count := ⟨0, Packet.zero_lt_BUFSIZE⟩
    consultas := consultas
    nonl := false
    lasttime := now
    recvQ := []
    evtimer := if consultas then none else some now }
  entregas := []
  leidos := []
  reloj := now

end

/-! ## The receive queue is that of `ircd/dbuf.c` -/

theorem toList_ofFn_getD {n : Nat} {buffer : Vector Char n} {s : List Char} (h : s.length ≤ n) :
    (Vector.ofFn fun i : Fin n ↦ s[i.val]?.getD buffer[i]).toList =
      Dbuf.escribe buffer.toList 0 s := by
  have hlen : buffer.toList.length = n := buffer.length_toList
  apply List.ext_getElem
  · rw [Vector.length_toList, Dbuf.length_escribe (by omega), hlen]
  · intro i hi hi'
    have hin : i < n := by rwa [Vector.length_toList] at hi
    simp only [Dbuf.escribe, List.take_zero, List.nil_append, Nat.zero_add, Vector.getElem_toList,
      Vector.getElem_ofFn]
    by_cases his : i < s.length
    · rw [List.getElem_append_left his, List.getElem?_eq_getElem his, Option.getD_some]
    · have hle : s.length ≤ i := Nat.le_of_not_lt his
      rw [List.getElem_append_right hle, List.getElem?_eq_none hle, Option.getD_none,
        List.getElem_drop]
      simp only [Nat.add_sub_cancel' hle, Vector.getElem_toList]
      rfl

theorem toList_escribe {buffer : Buffer} {s : List Char} (h : s.length ≤ BUFSIZE) :
    (escribe buffer s).toList = Dbuf.escribe buffer.toList 0 s := by
  rw [escribe]
  exact toList_ofFn_getD h

section

variable {β : Type} [DecidableEq β] {m : Dbuf.Memoria β} {cola : β → List Char}

/-- `getmsg` is `dbuf_getmsg` with the buffer of a client, for the number that is returned, the
buffer and the queue. -/
theorem getmsg_refina (h : Dbuf.Refina m cola) (b : β) (buffer : Buffer) :
    match getmsg (cola b) with
    | .linea s _ recvQ => ∃ m',
        Dbuf.getmsg b BUFSIZE buffer.toList m =
          some (s.length, (escribe buffer (s ++ [nul])).toList, m') ∧
        Dbuf.Refina m' (Function.update cola b recvQ)
    | .nada copiado recvQ => ∃ m',
        Dbuf.getmsg b BUFSIZE buffer.toList m = some (0, (escribe buffer copiado).toList, m') ∧
        Dbuf.Refina m' (Function.update cola b recvQ) := by
  have hlen : buffer.toList.length = BUFSIZE := buffer.length_toList
  have hspec := h.getmsg_eq b buffer.toList rfl rfl rfl
  rw [hlen] at hspec
  rw [getmsg]
  split_ifs at hspec ⊢ with hlinea
  · obtain ⟨m', hget, hrefina⟩ := hspec
    refine ⟨m', ?_, hrefina⟩
    rw [hget, toList_escribe]
    rw [List.length_append, List.length_singleton]
    exact hlinea.trans_le (List.length_take_le _ _)
  · obtain ⟨m', hget, hrefina⟩ := hspec
    refine ⟨m', ?_, hrefina⟩
    rw [hget, toList_escribe]
    exact (List.takeWhile_prefix _).length_le.trans (List.length_take_le _ _)

end

end Ircd.Bsd
