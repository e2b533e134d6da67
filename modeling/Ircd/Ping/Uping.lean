import Ircd.User.Canonize

/-!
# `UPING`

The functions of `ircd/s_ping.c` over the client structure that they use for a request: `start_ping`,
`send_ping` on its timer, `read_ping` on its socket, and `end_ping`, which reports and frees the
structure. The arithmetic has the widths of the fields. A write outside of `buffer`, a division by
zero or an access through a null `acpt` gives `none`.
-/

namespace Ircd.Ping

open Buffer CString
open User.Canonize (strcpy)

/-! ## The request -/

/-- `UPINGBUFSIZE`. -/
def UPINGBUFSIZE : Nat := 2000

/-- `UPINGTIMEOUT`. -/
def UPINGTIMEOUT : Int := 120

/-- What a notice needs of the client that asks: `MyUser`, `IsServer` and `Protocol` of its link, and
its names. -/
structure Acpt where
  myUser : Bool
  fromServer : Bool
  protocol : Nat
  name : CStr
  numNick : CStr

/-- `me`: its name and `NumServ`. -/
structure Me where
  name : CStr
  numServ : CStr

/-- The head of a notice. -/
def cabecera (me : Me) (acpt : Acpt) (viejo : Bool) : CStr :=
  if acpt.myUser ∨ viejo then ':' :: (me.name ++ " NOTICE ".toList ++ acpt.name ++ [' ', ':'])
  else me.numServ ++ " O ".toList ++ acpt.numNick ++ [' ', ':']

/-- What follows it: `Sending %d ping%s to %s`, `UPING: sendto() failed: %s`, `UPING: recvfrom: %s`,
`UPING %s%s`, `UPING Stats: sent %d recvd %d ; min/avg/max = %u/%u/%u ms`,
`UPING: no response from %s within %d seconds` and `UPING: Could not start ping to %s %u`. -/
inductive Texto where
  | enviando (hopcount : Nat) (name : CStr)
  | sendto (error : CStr)
  | recvfrom (error : CStr)
  | pings (name buffer : CStr)
  | stats (sent recvd : Int) (min avg max : Nat)
  | sinRespuesta (name : CStr) (segundos : Int)
  | noEmpieza (name : CStr) (port : Nat)

/-- A notice. -/
structure Aviso where
  cabecera : CStr
  texto : Texto

/-- The structure of a request. `confs` is the buffer for packets. -/
structure Client where
  name : CStr
  port : Nat
  hopcount : Nat
  sendB : Nat
  receiveB : Nat
  sendM : Nat
  receiveK : Nat
  receiveM : Nat
  since : Int
  firsttime : Int
  ping : Bool
  acpt : Option Acpt
  buffer : List Char
  confs : List Char

/-- A request between two events. -/
inductive Estado where
  | vivo (c : Client)
  | libre

/-- The clocks: `now`, and `gettimeofday`. -/
structure Reloj where
  now : Int
  sec : Nat
  usec : Nat

/-- `m_uping`, once it has a socket: `parv[4]` is the number of pings. -/
def mUping (acpt : Acpt) (name pings : CStr) (port : Nat) (now : Int) (confs : List Char) :
    Option Client :=
  if atoi pings ≤ 0 then none
  else
    let n := (min 20 (atoi pings)).toNat
    some
      { name := name
        port := port
        hopcount := n
        sendB := n
        receiveB := n
        sendM := 0
        receiveK := 0
        receiveM := 0
        since := now
        firsttime := 0
        ping := false
        acpt := some acpt
        buffer := List.replicate BUFSIZE nul
        confs := confs }

/-! ## The functions -/

/-- `--x` on an `unsigned short`. -/
def baja (x : Nat) : Nat :=
  (x + (2 ^ 16 - 1)) % 2 ^ 16

/-- Division of unsigned numbers. -/
def divide (x y : Nat) : Option Nat :=
  if y = 0 then none else some (x / y)

/-- `end_ping`. -/
def endPing (me : Me) (now : Int) (c : Client) : Option (Estado × List Aviso) :=
  match c.acpt with
  | none => some (.libre, [])
  | some acpt =>
      let aviso := Aviso.mk (cabecera me acpt (acpt.fromServer ∧ acpt.protocol < 10))
      if c.firsttime ≠ 0 then
        if c.receiveB ≠ c.hopcount then do
          let buffer ← cadena c.buffer 0
          let avg ← divide (toUnsigned (2 * c.sendM + c.hopcount - c.receiveB))
            (toUnsigned (2 * (c.hopcount - c.receiveB)))
          some (.libre,
            [aviso (.pings c.name buffer),
             aviso (.stats ((c.hopcount - c.sendB : Int).bmod (2 ^ 32))
               ((c.hopcount - c.receiveB : Int).bmod (2 ^ 32)) c.receiveK avg c.receiveM)])
        else
          some (.libre,
            [aviso (.sinRespuesta c.name ((now + c.since - c.firsttime).bmod (2 ^ 32)))])
      else some (.libre, [aviso (.noEmpieza c.name c.port)])

/-- `start_ping`, and `end_ping` where it fails. -/
def startPing (me : Me) (r : Reloj) (c : Client) : Option (Estado × List Aviso) :=
  match c.acpt with
  | none => endPing me r.now c
  | some acpt =>
      some (.vivo
        { c with firsttime := r.now + UPINGTIMEOUT, since := UPINGTIMEOUT, ping := true },
        [⟨cabecera me acpt (acpt.protocol < 10), .enviando c.hopcount c.name⟩])

/-- Blanks on the left, as a width of the format puts them. -/
def rellena (n : Nat) (s : CStr) : CStr :=
  List.replicate (n - s.length) ' ' ++ s

/-- `sprintf (confs, " %10lu%c%6u", tv_sec, '\0', tv_usec)`. -/
def marcaHora (r : Reloj) (confs : List Char) : List Char :=
  let s := ' ' :: (rellena 10 (decimal r.sec) ++ nul :: (rellena 6 (decimal r.usec) ++ [nul]))
  s ++ confs.drop s.length

/-- `send_ping`, where `error` is what `sendto` fails with. -/
def sendPing (me : Me) (r : Reloj) (error : Option CStr) (c : Client) :
    Option (Estado × List Aviso) :=
  let c := { c with confs := marcaHora r c.confs }
  match error with
  | some e => do
      let avisos := match c.acpt with
        | some acpt =>
            [⟨cabecera me acpt (acpt.fromServer ∧ acpt.protocol < 10), .sendto e⟩]
        | none => []
      let (s, fin) ← endPing me r.now c
      some (s, avisos ++ fin)
  | none =>
      let c := { c with sendB := baja c.sendB }
      if c.sendB ≤ 0 then
        let c := { c with ping := false }
        if c.receiveB ≤ 0 then endPing me r.now c else some (.vivo c, [])
      else some (.vivo c, [])

/-- The milliseconds since the time in a packet. `mem` is the memory from `confs` on. -/
def pingtime (r : Reloj) (mem : List Char) : Nat :=
  let sec := atoi (before (mem.drop 1) nul)
  let usec := atoi (before (mem.drop ((before mem nul).length + 1)) nul)
  (((r.sec - sec) * 1000 + (r.usec - usec).tdiv 1000) % 2 ^ 64).toNat

/-- What `read_ping` adds up of a ping time. -/
def suma (c : Client) (t : Nat) : Client :=
  { c with
    sendM := (c.sendM + t) % 2 ^ 32
    receiveK := if c.receiveK = 0 ∨ t < c.receiveK then t % 2 ^ 32 else c.receiveK
    receiveM := if c.receiveM < t then t % 2 ^ 32 else c.receiveM }

/-- What it waits for the next one. -/
def espera (r : Reloj) (c : Client) : Option Client := do
  let since ← divide c.sendM (toUnsigned (100 * (c.hopcount - c.receiveB + 1)))
  let since := if since < 2 then 2 else since
  some { c with since := since, firsttime := r.sec + since }

/-- `sprintf (buffer + strlen (buffer), " %lu", pingtime)`. -/
def anota (t : Nat) (c : Client) : Option Client := do
  let buffer ← strcpy c.buffer (← cadena c.buffer 0).length (' ' :: decimal t)
  some { c with buffer := buffer }

/-- `--(cptr->receiveB)`, and `end_ping` when it was the last packet. -/
def descuenta (me : Me) (r : Reloj) (c : Client) : Option (Estado × List Aviso) :=
  let c := { c with receiveB := baja c.receiveB }
  if (c.receiveB ≤ 0 ∧ c.ping = false) ∨ c.acpt.isNone then endPing me r.now c
  else some (.vivo c, [])

/-- `read_ping`, from the ping time on. -/
def acumula (me : Me) (r : Reloj) (t : Nat) (c : Client) : Option (Estado × List Aviso) := do
  let c ← espera r (suma c t)
  let c ← anota t c
  descuenta me r c

/-- `read_ping`, on a packet. `tras` is what follows `confs` in memory. -/
def readPing (me : Me) (r : Reloj) (paquete tras : List Char) (c : Client) :
    Option (Estado × List Aviso) :=
  let datos := paquete.take UPINGBUFSIZE
  let c := { c with confs := datos ++ c.confs.drop datos.length }
  if datos.length < 19 then some (.vivo c, [])
  else acumula me r (pingtime r (c.confs ++ tras)) c

/-- `read_ping`, where `recvfrom` fails. -/
def readError (me : Me) (r : Reloj) (eagain : Bool) (error : CStr) (c : Client) :
    Option (Estado × List Aviso) :=
  match c.acpt with
  | none => none
  | some acpt => do
      let aviso := ⟨cabecera me acpt (acpt.fromServer ∧ acpt.protocol < 10), .recvfrom error⟩
      if eagain then some (.vivo c, [aviso])
      else
        let (s, fin) ← endPing me r.now c
        some (s, aviso :: fin)

/-- What happens to a request. `cancel` is `cancel_ping`. -/
inductive Evento where
  | start (r : Reloj)
  | timer (r : Reloj) (error : Option CStr)
  | packet (r : Reloj) (paquete tras : List Char)
  | error (r : Reloj) (eagain : Bool) (error : CStr)
  | cancel (r : Reloj) (acptr : Option Acpt)

/-- One event. -/
def atiende (me : Me) : Evento → Client → Option (Estado × List Aviso)
  | .start r, c => startPing me r c
  | .timer r error, c => sendPing me r error c
  | .packet r paquete tras, c => readPing me r paquete tras c
  | .error r eagain error, c => readError me r eagain error c
  | .cancel r acptr, c => endPing me r.now { c with acpt := acptr }

end Ircd.Ping
