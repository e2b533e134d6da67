import Ircd.Conf.Class
import Ircd.Hash.Table
import Ircd.Match

/-!
# Reading the configuration again

`initconf` and `rehash` of `ircd/s_conf.c`, with the sockets that listen, of `ircd/s_bsd.c`. A line
of the file is its letter and its fields, of which there is at least the first, since a line without
a delimiter behind the letter is left out, like comments and empty lines. A line that stops the
process has no state after it. A file that cannot be read is like one without lines.

The parameters are `match`, `crule_parse` and, for each time, whether `inetport` can open a port.
-/

namespace Ircd.Conf

open CString Hash

def MAXCONFLINKS : Nat := 150

/-! ## Lines and entries -/

structure Linea where
  letra : Char
  host : CStr
  campos : List CStr

/-- The first letter of a line. `ESNET_NEG` is defined and `R_LINES` is not. -/
def tipoDe (letra : Char) : Option Tipo :=
  match letra with
  | 'A' | 'a' => some .admin
  | 'C' | 'c' => some .connectServer
  | 'D' => some .cruleall
  | 'd' => some .cruleauto
  | 'E' | 'e' => some .exception
  | 'H' | 'h' => some .hub
  | 'I' | 'i' => some .client
  | 'K' => some .kill
  | 'k' => some .ipkill
  | 'L' | 'l' => some .leaf
  | 'M' | 'm' => some .me
  | 'N' | 'n' => some .negotiation
  | 'O' => some .operator
  | 'o' => some .locop
  | 'P' | 'p' => some .listenPort
  | 'T' | 't' => some .tlines
  | 'U' | 'u' => some .uworld
  | 'W' | 'w' => some .webirc
  | 'Y' | 'y' => some .conClass
  | _ => none

namespace Linea

def tipo (l : Linea) : Option Tipo := tipoDe l.letra

/-- The fourth field. -/
def puerto (l : Linea) : BitVec 16 :=
  (l.campos[2]?).elim 0#16 fun tmp ↦ BitVec.ofInt 16 (atoi tmp)

/-- The number that the line of a class defines. -/
def define (l : Linea) : BitVec 32 :=
  BitVec.ofInt 32 (atoi l.host)

/-- The number of the class, in the fifth field. -/
def numero (l : Linea) : Option (BitVec 32) :=
  (l.campos[3]?).map fun tmp ↦ BitVec.ofInt 32 (atoi tmp)

/-- `make_conf`, and the fields of the line. -/
def entrada (l : Linea) (t : Tipo) (confClass : Option Nat) : ConfItem where
  tipo := t
  illegal := false
  cookieEnc := false
  sslPort := false
  clients := 0#32
  host := some l.host
  passwd := l.campos[0]?
  name := l.campos[1]?
  port := if t = .operator ∨ t = .locop then 0#16 else l.puerto
  confClass := confClass

@[simp] theorem entrada_tipo (l : Linea) (t : Tipo) (c : Option Nat) :
    (l.entrada t c).tipo = t := rfl

end Linea

/-- `BadPtr`. -/
def badPtr (s : Option CStr) : Bool :=
  s.all (· = [])

/-- Both texts are bad, or they are the same but for case. -/
def iguales (s t : Option CStr) : Bool :=
  badPtr s = badPtr t ∧ (badPtr s ∨ strCasediff (s.getD []) (t.getD []) = 0)

/-- A password that is one digit. -/
def unDigito (passwd : Option CStr) : Bool :=
  passwd.any fun p ↦ p.length = 1 ∧ p.all Char.isDigit

namespace ConfItem

/-- The comparison of `find_conf_entry` without the password. -/
def parecida (bconf aconf : ConfItem) : Bool :=
  bconf.tipo = aconf.tipo ∧ bconf.port = aconf.port ∧ iguales bconf.host aconf.host ∧
    iguales bconf.name aconf.name

/-- The comparison of `find_conf_entry`. -/
def coincide (bconf aconf : ConfItem) : Bool :=
  bconf.parecida aconf ∧ badPtr bconf.passwd = badPtr aconf.passwd ∧
    (unDigito bconf.passwd ∨ iguales bconf.passwd aconf.passwd)

/-- The calls to `collapse` before an entry goes to the list. -/
def colapsa (a : ConfItem) : ConfItem :=
  { a with
    host := a.host.map Ircd.collapse
    name := a.name.map Ircd.collapse }

/-- A port's flags, from its password. -/
def conFlags (a : ConfItem) : ConfItem :=
  { a with
    cookieEnc := a.passwd.any ('X' ∈ ·)
    sslPort := a.passwd.any ('S' ∈ ·) }

/-- The host of servers and operators gets a user. -/
def conUsuario (host : CStr) : CStr :=
  if '@' ∉ host ∧ host.head? ≠ some '/' then '*' :: '@' :: host else host

end ConfItem

namespace Estado

/-- `find_conf_entry`. -/
def findConfEntry (s : Estado) (aconf : ConfItem) : Option Nat :=
  s.conf.find? fun e ↦ (s.item e).any (·.coincide aconf)

/-- The class of an entry that is being read. -/
def claseDe (s : Estado) (l : Linea) (t : Tipo) : Option Nat :=
  let confClass := if t = .me then none else l.numero.map s.findClass
  if t.clientMask ∨ t = .listenPort then some (confClass.getD (s.findClass 0#32)) else confClass

/-- A new entry goes to the list. -/
def meteConf (a : ConfItem) (s : Estado) : Estado :=
  { s with
    item := Function.update s.item s.nextItem (some a.colapsa)
    conf := s.nextItem :: s.conf
    nextItem := s.nextItem + 1 }

/-- `test_listen_port`: the socket that listens on the port. -/
def testListenPort (s : Estado) (port : BitVec 16) : Option Nat :=
  s.oyentes.find? fun o ↦ (s.item o).any (·.port = port)

/-- A port that is not on the list goes there. `add_listener` keeps the entry of the socket that
listens already. -/
def metePuerto (abre : ConfItem → Bool) (a : ConfItem) (s : Estado) : Estado :=
  let s := (s.testListenPort a.port).elim
    (if abre a then { s with oyentes := s.nextItem :: s.oyentes } else s)
    fun o ↦ s.modItem o fun b ↦ { b with illegal := false }
  s.meteConf a

/-- An entry of the list takes the place of the one that is being read. Without a class there is no
counter to write. -/
def reutiliza (bconf : Nat) (b a : ConfItem) (s : Estado) : Option Estado :=
  let s := { s with conf := bconf :: s.conf.erase bconf }
  if a.tipo = .listenPort then
    some (s.modItem bconf fun b ↦ { b with illegal := false }.colapsa)
  else if b.confClass = none then none
  else
    let s := s.modConfLinks b (· - b.clients)
    let s := s.modItem bconf fun b ↦
      { b with illegal := false, passwd := a.passwd, confClass := a.confClass }.colapsa
    some (s.modConfLinks a (· + b.clients))

section

variable (cruleParse : Option CStr → Option CStr)

/-- The lines that `initconf` drops. -/
def desecha (ccount : Nat) (a : ConfItem) : Bool :=
  match a.tipo with
  | .connectServer =>
      MAXCONFLINKS < ccount ∨ a.host.all (fun h ↦ '*' ∈ h ∨ '?' ∈ h) ∨ a.name = none ∨
        badPtr a.passwd
  | .cruleall | .cruleauto => cruleParse a.name = none
  | _ => false

/-- The lines that stop the process. -/
def termina (l : Linea) (a : ConfItem) : Bool :=
  match a.tipo with
  | .operator | .locop => a.host = none
  | .admin => a.host = none ∨ a.passwd = none ∨ a.name = none
  | .me => l.campos.length = 3 ∨ a.name = none
  | _ => false

/-- What becomes of an entry of the other kinds before it goes to the list. -/
def retoca (a : ConfItem) : ConfItem :=
  match a.tipo with
  | .connectServer | .operator | .locop => { a with host := a.host.map ConfItem.conUsuario }
  | .cruleall | .cruleauto => { a with passwd := cruleParse a.name }
  | _ => a

variable (abre : ConfItem → Bool)

/-- A line. `ccount` counts the lines of servers, with this one. -/
def leeLinea (ccount : Nat) (l : Linea) (s : Estado) : Option Estado :=
  l.tipo.elim (some s) fun t ↦
    if t = .conClass then
      -- `atoi` reads the first three fields
      if l.campos.length < 2 then none
      else
        let campo := fun i ↦ (l.campos[i]?).elim 0 atoi
        some (s.addClass l.define (BitVec.ofInt 32 (campo 0)) (BitVec.ofInt 32 (campo 1)) l.puerto
          (campo 3))
    else
      let a := l.entrada t (s.claseDe l t)
      if t = .client ∨ t = .listenPort ∨ t = .webirc then
        (s.findConfEntry a).elim
          (some (if t = .listenPort ∧ a.host ≠ none then s.metePuerto abre a.conFlags
            else s.meteConf a))
          fun bconf ↦ (s.item bconf).elim none fun b ↦ s.reutiliza bconf b a
      else if termina l a then none
      else if desecha cruleParse ccount a then some s
      else some (s.meteConf (retoca cruleParse a))

/-- The counter of the lines of servers. -/
def cuentaC (ccount : Nat) (l : Linea) : Nat :=
  if l.tipo = some .connectServer then ccount + 1 else ccount

/-- The loop of `initconf`. -/
def lee (ccount : Nat) : List Linea → Estado → Option Estado
  | [], s => some s
  | l :: fichero, s =>
      (s.leeLinea cruleParse abre (cuentaC ccount l) l).bind (lee (cuentaC ccount l) fichero)

end

/-! ## The rehash -/

/-- `rehash` before `initconf`: entries in use are marked, or leave the list, and the others are
freed, and all classes but the first are marked. -/
def marca (s : Estado) : Estado :=
  { s with
    item := fun e ↦
      if e ∈ s.conf then
        (s.item e).bind fun a ↦
          if a.clients ≠ 0#32 ∨ a.tipo = .listenPort then some { a with illegal := true } else none
      else s.item e
    conf := s.conf.filter fun e ↦ (s.item e).any fun a ↦
      a.tipo = .listenPort ∨ a.tipo = .client ∧ a.clients ≠ 0#32
    clase := fun c ↦
      if c ∈ s.siguientes then (s.clase c).map fun cl ↦ { cl with maxLinks := BitVec.allOnes 32 }
      else s.clase c }

/-- A step of `close_listeners`. `close_connection` lets go the entry of the socket, which did not
count it. -/
def closeListener (s : Estado) (o : Nat) : Estado :=
  if (s.item o).any fun a ↦ a.illegal ∧ a.clients = 0#32 then
    { s.suelta o with oyentes := s.oyentes.erase o }
  else s

/-- `close_listeners`. -/
def closeListeners (s : Estado) : Estado :=
  s.oyentes.foldl closeListener s

/-- `rehash` behind `close_listeners`: illegal entries leave the list. -/
def quitaIlegales (s : Estado) : Estado :=
  { s with
    item := fun e ↦
      if e ∈ s.conf then
        (s.item e).bind fun a ↦ if a.illegal ∧ a.clients = 0#32 then none else some a
      else s.item e
    conf := s.conf.filter fun e ↦ !(s.item e).any (·.illegal) }

section

variable (casa : CStr → CStr → Bool)

/-- A step of `det_confs_butmask (cptr, ~mask)`. -/
def desata (mask : Tipo → Bool) (s : Estado) (p : Nat × Nat) : Estado :=
  if (s.item p.2).any fun a ↦ mask a.tipo then s.detachConf p.1 p.2 else s

/-- A step of `attach_confs`. -/
def ata (cptr : Nat) (name : CStr) (mask : Tipo → Bool) (s : Estado) (e : Nat) : Estado :=
  if (s.item e).any fun a ↦ mask a.tipo ∧ a.illegal = false ∧ a.name.any fun n ↦
      if a.tipo = .connectServer ∨ a.tipo = .hub then strCasediff n name = 0 else casa n name
  then (s.attachConf cptr e).2
  else s

/-- What `rehash` does with a server at the end. -/
def renueva (s : Estado) (p : Fin MAXCONNECTIONS × CStr) : Estado :=
  let s := (s.confs.filter (·.1 = p.1.val)).foldl (desata Tipo.deServidor) s
  if HOSTLEN < p.2.length then s else s.conf.foldl (ata casa p.1 p.2 Tipo.deServidor) s

variable (cruleParse : Option CStr → Option CStr)

/-- `rehash`. The servers are those among the local clients. -/
def rehash (fichero : List Linea) (abre : ConfItem → Bool)
    (servidores : List (Fin MAXCONNECTIONS × CStr)) (s : Estado) : Option Estado :=
  (s.marca.lee cruleParse abre 0 fichero).map fun s ↦
    servidores.foldl (renueva casa) s.checkClass.closeListeners.quitaIlegales

end

end Estado

end Ircd.Conf
