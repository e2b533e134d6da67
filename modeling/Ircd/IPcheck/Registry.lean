import Mathlib.Data.Fin.Basic
import Mathlib.Logic.Function.Basic

/-!
# The registry of addresses

`ircd/IPcheck.c` keeps an entry for each address that clients are connected from, or were until a
short time ago. Entries are in vectors, one for each hash of an address, and two addresses are the
same when a prefix of them is: 48 bits for the 6to4 form, which IPv4 addresses are translated into,
and 64 bits otherwise. The functions return `none` where the program reads or writes outside of a
vector.
-/

namespace Ircd.IPcheck

/-! ## Addresses -/

/-- `struct irc_in_addr`: eight words in network order. -/
structure IrcInAddr where
  in6_16 : Vector UInt16 8
deriving DecidableEq

/-- The order of the bytes of a word in the network, on a little-endian machine. -/
def htons (x : UInt16) : UInt16 :=
  (x <<< 8) ||| (x >>> 8)

/-- `irc_in_addr_is_ipv4`. -/
def isIpv4 (a : IrcInAddr) : Bool :=
  a.in6_16[0] = 0 ∧ a.in6_16[1] = 0 ∧ a.in6_16[2] = 0 ∧ a.in6_16[3] = 0 ∧ a.in6_16[4] = 0 ∧
    ((a.in6_16[5] = 0 ∧ a.in6_16[6] ≠ 0) ∨ a.in6_16[5] = 65535)

/-- `IPregistry_canonicalize`. -/
def canonicalize (a : IrcInAddr) : IrcInAddr :=
  if isIpv4 a then ⟨#v[htons 0x2002, a.in6_16[6], a.in6_16[7], 0, 0, 0, 0, 0]⟩
  else ⟨#v[a.in6_16[0], a.in6_16[1], a.in6_16[2], a.in6_16[3], 0, 0, 0, 0]⟩

/-- `CALCULATE_HASH`: the index of the vector of an address. -/
def calculateHash (a : IrcInAddr) : UInt16 :=
  (a.in6_16[0] ^^^ a.in6_16[1] ^^^ a.in6_16[2] ^^^ a.in6_16[3]) &&& 0x1fff

/-- The loop of `ipmask_check`, over the words that are left. -/
def ipmaskDesde (addr mask : IrcInAddr) : List (Fin 8) → Nat → Int
  | [], _ => -1
  | k :: ks, bits =>
      if bits < 16 then
        if (htons (addr.in6_16[k] ^^^ mask.in6_16[k])).toNat >>> (16 - bits) = 0 then 1 else 0
      else if addr.in6_16[k] ≠ mask.in6_16[k] then 0
      else if bits - 16 = 0 then 1
      else ipmaskDesde addr mask ks (bits - 16)

/-- `ipmask_check`. -/
def ipmaskCheck (addr mask : IrcInAddr) (bits : Nat) : Int :=
  ipmaskDesde addr mask [0, 1, 2, 3, 4, 5, 6, 7] bits

/-- The number of bits that are compared. -/
def bits (a : IrcInAddr) : Nat :=
  if a.in6_16[0] = htons 0x2002 then 48 else 64

/-- The words of an address that are compared. -/
def prefijo (a : IrcInAddr) : UInt16 × UInt16 × UInt16 × UInt16 :=
  (a.in6_16[0], a.in6_16[1], a.in6_16[2],
    if a.in6_16[0] = htons 0x2002 then 0 else a.in6_16[3])

/-- A comparison of whole words. -/
theorem ipmaskCheck_48 (a m : IrcInAddr) : ipmaskCheck a m 48 ≠ 0 ↔
    a.in6_16[0] = m.in6_16[0] ∧ a.in6_16[1] = m.in6_16[1] ∧ a.in6_16[2] = m.in6_16[2] := by
  by_cases h₀ : a.in6_16[0] = m.in6_16[0] <;> by_cases h₁ : a.in6_16[1] = m.in6_16[1] <;>
    by_cases h₂ : a.in6_16[2] = m.in6_16[2] <;> simp [ipmaskCheck, ipmaskDesde, h₀, h₁, h₂]

theorem ipmaskCheck_64 (a m : IrcInAddr) : ipmaskCheck a m 64 ≠ 0 ↔
    a.in6_16[0] = m.in6_16[0] ∧ a.in6_16[1] = m.in6_16[1] ∧ a.in6_16[2] = m.in6_16[2] ∧
      a.in6_16[3] = m.in6_16[3] := by
  by_cases h₀ : a.in6_16[0] = m.in6_16[0] <;> by_cases h₁ : a.in6_16[1] = m.in6_16[1] <;>
    by_cases h₂ : a.in6_16[2] = m.in6_16[2] <;> by_cases h₃ : a.in6_16[3] = m.in6_16[3] <;>
      simp [ipmaskCheck, ipmaskDesde, h₀, h₁, h₂, h₃]

/-! ## Entries -/

/-- The free targets of a client that has used none. -/
def STARTTARGETS : Nat := 10

/-- The seconds after which a target is free again. -/
def TARGET_DELAY : Nat := 128

/-- The attempts that are not throttled. -/
def IPCHECK_CLONE_LIMIT : Nat := 4

/-- The seconds within which attempts are counted. -/
def IPCHECK_CLONE_PERIOD : Nat := 20

/-- The seconds after the start of the server in which nobody is throttled. -/
def IPCHECK_CLONE_DELAY : Int := 600

/-- A number of free targets, which is never the mark `HAS_TARGETS_MAGIC`. -/
abbrev FreeTargets := Fin (STARTTARGETS + 1)

/-- The address of an entry with its free targets. The list of targets of the last local client that
left is there when the entry is marked with `HAS_TARGETS_MAGIC`. -/
structure IpTargets where
  ip : IrcInAddr
  freeTargets : FreeTargets
  targets : Option (List UInt8)

/-- `struct IPregistry`. -/
structure IPregistry where
  ipTargets : IpTargets
  lastConnect : UInt16
  connected : UInt16
  connectAttempts : Fin 16

/-- `IP`: the address of an entry. -/
def IPregistry.ip (e : IPregistry) : IrcInAddr :=
  e.ipTargets.ip

/-- `NOW`. -/
def NOW (now : Nat) : UInt16 :=
  now.toUInt16

/-- `CONNECTED_SINCE`. -/
def IPregistry.connectedSince (e : IPregistry) (now : Nat) : Nat :=
  (NOW now - e.lastConnect).toNat

/-- The entry is the one that is looked for. -/
def IPregistry.es (e : IPregistry) (ip : IrcInAddr) : Bool :=
  ipmaskCheck ip e.ip (bits ip) ≠ 0

/-- `struct IPregistry_vector`; its length is that of the list. -/
structure IPregistryVector where
  allocatedLength : UInt16
  vector : List IPregistry

/-- An empty vector. -/
def IPregistryVector.vacio : IPregistryVector :=
  ⟨0, []⟩

/-- `IPregistry_add`, with the entry that the caller writes to the new place. -/
def registryAdd (iprv : IPregistryVector) (e : IPregistry) : Option IPregistryVector :=
  let allocatedLength :=
    if iprv.vector.length = iprv.allocatedLength.toNat then iprv.allocatedLength + 4
    else iprv.allocatedLength
  if iprv.vector.length < allocatedLength.toNat then some ⟨allocatedLength, iprv.vector ++ [e]⟩
  else none

/-- `IPregistry_find`: the index of the entry. -/
def registryFind (iprv : IPregistryVector) (ip : IrcInAddr) : Option Nat :=
  iprv.vector.findIdx? (·.es ip)

/-- An entry is changed in its place. -/
def IPregistryVector.cambia (iprv : IPregistryVector) (i : Nat) (f : IPregistry → IPregistry) :
    IPregistryVector :=
  { iprv with vector := iprv.vector.modify i f }

/-! ## Expiry -/

/-- The test for an expired entry. -/
def IPregistry.expirada (e : IPregistry) (now : Nat) : Bool :=
  e.connected = 0 ∧ e.connectedSince now > 600

/-- The targets of a client that left are not kept for long. -/
def IPregistry.olvidaTargets (e : IPregistry) (now : Nat) : IPregistry :=
  if e.connected = 0 ∧ e.connectedSince now > 120 then
    { e with ipTargets := { e.ipTargets with targets := none } }
  else e

/-- The last entry is moved to the place of the one before the list. -/
def mueveUltima (es : List IPregistry) : List IPregistry :=
  match es.getLast? with
  | none => []
  | some last => last :: es.dropLast

/-- The scan of `IPregistry_find_with_expire` from the index `i` on: the entries left and the index
of the one that is looked for. Each round takes one entry off the list. -/
def recorre (ip : IrcInAddr) (now : Nat) :
    Nat → Nat → List IPregistry → List IPregistry × Option Nat
  | 0, _, _ => ([], none)
  | _ + 1, _, [] => ([], none)
  | fuel + 1, i, curr :: rest =>
      if curr.es ip then
        let (es, retval) := recorre ip now fuel (i + 1) rest
        (curr :: es, retval.or (some i))
      else if curr.expirada now then recorre ip now fuel i (mueveUltima rest)
      else
        let (es, retval) := recorre ip now fuel (i + 1) rest
        (curr.olvidaTargets now :: es, retval)

/-- The two static counters for the estimation of the length of the vectors. -/
structure Media where
  count : UInt16
  averageLength : UInt16

/-- An entry has expired. The number of clients is divided by the number of vectors now and then. -/
def Media.expira (clientes : Nat) (m : Media) : Media :=
  if m.count - 1 = 0 then ⟨10000, (clientes / 0x2000).toUInt16⟩ else { m with count := m.count - 1 }

/-- `IPregistry_find_with_expire`. -/
def findWithExpire (iprv : IPregistryVector) (ip : IrcInAddr) (now clientes : Nat) (m : Media) :
    IPregistryVector × Option Nat × Media :=
  let (vector, retval) := recorre ip now iprv.vector.length 0 iprv.vector
  let m := Nat.repeat (Media.expira clientes) (iprv.vector.length - vector.length) m
  -- the vector is shrunk to its length when it has room to spare
  let allocatedLength :=
    if m.averageLength < iprv.allocatedLength ∧ 4 ≤ iprv.allocatedLength.toNat - vector.length then
      vector.length.toUInt16
    else iprv.allocatedLength
  (⟨allocatedLength, vector⟩, retval, m)

/-! ## Events -/

/-- `reset_connect_time`: free targets grow with the time, up to `STARTTARGETS`. -/
def IPregistry.resetConnectTime (e : IPregistry) (now : Nat) : IPregistry :=
  let libres := e.ipTargets.freeTargets.val + e.connectedSince now / TARGET_DELAY
  let previous := min STARTTARGETS libres
  { e with
    ipTargets := { e.ipTargets with freeTargets := ⟨previous, Nat.lt_succ_of_le (Nat.min_le_left ..)⟩ }
    lastConnect := NOW now }

/-- `++(entry->connect_attempts)`, which stays at its greatest value. -/
def IPregistry.otroIntento (e : IPregistry) : IPregistry :=
  if e.connectAttempts + 1 = 0 then e else { e with connectAttempts := e.connectAttempts + 1 }

/-- `entry->connect_attempts--`. -/
def IPregistry.fallo (e : IPregistry) : IPregistry :=
  { e with connectAttempts := e.connectAttempts - 1 }

/-- What the events read of a client. -/
structure Cliente where
  ip : IrcInAddr
  myConnect : Bool
  targets : List UInt8
  nexttarget : Int
  firsttime : Int

/-- The registry. -/
structure Registro where
  hashtable : UInt16 → IPregistryVector
  media : Media

/-- The registry at the start. -/
def Registro.inicial : Registro where
  hashtable _ := .vacio
  media := ⟨10000, 4⟩

/-- The vector of an address. -/
def Registro.vector (s : Registro) (ip : IrcInAddr) : IPregistryVector :=
  s.hashtable (calculateHash ip)

/-- Another vector for an address. -/
def Registro.pon (s : Registro) (ip : IrcInAddr) (iprv : IPregistryVector) : Registro :=
  { s with hashtable := Function.update s.hashtable (calculateHash ip) iprv }

/-- A new entry. -/
def entradaNueva (canon : IrcInAddr) (now : Nat) (connectAttempts : Fin 16) : IPregistry where
  ipTargets := ⟨canon, ⟨STARTTARGETS, Nat.lt_succ_self _⟩, none⟩
  lastConnect := NOW now
  connected := 1
  connectAttempts := connectAttempts

/-- The entry of a local client that connects again. -/
def IPregistry.reconecta (e : IPregistry) (now : Nat) (clones : Bool) : IPregistry :=
  let e := { e with connected := e.connected + 1 }
  if e.connected = 0 then e
  else
    let e :=
      if e.connectedSince now > IPCHECK_CLONE_PERIOD ∨ clones then { e with connectAttempts := 0 }
      else e
    (e.resetConnectTime now).otroIntento

/-- `IPcheck_local_connect`: the registry, the result and `nexttarget` of the client. The argument
`clones` says that `IPbusca_clones` finds a number, and `since` is the start of the server. -/
def localConnect (cptr : Cliente) (now : Nat) (clones : Bool) (since : Int) (s : Registro) :
    Option (Registro × Int × Int) :=
  let canon := canonicalize cptr.ip
  let hash := s.vector canon
  match registryFind hash canon with
  | none => do
      let iprv ← registryAdd hash (entradaNueva canon now 1)
      some (s.pon canon iprv, 0, cptr.nexttarget)
  | some i => do
      let entry ← hash.vector[i]?
      let e := entry.reconecta now clones
      let s := s.pon canon (hash.cambia i fun _ ↦ e)
      if e.connected = 0 then some (s, -2, cptr.nexttarget)
      else if e.connectAttempts.val ≤ IPCHECK_CLONE_LIMIT then
        let libres : Int := if clones then STARTTARGETS else e.ipTargets.freeTargets.val
        some (s, 0, now - TARGET_DELAY * (libres - 1))
      else if clones then some (s, 0, cptr.nexttarget)
      else if now - since > IPCHECK_CLONE_DELAY then some (s, -1, cptr.nexttarget)
      else some (s, 0, cptr.nexttarget)

/-- The entry of a remote client that connects again. -/
def IPregistry.reconectaRemoto (e : IPregistry) (now : Nat) (isBurst : Bool) : IPregistry :=
  let e := { e with connected := e.connected + 1 }
  if e.connected = 0 then e
  else
    let e :=
      if e.connectedSince now > IPCHECK_CLONE_PERIOD then { e with connectAttempts := 0 } else e
    if isBurst then e else e.otroIntento.resetConnectTime now

/-- `IPcheck_remote_connect`. -/
def remoteConnect (cptr : Cliente) (now : Nat) (isBurst : Bool) (s : Registro) :
    Option (Registro × Int) :=
  let canon := canonicalize cptr.ip
  let hash := s.vector canon
  match registryFind hash canon with
  | none => do
      let iprv ← registryAdd hash (entradaNueva canon now (if isBurst then 1 else 0))
      some (s.pon canon iprv, 0)
  | some i => do
      let entry ← hash.vector[i]?
      let e := entry.reconectaRemoto now isBurst
      let s := s.pon canon (hash.cambia i fun _ ↦ e)
      if e.connected = 0 then some (s, -1) else some (s, 0)

/-- The free targets that a local client leaves behind. -/
def inheritance (cptr : Cliente) (now : Nat) : Nat :=
  let libres : Int :=
    if cptr.nexttarget ≤ now then (now - cptr.nexttarget) / TARGET_DELAY + 1 else 0
  let gracia : Int :=
    if now - cptr.firsttime > 600 then (now - cptr.firsttime - 600) / TARGET_DELAY else 0
  ((libres + gracia) % 4294967296).toNat

/-- The entry of a client that leaves. -/
def IPregistry.desconecta (e : IPregistry) (cptr : Cliente) (now : Nat) : IPregistry :=
  let e := { e with connected := e.connected - 1 }
  let e :=
    if e.connected = 0 then
      let e :=
        if e.connectedSince now > IPCHECK_CLONE_LIMIT * IPCHECK_CLONE_PERIOD then
          { e with connectAttempts := 0 }
        else e
      e.resetConnectTime now
    else e
  if cptr.myConnect then
    let libres := min e.ipTargets.freeTargets.val (inheritance cptr now)
    { e with
      ipTargets :=
        ⟨canonicalize cptr.ip,
          ⟨libres, Nat.lt_of_le_of_lt (Nat.min_le_left ..) e.ipTargets.freeTargets.isLt⟩,
          some cptr.targets⟩ }
  else e

/-- What happens to an entry. A local connect says whether it is going to fail, and its failure has
its number. -/
inductive Hecho where
  | localConnect (id : Nat) (now : Nat) (clones falla : Bool)
  | remoteConnect (now : Nat) (isBurst : Bool)
  | connectFail (id : Nat)
  | disconnect (cptr : Cliente) (now : Nat)

/-- The entry of the address `canon` after an event; there is none before the first connect. -/
def Hecho.aplica (canon : IrcInAddr) (h : Hecho) (e : Option IPregistry) : Option IPregistry :=
  match h, e with
  | .localConnect _ now _ _, none => some (entradaNueva canon now 1)
  | .localConnect _ now clones _, some e => some (e.reconecta now clones)
  | .remoteConnect now isBurst, none => some (entradaNueva canon now (if isBurst then 1 else 0))
  | .remoteConnect now isBurst, some e => some (e.reconectaRemoto now isBurst)
  | .connectFail _, e => e.map (·.fallo)
  | .disconnect cptr now, e => e.map (·.desconecta cptr now)

/-- `IPcheck_disconnect`. -/
def disconnect (cptr : Cliente) (now clientes : Nat) (s : Registro) : Option Registro := do
  let canon := canonicalize cptr.ip
  let (hash, retval, media) := findWithExpire (s.vector canon) canon now clientes s.media
  let i ← retval
  some { s.pon canon (hash.cambia i (·.desconecta cptr now)) with media := media }

/-- `IPcheck_nr`. -/
def nr (cptr : IrcInAddr) (s : Registro) : UInt16 :=
  let canon := canonicalize cptr
  let hash := s.vector canon
  match registryFind hash canon with
  | none => 0
  | some i => (hash.vector[i]?.map (·.connected)).getD 0

end Ircd.IPcheck
