import Ircd.Numnicks
import Mathlib.Logic.Function.Basic

/-!
# The clients of a server

The list of all clients, the tree of servers and the numerics: `make_client`, `make_server`,
`add_dlink`, `remove_dlink`, `add_client_to_list` and `remove_client_from_list` of `ircd/list.c`, and
the functions of `ircd/numnicks.c` that register a numeric or look one up. Pointers to clients are
values of a type `ι`, and `ficha` is the memory behind them.
-/

namespace Ircd.Net

open CString

variable {ι : Type}

/-! ## Data -/

/-- `struct Server`. -/
structure Servidor (ι : Type) where
  up : Option ι
  down : List ι
  prot : ℕ
  nnCapacity : CStr
  nnMask : ℕ
  nnLast : ℕ
  /-- `client_list`, which is `NULL` before `SetServerYXX`. -/
  clientList : Option (ℕ → Option ι)

/-- The block that `make_server` clears. -/
def makeServer : Servidor ι :=
  ⟨none, [], 0, [], 0, 0, none⟩

/-- The kinds of clients. -/
inductive Status
  | me
  | server
  | user
  | unknown
deriving DecidableEq

/-- `struct Client`. While it has no `serv`, the block is the one of `make_server`. -/
structure Cliente (ι : Type) where
  /-- The local client behind whose socket the client is. -/
  desde : ι
  status : Status
  yxx : CStr
  /-- `user->server`, when `make_user` was called. -/
  user : Option ι
  serv : Servidor ι

/-- `make_client`. -/
def makeClient (desde : ι) (status : Status) : Cliente ι :=
  ⟨desde, status, [], none, makeServer⟩

/-- The server, and the clients it knows. The static variables of `SetLocalNumNick` are the last
two. -/
@[ext] structure Red (ι : Type) where
  me : ι
  /-- The list of all clients, the youngest one first. -/
  client : List ι
  ficha : ι → Cliente ι
  serverList : ℕ → Option ι
  lastNNServer : ℕ
  numericsExtendidos : Bool
  lastNumericsExtendidos : Bool
  lastNn : ℕ

variable [DecidableEq ι]

/-- One client is changed. -/
def Red.cambia (r : Red ι) (x : ι) (f : Cliente ι → Cliente ι) : Red ι :=
  { r with ficha := Function.update r.ficha x (f (r.ficha x)) }

/-- The entry `i` of `client_list`. -/
def Servidor.hueco (s : Servidor ι) (i : ℕ) : Option ι :=
  s.clientList.bind (· i)

/-- An entry of `client_list` is written. -/
def Servidor.pon (s : Servidor ι) (i : ℕ) (x : Option ι) : Servidor ι :=
  { s with clientList := s.clientList.map (Function.update · i x) }

/-- The index of a client in the `client_list` of a server with this mask. -/
def indice (mask : ℕ) (yxx : CStr) : ℕ :=
  base64toint yxx &&& mask

/-- The index is one of the `client_list`, which has `nn_mask + 1` entries. -/
theorem indice_le (mask : ℕ) (yxx : CStr) : indice mask yxx ≤ mask :=
  Nat.and_le_right

/-! ## Lists -/

/-- `add_dlink`. -/
def Red.addDlink (r : Red ι) (p x : ι) : Red ι :=
  r.cambia p fun c ↦ { c with serv := { c.serv with down := x :: c.serv.down } }

/-- `remove_dlink`. -/
def Red.removeDlink (r : Red ι) (p x : ι) : Red ι :=
  r.cambia p fun c ↦ { c with serv := { c.serv with down := c.serv.down.erase x } }

/-- `add_client_to_list`. -/
def Red.addClientToList (r : Red ι) (x : ι) : Red ι :=
  { r with client := x :: r.client }

/-- `remove_client_from_list`. The memory of the client is free. -/
def Red.removeClientFromList (r : Red ι) (x : ι) : Red ι :=
  { r with client := r.client.erase x }.cambia x fun _ ↦ makeClient x .unknown

/-! ## Numerics -/

/-- `NN_MAX_CLIENT_SHORT`. -/
def NN_MAX_CLIENT_SHORT : ℕ := 4096

/-- `NN_MAX_CLIENT_EXT`. -/
def NN_MAX_CLIENT_EXT : ℕ := 262144

/-- `FindXNServer`: the server with the first two characters. -/
def Red.findXNServer (r : Red ι) (numeric : CStr) : Option ι :=
  r.serverList (base64toint (numeric.take 2))

/-- `FindNServer`. -/
def Red.findNServer (r : Red ι) (numeric : CStr) : Option ι :=
  if numeric.length = 0 then none
  else if numeric.length < 3 then r.serverList (base64toint numeric)
  else if numeric.length = 3 then r.serverList (convert2n (numeric.getD 0 nul))
  else r.findXNServer numeric

/-- The client of a server with a numeric. -/
def Red.enServer (r : Red ι) (server : ι) (xx : CStr) : Option ι :=
  (r.ficha server).serv.hueco (indice (r.ficha server).serv.nnMask xx)

/-- `findNUser`. -/
def Red.findNUser (r : Red ι) (yxx : CStr) : Option ι :=
  if yxx.length = 0 then none
  else if yxx.length = 5 then
    match r.findXNServer yxx with
    | some server => r.enServer server (yxx.drop 2)
    | none => none
  else
    match r.findNServer yxx with
    | some server => r.enServer server (yxx.drop 1)
    | none => none

/-- `RemoveYXXClient`. -/
def Red.removeYXXClient (r : Red ι) (server : ι) (yxx : CStr) : Red ι :=
  if yxx = [] then r
  else r.cambia server fun c ↦ { c with serv := c.serv.pon (indice c.serv.nnMask yxx) none }

/-- `ClearServerYXX`. -/
def Red.clearServerYXX (r : Red ι) (server : ι) : Red ι :=
  let index := base64toint (r.ficha server).yxx
  if r.serverList index = some server then
    { r with serverList := Function.update r.serverList index none }
  else r

/-- `server` gets an entry in `server_list`. -/
def Red.ponServer (r : Red ι) (index : ℕ) (server : ι) : Red ι :=
  { r with
    lastNNServer := if index ≥ r.lastNNServer then index + 1 else r.lastNNServer
    serverList := Function.update r.serverList index (some server) }

omit [DecidableEq ι] in
theorem Red.lastNNServer_ponServer (r : Red ι) (index : ℕ) (server : ι) :
    (r.ponServer index server).lastNNServer = max r.lastNNServer (index + 1) := by
  show (if index ≥ r.lastNNServer then index + 1 else r.lastNNServer) = _
  split <;> omega

omit [DecidableEq ι] in
theorem Red.serverList_ponServer {r : Red ι} {index i : ℕ} {server s : ι} :
    (r.ponServer index server).serverList i = some s ↔
      if i = index then server = s else r.serverList i = some s := by
  show Function.update r.serverList index (some server) i = some s ↔ _
  rw [Function.update_apply]
  split
  · rw [Option.some_inj]
  · rfl

/-- The numeric and the capacity that `SetServerYXX` reads from a text of the link, or, when the link
has protocol 9, from the record of the server in the database. -/
def Servidor.conYXX (protocol : ℕ) (valor : Option ℕ) (texto : CStr) (c : Cliente ι) :
    Cliente ι :=
  if protocol > 9 then
    if texto.length = 5 then
      { c with
        yxx := texto.take 2 ++ c.yxx.drop 2
        serv := { c.serv with
          nnCapacity := texto.drop 2
          nnMask := base64toint (texto.drop 2) } }
    else
      let capacity := (texto.drop 1).take 2 ++ c.serv.nnCapacity.drop 2
      { c with
        yxx := texto.take 1 ++ c.yxx.drop 1
        serv := { c.serv with nnCapacity := capacity, nnMask := base64toint capacity } }
  else
    match valor with
    | some n =>
        { c with
          yxx := convert2y n :: c.yxx.drop 1
          serv := { c.serv with nnCapacity := inttobase64 63 2, nnMask := 63 } }
    | none => c

/-- `SetServerYXX`, of a server behind a link with this protocol. -/
def Red.setServerYXX (r : Red ι) (protocol : ℕ) (valor : Option ℕ) (server : ι) (texto : CStr) :
    Red ι :=
  let r := r.cambia server (Servidor.conYXX protocol valor texto)
  (r.ponServer (base64toint (r.ficha server).yxx) server).cambia server fun c ↦
    { c with serv := { c.serv with clientList := some fun _ ↦ none } }

/-- `SetYXXServerName`. -/
def Red.setYXXServerName (r : Red ι) (c : ι) (numeric : ℕ) : Red ι :=
  (r.cambia c fun d ↦
    { d with
      yxx := if numeric ≥ 64 then inttobase64 numeric 2
        else convert2y numeric :: d.yxx.drop 1 }).ponServer numeric c

/-- The loop of `SetYXXCapacity`, which doubles `max_clients` at most as often as the first number
says. -/
def dobla (capacity : ℕ) : ℕ → ℕ → ℕ
  | 0, maxClients => maxClients
  | veces + 1, maxClients =>
      if maxClients < capacity then dobla capacity veces (maxClients * 2) else maxClients

/-- `max_clients` behind the loop. As many steps as there are clients are enough. -/
def maxClients (capacity : ℕ) : ℕ :=
  dobla capacity capacity 16

/-- `SetYXXCapacity`. The program ends when there are too many clients for the numerics. -/
def Red.setYXXCapacity (r : Red ι) (c : ι) (capacity : ℕ) : Option (Red ι) :=
  let index := base64toint (r.ficha c).yxx
  let extendidos : Bool := decide (index ≥ 64)
  let nnMaxClient := if extendidos then NN_MAX_CLIENT_EXT else NN_MAX_CLIENT_SHORT
  let max := maxClients capacity
  if max > nnMaxClient then none
  else
    some { r.cambia c fun d ↦
        { d with
          serv := { d.serv with
            nnCapacity := inttobase64 (max - 1) (if extendidos then 3 else 2)
            nnMask := max - 1
            clientList := some fun _ ↦ none } } with
      numericsExtendidos := extendidos
      serverList := Function.update r.serverList index (some c) }

/-- The loop of `SetLocalNumNick` and of `CreateNNforProtocol9server`: whether a free numeric was
found, and where the search stops. The first number counts the steps that are left. -/
def buscaLibre (ocupado : ℕ → Bool) (maxClient : ℕ) : ℕ → ℕ → Bool × ℕ
  | 0, lastNn => (false, lastNn)
  | quedan + 1, lastNn =>
      if ocupado lastNn then
        -- `if (++count == max_client) return 0;`
        if quedan = 0 then (false, lastNn)
        else buscaLibre ocupado maxClient quedan (if lastNn + 1 = maxClient then 0 else lastNn + 1)
      else (true, lastNn)

/-- `max_client`. -/
def Red.maxClient (r : Red ι) : ℕ :=
  if r.numericsExtendidos then NN_MAX_CLIENT_EXT else NN_MAX_CLIENT_SHORT

/-- The start of `SetLocalNumNick`: the numerics begin again after a change of their length. -/
def Red.numericsAlDia (r : Red ι) : Red ι :=
  { r with
    lastNumericsExtendidos := r.numericsExtendidos
    lastNn := if r.numericsExtendidos ≠ r.lastNumericsExtendidos then 0 else r.lastNn }

/-- `SetLocalNumNick`. -/
def Red.setLocalNumNick (r : Red ι) (cptr : ι) : Bool × Red ι :=
  let r := r.numericsAlDia
  let serv := (r.ficha r.me).serv
  match buscaLibre (fun nn ↦ (serv.hueco (nn &&& serv.nnMask)).isSome) r.maxClient r.maxClient
      r.lastNn with
  | (false, nn) => (false, { r with lastNn := nn })
  | (true, nn) =>
      let r := r.cambia r.me fun c ↦ { c with serv := c.serv.pon (nn &&& c.serv.nnMask) (some cptr) }
      let r := r.cambia cptr fun c ↦
        { c with yxx := inttobase64 nn (if r.numericsExtendidos then 3 else 2) }
      (true, { r with lastNn := if nn + 1 = r.maxClient then 0 else nn + 1 })

/-- `CreateNNforProtocol9server`. -/
def Red.createNN (r : Red ι) (server : ι) : Option CStr × Red ι :=
  let serv := (r.ficha server).serv
  match buscaLibre (fun nn ↦ (serv.hueco nn).isSome) 64 64 serv.nnLast with
  | (false, nn) =>
      (none, r.cambia server fun c ↦ { c with serv := { c.serv with nnLast := nn } })
  | (true, nn) =>
      (some ((r.ficha server).yxx.take 1 ++ inttobase64 nn 2),
        r.cambia server fun c ↦
          { c with serv := { c.serv with nnLast := if nn + 1 = 64 then 0 else nn + 1 } })

end Ircd.Net
