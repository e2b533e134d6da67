import Ircd.Lib.Run
import Ircd.Net.Salida

/-!
# SQUIT and QUIT

When a client leaves, `exit_client` tells it to the links of the server: SQUIT of a server, QUIT of
a user. On the other side `parse` checks the prefix, `m_squit` and `m_quit` find the client, and
`exit_client` takes it out there and tells it to the next links. `Mundo` is the network of all
servers, each with what it knows (`Red`), and the messages on the links between them. A name or a
numeric in a message stands for the same client on every server, and the timestamp of a server is
the same on all of them.
-/

namespace Ircd.Net

variable {ι : Type} [DecidableEq ι]

/-- SQUIT with its prefix, a server and a timestamp, and QUIT with its prefix. -/
inductive Mensaje (ι : Type) where
  | squit (sptr server : ι) (timestamp : ℕ)
  | quit (sptr : ι)

/-- The client in front of the message. -/
def Mensaje.prefijo : Mensaje ι → ι
  | .squit sptr _ _ => sptr
  | .quit sptr => sptr

/-- The client that the message takes out. -/
def Mensaje.objetivo : Mensaje ι → ι
  | .squit _ server _ => server
  | .quit sptr => sptr

variable (timestamp : ι → ℕ)

/-- What the links are told when `b` leaves: SQUIT of a server, QUIT of a user. -/
def Red.aviso (r : Red ι) (b sptr : ι) : Option (Mensaje ι) :=
  match (r.ficha b).status with
  | .server => some (.squit sptr b (timestamp b))
  | .user => some (.quit b)
  | _ => none

/-- What `exit_client` sends, and to which links, when `sptr` is a server or `b` a user. A server
that leaves and has not asked for it gets the SQUIT that closes its link; the link of `sptr` gets
nothing. -/
def Red.exitMensajes (r : Red ι) (b sptr : ι) : List (ι × Mensaje ι) :=
  (if (r.ficha b).desde = b ∧ b ≠ (r.ficha sptr).desde ∧ (r.ficha b).status = .server then
    [(b, .squit sptr r.me 0)] else []) ++
  ((r.ficha r.me).serv.down.filter fun d ↦ d ≠ (r.ficha sptr).desde ∧ d ≠ b).filterMap fun d ↦
    (r.aviso timestamp b sptr).map (d, ·)

/-- The prefix of a message in `parse`. An unknown one is a message that travels against a SQUIT:
only another SQUIT may. A known one from another link has a fake direction. -/
def Red.parse (r : Red ι) (cptr : ι) (m : Mensaje ι) : Option ι :=
  if m.prefijo ∈ r.client then
    if (r.ficha m.prefijo).desde = cptr then some m.prefijo else none
  else
    match m with
    | .squit .. => some cptr
    | .quit _ => none

/-- `m_squit` from a server: the client that leaves. SQUIT of the server itself is about the link it
comes from, and one with another timestamp is about a server that has come back. -/
def Red.mSquit (r : Red ι) (cptr server : ι) (t : ℕ) : Option ι :=
  if server ∈ r.client ∧ ((r.ficha server).status = .server ∨ server = r.me) then
    let acptr := if server = r.me then cptr else server
    if t ≠ 0 ∧ t ≠ timestamp acptr then none else some acptr
  else none

/-- `m_quit` from a server: the client that leaves. -/
def Red.mQuit (r : Red ι) (sptr : ι) : Option ι :=
  if (r.ficha sptr).status = .server then none else some sptr

/-- The client that leaves with a message, and the one on whose behalf it does. -/
def Red.lee (r : Red ι) (cptr : ι) (m : Mensaje ι) : Option (ι × ι) :=
  match r.parse cptr m with
  | none => none
  | some sptr =>
      match m with
      | .squit _ server t => (r.mSquit timestamp cptr server t).map (·, sptr)
      | .quit _ => (r.mQuit sptr).map (·, sptr)

/-- The network: what each server knows, and the messages that a server has sent to another. -/
structure Mundo (ι : Type) where
  red : ι → Red ι
  vuelo : List (ι × ι × Mensaje ι)

/-- A server has the link to another one open. -/
def Mundo.Abierto (w : Mundo ι) (a b : ι) : Prop :=
  b ∈ ((w.red a).ficha (w.red a).me).serv.down

instance (w : Mundo ι) (a b : ι) : Decidable (w.Abierto a b) :=
  inferInstanceAs (Decidable (_ ∈ _))

/-- `exit_client` on the server `a`. -/
def Mundo.exit (w : Mundo ι) (a cptr b sptr : ι) : Mundo ι :=
  { red := Function.update w.red a ((((w.red a).exitClient cptr b).map (·.1)).getD (w.red a))
    vuelo := w.vuelo ++ ((w.red a).exitMensajes timestamp b sptr).map fun m ↦ (a, m) }

/-- A message comes in. A server that has closed the link does not read it. -/
def Mundo.entrega (w : Mundo ι) (k : ℕ) : Mundo ι :=
  match w.vuelo[k]? with
  | none => w
  | some (p, q, m) =>
      let w' : Mundo ι := { w with vuelo := w.vuelo.eraseIdx k }
      if w.Abierto q p then
        match (w.red q).lee timestamp p m with
        | none => w'
        | some (acptr, sptr) => w'.exit timestamp q p acptr sptr
      else w'

/-- What happens in the network: `exit_client` on a server, for a reason of its own; a message that
comes in; and one that is lost. -/
inductive Aviso (ι : Type) where
  | exit (a b sptr : ι)
  | entrega (k : ℕ)
  | pierde (k : ℕ)

/-- The network behind it. -/
def Mundo.paso : Aviso ι → Mundo ι → Mundo ι
  | .exit a b sptr, w => w.exit timestamp a b b sptr
  | .entrega k, w => w.entrega timestamp k
  | .pierde k, w => { w with vuelo := w.vuelo.eraseIdx k }

/-- When it happens. A server takes out any other server or a user of its own for itself, and a user
of its own leaves by itself; messages are lost only on a link that one of its servers has closed. An
operator's SQUIT is not here: `exit_client` puts `NumServ` of the operator in front of it, the bare
numeric of a user, which `parse_server` takes for the numeric of a server. -/
def Mundo.Puede (servers : Set ι) : Aviso ι → Mundo ι → Prop
  | .exit a b sptr, w => a ∈ servers ∧ b ∈ (w.red a).client ∧ b ≠ a ∧
      ((w.red a).EsServer b ∧ sptr = a ∨
        ((w.red a).ficha b).user = some a ∧ (sptr = a ∨ sptr = b))
  | .entrega _, _ => True
  | .pierde k, w => ∀ p q m, w.vuelo[k]? = some (p, q, m) → ¬ (w.Abierto p q ∧ w.Abierto q p)

end Ircd.Net
