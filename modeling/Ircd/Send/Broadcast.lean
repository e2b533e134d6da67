import Ircd.Common
import Ircd.Sprintf.Tabla
import Mathlib.Data.List.Forall2

/-!
# Broadcasts

`sendbufto_one`, `dead_link`, `send_queued` and `vsendto_op_mask` of `ircd/send.c`, and the loops of
`sendto_serv_butone`, `sendbufto_serv_butone` and `sendto_highprot_butone` over the server links.
All senders share `sendbuf`, and the notice about a link that dies is written into it. The last of
the three functions prints its message again for each link, and delivers it to all of them
(`unMensaje_highprot`). The other two do so exactly when no link behind one that dies is left with
the notice (`difunde_iff`), as `difusion_iff` says of the three together.

The queue of a link is its length and the list of what was appended to it. What the system writes of
a queue, and whether there is memory to append, are data of the link.
-/

namespace Ircd.Send

open CString

/-! ## Connections -/

/-- The kinds of local connections that `dead_link` and `sendbufto_one` tell apart. -/
inductive Clase where
  | servidor
  | usuario
  | desconocido
  | otro
deriving DecidableEq

/-- A local connection. -/
structure Conexion (κ : Type) where
  id : κ
  name : CStr
  clase : Clase
  protocol : Nat
  dead : Bool
  closing : Bool
  blocked : Bool
  fd : Int
  /-- `DBufLength` of the queue, and `get_sendq`. -/
  sendQ : Nat
  maxSendq : Nat
  lastsq : Nat
  info : CStr
  /-- `dbuf_put` finds memory. -/
  memoria : Bool
  /-- What is left of a queue of some length after writing, unless there is an error. -/
  deliver : Nat → Option Nat
  /-- What was appended to the queue. -/
  puestos : List CStr

/-- `sendbuf`, and the local users of the list `opsarray[0]`, which get the notices of
`SNO_OLDSNO`. -/
structure Envio (κ : Type) where
  sendbuf : CStr
  opers : List (Conexion κ)

variable {κ : Type}

/-- A buffer with its line end, which `sendbufto_one` adds when there is none. -/
def terminada (buf : CStr) : CStr :=
  if buf.getLast? = some '\n' then buf else buf.take 510 ++ ['\r', '\n']

/-- `dead_link` tells the operators. -/
def Conexion.avisada (dest : Conexion κ) : Bool :=
  dest.clase ≠ .usuario ∧ dest.clase ≠ .desconocido ∧ ¬dest.closing

/-- The text of the notice of `dead_link`. -/
def Conexion.causa (dest : Conexion κ) (notice : CStr) : CStr :=
  notice.take REALLEN ++ " for ".toList ++ dest.name

/-- The text of the notice about a queue over its limit. `SIZE_T_FMT` is `%lu`. -/
def Conexion.exceso (dest : Conexion κ) : CStr :=
  "Max SendQ limit exceeded for ".toList ++ dest.name ++ ": ".toList ++ Sprintf.lu dest.sendQ ++
    " > ".toList ++ Sprintf.lu dest.maxSendq

section

variable (avisa : CStr → Envio κ → Envio κ)

/-- `dead_link`. `avisa` is `sendto_ops`. -/
def deadLink (dest : Conexion κ) (notice : CStr) (s : Envio κ) : Conexion κ × Envio κ :=
  ({ dest with dead := true, sendQ := 0, info := notice.take REALLEN },
    if dest.avisada then avisa (dest.causa notice) s else s)

/-- `send_queued`. -/
def sendQueued (dest : Conexion κ) (s : Envio κ) : Conexion κ × Envio κ :=
  if dest.blocked then (dest, s)
  else if dest.dead then (dest, s)
  else if dest.sendQ = 0 then (dest, s)
  else
    match dest.deliver dest.sendQ with
    | none => deadLink avisa dest "Write error, closing link".toList s
    | some queda => ({ dest with sendQ := queda, lastsq := queda / 1024, blocked := queda ≠ 0 }, s)

/-- `sendbufto_one` for a local connection. -/
def sendbuftoOne (dest : Conexion κ) (s : Envio κ) : Conexion κ × Envio κ :=
  if dest.dead then (dest, s)
  else if dest.fd < 0 then (dest, s)
  else
    let s := { s with sendbuf := terminada s.sendbuf }
    if dest.maxSendq < dest.sendQ then
      deadLink avisa dest "Max sendQ exceeded".toList
        (if dest.clase = .servidor then avisa dest.exceso s else s)
    else if ¬dest.memoria then deadLink avisa dest "Buffer allocation error".toList s
    else
      let dest := { dest with
        puestos := dest.puestos ++ [s.sendbuf]
        sendQ := dest.sendQ + s.sendbuf.length }
      if dest.lastsq < dest.sendQ / 1024 then sendQueued avisa dest s else (dest, s)

end

/-! ## Notices -/

variable (me : CStr)

/-- The line of a notice for a user. -/
def aviso (nick texto : CStr) : CStr :=
  ":".toList ++ me ++ " NOTICE ".toList ++ nick ++ " :*** Notice -- ".toList ++ texto

/-- The loop of `vsendto_op_mask` over the list of a mask. The notices go to users, whose own end is
not announced. -/
def vsendtoOpMask (texto : CStr) : List (Conexion κ) → CStr → Envio κ
  | [], buf => ⟨buf, []⟩
  | op :: ops, _ =>
      let r := sendbuftoOne (fun _ s ↦ s) op ⟨aviso me op.name texto, []⟩
      let s := vsendtoOpMask texto ops r.2.sendbuf
      { s with opers := r.1 :: s.opers }

/-- `sendto_ops`, which is `vsendto_op_mask` for `SNO_OLDSNO`. -/
def sendtoOps (texto : CStr) (s : Envio κ) : Envio κ :=
  vsendtoOpMask me texto s.opers s.sendbuf

/-! ## The loops over the server links -/

/-- The loop of `sendbufto_serv_butone` over `me.serv->down`. -/
def difunde (excluida : Conexion κ → Bool) : List (Conexion κ) → Envio κ →
    List (Conexion κ) × Envio κ
  | [], s => ([], s)
  | e :: es, s =>
      let r := if excluida e then (e, s) else sendbuftoOne (sendtoOps me) e s
      let rs := difunde excluida es r.2
      (r.1 :: rs.1, rs.2)

/-- The loop of `sendto_highprot_butone`, which prints the message for each link. -/
def difundeCada (excluida : Conexion κ → Bool) (texto : CStr) : List (Conexion κ) → Envio κ →
    List (Conexion κ) × Envio κ
  | [], s => ([], s)
  | e :: es, s =>
      let r := if excluida e then (e, s)
        else sendbuftoOne (sendtoOps me) e { s with sendbuf := texto }
      let rs := difundeCada excluida texto es r.2
      (r.1 :: rs.1, rs.2)

section

variable [DecidableEq κ]

/-- The link over which a client is reached. -/
def esOrigen (one : Option κ) (e : Conexion κ) : Bool :=
  one = some e.id

/-- `sendbufto_serv_butone`. `one` is the link of the client that is left out. -/
def sendbuftoServButone (one : Option κ) (down : List (Conexion κ)) (s : Envio κ) :
    List (Conexion κ) × Envio κ :=
  difunde me (esOrigen one) down s

/-- `sendto_serv_butone`. -/
def sendtoServButone (one : Option κ) (texto : CStr) (down : List (Conexion κ)) (s : Envio κ) :
    List (Conexion κ) × Envio κ :=
  difunde me (esOrigen one) down { s with sendbuf := texto }

/-- The links that `sendto_highprot_butone` leaves out. -/
def esOrigenOBajo (cptr : Option κ) (p : Nat) (e : Conexion κ) : Bool :=
  esOrigen cptr e ∨ e.protocol < p

/-- `sendto_highprot_butone`. -/
def sendtoHighprotButone (cptr : Option κ) (p : Nat) (texto : CStr) (down : List (Conexion κ))
    (s : Envio κ) : List (Conexion κ) × Envio κ :=
  difundeCada me (esOrigenOBajo cptr p) texto down s

end

/-! ## What is promised -/

/-- A message is a text without a line end. -/
structure Mensaje where
  texto : CStr
  noVacio : texto ≠ []
  sinFin : '\n' ∉ texto

/-- The message cut to 510 bytes and ended by CR LF. -/
def Mensaje.linea (m : Mensaje) : CStr :=
  m.texto.take 510 ++ ['\r', '\n']

/-- The link is alive and within its limit, and there is memory for its queue. -/
def Conexion.recibe (e : Conexion κ) : Bool :=
  ¬e.dead ∧ 0 ≤ e.fd ∧ e.sendQ ≤ e.maxSendq ∧ e.memoria

/-- Each link that is not left out and can take it gets the line once, and nothing else is appended
to a link. -/
def UnMensaje (excluida : Conexion κ → Bool) (linea : CStr) (es es' : List (Conexion κ)) : Prop :=
  List.Forall₂ (fun e e' ↦
    e'.puestos = e.puestos ++ if ¬excluida e ∧ e.recibe then [linea] else []) es es'

/-- The last notice about a link to which the line is sent, if there is one. -/
def Conexion.anuncia (linea : CStr) (e : Conexion κ) : Option CStr :=
  if e.dead ∨ e.fd < 0 then none
  else if e.maxSendq < e.sendQ then
    if e.avisada then some (e.causa "Max sendQ exceeded".toList)
    else if e.clase = .servidor then some e.exceso
    else none
  else if ¬e.memoria then
    if e.avisada then some (e.causa "Buffer allocation error".toList) else none
  else
    let queda := e.sendQ + linea.length
    if e.lastsq < queda / 1024 ∧ ¬e.blocked ∧ queda ≠ 0 ∧ e.deliver queda = none ∧ e.avisada then
      some (e.causa "Write error, closing link".toList)
    else none

/-! ## Lines -/

theorem terminada_of_getLast {buf : CStr} (h : buf.getLast? = some '\n') : terminada buf = buf :=
  if_pos h

/-- A line end is added once. -/
@[simp] theorem terminada_terminada (buf : CStr) : terminada (terminada buf) = terminada buf := by
  refine terminada_of_getLast ?_
  rw [terminada]
  split
  · assumption
  · simp

theorem Mensaje.terminada (m : Mensaje) : Send.terminada m.texto = m.linea := by
  refine if_neg fun h ↦ m.sinFin ?_
  exact List.mem_of_getLast? h

/-! ## One connection -/

variable {me : CStr} {e : Conexion κ} {s : Envio κ} {avisa : CStr → Envio κ → Envio κ}

/-- The link is closed. -/
theorem sendbuftoOne_cerrada (avisa : CStr → Envio κ → Envio κ) (s : Envio κ)
    (h : e.dead = true ∨ e.fd < 0) : sendbuftoOne avisa e s = (e, s) := by
  rw [sendbuftoOne]
  rcases h with h | h
  · rw [if_pos h]
  · rw [if_pos h, ite_self]

/-- The queue is over its limit. -/
theorem sendbuftoOne_llena (avisa : CStr → Envio κ → Envio κ) (s : Envio κ)
    (h : ¬(e.dead = true ∨ e.fd < 0)) (hmax : e.maxSendq < e.sendQ) :
    sendbuftoOne avisa e s = deadLink avisa e "Max sendQ exceeded".toList
      (if e.clase = .servidor then avisa e.exceso { s with sendbuf := terminada s.sendbuf }
      else { s with sendbuf := terminada s.sendbuf }) := by
  rw [not_or] at h
  rw [sendbuftoOne, if_neg h.1, if_neg h.2]
  exact if_pos hmax

/-- There is no memory for the queue. -/
theorem sendbuftoOne_sinMemoria (avisa : CStr → Envio κ → Envio κ) (s : Envio κ)
    (h : ¬(e.dead = true ∨ e.fd < 0)) (hmax : ¬e.maxSendq < e.sendQ) (hmem : ¬e.memoria = true) :
    sendbuftoOne avisa e s = deadLink avisa e "Buffer allocation error".toList
      { s with sendbuf := terminada s.sendbuf } := by
  rw [not_or] at h
  rw [sendbuftoOne, if_neg h.1, if_neg h.2]
  exact (if_neg hmax).trans (if_pos hmem)

/-- A link with a line behind its queue. -/
def Conexion.con (e : Conexion κ) (linea : CStr) : Conexion κ :=
  { e with puestos := e.puestos ++ [linea], sendQ := e.sendQ + linea.length }

/-- The line is appended. -/
theorem sendbuftoOne_puesta (avisa : CStr → Envio κ → Envio κ) (s : Envio κ)
    (h : ¬(e.dead = true ∨ e.fd < 0)) (hmax : ¬e.maxSendq < e.sendQ) (hmem : e.memoria = true) :
    sendbuftoOne avisa e s =
      if e.lastsq < (e.sendQ + (terminada s.sendbuf).length) / 1024 then
        sendQueued avisa (e.con (terminada s.sendbuf)) { s with sendbuf := terminada s.sendbuf }
      else (e.con (terminada s.sendbuf), { s with sendbuf := terminada s.sendbuf }) := by
  rw [not_or] at h
  rw [sendbuftoOne, if_neg h.1, if_neg h.2]
  exact (if_neg hmax).trans (if_neg (not_not.mpr hmem))

theorem Conexion.recibe_iff : e.recibe = true ↔
    ¬(e.dead = true ∨ e.fd < 0) ∧ ¬e.maxSendq < e.sendQ ∧ e.memoria = true := by
  simp only [Conexion.recibe, decide_eq_true_eq, not_or, Int.not_lt, Nat.not_lt, and_assoc]

/-- Writing a queue appends nothing to it. -/
theorem sendQueued_puestos (avisa : CStr → Envio κ → Envio κ) (e : Conexion κ) (s : Envio κ) :
    (sendQueued avisa e s).1.puestos = e.puestos ∧ (sendQueued avisa e s).1.name = e.name := by
  unfold sendQueued
  split
  · exact ⟨rfl, rfl⟩
  split
  · exact ⟨rfl, rfl⟩
  split
  · exact ⟨rfl, rfl⟩
  · cases e.deliver e.sendQ <;> exact ⟨rfl, rfl⟩

/-- What is appended to a queue. -/
theorem sendbuftoOne_puestos (avisa : CStr → Envio κ → Envio κ) (e : Conexion κ) (s : Envio κ) :
    (sendbuftoOne avisa e s).1.puestos =
        e.puestos ++ (if e.recibe then [terminada s.sendbuf] else []) ∧
      (sendbuftoOne avisa e s).1.name = e.name := by
  have hnada : ¬e.recibe = true →
      e.puestos ++ (if e.recibe then [terminada s.sendbuf] else []) = e.puestos := by
    intro h
    rw [if_neg h, List.append_nil]
  by_cases h : e.dead = true ∨ e.fd < 0
  · rw [sendbuftoOne_cerrada avisa s h, hnada fun hr ↦ (Conexion.recibe_iff.mp hr).1 h]
    exact ⟨rfl, rfl⟩
  by_cases hmax : e.maxSendq < e.sendQ
  · rw [sendbuftoOne_llena avisa s h hmax, hnada fun hr ↦ (Conexion.recibe_iff.mp hr).2.1 hmax]
    exact ⟨rfl, rfl⟩
  by_cases hmem : e.memoria = true
  · rw [sendbuftoOne_puesta avisa s h hmax hmem,
      if_pos (Conexion.recibe_iff.mpr ⟨h, hmax, hmem⟩)]
    split
    · exact sendQueued_puestos avisa _ _
    · exact ⟨rfl, rfl⟩
  · rw [sendbuftoOne_sinMemoria avisa s h hmax hmem,
      hnada fun hr ↦ hmem (Conexion.recibe_iff.mp hr).2.2]
    exact ⟨rfl, rfl⟩

/-! ## What the notices leave -/

/-- The name of the last operator. -/
def Envio.ultimo (s : Envio κ) : Option CStr :=
  (s.opers.map Conexion.name).getLast?

/-- The line that is in the buffer, up to its end, when a notice was sent behind it. -/
def tras (me : CStr) (ultimo : Option CStr) (linea : CStr) (texto : Option CStr) : CStr :=
  texto.elim linea fun t ↦ ultimo.elim linea fun nick ↦ terminada (aviso me nick t)

/-- A user that dies leaves the buffer as it was, up to its line end. -/
theorem sendbuftoOne_usuario (op : Conexion κ) (s : Envio κ) :
    terminada (sendbuftoOne (fun _ s ↦ s) op s).2.sendbuf = terminada s.sendbuf := by
  have hdead : ∀ (e : Conexion κ) (notice : CStr) (s : Envio κ),
      (deadLink (fun _ s ↦ s) e notice s).2 = s := fun _ _ _ ↦ ite_self _
  by_cases h : op.dead = true ∨ op.fd < 0
  · rw [sendbuftoOne_cerrada _ s h]
  by_cases hmax : op.maxSendq < op.sendQ
  · rw [sendbuftoOne_llena _ s h hmax, hdead, ite_self, terminada_terminada]
  by_cases hmem : op.memoria = true
  · rw [sendbuftoOne_puesta _ s h hmax hmem]
    split
    · unfold sendQueued
      split
      · exact terminada_terminada _
      split
      · exact terminada_terminada _
      split
      · exact terminada_terminada _
      · cases (op.con (terminada s.sendbuf)).deliver (op.con (terminada s.sendbuf)).sendQ with
        | none =>
            show terminada (deadLink _ _ _ _).2.sendbuf = _
            rw [hdead, terminada_terminada]
        | some queda => exact terminada_terminada _
    · exact terminada_terminada _
  · rw [sendbuftoOne_sinMemoria _ s h hmax hmem, hdead, terminada_terminada]

/-- The notices that are sent to the operators. -/
theorem vsendtoOpMask_eq (me texto : CStr) (ops : List (Conexion κ)) (buf : CStr) :
    terminada (vsendtoOpMask me texto ops buf).sendbuf =
        (ops.map Conexion.name).getLast?.elim (terminada buf)
          (fun nick ↦ terminada (aviso me nick texto)) ∧
      (vsendtoOpMask me texto ops buf).opers.map Conexion.name = ops.map Conexion.name := by
  induction ops generalizing buf with
  | nil => exact ⟨rfl, rfl⟩
  | cons op ops ih =>
      obtain ⟨hbuf, hnames⟩ := ih
        (sendbuftoOne (fun _ s ↦ s) op ⟨aviso me op.name texto, []⟩).2.sendbuf
      refine ⟨?_, ?_⟩
      · show terminada (vsendtoOpMask me texto ops _).sendbuf = _
        rw [hbuf, sendbuftoOne_usuario, List.map_cons, List.getLast?_cons]
        cases (ops.map Conexion.name).getLast? <;> rfl
      · show _ :: (vsendtoOpMask me texto ops _).opers.map Conexion.name = _
        rw [hnames, (sendbuftoOne_puestos _ op _).2]
        rfl

theorem sendtoOps_eq (me texto : CStr) (s : Envio κ) :
    terminada (sendtoOps me texto s).sendbuf =
        tras me s.ultimo (terminada s.sendbuf) (some texto) ∧
      (sendtoOps me texto s).ultimo = s.ultimo := by
  obtain ⟨hbuf, hnames⟩ := vsendtoOpMask_eq me texto s.opers s.sendbuf
  exact ⟨hbuf, congrArg List.getLast? hnames⟩

/-- A second notice takes the place of the first. -/
theorem tras_tras (me : CStr) (ultimo : Option CStr) (linea : CStr) (t : Option CStr) (t' : CStr) :
    tras me ultimo (tras me ultimo linea t) (some t') = tras me ultimo linea (some t') := by
  cases ultimo with
  | none => cases t <;> rfl
  | some nick => rfl

/-- The end of a link. -/
theorem deadLink_eq (me : CStr) (e : Conexion κ) (notice : CStr) (s : Envio κ) :
    terminada (deadLink (sendtoOps me) e notice s).2.sendbuf =
        tras me s.ultimo (terminada s.sendbuf)
          (if e.avisada then some (e.causa notice) else none) ∧
      (deadLink (sendtoOps me) e notice s).2.ultimo = s.ultimo := by
  unfold deadLink
  dsimp only
  split
  · exact sendtoOps_eq me _ s
  · exact ⟨rfl, rfl⟩

/-- Writing the queue of a link. -/
theorem sendQueued_eq (me : CStr) (e : Conexion κ) (s : Envio κ) :
    terminada (sendQueued (sendtoOps me) e s).2.sendbuf =
        tras me s.ultimo (terminada s.sendbuf)
          (if ¬e.blocked ∧ ¬e.dead ∧ e.sendQ ≠ 0 ∧ e.deliver e.sendQ = none ∧ e.avisada then
            some (e.causa "Write error, closing link".toList) else none) ∧
      (sendQueued (sendtoOps me) e s).2.ultimo = s.ultimo := by
  unfold sendQueued
  by_cases hblocked : e.blocked = true
  · rw [if_pos hblocked, if_neg fun h ↦ h.1 hblocked]
    exact ⟨rfl, rfl⟩
  rw [if_neg hblocked]
  by_cases hdead : e.dead = true
  · rw [if_pos hdead, if_neg fun h ↦ h.2.1 hdead]
    exact ⟨rfl, rfl⟩
  rw [if_neg hdead]
  by_cases hcero : e.sendQ = 0
  · rw [if_pos hcero, if_neg fun h ↦ h.2.2.1 hcero]
    exact ⟨rfl, rfl⟩
  rw [if_neg hcero]
  cases hdeliver : e.deliver e.sendQ with
  | none =>
      simp only [hblocked, hdead, hcero, not_false_eq_true, ne_eq, true_and, Bool.false_eq_true]
      exact deadLink_eq me e _ s
  | some queda =>
      rw [if_neg fun h ↦ by cases h.2.2.2.1]
      exact ⟨rfl, rfl⟩

/-- What is in the buffer after a line was sent to a link. -/
theorem sendbuftoOne_eq (me : CStr) (e : Conexion κ) (s : Envio κ) :
    terminada (sendbuftoOne (sendtoOps me) e s).2.sendbuf =
        tras me s.ultimo (terminada s.sendbuf) (e.anuncia (terminada s.sendbuf)) ∧
      (sendbuftoOne (sendtoOps me) e s).2.ultimo = s.ultimo := by
  unfold Conexion.anuncia
  by_cases h : e.dead = true ∨ e.fd < 0
  · rw [sendbuftoOne_cerrada _ s h, if_pos h]
    exact ⟨rfl, rfl⟩
  rw [if_neg h]
  by_cases hmax : e.maxSendq < e.sendQ
  · rw [sendbuftoOne_llena _ s h hmax, if_pos hmax]
    split
    · -- The notice about the limit comes first.
      obtain ⟨hbuf, hultimo⟩ := sendtoOps_eq me e.exceso { s with sendbuf := terminada s.sendbuf }
      obtain ⟨hbuf', hultimo'⟩ := deadLink_eq me e "Max sendQ exceeded".toList
        (sendtoOps me e.exceso { s with sendbuf := terminada s.sendbuf })
      refine ⟨?_, hultimo'.trans hultimo⟩
      rw [hbuf', hbuf, hultimo, terminada_terminada]
      split
      · exact tras_tras me _ _ _ _
      · rfl
    · obtain ⟨hbuf, hultimo⟩ := deadLink_eq me e "Max sendQ exceeded".toList
        { s with sendbuf := terminada s.sendbuf }
      rw [terminada_terminada] at hbuf
      exact ⟨hbuf, hultimo⟩
  rw [if_neg hmax]
  by_cases hmem : e.memoria = true
  · rw [sendbuftoOne_puesta _ s h hmax hmem, if_neg (not_not.mpr hmem)]
    dsimp only
    by_cases hlastsq : e.lastsq < (e.sendQ + (terminada s.sendbuf).length) / 1024
    · obtain ⟨hbuf, hultimo⟩ := sendQueued_eq me (e.con (terminada s.sendbuf))
        { s with sendbuf := terminada s.sendbuf }
      rw [terminada_terminada] at hbuf
      rw [if_pos hlastsq]
      refine ⟨hbuf.trans ?_, hultimo⟩
      have hdead : ¬e.dead = true := fun hd ↦ h (Or.inl hd)
      have hdead' : (e.con (terminada s.sendbuf)).dead = e.dead := rfl
      simp only [hdead', hdead, hlastsq, true_and, not_false_eq_true, Bool.false_eq_true]
      rfl
    · rw [if_neg hlastsq, if_neg fun hboth ↦ hlastsq hboth.1]
      exact ⟨terminada_terminada _, rfl⟩
  · obtain ⟨hbuf, hultimo⟩ := deadLink_eq me e "Buffer allocation error".toList
      { s with sendbuf := terminada s.sendbuf }
    rw [terminada_terminada] at hbuf
    rw [sendbuftoOne_sinMemoria _ s h hmax hmem, if_pos hmem]
    exact ⟨hbuf, hultimo⟩

/-! ## The loops -/

/-- Each link that can take the line gets it from the loop that prints it again. -/
theorem unMensaje_highprot (me : CStr) (excluida : Conexion κ → Bool) (m : Mensaje)
    (es : List (Conexion κ)) (s : Envio κ) :
    UnMensaje excluida m.linea es (difundeCada me excluida m.texto es s).1 := by
  induction es generalizing s with
  | nil => exact List.Forall₂.nil
  | cons e es ih =>
      refine List.Forall₂.cons ?_ (ih _)
      by_cases hexcluida : excluida e = true
      · simp [hexcluida]
      · have hpuestos := (sendbuftoOne_puestos (sendtoOps me) e { s with sendbuf := m.texto }).1
        rw [m.terminada] at hpuestos
        simp only [hexcluida, Bool.false_eq_true, if_false, not_false_eq_true, true_and]
        exact hpuestos

/-- The line is left in the buffer for each link that takes it: no link in front of it that dies
leaves another line there. -/
def Intacto (me : CStr) (ultimo : Option CStr) (linea : CStr) (excluida : Conexion κ → Bool)
    (es : List (Conexion κ)) : Prop :=
  ∀ pre e post, es.filter (!excluida ·) = pre ++ e :: post → e.recibe = true →
    tras me ultimo linea (pre.filterMap (Conexion.anuncia linea)).getLast? = linea

/-- The last notice of a list of links behind another notice. -/
theorem getLast?_filterMap_cons {α β : Type*} (f : α → Option β) (a : α) (l : List α) :
    ((a :: l).filterMap f).getLast? = (l.filterMap f).getLast?.or (f a) := by
  cases hf : f a with
  | none => rw [List.filterMap_cons_none hf, Option.or_none]
  | some b =>
      rw [List.filterMap_cons_some hf, List.getLast?_cons]
      cases (l.filterMap f).getLast? <;> rfl

theorem tras_or (me : CStr) (ultimo : Option CStr) (linea : CStr) (t t' : Option CStr) :
    tras me ultimo (tras me ultimo linea t) t' = tras me ultimo linea (t'.or t) := by
  cases t' with
  | none => rfl
  | some t' => exact tras_tras me ultimo linea t t'

/-- The notice about a link that does not take the line does not depend on the line. -/
theorem anuncia_congr (h : ¬e.recibe = true) (linea linea' : CStr) :
    e.anuncia linea = e.anuncia linea' := by
  rw [Conexion.recibe_iff] at h
  unfold Conexion.anuncia
  by_cases hcerrada : e.dead = true ∨ e.fd < 0
  · rw [if_pos hcerrada, if_pos hcerrada]
  by_cases hmax : e.maxSendq < e.sendQ
  · rw [if_neg hcerrada, if_neg hcerrada, if_pos hmax, if_pos hmax]
  have hmem : ¬e.memoria = true := fun hm ↦ h ⟨hcerrada, hmax, hm⟩
  rw [if_neg hcerrada, if_neg hcerrada, if_neg hmax, if_neg hmax, if_pos hmem, if_pos hmem]

/-- The loop behind links of which the last notice is `antes`. -/
theorem difunde_desde (me : CStr) (excluida : Conexion κ → Bool) (linea : CStr)
    (es : List (Conexion κ)) (s : Envio κ) (antes : Option CStr) (ultimo : Option CStr)
    (hultimo : s.ultimo = ultimo) (hbuf : terminada s.sendbuf = tras me ultimo linea antes) :
    UnMensaje excluida linea es (difunde me excluida es s).1 ↔
      ∀ pre e post, es.filter (!excluida ·) = pre ++ e :: post → e.recibe = true →
        tras me ultimo linea ((pre.filterMap (Conexion.anuncia linea)).getLast?.or antes) =
          linea := by
  induction es generalizing s antes with
  | nil => simp [UnMensaje, difunde]
  | cons e es ih =>
      by_cases hexcluida : excluida e = true
      · have hfilter : (e :: es).filter (!excluida ·) = es.filter (!excluida ·) :=
          List.filter_cons_of_neg (by simp [hexcluida])
        rw [hfilter, ← ih s antes hultimo hbuf]
        simp [UnMensaje, difunde, hexcluida]
      have hfilter : (e :: es).filter (!excluida ·) = e :: es.filter (!excluida ·) :=
        List.filter_cons_of_pos (by simp [hexcluida])
      obtain ⟨hbuf', hultimo'⟩ := sendbuftoOne_eq me e s
      have hpuestos := (sendbuftoOne_puestos (sendtoOps me) e s).1
      -- The link itself gets the line when it is still in the buffer.
      have hcabeza : ((sendbuftoOne (sendtoOps me) e s).1.puestos =
          e.puestos ++ if ¬excluida e ∧ e.recibe then [linea] else []) ↔
            (e.recibe = true → tras me ultimo linea antes = linea) := by
        rw [hpuestos, List.append_cancel_left_eq, hbuf]
        by_cases hrecibe : e.recibe = true
        · simp [hrecibe, hexcluida]
        · simp [hrecibe]
      have hlista : UnMensaje excluida linea (e :: es) (difunde me excluida (e :: es) s).1 ↔
          (e.recibe = true → tras me ultimo linea antes = linea) ∧
            UnMensaje excluida linea es
              (difunde me excluida es (sendbuftoOne (sendtoOps me) e s).2).1 := by
        rw [← hcabeza]
        simp only [UnMensaje, difunde, hexcluida, if_false, List.forall₂_cons, Bool.false_eq_true]
      rw [hlista, hfilter]
      have hresto : (e.recibe = true → tras me ultimo linea antes = linea) →
          (UnMensaje excluida linea es
              (difunde me excluida es (sendbuftoOne (sendtoOps me) e s).2).1 ↔
            ∀ pre e' post, es.filter (!excluida ·) = pre ++ e' :: post → e'.recibe = true →
              tras me ultimo linea ((pre.filterMap (Conexion.anuncia linea)).getLast?.or
                ((e.anuncia linea).or antes)) = linea) := by
        intro hcab
        have hanuncia : e.anuncia (terminada s.sendbuf) = e.anuncia linea := by
          by_cases hrecibe : e.recibe = true
          · rw [hbuf, hcab hrecibe]
          · exact anuncia_congr hrecibe _ _
        refine ih _ _ (hultimo'.trans hultimo) ?_
        rw [hbuf', hanuncia, hultimo, hbuf, tras_or]
      constructor
      · rintro ⟨hcab, htail⟩ pre e' post hsplit hrecibe
        cases pre with
        | nil =>
            obtain ⟨rfl, -⟩ := List.cons.inj hsplit
            exact hcab hrecibe
        | cons d pre =>
            obtain ⟨rfl, hsplit'⟩ := List.cons.inj hsplit
            rw [getLast?_filterMap_cons, Option.or_assoc]
            exact (hresto hcab).mp htail pre e' post hsplit' hrecibe
      · intro h
        have hcab : e.recibe = true → tras me ultimo linea antes = linea :=
          fun hrecibe ↦ h [] e _ rfl hrecibe
        refine ⟨hcab, (hresto hcab).mpr fun pre e' post hsplit hrecibe ↦ ?_⟩
        have hcons := h (e :: pre) e' post (by rw [hsplit, List.cons_append]) hrecibe
        rwa [getLast?_filterMap_cons, Option.or_assoc] at hcons

/-- Each link that can take the line gets it from the loop that prints it once exactly when the line
stays in the buffer. -/
theorem difunde_iff (me : CStr) (excluida : Conexion κ → Bool) (m : Mensaje)
    (es : List (Conexion κ)) (s : Envio κ) (hbuf : s.sendbuf = m.texto) :
    UnMensaje excluida m.linea es (difunde me excluida es s).1 ↔
      Intacto me s.ultimo m.linea excluida es := by
  have h := difunde_desde me excluida m.linea es s none s.ultimo rfl (by rw [hbuf, m.terminada]; rfl)
  simp only [Option.or_none] at h
  exact h

/-- What the three functions do with a message: the one that prints it for each link delivers it to
all of them, and the other two do so exactly when it stays in the buffer. -/
theorem difusion_iff {κ : Type} [DecidableEq κ] (me : CStr) (one : Option κ) (p : Nat)
    (m : Mensaje) (down : List (Conexion κ)) (s : Envio κ) :
    UnMensaje (esOrigenOBajo one p) m.linea down
        (sendtoHighprotButone me one p m.texto down s).1 ∧
      (UnMensaje (esOrigen one) m.linea down (sendtoServButone me one m.texto down s).1 ↔
        Intacto me s.ultimo m.linea (esOrigen one) down) ∧
      (UnMensaje (esOrigen one) m.linea down
          (sendbuftoServButone me one down { s with sendbuf := m.texto }).1 ↔
        Intacto me s.ultimo m.linea (esOrigen one) down) :=
  ⟨unMensaje_highprot me _ m down s, difunde_iff me _ m down { s with sendbuf := m.texto } rfl,
    difunde_iff me _ m down { s with sendbuf := m.texto } rfl⟩

/-- A local connection with a queue of some length. -/
def conexion (id : Nat) (name : String) (clase : Clase) (sendQ : Nat) : Conexion Nat where
  id := id
  name := name.toList
  clase := clase
  protocol := 10
  dead := false
  closing := false
  blocked := false
  fd := id
  sendQ := sendQ
  maxSendq := 1000
  lastsq := 0
  info := []
  memoria := true
  deliver n := some n
  puestos := []

/-- A message. -/
def saludo : Mensaje where
  texto := "AA WA :hola".toList
  noVacio := by decide
  sinFin := by decide

/-- The link behind one that is over its limit gets the notice to the operators. -/
theorem not_difusion :
    ¬UnMensaje (esOrigen none) saludo.linea
      [conexion 4 "a.es" .servidor 2000, conexion 5 "b.es" .servidor 0]
      (sendtoServButone "yo.es".toList none saludo.texto
        [conexion 4 "a.es" .servidor 2000, conexion 5 "b.es" .servidor 0]
        ⟨[], [conexion 6 "ana" .usuario 0]⟩).1 := by
  intro h
  have hline := (difunde_iff _ _ saludo _ _ rfl).mp h [conexion 4 "a.es" .servidor 2000]
    (conexion 5 "b.es" .servidor 0) [] rfl (by decide)
  revert hline
  decide

end Ircd.Send
