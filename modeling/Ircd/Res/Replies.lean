import Ircd.Lib.CString
import Ircd.Conf.Rehash

/-!
# Replies of name servers

The requests of the resolver of `ircd/res.c` and `get_res`, which reads a reply. A reply from an
unknown name server goes to the same clean-up as an error that a name server has returned, and what
this does depends on the last error. The main result, `sinEfecto_iff`, tells exactly which replies
have no effect.
-/

namespace Ircd.Res

open CString

/-! ## Requests -/

/-- The values of `h_errno`. -/
inductive HErrno where
  | success
  | hostNotFound
  | tryAgain
  | noRecovery
  | noData
deriving DecidableEq

def T_A : UInt8 := 1

def T_PTR : UInt8 := 12

/-- `Hostent`; `buf` tells if the buffer has been allocated. -/
structure Hostent where
  hName : Option CStr
  hAliases : List CStr
  hAddrList : List UInt32
  buf : Bool
deriving DecidableEq

/-- `ResRQ`. The `cinfo` is given back to who made the request. -/
structure ResRQ (Link : Type) where
  id : UInt16
  sent : Nat
  srch : Int
  ttl : Nat
  type : UInt8
  retries : Int8
  sends : Int8
  resend : Bool
  sentat : Nat
  timeout : Nat
  addr : UInt32
  name : Option CStr
  cinfo : Link
  he : Hostent

/-- `_res`, the configuration of the C library. -/
structure ConfiguracionRes where
  nscount : Nat
  nsaddrList : Nat → UInt32
  defnames : Bool
  primary : Bool
  defdname : CStr
  retry : Int8

/-- The list of requests from `first` to `last`, how many have been added to it, the cache and the
last error. -/
structure Resolutor (Link Cache : Type) where
  requests : List (ResRQ Link)
  reRequests : Nat
  cache : Cache
  hErrno : HErrno

/-- The header of a reply, what comes behind it, and the address it comes from. -/
structure Reply where
  rc : Nat
  sin : UInt32
  id : UInt16
  rcode : Nat
  qdcount : UInt16
  ancount : UInt16
  datos : List UInt8

/-- What `proc_answer` leaves in a request, and the number of answers. -/
structure Contestada where
  ttl : Nat
  type : UInt8
  he : Hostent
  ans : Nat

/-- A request with what `proc_answer` leaves in it. -/
def Contestada.en {Link : Type} (a : Contestada) (rptr : ResRQ Link) : ResRQ Link :=
  { rptr with ttl := a.ttl, type := a.type, he := a.he }

/-- What the resolver uses: the library, the system, and the functions that work on the cache and on
the answers of a reply. -/
structure Entorno (Link Cache Entry : Type) where
  now : Nat
  usec : UInt16
  resMkquery : CStr → UInt8 → Option (UInt16 × List UInt8)
  sendto : UInt32 → List UInt8 → Bool
  procAnswer : ResRQ Link → Reply → Contestada
  findCacheName : Cache → CStr → Option Entry × Cache
  makeCache : Cache → ResRQ Link → Entry × Cache

/-- A query that has been sent. -/
structure Query where
  id : UInt16
  msg : List UInt8
  destino : UInt32

section Queries

variable {Link Cache Entry : Type} (c : ConfiguracionRes) (e : Entorno Link Cache Entry)

/-- `find_id`: the index of the request. -/
def findId (s : Resolutor Link Cache) (id : UInt16) : Option Nat :=
  s.requests.findIdx? (·.id = id)

/-- `make_request`, which adds the new request at the end of the list. -/
def makeRequest (cinfo : Link) (s : Resolutor Link Cache) : Resolutor Link Cache :=
  let nreq : ResRQ Link :=
    { id := 0, sent := 0, srch := -1, ttl := 0, type := 0, retries := 3, sends := 0, resend := true,
      sentat := e.now, timeout := 4, addr := 0xffffffff, name := none, cinfo,
      he := ⟨none, [], [], false⟩ }
  { s with requests := s.requests ++ [nreq], reRequests := s.reRequests + 1 }

/-- The name servers that `send_res_msg` sends to. -/
def destinos (rcount : Int8) : List UInt32 :=
  let max := min (c.nscount : Int) rcount.toInt
  let max := if c.primary then 1 else max
  let max := if max = 0 then 1 else max
  (List.range max.toNat).map c.nsaddrList

/-- The queries that `send_res_msg` sends successfully; it returns their number, or -1 for none. -/
def sendResMsg (id : UInt16) (msg : List UInt8) (rcount : Int8) : List Query :=
  ((destinos c rcount).filter (e.sendto · msg)).map fun destino ↦ ⟨id, msg, destino⟩

/-- The loop of `query_name` that looks for an `id` no request has; `none` when it goes on. -/
def eligeId (s : Resolutor Link Cache) : Nat → UInt16 → UInt16 → Option UInt16
  | 0, _, _ => none
  | fuel + 1, k, id =>
      let id := id + k + e.usec
      if (findId s id).isSome then eligeId s fuel (k + 1) id else some id

/-- `query_name` for the request with the index `i`. -/
def queryName (name : CStr) (type : UInt8) (i : Nat) (s : Resolutor Link Cache) :
    Option (Resolutor Link Cache × List Query) :=
  match e.resMkquery name type with
  | none => some ({ s with hErrno := .noRecovery }, [])
  | some (id, msg) => do
      let id ← eligeId e s 131072 0 id
      let rptr ← s.requests[i]?
      let rptr := { rptr with id, sends := rptr.sends + 1 }
      let queries := sendResMsg c e id msg rptr.sends
      if queries = [] then
        some ({ s with requests := s.requests.set i rptr, hErrno := .tryAgain }, [])
      else
        let rptr := { rptr with sent := rptr.sent + queries.length }
        some ({ s with requests := s.requests.set i rptr }, queries)

/-- The name in `do_query_number`. -/
def nombreInverso (numb : UInt32) : CStr :=
  let cp (k : UInt32) := (toString ((numb >>> (8 * k)) &&& 255).toNat).toList
  cp 3 ++ '.' :: cp 2 ++ '.' :: cp 1 ++ '.' :: cp 0 ++ ".in-addr.arpa.".toList

/-- `hname` in `do_query_name` for a request that exists. The second `strncat` has no bound when the
name fills `hname`: `none` when it writes behind it. -/
def hname (name : CStr) : Option CStr :=
  let hname := name.take HOSTLEN
  if '.' ∉ hname ∧ c.defnames then
    if hname.length < HOSTLEN then some ((hname ++ '.' :: c.defdname).take HOSTLEN)
    else if c.defdname = [] then some hname
    else none
  else some hname

/-- `resend_query` for the request with the index `i`; `none` when it reads a name that is null. -/
def resendQuery (i : Nat) (s : Resolutor Link Cache) :
    Option (Resolutor Link Cache × List Query) := do
  let rptr ← s.requests[i]?
  if rptr.resend = false then some (s, [])
  else if rptr.type = T_PTR then queryName c e (nombreInverso rptr.addr) T_PTR i s
  else if rptr.type = T_A then
    let name ← rptr.name
    let hname ← hname c name
    queryName c e hname T_A i s
  else some (s, [])

/-- `do_query_name` without a request: it makes one. -/
def doQueryName (cinfo : Link) (name : CStr) (s : Resolutor Link Cache) :
    Option (Resolutor Link Cache × List Query) :=
  let i := s.requests.length
  let s := makeRequest e cinfo s
  let s := { s with
    requests := s.requests.modify i fun rptr ↦ { rptr with type := T_A, name := some name } }
  queryName c e (name.take HOSTLEN) T_A i s

/-! ## Replies -/

variable (Link Cache Entry) in
/-- What `get_res` leaves: the state, the queries that have been sent, `*lp` and the result. -/
structure Salida where
  estado : Resolutor Link Cache
  queries : List Query
  lp : Option Link
  hp : Option Entry

/-- The last name server whose replies are taken, from the number of times it was asked. -/
def maximo (rptr : ResRQ Link) : Int :=
  let max := min (c.nscount : Int) rptr.sends.toInt
  if max = 0 then 1 else max

/-- The loop that looks for the name server gets to `max`. An address of zeros stands for this host,
which may answer from any of its addresses. -/
def desconocido (rptr : ResRQ Link) (sin : UInt32) : Bool :=
  0 < maximo c rptr ∧
    ∀ a < (maximo c rptr).toNat, c.nsaddrList a ≠ 0 ∧ c.nsaddrList a ≠ sin

/-- The error that a response code stands for. -/
def errorDe (rcode : Nat) : HErrno :=
  match rcode with
  | 0 => .noData
  | 2 => .tryAgain
  | 3 => .tryAgain
  | _ => .noRecovery

/-- The clean-up at `getres_err`, for the request with the index `i`. -/
def getresErr (i : Nat) (lp : Option Link) (s : Resolutor Link Cache) :
    Option (Salida Link Cache Entry) := do
  let rptr ← s.requests[i]?
  if s.hErrno ≠ .tryAgain then
    let s :=
      if c.defnames then
        let srch := rptr.srch + 1
        let rptr :=
          if srch = 0 then { rptr with srch, retries := c.retry, sends := 0, resend := true }
          else { rptr with srch }
        { s with requests := s.requests.set i rptr }
      else s
    let (s, queries) ← resendQuery c e i s
    some ⟨s, queries, lp, none⟩
  else some ⟨s, [], lp.map fun _ ↦ rptr.cinfo, none⟩

/-- `rem_request`. -/
def remRequest (i : Nat) (s : Resolutor Link Cache) : Resolutor Link Cache :=
  { s with requests := s.requests.eraseIdx i }

/-- The name of an address is looked up, and the request `rptr` with the index `i` is over. -/
def relookup (i : Nat) (rptr : ResRQ Link) (hName : CStr) (lp : Option Link)
    (s : Resolutor Link Cache) : Option (Salida Link Cache Entry) := do
  let (hp, cache) := e.findCacheName s.cache hName
  let s := { s with cache }
  match hp with
  | some hp => some ⟨remRequest i s, [], lp.map fun _ ↦ rptr.cinfo, some hp⟩
  | none =>
      let (s, queries) ← doQueryName c e rptr.cinfo hName s
      -- the aliases are kept with the query that is last in the list
      let s :=
        if rptr.he.hAliases = [] then s
        else { s with
          requests := s.requests.modify (s.requests.length - 1) fun r ↦ { r with he := rptr.he } }
      some ⟨remRequest i s, queries, lp, none⟩

/-- The answers of a reply are processed, for the request with the index `i`. -/
def responde (i : Nat) (p : Reply) (lp : Option Link) (s : Resolutor Link Cache) :
    Option (Salida Link Cache Entry) := do
  let rptr ← s.requests[i]?
  let a := e.procAnswer rptr p
  let rptr := a.en rptr
  let s := { s with requests := s.requests.set i rptr }
  if a.ans ≠ 0 ∧ rptr.type = T_PTR then
    match rptr.he.hName with
    | none => getresErr c e i lp s
    | some [] => getresErr c e i lp s
    | some hName => relookup c e i rptr hName lp s
  else if 0 < a.ans then
    let (cp, cache) := e.makeCache s.cache rptr
    some ⟨remRequest i { s with cache }, [], lp.map fun _ ↦ rptr.cinfo, some cp⟩
  else if rptr.sent = 0 then some ⟨remRequest i s, [], lp, none⟩
  else some ⟨s, [], lp, none⟩

/-- `get_res`; `none` when it does not come back. -/
def getRes (p : Reply) (lp : Option Link) (s : Resolutor Link Cache) :
    Option (Salida Link Cache Entry) :=
  if p.rc ≤ 12 then some ⟨s, [], lp, none⟩
  else
    match findId s p.id with
    | none => some ⟨s, [], lp, none⟩
    | some i => do
        let rptr ← s.requests[i]?
        if desconocido c rptr p.sin then getresErr c e i lp s
        else if p.rcode ≠ 0 ∨ p.ancount = 0 then
          let s := { s with hErrno := errorDe p.rcode }
          if s.hErrno ≠ .tryAgain then
            let rptr := { rptr with resend := false, retries := 0 }
            getresErr c e i lp { s with requests := s.requests.set i rptr }
          else getresErr c e i lp s
        else responde c e i p lp s

/-! ## Replies without an effect -/

/-- The name servers a request has been sent to. A counter that has become negative has counted all
of them. -/
def enviada (rptr : ResRQ Link) : List UInt32 :=
  destinos c (if rptr.sends < 0 then 127 else rptr.sends)

/-- The reply is to no request, or it comes from none of the name servers that were asked. -/
def Ajena (s : Resolutor Link Cache) (p : Reply) : Prop :=
  ∀ i rptr, findId s p.id = some i → s.requests[i]? = some rptr → p.sin ∉ enviada c rptr

/-- Nothing but the last error has changed. -/
def SinEfecto (lp : Option Link) (s : Resolutor Link Cache) (o : Option (Salida Link Cache Entry)) :
    Prop :=
  ∃ hErrno, o = some ⟨{ s with hErrno }, [], lp, none⟩

/-- No query comes of `resend_query`. -/
def Calla (rptr : ResRQ Link) : Prop :=
  rptr.resend = true →
    (rptr.type = T_PTR → e.resMkquery (nombreInverso rptr.addr) T_PTR = none) ∧
    (rptr.type = T_A → ∃ name host, rptr.name = some name ∧ hname c name = some host ∧
      e.resMkquery host T_A = none)

/-- The `cinfo` of a request does not change `*lp`. -/
def MismaLp (lp : Option Link) (rptr : ResRQ Link) : Prop :=
  lp = none ∨ lp = some rptr.cinfo

/-- The clean-up does nothing when the last error is `hErrno`. -/
def Inocua (hErrno : HErrno) (lp : Option Link) (rptr : ResRQ Link) : Prop :=
  (hErrno = .tryAgain → MismaLp lp rptr) ∧
    (hErrno ≠ .tryAgain → c.defnames = false ∧ Calla c e rptr)

/-- An error that a name server returns does nothing. -/
def ErrorInocuo (hErrno : HErrno) (lp : Option Link) (rptr : ResRQ Link) : Prop :=
  (hErrno = .tryAgain → MismaLp lp rptr) ∧
    (hErrno ≠ .tryAgain → c.defnames = false ∧ rptr.resend = false ∧ rptr.retries = 0)

/-- The answers of a reply do nothing: none is found in it and the request has been sent, or all
that is found is an empty name and the clean-up does nothing. -/
def RespuestaInocua (p : Reply) (hErrno : HErrno) (lp : Option Link) (rptr : ResRQ Link) : Prop :=
  let a := e.procAnswer rptr p
  a.ttl = rptr.ttl ∧ a.type = rptr.type ∧ a.he = rptr.he ∧
    (a.ans = 0 → rptr.sent ≠ 0) ∧
    (a.ans ≠ 0 → a.type = T_PTR ∧ (a.he.hName = none ∨ a.he.hName = some []) ∧
      Inocua c e hErrno lp rptr)

/-- When a reply to the request `rptr` has no effect. -/
def Descartada (p : Reply) (lp : Option Link) (s : Resolutor Link Cache) (rptr : ResRQ Link) :
    Prop :=
  if desconocido c rptr p.sin then Inocua c e s.hErrno lp rptr
  else if p.rcode ≠ 0 ∨ p.ancount = 0 then ErrorInocuo c (errorDe p.rcode) lp rptr
  else RespuestaInocua c e p s.hErrno lp rptr

/-- A reply has no effect: it is too short, or when there is a request with its `id` that request
does not let it have one. -/
def Condicion (p : Reply) (lp : Option Link) (s : Resolutor Link Cache) : Prop :=
  p.rc ≤ 12 ∨
    ∀ i rptr, findId s p.id = some i → s.requests[i]? = some rptr → Descartada c e p lp s rptr

variable {c e} {s : Resolutor Link Cache} {rptr : ResRQ Link} {lp : Option Link} {i : Nat}

/-- A request is changed unless what is written over it is the same. -/
theorem set_eq_iff {α : Type} {l : List α} {i : Nat} {a b : α} (h : l[i]? = some a) :
    l.set i b = l ↔ b = a := by
  obtain ⟨hi, rfl⟩ := List.getElem?_eq_some_iff.mp h
  constructor
  · intro heq
    have hget : (l.set i b)[i]? = some l[i] := by rw [heq, h]
    rw [List.getElem?_set_self hi] at hget
    exact Option.some.inj hget
  · rintro rfl
    exact List.set_getElem_self hi

theorem getElem?_set {α : Type} {l : List α} {i : Nat} {a : α} (h : l[i]? = some a) (b : α) :
    (l.set i b)[i]? = some b :=
  List.getElem?_set_self (List.getElem?_eq_some_iff.mp h).1

theorem map_eq_iff_mismaLp : (lp.map fun _ ↦ rptr.cinfo) = lp ↔ MismaLp lp rptr := by
  cases lp with
  | none => simp [MismaLp]
  | some l => simp [MismaLp, eq_comm]

/-! ### Queries -/

theorem queryName_none {name : CStr} {type : UInt8} (h : e.resMkquery name type = none) :
    queryName c e name type i s = some ({ s with hErrno := .noRecovery }, []) := by
  rw [queryName, h]

/-- A query changes the count of a request, and nothing else but its `id` and what has been sent. -/
theorem queryName_cases {name : CStr} {type : UInt8} (hi : s.requests[i]? = some rptr)
    (hmk : e.resMkquery name type ≠ none) {s' : Resolutor Link Cache} {queries : List Query}
    (h : queryName c e name type i s = some (s', queries)) :
    ∃ (rptr' : ResRQ Link) (hErrno : HErrno),
      s' = { s with requests := s.requests.set i rptr', hErrno } ∧
        rptr'.sends = rptr.sends + 1 ∧ rptr'.srch = rptr.srch := by
  obtain ⟨⟨id, msg⟩, hquery⟩ := Option.ne_none_iff_exists'.mp hmk
  simp only [queryName, hquery, hi, Option.bind_eq_bind, Option.bind_some] at h
  obtain ⟨id', -, h⟩ := Option.bind_eq_some_iff.mp h
  split at h
  · obtain ⟨rfl, -⟩ := Prod.mk.inj (Option.some.inj h)
    exact ⟨_, _, rfl, rfl, rfl⟩
  · obtain ⟨rfl, -⟩ := Prod.mk.inj (Option.some.inj h)
    exact ⟨_, s.hErrno, rfl, rfl, rfl⟩

/-- A request that keeps quiet is left as it is. -/
theorem resendQuery_calla (hi : s.requests[i]? = some rptr) (h : Calla c e rptr) :
    ∃ hErrno, resendQuery c e i s = some ({ s with hErrno }, []) := by
  simp only [resendQuery, hi, Option.bind_eq_bind, Option.bind_some]
  by_cases hresend : rptr.resend = false
  · exact ⟨s.hErrno, if_pos hresend⟩
  · rw [if_neg hresend]
    obtain ⟨hptr, ha⟩ := h (Bool.not_eq_false _ ▸ hresend)
    by_cases htype : rptr.type = T_PTR
    · rw [if_pos htype]
      exact ⟨_, queryName_none (hptr htype)⟩
    · rw [if_neg htype]
      by_cases htype' : rptr.type = T_A
      · obtain ⟨name, host, hname, hhost, hmk⟩ := ha htype'
        rw [if_pos htype', hname, Option.bind_some, hhost, Option.bind_some]
        exact ⟨_, queryName_none hmk⟩
      · exact ⟨s.hErrno, if_neg htype'⟩

/-- A request that does not keep quiet is asked once more. -/
theorem resendQuery_cases (hi : s.requests[i]? = some rptr) (hcalla : ¬Calla c e rptr)
    {s' : Resolutor Link Cache} {queries : List Query}
    (h : resendQuery c e i s = some (s', queries)) :
    ∃ (rptr' : ResRQ Link) (hErrno : HErrno),
      s' = { s with requests := s.requests.set i rptr', hErrno } ∧
        rptr'.sends = rptr.sends + 1 ∧ rptr'.srch = rptr.srch := by
  simp only [resendQuery, hi, Option.bind_eq_bind, Option.bind_some] at h
  have hresend : ¬rptr.resend = false := fun hno ↦
    hcalla fun hsi ↦ absurd (hno.symm.trans hsi) Bool.false_ne_true
  rw [if_neg hresend] at h
  by_cases htype : rptr.type = T_PTR
  · rw [if_pos htype] at h
    refine queryName_cases hi (fun hmk ↦ hcalla fun _ ↦ ⟨fun _ ↦ hmk, fun ha ↦ ?_⟩) h
    exact absurd (htype.symm.trans ha) (by decide)
  · rw [if_neg htype] at h
    by_cases htype' : rptr.type = T_A
    · rw [if_pos htype'] at h
      obtain ⟨name, hname, h⟩ := Option.bind_eq_some_iff.mp h
      obtain ⟨host, hhost, h⟩ := Option.bind_eq_some_iff.mp h
      exact queryName_cases hi (fun hmk ↦ hcalla fun _ ↦
        ⟨fun hptr ↦ absurd hptr htype, fun _ ↦ ⟨name, host, hname, hhost, hmk⟩⟩) h
    · exact absurd (fun _ ↦ ⟨fun hptr ↦ absurd hptr htype, fun ha ↦ absurd ha htype'⟩) hcalla

/-- The counter of searches is left alone. -/
theorem resendQuery_srch (hi : s.requests[i]? = some rptr) {s' : Resolutor Link Cache}
    {queries : List Query} (h : resendQuery c e i s = some (s', queries)) :
    ∃ rptr' : ResRQ Link, s'.requests = s.requests.set i rptr' ∧ rptr'.srch = rptr.srch := by
  by_cases hcalla : Calla c e rptr
  · obtain ⟨hErrno, hquieta⟩ := resendQuery_calla hi hcalla
    obtain ⟨rfl, -⟩ := Prod.mk.inj (Option.some.inj (hquieta.symm.trans h))
    exact ⟨rptr, ((set_eq_iff hi).mpr rfl).symm, rfl⟩
  · obtain ⟨rptr', hErrno, rfl, -, hsrch⟩ := resendQuery_cases hi hcalla h
    exact ⟨rptr', rfl, hsrch⟩

theorem queryName_reRequests {name : CStr} {type : UInt8} {s' : Resolutor Link Cache}
    {queries : List Query} (h : queryName c e name type i s = some (s', queries)) :
    s'.reRequests = s.reRequests := by
  by_cases hmk : e.resMkquery name type = none
  · rw [queryName_none hmk] at h
    obtain ⟨rfl, -⟩ := Prod.mk.inj (Option.some.inj h)
    rfl
  · cases hi : s.requests[i]? with
    | none =>
        obtain ⟨⟨id, msg⟩, hquery⟩ := Option.ne_none_iff_exists'.mp hmk
        simp only [queryName, hquery, hi, Option.bind_eq_bind, Option.bind_none] at h
        obtain ⟨-, -, h⟩ := Option.bind_eq_some_iff.mp h
        cases h
    | some rptr =>
        obtain ⟨-, -, rfl, -⟩ := queryName_cases hi hmk h
        rfl

/-- One more request has been made. -/
theorem doQueryName_reRequests {cinfo : Link} {name : CStr} {s' : Resolutor Link Cache}
    {queries : List Query} (h : doQueryName c e cinfo name s = some (s', queries)) :
    s'.reRequests = s.reRequests + 1 :=
  queryName_reRequests h

/-! ### The branches of `get_res` -/

variable {rptr' : ResRQ Link} {hErrno : HErrno}

/-- The clean-up has no effect when it is harmless and the request came to it as it was. -/
theorem getresErr_iff (hi : s.requests[i]? = some rptr) (hsrch : rptr'.srch = rptr.srch)
    (hsends : rptr'.sends = rptr.sends) :
    SinEfecto lp s
        (getresErr c e i lp { s with requests := s.requests.set i rptr', hErrno }) ↔
      rptr' = rptr ∧ Inocua c e hErrno lp rptr' := by
  have hi' := getElem?_set hi rptr'
  simp only [getresErr, hi', Option.bind_eq_bind, Option.bind_some]
  by_cases htry : hErrno = .tryAgain
  · rw [if_neg (not_not_intro htry)]
    have hinocua : Inocua c e hErrno lp rptr' ↔ MismaLp lp rptr' :=
      ⟨fun h ↦ h.1 htry, fun h ↦ ⟨fun _ ↦ h, fun hno ↦ absurd htry hno⟩⟩
    rw [hinocua, ← set_eq_iff hi, ← map_eq_iff_mismaLp]
    constructor
    · rintro ⟨h', heq⟩
      obtain ⟨hestado, -, hlp, -⟩ := Salida.mk.inj (Option.some.inj heq)
      exact ⟨congrArg Resolutor.requests hestado, hlp⟩
    · rintro ⟨hset, hlp⟩
      exact ⟨hErrno, by rw [hset, hlp]⟩
  · rw [if_pos htry]
    cases hdef : c.defnames with
    | true =>
        -- the counter of searches moves
        refine iff_of_false ?_ fun h ↦ absurd (hdef.symm.trans (h.2.2 htry).1) (by decide)
        rintro ⟨h', heq⟩
        obtain ⟨⟨s₂, queries⟩, hresend, heq⟩ := Option.bind_eq_some_iff.mp heq
        rw [if_pos rfl] at hresend
        obtain ⟨rptr₂, hset, hsrch₂⟩ := resendQuery_srch (getElem?_set hi' _) hresend
        have hestado := congrArg Resolutor.requests (Salida.mk.inj (Option.some.inj heq)).1
        have hsame := hset.symm.trans hestado
        simp only [List.set_set] at hsame
        have hsuma : rptr₂.srch = rptr'.srch + 1 := by
          rw [hsrch₂]
          split <;> rfl
        rw [(set_eq_iff hi).mp hsame, hsrch] at hsuma
        omega
    | false =>
        rw [if_neg Bool.false_ne_true]
        by_cases hcalla : Calla c e rptr'
        · obtain ⟨h', hquieta⟩ := resendQuery_calla (s := { s with
            requests := s.requests.set i rptr', hErrno }) hi' hcalla
          have hinocua : Inocua c e hErrno lp rptr' :=
            ⟨fun hsi ↦ absurd hsi htry, fun _ ↦ ⟨hdef, hcalla⟩⟩
          rw [hquieta, and_iff_left hinocua, ← set_eq_iff hi]
          constructor
          · rintro ⟨h₂, heq⟩
            exact congrArg Resolutor.requests (Salida.mk.inj (Option.some.inj heq)).1
          · intro hset
            exact ⟨h', by rw [hset]; rfl⟩
        · -- the count of queries moves
          refine iff_of_false ?_ fun h ↦ hcalla (h.2.2 htry).2
          rintro ⟨h', heq⟩
          obtain ⟨⟨s₂, queries⟩, hresend, heq⟩ := Option.bind_eq_some_iff.mp heq
          obtain ⟨rptr₂, h₂, rfl, hsends₂, -⟩ := resendQuery_cases hi' hcalla hresend
          have hsame := congrArg Resolutor.requests (Salida.mk.inj (Option.some.inj heq)).1
          simp only [List.set_set] at hsame
          rw [(set_eq_iff hi).mp hsame, hsends] at hsends₂
          exact absurd (Int8.add_eq_left.mp hsends₂.symm) (by decide)

/-- What a request that comes to the clean-up as it was lets the reply do. -/
theorem getresErr_iff_inocua (hi : s.requests[i]? = some rptr) :
    SinEfecto lp s (getresErr c e i lp { s with hErrno }) ↔ Inocua c e hErrno lp rptr := by
  have hset := (set_eq_iff hi).mpr rfl
  calc SinEfecto lp s (getresErr c e i lp { s with hErrno })
      ↔ SinEfecto lp s
          (getresErr c e i lp { s with requests := s.requests.set i rptr, hErrno }) := by rw [hset]
    _ ↔ rptr = rptr ∧ Inocua c e hErrno lp rptr := getresErr_iff hi rfl rfl
    _ ↔ Inocua c e hErrno lp rptr := and_iff_right rfl

/-- A request that is over is not in the list any more. -/
theorem not_sinEfecto_remRequest {s' : Resolutor Link Cache} {queries : List Query}
    {lp' : Option Link} {hp : Option Entry} (hi : s.requests[i]? = some rptr)
    (hs' : s'.requests.length = s.requests.length) :
    ¬SinEfecto lp s (some ⟨remRequest i s', queries, lp', hp⟩) := by
  rintro ⟨h', heq⟩
  have hlt := (List.getElem?_eq_some_iff.mp hi).1
  have hlen : (s'.requests.eraseIdx i).length = s.requests.length :=
    congrArg (fun s ↦ s.requests.length) (Salida.mk.inj (Option.some.inj heq)).1
  rw [List.length_eraseIdx_of_lt (by omega), hs'] at hlen
  omega

/-- The name of an address is never looked up without an effect. -/
theorem not_sinEfecto_relookup {hName : CStr} :
    ¬SinEfecto lp s (relookup c e i rptr' hName lp
      { s with requests := s.requests.set i rptr' }) := by
  rintro ⟨h', heq⟩
  simp only [relookup] at heq
  cases hfind : (e.findCacheName s.cache hName).1 with
  | some hp =>
      rw [hfind] at heq
      cases (Salida.mk.inj (Option.some.inj heq)).2.2.2
  | none =>
      rw [hfind] at heq
      obtain ⟨⟨s₂, queries⟩, hquery, heq⟩ := Option.bind_eq_some_iff.mp heq
      have hsuma := doQueryName_reRequests hquery
      have hsame := congrArg Resolutor.reRequests (Salida.mk.inj (Option.some.inj heq)).1
      simp only [remRequest] at hsame
      have hcuenta : s₂.reRequests = s.reRequests := by
        split at hsame
        · exact hsame
        · exact hsame
      simp only at hsuma
      omega

theorem en_eq_iff {a : Contestada} :
    a.en rptr = rptr ↔ a.ttl = rptr.ttl ∧ a.type = rptr.type ∧ a.he = rptr.he := by
  cases rptr
  simp [Contestada.en]

/-- The answers of a reply. -/
theorem responde_iff (hi : s.requests[i]? = some rptr) {p : Reply} :
    SinEfecto lp s (responde c e i p lp s) ↔ RespuestaInocua c e p s.hErrno lp rptr := by
  simp only [responde, hi, Option.bind_eq_bind, Option.bind_some, RespuestaInocua]
  generalize e.procAnswer rptr p = a
  have hmisma (q : Prop) : a.ttl = rptr.ttl ∧ a.type = rptr.type ∧ a.he = rptr.he ∧ q ↔
      a.en rptr = rptr ∧ q := by
    rw [en_eq_iff, and_assoc, and_assoc]
  have hlen : (s.requests.set i (a.en rptr)).length = s.requests.length := List.length_set
  rw [hmisma]
  by_cases hans : a.ans = 0
  · have hno : ¬(a.ans ≠ 0 ∧ (a.en rptr).type = T_PTR) := fun h ↦ h.1 hans
    have hcero : ¬0 < a.ans := by omega
    rw [if_neg hno, if_neg hcero]
    by_cases hsent : (a.en rptr).sent = 0
    · rw [if_pos hsent]
      exact iff_of_false (not_sinEfecto_remRequest hi hlen) fun h ↦ h.2.1 hans hsent
    · rw [if_neg hsent, ← set_eq_iff hi, and_iff_left ⟨fun _ ↦ hsent, fun h ↦ absurd hans h⟩]
      constructor
      · rintro ⟨h', heq⟩
        exact congrArg Resolutor.requests (Salida.mk.inj (Option.some.inj heq)).1
      · intro hset
        exact ⟨s.hErrno, by rw [hset]⟩
  · by_cases htype : a.type = T_PTR
    · have hsi : a.ans ≠ 0 ∧ (a.en rptr).type = T_PTR := ⟨hans, htype⟩
      rw [if_pos hsi]
      have hvacio (hname : a.he.hName = none ∨ a.he.hName = some []) :
          SinEfecto lp s (getresErr c e i lp { s with requests := s.requests.set i (a.en rptr) }) ↔
            a.en rptr = rptr ∧ (a.ans = 0 → rptr.sent ≠ 0) ∧
              (a.ans ≠ 0 → a.type = T_PTR ∧ (a.he.hName = none ∨ a.he.hName = some []) ∧
                Inocua c e s.hErrno lp rptr) := by
        have hsrch : (a.en rptr).srch = rptr.srch := rfl
        rw [getresErr_iff hi hsrch rfl]
        refine and_congr_right fun heq ↦ ?_
        rw [heq]
        exact ⟨fun h ↦ ⟨fun h₀ ↦ absurd h₀ hans, fun _ ↦ ⟨htype, hname, h⟩⟩,
          fun h ↦ (h.2 hans).2.2⟩
      show SinEfecto lp s (match a.he.hName with
        | none => _
        | some [] => _
        | some hName => _) ↔ _
      cases hname : a.he.hName with
      | none =>
          rw [hname] at hvacio
          exact hvacio (.inl rfl)
      | some name =>
          rw [hname] at hvacio
          cases name with
          | nil => exact hvacio (.inr rfl)
          | cons ch name =>
              refine iff_of_false not_sinEfecto_relookup fun h ↦ ?_
              rcases (h.2.2 hans).2.1 with h' | h' <;> cases h'
    · have hno : ¬(a.ans ≠ 0 ∧ (a.en rptr).type = T_PTR) := fun h ↦ htype h.2
      rw [if_neg hno, if_pos (Nat.pos_of_ne_zero hans)]
      exact iff_of_false (not_sinEfecto_remRequest hi hlen) fun h ↦ htype (h.2.2 hans).1

theorem sinEfecto_refl :
    SinEfecto lp s (some ⟨s, [], lp, none⟩ : Option (Salida Link Cache Entry)) :=
  ⟨s.hErrno, rfl⟩

/-- A fatal error stops the queries of a request, and no other one is made if it had stopped. -/
theorem errorInocuo_iff (hi : s.requests[i]? = some rptr) (htry : hErrno ≠ .tryAgain) :
    SinEfecto lp s (getresErr c e i lp { s with
        requests := s.requests.set i { rptr with resend := false, retries := 0 }, hErrno }) ↔
      ErrorInocuo c hErrno lp rptr := by
  have hsrch : ({ rptr with resend := false, retries := 0 } : ResRQ Link).srch = rptr.srch := rfl
  rw [getresErr_iff hi hsrch rfl]
  constructor
  · rintro ⟨heq, hinocua⟩
    refine ⟨fun hsi ↦ absurd hsi htry, fun _ ↦ ⟨(hinocua.2 htry).1, ?_, ?_⟩⟩
    · exact (congrArg ResRQ.resend heq).symm
    · exact (congrArg ResRQ.retries heq).symm
  · intro h
    obtain ⟨hdef, hresend, hretries⟩ := h.2 htry
    refine ⟨?_, fun hsi ↦ absurd hsi htry, fun _ ↦ ⟨hdef, fun hno ↦ by cases hno⟩⟩
    rw [← hresend, ← hretries]

/-- The request a reply is for decides. -/
theorem descartada_iff (hi : s.requests[i]? = some rptr) {p : Reply} :
    SinEfecto lp s (if desconocido c rptr p.sin then getresErr c e i lp s
      else if p.rcode ≠ 0 ∨ p.ancount = 0 then
        let s := { s with hErrno := errorDe p.rcode }
        if s.hErrno ≠ .tryAgain then
          let rptr := { rptr with resend := false, retries := 0 }
          getresErr c e i lp { s with requests := s.requests.set i rptr }
        else getresErr c e i lp s
      else responde c e i p lp s) ↔ Descartada c e p lp s rptr := by
  unfold Descartada
  by_cases hdesc : desconocido c rptr p.sin = true
  · rw [if_pos hdesc, if_pos hdesc]
    exact getresErr_iff_inocua hi
  · rw [if_neg hdesc, if_neg hdesc]
    by_cases hcode : p.rcode ≠ 0 ∨ p.ancount = 0
    · rw [if_pos hcode, if_pos hcode]
      by_cases htry : errorDe p.rcode ≠ .tryAgain
      · show SinEfecto lp s (if errorDe p.rcode ≠ .tryAgain then _ else _) ↔ _
        rw [if_pos htry]
        exact errorInocuo_iff hi htry
      · show SinEfecto lp s (if errorDe p.rcode ≠ .tryAgain then _ else _) ↔ _
        rw [if_neg htry, getresErr_iff_inocua hi]
        exact and_congr_right fun _ ↦
          ⟨fun _ hno ↦ absurd hno htry, fun _ hno ↦ absurd hno htry⟩
    · rw [if_neg hcode, if_neg hcode]
      exact responde_iff hi

/-- When a reply has no effect. -/
theorem getRes_iff (c : ConfiguracionRes) (e : Entorno Link Cache Entry) (p : Reply)
    (lp : Option Link) (s : Resolutor Link Cache) :
    SinEfecto lp s (getRes c e p lp s) ↔ Condicion c e p lp s := by
  unfold getRes Condicion
  by_cases hrc : p.rc ≤ 12
  · rw [if_pos hrc]
    exact iff_of_true sinEfecto_refl (.inl hrc)
  · rw [if_neg hrc]
    cases hfind : findId s p.id with
    | none => exact iff_of_true sinEfecto_refl (.inr fun _ _ h ↦ by cases h)
    | some i =>
        have hlt : i < s.requests.length := (List.findIdx?_eq_some_iff_getElem.mp hfind).1
        have hi : s.requests[i]? = some s.requests[i] := List.getElem?_eq_getElem hlt
        have hunica : (p.rc ≤ 12 ∨ ∀ i' rptr, some i = some i' → s.requests[i']? = some rptr →
            Descartada c e p lp s rptr) ↔ Descartada c e p lp s s.requests[i] := by
          constructor
          · rintro (h | h)
            · exact absurd h hrc
            · exact h i _ rfl hi
          · rintro h
            refine .inr fun i' rptr heq hi' ↦ ?_
            cases heq
            cases hi.symm.trans hi'
            exact h
        rw [hunica, ← descartada_iff hi]
        simp only [hi, Option.bind_eq_bind, Option.bind_some]

/-- A foreign reply has no effect exactly when the condition holds. -/
theorem sinEfecto_iff (c : ConfiguracionRes) (e : Entorno Link Cache Entry) (p : Reply)
    (lp : Option Link) (s : Resolutor Link Cache) :
    (Ajena c s p → SinEfecto lp s (getRes c e p lp s)) ↔ (Ajena c s p → Condicion c e p lp s) :=
  forall_congr' fun _ ↦ getRes_iff c e p lp s

end Queries

/-! ## A forged reply -/

/-- One name server, and the domain that the library has by default. -/
def unServidor : ConfiguracionRes :=
  { nscount := 1, nsaddrList := fun _ ↦ 0x0100007f, defnames := true, primary := false,
    defdname := "es".toList, retry := 2 }

def entorno : Entorno Nat Unit Unit :=
  { now := 1000, usec := 77, resMkquery := fun _ _ ↦ some (1, []), sendto := fun _ _ ↦ true,
    procAnswer := fun rptr _ ↦ ⟨rptr.ttl, rptr.type, rptr.he, 0⟩,
    findCacheName := fun _ _ ↦ (none, ()), makeCache := fun _ _ ↦ ((), ()) }

/-- A request of the client 5, which has been sent once. -/
def pregunta : ResRQ Nat :=
  { id := 7, sent := 1, srch := -1, ttl := 0, type := T_A, retries := 3, sends := 1,
    resend := true, sentat := 990, timeout := 4, addr := 0xffffffff,
    name := some "irc.example.es".toList, cinfo := 5, he := ⟨none, [], [], false⟩ }

/-- The request is waiting for its reply, after an error that let try again. -/
def enEspera : Resolutor Nat Unit :=
  { requests := [pregunta], reRequests := 1, cache := (), hErrno := .tryAgain }

def forjada : Reply :=
  { rc := 40, sin := 0x04030201, id := 7, rcode := 0, qdcount := 1, ancount := 1, datos := [] }

/-- A forged reply ends the lookup of the client: `*lp` names it. -/
theorem not_sinEfecto : ¬∀ (c : ConfiguracionRes) (e : Entorno Nat Unit Unit) (p : Reply)
    (lp : Option Nat) (s : Resolutor Nat Unit),
      Ajena c s p → SinEfecto lp s (getRes c e p lp s) := by
  intro h
  have hajena : Ajena unServidor enEspera forjada := by
    intro i rptr hfind hi
    cases hfind
    cases hi
    decide
  obtain ⟨hErrno, heq⟩ := h unServidor entorno forjada (some 0) enEspera hajena
  have hlp : (getRes unServidor entorno forjada (some 0) enEspera).map (·.lp) = some (some 5) := rfl
  rw [heq] at hlp
  cases hlp

end Ircd.Res
