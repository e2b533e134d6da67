import Ircd.Net.Salida

/-!
# Joining the network

How clients come to the network: a local connection, which sends NICK and becomes a user or sends
SERVER and becomes a server, and the servers and users that a server link introduces. These are the
parts of `m_server`, `m_server_estab` and `m_nick` that change the network, and `SetRemoteNumNick`,
which makes the client leave that had the numeric. All of them keep the network in order.
-/

namespace Ircd.Net

open CString

variable {ι : Type} [DecidableEq ι]

namespace Red

/-- A client that is new in the list. -/
def nuevo (r : Red ι) (x desde : ι) : Red ι :=
  (r.cambia x fun _ ↦ makeClient desde .unknown).addClientToList x

/-- A new local connection. -/
def conecta (r : Red ι) (x : ι) : Red ι :=
  r.nuevo x x

/-- `m_server` and `m_server_estab` of a local connection. -/
def servidor (r : Red ι) (x : ι) (prot : ℕ) (valor : Option ℕ) (texto : CStr) : Red ι :=
  let r := r.cambia x fun c ↦ { c with serv := { c.serv with prot := prot } }
  let r := r.setServerYXX prot valor x texto
  let r := r.cambia x fun c ↦
    { c with status := .server, serv := { c.serv with up := some r.me } }
  r.addDlink r.me x

/-- `m_server` of a server that `sptr` introduces over the link `cptr`. -/
def presenta (r : Red ι) (cptr sptr x : ι) (prot : ℕ) (valor : Option ℕ) (texto : CStr) : Red ι :=
  let r := r.cambia x fun _ ↦
    { makeClient cptr .server with serv := { makeServer with prot := prot, up := some sptr } }
  let r := r.addDlink sptr x
  let r := r.setServerYXX (r.ficha cptr).serv.prot valor x texto
  r.addClientToList x

/-- `m_nick` of a local connection that sends its first nick. -/
def nick (r : Red ι) (x : ι) : Red ι :=
  ((r.cambia x fun c ↦ { c with user := some r.me }).setLocalNumNick x).2

/-- `SetUser`. -/
def setUser (r : Red ι) (x : ι) : Red ι :=
  r.cambia x fun c ↦ { c with status := .user }

/-- The part of a numeric that `SetRemoteNumNick` keeps. -/
def yxxRemoto (texto : CStr) : CStr :=
  if texto.length = 5 then texto.drop 2 else (texto.drop 1).take 2

/-- The client with the same index leaves in `SetRemoteNumNick`. -/
def exitGhost (r : Red ι) (desde server : ι) (yxx : CStr) : Option (Red ι) :=
  match r.enServer server yxx with
  | some viejo => (r.exitClient desde viejo).map (·.1)
  | none => some r

/-- `SetRemoteNumNick` of a new client of `server`. The leaving of the old client does not look at
the new one, whose fields are written behind it. -/
def setRemoteNumNick (r : Red ι) (acptr desde server : ι) (texto : CStr) : Option (Red ι) :=
  let yxx := yxxRemoto texto
  (r.exitGhost desde server yxx).map fun r ↦
    (r.cambia acptr fun _ ↦
      { makeClient desde .unknown with user := some server, yxx := yxx }).cambia server fun c ↦
        { c with serv := c.serv.pon (indice c.serv.nnMask yxx) (some acptr) }

/-- `m_nick` of a user that `server` introduces over the link `cptr`. -/
def nickRemoto (r : Red ι) (cptr server x : ι) (texto : CStr) : Option (Red ι) :=
  ((r.setRemoteNumNick x cptr server texto).map (·.addClientToList x)).map (·.setUser x)

/-- The same over a link with protocol 9. A server with 64 users leaves. -/
def nickRemoto9 (r : Red ι) (cptr server x : ι) : Option (Red ι) :=
  match r.createNN server with
  | (none, r) => (r.exitClient cptr server).map (·.1)
  | (some nnp9, r) => r.nickRemoto cptr server x nnp9

/-! ## A connection becomes a server -/

/-- The client `x` is the server `c` behind `p`. -/
def conServer (r : Red ι) (x p : ι) (c : Cliente ι) : Red ι :=
  ((r.addDlink p x).cambia x fun _ ↦ c).ponServer (base64toint c.yxx) x

end Red

section

variable {r : Red ι} {a l : List ι} {b c : Cliente ι} {p s x y : ι} {yxx : CStr}

/-- The new server. -/
theorem Red.ficha_conServer : (r.conServer x p c).ficha x = c :=
  Function.update_self ..

/-- The uplink of the new server gets a down-link, and the others stay. -/
theorem Red.ficha_conServer_of_ne (hy : y ≠ x) :
    (r.conServer x p c).ficha y = { r.ficha y with
      serv := { (r.ficha y).serv with
        down := if y = p then x :: (r.ficha y).serv.down else (r.ficha y).serv.down } } := by
  refine (Function.update_of_ne hy ..).trans ?_
  show Function.update _ _ _ y = _
  rw [Function.update_apply]
  split
  · next h => rw [h]
  · rfl

omit [DecidableEq ι] in
/-- An unknown client is no server. -/
theorem Red.Bien.not_esServer (h : r.Bien) (hx : (r.ficha x).status = .unknown) :
    ¬ r.EsServer x := by
  rintro (hserver | rfl)
  · rw [hx] at hserver
    cases hserver
  · rw [(h.status_me r.me).mpr rfl] at hx
    cases hx

/-- The servers stay servers. -/
theorem Red.EsServer.conServer (hnot : ¬ r.EsServer x) (hy : r.EsServer y) :
    (r.conServer x p c).EsServer y := by
  have hyx : y ≠ x := by
    rintro rfl
    exact hnot hy
  rw [Red.EsServer, Red.ficha_conServer_of_ne hyx]
  exact hy

/-- The new server is a down-link of its uplink alone. -/
theorem Red.Bien.mem_down_conServer (h : r.Bien) (hunknown : (r.ficha x).status = .unknown)
    (hserver : r.EsServer p) (hstatus : c.status = .server) (hup : c.serv.up = some p)
    (hdown : c.serv.down = []) (q y : ι) :
    y ∈ ((r.conServer x p c).ficha q).serv.down ↔
      ((r.conServer x p c).ficha y).status = .server ∧
        ((r.conServer x p c).ficha y).serv.up = some q := by
  have hnot := h.not_esServer hunknown
  have hpx : p ≠ x := by
    rintro rfl
    exact hnot hserver
  by_cases hq : q = x
  · rw [hq, Red.ficha_conServer, hdown]
    refine iff_of_false List.not_mem_nil fun hno ↦ ?_
    obtain ⟨hy, hyup⟩ := hno
    by_cases hyx : y = x
    · rw [hyx, Red.ficha_conServer, hup] at hyup
      exact hpx (Option.some.inj hyup)
    · rw [Red.ficha_conServer_of_ne hyx] at hy hyup
      exact hnot (h.padre_server y x ((h.padre_of_up hy).trans hyup))
  · rw [Red.ficha_conServer_of_ne hq]
    by_cases hyx : y = x
    · rw [hyx, Red.ficha_conServer, hstatus, hup]
      have hno : x ∉ (r.ficha q).serv.down := fun hmem ↦
        hnot (.inl ((h.mem_down q x).mp hmem).1)
      by_cases hqp : q = p
      · simp [hqp]
      · simp [hqp, hno, Ne.symm hqp]
    · rw [Red.ficha_conServer_of_ne hyx]
      refine .trans ?_ (h.mem_down q y)
      dsimp only
      split
      · exact List.mem_cons.trans (or_iff_right hyx)
      · rfl

/-- The new server has no users yet, and the others keep theirs. -/
theorem Red.Bien.hueco_conServer (h : r.Bien) (hunknown : (r.ficha x).status = .unknown)
    (huser : (r.ficha x).user = none) (hcuser : c.user = none)
    (hclient : c.serv.clientList = some fun _ ↦ none) (s : ι) (i : ℕ) (u : ι) :
    ((r.conServer x p c).ficha s).serv.hueco i = some u ↔
      ((r.conServer x p c).ficha u).user = some s ∧ ((r.conServer x p c).ficha u).yxx ≠ [] ∧
        i = indice ((r.conServer x p c).ficha s).serv.nnMask ((r.conServer x p c).ficha u).yxx := by
  have hnot := h.not_esServer hunknown
  by_cases hu : u = x
  · rw [hu, Red.ficha_conServer, hcuser]
    refine iff_of_false (fun hueco ↦ ?_) fun hno ↦ by cases hno.1
    by_cases hs : s = x
    · rw [hs, Red.ficha_conServer, Servidor.hueco, hclient] at hueco
      cases hueco
    · rw [Red.ficha_conServer_of_ne hs] at hueco
      have hxuser := ((h.hueco s i x).mp hueco).1
      rw [huser] at hxuser
      cases hxuser
  · rw [Red.ficha_conServer_of_ne hu]
    by_cases hs : s = x
    · rw [hs, Red.ficha_conServer, Servidor.hueco, hclient]
      refine iff_of_false (fun hueco ↦ by cases hueco) fun hno ↦ ?_
      exact hnot (h.padre_server u x (Red.padre_of_user hno.1))
    · rw [Red.ficha_conServer_of_ne hs]
      exact h.hueco s i u

/-- `server_list` has the new server where its numeric says. -/
theorem Red.Bien.serverList_conServer (h : r.Bien) (hunknown : (r.ficha x).status = .unknown)
    (hstatus : c.status = .server) {i : ℕ} {s : ι}
    (hs : (r.conServer x p c).serverList i = some s) :
    i = base64toint ((r.conServer x p c).ficha s).yxx ∧ (r.conServer x p c).EsServer s ∧
      i < (r.conServer x p c).lastNNServer := by
  have hnot := h.not_esServer hunknown
  have hlast : (r.conServer x p c).lastNNServer =
      max r.lastNNServer (base64toint c.yxx + 1) := Red.lastNNServer_ponServer ..
  have hs := Red.serverList_ponServer.mp hs
  rw [hlast]
  split at hs
  · next hi =>
      rw [← hs, Red.EsServer, Red.ficha_conServer]
      exact ⟨hi, .inl hstatus, by omega⟩
  · next hi =>
      obtain ⟨hindex, hsserver, hilast⟩ := h.serverList i s hs
      have hsx : s ≠ x := by
        rintro rfl
        exact hnot hsserver
      rw [Red.ficha_conServer_of_ne hsx]
      exact ⟨hindex, hsserver.conServer hnot, by omega⟩

/-- A connection becomes a server below another one, and the network stays in order. -/
theorem Red.Bien.conServer (h : r.Bien) (hlist : r.client = a ++ x :: l) (hp : p ∈ l)
    (hunknown : (r.ficha x).status = .unknown) (huser : (r.ficha x).user = none)
    (hserver : r.EsServer p) (hstatus : c.status = .server) (hcuser : c.user = none)
    (hup : c.serv.up = some p) (hdown : c.serv.down = [])
    (hclient : c.serv.clientList = some fun _ ↦ none) (hdesde : c.desde = x → p = r.me) :
    (r.conServer x p c).Bien := by
  have hnot := h.not_esServer hunknown
  have hme : r.me ≠ x := fun hme ↦ hnot (.inr hme.symm)
  have hxmem : x ∈ r.client := by simp [hlist]
  have hself : (r.conServer x p c).padre x = some p := by
    rw [Red.padre, Red.ficha_conServer, hcuser]
    exact (if_pos hstatus).trans hup
  have hsame (y : ι) (hy : y ≠ x) : (r.conServer x p c).padre y = r.padre y := by
    rw [Red.padre, Red.ficha_conServer_of_ne hy]
    rfl
  have hes {y : ι} (hy : r.EsServer y) : (r.conServer x p c).EsServer y := hy.conServer hnot
  exact {
    nodup := h.nodup
    bottom := h.bottom
    status_me := by
      intro y
      by_cases hy : y = x
      · rw [hy, Red.ficha_conServer, hstatus]
        exact iff_of_false Status.noConfusion hme.symm
      · rw [Red.ficha_conServer_of_ne hy]
        exact h.status_me y
    libre := by
      intro y hy
      have hyx : y ≠ x := by
        rintro rfl
        exact hy hxmem
      have hyp : y ≠ p := by
        rintro rfl
        exact hy (h.mem_of_esServer hserver)
      rw [Red.ficha_conServer_of_ne hyx, if_neg hyp]
      exact h.libre y hy
    listed := by
      have hlisted := h.listed
      have hnodup := h.nodup
      show Forest.Listed _ r.client
      rw [hlist] at hlisted hnodup ⊢
      exact hlisted.adopt hself hp hsame hnodup
    down_nodup := by
      intro q
      by_cases hq : q = x
      · rw [hq, Red.ficha_conServer, hdown]
        exact List.nodup_nil
      · rw [Red.ficha_conServer_of_ne hq]
        dsimp only
        split
        · refine List.nodup_cons.mpr ⟨fun hmem ↦ ?_, h.down_nodup q⟩
          exact hnot (.inl ((h.mem_down q x).mp hmem).1)
        · exact h.down_nodup q
    mem_down := h.mem_down_conServer hunknown hserver hstatus hup hdown
    padre_server := by
      intro y q hy
      by_cases hyx : y = x
      · rw [hyx, hself] at hy
        rw [← Option.some.inj hy]
        exact hes hserver
      · rw [hsame y hyx] at hy
        exact hes (h.padre_server y q hy)
    user := by
      intro y s hy
      by_cases hyx : y = x
      · rw [hyx, Red.ficha_conServer, hcuser] at hy
        cases hy
      · rw [Red.ficha_conServer_of_ne hyx] at hy ⊢
        exact h.user y s hy
    hueco := h.hueco_conServer hunknown huser hcuser hclient
    yxx := by
      intro u s hu hs
      by_cases hux : u = x
      · rw [hux, Red.ficha_conServer, hcuser] at hu
        cases hu
      · rw [Red.ficha_conServer_of_ne hux] at hu ⊢
        exact h.yxx u s hu hs
    sinYxx := by
      intro y hy hyserver
      by_cases hyx : y = x
      · rw [hyx, Red.EsServer, Red.ficha_conServer] at hyserver
        exact absurd (.inl hstatus) hyserver
      · rw [Red.ficha_conServer_of_ne hyx] at hy ⊢
        exact h.sinYxx y hy fun hes' ↦ hyserver (hes hes')
    desde := by
      intro y q hy hq
      by_cases hyx : y = x
      · rw [hyx, Red.ficha_conServer] at hy
        rw [hyx, hself] at hq
        rw [← Option.some.inj hq]
        exact hdesde hy
      · rw [Red.ficha_conServer_of_ne hyx] at hy
        rw [hsame y hyx] at hq
        exact h.desde y q hy hq
    lastNn := h.lastNn
    mascara := by
      show ∃ k, ((r.conServer x p c).ficha r.me).serv.nnMask + 1 = 2 ^ k ∧ 2 ^ k ≤ r.maxClient
      rw [Red.ficha_conServer_of_ne hme]
      exact h.mascara
    clientList := by
      intro s hs
      by_cases hsx : s = x
      · rw [hsx, Red.ficha_conServer, hclient]
        rfl
      · rw [Red.EsServer, Red.ficha_conServer_of_ne hsx] at hs
        rw [Red.ficha_conServer_of_ne hsx]
        exact h.clientList s hs
    serverList := fun _ _ hs ↦ h.serverList_conServer hunknown hstatus hs }

/-! ## A connection becomes a user -/

/-- The client `x` is a user of `s`, with a numeric or without one. -/
def Red.conUser (r : Red ι) (x s : ι) (yxx : CStr) : Red ι :=
  (r.cambia s fun c ↦ if yxx = [] then c
    else { c with serv := c.serv.pon (indice c.serv.nnMask yxx) (some x) }).cambia x
      fun c ↦ { c with user := some s, yxx := yxx }

/-- The new user. -/
theorem Red.ficha_conUser (hs : s ≠ x) : (r.conUser x s yxx).ficha x =
    { r.ficha x with user := some s, yxx := yxx } := by
  simp [conUser, cambia, Function.update_of_ne hs.symm]

/-- The server of the new user gets an entry, and the others stay. -/
theorem Red.ficha_conUser_of_ne (hy : y ≠ x) :
    (r.conUser x s yxx).ficha y = { r.ficha y with
      serv := { (r.ficha y).serv with
        clientList := if y = s ∧ yxx ≠ []
          then ((r.ficha y).serv.pon (indice (r.ficha y).serv.nnMask yxx) (some x)).clientList
          else (r.ficha y).serv.clientList } } := by
  refine (Function.update_of_ne hy ..).trans ?_
  show Function.update _ _ _ y = _
  rw [Function.update_apply]
  by_cases hys : y = s
  · by_cases hyxx : yxx = []
    · simp [hys, hyxx]
    · simp only [hys, hyxx, if_true, if_false, ne_eq, not_false_eq_true, and_self]
      rfl
  · simp [hys]

omit [DecidableEq ι] in
/-- An entry of `client_list` is written. -/
theorem Servidor.hueco_pon {t : Servidor ι} {i k : ℕ} {o : Option ι}
    (h : t.clientList.isSome) : (t.pon k o).hueco i = if i = k then o else t.hueco i := by
  obtain ⟨f, hf⟩ := Option.isSome_iff_exists.mp h
  simp only [hueco, pon, hf, Option.map_some, Option.bind_some, Function.update_apply]

/-- The new user has its entry, and the others keep theirs. -/
theorem Red.Bien.hueco_conUser (h : r.Bien) (hunknown : (r.ficha x).status = .unknown)
    (huser : (r.ficha x).user = none) (hserver : r.EsServer s)
    (hlibre : yxx ≠ [] → r.enServer s yxx = none) (t : ι) (i : ℕ) (u : ι) :
    ((r.conUser x s yxx).ficha t).serv.hueco i = some u ↔
      ((r.conUser x s yxx).ficha u).user = some t ∧ ((r.conUser x s yxx).ficha u).yxx ≠ [] ∧
        i = indice ((r.conUser x s yxx).ficha t).serv.nnMask ((r.conUser x s yxx).ficha u).yxx := by
  have hnot := h.not_esServer hunknown
  have hsx : s ≠ x := by
    rintro rfl
    exact hnot hserver
  have hux (t : ι) (i : ℕ) : (r.ficha t).serv.hueco i ≠ some x := fun hueco ↦ by
    rw [h.hueco, huser] at hueco
    cases hueco.1
  by_cases htx : t = x
  · -- nobody is a user of `x`
    rw [htx, Red.ficha_conUser hsx]
    refine iff_of_false (fun hueco ↦ ?_) fun hno ↦ ?_
    · exact hnot (h.padre_server u x (Red.padre_of_user ((h.hueco x i u).mp hueco).1))
    · by_cases hu : u = x
      · rw [hu, Red.ficha_conUser hsx] at hno
        exact hsx (Option.some.inj hno.1)
      · rw [Red.ficha_conUser_of_ne hu] at hno
        exact hnot (h.padre_server u x (Red.padre_of_user hno.1))
  · have hueco : ((r.conUser x s yxx).ficha t).serv.hueco i =
        if t = s ∧ yxx ≠ [] ∧ i = indice (r.ficha s).serv.nnMask yxx then some x
        else (r.ficha t).serv.hueco i := by
      rw [Red.ficha_conUser_of_ne htx]
      by_cases hts : t = s ∧ yxx ≠ []
      · rw [if_pos hts, hts.1]
        refine (Servidor.hueco_pon (h.clientList s hserver)).trans ?_
        simp [hts.2]
      · rw [if_neg hts, if_neg fun hi ↦ hts ⟨hi.1, hi.2.1⟩]
    have hmask : ((r.conUser x s yxx).ficha t).serv.nnMask = (r.ficha t).serv.nnMask := by
      rw [Red.ficha_conUser_of_ne htx]
    rw [hueco, hmask]
    by_cases hu : u = x
    · rw [hu, Red.ficha_conUser hsx]
      dsimp only
      split
      · next hi => exact iff_of_true rfl ⟨congrArg some hi.1.symm, hi.2.1, hi.1 ▸ hi.2.2⟩
      · next hi =>
          refine iff_of_false (hux t i) fun hno ↦ hi ?_
          obtain rfl := Option.some.inj hno.1
          exact ⟨rfl, hno.2⟩
    · rw [Red.ficha_conUser_of_ne hu]
      split
      · next hi =>
          refine iff_of_false (fun hxu ↦ hu (Option.some.inj hxu).symm) fun hno ↦ ?_
          have hlleno := (h.hueco t i u).mpr hno
          rw [hi.1, hi.2.2] at hlleno
          cases (hlibre hi.2.1).symm.trans hlleno
      · exact h.hueco t i u

/-- A connection becomes a user of a server, and the network stays in order. -/
theorem Red.Bien.conUser (h : r.Bien) (hlist : r.client = a ++ x :: l) (hs : s ∈ l)
    (hunknown : (r.ficha x).status = .unknown) (huser : (r.ficha x).user = none)
    (hserver : r.EsServer s) (hyxx : s ≠ r.me → yxx ≠ [])
    (hlibre : yxx ≠ [] → r.enServer s yxx = none) (hdesde : (r.ficha x).desde = x → s = r.me) :
    (r.conUser x s yxx).Bien := by
  have hnot := h.not_esServer hunknown
  have hsx : s ≠ x := by
    rintro rfl
    exact hnot hserver
  have hme : r.me ≠ x := fun hme ↦ hnot (.inr hme.symm)
  have hxmem : x ∈ r.client := by simp [hlist]
  have hself : (r.conUser x s yxx).padre x = some s := by
    rw [Red.padre, Red.ficha_conUser hsx]
  have hsame (y : ι) (hy : y ≠ x) : (r.conUser x s yxx).padre y = r.padre y := by
    rw [Red.padre, Red.ficha_conUser_of_ne hy]
    rfl
  have hes {y : ι} : (r.conUser x s yxx).EsServer y ↔ r.EsServer y := by
    have hstatus : ((r.conUser x s yxx).ficha y).status = (r.ficha y).status := by
      by_cases hy : y = x
      · rw [hy, Red.ficha_conUser hsx]
      · rw [Red.ficha_conUser_of_ne hy]
    rw [Red.EsServer, hstatus]
    rfl
  exact {
    nodup := h.nodup
    bottom := h.bottom
    status_me := by
      intro y
      by_cases hy : y = x
      · rw [hy, Red.ficha_conUser hsx]
        exact h.status_me x
      · rw [Red.ficha_conUser_of_ne hy]
        exact h.status_me y
    libre := by
      intro y hy
      have hyx : y ≠ x := by
        rintro rfl
        exact hy hxmem
      have hys : y ≠ s := by
        rintro rfl
        exact hy (h.mem_of_esServer hserver)
      rw [Red.ficha_conUser_of_ne hyx, if_neg fun hcond ↦ hys hcond.1]
      exact h.libre y hy
    listed := by
      have hlisted := h.listed
      have hnodup := h.nodup
      show Forest.Listed _ r.client
      rw [hlist] at hlisted hnodup ⊢
      exact hlisted.adopt hself hs hsame hnodup
    down_nodup := by
      intro q
      by_cases hq : q = x
      · rw [hq, Red.ficha_conUser hsx]
        exact h.down_nodup x
      · rw [Red.ficha_conUser_of_ne hq]
        exact h.down_nodup q
    mem_down := by
      intro q y
      have hdown : y ∈ ((r.conUser x s yxx).ficha q).serv.down ↔ y ∈ (r.ficha q).serv.down := by
        by_cases hq : q = x
        · rw [hq, Red.ficha_conUser hsx]
        · rw [Red.ficha_conUser_of_ne hq]
      rw [hdown, h.mem_down q y]
      by_cases hy : y = x
      · rw [hy, Red.ficha_conUser hsx]
      · rw [Red.ficha_conUser_of_ne hy]
    padre_server := by
      intro y q hy
      by_cases hyx : y = x
      · rw [hyx, hself] at hy
        rw [← Option.some.inj hy]
        exact hes.mpr hserver
      · rw [hsame y hyx] at hy
        exact hes.mpr (h.padre_server y q hy)
    user := by
      intro y t hy
      by_cases hyx : y = x
      · rw [hyx, Red.ficha_conUser hsx, hunknown]
        exact ⟨Status.noConfusion, hme.symm⟩
      · rw [Red.ficha_conUser_of_ne hyx] at hy ⊢
        exact h.user y t hy
    hueco := h.hueco_conUser hunknown huser hserver hlibre
    yxx := by
      intro u t hu ht
      by_cases hux : u = x
      · rw [hux, Red.ficha_conUser hsx] at hu ⊢
        exact hyxx (Option.some.inj hu ▸ ht)
      · rw [Red.ficha_conUser_of_ne hux] at hu ⊢
        exact h.yxx u t hu ht
    sinYxx := by
      intro y hy hyserver
      by_cases hyx : y = x
      · rw [hyx, Red.ficha_conUser hsx] at hy
        cases hy
      · rw [Red.ficha_conUser_of_ne hyx] at hy ⊢
        exact h.sinYxx y hy fun hes' ↦ hyserver (hes.mpr hes')
    desde := by
      intro y q hy hq
      by_cases hyx : y = x
      · rw [hyx, Red.ficha_conUser hsx] at hy
        rw [hyx, hself] at hq
        rw [← Option.some.inj hq]
        exact hdesde hy
      · rw [Red.ficha_conUser_of_ne hyx] at hy
        rw [hsame y hyx] at hq
        exact h.desde y q hy hq
    lastNn := h.lastNn
    mascara := by
      show ∃ k, ((r.conUser x s yxx).ficha r.me).serv.nnMask + 1 = 2 ^ k ∧ 2 ^ k ≤ r.maxClient
      rw [Red.ficha_conUser_of_ne hme]
      exact h.mascara
    clientList := by
      intro t ht
      have htr := hes.mp ht
      have htx : t ≠ x := by
        rintro rfl
        exact hnot htr
      rw [Red.ficha_conUser_of_ne htx]
      dsimp only
      split
      · exact (Option.isSome_map ..).trans (h.clientList t htr)
      · exact h.clientList t htr
    serverList := by
      intro i t ht
      obtain ⟨hindex, htserver, hilast⟩ := h.serverList i t ht
      have htx : t ≠ x := by
        rintro rfl
        exact hnot htserver
      rw [Red.ficha_conUser_of_ne htx]
      exact ⟨hindex, hes.mpr htserver, hilast⟩ }

/-! ## What comes in -/

/-- A new client says at most which link it is behind. -/
theorem Red.Bien.ficha_nuevo (h : r.Bien) (hx : x ∉ r.client) (desde : ι) (y : ι) :
    (r.nuevo x desde).ficha y =
      { r.ficha y with desde := if y = x then desde else (r.ficha y).desde } := by
  show Function.update r.ficha x _ y = _
  rw [Function.update_apply]
  split
  · next hy => rw [hy, h.libre x hx, makeClient, makeClient]
  · rfl

/-- A client comes to the list. -/
theorem Red.Bien.nuevo (h : r.Bien) (hx : x ∉ r.client) (desde : ι) : (r.nuevo x desde).Bien := by
  have hficha := h.ficha_nuevo hx desde
  have hpadre : (r.nuevo x desde).padre = r.padre := by
    funext y
    rw [Red.padre, hficha]
    rfl
  have hes (y : ι) : (r.nuevo x desde).EsServer y ↔ r.EsServer y := by
    rw [Red.EsServer, hficha]
    rfl
  exact {
    nodup := List.nodup_cons.mpr ⟨hx, h.nodup⟩
    bottom := by
      obtain ⟨l, hl⟩ := h.bottom
      exact ⟨x :: l, congrArg (x :: ·) hl⟩
    status_me := by
      intro y
      rw [hficha]
      exact h.status_me y
    libre := by
      intro y hy
      have hne : y ≠ x := fun hyx ↦ hy (hyx ▸ List.mem_cons_self)
      rw [hficha, if_neg hne]
      exact h.libre y fun hmem ↦ hy (List.mem_cons_of_mem _ hmem)
    listed := by
      rw [hpadre]
      refine ⟨fun p hp ↦ ?_, h.listed⟩
      rw [h.padre_eq_none hx] at hp
      cases hp
    down_nodup := by
      intro q
      rw [hficha]
      exact h.down_nodup q
    mem_down := by
      intro q y
      rw [hficha, hficha]
      exact h.mem_down q y
    padre_server := by
      intro y q hy
      rw [hpadre] at hy
      exact (hes q).mpr (h.padre_server y q hy)
    user := by
      intro y s hy
      rw [hficha] at hy ⊢
      exact h.user y s hy
    hueco := by
      intro s i u
      rw [hficha, hficha]
      exact h.hueco s i u
    yxx := by
      intro u s hu hs
      rw [hficha] at hu ⊢
      exact h.yxx u s hu hs
    sinYxx := by
      intro y hy hyserver
      rw [hficha] at hy ⊢
      exact h.sinYxx y hy fun hes' ↦ hyserver ((hes y).mpr hes')
    desde := by
      intro y q hy hq
      rw [hpadre] at hq
      have hne : y ≠ x := by
        rintro rfl
        rw [h.padre_eq_none hx] at hq
        cases hq
      rw [hficha, if_neg hne] at hy
      exact h.desde y q hy hq
    lastNn := h.lastNn
    mascara := by
      rw [hficha]
      exact h.mascara
    clientList := by
      intro s hs
      rw [hficha]
      exact h.clientList s ((hes s).mp hs)
    serverList := by
      intro i s hs
      obtain ⟨hindex, hserver, hlast⟩ := h.serverList i s hs
      rw [hficha]
      exact ⟨hindex, (hes s).mpr hserver, hlast⟩ }

/-- A client behind `SetServerYXX`. -/
def Servidor.alta (protocol : ℕ) (valor : Option ℕ) (texto : CStr) (c : Cliente ι) : Cliente ι :=
  let d := Servidor.conYXX protocol valor texto c
  { d with serv := { d.serv with clientList := some fun _ ↦ none } }

omit [DecidableEq ι] in
/-- `SetServerYXX` writes the numeric, the capacity and the list of clients. -/
theorem Servidor.alta_eq (protocol : ℕ) (valor : Option ℕ) (texto : CStr) (c : Cliente ι) :
    ∃ yxx capacity mask, Servidor.alta protocol valor texto c =
      { c with
        yxx := yxx
        serv := { c.serv with
          nnCapacity := capacity, nnMask := mask, clientList := some fun _ ↦ none } } := by
  unfold alta conYXX
  split
  · split <;> exact ⟨_, _, _, rfl⟩
  · split <;> exact ⟨_, _, _, rfl⟩

/-- `SetServerYXX` sets the fields of the server and its entry in `server_list`. -/
theorem Red.setServerYXX_eq (protocol : ℕ) (valor : Option ℕ) (texto : CStr) :
    r.setServerYXX protocol valor x texto =
      (r.cambia x (Servidor.alta protocol valor texto)).ponServer
        (base64toint (Servidor.alta protocol valor texto (r.ficha x)).yxx) x := by
  simp only [setServerYXX, cambia, ponServer, Function.update_self, Function.update_idem]
  rfl

/-- The server that `presenta` adds. -/
def Red.presentado (r : Red ι) (cptr p : ι) (prot : ℕ) (valor : Option ℕ) (texto : CStr) :
    Cliente ι :=
  Servidor.alta (r.ficha cptr).serv.prot valor texto
    { makeClient cptr .server with serv := { makeServer with prot := prot, up := some p } }

/-- A server that a link introduces is a new client that becomes a server. -/
theorem Red.presenta_eq (hx : x ≠ p) (cptr : ι) (hc : cptr ≠ x) (prot : ℕ) (valor : Option ℕ)
    (texto : CStr) : r.presenta cptr p x prot valor texto =
      (r.nuevo x cptr).conServer x p (r.presentado cptr p prot valor texto) := by
  have hprot : ((r.cambia x fun _ ↦ { makeClient cptr .server with
      serv := { makeServer with prot := prot, up := some p } }).addDlink p x |>.ficha cptr).serv.prot =
      (r.ficha cptr).serv.prot := by
    simp only [addDlink, cambia, Function.update_apply, hc, if_false]
    split
    · next hcp => simp [hcp, hx.symm]
    · rfl
  have hpx : p ≠ x := hx.symm
  unfold presenta
  dsimp only
  rw [hprot, setServerYXX_eq]
  refine Red.ext rfl rfl (funext fun y ↦ ?_) ?_ ?_ rfl rfl rfl
  · by_cases hyx : y = x
    · simp [hyx, addClientToList, ponServer, cambia, addDlink, hx, ficha_conServer, presentado]
    · rw [ficha_conServer_of_ne hyx]
      by_cases hyp : y = p <;>
        simp [hyx, hyp, hpx, addClientToList, ponServer, cambia, addDlink, nuevo]
  · simp [addClientToList, ponServer, cambia, addDlink, hx, conServer, nuevo, presentado]
  · simp [addClientToList, ponServer, cambia, addDlink, hx, conServer, nuevo, presentado]

/-- The server that `servidor` makes of a connection. -/
def Red.conectado (r : Red ι) (x : ι) (prot : ℕ) (valor : Option ℕ) (texto : CStr) : Cliente ι :=
  let c := r.ficha x
  let d := Servidor.alta prot valor texto { c with serv := { c.serv with prot := prot } }
  { d with status := .server, serv := { d.serv with up := some r.me } }

/-- A connection that sends SERVER becomes a server below this one. -/
theorem Red.servidor_eq (hx : x ≠ r.me) (prot : ℕ) (valor : Option ℕ) (texto : CStr) :
    r.servidor x prot valor texto = r.conServer x r.me (r.conectado x prot valor texto) := by
  have hmex : r.me ≠ x := hx.symm
  unfold servidor
  dsimp only
  rw [setServerYXX_eq]
  refine Red.ext rfl rfl (funext fun y ↦ ?_) ?_ ?_ rfl rfl rfl
  · by_cases hyx : y = x
    · simp [hyx, ponServer, cambia, addDlink, hx, ficha_conServer, conectado]
    · rw [ficha_conServer_of_ne hyx]
      by_cases hyp : y = r.me <;> simp [hyx, hyp, hmex, ponServer, cambia, addDlink]
  · simp [ponServer, cambia, addDlink, conServer, conectado]
  · simp [ponServer, cambia, addDlink, conServer, conectado]

/-- A server that a link introduces. -/
theorem Red.Bien.presenta (h : r.Bien) {cptr : ι} (hx : x ∉ r.client) (hc : cptr ∈ r.client)
    (hp : r.EsServer p) (prot : ℕ) (valor : Option ℕ) (texto : CStr) :
    (r.presenta cptr p x prot valor texto).Bien := by
  have hpmem := h.mem_of_esServer hp
  have hxp : x ≠ p := by
    rintro rfl
    exact hx hpmem
  have hcx : cptr ≠ x := by
    rintro rfl
    exact hx hc
  have hself : (r.nuevo x cptr).ficha x = makeClient cptr .unknown := Function.update_self ..
  have hpserver : (r.nuevo x cptr).EsServer p := by
    rw [Red.EsServer, h.ficha_nuevo hx]
    exact hp
  obtain ⟨yxx, capacity, mask, halta⟩ := Servidor.alta_eq (r.ficha cptr).serv.prot valor texto
    { makeClient cptr .server with serv := { makeServer with prot := prot, up := some p } }
  rw [Red.presenta_eq hxp cptr hcx]
  refine (h.nuevo hx cptr).conServer (a := []) rfl hpmem ?_ ?_ hpserver
    (congrArg (·.status) halta) (congrArg (·.user) halta) (congrArg (·.serv.up) halta)
    (congrArg (·.serv.down) halta) (congrArg (·.serv.clientList) halta) fun hdesde ↦ ?_
  · rw [hself]
    rfl
  · rw [hself]
    rfl
  · exact absurd ((congrArg (·.desde) halta).symm.trans hdesde) hcx

omit [DecidableEq ι] in
/-- A client of the list stands before the server itself. -/
theorem Red.Bien.exists_append (h : r.Bien) (hx : x ∈ r.client) (hme : x ≠ r.me) :
    ∃ a l, r.client = a ++ x :: l ∧ r.me ∈ l := by
  obtain ⟨l, hl⟩ := h.bottom
  rw [hl] at hx ⊢
  rcases List.mem_append.mp hx with hx | hx
  · obtain ⟨a, b, rfl⟩ := List.append_of_mem hx
    exact ⟨a, b ++ [r.me], by simp, by simp⟩
  · exact absurd (List.mem_singleton.mp hx) hme

/-- A connection that sends SERVER, and has not sent NICK. -/
theorem Red.Bien.servidor (h : r.Bien) (hx : x ∈ r.client)
    (hunknown : (r.ficha x).status = .unknown) (huser : (r.ficha x).user = none) (prot : ℕ)
    (valor : Option ℕ) (texto : CStr) : (r.servidor x prot valor texto).Bien := by
  have hnot := h.not_esServer hunknown
  have hme : x ≠ r.me := fun hme ↦ hnot (.inr hme)
  obtain ⟨a, l, hlist, hmem⟩ := h.exists_append hx hme
  have hdown : (r.ficha x).serv.down = [] := by
    refine List.eq_nil_iff_forall_not_mem.mpr fun y hy ↦ ?_
    obtain ⟨hserver, hup⟩ := (h.mem_down x y).mp hy
    exact hnot (h.padre_server y x ((h.padre_of_up hserver).trans hup))
  obtain ⟨yxx, capacity, mask, halta⟩ := Servidor.alta_eq prot valor texto
    { r.ficha x with serv := { (r.ficha x).serv with prot := prot } }
  rw [Red.servidor_eq hme]
  exact h.conServer hlist hmem hunknown huser (.inr rfl) rfl
    ((congrArg (·.user) halta).trans huser) rfl ((congrArg (·.serv.down) halta).trans hdown)
    (congrArg (·.serv.clientList) halta) fun _ ↦ rfl

omit [DecidableEq ι] in
/-- The clock of the local numerics does not belong to the order of the network. -/
theorem Red.Bien.conLastNn (h : r.Bien) {n : ℕ} (hn : n < r.maxClient) :
    ({ r.numericsAlDia with lastNn := n } : Red ι).Bien :=
  { h with
    lastNn := by
      show (if r.numericsExtendidos ≠ r.numericsExtendidos then 0 else n) < r.maxClient
      rwa [if_neg (not_not_intro rfl)] }

/-- What the order of the network says of a client. -/
structure Cliente.Igual (c d : Cliente ι) : Prop where
  me : c.status = .me ↔ d.status = .me
  server : c.status = .server ↔ d.status = .server
  desde : c.desde = d.desde
  yxx : c.yxx = d.yxx
  user : c.user = d.user
  up : c.serv.up = d.serv.up
  down : c.serv.down = d.serv.down
  nnMask : c.serv.nnMask = d.serv.nnMask
  clientList : c.serv.clientList = d.serv.clientList

/-- A change that keeps a client alike keeps all of them alike. -/
theorem Red.igual_cambia (r : Red ι) {f : Cliente ι → Cliente ι}
    (hf : (f (r.ficha x)).Igual (r.ficha x)) (y : ι) :
    ((r.cambia x f).ficha y).Igual (r.ficha y) := by
  show (Function.update r.ficha x _ y).Igual _
  rw [Function.update_apply]
  split
  · next hy => rwa [hy]
  · exact ⟨.rfl, .rfl, rfl, rfl, rfl, rfl, rfl, rfl, rfl⟩

/-- A client changes in other things. -/
theorem Red.Bien.cambia (h : r.Bien) (hx : x ∈ r.client) {f : Cliente ι → Cliente ι}
    (hf : (f (r.ficha x)).Igual (r.ficha x)) : (r.cambia x f).Bien := by
  have higual := r.igual_cambia hf
  have hpadre : (r.cambia x f).padre = r.padre := by
    funext y
    simp only [Red.padre, (higual y).user, (higual y).server, (higual y).up]
  have hes (y : ι) : (r.cambia x f).EsServer y ↔ r.EsServer y := by
    rw [Red.EsServer, (higual y).server]
    rfl
  have hueco (s : ι) (i : ℕ) :
      ((r.cambia x f).ficha s).serv.hueco i = (r.ficha s).serv.hueco i := by
    rw [Servidor.hueco, (higual s).clientList]
    rfl
  exact {
    nodup := h.nodup
    bottom := h.bottom
    status_me := fun y ↦ (higual y).me.trans (h.status_me y)
    libre := by
      intro y hy
      have hyx : y ≠ x := by
        rintro rfl
        exact hy hx
      exact (Function.update_of_ne hyx ..).trans (h.libre y hy)
    listed := by
      rw [hpadre]
      exact h.listed
    down_nodup := by
      intro q
      rw [(higual q).down]
      exact h.down_nodup q
    mem_down := by
      intro q y
      rw [(higual q).down, (higual y).server, (higual y).up]
      exact h.mem_down q y
    padre_server := by
      intro y q hy
      rw [hpadre] at hy
      exact (hes q).mpr (h.padre_server y q hy)
    user := by
      intro y s hy
      rw [(higual y).user] at hy
      obtain ⟨hserver, hme⟩ := h.user y s hy
      exact ⟨fun hno ↦ hserver ((higual y).server.mp hno), hme⟩
    hueco := by
      intro s i u
      rw [hueco, (higual u).user, (higual u).yxx, (higual s).nnMask]
      exact h.hueco s i u
    yxx := by
      intro u s hu hs
      rw [(higual u).user] at hu
      rw [(higual u).yxx]
      exact h.yxx u s hu hs
    sinYxx := by
      intro y hy hyserver
      rw [(higual y).user] at hy
      rw [(higual y).yxx]
      exact h.sinYxx y hy fun hes' ↦ hyserver ((hes y).mpr hes')
    desde := by
      intro y q hy hq
      rw [(higual y).desde] at hy
      rw [hpadre] at hq
      exact h.desde y q hy hq
    lastNn := h.lastNn
    mascara := by
      rw [(higual _).nnMask]
      exact h.mascara
    clientList := by
      intro s hs
      rw [(higual s).clientList]
      exact h.clientList s ((hes s).mp hs)
    serverList := by
      intro i s hs
      obtain ⟨hindex, hserver, hlast⟩ := h.serverList i s hs
      rw [(higual s).yxx]
      exact ⟨hindex, (hes s).mpr hserver, hlast⟩ }

omit [DecidableEq ι] in
/-- A client that becomes a user is alike for the tables. -/
theorem Cliente.igual_user (hunknown : c.status = .unknown) :
    Cliente.Igual { c with status := .user } c := by
  have hno (t : Status) (ht : t ≠ .user) (ht' : t ≠ .unknown) : Status.user = t ↔ c.status = t := by
    rw [hunknown]
    exact iff_of_false ht.symm ht'.symm
  exact ⟨hno .me Status.noConfusion Status.noConfusion,
    hno .server Status.noConfusion Status.noConfusion, rfl, rfl, rfl, rfl, rfl, rfl, rfl⟩

/-- A client becomes a user when its registration ends. -/
theorem Red.Bien.setUser (h : r.Bien) (hunknown : (r.ficha x).status = .unknown)
    (hx : x ∈ r.client) : (r.setUser x).Bien :=
  h.cambia hx (Cliente.igual_user hunknown)

/-! ## Numerics for users -/

/-- A search that ends well has found a free place. -/
theorem buscaLibre_true {ocupado : ℕ → Bool} {m k n n' : ℕ}
    (h : buscaLibre ocupado m k n = (true, n')) (hn : n < m) : ocupado n' = false ∧ n' < m := by
  induction k generalizing n with
  | zero => cases h
  | succ k ih =>
      rw [buscaLibre] at h
      split at h
      · split at h
        · cases h
        · refine ih h ?_
          split <;> omega
      · next hlibre =>
          obtain ⟨-, rfl⟩ := Prod.mk.inj h
          exact ⟨Bool.eq_false_of_not_eq_true hlibre, hn⟩

/-- A search that fails ends inside the table. -/
theorem buscaLibre_false {ocupado : ℕ → Bool} {m k n n' : ℕ}
    (h : buscaLibre ocupado m k n = (false, n')) (hn : n < m) : n' < m := by
  induction k generalizing n with
  | zero =>
      obtain ⟨-, rfl⟩ := Prod.mk.inj h
      exact hn
  | succ k ih =>
      rw [buscaLibre] at h
      split at h
      · split at h
        · obtain ⟨-, rfl⟩ := Prod.mk.inj h
          exact hn
        · refine ih h ?_
          split <;> omega
      · cases h

/-- The text of a local numeric. -/
def Red.textoLocal (r : Red ι) (nn : ℕ) : CStr :=
  inttobase64 nn (if r.numericsExtendidos then 3 else 2)

omit [DecidableEq ι] in
/-- The text of a local numeric is read back. -/
theorem Red.base64toint_textoLocal {nn : ℕ} (h : nn < r.maxClient) :
    base64toint (r.textoLocal nn) = nn := by
  unfold maxClient NN_MAX_CLIENT_EXT NN_MAX_CLIENT_SHORT at h
  unfold textoLocal
  split at h
  · next hext =>
      rw [if_pos hext]
      exact base64toint_inttobase64 h (by omega)
  · next hext =>
      rw [if_neg hext]
      exact base64toint_inttobase64 h (by omega)

omit [DecidableEq ι] in
/-- The text of a local numeric is not empty. -/
theorem Red.textoLocal_ne_nil (nn : ℕ) : r.textoLocal nn ≠ [] := by
  intro h
  have hlen := length_inttobase64 nn (if r.numericsExtendidos then 3 else 2)
  rw [textoLocal] at h
  rw [h] at hlen
  split at hlen <;> cases hlen

/-- What the search of a local numeric finds. -/
def Red.busca (r : Red ι) : Bool × ℕ :=
  buscaLibre (fun nn ↦ ((r.ficha r.me).serv.hueco (nn &&& (r.ficha r.me).serv.nnMask)).isSome)
    r.maxClient r.maxClient r.numericsAlDia.lastNn

/-- The search does not look at a connection. -/
theorem Red.busca_cambia (hme : r.me ≠ x) (f : Cliente ι → Cliente ι) :
    (r.cambia x f).busca = r.busca := by
  have hficha : (r.cambia x f).ficha r.me = r.ficha r.me := Function.update_of_ne hme ..
  unfold busca
  rw [show (r.cambia x f).ficha (r.cambia x f).me = r.ficha r.me from hficha]
  rfl

/-- There is no numeric left. -/
theorem Red.setLocalNumNick_eq_false {nn : ℕ} (hbusca : r.busca = (false, nn)) :
    r.setLocalNumNick x = (false, { r.numericsAlDia with lastNn := nn }) := by
  unfold busca at hbusca
  unfold setLocalNumNick
  dsimp only
  erw [hbusca]

/-- The connection gets the numeric that was found. -/
theorem Red.setLocalNumNick_eq_true {nn : ℕ} (hbusca : r.busca = (true, nn)) :
    r.setLocalNumNick x = (true,
      { (r.numericsAlDia.cambia r.me fun c ↦
          { c with serv := c.serv.pon (nn &&& c.serv.nnMask) (some x) }).cambia x fun c ↦
            { c with yxx := r.textoLocal nn } with
        lastNn := if nn + 1 = r.maxClient then 0 else nn + 1 }) := by
  unfold busca at hbusca
  unfold setLocalNumNick
  dsimp only
  erw [hbusca]
  rfl

/-- NICK where there is no numeric left. -/
theorem Red.nick_eq_false {nn : ℕ} (hme : x ≠ r.me) (hyxx : (r.ficha x).yxx = [])
    (hbusca : r.busca = (false, nn)) :
    r.nick x = ({ r.numericsAlDia with lastNn := nn } : Red ι).conUser x r.me [] := by
  have hmex : r.me ≠ x := hme.symm
  rw [nick, setLocalNumNick_eq_false ((busca_cambia hmex _).trans hbusca)]
  refine Red.ext rfl rfl (funext fun y ↦ ?_) rfl rfl rfl rfl rfl
  by_cases hyx : y = x
  · simp [hyx, conUser, cambia, numericsAlDia, hyxx]
  · by_cases hyme : y = r.me <;> simp [hyx, hyme, hmex, conUser, cambia, numericsAlDia]

/-- NICK with the numeric that was found. -/
theorem Red.nick_eq_true {nn : ℕ} (hme : x ≠ r.me) (hnn : nn < r.maxClient)
    (hbusca : r.busca = (true, nn)) :
    r.nick x = ({ r.numericsAlDia with
      lastNn := if nn + 1 = r.maxClient then 0 else nn + 1 } : Red ι).conUser x r.me
        (r.textoLocal nn) := by
  have hmex : r.me ≠ x := hme.symm
  have hindice (mask : ℕ) : indice mask (r.textoLocal nn) = nn &&& mask := by
    rw [indice, base64toint_textoLocal hnn]
  have htexto := r.textoLocal_ne_nil nn
  rw [nick, setLocalNumNick_eq_true ((busca_cambia hmex _).trans hbusca)]
  refine Red.ext rfl rfl (funext fun y ↦ ?_) rfl rfl rfl rfl rfl
  by_cases hyx : y = x
  · simp only [hyx, conUser, cambia, numericsAlDia, hme, Function.update_self, ne_eq,
      not_false_eq_true, Function.update_of_ne]
    rfl
  · by_cases hyme : y = r.me <;>
      simp [hyx, hyme, conUser, cambia, numericsAlDia, hindice, htexto, hmex]

/-- A local connection that sends its first nick. -/
theorem Red.Bien.nick (h : r.Bien) (hx : x ∈ r.client) (hunknown : (r.ficha x).status = .unknown)
    (huser : (r.ficha x).user = none) : (r.nick x).Bien := by
  have hnot := h.not_esServer hunknown
  have hme : x ≠ r.me := fun hme ↦ hnot (.inr hme)
  obtain ⟨a, l, hlist, hmem⟩ := h.exists_append hx hme
  have hlast := h.lastNn
  cases hbusca : r.busca with
  | mk hay nn =>
      cases hay with
      | false =>
          rw [Red.nick_eq_false hme (h.sinYxx x huser hnot) hbusca]
          refine (h.conLastNn (buscaLibre_false hbusca hlast)).conUser hlist hmem hunknown huser
            (.inr rfl) (fun hno ↦ absurd rfl hno) (fun hno ↦ absurd rfl hno) fun _ ↦ rfl
      | true =>
          obtain ⟨hlibre, hnn⟩ := buscaLibre_true hbusca hlast
          rw [Red.nick_eq_true hme hnn hbusca]
          refine (h.conLastNn ?_).conUser hlist hmem hunknown huser
            (.inr rfl) (fun _ ↦ r.textoLocal_ne_nil nn) (fun _ ↦ ?_) fun _ ↦ rfl
          · split <;> omega
          · show (r.ficha r.me).serv.hueco (indice _ (r.textoLocal nn)) = none
            rw [indice, Red.base64toint_textoLocal hnn]
            exact Option.not_isSome_iff_eq_none.mp (Bool.eq_false_iff.mp hlibre)

/-! ## Users of other servers -/

/-- What `SetRemoteNumNick` leaves of the network: the client with the same index is gone. -/
noncomputable def Red.despejada (r : Red ι) (server : ι) (yxx : CStr) : Red ι :=
  r.podada {u | r.enServer server yxx = some u}

omit [DecidableEq ι] in
/-- A user has nobody below it. -/
theorem Red.Bien.closed_enServer (h : r.Bien) (s : ι) (yxx : CStr) :
    Forest.Closed r.padre {u | r.enServer s yxx = some u} := fun u p hu hp ↦
  absurd hu (h.padre_ne_user ((h.hueco s _ p).mp hp).1 u)

omit [DecidableEq ι] in
/-- A server is not in its own `client_list`. -/
theorem Red.Bien.not_enServer (h : r.Bien) (hs : r.EsServer s) (yxx : CStr) :
    s ∉ {u | r.enServer s yxx = some u} := fun hs' ↦ by
  obtain ⟨hserver, hme⟩ := h.user s s ((h.hueco s _ s).mp hs').1
  exact hs.elim hserver hme

omit [DecidableEq ι] in
/-- The ghost leaves, and the network stays in order. -/
theorem Red.Bien.despejada (h : r.Bien) (s : ι) (yxx : CStr) : (r.despejada s yxx).Bien :=
  h.podada (h.closed_enServer s yxx) fun hme ↦ (h.user _ _ ((h.hueco s _ r.me).mp hme).1).2 rfl

/-- The client with the same index is a user of the server, and it alone leaves. -/
theorem Red.Bien.exitGhost (h : r.Bien) (desde s : ι) (yxx : CStr) :
    r.exitGhost desde s yxx = some (r.despejada s yxx) := by
  unfold Red.exitGhost Red.despejada
  cases hviejo : r.enServer s yxx with
  | none => simp [podada_empty]
  | some viejo =>
      have huser := ((h.hueco s _ viejo).mp hviejo).1
      have hmem : viejo ∈ r.client := by
        by_contra hno
        rw [h.libre viejo hno] at huser
        cases huser
      have hset : {u | some viejo = some u} = ({viejo} : Set ι) := by
        ext u
        simp [eq_comm]
      dsimp only
      rw [h.exitClient desde hmem (h.user viejo s huser).2, Option.map_some,
        Forest.below_of_no_child (h.padre_ne_user huser), hset]

/-- `SetRemoteNumNick` takes the ghost out and makes the client a user of its server. -/
theorem Red.Bien.setRemoteNumNick (h : r.Bien) {cptr : ι} {texto : CStr} (hxs : x ≠ s)
    (hyxx : yxxRemoto texto ≠ []) :
    (r.setRemoteNumNick x cptr s texto).map (·.addClientToList x) =
      some (((r.despejada s (yxxRemoto texto)).nuevo x cptr).conUser x s (yxxRemoto texto)) := by
  unfold Red.setRemoteNumNick
  dsimp only
  rw [h.exitGhost, Option.map_some, Option.map_some]
  refine congrArg some (Red.ext rfl rfl (funext fun y ↦ ?_) rfl rfl rfl rfl rfl)
  by_cases hyx : y = x
  · simp [hyx, addClientToList, Red.nuevo, Red.conUser, Red.cambia, hxs]
  · by_cases hys : y = s <;>
      simp [hyx, hys, hxs.symm, addClientToList, Red.nuevo, Red.conUser, Red.cambia, hyxx]

omit [DecidableEq ι] in
/-- A numeric of the length of the protocol has a part for the user. -/
theorem Red.yxxRemoto_ne_nil {texto : CStr} (h : texto.length = 3 ∨ texto.length = 5) :
    yxxRemoto texto ≠ [] := by
  unfold yxxRemoto
  intro hnil
  have hlen := congrArg List.length hnil
  split at hlen <;> simp at hlen <;> omega

omit [DecidableEq ι] in
/-- Behind the ghost the entry is free. -/
theorem Red.Bien.enServer_despejada (h : r.Bien) (hs : r.EsServer s) (yxx : CStr) :
    (r.despejada s yxx).enServer s yxx = none := by
  rw [Option.eq_none_iff_forall_ne_some]
  intro u hu
  rw [enServer, Red.despejada, ficha_podada (h.not_enServer hs yxx), Servidor.hueco_podado] at hu
  exact hu.2 hu.1

/-- The network behind a user that a link introduces. -/
noncomputable def Red.conRemoto (r : Red ι) (cptr s x : ι) (yxx : CStr) : Red ι :=
  (((r.despejada s yxx).nuevo x cptr).conUser x s yxx).setUser x

/-- A user that a link introduces. -/
theorem Red.Bien.conRemoto (h : r.Bien) {cptr : ι} (hx : x ∉ r.client) (hc : cptr ∈ r.client)
    (hs : r.EsServer s) (hyxx : yxx ≠ []) : (r.conRemoto cptr s x yxx).Bien := by
  have hd := h.despejada s yxx
  have hsd : (r.despejada s yxx).EsServer s :=
    (esServer_podada (h.not_enServer hs yxx)).mpr hs
  have hxd : x ∉ (r.despejada s yxx).client := fun hmem ↦ hx (mem_client_podada.mp hmem).1
  have hxs : s ≠ x := by
    rintro rfl
    exact hx (h.mem_of_esServer hs)
  have hcx : cptr ≠ x := by
    rintro rfl
    exact hx hc
  have hself : ((r.despejada s yxx).nuevo x cptr).ficha x = makeClient cptr .unknown :=
    Function.update_self ..
  have hsn : ((r.despejada s yxx).nuevo x cptr).EsServer s := by
    rw [Red.EsServer, hd.ficha_nuevo hxd]
    exact hsd
  have hlibre : ((r.despejada s yxx).nuevo x cptr).enServer s yxx = none := by
    rw [Red.enServer, hd.ficha_nuevo hxd]
    exact h.enServer_despejada hs yxx
  have hlist : ((r.despejada s yxx).nuevo x cptr).client =
      [] ++ x :: (r.despejada s yxx).client := rfl
  have hcon := (hd.nuevo hxd cptr).conUser hlist (hd.mem_of_esServer hsd)
    (by rw [hself]; rfl) (by rw [hself]; rfl) hsn (fun _ ↦ hyxx) (fun _ ↦ hlibre) fun hdesde ↦ by
      rw [hself] at hdesde
      exact absurd hdesde hcx
  refine hcon.setUser ?_ List.mem_cons_self
  rw [Red.ficha_conUser hxs, hself]
  rfl

/-- A remote user comes, and the handler ends. -/
theorem Red.Bien.nickRemoto (h : r.Bien) {cptr : ι} {texto : CStr} (hx : x ∉ r.client)
    (hs : r.EsServer s) (htexto : texto.length = 3 ∨ texto.length = 5) :
    r.nickRemoto cptr s x texto = some (r.conRemoto cptr s x (yxxRemoto texto)) := by
  have hxs : x ≠ s := by
    rintro rfl
    exact hx (h.mem_of_esServer hs)
  rw [Red.nickRemoto, h.setRemoteNumNick hxs (yxxRemoto_ne_nil htexto)]
  rfl

/-- The numeric that is made for a user behind a link with protocol 9. -/
theorem Red.createNN_eq (r : Red ι) (s : ι) : ∃ n : ℕ,
    (r.createNN s).2 = r.cambia s (fun c ↦ { c with serv := { c.serv with nnLast := n } }) ∧
      ∀ nnp9, (r.createNN s).1 = some nnp9 →
        ∃ nn, nnp9 = (r.ficha s).yxx.take 1 ++ inttobase64 nn 2 := by
  unfold createNN
  dsimp only
  split
  · exact ⟨_, rfl, fun _ hno ↦ by cases hno⟩
  · exact ⟨_, rfl, fun _ hnn ↦ ⟨_, (Option.some.inj hnn).symm⟩⟩

/-- The last numeric that was given to a user of protocol 9 is nothing to the order. -/
theorem Red.Bien.conNnLast (h : r.Bien) (hs : r.EsServer s) (n : ℕ) :
    (r.cambia s fun c ↦ { c with serv := { c.serv with nnLast := n } }).Bien :=
  h.cambia (h.mem_of_esServer hs) ⟨.rfl, .rfl, rfl, rfl, rfl, rfl, rfl, rfl, rfl⟩

end

end Ircd.Net
