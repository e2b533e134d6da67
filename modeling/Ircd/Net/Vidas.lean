import Ircd.Lib.Run
import Ircd.Net.Altas

/-!
# Runs of the network

What comes in over the links and the connections of a server, in any order, keeps its network in
order (`bien_corre`). So `exit_client` always takes out the client and what hangs from it
(`exitClient_corre`), and its result says whether the connection that is being handled is gone
(`cptrKilled_corre`).
-/

namespace Ircd.Net

open CString

variable {ι : Type} [DecidableEq ι]

/-- What changes the network. -/
inductive Suceso (ι : Type) where
  | conecta (x : ι)
  | nick (x : ι)
  | setUser (x : ι)
  | servidor (x : ι) (prot : ℕ) (valor : Option ℕ) (texto : CStr)
  | presenta (cptr sptr x : ι) (prot : ℕ) (valor : Option ℕ) (texto : CStr)
  | nickRemoto (cptr server x : ι) (texto : CStr)
  | nickRemoto9 (cptr server x : ι)
  | exitClient (cptr b : ι)

/-- The network behind it. -/
def paso : Suceso ι → Red ι → Red ι
  | .conecta x, r => r.conecta x
  | .nick x, r => r.nick x
  | .setUser x, r => r.setUser x
  | .servidor x prot valor texto, r => r.servidor x prot valor texto
  | .presenta cptr sptr x prot valor texto, r => r.presenta cptr sptr x prot valor texto
  | .nickRemoto cptr server x texto, r => (r.nickRemoto cptr server x texto).getD r
  | .nickRemoto9 cptr server x, r => (r.nickRemoto9 cptr server x).getD r
  | .exitClient cptr b, r => ((r.exitClient cptr b).map (·.1)).getD r

/-- When it happens. New clients are in new memory, a connection that becomes a server has not sent
NICK (`exit_one_client` asserts that a server has no `user`), what a server introduces hangs from a
server, numerics of users have the length of the protocol, and the server itself never leaves. -/
def Puede : Suceso ι → Red ι → Prop
  | .conecta x, r => x ∉ r.client
  | .nick x, r => x ∈ r.client ∧ (r.ficha x).status = .unknown ∧ (r.ficha x).user = none
  | .setUser x, r => x ∈ r.client ∧ (r.ficha x).status = .unknown ∧ (r.ficha x).user.isSome
  | .servidor x _ _ _, r => x ∈ r.client ∧ (r.ficha x).status = .unknown ∧ (r.ficha x).user = none
  | .presenta cptr sptr x _ _ _, r =>
      x ∉ r.client ∧ cptr ∈ r.client ∧ (r.ficha sptr).status = .server
  | .nickRemoto cptr server x texto, r =>
      x ∉ r.client ∧ cptr ∈ r.client ∧ (r.ficha server).status = .server ∧
        (texto.length = 3 ∨ texto.length = 5)
  | .nickRemoto9 cptr server x, r =>
      x ∉ r.client ∧ cptr ∈ r.client ∧ (r.ficha server).status = .server ∧
        (r.ficha server).yxx ≠ []
  | .exitClient _ b, r => b ∈ r.client ∧ b ≠ r.me

instance (a : Suceso ι) (r : Red ι) : Decidable (Puede a r) :=
  match a with
  | .conecta _ => inferInstanceAs (Decidable (¬_))
  | .nick _ | .setUser _ | .servidor .. | .presenta .. | .nickRemoto .. | .nickRemoto9 ..
  | .exitClient .. => inferInstanceAs (Decidable (_ ∧ _))

/-- The server before it knows its numeric. -/
def Red.sola (me : ι) : Red ι :=
  { me := me
    client := [me]
    ficha := Function.update (fun x ↦ makeClient x .unknown) me
      { makeClient me .me with serv := { makeServer with prot := 10, up := some me } }
    serverList := fun _ ↦ none
    lastNNServer := 0
    numericsExtendidos := false
    lastNumericsExtendidos := false
    lastNn := 0 }

/-- The server starts: `SetYXXServerName` of the numeric in its configuration, and
`SetYXXCapacity`. -/
def Red.arranca (me : ι) (numeric capacity : ℕ) : Option (Red ι) :=
  ((Red.sola me).setYXXServerName me numeric).setYXXCapacity me capacity

section

variable {r : Red ι} {me b x : ι}

/-- A network of one server. -/
theorem Red.Bien.uno {c : Cliente ι} (hme : r.me = me) (hclient : r.client = [me])
    (hficha : r.ficha = Function.update (fun x ↦ makeClient x .unknown) me c)
    (hstatus : c.status = .me) (huser : c.user = none) (hdown : c.serv.down = [])
    (hlist : c.serv.clientList = some fun _ ↦ none)
    (hserver : ∀ i s, r.serverList i = some s → s = me ∧ i = base64toint c.yxx)
    (hlast : base64toint c.yxx < r.lastNNServer) (hcero : r.lastNn = 0)
    (hmask : ∃ k, c.serv.nnMask + 1 = 2 ^ k ∧ 2 ^ k ≤ r.maxClient) : r.Bien := by
  have hself : r.ficha me = c := by
    rw [hficha]
    exact Function.update_self ..
  have hotro (y : ι) (hy : y ≠ me) : r.ficha y = makeClient y .unknown := by
    rw [hficha]
    exact Function.update_of_ne hy ..
  have huserno (y : ι) : (r.ficha y).user = none := by
    by_cases hy : y = me
    · rw [hy, hself, huser]
    · rw [hotro y hy]
      rfl
  have hnoserver (y : ι) : (r.ficha y).status ≠ .server := by
    by_cases hy : y = me
    · rw [hy, hself, hstatus]
      exact Status.noConfusion
    · rw [hotro y hy]
      exact Status.noConfusion
  have hpadre (y : ι) : r.padre y = none := by
    rw [Red.padre, huserno]
    exact if_neg (hnoserver y)
  have hdownno (y : ι) : (r.ficha y).serv.down = [] := by
    by_cases hy : y = me
    · rw [hy, hself, hdown]
    · rw [hotro y hy]
      rfl
  exact {
    nodup := by
      rw [hclient]
      exact List.nodup_cons.mpr ⟨List.not_mem_nil, List.nodup_nil⟩
    bottom := ⟨[], by rw [hclient, hme]; rfl⟩
    status_me := by
      intro y
      by_cases hy : y = me
      · rw [hy, hself, hstatus, hme]
        exact iff_of_true rfl rfl
      · rw [hotro y hy, hme]
        exact iff_of_false Status.noConfusion hy
    libre := by
      intro y hy
      rw [hclient, List.mem_singleton] at hy
      exact hotro y hy
    listed := by
      rw [hclient]
      refine ⟨fun p hp ↦ ?_, trivial⟩
      rw [hpadre] at hp
      cases hp
    down_nodup := fun y ↦ by
      rw [hdownno]
      exact List.nodup_nil
    mem_down := fun p y ↦ by
      rw [hdownno]
      exact iff_of_false List.not_mem_nil fun hno ↦ hnoserver y hno.1
    padre_server := fun y p hp ↦ by
      rw [hpadre] at hp
      cases hp
    user := fun y s hs ↦ by
      rw [huserno] at hs
      cases hs
    hueco := by
      intro s i u
      rw [huserno]
      refine iff_of_false (fun hueco ↦ ?_) fun hno ↦ by cases hno.1
      by_cases hs : s = me
      · rw [hs, hself, Servidor.hueco, hlist] at hueco
        cases hueco
      · rw [hotro s hs] at hueco
        cases hueco
    yxx := fun u s hu ↦ by
      rw [huserno] at hu
      cases hu
    sinYxx := by
      intro y _ hy
      have hyme : y ≠ me := fun hyme ↦ hy (.inr (hyme.trans hme.symm))
      rw [hotro y hyme]
      rfl
    desde := fun y p _ hp ↦ by
      rw [hpadre] at hp
      cases hp
    lastNn := by
      show (if _ then 0 else r.lastNn) < r.maxClient
      rw [hcero, ite_self]
      unfold maxClient NN_MAX_CLIENT_EXT NN_MAX_CLIENT_SHORT
      split <;> omega
    mascara := by
      rw [hme, hself]
      exact hmask
    clientList := by
      intro s hs
      rcases hs with hs | rfl
      · exact absurd hs (hnoserver s)
      · rw [hme, hself, hlist]
        rfl
    serverList := by
      intro i s hs
      obtain ⟨rfl, hi⟩ := hserver i s hs
      rw [hself]
      exact ⟨hi, .inr hme.symm, hi ▸ hlast⟩ }

/-- Doubling keeps a power of 2. -/
theorem dobla_eq (capacity veces k : ℕ) : ∃ k', dobla capacity veces (2 ^ k) = 2 ^ k' := by
  induction veces generalizing k with
  | zero => exact ⟨k, rfl⟩
  | succ veces ih =>
      rw [dobla]
      split
      · exact ih (k + 1)
      · exact ⟨k, rfl⟩

/-- The tables of clients have a power of 2 as their size. -/
theorem maxClients_eq (capacity : ℕ) : ∃ k, maxClients capacity = 2 ^ k :=
  dobla_eq capacity capacity 4

/-- The numeric in the configuration is read back. -/
theorem base64toint_numeric {numeric : ℕ} (hn : numeric < 4096) :
    base64toint (if numeric ≥ 64 then inttobase64 numeric 2 else [convert2y numeric]) = numeric := by
  split
  · exact base64toint_inttobase64 hn (by omega)
  · next hlow =>
      have hdigit : inttobase64 numeric 1 = [convert2y numeric] := by
        rw [inttobase64, inttobase64, Nat.mod_eq_of_lt (by omega)]
        rfl
      rw [← hdigit]
      exact base64toint_inttobase64 (by omega) (by omega)

/-- The server itself when it has started. -/
theorem Red.arranca_eq {numeric capacity : ℕ} (hn : numeric < 4096)
    (h : Red.arranca me numeric capacity = some r) :
    ∃ c : Cliente ι, r = { Red.sola me with
        ficha := Function.update (fun x ↦ makeClient x .unknown) me c
        serverList := Function.update (fun _ ↦ none) numeric (some me)
        lastNNServer := numeric + 1
        numericsExtendidos := decide (numeric ≥ 64) } ∧
      c.status = .me ∧ c.user = none ∧ c.serv.down = [] ∧
      c.serv.clientList = (some fun _ ↦ none) ∧
      c.yxx = (if numeric ≥ 64 then inttobase64 numeric 2 else [convert2y numeric]) ∧
      c.serv.nnMask = maxClients capacity - 1 ∧ maxClients capacity ≤ r.maxClient := by
  have hyxx := base64toint_numeric hn
  unfold Red.arranca setYXXCapacity at h
  dsimp only at h
  have hficha : (((Red.sola me).setYXXServerName me numeric).ficha me).yxx =
      if numeric ≥ 64 then inttobase64 numeric 2 else [convert2y numeric] := by
    simp [setYXXServerName, Red.cambia, ponServer, sola, makeClient]
  rw [hficha, hyxx] at h
  by_cases hmax : maxClients capacity >
      if decide (numeric ≥ 64) then NN_MAX_CLIENT_EXT else NN_MAX_CLIENT_SHORT
  · rw [if_pos hmax] at h
    cases h
  · rw [if_neg hmax] at h
    obtain rfl := Option.some.inj h
    refine ⟨⟨me, .me, if numeric ≥ 64 then inttobase64 numeric 2 else [convert2y numeric], none,
      ⟨some me, [], 10,
      inttobase64 (maxClients capacity - 1) (if decide (numeric ≥ 64) then 3 else 2),
      maxClients capacity - 1, 0, some fun _ ↦ none⟩⟩, Red.ext rfl rfl ?_ ?_ rfl rfl rfl rfl,
      rfl, rfl, rfl, rfl, rfl, rfl, not_lt.mp hmax⟩
    · funext y
      by_cases hy : y = me
      · simp [hy, setYXXServerName, Red.cambia, ponServer, sola, makeClient, makeServer]
      · simp [hy, setYXXServerName, Red.cambia, ponServer, sola]
    · simp [setYXXServerName, Red.cambia, ponServer, sola]

/-- The order that a network keeps holds of the server that starts. -/
theorem Red.Bien.arranca {numeric capacity : ℕ} (hn : numeric < 4096)
    (h : Red.arranca me numeric capacity = some r) : r.Bien := by
  obtain ⟨c, rfl, hstatus, huser, hdown, hlist, hyxx, hmask, hmax⟩ := Red.arranca_eq hn h
  obtain ⟨k, hk⟩ := maxClients_eq capacity
  have hindex : base64toint c.yxx = numeric := by
    rw [hyxx]
    exact base64toint_numeric hn
  refine Red.Bien.uno rfl rfl rfl hstatus huser hdown hlist (fun i s hs ↦ ?_) ?_ rfl ?_
  · change Function.update (fun _ ↦ none) numeric (some me) i = some s at hs
    rw [Function.update_apply] at hs
    split at hs
    · next hi => exact ⟨(Option.some.inj hs).symm, hi.trans hindex.symm⟩
    · cases hs
  · rw [hindex]
    exact Nat.lt_succ_self numeric
  · rw [hk] at hmask hmax
    have hpos := Nat.two_pow_pos k
    exact ⟨k, by omega, hmax⟩

/-- `exit_client` keeps the network in order. -/
theorem Red.Bien.sale (h : r.Bien) (cptr : ι) (hb : b ∈ r.client) (hme : b ≠ r.me) :
    (((r.exitClient cptr b).map (·.1)).getD r).Bien := by
  rw [h.exitClient cptr hb hme]
  exact h.podada_below hme

/-- A user behind a link with protocol 9, or the end of its server. -/
theorem Red.Bien.nickRemoto9 (h : r.Bien) {cptr server : ι} (hx : x ∉ r.client)
    (hc : cptr ∈ r.client) (hs : (r.ficha server).status = .server)
    (hyxx : (r.ficha server).yxx ≠ []) :
    ((r.nickRemoto9 cptr server x).getD r).Bien := by
  obtain ⟨n, hnet, hnn⟩ := r.createNN_eq server
  have hbien := h.conNnLast (.inl hs) n
  have hes : (r.cambia server fun c ↦ { c with serv := { c.serv with nnLast := n } }).EsServer
      server := .inl (by simpa [Red.cambia] using hs)
  have hserver : server ≠ r.me := by
    rintro rfl
    rw [(h.status_me _).mpr rfl] at hs
    cases hs
  rw [← hnet] at hbien hes
  have hclient : (r.createNN server).2.client = r.client := by rw [hnet]; rfl
  have hme : (r.createNN server).2.me = r.me := by rw [hnet]; rfl
  unfold Red.nickRemoto9
  cases hcreate : r.createNN server with
  | mk o r' =>
      rw [hcreate] at hbien hes hclient hnn hme
      cases o with
      | none =>
          dsimp only
          rw [hbien.exitClient cptr (hbien.mem_of_esServer hes) (hme.symm ▸ hserver)]
          exact hbien.podada_below (hme.symm ▸ hserver)
      | some nnp9 =>
          obtain ⟨nn, hnn⟩ := hnn nnp9 rfl
          have hlen : nnp9.length = 3 := by
            rw [hnn, List.length_append, length_inttobase64, List.length_take]
            have := List.length_pos_iff.mpr hyxx
            omega
          dsimp only
          rw [hbien.nickRemoto (hclient.symm ▸ hx) hes (.inl hlen)]
          exact hbien.conRemoto (hclient.symm ▸ hx) (hclient.symm ▸ hc) hes
            (yxxRemoto_ne_nil (.inl hlen))

/-- The step. -/
theorem Red.Bien.paso (h : r.Bien) (a : Suceso ι) (ha : Puede a r) : (paso a r).Bien := by
  cases a with
  | conecta x => exact h.nuevo ha x
  | nick x => exact h.nick ha.1 ha.2.1 ha.2.2
  | setUser x => exact h.setUser ha.2.1 ha.1
  | servidor x prot valor texto => exact h.servidor ha.1 ha.2.1 ha.2.2 prot valor texto
  | presenta cptr sptr x prot valor texto =>
      exact h.presenta ha.1 ha.2.1 (.inl ha.2.2) prot valor texto
  | nickRemoto cptr server x texto =>
      obtain ⟨hx, hc, hs, htexto⟩ := ha
      show ((r.nickRemoto cptr server x texto).getD r).Bien
      rw [h.nickRemoto hx (.inl hs) htexto]
      exact h.conRemoto hx hc (.inl hs) (yxxRemoto_ne_nil htexto)
  | nickRemoto9 cptr server x =>
      obtain ⟨hx, hc, hs, hyxx⟩ := ha
      exact h.nickRemoto9 hx hc hs hyxx
  | exitClient cptr b => exact h.sale cptr ha.1 ha.2

/-- A network keeps its order in every run. -/
theorem bien_corre {numeric capacity : ℕ} (hn : numeric < 4096) {r₀ : Red ι}
    (h : Red.arranca me numeric capacity = some r₀) {l : List (Suceso ι)}
    (hl : Run.EveryStep paso Puede r₀ l) : Run.EveryStep paso (fun _ r ↦ r.Bien) r₀ l :=
  Run.everyStep_of_invariant (P := Red.Bien) (fun a _ hr ha ↦ hr.paso a ha) (fun _ _ hr _ ↦ hr)
    (Red.Bien.arranca hn h) hl

/-- **Who leaves.** In every run `exit_client` comes to its end, and what it leaves is the network
without the client and what hangs from it. -/
theorem exitClient_corre {numeric capacity : ℕ} (hn : numeric < 4096) {r₀ : Red ι}
    (h : Red.arranca me numeric capacity = some r₀) {l : List (Suceso ι)}
    (hl : Run.EveryStep paso Puede r₀ l) :
    Run.EveryStep paso (fun a r ↦ ∀ cptr b, a = .exitClient cptr b →
      r.exitClient cptr b =
        some (r.podada {x | Forest.Below r.padre b x}, decide (cptr = b))) r₀ l := by
  refine Run.everyStep_of_invariant (P := Red.Bien) (fun a _ hr ha ↦ hr.paso a ha) ?_
    (Red.Bien.arranca hn h) hl
  rintro a r hr ha cptr b rfl
  exact hr.exitClient cptr ha.1 ha.2

/-- **The connection that is being handled.** `exit_client` returns `CPTR_KILLED` if and only if the
connection is gone behind it. -/
theorem cptrKilled_corre {numeric capacity : ℕ} (hn : numeric < 4096) {r₀ : Red ι}
    (h : Red.arranca me numeric capacity = some r₀) {l : List (Suceso ι)}
    (hl : Run.EveryStep paso Puede r₀ l) :
    Run.EveryStep paso (fun a r ↦ ∀ cptr b, a = .exitClient cptr b →
      cptr ∈ r.client → (r.ficha cptr).desde = cptr →
        ∃ r' killed, r.exitClient cptr b = some (r', killed) ∧
          (killed = true ↔ cptr ∉ r'.client)) r₀ l := by
  refine Run.everyStep_of_invariant (P := Red.Bien) (fun a _ hr ha ↦ hr.paso a ha) ?_
    (Red.Bien.arranca hn h) hl
  rintro a r hr ha cptr b rfl hc hdesde
  refine ⟨_, _, hr.exitClient cptr ha.1 ha.2, ?_⟩
  rw [decide_eq_true_iff, Red.mem_client_podada, not_and, not_not]
  constructor
  · rintro rfl _
    exact Forest.Below.refl
  · intro hbelow
    cases hbelow hc with
    | refl => rfl
    | step hp hpb =>
        -- a connection hangs from the server itself, which hangs from nobody
        rw [hr.desde cptr _ hdesde hp] at hpb
        exact absurd hpb (hr.not_below_me ha.2)

end

/-- A connection becomes a server, introduces another one with a user, and is lost. -/
def redDePrueba : List (Suceso ℕ) :=
  [.conecta 1, .servidor 1 10 none "BAP".toList, .presenta 1 1 2 10 none "CAP".toList,
    .nickRemoto 1 2 3 "CAA".toList, .exitClient 1 1]

/-- The result for the network `redDePrueba`. -/
theorem exitClient_corre_dos : ∃ r₀, Red.arranca 0 0 16 = some r₀ ∧
    Run.EveryStep paso (fun a r ↦ ∀ cptr b, a = .exitClient cptr b →
      r.exitClient cptr b = some (r.podada {x | Forest.Below r.padre b x}, decide (cptr = b))) r₀
        redDePrueba := by
  refine ⟨_, rfl, exitClient_corre (by decide : 0 < 4096) (rfl : Red.arranca 0 0 16 = some _) ?_⟩
  exact ⟨by decide, by decide, by decide, by decide, by decide, trivial⟩

/-- The result for the network `redDePrueba`. -/
theorem cptrKilled_corre_dos : ∃ r₀, Red.arranca 0 0 16 = some r₀ ∧
    Run.EveryStep paso (fun a r ↦ ∀ cptr b, a = .exitClient cptr b →
      cptr ∈ r.client → (r.ficha cptr).desde = cptr →
        ∃ r' killed, r.exitClient cptr b = some (r', killed) ∧
          (killed = true ↔ cptr ∉ r'.client)) r₀ redDePrueba := by
  refine ⟨_, rfl, cptrKilled_corre (by decide : 0 < 4096) (rfl : Red.arranca 0 0 16 = some _) ?_⟩
  exact ⟨by decide, by decide, by decide, by decide, by decide, trivial⟩

end Ircd.Net
