import Ircd.Lib.Forest
import Ircd.Net.Clientes

/-!
# Pruned networks

The servers and the users of a server hang from it. In a network in order (`Red.Bien`) the list of
clients runs from the leaves to the root, the `down` list of a server is the list of the servers
behind it, and `client_list` holds a user at the index of its numeric. `Red.podada` takes a set of
clients out of the network everywhere: out of the list of clients, the lists of downlinks, the
numerics of users and those of servers. When the set contains what hangs from its clients, the
pruned network is in order again.
-/

namespace Ircd.Net

open CString

variable {ι : Type}

/-- The server of a user, and the server in front of a server. -/
def Red.padre (r : Red ι) (x : ι) : Option ι :=
  match (r.ficha x).user with
  | some s => some s
  | none => if (r.ficha x).status = .server then (r.ficha x).serv.up else none

/-- A server of the network, which may be the server itself. -/
def Red.EsServer (r : Red ι) (s : ι) : Prop :=
  (r.ficha s).status = .server ∨ s = r.me

/-- The network is in order. -/
structure Red.Bien (r : Red ι) : Prop where
  nodup : r.client.Nodup
  /-- The server itself is the bottom most item of the list. -/
  bottom : ∃ l, r.client = l ++ [r.me]
  status_me : ∀ x, (r.ficha x).status = .me ↔ x = r.me
  /-- The memory of the clients that are not in the list is free. -/
  libre : ∀ x, x ∉ r.client → r.ficha x = makeClient x .unknown
  listed : Forest.Listed r.padre r.client
  down_nodup : ∀ p, (r.ficha p).serv.down.Nodup
  mem_down : ∀ p x, x ∈ (r.ficha p).serv.down ↔
    (r.ficha x).status = .server ∧ (r.ficha x).serv.up = some p
  /-- Servers and users hang from servers. -/
  padre_server : ∀ x p, r.padre x = some p → r.EsServer p
  user : ∀ x s, (r.ficha x).user = some s → (r.ficha x).status ≠ .server ∧ x ≠ r.me
  hueco : ∀ s i u, (r.ficha s).serv.hueco i = some u ↔ (r.ficha u).user = some s ∧
    (r.ficha u).yxx ≠ [] ∧ i = indice (r.ficha s).serv.nnMask (r.ficha u).yxx
  /-- A user behind another server has a numeric. -/
  yxx : ∀ u s, (r.ficha u).user = some s → s ≠ r.me → (r.ficha u).yxx ≠ []
  /-- Who is neither a user nor a server has none. -/
  sinYxx : ∀ x, (r.ficha x).user = none → ¬ r.EsServer x → (r.ficha x).yxx = []
  /-- A local client hangs from the server itself. -/
  desde : ∀ x p, (r.ficha x).desde = x → r.padre x = some p → p = r.me
  lastNn : r.numericsAlDia.lastNn < r.maxClient
  /-- The local users fill a power of two, which divides the number of local numerics. -/
  mascara : ∃ k, (r.ficha r.me).serv.nnMask + 1 = 2 ^ k ∧ 2 ^ k ≤ r.maxClient
  clientList : ∀ s, r.EsServer s → (r.ficha s).serv.clientList.isSome
  serverList : ∀ i s, r.serverList i = some s →
    i = base64toint (r.ficha s).yxx ∧ r.EsServer s ∧ i < r.lastNNServer

section

variable {r : Red ι} {p s u x : ι}

/-- A user hangs from its server. -/
theorem Red.padre_of_user (h : (r.ficha u).user = some s) : r.padre u = some s := by
  rw [padre, h]

/-- The server itself is in the list. -/
theorem Red.Bien.me_mem (h : r.Bien) : r.me ∈ r.client := by
  obtain ⟨l, hl⟩ := h.bottom
  rw [hl]
  exact List.mem_append_right _ (List.mem_singleton_self _)

/-- A server is no user. -/
theorem Red.Bien.user_eq_none (h : r.Bien) (hx : (r.ficha x).status = .server) :
    (r.ficha x).user = none := by
  cases hu : (r.ficha x).user with
  | none => rfl
  | some s => exact absurd hx (h.user x s hu).1

/-- A server hangs from its uplink. -/
theorem Red.Bien.padre_of_up (h : r.Bien) (hx : (r.ficha x).status = .server) :
    r.padre x = (r.ficha x).serv.up := by
  rw [padre, h.user_eq_none hx]
  exact if_pos hx

/-- The servers are in the list. -/
theorem Red.Bien.mem_of_esServer (h : r.Bien) (hs : r.EsServer s) : s ∈ r.client := by
  rcases hs with hs | rfl
  · by_contra hmem
    rw [h.libre s hmem] at hs
    cases hs
  · exact h.me_mem

/-- A client that is not in the list hangs from nobody. -/
theorem Red.Bien.padre_eq_none (h : r.Bien) (hx : x ∉ r.client) : r.padre x = none := by
  rw [padre, h.libre x hx]
  rfl

end

/-! ## Pruning -/

open Classical in
/-- A client is not in the set. -/
noncomputable def fuera (S : Set ι) (x : ι) : Bool :=
  decide (x ∉ S)

/-- The block of a server without the clients of a set. -/
noncomputable def Servidor.podado (s : Servidor ι) (S : Set ι) : Servidor ι :=
  { s with
    down := s.down.filter (fuera S)
    clientList := s.clientList.map fun l i ↦ (l i).filter (fuera S) }

/-- The network without the clients of a set. -/
noncomputable def Red.podada (r : Red ι) (S : Set ι) : Red ι :=
  { r with
    client := r.client.filter (fuera S)
    ficha := fun x ↦ if fuera S x then { r.ficha x with serv := (r.ficha x).serv.podado S }
      else makeClient x .unknown
    serverList := fun i ↦ (r.serverList i).filter (fuera S) }

section

variable {r : Red ι} {s : Servidor ι} {S T : Set ι} {b p x u : ι} {i : ℕ}

/-- A client that is not taken out. -/
@[simp] theorem fuera_iff : fuera S x = true ↔ x ∉ S := by
  simp [fuera]

theorem fuera_eq_false : fuera S x = false ↔ x ∈ S := by
  simp [fuera]

/-- Two sets of clients are taken out one after the other. -/
theorem fuera_union : fuera (S ∪ T) = fun x ↦ fuera T x && fuera S x := by
  funext x
  by_cases hS : x ∈ S <;> by_cases hT : x ∈ T <;> simp [fuera, hS, hT]

/-- Nobody is taken out. -/
theorem fuera_empty : fuera (∅ : Set ι) = fun _ ↦ true := by
  funext x
  simp [fuera]

/-- Two filters of an entry are one. -/
theorem filter_fuera_union (o : Option ι) :
    (o.filter (fuera S)).filter (fuera T) = o.filter (fuera (S ∪ T)) := by
  rw [Option.filter_filter, fuera_union]
  simp only [Bool.and_comm]

/-- An entry of `client_list` stays if its client does. -/
theorem Servidor.hueco_podado : (s.podado S).hueco i = some u ↔ s.hueco i = some u ∧ u ∉ S := by
  unfold podado hueco
  cases s.clientList with
  | none => simp
  | some l => simp [Option.filter_eq_some_iff]

theorem Servidor.mem_down_podado : x ∈ (s.podado S).down ↔ x ∈ s.down ∧ x ∉ S := by
  simp [podado]

/-- Two cuts of the tables of a server are one. -/
theorem Servidor.podado_podado : (s.podado S).podado T = s.podado (S ∪ T) := by
  unfold podado
  rw [List.filter_filter, Option.map_map, fuera_union]
  congr
  funext l i
  exact (filter_fuera_union (l i)).trans (congrArg (l i).filter fuera_union)

/-- A filter by nothing keeps an entry. -/
theorem filter_fuera_empty (o : Option ι) : o.filter (fuera ∅) = o := by
  rw [fuera_empty]
  cases o <;> rfl

/-- A cut of nothing keeps the tables of a server. -/
theorem Servidor.podado_empty : s.podado ∅ = s := by
  have hlist : (fun (l : ℕ → Option ι) i ↦ (l i).filter (fuera ∅)) = id :=
    funext fun l ↦ funext fun i ↦ filter_fuera_empty (l i)
  unfold podado
  rw [hlist, Option.map_id, fuera_empty, List.filter_true]
  rfl

/-- Who is taken out is a client that has just been made. -/
theorem Red.ficha_podada_of_mem (h : x ∈ S) : (r.podada S).ficha x = makeClient x .unknown :=
  if_neg (fuera_iff.not_left.mpr h)

/-- Who stays keeps everything but what its tables lose. -/
theorem Red.ficha_podada (h : x ∉ S) :
    (r.podada S).ficha x = { r.ficha x with serv := (r.ficha x).serv.podado S } :=
  if_pos (fuera_iff.mpr h)

/-- The list loses those that are taken out. -/
theorem Red.mem_client_podada : x ∈ (r.podada S).client ↔ x ∈ r.client ∧ x ∉ S := by
  simp [podada]

/-- `server_list` loses those that are taken out. -/
theorem Red.serverList_podada :
    (r.podada S).serverList i = some x ↔ r.serverList i = some x ∧ x ∉ S := by
  simp [podada, Option.filter_eq_some_iff]

/-- Two cuts of the network are one. -/
theorem Red.podada_podada : (r.podada S).podada T = r.podada (S ∪ T) := by
  have hficha : ((r.podada S).podada T).ficha = (r.podada (S ∪ T)).ficha := by
    funext x
    by_cases hT : x ∈ T
    · rw [ficha_podada_of_mem hT, ficha_podada_of_mem (Set.mem_union_right S hT)]
    · rw [ficha_podada hT]
      by_cases hS : x ∈ S
      · rw [ficha_podada_of_mem hS, ficha_podada_of_mem (Set.mem_union_left T hS)]
        rfl
      · have hnot : x ∉ S ∪ T := fun h ↦ h.elim hS hT
        rw [ficha_podada hS, ficha_podada hnot, Servidor.podado_podado]
  have hclient : ((r.podada S).podada T).client = (r.podada (S ∪ T)).client := by
    show (r.client.filter _).filter _ = _
    rw [List.filter_filter, ← fuera_union]
    rfl
  have hlist : ((r.podada S).podada T).serverList = (r.podada (S ∪ T)).serverList :=
    funext fun i ↦ filter_fuera_union _
  exact Red.ext rfl hclient hficha hlist rfl rfl rfl rfl

/-- A cut of nothing keeps the network. -/
theorem Red.podada_empty : r.podada ∅ = r := by
  have hficha : (r.podada ∅).ficha = r.ficha := by
    funext x
    rw [ficha_podada (Set.notMem_empty x), Servidor.podado_empty]
  refine Red.ext rfl ?_ hficha ?_ rfl rfl rfl rfl
  · show r.client.filter _ = _
    rw [fuera_empty, List.filter_true]
  · exact funext fun i ↦ filter_fuera_empty _

/-- The tree of the network is cut where the clients are taken out. -/
theorem Red.padre_podada : (r.podada S).padre = Forest.cut S r.padre := by
  funext x
  by_cases h : x ∈ S
  · rw [Forest.cut_of_mem h, padre, ficha_podada_of_mem h]
    rfl
  · rw [Forest.cut_of_not_mem h, padre, ficha_podada h]
    rfl

/-- Who stays is a server as before. -/
theorem Red.esServer_podada (h : x ∉ S) : (r.podada S).EsServer x ↔ r.EsServer x := by
  rw [EsServer, ficha_podada h]
  rfl

/-- What hangs from a client that leaves leaves with it. -/
theorem Red.Bien.podada (h : r.Bien) (hS : Forest.Closed r.padre S) (hme : r.me ∉ S) :
    (r.podada S).Bien where
  nodup := h.nodup.filter _
  bottom := by
    obtain ⟨l, hl⟩ := h.bottom
    refine ⟨l.filter (fuera S), ?_⟩
    show r.client.filter _ = _
    rw [hl, List.filter_append, List.filter_cons_of_pos (fuera_iff.mpr hme), List.filter_nil]
    rfl
  status_me x := by
    by_cases hx : x ∈ S
    · rw [ficha_podada_of_mem hx]
      refine iff_of_false Status.noConfusion ?_
      rintro rfl
      exact hme hx
    · rw [ficha_podada hx]
      exact h.status_me x
  libre x hx := by
    by_cases hxS : x ∈ S
    · exact ficha_podada_of_mem hxS
    · rw [ficha_podada hxS, h.libre x fun hmem ↦ hx (mem_client_podada.mpr ⟨hmem, hxS⟩)]
      rfl
  listed := by
    rw [padre_podada]
    exact h.listed.filter_cut hS fun x ↦ fuera_iff
  down_nodup p := by
    by_cases hp : p ∈ S
    · rw [ficha_podada_of_mem hp]
      exact List.nodup_nil
    · rw [ficha_podada hp]
      exact (h.down_nodup p).filter _
  mem_down p x := by
    by_cases hx : x ∈ S
    · rw [ficha_podada_of_mem hx]
      refine iff_of_false (fun hmem ↦ ?_) fun hserver ↦ Status.noConfusion hserver.1
      by_cases hp : p ∈ S
      · rw [ficha_podada_of_mem hp] at hmem
        exact List.not_mem_nil hmem
      · rw [ficha_podada hp] at hmem
        exact (Servidor.mem_down_podado.mp hmem).2 hx
    · rw [ficha_podada hx]
      by_cases hp : p ∈ S
      · rw [ficha_podada_of_mem hp]
        refine iff_of_false List.not_mem_nil fun ⟨hserver, hup⟩ ↦ hx ?_
        exact hS x p ((h.padre_of_up hserver).trans hup) hp
      · rw [ficha_podada hp]
        exact Servidor.mem_down_podado.trans ((and_iff_left hx).trans (h.mem_down p x))
  padre_server x p hx := by
    rw [padre_podada, Forest.cut_eq_some] at hx
    obtain ⟨hxS, hx⟩ := hx
    have hp : p ∉ S := fun hp ↦ hxS (hS x p hx hp)
    exact (esServer_podada hp).mpr (h.padre_server x p hx)
  user x s hx := by
    by_cases hxS : x ∈ S
    · rw [ficha_podada_of_mem hxS] at hx
      cases hx
    · rw [ficha_podada hxS] at hx ⊢
      exact h.user x s hx
  hueco s i u := by
    by_cases hu : u ∈ S
    · rw [ficha_podada_of_mem hu]
      refine iff_of_false (fun hueco ↦ ?_) fun huser ↦ by cases huser.1
      by_cases hs : s ∈ S
      · rw [ficha_podada_of_mem hs] at hueco
        cases hueco
      · rw [ficha_podada hs] at hueco
        exact (Servidor.hueco_podado.mp hueco).2 hu
    · rw [ficha_podada hu]
      by_cases hs : s ∈ S
      · rw [ficha_podada_of_mem hs]
        refine iff_of_false (fun hueco ↦ ?_) fun huser ↦ hu (hS u s (padre_of_user huser.1) hs)
        cases hueco
      · rw [ficha_podada hs]
        exact Servidor.hueco_podado.trans ((and_iff_left hu).trans (h.hueco s i u))
  yxx u s hu hs := by
    by_cases huS : u ∈ S
    · rw [ficha_podada_of_mem huS] at hu
      cases hu
    · rw [ficha_podada huS] at hu ⊢
      exact h.yxx u s hu hs
  sinYxx x hx hs := by
    by_cases hxS : x ∈ S
    · rw [ficha_podada_of_mem hxS]
      rfl
    · rw [esServer_podada hxS] at hs
      rw [ficha_podada hxS] at hx ⊢
      exact h.sinYxx x hx hs
  desde x p hx hp := by
    rw [padre_podada, Forest.cut_eq_some] at hp
    rw [ficha_podada hp.1] at hx
    exact h.desde x p hx hp.2
  lastNn := h.lastNn
  mascara := by
    show ∃ k, ((r.podada S).ficha r.me).serv.nnMask + 1 = 2 ^ k ∧ 2 ^ k ≤ r.maxClient
    rw [ficha_podada hme]
    exact h.mascara
  clientList s hs := by
    by_cases hsS : s ∈ S
    · rw [EsServer, ficha_podada_of_mem hsS] at hs
      rcases hs with hs | rfl
      · cases hs
      · exact absurd hsS hme
    · have hlist := h.clientList s ((esServer_podada hsS).mp hs)
      rw [ficha_podada hsS]
      exact (Option.isSome_map ..).trans hlist
  serverList i s hs := by
    obtain ⟨hs, hsS⟩ := serverList_podada.mp hs
    obtain ⟨hi, hserver, hlast⟩ := h.serverList i s hs
    refine ⟨?_, (esServer_podada hsS).mpr hserver, hlast⟩
    rw [ficha_podada hsS]
    exact hi

end

end Ircd.Net
