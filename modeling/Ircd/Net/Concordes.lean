import Ircd.Lib.Rooted
import Ircd.Net.Vidas

/-!
# Servers that know one network

Each server sees the network from its own place: the servers behind a link hang from the server on
it. When all of them know the same clients and the same links (`Concordes`), what they know is one
tree with a root at each server (`Concordes.rooted`), the links of a server are its neighbours
(`Concordes.mem_down`), and what comes from behind a link has the link as its `desde`
(`Concordes.desde_of_below`). Connections that are not registered are known to one server only and
left out.
-/

namespace Ircd.Net

variable {ι : Type}

/-- The servers know the same registered clients and the same links, and every client is behind the
link that leads to it. -/
structure Concordes (servers : Set ι) (red : ι → Red ι) : Prop where
  me : ∀ v ∈ servers, (red v).me = v
  bien : ∀ v ∈ servers, (red v).Bien
  esServer : ∀ v ∈ servers, ∀ x, (red v).EsServer x ↔ x ∈ servers
  client : ∀ v ∈ servers, ∀ u ∈ servers, ∀ x ∈ (red v).client, x ∈ (red u).client
  user : ∀ v ∈ servers, ∀ x ∈ (red v).client, x ∉ servers → ((red v).ficha x).status = .user
  cuelga : ∀ v ∈ servers, ∀ x ∈ (red v).client, x ≠ v → ((red v).padre x).isSome
  enlace : ∀ v ∈ servers, ∀ u ∈ servers, ∀ x p, (red v).padre x = some p →
    (red u).padre x = some p ∨ (red u).padre p = some x
  desde_me : ∀ v ∈ servers, ((red v).ficha v).desde = v
  desde_local : ∀ v ∈ servers, ∀ x, (red v).padre x = some v → ((red v).ficha x).desde = x
  desde : ∀ v ∈ servers, ∀ x p, (red v).padre x = some p → p ≠ v →
    ((red v).ficha x).desde = ((red v).ficha p).desde

section

variable {servers : Set ι} {red : ι → Red ι} {d v x : ι}

/-- Everything hangs from the server itself. -/
theorem Red.Bien.below_me {r : Red ι} (h : r.Bien)
    (hcuelga : ∀ x ∈ r.client, x ≠ r.me → (r.padre x).isSome) (hx : x ∈ r.client) :
    Forest.Below r.padre r.me x := by
  classical
  have hrank := h.ranked
  have hall : ∀ n, ∀ x ∈ r.client, r.client.length - r.client.idxOf x ≤ n →
      Forest.Below r.padre r.me x := by
    intro n
    induction n with
    | zero =>
        intro x hx hn
        have := List.idxOf_lt_length_iff.mpr hx
        omega
    | succ n ih =>
        intro x hx hn
        by_cases hme : x = r.me
        · rw [hme]
          exact .refl
        · obtain ⟨p, hp⟩ := Option.isSome_iff_exists.mp (hcuelga x hx hme)
          have hlt : r.client.idxOf x < r.client.idxOf p := hrank x p hp
          exact .step hp (ih p (h.listed.parent_mem hx hp) (by omega))
  exact hall _ x hx le_rfl

/-- The clients that are known on the network. -/
def clientes (servers : Set ι) (red : ι → Red ι) : Set ι :=
  {x | ∃ v ∈ servers, x ∈ (red v).client}

namespace Concordes

variable (h : Concordes servers red)

include h

/-- All the servers know all the clients. -/
theorem mem_client (hv : v ∈ servers) (hx : x ∈ clientes servers red) : x ∈ (red v).client := by
  obtain ⟨u, hu, hx⟩ := hx
  exact h.client u hu v hv x hx

/-- What the servers know is one tree. -/
theorem rooted : Forest.Rooted servers (clientes servers red) fun v ↦ (red v).padre where
  root v hv := by
    have hroot := (h.bien v hv).padre_me
    rwa [h.me v hv] at hroot
  reach v hv x hx := by
    have hbelow := (h.bien v hv).below_me
      (fun y hy hme ↦ h.cuelga v hv y hy (h.me v hv ▸ hme)) (h.mem_client hv hx)
    rwa [h.me v hv] at hbelow
  child_mem v hv x p hx := by
    by_contra hno
    rw [(h.bien v hv).padre_eq_none fun hmem ↦ hno ⟨v, hv, hmem⟩] at hx
    cases hx
  parent_mem v hv x p hx := (h.esServer v hv p).mp ((h.bien v hv).padre_server x p hx)
  host_node v hv := ⟨v, hv, (h.bien v hv).mem_of_esServer ((h.esServer v hv v).mpr hv)⟩
  edge v hv u hu x p hx := h.enlace v hv u hu x p hx

/-- Other servers have the status of one. -/
theorem status_server (hv : v ∈ servers) (hx : x ∈ servers) (hne : x ≠ v) :
    ((red v).ficha x).status = .server := by
  rcases (h.esServer v hv x).mpr hx with hserver | hme
  · exact hserver
  · exact absurd (hme.trans (h.me v hv)) hne

/-- Who is not one of the servers is no server for any of them. -/
theorem status_ne (hv : v ∈ servers) (hx : x ∉ servers) : ((red v).ficha x).status ≠ .server :=
  fun hserver ↦ hx ((h.esServer v hv x).mp (.inl hserver))

/-- The links of a server are its neighbours. -/
theorem mem_down (hv : v ∈ servers) :
    d ∈ ((red v).ficha v).serv.down ↔ d ∈ servers ∧ (red v).padre d = some v := by
  rw [(h.bien v hv).mem_down]
  constructor
  · rintro ⟨hserver, hup⟩
    exact ⟨(h.esServer v hv d).mp (.inl hserver), ((h.bien v hv).padre_of_up hserver).trans hup⟩
  · rintro ⟨hd, hpadre⟩
    have hserver := h.status_server hv hd (h.rooted.ne hv hpadre).symm
    exact ⟨hserver, ((h.bien v hv).padre_of_up hserver).symm.trans hpadre⟩

/-- What is behind a link comes from it. -/
theorem desde_of_below (hv : v ∈ servers) (hd : (red v).padre d = some v)
    (hx : Forest.Below (red v).padre d x) : ((red v).ficha x).desde = d := by
  induction hx with
  | refl => exact h.desde_local v hv d hd
  | @step x p hxp hp ih =>
      have hpv : p ≠ v := by
        rintro rfl
        exact h.rooted.not_below_root hv (h.rooted.ne hv hd).symm hp
      exact (h.desde v hv x p hxp hpv).trans ih

/-- A server that is its own link hangs from the server itself. -/
theorem padre_of_desde (hv : v ∈ servers) (hx : x ∈ servers) (hne : x ≠ v)
    (hdesde : ((red v).ficha x).desde = x) : (red v).padre x = some v := by
  obtain ⟨p, hp⟩ := Option.isSome_iff_exists.mp
    (h.cuelga v hv x (h.mem_client hv (h.rooted.host_node x hx)) hne)
  rw [hp, (h.bien v hv).desde x p hdesde hp, h.me v hv]

end Concordes

end

/-- How three servers in a row come to know each other, and a user on the last one. -/
def vidasDePrueba : ℕ → List (Suceso ℕ)
  | 0 => [.conecta 1, .servidor 1 10 none "BAP".toList, .presenta 1 1 2 10 none "CAP".toList,
      .nickRemoto 1 2 3 "CAA".toList]
  | 1 => [.conecta 0, .servidor 0 10 none "AAP".toList, .conecta 2,
      .servidor 2 10 none "CAP".toList, .nickRemoto 2 2 3 "CAA".toList]
  | _ => [.conecta 1, .servidor 1 10 none "BAP".toList, .presenta 1 1 0 10 none "AAP".toList,
      .conecta 3, .nick 3, .setUser 3]

/-- A chain of three servers: what each of them knows. -/
def redesDePrueba (v : ℕ) : Red ℕ :=
  Run.final paso ((Red.arranca v v 16).getD (Red.sola v)) (vidasDePrueba v)

/-- The three networks are in order. -/
theorem bien_redesDePrueba : ∀ v ∈ [0, 1, 2], (redesDePrueba v).Bien := by
  have hl : ∀ v ∈ [0, 1, 2], v < 4096 ∧ (Red.arranca v v 16).isSome ∧ Run.EveryStep paso Puede
      ((Red.arranca v v 16).getD (Red.sola v)) (vidasDePrueba v) := by decide
  intro v hv
  obtain ⟨hlt, hsome, hl⟩ := hl v hv
  refine Run.invariant_final (P := Red.Bien) (fun a r hr ha ↦ hr.paso a ha) ?_ hl
  obtain ⟨r, hr⟩ := Option.isSome_iff_exists.mp hsome
  rw [hr]
  exact Red.Bien.arranca hlt hr

/-- The three servers know one network. -/
theorem concordes_redesDePrueba : Concordes {s | s ∈ [0, 1, 2]} redesDePrueba := by
  have hlocal : ∀ v ∈ [0, 1, 2], (redesDePrueba v).me = v ∧
      ((redesDePrueba v).ficha v).desde = v ∧ ∀ x ∈ (redesDePrueba v).client,
        (((redesDePrueba v).ficha x).status = .server ∨ x = v ↔ x ∈ [0, 1, 2]) ∧
        (x ∉ [0, 1, 2] → ((redesDePrueba v).ficha x).status = .user) ∧
        (x ≠ v → ((redesDePrueba v).padre x).isSome) := by decide
  have henlace : ∀ v ∈ [0, 1, 2], ∀ u ∈ [0, 1, 2], ∀ x ∈ (redesDePrueba v).client,
      x ∈ (redesDePrueba u).client ∧ ∀ p ∈ (redesDePrueba v).client,
        (redesDePrueba v).padre x = some p →
          ((redesDePrueba u).padre x = some p ∨ (redesDePrueba u).padre p = some x) ∧
          (if p = v then ((redesDePrueba v).ficha x).desde = x
            else ((redesDePrueba v).ficha x).desde = ((redesDePrueba v).ficha p).desde) := by
    decide
  have hpadre {v x p : ℕ} (hv : v ∈ [0, 1, 2]) (hx : (redesDePrueba v).padre x = some p) :
      x ∈ (redesDePrueba v).client ∧ p ∈ (redesDePrueba v).client := by
    have hbien := bien_redesDePrueba v hv
    have hmem : x ∈ (redesDePrueba v).client := by
      by_contra hno
      rw [hbien.padre_eq_none hno] at hx
      cases hx
    exact ⟨hmem, hbien.listed.parent_mem hmem hx⟩
  constructor
  case me => exact fun v hv ↦ (hlocal v hv).1
  case bien => exact bien_redesDePrueba
  case esServer =>
    intro v hv x
    obtain ⟨hme, -, hall⟩ := hlocal v hv
    by_cases hx : x ∈ (redesDePrueba v).client
    · rw [Red.EsServer, hme]
      exact (hall x hx).1
    · refine iff_of_false (fun hserver ↦ hx ((bien_redesDePrueba v hv).mem_of_esServer hserver)) ?_
      intro hmem
      have hself := (bien_redesDePrueba x hmem).me_mem
      rw [(hlocal x hmem).1] at hself
      exact hx (henlace x hmem v hv x hself).1
  case client => exact fun v hv u hu x hx ↦ (henlace v hv u hu x hx).1
  case user => exact fun v hv x hx ↦ ((hlocal v hv).2.2 x hx).2.1
  case cuelga => exact fun v hv x hx ↦ ((hlocal v hv).2.2 x hx).2.2
  case enlace =>
    intro v hv u hu x p hx
    obtain ⟨hmem, hp⟩ := hpadre hv hx
    exact ((henlace v hv u hu x hmem).2 p hp hx).1
  case desde_me => exact fun v hv ↦ (hlocal v hv).2.1
  case desde_local =>
    intro v hv x hx
    obtain ⟨hmem, hp⟩ := hpadre hv hx
    have hcond := ((henlace v hv v hv x hmem).2 v hp hx).2
    rwa [if_pos rfl] at hcond
  case desde =>
    intro v hv x p hx hne
    obtain ⟨hmem, hp⟩ := hpadre hv hx
    have hcond := ((henlace v hv v hv x hmem).2 p hp hx).2
    rwa [if_neg hne] at hcond

end Ircd.Net
