import Ircd.Net.Concordes
import Ircd.Net.Squit
import Mathlib.Data.List.Perm.Basic
import Mathlib.Logic.Relation

/-!
# Netsplits

Links are lost, servers are taken out by operators and users leave, on several servers at the same
time, while the messages about it are on their way. The invariant (`Mundo.Bien`) is that a server
has what it had at the start without a set of clients (`podada`), and that for a link that both ends
have open, what the one does not know any more and the other does is below the client of a message
from the one to the other. So when nothing is on the way, the servers on open links know the same,
and nobody else (`particion_corre`).
-/

namespace Ircd.Net

variable {ι : Type}

section

variable {servers : Set ι} {red : ι → Red ι} {b d p q v x y z : ι}

theorem mem_eraseIdx_or {α : Type} {l : List α} {k : ℕ} {e e' : α} (hk : l[k]? = some e)
    (he' : e' ∈ l) : e' ∈ l.eraseIdx k ∨ e' = e := by
  obtain ⟨hlt, hget⟩ := List.getElem?_eq_some_iff.mp hk
  rw [← (List.getElem_cons_eraseIdx_perm hlt).mem_iff, hget, List.mem_cons] at he'
  exact he'.symm

/-! ## The invariant -/

variable (timestamp : ι → ℕ)

/-- SQUIT is about a server, with its timestamp or none, and QUIT about a user. -/
def Mensaje.Tipo (servers : Set ι) : Mensaje ι → Prop
  | .squit _ server t => server ∈ servers ∧ (t = 0 ∨ t = timestamp server)
  | .quit sptr => sptr ∉ servers

/-- A message from `p` to `q` is about a client that `p` does not know any more, or about the link
between them, which `p` has closed. Its prefix is behind `p`. -/
structure Fiel (servers : Set ι) (red : ι → Red ι) (w : Mundo ι) (p q : ι) (m : Mensaje ι) :
    Prop where
  emisor : p ∈ servers
  receptor : q ∈ servers
  enlace : (red p).padre q = some p
  objetivo : m.objetivo ∈ clientes servers red
  ajeno : m.objetivo ≠ q
  fuera : m.objetivo ≠ p → m.objetivo ∉ (w.red p).client
  cerrado : m.objetivo = p → q ∉ (w.red p).client
  prefijo : Forest.Below (red q).padre p m.prefijo
  tipo : m.Tipo timestamp servers

/-- What a server does not know any more was cut off, and what a neighbour does not know any more is
told by a message on the way. -/
structure Mundo.Bien (servers : Set ι) (red : ι → Red ι) (w : Mundo ι) : Prop where
  podada : ∀ v ∈ servers, ∃ S, Forest.Closed (red v).padre S ∧ v ∉ S ∧ w.red v = (red v).podada S
  fiel : ∀ p q m, (p, q, m) ∈ w.vuelo → Fiel timestamp servers red w p q m
  aviso : ∀ p ∈ servers, ∀ q ∈ servers, (red p).padre q = some p → q ∈ (w.red p).client →
    p ∈ (w.red q).client → ∀ y ∈ (w.red q).client, y ∉ (w.red p).client →
      ∃ m, (p, q, m) ∈ w.vuelo ∧ Forest.Below (red q).padre m.objetivo y

namespace Mundo.Bien

variable {timestamp} {w : Mundo ι} {cptr sptr : ι} {vuelo : List (ι × ι × Mensaje ι)} {m : Mensaje ι}

variable (h : Concordes servers red) (hw : w.Bien timestamp servers red)

include h hw

theorem red_bien (hv : v ∈ servers) : (w.red v).Bien := by
  obtain ⟨S, hS, hvS, hred⟩ := hw.podada v hv
  rw [hred]
  refine (h.bien v hv).podada hS ?_
  rwa [h.me v hv]

theorem red_me (hv : v ∈ servers) : (w.red v).me = v := by
  obtain ⟨S, -, -, hred⟩ := hw.podada v hv
  rw [hred]
  exact h.me v hv

omit h in
theorem mem_clientes (hv : v ∈ servers) (hx : x ∈ (w.red v).client) :
    x ∈ clientes servers red := by
  obtain ⟨S, -, -, hred⟩ := hw.podada v hv
  rw [hred] at hx
  exact ⟨v, hv, (Red.mem_client_podada.mp hx).1⟩

/-- A server knows itself. -/
theorem self_mem (hv : v ∈ servers) : v ∈ (w.red v).client := by
  have hmem := (red_bien h hw hv).me_mem
  rwa [red_me h hw hv] at hmem

/-- With a client a server knows what the client hangs from. -/
theorem mem_of_below (hv : v ∈ servers) (hx : x ∈ (w.red v).client)
    (hzx : Forest.Below (red v).padre z x) (hz : z ∈ clientes servers red) :
    z ∈ (w.red v).client := by
  obtain ⟨S, hS, -, hred⟩ := hw.podada v hv
  rw [hred] at hx ⊢
  have hxS := (Red.mem_client_podada.mp hx).2
  exact Red.mem_client_podada.mpr ⟨h.mem_client hv hz, fun hzS ↦ hxS (hS.below hzS hzx)⟩

omit h in
/-- What a server knows of a client does not change. -/
theorem ficha_eq (hv : v ∈ servers) (hx : x ∈ (w.red v).client) :
    ((w.red v).ficha x).desde = ((red v).ficha x).desde ∧
      ((w.red v).ficha x).status = ((red v).ficha x).status ∧
      ((w.red v).ficha x).user = ((red v).ficha x).user := by
  obtain ⟨S, -, -, hred⟩ := hw.podada v hv
  rw [hred] at hx ⊢
  rw [Red.ficha_podada (Red.mem_client_podada.mp hx).2]
  exact ⟨rfl, rfl, rfl⟩

/-- The open links of a server. -/
theorem abierto_iff (hv : v ∈ servers) : w.Abierto v d ↔
    d ∈ servers ∧ (red v).padre d = some v ∧ d ∈ (w.red v).client := by
  obtain ⟨S, hS, hvS, hred⟩ := hw.podada v hv
  unfold Mundo.Abierto
  rw [red_me h hw hv, hred, Red.ficha_podada hvS]
  refine Servidor.mem_down_podado.trans ?_
  rw [h.mem_down hv, Red.mem_client_podada, and_assoc]
  refine and_congr_right fun hd ↦ and_congr_right fun _ ↦ ?_
  exact (and_iff_right (h.mem_client hv (h.rooted.host_node d hd))).symm

/-- A server or a user that leaves is told about. -/
theorem aviso_eq (hv : v ∈ servers) (hb : b ∈ (w.red v).client) (hne : b ≠ v) (sptr : ι) :
    b ∈ servers ∧ ((w.red v).ficha b).status = .server ∧
        (w.red v).aviso timestamp b sptr = some (.squit sptr b (timestamp b)) ∨
      b ∉ servers ∧ ((w.red v).ficha b).status = .user ∧
        (w.red v).aviso timestamp b sptr = some (.quit b) := by
  obtain ⟨-, hstatus, -⟩ := ficha_eq hw hv hb
  unfold Red.aviso
  by_cases hbs : b ∈ servers
  · rw [h.status_server hv hbs hne] at hstatus
    rw [hstatus]
    exact .inl ⟨hbs, rfl, rfl⟩
  · rw [h.user v hv b (h.mem_client hv (mem_clientes hw hv hb)) hbs] at hstatus
    rw [hstatus]
    exact .inr ⟨hbs, rfl, rfl⟩

theorem exists_aviso (hv : v ∈ servers) (hb : b ∈ (w.red v).client) (hne : b ≠ v) (sptr : ι) :
    ∃ m, (w.red v).aviso timestamp b sptr = some m ∧ m.objetivo = b := by
  rcases aviso_eq h hw hv hb hne sptr with ⟨-, -, haviso⟩ | ⟨-, -, haviso⟩
  · exact ⟨_, haviso, rfl⟩
  · exact ⟨_, haviso, rfl⟩

omit h hw in
/-- A message on the way stays one when its sender knows less. -/
theorem fiel_of_subset {w' : Mundo ι} (hm : Fiel timestamp servers red w p q m)
    (hsub : ∀ x ∈ (w'.red p).client, x ∈ (w.red p).client) :
    Fiel timestamp servers red w' p q m where
  emisor := hm.emisor
  receptor := hm.receptor
  enlace := hm.enlace
  objetivo := hm.objetivo
  ajeno := hm.ajeno
  fuera hne hmem := hm.fuera hne (hsub _ hmem)
  cerrado heq hmem := hm.cerrado heq (hsub _ hmem)
  prefijo := hm.prefijo
  tipo := hm.tipo

omit h in
/-- Messages that come to nothing can go. -/
theorem quita (hsub : ∀ m ∈ vuelo, m ∈ w.vuelo)
    (hrest : ∀ p q m, (p, q, m) ∈ w.vuelo → (p, q, m) ∈ vuelo ∨
      (q ∈ (w.red p).client → p ∈ (w.red q).client →
        ∀ y ∈ (w.red q).client, ¬ Forest.Below (red q).padre m.objetivo y)) :
    Mundo.Bien timestamp servers red { w with vuelo := vuelo } where
  podada := hw.podada
  fiel p q m hm := fiel_of_subset (hw.fiel p q m (hsub _ hm)) fun _ ↦ id
  aviso p hp q hq hpq hqp hpq' y hy hyp := by
    obtain ⟨m, hm, hbelow⟩ := hw.aviso p hp q hq hpq hqp hpq' y hy hyp
    rcases hrest p q m hm with hmem | hno
    · exact ⟨m, hmem, hbelow⟩
    · exact absurd hbelow (hno hqp hpq' y hy)

variable [DecidableEq ι]

/-- What `exit_client` leaves. -/
theorem exit_red (hv : v ∈ servers) (hb : b ∈ (w.red v).client) (hne : b ≠ v) (cptr : ι) :
    ∃ S, Forest.Closed (red v).padre S ∧ v ∉ S ∧
      (((w.red v).exitClient cptr b).map (·.1)).getD (w.red v) = (red v).podada S ∧
      ∀ x, x ∈ ((red v).podada S).client ↔
        x ∈ (w.red v).client ∧ ¬ Forest.Below (red v).padre b x := by
  obtain ⟨S, hS, hvS, hred⟩ := hw.podada v hv
  have hme : b ≠ (w.red v).me := by rwa [red_me h hw hv]
  refine ⟨S ∪ {x | Forest.Below (red v).padre b x}, hS.union (Forest.closed_below _ b), ?_, ?_, ?_⟩
  · rintro (hv' | hbelow)
    · exact hvS hv'
    · exact h.rooted.not_below_root hv hne hbelow
  · rw [(red_bien h hw hv).exitClient cptr hb hme]
    show (w.red v).podada _ = _
    rw [hred, Red.padre_podada, Red.podada_podada, Forest.union_below_cut hS]
  · intro x
    rw [hred, Red.mem_client_podada, Red.mem_client_podada, Set.mem_union, not_or, ← and_assoc]
    rfl

/-- A link learns that a client leaves, or is closed. -/
theorem mem_exitMensajes (hv : v ∈ servers) (hb : b ∈ (w.red v).client) (hne : b ≠ v) :
    (d, m) ∈ (w.red v).exitMensajes timestamp b sptr ↔
      (((red v).ficha b).desde = b ∧ b ≠ ((w.red v).ficha sptr).desde ∧ b ∈ servers ∧ d = b ∧
        m = .squit sptr v 0) ∨
      (w.Abierto v d ∧ d ≠ ((w.red v).ficha sptr).desde ∧ d ≠ b ∧
        (w.red v).aviso timestamp b sptr = some m) := by
  obtain ⟨hdesde, -, -⟩ := ficha_eq hw hv hb
  unfold Red.exitMensajes Mundo.Abierto
  rw [List.mem_append, List.mem_filterMap, red_me h hw hv, hdesde]
  refine or_congr ?_ ?_
  · constructor
    · intro hmem
      split at hmem
      · next hcond =>
          obtain ⟨rfl, rfl⟩ := Prod.mk.inj (List.mem_singleton.mp hmem)
          rcases aviso_eq h hw hv hb hne sptr with ⟨hbs, -⟩ | ⟨-, huser, -⟩
          · exact ⟨hcond.1, hcond.2.1, hbs, rfl, rfl⟩
          · rw [huser] at hcond
            exact Status.noConfusion hcond.2.2
      · cases hmem
    · rintro ⟨hself, hsptr, hbs, rfl, rfl⟩
      rcases aviso_eq h hw hv hb hne sptr with ⟨-, hserver, -⟩ | ⟨hno, -⟩
      · rw [if_pos ⟨hself, hsptr, hserver⟩]
        exact List.mem_singleton_self _
      · exact absurd hbs hno
  · constructor
    · rintro ⟨e, he, heq⟩
      obtain ⟨he, hcond⟩ := List.mem_filter.mp he
      obtain ⟨hask, hne⟩ := of_decide_eq_true hcond
      obtain ⟨m', haviso, heq⟩ := Option.map_eq_some_iff.mp heq
      cases heq
      exact ⟨he, hask, hne, haviso⟩
    · rintro ⟨hd, hask, hne, haviso⟩
      refine ⟨d, List.mem_filter.mpr ⟨hd, decide_eq_true ⟨hask, hne⟩⟩, ?_⟩
      rw [haviso]
      rfl

/-- `exit_client` on a server. The message it comes from is not on the way any more. -/
theorem exit (hq : q ∈ servers) (hb : b ∈ (w.red q).client) (hne : b ≠ q) (cptr : ι)
    (hsub : ∀ m ∈ vuelo, m ∈ w.vuelo)
    (hrest : ∀ p' q' m, (p', q', m) ∈ w.vuelo → (p', q', m) ∈ vuelo ∨
      q' = q ∧ p' ≠ q ∧ m.objetivo = b)
    (hsptr : ∀ d ∈ servers, (red q).padre d = some q → d ≠ ((w.red q).ficha sptr).desde →
      Forest.Below (red d).padre q sptr)
    (huser : b ∉ servers → ∀ d ∈ servers, (red q).padre d = some q →
      d ≠ ((w.red q).ficha sptr).desde → Forest.Below (red d).padre q b)
    (hdesde : ∀ d ∈ servers, (red q).padre d = some q → d = ((w.red q).ficha sptr).desde →
      q ∈ (w.red d).client → ∀ y ∈ (w.red d).client, ¬ Forest.Below (red q).padre b y) :
    Mundo.Bien timestamp servers red
      (Mundo.exit timestamp { w with vuelo := vuelo } q cptr b sptr) := by
  obtain ⟨S, hS, hqS, hexit, hclient⟩ := exit_red h hw hq hb hne cptr
  have hbc := mem_clientes hw hq hb
  have hself : (Mundo.exit timestamp { w with vuelo := vuelo } q cptr b sptr).red q =
      (red q).podada S := (Function.update_self ..).trans hexit
  have hother (v : ι) (hv : v ≠ q) :
      (Mundo.exit timestamp { w with vuelo := vuelo } q cptr b sptr).red v = w.red v :=
    Function.update_of_ne hv ..
  have hvuelo : (Mundo.exit timestamp { w with vuelo := vuelo } q cptr b sptr).vuelo =
      vuelo ++ ((w.red q).exitMensajes timestamp b sptr).map fun m ↦ (q, m) := rfl
  generalize Mundo.exit timestamp { w with vuelo := vuelo } q cptr b sptr = w' at *
  have hless (v : ι) : ∀ x ∈ (w'.red v).client, x ∈ (w.red v).client := by
    intro x hx
    by_cases hv : v = q
    · rw [hv] at hx ⊢
      rw [hself] at hx
      exact ((hclient x).mp hx).1
    · rwa [hother v hv] at hx
  have hnotb : b ∉ (w'.red q).client := by
    rw [hself]
    exact fun hmem ↦ ((hclient b).mp hmem).2 .refl
  constructor
  case podada =>
    intro v hv
    by_cases hvq : v = q
    · rw [hvq]
      exact ⟨S, hS, hqS, hself⟩
    · rw [hother v hvq]
      exact hw.podada v hv
  case fiel =>
    intro p' q' m' hm
    rw [hvuelo, List.mem_append] at hm
    rcases hm with hm | hm
    · exact fiel_of_subset (hw.fiel p' q' m' (hsub _ hm)) (hless p')
    · obtain ⟨⟨d, m⟩, hm, heq⟩ := List.mem_map.mp hm
      cases heq
      rcases (mem_exitMensajes h hw hq hb hne).mp hm with
        ⟨hlocal, hask, hbs, rfl, rfl⟩ | ⟨habierto, hask, hdb, haviso⟩
      · -- the link to `b` is closed
        have hqp := h.padre_of_desde hq hbs hne hlocal
        exact ⟨hq, hbs, hqp, h.rooted.host_node q hq, hne.symm, fun hno ↦ absurd rfl hno,
          fun _ ↦ hnotb, hsptr q' hbs hqp hask, hq, .inl rfl⟩
      · obtain ⟨hd, hqd, hdmem⟩ := (abierto_iff h hw hq).mp habierto
        rcases aviso_eq h hw hq hb hne sptr with ⟨hbs, -, heq⟩ | ⟨hbs, -, heq⟩
        · cases heq.symm.trans haviso
          exact ⟨hq, hd, hqd, hbc, hdb.symm, fun _ ↦ hnotb, fun heq ↦ absurd heq hne,
            hsptr q' hd hqd hask, hbs, .inr rfl⟩
        · cases heq.symm.trans haviso
          exact ⟨hq, hd, hqd, hbc, hdb.symm, fun _ ↦ hnotb, fun heq ↦ absurd heq hne,
            huser hbs q' hd hqd hask, hbs⟩
  case aviso =>
    intro p' hp' q' hq' hpq hqp hpq' y hy hyp
    have hold (hno : p' = q → y ∉ (w.red q).client) : ∃ m, (p', q', m) ∈ w'.vuelo ∧
        Forest.Below (red q').padre m.objetivo y := by
      have hyp' : y ∉ (w.red p').client := by
        by_cases hpq : p' = q
        · rw [hpq]
          exact hno hpq
        · rwa [← hother p' hpq]
      obtain ⟨m, hm, hbelow⟩ := hw.aviso p' hp' q' hq' hpq (hless p' _ hqp) (hless q' _ hpq') y
        (hless q' _ hy) hyp'
      rw [hvuelo]
      rcases hrest p' q' m hm with hmem | ⟨rfl, -, hobj⟩
      · exact ⟨m, List.mem_append_left _ hmem, hbelow⟩
      · -- what the message was about has left
        rw [hself] at hy
        rw [hobj] at hbelow
        exact absurd hbelow ((hclient y).mp hy).2
    by_cases hp'q : p' = q
    · subst hp'q
      have hq'p : q' ≠ p' := (h.rooted.ne hp' hpq).symm
      rw [hother q' hq'p] at hy hpq'
      by_cases hyq : y ∈ (w.red p').client
      · have hbelow : Forest.Below (red p').padre b y := by
          by_contra hno
          rw [hself] at hyp
          exact hyp ((hclient y).mpr ⟨hyq, hno⟩)
        have hq'b : q' ≠ b := by
          rintro rfl
          exact hnotb hqp
        have habierto := (abierto_iff h hw hq).mpr ⟨hq', hpq, hless _ _ hqp⟩
        have hask : q' ≠ ((w.red p').ficha sptr).desde := by
          intro heq
          exact hdesde q' hq' hpq heq hpq' y hy hbelow
        obtain ⟨m, haviso, hobj⟩ := exists_aviso h hw hq hb hne sptr
        refine ⟨m, ?_, ?_⟩
        · rw [hvuelo]
          refine List.mem_append_right _ (List.mem_map.mpr ⟨_, ?_, rfl⟩)
          exact (mem_exitMensajes h hw hq hb hne).mpr (.inr ⟨habierto, hask, hq'b, haviso⟩)
        · rw [hobj]
          exact (h.rooted.below_iff hq hq' hpq hne hq'b.symm).mp hbelow
      · exact hold fun _ ↦ hyq
    · exact hold fun heq ↦ absurd heq hp'q

/-- `parse` finds where a message comes from, and never a fake direction. -/
theorem parse_eq (hm : Fiel timestamp servers red w p q m) (hp : p ∈ (w.red q).client)
    (hprefijo : m.prefijo ∈ (w.red q).client ∨ m.objetivo ∈ servers) :
    ∃ sptr, (w.red q).parse p m = some sptr ∧ sptr ∈ (w.red q).client ∧
      Forest.Below (red q).padre p sptr ∧ (m.objetivo ∉ servers → sptr = m.prefijo) := by
  have hqp := h.rooted.back hm.emisor hm.receptor hm.enlace
  unfold Red.parse
  by_cases hmem : m.prefijo ∈ (w.red q).client
  · refine ⟨m.prefijo, ?_, hmem, hm.prefijo, fun _ ↦ rfl⟩
    rw [if_pos hmem, (ficha_eq hw hm.receptor hmem).1]
    exact if_pos (h.desde_of_below hm.receptor hqp hm.prefijo)
  · refine ⟨p, ?_, hp, .refl, fun hno ↦ absurd (hprefijo.resolve_left hmem) hno⟩
    rw [if_neg hmem]
    cases m with
    | squit => rfl
    | quit sptr => exact absurd (hprefijo.resolve_left hmem) hm.tipo

/-- A message takes out the client it is about, when the server knows it. -/
theorem lee_eq (hm : Fiel timestamp servers red w p q m) (hp : p ∈ (w.red q).client) :
    (m.objetivo ∉ (w.red q).client ∧ (w.red q).lee timestamp p m = none) ∨
    (m.objetivo ∈ (w.red q).client ∧ ∃ sptr,
      (w.red q).lee timestamp p m = some (m.objetivo, sptr) ∧ sptr ∈ (w.red q).client ∧
        Forest.Below (red q).padre p sptr ∧ (m.objetivo ∉ servers → sptr = m.objetivo)) := by
  have hq := hm.receptor
  have hme := red_me h hw hq
  have htipo := hm.tipo
  have hajeno := hm.ajeno
  unfold Red.lee
  cases m with
  | squit sptr server t =>
      obtain ⟨from', hparse, hmem, hbelow, -⟩ := parse_eq h hw hm hp (.inr htipo.1)
      rw [hparse]
      dsimp only
      by_cases hserver : server ∈ (w.red q).client
      · refine .inr ⟨hserver, from', ?_, hmem, hbelow, fun hno ↦ absurd htipo.1 hno⟩
        have hne : server ≠ q := hajeno
        have hstatus : ((w.red q).ficha server).status = .server :=
          ((ficha_eq hw hq hserver).2.1).trans (h.status_server hq htipo.1 hne)
        have hsello : ¬ (t ≠ 0 ∧ t ≠ timestamp server) := fun hno ↦ htipo.2.elim hno.1 hno.2
        rw [Red.mSquit, if_pos ⟨hserver, .inl hstatus⟩, hme, if_neg hne]
        dsimp only
        rw [if_neg hsello]
        rfl
      · refine .inl ⟨hserver, ?_⟩
        rw [Red.mSquit, if_neg fun hno ↦ hserver hno.1]
        rfl
  | quit sptr =>
      by_cases hsptr : sptr ∈ (w.red q).client
      · obtain ⟨from', hparse, hmem, hbelow, heq⟩ := parse_eq h hw hm hp (.inl hsptr)
        obtain rfl : from' = sptr := heq htipo
        refine .inr ⟨hsptr, from', ?_, hmem, hbelow, fun _ ↦ rfl⟩
        have hstatus : ((w.red q).ficha from').status ≠ .server := by
          rw [(ficha_eq hw hq hsptr).2.1]
          exact h.status_ne hq htipo
        rw [hparse]
        dsimp only
        rw [Red.mQuit, if_neg hstatus]
        rfl
      · refine .inl ⟨hsptr, ?_⟩
        have hparse : (w.red q).parse p (.quit sptr) = none := if_neg hsptr
        rw [hparse]

/-- What a message does: nothing, when the link is closed or the client is gone, or it takes out the
client it is about. -/
theorem entrega_cases {k : ℕ} (hk : w.vuelo[k]? = some (p, q, m)) :
    (w.entrega timestamp k = { w with vuelo := w.vuelo.eraseIdx k } ∧
      (p ∈ (w.red q).client → ∀ y ∈ (w.red q).client,
        ¬ Forest.Below (red q).padre m.objetivo y)) ∨
    (m.objetivo ∈ (w.red q).client ∧ ∃ sptr,
      w.entrega timestamp k =
        Mundo.exit timestamp { w with vuelo := w.vuelo.eraseIdx k } q p m.objetivo sptr ∧
      ((w.red q).ficha sptr).desde = p ∧ Forest.Below (red q).padre p sptr ∧
      (m.objetivo ∉ servers → sptr = m.objetivo)) := by
  have hm := hw.fiel p q m (List.mem_of_getElem? hk)
  have hq := hm.receptor
  have hqp := h.rooted.back hm.emisor hq hm.enlace
  unfold Mundo.entrega
  rw [hk]
  dsimp only
  by_cases habierto : w.Abierto q p
  · rw [if_pos habierto]
    have hpmem := ((abierto_iff h hw hq).mp habierto).2.2
    rcases lee_eq h hw hm hpmem with ⟨hno, hlee⟩ | ⟨hobj, sptr, hlee, hsptr, hbelow, huser⟩
    · rw [hlee]
      exact .inl ⟨rfl, fun _ y hy hbelow ↦ hno (mem_of_below h hw hq hy hbelow hm.objetivo)⟩
    · rw [hlee]
      refine .inr ⟨hobj, sptr, rfl, ?_, hbelow, huser⟩
      exact (ficha_eq hw hq hsptr).1.trans (h.desde_of_below hq hqp hbelow)
  · rw [if_neg habierto]
    refine .inl ⟨rfl, fun hpmem ↦ ?_⟩
    exact absurd ((abierto_iff h hw hq).mpr ⟨hm.emisor, hqp, hpmem⟩) habierto

/-- A message comes in. -/
theorem entrega (k : ℕ) : (w.entrega timestamp k).Bien timestamp servers red := by
  cases hk : w.vuelo[k]? with
  | none =>
      unfold Mundo.entrega
      rw [hk]
      exact hw
  | some e =>
      obtain ⟨p, q, m⟩ := e
      have hm := hw.fiel p q m (List.mem_of_getElem? hk)
      have hp := hm.emisor
      have hq := hm.receptor
      have hqp := h.rooted.back hp hq hm.enlace
      have hsub : ∀ e ∈ w.vuelo.eraseIdx k, e ∈ w.vuelo := fun e he ↦ List.mem_of_mem_eraseIdx he
      rcases entrega_cases h hw hk with ⟨heq, hno⟩ | ⟨hobj, sptr, heq, hdesde, hbelow, huser⟩
      · rw [heq]
        refine quita hw hsub fun p' q' m' hm' ↦ (mem_eraseIdx_or hk hm').imp_right fun heq ↦ ?_
        cases heq
        exact fun _ ↦ hno
      · rw [heq]
        refine exit h hw hq hobj hm.ajeno p hsub ?_ ?_ ?_ ?_
        · intro p' q' m' hm'
          refine (mem_eraseIdx_or hk hm').imp_right fun heq ↦ ?_
          cases heq
          exact ⟨rfl, h.rooted.ne hp hm.enlace, rfl⟩
        · intro d hd hqd hne
          rw [hdesde] at hne
          exact h.rooted.below_trans hq hd hqp hqd hne.symm hbelow
        · intro hobj' d hd hqd hne
          rw [hdesde] at hne
          rw [← huser hobj']
          exact h.rooted.below_trans hq hd hqp hqd hne.symm hbelow
        · intro d hd hqd heq hqmem y hy hyobj
          rw [hdesde] at heq
          subst heq
          by_cases hobjp : m.objetivo = d
          · exact hm.cerrado hobjp hqmem
          · refine hm.fuera hobjp (mem_of_below h hw hd hy ?_ hm.objetivo)
            exact (h.rooted.below_iff hd hq hm.enlace hobjp hm.ajeno).mpr hyobj

/-- A user of a server is behind it for the other servers. -/
theorem below_user (hv : v ∈ servers) (hx : ((w.red v).ficha x).user = some v) :
    x ∉ servers ∧ ((w.red v).ficha x).desde = x ∧
      ∀ d ∈ servers, (red v).padre d = some v → Forest.Below (red d).padre v x := by
  have hmem : x ∈ (w.red v).client := by
    by_contra hno
    rw [(red_bien h hw hv).libre x hno] at hx
    cases hx
  obtain ⟨hdesde, -, huser⟩ := ficha_eq hw hv hmem
  rw [huser] at hx
  have hpadre := Red.padre_of_user hx
  have hno : x ∉ servers := by
    intro hxs
    have hstatus := ((h.bien v hv).user x v hx).1
    exact hstatus (h.status_server hv hxs (h.rooted.ne hv hpadre).symm)
  refine ⟨hno, hdesde.trans (h.desde_local v hv x hpadre), fun d hd hvd ↦ ?_⟩
  have hxv : x ≠ v := by
    rintro rfl
    exact hno hv
  have hxd : x ≠ d := by
    rintro rfl
    exact hno hd
  refine .step ?_ .refl
  rw [← h.rooted.parent_eq hv hd hvd hxv hxd]
  exact hpadre

/-- The step. -/
theorem paso (a : Aviso ι) (ha : Mundo.Puede servers a w) :
    (Mundo.paso timestamp a w).Bien timestamp servers red := by
  cases a with
  | exit a b sptr =>
      obtain ⟨ha, hb, hba, hclase⟩ := ha
      have hclass : (w.red a).EsServer b ∨ ((w.red a).ficha b).user = some a :=
        hclase.imp And.left And.left
      have hsptr : sptr = a ∨ ((w.red a).ficha sptr).user = some a := by
        rcases hclase with ⟨-, hme⟩ | ⟨huser, hme | rfl⟩
        · exact .inl hme
        · exact .inl hme
        · exact .inr huser
      refine exit h hw ha hb hba b (fun _ ↦ id) (fun _ _ _ ↦ .inl) ?_ ?_ ?_
      · intro d hd had _
        rcases hsptr with rfl | huser
        · exact .refl
        · exact (below_user h hw ha huser).2.2 d hd had
      · intro hbs d hd had _
        rcases hclass with hserver | huser
        · rcases hserver with hserver | hme
          · rw [(ficha_eq hw ha hb).2.1] at hserver
            exact absurd hserver (h.status_ne ha hbs)
          · exact absurd (hme.trans (red_me h hw ha)) hba
        · exact (below_user h hw ha huser).2.2 d hd had
      · intro d hd had heq
        rcases hsptr with rfl | huser
        · rw [(ficha_eq hw ha (self_mem h hw ha)).1, h.desde_me sptr ha] at heq
          exact absurd heq.symm (h.rooted.ne ha had)
        · obtain ⟨hno, hdesde, -⟩ := below_user h hw ha huser
          rw [hdesde] at heq
          exact absurd (heq ▸ hd) hno
  | entrega k => exact entrega h hw k
  | pierde k =>
      show Mundo.Bien timestamp servers red { w with vuelo := w.vuelo.eraseIdx k }
      cases hk : w.vuelo[k]? with
      | none =>
          have hall : w.vuelo.eraseIdx k = w.vuelo :=
            List.eraseIdx_of_length_le (List.getElem?_eq_none_iff.mp hk)
          rw [hall]
          exact hw
      | some e =>
          obtain ⟨p, q, m⟩ := e
          have hm := hw.fiel p q m (List.mem_of_getElem? hk)
          have hqp := h.rooted.back hm.emisor hm.receptor hm.enlace
          refine quita hw (fun e he ↦ List.mem_of_mem_eraseIdx he) fun p' q' m' hm' ↦
            (mem_eraseIdx_or hk hm').imp_right fun heq ↦ ?_
          cases heq
          intro hqmem hpmem
          exact absurd ⟨(abierto_iff h hw hm.emisor).mpr ⟨hm.receptor, hm.enlace, hqmem⟩,
            (abierto_iff h hw hm.receptor).mpr ⟨hm.emisor, hqp, hpmem⟩⟩ (ha p q m hk)

end Mundo.Bien

/-! ## Every run -/

/-- The servers at the start. -/
theorem Mundo.Bien.inicio (h : Concordes servers red) :
    Mundo.Bien timestamp servers red ⟨red, []⟩ where
  podada v _ := ⟨∅, Forest.closed_empty _, Set.notMem_empty v, Red.podada_empty.symm⟩
  fiel _ _ _ hm := absurd hm List.not_mem_nil
  aviso p hp q hq _ _ _ y hy hyp := absurd (h.client q hq p hp y hy) hyp

/-- Both servers have the link open. -/
def Mundo.Enlace (servers : Set ι) (w : Mundo ι) (p q : ι) : Prop :=
  p ∈ servers ∧ q ∈ servers ∧ w.Abierto p q ∧ w.Abierto q p

/-- Nothing is on the way, and no link is open at one end only. -/
structure Mundo.Reposo (servers : Set ι) (w : Mundo ι) : Prop where
  vuelo : w.vuelo = []
  abierto : ∀ p ∈ servers, ∀ q ∈ servers, w.Abierto p q → w.Abierto q p

section

variable {timestamp} {w : Mundo ι} (h : Concordes servers red)
  (hw : w.Bien timestamp servers red)

include h hw

/-- At rest two servers on a link know the same. -/
theorem Mundo.Bien.mem_iff (hrest : w.vuelo = []) (henlace : w.Enlace servers p q) :
    x ∈ (w.red p).client ↔ x ∈ (w.red q).client := by
  have hmem {p q : ι} (henlace : w.Enlace servers p q) (hx : x ∈ (w.red q).client) :
      x ∈ (w.red p).client := by
    obtain ⟨hp, hq, hpq, hqp⟩ := henlace
    obtain ⟨-, hpadre, hqmem⟩ := (abierto_iff h hw hp).mp hpq
    have hpmem := ((abierto_iff h hw hq).mp hqp).2.2
    by_contra hno
    obtain ⟨m, hm, -⟩ := hw.aviso p hp q hq hpadre hqmem hpmem x hx hno
    rw [hrest] at hm
    cases hm
  exact ⟨hmem ⟨henlace.2.1, henlace.1, henlace.2.2.2, henlace.2.2.1⟩, hmem henlace⟩

theorem Mundo.Bien.mem_iff_of_trans (hrest : w.vuelo = [])
    (htrans : Relation.ReflTransGen (w.Enlace servers) v q) :
    x ∈ (w.red v).client ↔ x ∈ (w.red q).client := by
  induction htrans with
  | refl => exact .rfl
  | tail _ henlace ih => exact ih.trans (Mundo.Bien.mem_iff h hw hrest henlace)

/-- At rest a server knows the servers that links lead to. -/
theorem Mundo.Bien.trans_of_mem (hrest : w.Reposo servers) (hv : v ∈ servers)
    (hbelow : Forest.Below (red v).padre v p) (hp : p ∈ servers) (hmem : p ∈ (w.red v).client) :
    Relation.ReflTransGen (w.Enlace servers) v p := by
  induction hbelow with
  | refl => exact .refl
  | @step p u hpu hu ih =>
      have hus := h.rooted.parent_mem v hv p u hpu
      have humem := mem_of_below h hw hv hmem (.step hpu .refl) (h.rooted.host_node u hus)
      have htrans := ih hus humem
      have hpadre := h.rooted.neighbour hv hus hpu
      have hpmem : p ∈ (w.red u).client := (mem_iff_of_trans h hw hrest.vuelo htrans).mp hmem
      have habierto := (abierto_iff h hw hus).mpr ⟨hp, hpadre, hpmem⟩
      exact htrans.tail ⟨hus, hp, habierto, hrest.abierto u hus p hp habierto⟩

end

/-- Clients that a server does not know can be taken out of its tables. -/
theorem Red.Bien.podada_ajenos {r : Red ι} (hr : r.Bien) {T : Set ι}
    (hT : ∀ x ∈ T, x ∉ r.client) : r.podada T = r := by
  have hfuera {x : ι} (hx : x ∈ r.client) : fuera T x = true := fuera_iff.mpr fun hxT ↦ hT x hxT hx
  have hoption (o : Option ι) (ho : ∀ x, o = some x → x ∈ r.client) : o.filter (fuera T) = o := by
    cases o with
    | none => rfl
    | some x => exact Option.filter_some_pos (hfuera (ho x rfl))
  have hserv (p : ι) : (r.ficha p).serv.podado T = (r.ficha p).serv := by
    have hdown : (r.ficha p).serv.down.filter (fuera T) = (r.ficha p).serv.down :=
      List.filter_eq_self.mpr fun x hx ↦
        hfuera (hr.mem_of_esServer (.inl ((hr.mem_down p x).mp hx).1))
    have hlist : ((r.ficha p).serv.clientList.map fun l i ↦ (l i).filter (fuera T)) =
        (r.ficha p).serv.clientList := by
      cases hclient : (r.ficha p).serv.clientList with
      | none => rfl
      | some l =>
          refine congrArg some (funext fun i ↦ hoption (l i) fun u hu ↦ ?_)
          have hueco : (r.ficha p).serv.hueco i = some u := by
            rw [Servidor.hueco, hclient]
            exact hu
          by_contra hno
          have huser := ((hr.hueco p i u).mp hueco).1
          rw [hr.libre u hno] at huser
          cases huser
    rw [Servidor.podado, hdown, hlist]
  refine Red.ext rfl ?_ ?_ ?_ rfl rfl rfl rfl
  · exact List.filter_eq_self.mpr fun x hx ↦ hfuera hx
  · funext x
    by_cases hx : x ∈ T
    · rw [Red.ficha_podada_of_mem hx, hr.libre x (hT x hx)]
    · rw [Red.ficha_podada hx, hserv]
  · exact funext fun i ↦ hoption _ fun s hs ↦ hr.mem_of_esServer (hr.serverList i s hs).2.1

variable [DecidableEq ι]

/-- **Netsplits.** In every run from servers that know one network, whatever links are lost and
whoever leaves, in any order of the messages: when nothing is on the way, a server knows exactly the
servers that open links lead to, all these servers know the same clients, and each has the tables it
had without the clients that it does not know any more. -/
theorem particion_corre (h : Concordes servers red) {l : List (Aviso ι)}
    (hl : Run.EveryStep (Mundo.paso timestamp) (Mundo.Puede servers) ⟨red, []⟩ l)
    (hrest : (Run.final (Mundo.paso timestamp) ⟨red, []⟩ l).Reposo servers) (hv : v ∈ servers) :
    (∀ s ∈ servers, s ∈ ((Run.final (Mundo.paso timestamp) ⟨red, []⟩ l).red v).client ↔
      Relation.ReflTransGen
        ((Run.final (Mundo.paso timestamp) ⟨red, []⟩ l).Enlace servers) v s) ∧
    (∀ s, Relation.ReflTransGen
        ((Run.final (Mundo.paso timestamp) ⟨red, []⟩ l).Enlace servers) v s →
      ∀ x, x ∈ ((Run.final (Mundo.paso timestamp) ⟨red, []⟩ l).red v).client ↔
        x ∈ ((Run.final (Mundo.paso timestamp) ⟨red, []⟩ l).red s).client) ∧
    (Run.final (Mundo.paso timestamp) ⟨red, []⟩ l).red v = (red v).podada
      {x | x ∉ ((Run.final (Mundo.paso timestamp) ⟨red, []⟩ l).red v).client} := by
  have hw := Run.invariant_final (P := Mundo.Bien timestamp servers red)
    (fun a w hw ha ↦ hw.paso h a ha) (Mundo.Bien.inicio timestamp h) hl
  generalize Run.final (Mundo.paso timestamp) ⟨red, []⟩ l = w at *
  refine ⟨fun s hs ↦ ⟨fun hmem ↦ ?_, fun htrans ↦ ?_⟩, fun s htrans x ↦ ?_, ?_⟩
  · have hbelow := h.rooted.reach v hv s (h.rooted.host_node s hs)
    exact Mundo.Bien.trans_of_mem h hw hrest hv hbelow hs hmem
  · exact (Mundo.Bien.mem_iff_of_trans h hw hrest.vuelo htrans).mpr (Mundo.Bien.self_mem h hw hs)
  · exact Mundo.Bien.mem_iff_of_trans h hw hrest.vuelo htrans
  · obtain ⟨S, hS, hvS, hred⟩ := hw.podada v hv
    have hsub : S ∪ {x | x ∉ (w.red v).client} = {x | x ∉ (w.red v).client} := by
      refine Set.union_eq_self_of_subset_left fun x hx hmem ↦ ?_
      rw [hred] at hmem
      exact (Red.mem_client_podada.mp hmem).2 hx
    rw [← hsub, ← Red.podada_podada, ← hred]
    exact ((Mundo.Bien.red_bien h hw hv).podada_ajenos fun x hx ↦ hx).symm

end

/-- The first link is lost, and the two messages about it come in. -/
def roturaDePrueba : List (Aviso ℕ) :=
  [.exit 0 1 0, .entrega 0, .entrega 0]

def mundoDePrueba : Mundo ℕ :=
  Run.final (Mundo.paso id) ⟨redesDePrueba, []⟩ roturaDePrueba

theorem puede_roturaDePrueba : Run.EveryStep (Mundo.paso id) (Mundo.Puede {s | s ∈ [0, 1, 2]})
    ⟨redesDePrueba, []⟩ roturaDePrueba := by
  refine ⟨⟨?_, by decide, by decide, .inl ⟨.inl (by decide), rfl⟩⟩, trivial, trivial, trivial⟩
  show 0 ∈ [0, 1, 2]
  decide

theorem particion_corre_tres :
    (∀ s ∈ {s | s ∈ [0, 1, 2]}, s ∈ (mundoDePrueba.red 1).client ↔
      Relation.ReflTransGen (mundoDePrueba.Enlace {s | s ∈ [0, 1, 2]}) 1 s) ∧
    (∀ s, Relation.ReflTransGen (mundoDePrueba.Enlace {s | s ∈ [0, 1, 2]}) 1 s →
      ∀ x, x ∈ (mundoDePrueba.red 1).client ↔ x ∈ (mundoDePrueba.red s).client) ∧
    mundoDePrueba.red 1 = (redesDePrueba 1).podada {x | x ∉ (mundoDePrueba.red 1).client} := by
  refine particion_corre id concordes_redesDePrueba puede_roturaDePrueba ⟨by decide, ?_⟩ ?_
  · show ∀ p ∈ [0, 1, 2], ∀ q ∈ [0, 1, 2], mundoDePrueba.Abierto p q → mundoDePrueba.Abierto q p
    decide
  · show 1 ∈ [0, 1, 2]
    decide

end Ircd.Net
