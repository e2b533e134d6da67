import Ircd.Net.Vidas

/-!
# Numerics

A numeric is the numeric of a server and, behind it, the one of a user on it. When the links send
numerics of the lengths of the protocol and no two servers share one, `findNUser` finds every user
by its numeric in every run (`findNUser_corre`). In any run what it finds is in the network
(`findNUser_vivo`), and a local user gets no numeric only when all of them are taken
(`setLocalNumNick_corre`).
-/

namespace Ircd.Net

open CString

variable {ι : Type} [DecidableEq ι]

/-- The numerics have the lengths that `findNUser` expects, and every server is in the list. -/
structure Red.Numerada (r : Red ι) : Prop where
  largo : ∀ s, r.EsServer s → (r.ficha s).yxx.length = 1 ∨ (r.ficha s).yxx.length = 2
  user : ∀ u s, (r.ficha u).user = some s → (r.ficha u).yxx ≠ [] →
    (r.ficha u).yxx.length = (r.ficha s).yxx.length + 1
  listado : ∀ s, r.EsServer s → r.serverList (base64toint (r.ficha s).yxx) = some s
  extendidos : r.numericsExtendidos = decide ((r.ficha r.me).yxx.length = 2)

/-- The numeric of a server, as the protocol of its link gives it, has its length, and nobody has
it: `m_server` drops a link with the numeric of a server of another name. The numeric of a user
follows the one of its server. -/
def Numerados : Suceso ι → Red ι → Prop
  | .servidor x prot valor texto, r =>
      (if prot > 9 then texto.length = 3 ∨ texto.length = 5 else valor.isSome) ∧
        r.serverList (base64toint (r.conectado x prot valor texto).yxx) = none
  | .presenta cptr sptr _ prot valor texto, r =>
      (if (r.ficha cptr).serv.prot > 9 then texto.length = 3 ∨ texto.length = 5
        else valor.isSome) ∧
        r.serverList (base64toint (r.presentado cptr sptr prot valor texto).yxx) = none
  | .nickRemoto _ server _ texto, r => texto.length = 2 * (r.ficha server).yxx.length + 1
  | .nickRemoto9 _ server _, r => (r.ficha server).yxx.length = 1
  | _, _ => True

instance (a : Suceso ι) (r : Red ι) : Decidable (Numerados a r) :=
  match a with
  | .servidor .. | .presenta .. => inferInstanceAs (Decidable (_ ∧ _))
  | .nickRemoto .. | .nickRemoto9 .. => inferInstanceAs (Decidable (_ = _))
  | .conecta _ | .nick _ | .setUser _ | .exitClient .. => inferInstanceAs (Decidable True)

section

variable {r : Red ι} {S : Set ι} {a l : List ι} {c : Cliente ι} {p s u x y : ι} {yxx : CStr}

/-! ## What keeps the numerics -/

omit [DecidableEq ι] in
/-- Clients leave. -/
theorem Red.Numerada.podada (h : r.Numerada) (hS : Forest.Closed r.padre S) (hme : r.me ∉ S) :
    (r.podada S).Numerada := by
  have hserver {s : ι} (hs : (r.podada S).EsServer s) : s ∉ S ∧ r.EsServer s := by
    by_cases hsS : s ∈ S
    · rw [Red.EsServer, Red.ficha_podada_of_mem hsS] at hs
      rcases hs with hs | rfl
      · cases hs
      · exact absurd hsS hme
    · exact ⟨hsS, (Red.esServer_podada hsS).mp hs⟩
  constructor
  case largo =>
    intro s hs
    obtain ⟨hsS, hs⟩ := hserver hs
    rw [Red.ficha_podada hsS]
    exact h.largo s hs
  case user =>
    intro u s hu hyxx
    have huS : u ∉ S := by
      intro huS
      rw [Red.ficha_podada_of_mem huS] at hu
      cases hu
    rw [Red.ficha_podada huS] at hu hyxx ⊢
    have hsS : s ∉ S := fun hsS ↦ huS (hS u s (Red.padre_of_user hu) hsS)
    rw [Red.ficha_podada hsS]
    exact h.user u s hu hyxx
  case listado =>
    intro s hs
    obtain ⟨hsS, hs⟩ := hserver hs
    rw [Red.serverList_podada, Red.ficha_podada hsS]
    exact ⟨h.listado s hs, hsS⟩
  case extendidos =>
    show r.numericsExtendidos = decide (((r.podada S).ficha r.me).yxx.length = 2)
    rw [Red.ficha_podada hme]
    exact h.extendidos

/-- A client changes what the numerics do not say. -/
theorem Red.Numerada.cambia (h : r.Numerada) {f : Cliente ι → Cliente ι}
    (hf : (f (r.ficha x)).Igual (r.ficha x)) : (r.cambia x f).Numerada := by
  have higual := r.igual_cambia hf
  have hes {y : ι} (hy : (r.cambia x f).EsServer y) : r.EsServer y := by
    rwa [Red.EsServer, (higual y).server] at hy
  constructor
  case largo =>
    intro s hs
    rw [(higual s).yxx]
    exact h.largo s (hes hs)
  case user =>
    intro u s hu hyxx
    rw [(higual u).user] at hu
    rw [(higual u).yxx] at hyxx ⊢
    rw [(higual s).yxx]
    exact h.user u s hu hyxx
  case listado =>
    intro s hs
    rw [(higual s).yxx]
    exact h.listado s (hes hs)
  case extendidos =>
    rw [(higual _).yxx]
    exact h.extendidos

/-- A client is made. -/
theorem Red.Numerada.nuevo (h : r.Numerada) (hb : r.Bien) (hx : x ∉ r.client) (desde : ι) :
    (r.nuevo x desde).Numerada := by
  have hficha := hb.ficha_nuevo hx desde
  have hes {y : ι} (hy : (r.nuevo x desde).EsServer y) : r.EsServer y := by
    rwa [Red.EsServer, hficha] at hy
  constructor
  case largo =>
    intro s hs
    rw [hficha]
    exact h.largo s (hes hs)
  case user =>
    intro u s hu hyxx
    rw [hficha] at hu hyxx
    rw [hficha, hficha]
    exact h.user u s hu hyxx
  case listado =>
    intro s hs
    rw [hficha]
    exact h.listado s (hes hs)
  case extendidos =>
    rw [hficha]
    exact h.extendidos

/-- A server comes with a numeric that is free. -/
theorem Red.Numerada.conServer (h : r.Numerada) (hb : r.Bien)
    (hunknown : (r.ficha x).status = .unknown)
    (hlargo : c.yxx.length = 1 ∨ c.yxx.length = 2) (hcuser : c.user = none)
    (hlibre : r.serverList (base64toint c.yxx) = none) : (r.conServer x p c).Numerada := by
  have hnot := hb.not_esServer hunknown
  have hes {y : ι} (hyx : y ≠ x) (hy : (r.conServer x p c).EsServer y) : r.EsServer y := by
    rwa [Red.EsServer, Red.ficha_conServer_of_ne hyx] at hy
  constructor
  case largo =>
    intro s hs
    by_cases hsx : s = x
    · rw [hsx, Red.ficha_conServer]
      exact hlargo
    · rw [Red.ficha_conServer_of_ne hsx]
      exact h.largo s (hes hsx hs)
  case user =>
    intro u s hu hyxx
    by_cases hux : u = x
    · rw [hux, Red.ficha_conServer, hcuser] at hu
      cases hu
    · rw [Red.ficha_conServer_of_ne hux] at hu hyxx ⊢
      have hsx : s ≠ x := by
        rintro rfl
        exact hnot (hb.padre_server u s (Red.padre_of_user hu))
      rw [Red.ficha_conServer_of_ne hsx]
      exact h.user u s hu hyxx
  case listado =>
    intro s hs
    refine Red.serverList_ponServer.mpr ?_
    by_cases hsx : s = x
    · rw [hsx, Red.ficha_conServer]
      exact if_pos rfl ▸ rfl
    · rw [Red.ficha_conServer_of_ne hsx]
      have hlistado := h.listado s (hes hsx hs)
      rw [if_neg]
      · exact hlistado
      · intro hindex
        rw [hindex, hlibre] at hlistado
        cases hlistado
  case extendidos =>
    have hmex : r.me ≠ x := fun hme ↦ hnot (.inr hme.symm)
    show r.numericsExtendidos = decide (((r.conServer x p c).ficha r.me).yxx.length = 2)
    rw [Red.ficha_conServer_of_ne hmex]
    exact h.extendidos

/-- A user comes with a numeric of the length that its server has. -/
theorem Red.Numerada.conUser (h : r.Numerada) (hb : r.Bien) (hs : r.EsServer s)
    (hunknown : (r.ficha x).status = .unknown)
    (hyxx : yxx ≠ [] → yxx.length = (r.ficha s).yxx.length + 1) :
    (r.conUser x s yxx).Numerada := by
  have hnot := hb.not_esServer hunknown
  have hsx : s ≠ x := by
    rintro rfl
    exact hnot hs
  have hes {y : ι} (hy : (r.conUser x s yxx).EsServer y) : y ≠ x ∧ r.EsServer y := by
    by_cases hyx : y = x
    · rw [Red.EsServer, hyx, Red.ficha_conUser hsx] at hy
      exact absurd hy hnot
    · exact ⟨hyx, by rwa [Red.EsServer, Red.ficha_conUser_of_ne hyx] at hy⟩
  constructor
  case largo =>
    intro t ht
    obtain ⟨htx, ht⟩ := hes ht
    rw [Red.ficha_conUser_of_ne htx]
    exact h.largo t ht
  case user =>
    intro u t hu hne
    by_cases hux : u = x
    · rw [hux, Red.ficha_conUser hsx] at hu hne ⊢
      obtain rfl := Option.some.inj hu
      rw [Red.ficha_conUser_of_ne hsx]
      exact hyxx hne
    · rw [Red.ficha_conUser_of_ne hux] at hu hne ⊢
      have htx : t ≠ x := by
        rintro rfl
        exact hnot (hb.padre_server u t (Red.padre_of_user hu))
      rw [Red.ficha_conUser_of_ne htx]
      exact h.user u t hu hne
  case listado =>
    intro t ht
    obtain ⟨htx, ht⟩ := hes ht
    rw [Red.ficha_conUser_of_ne htx]
    exact h.listado t ht
  case extendidos =>
    have hmex : r.me ≠ x := fun hme ↦ hnot (.inr hme.symm)
    show r.numericsExtendidos = decide (((r.conUser x s yxx).ficha r.me).yxx.length = 2)
    rw [Red.ficha_conUser_of_ne hmex]
    exact h.extendidos

/-! ## The steps -/

omit [DecidableEq ι] in
/-- A client leaves with all below it. -/
theorem Red.Numerada.podada_below (h : r.Numerada) (hb : r.Bien) (hx : x ≠ r.me) :
    (r.podada {y | Forest.Below r.padre x y}).Numerada :=
  h.podada (Forest.closed_below r.padre x) (hb.not_below_me hx)

/-- A connection sends NICK. -/
theorem Red.Numerada.nick (h : r.Numerada) (hb : r.Bien)
    (hunknown : (r.ficha x).status = .unknown) (huser : (r.ficha x).user = none) :
    (r.nick x).Numerada := by
  have hnot := hb.not_esServer hunknown
  have hme : x ≠ r.me := fun hme ↦ hnot (.inr hme)
  have hlast := hb.lastNn
  cases hbusca : r.busca with
  | mk hay nn =>
      cases hay with
      | false =>
          rw [Red.nick_eq_false hme (hb.sinYxx x huser hnot) hbusca]
          have hnum : ({ r.numericsAlDia with lastNn := nn } : Red ι).Numerada :=
            ⟨h.largo, h.user, h.listado, h.extendidos⟩
          exact hnum.conUser (hb.conLastNn (buscaLibre_false hbusca hlast)) (.inr rfl) hunknown
            fun hno ↦ absurd rfl hno
      | true =>
          obtain ⟨-, hnn⟩ := buscaLibre_true hbusca hlast
          have hnext : (if nn + 1 = r.maxClient then 0 else nn + 1) < r.maxClient := by
            split <;> omega
          rw [Red.nick_eq_true hme hnn hbusca]
          have hnum : ({ r.numericsAlDia with
              lastNn := if nn + 1 = r.maxClient then 0 else nn + 1 } : Red ι).Numerada :=
            ⟨h.largo, h.user, h.listado, h.extendidos⟩
          refine hnum.conUser (hb.conLastNn hnext) (.inr rfl) hunknown fun _ ↦ ?_
          show (r.textoLocal nn).length = (r.ficha r.me).yxx.length + 1
          rw [Red.textoLocal, length_inttobase64, h.extendidos]
          rcases h.largo r.me (.inr rfl) with hlargo | hlargo <;> simp [hlargo]

omit [DecidableEq ι] in
/-- The length of the numeric of a new server. -/
theorem Servidor.largo_alta {protocol : ℕ} {valor : Option ℕ} {texto : CStr} (hc : c.yxx = [])
    (htexto : if protocol > 9 then texto.length = 3 ∨ texto.length = 5 else valor.isSome) :
    (Servidor.alta protocol valor texto c).yxx.length = 1 ∨
      (Servidor.alta protocol valor texto c).yxx.length = 2 := by
  unfold alta conYXX
  split
  · next hprot =>
      rw [if_pos hprot] at htexto
      split
      · simp [hc]
        omega
      · simp [hc]
        omega
  · next hprot =>
      rw [if_neg hprot] at htexto
      obtain ⟨n, rfl⟩ := Option.isSome_iff_exists.mp htexto
      simp [hc]

/-- A connection sends USER. -/
theorem Red.Numerada.setUser (h : r.Numerada) (hunknown : (r.ficha x).status = .unknown) :
    (r.setUser x).Numerada :=
  h.cambia (f := fun c ↦ { c with status := .user }) (Cliente.igual_user hunknown)

/-- A remote user comes with its numeric. -/
theorem Red.Numerada.conRemoto (h : r.Numerada) (hb : r.Bien) (hx : x ∉ r.client)
    (hs : r.EsServer s) (hyxx : yxx.length = (r.ficha s).yxx.length + 1) (cptr : ι) :
    (r.conRemoto cptr s x yxx).Numerada := by
  have hno := hb.not_enServer hs yxx
  have hd := hb.despejada s yxx
  have hnd : (r.despejada s yxx).Numerada :=
    h.podada (hb.closed_enServer s yxx) fun hme ↦
      (hb.user _ _ ((hb.hueco s _ r.me).mp hme).1).2 rfl
  have hsd : (r.despejada s yxx).EsServer s := (Red.esServer_podada hno).mpr hs
  have hxd : x ∉ (r.despejada s yxx).client := fun hmem ↦ hx (Red.mem_client_podada.mp hmem).1
  have hficha := hd.ficha_nuevo hxd cptr
  have hunknown : (((r.despejada s yxx).nuevo x cptr).ficha x).status = .unknown := by
    rw [hficha, hd.libre x hxd]
    rfl
  have hsn : ((r.despejada s yxx).nuevo x cptr).EsServer s := by
    rw [Red.EsServer, hficha]
    exact hsd
  have hxs : s ≠ x := by
    rintro rfl
    exact hx (hb.mem_of_esServer hs)
  have hlargo : yxx.length = (((r.despejada s yxx).nuevo x cptr).ficha s).yxx.length + 1 := by
    rw [hficha]
    show yxx.length = ((r.despejada s yxx).ficha s).yxx.length + 1
    rw [Red.despejada, Red.ficha_podada hno]
    exact hyxx
  have hcon := (hnd.nuevo hd hxd cptr).conUser (hd.nuevo hxd cptr) hsn hunknown fun _ ↦ hlargo
  refine hcon.setUser ?_
  rw [Red.ficha_conUser hxs]
  exact hunknown

/-- NICK of a remote user. -/
theorem Red.Numerada.nickRemoto (h : r.Numerada) (hb : r.Bien) {cptr : ι} {texto : CStr}
    (hx : x ∉ r.client) (hs : r.EsServer s)
    (htexto : texto.length = 2 * (r.ficha s).yxx.length + 1) :
    ((r.nickRemoto cptr s x texto).getD r).Numerada := by
  have hlargo := h.largo s hs
  have hlen : texto.length = 3 ∨ texto.length = 5 := by omega
  rw [hb.nickRemoto hx hs hlen]
  refine h.conRemoto hb hx hs ?_ cptr
  unfold yxxRemoto
  split <;> simp <;> omega

/-- NICK of a user on a server of protocol 9. -/
theorem Red.Numerada.nickRemoto9 (h : r.Numerada) (hb : r.Bien) {cptr : ι} (hx : x ∉ r.client)
    (hs : (r.ficha s).status = .server) (hlargo : (r.ficha s).yxx.length = 1) :
    ((r.nickRemoto9 cptr s x).getD r).Numerada := by
  obtain ⟨n, hnet, hnn⟩ := r.createNN_eq s
  have hbien := hb.conNnLast (.inl hs) n
  have hnum : (r.cambia s fun c ↦ { c with serv := { c.serv with nnLast := n } }).Numerada :=
    h.cambia ⟨.rfl, .rfl, rfl, rfl, rfl, rfl, rfl, rfl, rfl⟩
  have hes : (r.cambia s fun c ↦ { c with serv := { c.serv with nnLast := n } }).EsServer s :=
    .inl (by simpa [Red.cambia] using hs)
  have hyxx : ((r.cambia s fun c ↦ { c with serv := { c.serv with nnLast := n } }).ficha
      s).yxx.length = 1 := by simpa [Red.cambia] using hlargo
  have hserver : s ≠ r.me := by
    rintro rfl
    rw [(hb.status_me _).mpr rfl] at hs
    cases hs
  have hclient : (r.createNN s).2.client = r.client := by rw [hnet]; rfl
  have hme : (r.createNN s).2.me = r.me := by rw [hnet]; rfl
  rw [← hnet] at hbien hnum hes hyxx
  unfold Red.nickRemoto9
  cases hcreate : r.createNN s with
  | mk o r' =>
      rw [hcreate] at hbien hnum hes hyxx hclient hnn hme
      cases o with
      | none =>
          dsimp only
          rw [hbien.exitClient cptr (hbien.mem_of_esServer hes) (hme.symm ▸ hserver)]
          exact hnum.podada_below hbien (hme.symm ▸ hserver)
      | some nnp9 =>
          obtain ⟨nn, hnn⟩ := hnn nnp9 rfl
          have hlen : nnp9.length = 3 := by
            rw [hnn, List.length_append, length_inttobase64, List.length_take]
            omega
          have hlargo : nnp9.length = 2 * (r'.ficha s).yxx.length + 1 := by
            rw [hlen, hyxx]
          have hcon : ((r'.nickRemoto cptr s x nnp9).getD r').Numerada :=
            hnum.nickRemoto hbien (hclient.symm ▸ hx) hes hlargo
          dsimp only
          rw [hbien.nickRemoto (hclient.symm ▸ hx) hes (.inl hlen)] at hcon ⊢
          exact hcon

/-- A connection sends SERVER. -/
theorem Red.Numerada.servidor (h : r.Numerada) (hb : r.Bien)
    (hunknown : (r.ficha x).status = .unknown) (huser : (r.ficha x).user = none) {prot : ℕ}
    {valor : Option ℕ} {texto : CStr}
    (htexto : if prot > 9 then texto.length = 3 ∨ texto.length = 5 else valor.isSome)
    (hlibre : r.serverList (base64toint (r.conectado x prot valor texto).yxx) = none) :
    (r.servidor x prot valor texto).Numerada := by
  have hnot := hb.not_esServer hunknown
  have hme : x ≠ r.me := fun hme ↦ hnot (.inr hme)
  obtain ⟨_, _, _, halta⟩ := Servidor.alta_eq prot valor texto
    { r.ficha x with serv := { (r.ficha x).serv with prot := prot } }
  have hlargo := Servidor.largo_alta
    (c := { r.ficha x with serv := { (r.ficha x).serv with prot := prot } })
    (hb.sinYxx x huser hnot) htexto
  rw [Red.servidor_eq hme]
  exact h.conServer hb hunknown hlargo ((congrArg (·.user) halta).trans huser) hlibre

/-- A link introduces a server. -/
theorem Red.Numerada.presenta (h : r.Numerada) (hb : r.Bien) {cptr : ι} (hx : x ∉ r.client)
    (hc : cptr ∈ r.client) (hp : r.EsServer p) {prot : ℕ} {valor : Option ℕ} {texto : CStr}
    (htexto : if (r.ficha cptr).serv.prot > 9 then texto.length = 3 ∨ texto.length = 5
      else valor.isSome)
    (hlibre : r.serverList (base64toint (r.presentado cptr p prot valor texto).yxx) = none) :
    (r.presenta cptr p x prot valor texto).Numerada := by
  have hxp : x ≠ p := by
    rintro rfl
    exact hx (hb.mem_of_esServer hp)
  have hcx : cptr ≠ x := by
    rintro rfl
    exact hx hc
  obtain ⟨_, _, _, halta⟩ := Servidor.alta_eq (r.ficha cptr).serv.prot valor texto
    { makeClient cptr .server with serv := { makeServer with prot := prot, up := some p } }
  rw [Red.presenta_eq hxp cptr hcx]
  refine (h.nuevo hb hx cptr).conServer (hb.nuevo hx cptr) ?_ (Servidor.largo_alta rfl htexto)
    (congrArg (·.user) halta) hlibre
  rw [hb.ficha_nuevo hx, hb.libre x hx]
  rfl

/-- The step. -/
theorem Red.Numerada.paso (h : r.Numerada) (hb : r.Bien) (a : Suceso ι) (ha : Puede a r)
    (hn : Numerados a r) : (paso a r).Numerada := by
  cases a with
  | conecta x => exact h.nuevo hb ha x
  | nick x => exact h.nick hb ha.2.1 ha.2.2
  | setUser x => exact h.setUser ha.2.1
  | servidor x prot valor texto =>
      exact h.servidor hb ha.2.1 ha.2.2 hn.1 hn.2
  | presenta cptr sptr x prot valor texto =>
      exact h.presenta hb ha.1 ha.2.1 (.inl ha.2.2) hn.1 hn.2
  | nickRemoto cptr server x texto => exact h.nickRemoto hb ha.1 (.inl ha.2.2.1) hn
  | nickRemoto9 cptr server x =>
      exact h.nickRemoto9 hb ha.1 ha.2.2.1 hn
  | exitClient cptr b =>
      show (((r.exitClient cptr b).map (·.1)).getD r).Numerada
      rw [hb.exitClient cptr ha.1 ha.2]
      exact h.podada_below hb ha.2

/-- A digit of a numeric is less than the base. -/
theorem convert2n_lt (c : Char) : convert2n c < 64 := by
  unfold convert2n
  split <;> omega

omit [DecidableEq ι] in
/-- A user is found by its numeric. -/
theorem Red.Numerada.findNUser (h : r.Numerada) (hb : r.Bien) (hu : (r.ficha u).user = some s)
    (hyxx : (r.ficha u).yxx ≠ []) :
    r.findNUser ((r.ficha s).yxx ++ (r.ficha u).yxx) = some u := by
  have hs := hb.padre_server u s (Red.padre_of_user hu)
  have hlen := h.user u s hu hyxx
  have hlistado := h.listado s hs
  have hueco := (hb.hueco s _ u).mpr ⟨hu, hyxx, rfl⟩
  unfold Red.findNUser
  rw [List.length_append]
  rcases h.largo s hs with hlargo | hlargo
  · obtain ⟨c, hc⟩ := List.length_eq_one_iff.mp hlargo
    have hdigit : convert2n (([c] ++ (r.ficha u).yxx).getD 0 nul) = base64toint [c] := by
      show convert2n c = (0 * 64 + convert2n c) % 2 ^ 32
      have := convert2n_lt c
      omega
    have hlargo3 : ((r.ficha s).yxx ++ (r.ficha u).yxx).length = 3 := by
      rw [List.length_append]
      omega
    rw [if_neg (by omega), if_neg (by omega), findNServer, if_neg (by omega), if_neg (by omega),
      if_pos hlargo3, hc, hdigit, ← hc, hlistado]
    dsimp only
    rw [List.drop_left' hlargo]
    exact hueco
  · rw [if_neg (by omega), if_pos (by omega), findXNServer, List.take_left' hlargo, hlistado]
    dsimp only
    rw [List.drop_left' hlargo]
    exact hueco

omit [DecidableEq ι] in
/-- What `findNUser` finds is a user of a server in the list. -/
theorem Red.Bien.findNUser (hb : r.Bien) {texto : CStr} (hu : r.findNUser texto = some u) :
    u ∈ r.client ∧ ∃ s i, (r.ficha u).user = some s ∧ r.serverList i = some s := by
  have huser {s : ι} {xx : CStr} (hs : r.enServer s xx = some u) : (r.ficha u).user = some s :=
    ((hb.hueco s _ u).mp hs).1
  have hmem {s : ι} {xx : CStr} (hs : r.enServer s xx = some u) : u ∈ r.client := by
    by_contra hno
    have hsome := huser hs
    rw [hb.libre u hno] at hsome
    cases hsome
  unfold Red.findNUser at hu
  split at hu
  · cases hu
  · split at hu
    · split at hu
      · next s hs => exact ⟨hmem hu, s, _, huser hu, hs⟩
      · cases hu
    · split at hu
      · next s hs =>
          refine ⟨hmem hu, s, ?_⟩
          unfold Red.findNServer at hs
          split at hs
          · cases hs
          · split at hs
            · exact ⟨_, huser hu, hs⟩
            · split at hs
              · exact ⟨_, huser hu, hs⟩
              · exact ⟨_, huser hu, hs⟩
      · cases hu

/-- The server that starts. -/
theorem Red.Numerada.arranca {me : ι} {numeric capacity : ℕ} (hn : numeric < 4096)
    (h : Red.arranca me numeric capacity = some r) : r.Numerada := by
  have hb := Red.Bien.arranca hn h
  obtain ⟨c, hr, hstatus, huser, -, -, hyxx, -⟩ := Red.arranca_eq hn h
  have hme : r.me = me := by rw [hr]; rfl
  have hself : r.ficha me = c := by
    rw [hr]
    show Function.update (fun x ↦ makeClient x .unknown) me c me = c
    exact Function.update_self ..
  have hno (y : ι) (hy : y ≠ me) : r.ficha y = makeClient y .unknown := by
    rw [hr]
    show Function.update (fun x ↦ makeClient x .unknown) me c y = _
    exact Function.update_of_ne hy ..
  have hlargo : c.yxx.length = if numeric ≥ 64 then 2 else 1 := by
    rw [hyxx]
    split
    · exact length_inttobase64 numeric 2
    · rfl
  have hes {s : ι} (hs : r.EsServer s) : s = me := by
    by_contra hne
    rcases hs with hs | hs
    · rw [hno s hne] at hs
      cases hs
    · exact hne (hs.trans hme)
  constructor
  case largo =>
    intro s hs
    rw [hes hs, hself, hlargo]
    split
    · exact .inr rfl
    · exact .inl rfl
  case user =>
    intro u s hu
    by_cases hume : u = me
    · rw [hume, hself, huser] at hu
      cases hu
    · rw [hno u hume] at hu
      cases hu
  case listado =>
    intro s hs
    rw [hes hs, hself, hyxx, base64toint_numeric hn, hr]
    show Function.update (fun _ ↦ none) numeric (some me) numeric = _
    exact Function.update_self ..
  case extendidos =>
    rw [hme, hself, hlargo, hr]
    show decide (numeric ≥ 64) = _
    split <;> simp [*]

/-! ## Every run -/

/-- **Numerics find users.** In every run with the numerics of the protocol, each user that has a
numeric is found by it. -/
theorem findNUser_corre {me : ι} {numeric capacity : ℕ} (hn : numeric < 4096) {r₀ : Red ι}
    (h : Red.arranca me numeric capacity = some r₀) {l : List (Suceso ι)}
    (hl : Run.EveryStep paso (fun a r ↦ Puede a r ∧ Numerados a r) r₀ l) :
    ∀ u s, ((Run.final paso r₀ l).ficha u).user = some s →
      ((Run.final paso r₀ l).ficha u).yxx ≠ [] →
        (Run.final paso r₀ l).findNUser (((Run.final paso r₀ l).ficha s).yxx ++
          ((Run.final paso r₀ l).ficha u).yxx) = some u := by
  obtain ⟨hnum, hbien⟩ := Run.invariant_final (P := fun r ↦ r.Numerada ∧ r.Bien)
    (fun a r hr ha ↦ ⟨hr.1.paso hr.2 a ha.1 ha.2, hr.2.paso a ha.1⟩)
    ⟨Red.Numerada.arranca hn h, Red.Bien.arranca hn h⟩ hl
  exact fun u s hu hyxx ↦ hnum.findNUser hbien hu hyxx

/-- **Numerics find nobody that is gone.** In every run, whatever the numerics of the links are, what
`findNUser` finds is in the list of clients, and so is its server. -/
theorem findNUser_vivo {me : ι} {numeric capacity : ℕ} (hn : numeric < 4096) {r₀ : Red ι}
    (h : Red.arranca me numeric capacity = some r₀) {l : List (Suceso ι)}
    (hl : Run.EveryStep paso Puede r₀ l) (texto : CStr) (u : ι)
    (hu : (Run.final paso r₀ l).findNUser texto = some u) :
    u ∈ (Run.final paso r₀ l).client ∧
      ∃ s ∈ (Run.final paso r₀ l).client, ((Run.final paso r₀ l).ficha u).user = some s := by
  have hbien := Run.invariant_final (P := Red.Bien) (fun a r hr ha ↦ hr.paso a ha)
    (Red.Bien.arranca hn h) hl
  obtain ⟨hmem, s, i, huser, hs⟩ := hbien.findNUser hu
  exact ⟨hmem, s, hbien.mem_of_esServer (hbien.serverList i s hs).2.1, huser⟩

/-! ## Local numerics -/

/-- A search that fails has seen all numerics that it could. -/
theorem ocupado_of_buscaLibre {ocupado : ℕ → Bool} {m k n : ℕ} (hn : n < m)
    (h : (buscaLibre ocupado m k n).1 = false) : ∀ j < k, ocupado ((n + j) % m) = true := by
  induction k generalizing n with
  | zero => exact fun j hj ↦ absurd hj (Nat.not_lt_zero j)
  | succ k ih =>
      rw [buscaLibre] at h
      split at h
      · next hocupado =>
          intro j hj
          cases j with
          | zero => rwa [Nat.add_zero, Nat.mod_eq_of_lt hn]
          | succ j =>
              rw [if_neg (by omega)] at h
              by_cases hlast : n + 1 = m
              · rw [if_pos hlast] at h
                have hj := ih (by omega) h j (by omega)
                have hround : n + (j + 1) = m + j := by omega
                rwa [hround, Nat.add_mod_left, ← Nat.zero_add j]
              · rw [if_neg hlast] at h
                have hj := ih (by omega) h j (by omega)
                have hround : n + (j + 1) = n + 1 + j := by omega
                rwa [hround]
      · cases h

/-- All numerics are seen by a search of the whole circle. -/
theorem forall_of_buscaLibre {ocupado : ℕ → Bool} {m n : ℕ} (hn : n < m)
    (h : (buscaLibre ocupado m m n).1 = false) {nn : ℕ} (hnn : nn < m) : ocupado nn = true := by
  by_cases hle : n ≤ nn
  · have hj := ocupado_of_buscaLibre hn h (nn - n) (by omega)
    rwa [Nat.add_sub_cancel' hle, Nat.mod_eq_of_lt hnn] at hj
  · have hj := ocupado_of_buscaLibre hn h (nn + m - n) (by omega)
    have hround : n + (nn + m - n) = nn + m := by omega
    rwa [hround, Nat.add_mod_right, Nat.mod_eq_of_lt hnn] at hj

/-- A local numeric is found if and only if an entry of `client_list` is free. -/
theorem Red.Bien.setLocalNumNick (hb : r.Bien) (cptr : ι) :
    (r.setLocalNumNick cptr).1 = true ↔
      ∃ i ≤ (r.ficha r.me).serv.nnMask, (r.ficha r.me).serv.hueco i = none := by
  obtain ⟨k, hmask, hmax⟩ := hb.mascara
  have hmask : (r.ficha r.me).serv.nnMask = 2 ^ k - 1 := by omega
  cases hbusca : r.busca with
  | mk hay nn =>
      cases hay with
      | false =>
          rw [Red.setLocalNumNick_eq_false hbusca]
          refine iff_of_false Bool.false_ne_true ?_
          rintro ⟨i, hi, hueco⟩
          have hlt : i < r.maxClient := by omega
          have hocupado := forall_of_buscaLibre hb.lastNn (congrArg Prod.fst hbusca) hlt
          rw [hmask] at hocupado hi
          rw [Nat.and_two_pow_sub_one_eq_mod, Nat.mod_eq_of_lt (by omega), hueco] at hocupado
          cases hocupado
      | true =>
          rw [Red.setLocalNumNick_eq_true hbusca]
          obtain ⟨hlibre, -⟩ := buscaLibre_true hbusca hb.lastNn
          refine iff_of_true rfl ⟨_, Nat.and_le_right,
            Option.not_isSome_iff_eq_none.mp (Bool.eq_false_iff.mp hlibre)⟩

/-- **Local numerics.** In every run, whatever the capacity of the server is, `SetLocalNumNick` finds
a numeric for a connection if and only if `client_list` has a free entry. -/
theorem setLocalNumNick_corre {me : ι} {numeric capacity : ℕ} (hn : numeric < 4096) {r₀ : Red ι}
    (h : Red.arranca me numeric capacity = some r₀) {l : List (Suceso ι)}
    (hl : Run.EveryStep paso Puede r₀ l) (cptr : ι) :
    ((Run.final paso r₀ l).setLocalNumNick cptr).1 = true ↔
      ∃ i ≤ ((Run.final paso r₀ l).ficha (Run.final paso r₀ l).me).serv.nnMask,
        ((Run.final paso r₀ l).ficha (Run.final paso r₀ l).me).serv.hueco i = none :=
  (Run.invariant_final (P := Red.Bien) (fun a _ hr ha ↦ hr.paso a ha)
    (Red.Bien.arranca hn h) hl).setLocalNumNick cptr

end

theorem findNUser_corre_uno : ∃ r₀, Red.arranca 0 0 16 = some r₀ ∧
    (Run.final paso r₀ (redDePrueba.take 4)).findNUser
      (((Run.final paso r₀ (redDePrueba.take 4)).ficha 2).yxx ++
        ((Run.final paso r₀ (redDePrueba.take 4)).ficha 3).yxx) = some 3 := by
  refine ⟨_, rfl, findNUser_corre (by decide : 0 < 4096) (rfl : Red.arranca 0 0 16 = some _) ?_
    3 2 (by decide) (by decide)⟩
  exact ⟨by decide, by decide, by decide, by decide, trivial⟩

theorem findNUser_vivo_uno : ∃ r₀, Red.arranca 0 0 16 = some r₀ ∧
    3 ∈ (Run.final paso r₀ (redDePrueba.take 4)).client ∧
      ∃ s ∈ (Run.final paso r₀ (redDePrueba.take 4)).client,
        ((Run.final paso r₀ (redDePrueba.take 4)).ficha 3).user = some s := by
  refine ⟨_, rfl, findNUser_vivo (by decide : 0 < 4096) (rfl : Red.arranca 0 0 16 = some _) ?_
    "CAA".toList 3 (by decide)⟩
  exact ⟨by decide, by decide, by decide, by decide, trivial⟩

theorem setLocalNumNick_corre_uno : ∃ r₀, Red.arranca 0 0 16 = some r₀ ∧
    (((Run.final paso r₀ [.conecta 1, .nick 1, .conecta 2]).setLocalNumNick 2).1 = true ↔
      ∃ i ≤ ((Run.final paso r₀ [.conecta 1, .nick 1, .conecta 2]).ficha
          (Run.final paso r₀ [.conecta 1, .nick 1, .conecta 2]).me).serv.nnMask,
        ((Run.final paso r₀ [.conecta 1, .nick 1, .conecta 2]).ficha
          (Run.final paso r₀ [.conecta 1, .nick 1, .conecta 2]).me).serv.hueco i = none) := by
  refine ⟨_, rfl, setLocalNumNick_corre (by decide : 0 < 4096)
    (rfl : Red.arranca 0 0 16 = some _) ?_ 2⟩
  exact ⟨by decide, by decide, by decide, trivial⟩

end Ircd.Net
