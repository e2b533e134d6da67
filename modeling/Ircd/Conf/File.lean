import Ircd.Conf.Lines

/-!
# A file and the state before it

`ClasesBien` and `PuertosBien` say what a file has to be like for the state in which it is read.
`checkClass_punteros` says that then the classes that `check_class` frees are of no entry that
stays, and `oyentes_legales` that all sockets keep their entries.
-/

namespace Ircd.Conf

open CString Hash Pins

namespace Estado

variable {s s' s₁ : Estado} {cruleParse : Option CStr → Option CStr} {abre : ConfItem → Bool}

/-! ## Before the file -/

/-- Counters stay right when entries that nobody has are freed. -/
theorem Cuentas.congr (h : Cuentas s) (hconfs : s'.confs = s.confs)
    (hitem : ∀ e a, s'.item e = some a → ∃ a₀, s.item e = some a₀ ∧ a.clients = a₀.clients ∧
      a.tipo = a₀.tipo ∧ a.confClass = a₀.confClass)
    (hvivos : ∀ p ∈ s.confs, s'.item p.2 ≠ none)
    (hclase : ∀ c cl, s'.clase c = some cl → ∃ cl₀, s.clase c = some cl₀ ∧ cl.links = cl₀.links) :
    Cuentas s' := by
  have hdatos : ∀ p ∈ s.confs, ∃ a a₀, s'.item p.2 = some a ∧ s.item p.2 = some a₀ ∧
      a.tipo = a₀.tipo ∧ a.confClass = a₀.confClass := by
    intro p hp
    obtain ⟨a, ha⟩ := Option.ne_none_iff_exists'.mp (hvivos p hp)
    obtain ⟨a₀, ha₀, -, htipo, hclass⟩ := hitem _ a ha
    exact ⟨a, a₀, ha, ha₀, htipo, hclass⟩
  refine ⟨hconfs ▸ h.nodup, hconfs ▸ h.locales, fun e a ha ↦ ?_, fun c cl hcl ↦ ?_, ?_⟩
  · obtain ⟨a₀, ha₀, hclients, -⟩ := hitem e a ha
    rw [hconfs, hclients, h.clientes e a₀ ha₀]
  · obtain ⟨cl₀, hcl₀, hlinks⟩ := hclase c cl hcl
    rw [hconfs, hlinks, h.enlaces c cl₀ hcl₀]
    refine congrArg _ (weight_congr fun p hp ↦ ?_)
    obtain ⟨a, a₀, ha, ha₀, htipo, hclass⟩ := hdatos p hp
    rw [pesa, pesa, ha, ha₀, Option.any_some, Option.any_some, htipo, hclass]
  · have hmasc : ∀ p ∈ s.confs, s'.enMascara p.2 = s.enMascara p.2 := by
      intro p hp
      obtain ⟨a, a₀, ha, ha₀, htipo, -⟩ := hdatos p hp
      rw [enMascara, enMascara, ha, ha₀, Option.any_some, Option.any_some, htipo]
    rw [hconfs, weight_congr hmasc]
    exact h.pocos

/-- What is left of an entry when the rehash begins. -/
theorem marca_item {e : Nat} {a : ConfItem} (ha : s.marca.item e = some a) :
    ∃ a₀, s.item e = some a₀ ∧ (e ∉ s.conf ∧ a = a₀ ∨ e ∈ s.conf ∧
      (a₀.clients ≠ 0#32 ∨ a₀.tipo = .listenPort) ∧ a = { a₀ with illegal := true }) := by
  by_cases he : e ∈ s.conf
  · simp only [marca, if_pos he, Option.bind_eq_some_iff] at ha
    obtain ⟨a₀, ha₀, hsome⟩ := ha
    split at hsome
    · next hcond => exact ⟨a₀, ha₀, .inr ⟨he, hcond, (Option.some.inj hsome).symm⟩⟩
    · cases hsome
  · simp only [marca, if_neg he] at ha
    exact ⟨a, ha, .inl ⟨he, rfl⟩⟩

theorem mem_marca_conf {e : Nat} : e ∈ s.marca.conf ↔ e ∈ s.conf ∧ ∃ a, s.item e = some a ∧
    (a.tipo = .listenPort ∨ a.tipo = .client ∧ a.clients ≠ 0#32) := by
  simp [marca, Option.any_eq_true]

/-- An entry that stays in the list. -/
theorem marca_item_of_mem {e : Nat} {a : ConfItem} (he : e ∈ s.marca.conf)
    (ha : s.item e = some a) : s.marca.item e = some { a with illegal := true } := by
  obtain ⟨hmem, b, hb, hcond⟩ := mem_marca_conf.mp he
  obtain rfl := Option.some.inj (ha.symm.trans hb)
  have hsome : a.clients ≠ 0#32 ∨ a.tipo = .listenPort := by tauto
  simp only [marca, if_pos hmem, ha, Option.bind_some, if_pos hsome]

/-- Entries that somebody has are not freed. -/
theorem Cuentas.marca_item_ne_none (h : Cuentas s) (hf : Forma s) {p : Nat × Nat}
    (hp : p ∈ s.confs) : s.marca.item p.2 ≠ none := by
  obtain ⟨a, ha⟩ := Option.ne_none_iff_exists'.mp (hf.enConfs p hp)
  by_cases he : p.2 ∈ s.conf
  · have hne : a.clients ≠ 0#32 := fun hcero ↦ (h.clients_eq_zero ha).mp hcero p.1 hp
    simp [marca, he, ha, hne]
  · simp [marca, he, ha]

theorem Cuentas.marca (h : Cuentas s) (hf : Forma s) : Cuentas s.marca := by
  refine h.congr rfl (fun e a ha ↦ ?_) (fun p hp ↦ h.marca_item_ne_none hf hp) fun c cl hcl ↦ ?_
  · obtain ⟨a₀, ha₀, ⟨-, rfl⟩ | ⟨-, -, rfl⟩⟩ := marca_item ha
    · exact ⟨a, ha₀, rfl, rfl, rfl⟩
    · exact ⟨a₀, ha₀, rfl, rfl, rfl⟩
  · simp only [Estado.marca] at hcl
    split at hcl
    · obtain ⟨cl₀, hcl₀, rfl⟩ := Option.map_eq_some_iff.mp hcl
      exact ⟨cl₀, hcl₀, rfl⟩
    · exact ⟨cl, hcl, rfl⟩

theorem Lista.marca (h : Lista s) : Lista s.marca := by
  refine h.congr (fun c ↦ ?_) rfl (fun _ ↦ id) rfl
  simp only [Estado.marca]
  split
  · cases s.clase c <;> rfl
  · rfl

theorem Forma.marca (h : Forma s) (hc : Cuentas s) : Forma s.marca := by
  have hitem : ∀ e a, s.marca.item e = some a → ∃ a₀, s.item e = some a₀ ∧ a.tipo = a₀.tipo ∧
      a.port = a₀.port ∧ a.confClass = a₀.confClass ∧ (a₀.colapsa = a₀ → a.colapsa = a) := by
    intro e a ha
    obtain ⟨a₀, ha₀, ⟨-, rfl⟩ | ⟨-, -, rfl⟩⟩ := marca_item ha
    · exact ⟨a, ha₀, rfl, rfl, rfl, id⟩
    · refine ⟨a₀, ha₀, rfl, rfl, rfl, fun hcol ↦ ?_⟩
      show { a₀.colapsa with illegal := true } = { a₀ with illegal := true }
      rw [hcol]
  constructor
  · intro e he
    have hnone : s.item e = none := h.frescas e he
    simp [Estado.marca, hnone]
  · intro e he
    obtain ⟨a, ha⟩ := Option.ne_none_iff_exists'.mp (h.enLista e (mem_marca_conf.mp he).1)
    rw [marca_item_of_mem he ha]
    exact Option.some_ne_none _
  · exact fun p hp ↦ hc.marca_item_ne_none h hp
  · exact h.nodup.filter _
  · intro e a ha hno
    obtain ⟨a₀, ha₀, ⟨hold, rfl⟩ | ⟨hold, hcond, rfl⟩⟩ := marca_item ha
    · exact h.enUso e a ha₀ hold
    · refine ⟨rfl, ?_⟩
      -- it has left the list because of its kind
      have hclients : a₀.clients ≠ 0#32 := by
        refine hcond.resolve_right fun hlisten ↦ hno ?_
        exact mem_marca_conf.mpr ⟨hold, a₀, ha₀, .inl hlisten⟩
      by_contra hnadie
      exact hclients ((hc.clients_eq_zero ha₀).mpr (not_exists.mp hnadie))
  · intro e a ha
    obtain ⟨a₀, ha₀, htipo, -, hclass, -⟩ := hitem e a ha
    rw [htipo, hclass]
    exact h.conClase e a₀ ha₀
  · intro e a c ha
    obtain ⟨a₀, ha₀, -, -, hclass, -⟩ := hitem e a ha
    rw [hclass]
    exact h.referidas e a₀ c ha₀
  · intro p hp a ha
    obtain ⟨a₀, ha₀, htipo, -⟩ := hitem _ a ha
    rw [htipo]
    exact h.sinPuertos p hp a₀ ha₀
  · intro o ho
    obtain ⟨hmem, htipo⟩ := h.oyentes o ho
    obtain ⟨a, ha⟩ := Option.ne_none_iff_exists'.mp (h.enLista o hmem)
    refine ⟨mem_marca_conf.mpr ⟨hmem, a, ha, .inl (htipo a ha)⟩, fun b hb ↦ ?_⟩
    obtain ⟨b₀, hb₀, heq, -⟩ := hitem o b hb
    rw [heq]
    exact htipo b₀ hb₀
  · intro o ho o' ho' a a' ha ha' hport
    obtain ⟨a₀, ha₀, -, hp, -⟩ := hitem o a ha
    obtain ⟨a₁, ha₁, -, hp', -⟩ := hitem o' a' ha'
    exact h.unPuerto o ho o' ho' a₀ a₁ ha₀ ha₁ (hp.symm.trans (hport.trans hp'))
  · intro e he a ha
    obtain ⟨a₀, ha₀, -, -, -, hcol⟩ := hitem e a ha
    exact hcol (h.plegadas e (mem_marca_conf.mp he).1 a₀ ha₀)

/-! ## What the file has to be like -/

section

variable (cruleParse : Option CStr → Option CStr) (s : Estado) (fichero : List Linea)

/-- A line of the file defines the class. -/
def Define (fichero : List Linea) (n : BitVec 32) : Prop :=
  ∃ l ∈ fichero, l.tipo = some .conClass ∧ l.define = n

/-- A line that is not dropped names the class. The line of a port that is on the list does not. -/
def Nombra (n : BitVec 32) : Prop :=
  ∃ pre l post t, fichero = pre ++ l :: post ∧ l.tipo = some t ∧ t ≠ .conClass ∧ t ≠ .me ∧
    l.numero = some n ∧ desecha cruleParse (cuentaC (cuentaCs pre) l) (l.entrada t none) = false ∧
    (t = .listenPort → s.findConfEntry (l.entrada .listenPort none) = none)

/-- A port of the class stays: it has a socket, or its line is in the file. -/
def GuardaPuerto (c : Nat) : Prop :=
  ∃ e ∈ s.conf, ∃ a, s.item e = some a ∧ a.tipo = .listenPort ∧ a.confClass = some c ∧
    (e ∈ s.oyentes ∨ ∃ l ∈ fichero, l.tipo = some .listenPort ∧
      a.coincide (l.entrada .listenPort none) = true)

/-- A client keeps an entry of the class that does not count in it. -/
def GuardaOtra (servidores : List (Fin MAXCONNECTIONS × CStr)) (c : Nat) : Prop :=
  ∃ p ∈ s.confs, ∃ a, s.item p.2 = some a ∧ a.tipo.clientMask = false ∧ a.confClass = some c ∧
    ¬(a.tipo.deServidor = true ∧ ∃ q ∈ servidores, q.1.val = p.1)

/-- A client keeps an entry that counts in the class: no line of the file with the fields of the
entry gives it another class. -/
def Enlazada (c : Nat) (n : BitVec 32) : Prop :=
  ∃ p ∈ s.confs, ∃ a, s.item p.2 = some a ∧ a.tipo.clientMask = true ∧ a.confClass = some c ∧
    (a.tipo = .client → p.2 ∈ s.conf → ∀ l ∈ fichero, l.tipo = some .client →
      a.parecida (l.entrada .client none) = true → l.numero = some n)

/-- Every class of the list that the file does not define keeps its counter above zero, or nothing
that stays is of it. -/
def ClasesBien (servidores : List (Fin MAXCONNECTIONS × CStr)) : Prop :=
  ∀ c ∈ s.siguientes, ∀ cl, s.clase c = some cl → ¬Define fichero cl.conClass →
    Enlazada s fichero c cl.conClass ∨ ¬(Nombra cruleParse s fichero cl.conClass ∨
      GuardaPuerto s fichero c ∨ GuardaOtra s servidores c)

/-- Every socket that listens has a line of the file with its port, which is not that of another
entry. -/
def PuertosBien : Prop :=
  ∀ o ∈ s.oyentes, ∀ a, s.item o = some a → ∃ l ∈ fichero, l.tipo = some .listenPort ∧
    l.puerto = a.port ∧ ∀ e ∈ s.conf, e ≠ o → ∀ b, s.item e = some b →
      b.coincide (l.entrada .listenPort none) = false

end

/-! ## Behind the file -/

section

variable {fichero : List Linea} {servidores : List (Fin MAXCONNECTIONS × CStr)}

/-- The entries that stay in the list have kept their fields. -/
theorem Lectura.vieja {pre : List Linea} (h : Lectura s.marca pre s') {e : Nat}
    (he : e ∈ s.marca.conf) {a : ConfItem} (ha : s.item e = some a) :
    e ∈ s'.conf ∧ ∃ a', s'.item e = some a' ∧ Quedo { a with illegal := true } a' :=
  h.viejas e he _ (marca_item_of_mem he ha)

theorem marca_conf_tipo : ∀ e ∈ s.marca.conf, ∀ a, s.marca.item e = some a →
    a.tipo = .client ∨ a.tipo = .listenPort := by
  intro e he a ha
  obtain ⟨-, b, hb, hcond⟩ := mem_marca_conf.mp he
  rw [marca_item_of_mem he hb] at ha
  rw [← Option.some.inj ha]
  exact hcond.symm.imp And.left id

/-- The invariant behind the loop. -/
theorem lectura_lee (hc : Cuentas s) (hf : Forma s) (hl : Lista s)
    (h : s.marca.lee cruleParse abre 0 fichero = some s') : Lectura s.marca fichero s' := by
  refine lee_induction (I := Lectura s.marca) (fun pre l post s₁ s₂ _ hI hs ↦ ?_)
    (Lectura.inicio (hc.marca hf) (hf.marca hc) hl.marca) h
  exact hI.efecto (hf.marca hc) marca_conf_tipo hs

/-- Sockets keep their entries. -/
theorem oyentes_legales (hc : Cuentas s) (hf : Forma s) (hl : Lista s) (hp : PuertosBien s fichero)
    (h : s.marca.lee cruleParse abre 0 fichero = some s') :
    ∀ o ∈ s'.oyentes, ∀ a, s'.item o = some a → a.illegal = false := by
  have hlee := lectura_lee hc hf hl h
  intro o ho a ha
  by_cases hold : o ∈ s.marca.oyentes
  swap
  · exact (hlee.nuevas o (hlee.forma.oyentes o ho).1 (hlee.oyentesNuevos o ho hold)).2 a ha
  have hmem : o ∈ s.conf := (hf.oyentes o hold).1
  obtain ⟨a₀, ha₀⟩ := Option.ne_none_iff_exists'.mp (hf.enLista o hmem)
  obtain ⟨m, hm, htipo, hport, hotra⟩ := hp o hold a₀ ha₀
  have hmarca : o ∈ s.marca.conf :=
    mem_marca_conf.mpr ⟨hmem, a₀, ha₀, .inl ((hf.oyentes o hold).2 a₀ ha₀)⟩
  -- the entries of the file with that port were read after the socket got its entry back
  let I : List Linea → Estado → Prop := fun pre s' ↦ Lectura s.marca pre s' ∧
    (∀ d b, s'.item d = some b → s.marca.nextItem ≤ d → b.tipo = .listenPort → b.port = a₀.port →
      ∀ a, s'.item o = some a → a.illegal = false) ∧
    (m ∈ pre → ∀ a, s'.item o = some a → a.illegal = false)
  have hI : I fichero s' := by
    refine lee_induction (I := I) ?_ ⟨Lectura.inicio (hc.marca hf) (hf.marca hc) hl.marca,
      fun d b hb hd ↦ ?_, fun hm ↦ ?_⟩ h
    · rintro pre l post s₁ s₂ hsplit ⟨hI, hnuevas, hleida⟩ hs
      have hI' := hI.efecto (hf.marca hc) marca_conf_tipo hs
      obtain ⟨-, a₁, ha₁, hq⟩ := hI.vieja hmarca ha₀
      have hoy : o ∈ s₁.oyentes := hI.oyentes o hold
      have hsigue : (∀ a, s₁.item o = some a → a.illegal = false) →
          ∀ a, s₂.item o = some a → a.illegal = false :=
        fun hlegal a ha ↦ (hs.cambio ha).legal_of_legal hlegal
      -- the line of a port with this number, when it is not that of another entry
      have hlinea : l.tipo = some .listenPort → l.puerto = a₀.port →
          (∀ e, s₁.findConfEntry (l.entrada .listenPort none) = some e → e = o) →
          ∀ a, s₂.item o = some a → a.illegal = false :=
        fun hlt hlp hno a ha ↦ hs.legal hI.forma hlt hoy ha₁ (hq.port.trans hlp.symm) hno ha
      refine ⟨hI', fun d b hb hd hbt hbp ↦ ?_, fun hmp ↦ ?_⟩
      · cases hs.cambio hb with
        | igual _ hb₁ => exact hsigue (hnuevas d b hb₁ hd hbt hbp)
        | nueva t _ hdn hlt ht hqueda hill hclase hporte hno =>
            obtain ⟨rfl, hbport⟩ := hporte hbt
            refine hlinea hlt (hbport.symm.trans hbp) fun e he ↦ ?_
            rw [hno rfl] at he
            cases he
        | legal b₁ hb₁ hdo => exact hsigue (hnuevas d b₁ hb₁ hd hbt hbp)
        | usada t b₁ hlt ht hfind hb₁ =>
            rw [ConfItem.reutilizado_tipo] at hbt
            rw [ConfItem.reutilizado_port] at hbp
            exact hsigue (hnuevas d b₁ hb₁ hd hbt hbp)
      · rcases List.mem_append.mp hmp with hmp | hmp
        · exact hsigue (hleida hmp)
        obtain rfl := List.mem_singleton.mp hmp
        by_cases hno : ∀ e, s₁.findConfEntry (m.entrada .listenPort none) = some e → e = o
        · exact hlinea htipo hport hno
        -- another entry of the file has the port
        obtain ⟨e, hno⟩ := not_forall.mp hno
        obtain ⟨he, hne⟩ := Classical.not_imp.mp hno
        obtain ⟨hemem, b, hb, hcoin⟩ := mem_of_findConfEntry he
        have hbt : b.tipo = .listenPort := ConfItem.tipo_of_coincide hcoin
        have hbp : b.port = a₀.port := (ConfItem.port_of_coincide hcoin).trans hport
        by_cases hemarca : e ∈ s.marca.conf
        · obtain ⟨hes, b₀, hb₀, -⟩ := mem_marca_conf.mp hemarca
          obtain ⟨-, b', hb', hqb⟩ := hI.vieja hemarca hb₀
          obtain rfl := Option.some.inj (hb.symm.trans hb')
          rw [hqb.coincide (hqb.tipo.symm.trans hbt)] at hcoin
          exact Bool.noConfusion (hcoin.symm.trans (hotra e hes hne b₀ hb₀))
        · exact hsigue (hnuevas e b hb (hI.nuevas e hemem hemarca).1 hbt hbp)
    · rw [(hf.marca hc).frescas d hd] at hb
      cases hb
    · cases hm
  exact hI.2.2 hm a ha

/-- The class of an entry that was given by a line is named. -/
theorem nombra_of_claseDe {pre post : List Linea} {l : Linea} {t : Tipo} {c : Nat} {cl : ConfClass}
    (hlee : Lectura s.marca pre s') (hc : c ∈ s.siguientes)
    (hcl : s.clase c = some cl) (hno : ¬Define fichero cl.conClass)
    (hsplit : fichero = pre ++ l :: post) (hl : l.tipo = some t) (ht : t ≠ .conClass)
    (hqueda : desecha cruleParse (cuentaC (cuentaCs pre) l) (l.entrada t none) = false)
    (hport : t = .listenPort → s'.findConfEntry (l.entrada .listenPort none) = none)
    (hclase : s'.claseDe l t = some c) : Nombra cruleParse s fichero cl.conClass := by
  have hpre : ∀ m ∈ pre, m.tipo = some .conClass → m.define ≠ cl.conClass := by
    intro m hm htipo heq
    exact hno ⟨m, by rw [hsplit]; exact List.mem_append_left _ hm, htipo, heq⟩
  have hmarca : s.marca.clase c = some { cl with maxLinks := BitVec.allOnes 32 } := by
    simp [marca, hc, hcl]
  obtain ⟨hc', cl', hcl', hnum⟩ := hlee.pendientes c hc _ hmarca hpre
  obtain ⟨hme, hnumero⟩ := hlee.lista.numero_of_claseDe hc' hcl' hclase
  refine ⟨pre, l, post, t, hsplit, hl, ht, hme, hnumero.trans (by rw [hnum]), hqueda, fun htp ↦ ?_⟩
  -- a port that is on the list before the file is also there now
  rw [findConfEntry_eq_none]
  intro e he b hb
  by_contra hcoin
  rw [Bool.not_eq_false] at hcoin
  have hbt : b.tipo = .listenPort := ConfItem.tipo_of_coincide hcoin
  obtain ⟨he', b', hb', hq⟩ := hlee.vieja (mem_marca_conf.mpr ⟨he, b, hb, .inl hbt⟩) hb
  have hfalse := findConfEntry_eq_none.mp (hport htp) e he' b' hb'
  rw [hq.coincide hbt] at hfalse
  exact Bool.noConfusion (hfalse.symm.trans hcoin)

/-- A class that nothing names, and no port keeps, is of no entry that is not illegal. -/
theorem nadie_de (hc : Cuentas s) (hf : Forma s) (hl : Lista s) {c : Nat} {cl : ConfClass}
    (hmem : c ∈ s.siguientes) (hcl : s.clase c = some cl) (hno : ¬Define fichero cl.conClass)
    (hnombra : ¬Nombra cruleParse s fichero cl.conClass) (hpuerto : ¬GuardaPuerto s fichero c)
    (h : s.marca.lee cruleParse abre 0 fichero = some s') :
    ∀ e a, s'.item e = some a → a.illegal = false → a.confClass ≠ some c := by
  let I : List Linea → Estado → Prop := fun pre s' ↦ Lectura s.marca pre s' ∧
    ∀ e a, s'.item e = some a → a.illegal = false → a.confClass ≠ some c
  have hI : I fichero s' := by
    refine lee_induction (I := I) ?_ ⟨Lectura.inicio (hc.marca hf) (hf.marca hc) hl.marca,
      fun e a ha hill ↦ ?_⟩ h
    · rintro pre l post s₁ s₂ hsplit ⟨hI, hnadie⟩ hs
      refine ⟨hI.efecto (hf.marca hc) marca_conf_tipo hs, fun d a ha hill hclass ↦ ?_⟩
      have hdada : ∀ t, l.tipo = some t → t ≠ .conClass →
          desecha cruleParse (cuentaC (cuentaCs pre) l) (l.entrada t none) = false →
          (t = .listenPort → s₁.findConfEntry (l.entrada .listenPort none) = none) →
          s₁.claseDe l t ≠ some c := fun t hlt ht hqueda hport hde ↦
        hnombra (nombra_of_claseDe hI hmem hcl hno hsplit hlt ht hqueda hport hde)
      -- an illegal entry of the list is as it was
      have hilegal : ∀ b, s₁.item d = some b → d ∈ s₁.conf → b.illegal = true →
          d ∈ s.conf ∧ ∃ b₀, s.item d = some b₀ ∧ b = { b₀ with illegal := true } := by
        intro b hb hd hb'
        by_cases hdm : d ∈ s.marca.conf
        · obtain ⟨hds, b₀, hb₀, -⟩ := mem_marca_conf.mp hdm
          obtain ⟨-, b₁, hb₁, hq⟩ := hI.vieja hdm hb₀
          obtain rfl := Option.some.inj (hb.symm.trans hb₁)
          exact ⟨hds, b₀, hb₀, hq.ilegal hb'⟩
        · rw [(hI.nuevas d hd hdm).2 b hb] at hb'
          cases hb'
      cases hs.cambio ha with
      | igual _ ha₁ => exact hnadie d a ha₁ hill hclass
      | nueva t _ hdn hlt ht hqueda hill' hclase hporte hno' =>
          exact hdada t hlt ht hqueda hno' (hclase.symm.trans hclass)
      | legal b hb hdo =>
          by_cases hb' : b.illegal = true
          swap
          · exact hnadie d b hb (by simpa using hb') hclass
          have hdc := (hI.forma.oyentes d hdo).1
          obtain ⟨hds, b₀, hb₀, rfl⟩ := hilegal b hb hdc hb'
          have hdv : d ∈ s.oyentes := by
            by_contra hnuevo
            refine hI.oyentesNuevos d hdo hnuevo (mem_marca_conf.mpr ⟨hds, b₀, hb₀, .inl ?_⟩)
            have htipo := (hI.forma.oyentes d hdo).2 _ hb
            exact htipo
          exact hpuerto ⟨d, hds, b₀, hb₀, (hf.oyentes d hdv).2 b₀ hb₀, hclass, .inl hdv⟩
      | usada t b hlt ht hfind hb =>
          obtain ⟨hdc, b', hb', hcoin⟩ := mem_of_findConfEntry hfind
          obtain rfl := Option.some.inj (hb.symm.trans hb')
          rw [ConfItem.reutilizado_confClass] at hclass
          by_cases htp : t = .listenPort
          · subst htp
            rw [Linea.entrada_tipo, if_pos rfl] at hclass
            by_cases hbi : b.illegal = true
            swap
            · exact hnadie d b hb (by simpa using hbi) hclass
            obtain ⟨hds, b₀, hb₀, rfl⟩ := hilegal b hb hdc hbi
            refine hpuerto ⟨d, hds, b₀, hb₀, ConfItem.tipo_of_coincide hcoin, hclass,
              .inr ⟨l, ?_, hlt, hcoin⟩⟩
            rw [hsplit]
            exact List.mem_append_right _ List.mem_cons_self
          · rw [Linea.entrada_tipo, if_neg htp] at hclass
            refine hdada t hlt ?_ ?_ (fun h ↦ absurd h htp) hclass
            · rintro rfl
              rcases ht with ht | ht | ht <;> cases ht
            · rcases ht with rfl | rfl | rfl <;> rfl
    · -- at first all entries are illegal
      obtain ⟨a₀, ha₀, ⟨hne, rfl⟩ | ⟨-, -, rfl⟩⟩ := marca_item ha
      · rw [(hf.enUso e a ha₀ hne).1] at hill
        cases hill
      · cases hill
  exact hI.2

/-- A class that stays linked has an entry that counts in it. -/
theorem enlazada_lee (hc : Cuentas s) (hf : Forma s) (hl : Lista s) {c : Nat} {cl : ConfClass}
    (hmem : c ∈ s.siguientes) (hcl : s.clase c = some cl) (hno : ¬Define fichero cl.conClass)
    (henl : Enlazada s fichero c cl.conClass)
    (h : s.marca.lee cruleParse abre 0 fichero = some s') :
    ∃ p ∈ s'.confs, s'.pesa c p.2 = true := by
  obtain ⟨p, hp, a₀, ha₀, hmask, hclass, hsigue⟩ := henl
  have hlee := lectura_lee hc hf hl h
  refine ⟨p, hlee.confs ▸ hp, ?_⟩
  by_cases hold : p.2 ∈ s.marca.conf
  swap
  · obtain ⟨a₁, ha₁⟩ := Option.ne_none_iff_exists'.mp (hc.marca_item_ne_none hf hp)
    refine pesa_iff.mpr ⟨a₁, hlee.fuera _ _ ha₁ hold, ?_⟩
    obtain ⟨b, hb, ⟨-, rfl⟩ | ⟨-, -, rfl⟩⟩ := marca_item ha₁ <;>
      obtain rfl := Option.some.inj (ha₀.symm.trans hb) <;> exact ⟨hmask, hclass⟩
  obtain ⟨hps, b, hb, hcond⟩ := mem_marca_conf.mp hold
  obtain rfl := Option.some.inj (ha₀.symm.trans hb)
  have hclient : a₀.tipo = .client := (hcond.resolve_left (hf.sinPuertos p hp a₀ ha₀)).1
  let I : List Linea → Estado → Prop := fun pre s' ↦ Lectura s.marca pre s' ∧
    ∀ a, s'.item p.2 = some a → a.confClass = some c
  have hI : I fichero s' := by
    refine lee_induction (I := I) ?_ ⟨Lectura.inicio (hc.marca hf) (hf.marca hc) hl.marca,
      fun a ha ↦ ?_⟩ h
    · rintro pre l post s₁ s₂ hsplit ⟨hI, hclase⟩ hs
      refine ⟨hI.efecto (hf.marca hc) marca_conf_tipo hs, fun a ha ↦ ?_⟩
      obtain ⟨-, a₁, ha₁, hq⟩ := hI.vieja hold ha₀
      cases hs.cambio ha with
      | igual _ ha' => exact hclase a ha'
      | nueva t _ hdn hlt ht hqueda hill' hde hporte hno' =>
          rw [hdn, hI.forma.frescas _ le_rfl] at ha₁
          cases ha₁
      | legal b hb hdo => exact hclase b hb
      | usada t b hlt ht hfind hb =>
          obtain ⟨-, b', hb', hcoin⟩ := mem_of_findConfEntry hfind
          obtain rfl := Option.some.inj (hb.symm.trans hb')
          obtain rfl := Option.some.inj (hb.symm.trans ha₁)
          obtain rfl : t = .client :=
            (ConfItem.tipo_of_coincide hcoin).symm.trans (hq.tipo.trans hclient)
          have hpar : a₀.parecida (l.entrada .client none) = true := by
            have := ConfItem.parecida_of_coincide hcoin
            rwa [hq.parecida] at this
          have hlmem : l ∈ fichero := by
            rw [hsplit]
            exact List.mem_append_right _ List.mem_cons_self
          have hnumero := hsigue hclient hps l hlmem hlt hpar
          have hmarca : s.marca.clase c = some { cl with maxLinks := BitVec.allOnes 32 } := by
            simp [marca, hmem, hcl]
          have hpre : ∀ m ∈ pre, m.tipo = some .conClass → m.define ≠ cl.conClass := by
            intro m hm htipo heq
            exact hno ⟨m, by rw [hsplit]; exact List.mem_append_left _ hm, htipo, heq⟩
          obtain ⟨hc', cl', hcl', hnum⟩ := hI.pendientes c hmem _ hmarca hpre
          rw [ConfItem.reutilizado_confClass, Linea.entrada_tipo, if_neg (by decide)]
          exact hI.lista.claseDe_of_numero hc' hcl' (show Tipo.client ≠ .me by decide)
            (hnumero.trans (by rw [hnum]))
    · rw [marca_item_of_mem hold ha₀] at ha
      rw [← Option.some.inj ha]
      exact hclass
  obtain ⟨-, a, ha, hq⟩ := hlee.vieja hold ha₀
  exact pesa_iff.mpr ⟨a, ha, by rw [hq.tipo]; exact hmask, hI.2 a ha⟩

/-- No entry points to freed memory. -/
def Punteros (s : Estado) : Prop :=
  ∀ e a c, s.item e = some a → a.confClass = some c → s.clase c ≠ none

/-- Lines free no class. -/
theorem Efecto.clase_ne_none {ccount : Nat} {l : Linea} (h : Efecto cruleParse abre ccount l s s')
    (hl : Lista s) {c : Nat} (hc : s.clase c ≠ none) : s'.clase c ≠ none := by
  cases h with
  | nada _ _ => exact hc
  | clase _ ping confreq sendq =>
      obtain ⟨-, heq⟩ | ⟨d, -, cl₀, -, -, heq⟩ :=
        hl.addClass_cases l.define ping confreq l.puerto sendq <;> rw [heq] <;>
        simp only [Function.update_apply] <;> split <;>
        first | exact hc | exact Option.some_ne_none _
  | nueva t _ _ _ a _ => exact hc
  | puerto _ _ =>
      obtain ⟨o, -, b, -, -, heq⟩ | ⟨-, heq | heq⟩ := metePuerto_cases abre
        (l.entrada .listenPort (s.claseDe l .listenPort)).conFlags s <;> rw [heq] <;> exact hc
  | usada t _ _ e b _ hb _ hs =>
      obtain rfl := reutiliza_eq hb hs
      show (s.clase c).map _ ≠ none
      rwa [ne_eq, Option.map_eq_none_iff]

theorem punteros_lee (hc : Cuentas s) (hf : Forma s) (hl : Lista s) (hp : Punteros s)
    (h : s.marca.lee cruleParse abre 0 fichero = some s') : Punteros s' := by
  let I : List Linea → Estado → Prop := fun pre s' ↦ Lectura s.marca pre s' ∧ Punteros s'
  have hI : I fichero s' := by
    refine lee_induction (I := I) ?_ ⟨Lectura.inicio (hc.marca hf) (hf.marca hc) hl.marca,
      fun e a c ha hclass ↦ ?_⟩ h
    · rintro pre l post s₁ s₂ hsplit ⟨hI, hpun⟩ hs
      refine ⟨hI.efecto (hf.marca hc) marca_conf_tipo hs, fun d a c ha hclass ↦ ?_⟩
      refine hs.clase_ne_none hI.lista ?_
      have hdada : ∀ t, s₁.claseDe l t = some c → s₁.clase c ≠ none := by
        intro t hde
        have hfind : ∀ n, s₁.clase (s₁.findClass n) ≠ none := by
          intro n
          obtain ⟨-, cl, hcl, -⟩ := hI.lista.findClass n
          simp [hcl]
        obtain ⟨n, -, -, rfl⟩ | rfl := claseDe_cases hde <;> exact hfind _
      cases hs.cambio ha with
      | igual _ ha' => exact hpun d a c ha' hclass
      | nueva t _ hdn hlt ht hqueda hill' hde hporte hno' => exact hdada t (hde.symm.trans hclass)
      | legal b hb hdo => exact hpun d b c hb hclass
      | usada t b hlt ht hfind hb =>
          rw [ConfItem.reutilizado_confClass] at hclass
          split at hclass
          · exact hpun d b c hb hclass
          · exact hdada t hclass
    · have hclase : ∀ c, s.clase c ≠ none → s.marca.clase c ≠ none := by
        intro c hc
        simp only [marca]
        split
        · rwa [ne_eq, Option.map_eq_none_iff]
        · exact hc
      obtain ⟨a₀, ha₀, ⟨-, rfl⟩ | ⟨-, -, rfl⟩⟩ := marca_item ha
      · exact hclase c (hp e a c ha₀ hclass)
      · exact hclase c (hp e a₀ c ha₀ hclass)
  exact hI.2

/-! ## Classes that are freed -/

theorem Cuentas.checkClass (h : Cuentas s) (hf : Forma s) : Cuentas s.checkClass := by
  refine h.congr rfl (fun e a ha ↦ ⟨a, ha, rfl, rfl, rfl⟩) hf.enConfs fun c cl hcl ↦ ?_
  simp only [Estado.checkClass] at hcl
  split at hcl
  · cases hcl
  · exact ⟨cl, hcl, rfl⟩

/-- A class that `check_class` leaves in the list is not freed. -/
theorem checkClass_clase {c : Nat} (hc : c ∉ s.siguientes ∨ c ∈ s.checkClass.siguientes) :
    s.checkClass.clase c = s.clase c := by
  simp only [checkClass]
  refine if_neg fun hcond ↦ ?_
  rcases hc with hc | hc
  · exact hc hcond.1
  · have hmarca : (!(s.clase c).any (·.isMarkedDelete)) = true := (List.mem_filter.mp hc).2
    rw [hcond.2.1] at hmarca
    cases hmarca

theorem Lista.checkClass (h : Lista s) : Lista s.checkClass := by
  have hsub : ∀ c ∈ s.checkClass.siguientes, c ∈ s.siguientes :=
    fun c hc ↦ List.mem_of_mem_filter hc
  have hclase : ∀ c ∈ s.classes :: s.checkClass.siguientes, s.checkClass.clase c = s.clase c := by
    intro c hc
    rcases List.mem_cons.mp hc with rfl | hc
    · exact checkClass_clase (.inl fun hmem ↦ (h.otras _ hmem).1 rfl)
    · exact checkClass_clase (.inr hc)
  have hcons : ∀ c ∈ s.classes :: s.checkClass.siguientes, c ∈ s.classes :: s.siguientes := by
    intro c hc
    rcases List.mem_cons.mp hc with rfl | hc
    · exact List.mem_cons_self
    · exact List.mem_cons_of_mem _ (hsub c hc)
  refine ⟨fun c hc ↦ ?_, ?_, fun c hc ↦ ?_, fun c hc c' hc' cl cl' hcl hcl' hnum ↦ ?_⟩
  · simp only [Estado.checkClass]
    split
    · rfl
    · exact h.frescas c hc
  · obtain ⟨cl, hcl, hzero⟩ := h.primera
    exact ⟨cl, (hclase _ List.mem_cons_self).trans hcl, hzero⟩
  · rw [hclase c (List.mem_cons_of_mem _ hc)]
    exact h.otras c (hsub c hc)
  · rw [hclase c hc] at hcl
    rw [hclase c' hc'] at hcl'
    exact h.distintas c (hcons c hc) c' (hcons c' hc') cl cl' hcl hcl' hnum

/-- The classes that are freed are of no entry that stays. -/
theorem checkClass_punteros (hc : Cuentas s) (hf : Forma s) (hl : Lista s) (hp : Punteros s)
    (hclases : ClasesBien cruleParse s fichero servidores)
    (h : s.marca.lee cruleParse abre 0 fichero = some s') :
    ∀ e a c, s'.item e = some a → a.confClass = some c → s'.checkClass.clase c ≠ none ∨
      a.illegal = true ∧ ∀ k, (k, e) ∈ s'.confs → a.tipo.deServidor = true ∧
        ∃ q ∈ servidores, q.1.val = k := by
  have hlee := lectura_lee hc hf hl h
  intro e a c ha hclass
  by_cases hfree : s'.checkClass.clase c = none
  swap
  · exact .inl hfree
  refine .inr ?_
  have hviva := punteros_lee hc hf hl hp h e a c ha hclass
  have hcond : c ∈ s'.siguientes ∧ ((s'.clase c).any (·.isMarkedDelete) = true) ∧
      (s'.clase c).any (·.links = 0#32) = true := by
    by_contra hno
    simp only [checkClass, if_neg hno] at hfree
    exact hviva hfree
  obtain ⟨hmem', hmarca, hlinks⟩ := hcond
  obtain ⟨cl', hcl', hmarcada⟩ := (Option.any_eq_true _ _).mp hmarca
  rw [hcl', Option.any_some, decide_eq_true_eq, hlee.cuentas.links_eq_zero hcl'] at hlinks
  -- it was in the list before, and the file does not define it
  obtain ⟨hmem, ⟨cl₁, hcl₁, hnum⟩, hnodef⟩ := hlee.marcadas c hmem' cl' hcl' hmarcada
  obtain ⟨cl, hcl, hcl₁'⟩ : ∃ cl, s.clase c = some cl ∧ cl.conClass = cl'.conClass := by
    have hmem₀ : c ∈ s.siguientes := hmem
    simp only [marca, if_pos hmem₀] at hcl₁
    obtain ⟨cl, hcl, rfl⟩ := Option.map_eq_some_iff.mp hcl₁
    exact ⟨cl, hcl, hnum⟩
  have hno : ¬Define fichero cl.conClass := by
    rintro ⟨l, hl, htipo, hdef⟩
    exact hnodef l hl htipo (hdef.trans hcl₁')
  rcases hclases c hmem cl hcl hno with henl | hnada
  · obtain ⟨p, hp, hpesa⟩ := enlazada_lee hc hf hl hmem hcl hno henl h
    exact absurd (hlinks p hp) (by simp [hpesa])
  simp only [not_or] at hnada
  refine ⟨?_, fun k hk ↦ ?_⟩
  · by_contra hill
    exact nadie_de hc hf hl hmem hcl hno hnada.1 hnada.2.1 h e a ha (by simpa using hill) hclass
  · have hmask : a.tipo.clientMask = false := by
      by_contra hmask
      rw [Bool.not_eq_false] at hmask
      have hpesa : s'.pesa c e = true := pesa_iff.mpr ⟨a, ha, hmask, hclass⟩
      exact absurd (hlinks _ hk) (by simp [hpesa])
    rw [hlee.confs] at hk
    have hk₀ : (k, e) ∈ s.confs := hk
    obtain ⟨a₁, ha₁⟩ := Option.ne_none_iff_exists'.mp (hc.marca_item_ne_none hf hk₀)
    have hfuera : e ∉ s.marca.conf := by
      intro hmem
      obtain ⟨-, b, hb, hcond⟩ := mem_marca_conf.mp hmem
      obtain ⟨-, a', ha', hq⟩ := hlee.vieja hmem hb
      obtain rfl := Option.some.inj (ha.symm.trans ha')
      have hbt := hcond.resolve_left (hf.sinPuertos _ hk₀ b hb)
      rw [hq.tipo, hbt.1] at hmask
      cases hmask
    obtain rfl := Option.some.inj (ha.symm.trans (hlee.fuera e a₁ ha₁ hfuera))
    obtain ⟨a₀, ha₀, hcaso⟩ := marca_item ha₁
    have hdatos : a₀.tipo = a.tipo ∧ a₀.confClass = a.confClass := by
      rcases hcaso with ⟨-, rfl⟩ | ⟨-, -, rfl⟩ <;> exact ⟨rfl, rfl⟩
    by_contra hotra
    exact hnada.2.2 ⟨_, hk₀, a₀, ha₀, hdatos.1 ▸ hmask, hdatos.2.trans hclass, hdatos.1 ▸ hotra⟩

end

end Estado

end Ircd.Conf
