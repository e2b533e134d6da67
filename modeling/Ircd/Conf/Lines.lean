import Ircd.Conf.Invariant

/-!
# The loop over the lines

`Efecto` lists what a line can do to the state, and `Cambio` what it does to one entry. `Lectura` is
the invariant of the loop of `initconf`: beside the counters it says what is left of the entries and
of the classes that were there before.
-/

namespace Ircd.Conf

open CString Hash Pins

namespace Estado

variable {s s' s₁ : Estado} {cruleParse : Option CStr → Option CStr} {abre : ConfItem → Bool}
  {ccount : Nat} {l : Linea}

/-! ## What a line does -/

/-- The states behind a line. -/
inductive Efecto (cruleParse : Option CStr → Option CStr) (abre : ConfItem → Bool) (ccount : Nat)
    (l : Linea) (s : Estado) : Estado → Prop
  | nada (hl : l.tipo ≠ some .listenPort) (hclase : l.tipo ≠ some .conClass) :
      Efecto cruleParse abre ccount l s s
  | clase (hl : l.tipo = some .conClass) (ping confreq : BitVec 32) (sendq : Int) :
      Efecto cruleParse abre ccount l s (s.addClass l.define ping confreq l.puerto sendq)
  | nueva (t : Tipo) (hl : l.tipo = some t) (ht : t ≠ .conClass ∧ t ≠ .listenPort)
      (hqueda : desecha cruleParse ccount (l.entrada t none) = false) (a : ConfItem)
      (ha : a.tipo = t ∧ a.illegal = false ∧ a.clients = 0#32 ∧ a.confClass = s.claseDe l t) :
      Efecto cruleParse abre ccount l s (s.meteConf a)
  | puerto (hl : l.tipo = some .listenPort)
      (hno : s.findConfEntry (l.entrada .listenPort none) = none) :
      Efecto cruleParse abre ccount l s
        (s.metePuerto abre (l.entrada .listenPort (s.claseDe l .listenPort)).conFlags)
  | usada (t : Tipo) (hl : l.tipo = some t) (ht : t = .client ∨ t = .listenPort ∨ t = .webirc)
      (e : Nat) (b : ConfItem) (hfind : s.findConfEntry (l.entrada t none) = some e)
      (hb : s.item e = some b) (s' : Estado)
      (hs : s.reutiliza e b (l.entrada t (s.claseDe l t)) = some s') :
      Efecto cruleParse abre ccount l s s'

/-- The search does not read the class. -/
theorem findConfEntry_entrada (s : Estado) (l : Linea) (t : Tipo) (c : Option Nat) :
    s.findConfEntry (l.entrada t c) = s.findConfEntry (l.entrada t none) :=
  rfl

theorem desecha_entrada (l : Linea) (t : Tipo) (c : Option Nat) :
    desecha cruleParse ccount (l.entrada t c) = desecha cruleParse ccount (l.entrada t none) :=
  rfl

theorem retoca_datos (a : ConfItem) : (retoca cruleParse a).tipo = a.tipo ∧
    (retoca cruleParse a).illegal = a.illegal ∧ (retoca cruleParse a).clients = a.clients ∧
    (retoca cruleParse a).confClass = a.confClass := by
  unfold retoca
  split <;> exact ⟨rfl, rfl, rfl, rfl⟩

theorem efecto (h : s.leeLinea cruleParse abre ccount l = some s') :
    Efecto cruleParse abre ccount l s s' := by
  unfold leeLinea at h
  cases hl : l.tipo with
  | none =>
      rw [hl, Option.elim_none] at h
      rw [← Option.some.inj h]
      exact .nada (by simp [hl]) (by simp [hl])
  | some t =>
      rw [hl, Option.elim_some] at h
      by_cases hclase : t = .conClass
      · rw [if_pos hclase] at h
        split at h
        · cases h
        · rw [← Option.some.inj h]
          exact .clase (hclase ▸ hl) _ _ _
      rw [if_neg hclase] at h
      simp only at h
      by_cases ht : t = .client ∨ t = .listenPort ∨ t = .webirc
      · rw [if_pos ht, findConfEntry_entrada] at h
        cases hfind : s.findConfEntry (l.entrada t none) with
        | some e =>
            rw [hfind, Option.elim_some] at h
            cases hb : s.item e with
            | none => rw [hb] at h; cases h
            | some b =>
                rw [hb, Option.elim_some] at h
                exact .usada t hl ht e b hfind hb s' h
        | none =>
            rw [hfind, Option.elim_none] at h
            rw [← Option.some.inj h]
            by_cases hport : t = .listenPort
            · subst hport
              rw [if_pos ⟨rfl, by simp [Linea.entrada]⟩]
              exact .puerto hl hfind
            · rw [if_neg fun hand ↦ hport hand.1]
              refine .nueva t hl ⟨hclase, hport⟩ ?_ _ ⟨rfl, rfl, rfl, rfl⟩
              obtain rfl | rfl := ht.imp_right (Or.resolve_left · hport) <;> rfl
      · rw [if_neg ht] at h
        by_cases hter : termina l (l.entrada t (s.claseDe l t)) = true
        · rw [if_pos hter] at h
          cases h
        rw [if_neg hter] at h
        have hport : t ≠ .listenPort := fun hport ↦ ht (.inr (.inl hport))
        by_cases hdes : desecha cruleParse ccount (l.entrada t (s.claseDe l t)) = true
        · rw [if_pos hdes] at h
          rw [← Option.some.inj h]
          exact .nada (by simp [hl, hport]) (by simp [hl, hclase])
        · rw [if_neg hdes] at h
          rw [← Option.some.inj h]
          refine .nueva t hl ⟨hclase, hport⟩ (by simpa [desecha_entrada] using hdes) _ ?_
          obtain ⟨h₁, h₂, h₃, h₄⟩ := retoca_datos (l.entrada t (s.claseDe l t))
          exact ⟨h₁, h₂, h₃, h₄⟩

/-! ## Classes -/

namespace Lista

variable {c : Nat} {cl : ConfClass} {t : Tipo}

theorem lt_nextClase (h : Lista s) (hcl : s.clase c = some cl) : c < s.nextClase := by
  by_contra hlt
  rw [h.frescas c (not_lt.mp hlt)] at hcl
  cases hcl

end Lista

/-- The class of a line is found by its number, or it is the one of number 0. -/
theorem claseDe_cases {c : Nat} {t : Tipo} (hc : s.claseDe l t = some c) :
    (∃ n, t ≠ .me ∧ l.numero = some n ∧ s.findClass n = c) ∨ s.findClass 0#32 = c := by
  unfold claseDe at hc
  by_cases hme : t = .me
  · rw [if_pos hme] at hc
    split at hc
    · exact .inr (Option.some.inj hc)
    · cases hc
  · rw [if_neg hme] at hc
    cases hn : l.numero with
    | none =>
        rw [hn] at hc
        split at hc
        · exact .inr (Option.some.inj hc)
        · cases hc
    | some n =>
        refine .inl ⟨n, hme, rfl, ?_⟩
        rw [hn] at hc
        split at hc <;> exact Option.some.inj hc

theorem claseDe_ne_none {t : Tipo} (ht : t.clientMask = true ∨ t = .listenPort) :
    s.claseDe l t ≠ none := by
  rw [claseDe, if_pos ht]
  exact Option.some_ne_none _

namespace Lista

variable {c : Nat} {cl : ConfClass} {t : Tipo}

/-- The class of a line is there. -/
theorem claseDe_lt (h : Lista s) (hc : s.claseDe l t = some c) : c < s.nextClase := by
  have hfind : ∀ n, s.findClass n < s.nextClase := by
    intro n
    obtain ⟨-, cl, hcl, -⟩ := h.findClass n
    exact h.lt_nextClase hcl
  obtain ⟨n, -, -, rfl⟩ | rfl := claseDe_cases hc <;> exact hfind _

/-- A line has a class that is not the first one by its number. -/
theorem numero_of_claseDe (h : Lista s) (hc : c ∈ s.siguientes) (hcl : s.clase c = some cl)
    (hde : s.claseDe l t = some c) : t ≠ .me ∧ l.numero = some cl.conClass := by
  have hfirst : c ≠ s.classes := (h.otras c hc).1
  have hfind : ∀ n, s.findClass n = c → n = cl.conClass := by
    intro n hn
    obtain ⟨-, cl', hcl', hnum⟩ := h.findClass n
    rw [hn, hcl] at hcl'
    rw [Option.some.inj hcl', hnum (hn ▸ hfirst)]
  obtain ⟨n, hme, hn, hget⟩ | hcero := claseDe_cases hde
  · exact ⟨hme, by rw [hn, hfind n hget]⟩
  · obtain ⟨clf, hclf, hzero⟩ := h.primera
    exact absurd (h.distintas c (List.mem_cons_of_mem _ hc) s.classes List.mem_cons_self cl clf hcl
      hclf ((hfind _ hcero).symm.trans hzero.symm)) hfirst

theorem claseDe_of_numero (h : Lista s) (hc : c ∈ s.siguientes) (hcl : s.clase c = some cl)
    (hme : t ≠ .me) (hn : l.numero = some cl.conClass) : s.claseDe l t = some c := by
  unfold claseDe
  rw [if_neg hme, hn, Option.map_some, h.findClass_of_mem (List.mem_cons_of_mem _ hc) hcl]
  split <;> rfl

/-- What `add_class` does to the list of classes. -/
theorem addClass_cases (h : Lista s) (n ping confreq : BitVec 32) (maxli : BitVec 16)
    (sendq : Int) :
    ((∀ c ∈ s.classes :: s.siguientes, ∀ cl, s.clase c = some cl → cl.conClass ≠ n) ∧
      s.addClass n ping confreq maxli sendq = { s with
        clase := Function.update s.clase s.nextClase
          (some (ConfClass.con n ping confreq maxli sendq 0#32))
        siguientes := s.nextClase :: s.siguientes
        nextClase := s.nextClase + 1 }) ∨
    ∃ c ∈ s.classes :: s.siguientes, ∃ cl₀, s.clase c = some cl₀ ∧ cl₀.conClass = n ∧
      s.addClass n ping confreq maxli sendq = { s with
        clase := Function.update s.clase c
          (some (ConfClass.con n ping confreq maxli sendq cl₀.links)) } := by
  obtain ⟨hmem, cl₀, hcl₀, hnum⟩ := h.findClass n
  obtain ⟨clf, hclf, hzero⟩ := h.primera
  unfold addClass
  by_cases hcond : s.findClass n = s.classes ∧ n ≠ 0#32
  · refine .inl ⟨fun c hc cl hcl heq ↦ ?_, if_pos hcond⟩
    have hfc := h.findClass_of_mem hc hcl
    rw [heq, hcond.1] at hfc
    rw [← hfc, hclf] at hcl
    exact hcond.2 (by rw [← heq, ← Option.some.inj hcl, hzero])
  · refine .inr ⟨s.findClass n, List.mem_cons.mpr hmem, cl₀, hcl₀, ?_, ?_⟩
    · by_cases hfirst : s.findClass n = s.classes
      · rw [hfirst, hclf] at hcl₀
        rw [← Option.some.inj hcl₀, hzero]
        by_contra hne
        exact hcond ⟨hfirst, Ne.symm hne⟩
      · exact hnum hfirst
    · rw [if_neg hcond, modClase, hcl₀]
      rfl

/-- A class whose number is new goes behind the first one. -/
theorem nueva (h : Lista s)
    (hnum : ∀ c ∈ s.classes :: s.siguientes, ∀ cl', s.clase c = some cl' →
      cl'.conClass ≠ cl.conClass)
    (hself : s'.clase s.nextClase = some cl) (hother : ∀ d ≠ s.nextClase, s'.clase d = s.clase d)
    (hfirst : s'.classes = s.classes) (hsig : s'.siguientes = s.nextClase :: s.siguientes)
    (hnext : s'.nextClase = s.nextClase + 1) : Lista s' := by
  have hold : ∀ c ∈ s.classes :: s.siguientes, c ≠ s.nextClase := by
    rintro c hc rfl
    rcases List.mem_cons.mp hc with hfirst | hotra
    · obtain ⟨cl, hcl, -⟩ := h.primera
      exact (h.lt_nextClase (hfirst ▸ hcl)).false
    · exact (h.otras _ hotra).2 (h.frescas _ le_rfl)
  have hclase : ∀ c ∈ s.classes :: s.siguientes, s'.clase c = s.clase c :=
    fun c hc ↦ hother c (hold c hc)
  have hmem : ∀ d ∈ s'.classes :: s'.siguientes, d = s.nextClase ∨
      d ∈ s.classes :: s.siguientes := by
    intro d hd
    rw [hfirst, hsig] at hd
    simp only [List.mem_cons] at hd ⊢
    tauto
  constructor
  · intro c hc
    rw [hother c (by omega)]
    exact h.frescas c (by omega)
  · obtain ⟨cl, hcl, hzero⟩ := h.primera
    exact ⟨cl, by rw [hfirst, hclase _ List.mem_cons_self, hcl], hzero⟩
  · intro c hc
    rw [hfirst]
    rw [hsig] at hc
    rcases List.mem_cons.mp hc with rfl | hc
    · exact ⟨(hold _ List.mem_cons_self).symm, by simp [hself]⟩
    · rw [hclase c (List.mem_cons_of_mem _ hc)]
      exact h.otras c hc
  · intro c hc c' hc' cl₁ cl₂ hcl₁ hcl₂ heq
    rcases hmem c hc with rfl | hc <;> rcases hmem c' hc' with rfl | hc'
    · rfl
    · rw [hself] at hcl₁
      rw [hclase c' hc'] at hcl₂
      exact absurd (heq.symm.trans (by rw [Option.some.inj hcl₁])) (hnum c' hc' cl₂ hcl₂)
    · rw [hself] at hcl₂
      rw [hclase c hc] at hcl₁
      exact absurd (heq.trans (by rw [Option.some.inj hcl₂])) (hnum c hc cl₁ hcl₁)
    · rw [hclase c hc] at hcl₁
      rw [hclase c' hc'] at hcl₂
      exact h.distintas c hc c' hc' cl₁ cl₂ hcl₁ hcl₂ heq

theorem addClass (h : Lista s) (n ping confreq : BitVec 32) (maxli : BitVec 16) (sendq : Int) :
    Lista (s.addClass n ping confreq maxli sendq) := by
  obtain ⟨hne, heq⟩ | ⟨c, hc, cl₀, hcl₀, hnum, heq⟩ := h.addClass_cases n ping confreq maxli sendq
  · rw [heq]
    have hself : (Function.update s.clase s.nextClase
        (some (ConfClass.con n ping confreq maxli sendq 0#32))) s.nextClase = some _ :=
      Function.update_self ..
    exact h.nueva hne hself (fun d hd ↦ Function.update_of_ne hd ..) rfl rfl rfl
  · rw [heq]
    refine h.congr (fun d ↦ ?_) rfl (fun _ ↦ id) rfl
    show (Function.update s.clase c _ d).map _ = _
    rw [Function.update_apply]
    split
    · next hd => rw [hd, hcl₀, Option.map_some, Option.map_some, hnum]; rfl
    · rfl

end Lista

variable {n ping confreq : BitVec 32} {maxli : BitVec 16} {sendq : Int}

/-- The entries do not see a new class. -/
theorem Forma.congr (h : Forma s) (hitem : s'.item = s.item) (hconf : s'.conf = s.conf)
    (hconfs : s'.confs = s.confs) (hoyentes : s'.oyentes = s.oyentes)
    (hnext : s'.nextItem = s.nextItem) (hclase : s.nextClase ≤ s'.nextClase) : Forma s' where
  frescas := by rw [hitem, hnext]; exact h.frescas
  enLista := by rw [hitem, hconf]; exact h.enLista
  enConfs := by rw [hitem, hconfs]; exact h.enConfs
  nodup := hconf ▸ h.nodup
  enUso := by rw [hitem, hconf, hconfs]; exact h.enUso
  conClase := by rw [hitem]; exact h.conClase
  referidas := by rw [hitem]; exact fun e a c ha hc ↦ (h.referidas e a c ha hc).trans_le hclase
  sinPuertos := by rw [hitem, hconfs]; exact h.sinPuertos
  oyentes := by rw [hitem, hoyentes, hconf]; exact h.oyentes
  unPuerto := by rw [hitem, hoyentes]; exact h.unPuerto
  plegadas := by rw [hitem, hconf]; exact h.plegadas

/-- What `add_class` leaves alone. -/
theorem addClass_resto (s : Estado) (n ping confreq : BitVec 32) (maxli : BitVec 16)
    (sendq : Int) : (s.addClass n ping confreq maxli sendq).item = s.item ∧
    (s.addClass n ping confreq maxli sendq).conf = s.conf ∧
    (s.addClass n ping confreq maxli sendq).confs = s.confs ∧
    (s.addClass n ping confreq maxli sendq).oyentes = s.oyentes ∧
    (s.addClass n ping confreq maxli sendq).nextItem = s.nextItem ∧
    (s.addClass n ping confreq maxli sendq).classes = s.classes ∧
    s.nextClase ≤ (s.addClass n ping confreq maxli sendq).nextClase := by
  by_cases hcond : s.findClass n = s.classes ∧ n ≠ 0#32
  · have heq : s.addClass n ping confreq maxli sendq = _ := if_pos hcond
    rw [heq]
    exact ⟨rfl, rfl, rfl, rfl, rfl, rfl, Nat.le_succ _⟩
  · have heq : s.addClass n ping confreq maxli sendq = _ := if_neg hcond
    rw [heq]
    exact ⟨rfl, rfl, rfl, rfl, rfl, rfl, le_rfl⟩

theorem Cuentas.addClass (h : Cuentas s) (hf : Forma s) (hl : Lista s) :
    Cuentas (s.addClass n ping confreq maxli sendq) := by
  obtain ⟨hitem, -, hconfs, -⟩ := s.addClass_resto n ping confreq maxli sendq
  have hpesa : (s.addClass n ping confreq maxli sendq).pesa = s.pesa := by
    funext c e
    rw [pesa, pesa, hitem]
  have hmasc : (s.addClass n ping confreq maxli sendq).enMascara = s.enMascara := by
    funext e
    rw [enMascara, enMascara, hitem]
  refine ⟨hconfs ▸ h.nodup, hconfs ▸ h.locales, by rw [hitem, hconfs]; exact h.clientes, ?_,
    by rw [hconfs, hmasc]; exact h.pocos⟩
  rw [hconfs, hpesa]
  intro d cl hcl
  obtain ⟨-, heq⟩ | ⟨c, hc, cl₀, hcl₀, -, heq⟩ := hl.addClass_cases n ping confreq maxli sendq
  · rw [heq] at hcl
    by_cases hd : d = s.nextClase
    · -- nobody has an entry of the new class
      have hcero : weight (s.pesa d) s.confs = 0 := by
        refine Nat.eq_zero_of_not_pos fun hpos ↦ ?_
        obtain ⟨p, -, hp⟩ := weight_pos.mp hpos
        obtain ⟨a, ha, -, hclass⟩ := pesa_iff.mp hp
        exact absurd (hf.referidas _ _ _ ha hclass) (by omega)
      rw [hcero]
      simp only [hd, Function.update_self, Option.some.injEq] at hcl
      rw [← hcl]
      rfl
    · simp only [Function.update_of_ne hd] at hcl
      exact h.enlaces d cl hcl
  · rw [heq] at hcl
    by_cases hd : d = c
    · simp only [hd, Function.update_self, Option.some.injEq] at hcl
      rw [hd, ← h.enlaces c cl₀ hcl₀, ← hcl]
      rfl
    · simp only [Function.update_of_ne hd] at hcl
      exact h.enlaces d cl hcl

theorem mem_of_findConfEntry {a : ConfItem} {e : Nat} (h : s.findConfEntry a = some e) :
    e ∈ s.conf ∧ ∃ b, s.item e = some b ∧ b.coincide a = true := by
  have hany := List.find?_some h
  exact ⟨List.mem_of_find?_eq_some h, by simpa [Option.any_eq_true] using hany⟩

theorem findConfEntry_eq_none {a : ConfItem} : s.findConfEntry a = none ↔
    ∀ e ∈ s.conf, ∀ b, s.item e = some b → b.coincide a = false := by
  rw [findConfEntry, List.find?_eq_none]
  refine forall₂_congr fun e _ ↦ ?_
  cases s.item e <;> simp

/-! ## The invariant of the loop -/

/-- What is left of an entry of the list, which stays as it was while it is illegal. -/
structure Quedo (a₁ a : ConfItem) : Prop where
  tipo : a.tipo = a₁.tipo
  port : a.port = a₁.port
  host : a.host = a₁.host
  name : a.name = a₁.name
  clients : a.clients = a₁.clients
  puerto : a₁.tipo = .listenPort → a.passwd = a₁.passwd ∧ a.confClass = a₁.confClass
  ilegal : a.illegal = true → a = a₁

namespace Quedo

variable {a₁ a b x : ConfItem}

theorem refl (a : ConfItem) : Quedo a a :=
  ⟨rfl, rfl, rfl, rfl, rfl, fun _ ↦ ⟨rfl, rfl⟩, fun _ ↦ rfl⟩

theorem parecida (h : Quedo a₁ a) (x : ConfItem) : a.parecida x = a₁.parecida x := by
  rw [ConfItem.parecida, ConfItem.parecida, h.tipo, h.port, h.host, h.name]

theorem coincide (h : Quedo a₁ a) (htipo : a₁.tipo = .listenPort) (x : ConfItem) :
    a.coincide x = a₁.coincide x := by
  rw [ConfItem.coincide, ConfItem.coincide, h.parecida, (h.puerto htipo).1]

end Quedo

/-- The state inside the loop, where `s₁` is the one before it and `pre` has been read. -/
structure Lectura (s₁ : Estado) (pre : List Linea) (s : Estado) : Prop where
  cuentas : Cuentas s
  forma : Forma s
  lista : Lista s
  confs : s.confs = s₁.confs
  classes : s.classes = s₁.classes
  nextItem : s₁.nextItem ≤ s.nextItem
  fuera : ∀ e a, s₁.item e = some a → e ∉ s₁.conf → s.item e = some a
  viejas : ∀ e ∈ s₁.conf, ∀ a₁, s₁.item e = some a₁ → e ∈ s.conf ∧
    ∃ a, s.item e = some a ∧ Quedo a₁ a
  nuevas : ∀ e ∈ s.conf, e ∉ s₁.conf → s₁.nextItem ≤ e ∧ ∀ a, s.item e = some a → a.illegal = false
  oyentes : ∀ o ∈ s₁.oyentes, o ∈ s.oyentes
  oyentesNuevos : ∀ o ∈ s.oyentes, o ∉ s₁.oyentes → o ∉ s₁.conf
  pendientes : ∀ c ∈ s₁.siguientes, ∀ cl₁, s₁.clase c = some cl₁ →
    (∀ l ∈ pre, l.tipo = some .conClass → l.define ≠ cl₁.conClass) →
    c ∈ s.siguientes ∧ ∃ cl, s.clase c = some cl ∧ cl.conClass = cl₁.conClass
  marcadas : ∀ c ∈ s.siguientes, ∀ cl, s.clase c = some cl → cl.isMarkedDelete = true →
    c ∈ s₁.siguientes ∧ (∃ cl₁, s₁.clase c = some cl₁ ∧ cl₁.conClass = cl.conClass) ∧
      ∀ l ∈ pre, l.tipo = some .conClass → l.define ≠ cl.conClass

namespace Lectura

variable {pre : List Linea} {b : ConfItem} {e : Nat}

theorem inicio (hc : Cuentas s₁) (hf : Forma s₁) (hl : Lista s₁) : Lectura s₁ [] s₁ where
  cuentas := hc
  forma := hf
  lista := hl
  confs := rfl
  classes := rfl
  nextItem := le_rfl
  fuera _ _ ha _ := ha
  viejas _ he a₁ ha₁ := ⟨he, a₁, ha₁, Quedo.refl a₁⟩
  nuevas _ he hne := absurd he hne
  oyentes _ ho := ho
  oyentesNuevos _ ho hne := absurd ho hne
  pendientes _ hc cl₁ hcl₁ _ := ⟨hc, cl₁, hcl₁, rfl⟩
  marcadas _ hc cl hcl _ := ⟨hc, ⟨cl, hcl, rfl⟩, fun _ hl ↦ by cases hl⟩

/-- A line that defines no class. -/
theorem otra (h : Lectura s₁ pre s) (hclase : l.tipo ≠ some .conClass) :
    Lectura s₁ (pre ++ [l]) s := by
  refine { h with pendientes := ?_, marcadas := ?_ }
  · intro c hc cl₁ hcl₁ hpre
    exact h.pendientes c hc cl₁ hcl₁ fun m hm ↦ hpre m (List.mem_append_left _ hm)
  · intro c hc cl hcl hmarca
    obtain ⟨hold, hnum, hpre⟩ := h.marcadas c hc cl hcl hmarca
    refine ⟨hold, hnum, fun m hm htipo ↦ ?_⟩
    rcases List.mem_append.mp hm with hm | hm
    · exact hpre m hm htipo
    · rw [List.mem_singleton.mp hm] at htipo
      exact absurd htipo hclase

/-- A new entry, or one of the list, is written. -/
theorem escribe (h : Lectura s₁ pre s) (hf₁ : Forma s₁) (hs : Escribe s s' e b) (hc : Cuentas s')
    (hill : b.illegal = false) (hdonde : e ∈ s.conf ∨ e = s.nextItem)
    (hdatos : ∀ a, s.item e = some a → b.host = a.host ∧ b.name = a.name ∧ b.clients = a.clients ∧
      (a.tipo = .listenPort → b.passwd = a.passwd ∧ b.confClass = a.confClass))
    (hfirst : s'.classes = s.classes) (hsig : s'.siguientes = s.siguientes)
    (hclase : ∀ c, (s'.clase c).map (fun cl ↦ (cl.conClass, cl.maxLinks)) =
      (s.clase c).map fun cl ↦ (cl.conClass, cl.maxLinks)) : Lectura s₁ pre s' := by
  have hvieja : ∀ d, s₁.item d ≠ none → d ∉ s₁.conf → d ≠ e := by
    rintro d hd hno rfl
    have hlt : d < s₁.nextItem := not_le.mp fun hle ↦ hd (hf₁.frescas d hle)
    have hnext := h.nextItem
    rcases hdonde with hmem | hnew
    · have := (h.nuevas d hmem hno).1
      omega
    · omega
  have hnum : ∀ c cl, s'.clase c = some cl → ∃ cl₀, s.clase c = some cl₀ ∧
      cl₀.conClass = cl.conClass ∧ cl₀.maxLinks = cl.maxLinks := by
    intro c cl hcl
    have := hclase c
    rw [hcl, Option.map_some] at this
    obtain ⟨cl₀, hcl₀, heq⟩ := Option.map_eq_some_iff.mp this.symm
    exact ⟨cl₀, hcl₀, (Prod.mk.inj heq).1, (Prod.mk.inj heq).2⟩
  have hlista : Lista s' := by
    refine h.lista.congr (fun c ↦ ?_) hfirst (hsig ▸ List.Subset.refl _) hs.nextClase
    have := congrArg (Option.map Prod.fst) (hclase c)
    simpa [Option.map_map, Function.comp_def] using this
  refine ⟨hc, h.forma.escribe hs, hlista, hs.confs.trans h.confs, hfirst.trans h.classes,
    h.nextItem.trans hs.nextItem.1, ?_, ?_, ?_, ?_, ?_, ?_, ?_⟩
  · intro d a ha hno
    rw [hs.item, if_neg (hvieja d (by simp [ha]) hno)]
    exact h.fuera d a ha hno
  · intro d hd a₁ ha₁
    obtain ⟨hmem, a, ha, hq⟩ := h.viejas d hd a₁ ha₁
    refine ⟨(hs.conf d).mpr (.inr hmem), ?_⟩
    by_cases hde : d = e
    · subst hde
      obtain ⟨hhost, hname, hclients, hport⟩ := hdatos a ha
      obtain ⟨htipo, hpuerto⟩ := hs.antes a ha
      refine ⟨b, by rw [hs.item, if_pos rfl], ⟨htipo.trans hq.tipo, hpuerto.trans hq.port,
        hhost.trans hq.host, hname.trans hq.name, hclients.trans hq.clients, fun hlisten ↦ ?_,
        fun hb ↦ ?_⟩⟩
      · obtain ⟨hpass, hclass⟩ := hport (hq.tipo.trans hlisten)
        exact ⟨hpass.trans (hq.puerto hlisten).1, hclass.trans (hq.puerto hlisten).2⟩
      · rw [hill] at hb
        cases hb
    · exact ⟨a, by rw [hs.item, if_neg hde, ha], hq⟩
  · intro d hd hno
    by_cases hde : d = e
    · refine ⟨?_, fun a ha ↦ ?_⟩
      · rcases hdonde with hmem | hnew
        · exact (h.nuevas d (hde ▸ hmem) hno).1
        · exact hde ▸ hnew ▸ h.nextItem
      · rw [hs.item, if_pos hde] at ha
        exact Option.some.inj ha ▸ hill
    · have hmem := ((hs.conf d).mp hd).resolve_left hde
      refine ⟨(h.nuevas d hmem hno).1, fun a ha ↦ ?_⟩
      rw [hs.item, if_neg hde] at ha
      exact (h.nuevas d hmem hno).2 a ha
  · intro o ho
    exact hs.oyentes ▸ h.oyentes o ho
  · intro o ho
    exact h.oyentesNuevos o (hs.oyentes ▸ ho)
  · intro c hc' cl₁ hcl₁ hpre
    obtain ⟨hmem, cl, hcl, heq⟩ := h.pendientes c hc' cl₁ hcl₁ hpre
    refine ⟨hsig ▸ hmem, ?_⟩
    have := hclase c
    rw [hcl, Option.map_some] at this
    obtain ⟨cl', hcl', hpar⟩ := Option.map_eq_some_iff.mp this
    exact ⟨cl', hcl', (Prod.mk.inj hpar).1.trans heq⟩
  · intro c hc' cl hcl hmarca
    obtain ⟨cl₀, hcl₀, hn, hm⟩ := hnum c cl hcl
    rw [← hn]
    refine h.marcadas c (hsig ▸ hc') cl₀ hcl₀ ?_
    rw [ConfClass.isMarkedDelete, hm]
    exact hmarca

/-- The line of a class. -/
theorem clase (h : Lectura s₁ pre s) (ping confreq : BitVec 32) (maxli : BitVec 16) (sendq : Int)
    (hdef : l.tipo = some .conClass) :
    Lectura s₁ (pre ++ [l]) (s.addClass l.define ping confreq maxli sendq) := by
  obtain ⟨hitem, hconf, hconfs, hoyentes, hnext, hfirst, hclase⟩ :=
    s.addClass_resto l.define ping confreq maxli sendq
  have hforma := h.forma.congr hitem hconf hconfs hoyentes hnext hclase
  refine ⟨h.cuentas.addClass h.forma h.lista, hforma, h.lista.addClass .., hconfs.trans h.confs,
    hfirst.trans h.classes, hnext ▸ h.nextItem, hitem ▸ h.fuera,
    by rw [hitem, hconf]; exact h.viejas, by rw [hitem, hconf]; exact h.nuevas,
    hoyentes ▸ h.oyentes, hoyentes ▸ h.oyentesNuevos, ?_, ?_⟩
  · intro c hc cl₁ hcl₁ hpre
    obtain ⟨hmem, cl, hcl, heq⟩ := h.pendientes c hc cl₁ hcl₁ fun m hm ↦
      hpre m (List.mem_append_left _ hm)
    have hne : l.define ≠ cl₁.conClass := hpre l (by simp) hdef
    obtain ⟨-, hadd⟩ | ⟨d, -, cl₀, hcl₀, hnum, hadd⟩ :=
      h.lista.addClass_cases l.define ping confreq maxli sendq
    · have hd : c ≠ s.nextClase := (h.lista.lt_nextClase hcl).ne
      rw [hadd]
      exact ⟨List.mem_cons_of_mem _ hmem, cl, (Function.update_of_ne hd ..).trans hcl, heq⟩
    · have hd : c ≠ d := by
        rintro rfl
        rw [hcl] at hcl₀
        exact hne (hnum.symm.trans (by rw [← Option.some.inj hcl₀, heq]))
      rw [hadd]
      exact ⟨hmem, cl, (Function.update_of_ne hd ..).trans hcl, heq⟩
  · -- a class of the list that is still marked is not the one of the line
    have hsigue : ∀ c ∈ s.siguientes, ∀ cl, s.clase c = some cl → cl.isMarkedDelete = true →
        cl.conClass ≠ l.define → c ∈ s₁.siguientes ∧
        (∃ cl₁, s₁.clase c = some cl₁ ∧ cl₁.conClass = cl.conClass) ∧
        ∀ m ∈ pre ++ [l], m.tipo = some .conClass → m.define ≠ cl.conClass := by
      intro c hc cl hcl hmarca hne
      obtain ⟨hold, hnum, hpre⟩ := h.marcadas c hc cl hcl hmarca
      refine ⟨hold, hnum, fun m hm htipo ↦ ?_⟩
      rcases List.mem_append.mp hm with hm | hm
      · exact hpre m hm htipo
      · rw [List.mem_singleton.mp hm]
        exact hne.symm
    intro c hc cl hcl hmarca
    obtain ⟨hno, hadd⟩ | ⟨d, hd, cl₀, hcl₀, hnum, hadd⟩ :=
      h.lista.addClass_cases l.define ping confreq maxli sendq
    · rw [hadd] at hc hcl
      by_cases hcd : c = s.nextClase
      · rw [hcd] at hcl
        simp only [Function.update_self, Option.some.injEq] at hcl
        rw [← hcl, ConfClass.isMarkedDelete_con] at hmarca
        cases hmarca
      · have hmem : c ∈ s.siguientes := (List.mem_cons.mp hc).resolve_left hcd
        simp only [Function.update_of_ne hcd] at hcl
        exact hsigue c hmem cl hcl hmarca (hno c (List.mem_cons_of_mem _ hmem) cl hcl)
    · rw [hadd] at hc hcl
      by_cases hcd : c = d
      · rw [hcd] at hcl
        simp only [Function.update_self, Option.some.injEq] at hcl
        rw [← hcl, ConfClass.isMarkedDelete_con] at hmarca
        cases hmarca
      · simp only [Function.update_of_ne hcd] at hcl
        refine hsigue c hc cl hcl hmarca fun heq ↦ hcd ?_
        exact h.lista.distintas c (List.mem_cons_of_mem _ hc) d hd cl cl₀ hcl hcl₀
          (heq.trans hnum.symm)

/-- A new entry. -/
theorem meteConf (h : Lectura s₁ pre s) (hf₁ : Forma s₁) {a : ConfItem} {t : Tipo}
    (ha : a.tipo = t ∧ a.illegal = false ∧ a.clients = 0#32 ∧ a.confClass = s.claseDe l t) :
    Lectura s₁ pre (s.meteConf a) ∧ Escribe s (s.meteConf a) s.nextItem a.colapsa := by
  obtain ⟨htipo, hill, hclients, hclass⟩ := ha
  have hs : Escribe s (s.meteConf a) s.nextItem a.colapsa := by
    refine h.forma.escribe_meteConf (fun hmask ↦ ?_) fun c hc ↦ ?_
    · rw [hclass]
      exact claseDe_ne_none (htipo ▸ hmask)
    · exact h.lista.claseDe_lt (hclass.symm.trans hc)
  have hnone := h.forma.frescas s.nextItem le_rfl
  refine ⟨h.escribe hf₁ hs (h.cuentas.meteConf h.forma hclients hs) hill (.inr rfl) (fun b hb ↦ ?_)
    rfl rfl fun _ ↦ rfl, hs⟩
  rw [hnone] at hb
  cases hb

/-- An entry that is used again. -/
theorem reutiliza (h : Lectura s₁ pre s) (hf₁ : Forma s₁)
    (h₁ : ∀ e ∈ s₁.conf, ∀ a, s₁.item e = some a → a.tipo = .client ∨ a.tipo = .listenPort)
    {t : Tipo} (ht : t = .client ∨ t = .listenPort ∨ t = .webirc)
    (hfind : s.findConfEntry (l.entrada t none) = some e) (hb : s.item e = some b)
    (hs : s.reutiliza e b (l.entrada t (s.claseDe l t)) = some s') :
    Lectura s₁ pre s' ∧ Escribe s s' e (b.reutilizado (l.entrada t (s.claseDe l t))) := by
  obtain ⟨hmem, b', hb', hcoin⟩ := mem_of_findConfEntry hfind
  obtain rfl := Option.some.inj (hb.symm.trans hb')
  have htipo : b.tipo = t := ConfItem.tipo_of_coincide hcoin
  have hesc := h.forma.escribe_reutiliza hb htipo claseDe_ne_none
    (fun c hc ↦ h.lista.claseDe_lt hc) hs
  obtain rfl := reutiliza_eq hb hs
  have hclients : b.tipo.clientMask = true ∨ b.tipo = .listenPort ∨ b.clients = 0#32 := by
    rcases ht with ht | ht | ht
    · exact .inl (by rw [htipo, ht]; rfl)
    · exact .inr (.inl (htipo.trans ht))
    · -- it is of this file, and nobody has it yet
      refine .inr (.inr ((h.cuentas.clients_eq_zero hb).mpr fun k hk ↦ ?_))
      rw [h.confs] at hk
      by_cases hold : e ∈ s₁.conf
      · obtain ⟨a₁, ha₁⟩ := Option.ne_none_iff_exists'.mp (hf₁.enLista e hold)
        obtain ⟨-, a, ha, hq⟩ := h.viejas e hold a₁ ha₁
        have hweb : a₁.tipo = .webirc := by
          rw [← hq.tipo, Option.some.inj (ha.symm.trans hb), htipo, ht]
        rcases h₁ e hold a₁ ha₁ with hc | hc <;> rw [hweb] at hc <;> cases hc
      · exact hf₁.enConfs _ hk (hf₁.frescas e (h.nuevas e hmem hold).1)
  have hcuentas := h.cuentas.reutiliza h.forma hb htipo hclients hesc hs
  refine ⟨h.escribe hf₁ hesc hcuentas (ConfItem.reutilizado_illegal ..) (.inl hmem) (fun a ha ↦ ?_)
    rfl rfl (fun c ↦ ?_), hesc⟩
  · obtain rfl := Option.some.inj (hb.symm.trans ha)
    obtain ⟨hhost, hname⟩ := ConfItem.reutilizado_textos (h.forma.plegadas e hmem b hb)
      (l.entrada t (s.claseDe l t))
    refine ⟨hhost, hname, ConfItem.reutilizado_clients .., fun hlisten ↦ ?_⟩
    have hport : (l.entrada t (s.claseDe l t)).tipo = .listenPort := htipo.symm.trans hlisten
    rw [ConfItem.reutilizado, if_pos hport]
    exact ⟨rfl, rfl⟩
  · show ((s.clase c).map (mueve b _ c)).map _ = _
    rw [Option.map_map]
    congr 1
    funext cl
    rw [Function.comp_apply, mueve]
    split <;> rfl

/-- The socket that listens on a port keeps its entry. -/
theorem legal (h : Lectura s₁ pre s) (hf₁ : Forma s₁) {o : Nat} (ho : o ∈ s.oyentes)
    (hb : s.item o = some b) :
    Lectura s₁ pre (s.modItem o fun b ↦ { b with illegal := false }) := by
  have hs := h.forma.escribe_legal (h.forma.oyentes o ho).1 hb
  refine h.escribe hf₁ hs ?_ rfl (.inl (h.forma.oyentes o ho).1) (fun a ha ↦ ?_) rfl rfl fun _ ↦ rfl
  · refine h.cuentas.escribe_igual h.forma hs (h.cuentas.clientes o b hb) (fun a ha ↦ ?_) rfl
    rw [← Option.some.inj (hb.symm.trans ha)]
  · rw [← Option.some.inj (hb.symm.trans ha)]
    exact ⟨rfl, rfl, rfl, fun _ ↦ ⟨rfl, rfl⟩⟩

/-- A new entry gets a socket. -/
theorem oyente (h : Lectura s₁ pre s) {a : ConfItem} {o : Nat} (ho : o ∈ s.conf) (hno : o ∉ s₁.conf)
    (ha : s.item o = some a) (htipo : a.tipo = .listenPort)
    (hlibre : ∀ o' ∈ s.oyentes, ∀ b, s.item o' = some b → b.port ≠ a.port) :
    Lectura s₁ pre { s with oyentes := o :: s.oyentes } := by
  have hforma : Forma { s with oyentes := o :: s.oyentes } := by
    refine { h.forma with oyentes := ?_, unPuerto := ?_ }
    · intro o' ho'
      rcases List.mem_cons.mp ho' with rfl | ho'
      · exact ⟨ho, fun b hb ↦ by rw [← Option.some.inj (ha.symm.trans hb), htipo]⟩
      · exact h.forma.oyentes o' ho'
    · intro o₁ ho₁ o₂ ho₂ a₁ a₂ ha₁ ha₂ hport
      rcases List.mem_cons.mp ho₁ with rfl | hold₁ <;> rcases List.mem_cons.mp ho₂ with rfl | hold₂
      · rfl
      · obtain rfl := Option.some.inj (ha.symm.trans ha₁)
        exact absurd hport.symm (hlibre o₂ hold₂ a₂ ha₂)
      · obtain rfl := Option.some.inj (ha.symm.trans ha₂)
        exact absurd hport (hlibre o₁ hold₁ a₁ ha₁)
      · exact h.forma.unPuerto o₁ hold₁ o₂ hold₂ a₁ a₂ ha₁ ha₂ hport
  refine { h with cuentas := ?_, lista := ?_, forma := hforma, oyentes := ?_, oyentesNuevos := ?_ }
  · exact ⟨h.cuentas.nodup, h.cuentas.locales, h.cuentas.clientes, h.cuentas.enlaces,
      h.cuentas.pocos⟩
  · exact ⟨h.lista.frescas, h.lista.primera, h.lista.otras, h.lista.distintas⟩
  · exact fun o' ho' ↦ List.mem_cons_of_mem _ (h.oyentes o' ho')
  · intro o' ho' hnew
    rcases List.mem_cons.mp ho' with rfl | ho'
    · exact hno
    · exact h.oyentesNuevos o' ho' hnew

end Lectura

/-! ## A line after the other -/

/-- A line with a port that is not on the list: the socket that listens on the port keeps its entry,
then the new one goes to the list, and it may get a socket. -/
theorem metePuerto_cases (abre : ConfItem → Bool) (a : ConfItem) (s : Estado) :
    (∃ o ∈ s.oyentes, ∃ b, s.item o = some b ∧ b.port = a.port ∧
      s.metePuerto abre a = (s.modItem o fun b ↦ { b with illegal := false }).meteConf a) ∨
    (∀ o ∈ s.oyentes, ∀ b, s.item o = some b → b.port ≠ a.port) ∧
      (s.metePuerto abre a = s.meteConf a ∨
        s.metePuerto abre a = { s.meteConf a with oyentes := s.nextItem :: s.oyentes }) := by
  unfold metePuerto
  cases hfind : s.testListenPort a.port with
  | some o =>
      have hany := List.find?_some hfind
      obtain ⟨b, hb, hport⟩ := (Option.any_eq_true _ _).mp hany
      exact .inl ⟨o, List.mem_of_find?_eq_some hfind, b, hb, by simpa using hport, rfl⟩
  | none =>
      refine .inr ⟨fun o ho b hb hport ↦ ?_, ?_⟩
      · have hno := List.find?_eq_none.mp hfind o ho
        rw [hb, Option.any_some] at hno
        exact hno (by simpa using hport)
      · by_cases habre : abre a = true
        · exact .inr (by simp only [Option.elim_none, if_pos habre]; rfl)
        · exact .inl (by simp only [Option.elim_none, if_neg habre])

namespace Lectura

variable {pre : List Linea}

theorem metePuerto (h : Lectura s₁ pre s) (hf₁ : Forma s₁) {a : ConfItem}
    (ha : a.tipo = .listenPort ∧ a.illegal = false ∧ a.clients = 0#32 ∧
      a.confClass = s.claseDe l .listenPort) : Lectura s₁ pre (s.metePuerto abre a) := by
  obtain ⟨o, ho, b, hb, -, heq⟩ | ⟨hlibre, heq⟩ := metePuerto_cases abre a s
  · rw [heq]
    exact ((h.legal hf₁ ho hb).meteConf hf₁ ha).1
  · obtain ⟨hmete, hs⟩ := h.meteConf hf₁ ha
    rcases heq with heq | heq
    · rw [heq]
      exact hmete
    · rw [heq]
      have hno : s.nextItem ∉ s₁.conf := fun hmem ↦
        hf₁.enLista _ hmem (hf₁.frescas _ h.nextItem)
      refine hmete.oyente (a := a.colapsa) List.mem_cons_self hno ?_ ha.1 fun o ho b hb ↦ ?_
      · rw [hs.item, if_pos rfl]
      · have hne : o ≠ s.nextItem := by
          rintro rfl
          exact h.forma.enLista _ (h.forma.oyentes _ ho).1 (h.forma.frescas _ le_rfl)
        rw [hs.item, if_neg hne] at hb
        exact hlibre o ho b hb

/-- Each line keeps the invariant. -/
theorem efecto (h : Lectura s₁ pre s) (hf₁ : Forma s₁)
    (h₁ : ∀ e ∈ s₁.conf, ∀ a, s₁.item e = some a → a.tipo = .client ∨ a.tipo = .listenPort)
    (hs : Efecto cruleParse abre ccount l s s') : Lectura s₁ (pre ++ [l]) s' := by
  cases hs with
  | nada hl hclase => exact h.otra hclase
  | clase hl ping confreq sendq => exact h.clase ping confreq l.puerto sendq hl
  | nueva t hl ht hqueda a ha =>
      exact (h.meteConf hf₁ ha).1.otra fun hclase ↦ ht.1 (Option.some.inj (hl.symm.trans hclase))
  | puerto hl hno =>
      refine (h.metePuerto hf₁ ⟨rfl, rfl, rfl, rfl⟩).otra fun hclase ↦ ?_
      rw [hl] at hclase
      cases hclase
  | usada t hl ht e b hfind hb _ hs =>
      refine (h.reutiliza hf₁ h₁ ht hfind hb hs).1.otra fun hclase ↦ ?_
      rw [hl, Option.some.injEq] at hclase
      rw [hclase] at ht
      rcases ht with ht | ht | ht <;> cases ht

end Lectura

/-- The lines of servers among those that were read. -/
def cuentaCs (pre : List Linea) : Nat :=
  pre.foldl cuentaC 0

/-- What each line keeps holds behind the loop. -/
theorem lee_induction {fichero : List Linea} {I : List Linea → Estado → Prop}
    (hstep : ∀ pre l post s s', fichero = pre ++ l :: post → I pre s →
      Efecto cruleParse abre (cuentaC (cuentaCs pre) l) l s s' → I (pre ++ [l]) s')
    (hinicio : I [] s₁) (h : s₁.lee cruleParse abre 0 fichero = some s) : I fichero s := by
  have hgen : ∀ post pre s₂, fichero = pre ++ post → I pre s₂ →
      s₂.lee cruleParse abre (cuentaCs pre) post = some s → I fichero s := by
    intro post
    induction post with
    | nil =>
        intro pre s₂ hsplit hI hs
        rw [hsplit, List.append_nil, ← Option.some.inj hs]
        exact hI
    | cons l post ih =>
        intro pre s₂ hsplit hI hs
        obtain ⟨s₃, hs₃, hrest⟩ := Option.bind_eq_some_iff.mp hs
        have hcount : cuentaCs (pre ++ [l]) = cuentaC (cuentaCs pre) l := by
          rw [cuentaCs, List.foldl_append, List.foldl_cons, List.foldl_nil, cuentaCs]
        refine ih (pre ++ [l]) s₃ ?_ (hstep pre l post s₂ s₃ hsplit hI (efecto hs₃)) ?_
        · rw [hsplit, List.append_assoc, List.singleton_append]
        · rw [hcount]
          exact hrest
  exact hgen fichero [] s₁ rfl hinicio h

/-! ## What a line does to one entry -/

/-- What an entry is behind a line. -/
inductive Cambio (cruleParse : Option CStr → Option CStr) (ccount : Nat) (l : Linea) (s : Estado)
    (d : Nat) : ConfItem → Prop
  | igual (a : ConfItem) (ha : s.item d = some a) : Cambio cruleParse ccount l s d a
  | nueva (t : Tipo) (a : ConfItem) (hd : d = s.nextItem) (hl : l.tipo = some t) (ht : t ≠ .conClass)
      (hqueda : desecha cruleParse ccount (l.entrada t none) = false) (hill : a.illegal = false)
      (hclase : a.confClass = s.claseDe l t)
      (hport : a.tipo = .listenPort → t = .listenPort ∧ a.port = l.puerto)
      (hno : t = .listenPort → s.findConfEntry (l.entrada .listenPort none) = none) :
      Cambio cruleParse ccount l s d a
  | legal (a : ConfItem) (ha : s.item d = some a) (hd : d ∈ s.oyentes) :
      Cambio cruleParse ccount l s d { a with illegal := false }
  | usada (t : Tipo) (b : ConfItem) (hl : l.tipo = some t)
      (ht : t = .client ∨ t = .listenPort ∨ t = .webirc)
      (hfind : s.findConfEntry (l.entrada t none) = some d) (hb : s.item d = some b) :
      Cambio cruleParse ccount l s d (b.reutilizado (l.entrada t (s.claseDe l t)))

theorem meteConf_item (a : ConfItem) (d : Nat) (s : Estado) :
    (s.meteConf a).item d = if d = s.nextItem then some a.colapsa else s.item d := by
  simp [meteConf, Function.update_apply]

theorem Efecto.cambio (h : Efecto cruleParse abre ccount l s s') {d : Nat} {a' : ConfItem}
    (ha' : s'.item d = some a') : Cambio cruleParse ccount l s d a' := by
  cases h with
  | nada hl hclase => exact .igual a' ha'
  | clase hl ping confreq sendq =>
      rw [(s.addClass_resto _ _ _ _ _).1] at ha'
      exact .igual a' ha'
  | nueva t hl ht hqueda a ha =>
      rw [meteConf_item] at ha'
      split at ha'
      · next hd =>
          rw [← Option.some.inj ha']
          exact .nueva t a.colapsa hd hl ht.1 hqueda ha.2.1 ha.2.2.2
            (fun hport ↦ absurd (ha.1.symm.trans hport) ht.2) fun hport ↦ absurd hport ht.2
      · exact .igual a' ha'
  | puerto hl hno =>
      have hnueva : ∀ a : ConfItem, d = s.nextItem →
          a = (l.entrada .listenPort (s.claseDe l .listenPort)).conFlags.colapsa →
          Cambio cruleParse ccount l s d a := by
        rintro a hd rfl
        exact .nueva .listenPort _ hd hl (by decide) rfl rfl rfl (fun _ ↦ ⟨rfl, rfl⟩) fun _ ↦ hno
      obtain ⟨o, ho, b, hb, -, heq⟩ | ⟨-, heq | heq⟩ := metePuerto_cases abre _ s
      · rw [heq, meteConf_item] at ha'
        split at ha'
        · next hd => exact hnueva a' hd (Option.some.inj ha').symm
        · rw [modItem_item] at ha'
          split at ha'
          · next hd =>
              rw [hb, Option.map_some] at ha'
              rw [← Option.some.inj ha']
              exact .legal b (hd ▸ hb) (hd ▸ ho)
          · exact .igual a' ha'
      · rw [heq, meteConf_item] at ha'
        split at ha'
        · next hd => exact hnueva a' hd (Option.some.inj ha').symm
        · exact .igual a' ha'
      · rw [heq] at ha'
        have ha'' : (s.meteConf _).item d = some a' := ha'
        rw [meteConf_item] at ha''
        split at ha''
        · next hd => exact hnueva a' hd (Option.some.inj ha'').symm
        · exact .igual a' ha''
  | usada t hl ht e b hfind hb _ hs =>
      obtain rfl := reutiliza_eq hb hs
      by_cases hd : d = e
      · simp only [if_pos hd, Option.some.injEq] at ha'
        rw [← ha']
        exact .usada t b hl ht (hd ▸ hfind) (hd ▸ hb)
      · simp only [if_neg hd] at ha'
        exact .igual a' ha'

/-- No line makes an entry illegal. -/
theorem Cambio.legal_of_legal {d : Nat} {a' : ConfItem} (h : Cambio cruleParse ccount l s d a')
    (hlegal : ∀ a, s.item d = some a → a.illegal = false) : a'.illegal = false := by
  cases h with
  | igual a ha => exact hlegal _ ha
  | nueva t a hd hl ht hqueda hill hclase hport hno => exact hill
  | legal a ha hd => rfl
  | usada t b hl ht hfind hb => exact ConfItem.reutilizado_illegal ..

/-- The line of a port with a socket makes its entry legal, or another one is used again. -/
theorem Efecto.legal (h : Efecto cruleParse abre ccount l s s') (hf : Forma s)
    (hl : l.tipo = some .listenPort) {o : Nat} (ho : o ∈ s.oyentes) {a : ConfItem}
    (ha : s.item o = some a) (hport : a.port = l.puerto)
    (hno : ∀ e, s.findConfEntry (l.entrada .listenPort none) = some e → e = o) {a' : ConfItem}
    (ha' : s'.item o = some a') : a'.illegal = false := by
  have hne : o ≠ s.nextItem := by
    rintro rfl
    rw [hf.frescas _ le_rfl] at ha
    cases ha
  cases h with
  | nada hl' hclase => exact absurd hl hl'
  | clase hl' ping confreq sendq => rw [hl] at hl'; cases hl'
  | nueva t hl' ht hqueda a ha => rw [hl] at hl'; exact absurd (Option.some.inj hl').symm ht.2
  | puerto hl' hno =>
      obtain ⟨o', ho', b, hb, hport', heq⟩ | ⟨hlibre, -⟩ := metePuerto_cases abre
        (l.entrada .listenPort (s.claseDe l .listenPort)).conFlags s
      · obtain rfl := hf.unPuerto o ho o' ho' a b ha hb (hport.trans hport'.symm)
        rw [heq, meteConf_item, modItem_nextItem, if_neg hne, modItem_item, if_pos rfl, ha,
          Option.map_some] at ha'
        rw [← Option.some.inj ha']
      · exact absurd hport (hlibre o ho a ha)
  | usada t hl' ht e b hfind hb _ hs =>
      obtain rfl := Option.some.inj (hl.symm.trans hl')
      obtain rfl := hno e hfind
      obtain rfl := reutiliza_eq hb hs
      simp only [if_true, Option.some.injEq] at ha'
      rw [← ha']
      exact ConfItem.reutilizado_illegal ..

end Estado

end Ircd.Conf
