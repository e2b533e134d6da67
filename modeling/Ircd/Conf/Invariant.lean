import Ircd.Collapse
import Ircd.Conf.Rehash
import Mathlib.Tactic.LinearCombination

/-!
# The invariant of the configuration

`Cuentas` and `Forma` hold between the steps of the program and also inside a rehash: the counters
are right, what is in the list or attached has not been freed, what has not been freed is in the
list or attached. `Lista` says that the classes of the list have different numbers.
-/

namespace Ircd.Conf

open CString Hash Pins

/-- `collapse` of what it returned. -/
theorem collapse_collapse (m : CStr) : Ircd.collapse (Ircd.collapse m) = Ircd.collapse m := by
  rw [Match.collapse_eq, Match.collapse_eq, Match.collapseFrom_collapseFrom]

namespace ConfItem

@[simp] theorem colapsa_colapsa (a : ConfItem) : a.colapsa.colapsa = a.colapsa := by
  simp [colapsa, Function.comp_def, collapse_collapse]

/-- What becomes of an entry of the list that takes the place of another. -/
def reutilizado (b a : ConfItem) : ConfItem :=
  if a.tipo = .listenPort then { b with illegal := false }.colapsa
  else { b with illegal := false, passwd := a.passwd, confClass := a.confClass }.colapsa

@[simp] theorem reutilizado_tipo (b a : ConfItem) : (b.reutilizado a).tipo = b.tipo := by
  unfold reutilizado
  split <;> rfl

@[simp] theorem reutilizado_port (b a : ConfItem) : (b.reutilizado a).port = b.port := by
  unfold reutilizado
  split <;> rfl

@[simp] theorem reutilizado_clients (b a : ConfItem) :
    (b.reutilizado a).clients = b.clients := by
  unfold reutilizado
  split <;> rfl

@[simp] theorem reutilizado_illegal (b a : ConfItem) :
    (b.reutilizado a).illegal = false := by
  unfold reutilizado
  split <;> rfl

theorem reutilizado_confClass (b a : ConfItem) : (b.reutilizado a).confClass =
    if a.tipo = .listenPort then b.confClass else a.confClass := by
  unfold reutilizado
  split <;> rfl

/-- The host and the name of an entry of the list stay. -/
theorem reutilizado_textos {b : ConfItem} (hb : b.colapsa = b) (a : ConfItem) :
    (b.reutilizado a).host = b.host ∧ (b.reutilizado a).name = b.name := by
  have hhost : b.host.map Ircd.collapse = b.host := congrArg ConfItem.host hb
  have hname : b.name.map Ircd.collapse = b.name := congrArg ConfItem.name hb
  unfold reutilizado
  split <;> exact ⟨hhost, hname⟩

theorem tipo_of_coincide {b a : ConfItem} (h : b.coincide a = true) : b.tipo = a.tipo := by
  simp only [coincide, parecida, decide_eq_true_eq] at h
  exact h.1.1

theorem parecida_of_coincide {b a : ConfItem} (h : b.coincide a = true) : b.parecida a = true := by
  simp only [coincide, decide_eq_true_eq] at h
  exact h.1

theorem port_of_coincide {b a : ConfItem} (h : b.coincide a = true) : b.port = a.port := by
  simp only [coincide, parecida, decide_eq_true_eq] at h
  exact h.1.2.1

end ConfItem

namespace Estado

/-- The list of classes. -/
structure Lista (s : Estado) : Prop where
  frescas : ∀ c, s.nextClase ≤ c → s.clase c = none
  primera : ∃ cl, s.clase s.classes = some cl ∧ cl.conClass = 0#32
  otras : ∀ c ∈ s.siguientes, c ≠ s.classes ∧ s.clase c ≠ none
  distintas : ∀ c ∈ s.classes :: s.siguientes, ∀ c' ∈ s.classes :: s.siguientes, ∀ cl cl',
    s.clase c = some cl → s.clase c' = some cl' → cl.conClass = cl'.conClass → c = c'

/-- The entries. -/
structure Forma (s : Estado) : Prop where
  frescas : ∀ e, s.nextItem ≤ e → s.item e = none
  enLista : ∀ e ∈ s.conf, s.item e ≠ none
  enConfs : ∀ p ∈ s.confs, s.item p.2 ≠ none
  nodup : s.conf.Nodup
  enUso : ∀ e a, s.item e = some a → e ∉ s.conf → a.illegal = true ∧ ∃ k, (k, e) ∈ s.confs
  conClase : ∀ e a, s.item e = some a → (a.tipo.clientMask = true ∨ a.tipo = .listenPort) →
    a.confClass ≠ none
  referidas : ∀ e a c, s.item e = some a → a.confClass = some c → c < s.nextClase
  sinPuertos : ∀ p ∈ s.confs, ∀ a, s.item p.2 = some a → a.tipo ≠ .listenPort
  oyentes : ∀ o ∈ s.oyentes, o ∈ s.conf ∧ ∀ a, s.item o = some a → a.tipo = .listenPort
  unPuerto : ∀ o ∈ s.oyentes, ∀ o' ∈ s.oyentes, ∀ a a', s.item o = some a → s.item o' = some a' →
    a.port = a'.port → o = o'
  plegadas : ∀ e ∈ s.conf, ∀ a, s.item e = some a → a.colapsa = a

variable {s s' : Estado}

/-- The list of classes is as it was when no number changes. -/
theorem Lista.congr (h : Lista s) (hnum : ∀ c, (s'.clase c).map (·.conClass) =
    (s.clase c).map (·.conClass)) (hfirst : s'.classes = s.classes)
    (hotras : s'.siguientes ⊆ s.siguientes) (hnext : s'.nextClase = s.nextClase) : Lista s' := by
  have hnone : ∀ c, s'.clase c = none ↔ s.clase c = none := by
    intro c
    have := hnum c
    cases h₁ : s'.clase c <;> cases h₂ : s.clase c <;> simp_all
  have hsome : ∀ c cl, s'.clase c = some cl → ∃ cl₀, s.clase c = some cl₀ ∧
      cl₀.conClass = cl.conClass := by
    intro c cl hcl
    have hc := hnum c
    rw [hcl] at hc
    obtain ⟨cl₀, hcl₀, heq⟩ := Option.map_eq_some_iff.mp hc.symm
    exact ⟨cl₀, hcl₀, heq⟩
  refine ⟨fun c hc ↦ (hnone c).mpr (h.frescas c (hnext ▸ hc)), ?_,
    fun c hc ↦ hfirst ▸ ⟨(h.otras c (hotras hc)).1, fun hno ↦ (h.otras c (hotras hc)).2
      ((hnone c).mp hno)⟩, ?_⟩
  · obtain ⟨cl, hcl, hzero⟩ := h.primera
    have hc := hnum s.classes
    rw [hcl] at hc
    obtain ⟨cl', hcl', heq⟩ := Option.map_eq_some_iff.mp hc
    exact ⟨cl', hfirst ▸ hcl', heq.trans hzero⟩
  · intro c hc c' hc' cl cl' hcl hcl' heq
    have hsub : s'.classes :: s'.siguientes ⊆ s.classes :: s.siguientes := by
      rw [hfirst]
      exact List.cons_subset_cons _ hotras
    obtain ⟨cl₀, hcl₀, h₀⟩ := hsome c cl hcl
    obtain ⟨cl₁, hcl₁, h₁⟩ := hsome c' cl' hcl'
    exact h.distintas c (hsub hc) c' (hsub hc') cl₀ cl₁ hcl₀ hcl₁ (h₀.trans (heq.trans h₁.symm))

/-- A class that is not freed is found by its number. -/
theorem Lista.findClass_of_mem (h : Lista s) {c : Nat} (hc : c ∈ s.classes :: s.siguientes)
    {cl : ConfClass} (hcl : s.clase c = some cl) : s.findClass cl.conClass = c := by
  unfold findClass
  cases hfind : (s.classes :: s.siguientes).find? fun d ↦
      (s.clase d).any (·.conClass = cl.conClass) with
  | none =>
      have := List.find?_eq_none.mp hfind c hc
      simp [hcl] at this
  | some d =>
      have hd := List.find?_some hfind
      obtain ⟨cl', hcl', heq⟩ := (Option.any_eq_true _ _).mp hd
      exact h.distintas d (List.mem_of_find?_eq_some hfind) c hc cl' cl hcl' hcl
        (by simpa using heq)

/-- What `find_class` returns. -/
theorem Lista.findClass (h : Lista s) (n : BitVec 32) :
    (s.findClass n = s.classes ∨ s.findClass n ∈ s.siguientes) ∧
      ∃ cl, s.clase (s.findClass n) = some cl ∧ (s.findClass n ≠ s.classes → cl.conClass = n) := by
  unfold Estado.findClass
  cases hfind : (s.classes :: s.siguientes).find? fun d ↦ (s.clase d).any (·.conClass = n) with
  | none =>
      obtain ⟨cl, hcl, -⟩ := h.primera
      exact ⟨.inl rfl, cl, hcl, fun hne ↦ absurd rfl hne⟩
  | some d =>
      have hd := List.find?_some hfind
      obtain ⟨cl, hcl, heq⟩ := (Option.any_eq_true _ _).mp hd
      exact ⟨List.mem_cons.mp (List.mem_of_find?_eq_some hfind), cl, hcl,
        fun _ ↦ by simpa using heq⟩

/-! ## Entries -/

/-- What a step that writes the entry `e`, and puts it into the list, may do. -/
structure Escribe (s s' : Estado) (e : Nat) (b : ConfItem) : Prop where
  item : ∀ d, s'.item d = if d = e then some b else s.item d
  conf : ∀ d, d ∈ s'.conf ↔ d = e ∨ d ∈ s.conf
  nodup : s'.conf.Nodup
  confs : s'.confs = s.confs
  oyentes : s'.oyentes = s.oyentes
  nextItem : s.nextItem ≤ s'.nextItem ∧ e < s'.nextItem
  nextClase : s'.nextClase = s.nextClase
  antes : ∀ a, s.item e = some a → b.tipo = a.tipo ∧ b.port = a.port
  conClase : b.tipo.clientMask = true ∨ b.tipo = .listenPort → b.confClass ≠ none
  referida : ∀ c, b.confClass = some c → c < s.nextClase
  plegada : b.colapsa = b

namespace Forma

variable {a b : ConfItem} {e : Nat}

theorem not_mem_conf (h : Forma s) (he : s.item e = none) : e ∉ s.conf :=
  fun hmem ↦ h.enLista e hmem he

theorem escribe (h : Forma s) (hs : Escribe s s' e b) : Forma s' := by
  have hself : s'.item e = some b := by rw [hs.item, if_pos rfl]
  have hother : ∀ d ≠ e, s'.item d = s.item d := fun d hd ↦ by rw [hs.item, if_neg hd]
  -- an entry that is in use is not a new one
  have hantes : ∀ d a, s'.item d = some a → s.item d ≠ none →
      ∃ a₀, s.item d = some a₀ ∧ a.tipo = a₀.tipo ∧ a.port = a₀.port := by
    intro d a ha hd
    obtain ⟨a₀, ha₀⟩ := Option.ne_none_iff_exists'.mp hd
    by_cases hde : d = e
    · subst hde
      rw [hself] at ha
      exact ⟨a₀, ha₀, Option.some.inj ha ▸ hs.antes a₀ ha₀⟩
    · rw [hother d hde, ha₀] at ha
      exact ⟨a₀, ha₀, by rw [Option.some.inj ha], by rw [Option.some.inj ha]⟩
  constructor
  · intro d hd
    have hne : d ≠ e := by have := hs.nextItem.2; omega
    rw [hother d hne]
    exact h.frescas d (hs.nextItem.1.trans hd)
  · intro d hd
    by_cases hde : d = e
    · simp [hde, hself]
    · rw [hother d hde]
      exact h.enLista d (((hs.conf d).mp hd).resolve_left hde)
  · intro p hp
    by_cases hde : p.2 = e
    · simp [hde, hself]
    · rw [hother _ hde]
      exact h.enConfs p (hs.confs ▸ hp)
  · exact hs.nodup
  · intro d a ha hd
    obtain ⟨hde, hd⟩ := not_or.mp (mt (hs.conf d).mpr hd)
    rw [hother d hde] at ha
    rw [hs.confs]
    exact h.enUso d a ha hd
  · intro d a ha
    by_cases hde : d = e
    · rw [hde, hself] at ha
      exact Option.some.inj ha ▸ hs.conClase
    · rw [hother d hde] at ha
      exact h.conClase d a ha
  · intro d a c ha hc
    rw [hs.nextClase]
    by_cases hde : d = e
    · rw [hde, hself] at ha
      exact hs.referida c (Option.some.inj ha ▸ hc)
    · rw [hother d hde] at ha
      exact h.referidas d a c ha hc
  · intro p hp a ha
    rw [hs.confs] at hp
    obtain ⟨a₀, ha₀, htipo, -⟩ := hantes p.2 a ha (h.enConfs p hp)
    exact htipo ▸ h.sinPuertos p hp a₀ ha₀
  · intro o ho
    rw [hs.oyentes] at ho
    refine ⟨(hs.conf o).mpr (.inr (h.oyentes o ho).1), fun a ha ↦ ?_⟩
    obtain ⟨a₀, ha₀, htipo, -⟩ := hantes o a ha (h.enLista o (h.oyentes o ho).1)
    exact htipo ▸ (h.oyentes o ho).2 a₀ ha₀
  · intro o ho o' ho' a a' ha ha' hport
    rw [hs.oyentes] at ho ho'
    obtain ⟨a₀, ha₀, -, hp⟩ := hantes o a ha (h.enLista o (h.oyentes o ho).1)
    obtain ⟨a₁, ha₁, -, hp'⟩ := hantes o' a' ha' (h.enLista o' (h.oyentes o' ho').1)
    exact h.unPuerto o ho o' ho' a₀ a₁ ha₀ ha₁ (hp.symm.trans (hport.trans hp'))
  · intro d hd a ha
    by_cases hde : d = e
    · rw [hde, hself] at ha
      exact Option.some.inj ha ▸ hs.plegada
    · rw [hother d hde] at ha
      exact h.plegadas d (((hs.conf d).mp hd).resolve_left hde) a ha

end Forma

/-- A new entry. -/
theorem Forma.escribe_meteConf (h : Forma s) {a : ConfItem}
    (hclase : a.tipo.clientMask = true ∨ a.tipo = .listenPort → a.confClass ≠ none)
    (href : ∀ c, a.confClass = some c → c < s.nextClase) :
    Escribe s (s.meteConf a) s.nextItem a.colapsa where
  item d := by simp [meteConf, Function.update_apply]
  conf d := List.mem_cons
  nodup := List.nodup_cons.mpr ⟨h.not_mem_conf (h.frescas _ le_rfl), h.nodup⟩
  confs := rfl
  oyentes := rfl
  nextItem := ⟨Nat.le_succ _, Nat.lt_succ_self _⟩
  nextClase := rfl
  antes b hb := by rw [h.frescas _ le_rfl] at hb; cases hb
  conClase := hclase
  referida := href
  plegada := a.colapsa_colapsa

/-- The entry of a socket becomes legal. -/
theorem Forma.escribe_legal (h : Forma s) {o : Nat} {a : ConfItem} (ho : o ∈ s.conf)
    (ha : s.item o = some a) :
    Escribe s (s.modItem o fun b ↦ { b with illegal := false }) o { a with illegal := false } where
  item d := by simp [ha]
  conf d := (or_iff_right_of_imp (· ▸ ho)).symm
  nodup := h.nodup
  confs := rfl
  oyentes := rfl
  nextItem := ⟨le_rfl, by
    by_contra hlt
    rw [h.frescas o (not_lt.mp hlt)] at ha
    cases ha⟩
  nextClase := rfl
  antes b hb := by rw [← Option.some.inj (ha.symm.trans hb)]; exact ⟨rfl, rfl⟩
  conClase := h.conClase o a ha
  referida c := h.referidas o a c ha
  plegada := by
    show { a.colapsa with illegal := false } = { a with illegal := false }
    rw [h.plegadas o ho a ha]

/-- What `reutiliza` does to the counters of the classes. -/
def mueve (b a : ConfItem) (c : Nat) (cl : ConfClass) : ConfClass :=
  if a.tipo = .listenPort then cl
  else
    { cl with
      links := cl.links - (if b.confClass = some c then b.clients else 0#32) +
        if a.confClass = some c then b.clients else 0#32 }

theorem reutiliza_eq {e : Nat} {b a : ConfItem} (hb : s.item e = some b)
    (h : s.reutiliza e b a = some s') : s' = { s with
      conf := e :: s.conf.erase e
      item := fun d ↦ if d = e then some (b.reutilizado a) else s.item d
      clase := fun c ↦ (s.clase c).map (mueve b a c) } := by
  have hitem : ∀ f : ConfItem → ConfItem, f b = b.reutilizado a →
      Function.update s.item e ((s.item e).map f) =
        fun d ↦ if d = e then some (b.reutilizado a) else s.item d := by
    intro f hf
    funext d
    rw [Function.update_apply, hb, Option.map_some, hf]
  unfold reutiliza at h
  by_cases hport : a.tipo = .listenPort
  · rw [if_pos hport] at h
    have hclase : (fun c ↦ (s.clase c).map (mueve b a c)) = s.clase := by
      funext c
      have hid : mueve b a c = id := by
        funext cl
        rw [mueve, if_pos hport, id]
      rw [hid, Option.map_id, id]
    rw [← Option.some.inj h, hclase, ← hitem _ (by rw [ConfItem.reutilizado, if_pos hport])]
    rfl
  · rw [if_neg hport] at h
    by_cases hnone : b.confClass = none
    · rw [if_pos hnone] at h
      cases h
    rw [if_neg hnone] at h
    rw [← Option.some.inj h, modConfLinks_eq, modConfLinks_eq,
      ← hitem _ (by rw [ConfItem.reutilizado, if_neg hport])]
    congr 1
    funext c
    by_cases ha : a.confClass = some c <;> by_cases hb' : b.confClass = some c <;>
      cases hcl : s.clase c <;> simp [mueve, modItem, hport, ha, hb', hcl]

theorem Forma.escribe_reutiliza (h : Forma s) {e : Nat} {b a : ConfItem}
    (hb : s.item e = some b) (htipo : b.tipo = a.tipo)
    (hclase : a.tipo.clientMask = true ∨ a.tipo = .listenPort → a.confClass ≠ none)
    (href : ∀ c, a.confClass = some c → c < s.nextClase) (hs : s.reutiliza e b a = some s') :
    Escribe s s' e (b.reutilizado a) := by
  obtain rfl := reutiliza_eq hb hs
  have hmem : ∀ d, d ∈ e :: s.conf.erase e ↔ d = e ∨ d ∈ s.conf := by
    intro d
    rw [List.mem_cons, h.nodup.mem_erase_iff]
    tauto
  refine ⟨fun d ↦ rfl, hmem, ?_, rfl, rfl, ⟨le_rfl, ?_⟩, rfl, ?_, ?_, ?_, ?_⟩
  · exact List.nodup_cons.mpr ⟨h.nodup.not_mem_erase, h.nodup.erase _⟩
  · by_contra hlt
    rw [h.frescas e (not_lt.mp hlt)] at hb
    cases hb
  · intro d hd
    rw [← Option.some.inj (hb.symm.trans hd)]
    exact ⟨ConfItem.reutilizado_tipo .., ConfItem.reutilizado_port ..⟩
  · rw [ConfItem.reutilizado_tipo, ConfItem.reutilizado_confClass]
    split
    · exact h.conClase e b hb
    · rw [htipo]
      exact hclase
  · intro c
    rw [ConfItem.reutilizado_confClass]
    split
    · exact h.referidas e b c hb
    · exact href c
  · unfold ConfItem.reutilizado
    split <;> exact ConfItem.colapsa_colapsa _

/-! ## Counters -/

namespace Cuentas

variable {a b : ConfItem} {e : Nat}

/-- A step that writes an entry keeps the counters when it writes those that it has to. -/
theorem escribe (h : Cuentas s) (hf : Forma s) (hs : Escribe s s' e b)
    (hclients : b.clients = BitVec.ofNat 32 (holders s.confs e))
    (hclase : ∀ c cl, s'.clase c = some cl →
      cl.links = BitVec.ofNat 32 (weight (s'.pesa c) s.confs)) : Cuentas s' := by
  have hmasc : ∀ p ∈ s.confs, s'.enMascara p.2 = s.enMascara p.2 := by
    intro p hp
    rw [enMascara, enMascara, hs.item]
    by_cases hde : p.2 = e
    · obtain ⟨a, ha⟩ := Option.ne_none_iff_exists'.mp (hf.enConfs p hp)
      rw [if_pos hde, ha, Option.any_some, Option.any_some, (hs.antes a (hde ▸ ha)).1]
    · rw [if_neg hde]
  refine ⟨hs.confs ▸ h.nodup, hs.confs ▸ h.locales, ?_, hs.confs ▸ hclase, ?_⟩
  · intro d a ha
    rw [hs.confs]
    rw [hs.item] at ha
    split at ha
    · next hde => rw [← Option.some.inj ha, hde, hclients]
    · exact h.clientes d a ha
  · rw [hs.confs, weight_congr hmasc]
    exact h.pocos

/-- `escribe` for an entry whose attachments count as before. -/
theorem escribe_igual (h : Cuentas s) (hf : Forma s) (hs : Escribe s s' e b)
    (hclients : b.clients = BitVec.ofNat 32 (holders s.confs e))
    (hconfClass : ∀ a, s.item e = some a → b.confClass = a.confClass)
    (hclase : s'.clase = s.clase) : Cuentas s' := by
  refine h.escribe hf hs hclients fun c cl hcl ↦ ?_
  have hpesa : ∀ p ∈ s.confs, s'.pesa c p.2 = s.pesa c p.2 := by
    intro p hp
    rw [pesa, pesa, hs.item]
    by_cases hde : p.2 = e
    · obtain ⟨a, ha⟩ := Option.ne_none_iff_exists'.mp (hf.enConfs p hp)
      rw [if_pos hde, ha, Option.any_some, Option.any_some, (hs.antes a (hde ▸ ha)).1,
        hconfClass a (hde ▸ ha)]
    · rw [if_neg hde]
  rw [weight_congr hpesa]
  exact h.enlaces c cl (hclase ▸ hcl)

theorem meteConf (h : Cuentas s) (hf : Forma s) (hclients : a.clients = 0#32)
    (hs : Escribe s (s.meteConf a) s.nextItem a.colapsa) : Cuentas (s.meteConf a) := by
  have hnone := hf.frescas s.nextItem le_rfl
  have hcero : holders s.confs s.nextItem = 0 := by
    refine Nat.eq_zero_of_not_pos fun hpos ↦ ?_
    obtain ⟨k, hk⟩ := holders_pos.mp hpos
    exact hf.enConfs _ hk hnone
  refine h.escribe_igual hf hs ?_ (fun b hb ↦ ?_) rfl
  · rw [hcero]
    exact hclients
  · rw [hnone] at hb
    cases hb

/-- The attachments of an entry that is used again go to its class. -/
theorem reutiliza (h : Cuentas s) (hf : Forma s) (hb : s.item e = some b)
    (htipo : b.tipo = a.tipo)
    (hmask : b.tipo.clientMask = true ∨ b.tipo = .listenPort ∨ b.clients = 0#32)
    (hs : Escribe s s' e (b.reutilizado a)) (heq : s.reutiliza e b a = some s') :
    Cuentas s' := by
  have hclients := h.clientes e b hb
  have hclase : s'.clase = fun c ↦ (s.clase c).map (mueve b a c) := by
    obtain rfl := reutiliza_eq hb heq
    rfl
  refine h.escribe hf hs (by rw [ConfItem.reutilizado_clients, hclients]) fun c cl hcl ↦ ?_
  rw [hclase] at hcl
  obtain ⟨cl₀, hcl₀, rfl⟩ := Option.map_eq_some_iff.mp hcl
  have hself : s.pesa c e = decide (b.tipo.clientMask = true ∧ b.confClass = some c) := by
    rw [pesa, hb, Option.any_some]
  have hself' : s'.pesa c e =
      decide (b.tipo.clientMask = true ∧ (b.reutilizado a).confClass = some c) := by
    rw [pesa, hs.item, if_pos rfl, Option.any_some, ConfItem.reutilizado_tipo]
  have hpesa : ∀ d, d ≠ e → s.pesa c d = s'.pesa c d := fun d hd ↦ by
    rw [pesa, pesa, hs.item, if_neg hd]
  have hadd := weight_add (l := s.confs) hpesa
  have hword := congrArg (BitVec.ofNat 32) hadd
  rw [BitVec.ofNat_add, BitVec.ofNat_add, ← h.enlaces c cl₀ hcl₀, hself, hself',
    ConfItem.reutilizado_confClass] at hword
  by_cases hport : a.tipo = .listenPort
  · rw [mueve, if_pos hport]
    simpa [hport] using hword
  · rw [mueve, if_neg hport]
    simp only [if_neg hport] at hword
    have hpasa : ∀ (p : Prop) [Decidable p],
        BitVec.ofNat 32 (if p then holders s.confs e else 0) = if p then b.clients else 0#32 := by
      intro p _
      split
      · exact hclients.symm
      · rfl
    rcases hmask with hmask | hlisten | hcero
    · simp only [hmask, true_and, decide_eq_true_eq, hpasa] at hword
      show cl₀.links - _ + _ = _
      linear_combination hword
    · exact absurd (htipo ▸ hlisten) hport
    · simp only [hpasa, hcero, ite_self, BitVec.add_zero] at hword
      show cl₀.links - _ + _ = _
      rw [hcero, ite_self, ite_self, BitVec.sub_zero, BitVec.add_zero, hword]

end Cuentas

end Estado

end Ircd.Conf
