import Ircd.Conf.File
import Ircd.Lib.Run

/-!
# Every run of the configuration

`attach_conf`, `detach_conf` and `rehash` in any order, with any files. The main theorem,
`clases_sobreviven`, says that the classes survive in every run whose steps are all `Guarda`. What
breaks them otherwise is that `check_class` frees a marked class whose counter is zero without a look
at the entries: a line may name such a class (`not_clases_sobreviven`), a port keeps the class that it
had, and entries for servers do not count. A socket did not count its entry, so that the entry of a
port that the file drops is never freed: its counter wraps when the socket is closed.
-/

namespace Ircd.Conf

open CString Hash Pins

namespace Estado

variable {s s' : Estado} {cruleParse : Option CStr → Option CStr} {abre : ConfItem → Bool}
  {casa : CStr → CStr → Bool}

/-! ## Behind `check_class` -/

/-- No socket is closed when all of them have their entries. -/
theorem closeListeners_eq (h : ∀ o ∈ s.oyentes, ∀ a, s.item o = some a → a.illegal = false) :
    s.closeListeners = s := by
  have hgen : ∀ l : List Nat, (∀ o ∈ l, ∀ a, s.item o = some a → a.illegal = false) →
      l.foldl closeListener s = s := by
    intro l hl
    induction l with
    | nil => rfl
    | cons o l ih =>
        have hone : closeListener s o = s := by
          refine if_neg fun hany ↦ ?_
          obtain ⟨a, ha, hcond⟩ := (Option.any_eq_true _ _).mp hany
          rw [hl o List.mem_cons_self a ha] at hcond
          simp at hcond
        rw [List.foldl_cons, hone]
        exact ih fun o' ho' ↦ hl o' (List.mem_cons_of_mem _ ho')
  exact hgen _ h

theorem quitaIlegales_item {e : Nat} {a : ConfItem} (ha : s.quitaIlegales.item e = some a) :
    s.item e = some a ∧ (e ∈ s.conf → ¬(a.illegal = true ∧ a.clients = 0#32)) := by
  simp only [quitaIlegales] at ha
  split at ha
  · obtain ⟨a₀, ha₀, hsome⟩ := Option.bind_eq_some_iff.mp ha
    split at hsome
    · cases hsome
    · next hcond =>
        obtain rfl := Option.some.inj hsome
        exact ⟨ha₀, fun _ ↦ hcond⟩
  · next hmem => exact ⟨ha, fun h ↦ absurd h hmem⟩

theorem mem_quitaIlegales {e : Nat} (hf : Forma s) : e ∈ s.quitaIlegales.conf ↔
    e ∈ s.conf ∧ ∀ a, s.item e = some a → a.illegal = false := by
  simp only [quitaIlegales, List.mem_filter]
  refine and_congr_right fun he ↦ ?_
  obtain ⟨a, ha⟩ := Option.ne_none_iff_exists'.mp (hf.enLista e he)
  simp [ha]

theorem quitaIlegales_of_clients {e : Nat} {a : ConfItem} (ha : s.item e = some a)
    (hcond : e ∉ s.conf ∨ ¬(a.illegal = true ∧ a.clients = 0#32)) :
    s.quitaIlegales.item e = some a := by
  simp only [quitaIlegales]
  split
  · next he =>
      rw [ha, Option.bind_some, if_neg (hcond.resolve_left (not_not.mpr he))]
  · exact ha

theorem Cuentas.quita_ne_none (hc : Cuentas s) (hf : Forma s) {p : Nat × Nat} (hp : p ∈ s.confs) :
    s.quitaIlegales.item p.2 ≠ none := by
  obtain ⟨a, ha⟩ := Option.ne_none_iff_exists'.mp (hf.enConfs p hp)
  rw [quitaIlegales_of_clients ha (.inr fun hcond ↦ (hc.clients_eq_zero ha).mp hcond.2 p.1 hp)]
  exact Option.some_ne_none _

theorem Cuentas.quitaIlegales (h : Cuentas s) (hf : Forma s) : Cuentas s.quitaIlegales :=
  h.congr rfl (fun _ a ha ↦ ⟨a, (quitaIlegales_item ha).1, rfl, rfl, rfl⟩)
    (fun _ hp ↦ h.quita_ne_none hf hp) fun _ cl hcl ↦ ⟨cl, hcl, rfl⟩

theorem Forma.quitaIlegales (h : Forma s) (hc : Cuentas s)
    (hoy : ∀ o ∈ s.oyentes, ∀ a, s.item o = some a → a.illegal = false) :
    Forma s.quitaIlegales := by
  have hitem : ∀ e a, s.quitaIlegales.item e = some a → s.item e = some a :=
    fun e a ha ↦ (quitaIlegales_item ha).1
  constructor
  · intro e he
    by_contra hne
    obtain ⟨a, ha⟩ := Option.ne_none_iff_exists'.mp hne
    have hnone := h.frescas e he
    rw [hitem e a ha] at hnone
    cases hnone
  · intro e he
    obtain ⟨hmem, hlegal⟩ := (mem_quitaIlegales h).mp he
    obtain ⟨a, ha⟩ := Option.ne_none_iff_exists'.mp (h.enLista e hmem)
    rw [quitaIlegales_of_clients ha (.inr fun hcond ↦ by simp [hlegal a ha] at hcond)]
    exact Option.some_ne_none _
  · exact fun p hp ↦ hc.quita_ne_none h hp
  · exact h.nodup.filter _
  · intro e a ha hno
    obtain ⟨ha₀, hcond⟩ := quitaIlegales_item ha
    by_cases he : e ∈ s.conf
    · have hill : a.illegal = true := by
        by_contra hill
        refine hno ((mem_quitaIlegales h).mpr ⟨he, fun b hb ↦ ?_⟩)
        rw [← Option.some.inj (ha₀.symm.trans hb)]
        simpa using hill
      refine ⟨hill, ?_⟩
      by_contra hnadie
      exact hcond he ⟨hill, (hc.clients_eq_zero ha₀).mpr (not_exists.mp hnadie)⟩
    · exact h.enUso e a ha₀ he
  · exact fun e a ha ↦ h.conClase e a (hitem e a ha)
  · exact fun e a c ha ↦ h.referidas e a c (hitem e a ha)
  · exact fun p hp a ha ↦ h.sinPuertos p hp a (hitem _ a ha)
  · intro o ho
    exact ⟨(mem_quitaIlegales h).mpr ⟨(h.oyentes o ho).1, hoy o ho⟩,
      fun a ha ↦ (h.oyentes o ho).2 a (hitem o a ha)⟩
  · exact fun o ho o' ho' a a' ha ha' ↦ h.unPuerto o ho o' ho' a a' (hitem o a ha) (hitem o' a' ha')
  · exact fun e he a ha ↦ h.plegadas e ((mem_quitaIlegales h).mp he).1 a (hitem e a ha)

theorem Lista.quitaIlegales (h : Lista s) : Lista s.quitaIlegales :=
  h.congr (fun _ ↦ rfl) rfl (fun _ ↦ id) rfl

/-! ## Attaching and detaching -/

/-- The state when the servers of the list still keep the entries that they had. -/
structure Casi (servidores : List (Fin MAXCONNECTIONS × CStr)) (s : Estado) : Prop where
  cuentas : Cuentas s
  forma : Forma s
  lista : Lista s
  legales : ∀ e ∈ s.conf, ∀ a, s.item e = some a → a.illegal = false
  punteros : ∀ e a c, s.item e = some a → a.confClass = some c → s.clase c ≠ none ∨
    a.illegal = true ∧ ∀ k, (k, e) ∈ s.confs → a.tipo.deServidor = true ∧
      ∃ q ∈ servidores, q.1.val = k

namespace Casi

variable {servidores : List (Fin MAXCONNECTIONS × CStr)} {k e : Nat} {a : ConfItem}

theorem atado (h : Casi servidores s) (ha : s.item e = some a) (hmem : (k, e) ∉ s.confs)
    (hill : a.illegal = false) (hk : k < MAXCONNECTIONS) (hport : a.tipo ≠ .listenPort)
    (hpocos : a.tipo.clientMask = true → weight s.enMascara s.confs + 1 < 2 ^ 32) :
    Casi servidores (s.atado k e a) := by
  have hitem : ∀ d b, (s.atado k e a).item d = some b → ∃ b₀, s.item d = some b₀ ∧
      b.tipo = b₀.tipo ∧ b.port = b₀.port ∧ b.confClass = b₀.confClass ∧ b.illegal = b₀.illegal ∧
      (b₀.colapsa = b₀ → b.colapsa = b) := by
    intro d b hb
    by_cases hd : d = e
    · simp only [Estado.atado, if_pos hd, Option.some.injEq] at hb
      refine ⟨a, hd ▸ ha, ?_⟩
      rw [← hb]
      refine ⟨rfl, rfl, rfl, rfl, fun hcol ↦ ?_⟩
      show { a.colapsa with clients := a.clients + 1#32 } = { a with clients := a.clients + 1#32 }
      rw [hcol]
    · simp only [Estado.atado, if_neg hd] at hb
      exact ⟨b, hb, rfl, rfl, rfl, rfl, id⟩
  have hviva : ∀ d, (s.atado k e a).item d = none ↔ s.item d = none := by
    intro d
    by_cases hd : d = e
    · simp [Estado.atado, hd, ha]
    · simp [Estado.atado, hd]
  have hclase : ∀ c, (s.atado k e a).clase c = none ↔ s.clase c = none := by
    intro c
    simp only [Estado.atado]
    split
    · exact Option.map_eq_none_iff
    · rfl
  refine ⟨h.cuentas.atado ha hmem hk hpocos, ?_, h.lista.congr (fun c ↦ ?_) rfl (fun _ ↦ id) rfl,
    ?_, ?_⟩
  · constructor
    · exact fun d hd ↦ (hviva d).mpr (h.forma.frescas d hd)
    · exact fun d hd ↦ mt (hviva d).mp (h.forma.enLista d hd)
    · intro p hp
      rw [ne_eq, hviva]
      rcases List.mem_cons.mp hp with rfl | hp
      · simp [ha]
      · exact h.forma.enConfs p hp
    · exact h.forma.nodup
    · intro d b hb hno
      obtain ⟨b₀, hb₀, -, -, -, hbi, -⟩ := hitem d b hb
      obtain ⟨hbill, k', hk'⟩ := h.forma.enUso d b₀ hb₀ hno
      exact ⟨hbi.trans hbill, k', List.mem_cons_of_mem _ hk'⟩
    · intro d b hb
      obtain ⟨b₀, hb₀, htipo, -, hclass, -⟩ := hitem d b hb
      rw [htipo, hclass]
      exact h.forma.conClase d b₀ hb₀
    · intro d b c hb
      obtain ⟨b₀, hb₀, -, -, hclass, -⟩ := hitem d b hb
      rw [hclass]
      exact h.forma.referidas d b₀ c hb₀
    · intro p hp b hb
      obtain ⟨b₀, hb₀, htipo, -⟩ := hitem p.2 b hb
      rw [htipo]
      rcases List.mem_cons.mp hp with rfl | hp
      · rwa [← Option.some.inj (ha.symm.trans hb₀)]
      · exact h.forma.sinPuertos p hp b₀ hb₀
    · intro o ho
      refine ⟨(h.forma.oyentes o ho).1, fun b hb ↦ ?_⟩
      obtain ⟨b₀, hb₀, htipo, -⟩ := hitem o b hb
      exact htipo.trans ((h.forma.oyentes o ho).2 b₀ hb₀)
    · intro o ho o' ho' b b' hb hb' hport
      obtain ⟨b₀, hb₀, -, hp, -⟩ := hitem o b hb
      obtain ⟨b₁, hb₁, -, hp', -⟩ := hitem o' b' hb'
      exact h.forma.unPuerto o ho o' ho' b₀ b₁ hb₀ hb₁ (hp.symm.trans (hport.trans hp'))
    · intro d hd b hb
      obtain ⟨b₀, hb₀, -, -, -, -, hcol⟩ := hitem d b hb
      exact hcol (h.forma.plegadas d hd b₀ hb₀)
  · simp only [Estado.atado]
    split
    · cases s.clase c <;> rfl
    · rfl
  · intro d hd b hb
    obtain ⟨b₀, hb₀, -, -, -, hbi, -⟩ := hitem d b hb
    exact hbi.trans (h.legales d hd b₀ hb₀)
  · intro d b c hb hclass
    obtain ⟨b₀, hb₀, htipo, -, hcl, hbi, -⟩ := hitem d b hb
    rw [ne_eq, hclase, htipo, hbi]
    refine (h.punteros d b₀ c hb₀ (hcl.symm.trans hclass)).imp_right fun hpend ↦
      ⟨hpend.1, fun k' hk' ↦ ?_⟩
    rcases List.mem_cons.mp hk' with heq | hk'
    · -- an entry that is attached is not illegal
      obtain ⟨-, rfl⟩ := Prod.mk.inj heq
      rw [← Option.some.inj (ha.symm.trans hb₀), hill] at hpend
      cases hpend.1
    · exact hpend.2 k' hk'

theorem attachConf (h : Casi servidores s) (hk : k < MAXCONNECTIONS)
    (hport : ∀ a, s.item e = some a → a.tipo ≠ .listenPort)
    (hpocos : ∀ a, s.item e = some a → a.tipo.clientMask = true →
      weight s.enMascara s.confs + 1 < 2 ^ 32) : Casi servidores (s.attachConf k e).2 := by
  obtain heq | ⟨a, ha, hmem, hill, heq⟩ := attachConf_cases k e s
  · rw [heq]
    exact h
  · rw [heq]
    exact h.atado ha hmem hill hk (hport a ha) (hpocos a ha)

theorem suelto_item {d : Nat} {b : ConfItem} (ha : s.item e = some a)
    (hb : (s.suelto k e a).item d = some b) : ∃ b₀, s.item d = some b₀ ∧ b.tipo = b₀.tipo ∧
      b.port = b₀.port ∧ b.confClass = b₀.confClass ∧ b.illegal = b₀.illegal ∧
      (b₀.colapsa = b₀ → b.colapsa = b) ∧
      (d = e → ¬(a.clients - 1#32 = 0#32 ∧ a.illegal = true)) := by
  by_cases hd : d = e
  · simp only [suelto, if_pos hd] at hb
    split at hb
    · cases hb
    · next hfree =>
        refine ⟨a, hd ▸ ha, ?_⟩
        rw [← Option.some.inj hb]
        refine ⟨rfl, rfl, rfl, rfl, fun hcol ↦ ?_, fun _ ↦ hfree⟩
        show { a.colapsa with clients := a.clients - 1#32 } = { a with clients := a.clients - 1#32 }
        rw [hcol]
  · simp only [suelto, if_neg hd] at hb
    exact ⟨b, hb, rfl, rfl, rfl, rfl, id, fun h ↦ absurd h hd⟩

theorem suelto (h : Casi servidores s) (ha : s.item e = some a) (hmem : (k, e) ∈ s.confs) :
    Casi servidores (s.suelto k e a) := by
  have hviva : ∀ d, s.item d ≠ none → (d = e → ¬(a.clients - 1#32 = 0#32 ∧ a.illegal = true)) →
      (s.suelto k e a).item d ≠ none := by
    intro d hd hfree
    by_cases hde : d = e
    · simp [Estado.suelto, hde, hfree hde]
    · simpa [Estado.suelto, hde] using hd
  have hclase : ∀ c, (s.suelto k e a).clase c = none ↔ s.clase c = none := by
    intro c
    simp only [Estado.suelto]
    split
    · exact Option.map_eq_none_iff
    · rfl
  have herase : ∀ p ∈ s.confs.erase (k, e), p ∈ s.confs := fun p hp ↦ List.mem_of_mem_erase hp
  refine ⟨h.cuentas.suelto ha hmem, ?_, h.lista.congr (fun c ↦ ?_) rfl (fun _ ↦ id) rfl, ?_, ?_⟩
  · constructor
    · intro d hd
      by_contra hne
      obtain ⟨b, hb⟩ := Option.ne_none_iff_exists'.mp hne
      obtain ⟨b₀, hb₀, -⟩ := suelto_item ha hb
      rw [h.forma.frescas d hd] at hb₀
      cases hb₀
    · -- what is freed has left the list
      intro d hd
      refine hviva d (h.forma.enLista d hd) fun hde hfree ↦ ?_
      rw [h.legales d hd a (hde ▸ ha)] at hfree
      cases hfree.2
    · intro p hp
      exact hviva p.2 (h.forma.enConfs p (herase p hp)) fun hde hfree ↦
        h.cuentas.no_erase ha hmem hfree.1 hp hde
    · exact h.forma.nodup
    · intro d b hb hno
      obtain ⟨b₀, hb₀, -, -, -, hbi, -, hfree⟩ := suelto_item ha hb
      obtain ⟨hbill, k', hk'⟩ := h.forma.enUso d b₀ hb₀ hno
      refine ⟨hbi.trans hbill, ?_⟩
      by_cases hde : d = e
      · subst hde
        obtain rfl := Option.some.inj (hb₀.symm.trans ha)
        have hne := fun hcero ↦ hfree rfl ⟨hcero, hbill⟩
        rw [h.cuentas.clients_sub_one ha hmem] at hne
        exact holders_pos.mp (Nat.pos_of_ne_zero fun hcero ↦ hne (congrArg (BitVec.ofNat 32) hcero))
      · exact ⟨k', (List.mem_erase_of_ne fun heq ↦ hde (Prod.mk.inj heq).2).mpr hk'⟩
    · intro d b hb
      obtain ⟨b₀, hb₀, htipo, -, hclass, -⟩ := suelto_item ha hb
      rw [htipo, hclass]
      exact h.forma.conClase d b₀ hb₀
    · intro d b c hb
      obtain ⟨b₀, hb₀, -, -, hclass, -⟩ := suelto_item ha hb
      rw [hclass]
      exact h.forma.referidas d b₀ c hb₀
    · intro p hp b hb
      obtain ⟨b₀, hb₀, htipo, -⟩ := suelto_item ha hb
      rw [htipo]
      exact h.forma.sinPuertos p (herase p hp) b₀ hb₀
    · intro o ho
      refine ⟨(h.forma.oyentes o ho).1, fun b hb ↦ ?_⟩
      obtain ⟨b₀, hb₀, htipo, -⟩ := suelto_item ha hb
      exact htipo.trans ((h.forma.oyentes o ho).2 b₀ hb₀)
    · intro o ho o' ho' b b' hb hb' hport
      obtain ⟨b₀, hb₀, -, hp, -⟩ := suelto_item ha hb
      obtain ⟨b₁, hb₁, -, hp', -⟩ := suelto_item ha hb'
      exact h.forma.unPuerto o ho o' ho' b₀ b₁ hb₀ hb₁ (hp.symm.trans (hport.trans hp'))
    · intro d hd b hb
      obtain ⟨b₀, hb₀, -, -, -, -, hcol, -⟩ := suelto_item ha hb
      exact hcol (h.forma.plegadas d hd b₀ hb₀)
  · simp only [Estado.suelto]
    split
    · cases s.clase c <;> rfl
    · rfl
  · intro d hd b hb
    obtain ⟨b₀, hb₀, -, -, -, hbi, -⟩ := suelto_item ha hb
    exact hbi.trans (h.legales d hd b₀ hb₀)
  · intro d b c hb hclass
    obtain ⟨b₀, hb₀, htipo, -, hcl, hbi, -⟩ := suelto_item ha hb
    rw [ne_eq, hclase, htipo, hbi]
    exact (h.punteros d b₀ c hb₀ (hcl.symm.trans hclass)).imp_right fun hpend ↦
      ⟨hpend.1, fun k' hk' ↦ hpend.2 k' (herase _ hk')⟩

theorem detachConf (h : Casi servidores s) : Casi servidores (s.detachConf k e) := by
  by_cases hmem : (k, e) ∈ s.confs
  · obtain ⟨a, ha⟩ := Option.ne_none_iff_exists'.mp (h.forma.enConfs _ hmem)
    rw [detachConf_eq ha hmem]
    exact h.suelto ha hmem
  · rw [Estado.detachConf, if_neg hmem]
    exact h

/-! ## Servers -/

/-- What detaching leaves. -/
theorem detachConf_resto (h : Casi servidores s) :
    (s.detachConf k e).confs = s.confs.erase (k, e) ∧
      ∀ d b, (s.detachConf k e).item d = some b → ∃ b₀, s.item d = some b₀ ∧ b.tipo = b₀.tipo := by
  by_cases hmem : (k, e) ∈ s.confs
  · obtain ⟨a, ha⟩ := Option.ne_none_iff_exists'.mp (h.forma.enConfs _ hmem)
    rw [detachConf_eq ha hmem]
    refine ⟨rfl, fun d b hb ↦ ?_⟩
    obtain ⟨b₀, hb₀, htipo, -⟩ := suelto_item ha hb
    exact ⟨b₀, hb₀, htipo⟩
  · rw [Estado.detachConf, if_neg hmem, List.erase_of_not_mem hmem]
    exact ⟨rfl, fun d b hb ↦ ⟨b, hb, rfl⟩⟩

/-- `det_confs_butmask` takes the entries of the mask away. -/
theorem desata (l : List (Nat × Nat)) (mask : Tipo → Bool) (h : Casi servidores s) :
    Casi servidores (l.foldl (desata mask) s) ∧
      (∀ p ∈ (l.foldl (Estado.desata mask) s).confs, p ∈ s.confs) ∧
      (∀ d b, (l.foldl (Estado.desata mask) s).item d = some b →
        ∃ b₀, s.item d = some b₀ ∧ b.tipo = b₀.tipo) ∧
      ∀ p ∈ l, p ∈ (l.foldl (Estado.desata mask) s).confs → ∀ a,
        (l.foldl (Estado.desata mask) s).item p.2 = some a → mask a.tipo = false := by
  induction l generalizing s with
  | nil => exact ⟨h, fun p hp ↦ hp, fun d b hb ↦ ⟨b, hb, rfl⟩, fun p hp ↦ by cases hp⟩
  | cons p l ih =>
      rw [List.foldl_cons]
      by_cases hany : ((s.item p.2).any fun a ↦ mask a.tipo) = true
      · have hstep : Estado.desata mask s p = s.detachConf p.1 p.2 := if_pos hany
        obtain ⟨hconfs, hitem⟩ := h.detachConf_resto (k := p.1) (e := p.2)
        obtain ⟨h₁, h₂, h₃, h₄⟩ := ih (s := s.detachConf p.1 p.2) h.detachConf
        rw [hstep]
        refine ⟨h₁, fun q hq ↦ ?_, fun d b hb ↦ ?_, fun q hq hmem ↦ ?_⟩
        · have := h₂ q hq
          rw [hconfs] at this
          exact List.mem_of_mem_erase this
        · obtain ⟨b₁, hb₁, htipo⟩ := h₃ d b hb
          obtain ⟨b₀, hb₀, htipo₀⟩ := hitem d b₁ hb₁
          exact ⟨b₀, hb₀, htipo.trans htipo₀⟩
        · rcases List.mem_cons.mp hq with rfl | hq
          · have := h₂ q hmem
            rw [hconfs] at this
            exact absurd this h.cuentas.nodup.not_mem_erase
          · exact h₄ q hq hmem
      · have hstep : Estado.desata mask s p = s := if_neg hany
        rw [hstep]
        obtain ⟨h₁, h₂, h₃, h₄⟩ := ih h
        refine ⟨h₁, h₂, h₃, fun q hq hmem a ha ↦ ?_⟩
        rcases List.mem_cons.mp hq with rfl | hq
        · obtain ⟨a₀, ha₀, htipo⟩ := h₃ q.2 a ha
          rw [ha₀, Option.any_some, Bool.not_eq_true] at hany
          rwa [htipo]
        · exact h₄ q hq hmem a ha

/-- `attach_confs` for the entries of servers. -/
theorem ata (l : List Nat) (name : CStr) (hk : k < MAXCONNECTIONS) (h : Casi servidores s) :
    Casi servidores (l.foldl (ata casa k name Tipo.deServidor) s) := by
  induction l generalizing s with
  | nil => exact h
  | cons e l ih =>
      rw [List.foldl_cons]
      refine ih ?_
      unfold Estado.ata
      split
      · next hany =>
          have hserv : ∀ a, s.item e = some a → a.tipo.deServidor = true := by
            intro a ha
            rw [ha, Option.any_some, decide_eq_true_eq] at hany
            exact hany.1
          refine h.attachConf hk (fun a ha htipo ↦ ?_) fun a ha hmask ↦ ?_
          · have := hserv a ha
            rw [htipo] at this
            cases this
          · have := hserv a ha
            cases htipo : a.tipo <;> simp [htipo, Tipo.deServidor, Tipo.clientMask] at this hmask
      · exact h

/-- A server gets its entries again. -/
theorem renueva {q : Fin MAXCONNECTIONS × CStr} (h : Casi (q :: servidores) s) :
    Casi servidores (s.renueva casa q) := by
  obtain ⟨h₁, h₂, -, h₄⟩ := h.desata (s.confs.filter (·.1 = q.1.val)) Tipo.deServidor
  have hcasi : Casi servidores
      ((s.confs.filter (·.1 = q.1.val)).foldl (Estado.desata Tipo.deServidor) s) := by
    refine { h₁ with punteros := fun e a c ha hclass ↦ ?_ }
    refine (h₁.punteros e a c ha hclass).imp_right fun hpend ↦ ⟨hpend.1, fun k hk ↦ ?_⟩
    obtain ⟨hserv, q', hq', hqk⟩ := hpend.2 k hk
    refine ⟨hserv, ?_⟩
    rcases List.mem_cons.mp hq' with rfl | hq'
    · -- the server has let this entry go
      have hfalse := h₄ (k, e) (List.mem_filter.mpr ⟨h₂ _ hk, by simpa using hqk.symm⟩) hk a ha
      rw [hserv] at hfalse
      cases hfalse
    · exact ⟨q', hq', hqk⟩
  unfold Estado.renueva
  split
  · exact hcasi
  · exact hcasi.ata _ _ q.1.isLt

theorem renuevan (h : Casi servidores s) : Casi [] (servidores.foldl (Estado.renueva casa) s) := by
  induction servidores generalizing s with
  | nil => exact h
  | cons q servidores ih => exact ih h.renueva

/-- Entries point to classes that are not freed when all servers have got theirs. -/
theorem punteros_nil (h : Casi [] s) : Punteros s := by
  intro e a c ha hclass
  rcases h.punteros e a c ha hclass with hviva | ⟨hill, hpend⟩
  · exact hviva
  · by_cases he : e ∈ s.conf
    · rw [h.legales e he a ha] at hill
      cases hill
    · obtain ⟨-, k, hk⟩ := h.forma.enUso e a ha he
      obtain ⟨-, q, hq, -⟩ := hpend k hk
      cases hq

variable {fichero : List Linea}

/-- A rehash with a file that is as it has to be. -/
theorem rehash (h : Casi [] s) (hclases : ClasesBien cruleParse s fichero servidores)
    (hpuertos : PuertosBien s fichero)
    (hs : s.rehash casa cruleParse fichero abre servidores = some s') : Casi [] s' := by
  obtain ⟨s₂, hlee, rfl⟩ := Option.map_eq_some_iff.mp hs
  have hlect := lectura_lee h.cuentas h.forma h.lista hlee
  have hoy := oyentes_legales h.cuentas h.forma h.lista hpuertos hlee
  have hpun := checkClass_punteros h.cuentas h.forma h.lista h.punteros_nil hclases hlee
  have hc₃ : Cuentas s₂.checkClass := hlect.cuentas.checkClass hlect.forma
  have hf₃ : Forma s₂.checkClass := hlect.forma.congr rfl rfl rfl rfl rfl le_rfl
  have hl₃ : Lista s₂.checkClass := hlect.lista.checkClass
  rw [closeListeners_eq (s := s₂.checkClass) hoy]
  refine renuevan ⟨hc₃.quitaIlegales hf₃, hf₃.quitaIlegales hc₃ hoy, hl₃.quitaIlegales,
    fun e he a ha ↦ ?_, fun e a c ha hclass ↦ ?_⟩
  · exact ((mem_quitaIlegales hf₃).mp he).2 a (quitaIlegales_item ha).1
  · exact hpun e a c (quitaIlegales_item ha).1 hclass

end Casi

end Estado

/-! ## Runs -/

open Estado

/-- What happens. A rehash has the lines of its file, the ports that can be opened, and the servers
among the local clients. -/
inductive Paso where
  | attachConf (cptr : Fin MAXCONNECTIONS) (aconf : Nat)
  | detachConf (cptr : Fin MAXCONNECTIONS) (aconf : Nat)
  | rehash (fichero : List Linea) (abre : ConfItem → Bool)
      (servidores : List (Fin MAXCONNECTIONS × CStr))

/-- `initclass`. The first file is read as a rehash. -/
def inicio : Estado where
  clase := Function.update (fun _ ↦ none) 0 (some (ConfClass.con 0#32 120#32 600#32 1#16 0 0#32))
  classes := 0
  siguientes := []
  item := fun _ ↦ none
  conf := []
  confs := []
  oyentes := []
  nextClase := 1
  nextItem := 0

section

variable (casa : CStr → CStr → Bool) (cruleParse : Option CStr → Option CStr)

/-- One step. Behind a line that stops the process there is no state. -/
def paso (a : Paso) (s : Option Estado) : Option Estado :=
  s.bind fun s ↦
    match a with
    | .attachConf cptr aconf => some (s.attachConf cptr aconf).2
    | .detachConf cptr aconf => some (s.detachConf cptr aconf)
    | .rehash fichero abre servidores => s.rehash casa cruleParse fichero abre servidores

/-- A step that leaves the classes sound: no port is attached, there is room in the counters, and
the file is as it has to be for the state. -/
def Guarda (a : Paso) (s : Option Estado) : Prop :=
  ∀ s', s = some s' →
    match a with
    | .attachConf _ aconf => ∀ a, s'.item aconf = some a → a.tipo ≠ .listenPort ∧
        (a.tipo.clientMask = true → weight s'.enMascara s'.confs + 1 < 2 ^ 32)
    | .detachConf _ _ => True
    | .rehash fichero _ servidores =>
        ClasesBien cruleParse s' fichero servidores ∧ PuertosBien s' fichero

end

/-- The classes have survived: what is in the list or attached has not been freed and points to a
class that has not been freed, the counters of the classes are the numbers of attachments, and an
entry is freed exactly when it has left the list and nobody has it. -/
structure Sana (s : Estado) : Prop where
  punteros : ∀ e, (e ∈ s.conf ∨ ∃ k, (k, e) ∈ s.confs) → ∃ a, s.item e = some a ∧
    (a.tipo.clientMask = true → a.confClass ≠ none) ∧
    ∀ c, a.confClass = some c → s.clase c ≠ none
  enlaces : ∀ c cl, s.clase c = some cl → cl.links.toNat = weight (s.pesa c) s.confs
  liberadas : ∀ e < s.nextItem, s.item e = none ↔
    e ∉ s.conf ∧ (∀ k, (k, e) ∉ s.confs) ∧ e ∉ s.oyentes

theorem casi_inicio : Casi [] inicio where
  cuentas := by
    refine ⟨List.nodup_nil, fun _ hp ↦ (by cases hp), fun _ _ ha ↦ (by cases ha), fun c cl hcl ↦ ?_,
      by decide⟩
    by_cases hc : c = 0
    · simp only [inicio, hc, Function.update_self, Option.some.injEq] at hcl
      rw [← hcl]
      rfl
    · simp [inicio, Function.update_of_ne hc] at hcl
  forma := by
    constructor <;> simp [inicio]
  lista := by
    refine ⟨fun c hc ↦ ?_, ⟨_, rfl, rfl⟩, fun c hc ↦ (by cases hc), fun c hc c' hc' _ _ _ _ _ ↦ ?_⟩
    · have hne : c ≠ 0 := by
        rintro rfl
        cases hc
      simp [inicio, Function.update_of_ne hne]
    · rw [List.mem_singleton.mp hc, List.mem_singleton.mp hc']
  legales _ he := by cases he
  punteros _ _ _ ha := by cases ha

theorem Estado.Casi.sana {s : Estado} (h : Casi [] s) : Sana s where
  punteros e he := by
    have hne : s.item e ≠ none := by
      rcases he with he | ⟨k, hk⟩
      · exact h.forma.enLista e he
      · exact h.forma.enConfs _ hk
    obtain ⟨a, ha⟩ := Option.ne_none_iff_exists'.mp hne
    exact ⟨a, ha, fun hmask ↦ h.forma.conClase e a ha (.inl hmask), fun c hc ↦
      h.punteros_nil e a c ha hc⟩
  enlaces c cl hcl := h.cuentas.links_toNat hcl
  liberadas e _ := by
    constructor
    · intro hnone
      exact ⟨h.forma.not_mem_conf hnone, fun k hk ↦ h.forma.enConfs _ hk hnone, fun ho ↦
        h.forma.not_mem_conf hnone (h.forma.oyentes e ho).1⟩
    · rintro ⟨hno, hnadie, -⟩
      by_contra hne
      obtain ⟨a, ha⟩ := Option.ne_none_iff_exists'.mp hne
      obtain ⟨-, k, hk⟩ := h.forma.enUso e a ha hno
      exact hnadie k hk

section

variable {casa : CStr → CStr → Bool} {cruleParse : Option CStr → Option CStr}

/-- A good step keeps the invariant. -/
theorem casi_paso (a : Paso) (s : Option Estado) (h : ∀ s', s = some s' → Casi [] s')
    (hg : Guarda cruleParse a s) : ∀ s', paso casa cruleParse a s = some s' → Casi [] s' := by
  intro s' hs'
  obtain ⟨s₀, rfl, hs₀⟩ := Option.bind_eq_some_iff.mp hs'
  have h₀ := h s₀ rfl
  have hg₀ := hg s₀ rfl
  cases a with
  | attachConf cptr aconf =>
      rw [← Option.some.inj hs₀]
      exact h₀.attachConf cptr.isLt (fun a ha ↦ (hg₀ a ha).1) fun a ha ↦ (hg₀ a ha).2
  | detachConf cptr aconf =>
      rw [← Option.some.inj hs₀]
      exact h₀.detachConf
  | rehash fichero abre servidores => exact h₀.rehash hg₀.1 hg₀.2 hs₀

/-- In every run whose steps all leave the classes sound, they survive. -/
theorem clases_sobreviven (casa : CStr → CStr → Bool) (cruleParse : Option CStr → Option CStr)
    (l : List Paso)
    (hl : Run.EveryStep (paso casa cruleParse) (Guarda cruleParse) (some inicio) l) :
    ∀ s, Run.final (paso casa cruleParse) (some inicio) l = some s → Sana s := by
  have hfinal := Run.invariant_final (P := fun s ↦ ∀ s', s = some s' → Casi [] s')
    (fun a s h hg ↦ casi_paso a s h hg) (fun s' hs' ↦ Option.some.inj hs' ▸ casi_inicio) hl
  exact fun s hs ↦ (hfinal s hs).sana

end

/-- A class of number 1. -/
def lineaY : Linea := ⟨'Y', "1".toList, ["90".toList, "90".toList, "10".toList]⟩

/-- Clients of the class of number 1. -/
def lineaI : Linea := ⟨'I', "*@*".toList, [[], "*@*".toList, [], "1".toList]⟩

def rehashCon (fichero : List Linea) : Paso := .rehash fichero (fun _ ↦ true) []

/-- A client of the class keeps it while the file is read again. -/
theorem clases_sobreviven_una : ∃ s, Run.final (paso (fun _ _ ↦ false) fun _ ↦ none) (some inicio)
    [rehashCon [lineaY, lineaI], .attachConf ⟨5, by decide⟩ 0, rehashCon [lineaY, lineaI]] =
      some s ∧ Sana s := by
  refine ⟨_, rfl, clases_sobreviven (fun _ _ ↦ false) (fun _ ↦ none)
    [rehashCon [lineaY, lineaI], .attachConf ⟨5, by decide⟩ 0, rehashCon [lineaY, lineaI]]
    ⟨?_, ?_, ?_, trivial⟩ _ rfl⟩
  · rintro s' ⟨⟩
    exact ⟨fun _ hc ↦ (by cases hc), fun _ ho ↦ (by cases ho)⟩
  · rintro s' ⟨⟩ a ha
    cases ha
    exact ⟨by decide, fun _ ↦ by decide⟩
  · rintro s' ⟨⟩
    refine ⟨fun c hc cl hcl hno ↦ absurd ⟨lineaY, by simp, rfl, ?_⟩ hno, fun _ ho ↦ (by cases ho)⟩
    obtain rfl := List.mem_singleton.mp hc
    cases hcl
    rfl

/-- The class is not in the second file, but a line of it is of the class. -/
theorem not_clases_sobreviven : ¬∀ (casa : CStr → CStr → Bool)
    (cruleParse : Option CStr → Option CStr) (l : List Paso) (s : Estado),
    Run.final (paso casa cruleParse) (some inicio) l = some s → Sana s := by
  intro h
  have hsana := h (fun _ _ ↦ false) (fun _ ↦ none)
    [rehashCon [lineaY, lineaI], rehashCon [lineaI]] _ rfl
  obtain ⟨a, ha, -, hc⟩ := hsana.punteros 1 (.inl List.mem_cons_self)
  cases ha
  exact hc 1 rfl rfl

end Ircd.Conf
