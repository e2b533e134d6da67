import Ircd.Net.Particion
import Mathlib.Algebra.Order.BigOperators.Group.List
import Mathlib.Algebra.Order.Ring.Nat

/-!
# Causes and the end of a netsplit

At any time, also with messages on the way, what a server does not know any more was cut off from it
by a decision of the run (`corte_corre`): the client of a message hangs from its receiver by one side
of such a cut (`Mundo.Justo`). And a run has a bounded number of steps (`acaba_corre`), since a
client that leaves a server leads to no more messages than the server has links.
-/

namespace Ircd.Net

variable {ι : Type} [DecidableEq ι] {servers : Set ι} {red : ι → Red ι}
  {a b d p q v x y z : ι} (timestamp : ι → ℕ)

/-- What hangs from `b` for `a` is one side of a cut. -/
def Corta (servers : Set ι) (red : ι → Red ι) (D : Set (ι × ι)) (a b : ι) : Prop :=
  ∃ c ∈ D,
    (∀ x ∈ clientes servers red,
      Forest.Below (red a).padre b x ↔ Forest.Below (red c.1).padre c.2 x) ∨
    (∀ x ∈ clientes servers red,
      Forest.Below (red a).padre b x ↔ ¬ Forest.Below (red c.1).padre c.2 x)

/-- A server knows the clients that no cut parts it from, and messages are about cuts. -/
structure Mundo.Justo (servers : Set ι) (red : ι → Red ι) (D : Set (ι × ι)) (w : Mundo ι) :
    Prop where
  vista : ∀ v ∈ servers, ∀ x ∈ clientes servers red, x ∉ (w.red v).client →
    ∃ c ∈ D, (Forest.Below (red c.1).padre c.2 v ↔ ¬ Forest.Below (red c.1).padre c.2 x)
  vuelo : ∀ p q m, (p, q, m) ∈ w.vuelo → Corta servers red D q m.objetivo

/-- What `exit_client` decides on a server. -/
def cortes : Aviso ι → Set (ι × ι)
  | .exit a b _ => {(a, b)}
  | _ => ∅

section

omit [DecidableEq ι] in
/-- More decisions explain what fewer do. -/
theorem Corta.mono {D D' : Set (ι × ι)} (hc : Corta servers red D a b) (hD : D ⊆ D') :
    Corta servers red D' a b := by
  obtain ⟨c, hcD, hc⟩ := hc
  exact ⟨c, hD hcD, hc⟩

omit [DecidableEq ι] in
/-- More decisions account for a state that fewer account for. -/
theorem Mundo.Justo.mono {w : Mundo ι} {D D' : Set (ι × ι)} (hj : w.Justo servers red D) (hD : D ⊆ D') :
    w.Justo servers red D' where
  vista v hv x hx hno := by
    obtain ⟨c, hc, hside⟩ := hj.vista v hv x hx hno
    exact ⟨c, hD hc, hside⟩
  vuelo p q m hm := (hj.vuelo p q m hm).mono hD

omit [DecidableEq ι] in
/-- A cut parts the server from what hangs from it. -/
theorem Corta.parte {D : Set (ι × ι)} (hc : Corta servers red D a b)
    (ha : a ∈ clientes servers red) (hx : x ∈ clientes servers red)
    (hno : ¬ Forest.Below (red a).padre b a) (hbelow : Forest.Below (red a).padre b x) :
    ∃ c ∈ D, (Forest.Below (red c.1).padre c.2 a ↔ ¬ Forest.Below (red c.1).padre c.2 x) := by
  obtain ⟨c, hcD, hside | hside⟩ := hc
  · exact ⟨c, hcD, iff_of_false (fun h ↦ hno ((hside a ha).mpr h))
      (not_not.mpr ((hside x hx).mp hbelow))⟩
  · exact ⟨c, hcD, iff_of_true (by_contra fun h ↦ hno ((hside a ha).mpr h))
      ((hside x hx).mp hbelow)⟩

variable {timestamp} {w : Mundo ι} {sptr : ι} {vuelo : List (ι × ι × Mensaje ι)}
  {D : Set (ι × ι)} (h : Concordes servers red) (hw : w.Bien timestamp servers red)

include h hw

/-- `exit_client` for a reason that is accounted for. -/
theorem Mundo.Justo.exit (hj : w.Justo servers red D) (hq : q ∈ servers)
    (hb : b ∈ (w.red q).client) (hne : b ≠ q) (cptr : ι) (hcorta : Corta servers red D q b)
    (hsub : ∀ m ∈ vuelo, m ∈ w.vuelo) :
    Mundo.Justo servers red D
      (Mundo.exit timestamp { w with vuelo := vuelo } q cptr b sptr) := by
  obtain ⟨S, -, -, hexit, hclient⟩ := Mundo.Bien.exit_red h hw hq hb hne cptr
  constructor
  case vista =>
    intro v hv x hx hno
    by_cases hold : x ∈ (w.red v).client
    · by_cases hvq : v = q
      · subst hvq
        have hself : (Mundo.exit timestamp { w with vuelo := vuelo } v cptr b sptr).red v =
            (red v).podada S := (Function.update_self ..).trans hexit
        rw [hself, hclient] at hno
        refine hcorta.parte (h.rooted.host_node v hv) hx (h.rooted.not_below_root hv hne) ?_
        exact by_contra fun hbelow ↦ hno ⟨hold, hbelow⟩
      · have hother : (Mundo.exit timestamp { w with vuelo := vuelo } q cptr b sptr).red v =
            w.red v := Function.update_of_ne hvq ..
        rw [hother] at hno
        exact absurd hold hno
    · exact hj.vista v hv x hx hold
  case vuelo =>
    intro p' q' m' hm
    rcases List.mem_append.mp hm with hm | hm
    · exact hj.vuelo p' q' m' (hsub _ hm)
    · obtain ⟨⟨d, m⟩, hm, heq⟩ := List.mem_map.mp hm
      cases heq
      rcases (Mundo.Bien.mem_exitMensajes h hw hq hb hne).mp hm with
        ⟨hlocal, -, hbs, rfl, rfl⟩ | ⟨habierto, -, hdb, haviso⟩
      · -- the other side of the link
        have hqp : (red q).padre q' = some q := h.padre_of_desde hq hbs hne hlocal
        obtain ⟨c, hcD, hside⟩ := hcorta
        refine ⟨c, hcD, ?_⟩
        have hother (x : ι) (hx : x ∈ clientes servers red) :
            Forest.Below (red q').padre q x ↔ ¬ Forest.Below (red q).padre q' x :=
          h.rooted.below_iff_not hbs hq (h.rooted.back hq hbs hqp) hx
        rcases hside with hside | hside
        · exact .inr fun x hx ↦ (hother x hx).trans (not_congr (hside x hx))
        · exact .inl fun x hx ↦ (hother x hx).trans ((not_congr (hside x hx)).trans not_not)
      · obtain ⟨hd, hqd, -⟩ := (Mundo.Bien.abierto_iff h hw hq).mp habierto
        obtain ⟨c, hcD, hside⟩ := hcorta
        obtain ⟨m', haviso', hobj⟩ := Mundo.Bien.exists_aviso h hw hq hb hne sptr
        cases haviso'.symm.trans haviso
        rw [hobj]
        have hsame (x : ι) := h.rooted.below_iff hq hd hqd hne hdb.symm (x := x)
        refine ⟨c, hcD, hside.imp (fun hside x hx ↦ ?_) fun hside x hx ↦ ?_⟩
        · exact (hsame x).symm.trans (hside x hx)
        · exact (hsame x).symm.trans (hside x hx)

/-- The step. -/
theorem Mundo.Justo.paso (hj : w.Justo servers red D) (a : Aviso ι)
    (ha : Mundo.Puede servers a w) :
    (Mundo.paso timestamp a w).Justo servers red (D ∪ cortes a) := by
  cases a with
  | exit a b sptr =>
      obtain ⟨ha, hb, hba, -⟩ := ha
      refine (hj.mono Set.subset_union_left).exit h hw ha hb hba b ?_ fun _ ↦ id
      exact ⟨(a, b), .inr rfl, .inl fun _ _ ↦ .rfl⟩
  | entrega k =>
      show (w.entrega timestamp k).Justo servers red (D ∪ ∅)
      rw [Set.union_empty]
      cases hk : w.vuelo[k]? with
      | none =>
          unfold Mundo.entrega
          rw [hk]
          exact hj
      | some e =>
          obtain ⟨p, q, m⟩ := e
          have hmem := List.mem_of_getElem? hk
          have hm := hw.fiel p q m hmem
          have hsub : ∀ e ∈ w.vuelo.eraseIdx k, e ∈ w.vuelo :=
            fun e he ↦ List.mem_of_mem_eraseIdx he
          rcases Mundo.Bien.entrega_cases h hw hk with ⟨heq, -⟩ | ⟨hobj, sptr, heq, -⟩
          · rw [heq]
            exact ⟨hj.vista, fun p' q' m' hm' ↦ hj.vuelo p' q' m' (hsub _ hm')⟩
          · rw [heq]
            exact hj.exit h hw hm.receptor hobj hm.ajeno p (hj.vuelo p q m hmem) hsub
  | pierde k =>
      show Mundo.Justo servers red (D ∪ ∅) { w with vuelo := w.vuelo.eraseIdx k }
      rw [Set.union_empty]
      exact ⟨hj.vista, fun p q m hm ↦ hj.vuelo p q m (List.mem_of_mem_eraseIdx hm)⟩

end

/-- A run adds its decisions. -/
theorem Mundo.Justo.corre (h : Concordes servers red) {w : Mundo ι} {D : Set (ι × ι)}
    (hw : w.Bien timestamp servers red) (hj : w.Justo servers red D) {l : List (Aviso ι)}
    (hl : Run.EveryStep (Mundo.paso timestamp) (Mundo.Puede servers) w l) :
    (Run.final (Mundo.paso timestamp) w l).Justo servers red
      (D ∪ {c | ∃ a ∈ l, c ∈ cortes a}) := by
  induction l generalizing w D with
  | nil => exact hj.mono Set.subset_union_left
  | cons a l ih =>
      have hnext := ih (hw.paso h a hl.1) (hj.paso h hw a hl.1) hl.2
      refine hnext.mono ?_
      rintro c ((hc | hc) | ⟨a', ha', hc⟩)
      · exact .inl hc
      · exact .inr ⟨a, List.mem_cons_self, hc⟩
      · exact .inr ⟨a', List.mem_cons_of_mem a ha', hc⟩

/-- **Nobody leaves without a cause.** In every run, also with messages on the way, a server does not
know a client any more only if a decision of the run, `exit_client` of `b` on the server `a`, has cut
the tree between them: one of them hangs from `b` for `a`, and the other does not. -/
theorem corte_corre (h : Concordes servers red) {l : List (Aviso ι)}
    (hl : Run.EveryStep (Mundo.paso timestamp) (Mundo.Puede servers) ⟨red, []⟩ l)
    (hv : v ∈ servers) (hx : x ∈ (red v).client)
    (hno : x ∉ ((Run.final (Mundo.paso timestamp) ⟨red, []⟩ l).red v).client) :
    ∃ a b sptr, Aviso.exit a b sptr ∈ l ∧
      (Forest.Below (red a).padre b v ↔ ¬ Forest.Below (red a).padre b x) := by
  have hstart : Mundo.Justo servers red ∅ ⟨red, []⟩ :=
    ⟨fun v hv x hx hno ↦ absurd (h.mem_client hv hx) hno,
      fun p q m hm ↦ absurd hm List.not_mem_nil⟩
  have hj := Mundo.Justo.corre timestamp h (Mundo.Bien.inicio timestamp h) hstart hl
  obtain ⟨⟨a, b⟩, hc, hside⟩ := hj.vista v hv x ⟨v, hv, hx⟩ hno
  rcases hc with hc | ⟨e, he, hc⟩
  · cases hc
  · cases e with
    | exit a' b' sptr =>
        cases hc
        exact ⟨a, b, sptr, he, hside⟩
    | entrega k => cases hc
    | pierde k => cases hc

theorem corte_corre_dos : ∃ a b sptr, Aviso.exit a b sptr ∈ roturaDePrueba ∧
    (Forest.Below (redesDePrueba a).padre b 2 ↔ ¬ Forest.Below (redesDePrueba a).padre b 0) := by
  refine corte_corre id concordes_redesDePrueba puede_roturaDePrueba ?_ (by decide) ?_
  · show 2 ∈ [0, 1, 2]
    decide
  · show 0 ∉ (mundoDePrueba.red 2).client
    decide

/-! ## The end of the messages -/

/-- The messages, and the clients that can still leave, each with as many messages as it can lead
to. -/
def Mundo.peso (L : List ι) (w : Mundo ι) : ℕ :=
  w.vuelo.length + (L.length + 2) * (L.map fun v ↦ (w.red v).client.length).sum

/-- A message that comes in or is lost is there. -/
def Mundo.Activo : Aviso ι → Mundo ι → Prop
  | .exit .., _ => True
  | .entrega k, w | .pierde k, w => k < w.vuelo.length

section

variable {timestamp} {w : Mundo ι} {sptr : ι} {vuelo : List (ι × ι × Mensaje ι)} {L : List ι}
  (h : Concordes {s | s ∈ L} red) (hw : w.Bien timestamp {s | s ∈ L} red)

include h hw

/-- A server tells each link at most once, and the one it closes once more. -/
theorem Mundo.Bien.length_exitMensajes (hq : q ∈ L) (b sptr : ι) :
    ((w.red q).exitMensajes timestamp b sptr).length ≤ L.length + 1 := by
  have hdown : ((w.red q).ficha (w.red q).me).serv.down.length ≤ L.length := by
    have hnodup := (red_bien h hw hq).down_nodup (w.red q).me
    exact (List.subperm_of_subset hnodup fun d hd ↦ ((abierto_iff h hw hq).mp hd).1).length_le
  have hclose : (if ((w.red q).ficha b).desde = b ∧ b ≠ ((w.red q).ficha sptr).desde ∧
      ((w.red q).ficha b).status = .server then
        [(b, Mensaje.squit sptr (w.red q).me 0)] else []).length ≤ 1 := by
    split <;> simp
  unfold Red.exitMensajes
  rw [List.length_append]
  refine (Nat.add_le_add hclose ?_).trans (Nat.add_comm 1 L.length).le
  exact (List.length_filterMap_le _ _).trans ((List.length_filter_le _ _).trans hdown)

/-- `exit_client` costs more than the messages it sends. -/
theorem Mundo.Bien.peso_exit (hq : q ∈ L) (hb : b ∈ (w.red q).client) (hne : b ≠ q) (cptr : ι) :
    (Mundo.exit timestamp { w with vuelo := vuelo } q cptr b sptr).peso L <
      Mundo.peso L { w with vuelo := vuelo } := by
  have hmens := length_exitMensajes h hw hq b sptr
  have hother (v : ι) (hv : v ≠ q) :
      (Mundo.exit timestamp { w with vuelo := vuelo } q cptr b sptr).red v = w.red v :=
    Function.update_of_ne hv ..
  have hless : ((Mundo.exit timestamp { w with vuelo := vuelo } q cptr b sptr).red q).client.length <
      (w.red q).client.length := by
    have hme : b ≠ (w.red q).me := by rwa [red_me h hw hq]
    have hself : (Mundo.exit timestamp { w with vuelo := vuelo } q cptr b sptr).red q =
        (w.red q).podada {x | Forest.Below (w.red q).padre b x} := by
      refine (Function.update_self ..).trans ?_
      rw [(red_bien h hw hq).exitClient cptr hb hme]
      rfl
    rw [hself]
    refine List.length_filter_lt_length_iff_exists.mpr ⟨b, hb, ?_⟩
    exact fun hb' ↦ fuera_iff.mp hb' .refl
  have hsum : (L.map fun v ↦ ((Mundo.exit timestamp { w with vuelo := vuelo } q cptr b
      sptr).red v).client.length).sum < (L.map fun v ↦ (w.red v).client.length).sum := by
    refine List.sum_lt_sum _ _ (fun v _ ↦ ?_) ⟨q, hq, hless⟩
    by_cases hv : v = q
    · rw [hv]
      exact hless.le
    · rw [hother v hv]
  have hvuelo : (Mundo.exit timestamp { w with vuelo := vuelo } q cptr b sptr).vuelo.length =
      vuelo.length + ((w.red q).exitMensajes timestamp b sptr).length := by
    show (vuelo ++ _).length = _
    rw [List.length_append, List.length_map]
  have hmul := Nat.mul_le_mul_left (L.length + 2) (Nat.succ_le_of_lt hsum)
  rw [Nat.mul_succ] at hmul
  unfold Mundo.peso
  rw [hvuelo]
  show _ < vuelo.length + (L.length + 2) * (L.map fun v ↦ (w.red v).client.length).sum
  omega

/-- The step. -/
theorem Mundo.Bien.peso_paso (a : Aviso ι) (ha : Mundo.Puede {s | s ∈ L} a w)
    (hactivo : Mundo.Activo a w) : (Mundo.paso timestamp a w).peso L < w.peso L := by
  have herase {k : ℕ} (hk : k < w.vuelo.length) :
      Mundo.peso L { w with vuelo := w.vuelo.eraseIdx k } < w.peso L := by
    have hlen := List.length_eraseIdx_of_lt hk
    show (w.vuelo.eraseIdx k).length + _ < w.vuelo.length + _
    refine Nat.add_lt_add_right ?_ _
    omega
  cases a with
  | exit a b sptr => exact peso_exit h hw ha.1 ha.2.1 ha.2.2.1 b
  | entrega k =>
      have hk := List.getElem?_eq_getElem hactivo
      generalize w.vuelo[k] = e at hk
      obtain ⟨p, q, m⟩ := e
      have hm := hw.fiel p q m (List.mem_of_getElem? hk)
      show (w.entrega timestamp k).peso L < w.peso L
      rcases entrega_cases h hw hk with ⟨heq, -⟩ | ⟨hobj, sptr, heq, -⟩
      · rw [heq]
        exact herase hactivo
      · rw [heq]
        exact (peso_exit h hw hm.receptor hobj hm.ajeno p).trans (herase hactivo)
  | pierde k => exact herase hactivo

end

/-- **The messages come to an end.** However the messages come in, a run has at most as many steps as
there are clients known to the servers, each of them counted once for each server and twice more. -/
theorem acaba_corre (L : List ι) (h : Concordes {s | s ∈ L} red) {l : List (Aviso ι)}
    (hl : Run.EveryStep (Mundo.paso timestamp)
      (fun a w ↦ Mundo.Puede {s | s ∈ L} a w ∧ Mundo.Activo a w) ⟨red, []⟩ l) :
    l.length ≤ (L.length + 2) * (L.map fun v ↦ (red v).client.length).sum := by
  have hlen := Run.length_le_of_measure (P := Mundo.Bien timestamp {s | s ∈ L} red)
    (fun a w hw ha ↦ hw.paso h a ha.1) (fun a w hw ha ↦ hw.peso_paso h a ha.1 ha.2)
    (Mundo.Bien.inicio timestamp h) hl
  rwa [Mundo.peso, List.length_nil, Nat.zero_add] at hlen

theorem acaba_corre_tres : roturaDePrueba.length ≤
    ([0, 1, 2].length + 2) * ([0, 1, 2].map fun v ↦ (redesDePrueba v).client.length).sum := by
  refine acaba_corre id [0, 1, 2] concordes_redesDePrueba ?_
  refine Run.everyStep_and puede_roturaDePrueba ⟨trivial, ?_, ?_, trivial⟩
  · show 0 < (Mundo.paso id (.exit 0 1 0) ⟨redesDePrueba, []⟩).vuelo.length
    decide
  · show 0 < (Mundo.paso id (.entrega 0)
      (Mundo.paso id (.exit 0 1 0) ⟨redesDePrueba, []⟩)).vuelo.length
    decide

end Ircd.Net
