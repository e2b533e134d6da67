import Ircd.Dbuf.Queue

/-!
# Bytes enter a buffer

`dbuf_put2` fills the last block, if there is one, and then takes new blocks. `Vale` says where its
pointer variable points to. When no block can be had, the whole buffer is given back.
-/

namespace Ircd.Dbuf

open CString

variable {β : Type} [DecidableEq β] {m m' : Memoria β} {lista lista' : Option β → List Nat}
  {cola : β → List Char} {b : β} {db : Nat} {as xs : List Nat} {q t buf : List Char}
  {extra : Nat} {k : Enganche}

/-- Where the pointer variable of `dbuf_put2` points to. -/
def Vale (k : Enganche) (b : β) (m : Memoria β) (xs : List Nat) : Prop :=
  match k with
  | .head => xs = [] ∧ (m.dbuf b).tail = none
  | .tail => xs ≠ []
  | .next c => ∃ as, xs = as ++ [c]

omit [DecidableEq β] in
/-- The variable leads to the last block of the chain, or the chain ends there. -/
theorem Vale.lee (hk : Vale k b m (lista (some b))) (h : Parcial b extra m lista cola) :
    (k.lee b m = none ∧
        (k = .head ∧ lista (some b) = [] ∨ ∃ c as, k = .next c ∧ lista (some b) = as ++ [c])) ∨
      ∃ db as, k.lee b m = some db ∧ k = .tail ∧ lista (some b) = as ++ [db] := by
  have hlinks := h.nucleo.listas.links (some b)
  cases k with
  | head =>
      refine Or.inl ⟨?_, Or.inl ⟨rfl, hk.1⟩⟩
      show (m.dbuf b).head = none
      rw [h.nucleo.head, hk.1, List.head?_nil]
  | tail =>
      obtain ⟨as, db, hsplit⟩ := (List.eq_nil_or_concat' (lista (some b))).resolve_left hk
      refine Or.inr ⟨db, as, ?_, rfl, hsplit⟩
      show (m.dbuf b).tail = some db
      rw [h.propia.tail hk, hsplit, List.getLast?_append_cons, List.getLast?_singleton]
  | next c =>
      obtain ⟨as, hsplit⟩ := hk
      refine Or.inl ⟨?_, Or.inr ⟨c, as, rfl, hsplit⟩⟩
      rw [hsplit] at hlinks
      exact hlinks.from_mem.2

omit [DecidableEq β] in
/-- The operation may end here. -/
theorem Vale.bien (hk : Vale k b m (lista (some b))) (h : Parcial b 0 m lista cola) :
    Bien m lista cola := by
  refine h.bien fun hnil ↦ ?_
  cases k with
  | head => exact hk.2
  | tail => exact absurd hnil hk
  | next c =>
      obtain ⟨as, hsplit⟩ := hk
      rw [hnil] at hsplit
      exact absurd hsplit.symm (by simp)

/-! ## Copying -/

omit [DecidableEq β] in
theorem igual_copia {p : Nat} (hp : p ≠ db) : Igual m (m.copia db t) p :=
  ⟨rfl, Function.update_of_ne hp _ _, Function.update_of_ne hp _ _⟩

omit [DecidableEq β] in
/-- The bytes are put behind those of the block. -/
theorem bytes_copia (hle : m.start db ≤ m.fin db) :
    (m.copia db t).bytes db = m.bytes db ++ t := by
  have hlen : (m.copia db t).fin db - (m.copia db t).start db =
      m.fin db - m.start db + t.length := by
    show Function.update m.fin db (m.fin db + t.length) db - m.start db = _
    rw [Function.update_self]
    omega
  have hfin : m.start db + (m.fin db - m.start db) = m.fin db := by omega
  have hdata : ∀ i, (m.copia db t).data db i =
      if m.fin db ≤ i ∧ i < m.fin db + t.length then t.getD (i - m.fin db) nul
      else m.data db i := by
    intro i
    show Function.update m.data db _ db i = _
    rw [Function.update_self]
  rw [Memoria.bytes, hlen]
  show (m.copia db t).lee (db, m.start db) _ = _
  rw [lee_add, hfin]
  congr 1
  · refine List.map_congr_left fun i hi ↦ ?_
    have hi : i < m.start db + (m.fin db - m.start db) := (List.mem_range'_1.mp hi).2
    show (m.copia db t).data db i = m.data db i
    rw [hdata, if_neg (by omega)]
  · refine List.ext_getElem (lee_length _) fun i hi hit ↦ ?_
    simp only [Memoria.lee, List.getElem_map, List.getElem_range', hdata]
    rw [if_pos (by omega), Nat.one_mul, Nat.add_sub_cancel_left, List.getD_eq_getElem?_getD,
      List.getElem?_eq_getElem hit, Option.getD_some]

omit [DecidableEq β] in
/-- The bytes are put behind those of the buffer. -/
theorem guarda_copia (hcon : m.contenido (as ++ [db]) = q) (hdb : db ∉ as)
    (has : ∀ p ∈ as, m.start p < m.fin p ∧ m.fin p ≤ DBUF_SIZE) (hle : m.start db ≤ m.fin db)
    (hlt : m.start db < m.fin db + t.length) (hfin : m.fin db + t.length ≤ DBUF_SIZE)
    (hlength : (m.dbuf b).length = (q ++ t).length + extra) (htail : (m.dbuf b).tail = some db) :
    Guarda (m.copia db t) b extra (as ++ [db]) (q ++ t) where
  contenido := by
    have hotros : ∀ p ∈ as, Igual m (m.copia db t) p :=
      fun p hp ↦ igual_copia (ne_of_mem_of_not_mem hp hdb)
    rw [← hcon, contenido_append, contenido_append, contenido_congr hotros, contenido_cons,
      contenido_cons, bytes_copia hle]
    simp
  lleno p hp := by
    by_cases hpdb : p = db
    · subst hpdb
      show m.start p < Function.update m.fin p (m.fin p + t.length) p ∧
        Function.update m.fin p (m.fin p + t.length) p ≤ DBUF_SIZE
      rw [Function.update_self]
      exact ⟨hlt, hfin⟩
    · rw [(igual_copia hpdb).1, (igual_copia hpdb).2.1]
      refine has p ?_
      simpa [hpdb] using hp
  length := hlength
  tail _ := by
    rw [List.getLast?_append_cons, List.getLast?_singleton]
    exact htail

/-- What is put behind the last block of a buffer. -/
theorem Parcial.copia (h : Parcial b (t.length + extra) m lista cola)
    (hsplit : lista (some b) = as ++ [db]) (ht : t.length ≤ DBUF_SIZE - m.fin db) :
    Parcial b extra (m.copia db t) lista (Function.update cola b (cola b ++ t)) := by
  have hpropia := h.propia
  have hnodup := (h.nucleo.listas.links (some b)).nodup
  rw [hsplit] at hpropia hnodup
  have hdb : db ∉ as := fun hmem ↦ (List.nodup_append.mp hnodup).2.2 db hmem db (by simp) rfl
  have hlleno := hpropia.lleno db (by simp)
  refine h.paso (h.nucleo.congr rfl rfl rfl rfl) (fun _ _ ↦ rfl) (fun _ _ ↦ rfl) ?_ ?_
  · intro b' hb' p hp
    refine igual_copia fun heq ↦ hb' (Option.some.inj ?_)
    exact h.nucleo.listas.disjoint (some b') (some b) p hp (by simp [hsplit, heq])
  · rw [hsplit]
    refine guarda_copia hpropia.contenido hdb (fun p hp ↦ hpropia.lleno p (by simp [hp]))
      (Nat.le_of_lt hlleno.1) (by omega) (by omega) ?_ ?_
    · have hlen := hpropia.length
      rw [List.length_append]
      omega
    · rw [hpropia.tail (by simp), List.getLast?_append_cons, List.getLast?_singleton]

theorem dbuf_engancha : ((engancha k b db m).dbuf b).length = (m.dbuf b).length ∧
    ((engancha k b db m).dbuf b).tail = some db := by
  cases k <;> simp [engancha, Enganche.escribe, Memoria.conDBuf]

theorem dbuf_engancha_of_ne {b' : β} (hb' : b' ≠ b) :
    (engancha k b db m).dbuf b' = m.dbuf b' := by
  cases k <;> simp [engancha, Enganche.escribe, Memoria.conDBuf, hb']

theorem igual_engancha {p : Nat} (hp : p ≠ db) : Igual m (engancha k b db m) p := by
  cases k <;> simp [Igual, engancha, Enganche.escribe, Memoria.conDBuf, hp]

/-- The bytes of a buffer after a new block has got some. -/
theorem Guarda.nuevo (h : Guarda m b (t.length + extra) xs q) {m₁ : Memoria β}
    (hdbuf : m₁.dbuf = m.dbuf) (higual : ∀ p, Igual m m₁ p) (hdb : db ∉ xs)
    (ht : t ≠ []) (hle : t.length ≤ DBUF_SIZE) :
    Guarda ((engancha k b db m₁).copia db t) b extra (xs ++ [db]) (q ++ t) := by
  have hstart : (engancha k b db m₁).start db = 0 := Function.update_self ..
  have hfin : (engancha k b db m₁).fin db = 0 := Function.update_self ..
  have hotros : ∀ p ∈ xs, Igual m (engancha k b db m₁) p := by
    intro p hp
    obtain ⟨hs, hf, hd⟩ := higual p
    obtain ⟨hs', hf', hd'⟩ := igual_engancha (k := k) (b := b) (m := m₁)
      (ne_of_mem_of_not_mem hp hdb)
    exact ⟨hs'.trans hs, hf'.trans hf, hd'.trans hd⟩
  have hpos := List.length_pos_of_ne_nil ht
  refine guarda_copia ?_ hdb (fun p hp ↦ ?_) (by omega) (by omega) (by omega) ?_ dbuf_engancha.2
  · have hbytes : (engancha k b db m₁).bytes db = [] := by
      rw [← List.length_eq_zero_iff, bytes_length, hfin, Nat.zero_sub]
    rw [contenido_append, contenido_congr hotros, h.contenido, contenido_cons, hbytes]
    simp
  · rw [(hotros p hp).1, (hotros p hp).2.1]
    exact h.lleno p hp
  · rw [dbuf_engancha.1, hdbuf, h.length, List.length_append, Nat.add_assoc]

/-- What is put into a new block. -/
theorem Parcial.nuevo (h : Parcial b (t.length + extra) m lista cola) {m₁ : Memoria β}
    (hn : Nucleo m₁ lista' (some db)) (hlista : ∀ b, lista' (some b) = lista (some b))
    (hdbuf : m₁.dbuf = m.dbuf) (higual : ∀ p, Igual m m₁ p)
    (hk : k = .head ∧ lista (some b) = [] ∨ ∃ c as, k = .next c ∧ lista (some b) = as ++ [c])
    (ht : t ≠ []) (hle : t.length ≤ DBUF_SIZE) :
    ∃ lista'', Parcial b extra ((engancha k b db m₁).copia db t) lista''
        (Function.update cola b (cola b ++ t)) ∧
      lista'' (some b) = lista (some b) ++ [db] := by
  have hfuera := (hn.fuera db rfl).2
  have hself : Function.update lista' (some b) (lista' (some b) ++ [db]) (some b) =
      lista (some b) ++ [db] := by rw [Function.update_self, hlista]
  rw [← hlista b] at hk
  refine ⟨_, h.paso ((hn.engancha hk).congr rfl rfl rfl rfl) ?_ ?_ ?_ ?_, hself⟩
  · intro b' hb'
    rw [Function.update_of_ne (by simpa using hb'), hlista]
  · intro b' hb'
    exact (dbuf_engancha_of_ne hb').trans (congrFun hdbuf b')
  · intro b' hb' p hp
    have hne : p ≠ db := fun heq ↦ hfuera (some b') (by rwa [hlista, ← heq])
    obtain ⟨hs, hf, hd⟩ := higual p
    obtain ⟨hs', hf', hd'⟩ := igual_engancha (k := k) (b := b) (m := m₁) hne
    obtain ⟨hs'', hf'', hd''⟩ := igual_copia (m := engancha k b db m₁) (t := t) hne
    exact ⟨hs''.trans (hs'.trans hs), hf''.trans (hf'.trans hf), hd''.trans (hd'.trans hd)⟩
  · rw [hself]
    exact h.propia.nuevo hdbuf higual (fun hmem ↦ hfuera (some b) (by rwa [hlista])) ht hle

/-! ## The operation -/

/-- When no block can be had, the buffer is emptied. -/
theorem Parcial.dbufMallocError (h : Parcial b extra m lista cola) :
    ∃ m', dbufMallocError b m = some (0, m') ∧ Refina m' (Function.update cola b []) := by
  have hself : m.conDBuf b (m.dbuf b) = m := by
    rw [Memoria.conDBuf, Function.update_eq_self]
  have hnucleo : Nucleo (m.conDBuf b (m.dbuf b)) lista none := by
    rw [hself]
    exact h.nucleo
  obtain ⟨m₁, lista₁, hlibera, hn, hnil, hotros, hdbuf, higual⟩ :=
    liberaDesde_nucleo rfl hnucleo (h.nucleo.length_le (some b))
  have hvacio : (m₁.conDBuf b ⟨0, none, none⟩).dbuf b = ⟨0, none, none⟩ := Function.update_self ..
  have hguarda : Guarda (m₁.conDBuf b ⟨0, none, none⟩) b 0 (lista₁ (some b)) [] := by
    rw [hnil]
    exact ⟨rfl, by simp, by rw [hvacio]; rfl, by simp⟩
  have hpaso := h.paso hn hotros
    (fun b' hb' ↦ (Function.update_of_ne hb' _ _).trans (congrFun hdbuf b'))
    (fun _ _ p _ ↦ higual p) hguarda
  refine ⟨_, ?_, lista₁, hpaso.bien fun _ ↦ by rw [hvacio]⟩
  rw [Dbuf.dbufMallocError, hlibera]
  rfl

/-- The rounds that the loop of `dbuf_put2` needs. -/
def rondas (k : Enganche) (buf : List Char) : Nat :=
  match k with
  | .tail => buf.length + 1
  | _ => buf.length

/-- What `dbuf_put2` does to the queues: the bytes are behind the others, or the queue is empty. -/
def Puesto (cola : β → List Char) (b : β) (buf : List Char) (r : Int) (m' : Memoria β) : Prop :=
  r = 1 ∧ Refina m' (Function.update cola b (cola b ++ buf)) ∨
    r = 0 ∧ Refina m' (Function.update cola b [])

/-- The loop of `dbuf_put2` after a piece of the bytes. -/
theorem Puesto.sigue {r : Int} (h : Puesto (Function.update cola b (cola b ++ t)) b q r m') :
    Puesto cola b (t ++ q) r m' := by
  simpa only [Puesto, Function.update_self, Function.update_idem, List.append_assoc] using h

theorem putDesde_nil (s : Sistema) {fuel : Nat} (h : Parcial b 0 m lista cola)
    (hk : Vale k b m (lista (some b))) :
    ∃ r m', putDesde s b fuel k [] m = some (r, m') ∧ Puesto cola b [] r m' := by
  refine ⟨1, m, by cases fuel <;> rfl, Or.inl ⟨rfl, lista, ?_⟩⟩
  rw [List.append_nil, Function.update_eq_self]
  exact hk.bien h

/-- The piece of the bytes that goes into a block, and the others. -/
theorem trozo (buf : List Char) (n : Nat) :
    ∃ t q, buf = t ++ q ∧ buf.take n = t ∧ buf.drop t.length = q ∧ t.length ≤ n := by
  refine ⟨buf.take n, buf.drop n, (List.take_append_drop n buf).symm, rfl, ?_,
    List.length_take_le n buf⟩
  rw [List.length_take]
  exact List.drop_eq_drop_min.symm

/-- The loop of `dbuf_put2`. -/
theorem putDesde_puesto (s : Sistema) {fuel : Nat} (h : Parcial b buf.length m lista cola)
    (hk : Vale k b m (lista (some b))) (hfuel : rondas k buf ≤ fuel) :
    ∃ r m', putDesde s b fuel k buf m = some (r, m') ∧ Puesto cola b buf r m' := by
  induction fuel generalizing k buf m lista cola with
  | zero =>
      have hnil : buf = [] := by
        cases k with
        | tail => simp [rondas] at hfuel
        | head => simpa [rondas] using hfuel
        | next c => simpa [rondas] using hfuel
      subst hnil
      exact putDesde_nil s h hk
  | succ fuel ih =>
      cases buf with
      | nil => exact putDesde_nil s h hk
      | cons c buf =>
          rcases hk.lee h with ⟨hlee, hfinal⟩ | ⟨db, as, hlee, rfl, hsplit⟩
          · -- The chain ends here.
            rcases h.nucleo.dbufAlloc s with
              halloc | ⟨db, m₁, lista₁, halloc, hn, hlista, hdbuf, -, higual⟩
            · obtain ⟨m', herror, href⟩ := h.dbufMallocError
              refine ⟨0, m', ?_, Or.inr ⟨rfl, href⟩⟩
              simp only [putDesde, hlee, halloc, herror]
            · have hfin : (engancha k b db m₁).fin db = 0 := Function.update_self ..
              obtain ⟨t, q, hbuf, ht, hq, hle⟩ := trozo (c :: buf) DBUF_SIZE
              have hne : t ≠ [] := by
                rw [← ht]
                simp [DBUF_SIZE]
              have hfuel' : q.length ≤ fuel := by
                have hlen := congrArg List.length hbuf
                have hpos := List.length_pos_of_ne_nil hne
                rw [List.length_append] at hlen
                rcases hfinal with ⟨rfl, -⟩ | ⟨c, as, rfl, -⟩ <;>
                  simp only [rondas] at hfuel <;> omega
              rw [hbuf, List.length_append] at h
              obtain ⟨lista₂, h₂, hsplit⟩ := h.nuevo hn hlista hdbuf higual hfinal hne hle
              obtain ⟨r, m', hput, hpuesto⟩ := ih (k := .next db) h₂ ⟨_, hsplit⟩ hfuel'
              refine ⟨r, m', ?_, hbuf ▸ hpuesto.sigue⟩
              simp only [putDesde, hlee, halloc, hfin, Nat.sub_zero, ht, hq, hput]
          · -- There is a last block, which may be full.
            obtain ⟨t, q, hbuf, ht, hq, hle⟩ := trozo (c :: buf) (DBUF_SIZE - m.fin db)
            have hfuel' : q.length ≤ fuel := by
              have hlen := congrArg List.length hbuf
              rw [List.length_append] at hlen
              simp only [rondas] at hfuel
              omega
            rw [hbuf, List.length_append] at h
            obtain ⟨r, m', hput, hpuesto⟩ :=
              ih (k := .next db) (h.copia hsplit hle) ⟨as, hsplit⟩ hfuel'
            refine ⟨r, m', ?_, hbuf ▸ hpuesto.sigue⟩
            simp only [putDesde, hlee, ht, hq, hput]

/-- `dbuf_put2` puts the bytes behind the others, or empties the buffer and returns 0. -/
theorem Refina.dbufPut2 (h : Refina m cola) (s : Sistema) (b : β) (buf : List Char) :
    ∃ r m', dbufPut2 s b buf m = some (r, m') ∧ Puesto cola b buf r m' := by
  obtain ⟨lista, h⟩ := h
  have hlen : (m.dbuf b).length = (cola b).length := (h.guarda b).length
  have hself : ∀ d, (m.conDBuf b d).dbuf b = d := fun _ ↦ Function.update_self ..
  have hparcial : Parcial b buf.length
      (m.conDBuf b { m.dbuf b with length := (m.dbuf b).length + buf.length }) lista cola := by
    have hguarda : Guarda (m.conDBuf b { m.dbuf b with length := (m.dbuf b).length + buf.length })
        b buf.length (lista (some b)) (cola b) := by
      refine ⟨(h.guarda b).contenido, (h.guarda b).lleno, ?_, ?_⟩
      · rw [hself, hlen]
      · rw [hself]
        exact (h.guarda b).tail
    have hnucleo : Nucleo
        (m.conDBuf b { m.dbuf b with length := (m.dbuf b).length + buf.length }) lista none :=
      h.nucleo.conDBuf rfl
    have hpaso := (h.parcial b).paso hnucleo (fun _ _ ↦ rfl)
      (fun b' hb' ↦ Function.update_of_ne hb' _ _) (fun _ _ _ _ ↦ ⟨rfl, rfl, rfl⟩) hguarda
    rwa [Function.update_eq_self] at hpaso
  rw [Dbuf.dbufPut2]
  by_cases hnil : lista (some b) = []
  · have hcero : (m.dbuf b).length = 0 := by
      rw [hlen, (h.guarda b).nil_iff.mp hnil, List.length_nil]
    rw [if_pos hcero]
    refine putDesde_puesto s hparcial ⟨hnil, ?_⟩ (Nat.le_succ _)
    rw [hself]
    exact h.vacia b hnil
  · have hcero : (m.dbuf b).length ≠ 0 := by
      rw [hlen]
      exact mt List.length_eq_zero_iff.mp (mt (h.guarda b).nil_iff.mpr hnil)
    rw [if_neg hcero]
    exact putDesde_puesto s hparcial hnil (Nat.le_refl _)

end Ircd.Dbuf
