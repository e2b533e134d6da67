import Ircd.Dbuf.Blocks

/-!
# Buffers as queues

The bytes of a buffer are those of the blocks of its chain, one after another. `Bien` says that each
buffer has the bytes of a queue, with its length, its last block and no empty block. While an
operation works on the buffer `b` its length may be ahead of its bytes and the pointer to its last
block may be left over from a chain that has become empty; that is `Parcial`. There is a lemma for
each step, one for each loop and one for each operation; `Refina` is `Bien` for some lists of
blocks.
-/

namespace Ircd.Dbuf

open CString

variable {β : Type}

/-- The bytes of a block. -/
def Memoria.bytes (m : Memoria β) (p : Nat) : List Char :=
  m.lee (p, m.start p) (m.fin p - m.start p)

/-- The bytes of a chain of blocks. -/
def Memoria.contenido (m : Memoria β) (xs : List Nat) : List Char :=
  xs.flatMap m.bytes

/-- The buffer `b` has the bytes of the queue `q` in the blocks `xs`, and its length counts
`extra` bytes more. -/
structure Guarda (m : Memoria β) (b : β) (extra : Nat) (xs : List Nat) (q : List Char) : Prop where
  contenido : m.contenido xs = q
  lleno : ∀ p ∈ xs, m.start p < m.fin p ∧ m.fin p ≤ DBUF_SIZE
  length : (m.dbuf b).length = q.length + extra
  tail : xs ≠ [] → (m.dbuf b).tail = xs.getLast?

/-- The buffers have the bytes of their queues. -/
structure Bien (m : Memoria β) (lista : Option β → List Nat) (cola : β → List Char) : Prop where
  nucleo : Nucleo m lista none
  guarda : ∀ b, Guarda m b 0 (lista (some b)) (cola b)
  vacia : ∀ b, lista (some b) = [] → (m.dbuf b).tail = none

/-- The same while an operation works on the buffer `b`. -/
structure Parcial (b : β) (extra : Nat) (m : Memoria β) (lista : Option β → List Nat)
    (cola : β → List Char) : Prop where
  nucleo : Nucleo m lista none
  propia : Guarda m b extra (lista (some b)) (cola b)
  ajena : ∀ b', b' ≠ b → Guarda m b' 0 (lista (some b')) (cola b')
  vacia : ∀ b', b' ≠ b → lista (some b') = [] → (m.dbuf b').tail = none

/-- The memory holds these queues. -/
def Refina (m : Memoria β) (cola : β → List Char) : Prop :=
  ∃ lista, Bien m lista cola

variable {m m' : Memoria β} {lista lista' : Option β → List Nat} {cola : β → List Char} {b : β}
  {db : Nat} {ps xs : List Nat} {q : List Char} {n extra extra' : Nat}

/-! ## Bytes -/

theorem lee_length (p : Nat × Nat) : (m.lee p n).length = n := by
  simp [Memoria.lee]

theorem bytes_length : (m.bytes db).length = m.fin db - m.start db :=
  lee_length _

theorem lee_add (o k : Nat) : m.lee (db, o) (n + k) = m.lee (db, o) n ++ m.lee (db, o + n) k := by
  simp [Memoria.lee, ← List.range'_append_1]

/-- The first bytes of a block and the others. -/
theorem bytes_split (h : n ≤ m.fin db - m.start db) :
    m.bytes db = m.lee (db, m.start db) n ++
      m.lee (db, m.start db + n) (m.fin db - (m.start db + n)) := by
  rw [Memoria.bytes, ← lee_add]
  congr 1
  omega

@[simp] theorem contenido_nil : m.contenido [] = [] := rfl

@[simp] theorem contenido_cons : m.contenido (db :: ps) = m.bytes db ++ m.contenido ps := rfl

theorem contenido_append : m.contenido (xs ++ ps) = m.contenido xs ++ m.contenido ps :=
  List.flatMap_append

/-- The bytes of a block depend on its fields only. -/
theorem Igual.bytes (h : Igual m m' db) : m'.bytes db = m.bytes db := by
  obtain ⟨hstart, hfin, hdata⟩ := h
  simp only [Memoria.bytes, Memoria.lee, hstart, hfin, hdata]

theorem contenido_congr (h : ∀ p ∈ xs, Igual m m' p) : m'.contenido xs = m.contenido xs := by
  induction xs with
  | nil => rfl
  | cons p xs ih =>
      rw [contenido_cons, contenido_cons, (h p (by simp)).bytes, ih fun q hq ↦ h q (by simp [hq])]

/-- A buffer is not changed by writes elsewhere. -/
theorem Guarda.frame (h : Guarda m b extra xs q) (hp : ∀ p ∈ xs, Igual m m' p)
    (hdbuf : m'.dbuf b = m.dbuf b) : Guarda m' b extra xs q where
  contenido := by rw [contenido_congr hp, h.contenido]
  lleno p hmem := by
    rw [(hp p hmem).1, (hp p hmem).2.1]
    exact h.lleno p hmem
  length := by rw [hdbuf, h.length]
  tail := by
    rw [hdbuf]
    exact h.tail

/-- A chain without bytes is empty. -/
theorem Guarda.nil_iff (h : Guarda m b extra xs q) : xs = [] ↔ q = [] := by
  constructor
  · rintro rfl
    exact h.contenido.symm
  · intro hq
    cases xs with
    | nil => rfl
    | cons p xs =>
        have hlen := congrArg List.length h.contenido
        rw [contenido_cons, List.length_append, bytes_length, hq, List.length_nil] at hlen
        have hlleno := (h.lleno p (by simp)).1
        omega

/-! ## One buffer at a time -/

variable [DecidableEq β]

omit [DecidableEq β] in
theorem Bien.parcial (h : Bien m lista cola) (b : β) : Parcial b 0 m lista cola :=
  ⟨h.nucleo, h.guarda b, fun b' _ ↦ h.guarda b', fun b' _ ↦ h.vacia b'⟩

omit [DecidableEq β] in
/-- The operation on `b` has ended. -/
theorem Parcial.bien (h : Parcial b 0 m lista cola)
    (hvacia : lista (some b) = [] → (m.dbuf b).tail = none) : Bien m lista cola where
  nucleo := h.nucleo
  guarda b' := by
    by_cases hb : b' = b
    · exact hb ▸ h.propia
    · exact h.ajena b' hb
  vacia b' := by
    by_cases hb : b' = b
    · exact hb ▸ hvacia
    · exact h.vacia b' hb

/-- A step on `b` writes to its own blocks, to its header and to the lists. -/
theorem Parcial.paso (h : Parcial b extra m lista cola) (hnucleo : Nucleo m' lista' none)
    (hlista : ∀ b', b' ≠ b → lista' (some b') = lista (some b'))
    (hdbuf : ∀ b', b' ≠ b → m'.dbuf b' = m.dbuf b')
    (hp : ∀ b', b' ≠ b → ∀ p ∈ lista (some b'), Igual m m' p)
    (hb : Guarda m' b extra' (lista' (some b)) q) :
    Parcial b extra' m' lista' (Function.update cola b q) where
  nucleo := hnucleo
  propia := by rwa [Function.update_self]
  ajena b' hb' := by
    rw [Function.update_of_ne hb', hlista b' hb']
    exact (h.ajena b' hb').frame (hp b' hb') (hdbuf b' hb')
  vacia b' hb' hnil := by
    rw [hdbuf b' hb']
    exact h.vacia b' hb' (by rwa [hlista b' hb'] at hnil)

/-! ## Bytes leave a buffer -/

/-- One round of `dbuf_delete`. -/
def avanza (b : β) (db chunk : Nat) (m : Memoria β) : Memoria β :=
  let m := consume b db chunk m
  if m.start db = m.fin db then suelta b db m else m

theorem igual_consume {p : Nat} (hp : p ≠ db) : Igual m (consume b db n m) p :=
  ⟨Function.update_of_ne hp _ _, rfl, rfl⟩

theorem bytes_consume (h : n ≤ m.fin db - m.start db) :
    (consume b db n m).bytes db = (m.bytes db).drop n := by
  have hsplit := bytes_split h
  rw [hsplit, List.drop_left' (lee_length _)]
  show (consume b db n m).lee (db, Function.update m.start db (m.start db + n) db) _ = _
  rw [Function.update_self]
  show m.lee _ (m.fin db - Function.update m.start db (m.start db + n) db) = _
  rw [Function.update_self]

theorem Nucleo.consume (h : Nucleo m lista none) : Nucleo (consume b db n m) lista none :=
  h.congr rfl (cabeza_conDBuf_of_head (m := m) rfl) rfl rfl

theorem start_consume : (consume b db n m).start db = m.start db + n :=
  Function.update_self ..

theorem dbuf_consume :
    (consume b db n m).dbuf b = { m.dbuf b with length := (m.dbuf b).length - n } :=
  Function.update_self ..

theorem dbuf_suelta : (suelta b db m).dbuf b = { m.dbuf b with head := m.next db } :=
  Function.update_self ..

omit [DecidableEq β] in
/-- The queue without its first bytes, when they are all in the first block. -/
theorem Guarda.drop (h : Guarda m b 0 (db :: ps) q) (hn : n ≤ m.fin db - m.start db) :
    q.drop n = (m.bytes db).drop n ++ m.contenido ps := by
  have hcon : m.bytes db ++ m.contenido ps = q := h.contenido
  rw [← hcon, List.drop_append_of_le_length (by rwa [bytes_length])]

/-- A part of the first block is taken out. -/
theorem Guarda.parte (h : Guarda m b 0 (db :: ps) q) (hdb : db ∉ ps)
    (hn : n < m.fin db - m.start db) : Guarda (consume b db n m) b 0 (db :: ps) (q.drop n) where
  contenido := by
    have hps : ∀ p ∈ ps, Igual m (consume b db n m) p :=
      fun p hp ↦ igual_consume (ne_of_mem_of_not_mem hp hdb)
    rw [contenido_cons, contenido_congr hps, bytes_consume (Nat.le_of_lt hn), h.drop (Nat.le_of_lt hn)]
  lleno p hp := by
    have hlleno := h.lleno p hp
    by_cases hpdb : p = db
    · subst hpdb
      rw [start_consume]
      exact ⟨Nat.add_lt_of_lt_sub' hn, hlleno.2⟩
    · rw [(igual_consume hpdb).1]
      exact hlleno
  length := by
    have hlen := h.length
    rw [dbuf_consume, List.length_drop]
    show (m.dbuf b).length - n = q.length - n + 0
    omega
  tail hne := by
    rw [dbuf_consume]
    exact h.tail hne

/-- The whole first block is taken out and given back. -/
theorem Guarda.resto (h : Guarda m b 0 (db :: ps) q) (hdb : db ∉ ps)
    (hn : n = m.fin db - m.start db) :
    Guarda (suelta b db (consume b db n m)) b 0 ps (q.drop n) where
  contenido := by
    have hps : ∀ p ∈ ps, Igual m (suelta b db (consume b db n m)) p :=
      fun p hp ↦ igual_consume (ne_of_mem_of_not_mem hp hdb)
    have hnil : (m.bytes db).drop n = [] := List.drop_of_length_le (by rw [bytes_length, hn])
    rw [contenido_congr hps, h.drop (Nat.le_of_eq hn), hnil, List.nil_append]
  lleno p hp := by
    have heq : (suelta b db (consume b db n m)).start p = m.start p :=
      (igual_consume (ne_of_mem_of_not_mem hp hdb)).1
    rw [heq]
    exact h.lleno p (List.mem_cons_of_mem db hp)
  length := by
    have hlen := h.length
    rw [dbuf_suelta, dbuf_consume, List.length_drop]
    show (m.dbuf b).length - n = q.length - n + 0
    omega
  tail hne := by
    obtain ⟨p, ps, rfl⟩ := List.exists_cons_of_ne_nil hne
    have htail := h.tail (by simp)
    rw [dbuf_suelta, dbuf_consume]
    exact htail

/-- Bytes of the first block of `b` are taken out. -/
theorem Parcial.avanza (h : Parcial b 0 m lista cola) (hsplit : lista (some b) = db :: ps)
    (hn : n ≤ m.fin db - m.start db) :
    ∃ lista', Parcial b 0 (avanza b db n m) lista' (Function.update cola b ((cola b).drop n)) := by
  have hpropia := h.propia
  have hnodup := (h.nucleo.listas.links (some b)).nodup
  rw [hsplit] at hpropia hnodup
  have hdb : db ∉ ps := (List.nodup_cons.mp hnodup).1
  have hajena : ∀ b', b' ≠ b → ∀ p ∈ lista (some b'), p ≠ db := by
    intro b' hb' p hp heq
    have hsame := h.nucleo.listas.disjoint (some b') (some b) p hp (by simp [hsplit, heq])
    exact hb' (Option.some.inj hsame)
  have hdbuf : ∀ b', b' ≠ b → (consume b db n m).dbuf b' = m.dbuf b' :=
    fun b' hb' ↦ Function.update_of_ne hb' _ _
  have hnucleo : Nucleo (consume b db n m) lista none := h.nucleo.consume
  by_cases hfin : m.start db + n = m.fin db
  · have hcond : (consume b db n m).start db = (consume b db n m).fin db :=
      start_consume.trans hfin
    rw [Dbuf.avanza, if_pos hcond]
    have hfree := (hnucleo.quita hsplit
      (d := { (consume b db n m).dbuf b with head := (consume b db n m).next db }) rfl).dbufFree
    refine ⟨_, h.paso hfree ?_ ?_ ?_ ?_⟩
    · intro b' hb'
      rw [Function.update_of_ne (by simp), Function.update_of_ne (by simpa using hb')]
    · intro b' hb'
      exact (Function.update_of_ne hb' _ _).trans (hdbuf b' hb')
    · intro b' hb' p hp
      exact igual_consume (hajena b' hb' p hp)
    · rw [Function.update_of_ne (by simp), Function.update_self]
      exact hpropia.resto hdb (by omega)
  · have hcond : (consume b db n m).start db ≠ (consume b db n m).fin db :=
      fun he ↦ hfin (start_consume.symm.trans he)
    rw [Dbuf.avanza, if_neg hcond]
    have hlleno := (hpropia.lleno db (by simp)).1
    refine ⟨lista, h.paso hnucleo (fun _ _ ↦ rfl) hdbuf ?_ ?_⟩
    · intro b' hb' p hp
      exact igual_consume (hajena b' hb' p hp)
    · rw [hsplit]
      exact hpropia.parte hdb (by omega)

omit [DecidableEq β] in
/-- `head` is the first block. -/
theorem Nucleo.head (h : Nucleo m lista none) (b : β) :
    (m.dbuf b).head = (lista (some b)).head? :=
  (h.listas.links (some b)).head?.symm

omit [DecidableEq β] in
/-- The chain that begins with a block. -/
theorem Nucleo.cons_of_head (h : Nucleo m lista none) (hhead : (m.dbuf b).head = some db) :
    ∃ ps, lista (some b) = db :: ps := by
  rw [h.head, List.head?_eq_some_iff] at hhead
  exact hhead

omit [DecidableEq β] in
/-- A queue with bytes has a first block. -/
theorem Parcial.primero (h : Parcial b extra m lista cola) (hne : cola b ≠ []) :
    ∃ db ps, lista (some b) = db :: ps ∧ (m.dbuf b).head = some db := by
  obtain ⟨db, ps, hsplit⟩ := List.exists_cons_of_ne_nil (mt h.propia.nil_iff.mp hne)
  exact ⟨db, ps, hsplit, by rw [h.nucleo.head, hsplit, List.head?_cons]⟩

/-- The loop of `dbuf_delete`. -/
theorem deleteDesde_parcial {fuel : Nat} (h : Parcial b 0 m lista cola)
    (hn : n ≤ (cola b).length) (hfuel : n ≤ fuel) :
    ∃ m' lista', deleteDesde b fuel n m = some m' ∧
      Parcial b 0 m' lista' (Function.update cola b ((cola b).drop n)) := by
  induction fuel generalizing n m lista cola with
  | zero =>
      obtain rfl := Nat.le_zero.mp hfuel
      exact ⟨m, lista, rfl, by rwa [List.drop_zero, Function.update_eq_self]⟩
  | succ fuel ih =>
      cases n with
      | zero => exact ⟨m, lista, rfl, by rwa [List.drop_zero, Function.update_eq_self]⟩
      | succ n =>
          obtain ⟨db, ps, hsplit, hhead⟩ :=
            h.primero fun hnil ↦ by simp [hnil] at hn
          have hlleno := (h.propia.lleno db (by simp [hsplit])).1
          obtain ⟨chunk, hchunk⟩ : ∃ c, c = min (m.fin db - m.start db) (n + 1) := ⟨_, rfl⟩
          obtain ⟨lista', hpaso⟩ := h.avanza hsplit (hchunk ▸ Nat.min_le_left _ _)
          obtain ⟨m', lista'', hdelete, hfin⟩ := ih (n := n + 1 - chunk) hpaso
            (by rw [Function.update_self, List.length_drop]; omega) (by omega)
          refine ⟨m', lista'', ?_, ?_⟩
          · rw [deleteDesde, hhead]
            show deleteDesde b fuel (n + 1 - min (m.fin db - m.start db) (n + 1))
              (avanza b db (min (m.fin db - m.start db) (n + 1)) m) = some m'
            rw [← hchunk, hdelete]
          · rw [Function.update_idem, Function.update_self, List.drop_drop] at hfin
            rwa [show chunk + (n + 1 - chunk) = n + 1 by omega] at hfin

/-- The header of a buffer that has become empty. -/
theorem Parcial.cierra (h : Parcial b 0 m lista cola) :
    Bien (match (m.dbuf b).head with
      | none => m.conDBuf b ⟨0, none, none⟩
      | some _ => m) lista cola := by
  cases hhead : (m.dbuf b).head with
  | some db =>
      refine h.bien fun hnil ↦ ?_
      rw [h.nucleo.head, hnil] at hhead
      exact absurd hhead (by simp)
  | none =>
      have hnil : lista (some b) = [] := by
        rwa [h.nucleo.head, List.head?_eq_none_iff] at hhead
      have hself : (m.conDBuf b ⟨0, none, none⟩).dbuf b = ⟨0, none, none⟩ := Function.update_self ..
      have hguarda : Guarda (m.conDBuf b ⟨0, none, none⟩) b 0 (lista (some b)) (cola b) := by
        rw [h.propia.nil_iff.mp hnil, hnil]
        exact ⟨rfl, by simp, by rw [hself]; rfl, by simp⟩
      have hpaso := h.paso (h.nucleo.conDBuf (d := ⟨0, none, none⟩) hhead.symm) (fun _ _ ↦ rfl)
        (fun b' hb' ↦ Function.update_of_ne hb' _ _) (fun _ _ _ _ ↦ ⟨rfl, rfl, rfl⟩) hguarda
      rw [Function.update_eq_self] at hpaso
      exact hpaso.bien fun _ ↦ by rw [hself]

/-- `dbuf_delete` takes bytes from the front of the queue. -/
theorem Refina.dbufDelete (h : Refina m cola) (b : β) (n : Nat) :
    ∃ m', dbufDelete b n m = some m' ∧
      Refina m' (Function.update cola b ((cola b).drop n)) := by
  obtain ⟨lista, h⟩ := h
  have hlen : (m.dbuf b).length = (cola b).length := (h.guarda b).length
  obtain ⟨m', lista', hdelete, hfin⟩ := deleteDesde_parcial (n := min n (m.dbuf b).length)
    (h.parcial b) (hlen ▸ Nat.min_le_right _ _) (Nat.le_succ _)
  have hdrop : (cola b).drop (min n (m.dbuf b).length) = (cola b).drop n := by
    rw [hlen]
    exact List.drop_eq_drop_min.symm
  rw [hdrop] at hfin
  refine ⟨_, ?_, lista', hfin.cierra⟩
  rw [Dbuf.dbufDelete]
  show Option.map _ (deleteDesde b (min n (m.dbuf b).length + 1) (min n (m.dbuf b).length) m) = _
  rw [hdelete]
  rfl

/-! ## Reading -/

omit [DecidableEq β] in
/-- `dbuf_map` gives the first bytes of the queue. -/
theorem Refina.dbufMap (h : Refina m cola) (b : β) :
    cola b = [] ∧ dbufMap b m = some (none, 0) ∨
      ∃ p n, dbufMap b m = some (some p, n) ∧ 0 < n ∧ n ≤ (cola b).length ∧
        ∀ k ≤ n, m.lee p k = (cola b).take k := by
  obtain ⟨lista, h⟩ := h
  have hlen : (m.dbuf b).length = (cola b).length := (h.guarda b).length
  by_cases hnil : cola b = []
  · left
    rw [Dbuf.dbufMap, hlen, hnil]
    exact ⟨rfl, rfl⟩
  · right
    obtain ⟨db, ps, hsplit, hhead⟩ := (h.parcial b).primero hnil
    have hguarda := hsplit ▸ h.guarda b
    have hcon : m.bytes db ++ m.contenido ps = cola b := hguarda.contenido
    have hne : (m.dbuf b).length ≠ 0 := by
      rw [hlen]
      exact mt List.length_eq_zero_iff.mp hnil
    have hlleno := (hguarda.lleno db (by simp)).1
    refine ⟨(db, m.start db), m.fin db - m.start db, ?_, by omega, ?_, fun k hk ↦ ?_⟩
    · rw [Dbuf.dbufMap, if_neg hne, hhead]
      rfl
    · rw [← hcon, List.length_append, bytes_length]
      exact Nat.le_add_right _ _
    · rw [← hcon, bytes_split hk, List.append_assoc, List.take_left' (lee_length _)]

/-- The loop of `dbuf_get`. -/
theorem getDesde_refina {fuel : Nat} (h : Refina m cola) (hfuel : n ≤ fuel) :
    ∃ m', getDesde b fuel n m = some ((cola b).take n, m') ∧
      Refina m' (Function.update cola b ((cola b).drop n)) := by
  induction fuel generalizing n m cola with
  | zero =>
      obtain rfl := Nat.le_zero.mp hfuel
      exact ⟨m, rfl, by rwa [List.drop_zero, Function.update_eq_self]⟩
  | succ fuel ih =>
      cases n with
      | zero => exact ⟨m, rfl, by rwa [List.drop_zero, Function.update_eq_self]⟩
      | succ n =>
          rcases h.dbufMap b with ⟨hnil, hmap⟩ | ⟨p, count, hmap, hpos, hle, hlee⟩
          · refine ⟨m, ?_, ?_⟩
            · simp [getDesde, hmap, hnil]
            · rwa [hnil, List.drop_nil, ← hnil, Function.update_eq_self]
          · obtain ⟨chunk, hchunk⟩ : ∃ c, c = min count (n + 1) := ⟨_, rfl⟩
            obtain ⟨m₁, hdelete, h₁⟩ := h.dbufDelete b chunk
            obtain ⟨m', hget, h'⟩ := ih (n := n + 1 - chunk) h₁ (by omega)
            rw [Function.update_self] at hget h'
            refine ⟨m', ?_, ?_⟩
            · have htake : (cola b).take chunk ++ ((cola b).drop chunk).take (n + 1 - chunk) =
                  (cola b).take (n + 1) := by
                rw [← List.take_add, show chunk + (n + 1 - chunk) = n + 1 by omega]
              simp only [getDesde, hmap, Option.bind_eq_bind, Option.bind_some, ← hchunk, hdelete,
                hget, hlee chunk (by omega), htake]
            · rw [Function.update_idem, List.drop_drop] at h'
              rwa [show chunk + (n + 1 - chunk) = n + 1 by omega] at h'

/-- `dbuf_get` takes the first bytes of the queue. -/
theorem Refina.dbufGet (h : Refina m cola) (b : β) (n : Nat) :
    ∃ m', dbufGet b n m = some ((cola b).take n, m') ∧
      Refina m' (Function.update cola b ((cola b).drop n)) :=
  getDesde_refina h (Nat.le_succ n)

/-! ## Lines -/

/-- Whether the byte is counted before or after the block is given back. -/
theorem suelta_consume :
    let m₁ := suelta b db { m with start := Function.update m.start db (m.start db + 1) }
    suelta b db (consume b db 1 m) =
      m₁.conDBuf b { m₁.dbuf b with length := (m₁.dbuf b).length - 1 } := by
  simp only [suelta, consume, dbufFree, Memoria.conDBuf, Function.update_idem, Function.update_self]

/-- One round of `dbuf_flush` takes out one byte. -/
theorem flushDesde_eol {fuel : Nat} (heol : isEol (m.data db (m.start db)) = true) :
    flushDesde b (fuel + 1) db m =
      if m.start db + 1 = m.fin db then
        match ((avanza b db 1 m).dbuf b).head with
        | none => some ((avanza b db 1 m).conDBuf b ⟨0, none, none⟩)
        | some db' => flushDesde b fuel db' (avanza b db 1 m)
      else flushDesde b fuel db (avanza b db 1 m) := by
  have hstart : Function.update m.start db (m.start db + 1) db = m.start db + 1 :=
    Function.update_self ..
  rw [flushDesde]
  simp only [heol, Bool.not_true, Bool.false_eq_true, if_false, hstart]
  by_cases hfin : m.start db + 1 = m.fin db
  · have hcond : (consume b db 1 m).start db = (consume b db 1 m).fin db :=
      start_consume.trans hfin
    rw [avanza, if_pos hcond, if_pos hfin, if_pos hfin, suelta_consume]
    have hself : ∀ (m₁ : Memoria β) (d : DBuf), (m₁.conDBuf b d).dbuf b = d :=
      fun _ _ ↦ Function.update_self ..
    simp only [hself]
    cases ((suelta b db { m with start := Function.update m.start db (m.start db + 1) }).dbuf b).head with
    | none => simp only [Memoria.conDBuf, Function.update_idem]
    | some db' => rfl
  · have hcond : (consume b db 1 m).start db ≠ (consume b db 1 m).fin db :=
      fun he ↦ hfin (start_consume.symm.trans he)
    rw [avanza, if_neg hcond, if_neg hfin, if_neg hfin]
    rfl

omit [DecidableEq β] in
/-- The first byte of a queue. -/
theorem Guarda.cons (h : Guarda m b extra (db :: ps) q) :
    ∃ rest, q = m.data db (m.start db) :: rest := by
  have hcon : m.bytes db ++ m.contenido ps = q := h.contenido
  have hlleno := (h.lleno db (by simp)).1
  have hone : m.lee (db, m.start db) 1 = [m.data db (m.start db)] := rfl
  rw [bytes_split (n := 1) (by omega), hone] at hcon
  exact ⟨_, hcon.symm⟩

/-- The loop of `dbuf_flush`. -/
theorem flushDesde_bien {fuel : Nat} (h : Parcial b 0 m lista cola)
    (hsplit : lista (some b) = db :: ps) (hfuel : (cola b).length < fuel) :
    ∃ m' lista', flushDesde b fuel db m = some m' ∧
      Bien m' lista' (Function.update cola b ((cola b).dropWhile isEol)) := by
  induction fuel generalizing m lista cola db ps with
  | zero => exact absurd hfuel (Nat.not_lt_zero _)
  | succ fuel ih =>
      obtain ⟨rest, hcola⟩ := (hsplit ▸ h.propia : Guarda m b 0 (db :: ps) (cola b)).cons
      cases heol : isEol (m.data db (m.start db)) with
      | false =>
          refine ⟨m, lista, ?_, ?_⟩
          · rw [flushDesde]
            simp [heol]
          · have hdrop : (cola b).dropWhile isEol = cola b := by
              rw [hcola, List.dropWhile_cons_of_neg (by simp [heol])]
            rw [hdrop, Function.update_eq_self]
            exact h.bien fun hnil ↦ absurd (hsplit.symm.trans hnil) (List.cons_ne_nil db ps)
      | true =>
          have hlleno := (h.propia.lleno db (by simp [hsplit])).1
          obtain ⟨lista₁, h₁⟩ := h.avanza hsplit (n := 1) (by omega)
          have hdrop : (cola b).drop 1 = rest := by rw [hcola]; rfl
          have hwhile : (cola b).dropWhile isEol = rest.dropWhile isEol := by
            rw [hcola, List.dropWhile_cons_of_pos heol]
          have hlen : rest.length < fuel := by
            rw [hcola, List.length_cons] at hfuel
            exact Nat.lt_of_succ_lt_succ hfuel
          rw [hdrop] at h₁
          have hnext : ∀ db', ((avanza b db 1 m).dbuf b).head = some db' →
              ∃ m' lista', flushDesde b fuel db' (avanza b db 1 m) = some m' ∧
                Bien m' lista' (Function.update cola b ((cola b).dropWhile isEol)) := by
            intro db' hhead
            obtain ⟨ps', hsplit'⟩ := h₁.nucleo.cons_of_head hhead
            obtain ⟨m', lista', hflush, hbien⟩ :=
              ih h₁ hsplit' (by rwa [Function.update_self])
            rw [Function.update_idem, Function.update_self, ← hwhile] at hbien
            exact ⟨m', lista', hflush, hbien⟩
          rw [flushDesde_eol heol]
          by_cases hfin : m.start db + 1 = m.fin db
          · rw [if_pos hfin]
            have hcierra := h₁.cierra
            cases hhead : ((avanza b db 1 m).dbuf b).head with
            | some db' => exact hnext db' hhead
            | none =>
                have hnil : lista₁ (some b) = [] := by
                  rwa [h₁.nucleo.head, List.head?_eq_none_iff] at hhead
                have hrest : rest = [] := by
                  simpa using h₁.propia.nil_iff.mp hnil
                rw [hhead, hrest] at hcierra
                rw [hwhile, hrest]
                exact ⟨_, lista₁, rfl, hcierra⟩
          · rw [if_neg hfin]
            refine hnext db ?_
            have hcond : (consume b db 1 m).start db ≠ (consume b db 1 m).fin db :=
              fun he ↦ hfin (start_consume.symm.trans he)
            rw [avanza, if_neg hcond, dbuf_consume]
            exact h.nucleo.head b ▸ (by rw [hsplit]; rfl)

/-- `dbuf_flush` takes the ends of lines from the front of the queue. -/
theorem Refina.dbufFlush (h : Refina m cola) (b : β) :
    ∃ m', dbufFlush b m = some (((cola b).dropWhile isEol).length, m') ∧
      Refina m' (Function.update cola b ((cola b).dropWhile isEol)) := by
  obtain ⟨lista, h⟩ := h
  rw [Dbuf.dbufFlush]
  cases hhead : (m.dbuf b).head with
  | none =>
      have hnil : lista (some b) = [] := by
        rwa [h.nucleo.head, List.head?_eq_none_iff] at hhead
      have hcola : cola b = [] := (h.guarda b).nil_iff.mp hnil
      refine ⟨m, by rw [hcola]; rfl, lista, ?_⟩
      rwa [hcola, List.dropWhile_nil, ← hcola, Function.update_eq_self]
  | some db =>
      obtain ⟨ps, hsplit⟩ := h.nucleo.cons_of_head hhead
      have hlen : (m.dbuf b).length = (cola b).length := (h.guarda b).length
      have hfuel : (cola b).length < (m.dbuf b).length + 1 := by omega
      obtain ⟨m', lista', hflush, hbien⟩ := flushDesde_bien (h.parcial b) hsplit hfuel
      have hlen' := (hbien.guarda b).length
      rw [Function.update_self, Nat.add_zero] at hlen'
      refine ⟨m', ?_, lista', hbien⟩
      simp only [hflush, Option.map_some, hlen']

omit [DecidableEq β] in
/-- The bytes of a block that a read of `n` bytes reaches. -/
theorem lee_min : m.lee (db, m.start db) (min (m.fin db - m.start db) n) = (m.bytes db).take n := by
  rcases Nat.le_total n (m.fin db - m.start db) with hn | hn
  · rw [Nat.min_eq_right hn, bytes_split hn, List.take_left' (lee_length _)]
  · rw [Nat.min_eq_left hn, List.take_of_length_le (by rwa [bytes_length])]
    rfl

omit [DecidableEq β] in
/-- The search of `dbuf_getmsg` looks for the end of a line in the first `n` bytes of a chain. -/
theorem buscaEol_eq {fuel : Nat} {p : Option Nat} (hxs : Links m.next p xs none)
    (hfuel : xs.length ≤ fuel) :
    buscaEol fuel p n m = some (((m.contenido xs).take n).takeWhile (!isEol ·),
      decide ((((m.contenido xs).take n).takeWhile (!isEol ·)).length <
        ((m.contenido xs).take n).length)) := by
  induction xs generalizing p n fuel with
  | nil =>
      rw [Links.nil] at hxs
      subst hxs
      simp [buscaEol]
  | cons db xs ih =>
      obtain ⟨rfl, hxs⟩ := hxs
      cases n with
      | zero => simp [buscaEol]
      | succ n =>
          cases fuel with
          | zero => simp at hfuel
          | succ fuel =>
              obtain ⟨bs, hbs⟩ : ∃ bs, bs = (m.bytes db).take (n + 1) := ⟨_, rfl⟩
              have htake : (m.contenido (db :: xs)).take (n + 1) =
                  bs ++ (m.contenido xs).take (n + 1 - bs.length) := by
                rw [contenido_cons, List.take_append, hbs, List.length_take]
                congr 2
                omega
              rw [buscaEol, lee_min, ← hbs, htake, List.takeWhile_append]
              by_cases hlinea : (bs.takeWhile (!isEol ·)).length < bs.length
              · -- The end of the line is in this block.
                rw [if_neg (Nat.ne_of_lt hlinea), List.length_append]
                simp [hlinea, Nat.lt_add_right]
              · have hle := (List.takeWhile_prefix (p := (!isEol ·)) (l := bs)).length_le
                have hlen : (bs.takeWhile (!isEol ·)).length = bs.length := by omega
                have hwhole : bs.takeWhile (!isEol ·) = bs :=
                  (List.takeWhile_prefix _).eq_of_length hlen
                have hrest := ih (n := n + 1 - bs.length) hxs (Nat.le_of_succ_le_succ hfuel)
                simp only [hwhole, lt_irrefl, if_false, hrest, Option.map_some, if_true]
                simp

/-- The line that is taken from the front of a queue with a buffer of `n` bytes, and the rest. -/
def tomaLinea (n : Nat) (q : List Char) : Option (List Char) × List Char :=
  let c := q.dropWhile isEol
  let linea := (c.take n).takeWhile (!isEol ·)
  if linea.length < (c.take n).length then (some linea, (c.drop linea.length).dropWhile isEol)
  else (none, c)

/-- `dbuf_getmsg` drops the ends of lines in front of the queue. When the end of a line is in the
first `n` bytes behind them, it takes that line with the ends of lines that follow. -/
theorem Refina.dbufGetmsg (h : Refina m cola) (b : β) (n : Nat) :
    ∃ m', dbufGetmsg b n m = some ((tomaLinea n (cola b)).1, m') ∧
      Refina m' (Function.update cola b (tomaLinea n (cola b)).2) := by
  obtain ⟨c, hc⟩ : ∃ c, c = (cola b).dropWhile isEol := ⟨_, rfl⟩
  obtain ⟨linea, hlinea⟩ : ∃ l, l = (c.take n).takeWhile (!isEol ·) := ⟨_, rfl⟩
  have htoma : tomaLinea n (cola b) = if linea.length < (c.take n).length then
      (some linea, (c.drop linea.length).dropWhile isEol) else (none, c) := by
    rw [hlinea, hc]
    rfl
  obtain ⟨m₁, hflush, h₁⟩ := h.dbufFlush b
  rw [← hc] at hflush h₁
  rw [Dbuf.dbufGetmsg]
  simp only [hflush, Option.bind_eq_bind, Option.bind_some]
  by_cases hnil : c = []
  · refine ⟨m₁, ?_, ?_⟩
    · rw [if_pos (List.length_eq_zero_iff.mpr hnil), htoma, if_neg (by simp [hnil])]
    · rwa [htoma, if_neg (by simp [hnil])]
  · obtain ⟨lista, hbien⟩ := h₁
    have hlen := (hbien.guarda b).length
    have hcon := (hbien.guarda b).contenido
    rw [Function.update_self] at hlen hcon
    have hbusca : buscaEol (m₁.DBufAllocCount + 1) (m₁.dbuf b).head (min n (m₁.dbuf b).length) m₁ =
        some (linea, decide (linea.length < (c.take n).length)) := by
      have hlinks : Links m₁.next (m₁.dbuf b).head (lista (some b)) none :=
        hbien.nucleo.listas.links (some b)
      have hfuel : (lista (some b)).length ≤ m₁.DBufAllocCount + 1 :=
        Nat.le_succ_of_le (hbien.nucleo.length_le (some b))
      rw [buscaEol_eq hlinks hfuel, hcon, hlen, Nat.add_zero, ← List.take_eq_take_min, ← hlinea]
    rw [if_neg (mt List.length_eq_zero_iff.mp hnil), hbusca, htoma]
    by_cases hhay : linea.length < (c.take n).length
    · obtain ⟨m₂, hdelete, h₂⟩ := Refina.dbufDelete ⟨lista, hbien⟩ b linea.length
      obtain ⟨m₃, hflush₃, h₃⟩ := h₂.dbufFlush b
      rw [Function.update_idem, Function.update_self, Function.update_self, Function.update_idem]
        at h₃
      refine ⟨m₃, ?_, ?_⟩
      · simp only [hhay, Option.bind_some, decide_true, if_true, hdelete, hflush₃]
      · rwa [if_pos hhay]
    · refine ⟨m₁, ?_, ?_⟩
      · simp only [hhay, Option.bind_some, decide_false, if_false, Bool.false_eq_true]
      · rw [if_neg hhay]
        exact ⟨lista, hbien⟩

end Ircd.Dbuf
