import Ircd.Bdd.Alta
import Ircd.Lib.Nodes

/-!
# The store of records

The tables that `ircd/s_bdd.c` keeps in memory, with their chains of pointers. A record is a node
of `Nodes` with its folded key, and its value is beside. The operations on one table refine those
on `Estado`, whose buckets are association lists: `Refleja` relates the two stores, and there is
one theorem for each operation, such as `Refleja.dbInsertarRegistro`.
-/

namespace Ircd.Bdd

open CString

/-- A table that is kept in memory. -/
abbrev TablaResidente := {t : Char // Residente t}

/-- The number of chains of a table. -/
def TablaResidente.len (t : TablaResidente) : Nat :=
  tablaResidenteYLen t.1

theorem TablaResidente.len_pos (t : TablaResidente) : 0 < t.len :=
  Nat.pos_of_ne_zero t.2

/-- A hash is the number of a chain. -/
theorem dbHashRegistro_lt (t : TablaResidente) (clave : CStr) :
    dbHashRegistro clave t.len < t.len := by
  have hle : dbHashRegistro clave t.len ≤ t.len - 1 := Nat.and_le_right
  have hpos := t.len_pos
  omega

/-- The variables `db_iterador_…`. -/
structure Iterador where
  reg : Option Nat
  datos : Option TablaResidente
  hashPos : Nat
  hashLen : Nat

/-- The tables, with the cursor over one of them. -/
structure Almacen where
  serie : TablaResidente → Nat
  cuantos : TablaResidente → UInt32
  hash : TablaResidente → Hash
  datos : Nodes (TablaResidente × Nat) Clave
  valor : Nat → CStr
  iterador : Iterador

namespace Almacen

/-- The store before the first record. -/
def inicial : Almacen where
  serie _ := 0
  cuantos _ := 0
  hash _ := Hash.cero
  datos := { next := fun _ ↦ none, value := fun _ ↦ Clave.de [], count := 0, head := fun _ ↦ none }
  valor _ := []
  iterador := ⟨none, none, 0, 0⟩

/-! ## The operations -/

/-- What `strhash` reads of a key. It looks for the terminator only behind the first character, and
so reads what is behind an empty key. -/
def leida (detras : CStr) : CStr → CStr
  | [] => nul :: detras
  | c :: n => c :: n

/-- The chain of a key in a table. -/
def hashi (t : TablaResidente) (detras : CStr) (c : Clave) : Nat :=
  dbHashRegistro (leida detras c.1) t.len

/-- `db_buscar_registro`: the key and the value of a record. The table is one that is kept in
memory. -/
def dbBuscarRegistro (t : TablaResidente) (clave detras : CStr) (s : Almacen) :
    Option (Clave × CStr) :=
  let c := Clave.de clave
  (s.datos.find (t, hashi t detras c) c).map fun reg ↦ (s.datos.value reg, s.valor reg)

/-- `db_eliminar_registro`, without what it does outside of the store. -/
def dbEliminarRegistro (t : TablaResidente) (clave detras : CStr) (s : Almacen) : Almacen :=
  let s := { s with iterador := { s.iterador with reg := none } }
  let c := Clave.de clave
  match s.datos.remove (t, hashi t detras c) c with
  | (false, _) => s
  | (true, datos) => { s with
      datos := datos
      cuantos := Function.update s.cuantos t (s.cuantos t - 1) }

/-- `db_insertar_registro`, without what it does outside of the store. The value is behind the key
in memory. -/
def dbInsertarRegistro (t : TablaResidente) (clave valor detras : CStr) (s : Almacen) : Almacen :=
  let s := { s with iterador := { s.iterador with reg := none } }
  let s := dbEliminarRegistro t clave detras s
  let c := Clave.de clave
  { s with
    datos := s.datos.cons (t, hashi t valor c) c
    valor := Function.update s.valor s.datos.count valor
    cuantos := Function.update s.cuantos t (s.cuantos t + 1) }

/-- `borrar_db`. -/
def borrarDb (t : TablaResidente) (s : Almacen) : Almacen :=
  { s with
    serie := Function.update s.serie t 0
    cuantos := Function.update s.cuantos t 0
    hash := Function.update s.hash t Hash.cero
    datos := { s.datos with
      head := fun i ↦ if i.1 = t ∧ i.2 < t.len then none else s.datos.head i } }

/-! ## The store of association lists -/

/-- The key and the value of a record. -/
def entrada (s : Almacen) (p : Nat) : Sigma fun _ : Clave ↦ CStr :=
  ⟨s.datos.value p, s.valor p⟩

/-- The chains have the records of the buckets, in the same order, and the counters are equal. -/
structure Refleja (s : Almacen) (e : ∀ t : TablaResidente, Estado t.1)
    (listas : TablaResidente × Nat → List Nat) : Prop where
  holds : s.datos.Holds listas fun i ↦ (listas i).map s.datos.value
  entradas : ∀ t i, (listas (t, i)).map s.entrada = ((e t).datos.bucket i).entries
  cuantos : ∀ t, s.cuantos t = (e t).cuantos

/-- The empty stores. -/
theorem refleja_inicial (bots : Bots) :
    Refleja inicial (fun t ↦ { Tabla.vacia t.1 with bots := bots }) fun _ ↦ [] where
  holds := ⟨⟨fun _ ↦ rfl, by simp⟩, by simp, fun _ ↦ rfl⟩
  entradas _ _ := rfl
  cuantos _ := rfl

section

variable {s : Almacen} {e : ∀ t : TablaResidente, Estado t.1}
  {listas : TablaResidente × Nat → List Nat} {t : TablaResidente} {c : Clave}

/-- A lookup among nodes is one among their keys and values. -/
theorem dlookup_map (l : List Nat) (c : Clave) :
    (l.map s.entrada).dlookup c = (l.find? fun p ↦ s.datos.value p = c).map s.valor := by
  induction l with
  | nil => rfl
  | cons p l ih =>
      rw [List.map_cons, List.find?_cons]
      by_cases hp : s.datos.value p = c
      · subst hp
        rw [entrada, List.dlookup_cons_eq]
        simp
      · rw [List.dlookup_cons_ne _ _ (show c ≠ (s.entrada p).1 from Ne.symm hp), ih]
        simp [hp]

/-- Only the records of its own chain can have a key. -/
theorem Refleja.hashi_eq (h : Refleja s e listas) {i p : Nat} (hp : p ∈ listas (t, i)) :
    dbHashRegistro (s.datos.value p).1 t.len = i := by
  have hmem : s.entrada p ∈ ((e t).datos.bucket i).entries := by
    rw [← h.entradas]
    exact List.mem_map_of_mem hp
  exact (e t).datos.placed i _ hmem

/-- The chains behind the last one are empty. -/
theorem Refleja.lista_eq_nil (h : Refleja s e listas) {i : Nat} (hi : t.len ≤ i) :
    listas (t, i) = [] := by
  refine List.eq_nil_iff_forall_not_mem.mpr fun p hp ↦ ?_
  have hlt := dbHashRegistro_lt t (s.datos.value p).1
  rw [h.hashi_eq hp] at hlt
  omega

/-- A key that is not empty is hashed as it is. -/
theorem hashi_de {clave : CStr} (hclave : clave ≠ []) (detras : CStr) :
    hashi t detras (Clave.de clave) = dbHashRegistro (Clave.de clave).1 t.len := by
  cases clave with
  | nil => exact absurd rfl hclave
  | cons a clave => rfl

/-- The map of a bucket. -/
theorem Refleja.lookup_eq (h : Refleja s e listas) (t : TablaResidente) (c : Clave) :
    (e t).mapa c =
      ((listas (t, dbHashRegistro c.1 t.len)).find? fun p ↦ s.datos.value p = c).map s.valor := by
  have hmap := dlookup_map (s := s) (listas (t, dbHashRegistro c.1 t.len)) c
  rw [h.entradas] at hmap
  exact hmap

/-- A key whose chain is found: the empty key has none, and must not have a record. -/
def Hallable (e : Estado t.1) (clave : CStr) : Prop :=
  clave = [] → e.mapa (Clave.de []) = none

/-- A record is not found in a chain that is not the one of its key. -/
theorem Refleja.ne_of_hashi (h : Refleja s e listas) {i : Nat}
    (hi : i ≠ dbHashRegistro c.1 t.len) : ∀ p ∈ listas (t, i), s.datos.value p ≠ c := by
  rintro p hp rfl
  exact hi (h.hashi_eq hp).symm

/-- The map, looked up in the chain that the program takes. -/
theorem Refleja.mapa_eq (h : Refleja s e listas) {clave : CStr} (hclave : Hallable (e t) clave)
    (detras : CStr) :
    (e t).mapa (Clave.de clave) =
      ((listas (t, hashi t detras (Clave.de clave))).find?
        fun p ↦ s.datos.value p = Clave.de clave).map s.valor := by
  by_cases hi : hashi t detras (Clave.de clave) = dbHashRegistro (Clave.de clave).1 t.len
  · rw [hi, h.lookup_eq]
  · have hnil : clave = [] := by
      by_contra hne
      exact hi (hashi_de hne detras)
    have hnone : (listas (t, hashi t detras (Clave.de clave))).find?
        (fun p ↦ s.datos.value p = Clave.de clave) = none := by
      rw [List.find?_eq_none]
      intro p hp
      simpa using h.ne_of_hashi hi p hp
    rw [hnone, hnil, hclave hnil]
    rfl

/-- A record is found in the chain of its key. -/
theorem hashi_of_some {clave valor : CStr} (detras : CStr)
    (hclave : Hallable (e t) clave) (hsome : (e t).mapa (Clave.de clave) = some valor) :
    hashi t detras (Clave.de clave) = dbHashRegistro (Clave.de clave).1 t.len := by
  refine hashi_de (fun hnil ↦ ?_) detras
  rw [hnil, hclave hnil] at hsome
  cases hsome

/-- A lookup finds the value that the map has. -/
theorem Refleja.dbBuscarRegistro (h : Refleja s e listas) {clave : CStr}
    (hclave : Hallable (e t) clave) (detras : CStr) :
    s.dbBuscarRegistro t clave detras =
      ((e t).mapa (Clave.de clave)).map fun valor ↦ (Clave.de clave, valor) := by
  have hlinks := h.holds.lists.links (t, hashi t detras (Clave.de clave))
  have hfuel := h.holds.length_le (t, hashi t detras (Clave.de clave))
  rw [h.mapa_eq hclave detras, Almacen.dbBuscarRegistro, Nodes.find,
    Cells.find_eq _ hlinks hfuel, Option.map_map]
  refine Option.map_congr fun p hp ↦ ?_
  have hvalue : s.datos.value p = Clave.de clave := by simpa using List.find?_some hp
  rw [hvalue]
  rfl

/-- The other tables and the other chains are left as they are by a change of one chain. -/
theorem Refleja.cambia (h : Refleja s e listas) {s' : Almacen} {e' : Estado t.1} {i : Nat}
    {xs : List Nat} {vals : TablaResidente × Nat → List Clave}
    (hholds : s'.datos.Holds (Function.update listas (t, i) xs) vals)
    (hentrada : ∀ k, ∀ p ∈ listas k, s'.entrada p = s.entrada p)
    (hxs : xs.map s'.entrada = (e'.datos.bucket i).entries)
    (hotras : ∀ j, j ≠ i → e'.datos.bucket j = (e t).datos.bucket j)
    (hcuantos : s'.cuantos = Function.update s.cuantos t e'.cuantos) :
    Refleja s' (Function.update e t e') (Function.update listas (t, i) xs) where
  holds := ⟨hholds.lists, hholds.lt, fun _ ↦ rfl⟩
  entradas u j := by
    by_cases hu : u = t
    · subst hu
      rw [Function.update_self]
      by_cases hj : j = i
      · rw [hj, Function.update_self, hxs]
      · rw [Function.update_of_ne (by simpa using hj), hotras j hj, ← h.entradas]
        exact List.map_congr_left (hentrada _)
    · rw [Function.update_of_ne (by simp [hu]), Function.update_of_ne hu, ← h.entradas]
      exact List.map_congr_left (hentrada _)
  cuantos u := by
    rw [hcuantos]
    by_cases hu : u = t
    · subst hu
      rw [Function.update_self, Function.update_self]
    · rw [Function.update_of_ne hu, Function.update_of_ne hu, h.cuantos]

/-- The cursor is not part of the relation. -/
theorem Refleja.conIterador (h : Refleja s e listas) (it : Iterador) :
    Refleja { s with iterador := it } e listas :=
  ⟨h.holds, h.entradas, h.cuantos⟩

/-- A key is taken out of the entries where it is first. -/
theorem kerase_map {as : List Nat} {p : Nat} (bs : List Nat) (hp : s.datos.value p = c)
    (has : ∀ a ∈ as, s.datos.value a ≠ c) :
    ((as ++ p :: bs).map s.entrada).kerase c = (as ++ bs).map s.entrada := by
  have hnot : c ∉ (as.map s.entrada).keys := by
    rw [List.keys, List.map_map, List.mem_map]
    rintro ⟨a, ha, heq⟩
    exact has a ha heq
  rw [List.map_append, List.map_append, List.map_cons, List.kerase_append_right hnot,
    List.kerase_cons_eq (show c = (s.entrada p).1 from hp.symm)]

/-- The chains of a table from which a record has been removed. -/
theorem datos_dbEliminarRegistro (x : Estado t.1) {clave valor : CStr} (reemplazar : Bool)
    (hsome : x.mapa (Clave.de clave) = some valor) :
    (Bdd.dbEliminarRegistro clave reemplazar x).datos = x.datos.erase (Clave.de clave) ∧
      (Bdd.dbEliminarRegistro clave reemplazar x).cuantos = x.cuantos - 1 := by
  have hlookup : x.datos.lookup (Clave.de clave) = some valor := hsome
  simp only [Bdd.dbEliminarRegistro, hlookup, and_self]

/-- A table without the record is left as it is. -/
theorem dbEliminarRegistro_of_none (x : Estado t.1) {clave : CStr} (reemplazar : Bool)
    (hnone : x.mapa (Clave.de clave) = none) : Bdd.dbEliminarRegistro clave reemplazar x = x := by
  have hlookup : x.datos.lookup (Clave.de clave) = none := hnone
  simp only [Bdd.dbEliminarRegistro, hlookup]

/-- A removal. -/
theorem Refleja.dbEliminarRegistro (h : Refleja s e listas) {clave : CStr}
    (hclave : Hallable (e t) clave) (detras : CStr) (reemplazar : Bool) :
    ∃ listas', Refleja (s.dbEliminarRegistro t clave detras)
      (Function.update e t (Bdd.dbEliminarRegistro clave reemplazar (e t))) listas' := by
  have hfind := h.mapa_eq hclave detras
  cases hmapa : (e t).mapa (Clave.de clave) with
  | none =>
      have hnot : Clave.de clave ∉
          (listas (t, hashi t detras (Clave.de clave))).map s.datos.value := by
        rw [hmapa, eq_comm, Option.map_eq_none_iff, List.find?_eq_none] at hfind
        rw [List.mem_map]
        rintro ⟨p, hp, heq⟩
        exact hfind p hp (by simpa using heq)
      have hremove := h.holds.remove_of_not_mem hnot
      refine ⟨listas, ?_⟩
      rw [dbEliminarRegistro_of_none _ reemplazar hmapa, Function.update_eq_self]
      simp only [Almacen.dbEliminarRegistro, hremove]
      exact h.conIterador _
  | some valor =>
      have hhashi := hashi_of_some detras hclave hmapa
      have hmem : Clave.de clave ∈
          (listas (t, hashi t detras (Clave.de clave))).map s.datos.value := by
        rw [hmapa, eq_comm, Option.map_eq_some_iff] at hfind
        obtain ⟨p, hp, -⟩ := hfind
        exact List.mem_map.mpr ⟨p, List.mem_of_find?_eq_some hp, by simpa using List.find?_some hp⟩
      obtain ⟨as, p, bs, hsplit, hp, has⟩ := h.holds.first hmem
      obtain ⟨datos, hremove, hvalue, -, hholds⟩ := h.holds.remove_first hsplit hp has
      obtain ⟨hdatos, hcuantos⟩ := datos_dbEliminarRegistro (e t) reemplazar hmapa
      refine ⟨Function.update listas (t, hashi t detras (Clave.de clave)) (as ++ bs), ?_⟩
      simp only [Almacen.dbEliminarRegistro, hremove]
      have hentrada : ∀ q, (⟨datos.value q, s.valor q⟩ : Sigma fun _ : Clave ↦ CStr) =
          s.entrada q := by
        intro q
        rw [hvalue, entrada]
      refine h.cambia hholds (fun k q _ ↦ hentrada q) ?_ ?_ ?_
      · have hkerase := kerase_map bs hp has
        rw [← hsplit, h.entradas, hhashi] at hkerase
        rw [hdatos, hhashi]
        refine Eq.trans ?_ (congrArg AList.entries ((e t).datos.bucket_erase_self _)).symm
        exact (List.map_congr_left fun q _ ↦ hentrada q).trans hkerase.symm
      · intro j hj
        rw [hhashi] at hj
        rw [hdatos]
        exact Chains.bucket_erase_of_ne _ hj
      · rw [hcuantos, h.cuantos]

/-- A record of a new key is put in front of its chain. -/
theorem Refleja.enlaza (h : Refleja s e listas) (hnone : (e t).mapa c = none) (valor : CStr)
    (e' : Estado t.1) (hdatos : e'.datos = (e t).datos.insert c valor)
    (hcuantos : e'.cuantos = (e t).cuantos + 1) :
    Refleja
      { s with
        datos := s.datos.cons (t, dbHashRegistro c.1 t.len) c
        valor := Function.update s.valor s.datos.count valor
        cuantos := Function.update s.cuantos t (s.cuantos t + 1) }
      (Function.update e t e')
      (Function.update listas (t, dbHashRegistro c.1 t.len)
        (s.datos.count :: listas (t, dbHashRegistro c.1 t.len))) := by
  have hentrada : ∀ k, ∀ p ∈ listas k,
      (⟨Function.update s.datos.value s.datos.count c p,
        Function.update s.valor s.datos.count valor p⟩ : Sigma fun _ : Clave ↦ CStr) =
        s.entrada p := by
    intro k p hp
    have hne : p ≠ s.datos.count := Nat.ne_of_lt (h.holds.lt k p hp)
    rw [Function.update_of_ne hne, Function.update_of_ne hne, entrada]
  refine h.cambia (h.holds.cons _ c) hentrada ?_ ?_ ?_
  · have hbucket : (((e t).datos.insert c valor).bucket (dbHashRegistro c.1 t.len)).entries =
        ⟨c, valor⟩ :: ((e t).datos.bucket (dbHashRegistro c.1 t.len)).entries :=
      (congrArg AList.entries ((e t).datos.bucket_insert_self c valor)).trans
        (AList.entries_insert_of_notMem (AList.lookup_eq_none.mp hnone))
    rw [hdatos, List.map_cons]
    refine Eq.trans ?_ hbucket.symm
    have hprimera : entrada { s with
        datos := s.datos.cons (t, dbHashRegistro c.1 t.len) c
        valor := Function.update s.valor s.datos.count valor
        cuantos := Function.update s.cuantos t (s.cuantos t + 1) } s.datos.count = ⟨c, valor⟩ := by
      simp [entrada, Nodes.cons]
    rw [hprimera, ← h.entradas]
    exact congrArg _ (List.map_congr_left (hentrada _))
  · intro j hj
    rw [hdatos]
    exact Chains.bucket_insert_of_ne _ _ hj
  · rw [hcuantos, h.cuantos]

/-- An insertion. -/
theorem Refleja.dbInsertarRegistro (h : Refleja s e listas) {clave : CStr} (hclave : clave ≠ [])
    (valor detras : CStr) :
    ∃ listas', Refleja (s.dbInsertarRegistro t clave valor detras)
      (Function.update e t (Bdd.dbInsertarRegistro clave valor (e t))) listas' := by
  obtain ⟨listas', h'⟩ := (h.conIterador { s.iterador with reg := none }).dbEliminarRegistro
    (fun hnil ↦ absurd hnil hclave) detras true
  have hnone : (Function.update e t (Bdd.dbEliminarRegistro clave true (e t)) t).mapa
      (Clave.de clave) = none := by
    rw [Function.update_self, mapa_dbEliminarRegistro, Function.update_self]
  have hpuesta := h'.enlaza hnone valor (Bdd.dbInsertarRegistro clave valor (e t))
    (by rw [Function.update_self]; rfl) (by rw [Function.update_self]; rfl)
  rw [Function.update_idem, ← hashi_de hclave valor] at hpuesta
  exact ⟨_, hpuesta⟩

/-- A table is emptied. -/
theorem Refleja.borrarDb (h : Refleja s e listas) (t : TablaResidente) :
    ∃ listas', Refleja (s.borrarDb t) (Function.update e t (Bdd.borrarDb (e t))) listas' := by
  have hforget := h.holds.forget fun i : TablaResidente × Nat ↦ i.1 = t ∧ i.2 < t.len
  refine ⟨_, ⟨hforget.lists, hforget.lt, fun _ ↦ rfl⟩, fun u j ↦ ?_, fun u ↦ ?_⟩
  · by_cases hu : u = t
    · subst hu
      rw [Function.update_self]
      by_cases hj : j < u.len
      · rw [if_pos ⟨rfl, hj⟩]
        rfl
      · rw [if_neg fun hboth ↦ hj hboth.2, h.lista_eq_nil (Nat.le_of_not_lt hj)]
        rfl
    · rw [if_neg fun hboth ↦ hu hboth.1, Function.update_of_ne hu, ← h.entradas]
      rfl
  · by_cases hu : u = t
    · subst hu
      simp only [Almacen.borrarDb, Function.update_self]
      rfl
    · simp only [Almacen.borrarDb, Function.update_of_ne hu, h.cuantos]

end

end Almacen

end Ircd.Bdd
