import Ircd.Bdd.Almacen

/-!
# The store as a finite map

The cursor `db_iterador` of `ircd/s_bdd.c`, and the runs of the store. The main theorem,
`Almacen.ejecuta_mapas`, says that after any operations the store is the map that the insertions and
the removals describe: a lookup finds the value, the records have distinct keys, each is in the
chain of its key, the counter is their number, and the cursor gives each of them once.
-/

namespace Ircd.Bdd.Almacen

open CString

/-! ## The cursor -/

/-- The loop over the chains: the first record of a chain, and the next position. -/
def primera (cabeza : Nat → Option Nat) : Nat → Nat → Option (Nat × Nat)
  | 0, _ => none
  | resto + 1, pos =>
      match cabeza pos with
      | some p => some (p, pos + 1)
      | none => primera cabeza resto (pos + 1)

/-- `db_iterador`. -/
def dbIterador (s : Almacen) : Option Nat × Almacen :=
  let it := s.iterador
  match it.reg.bind s.datos.next with
  | some p => (some p, { s with iterador := { it with reg := some p } })
  | none =>
      let cabeza i := it.datos.bind fun t ↦ s.datos.head (t, i)
      match primera cabeza (it.hashLen - it.hashPos) it.hashPos with
      | some (p, pos) => (some p, { s with iterador := { it with reg := some p, hashPos := pos } })
      | none => (none, { s with iterador := ⟨none, none, 0, 0⟩ })

/-- `db_iterador_init`. -/
def dbIteradorInit (t : TablaResidente) (s : Almacen) : Option Nat × Almacen :=
  dbIterador { s with iterador := ⟨none, some t, 0, t.len⟩ }

/-- `db_iterador_next`, `none` when one of its assertions fails. -/
def dbIteradorNext (s : Almacen) : Option (Option Nat × Almacen) :=
  if s.iterador.reg.isSome ∧ s.iterador.datos.isSome ∧ s.iterador.hashLen ≠ 0 then
    some (dbIterador s)
  else none

/-- The records that a call of the cursor and the calls of `db_iterador_next` after it return, up to
the first `NULL`. -/
inductive Entrega : Option Nat × Almacen → List Nat → Prop where
  | fin {s : Almacen} : Entrega (none, s) []
  | sigue {s : Almacen} {p : Nat} {r : Option Nat × Almacen} {ps : List Nat}
      (hnext : dbIteradorNext s = some r) (hresto : Entrega r ps) : Entrega (some p, s) (p :: ps)

/-- The records of a table, chain by chain. -/
def registros (t : TablaResidente) (s : Almacen) : List Nat :=
  (List.range t.len).flatMap fun i ↦ s.datos.nodes (t, i)

/-! ## What the cursor returns -/

section

variable {cabeza : Nat → Option Nat} {cadena : Nat → List Nat}

/-- The loop finds nothing when the chains are empty. -/
theorem primera_nil (hcabeza : ∀ i, cabeza i = (cadena i).head?) {resto pos : Nat}
    (hnil : (List.range' pos resto).flatMap cadena = []) : primera cabeza resto pos = none := by
  induction resto generalizing pos with
  | zero => rfl
  | succ resto ih =>
      rw [List.range'_succ, List.flatMap_cons, List.append_eq_nil_iff] at hnil
      rw [primera, hcabeza, hnil.1]
      exact ih hnil.2

/-- The loop finds the first record of the chains that are left. -/
theorem primera_cons (hcabeza : ∀ i, cabeza i = (cadena i).head?) {resto pos p : Nat}
    {ps : List Nat} (hcons : (List.range' pos resto).flatMap cadena = p :: ps) :
    ∃ i xs, primera cabeza resto pos = some (p, i + 1) ∧ pos ≤ i ∧ i < pos + resto ∧
      cadena i = p :: xs ∧
      ps = xs ++ (List.range' (i + 1) (pos + resto - (i + 1))).flatMap cadena := by
  induction resto generalizing pos with
  | zero => cases hcons
  | succ resto ih =>
      rw [List.range'_succ, List.flatMap_cons] at hcons
      cases hcadena : cadena pos with
      | nil =>
          rw [hcadena, List.nil_append] at hcons
          obtain ⟨i, xs, hprimera, hle, hlt, hi, hps⟩ := ih hcons
          refine ⟨i, xs, ?_, by omega, by omega, hi, ?_⟩
          · rw [primera, hcabeza, hcadena]
            exact hprimera
          · rw [hps, Nat.add_right_comm, Nat.add_assoc]
      | cons q xs =>
          rw [hcadena, List.cons_append] at hcons
          obtain ⟨rfl, rfl⟩ := List.cons.inj hcons
          refine ⟨pos, xs, ?_, le_rfl, by omega, hcadena, ?_⟩
          · rw [primera, hcabeza, hcadena]
            rfl
          · rw [show pos + (resto + 1) - (pos + 1) = resto by omega]

end

variable {s : Almacen} {listas : TablaResidente × Nat → List Nat} {t : TablaResidente}

/-- The records of the chains from a position on. -/
def desde (listas : TablaResidente × Nat → List Nat) (t : TablaResidente) (pos : Nat) : List Nat :=
  (List.range' pos (t.len - pos)).flatMap fun i ↦ listas (t, i)

/-- The cursor is at a record of the table, and some are left. -/
structure EnCurso (s : Almacen) (listas : TablaResidente × Nat → List Nat) (t : TablaResidente)
    (quedan : List Nat) : Prop where
  lists : LinkedLists s.datos.next s.datos.head listas
  datos : s.iterador.datos = some t
  hashLen : s.iterador.hashLen = t.len
  reg : ∃ i as p xs, s.iterador.reg = some p ∧ listas (t, i) = as ++ p :: xs ∧
    quedan = xs ++ desde listas t s.iterador.hashPos

/-- What a call of the cursor gives when some records are left. -/
def Devuelve (r : Option Nat × Almacen) (listas : TablaResidente × Nat → List Nat)
    (t : TablaResidente) : List Nat → Prop
  | [] => r.1 = none
  | q :: quedan => r.1 = some q ∧ EnCurso r.2 listas t quedan

/-- At the end of a chain the cursor goes on with the next chains. -/
theorem dbIterador_cadenas (hlists : LinkedLists s.datos.next s.datos.head listas)
    (hdatos : s.iterador.datos = some t) (hlen : s.iterador.hashLen = t.len)
    (hreg : s.iterador.reg.bind s.datos.next = none) :
    Devuelve (dbIterador s) listas t (desde listas t s.iterador.hashPos) := by
  have hcabeza : ∀ i, (s.iterador.datos.bind fun t ↦ s.datos.head (t, i)) =
      (listas (t, i)).head? := by
    intro i
    rw [hdatos, Option.bind_some, (hlists.links (t, i)).head?]
  cases hquedan : desde listas t s.iterador.hashPos with
  | nil =>
      rw [desde, ← hlen] at hquedan
      simp only [Devuelve, dbIterador, hreg, primera_nil hcabeza hquedan]
  | cons q quedan =>
      rw [desde, ← hlen] at hquedan
      obtain ⟨i, xs, hprimera, hle, hlt, hi, hps⟩ := primera_cons hcabeza hquedan
      simp only [Devuelve, dbIterador, hreg, hprimera, true_and]
      refine ⟨hlists, hdatos, hlen, i, [], q, xs, rfl, hi, ?_⟩
      rw [hps, desde, show s.iterador.hashPos + (s.iterador.hashLen - s.iterador.hashPos) - (i + 1) =
        t.len - (i + 1) by omega]

/-- A call of `db_iterador_next`. -/
theorem EnCurso.dbIteradorNext {quedan : List Nat} (h : EnCurso s listas t quedan) :
    ∃ r, s.dbIteradorNext = some r ∧ Devuelve r listas t quedan := by
  obtain ⟨i, as, p, xs, hreg, hlista, hquedan⟩ := h.reg
  have hafirma : s.iterador.reg.isSome ∧ s.iterador.datos.isSome ∧ s.iterador.hashLen ≠ 0 := by
    rw [hreg, h.datos, h.hashLen]
    exact ⟨rfl, rfl, Nat.ne_of_gt t.len_pos⟩
  refine ⟨dbIterador s, if_pos hafirma, ?_⟩
  have hlinks := h.lists.links (t, i)
  rw [hlista] at hlinks
  have hnext : xs.head? = s.datos.next p := (hlinks.from_mem.2).head?
  cases xs with
  | nil =>
      rw [hquedan, List.nil_append]
      refine dbIterador_cadenas h.lists h.datos h.hashLen ?_
      rw [hreg]
      exact hnext.symm
  | cons q xs =>
      rw [hquedan, List.cons_append]
      have hbind : s.iterador.reg.bind s.datos.next = some q := by
        rw [hreg]
        exact hnext.symm
      simp only [Devuelve, dbIterador, hbind, true_and]
      exact ⟨h.lists, h.datos, h.hashLen, i, as ++ [p], q, xs, rfl, by simp [hlista], rfl⟩

/-- The cursor returns the records that are left, one after the other. -/
theorem Devuelve.entrega {r : Option Nat × Almacen} {quedan : List Nat}
    (h : Devuelve r listas t quedan) : Entrega r quedan := by
  induction quedan generalizing r with
  | nil =>
      obtain ⟨reg, s⟩ := r
      have hreg : reg = none := h
      subst hreg
      exact .fin
  | cons q quedan ih =>
      obtain ⟨reg, s⟩ := r
      obtain ⟨hreg, hcurso⟩ : reg = some q ∧ EnCurso s listas t quedan := h
      subst hreg
      obtain ⟨r', hnext, hdevuelve⟩ := hcurso.dbIteradorNext
      exact .sigue hnext (ih hdevuelve)

/-- The cursor returns all records of the table. -/
theorem entrega_dbIteradorInit {vals : TablaResidente × Nat → List Clave}
    (h : s.datos.Holds listas vals) (t : TablaResidente) :
    Entrega (dbIteradorInit t s) (registros t s) := by
  have hregistros : registros t s = desde listas t 0 := by
    rw [registros, desde, Nat.sub_zero, List.range_eq_range']
    exact congrArg (fun f ↦ (List.range' 0 t.len).flatMap f) (funext fun i ↦ h.nodes_eq (t, i))
  rw [hregistros]
  exact (dbIterador_cadenas (s := { s with iterador := ⟨none, some t, 0, t.len⟩ })
    h.lists rfl rfl rfl).entrega

/-! ## Runs -/

/-- The operations on the store. A key may be any string, and `detras` is what is behind it in the
buffer of the operation. -/
inductive Operacion where
  | insertar (t : TablaResidente) (clave valor detras : CStr)
  | eliminar (t : TablaResidente) (clave detras : CStr)
  | borrar (t : TablaResidente)
  | buscar (t : TablaResidente) (clave detras : CStr)

/-- An operation on the store. A lookup changes nothing. -/
def Operacion.aplica (s : Almacen) : Operacion → Almacen
  | .insertar t clave valor detras => s.dbInsertarRegistro t clave valor detras
  | .eliminar t clave detras => s.dbEliminarRegistro t clave detras
  | .borrar t => s.borrarDb t
  | .buscar _ _ _ => s

/-- The store after some operations. -/
def ejecuta (ops : List Operacion) : Almacen :=
  ops.foldl Operacion.aplica inicial

/-- What an operation does to the maps. -/
def Operacion.enMapas (m : TablaResidente → Mapa) : Operacion → TablaResidente → Mapa
  | .insertar t clave valor _ =>
      Function.update m t (Function.update (m t) (Clave.de clave) (some valor))
  | .eliminar t clave _ => Function.update m t (Function.update (m t) (Clave.de clave) none)
  | .borrar t => Function.update m t fun _ ↦ none
  | .buscar _ _ _ => m

/-- The values last inserted under a key, up to case, and not removed since. -/
def mapas (ops : List Operacion) : TablaResidente → Mapa :=
  ops.foldl Operacion.enMapas fun _ _ ↦ none

/-- A key to insert is a word of a line, which is not empty. -/
def Operacion.Palabra : Operacion → Prop
  | .insertar _ clave _ _ => clave ≠ []
  | _ => True

/-- The counter is the number of entries. -/
def Cuenta (t : TablaResidente) (x : Estado t.1) : Prop :=
  x.cuantos = UInt32.ofNat (x.datos.size t.len)

theorem Cuenta.eliminar {x : Estado t.1} (h : Cuenta t x) (clave : CStr) (reemplazar : Bool) :
    Cuenta t (Bdd.dbEliminarRegistro clave reemplazar x) := by
  cases hmapa : x.mapa (Clave.de clave) with
  | none => rwa [dbEliminarRegistro_of_none x reemplazar hmapa]
  | some valor =>
      obtain ⟨hdatos, hcuantos⟩ := datos_dbEliminarRegistro x reemplazar hmapa
      have hsize := x.datos.size_erase (dbHashRegistro_lt t (Clave.de clave).1)
        (Option.isSome_iff_exists.mpr ⟨valor, hmapa⟩)
      rw [Cuenta, hdatos, hcuantos, h, ← hsize, UInt32.ofNat_add]
      exact UInt32.add_sub_cancel _ _

theorem Cuenta.insertar {x : Estado t.1} (h : Cuenta t x) (clave valor : CStr) :
    Cuenta t (Bdd.dbInsertarRegistro clave valor x) := by
  have hnone : (Bdd.dbEliminarRegistro clave true x).mapa (Clave.de clave) = none := by
    rw [mapa_dbEliminarRegistro, Function.update_self]
  have hsize := (Bdd.dbEliminarRegistro clave true x).datos.size_insert
    (dbHashRegistro_lt t (Clave.de clave).1) valor hnone
  show (Bdd.dbEliminarRegistro clave true x).cuantos + 1 = UInt32.ofNat (Chains.size t.len
    ((Bdd.dbEliminarRegistro clave true x).datos.insert (Clave.de clave) valor))
  rw [hsize, UInt32.ofNat_add, h.eliminar clave true]
  rfl

/-- The store has the records of the maps. -/
def Realiza (s : Almacen) (m : TablaResidente → Mapa) : Prop :=
  ∃ e listas, Refleja s e listas ∧ (∀ t, (e t).mapa = m t) ∧ (∀ t, m t (Clave.de []) = none) ∧
    ∀ t, Cuenta t (e t)

/-- A change of one table. -/
theorem Realiza.cambia {m : TablaResidente → Mapa} {e : ∀ t : TablaResidente, Estado t.1}
    {s' : Almacen} {e' : Estado t.1} {mapa : Mapa}
    (hrefleja : ∃ listas', Refleja s' (Function.update e t e') listas')
    (hmapas : ∀ t, (e t).mapa = m t) (hvacia : ∀ t, m t (Clave.de []) = none)
    (hcuenta : ∀ t, Cuenta t (e t)) (hmapa : e'.mapa = mapa) (hnil : mapa (Clave.de []) = none)
    (hcuenta' : Cuenta t e') : Realiza s' (Function.update m t mapa) := by
  obtain ⟨listas', h⟩ := hrefleja
  refine ⟨_, listas', h, fun u ↦ ?_, fun u ↦ ?_, fun u ↦ ?_⟩ <;> by_cases hu : u = t
  · subst hu
    rw [Function.update_self, Function.update_self, hmapa]
  · rw [Function.update_of_ne hu, Function.update_of_ne hu, hmapas]
  · subst hu
    rw [Function.update_self, hnil]
  · rw [Function.update_of_ne hu, hvacia]
  · subst hu
    rwa [Function.update_self]
  · rw [Function.update_of_ne hu]
    exact hcuenta u

/-- A key that is not empty is not the empty key. -/
theorem claveVacia_ne {clave : CStr} (h : clave ≠ []) : Clave.de [] ≠ Clave.de clave := by
  intro heq
  have hval : fold [] = fold clave := congrArg Subtype.val heq
  exact h (List.map_eq_nil_iff.mp hval.symm)

/-- An operation. -/
theorem Realiza.aplica {m : TablaResidente → Mapa} (h : Realiza s m) {op : Operacion}
    (hop : op.Palabra) : Realiza (op.aplica s) (op.enMapas m) := by
  obtain ⟨e, listas, hrefleja, hmapas, hvacia, hcuenta⟩ := h
  cases op with
  | insertar t clave valor detras =>
      refine Realiza.cambia (hrefleja.dbInsertarRegistro hop valor detras) hmapas hvacia hcuenta
        ?_ ?_ ((hcuenta t).insertar clave valor)
      · rw [mapa_dbInsertarRegistro, hmapas]
      · rw [Function.update_of_ne (claveVacia_ne hop), hvacia]
  | eliminar t clave detras =>
      have hhallable : Hallable (e t) clave := fun _ ↦ by rw [hmapas, hvacia]
      refine Realiza.cambia (hrefleja.dbEliminarRegistro hhallable detras false) hmapas hvacia
        hcuenta ?_ ?_ ((hcuenta t).eliminar clave false)
      · rw [mapa_dbEliminarRegistro, hmapas]
      · by_cases hclave : Clave.de [] = Clave.de clave
        · rw [hclave, Function.update_self]
        · rw [Function.update_of_ne hclave, hvacia]
  | borrar t =>
      refine Realiza.cambia (hrefleja.borrarDb t) hmapas hvacia hcuenta ?_ rfl ?_
      · funext c
        exact Chains.lookup_empty c
      · show (0 : UInt32) = UInt32.ofNat (Chains.empty.size t.len)
        rw [Chains.size_empty]
        rfl
  | buscar t clave detras => exact ⟨e, listas, hrefleja, hmapas, hvacia, hcuenta⟩

/-- A run. -/
theorem realiza_ejecuta {ops : List Operacion} (hops : ∀ op ∈ ops, op.Palabra) :
    Realiza (ejecuta ops) (mapas ops) := by
  have hrun : ∀ s m, Realiza s m →
      Realiza (ops.foldl Operacion.aplica s) (ops.foldl Operacion.enMapas m) := by
    induction ops with
    | nil => exact fun s m h ↦ h
    | cons op ops ih =>
        intro s m h
        exact ih (fun o ho ↦ hops o (List.mem_cons_of_mem _ ho)) _ _
          (h.aplica (hops op List.mem_cons_self))
  refine hrun inicial _ ⟨_, _, refleja_inicial fun _ ↦ none, fun t ↦ ?_, fun _ ↦ rfl, fun t ↦ ?_⟩
  · funext c
    exact Chains.lookup_empty c
  · show (0 : UInt32) = UInt32.ofNat (Chains.empty.size t.len)
    rw [Chains.size_empty]
    rfl

/-! ## The finite map -/

/-- The table is the map: what the lookups find, which records there are, where they are, their
number, and what the cursor returns. -/
structure EsMapa (s : Almacen) (t : TablaResidente) (m : Mapa) : Prop where
  busca : ∀ clave detras, s.dbBuscarRegistro t clave detras =
    (m (Clave.de clave)).map fun valor ↦ (Clave.de clave, valor)
  registro : ∀ c valor, m c = some valor ↔ ∃ p ∈ registros t s, s.entrada p = ⟨c, valor⟩
  claves : ((registros t s).map s.datos.value).Nodup
  cadena : ∀ i < t.len, ∀ p ∈ s.datos.nodes (t, i), dbHashRegistro (s.datos.value p).1 t.len = i
  cuantos : s.cuantos t = UInt32.ofNat (registros t s).length
  cursor : (registros t s).Nodup ∧ Entrega (dbIteradorInit t s) (registros t s)

section

variable {e : ∀ t : TablaResidente, Estado t.1}

theorem Refleja.registros_eq (h : Refleja s e listas) (t : TablaResidente) :
    registros t s = (List.range t.len).flatMap fun i ↦ listas (t, i) :=
  congrArg (fun f ↦ (List.range t.len).flatMap f) (funext fun i ↦ h.holds.nodes_eq (t, i))

/-- The records are the entries of all buckets. -/
theorem Refleja.mem_registros (h : Refleja s e listas) {c : Clave} {valor : CStr} :
    (∃ p ∈ registros t s, s.entrada p = ⟨c, valor⟩) ↔ (e t).mapa c = some valor := by
  rw [h.registros_eq, Tabla.mapa, ← Chains.mem_entries_iff]
  constructor
  · rintro ⟨p, hp, hentrada⟩
    obtain ⟨i, -, hi⟩ := List.mem_flatMap.mp hp
    refine ⟨i, ?_⟩
    rw [← h.entradas, ← hentrada]
    exact List.mem_map_of_mem hi
  · rintro ⟨i, hi⟩
    have hlt : i < t.len := by
      have hplaced : dbHashRegistro c.1 t.len = i := (e t).datos.placed i _ hi
      have hlt := dbHashRegistro_lt t c.1
      rwa [hplaced] at hlt
    rw [← h.entradas] at hi
    obtain ⟨p, hp, hentrada⟩ := List.mem_map.mp hi
    exact ⟨p, List.mem_flatMap.mpr ⟨i, List.mem_range.mpr hlt, hp⟩, hentrada⟩

/-- No two records have the same key. -/
theorem Refleja.nodup_claves (h : Refleja s e listas) (t : TablaResidente) :
    ((registros t s).map s.datos.value).Nodup := by
  rw [h.registros_eq, List.map_flatMap, List.nodup_flatMap]
  constructor
  · intro i _
    have hkeys : (listas (t, i)).map s.datos.value = ((e t).datos.bucket i).entries.keys := by
      rw [← h.entradas, List.keys, List.map_map]
      rfl
    rw [hkeys]
    exact ((e t).datos.bucket i).nodupKeys
  · refine List.nodup_range.imp fun {i j} hij ↦ ?_
    rw [Function.onFun, List.disjoint_left]
    intro c hi hj
    obtain ⟨p, hp, rfl⟩ := List.mem_map.mp hi
    obtain ⟨q, hq, heq⟩ := List.mem_map.mp hj
    have hqj := h.hashi_eq hq
    rw [heq, h.hashi_eq hp] at hqj
    exact hij hqj

/-- The number of the records. -/
theorem Refleja.length_registros (h : Refleja s e listas) (t : TablaResidente) :
    (registros t s).length = (e t).datos.size t.len := by
  rw [h.registros_eq, List.length_flatMap]
  refine congrArg List.sum (List.map_congr_left fun i _ ↦ ?_)
  rw [← h.entradas, List.length_map]

end

/-- After any operations on the tables in memory, each table is the map that they describe. Only the
keys to insert must not be empty: those come from `strtok`. -/
theorem ejecuta_mapas (ops : List Operacion) (hops : ∀ op ∈ ops, op.Palabra) (t : TablaResidente) :
    EsMapa (ejecuta ops) t (mapas ops t) := by
  obtain ⟨e, listas, h, hmapas, hvacia, hcuenta⟩ := realiza_ejecuta hops
  exact {
    busca := fun clave detras ↦ by
      rw [h.dbBuscarRegistro (fun _ ↦ by rw [hmapas, hvacia]), hmapas]
    registro := fun c valor ↦ by rw [h.mem_registros, hmapas]
    claves := h.nodup_claves t
    cadena := fun i _ p hp ↦ by
      rw [h.holds.nodes_eq] at hp
      exact h.hashi_eq hp
    cuantos := by rw [h.cuantos, h.length_registros, hcuenta]
    cursor := ⟨.of_map _ (h.nodup_claves t), entrega_dbIteradorInit h.holds t⟩ }

/-- The nicks have a table. -/
theorem residente_nicks : Residente 'n' := by decide

/-- The bots have a table. -/
theorem residente_bots : Residente 'b' := by decide

/-- The table of the nicks. -/
def nicks : TablaResidente := ⟨'n', residente_nicks⟩

/-- The table of the bots. -/
def bots : TablaResidente := ⟨'b', residente_bots⟩

/-- Two nicks, one of them written again with other letters and the other one taken out, and a
record of another table. -/
def operacionesNick : List Operacion :=
  [.insertar nicks "Pepe".toList "clave".toList [],
    .insertar nicks "Ana".toList "otra".toList [],
    .insertar bots "pepe".toList "bot".toList [],
    .insertar nicks "PEPE".toList "nueva".toList [],
    .eliminar nicks "ANA".toList []]

/-- The nick that stays is found with its last value, and the other one is not. -/
theorem ejecuta_mapas_nick :
    dbBuscarRegistro nicks "pEPe".toList [] (ejecuta operacionesNick) =
        some (Clave.de "pepe".toList, "nueva".toList) ∧
      dbBuscarRegistro nicks "ana".toList [] (ejecuta operacionesNick) = none := by
  have hmapa := ejecuta_mapas operacionesNick
    (by simp [operacionesNick, Operacion.Palabra]) nicks
  rw [hmapa.busca, hmapa.busca]
  have hpepe : Clave.de "pEPe".toList = Clave.de "pepe".toList := by decide
  have hpepe' : mapas operacionesNick nicks (Clave.de "pepe".toList) =
      some "nueva".toList := by decide
  have hana : mapas operacionesNick nicks (Clave.de "ana".toList) = none := by decide
  rw [hpepe, hpepe', hana]
  exact ⟨rfl, rfl⟩

end Ircd.Bdd.Almacen
