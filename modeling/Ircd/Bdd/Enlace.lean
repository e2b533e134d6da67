import Ircd.Bdd.Ordenes
import Ircd.Lib.Replica

/-!
# Two servers with one table

A hub and a neighbour that takes its records from it are joined by a link, which keeps the order of
messages until it breaks. When the link comes up both announce their serials, and the table of the
neighbour follows that of the hub by bursts and by single records. `paso` is one step of the system,
`Archivo.nuevo` says that the file of the hub stays a record of its table, and
`Archivo.lineasDesde_eq` what a burst reads from it.
-/

namespace Ircd.Bdd

open CString Match Replica

variable {t : Char}

/-! ## The system -/

/-- The names of the two servers. -/
structure Servidores where
  hub : CStr
  vecino : CStr
  middle_hub : Middle hub
  middle_vecino : Middle vecino

/-- The two servers and the link between them, with the messages on their way to the neighbour and
to the hub. -/
structure Enlace where
  hub : Nodo
  vecino : Nodo
  arriba : Bool
  ida : List CStr
  vuelta : List CStr
  muerto : Bool

/-- A server without records. -/
def Nodo.inicial : Nodo where
  base := .inicial
  esnetDb _ := false

/-- The system at the start. -/
def Enlace.inicial : Enlace where
  hub := .inicial
  vecino := .inicial
  arriba := false
  ida := []
  vuelta := []
  muerto := false

/-- What can happen: a record reaches the hub, a message arrives, the link breaks or comes up. -/
inductive Evento (t : Char) where
  | novedad (n : Novedad t)
  | alVecino
  | alHub
  | corte
  | union

/-- The letter of a table in `tx_num_serie_dbs`. -/
def letraUnion (t : Char) : Char :=
  if t = 'n' then '2' else t

/-- The messages of `tx_num_serie_dbs` on a new link. -/
def saludo (t : Char) (x : Nodo) : List CStr :=
  [textoOrden ['*'] ['J'] (decimal (x.serie t)) (letraUnion t)]

/-- A server that has lost or not yet gained its neighbour. -/
def Nodo.sinVecino (x : Nodo) : Nodo :=
  { x with esnetDb := fun _ ↦ false }

/-- One step of the system. -/
def paso (p : Servidores) : Evento t → Enlace → Enlace
  | .novedad n, x =>
      let (hub, avisos) := novedadDb (memory p.hub []) n.parv x.hub
      { x with hub := hub, ida := x.ida ++ avisos }
  | .alVecino, x =>
      match x.ida with
      | [] => x
      | aviso :: ida =>
          match mDb (memory p.vecino []) p.hub true (params MAXPARA aviso) x.vecino with
          | none => { x with muerto := true }
          | some (vecino, avisos) =>
              { x with vecino := vecino, ida := ida, vuelta := x.vuelta ++ avisos }
  | .alHub, x =>
      match x.vuelta with
      | [] => x
      | aviso :: vuelta =>
          match mDb (memory p.hub []) p.vecino false (params MAXPARA aviso) x.hub with
          | none => { x with muerto := true }
          | some (hub, avisos) =>
              { x with hub := hub, vuelta := vuelta, ida := x.ida ++ avisos }
  | .corte, x =>
      { x with
        hub := x.hub.sinVecino
        vecino := x.vecino.sinVecino
        arriba := false
        ida := []
        vuelta := [] }
  | .union, x =>
      if x.arriba then x
      else
        { x with
          hub := x.hub.sinVecino
          vecino := x.vecino.sinVecino
          arriba := true
          ida := saludo t x.hub
          vuelta := saludo t x.vecino }

/-! ## What must not be lost -/

/-- The map of the table of a server. -/
def Nodo.mapa (x : Nodo) (t : Char) : Mapa :=
  (x.base.tablas t).mapa

/-- The assignment of a message, if it is a record but none of compaction. -/
def entradaAviso (aviso : CStr) : Option (Log.Entry Clave CStr) :=
  match params MAXPARA aviso with
  | _ :: serie :: _ :: clave :: resto =>
      if toUnsigned (atol serie) = 0 ∨ clave = ['*'] then none
      else some (Clave.de clave, resto.head?)
  | _ => none

/-- The map of the neighbour when the records on their way have arrived. -/
def Enlace.previsto (t : Char) (x : Enlace) : Mapa :=
  Log.replay (x.vecino.mapa t) (x.ida.filterMap entradaAviso)

/-- The hub can still send the deletion of a key to its neighbour. -/
def Enlace.Borrado (t : Char) (x : Enlace) (c : Clave) : Prop :=
  ∃ buf ∈ lineasDesde (x.hub.base.tablas t).fichero (x.vecino.serie t + 1),
    ∃ p, parteRegistro buf = some p ∧ p.clave ≠ ['*'] ∧ p.entrada = (c, none)

/-- The step loses no deletion: a record of compaction does not reach the hub while the neighbour is
behind and has, or will have, a record that the hub has not, and when the link breaks the hub can
send the deletions that the neighbour lacks. Lines can be read back. -/
def Evento.Conserva : Evento t → Enlace → Prop
  | .novedad n, x =>
      n.texto.length ≤ maxLinea ∧ (n.clave = ['*'] → x.hub.esnetDb t = true ∨
        ∀ c, x.hub.mapa t c = none → x.previsto t c = none)
  | .corte, x =>
      x.arriba = true → ∀ c, x.hub.mapa t c = none → x.vecino.mapa t c ≠ none → x.Borrado t c
  | _, _ => True

/-- Both servers are targets of the record. -/
def Novedad.Comun (p : Servidores) (n : Novedad t) : Prop :=
  ircMatch n.destino (memory p.hub []) = true ∧ ircMatch n.destino (memory p.vecino []) = true

/-! ## Records -/

/-- The assignment of a record. A record of compaction has none. -/
def Novedad.efecto (n : Novedad t) : Option (Log.Entry Clave CStr) :=
  if n.clave = ['*'] then none else some (Clave.de n.clave, n.valor)

/-- Records with their serials and assignments. -/
def sello (t : Char) : Stamped (Novedad t) Clave CStr where
  stamp n := n.serie
  effect := Novedad.efecto

/-- The record of the line of a new record. -/
theorem Novedad.registro (n : Novedad t) :
    n.toLinea.registro = some ⟨decimal n.serie, n.destino, n.clave, n.valor⟩ :=
  n.tiene.registro

/-- The tables in memory have lower-case letters. -/
theorem Residente.letra (ht : Residente t) : 'a' ≤ t ∧ t ≤ 'z' := by
  unfold Residente tablaResidenteYLen at ht
  split at ht <;> first | decide | exact absurd rfl ht

/-- The letter of a record names its table. -/
theorem Novedad.tablaDe_tabla (ht : Residente t) (n : Novedad t) : tablaDe [n.tabla] = some t := by
  have hletra := ht.letra
  rcases n.tabla_eq with h | ⟨h, rfl⟩
  · rw [tablaDe, h, if_pos hletra]
  · rw [h]
    rfl

/-- The tests of `m_db` on a record. -/
theorem Novedad.registroNuevo_parv (ht : Residente t) (n : Novedad t) (s : BaseDatos) :
    registroNuevo true n.parv s =
      if n.serie ≤ (s.tablas t).serie then none else some ⟨t, n.destino, n.clave, n.texto⟩ := by
  obtain ⟨-, -, hcola⟩ := n.tiene
  have htexto : textoNuevo n.serie n.destino [n.tabla] n.clave n.valor.toList = n.texto := by
    rw [Linea.texto, hcola]
    cases n.valor <;> simp [textoNuevo, textoValor]
  unfold registroNuevo Novedad.parv
  simp only [List.cons_append, List.nil_append, n.atol_serie, n.tablaDe_tabla ht, htexto]
  by_cases hcero : n.serie = 0
  · simp [hcero]
  · simp [hcero]

/-- A record that is not new is ignored. -/
theorem nuevoRegistro_viejo (ht : Residente t) (me : List Char) {n : Novedad t} {s : BaseDatos}
    (hn : n.serie ≤ (s.tablas t).serie) : nuevoRegistro me true n.parv s = s := by
  rw [nuevoRegistro, n.registroNuevo_parv ht, if_pos hn]

/-- A new record is applied, or compacts the file. -/
theorem nuevoRegistro_parv (ht : Residente t) (me : List Char) {n : Novedad t} {s : BaseDatos}
    (hn : (s.tablas t).serie < n.serie) :
    nuevoRegistro me true n.parv s =
      if n.clave = ['*'] then s.en t (dbPack (n.texto ++ ['\n']))
      else s.en t (dbAlta me (n.texto ++ ['\n']) true) := by
  rw [nuevoRegistro, n.registroNuevo_parv ht, if_neg (by omega)]
  by_cases hclave : n.clave = ['*'] <;> simp [hclave]

@[simp] theorem sello_stamp (n : Novedad t) : (sello t).stamp n = n.serie := rfl

@[simp] theorem sello_effect (n : Novedad t) : (sello t).effect n = n.efecto := rfl

/-- The memory after a new record. -/
theorem mapa_nuevoRegistro (ht : Residente t) {me : List Char} {n : Novedad t}
    (hme : ircMatch n.destino me = true) {s : BaseDatos} (hn : (s.tablas t).serie < n.serie) :
    ((nuevoRegistro me true n.parv s).tablas t).mapa = (sello t).after (s.tablas t).mapa [n] := by
  rw [nuevoRegistro_parv ht me hn]
  by_cases hclave : n.clave = ['*']
  · rw [if_pos hclave, Stamped.after_of_effect (by simp [Novedad.efecto, hclave])]
    simp only [BaseDatos.en, Function.update_self]
    rw [dbPack, if_pos ht]
    rfl
  · have haplica : (⟨decimal n.serie, n.destino, n.clave, n.valor⟩ : Registro).Aplica me t :=
      ⟨ht, hme⟩
    rw [if_neg hclave]
    simp only [BaseDatos.en, Function.update_self]
    rw [mapa_dbAlta, parteRegistro_texto _ (by simp), n.registro]
    simp [haplica, Stamped.after, Stamped.effects, Novedad.efecto, hclave, Registro.entrada,
      BaseDatos.estado]

/-- The serial after a new record. -/
theorem serie_nuevoRegistro (ht : Residente t) (me : List Char) {n : Novedad t} {s : BaseDatos}
    (hn : (s.tablas t).serie < n.serie) :
    ((nuevoRegistro me true n.parv s).tablas t).serie = n.serie := by
  rw [nuevoRegistro_parv ht me hn]
  by_cases hclave : n.clave = ['*']
  · rw [if_pos hclave]
    simp only [BaseDatos.en, Function.update_self]
    rw [dbPack, if_pos ht]
    exact n.atol_texto _
  · rw [if_neg hclave]
    simp only [BaseDatos.en, Function.update_self]
    rw [serie_dbAlta, parteRegistro_texto _ (by simp), n.registro]
    exact n.atol_serie

/-! ## The file of the hub -/

/-- The lines of the file of a table record its map. -/
structure Archivo (ns : List (Novedad t)) (s : Tabla t) : Prop where
  fichero : s.fichero = textoFichero (ns.map (·.toLinea))
  cortas : ∀ n ∈ ns, n.texto.length ≤ maxLinea
  guarda : (sello t).Keeps s.mapa s.serie ns

/-- The lines of a file after a new record. -/
def archivoTras (m : Mapa) (ns : List (Novedad t)) (n : Novedad t) : List (Novedad t) :=
  (if n.clave = ['*'] then (sello t).compacted m ns else ns) ++ [n]

/-- No letter is folded to a star. -/
theorem clave_estrella {clave : CStr} (h : Clave.de clave = Clave.de ['*']) : clave = ['*'] := by
  have hfold : fold clave = ['*'] := congrArg Subtype.val h
  obtain ⟨c, cs, rfl⟩ := List.exists_cons_of_ne_nil (show clave ≠ [] by rintro rfl; cases hfold)
  obtain ⟨hc, hcs⟩ := List.cons.inj hfold
  obtain rfl := List.map_eq_nil_iff.mp hcs
  have hsame : toLower c = c := by
    unfold toLower at hc ⊢
    split
    · next hup =>
        rw [if_pos hup] at hc
        have hcode := toNat_ofNat_of_isUpperCode hup
        rw [hc] at hcode
        have hstar : ('*' : Char).toNat = 42 := rfl
        simp only [isUpperCode, decide_eq_true_eq] at hup
        omega
    · rfl
  rw [← hsame, hc]

/-- Records never give the key of the records of compaction a value. -/
theorem Records.estrella {m : Mapa} {ns : List (Novedad t)} (h : (sello t).Records m ns) :
    m (Clave.de ['*']) = none := by
  rw [← h]
  refine Log.replay_of_not_mem fun e he hstar ↦ ?_
  obtain ⟨n, -, hn⟩ := List.mem_filterMap.mp he
  rw [sello_effect, Novedad.efecto] at hn
  split at hn
  · cases hn
  · next hclave =>
      obtain rfl := Option.some.inj hn
      exact hclave (clave_estrella hstar)

/-- The test of the pass over the file on a record. -/
theorem Novedad.vigente_eq {m : Mapa} (hm : m (Clave.de ['*']) = none) (n : Novedad t) :
    n.toLinea.Vigente m = (n.efecto).any (Log.kept m) := by
  rw [Linea.Vigente, Linea.entrada, n.registro, Novedad.efecto]
  split
  · next hclave => cases n.valor <;> simp [Registro.entrada, Log.kept, hclave, hm]
  · rfl

theorem mem_archivoTras {m : Mapa} {ns : List (Novedad t)} {n a : Novedad t}
    (h : a ∈ archivoTras m ns n) : a ∈ ns ∨ a = n := by
  rcases List.mem_append.mp h with h | h
  · left
    split at h
    · exact List.mem_of_mem_filter h
    · exact h
  · exact .inr (List.mem_singleton.mp h)

/-- A new record keeps file and map in step. -/
theorem Archivo.nuevo (ht : Residente t) {me : List Char} {ns : List (Novedad t)} {s : BaseDatos}
    (h : Archivo ns (s.tablas t)) {n : Novedad t} (hme : ircMatch n.destino me = true)
    (hn : (s.tablas t).serie < n.serie) (hcorta : n.texto.length ≤ maxLinea) :
    Archivo (archivoTras (s.tablas t).mapa ns n) ((nuevoRegistro me true n.parv s).tablas t) := by
  have hserie := serie_nuevoRegistro ht me hn
  have hmapa := mapa_nuevoRegistro ht hme hn
  have hestrella := Records.estrella h.guarda.records
  refine ⟨?_, ?_, ⟨?_, ?_, ?_⟩⟩
  · rw [nuevoRegistro_parv ht me hn, archivoTras]
    by_cases hclave : n.clave = ['*']
    · rw [if_pos hclave, if_pos hclave]
      have hbien : ∀ l ∈ ns.map (·.toLinea), l.BienFormada := by
        simp only [List.forall_mem_map]
        exact fun n _ ↦ ⟨_, _, n.tiene⟩
      have hpack := (dbPack_textoFichero ht hbien hcorta (s := s.estado t) h.fichero).2.2.1
      simp only [BaseDatos.en, Function.update_self, hpack]
      have hfiltro : (Linea.Vigente (s.tablas t).mapa ∘ fun n : Novedad t ↦ n.toLinea)
          = fun n ↦ (n.efecto).any (Log.kept (s.tablas t).mapa) :=
        funext fun n ↦ n.vigente_eq hestrella
      rw [compactadas, List.filter_map, List.map_append, Stamped.compacted]
      simp only [BaseDatos.estado, hfiltro]
      rfl
    · rw [if_neg hclave, if_neg hclave]
      simp only [BaseDatos.en, Function.update_self]
      rw [(disco_dbAlta ..).1, List.map_append, textoFichero_append, ← h.fichero]
      simp [BaseDatos.estado]
  · intro a ha
    rcases mem_archivoTras ha with ha | rfl
    · exact h.cortas a ha
    · exact hcorta
  · have hmenor (xs : List (Novedad t)) (hxs : ∀ a ∈ xs, a ∈ ns) :
        ∀ a ∈ xs, (sello t).stamp a < (sello t).stamp n := fun a ha ↦
      Nat.lt_of_le_of_lt (h.guarda.stamp_le a (hxs a ha)) hn
    unfold archivoTras
    split
    · exact Stamped.Sorted.append_singleton (List.Pairwise.filter _ h.guarda.sorted)
        (hmenor _ fun a ha ↦ List.mem_of_mem_filter ha)
    · exact Stamped.Sorted.append_singleton h.guarda.sorted (hmenor _ fun a ha ↦ ha)
  · rw [hmapa, archivoTras]
    split
    · exact h.guarda.records.compacted.append n
    · exact h.guarda.records.append n
  · rw [hserie, archivoTras, Stamped.lastStamp_append_singleton]
    rfl

/-- The first record behind a serial is there to be read. -/
theorem Archivo.lineasDesde_eq {ns : List (Novedad t)} {s : Tabla t} (h : Archivo ns s) (db : Nat) :
    lineasDesde s.fichero (db + 1) = ((sello t).newer db ns).map fun n ↦ n.texto := by
  have horden : Creciente (ns.map (·.toLinea)) := List.pairwise_map.mpr h.guarda.sorted
  have hfiltro : (fun l : Linea t ↦ decide (db + 1 ≤ l.serie)) ∘ (fun n : Novedad t ↦ n.toLinea)
      = fun n ↦ decide (db < (sello t).stamp n) := rfl
  have hcortas : ∀ l ∈ ((sello t).newer db ns).map (·.toLinea), l.texto.length ≤ maxLinea := by
    simp only [List.forall_mem_map]
    exact fun n hn ↦ h.cortas n (List.mem_of_mem_filter hn)
  rw [lineasDesde, h.fichero, seekDb_textoFichero horden, List.filter_map, hfiltro]
  rw [← Stamped.newer, leidas_textoFichero hcortas, List.map_map]
  rfl

/-! ## The link -/

/-- The letters that an order has for a table. -/
def Letra (t c : Char) : Prop :=
  c = t ∨ c = '2' ∧ t = 'n'

theorem letra_letraUnion (t : Char) : Letra t (letraUnion t) := by
  unfold letraUnion
  split
  · exact .inr ⟨rfl, ‹_›⟩
  · exact .inl rfl

/-- The table of an order is read back. -/
theorem queBdd_letra (ht : Residente t) {c : Char} (hc : Letra t c) :
    queBdd 'J' [[c]] = some t := by
  rcases hc with rfl | ⟨rfl, rfl⟩
  · exact if_pos ht.letra
  · rfl

/-- The arguments of an order. -/
theorem params_textoOrden {destino orden argumento : CStr} {c : Char} (hdestino : Middle destino)
    (horden : Middle orden) (hargumento : Middle argumento) (hc : Middle [c]) :
    params MAXPARA (textoOrden destino orden argumento c)
      = [destino, ['0'], orden, argumento, [c]] := by
  refine params_argumentos ?_ (show 5 < 15 by decide)
  simp only [List.forall_mem_cons, List.not_mem_nil, false_implies, implies_true, and_true]
  exact ⟨hdestino, by decide, horden, hargumento, hc⟩

theorem Residente.middle (ht : Residente t) : Middle [t] := by
  have hletra := ht.letra
  refine ⟨by simp, fun h ↦ ?_, fun h ↦ ?_⟩
  · rw [← List.mem_singleton.mp h] at hletra
    exact absurd hletra (by decide)
  · rw [Option.some.inj h] at hletra
    exact absurd hletra (by decide)

/-- The order `J` as the other side reads it. -/
theorem mDb_J (ht : Residente t) (me : List Char) (otro : CStr) (esHub : Bool) {destino : CStr}
    (hdestino : Middle destino) {n : Nat} (hn : n < 2 ^ 32) {c : Char} (hc : Letra t c) (x : Nodo) :
    mDb me otro esHub (params MAXPARA (textoOrden destino ['J'] (decimal n) c)) x
      = ordenJ otro t n x := by
  have hmiddle : Middle [c] := by
    rcases hc with rfl | ⟨rfl, -⟩
    exacts [ht.middle, by decide]
  have hserie : toUnsigned (atol (decimal n)) = n := by
    have hatol : atol (decimal n ++ []) = n := atol_decimal_append (by omega) rfl
    rw [List.append_nil] at hatol
    rw [hatol, toUnsigned_of_lt hn]
  have hcero : toUnsigned (atol ['0']) = 0 := by decide
  rw [params_textoOrden hdestino (by decide) (middle_decimal n) hmiddle, mDb, if_pos hcero]
  simp only [peek, List.headD_cons, queBdd_letra ht hc, hserie]

/-- The order `B` as the neighbour reads it. -/
theorem mDb_B (ht : Residente t) (me : List Char) (otro : CStr) {destino : CStr}
    (hdestino : Middle destino) (n : Nat) (x : Nodo) :
    mDb me otro true (params MAXPARA (textoOrden destino ['B'] (decimal n) t)) x
      = some (x, [textoOrden otro ['J'] (decimal (x.serie t)) t]) := by
  have htabla : queBdd 'B' [[t]] = some t := if_pos ht.letra
  have hcero : toUnsigned (atol ['0']) = 0 := by decide
  rw [params_textoOrden hdestino (by decide) (middle_decimal n) ht.middle, mDb, if_pos hcero]
  simp only [peek, List.headD_cons, htabla, if_true]

/-- A record as the neighbour reads it. -/
theorem mDb_aviso (me : List Char) (otro : CStr) (n : Novedad t) (hn : n.serie ≠ 0) (x : Nodo) :
    mDb me otro true (params MAXPARA n.aviso) x
      = some ({ x with base := nuevoRegistro me true n.parv x.base }, []) := by
  rw [n.params_aviso]
  simp only [Novedad.parv, List.cons_append, mDb, n.atol_serie, if_neg hn]

end Ircd.Bdd
