import Ircd.Bdd.Nuevo
import Ircd.Bdd.Seek

/-!
# Orders between neighbours

`mDb` is `m_db` on a message from a neighbour, and `novedadDb` on a new record from elsewhere, which
is passed on to the neighbour if its tap is open. The order `J` asks for the records behind a
serial. Either the tap is opened, or a burst of at most 1000 records is sent, after which the tap is
opened or the neighbour is told to ask again by the order `B`. `rafaga_novedades` says which
messages a burst is made of.
-/

namespace Ircd.Bdd

open CString Match

/-! ## Messages -/

/-- The text of an order behind its command. -/
def textoOrden (destino orden argumento : CStr) (letra : Char) : CStr :=
  argumentos [destino, ['0'], orden, argumento, [letra]]

/-- The text of a record behind its command. -/
def textoRegistro (destino serie tabla clave : CStr) (valor : Option CStr) : CStr :=
  argumentos [destino, serie, tabla, clave] ++ valor.elim [] (fun v ↦ ' ' :: ':' :: v)

/-- `que_bdd`, the table that an order is about, from the arguments behind its fourth one. There is
none where `m_db` returns at once. -/
def queBdd (orden : Char) : List CStr → Option Char
  | [p] =>
      let c := peek p
      if 'a' ≤ c ∧ c ≤ 'z' then some c
      else if '2' ≤ c ∧ c ≤ '9' ∧ orden = 'J' then some 'n'
      else none
  | _ => some 'n'

/-! ## The burst -/

/-- A text up to a blank and the text behind the blank. -/
def parteEn (s : CStr) : Option (CStr × CStr) :=
  if ' ' ∈ s then some (before s ' ', strchr s ' ') else none

/-- The message made of a line of the file, unless the line has too few fields. -/
def avisoLinea (buf : CStr) : Option CStr := do
  let (db, p) ← parteEn buf
  let (p, p2) ← parteEn p
  let (p2, p3) ← parteEn p2
  match parteEn p3 with
  | none => some (textoRegistro p db p2 p3 none)
  | some (p3, p4) => some (textoRegistro p db p2 p3 (some p4))

/-- The loop of the burst: its messages and the rest of `cont`. -/
def rafaga : Nat → List CStr → List CStr × Nat
  | 0, _ => ([], 0)
  | cont, [] => ([], cont)
  | cont + 1, buf :: bufs =>
      match avisoLinea buf with
      | none => rafaga (cont + 1) bufs
      | some aviso =>
          let (avisos, resto) := rafaga cont bufs
          (aviso :: avisos, resto)

/-- `abrir_db` and the calls of `leer_db` after it. No line means that `abrir_db` failed. -/
def lineasDesde (fichero : CStr) (registro : Nat) : List CStr :=
  leidas (fichero.drop (seekDb fichero registro))

/-- The length of a burst. -/
def maxRafaga : Nat := 1000

/-! ## Servers -/

/-- What a server keeps for one of its neighbours: its database, and which tables have a bit in the
`esnet_db` of the neighbour. -/
structure Nodo where
  base : BaseDatos
  esnetDb : Char → Bool

/-- The serial of a table. -/
def Nodo.serie (x : Nodo) (t : Char) : Nat :=
  (x.base.tablas t).serie

/-- Opens or closes the tap of a table. -/
def Nodo.grifo (x : Nodo) (t : Char) (abierto : Bool) : Nodo :=
  { x with esnetDb := Function.update x.esnetDb t abierto }

/-- The order `J`, from a neighbour of the name `otro` that has the records up to `db`. The result
is `none` where the server dies. -/
def ordenJ (otro : CStr) (t : Char) (db : Nat) (x : Nodo) : Option (Nodo × List CStr) :=
  if x.serie t ≤ db then some (x.grifo t true, [])
  else if x.esnetDb t then
    some (x.grifo t false, [textoOrden otro ['D'] "BDD_CORRUPTA".toList t])
  else
    match lineasDesde (x.base.tablas t).fichero (db + 1) with
    | [] => none
    | bufs =>
        let (avisos, cont) := rafaga maxRafaga bufs
        if cont ≠ 0 then some (x.grifo t true, avisos)
        else some (x, avisos ++ [textoOrden otro ['B'] (decimal (x.serie t)) t])

/-- What is left of a table after the order `D`. -/
def vaciaTabla {t : Char} (s : Estado t) : Estado t :=
  let s := borrarDb s
  { s with fichero := [], hashes := almacenaHash s.hash }

/-- The order `D`. -/
def ordenD (me : List Char) (otro destino argumento : CStr) (t : Char) (x : Nodo) :
    Nodo × List CStr :=
  if ircMatch (collapse destino) me then
    let x := { x with base := x.base.en t vaciaTabla }
    (x, [textoOrden otro ['E'] argumento t, textoOrden otro ['J'] (decimal (x.serie t)) t])
  else (x, [textoOrden otro ['J'] (decimal (x.serie t)) t])

/-- `m_db` on a message from the neighbour `otro`, with the messages sent back. Queries of the state
of a table are left out. -/
def mDb (me : List Char) (otro : CStr) (esHub : Bool) (parv : List CStr) (x : Nodo) :
    Option (Nodo × List CStr) :=
  match parv with
  | destino :: serie :: orden :: argumento :: resto =>
      if toUnsigned (atol serie) = 0 then
        match queBdd (peek orden) resto with
        | none => some (x, [])
        | some t =>
            match peek orden with
            | 'B' =>
                if esHub then some (x, [textoOrden otro ['J'] (decimal (x.serie t)) t])
                else some (x, [])
            | 'J' => ordenJ otro t (toUnsigned (atol argumento)) x
            | 'D' => if esHub then some (ordenD me otro destino argumento t x) else some (x, [])
            | _ => some (x, [])
      else some ({ x with base := nuevoRegistro me esHub parv x.base }, [])
  | _ => some (x, [])

/-- The message that passes a new record on. -/
def reenvio : List CStr → CStr
  | destino :: serie :: tabla :: clave :: resto =>
      textoRegistro destino (decimal (toUnsigned (atol serie))) tabla clave resto.head?
  | _ => []

/-- `m_db` on a new record that a hub sends from elsewhere, with the messages for the neighbour. -/
def novedadDb (me : List Char) (parv : List CStr) (x : Nodo) : Nodo × List CStr :=
  ({ x with base := nuevoRegistro me true parv x.base },
    match registroNuevo true parv x.base with
    | none => []
    | some n => if x.esnetDb n.tabla then [reenvio parv] else [])

/-! ## Well-formed records -/

/-- A well-formed record whose fields can be sent. -/
structure Novedad (t : Char) extends Linea t where
  clave : CStr
  valor : Option CStr
  tiene : toLinea.Tiene clave valor
  middle_destino : Middle destino
  middle_tabla : Middle [tabla]
  middle_clave : Middle clave

variable {t : Char}

/-- The arguments of a record. -/
def Novedad.parv (n : Novedad t) : List CStr :=
  [n.destino, decimal n.serie, [n.tabla], n.clave] ++ n.valor.toList

/-- The message of a record. -/
def Novedad.aviso (n : Novedad t) : CStr :=
  textoRegistro n.destino (decimal n.serie) [n.tabla] n.clave n.valor

/-- Numbers can stand before other parameters. -/
theorem middle_decimal (n : Nat) : Middle (decimal n) := by
  obtain ⟨hne, hblanco, -⟩ := word_decimal n
  refine ⟨hne, hblanco, fun h ↦ ?_⟩
  have hmem : ':' ∈ decimal n := List.mem_of_mem_head? h
  exact absurd (isDigit_of_mem_decimal hmem) (by decide)

/-- The neighbour reads the arguments that were sent. -/
theorem Novedad.params_aviso (n : Novedad t) : params MAXPARA n.aviso = n.parv := by
  have hmiddle : ∀ p ∈ [n.destino, decimal n.serie, [n.tabla], n.clave], Middle p := by
    simp only [List.forall_mem_cons, List.not_mem_nil, false_implies, implies_true, and_true]
    exact ⟨n.middle_destino, middle_decimal _, n.middle_tabla, n.middle_clave⟩
  unfold aviso textoRegistro parv
  cases n.valor with
  | none =>
      rw [Option.elim_none, List.append_nil]
      exact params_argumentos hmiddle (show 4 < 15 by decide)
  | some v => exact params_argumentos_colon hmiddle (show 4 < 15 by decide) v

/-- The serial of a record as it is read. -/
theorem Novedad.atol_serie (n : Novedad t) : toUnsigned (atol (decimal n.serie)) = n.serie :=
  n.toLinea.atol_serie

theorem Novedad.reenvio_parv (n : Novedad t) : reenvio n.parv = n.aviso := by
  unfold reenvio Novedad.parv Novedad.aviso
  cases n.valor <;> simp [n.atol_serie]

/-- A line of the file becomes the message of its record. -/
theorem Novedad.avisoLinea_texto (n : Novedad t) : avisoLinea n.texto = some n.aviso := by
  obtain ⟨hclave, -, hcola⟩ := n.tiene
  have hparte {s : CStr} (rest : CStr) (hs : ' ' ∉ s) :
      parteEn (s ++ ' ' :: rest) = some (s, rest) := by
    rw [parteEn, if_pos (by simp), before_append rest hs, strchr_append rest hs]
  have htabla : parteEn (n.tabla :: ' ' :: n.cola) = some ([n.tabla], n.cola) :=
    hparte n.cola n.tabla_campo.2.1
  simp only [avisoLinea, Linea.texto, hparte _ (word_decimal n.serie).2.1,
    hparte _ n.destino_campo.2.1, htabla, Option.bind_eq_bind, Option.bind_some]
  unfold Novedad.aviso
  rw [hcola]
  cases n.valor with
  | none =>
      have hsola : parteEn (n.clave ++ textoValor none) = none := by
        rw [textoValor, List.append_nil]
        exact if_neg hclave.2.1
      rw [hsola, textoValor, List.append_nil]
  | some v => rw [textoValor, hparte v hclave.2.1]

/-- A burst sends the records in their order, as many as it may. -/
theorem rafaga_novedades (cont : Nat) (ns : List (Novedad t)) :
    rafaga cont (ns.map fun n ↦ n.texto)
      = ((ns.take cont).map Novedad.aviso, cont - ns.length) := by
  induction ns generalizing cont with
  | nil => cases cont <;> rfl
  | cons n ns ih =>
      cases cont with
      | zero => simp [rafaga]
      | succ cont => simp [rafaga, n.avisoLinea_texto, ih]

end Ircd.Bdd
