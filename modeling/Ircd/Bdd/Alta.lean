import Ircd.Bdd.Registros
import Ircd.Lib.Log

/-!
# Adding a record

`dbAlta` is the common path of a record line, whether it comes from the network or from the file of
its table, and `borrarDb` empties a table. A line is well formed when it is the text `Linea.texto`
of a `Linea`; `parteRegistro_texto` says that the parser reads back its fields. `mapa_dbAlta`
describes the step on the map of a table as the application of one log entry.
-/

namespace Ircd.Bdd

open CString Match

/-- The tokens of a record line. -/
structure Registro where
  serie : CStr
  destino : CStr
  clave : CStr
  valor : Option CStr
deriving DecidableEq

/-- The five calls of `strtok` in `db_alta`. Nothing is done with a line that has no key. -/
def parteRegistro (registro : CStr) : Option Registro :=
  let (p0, s) := strtok [' '] registro
  let (p1, s) := strtok [' '] s
  let (_, s) := strtok [' '] s
  let (p3, s) := strtok [' ', '\r', '\n'] s
  let (p4, _) := strtok ['\r', '\n'] s
  match p0, p1, p3 with
  | some serie, some destino, some clave => some ⟨serie, destino, clave, p4⟩
  | _, _, _ => none

variable {t : Char}

/-- The first part of `db_alta`: the hash is updated and a record from the network, for which `cptr`
is given, is appended to the file. -/
def anotaRegistro (registro : CStr) (cptr : Bool) (s : Estado t) : Estado t :=
  let s := { s with hash := actualizaHash registro s.hash }
  if cptr then { s with fichero := s.fichero ++ registro, hashes := almacenaHash s.hash } else s

/-- The second part of `db_alta`, for a complete record. The argument `me` is the memory at
`me.name`. -/
def aplicaRegistro (me : List Char) (p : Registro) (s : Estado t) : Estado t :=
  let s := { s with serie := toUnsigned (atol p.serie) }
  if Residente t ∧ ircMatch p.destino me then
    match p.valor with
    | none => dbEliminarRegistro p.clave false s
    | some valor => dbInsertarRegistro p.clave valor s
  else s

/-- `db_alta`. -/
def dbAlta (me : List Char) (registro : CStr) (cptr : Bool) (s : Estado t) : Estado t :=
  let s := anotaRegistro registro cptr s
  match parteRegistro registro with
  | none => s
  | some p => aplicaRegistro me p s

/-- `borrar_db`. The file is left to the callers. -/
def borrarDb (s : Estado t) : Estado t :=
  { s with serie := 0, cuantos := 0, hash := Hash.cero, datos := Chains.empty }

/-! ## What a record does -/

/-- A record as an assignment to its key. -/
def Registro.entrada (p : Registro) : Log.Entry Clave CStr :=
  (Clave.de p.clave, p.valor)

/-- A record takes effect in memory when the table is kept there and the server is a target. -/
def Registro.Aplica (me : List Char) (t : Char) (p : Registro) : Prop :=
  Residente t ∧ ircMatch p.destino me = true

instance (me : List Char) (p : Registro) : Decidable (p.Aplica me t) :=
  inferInstanceAs (Decidable (_ ∧ _))

@[simp] theorem mapa_anotaRegistro (registro : CStr) (cptr : Bool) (s : Estado t) :
    (anotaRegistro registro cptr s).mapa = s.mapa := by
  cases cptr <;> rfl

@[simp] theorem bots_anotaRegistro (registro : CStr) (cptr : Bool) (s : Estado t) :
    (anotaRegistro registro cptr s).bots = s.bots := by
  cases cptr <;> rfl

@[simp] theorem serie_anotaRegistro (registro : CStr) (cptr : Bool) (s : Estado t) :
    (anotaRegistro registro cptr s).serie = s.serie := by
  cases cptr <;> rfl

@[simp] theorem hash_anotaRegistro (registro : CStr) (cptr : Bool) (s : Estado t) :
    (anotaRegistro registro cptr s).hash = actualizaHash registro s.hash := by
  cases cptr <;> rfl

/-- A complete record is one log entry for the map, if it takes effect. -/
theorem mapa_aplicaRegistro (me : List Char) (p : Registro) (s : Estado t) :
    (aplicaRegistro me p s).mapa =
      if p.Aplica me t then Log.apply s.mapa p.entrada else s.mapa := by
  unfold aplicaRegistro
  by_cases hp : Residente t ∧ ircMatch p.destino me = true
  · rw [if_pos hp, if_pos (show p.Aplica me t from hp), Log.apply, Registro.entrada]
    cases p.valor with
    | none => exact mapa_dbEliminarRegistro ..
    | some v => exact mapa_dbInsertarRegistro ..
  · rw [if_neg hp, if_neg (show ¬p.Aplica me t from hp)]
    rfl

/-- A complete record sets the serial, whoever it is for, and changes only the memory. -/
theorem aplicaRegistro_frame (me : List Char) (p : Registro) (s : Estado t) :
    (aplicaRegistro me p s).serie = toUnsigned (atol p.serie) ∧
      (aplicaRegistro me p s).hash = s.hash ∧
      (aplicaRegistro me p s).fichero = s.fichero ∧
      (aplicaRegistro me p s).hashes = s.hashes := by
  unfold aplicaRegistro
  dsimp only
  split
  · cases p.valor with
    | none => exact dbEliminarRegistro_frame ..
    | some v => exact dbInsertarRegistro_frame ..
  · exact ⟨rfl, rfl, rfl, rfl⟩

/-- The map after a line: one log entry is applied if the line is complete and takes effect. -/
theorem mapa_dbAlta (me : List Char) (registro : CStr) (cptr : Bool) (s : Estado t) :
    (dbAlta me registro cptr s).mapa =
      match parteRegistro registro with
      | none => s.mapa
      | some p => if p.Aplica me t then Log.apply s.mapa p.entrada else s.mapa := by
  unfold dbAlta
  dsimp only
  cases parteRegistro registro with
  | none => exact mapa_anotaRegistro ..
  | some p => simp only [mapa_aplicaRegistro, mapa_anotaRegistro]

/-- The hash after a line. -/
theorem hash_dbAlta (me : List Char) (registro : CStr) (cptr : Bool) (s : Estado t) :
    (dbAlta me registro cptr s).hash = actualizaHash registro s.hash := by
  unfold dbAlta
  dsimp only
  cases parteRegistro registro with
  | none => exact hash_anotaRegistro ..
  | some p => rw [(aplicaRegistro_frame ..).2.1, hash_anotaRegistro]

/-- The serial after a line. -/
theorem serie_dbAlta (me : List Char) (registro : CStr) (cptr : Bool) (s : Estado t) :
    (dbAlta me registro cptr s).serie =
      match parteRegistro registro with
      | none => s.serie
      | some p => toUnsigned (atol p.serie) := by
  unfold dbAlta
  dsimp only
  cases parteRegistro registro with
  | none => exact serie_anotaRegistro ..
  | some p => exact (aplicaRegistro_frame ..).1

end Ircd.Bdd
