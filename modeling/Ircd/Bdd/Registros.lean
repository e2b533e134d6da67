import Ircd.Bdd.Hash
import Ircd.Lib.Chains

/-!
# Records in memory

The tables of `ircd/s_bdd.c` and the two operations that change their records,
`dbEliminarRegistro` and `dbInsertarRegistro`. Each operation works on the state of its own table
and on the settings that the program caches outside of the tables, of which the names of the four
service bots are modelled. What the operations do to the map of a table is
`mapa_dbEliminarRegistro` and `mapa_dbInsertarRegistro`.
-/

namespace Ircd.Bdd

open CString

/-! ## Tables -/

/-- `tabla_residente_y_len` as `initdb` fills it: the number of chains, 0 for a table that is only
kept on disk. -/
def tablaResidenteYLen : Char → Nat
  | 'n' => 32768
  | 'i' => 512
  | 'o' => 256
  | 'c' => 2048
  | 'd' => 8192
  | 'b' => 256
  | 'f' => 256
  | 'g' => 256
  | 'h' => 256
  | 'j' => 512
  | 'l' => 256
  | 'm' => 256
  | 'p' => 256
  | 'q' => 256
  | 's' => 512
  | 'u' => 256
  | 'v' => 4096
  | 'w' => 256
  | 'z' => 256
  | 'e' => 512
  | 'r' => 256
  | 'y' => 256
  | _ => 0

/-- The table of service bots. -/
def BDD_BOTSDB : Char := 'b'

/-- The table of operators. -/
def BDD_OPERDB : Char := 'o'

/-- `db_es_residente`. -/
def Residente (t : Char) : Prop :=
  tablaResidenteYLen t ≠ 0

instance (t : Char) : Decidable (Residente t) :=
  inferInstanceAs (Decidable (_ ≠ _))

/-- `db_hash_registro`: the chain of a key. -/
def dbHashRegistro (clave : CStr) (hashSize : Nat) : Nat :=
  strhash clave &&& (hashSize - 1)

/-- A key in lower case, the only form in which keys are stored. -/
def Clave := {c : CStr // fold c = c}
deriving DecidableEq

/-- The lower-case copy that every operation makes of its key. -/
def Clave.de (s : CStr) : Clave :=
  ⟨fold s, fold_fold s⟩

/-- The map that a table is for. -/
abbrev Mapa := Clave → Option CStr

/-- What the program keeps about one table, in memory and on disk. -/
structure Tabla (t : Char) where
  serie : Nat
  cuantos : UInt32
  hash : Hash
  datos : Chains (fun c : Clave ↦ dbHashRegistro c.1 (tablaResidenteYLen t)) CStr
  fichero : CStr
  hashes : CStr

/-- A table that has never held a record, with the hash that is stored for it. -/
def Tabla.vacia (t : Char) : Tabla t where
  serie := 0
  cuantos := 0
  hash := Hash.cero
  datos := Chains.empty
  fichero := []
  hashes := almacenaHash Hash.cero

/-- The map of a table. -/
def Tabla.mapa {t : Char} (s : Tabla t) : Mapa :=
  s.datos.lookup

/-! ## The cached names of the bots -/

/-- The service bots whose names are cached. -/
inductive Bot where
  | nickserv
  | chanserv
  | clonesserv
  | spamserv
deriving DecidableEq

/-- `BDD_NICKSERV`, `BDD_CHANSERV`, `BDD_CLONESSERV` and `BDD_SPAMSERV`. -/
def Bot.nombre : Bot → CStr
  | .nickserv => "nickserv".toList
  | .chanserv => "chanserv".toList
  | .clonesserv => "clonesserv".toList
  | .spamserv => "spamserv".toList

/-- The key of a bot in its table. -/
def Bot.clave (b : Bot) : Clave :=
  Clave.de b.nombre

/-- `bot_nickserv`, `bot_chanserv`, `bot_clonesserv` and `bot_spamserv`, `none` for `NULL`. -/
abbrev Bots := Bot → Option CStr

/-- The chain of comparisons of a key with the names of the bots. -/
def Bot.deClave (c : CStr) : Option Bot :=
  if c = Bot.nickserv.nombre then some .nickserv
  else if c = Bot.chanserv.nombre then some .chanserv
  else if c = Bot.clonesserv.nombre then some .clonesserv
  else if c = Bot.spamserv.nombre then some .spamserv
  else none

/-- The assignment to the cache of the bot that a key names, if it names one. -/
def Bots.asigna (c : CStr) (v : Option CStr) (bots : Bots) : Bots :=
  match Bot.deClave c with
  | some b => Function.update bots b v
  | none => bots

theorem Bot.deClave_eq_some {c : CStr} {b : Bot} : Bot.deClave c = some b ↔ c = b.nombre := by
  constructor
  · intro h
    unfold Bot.deClave at h
    split_ifs at h with h₁ h₂ h₃ h₄ <;> cases h <;> assumption
  · rintro rfl
    cases b <;> decide

/-- The name of a bot is in lower case. -/
@[simp] theorem Bot.clave_val (b : Bot) : b.clave.1 = b.nombre := by
  cases b <;> decide

/-- An assignment changes the cache of the bot whose key it is given, and no other. -/
theorem Bots.asigna_apply (c : Clave) (v : Option CStr) (bots : Bots) (b : Bot) :
    Bots.asigna c.1 v bots b = if c = b.clave then v else bots b := by
  unfold Bots.asigna
  cases hb : Bot.deClave c.1 with
  | none =>
      have hne : c ≠ b.clave := by
        rintro rfl
        rw [Bot.clave_val, Bot.deClave_eq_some.mpr rfl] at hb
        cases hb
      simp [hne]
  | some b' =>
      have hc : c = b'.clave := Subtype.ext (by rw [Bot.clave_val, Bot.deClave_eq_some.mp hb])
      by_cases hbb : b = b'
      · simp [hbb, hc]
      · have hne : c ≠ b.clave := by
          rintro rfl
          rw [Bot.clave_val, Bot.deClave_eq_some.mpr rfl] at hb
          exact hbb (Option.some.inj hb)
        simp [hbb, hne]

/-! ## The operations -/

/-- What an operation on one table can change. -/
structure Estado (t : Char) extends Tabla t where
  bots : Bots

variable {t : Char}

/-- `db_buscar_registro`. -/
def dbBuscarRegistro (clave : CStr) (s : Tabla t) : Option CStr :=
  if Residente t then s.datos.lookup (Clave.de clave) else none

/-- `db_eliminar_registro`: the record is unlinked and, unless a new value is about to replace it,
the settings it stands for are reset. The case of the operators has no `break` and runs into the
case of the bots. -/
def dbEliminarRegistro (clave : CStr) (reemplazar : Bool) (s : Estado t) : Estado t :=
  let c := Clave.de clave
  match s.datos.lookup c with
  | none => s
  | some _ =>
      { s with
        datos := s.datos.erase c
        cuantos := s.cuantos - 1
        bots :=
          if (t = BDD_OPERDB ∨ t = BDD_BOTSDB) ∧ reemplazar = false then
            s.bots.asigna c.1 none
          else s.bots }

/-- `db_insertar_registro`: an older record of the key is removed first. -/
def dbInsertarRegistro (clave valor : CStr) (s : Estado t) : Estado t :=
  let c := Clave.de clave
  let s := dbEliminarRegistro clave true s
  { s with
    datos := s.datos.insert c valor
    cuantos := s.cuantos + 1
    bots := if t = BDD_BOTSDB then s.bots.asigna c.1 (some valor) else s.bots }

/-- Removing a record takes its key from the map, also when there is no such record. -/
@[simp] theorem mapa_dbEliminarRegistro (clave : CStr) (reemplazar : Bool) (s : Estado t) :
    (dbEliminarRegistro clave reemplazar s).mapa
      = Function.update s.mapa (Clave.de clave) none := by
  cases h : s.datos.lookup (Clave.de clave) with
  | none =>
      simp only [dbEliminarRegistro, h, Tabla.mapa]
      exact (Function.update_eq_self_iff.mpr h.symm).symm
  | some v => simp [dbEliminarRegistro, h, Tabla.mapa]

/-- Inserting a record gives its key the new value in the map. -/
@[simp] theorem mapa_dbInsertarRegistro (clave valor : CStr) (s : Estado t) :
    (dbInsertarRegistro clave valor s).mapa
      = Function.update s.mapa (Clave.de clave) (some valor) := by
  have herase := mapa_dbEliminarRegistro clave true s
  rw [Tabla.mapa] at herase
  simp [dbInsertarRegistro, Tabla.mapa, herase]

/-- Removing a record leaves the serial, the hash and the disk as they are. -/
theorem dbEliminarRegistro_frame (clave : CStr) (reemplazar : Bool) (s : Estado t) :
    (dbEliminarRegistro clave reemplazar s).serie = s.serie ∧
      (dbEliminarRegistro clave reemplazar s).hash = s.hash ∧
      (dbEliminarRegistro clave reemplazar s).fichero = s.fichero ∧
      (dbEliminarRegistro clave reemplazar s).hashes = s.hashes := by
  unfold dbEliminarRegistro
  dsimp only
  split <;> exact ⟨rfl, rfl, rfl, rfl⟩

/-- Inserting a record leaves the serial, the hash and the disk as they are. -/
theorem dbInsertarRegistro_frame (clave valor : CStr) (s : Estado t) :
    (dbInsertarRegistro clave valor s).serie = s.serie ∧
      (dbInsertarRegistro clave valor s).hash = s.hash ∧
      (dbInsertarRegistro clave valor s).fichero = s.fichero ∧
      (dbInsertarRegistro clave valor s).hashes = s.hashes :=
  dbEliminarRegistro_frame clave true s

/-- What a removal does to the caches: only the removal of a record that exists, from the table of
bots or from that of operators, resets the bot of that key. -/
theorem bots_dbEliminarRegistro (clave : CStr) (reemplazar : Bool) (s : Estado t) (b : Bot) :
    (dbEliminarRegistro clave reemplazar s).bots b =
      if (t = BDD_OPERDB ∨ t = BDD_BOTSDB) ∧ reemplazar = false ∧
          (s.mapa b.clave).isSome ∧ Clave.de clave = b.clave then none
      else s.bots b := by
  cases h : s.datos.lookup (Clave.de clave) with
  | none =>
      have hne : ¬((s.mapa b.clave).isSome = true ∧ Clave.de clave = b.clave) := by
        rintro ⟨hsome, heq⟩
        rw [Tabla.mapa, ← heq, h] at hsome
        cases hsome
      simp only [dbEliminarRegistro, h]
      rw [if_neg]
      rintro ⟨-, -, hb⟩
      exact hne hb
  | some v =>
      simp only [dbEliminarRegistro, h]
      by_cases ht : (t = BDD_OPERDB ∨ t = BDD_BOTSDB) ∧ reemplazar = false
      · rw [if_pos ht, Bots.asigna_apply]
        by_cases hb : Clave.de clave = b.clave
        · have hsome : (s.mapa b.clave).isSome = true := by
            rw [Tabla.mapa, ← hb, h]
            rfl
          simp [ht, hb, hsome]
        · simp [hb]
      · rw [if_neg ht, if_neg]
        rintro ⟨htabla, hreemplazar, -⟩
        exact ht ⟨htabla, hreemplazar⟩

/-- What an insertion does to the caches: one into the table of bots sets the bot of its key. -/
theorem bots_dbInsertarRegistro (clave valor : CStr) (s : Estado t) (b : Bot) :
    (dbInsertarRegistro clave valor s).bots b =
      if t = BDD_BOTSDB ∧ Clave.de clave = b.clave then some valor else s.bots b := by
  have herase := bots_dbEliminarRegistro clave true s b
  rw [if_neg (by simp)] at herase
  simp only [dbInsertarRegistro]
  by_cases ht : t = BDD_BOTSDB
  · simp only [ht, if_true, Bots.asigna_apply, true_and]
    split
    · rfl
    · exact ht ▸ herase
  · simp only [ht, if_false, false_and]
    exact herase

end Ircd.Bdd
