import Ircd.Hash.Table
import Ircd.Lib.Run

/-!
# The tables of names

The tables of clients, channels and watched nicks of `ircd/hash.c`, and the functions of their
callers. A run is a list of calls that keep the names unique up to case; `tablas_correctas` says
that after every run each entry is in one chain once, and that each search has found the entry with
the name.
-/

namespace Ircd.Hash

open CString

/-- The three tables, and the status of the clients, which the rest of the program changes. -/
structure Tablas (ρ κ ω : Type) where
  clientTable : Tabla ρ
  channelTable : Tabla κ
  watchTable : Tabla ω
  status : ρ → Nat

/-- `IsStatMask`. -/
def isStatMask (status : Nat) (mask : BitVec 32) : Bool :=
  1#32 <<< status &&& mask ≠ 0#32

section

variable {ρ κ ω : Type} [DecidableEq ρ] [DecidableEq κ] [DecidableEq ω]

/-- `hash_init`: the entries and their names are what the memory has. -/
def hashInit (t : Tablas ρ κ ω) : Tablas ρ κ ω :=
  { t with
    clientTable := { t.clientTable with table := fun _ ↦ none }
    channelTable := { t.channelTable with table := fun _ ↦ none }
    watchTable := { t.watchTable with table := fun _ ↦ none } }

/-- `hAddClient`. -/
def hAddClient (cptr : ρ) (t : Tablas ρ κ ω) : Tablas ρ κ ω :=
  { t with clientTable := t.clientTable.add cptr }

/-- `hAddChannel`. -/
def hAddChannel (chptr : κ) (t : Tablas ρ κ ω) : Tablas ρ κ ω :=
  { t with channelTable := t.channelTable.add chptr }

/-- `hAddWatch`. -/
def hAddWatch (wptr : ω) (t : Tablas ρ κ ω) : Tablas ρ κ ω :=
  { t with watchTable := t.watchTable.add wptr }

variable [Fintype ρ] [Fintype κ] [Fintype ω]

/-- `hRemClient`. -/
def hRemClient (cptr : ρ) (t : Tablas ρ κ ω) : Int × Tablas ρ κ ω :=
  let r := t.clientTable.rem cptr
  (r.1, { t with clientTable := r.2 })

/-- `hRemChannel`. -/
def hRemChannel (chptr : κ) (t : Tablas ρ κ ω) : Int × Tablas ρ κ ω :=
  let r := t.channelTable.rem chptr
  (r.1, { t with channelTable := r.2 })

/-- `hRemWatch`. -/
def hRemWatch (wptr : ω) (t : Tablas ρ κ ω) : Int × Tablas ρ κ ω :=
  let r := t.watchTable.rem wptr
  (r.1, { t with watchTable := r.2 })

/-- `hChangeClient`. -/
def hChangeClient (cptr : ρ) (newname : CStr) (t : Tablas ρ κ ω) : Tablas ρ κ ω :=
  { t with clientTable := t.clientTable.change cptr newname }

/-- `hSeekClient`. -/
def hSeekClient (name : CStr) (tMask : BitVec 32) (t : Tablas ρ κ ω) : Option ρ × Tablas ρ κ ω :=
  let r := t.clientTable.seek name fun p ↦ isStatMask (t.status p) tMask
  (r.1, { t with clientTable := r.2 })

/-- `hSeekChannel`. -/
def hSeekChannel (name : CStr) (t : Tablas ρ κ ω) : Option κ × Tablas ρ κ ω :=
  let r := t.channelTable.seek name fun _ ↦ true
  (r.1, { t with channelTable := r.2 })

/-- `hSeekWatch`. -/
def hSeekWatch (nick : CStr) (t : Tablas ρ κ ω) : Option ω × Tablas ρ κ ω :=
  let r := t.watchTable.seek nick fun _ ↦ true
  (r.1, { t with watchTable := r.2 })

end

/-! ## Runs -/

/-- The entries that have been added and not removed. -/
structure Dentro (ρ κ ω : Type) where
  clientes : Finset ρ
  canales : Finset κ
  watches : Finset ω

/-- A call. The name is written to a new entry before it is added, and to a client after
`hChangeClient`; the rest of the program changes the status of a client at any time. -/
inductive Llamada (ρ κ ω : Type) where
  | addClient (cptr : ρ) (name : CStr)
  | remClient (cptr : ρ)
  | changeClient (cptr : ρ) (newname : CStr)
  | seekClient (name : CStr) (tMask : BitVec 32)
  | status (cptr : ρ) (status : Nat)
  | addChannel (chptr : κ) (name : CStr)
  | remChannel (chptr : κ)
  | seekChannel (name : CStr)
  | addWatch (wptr : ω) (nick : CStr)
  | remWatch (wptr : ω)
  | seekWatch (nick : CStr)

/-- The tables and what should be in them. -/
abbrev Estado (ρ κ ω : Type) := Tablas ρ κ ω × Dentro ρ κ ω

section

variable {ρ κ ω : Type} [DecidableEq ρ] [DecidableEq κ] [DecidableEq ω]

/-- The tables after `hash_init`, with nothing in them. -/
def inicial (t : Tablas ρ κ ω) : Estado ρ κ ω :=
  (hashInit t, ⟨∅, ∅, ∅⟩)

/-- A name that none of the entries has, a given one aside. -/
def Libre {α : Type} (name : α → CStr) (dentro : Finset α) (p : α) (nuevo : CStr) : Prop :=
  nuevo ≠ [] ∧ ∀ q ∈ dentro, q ≠ p → strCasediff (name q) nuevo ≠ 0

instance {α : Type} [DecidableEq α] (name : α → CStr) (dentro : Finset α) (p : α) (nuevo : CStr) :
    Decidable (Libre name dentro p nuevo) :=
  inferInstanceAs (Decidable (_ ∧ _))

/-- A call that keeps the names unique, and that passes no empty name. -/
def Permitida : Llamada ρ κ ω → Estado ρ κ ω → Prop
  | .addClient p name, s =>
      p ∉ s.2.clientes ∧ Libre s.1.clientTable.name s.2.clientes p name
  | .remClient p, s => s.1.clientTable.name p ≠ []
  | .changeClient p newname, s =>
      s.1.clientTable.name p ≠ [] ∧ Libre s.1.clientTable.name s.2.clientes p newname
  | .seekClient name _, _ => name ≠ []
  | .status _ _, _ => True
  | .addChannel p name, s =>
      p ∉ s.2.canales ∧ Libre s.1.channelTable.name s.2.canales p name
  | .remChannel p, s => s.1.channelTable.name p ≠ []
  | .seekChannel name, _ => name ≠ []
  | .addWatch p nick, s => p ∉ s.2.watches ∧ Libre s.1.watchTable.name s.2.watches p nick
  | .remWatch p, s => s.1.watchTable.name p ≠ []
  | .seekWatch nick, _ => nick ≠ []

instance decidablePermitida :
    (l : Llamada ρ κ ω) → (s : Estado ρ κ ω) → Decidable (Permitida l s)
  | .addClient _ _, _ | .addChannel _ _, _ | .addWatch _ _, _ | .changeClient _ _, _ =>
      inferInstanceAs (Decidable (_ ∧ _))
  | .remClient _, _ | .remChannel _, _ | .remWatch _, _ => inferInstanceAs (Decidable (_ ≠ _))
  | .seekClient _ _, _ | .seekChannel _, _ | .seekWatch _, _ =>
      inferInstanceAs (Decidable (_ ≠ _))
  | .status _ _, _ => isTrue trivial

variable [Fintype ρ] [Fintype κ] [Fintype ω]

/-- The tables after a call. -/
def tablas : Llamada ρ κ ω → Tablas ρ κ ω → Tablas ρ κ ω
  | .addClient p name, t =>
      hAddClient p { t with clientTable := t.clientTable.conNombre p name }
  | .remClient p, t => (hRemClient p t).2
  | .changeClient p newname, t =>
      let t := hChangeClient p newname t
      { t with clientTable := t.clientTable.conNombre p newname }
  | .seekClient name tMask, t => (hSeekClient name tMask t).2
  | .status p status, t => { t with status := Function.update t.status p status }
  | .addChannel p name, t =>
      hAddChannel p { t with channelTable := t.channelTable.conNombre p name }
  | .remChannel p, t => (hRemChannel p t).2
  | .seekChannel name, t => (hSeekChannel name t).2
  | .addWatch p nick, t => hAddWatch p { t with watchTable := t.watchTable.conNombre p nick }
  | .remWatch p, t => (hRemWatch p t).2
  | .seekWatch nick, t => (hSeekWatch nick t).2

omit [Fintype ρ] [Fintype κ] [Fintype ω] in
/-- The entries after a call. -/
def entradas : Llamada ρ κ ω → Dentro ρ κ ω → Dentro ρ κ ω
  | .addClient p _, d => { d with clientes := insert p d.clientes }
  | .remClient p, d => { d with clientes := d.clientes.erase p }
  | .changeClient p _, d => { d with clientes := insert p d.clientes }
  | .addChannel p _, d => { d with canales := insert p d.canales }
  | .remChannel p, d => { d with canales := d.canales.erase p }
  | .addWatch p _, d => { d with watches := insert p d.watches }
  | .remWatch p, d => { d with watches := d.watches.erase p }
  | .seekClient _ _, d | .status _ _, d | .seekChannel _, d | .seekWatch _, d => d

/-- A call. -/
def paso (l : Llamada ρ κ ω) (s : Estado ρ κ ω) : Estado ρ κ ω :=
  (tablas l s.1, entradas l s.2)

/-- A search finds the entry that has the name, if there is one, and nothing otherwise. -/
def Responde : Llamada ρ κ ω → Estado ρ κ ω → Prop
  | .seekClient name tMask, s => ∀ p, (hSeekClient name tMask s.1).1 = some p ↔
      p ∈ s.2.clientes ∧ isStatMask (s.1.status p) tMask = true ∧
        strCasediff name (s.1.clientTable.name p) = 0
  | .seekChannel name, s => ∀ p, (hSeekChannel name s.1).1 = some p ↔
      p ∈ s.2.canales ∧ strCasediff name (s.1.channelTable.name p) = 0
  | .seekWatch nick, s => ∀ p, (hSeekWatch nick s.1).1 = some p ↔
      p ∈ s.2.watches ∧ strCasediff nick (s.1.watchTable.name p) = 0
  | _, _ => True

/-- Every entry is once in one chain of its table. -/
def TodoUnaVez (s : Estado ρ κ ω) : Prop :=
  UnaVez s.1.clientTable s.2.clientes ∧ UnaVez s.1.channelTable s.2.canales ∧
    UnaVez s.1.watchTable s.2.watches

/-- The three tables are in order. -/
structure Coherentes (s : Estado ρ κ ω) : Prop where
  clientes : Coherente s.1.clientTable s.2.clientes
  canales : Coherente s.1.channelTable s.2.canales
  watches : Coherente s.1.watchTable s.2.watches

omit [Fintype ρ] [Fintype κ] [Fintype ω] [DecidableEq ρ] [DecidableEq κ] [DecidableEq ω] in
theorem coherentes_inicial (t : Tablas ρ κ ω) : Coherentes (inicial t) where
  clientes := Coherente.vacia t.clientTable
  canales := Coherente.vacia t.channelTable
  watches := Coherente.vacia t.watchTable

omit [Fintype ρ] [Fintype κ] [Fintype ω] [DecidableEq ρ] [DecidableEq κ] [DecidableEq ω] in
/-- The names differ up to case. -/
theorem Libre.fold_ne {α : Type} {name : α → CStr} {dentro : Finset α} {p : α} {nuevo : CStr}
    (h : Libre name dentro p nuevo) : ∀ q ∈ dentro, q ≠ p → fold (name q) ≠ fold nuevo :=
  fun q hq hne heq ↦ h.2 q hq hne (strCasediff_eq_zero.mpr heq)

/-- A call that keeps the names unique keeps the tables in order. -/
theorem coherentes_paso (l : Llamada ρ κ ω) (s : Estado ρ κ ω) (h : Coherentes s)
    (hl : Permitida l s) : Coherentes (paso l s) := by
  cases l with
  | addClient p name =>
      refine ⟨h.clientes.add hl.1 fun q hq ↦ ?_, h.canales, h.watches⟩
      exact hl.2.fold_ne q hq (ne_of_mem_of_not_mem hq hl.1)
  | remClient p => exact ⟨h.clientes.rem, h.canales, h.watches⟩
  | changeClient p newname => exact ⟨h.clientes.change hl.2.fold_ne, h.canales, h.watches⟩
  | seekClient name tMask => exact ⟨(h.clientes.seek name _).1, h.canales, h.watches⟩
  | status p status => exact ⟨h.clientes, h.canales, h.watches⟩
  | addChannel p name =>
      refine ⟨h.clientes, h.canales.add hl.1 fun q hq ↦ ?_, h.watches⟩
      exact hl.2.fold_ne q hq (ne_of_mem_of_not_mem hq hl.1)
  | remChannel p => exact ⟨h.clientes, h.canales.rem, h.watches⟩
  | seekChannel name => exact ⟨h.clientes, (h.canales.seek name _).1, h.watches⟩
  | addWatch p nick =>
      refine ⟨h.clientes, h.canales, h.watches.add hl.1 fun q hq ↦ ?_⟩
      exact hl.2.fold_ne q hq (ne_of_mem_of_not_mem hq hl.1)
  | remWatch p => exact ⟨h.clientes, h.canales, h.watches.rem⟩
  | seekWatch nick => exact ⟨h.clientes, h.canales, (h.watches.seek nick _).1⟩

/-- A search of tables that are in order finds what it should. -/
theorem responde_paso (l : Llamada ρ κ ω) (s : Estado ρ κ ω) (h : Coherentes s) : Responde l s := by
  cases l with
  | seekClient name tMask => exact (h.clientes.seek name _).2
  | seekChannel name =>
      have hseek := (h.canales.seek name fun _ ↦ true).2
      simp only [true_and] at hseek
      exact hseek
  | seekWatch nick =>
      have hseek := (h.watches.seek nick fun _ ↦ true).2
      simp only [true_and] at hseek
      exact hseek
  | _ => trivial

/-- In every run that keeps the names unique the searches find what they should, and after it every
entry is in one chain once; names that are equal up to case have the same hash. -/
theorem tablas_correctas (t : Tablas ρ κ ω) (llamadas : List (Llamada ρ κ ω))
    (h : Run.EveryStep paso Permitida (inicial t) llamadas) :
    Run.EveryStep paso Responde (inicial t) llamadas ∧
      TodoUnaVez (Run.final paso (inicial t) llamadas) ∧
      ∀ a b, strCasediff a b = 0 → strhash a = strhash b := by
  have hinicial := coherentes_inicial t
  have hfinal := Run.invariant_final coherentes_paso hinicial h
  refine ⟨?_, ⟨hfinal.clientes.unaVez, hfinal.canales.unaVez, hfinal.watches.unaVez⟩, ?_⟩
  · exact Run.everyStep_of_invariant coherentes_paso (fun l s hs _ ↦ responde_paso l s hs)
      hinicial h
  · exact fun a b hab ↦ strhash_eq (strCasediff_eq_zero.mp hab)

end

/-- A client connects, changes its nick to one in another case, and leaves. -/
def sesion : List (Llamada (Fin 2) (Fin 2) (Fin 2)) :=
  [.addClient 0 "Ana".toList, .addClient 1 "luis".toList, .seekClient "ANA".toList (-1#32),
    .changeClient 0 "aNa".toList, .seekClient "LUIS".toList (-1#32), .remClient 0]

/-- Memory before `hash_init`. -/
def memoria : Tablas (Fin 2) (Fin 2) (Fin 2) :=
  ⟨⟨fun _ ↦ none, fun _ ↦ none, fun _ ↦ []⟩, ⟨fun _ ↦ none, fun _ ↦ none, fun _ ↦ []⟩,
    ⟨fun _ ↦ none, fun _ ↦ none, fun _ ↦ []⟩, fun _ ↦ 9⟩

/-- The searches of the session find the two clients. -/
theorem tablas_correctas_sesion : Run.EveryStep paso Responde (inicial memoria) sesion :=
  (tablas_correctas memoria sesion
    ⟨by decide +kernel, by decide +kernel, by decide +kernel, by decide +kernel, by decide +kernel,
      by decide +kernel, trivial⟩).1

end Ircd.Hash
