import Ircd.Bdd.Alta
import Ircd.Lib.Run

/-!
# The cached names of the bots mirror their table

The whole database is a family of tables together with the caches, and every order works on one
table of it. The caches mirror the table of bots (`Espejo`) as long as no order is one of two: the
removal of a record of the operators under the key of a cached bot, and the wipe of a table of bots
that holds one. `cache_mirrors_iff` says that these two are the only exceptions.
-/

namespace Ircd.Bdd

open CString Match

/-- All tables and the caches. -/
structure BaseDatos where
  tablas : (t : Char) → Tabla t
  bots : Bots

/-- The database at the start. -/
def BaseDatos.inicial : BaseDatos where
  tablas := Tabla.vacia
  bots _ := none

/-- What an operation on one table sees of the database. -/
def BaseDatos.estado (s : BaseDatos) (t : Char) : Estado t :=
  { s.tablas t with bots := s.bots }

/-- An operation on one table as one on the database. -/
def BaseDatos.en (t : Char) (f : Estado t → Estado t) (s : BaseDatos) : BaseDatos where
  tablas := Function.update s.tablas t (f (s.estado t)).toTabla
  bots := (f (s.estado t)).bots

/-- The orders that change records. -/
inductive Orden where
  | alta (t : Char) (registro : CStr) (cptr : Bool)
  | borrar (t : Char)

/-- The table of an order. -/
def Orden.tabla : Orden → Char
  | .alta t _ _ => t
  | .borrar t => t

/-- The execution of an order. -/
def ejecuta (me : List Char) : Orden → BaseDatos → BaseDatos
  | .alta t registro cptr, s => s.en t (dbAlta me registro cptr)
  | .borrar t, s => s.en t borrarDb

/-- The value of a bot in its table. -/
def BaseDatos.valorBot (s : BaseDatos) (b : Bot) : Option CStr :=
  (s.tablas BDD_BOTSDB).mapa b.clave

/-- Each cache is set exactly when the table has the record of its bot, and to its value. -/
def Espejo (s : BaseDatos) : Prop :=
  ∀ b, s.bots b = s.valorBot b

/-- The order removes the record of a key from the table of operators. -/
def Orden.BajaOper (me : List Char) (c : Clave) (s : BaseDatos) : Orden → Prop
  | .alta t registro _ =>
      t = BDD_OPERDB ∧ ((s.tablas BDD_OPERDB).mapa c).isSome ∧
        ∃ p, parteRegistro registro = some p ∧ p.Aplica me BDD_OPERDB ∧ p.entrada = (c, none)
  | .borrar _ => False

/-- The order neither removes an operator with the key of a bot that has a record nor wipes a table
of bots with a record. -/
def Orden.Segura (me : List Char) (o : Orden) (s : BaseDatos) : Prop :=
  ∀ b, s.valorBot b ≠ none → ¬o.BajaOper me b.clave s ∧ o ≠ .borrar BDD_BOTSDB

/-- What is asked of a step: the caches mirror the table of bots after it, and only an order on that
table changes them. -/
def Orden.Correcta (me : List Char) (o : Orden) (s : BaseDatos) : Prop :=
  Espejo (ejecuta me o s) ∧ (o.tabla ≠ BDD_BOTSDB → (ejecuta me o s).bots = s.bots)

/-! ## What one order does -/

theorem BaseDatos.valorBot_en_self (s : BaseDatos) (f : Estado BDD_BOTSDB → Estado BDD_BOTSDB)
    (b : Bot) :
    (s.en BDD_BOTSDB f).valorBot b = (f (s.estado BDD_BOTSDB)).mapa b.clave := by
  simp [valorBot, en]

theorem BaseDatos.valorBot_en_of_ne {s : BaseDatos} {t : Char} (f : Estado t → Estado t)
    (ht : t ≠ BDD_BOTSDB) (b : Bot) : (s.en t f).valorBot b = s.valorBot b := by
  simp [valorBot, en, Function.update_of_ne ht.symm]

/-- The cache of a bot after a complete record. -/
theorem bots_aplicaRegistro {t : Char} (me : List Char) (p : Registro) (s : Estado t) (b : Bot) :
    (aplicaRegistro me p s).bots b =
      if p.Aplica me t ∧ Clave.de p.clave = b.clave then
        match p.valor with
        | none =>
            if (t = BDD_OPERDB ∨ t = BDD_BOTSDB) ∧ (s.mapa b.clave).isSome then none else s.bots b
        | some valor => if t = BDD_BOTSDB then some valor else s.bots b
      else s.bots b := by
  unfold aplicaRegistro
  by_cases hp : Residente t ∧ ircMatch p.destino me = true
  · have haplica : p.Aplica me t := hp
    rw [if_pos hp]
    cases p.valor with
    | none =>
        simp only [bots_dbEliminarRegistro, haplica, true_and]
        by_cases hb : Clave.de p.clave = b.clave
        · simp [hb, Tabla.mapa]
          congr
        · simp [hb]
    | some valor =>
        simp only [bots_dbInsertarRegistro, haplica, true_and]
        by_cases hb : Clave.de p.clave = b.clave <;> simp [hb]
  · have haplica : ¬p.Aplica me t := hp
    rw [if_neg hp]
    simp [haplica]

/-- A record of the table of bots keeps cache and table in step. -/
theorem bots_dbAlta_bots (me : List Char) (registro : CStr) (cptr : Bool) (s : Estado BDD_BOTSDB)
    (b : Bot) (h : s.bots b = s.mapa b.clave) :
    (dbAlta me registro cptr s).bots b = (dbAlta me registro cptr s).mapa b.clave := by
  rw [mapa_dbAlta]
  unfold dbAlta
  dsimp only
  cases parteRegistro registro with
  | none => rw [bots_anotaRegistro, h]
  | some p =>
      simp only [bots_aplicaRegistro, bots_anotaRegistro, mapa_anotaRegistro]
      by_cases haplica : p.Aplica me BDD_BOTSDB
      · by_cases hb : Clave.de p.clave = b.clave
        · cases hv : p.valor with
          | none =>
              cases hm : s.mapa b.clave <;>
                simp [haplica, hb, hv, hm, h, Log.apply, Registro.entrada]
          | some v => simp [haplica, hb, hv, Log.apply, Registro.entrada]
        · have hne : b.clave ≠ Clave.de p.clave := Ne.symm hb
          simp [haplica, hb, h, Log.apply, Registro.entrada, hne]
      · simp [haplica, h]

/-- A complete record of the operators resets the cache of the bot whose key it removes. -/
theorem bots_aplicaRegistro_oper (me : List Char) (p : Registro) (s : Estado BDD_OPERDB) (b : Bot) :
    (aplicaRegistro me p s).bots b =
      if (s.mapa b.clave).isSome ∧ p.Aplica me BDD_OPERDB ∧ p.entrada = (b.clave, none) then none
      else s.bots b := by
  have hne : BDD_OPERDB ≠ BDD_BOTSDB := by decide
  rw [bots_aplicaRegistro]
  by_cases hclave : p.Aplica me BDD_OPERDB ∧ Clave.de p.clave = b.clave
  · cases hv : p.valor <;> simp [hclave, hv, hne, Registro.entrada]
  · rw [if_neg hclave, if_neg]
    rintro ⟨-, haplica, hentrada⟩
    exact hclave ⟨haplica, congrArg Prod.fst hentrada⟩

/-- A record of any table but two leaves the caches alone. -/
theorem bots_dbAlta_of_ne {t : Char} (hbots : t ≠ BDD_BOTSDB) (hoper : t ≠ BDD_OPERDB)
    (me : List Char) (registro : CStr) (cptr : Bool) (s : Estado t) :
    (dbAlta me registro cptr s).bots = s.bots := by
  funext b
  unfold dbAlta
  dsimp only
  cases parteRegistro registro with
  | none => rw [bots_anotaRegistro]
  | some p =>
      rw [bots_aplicaRegistro, bots_anotaRegistro]
      cases p.valor <;> simp [hoper, hbots]

/-- A line of the table of operators resets the cache of a bot when it removes its key. -/
theorem bots_dbAlta_oper (me : List Char) (registro : CStr) (cptr : Bool) (s : BaseDatos)
    (b : Bot) :
    ((Orden.alta BDD_OPERDB registro cptr).BajaOper me b.clave s →
        (dbAlta me registro cptr (s.estado BDD_OPERDB)).bots b = none) ∧
      (¬(Orden.alta BDD_OPERDB registro cptr).BajaOper me b.clave s →
        (dbAlta me registro cptr (s.estado BDD_OPERDB)).bots b = s.bots b) := by
  unfold dbAlta
  simp only [Orden.BajaOper, true_and]
  cases parteRegistro registro with
  | none => simp [BaseDatos.estado]
  | some p =>
      simp only [bots_aplicaRegistro_oper, bots_anotaRegistro, mapa_anotaRegistro,
        Option.some.injEq, exists_eq_left']
      exact ⟨fun h ↦ if_pos h, fun h ↦ if_neg h⟩

/-- After an order that is not on the table of bots the table still has what it had. -/
theorem valorBot_ejecuta {o : Orden} (ho : o.tabla ≠ BDD_BOTSDB) (me : List Char) (s : BaseDatos)
    (b : Bot) : (ejecuta me o s).valorBot b = s.valorBot b := by
  cases o with
  | alta t registro cptr => exact BaseDatos.valorBot_en_of_ne _ ho b
  | borrar t => exact BaseDatos.valorBot_en_of_ne _ ho b

/-- An order on another table that removes no operator leaves the caches alone. -/
theorem bots_ejecuta {o : Orden} (ho : o.tabla ≠ BDD_BOTSDB) (me : List Char) (s : BaseDatos)
    (b : Bot) :
    (o.BajaOper me b.clave s → (ejecuta me o s).bots b = none) ∧
      (¬o.BajaOper me b.clave s → (ejecuta me o s).bots b = s.bots b) := by
  cases o with
  | alta t registro cptr =>
      by_cases hoper : t = BDD_OPERDB
      · subst hoper
        exact bots_dbAlta_oper me registro cptr s b
      · refine ⟨fun h ↦ absurd h.1 hoper, fun _ ↦ ?_⟩
        exact congrFun (bots_dbAlta_of_ne ho hoper me registro cptr _) b
  | borrar t => exact ⟨False.elim, fun _ ↦ rfl⟩

/-- A record of the table of bots is always correct. -/
theorem correcta_alta_bots (me : List Char) (registro : CStr) (cptr : Bool) {s : BaseDatos}
    (hs : Espejo s) : (Orden.alta BDD_BOTSDB registro cptr).Correcta me s := by
  refine ⟨fun b ↦ ?_, fun h ↦ absurd rfl h⟩
  rw [ejecuta, BaseDatos.valorBot_en_self]
  exact bots_dbAlta_bots me registro cptr _ b (hs b)

/-- A wipe of the table of bots is correct when there is nothing to wipe. -/
theorem correcta_borrar_bots_iff (me : List Char) {s : BaseDatos} (hs : Espejo s) :
    (Orden.borrar BDD_BOTSDB).Correcta me s ↔ ∀ b, s.valorBot b = none := by
  have hvacia (b : Bot) : (ejecuta me (.borrar BDD_BOTSDB) s).valorBot b = none := by
    rw [ejecuta, BaseDatos.valorBot_en_self]
    exact Chains.lookup_empty _
  have hcache (b : Bot) : (ejecuta me (.borrar BDD_BOTSDB) s).bots b = s.valorBot b := hs b
  constructor
  · rintro ⟨hespejo, -⟩ b
    rw [← hcache b, hespejo b, hvacia b]
  · intro h
    refine ⟨fun b ↦ ?_, fun h ↦ absurd rfl h⟩
    rw [hvacia b, hcache b, h b]

/-- An order on another table is correct when it removes no operator of a bot with a record. -/
theorem correcta_otra_iff (me : List Char) {o : Orden} (ho : o.tabla ≠ BDD_BOTSDB)
    {s : BaseDatos} (hs : Espejo s) :
    o.Correcta me s ↔ ∀ b, s.valorBot b ≠ none → ¬o.BajaOper me b.clave s := by
  constructor
  · rintro ⟨-, hquedan⟩ b hb hbaja
    apply hb
    rw [← hs b, ← congrFun (hquedan ho) b]
    exact (bots_ejecuta ho me s b).1 hbaja
  · intro hsegura
    have hbots : (ejecuta me o s).bots = s.bots := by
      funext b
      by_cases hbaja : o.BajaOper me b.clave s
      · have hvalor : s.valorBot b = none := by
          by_contra hvalor
          exact hsegura b hvalor hbaja
        rw [(bots_ejecuta ho me s b).1 hbaja, hs b, hvalor]
      · exact (bots_ejecuta ho me s b).2 hbaja
    refine ⟨fun b ↦ ?_, fun _ ↦ hbots⟩
    rw [hbots, valorBot_ejecuta ho, hs b]

/-- One order on a mirrored database is correct if and only if it is safe. -/
theorem Orden.correcta_iff_segura (me : List Char) (o : Orden) (s : BaseDatos) (hs : Espejo s) :
    o.Correcta me s ↔ o.Segura me s := by
  unfold Orden.Segura
  by_cases ho : o.tabla = BDD_BOTSDB
  · cases o with
    | alta t registro cptr =>
        obtain rfl : t = BDD_BOTSDB := ho
        refine iff_of_true (correcta_alta_bots me registro cptr hs) fun b _ ↦ ⟨?_, by simp⟩
        exact fun h ↦ absurd h.1 (by decide)
    | borrar t =>
        obtain rfl : t = BDD_BOTSDB := ho
        rw [correcta_borrar_bots_iff me hs]
        simp [Orden.BajaOper]
  · have hborrar : o ≠ .borrar BDD_BOTSDB := by
      rintro rfl
      exact ho rfl
    rw [correcta_otra_iff me ho hs]
    simp only [ne_eq, hborrar, not_false_eq_true, and_true]

/-- Nothing is cached and nothing is stored at the start. -/
theorem espejo_inicial : Espejo .inicial := by
  intro b
  simp [BaseDatos.inicial, BaseDatos.valorBot, Tabla.mapa, Tabla.vacia]

/-- Along a run from the empty database every order leaves the caches as they should be if and only
if every order is safe. -/
theorem cache_mirrors_iff (me : List Char) (l : List Orden) :
    Run.EveryStep (ejecuta me) (Orden.Correcta me) .inicial l ↔
      Run.EveryStep (ejecuta me) (Orden.Segura me) .inicial l := by
  refine Run.everyStep_iff ?_ (Orden.correcta_iff_segura me) espejo_inicial
  intro o s _ h
  exact h.1

/-- The bot `nickserv` is created, and an operator with its name is added and removed again: the
name of the bot is forgotten although its record is still there. -/
theorem cache_lost_with_operator :
    ¬∀ me l, Run.EveryStep (ejecuta me) (Orden.Correcta me) .inicial l := by
  intro h
  have hrun := h (memory "irc.example".toList [])
    [.alta 'b' "1 * b nickserv NickServ\n".toList true,
      .alta 'o' "1 * o nickserv 10\n".toList true,
      .alta 'o' "2 * o nickserv\n".toList true]
  have hcache := hrun.2.2.1.1 .nickserv
  revert hcache
  decide +kernel

end Ircd.Bdd
