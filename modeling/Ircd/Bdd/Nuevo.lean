import Ircd.Bdd.Bots
import Ircd.Bdd.Pack
import Ircd.Parse

/-!
# New records from the network

`nuevoRegistro` is the part of `m_db` that takes a message with a serial other than 0: the record is
written as a line of the file of its table and applied to the memory, or starts a compaction.
`reload_agrees` compares the table in memory with the one that `initdb2` loads from the file: they
agree after every run of records that can be read back (`Mensaje.Fiel`). A line of more than 501
characters, which a message can carry, is not one of them (`reload_loses_long_line`).
-/

namespace Ircd.Bdd

open CString Match

/-! ## The message -/

/-- The table of a record: one lower-case letter, or `N` for the table of nicks. -/
def tablaDe : CStr → Option Char
  | [c] => if 'a' ≤ c ∧ c ≤ 'z' then some c else if c = 'N' then some 'n' else none
  | _ => none

/-- A record that `m_db` takes: its table, its key parameter and the line it becomes. -/
structure Nuevo where
  tabla : Char
  destino : CStr
  clave : CStr
  buf : CStr

/-- The line that is printed into `db_buf`, without its line end. The value is there when the
message has more than five arguments. -/
def textoNuevo (db : Nat) (destino tabla clave : CStr) (resto : List CStr) : CStr :=
  match resto with
  | [] => decimal db ++ ' ' :: (destino ++ ' ' :: (tabla ++ ' ' :: clave))
  | valor :: _ => decimal db ++ ' ' :: (destino ++ ' ' :: (tabla ++ ' ' :: (clave ++ ' ' :: valor)))

/-- The tests of `m_db` on the arguments behind the prefix. Records come from hubs only, with a
serial above that of the table. -/
def registroNuevo (esHub : Bool) (parv : List CStr) (s : BaseDatos) : Option Nuevo :=
  match parv with
  | destino :: serie :: tabla :: clave :: resto =>
      let db := toUnsigned (atol serie)
      if db = 0 then none
      else
        match tablaDe tabla with
        | none => none
        | some t =>
            if db ≤ (s.tablas t).serie then none
            else if !esHub then none
            else some ⟨t, destino, clave, textoNuevo db destino tabla clave resto⟩
  | _ => none

/-- `m_db` on a message with a serial other than 0. -/
def nuevoRegistro (me : List Char) (esHub : Bool) (parv : List CStr) (s : BaseDatos) : BaseDatos :=
  match registroNuevo esHub parv s with
  | none => s
  | some n =>
      if n.clave ≠ ['*'] then s.en n.tabla (dbAlta me (n.buf ++ ['\n']) true)
      else s.en n.tabla (dbPack (n.buf ++ ['\n']))

/-- A message: whether a hub sent it and the text behind the command. -/
structure Mensaje where
  esHub : Bool
  texto : CStr
  plain : Plain texto

/-- The arguments of a message. -/
def Mensaje.parv (m : Mensaje) : List CStr :=
  params MAXPARA m.texto

/-- The database after a message. -/
def recibe (me : List Char) (m : Mensaje) (s : BaseDatos) : BaseDatos :=
  nuevoRegistro me m.esHub m.parv s

/-- The message is no record of compaction. -/
def Mensaje.EsAlta (m : Mensaje) : Prop :=
  m.parv[3]? ≠ some ['*']

/-- The line can be read back: it is not too long, it has a key unless the loader ignores its serial
as well, and it gives no value to the key of the records of compaction in memory. -/
def Nuevo.Fiel (me : List Char) (n : Nuevo) : Prop :=
  n.buf.length ≤ maxLinea ∧
    match parteRegistro n.buf with
    | none => Residente n.tabla ∧ ircMatch n.destino me = true
    | some p => ¬(p.Aplica me n.tabla ∧ Clave.de p.clave = Clave.de ['*'] ∧ p.valor ≠ none)

/-- If the message is taken, its line can be read back. -/
def Mensaje.Fiel (me : List Char) (m : Mensaje) (s : BaseDatos) : Prop :=
  ∀ n, registroNuevo m.esHub m.parv s = some n → n.Fiel me

/-! ## The line of a message -/

theorem tablaDe_eq {tabla : CStr} {t : Char} (h : tablaDe tabla = some t) :
    ∃ c, tabla = [c] ∧ (c = t ∨ c = 'N' ∧ t = 'n') := by
  unfold tablaDe at h
  split at h
  · next c =>
      refine ⟨c, rfl, ?_⟩
      split_ifs at h with hletra hn
      · exact .inl (Option.some.inj h)
      · exact .inr ⟨hn, (Option.some.inj h).symm⟩
  · cases h

/-- A message that is taken becomes a line, with a serial above that of the table. -/
theorem linea_of_registroNuevo {m : Mensaje} {s : BaseDatos} {n : Nuevo}
    (h : registroNuevo m.esHub m.parv s = some n) :
    ∃ l : Linea n.tabla, n.buf = l.texto ∧ n.destino = l.destino ∧
      (s.tablas n.tabla).serie < l.serie ∧ (l.cola = ['*'] → n.clave = ['*']) ∧
      m.parv[3]? = some n.clave := by
  unfold registroNuevo at h
  split at h
  · next destino serie tabla clave resto hparv =>
      have hplain : ∀ p ∈ m.parv, Plain p := fun p hp ↦ plain_params m.plain hp
      have hdestino : Word destino := word_params m.plain (l := []) hparv
      have htabla : Word tabla := word_params m.plain (l := [destino, serie]) hparv
      dsimp only at h
      split at h
      · cases h
      · split at h
        · cases h
        · next t ht =>
            split at h
            · cases h
            · next hserie =>
                split at h
                · cases h
                · obtain rfl := Option.some.inj h
                  obtain ⟨c, rfl, hc⟩ := tablaDe_eq ht
                  have hclave : Plain clave := hplain clave (by simp [hparv])
                  have hmayor : (s.tablas t).serie < toUnsigned (atol serie) := by omega
                  have hparv3 : m.parv[3]? = some clave := by rw [hparv]; rfl
                  cases resto with
                  | nil =>
                      exact ⟨⟨_, destino, c, clave, toUnsigned_lt _, hdestino, hc, htabla, hclave⟩,
                        rfl, rfl, hmayor, id, hparv3⟩
                  | cons valor resto =>
                      have hvalor : Plain valor := hplain valor (by simp [hparv])
                      have hblanco : Plain [' '] := by decide
                      have hcola : Plain (clave ++ ' ' :: valor) :=
                        plain_append.mpr ⟨hclave, plain_append.mpr ⟨hblanco, hvalor⟩⟩
                      refine ⟨⟨_, destino, c, clave ++ ' ' :: valor, toUnsigned_lt _, hdestino, hc,
                        htabla, hcola⟩, rfl, rfl, hmayor, fun hstar ↦ ?_, hparv3⟩
                      have hmem : ' ' ∈ ['*'] := hstar ▸ by simp
                      simp at hmem
  · cases h

/-! ## The table and its file -/

variable {t : Char}

/-- The file of the table can be read back to what the table has in memory. -/
def Tabla.Reflejada (me : List Char) (s : Tabla t) : Prop :=
  ∃ ls : List (Linea t), (∀ l ∈ ls, l.texto.length ≤ maxLinea) ∧ s.fichero = textoFichero ls ∧
    s.hash = hashDe Hash.cero ls ∧ s.hashes = almacenaHash s.hash ∧
    s.serie = serieDe me 0 ls ∧ s.mapa = mapaDe me ls

/-- A table that never held a record. -/
theorem reflejada_vacia (me : List Char) (t : Char) : (Tabla.vacia t).Reflejada me := by
  refine ⟨[], by simp, rfl, rfl, rfl, rfl, ?_⟩
  funext c
  have hvacia : (Tabla.vacia t).mapa c = none := Chains.lookup_empty c
  have hmapa : mapaDe me ([] : List (Linea t)) = Log.empty := Function.update_eq_self _ Log.empty
  rw [hvacia, hmapa]
  rfl

/-- The disk after a record from the network. -/
theorem disco_dbAlta (me : List Char) (registro : CStr) (s : Estado t) :
    (dbAlta me registro true s).fichero = s.fichero ++ registro ∧
      (dbAlta me registro true s).hashes = almacenaHash (dbAlta me registro true s).hash := by
  rw [hash_dbAlta]
  unfold dbAlta
  dsimp only
  cases parteRegistro registro with
  | none => exact ⟨rfl, rfl⟩
  | some p => exact (aplicaRegistro_frame ..).2.2

/-- The map that a file with one more line replays to, if the line can be read back. -/
theorem mapaDe_append_singleton (me : List Char) (ls : List (Linea t)) {l : Linea t}
    (hcola : l.cola ≠ ['*']) (hclave : ∀ p, l.registro = some p →
      ¬(p.Aplica me t ∧ Clave.de p.clave = Clave.de ['*'] ∧ p.valor ≠ none)) :
    mapaDe me (ls ++ [l]) =
      match l.registro with
      | none => mapaDe me ls
      | some p => if p.Aplica me t then Log.apply (mapaDe me ls) p.entrada else mapaDe me ls := by
  rw [mapaDe, entradas_append, Log.replay_append, entradas_singleton]
  cases hr : l.registro with
  | none =>
      simp only [Linea.entrada, hr, Option.map_none, Option.toList_none, ite_self, Log.replay_nil]
      rfl
  | some p =>
      have hdestino := (Linea.registro_eq hr).2
      by_cases haplica : p.Aplica me t
      · have hsurte : l.Surte me := by
          rw [Registro.Aplica, hdestino] at haplica
          exact ⟨haplica.1, haplica.2, hcola⟩
        simp only [Linea.entrada, hr, hsurte, haplica, if_true, mapaDe, Option.map_some,
          Option.toList_some, Log.replay_cons, Log.replay_nil, Log.apply, Registro.entrada]
        by_cases hstar : Clave.de p.clave = Clave.de ['*']
        · have hvalor : p.valor = none := by
            by_contra hvalor
            exact hclave p hr ⟨haplica, hstar, hvalor⟩
          rw [hstar, hvalor]
        · exact Function.update_comm hstar ..
      · have hsurte : ¬l.Surte me := by
          rintro ⟨ht, hme, -⟩
          rw [Registro.Aplica, hdestino] at haplica
          exact haplica ⟨ht, hme⟩
        simp only [hsurte, haplica, if_false, Log.replay_nil]
        rfl

/-- A record whose line can be read back keeps the file and the memory of its table in step. -/
theorem reflejada_dbAlta (me : List Char) {s : Estado t} (hs : s.toTabla.Reflejada me)
    {n : Nuevo} (hn : n.tabla = t) {l : Linea t} (hbuf : n.buf = l.texto)
    (hdestino : n.destino = l.destino) (hcola : l.cola ≠ ['*']) (hfiel : n.Fiel me) :
    (dbAlta me (n.buf ++ ['\n']) true s).toTabla.Reflejada me := by
  subst hn
  obtain ⟨ls, hcortas, hfichero, hhash, hhashes, hserie, hmapa⟩ := hs
  obtain ⟨hcorta, hregistro⟩ := hfiel
  rw [hbuf] at hcorta hregistro ⊢
  rw [hdestino, parteRegistro_texto_nil] at hregistro
  obtain ⟨hdisco, hdisco'⟩ := disco_dbAlta me (l.texto ++ ['\n']) s
  have hparte : parteRegistro (l.texto ++ ['\n']) = l.registro := parteRegistro_texto l (by simp)
  refine ⟨ls ++ [l], ?_, ?_, ?_, hdisco', ?_, ?_⟩
  · intro x hx
    rcases List.mem_append.mp hx with hx | hx
    · exact hcortas x hx
    · rwa [List.mem_singleton.mp hx]
  · rw [hdisco, hfichero, textoFichero_append, textoFichero_cons]
    rfl
  · rw [hash_dbAlta, Linea.hash_texto hcorta, hhash,
      hashDe_append_singleton]
  · rw [serie_dbAlta, hparte, serieDe_append_singleton, ← hserie]
    cases hr : l.registro with
    | none =>
        rw [hr] at hregistro
        simp [Linea.serieTras, hr, Linea.Surte, hregistro, hcola]
    | some p =>
        simp only [(Linea.registro_eq hr).1, l.atol_serie, Linea.serieTras, hr]
        simp
  · have hclave (p : Registro) (hr : l.registro = some p) : ¬(p.Aplica me n.tabla ∧
        Clave.de p.clave = Clave.de ['*'] ∧ p.valor ≠ none) := by
      rw [hr] at hregistro
      exact hregistro
    rw [mapa_dbAlta, hparte, hmapa]
    exact (mapaDe_append_singleton me ls hcola hclave).symm

/-- A message keeps the files and the memory of all tables in step. -/
theorem reflejada_recibe (me : List Char) {m : Mensaje} (halta : m.EsAlta) {s : BaseDatos}
    (hm : m.Fiel me s) (hs : ∀ t, (s.tablas t).Reflejada me) (t : Char) :
    ((recibe me m s).tablas t).Reflejada me := by
  unfold recibe nuevoRegistro
  cases hn : registroNuevo m.esHub m.parv s with
  | none => exact hs t
  | some n =>
      obtain ⟨l, hbuf, hdestino, -, hcola, hclave⟩ := linea_of_registroNuevo hn
      have hstar : n.clave ≠ ['*'] := fun h ↦ halta (h ▸ hclave)
      dsimp only
      rw [if_pos hstar]
      by_cases ht : t = n.tabla
      · subst ht
        simp only [BaseDatos.en, Function.update_self]
        exact reflejada_dbAlta me (hs _) rfl hbuf hdestino (fun h ↦ hstar (hcola h)) (hm n hn)
      · simp only [BaseDatos.en, Function.update_of_ne ht]
        exact hs t

/-- A table that its file reflects is loaded as it is. -/
theorem initdb2_reflejada (me : List Char) {s : Estado t} (hs : s.toTabla.Reflejada me) :
    (initdb2 me s).serie = s.serie ∧ (initdb2 me s).hash = s.hash ∧
      (initdb2 me s).mapa = s.mapa ∧ (initdb2 me s).fichero = s.fichero := by
  obtain ⟨ls, hcortas, hfichero, hhash, hhashes, hserie, hmapa⟩ := hs
  obtain ⟨hmapa', hserie', hhash', hfichero'⟩ :=
    initdb2_textoFichero me hcortas hfichero (hhashes.trans (congrArg almacenaHash hhash))
  exact ⟨hserie'.trans hserie.symm, hhash'.trans hhash.symm, hmapa'.trans hmapa.symm, hfichero'⟩

/-- After every run of records that can be read back, loading the file of a table gives the serial,
the hash and the map that the table has in memory, and the file is kept. -/
theorem reload_agrees (me : List Char) (l : List Mensaje)
    (hl : Run.EveryStep (recibe me) (fun m s ↦ m.EsAlta ∧ m.Fiel me s) .inicial l) (t : Char) :
    let s := (Run.final (recibe me) .inicial l).estado t
    (initdb2 me s).serie = s.serie ∧ (initdb2 me s).hash = s.hash ∧
      (initdb2 me s).mapa = s.mapa ∧ (initdb2 me s).fichero = s.fichero := by
  have hreflejada : ∀ t, ((Run.final (recibe me) .inicial l).tablas t).Reflejada me := by
    refine Run.invariant_final (P := fun s ↦ ∀ t, (s.tablas t).Reflejada me) ?_
      (reflejada_vacia me) hl
    rintro m s hs ⟨halta, hm⟩
    exact reflejada_recibe me halta hm hs
  exact initdb2_reflejada me (hreflejada t)

/-- A message is read back if its record is. -/
theorem Mensaje.fiel_of_eq {me : List Char} {m : Mensaje} {s : BaseDatos} {n : Nuevo}
    (h : registroNuevo m.esHub m.parv s = some n) (hn : n.Fiel me) : m.Fiel me s := by
  intro k hk
  obtain rfl := Option.some.inj (h.symm.trans hk)
  exact hn

theorem plain_nickserv : Plain " * 1 b nickserv :NickServ".toList := by decide

theorem plain_chanserv : Plain " * 2 b chanserv :ChanServ".toList := by decide

theorem plain_nick : Plain " * 5 b NickServ :NiCK".toList := by decide

/-- The names of two bots, and another name for the first one. -/
def mensajesBot : List Mensaje :=
  [⟨true, _, plain_nickserv⟩, ⟨true, _, plain_chanserv⟩, ⟨true, _, plain_nick⟩]

/-- The names of bots after a restart, for a server of that name. -/
theorem reload_agrees_bot :
    let me := memory "irc.example".toList []
    let s := (Run.final (recibe me) .inicial mensajesBot).estado 'b'
    (initdb2 me s).mapa = s.mapa := by
  intro me s
  have hfiel : Run.EveryStep (recibe me) (fun m s ↦ m.EsAlta ∧ m.Fiel me s) .inicial
      mensajesBot := by
    refine ⟨⟨show _ ≠ _ by decide, Mensaje.fiel_of_eq rfl ⟨by decide, ?_⟩⟩,
      ⟨show _ ≠ _ by decide, Mensaje.fiel_of_eq rfl ⟨by decide, ?_⟩⟩,
      ⟨show _ ≠ _ by decide, Mensaje.fiel_of_eq rfl ⟨by decide, ?_⟩⟩, trivial⟩
    · show ¬(_ ∧ _ ∧ _)
      decide
    · show ¬(_ ∧ _ ∧ _)
      decide
    · show ¬(_ ∧ _ ∧ _)
      decide
  exact (reload_agrees me mensajesBot hfiel 'b').2.2.1

/-! ## Lines that are too long -/

theorem plain_replicate (n : Nat) : Plain (List.replicate n 'v') := by
  have hno {c : Char} (hc : c ≠ 'v') : c ∉ List.replicate n 'v' :=
    fun h ↦ hc (List.eq_of_mem_replicate h)
  exact ⟨hno (by decide), hno (by decide), hno (by decide)⟩

/-- A message with a long value. -/
def mensajeLargo (n : Nat) : Mensaje where
  esHub := true
  texto := " * 1 b k :".toList ++ List.replicate n 'v'
  plain := plain_append.mpr ⟨by decide, plain_replicate n⟩

theorem word_botsDb : Word [BDD_BOTSDB] := by decide

/-- What is behind the letter of the table. -/
theorem plain_colaLarga (n : Nat) : Plain (['k', ' '] ++ List.replicate n 'v') :=
  plain_append.mpr ⟨by decide, plain_replicate n⟩

theorem serie_uno : 1 < 2 ^ 32 := by decide

/-- The line of the message. -/
def lineaLarga (n : Nat) : Linea 'b' :=
  .paraTodos 'b' word_botsDb 1 serie_uno (['k', ' '] ++ List.replicate n 'v') (plain_colaLarga n)

theorem length_lineaLarga (n : Nat) : (lineaLarga n).texto.length = n + 8 := by
  have hdecimal : (decimal 1).length = 1 := rfl
  simp [Linea.texto, lineaLarga, Linea.paraTodos, hdecimal]
  omega

theorem recibe_mensajeLargo (me : List Char) (n : Nat) :
    recibe me (mensajeLargo n) .inicial =
      BaseDatos.inicial.en 'b' (dbAlta me ((lineaLarga n).texto ++ ['\n']) true) :=
  rfl

/-- The table in memory and the file after the message. -/
theorem estado_mensajeLargo (me : List Char) (n : Nat) :
    ((recibe me (mensajeLargo n) .inicial).estado 'b').serie = 1 ∧
      ((recibe me (mensajeLargo n) .inicial).estado 'b').fichero
        = textoFichero ([] ++ lineaLarga n :: []) := by
  have hregistro : (lineaLarga n).registro ≠ none := nofun
  simp only [recibe_mensajeLargo, BaseDatos.en, BaseDatos.estado, Function.update_self]
  constructor
  · rw [serie_dbAlta, parteRegistro_texto _ (by simp)]
    cases hr : (lineaLarga n).registro with
    | none => exact absurd hr hregistro
    | some p =>
        simp only [(Linea.registro_eq hr).1, Linea.atol_serie]
        rfl
  · rw [(disco_dbAlta ..).1, List.nil_append, textoFichero_cons]
    rfl

/-- Some records are lost when the table is loaded, though their messages have 511 characters with
their prefix, command and line end. -/
theorem reload_loses_long_line :
    ¬∀ (me : List Char) (l : List Mensaje),
      (∀ m ∈ l, m.EsAlta ∧ ("AB DB".toList ++ m.texto ++ ['\r', '\n']).length ≤ 511) → ∀ t,
        let s := (Run.final (recibe me) .inicial l).estado t
        (initdb2 me s).serie = s.serie ∧ (initdb2 me s).hash = s.hash ∧
          (initdb2 me s).mapa = s.mapa ∧ (initdb2 me s).fichero = s.fichero := by
  intro h
  obtain ⟨n, hn⟩ : ∃ n, n = 494 := ⟨_, rfl⟩
  have hlen : ("AB DB".toList ++ (mensajeLargo n).texto ++ ['\r', '\n']).length ≤ 511 := by
    simp only [mensajeLargo, List.length_append, List.length_replicate]
    have hfijo : "AB DB".toList.length + " * 1 b k :".toList.length + 2 = 17 := by decide
    simp only [List.length_cons, List.length_nil]
    omega
  have halta : (mensajeLargo n).EsAlta := show some ['k'] ≠ some ['*'] by decide
  obtain ⟨hserie, hfichero⟩ := estado_mensajeLargo [] n
  have hcarga := (h [] [mensajeLargo n] (fun m hm ↦ List.mem_singleton.mp hm ▸ ⟨halta, hlen⟩)
    'b').1
  rw [Run.final_cons, Run.final_nil, hserie] at hcarga
  have hlarga : maxLinea < (lineaLarga n).texto.length := by
    rw [length_lineaLarga, hn]
    decide
  rcases serie_initdb2_larga [] (by simp) hlarga hfichero with hcero | hcero
  · exact absurd (hcero.symm.trans hcarga) (by decide)
  · exact absurd (hcero.symm.trans hcarga) (by decide)

end Ircd.Bdd
