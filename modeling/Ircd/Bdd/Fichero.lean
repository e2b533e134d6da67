import Ircd.Bdd.Linea
import Ircd.Collapse

/-!
# Loading a table from its file

`leerDb` is the bounded line reader, `cargaLinea` the body of the loop of `initdb2`, and `initdb2`
the whole function with the check against the stored hash. `leidas_textoFichero` says that the
reader returns the lines of a file of well-formed lines that are short enough, and
`cargaDb_textoFichero` describes the table that the loop makes of them.
-/

namespace Ircd.Bdd

open CString Match

/-! ## The reader -/

/-- The loop of `leer_db`: the text up to the line end, `none` where it returns -1, and the text
left. Carriage returns are skipped and `cont` counts the other characters. -/
def leerDbDesde : Nat → CStr → Option CStr × CStr
  | _, [] => (none, [])
  | cont, c :: rest =>
      if c = '\r' then leerDbDesde cont rest
      else if c = '\n' then (some [], rest)
      else if cont > 500 then (none, rest)
      else ((leerDbDesde (cont + 1) rest).1.map (c :: ·), (leerDbDesde (cont + 1) rest).2)

/-- `leer_db`. -/
def leerDb (s : CStr) : Option CStr × CStr :=
  leerDbDesde 0 s

/-- The calls of `leer_db` up to the first that fails. Each takes a character, which bounds the
fuel. -/
def leerTodo : Nat → CStr → List CStr
  | 0, _ => []
  | fuel + 1, s =>
      match leerDb s with
      | (some buf, rest) => buf :: leerTodo fuel rest
      | (none, _) => []

/-- The lines that a loop over the file sees. -/
def leidas (fichero : CStr) : List CStr :=
  leerTodo (fichero.length + 1) fichero

/-- The longest line that `leer_db` returns. -/
def maxLinea : Nat := 501

/-- A plain character is copied. -/
theorem leerDbDesde_cons {c : Char} (hc : Plain [c]) {cont : Nat} (hcont : cont ≤ 500)
    (rest : CStr) : leerDbDesde cont (c :: rest) =
      ((leerDbDesde (cont + 1) rest).1.map (c :: ·), (leerDbDesde (cont + 1) rest).2) := by
  simp only [Plain, List.mem_singleton] at hc
  rw [leerDbDesde, if_neg (Ne.symm hc.2.1), if_neg (Ne.symm hc.1), if_neg (by omega)]

theorem leerDbDesde_append {s : CStr} (hs : Plain s) {cont : Nat}
    (hlen : cont + s.length ≤ maxLinea) (rest : CStr) :
    leerDbDesde cont (s ++ '\n' :: rest) = (some s, rest) := by
  induction s generalizing cont with
  | nil => simp [leerDbDesde]
  | cons c s ih =>
      obtain ⟨hc, hs⟩ := plain_append.mp (show Plain ([c] ++ s) from hs)
      simp only [List.length_cons, maxLinea] at hlen
      rw [List.cons_append, leerDbDesde_cons hc (by omega),
        ih hs (by simp only [maxLinea]; omega)]
      rfl

/-- A line that is not too long is read as a whole. -/
theorem leerDb_append {s : CStr} (hs : Plain s) (hlen : s.length ≤ maxLinea) (rest : CStr) :
    leerDb (s ++ '\n' :: rest) = (some s, rest) :=
  leerDbDesde_append hs (by omega) rest

theorem leerDbDesde_larga {s : CStr} (hs : Plain s) {cont : Nat} (hcont : cont ≤ maxLinea)
    (hlen : maxLinea < cont + s.length) (rest : CStr) : (leerDbDesde cont (s ++ rest)).1 = none := by
  induction s generalizing cont with
  | nil =>
      simp only [List.length_nil] at hlen
      omega
  | cons c s ih =>
      obtain ⟨hc, hs⟩ := plain_append.mp (show Plain ([c] ++ s) from hs)
      simp only [List.length_cons] at hlen
      by_cases hlimite : cont = maxLinea
      · simp only [Plain, List.mem_singleton] at hc
        rw [List.cons_append, leerDbDesde, if_neg (Ne.symm hc.2.1), if_neg (Ne.symm hc.1),
          if_pos (by simp only [maxLinea] at hlimite; omega)]
      · have hmenor : cont + 1 ≤ maxLinea := by omega
        rw [List.cons_append, leerDbDesde_cons hc (by simp only [maxLinea] at hmenor; omega),
          ih hs hmenor (by omega)]
        rfl

/-- A line that is too long ends the reading. -/
theorem leerDb_larga {s : CStr} (hs : Plain s) (hlen : maxLinea < s.length) (rest : CStr) :
    (leerDb (s ++ rest)).1 = none :=
  leerDbDesde_larga hs (by omega) (by omega) rest

variable {t : Char}

theorem leerTodo_textoFichero {ls : List (Linea t)} (hls : ∀ l ∈ ls, l.texto.length ≤ maxLinea)
    (rest : CStr) {fuel : Nat} (hfuel : ls.length ≤ fuel) :
    leerTodo fuel (textoFichero ls ++ rest)
      = ls.map Linea.texto ++ leerTodo (fuel - ls.length) rest := by
  induction ls generalizing fuel with
  | nil => simp
  | cons l ls ih =>
      rw [List.forall_mem_cons] at hls
      obtain ⟨fuel, rfl⟩ : ∃ n, fuel = n + 1 := ⟨fuel - 1, by simp at hfuel; omega⟩
      simp only [List.length_cons, Nat.add_le_add_iff_right] at hfuel
      rw [textoFichero_cons, List.append_assoc, List.cons_append, leerTodo,
        leerDb_append l.plain hls.1]
      simp [ih hls.2 hfuel]

/-- Every line takes at least one character of the file. -/
theorem length_le_textoFichero (ls : List (Linea t)) : ls.length ≤ (textoFichero ls).length := by
  induction ls with
  | nil => simp
  | cons l ls ih =>
      simp only [textoFichero_cons, List.length_append, List.length_cons]
      omega

theorem leerTodo_nil (fuel : Nat) : leerTodo fuel [] = [] := by
  cases fuel <;> rfl

/-- The reader returns the lines of a file whose lines are short enough. -/
theorem leidas_textoFichero {ls : List (Linea t)} (hls : ∀ l ∈ ls, l.texto.length ≤ maxLinea) :
    leidas (textoFichero ls) = ls.map Linea.texto := by
  have hleer := leerTodo_textoFichero hls []
    (Nat.le_succ_of_le (length_le_textoFichero ls))
  rw [List.append_nil, leerTodo_nil, List.append_nil] at hleer
  exact hleer

/-- The reader stops at the first line that is too long. -/
theorem leidas_larga {ls : List (Linea t)} (hls : ∀ l ∈ ls, l.texto.length ≤ maxLinea)
    {l : Linea t} (hl : maxLinea < l.texto.length) (ms : List (Linea t)) :
    leidas (textoFichero (ls ++ l :: ms)) = ls.map Linea.texto := by
  have hfuel : ls.length ≤ (textoFichero (ls ++ l :: ms)).length + 1 := by
    have hlen := length_le_textoFichero (ls ++ l :: ms)
    simp only [List.length_append] at hlen
    omega
  have hcorta (fuel : Nat) : leerTodo fuel (textoFichero (l :: ms)) = [] := by
    cases fuel with
    | zero => rfl
    | succ fuel =>
        have hnone := leerDb_larga l.plain hl ('\n' :: textoFichero ms)
        rw [textoFichero_cons, leerTodo]
        split
        · next heq => simp [heq] at hnone
        · rfl
  rw [leidas, textoFichero_append] at *
  rw [leerTodo_textoFichero hls _ hfuel, hcorta, List.append_nil]

/-! ## The loop -/

/-- A line of another table spoils the hash, so that the check after the loop fails. The argument
is the text from the table of the line on. -/
def estropeaHash (p3 : CStr) (s : Estado t) : Estado t :=
  if peek p3.tail ≠ ' ' ∨ (peek p3 ≠ t ∧ ¬(peek p3 = 'N' ∧ t = 'n')) then
    { s with hash := ⟨s.hash.hi + 57, s.hash.lo + 97⟩ }
  else s

/-- The first comparison of the target, with the text from the target of the line on. -/
def paraNosotros (me : List Char) (destino : CStr) : Bool :=
  if peek destino = '*' ∧ peek destino.tail = ' ' then true
  else ircMatch (collapse (before destino ' ')) me

/-- The body of the loop of `initdb2`. -/
def cargaLinea (me : List Char) (s : Estado t) (buf : CStr) : Estado t :=
  let destino := strchr buf ' '
  let p3 := strchr destino ' '
  let p2 := strchr p3 ' '
  let s := estropeaHash p3 s
  if Residente t ∧ paraNosotros me destino ∧ p2 ≠ ['*'] then dbAlta me buf false s
  else { s with serie := toUnsigned (atol buf), hash := actualizaHash buf s.hash }

/-- `initdb2` up to the end of its loop. -/
def cargaDb (me : List Char) (s : Estado t) : Estado t :=
  (leidas s.fichero).foldl (cargaLinea me) (borrarDb s)

/-- The comparison of the hash of the loaded file with the stored one: a table that differs is
emptied on disk and in memory. -/
def compruebaHash (s : Estado t) : Estado t :=
  if (s.hash.hi.toNat, s.hash.lo.toNat) = leeHash s.hashes then s
  else { borrarDb s with fichero := [] }

/-- The end of `initdb2`: records of compaction are not kept in memory. -/
def olvidaCompactado (s : Estado t) : Estado t :=
  if Residente t then dbEliminarRegistro ['*'] false s else s

/-- The replay of a file: `initdb2` without the comparison of hashes. -/
def replayDb (me : List Char) (s : Estado t) : Estado t :=
  olvidaCompactado (cargaDb me s)

/-- `initdb2`. -/
def initdb2 (me : List Char) (s : Estado t) : Estado t :=
  let s := compruebaHash (cargaDb me s)
  olvidaCompactado { s with hashes := almacenaHash s.hash }

/-! ## What a line does when it is loaded -/

/-- A line goes through `db_alta` when it is loaded, unless it is a bare record of compaction. -/
def Linea.Surte (me : List Char) (l : Linea t) : Prop :=
  Residente t ∧ ircMatch l.destino me = true ∧ l.cola ≠ ['*']

instance (me : List Char) (l : Linea t) : Decidable (l.Surte me) :=
  inferInstanceAs (Decidable (_ ∧ _))

/-- The line as an assignment to its key. -/
def Linea.entrada (l : Linea t) : Option (Log.Entry Clave CStr) :=
  l.registro.map Registro.entrada

/-- The assignments of the lines that take effect. -/
def entradas (me : List Char) (ls : List (Linea t)) : List (Log.Entry Clave CStr) :=
  (ls.filter (·.Surte me)).filterMap Linea.entrada

/-- The hash of lines folded one after the other. -/
def hashDe (x : Hash) (ls : List (Linea t)) : Hash :=
  ls.foldl (fun x l ↦ actualizaHash l.texto x) x

/-- The serial after a line: one that goes through `db_alta` without a key does not count. -/
def Linea.serieTras (me : List Char) (n : Nat) (l : Linea t) : Nat :=
  if l.Surte me ∧ l.registro = none then n else l.serie

/-- The serial after lines. -/
def serieDe (me : List Char) (n : Nat) (ls : List (Linea t)) : Nat :=
  ls.foldl (Linea.serieTras me) n

/-- The assignment of a single line. -/
theorem entradas_singleton (me : List Char) (l : Linea t) :
    entradas me [l] = if l.Surte me then l.entrada.toList else [] := by
  by_cases hs : l.Surte me
  · cases he : l.entrada <;> simp [entradas, hs, he]
  · simp [entradas, hs]

/-- A line that is not too long hashes alike with and without its line end. -/
theorem Linea.hash_texto {l : Linea t} (hl : l.texto.length ≤ maxLinea) (x : Hash) :
    actualizaHash (l.texto ++ ['\n']) x = actualizaHash l.texto x :=
  actualizaHash_append l.plain (le_trans (Nat.add_le_add_right hl 2) (by decide)) x

/-- Every server is a target of a star. -/
theorem ircMatch_star (me : List Char) : ircMatch ['*'] me = true := rfl

/-- The fields that the loop finds in a line. -/
theorem Linea.campos (l : Linea t) :
    strchr l.texto ' ' = l.destino ++ ' ' :: (l.tabla :: ' ' :: l.cola) ∧
      strchr (strchr l.texto ' ') ' ' = l.tabla :: ' ' :: l.cola ∧
      strchr (strchr (strchr l.texto ' ') ' ') ' ' = l.cola := by
  have hdestino : strchr l.texto ' ' = _ := strchr_append _ (word_decimal l.serie).2.1
  have htabla := strchr_append (l.tabla :: ' ' :: l.cola) l.destino_campo.2.1
  have hcola := strchr_append l.cola l.tabla_campo.2.1
  rw [hdestino, htabla]
  exact ⟨rfl, rfl, hcola⟩

/-- The comparison of the target of a line, whichever way it is made. -/
theorem Linea.paraNosotros_eq (me : List Char) (l : Linea t) (rest : CStr) :
    paraNosotros me (l.destino ++ ' ' :: rest) = ircMatch l.destino me := by
  rw [paraNosotros, before_append rest l.destino_campo.2.1, ircMatch_collapse]
  split
  · next hstar =>
      obtain ⟨c, cs, hc⟩ := List.exists_cons_of_ne_nil l.destino_campo.1
      rw [hc, List.cons_append, List.tail_cons] at hstar
      obtain ⟨rfl, hblanco⟩ : c = '*' ∧ peek (cs ++ ' ' :: rest) = ' ' := hstar
      have hvacio : cs = [] := by
        cases cs with
        | nil => rfl
        | cons d ds =>
            obtain rfl : d = ' ' := hblanco
            exact absurd (by simp [hc]) l.destino_campo.2.1
      rw [hc, hvacio]
      exact (ircMatch_star me).symm
  · rfl

/-- A line of a table does not spoil its hash. -/
theorem Linea.estropeaHash_eq (l : Linea t) (rest : CStr) (s : Estado t) :
    estropeaHash (l.tabla :: ' ' :: rest) s = s := by
  unfold estropeaHash
  rw [if_neg]
  rcases l.tabla_eq with h | h <;> simp [peek, h]

/-- The loop body on a line. -/
theorem cargaLinea_texto (me : List Char) (s : Estado t) (l : Linea t) :
    cargaLinea me s l.texto =
      if l.Surte me then dbAlta me l.texto false s
      else { s with serie := l.serie, hash := actualizaHash l.texto s.hash } := by
  obtain ⟨hdestino, htabla, hcola⟩ := l.campos
  have hatol := l.atol_texto []
  rw [List.append_nil] at hatol
  unfold cargaLinea
  dsimp only
  rw [hcola, htabla, hdestino, l.paraNosotros_eq, l.estropeaHash_eq, hatol]
  rfl

theorem hash_cargaLinea (me : List Char) (s : Estado t) (l : Linea t) :
    (cargaLinea me s l.texto).hash = actualizaHash l.texto s.hash := by
  rw [cargaLinea_texto]
  split
  · exact hash_dbAlta ..
  · rfl

/-- The record of a line without its line end. -/
theorem parteRegistro_texto_nil (l : Linea t) : parteRegistro l.texto = l.registro := by
  have hparte : parteRegistro (l.texto ++ []) = l.registro := parteRegistro_texto l (by simp)
  rwa [List.append_nil] at hparte

theorem serie_cargaLinea (me : List Char) (s : Estado t) (l : Linea t) :
    (cargaLinea me s l.texto).serie = l.serieTras me s.serie := by
  rw [cargaLinea_texto, Linea.serieTras]
  by_cases hs : l.Surte me
  · rw [if_pos hs, serie_dbAlta, parteRegistro_texto_nil]
    cases hr : l.registro with
    | none => simp [hs]
    | some p =>
        simp only [(Linea.registro_eq hr).1, l.atol_serie]
        simp
  · simp [hs]

theorem mapa_cargaLinea (me : List Char) (s : Estado t) (l : Linea t) :
    (cargaLinea me s l.texto).mapa = Log.replay s.mapa (entradas me [l]) := by
  rw [cargaLinea_texto]
  by_cases hs : l.Surte me
  · rw [if_pos hs, mapa_dbAlta, parteRegistro_texto_nil]
    cases hr : l.registro with
    | none => simp [entradas_singleton, hs, Linea.entrada, hr]
    | some p =>
        have haplica : p.Aplica me t := by
          rw [Registro.Aplica, (Linea.registro_eq hr).2]
          exact ⟨hs.1, hs.2.1⟩
        simp [entradas_singleton, hs, Linea.entrada, hr, haplica]
  · simp [entradas_singleton, hs, Tabla.mapa]

theorem disco_cargaLinea (me : List Char) (s : Estado t) (buf : CStr) :
    (cargaLinea me s buf).fichero = s.fichero ∧ (cargaLinea me s buf).hashes = s.hashes := by
  have hdisco (s : Estado t) :
      (dbAlta me buf false s).fichero = s.fichero ∧ (dbAlta me buf false s).hashes = s.hashes := by
    unfold dbAlta
    dsimp only
    cases parteRegistro buf with
    | none => exact ⟨rfl, rfl⟩
    | some p => exact (aplicaRegistro_frame ..).2.2
  have hestropea (p3 : CStr) :
      (estropeaHash p3 s).fichero = s.fichero ∧ (estropeaHash p3 s).hashes = s.hashes := by
    unfold estropeaHash
    split <;> exact ⟨rfl, rfl⟩
  unfold cargaLinea
  dsimp only
  split
  · exact ⟨(hdisco _).1.trans (hestropea _).1, (hdisco _).2.trans (hestropea _).2⟩
  · exact hestropea _

/-! ## What a file does -/

theorem entradas_append (me : List Char) (ls ms : List (Linea t)) :
    entradas me (ls ++ ms) = entradas me ls ++ entradas me ms := by
  simp [entradas]

theorem entradas_cons (me : List Char) (l : Linea t) (ls : List (Linea t)) :
    entradas me (l :: ls) = entradas me [l] ++ entradas me ls :=
  entradas_append me [l] ls

theorem serieDe_append_singleton (me : List Char) (n : Nat) (ls : List (Linea t)) (l : Linea t) :
    serieDe me n (ls ++ [l]) = l.serieTras me (serieDe me n ls) := by
  rw [serieDe, List.foldl_append]
  rfl

theorem hashDe_append_singleton (x : Hash) (ls : List (Linea t)) (l : Linea t) :
    hashDe x (ls ++ [l]) = actualizaHash l.texto (hashDe x ls) := by
  rw [hashDe, List.foldl_append]
  rfl

/-- The memory after lines. -/
theorem cargaLineas_texto (me : List Char) (ls : List (Linea t)) (s : Estado t) :
    let s' := (ls.map Linea.texto).foldl (cargaLinea me) s
    s'.mapa = Log.replay s.mapa (entradas me ls) ∧ s'.serie = serieDe me s.serie ls ∧
      s'.hash = hashDe s.hash ls := by
  induction ls generalizing s with
  | nil => exact ⟨rfl, rfl, rfl⟩
  | cons l ls ih =>
      obtain ⟨hmapa, hserie, hhash⟩ := ih (cargaLinea me s l.texto)
      refine ⟨?_, ?_, ?_⟩
      · rw [List.map_cons, List.foldl_cons, hmapa, mapa_cargaLinea,
          entradas_cons me l ls, Log.replay_append]
      · rw [List.map_cons, List.foldl_cons, hserie, serie_cargaLinea]
        rfl
      · rw [List.map_cons, List.foldl_cons, hhash, hash_cargaLinea]
        rfl

theorem disco_cargaLineas (me : List Char) (bufs : List CStr) (s : Estado t) :
    (bufs.foldl (cargaLinea me) s).fichero = s.fichero ∧
      (bufs.foldl (cargaLinea me) s).hashes = s.hashes := by
  induction bufs generalizing s with
  | nil => exact ⟨rfl, rfl⟩
  | cons buf bufs ih =>
      obtain ⟨hfichero, hhashes⟩ := ih (cargaLinea me s buf)
      obtain ⟨hfichero', hhashes'⟩ := disco_cargaLinea me s buf
      exact ⟨hfichero.trans hfichero', hhashes.trans hhashes'⟩

/-- The table that the loop makes of a file. -/
theorem cargaDb_textoFichero (me : List Char) {ls : List (Linea t)}
    (hls : ∀ l ∈ ls, l.texto.length ≤ maxLinea) {s : Estado t}
    (hs : s.fichero = textoFichero ls) :
    (cargaDb me s).mapa = Log.replay Log.empty (entradas me ls) ∧
      (cargaDb me s).serie = serieDe me 0 ls ∧ (cargaDb me s).hash = hashDe Hash.cero ls := by
  have hvacio : (borrarDb s).mapa = Log.empty := by
    funext c
    exact Chains.lookup_empty c
  rw [cargaDb, hs, leidas_textoFichero hls, ← hvacio]
  exact cargaLineas_texto me ls (borrarDb s)

theorem disco_cargaDb (me : List Char) (s : Estado t) :
    (cargaDb me s).fichero = s.fichero ∧ (cargaDb me s).hashes = s.hashes :=
  disco_cargaLineas me _ _

/-- Forgetting the record of compaction takes its key from the map, and nothing else changes. -/
theorem mapa_olvidaCompactado (ht : Residente t) (s : Estado t) :
    (olvidaCompactado s).mapa = Function.update s.mapa (Clave.de ['*']) none := by
  rw [olvidaCompactado, if_pos ht, mapa_dbEliminarRegistro]

theorem olvidaCompactado_frame (s : Estado t) : (olvidaCompactado s).serie = s.serie ∧
    (olvidaCompactado s).hash = s.hash ∧ (olvidaCompactado s).fichero = s.fichero ∧
      (olvidaCompactado s).hashes = s.hashes := by
  unfold olvidaCompactado
  split
  · exact dbEliminarRegistro_frame ..
  · exact ⟨rfl, rfl, rfl, rfl⟩

/-- The map that a file replays to. -/
def mapaDe (me : List Char) (ls : List (Linea t)) : Mapa :=
  Function.update (Log.replay Log.empty (entradas me ls)) (Clave.de ['*']) none

/-- The map after the last step of loading a file. -/
theorem mapa_olvidaCompactado_cargaDb (me : List Char) {ls : List (Linea t)} {s : Estado t}
    (hs : s.mapa = Log.replay Log.empty (entradas me ls)) :
    (olvidaCompactado s).mapa = mapaDe me ls := by
  by_cases ht : Residente t
  · rw [mapa_olvidaCompactado ht, hs, mapaDe]
  · have hvacia : entradas me ls = [] := by
      have hninguna : ∀ l ∈ ls, ¬l.Surte me := fun l _ h ↦ ht h.1
      rw [entradas, List.filter_eq_nil_iff.mpr (by simpa using hninguna), List.filterMap_nil]
    have hmapa : (olvidaCompactado s).mapa = Log.empty := by
      rw [olvidaCompactado, if_neg ht, hs, hvacia]
      rfl
    rw [hmapa, mapaDe, hvacia]
    exact (Function.update_eq_self_iff.mpr rfl).symm

theorem mapa_replayDb (me : List Char) {ls : List (Linea t)}
    (hls : ∀ l ∈ ls, l.texto.length ≤ maxLinea) {s : Estado t}
    (hs : s.fichero = textoFichero ls) : (replayDb me s).mapa = mapaDe me ls :=
  mapa_olvidaCompactado_cargaDb me (cargaDb_textoFichero me hls hs).1

/-- A file whose hash is the stored one is loaded as it is replayed. -/
theorem initdb2_textoFichero (me : List Char) {ls : List (Linea t)}
    (hls : ∀ l ∈ ls, l.texto.length ≤ maxLinea) {s : Estado t}
    (hs : s.fichero = textoFichero ls) (hhash : s.hashes = almacenaHash (hashDe Hash.cero ls)) :
    (initdb2 me s).mapa = mapaDe me ls ∧ (initdb2 me s).serie = serieDe me 0 ls ∧
      (initdb2 me s).hash = hashDe Hash.cero ls ∧ (initdb2 me s).fichero = s.fichero := by
  obtain ⟨hmapa, hserie, hcarga⟩ := cargaDb_textoFichero me hls hs
  obtain ⟨hfichero, hhashes⟩ := disco_cargaDb me s
  have hcomprueba : compruebaHash (cargaDb me s) = cargaDb me s := by
    rw [compruebaHash, if_pos]
    rw [hhashes, hhash, hcarga, leeHash_almacenaHash]
  simp only [initdb2, hcomprueba]
  obtain ⟨hserie', hhash', hfichero', -⟩ :=
    olvidaCompactado_frame { cargaDb me s with hashes := almacenaHash (cargaDb me s).hash }
  exact ⟨mapa_olvidaCompactado_cargaDb me hmapa, hserie'.trans hserie, hhash'.trans hcarga,
    hfichero'.trans hfichero⟩

/-- A file with a line that is too long is loaded up to that line at most. -/
theorem serie_initdb2_larga (me : List Char) {ls : List (Linea t)}
    (hls : ∀ l ∈ ls, l.texto.length ≤ maxLinea) {l : Linea t} (hl : maxLinea < l.texto.length)
    {ms : List (Linea t)} {s : Estado t} (hs : s.fichero = textoFichero (ls ++ l :: ms)) :
    (initdb2 me s).serie = 0 ∨ (initdb2 me s).serie = serieDe me 0 ls := by
  have hcarga : (cargaDb me s).serie = serieDe me 0 ls := by
    rw [cargaDb, hs, leidas_larga hls hl]
    exact (cargaLineas_texto me ls (borrarDb s)).2.1
  rw [initdb2, (olvidaCompactado_frame _).1, ← hcarga]
  unfold compruebaHash
  dsimp only
  split
  · exact .inr rfl
  · exact .inl rfl

end Ircd.Bdd
