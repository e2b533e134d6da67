import Ircd.Bdd.Fichero

/-!
# Compaction

`dbPack` rewrites the file of a table in place. A pass with two cursors keeps the lines whose value
is still in memory and drops the others, and the record of compaction that asked for it is appended.
With copies byte by byte from the front the memory stays as it is, and loading the new file gives the
same map, the serial of the record of compaction and the stored hash. The pass copies with `memcpy`,
which is undefined for blocks that overlap: `pack_preserves_iff` says for which files it is not.
-/

namespace Ircd.Bdd

open CString Match

variable {t : Char}

/-! ## The pass over the file -/

/-- The mapped file with the two cursors of the pass and the hash of the lines kept so far.
`solapa` is set by a copy whose blocks overlap. -/
structure Pasada where
  map : List Char
  lectura : Nat
  escritura : Nat
  hash : Hash
  solapa : Bool

/-- The body of the loop of `db_pack`: one line is read at the cursor `lectura`, and copied to
`escritura` when the table in memory has its value. -/
def pasoPack (s : Tabla t) (x : Pasada) : Pasada :=
  let lectura := x.map.drop x.lectura
  let clave := strchr (strchr (strchr lectura ' ') ' ') ' '
  let campo := clave.takeWhile (!finLinea ·)
  let p := clave.dropWhile (!finLinea ·)
  let valor := strchr campo ' '
  let registro := lectura.take (lectura.length - p.length)
  let sig := x.map.length - (p.dropWhile finLinea).length
  if valor ≠ [] ∧ dbBuscarRegistro (before campo ' ') s = some valor then
    { map := memcpy x.map x.escritura x.lectura (sig - x.lectura)
      lectura := sig
      escritura := x.escritura + (sig - x.lectura)
      hash := actualizaHash registro x.hash
      solapa := x.solapa || overlap x.escritura x.lectura (sig - x.lectura) }
  else { x with lectura := sig }

/-- The loop of `db_pack`. Each line takes a character of the file, which bounds the fuel. -/
def packDesde (s : Tabla t) : Nat → Pasada → Pasada
  | 0, x => x
  | fuel + 1, x => if x.lectura < x.map.length then packDesde s fuel (pasoPack s x) else x

/-- The pass over the whole file. -/
def pasada (s : Estado t) : Pasada :=
  packDesde s.toTabla s.fichero.length ⟨s.fichero, 0, 0, Hash.cero, false⟩

/-- `db_pack` with copies byte by byte from the front. The hash of a table that is not in memory is
not computed anew. -/
def dbPack (registro : CStr) (s : Estado t) : Estado t :=
  let s := { s with serie := toUnsigned (atol registro) }
  let s :=
    if Residente t then
      let x := pasada s
      { s with fichero := x.map.take x.escritura, hash := x.hash }
    else s
  let s := { s with fichero := s.fichero ++ registro, hash := actualizaHash registro s.hash }
  { s with hashes := almacenaHash s.hash }

/-- `db_pack` as C defines it: nothing is known of the file when a copy of the pass overlaps. -/
def dbPackDefinido (registro : CStr) (s : Estado t) : Option (Estado t) :=
  let cargado := { s with serie := toUnsigned (atol registro) }
  if Residente t ∧ (pasada cargado).solapa then none else some (dbPack registro s)

/-! ## What the pass keeps -/

/-- The line has the value that the map still has under its key. -/
def Linea.Vigente (m : Mapa) (l : Linea t) : Bool :=
  l.entrada.any (Log.kept m)

/-- Each line that is kept fits, with its end, into the gap that the dropped lines before it have
left: `hueco` bytes are there already. -/
def Holgada (m : Mapa) : Nat → List (Linea t) → Prop
  | _, [] => True
  | hueco, l :: ls =>
    if l.Vigente m then l.texto.length + 1 ≤ hueco ∧ Holgada m hueco ls
    else Holgada m (hueco + (l.texto.length + 1)) ls

/-- The pass finds the end of a line. -/
theorem Linea.cola_scan (l : Linea t) : ∀ x ∈ l.cola, (!finLinea x) = true := by
  intro x hx
  have hn : x ≠ '\n' := fun h ↦ l.cola_plain.1 (h ▸ hx)
  have hr : x ≠ '\r' := fun h ↦ l.cola_plain.2.1 (h ▸ hx)
  simp [finLinea, hn, hr]

/-- The key and the value that the pass finds in a well-formed line. -/
theorem Linea.Tiene.campo_eq {l : Linea t} {clave : CStr} {valor : Option CStr}
    (h : l.Tiene clave valor) : before l.cola ' ' = clave ∧ strchr l.cola ' ' = valor.getD [] := by
  obtain ⟨hclave, -, hcola⟩ := h
  rw [hcola]
  cases valor with
  | none =>
      have hdrop := List.dropWhile_eq_nil_iff.mpr (bne_of_not_mem hclave.2.1)
      rw [textoValor, List.append_nil, before_eq_self hclave.2.1, strchr, hdrop]
      exact ⟨rfl, rfl⟩
  | some v => exact ⟨before_append v hclave.2.1, strchr_append v hclave.2.1⟩

theorem Linea.Tiene.vigente {m : Mapa} {l : Linea t} {clave : CStr} {valor : Option CStr}
    (h : l.Tiene clave valor) : l.Vigente m = Log.kept m (Clave.de clave, valor) := by
  rw [Linea.Vigente, Linea.entrada, h.registro]
  rfl

/-- The test of the pass on a well-formed line. -/
theorem Linea.BienFormada.vigente_iff (ht : Residente t) (s : Tabla t) {l : Linea t}
    (h : l.BienFormada) :
    (strchr l.cola ' ' ≠ [] ∧ dbBuscarRegistro (before l.cola ' ') s = some (strchr l.cola ' ')) ↔
      l.Vigente s.mapa = true := by
  obtain ⟨clave, valor, h⟩ := h
  have hbusca : dbBuscarRegistro clave s = s.mapa (Clave.de clave) := if_pos ht
  have hentrada : l.entrada = some (Clave.de clave, valor) := by rw [Linea.entrada, h.registro]; rfl
  rw [h.campo_eq.1, h.campo_eq.2, hbusca, Linea.Vigente, hentrada]
  cases valor with
  | none => simp [Log.kept]
  | some v =>
      have hne := (h.2.1 v rfl).1
      simp [Log.kept, hne]

/-- The text of a file does not begin with a line end. -/
theorem dropWhile_finLinea (ls : List (Linea t)) :
    ('\n' :: textoFichero ls).dropWhile finLinea = textoFichero ls := by
  have hfin : finLinea '\n' = true := rfl
  rw [List.dropWhile_cons_of_pos hfin]
  cases ls with
  | nil => rfl
  | cons l ls =>
      obtain ⟨c, cs, hc, htexto⟩ := l.texto_cons
      have hno : ¬finLinea c = true := by
        rintro h
        rw [finLinea, decide_eq_true_eq] at h
        rcases h with rfl | rfl <;> exact absurd hc (by decide)
      rw [textoFichero_cons, htexto, List.cons_append, List.dropWhile_cons_of_neg hno]

/-- What one step of the pass does when the text at the cursor begins with a line. -/
theorem pasoPack_linea (ht : Residente t) (s : Tabla t) (x : Pasada) {l : Linea t}
    (hl : l.BienFormada) {ls : List (Linea t)}
    (hmap : x.map.drop x.lectura = textoFichero (l :: ls)) :
    pasoPack s x =
      if l.Vigente s.mapa then
        { map := memcpy x.map x.escritura x.lectura (l.texto.length + 1)
          lectura := x.lectura + (l.texto.length + 1)
          escritura := x.escritura + (l.texto.length + 1)
          hash := actualizaHash l.texto x.hash
          solapa := x.solapa || overlap x.escritura x.lectura (l.texto.length + 1) }
      else { x with lectura := x.lectura + (l.texto.length + 1) } := by
  have hlen := congrArg List.length hmap
  rw [List.length_drop, textoFichero_cons, List.length_append, List.length_cons] at hlen
  have hsig : x.map.length - (textoFichero ls).length = x.lectura + (l.texto.length + 1) := by
    omega
  have hserie := strchr_append (l.destino ++ ' ' :: (l.tabla :: ' ' ::
    (l.cola ++ '\n' :: textoFichero ls))) (word_decimal l.serie).2.1
  have hdestino := strchr_append (l.tabla :: ' ' :: (l.cola ++ '\n' :: textoFichero ls))
    l.destino_campo.2.1
  have htabla : strchr (l.tabla :: ' ' :: (l.cola ++ '\n' :: textoFichero ls)) ' '
      = l.cola ++ '\n' :: textoFichero ls :=
    strchr_append _ l.tabla_campo.2.1
  have hcampo := takeWhile_stop (textoFichero ls) l.cola_scan (c := '\n') rfl
  have hp := dropWhile_stop (textoFichero ls) l.cola_scan (c := '\n') rfl
  have htexto : textoFichero (l :: ls) = decimal l.serie ++ ' ' :: (l.destino ++ ' ' ::
      (l.tabla :: ' ' :: (l.cola ++ '\n' :: textoFichero ls))) := by
    simp [Linea.texto]
  have hregistro : (textoFichero (l :: ls)).take
      ((textoFichero (l :: ls)).length - ('\n' :: textoFichero ls).length) = l.texto := by
    rw [textoFichero_cons, List.length_append, Nat.add_sub_cancel]
    exact List.take_left' rfl
  rw [htexto] at hregistro
  simp only [pasoPack, hmap, htexto, hregistro, hserie, hdestino, htabla, hcampo, hp,
    dropWhile_finLinea, hsig, Nat.add_sub_cancel_left, hl.vigente_iff ht]

/-- The pass writes the lines with current values, in their order, and hashes them. Its copies are
defined if each of these lines fits into the gap between the cursors. -/
theorem packDesde_textoFichero (ht : Residente t) (s : Tabla t) {ls : List (Linea t)}
    (hls : ∀ l ∈ ls, l.BienFormada) {fuel : Nat} (hfuel : ls.length ≤ fuel) {x : Pasada}
    (hmap : x.map.drop x.lectura = textoFichero ls) (hcursor : x.escritura ≤ x.lectura) :
    let y := packDesde s fuel x
    y.map.take y.escritura
        = x.map.take x.escritura ++ textoFichero (ls.filter (Linea.Vigente s.mapa)) ∧
      y.hash = hashDe x.hash (ls.filter (Linea.Vigente s.mapa)) ∧
      (y.solapa = false ↔
        x.solapa = false ∧ Holgada s.mapa (x.lectura - x.escritura) ls) := by
  induction ls generalizing fuel x with
  | nil =>
      have hfin : ¬x.lectura < x.map.length := by
        simpa using hmap
      have hy : packDesde s fuel x = x := by
        cases fuel with
        | zero => rfl
        | succ fuel => exact if_neg hfin
      simp [hy, hashDe, Holgada]
  | cons l ls ih =>
      rw [List.forall_mem_cons] at hls
      obtain ⟨fuel, rfl⟩ : ∃ n, fuel = n + 1 := ⟨fuel - 1, by simp at hfuel; omega⟩
      simp only [List.length_cons, Nat.add_le_add_iff_right] at hfuel
      have hlen := congrArg List.length hmap
      rw [List.length_drop, textoFichero_cons, List.length_append, List.length_cons] at hlen
      have htexto : textoFichero (l :: ls) = (l.texto ++ ['\n']) ++ textoFichero ls := by simp
      have hlinea : (l.texto ++ ['\n']).length = l.texto.length + 1 := by simp
      have hresto : x.map.drop (x.lectura + (l.texto.length + 1)) = textoFichero ls := by
        rw [← List.drop_drop, hmap, htexto, ← hlinea, List.drop_left]
      have hcopia : (x.map.drop x.lectura).take (l.texto.length + 1) = l.texto ++ ['\n'] := by
        rw [hmap, htexto, ← hlinea, List.take_left]
      rw [packDesde, if_pos (by omega), pasoPack_linea ht s x hls.1 hmap]
      by_cases hl : l.Vigente s.mapa = true
      · have hcabe : x.lectura + (l.texto.length + 1) ≤ x.map.length := by omega
        have hstep := ih hls.2 hfuel
          (x := ⟨memcpy x.map x.escritura x.lectura (l.texto.length + 1),
            x.lectura + (l.texto.length + 1), x.escritura + (l.texto.length + 1),
            actualizaHash l.texto x.hash,
            x.solapa || overlap x.escritura x.lectura (l.texto.length + 1)⟩)
          ((drop_memcpy hcursor hcabe (Nat.add_le_add_right hcursor _)).trans hresto)
          (Nat.add_le_add_right hcursor _)
        simp only [take_memcpy hcursor hcabe, hcopia] at hstep
        rw [if_pos hl, List.filter_cons_of_pos hl]
        refine ⟨?_, hstep.2.1, ?_⟩
        · rw [hstep.1]
          simp
        · -- both cursors move by the line, and the gap stays as it is
          rw [hstep.2.2, Bool.or_eq_false_iff, overlap_eq_false_iff hcursor (Nat.succ_pos _),
            Nat.add_sub_add_right, Holgada, if_pos hl, and_assoc]
      · have hstep := ih hls.2 hfuel (x := { x with lectura := x.lectura + (l.texto.length + 1) })
          hresto (Nat.le_add_right_of_le hcursor)
        rw [if_neg hl, List.filter_cons_of_neg hl]
        refine ⟨hstep.1, hstep.2.1, ?_⟩
        rw [hstep.2.2, Holgada, if_neg hl, Nat.sub_add_comm hcursor]

/-! ## The whole function -/

/-- The lines of the file after a compaction. -/
def compactadas (m : Mapa) (ls : List (Linea t)) (c : Linea t) : List (Linea t) :=
  ls.filter (Linea.Vigente m) ++ [c]

/-- The state after a compaction of a file of lines. -/
theorem dbPack_textoFichero (ht : Residente t) {ls : List (Linea t)}
    (hls : ∀ l ∈ ls, l.BienFormada) {c : Linea t} (hc : c.texto.length ≤ maxLinea)
    {s : Estado t} (hs : s.fichero = textoFichero ls) :
    let s' := dbPack (c.texto ++ ['\n']) s
    s'.mapa = s.mapa ∧ s'.serie = c.serie ∧
      s'.fichero = textoFichero (compactadas s.mapa ls c) ∧
      s'.hash = hashDe Hash.cero (compactadas s.mapa ls c) ∧ s'.hashes = almacenaHash s'.hash := by
  obtain ⟨hfichero, hhash, -⟩ := packDesde_textoFichero ht
    { s.toTabla with serie := toUnsigned (atol (c.texto ++ ['\n'])) } hls
    (length_le_textoFichero ls) (x := ⟨textoFichero ls, 0, 0, Hash.cero, false⟩) rfl le_rfl
  simp only [List.take_zero, List.nil_append, hs] at hfichero hhash
  simp only [dbPack, pasada, ht, if_true, hs, hfichero, hhash, Linea.hash_texto hc]
  refine ⟨rfl, c.atol_texto _, ?_, ?_, ?_⟩
  · rw [compactadas, textoFichero_append, textoFichero_cons]
    rfl
  · rw [compactadas, hashDe_append_singleton]
    rfl
  · trivial

/-- A compaction of a file of lines is defined if the kept lines fit into the gaps. -/
theorem dbPackDefinido_eq_some (ht : Residente t) {ls : List (Linea t)}
    (hls : ∀ l ∈ ls, l.BienFormada) (registro : CStr) {s s' : Estado t}
    (hs : s.fichero = textoFichero ls) :
    dbPackDefinido registro s = some s' ↔ Holgada s.mapa 0 ls ∧ s' = dbPack registro s := by
  have hlen : ls.length ≤ s.fichero.length := hs ▸ length_le_textoFichero ls
  obtain ⟨-, -, hsolapa⟩ := packDesde_textoFichero ht
    { s with serie := toUnsigned (atol registro) }.toTabla hls hlen (x := ⟨s.fichero, 0, 0, Hash.cero, false⟩) hs le_rfl
  have hpasada : (pasada { s with serie := toUnsigned (atol registro) }).solapa = false ↔
      Holgada s.mapa 0 ls :=
    hsolapa.trans (and_iff_right rfl)
  rw [← hpasada, dbPackDefinido]
  cases hsol : (pasada { s with serie := toUnsigned (atol registro) }).solapa with
  | true =>
      rw [if_pos ⟨ht, rfl⟩]
      exact iff_of_false nofun nofun
  | false =>
      rw [if_neg fun h ↦ Bool.false_ne_true h.2, Option.some_inj, eq_comm]
      exact (and_iff_right rfl).symm

/-- The assignments of the lines that a compaction keeps. -/
theorem entradas_filter (me : List Char) (m : Mapa) (ls : List (Linea t)) :
    entradas me (ls.filter (Linea.Vigente m)) = (entradas me ls).filter (Log.kept m) := by
  induction ls with
  | nil => rfl
  | cons l ls ih =>
      rw [entradas_cons me l ls, List.filter_append, ← ih, List.filter_cons]
      by_cases hs : l.Surte me
      · cases he : l.entrada with
        | none => simp [entradas, Linea.Vigente, he, hs]
        | some e =>
            by_cases hk : Log.kept m e = true <;> simp [entradas, Linea.Vigente, he, hs, hk]
      · by_cases hv : l.Vigente m = true <;> simp [entradas, hs, hv]

/-- The serial after lines of which the last one is well formed. -/
theorem serieDe_bienFormada (me : List Char) (n : Nat) (ls : List (Linea t)) {c : Linea t}
    (hc : c.BienFormada) : serieDe me n (ls ++ [c]) = c.serie := by
  obtain ⟨clave, valor, h⟩ := hc
  rw [serieDe_append_singleton, Linea.serieTras, if_neg]
  simp [h.registro]

/-- The kept lines and the record of compaction replay to the old map. -/
theorem mapaDe_compactadas (me : List Char) {ls : List (Linea t)} {c : Linea t}
    {valor : Option CStr} (hc : c.Tiene ['*'] valor) :
    mapaDe me (compactadas (mapaDe me ls) ls c) = mapaDe me ls := by
  have hvigentes : Log.replay Log.empty (entradas me (ls.filter (Linea.Vigente (mapaDe me ls))))
      = mapaDe me ls := by
    rw [entradas_filter]
    apply Log.replay_filter_kept
    intro k v hk
    by_cases hstar : k = Clave.de ['*']
    · subst hstar
      simp [mapaDe] at hk
    · rw [mapaDe, Function.update_of_ne hstar] at hk
      exact Log.mem_of_replay_empty hk
  have hcompactado (m : Mapa) : Function.update (Log.replay m (entradas me [c])) (Clave.de ['*'])
      none = Function.update m (Clave.de ['*']) none := by
    rw [entradas_singleton]
    split
    · simp [Linea.entrada, hc.registro, Registro.entrada, Log.apply]
    · rfl
  rw [mapaDe, compactadas, entradas_append, Log.replay_append, hvigentes, hcompactado, mapaDe,
    Function.update_idem]

/-- Compaction keeps the memory, writes the lines with current values in their order and then the
record of compaction, and the new file loads to the same map, with the serial of that record and
the hash of its lines. -/
def Preserva (me : List Char) (ls : List (Linea t)) (c : Linea t) (s s' : Estado t) : Prop :=
  s'.mapa = s.mapa ∧ s'.serie = c.serie ∧
    (∃ ms : List (Linea t), ms.Sublist ls ∧ s'.fichero = textoFichero (ms ++ [c]) ∧
      s'.hash = hashDe Hash.cero (ms ++ [c])) ∧
    (initdb2 me s').mapa = s.mapa ∧ (initdb2 me s').serie = c.serie ∧
    (initdb2 me s').hash = s'.hash ∧ (initdb2 me s').fichero = s'.fichero

/-- With copies byte by byte from the front every compaction preserves the database. -/
theorem preserva_dbPack (me : List Char) (ht : Residente t) {ls : List (Linea t)}
    (hls : ∀ l ∈ ls, l.BienFormada ∧ l.texto.length ≤ maxLinea) {c : Linea t}
    {valor : Option CStr} (hc : c.Tiene ['*'] valor) (hlc : c.texto.length ≤ maxLinea)
    {s : Estado t} (hs : s.fichero = textoFichero ls) (hmapa : s.mapa = (replayDb me s).mapa) :
    Preserva me ls c s (dbPack (c.texto ++ ['\n']) s) := by
  have hbien : ∀ l ∈ ls, l.BienFormada := fun l hl ↦ (hls l hl).1
  have hcorta : ∀ l ∈ ls, l.texto.length ≤ maxLinea := fun l hl ↦ (hls l hl).2
  obtain ⟨hmapa', hserie, hfichero, hhash, hhashes⟩ := dbPack_textoFichero ht hbien hlc hs
  have hmapaDe : s.mapa = mapaDe me ls := hmapa.trans (mapa_replayDb me hcorta hs)
  have hcortas : ∀ l ∈ compactadas s.mapa ls c, l.texto.length ≤ maxLinea := by
    intro l hl
    rcases List.mem_append.mp hl with hl | hl
    · exact hcorta l (List.mem_of_mem_filter hl)
    · rwa [List.mem_singleton.mp hl]
  obtain ⟨hcarga, hcarga', hcarga'', hdisco⟩ := initdb2_textoFichero me hcortas hfichero
    (hhashes.trans (congrArg almacenaHash hhash))
  refine ⟨hmapa', hserie, ⟨_, List.filter_sublist, hfichero, hhash⟩, ?_, ?_, ?_, hdisco⟩
  · rw [hcarga, hmapaDe, mapaDe_compactadas me hc]
  · rw [hcarga', compactadas, serieDe_bienFormada me _ _ ⟨_, _, hc⟩]
  · rw [hcarga'', hhash]

/-- `db_pack` preserves the database if and only if each line that it keeps fits into the gap that
the lines dropped before it have left: elsewhere `memcpy` is called with blocks that overlap. -/
theorem pack_preserves_iff (me : List Char) (ht : Residente t) (ls : List (Linea t))
    (hls : ∀ l ∈ ls, l.BienFormada ∧ l.texto.length ≤ maxLinea) (c : Linea t)
    (valor : Option CStr) (hc : c.Tiene ['*'] valor) (hlc : c.texto.length ≤ maxLinea)
    (s : Estado t) (hs : s.fichero = textoFichero ls) (hmapa : s.mapa = (replayDb me s).mapa) :
    (∃ s', dbPackDefinido (c.texto ++ ['\n']) s = some s' ∧ Preserva me ls c s s') ↔
      Holgada s.mapa 0 ls := by
  have hbien : ∀ l ∈ ls, l.BienFormada := fun l hl ↦ (hls l hl).1
  constructor
  · rintro ⟨s', hs', -⟩
    exact ((dbPackDefinido_eq_some ht hbien _ hs).mp hs').1
  · intro hgap
    exact ⟨_, (dbPackDefinido_eq_some ht hbien _ hs).mpr ⟨hgap, rfl⟩,
      preserva_dbPack me ht hls hc hlc hs hmapa⟩

/-- The name of the server that loads the file. -/
def yoBots : List Char :=
  memory "irc.example".toList []

/-- The table of the bots after its file has been loaded. -/
def botsDe (ls : List (Linea 'b')) : Estado 'b' :=
  replayDb yoBots { Tabla.vacia 'b' with fichero := textoFichero ls, bots := fun _ ↦ none }

/-- A record of compaction. -/
def puntoDeControl : Linea 'b' :=
  ⟨3, "*".toList, 'b', "*".toList, by decide, by decide, by decide, by decide, by decide⟩

/-- A name of a bot, for the servers whose name matches. -/
def nombreLargo : Linea 'b' :=
  ⟨1, "irc.*".toList, 'b', "nickserv Nick".toList, by decide, by decide, by decide, by decide,
    by decide⟩

/-- The same name for all servers, and in other capitals. -/
def nombreCorto : Linea 'b' :=
  ⟨2, "*".toList, 'b', "NickServ NiCK".toList, by decide, by decide, by decide, by decide,
    by decide⟩

/-- The deletion of a name. -/
def borraUno : Linea 'b' :=
  ⟨1, "*".toList, 'b', "k".toList, by decide, by decide, by decide, by decide, by decide⟩

theorem borraUno_tiene : borraUno.Tiene "k".toList none :=
  ⟨by decide, by decide, rfl⟩

theorem nombreLargo_tiene : nombreLargo.Tiene "nickserv".toList (some "Nick".toList) :=
  ⟨by decide, by decide, rfl⟩

theorem nombreCorto_tiene : nombreCorto.Tiene "NickServ".toList (some "NiCK".toList) :=
  ⟨by decide, by decide, rfl⟩

/-- A loaded file stays as it is, and the memory is its replay. -/
theorem botsDe_cargada {ls : List (Linea 'b')} (hls : ∀ l ∈ ls, l.texto.length ≤ maxLinea) :
    (botsDe ls).fichero = textoFichero ls ∧
      (botsDe ls).mapa = (replayDb yoBots (botsDe ls)).mapa := by
  have hfichero : (botsDe ls).fichero = textoFichero ls :=
    (olvidaCompactado_frame _).2.2.1.trans (disco_cargaDb yoBots _).1
  refine ⟨hfichero, ?_⟩
  rw [mapa_replayDb yoBots hls hfichero]
  exact mapa_replayDb yoBots hls rfl

/-- The memory after two lines for this server. -/
theorem botsDe_mapa {l l' : Linea 'b'} {clave clave' : CStr} {valor valor' : Option CStr}
    (hl : l.Tiene clave valor) (hl' : l'.Tiene clave' valor') (hs : l.Surte yoBots)
    (hs' : l'.Surte yoBots) (hls : ∀ x ∈ [l, l'], x.texto.length ≤ maxLinea) :
    (botsDe [l, l']).mapa = Function.update (Log.replay Log.empty
      [(Clave.de clave, valor), (Clave.de clave', valor')]) (Clave.de ['*']) none := by
  obtain ⟨hfichero, hmapa⟩ := botsDe_cargada hls
  have hentradas : entradas yoBots [l, l'] = [(Clave.de clave, valor), (Clave.de clave', valor')] := by
    simp [entradas, Linea.entrada, Registro.entrada, hs, hs', hl.registro, hl'.registro]
  rw [hmapa, mapa_replayDb yoBots hls hfichero, mapaDe, hentradas]

theorem nombres_bien : ∀ x ∈ [nombreLargo, nombreCorto],
    x.BienFormada ∧ x.texto.length ≤ maxLinea := by
  intro x hx
  rcases List.mem_pair.mp hx with rfl | rfl
  exacts [⟨⟨_, _, nombreLargo_tiene⟩, by decide⟩, ⟨⟨_, _, nombreCorto_tiene⟩, by decide⟩]

theorem bajas_bien : ∀ x ∈ [borraUno, nombreCorto],
    x.BienFormada ∧ x.texto.length ≤ maxLinea := by
  intro x hx
  rcases List.mem_pair.mp hx with rfl | rfl
  exacts [⟨⟨_, _, borraUno_tiene⟩, by decide⟩, ⟨⟨_, _, nombreCorto_tiene⟩, by decide⟩]

/-- A name of a bot that is replaced by a shorter line, and the record of compaction after it. -/
theorem pack_preserves_bot :
    ∃ s', dbPackDefinido (puntoDeControl.texto ++ ['\n']) (botsDe [nombreLargo, nombreCorto])
        = some s' ∧
      Preserva yoBots [nombreLargo, nombreCorto] puntoDeControl
        (botsDe [nombreLargo, nombreCorto]) s' := by
  have hcortas := fun x hx ↦ (nombres_bien x hx).2
  obtain ⟨hs, hmapa⟩ := botsDe_cargada hcortas
  refine (pack_preserves_iff yoBots (by decide) _ nombres_bien puntoDeControl none
    ⟨by decide, by decide, rfl⟩ (by decide) _ hs hmapa).mpr ?_
  have hlargo : ¬nombreLargo.Vigente (botsDe [nombreLargo, nombreCorto]).mapa = true := by
    rw [nombreLargo_tiene.vigente, botsDe_mapa nombreLargo_tiene nombreCorto_tiene (by decide)
      (by decide) hcortas]
    decide
  rw [Holgada, if_neg hlargo, Holgada]
  split
  · exact ⟨by decide, trivial⟩
  · trivial

/-- A deletion, and behind it a longer line that is kept: 20 bytes are copied to a place 8 bytes in
front of them. -/
theorem not_pack_preserves : ¬∀ (me : List Char) (ls : List (Linea 'b')) (c : Linea 'b')
    (valor : Option CStr) (s : Estado 'b'),
    (∀ l ∈ ls, l.BienFormada ∧ l.texto.length ≤ maxLinea) →
      ((ls ++ [c]).map (·.serie)).Pairwise (· < ·) → c.Tiene ['*'] valor →
      c.texto.length ≤ maxLinea → s.fichero = textoFichero ls →
      s.mapa = (replayDb me s).mapa →
        ∃ s', dbPackDefinido (c.texto ++ ['\n']) s = some s' ∧ Preserva me ls c s s' := by
  intro hpreserva
  have hcortas := fun x hx ↦ (bajas_bien x hx).2
  obtain ⟨hs, hmapa⟩ := botsDe_cargada hcortas
  obtain ⟨s', hs', -⟩ := hpreserva yoBots _ puntoDeControl none _ bajas_bien (by decide)
    ⟨by decide, by decide, rfl⟩ (by decide) hs hmapa
  have hsalto := ((dbPackDefinido_eq_some (by decide) (fun x hx ↦ (bajas_bien x hx).1) _
    hs).mp hs').1
  have hcorto : nombreCorto.Vigente (botsDe [borraUno, nombreCorto]).mapa = true := by
    rw [nombreCorto_tiene.vigente, botsDe_mapa borraUno_tiene nombreCorto_tiene (by decide)
      (by decide) hcortas]
    decide
  have hborra : ¬borraUno.Vigente (botsDe [borraUno, nombreCorto]).mapa = true := by
    rw [borraUno_tiene.vigente]
    exact Bool.false_ne_true
  rw [Holgada, if_neg hborra, Holgada, if_pos hcorto] at hsalto
  exact absurd hsalto.1 (by decide)

end Ircd.Bdd
