import Ircd.Bdd.Enlace

/-!
# The tables of two servers converge

The table of a neighbour is equal to that of its hub whenever their serials are equal, in every run
in which no deletion is lost (`tables_converge`). The invariant is `Coherente`: what the neighbour
has, the records in flight to it and the newer lines of the file of the hub make up the table of the
hub. Compaction forgets deletions, and a neighbour that has missed one keeps the record
(`tables_diverge`).
-/

namespace Ircd.Bdd

open CString Match Replica

variable {t : Char}

/-! ## The invariant -/

/-- The announcement of the hub, if it is still on its way. -/
inductive Saluda (t : Char) (s : Nat) : List CStr → Prop
  | ninguno : Saluda t s []
  | serie {n : Nat} (hs : s ≤ n) (hn : n < 2 ^ 32) :
      Saluda t s [textoOrden ['*'] ['J'] (decimal n) (letraUnion t)]

/-- The messages on their way: the records in flight, and either the tap is open and nothing else
is missing, or the neighbour has asked for more or will do so. -/
inductive Canal (p : Servidores) (vuelo : List (Novedad t)) (x : Enlace) : Prop
  | roto (harriba : x.arriba = false) (hgrifo : x.hub.esnetDb t = false) (hvuelo : vuelo = [])
      (hida : x.ida = []) (hvuelta : x.vuelta = [])
  | abierto {inicio : List CStr} (harriba : x.arriba = true) (hgrifo : x.hub.esnetDb t = true)
      (hsaluda : Saluda t (x.vecino.serie t) inicio)
      (hida : x.ida = inicio ++ vuelo.map Novedad.aviso) (hvuelta : x.vuelta = [])
      (hserie : (sello t).lastStamp (x.vecino.serie t) vuelo = x.hub.serie t)
  | tanda {inicio : List CStr} {n : Nat} (harriba : x.arriba = true)
      (hgrifo : x.hub.esnetDb t = false) (hsaluda : Saluda t (x.vecino.serie t) inicio)
      (hida : x.ida = inicio ++ (vuelo.map Novedad.aviso ++
        [textoOrden p.vecino ['B'] (decimal n) t])) (hvuelta : x.vuelta = [])
  | peticion {inicio : List CStr} {destino : CStr} {c : Char} (harriba : x.arriba = true)
      (hgrifo : x.hub.esnetDb t = false) (hsaluda : Saluda t (x.vecino.serie t) inicio)
      (hvuelo : vuelo = []) (hida : x.ida = inicio) (hdestino : Middle destino) (hc : Letra t c)
      (hvuelta : x.vuelta = [textoOrden destino ['J'] (decimal (x.vecino.serie t)) c])

/-- The invariant: the file of the hub records its table, and the neighbour follows the hub with
the records in flight. -/
structure Coherente (p : Servidores) (ns vuelo : List (Novedad t)) (x : Enlace) : Prop where
  vivo : x.muerto = false
  archivo : Archivo ns (x.hub.base.tablas t)
  comun : ∀ n ∈ ns, n.Comun p
  comun_vuelo : ∀ n ∈ vuelo, n.Comun p
  sigue : (sello t).Follows (x.hub.mapa t) (x.hub.serie t) ns vuelo (x.vecino.mapa t)
    (x.vecino.serie t)
  canal : Canal p vuelo x

variable {p : Servidores} {ns vuelo : List (Novedad t)} {x : Enlace}

theorem Archivo.serie_lt {s : Tabla t} (h : Archivo ns s) : s.serie < 2 ^ 32 := by
  have hle : (sello t).lastStamp 0 ns ≤ 2 ^ 32 - 1 :=
    (sello t).lastStamp_le (Nat.zero_le _) fun n _ ↦ Nat.le_sub_one_of_lt n.serie_lt
  rw [h.guarda.last]
  omega

/-- A record in flight is an assignment. -/
theorem entradaAviso_aviso {n : Novedad t} (hn : n.serie ≠ 0) : entradaAviso n.aviso = n.efecto := by
  rw [entradaAviso, n.params_aviso]
  simp only [Novedad.parv, List.cons_append, List.nil_append, n.atol_serie, hn, false_or,
    Novedad.efecto]
  cases n.valor <;> rfl

/-- An order is none. -/
theorem entradaAviso_orden (ht : Residente t) {destino orden argumento : CStr} {c : Char}
    (hdestino : Middle destino) (horden : Middle orden) (hargumento : Middle argumento)
    (hc : Letra t c) : entradaAviso (textoOrden destino orden argumento c) = none := by
  have hmiddle : Middle [c] := by
    rcases hc with rfl | ⟨rfl, -⟩
    exacts [ht.middle, by decide]
  have hcero : toUnsigned (atol ['0']) = 0 := by decide
  rw [entradaAviso, params_textoOrden hdestino horden hargumento hmiddle]
  exact if_pos (.inl hcero)

/-- What the neighbour will have is what the records in flight make of its map. -/
theorem Coherente.previsto_eq (ht : Residente t) (h : Coherente p ns vuelo x) :
    x.previsto t = (sello t).after (x.vecino.mapa t) vuelo := by
  have hvuelo : (vuelo.map Novedad.aviso).filterMap entradaAviso = (sello t).effects vuelo := by
    rw [List.filterMap_map, Stamped.effects]
    refine List.filterMap_congr fun n hn ↦ ?_
    have hserie := (h.sigue.bounds n hn).1
    rw [sello_stamp] at hserie
    exact entradaAviso_aviso (by omega)
  have hsaluda {inicio : List CStr} (hs : Saluda t (x.vecino.serie t) inicio) :
      inicio.filterMap entradaAviso = [] := by
    cases hs with
    | ninguno => rfl
    | serie => simp [entradaAviso_orden ht (show Middle ['*'] by decide)
        (show Middle ['J'] by decide) (middle_decimal _) (letra_letraUnion t)]
  rw [Enlace.previsto, Stamped.after]
  cases h.canal with
  | roto _ _ hvacio hida _ => simp [hida, hvacio]
  | abierto _ _ hs hida _ _ => simp [hida, hsaluda hs, hvuelo]
  | tanda _ _ hs hida _ =>
      simp [hida, hsaluda hs, hvuelo, entradaAviso_orden ht p.middle_vecino
        (show Middle ['B'] by decide) (middle_decimal _) (.inl rfl)]
  | peticion _ _ hs hvacio hida _ _ _ => simp [hida, hsaluda hs, hvacio]

/-! ## The steps -/

/-- The records that both servers have in common. -/
theorem Coherente.keeps (h : Coherente p ns vuelo x) :
    (sello t).Keeps (x.hub.mapa t) (x.hub.serie t) ns :=
  h.archivo.guarda

/-- A record that is not new for the hub. -/
theorem paso_viejo (ht : Residente t) {n : Novedad t} (hn : n.serie ≤ x.hub.serie t) :
    paso p (.novedad n) x = x := by
  have hviejo : n.serie ≤ (x.hub.base.tablas t).serie := hn
  simp only [paso, novedadDb, nuevoRegistro_viejo ht _ hviejo, n.registroNuevo_parv ht,
    if_pos hviejo, List.append_nil]

/-- A new record at the hub. -/
theorem paso_nuevo (ht : Residente t) {n : Novedad t} (hn : x.hub.serie t < n.serie) :
    paso p (.novedad n) x =
      { x with
        hub := { x.hub with base := nuevoRegistro (memory p.hub []) true n.parv x.hub.base }
        ida := x.ida ++ if x.hub.esnetDb t then [n.aviso] else [] } := by
  have hnuevo : ¬n.serie ≤ (x.hub.base.tablas t).serie := Nat.not_le_of_lt hn
  simp only [paso, novedadDb, n.registroNuevo_parv ht, if_neg hnuevo, n.reenvio_parv]

/-- With the tap open everything is on its way. -/
theorem Coherente.al_dia (h : Coherente p ns vuelo x) (hgrifo : x.hub.esnetDb t = true) :
    (sello t).lastStamp (x.vecino.serie t) vuelo = x.hub.serie t := by
  cases h.canal with
  | abierto _ _ _ _ _ hserie => exact hserie
  | roto _ hcerrado | tanda _ hcerrado | peticion _ hcerrado =>
      exact absurd (hgrifo.symm.trans hcerrado) (by decide)

/-- The neighbour still follows the hub after a new record, which is not in flight yet. -/
theorem Coherente.sigue_nuevo (ht : Residente t) (h : Coherente p ns vuelo x) {n : Novedad t}
    (hcond : (Evento.novedad n).Conserva x) (hn : x.hub.serie t < n.serie) :
    (sello t).Follows ((sello t).after (x.hub.mapa t) [n]) n.serie
      (archivoTras (x.hub.mapa t) ns n) vuelo (x.vecino.mapa t) (x.vecino.serie t) := by
  refine Stamped.Follows.append (b := x.hub.serie t) ?_ hn
  split
  · next hclave =>
      refine h.sigue.compacted h.keeps fun c hc ↦ ?_
      rcases hcond.2 hclave with habierto | hprevisto
      · rw [h.sigue.after_eq h.keeps (h.al_dia habierto), hc]
      · rw [← h.previsto_eq ht]
        exact hprevisto c hc
  · exact h.sigue

theorem Coherente.novedad (ht : Residente t) (h : Coherente p ns vuelo x) {n : Novedad t}
    (hcomun : n.Comun p) (hcond : (Evento.novedad n).Conserva x) :
    ∃ ns' vuelo' : List (Novedad t), Coherente p ns' vuelo' (paso p (.novedad n) x) := by
  by_cases hn : n.serie ≤ x.hub.serie t
  · rw [paso_viejo ht hn]
    exact ⟨ns, vuelo, h⟩
  · have hn' : x.hub.serie t < n.serie := Nat.lt_of_not_le hn
    have hmapa := mapa_nuevoRegistro ht hcomun.1 hn'
    have hserie := serie_nuevoRegistro ht (memory p.hub []) hn'
    have harchivo := h.archivo.nuevo ht hcomun.1 hn' hcond.1
    have hsigue := h.sigue_nuevo ht hcond hn'
    have hcomun' : ∀ a ∈ archivoTras (x.hub.mapa t) ns n, a.Comun p := by
      intro a ha
      rcases mem_archivoTras ha with ha | rfl
      exacts [h.comun a ha, hcomun]
    have hkeeps : (sello t).Keeps ((sello t).after (x.hub.mapa t) [n]) n.serie
        (archivoTras (x.hub.mapa t) ns n) := by
      have hguarda := harchivo.guarda
      rwa [hmapa, hserie] at hguarda
    have hsigue' {vuelo : List (Novedad t)} (hsigue : (sello t).Follows
        ((sello t).after (x.hub.mapa t) [n]) n.serie (archivoTras (x.hub.mapa t) ns n) vuelo
        (x.vecino.mapa t) (x.vecino.serie t)) :
        (sello t).Follows ((nuevoRegistro (memory p.hub []) true n.parv x.hub.base).tablas t).mapa
          ((nuevoRegistro (memory p.hub []) true n.parv x.hub.base).tablas t).serie
          (archivoTras (x.hub.mapa t) ns n) vuelo (x.vecino.mapa t) (x.vecino.serie t) := by
      rw [hmapa, hserie]
      exact hsigue
    have hnada (hgrifo : x.hub.esnetDb t = false) :
        (x.ida ++ if x.hub.esnetDb t then [n.aviso] else []) = x.ida := by
      simp [hgrifo]
    rw [paso_nuevo ht hn']
    cases h.canal with
    | abierto harriba hgrifo hsaluda hida hvuelta hdia =>
        have hresto : (sello t).newer ((sello t).lastStamp (x.vecino.serie t) vuelo)
            (archivoTras (x.hub.mapa t) ns n) = [n] ++ [] := by
          rw [hdia, archivoTras, Stamped.newer_append, Stamped.newer_singleton _ hn',
            Stamped.newer_eq_nil, List.nil_append, List.append_nil]
          intro a ha
          split at ha
          · exact h.keeps.stamp_le a (List.mem_of_mem_filter ha)
          · exact h.keeps.stamp_le a ha
        refine ⟨_, vuelo ++ [n], h.vivo, harchivo, hcomun', ?_, hsigue' (hsigue.send hkeeps hresto),
          .abierto harriba hgrifo hsaluda ?_ hvuelta ?_⟩
        · rw [List.forall_mem_append, List.forall_mem_singleton]
          exact ⟨h.comun_vuelo, hcomun⟩
        · simp only [hgrifo, if_true, hida, List.map_append, List.map_cons, List.map_nil,
            List.append_assoc]
        · rw [Stamped.lastStamp_append_singleton]
          exact hserie.symm
    | roto harriba hgrifo hvuelo hida hvuelta =>
        exact ⟨_, vuelo, h.vivo, harchivo, hcomun', h.comun_vuelo, hsigue' hsigue,
          .roto harriba hgrifo hvuelo ((hnada hgrifo).trans hida) hvuelta⟩
    | tanda harriba hgrifo hsaluda hida hvuelta =>
        exact ⟨_, vuelo, h.vivo, harchivo, hcomun', h.comun_vuelo, hsigue' hsigue,
          .tanda harriba hgrifo hsaluda ((hnada hgrifo).trans hida) hvuelta⟩
    | peticion harriba hgrifo hsaluda hvuelo hida hdestino hc hvuelta =>
        exact ⟨_, vuelo, h.vivo, harchivo, hcomun', h.comun_vuelo, hsigue' hsigue,
          .peticion harriba hgrifo hsaluda hvuelo ((hnada hgrifo).trans hida) hdestino hc hvuelta⟩

/-- The neighbour takes a record. -/
theorem Coherente.sigue_registro (ht : Residente t) {n : Novedad t}
    (h : Coherente p ns (n :: vuelo) x) :
    let base := nuevoRegistro (memory p.vecino []) true n.parv x.vecino.base
    (sello t).Follows (x.hub.mapa t) (x.hub.serie t) ns vuelo (base.tablas t).mapa
      (base.tablas t).serie := by
  have hn : x.vecino.serie t < n.serie := (h.sigue.bounds n (List.mem_cons_self ..)).1
  have hcomun := h.comun_vuelo n (List.mem_cons_self ..)
  simp only [mapa_nuevoRegistro ht hcomun.2 hn, serie_nuevoRegistro ht _ hn]
  exact h.sigue.deliver

/-- What the arrival of a message from the hub leaves when the message is a record. -/
theorem paso_registro {n : Novedad t} {ida : List CStr} (hn : n.serie ≠ 0)
    (hida : x.ida = n.aviso :: ida) :
    paso (t := t) p .alVecino x =
      { x with
        vecino :=
          { x.vecino with base := nuevoRegistro (memory p.vecino []) true n.parv x.vecino.base }
        ida := ida } := by
  simp only [paso, hida, mDb_aviso _ _ n hn, List.append_nil]

/-- What the arrival of the announcement of the hub leaves. -/
theorem paso_saludo (ht : Residente t) {n : Nat} {ida : List CStr} (hs : x.vecino.serie t ≤ n)
    (hn : n < 2 ^ 32)
    (hida : x.ida = textoOrden ['*'] ['J'] (decimal n) (letraUnion t) :: ida) :
    paso (t := t) p .alVecino x =
      { x with vecino := x.vecino.grifo t true, ida := ida } := by
  have hJ := mDb_J ht (memory p.vecino []) p.hub true (show Middle ['*'] by decide) hn
    (letra_letraUnion t) x.vecino
  simp only [paso, hida, hJ, ordenJ, if_pos hs, List.append_nil]

/-- What the end of a burst makes the neighbour ask for. -/
theorem paso_tanda (ht : Residente t) {n : Nat} {ida : List CStr}
    (hida : x.ida = textoOrden p.vecino ['B'] (decimal n) t :: ida) :
    paso (t := t) p .alVecino x =
      { x with
        ida := ida
        vuelta := x.vuelta ++ [textoOrden p.hub ['J'] (decimal (x.vecino.serie t)) t] } := by
  simp only [paso, hida, mDb_B ht (memory p.vecino []) p.hub p.middle_vecino]

/-- A message arrives at the neighbour. -/
theorem Coherente.alVecino (ht : Residente t) (h : Coherente p ns vuelo x) :
    ∃ vuelo' : List (Novedad t), Coherente p ns vuelo' (paso (t := t) p .alVecino x) := by
  have hserie (n : Novedad t) (hn : n ∈ vuelo) : n.serie ≠ 0 := by
    have hbound := (h.sigue.bounds n hn).1
    rw [sello_stamp] at hbound
    omega
  have hvacio (hida : x.ida = []) : paso (t := t) p .alVecino x = x := by simp only [paso, hida]
  cases h.canal with
  | roto harriba hgrifo hvuelo hida hvuelta =>
      rw [hvacio hida]
      exact ⟨vuelo, h⟩
  | abierto harriba hgrifo hsaluda hida hvuelta hdia =>
      cases hsaluda with
      | ninguno =>
          cases vuelo with
          | nil =>
              rw [hvacio hida]
              exact ⟨[], h⟩
          | cons n vuelo =>
              have hn := (h.sigue.bounds n (List.mem_cons_self ..)).1
              have hserie' := serie_nuevoRegistro ht (memory p.vecino []) hn
              have hdia' := (congrArg ((sello t).lastStamp · vuelo) hserie').trans hdia
              rw [paso_registro (hserie n (List.mem_cons_self ..)) hida]
              exact ⟨vuelo, h.vivo, h.archivo, h.comun, (List.forall_mem_cons.mp h.comun_vuelo).2,
                h.sigue_registro ht, .abierto harriba hgrifo .ninguno rfl hvuelta hdia'⟩
      | serie hs hn =>
          rw [paso_saludo ht hs hn hida]
          exact ⟨vuelo, h.vivo, h.archivo, h.comun, h.comun_vuelo, h.sigue,
            .abierto harriba hgrifo .ninguno rfl hvuelta hdia⟩
  | tanda harriba hgrifo hsaluda hida hvuelta =>
      cases hsaluda with
      | ninguno =>
          cases vuelo with
          | nil =>
              rw [paso_tanda ht hida]
              exact ⟨[], h.vivo, h.archivo, h.comun, h.comun_vuelo, h.sigue,
                .peticion harriba hgrifo .ninguno rfl rfl p.middle_hub (.inl rfl)
                  (by rw [hvuelta, List.nil_append])⟩
          | cons n vuelo =>
              rw [paso_registro (hserie n (List.mem_cons_self ..)) hida]
              exact ⟨vuelo, h.vivo, h.archivo, h.comun, (List.forall_mem_cons.mp h.comun_vuelo).2,
                h.sigue_registro ht, .tanda harriba hgrifo .ninguno rfl hvuelta⟩
      | serie hs hn =>
          rw [paso_saludo ht hs hn hida]
          exact ⟨vuelo, h.vivo, h.archivo, h.comun, h.comun_vuelo, h.sigue,
            .tanda harriba hgrifo .ninguno rfl hvuelta⟩
  | peticion harriba hgrifo hsaluda hvuelo hida hdestino hc hvuelta =>
      cases hsaluda with
      | ninguno =>
          rw [hvacio hida]
          exact ⟨vuelo, h⟩
      | serie hs hn =>
          rw [paso_saludo ht hs hn hida]
          exact ⟨vuelo, h.vivo, h.archivo, h.comun, h.comun_vuelo, h.sigue,
            .peticion harriba hgrifo .ninguno hvuelo rfl hdestino hc hvuelta⟩

/-- What the hub makes of a request. -/
theorem paso_peticion (ht : Residente t) {s : Nat} {destino : CStr} {c : Char}
    (hdestino : Middle destino) (hs : s < 2 ^ 32) (hc : Letra t c)
    (hvuelta : x.vuelta = [textoOrden destino ['J'] (decimal s) c]) :
    paso (t := t) p .alHub x =
      match ordenJ p.vecino t s x.hub with
      | none => { x with muerto := true }
      | some (hub, avisos) => { x with hub := hub, vuelta := [], ida := x.ida ++ avisos } := by
  have hJ := mDb_J ht (memory p.hub []) p.vecino false hdestino hs hc x.hub
  cases hresultado : ordenJ p.vecino t s x.hub with
  | none => simp only [paso, hvuelta, hJ, hresultado]
  | some r => simp only [paso, hvuelta, hJ, hresultado]

/-- The burst of the hub. -/
theorem Coherente.ordenJ_rafaga (h : Coherente p ns vuelo x) {s : Nat}
    (hs : s < x.hub.serie t) (hgrifo : x.hub.esnetDb t = false) :
    ordenJ p.vecino t s x.hub =
      let ms := (sello t).newer s ns
      if maxRafaga - ms.length ≠ 0 then
        some (x.hub.grifo t true, (ms.take maxRafaga).map Novedad.aviso)
      else
        some (x.hub, (ms.take maxRafaga).map Novedad.aviso ++
          [textoOrden p.vecino ['B'] (decimal (x.hub.serie t)) t]) := by
  have hms : (sello t).newer s ns ≠ [] :=
    (sello t).newer_ne_nil (Nat.zero_le s) (by rw [← h.keeps.last]; exact hs)
  have hlineas := h.archivo.lineasDesde_eq s
  obtain ⟨n, ms, hcons⟩ := List.exists_cons_of_ne_nil hms
  have hrafaga := rafaga_novedades maxRafaga ((sello t).newer s ns)
  rw [hcons, List.map_cons] at hlineas hrafaga
  rw [ordenJ, if_neg (by omega), if_neg (by simp [hgrifo]), hlineas]
  simp only [hrafaga, hcons]

/-- A message arrives at the hub. -/
theorem Coherente.alHub (ht : Residente t) (h : Coherente p ns vuelo x) :
    ∃ vuelo' : List (Novedad t), Coherente p ns vuelo' (paso (t := t) p .alHub x) := by
  have hvacio (hvuelta : x.vuelta = []) : paso (t := t) p .alHub x = x := by
    simp only [paso, hvuelta]
  cases h.canal with
  | roto _ _ _ _ hvuelta | abierto _ _ _ _ hvuelta | tanda _ _ _ _ hvuelta =>
      rw [hvacio hvuelta]
      exact ⟨vuelo, h⟩
  | peticion harriba hgrifo hsaluda hvuelo hida hdestino hc hvuelta =>
      subst hvuelo
      have hle := h.sigue.le
      have hlt : x.vecino.serie t < 2 ^ 32 := Nat.lt_of_le_of_lt hle h.archivo.serie_lt
      rw [paso_peticion ht hdestino hlt hc hvuelta]
      by_cases hs : x.hub.serie t ≤ x.vecino.serie t
      · have hJ : ordenJ p.vecino t (x.vecino.serie t) x.hub = some (x.hub.grifo t true, []) :=
          if_pos hs
        rw [hJ]
        have hgrifo' : (x.hub.grifo t true).esnetDb t = true := Function.update_self ..
        exact ⟨[], h.vivo, h.archivo, h.comun, by simp, h.sigue,
          .abierto harriba hgrifo' hsaluda (by simp [hida]) rfl (Nat.le_antisymm hle hs)⟩
      · have hs' : x.vecino.serie t < x.hub.serie t := Nat.lt_of_not_le hs
        have hpartes : (sello t).newer ((sello t).lastStamp (x.vecino.serie t) []) ns
            = ((sello t).newer (x.vecino.serie t) ns).take maxRafaga ++
              ((sello t).newer (x.vecino.serie t) ns).drop maxRafaga :=
          (List.take_append_drop ..).symm
        have hsigue := h.sigue.send h.keeps hpartes
        rw [List.nil_append] at hsigue
        have hcomun : ∀ n ∈ ((sello t).newer (x.vecino.serie t) ns).take maxRafaga, n.Comun p :=
          fun n hn ↦ h.comun n (List.mem_of_mem_filter (List.mem_of_mem_take hn))
        rw [h.ordenJ_rafaga hs' hgrifo]
        by_cases hcabe : maxRafaga - ((sello t).newer (x.vecino.serie t) ns).length ≠ 0
        · have htodos : ((sello t).newer (x.vecino.serie t) ns).take maxRafaga
              = (sello t).newer (x.vecino.serie t) ns := List.take_of_length_le (by omega)
          have hultimo := (sello t).lastStamp_newer h.keeps.sorted
            ((sello t).newer_ne_nil (Nat.zero_le _) (h.keeps.last ▸ hs')) 0
          have hgrifo' : (x.hub.grifo t true).esnetDb t = true := Function.update_self ..
          simp only [if_pos hcabe]
          refine ⟨_, h.vivo, h.archivo, h.comun, hcomun, hsigue,
            .abierto harriba hgrifo' hsaluda (by rw [hida]) rfl ?_⟩
          rw [htodos]
          exact hultimo.trans h.keeps.last.symm
        · simp only [if_neg hcabe]
          exact ⟨_, h.vivo, h.archivo, h.comun, hcomun, hsigue,
            .tanda harriba hgrifo hsaluda (by rw [hida]) rfl⟩

/-- The link breaks. -/
theorem Coherente.corte (h : Coherente p ns vuelo x)
    (hcond : (Evento.corte : Evento t).Conserva x) :
    ∃ vuelo' : List (Novedad t), Coherente p ns vuelo' (paso (t := t) p .corte x) := by
  have hpierde : (sello t).Follows (x.hub.mapa t) (x.hub.serie t) ns [] (x.vecino.mapa t)
      (x.vecino.serie t) := by
    cases harriba : x.arriba with
    | false =>
        have hvuelo : vuelo = [] := by
          cases h.canal with
          | roto _ _ hvuelo => exact hvuelo
          | abierto harriba' | tanda harriba' | peticion harriba' =>
              exact absurd (harriba.symm.trans harriba') (by decide)
        exact hvuelo ▸ h.sigue
    | true =>
        refine h.sigue.drop h.keeps fun c hc hn ↦ ?_
        obtain ⟨buf, hbuf, q, hq, hclave, hentrada⟩ := hcond harriba c hc hn
        rw [h.archivo.lineasDesde_eq, List.mem_map] at hbuf
        obtain ⟨n, hnuevo, rfl⟩ := hbuf
        rw [parteRegistro_texto_nil, n.registro] at hq
        obtain rfl := Option.some.inj hq
        refine ⟨(c, none), List.mem_filterMap.mpr ⟨n, hnuevo, ?_⟩, rfl⟩
        rw [sello_effect, Novedad.efecto, if_neg hclave]
        exact congrArg some hentrada
  exact ⟨[], h.vivo, h.archivo, h.comun, by simp, hpierde, .roto rfl rfl rfl rfl rfl⟩

/-- The link comes up. -/
theorem Coherente.union (h : Coherente p ns vuelo x) :
    ∃ vuelo' : List (Novedad t), Coherente p ns vuelo' (paso (t := t) p .union x) := by
  rw [paso]
  split
  · exact ⟨vuelo, h⟩
  · next hroto =>
      cases h.canal with
      | roto _ _ hvuelo =>
          subst hvuelo
          exact ⟨[], h.vivo, h.archivo, h.comun, by simp, h.sigue,
            .peticion rfl rfl (.serie h.sigue.le h.archivo.serie_lt) rfl rfl
              (show Middle ['*'] by decide) (letra_letraUnion t) rfl⟩
      | abierto harriba | tanda harriba | peticion harriba => exact absurd harriba hroto

/-- The invariant at the start. -/
theorem coherente_inicial (p : Servidores) : Coherente p ([] : List (Novedad t)) [] .inicial := by
  have hvacia : (Tabla.vacia t).mapa = Log.empty := funext fun c ↦ Chains.lookup_empty c
  have hguarda : (sello t).Keeps (Tabla.vacia t).mapa 0 [] :=
    ⟨List.Pairwise.nil, hvacia.symm, rfl⟩
  refine ⟨rfl, ⟨rfl, by simp, hguarda⟩, by simp, by simp,
    ⟨le_rfl, List.Pairwise.nil, by simp, ?_, rfl⟩, .roto rfl rfl rfl rfl rfl⟩
  intro c v hc _
  exact hc

/-- One step. -/
theorem Coherente.paso (ht : Residente t) (h : Coherente p ns vuelo x) {e : Evento t}
    (hcomun : ∀ n, e = .novedad n → n.Comun p) (hcond : e.Conserva x) :
    ∃ ns' vuelo' : List (Novedad t), Coherente p ns' vuelo' (paso p e x) := by
  cases e with
  | novedad n => exact h.novedad ht (hcomun n rfl) hcond
  | alVecino => exact ⟨ns, h.alVecino ht⟩
  | alHub => exact ⟨ns, h.alHub ht⟩
  | corte => exact ⟨ns, h.corte hcond⟩
  | union => exact ⟨ns, h.union⟩

/-! ## Runs -/

theorem middle_estrella : Middle ['*'] := by decide

theorem middle_botsDb : Middle [BDD_BOTSDB] := by decide

/-- A record of the table of bots. -/
def novedadBot (serie : Nat) (hserie : serie < 2 ^ 32) (clave : CStr) (valor : Option CStr)
    (hclave : Word clave) (hmiddle : Middle clave) (hvalor : ∀ v ∈ valor, v ≠ [] ∧ Plain v)
    (hcola : Plain (clave ++ textoValor valor)) : Novedad 'b' where
  toLinea := .paraTodos 'b' word_botsDb serie hserie (clave ++ textoValor valor) hcola
  clave := clave
  valor := valor
  tiene := ⟨hclave, hvalor, rfl⟩
  middle_destino := middle_estrella
  middle_tabla := middle_botsDb
  middle_clave := hmiddle

/-- The name of a bot, its deletion and the record of compaction after it. -/
def altaBot : Novedad 'b' :=
  novedadBot 10 (by decide) ['k'] (some ['v']) (by decide) (by decide) (by decide) (by decide)

def bajaBot : Novedad 'b' :=
  novedadBot 20 (by decide) ['k'] none (by decide) (by decide) (by decide) (by decide)

def compactaBots : Novedad 'b' :=
  novedadBot 30 (by decide) ['*'] none word_estrella middle_estrella (by decide) (by decide)

/-- Two servers. -/
def dosServidores : Servidores :=
  ⟨"hub".toList, "leaf".toList, by decide, by decide⟩

/-- The neighbour takes the name and its deletion, and the hub compacts with the tap open. -/
def corridaEntera : List (Evento 'b') :=
  [.union, .alHub, .alVecino, .novedad altaBot, .alVecino, .novedad bajaBot, .alVecino,
    .novedad compactaBots, .alVecino]

/-- In every run that loses no deletion no server dies, and the two tables hold the same keys with
the same values whenever their serials are equal. -/
theorem tables_converge (p : Servidores) (ht : Residente t) (l : List (Evento t))
    (hl : Run.EveryStep (paso p)
      (fun e x ↦ (∀ n, e = .novedad n → n.Comun p) ∧ e.Conserva x) .inicial l) :
    let x := Run.final (paso p) .inicial l
    x.muerto = false ∧ (x.vecino.serie t = x.hub.serie t →
      (x.vecino.base.tablas t).datos.entries = (x.hub.base.tablas t).datos.entries) := by
  obtain ⟨ns, vuelo, h⟩ := Run.invariant_final
    (P := fun x ↦ ∃ ns vuelo : List (Novedad t), Coherente p ns vuelo x)
    (fun e x ⟨_, _, h⟩ ⟨hcomun, hcond⟩ ↦ h.paso ht hcomun hcond)
    ⟨[], [], coherente_inicial p⟩ hl
  exact ⟨h.vivo, fun hserie ↦ Chains.entries_eq_iff.mpr (h.sigue.eq h.keeps hserie)⟩

/-- The table after a run that loses nothing. -/
theorem tables_converge_bot :
    let x := Run.final (paso dosServidores) .inicial corridaEntera
    (x.vecino.base.tablas 'b').datos.entries = (x.hub.base.tablas 'b').datos.entries := by
  have hcomun : ∀ n ∈ [altaBot, bajaBot, compactaBots], n.Comun dosServidores := by
    unfold Novedad.Comun
    decide
  have hnovedad (m : Novedad 'b') (hm : m ∈ [altaBot, bajaBot, compactaBots]) :
      ∀ n, Evento.novedad m = .novedad n → n.Comun dosServidores := by
    rintro n ⟨⟩
    exact hcomun m hm
  exact (tables_converge dosServidores (show Residente 'b' by decide) corridaEntera
    ⟨⟨nofun, trivial⟩, ⟨nofun, trivial⟩, ⟨nofun, trivial⟩,
      ⟨hnovedad altaBot (by simp), by decide, fun h ↦ absurd h (by decide)⟩, ⟨nofun, trivial⟩,
      ⟨hnovedad bajaBot (by simp), by decide, fun h ↦ absurd h (by decide)⟩, ⟨nofun, trivial⟩,
      ⟨hnovedad compactaBots (by simp), by decide, fun _ ↦ .inl (by decide +kernel)⟩,
      ⟨nofun, trivial⟩, trivial⟩).2 (by decide +kernel)

/-- The neighbour takes the name, and the link is down when the hub deletes it and compacts. -/
def corridaPerdida : List (Evento 'b') :=
  [.union, .alHub, .alVecino, .novedad altaBot, .alVecino, .corte, .novedad bajaBot, .novedad compactaBots,
    .union, .alHub, .alVecino, .alVecino]

/-- The neighbour keeps the record of a deletion that was compacted away, under the serial of the
hub. -/
theorem tables_diverge :
    ¬∀ (p : Servidores) (t : Char), Residente t → ∀ l : List (Evento t),
      (∀ e ∈ l, ∀ n, e = .novedad n → n.Comun p ∧ n.texto.length ≤ maxLinea) →
        let x := Run.final (paso p) .inicial l
        x.vecino.serie t = x.hub.serie t →
          (x.vecino.base.tablas t).datos.entries = (x.hub.base.tablas t).datos.entries := by
  intro h
  have hcortas : ∀ e ∈ corridaPerdida, ∀ n, e = .novedad n →
      n.Comun dosServidores ∧ n.texto.length ≤ maxLinea := by
    have hnovedad : ∀ n ∈ [altaBot, bajaBot, compactaBots],
        n.Comun dosServidores ∧ n.texto.length ≤ maxLinea := by
      unfold Novedad.Comun
      decide
    rintro e he n rfl
    refine hnovedad n ?_
    simpa [corridaPerdida] using he
  have higuales := h dosServidores 'b' (by decide) corridaPerdida hcortas (by decide +kernel)
  have hmapas := congrFun (Chains.entries_eq_iff.mp higuales) (Clave.de ['k'])
  exact absurd hmapas (by decide +kernel)

end Ircd.Bdd
