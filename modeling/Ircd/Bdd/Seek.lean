import Ircd.Bdd.Fichero

/-!
# Searching the file of a table

`seekDb` looks for a record by bisection on the bytes of the file: it looks at the line around the
middle and goes on before or behind it. In a file whose serials increase, `seekDb_textoFichero`
finds the first line that is not older than the record.
-/

namespace Ircd.Bdd

open CString

variable {t : Char}

/-! ## The search -/

/-- The position where a line begins, going back from `medio` but not behind `plo`. -/
def inicioLinea (s : CStr) (plo medio : Nat) : Nat :=
  medio + 1 - (((s.take (medio + 1)).drop plo).reverse.takeWhile (· != '\n')).length

/-- The position behind the line end at `medio` or after it, and before `phi`. -/
def finDeLinea (s : CStr) (medio phi : Nat) : Nat :=
  phi - (((s.take phi).drop medio).dropWhile (· != '\n')).tail.length

/-- The loop of `seek_db`. The interval shrinks in each round, which bounds the fuel. -/
def buscaLinea (s : CStr) (registro : Nat) : Nat → Nat → Nat → Nat
  | 0, plo, _ => plo
  | fuel + 1, plo, phi =>
      if plo = phi then plo
      else
        let medio := plo + (phi - plo) / 2
        let p := inicioLinea s plo medio
        let v := toUnsigned (atol (s.drop p))
        if registro < v then buscaLinea s registro fuel plo p
        else if v < registro then buscaLinea s registro fuel (finDeLinea s medio phi) phi
        else p

/-- `seek_db`: the position from which `leer_db` reads. -/
def seekDb (s : CStr) (registro : Nat) : Nat :=
  if registro = 0 then 0 else buscaLinea s registro s.length 0 s.length

/-! ## Lines and positions -/

/-- The serials of the lines increase. -/
def Creciente (ls : List (Linea t)) : Prop :=
  ls.Pairwise fun l l' ↦ l.serie < l'.serie

/-- Before a line are older lines, and behind it newer ones. -/
theorem Creciente.antes_despues {as bs : List (Linea t)} {l : Linea t}
    (h : Creciente (as ++ l :: bs)) :
    (∀ a ∈ as, a.serie < l.serie) ∧ ∀ b ∈ bs, l.serie < b.serie := by
  obtain ⟨-, hresto, hentre⟩ := List.pairwise_append.mp h
  exact ⟨fun a ha ↦ hentre a ha l (List.mem_cons_self ..), (List.pairwise_cons.mp hresto).1⟩

/-- The position behind lines. -/
def posicion (ls : List (Linea t)) : Nat :=
  (textoFichero ls).length

theorem posicion_append (ls ms : List (Linea t)) :
    posicion (ls ++ ms) = posicion ls + posicion ms := by
  rw [posicion, textoFichero_append, List.length_append]
  rfl

theorem drop_posicion (ls ms : List (Linea t)) :
    (textoFichero (ls ++ ms)).drop (posicion ls) = textoFichero ms := by
  rw [textoFichero_append]
  exact List.drop_left

/-- A line is not empty, even without its serial. -/
theorem two_lt_posicion (l : Linea t) (ls : List (Linea t)) : 2 < posicion (l :: ls) := by
  simp only [posicion, textoFichero_cons, Linea.texto, List.length_append, List.length_cons]
  omega

/-- Each position in lines is in one of them. -/
theorem linea_of_lt_posicion {ls : List (Linea t)} {k : Nat} (hk : k < posicion ls) :
    ∃ (as : List (Linea t)) (l : Linea t) (bs : List (Linea t)) (u v : CStr) (c : Char),
      ls = as ++ l :: bs ∧ l.texto ++ ['\n'] = u ++ c :: v ∧ k = posicion as + u.length := by
  induction ls generalizing k with
  | nil => simp [posicion] at hk
  | cons l ls ih =>
      by_cases hl : k < (l.texto ++ ['\n']).length
      · refine ⟨[], l, ls, (l.texto ++ ['\n']).take k, (l.texto ++ ['\n']).drop (k + 1),
          (l.texto ++ ['\n'])[k], rfl, ?_, ?_⟩
        · rw [← List.drop_eq_getElem_cons hl, List.take_append_drop]
        · rw [List.length_take_of_le hl.le]
          simp [posicion]
      · have hlen : (l.texto ++ ['\n']).length = posicion [l] := by simp [posicion]
        have htotal : posicion (l :: ls) = posicion [l] + posicion ls := posicion_append [l] ls
        obtain ⟨as, l', bs, u, v, c, rfl, htexto, hpos⟩ :=
          ih (show k - posicion [l] < posicion ls by omega)
        refine ⟨l :: as, l', bs, u, v, c, rfl, htexto, ?_⟩
        have has : posicion (l :: as) = posicion [l] + posicion as := posicion_append [l] as
        omega

/-- The text of a line with its end, cut in two: the end is in the second part. -/
theorem corte_linea {l : Linea t} {u v : CStr} {c : Char} (h : l.texto ++ ['\n'] = u ++ c :: v) :
    '\n' ∉ u ∧ (c = '\n' ∧ v = [] ∨ c ≠ '\n' ∧ ∃ w, v = w ++ ['\n'] ∧ '\n' ∉ w) := by
  have hplain : '\n' ∉ l.texto := l.plain.1
  have hu : u.length ≤ l.texto.length := by
    have hlen := congrArg List.length h
    simp only [List.length_append, List.length_cons, List.length_nil] at hlen
    omega
  obtain ⟨w, hw⟩ : ∃ w, l.texto = u ++ w :=
    (List.prefix_of_prefix_length_le (List.prefix_append u (c :: v))
      (h ▸ List.prefix_append l.texto ['\n']) hu).imp fun _ h ↦ h.symm
  rw [hw, List.append_assoc] at h
  have hresto := List.append_cancel_left h
  rw [hw, List.mem_append, not_or] at hplain
  refine ⟨hplain.1, ?_⟩
  cases w with
  | nil =>
      obtain ⟨hc, hv⟩ := List.cons.inj hresto
      exact .inl ⟨hc.symm, hv.symm⟩
  | cons d w =>
      obtain ⟨hd, hv⟩ := List.cons.inj hresto
      obtain ⟨hnd, hnw⟩ := not_or.mp (List.mem_cons.not.mp hplain.2)
      exact .inr ⟨fun hc ↦ hnd (hc ▸ hd.symm), w, hv.symm, hnw⟩

/-- A text without line ends behind lines, read backwards up to the line end. -/
theorem takeWhile_reverse_textoFichero (ls : List (Linea t)) {u : CStr} (hu : '\n' ∉ u) :
    (textoFichero ls ++ u).reverse.takeWhile (· != '\n') = u.reverse := by
  have hscan : ∀ x ∈ u.reverse, (x != '\n') = true :=
    bne_of_not_mem (fun h ↦ hu (List.mem_reverse.mp h))
  rw [List.reverse_append]
  rcases List.eq_nil_or_concat ls with rfl | ⟨ls, l, rfl⟩
  · rw [textoFichero_nil, List.reverse_nil, List.append_nil, List.takeWhile_eq_self_iff]
    exact hscan
  · have htexto : textoFichero (ls ++ [l]) = (textoFichero ls ++ l.texto) ++ ['\n'] := by
      simp [textoFichero_append]
    rw [List.concat_eq_append, htexto, List.reverse_append]
    exact takeWhile_stop _ hscan rfl

/-! ## One round -/

/-- The text between two positions. -/
theorem drop_take_append (s s' s'' : CStr) {i j : Nat} (hi : i = s.length)
    (hj : j = s.length + s'.length) : ((s ++ (s' ++ s'')).take j).drop i = s' := by
  subst hi hj
  rw [List.drop_take, List.drop_left, Nat.add_sub_cancel_left, List.take_left]

/-- The round finds a line of the interval, and ends behind it or, if the middle is the line end
before it, at its beginning. -/
theorem medio_linea (as : List (Linea t)) {ms : List (Linea t)} (bs : List (Linea t))
    (hms : ms ≠ []) :
    let s := textoFichero (as ++ (ms ++ bs))
    let medio := posicion as + posicion ms / 2
    ∃ (m₁ : List (Linea t)) (l : Linea t) (m₂ n₁ n₂ : List (Linea t)),
      ms = m₁ ++ l :: m₂ ∧ ms = n₁ ++ n₂ ∧ n₁ ≠ [] ∧ (n₁ = m₁ ∨ n₁ = m₁ ++ [l]) ∧
        inicioLinea s (posicion as) medio = posicion (as ++ m₁) ∧
        finDeLinea s medio (posicion (as ++ ms)) = posicion (as ++ n₁) := by
  intro s medio
  obtain ⟨l₀, ms', rfl⟩ := List.exists_cons_of_ne_nil hms
  have hlargo := two_lt_posicion l₀ ms'
  obtain ⟨m₁, l, m₂, u, v, c, hpartes, htexto, hk⟩ :=
    linea_of_lt_posicion (show posicion (l₀ :: ms') / 2 < posicion (l₀ :: ms') by omega)
  have hlinea : posicion [l] = u.length + 1 + v.length := by
    have hlen := congrArg List.length htexto
    simp only [List.length_append, List.length_cons, List.length_nil] at hlen
    simp only [posicion, textoFichero_cons, textoFichero_nil, List.length_append, List.length_cons,
      List.length_nil]
    omega
  have hms' : posicion (l₀ :: ms') = posicion m₁ + (posicion [l] + posicion m₂) := by
    rw [hpartes, posicion_append, ← posicion_append [l] m₂]
    rfl
  have hs : s = textoFichero as ++ ((textoFichero m₁ ++ u ++ [c]) ++
      (v ++ textoFichero m₂ ++ textoFichero bs)) := by
    have hcons : textoFichero (l :: m₂) = u ++ c :: v ++ textoFichero m₂ := by
      rw [← htexto]
      simp
    show textoFichero (as ++ (l₀ :: ms' ++ bs)) = _
    rw [textoFichero_append, textoFichero_append, hpartes, textoFichero_append, hcons]
    simp
  have hs' : s = (textoFichero as ++ (textoFichero m₁ ++ u)) ++ (c :: v ++ textoFichero m₂ ++
      textoFichero bs) := by
    rw [hs]
    simp
  have hlen (ls : List (Linea t)) : (textoFichero ls).length = posicion ls := rfl
  have hantes : (s.take (medio + 1)).drop (posicion as) = textoFichero m₁ ++ u ++ [c] := by
    rw [hs]
    refine drop_take_append _ _ _ rfl ?_
    simp only [medio, hk, List.length_append, List.length_cons, List.length_nil, hlen]
    omega
  have hdespues : (s.take (posicion (as ++ l₀ :: ms'))).drop medio = c :: v ++ textoFichero m₂ := by
    rw [hs']
    refine drop_take_append _ _ _ ?_ ?_
    · simp only [medio, hk, List.length_append, hlen]
    · rw [posicion_append, hms', hlinea]
      simp only [List.length_append, List.length_cons, hlen]
      omega
  obtain ⟨hu, hc⟩ := corte_linea htexto
  have hfin : (c :: v ++ textoFichero m₂).dropWhile (· != '\n') = '\n' :: textoFichero m₂ := by
    rcases hc with ⟨rfl, rfl⟩ | ⟨hc, w, rfl, hw⟩
    · exact List.dropWhile_cons_of_neg (by simp)
    · have hscan := dropWhile_stop (p := (· != '\n')) (textoFichero m₂)
        (bne_of_not_mem (show '\n' ∉ c :: w by simp [hw, Ne.symm hc])) (c := '\n') rfl
      simpa using hscan
  have hfinal : finDeLinea s medio (posicion (as ++ l₀ :: ms')) = posicion (as ++ (m₁ ++ [l])) := by
    rw [finDeLinea, hdespues, hfin, List.tail_cons]
    simp only [posicion_append, hms', hlen]
    omega
  rcases hc with ⟨rfl, rfl⟩ | ⟨hc, -⟩
  · -- the middle is a line end: the line found is the next one
    have hinicio : inicioLinea s (posicion as) medio = posicion (as ++ (m₁ ++ [l])) := by
      rw [inicioLinea, hantes, List.reverse_append, List.reverse_singleton, List.singleton_append,
        List.takeWhile_cons_of_neg (by simp)]
      simp only [posicion_append, List.length_nil, medio, hk, hlinea]
      omega
    obtain ⟨l', m₂', rfl⟩ : ∃ l' m₂', m₂ = l' :: m₂' := by
      refine List.exists_cons_of_ne_nil fun hvacio ↦ ?_
      simp only [hvacio, posicion, textoFichero_nil, List.length_nil] at hms' hlinea hlargo hk
      omega
    refine ⟨m₁ ++ [l], l', m₂', m₁ ++ [l], l' :: m₂', ?_, ?_, by simp, .inl rfl, hinicio, hfinal⟩
    · simp [hpartes]
    · simp [hpartes]
  · have hinicio : inicioLinea s (posicion as) medio = posicion (as ++ m₁) := by
      have hno : '\n' ∉ u ++ [c] := by simp [hu, Ne.symm hc]
      rw [inicioLinea, hantes, List.append_assoc, takeWhile_reverse_textoFichero m₁ hno]
      simp only [posicion_append, List.length_reverse, List.length_append, List.length_cons,
        List.length_nil, medio, hk]
      omega
    exact ⟨m₁, l, m₂, m₁ ++ [l], m₂, hpartes, by simp [hpartes], by simp, .inr rfl, hinicio, hfinal⟩

/-! ## The whole search -/

/-- The loop ends at the first line that is not older than the record. -/
theorem buscaLinea_textoFichero (registro : Nat) {fuel : Nat} (as ms bs : List (Linea t))
    (horden : Creciente (as ++ (ms ++ bs))) (hfuel : posicion ms ≤ fuel)
    (has : ∀ l ∈ as, l.serie < registro) (hbs : ∀ l ∈ bs, registro < l.serie) :
    ∃ xs ys : List (Linea t), as ++ (ms ++ bs) = xs ++ ys ∧
      buscaLinea (textoFichero (as ++ (ms ++ bs))) registro fuel (posicion as)
        (posicion (as ++ ms)) = posicion xs ∧
      (∀ l ∈ xs, l.serie < registro) ∧ ∀ l ∈ ys, registro ≤ l.serie := by
  induction fuel generalizing as ms bs with
  | zero =>
      cases ms with
      | nil => exact ⟨as, bs, rfl, rfl, has, fun l hl ↦ (hbs l hl).le⟩
      | cons l ms =>
          have hlargo := two_lt_posicion l ms
          omega
  | succ fuel ih =>
      by_cases hms : ms = []
      · subst hms
        refine ⟨as, bs, rfl, ?_, has, fun l hl ↦ (hbs l hl).le⟩
        rw [List.append_nil, buscaLinea, if_pos rfl]
      · obtain ⟨m₁, l, m₂, n₁, n₂, hpartes, hpartes', hn₁, hn, hinicio, hfin⟩ :=
          medio_linea as bs hms
        have hphi : posicion (as ++ ms) = posicion as + posicion ms := posicion_append as ms
        have hlargo : 2 < posicion ms := by
          rw [hpartes, posicion_append]
          have := two_lt_posicion l m₂
          omega
        have hserie : toUnsigned (atol ((textoFichero (as ++ (ms ++ bs))).drop
            (posicion (as ++ m₁)))) = l.serie := by
          have hlineas : as ++ (ms ++ bs) = (as ++ m₁) ++ (l :: (m₂ ++ bs)) := by simp [hpartes]
          rw [hlineas, drop_posicion, textoFichero_cons]
          exact l.atol_texto _
        have hlineas : as ++ (ms ++ bs) = (as ++ m₁) ++ l :: (m₂ ++ bs) := by simp [hpartes]
        obtain ⟨hantes, hdespues⟩ := (hlineas ▸ horden).antes_despues
        have hmitad : (posicion (as ++ ms) - posicion as) / 2 = posicion ms / 2 := by omega
        rw [buscaLinea, if_neg (by omega)]
        simp only [hmitad, hinicio, hfin, hserie]
        by_cases hmayor : registro < l.serie
        · have hcorte : as ++ (ms ++ bs) = as ++ (m₁ ++ (l :: (m₂ ++ bs))) := by simp [hpartes]
          have hmenos : posicion m₁ ≤ fuel := by
            have hl := two_lt_posicion l m₂
            rw [hpartes, posicion_append] at hfuel
            omega
          have hbs' : ∀ b ∈ l :: (m₂ ++ bs), registro < b.serie := by
            rw [List.forall_mem_cons]
            exact ⟨hmayor, fun b hb ↦ hmayor.trans (hdespues b hb)⟩
          rw [if_pos hmayor, hcorte]
          exact ih _ _ _ (hcorte ▸ horden) hmenos has hbs'
        · rw [if_neg hmayor]
          by_cases hmenor : l.serie < registro
          · have hcorte : as ++ (ms ++ bs) = (as ++ n₁) ++ (n₂ ++ bs) := by simp [hpartes']
            have hmenos : posicion n₂ ≤ fuel := by
              obtain ⟨l', n₁', rfl⟩ := List.exists_cons_of_ne_nil hn₁
              have hl' := two_lt_posicion l' n₁'
              rw [hpartes', posicion_append] at hfuel
              omega
            have has' : ∀ a ∈ as ++ n₁, a.serie < registro := by
              intro a ha
              have ha' : a ∈ as ++ m₁ ∨ a = l := by
                rcases hn with rfl | rfl
                · exact .inl ha
                · rw [← List.append_assoc, List.mem_append, List.mem_singleton] at ha
                  exact ha
              rcases ha' with ha' | rfl
              · exact (hantes a ha').trans hmenor
              · exact hmenor
            have hphi' : posicion (as ++ ms) = posicion ((as ++ n₁) ++ n₂) := by simp [hpartes']
            rw [if_pos hmenor, hcorte, hphi']
            exact ih _ _ _ (hcorte ▸ horden) hmenos has' hbs
          · have higual : l.serie = registro := by omega
            rw [if_neg hmenor]
            refine ⟨as ++ m₁, l :: (m₂ ++ bs), hlineas, rfl, fun a ha ↦ higual ▸ hantes a ha, ?_⟩
            rw [List.forall_mem_cons]
            exact ⟨higual.ge, fun b hb ↦ (higual ▸ hdespues b hb).le⟩

/-- The search finds the part of the file that is not older than the record. -/
theorem seekDb_textoFichero {ls : List (Linea t)} (horden : Creciente ls) (registro : Nat) :
    (textoFichero ls).drop (seekDb (textoFichero ls) registro)
      = textoFichero (ls.filter fun l ↦ decide (registro ≤ l.serie)) := by
  unfold seekDb
  split
  · next hcero =>
      have htodas : ∀ l ∈ ls, decide (registro ≤ l.serie) = true := fun l _ ↦ by simp [hcero]
      rw [List.filter_eq_self.mpr htodas, List.drop_zero]
  · obtain ⟨xs, ys, hlineas, hbusca, hxs, hys⟩ := buscaLinea_textoFichero registro [] ls []
      (by simpa using horden) le_rfl (by simp) (by simp)
    simp only [List.nil_append, List.append_nil] at hlineas hbusca
    have hxs' : ∀ l ∈ xs, ¬decide (registro ≤ l.serie) = true := by simpa using hxs
    have hys' : ∀ l ∈ ys, decide (registro ≤ l.serie) = true := by simpa using hys
    rw [show (textoFichero ls).length = posicion ls from rfl, show 0 = posicion ([] : List (Linea t))
      from rfl, hbusca, hlineas, drop_posicion, List.filter_append,
      List.filter_eq_nil_iff.mpr hxs', List.filter_eq_self.mpr hys', List.nil_append]

end Ircd.Bdd
