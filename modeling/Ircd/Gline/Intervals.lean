import Ircd.Gline.Kill

/-!
# The intervals of a K line

`check_time_interval` of `ircd/s_conf.c` with the text that it reads, where it ends each interval
with a zero and puts the comma back. The text comes out as it went in, but a denial is printed where
it should be written into `reply`, the five minutes ahead are not counted over midnight nor past the
end of an interval that is shorter, an interval that is near hides those behind it,
and `find_kill` refuses a user who is only told of an interval. `significan_iff` says for which
minutes none of this shows.
-/

namespace Ircd.Gline

open CString Match Addr Conf Hash

/-! ## The text that is read in place -/

/-- `strchr` from a position on: where the next `c` stands. -/
def indiceDe (text : CStr) (c : Char) (pos : Nat) : Option Nat :=
  ((text.drop pos).findIdx? (· = c)).map (pos + ·)

/-- The loop of `check_time_interval` from the position `interval` of the text on, with what it
returns, `reply` and the text. -/
def checkDesde (tm : Tm) : Nat → CStr → Nat → CStr → Option (Nat × CStr × CStr)
  | 0, _, _, _ => none
  | fuel + 1, text, interval, reply =>
      let p := indiceDe text ',' interval
      let cortado := match p with
        | some p => text.set p nul
        | none => text
      let puesto := match p with
        | some p => cortado.set p ','
        | none => cortado
      match scanIntervalo ((cortado.drop interval).takeWhile (· ≠ nul)) with
      | none => some (0, reply, puesto)
      | some i =>
          -- The format and its arguments go to `printf`, which leaves `reply` alone.
          if i.incluye tm.nowm then some (ERR_YOUREBANNEDCREEP, reply, puesto)
          else if i.incluye (tm.nowm + 5) then
            some (ERR_YOUWILLBEBANNED, aviso (i.permMin - tm.nowm), puesto)
          else
            match p with
            | some p => checkDesde tm fuel puesto (p + 1) reply
            | none => some (0, reply, puesto)

/-- `check_time_interval` with the text that it leaves. -/
def checkTexto (tm : Tm) (text reply : CStr) : Option (Nat × CStr × CStr) :=
  checkDesde tm (text.length + 1) text 0 reply

/-! ## What the intervals mean -/

/-- A number of two digits. -/
def dosCifras (n : Nat) : CStr :=
  [Nat.digitChar (n / 10), Nat.digitChar (n % 10)]

/-- A minute of the day, in hours and minutes. -/
def Tm.texto (t : Tm) : CStr :=
  dosCifras t.tmHour ++ dosCifras t.tmMin

/-- An interval of the day, which runs over midnight when it ends before it starts. -/
structure Franja where
  desde : Tm
  hasta : Tm
  distintas : desde.nowm ≠ hasta.nowm

namespace Franja

/-- `HHMM-HHMM`. -/
def texto (f : Franja) : CStr :=
  f.desde.texto ++ '-' :: f.hasta.texto

/-- A minute of the day lies in the interval: it is no further from its start than its end is. -/
def Contiene (f : Franja) (t : Tm) : Prop :=
  (t.nowm - f.desde.nowm) % 1440 ≤ (f.hasta.nowm - f.desde.nowm) % 1440

/-- The minutes until the interval begins, counted over midnight. -/
def faltan (f : Franja) (t : Tm) : Int :=
  (f.desde.nowm - t.nowm) % 1440

/-- The interval begins within the next five minutes. -/
def Empieza (f : Franja) (t : Tm) : Prop :=
  1 ≤ f.faltan t ∧ f.faltan t ≤ 5

/-- The numbers that are read of the interval. -/
def intervalo (f : Franja) : Intervalo :=
  ⟨f.desde.tmHour.val, f.desde.tmMin.val, f.hasta.tmHour.val, f.hasta.tmMin.val⟩

/-- What a user is to be told in the interval. -/
def denegacion (f : Franja) : CStr :=
  ":%s %d %s :You are not allowed to connect from ".toList ++ decimal f.desde.tmHour ++
    ':' :: dosCifras f.desde.tmMin ++ " to ".toList ++ decimal f.hasta.tmHour ++
    ':' :: dosCifras f.hasta.tmMin ++ ['.']

end Franja

/-- A list of intervals separated by commas. -/
def textoDe (fs : List Franja) : CStr :=
  [','].intercalate (fs.map Franja.texto)

/-- Some interval of the list contains the minute. -/
def Dentro (fs : List Franja) (t : Tm) : Prop :=
  ∃ f ∈ fs, f.Contiene t

/-- Some interval of the list begins within the next five minutes. -/
def Pronto (fs : List Franja) (t : Tm) : Prop :=
  ∃ f ∈ fs, f.Empieza t

/-- What `check_time_interval` is to say of a minute. -/
structure Dice (fs : List Franja) (t : Tm) (reply : CStr) (r : Nat × CStr × CStr) : Prop where
  deniega : r.1 = ERR_YOUREBANNEDCREEP ↔ Dentro fs t
  avisa : ¬Dentro fs t → (r.1 = ERR_YOUWILLBEBANNED ↔ Pronto fs t)
  texto : r.2.2 = textoDe fs
  replyDentro : Dentro fs t → ∃ f ∈ fs, f.Contiene t ∧ r.2.1 = f.denegacion
  replyPronto : ¬Dentro fs t → Pronto fs t →
    ∃ f ∈ fs, f.Empieza t ∧ r.2.1 = aviso (f.faltan t)
  replyNada : ¬Dentro fs t → ¬Pronto fs t → r.2.1 = reply

/-- The only K line of the configuration that matches a user has these intervals. -/
def SoloLinea (conf : List ConfItem) (cptr : Cliente) (fs : List Franja) : Prop :=
  ∃ antes tmp despues, conf = antes ++ tmp :: despues ∧ casaK cptr tmp = true ∧
    tmp.passwd = some (textoDe fs) ∧ ∀ otra ∈ antes ++ despues, casaK cptr otra = false

/-- The intervals mean what they say: `check_time_interval` says so, and `find_kill` refuses the
user of such a line at no other minute than those in the intervals. -/
def Significan (fs : List Franja) (t : Tm) : Prop :=
  (∀ reply, ∃ r, checkTexto t (textoDe fs) reply = some r ∧ Dice fs t reply r) ∧
  ∀ (e : Entorno) (u : Usuario) (s : Glines), e.tm = t → fs ≠ [] →
    e.findException u.toCliente = false → SoloLinea e.conf u.toCliente fs →
    (findKill e u.toCliente s).1 = -1 → Dentro fs t

/-! ## The text comes out as it went in -/

/-- `strchr` finds the first comma. -/
theorem indiceDe_eq {text campo cola : CStr} {pos : Nat} (h : text.drop pos = campo ++ ',' :: cola)
    (hcampo : ',' ∉ campo) : indiceDe text ',' pos = some (pos + campo.length) := by
  have hfind : (campo ++ ',' :: cola).findIdx? (· = ',') = some campo.length := by
    rw [List.findIdx?_append, List.findIdx?_cons, if_pos (by simp)]
    have hnone : campo.findIdx? (· = ',') = none := by
      rw [List.findIdx?_eq_none_iff]
      intro x hx
      exact decide_eq_false fun hcoma ↦ hcampo (hcoma ▸ hx)
    rw [hnone]
    simp
  rw [indiceDe, h, hfind]
  rfl

theorem indiceDe_none {text : CStr} {pos : Nat} (h : ',' ∉ text.drop pos) :
    indiceDe text ',' pos = none := by
  have hnone : (text.drop pos).findIdx? (· = ',') = none := by
    rw [List.findIdx?_eq_none_iff]
    intro x hx
    exact decide_eq_false fun hcoma ↦ h (hcoma ▸ hx)
  rw [indiceDe, hnone]
  rfl

/-- From a comma to the end of the text, or of the rest without one: the interval that is read. -/
theorem takeWhile_nul {campo : CStr} (h : nul ∉ campo) (cola : CStr) :
    (campo ++ nul :: cola).takeWhile (· ≠ nul) = campo := by
  refine takeWhile_stop cola (fun x hx ↦ ?_) (by simp)
  exact decide_eq_true fun hnul ↦ h (hnul ▸ hx)

/-- The loop reads what stands between the commas, and mends each comma. -/
theorem checkDesde_eq (tm : Tm) {text : CStr} (hnul : nul ∉ text) (fuel pos : Nat) (reply : CStr)
    (hpos : pos ≤ text.length) (hfuel : text.length < fuel + pos) :
    checkDesde tm fuel text pos reply =
      some ((checkCampos tm ((text.drop pos).splitOn ',') reply).1,
        (checkCampos tm ((text.drop pos).splitOn ',') reply).2, text) := by
  induction fuel generalizing pos reply with
  | zero => omega
  | succ fuel ih =>
      have hdrop : nul ∉ text.drop pos := fun h ↦ hnul (List.mem_of_mem_drop h)
      rw [checkDesde]
      by_cases hcoma : ',' ∈ text.drop pos
      · obtain ⟨campo, cola, heq, hcampo⟩ := List.eq_append_cons_of_mem hcoma
        have hlen : text.length - pos = campo.length + (cola.length + 1) := by
          rw [← List.length_drop, heq, List.length_append, List.length_cons]
        -- The comma is where the interval ends, and nothing else is written.
        have hcorta : (text.set (pos + campo.length) nul).drop pos = campo ++ nul :: cola := by
          rw [List.drop_set, if_neg (by omega), Nat.add_sub_cancel_left, heq,
            List.set_append_right _ _ le_rfl, Nat.sub_self, List.set_cons_zero]
        have hpone : (text.set (pos + campo.length) nul).set (pos + campo.length) ',' = text := by
          rw [List.set_set]
          refine List.ext_getElem? fun i ↦ ?_
          rw [List.getElem?_set]
          split_ifs with hi hlt
          · rw [← hi, ← List.getElem?_drop, heq, List.getElem?_append_right le_rfl, Nat.sub_self]
            rfl
          · omega
          · rfl
        have hcola : text.drop (pos + campo.length + 1) = cola := by
          rw [Nat.add_assoc, ← List.drop_drop, heq]
          simp
        have hlee := takeWhile_nul (fun h ↦ hdrop (heq ▸ List.mem_append_left _ h)) cola
        rw [indiceDe_eq heq hcampo, heq, List.splitOn_append_cons_self_of_not_mem hcampo]
        dsimp only
        rw [hcorta, hlee, hpone, checkCampos]
        cases scanIntervalo campo with
        | none => rfl
        | some i =>
            dsimp only
            split_ifs
            · rfl
            · rfl
            · rw [ih _ _ (by omega) (by omega), hcola]
      · have hlee : (text.drop pos).takeWhile (· ≠ nul) = text.drop pos :=
          List.takeWhile_eq_self_iff.mpr fun x hx ↦ decide_eq_true fun h ↦ hdrop (h ▸ hx)
        rw [indiceDe_none hcoma, List.splitOn_eq_singleton hcoma]
        dsimp only
        rw [hlee, checkCampos]
        cases scanIntervalo (text.drop pos) with
        | none => rfl
        | some i =>
            dsimp only
            split_ifs
            · rfl
            · rfl
            · rfl

/-- The text that is read in place is read as it is, and comes out as it went in. -/
theorem checkTexto_eq (tm : Tm) {text : CStr} (hnul : nul ∉ text) (reply : CStr) :
    checkTexto tm text reply = some ((checkTimeInterval tm text reply).1,
      (checkTimeInterval tm text reply).2, text) :=
  checkDesde_eq tm hnul _ 0 reply (Nat.zero_le _) (Nat.lt_succ_self _)

/-! ## What is read of the intervals -/

/-- Two digits are read back, whatever follows them. -/
theorem scanD_dosCifras {n : Nat} (hn : n < 100) (resto : CStr) :
    scanD (dosCifras n ++ resto) = some ((n : Int), resto) := by
  have htabla : ∀ m < 100, (Nat.digitChar (m / 10)).isDigit = true ∧
      (Nat.digitChar (m % 10)).isDigit = true ∧ Nat.ofDigitChars 10 (dosCifras m) 0 = m := by
    decide
  obtain ⟨hc, hd, hval⟩ := htabla n hn
  rw [dosCifras] at hval ⊢
  generalize Nat.digitChar (n / 10) = c at hc hval
  generalize Nat.digitChar (n % 10) = d at hd hval
  have hminus : c ≠ '-' := fun h ↦ absurd hc (by rw [h]; decide)
  have hplus : c ≠ '+' := fun h ↦ absurd hc (by rw [h]; decide)
  have hdrop : (c :: d :: resto).dropWhile isSpace = c :: d :: resto :=
    List.dropWhile_cons_of_neg (by rw [isSpace_of_isDigit hc]; exact Bool.false_ne_true)
  rw [List.cons_append, List.cons_append, List.nil_append, scanD, hdrop]
  split
  · next heq =>
      split at heq
      · next h => exact absurd (List.cons.inj h).1 hminus
      · next h => exact absurd (List.cons.inj h).1 hplus
      · cases heq
        simp [hc, hd, hval]

/-- The interval is read back. -/
theorem scanIntervalo_texto (f : Franja) : scanIntervalo f.texto = some f.intervalo := by
  have hleeHora : ∀ (h : Fin 24) resto,
      scanD (dosCifras h ++ resto) = some ((h.val : Int), resto) :=
    fun h resto ↦ scanD_dosCifras (by omega) resto
  have hleeMin : ∀ (h : Fin 60) resto, scanD (dosCifras h ++ resto) = some ((h.val : Int), resto) :=
    fun h resto ↦ scanD_dosCifras (by omega) resto
  have hfin := hleeMin f.hasta.tmMin []
  rw [List.append_nil] at hfin
  simp only [scanIntervalo, Franja.texto, Tm.texto, List.append_assoc, hleeHora, hleeMin, hfin,
    Franja.intervalo, List.head?_cons, List.tail_cons, Option.bind_eq_bind, Option.bind_some,
    ne_eq, not_true_eq_false, if_false, Option.pure_def]

/-- The characters of an interval. -/
theorem mem_texto {f : Franja} {c : Char} (h : c ∈ f.texto) : c.isDigit = true ∨ c = '-' := by
  have hcifras : ∀ n < 100, ∀ x ∈ dosCifras n, x.isDigit = true := by
    intro n hn x hx
    rcases List.mem_pair.mp hx with rfl | rfl
    · rw [Nat.isDigit_digitChar]
      exact decide_eq_true (by omega)
    · rw [Nat.isDigit_digitChar]
      exact decide_eq_true (by omega)
  have hhora : ∀ t : Tm, ∀ x ∈ t.texto, x.isDigit = true := by
    intro t x hx
    rcases List.mem_append.mp hx with hx | hx
    · exact hcifras _ (by omega) x hx
    · exact hcifras _ (by omega) x hx
  rcases List.mem_append.mp h with h | h
  · exact Or.inl (hhora _ c h)
  · rcases List.mem_cons.mp h with h | h
    · exact Or.inr h
    · exact Or.inl (hhora _ c h)

theorem coma_texto (f : Franja) : ',' ∉ f.texto := by
  intro h
  rcases mem_texto h with h | h
  · exact absurd h (by decide)
  · exact absurd h (by decide)

/-- The characters of a list of intervals. -/
theorem mem_textoDe {fs : List Franja} {c : Char} (h : c ∈ textoDe fs) :
    c.isDigit = true ∨ c = '-' ∨ c = ',' := by
  induction fs with
  | nil => cases h
  | cons f fs ih =>
      rcases fs with _ | ⟨g, gs⟩
      · rw [textoDe, List.map_singleton, List.intercalate_singleton] at h
        exact (mem_texto h).imp_right Or.inl
      · rw [textoDe, List.map_cons, List.map_cons, List.intercalate_cons_cons, List.mem_append,
          List.mem_append, List.mem_singleton] at h
        rcases h with (h | h) | h
        · exact (mem_texto h).imp_right Or.inl
        · exact Or.inr (Or.inr h)
        · exact ih h

theorem nul_textoDe (fs : List Franja) : nul ∉ textoDe fs := by
  intro h
  rcases mem_textoDe h with h | h | h
  · exact absurd h (by decide)
  · exact absurd h (by decide)
  · exact absurd h (by decide)

/-- A list of intervals is not taken for a comment. -/
theorem isComment_textoDe (fs : List Franja) : isComment (textoDe fs) = false := by
  rw [isComment, List.any_eq_false]
  intro c hc
  rw [decide_eq_true_eq]
  rintro ⟨-, hguion, hcoma, hfuera⟩
  rcases mem_textoDe hc with h | h | h
  · have hcifra : 48 ≤ c.val ∧ c.val ≤ 57 := by simpa [Char.isDigit] using h
    rcases hfuera with hmenos | hmas
    · exact UInt32.not_lt.mpr hcifra.1 hmenos
    · exact UInt32.not_lt.mpr hcifra.2 hmas
  · exact hguion h
  · exact hcoma h

theorem textoDe_ne_nil {fs : List Franja} (h : fs ≠ []) : textoDe fs ≠ [] := by
  obtain ⟨f, fs, rfl⟩ := List.exists_cons_of_ne_nil h
  rcases fs with _ | ⟨g, gs⟩
  · rw [textoDe, List.map_singleton, List.intercalate_singleton]
    exact List.cons_ne_nil _ _
  · rw [textoDe, List.map_cons, List.map_cons, List.intercalate_cons_cons]
    exact List.cons_ne_nil _ _

/-- `check_time_interval` goes over the intervals of the list. -/
theorem checkTimeInterval_textoDe (t : Tm) {fs : List Franja} (h : fs ≠ []) (reply : CStr) :
    checkTimeInterval t (textoDe fs) reply = checkCampos t (fs.map Franja.texto) reply := by
  have hcoma : ∀ l ∈ fs.map Franja.texto, ',' ∉ l := by
    intro l hl
    obtain ⟨f, -, rfl⟩ := List.mem_map.mp hl
    exact coma_texto f
  rw [checkTimeInterval, textoDe, List.splitOn_intercalate ',' hcoma (by simpa using h)]

/-! ## The arithmetic of the day -/

namespace Franja

theorem permMin_intervalo (f : Franja) : f.intervalo.permMin = f.desde.nowm := by
  show 60 * (f.desde.tmHour.val : Int) + f.desde.tmMin.val =
    f.desde.tmHour.val * 60 + f.desde.tmMin.val
  rw [mul_comm]

theorem permMax_intervalo (f : Franja) : f.intervalo.permMax = f.hasta.nowm := by
  show 60 * (f.hasta.tmHour.val : Int) + f.hasta.tmMin.val =
    f.hasta.tmHour.val * 60 + f.hasta.tmMin.val
  rw [mul_comm]

end Franja

theorem Tm.nowm_lt (t : Tm) : 0 ≤ t.nowm ∧ t.nowm < 1440 := by
  have hhora := t.tmHour.isLt
  have hmin := t.tmMin.isLt
  unfold Tm.nowm
  omega

/-- The test of an interval finds the minutes that lie in it. -/
theorem incluye_iff (f : Franja) (t : Tm) :
    f.intervalo.incluye t.nowm = true ↔ f.Contiene t := by
  have ht := t.nowm_lt
  have hdesde := f.desde.nowm_lt
  have hhasta := f.hasta.nowm_lt
  have hdist := f.distintas
  unfold Intervalo.incluye Franja.Contiene
  rw [f.permMin_intervalo, f.permMax_intervalo]
  split_ifs
  · rw [decide_eq_true_eq]
    omega
  · rw [decide_eq_true_eq]
    omega

/-- An interval of which a user is told is one that begins within the next five minutes. -/
theorem empieza_of_incluye {f : Franja} {t : Tm} (h : ¬f.Contiene t)
    (hcinco : f.intervalo.incluye (t.nowm + 5) = true) : f.Empieza t := by
  have ht := t.nowm_lt
  have hdesde := f.desde.nowm_lt
  rw [← incluye_iff, Bool.not_eq_true] at h
  have hminutos := minutos_aviso h hcinco
  rw [f.permMin_intervalo] at hminutos
  unfold Franja.Empieza Franja.faltan
  omega

/-! ## What `check_time_interval` says -/

/-- An interval at which the loop ends: it contains the minute, or the one five minutes on. -/
def Para (f : Franja) (t : Tm) : Prop :=
  f.intervalo.incluye t.nowm = true ∨ f.intervalo.incluye (t.nowm + 5) = true

/-- Where the loop denies, `reply` is as it was. -/
theorem reply_of_deniega {tm : Tm} {campos : List CStr} {reply : CStr}
    (h : (checkCampos tm campos reply).1 = ERR_YOUREBANNEDCREEP) :
    (checkCampos tm campos reply).2 = reply := by
  induction campos with
  | nil => rfl
  | cons interval campos ih =>
      rw [checkCampos] at h ⊢
      cases hlee : scanIntervalo interval with
      | none => rfl
      | some i =>
          rw [hlee] at h
          dsimp only at h ⊢
          split_ifs at h ⊢ with hnow hcinco
          · rfl
          · cases h
          · exact ih h

/-- Far from every interval the loop says nothing. -/
theorem checkCampos_lejos {t : Tm} {fs : List Franja} (h : ∀ f ∈ fs, ¬Para f t) (reply : CStr) :
    checkCampos t (fs.map Franja.texto) reply = (0, reply) := by
  induction fs with
  | nil => rfl
  | cons f fs ih =>
      obtain ⟨hnow, hcinco⟩ := not_or.mp (h f List.mem_cons_self)
      rw [List.map_cons, checkCampos, scanIntervalo_texto]
      dsimp only
      rw [if_neg hnow, if_neg hcinco]
      exact ih fun g hg ↦ h g (List.mem_cons_of_mem _ hg)

/-- The text of no interval is one that is not read. -/
theorem checkTimeInterval_lejos {t : Tm} {fs : List Franja} (h : ∀ f ∈ fs, ¬Para f t)
    (reply : CStr) : checkTimeInterval t (textoDe fs) reply = (0, reply) := by
  by_cases hfs : fs = []
  · rw [hfs]
    rfl
  · rw [checkTimeInterval_textoDe t hfs, checkCampos_lejos h]

theorem not_para {t : Tm} {fs : List Franja} (hdentro : ¬Dentro fs t) (hpronto : ¬Pronto fs t) :
    ∀ f ∈ fs, ¬Para f t := by
  rintro f hf (h | h)
  · exact hdentro ⟨f, hf, (incluye_iff f t).mp h⟩
  · exact hpronto ⟨f, hf, empieza_of_incluye (fun hc ↦ hdentro ⟨f, hf, hc⟩) h⟩

/-! ## What `find_kill` makes of it -/

/-- The lines that do not match are passed over. -/
theorem lineaK_sin (tm : Tm) (cptr : Cliente) {conf : List ConfItem} (resto : List ConfItem)
    (reply : CStr) (h : ∀ otra ∈ conf, casaK cptr otra = false) :
    lineaK tm cptr (conf ++ resto) reply = lineaK tm cptr resto reply := by
  induction conf with
  | nil => rfl
  | cons otra conf ih =>
      rw [List.cons_append, lineaK, h otra List.mem_cons_self, if_neg Bool.false_ne_true]
      exact ih fun x hx ↦ h x (List.mem_cons_of_mem _ hx)

/-- The line ends the search whatever `check_time_interval` says, as long as it is not zero. -/
theorem lineaK_soloLinea (tm : Tm) {cptr : Cliente} {conf : List ConfItem} {fs : List Franja}
    (hfs : fs ≠ []) (h : SoloLinea conf cptr fs) :
    (lineaK tm cptr conf []).isSome = true ↔ (checkTimeInterval tm (textoDe fs) []).1 ≠ 0 := by
  obtain ⟨antes, tmp, despues, rfl, hcasa, hpasswd, hotras⟩ := h
  obtain ⟨c, cs, htexto⟩ := List.exists_cons_of_ne_nil (textoDe_ne_nil hfs)
  have hcomment := isComment_textoDe fs
  rw [lineaK_sin tm cptr _ [] fun x hx ↦ hotras x (List.mem_append_left _ hx), lineaK, if_pos hcasa,
    hpasswd]
  rw [htexto] at hcomment ⊢
  dsimp only
  rw [hcomment, if_neg Bool.false_ne_true]
  by_cases hr : (checkTimeInterval tm (c :: cs) []).1 ≠ 0
  · rw [if_pos hr]
    exact iff_of_true rfl hr
  · have hnone := lineaK_sin tm cptr [] (checkTimeInterval tm (c :: cs) []).2
      fun x hx ↦ hotras x (List.mem_append_right _ hx)
    rw [if_neg hr, ← List.append_nil despues, hnone]
    exact iff_of_false Bool.false_ne_true hr

/-- A user of such a line is refused by it. -/
theorem findKill_soloLinea {e : Entorno} {u : Usuario} (s : Glines) {fs : List Franja}
    (hfs : fs ≠ []) (hexc : e.findException u.toCliente = false)
    (h : SoloLinea e.conf u.toCliente fs) :
    (findKill e u.toCliente s).1 = -1 ↔ (checkTimeInterval e.tm (textoDe fs) []).1 ≠ 0 := by
  rw [← lineaK_soloLinea e.tm hfs h, findKill, u.esUser, hexc, if_neg (by decide), if_neg u.corto,
    if_neg (by decide)]
  cases lineaK e.tm u.toCliente e.conf [] with
  | some r => simp
  | none =>
      dsimp only
      obtain ⟨r, s'⟩ := s.findGline e.matchPcre e.tsTime u.toAfectado
      cases r with
      | none => simp
      | some agline => cases hactive : (s'.dato agline).active <;> simp [hactive]

/-- A K line of the user `ana` with some intervals. -/
def lineaCon (fs : List Franja) : ConfItem :=
  { lineaAna with passwd := some (textoDe fs) }

theorem soloLinea_lineaCon (fs : List Franja) : SoloLinea [lineaCon fs] ana.toCliente fs := by
  have hcasa : casaK ana.toCliente (lineaCon fs) = casaK ana.toCliente lineaAna := rfl
  refine ⟨[], lineaCon fs, [], rfl, hcasa.trans (by decide +kernel), rfl, fun _ h ↦ by cases h⟩

/-- The intervals mean what they say at a minute if and only if none contains it and none begins
within the next five minutes. -/
theorem significan_iff (fs : List Franja) (t : Tm) :
    Significan fs t ↔ ¬Dentro fs t ∧ ¬Pronto fs t := by
  constructor
  · rintro ⟨hdice, hkill⟩
    obtain ⟨r, hr, hd⟩ := hdice []
    rw [checkTexto_eq t (nul_textoDe fs), Option.some.injEq] at hr
    subst hr
    have hdentro : ¬Dentro fs t := by
      intro hdentro
      obtain ⟨f, hf, -, hreply⟩ := hd.replyDentro hdentro
      have hdeniega := hd.deniega.mpr hdentro
      rw [checkTimeInterval_textoDe t (List.ne_nil_of_mem hf)] at hreply hdeniega
      rw [reply_of_deniega hdeniega] at hreply
      cases hreply
    refine ⟨hdentro, fun hpronto ↦ hdentro ?_⟩
    -- The user is told of the interval, and refused.
    have hfs : fs ≠ [] := by
      rintro rfl
      obtain ⟨f, hf, -⟩ := hpronto
      cases hf
    have havisa := (hd.avisa hdentro).mpr hpronto
    refine hkill ⟨[lineaCon fs], t, 1000, fun _ ↦ false, fun _ _ ↦ false⟩ ana unaGline rfl hfs rfl
      (soloLinea_lineaCon fs) ?_
    rw [findKill_soloLinea unaGline hfs rfl (soloLinea_lineaCon fs), havisa]
    decide
  · rintro ⟨hdentro, hpronto⟩
    have hlejos := checkTimeInterval_lejos (not_para hdentro hpronto)
    refine ⟨fun reply ↦ ⟨_, checkTexto_eq t (nul_textoDe fs) reply, ?_⟩, ?_⟩
    · rw [hlejos]
      exact {
        deniega := iff_of_false (show (0 : Nat) ≠ 465 by decide) hdentro
        avisa := fun _ ↦ iff_of_false (show (0 : Nat) ≠ 466 by decide) hpronto
        texto := rfl
        replyDentro := fun h ↦ absurd h hdentro
        replyPronto := fun _ h ↦ absurd h hpronto
        replyNada := fun _ _ ↦ rfl }
    · rintro e u s rfl hfs hexc hsolo hmenos
      rw [findKill_soloLinea s hfs hexc hsolo, hlejos] at hmenos
      exact absurd rfl hmenos

/-- From eight to ten, and from ten at night to two. -/
def dosFranjas : List Franja :=
  [⟨⟨8, 0⟩, ⟨10, 0⟩, by decide⟩, ⟨⟨22, 0⟩, ⟨2, 0⟩, by decide⟩]

example : textoDe dosFranjas = "0800-1000,2200-0200".toList := by decide

/-- At three minutes to ten at night a user who is only told of the second interval is refused. -/
theorem not_significan : ¬ ∀ (fs : List Franja) (t : Tm), Significan fs t := by
  intro h
  obtain ⟨hdice, hkill⟩ := h dosFranjas ⟨21, 57⟩
  have hmenos : (findKill (alas [lineaCon dosFranjas] 21 57) ana.toCliente unaGline).1 = -1 := by
    decide +kernel
  have hdentro : ¬Dentro dosFranjas ⟨21, 57⟩ := by
    unfold Dentro Franja.Contiene
    decide
  exact hdentro (hkill (alas [lineaCon dosFranjas] 21 57) ana unaGline rfl (List.cons_ne_nil _ _)
    rfl (soloLinea_lineaCon _) hmenos)

end Ircd.Gline
