import Ircd.Lib.CString

/-!
# Colours in messages

`strip_color` of `ircd/s_user.c`. The loop keeps the digits that may still come and whether the
background has begun; the sequences it recognises are given here by the grammar. The main result,
`stripColor_limpieza`, says that they are the same, also where the length cuts the text.
-/

namespace Ircd.User

open CString

/-! ## The loop -/

/-- The character that begins a colour sequence. -/
def color : Char := '\x03'

/-- The other codes of the list. -/
def codigos : List Char :=
  ['\x08', '\x07', '\x0f', '\x16', '\x02', '\x1f', '\x1d']

/-- The loop of `strip_color`, with `queda` for the characters before the limit. -/
def quitaColor : Nat → Bool → Nat → CStr → CStr
  | _, _, 0, _ => []
  | _, _, _, [] => []
  | rcol, bgcol, queda + 1, c :: src =>
      if 0 < rcol ∧ (c.isDigit ∨ (c = ',' ∧ src.head?.any Char.isDigit ∧ bgcol = false)) then
        if c = ',' then quitaColor 2 true queda src
        else if src.head? ≠ some ',' then quitaColor (rcol - 1) bgcol queda src
        else quitaColor rcol bgcol queda src
      else if c = color then quitaColor 2 false queda src
      else if c ∈ codigos then quitaColor 0 false queda src
      else c :: quitaColor 0 false queda src

/-- `strip_color`. -/
def stripColor (src : CStr) (maxlength : Nat) : CStr :=
  quitaColor 0 false (maxlength - 1) src

/-! ## The grammar -/

/-- What may come behind the character of a colour: at most two digits, and a comma with one or two
digits more. -/
def EsColor (args : CStr) : Prop :=
  ∃ frente fondo, args = frente ++ fondo ∧ (∀ c ∈ frente, c.isDigit = true) ∧ frente.length ≤ 2 ∧
    (fondo = [] ∨ ∃ cifras, fondo = ',' :: cifras ∧ (∀ c ∈ cifras, c.isDigit = true) ∧
      0 < cifras.length ∧ cifras.length ≤ 2)

/-- `args` is the longest sequence at the beginning of a text that goes on with `rest`. -/
def Larga (args rest : CStr) : Prop :=
  EsColor args ∧ ∀ p, p <+: args ++ rest → EsColor p → p.length ≤ args.length

/-- `Recorre text rest out`: a text is taken up to `rest`, in whole sequences, and `out` is left of
what has been taken. -/
inductive Recorre : CStr → CStr → CStr → Prop
  | nada {text : CStr} : Recorre text text []
  | color {args text rest out : CStr} (h : Larga args text) (ht : Recorre text rest out) :
      Recorre (color :: (args ++ text)) rest out
  | codigo {c : Char} {text rest out : CStr} (h : c ∈ codigos) (ht : Recorre text rest out) :
      Recorre (c :: text) rest out
  | otro {c : Char} {text rest out : CStr} (hcolor : c ≠ User.color) (h : c ∉ codigos)
      (ht : Recorre text rest out) : Recorre (c :: text) rest (c :: out)

/-- The limit `n` falls in the colour sequence that `rest` begins with. -/
def Cortada (text : CStr) (n : Nat) (rest : CStr) : Prop :=
  ∃ inicio args resto, text = inicio ++ rest ∧ rest = color :: (args ++ resto) ∧ Larga args resto ∧
    inicio.length < n ∧ n < inicio.length + 1 + args.length

/-- What is left of a text when its first `n` characters are read. -/
structure Limpieza (text : CStr) (n : Nat) (out : CStr) : Prop where
  entero : text.length ≤ n → Recorre text [] out
  limite : n < text.length → ∃ rest, Recorre text rest out ∧
    (rest.length = text.length - n ∧ Recorre (text.take n) [] out ∨ Cortada text n rest)
  cabe : out.length + 1 ≤ n + 1

/-! ## The length of a sequence -/

/-- The digits at the beginning of a text, two at most. -/
def cifras (t : CStr) : Nat :=
  min 2 (t.takeWhile Char.isDigit).length

/-- The characters of the background at the beginning of a text. -/
def fondo : CStr → Nat
  | ',' :: t => if cifras t = 0 then 0 else 1 + cifras t
  | _ => 0

/-- The characters of a colour sequence behind the first one. -/
def parametros (t : CStr) : Nat :=
  cifras t + fondo (t.drop (cifras t))

theorem cifras_of_not_isDigit {c : Char} {t : CStr} (h : c.isDigit = false) :
    cifras (c :: t) = 0 := by
  simp [cifras, h]

theorem cifras_le_length (t : CStr) : cifras t ≤ t.length :=
  (Nat.min_le_right ..).trans (List.takeWhile_prefix _).length_le

theorem cifras_eq_zero {t : CStr} (h : t.head?.any Char.isDigit = false) : cifras t = 0 := by
  cases t with
  | nil => rfl
  | cons c t => exact cifras_of_not_isDigit h

theorem cifras_pos {t : CStr} (h : t.head?.any Char.isDigit = true) : cifras t ≠ 0 := by
  cases t with
  | nil => cases h
  | cons c t =>
      have hc : c.isDigit = true := h
      simp [cifras, hc]

/-- The digits that are counted are digits. -/
theorem isDigit_of_mem_take {t : CStr} {c : Char} (h : c ∈ t.take (cifras t)) :
    c.isDigit = true := by
  have hinicio : t.take (cifras t) <+: t.takeWhile Char.isDigit := by
    rw [List.prefix_iff_eq_take.mp (List.takeWhile_prefix (p := Char.isDigit) (l := t))]
    exact List.take_prefix_take_left (Nat.min_le_right ..)
  exact List.mem_takeWhile_imp (hinicio.subset h)

/-- Digits at the beginning are counted. -/
theorem le_cifras {d t : CStr} (hd : ∀ c ∈ d, c.isDigit = true) (hlen : d.length ≤ 2) :
    d.length ≤ cifras (d ++ t) := by
  rw [cifras, List.takeWhile_append_of_pos hd, List.length_append]
  omega

theorem cifras_append {d t : CStr} (hd : ∀ c ∈ d, c.isDigit = true) (hlen : d.length ≤ 2)
    (ht : t.head?.any Char.isDigit = false) : cifras (d ++ t) = d.length := by
  have hstop : t.takeWhile Char.isDigit = [] := by
    cases t with
    | nil => rfl
    | cons c t =>
        have hc : c.isDigit = false := ht
        simp [hc]
  rw [cifras, List.takeWhile_append_of_pos hd, hstop, List.append_nil]
  omega

/-! ## Runs of the loop -/

variable {rcol queda : Nat} {bgcol : Bool} {t : CStr}

@[simp]
theorem quitaColor_zero : quitaColor rcol bgcol 0 t = [] := by
  unfold quitaColor
  rfl

@[simp]
theorem quitaColor_nil : quitaColor rcol bgcol queda [] = [] := by
  cases queda <;> rfl

/-- A character that goes on with no sequence starts afresh. -/
theorem quitaColor_reset (h : ∀ c src, t = c :: src → rcol = 0 ∨
      (c.isDigit = false ∧ (c ≠ ',' ∨ src.head?.any Char.isDigit = false ∨ bgcol = true))) :
    quitaColor rcol bgcol queda t = quitaColor 0 false queda t := by
  cases queda with
  | zero => simp
  | succ queda =>
      cases t with
      | nil => simp
      | cons c src =>
          have hno : ¬(0 < rcol ∧ (c.isDigit ∨
              (c = ',' ∧ src.head?.any Char.isDigit ∧ bgcol = false))) := by
            rintro ⟨hpos, hsigue⟩
            rcases h c src rfl with h | ⟨hdigit, h⟩
            · omega
            · rcases hsigue with hsi | ⟨hcoma, hnext, hbg⟩
              · rw [hdigit] at hsi
                cases hsi
              · rcases h with h | h | h
                · exact h hcoma
                · rw [h] at hnext
                  cases hnext
                · rw [h] at hbg
                  cases hbg
          have hno' : ¬(0 < 0 ∧ (c.isDigit ∨
              (c = ',' ∧ src.head?.any Char.isDigit ∧ false = false))) := fun h ↦ by omega
          rw [quitaColor, quitaColor, if_neg hno, if_neg hno']

/-- A digit is taken off, and it counts unless a comma follows. -/
theorem quitaColor_digit {c : Char} (hpos : 0 < rcol) (hc : c.isDigit = true) :
    quitaColor rcol bgcol (queda + 1) (c :: t) =
      quitaColor (if t.head? = some ',' then rcol else rcol - 1) bgcol queda t := by
  have hcoma : c ≠ ',' := by
    rintro rfl
    cases hc
  rw [quitaColor, if_pos ⟨hpos, .inl hc⟩, if_neg hcoma]
  split <;> simp_all

/-- The loop takes as many digits as may come. It can go on with a comma then, and with no digit. -/
theorem quitaColor_cifras (bgcol : Bool) (m : Nat) :
    ∀ (queda rcol : Nat) (t : CStr), (t.head? = some ',' → 0 < rcol) →
      (t.head?.any Char.isDigit = true → rcol = m) →
      let k := min m (t.takeWhile Char.isDigit).length
      ∃ r, quitaColor rcol bgcol queda t = quitaColor r bgcol (queda - k) (t.drop k) ∧
        ((t.drop k).head? = some ',' → 0 < r) ∧
        ((t.drop k).head?.any Char.isDigit = true → r = 0) := by
  induction m with
  | zero =>
      intro queda rcol t hcoma hdigit
      exact ⟨rcol, by simp, by simpa using hcoma, by simpa using hdigit⟩
  | succ m ih =>
      intro queda rcol t hcoma hdigit
      have hnada (hno : t.head?.any Char.isDigit = false) :
          min (m + 1) (t.takeWhile Char.isDigit).length = 0 := by
        cases t with
        | nil => simp
        | cons c t =>
            have hc : c.isDigit = false := hno
            simp [hc]
      cases hd : t.head?.any Char.isDigit with
      | false =>
          simp only [hnada hd]
          refine ⟨rcol, rfl, hcoma, fun h ↦ ?_⟩
          exact absurd (hd.symm.trans h) Bool.false_ne_true
      | true =>
          cases t with
          | nil => cases hd
          | cons c t =>
              have hc : c.isDigit = true := hd
              have hk : min (m + 1) ((c :: t).takeWhile Char.isDigit).length =
                  min m (t.takeWhile Char.isDigit).length + 1 := by
                rw [List.takeWhile_cons_of_pos hc, List.length_cons]
                omega
              have hsiguiente : (t.head? = some ',' → 0 < if t.head? = some ',' then m + 1 else m) ∧
                  (t.head?.any Char.isDigit = true →
                    (if t.head? = some ',' then m + 1 else m) = m) := by
                by_cases hcoma' : t.head? = some ','
                · rw [if_pos hcoma', hcoma']
                  exact ⟨fun _ ↦ Nat.succ_pos m, fun h ↦ by cases h⟩
                · rw [if_neg hcoma']
                  exact ⟨fun h ↦ absurd h hcoma', fun _ ↦ rfl⟩
              obtain ⟨r, heq, hr⟩ := ih (queda - 1) _ t hsiguiente.1 hsiguiente.2
              simp only [hk, List.drop_succ_cons]
              refine ⟨r, ?_, hr⟩
              cases queda with
              | zero => simp
              | succ queda =>
                  rw [hdigit hd, quitaColor_digit (Nat.succ_pos m) hc]
                  show quitaColor (if t.head? = some ',' then m + 1 else m) bgcol queda t = _
                  rw [Nat.add_sub_add_right]
                  exact heq

/-- The digits of the background. -/
theorem quitaColor_fondo :
    quitaColor 2 true queda t = quitaColor 0 false (queda - cifras t) (t.drop (cifras t)) := by
  obtain ⟨rcol, heq, -, hdigit⟩ :=
    quitaColor_cifras true 2 queda 2 t (fun _ ↦ Nat.two_pos) fun _ ↦ rfl
  rw [cifras, heq]
  refine quitaColor_reset fun c src ht ↦ ?_
  rw [ht] at hdigit
  cases hc : c.isDigit with
  | true => exact .inl (hdigit hc)
  | false => exact .inr ⟨rfl, .inr (.inr rfl)⟩

/-- A colour sequence is taken off. -/
theorem quitaColor_color :
    quitaColor 2 false queda t =
      quitaColor 0 false (queda - parametros t) (t.drop (parametros t)) := by
  obtain ⟨rcol, heq, hcoma, hdigit⟩ :=
    quitaColor_cifras false 2 queda 2 t (fun _ ↦ Nat.two_pos) fun _ ↦ rfl
  rw [parametros, cifras, heq, ← List.drop_drop, ← Nat.sub_sub]
  change (t.drop (cifras t)).head? = _ → _ at hcoma
  change (t.drop (cifras t)).head?.any _ = _ → _ at hdigit
  show quitaColor rcol false (queda - cifras t) (t.drop (cifras t)) =
    quitaColor 0 false (queda - cifras t - fondo (t.drop (cifras t)))
      ((t.drop (cifras t)).drop (fondo (t.drop (cifras t))))
  generalize t.drop (cifras t) = u at hcoma hdigit
  generalize queda - cifras t = queda'
  cases u with
  | nil => simp
  | cons c src =>
      by_cases hfondo : c = ',' ∧ src.head?.any Char.isDigit = true
      · obtain ⟨rfl, hnext⟩ := hfondo
        have hlen : fondo (',' :: src) = 1 + cifras src := if_neg (cifras_pos hnext)
        cases queda' with
        | zero => simp
        | succ queda' =>
            have hsigue : 0 < rcol ∧ ((',' : Char).isDigit ∨
                ((',' : Char) = ',' ∧ src.head?.any Char.isDigit ∧ false = false)) :=
              ⟨hcoma rfl, .inr ⟨rfl, hnext, rfl⟩⟩
            rw [quitaColor, if_pos hsigue, if_pos rfl, quitaColor_fondo, hlen]
            congr 1
            · omega
            · rw [Nat.add_comm]
              rfl
      · have hlen : fondo (c :: src) = 0 := by
          by_cases hc : c = ','
          · have hnext : src.head?.any Char.isDigit = false :=
              Bool.eq_false_iff.mpr fun h ↦ hfondo ⟨hc, h⟩
            rw [hc]
            exact if_pos (cifras_eq_zero hnext)
          · unfold fondo
            split
            · next heq => exact absurd (List.cons.inj heq).1 hc
            · rfl
        rw [hlen]
        refine quitaColor_reset fun c' src' ht ↦ ?_
        obtain ⟨rfl, rfl⟩ := List.cons.inj ht
        cases hc : c.isDigit with
        | true => exact .inl (hdigit hc)
        | false =>
            refine .inr ⟨rfl, ?_⟩
            by_cases hcoma' : c = ','
            · exact .inr (.inl (Bool.eq_false_iff.mpr fun h ↦ hfondo ⟨hcoma', h⟩))
            · exact .inl hcoma'

/-! ## The longest sequence -/

theorem fondo_le_length (t : CStr) : fondo t ≤ t.length := by
  unfold fondo
  split
  · next u =>
      have hu := cifras_le_length u
      rw [List.length_cons]
      split <;> omega
  · exact Nat.zero_le _

theorem parametros_le_length (t : CStr) : parametros t ≤ t.length := by
  have hcifras := cifras_le_length t
  have hfondo := fondo_le_length (t.drop (cifras t))
  rw [List.length_drop] at hfondo
  unfold parametros
  omega

/-- What is counted is a background, or nothing. -/
theorem take_fondo (u : CStr) : u.take (fondo u) = [] ∨ ∃ cs, u.take (fondo u) = ',' :: cs ∧
    (∀ c ∈ cs, c.isDigit = true) ∧ 0 < cs.length ∧ cs.length ≤ 2 := by
  unfold fondo
  split
  · next v =>
      split
      · exact .inl rfl
      · next hne =>
          refine .inr ⟨v.take (cifras v), by rw [Nat.add_comm]; rfl, fun c hc ↦
            isDigit_of_mem_take hc, ?_, ?_⟩
          · rw [List.length_take_of_le (cifras_le_length v)]
            exact Nat.pos_of_ne_zero hne
          · exact (List.length_take_le ..).trans (Nat.min_le_left ..)
  · exact .inl rfl

/-- What is counted is a colour sequence. -/
theorem esColor_take (t : CStr) : EsColor (t.take (parametros t)) := by
  refine ⟨t.take (cifras t), (t.drop (cifras t)).take (fondo (t.drop (cifras t))), ?_, fun c hc ↦
    isDigit_of_mem_take hc, (List.length_take_le ..).trans (Nat.min_le_left ..), take_fondo _⟩
  rw [parametros, List.take_add]

/-- No sequence is longer than what is counted. -/
theorem EsColor.length_le {p t : CStr} (h : EsColor p) (hp : p <+: t) :
    p.length ≤ parametros t := by
  obtain ⟨resto, rfl⟩ := hp
  obtain ⟨frente, fondo', rfl, hfrente, hlen, rfl | ⟨cs, rfl, hcs, hpos, hlen'⟩⟩ := h
  · have hle := le_cifras (t := resto) hfrente hlen
    simp only [List.append_nil, parametros]
    omega
  · have hsalto : cifras (frente ++ (',' :: cs ++ resto)) = frente.length :=
      cifras_append hfrente hlen rfl
    have hdrop : (frente ++ (',' :: cs ++ resto)).drop frente.length = ',' :: (cs ++ resto) :=
      List.drop_left
    have hle := le_cifras (t := resto) hcs hlen'
    have hfondo : fondo (',' :: (cs ++ resto)) = 1 + cifras (cs ++ resto) := if_neg (by omega)
    rw [List.append_assoc, parametros, hsalto, hdrop, hfondo, List.length_append, List.length_cons]
    omega

/-- What is counted is the longest sequence. -/
theorem larga_take (t : CStr) : Larga (t.take (parametros t)) (t.drop (parametros t)) := by
  refine ⟨esColor_take t, fun p hp hcolor ↦ ?_⟩
  rw [List.take_append_drop] at hp
  rw [List.length_take_of_le (parametros_le_length t)]
  exact hcolor.length_le hp

/-- It stays the longest one when less of the text is there. -/
theorem Larga.of_prefix {args rest rest' : CStr} (h : Larga args rest) (hp : rest' <+: rest) :
    Larga args rest' :=
  ⟨h.1, fun p hp' ↦ h.2 p (hp'.trans (List.prefix_append_right_inj args |>.mpr hp))⟩

/-! ## The two recognise the same -/

/-- One character that is no colour. -/
theorem Limpieza.cons {c : Char} {text out o : CStr} {n : Nat} (h : Limpieza text n out)
    (hlen : o.length ≤ 1)
    (hpaso : ∀ text rest out, Recorre text rest out → Recorre (c :: text) rest (o ++ out)) :
    Limpieza (c :: text) (n + 1) (o ++ out) where
  entero hle := hpaso _ _ _ (h.entero (Nat.le_of_succ_le_succ hle))
  limite hlt := by
    obtain ⟨rest, hrest, ⟨heq, htake⟩ | ⟨inicio, args, resto, htext, hcorte, hlarga, hini, hfin⟩⟩ :=
      h.limite (Nat.lt_of_succ_lt_succ hlt)
    · refine ⟨rest, hpaso _ _ _ hrest, .inl ⟨?_, hpaso _ _ _ htake⟩⟩
      rw [heq, List.length_cons]
      omega
    · refine ⟨rest, hpaso _ _ _ hrest, .inr ⟨c :: inicio, args, resto, by rw [htext]; rfl, hcorte,
        hlarga, ?_, ?_⟩⟩
      · rw [List.length_cons]
        omega
      · rw [List.length_cons]
        omega
  cabe := by
    have hcabe := h.cabe
    rw [List.length_append]
    omega

/-- A colour sequence that is all before the limit. -/
theorem Limpieza.color {args text out : CStr} {n : Nat} (h : Limpieza text n out)
    (hlarga : Larga args text) :
    Limpieza (User.color :: (args ++ text)) (n + args.length + 1) out where
  entero hle := by
    rw [List.length_cons, List.length_append] at hle
    exact .color hlarga (h.entero (by omega))
  limite hlt := by
    rw [List.length_cons, List.length_append] at hlt
    obtain ⟨rest, hrest, ⟨heq, htake⟩ |
      ⟨inicio, args', resto, htext, hcorte, hlarga', hini, hfin⟩⟩ := h.limite (by omega)
    · refine ⟨rest, .color hlarga hrest, .inl ⟨?_, ?_⟩⟩
      · rw [heq, List.length_cons, List.length_append]
        omega
      · have htrozo : (User.color :: (args ++ text)).take (n + args.length + 1) =
            User.color :: (args ++ text.take n) := by
          rw [List.take_succ_cons, Nat.add_comm n, List.take_length_add_append]
        rw [htrozo]
        exact .color (hlarga.of_prefix (List.take_prefix n text)) htake
    · refine ⟨rest, .color hlarga hrest, .inr ⟨User.color :: (args ++ inicio), args', resto, ?_,
        hcorte, hlarga', ?_, ?_⟩⟩
      · rw [htext, ← List.append_assoc]
        rfl
      · rw [List.length_cons, List.length_append]
        omega
      · rw [List.length_cons, List.length_append]
        omega
  cabe := by
    have hcabe := h.cabe
    omega

/-- A colour sequence that the limit cuts. -/
theorem limpieza_cortada {args text : CStr} {n : Nat} (hlarga : Larga args text)
    (hn : n < args.length) : Limpieza (color :: (args ++ text)) (n + 1) [] where
  entero hle := by
    rw [List.length_cons, List.length_append] at hle
    omega
  limite _ :=
    ⟨_, .nada, .inr ⟨[], args, text, rfl, rfl, hlarga, Nat.succ_pos n, by
      rw [List.length_nil]
      omega⟩⟩
  cabe := by
    rw [List.length_nil]
    omega

theorem quitaColor_limpieza (k : Nat) :
    ∀ (text : CStr) (n : Nat), text.length ≤ k → Limpieza text n (quitaColor 0 false n text) := by
  induction k with
  | zero =>
      intro text n hle
      rw [List.eq_nil_of_length_eq_zero (Nat.le_zero.mp hle), quitaColor_nil]
      exact ⟨fun _ ↦ .nada, fun hlt ↦ absurd hlt (Nat.not_lt_zero n), Nat.succ_le_succ n.zero_le⟩
  | succ k ih =>
      intro text n hle
      cases n with
      | zero =>
          rw [quitaColor_zero]
          refine ⟨fun hcero ↦ ?_, fun _ ↦ ⟨text, .nada, .inl ⟨rfl, .nada⟩⟩, le_rfl⟩
          rw [List.eq_nil_of_length_eq_zero (Nat.le_zero.mp hcero)]
          exact .nada
      | succ n =>
          cases text with
          | nil =>
              rw [quitaColor_nil]
              exact ⟨fun _ ↦ .nada, fun hlt ↦ absurd hlt (Nat.not_lt_zero _),
                Nat.succ_le_succ (Nat.zero_le _)⟩
          | cons c t =>
              have ht : t.length ≤ k := Nat.le_of_succ_le_succ hle
              have hno : ¬(0 < 0 ∧ (c.isDigit ∨
                  (c = ',' ∧ t.head?.any Char.isDigit ∧ false = false))) := fun h ↦ by omega
              rw [quitaColor, if_neg hno]
              by_cases hcolor : c = color
              · rw [if_pos hcolor, quitaColor_color, hcolor]
                have hlarga := larga_take t
                have hlen := List.length_take_of_le (parametros_le_length t)
                by_cases hcorte : n < parametros t
                · rw [Nat.sub_eq_zero_of_le hcorte.le, quitaColor_zero]
                  have h := limpieza_cortada hlarga (hlen.symm ▸ hcorte)
                  rwa [List.take_append_drop] at h
                · have hdrop : (t.drop (parametros t)).length ≤ k := by
                    rw [List.length_drop]
                    omega
                  have h := (ih _ (n - parametros t) hdrop).color hlarga
                  rwa [List.take_append_drop, hlen, Nat.sub_add_cancel (by omega)] at h
              · rw [if_neg hcolor]
                by_cases hcod : c ∈ codigos
                · rw [if_pos hcod]
                  exact (ih t n ht).cons (o := []) (Nat.zero_le 1) fun _ _ _ h ↦ .codigo hcod h
                · rw [if_neg hcod]
                  exact (ih t n ht).cons (o := [c]) le_rfl fun _ _ _ h ↦ .otro hcolor hcod h

/-- The loop removes the codes and the longest colour sequences, and nothing else. -/
theorem stripColor_limpieza (text : CStr) (n : Nat) :
    Limpieza text n (stripColor text (n + 1)) :=
  quitaColor_limpieza text.length text n le_rfl

example : stripColor "\x0312,4hola\x02, \x031,x".toList 64 = "hola, ,x".toList := by decide

end Ircd.User
