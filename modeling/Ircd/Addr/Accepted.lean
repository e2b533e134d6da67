import Ircd.Addr.Text

/-!
# Masks that are accepted

`ipmask_parse` and `ircd_aton_ip4` of `ircd/support.c` with a non-NULL `pbits`, and with what they
do on their way: the shifts, the numbers that are computed, the octets and the segments that are
stored. The main theorem, `ipmaskParse_cabal_iff`, says for which of the masks that are accepted
everything is in its bounds and the bits are reported.
-/

namespace Ircd.Addr

open CString IPcheck

/-! ## What the parser does on its way -/

/-- A shift of an octet or of a segment, a number that is computed in an `unsigned int`, and an
octet or a segment that is stored at its place. -/
inductive Suceso where
  | desplaza (amount : Int)
  | computa (valor : Nat)
  | octeto (dots : Nat)
  | segmento (ii : Nat)

/-- What is done is in its bounds. -/
def Suceso.Cabal : Suceso → Prop
  | .desplaza amount => 0 ≤ amount ∧ amount ≤ 31
  | .computa valor => valor < 2 ^ 32
  | .octeto dots => dots < 4
  | .segmento ii => ii < 8

instance : DecidablePred Suceso.Cabal := fun s ↦
  match s with
  | .desplaza amount => inferInstanceAs (Decidable (0 ≤ amount ∧ amount ≤ 31))
  | .computa valor => inferInstanceAs (Decidable (valor < 2 ^ 32))
  | .octeto dots => inferInstanceAs (Decidable (dots < 4))
  | .segmento ii => inferInstanceAs (Decidable (ii < 8))

/-- Everything that was done is in its bounds. -/
def Cabales (log : List Suceso) : Prop :=
  ∀ s ∈ log, s.Cabal

/-- An octet is shifted to its place and stored. -/
def guardaOcteto (dots : Nat) : List Suceso :=
  [.octeto dots, .desplaza (24 - 8 * dots)]

/-- What `ircd_aton_ip4` leaves. -/
structure LeidaIp4 where
  resto : CStr
  ip : Nat
  pbits : Option Nat
  log : List Suceso

/-- What `ipmask_parse` leaves: the text behind the address, the words of the address, the bits if
it writes them, and what it did. -/
structure Aceptada where
  resto : CStr
  words : List UInt16
  pbits : Option Nat
  log : List Suceso

namespace Checked

/-- The number of bits behind a slash, and the text after it. -/
def leeBits (bits : Nat) (log : List Suceso) : CStr → Nat × CStr × List Suceso
  | [] => (bits, [], log)
  | c :: input =>
      if isDigit c then
        let valor := bits * 10 + cifra c
        leeBits (valor % 2 ^ 32) (.computa valor :: log) input
      else (bits, c :: input, log)

/-- The loop of `ircd_aton_ip4`. -/
def atonDesde (dots part ip : Nat) (log : List Suceso) : CStr → Option LeidaIp4
  | [] =>
      if dots < 3 then none
      else some ⟨[], ip ||| part <<< desplazamiento dots, some 32, guardaOcteto dots ++ log⟩
  | '.' :: input =>
      if lee input = '.' then none
      else if lee input = '*' then
        match input.dropWhile (fun c ↦ c = '*' ∨ c = '.') with
        | [] =>
            some ⟨[], ip ||| part <<< desplazamiento dots, some ((dots + 1) * 8 % 256),
              guardaOcteto dots ++ log⟩
        | _ :: _ => none
      else
        atonDesde (dots + 1) 0 (ip ||| part <<< desplazamiento dots)
          (guardaOcteto dots ++ log) input
  | '/' :: input =>
      if !isDigit (lee input) then none
      else
        let (bits, resto, log) := leeBits 0 log input
        if bits > 32 then none
        else some ⟨resto, ip ||| part <<< desplazamiento dots, some bits, guardaOcteto dots ++ log⟩
  | c :: input =>
      if !isDigit c then none
      else
        let valor := part * 10 + cifra c
        if valor > 255 then none else atonDesde dots valor ip (.computa valor :: log) input

/-- `ircd_aton_ip4`. -/
def ircdAtonIp4 (log : List Suceso) (input : CStr) : Option LeidaIp4 :=
  if lee input = '.' then none else atonDesde 0 0 0 log input

/-- The loop of `ipmask_parse` over an IPv6 address. -/
def parseSegmentos (part colon : Nat) (partStart : Option CStr) (segs : List UInt16)
    (log : List Suceso) : CStr → Option Aceptada
  | [] =>
      if colon = 8 ∧ segs.length + 1 < 8 then none
      else some ⟨[], finish colon (segs ++ [htons part.toUInt16]), some 128,
        .segmento segs.length :: log⟩
  | ':' :: ':' :: input =>
      let segs' := segs ++ [htons part.toUInt16]
      let log := .segmento segs.length :: log
      if colon < 8 then none
      else if segs'.length < 8 then
        parseSegmentos 0 segs'.length (some (':' :: input)) segs' log input
      else some ⟨input, finish segs'.length segs', none, log⟩
  | ':' :: input =>
      let segs' := segs ++ [htons part.toUInt16]
      let log := .segmento segs.length :: log
      if lee input = '.' then none
      else if segs'.length < 8 then parseSegmentos 0 colon (some input) segs' log input
      else some ⟨input, finish colon segs', none, log⟩
  | '.' :: _ =>
      match partStart.bind (ircdAtonIp4 log) with
      | none => none
      | some r =>
          if segs.length > 6 then none
          else some ⟨r.resto, finish colon (segs ++ segmentosIp4 r.ip),
            r.pbits.map fun b ↦ (b + 96) % 256,
            .segmento (segs.length + 1) :: .segmento segs.length :: r.log⟩
  | '/' :: input =>
      if !isDigit (lee input) then none
      else
        let (bits, resto, log) := leeBits 0 (.segmento segs.length :: log) input
        if bits > 128 then none
        else some ⟨resto, finish colon (segs ++ [htons part.toUInt16]), some bits, log⟩
  | '*' :: input =>
      match input.dropWhile (fun c ↦ c = '*' ∨ c = ':') with
      | [] =>
          if colon < 8 then none else some ⟨[], memoria segs, some (segs.length * 16), log⟩
      | _ :: _ => none
  | c :: input =>
      match chval c with
      | none => none
      | some v =>
          if part <<< 4 ||| v > 0xffff then none
          else
            parseSegmentos (part <<< 4 ||| v) colon partStart segs
              (.computa (part <<< 4 ||| v) :: .desplaza 4 :: log) input

/-- The three forms of an address. -/
def parseFormas (input : CStr) : Option Aceptada :=
  if input.idxOf ':' < input.length ∧ input.idxOf ':' < input.idxOf '.' then
    match input with
    | ':' :: ':' :: resto =>
        if lee resto = ':' then none else parseSegmentos 0 0 (some resto) [] [] resto
    | ':' :: _ => none
    | _ => parseSegmentos 0 8 none [] [] input
  else if input.contains '.' ∨ input.contains '/' then
    (ircdAtonIp4 [] input).map fun r ↦
      ⟨r.resto, [0, 0, 0, 0, 0, htons 65535] ++ segmentosIp4 r.ip,
        r.pbits.map fun b ↦ (b + 96) % 256, .segmento 7 :: .segmento 6 :: .segmento 5 :: r.log⟩
  else if lee input = '*' then
    match input.dropWhile (· = '*') with
    | [] => some ⟨[], memoria [], some 0, []⟩
    | _ :: _ => none
  else none

/-- `ipmask_parse`: the number of characters used, and what it leaves. -/
def ipmaskParse (input : CStr) : Option (Nat × Aceptada) :=
  (parseFormas input).map fun r ↦ (input.length - r.resto.length, r)

end Checked

/-- What is promised of a mask that is accepted. -/
structure Aceptada.Cabal (r : Aceptada) (input : CStr) (count : Nat) : Prop where
  pbits : ∃ bits, r.pbits = some bits ∧ bits ≤ 128
  sufijo : r.resto <:+ input
  count : count ≤ input.length
  log : Cabales r.log

/-! ## The masks -/

/-- A character in front of the prefix length and of the wildcard. -/
def esDireccion (c : Char) : Bool :=
  c ≠ '/' ∧ c ≠ '*'

/-- The part of a mask in front of the prefix length or of the wildcard. -/
def direccion (input : CStr) : CStr :=
  input.takeWhile esDireccion

/-- The prefix length with its slash, or the wildcard. -/
def sufijo (input : CStr) : CStr :=
  input.dropWhile esDireccion

/-- The number of segments that end at a colon. A double colon ends one. -/
def cierres : CStr → Nat
  | [] => 0
  | ':' :: ':' :: input => cierres input + 1
  | ':' :: input => cierres input + 1
  | _ :: input => cierres input

/-- The text behind a double colon. -/
def trasDoble : CStr → CStr
  | ':' :: ':' :: input => input
  | input => input

/-- Dots that leave no more than four octets, behind some. A wildcard stands for the octets behind
the fourth dot. -/
def CuatroOctetos (dots : Nat) (input : CStr) : Prop :=
  dots + (direccion input).count '.' ≤ 3 ∨
    dots + (direccion input).count '.' = 4 ∧ (sufijo input).head? = some '*'

instance (dots : Nat) (input : CStr) : Decidable (CuatroOctetos dots input) :=
  inferInstanceAs (Decidable (_ ∨ _))

/-- A decimal number, behind some digits. -/
def valorDecimal (n : Nat) (ds : CStr) : Nat :=
  ds.foldl (fun n c ↦ n * 10 + cifra c) n

/-- The number behind the slash. -/
def prefijo (input : CStr) : Nat :=
  valorDecimal 0 ((sufijo input).tail.takeWhile isDigit)

/-- The masks that are parsed to their end, within the bounds. -/
def BienFormada (input : CStr) : Prop :=
  cierres (trasDoble (direccion input)) < 8 ∧ CuatroOctetos 0 input ∧ prefijo input < 2 ^ 32

instance (input : CStr) : Decidable (BienFormada input) :=
  inferInstanceAs (Decidable (_ ∧ _))

/-! ## The instrumented parser -/

section

variable {bits dots part ip colon : Nat} {partStart : Option CStr} {segs : List UInt16}
  {log : List Suceso} {input : CStr}

/-- What the recording of the steps leaves as it is. -/
theorem Checked.leeBits_eq (bits : Nat) (log : List Suceso) (input : CStr) :
    ((Checked.leeBits bits log input).1, (Checked.leeBits bits log input).2.1) =
      Addr.leeBits bits input := by
  induction input generalizing bits log with
  | nil => rfl
  | cons c input ih =>
      rw [Checked.leeBits, Addr.leeBits]
      split
      · exact ih _ _
      · rfl

theorem Checked.atonDesde_eq (dots part ip : Nat) (log : List Suceso) (input : CStr) :
    (Checked.atonDesde dots part ip log input).map (fun r ↦ (r.resto, r.ip, r.pbits)) =
      Addr.atonDesde true dots part ip input := by
  fun_induction Checked.atonDesde dots part ip log input with
  | case1 dots part ip log hdots => simp [Addr.atonDesde, hdots]
  | case2 dots part ip log hdots => simp [Addr.atonDesde, hdots]
  | case3 dots part ip log input hdot => simp [Addr.atonDesde, hdot]
  | case4 dots part ip log input hdot hstar hend =>
      rw [Addr.atonDesde, if_neg hdot, if_pos hstar, hend]
      rfl
  | case5 dots part ip log input hdot hstar c rest hend =>
      rw [Addr.atonDesde, if_neg hdot, if_pos hstar, hend]
      rfl
  | case6 dots part ip log input hdot hstar ih => simp [Addr.atonDesde, hdot, hstar, ih]
  | case7 dots part ip log input hdigit =>
      rw [Addr.atonDesde, if_pos (by simpa using hdigit)]
      rfl
  | case8 dots part ip log input hdigit bits resto log' hbits hbound =>
      have heq := Checked.leeBits_eq 0 log input
      rw [hbits] at heq
      rw [Addr.atonDesde, if_neg (by simpa using hdigit), ← heq, if_pos hbound]
      rfl
  | case9 dots part ip log input hdigit bits resto log' hbits hbound =>
      have heq := Checked.leeBits_eq 0 log input
      rw [hbits] at heq
      rw [Addr.atonDesde, if_neg (by simpa using hdigit), ← heq, if_neg hbound]
      rfl
  | case10 dots part ip log c input hdot hslash hdigit =>
      rw [Addr.atonDesde, if_pos hdigit]
      · rfl
      · exact hdot
      · exact hslash
  | case11 dots part ip log c input hdot hslash hdigit valor hbound =>
      rw [Addr.atonDesde, if_neg hdigit, if_pos hbound]
      · rfl
      · exact hdot
      · exact hslash
  | case12 dots part ip log c input hdot hslash hdigit valor hbound ih =>
      rw [Addr.atonDesde, if_neg hdigit, if_neg hbound]
      · exact ih
      · exact hdot
      · exact hslash

theorem Checked.ircdAtonIp4_eq (log : List Suceso) (input : CStr) :
    (Checked.ircdAtonIp4 log input).map (fun r ↦ (r.resto, r.ip, r.pbits)) =
      Addr.ircdAtonIp4 true input := by
  rw [Checked.ircdAtonIp4, Addr.ircdAtonIp4]
  split
  · rfl
  · exact Checked.atonDesde_eq 0 0 0 log input

/-- The address behind the last colon. -/
theorem Checked.bind_ircdAtonIp4_eq (log : List Suceso) (partStart : Option CStr) :
    (partStart.bind (Checked.ircdAtonIp4 log)).map (fun r ↦ (r.resto, r.ip, r.pbits)) =
      partStart.bind (Addr.ircdAtonIp4 true) := by
  cases partStart with
  | none => rfl
  | some input => exact Checked.ircdAtonIp4_eq log input

theorem Checked.parseSegmentos_eq (part colon : Nat) (partStart : Option CStr) (segs : List UInt16)
    (log : List Suceso) (input : CStr) :
    (Checked.parseSegmentos part colon partStart segs log input).map
        (fun r ↦ (r.resto, r.words, r.pbits)) =
      Addr.parseSegmentos true part colon partStart segs input := by
  fun_induction Checked.parseSegmentos part colon partStart segs log input with
  | case1 part colon partStart segs log hfew => rw [Addr.parseSegmentos, if_pos hfew]; rfl
  | case2 part colon partStart segs log hfew => rw [Addr.parseSegmentos, if_neg hfew]; rfl
  | case3 part colon partStart segs log input hcolon => rw [Addr.parseSegmentos, if_pos hcolon]; rfl
  | case4 part colon partStart segs log input segs' log' hcolon hroom ih =>
      rw [Addr.parseSegmentos, if_neg hcolon, if_pos hroom]
      exact ih
  | case5 part colon partStart segs log input segs' log' hcolon hroom =>
      rw [Addr.parseSegmentos, if_neg hcolon, if_neg hroom]
      rfl
  | case6 part colon partStart segs log input hsingle hdot =>
      rw [Addr.parseSegmentos, if_pos hdot]
      · rfl
      · exact hsingle
  | case7 part colon partStart segs log input hsingle segs' log' hdot hroom ih =>
      rw [Addr.parseSegmentos, if_neg hdot, if_pos hroom]
      · exact ih
      · exact hsingle
  | case8 part colon partStart segs log input hsingle segs' log' hdot hroom =>
      rw [Addr.parseSegmentos, if_neg hdot, if_neg hroom]
      · rfl
      · exact hsingle
  | case9 part colon partStart segs log input hip4 =>
      rw [Addr.parseSegmentos, ← bind_ircdAtonIp4_eq log, hip4]
      rfl
  | case10 part colon partStart segs log input r hip4 hroom =>
      rw [Addr.parseSegmentos, ← bind_ircdAtonIp4_eq log, hip4]
      exact (if_pos hroom).symm
  | case11 part colon partStart segs log input r hip4 hroom =>
      rw [Addr.parseSegmentos, ← bind_ircdAtonIp4_eq log, hip4]
      exact (if_neg hroom).symm
  | case12 part colon partStart segs log input hdigit =>
      rw [Addr.parseSegmentos, if_pos (by simpa using hdigit)]
      rfl
  | case13 part colon partStart segs log input hdigit bits resto log' hbits hbound =>
      have heq := Checked.leeBits_eq 0 (.segmento segs.length :: log) input
      rw [hbits] at heq
      rw [Addr.parseSegmentos, if_neg (by simpa using hdigit), ← heq, if_pos hbound]
      rfl
  | case14 part colon partStart segs log input hdigit bits resto log' hbits hbound =>
      have heq := Checked.leeBits_eq 0 (.segmento segs.length :: log) input
      rw [hbits] at heq
      rw [Addr.parseSegmentos, if_neg (by simpa using hdigit), ← heq, if_neg hbound]
      rfl
  | case15 part colon partStart segs log input hend hcolon =>
      rw [Addr.parseSegmentos, hend]
      exact (if_pos hcolon).symm
  | case16 part colon partStart segs log input hend hcolon =>
      rw [Addr.parseSegmentos, hend]
      exact (if_neg hcolon).symm
  | case17 part colon partStart segs log input c rest hend =>
      rw [Addr.parseSegmentos, hend]
      rfl
  | case18 part colon partStart segs log c input hdouble hsingle hdot hslash hstar hval =>
      rw [Addr.parseSegmentos, hval]
      all_goals first | rfl | assumption
  | case19 part colon partStart segs log c input hdouble hsingle hdot hslash hstar v hval hbound =>
      rw [Addr.parseSegmentos, hval]
      · exact (if_pos hbound).symm
      all_goals assumption
  | case20 part colon partStart segs log c input hdouble hsingle hdot hslash hstar v hval hbound
      ih =>
      rw [Addr.parseSegmentos, hval]
      · exact ih.trans (if_neg hbound).symm
      all_goals assumption

/-- The recorded parser is the parser of the source. -/
theorem Checked.ipmaskParse_eq (input : CStr) :
    (Checked.ipmaskParse input).map (fun r ↦ (r.1, conSegmentos r.2.words, r.2.pbits)) =
      Addr.ipmaskParse input true := by
  have hformas : (Checked.parseFormas input).map (fun r ↦ (r.resto, r.words, r.pbits)) =
      Addr.parseFormas input true := by
    unfold Checked.parseFormas Addr.parseFormas
    split
    · split
      · next resto _ =>
          by_cases hlee : lee resto = ':'
          · simp [hlee]
          · simpa [hlee] using Checked.parseSegmentos_eq 0 0 (some resto) [] [] resto
      · simp
      · simpa using Checked.parseSegmentos_eq _ _ _ _ _ _
    · split
      · rw [← Checked.ircdAtonIp4_eq []]
        cases Checked.ircdAtonIp4 [] input <;> rfl
      · split
        · cases input.dropWhile (· = '*') <;> rfl
        · rfl
  rw [Addr.ipmaskParse, ← hformas, Checked.ipmaskParse, Option.map_map, Option.map_map]
  rfl

/-! ## The parts of a mask -/

theorem cabales_cons {s : Suceso} : Cabales (s :: log) ↔ s.Cabal ∧ Cabales log :=
  List.forall_mem_cons

/-- An octet is in its bounds as long as it is one of the first four. -/
theorem cabales_guardaOcteto : Cabales (guardaOcteto dots ++ log) ↔ dots ≤ 3 ∧ Cabales log := by
  show Cabales (.octeto dots :: .desplaza (24 - 8 * dots) :: log) ↔ _
  rw [cabales_cons, cabales_cons, Suceso.Cabal, Suceso.Cabal, ← and_assoc]
  exact and_congr_left fun _ ↦ by omega

theorem cabales_segmento {ii : Nat} (h : ii < 8) :
    Cabales (.segmento ii :: log) ↔ Cabales log := by
  rw [cabales_cons, Suceso.Cabal, and_iff_right h]

variable {c : Char}

theorem direccion_cons (h : esDireccion c = true) : direccion (c :: input) = c :: direccion input :=
  List.takeWhile_cons_of_pos h

theorem sufijo_cons (h : esDireccion c = true) : sufijo (c :: input) = sufijo input :=
  List.dropWhile_cons_of_pos h

theorem esDireccion_of_isDigit (h : isDigit c = true) : esDireccion c = true := by
  rw [esDireccion, decide_eq_true_iff]
  constructor <;> rintro rfl <;> exact absurd h (by decide)

/-- The character that a pointer reads is the first one of the text. -/
theorem cons_of_lee (h : lee input = c) (hc : c ≠ nul) : ∃ rest, input = c :: rest := by
  cases input with
  | nil => exact absurd h.symm hc
  | cons d rest => exact ⟨rest, by rw [← h]; rfl⟩

theorem direccion_of_neg (h : esDireccion c = false) : direccion (c :: input) = [] :=
  List.takeWhile_cons_of_neg (by simp [h])

theorem sufijo_of_neg (h : esDireccion c = false) : sufijo (c :: input) = c :: input :=
  List.dropWhile_cons_of_neg (by simp [h])

theorem prefijo_cons (h : esDireccion c = true) : prefijo (c :: input) = prefijo input := by
  rw [prefijo, sufijo_cons h, prefijo]

/-- A dot ends an octet. -/
theorem cuatroOctetos_dot : CuatroOctetos dots ('.' :: input) ↔ CuatroOctetos (dots + 1) input := by
  rw [CuatroOctetos, direccion_cons rfl, sufijo_cons rfl, List.count_cons_self, CuatroOctetos]
  constructor <;> rintro (h | ⟨h, hstar⟩) <;> first | exact .inl (by omega) |
    exact .inr ⟨by omega, hstar⟩

theorem cuatroOctetos_cons (h : esDireccion c = true) (hdot : c ≠ '.') :
    CuatroOctetos dots (c :: input) ↔ CuatroOctetos dots input := by
  rw [CuatroOctetos, direccion_cons h, sufijo_cons h, List.count_cons_of_ne hdot, CuatroOctetos]

/-- In front of the prefix length there is no dot left. -/
theorem cuatroOctetos_slash : CuatroOctetos dots ('/' :: input) ↔ dots ≤ 3 := by
  rw [CuatroOctetos, direccion_of_neg rfl, sufijo_of_neg rfl]
  simp

theorem cuatroOctetos_nil : CuatroOctetos dots [] ↔ dots ≤ 3 := by
  rw [CuatroOctetos, direccion, sufijo]
  simp

/-- A wildcard stands for the octets that are left. -/
theorem cuatroOctetos_star : CuatroOctetos dots ('*' :: input) ↔ dots ≤ 4 := by
  rw [CuatroOctetos, direccion_of_neg rfl, sufijo_of_neg rfl]
  simp only [List.count_nil, List.head?_cons, and_true]
  omega

theorem CuatroOctetos.le (h : CuatroOctetos dots input) : dots ≤ 4 := by
  rw [CuatroOctetos] at h
  obtain h | ⟨h, -⟩ := h <;> omega

theorem valorDecimal_cons (n : Nat) (ds : CStr) :
    valorDecimal n (c :: ds) = valorDecimal (n * 10 + cifra c) ds := by
  rw [valorDecimal, List.foldl_cons, valorDecimal]

/-- More digits are a larger number. -/
theorem le_valorDecimal (n : Nat) (ds : CStr) : n ≤ valorDecimal n ds := by
  induction ds generalizing n with
  | nil => exact le_rfl
  | cons c ds ih =>
      have hle : n ≤ n * 10 + cifra c := by omega
      exact hle.trans (ih _)

/-! ## The steps of the parser -/

theorem Checked.cabales_of_leeBits (h : Cabales (Checked.leeBits bits log input).2.2) :
    Cabales log := by
  induction input generalizing bits log with
  | nil => exact h
  | cons c input ih =>
      rw [Checked.leeBits] at h
      split at h
      · exact (cabales_cons.mp (ih h)).2
      · exact h

/-- No number wraps around as long as the one that is read is small. -/
theorem Checked.cabales_leeBits (hbits : bits < 2 ^ 32) :
    Cabales (Checked.leeBits bits log input).2.2 ↔
      Cabales log ∧ valorDecimal bits (input.takeWhile isDigit) < 2 ^ 32 := by
  induction input generalizing bits log with
  | nil => exact (and_iff_left hbits).symm
  | cons c input ih =>
      rw [Checked.leeBits]
      by_cases hdigit : isDigit c = true
      · rw [if_pos hdigit, List.takeWhile_cons_of_pos hdigit, valorDecimal_cons]
        dsimp only
        by_cases hvalor : bits * 10 + cifra c < 2 ^ 32
        · rw [ih (Nat.mod_lt _ (by decide)), Nat.mod_eq_of_lt hvalor, cabales_cons,
            Suceso.Cabal, and_iff_right hvalor]
        · constructor
          · intro h
            exact absurd (cabales_cons.mp (Checked.cabales_of_leeBits h)).1 hvalor
          · intro h
            exact absurd ((le_valorDecimal _ _).trans_lt h.2) hvalor
      · rw [if_neg hdigit, List.takeWhile_cons_of_neg hdigit]
        exact (and_iff_left hbits).symm

theorem Checked.suffix_leeBits : (Checked.leeBits bits log input).2.1 <:+ input := by
  induction input generalizing bits log with
  | nil => exact List.suffix_rfl
  | cons c input ih =>
      rw [Checked.leeBits]
      split
      · exact ih.trans (List.suffix_cons _ _)
      · exact List.suffix_rfl

theorem prefijo_nil : prefijo [] = 0 :=
  rfl

/-- The number behind a slash. -/
theorem prefijo_slash (input : CStr) :
    prefijo ('/' :: input) = valorDecimal 0 (input.takeWhile isDigit) := by
  rw [prefijo, sufijo_of_neg rfl, List.tail_cons]

/-- Behind a wildcard there is no number. -/
theorem prefijo_star {p : Char → Bool} (hp : ∀ c, p c = true → isDigit c = false)
    (hend : input.dropWhile p = []) : prefijo ('*' :: input) = 0 := by
  rw [prefijo, sufijo_of_neg rfl, List.tail_cons]
  cases input with
  | nil => rfl
  | cons c input =>
      have hc : p c = true := List.dropWhile_eq_nil_iff.mp hend c List.mem_cons_self
      rw [List.takeWhile_cons_of_neg (by simp [hp c hc])]
      rfl

/-- What the loop of `ircd_aton_ip4` does from a place on. -/
theorem Checked.atonDesde_spec (hpart : part ≤ 255) {r : LeidaIp4}
    (h : Checked.atonDesde dots part ip log input = some r) :
    r.resto <:+ input ∧ ':' ∉ direccion input ∧
      (Cabales r.log ↔ Cabales log ∧ CuatroOctetos dots input ∧ prefijo input < 2 ^ 32) ∧
      ∃ b, r.pbits = some b ∧ (CuatroOctetos dots input → b ≤ 32) := by
  fun_induction Checked.atonDesde dots part ip log input with
  | case1 => cases h
  | case2 dots part ip log hdots =>
      obtain rfl := Option.some.inj h
      refine ⟨List.suffix_rfl, by simp [direccion], ?_, 32, rfl, fun _ ↦ le_rfl⟩
      rw [cabales_guardaOcteto, and_comm, cuatroOctetos_nil, prefijo_nil]
      simp
  | case3 => cases h
  | case4 dots part ip log input hdot hstar hend =>
      obtain rfl := Option.some.inj h
      obtain ⟨input, rfl⟩ := cons_of_lee hstar (by decide)
      have hprefijo := prefijo_star (p := fun c ↦ c = '*' ∨ c = '.') (by simp [isDigit])
        (by simpa using hend)
      refine ⟨List.nil_suffix, ?_, ?_, _, rfl, ?_⟩
      · rw [direccion_cons rfl, direccion_of_neg rfl]
        decide
      · rw [cabales_guardaOcteto, and_comm, cuatroOctetos_dot, cuatroOctetos_star,
          prefijo_cons rfl, hprefijo, Nat.succ_le_succ_iff]
        exact and_congr_right fun _ ↦ (and_iff_left (by decide)).symm
      · rw [cuatroOctetos_dot, cuatroOctetos_star]
        omega
  | case5 => cases h
  | case6 dots part ip log input hdot hstar ih =>
      obtain ⟨hsuffix, hcolon, hlog, b, hb, hle⟩ := ih (Nat.zero_le _) h
      refine ⟨hsuffix.trans (List.suffix_cons _ _), ?_, ?_, b, hb, ?_⟩
      · rw [direccion_cons rfl]
        simpa using hcolon
      · rw [hlog, cabales_guardaOcteto, cuatroOctetos_dot, prefijo_cons rfl]
        constructor
        · exact fun ⟨⟨_, hlog⟩, h⟩ ↦ ⟨hlog, h⟩
        · exact fun ⟨hlog, hfour, h⟩ ↦ ⟨⟨by have := hfour.le; omega, hlog⟩, hfour, h⟩
      · rwa [cuatroOctetos_dot]
  | case7 => cases h
  | case8 => cases h
  | case9 dots part ip log input hdigit bits resto log' hbits hbound =>
      obtain rfl := Option.some.inj h
      have hlog := @Checked.cabales_leeBits 0 log input (by decide)
      have hsuffix := @Checked.suffix_leeBits 0 log input
      rw [hbits] at hlog hsuffix
      refine ⟨hsuffix.trans (List.suffix_cons _ _), ?_, ?_, bits, rfl, fun _ ↦ by omega⟩
      · rw [direccion_of_neg rfl]
        simp
      · rw [cabales_guardaOcteto, hlog, cuatroOctetos_slash, prefijo_slash]
        tauto
  | case10 => cases h
  | case11 => cases h
  | case12 dots part ip log c input hdot hslash hdigit valor hbound ih =>
      obtain ⟨hsuffix, hcolon, hlog, b, hb, hle⟩ := ih (by omega) h
      have hdigit : isDigit c = true := by simpa using hdigit
      have hc : esDireccion c = true := esDireccion_of_isDigit hdigit
      have hvalor : (Suceso.computa valor).Cabal := by
        show valor < 2 ^ 32
        omega
      refine ⟨hsuffix.trans (List.suffix_cons _ _), ?_, ?_, b, hb, ?_⟩
      · rw [direccion_cons hc, List.mem_cons, not_or]
        exact ⟨fun heq ↦ absurd hdigit (by rw [← heq]; decide), hcolon⟩
      · rw [hlog, cabales_cons, and_iff_right hvalor, cuatroOctetos_cons hc hdot, prefijo_cons hc]
      · rwa [cuatroOctetos_cons hc hdot]

theorem Checked.ircdAtonIp4_spec {r : LeidaIp4} (h : Checked.ircdAtonIp4 log input = some r) :
    r.resto <:+ input ∧ ':' ∉ direccion input ∧
      (Cabales r.log ↔ Cabales log ∧ CuatroOctetos 0 input ∧ prefijo input < 2 ^ 32) ∧
      ∃ b, r.pbits = some b ∧ (CuatroOctetos 0 input → b ≤ 32) := by
  rw [Checked.ircdAtonIp4] at h
  split at h
  · cases h
  · exact Checked.atonDesde_spec (Nat.zero_le _) h

/-- The bits of an IPv4 address behind those of its prefix. -/
theorem bits_ip4 {b : Nat} (hb : b ≤ 32) : (b + 96) % 256 ≤ 128 := by
  omega

theorem cierres_cons (h : c ≠ ':') : cierres (c :: input) = cierres input := by
  rw [cierres] <;> simp [h]

theorem cierres_of_not_mem (h : ':' ∉ input) : cierres input = 0 := by
  induction input with
  | nil => rfl
  | cons c input ih =>
      rw [List.mem_cons, not_or] at h
      rw [cierres_cons (Ne.symm h.1), ih h.2]

/-- A double colon ends one segment. -/
theorem cierres_double :
    cierres (direccion (':' :: ':' :: input)) = cierres (direccion input) + 1 := by
  rw [direccion_cons rfl, direccion_cons rfl, cierres]

/-- So does a single one. -/
theorem cierres_single (h : ∀ rest, input = ':' :: rest → False) :
    cierres (direccion (':' :: input)) = cierres (direccion input) + 1 := by
  rw [direccion_cons rfl, cierres]
  intro rest hrest
  cases input with
  | nil => cases hrest
  | cons c input =>
      cases hc : esDireccion c with
      | false =>
          rw [direccion_of_neg hc] at hrest
          cases hrest
      | true =>
          rw [direccion_cons hc] at hrest
          exact h input (by rw [(List.cons.inj hrest).1])

/-- What is in front of a place in a segment. -/
theorem cuatroOctetos_append {ds : CStr} (h : ∀ c ∈ ds, esDireccion c = true ∧ c ≠ '.') (dots : Nat)
    (input : CStr) :
    (CuatroOctetos dots (ds ++ input) ↔ CuatroOctetos dots input) ∧
      prefijo (ds ++ input) = prefijo input ∧
      direccion (ds ++ input) = ds ++ direccion input := by
  induction ds with
  | nil => exact ⟨Iff.rfl, rfl, rfl⟩
  | cons c ds ih =>
      obtain ⟨hfour, hprefijo, hdir⟩ := ih fun d hd ↦ h d (List.mem_cons_of_mem _ hd)
      obtain ⟨hc, hdot⟩ := h c List.mem_cons_self
      refine ⟨?_, ?_, ?_⟩
      · rw [List.cons_append, cuatroOctetos_cons hc hdot, hfour]
      · rw [List.cons_append, prefijo_cons hc, hprefijo]
      · rw [List.cons_append, direccion_cons hc, hdir, List.cons_append]

/-- A colon behind the eighth segment leaves the bits out, and the mask has one colon too many. -/
theorem iff_of_noveno {n k : Nat} {nuevo : List Suceso} {p : Prop} (h : ¬n + k < 8) :
    (∃ b, (none : Option Nat) = some b ∧ b ≤ 128) ∧ Cabales nuevo ↔
      Cabales log ∧ n + k < 8 ∧ p := by
  constructor
  · exact fun ⟨⟨b, hb, _⟩, _⟩ ↦ absurd hb.symm (Option.some_ne_none b)
  · exact fun ⟨_, hlt, _⟩ ↦ absurd hlt h

/-- The IPv4 address at the end of a mask is read again from the start of its segment. -/
theorem Checked.segmento_ip4 {t ds : CStr} {r : LeidaIp4} (hsegs : segs.length < 8)
    (hroom : ¬segs.length > 6) (ht : t = ds ++ '.' :: input)
    (hds : ∀ c ∈ ds, esDireccion c = true ∧ c ≠ '.')
    (hr : Checked.ircdAtonIp4 log t = some r) :
    r.resto <:+ t ∧
      ((∃ b, r.pbits.map (fun b ↦ (b + 96) % 256) = some b ∧ b ≤ 128) ∧
          Cabales (.segmento (segs.length + 1) :: .segmento segs.length :: r.log) ↔
        Cabales log ∧ segs.length + cierres (direccion ('.' :: input)) < 8 ∧
          CuatroOctetos 0 ('.' :: input) ∧ prefijo ('.' :: input) < 2 ^ 32) := by
  subst ht
  obtain ⟨hresto, hcolon, hlog, b, hb, hle⟩ := Checked.ircdAtonIp4_spec hr
  obtain ⟨hfour, hprefijo, hdir⟩ := cuatroOctetos_append hds 0 ('.' :: input)
  rw [hdir, List.mem_append, not_or] at hcolon
  rw [hfour, hprefijo] at hlog
  rw [hfour] at hle
  refine ⟨hresto, ?_⟩
  rw [cabales_segmento (by omega), cabales_segmento hsegs, hlog,
    cierres_of_not_mem hcolon.2, add_zero, and_iff_right hsegs]
  exact and_iff_right_of_imp fun hall ↦ ⟨_, by rw [hb]; rfl, bits_ip4 (hle hall.2.1)⟩

/-- The bits behind a slash. -/
theorem Checked.segmento_bits {bits : Nat} {resto : CStr} {log' : List Suceso}
    (hsegs : segs.length < 8)
    (hbits : Checked.leeBits 0 (.segmento segs.length :: log) input = (bits, resto, log'))
    (hbound : ¬bits > 128) :
    resto <:+ input ∧
      ((∃ b, some bits = some b ∧ b ≤ 128) ∧ Cabales log' ↔
        Cabales log ∧ segs.length + cierres (direccion ('/' :: input)) < 8 ∧
          CuatroOctetos 0 ('/' :: input) ∧ prefijo ('/' :: input) < 2 ^ 32) := by
  have hlog := @Checked.cabales_leeBits 0 (.segmento segs.length :: log) input (by decide)
  have hsuffix := @Checked.suffix_leeBits 0 (.segmento segs.length :: log) input
  rw [hbits] at hlog hsuffix
  refine ⟨hsuffix, ?_⟩
  have hzero : segs.length + cierres (direccion ('/' :: input)) < 8 := by
    rwa [direccion_of_neg rfl]
  have hbits' : ∃ b, some bits = some b ∧ b ≤ 128 := ⟨bits, rfl, by omega⟩
  rw [and_iff_right hbits', and_iff_right hzero, cuatroOctetos_slash, prefijo_slash, hlog,
    cabales_segmento hsegs, and_iff_right (Nat.zero_le 3)]

/-- Wildcards end an address. -/
theorem Checked.segmento_star (hsegs : segs.length < 8)
    (hend : input.dropWhile (fun c ↦ c = '*' ∨ c = ':') = []) :
    (∃ b, some (segs.length * 16) = some b ∧ b ≤ 128) ∧ Cabales log ↔
      Cabales log ∧ segs.length + cierres (direccion ('*' :: input)) < 8 ∧
        CuatroOctetos 0 ('*' :: input) ∧ prefijo ('*' :: input) < 2 ^ 32 := by
  have hzero : segs.length + cierres (direccion ('*' :: input)) < 8 := by
    rwa [direccion_of_neg rfl]
  have hbits : ∃ b, some (segs.length * 16) = some b ∧ b ≤ 128 := ⟨_, rfl, by omega⟩
  have hprefijo := prefijo_star (p := fun c ↦ c = '*' ∨ c = ':') (by simp [isDigit])
    (by simpa using hend)
  rw [and_iff_right hbits, and_iff_right hzero, cuatroOctetos_star, hprefijo]
  simp

/-- What the loop of `ipmask_parse` does from a place on. `partStart` is a place in front of it in
the same segment. -/
theorem Checked.parseSegmentos_spec {whole : CStr} (hsegs : segs.length < 8)
    (hwhole : input <:+ whole)
    (hstart : ∀ t ∈ partStart, t <:+ whole ∧
      ∃ ds, t = ds ++ input ∧ ∀ c ∈ ds, esDireccion c = true ∧ c ≠ '.')
    {r : Aceptada} (h : Checked.parseSegmentos part colon partStart segs log input = some r) :
    r.resto <:+ whole ∧
      ((∃ b, r.pbits = some b ∧ b ≤ 128) ∧ Cabales r.log ↔
        Cabales log ∧ segs.length + cierres (direccion input) < 8 ∧ CuatroOctetos 0 input ∧
          prefijo input < 2 ^ 32) := by
  fun_induction Checked.parseSegmentos part colon partStart segs log input with
  | case1 => cases h
  | case2 part colon partStart segs log hfew =>
      obtain rfl := Option.some.inj h
      have hnone : segs.length + cierres (direccion []) < 8 := hsegs
      refine ⟨List.nil_suffix, ?_⟩
      rw [cabales_segmento hsegs, cuatroOctetos_nil, prefijo_nil]
      simp [hnone]
  | case3 => cases h
  | case4 part colon partStart segs log input segs' log' hcolon hroom ih =>
      have hrest : input <:+ whole :=
        ((List.suffix_cons _ _).trans (List.suffix_cons _ _)).trans hwhole
      obtain ⟨hsuffix, hiff⟩ := ih hroom hrest (fun t ht ↦ by
        obtain rfl := Option.some.inj ht
        exact ⟨(List.suffix_cons _ _).trans hwhole, [':'], rfl, by simp [esDireccion]⟩) h
      refine ⟨hsuffix, ?_⟩
      have hlen : segs'.length = segs.length + 1 := List.length_append
      rw [hiff, cabales_segmento hsegs, cierres_double, hlen, cuatroOctetos_cons rfl (by decide),
        cuatroOctetos_cons rfl (by decide), prefijo_cons rfl, prefijo_cons rfl, add_right_comm,
        add_assoc]
  | case5 part colon partStart segs log input segs' log' hcolon hroom =>
      obtain rfl := Option.some.inj h
      refine ⟨((List.suffix_cons _ _).trans (List.suffix_cons _ _)).trans hwhole, ?_⟩
      simp only [segs', List.length_append, List.length_singleton] at hroom
      rw [cierres_double]
      exact iff_of_noveno (by omega)
  | case6 => cases h
  | case7 part colon partStart segs log input hsingle segs' log' hdot hroom ih =>
      have hrest : input <:+ whole := (List.suffix_cons _ _).trans hwhole
      obtain ⟨hsuffix, hiff⟩ := ih hroom hrest (fun t ht ↦ by
        obtain rfl := Option.some.inj ht
        exact ⟨hrest, [], rfl, by simp⟩) h
      refine ⟨hsuffix, ?_⟩
      have hlen : segs'.length = segs.length + 1 := List.length_append
      rw [hiff, cabales_segmento hsegs, cierres_single hsingle, hlen,
        cuatroOctetos_cons rfl (by decide), prefijo_cons rfl, add_right_comm, add_assoc]
  | case8 part colon partStart segs log input hsingle segs' log' hdot hroom =>
      obtain rfl := Option.some.inj h
      refine ⟨(List.suffix_cons _ _).trans hwhole, ?_⟩
      simp only [segs', List.length_append, List.length_singleton] at hroom
      rw [cierres_single hsingle]
      exact iff_of_noveno (by omega)
  | case9 => cases h
  | case10 => cases h
  | case11 part colon partStart segs log input r hip4 hroom =>
      obtain rfl := Option.some.inj h
      obtain ⟨t, ht, hr⟩ := Option.bind_eq_some_iff.mp hip4
      obtain ⟨hsuffix, ds, hts, hds⟩ := hstart t ht
      obtain ⟨hresto, hiff⟩ := Checked.segmento_ip4 hsegs hroom hts hds hr
      exact ⟨hresto.trans hsuffix, hiff⟩
  | case12 => cases h
  | case13 => cases h
  | case14 part colon partStart segs log input hdigit bits resto log' hbits hbound =>
      obtain rfl := Option.some.inj h
      obtain ⟨hsuffix, hiff⟩ := Checked.segmento_bits hsegs hbits hbound
      exact ⟨(hsuffix.trans (List.suffix_cons _ _)).trans hwhole, hiff⟩
  | case15 => cases h
  | case16 part colon partStart segs log input hend hcolon =>
      obtain rfl := Option.some.inj h
      exact ⟨List.nil_suffix, Checked.segmento_star hsegs (by simpa using hend)⟩
  | case17 => cases h
  | case18 => cases h
  | case19 => cases h
  | case20 part colon partStart segs log c input hdouble hsingle hdot hslash hstar v hval hbound
      ih =>
      have hc : esDireccion c = true := by
        rw [esDireccion, decide_eq_true_iff]
        exact ⟨hslash, hstar⟩
      obtain ⟨hsuffix, hiff⟩ := ih hsegs ((List.suffix_cons _ _).trans hwhole) (fun t ht ↦ by
        obtain ⟨hsuffix, ds, rfl, hds⟩ := hstart t ht
        refine ⟨hsuffix, ds ++ [c], by simp, fun d hd ↦ ?_⟩
        rcases List.mem_append.mp hd with hd | hd
        · exact hds d hd
        · rw [List.mem_singleton.mp hd]
          exact ⟨hc, hdot⟩) h
      have hvalor : (Suceso.computa (part <<< 4 ||| v)).Cabal := by
        show part <<< 4 ||| v < 2 ^ 32
        omega
      have hshift : (Suceso.desplaza 4).Cabal := by decide
      refine ⟨hsuffix, ?_⟩
      rw [hiff, cabales_cons, cabales_cons, and_iff_right hvalor, and_iff_right hshift,
        direccion_cons hc, cierres_cons hsingle, cuatroOctetos_cons hc hdot, prefijo_cons hc]

end

/-! ## The three forms -/

section

variable {input : CStr} {r : Aceptada}

/-- Without a colon in front there is no double one. -/
theorem trasDoble_eq (h : ∀ rest, input = ':' :: rest → False) : trasDoble input = input := by
  rw [trasDoble]
  exact fun rest hrest ↦ h _ hrest

/-- The address starts as the mask does. -/
theorem eq_cons_of_direccion {c : Char} {rest : CStr} (h : direccion input = c :: rest) :
    ∃ tail, input = c :: tail := by
  obtain ⟨tail, htail⟩ := List.takeWhile_prefix (p := esDireccion) (l := input)
  exact ⟨rest ++ tail, by rw [← htail, ← List.cons_append, ← h]; rfl⟩

/-- What the parser does on a mask that it accepts. -/
theorem Checked.parseFormas_spec (h : Checked.parseFormas input = some r) :
    r.resto <:+ input ∧
      ((∃ b, r.pbits = some b ∧ b ≤ 128) ∧ Cabales r.log ↔ BienFormada input) := by
  have hnil : Cabales [] := by simp [Cabales]
  unfold Checked.parseFormas at h
  split at h
  · split at h
    -- a double colon in front
    · next resto _ =>
        split at h
        · cases h
        · have hresto : resto <:+ ':' :: ':' :: resto :=
            (List.suffix_cons ':' resto).trans (List.suffix_cons ':' _)
          obtain ⟨hsuffix, hiff⟩ := Checked.parseSegmentos_spec (by decide) hresto (fun t ht ↦ by
            obtain rfl := Option.some.inj ht
            exact ⟨hresto, [], rfl, by simp⟩) h
          refine ⟨hsuffix, ?_⟩
          rw [hiff, and_iff_right hnil, BienFormada, direccion_cons rfl, direccion_cons rfl,
            trasDoble, cuatroOctetos_cons rfl (by decide), cuatroOctetos_cons rfl (by decide),
            prefijo_cons rfl, prefijo_cons rfl, List.length_nil, Nat.zero_add]
    · cases h
    -- a segment in front
    · next hdouble hsingle =>
        obtain ⟨hsuffix, hiff⟩ := Checked.parseSegmentos_spec (by decide) List.suffix_rfl
          (fun t ht ↦ by cases ht) h
        have hfront : trasDoble (direccion input) = direccion input :=
          trasDoble_eq fun rest hrest ↦ by
            obtain ⟨tail, htail⟩ := eq_cons_of_direccion hrest
            exact hsingle tail htail
        refine ⟨hsuffix, ?_⟩
        rw [hiff, and_iff_right hnil, BienFormada, hfront, List.length_nil, Nat.zero_add]
  · split at h
    -- an IPv4 address
    · obtain ⟨r', hr, rfl⟩ := Option.map_eq_some_iff.mp h
      obtain ⟨hresto, hcolon, hlog, b, hb, hle⟩ := Checked.ircdAtonIp4_spec hr
      have hcierres : cierres (trasDoble (direccion input)) < 8 := by
        rw [trasDoble_eq fun rest hrest ↦ hcolon (by rw [hrest]; exact List.mem_cons_self),
          cierres_of_not_mem hcolon]
        decide
      refine ⟨hresto, ?_⟩
      rw [cabales_segmento (by decide), cabales_segmento (by decide), cabales_segmento (by decide),
        hlog, and_iff_right hnil, BienFormada, and_iff_right hcierres]
      exact and_iff_right_of_imp fun hall ↦ ⟨_, by rw [hb]; rfl, bits_ip4 (hle hall.1)⟩
    -- a wildcard
    · split at h
      · next hstar =>
          split at h
          · next hend =>
              obtain rfl := Option.some.inj h
              obtain ⟨input, rfl⟩ := cons_of_lee hstar (by decide)
              have hcierres : cierres (trasDoble (direccion ('*' :: input))) < 8 := by
                rw [direccion_of_neg rfl]
                decide
              have hprefijo := prefijo_star (p := fun c ↦ c = '*') (by simp [isDigit])
                (by simpa using hend)
              refine ⟨List.nil_suffix, iff_of_true ⟨⟨0, rfl, by decide⟩, hnil⟩ ⟨hcierres, ?_, ?_⟩⟩
              · rw [cuatroOctetos_star]
                decide
              · rw [hprefijo]
                decide
          · cases h
      · cases h

/-- A mask that is accepted is reported completely and parsed within the bounds just when in front
of its prefix length or wildcard fewer than eight segments end at a colon and there are no more
dots than four octets have, and its prefix length is a number of 32 bits. -/
theorem ipmaskParse_cabal_iff {count : Nat} (h : Checked.ipmaskParse input = some (count, r)) :
    r.Cabal input count ↔ BienFormada input := by
  obtain ⟨r', hr, hcount⟩ := Option.map_eq_some_iff.mp h
  obtain ⟨rfl, rfl⟩ := Prod.mk.inj hcount
  obtain ⟨hsuffix, hiff⟩ := Checked.parseFormas_spec hr
  rw [← hiff]
  constructor
  · exact fun h ↦ ⟨h.pbits, h.log⟩
  · exact fun ⟨hpbits, hlog⟩ ↦ ⟨hpbits, hsuffix, Nat.sub_le _ _, hlog⟩

end

/-- An address with a prefix length. -/
theorem ipmaskParse_cabal_loopback :
    ∃ r, Checked.ipmaskParse "::127.0.0.1/8".toList = some (13, r) ∧
      r.Cabal "::127.0.0.1/8".toList 13 :=
  ⟨_, rfl, (ipmaskParse_cabal_iff rfl).mpr (by decide +kernel)⟩

/-- Behind an eighth colon the address is accepted without its bits. -/
theorem not_cabal_ipmaskParse :
    ¬∀ input count r, Checked.ipmaskParse input = some (count, r) → count ≠ 0 →
      r.Cabal input count := by
  intro h
  have hcabal := h "1:2:3:4:5:6:7:8:".toList 16 _ rfl (by decide)
  obtain ⟨bits, hbits, -⟩ := hcabal.pbits
  cases hbits

end Ircd.Addr
