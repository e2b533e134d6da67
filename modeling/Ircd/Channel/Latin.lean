import Ircd.Lib.Utf8

/-!
# Channel names in UTF-8

`is_utf8` and `utf8_to_latin1` of `channel.c`. A pointer is the memory from it to the terminator,
and `none` stands for a read behind that. `is_utf8` accepts the encodings of the texts of code
points below U+10000 (`isUtf8_iff`). `utf8_to_latin1` takes the first two bytes of an encoding of
three for a character of their own, and the main result `fiel_iff` is that it drops what is not
Latin-1 if and only if there is no code point from U+0800 to U+3FFF.
-/

namespace Ircd.Channel

open Utf8

/-- `is_utf8`, on the `n` bytes at `src`. -/
def isUtf8 : List UInt8 → Bool
  | [] => true
  | c :: src =>
      if c < 0x80 then isUtf8 src
      else if c &&& 0xE0 = 0xC0 then
        match src with
        | d :: src =>
            if d &&& 0xC0 ≠ 0x80 then false
            else if ((c &&& 0x1F).toNat <<< 6 ||| (d &&& 0x3F).toNat) < 0x80 then false
            else isUtf8 src
        | [] => false
      else if c &&& 0xF0 = 0xE0 then
        match src with
        | d :: e :: src =>
            if d &&& 0xC0 ≠ 0x80 then false
            else if e &&& 0xC0 ≠ 0x80 then false
            else if ((c &&& 0x0F).toNat <<< 12 ||| (d &&& 0x3F).toNat <<< 6 |||
                (e &&& 0x3F).toNat) < 0x800 then false
            else isUtf8 src
        | _ => false
      else false

/-- `utf8_to_latin1`: what it has written at `dst` before the terminator. -/
def utf8ToLatin1 : List UInt8 → Option (List UInt8)
  | [] => none
  | c :: src =>
      if c = 0 then some []
      else if c < 0x80 then (utf8ToLatin1 src).map (c :: ·)
      else if c < 0xC0 then utf8ToLatin1 src
      else
        match src with
        | [] => none
        | d :: src' =>
            if 0x80 ≤ d then
              let utf8 := ((c &&& 0x1F).toNat <<< 6) + (d &&& 0x3F).toNat
              if utf8 < 0x100 then (utf8ToLatin1 src').map (UInt8.ofNat utf8 :: ·)
              else utf8ToLatin1 src'
            else utf8ToLatin1 (d :: src')

/-! ## Bytes -/

/-- The mark of a byte that starts two. -/
theorem and_E0 (b : UInt8) : b &&& 0xE0 = 0xC0 ↔ b.toNat / 32 = 6 := by
  have hbits : ∀ b : BitVec 8, b &&& 0xE0 = 0xC0 ↔ b.toNat / 32 = 6 := by decide
  rw [← UInt8.toBitVec_inj]
  exact hbits b.toBitVec

/-- The mark of a byte that starts three. -/
theorem and_F0 (b : UInt8) : b &&& 0xF0 = 0xE0 ↔ b.toNat / 16 = 14 := by
  have hbits : ∀ b : BitVec 8, b &&& 0xF0 = 0xE0 ↔ b.toNat / 16 = 14 := by decide
  rw [← UInt8.toBitVec_inj]
  exact hbits b.toBitVec

/-- The mark of a byte that goes on. -/
theorem and_C0 (b : UInt8) : b &&& 0xC0 = 0x80 ↔ b.toNat / 64 = 2 := by
  have hbits : ∀ b : BitVec 8, b &&& 0xC0 = 0x80 ↔ b.toNat / 64 = 2 := by decide
  rw [← UInt8.toBitVec_inj]
  exact hbits b.toBitVec

theorem and_1F (b : UInt8) : (b &&& 0x1F).toNat = b.toNat % 32 := by
  rw [UInt8.toNat_and]
  exact Nat.and_two_pow_sub_one_eq_mod b.toNat 5

theorem and_0F (b : UInt8) : (b &&& 0x0F).toNat = b.toNat % 16 := by
  rw [UInt8.toNat_and]
  exact Nat.and_two_pow_sub_one_eq_mod b.toNat 4

theorem and_3F (b : UInt8) : (b &&& 0x3F).toNat = b.toNat % 64 := by
  rw [UInt8.toNat_and]
  exact Nat.and_two_pow_sub_one_eq_mod b.toNat 6

/-- The bits of a byte that goes on, below those in front of it. -/
theorem shiftLeft_or (a : Nat) (b : UInt8) :
    a <<< 6 ||| (b &&& 0x3F).toNat = a * 64 + b.toNat % 64 := by
  rw [and_3F, ← Nat.shiftLeft_add_eq_or_of_lt (Nat.mod_lt _ (by decide)), Nat.shiftLeft_eq]

/-- The bits of two bytes that go on, below those in front of them. -/
theorem shiftLeft_or_or (a : Nat) (b c : UInt8) :
    a <<< 12 ||| (b &&& 0x3F).toNat <<< 6 ||| (c &&& 0x3F).toNat =
      (a * 64 + b.toNat % 64) * 64 + c.toNat % 64 := by
  rw [show 12 = 6 + 6 from rfl, Nat.shiftLeft_add, ← Nat.shiftLeft_or_distrib, shiftLeft_or,
    shiftLeft_or]

/-- A byte is the one with its number. -/
theorem ofNat_eq {b : UInt8} {n : Nat} (h : n = b.toNat) : UInt8.ofNat n = b := by
  rw [h, UInt8.ofNat_toNat]

/-! ## What is accepted -/

section

variable {c d e : UInt8} {src : List UInt8} {w : Nat} {ws : List Nat}

theorem isUtf8_uno (hc : c.toNat < 0x80) : isUtf8 (c :: src) = isUtf8 src := by
  rw [isUtf8.eq_def]
  exact if_pos (UInt8.lt_iff_toNat_lt.mpr hc)

theorem isUtf8_dos (hc : c.toNat / 32 = 6) (hd : d.toNat / 64 = 2)
    (hw : 0x80 ≤ c.toNat % 32 * 64 + d.toNat % 64) : isUtf8 (c :: d :: src) = isUtf8 src := by
  have hlow : ¬ c < 0x80 := fun h ↦ by
    have hlt := UInt8.lt_iff_toNat_lt.mp h
    change c.toNat < 128 at hlt
    omega
  rw [isUtf8, if_neg hlow, if_pos ((and_E0 c).mpr hc)]
  show (if _ then _ else _) = _
  rw [if_neg (not_not.mpr ((and_C0 d).mpr hd)), shiftLeft_or, and_1F, if_neg (Nat.not_lt.mpr hw)]

theorem isUtf8_tres (hc : c.toNat / 16 = 14) (hd : d.toNat / 64 = 2) (he : e.toNat / 64 = 2)
    (hw : 0x800 ≤ (c.toNat % 16 * 64 + d.toNat % 64) * 64 + e.toNat % 64) :
    isUtf8 (c :: d :: e :: src) = isUtf8 src := by
  have hlow : ¬ c < 0x80 := fun h ↦ by
    have hlt := UInt8.lt_iff_toNat_lt.mp h
    change c.toNat < 128 at hlt
    omega
  have hdos : ¬ c &&& 0xE0 = 0xC0 := fun h ↦ by
    have hdiv := (and_E0 c).mp h
    omega
  rw [isUtf8, if_neg hlow, if_neg hdos, if_pos ((and_F0 c).mpr hc)]
  show (if _ then _ else _) = _
  rw [if_neg (not_not.mpr ((and_C0 d).mpr hd)), if_neg (not_not.mpr ((and_C0 e).mpr he)),
    shiftLeft_or_or, and_0F, if_neg (Nat.not_lt.mpr hw)]

/-- A byte is the number that it is made of. -/
theorem toNat_ofNat_byte {n : Nat} (h : n < 256) : (UInt8.ofNat n).toNat = n :=
  UInt8.toNat_ofNat_of_lt' h

/-- The encoding of a code point is accepted. -/
theorem isUtf8_codifica (hw : w < 0x10000) : isUtf8 (codifica w ++ src) = isUtf8 src := by
  rcases Nat.lt_or_ge w 0x80 with hone | hone
  · rw [codifica_uno hone]
    exact isUtf8_uno (by rw [toNat_ofNat_byte (by omega)]; omega)
  · rcases Nat.lt_or_ge w 0x800 with htwo | htwo
    · rw [codifica_dos hone htwo]
      have hfirst := @toNat_ofNat_byte (0xC0 + w / 64) (by omega)
      have hlast := @toNat_ofNat_byte (0x80 + w % 64) (by omega)
      exact isUtf8_dos (by omega) (by omega) (by omega)
    · rw [codifica_tres htwo]
      have hfirst := @toNat_ofNat_byte (0xE0 + w / 4096) (by omega)
      have hsecond := @toNat_ofNat_byte (0x80 + w / 64 % 64) (by omega)
      have hlast := @toNat_ofNat_byte (0x80 + w % 64) (by omega)
      exact isUtf8_tres (by omega) (by omega) (by omega) (by omega)

/-- What is accepted begins with the encoding of a code point. -/
theorem exists_codifica (h : isUtf8 (c :: src) = true) :
    ∃ w rest, w < 0x10000 ∧ c :: src = codifica w ++ rest ∧ isUtf8 rest = true := by
  by_cases hone : c.toNat < 0x80
  · rw [isUtf8_uno hone] at h
    refine ⟨c.toNat, src, by omega, ?_, h⟩
    rw [codifica_uno hone, UInt8.ofNat_toNat, List.singleton_append]
  have hlow : ¬ c < 0x80 := fun hlt ↦ hone (UInt8.lt_iff_toNat_lt.mp hlt)
  rw [isUtf8.eq_def] at h
  simp only [if_neg hlow] at h
  by_cases htwo : c &&& 0xE0 = 0xC0
  · rw [if_pos htwo] at h
    have hc := (and_E0 c).mp htwo
    cases src with
    | nil => cases h
    | cons d src =>
        simp only [shiftLeft_or, and_1F] at h
        split_ifs at h with hmark hshort
        have hd := (and_C0 d).mp (not_not.mp hmark)
        have hw := Nat.not_lt.mp hshort
        refine ⟨c.toNat % 32 * 64 + d.toNat % 64, src, by omega, ?_, h⟩
        rw [codifica_dos hw (by omega), ofNat_eq (b := c) (by omega), ofNat_eq (b := d) (by omega)]
        rfl
  · rw [if_neg htwo] at h
    by_cases hthree : c &&& 0xF0 = 0xE0
    · rw [if_pos hthree] at h
      have hc := (and_F0 c).mp hthree
      match src, h with
      | d :: e :: src, h =>
          simp only [shiftLeft_or_or, and_0F] at h
          split_ifs at h with hmark hmark' hshort
          have hd := (and_C0 d).mp (not_not.mp hmark)
          have he := (and_C0 e).mp (not_not.mp hmark')
          have hw := Nat.not_lt.mp hshort
          refine ⟨(c.toNat % 16 * 64 + d.toNat % 64) * 64 + e.toNat % 64, src, by omega, ?_, h⟩
          rw [codifica_tres hw, ofNat_eq (b := c) (by omega), ofNat_eq (b := d) (by omega),
            ofNat_eq (b := e) (by omega)]
          rfl
    · rw [if_neg hthree] at h
      cases h

/-- The code points of an accepted string. -/
def Puntos (src : List UInt8) (ws : List Nat) : Prop :=
  (∀ w ∈ ws, w < 0x10000) ∧ src = codificados ws

/-- What is accepted is the encoding of a text. -/
theorem isUtf8_iff : isUtf8 src = true ↔ ∃ ws, Puntos src ws := by
  constructor
  · induction hlen : src.length using Nat.strongRecOn generalizing src with
    | ind n ih =>
        intro h
        cases src with
        | nil => exact ⟨[], by simp, rfl⟩
        | cons c src =>
            obtain ⟨w, rest, hw, heq, hrest⟩ := exists_codifica h
            have hpos := length_codifica_pos w
            have hshort : rest.length < n := by
              rw [← hlen, heq, List.length_append]
              omega
            obtain ⟨ws, hws, rfl⟩ := ih _ hshort rfl hrest
            exact ⟨w :: ws, List.forall_mem_cons.mpr ⟨hw, hws⟩, heq⟩
  · rintro ⟨ws, hws, rfl⟩
    induction ws with
    | nil => rfl
    | cons w ws ih =>
        rw [List.forall_mem_cons] at hws
        rw [codificados_cons, isUtf8_codifica hws.1]
        exact ih hws.2

/-- A string is the encoding of one text at most. -/
theorem Puntos.unique {ws' : List Nat} (h : Puntos src ws) (h' : Puntos src ws') : ws = ws' := by
  exact codificados_inj h.1 h'.1 (h.2.symm.trans h'.2)

end

/-! ## What is written -/

section

variable {c d : UInt8} {src : List UInt8} {w : Nat} {ws : List Nat}

theorem utf8ToLatin1_uno (hpos : c ≠ 0) (hc : c.toNat < 0x80) :
    utf8ToLatin1 (c :: src) = (utf8ToLatin1 src).map (c :: ·) := by
  rw [utf8ToLatin1.eq_def]
  simp only [if_neg hpos, if_pos (show c < 0x80 from UInt8.lt_iff_toNat_lt.mpr hc)]

/-- A byte that goes on is skipped. -/
theorem utf8ToLatin1_cola (hc : c.toNat / 64 = 2) :
    utf8ToLatin1 (c :: src) = utf8ToLatin1 src := by
  have hlow : ¬ c < 0x80 := fun h ↦ by
    have hlt : c.toNat < 128 := UInt8.lt_iff_toNat_lt.mp h
    omega
  have hhigh : c < 0xC0 := UInt8.lt_iff_toNat_lt.mpr (show c.toNat < 192 by omega)
  have hpos : c ≠ 0 := fun h ↦ hlow (h ▸ by decide)
  rw [utf8ToLatin1.eq_def]
  simp only [if_neg hpos, if_neg hlow, if_pos hhigh]

/-- A byte that starts two or more, and the one behind it. -/
theorem utf8ToLatin1_dos (hc : 0xC0 ≤ c.toNat) (hd : d.toNat / 64 = 2) :
    utf8ToLatin1 (c :: d :: src) =
      if c.toNat % 32 * 64 + d.toNat % 64 < 0x100 then
        (utf8ToLatin1 src).map (UInt8.ofNat (c.toNat % 32 * 64 + d.toNat % 64) :: ·)
      else utf8ToLatin1 src := by
  have hlow : ¬ c < 0x80 := fun h ↦ by
    have hlt : c.toNat < 128 := UInt8.lt_iff_toNat_lt.mp h
    omega
  have hhigh : ¬ c < 0xC0 := fun h ↦ by
    have hlt : c.toNat < 192 := UInt8.lt_iff_toNat_lt.mp h
    omega
  have hpos : c ≠ 0 := fun h ↦ hlow (h ▸ by decide)
  have hcola : 0x80 ≤ d := UInt8.le_iff_toNat_le.mpr (show 128 ≤ d.toNat by omega)
  rw [utf8ToLatin1.eq_def]
  simp only [if_neg hpos, if_neg hlow, if_neg hhigh, if_pos hcola, and_1F, and_3F,
    Nat.shiftLeft_eq]

/-- What a code point leaves at `dst`. -/
def salida (w : Nat) : List UInt8 :=
  if w < 0x100 then [UInt8.ofNat w]
  else if 0x800 ≤ w ∧ w < 0x4000 then [UInt8.ofNat (w / 64)]
  else []

/-- The bytes of the code points of Latin-1. -/
def latin1 (ws : List Nat) : List UInt8 :=
  (ws.filter (· < 0x100)).map UInt8.ofNat

theorem salida_of_lt (h : w < 0x100) : salida w = [UInt8.ofNat w] := if_pos h

theorem salida_of_le (h : 0x4000 ≤ w) : salida w = [] := by
  rw [salida, if_neg (by omega), if_neg (by omega)]

/-- A code point is run through, and of an encoding of three bytes two of them are taken for a
character. -/
theorem utf8ToLatin1_codifica (hpos : w ≠ 0) (hw : w < 0x10000) :
    utf8ToLatin1 (codifica w ++ src) = (utf8ToLatin1 src).map (salida w ++ ·) := by
  rcases Nat.lt_or_ge w 0x80 with hone | hone
  · have hbyte : (UInt8.ofNat w).toNat = w :=
      toNat_ofNat_byte (by omega)
    have hne : UInt8.ofNat w ≠ 0 := fun h ↦ hpos (hbyte.symm.trans (congrArg UInt8.toNat h))
    rw [codifica_uno hone, salida_of_lt (by omega)]
    exact utf8ToLatin1_uno hne (by omega)
  rcases Nat.lt_or_ge w 0x800 with htwo | htwo
  · have hfirst : (UInt8.ofNat (0xC0 + w / 64)).toNat = 0xC0 + w / 64 :=
      toNat_ofNat_byte (by omega)
    have hlast : (UInt8.ofNat (0x80 + w % 64)).toNat = 0x80 + w % 64 :=
      toNat_ofNat_byte (by omega)
    have hpunto : (0xC0 + w / 64) % 32 * 64 + (0x80 + w % 64) % 64 = w := by omega
    rw [codifica_dos hone htwo, List.cons_append, List.singleton_append,
      utf8ToLatin1_dos (by omega) (by omega), hfirst, hlast, hpunto]
    split_ifs with hlatin
    · rw [salida_of_lt hlatin]
      rfl
    · rw [salida, if_neg hlatin, if_neg (by omega)]
      exact Option.map_id'.symm
  · have hfirst : (UInt8.ofNat (0xE0 + w / 4096)).toNat = 0xE0 + w / 4096 :=
      toNat_ofNat_byte (by omega)
    have hsecond : (UInt8.ofNat (0x80 + w / 64 % 64)).toNat = 0x80 + w / 64 % 64 :=
      toNat_ofNat_byte (by omega)
    have hlast : (UInt8.ofNat (0x80 + w % 64)).toNat = 0x80 + w % 64 :=
      toNat_ofNat_byte (by omega)
    have hpunto : (0xE0 + w / 4096) % 32 * 64 + (0x80 + w / 64 % 64) % 64 = w / 64 := by omega
    -- The mask `0x1F` leaves the four bits that the first byte holds, so the sum is `w / 64`.
    rw [codifica_tres htwo, List.cons_append, List.cons_append, List.singleton_append,
      utf8ToLatin1_dos (by omega) (by omega), hfirst, hsecond, hpunto,
      utf8ToLatin1_cola (by omega)]
    split_ifs with hlatin
    · rw [salida, if_neg (by omega), if_pos ⟨htwo, by omega⟩]
      rfl
    · rw [salida_of_le (by omega)]
      exact Option.map_id'.symm

/-- A text is run through to its end. -/
theorem utf8ToLatin1_codificados (hws : ∀ w ∈ ws, w ≠ 0 ∧ w < 0x10000) :
    utf8ToLatin1 (codificados ws ++ [0]) = some (ws.flatMap salida) := by
  induction ws with
  | nil => rfl
  | cons w ws ih =>
      rw [List.forall_mem_cons] at hws
      rw [codificados_cons, List.append_assoc, utf8ToLatin1_codifica hws.1.1 hws.1.2, ih hws.2]
      rfl

/-- In a memory with a terminator the loop ends there, and less is written than there was. -/
theorem exists_utf8ToLatin1 (memoria : List UInt8) (h : 0 ∈ memoria) :
    ∃ dst, utf8ToLatin1 memoria = some dst ∧ dst.length < memoria.length := by
  fun_induction utf8ToLatin1 memoria with
  | case1 => cases h
  | case2 src => exact ⟨[], rfl, by simp⟩
  | case3 c src hpos hone ih =>
      obtain ⟨dst, hdst, hlen⟩ := ih ((List.mem_cons.mp h).resolve_left (Ne.symm hpos))
      exact ⟨c :: dst, by rw [hdst]; rfl, Nat.succ_lt_succ hlen⟩
  | case4 c src hpos hone htail ih =>
      obtain ⟨dst, hdst, hlen⟩ := ih ((List.mem_cons.mp h).resolve_left (Ne.symm hpos))
      exact ⟨dst, hdst, Nat.lt_succ_of_lt hlen⟩
  | case5 c hpos => exact absurd (List.mem_singleton.mp h) (Ne.symm hpos)
  | case6 c hpos hone htail d src hcola utf8 hlatin ih =>
      have hd : d ≠ 0 := fun hzero ↦ absurd hcola (hzero ▸ by decide)
      have htwo := (List.mem_cons.mp h).resolve_left (Ne.symm hpos)
      obtain ⟨dst, hdst, hlen⟩ := ih ((List.mem_cons.mp htwo).resolve_left (Ne.symm hd))
      exact ⟨_ :: dst, by rw [hdst]; rfl, Nat.lt_succ_of_lt (Nat.succ_lt_succ hlen)⟩
  | case7 c hpos hone htail d src hcola utf8 hlatin ih =>
      have hd : d ≠ 0 := fun hzero ↦ absurd hcola (hzero ▸ by decide)
      have htwo := (List.mem_cons.mp h).resolve_left (Ne.symm hpos)
      obtain ⟨dst, hdst, hlen⟩ := ih ((List.mem_cons.mp htwo).resolve_left (Ne.symm hd))
      exact ⟨dst, hdst, Nat.lt_succ_of_lt (Nat.lt_succ_of_lt hlen)⟩
  | case8 c hpos hone htail d src hcola ih =>
      obtain ⟨dst, hdst, hlen⟩ := ih ((List.mem_cons.mp h).resolve_left (Ne.symm hpos))
      exact ⟨dst, hdst, Nat.lt_succ_of_lt hlen⟩

/-- Nothing behind the terminator is read, and not more is written than there was. -/
theorem utf8ToLatin1_cabe (src : List UInt8) :
    ∃ dst, utf8ToLatin1 (src ++ [0]) = some dst ∧ dst.length ≤ src.length := by
  obtain ⟨dst, hdst, hlen⟩ := exists_utf8ToLatin1 (src ++ [0]) (by simp)
  rw [List.length_append] at hlen
  exact ⟨dst, hdst, Nat.le_of_lt_succ hlen⟩

/-- Every character of Latin-1 is written. -/
theorem length_latin1_le (ws : List Nat) : (latin1 ws).length ≤ (ws.flatMap salida).length := by
  induction ws with
  | nil => exact Nat.le_refl _
  | cons w ws ih =>
      by_cases hw : w < 0x100
      · simpa [latin1, hw, salida_of_lt] using ih
      · have hlen : (latin1 (w :: ws)).length = (latin1 ws).length := by simp [latin1, hw]
        rw [hlen, List.flatMap_cons, List.length_append]
        exact Nat.le_trans ih (Nat.le_add_left _ _)

/-- Nothing else is written if there is no code point whose first two bytes look like Latin-1. -/
theorem flatMap_salida_iff :
    ws.flatMap salida = latin1 ws ↔ ∀ w ∈ ws, ¬ (0x800 ≤ w ∧ w < 0x4000) := by
  induction ws with
  | nil => simp [latin1]
  | cons w ws ih =>
      rw [List.forall_mem_cons, List.flatMap_cons, ← ih]
      by_cases hw : w < 0x100
      · have hcond : ¬ (0x800 ≤ w ∧ w < 0x4000) := by omega
        simp [latin1, hw, salida_of_lt, hcond]
      · have hlatin : latin1 (w :: ws) = latin1 ws := by simp [latin1, hw]
        rw [hlatin]
        by_cases hcond : 0x800 ≤ w ∧ w < 0x4000
        · -- One byte too many.
          have hlen := length_latin1_le ws
          refine iff_of_false (fun h ↦ ?_) (fun h ↦ h.1 hcond)
          rw [← h, salida, if_neg hw, if_pos hcond, List.length_append] at hlen
          exact Nat.not_succ_le_self _ (Nat.add_comm _ _ ▸ hlen)
        · rw [salida, if_neg hw, if_neg hcond, List.nil_append]
          exact ⟨fun h ↦ ⟨hcond, h⟩, fun h ↦ h.2⟩

/-- The text `ws` of `src` is converted as it should: its characters of Latin-1 are left, in no more
bytes than before, and nothing is read behind the terminator. -/
def Fiel (src : List UInt8) (ws : List Nat) : Prop :=
  utf8ToLatin1 (src ++ [0]) = some (latin1 ws) ∧ (latin1 ws).length ≤ src.length

/-- A code point of a string is not the one of the terminator. -/
theorem Puntos.ne_zero (h : Puntos src ws) (hnul : 0 ∉ src) (hw : w ∈ ws) : w ≠ 0 := by
  rintro rfl
  rw [h.2, codificados, List.mem_flatMap] at hnul
  exact hnul ⟨0, hw, by decide⟩

/-- The conversion keeps Latin-1 and nothing else if and only if there is no code point whose first
two bytes look like Latin-1. -/
theorem Puntos.iff_fiel (h : Puntos src ws) (hnul : 0 ∉ src) :
    Fiel src ws ↔ ∀ w ∈ ws, ¬ (0x800 ≤ w ∧ w < 0x4000) := by
  have hrun : utf8ToLatin1 (src ++ [0]) = some (ws.flatMap salida) := by
    rw [h.2]
    exact utf8ToLatin1_codificados fun w hw ↦ ⟨h.ne_zero hnul hw, h.1 w hw⟩
  rw [← flatMap_salida_iff, Fiel, hrun, Option.some_inj]
  refine ⟨And.left, fun heq ↦ ⟨heq, ?_⟩⟩
  obtain ⟨dst, hdst, hlen⟩ := utf8ToLatin1_cabe src
  rw [hrun, Option.some_inj] at hdst
  rwa [← heq, hdst]

/-- An accepted string is the encoding of one text, and it is converted as it should if and only if
that has no code point from U+0800 to U+3FFF. -/
theorem fiel_iff (hnul : 0 ∉ src) (hutf : isUtf8 src = true) :
    ∃ ws, (∀ ws', Puntos src ws' ↔ ws' = ws) ∧
      (Fiel src ws ↔ ∀ w ∈ ws, ¬ (0x800 ≤ w ∧ w < 0x4000)) := by
  obtain ⟨ws, hws⟩ := isUtf8_iff.mp hutf
  refine ⟨ws, fun ws' ↦ ⟨fun h ↦ h.unique hws, ?_⟩, hws.iff_fiel hnul⟩
  rintro rfl
  exact hws

theorem fiel_iff_euro :
    ∃ ws, (∀ ws', Puntos [0xE2, 0x82, 0xAC] ws' ↔ ws' = ws) ∧
      (Fiel [0xE2, 0x82, 0xAC] ws ↔ ∀ w ∈ ws, ¬ (0x800 ≤ w ∧ w < 0x4000)) := by
  exact fiel_iff (by decide) (by decide)

/-- U+20AC, which is not in Latin-1, is converted to 0x82. -/
theorem not_fiel :
    ¬ ∀ src ws, 0 ∉ src → isUtf8 src = true → Puntos src ws → Fiel src ws := by
  intro h
  have hfiel := h [0xE2, 0x82, 0xAC] [0x20AC] (by decide) (by decide) ⟨by simp, by decide⟩
  have hrun : utf8ToLatin1 ([0xE2, 0x82, 0xAC] ++ [0]) = some [0x82] := by decide
  have hlatin : latin1 [0x20AC] = [] := by decide
  have hnil := hfiel.1
  rw [hrun, hlatin] at hnil
  cases hnil

end

end Ircd.Channel
