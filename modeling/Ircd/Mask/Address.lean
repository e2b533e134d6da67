import Ircd.Addr.Quads
import Ircd.Mask.Plain

/-!
# Masks of addresses

`matchcompIP` of `ircd/match.c` compiles a mask for IPv4 addresses into a word of bits and a mask of
bits, and says when the comparison of texts is needed as well.
-/

namespace Ircd

open CString
open Wildcard

namespace Match

/-! ## The compiler -/

/-- `struct in_mask`, with its words in the order of the host. -/
structure InMask where
  bits : BitVec 32
  mask : BitVec 32
  fall : Bool
deriving DecidableEq

namespace Ip

/-- `input - '0'`. -/
def cifra (c : Char) : Nat :=
  c.toNat - '0'.toNat

/-- The local variables of `matchcompIP`. -/
structure Vars where
  bits : BitVec 32
  filt : BitVec 32
  unco : Bool
  digits : Nat
  shift : Nat
  tmp : Nat

def Vars.init : Vars :=
  { bits := 0, filt := 0, unco := false, digits := 0, shift := 24, tmp := 0 }

/-- A digit of an octet. `none` is a leading zero or a number above 255. -/
def Vars.digit (v : Vars) (c : Char) : Option Vars :=
  if 0 < v.digits ∧ v.tmp = 0 then none
  else if v.tmp * 10 + cifra c > 255 then none
  else some { v with digits := v.digits + 1, tmp := v.tmp * 10 + cifra c }

/-- `bits |= (tmp << shift)` and what follows it. -/
def Vars.cierra (v : Vars) : Vars :=
  { v with bits := v.bits ||| BitVec.ofNat 32 v.tmp <<< v.shift, shift := v.shift - 8, digits := 0,
           tmp := 0 }

/-- The mask that never matches. -/
def nunca : InMask :=
  ⟨BitVec.allOnes 32, 0, false⟩

/-- The loop behind a slash. The variables `filt` and `shift` are those of its end. -/
def filtro (v : Vars) : CStr → Option Vars
  | [] => some { v with filt := v.filt ||| BitVec.ofNat 32 v.tmp <<< v.shift, shift := v.shift - 8 }
  | c :: m =>
      if c.isDigit then (v.digit c).bind fun v ↦ filtro v m
      else if c = '.' ∧ v.shift ≠ 0 then
        filtro { v with filt := v.filt ||| BitVec.ofNat 32 v.tmp <<< v.shift, shift := v.shift - 8,
                        digits := 0, tmp := 0 } m
      else none
  termination_by structural m => m

/-- `case '/'`. -/
def barra (v : Vars) (m : CStr) : InMask :=
  match filtro { v.cierra with shift := 24 } m with
  | none => nunca
  | some v =>
      let filt :=
        if v.filt ≠ 0 ∧ ¬v.shift < 16 ∧ v.filt &&& 0xE0FFFFFF = 0 then
          BitVec.allOnes 32 <<< (32 - (v.filt >>> 24).toNat)
        else v.filt
      ⟨v.bits &&& filt, filt, v.unco⟩

/-- The loop behind the first wildcard: the new value of `unco`. -/
def comodines (unco : Bool) (shift : Nat) : CStr → Option Bool
  | [] => some unco
  | c :: m =>
      if c.isDigit then comodines true shift m
      else if c = '.' then
        if shift = 0 then none else comodines (unco || m.head? ≠ some '*') (shift - 8) m
      else if c = '?' then comodines true shift m
      else if c = '*' then comodines unco shift m
      else none

/-- `case '*'`, for which `case '?'` sets `unco`. -/
def comodin (v : Vars) (m : CStr) : InMask :=
  match comodines (v.unco || 0 < v.digits) v.shift m with
  | none => nunca
  | some unco => ⟨v.bits, BitVec.allOnes 32 <<< v.shift <<< 8, unco⟩

/-- The loop of `matchcompIP`. -/
def desde (v : Vars) : CStr → InMask
  | [] => if v.shift ≠ 0 then nunca else ⟨v.cierra.bits, BitVec.allOnes 32, v.unco⟩
  | c :: m =>
      if c = '\\' then
        if m = [] ∨ m.head? = some '\\' ∨ m.head? = some '*' ∨ m.head? = some '?' then nunca
        else desde v m
      else if c.isDigit then
        match v.digit c with
        | none => nunca
        | some v => desde v m
      else if c = '.' then if v.shift = 0 then nunca else desde v.cierra m
      else if c = '/' then barra v m
      else if c = '?' then comodin { v with unco := true } m
      else if c = '*' then comodin v m
      else nunca
  termination_by structural m => m

end Ip

/-- `matchcompIP`: the compiled mask. -/
def matchcompIP (mask : CStr) : InMask :=
  Ip.desde Ip.Vars.init mask

/-- The value that `matchcompIP` returns. -/
def matchcompIPRet (mask : CStr) : Int :=
  if (matchcompIP mask).bits &&& ~~~(matchcompIP mask).mask ≠ 0 then -1 else 0

/-- The test with a compiled mask, `texto` being the answer of the comparison of texts. -/
def InMask.acepta (im : InMask) (addr : BitVec 32) (texto : Bool) : Bool :=
  addr &&& im.mask = im.bits ∧ (im.fall = false ∨ texto)

example : (matchcompIP "10.1.*".toList) = ⟨0x0A010000, 0xFFFF0000, false⟩ := by decide

/-! ## The masks that are compiled -/

namespace Ip

/-- The part of a mask in front of its first wildcard. -/
def cabeza (mask : CStr) : CStr :=
  mask.takeWhile fun c ↦ !isWild c

/-- The part of a mask from its first wildcard on. -/
def cola (mask : CStr) : CStr :=
  mask.dropWhile fun c ↦ !isWild c

/-- The fields in front of the first wildcard, behind some characters of the first one. Backslashes
are skipped. -/
def partes (p mask : CStr) : List CStr :=
  (p ++ (cabeza mask).filter (· ≠ '\\')).splitOn '.'

/-- The fields that end before a wildcard. -/
def completas (p mask : CStr) : List CStr :=
  if cola mask = [] then partes p mask else (partes p mask).dropLast

/-- The number of an octet. -/
def valor (d : CStr) : Nat :=
  Nat.ofDigitChars 10 d 0

/-- A field that is read as an octet. It may be empty. -/
structure Octeto (d : CStr) : Prop where
  canonical : Fields.Canonical d
  valor : valor d ≤ 255

/-- Each backslash stands in front of a character that is none and no wildcard. -/
def Saltadas : CStr → Prop
  | [] => True
  | c :: m => (c = '\\' → ∃ d ∈ m.head?, d ≠ '\\' ∧ isWild d = false) ∧ Saltadas m

/-- Stars, and dots in front of stars. -/
def limpia : CStr → Bool
  | [] => true
  | c :: m => if c = '.' then m.head? = some '*' && limpia m else c = '*' && limpia m

/-- Digits, dots and wildcards, with dots for four octets behind `k` of them. -/
def Restan (k : Nat) (m : CStr) : Prop :=
  (∀ c ∈ m, c.isDigit = true ∨ c = '.' ∨ isWild c = true) ∧ k + m.count '.' ≤ 3

instance (k : Nat) (m : CStr) : Decidable (Restan k m) :=
  inferInstanceAs (Decidable (_ ∧ _))

/-- A mask that is compiled, behind `k` octets and some characters of the next one. -/
structure Compila (k : Nat) (p mask : CStr) : Prop where
  mem : ∀ c ∈ mask, c.isDigit = true ∨ c = '.' ∨ isWild c = true ∨ c = '\\'
  cola : '\\' ∉ cola mask
  saltadas : Saltadas mask
  octetos : ∀ d ∈ partes p mask, Octeto d
  dots : k + mask.count '.' ≤ 3
  full : Ip.cola mask = [] → k + mask.count '.' = 3

/-- A compiled mask that needs no comparison of texts. -/
def Directa (p mask : CStr) : Prop :=
  cola mask = [] ∨ (partes p mask).getLast? = some [] ∧ limpia (cola mask) = true

instance (p mask : CStr) : Decidable (Directa p mask) :=
  inferInstanceAs (Decidable (_ ∨ _))

/-- What a mask is compiled to, behind some octets. -/
def compilada (os : List Nat) (p mask : CStr) : InMask :=
  let vs := os ++ (completas p mask).map valor
  ⟨Addr.junta vs, Addr.mascara vs.length, !decide (Directa p mask)⟩

/-- The variables behind some octets and some characters of the next one. -/
structure Vars.Lee (v : Vars) (os : List Nat) (p : CStr) : Prop where
  bits : v.bits = Addr.junta os
  unco : v.unco = false
  digits : v.digits = p.length
  shift : v.shift = 24 - 8 * os.length
  tmp : v.tmp = valor p
  octeto : Octeto p
  fits : Words.Fits 8 os
  length : os.length ≤ 3

/-! ## What the compiler does -/

variable {v : Vars} {os : List Nat} {p mask m : CStr} {c : Char} {k : Nat}

theorem cabeza_cons (h : isWild c = false) : cabeza (c :: m) = c :: cabeza m :=
  List.takeWhile_cons_of_pos (by simp [h])

theorem cola_cons (h : isWild c = false) : cola (c :: m) = cola m :=
  List.dropWhile_cons_of_pos (by simp [h])

theorem cabeza_wild (h : isWild c = true) : cabeza (c :: m) = [] :=
  List.takeWhile_cons_of_neg (by simp [h])

theorem cola_wild (h : isWild c = true) : cola (c :: m) = c :: m :=
  List.dropWhile_cons_of_neg (by simp [h])

theorem isWild_of_isDigit (h : c.isDigit = true) : isWild c = false := by
  cases hw : isWild c with
  | false => rfl
  | true =>
      rw [isWild, decide_eq_true_iff] at hw
      rcases hw with rfl | rfl <;> exact absurd h (by decide)

theorem Octeto.not_mem_dot (h : Octeto p) : '.' ∉ p :=
  fun hdot ↦ absurd (h.canonical.digit _ hdot) (by decide)

theorem octeto_nil : Octeto [] :=
  ⟨⟨by simp, by simp⟩, by decide⟩

/-- A backslash is skipped. -/
theorem partes_backslash : partes p ('\\' :: m) = partes p m := by
  rw [partes, cabeza_cons rfl, partes, List.filter_cons_of_neg (by simp)]

/-- A digit belongs to the field. -/
theorem partes_digit (h : c.isDigit = true) : partes p (c :: m) = partes (p ++ [c]) m := by
  have hne : c ≠ '\\' := fun heq ↦ absurd h (by rw [heq]; decide)
  rw [partes, cabeza_cons (isWild_of_isDigit h), partes, List.filter_cons_of_pos (by simp [hne]),
    List.append_assoc, List.singleton_append]

/-- A dot ends the field. -/
theorem partes_dot (h : Octeto p) : partes p ('.' :: m) = p :: partes [] m := by
  rw [partes, cabeza_cons rfl, List.filter_cons_of_pos (by decide),
    List.splitOn_append_cons_self_of_not_mem h.not_mem_dot, partes, List.nil_append]

/-- In front of a wildcard, or at the end, the field is the last one. -/
theorem partes_of_cabeza (h : Octeto p) (hm : cabeza m = []) : partes p m = [p] := by
  rw [partes, hm, List.filter_nil, List.append_nil, List.splitOn_eq_singleton h.not_mem_dot]

theorem partes_ne_nil : partes p m ≠ [] :=
  List.splitOn_ne_nil _ _

theorem valor_append : valor (p ++ [c]) = valor p * 10 + cifra c := by
  rw [valor, Nat.ofDigitChars_append, Nat.ofDigitChars_cons, Nat.ofDigitChars_nil, Nat.mul_comm]
  rfl

theorem Octeto.of_isPrefix {d : CStr} (h : Octeto d) (hp : p <+: d) : Octeto p :=
  ⟨h.canonical.of_isPrefix hp, (Fields.ofDigitChars_le hp).trans h.valor⟩

/-- A digit more makes an octet unless it stands behind a leading zero or the number is too
large. -/
theorem octeto_append (h : Octeto p) (hc : c.isDigit = true) :
    Octeto (p ++ [c]) ↔ ¬(0 < p.length ∧ valor p = 0) ∧ valor p * 10 + cifra c ≤ 255 := by
  rw [← valor_append]
  constructor
  · intro hoct
    refine ⟨fun ⟨hpos, hzero⟩ ↦ ?_, hoct.valor⟩
    have hp : p = ['0'] := by
      rw [← Fields.decimal_ofDigitChars h.canonical (List.length_pos_iff.mp hpos)]
      exact congrArg decimal hzero
    rw [hp] at hoct
    cases hoct.canonical.zero rfl
  · intro ⟨hzero, hle⟩
    refine ⟨⟨fun d hd ↦ ?_, fun hhead ↦ ?_⟩, hle⟩
    · rcases List.mem_append.mp hd with hd | hd
      · exact h.canonical.digit d hd
      · rwa [List.mem_singleton.mp hd]
    · cases p with
      | nil => rw [List.nil_append, Option.some.inj hhead]
      | cons d p =>
          have hp := h.canonical.zero hhead
          rw [hp] at hzero
          exact absurd ⟨by decide, by decide⟩ hzero

/-- The characters of the field stay in front of it. -/
theorem exists_partes (h : '.' ∉ p) : ∃ q qs, partes p m = (p ++ q) :: qs := by
  obtain ⟨q, qs, hq⟩ := List.exists_cons_of_ne_nil
    (List.splitOn_ne_nil '.' ((cabeza m).filter (· ≠ '\\')))
  refine ⟨q, qs, ?_⟩
  have hp : p.splitOn '.' = [] ++ [p] := List.splitOn_eq_singleton h
  rw [partes, Fields.splitOn_append hp hq]
  rfl

theorem saltadas_of_not_mem (h : '\\' ∉ m) : Saltadas m := by
  induction m with
  | nil => trivial
  | cons c m ih =>
      rw [List.mem_cons, not_or] at h
      exact ⟨fun heq ↦ absurd heq.symm h.1, ih h.2⟩

theorem compila_nil (h : Octeto p) : Compila k p [] ↔ k = 3 := by
  constructor
  · exact fun hc ↦ by simpa [cola] using hc.full
  · rintro rfl
    refine ⟨by simp, by simp [cola], trivial, ?_, by simp, by simp⟩
    rw [partes_of_cabeza h rfl]
    simpa using h

/-- A character in front of the first wildcard. -/
theorem compila_cons {k' : Nat} {p' : CStr} (hwild : isWild c = false)
    (hc : c.isDigit = true ∨ c = '.' ∨ isWild c = true ∨ c = '\\')
    (hpartes : (∀ d ∈ partes p (c :: m), Octeto d) ↔ ∀ d ∈ partes p' m, Octeto d)
    (hcount : k + (c :: m).count '.' = k' + m.count '.') :
    Compila k p (c :: m) ↔
      (c = '\\' → ∃ d ∈ m.head?, d ≠ '\\' ∧ isWild d = false) ∧ Compila k' p' m := by
  have hcola := cola_cons (m := m) hwild
  constructor
  · intro h
    refine ⟨h.saltadas.1, fun d hd ↦ h.mem d (List.mem_cons_of_mem _ hd), hcola ▸ h.cola,
      h.saltadas.2, hpartes.mp h.octetos, hcount ▸ h.dots, fun hm ↦ ?_⟩
    rw [← hcount]
    exact h.full (hcola.trans hm)
  · intro ⟨hhead, h⟩
    refine ⟨List.forall_mem_cons.mpr ⟨hc, h.mem⟩, hcola.symm ▸ h.cola, ⟨hhead, h.saltadas⟩,
      hpartes.mpr h.octetos, hcount.symm ▸ h.dots, fun hm ↦ ?_⟩
    rw [hcount]
    exact h.full (hcola.symm.trans hm)

theorem compila_backslash :
    Compila k p ('\\' :: m) ↔ (∃ d ∈ m.head?, d ≠ '\\' ∧ isWild d = false) ∧ Compila k p m := by
  have hcount : k + ('\\' :: m).count '.' = k + m.count '.' := by
    rw [List.count_cons_of_ne (by decide)]
  rw [compila_cons rfl (by simp) (by rw [partes_backslash]) hcount, imp_iff_right rfl]

theorem compila_digit (hc : c.isDigit = true) : Compila k p (c :: m) ↔ Compila k (p ++ [c]) m := by
  have hdot : c ≠ '.' := fun heq ↦ absurd hc (by rw [heq]; decide)
  have hslash : c ≠ '\\' := fun heq ↦ absurd hc (by rw [heq]; decide)
  have hcount : k + (c :: m).count '.' = k + m.count '.' := by rw [List.count_cons_of_ne hdot]
  rw [compila_cons (isWild_of_isDigit hc) (.inl hc) (by rw [partes_digit hc]) hcount,
    and_iff_right fun heq ↦ absurd heq hslash]

/-- The field that the mask goes on with is an octet so far. -/
theorem Compila.octeto_front (h : Compila k (p ++ [c]) m) (hc : c.isDigit = true) (hp : Octeto p) :
    Octeto (p ++ [c]) := by
  have hdot : '.' ∉ p ++ [c] := by
    rw [List.mem_append, List.mem_singleton, not_or]
    exact ⟨hp.not_mem_dot, fun heq ↦ absurd hc (by rw [← heq]; decide)⟩
  obtain ⟨q, qs, hq⟩ := exists_partes (m := m) hdot
  exact (h.octetos _ (by rw [hq]; exact List.mem_cons_self)).of_isPrefix (List.prefix_append _ _)

theorem compila_dot (hp : Octeto p) : Compila k p ('.' :: m) ↔ Compila (k + 1) [] m := by
  have hcount : k + ('.' :: m).count '.' = k + 1 + m.count '.' := by
    rw [List.count_cons_self]
    omega
  have hpartes : (∀ d ∈ partes p ('.' :: m), Octeto d) ↔ ∀ d ∈ partes [] m, Octeto d := by
    rw [partes_dot hp, List.forall_mem_cons, and_iff_right hp]
  rw [compila_cons rfl (by simp) hpartes hcount, and_iff_right fun heq ↦ absurd heq (by decide)]

/-- From the first wildcard on there are only digits, dots and wildcards. -/
theorem compila_wild (hp : Octeto p) (hc : isWild c = true) :
    Compila k p (c :: m) ↔ Restan k m := by
  have hdot : c ≠ '.' := fun heq ↦ absurd hc (by rw [heq]; decide)
  have hslash : c ≠ '\\' := fun heq ↦ absurd hc (by rw [heq]; decide)
  have hcount : (c :: m).count '.' = m.count '.' := List.count_cons_of_ne hdot
  constructor
  · intro h
    refine ⟨fun d hd ↦ ?_, hcount ▸ h.dots⟩
    have hne : d ≠ '\\' := by
      rintro rfl
      exact h.cola (by rw [cola_wild hc]; exact List.mem_cons_of_mem _ hd)
    rcases h.mem d (List.mem_cons_of_mem _ hd) with hdig | hdot | hwild | heq
    · exact .inl hdig
    · exact .inr (.inl hdot)
    · exact .inr (.inr hwild)
    · exact absurd heq hne
  · intro ⟨hmem, hdots⟩
    have hnone : '\\' ∉ c :: m := by
      rw [List.mem_cons, not_or]
      exact ⟨hslash.symm, fun h ↦ by have := hmem _ h; revert this; decide⟩
    refine ⟨List.forall_mem_cons.mpr ⟨.inr (.inr (.inl hc)), fun d hd ↦ ?_⟩, ?_,
      saltadas_of_not_mem hnone, ?_, hcount.symm ▸ hdots, fun hm ↦ ?_⟩
    · rcases hmem d hd with h | h | h
      · exact .inl h
      · exact .inr (.inl h)
      · exact .inr (.inr (.inl h))
    · rwa [cola_wild hc]
    · rw [partes_of_cabeza hp (cabeza_wild hc)]
      simpa using hp
    · rw [cola_wild hc] at hm
      cases hm

/-! ## What the compiler does -/

/-- A digit is read as long as the field is an octet. -/
theorem Vars.Lee.digit_cases (h : v.Lee os p) (hc : c.isDigit = true) :
    (Octeto (p ++ [c]) ∧ ∃ v', v.digit c = some v' ∧ v'.Lee os (p ++ [c])) ∨
      ¬Octeto (p ++ [c]) ∧ v.digit c = none := by
  have hoct := octeto_append h.octeto hc
  rw [Vars.digit, h.digits, h.tmp]
  by_cases hzero : 0 < p.length ∧ valor p = 0
  · rw [if_pos hzero]
    exact .inr ⟨fun ho ↦ (hoct.mp ho).1 hzero, rfl⟩
  · rw [if_neg hzero]
    by_cases hle : valor p * 10 + cifra c > 255
    · rw [if_pos hle]
      exact .inr ⟨fun ho ↦ absurd (hoct.mp ho).2 (by omega), rfl⟩
    · rw [if_neg hle]
      have ho := hoct.mpr ⟨hzero, by omega⟩
      refine .inl ⟨ho, _, rfl, h.bits, h.unco, ?_, h.shift, ?_, ho, h.fits, h.length⟩
      · simp
      · exact valor_append.symm

/-- A dot ends an octet. -/
theorem Vars.Lee.tras_punto (h : v.Lee os p) (hlen : os.length < 3) :
    v.cierra.Lee (os ++ [valor p]) [] where
  bits := by
    rw [Vars.cierra, h.bits, h.tmp, h.shift]
    exact Addr.junta_append h.length h.fits (Nat.lt_succ_of_le h.octeto.valor)
  unco := h.unco
  digits := rfl
  shift := by
    simp only [Vars.cierra, h.shift, List.length_append, List.length_singleton]
    omega
  tmp := rfl
  octeto := octeto_nil
  fits := by
    intro x hx
    rcases List.mem_append.mp hx with hx | hx
    · exact h.fits x hx
    · rw [List.mem_singleton.mp hx]
      exact Nat.lt_succ_of_le h.octeto.valor
  length := by
    rw [List.length_append, List.length_singleton]
    omega

theorem restan_cons (hc : c.isDigit = true ∨ isWild c = true) :
    Restan k (c :: m) ↔ Restan k m := by
  have hdot : c ≠ '.' := by
    rintro rfl
    exact absurd hc (by decide)
  have hmem : c.isDigit = true ∨ c = '.' ∨ isWild c = true := hc.imp_right .inr
  rw [Restan, List.forall_mem_cons, and_iff_right hmem, List.count_cons_of_ne hdot, Restan]

theorem restan_dot : Restan k ('.' :: m) ↔ Restan (k + 1) m := by
  have hdot : ('.').isDigit = true ∨ '.' = '.' ∨ isWild '.' = true := .inr (.inl rfl)
  rw [Restan, List.forall_mem_cons, and_iff_right hdot, List.count_cons_self, Restan,
    Nat.add_right_comm, Nat.add_assoc]

/-- The loop behind the first wildcard. -/
theorem comodines_eq (unco : Bool) (hk : k ≤ 3) :
    comodines unco (24 - 8 * k) m = if Restan k m then some (unco || !limpia m) else none := by
  induction m generalizing unco k with
  | nil =>
      have hnil : Restan k [] := ⟨by simp, by simpa using hk⟩
      rw [if_pos hnil]
      simp [comodines, limpia]
  | cons c m ih =>
      rw [comodines]
      by_cases hdig : c.isDigit = true
      · have hlimpia : limpia (c :: m) = false := by
          have hdot : c ≠ '.' := fun heq ↦ absurd hdig (by rw [heq]; decide)
          have hstar : c ≠ '*' := fun heq ↦ absurd hdig (by rw [heq]; decide)
          simp [limpia, hdot, hstar]
        rw [if_pos hdig, ih true hk]
        simp only [restan_cons (.inl hdig), hlimpia, Bool.not_false, Bool.or_true, Bool.true_or]
      rw [if_neg hdig]
      by_cases hdot : c = '.'
      · subst hdot
        rw [if_pos rfl]
        by_cases hfull : 24 - 8 * k = 0
        · have hno : ¬Restan k ('.' :: m) := by
            rw [restan_dot]
            exact fun h ↦ by have := h.2; omega
          rw [if_pos hfull, if_neg hno]
        · have hshift : 24 - 8 * k - 8 = 24 - 8 * (k + 1) := by omega
          rw [if_neg hfull, hshift, ih _ (by omega)]
          simp only [restan_dot, limpia, if_true, Bool.not_and, Bool.or_assoc, ne_eq, decide_not]
      rw [if_neg hdot]
      by_cases hquest : c = '?'
      · subst hquest
        have hrest : Restan k ('?' :: m) ↔ Restan k m := restan_cons (.inr (by decide))
        rw [if_pos rfl, ih true hk]
        simp [hrest, limpia]
      rw [if_neg hquest]
      by_cases hstar : c = '*'
      · subst hstar
        have hrest : Restan k ('*' :: m) ↔ Restan k m := restan_cons (.inr (by decide))
        rw [if_pos rfl, ih unco hk]
        simp [hrest, limpia]
      · have hno : ¬Restan k (c :: m) := fun h ↦ by
          have hc := h.1 c List.mem_cons_self
          simp [hdig, hdot, isWild, hstar, hquest] at hc
        rw [if_neg hstar, if_neg hno]

/-- What a mask is compiled to is determined by its octets and by the need of a comparison. -/
theorem compilada_congr {os' : List Nat} {p' : CStr}
    (hvs : os ++ (completas p mask).map valor = os' ++ (completas p' m).map valor)
    (hdirecta : Directa p mask ↔ Directa p' m) : compilada os p mask = compilada os' p' m := by
  rw [compilada, compilada, hvs, decide_eq_decide.mpr hdirecta]

/-- The mask behind a backslash. -/
theorem compilada_backslash : compilada os p ('\\' :: m) = compilada os p m := by
  have hcola := cola_cons (m := m) (c := '\\') rfl
  refine compilada_congr ?_ ?_
  · rw [completas, completas, partes_backslash, hcola]
  · rw [Directa, Directa, partes_backslash, hcola]

/-- The mask behind a digit. -/
theorem compilada_digit (hc : c.isDigit = true) :
    compilada os p (c :: m) = compilada os (p ++ [c]) m := by
  have hcola := cola_cons (m := m) (isWild_of_isDigit hc)
  refine compilada_congr ?_ ?_
  · rw [completas, completas, partes_digit hc, hcola]
  · rw [Directa, Directa, partes_digit hc, hcola]

/-- The mask behind a dot. -/
theorem compilada_dot (hp : Octeto p) :
    compilada os p ('.' :: m) = compilada (os ++ [valor p]) [] m := by
  have hcola := cola_cons (m := m) (c := '.') rfl
  refine compilada_congr ?_ ?_
  · rw [completas, completas, hcola, partes_dot hp]
    split
    · simp
    · rw [List.dropLast_cons_of_ne_nil partes_ne_nil]
      simp
  · have hlast : (p :: partes [] m).getLast? = (partes [] m).getLast? := by
      rw [List.getLast?_cons, List.getLast?_eq_getLast_of_ne_nil partes_ne_nil]
      rfl
    rw [Directa, Directa, partes_dot hp, hlast, hcola]

/-- At the first wildcard the comparison of texts is needed unless no digits stand in front of it
and only stars and dots behind it. -/
theorem unco_eq (hp : Octeto p) (hc : isWild c = true) :
    (decide (c = '?') || decide (0 < p.length) || !limpia m) = !decide (Directa p (c :: m)) := by
  have hne : cola (c :: m) ≠ [] := by
    rw [cola_wild hc]
    exact List.cons_ne_nil _ _
  have hdirecta : Directa p (c :: m) ↔ p = [] ∧ limpia (c :: m) = true := by
    rw [Directa, or_iff_right hne, partes_of_cabeza hp (cabeza_wild hc), cola_wild hc]
    simp
  rw [isWild, decide_eq_true_iff] at hc
  rcases hc with rfl | rfl
  · cases p <;> simp [hdirecta, limpia]
  · simp [hdirecta, limpia]

/-- The first wildcard. -/
theorem Vars.Lee.comodin_eq (h : v.Lee os p) (hc : isWild c = true) :
    Ip.comodin { v with unco := c = '?' } m =
      if Restan os.length m then compilada os p (c :: m) else nunca := by
  have hcompletas : completas p (c :: m) = [] := by
    have hne : cola (c :: m) ≠ [] := by
      rw [cola_wild hc]
      exact List.cons_ne_nil _ _
    rw [completas, if_neg hne, partes_of_cabeza h.octeto (cabeza_wild hc)]
    rfl
  have hfilt : BitVec.allOnes 32 <<< (24 - 8 * os.length) <<< 8 = Addr.mascara os.length := by
    have hlen := h.length
    rw [Addr.mascara, ← BitVec.shiftLeft_add]
    congr 1
    omega
  rw [Ip.comodin, h.shift, h.digits, comodines_eq _ h.length]
  by_cases hrest : Restan os.length m
  · simp only [if_pos hrest, compilada, hcompletas, List.map_nil, List.append_nil, hfilt, h.bits]
    congr 1
    exact unco_eq h.octeto hc
  · simp only [if_neg hrest]

/-- What the compiler does behind some octets: it comes to its end on the masks that it knows, and
gives up on the others. -/
theorem desde_eq (h : v.Lee os p) (hslash : '/' ∉ mask) :
    (Compila os.length p mask ∧ desde v mask = compilada os p mask) ∨
      (¬Compila os.length p mask ∧ desde v mask = nunca) := by
  induction mask generalizing v os p with
  | nil =>
      have hcompila := compila_nil (k := os.length) h.octeto
      have hlen := h.length
      rw [desde, h.shift]
      by_cases hfull : os.length = 3
      · have hshift : ¬24 - 8 * os.length ≠ 0 := by omega
        refine .inl ⟨hcompila.mpr hfull, ?_⟩
        have hbits := Addr.junta_append hlen h.fits (Nat.lt_succ_of_le h.octeto.valor)
        have hfour : (os ++ [valor p]).length = 4 := by simp [hfull]
        have hvs : os ++ (completas p []).map valor = os ++ [valor p] := by
          rw [completas, if_pos (show cola [] = [] from rfl), partes_of_cabeza h.octeto rfl]
          rfl
        have hdirecta : Directa p [] := .inl rfl
        rw [if_neg hshift, compilada, hvs, ← hbits, hfour, decide_eq_true hdirecta, Vars.cierra,
          h.bits, h.tmp, h.shift, h.unco]
        rfl
      · have hshift : 24 - 8 * os.length ≠ 0 := by omega
        exact .inr ⟨fun hc ↦ hfull (hcompila.mp hc), if_pos hshift⟩
  | cons c m ih =>
      rw [List.mem_cons, not_or] at hslash
      rw [desde]
      by_cases hback : c = '\\'
      · subst hback
        rw [if_pos rfl, compila_backslash, compilada_backslash]
        by_cases hnext : ∃ d ∈ m.head?, d ≠ '\\' ∧ isWild d = false
        · have hgo : ¬(m = [] ∨ m.head? = some '\\' ∨ m.head? = some '*' ∨ m.head? = some '?') := by
            obtain ⟨d, hd, hback, hwild⟩ := hnext
            rw [isWild, decide_eq_false_iff_not, not_or] at hwild
            cases m with
            | nil => cases hd
            | cons e m =>
                obtain rfl := Option.some.inj hd
                simp [hback, hwild]
          rw [if_neg hgo, and_iff_right hnext]
          exact ih h hslash.2
        · have hstop : m = [] ∨ m.head? = some '\\' ∨ m.head? = some '*' ∨ m.head? = some '?' := by
            cases m with
            | nil => exact .inl rfl
            | cons e m =>
                by_contra hno
                refine hnext ⟨e, rfl, ?_⟩
                simpa [isWild] using hno
          rw [if_pos hstop]
          exact .inr ⟨fun hc ↦ hnext hc.1, rfl⟩
      rw [if_neg hback]
      by_cases hdig : c.isDigit = true
      · rw [if_pos hdig, compila_digit hdig, compilada_digit hdig]
        obtain ⟨hoct, v', hv', h'⟩ | ⟨hoct, hv'⟩ := h.digit_cases hdig
        · rw [hv']
          exact ih h' hslash.2
        · rw [hv']
          exact .inr ⟨fun hc ↦ hoct (hc.octeto_front hdig h.octeto), rfl⟩
      rw [if_neg hdig]
      by_cases hdot : c = '.'
      · subst hdot
        rw [if_pos rfl, compila_dot h.octeto, compilada_dot h.octeto, h.shift]
        have hlen := h.length
        by_cases hfull : os.length = 3
        · rw [if_pos (by omega)]
          exact .inr ⟨fun hc ↦ by have := hc.dots; omega, rfl⟩
        · rw [if_neg (by omega)]
          have hnext := ih (h.tras_punto (by omega)) hslash.2
          rwa [List.length_append] at hnext
      rw [if_neg hdot, if_neg (Ne.symm hslash.1)]
      by_cases hwild : isWild c = true
      · have hend := h.comodin_eq (m := m) hwild
        have hcompila := compila_wild (k := os.length) (m := m) h.octeto hwild
        have hcase : (if c = '?' then comodin { v with unco := true } m
            else if c = '*' then comodin v m else nunca) =
              comodin { v with unco := c = '?' } m := by
          rw [isWild, decide_eq_true_iff] at hwild
          rcases hwild with rfl | rfl
          · have hunco : { v with unco := decide ('*' = '?') } = v := by
              rw [decide_eq_false (by decide), ← h.unco]
            rw [hunco]
            rfl
          · rfl
        rw [hcase, hend, hcompila]
        by_cases hrest : Restan os.length m
        · exact .inl ⟨hrest, if_pos hrest⟩
        · exact .inr ⟨hrest, if_neg hrest⟩
      · have hno : ¬Compila os.length p (c :: m) := fun hc ↦ by
          have hmem := hc.mem c List.mem_cons_self
          simp [hdig, hdot, hwild, hback] at hmem
        rw [isWild, decide_eq_true_iff, not_or] at hwild
        rw [if_neg hwild.2, if_neg hwild.1]
        exact .inr ⟨hno, rfl⟩

end Ip

end Match

end Ircd
