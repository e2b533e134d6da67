import Ircd.Sprintf.Tabla

/-!
# `vsprintf_irc`

The formatter of `ircd/sprintf_irc.c` over its output buffer, the static `scratch_buffer` and the
arguments not yet consumed. A write outside of a buffer, a read outside of `atoi_tab` or an argument
of another type gives `none`; the `vsprintf` of the C library is a parameter. `Imprime` is what the
C library prints for the directives that are handled here. The main theorem, `vsprintfIrc_imprime`,
says that the formatter prints the same and leaves the first other directive to `vsprintf`.
-/

namespace Ircd.Sprintf

open Buffer CString

/-! ## The formatter -/

/-- An argument, with the type that it is passed with. A pointer is the memory at it. -/
inductive Arg where
  | int (n : Int32)
  | uint (n : UInt32)
  | ulong (n : UInt64)
  | puntero (p : List Char)

/-- The output buffer with the pointer into it, and `scratch_buffer`. -/
structure Estado where
  mem : List Char
  str : Nat
  scratch : List Char

namespace Estado

/-- `*str = c`. -/
def asigna (e : Estado) (c : Char) : Option Estado := do
  some { e with mem := ← poke e.mem e.str c }

/-- `*str++ = c`. -/
def pon (e : Estado) (c : Char) : Option Estado := do
  let e ← e.asigna c
  some { e with str := e.str + 1 }

/-- `while ((*++str = *++p))`, on the memory behind `p`. -/
def copia (e : Estado) : List Char → Option Estado
  | [] => none
  | c :: p => do
      let e ← { e with str := e.str + 1 }.asigna c
      if c = nul then some e else e.copia p

/-- The directive `%s`. -/
def ponCadena (e : Estado) : List Char → Option Estado
  | [] => none
  | c :: p => do
      let e ← e.asigna c
      if c = nul then some e else e.copia p

/-- Three digits from the table. -/
def ponTres (e : Estado) (v : Nat) : Option Estado := do
  let (c₀, c₁, c₂) ← leeTres v
  (← (← e.pon c₀).pon c₁).pon c₂

/-- Nine digits, of a number below 1000000000. -/
def ponNueve (e : Estado) (v1 : Nat) : Option Estado := do
  let v2 := v1 / 1000000
  let e ← e.ponTres v2
  let v1 := v1 - v2 * 1000000
  let v2 := v1 / 1000
  let e ← e.ponTres v2
  e.ponTres (v1 - v2 * 1000)

/-- The directive `%lu`. -/
def ponTiempo (e : Estado) (n : UInt64) : Option Estado := do
  let v1 := n.toNat
  if 999999999 < v1 then
    let v2 := v1 / 1000000000
    let e ← e.pon (Char.ofNat ((48 + v2) % 256))
    e.ponNueve (v1 - v2 * 1000000000)
  else e.ponNueve v1

/-- What `%d` and `%u` do with a number that is not 0: its groups go into `scratch_buffer`, and from
there, behind their zeros, to the output. -/
def ponNumero (e : Estado) (v1 : UInt32) : Option Estado := do
  let (scratch, s) ← cifras e.scratch (32 - 2) v1.toNat
  match (scratch.drop (s + 1)).dropWhile (· = '0') with
  | [] => none
  | c :: p => (← { e with scratch := scratch }.asigna c).copia p

/-- The directive `%d`. -/
def ponEntero (e : Estado) (n : Int32) : Option Estado := do
  let v1 := n.toUInt32
  if v1.toInt32 ≤ 0 then
    if v1 = 0 then e.pon '0' else (← e.pon '-').ponNumero (-v1)
  else e.ponNumero v1

/-- The directive `%u`. -/
def ponSinSigno (e : Estado) (v1 : UInt32) : Option Estado :=
  if v1 = 0 then e.pon '0' else e.ponNumero v1

/-- `str += vsprintf (str, format, vl)`, which prints a text with its terminator. -/
def imprime (e : Estado) : CStr → Option Estado
  | [] => e.asigna nul
  | c :: t => do (← e.pon c).imprime t

end Estado

/-- `vsprintf_irc`, on the memory at the format. -/
def vsprintfIrc (vsprintf : CStr → List Arg → CStr) (format : List Char) (vl : List Arg)
    (e : Estado) : Option Estado :=
  match format with
  | [] => none
  | c :: format =>
      if c = nul then e.asigna nul
      else if c ≠ '%' then do
        vsprintfIrc vsprintf format vl (← e.pon c)
      else
        match format with
        | [] => none
        | d :: format =>
            if d = 'c' then
              match vl with
              | .int n :: vl => do
                  vsprintfIrc vsprintf format vl (← e.pon (Char.ofNat n.toUInt32.toUInt8.toNat))
              | _ => none
            else if d = 's' then
              match vl with
              | .puntero p :: vl => do vsprintfIrc vsprintf format vl (← e.ponCadena p)
              | _ => none
            else if d = 'l' ∧ format.head? = some 'u' then
              match vl with
              | .ulong n :: vl => do vsprintfIrc vsprintf format.tail vl (← e.ponTiempo n)
              | _ => none
            else if d = 'd' then
              match vl with
              | .int n :: vl => do vsprintfIrc vsprintf format vl (← e.ponEntero n)
              | _ => none
            else if d = 'u' then
              match vl with
              | .uint n :: vl => do vsprintfIrc vsprintf format vl (← e.ponSinSigno n)
              | _ => none
            else if d ≠ '%' then do
              -- `format -= 2`: the directive is read again from its `%`
              let e ← e.imprime (vsprintf ((c :: d :: format).takeWhile (· ≠ nul)) vl)
              e.asigna nul
            else do
              vsprintfIrc vsprintf format vl (← e.pon d)
termination_by format.length

/-! ## What the C library prints -/

/-- A format of ordinary characters and of the directives `%%`, `%c`, `%s`, `%d`, `%u` and `%lu`, its
arguments, and the text that they are printed as. A `%lu` has nine or ten digits. -/
inductive Imprime : CStr → List Arg → CStr → Prop
  | fin : Imprime [] [] []
  | texto {c f vl t} (hc : c ≠ '%') (hnul : c ≠ nul) (h : Imprime f vl t) :
      Imprime (c :: f) vl (c :: t)
  | porcentaje {f vl t} (h : Imprime f vl t) : Imprime ('%' :: '%' :: f) vl ('%' :: t)
  | caracter {f vl t} (n : Int32) (h : Imprime f vl t) :
      Imprime ('%' :: 'c' :: f) (.int n :: vl) (Char.ofNat (n.toInt % 256).toNat :: t)
  | cadena {f vl t} (p resto : List Char) (hp : nul ∉ p) (h : Imprime f vl t) :
      Imprime ('%' :: 's' :: f) (.puntero (p ++ nul :: resto) :: vl) (p ++ t)
  | entero {f vl t} (n : Int32) (h : Imprime f vl t) :
      Imprime ('%' :: 'd' :: f) (.int n :: vl) (CString.entero n.toInt ++ t)
  | sinSigno {f vl t} (n : UInt32) (h : Imprime f vl t) :
      Imprime ('%' :: 'u' :: f) (.uint n :: vl) (decimal n.toNat ++ t)
  | tiempo {f vl t} (n : UInt64) (hlo : 100000000 ≤ n.toNat) (hhi : n.toNat ≤ 9999999999)
      (h : Imprime f vl t) :
      Imprime ('%' :: 'l' :: 'u' :: f) (.ulong n :: vl) (decimal n.toNat ++ t)

/-- The part of a format from a directive of another kind on. -/
structure Otra (r : CStr) : Prop where
  porcentaje : r.head? = some '%'
  otra : ∀ d, r.tail.head? = some d → d ∉ ['c', 's', 'd', 'u', '%']
  tiempo : ¬ ['l', 'u'] <+: r.tail
  nul : nul ∉ r

/-! ## Writing -/

/-- The buffer with the pointer behind `a`, at the cell `x` in front of `b`. -/
def Estado.en (a : List Char) (x : Char) (b scratch : List Char) : Estado :=
  ⟨a ++ x :: b, a.length, scratch⟩

section

variable {a b p scratch rest : List Char} {c x y : Char}

open Estado (en)

theorem asigna_en : (en a x b scratch).asigna c = some (en a c b scratch) := by
  simp only [Estado.asigna, en, poke_append rfl]
  rfl

theorem pon_en : (en a x (y :: b) scratch).pon c = some (en (a ++ [c]) y b scratch) := by
  rw [Estado.pon, asigna_en]
  simp [en]

theorem asigna_siguiente : { en a x (y :: b) scratch with str := a.length + 1 }.asigna c =
    some (en (a ++ [x]) c b scratch) := by
  have hcell : ({ en a x (y :: b) scratch with str := a.length + 1 } : Estado) =
      en (a ++ [x]) y b scratch := by
    simp [en]
  rw [hcell, asigna_en]

/-- The copying of a string whose first character stands at the pointer. -/
theorem copia_en (hp : nul ∉ p) (hb : p.length < b.length) :
    (en a c b scratch).copia (p ++ nul :: rest) =
      some (en (a ++ c :: p) nul (b.drop (p.length + 1)) scratch) := by
  induction p generalizing a b c with
  | nil =>
      obtain ⟨y, b, rfl⟩ := List.exists_cons_of_length_pos hb
      rw [List.nil_append, Estado.copia]
      show ({ en a c (y :: b) scratch with str := a.length + 1 }.asigna nul >>= _) = _
      rw [asigna_siguiente]
      rfl
  | cons d p ih =>
      obtain ⟨hd, hp⟩ := List.ne_and_not_mem_of_not_mem_cons hp
      obtain ⟨y, b, rfl⟩ := List.exists_cons_of_length_pos (Nat.zero_lt_of_lt hb)
      have hb : p.length < b.length := by simpa using hb
      rw [List.cons_append, Estado.copia]
      show ({ en a c (y :: b) scratch with str := a.length + 1 }.asigna d >>= _) = _
      rw [asigna_siguiente, Option.bind_eq_bind, Option.bind_some, if_neg (Ne.symm hd), ih hp hb,
        List.append_assoc]
      rfl

theorem ponCadena_en (hp : nul ∉ p) (hb : p.length ≤ b.length) :
    (en a x b scratch).ponCadena (p ++ nul :: rest) =
      some (en (a ++ p) nul (b.drop p.length) scratch) := by
  cases p with
  | nil =>
      rw [List.nil_append, Estado.ponCadena, asigna_en, List.append_nil]
      rfl
  | cons c p =>
      obtain ⟨hc, hp⟩ := List.ne_and_not_mem_of_not_mem_cons hp
      rw [List.cons_append, Estado.ponCadena, asigna_en, Option.bind_eq_bind, Option.bind_some,
        if_neg (Ne.symm hc)]
      exact copia_en hp hb

theorem imprime_en (hb : p.length ≤ b.length) :
    (en a x b scratch).imprime p = some (en (a ++ p) nul (b.drop p.length) scratch) := by
  induction p generalizing a b x with
  | nil => rw [Estado.imprime, asigna_en, List.append_nil]; rfl
  | cons c p ih =>
      obtain ⟨y, b, rfl⟩ := List.exists_cons_of_length_pos (Nat.zero_lt_of_lt hb)
      rw [Estado.imprime, pon_en, Option.bind_eq_bind, Option.bind_some,
        ih (Nat.le_of_succ_le_succ hb), List.append_assoc]
      rfl

/-! ## What a step prints -/

/-- The step prints `t` at the pointer, when there is room for it and for a terminator. -/
def Escribe (f : Estado → Option Estado) (t : CStr) : Prop :=
  ∀ a x b scratch, Terminado scratch → t.length ≤ b.length →
    ∃ x' scratch', Terminado scratch' ∧
      f (en a x b scratch) = some (en (a ++ t) x' (b.drop t.length) scratch')

theorem Escribe.bind {f g : Estado → Option Estado} {s t : CStr} (hf : Escribe f s)
    (hg : Escribe g t) : Escribe (fun e ↦ (f e).bind g) (s ++ t) := by
  intro a x b scratch hscratch hb
  rw [List.length_append] at hb
  obtain ⟨x₁, scratch₁, hscratch₁, hf⟩ := hf a x b scratch hscratch (by omega)
  obtain ⟨x₂, scratch₂, hscratch₂, hg⟩ := hg (a ++ s) x₁ (b.drop s.length) scratch₁ hscratch₁ (by
    rw [List.length_drop]
    omega)
  refine ⟨x₂, scratch₂, hscratch₂, ?_⟩
  show (f (en a x b scratch)).bind g = _
  rw [hf, Option.bind_some, hg, List.append_assoc, List.drop_drop, List.length_append]

theorem escribe_pon (c : Char) : Escribe (·.pon c) [c] := by
  intro a x b scratch hscratch hb
  obtain ⟨y, b, rfl⟩ := List.exists_cons_of_length_pos hb
  exact ⟨y, scratch, hscratch, pon_en⟩

theorem escribe_ponCadena (hp : nul ∉ p) (rest : List Char) :
    Escribe (·.ponCadena (p ++ nul :: rest)) p :=
  fun _ _ _ scratch hscratch hb ↦ ⟨nul, scratch, hscratch, ponCadena_en hp hb⟩

theorem escribe_ponTres {v : Nat} (hv : v < 1000) : Escribe (·.ponTres v) (tres v) := by
  have hf : (fun e : Estado ↦ e.ponTres v) = fun e ↦ (e.pon (Nat.digitChar (v / 100))).bind
      fun e ↦ (e.pon (Nat.digitChar (v / 10 % 10))).bind (·.pon (Nat.digitChar (v % 10))) := by
    funext e
    simp only [Estado.ponTres, leeTres_eq hv, Option.bind_eq_bind, Option.bind_some]
  rw [hf]
  exact (escribe_pon _).bind ((escribe_pon _).bind (escribe_pon _))

/-- A number from `scratch_buffer`. -/
theorem escribe_ponNumero {v : UInt32} (hv : v ≠ 0) :
    Escribe (·.ponNumero v) (decimal v.toNat) := by
  intro a x b scratch hscratch hb
  have hpos : 0 < v.toNat := Nat.pos_of_ne_zero fun h ↦ hv (UInt32.toNat_inj.mp h)
  obtain ⟨scratch', s, hscratch', hcifras, hdigits⟩ := cifras_scratch hscratch hpos v.toNat_lt
  obtain ⟨c, p, hcp⟩ := List.exists_cons_of_ne_nil (decimal_ne_nil v.toNat)
  have hp : nul ∉ p := by
    have hnot := not_mem_decimal (n := v.toNat) (c := nul) (by decide)
    rw [hcp] at hnot
    exact List.not_mem_of_not_mem_cons hnot
  have hfirst : { en a x b scratch with scratch := scratch' }.asigna c = some (en a c b scratch') :=
    asigna_en
  refine ⟨nul, scratch', hscratch', ?_⟩
  rw [hcp] at hb hdigits ⊢
  have hread : (en a x b scratch).scratch = scratch := rfl
  simp only [Estado.ponNumero, hread, hcifras, Option.bind_eq_bind, Option.bind_some, hdigits,
    List.cons_append, hfirst]
  exact copia_en hp hb

theorem escribe_ponSinSigno (v : UInt32) : Escribe (·.ponSinSigno v) (decimal v.toNat) := by
  by_cases hv : v = 0
  · subst hv
    exact escribe_pon '0'
  · simp only [Estado.ponSinSigno, if_neg hv]
    exact escribe_ponNumero hv

/-- The absolute value of a negative `int` by unsigned negation. -/
theorem toNat_neg_toUInt32 {n : Int32} (hn : n.toInt < 0) :
    (-n.toUInt32).toNat = n.toInt.natAbs := by
  have hint : n.toInt = if 2 * n.toUInt32.toNat < 2 ^ 32 then (n.toUInt32.toNat : Int)
      else n.toUInt32.toNat - (2 ^ 32 : Nat) := BitVec.toInt_eq_toNat_cond n.toBitVec
  have hlt := n.toUInt32.toNat_lt
  have hsize : UInt32.size = 2 ^ 32 := rfl
  rw [UInt32.toNat_neg, hsize]
  split at hint <;> omega

theorem toNat_toUInt32 {n : Int32} (hn : 0 ≤ n.toInt) : n.toUInt32.toNat = n.toInt.natAbs := by
  have hint : n.toInt = if 2 * n.toUInt32.toNat < 2 ^ 32 then (n.toUInt32.toNat : Int)
      else n.toUInt32.toNat - (2 ^ 32 : Nat) := BitVec.toInt_eq_toNat_cond n.toBitVec
  have hlt := n.toUInt32.toNat_lt
  split at hint <;> omega

/-- The conversion of an `int` to a `char`. -/
theorem toNat_toUInt8 (n : Int32) : n.toUInt32.toUInt8.toNat = (n.toInt % 256).toNat := by
  have hint : n.toInt = if 2 * n.toUInt32.toNat < 2 ^ 32 then (n.toUInt32.toNat : Int)
      else n.toUInt32.toNat - (2 ^ 32 : Nat) := BitVec.toInt_eq_toNat_cond n.toBitVec
  rw [UInt32.toNat_toUInt8]
  split at hint <;> omega

theorem escribe_ponEntero (n : Int32) : Escribe (·.ponEntero n) (entero n.toInt) := by
  have hle : n.toUInt32.toInt32 ≤ 0 ↔ n.toInt ≤ 0 := Int32.le_iff_toInt_le
  rcases Int.lt_trichotomy n.toInt 0 with hneg | hzero | hpos
  · have hv : n.toUInt32 ≠ 0 := by
      intro h
      have habs := toNat_neg_toUInt32 hneg
      rw [h] at habs
      change 0 = _ at habs
      omega
    have hminus : -n.toUInt32 ≠ 0 := by
      intro h
      have habs := toNat_neg_toUInt32 hneg
      rw [h] at habs
      change 0 = _ at habs
      omega
    have h := (escribe_pon '-').bind (escribe_ponNumero hminus)
    rw [toNat_neg_toUInt32 hneg] at h
    simp only [Estado.ponEntero, if_pos (hle.mpr (Int.le_of_lt hneg)), if_neg hv, entero,
      if_pos hneg]
    exact h
  · have hn : n = 0 := Int32.toInt_inj.mp hzero
    subst hn
    exact escribe_pon '0'
  · have hv : n.toUInt32 ≠ 0 := by
      intro h
      have habs := toNat_toUInt32 (Int.le_of_lt hpos)
      rw [h] at habs
      change 0 = _ at habs
      omega
    have h := escribe_ponNumero hv
    rw [toNat_toUInt32 (Int.le_of_lt hpos)] at h
    simp only [Estado.ponEntero, if_neg (fun h ↦ Int.not_le.mpr hpos (hle.mp h)), entero,
      if_neg (Int.not_lt.mpr (Int.le_of_lt hpos))]
    exact h

theorem escribe_ponNueve {v : Nat} (hv : v < 1000000000) : Escribe (·.ponNueve v) (nueve v) := by
  have hmid : (v - v / 1000000 * 1000000) / 1000 = v / 1000 % 1000 := by omega
  have hlast : v - v / 1000000 * 1000000 - v / 1000 % 1000 * 1000 = v % 1000 := by omega
  have hf : (fun e : Estado ↦ e.ponNueve v) = fun e ↦ (e.ponTres (v / 1000000)).bind fun e ↦
      (e.ponTres (v / 1000 % 1000)).bind (·.ponTres (v % 1000)) := by
    funext e
    simp only [Estado.ponNueve, hmid, hlast, Option.bind_eq_bind]
  rw [hf]
  exact (escribe_ponTres (by omega)).bind
    ((escribe_ponTres (by omega)).bind (escribe_ponTres (by omega)))

/-- A time stamp. -/
theorem escribe_ponTiempo (n : UInt64) : Escribe (·.ponTiempo n) (lu n.toNat) := by
  have hmod : ∀ v, v - v / 1000000000 * 1000000000 = v % 1000000000 := fun v ↦ by omega
  by_cases hten : 999999999 < n.toNat
  · have hf : (fun e : Estado ↦ e.ponTiempo n) = fun e ↦
        (e.pon (Char.ofNat ((48 + n.toNat / 1000000000) % 256))).bind
          (·.ponNueve (n.toNat % 1000000000)) := by
      funext e
      simp only [Estado.ponTiempo, if_pos hten, hmod, Option.bind_eq_bind]
    rw [hf, lu, if_pos hten]
    exact (escribe_pon _).bind (escribe_ponNueve (Nat.mod_lt _ (by decide)))
  · have hf : (fun e : Estado ↦ e.ponTiempo n) = fun e ↦ e.ponNueve (n.toNat % 1000000000) := by
      funext e
      rw [Nat.mod_eq_of_lt (by omega)]
      simp only [Estado.ponTiempo, if_neg hten]
    rw [hf, lu, if_neg hten]
    exact escribe_ponNueve (Nat.mod_lt _ (by decide))

end

/-! ## The formatter -/

section

variable {vsprintf : CStr → List Arg → CStr} {f r t : CStr} {vl mas : List Arg} {a b : List Char}
  {scratch tras : List Char} {x : Char}

open Estado (en)

/-- The text `t` is printed for the arguments `vl` by the time that the formatter is at what follows
`f`. -/
def Recorre (vsprintf : CStr → List Arg → CStr) (f : CStr) (vl : List Arg) (t : CStr) : Prop :=
  ∀ fin mas a x b scratch, Terminado scratch → t.length ≤ b.length →
    ∃ x' scratch', Terminado scratch' ∧
      vsprintfIrc vsprintf (f ++ fin) (vl ++ mas) (en a x b scratch) =
        vsprintfIrc vsprintf fin mas (en (a ++ t) x' (b.drop t.length) scratch')

/-- A step of the formatter, and what comes behind it. -/
theorem Recorre.paso {f' : CStr} {vl' : List Arg} {s : CStr} {g : Estado → Option Estado}
    (hg : Escribe g s) (h : Recorre vsprintf f vl t)
    (hstep : ∀ fin mas e, vsprintfIrc vsprintf (f' ++ fin) (vl' ++ mas) e =
      (g e).bind (vsprintfIrc vsprintf (f ++ fin) (vl ++ mas))) :
    Recorre vsprintf f' vl' (s ++ t) := by
  intro fin mas a x b scratch hscratch hb
  rw [List.length_append] at hb
  obtain ⟨x₁, scratch₁, hscratch₁, hg⟩ := hg a x b scratch hscratch (by omega)
  obtain ⟨x₂, scratch₂, hscratch₂, h⟩ := h fin mas (a ++ s) x₁ (b.drop s.length) scratch₁ hscratch₁
    (by rw [List.length_drop]; omega)
  refine ⟨x₂, scratch₂, hscratch₂, ?_⟩
  rw [hstep, hg, Option.bind_some, h, List.append_assoc, List.drop_drop, List.length_append]

/-- The formatter over the directives that it handles. -/
theorem recorre_imprime (vsprintf : CStr → List Arg → CStr) (h : Imprime f vl t) :
    Recorre vsprintf f vl t := by
  induction h with
  | fin =>
      intro fin mas a x b scratch hscratch _
      exact ⟨x, scratch, hscratch, by rw [List.append_nil]; rfl⟩
  | @texto c f vl t hc hnul h ih =>
      refine Recorre.paso (escribe_pon c) ih fun fin mas e ↦ ?_
      rw [List.cons_append, vsprintfIrc.eq_def]
      simp only [if_neg hnul, if_pos hc]
      rfl
  | @porcentaje f vl t h ih =>
      refine Recorre.paso (escribe_pon '%') ih fun fin mas e ↦ ?_
      rw [List.cons_append, vsprintfIrc.eq_def]
      rfl
  | @caracter f vl t n h ih =>
      have hbyte := toNat_toUInt8 n
      refine Recorre.paso (escribe_pon _) ih fun fin mas e ↦ ?_
      rw [List.cons_append, vsprintfIrc.eq_def, ← hbyte]
      rfl
  | @cadena f vl t p resto hp h ih =>
      refine Recorre.paso (escribe_ponCadena hp resto) ih fun fin mas e ↦ ?_
      rw [List.cons_append, vsprintfIrc.eq_def]
      rfl
  | @entero f vl t n h ih =>
      refine Recorre.paso (escribe_ponEntero n) ih fun fin mas e ↦ ?_
      rw [List.cons_append, vsprintfIrc.eq_def]
      rfl
  | @sinSigno f vl t n h ih =>
      refine Recorre.paso (escribe_ponSinSigno n) ih fun fin mas e ↦ ?_
      rw [List.cons_append, vsprintfIrc.eq_def]
      rfl
  | @tiempo f vl t n hlo hhi h ih =>
      have htiempo := escribe_ponTiempo n
      rw [lu_eq_decimal hlo hhi] at htiempo
      refine Recorre.paso htiempo ih fun fin mas e ↦ ?_
      rw [List.cons_append, vsprintfIrc.eq_def]
      rfl

/-- The end of a format. -/
theorem vsprintfIrc_nul : vsprintfIrc vsprintf (nul :: tras) mas (en a x b scratch) =
    some (en a nul b scratch) := by
  rw [vsprintfIrc.eq_def]
  exact asigna_en

/-- A directive of another kind. -/
theorem vsprintfIrc_otra (h : Otra r) (hb : (vsprintf r mas).length ≤ b.length) :
    vsprintfIrc vsprintf (r ++ nul :: tras) mas (en a x b scratch) =
      some (en (a ++ vsprintf r mas) nul (b.drop (vsprintf r mas).length) scratch) := by
  obtain ⟨hpercent, hother, htime, hnul⟩ := h
  obtain ⟨s, rfl⟩ : ∃ s, r = '%' :: s := by
    cases r with
    | nil => cases hpercent
    | cons c s => exact ⟨s, by rw [← Option.some.inj hpercent]⟩
  have htext : ('%' :: (s ++ nul :: tras)).takeWhile (· ≠ nul) = '%' :: s :=
    takeWhile_stop (s := '%' :: s) tras
      (fun c hc ↦ decide_eq_true fun heq ↦ hnul (heq ▸ hc)) (by simp)
  have hlast : ((en a x b scratch).imprime (vsprintf ('%' :: s) mas)).bind (·.asigna nul) =
      some (en (a ++ vsprintf ('%' :: s) mas) nul (b.drop (vsprintf ('%' :: s) mas).length)
        scratch) := by
    rw [imprime_en hb, Option.bind_some, asigna_en]
  rw [List.cons_append, vsprintfIrc.eq_def]
  cases s with
  | nil =>
      rw [← htext] at hlast ⊢
      exact hlast
  | cons d s =>
      have hd := hother d rfl
      simp only [List.mem_cons, List.not_mem_nil, or_false, not_or] at hd
      obtain ⟨hc, hs, hd, hu, hp⟩ := hd
      have hl : ¬(d = 'l' ∧ (s ++ nul :: tras).head? = some 'u') := by
        rintro ⟨rfl, hhead⟩
        cases s with
        | nil =>
            have hu : nul = 'u' := Option.some.inj hhead
            exact absurd hu (by decide)
        | cons e s =>
            obtain rfl := Option.some.inj hhead
            exact htime ⟨s, rfl⟩
      rw [← hlast, List.cons_append]
      simp only [if_neg hc, if_neg hs, if_neg hl, if_neg hd, if_neg hu, if_pos hp]
      rw [← List.cons_append, htext]
      rfl

end

/-- What is printed for the rest of a format, which is empty or left to `vsprintf`. -/
def resto (vsprintf : CStr → List Arg → CStr) (r : CStr) (mas : List Arg) : CStr :=
  if r = [] then [] else vsprintf r mas

/-- The formatter prints what the C library prints, and of a format with another directive it leaves
the rest to `vsprintf`, with the arguments that are not consumed. `a` is in front of `str` in the
output buffer, and `b` behind the cell at `str`. -/
theorem vsprintfIrc_imprime {f r t : CStr} {vl : List Arg} (h : Imprime f vl t)
    (hr : r = [] ∨ Otra r) (vsprintf : CStr → List Arg → CStr) (mas : List Arg) (tras : List Char)
    {a b scratch : List Char} (x : Char) (hscratch : Terminado scratch)
    (hb : (t ++ resto vsprintf r mas).length ≤ b.length) :
    ∃ scratch', Terminado scratch' ∧
      vsprintfIrc vsprintf (f ++ (r ++ nul :: tras)) (vl ++ mas) ⟨a ++ x :: b, a.length, scratch⟩ =
        some ⟨a ++ (t ++ resto vsprintf r mas) ++
            nul :: b.drop (t ++ resto vsprintf r mas).length,
          a.length + (t ++ resto vsprintf r mas).length, scratch'⟩ := by
  have hlen := hb
  rw [List.length_append] at hlen
  obtain ⟨x', scratch', hscratch', hrun⟩ :=
    recorre_imprime vsprintf h (r ++ nul :: tras) mas a x b scratch hscratch (by omega)
  refine ⟨scratch', hscratch', hrun.trans ?_⟩
  rcases hr with rfl | hr
  · rw [List.nil_append, vsprintfIrc_nul, resto, if_pos rfl, List.append_nil, Estado.en,
      List.length_append]
  · have hne : r ≠ [] := by
      rintro rfl
      cases hr.porcentaje
    rw [resto, if_neg hne] at hlen ⊢
    rw [vsprintfIrc_otra hr (by rw [List.length_drop]; omega), Estado.en, List.drop_drop,
      ← List.append_assoc, List.length_append, List.length_append, List.length_append,
      Nat.add_assoc]

/-- The least `int` and a directive of another kind. -/
theorem vsprintfIrc_imprime_min : ∃ scratch', Terminado scratch' ∧
    vsprintfIrc (fun _ _ ↦ ['0', '7']) ['%', 'd', ',', '%', '0', '2', 'd', nul]
        [.int (-2147483648), .int 7] ⟨List.replicate 20 nul, 0, List.replicate 32 nul⟩ =
      some ⟨['-', '2', '1', '4', '7', '4', '8', '3', '6', '4', '8', ',', '0', '7'] ++
        List.replicate 6 nul, 14, scratch'⟩ :=
  vsprintfIrc_imprime (a := []) (b := List.replicate 19 nul) (r := ['%', '0', '2', 'd'])
    (.entero (-2147483648) (.texto (by decide) (by decide) .fin))
    (.inr ⟨rfl, by simp, by decide, by decide⟩) (fun _ _ ↦ ['0', '7']) [.int 7] [] nul
    ⟨List.replicate 31 nul, rfl, rfl⟩ (by decide)

end Ircd.Sprintf
