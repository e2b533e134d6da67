import Ircd.Lib.Buffer
import Mathlib.Data.List.Basic

/-!
# Numbers in groups of three digits

`atoiTab` is the table `atoi_tab` of `ircd/sprintf_irc.c`, with the three digits and a terminator
for each number below 1000. `cifras` is the loop that writes the groups of a number into
`scratch_buffer` from behind. `cifras_append` says what it writes, and `dropWhile_grupos` that this
is the decimal text of the number behind zeros. `lu` is what is printed for a time stamp.
-/

namespace Ircd.Sprintf

open Buffer CString

/-! ## The table -/

/-- Three digits of a number, with leading zeros. -/
def tres (n : Nat) : List Char :=
  [Nat.digitChar (n / 100), Nat.digitChar (n / 10 % 10), Nat.digitChar (n % 10)]

@[simp] theorem length_tres (n : Nat) : (tres n).length = 3 := rfl

/-- `atoi_tab`. -/
def atoiTab : List Char :=
  (List.range 1000).flatMap fun n ↦ tres n ++ [nul]

/-- The three reads at `atoi_tab + (v << 2)`. -/
def leeTres (v : Nat) : Option (Char × Char × Char) := do
  let ap := v <<< 2
  some (← atoiTab[ap]?, ← atoiTab[ap + 1]?, ← atoiTab[ap + 2]?)

/-- An element of one of the parts of a list, when each part has `k` elements. -/
theorem getElem?_flatMap_range {α : Type*} {f : Nat → List α} {k : Nat}
    (hf : ∀ n, (f n).length = k) {n v i : Nat} (hv : v < n) (hi : i < k) :
    ((List.range n).flatMap f)[k * v + i]? = (f v)[i]? := by
  have hlen : ∀ n, ((List.range n).flatMap f).length = k * n := by
    intro n
    induction n with
    | zero => simp
    | succ n ih =>
        rw [List.range_succ, List.flatMap_append, List.length_append, ih, List.flatMap_singleton,
          hf, Nat.mul_succ]
  induction n with
  | zero => exact absurd hv (Nat.not_lt_zero v)
  | succ n ih =>
      rw [List.range_succ, List.flatMap_append, List.flatMap_singleton]
      by_cases hvn : v = n
      · subst hvn
        rw [List.getElem?_append_right (by rw [hlen]; omega), hlen, Nat.add_sub_cancel_left]
      · have hle : k * v + k ≤ k * n := by
          rw [← Nat.mul_succ]
          exact Nat.mul_le_mul_left k (by omega)
        rw [List.getElem?_append_left (by rw [hlen]; omega), ih (by omega)]

/-- The entry of a number is inside the table and has its digits. -/
theorem leeTres_eq {v : Nat} (hv : v < 1000) :
    leeTres v = some (Nat.digitChar (v / 100), Nat.digitChar (v / 10 % 10),
      Nat.digitChar (v % 10)) := by
  have hentry : ∀ i < 4, atoiTab[4 * v + i]? = (tres v ++ [nul])[i]? := by
    intro i hi
    rw [atoiTab]
    exact getElem?_flatMap_range (f := fun n ↦ tres n ++ [nul]) (fun _ ↦ rfl) hv hi
  have hshift : v <<< 2 = 4 * v := by
    rw [Nat.shiftLeft_eq]
    omega
  have hfirst := hentry 0 (by decide)
  rw [Nat.add_zero] at hfirst
  rw [leeTres, hshift]
  simp only [hfirst, hentry 1 (by decide), hentry 2 (by decide)]
  rfl

/-! ## The loop -/

/-- One group: three characters are written from behind, and the pointer goes below them. -/
def grupo (scratch : List Char) (s v : Nat) : Option (List Char × Nat) := do
  let (c₀, c₁, c₂) ← leeTres v
  if s < 3 then none
  else
    let scratch ← poke scratch s c₂
    let scratch ← poke scratch (s - 1) c₁
    let scratch ← poke scratch (s - 2) c₀
    some (scratch, s - 3)

/-- The loop over the groups of `v1`. -/
def cifras (scratch : List Char) (s v1 : Nat) : Option (List Char × Nat) := do
  let v2 := v1 / 1000
  let (scratch, s) ← grupo scratch s (v1 - 1000 * v2)
  if 0 < v2 then cifras scratch s v2 else some (scratch, s)
termination_by v1

/-- The groups of a number. -/
def grupos (v : Nat) : List Char :=
  if v < 1000 then tres v else grupos (v / 1000) ++ tres (v % 1000)
termination_by v

/-- One digit too few for `k` groups. -/
theorem length_grupos_le {v k : Nat} (h : v < 1000 ^ (k + 1)) :
    (grupos v).length ≤ 3 * (k + 1) := by
  induction k generalizing v with
  | zero =>
      rw [grupos, if_pos (by simpa using h)]
      exact Nat.le_refl 3
  | succ k ih =>
      rw [grupos]
      split
      · show 3 ≤ 3 * (k + 1 + 1)
        omega
      · have hdiv : v / 1000 < 1000 ^ (k + 1) := by
          rw [Nat.div_lt_iff_lt_mul (by decide)]
          exact h
        have hlen := ih hdiv
        rw [List.length_append]
        show (grupos (v / 1000)).length + 3 ≤ 3 * (k + 1 + 1)
        omega

variable {q r t : List Char} {x y z : Char} {v : Nat}

theorem grupo_append (hq : q ≠ []) (hv : v < 1000) :
    grupo (q ++ x :: y :: z :: t) (q.length + 2) v =
      some (q ++ (tres v ++ t), q.length - 1) := by
  have hpos := List.length_pos_iff.mpr hq
  have hlast : poke (q ++ x :: y :: z :: t) (q.length + 2) (Nat.digitChar (v % 10)) =
      some (q ++ x :: y :: Nat.digitChar (v % 10) :: t) := by
    have h := poke_append (a := q ++ [x, y]) (b := t) (c := z) (d := Nat.digitChar (v % 10))
      (i := q.length + 2) (by simp)
    simpa using h
  have hmid : ∀ w : Char, poke (q ++ x :: y :: w :: t) (q.length + 1)
      (Nat.digitChar (v / 10 % 10)) =
      some (q ++ x :: Nat.digitChar (v / 10 % 10) :: w :: t) := by
    intro w
    have h := poke_append (a := q ++ [x]) (b := w :: t) (c := y)
      (d := Nat.digitChar (v / 10 % 10)) (i := q.length + 1) (by simp)
    simpa using h
  rw [grupo, leeTres_eq hv]
  show (if q.length + 2 < 3 then none else _) = _
  rw [if_neg (by omega), hlast]
  show (poke _ (q.length + 1) _ >>= _) = _
  rw [hmid]
  show (poke _ q.length _ >>= _) = _
  rw [poke_append rfl]
  show some (_, q.length + 2 - 3) = _
  rw [show q.length + 2 - 3 = q.length - 1 by omega]
  rfl

theorem cifras_of_lt (scratch : List Char) (s : Nat) (hv : v < 1000) :
    cifras scratch s v = grupo scratch s v := by
  have hdiv : v / 1000 = 0 := Nat.div_eq_of_lt hv
  unfold cifras
  simp only [hdiv, Nat.mul_zero, Nat.sub_zero, Nat.lt_irrefl, if_false]
  exact bind_pure (grupo scratch s v)

theorem cifras_of_le (scratch : List Char) (s : Nat) (hv : 1000 ≤ v) :
    cifras scratch s v =
      (grupo scratch s (v % 1000)).bind fun p ↦ cifras p.1 p.2 (v / 1000) := by
  have hpos : 0 < v / 1000 := Nat.div_pos hv (by decide)
  have hmod : v - 1000 * (v / 1000) = v % 1000 := by omega
  conv_lhs => unfold cifras
  simp only [hpos, hmod, if_true]
  rfl

/-- The loop writes the groups of a number, when the pointer has room for them. -/
theorem cifras_append (hq : q ≠ []) (hr : r.length = (grupos v).length) :
    cifras (q ++ (r ++ t)) (q.length + r.length - 1) v =
      some (q ++ (grupos v ++ t), q.length - 1) := by
  induction v using grupos.induct generalizing r t with
  | case1 v hv =>
      rw [grupos, if_pos hv] at hr ⊢
      obtain ⟨x, y, z, rfl⟩ := List.length_eq_three.mp hr
      rw [cifras_of_lt _ _ hv]
      exact grupo_append hq hv
  | case2 v hv ih =>
      rw [grupos, if_neg hv, List.length_append, length_tres] at hr
      obtain ⟨r', x, y, z, rfl, hr'⟩ : ∃ r' x y z, r = r' ++ [x, y, z] ∧
          r'.length = (grupos (v / 1000)).length := by
        have hsplit : (r.drop (grupos (v / 1000)).length).length = 3 := by
          rw [List.length_drop, hr, Nat.add_sub_cancel_left]
        obtain ⟨x, y, z, hxyz⟩ := List.length_eq_three.mp hsplit
        refine ⟨r.take (grupos (v / 1000)).length, x, y, z, ?_, ?_⟩
        · rw [← hxyz, List.take_append_drop]
        · exact List.length_take_of_le (by omega)
      have hgrupo := grupo_append (q := q ++ r') (x := x) (y := y) (z := z) (t := t)
        (by simp [hq]) (Nat.mod_lt v (by decide))
      have hplace : q.length + (r' ++ [x, y, z]).length - 1 = (q ++ r').length + 2 := by
        simp only [List.length_append, List.length_cons, List.length_nil]
        omega
      have hcells : q ++ (r' ++ [x, y, z] ++ t) = q ++ r' ++ x :: y :: z :: t := by
        simp only [List.append_assoc, List.cons_append, List.nil_append]
      rw [cifras_of_le _ _ (Nat.le_of_not_lt hv), hplace, hcells, hgrupo, Option.bind_some,
        List.length_append, List.append_assoc, ih hr']
      conv_rhs => rw [grupos, if_neg hv, List.append_assoc]

/-! ## The text of a number -/

theorem decimal_of_le {n : Nat} (h : 1000 ≤ n) :
    decimal n = decimal (n / 1000) ++ tres (n % 1000) := by
  have hten : 1 < 10 := by decide
  have hdiv : n / 10 / 10 / 10 = n / 1000 := by omega
  have htres : tres (n % 1000) = [Nat.digitChar (n / 10 / 10 % 10), Nat.digitChar (n / 10 % 10),
      Nat.digitChar (n % 10)] := by
    have hlast : n % 1000 % 10 = n % 10 := by omega
    have hmid : n % 1000 / 10 % 10 = n / 10 % 10 := by omega
    have hfirst : n % 1000 / 100 = n / 10 / 10 % 10 := by omega
    simp only [tres, hlast, hmid, hfirst]
  have hunits := Nat.toDigits_of_base_le (n := n) hten (by omega)
  have htens := Nat.toDigits_of_base_le (n := n / 10) hten (by omega)
  have hhundreds := Nat.toDigits_of_base_le (n := n / 10 / 10) hten (by omega)
  simp only [decimal, hunits, htens, hhundreds, htres, hdiv, List.append_assoc, List.cons_append,
    List.nil_append]

/-- A number with three digits. -/
theorem decimal_tres {n : Nat} (hlo : 100 ≤ n) (hhi : n < 1000) : decimal n = tres n := by
  have hten : 1 < 10 := by decide
  have hdiv : n / 10 / 10 = n / 100 := by omega
  rw [decimal, Nat.toDigits_of_base_le hten (by omega),
    Nat.toDigits_of_base_le hten (by omega), hdiv, Nat.toDigits_of_lt_base (by omega)]
  rfl

theorem dropWhile_tres {n : Nat} (hpos : 0 < n) (hlt : n < 1000) :
    (tres n).dropWhile (· = '0') = decimal n := by
  have hzero : Nat.digitChar 0 = '0' := rfl
  have hne : ∀ d < 10, 0 < d → Nat.digitChar d ≠ '0' := by decide
  rcases Nat.lt_or_ge n 10 with h | h
  · rw [tres, Nat.div_eq_of_lt (by omega), Nat.div_eq_of_lt h, Nat.mod_eq_of_lt h, decimal,
      Nat.toDigits_of_lt_base h]
    simp [hzero, hne n h hpos]
  · rcases Nat.lt_or_ge n 100 with h' | h'
    · have hdigit : n / 10 < 10 := by omega
      rw [tres, Nat.div_eq_of_lt h', Nat.mod_eq_of_lt hdigit, decimal,
        Nat.toDigits_of_base_le (by decide) h, Nat.toDigits_of_lt_base hdigit]
      simp [hzero, hne _ hdigit (by omega)]
    · rw [decimal_tres h' hlt, tres]
      simp [hne (n / 100) (by omega) (by omega)]

/-- Without their leading zeros the groups of a number are its text. -/
theorem dropWhile_grupos (hv : 0 < v) : (grupos v).dropWhile (· = '0') = decimal v := by
  induction v using grupos.induct with
  | case1 v h =>
      rw [grupos, if_pos h]
      exact dropWhile_tres hv h
  | case2 v h ih =>
      have hdiv : 0 < v / 1000 := Nat.div_pos (Nat.le_of_not_lt h) (by decide)
      have hne : ((grupos (v / 1000)).dropWhile (· = '0')).isEmpty = false := by
        rw [ih hdiv]
        simpa using decimal_ne_nil (v / 1000)
      have hdecimal := decimal_of_le (Nat.le_of_not_lt h)
      rw [grupos, if_neg h, List.dropWhile_append, hne, ih hdiv, hdecimal]
      rfl

/-! ## `%lu` -/

/-- The nine digits of a number below 1000000000. -/
def nueve (v : Nat) : CStr :=
  tres (v / 1000000) ++ (tres (v / 1000 % 1000) ++ tres (v % 1000))

/-- The text of `%lu`: nine digits, and in front of them the character that is as many places behind
`0` as there are thousands of millions. -/
def lu (v : Nat) : CStr :=
  (if 999999999 < v then [Char.ofNat ((48 + v / 1000000000) % 256)] else []) ++
    nueve (v % 1000000000)

/-- A number with nine digits. -/
theorem decimal_nueve {n : Nat} (hlo : 100000000 ≤ n) (hhi : n ≤ 999999999) :
    decimal n = nueve n := by
  have hdiv : n / 1000 / 1000 = n / 1000000 := by omega
  rw [decimal_of_le (by omega), decimal_of_le (n := n / 1000) (by omega), hdiv,
    decimal_tres (by omega) (by omega), List.append_assoc, nueve]

/-- A number with ten digits. -/
theorem decimal_diez {n : Nat} (hlo : 999999999 < n) (hhi : n ≤ 9999999999) :
    decimal n = Char.ofNat (48 + n / 1000000000) :: nueve (n % 1000000000) := by
  have hdigit : ∀ d < 10, decimal d = [Char.ofNat (48 + d)] := by decide
  have hdiv : n / 1000 / 1000 = n / 1000000 := by omega
  have hdiv' : n / 1000000 / 1000 = n / 1000000000 := by omega
  have hfirst : n % 1000000000 / 1000000 = n / 1000000 % 1000 := by omega
  have hmid : n % 1000000000 / 1000 % 1000 = n / 1000 % 1000 := by omega
  have hlast : n % 1000000000 % 1000 = n % 1000 := by omega
  rw [decimal_of_le (by omega), decimal_of_le (n := n / 1000) (by omega), hdiv,
    decimal_of_le (n := n / 1000000) (by omega), hdiv', hdigit _ (by omega), nueve, hfirst, hmid,
    hlast, List.append_assoc, List.append_assoc, List.singleton_append]

/-- The time stamps of these years are printed as the C library does. -/
theorem lu_eq_decimal {n : Nat} (hlo : 100000000 ≤ n) (hhi : n ≤ 9999999999) :
    lu n = decimal n := by
  by_cases hten : 999999999 < n
  · have hchar : (48 + n / 1000000000) % 256 = 48 + n / 1000000000 := by omega
    rw [lu, if_pos hten, hchar, decimal_diez hten hhi, List.singleton_append]
  · rw [lu, if_neg hten, List.nil_append, Nat.mod_eq_of_lt (by omega),
      decimal_nueve hlo (Nat.le_of_not_lt hten)]

/-! ## `scratch_buffer` -/

/-- `scratch_buffer` keeps the terminator at its end. -/
def Terminado (scratch : List Char) : Prop :=
  ∃ p : List Char, p.length = 31 ∧ scratch = p ++ [nul]

/-- After the loop the text of a number stands in `scratch_buffer` behind the pointer, behind zeros
and in front of the terminator. -/
theorem cifras_scratch {scratch : List Char} (h : Terminado scratch) (hpos : 0 < v)
    (hv : v < 2 ^ 32) :
    ∃ scratch' s, Terminado scratch' ∧ cifras scratch (32 - 2) v = some (scratch', s) ∧
      (scratch'.drop (s + 1)).dropWhile (· = '0') = decimal v ++ [nul] := by
  obtain ⟨p, hp, rfl⟩ := h
  have hlen : (grupos v).length ≤ 12 := length_grupos_le (k := 3) (Nat.lt_trans hv (by decide))
  obtain ⟨q, r, rfl, hr⟩ : ∃ q r, p = q ++ r ∧ r.length = (grupos v).length := by
    refine ⟨p.take (31 - (grupos v).length), p.drop (31 - (grupos v).length),
      (List.take_append_drop _ _).symm, ?_⟩
    rw [List.length_drop]
    omega
  rw [List.length_append] at hp
  have hqpos : 0 < q.length := by omega
  have hcifras := cifras_append (t := [nul]) (List.length_pos_iff.mp hqpos) hr
  have hplace : q.length + r.length - 1 = 32 - 2 := by omega
  rw [hplace, ← List.append_assoc] at hcifras
  refine ⟨q ++ (grupos v ++ [nul]), q.length - 1, ⟨q ++ grupos v, ?_, ?_⟩, hcifras, ?_⟩
  · rw [List.length_append, ← hr, hp]
  · rw [List.append_assoc]
  · have hisEmpty : (decimal v).isEmpty = false := by
      simpa using decimal_ne_nil v
    rw [Nat.sub_add_cancel hqpos, List.drop_left, List.dropWhile_append, dropWhile_grupos hpos,
      hisEmpty]
    rfl

end Ircd.Sprintf
