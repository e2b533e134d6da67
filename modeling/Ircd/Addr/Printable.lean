import Ircd.Addr.Text

/-!
# Addresses are read back from their printed form

`parseFormas_marca` and `parseFormas_entera` run the parser over the two forms of a printed IPv6
address, and `idaVueltaTexto_iff` tells which addresses are read back.
-/

namespace Ircd.Addr

open CString IPcheck

/-! ## One segment -/

/-- A hexadecimal digit is read, and it is none of the characters that the parser looks for. -/
theorem chval_hexdigits : ∀ n < 16, chval (hexdigits n) = some n ∧ hexdigits n ≠ ':' ∧
    hexdigits n ≠ '.' ∧ hexdigits n ≠ '/' ∧ hexdigits n ≠ '*' := by
  decide

/-- The parser reads one digit of a segment. -/
theorem parseSegmentos_cifra {pbits : Bool} {part n colon : Nat} {partStart : Option CStr}
    {segs : List UInt16} {input : CStr} (hn : n < 16) (hpart : part * 16 + n < 65536) :
    parseSegmentos pbits part colon partStart segs (hexdigits n :: input) =
      parseSegmentos pbits (part * 16 + n) colon partStart segs input := by
  obtain ⟨hval, hcolon, hdot, hslash, hstar⟩ := chval_hexdigits n hn
  have hor : part <<< 4 ||| n = part * 16 + n := by
    rw [← Nat.shiftLeft_add_eq_or_of_lt (by omega), Nat.shiftLeft_eq]
  rw [parseSegmentos, hval]
  · simp only [hor]
    rw [if_neg (by omega)]
  · exact fun _ h ↦ absurd h hcolon
  all_goals assumption

/-- A leading digit is printed only when it is needed, and is read as 0 otherwise. -/
theorem parseSegmentos_opcional {pbits : Bool} {part colon : Nat} {partStart : Option CStr}
    {segs : List UInt16} {input : CStr} (k : Nat) (hpart : part < 65536) :
    parseSegmentos pbits (part / 2 ^ (k + 4)) colon partStart segs
        ((if part ≥ 2 ^ k then [hexdigits (part / 2 ^ k % 16)] else []) ++ input) =
      parseSegmentos pbits (part / 2 ^ k) colon partStart segs input := by
  have hpow : part / 2 ^ (k + 4) = part / 2 ^ k / 16 := by
    rw [Nat.pow_add, Nat.div_div_eq_div_mul]
  have hle := Nat.div_le_self part (2 ^ k)
  by_cases hk : part ≥ 2 ^ k
  · rw [if_pos hk, List.cons_append, List.nil_append,
      parseSegmentos_cifra (Nat.mod_lt _ (by omega)) (by omega), hpow]
    congr 1
    omega
  · have hzero : part / 2 ^ k = 0 := Nat.div_eq_of_lt (by omega)
    rw [if_neg hk, List.nil_append, hpow, hzero]

/-- The parser reads a segment. -/
theorem parseSegmentos_parte {pbits : Bool} {part colon : Nat} {partStart : Option CStr}
    {segs : List UInt16} {input : CStr} (hpart : part < 65536) :
    parseSegmentos pbits 0 colon partStart segs (imprimeParte part ++ input) =
      parseSegmentos pbits part colon partStart segs input := by
  have hdigit : ∀ k, part >>> k &&& 15 = part / 2 ^ k % 16 := fun k ↦ by
    rw [Nat.and_two_pow_sub_one_eq_mod _ 4, Nat.shiftRight_eq_div_pow]
  have hlast : part &&& 15 = part % 16 := Nat.and_two_pow_sub_one_eq_mod _ 4
  have hfirst : part >>> 12 = part / 2 ^ 12 % 16 := by
    rw [Nat.shiftRight_eq_div_pow]
    omega
  have hzero : part / 2 ^ 16 = 0 := Nat.div_eq_of_lt hpart
  have h₁₂ := @parseSegmentos_opcional pbits part colon partStart segs
    ((if part ≥ 2 ^ 8 then [hexdigits (part / 2 ^ 8 % 16)] else []) ++
      ((if part ≥ 2 ^ 4 then [hexdigits (part / 2 ^ 4 % 16)] else []) ++
        ([hexdigits (part % 16)] ++ input))) 12 hpart
  have hlow : part / 2 ^ 4 * 16 + part % 16 = part := by omega
  rw [hzero, parseSegmentos_opcional 8 hpart, parseSegmentos_opcional 4 hpart, List.singleton_append,
    parseSegmentos_cifra (Nat.mod_lt _ (by omega)) (by omega), hlow] at h₁₂
  simp only [imprimeParte, hdigit, hlast, hfirst, List.append_assoc]
  exact h₁₂

/-- The printed form of a segment. -/
def parte (x : UInt16) : CStr :=
  imprimeParte (htons x).toNat

/-- The segment that is stored is the one that was printed. -/
theorem htons_toUInt16 (x : UInt16) : htons (htons x).toNat.toUInt16 = x := by
  rw [Nat.toUInt16_eq, UInt16.ofNat_toNat, htons_htons]

/-- A printed segment begins with a digit. -/
theorem parte_eq (x : UInt16) : ∃ n < 16, ∃ resto, parte x = hexdigits n :: resto := by
  have hx := (htons x).toNat_lt
  have hmod : ∀ n, n &&& 15 < 16 := fun n ↦ by
    rw [Nat.and_two_pow_sub_one_eq_mod _ 4]
    omega
  have hfirst : (htons x).toNat >>> 12 < 16 := by
    rw [Nat.shiftRight_eq_div_pow]
    omega
  unfold parte imprimeParte
  split
  · exact ⟨_, hfirst, _, rfl⟩
  split
  · exact ⟨_, hmod _, _, rfl⟩
  split
  · exact ⟨_, hmod _, _, rfl⟩
  exact ⟨_, hmod _, _, rfl⟩

/-- No character of a printed segment is one of the separators. -/
theorem not_mem_parte {x : UInt16} {c : Char} (hc : c ∈ parte x) : c ≠ ':' ∧ c ≠ '.' := by
  have hdigit : ∀ n, hexdigits n ≠ ':' ∧ hexdigits n ≠ '.' := by
    intro n
    by_cases hn : n < 16
    · exact ⟨(chval_hexdigits n hn).2.1, (chval_hexdigits n hn).2.2.1⟩
    · have hzero : hexdigits n = '0' := by
        rw [hexdigits, List.getD_eq_getElem?_getD, List.getElem?_eq_none (by simp; omega)]
        rfl
      rw [hzero]
      decide
  simp only [parte, imprimeParte, List.mem_append, List.mem_singleton, List.mem_ite_nil_right] at hc
  rcases hc with ((⟨-, rfl⟩ | ⟨-, rfl⟩) | ⟨-, rfl⟩) | rfl <;> exact hdigit _

/-! ## Separators -/

/-- The segments that are printed with a colon behind each of them. -/
def conColon (xs : List UInt16) : CStr :=
  xs.flatMap fun x ↦ parte x ++ [':']

/-- The segments that are printed with a colon between them. -/
def entreColon : List UInt16 → CStr
  | [] => []
  | [x] => parte x
  | x :: xs => parte x ++ ':' :: entreColon xs

/-- The parser reads a segment that another one follows. -/
theorem parseSegmentos_paso {pbits : Bool} {colon : Nat} {partStart : Option CStr} {x : UInt16}
    {segs : List UInt16} {n : Nat} {input : CStr} (hn : n < 16) (h : segs.length + 1 < 8) :
    parseSegmentos pbits 0 colon partStart segs (parte x ++ ':' :: hexdigits n :: input) =
      parseSegmentos pbits 0 colon (some (hexdigits n :: input)) (segs ++ [x])
        (hexdigits n :: input) := by
  obtain ⟨-, hcolon, hdot, -, -⟩ := chval_hexdigits n hn
  rw [parte, parseSegmentos_parte (htons x).toNat_lt, parseSegmentos, htons_toUInt16]
  · rw [if_neg (by simpa [lee] using hdot)]
    simp only [List.length_append, List.length_singleton]
    rw [if_pos h]
  · exact fun _ h ↦ absurd (List.cons.inj h).1 hcolon

/-- The parser reads a segment before a double colon. -/
theorem parseSegmentos_doble {pbits : Bool} {partStart : Option CStr} {x : UInt16}
    {segs : List UInt16} {input : CStr} (h : segs.length + 1 < 8) :
    parseSegmentos pbits 0 8 partStart segs (parte x ++ ':' :: ':' :: input) =
      parseSegmentos pbits 0 (segs.length + 1) (some (':' :: input)) (segs ++ [x]) input := by
  rw [parte, parseSegmentos_parte (htons x).toNat_lt, parseSegmentos, htons_toUInt16]
  simp only [List.length_append, List.length_singleton]
  rw [if_neg (by omega), if_pos h]

/-- The parser reads the segments before a double colon. -/
theorem parseSegmentos_conColon {pbits : Bool} {partStart : Option CStr} {xs segs : List UInt16}
    {input : CStr} (hxs : xs ≠ []) (h : segs.length + xs.length < 8) :
    ∃ partStart', parseSegmentos pbits 0 8 partStart segs (conColon xs ++ ':' :: input) =
      parseSegmentos pbits 0 (segs.length + xs.length) partStart' (segs ++ xs) input := by
  induction xs generalizing segs partStart with
  | nil => exact absurd rfl hxs
  | cons x xs ih =>
      rw [List.length_cons] at h
      cases xs with
      | nil =>
          refine ⟨some (':' :: input), ?_⟩
          rw [conColon, List.flatMap_singleton, List.append_assoc, List.singleton_append,
            parseSegmentos_doble h]
          rfl
      | cons y ys =>
          obtain ⟨n, hn, resto, hy⟩ := parte_eq y
          have htext : conColon (y :: ys) ++ ':' :: input =
              hexdigits n :: (resto ++ [':'] ++ conColon ys ++ ':' :: input) := by
            simp [conColon, hy]
          obtain ⟨partStart', hih⟩ := @ih (some (conColon (y :: ys) ++ ':' :: input))
            (segs ++ [x]) (by simp)
            (by rw [List.length_append, List.length_singleton]; omega)
          refine ⟨partStart', ?_⟩
          have hhead : conColon (x :: y :: ys) ++ ':' :: input =
              parte x ++ ':' :: (conColon (y :: ys) ++ ':' :: input) := by simp [conColon]
          rw [hhead, htext, parseSegmentos_paso hn (by omega), ← htext, hih, List.append_assoc,
            List.length_append, List.length_singleton, List.singleton_append]
          congr 1
          simp only [List.length_cons]
          omega

/-- The parser reads the segments at the end of a text. -/
theorem parseSegmentos_entreColon {colon : Nat} {partStart : Option CStr} {xs segs : List UInt16}
    (hxs : xs ≠ []) (h : segs.length + xs.length ≤ 8)
    (hcolon : colon ≠ 8 ∨ segs.length + xs.length = 8) :
    parseSegmentos true 0 colon partStart segs (entreColon xs) =
      some ([], finish colon (segs ++ xs), some 128) := by
  induction xs generalizing segs partStart with
  | nil => exact absurd rfl hxs
  | cons x xs ih =>
      cases xs with
      | nil =>
          rw [List.length_singleton] at h hcolon
          have hread := @parseSegmentos_parte true _ colon partStart segs [] (htons x).toNat_lt
          rw [List.append_nil] at hread
          rw [entreColon, parte, hread, parseSegmentos, htons_toUInt16, if_neg (by omega), if_pos rfl]
      | cons y ys =>
          rw [List.length_cons, List.length_cons] at h hcolon
          obtain ⟨n, hn, resto, hy⟩ := parte_eq y
          have htext : ∃ resto', entreColon (y :: ys) = hexdigits n :: resto' := by
            cases ys with
            | nil => exact ⟨resto, by rw [entreColon, hy]⟩
            | cons z zs => exact ⟨_, by rw [entreColon, hy, List.cons_append]; simp⟩
          obtain ⟨resto', htext⟩ := htext
          rw [entreColon, htext, parseSegmentos_paso hn (by omega), ← htext,
            ih (by simp) (by rw [List.length_append, List.length_singleton, List.length_cons]; omega)
              (by rw [List.length_append, List.length_singleton, List.length_cons]; omega),
            List.append_assoc, List.singleton_append]
          simp

/-! ## The words of the address -/

theorem length_sube (ip : List UInt16) (ii jj : Nat) : (sube ip ii jj).length = ip.length := by
  induction jj with
  | zero => rfl
  | succ jj ih => rw [sube, List.length_set, ih]

theorem length_rellena (ip : List UInt16) (colon jj : Nat) :
    (rellena ip colon jj).length = ip.length := by
  induction jj with
  | zero => rfl
  | succ jj ih => rw [rellena, List.length_set, ih]

/-- The words after some moves of the label `finish`. -/
theorem getElem?_sube {ip : List UInt16} {ii jj : Nat} (hip : ip.length = 8) (hii : ii ≤ 8)
    (hjj : jj ≤ ii) (i : Nat) : (sube ip ii jj)[i]? =
      if 8 - jj ≤ i ∧ i < 8 then ip[i + ii - 8]? else ip[i]? := by
  induction jj generalizing i with
  | zero => rw [sube, if_neg (by omega)]
  | succ jj ih =>
      have hword : (sube ip ii jj).getD (ii - jj - 1) 0 = ip.getD (ii - jj - 1) 0 := by
        rw [List.getD_eq_getElem?_getD, ih (by omega), if_neg (by omega),
          List.getD_eq_getElem?_getD]
      rw [sube, hword, List.getElem?_set, length_sube]
      by_cases hi : 7 - jj = i
      · subst hi
        rw [if_pos rfl, if_pos (by omega), if_pos (by omega),
          show 7 - jj + ii - 8 = ii - jj - 1 by omega,
          List.getElem?_eq_getElem (by omega), List.getD_eq_getElem?_getD,
          List.getElem?_eq_getElem (by omega), Option.getD_some]
      · rw [if_neg hi, ih (by omega)]
        by_cases hin : 8 - jj ≤ i ∧ i < 8
        · rw [if_pos hin, if_pos (by omega)]
        · rw [if_neg hin, if_neg (by omega)]

/-- The words after some zeros have been filled in. -/
theorem getElem?_rellena {ip : List UInt16} {colon jj : Nat} (h : colon + jj ≤ ip.length)
    (i : Nat) : (rellena ip colon jj)[i]? =
      if colon ≤ i ∧ i < colon + jj then some 0 else ip[i]? := by
  induction jj generalizing i with
  | zero => rw [rellena, if_neg (by omega)]
  | succ jj ih =>
      rw [rellena, List.getElem?_set, length_rellena]
      by_cases hi : colon + jj = i
      · rw [if_pos hi, if_pos (by omega), if_pos (by omega)]
      · rw [if_neg hi, ih (by omega)]
        by_cases hin : colon ≤ i ∧ i < colon + jj
        · rw [if_pos hin, if_pos (by omega)]
        · rw [if_neg hin, if_neg (by omega)]

/-- The label `finish` puts the missing zeros in the place of the double colon. -/
theorem finish_eq {colon : Nat} {segs : List UInt16} (hcolon : colon ≤ segs.length)
    (hlt : colon < 8) (hlen : segs.length ≤ 8) : finish colon segs =
      segs.take colon ++ List.replicate (8 - segs.length) 0 ++ segs.drop colon := by
  have hmem : (memoria segs).length = 8 := by
    rw [memoria, List.length_append, List.length_replicate]
    omega
  have hsub := Nat.sub_le segs.length colon
  have hword : ∀ j, j < segs.length → (memoria segs)[j]? = segs[j]? := by
    intro j hj
    rw [memoria, List.getElem?_append_left hj]
  have htake : (segs.take colon).length = colon := by
    rw [List.length_take]
    omega
  rw [finish, if_pos hlt]
  apply List.ext_getElem?
  intro i
  rw [getElem?_rellena (by rw [length_sube]; omega), getElem?_sube hmem hlen hsub, List.append_assoc]
  by_cases hbefore : i < colon
  · rw [if_neg (by omega), if_neg (by omega), hword i (by omega),
      List.getElem?_append_left (by omega), List.getElem?_take_of_lt hbefore]
  rw [List.getElem?_append_right (by omega), htake]
  by_cases hzeros : i < colon + (8 - segs.length)
  · rw [if_pos (by omega), List.getElem?_append_left (by rw [List.length_replicate]; omega),
      List.getElem?_replicate, if_pos (by omega)]
  rw [if_neg (by omega), List.getElem?_append_right (by rw [List.length_replicate]; omega),
    List.length_replicate, List.getElem?_drop]
  by_cases hend : i < 8
  · rw [if_pos (by omega), hword _ (by omega)]
    congr 1
    omega
  · rw [if_neg (by omega), List.getElem?_eq_none (by omega), List.getElem?_eq_none (by omega)]

theorem finish_append (xs ys : List UInt16) (hlt : xs.length < 8)
    (hlen : xs.length + ys.length ≤ 8) : finish xs.length (xs ++ ys) =
      xs ++ List.replicate (8 - (xs.length + ys.length)) 0 ++ ys := by
  rw [finish_eq (by rw [List.length_append]; omega) hlt (by rw [List.length_append]; omega),
    List.take_left, List.drop_left, List.length_append]

/-! ## The printed form of an IPv6 address -/

/-- Behind the start of the run every segment is printed. -/
theorem imprimeSegmentos_detras {maxStart maxZeros ii : Nat} {xs : List UInt16}
    (h : maxZeros = 0 ∨ maxStart < ii) (hlen : ii + xs.length = 8) :
    imprimeSegmentos maxStart maxZeros ii 0 xs = entreColon xs := by
  induction xs generalizing ii with
  | nil => rfl
  | cons x xs ih =>
      rw [List.length_cons] at hlen
      have hih := @ih (ii + 1) (by omega) (by omega)
      rw [imprimeSegmentos, if_neg (by omega), hih, ← parte]
      cases xs with
      | nil =>
          rw [List.length_nil] at hlen
          rw [if_neg (by omega), List.append_nil]
          exact List.append_nil _
      | cons y ys =>
          rw [List.length_cons] at hlen
          rw [if_pos (by omega), List.append_assoc]
          rfl

/-- The segments of the run are skipped. -/
theorem imprimeSegmentos_salta {maxStart maxZeros ii salta : Nat} {xs : List UInt16}
    (h : salta ≤ xs.length) : imprimeSegmentos maxStart maxZeros ii salta xs =
      imprimeSegmentos maxStart maxZeros (ii + salta) 0 (xs.drop salta) := by
  induction salta generalizing ii xs with
  | zero => rfl
  | succ salta ih =>
      cases xs with
      | nil => simp at h
      | cons x xs =>
          rw [List.length_cons] at h
          rw [imprimeSegmentos, ih (by omega), List.drop_succ_cons]
          congr 1
          omega

/-- The text has the segments before the run, a second colon and the segments behind the run. -/
theorem imprimeSegmentos_eq {maxStart maxZeros ii : Nat} {xs : List UInt16} (hii : ii ≤ maxStart)
    (hpos : 0 < maxZeros) (hend : maxStart + maxZeros ≤ 8) (hlen : ii + xs.length = 8) :
    imprimeSegmentos maxStart maxZeros ii 0 xs = conColon (xs.take (maxStart - ii)) ++
      ':' :: entreColon (xs.drop (maxStart - ii + maxZeros)) := by
  induction xs generalizing ii with
  | nil =>
      rw [List.length_nil] at hlen
      omega
  | cons x xs ih =>
      rw [List.length_cons] at hlen
      by_cases heq : ii = maxStart
      · have hdrop : (x :: xs).drop (maxStart - ii + maxZeros) = xs.drop (maxZeros - 1) := by
          rw [show maxStart - ii + maxZeros = maxZeros - 1 + 1 by omega, List.drop_succ_cons]
        rw [imprimeSegmentos, if_pos ⟨hpos, heq⟩, imprimeSegmentos_salta (by omega),
          imprimeSegmentos_detras (by omega) (by rw [List.length_drop]; omega), hdrop,
          show maxStart - ii = 0 by omega]
        rfl
      · have htake : maxStart - ii = maxStart - (ii + 1) + 1 := by omega
        have hdrop : maxStart - ii + maxZeros = maxStart - (ii + 1) + maxZeros + 1 := by omega
        rw [imprimeSegmentos, if_neg (by omega), if_pos (by omega), ih (by omega) (by omega), hdrop,
          htake, List.drop_succ_cons, List.take_succ_cons, conColon, conColon, List.flatMap_cons,
          parte]
        simp only [List.append_assoc]

/-- A text of segments has no dot. -/
theorem not_mem_entreColon {xs : List UInt16} : '.' ∉ entreColon xs := by
  intro h
  induction xs with
  | nil => simp [entreColon] at h
  | cons x xs ih =>
      cases xs with
      | nil => exact (not_mem_parte h).2 rfl
      | cons y ys =>
          rw [entreColon, List.mem_append, List.mem_cons] at h
          · rcases h with h | h | h
            · exact (not_mem_parte h).2 rfl
            · exact absurd h (by decide)
            · exact ih h
          · simp

theorem not_mem_conColon {xs : List UInt16} : '.' ∉ conColon xs := by
  intro h
  obtain ⟨x, -, hx⟩ := List.mem_flatMap.mp h
  rw [List.mem_append, List.mem_singleton] at hx
  rcases hx with hx | hx
  · exact (not_mem_parte hx).2 rfl
  · exact absurd hx (by decide)

/-- A text with a colon and no dot that begins with a segment is parsed as an IPv6 address. -/
theorem parseFormas_parte {x : UInt16} {input : CStr} (hdot : '.' ∉ input) :
    parseFormas (parte x ++ ':' :: input) true =
      parseSegmentos true 0 8 none [] (parte x ++ ':' :: input) := by
  have hnodot : '.' ∉ parte x ++ ':' :: input := by
    rw [List.mem_append, List.mem_cons, not_or, not_or]
    exact ⟨fun h ↦ (not_mem_parte h).2 rfl, by decide, hdot⟩
  have hcolon : ':' ∈ parte x ++ ':' :: input := by simp
  have hfirst := List.idxOf_lt_length_of_mem hcolon
  have hlast := List.idxOf_eq_length hnodot
  obtain ⟨n, hn, resto, hx⟩ := parte_eq x
  have hdigit := (chval_hexdigits n hn).2.1
  have hhead : ∀ cs, parte x ++ ':' :: input ≠ ':' :: cs := by
    intro cs heq
    rw [hx, List.cons_append] at heq
    exact hdigit (List.cons.inj heq).1
  rw [parseFormas, if_pos ⟨hfirst, hlast ▸ hfirst⟩]
  · exact fun cs ↦ hhead (':' :: cs)
  · exact hhead

/-- The parser reads a text with a double colon as the segments it stands for. -/
theorem parseFormas_marca {segs : List UInt16} {racha : Nat × Nat} (hlen : segs.length = 8)
    (hstart : 1 ≤ racha.1) (hpos : 0 < racha.2) (hend : racha.1 + racha.2 ≤ 8) :
    parseFormas (conColon (segs.take racha.1) ++ ':' ::
        entreColon (segs.drop (racha.1 + racha.2))) true =
      some ([], recupera segs racha, some 128) := by
  have htake : (segs.take racha.1).length = racha.1 := by
    rw [List.length_take]
    omega
  have hdrop : (segs.drop (racha.1 + racha.2)).length = 8 - (racha.1 + racha.2) := by
    rw [List.length_drop, hlen]
  have hne : segs.take racha.1 ≠ [] := fun h ↦ by
    rw [h, List.length_nil] at htake
    omega
  obtain ⟨x, xs, hxs⟩ := List.exists_cons_of_ne_nil hne
  obtain ⟨partStart', hread⟩ := @parseSegmentos_conColon true none (segs.take racha.1) []
    (entreColon (segs.drop (racha.1 + racha.2))) hne (by rw [List.length_nil]; omega)
  have hforma : parseFormas (conColon (segs.take racha.1) ++ ':' ::
      entreColon (segs.drop (racha.1 + racha.2))) true =
      parseSegmentos true 0 8 none [] (conColon (segs.take racha.1) ++ ':' ::
        entreColon (segs.drop (racha.1 + racha.2))) := by
    rw [hxs, conColon, List.flatMap_cons, ← conColon, List.append_assoc, List.append_assoc,
      List.singleton_append, parseFormas_parte]
    rw [List.mem_append, List.mem_cons, not_or, not_or]
    exact ⟨not_mem_conColon, by decide, not_mem_entreColon⟩
  rw [hforma, hread, List.nil_append, List.length_nil, Nat.zero_add, htake]
  by_cases hys : segs.drop (racha.1 + racha.2) = []
  · rw [hys, List.length_nil] at hdrop
    have hfinish := finish_append (segs.take racha.1) [0] (by omega)
      (by rw [List.length_singleton]; omega)
    have hzeros : List.replicate (8 - (racha.1 + 1)) (0 : UInt16) ++ [0] =
        List.replicate racha.2 0 := by
      rw [← List.replicate_succ', show 8 - (racha.1 + 1) + 1 = racha.2 by omega]
    rw [htake, List.length_singleton, List.append_assoc, hzeros] at hfinish
    rw [hys, entreColon, parseSegmentos, if_neg (by omega), if_pos rfl, recupera, hys,
      List.append_nil, ← hfinish]
    rfl
  · have hfinish := finish_append (segs.take racha.1) (segs.drop (racha.1 + racha.2))
      (by omega) (by omega)
    rw [htake, hdrop, show 8 - (racha.1 + (8 - (racha.1 + racha.2))) = racha.2 by omega] at hfinish
    rw [parseSegmentos_entreColon hys (by omega) (by omega), hfinish, recupera]

/-- The parser reads a text of eight segments. -/
theorem parseFormas_entera {segs : List UInt16} (hlen : segs.length = 8) :
    parseFormas (entreColon segs) true = some ([], segs, some 128) := by
  have hne : segs ≠ [] := fun h ↦ by
    rw [h, List.length_nil] at hlen
    omega
  have hforma : parseFormas (entreColon segs) true =
      parseSegmentos true 0 8 none [] (entreColon segs) := by
    match segs, hlen with
    | x :: y :: ys, _ =>
        rw [entreColon, parseFormas_parte not_mem_entreColon]
        simp
  rw [hforma, parseSegmentos_entreColon hne (by rw [hlen]; simp) (Or.inr (by rw [hlen]; simp)),
    List.nil_append, finish, if_neg (by omega), memoria, hlen]
  simp

/-! ## IPv4 addresses -/

/-- The digits of a decimal text are read into the current part. -/
theorem atonDesde_cifras {pbits : Bool} {dots part ip : Nat} {ds rest : CStr}
    (hds : ∀ c ∈ ds, isDigit c = true)
    (hpart : ds.foldl (fun part c ↦ part * 10 + cifra c) part ≤ 255) :
    atonDesde pbits dots part ip (ds ++ rest) =
      atonDesde pbits dots (ds.foldl (fun part c ↦ part * 10 + cifra c) part) ip rest := by
  have hgrow : ∀ (cs : CStr) (n : Nat), n ≤ cs.foldl (fun part c ↦ part * 10 + cifra c) n := by
    intro cs
    induction cs with
    | nil => exact fun n ↦ Nat.le_refl n
    | cons c cs ih =>
        intro n
        have hn := ih (n * 10 + cifra c)
        rw [List.foldl_cons]
        omega
  induction ds generalizing part with
  | nil => rfl
  | cons c cs ih =>
      have hc := hds c (by simp)
      have hdot : c ≠ '.' := fun h ↦ by simp [h, isDigit] at hc
      have hslash : c ≠ '/' := fun h ↦ by simp [h, isDigit] at hc
      rw [List.foldl_cons] at hpart ⊢
      have hle := hgrow cs (part * 10 + cifra c)
      rw [List.cons_append, atonDesde, if_neg (by simp [hc]), if_neg (by omega),
        ih (fun d hd ↦ hds d (by simp [hd])) hpart]
      all_goals assumption

theorem isDigit_eq (c : Char) : isDigit c = c.isDigit := by
  simp only [isDigit, Char.isDigit, Char.le_def, ge_iff_le, Bool.decide_and]

/-- The text of a byte is digits, and they are read as the byte. -/
theorem ipQuadTab_spec (b : Nat) : (∀ c ∈ IpQuadTab b, isDigit c = true) ∧ IpQuadTab b ≠ [] ∧
    (IpQuadTab b).foldl (fun part c ↦ part * 10 + cifra c) 0 = b := by
  refine ⟨fun c hc ↦ ?_, decimal_ne_nil b, ?_⟩
  · rw [isDigit_eq]
    exact isDigit_of_mem_decimal hc
  · have hread : Nat.ofDigitChars 10 (IpQuadTab b) 0 = b := Nat.ofDigitChars_ten_toDigits
    rw [Nat.ofDigitChars_eq_foldl] at hread
    have hstep : (fun part c ↦ part * 10 + cifra c) =
        fun (part : Nat) (c : Char) ↦ 10 * part + (c.toNat - '0'.toNat) := by
      funext part c
      rw [Nat.mul_comm, cifra]
    rw [hstep, hread]

/-- One byte of an address and the dot behind it. -/
theorem atonDesde_octeto {pbits : Bool} {dots ip b b' : Nat} {rest : CStr} (hb : b < 256) :
    atonDesde pbits dots 0 ip (IpQuadTab b ++ '.' :: (IpQuadTab b' ++ rest)) =
      atonDesde pbits (dots + 1) 0 (ip ||| b <<< desplazamiento dots) (IpQuadTab b' ++ rest) := by
  obtain ⟨hds, -, hval⟩ := ipQuadTab_spec b
  obtain ⟨hds', hne, -⟩ := ipQuadTab_spec b'
  obtain ⟨c, cs, hcs⟩ := List.exists_cons_of_ne_nil hne
  have hc : isDigit c = true := hds' c (by simp [hcs])
  have hdot : c ≠ '.' := fun h ↦ by simp [h, isDigit] at hc
  have hstar : c ≠ '*' := fun h ↦ by simp [h, isDigit] at hc
  rw [atonDesde_cifras hds (by omega), hval, hcs, List.cons_append, atonDesde,
    if_neg (by simpa [lee] using hdot), if_neg (by simpa [lee] using hstar)]

/-- The last byte of an address. -/
theorem atonDesde_fin {ip b : Nat} (hb : b < 256) :
    atonDesde true 3 0 ip (IpQuadTab b) = some ([], ip ||| b, some 32) := by
  obtain ⟨hds, -, hval⟩ := ipQuadTab_spec b
  have hread := @atonDesde_cifras true 3 0 ip (IpQuadTab b) [] hds (by omega)
  rw [List.append_nil, hval] at hread
  rw [hread, atonDesde, if_neg (by omega), if_pos rfl]
  rfl

/-- The four bytes in their places. -/
theorem octetos_or {b₀ b₁ b₂ b₃ : Nat} (h₁ : b₁ < 256) (h₂ : b₂ < 256) (h₃ : b₃ < 256) :
    b₀ <<< 24 ||| b₁ <<< 16 ||| b₂ <<< 8 ||| b₃ =
      ((b₀ * 256 + b₁) * 256 + b₂) * 256 + b₃ := by
  have hjoin : ∀ m b, b < 256 → m <<< 8 ||| b = m * 256 + b := fun m b hb ↦ by
    rw [← Nat.shiftLeft_add_eq_or_of_lt (by omega), Nat.shiftLeft_eq]
  have hfirst : b₀ <<< 24 ||| b₁ <<< 16 = (b₀ * 256 + b₁) <<< 16 := by
    rw [← hjoin _ _ h₁, Nat.shiftLeft_or_distrib, ← Nat.shiftLeft_add]
  have hsecond : (b₀ * 256 + b₁) <<< 16 ||| b₂ <<< 8 = ((b₀ * 256 + b₁) * 256 + b₂) <<< 8 := by
    rw [← hjoin _ _ h₂, Nat.shiftLeft_or_distrib, ← Nat.shiftLeft_add]
  rw [hfirst, hsecond, hjoin _ _ h₃]

/-- The text of the four bytes. -/
theorem intercalate_octetos (x y : UInt16) :
    ".".toList.intercalate ((octetos x ++ octetos y).map IpQuadTab) =
      IpQuadTab (x.toNat % 256) ++ '.' :: (IpQuadTab (x.toNat / 256) ++
        '.' :: (IpQuadTab (y.toNat % 256) ++ '.' :: (IpQuadTab (y.toNat / 256) ++ []))) := by
  simp [octetos, List.intercalate, List.intersperse]

/-- The text of the four bytes has dots and no colon. -/
theorem separadores_octetos (x y : UInt16) :
    ':' ∉ ".".toList.intercalate ((octetos x ++ octetos y).map IpQuadTab) ∧
      '.' ∈ ".".toList.intercalate ((octetos x ++ octetos y).map IpQuadTab) := by
  have hdigit : ∀ b, ':' ∉ IpQuadTab b := fun b hmem ↦
    absurd ((ipQuadTab_spec b).1 ':' hmem) (by decide)
  rw [intercalate_octetos]
  constructor
  · simp only [List.mem_append, List.mem_cons, List.not_mem_nil, not_or]
    exact ⟨hdigit _, by decide, hdigit _, by decide, hdigit _, by decide, hdigit _, not_false⟩
  · simp

/-- The four numbers of an IPv4 address are read as its host. -/
theorem ircdAtonIp4_octetos (x y : UInt16) :
    ircdAtonIp4 true (".".toList.intercalate ((octetos x ++ octetos y).map IpQuadTab)) =
      some ([], host x y, some 32) := by
  have hx := x.toNat_lt
  have hy := y.toNat_lt
  obtain ⟨hds, hne, -⟩ := ipQuadTab_spec (x.toNat % 256)
  obtain ⟨c, cs, hcs⟩ := List.exists_cons_of_ne_nil hne
  have hdot : c ≠ '.' := fun h ↦ by simpa [h, hcs, isDigit] using hds c
  have hhost : host x y = (0 ||| (x.toNat % 256) <<< desplazamiento 0 |||
      (x.toNat / 256) <<< desplazamiento 1 ||| (y.toNat % 256) <<< desplazamiento 2) |||
      y.toNat / 256 := by
    have h₀ : desplazamiento 0 = 24 := by decide
    have h₁ : desplazamiento 1 = 16 := by decide
    have h₂ : desplazamiento 2 = 8 := by decide
    rw [h₀, h₁, h₂, Nat.zero_or, octetos_or (by omega) (by omega) (by omega), host_eq, toNat_htons,
      toNat_htons]
    omega
  have hhead : lee (IpQuadTab (x.toNat % 256) ++ '.' :: (IpQuadTab (x.toNat / 256) ++
      '.' :: (IpQuadTab (y.toNat % 256) ++ '.' :: (IpQuadTab (y.toNat / 256) ++ [])))) ≠ '.' := by
    simpa [hcs, lee] using hdot
  rw [intercalate_octetos, ircdAtonIp4, if_neg hhead, atonDesde_octeto (by omega),
    atonDesde_octeto (by omega), atonDesde_octeto (by omega), List.append_nil,
    atonDesde_fin (by omega), hhost]

/-! ## The round trip -/

/-- The IPv4-mapped form of an IPv4 address, and any other address as it is. -/
def normal (a : IrcInAddr) : IrcInAddr :=
  if isIpv4 a then deHost (segmento a 6) (segmento a 7) else a

/-- The printed form is parsed to its end, as the address with all of its bits. -/
def IdaVueltaTexto (a : IrcInAddr) : Prop :=
  ipmaskParse (ircdNtoa a) true = some ((ircdNtoa a).length, normal a, some 128)

/-- The printed form of an IPv4 address is read back. -/
theorem idaVueltaTexto_ipv4 {a : IrcInAddr} (hv4 : isIpv4 a = true) : IdaVueltaTexto a := by
  have hread := ircdAtonIp4_octetos (segmento a 6) (segmento a 7)
  have htext : ircdNtoa a = ".".toList.intercalate
      ((octetos (segmento a 6) ++ octetos (segmento a 7)).map IpQuadTab) := by
    rw [ircdNtoa, if_pos hv4]
  obtain ⟨hcolon, hdot⟩ := separadores_octetos (segmento a 6) (segmento a 7)
  rw [← htext] at hread hcolon hdot
  have hnocolon := List.idxOf_eq_length hcolon
  have hforma : parseFormas (ircdNtoa a) true =
      some ([], [0, 0, 0, 0, 0, htons 65535, segmento a 6, segmento a 7], some 128) := by
    have hhead : ∀ cs, ircdNtoa a ≠ ':' :: cs := fun cs h ↦ hcolon (by simp [h])
    rw [parseFormas, if_neg (by omega), if_pos (Or.inl (by simpa using hdot)), hread]
    · simp only [Option.map_some, segmentosIp4, toUInt16_host_shiftRight, toUInt16_host_and,
        htons_htons, List.cons_append, List.nil_append]
    · exact fun cs ↦ hhead (':' :: cs)
    · exact hhead
  rw [IdaVueltaTexto, ipmaskParse, hforma, normal, if_pos hv4]
  rfl

/-- What the printed form of an IPv6 address stands for. -/
theorem parseFormas_ircdNtoa {a : IrcInAddr} (hv4 : isIpv4 a = false) :
    parseFormas (ircdNtoa a) true =
      some ([], recupera (segmentos a) (rachaSiete (ceros (segmentos a))), some 128) := by
  have hlen := length_segmentos a
  obtain ⟨hstart, hend, -⟩ := rachaSiete_spec ((length_ceros _).trans hlen)
  have htext : ircdNtoa a = imprimeSegmentos (rachaSiete (ceros (segmentos a))).1
      (rachaSiete (ceros (segmentos a))).2 0 0 (segmentos a) := by
    rw [ircdNtoa, hv4, ceros, List.map_drop]
    rfl
  generalize segmentos a = segs at *
  generalize rachaSiete (ceros segs) = racha at *
  rw [htext]
  by_cases hpos : 0 < racha.2
  · rw [imprimeSegmentos_eq (Nat.zero_le _) hpos hend (by omega), Nat.sub_zero,
      parseFormas_marca hlen hstart hpos hend]
  · have hzero : racha.2 = 0 := by omega
    rw [imprimeSegmentos_detras (Or.inl hzero) (by omega), parseFormas_entera hlen, recupera, hzero]
    simp

/-- The printed form is read back exactly when the address is an IPv4 address, or has no runs of
zeros behind its first segment that are added up. -/
theorem idaVueltaTexto_iff (a : IrcInAddr) : IdaVueltaTexto a ↔
    isIpv4 a = true ∨ Sencilla (rachas ((ceros (segmentos a)).drop 1)) := by
  cases hv4 : isIpv4 a with
  | true => simpa using idaVueltaTexto_ipv4 hv4
  | false =>
      have hlen := length_segmentos a
      obtain ⟨-, hend, hiff⟩ :=
        rachaSiete_spec ((length_ceros _).trans hlen)
      rw [← hlen] at hend
      rw [← hiff, ← recupera_eq_iff hend, IdaVueltaTexto, ipmaskParse, parseFormas_ircdNtoa hv4,
        normal, hv4]
      simp only [Option.map_some, Option.some.injEq, Prod.mk.injEq, List.length_nil, Nat.sub_zero,
        true_and, and_true, Bool.false_eq_true, if_false, false_or]
      constructor
      · intro heq
        conv => rhs; rw [← heq]
        rw [segmentos_conSegmentos (by rw [length_recupera hend, hlen])]
      · intro heq
        rw [heq, conSegmentos_segmentos]

/-- The segment between two runs of one zero is lost. -/
theorem idaVueltaTexto_rachas_sumadas :
    ¬IdaVueltaTexto ⟨#v[256, 0, 256, 0, 256, 0, 256, 256]⟩ := by
  unfold IdaVueltaTexto
  decide +kernel

end Ircd.Addr
