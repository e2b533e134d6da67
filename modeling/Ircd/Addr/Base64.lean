import Ircd.Addr.Runs
import Ircd.Numnicks

/-!
# Addresses in base 64

`iptobase64` and `base64toip` of `ircd/numnicks.c`. An IPv4 address is written as six digits. Of
another address each segment is written as three digits, and the longest run of zero segments as an
underscore. The main result, `idaVuelta_iff`, tells which addresses are read back.
-/

namespace Ircd.Addr

open CString IPcheck

/-! ## Encoding -/

/-- The digits of a segment. -/
def trio (x : UInt16) : CStr :=
  inttobase64 (htons x).toNat 3

/-- The host of an IPv4 address that is in two segments. -/
def host (x y : UInt16) : Nat :=
  (htons x).toNat <<< 16 ||| (htons y).toNat

/-- The leading segments that are not zero, and the segments from the first zero one on. The loop
reads `in6_16[8]` when there is none. -/
def imprimeDelante : List UInt16 → Option (CStr × List UInt16)
  | [] => none
  | x :: xs =>
      if x ≠ 0 then (imprimeDelante xs).map fun r ↦ (trio x ++ r.1, r.2)
      else some ([], x :: xs)

/-- The rest of the address from segment `ii` on; `salta` segments of the run are left to skip. -/
def imprime (maxStart maxZeros : Nat) : Nat → Nat → List UInt16 → CStr
  | _, _, [] => []
  | ii, salta + 1, _ :: xs => imprime maxStart maxZeros (ii + 1) salta xs
  | ii, 0, x :: xs =>
      if ii = maxStart ∧ maxZeros ≠ 0 then
        '_' :: imprime maxStart maxZeros (ii + 1) (maxZeros - 1) xs
      else trio x ++ imprime maxStart maxZeros (ii + 1) 0 xs

/-- `iptobase64`; `none` when it reads behind the eight segments. -/
def iptobase64 (addr : IrcInAddr) (v6Ok : Bool) : Option CStr :=
  if isIpv4 addr then some (inttobase64 (host (segmento addr 6) (segmento addr 7)) 6)
  else if !v6Ok then
    if segmento addr 0 = htons 0x2002 then
      some (inttobase64 (host (segmento addr 1) (segmento addr 2)) 6)
    else some "AAAAAA".toList
  else
    match imprimeDelante (segmentos addr) with
    | none => none
    | some (output, resto) =>
        let cero := 8 - resto.length
        let racha := buscaRacha cero cero 0 0 (ceros resto)
        some (output ++ imprime racha.1 racha.2 cero 0 resto)

/-! ## Decoding -/

/-- One more digit of a segment. -/
def empuja (accum : UInt16) (c : Char) : UInt16 :=
  accum <<< 6 ||| (convert2n c).toUInt16

/-- `strlen` of what a pointer reads. -/
def strlen (input : List Char) : Nat :=
  (input.takeWhile (· ≠ nul)).length

/-- `(25 - strlen (input)) / 3 - pos` in a `size_t`, kept in an `unsigned int`. -/
def left (n pos : Nat) : Nat :=
  ((2 ^ 64 + 25 - n) % 2 ^ 64 / 3 + 2 ^ 64 - pos) % 2 ^ 32

/-- The loop of `base64toip`: the memory at `input` up to the terminator and the segments that have
been written. `none` when it reads behind the terminator or writes behind the address. -/
def base64toipDesde : List Char → List UInt16 → Option (List UInt16)
  | '_' :: input, segs =>
      let segs' := segs ++ List.replicate (left (strlen ('_' :: input)) segs.length) 0
      if segs'.length < 8 then base64toipDesde input segs'
      else if segs'.length = 8 then some segs' else none
  | c₁ :: c₂ :: c₃ :: input, segs =>
      let segs' := segs ++ [htons (empuja (empuja (convert2n c₁).toUInt16 c₂) c₃)]
      if segs'.length < 8 then base64toipDesde input segs' else some segs'
  | _, _ => none

/-- The address with the given segments. -/
def conSegmentos (segs : List UInt16) : IrcInAddr :=
  ⟨Vector.ofFn fun i ↦ segs.getD i 0⟩

/-- `base64toip`. -/
def base64toip (input : CStr) : Option IrcInAddr :=
  if input.length = 6 then
    let addr := base64toint input
    if addr ≠ 0 then
      some ⟨#v[0, 0, 0, 0, 0, htons 65535, htons (addr >>> 16).toUInt16,
        htons (addr &&& 65535).toUInt16]⟩
    else some ⟨#v[0, 0, 0, 0, 0, 0, 0, 0]⟩
  else (base64toipDesde (input ++ [nul]) []).map conSegmentos

example : iptobase64 ⟨#v[htons 0x2001, 0, 0, 0, 0, 0, 0, htons 1]⟩ true = some "CAB_AAB".toList := by
  decide

/-! ## Segments and their digits -/

theorem toNat_htons (x : UInt16) : (htons x).toNat = x.toNat % 256 * 256 + x.toNat / 256 := by
  have hshift : (x <<< 8).toNat = (x.toNat % 256) <<< 8 := by
    simp only [UInt16.toNat_shiftLeft, UInt16.reduceToNat, Nat.reduceMod, Nat.shiftLeft_eq]
    omega
  have hx := x.toNat_lt
  have hlow : (x >>> 8).toNat = x.toNat / 256 := by
    simp [UInt16.toNat_shiftRight, Nat.shiftRight_eq_div_pow]
  rw [htons, UInt16.toNat_or, hshift, hlow, ← Nat.shiftLeft_add_eq_or_of_lt (by omega),
    Nat.shiftLeft_eq]

/-- The order of the network is its own inverse. -/
theorem htons_htons (x : UInt16) : htons (htons x) = x := by
  apply UInt16.toNat_inj.mp
  have hx := x.toNat_lt
  rw [toNat_htons, toNat_htons]
  omega

theorem convert2n_lt (c : Char) : convert2n c < 64 := by
  unfold convert2n
  split <;> omega

theorem toNat_empuja (accum : UInt16) (c : Char) :
    (empuja accum c).toNat = (accum.toNat * 64 + convert2n c) % 2 ^ 16 := by
  have hc := convert2n_lt c
  have hshift : (accum <<< 6).toNat = (accum.toNat % 1024) <<< 6 := by
    simp only [UInt16.toNat_shiftLeft, UInt16.reduceToNat, Nat.reduceMod, Nat.shiftLeft_eq]
    omega
  have hdigit : (convert2n c).toUInt16.toNat = convert2n c := by
    rw [Nat.toUInt16_eq, UInt16.toNat_ofNat']
    omega
  rw [empuja, UInt16.toNat_or, hshift, hdigit, ← Nat.shiftLeft_add_eq_or_of_lt (by omega),
    Nat.shiftLeft_eq]
  omega

/-- No digit is the mark of a run or a terminator. -/
theorem ne_of_mem_numnickDigits (c : Char) (hc : c ∈ numnickDigits) : c ≠ '_' ∧ c ≠ nul := by
  have hmark : '_' ∉ numnickDigits := by decide
  have hnul : nul ∉ numnickDigits := by decide
  exact ⟨fun h ↦ hmark (h ▸ hc), fun h ↦ hnul (h ▸ hc)⟩

/-- The digits of a segment are read back. -/
theorem trio_eq (x : UInt16) : ∃ c₁ c₂ c₃, trio x = [c₁, c₂, c₃] ∧ c₁ ≠ '_' ∧
    htons (empuja (empuja (convert2n c₁).toUInt16 c₂) c₃) = x := by
  have hx := (htons x).toNat_lt
  refine ⟨_, _, _, rfl, (ne_of_mem_numnickDigits _ (convert2y_mem _)).1, ?_⟩
  have hread : ∀ n, convert2n (convert2y (n % 64)) = n % 64 :=
    fun n ↦ convert2n_convert2y (Nat.mod_lt n (by omega))
  have hnat : empuja (empuja (convert2n (convert2y ((htons x).toNat / 64 / 64 % 64))).toUInt16
      (convert2y ((htons x).toNat / 64 % 64))) (convert2y ((htons x).toNat % 64)) = htons x := by
    apply UInt16.toNat_inj.mp
    rw [toNat_empuja, toNat_empuja, hread, hread, hread, Nat.toUInt16_eq, UInt16.toNat_ofNat']
    omega
  rw [hnat, htons_htons]

/-- The text of some segments. -/
def texto (xs : List UInt16) : CStr :=
  xs.flatMap trio

theorem length_texto (xs : List UInt16) : (texto xs).length = 3 * xs.length := by
  induction xs with
  | nil => rfl
  | cons x xs ih =>
      have hx : (trio x).length = 3 := length_inttobase64 _ 3
      rw [texto, List.flatMap_cons, List.length_append, hx, ← texto, ih, List.length_cons]
      omega

theorem not_mem_texto {xs : List UInt16} {c : Char} (h : c ∈ texto xs) : c ≠ nul := by
  obtain ⟨x, -, hc⟩ := List.mem_flatMap.mp h
  exact (ne_of_mem_numnickDigits c (mem_inttobase64 hc)).2

/-- The decoder reads one segment. -/
theorem base64toipDesde_trio (x : UInt16) (input : List Char) (segs : List UInt16) :
    base64toipDesde (trio x ++ input) segs =
      if segs.length + 1 < 8 then base64toipDesde input (segs ++ [x]) else some (segs ++ [x]) := by
  obtain ⟨c₁, c₂, c₃, htrio, hmark, hread⟩ := trio_eq x
  rw [htrio, List.cons_append, List.cons_append, List.cons_append, List.nil_append,
    base64toipDesde]
  · simp only [hread, List.length_append, List.length_singleton]
  · exact hmark

/-- The decoder reads some segments that leave room for others. -/
theorem base64toipDesde_texto {xs segs : List UInt16} (input : List Char)
    (h : segs.length + xs.length < 8) :
    base64toipDesde (texto xs ++ input) segs = base64toipDesde input (segs ++ xs) := by
  induction xs generalizing segs with
  | nil => simp [texto]
  | cons x xs ih =>
      rw [List.length_cons] at h
      rw [texto, List.flatMap_cons, List.append_assoc, base64toipDesde_trio, if_pos (by omega),
        ← texto, ih (by rw [List.length_append, List.length_singleton]; omega), List.append_assoc,
        List.singleton_append]

/-- The decoder reads the last segments. -/
theorem base64toipDesde_fin {xs segs : List UInt16} (input : List Char) (hxs : xs ≠ [])
    (h : segs.length + xs.length = 8) :
    base64toipDesde (texto xs ++ input) segs = some (segs ++ xs) := by
  obtain ⟨ys, y, rfl⟩ := List.eq_nil_or_concat xs |>.resolve_left hxs
  rw [List.concat_eq_append, List.length_append, List.length_singleton] at h
  have hfin : texto (ys ++ [y]) = texto ys ++ trio y := by simp [texto]
  rw [List.concat_eq_append, hfin, List.append_assoc, base64toipDesde_texto _ (by omega),
    base64toipDesde_trio, if_neg (by rw [List.length_append]; omega), List.append_assoc]

/-- The decoder restores the run in the place of the mark. -/
theorem base64toipDesde_marca {xs ys : List UInt16} {n : Nat} (hn : 0 < n)
    (h : xs.length + n + ys.length = 8) :
    base64toipDesde (texto xs ++ '_' :: texto ys ++ [nul]) [] =
      some (xs ++ List.replicate n 0 ++ ys) := by
  have hstrlen : strlen ('_' :: (texto ys ++ [nul])) = 3 * ys.length + 1 := by
    have hscan : ∀ c ∈ '_' :: texto ys, decide (c ≠ nul) = true := by
      intro c hc
      rcases List.mem_cons.mp hc with rfl | hc
      · decide
      · exact decide_eq_true (not_mem_texto hc)
    have htake := takeWhile_stop [] hscan (c := nul) (by decide)
    rw [List.cons_append] at htake
    rw [strlen, htake, List.length_cons, length_texto]
  have hleft : left (3 * ys.length + 1) xs.length = n := by
    have hrest : (2 ^ 64 + 25 - (3 * ys.length + 1)) % 2 ^ 64 = 3 * (8 - ys.length) := by omega
    have hthird : 3 * (8 - ys.length) / 3 = 8 - ys.length := by omega
    rw [left, hrest, hthird]
    omega
  have hroom : ([] : List UInt16).length + xs.length < 8 := by
    rw [List.length_nil]
    omega
  rw [List.append_assoc, List.cons_append, base64toipDesde_texto _ hroom, List.nil_append,
    base64toipDesde]
  simp only [hstrlen, hleft, List.length_append, List.length_replicate]
  by_cases hys : ys = []
  · subst hys
    simp only [List.length_nil] at h
    rw [if_neg (by omega), if_pos (by omega), List.append_nil]
  · have hpos := List.length_pos_iff.mpr hys
    rw [if_pos (by omega), base64toipDesde_fin _ hys
      (by rw [List.length_append, List.length_replicate]; omega)]

/-! ## The text of an address -/

/-- Behind the start of the run every segment is printed. -/
theorem imprime_detras {maxStart maxZeros ii : Nat} (h : maxStart < ii) (xs : List UInt16) :
    imprime maxStart maxZeros ii 0 xs = texto xs := by
  induction xs generalizing ii with
  | nil => rfl
  | cons x xs ih =>
      rw [imprime, if_neg (by omega), ih (by omega)]
      rfl

/-- The segments of the run are skipped. -/
theorem imprime_salta {maxStart maxZeros ii salta : Nat} {xs : List UInt16}
    (h : salta ≤ xs.length) : imprime maxStart maxZeros ii salta xs =
      imprime maxStart maxZeros (ii + salta) 0 (xs.drop salta) := by
  induction salta generalizing ii xs with
  | zero => rfl
  | succ salta ih =>
      cases xs with
      | nil => simp at h
      | cons x xs =>
          rw [List.length_cons] at h
          rw [imprime, ih (by omega), List.drop_succ_cons]
          congr 1
          omega

/-- The text has the segments before the run, the mark and the segments behind the run. -/
theorem imprime_eq {maxStart maxZeros ii : Nat} {xs : List UInt16} (hii : ii ≤ maxStart)
    (hpos : 0 < maxZeros) (hlen : maxStart + maxZeros ≤ ii + xs.length) :
    imprime maxStart maxZeros ii 0 xs =
      texto (xs.take (maxStart - ii)) ++ '_' :: texto (xs.drop (maxStart - ii + maxZeros)) := by
  induction xs generalizing ii with
  | nil =>
      rw [List.length_nil] at hlen
      omega
  | cons x xs ih =>
      rw [List.length_cons] at hlen
      by_cases heq : ii = maxStart
      · have hdrop : (x :: xs).drop (maxStart - ii + maxZeros) = xs.drop (maxZeros - 1) := by
          rw [show maxStart - ii + maxZeros = maxZeros - 1 + 1 by omega, List.drop_succ_cons]
        rw [imprime, if_pos ⟨heq, by omega⟩, imprime_salta (by omega), imprime_detras (by omega),
          hdrop, show maxStart - ii = 0 by omega]
        rfl
      · have htake : maxStart - ii = maxStart - (ii + 1) + 1 := by omega
        have hdrop : maxStart - ii + maxZeros = maxStart - (ii + 1) + maxZeros + 1 := by omega
        rw [imprime, if_neg (by omega), ih (by omega) (by omega), hdrop, htake, List.drop_succ_cons,
          List.take_succ_cons, texto, texto, texto, List.flatMap_cons, List.append_assoc]

/-- The leading loop stops at the first zero segment, if there is one. -/
theorem imprimeDelante_eq (segs : List UInt16) : imprimeDelante segs =
    if 0 ∈ segs then some (texto (segs.takeWhile (· ≠ 0)), segs.dropWhile (· ≠ 0)) else none := by
  induction segs with
  | nil => rfl
  | cons x xs ih =>
      by_cases hx : x = 0
      · simp [imprimeDelante, hx, texto]
      · have hne : ¬(0 = x) := fun h ↦ hx h.symm
        rw [imprimeDelante, if_pos hx, ih]
        by_cases hmem : 0 ∈ xs
        · simp [hmem, hx, texto]
        · simp [hmem, hne]

theorem delante_ceros (segs : List UInt16) :
    delante (ceros segs) = (segs.takeWhile (· ≠ 0)).length := by
  induction segs with
  | nil => rfl
  | cons x xs ih =>
      by_cases hx : x = 0
      · simp [delante, ceros, hx]
      · simpa [delante, ceros, hx] using ih

theorem length_segmentos (a : IrcInAddr) : (segmentos a).length = 8 := by
  simp [segmentos]

/-- The segments that a text with a mark stands for. -/
def recupera (segs : List UInt16) (racha : Nat × Nat) : List UInt16 :=
  segs.take racha.1 ++ List.replicate racha.2 0 ++ segs.drop (racha.1 + racha.2)

/-- The text of an address that is not an IPv4 one. -/
theorem iptobase64_eq {a : IrcInAddr} (hv4 : isIpv4 a = false) (hcero : 0 ∈ segmentos a) :
    iptobase64 a true = some (texto ((segmentos a).take (rachaOcho (ceros (segmentos a))).1) ++
      '_' :: texto ((segmentos a).drop ((rachaOcho (ceros (segmentos a))).1 +
        (rachaOcho (ceros (segmentos a))).2))) := by
  have hlen := length_segmentos a
  generalize hsegs : segmentos a = segs at *
  have hceros : true ∈ ceros segs := List.mem_map.mpr ⟨0, hcero, rfl⟩
  obtain ⟨hpos, hstart, hend, -⟩ := rachaOcho_spec ((length_ceros segs).trans hlen) hceros
  have hsplit : segs.takeWhile (· ≠ 0) ++ segs.dropWhile (· ≠ 0) = segs :=
    List.takeWhile_append_dropWhile
  have hsum : (segs.takeWhile (· ≠ 0)).length + (segs.dropWhile (· ≠ 0)).length = 8 := by
    rw [← List.length_append, hsplit, hlen]
  have hii : 8 - (segs.dropWhile (· ≠ 0)).length = delante (ceros segs) := by
    rw [delante_ceros]
    omega
  have hdrop : segs.dropWhile (· ≠ 0) = segs.drop (delante (ceros segs)) := by
    rw [delante_ceros]
    conv => rhs; arg 2; rw [← hsplit]
    rw [List.drop_left]
  have hresto : ceros (segs.dropWhile (· ≠ 0)) = (ceros segs).drop (delante (ceros segs)) := by
    rw [hdrop, ceros, ceros, List.map_drop]
  have htake : segs.takeWhile (· ≠ 0) = segs.take (delante (ceros segs)) := by
    rw [delante_ceros]
    conv => rhs; arg 2; rw [← hsplit]
    rw [List.take_left]
  unfold iptobase64
  rw [hv4, hsegs, imprimeDelante_eq, if_pos hcero]
  simp only [Bool.false_eq_true, if_false, Bool.not_true, hii, hresto]
  show some (texto (segs.takeWhile (· ≠ 0)) ++ imprime (rachaOcho (ceros segs)).1
    (rachaOcho (ceros segs)).2 (delante (ceros segs)) 0 (segs.dropWhile (· ≠ 0))) = _
  rw [hdrop, List.length_drop] at hsum
  rw [hdrop, imprime_eq hstart hpos (by rw [List.length_drop]; omega), htake, ← List.append_assoc]
  have hbefore : segs.take (rachaOcho (ceros segs)).1 = segs.take (delante (ceros segs)) ++
      (segs.drop (delante (ceros segs))).take
        ((rachaOcho (ceros segs)).1 - delante (ceros segs)) := by
    rw [← List.take_add, Nat.add_sub_cancel' hstart]
  rw [hbefore, List.drop_drop, ← Nat.add_assoc, Nat.add_sub_cancel' hstart]
  simp only [texto, List.flatMap_append]

/-! ## The round trip -/

theorem conSegmentos_segmentos (a : IrcInAddr) : conSegmentos (segmentos a) = a := by
  cases a with
  | mk v =>
      simp only [conSegmentos, segmentos, IrcInAddr.mk.injEq]
      ext i hi
      simp

theorem segmentos_conSegmentos {segs : List UInt16} (h : segs.length = 8) :
    segmentos (conSegmentos segs) = segs := by
  apply List.ext_getElem
  · rw [length_segmentos, h]
  · intro i hi hi'
    simp [conSegmentos, segmentos, hi']

/-- The segments of the run are replaced by zeros. -/
theorem length_recupera {segs : List UInt16} {racha : Nat × Nat}
    (h : racha.1 + racha.2 ≤ segs.length) : (recupera segs racha).length = segs.length := by
  simp only [recupera, List.length_append, List.length_take, List.length_replicate,
    List.length_drop]
  omega

/-- Nothing is lost exactly when the run has zeros only. -/
theorem recupera_eq_iff {segs : List UInt16} {racha : Nat × Nat}
    (h : racha.1 + racha.2 ≤ segs.length) :
    recupera segs racha = segs ↔ EsRacha (ceros segs) racha := by
  have hsplit : segs.take racha.1 ++ (segs.drop racha.1).take racha.2 ++
      segs.drop (racha.1 + racha.2) = segs := by
    rw [← List.take_add, List.take_append_drop]
  have hlen : (List.replicate racha.2 (0 : UInt16)).length =
      ((segs.drop racha.1).take racha.2).length := by
    rw [List.length_replicate, List.length_take, List.length_drop]
    omega
  have hrun : recupera segs racha = segs ↔
      List.replicate racha.2 0 = (segs.drop racha.1).take racha.2 := by
    constructor
    · intro heq
      rw [recupera] at heq
      conv at heq => rhs; rw [← hsplit]
      exact (List.append_inj (List.append_cancel_right heq) rfl).2
    · intro heq
      rw [recupera, heq, hsplit]
  rw [hrun, EsRacha, ceros, ← List.map_drop, ← List.map_take, eq_comm, List.eq_replicate_iff,
    List.eq_replicate_iff, List.length_map]
  simp only [List.mem_map, forall_exists_index, and_imp, forall_apply_eq_imp_iff₂,
    decide_eq_true_eq]

/-- The IPv4-mapped address of a host in two segments. -/
def deHost (x y : UInt16) : IrcInAddr :=
  ⟨#v[0, 0, 0, 0, 0, htons 65535, x, y]⟩

/-- The IPv4-mapped form of an IPv4 address; the host 0 has the address of zeros. -/
def mapeada (a : IrcInAddr) : IrcInAddr :=
  if segmento a 6 = 0 ∧ segmento a 7 = 0 then ⟨#v[0, 0, 0, 0, 0, 0, 0, 0]⟩
  else deHost (segmento a 6) (segmento a 7)

/-- The codec reads an address back: an IPv4 address in its mapped form, and another one as it is,
from a text that fits in 25 bytes and without a read behind the segments. -/
def IdaVuelta (a : IrcInAddr) : Prop :=
  (isIpv4 a = false → ∃ text, iptobase64 a true = some text ∧ text.length + 1 ≤ 25 ∧
    base64toip text = some a) ∧
  (isIpv4 a = true → ∀ v6Ok, ∃ text, iptobase64 a v6Ok = some text ∧ text.length = 6 ∧
    base64toip text = some (mapeada a))

/-- The host of two segments, as a number. -/
theorem host_eq (x y : UInt16) : host x y = (htons x).toNat * 65536 + (htons y).toNat := by
  rw [host, ← Nat.shiftLeft_add_eq_or_of_lt (htons y).toNat_lt, Nat.shiftLeft_eq]

theorem host_lt (x y : UInt16) : host x y < 2 ^ 32 := by
  have hx := (htons x).toNat_lt
  have hy := (htons y).toNat_lt
  rw [host_eq]
  omega

/-- The two segments are taken out of the host again. -/
theorem toUInt16_host_shiftRight (x y : UInt16) : (host x y >>> 16).toUInt16 = htons x := by
  have hx := (htons x).toNat_lt
  have hy := (htons y).toNat_lt
  apply UInt16.toNat_inj.mp
  rw [Nat.toUInt16_eq, UInt16.toNat_ofNat', Nat.shiftRight_eq_div_pow, host_eq]
  omega

theorem toUInt16_host_and (x y : UInt16) : (host x y &&& 65535).toUInt16 = htons y := by
  have hy := (htons y).toNat_lt
  apply UInt16.toNat_inj.mp
  rw [Nat.toUInt16_eq, UInt16.toNat_ofNat', Nat.and_two_pow_sub_one_eq_mod _ 16, host_eq]
  omega

theorem host_eq_zero {x y : UInt16} : host x y = 0 ↔ x = 0 ∧ y = 0 := by
  rw [host_eq, toNat_htons, toNat_htons, ← UInt16.toNat_inj, ← UInt16.toNat_inj,
    UInt16.toNat_zero]
  omega

/-- The six digits of a host are read back. -/
theorem base64toip_host (x y : UInt16) : base64toip (inttobase64 (host x y) 6) =
    some (if x = 0 ∧ y = 0 then ⟨#v[0, 0, 0, 0, 0, 0, 0, 0]⟩ else deHost x y) := by
  have hlt := host_lt x y
  have hread : base64toint (inttobase64 (host x y) 6) = host x y := by
    rw [base64toint_inttobase64_mod]
    omega
  simp only [base64toip, if_pos (length_inttobase64 _ 6), hread, toUInt16_host_shiftRight,
    toUInt16_host_and, htons_htons]
  by_cases hnull : x = 0 ∧ y = 0
  · simp only [host_eq_zero.mpr hnull, ne_eq, not_true, if_false, if_pos hnull]
  · have hhost : host x y ≠ 0 := fun h ↦ hnull (host_eq_zero.mp h)
    simp only [ne_eq, hhost, not_false_iff, if_true, if_neg hnull, deHost]

/-- The host of an IPv4 address is read back. -/
theorem idaVuelta_ipv4 {a : IrcInAddr} (hv4 : isIpv4 a = true) (v6Ok : Bool) :
    ∃ text, iptobase64 a v6Ok = some text ∧ text.length = 6 ∧
      base64toip text = some (mapeada a) := by
  refine ⟨inttobase64 (host (segmento a 6) (segmento a 7)) 6, ?_, length_inttobase64 _ 6, ?_⟩
  · rw [iptobase64, if_pos hv4]
  · rw [base64toip_host, mapeada, apply_ite some]

/-- An address without a zero segment is read past its end. -/
theorem iptobase64_none {a : IrcInAddr} (hv4 : isIpv4 a = false) (hcero : 0 ∉ segmentos a) :
    iptobase64 a true = none := by
  simp [iptobase64, hv4, imprimeDelante_eq, hcero]

/-- The text of an address with a zero segment fits, and is read back with zeros in the place of
its mark. -/
theorem base64toip_iptobase64 {a : IrcInAddr} (hv4 : isIpv4 a = false) (hcero : 0 ∈ segmentos a) :
    ∃ text, iptobase64 a true = some text ∧ text.length + 1 ≤ 25 ∧ base64toip text =
      some (conSegmentos (recupera (segmentos a) (rachaOcho (ceros (segmentos a))))) := by
  have hlen := length_segmentos a
  have hceros : true ∈ ceros (segmentos a) := List.mem_map.mpr ⟨0, hcero, rfl⟩
  obtain ⟨hpos, -, hend, -⟩ :=
    rachaOcho_spec ((length_ceros _).trans hlen) hceros
  refine ⟨_, iptobase64_eq hv4 hcero, ?_⟩
  generalize segmentos a = segs at *
  generalize rachaOcho (ceros segs) = racha at *
  have hbefore : (segs.take racha.1).length = racha.1 := by
    rw [List.length_take]
    omega
  have hbehind : (segs.drop (racha.1 + racha.2)).length = 8 - (racha.1 + racha.2) := by
    rw [List.length_drop, hlen]
  have htext : (texto (segs.take racha.1) ++ '_' :: texto (segs.drop (racha.1 + racha.2))).length =
      3 * (8 - racha.2) + 1 := by
    rw [List.length_append, List.length_cons, length_texto, length_texto, hbefore, hbehind]
    omega
  refine ⟨by omega, ?_⟩
  rw [base64toip, if_neg (by omega), base64toipDesde_marca hpos (by omega)]
  rfl

/-- The codec reads an address back exactly when it is an IPv4 address, or has a zero segment and no
runs of zeros that are added up. -/
theorem idaVuelta_iff (a : IrcInAddr) : IdaVuelta a ↔
    isIpv4 a = true ∨ (0 ∈ segmentos a ∧ Sencilla (rachas (ceros (segmentos a)))) := by
  cases hv4 : isIpv4 a with
  | true => simpa [IdaVuelta, hv4] using idaVuelta_ipv4 hv4
  | false =>
      simp only [IdaVuelta, hv4, Bool.false_eq_true, false_or, forall_true_left,
        false_implies, and_true]
      by_cases hcero : 0 ∈ segmentos a
      · obtain ⟨text, hsome, hfit, hread⟩ := base64toip_iptobase64 hv4 hcero
        have hlen := length_segmentos a
        have hceros : true ∈ ceros (segmentos a) := List.mem_map.mpr ⟨0, hcero, rfl⟩
        obtain ⟨-, -, hend, hiff⟩ :=
          rachaOcho_spec ((length_ceros _).trans hlen) hceros
        rw [← hlen] at hend
        have hback : base64toip text = some a ↔
            recupera (segmentos a) (rachaOcho (ceros (segmentos a))) = segmentos a := by
          rw [hread, Option.some.injEq]
          constructor
          · intro heq
            conv => rhs; rw [← heq]
            rw [segmentos_conSegmentos (by rw [length_recupera hend, hlen])]
          · intro heq
            rw [heq, conSegmentos_segmentos]
        rw [← hiff, ← recupera_eq_iff hend, ← hback]
        constructor
        · rintro ⟨text', hsome', -, hread'⟩
          rw [hsome, Option.some.injEq] at hsome'
          exact ⟨hcero, hsome' ▸ hread'⟩
        · rintro ⟨-, hread'⟩
          exact ⟨text, hsome, hfit, hread'⟩
      · simp [iptobase64_none hv4 hcero, hcero]

/-- The segment between two runs of one zero is lost. -/
theorem idaVuelta_rachas_sumadas : ¬IdaVuelta ⟨#v[256, 0, 256, 0, 256, 0, 256, 256]⟩ := by
  intro h
  obtain ⟨text, hsome, -, hread⟩ := h.1 (by decide)
  have htext : iptobase64 ⟨#v[256, 0, 256, 0, 256, 0, 256, 256]⟩ true =
      some "AABAAAAABAAA_AABAAB".toList := by decide
  rw [htext, Option.some.injEq] at hsome
  subst hsome
  revert hread
  decide +kernel

end Ircd.Addr
