import Ircd.Addr.Base64
import Ircd.Lib.Words

/-!
# Blocks of addresses

`ipmask_check` of `ircd/match.c` compares the first bits of two addresses word by word, and
`ipmask_range` of `ircd/support.c` clears and sets the other bits of an address one at a time, for
the first and the last address of its block. The main theorem, `ipmaskCheck_iff`, says that both
tell the same: an address has the first bits of another one when it lies in its block.
-/

namespace Ircd.Addr

open IPcheck

/-! ## Addresses as numbers -/

/-- The words of an address, in the order of the machine. -/
def palabras (a : IrcInAddr) : List Nat :=
  (segmentos a).map fun x ↦ (htons x).toNat

/-- The 128 bits of an address as a number. -/
def numero (a : IrcInAddr) : Nat :=
  Words.value 16 (palabras a)

/-- A bit of an address, counted in network order. -/
def bitRed (a : IrcInAddr) (i : Nat) : Bool :=
  (numero a).testBit (127 - i)

theorem fits_words (segs : List UInt16) : Words.Fits 16 (segs.map fun x ↦ (htons x).toNat) := by
  intro x hx
  obtain ⟨y, -, rfl⟩ := List.mem_map.mp hx
  exact (htons y).toNat_lt

theorem length_palabras (a : IrcInAddr) : (palabras a).length = 8 := by
  rw [palabras, List.length_map, segmentos, Vector.length_toList]

/-! ## `ipmask_range` -/

/-- The variables of the inner loop of `ipmask_range`. -/
structure Parte where
  part : Nat
  first : Bool
  partInit : BitVec 16
  partFinal : BitVec 16

/-- A round of the inner loop. -/
def Parte.ronda (jmin j : Nat) (p : Parte) : Parte :=
  let p := { p with part := if p.first then p.part * 2 else p.part, first := true }
  if j < jmin then p
  else
    { p with
      partInit := p.partInit &&& ~~~BitVec.ofNat 16 p.part
      partFinal := p.partFinal ||| BitVec.ofNat 16 p.part }

/-- The first rounds of the inner loop, in which `j` goes down from 15. -/
def rondas (jmin : Nat) (x : BitVec 16) : Nat → Parte
  | 0 => ⟨1, false, x, x⟩
  | n + 1 => (rondas jmin x n).ronda jmin (15 - n)

/-- A segment of the two addresses. -/
def rangoSegmento (bits i : Nat) (x : UInt16) : UInt16 × UInt16 :=
  let div := bits / 16
  if i < div then (x, x)
  else
    let jmin := if i = div then bits - div * 16 else 0
    let p := rondas jmin (htons x).toBitVec 16
    (htons ⟨p.partInit⟩, htons ⟨p.partFinal⟩)

/-- `ipmask_range`. -/
def ipmaskRange (ip : IrcInAddr) (bits : Nat) : IrcInAddr × IrcInAddr :=
  let bits := if isIpv4 ip then bits + 96 else bits
  let rango := (segmentos ip).mapIdx (rangoSegmento bits)
  (conSegmentos (rango.map (·.1)), conSegmentos (rango.map (·.2)))

/-- What the rounds do to a bit. -/
theorem rondas_spec (jmin : Nat) (x : BitVec 16) {n : Nat} (hn : n ≤ 16) :
    (rondas jmin x n).first = decide (0 < n) ∧ (0 < n → (rondas jmin x n).part = 2 ^ (n - 1)) ∧
    (n = 0 → (rondas jmin x n).part = 1) ∧
    ∀ i < 16, (rondas jmin x n).partInit.getLsbD i =
        (x.getLsbD i && !decide (i < n ∧ jmin ≤ 15 - i)) ∧
      (rondas jmin x n).partFinal.getLsbD i =
        (x.getLsbD i || decide (i < n ∧ jmin ≤ 15 - i)) := by
  induction n with
  | zero => simp [rondas]
  | succ n ih =>
      obtain ⟨hfirst, hpart, hpart₀, hbits⟩ := ih (by omega)
      have hnext : (if (rondas jmin x n).first then (rondas jmin x n).part * 2
          else (rondas jmin x n).part) = 2 ^ n := by
        cases n with
        | zero => simp [hfirst, hpart₀ rfl]
        | succ n => simp [hfirst, hpart (Nat.succ_pos n), Nat.pow_succ]
      have hone : ∀ i < 16, (BitVec.ofNat 16 (2 ^ n)).getLsbD i = decide (n = i) := fun i hi ↦ by
        rw [BitVec.getLsbD_ofNat, Nat.testBit_two_pow]
        simp [hi]
      refine ⟨?_, fun _ ↦ ?_, fun h ↦ by omega, fun i hi ↦ ?_⟩
      · simp only [rondas, Parte.ronda]
        split <;> simp
      · simp only [rondas, Parte.ronda, hnext]
        split <;> simp
      · simp only [rondas, Parte.ronda, hnext]
        split
        · next hj =>
            have hsame : (i < n + 1 ∧ jmin ≤ 15 - i) ↔ (i < n ∧ jmin ≤ 15 - i) := by omega
            simp only [hsame]
            exact hbits i hi
        · next hj =>
            have hor : decide (i < n + 1 ∧ jmin ≤ 15 - i) =
                (decide (i < n ∧ jmin ≤ 15 - i) || decide (n = i)) := by
              rw [← Bool.decide_or]
              exact decide_eq_decide.mpr (by omega)
            simp only [BitVec.getLsbD_and, BitVec.getLsbD_not, BitVec.getLsbD_or, hone i hi, hor,
              (hbits i hi).1, (hbits i hi).2, hi, decide_true, Bool.true_and]
            constructor
            · cases x.getLsbD i <;> simp
            · rw [Bool.or_assoc]

/-- The low bits of the word are cleared and set. -/
theorem rondas_toNat {jmin : Nat} (hj : jmin ≤ 16) (x : BitVec 16) :
    (rondas jmin x 16).partInit.toNat = x.toNat / 2 ^ (16 - jmin) * 2 ^ (16 - jmin) ∧
    (rondas jmin x 16).partFinal.toNat =
      x.toNat / 2 ^ (16 - jmin) * 2 ^ (16 - jmin) + (2 ^ (16 - jmin) - 1) := by
  have hbits := (rondas_spec jmin x le_rfl).2.2.2
  have hclear : ∀ i, (x.toNat / 2 ^ (16 - jmin) * 2 ^ (16 - jmin)).testBit i =
      (decide (16 - jmin ≤ i) && x.toNat.testBit i) := fun i ↦ by
    rw [Nat.testBit_mul_two_pow, Nat.testBit_div_two_pow]
    by_cases hi : 16 - jmin ≤ i
    · rw [Nat.sub_add_cancel hi]
    · simp [hi]
  have hhigh : ∀ (y : BitVec 16) {i : Nat}, ¬i < 16 → y.toNat.testBit i = false := fun y i hi ↦
    Nat.testBit_lt_two_pow (y.isLt.trans_le (Nat.pow_le_pow_right (by omega) (by omega)))
  constructor
  · refine Nat.eq_of_testBit_eq fun i ↦ ?_
    rw [hclear]
    by_cases hi : i < 16
    · have h := (hbits i hi).1
      rw [BitVec.getLsbD, BitVec.getLsbD] at h
      rw [h]
      by_cases hlow : 16 - jmin ≤ i
      · simp [hlow, show ¬(i < 16 ∧ jmin ≤ 15 - i) by omega]
      · simp [hlow, show i < 16 ∧ jmin ≤ 15 - i by omega]
    · rw [hhigh _ hi, hhigh _ hi, Bool.and_false]
  · have hlow : 2 ^ (16 - jmin) - 1 < 2 ^ (16 - jmin) := Nat.sub_lt (Nat.two_pow_pos _) Nat.one_pos
    rw [← Nat.shiftLeft_eq, Nat.shiftLeft_add_eq_or_of_lt hlow, Nat.shiftLeft_eq]
    refine Nat.eq_of_testBit_eq fun i ↦ ?_
    rw [Nat.testBit_or, hclear, Nat.testBit_two_pow_sub_one]
    by_cases hi : i < 16
    · have h := (hbits i hi).2
      rw [BitVec.getLsbD, BitVec.getLsbD] at h
      rw [h]
      by_cases hlow : 16 - jmin ≤ i
      · simp [hlow, show ¬(i < 16 ∧ jmin ≤ 15 - i) by omega, show ¬i < 16 - jmin by omega]
      · simp [hlow, show i < 16 ∧ jmin ≤ 15 - i by omega, show i < 16 - jmin by omega]
    · rw [hhigh _ hi, hhigh _ hi]
      simp [show ¬i < 16 - jmin by omega]

/-! ## The block as numbers -/

/-- The segments behind the first one are those of a shorter prefix. -/
theorem rangoSegmento_succ (bits i : Nat) (x : UInt16) :
    rangoSegmento bits (i + 1) x = rangoSegmento (bits - 16) i x := by
  have hdiv : i + 1 < bits / 16 ↔ i < (bits - 16) / 16 := by omega
  have hjmin : (if i + 1 = bits / 16 then bits - bits / 16 * 16 else 0) =
      if i = (bits - 16) / 16 then bits - 16 - (bits - 16) / 16 * 16 else 0 := by
    split <;> split <;> omega
  simp only [rangoSegmento, hdiv, hjmin]

/-- The words of the two addresses are the prefix, with zeros and with ones behind it. -/
theorem value_rango (bits : Nat) (segs : List UInt16) (hbits : bits ≤ 16 * segs.length) :
    let s := 16 * segs.length - bits
    let q := Words.top 16 bits (segs.map fun x ↦ (htons x).toNat)
    Words.value 16 ((segs.mapIdx (rangoSegmento bits)).map fun r ↦ (htons r.1).toNat) = q * 2 ^ s ∧
    Words.value 16 ((segs.mapIdx (rangoSegmento bits)).map fun r ↦ (htons r.2).toNat) =
      q * 2 ^ s + (2 ^ s - 1) := by
  induction segs generalizing bits with
  | nil => simp [Words.value, Words.top, show bits = 0 by simpa using hbits]
  | cons x segs ih =>
      have hfits := fits_words segs
      have hlen : (segs.map fun x ↦ (htons x).toNat).length = segs.length := List.length_map ..
      have hrango : (x :: segs).mapIdx (rangoSegmento bits) =
          rangoSegmento bits 0 x :: segs.mapIdx (rangoSegmento (bits - 16)) := by
        rw [List.mapIdx_cons]
        exact congrArg _ (List.mapIdx_eq_mapIdx_iff.mpr fun i _ ↦ rangoSegmento_succ bits i _)
      rw [List.length_cons, Nat.mul_succ] at hbits
      have hrest := ih (bits - 16) (by omega)
      simp only [List.length_cons, hrango, List.map_cons, Words.value, List.length_map,
        List.length_mapIdx, hrest]
      by_cases h16 : 16 ≤ bits
      · have hseg : rangoSegmento bits 0 x = (x, x) := if_pos (by omega)
        have hs : 16 * (segs.length + 1) - bits = 16 * segs.length - (bits - 16) := by omega
        have hpow : 2 ^ (16 * segs.length) =
            2 ^ (bits - 16) * 2 ^ (16 * segs.length - (bits - 16)) := by
          rw [← Nat.pow_add]
          congr 1
          omega
        rw [hseg, hs, Words.top_cons_of_le h16 (by rw [List.length_cons, hlen]; omega), hpow]
        constructor <;> ring
      · have hseg : rangoSegmento bits 0 x = (htons ⟨(rondas bits (htons x).toBitVec 16).partInit⟩,
            htons ⟨(rondas bits (htons x).toBitVec 16).partFinal⟩) := by
          have hdiv : bits / 16 = 0 := by omega
          simp only [rangoSegmento, hdiv, Nat.lt_irrefl, if_false, if_true, Nat.zero_mul,
            Nat.sub_zero]
        have hs : 16 * (segs.length + 1) - bits = (16 - bits) + 16 * segs.length := by omega
        have hzero : Words.top 16 0 (segs.map fun x ↦ (htons x).toNat) = 0 := by
          have h := Words.top_lt hfits (k := 0) (Nat.zero_le _)
          omega
        obtain ⟨hinit, hfinal⟩ := rondas_toNat (show bits ≤ 16 by omega) (htons x).toBitVec
        rw [hseg, hs, Words.top_cons_within (by omega) hfits, show bits - 16 = 0 by omega, hzero,
          Nat.sub_zero, htons_htons, htons_htons]
        have hpos := Nat.two_pow_pos (16 - bits)
        have hpos' := Nat.two_pow_pos (16 * segs.length)
        constructor
        · rw [show (UInt16.ofBitVec (rondas bits (htons x).toBitVec 16).partInit).toNat = _ from hinit,
            Nat.pow_add, Nat.zero_mul, Nat.add_zero, Nat.mul_assoc]
          rfl
        · rw [show (UInt16.ofBitVec (rondas bits (htons x).toBitVec 16).partFinal).toNat = _ from
              hfinal, Nat.pow_add, Nat.zero_mul, Nat.zero_add]
          show ((htons x).toNat / _ * _ + _) * _ + _ = _
          generalize (htons x).toNat / 2 ^ (16 - bits) = q
          obtain ⟨m, hm⟩ := Nat.exists_eq_succ_of_ne_zero hpos.ne'
          obtain ⟨k, hk⟩ := Nat.exists_eq_succ_of_ne_zero hpos'.ne'
          rw [hm, hk]
          have hmul : (m + 1) * (k + 1) - 1 = m * (k + 1) + k := by
            rw [Nat.succ_mul]
            omega
          simp only [Nat.succ_eq_add_one, Nat.add_sub_cancel, hmul]
          ring

/-! ## `ipmask_check` -/

theorem htons_xor (x y : UInt16) : htons (x ^^^ y) = htons x ^^^ htons y := by
  rw [htons, htons, htons, UInt16.shiftLeft_xor, UInt16.shiftRight_xor]
  apply UInt16.toBitVec_inj.mp
  ext i hi
  simp only [UInt16.toBitVec_or, UInt16.toBitVec_xor, UInt16.toBitVec_shiftLeft,
    UInt16.toBitVec_shiftRight, BitVec.getElem_or, BitVec.getElem_xor]
  -- each bit comes from one of the two halves
  by_cases h : i < 8
  · simp [h]
  · have hx := x.toBitVec.getLsbD_of_ge (8 + i) (by omega)
    have hy := y.toBitVec.getLsbD_of_ge (8 + i) (by omega)
    simp [h, hx, hy]

/-- The comparison of a part of a word. -/
theorem shiftRight_htons_xor (x y : UInt16) (s : Nat) :
    (htons (x ^^^ y)).toNat >>> s = 0 ↔ (htons x).toNat / 2 ^ s = (htons y).toNat / 2 ^ s := by
  rw [htons_xor, UInt16.toNat_xor, Nat.shiftRight_xor_distrib, Nat.xor_eq_zero_iff,
    Nat.shiftRight_eq_div_pow, Nat.shiftRight_eq_div_pow]

theorem htons_inj {x y : UInt16} : (htons x).toNat = (htons y).toNat ↔ x = y := by
  rw [UInt16.toNat_inj]
  refine ⟨fun h ↦ ?_, fun h ↦ by rw [h]⟩
  rw [← htons_htons x, h, htons_htons]

/-- The words of an address at the given places. -/
def palabrasEn (a : IrcInAddr) (ks : List (Fin 8)) : List Nat :=
  (ks.map a.in6_16.get).map fun x ↦ (htons x).toNat

theorem palabrasEn_todas (a : IrcInAddr) : palabrasEn a [0, 1, 2, 3, 4, 5, 6, 7] = palabras a := by
  have hsegs : ([0, 1, 2, 3, 4, 5, 6, 7] : List (Fin 8)) = List.finRange 8 := by decide
  rw [palabrasEn, palabras, hsegs]
  congr 1
  refine List.ext_getElem (by simp [segmentos]) fun i hi hi' ↦ ?_
  rw [List.getElem_map, List.getElem_finRange]
  rfl

theorem fits_palabrasEn (a : IrcInAddr) (ks : List (Fin 8)) : Words.Fits 16 (palabrasEn a ks) :=
  fits_words _

theorem length_palabrasEn (a : IrcInAddr) (ks : List (Fin 8)) :
    (palabrasEn a ks).length = ks.length := by
  simp [palabrasEn]

theorem palabrasEn_cons (a : IrcInAddr) (k : Fin 8) (ks : List (Fin 8)) :
    palabrasEn a (k :: ks) = (htons (a.in6_16.get k)).toNat :: palabrasEn a ks :=
  rfl

/-- The loop of `ipmask_check` compares the high bits of the words that are left. -/
theorem ipmaskDesde_iff (a b : IrcInAddr) (ks : List (Fin 8)) (bits : Nat)
    (hbits : bits ≤ 16 * ks.length) : ipmaskDesde a b ks bits ≠ 0 ↔
      Words.top 16 bits (palabrasEn a ks) = Words.top 16 bits (palabrasEn b ks) := by
  induction ks generalizing bits with
  | nil => simp [ipmaskDesde, palabrasEn]
  | cons k ks ih =>
      rw [List.length_cons, Nat.mul_succ] at hbits
      have hfits := fun a ↦ fits_palabrasEn a (k :: ks)
      have hget : ∀ a : IrcInAddr, a.in6_16.get k = a.in6_16[k] := fun _ ↦ rfl
      simp only [palabrasEn_cons, hget] at hfits
      rw [ipmaskDesde, palabrasEn_cons, palabrasEn_cons, hget, hget]
      by_cases h16 : bits < 16
      · rw [if_pos h16, Words.top_cons_within h16.le (fits_palabrasEn a ks),
          Words.top_cons_within h16.le (fits_palabrasEn b ks), ← shiftRight_htons_xor]
        simp
      · rw [if_neg h16, Words.top_cons_eq_iff (hfits a) (hfits b)
          (by rw [length_palabrasEn, length_palabrasEn]) (not_lt.mp h16)
          (by rw [List.length_cons, length_palabrasEn]; omega), htons_inj,
          ← ih (bits - 16) (by omega)]
        by_cases hne : a.in6_16[k] = b.in6_16[k]
        · rw [if_neg (not_not.mpr hne)]
          by_cases hfin : bits - 16 = 0
          · have hcero : ∀ a, Words.top 16 0 (palabrasEn a ks) = 0 := fun a ↦
              Nat.lt_one_iff.mp (Words.top_lt (fits_palabrasEn a ks) (Nat.zero_le _))
            have hne₀ := (ih 0 (Nat.zero_le _)).mpr ((hcero a).trans (hcero b).symm)
            simp [hfin, hne, hne₀]
          · simp [hfin, hne]
        · rw [if_pos hne]
          exact iff_of_false (not_not.mpr rfl) fun h ↦ hne h.1

/-! ## The two agree -/

theorem numero_conSegmentos {segs : List UInt16} (h : segs.length = 8) :
    numero (conSegmentos segs) = Words.value 16 (segs.map fun x ↦ (htons x).toNat) := by
  rw [numero, palabras, segmentos_conSegmentos h]

/-- `ipmask_check` says whether the first bits are the same, which is whether the address lies in
the block of `ipmask_range`. -/
theorem ipmaskCheck_iff (a b : IrcInAddr) (bits full : Nat)
    (hbits : bits ≤ if isIpv4 b then 32 else 128)
    (hfull : full = if isIpv4 b then bits + 96 else bits) :
    (ipmaskCheck a b full ≠ 0 ↔ ∀ i < full, bitRed a i = bitRed b i) ∧
    (ipmaskCheck a b full ≠ 0 ↔ numero (ipmaskRange b bits).1 ≤ numero a ∧
      numero a ≤ numero (ipmaskRange b bits).2) := by
  have hle : full ≤ 128 := by
    by_cases h4 : isIpv4 b
    · rw [if_pos h4] at hbits hfull
      omega
    · rw [if_neg h4] at hbits hfull
      omega
  have hlen : ∀ a, (segmentos a).length = 8 := fun a ↦ Vector.length_toList
  have hcheck : ipmaskCheck a b full ≠ 0 ↔
      Words.top 16 full (palabras a) = Words.top 16 full (palabras b) := by
    rw [ipmaskCheck, ipmaskDesde_iff a b [0, 1, 2, 3, 4, 5, 6, 7] full hle, palabrasEn_todas,
      palabrasEn_todas]
  have hfits : ∀ a, Words.Fits 16 (palabras a) := fun a ↦ fits_words (segmentos a)
  constructor
  · rw [hcheck, Words.top_eq_iff_testBit (hfits a) (hfits b)
      ((length_palabras a).trans (length_palabras b).symm) (by rw [length_palabras]; exact hle),
      length_palabras]
    rfl
  · obtain ⟨hinit, hfinal⟩ := value_rango full (segmentos b) (by rw [hlen]; exact hle)
    have hmap : ((segmentos b).mapIdx (rangoSegmento full)).length = 8 := by
      rw [List.length_mapIdx, hlen]
    have hrange : ipmaskRange b bits =
        (conSegmentos (((segmentos b).mapIdx (rangoSegmento full)).map (·.1)),
          conSegmentos (((segmentos b).mapIdx (rangoSegmento full)).map (·.2))) := by
      rw [hfull]
      rfl
    have hfirst : numero (ipmaskRange b bits).1 =
        Words.top 16 full (palabras b) * 2 ^ (128 - full) := by
      rw [hrange, numero_conSegmentos (by rw [List.length_map, hmap]), List.map_map]
      rw [hlen] at hinit
      exact hinit
    have hlast : numero (ipmaskRange b bits).2 =
        Words.top 16 full (palabras b) * 2 ^ (128 - full) + (2 ^ (128 - full) - 1) := by
      rw [hrange, numero_conSegmentos (by rw [List.length_map, hmap]), List.map_map]
      rw [hlen] at hfinal
      exact hfinal
    rw [hcheck, hfirst, hlast, Words.top, Words.top, length_palabras, length_palabras]
    exact Words.div_eq_iff_between

/-- The two ways tell `10.1.2.3` from `10.2.0.0` with a prefix of 16 bits. -/
theorem ipmaskCheck_diez :
    let a := (⟨#v[0, 0, 0, 0, 0, 0, htons 0x0A01, htons 0x0203]⟩ : IrcInAddr)
    let b := (⟨#v[0, 0, 0, 0, 0, 0, htons 0x0A02, 0]⟩ : IrcInAddr)
    (ipmaskCheck a b 112 ≠ 0 ↔ ∀ i < 112, bitRed a i = bitRed b i) ∧
    (ipmaskCheck a b 112 ≠ 0 ↔ numero (ipmaskRange b 16).1 ≤ numero a ∧
      numero a ≤ numero (ipmaskRange b 16).2) :=
  ipmaskCheck_iff _ _ 16 112 (by decide) (by decide)

end Ircd.Addr
