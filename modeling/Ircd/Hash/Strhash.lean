import Ircd.Hash.Table
import Mathlib.Data.Nat.Digits.Lemmas
import Mathlib.Logic.Function.Basic

/-!
# The string hash in its tables

`initMapas` fills the two tables of `ircd/hash.c` with the loops of `hash_init`, for a `char` with or
without a sign, and `strhashEn` is the loop of `strhash` with its reads of them; a read outside
`hash_map` gives `none`. `initMapas_hashWeight` and `initMapas_hashMap` say what the tables hold. The
main theorem, `strhashEn_numero`, says that the hash is the string with its terminator, read as a
number in base `HASHSHIFT`, modulo `HASHSIZE`, and that every read is inside the table.
-/

namespace Ircd.Hash

/-! ## Characters -/

/-- Whether the `char` of the platform has a sign. -/
inductive Signo where
  | signed
  | unsigned
deriving DecidableEq

namespace Signo

/-- `CHAR_MIN`. -/
def CHAR_MIN : Signo → Int
  | signed => -128
  | unsigned => 0

/-- The conversion of an integer to a `char`. -/
def aChar : Signo → Int → Int
  | signed, i => i.bmod 256
  | unsigned, i => i % 256

/-- The `k`-th value of a loop that begins at `CHAR_MIN`. -/
def char (g : Signo) (k : Nat) : Int :=
  g.CHAR_MIN + k

end Signo

/-- `(unsigned char) i`. -/
def byte (i : Int) : Nat :=
  (i % 256).toNat

/-- The lower-case form of a byte. -/
def minuscula (n : Nat) : Nat :=
  if isUpperCode n then n + 32 else n

/-- `toLower (c)`, the entry of `NTL_tolower_tab` at `c`. -/
def tolower (g : Signo) (c : Int) : Int :=
  g.aChar (minuscula (byte c))

/-- `HASHEQ (x, y)`. -/
def hashEq (g : Signo) (x y : Int) : Bool :=
  g.aChar (tolower g (g.aChar x)) = g.aChar (tolower g (g.aChar y))

/-! ## The tables -/

/-- `HASHSTEP`. -/
def HASHSTEP : Nat := 1

/-- `HASHSHIFT`. -/
def HASHSHIFT : Nat := 257

/-- `HASHMAPSIZE`. -/
def HASHMAPSIZE : Nat := HASHSIZE + HASHSHIFT + 1

/-- `hash_weight_table` by the characters that `hash_weight` takes, and `hash_map`. The entries of
both are `unsigned short`. -/
structure Mapas where
  hashWeight : Int → Nat
  hashMap : List Nat

/-- `hash_weight (i) = HASHSTEP * ((unsigned char) i)`. -/
def ponPeso (g : Signo) (t : Int → Nat) (k : Nat) : Int → Nat :=
  Function.update t (g.char k) (HASHSTEP * byte (g.char k) % 2 ^ 16)

/-- The first loop over the weights: each character has its byte. -/
def ponPesos (g : Signo) : Int → Nat :=
  (List.range 256).foldl (ponPeso g) fun _ ↦ 0

/-- `if (HASHEQ (i, j)) hash_weight (i) = hash_weight (j)`. -/
def igualaPeso (g : Signo) (k : Nat) (t : Int → Nat) (l : Nat) : Int → Nat :=
  if hashEq g (g.char k) (g.char l) then Function.update t (g.char k) (t (g.char l)) else t

/-- The second loop over the weights: each character gets the weight of those before it that are
equal to it up to case. -/
def igualaPesos (g : Signo) (t : Int → Nat) : Int → Nat :=
  (List.range 256).foldl (fun t k ↦ (List.range k).foldl (igualaPeso g k) t) t

/-- The loop over `hash_map`. -/
def llenaMapa : List Nat :=
  (List.range HASHMAPSIZE).map fun m ↦ m * HASHSHIFT % HASHSIZE % 2 ^ 16

/-- `hash_init`, without the clearing of the hash tables. -/
def initMapas (g : Signo) : Mapas where
  hashWeight := igualaPesos g (ponPesos g)
  hashMap := llenaMapa

/-! ## The hash -/

/-- The loop of `strhash` and its return. A string without a terminator is read to its end and
beyond. -/
def strhashDesde (g : Signo) (t : Mapas) (hash : Nat) : List UInt8 → Option Nat
  | [] => none
  | c :: n =>
      if c = 0 then t.hashMap[hash]?
      else do
        let h ← t.hashMap[hash]?
        strhashDesde g t (h + t.hashWeight (g.aChar c.toNat)) n

/-- `strhash`, on the memory at the string. -/
def strhashEn (g : Signo) (t : Mapas) : List UInt8 → Option Nat
  | [] => none
  | c :: n => strhashDesde g t (t.hashWeight (g.aChar c.toNat)) n

/-- The digit that a byte is: the least of the bytes that are equal to it up to case. -/
def peso (n : Nat) : Nat :=
  if 32 ≤ n ∧ isUpperCode (n - 32) then n - 32 else n

/-- A string as a number in base `HASHSHIFT`, the first digit in front. -/
def numero (s : List UInt8) : Nat :=
  Nat.ofDigits HASHSHIFT (s.map fun c ↦ peso c.toNat).reverse

/-! ## Weights -/

theorem peso_minuscula (n : Nat) : peso (minuscula n) = peso n := by
  unfold peso minuscula
  by_cases h : isUpperCode n = true
  · have hdown : ¬(32 ≤ n ∧ isUpperCode (n - 32) = true) := by
      simp only [isUpperCode, decide_eq_true_eq] at h ⊢
      omega
    rw [if_pos h, if_neg hdown, if_pos ⟨by omega, by rwa [Nat.add_sub_cancel]⟩, Nat.add_sub_cancel]
  · rw [if_neg h]

theorem minuscula_peso (n : Nat) : minuscula (peso n) = minuscula n := by
  unfold peso
  split
  · next h =>
      have hup : ¬isUpperCode n = true := by
        have hadd := isUpperCode_add h.2
        rw [Nat.sub_add_cancel h.1] at hadd
        simp [hadd]
      rw [minuscula, if_pos h.2, minuscula, if_neg hup, Nat.sub_add_cancel h.1]
  · rfl

/-- Bytes are the same digit exactly when they are equal up to case. -/
theorem peso_eq_iff {m n : Nat} : peso m = peso n ↔ minuscula m = minuscula n := by
  constructor
  · intro h
    rw [← minuscula_peso m, h, minuscula_peso]
  · intro h
    rw [← peso_minuscula m, h, peso_minuscula]

theorem peso_le (n : Nat) : peso n ≤ n := by
  unfold peso
  split <;> omega

theorem byte_lt (i : Int) : byte i < 256 := by
  unfold byte
  omega

theorem minuscula_lt {n : Nat} (h : n < 256) : minuscula n < 256 := by
  unfold minuscula
  split
  · next hup =>
      simp only [isUpperCode, decide_eq_true_eq] at hup
      omega
  · exact h

theorem byte_aChar (g : Signo) (i : Int) : byte (g.aChar i) = byte i := by
  cases g with
  | signed => exact congrArg Int.toNat Int.bmod_emod
  | unsigned => exact congrArg Int.toNat (Int.emod_emod_of_dvd i (Int.dvd_refl 256))

theorem hashEq_iff (g : Signo) (x y : Int) :
    hashEq g x y = true ↔ minuscula (byte x) = minuscula (byte y) := by
  have hbyte : ∀ i : Int, byte (g.aChar (tolower g (g.aChar i))) = minuscula (byte i) := by
    intro i
    have hlt := minuscula_lt (byte_lt i)
    rw [byte_aChar, tolower, byte_aChar, byte_aChar]
    unfold byte at hlt ⊢
    omega
  rw [hashEq, decide_eq_true_eq]
  constructor
  · intro h
    rw [← hbyte x, h, hbyte y]
  · intro h
    simp only [tolower, byte_aChar, h]

theorem char_injective (g : Signo) : Function.Injective g.char := by
  intro k l h
  simp only [Signo.char] at h
  omega

/-! ## The tables after their loops -/

theorem ponPesos_char (g : Signo) {k : Nat} (hk : k < 256) :
    ponPesos g (g.char k) = byte (g.char k) := by
  have hloop : ∀ n, ∀ k < n,
      (List.range n).foldl (ponPeso g) (fun _ ↦ 0) (g.char k) = byte (g.char k) := by
    intro n
    induction n with
    | zero => intro k hk; exact absurd hk (Nat.not_lt_zero k)
    | succ n ih =>
        intro k hk
        rw [List.range_succ, List.foldl_append, List.foldl_cons, List.foldl_nil, ponPeso]
        by_cases hkn : k = n
        · subst hkn
          have hlt := byte_lt (g.char k)
          rw [Function.update_self, HASHSTEP, Nat.one_mul, Nat.mod_eq_of_lt (by omega)]
        · rw [Function.update_of_ne ((char_injective g).ne hkn)]
          exact ih k (by omega)
  exact hloop 256 k hk

/-- A character whose weight is not its byte comes behind one that is equal to it. -/
theorem exists_hashEq (g : Signo) {k : Nat} (hk : k < 256)
    (h : peso (byte (g.char k)) ≠ byte (g.char k)) :
    ∃ l < k, hashEq g (g.char k) (g.char l) = true := by
  have hup : 32 ≤ byte (g.char k) ∧ isUpperCode (byte (g.char k) - 32) = true := by
    by_contra hnot
    exact h (if_neg hnot)
  have hcode := hup.2
  simp only [isUpperCode, decide_eq_true_eq] at hcode
  have hle : 32 ≤ k ∧ byte (g.char (k - 32)) = byte (g.char k) - 32 := by
    cases g <;> simp only [byte, Signo.char, Signo.CHAR_MIN] at hup hcode ⊢ <;> omega
  refine ⟨k - 32, by omega, ?_⟩
  rw [hashEq_iff, hle.2, ← peso_eq_iff, peso, if_pos hup]
  refine (if_neg ?_).symm
  rintro ⟨hlow, hupper⟩
  have hadd := isUpperCode_add hupper
  rw [Nat.sub_add_cancel hlow] at hadd
  exact absurd hup.2 (by simp [hadd])

/-- A character that is compared with those before it, when these have their weights. -/
theorem foldl_igualaPeso (g : Signo) {k : Nat} {t : Int → Nat}
    (hprev : ∀ l < k, t (g.char l) = peso (byte (g.char l))) {n : Nat} (hn : n ≤ k) :
    (List.range n).foldl (igualaPeso g k) t =
      if ∃ l < n, hashEq g (g.char k) (g.char l) = true
      then Function.update t (g.char k) (peso (byte (g.char k))) else t := by
  induction n with
  | zero => simp
  | succ n ih =>
      have hne : g.char n ≠ g.char k := (char_injective g).ne (by omega)
      rw [List.range_succ, List.foldl_append, ih (by omega), List.foldl_cons, List.foldl_nil,
        igualaPeso]
      by_cases heq : hashEq g (g.char k) (g.char n) = true
      · have hex : ∃ l < n + 1, hashEq g (g.char k) (g.char l) = true :=
          ⟨n, Nat.lt_succ_self n, heq⟩
        have hpeso : peso (byte (g.char n)) = peso (byte (g.char k)) :=
          peso_eq_iff.mpr ((hashEq_iff g _ _).mp heq).symm
        rw [if_pos heq, if_pos hex]
        split
        · rw [Function.update_of_ne hne, hprev n (by omega), hpeso, Function.update_idem]
        · rw [hprev n (by omega), hpeso]
      · have hiff : (∃ l < n + 1, hashEq g (g.char k) (g.char l) = true) ↔
            ∃ l < n, hashEq g (g.char k) (g.char l) = true := by
          constructor
          · rintro ⟨l, hl, hlk⟩
            have hln : l ≠ n := fun h ↦ heq (h ▸ hlk)
            exact ⟨l, by omega, hlk⟩
          · rintro ⟨l, hl, hlk⟩
            exact ⟨l, by omega, hlk⟩
        rw [if_neg heq, if_congr hiff rfl rfl]

/-- One turn of the second loop. -/
theorem igualaPesos_turno (g : Signo) {k : Nat} (hk : k < 256) {t : Int → Nat}
    (hself : t (g.char k) = byte (g.char k))
    (hprev : ∀ l < k, t (g.char l) = peso (byte (g.char l))) :
    (List.range k).foldl (igualaPeso g k) t =
      Function.update t (g.char k) (peso (byte (g.char k))) := by
  rw [foldl_igualaPeso g hprev (Nat.le_refl k)]
  by_cases hex : ∃ l < k, hashEq g (g.char k) (g.char l) = true
  · rw [if_pos hex]
  · have hbyte : peso (byte (g.char k)) = byte (g.char k) := by
      by_contra h
      exact hex (exists_hashEq g hk h)
    rw [if_neg hex, hbyte, ← hself, Function.update_eq_self]

/-- `hash_weight` of a character is the least of the bytes that are equal to it up to case. -/
theorem initMapas_hashWeight (g : Signo) {k : Nat} (hk : k < 256) :
    (initMapas g).hashWeight (g.char k) = peso (byte (g.char k)) := by
  have hloop : ∀ n ≤ 256, ∀ k < 256,
      (List.range n).foldl (fun t k ↦ (List.range k).foldl (igualaPeso g k) t) (ponPesos g)
        (g.char k) = if k < n then peso (byte (g.char k)) else byte (g.char k) := by
    intro n
    induction n with
    | zero => intro _ k hk; exact ponPesos_char g hk
    | succ n ih =>
        intro hn k hk
        have ih := ih (by omega)
        have hself := ih n (by omega)
        rw [if_neg (Nat.lt_irrefl n)] at hself
        rw [List.range_succ, List.foldl_append, List.foldl_cons, List.foldl_nil,
          igualaPesos_turno g (by omega) hself fun l hl ↦ by rw [ih l (by omega), if_pos hl]]
        by_cases hkn : k = n
        · subst hkn
          rw [Function.update_self, if_pos (Nat.lt_succ_self k)]
        · rw [Function.update_of_ne ((char_injective g).ne hkn), ih k hk]
          exact if_congr (by omega) rfl rfl
  simp only [initMapas, igualaPesos, hloop 256 (Nat.le_refl 256) k hk, if_pos hk]

theorem initMapas_aChar (g : Signo) (c : UInt8) :
    (initMapas g).hashWeight (g.aChar c.toNat) = peso c.toNat := by
  have hlt := c.toNat_lt
  obtain ⟨k, hk, hchar⟩ : ∃ k < 256, g.aChar c.toNat = g.char k := by
    cases g with
    | signed =>
        refine ⟨((c.toNat : Int).bmod 256 + 128).toNat, ?_⟩
        have hbmod := @Int.bmod_lt c.toNat 256 (by decide)
        have hle := @Int.le_bmod c.toNat 256 (by decide)
        simp only [Signo.aChar, Signo.char, Signo.CHAR_MIN]
        omega
    | unsigned =>
        refine ⟨c.toNat, by omega, ?_⟩
        simp only [Signo.aChar, Signo.char, Signo.CHAR_MIN]
        omega
  have hbyte : byte (g.char k) = c.toNat := by
    rw [← hchar, byte_aChar, byte]
    omega
  rw [hchar, initMapas_hashWeight g hk, hbyte]

/-- `hash_map` multiplies by `HASHSHIFT` modulo `HASHSIZE`. -/
theorem initMapas_hashMap (g : Signo) {h : Nat} (hh : h < HASHMAPSIZE) :
    (initMapas g).hashMap[h]? = some (hashMap h) := by
  have hlt : h * HASHSHIFT % HASHSIZE < 2 ^ 16 :=
    Nat.lt_trans (Nat.mod_lt _ (by decide)) (by decide)
  rw [initMapas, llenaMapa, List.getElem?_map, List.getElem?_range hh, Option.map_some,
    Nat.mod_eq_of_lt hlt]
  rfl

/-! ## The hash of a string -/

/-- The character of a byte. -/
def caracter (c : UInt8) : Char :=
  Char.ofNat c.toNat

theorem hashWeight_caracter (c : UInt8) : hashWeight (caracter c) = peso c.toNat := by
  have hlt := c.toNat_lt
  have hvalid : c.toNat.isValidChar := .inl (by omega)
  have hcode : (caracter c).toNat = c.toNat := by
    rw [caracter, Char.ofNat, dif_pos hvalid]
    rfl
  rw [hashWeight, hcode]
  rfl

theorem hashMap_lt (h : Nat) : hashMap h < HASHSIZE :=
  Nat.mod_lt _ (by decide)

variable {s : List UInt8}

/-- The loop over a string reads inside the table, and is the loop of `Ircd.strhash`. -/
theorem strhashDesde_append (g : Signo) (hs : 0 ∉ s) (rest : List UInt8) {hash : Nat}
    (hhash : hash < HASHMAPSIZE) :
    strhashDesde g (initMapas g) hash (s ++ 0 :: rest) = some (hashMap
      ((s.map caracter).foldl (fun h c ↦ hashMap h + hashWeight c) hash)) := by
  induction s generalizing hash with
  | nil => exact initMapas_hashMap g hhash
  | cons c n ih =>
      obtain ⟨hc, hn⟩ := List.ne_and_not_mem_of_not_mem_cons hs
      have hweight := initMapas_aChar g c
      have hnext : hashMap hash + peso c.toNat < HASHMAPSIZE := by
        have hmap := hashMap_lt hash
        have hle := peso_le c.toNat
        have hlt := c.toNat_lt
        simp only [HASHMAPSIZE, HASHSHIFT]
        omega
      rw [List.cons_append, strhashDesde, if_neg (Ne.symm hc), initMapas_hashMap g hhash,
        Option.bind_eq_bind, Option.bind_some, hweight, ih hn hnext, List.map_cons,
        List.foldl_cons, hashWeight_caracter]

/-- The tables that `hash_init` fills give the hash of the name tables. -/
theorem strhashEn_eq (g : Signo) (hne : s ≠ []) (hs : 0 ∉ s) (rest : List UInt8) :
    strhashEn g (initMapas g) (s ++ 0 :: rest) = some (strhash (s.map caracter)) := by
  obtain ⟨c, n, rfl⟩ := List.exists_cons_of_ne_nil hne
  have hfirst : peso c.toNat < HASHMAPSIZE := by
    have hle := peso_le c.toNat
    have hlt := c.toNat_lt
    simp only [HASHMAPSIZE, HASHSHIFT]
    omega
  rw [List.cons_append, strhashEn, initMapas_aChar,
    strhashDesde_append g (List.not_mem_of_not_mem_cons hs) rest hfirst, List.map_cons, strhash,
    hashWeight_caracter]

/-- Horner's rule with a reduction at each step. -/
theorem foldl_modEq (b m h : Nat) (ds : List Nat) :
    ds.foldl (fun h d ↦ h * b % m + d) h ≡
      h * b ^ ds.length + Nat.ofDigits b ds.reverse [MOD m] := by
  induction ds generalizing h with
  | nil => simp [Nat.ModEq]
  | cons d ds ih =>
      have hpow : (h * b + d) * b ^ ds.length + Nat.ofDigits b ds.reverse =
          h * b ^ (ds.length + 1) + (Nat.ofDigits b ds.reverse + b ^ ds.length * d) := by ring
      rw [List.foldl_cons, List.length_cons, Nat.ofDigits_reverse_cons, ← hpow]
      refine (ih (h * b % m + d)).trans (Nat.ModEq.add_right _ (Nat.ModEq.mul_right _ ?_))
      exact Nat.ModEq.add_right d (Nat.mod_modEq (h * b) m)

theorem numero_concat_nul (s : List UInt8) : numero (s ++ [0]) = numero s * HASHSHIFT := by
  rw [numero, List.map_append, List.map_singleton, List.reverse_append, List.reverse_singleton,
    List.singleton_append, Nat.ofDigits_cons, Nat.mul_comm]
  exact Nat.zero_add _

/-- The hash of a string is its number, with the terminator, modulo `HASHSIZE`. -/
theorem strhash_eq_numero (hne : s ≠ []) :
    strhash (s.map caracter) = numero (s ++ [0]) % HASHSIZE := by
  obtain ⟨c, n, rfl⟩ := List.exists_cons_of_ne_nil hne
  have hfold := foldl_modEq HASHSHIFT HASHSIZE (peso c.toNat) (n.map fun c ↦ peso c.toNat)
  have hnumero : numero (c :: n) = peso c.toNat * HASHSHIFT ^ (n.map fun c ↦ peso c.toNat).length +
      Nat.ofDigits HASHSHIFT (n.map fun c ↦ peso c.toNat).reverse := by
    rw [numero, List.map_cons, Nat.ofDigits_reverse_cons, Nat.mul_comm, Nat.add_comm]
  have hloop : (n.map caracter).foldl (fun h c ↦ hashMap h + hashWeight c) (peso c.toNat) =
      (n.map fun c ↦ peso c.toNat).foldl (fun h d ↦ h * HASHSHIFT % HASHSIZE + d)
        (peso c.toNat) := by
    rw [List.foldl_map, List.foldl_map]
    simp only [hashWeight_caracter]
    rfl
  rw [← hnumero] at hfold
  rw [List.map_cons, strhash, hashWeight_caracter, hloop, numero_concat_nul]
  exact hfold.mul_right HASHSHIFT

/-- The hash of a non-empty string, with the tables that `hash_init` fills. Every read is inside
`hash_map`, or there would be no result. -/
theorem strhashEn_numero (g : Signo) (hne : s ≠ []) (hs : 0 ∉ s) (rest : List UInt8) :
    (initMapas g).hashMap.length = HASHMAPSIZE ∧
      strhashEn g (initMapas g) (s ++ 0 :: rest) = some (numero (s ++ [0]) % HASHSIZE) := by
  constructor
  · rw [initMapas, llenaMapa, List.length_map, List.length_range]
  · rw [strhashEn_eq g hne hs rest, strhash_eq_numero hne]

/-- The name `Nick`. -/
theorem strhashEn_numero_nick : strhashEn .signed (initMapas .signed) [78, 105, 99, 107, 0] =
    some ((78 * 257 ^ 4 + 73 * 257 ^ 3 + 67 * 257 ^ 2 + 75 * 257) % 32768) :=
  (strhashEn_numero (s := [78, 105, 99, 107]) .signed (by decide) (by decide) []).2

end Ircd.Hash
