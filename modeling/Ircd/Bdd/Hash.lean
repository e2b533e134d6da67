import Mathlib.Logic.Function.Iterate
import Ircd.Match
import Ircd.Numnicks

/-!
# The hash of a table

`actualizaHash` folds one record into the pair `tabla_hash_hi`, `tabla_hash_lo` of its table, with
the cipher TEA in CBC mode over the words of a zero-filled buffer. The line end of a record is cut
off first, so that a record hashes alike with and without it: `actualizaHash_append`. The pair is
kept on disk in base 64 (`almacenaHash`), and `leeHash_almacenaHash` reads it back.
-/

namespace Ircd.Bdd

open CString Match

/-- `tabla_hash_hi` and `tabla_hash_lo`. -/
structure Hash where
  hi : UInt32
  lo : UInt32
deriving DecidableEq

/-- The hash of an empty table. -/
def Hash.cero : Hash := ⟨0, 0⟩

/-- One round of TEA on `(sum, y, z)`, with the key words `a` and `b`; the other two are 0. -/
def teaRonda (a b : UInt32) : UInt32 × UInt32 × UInt32 → UInt32 × UInt32 × UInt32
  | (sum, y, z) =>
      let sum := sum + 0x9E3779B9
      let y := y + (((z <<< 4) + a) ^^^ ((z + sum) ^^^ ((z >>> 5) + b)))
      let z := z + ((y <<< 4) ^^^ ((y + sum) ^^^ (y >>> 5)))
      (sum, y, z)

/-- `tea`: 32 rounds on the block `v`, chained with the previous block `x`. -/
def tea (v k : UInt32 × UInt32) (x : Hash) : Hash :=
  let r := (teaRonda k.1 k.2)^[32] (0, v.1 ^^^ x.hi, v.2 ^^^ x.lo)
  ⟨r.2.1, r.2.2⟩

/-- `ntohl` of the four bytes at a pointer. -/
def palabra (a b c d : Char) : UInt32 :=
  (((a.toNat * 256 + b.toNat) * 256 + c.toNat) * 256 + d.toNat).toUInt32

/-- `while ((p2 = strchr (buffer, c))) *p2 = '\0'`: only the first `c` is found, because the string
ends there afterwards. The bytes behind it stay. -/
def corta (c : Char) (s : List Char) : List Char :=
  match s.dropWhile (fun x ↦ x != c && x != nul) with
  | x :: rest =>
      if x = c then s.takeWhile (fun x ↦ x != c && x != nul) ++ nul :: rest else s
  | [] => s

/-- The bytes of `unsigned int buffer[129 * sizeof (unsigned int)]`. -/
def tamBuffer : Nat := 2064

/-- The buffer with the record in it, its line end cut off and the rest zero. -/
def bufferHash (registro : CStr) : List Char :=
  let s := corta '\r' (corta '\n' (registro.take (tamBuffer - 1)))
  s ++ List.replicate (tamBuffer - s.length) nul

/-- The loop over the words, two at a time, up to a first word that is zero. -/
def hashPalabras (x : Hash) : List Char → Hash
  | a :: b :: c :: d :: e :: f :: g :: h :: rest =>
      if palabra a b c d = 0 then x
      else hashPalabras (tea (palabra a b c d, palabra e f g h) (0, 0) x) rest
  | _ => x

/-- `actualiza_hash` on the hash of the table of the record. -/
def actualizaHash (registro : CStr) (x : Hash) : Hash :=
  hashPalabras x (bufferHash registro)

/-- `almacena_hash`: the text of a hash in the file of hashes. -/
def almacenaHash (x : Hash) : CStr :=
  inttobase64 x.hi.toNat 6 ++ inttobase64 x.lo.toNat 6

/-- `lee_hash`. -/
def leeHash (s : CStr) : Nat × Nat :=
  (base64toint (s.take 6), base64toint (s.drop 6))

/-- A stored hash is read back. -/
theorem leeHash_almacenaHash (x : Hash) :
    leeHash (almacenaHash x) = (x.hi.toNat, x.lo.toNat) := by
  have hlen := length_inttobase64 x.hi.toNat 6
  have hhi : x.hi.toNat < 2 ^ 32 := x.hi.toNat_lt
  have hlo : x.lo.toNat < 2 ^ 32 := x.lo.toNat_lt
  rw [leeHash, almacenaHash, List.take_left' hlen, List.drop_left' hlen,
    base64toint_inttobase64 (by omega) hhi, base64toint_inttobase64 (by omega) hlo]

/-! ## The line end -/

/-- `strchr` looks through a whole plain text. -/
theorem scan_plain {s : CStr} (h : Plain s) {c : Char} (hc : c = '\n' ∨ c = '\r') :
    ∀ x ∈ s, (x != c && x != nul) = true := by
  intro x hx
  simp only [Bool.and_eq_true, bne_iff_ne]
  refine ⟨?_, ?_⟩
  · rintro rfl
    exact h.not_mem hc hx
  · rintro rfl
    exact h.2.2 hx

/-- Nothing is cut from a plain text. -/
theorem corta_plain {s : CStr} (h : Plain s) {c : Char} (hc : c = '\n' ∨ c = '\r') :
    corta c s = s := by
  have hdrop := List.dropWhile_eq_nil_iff.mpr (scan_plain h hc)
  simp only [corta, hdrop]

/-- The search stops at the terminator. -/
theorem corta_nul {s : CStr} (h : Plain s) {c : Char} (hc : c = '\n' ∨ c = '\r') (rest : CStr) :
    corta c (s ++ nul :: rest) = s ++ nul :: rest := by
  have hne : nul ≠ c := by rcases hc with rfl | rfl <;> decide
  have hdrop := dropWhile_stop rest (scan_plain h hc) (c := nul) (by simp)
  simp only [corta, hdrop, hne, if_false]

/-- The line end is replaced by a terminator. -/
theorem corta_append {s : CStr} (h : Plain s) {c : Char} (hc : c = '\n' ∨ c = '\r')
    (rest : CStr) : corta c (s ++ c :: rest) = s ++ nul :: rest := by
  have hdrop := dropWhile_stop rest (scan_plain h hc) (c := c) (by simp)
  have htake := takeWhile_stop rest (scan_plain h hc) (c := c) (by simp)
  simp only [corta, hdrop, htake, if_true]

/-- A record hashes alike with and without its line end. -/
theorem actualizaHash_append {s : CStr} (h : Plain s) (hlen : s.length + 2 ≤ tamBuffer)
    (x : Hash) : actualizaHash (s ++ ['\n']) x = actualizaHash s x := by
  have hbuffer : bufferHash (s ++ ['\n']) = bufferHash s := by
    have htake : (s ++ ['\n']).take (tamBuffer - 1) = s ++ ['\n'] := by
      apply List.take_of_length_le
      simp only [List.length_append, List.length_singleton]
      omega
    have htake' : s.take (tamBuffer - 1) = s := List.take_of_length_le (by omega)
    obtain ⟨n, hn⟩ : ∃ n, tamBuffer - s.length = n + 1 := ⟨tamBuffer - s.length - 1, by omega⟩
    have hn' : tamBuffer - (s ++ [nul]).length = n := by
      simp only [List.length_append, List.length_singleton]
      omega
    rw [bufferHash, bufferHash, htake, htake', corta_append h (.inl rfl), corta_nul h (.inr rfl),
      corta_plain h (.inl rfl), corta_plain h (.inr rfl)]
    simp only [hn', hn, List.replicate_succ, List.append_assoc, List.singleton_append]
  rw [actualizaHash, actualizaHash, hbuffer]

end Ircd.Bdd
