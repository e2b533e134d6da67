import Ircd.Lib.Fields
import Ircd.Lib.Words
import Mathlib.Data.BitVec

/-!
# Dotted addresses

IPv4 addresses as words of 32 bits, in the order of the host, and their texts as `inet_ntoa` prints
them. `and_mascara` says that an address agrees with some octets in the bits that these take just
when they are its first ones, and `splitOn_textoIp` reads the octets off the text.
-/

namespace Ircd.Addr

open CString Fields Words

/-! ## Octets -/

/-- The four octets of an address. -/
def octetosIp (addr : BitVec 32) : List Nat :=
  [addr.toNat / 2 ^ 24, addr.toNat / 2 ^ 16 % 256, addr.toNat / 2 ^ 8 % 256, addr.toNat % 256]

/-- The text of an address. -/
def textoIp (addr : BitVec 32) : CStr :=
  ['.'].intercalate ((octetosIp addr).map decimal)

/-- The first octets of a word. -/
def junta (os : List Nat) : BitVec 32 :=
  BitVec.ofNat 32 (value 8 os * 2 ^ (32 - 8 * os.length))

/-- The bits of the first octets. -/
def mascara (k : Nat) : BitVec 32 :=
  BitVec.allOnes 32 <<< (32 - 8 * k)

variable {addr : BitVec 32} {os : List Nat} {x : Nat}

theorem value_octetosIp (addr : BitVec 32) : value 8 (octetosIp addr) = addr.toNat := by
  simp only [octetosIp, value, List.length_cons, List.length_nil]
  omega

theorem fits_octetosIp (addr : BitVec 32) : Fits 8 (octetosIp addr) := by
  have hlt := addr.isLt
  intro x hx
  simp only [octetosIp, List.mem_cons, List.not_mem_nil, or_false] at hx
  omega

theorem length_octetosIp (addr : BitVec 32) : (octetosIp addr).length = 4 :=
  rfl

/-- The octets of a word take no more than its first bits. -/
theorem toNat_junta (hlen : os.length ≤ 4) (hos : Fits 8 os) :
    (junta os).toNat = value 8 os * 2 ^ (32 - 8 * os.length) := by
  have hlt := value_lt hos
  have hsplit : (2 : Nat) ^ 32 = 2 ^ (8 * os.length) * 2 ^ (32 - 8 * os.length) := by
    rw [← Nat.pow_add]
    congr 1
    omega
  rw [junta, BitVec.toNat_ofNat, Nat.mod_eq_of_lt]
  rw [hsplit]
  exact Nat.mul_lt_mul_of_pos_right hlt (Nat.two_pow_pos _)

/-- An octet more. -/
theorem junta_append (hlen : os.length ≤ 3) (hos : Fits 8 os) (hx : x < 256) :
    junta os ||| BitVec.ofNat 32 x <<< (24 - 8 * os.length) = junta (os ++ [x]) := by
  have hos' : Fits 8 (os ++ [x]) := by
    intro y hy
    rcases List.mem_append.mp hy with hy | hy
    · exact hos y hy
    · rw [List.mem_singleton.mp hy]
      exact hx
  have hlen' : (os ++ [x]).length ≤ 4 := by
    rw [List.length_append, List.length_singleton]
    omega
  have hexp : 32 - 8 * os.length = 8 + (24 - 8 * os.length) := by omega
  have hexp' : 32 - 8 * (os ++ [x]).length = 24 - 8 * os.length := by
    rw [List.length_append, List.length_singleton]
    omega
  have hshift : x <<< (24 - 8 * os.length) < 2 ^ 32 := by
    rw [Nat.shiftLeft_eq]
    calc x * 2 ^ (24 - 8 * os.length)
        < 256 * 2 ^ (24 - 8 * os.length) := Nat.mul_lt_mul_of_pos_right hx (Nat.two_pow_pos _)
      _ ≤ 256 * 2 ^ 24 := Nat.mul_le_mul_left _ (Nat.pow_le_pow_right (by decide) (by omega))
  apply BitVec.eq_of_toNat_eq
  rw [BitVec.toNat_or, toNat_junta (by omega) hos, toNat_junta hlen' hos',
    BitVec.toNat_shiftLeft, BitVec.toNat_ofNat, Nat.mod_eq_of_lt (hx.trans (by decide)),
    Nat.mod_eq_of_lt hshift, hexp', hexp, Nat.pow_add, ← Nat.mul_assoc,
    ← Nat.shiftLeft_eq _ (_ - _), ← Nat.shiftLeft_or_distrib, ← Nat.shiftLeft_eq _ 8,
    ← Nat.shiftLeft_add_eq_or_of_lt hx, Nat.shiftLeft_eq, Nat.shiftLeft_eq, value_append]
  simp [value]

/-- The first octets of an address. -/
theorem value_take {k : Nat} (hk : k ≤ 4) :
    value 8 ((octetosIp addr).take k) = addr.toNat / 2 ^ (32 - 8 * k) := by
  have happend := value_append (w := 8) ((octetosIp addr).take k) ((octetosIp addr).drop k)
  rw [List.take_append_drop, value_octetosIp, List.length_drop, length_octetosIp] at happend
  have hfits : Fits 8 ((octetosIp addr).drop k) := fun x hx ↦
    fits_octetosIp addr x (List.mem_of_mem_drop hx)
  have hlt := value_lt hfits
  rw [List.length_drop, length_octetosIp] at hlt
  have hexp : 32 - 8 * k = 8 * (4 - k) := by omega
  rw [happend, hexp, Nat.mul_comm, Nat.mul_add_div (Nat.two_pow_pos _), Nat.div_eq_of_lt hlt,
    Nat.add_zero]

/-- An address agrees with some octets just when they are its first ones. -/
theorem and_mascara (hlen : os.length ≤ 4) (hos : Fits 8 os) :
    addr &&& mascara os.length = junta os ↔ (octetosIp addr).take os.length = os := by
  have hand : addr &&& mascara os.length =
      (addr >>> (32 - 8 * os.length)) <<< (32 - 8 * os.length) := by
    apply BitVec.eq_of_getLsbD_eq
    intro i hi
    rw [mascara, BitVec.getLsbD_and, BitVec.getLsbD_shiftLeft, BitVec.getLsbD_shiftLeft,
      BitVec.getLsbD_ushiftRight, BitVec.getLsbD_allOnes]
    by_cases hlow : i < 32 - 8 * os.length
    · simp [hlow]
    · have hback : 32 - 8 * os.length + (i - (32 - 8 * os.length)) = i := by omega
      have hin : i - (32 - 8 * os.length) < 32 := by omega
      simp [hi, hlow, hback, hin]
  have htake : ((octetosIp addr).take os.length).length = os.length := by
    rw [List.length_take, length_octetosIp, Nat.min_eq_left hlen]
  have hfits : Fits 8 ((octetosIp addr).take os.length) := fun x hx ↦
    fits_octetosIp addr x (List.mem_of_mem_take hx)
  have hle : addr.toNat / 2 ^ (32 - 8 * os.length) * 2 ^ (32 - 8 * os.length) < 2 ^ 32 :=
    (Nat.div_mul_le_self _ _).trans_lt addr.isLt
  rw [hand, ← value_inj hfits hos htake, value_take hlen, ← BitVec.toNat_inj, toNat_junta hlen hos,
    BitVec.toNat_shiftLeft, BitVec.toNat_ushiftRight, Nat.shiftRight_eq_div_pow, Nat.shiftLeft_eq,
    Nat.mod_eq_of_lt hle, Nat.mul_left_inj (Nat.two_pow_pos _).ne']

/-- The first octets of the word that some octets make. -/
theorem take_octetosIp_junta (hlen : os.length ≤ 4) (hos : Fits 8 os) :
    (octetosIp (junta os)).take os.length = os := by
  refine (value_inj ?_ hos ?_).mp ?_
  · exact fun x hx ↦ fits_octetosIp _ x (List.mem_of_mem_take hx)
  · rw [List.length_take, length_octetosIp, Nat.min_eq_left hlen]
  · rw [value_take hlen, toNat_junta hlen hos, Nat.mul_div_cancel _ (Nat.two_pow_pos _)]

/-- Some octets are in the bits that they take. -/
theorem junta_and_mascara (hlen : os.length ≤ 4) (hos : Fits 8 os) :
    junta os &&& ~~~mascara os.length = 0 := by
  have hin := (and_mascara hlen hos).mpr (take_octetosIp_junta hlen hos)
  calc junta os &&& ~~~mascara os.length
      = junta os &&& mascara os.length &&& ~~~mascara os.length := by rw [hin]
    _ = junta os &&& (mascara os.length &&& ~~~mascara os.length) := BitVec.and_assoc _ _ _
    _ = junta os &&& 0 := by rw [BitVec.and_not_self]
    _ = 0 := BitVec.and_zero

/-! ## Texts -/

/-- The fields of the text of an address. -/
theorem splitOn_textoIp (addr : BitVec 32) :
    (textoIp addr).splitOn '.' = (octetosIp addr).map decimal := by
  refine List.splitOn_intercalate '.' (fun d hd ↦ ?_) (by simp [octetosIp])
  obtain ⟨n, -, rfl⟩ := List.mem_map.mp hd
  exact not_mem_decimal (by decide)

/-- The text of an address is digits and dots. -/
theorem mem_textoIp {c : Char} (h : c ∈ textoIp addr) : c.isDigit = true ∨ c = '.' := by
  simp only [textoIp, octetosIp, List.map_cons, List.map_nil, List.intercalate_cons_cons,
    List.intercalate_singleton, List.mem_append, List.mem_singleton] at h
  have hdigit : ∀ n, c ∈ decimal n → c.isDigit = true := fun n hn ↦ isDigit_of_mem_decimal hn
  tauto

theorem count_textoIp (addr : BitVec 32) : (textoIp addr).count '.' = 3 := by
  have hzero : ∀ n, (decimal n).count '.' = 0 := fun n ↦
    List.count_eq_zero.mpr (not_mem_decimal (by decide))
  simp [textoIp, octetosIp, List.intercalate_cons_cons, hzero]

end Ircd.Addr
