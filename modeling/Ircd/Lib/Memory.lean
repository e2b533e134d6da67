import Mathlib.Algebra.Order.Ring.Nat
import Mathlib.Data.List.Basic
import Mathlib.Tactic.Ring

/-!
# Memory of bytes

A memory is the byte at each address. `get` reads a block of bytes and `set` writes one: what was
written is read back (`get_set`), and a block that does not meet the written one is read as before
(`get_set_of_disjoint`). A number of `n` bytes lies in memory in one of two orders, and
`ofBytes_toBytes` is its round trip. An array lies there element by element, and `get_set_elems`
reads one of its elements.
-/

/-- The byte at each address. -/
abbrev Memory := ℕ → UInt8

namespace Memory

variable {m m' : Memory} {a b n x : ℕ} {bs cs : List UInt8}

/-- The `n` bytes from `a` on. -/
def get (m : Memory) (a n : ℕ) : List UInt8 :=
  (List.range n).map fun i ↦ m (a + i)

/-- The memory with `bs` from `a` on. -/
def set (m : Memory) (a : ℕ) (bs : List UInt8) : Memory :=
  fun x ↦ if a ≤ x then (bs[x - a]?).getD (m x) else m x

@[simp] theorem length_get (m : Memory) (a n : ℕ) : (m.get a n).length = n := by
  simp [get]

theorem get_succ (m : Memory) (a n : ℕ) : m.get a (n + 1) = m a :: m.get (a + 1) n := by
  simp [get, List.range_succ_eq_map, Function.comp_def, Nat.add_comm, Nat.add_left_comm]

/-- A byte outside the written block. -/
theorem set_of_outside (m : Memory) (h : x < a ∨ a + bs.length ≤ x) : m.set a bs x = m x := by
  unfold set
  split
  · rw [List.getElem?_eq_none (by omega), Option.getD_none]
  · rfl

/-- A byte of the written block. -/
theorem set_add (m : Memory) (a : ℕ) {i : ℕ} (hi : i < bs.length) :
    m.set a bs (a + i) = bs[i] := by
  have hsub : a + i - a = i := by omega
  rw [set, if_pos (Nat.le_add_right a i), hsub, List.getElem?_eq_getElem hi, Option.getD_some]

/-- A block is read alike from memories that agree on it. -/
theorem get_congr (h : ∀ x, a ≤ x → x < a + n → m x = m' x) : m.get a n = m'.get a n := by
  apply List.map_congr_left
  intro i hi
  have hi := List.mem_range.mp hi
  exact h (a + i) (by omega) (by omega)

/-- What was written is read back. -/
theorem get_set (m : Memory) (a : ℕ) (bs : List UInt8) : (m.set a bs).get a bs.length = bs := by
  apply List.ext_getElem
  · rw [length_get]
  · intro i h₁ h₂
    simp only [get, List.getElem_map, List.getElem_range]
    exact set_add m a h₂

theorem get_set_of_length (m : Memory) (a : ℕ) (h : bs.length = n) :
    (m.set a bs).get a n = bs := by
  subst h
  exact get_set m a bs

/-- A block that does not meet the written one is read as before. -/
theorem get_set_of_disjoint (m : Memory) (h : b + n ≤ a ∨ a + bs.length ≤ b) :
    (m.set a bs).get b n = m.get b n :=
  get_congr fun x _ _ ↦ set_of_outside m (by omega)

/-- Two blocks, one behind the other, are one. -/
theorem set_set_append (m : Memory) (a : ℕ) (bs cs : List UInt8) :
    (m.set a bs).set (a + bs.length) cs = m.set a (bs ++ cs) := by
  funext x
  rcases Nat.lt_or_ge x (a + bs.length) with h | h
  · rw [set_of_outside _ (.inl h)]
    unfold set
    split
    · rw [List.getElem?_append_left (by omega)]
    · rfl
  · have hsub : x - a - bs.length = x - (a + bs.length) := by omega
    have hout : m.set a bs x = m x := set_of_outside m (.inr h)
    rw [set, if_pos h, hout, set, if_pos (by omega), List.getElem?_append_right (by omega), hsub]

/-! ## Arrays -/

/-- The bytes of an array of `k` elements. -/
def elems (f : ℕ → List UInt8) (k : ℕ) : List UInt8 :=
  (List.range k).flatMap f

theorem elems_succ (f : ℕ → List UInt8) (k : ℕ) : elems f (k + 1) = elems f k ++ f k := by
  simp [elems, List.range_succ]

theorem length_elems {f : ℕ → List UInt8} (hf : ∀ i, (f i).length = n) (k : ℕ) :
    (elems f k).length = n * k := by
  induction k with
  | zero => rfl
  | succ k ih => rw [elems_succ, List.length_append, ih, hf, Nat.mul_succ]

/-- One element of a written array. -/
theorem get_set_elems {f : ℕ → List UInt8} (hf : ∀ i, (f i).length = n) (m : Memory) (a : ℕ)
    {i k : ℕ} (hi : i < k) : (m.set a (elems f k)).get (a + n * i) n = f i := by
  induction k with
  | zero => exact absurd hi (Nat.not_lt_zero i)
  | succ k ih =>
      have hlen := length_elems hf k
      rw [elems_succ, ← set_set_append, hlen]
      rcases Nat.lt_succ_iff_lt_or_eq.mp hi with hlt | rfl
      · have hle : n * (i + 1) ≤ n * k := Nat.mul_le_mul_left n hlt
        rw [Nat.mul_succ] at hle
        rw [get_set_of_disjoint _ (by omega), ih hlt]
      · exact get_set_of_length _ _ (hf i)

/-! ## Numbers -/

/-- The order of the bytes of a number. -/
inductive Order
  | little
  | big
deriving DecidableEq

/-- The `n` low bytes of a number, the lowest first. -/
def toLittle : ℕ → ℕ → List UInt8
  | 0, _ => []
  | n + 1, v => UInt8.ofNat v :: toLittle n (v / 256)

/-- The number that bytes are, the lowest first. -/
def ofLittle : List UInt8 → ℕ
  | [] => 0
  | b :: bs => b.toNat + 256 * ofLittle bs

/-- The `n` low bytes of a number. -/
def toBytes : Order → ℕ → ℕ → List UInt8
  | .little, n, v => toLittle n v
  | .big, n, v => (toLittle n v).reverse

/-- The number that bytes are. -/
def ofBytes : Order → List UInt8 → ℕ
  | .little, bs => ofLittle bs
  | .big, bs => ofLittle bs.reverse

@[simp] theorem length_toLittle (n v : ℕ) : (toLittle n v).length = n := by
  induction n generalizing v with
  | zero => rfl
  | succ n ih => simp [toLittle, ih]

@[simp] theorem length_toBytes (o : Order) (n v : ℕ) : (toBytes o n v).length = n := by
  cases o <;> simp [toBytes]

theorem ofLittle_toLittle (n v : ℕ) : ofLittle (toLittle n v) = v % 256 ^ n := by
  induction n generalizing v with
  | zero => simp [toLittle, ofLittle, Nat.mod_one]
  | succ n ih =>
      have hbyte : (UInt8.ofNat v).toNat = v % 256 := UInt8.toNat_ofNat'
      rw [toLittle, ofLittle, ih, hbyte, Nat.pow_succ', Nat.mod_mul]

/-- The round trip of a number. -/
theorem ofBytes_toBytes (o : Order) (n v : ℕ) : ofBytes o (toBytes o n v) = v % 256 ^ n := by
  cases o
  · exact ofLittle_toLittle n v
  · rw [toBytes, ofBytes, List.reverse_reverse, ofLittle_toLittle]

/-- The low bytes come first in the one order. -/
theorem toLittle_add (n k v : ℕ) :
    toLittle (n + k) v = toLittle n v ++ toLittle k (v / 256 ^ n) := by
  induction n generalizing v with
  | zero => simp [toLittle]
  | succ n ih =>
      have hsucc : n + 1 + k = n + k + 1 := by omega
      rw [hsucc, toLittle, toLittle, ih, Nat.div_div_eq_div_mul, Nat.pow_succ']
      rfl

theorem toBytes_little_add (n k v : ℕ) :
    toBytes .little (n + k) v = toBytes .little n v ++ toBytes .little k (v / 256 ^ n) :=
  toLittle_add n k v

/-- The high bytes come first in the other order. -/
theorem toBytes_big_add (n k v : ℕ) :
    toBytes .big (n + k) v = toBytes .big k (v / 256 ^ n) ++ toBytes .big n v := by
  rw [toBytes, toLittle_add, List.reverse_append]
  rfl

/-- The number of the `n` bytes from `a` on. -/
def word (o : Order) (m : Memory) (a n : ℕ) : ℕ :=
  ofBytes o (m.get a n)

/-- The memory with the `n` bytes of a number from `a` on. -/
def setWord (o : Order) (m : Memory) (a n v : ℕ) : Memory :=
  m.set a (toBytes o n v)

theorem word_congr (o : Order) (h : ∀ x, a ≤ x → x < a + n → m x = m' x) :
    word o m a n = word o m' a n :=
  congrArg (ofBytes o) (get_congr h)

/-- A number that was written is read back. -/
theorem word_setWord (o : Order) (m : Memory) (a n v : ℕ) :
    word o (setWord o m a n v) a n = v % 256 ^ n := by
  rw [word, setWord, get_set_of_length m a (length_toBytes o n v), ofBytes_toBytes]

/-- The high bytes of a number that was written come last in the one order. -/
theorem word_little_setWord (m : Memory) (a n k v : ℕ) :
    word .little (setWord .little m a (n + k) v) (a + n) k = v / 256 ^ n % 256 ^ k := by
  have hset := set_set_append m a (toBytes .little n v) (toBytes .little k (v / 256 ^ n))
  rw [length_toBytes] at hset
  rw [word, setWord, toBytes_little_add, ← hset, get_set_of_length _ _ (length_toBytes _ k _),
    ofBytes_toBytes]

/-- The high bytes of a number that was written come first in the other order. -/
theorem word_big_setWord (m : Memory) (a n k v : ℕ) :
    word .big (setWord .big m a (n + k) v) a k = v / 256 ^ n % 256 ^ k := by
  have hset := set_set_append m a (toBytes .big k (v / 256 ^ n)) (toBytes .big n v)
  rw [length_toBytes] at hset
  rw [word, setWord, toBytes_big_add, ← hset, get_set_of_disjoint _ (.inl (Nat.le_refl _)),
    get_set_of_length _ _ (length_toBytes _ k _), ofBytes_toBytes]

theorem word_set_of_disjoint (o : Order) (m : Memory) (h : b + n ≤ a ∨ a + bs.length ≤ b) :
    word o (m.set a bs) b n = word o m b n :=
  congrArg (ofBytes o) (get_set_of_disjoint m h)

theorem setWord_of_outside (o : Order) (m : Memory) {v : ℕ} (h : x < a ∨ a + n ≤ x) :
    setWord o m a n v x = m x :=
  set_of_outside m (by rwa [length_toBytes])

end Memory
