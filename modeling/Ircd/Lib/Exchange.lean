import Mathlib.Data.List.Basic
import Mathlib.Data.List.Induction

/-!
# Blocks exchanged in place

A buffer is the list of its elements. `mirror` reverses a part of it by swaps from both ends, and
`exchange` puts two neighbouring blocks of any lengths in the other order by swaps of equal pieces,
without a second buffer. Both are the loops a C program writes; `mirror_append` and
`exchange_append` say what they leave.
-/

namespace Exchange

variable {α : Type*}

/-- The elements at `i` and `j` change places. -/
def swapAt (b : List α) (i j : ℕ) : List α :=
  match b[i]?, b[j]? with
  | some x, some y => (b.set i y).set j x
  | _, _ => b

/-- `for (; i < j; i++, j--)`: the elements from `i` to `j` in reverse order. -/
def mirror (i : ℕ) : ℕ → List α → List α
  | 0, b => b
  | j + 1, b => if i < j + 1 then mirror (i + 1) j (swapAt b i (j + 1)) else b

/-- The `n` elements from `i` on change places with those from `j` on, one by one. -/
def swapBlocks (i j : ℕ) : ℕ → List α → List α
  | 0, b => b
  | n + 1, b => swapAt (swapBlocks i j n b) (i + n) (j + n)

/-- The block of length `l₁` at `i` and the block of length `l₂` behind it change places: as much of
both as the shorter one has is swapped, until one of them is used up. -/
def exchange : ℕ → ℕ → ℕ → ℕ → List α → List α
  | 0, _, _, _, b => b
  | fuel + 1, i, l₁, l₂, b =>
      if min l₁ l₂ = 0 then b else
        exchange fuel (i + min l₁ l₂) (if l₁ < l₂ then l₁ else l₁ - min l₁ l₂)
          (if l₂ < l₁ then l₂ else l₂ - min l₁ l₂) (swapBlocks i (i + l₁) (min l₁ l₂) b)

@[simp] theorem length_swapAt (b : List α) (i j : ℕ) : (swapAt b i j).length = b.length := by
  unfold swapAt
  split
  · rw [List.length_set, List.length_set]
  · rfl

@[simp] theorem length_mirror (i j : ℕ) (b : List α) : (mirror i j b).length = b.length := by
  fun_induction mirror i j b with
  | case1 => rfl
  | case2 i b j h ih => rw [ih, length_swapAt]
  | case3 => rfl

@[simp] theorem length_swapBlocks (i j n : ℕ) (b : List α) :
    (swapBlocks i j n b).length = b.length := by
  induction n with
  | zero => rfl
  | succ n ih => rw [swapBlocks, length_swapAt, ih]

@[simp] theorem length_exchange (n i l₁ l₂ : ℕ) (b : List α) :
    (exchange n i l₁ l₂ b).length = b.length := by
  induction n generalizing i l₁ l₂ b with
  | zero => rfl
  | succ n ih =>
      rw [exchange]
      split
      · rfl
      · rw [ih, length_swapBlocks]

/-- A swap of two elements with `q` between them. -/
theorem swapAt_append (p q r : List α) (x y : α) {i j : ℕ} (hi : i = p.length)
    (hj : j = p.length + q.length + 1) :
    swapAt (p ++ x :: (q ++ y :: r)) i j = p ++ y :: (q ++ x :: r) := by
  subst hi hj
  have hx : (p ++ x :: (q ++ y :: r))[p.length]? = some x := by simp
  have hy : (p ++ x :: (q ++ y :: r))[p.length + q.length + 1]? = some y := by
    rw [List.getElem?_append_right (by omega),
      show p.length + q.length + 1 - p.length = q.length + 1 by omega]
    simp
  simp only [swapAt, hx, hy]
  rw [List.set_append_right _ _ (by omega), Nat.sub_self, List.set_cons_zero,
    List.set_append_right _ _ (by omega),
    show p.length + q.length + 1 - p.length = q.length + 1 by omega, List.set_cons_succ,
    List.set_append_right _ _ (by omega), Nat.sub_self, List.set_cons_zero]

/-- The part between `p` and `r` is reversed. -/
theorem mirror_append (p t r : List α) {i j : ℕ} (hi : i = p.length)
    (hj : j = p.length + t.length - 1) :
    mirror i j (p ++ (t ++ r)) = p ++ (t.reverse ++ r) := by
  induction t using List.bidirectionalRec generalizing p r i j with
  | nil =>
      cases j with
      | zero => rfl
      | succ j => rw [mirror, if_neg (by simp at hj; omega)]; rfl
  | singleton x =>
      cases j with
      | zero => rfl
      | succ j => rw [mirror, if_neg (by simp at hj; omega)]; rfl
  | cons_append x q y ih =>
      obtain ⟨j, rfl⟩ : ∃ k, j = k + 1 := ⟨j - 1, by simp at hj; omega⟩
      simp only [List.length_cons, List.length_append, List.length_nil] at hj
      have hswap : swapAt (p ++ (x :: (q ++ [y]) ++ r)) i (j + 1) = p ++ y :: (q ++ x :: r) := by
        have happ := swapAt_append p q r x y hi (j := j + 1) (by omega)
        simpa using happ
      have hinner := ih (p ++ [y]) (x :: r) (i := i + 1) (j := j) (by simp [hi]) (by simp; omega)
      rw [mirror, if_pos (by omega), hswap]
      simpa using hinner

/-- Two blocks of one length, with `q` between them, change places. -/
theorem swapBlocks_append (p q r : List α) {s t : List α} (h : s.length = t.length) {i j : ℕ}
    (hi : i = p.length) (hj : j = p.length + s.length + q.length) :
    swapBlocks i j s.length (p ++ (s ++ (q ++ (t ++ r)))) = p ++ (t ++ (q ++ (s ++ r))) := by
  induction s using List.reverseRecOn generalizing q r t j with
  | nil =>
      obtain rfl : t = [] := List.eq_nil_of_length_eq_zero h.symm
      rfl
  | append_singleton s x ih =>
      obtain ⟨t, y, rfl⟩ : ∃ t' y, t = t' ++ [y] := by
        cases t using List.reverseRecOn with
        | nil => simp at h
        | append_singleton t y => exact ⟨t, y, rfl⟩
      simp only [List.length_append, List.length_singleton] at h hj
      have hinner := ih (x :: q) (y :: r) (t := t) (j := j) (by omega) (by simp; omega)
      have hswap := swapAt_append (p ++ t) (q ++ s) r x y (i := i + s.length) (j := j + s.length)
        (by simp; omega) (by simp; omega)
      rw [List.length_append, List.length_singleton, swapBlocks]
      simp only [List.append_assoc, List.cons_append, List.nil_append] at hinner hswap ⊢
      rw [hinner, hswap]

theorem exists_append {t : List α} {k : ℕ} (h : k ≤ t.length) :
    ∃ t₁ t₂, t = t₁ ++ t₂ ∧ t₁.length = k :=
  ⟨t.take k, t.drop k, (List.take_append_drop k t).symm, List.length_take_of_le h⟩

/-- There is nothing to exchange with an empty block. -/
theorem exchange_zero (n i l : ℕ) (b : List α) : exchange n i 0 l b = b := by
  cases n with
  | zero => rfl
  | succ n => rw [exchange, if_pos (Nat.zero_min l)]

/-- Two blocks of any lengths change places. -/
theorem exchange_append (p r : List α) {s t : List α} {n i : ℕ} (hi : i = p.length)
    (hn : s.length + t.length ≤ n) :
    exchange n i s.length t.length (p ++ (s ++ (t ++ r))) = p ++ (t ++ (s ++ r)) := by
  induction n generalizing p r s t i with
  | zero =>
      obtain rfl : s = [] := List.eq_nil_of_length_eq_zero (by omega)
      obtain rfl : t = [] := List.eq_nil_of_length_eq_zero (by omega)
      rfl
  | succ n ih =>
      rw [exchange]
      split
      · next hmin =>
          rcases Nat.min_eq_zero_iff.mp hmin with h | h
          · rw [List.eq_nil_of_length_eq_zero h]; rfl
          · rw [List.eq_nil_of_length_eq_zero h]; rfl
      · next hmin =>
          rcases Nat.lt_trichotomy s.length t.length with h | h | h
          · -- the first block changes places with the beginning of the second
            obtain ⟨t, t', rfl, ht⟩ := exists_append (Nat.le_of_lt h)
            have hswap := swapBlocks_append p [] (t' ++ r) ht.symm hi (j := i + s.length)
              (by simp; omega)
            have hrest := ih (p ++ t) r (s := s) (t := t') (i := i + s.length) (by simp; omega)
              (by simp at hn; omega)
            have hlen : (t ++ t').length - s.length = t'.length := by simp; omega
            simp only [List.nil_append, List.append_assoc] at hswap hrest ⊢
            rw [if_pos h, if_neg (by omega), Nat.min_eq_left (Nat.le_of_lt h), hswap, hlen, hrest]
          · have hswap := swapBlocks_append p [] r h hi (j := i + s.length) (by simp; omega)
            simp only [List.nil_append] at hswap
            rw [if_neg (by omega), if_neg (by omega), Nat.min_eq_left (Nat.le_of_eq h), hswap,
              Nat.sub_self, exchange_zero]
          · -- the beginning of the first block changes places with the second
            obtain ⟨s, s', rfl, hs⟩ := exists_append (Nat.le_of_lt h)
            have hswap := swapBlocks_append p s' r hs hi (j := i + (s ++ s').length)
              (by simp; omega)
            have hrest := ih (p ++ t) r (s := s') (t := s) (i := i + t.length) (by simp; omega)
              (by simp at hn; omega)
            have hlen : (s ++ s').length - t.length = s'.length := by simp; omega
            simp only [List.append_assoc] at hrest ⊢
            rw [hs] at hswap hrest
            rw [if_neg (by omega), if_pos h, Nat.min_eq_right (Nat.le_of_lt h), hlen, hswap, hrest]

end Exchange
