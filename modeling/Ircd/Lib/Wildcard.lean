import Mathlib.Computability.Language
import Mathlib.Data.List.Infix
import Mathlib.Order.Bounds.Basic

/-!
# Wildcard patterns

A pattern is a list of tokens: a literal, one arbitrary letter, or a star for any sequence. Its
language is the product of the languages of its tokens, where letters are compared by their images
under a function `f`. The rules here are what a matcher without backtracking over several stars
rests on: a star keeps what it has matched when letters are put before it (`mem_star_of_suffix`),
so that of the occurrences of a piece between two stars the leftmost can be taken
(`append_mem_star`), and what is left of the string there decides the rest (`Residual`).
-/

namespace Wildcard

variable {α β : Type*}

/-- One place of a pattern. -/
inductive Token (α : Type*) where
  | lit (c : α)
  | one
  | star
  deriving DecidableEq

/-- The strings that one place of a pattern stands for. -/
def Token.lang (f : α → β) : Token α → Language α
  | .lit c => {s | ∃ d, f d = f c ∧ s = [d]}
  | .one => {s | ∃ d, s = [d]}
  | .star => {_s | True}

/-- The language of a pattern. -/
def lang (f : α → β) (p : List (Token α)) : Language α :=
  (p.map (Token.lang f)).prod

variable {f : α → β} {p q : List (Token α)} {s t u : List α} {c d : α}

/-! ## Membership -/

@[simp] theorem mem_nil : s ∈ lang f [] ↔ s = [] := by
  rw [lang, List.map_nil, List.prod_nil, Language.mem_one]

theorem lang_append (f : α → β) (p q : List (Token α)) :
    lang f (p ++ q) = lang f p * lang f q := by
  rw [lang, List.map_append, List.prod_append]
  rfl

theorem lang_cons (f : α → β) (t : Token α) (p : List (Token α)) :
    lang f (t :: p) = t.lang f * lang f p := by
  rw [lang, List.map_cons, List.prod_cons]
  rfl

theorem mem_append : s ∈ lang f (p ++ q) ↔ ∃ y ∈ lang f p, ∃ z ∈ lang f q, y ++ z = s := by
  rw [lang_append, Language.mem_mul]

@[simp] theorem nil_mem_lit : [] ∈ lang f (.lit c :: p) ↔ False := by
  rw [lang_cons, Language.mem_mul]
  constructor
  · rintro ⟨y, ⟨d, -, rfl⟩, z, -, h⟩
    cases h
  · exact False.elim

@[simp] theorem cons_mem_lit : d :: s ∈ lang f (.lit c :: p) ↔ f d = f c ∧ s ∈ lang f p := by
  rw [lang_cons, Language.mem_mul]
  constructor
  · rintro ⟨y, ⟨e, he, rfl⟩, z, hz, h⟩
    obtain ⟨rfl, rfl⟩ := List.cons.inj h
    exact ⟨he, hz⟩
  · rintro ⟨hd, hs⟩
    exact ⟨[d], ⟨d, hd, rfl⟩, s, hs, rfl⟩

@[simp] theorem nil_mem_one : [] ∈ lang f (.one :: p) ↔ False := by
  rw [lang_cons, Language.mem_mul]
  constructor
  · rintro ⟨y, ⟨d, rfl⟩, z, -, h⟩
    cases h
  · exact False.elim

@[simp] theorem cons_mem_one : d :: s ∈ lang f (.one :: p) ↔ s ∈ lang f p := by
  rw [lang_cons, Language.mem_mul]
  constructor
  · rintro ⟨y, ⟨e, rfl⟩, z, hz, h⟩
    obtain ⟨rfl, rfl⟩ := List.cons.inj h
    exact hz
  · intro hs
    exact ⟨[d], ⟨d, rfl⟩, s, hs, rfl⟩

/-- A star leaves any suffix to the rest of the pattern. -/
theorem mem_star : s ∈ lang f (.star :: p) ↔ ∃ t, t <:+ s ∧ t ∈ lang f p := by
  rw [lang_cons, Language.mem_mul]
  constructor
  · rintro ⟨y, -, z, hz, rfl⟩
    exact ⟨z, List.suffix_append y z, hz⟩
  · rintro ⟨z, ⟨y, rfl⟩, hz⟩
    exact ⟨y, trivial, z, hz, rfl⟩

/-- What matches behind a star matches behind more letters. -/
theorem mem_star_of_suffix (h : t <:+ s) (ht : t ∈ lang f (.star :: p)) :
    s ∈ lang f (.star :: p) := by
  obtain ⟨v, hv, hvp⟩ := mem_star.mp ht
  exact mem_star.mpr ⟨v, hv.trans h, hvp⟩

theorem mem_star_of_mem (h : s ∈ lang f p) : s ∈ lang f (.star :: p) :=
  mem_star.mpr ⟨s, List.suffix_refl s, h⟩

/-- Nothing is left for a star at the end of the string. -/
@[simp] theorem nil_mem_star : [] ∈ lang f (.star :: p) ↔ [] ∈ lang f p := by
  refine ⟨fun h ↦ ?_, mem_star_of_mem⟩
  obtain ⟨t, ht, htp⟩ := mem_star.mp h
  exact List.suffix_nil.mp ht ▸ htp

/-- A star takes a letter or ends before it. -/
theorem cons_mem_star :
    d :: s ∈ lang f (.star :: p) ↔ d :: s ∈ lang f p ∨ s ∈ lang f (.star :: p) := by
  constructor
  · intro h
    obtain ⟨t, ht, htp⟩ := mem_star.mp h
    cases List.suffix_cons_iff.mp ht with
    | inl heq => exact .inl (heq ▸ htp)
    | inr hs => exact .inr (mem_star.mpr ⟨t, hs, htp⟩)
  · rintro (h | h)
    · exact mem_star_of_mem h
    · exact mem_star_of_suffix (List.suffix_cons d s) h

/-- A star at the end of a pattern takes what is left. -/
@[simp] theorem mem_singleton_star : s ∈ lang f [.star] :=
  mem_star.mpr ⟨[], List.nil_suffix, mem_nil.mpr rfl⟩

/-- Two stars are one. -/
@[simp] theorem mem_star_star : s ∈ lang f (.star :: .star :: p) ↔ s ∈ lang f (.star :: p) := by
  refine ⟨fun h ↦ ?_, mem_star_of_mem⟩
  obtain ⟨t, ht, htp⟩ := mem_star.mp h
  exact mem_star_of_suffix ht htp

/-- A star may be moved over a place for one letter. -/
theorem mem_star_one : s ∈ lang f (.star :: .one :: p) ↔ s ∈ lang f (.one :: .star :: p) := by
  induction s with
  | nil => simp
  | cons d s ih =>
      rw [cons_mem_star, cons_mem_one, cons_mem_one, ih]
      refine ⟨fun h ↦ ?_, fun h ↦ ?_⟩
      · cases h with
        | inl h => exact mem_star_of_mem h
        | inr h =>
            cases s with
            | nil => cases nil_mem_one.mp h
            | cons e s => exact mem_star_of_suffix (List.suffix_cons e s) (cons_mem_one.mp h)
      · cases s with
        | nil => exact .inl (nil_mem_star.mp h)
        | cons e s =>
            cases cons_mem_star.mp h with
            | inl h => exact .inl h
            | inr h => exact .inr (cons_mem_one.mpr h)

@[simp] theorem nil_mem_star_one : [] ∈ lang f (.star :: .one :: p) ↔ False := by
  rw [mem_star_one, nil_mem_one]

@[simp] theorem cons_mem_star_one :
    d :: s ∈ lang f (.star :: .one :: p) ↔ s ∈ lang f (.star :: p) := by
  rw [mem_star_one, cons_mem_one]

/-- Behind a star one more letter can be left to the star. -/
theorem mem_star_replicate {k : ℕ}
    (h : s ∈ lang f (.star :: (.replicate k .one ++ [.one, .star]))) :
    s ∈ lang f (.star :: (.replicate k .one ++ [.one])) := by
  induction k generalizing s with
  | zero =>
      cases s with
      | nil => exact (nil_mem_star_one.mp h).elim
      | cons d s => exact cons_mem_star_one.mpr mem_singleton_star
  | succ k ih =>
      cases s with
      | nil => exact (nil_mem_star_one.mp h).elim
      | cons d s => exact cons_mem_star_one.mpr (ih (cons_mem_star_one.mp h))

/-! ## Pieces without a star -/

/-- A pattern without a star has strings of one length. -/
theorem length_of_mem (hp : Token.star ∉ p) (h : s ∈ lang f p) : s.length = p.length := by
  induction p generalizing s with
  | nil => simp [mem_nil.mp h]
  | cons t p ih =>
      obtain ⟨ht, hp⟩ := not_or.mp (mt List.mem_cons.mpr hp)
      cases s with
      | nil =>
          cases t with
          | lit c => exact (nil_mem_lit.mp h).elim
          | one => exact (nil_mem_one.mp h).elim
          | star => exact absurd rfl ht
      | cons d s =>
          have hs : s ∈ lang f p := by
            cases t with
            | lit c => exact (cons_mem_lit.mp h).2
            | one => exact cons_mem_one.mp h
            | star => exact absurd rfl ht
          simp [ih hp hs]

/-- A piece at the beginning takes its own letters. -/
theorem append_mem_append {y z : List α} (hp : Token.star ∉ p) (hy : y ∈ lang f p) :
    y ++ z ∈ lang f (p ++ q) ↔ z ∈ lang f q := by
  constructor
  · intro h
    obtain ⟨y', hy', z', hz', heq⟩ := mem_append.mp h
    have hlen : y'.length = y.length := by rw [length_of_mem hp hy, length_of_mem hp hy']
    exact (List.append_inj heq hlen).2 ▸ hz'
  · intro h
    exact mem_append.mpr ⟨y, hy, z, h, rfl⟩

/-- A piece at the end takes its own letters. -/
theorem append_mem_append_right {y z : List α} (hp : Token.star ∉ p) (hz : z ∈ lang f p) :
    y ++ z ∈ lang f (q ++ p) ↔ y ∈ lang f q := by
  constructor
  · intro h
    obtain ⟨y', hy', z', hz', heq⟩ := mem_append.mp h
    have hlen : z'.length = z.length := by rw [length_of_mem hp hz, length_of_mem hp hz']
    exact (List.append_inj' heq hlen).1 ▸ hy'
  · intro h
    exact mem_append.mpr ⟨y, h, z, hz, rfl⟩

/-- The strings of a mirrored pattern are the mirrored strings. -/
theorem reverse_mem (h : s ∈ lang f p) : s.reverse ∈ lang f p.reverse := by
  induction p generalizing s with
  | nil => exact mem_nil.mpr (by rw [mem_nil.mp h, List.reverse_nil])
  | cons t p ih =>
      obtain ⟨y, hy, z, hz, rfl⟩ := mem_append (p := [t]).mp h
      rw [List.reverse_append, List.reverse_cons]
      refine mem_append.mpr ⟨_, ih hz, _, ?_, rfl⟩
      cases t with
      | star => exact mem_singleton_star
      | lit c =>
          have hlen := length_of_mem (p := [Token.lit c]) (by simp) hy
          obtain ⟨d, rfl⟩ := List.length_eq_one_iff.mp hlen
          exact hy
      | one =>
          have hlen := length_of_mem (p := [Token.one]) (by simp) hy
          obtain ⟨d, rfl⟩ := List.length_eq_one_iff.mp hlen
          exact hy

/-- Of the occurrences of a piece between two stars the leftmost can be taken. -/
theorem append_mem_star {y z : List α} (hp : Token.star ∉ p) (hy : y ∈ lang f p) :
    y ++ z ∈ lang f (.star :: (p ++ .star :: q)) ↔ z ∈ lang f (.star :: q) := by
  constructor
  · intro h
    obtain ⟨t, ht, htp⟩ := mem_star.mp h
    obtain ⟨y', hy', z', hz', rfl⟩ := mem_append.mp htp
    -- another occurrence has the same length, so that what follows it is a suffix of `z`
    have hsuf : z' <:+ y ++ z := (List.suffix_append y' z').trans ht
    have hlen := ht.length_le
    simp only [List.length_append, length_of_mem hp hy, length_of_mem hp hy'] at hlen
    exact mem_star_of_suffix (List.suffix_of_suffix_length_le hsuf (List.suffix_append y z)
      (by omega)) hz'
  · intro h
    exact mem_star_of_mem (mem_append.mpr ⟨y, hy, z, h, rfl⟩)

/-- A pattern up to its first star. -/
def upToStar : List (Token α) → List (Token α)
  | [] => []
  | .star :: _ => [.star]
  | t :: p => t :: upToStar p

theorem upToStar_append (hp : Token.star ∉ p) (q : List (Token α)) :
    upToStar (p ++ q) = p ++ upToStar q := by
  induction p with
  | nil => rfl
  | cons t p ih =>
      obtain ⟨ht, htail⟩ := not_or.mp (mt List.mem_cons.mpr hp)
      cases t with
      | star => exact absurd rfl ht
      | lit c => simp [upToStar, ih htail]
      | one => simp [upToStar, ih htail]

theorem upToStar_eq_self (hp : Token.star ∉ p) : upToStar p = p := by
  simpa [upToStar] using upToStar_append hp []

/-- A part of a pattern may be replaced by one that matches more. -/
theorem mem_append_mono {r : List (Token α)} (h : ∀ z, z ∈ lang f q → z ∈ lang f r)
    (hs : s ∈ lang f (p ++ q)) : s ∈ lang f (p ++ r) := by
  obtain ⟨y, hy, z, hz, rfl⟩ := mem_append.mp hs
  exact mem_append.mpr ⟨y, hy, z, h z hz, rfl⟩

theorem mem_append_congr {r : List (Token α)} (h : ∀ z, z ∈ lang f q ↔ z ∈ lang f r) :
    s ∈ lang f (p ++ q) ↔ s ∈ lang f (p ++ r) :=
  ⟨mem_append_mono fun z ↦ (h z).mp, mem_append_mono fun z ↦ (h z).mpr⟩

/-- A pattern that goes on matches less than one that goes on with a star. -/
theorem mem_append_star (h : s ∈ lang f (p ++ q)) : s ∈ lang f (p ++ [.star]) :=
  mem_append_mono (fun _ _ ↦ mem_singleton_star) h

/-- What follows the first star of a pattern only restricts what it matches. -/
theorem mem_upToStar (h : s ∈ lang f p) : s ∈ lang f (upToStar p) := by
  induction p generalizing s with
  | nil => exact h
  | cons t p ih =>
      cases t with
      | star => exact mem_singleton_star
      | lit c =>
          cases s with
          | nil => exact (nil_mem_lit.mp h).elim
          | cons d s =>
              obtain ⟨hd, hs⟩ := cons_mem_lit.mp h
              exact cons_mem_lit.mpr ⟨hd, ih hs⟩
      | one =>
          cases s with
          | nil => exact (nil_mem_one.mp h).elim
          | cons d s => exact cons_mem_one.mpr (ih (cons_mem_one.mp h))

theorem mem_append_upToStar (h : s ∈ lang f (p ++ q)) : s ∈ lang f (p ++ upToStar q) :=
  mem_append_mono (fun _ ↦ mem_upToStar) h

/-! ## The shortest string -/

/-- The number of letters that a pattern asks for. -/
def minLength : List (Token α) → Nat
  | [] => 0
  | .star :: p => minLength p
  | _ :: p => minLength p + 1

/-- Literals and places for a letter `x`. -/
def shortest (x : α) : List (Token α) → List α
  | [] => []
  | .star :: p => shortest x p
  | .one :: p => x :: shortest x p
  | .lit c :: p => c :: shortest x p

theorem minLength_append (p q : List (Token α)) :
    minLength (p ++ q) = minLength p + minLength q := by
  induction p with
  | nil => simp [minLength]
  | cons t p ih => cases t <;> simp only [List.cons_append, minLength, ih] <;> omega

theorem minLength_eq_length (hp : Token.star ∉ p) : minLength p = p.length := by
  induction p with
  | nil => rfl
  | cons t p ih =>
      obtain ⟨ht, htail⟩ := not_or.mp (mt List.mem_cons.mpr hp)
      cases t with
      | star => exact absurd rfl ht
      | lit c => simp [minLength, ih htail]
      | one => simp [minLength, ih htail]

/-- Every string of the language has the letters that the pattern asks for. -/
theorem minLength_le (h : s ∈ lang f p) : minLength p ≤ s.length := by
  induction p generalizing s with
  | nil => exact Nat.zero_le _
  | cons t p ih =>
      cases t with
      | star =>
          obtain ⟨t, ht, htp⟩ := mem_star.mp h
          exact (ih htp).trans ht.length_le
      | lit c =>
          cases s with
          | nil => exact (nil_mem_lit.mp h).elim
          | cons d s => exact Nat.succ_le_succ (ih (cons_mem_lit.mp h).2)
      | one =>
          cases s with
          | nil => exact (nil_mem_one.mp h).elim
          | cons d s => exact Nat.succ_le_succ (ih (cons_mem_one.mp h))

theorem shortest_mem (f : α → β) (x : α) (p : List (Token α)) : shortest x p ∈ lang f p := by
  induction p with
  | nil => exact mem_nil.mpr rfl
  | cons t p ih =>
      cases t with
      | lit c => exact cons_mem_lit.mpr ⟨rfl, ih⟩
      | one => exact cons_mem_one.mpr ih
      | star => exact mem_star_of_mem ih

theorem mem_shortest {x : α} (h : c ∈ shortest x p) : c = x ∨ .lit c ∈ p := by
  induction p with
  | nil => cases h
  | cons t p ih =>
      cases t with
      | star => exact (ih h).imp_right (List.mem_cons_of_mem _)
      | one =>
          rcases List.mem_cons.mp h with rfl | h
          · exact .inl rfl
          · exact (ih h).imp_right (List.mem_cons_of_mem _)
      | lit d =>
          rcases List.mem_cons.mp h with rfl | h
          · exact .inr List.mem_cons_self
          · exact (ih h).imp_right (List.mem_cons_of_mem _)

@[simp] theorem length_shortest (x : α) (p : List (Token α)) :
    (shortest x p).length = minLength p := by
  induction p with
  | nil => rfl
  | cons t p ih => cases t <;> simp [shortest, minLength, ih]

/-! ## What is left of a string -/

/-- The string `u` is what a pattern `p` that ends with a star leaves of `s`: it decides how the
pattern goes on. -/
def Residual (f : α → β) (p : List (Token α)) (s u : List α) : Prop :=
  ∀ q, s ∈ lang f (p ++ q) ↔ u ∈ lang f (.star :: q)

namespace Residual

theorem append_star (h : Residual f p s u) : Residual f (p ++ [.star]) s u := by
  intro q
  rw [List.append_assoc, List.singleton_append, h, mem_star_star]

theorem append_one (h : Residual f p s (d :: u)) : Residual f (p ++ [.one]) s u := by
  intro q
  rw [List.append_assoc, List.singleton_append, h, cons_mem_star_one]

end Residual

end Wildcard
