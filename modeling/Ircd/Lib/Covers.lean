import Ircd.Lib.Wildcard
import Mathlib.Data.List.Forall2

/-!
# Patterns that cover patterns

A pattern covers another one when it matches it as a string of tokens: a star takes any tokens, an
arbitrary letter any token that is not a star, and a literal an equal literal. What is covered has
the smaller language (`Covers.mem`), and the relation is a preorder (`Covers.refl`, `Covers.trans`).
The other rules are those of a matcher without backtracking over several stars: of the places for a
piece between two stars the leftmost can be taken (`covers_star_append`).
-/

namespace Wildcard

variable {α β : Type*} {f : α → β} {p p' q q' r : List (Token α)} {x y z : Token α} {s : List α}

/-- A token of a pattern stands for one token of another one. -/
def Token.Meets (f : α → β) : Token α → Token α → Prop
  | .lit c, .lit d => f d = f c
  | .one, .lit _ => True
  | .one, .one => True
  | _, _ => False

/-- The first pattern covers the second one, token by token. -/
inductive Covers (f : α → β) : List (Token α) → List (Token α) → Prop
  | nil : Covers f [] []
  | cons {x y : Token α} {p q : List (Token α)} (h : x.Meets f y) (hpq : Covers f p q) :
      Covers f (x :: p) (y :: q)
  | skip {p q : List (Token α)} (h : Covers f p q) : Covers f (.star :: p) q
  | take {x : Token α} {p q : List (Token α)} (h : Covers f (.star :: p) q) :
      Covers f (.star :: p) (x :: q)

theorem Token.Meets.ne_star (h : x.Meets f y) : x ≠ .star ∧ y ≠ .star := by
  cases x <;> cases y <;> simp_all [Token.Meets]

theorem Token.Meets.refl (hx : x ≠ .star) : x.Meets f x := by
  cases x <;> simp_all [Token.Meets]

theorem Token.Meets.trans (hxy : x.Meets f y) (hyz : y.Meets f z) : x.Meets f z := by
  cases x <;> cases y <;> cases z <;> simp_all [Token.Meets]

/-! ## What is covered -/

/-- The first tokens meet. -/
theorem covers_cons (hx : x ≠ .star) :
    Covers f (x :: p) (y :: q) ↔ x.Meets f y ∧ Covers f p q := by
  constructor
  · intro h
    cases h with
    | cons h hpq => exact ⟨h, hpq⟩
    | skip h => exact absurd rfl hx
    | take h => exact absurd rfl hx
  · rintro ⟨h, hpq⟩
    exact .cons h hpq

theorem covers_nil_left : Covers f [] q ↔ q = [] := by
  constructor
  · intro h
    cases h
    rfl
  · rintro rfl
    exact .nil

/-- A star takes a token or none at all. -/
theorem covers_star_cons :
    Covers f (.star :: p) (y :: q) ↔ Covers f p (y :: q) ∨ Covers f (.star :: p) q := by
  constructor
  · intro h
    cases h with
    | cons h hpq => exact absurd rfl h.ne_star.1
    | skip h => exact .inl h
    | take h => exact .inr h
  · rintro (h | h)
    · exact .skip h
    · exact .take h

/-- What a star covers with less it covers with more. -/
theorem Covers.of_suffix (h : Covers f (.star :: p) q') (hq : q' <:+ q) :
    Covers f (.star :: p) q := by
  obtain ⟨r, rfl⟩ := hq
  induction r with
  | nil => exact h
  | cons x r ih => exact .take ih

theorem covers_star : Covers f (.star :: p) q ↔ ∃ q', q' <:+ q ∧ Covers f p q' := by
  constructor
  · intro h
    generalize hp : Token.star :: p = p' at h
    induction h with
    | nil => cases hp
    | cons h hpq => exact absurd (List.cons.inj hp).1.symm h.ne_star.1
    | @skip p' q h =>
        obtain ⟨-, rfl⟩ := List.cons.inj hp
        exact ⟨q, List.suffix_refl q, h⟩
    | @take x p' q h ih =>
        obtain ⟨q', hq', hcov⟩ := ih hp
        exact ⟨q', hq'.trans (List.suffix_cons x q), hcov⟩
  · rintro ⟨q', hq', h⟩
    exact (Covers.skip h).of_suffix hq'

theorem covers_star_star : Covers f (.star :: .star :: p) q ↔ Covers f (.star :: p) q := by
  refine ⟨fun h ↦ ?_, .skip⟩
  obtain ⟨q', hq', h'⟩ := covers_star.mp h
  exact h'.of_suffix hq'

/-- The rest of a pattern covers a rest. -/
theorem Covers.tail (h : Covers f (x :: p) q) : ∃ q', q' <:+ q ∧ Covers f p q' := by
  cases h with
  | @cons _ y _ q h hpq => exact ⟨q, List.suffix_cons y q, hpq⟩
  | skip h => exact ⟨q, List.suffix_refl q, h⟩
  | take h =>
      obtain ⟨q', hq', hcov⟩ := covers_star.mp h
      exact ⟨q', hq'.trans (List.suffix_cons _ _), hcov⟩

theorem Covers.refl (f : α → β) (p : List (Token α)) : Covers f p p := by
  induction p with
  | nil => exact .nil
  | cons x p ih =>
      by_cases hx : x = .star
      · subst hx
        exact .take (.skip ih)
      · exact .cons (Token.Meets.refl hx) ih

theorem Covers.trans (hpq : Covers f p q) (hqr : Covers f q r) : Covers f p r := by
  induction hpq generalizing r with
  | nil => exact hqr
  | cons h hpq ih =>
      cases hqr with
      | cons h' hqr => exact .cons (h.trans h') (ih hqr)
      | skip h' => exact absurd rfl h.ne_star.2
      | take h' => exact absurd rfl h.ne_star.2
  | skip h ih => exact .skip (ih hqr)
  | take h ih =>
      obtain ⟨r', hr', hcov⟩ := hqr.tail
      exact (ih hcov).of_suffix hr'

/-- A pattern that covers another one has all its strings. -/
theorem Covers.mem (h : Covers f p q) (hs : s ∈ lang f q) : s ∈ lang f p := by
  induction h generalizing s with
  | nil => exact hs
  | @cons x y p q hxy hpq ih =>
      cases x with
      | star => exact absurd rfl hxy.ne_star.1
      | lit c =>
          cases y with
          | lit d =>
              cases s with
              | nil => exact (nil_mem_lit.mp hs).elim
              | cons e s =>
                  obtain ⟨he, hrest⟩ := cons_mem_lit.mp hs
                  exact cons_mem_lit.mpr ⟨he.trans hxy, ih hrest⟩
          | one => exact hxy.elim
          | star => exact hxy.elim
      | one =>
          cases s with
          | nil =>
              cases y with
              | lit d => exact (nil_mem_lit.mp hs).elim
              | one => exact (nil_mem_one.mp hs).elim
              | star => exact hxy.elim
          | cons e s =>
              refine cons_mem_one.mpr (ih ?_)
              cases y with
              | lit d => exact (cons_mem_lit.mp hs).2
              | one => exact cons_mem_one.mp hs
              | star => exact hxy.elim
  | skip h ih => exact mem_star_of_mem (ih hs)
  | @take x p q h ih =>
      rw [lang_cons, Language.mem_mul] at hs
      obtain ⟨y, -, z, hz, rfl⟩ := hs
      exact mem_star_of_suffix (List.suffix_append y z) (ih hz)

/-- A pattern covers no pattern with less tokens than it asks for letters. -/
theorem Covers.minLength_le (h : Covers f p q) : minLength p ≤ q.length := by
  induction h with
  | nil => exact Nat.le_refl _
  | @cons x y p q hxy hpq ih =>
      rw [List.length_cons]
      cases x with
      | star => exact absurd rfl hxy.ne_star.1
      | lit c => exact Nat.succ_le_succ ih
      | one => exact Nat.succ_le_succ ih
  | skip h ih => exact ih
  | take h ih => exact ih.trans (Nat.le_succ _)

/-! ## Pieces between stars -/

/-- A piece without stars stands for as many tokens. -/
theorem covers_append (h : List.Forall₂ (Token.Meets f) p q) :
    Covers f (p ++ p') (q ++ q') ↔ Covers f p' q' := by
  induction h with
  | nil => exact Iff.rfl
  | cons hxy hpq ih =>
      rw [List.cons_append, List.cons_append, covers_cons hxy.ne_star.1, ih]
      exact and_iff_right hxy

/-- The tokens that a piece without stars stands for. -/
theorem Covers.split (hp : Token.star ∉ p) (h : Covers f (p ++ p') r) :
    ∃ q q', r = q ++ q' ∧ List.Forall₂ (Token.Meets f) p q ∧ Covers f p' q' := by
  induction p generalizing r with
  | nil => exact ⟨[], r, rfl, .nil, h⟩
  | cons x p ih =>
      obtain ⟨hx, htail⟩ := not_or.mp (mt List.mem_cons.mpr hp)
      cases h with
      | cons hxy hpq =>
          obtain ⟨q, q', rfl, hforall, hcov⟩ := ih htail hpq
          exact ⟨_, q', rfl, .cons hxy hforall, hcov⟩
      | skip h => exact absurd rfl hx
      | take h => exact absurd rfl hx

theorem star_not_mem_of_forall₂ (h : List.Forall₂ (Token.Meets f) p q) : Token.star ∉ p := by
  induction h with
  | nil => exact List.not_mem_nil
  | cons hxy hpq ih =>
      rw [List.mem_cons]
      exact not_or.mpr ⟨hxy.ne_star.1.symm, ih⟩

/-- The leftmost place for a piece between two stars can be taken. -/
theorem covers_star_append (h : List.Forall₂ (Token.Meets f) p q) :
    Covers f (.star :: (p ++ .star :: p')) (q ++ q') ↔ Covers f (.star :: p') q' := by
  refine ⟨fun hcov ↦ ?_, fun hcov ↦ .skip ((covers_append h).mpr hcov)⟩
  obtain ⟨r, hr, hcov⟩ := covers_star.mp hcov
  obtain ⟨q₂, q₃, rfl, hforall, hrest⟩ := hcov.split (star_not_mem_of_forall₂ h)
  have hlen : q₃.length ≤ q'.length := by
    have h₁ := h.length_eq
    have h₂ := hforall.length_eq
    have h₃ := hr.length_le
    rw [List.length_append, List.length_append] at h₃
    omega
  have hsuffix : q₃ <:+ q ++ q' := (List.suffix_append q₂ q₃).trans hr
  exact hrest.of_suffix (List.suffix_of_suffix_length_le hsuffix (List.suffix_append q q') hlen)

/-- A piece behind a star that does not fit at a place is looked for behind it. -/
theorem covers_star_tail (h : ¬Covers f p (y :: q)) :
    Covers f (.star :: p) (y :: q) ↔ Covers f (.star :: p) q := by
  rw [covers_star_cons]
  exact or_iff_right h

/-! ## A star at the end -/

/-- A last star covers whatever is added. -/
theorem Covers.append_of_star (h : Covers f (p ++ [.star]) q) (r : List (Token α)) :
    Covers f (p ++ [.star]) (q ++ r) := by
  generalize ht : p ++ [Token.star] = t at h ⊢
  induction h generalizing p with
  | nil => simp at ht
  | @cons x y t q hxy hpq ih =>
      cases p with
      | nil => exact absurd (List.cons.inj ht).1.symm hxy.ne_star.1
      | cons z p => exact .cons hxy (ih (List.cons.inj ht).2)
  | @skip t q h ih =>
      cases p with
      | nil =>
          obtain ⟨-, rfl⟩ := List.cons.inj ht
          exact covers_star.mpr ⟨[], List.nil_suffix, .nil⟩
      | cons z p => exact .skip (ih (List.cons.inj ht).2)
  | take h ih => exact .take (ih ht)

/-- A star at the end may take nothing. -/
theorem Covers.append_star (h : Covers f p q) : Covers f (p ++ [.star]) q := by
  induction h with
  | nil => exact .skip .nil
  | cons hxy _ ih => exact .cons hxy ih
  | skip _ ih => exact .skip ih
  | take _ ih => exact .take ih

/-- A star is covered by a star, and what follows the first one by what follows the second one. -/
theorem Covers.star_split (h : Covers f p (q ++ .star :: q')) :
    ∃ p₁ p₂, p = p₁ ++ .star :: p₂ ∧ Covers f (.star :: p₂) q' := by
  generalize ht : q ++ Token.star :: q' = t at h
  induction h generalizing q with
  | nil => simp at ht
  | @cons x y p t hxy hpq ih =>
      cases q with
      | nil => exact absurd (List.cons.inj ht).1.symm hxy.ne_star.2
      | cons z q =>
          obtain ⟨p₁, p₂, rfl, hcov⟩ := ih (List.cons.inj ht).2
          exact ⟨x :: p₁, p₂, rfl, hcov⟩
  | @skip p t h ih =>
      obtain ⟨p₁, p₂, rfl, hcov⟩ := ih ht
      exact ⟨.star :: p₁, p₂, rfl, hcov⟩
  | @take x p t h ih =>
      cases q with
      | nil =>
          obtain ⟨-, rfl⟩ := List.cons.inj ht
          exact ⟨[], p, rfl, h⟩
      | cons z q => exact ih (List.cons.inj ht).2

/-- Letters are not covered by literals. -/
theorem Covers.lit_not_mem {k : ℕ} {c : α} (h : Covers f p (.replicate k .one)) : .lit c ∉ p := by
  generalize ht : List.replicate k Token.one = t at h
  induction h generalizing k with
  | nil => exact List.not_mem_nil
  | @cons x y p t hxy hpq ih =>
      cases k with
      | zero => cases ht
      | succ k =>
          obtain ⟨rfl, hrest⟩ := List.cons.inj ht
          rw [List.mem_cons]
          exact not_or.mpr ⟨fun hx ↦ by rw [← hx] at hxy; exact hxy, ih hrest⟩
  | skip h ih =>
      rw [List.mem_cons]
      exact not_or.mpr ⟨by simp, ih ht⟩
  | take h ih =>
      cases k with
      | zero => cases ht
      | succ k => exact ih (List.cons.inj ht).2

/-- A pattern with a star ends in a star with tokens that are not stars behind it. -/
theorem exists_last_star (h : Token.star ∈ p) : ∃ p₁ p₂, p = p₁ ++ .star :: p₂ ∧ .star ∉ p₂ := by
  induction p with
  | nil => cases h
  | cons x p ih =>
      by_cases hp : Token.star ∈ p
      · obtain ⟨p₁, p₂, rfl, hno⟩ := ih hp
        exact ⟨x :: p₁, p₂, rfl, hno⟩
      · obtain hx := (List.mem_cons.mp h).resolve_right hp
        exact ⟨[], p, by rw [← hx]; rfl, hp⟩

end Wildcard
