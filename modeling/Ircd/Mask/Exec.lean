import Mathlib.Order.Bounds.Basic
import Ircd.Mask.Compile

/-!
# Comparison with a compiled mask

`matchexec` compares the head, the mirrored tail and the chunks of a compiled mask with a string.
`trash` is what the string has to spare: it is spent on the characters that the stars take, so that
the chunks are never looked for beyond the place where the rest would no longer fit.
`matchexec_matchcomp` is the agreement with the language of the mask.
-/

namespace Ircd

open CString
open Wildcard

namespace Match

/-! ## The executor -/

/-- Where the comparison of the head ends: with a return, or at the first star with the text left
and the mask after the star. -/
inductive HeadEnd where
  | ret (code : Nat)
  | star (bs b : List Char)

/-- `return ((*b != '\\000') && ((*b++ != 'Z') || (*b != '\\000')))`. -/
def endOfString (b : List Char) : Nat :=
  if peek b ≠ nul ∧ (peek b ≠ 'Z' ∨ peek b.tail ≠ nul) then 1 else 0

/-- The label `tryhead`. -/
def tryhead : List Char → List Char → HeadEnd
  | [], b => .ret (endOfString b)
  | c :: s, b =>
      if toLower c = peek b ∧ c ≠ nul then tryhead s b.tail
      else if c = nul then .ret (endOfString b)
      else if peek b = 'Z' then .star (c :: s) b.tail
      else if peek b = 'A' then tryhead s b.tail
      else .ret 1

/-- The loop behind `trytail` and `trychunk`, `while ((toLower (*s) == *b) && *b)` with both
pointers moving on, taken up again at an `A`. The pointers are left at the characters on which it
stops. -/
def advance : List Char → List Char → List Char × List Char
  | s, [] => (s, [])
  | s, d :: b => if (toLower (peek s) = d ∧ d ≠ nul) ∨ d = 'A' then advance s.tail b else (s, d :: b)

/-- `while ((toLower (*++s) != ch)) if (--trash < 0) return 4`. -/
def seek (ch : Char) : Nat → List Char → Option (Nat × List Char)
  | 0, s => if toLower (peek s) = ch then some (0, s.tail) else none
  | trash + 1, s =>
      if toLower (peek s) = ch then some (trash + 1, s.tail) else seek ch trash s.tail

/-- `while ((ch = *++b))`, at a chunk. Each round takes a character, which bounds the fuel. -/
def chunks : Nat → Nat → List Char → List Char → Nat
  | 0, _, _, _ => 5
  | fuel + 1, trash, s, b =>
      if peek b = nul then 0 else
        match seek (peek b) trash s with
        | none => 4
        | some (trash, bs) =>
            let (s, rest) := advance bs b.tail
            if peek rest = nul then 0
            else if peek rest = 'Z' then chunks fuel trash s rest.tail
            else
              match trash with
              | 0 => 5
              | trash + 1 => chunks fuel trash bs b

/-- The label `trytail`. The tail is compared with the bytes `back` before the terminator, the
nearest first. -/
def trytail (fuel trash : Nat) (back bs b : List Char) : Nat :=
  let (_, rest) := advance back b
  if peek rest ≠ 'Z' then if peek rest ≠ nul then 1 else 0
  else chunks fuel trash bs rest.tail

end Match

open Match in
/-- `matchexec (string, cmask, minlen)`. The memory at `string` goes on behind the terminator, and
`before` are the bytes before it, the nearest first, since the comparison of the tail reads
`string[-1]` where the mask has one star and takes the whole string. -/
def matchexec (before string cmask : List Char) (minlen : Nat) : Nat :=
  match tryhead string cmask with
  | .ret code => code
  | .star bs b =>
      let text := string.takeWhile (· ≠ nul)
      if text.length < minlen then 2
      else trytail (text.length + 1) (text.length - minlen) (text.reverse ++ before) bs b

namespace Match

variable {h mid p q t : List (Token Char)} {c d : Char} {u v w y z after before : List Char}

/-! ## Characters of a compiled mask -/

@[simp] theorem toLower_ne_A (c : Char) : toLower c ≠ 'A' := by
  intro h
  have hup := isUpperCode_toLower c
  rw [h] at hup
  exact absurd hup (by decide)

@[simp] theorem toLower_ne_Z (c : Char) : toLower c ≠ 'Z' := by
  intro h
  have hup := isUpperCode_toLower c
  rw [h] at hup
  exact absurd hup (by decide)

theorem A_ne_nul : 'A' ≠ nul := by decide

theorem Z_ne_nul : 'Z' ≠ nul := by decide

/-- Only the end of a pattern is written as the terminator. -/
theorem peek_code (hp : .lit nul ∉ p) : peek (p.map code) = nul ↔ p = [] := by
  cases p with
  | nil => exact iff_of_true rfl rfl
  | cons x p =>
      refine iff_of_false (fun h ↦ ?_) (by simp)
      cases x with
      | lit c =>
          obtain rfl : c = nul := toLower_eq_nul.mp h
          exact hp List.mem_cons_self
      | one => exact A_ne_nul h
      | star => exact Z_ne_nul h

@[simp] theorem peek_nil : peek [] = nul := rfl

/-! ## The head -/

theorem tryhead_memory_nil (b : List Char) : tryhead (memory [] after) b = .ret (endOfString b) := by
  simp [memory, tryhead]

/-- The head of a mask takes its characters off the text, or refuses it. -/
theorem tryhead_append (hh : .star ∉ h) (hlit : .lit nul ∉ h) (hu : nul ∉ u)
    (b after : List Char) :
    (∃ y v, u = y ++ v ∧ y ∈ lang toLower h ∧
      tryhead (memory u after) (h.map code ++ b) = tryhead (memory v after) b) ∨
    (u ∉ lang toLower (h ++ [.star]) ∧ tryhead (memory u after) (h.map code ++ b) = .ret 1) := by
  induction h generalizing u with
  | nil => exact .inl ⟨[], u, rfl, mem_nil.mpr rfl, rfl⟩
  | cons x h ih =>
      obtain ⟨hx, hh⟩ := not_or.mp (mt List.mem_cons.mpr hh)
      obtain ⟨hc, hlit⟩ := not_or.mp (mt List.mem_cons.mpr hlit)
      cases u with
      | nil =>
          refine .inr ?_
          rw [tryhead_memory_nil]
          cases x with
          | star => exact absurd rfl hx
          | lit c =>
              have hcode : toLower c ≠ nul := by
                rintro h
                exact hc (by rw [toLower_eq_nul.mp h])
              simp [code, endOfString, hcode]
          | one => simp [code, endOfString, A_ne_nul]
      | cons d u =>
          obtain ⟨hd, hu⟩ := not_or.mp (mt List.mem_cons.mpr hu)
          -- a token that takes the character leaves the rest to the tokens after it
          have htake (hmem : ∀ p w, d :: w ∈ lang toLower (x :: p) ↔ w ∈ lang toLower p)
              (hstep : tryhead (memory (d :: u) after) ((x :: h).map code ++ b) =
                tryhead (memory u after) (h.map code ++ b)) :
              (∃ y v, d :: u = y ++ v ∧ y ∈ lang toLower (x :: h) ∧
                tryhead (memory (d :: u) after) ((x :: h).map code ++ b) =
                  tryhead (memory v after) b) ∨
              (d :: u ∉ lang toLower (x :: h ++ [.star]) ∧
                tryhead (memory (d :: u) after) ((x :: h).map code ++ b) = .ret 1) := by
            rw [hstep, List.cons_append, hmem]
            rcases ih hh hlit hu with ⟨y, v, rfl, hy, hrun⟩ | hrun
            · exact .inl ⟨d :: y, v, rfl, (hmem h y).mpr hy, hrun⟩
            · exact .inr hrun
          cases x with
          | star => exact absurd rfl hx
          | one => exact htake (fun _ _ ↦ cons_mem_one) (by simp [memory, tryhead, code, Ne.symm hd])
          | lit c =>
              by_cases hdc : toLower d = toLower c
              · exact htake (fun _ _ ↦ by simp [hdc])
                  (by simp [memory, tryhead, code, hdc, Ne.symm hd])
              · exact .inr ⟨by simp [hdc], by simp [memory, tryhead, code, hdc, Ne.symm hd]⟩

/-- A piece of a mask takes its characters off the text, or stops before a star or the end of the
mask. -/
theorem advance_append (hp : .star ∉ p) (hlit : .lit nul ∉ p) (hv : p.length ≤ v.length)
    (w b : List Char) :
    (∃ y z, v = y ++ z ∧ y ∈ lang toLower p ∧
      advance (v ++ w) (p.map code ++ b) = advance (z ++ w) b) ∨
    (v ∉ lang toLower (p ++ [.star]) ∧
      ∃ s d r, advance (v ++ w) (p.map code ++ b) = (s, d :: r) ∧ d ≠ nul ∧ d ≠ 'Z') := by
  induction p generalizing v with
  | nil => exact .inl ⟨[], v, rfl, mem_nil.mpr rfl, rfl⟩
  | cons x p ih =>
      obtain ⟨hx, hp⟩ := not_or.mp (mt List.mem_cons.mpr hp)
      obtain ⟨hc, hlit⟩ := not_or.mp (mt List.mem_cons.mpr hlit)
      obtain ⟨d, v, rfl⟩ : ∃ d v', v = d :: v' := by
        cases v with
        | nil => cases hv
        | cons d v => exact ⟨d, v, rfl⟩
      have htake (hmem : ∀ p w, d :: w ∈ lang toLower (x :: p) ↔ w ∈ lang toLower p)
          (hstep : advance (d :: v ++ w) ((x :: p).map code ++ b) =
            advance (v ++ w) (p.map code ++ b)) :
          (∃ y z, d :: v = y ++ z ∧ y ∈ lang toLower (x :: p) ∧
            advance (d :: v ++ w) ((x :: p).map code ++ b) = advance (z ++ w) b) ∨
          (d :: v ∉ lang toLower (x :: p ++ [.star]) ∧
            ∃ s e r, advance (d :: v ++ w) ((x :: p).map code ++ b) = (s, e :: r) ∧ e ≠ nul ∧
              e ≠ 'Z') := by
        rw [hstep, List.cons_append, hmem]
        rcases ih hp hlit (Nat.le_of_succ_le_succ hv) with ⟨y, z, rfl, hy, hrun⟩ | hrun
        · exact .inl ⟨d :: y, z, rfl, (hmem p y).mpr hy, hrun⟩
        · exact .inr hrun
      cases x with
      | star => exact absurd rfl hx
      | one => exact htake (fun _ _ ↦ cons_mem_one) (by simp [advance, code])
      | lit c =>
          have hcode : toLower c ≠ nul := by
            intro h
            exact hc (by rw [toLower_eq_nul.mp h])
          by_cases hdc : toLower d = toLower c
          · exact htake (fun _ _ ↦ by simp [hdc]) (by simp [advance, code, hdc, hcode])
          · have hstop : advance (d :: v ++ w) ((Token.lit c :: p).map code ++ b) =
                (d :: v ++ w, toLower c :: (p.map code ++ b)) := by
              simp [advance, code, hdc]
            exact .inr ⟨by simp [hdc], _, _, _, hstop, hcode, toLower_ne_Z c⟩

theorem advance_star (s b : List Char) : advance s ('Z' :: b) = (s, 'Z' :: b) := by
  simp [advance]

/-! ## The chunks -/

/-- The place of the first literal of a chunk. -/
theorem chunks_literal (hc : c ≠ nul) (n trash : Nat) (s b : List Char) :
    chunks (n + 1) trash s (toLower c :: b) =
      match seek (toLower c) trash s with
      | none => 4
      | some (trash, bs) =>
          if peek (advance bs b).2 = nul then 0
          else if peek (advance bs b).2 = 'Z' then chunks n trash (advance bs b).1 (advance bs b).2.tail
          else
            match trash with
            | 0 => 5
            | trash + 1 => chunks n trash bs (toLower c :: b) := by
  rw [chunks, if_neg (by simpa using hc)]
  rfl

theorem seek_of_eq {ch : Char} (h : toLower d = ch) (trash : Nat) (s : List Char) :
    seek ch trash (d :: s) = some (trash, s) := by
  cases trash <;> simp [seek, h]

/-- A chunk stands at the beginning of the chunks. -/
theorem Chunks.cases (hq : Chunks q) :
    ∃ c p r, q = .lit c :: (p ++ r) ∧ .star ∉ p ∧ (r = [] ∨ ∃ q', r = .star :: q' ∧ Chunks q') := by
  cases hq with
  | @last c p hp => exact ⟨c, p, [], by simp, hp, .inl rfl⟩
  | @cons c p q hp hq => exact ⟨c, p, _, rfl, hp, .inr ⟨q, rfl, hq⟩⟩

/-- The chunks are found where the text `v`, with exactly `trash` characters to spare, has them. -/
theorem chunks_spec (hq : Chunks q) (hlit : .lit nul ∉ q) (n trash : Nat)
    (hv : v.length = trash + minLength q) (hn : v.length < n) (w : List Char) :
    chunks n trash (v ++ w) (q.map code) = 0 ↔ v ∈ lang toLower (.star :: (q ++ [.star])) := by
  induction hl : v.length using Nat.strong_induction_on generalizing v q n trash with
  | _ l ih =>
  subst hl
  obtain ⟨c, p, r, rfl, hp, hr⟩ := hq.cases
  obtain ⟨hc', hlit'⟩ := not_or.mp (mt List.mem_cons.mpr hlit)
  have hc : c ≠ nul := fun h ↦ hc' (by rw [h])
  obtain ⟨d, v, rfl⟩ : ∃ d v', v = d :: v' := by
    cases v with
    | nil => simp [minLength] at hv
    | cons d v => exact ⟨d, v, rfl⟩
  obtain ⟨n, rfl⟩ : ∃ k, n = k + 1 := ⟨n - 1, by omega⟩
  have hvlen : v.length = trash + (p.length + minLength r) := by
    simp only [minLength, minLength_append, minLength_eq_length hp, List.length_cons] at hv
    omega
  have hlen : v.length < n := by
    simp only [List.length_cons] at hn
    omega
  -- where the chunk does not stand, the character is one of those to spare
  have hshift (hd : d :: v ∉ lang toLower (.lit c :: (p ++ r) ++ [.star])) :
      d :: v ∈ lang toLower (.star :: (.lit c :: (p ++ r) ++ [.star])) ↔
        v ∈ lang toLower (.star :: (.lit c :: (p ++ r) ++ [.star])) := by
    rw [cons_mem_star]
    exact or_iff_right hd
  have hspent (h0 : trash = 0) : v ∉ lang toLower (.star :: (.lit c :: (p ++ r) ++ [.star])) := by
    intro h
    have hmin := minLength_le h
    simp only [minLength, List.cons_append, minLength_append, minLength_eq_length hp] at hmin
    omega
  have hcode : (Token.lit c :: (p ++ r)).map code = toLower c :: (p.map code ++ r.map code) := by
    simp [code]
  have hlitp : .lit nul ∉ p := fun h ↦ hlit' (List.mem_append_left r h)
  rw [hcode]
  by_cases hdc : toLower d = toLower c
  · rw [chunks_literal hc, List.cons_append, seek_of_eq hdc]
    dsimp only
    rcases advance_append hp hlitp (v := v) (by omega) w (r.map code) with
      ⟨y, z, rfl, hy, hrun⟩ | ⟨hnot, s, e, b, hrun, hnul, hZ⟩
    · rw [hrun]
      have hy' : d :: y ∈ lang toLower (.lit c :: p) := cons_mem_lit.mpr ⟨hdc, hy⟩
      have hp' : .star ∉ Token.lit c :: p := by simp [hp]
      rcases hr with rfl | ⟨q', rfl, hq'⟩
      · have hdone : advance (z ++ w) (([] : List (Token Char)).map code) = (z ++ w, []) := by
          cases z <;> cases w <;> rfl
        rw [hdone]
        refine iff_of_true rfl (mem_star_of_mem ?_)
        simpa using (append_mem_append (q := [.star]) hp' hy').mpr mem_singleton_star
      · have hstar : advance (z ++ w) ((Token.star :: q').map code) =
            (z ++ w, 'Z' :: q'.map code) := advance_star _ _
        have hzlen : z.length = trash + minLength q' := by
          simp only [List.length_append, minLength, length_of_mem hp hy] at hvlen
          omega
        have hzlt : z.length < (d :: (y ++ z)).length := by
          simp only [List.length_cons, List.length_append]
          omega
        have hlitq : .lit nul ∉ q' := fun h ↦ hlit' (by simp [h])
        rw [hstar]
        have hrest := ih z.length hzlt hq' hlitq n trash hzlen (by simp at hlen; omega) rfl
        have hleft := append_mem_star (q := q' ++ [.star]) (z := z) hp' hy'
        simp only [peek_cons, Z_ne_nul, if_false, if_true, List.tail_cons]
        rw [hrest, ← hleft]
        simp
    · have hd : d :: v ∉ lang toLower (.lit c :: (p ++ r) ++ [.star]) := by
        intro h
        refine hnot (mem_append_star (q := r ++ [.star]) ?_)
        simpa using (cons_mem_lit.mp h).2
      rw [hrun, hshift hd]
      simp only [peek_cons, hnul, hZ, if_false]
      cases trash with
      | zero => exact iff_of_false (by simp) (hspent rfl)
      | succ trash =>
          have hrest := ih v.length (by simp) hq hlit n trash
            (by simp only [List.length_cons] at hv; omega) hlen rfl
          rw [hcode] at hrest
          exact hrest
  · have hd : d :: v ∉ lang toLower (.lit c :: (p ++ r) ++ [.star]) := by simp [hdc]
    rw [hshift hd]
    cases trash with
    | zero =>
        refine iff_of_false ?_ (hspent rfl)
        rw [chunks_literal hc]
        simp [seek, hdc]
    | succ trash =>
        have hrest := ih v.length (by simp) hq hlit (n + 1) trash
          (by simp only [List.length_cons] at hv; omega) (by omega) rfl
        have hseek : seek (toLower c) (trash + 1) (d :: v ++ w) = seek (toLower c) trash (v ++ w) := by
          simp [seek, hdc]
        rw [hcode] at hrest
        rw [← hrest, chunks_literal hc, chunks_literal hc, hseek]

/-! ## Whole comparisons -/

theorem takeWhile_memory (hu : nul ∉ u) : (memory u after).takeWhile (· ≠ nul) = u := by
  refine takeWhile_stop after (fun x hx ↦ ?_) (by simp)
  have hne : x ≠ nul := fun h ↦ hu (h ▸ hx)
  simpa using hne

/-- A mask without a star. -/
theorem matchexec_plain (hh : .star ∉ h) (hlit : .lit nul ∉ h) (hu : nul ∉ u) (n : Nat) :
    matchexec before (memory u after) (h.map code) n = 0 ↔ u ∈ lang toLower h := by
  have hrun := tryhead_append hh hlit hu [] after
  rw [List.append_nil] at hrun
  unfold matchexec
  rcases hrun with ⟨y, v, rfl, hy, hrun⟩ | ⟨hnot, hrun⟩
  · have hmem : y ++ v ∈ lang toLower h ↔ v = [] := by
      simpa using append_mem_append (q := []) (z := v) hh hy
    rw [hrun, hmem]
    cases v with
    | nil => exact iff_of_true (by simp [memory, tryhead, endOfString]) rfl
    | cons d v =>
        obtain ⟨hd, -⟩ := not_or.mp (mt List.mem_cons.mpr fun h ↦ hu (List.mem_append_right y h))
        refine iff_of_false ?_ (by simp)
        have hstop : tryhead (memory (d :: v) after) [] = .ret 1 := by
          simp [memory, tryhead, Ne.symm hd, Z_ne_nul.symm, A_ne_nul.symm]
        rw [hstop]
        exact Nat.one_ne_zero
  · rw [hrun]
    refine iff_of_false Nat.one_ne_zero fun hmem ↦ hnot (mem_append_star (q := []) ?_)
    rwa [List.append_nil]

/-- The comparison of the tail and the chunks with the text behind the head. -/
theorem trytail_spec (hmid : Middle mid) (hp : .star ∉ p) (hlit : .lit nul ∉ mid ++ .star :: p)
    {n trash : Nat} (hv : v.length = trash + minLength mid + p.length) (hn : v.length < n) :
    trytail n trash (v.reverse ++ before) (memory v after) ((p.reverse ++ mid).map code) = 0 ↔
      v ∈ lang toLower (mid ++ .star :: p) := by
  have hp' : .star ∉ p.reverse := by simpa using hp
  have hlitp : .lit nul ∉ p.reverse := by
    intro h
    exact hlit (by simp [List.mem_reverse.mp h])
  unfold trytail
  rw [List.map_append]
  rcases advance_append hp' hlitp (v := v.reverse) (by simp; omega) before (mid.map code) with
    ⟨y, z, hyz, hy, hrun⟩ | ⟨hnot, s, e, b, hrun, hnul, hZ⟩
  · obtain rfl : v = z.reverse ++ y.reverse := by
      rw [← List.reverse_append, ← hyz, List.reverse_reverse]
    have hyp : y.reverse ∈ lang toLower p := by simpa using reverse_mem hy
    rw [hrun]
    rcases hmid with rfl | ⟨q, rfl, hq⟩
    · have hdone : advance (z ++ before) (([] : List (Token Char)).map code) = (z ++ before, []) := by
        cases z <;> cases before <;> rfl
      rw [hdone]
      exact iff_of_true rfl (mem_star.mpr ⟨y.reverse, List.suffix_append _ _, hyp⟩)
    · have hstar : advance (z ++ before) ((Token.star :: q).map code) =
          (z ++ before, 'Z' :: q.map code) := advance_star _ _
      have hlen : z.reverse.length = trash + minLength q := by
        simp only [List.length_append, List.length_reverse, length_of_mem hp' hy, minLength] at hv
        simp only [List.length_reverse]
        omega
      have hlitq : .lit nul ∉ q := fun h ↦ hlit (by simp [h])
      have hrest := chunks_spec hq hlitq n trash hlen (by simp at hn ⊢; omega)
        (y.reverse ++ nul :: after)
      have hright := append_mem_append_right (q := .star :: (q ++ [.star])) (y := z.reverse) hp hyp
      have hmem : memory (z.reverse ++ y.reverse) after = z.reverse ++ (y.reverse ++ nul :: after) := by
        simp [memory]
      rw [hstar]
      simp only [peek_cons, ne_eq, not_true, if_false, List.tail_cons]
      rw [hmem, hrest, ← hright]
      simp
  · rw [hrun]
    refine iff_of_false (by simp [hnul, hZ]) fun hmem ↦ hnot ?_
    obtain ⟨a, -, b, hb, rfl⟩ := mem_append.mp hmem
    obtain ⟨w, hw, hwp⟩ := mem_star.mp hb
    obtain ⟨x, rfl⟩ := hw
    rw [List.reverse_append, List.reverse_append, List.append_assoc]
    exact mem_append.mpr ⟨_, reverse_mem hwp, _, mem_singleton_star, rfl⟩

theorem minLength_middle (hmid : Middle mid) : minLength mid = 0 ↔ mid = [] := by
  rcases hmid with rfl | ⟨q, rfl, hq⟩
  · exact iff_of_true rfl rfl
  · obtain ⟨c, p, r, rfl, -⟩ := hq.cases
    exact iff_of_false (by simp [minLength]) (by simp)

/-- A mask with a star. -/
theorem matchexec_starred (hh : .star ∉ h) (hmid : Middle mid) (hp : .star ∉ p)
    (hlit : .lit nul ∉ h ++ (mid ++ .star :: p)) (hu : nul ∉ u) :
    matchexec before (memory u after) ((h ++ (.star :: p.reverse ++ mid)).map code)
        (minLength (h ++ (mid ++ .star :: p))) = 0 ↔
      u ∈ lang toLower (h ++ (mid ++ .star :: p)) := by
  have hcode : (h ++ (.star :: p.reverse ++ mid)).map code =
      h.map code ++ 'Z' :: (p.reverse ++ mid).map code := by
    simp [code]
  have hlith : .lit nul ∉ h := fun hm ↦ hlit (List.mem_append_left _ hm)
  have hlitp : .lit nul ∉ mid ++ .star :: p := fun hm ↦ hlit (List.mem_append_right _ hm)
  have hlen : minLength (h ++ (mid ++ .star :: p)) = h.length + (minLength mid + p.length) := by
    simp only [minLength_append, minLength, minLength_eq_length hh, minLength_eq_length hp]
  unfold matchexec
  rw [hcode]
  rcases tryhead_append hh hlith hu ('Z' :: (p.reverse ++ mid).map code) after with
    ⟨y, v, rfl, hy, hrun⟩ | ⟨hnot, hrun⟩
  · rw [hrun, append_mem_append hh hy]
    cases v with
    | nil =>
        have hnul : .lit nul ∉ p.reverse ++ mid := by
          intro hm
          refine hlitp ?_
          simp only [List.mem_append, List.mem_reverse, List.mem_cons] at hm ⊢
          exact hm.elim (fun h ↦ .inr (.inr h)) .inl
        rw [tryhead_memory_nil]
        simp only [endOfString, peek_cons, ne_eq, Z_ne_nul, not_false_eq_true, not_true, false_or,
          true_and, List.tail_cons, peek_code hnul]
        by_cases hnil : p.reverse ++ mid = []
        · obtain ⟨hp, rfl⟩ := List.append_eq_nil_iff.mp hnil
          rw [List.reverse_eq_nil_iff.mp hp]
          simp
        · rw [if_pos hnil]
          refine iff_of_false Nat.one_ne_zero fun hmem ↦ hnil ?_
          have hmin := minLength_le hmem
          rw [minLength_append, minLength, minLength_eq_length hp, List.length_nil] at hmin
          have hmid' := (minLength_middle hmid).mp (by omega)
          have hp' := List.eq_nil_of_length_eq_zero (l := p) (by omega)
          rw [hmid', hp']
          rfl
    | cons d v =>
        obtain ⟨hd, -⟩ := not_or.mp (mt List.mem_cons.mpr fun h ↦ hu (List.mem_append_right y h))
        have hstar (b : List Char) :
            tryhead (memory (d :: v) after) ('Z' :: b) = .star (memory (d :: v) after) b := by
          simp [memory, tryhead, Ne.symm hd]
        rw [hstar]
        simp only [takeWhile_memory hu, hlen, List.length_append, length_of_mem hh hy]
        split
        · next hshort =>
            refine iff_of_false (by simp) fun hmem ↦ ?_
            have hmin := minLength_le hmem
            rw [minLength_append, minLength, minLength_eq_length hp] at hmin
            omega
        · next hlong =>
            rw [List.reverse_append, List.append_assoc]
            exact trytail_spec hmid hp hlitp (by omega) (by omega)
  · rw [hrun]
    refine iff_of_false Nat.one_ne_zero fun hmem ↦ hnot (mem_append_star hmem)

end Match

open Match

/-- A compiled mask matches the strings of the language of the mask, whatever stands before and
behind the string in memory; `minlen` is the length of the shortest of them, and the text written
is not longer than the mask. -/
theorem matchexec_matchcomp (attrib : Char → BitVec 32) (mask string : CStr) (hmask : nul ∉ mask)
    (hstring : nul ∉ string) :
    (∀ before after, matchexec before (memory string after) (matchcomp attrib (some mask)).cmask
        (matchcomp attrib (some mask)).minlen = 0 ↔ string ∈ lang toLower (tokens mask)) ∧
      IsLeast {n | ∃ s, nul ∉ s ∧ s ∈ lang toLower (tokens mask) ∧ s.length = n}
        (matchcomp attrib (some mask)).minlen ∧
      (matchcomp attrib (some mask)).cmask.length ≤ mask.length := by
  obtain ⟨hstored, hmin, hlen⟩ := matchcomp_spec attrib mask
  have hlit := lit_not_mem_tokens hmask
  refine ⟨fun before after ↦ ?_, ?_, hlen⟩
  · generalize (matchcomp attrib (some mask)).cmask = cmask at hstored
    cases hstored with
    | plain hh hlits hlang =>
        rw [matchexec_plain hh (mt hlits hlit) hstring, hlang]
    | starred hh hmid hp hlits hlang hminlen =>
        rw [hmin, ← hminlen, matchexec_starred hh hmid hp (mt hlits hlit) hstring, hlang]
  · rw [hmin]
    constructor
    · refine ⟨shortest 'a' (tokens mask), fun h ↦ ?_, shortest_mem _ _ _, length_shortest _ _⟩
      exact (mem_shortest h).elim (by decide) hlit
    · rintro n ⟨s, -, hs, rfl⟩
      exact minLength_le hs

/-- A mask with a head, a chunk and a tail. -/
theorem matchexec_matchcomp_nick :
    (∀ before after, matchexec before (memory "Ana!ana@alfa.irc".toList after)
        (matchcomp (fun _ ↦ 0) (some "a*!?*@*.irc".toList)).cmask
        (matchcomp (fun _ ↦ 0) (some "a*!?*@*.irc".toList)).minlen = 0 ↔
        "Ana!ana@alfa.irc".toList ∈ lang toLower (tokens "a*!?*@*.irc".toList)) ∧
      IsLeast {n | ∃ s, nul ∉ s ∧ s ∈ lang toLower (tokens "a*!?*@*.irc".toList) ∧ s.length = n}
        (matchcomp (fun _ ↦ 0) (some "a*!?*@*.irc".toList)).minlen ∧
      (matchcomp (fun _ ↦ 0) (some "a*!?*@*.irc".toList)).cmask.length ≤
        "a*!?*@*.irc".toList.length :=
  matchexec_matchcomp (fun _ ↦ 0) _ _ (by decide) (by decide)

end Ircd
