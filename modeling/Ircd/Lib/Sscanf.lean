import Ircd.Lib.CString
import Mathlib.Data.List.DropRight

/-!
# `sscanf`

A format is a list of directives. `sscanf` runs them from the left and stops at the first that does
not match; its values are what it has assigned until then, so that their number is what the function
of the C library returns. `read_short`, `read_skip` and `read_word` run a directive over a text that is
known, and `exists_run_of_length` takes a text apart when enough values have been assigned.
-/

namespace Sscanf

open CString

/-- A directive: white space, other characters, `%hd` into an `unsigned short`, `%*[^c]` and `%ns`. -/
inductive Directive where
  | blanks
  | lit (t : CStr)
  | short
  | skip (c : Char)
  | word (n : Nat)

/-- A value that is assigned. -/
inductive Value where
  | short (n : Nat)
  | word (s : CStr)

/-- A text without its sign, if it has one. -/
def unsigned : CStr → CStr
  | '-' :: s => s
  | '+' :: s => s
  | s => s

/-- The length of the number at the head of a text, and 0 if there is none. -/
def numberLength (s : CStr) : Nat :=
  let cifras := (unsigned s).takeWhile Char.isDigit
  if cifras = [] then 0 else s.length - (unsigned s).length + cifras.length

/-- One directive: what it assigns, and the text behind what it takes. -/
def Directive.read : Directive → CStr → Option (List Value × CStr)
  | blanks, s => some ([], s.dropWhile isSpace)
  | lit t, s => if t.isPrefixOf s then some ([], s.drop t.length) else none
  | short, s =>
      let s := s.dropWhile isSpace
      let n := numberLength s
      if n = 0 then none else some ([.short (atol (s.take n) % 2 ^ 16).toNat], s.drop n)
  | skip c, s => if before s c = [] then none else some ([], s.dropWhile (· != c))
  | word n, s =>
      let s := s.dropWhile isSpace
      let t := (s.takeWhile (!isSpace ·)).take n
      if t = [] then none else some ([.word t], s.drop t.length)

/-- What a format assigns. -/
def sscanf : List Directive → CStr → List Value
  | [], _ => []
  | d :: f, s =>
      match d.read s with
      | some (v, rest) => v ++ sscanf f rest
      | none => []

/-- A format that matches as a whole, and the text behind it. -/
def run : List Directive → CStr → Option (List Value × CStr)
  | [], s => some ([], s)
  | d :: f, s => do
      let (v, rest) ← d.read s
      let (w, rest) ← run f rest
      some (v ++ w, rest)

/-! ## Texts that are known -/

variable {b t rest : CStr} {c : Char} {d : Directive} {f g : List Directive} {s : CStr}
  {v : List Value}

theorem sscanf_cons (h : d.read s = some (v, rest)) : sscanf (d :: f) s = v ++ sscanf f rest := by
  rw [sscanf, h]

theorem blanks_read (s : CStr) : Directive.blanks.read s = some ([], s.dropWhile isSpace) := rfl

/-- White space up to a character that is none. -/
theorem read_blanks (hb : ∀ x ∈ b, isSpace x = true) (hc : isSpace c = false) :
    Directive.blanks.read (b ++ c :: rest) = some ([], c :: rest) := by
  rw [Directive.read, dropWhile_stop rest hb hc]

theorem read_lit (t rest : CStr) : (Directive.lit t).read (t ++ rest) = some ([], rest) := by
  rw [Directive.read, if_pos (List.isPrefixOf_iff_prefix.mpr (List.prefix_append t rest)),
    List.drop_left]

theorem sscanf_blanks (hb : ∀ x ∈ b, isSpace x = true) (hc : isSpace c = false) :
    sscanf (.blanks :: f) (b ++ c :: rest) = sscanf f (c :: rest) :=
  sscanf_cons (read_blanks hb hc)

theorem sscanf_lit (t rest : CStr) : sscanf (.lit t :: f) (t ++ rest) = sscanf f rest :=
  sscanf_cons (read_lit t rest)

/-- `%hd` skips white space itself. -/
theorem sscanf_blanks_short (s : CStr) : sscanf (.blanks :: .short :: f) s = sscanf (.short :: f) s := by
  rw [sscanf_cons (blanks_read s), List.nil_append, sscanf, sscanf, Directive.read,
    Directive.read, List.dropWhile_idempotent]

/-- A number without a sign. -/
theorem read_short {n : Nat} {cifras : CStr} (hb : ∀ x ∈ b, isSpace x = true) (hne : cifras ≠ [])
    (hdigit : ∀ x ∈ cifras, x.isDigit = true) (hn : Nat.ofDigitChars 10 cifras 0 = n)
    (hlt : n < 2 ^ 16) (hc : c.isDigit = false) :
    Directive.short.read (b ++ (cifras ++ c :: rest)) = some ([.short n], c :: rest) := by
  obtain ⟨x, xs, rfl⟩ := List.exists_cons_of_ne_nil hne
  have hx : x.isDigit = true := hdigit x List.mem_cons_self
  have hdrop : (b ++ (x :: xs ++ c :: rest)).dropWhile isSpace = x :: xs ++ c :: rest :=
    dropWhile_stop _ hb (isSpace_of_isDigit hx)
  have hsign : unsigned (x :: xs ++ c :: rest) = x :: xs ++ c :: rest := by
    rw [List.cons_append, unsigned]
    · intro _ h
      rw [(List.cons.inj h).1] at hx
      exact absurd hx (by decide)
    · intro _ h
      rw [(List.cons.inj h).1] at hx
      exact absurd hx (by decide)
  have hlen : numberLength (x :: xs ++ c :: rest) = (x :: xs).length := by
    rw [numberLength, hsign, takeWhile_stop rest hdigit hc, if_neg hne, Nat.sub_self, Nat.zero_add]
  have hval : atol (x :: xs) = n := by
    have hread := @atol_cifras (x :: xs) [] hne hdigit rfl
    rw [List.append_nil, hn] at hread
    omega
  simp only [Directive.read, hdrop, hlen, List.take_left, List.drop_left, hval]
  rw [if_neg (by rw [List.length_cons]; omega)]
  have hmod : ((n : Int) % 2 ^ 16).toNat = n := by omega
  rw [hmod]

/-- A text up to a character that it does not have. -/
theorem read_skip (hne : t ≠ []) (hc : c ∉ t) :
    (Directive.skip c).read (t ++ c :: rest) = some ([], c :: rest) := by
  rw [Directive.read, before_append rest hc, if_neg hne,
    dropWhile_stop rest (bne_of_not_mem hc) (bne_self_eq_false c)]

/-- A word in a text that is not blank. -/
theorem read_word {n : Nat} (hn : 0 < n) (h : ∃ x ∈ s, isSpace x = false) :
    ∃ t rest, (Directive.word n).read s = some ([.word t], rest) := by
  have hne : s.dropWhile isSpace ≠ [] := by
    rw [ne_eq, List.dropWhile_eq_nil_iff]
    obtain ⟨x, hx, hspace⟩ := h
    intro hall
    rw [hall x hx] at hspace
    cases hspace
  obtain ⟨x, xs, hxs⟩ := List.exists_cons_of_ne_nil hne
  have hx : isSpace x = false := by
    have hhead := List.head_dropWhile_not isSpace hne
    simpa only [hxs, List.head_cons] using hhead
  obtain ⟨n, rfl⟩ := Nat.exists_eq_succ_of_ne_zero (Nat.ne_of_gt hn)
  simp only [Directive.read, hxs]
  rw [List.takeWhile_cons_of_pos (by rw [hx]; rfl), List.take_succ_cons, if_neg (List.cons_ne_nil _ _)]
  exact ⟨_, _, rfl⟩

/-! ## Words -/

/-- The width of `%ns`. -/
def Directive.width : Directive → Nat
  | word n => n
  | _ => 0

theorem length_le_width {w : CStr} (h : d.read s = some (v, rest)) (hw : .word w ∈ v) :
    w.length ≤ d.width := by
  cases d with
  | blanks =>
      obtain ⟨rfl, -⟩ := Prod.mk.inj (Option.some.inj h)
      cases hw
  | word n =>
      simp only [Directive.read] at h
      split at h
      · cases h
      · obtain ⟨rfl, -⟩ := Prod.mk.inj (Option.some.inj h)
        rw [Value.word.inj (List.mem_singleton.mp hw)]
        exact List.length_take_le _ _
  | lit t =>
      simp only [Directive.read] at h
      split at h
      · obtain ⟨rfl, -⟩ := Prod.mk.inj (Option.some.inj h)
        cases hw
      · cases h
  | skip c =>
      simp only [Directive.read] at h
      split at h
      · cases h
      · obtain ⟨rfl, -⟩ := Prod.mk.inj (Option.some.inj h)
        cases hw
  | short =>
      simp only [Directive.read] at h
      split at h
      · cases h
      · obtain ⟨rfl, -⟩ := Prod.mk.inj (Option.some.inj h)
        cases List.mem_singleton.mp hw

/-- A word is not longer than the widths of a format. -/
theorem length_word_le {n : Nat} {w : CStr} (hf : ∀ d ∈ f, d.width ≤ n)
    (hw : .word w ∈ sscanf f s) : w.length ≤ n := by
  induction f generalizing s with
  | nil => cases hw
  | cons d f ih =>
      rw [sscanf] at hw
      split at hw
      · next v rest hd =>
          rcases List.mem_append.mp hw with hw | hw
          · exact Nat.le_trans (length_le_width hd hw) (hf d List.mem_cons_self)
          · exact ih (fun e he ↦ hf e (List.mem_cons_of_mem d he)) hw
      · cases hw

/-! ## Texts that match -/

/-- How many values a directive assigns. -/
def Directive.values : Directive → Nat
  | short => 1
  | word _ => 1
  | _ => 0

theorem length_read (h : d.read s = some (v, rest)) : v.length = d.values := by
  cases d with
  | blanks =>
      cases h
      rfl
  | lit t =>
      simp only [Directive.read] at h
      split at h
      · cases h
        rfl
      · cases h
  | skip c | short | word n =>
      simp only [Directive.read] at h
      split at h
      · cases h
      · cases h
        rfl

theorem run_cons {w : List Value} {r : CStr} (h : d.read s = some (v, rest))
    (hrun : run f rest = some (w, r)) : run (d :: f) s = some (v ++ w, r) := by
  rw [run, h]
  show (run f rest).bind _ = _
  rw [hrun]
  rfl

theorem exists_of_run_cons (h : run (d :: f) s = some (v, rest)) :
    ∃ u mid w, d.read s = some (u, mid) ∧ run f mid = some (w, rest) := by
  rw [run] at h
  simp only [Option.bind_eq_bind, Option.bind_eq_some_iff, Option.some.injEq, Prod.mk.injEq] at h
  obtain ⟨⟨u, mid⟩, hd, ⟨w, r⟩, hrun, -, rfl⟩ := h
  exact ⟨u, mid, w, hd, hrun⟩

/-- When a format has assigned more values than its first part has, this part matches. -/
theorem exists_run_of_length (h : (f.map Directive.values).sum < (sscanf (f ++ g) s).length) :
    ∃ v rest, run f s = some (v, rest) := by
  induction f generalizing s with
  | nil => exact ⟨[], s, rfl⟩
  | cons d f ih =>
      rw [List.cons_append, sscanf, List.map_cons, List.sum_cons] at h
      cases hd : d.read s with
      | none =>
          rw [hd] at h
          exact absurd h (Nat.not_lt_zero _)
      | some x =>
          obtain ⟨v, rest⟩ := x
          have hlen := length_read hd
          rw [hd] at h
          simp only [List.length_append] at h
          obtain ⟨w, rest', hrun⟩ := ih (s := rest) (by omega)
          exact ⟨v ++ w, rest', run_cons hd hrun⟩

theorem run_append (h : run (f ++ g) s = some (v, rest)) :
    ∃ w mid w', run f s = some (w, mid) ∧ run g mid = some (w', rest) := by
  induction f generalizing s v with
  | nil => exact ⟨[], s, v, rfl, h⟩
  | cons d f ih =>
      obtain ⟨u, m, x, hd, hrun⟩ := exists_of_run_cons h
      obtain ⟨w, mid, w', hf, hg⟩ := ih hrun
      exact ⟨u ++ w, mid, w', run_cons hd hf, hg⟩

/-- A directive leaves the end of a text. -/
theorem exists_of_read (h : d.read s = some (v, rest)) : ∃ t, s = t ++ rest := by
  cases d with
  | blanks =>
      obtain ⟨-, rfl⟩ := Prod.mk.inj (Option.some.inj h)
      exact ⟨_, List.takeWhile_append_dropWhile.symm⟩
  | lit t =>
      simp only [Directive.read] at h
      split at h
      · obtain ⟨-, rfl⟩ := Prod.mk.inj (Option.some.inj h)
        exact ⟨_, (List.take_append_drop t.length s).symm⟩
      · cases h
  | skip c =>
      simp only [Directive.read] at h
      split at h
      · cases h
      · obtain ⟨-, rfl⟩ := Prod.mk.inj (Option.some.inj h)
        exact ⟨_, List.takeWhile_append_dropWhile.symm⟩
  | short | word n =>
      simp only [Directive.read] at h
      split at h
      · cases h
      · obtain ⟨-, rfl⟩ := Prod.mk.inj (Option.some.inj h)
        obtain ⟨t, ht⟩ := List.drop_suffix _ (s.dropWhile isSpace)
        exact ⟨s.takeWhile isSpace ++ t, by
          rw [List.append_assoc, ht, List.takeWhile_append_dropWhile]⟩

/-- A format leaves the end of a text. -/
theorem exists_of_run (h : run f s = some (v, rest)) : ∃ t, s = t ++ rest := by
  induction f generalizing s v with
  | nil =>
      obtain ⟨-, rfl⟩ := Prod.mk.inj (Option.some.inj h)
      exact ⟨[], rfl⟩
  | cons d f ih =>
      obtain ⟨u, m, x, hd, hrun⟩ := exists_of_run_cons h
      obtain ⟨t, rfl⟩ := exists_of_read hd
      obtain ⟨t', rfl⟩ := ih hrun
      exact ⟨t ++ t', (List.append_assoc _ _ _).symm⟩

/-- A format that ends with a literal. -/
theorem exists_of_run_lit (h : run (f ++ [.lit t]) s = some (v, rest)) : ∃ b, s = b ++ (t ++ rest) := by
  obtain ⟨w, mid, w', hf, hlit⟩ := run_append h
  obtain ⟨b, rfl⟩ := exists_of_run hf
  obtain ⟨u, m, x, hread, hnil⟩ := exists_of_run_cons hlit
  simp only [Directive.read] at hread
  split at hread
  · next hprefix =>
      obtain ⟨r, rfl⟩ := List.isPrefixOf_iff_prefix.mp hprefix
      obtain ⟨-, rfl⟩ := Prod.mk.inj (Option.some.inj hread)
      obtain ⟨-, rfl⟩ := Prod.mk.inj (Option.some.inj hnil)
      rw [List.drop_left]
      exact ⟨b, rfl⟩
  · cases hread

end Sscanf
