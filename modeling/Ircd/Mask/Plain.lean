import Ircd.Mask.Reads

/-!
# The language of a mask

`match` decides the language of its mask on every pair of strings where no search behind a star
starts at the end of the string: there it steps over the terminator. `Overruns` says in terms of
the languages of the parts of a mask when this happens, and `ircMatch_exact_iff` that it is the
only thing that goes wrong. The comparison after a star keeps one invariant, that the text left is the
`Residual` of the part of the mask behind it, since each chunk is taken at its leftmost occurrence.
-/

namespace Ircd

open CString
open Wildcard

namespace Match

variable {f : Char → Char} {a p q t : List (Token Char)} {c d : Char} {m r s u v : CStr}

/-! ## Searches from the end of the string -/

/-- A part of a pattern that ends with a star and places for one character. -/
def BehindStar (p : List (Token Char)) : Prop :=
  ∃ q k, p = q ++ .star :: List.replicate k .one

/-- The string ends where the literal `c` behind `p` is looked for, before `q`: either `p` takes
all of it, or `c` is its last character and a literal follows which does not find one, while the
chunk of `c` neither occurs elsewhere nor meets the end of the string at a question mark. -/
def Exhausts (f : Char → Char) (p : List (Token Char)) (c : Char) (q : List (Token Char))
    (s : CStr) : Prop :=
  (s ∈ lang f p ∧ s ∉ lang f (p ++ [.one])) ∨
    (s ∈ lang f (p ++ [.lit c]) ∧ (∃ d q', q = .lit d :: q') ∧
      s ∉ lang f (p ++ .lit c :: upToStar q) ∧
      ∀ q₁ q₂, q = q₁ ++ .one :: q₂ → .star ∉ q₁ → s ∉ lang f (p ++ .lit c :: q₁))

/-- Some search behind a star of the pattern starts at the end of the string. -/
def Overruns (f : Char → Char) (t : List (Token Char)) (s : CStr) : Prop :=
  ∃ p c q, t = p ++ .lit c :: q ∧ BehindStar p ∧ Exhausts f p c q s

/-- A string of the language is found before its end. -/
theorem not_overruns_of_mem (h : s ∈ lang f t) : ¬Overruns f t s := by
  rintro ⟨p, c, q, rfl, ⟨p', k, rfl⟩, hs⟩
  cases hs with
  | inl hs =>
      refine hs.2 ?_
      rw [List.append_assoc, List.cons_append] at h ⊢
      refine mem_append_mono (fun z hz ↦ mem_star_replicate ?_) h
      refine mem_append_mono (p := .star :: .replicate k .one) (fun y hy ↦ ?_) hz
      cases y with
      | nil => exact (nil_mem_lit.mp hy).elim
      | cons d y => exact cons_mem_one.mpr mem_singleton_star
  | inr hs =>
      have hup : s ∈ lang f (p' ++ .star :: .replicate k .one ++ [.lit c] ++ upToStar q) :=
        mem_append_upToStar (by simpa using h)
      exact hs.2.2.1 (by simpa using hup)

/-- The searches of a pattern `t` that goes on behind `a`. -/
def OverrunsFrom (f : Char → Char) (a t : List (Token Char)) (s : CStr) : Prop :=
  ∃ p c q, t = p ++ .lit c :: q ∧ BehindStar (a ++ p) ∧ Exhausts f (a ++ p) c q s

theorem overruns_iff : Overruns f t s ↔ OverrunsFrom f [] t s := Iff.rfl

theorem behindStar_append_star (p : List (Token Char)) : BehindStar (p ++ [.star]) :=
  ⟨p, 0, rfl⟩

@[simp] theorem behindStar_append_one : BehindStar (p ++ [.one]) ↔ BehindStar p := by
  constructor
  · rintro ⟨q, k, h⟩
    cases k with
    | zero => simp at h
    | succ k =>
        rw [List.replicate_succ', ← List.cons_append, ← List.append_assoc] at h
        exact ⟨q, k, (List.append_inj' h rfl).1⟩
  · rintro ⟨q, k, rfl⟩
    exact ⟨q, k + 1, by simp [List.replicate_succ']⟩

@[simp] theorem not_behindStar_append_lit : ¬BehindStar (p ++ [.lit c]) := by
  rintro ⟨q, k, h⟩
  cases k with
  | zero => simp at h
  | succ k =>
      rw [List.replicate_succ', ← List.cons_append, ← List.append_assoc] at h
      cases List.append_inj_right' h rfl

@[simp] theorem not_behindStar_nil : ¬BehindStar [] := by
  rintro ⟨q, k, h⟩
  simp at h

@[simp] theorem not_overrunsFrom_nil : ¬OverrunsFrom f a [] s := by
  rintro ⟨p, c, q, h, -⟩
  simp at h

/-- No search starts at a wildcard. -/
theorem overrunsFrom_cons {x : Token Char} (hx : ∀ c, x ≠ .lit c) :
    OverrunsFrom f a (x :: t) s ↔ OverrunsFrom f (a ++ [x]) t s := by
  constructor
  · rintro ⟨p, c, q, heq, h⟩
    cases p with
    | nil => exact absurd (List.cons.inj heq).1 (hx c)
    | cons y p =>
        obtain ⟨rfl, rfl⟩ := List.cons.inj heq
        exact ⟨p, c, q, rfl, by simpa using h⟩
  · rintro ⟨p, c, q, rfl, h⟩
    exact ⟨x :: p, c, q, rfl, by simpa using h⟩

/-- At a literal a search may start. -/
theorem overrunsFrom_lit :
    OverrunsFrom f a (.lit c :: t) s ↔
      (BehindStar a ∧ Exhausts f a c t s) ∨ OverrunsFrom f (a ++ [.lit c]) t s := by
  constructor
  · rintro ⟨p, d, q, heq, h⟩
    cases p with
    | nil =>
        obtain ⟨hc, rfl⟩ := List.cons.inj heq
        obtain rfl := Token.lit.inj hc
        exact .inl (by simpa using h)
    | cons y p =>
        obtain ⟨rfl, rfl⟩ := List.cons.inj heq
        exact .inr ⟨p, d, q, rfl, by simpa using h⟩
  · rintro (h | ⟨p, d, q, rfl, h⟩)
    · exact ⟨[], c, t, rfl, by simpa using h⟩
    · exact ⟨.lit c :: p, d, q, rfl, by simpa using h⟩

/-- A search is reached where the part of the pattern before it matches. -/
theorem mem_of_overrunsFrom (h : OverrunsFrom f a t s) : s ∈ lang f (a ++ [.star]) := by
  obtain ⟨p, c, q, -, -, hs⟩ := h
  cases hs with
  | inl hs => exact mem_append_star hs.1
  | inr hs =>
      rw [List.append_assoc] at hs
      exact mem_append_star hs.1

/-- Behind a literal the next search comes after the next star. -/
theorem mem_upToStar_of_overrunsFrom (ha : ¬BehindStar a) (h : OverrunsFrom f a t s) :
    s ∈ lang f (a ++ upToStar t) ∧ .star ∈ t := by
  induction t generalizing a with
  | nil => exact absurd h not_overrunsFrom_nil
  | cons x t ih =>
      cases x with
      | star =>
          have hmem := mem_of_overrunsFrom ((overrunsFrom_cons (by simp)).mp h)
          rw [List.append_assoc] at hmem
          exact ⟨mem_append_star hmem, List.mem_cons_self⟩
      | one =>
          obtain ⟨hmem, hstar⟩ := ih (by simpa using ha) ((overrunsFrom_cons (by simp)).mp h)
          exact ⟨by simpa [upToStar] using hmem, List.mem_cons_of_mem _ hstar⟩
      | lit c =>
          cases overrunsFrom_lit.mp h with
          | inl h => exact absurd h.1 ha
          | inr h =>
              obtain ⟨hmem, hstar⟩ := ih not_behindStar_append_lit h
              exact ⟨by simpa [upToStar] using hmem, List.mem_cons_of_mem _ hstar⟩

/-- There is no search in the rest of a chunk. -/
theorem overrunsFrom_chunk (ha : ¬BehindStar a) (hp : .star ∉ p) :
    OverrunsFrom f a (p ++ .star :: q) s ↔ OverrunsFrom f (a ++ (p ++ [.star])) q s := by
  induction p generalizing a with
  | nil => exact overrunsFrom_cons (by simp)
  | cons x p ih =>
      obtain ⟨hx, htail⟩ := not_or.mp (mt List.mem_cons.mpr hp)
      rw [show a ++ (x :: p ++ [.star]) = a ++ [x] ++ (p ++ [.star]) by simp, List.cons_append]
      cases x with
      | star => exact absurd rfl hx
      | one => rw [overrunsFrom_cons (by simp), ih (by simpa using ha) htail]
      | lit c =>
          rw [overrunsFrom_lit, ih not_behindStar_append_lit htail]
          exact or_iff_right fun h ↦ ha h.1

/-- `Exhausts` for the text that is left when the search starts. -/
def Stuck (f : Char → Char) (c : Char) (q : List (Token Char)) (u : CStr) : Prop :=
  u = [] ∨
    (u ∈ lang f [.star, .lit c] ∧ (∃ d q', q = .lit d :: q') ∧
      u ∉ lang f (.star :: .lit c :: upToStar q) ∧
      ∀ q₁ q₂, q = q₁ ++ .one :: q₂ → .star ∉ q₁ → u ∉ lang f (.star :: .lit c :: q₁))

/-- The text left decides whether the search starts at its end. -/
theorem exhausts_iff (h : Residual f p s u) : Exhausts f p c q s ↔ Stuck f c q u := by
  have hp : s ∈ lang f p := by simpa using (h []).mpr mem_singleton_star
  have hone : s ∈ lang f (p ++ [.one]) ↔ u ≠ [] := by
    rw [h]
    cases u <;> simp
  simp only [Exhausts, Stuck, hp, hone, h _, true_and, not_not]

/-! ## Chunks -/

/-- The end of the comparison of a chunk with the text `v` behind its first literal. -/
inductive ChunkEnd (f : Char → Char) (t : List (Token Char)) (v : CStr) : Outcome → Prop
  | accept (ht : .star ∉ t) (hv : v ∈ lang f t) : ChunkEnd f t v .accept
  | reject {q r : List (Token Char)} (ht : t = q ++ .one :: r) (hq : .star ∉ q)
      (hv : v ∈ lang f q) : ChunkEnd f t v .reject
  | retry (hv : v ∉ lang f (upToStar t))
      (hone : ∀ q₁ q₂, t = q₁ ++ .one :: q₂ → .star ∉ q₁ → v ∉ lang f q₁)
      (hnil : v = [] → ∃ d q, t = .lit d :: q) : ChunkEnd f t v .retry
  | star {q : List (Token Char)} {r y z : CStr} (ht : t = q ++ .star :: tokens r)
      (hq : .star ∉ q) (hy : y ∈ lang f q) (hv : v = y ++ z) (hr : nul ∉ r) :
      ChunkEnd f t v (.star (terminated r) (terminated z))

/-- A chunk with one more token that takes one character. -/
theorem ChunkEnd.cons {x : Token Char} {o : Outcome} (hx : x ≠ .star)
    (hd : ∀ p w, d :: w ∈ lang f (x :: p) ↔ w ∈ lang f p) (h : ChunkEnd f t v o) :
    ChunkEnd f (x :: t) (d :: v) o := by
  have hstar {q : List (Token Char)} (hq : .star ∉ q) : .star ∉ x :: q :=
    not_or.mpr ⟨hx.symm, hq⟩ ∘ List.mem_cons.mp
  cases h with
  | accept ht hv => exact .accept (hstar ht) ((hd t v).mpr hv)
  | @reject q₁ q₂ ht hq hv =>
      exact .reject (q := x :: q₁) (by rw [ht]; rfl) (hstar hq) ((hd q₁ v).mpr hv)
  | retry hv hone hnil =>
      refine .retry ?_ ?_ (fun h ↦ by cases h)
      · have hup : upToStar (x :: t) = x :: upToStar t := by
          cases x with
          | star => exact absurd rfl hx
          | one => rfl
          | lit c => rfl
        rw [hup, hd]
        exact hv
      · intro q₁ q₂ heq hq hmem
        cases q₁ with
        | nil => cases mem_nil.mp hmem
        | cons y q₁ =>
            obtain ⟨rfl, rfl⟩ := List.cons.inj heq
            exact hone q₁ q₂ rfl (fun h ↦ hq (List.mem_cons_of_mem _ h)) ((hd q₁ v).mp hmem)
  | @star q r y z ht hq hy hv hr =>
      exact .star (q := x :: q) (y := d :: y) (by rw [ht]; rfl) (hstar hq) ((hd q y).mpr hy)
        (by rw [hv]; rfl) hr

theorem chunk_spec (hf : ∀ c, f c = f nul → c = nul) (hm : nul ∉ m) (hv : nul ∉ v) :
    ∃ o, Checked.chunk f (terminated m) (terminated v) = some o ∧ ChunkEnd f (tokens m) v o := by
  induction m using mask_induction generalizing v with
  | nil =>
      cases v with
      | nil => exact ⟨.accept, rfl, .accept List.not_mem_nil (mem_nil.mpr rfl)⟩
      | cons d v =>
          have hd : d ≠ nul := fun h ↦ hv (h ▸ List.mem_cons_self)
          refine ⟨.retry, by simp [Checked.chunk_nil, hd], .retry (by simp [tokens, upToStar]) ?_ ?_⟩
          · intro q₁ q₂ h
            simp [tokens] at h
          · intro h
            cases h
  | star m ih =>
      exact ⟨_, rfl, .star (q := []) rfl List.not_mem_nil (mem_nil.mpr rfl) rfl
        fun h ↦ hm (List.mem_cons_of_mem _ h)⟩
  | quest m ih =>
      cases v with
      | nil => exact ⟨.reject, rfl, .reject (q := []) rfl List.not_mem_nil (mem_nil.mpr rfl)⟩
      | cons d v =>
          obtain ⟨hd, hv⟩ := not_or.mp (mt List.mem_cons.mpr hv)
          obtain ⟨o, ho, hend⟩ := ih (fun h ↦ hm (List.mem_cons_of_mem _ h)) hv
          refine ⟨o, ?_, hend.cons (by simp) fun p w ↦ cons_mem_one⟩
          simpa [Checked.chunk, Ne.symm hd] using ho
  | lit m c r hlit ih =>
      obtain ⟨hc, hr⟩ := hlit.not_mem hm
      rw [Checked.chunk_literal hlit.terminated hc (terminated_ne_nil r), hlit.tokens_eq]
      cases v with
      | nil =>
          have hne : f nul ≠ f c := fun h ↦ hc (hf c h.symm)
          refine ⟨.retry, by simp [Checked.against, hne], .retry (by simp [upToStar]) ?_ ?_⟩
          · intro q₁ q₂ heq hq hmem
            cases q₁ with
            | nil => cases heq
            | cons y q₁ =>
                obtain ⟨rfl, -⟩ := List.cons.inj heq
                exact nil_mem_lit.mp hmem
          · exact fun _ ↦ ⟨c, tokens r, rfl⟩
      | cons d v =>
          obtain ⟨hd, hv⟩ := not_or.mp (mt List.mem_cons.mpr hv)
          by_cases hdc : f d = f c
          · obtain ⟨o, ho, hend⟩ := ih hr hv
            refine ⟨o, ?_, hend.cons (by simp) fun p w ↦ by simp [hdc]⟩
            simpa [Checked.against, hdc, Ne.symm hd] using ho
          · refine ⟨.retry, by simp [Checked.against, hdc], .retry ?_ ?_ (fun h ↦ by cases h)⟩
            · simp [upToStar, hdc]
            · intro q₁ q₂ heq hq hmem
              cases q₁ with
              | nil => cases heq
              | cons y q₁ =>
                  obtain ⟨rfl, -⟩ := List.cons.inj heq
                  exact hdc (cons_mem_lit.mp hmem).1

/-! ## The search behind a star -/

/-- What the search behind a star for the literal `c`, which `t` follows, comes to in the text
`u`. -/
inductive Sought (f : Char → Char) (c : Char) (t : List (Token Char)) (u : CStr) :
    Option Bool → Prop
  | overrun (h : Stuck f c t u) : Sought f c t u none
  | accept (ht : .star ∉ t) (hu : u ∈ lang f (.star :: .lit c :: t)) :
      Sought f c t u (some true)
  | reject (h : ¬Stuck f c t u) (hu : u ∉ lang f (.star :: .lit c :: upToStar t)) :
      Sought f c t u (some false)
  | star {k : Nat} {q : List (Token Char)} {r z : CStr} (ht : t = q ++ .star :: tokens r)
      (hq : .star ∉ q) (hu : u ∈ lang f (.star :: .lit c :: (q ++ [.star])))
      (hz : ∀ p, u ∈ lang f (.star :: .lit c :: (q ++ .star :: p)) ↔ z ∈ lang f (.star :: p))
      (hr : nul ∉ r) (hnul : nul ∉ z) (hlen : z.length < u.length) (hk : z.length < k) :
      Sought f c t u (Checked.gotStar f k (terminated r) (terminated z))

/-- One more character, where the chunk of `c` does not occur. -/
theorem Sought.cons {o : Option Bool} (hmem : d :: u ∉ lang f (.lit c :: upToStar t))
    (hone : ∀ q₁ q₂, t = q₁ ++ .one :: q₂ → .star ∉ q₁ → d :: u ∉ lang f (.lit c :: q₁))
    (hnil : u = [] → f d = f c ∧ ∃ d q, t = .lit d :: q) (h : Sought f c t u o) :
    Sought f c t (d :: u) o := by
  have hmono (p : List (Token Char)) (h : u ∈ lang f (.star :: p)) :
      d :: u ∈ lang f (.star :: p) := mem_star_of_suffix (List.suffix_cons d u) h
  cases h with
  | overrun h =>
      refine .overrun (.inr ?_)
      have hup {p : List (Token Char)} (hd : d :: u ∉ lang f (.lit c :: p))
          (hu : u ∉ lang f (.star :: .lit c :: p)) :
          d :: u ∉ lang f (.star :: .lit c :: p) := fun h ↦ (cons_mem_star.mp h).elim hd hu
      cases h with
      | inl hu =>
          obtain ⟨hdc, hlit⟩ := hnil hu
          subst hu
          refine ⟨by simp [cons_mem_star, hdc], hlit, hup hmem (by simp), ?_⟩
          exact fun q₁ q₂ ht hq ↦ hup (hone q₁ q₂ ht hq) (by simp)
      | inr hu =>
          obtain ⟨hlast, hlit, hnot, hu⟩ := hu
          exact ⟨hmono _ hlast, hlit, hup hmem hnot,
            fun q₁ q₂ ht hq ↦ hup (hone q₁ q₂ ht hq) (hu q₁ q₂ ht hq)⟩
  | accept ht hu => exact .accept ht (hmono _ hu)
  | reject h hu =>
      refine .reject (fun hstuck ↦ h ?_) fun hd ↦ (cons_mem_star.mp hd).elim hmem hu
      -- the text is not at its end, so that its last character is the one of `d :: u`
      cases hstuck with
      | inl heq => cases heq
      | inr hstuck =>
          obtain ⟨hlast, hlit, hnot, hone⟩ := hstuck
          by_cases hu : u = []
          · exact .inl hu
          · refine .inr ⟨(cons_mem_star.mp hlast).resolve_left ?_, hlit, fun hu ↦ hnot (hmono _ hu),
              fun q₁ q₂ ht hq hu ↦ hone q₁ q₂ ht hq (hmono _ hu)⟩
            simp [hu]
  | @star k q r z ht hq hu hz hr hnul hlen hk =>
      refine .star ht hq (hmono _ hu) (fun p ↦ ?_) hr hnul (Nat.lt_succ_of_lt hlen) hk
      rw [cons_mem_star, hz]
      refine or_iff_right fun hd ↦ hmem ?_
      rw [ht, upToStar_append hq, upToStar, ← List.cons_append]
      exact mem_append_star hd

/-- The search for a literal behind a star. -/
theorem gotStar_literal (hf : ∀ c, f c = f nul → c = nul) (hlit : Literal m c r) (hm : nul ∉ m)
    {n : Nat} (hu : nul ∉ u) (hn : u.length < n) :
    Sought f c (tokens r) u (Checked.gotStar f n (terminated m) (terminated u)) := by
  obtain ⟨hc, hr⟩ := hlit.not_mem hm
  have hterm := hlit.terminated
  have hne := terminated_ne_nil r
  have hskip (s : List Char) :
      Checked.skipWild (terminated m) s = some (some (terminated m, s)) :=
    Checked.skipWild_atLiteral hterm.atLiteral (terminated_ne_nil m) s
  induction u generalizing n with
  | nil =>
      obtain ⟨n, rfl⟩ : ∃ k, n = k + 1 := ⟨n - 1, by omega⟩
      have hsearch : Checked.search f (f c) (terminated []) = none := by
        have hnul : f nul ≠ f c := fun h ↦ hc (hf c h.symm)
        simp [Checked.search, hnul, deref]
      rw [Checked.gotStar_overrun (hskip _) hterm hc hne hsearch]
      exact .overrun (.inl rfl)
  | cons d u ih =>
      obtain ⟨n, rfl⟩ : ∃ k, n = k + 1 := ⟨n - 1, by omega⟩
      obtain ⟨hd, hu⟩ := not_or.mp (mt List.mem_cons.mpr hu)
      simp only [List.length_cons] at hn
      by_cases hdc : f d = f c
      · have hsearch : Checked.search f (f c) (terminated (d :: u)) = some (some (terminated u)) := by
          simp [Checked.search, hdc]
        rw [Checked.gotStar_found (hskip _) hterm hc hne hsearch]
        obtain ⟨o, ho, hend⟩ := chunk_spec hf hr hu
        rw [ho, Option.bind_some]
        have hstart {p : List (Token Char)} (hup : u ∈ lang f p) :
            d :: u ∈ lang f (.star :: .lit c :: p) :=
          mem_star_of_mem (cons_mem_lit.mpr ⟨hdc, hup⟩)
        cases hend with
        | accept ht hv => exact .accept ht (hstart hv)
        | @reject q₁ q₂ ht hq hv =>
            refine .reject ?_ fun hmem ↦ ?_
            · rintro (h | ⟨-, -, -, hone⟩)
              · cases h
              · exact hone q₁ q₂ ht hq (hstart hv)
            · -- the question mark asks for one character more than there is
              have hmin := minLength_le hmem
              rw [ht, upToStar_append hq] at hmin
              have hlen := length_of_mem hq hv
              simp only [minLength, minLength_append, minLength_eq_length hq, upToStar,
                List.length_cons] at hmin
              omega
        | retry hv hone hnil =>
            refine (ih hu (by omega)).cons (by simp [hv]) ?_ fun h ↦ ⟨hdc, hnil h⟩
            exact fun q₁ q₂ ht hq hmem ↦ hone q₁ q₂ ht hq (cons_mem_lit.mp hmem).2
        | @star q r' y z ht hq hy hv hr' =>
            have hlen : z.length ≤ u.length := by simp [hv]
            have hq' : .star ∉ Token.lit c :: q := by simp [hq]
            have hy' : d :: y ∈ lang f (.lit c :: q) := cons_mem_lit.mpr ⟨hdc, hy⟩
            refine .star ht hq (hstart ?_) (fun p ↦ ?_) hr' ?_ (by simp; omega) (by omega)
            · exact hv ▸ mem_append.mpr ⟨y, hy, z, mem_singleton_star, rfl⟩
            · rw [hv]
              exact append_mem_star (q := p) hq' hy'
            · exact fun h ↦ hu (hv ▸ List.mem_append_right y h)
      · have hmem (p : List (Token Char)) : d :: u ∉ lang f (.lit c :: p) := by simp [hdc]
        cases u with
        | nil =>
            have hsearch : Checked.search f (f c) (terminated [d]) = some none := by
              simp [Checked.search, hdc]
            rw [Checked.gotStar_unfound (hskip _) hterm hc hne hsearch]
            refine .reject ?_ (by simp [cons_mem_star, hdc])
            rintro (h | ⟨hlast, -⟩)
            · cases h
            · simp [cons_mem_star, hdc] at hlast
        | cons e u =>
            obtain ⟨he, -⟩ := not_or.mp (mt List.mem_cons.mpr hu)
            have hsearch : Checked.search f (f c) (terminated (d :: e :: u)) =
                Checked.search f (f c) (terminated (e :: u)) := by
              rw [terminated_cons, Checked.search, if_neg hdc]
              simp [Ne.symm he]
            rw [Checked.gotStar_of_search (hskip _) (hskip _) hterm hne hsearch]
            exact (ih hu (by omega)).cons (hmem _) (fun _ _ _ _ ↦ hmem _) fun h ↦ by cases h

/-! ## Whole comparisons -/

/-- What the comparison of a pattern that goes on with `t` behind `a` comes to. -/
inductive Verdict (f : Char → Char) (a t : List (Token Char)) (s : CStr) : Option Bool → Prop
  | overrun (h : OverrunsFrom f a t s) : Verdict f a t s none
  | result {b : Bool} (h : ¬OverrunsFrom f a t s) (hb : b = true ↔ s ∈ lang f (a ++ t)) :
      Verdict f a t s (some b)

/-- One token of the pattern without a search. -/
theorem Verdict.cons {x : Token Char} {o : Option Bool} (hx : ∀ c, x ≠ .lit c)
    (h : Verdict f (a ++ [x]) t s o) : Verdict f a (x :: t) s o := by
  cases h with
  | overrun h => exact .overrun ((overrunsFrom_cons hx).mpr h)
  | result h hb =>
      exact .result (fun h' ↦ h ((overrunsFrom_cons hx).mp h')) (by simpa using hb)

/-- A pattern whose part up to the next star does not match, where no search starts. -/
theorem Verdict.mismatch (ha : ¬BehindStar a) (h : s ∉ lang f (a ++ upToStar t)) :
    Verdict f a t s (some false) := by
  refine .result (fun hover ↦ h (mem_upToStar_of_overrunsFrom ha hover).1) ?_
  exact iff_of_false Bool.false_ne_true fun hs ↦ h (mem_append_upToStar hs)

theorem Stuck.not_mem (h : Stuck f c t u) : u ∉ lang f (.star :: .lit c :: upToStar t) := by
  cases h with
  | inl h => simp [h]
  | inr h => exact h.2.2.1

/-- The comparison after a star keeps the text that is left as the residual of the pattern. -/
theorem gotStar_spec (hf : ∀ c, f c = f nul → c = nul) {n : Nat} (hm : nul ∉ m) (hu : nul ∉ u)
    (hn : u.length < n) (ha : BehindStar a) (hres : Residual f a s u) :
    Verdict f a (tokens m) s (Checked.gotStar f n (terminated m) (terminated u)) := by
  induction hl : u.length using Nat.strong_induction_on generalizing a m n u with
  | _ l ih =>
  replace hl : u.length ≤ l := hl.le
  induction m using mask_induction generalizing a u with
  | nil =>
      obtain ⟨n, rfl⟩ : ∃ k, n = k + 1 := ⟨n - 1, by omega⟩
      rw [Checked.gotStar_end (t := terminated u) rfl]
      exact .result not_overrunsFrom_nil (iff_of_true rfl ((hres []).mpr mem_singleton_star))
  | star m ihm =>
      have hrun := ihm (fun h ↦ hm (List.mem_cons_of_mem _ h)) hu hn (behindStar_append_star a)
        hres.append_star hl
      have hskip : Checked.skipWild (terminated ('*' :: m)) (terminated u) =
          Checked.skipWild (terminated m) (terminated u) := rfl
      rw [Checked.gotStar_congr hskip]
      exact hrun.cons (by simp)
  | quest m ihm =>
      cases u with
      | nil =>
          obtain ⟨n, rfl⟩ : ∃ k, n = k + 1 := ⟨n - 1, by omega⟩
          rw [Checked.gotStar_none rfl]
          refine .result (fun h ↦ ?_) (iff_of_false Bool.false_ne_true fun h ↦ ?_)
          · have hmem := mem_of_overrunsFrom ((overrunsFrom_cons (by simp)).mp h)
            rw [List.append_assoc, hres] at hmem
            exact nil_mem_star_one.mp hmem
          · exact nil_mem_star_one.mp ((hres _).mp h)
      | cons d u =>
          obtain ⟨hd, hu⟩ := not_or.mp (mt List.mem_cons.mpr hu)
          simp only [List.length_cons] at hn hl
          have hrun := ihm (fun h ↦ hm (List.mem_cons_of_mem _ h)) hu (by omega)
            (behindStar_append_one.mpr ha) hres.append_one (by omega)
          have hskip : Checked.skipWild (terminated ('?' :: m)) (terminated (d :: u)) =
              Checked.skipWild (terminated m) (terminated u) := by
            simp [Checked.skipWild, Ne.symm hd]
          rw [Checked.gotStar_congr hskip]
          exact hrun.cons (by simp)
  | lit m c r hlit _ =>
      have hsought := gotStar_literal hf hlit hm hu hn
      rw [hlit.tokens_eq]
      generalize Checked.gotStar f n (terminated m) (terminated u) = o at hsought
      cases hsought with
      | overrun h => exact .overrun (overrunsFrom_lit.mpr (.inl ⟨ha, (exhausts_iff hres).mpr h⟩))
      | accept ht hmem =>
          refine .result (fun h ↦ ?_) (iff_of_true rfl ((hres _).mpr hmem))
          cases overrunsFrom_lit.mp h with
          | inl h =>
              refine ((exhausts_iff hres).mp h.2).not_mem ?_
              rwa [upToStar_eq_self ht]
          | inr h => exact ht (mem_upToStar_of_overrunsFrom not_behindStar_append_lit h).2
      | reject h hmem =>
          refine .result (fun hover ↦ ?_) (iff_of_false Bool.false_ne_true fun hs ↦ ?_)
          · cases overrunsFrom_lit.mp hover with
            | inl hover => exact h ((exhausts_iff hres).mp hover.2)
            | inr hover =>
                have hup := (mem_upToStar_of_overrunsFrom not_behindStar_append_lit hover).1
                rw [List.append_assoc, hres] at hup
                exact hmem hup
          · exact hmem (mem_append_upToStar (p := [.star, .lit c]) ((hres _).mp hs))
      | @star k q r' z ht hq hmem hz hr' hnul hlen hk =>
          have hres' : Residual f (a ++ .lit c :: (q ++ [.star])) s z := by
            intro p
            rw [List.append_assoc, List.cons_append, List.append_assoc, hres, ← hz]
            rfl
          have hbehind : BehindStar (a ++ .lit c :: (q ++ [.star])) := by
            simpa using behindStar_append_star (a ++ .lit c :: q)
          have hrun := ih z.length (by omega) hr' hnul hk hbehind hres' rfl
          have hover : OverrunsFrom f a (.lit c :: tokens r) s ↔
              OverrunsFrom f (a ++ .lit c :: (q ++ [.star])) (tokens r') s := by
            rw [overrunsFrom_lit, ht, overrunsFrom_chunk not_behindStar_append_lit hq,
              List.append_assoc, List.singleton_append]
            refine or_iff_right fun h ↦ ((exhausts_iff hres).mp h.2).not_mem ?_
            rwa [upToStar_append hq]
          generalize Checked.gotStar f k (terminated r') (terminated z) = o at hrun
          cases hrun with
          | overrun h => exact .overrun (hover.mpr h)
          | result h hb =>
              refine .result (fun h' ↦ h (hover.mp h')) ?_
              rw [hb, ht]
              simp

/-- The comparison from the head of the mask on. -/
theorem head_spec (hf : ∀ c, f c = f nul → c = nul) (hm : nul ∉ m) (hu : nul ∉ u)
    (ha : ¬BehindStar a) (hres : ∀ q, s ∈ lang f (a ++ q) ↔ u ∈ lang f q) :
    Verdict f a (tokens m) s (Checked.head f (terminated m) (terminated u)) := by
  induction m using mask_induction generalizing a u with
  | nil =>
      cases u with
      | nil =>
          exact .result not_overrunsFrom_nil (iff_of_true rfl ((hres []).mpr (mem_nil.mpr rfl)))
      | cons d u =>
          obtain ⟨hd, -⟩ := not_or.mp (mt List.mem_cons.mpr hu)
          have hrun : Checked.head f (terminated []) (terminated (d :: u)) = some false := by
            simp [Checked.head_nil, Ne.symm hd]
          rw [hrun]
          exact .mismatch ha fun h ↦ by cases mem_nil.mp ((hres []).mp h)
  | star m ih =>
      have hlen : u.length < (terminated u).length + 1 := by
        rw [terminated, List.length_append, List.length_singleton]
        omega
      have hrun := gotStar_spec hf (fun h ↦ hm (List.mem_cons_of_mem _ h)) hu hlen
        (behindStar_append_star a) (s := s) (fun q ↦ by simpa using hres (.star :: q))
      exact hrun.cons (by simp)
  | quest m ih =>
      cases u with
      | nil => exact .mismatch ha fun h ↦ nil_mem_one.mp ((hres _).mp h)
      | cons d u =>
          obtain ⟨hd, hu⟩ := not_or.mp (mt List.mem_cons.mpr hu)
          have hrun := ih (fun h ↦ hm (List.mem_cons_of_mem _ h)) hu (a := a ++ [.one])
            (by simpa using ha) fun q ↦ by simpa using hres (.one :: q)
          have hstep : Checked.head f (terminated ('?' :: m)) (terminated (d :: u)) =
              Checked.head f (terminated m) (terminated u) := by
            simp [Checked.head, Ne.symm hd]
          rw [hstep]
          exact hrun.cons (by simp)
  | lit m c r hlit ih =>
      obtain ⟨hc, hr⟩ := hlit.not_mem hm
      rw [Checked.head_literal hlit.terminated hc (terminated_ne_nil r), hlit.tokens_eq]
      cases u with
      | nil =>
          have hne : f nul ≠ f c := fun h ↦ hc (hf c h.symm)
          have hrun : Checked.against f (terminated []) c false false
              (Checked.head f (terminated r) (terminated []).tail) = some false := by
            simp [Checked.against, hne]
          rw [hrun]
          exact .mismatch ha fun h ↦ nil_mem_lit.mp ((hres _).mp h)
      | cons d u =>
          obtain ⟨hd, hu⟩ := not_or.mp (mt List.mem_cons.mpr hu)
          by_cases hdc : f d = f c
          · have hstep : Checked.against f (terminated (d :: u)) c false false
                (Checked.head f (terminated r) (terminated (d :: u)).tail) =
                Checked.head f (terminated r) (terminated u) := by
              simp [Checked.against, hdc, Ne.symm hd]
            have hrun := ih hr hu (a := a ++ [.lit c]) not_behindStar_append_lit
              fun q ↦ by simpa [hdc] using hres (.lit c :: q)
            rw [hstep]
            generalize Checked.head f (terminated r) (terminated u) = o at hrun
            cases hrun with
            | overrun h => exact .overrun (overrunsFrom_lit.mpr (.inr h))
            | result h hb =>
                refine .result (fun h' ↦ ?_) (by simpa using hb)
                cases overrunsFrom_lit.mp h' with
                | inl h' => exact ha h'.1
                | inr h' => exact h h'
          · have hstep : Checked.against f (terminated (d :: u)) c false false
                (Checked.head f (terminated r) (terminated (d :: u)).tail) = some false := by
              simp [Checked.against, hdc]
            rw [hstep]
            exact .mismatch ha fun h ↦ hdc (cons_mem_lit.mp ((hres _).mp h)).1

/-- `match` decides the language of the mask: it comes to its end without a read behind one of the
terminators, and whatever follows them in memory it returns 0 on the strings of the language and
on no others. -/
def Exact (mask string : CStr) : Prop :=
  ∃ b, Checked.head toLower (terminated mask) (terminated string) = some b ∧
    (b = true ↔ string ∈ lang toLower (tokens mask)) ∧
    ∀ after, ircMatch mask (memory string after) = b

end Match

open Match

/-- The comparison of two strings in memory. -/
theorem verdict (mask string : CStr) (hmask : nul ∉ mask) (hstring : nul ∉ string) :
    Verdict toLower [] (tokens mask) string
      (Checked.head toLower (terminated mask) (terminated string)) :=
  head_spec (fun _ h ↦ toLower_eq_nul.mp (h.trans (toLower_eq_nul.mpr rfl))) hmask hstring
    not_behindStar_nil fun _ ↦ Iff.rfl

/-- Where no search starts at the end of the string, `match` decides the language. -/
theorem exact_of_not_overruns {mask string : CStr} (hmask : nul ∉ mask) (hstring : nul ∉ string)
    (hover : ¬Overruns toLower (tokens mask) string) : Exact mask string := by
  have hspec := verdict mask string hmask hstring
  generalize hrun : Checked.head toLower (terminated mask) (terminated string) = o at hspec
  cases hspec with
  | overrun h => exact absurd (overruns_iff.mpr h) hover
  | @result b h hb =>
      refine ⟨b, hrun, hb, fun after ↦ ?_⟩
      have hmemory : memory string after = terminated string ++ after := by
        simp [memory, terminated]
      rw [ircMatch, hmemory]
      exact Checked.head_memory hmask hrun

/-- Whatever follows the two strings in memory, `match` returns 0 on the strings of the language. -/
theorem ircMatch_of_mem {mask string : CStr} (hmask : nul ∉ mask) (hstring : nul ∉ string)
    (h : string ∈ lang toLower (tokens mask)) (after : List Char) :
    ircMatch mask (memory string after) = true := by
  obtain ⟨b, -, hb, hmemory⟩ :=
    exact_of_not_overruns hmask hstring (not_overruns_of_mem h)
  rw [hmemory, hb]
  exact h

/-- `match` decides the language of its mask exactly where no search behind a star starts at the
end of the string. -/
theorem ircMatch_exact_iff (mask string : CStr) (hmask : nul ∉ mask) (hstring : nul ∉ string) :
    Exact mask string ↔ ¬Overruns toLower (tokens mask) string := by
  refine ⟨?_, exact_of_not_overruns hmask hstring⟩
  rintro ⟨b, hb, -⟩ hover
  have hspec := verdict mask string hmask hstring
  rw [hb] at hspec
  cases hspec with
  | result h _ => exact h (overruns_iff.mp hover)

/-- The channel mask of a nick that matches it. -/
theorem ircMatch_exact_iff_nick :
    Exact "*!*@*.irc".toList "ana!ana@alfa.IRC".toList ↔
      ¬Overruns toLower (tokens "*!*@*.irc".toList) "ana!ana@alfa.IRC".toList :=
  ircMatch_exact_iff _ _ (by decide) (by decide)

/-- The search that is taken up again behind `a` starts at the end of the string, and finds the mask
in the bytes that follow. -/
theorem ircMatch_not_exact :
    ¬Exact "*ab".toList "a".toList ∧
      ircMatch "*ab".toList (memory "a".toList "ab".toList) = true ∧
      "a".toList ∉ lang toLower (tokens "*ab".toList) := by
  refine ⟨?_, by decide, ?_⟩
  · rintro ⟨b, hb, -⟩
    have hnone : Checked.head toLower (terminated "*ab".toList) (terminated "a".toList) = none := by
      decide
    rw [hnone] at hb
    cases hb
  · intro h
    have htokens : tokens "*ab".toList = [.star, .lit 'a', .lit 'b'] := by decide
    have hlen := minLength_le h
    rw [htokens] at hlen
    exact absurd hlen (by decide)

end Ircd
