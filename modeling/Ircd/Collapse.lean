import Ircd.Match

/-!
# Collapsed masks

`collapse` moves the star of a run of wildcards behind its question marks. The comparison of a mask
with a string reaches the same literals with the same text left, so that it does not change what a
mask matches: `ircMatch_collapse`. The bound on the steps of `Match.gotStar` is removed first, by
`Match.gotStar_fuel`, since the two comparisons meet the end of a run at different lengths.
-/

namespace Ircd

open CString

namespace Match

variable {f : Char → Char}

/-! ## Enough steps -/

/-- A run of wildcards does not give characters back. -/
theorem length_skipWild {m m' : CStr} {s s' : List Char} (h : skipWild m s = some (m', s')) :
    s'.length ≤ s.length := by
  fun_induction skipWild m s with
  | case1 => cases h
  | case2 m s hs ih =>
      have hlen := ih h
      simp only [List.length_tail] at hlen
      omega
  | case3 m s ih => exact ih h
  | case4 m s =>
      obtain ⟨rfl, rfl⟩ := Prod.mk.inj (Option.some.inj h)
      exact le_rfl

/-- A search takes at least the character it looks for. -/
theorem length_search {ch : Char} {s bs : List Char} (h : search f ch s = some bs) :
    bs.length < s.length := by
  fun_induction search f ch s with
  | case1 => cases h
  | case2 s => exact Option.some.inj h ▸ Nat.lt_succ_self _
  | case3 => cases h
  | case4 c s _ _ ih => exact Nat.lt_succ_of_lt (ih h)

/-- A chunk does not give characters back. -/
theorem length_chunk {m m' : CStr} {s s' : List Char} (h : chunk f m s = .star m' s') :
    s'.length ≤ s.length := by
  fun_induction chunk f m s <;> simp_all <;> omega

/-- One round of `gotStar`, with `k` for the rounds after it. -/
def round (f : Char → Char) (k : CStr → List Char → Bool) (m : CStr) (s : List Char) : Bool :=
  match skipWild m s with
  | none => false
  | some ([], _) => true
  | some (bm, s) =>
      match search f (f (literal bm).1) s with
      | none => false
      | some bs =>
          match chunk f (literal bm).2 bs with
          | .accept => true
          | .reject => false
          | .retry => k bm bs
          | .star m s => k m s

/-- The rounds after it work on shorter strings. -/
theorem round_congr {k k' : CStr → List Char → Bool} {s : List Char}
    (h : ∀ m s', s'.length < s.length → k m s' = k' m s') (m : CStr) :
    round f k m s = round f k' m s := by
  unfold round
  cases hskip : skipWild m s with
  | none => rfl
  | some p =>
      obtain ⟨bm, s'⟩ := p
      have hs := length_skipWild hskip
      cases bm with
      | nil => rfl
      | cons c bm =>
          dsimp only
          cases hsearch : search f (f (literal (c :: bm)).1) s' with
          | none => rfl
          | some bs =>
              have hbs := length_search hsearch
              dsimp only
              cases hchunk : chunk f (literal (c :: bm)).2 bs with
              | accept | reject => rfl
              | retry => exact h _ _ (by omega)
              | star m₁ s₁ =>
                  have hs₁ := length_chunk hchunk
                  exact h _ _ (by omega)

/-- More steps than characters are enough. -/
theorem gotStar_fuel {n n' : Nat} {s : List Char} (hn : s.length < n) (hn' : s.length < n')
    (m : CStr) : gotStar f n m s = gotStar f n' m s := by
  induction n generalizing n' m s with
  | zero => omega
  | succ n ih =>
      obtain ⟨n', rfl⟩ : ∃ k, n' = k + 1 := ⟨n' - 1, by omega⟩
      exact round_congr (fun m s' hs ↦ ih (by omega) (by omega) m) m

/-- The comparison after a star. -/
def star (f : Char → Char) (m : CStr) (s : List Char) : Bool :=
  gotStar f (s.length + 1) m s

/-- The comparison after a star goes round by round, without a bound. -/
theorem star_eq (m : CStr) (s : List Char) : star f m s = round f (star f) m s :=
  round_congr (fun m _ hs ↦ gotStar_fuel hs (Nat.lt_succ_self _) m) m

/-! ## The parts of a mask -/

/-- A mask that does not begin with a wildcard. -/
def AtLiteral (m : CStr) : Prop :=
  ∀ c, m.head? = some c → isWild c = false

/-- The mask `m` begins with the literal `c`, escaped or not, and goes on with `r`. -/
inductive Literal : CStr → Char → CStr → Prop
  | escape {c : Char} {r : CStr} (hc : isWild c = true) : Literal ('\\' :: c :: r) c r
  | plain {c : Char} {r : CStr} (hc : isWild c = false) (hr : c = '\\' → AtLiteral r) :
      Literal (c :: r) c r

/-- Masks are built from stars, question marks and literals. -/
theorem mask_induction {motive : CStr → Prop} (nil : motive [])
    (star : ∀ m, motive m → motive ('*' :: m)) (quest : ∀ m, motive m → motive ('?' :: m))
    (lit : ∀ m c r, Literal m c r → motive r → motive m) : ∀ m, motive m
  | [] => nil
  | [c] => by
      by_cases hs : c = '*'
      · exact hs ▸ star [] nil
      · by_cases hq : c = '?'
        · exact hq ▸ quest [] nil
        · exact lit _ c [] (.plain (by simp [isWild, hs, hq]) fun _ _ h ↦ by cases h) nil
  | c :: d :: m => by
      by_cases hs : c = '*'
      · exact hs ▸ star _ (mask_induction nil star quest lit (d :: m))
      · by_cases hq : c = '?'
        · exact hq ▸ quest _ (mask_induction nil star quest lit (d :: m))
        · by_cases hesc : c = '\\' ∧ isWild d = true
          · rw [hesc.1]
            exact lit _ d m (.escape hesc.2) (mask_induction nil star quest lit m)
          · refine lit _ c (d :: m) (.plain (by simp [isWild, hs, hq]) ?_)
              (mask_induction nil star quest lit (d :: m))
            rintro hc e ⟨⟩
            simpa [hc] using hesc

variable {m r : CStr} {c : Char}

theorem Literal.atLiteral (h : Literal m c r) : AtLiteral m := by
  cases h with
  | escape hc => rintro d ⟨⟩; rfl
  | plain hc hr => rintro d ⟨⟩; exact hc

/-- The literal at the head of a mask. -/
theorem Literal.literal_eq (h : Literal m c r) : literal m = (c, r) := by
  cases h with
  | escape hc => simp [literal, hc]
  | plain hc hr =>
      unfold literal
      split
      · next heq => cases heq
      · next d r' heq =>
          obtain ⟨rfl, rfl⟩ := List.cons.inj heq
          simp [hr rfl d rfl]
      · next heq => obtain ⟨rfl, rfl⟩ := List.cons.inj heq; rfl

/-- A literal is compared with one character. -/
theorem Literal.chunk_eq (h : Literal m c r) (s : List Char) :
    chunk f m s = if f (peek s) ≠ f c then .retry
      else if peek s = nul then .reject else chunk f r s.tail := by
  cases h with
  | escape hc => simp [chunk, hc]
  | plain hc hr =>
      rw [chunk.eq_def]
      split
      · next heq => cases heq
      · next heq => obtain ⟨rfl, -⟩ := List.cons.inj heq; cases hc
      · next heq => obtain ⟨rfl, -⟩ := List.cons.inj heq; cases hc
      · next d r' heq =>
          obtain ⟨rfl, rfl⟩ := List.cons.inj heq
          simp [hr rfl d rfl]
      · next heq => obtain ⟨rfl, rfl⟩ := List.cons.inj heq; rfl

/-- A literal in the head of a mask is compared with one character. -/
theorem Literal.head_eq (h : Literal m c r) (s : List Char) :
    head f m s = if f (peek s) ≠ f c ∨ peek s = nul then false else head f r s.tail := by
  cases h with
  | escape hc => simp [head, hc]
  | plain hc hr =>
      rw [head.eq_def]
      split
      · next heq => cases heq
      · next heq => obtain ⟨rfl, -⟩ := List.cons.inj heq; cases hc
      · next heq => obtain ⟨rfl, -⟩ := List.cons.inj heq; cases hc
      · next d r' heq =>
          obtain ⟨rfl, rfl⟩ := List.cons.inj heq
          simp [hr rfl d rfl]
      · next heq => obtain ⟨rfl, rfl⟩ := List.cons.inj heq; rfl

/-- There is no run of wildcards at a literal. -/
theorem skipWild_atLiteral (hm : AtLiteral m) (s : List Char) : skipWild m s = some (m, s) := by
  unfold skipWild
  split
  · exact absurd (hm '?' rfl) (by decide)
  · exact absurd (hm '*' rfl) (by decide)
  · rfl

/-- A run of wildcards ends at a literal or at the end of the mask. -/
theorem atLiteral_skipWild {m m' : CStr} {s s' : List Char} (h : skipWild m s = some (m', s')) :
    AtLiteral m' := by
  induction m using mask_induction generalizing s with
  | nil =>
      obtain ⟨rfl, rfl⟩ := Prod.mk.inj (Option.some.inj h)
      exact fun _ h ↦ by cases h
  | star m ih => exact ih h
  | quest m ih =>
      rw [skipWild] at h
      split at h
      · cases h
      · exact ih h
  | lit m c r hlit ih =>
      rw [skipWild_atLiteral hlit.atLiteral] at h
      obtain ⟨rfl, rfl⟩ := Prod.mk.inj (Option.some.inj h)
      exact hlit.atLiteral

/-- A mask at a literal is empty or begins with one. -/
theorem AtLiteral.cases (hm : AtLiteral m) : m = [] ∨ ∃ c r, Literal m c r := by
  induction m using mask_induction with
  | nil => exact .inl rfl
  | star m ih => exact absurd (hm '*' rfl) (by decide)
  | quest m ih => exact absurd (hm '?' rfl) (by decide)
  | lit m c r hlit ih => exact .inr ⟨c, r, hlit⟩

/-! ## Collapsed parts -/

/-- What a mask begins with at a literal stays there. -/
theorem head?_collapseFrom (hm : AtLiteral m) : (collapseFrom false m).head? = m.head? := by
  unfold collapseFrom
  split
  · rfl
  · exact absurd (hm '*' rfl) (by decide)
  · exact absurd (hm '?' rfl) (by decide)
  · split <;> rfl
  · rfl

theorem AtLiteral.collapseFrom (hm : AtLiteral m) : AtLiteral (collapseFrom false m) := by
  intro c hc
  exact hm c (head?_collapseFrom hm ▸ hc)

/-- A character that is no escape is kept. -/
theorem collapseFrom_plain (hc : isWild c = false) (hr : c = '\\' → AtLiteral r) :
    Ircd.collapseFrom false (c :: r) = c :: Ircd.collapseFrom false r := by
  conv_lhs => unfold Ircd.collapseFrom
  split
  · next heq => cases heq
  · next heq => obtain ⟨rfl, -⟩ := List.cons.inj heq; cases hc
  · next heq => obtain ⟨rfl, -⟩ := List.cons.inj heq; cases hc
  · next d r' heq =>
      obtain ⟨rfl, rfl⟩ := List.cons.inj heq
      simp [hr rfl d rfl]
  · next heq => obtain ⟨rfl, rfl⟩ := List.cons.inj heq; rfl

/-- A literal is kept. -/
theorem Literal.collapseFrom (h : Literal m c r) :
    Literal (Ircd.collapseFrom false m) c (Ircd.collapseFrom false r) := by
  cases h with
  | escape hc =>
      simp only [Ircd.collapseFrom, hc, if_true]
      exact .escape hc
  | plain hc hr =>
      rw [collapseFrom_plain hc hr]
      exact .plain hc fun h ↦ (hr h).collapseFrom

attribute [local simp] Ircd.collapseFrom in
/-- A literal with a star before it. -/
theorem Literal.collapseFrom_true (h : Literal m c r) :
    Ircd.collapseFrom true m = '*' :: Ircd.collapseFrom false m := by
  cases h with
  | escape hc => simp [hc]
  | plain hc hr =>
      unfold Ircd.collapseFrom
      split
      · rfl
      · next heq => obtain ⟨rfl, -⟩ := List.cons.inj heq; cases hc
      · next heq => obtain ⟨rfl, -⟩ := List.cons.inj heq; cases hc
      · split <;> simp
      · rfl

/-- The second phase of `collapse`, over what it returned. -/
theorem collapseFrom_collapseFrom (m : CStr) (st : Bool) :
    Ircd.collapseFrom false (Ircd.collapseFrom st m) = Ircd.collapseFrom st m := by
  induction m using mask_induction generalizing st with
  | nil => cases st <;> rfl
  | star m ih => exact ih true
  | quest m ih =>
      show '?' :: Ircd.collapseFrom false (Ircd.collapseFrom st m) = _
      rw [ih st]
      rfl
  | lit m c r hlit ih =>
      have hfalse : Ircd.collapseFrom false (Ircd.collapseFrom false m) =
          Ircd.collapseFrom false m := by
        cases hlit with
        | escape hc => simp [Ircd.collapseFrom, hc, ih false]
        | plain hc hr =>
            rw [collapseFrom_plain hc hr, collapseFrom_plain hc fun h ↦ (hr h).collapseFrom,
              ih false]
      cases st with
      | false => exact hfalse
      | true =>
          rw [hlit.collapseFrom_true]
          show Ircd.collapseFrom true (Ircd.collapseFrom false m) = _
          rw [hlit.collapseFrom.collapseFrom_true, hfalse]

/-- The first phase of `collapse` is the second one before any star. -/
theorem collapse_eq (m : CStr) : collapse m = Ircd.collapseFrom false m := by
  fun_induction collapse m with
  | case1 => rfl
  | case2 c m hc => rfl
  | case3 c m hc ih =>
      have hlit : AtLiteral (c :: m) := by
        rintro d ⟨⟩
        simpa using hc
      rcases hlit.cases with hnil | ⟨d, r, h⟩
      · cases hnil
      · rw [ih, ← h.collapseFrom_true]
        rfl
  | case4 c m hc ih => simp [Ircd.collapseFrom, hc, ih]
  | case5 c m hc ih => simp [Ircd.collapseFrom, hc, ih]
  | case6 c m h1 h2 ih =>
      rw [ih]
      conv_rhs => unfold Ircd.collapseFrom
      split
      · next heq => cases heq
      · next heq =>
          obtain ⟨rfl, rfl⟩ := List.cons.inj heq
          cases m with
          | nil => rfl
          | cons d m => exact (h1 d m rfl rfl).elim
      · next heq => obtain ⟨rfl, rfl⟩ := List.cons.inj heq; rfl
      · next d m' heq =>
          obtain ⟨rfl, rfl⟩ := List.cons.inj heq
          exact (h2 d m' rfl rfl).elim
      · next heq => obtain ⟨rfl, rfl⟩ := List.cons.inj heq; rfl

/-- The masks at the ends of two runs of wildcards that take the same characters. -/
def collapseEnd (p : CStr × List Char) : CStr × List Char :=
  (Ircd.collapseFrom false p.1, p.2)

/-- A run of wildcards takes the same characters when it is collapsed, and ends at the same
literal. -/
theorem skipWild_collapseFrom (m : CStr) (st : Bool) (s : List Char) :
    skipWild (Ircd.collapseFrom st m) s = (skipWild m s).map collapseEnd := by
  induction m using mask_induction generalizing st s with
  | nil => cases st <;> rfl
  | star m ih => exact ih true s
  | quest m ih =>
      by_cases hs : peek s = nul
      · simp [skipWild, Ircd.collapseFrom, hs]
      · simpa [skipWild, Ircd.collapseFrom, hs] using ih st s.tail
  | lit m c r h ih =>
      have hfalse := skipWild_atLiteral h.collapseFrom.atLiteral s
      rw [skipWild_atLiteral h.atLiteral]
      cases st with
      | false => exact hfalse
      | true => rwa [h.collapseFrom_true]

/-- Two ends of a chunk that go on alike. Where one chunk goes on to a run of wildcards that finds
the end of the string, the other may have found it already. -/
inductive Alike : Outcome → Outcome → Prop
  | accept : Alike .accept .accept
  | reject : Alike .reject .reject
  | retry : Alike .retry .retry
  | star {m m' : CStr} {s s' : List Char}
      (h : skipWild m' s' = (skipWild m s).map collapseEnd) : Alike (.star m s) (.star m' s')
  | starReject {m : CStr} {s : List Char} (h : skipWild m s = none) : Alike (.star m s) .reject

/-- What follows a star counts only for the run of wildcards after it. -/
theorem Alike.of_skipWild {m₁ m₂ : CStr} {s₁ s₂ : List Char} {o : Outcome}
    (heq : skipWild m₁ s₁ = skipWild m₂ s₂) (h : Alike (.star m₂ s₂) o) :
    Alike (.star m₁ s₁) o := by
  cases h with
  | star h => exact .star (heq ▸ h)
  | starReject h => exact .starReject (heq ▸ h)

/-- A star with the question marks after it, collapsed. -/
theorem alike_star (m : CStr) (s : List Char) :
    Alike (.star m s) (chunk f (Ircd.collapseFrom true m) s) := by
  induction m using mask_induction generalizing s with
  | nil => exact .star rfl
  | star m ih =>
      have hstar : skipWild ('*' :: m) s = skipWild m s := rfl
      exact (ih s).of_skipWild hstar
  | quest m ih =>
      by_cases hs : peek s = nul
      · simp only [Ircd.collapseFrom, chunk, hs, if_true]
        exact .starReject (by simp [skipWild, hs])
      · simp only [Ircd.collapseFrom, chunk, hs, if_false]
        exact (ih s.tail).of_skipWild (by simp [skipWild, hs])
  | lit m c r h ih =>
      rw [h.collapseFrom_true]
      exact .star (skipWild_collapseFrom m false s)

/-- A chunk of a collapsed mask ends like the chunk of the mask. -/
theorem alike_chunk (m : CStr) (s : List Char) :
    Alike (chunk f m s) (chunk f (Ircd.collapseFrom false m) s) := by
  induction m using mask_induction generalizing s with
  | nil =>
      by_cases hs : peek s = nul
      · simp only [Ircd.collapseFrom, Bool.false_eq_true, chunk, hs, if_false, if_true]
        exact .accept
      · simp only [Ircd.collapseFrom, Bool.false_eq_true, chunk, hs, if_false]
        exact .retry
  | star m ih => exact alike_star m s
  | quest m ih =>
      by_cases hs : peek s = nul
      · simp only [Ircd.collapseFrom, chunk, hs, if_true]
        exact .reject
      · simp only [Ircd.collapseFrom, chunk, hs, if_false]
        exact ih s.tail
  | lit m c r h ih =>
      rw [h.chunk_eq, h.collapseFrom.chunk_eq]
      split
      · exact .retry
      · split
        · exact .reject
        · exact ih s.tail

/-- A round at a literal. -/
theorem round_literal {k : CStr → List Char → Bool} {m bm : CStr} {s s' : List Char}
    (hskip : skipWild m s = some (bm, s')) (h : Literal bm c r) :
    round f k m s =
      match search f (f c) s' with
      | none => false
      | some bs =>
          match chunk f r bs with
          | .accept => true
          | .reject => false
          | .retry => k bm bs
          | .star m s => k m s := by
  obtain ⟨b, bs, rfl⟩ : ∃ b bs, bm = b :: bs := by cases h <;> exact ⟨_, _, rfl⟩
  simp only [round, hskip, h.literal_eq]

/-- The comparison after a star depends on the run of wildcards only, collapsed or not. -/
theorem star_eq_of_skipWild {m m' : CStr} {s s' : List Char}
    (h : skipWild m' s' = (skipWild m s).map collapseEnd) : star f m' s' = star f m s := by
  induction hn : s.length using Nat.strong_induction_on generalizing m m' s s' with
  | _ n ih =>
      subst hn
      rw [star_eq, star_eq]
      cases hskip : skipWild m s with
      | none =>
          rw [hskip, Option.map_none] at h
          rw [round, round, h, hskip]
      | some p =>
          obtain ⟨bm, s₁⟩ := p
          rw [hskip, Option.map_some] at h
          have hs := length_skipWild hskip
          rcases (atLiteral_skipWild hskip).cases with rfl | ⟨c, r, hlit⟩
          · simp only [round, h, hskip, collapseEnd, Ircd.collapseFrom, Bool.false_eq_true,
              if_false]
          · rw [round_literal hskip hlit, round_literal h hlit.collapseFrom]
            cases hsearch : search f (f c) s₁ with
            | none => rfl
            | some bs =>
                have hbs := length_search hsearch
                dsimp only
                -- the chunks end alike; where one fails early, the other fails in its next round
                generalize hchunk : chunk f r bs = o
                have halike := alike_chunk (f := f) r bs
                rw [hchunk] at halike
                generalize chunk f (Ircd.collapseFrom false r) bs = o' at halike
                cases halike with
                | accept | reject => rfl
                | retry => exact ih _ (by omega) (skipWild_collapseFrom bm false bs) rfl
                | star h =>
                    have hstar := length_chunk hchunk
                    exact ih _ (by omega) h rfl
                | @starReject m₁ s₂ h =>
                    have hstar : star f m₁ s₂ = false := by rw [star_eq, round, h]
                    exact hstar.symm

/-- The comparison after a star does not count the stars after it. -/
theorem star_congr {m m' : CStr} {s s' : List Char} (h : skipWild m s = skipWild m' s') :
    star f m s = star f m' s' := by
  rw [star_eq, star_eq, round, round, h]

/-- The head of a mask that begins with a star, collapsed. -/
theorem head_collapseFrom_true (m : CStr) (s : List Char) :
    head f (Ircd.collapseFrom true m) s = star f m s := by
  induction m using mask_induction generalizing s with
  | nil => rfl
  | star m ih =>
      have hstar : skipWild m s = skipWild ('*' :: m) s := rfl
      exact (ih s).trans (star_congr hstar)
  | quest m ih =>
      by_cases hs : peek s = nul
      · have hnone : skipWild ('?' :: m) s = none := by simp [skipWild, hs]
        rw [star_eq, round, hnone, Ircd.collapseFrom, head, if_pos hs]
      · have hskip : skipWild m s.tail = skipWild ('?' :: m) s := by simp [skipWild, hs]
        rw [Ircd.collapseFrom, head, if_neg hs, ih, star_congr hskip]
  | lit m c r h ih =>
      rw [h.collapseFrom_true]
      exact star_eq_of_skipWild (skipWild_collapseFrom m false s)

/-- A collapsed mask matches what the mask matches, character by character in its head and round by
round after its first star. -/
theorem head_collapse (m : CStr) (s : List Char) : head f (collapse m) s = head f m s := by
  rw [collapse_eq]
  induction m using mask_induction generalizing s with
  | nil => rfl
  | star m ih => exact head_collapseFrom_true m s
  | quest m ih => simp only [Ircd.collapseFrom, head, ih]
  | lit m c r h ih => rw [h.head_eq, h.collapseFrom.head_eq, ih]

end Match

/-- Collapsing a mask does not change what it matches. -/
theorem ircMatch_collapse (m : CStr) (s : List Char) : ircMatch (collapse m) s = ircMatch m s :=
  Match.head_collapse m s

/-- Collapsing a mask does not change what it matches with regard to case. -/
theorem matchCase_collapse (m : CStr) (s : List Char) :
    matchCase (collapse m) s = matchCase m s :=
  Match.head_collapse m s

end Ircd
