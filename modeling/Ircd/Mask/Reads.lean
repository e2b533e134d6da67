import Ircd.Collapse
import Ircd.Lib.Wildcard

/-!
# The bytes that a comparison reads

`Checked` repeats `match` on the two strings up to their terminators: a read behind one of them
gives `none`. Where it gives a result, the comparison in memory gives the same result whatever
follows the terminators, `Checked.head_memory`. `tokens` is the pattern that a mask writes.
-/

namespace Ircd

open CString
open Wildcard (Token)

namespace Match

/-- The pattern that a mask writes. -/
def tokens : CStr → List (Token Char)
  | [] => []
  | '*' :: m => .star :: tokens m
  | '?' :: m => .one :: tokens m
  | '\\' :: c :: m => if isWild c then .lit c :: tokens m else .lit '\\' :: tokens (c :: m)
  | c :: m => .lit c :: tokens m

/-- A string in memory, up to its terminator. -/
def terminated (s : CStr) : List Char :=
  s ++ [nul]

/-- `*p` at a pointer that has not passed the terminator. -/
def deref (p : List Char) : Option Char :=
  p.head?

namespace Checked

/-- The run of wildcards after a star. The inner `none` is `return 1`. -/
def skipWild : List Char → List Char → Option (Option (List Char × List Char))
  | [], _ => none
  | '?' :: m, s => do
      let c ← deref s
      if c = nul then return none else skipWild m s.tail
  | '*' :: m, s => skipWild m s
  | m, s => some (some (m, s))

/-- `ch = *m++`, with the second read for the character that a backslash escapes. -/
def literal : List Char → Option (Char × List Char)
  | [] => none
  | '\\' :: m => do
      let c ← deref m
      return if isWild c then (c, m.tail) else ('\\', m)
  | c :: m => some (c, m)

/-- `while (toLower (*s++) != ch) if (!*s) return 1`. The inner `none` is the return. -/
def search (f : Char → Char) (ch : Char) : List Char → Option (Option (List Char))
  | [] => none
  | c :: s =>
      if f c = ch then some (some s) else do
        let d ← deref s
        if d = nul then return none else search f ch s

/-- The comparison of `*s` with a literal: what follows where they differ, where `*s` is the
terminator, and otherwise. -/
def against {ω : Type} (f : Char → Char) (s : List Char) (ch : Char) (differ ends : ω)
    (go : Option ω) : Option ω := do
  let d ← deref s
  if f d ≠ f ch then return differ else if d = nul then return ends else go

/-- The rest of the chunk after the character found by `search`. -/
def chunk (f : Char → Char) : List Char → List Char → Option Outcome
  | [], _ => none
  | '*' :: m, s => some (.star m s)
  | '?' :: m, s => do
      let d ← deref s
      if d = nul then return .reject else chunk f m s.tail
  | ['\\'], _ => none
  | '\\' :: c :: m, s =>
      if isWild c then against f s c .retry .reject (chunk f m s.tail)
      else against f s '\\' .retry .reject (chunk f (c :: m) s.tail)
  | c :: m, s =>
      if c = nul then do
        let d ← deref s
        return if d = nul then .accept else .retry
      else against f s c .retry .reject (chunk f m s.tail)

/-- The label `got_star`. -/
def gotStar (f : Char → Char) : Nat → List Char → List Char → Option Bool
  | 0, _, _ => none
  | fuel + 1, m, s => do
      match ← skipWild m s with
      | none => return false
      | some (bm, s) =>
          let (ch, m) ← literal bm
          if ch = nul then return true
          match ← search f (f ch) s with
          | none => return false
          | some bs =>
              match ← chunk f m bs with
              | .accept => return true
              | .reject => return false
              | .retry => gotStar f fuel bm bs
              | .star m s => gotStar f fuel m s

/-- The head of the mask, before its first star. -/
def head (f : Char → Char) : List Char → List Char → Option Bool
  | [], _ => none
  | '*' :: m, s => gotStar f (s.length + 1) m s
  | '?' :: m, s => do
      let d ← deref s
      if d = nul then return false else head f m s.tail
  | ['\\'], _ => none
  | '\\' :: c :: m, s =>
      if isWild c then against f s c false false (head f m s.tail)
      else against f s '\\' false false (head f (c :: m) s.tail)
  | c :: m, s =>
      if c = nul then do
        let d ← deref s
        return d = nul
      else against f s c false false (head f m s.tail)

end Checked

/-! ## Terminated masks -/

variable {f : Char → Char} {m r : CStr} {c : Char}

@[simp] theorem terminated_nil : terminated [] = [nul] := rfl

@[simp] theorem terminated_cons (s : CStr) : terminated (c :: s) = c :: terminated s := rfl

theorem terminated_ne_nil (s : CStr) : terminated s ≠ [] := by
  simp [terminated]

@[simp] theorem deref_cons (s : List Char) : deref (c :: s) = some c := rfl

/-- A literal stands for itself. -/
theorem Literal.tokens_eq (h : Literal m c r) : tokens m = .lit c :: tokens r := by
  cases h with
  | escape hc => simp [tokens, hc]
  | plain hc hr =>
      rw [tokens.eq_def]
      split
      · next heq => cases heq
      · next heq => obtain ⟨rfl, -⟩ := List.cons.inj heq; cases hc
      · next heq => obtain ⟨rfl, -⟩ := List.cons.inj heq; cases hc
      · next d r' heq =>
          obtain ⟨rfl, rfl⟩ := List.cons.inj heq
          simp [hr rfl d rfl]
      · next heq => obtain ⟨rfl, rfl⟩ := List.cons.inj heq; rfl

theorem AtLiteral.terminated (h : AtLiteral m) : AtLiteral (terminated m) := by
  cases m with
  | nil => rintro c ⟨⟩; rfl
  | cons c m => rintro d ⟨⟩; exact h c rfl

theorem Literal.terminated (h : Literal m c r) :
    Literal (terminated m) c (terminated r) := by
  cases h with
  | escape hc => exact .escape hc
  | plain hc hr => exact .plain hc fun h ↦ (hr h).terminated

/-- The terminator is not in the parts of a mask. -/
theorem Literal.not_mem (h : Literal m c r) (hm : nul ∉ m) : c ≠ nul ∧ nul ∉ r := by
  have hmem : c ∈ m ∧ r ⊆ m := by
    cases h with
    | escape hc => exact ⟨by simp, fun d hd ↦ by simp [hd]⟩
    | plain hc hr => exact ⟨by simp, fun d hd ↦ by simp [hd]⟩
  exact ⟨fun hc ↦ hm (hc ▸ hmem.1), fun hr ↦ hm (hmem.2 hr)⟩

namespace Checked

/-- There is no run of wildcards at a literal. -/
theorem skipWild_atLiteral (hm : AtLiteral m) (hne : m ≠ []) (s : List Char) :
    skipWild m s = some (some (m, s)) := by
  unfold skipWild
  split
  · exact absurd rfl hne
  · exact absurd (hm '?' rfl) (by decide)
  · exact absurd (hm '*' rfl) (by decide)
  · rfl

theorem literal_eq (h : Literal m c r) (hr : r ≠ []) : literal m = some (c, r) := by
  cases h with
  | escape hc => simp [literal, hc]
  | plain hc hlit =>
      unfold literal
      split
      · next heq => cases heq
      · next heq =>
          obtain ⟨rfl, rfl⟩ := List.cons.inj heq
          obtain ⟨d, r', rfl⟩ := List.exists_cons_of_ne_nil hr
          simp [hlit rfl d rfl]
      · next heq => obtain ⟨rfl, rfl⟩ := List.cons.inj heq; rfl

/-- At its end a chunk is compared with the terminator. -/
theorem chunk_nil (s : List Char) :
    chunk f [nul] s = (deref s).map fun d ↦ if d = nul then .accept else .retry := by
  cases s <;> rfl

/-- A literal of a chunk is compared with one character. -/
theorem chunk_literal (h : Literal m c r) (hc : c ≠ nul) (hr : r ≠ []) (s : List Char) :
    chunk f m s = against f s c .retry .reject (chunk f r s.tail) := by
  cases h with
  | escape hw => simp [chunk, hw]
  | plain hw hlit =>
      rw [chunk.eq_def]
      split
      · next heq => cases heq
      · next heq => obtain ⟨rfl, -⟩ := List.cons.inj heq; cases hw
      · next heq => obtain ⟨rfl, -⟩ := List.cons.inj heq; cases hw
      · next heq => exact absurd (List.cons.inj heq).2 hr
      · next d r' heq =>
          obtain ⟨rfl, rfl⟩ := List.cons.inj heq
          simp [hlit rfl d rfl]
      · next heq => obtain ⟨rfl, rfl⟩ := List.cons.inj heq; rw [if_neg hc]

/-- The end of a mask without a star is compared with the terminator. -/
theorem head_nil (s : List Char) : head f [nul] s = (deref s).map fun d ↦ decide (d = nul) := by
  cases s <;> rfl

/-- A literal in the head of a mask is compared with one character. -/
theorem head_literal (h : Literal m c r) (hc : c ≠ nul) (hr : r ≠ []) (s : List Char) :
    head f m s = against f s c false false (head f r s.tail) := by
  cases h with
  | escape hw => simp [head, hw]
  | plain hw hlit =>
      rw [head.eq_def]
      split
      · next heq => cases heq
      · next heq => obtain ⟨rfl, -⟩ := List.cons.inj heq; cases hw
      · next heq => obtain ⟨rfl, -⟩ := List.cons.inj heq; cases hw
      · next heq => exact absurd (List.cons.inj heq).2 hr
      · next d r' heq =>
          obtain ⟨rfl, rfl⟩ := List.cons.inj heq
          simp [hlit rfl d rfl]
      · next heq => obtain ⟨rfl, rfl⟩ := List.cons.inj heq; rw [if_neg hc]

/-- Where a chunk leads to. -/
def next (f : Char → Char) (n : Nat) (bm bs : List Char) : Outcome → Option Bool
  | .accept => some true
  | .reject => some false
  | .retry => gotStar f n bm bs
  | .star m s => gotStar f n m s

variable {n : Nat} {s t bs : List Char}

/-- The run of wildcards decides what the comparison comes to. -/
theorem gotStar_congr {m' s' : List Char} (h : skipWild m s = skipWild m' s') :
    gotStar f n m s = gotStar f n m' s' := by
  cases n with
  | zero => rfl
  | succ n => rw [gotStar, gotStar, h]

attribute [local simp] gotStar in
/-- The string ends at a question mark behind a star. -/
theorem gotStar_none (h : skipWild m s = some none) : gotStar f (n + 1) m s = some false := by
  simp [h]

/-- The mask ends behind a star. -/
theorem gotStar_end (h : skipWild m s = some (some ([nul], t))) :
    gotStar f (n + 1) m s = some true := by
  rw [gotStar, h]
  rfl

/-- A literal behind a star that is not found. -/
theorem gotStar_unfound {bm : List Char} (h : skipWild m s = some (some (bm, t)))
    (hlit : Literal bm c r) (hc : c ≠ nul) (hr : r ≠ []) (hs : search f (f c) t = some none) :
    gotStar f (n + 1) m s = some false := by
  rw [gotStar, h]
  simp [literal_eq hlit hr, hc, hs]

/-- A literal behind a star that is found. -/
theorem gotStar_found {bm : List Char} (h : skipWild m s = some (some (bm, t)))
    (hlit : Literal bm c r) (hc : c ≠ nul) (hr : r ≠ [])
    (hs : search f (f c) t = some (some bs)) :
    gotStar f (n + 1) m s = (chunk f r bs).bind (next f n bm bs) := by
  rw [gotStar, h]
  simp only [literal_eq hlit hr, hc, hs, Option.bind_eq_bind, Option.bind_some, if_false]
  congr 1

/-- A search that runs over the terminator. -/
theorem gotStar_overrun {bm : List Char} (h : skipWild m s = some (some (bm, t)))
    (hlit : Literal bm c r) (hc : c ≠ nul) (hr : r ≠ []) (hs : search f (f c) t = none) :
    gotStar f (n + 1) m s = none := by
  rw [gotStar, h]
  simp [literal_eq hlit hr, hc, hs]

/-- The search decides what the comparison comes to. -/
theorem gotStar_of_search {bm s' t' : List Char} (h : skipWild m s = some (some (bm, t)))
    (h' : skipWild m s' = some (some (bm, t'))) (hlit : Literal bm c r) (hr : r ≠ [])
    (hs : search f (f c) t = search f (f c) t') :
    gotStar f (n + 1) m s = gotStar f (n + 1) m s' := by
  rw [gotStar, gotStar, h, h']
  simp only [literal_eq hlit hr, hs, Option.bind_eq_bind, Option.bind_some]

/-! ## What follows the terminators -/

variable {after : List Char} {b : Bool}

theorem skipWild_memory_none (h : skipWild (terminated m) s = some none) :
    Match.skipWild m (s ++ after) = none := by
  induction m using mask_induction generalizing s with
  | nil =>
      rw [terminated_nil, skipWild_atLiteral (by rintro c ⟨⟩; rfl) (List.cons_ne_nil _ _)] at h
      cases h
  | star m ih => exact ih h
  | quest m ih =>
      cases s with
      | nil => cases h
      | cons d s =>
          by_cases hd : d = nul
          · simp [Match.skipWild, peek, hd]
          · have hnext : skipWild (terminated m) s = some none := by
              simpa [skipWild, hd] using h
            simpa [Match.skipWild, peek, hd] using ih hnext
  | lit m c r hlit ih =>
      rw [skipWild_atLiteral hlit.terminated.atLiteral (terminated_ne_nil m)] at h
      cases h

theorem skipWild_memory {bm : List Char} (after : List Char) (hm : nul ∉ m)
    (h : skipWild (terminated m) s = some (some (bm, t))) :
    ∃ m', bm = terminated m' ∧ nul ∉ m' ∧ AtLiteral m' ∧
      Match.skipWild m (s ++ after) = some (m', t ++ after) := by
  induction m using mask_induction generalizing s with
  | nil =>
      rw [terminated_nil, skipWild_atLiteral (by rintro c ⟨⟩; rfl) (List.cons_ne_nil _ _)] at h
      obtain ⟨rfl, rfl⟩ := Prod.mk.inj (Option.some.inj (Option.some.inj h))
      exact ⟨[], rfl, hm, (fun _ h ↦ by cases h), rfl⟩
  | star m ih => exact ih (fun h ↦ hm (List.mem_cons_of_mem _ h)) h
  | quest m ih =>
      cases s with
      | nil => cases h
      | cons d s =>
          by_cases hd : d = nul
          · simp [skipWild, hd] at h
          · have hnext : skipWild (terminated m) s = some (some (bm, t)) := by
              simpa [skipWild, hd] using h
            obtain ⟨m', hbm, hm', hat, hskip⟩ := ih (fun h ↦ hm (List.mem_cons_of_mem _ h)) hnext
            exact ⟨m', hbm, hm', hat, by simpa [Match.skipWild, peek, hd] using hskip⟩
  | lit m c r hlit ih =>
      rw [skipWild_atLiteral hlit.terminated.atLiteral (terminated_ne_nil m)] at h
      obtain ⟨rfl, rfl⟩ := Prod.mk.inj (Option.some.inj (Option.some.inj h))
      exact ⟨m, rfl, hm, hlit.atLiteral, Match.skipWild_atLiteral hlit.atLiteral _⟩

theorem search_memory {ch : Char} {o : Option (List Char)} (h : search f ch s = some o) :
    Match.search f ch (s ++ after) = o.map (· ++ after) := by
  fun_induction search f ch s with
  | case1 => cases h
  | case2 c s hc =>
      obtain rfl := Option.some.inj h
      simp [Match.search, hc]
  | case3 c s hc ih =>
      cases s with
      | nil => cases h
      | cons d s =>
          by_cases hd : d = nul
          · obtain rfl : none = o := by simpa [hd] using h
            simp [Match.search, hc, peek, hd]
          · have hnext : search f ch (d :: s) = some o := by simpa [hd] using h
            simpa [Match.search, hc, peek, hd] using ih hnext

/-- The end of a chunk in memory, where it may go on to a star. -/
inductive InMemory (after : List Char) : Outcome → Outcome → Prop
  | accept : InMemory after .accept .accept
  | reject : InMemory after .reject .reject
  | retry : InMemory after .retry .retry
  | star {m : CStr} {s : List Char} (hm : nul ∉ m) :
      InMemory after (.star (terminated m) s) (.star m (s ++ after))

theorem chunk_memory {o : Outcome} (after : List Char) (hm : nul ∉ m)
    (h : chunk f (terminated m) s = some o) :
    InMemory after o (Match.chunk f m (s ++ after)) := by
  induction m using mask_induction generalizing s with
  | nil =>
      cases s with
      | nil => cases h
      | cons d s =>
          by_cases hd : d = nul
          · obtain rfl : .accept = o := by simpa [chunk_nil, hd] using h
            simpa [Match.chunk, peek, hd] using .accept
          · obtain rfl : .retry = o := by simpa [chunk_nil, hd] using h
            simpa [Match.chunk, peek, hd] using .retry
  | star m ih =>
      obtain rfl := Option.some.inj h
      exact .star fun h ↦ hm (List.mem_cons_of_mem _ h)
  | quest m ih =>
      cases s with
      | nil => cases h
      | cons d s =>
          by_cases hd : d = nul
          · obtain rfl : .reject = o := by simpa [chunk, hd] using h
            simpa [Match.chunk, peek, hd] using .reject
          · have hnext : chunk f (terminated m) s = some o := by simpa [chunk, hd] using h
            simpa [Match.chunk, peek, hd] using ih (fun h ↦ hm (List.mem_cons_of_mem _ h)) hnext
  | lit m c r hlit ih =>
      obtain ⟨hc, hr⟩ := hlit.not_mem hm
      rw [chunk_literal hlit.terminated hc (terminated_ne_nil r)] at h
      rw [hlit.chunk_eq]
      cases s with
      | nil => cases h
      | cons d s =>
          by_cases hdc : f d = f c
          · by_cases hd : d = nul
            · subst hd
              obtain rfl : .reject = o := by simpa [against, hdc] using h
              simpa [peek, hdc] using .reject
            · have hnext : chunk f (terminated r) s = some o := by
                simpa [against, hdc, hd] using h
              simpa [peek, hdc, hd] using ih hr hnext
          · obtain rfl : .retry = o := by simpa [against, hdc] using h
            simpa [peek, hdc] using .retry

theorem gotStar_memory (hm : nul ∉ m) (h : gotStar f n (terminated m) s = some b) :
    star f m (s ++ after) = b := by
  induction n generalizing m s with
  | zero => cases h
  | succ n ih =>
      rw [star_eq]
      cases hskip : skipWild (terminated m) s with
      | none => rw [gotStar, hskip] at h; cases h
      | some o =>
          cases o with
          | none =>
              obtain rfl := Option.some.inj ((gotStar_none hskip).symm.trans h)
              rw [round, skipWild_memory_none hskip]
          | some p =>
              obtain ⟨bm, t⟩ := p
              obtain ⟨m', rfl, hm', hat, hmem⟩ := skipWild_memory after hm hskip
              rcases hat.cases with rfl | ⟨c, r, hlit⟩
              · obtain rfl := Option.some.inj ((gotStar_end hskip).symm.trans h)
                rw [round, hmem]
              · obtain ⟨hc, hr⟩ := hlit.not_mem hm'
                rw [round_literal hmem hlit]
                have hterm := hlit.terminated
                have hne := terminated_ne_nil r
                cases hsearch : search f (f c) t with
                | none =>
                    rw [gotStar_overrun hskip hterm hc hne hsearch] at h
                    cases h
                | some o =>
                    rw [search_memory hsearch]
                    cases o with
                    | none =>
                        exact Option.some.inj
                          ((gotStar_unfound hskip hterm hc hne hsearch).symm.trans h)
                    | some bs =>
                        rw [gotStar_found hskip hterm hc hne hsearch] at h
                        obtain ⟨o, hchunk, hnext⟩ := Option.bind_eq_some_iff.mp h
                        have hin := chunk_memory after hr hchunk
                        dsimp only [Option.map_some]
                        generalize Match.chunk f r (bs ++ after) = o' at hin
                        cases hin with
                        | accept | reject => exact Option.some.inj hnext
                        | retry => exact ih hm' hnext
                        | star hm₁ => exact ih hm₁ hnext

/-- A comparison that stays on the strings has its result whatever follows them in memory. -/
theorem head_memory (hm : nul ∉ m) (h : head f (terminated m) s = some b) :
    Match.head f m (s ++ after) = b := by
  induction m using mask_induction generalizing s with
  | nil =>
      cases s with
      | nil => cases h
      | cons d s => exact Option.some.inj h
  | star m ih => exact gotStar_memory (fun h ↦ hm (List.mem_cons_of_mem _ h)) h
  | quest m ih =>
      cases s with
      | nil => cases h
      | cons d s =>
          by_cases hd : d = nul
          · obtain rfl : false = b := by simpa [head, hd] using h
            simp [Match.head, peek, hd]
          · have hnext : head f (terminated m) s = some b := by simpa [head, hd] using h
            simpa [Match.head, peek, hd] using ih (fun h ↦ hm (List.mem_cons_of_mem _ h)) hnext
  | lit m c r hlit ih =>
      obtain ⟨hc, hr⟩ := hlit.not_mem hm
      rw [head_literal hlit.terminated hc (terminated_ne_nil r)] at h
      rw [hlit.head_eq]
      cases s with
      | nil => cases h
      | cons d s =>
          by_cases hdc : f d = f c
          · by_cases hd : d = nul
            · subst hd
              obtain rfl : false = b := by simpa [against, hdc] using h
              simp [peek]
            · have hnext : head f (terminated r) s = some b := by
                simpa [against, hdc, hd] using h
              simpa [peek, hdc, hd] using ih hr hnext
          · obtain rfl : false = b := by simpa [against, hdc] using h
            simp [peek, hdc]

end Checked

end Match

end Ircd
