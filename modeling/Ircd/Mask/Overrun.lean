import Ircd.Mask.Compile
import Ircd.Mask.Plain

/-!
# Searches that run over the end

A search of `match` that starts at the end of the string goes on in the bytes behind its terminator.
`exists_ircMatch_of_overruns` says that some bytes there make `match` return 0.
-/

namespace Ircd

open CString
open Wildcard

namespace Match

variable {f : Char → Char} {m r u w : CStr} {c : Char}

/-- Behind a star a mask is found in a string of its language, whatever follows it. -/
theorem star_of_mem (hf : ∀ c, f c = f nul → c = nul) (hm : nul ∉ m) (hw : nul ∉ w)
    (h : w ∈ lang f (.star :: tokens m)) (after : List Char) :
    star f m (terminated w ++ after) = true := by
  have hspec := gotStar_spec hf hm hw (Nat.lt_succ_self _) (behindStar_append_star []) (s := w)
    fun q ↦ Iff.rfl
  generalize hrun : Checked.gotStar f (w.length + 1) (terminated m) (terminated w) = o at hspec
  cases hspec with
  | overrun hover =>
      exact absurd ((overrunsFrom_cons (by simp)).mpr hover) (not_overruns_of_mem h)
  | result _ hb =>
      obtain rfl := hb.mpr h
      exact Checked.gotStar_memory hm hrun

/-- A string of the language of a mask, without a terminator inside. -/
theorem exists_mem_lang (f : Char → Char) (hm : nul ∉ m) :
    ∃ w, nul ∉ w ∧ w ∈ lang f (tokens m) := by
  refine ⟨shortest 'x' (tokens m), fun h ↦ ?_, shortest_mem f 'x' (tokens m)⟩
  rcases mem_shortest h with heq | hlit
  · exact absurd heq (by decide)
  · exact lit_not_mem_tokens hm hlit

/-- The search for the literal at the head of a mask. -/
theorem star_literal (hlit : Literal m c r) (s : List Char) :
    star f m s =
      match search f (f c) s with
      | none => false
      | some bs =>
          match chunk f r bs with
          | .accept => true
          | .reject => false
          | .retry => star f m bs
          | .star m s => star f m s :=
  (star_eq m s).trans (round_literal (skipWild_atLiteral hlit.atLiteral s) hlit)

/-- The literal is found at once. -/
theorem star_found {d : Char} {s : List Char} (hlit : Literal m c r) (hd : f d = f c) :
    star f m (d :: s) =
      match chunk f r s with
      | .accept => true
      | .reject => false
      | .retry => star f m s
      | .star m s => star f m s := by
  rw [star_literal hlit, search, if_pos hd]

/-- The end of a chunk in memory, where the search is taken up again. -/
theorem Checked.InMemory.of_retry {after : List Char} {o : Outcome}
    (h : Checked.InMemory after .retry o) : o = .retry := by
  generalize hretry : Outcome.retry = o' at h
  cases h with
  | retry => rfl
  | accept | reject | star => cases hretry

/-- The end of a chunk in memory, where the chunk goes on to a star. -/
theorem Checked.InMemory.of_star {after s : List Char} {o : Outcome}
    (h : Checked.InMemory after (.star (terminated m) s) o) : o = .star m (s ++ after) := by
  generalize hstar : Outcome.star (terminated m) s = o' at h
  cases h with
  | accept | reject | retry => cases hstar
  | star hm =>
      obtain ⟨hterm, rfl⟩ := Outcome.star.inj hstar
      rw [List.append_cancel_right hterm]

/-- A character that is passed over. -/
theorem star_cons {d e : Char} {s : List Char} (hlit : Literal m c r) (hd : f d ≠ f c)
    (he : e ≠ nul) : star f m (d :: e :: s) = star f m (e :: s) := by
  have hsearch : search f (f c) (d :: e :: s) = search f (f c) (e :: s) := by
    rw [search, if_neg hd, peek_cons, if_neg he]
  rw [star_literal hlit, hsearch, ← star_literal hlit]

/-- The search for a literal from the terminator on. -/
theorem star_nul (hf : ∀ c, f c = f nul → c = nul) (hm : nul ∉ m) (hlit : Literal m c r) :
    ∃ w, nul ∉ w ∧ star f m (nul :: terminated w) = true := by
  obtain ⟨w, hw, hmem⟩ := exists_mem_lang f hm
  refine ⟨w, hw, ?_⟩
  cases w with
  | nil =>
      rw [hlit.tokens_eq] at hmem
      exact absurd hmem (by simp)
  | cons e w =>
      have hc : f nul ≠ f c := fun h ↦ (hlit.not_mem hm).1 (hf c h.symm)
      have he : e ≠ nul := fun h ↦ hw (h ▸ List.mem_cons_self)
      have hfound := star_of_mem hf hm hw (mem_star_of_mem hmem) []
      rw [List.append_nil] at hfound
      rw [terminated_cons, star_cons hlit hc he]
      exact hfound

/-- A comparison behind a star that runs over the end of the string. -/
theorem exists_star_of_none (hf : ∀ c, f c = f nul → c = nul) {n : Nat} (hm : nul ∉ m)
    (hu : nul ∉ u) (hn : u.length < n)
    (h : Checked.gotStar f n (terminated m) (terminated u) = none) :
    ∃ w, nul ∉ w ∧ star f m (terminated u ++ terminated w) = true := by
  induction hl : u.length using Nat.strong_induction_on generalizing m n u with
  | _ l ih =>
  replace hl : u.length ≤ l := hl.le
  obtain ⟨n, rfl⟩ : ∃ k, n = k + 1 := ⟨n - 1, by omega⟩
  induction m using mask_induction generalizing u with
  | nil =>
      rw [Checked.gotStar_end (t := terminated u) rfl] at h
      cases h
  | star m ihm =>
      have hm' : nul ∉ m := fun h ↦ hm (List.mem_cons_of_mem _ h)
      obtain ⟨w, hw, hfound⟩ := ihm hm' hu hl hn (Eq.trans (Checked.gotStar_congr rfl) h)
      exact ⟨w, hw, Eq.trans (star_congr rfl) hfound⟩
  | quest m ihm =>
      cases u with
      | nil =>
          rw [Checked.gotStar_none rfl] at h
          cases h
      | cons d u =>
          obtain ⟨hd, hu⟩ := not_or.mp (mt List.mem_cons.mpr hu)
          simp only [List.length_cons] at hn hl
          have hskip : Checked.skipWild (terminated ('?' :: m)) (terminated (d :: u)) =
              Checked.skipWild (terminated m) (terminated u) := by
            simp [Checked.skipWild, Ne.symm hd]
          rw [Checked.gotStar_congr hskip] at h
          have hm' : nul ∉ m := fun h ↦ hm (List.mem_cons_of_mem _ h)
          obtain ⟨w, hw, hfound⟩ := ihm hm' hu (by omega) (by omega) h
          refine ⟨w, hw, Eq.trans (star_congr ?_) hfound⟩
          simp [skipWild, peek, Ne.symm hd]
  | lit m c r hlit _ =>
      obtain ⟨hc, hr⟩ := hlit.not_mem hm
      have hterm := hlit.terminated
      have hne := terminated_ne_nil r
      have hskip (s : List Char) :
          Checked.skipWild (terminated m) s = some (some (terminated m, s)) :=
        Checked.skipWild_atLiteral hterm.atLiteral (terminated_ne_nil m) s
      cases u with
      | nil => exact star_nul hf hm hlit
      | cons d u =>
          obtain ⟨hd, hu⟩ := not_or.mp (mt List.mem_cons.mpr hu)
          simp only [List.length_cons] at hn hl
          by_cases hdc : f d = f c
          · have hsearch :
                Checked.search f (f c) (terminated (d :: u)) = some (some (terminated u)) := by
              simp [Checked.search, hdc]
            rw [Checked.gotStar_found (hskip _) hterm hc hne hsearch] at h
            obtain ⟨o, ho, hend⟩ := chunk_spec hf hr hu
            rw [ho, Option.bind_some] at h
            have hin (w : CStr) := Checked.chunk_memory (terminated w) hr ho
            -- the chunk ends in memory as it ends on the string, and the search goes on behind it
            cases hend with
            | accept | reject => cases h
            | retry =>
                obtain ⟨w, hw, hfound⟩ := ih u.length (by omega) hm hu (by omega) h rfl
                refine ⟨w, hw, ?_⟩
                rw [terminated_cons, List.cons_append, star_found hlit hdc, (hin w).of_retry]
                exact hfound
            | @star q r' y z ht hq hy hv hr' =>
                have hz : nul ∉ z := fun h ↦ hu (hv ▸ List.mem_append_right y h)
                have hlen : z.length ≤ u.length := by simp [hv]
                obtain ⟨w, hw, hfound⟩ := ih z.length (by omega) hr' hz (by omega) h rfl
                refine ⟨w, hw, ?_⟩
                rw [terminated_cons, List.cons_append, star_found hlit hdc, (hin w).of_star]
                exact hfound
          · cases u with
            | nil =>
                have hsearch : Checked.search f (f c) (terminated [d]) = some none := by
                  simp [Checked.search, hdc]
                rw [Checked.gotStar_unfound (hskip _) hterm hc hne hsearch] at h
                cases h
            | cons e u =>
                obtain ⟨he, -⟩ := not_or.mp (mt List.mem_cons.mpr hu)
                have hsearch : Checked.search f (f c) (terminated (d :: e :: u)) =
                    Checked.search f (f c) (terminated (e :: u)) := by
                  rw [terminated_cons, Checked.search, if_neg hdc]
                  simp [Ne.symm he]
                rw [Checked.gotStar_of_search (hskip _) (hskip _) hterm hne hsearch] at h
                simp only [List.length_cons] at hn hl
                have hlen : (e :: u).length = u.length + 1 := List.length_cons
                obtain ⟨w, hw, hfound⟩ :=
                  ih (e :: u).length (by omega) hm hu (by omega) h rfl
                refine ⟨w, hw, ?_⟩
                rw [terminated_cons, terminated_cons, List.cons_append, List.cons_append,
                  star_cons hlit hdc (Ne.symm he)]
                exact hfound

/-- A comparison that runs over the end of the string. -/
theorem exists_head_of_none (hf : ∀ c, f c = f nul → c = nul) (hm : nul ∉ m) (hu : nul ∉ u)
    (h : Checked.head f (terminated m) (terminated u) = none) :
    ∃ w, nul ∉ w ∧ head f m (terminated u ++ terminated w) = true := by
  induction m using mask_induction generalizing u with
  | nil => cases u <;> cases h
  | star m ih =>
      have hlen : u.length < (terminated u).length + 1 := by
        rw [terminated, List.length_append, List.length_singleton]
        omega
      exact exists_star_of_none hf (fun h ↦ hm (List.mem_cons_of_mem _ h)) hu hlen h
  | quest m ih =>
      cases u with
      | nil => cases h
      | cons d u =>
          obtain ⟨hd, hu⟩ := not_or.mp (mt List.mem_cons.mpr hu)
          have hstep : Checked.head f (terminated m) (terminated u) = none := by
            simpa [Checked.head, Ne.symm hd] using h
          obtain ⟨w, hw, hfound⟩ := ih (fun h ↦ hm (List.mem_cons_of_mem _ h)) hu hstep
          exact ⟨w, hw, by simpa [head, peek, Ne.symm hd] using hfound⟩
  | lit m c r hlit ih =>
      obtain ⟨hc, hr⟩ := hlit.not_mem hm
      rw [Checked.head_literal hlit.terminated hc (terminated_ne_nil r)] at h
      cases u with
      | nil =>
          have hne : f nul ≠ f c := fun h ↦ hc (hf c h.symm)
          simp [Checked.against, hne] at h
      | cons d u =>
          obtain ⟨hd, hu⟩ := not_or.mp (mt List.mem_cons.mpr hu)
          by_cases hdc : f d = f c
          · have hstep : Checked.head f (terminated r) (terminated u) = none := by
              simpa [Checked.against, hdc, Ne.symm hd] using h
            obtain ⟨w, hw, hfound⟩ := ih hr hu hstep
            refine ⟨w, hw, ?_⟩
            rw [hlit.head_eq]
            simpa [peek, hdc, Ne.symm hd] using hfound
          · simp [Checked.against, hdc] at h

end Match

open Match

/-- Where a search starts at the end of the string, some bytes behind it make `match` return 0. -/
theorem exists_ircMatch_of_overruns {mask string : CStr} (hmask : nul ∉ mask)
    (hstring : nul ∉ string) (h : Overruns toLower (tokens mask) string) :
    ∃ after, ircMatch mask (memory string after) = true := by
  have hrun : Checked.head toLower (terminated mask) (terminated string) = none := by
    have hspec := verdict mask string hmask hstring
    generalize Checked.head toLower (terminated mask) (terminated string) = o at hspec
    cases hspec with
    | overrun _ => rfl
    | result hno _ => exact absurd (overruns_iff.mp h) hno
  have hf (c : Char) (h : toLower c = toLower nul) : c = nul :=
    toLower_eq_nul.mp (h.trans (toLower_eq_nul.mpr rfl))
  obtain ⟨w, -, hfound⟩ := exists_head_of_none hf hmask hstring hrun
  refine ⟨terminated w, ?_⟩
  have hmemory : memory string (terminated w) = terminated string ++ terminated w := by
    simp [memory, terminated]
  rw [ircMatch, hmemory]
  exact hfound

end Ircd
