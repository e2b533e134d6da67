import Ircd.Addr.Base64

/-!
# Addresses in base 64 that a peer sends

`base64toip` of `ircd/numnicks.c` reads three characters at a time without looking for the end of
the string, and takes the length of a run of zeros from the length of what is left. The main
theorem, `base64toip_iff`, tells the strings that it reads without leaving the string and the
address.
-/

namespace Ircd.Addr

open CString IPcheck

/-! ## Groups -/

/-- Some of the first `n` groups is the mark of a run. -/
def hayMarca : Nat → CStr → Bool
  | 0, _ => false
  | _ + 1, '_' :: _ => true
  | n + 1, _ :: _ :: _ :: input => hayMarca n input
  | _ + 1, _ => false

/-- The characters behind the last group: a group is a mark or three characters. -/
def sobra : CStr → Nat
  | '_' :: input => sobra input
  | _ :: _ :: _ :: input => sobra input
  | input => input.length

/-- The length that `base64toip` takes into account does not see the terminator. -/
theorem strlen_append_nul {input : CStr} (hnul : nul ∉ input) :
    strlen (input ++ [nul]) = input.length := by
  rw [strlen, List.takeWhile_append_of_pos fun c hc ↦ decide_eq_true (ne_of_mem_of_not_mem hc hnul)]
  simp

/-! ## A step of the loop -/

/-- The length of a run, when it does not wrap. -/
theorem left_of_le {n pos : Nat} (h : n + 3 * pos ≤ 25) : left n pos = (25 - n - 3 * pos) / 3 := by
  have hsub : 2 ^ 64 + 25 - n = 2 ^ 64 + (25 - n) := by omega
  have hdiv : (25 - n) / 3 = pos + (25 - n - 3 * pos) / 3 := by omega
  rw [left, hsub, Nat.add_mod_left, Nat.mod_eq_of_lt (show 25 - n < 2 ^ 64 by omega), hdiv]
  omega

/-- A run whose length wraps leaves the address. -/
theorem le_left {n pos : Nat} (h : 25 < n + 3 * pos) (hpos : pos < 8) (hn : n < 2 ^ 31) :
    8 < left n pos := by
  rw [left]
  by_cases hle : n ≤ 25
  · -- the division leaves less than `pos`
    have hsub : 2 ^ 64 + 25 - n = 2 ^ 64 + (25 - n) := by omega
    rw [hsub, Nat.add_mod_left, Nat.mod_eq_of_lt (show 25 - n < 2 ^ 64 by omega)]
    omega
  · -- the length of the rest is more than 25
    rw [Nat.mod_eq_of_lt (show 2 ^ 64 + 25 - n < 2 ^ 64 by omega)]
    omega

/-- A mark. -/
theorem base64toipDesde_run {input : CStr} (hnul : nul ∉ input) (segs : List UInt16) :
    base64toipDesde ('_' :: input ++ [nul]) segs =
      let segs' := segs ++ List.replicate (left (input.length + 1) segs.length) 0
      if segs'.length < 8 then base64toipDesde (input ++ [nul]) segs'
      else if segs'.length = 8 then some segs' else none := by
  have hstrlen : strlen ('_' :: input ++ [nul]) = ('_' :: input).length :=
    strlen_append_nul (by simp [hnul, nul])
  rw [List.cons_append, base64toipDesde, ← List.cons_append, hstrlen, List.length_cons]

/-- Three characters. -/
theorem base64toipDesde_three {c₁ c₂ c₃ : Char} (hc : c₁ ≠ '_') (input : List Char)
    (segs : List UInt16) :
    (base64toipDesde (c₁ :: c₂ :: c₃ :: input) segs).isSome ↔ 7 ≤ segs.length ∨
      (base64toipDesde input (segs ++ [htons (empuja (empuja (convert2n c₁).toUInt16 c₂) c₃)])).isSome
      := by
  rw [base64toipDesde]
  · simp only [List.length_append, List.length_singleton]
    split
    · exact ⟨.inr, fun h ↦ h.resolve_left (by omega)⟩
    · exact iff_of_true rfl (.inl (by omega))
  · exact hc

/-- Less than three characters, the terminator among them. -/
theorem base64toipDesde_short {input : List Char} (hlen : input.length < 3)
    (hmark : ∀ s, input ≠ '_' :: s) (segs : List UInt16) : base64toipDesde input segs = none := by
  rcases input with _ | ⟨c₁, _ | ⟨c₂, _ | ⟨c₃, s⟩⟩⟩
  · rfl
  · rw [base64toipDesde]
    · exact hmark
    · simp
  · rw [base64toipDesde]
    · exact hmark
    · simp
  · simp at hlen
    omega

/-! ## The loop -/

/-- Behind a mark the rest lacks at most two characters of the segments that are left. It is read
unless a single character is left over. -/
theorem base64toipDesde_iff_sobra {input : CStr} (hnul : nul ∉ input) {falta : Nat}
    (hfalta : falta ≤ 2) {segs : List UInt16} (hsegs : segs.length < 8)
    (hlen : input.length + falta = 3 * (8 - segs.length)) :
    (base64toipDesde (input ++ [nul]) segs).isSome ↔ sobra input ≠ 1 := by
  induction input using sobra.induct generalizing falta segs with
  | case1 input ih =>
      have hrest : nul ∉ input := List.not_mem_of_not_mem_cons hnul
      rw [List.length_cons] at hlen
      rw [base64toipDesde_run hrest, left_of_le (by omega), sobra]
      have hleft : (25 - (input.length + 1) - 3 * segs.length) / 3 = (falta + 1) / 3 := by omega
      simp only [hleft, List.length_append, List.length_replicate]
      by_cases hfin : segs.length + (falta + 1) / 3 < 8
      · rw [if_pos hfin]
        refine ih hrest (show (falta + 1) % 3 ≤ 2 by omega) ?_ ?_
        · rw [List.length_append, List.length_replicate]
          exact hfin
        · rw [List.length_append, List.length_replicate]
          omega
      · -- the run was the last group
        have hnil : input = [] := List.length_eq_zero_iff.mp (by omega)
        rw [if_neg hfin, if_pos (by omega), hnil]
        exact iff_of_true rfl (by decide)
  | case2 c₁ c₂ c₃ input hc ih =>
      have hrest : nul ∉ input := fun h ↦ hnul (by simp [h])
      simp only [List.length_cons] at hlen
      rw [List.cons_append, List.cons_append, List.cons_append, base64toipDesde_three hc, sobra]
      · by_cases hlast : 7 ≤ segs.length
        · have hnil : input = [] := List.length_eq_zero_iff.mp (by omega)
          rw [hnil]
          exact iff_of_true (.inl hlast) (by decide)
        · rw [or_iff_right hlast]
          refine ih hrest hfalta ?_ ?_
          · rw [List.length_append, List.length_singleton]
            omega
          · rw [List.length_append, List.length_singleton]
            omega
      · exact hc
  | case3 input hmark hthree =>
      rcases input with _ | ⟨c₁, _ | ⟨c₂, _ | ⟨c₃, s⟩⟩⟩
      · rw [List.length_nil] at hlen
        omega
      · have hne : c₁ ≠ '_' := fun h ↦ hmark [] (by rw [h])
        rw [base64toipDesde_short (by simp) (by simp [hne])]
        simp [sobra]
      · have hne : c₁ ≠ '_' := fun h ↦ hmark [c₂] (by rw [h])
        simp only [List.length_cons, List.length_nil] at hlen
        rw [List.cons_append, List.cons_append, List.nil_append, base64toipDesde_three hne]
        refine iff_of_true (.inl (by omega)) ?_
        simp [sobra]
      · exact absurd rfl (hthree c₁ c₂ c₃ s)

/-- The loop, before the first mark. -/
theorem base64toipDesde_iff {input : CStr} (hnul : nul ∉ input) (hmax : input.length < 2 ^ 31)
    {segs : List UInt16} {n : Nat} (hn : segs.length + (n + 1) = 8) :
    (base64toipDesde (input ++ [nul]) segs).isSome ↔
      if hayMarca (n + 1) input then input.length + 3 * segs.length ≤ 25 ∧ sobra input ≠ 1
      else 23 ≤ input.length + 3 * segs.length := by
  induction input using sobra.induct generalizing n segs with
  | case1 input ih =>
      have hrest : nul ∉ input := List.not_mem_of_not_mem_cons hnul
      rw [List.length_cons] at hmax ⊢
      rw [base64toipDesde_run hrest, hayMarca, if_pos rfl, sobra]
      simp only [List.length_append, List.length_replicate]
      by_cases hle : input.length + 1 + 3 * segs.length ≤ 25
      · rw [left_of_le hle, and_iff_right hle]
        by_cases hfin : segs.length + (25 - (input.length + 1) - 3 * segs.length) / 3 < 8
        · rw [if_pos hfin]
          refine base64toipDesde_iff_sobra hrest
            (show (25 - (input.length + 1) - 3 * segs.length) % 3 ≤ 2 by omega) ?_ ?_
          · rw [List.length_append, List.length_replicate]
            exact hfin
          · rw [List.length_append, List.length_replicate]
            omega
        · have hnil : input = [] := List.length_eq_zero_iff.mp (by omega)
          rw [if_neg hfin, if_pos (by omega), hnil]
          exact iff_of_true rfl (by decide)
      · -- the length of the run wraps
        have hout := le_left (n := input.length + 1) (not_le.mp hle) (by omega) hmax
        rw [if_neg (by omega), if_neg (by omega)]
        exact iff_of_false (by simp) fun h ↦ hle h.1
  | case2 c₁ c₂ c₃ input hc ih =>
      have hrest : nul ∉ input := fun h ↦ hnul (by simp [h])
      simp only [List.length_cons] at hmax ⊢
      rw [List.cons_append, List.cons_append, List.cons_append, base64toipDesde_three hc, sobra,
        hayMarca]
      · cases n with
        | zero =>
            rw [hayMarca, if_neg (by simp)]
            exact iff_of_true (.inl (by omega)) (by omega)
        | succ n =>
            have hshift : input.length + 1 + 1 + 1 + 3 * segs.length =
                input.length + 3 * (segs.length + 1) := by omega
            rw [or_iff_right (by omega), hshift]
            have hlen : (segs ++ [htons (empuja (empuja (convert2n c₁).toUInt16 c₂) c₃)]).length +
                (n + 1) = 8 := by
              rw [List.length_append, List.length_singleton]
              omega
            have h := ih hrest (by omega) hlen
            rwa [List.length_append, List.length_singleton] at h
      · exact hc
      · exact hc
  | case3 input hmark hthree =>
      rcases input with _ | ⟨c₁, _ | ⟨c₂, _ | ⟨c₃, s⟩⟩⟩
      · rw [base64toipDesde_short (by simp) (by simp [nul])]
        simp [hayMarca]
        omega
      · have hne : c₁ ≠ '_' := fun h ↦ hmark [] (by rw [h])
        rw [base64toipDesde_short (by simp) (by simp [hne])]
        simp [hayMarca]
        omega
      · have hne : c₁ ≠ '_' := fun h ↦ hmark [c₂] (by rw [h])
        rw [List.cons_append, List.cons_append, List.nil_append, base64toipDesde_three hne,
          base64toipDesde_short (by simp) (by simp)]
        simp [hayMarca]
        omega
      · exact absurd rfl (hthree c₁ c₂ c₃ s)

/-- The strings that `base64toip` reads inside the string, with what it writes inside the address. A
line of a peer has less than 512 characters. -/
theorem base64toip_iff {input : CStr} (hnul : nul ∉ input) (hmax : input.length < 2 ^ 31) :
    (base64toip input).isSome ↔ input.length = 6 ∨
      if hayMarca 8 input then input.length ≤ 25 ∧ sobra input ≠ 1 else 23 ≤ input.length := by
  rw [base64toip]
  by_cases hsix : input.length = 6
  · rw [if_pos hsix]
    refine iff_of_true ?_ (.inl hsix)
    by_cases haddr : base64toint input = 0
    · simp [haddr]
    · simp [haddr]
  · rw [if_neg hsix, or_iff_right hsix, Option.isSome_map]
    exact base64toipDesde_iff hnul hmax (show ([] : List UInt16).length + (7 + 1) = 8 from rfl)

/-- A run in the middle of an address. -/
theorem base64toip_racha : (base64toip "CAB_AAB".toList).isSome ↔
    "CAB_AAB".toList.length = 6 ∨
      if hayMarca 8 "CAB_AAB".toList then "CAB_AAB".toList.length ≤ 25 ∧ sobra "CAB_AAB".toList ≠ 1
      else 23 ≤ "CAB_AAB".toList.length :=
  base64toip_iff (by decide) (by decide)

/-- A string of a single group is read behind its end. -/
theorem base64toip_corta : base64toip "AAA".toList = none := by
  decide

end Ircd.Addr
