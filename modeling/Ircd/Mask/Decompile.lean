import Ircd.Mask.Compile

/-!
# Masks from their compiled form

`matchdecomp` of `ircd/match.c` prints a compiled mask: the head, the chunks and the tail in their
places, with the wildcards that are literals escaped. The main theorem, `matchcomp_matchdecomp`,
says that the printed mask is compiled to the same text. The loops of `matchcomp` see a mask only
through its tokens, and the tokens of the printed mask are those that were written to the buffer.
-/

namespace Ircd

open CString Wildcard

namespace Match

/-! ## The printer -/

/-- A character of the head or of the tail. -/
def decompChar (c : Char) : CStr :=
  (if isWild c then ['\\'] else []) ++ [if c = 'A' then '?' else c]

/-- The first loop: what is printed, and the compiled mask behind its first star. -/
def decompHead : CStr → CStr × Option CStr
  | [] => ([], none)
  | c :: rcm =>
      if c = 'Z' then ([], some rcm)
      else
        let r := decompHead rcm
        (decompChar c ++ r.1, r.2)

/-- `switch (*rcm)` in the chunks. -/
def decompMid (c : Char) : CStr :=
  if c = 'A' then ['?'] else if c = 'Z' then ['*'] else if isWild c then ['\\', c] else [c]

end Match

open Match in
/-- `matchdecomp`: what is written to `mask`. -/
def matchdecomp (cmask : CStr) : CStr :=
  match decompHead cmask with
  | (head, none) => head
  | (head, some rcm) =>
      let mid := match rcm.dropWhile (· ≠ 'Z') with
        | [] => []
        | _ :: rest => rest.flatMap decompMid ++ ['*']
      -- the tail is read backwards
      head ++ '*' :: (mid ++ (rcm.takeWhile (· ≠ 'Z')).reverse.flatMap decompChar)

namespace Match

variable {attrib : Char → BitVec 32} {h mid p q t : List (Token Char)} {c : Char} {m cmask : CStr}

/-! ## What is printed for a token -/

/-- What is printed for a token. -/
def texto : Token Char → CStr
  | .lit c => if isWild (toLower c) then ['\\', toLower c] else [toLower c]
  | .one => ['?']
  | .star => ['*']

/-- The token of what is printed. -/
def baja : Token Char → Token Char
  | .lit c => .lit (toLower c)
  | .one => .one
  | .star => .star

/-- No folded character is an upper-case letter or a backslash. -/
theorem toLower_ne (c : Char) {d : Char} (hd : isUpperCode d.toNat = true) : toLower c ≠ d := by
  rintro rfl
  exact absurd (isUpperCode_toLower c) (by rw [hd]; decide)

theorem decompChar_code {x : Token Char} (hx : x ≠ .star) : decompChar (code x) = texto x := by
  cases x with
  | lit c =>
      have hA := toLower_ne c (show isUpperCode ('A').toNat = true by decide)
      cases hwild : isWild (toLower c) <;> simp [decompChar, code, texto, hwild, hA]
  | one => rfl
  | star => exact absurd rfl hx

theorem decompMid_code (x : Token Char) : decompMid (code x) = texto x := by
  cases x with
  | lit c =>
      have hA := toLower_ne c (show isUpperCode ('A').toNat = true by decide)
      have hZ := toLower_ne c (show isUpperCode ('Z').toNat = true by decide)
      cases hwild : isWild (toLower c) <;> simp [decompMid, code, texto, hwild, hA, hZ]
  | one => rfl
  | star => rfl

theorem flatMap_decompChar (hp : .star ∉ p) : (p.map code).flatMap decompChar = p.flatMap texto := by
  rw [List.flatMap_map]
  exact List.flatMap_congr fun x hx ↦ decompChar_code (ne_of_mem_of_not_mem hx hp)

/-- The printed text has the tokens that it was printed for. -/
theorem tokens_flatMap_texto (t : List (Token Char)) : tokens (t.flatMap texto) = t.map baja := by
  induction t with
  | nil => rfl
  | cons x t ih =>
      rw [List.flatMap_cons, List.map_cons, ← ih]
      cases x with
      | one => rfl
      | star => rfl
      | lit c =>
          refine Literal.tokens_eq ?_
          cases hwild : isWild (toLower c) with
          | true =>
              simp only [texto, hwild, if_true]
              exact .escape hwild
          | false =>
              have hslash := toLower_ne c (show isUpperCode ('\\').toNat = true by decide)
              simp only [texto, hwild, Bool.false_eq_true, if_false]
              exact .plain hwild fun heq ↦ absurd heq hslash

/-- At most two characters are printed for each one of the compiled mask. -/
theorem length_flatMap_texto (t : List (Token Char)) : (t.flatMap texto).length ≤ 2 * t.length := by
  induction t with
  | nil => exact Nat.le_refl _
  | cons x t ih =>
      have hone : (texto x).length ≤ 2 := by
        cases x with
        | lit c => cases hwild : isWild (toLower c) <;> simp [texto, hwild]
        | one => decide
        | star => decide
      rw [List.flatMap_cons, List.length_append, List.length_cons]
      omega

/-! ## What is printed for a compiled mask -/

theorem code_ne_Z {x : Token Char} (hx : x ≠ .star) : code x ≠ 'Z' := by
  cases x with
  | lit c => exact toLower_ne c (by decide)
  | one => exact by decide
  | star => exact absurd rfl hx

theorem decompHead_append (hh : .star ∉ h) (r : CStr) : decompHead (h.map code ++ r) =
    (h.flatMap texto ++ (decompHead r).1, (decompHead r).2) := by
  induction h with
  | nil => rfl
  | cons x h ih =>
      obtain ⟨hx, htail⟩ := not_or.mp (mt List.mem_cons.mpr hh)
      rw [List.map_cons, List.cons_append, decompHead, if_neg (code_ne_Z (Ne.symm hx)), ih htail,
        decompChar_code (Ne.symm hx), List.flatMap_cons, List.append_assoc]

/-- The printer puts the pattern in order again. -/
theorem Arranged.matchdecomp (ha : Arranged t cmask) : matchdecomp cmask = t.flatMap texto := by
  cases ha with
  | plain hh =>
      have hhead := decompHead_append hh []
      rw [List.append_nil] at hhead
      rw [Ircd.matchdecomp, hhead]
      simp [decompHead]
  | @starred h mid p hh hmid hp =>
      have hhead : decompHead ((h ++ (.star :: p.reverse ++ mid)).map code) =
          (h.flatMap texto, some (p.reverse.map code ++ mid.map code)) := by
        rw [List.map_append, decompHead_append hh]
        simp [code, decompHead]
      have hcode : ∀ c ∈ p.reverse.map code, decide (c ≠ 'Z') = true := fun c hc ↦ by
        obtain ⟨x, hx, rfl⟩ := List.mem_map.mp hc
        exact decide_eq_true (code_ne_Z (ne_of_mem_of_not_mem (List.mem_reverse.mp hx) hp))
      have htake : (p.reverse.map code ++ mid.map code).takeWhile (· ≠ 'Z') = p.reverse.map code := by
        rw [List.takeWhile_append_of_pos hcode]
        obtain rfl | ⟨q, rfl, -⟩ := hmid <;> simp [code]
      have hdrop : (p.reverse.map code ++ mid.map code).dropWhile (· ≠ 'Z') = mid.map code := by
        rw [List.dropWhile_append_of_pos hcode]
        obtain rfl | ⟨q, rfl, -⟩ := hmid <;> simp [code]
      rw [Ircd.matchdecomp, hhead]
      simp only [htake, hdrop]
      rw [← List.map_reverse, List.reverse_reverse, flatMap_decompChar hp, List.flatMap_append,
        List.flatMap_append, List.flatMap_cons]
      obtain rfl | ⟨q, rfl, -⟩ := hmid
      · simp [texto]
      · have hmid : (q.map code).flatMap decompMid = q.flatMap texto := by
          rw [List.flatMap_map]
          exact List.flatMap_congr fun x _ ↦ decompMid_code x
        simp [texto, hmid]

theorem Arranged.length (ha : Arranged t cmask) : cmask.length = t.length := by
  cases ha with
  | plain hh => exact List.length_map ..
  | starred hh hmid hp =>
      simp only [List.length_map, List.length_append, List.length_cons, List.length_reverse]
      omega

/-! ## The compiler sees the tokens -/

namespace Comp

/-- The loop of `matchcomp` over tokens. -/
def replay (attrib : Char → BitVec 32) : List (Token Char) → Comp → Comp
  | [], st => st
  | .star :: t, st => replay attrib t { st with star := true }
  | .one :: t, st => replay attrib t st.quest
  | .lit c :: t, st => replay attrib t (st.literal attrib c)

theorem scan_eq_replay (attrib : Char → BitVec 32) (m : CStr) (st : Comp) :
    scan attrib m st = replay attrib (tokens m) st := by
  induction m using mask_induction generalizing st with
  | nil => rfl
  | star m ih => exact ih _
  | quest m ih => exact ih _
  | lit m c r hlit ih => rw [scan_literal hlit, hlit.tokens_eq, replay, ih]

/-- A literal is folded when it is written. -/
theorem literal_toLower (st : Comp) (c : Char) :
    st.literal attrib (toLower c) = st.literal attrib c := by
  simp [literal]

theorem replay_map_baja (t : List (Token Char)) (st : Comp) :
    replay attrib (t.map baja) st = replay attrib t st := by
  induction t generalizing st with
  | nil => rfl
  | cons x t ih =>
      cases x with
      | star => exact ih _
      | one => exact ih _
      | lit c =>
          show replay attrib (t.map baja) (st.literal attrib (toLower c)) = _
          rw [literal_toLower, ih]
          rfl

theorem replay_append (t u : List (Token Char)) (st : Comp) :
    replay attrib (t ++ u) st = replay attrib u (replay attrib t st) := by
  induction t generalizing st with
  | nil => rfl
  | cons x t ih => cases x <;> exact ih _

/-- A star that is held back can be put in again. -/
theorem replay_pending (st : Comp) :
    replay attrib (pending st.star) { st with star := false } = st := by
  obtain ⟨b, fs, ls, star, cnt, chset, chset2⟩ := st
  cases star <;> rfl

/-- What is written for a pattern is compiled to the same state. -/
theorem replay_written (t : List (Token Char)) (st : Comp) : replay attrib
    (written st.star t ++ pending (replay attrib t st).star) { st with star := false } =
      replay attrib t st := by
  induction t generalizing st with
  | nil => exact replay_pending st
  | cons x t ih =>
      cases x with
      | star => exact ih { st with star := true }
      | one => exact ih st.quest
      | lit c =>
          have hnext := ih (st.literal attrib c)
          have hfalse : (st.literal attrib c).star = false := literal_star st c
          have hstar : { st.literal attrib c with star := false } = st.literal attrib c := by
            rw [← hfalse]
          rw [hfalse, hstar] at hnext
          rw [written, replay, List.append_assoc, replay_append, replay_pending]
          exact hnext

end Comp

/-- The result of `matchcomp` is taken from the state behind the loop. -/
theorem matchcomp_congr {m m' : CStr}
    (h : Comp.init.scan attrib m = Comp.init.scan attrib m') :
    matchcomp attrib (some m) = matchcomp attrib (some m') := by
  simp only [matchcomp, h]

end Match

open Match

/-- A compiled mask is printed as a mask that is compiled to the same text, with the same minimal
length and the same charset, and at most two characters are printed for each one of it. -/
theorem matchcomp_matchdecomp (attrib : Char → BitVec 32) (m : CStr) :
    matchcomp attrib (some (matchdecomp (matchcomp attrib (some m)).cmask)) =
      matchcomp attrib (some m) ∧
    (matchdecomp (matchcomp attrib (some m)).cmask).length ≤
      2 * (matchcomp attrib (some m)).cmask.length := by
  have harranged : Arranged (written false (tokens m) ++ pending (Comp.init.scan attrib m).star)
      (matchcomp attrib (some m)).cmask := (Comp.scan_inv attrib m Comp.init_inv).arranged
  have hprint := harranged.matchdecomp
  constructor
  · have hscan : Comp.init.scan attrib (matchdecomp (matchcomp attrib (some m)).cmask) =
        Comp.init.scan attrib m := by
      rw [hprint, Comp.scan_eq_replay, tokens_flatMap_texto, Comp.replay_map_baja,
        Comp.scan_eq_replay]
      exact Comp.replay_written (tokens m) Comp.init
    exact matchcomp_congr hscan
  · rw [hprint, harranged.length]
    exact length_flatMap_texto _

example : matchdecomp (matchcomp (fun _ ↦ 0) (some "Head*chu\\*nK1*ch??k2*TaIl".toList)).cmask =
    "head*chu\\*nk1*ch??k2*tail".toList := by decide +kernel

end Ircd
