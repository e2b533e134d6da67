import Ircd.Mask.Exec

/-!
# The charset of a compiled mask

`matchcomp` returns the attributes that all the literals of a mask have, and two bits of its own:
`NTL_LOWER` for a mask without wildcards and `NTL_UPPER` for one of wildcards alone. The main
theorem, `charset_iff`, says for which masks the charset is what `ircd/match.c` says of it.
-/

namespace Ircd

open CString Wildcard

namespace Match

/-! ## Attributes -/

def NTL_IRCNK : BitVec 32 := 0x1000

def NTL_IRCUI : BitVec 32 := 0x2000

def NTL_IRCHN : BitVec 32 := 0x4000

def NTL_IRCIP : BitVec 32 := 0x8000

/-- The rows of `NTL_char_attrib`: the last character of each and the attributes. -/
def filasAttrib : List (Nat × BitVec 32) :=
  [(0x06, 0x0404), (0x07, 0x0004), (0x08, 0x0404), (0x09, 0x0504), (0x0a, 0x10504), (0x0c, 0x0504),
    (0x0d, 0x10504), (0x1f, 0x0404), (0x20, 0x0140), (0x26, 0x04d0), (0x27, 0x24d0), (0x2b, 0x04d0),
    (0x2c, 0x00d0), (0x2d, 0x874d0), (0x2e, 0xe4d0), (0x2f, 0x04d0), (0x39, 0x8f459),
    (0x40, 0x04d0), (0x5a, 0xc7653), (0x5e, 0x7653), (0x5f, 0x874d0), (0x60, 0x34d0),
    (0x7a, 0xa7473), (0x7e, 0x7473), (0x9f, 0x0400), (0xa0, 0x0000), (0xbf, 0x0400),
    (0xd6, 0x2c00), (0xd7, 0x0400), (0xde, 0x2c00), (0xdf, 0x0400), (0xf6, 0x2400), (0xf7, 0x0400),
    (0xfe, 0x2400), (0xff, 0x0400)]

/-- The attributes of a byte. -/
def attribCode (n : Nat) : BitVec 32 :=
  match filasAttrib.find? fun fila ↦ n ≤ fila.1 with
  | some fila => fila.2
  | none => 0

/-- `NTL_char_attrib`. -/
def ntlCharAttrib (c : Char) : BitVec 32 :=
  attribCode c.toNat

/-- A bit of a set of attributes. -/
theorem and_twoPow_ne_zero (x : BitVec 32) {i : Nat} (hi : i < 32) :
    x &&& BitVec.twoPow 32 i ≠ 0 ↔ x.getLsbD i = true := by
  rw [BitVec.and_twoPow]
  split
  · next h =>
      refine iff_of_true (fun hcero ↦ ?_) h
      have hbit := congrArg (fun y ↦ y.getLsbD i) hcero
      simp [hi] at hbit
  · next h => simp [h]

theorem attribCode_of_le {n : Nat} (h : 256 ≤ n) : attribCode n = 0 := by
  have hnone : filasAttrib.find? (fun fila ↦ n ≤ fila.1) = none := by
    rw [List.find?_eq_none]
    intro fila hfila
    have hlast : ∀ fila ∈ filasAttrib, fila.1 ≤ 255 := by decide
    have hle := hlast fila hfila
    simpa using (show fila.1 < n by omega)
  rw [attribCode, hnone]

/-- Folding a character keeps the attributes that the strings of the network are told by. -/
theorem attrib_toLower {i : Nat} (hi : i ∈ [12, 13, 14, 15]) {c : Char}
    (h : (ntlCharAttrib c).getLsbD i = true) : (ntlCharAttrib (toLower c)).getLsbD i = true := by
  have htable : ∀ n < 256, isUpperCode n = true → ∀ i ∈ [12, 13, 14, 15],
      (attribCode n).getLsbD i = true → (attribCode (n + 32)).getLsbD i = true := by
    decide +kernel
  by_cases hup : isUpperCode c.toNat = true
  · have hlt : c.toNat < 256 := by
      simp only [isUpperCode, decide_eq_true_eq] at hup
      omega
    have hcode := htable c.toNat hlt hup i hi h
    rw [ntlCharAttrib, toLower, if_pos hup, toNat_ofNat_of_isUpperCode hup]
    exact hcode
  · rwa [toLower, if_neg hup]

/-- No folded character is an upper-case letter. -/
theorem attrib_toLower_upper (c : Char) : (ntlCharAttrib (toLower c)).getLsbD 9 = false := by
  have htable : ∀ n < 256, isUpperCode n = false → (attribCode n).getLsbD 9 = false := by
    decide +kernel
  by_cases hlt : (toLower c).toNat < 256
  · exact htable _ hlt (isUpperCode_toLower c)
  · rw [ntlCharAttrib, attribCode_of_le (not_lt.mp hlt)]
    rfl

/-! ## What the loop keeps -/

variable {attrib : Char → BitVec 32} {m : CStr} {st : Comp} {i : Nat}

/-- A literal has an attribute once folded. -/
def litTiene (attrib : Char → BitVec 32) (i : Nat) : Token Char → Bool
  | .lit c => (attrib (toLower c)).getLsbD i
  | _ => true

def esLit : Token Char → Bool
  | .lit _ => true
  | _ => false

/-- The loop takes note of a wildcard: of a question mark, and of a star with a literal behind. -/
def marcado : Bool → List (Token Char) → Bool
  | _, [] => false
  | _, .star :: t => marcado true t
  | _, .one :: _ => true
  | star, .lit _ :: t => star || marcado false t

namespace Comp

theorem literal_chset (st : Comp) (c : Char) :
    (st.literal attrib c).chset = st.chset &&& attrib (toLower c) := by
  cases hstar : st.star <;> simp [literal, putStar, hstar]

theorem literal_chset2 (st : Comp) (c : Char) : (st.literal attrib c).chset2 =
    (if st.star then st.chset2 &&& ~~~NTL_LOWER else st.chset2) &&& ~~~NTL_UPPER := by
  cases hstar : st.star <;> simp [literal, putStar, hstar]

/-- The attributes that all literals have are left. -/
theorem scan_chset (m : CStr) (st : Comp) : (scan attrib m st).chset.getLsbD i =
    (st.chset.getLsbD i && (tokens m).all (litTiene attrib i)) := by
  induction m using mask_induction generalizing st with
  | nil => simp [scan, tokens]
  | star m ih => exact ih { st with star := true }
  | quest m ih => exact ih st.quest
  | lit m c r hlit ih =>
      rw [scan_literal hlit, ih, literal_chset, hlit.tokens_eq, List.all_cons, BitVec.getLsbD_and,
        Bool.and_assoc]
      rfl

/-- Only literals clear the bit of the masks of wildcards alone. -/
theorem scan_upper (m : CStr) (st : Comp) : (scan attrib m st).chset2.getLsbD 9 =
    (st.chset2.getLsbD 9 && (tokens m).all fun t ↦ !esLit t) := by
  induction m using mask_induction generalizing st with
  | nil => simp [scan, tokens]
  | star m ih => exact ih { st with star := true }
  | quest m ih =>
      have h := ih st.quest
      have hquest : st.quest.chset2.getLsbD 9 = st.chset2.getLsbD 9 := by
        simp [quest, NTL_LOWER]
      rwa [hquest] at h
  | lit m c r hlit ih =>
      have hclear : (st.literal attrib c).chset2.getLsbD 9 = false := by
        rw [literal_chset2]
        simp [NTL_UPPER]
      rw [scan_literal hlit, ih, hclear, hlit.tokens_eq]
      simp [esLit]

/-- The wildcards that the loop takes note of clear the bit of the masks without wildcards. -/
theorem scan_lower (m : CStr) (st : Comp) : (scan attrib m st).chset2.getLsbD 5 =
    (st.chset2.getLsbD 5 && !marcado st.star (tokens m)) := by
  induction m using mask_induction generalizing st with
  | nil => simp [scan, tokens, marcado]
  | star m ih => exact ih { st with star := true }
  | quest m ih =>
      have hclear : st.quest.chset2.getLsbD 5 = false := by
        simp [quest, NTL_LOWER]
      have h := ih st.quest
      rw [hclear, Bool.false_and] at h
      rw [show tokens ('?' :: m) = .one :: tokens m from rfl, marcado, Bool.not_true,
        Bool.and_false]
      exact h
  | lit m c r hlit ih =>
      have hbit : (st.literal attrib c).chset2.getLsbD 5 = (st.chset2.getLsbD 5 && !st.star) := by
        rw [literal_chset2]
        cases st.star <;> simp [NTL_LOWER, NTL_UPPER]
      rw [scan_literal hlit, ih, hbit, literal_star, hlit.tokens_eq, marcado, Bool.not_or,
        Bool.and_assoc]

/-- The other bits of `chset2` are never set. -/
theorem scan_chset2 (h : st.chset2.getLsbD i = false) (m : CStr) :
    (scan attrib m st).chset2.getLsbD i = false := by
  induction m using mask_induction generalizing st with
  | nil => exact h
  | star m ih => exact ih h
  | quest m ih =>
      have hquest : st.quest.chset2.getLsbD i = false := by
        rw [quest, BitVec.getLsbD_and, h, Bool.false_and]
      exact ih hquest
  | lit m c r hlit ih =>
      rw [scan_literal hlit]
      refine ih ?_
      rw [literal_chset2, BitVec.getLsbD_and]
      cases st.star <;> simp [BitVec.getLsbD_and, h]

end Comp

/-! ## The charset -/

/-- The mask has no unescaped wildcard. -/
def SinComodines (m : CStr) : Prop :=
  ∀ t ∈ tokens m, esLit t = true

/-- The mask has only wildcards. -/
def SoloComodines (m : CStr) : Prop :=
  ∀ t ∈ tokens m, esLit t = false

/-- The loop takes note of a question mark, and of a star with a literal behind. -/
theorem marcado_iff (star : Bool) (t : List (Token Char)) : marcado star t = true ↔
    .one ∈ t ∨ (star = true ∧ ∃ c, .lit c ∈ t) ∨
      ∃ p q c, t = p ++ .star :: q ∧ .lit c ∈ q := by
  induction t generalizing star with
  | nil => simp [marcado]
  | cons x t ih =>
      cases x with
      | one => simp [marcado]
      | star =>
          rw [marcado, ih]
          constructor
          · rintro (h | ⟨-, c, hc⟩ | ⟨p, q, c, rfl, hc⟩)
            · exact .inl (List.mem_cons_of_mem _ h)
            · exact .inr (.inr ⟨[], t, c, rfl, hc⟩)
            · exact .inr (.inr ⟨.star :: p, q, c, rfl, hc⟩)
          · rintro (h | ⟨-, c, hc⟩ | ⟨p, q, c, heq, hc⟩)
            · exact .inl (by simpa using h)
            · exact .inr (.inl ⟨rfl, c, by simpa using hc⟩)
            · cases p with
              | nil => exact .inr (.inl ⟨rfl, c, (List.cons.inj heq).2 ▸ hc⟩)
              | cons y p => exact .inr (.inr ⟨p, q, c, (List.cons.inj heq).2, hc⟩)
      | lit d =>
          rw [marcado, Bool.or_eq_true, ih]
          constructor
          · rintro (h | h | ⟨h, -⟩ | ⟨p, q, c, rfl, hc⟩)
            · exact .inr (.inl ⟨h, d, List.mem_cons_self⟩)
            · exact .inl (List.mem_cons_of_mem _ h)
            · exact absurd h Bool.false_ne_true
            · exact .inr (.inr ⟨.lit d :: p, q, c, rfl, hc⟩)
          · rintro (h | ⟨h, -⟩ | ⟨p, q, c, heq, hc⟩)
            · exact .inr (.inl (by simpa using h))
            · exact .inl h
            · cases p with
              | nil => exact absurd (List.cons.inj heq).1 (by simp)
              | cons y p => exact .inr (.inr (.inr ⟨p, q, c, (List.cons.inj heq).2, hc⟩))

/-- A literal of a pattern stands for a character of every string of its language. -/
theorem exists_of_lit_mem {p : List (Token Char)} {s : List Char} {c : Char} (hc : .lit c ∈ p)
    (hs : s ∈ lang toLower p) : ∃ d ∈ s, toLower d = toLower c := by
  obtain ⟨p, q, rfl⟩ := List.append_of_mem hc
  obtain ⟨y, -, z, hz, rfl⟩ := mem_append.mp hs
  cases z with
  | nil => exact (nil_mem_lit.mp hz).elim
  | cons d z => exact ⟨d, by simp, (cons_mem_lit.mp hz).1⟩

/-- The attributes in the charset. -/
theorem charset_attrib (hi : i ∈ [12, 13, 14, 15]) (m : CStr) :
    (matchcomp attrib (some m)).charset.getLsbD i = (tokens m).all (litTiene attrib i) := by
  have hinit : ∀ i ∈ [12, 13, 14, 15], Comp.init.chset2.getLsbD i = false ∧
      Comp.init.chset.getLsbD i = true := by decide
  obtain ⟨hchset2, hchset⟩ := hinit i hi
  show ((Comp.init.scan attrib m).chset ||| (Comp.init.scan attrib m).chset2).getLsbD i = _
  rw [BitVec.getLsbD_or, Comp.scan_chset, Comp.scan_chset2 hchset2, hchset, Bool.true_and,
    Bool.or_false]

/-- `NTL_UPPER` in the charset. -/
theorem charset_upper (m : CStr) :
    (matchcomp ntlCharAttrib (some m)).charset.getLsbD 9 = (tokens m).all fun t ↦ !esLit t := by
  have hlit : litTiene ntlCharAttrib 9 = fun t ↦ !esLit t := by
    funext t
    cases t with
    | lit c => exact attrib_toLower_upper c
    | one => rfl
    | star => rfl
  show ((Comp.init.scan ntlCharAttrib m).chset ||| (Comp.init.scan ntlCharAttrib m).chset2).getLsbD 9
    = _
  rw [BitVec.getLsbD_or, Comp.scan_chset, Comp.scan_upper, hlit]
  have hinit : Comp.init.chset.getLsbD 9 = true ∧ Comp.init.chset2.getLsbD 9 = true := by decide
  rw [hinit.1, hinit.2, Bool.true_and, Bool.or_self]

/-- `NTL_LOWER` in the charset. -/
theorem charset_lower (m : CStr) : (matchcomp attrib (some m)).charset.getLsbD 5 =
    ((tokens m).all (litTiene attrib 5) || !marcado false (tokens m)) := by
  have hinit : Comp.init.chset.getLsbD 5 = true ∧ Comp.init.chset2.getLsbD 5 = true ∧
      Comp.init.star = false := by decide
  show ((Comp.init.scan attrib m).chset ||| (Comp.init.scan attrib m).chset2).getLsbD 5 = _
  rw [BitVec.getLsbD_or, Comp.scan_chset, Comp.scan_lower, hinit.1, hinit.2.1, hinit.2.2,
    Bool.true_and, Bool.true_and]

/-- What is said of the charset of a mask. A string without a character outside an attribute that
is not in it does not match. -/
def CharsetFiel (m : CStr) : Prop :=
  let r := matchcomp ntlCharAttrib (some m)
  (∀ x ∈ [NTL_IRCNK, NTL_IRCUI, NTL_IRCHN, NTL_IRCIP], r.charset &&& x = 0 →
    ∀ s : CStr, nul ∉ s → (∀ c ∈ s, ntlCharAttrib c &&& x ≠ 0) →
      s ∉ lang toLower (tokens m) ∧
      ∀ before after, matchexec before (memory s after) r.cmask r.minlen ≠ 0) ∧
  (r.charset &&& NTL_LOWER ≠ 0 ↔ SinComodines m) ∧
  (r.charset &&& NTL_UPPER ≠ 0 ↔ SoloComodines m)

/-- A string whose characters have an attribute that some literal lacks is not of the language. -/
theorem not_mem_of_attrib {s : List Char} (hi : i ∈ [12, 13, 14, 15])
    (hm : (tokens m).all (litTiene ntlCharAttrib i) = false)
    (hs : ∀ c ∈ s, (ntlCharAttrib c).getLsbD i = true) : s ∉ lang toLower (tokens m) := by
  intro hmem
  obtain ⟨t, ht, hlacks⟩ := List.all_eq_false.mp hm
  cases t with
  | one => exact hlacks rfl
  | star => exact hlacks rfl
  | lit c =>
      obtain ⟨d, hd, hfold⟩ := exists_of_lit_mem ht hmem
      have hattrib := attrib_toLower hi (hs d hd)
      rw [hfold] at hattrib
      exact hlacks hattrib

theorem twoPow_attrib {x : BitVec 32} (hx : x ∈ [NTL_IRCNK, NTL_IRCUI, NTL_IRCHN, NTL_IRCIP]) :
    ∃ i ∈ [12, 13, 14, 15], x = BitVec.twoPow 32 i := by
  simp only [List.mem_cons, List.not_mem_nil, or_false] at hx
  obtain rfl | rfl | rfl | rfl := hx
  · exact ⟨12, by decide, rfl⟩
  · exact ⟨13, by decide, rfl⟩
  · exact ⟨14, by decide, rfl⟩
  · exact ⟨15, by decide, rfl⟩

/-- What lacks an attribute that the charset lacks does not match. -/
theorem attrib_sound (hm : nul ∉ m) : ∀ x ∈ [NTL_IRCNK, NTL_IRCUI, NTL_IRCHN, NTL_IRCIP],
    (matchcomp ntlCharAttrib (some m)).charset &&& x = 0 →
      ∀ s : CStr, nul ∉ s → (∀ c ∈ s, ntlCharAttrib c &&& x ≠ 0) →
        s ∉ lang toLower (tokens m) ∧
        ∀ before after, matchexec before (memory s after)
          (matchcomp ntlCharAttrib (some m)).cmask (matchcomp ntlCharAttrib (some m)).minlen ≠ 0 := by
  intro x hx hcharset s hs hattrib
  obtain ⟨i, hi, rfl⟩ := twoPow_attrib hx
  have hlt : i < 32 := by
    have hall : ∀ i ∈ [12, 13, 14, 15], i < 32 := by decide
    exact hall i hi
  have hlacks : (tokens m).all (litTiene ntlCharAttrib i) = false := by
    rw [← charset_attrib hi, ← Bool.not_eq_true, ← and_twoPow_ne_zero _ hlt]
    exact not_not.mpr hcharset
  have hnot := not_mem_of_attrib hi hlacks fun c hc ↦ (and_twoPow_ne_zero _ hlt).mp (hattrib c hc)
  exact ⟨hnot, fun before after h ↦
    hnot (((matchexec_matchcomp ntlCharAttrib m s hm hs).1 before after).mp h)⟩

/-- `NTL_UPPER` tells the masks of wildcards alone. -/
theorem upper_exact (m : CStr) :
    (matchcomp ntlCharAttrib (some m)).charset &&& NTL_UPPER ≠ 0 ↔ SoloComodines m := by
  rw [show NTL_UPPER = BitVec.twoPow 32 9 from rfl, and_twoPow_ne_zero _ (by decide), charset_upper,
    List.all_eq_true]
  exact forall₂_congr fun t _ ↦ by simp

theorem lower_iff (x : BitVec 32) : x &&& NTL_LOWER ≠ 0 ↔ x.getLsbD 5 = true :=
  and_twoPow_ne_zero x (show 5 < 32 by decide)

theorem sinComodines_iff (m : CStr) : SinComodines m ↔ (tokens m).all esLit = true :=
  List.all_eq_true.symm

end Match

open Match

/-- The charset of a mask is what is said of it when the mask has no wildcard, and when it has a
literal that is not a letter besides a question mark or a star with a literal behind. -/
theorem charset_iff (m : CStr) (hm : nul ∉ m) : CharsetFiel m ↔ SinComodines m ∨
    (∃ c, .lit c ∈ tokens m ∧ ntlCharAttrib (toLower c) &&& NTL_LOWER = 0) ∧
      (.one ∈ tokens m ∨ ∃ p q c, tokens m = p ++ .star :: q ∧ .lit c ∈ q) := by
  rw [CharsetFiel, and_iff_right (attrib_sound hm), and_iff_left (upper_exact m), lower_iff,
    charset_lower, sinComodines_iff]
  have hmarked : (.one ∈ tokens m ∨ ∃ p q c, tokens m = p ++ .star :: q ∧ .lit c ∈ q) ↔
      marcado false (tokens m) = true := by
    rw [marcado_iff]
    simp
  have hlacks : (∃ c, .lit c ∈ tokens m ∧ ntlCharAttrib (toLower c) &&& NTL_LOWER = 0) ↔
      (tokens m).all (litTiene ntlCharAttrib 5) = false := by
    rw [List.all_eq_false]
    constructor
    · rintro ⟨c, hc, hcero⟩
      exact ⟨.lit c, hc, fun h ↦ (lower_iff _).mpr h hcero⟩
    · rintro ⟨t, ht, hlacks⟩
      cases t with
      | lit c => exact ⟨c, ht, by_contra fun h ↦ hlacks ((lower_iff _).mp h)⟩
      | one => exact absurd rfl hlacks
      | star => exact absurd rfl hlacks
  -- without wildcards none is taken note of
  have hplain : (tokens m).all esLit = true → marcado false (tokens m) = false := by
    intro hall
    rw [← Bool.not_eq_true, ← hmarked]
    rintro (h | ⟨p, q, c, heq, -⟩)
    · exact absurd (List.all_eq_true.mp hall _ h) (by decide)
    · have hstar := List.all_eq_true.mp hall .star (by rw [heq]; simp)
      exact absurd hstar (by decide)
  rw [hmarked, hlacks]
  cases hall : (tokens m).all esLit with
  | true => simp [hplain hall]
  | false => simp

/-- A star before a dot. -/
theorem charset_host : CharsetFiel "*.irc".toList ↔ SinComodines "*.irc".toList ∨
    (∃ c, .lit c ∈ tokens "*.irc".toList ∧ ntlCharAttrib (toLower c) &&& NTL_LOWER = 0) ∧
      (.one ∈ tokens "*.irc".toList ∨
        ∃ p q c, tokens "*.irc".toList = p ++ .star :: q ∧ .lit c ∈ q) :=
  charset_iff _ (by decide)

/-- A star behind a letter. -/
theorem charset_estrella : ¬CharsetFiel "a*".toList := by
  rintro ⟨-, hlower, -⟩
  have hset : (matchcomp ntlCharAttrib (some "a*".toList)).charset &&& NTL_LOWER ≠ 0 := by decide
  exact absurd (hlower.mp hset .star (by decide)) (by decide)

end Ircd
