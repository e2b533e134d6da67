import Ircd.Mask.Reads
import Ircd.Lib.Exchange

/-!
# Compiled masks

`matchcomp` writes a mask in the order in which `matchexec` reads it: the head, the mirrored tail
and the chunks, in lower case, with `A` for a question mark and `Z` for a star. A star is written
only before the next literal, so that question marks come before it. `matchcomp_spec` gives the
pattern that stands in the buffer, which has the language of the mask.
-/

namespace Ircd

open CString
open Wildcard

namespace Match

/-! ## The compiler -/

def NTL_LOWER : BitVec 32 := 0x0020

def NTL_UPPER : BitVec 32 := 0x0200

/-- The local variables of `matchcomp`. The text written so far is `b`; `fs` and `ls` are the
places of its first and last star. -/
structure Comp where
  b : List Char
  fs : Option Nat
  ls : Option Nat
  star : Bool
  cnt : Nat
  chset : BitVec 32
  chset2 : BitVec 32

def Comp.init : Comp :=
  { b := [], fs := none, ls := none, star := false, cnt := 0, chset := BitVec.allOnes 32,
    chset2 := NTL_LOWER ||| NTL_UPPER }

/-- `ls = b; fs = fs ? fs : b; *b++ = 'Z'`. -/
def Comp.putStar (st : Comp) : Comp :=
  { st with b := st.b ++ ['Z'], ls := some st.b.length, fs := some (st.fs.getD st.b.length) }

/-- `case '?'`. -/
def Comp.quest (st : Comp) : Comp :=
  { st with b := st.b ++ ['A'], cnt := st.cnt + 1, chset2 := st.chset2 &&& ~~~NTL_LOWER }

/-- `default`, with the table `NTL_char_attrib` of the classes of characters. -/
def Comp.literal (attrib : Char → BitVec 32) (ch : Char) (st : Comp) : Comp :=
  let st := if st.star then
      { st.putStar with chset2 := st.chset2 &&& ~~~NTL_LOWER, star := false } else st
  { st with b := st.b ++ [toLower ch], cnt := st.cnt + 1,
            chset := st.chset &&& attrib (toLower ch), chset2 := st.chset2 &&& ~~~NTL_UPPER }

/-- `while ((ch = *m++)) switch (ch)`. -/
def Comp.scan (attrib : Char → BitVec 32) : CStr → Comp → Comp
  | [], st => st
  | '*' :: m, st => scan attrib m { st with star := true }
  | '?' :: m, st => scan attrib m st.quest
  | '\\' :: c :: m, st =>
      if isWild c then scan attrib m (st.literal attrib c)
      else scan attrib (c :: m) (st.literal attrib '\\')
  | c :: m, st => scan attrib m (st.literal attrib c)

/-- The tail is mirrored and moved behind the first star. -/
def Comp.arrange (st : Comp) : List Char :=
  match st.fs, st.ls with
  | some fs, some ls =>
      let b := Exchange.mirror (ls + 1) (st.b.length - 1) st.b
      let l₁ := ls - fs
      let l₂ := b.length - ls
      Exchange.exchange (l₁ + l₂) fs l₁ l₂ b
  | _, _ => st.b

/-- What `matchcomp` leaves in `*cmask`, `*minlen` and `*charset`. -/
structure Compiled where
  cmask : List Char
  minlen : Nat
  charset : BitVec 32

end Match

open Match in
/-- `matchcomp (cmask, &minlen, &charset, mask)`, which returns the length of the text in
`cmask`. -/
def matchcomp (attrib : Char → BitVec 32) (mask : Option CStr) : Compiled :=
  let st := match mask with
    | some m => Comp.init.scan attrib m
    | none => Comp.init
  { cmask := (if st.star then st.putStar else st).arrange, minlen := st.cnt,
    charset := st.chset ||| st.chset2 }

namespace Match

/-! ## Patterns in the buffer -/

/-- The character written for a token. -/
def code : Token Char → Char
  | .lit c => toLower c
  | .one => 'A'
  | .star => 'Z'

/-- What may stand behind a star: chunks with stars between them, each with a literal at its
beginning. -/
inductive Chunks : List (Token Char) → Prop
  | last {c : Char} {p : List (Token Char)} (hp : .star ∉ p) : Chunks (.lit c :: p)
  | cons {c : Char} {p q : List (Token Char)} (hp : .star ∉ p) (hq : Chunks q) :
      Chunks (.lit c :: (p ++ .star :: q))

/-- The chunks between the first and the last star, with the first star. -/
def Middle (mid : List (Token Char)) : Prop :=
  mid = [] ∨ ∃ q, mid = .star :: q ∧ Chunks q

/-- The places of the first and the last star of a pattern in which literals follow the stars. -/
inductive Laid : Option Nat → Option Nat → List (Token Char) → Prop
  | plain {p : List (Token Char)} (hp : .star ∉ p) : Laid none none p
  | starred {h mid p : List (Token Char)} {c : Char} (hh : .star ∉ h) (hmid : Middle mid)
      (hp : .star ∉ p) :
      Laid (some h.length) (some (h ++ mid).length) (h ++ (mid ++ .star :: .lit c :: p))

variable {attrib : Char → BitVec 32} {pre p q h mid t : List (Token Char)} {c d : Char} {m r : CStr}
  {st : Comp} {fs ls : Option Nat}

theorem Chunks.append (hq : Chunks q) (hp : .star ∉ p) : Chunks (q ++ .star :: .lit c :: p) := by
  induction hq with
  | last hp' => exact .cons hp' (.last hp)
  | @cons d p' q' hp' hq ih =>
      rw [List.cons_append, List.append_assoc]
      exact .cons hp' ih

/-- One more chunk. -/
theorem Middle.append (h : Middle mid) (hp : .star ∉ p) :
    Middle (mid ++ .star :: .lit c :: p) := by
  rcases h with rfl | ⟨q, rfl, hq⟩
  · exact .inr ⟨_, rfl, .last hp⟩
  · exact .inr ⟨_, rfl, hq.append hp⟩

theorem not_mem_append_singleton {x : Token Char} (hx : x ≠ .star) (hp : .star ∉ p) :
    .star ∉ p ++ [x] := by
  simp [hp, hx.symm]

theorem Laid.append {x : Token Char} (hx : x ≠ .star) (hl : Laid fs ls p) :
    Laid fs ls (p ++ [x]) := by
  cases hl with
  | plain hp => exact .plain (not_mem_append_singleton hx hp)
  | @starred h mid p c hh hmid hp =>
      have hstar := Laid.starred (c := c) hh hmid (not_mem_append_singleton hx hp)
      simpa using hstar

/-- A star and the literal behind it. -/
theorem Laid.append_star (hl : Laid fs ls p) :
    Laid (some (fs.getD p.length)) (some p.length) (p ++ [.star, .lit c]) := by
  cases hl with
  | plain hp =>
      have hstar := Laid.starred (c := c) hp (.inl rfl) (p := []) List.not_mem_nil
      simpa using hstar
  | @starred h mid p d hh hmid hp =>
      have hstar := Laid.starred (c := c) hh (hmid.append (c := d) hp) (p := []) List.not_mem_nil
      simpa using hstar

/-- The star that is to be written before the next literal. -/
def pending (star : Bool) : List (Token Char) :=
  if star then [.star] else []

/-- What is written for a pattern: stars are held back to the next literal. -/
def written : Bool → List (Token Char) → List (Token Char)
  | _, [] => []
  | _, .star :: t => written true t
  | star, .one :: t => .one :: written star t
  | star, .lit c :: t => pending star ++ .lit c :: written false t

/-- After the part of the mask with the pattern `pre`, the pattern `p` stands in the buffer. -/
structure Comp.Inv (st : Comp) (pre p : List (Token Char)) : Prop where
  text : st.b = p.map code
  laid : Laid st.fs st.ls p
  count : st.cnt = minLength p
  minlen : minLength p = minLength pre
  lits : .lit nul ∈ p → .lit nul ∈ pre
  lang : ∀ q s, s ∈ lang toLower (p ++ (pending st.star ++ q)) ↔ s ∈ lang toLower (pre ++ q)

namespace Comp

theorem init_inv : Comp.init.Inv [] [] :=
  ⟨rfl, .plain List.not_mem_nil, rfl, rfl, id, fun _ _ ↦ Iff.rfl⟩

theorem Inv.star (hi : st.Inv pre p) : ({ st with star := true } : Comp).Inv (pre ++ [.star]) p := by
  refine ⟨hi.text, hi.laid, hi.count, ?_, fun h ↦ List.mem_append_left _ (hi.lits h),
    fun q s ↦ ?_⟩
  · rw [minLength_append, hi.minlen]
    rfl
  · rw [List.append_assoc, ← hi.lang]
    refine mem_append_congr fun z ↦ ?_
    cases st.star with
    | false => exact Iff.rfl
    | true => exact mem_star_star.symm

theorem Inv.quest (hi : st.Inv pre p) : st.quest.Inv (pre ++ [.one]) (p ++ [.one]) := by
  refine ⟨by simp [Comp.quest, hi.text, code], hi.laid.append (by simp), ?_, ?_,
    fun h ↦ ?_, fun q s ↦ ?_⟩
  · simp [Comp.quest, hi.count, minLength_append, minLength]
  · simp [minLength_append, hi.minlen]
  · exact List.mem_append_left _ (hi.lits (by simpa using h))
  · rw [List.append_assoc, List.append_assoc, ← hi.lang]
    refine mem_append_congr fun z ↦ ?_
    show z ∈ Wildcard.lang toLower ([.one] ++ (pending st.star ++ q)) ↔ _
    cases st.star with
    | false => exact Iff.rfl
    | true => exact mem_star_one.symm

theorem Inv.literal (attrib : Char → BitVec 32) (hi : st.Inv pre p) (c : Char) :
    (st.literal attrib c).Inv (pre ++ [.lit c]) (p ++ (pending st.star ++ [.lit c])) := by
  cases hstar : st.star with
  | false =>
      refine ⟨by simp [Comp.literal, pending, hstar, hi.text, code], ?_, ?_, ?_, ?_, ?_⟩
      · simpa [Comp.literal, pending, hstar] using hi.laid.append (x := .lit c) (by simp)
      · simp [Comp.literal, pending, hstar, hi.count, minLength_append, minLength]
      · simp [pending, minLength_append, hi.minlen]
      · simpa [pending] using Or.imp_left hi.lits
      · intro q s
        have hlang := hi.lang (.lit c :: q) s
        simpa [Comp.literal, hstar, pending] using hlang
  | true =>
      refine ⟨by simp [Comp.literal, pending, hstar, Comp.putStar, hi.text, code],
        ?_, ?_, ?_, ?_, ?_⟩
      · have hlaid := hi.laid.append_star (c := c)
        simpa [Comp.literal, pending, hstar, Comp.putStar, hi.text] using hlaid
      · simp [Comp.literal, pending, hstar, Comp.putStar, hi.count, minLength_append, minLength]
      · simp [pending, minLength_append, hi.minlen, minLength]
      · simpa [pending] using Or.imp_left hi.lits
      · intro q s
        have hlang := hi.lang (.lit c :: q) s
        simpa [Comp.literal, hstar, Comp.putStar, pending] using hlang

theorem literal_star (st : Comp) (c : Char) : (st.literal attrib c).star = false := by
  cases hstar : st.star <;> simp [literal, putStar, hstar]

theorem scan_literal (hlit : Literal m c r) (st : Comp) :
    scan attrib m st = scan attrib r (st.literal attrib c) := by
  cases hlit with
  | escape hc => simp [scan, hc]
  | plain hc hr =>
      rw [scan.eq_def]
      split
      · next heq => cases heq
      · next heq => obtain ⟨rfl, -⟩ := List.cons.inj heq; cases hc
      · next heq => obtain ⟨rfl, -⟩ := List.cons.inj heq; cases hc
      · next d r' heq =>
          obtain ⟨rfl, rfl⟩ := List.cons.inj heq
          simp [hr rfl d rfl]
      · next heq => obtain ⟨rfl, rfl⟩ := List.cons.inj heq; rfl

/-- The loop over the mask writes a pattern with the language of the mask. -/
theorem scan_inv (attrib : Char → BitVec 32) (m : CStr) (hi : st.Inv pre p) :
    (scan attrib m st).Inv (pre ++ tokens m) (p ++ written st.star (tokens m)) := by
  induction m using mask_induction generalizing st pre p with
  | nil => simpa [tokens, scan, written] using hi
  | star m ih =>
      have h := ih hi.star
      rw [List.append_assoc] at h
      exact h
  | quest m ih =>
      have h := ih hi.quest
      rw [List.append_assoc, List.append_assoc] at h
      exact h
  | lit m c r hlit ih =>
      have h := ih (hi.literal attrib c)
      rw [scan_literal hlit, hlit.tokens_eq]
      simpa [literal_star, written] using h

/-- The loop writes at most one character for each character of the mask. -/
theorem length_scan (attrib : Char → BitVec 32) (m : CStr) (st : Comp) :
    (scan attrib m st).b.length + (pending (scan attrib m st).star).length ≤
      st.b.length + (pending st.star).length + m.length := by
  induction m using mask_induction generalizing st with
  | nil => exact Nat.le_add_right _ _
  | star m ih =>
      have hlen := ih { st with star := true }
      simp only [scan, List.length_cons]
      cases hstar : st.star <;> simp [pending] at hlen ⊢ <;> omega
  | quest m ih =>
      have hlen := ih st.quest
      have hb : st.quest.b.length = st.b.length + 1 := by simp [Comp.quest]
      have hstar : st.quest.star = st.star := rfl
      rw [hb, hstar] at hlen
      simp only [scan, List.length_cons]
      omega
  | lit m c r hlit ih =>
      have hlen := ih (st.literal attrib c)
      have hm : r.length + 1 ≤ m.length := by cases hlit <;> simp
      rw [scan_literal hlit]
      cases hstar : st.star <;> simp [Comp.literal, Comp.putStar, pending, hstar] at hlen ⊢ <;> omega

/-- The text in which the tail is behind the first star, mirrored, and the chunks come last. -/
theorem arrange_starred (st : Comp) (h mid t : List (Token Char))
    (hb : st.b = (h ++ (mid ++ .star :: t)).map code)
    (hfs : st.fs = some h.length) (hls : st.ls = some (h ++ mid).length) :
    st.arrange = (h ++ (.star :: t.reverse ++ mid)).map code := by
  have hmirror : Exchange.mirror ((h ++ mid).length + 1) (st.b.length - 1) st.b =
      (h ++ (mid ++ .star :: t.reverse)).map code := by
    have happ := Exchange.mirror_append ((h ++ (mid ++ [Token.star])).map code) (t.map code) []
      (i := (h ++ mid).length + 1) (j := st.b.length - 1) (by simp; omega) (by simp [hb]; omega)
    simpa [hb] using happ
  have hmid : (h ++ mid).length - h.length = (mid.map code).length := by simp
  have htail : ((h ++ (mid ++ .star :: t.reverse)).map code).length - (h ++ mid).length =
      ((Token.star :: t.reverse).map code).length := by
    simp
    omega
  have hexchange := Exchange.exchange_append (h.map code) [] (s := mid.map code)
    (t := (Token.star :: t.reverse).map code) (i := h.length) (by simp) (Nat.le_refl _)
  simp only [arrange, hfs, hls, hmirror, hmid, htail]
  simpa using hexchange

@[simp] theorem length_arrange (st : Comp) : st.arrange.length = st.b.length := by
  unfold arrange
  split
  · simp
  · rfl

/-- A text without a star stays as it is. -/
theorem arrange_plain (hfs : st.fs = none) : st.arrange = st.b := by
  simp [arrange, hfs]

end Comp

/-- The text for a pattern: the tail behind the first star, mirrored, and the chunks at the end. -/
inductive Arranged : List (Token Char) → List Char → Prop
  | plain {h : List (Token Char)} (hh : .star ∉ h) : Arranged h (h.map code)
  | starred {h mid p : List (Token Char)} (hh : .star ∉ h) (hmid : Middle mid) (hp : .star ∉ p) :
      Arranged (h ++ (mid ++ .star :: p)) ((h ++ (.star :: p.reverse ++ mid)).map code)

/-- What the compiled form of a mask holds: a pattern with the language of the mask, the tail
behind the first star, mirrored, and the chunks at the end. -/
inductive Stored (t : List (Token Char)) : List Char → Prop
  | plain {h : List (Token Char)} (hh : .star ∉ h)
      (hlits : .lit nul ∈ h → .lit nul ∈ t)
      (hlang : ∀ s, s ∈ lang toLower h ↔ s ∈ lang toLower t) : Stored t (h.map code)
  | starred {h mid p : List (Token Char)} (hh : .star ∉ h) (hmid : Middle mid) (hp : .star ∉ p)
      (hlits : .lit nul ∈ h ++ (mid ++ .star :: p) → .lit nul ∈ t)
      (hlang : ∀ s, s ∈ lang toLower (h ++ (mid ++ .star :: p)) ↔ s ∈ lang toLower t)
      (hmin : minLength (h ++ (mid ++ .star :: p)) = minLength t) :
      Stored t ((h ++ (.star :: p.reverse ++ mid)).map code)

/-- The star at the end of the mask is written and the tail moved. -/
theorem Comp.Inv.arranged (hi : st.Inv pre p) :
    Arranged (p ++ pending st.star) (if st.star then st.putStar else st).arrange := by
  have htext := hi.text
  have hlaid := hi.laid
  generalize hfs : st.fs = fs at hlaid
  generalize hls : st.ls = ls at hlaid
  cases hstar : st.star with
  | false =>
      simp only [pending, Bool.false_eq_true, if_false, List.append_nil]
      cases hlaid with
      | plain hp =>
          rw [Comp.arrange_plain hfs, htext]
          exact .plain hp
      | starred hh hmid hp =>
          rw [Comp.arrange_starred _ _ _ _ htext hfs hls]
          exact .starred hh hmid (by simpa using hp)
  | true =>
      simp only [pending, if_true]
      cases hlaid with
      | plain hp =>
          have harr := Comp.arrange_starred st.putStar p [] []
            (by simp [Comp.putStar, htext, code]) (by simp [Comp.putStar, hfs, htext])
            (by simp [Comp.putStar, htext])
          rw [harr]
          exact .starred hp (.inl rfl) List.not_mem_nil
      | @starred h mid p c hh hmid hp =>
          have harr := Comp.arrange_starred st.putStar h (mid ++ .star :: .lit c :: p) []
            (by simp [Comp.putStar, htext, code]) (by simp [Comp.putStar, hfs])
            (by simp [Comp.putStar, htext])
          rw [harr]
          have hnew := Arranged.starred hh (hmid.append (c := c) hp) (p := []) List.not_mem_nil
          simpa using hnew

/-- The text in the buffer has the language of the part of the mask that has been read. -/
theorem Comp.Inv.stored (hi : st.Inv pre p) :
    Stored pre (if st.star then st.putStar else st).arrange := by
  have harranged := hi.arranged
  have hlang (s : CStr) := hi.lang [] s
  have hmin : minLength (p ++ pending st.star) = minLength pre := by
    rw [minLength_append, hi.minlen]
    cases st.star <;> rfl
  have hlits : .lit nul ∈ p ++ pending st.star → .lit nul ∈ pre := fun h ↦ by
    refine hi.lits ((List.mem_append.mp h).resolve_right ?_)
    cases st.star <;> simp [pending]
  simp only [List.append_nil] at hlang
  generalize p ++ pending st.star = q at harranged hlang hmin hlits
  generalize (if st.star then st.putStar else st).arrange = cmask at harranged
  cases harranged with
  | plain hh => exact .plain hh hlits hlang
  | starred hh hmid hp => exact .starred hh hmid hp hlits hlang hmin

/-- The literals of a mask are characters of it. -/
theorem lit_not_mem_tokens (hm : nul ∉ m) : .lit nul ∉ tokens m := by
  induction m using mask_induction with
  | nil => exact List.not_mem_nil
  | star m ih | quest m ih =>
      have htail := ih fun h ↦ hm (List.mem_cons_of_mem _ h)
      simp [tokens, htail]
  | lit m c r hlit ih =>
      obtain ⟨hc, hr⟩ := hlit.not_mem hm
      simp [hlit.tokens_eq, hc.symm, ih hr]

/-- `matchcomp` stores the pattern of the mask, returns the number of characters it asks for, and
writes no more characters than the mask has. -/
theorem matchcomp_spec (attrib : Char → BitVec 32) (m : CStr) :
    Stored (tokens m) (matchcomp attrib (some m)).cmask ∧
      (matchcomp attrib (some m)).minlen = minLength (tokens m) ∧
      (matchcomp attrib (some m)).cmask.length ≤ m.length := by
  have hi := Comp.scan_inv attrib m Comp.init_inv
  have hmin : minLength _ = minLength (tokens m) := hi.minlen
  refine ⟨hi.stored, hi.count.trans hmin, ?_⟩
  have hlen := Comp.length_scan attrib m Comp.init
  have hinit : Comp.init.b.length + (pending Comp.init.star).length = 0 := rfl
  rw [hinit, Nat.zero_add] at hlen
  show (if (Comp.init.scan attrib m).star then (Comp.init.scan attrib m).putStar
    else Comp.init.scan attrib m).arrange.length ≤ m.length
  rw [Comp.length_arrange]
  cases hstar : (Comp.init.scan attrib m).star <;>
    simp [hstar, pending, Comp.putStar] at hlen ⊢ <;> omega

end Match

end Ircd
