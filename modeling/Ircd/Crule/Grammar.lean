import Ircd.Crule.Token

/-!
# The grammar of connection rules

`Deriva` is the grammar in the comment before `crule_parse`, over tokens, and `Escrito` relates
tokens to the texts that spell them: blanks before any token and at the end, each operator in one
piece, a word as far as it goes, and the end of the text or a `:` at last. `Escrito.lexemas` and
`escrito_of_lexemas` connect it to the scanner: it reads the tokens of a text that spells them, and
conversely if each token it reads was `limpio`, spelled in the one way the grammar has for it.
-/

namespace Ircd.Crule

open CString

/-! ## The grammar -/

/-- The symbols on the left of the rules; `rule` is an `orexpr` up to the end. -/
inductive Simbolo where
  | orexpr | andexpr | primary | function | arglist

/-- The tokens derive from the symbol. -/
inductive Deriva : Simbolo → List Lexema → Prop
  | andexpr {us} (h : Deriva .andexpr us) : Deriva .orexpr us
  | or {us vs} (h : Deriva .andexpr us) (h' : Deriva .orexpr vs) :
      Deriva .orexpr (us ++ .tok .crOr :: vs)
  | primary {us} (h : Deriva .primary us) : Deriva .andexpr us
  | and {us vs} (h : Deriva .primary us) (h' : Deriva .andexpr vs) :
      Deriva .andexpr (us ++ .tok .crAnd :: vs)
  | function {us} (h : Deriva .function us) : Deriva .primary us
  | not {us} (h : Deriva .primary us) : Deriva .primary (.tok .crNot :: us)
  | paren {us} (h : Deriva .orexpr us) :
      Deriva .primary (.tok .crOpenparen :: us ++ [.tok .crCloseparen])
  | vacia (w) : Deriva .function [.palabra w, .tok .crOpenparen, .tok .crCloseparen]
  | llamada (w) {us} (h : Deriva .arglist us) :
      Deriva .function (.palabra w :: .tok .crOpenparen :: us ++ [.tok .crCloseparen])
  | word (w) : Deriva .arglist [.palabra w]
  | coma (w) {us} (h : Deriva .arglist us) : Deriva .arglist (.palabra w :: .tok .crComma :: us)

/-! ## Spelling -/

/-- How the grammar writes a token; the end and a word have no spelling of their own. -/
def grafia : Token → CStr
  | .crAnd => ['&', '&']
  | .crOr => ['|', '|']
  | .crNot => ['!']
  | .crOpenparen => ['(']
  | .crCloseparen => [')']
  | .crComma => [',']
  | _ => []

/-- A word: `crule_gettoken` announces it and `crule_getword` takes its characters. `|` is one of
the letters, but at the head of a word it would be taken for an operator. -/
def Palabra (w : CStr) : Prop :=
  w.all dePalabra = true ∧ ∃ c u, w = c :: u ∧ iniciaPalabra c = true ∧ c ≠ '|'

theorem grafia_ne_nil {t : Token} (hword : t ≠ .crWord) (hend : t ≠ .crEnd)
    (hunknown : t ≠ .crUnknown) : grafia t ≠ [] := by
  cases t with
  | crWord => exact absurd rfl hword
  | crEnd => exact absurd rfl hend
  | crUnknown => exact absurd rfl hunknown
  | crAnd | crOr | crNot | crOpenparen | crCloseparen | crComma => exact List.cons_ne_nil _ _

/-- The text spells the tokens. A word ends where the text has no further character for it, or at
the length `crule_getword` has room for. -/
inductive Escrito : List Lexema → CStr → Prop
  | fin : Escrito [] []
  | dosPuntos (r) : Escrito [] (':' :: r)
  | blanco {c us r} (hc : blanco c = true) (h : Escrito us r) : Escrito us (c :: r)
  | tok {t us r} (ht : grafia t ≠ []) (h : Escrito us r) : Escrito (.tok t :: us) (grafia t ++ r)
  | palabra {w us r} (hw : Palabra w)
      (hr : ∀ c u, r = c :: u → dePalabra c = true → w.length = CR_MAXARGLEN - 1)
      (h : Escrito us r) : Escrito (.palabra w :: us) (w ++ r)

/-- `crule_getword` has room for the words. -/
def Caben (us : List Lexema) : Prop :=
  ∀ w, .palabra w ∈ us → w.length ≤ CR_MAXARGLEN - 1

/-- The text up to its end or first `:` derives from `rule`, with words as `crule_getword` reads
them. -/
def Derivable (rule : CStr) : Prop :=
  ∃ us, Deriva .orexpr us ∧ Caben us ∧ Escrito us rule

/-! ## Reading what is spelled -/

/-- A blank before a token is skipped. -/
theorem gettokenDesde_blanco {c : Char} (hc : blanco c = true) (pending : Char) (r : CStr) :
    gettokenDesde pending (c :: r) = gettokenDesde pending r := by
  rw [gettokenDesde, if_pos hc]

theorem gettoken_grafia {t : Token} (ht : grafia t ≠ []) (r : CStr) :
    gettoken (grafia t ++ r) = (.crNoerr, t, r) := by
  cases t with
  | crUnknown | crEnd | crWord => exact absurd rfl ht
  | crAnd | crOr | crNot | crOpenparen | crCloseparen | crComma => rfl

theorem ne_of_inicia {c d : Char} (hc : iniciaPalabra c = true) (hd : iniciaPalabra d = false) :
    c ≠ d := by
  rintro rfl
  rw [hc] at hd
  cases hd

theorem not_blanco_of_inicia {c : Char} (hc : iniciaPalabra c = true) : ¬blanco c = true := by
  rw [blanco, decide_eq_true_eq, not_or]
  exact ⟨ne_of_inicia hc (by decide), ne_of_inicia hc (by decide)⟩

/-- A character that begins a word is none of the others that the scanner looks for. -/
theorem gettoken_inicia {c : Char} (hc : iniciaPalabra c = true) (hbarra : c ≠ '|') (r : CStr) :
    gettoken (c :: r) = (.crNoerr, .crWord, c :: r) := by
  have hne {d : Char} (hd : iniciaPalabra d = false) : c ≠ d := ne_of_inicia hc hd
  rw [gettoken, gettokenDesde, if_neg (not_blanco_of_inicia hc), if_neg (hne (by decide)),
    if_neg hbarra, if_neg (hne (by decide)), if_neg (hne (by decide)), if_neg (hne (by decide)),
    if_neg (hne (by decide)), if_neg (hne (by decide)), if_pos hc]

/-- A word that fits is read as a whole. -/
theorem getword_append {n : Nat} {w r : CStr} (hw : w.all dePalabra = true) (hn : w.length ≤ n)
    (hr : ∀ c u, r = c :: u → dePalabra c = true → w.length = n) :
    getword n (w ++ r) = (w, r) := by
  induction w generalizing n with
  | nil =>
      cases n with
      | zero => rfl
      | succ n =>
          cases r with
          | nil => rfl
          | cons c u =>
              have hc : ¬dePalabra c = true := fun hc ↦ Nat.succ_ne_zero n (hr c u rfl hc).symm
              rw [List.nil_append, getword, if_neg hc]
  | cons c w ih =>
      obtain ⟨hc, hw⟩ := Bool.and_eq_true_iff.mp hw
      obtain ⟨n, rfl⟩ := Nat.exists_eq_succ_of_ne_zero (Nat.ne_of_gt (Nat.lt_of_lt_of_le
        (Nat.succ_pos _) hn))
      rw [List.cons_append, getword, if_pos hc, ih hw (Nat.le_of_succ_le_succ hn)
        fun d u hd hde ↦ Nat.succ.inj (hr d u hd hde)]

/-- The next token is spelled as the grammar writes it: `&` and `|` come in pairs. -/
def limpio : CStr → Bool
  | [] => true
  | c :: r => if blanco c then limpio r else if c = '&' ∨ c = '|' then r.head? = some c else true

/-- All tokens of a text are spelled as the grammar writes them. -/
def limpia (r : CStr) : Bool :=
  limpio r &&
    let t := (gettoken r).2.1
    let s := (gettoken r).2.2
    if t = .crWord then limpia (leePalabra s).2
    else if t = .crEnd ∨ t = .crUnknown then true
    else limpia s
termination_by r.length
decreasing_by
  · exact length_leePalabra ‹_›
  · exact length_gettoken ‹_› (not_or.mp ‹_›).1 (not_or.mp ‹_›).2

/-- What the scanner and the spelling make of a text does not depend on blanks before it. -/
theorem lexemas_blanco {c : Char} (hc : blanco c = true) (r : CStr) :
    lexemas (c :: r) = lexemas r ∧ limpia (c :: r) = limpia r := by
  have hget : gettoken (c :: r) = gettoken r := gettokenDesde_blanco hc _ r
  have hlimpio : limpio (c :: r) = limpio r := by rw [limpio, if_pos hc]
  constructor
  · rw [lexemas_eq, lexemas_eq, hget]
  · rw [limpia, limpia, hget, hlimpio]

theorem lexemas_tok {t : Token} {r s : CStr} (ht : grafia t ≠ [])
    (h : gettoken r = (.crNoerr, t, s)) :
    lexemas r = .tok t :: lexemas s ∧ limpia r = (limpio r && limpia s) := by
  have hword : t ≠ .crWord := by rintro rfl; exact ht rfl
  have hend : ¬(t = .crEnd ∨ t = .crUnknown) := by
    rintro (rfl | rfl)
    · exact ht rfl
    · exact ht rfl
  constructor
  · rw [lexemas, h]
    show (if t = .crWord then _ else if t = .crEnd ∨ t = .crUnknown then _ else _) = _
    rw [if_neg hword, if_neg hend]
  · rw [limpia, h]
    show (limpio r && if t = .crWord then _ else if t = .crEnd ∨ t = .crUnknown then _ else _) = _
    rw [if_neg hword, if_neg hend]

theorem lexemas_palabra {r s : CStr} (h : gettoken r = (.crNoerr, .crWord, s)) :
    lexemas r = .palabra (leePalabra s).1 :: lexemas (leePalabra s).2 ∧
      limpia r = (limpio r && limpia (leePalabra s).2) := by
  constructor
  · rw [lexemas, h]
    rfl
  · rw [limpia, h]
    rfl

theorem lexemas_fin {r s : CStr} (h : gettoken r = (.crNoerr, .crEnd, s)) :
    lexemas r = [.tok .crEnd] ∧ limpia r = limpio r := by
  constructor
  · rw [lexemas, h]
    rfl
  · rw [limpia, h]
    exact Bool.and_true _

/-- The scanner reads the tokens that a text spells. -/
theorem Escrito.lexemas {us : List Lexema} {r : CStr} (h : Escrito us r) (hcaben : Caben us) :
    lexemas r = us ++ [.tok .crEnd] ∧ limpia r = true := by
  induction h with
  | fin => exact lexemas_fin rfl
  | dosPuntos r => exact lexemas_fin rfl
  | blanco hc h ih => rw [(lexemas_blanco hc _).1, (lexemas_blanco hc _).2]; exact ih hcaben
  | @tok t us r ht h ih =>
      obtain ⟨hlex, hlimpia⟩ := ih fun w hw ↦ hcaben w (List.mem_cons_of_mem _ hw)
      obtain ⟨hlex', hlimpia'⟩ := lexemas_tok ht (gettoken_grafia ht r)
      have hlimpio : limpio (grafia t ++ r) = true := by
        cases t with
        | crUnknown | crEnd | crWord => exact absurd rfl ht
        | crAnd | crOr | crNot | crOpenparen | crCloseparen | crComma => rfl
      rw [hlex', hlimpia', hlex, hlimpia, hlimpio]
      exact ⟨rfl, rfl⟩
  | @palabra w us r hw hr h ih =>
      obtain ⟨hlex, hlimpia⟩ := ih fun w hw ↦ hcaben w (List.mem_cons_of_mem _ hw)
      have hlee : leePalabra (w ++ r) = (w, r) :=
        getword_append hw.1 (hcaben w List.mem_cons_self) hr
      obtain ⟨-, c, u, rfl, hc, hbarra⟩ := hw
      obtain ⟨hlex', hlimpia'⟩ := lexemas_palabra (gettoken_inicia hc hbarra (u ++ r))
      have hlimpio : limpio (c :: (u ++ r)) = true := by
        rw [limpio, if_neg (not_blanco_of_inicia hc),
          if_neg (not_or.mpr ⟨ne_of_inicia hc (by decide), hbarra⟩)]
      rw [← List.cons_append] at hlex' hlimpia' hlimpio
      rw [hlee] at hlex' hlimpia'
      rw [hlex', hlimpia', hlex, hlimpia, hlimpio]
      exact ⟨rfl, rfl⟩

/-! ## Spelling what is read -/

/-- What the token `t` that has been read from `r` says about it, when `s` is the rest. -/
structure Deletrea (t : Token) (r s : CStr) : Prop where
  fin : t = .crEnd → Escrito [] r
  tok : grafia t ≠ [] → ∀ us, Escrito us s → Escrito (.tok t :: us) r
  palabra : t = .crWord → (∀ us, Escrito us s → Escrito us r) ∧
    ∃ c u, s = c :: u ∧ iniciaPalabra c = true ∧ c ≠ '|'

theorem Deletrea.blanco {t : Token} {r s : CStr} {c : Char} (h : Deletrea t r s)
    (hc : blanco c = true) : Deletrea t (c :: r) s where
  fin ht := .blanco hc (h.fin ht)
  tok ht us hus := .blanco hc (h.tok ht us hus)
  palabra ht := ⟨fun us hus ↦ .blanco hc ((h.palabra ht).1 us hus), (h.palabra ht).2⟩

/-- A token that is spelled as the grammar writes it. -/
theorem Deletrea.grafia {t : Token} (ht : grafia t ≠ []) (s : CStr) :
    Deletrea t (Crule.grafia t ++ s) s where
  fin h := absurd (by rw [h]; rfl) ht
  tok _ _ hus := .tok ht hus
  palabra h := absurd (by rw [h]; rfl) ht

/-- A clean token. -/
theorem deletrea_of_limpio {r s : CStr} {t : Token} (hlimpio : limpio r = true)
    (h : gettoken r = (.crNoerr, t, s)) : Deletrea t r s := by
  fun_induction limpio r with
  | case1 =>
      cases h
      exact ⟨fun _ ↦ .fin, fun h ↦ absurd rfl h, nofun⟩
  | case2 c r hc ih =>
      rw [gettoken, gettokenDesde_blanco hc] at h
      exact (ih hlimpio h).blanco hc
  | case3 c r hblanco hc =>
      obtain ⟨u, rfl⟩ : ∃ u, r = c :: u := by
        cases r with
        | nil => cases hlimpio
        | cons d u => exact ⟨u, by rw [Option.some.inj (of_decide_eq_true hlimpio)]⟩
      -- the two characters of the operator
      rcases hc with rfl | rfl
      · cases h
        exact .grafia (t := .crAnd) (List.cons_ne_nil _ _) _
      · cases h
        exact .grafia (t := .crOr) (List.cons_ne_nil _ _) _
  | case4 c r hblanco hc =>
      obtain ⟨hand, hor⟩ := not_or.mp hc
      rw [gettoken, gettokenDesde, if_neg hblanco, if_neg hand, if_neg hor] at h
      -- the tokens of one character, in the order of the scanner
      split at h
      · next hc => cases h; subst hc; exact .grafia (t := .crNot) (List.cons_ne_nil _ _) _
      split at h
      · next hc => cases h; subst hc; exact .grafia (t := .crOpenparen) (List.cons_ne_nil _ _) _
      split at h
      · next hc => cases h; subst hc; exact .grafia (t := .crCloseparen) (List.cons_ne_nil _ _) _
      split at h
      · next hc => cases h; subst hc; exact .grafia (t := .crComma) (List.cons_ne_nil _ _) _
      split at h
      · next hc => cases h; subst hc; exact ⟨fun _ ↦ .dosPuntos _, fun h ↦ absurd rfl h, nofun⟩
      split at h
      · next hc =>
          cases h
          exact ⟨nofun, fun h ↦ absurd rfl h, fun _ ↦ ⟨fun us hus ↦ hus, c, r, rfl, hc, hor⟩⟩
      · cases h

/-- What `crule_getword` takes is as long as the text and the room allow. -/
theorem getword_spec (n : Nat) (s : CStr) :
    s = (getword n s).1 ++ (getword n s).2 ∧ (getword n s).1.all dePalabra = true ∧
      (getword n s).1.length ≤ n ∧
      ∀ c u, (getword n s).2 = c :: u → dePalabra c = true → (getword n s).1.length = n := by
  fun_induction getword n s with
  | case1 r => exact ⟨rfl, rfl, Nat.le_refl _, fun _ _ _ _ ↦ rfl⟩
  | case2 n =>
      refine ⟨rfl, rfl, Nat.zero_le _, fun c u hnil _ ↦ ?_⟩
      cases hnil
  | case3 n c r hc ih =>
      obtain ⟨happ, hall, hle, hstop⟩ := ih
      refine ⟨congrArg (c :: ·) happ, ?_, Nat.succ_le_succ hle,
        fun d u hd hde ↦ congrArg Nat.succ (hstop d u hd hde)⟩
      rw [List.all_cons, hc, hall]
      rfl
  | case4 n c r hc =>
      refine ⟨rfl, rfl, Nat.zero_le _, fun d u hd hde ↦ ?_⟩
      cases hd
      exact absurd hde hc

theorem gettoken_of_ne {r : CStr} (h : (gettoken r).2.1 ≠ .crUnknown) :
    gettoken r = (.crNoerr, (gettoken r).2.1, (gettoken r).2.2) := by
  have herr := (gettoken_err r).mpr h
  rw [← herr]

/-- The text of clean tokens spells them. -/
theorem escrito_of_lexemas (r : CStr) (hlimpia : limpia r = true) :
    ∀ us, lexemas r = us ++ [.tok .crEnd] → Caben us ∧ Escrito us r := by
  fun_induction lexemas r with
  | case1 r t s ht ih =>
      have hget : gettoken r = (.crNoerr, .crWord, s) := by
        have hne : (gettoken r).2.1 ≠ .crUnknown := by
          rw [show (gettoken r).2.1 = _ from ht]
          decide
        rw [gettoken_of_ne hne]
        exact congrArg (fun t ↦ (Errcode.crNoerr, t, s)) ht
      rw [(lexemas_palabra hget).2, Bool.and_eq_true] at hlimpia
      obtain ⟨hescrito, c, u, hs, hc, hbarra⟩ := (deletrea_of_limpio hlimpia.1 hget).palabra rfl
      obtain ⟨happ, hall, hle, hstop⟩ := getword_spec (CR_MAXARGLEN - 1) s
      have hw : Palabra (leePalabra s).1 := by
        obtain ⟨d, v, hv⟩ := List.exists_cons_of_ne_nil (leePalabra_ne_nil ht)
        have hcons : c :: u = d :: v ++ (leePalabra s).2 := by rw [← hv, ← hs]; exact happ
        obtain ⟨rfl, -⟩ := List.cons.inj hcons
        exact ⟨hall, c, v, hv, hc, hbarra⟩
      intro us h
      rcases List.cons_eq_append_iff.mp h with ⟨-, hfin⟩ | ⟨us, rfl, hus⟩
      · cases hfin
      · obtain ⟨hcaben, hus⟩ := ih hlimpia.2 us hus
        refine ⟨fun w hmem ↦ ?_, hescrito _ ?_⟩
        · rcases List.mem_cons.mp hmem with hmem | hmem
          · cases hmem
            exact hle
          · exact hcaben w hmem
        · have hpal : Escrito _ ((leePalabra s).1 ++ (leePalabra s).2) := .palabra hw hstop hus
          rwa [show (leePalabra s).1 ++ (leePalabra s).2 = s from happ.symm] at hpal
  | case2 r t ht ht' =>
      intro us h
      rcases List.cons_eq_append_iff.mp h with ⟨rfl, hfin⟩ | ⟨us, -, hus⟩
      · have hget : gettoken r = (.crNoerr, .crEnd, (gettoken r).2.2) := by
          have htok : (gettoken r).2.1 = .crEnd := (Lexema.tok.inj (List.cons.inj hfin).1).symm
          have hne : (gettoken r).2.1 ≠ .crUnknown := by
            rw [htok]
            decide
          rw [gettoken_of_ne hne, htok]
        rw [(lexemas_fin hget).2] at hlimpia
        exact ⟨fun w hmem ↦ absurd hmem List.not_mem_nil,
          (deletrea_of_limpio hlimpia hget).fin rfl⟩
      · exact absurd hus.symm (List.append_ne_nil_of_right_ne_nil _ (List.cons_ne_nil _ _))
  | case3 r t s ht ht' ih =>
      have hgrafia : grafia t ≠ [] := grafia_ne_nil ht (not_or.mp ht').1 (not_or.mp ht').2
      have hget : gettoken r = (.crNoerr, t, s) := gettoken_of_ne (not_or.mp ht').2
      rw [(lexemas_tok hgrafia hget).2, Bool.and_eq_true] at hlimpia
      intro us h
      rcases List.cons_eq_append_iff.mp h with ⟨-, hfin⟩ | ⟨us, rfl, hus⟩
      · exact absurd (Lexema.tok.inj (List.cons.inj hfin).1).symm (not_or.mp ht').1
      · obtain ⟨hcaben, hus⟩ := ih hlimpia.2 us hus
        refine ⟨fun w hmem ↦ ?_, (deletrea_of_limpio hlimpia.1 hget).tok hgrafia us hus⟩
        rcases List.mem_cons.mp hmem with hmem | hmem
        · cases hmem
        · exact hcaben w hmem

end Ircd.Crule
