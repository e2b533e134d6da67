import Ircd.Lib.Covers
import Ircd.Mask.Cover
import Ircd.Mask.Reads

/-!
# What a comparison of two masks says

`Checked.mmatch` is `mmatch` of `ircd/match.c` on the two masks up to their terminators: a read
outside one of them gives `none`. `checked_mmatch_spec` says that there is none unless the old mask
is empty, and that the answer is whether the old mask covers the new one, where a run of `?` behind
a last star counts as one that a star ends. The main theorem is `mmatch_sound_iff`.
-/

namespace Ircd

open CString
open Wildcard (Token Covers minLength)

namespace Match

namespace Checked

/-! ## The comparison with its reads -/

/-- `while (*m == '*') m++;` -/
def estrellas : List Char → Option (List Char)
  | [] => none
  | c :: m => if c = '*' then estrellas m else some (c :: m)

/-- `(*m == '\\') && ((m[1] == '*') || (m[1] == '?'))`. -/
def escapado (m : List Char) : Option Bool := do
  let c ← deref m
  if c = '\\' then
    let d ← deref m.tail
    return isWild d
  else return false

/-- What is read at a pointer: `mq` or `nq` and the character, with the pointer behind it, which
stays where it is at the terminator. -/
def caracter (m : List Char) : Option (Bool × Char × List Char) := do
  let q ← escapado m
  let m := if q then m.tail else m
  let c ← deref m
  return (q, c, if c = nul then m else m.tail)

/-- `++na`, twice where an escaped wildcard stands. -/
def avanza (na : List Char) : Option (List Char) := do
  let q ← escapado na
  return if q then na.tail.tail else na.tail

/-- `(m > old_mask) && (*m == '?')` with `m--`, and the test for the star, from a place of the old
mask down. -/
def colaDesde (oldMask : List Char) : Nat → Option Bool
  | 0 => do
      let _ ← oldMask[0]?
      return false
  | i + 1 => do
      let c ← oldMask[i + 1]?
      if c = '?' then colaDesde oldMask i
      else if c = '*' then
        let d ← oldMask[i]?
        return decide (d ≠ '\\')
      else return false

/-- The test at the end of the old mask. `m--` leaves an empty mask, whose first byte is read all the
same. -/
def cola (oldMask : CStr) : Option Bool :=
  match oldMask.length with
  | 0 => none
  | i + 1 => colaDesde (terminated oldMask) i

/-- The comparison of two characters, and what follows: the loop goes on behind them, or starts again
at `ma` one character of the new mask later. -/
def compara (sigue : List Char → List Char → List Char → Option Bool) (wild : Bool)
    (m n ma na : List Char) : Option Bool := do
  let (mq, c, m) ← caracter m
  let (nq, d, n) ← caracter n
  if parecidas mq nq c d then sigue m n na
  else if wild then
    let na ← avanza na
    sigue ma na na
  else return false

/-- A round of the loop behind the run of stars. -/
def ronda (oldMask : CStr) (sigue : List Char → List Char → List Char → Option Bool)
    (m n ma na : List Char) (wild : Bool) : Option Bool := do
  let c ← deref m
  let d ← deref n
  if c = nul then
    if d = nul then return true
    else if ← cola oldMask then return true
    else if wild then
      let na ← avanza na
      compara sigue wild ma na ma na
    else return false
  else if d = nul then
    let m ← estrellas m
    let c ← deref m
    return decide (c = nul)
  else compara sigue wild m n ma na

/-- The loop of `mmatch`; `none` also when the rounds do not suffice. -/
def mmatchDesde (oldMask : CStr) :
    Nat → List Char → List Char → List Char → List Char → Bool → Option Bool
  | 0, _, _, _, _, _ => none
  | fuel + 1, m, n, ma, na, wild => do
      let c ← deref m
      if c = '*' then
        let m ← estrellas m
        ronda oldMask (fun m' n' na' ↦ mmatchDesde oldMask fuel m' n' m na' true) m n m n true
      else
        ronda oldMask (fun m' n' na' ↦ mmatchDesde oldMask fuel m' n' ma na' wild) m n ma na wild

/-- `mmatch (old_mask, new_mask) == 0` in at most so many rounds. -/
def mmatch (fuel : Nat) (oldMask newMask : CStr) : Option Bool :=
  mmatchDesde oldMask fuel (terminated oldMask) (terminated newMask) (terminated oldMask)
    (terminated newMask) false

end Checked

/-! ## The first token of a mask -/

variable {m n r ma na oldMask newMask : CStr} {x y z : Token Char} {c d : Char}

/-- The mask begins with a token. -/
inductive Cabeza : CStr → Token Char → CStr → Prop
  | star (r : CStr) : Cabeza ('*' :: r) .star r
  | one (r : CStr) : Cabeza ('?' :: r) .one r
  | lit {m : CStr} {c : Char} {r : CStr} (h : Literal m c r) : Cabeza m (.lit c) r

/-- A mask that is not empty has a first token. -/
theorem exists_cabeza (hm : m ≠ []) : ∃ x r, Cabeza m x r := by
  induction m using mask_induction with
  | nil => exact absurd rfl hm
  | star m _ => exact ⟨_, _, .star m⟩
  | quest m _ => exact ⟨_, _, .one m⟩
  | lit m c r h _ => exact ⟨_, _, .lit h⟩

/-- The first token, and those behind it. -/
theorem Cabeza.tokens_eq (h : Cabeza m x r) : tokens m = x :: tokens r := by
  cases h with
  | star => rfl
  | one => rfl
  | lit h => exact h.tokens_eq

/-- What is behind the first token has no terminator in it. -/
theorem Cabeza.not_mem (h : Cabeza m x r) (hm : nul ∉ m) : nul ∉ r := by
  cases h with
  | star => exact List.not_mem_of_not_mem_cons hm
  | one => exact List.not_mem_of_not_mem_cons hm
  | lit h => exact (h.not_mem hm).2

/-- What is behind the first token is shorter. -/
theorem Cabeza.length_lt (h : Cabeza m x r) : r.length < m.length := by
  cases h with
  | star => exact Nat.lt_succ_self _
  | one => exact Nat.lt_succ_self _
  | lit h =>
      cases h with
      | escape hc => exact (Nat.lt_succ_self _).trans (Nat.lt_succ_self _)
      | plain hc hr => exact Nat.lt_succ_self _

/-- A token as it is read: `mq` or `nq`, and the character. -/
def marca : Token Char → Bool × Char
  | .star => (false, '*')
  | .one => (false, '?')
  | .lit c => (isWild c, c)

/-- A character that stands for itself. -/
theorem escapado_plain (hr : c = '\\' → AtLiteral r) :
    Checked.escapado (c :: terminated r) = some false := by
  by_cases hc : c = '\\'
  · obtain ⟨d, u, hu⟩ := List.exists_cons_of_ne_nil (terminated_ne_nil r)
    have hwild : isWild d = false := (hr hc).terminated d (by rw [hu]; rfl)
    simp [Checked.escapado, hc, hu, hwild]
  · simp [Checked.escapado, hc]

/-- A wildcard behind a backslash. -/
theorem escapado_escape (hc : isWild c = true) :
    Checked.escapado ('\\' :: c :: terminated r) = some true := by
  simp [Checked.escapado, hc]

/-- The first token is read. -/
theorem caracter_terminated (hm : nul ∉ m) (h : Cabeza m x r) :
    Checked.caracter (terminated m) = some ((marca x).1, (marca x).2, terminated r) := by
  cases h with
  | star => rfl
  | one => rfl
  | lit h =>
      have hne := (h.not_mem hm).1
      cases h with
      | escape hc =>
          rw [terminated_cons, terminated_cons, Checked.caracter, escapado_escape hc]
          simp [marca, hc, hne]
      | plain hc hr =>
          rw [terminated_cons, Checked.caracter, escapado_plain hr]
          simp [marca, hc, hne]

/-- A pointer is moved behind the first token. -/
theorem avanza_terminated (h : Cabeza m x r) :
    Checked.avanza (terminated m) = some (terminated r) := by
  cases h with
  | star => rfl
  | one => rfl
  | lit h =>
      cases h with
      | escape hc =>
          rw [terminated_cons, terminated_cons, Checked.avanza, escapado_escape hc]
          rfl
      | plain hc hr =>
          rw [terminated_cons, Checked.avanza, escapado_plain hr]
          rfl

/-- A wildcard is folded to itself, and nothing else is. -/
theorem toLower_eq_wild (hd : isWild d = true) : toLower c = d ↔ c = d := by
  have h : d = '?' ∨ d = '*' := by simpa [isWild, or_comm] using hd
  rcases h with rfl | rfl <;> exact toLower_eq_iff (by decide) (by decide)

/-- A literal is compared by its case. -/
theorem parecidas_lit (nq : Bool) (n : Char) :
    parecidas (isWild c) nq c n = true ↔ (isWild c = true → nq = true) ∧ toLower c = toLower n := by
  have hwild : ∀ d, isWild d = true → ¬(c = d ∧ isWild c = false) := by
    rintro d hd ⟨rfl, h⟩
    exact absurd (hd.symm.trans h) (by decide)
  have hstar := hwild '*' (by decide)
  have hquest : ¬(c = '?' ∧ isWild c = false ∧ (n ≠ '*' ∨ nq = true)) :=
    fun h ↦ hwild '?' (by decide) ⟨h.1, h.2.1⟩
  simp only [parecidas, Bool.not_eq_true, decide_eq_true_eq, hstar, hquest, false_or, or_false]
  refine and_congr ?_ Iff.rfl
  cases isWild c <;> simp

/-- The comparison of two tokens. -/
theorem parecidas_marca (hx : x ≠ .star) :
    parecidas (marca x).1 (marca y).1 (marca x).2 (marca y).2 = true ↔ x.Meets toLower y := by
  -- a literal is not taken for a wildcard of the new mask
  have hwild : ∀ c d, isWild d = true → toLower d = d →
      ¬((isWild c = true → false = true) ∧ toLower c = toLower d) := by
    rintro c d hd hfold ⟨hc, heq⟩
    rw [hfold] at heq
    obtain rfl := (toLower_eq_wild hd).mp heq
    exact Bool.false_ne_true (hc hd)
  cases x with
  | star => exact absurd rfl hx
  | one =>
      cases y with
      | star => exact iff_of_false (by decide) id
      | one => exact iff_of_true (by decide) trivial
      | lit d =>
          refine iff_of_true ?_ trivial
          by_cases hd : d = '*'
          · simp [parecidas, marca, hd, isWild]
          · simp [parecidas, marca, hd]
  | lit c =>
      refine (parecidas_lit _ _).trans ?_
      cases y with
      | star => exact iff_of_false (hwild c '*' (by decide) (by decide)) id
      | one => exact iff_of_false (hwild c '?' (by decide) (by decide)) id
      | lit d =>
          refine ⟨fun h ↦ h.2.symm, fun h ↦ ⟨fun hc ↦ ?_, Eq.symm h⟩⟩
          have hself : toLower c = c := (toLower_eq_wild hc).mpr rfl
          have hd : d = c := (toLower_eq_wild hc).mp (Eq.trans h hself)
          exact hd ▸ hc

/-! ## The end of the old mask -/

/-- A question mark at the end is passed over. -/
theorem colaEstrella_quest (l : CStr) : colaEstrella (l ++ ['?']) = colaEstrella l := by
  simp [colaEstrella]

/-- A star at the end counts unless it is escaped. -/
theorem colaEstrella_star (l : CStr) (d : Char) :
    colaEstrella (l ++ [d] ++ ['*']) = decide (d ≠ '\\') := by
  simp [colaEstrella]

/-- Another character at the end is no star. -/
theorem colaEstrella_other (l : CStr) (hq : c ≠ '?') (hs : c ≠ '*') :
    colaEstrella (l ++ [c]) = false := by
  simp [colaEstrella, hq, hs]

/-- A single character is no star behind another one. -/
theorem colaEstrella_singleton (c : Char) : colaEstrella [c] = false := by
  by_cases hc : c = '?' <;> simp [colaEstrella, hc]

/-- The scan from a place of a text sees what stands up to there. -/
theorem colaDesde_eq {mem : List Char} {i : Nat} (hi : i < mem.length) :
    Checked.colaDesde mem i = some (colaEstrella (mem.take (i + 1))) := by
  have htake : ∀ {i}, (hi : i < mem.length) → mem.take (i + 1) = mem.take i ++ [mem[i]] :=
    fun hi ↦ (List.take_append_getElem hi).symm
  induction i with
  | zero =>
      rw [htake hi, List.take_zero, List.nil_append, colaEstrella_singleton]
      simp [Checked.colaDesde, List.getElem?_eq_getElem hi]
  | succ i ih =>
      have hprev : i < mem.length := Nat.lt_of_succ_lt hi
      rw [Checked.colaDesde, List.getElem?_eq_getElem hi, htake hi]
      simp only [bind, Option.bind_some, List.getElem?_eq_getElem hprev]
      by_cases hq : mem[i + 1] = '?'
      · rw [if_pos hq, hq, colaEstrella_quest, ih hprev]
      · by_cases hs : mem[i + 1] = '*'
        · rw [if_neg hq, if_pos hs, hs, htake hprev, colaEstrella_star]
          rfl
        · rw [if_neg hq, if_neg hs, colaEstrella_other _ hq hs]
          rfl

/-- The test at the end of a mask that is not empty reads only the mask. -/
theorem cola_eq (h : oldMask ≠ []) : Checked.cola oldMask = some (colaEstrella oldMask) := by
  obtain ⟨i, hi⟩ := Nat.exists_eq_succ_of_ne_zero (mt List.length_eq_zero_iff.mp h)
  have hlt : i < (terminated oldMask).length := by
    simp only [terminated, List.length_append, List.length_singleton, hi]
    omega
  have htake : (terminated oldMask).take (i + 1) = oldMask := List.take_left' hi
  rw [Checked.cola, hi]
  show Checked.colaDesde _ i = _
  rw [colaDesde_eq hlt, htake]

/-- The loop over the stars ends in front of the terminator. -/
theorem estrellas_terminated (m : CStr) : Checked.estrellas (terminated m) =
    some (terminated (m.dropWhile (· == '*'))) := by
  induction m with
  | nil => rfl
  | cons c m ih =>
      by_cases hc : c = '*'
      · simp [Checked.estrellas, hc, ih]
      · simp [Checked.estrellas, hc]

/-! ## A round -/

/-- The star that the test at the end of the old mask stands for. -/
def extra (oldMask : CStr) : List (Token Char) :=
  if colaEstrella oldMask then [.star] else []

/-- What is left to be covered: behind a star of the old mask the place is still open. -/
def Queda (e : List (Token Char)) (m n ma na : CStr) (wild : Bool) : Prop :=
  if wild then Covers toLower (.star :: (tokens ma ++ e)) (tokens na)
  else Covers toLower (tokens m ++ e) (tokens n)

/-- The pointers of the loop. Behind a star the piece of the old mask up to `m` stands for the
tokens of the new one up to `n`. -/
structure Estado (m n ma na : CStr) (wild : Bool) : Prop where
  nul_m : nul ∉ m
  nul_n : nul ∉ n
  nul_ma : nul ∉ ma
  nul_na : nul ∉ na
  le_ma : m.length ≤ ma.length
  le_na : n.length ≤ na.length
  ne_star : wild = true → ∀ r, ma ≠ '*' :: r
  piece : wild = true → ∃ p q, List.Forall₂ (Token.Meets toLower) p q ∧
    tokens ma = p ++ tokens m ∧ tokens na = q ++ tokens n

variable {wild : Bool} {e : List (Token Char)}

/-- The state behind a star. -/
theorem Estado.behindStar (hm : nul ∉ m) (hn : nul ∉ n) (hstar : ∀ r, m ≠ '*' :: r) :
    Estado m n m n true :=
  ⟨hm, hn, hm, hn, Nat.le_refl _, Nat.le_refl _, fun _ ↦ hstar, fun _ ↦ ⟨[], [], .nil, rfl, rfl⟩⟩

/-- Two tokens that meet are left behind. -/
theorem Estado.advance (h : Estado m n ma na wild) {m' n' : CStr} (hm : Cabeza m x m')
    (hn : Cabeza n y n') (hxy : x.Meets toLower y) : Estado m' n' ma na wild := by
  refine ⟨hm.not_mem h.nul_m, hn.not_mem h.nul_n, h.nul_ma, h.nul_na,
    hm.length_lt.le.trans h.le_ma, hn.length_lt.le.trans h.le_na, h.ne_star, fun hw ↦ ?_⟩
  obtain ⟨p, q, hpq, hma, hna⟩ := h.piece hw
  rw [hm.tokens_eq] at hma
  rw [hn.tokens_eq] at hna
  refine ⟨p ++ [x], q ++ [y], ?_, by simpa using hma, by simpa using hna⟩
  exact List.rel_append hpq (.cons hxy .nil)

/-- What is covered does not change with them. -/
theorem queda_advance {m' n' : CStr} (hm : Cabeza m x m') (hn : Cabeza n y n')
    (hxy : x.Meets toLower y) : Queda e m' n' ma na wild ↔ Queda e m n ma na wild := by
  cases wild with
  | true => exact Iff.rfl
  | false =>
      show Covers _ _ _ ↔ Covers _ _ _
      rw [hm.tokens_eq, hn.tokens_eq, List.cons_append, Wildcard.covers_cons hxy.ne_star.1]
      exact (and_iff_right hxy).symm

/-- What the pieces stand for does not count. -/
theorem Estado.covers_iff (h : Estado m n ma na true) :
    Covers toLower (tokens ma ++ e) (tokens na) ↔ Covers toLower (tokens m ++ e) (tokens n) := by
  obtain ⟨p, q, hpq, hma, hna⟩ := h.piece rfl
  rw [hma, hna, List.append_assoc, Wildcard.covers_append hpq]

/-- What is covered is left to be compared. -/
theorem Estado.queda_of_covers (h : Estado m n ma na wild)
    (hcov : Covers toLower (tokens m ++ e) (tokens n)) : Queda e m n ma na wild := by
  cases wild with
  | true => exact .skip (h.covers_iff.mpr hcov)
  | false => exact hcov

/-- The search starts again one token later. -/
theorem Estado.queda_again (h : Estado m n ma na true) {na' : CStr} (hna : Cabeza na z na')
    (hcov : ¬Covers toLower (tokens m ++ e) (tokens n)) :
    Queda e ma na' ma na' true ↔ Queda e m n ma na true := by
  show Covers _ _ _ ↔ Covers _ _ _
  have hno := mt h.covers_iff.mp hcov
  rw [hna.tokens_eq] at hno ⊢
  exact (Wildcard.covers_star_tail hno).symm

/-- The state when the comparison starts again behind the star. -/
theorem Estado.again (h : Estado m n ma na true) {na' : CStr} (hna : Cabeza na z na') :
    Estado ma na' ma na' true :=
  .behindStar h.nul_ma (hna.not_mem h.nul_na) (h.ne_star rfl)

/-- A comparison comes to an answer, which is whether a property holds. -/
def Responde (o : Option Bool) (P : Prop) : Prop :=
  ∃ b, o = some b ∧ (b = true ↔ P)

/-- An answer to what is equivalent. -/
theorem Responde.congr {o : Option Bool} {P Q : Prop} (h : Responde o P) (hPQ : P ↔ Q) :
    Responde o Q := by
  obtain ⟨b, ho, hb⟩ := h
  exact ⟨b, ho, hb.trans hPQ⟩

/-- A right yes. -/
theorem responde_true {P : Prop} (h : P) : Responde (some true) P :=
  ⟨true, rfl, iff_of_true rfl h⟩

/-- A right no. -/
theorem responde_false {P : Prop} (h : ¬P) : Responde (some false) P :=
  ⟨false, rfl, iff_of_false Bool.false_ne_true h⟩

/-- What goes down in every round. -/
def medida (k : Nat) (m na : CStr) : Nat :=
  na.length * (k + 2) + m.length

/-- The measure falls when the comparison starts again. -/
theorem medida_again {k : Nat} {na' : CStr} (hk : ma.length ≤ k) (hna : na'.length < na.length) :
    medida k ma na' < medida k m na := by
  have hmul : (na'.length + 1) * (k + 2) ≤ na.length * (k + 2) := Nat.mul_le_mul_right _ hna
  rw [Nat.add_mul, Nat.one_mul] at hmul
  rw [medida, medida]
  omega

section Round

variable {k : Nat} {sigue : List Char → List Char → List Char → Option Bool}

/-- The rest of the loop answers from the states that a round leads to. -/
def Sigue (e : List (Token Char)) (k top : Nat) (ma : CStr) (wild : Bool)
    (sigue : List Char → List Char → List Char → Option Bool) : Prop :=
  ∀ m n na : CStr, Estado m n ma na wild → medida k m na < top →
    Responde (sigue (terminated m) (terminated n) (terminated na)) (Queda e m n ma na wild)

/-- A comparison of two tokens, and what follows it. -/
theorem compara_spec (h : Estado m n ma na wild) (hk : ma.length ≤ k) {m' n' : CStr} (hx : x ≠ .star)
    (hm : Cabeza m x m') (hn : Cabeza n y n') (hsigue : Sigue e k (medida k m na) ma wild sigue) :
    Responde (Checked.compara sigue wild (terminated m) (terminated n) (terminated ma)
      (terminated na)) (Queda e m n ma na wild) := by
  rw [Checked.compara, caracter_terminated h.nul_m hm, caracter_terminated h.nul_n hn]
  simp only [bind, Option.bind_some]
  by_cases hxy : x.Meets toLower y
  · rw [if_pos ((parecidas_marca hx).mpr hxy)]
    refine (hsigue m' n' na (h.advance hm hn hxy) ?_).congr (queda_advance hm hn hxy)
    exact Nat.add_lt_add_left hm.length_lt _
  · rw [if_neg (mt (parecidas_marca hx).mp hxy)]
    have hcov : ¬Covers toLower (tokens m ++ e) (tokens n) := by
      rw [hm.tokens_eq, hn.tokens_eq, List.cons_append, Wildcard.covers_cons hx]
      exact fun h ↦ hxy h.1
    cases wild with
    | false => exact responde_false hcov
    | true =>
        have hne : na ≠ [] := fun hnil ↦ by
          have hle := h.le_na
          have hlt := hn.length_lt
          rw [hnil, List.length_nil] at hle
          omega
        obtain ⟨z, na', hna⟩ := exists_cabeza hne
        rw [if_pos rfl, avanza_terminated hna]
        exact (hsigue ma na' na' (h.again hna) (medida_again hk hna.length_lt)).congr
          (h.queda_again hna hcov)

/-- What answers up to a measure answers up to a smaller one. -/
theorem Sigue.mono {top top' : Nat} (h : Sigue e k top ma wild sigue) (hle : top' ≤ top) :
    Sigue e k top' ma wild sigue :=
  fun m n na hs hlt ↦ h m n na hs (hlt.trans_le hle)

/-- The first character of a mask is not the terminator. -/
theorem deref_terminated (hm : nul ∉ m) (hne : m ≠ []) :
    ∃ c, deref (terminated m) = some c ∧ c ≠ nul := by
  obtain ⟨c, r, rfl⟩ := List.exists_cons_of_ne_nil hne
  exact ⟨c, rfl, fun h ↦ hm (h ▸ List.mem_cons_self)⟩

/-- The first token of a mask without a star in front is no star. -/
theorem Cabeza.ne_star (h : Cabeza m x r) (hstar : ∀ r, m ≠ '*' :: r) : x ≠ .star := by
  cases h with
  | star r => exact absurd rfl (hstar r)
  | one => simp
  | lit h => simp

/-- A letter that is left of the old mask covers nothing at the end of the new one. -/
theorem Estado.not_queda_nil (h : Estado m [] ma na wild) (hx : x ≠ .star) {m' : CStr}
    (hm : Cabeza m x m') : ¬Queda e m [] ma na wild := by
  have hmin : ∀ p, minLength (p ++ x :: tokens m' ++ e) ≥ minLength p + 1 := fun p ↦ by
    rw [List.append_assoc, Wildcard.minLength_append]
    cases x with
    | star => exact absurd rfl hx
    | lit c => simp [minLength]
    | one => simp [minLength]
  cases wild with
  | false =>
      intro hcov
      have hle := Covers.minLength_le (show Covers _ _ _ from hcov)
      have h1 := hmin []
      rw [hm.tokens_eq] at hle
      exact absurd (h1.trans hle) (by simp [tokens])
  | true =>
      intro hcov
      have hle := Covers.minLength_le (show Covers _ _ _ from hcov)
      obtain ⟨p, q, hpq, hma, hna⟩ := h.piece rfl
      have h1 := hmin p
      have h2 := Wildcard.minLength_eq_length (Wildcard.star_not_mem_of_forall₂ hpq)
      have h3 := hpq.length_eq
      rw [hma, hna, hm.tokens_eq] at hle
      simp only [minLength, tokens, List.append_nil] at hle
      omega

/-- Behind a piece there is more than one token of the new mask. -/
theorem Estado.tail_ne_nil (h : Estado [] n ma na true) (hn : n ≠ []) (hma : ma ≠ []) {na' : CStr}
    (hna : Cabeza na z na') : na' ≠ [] := by
  rintro rfl
  obtain ⟨p, q, hpq, hp, hq⟩ := h.piece rfl
  obtain ⟨x, ma', hx⟩ := exists_cabeza hma
  obtain ⟨y, n', hy⟩ := exists_cabeza hn
  have hlen := hpq.length_eq
  have h₁ := congrArg List.length hp
  have h₂ := congrArg List.length hq
  rw [hx.tokens_eq] at h₁
  rw [hna.tokens_eq, hy.tokens_eq] at h₂
  simp only [List.length_append, List.length_cons, tokens, List.length_nil] at h₁ h₂
  omega

/-- The terminator of the old mask is compared with the next character of the new one. -/
theorem compara_nil (h : Estado [] n [] n true) (he : e = [])
    (hsigue : Sigue e k (medida k [] n + 1) [] true sigue) :
    Responde (Checked.compara sigue true (terminated []) (terminated n) (terminated [])
      (terminated n)) (Queda e [] n [] n true) := by
  by_cases hn : n = []
  · subst hn
    exact hsigue [] [] [] h (Nat.lt_succ_self _)
  · obtain ⟨y, n', hy⟩ := exists_cabeza hn
    have hnul : Checked.caracter (terminated []) = some (false, nul, terminated []) := rfl
    have hne : toLower nul ≠ toLower (marca y).2 := by
      rw [show toLower nul = nul by decide]
      refine fun heq ↦ absurd (toLower_eq_nul.mp heq.symm) ?_
      cases hy with
      | star => decide
      | one => decide
      | lit hlit => exact (hlit.not_mem h.nul_n).1
    have hno : parecidas false (marca y).1 nul (marca y).2 = false := by
      simp [parecidas, hne, nul]
    have hcov : ¬Covers toLower (tokens [] ++ e) (tokens n) := by
      rw [he, hy.tokens_eq]
      exact fun hcov ↦ absurd (Wildcard.covers_nil_left.mp hcov) (List.cons_ne_nil _ _)
    rw [Checked.compara, hnul, caracter_terminated h.nul_n hy]
    simp only [bind, Option.bind_some, hno, Bool.false_eq_true, if_false, if_true,
      avanza_terminated hy]
    refine (hsigue [] n' n' (h.again hy) ?_).congr (h.queda_again hy hcov)
    exact (medida_again (Nat.zero_le _) hy.length_lt).trans (Nat.lt_succ_self _)

/-- A round without a star at the old mask. -/
theorem ronda_spec (hold : oldMask ≠ []) (h : Estado m n ma na wild) (hstar : ∀ r, m ≠ '*' :: r)
    (hk : ma.length ≤ k) (hsigue : Sigue (extra oldMask) k (medida k m na) ma wild sigue) :
    Responde (Checked.ronda oldMask sigue (terminated m) (terminated n) (terminated ma)
      (terminated na) wild) (Queda (extra oldMask) m n ma na wild) := by
  by_cases hm : m = []
  · subst hm
    by_cases hn : n = []
    · subst hn
      refine responde_true (h.queda_of_covers ?_)
      rw [extra]
      split
      · exact .skip .nil
      · exact .nil
    · obtain ⟨d, hd, hdnul⟩ := deref_terminated h.nul_n hn
      rw [Checked.ronda, hd, cola_eq hold]
      simp only [terminated_nil, deref_cons, bind, Option.bind_some, if_true, if_neg hdnul]
      cases hcola : colaEstrella oldMask with
      | true =>
          rw [if_pos rfl]
          refine responde_true (h.queda_of_covers ?_)
          rw [extra, if_pos hcola]
          exact Wildcard.covers_star.mpr ⟨[], List.nil_suffix, .nil⟩
      | false =>
          have he : extra oldMask = [] := by
            rw [extra, hcola]
            rfl
          have hcov : ¬Covers toLower (tokens [] ++ extra oldMask) (tokens n) := by
            obtain ⟨y, n', hy⟩ := exists_cabeza hn
            rw [he, hy.tokens_eq]
            exact fun hcov ↦ absurd (Wildcard.covers_nil_left.mp hcov) (List.cons_ne_nil _ _)
          cases wild with
          | false => exact responde_false hcov
          | true =>
              -- the search goes on one token later, and compares there at once
              have hne : na ≠ [] := fun hnil ↦ hn (List.length_eq_zero_iff.mp (by
                have hle := h.le_na
                rw [hnil] at hle
                exact Nat.le_zero.mp hle))
              obtain ⟨z, na', hna⟩ := exists_cabeza hne
              have hnext := h.again hna
              have hlt := medida_again (m := []) hk hna.length_lt
              have hlater : Sigue (extra oldMask) k (medida k ma na' + 1) ma true sigue :=
                hsigue.mono hlt
              simp only [Bool.false_eq_true, if_false, if_true, avanza_terminated hna]
              refine Responde.congr ?_ (h.queda_again hna hcov)
              by_cases hma : ma = []
              · subst hma
                exact compara_nil hnext he hlater
              · obtain ⟨x, ma', hx⟩ := exists_cabeza hma
                have hlong : na' ≠ [] := h.tail_ne_nil hn hma hna
                obtain ⟨y, na'', hy⟩ := exists_cabeza hlong
                exact compara_spec hnext hk (hx.ne_star (h.ne_star rfl)) hx hy
                  (hlater.mono (Nat.le_succ _))
  · obtain ⟨x, m', hx⟩ := exists_cabeza hm
    have hxs := hx.ne_star hstar
    obtain ⟨c, hc, hcnul⟩ := deref_terminated h.nul_m hm
    by_cases hn : n = []
    · subst hn
      have hstay : m.dropWhile (· == '*') = m := by
        cases m with
        | nil => rfl
        | cons c m =>
            have hcs : c ≠ '*' := fun heq ↦ hstar m (by rw [heq])
            simp [hcs]
      rw [Checked.ronda, hc, estrellas_terminated, hstay]
      simp only [terminated_nil, deref_cons, bind, Option.bind_some, hc, if_neg hcnul, if_true]
      rw [show (pure (decide (c = nul)) : Option Bool) = some false by simp [hcnul]]
      exact responde_false (h.not_queda_nil hxs hx)
    · obtain ⟨d, hd, hdnul⟩ := deref_terminated h.nul_n hn
      obtain ⟨y, n', hy⟩ := exists_cabeza hn
      rw [Checked.ronda, hc, hd]
      simp only [bind, Option.bind_some, if_neg hcnul, if_neg hdnul]
      exact compara_spec h hk hxs hx hy hsigue

end Round

/-- The run of stars that is left out. -/
theorem covers_dropWhile (m : CStr) (e q : List (Token Char)) :
    Covers toLower (.star :: (tokens (m.dropWhile (· == '*')) ++ e)) q ↔
      Covers toLower (.star :: (tokens m ++ e)) q := by
  induction m with
  | nil => exact Iff.rfl
  | cons c m ih =>
      by_cases hc : c = '*'
      · subst hc
        rw [show ('*' :: m).dropWhile (· == '*') = m.dropWhile (· == '*') by simp, ih]
        exact Wildcard.covers_star_star.symm
      · rw [show (c :: m).dropWhile (· == '*') = c :: m by simp [hc]]

/-- A mask without its stars is not longer. -/
theorem length_dropWhile_le (m : CStr) : (m.dropWhile (· == '*')).length ≤ m.length :=
  (List.dropWhile_suffix _).length_le

/-- Behind the stars there is none. -/
theorem dropWhile_ne_star (r : CStr) : ∀ u, r.dropWhile (· == '*') ≠ '*' :: u := fun u hu ↦ by
  have hne := List.head?_dropWhile_not (· == '*') r
  rw [hu] at hne
  simp at hne

/-- Behind the stars there is no terminator. -/
theorem not_mem_dropWhile {r : CStr} (h : nul ∉ '*' :: r) : nul ∉ r.dropWhile (· == '*') :=
  fun hmem ↦ h (List.mem_cons_of_mem _ ((List.dropWhile_suffix _).subset hmem))

/-- A round that begins with a run of stars. -/
theorem mmatchDesde_star (oldMask : CStr) (fuel : Nat) (r : CStr) (n ma na : List Char)
    (wild : Bool) :
    Checked.mmatchDesde oldMask (fuel + 1) (terminated ('*' :: r)) n ma na wild =
      Checked.ronda oldMask (fun m' n' na' ↦ Checked.mmatchDesde oldMask fuel m' n'
        (terminated (r.dropWhile (· == '*'))) na' true) (terminated (r.dropWhile (· == '*'))) n
        (terminated (r.dropWhile (· == '*'))) n true := by
  have hdrop : ('*' :: r).dropWhile (· == '*') = r.dropWhile (· == '*') := by simp
  rw [Checked.mmatchDesde, terminated_cons, deref_cons, ← terminated_cons, estrellas_terminated,
    hdrop]
  rfl

/-- A round that does not. -/
theorem mmatchDesde_ne_star (oldMask : CStr) (fuel : Nat) (hm : ∀ r, m ≠ '*' :: r)
    (n ma na : List Char) (wild : Bool) :
    Checked.mmatchDesde oldMask (fuel + 1) (terminated m) n ma na wild =
      Checked.ronda oldMask (fun m' n' na' ↦ Checked.mmatchDesde oldMask fuel m' n' ma na' wild)
        (terminated m) n ma na wild := by
  obtain ⟨c, u, hu⟩ := List.exists_cons_of_ne_nil (terminated_ne_nil m)
  have hc : c ≠ '*' := by
    rintro rfl
    cases m with
    | nil => exact absurd (List.cons.inj hu).1 (by decide)
    | cons d m => exact hm m (by rw [(List.cons.inj hu).1])
  rw [Checked.mmatchDesde, hu, deref_cons]
  exact if_neg hc

/-- A star of the old mask. -/
theorem queda_star {r : CStr} (h : Estado ('*' :: r) n ma na wild) :
    Queda e (r.dropWhile (· == '*')) n (r.dropWhile (· == '*')) n true ↔
      Queda e ('*' :: r) n ma na wild := by
  refine (covers_dropWhile r e (tokens n)).trans ?_
  cases wild with
  | false => exact Iff.rfl
  | true =>
      obtain ⟨p, q, hpq, hma, hna⟩ := h.piece rfl
      show _ ↔ Covers _ _ _
      rw [hma, hna, List.append_assoc]
      exact (Wildcard.covers_star_append hpq).symm

/-- The loop comes to an answer. -/
theorem mmatchDesde_spec (hold : oldMask ≠ []) {fuel : Nat} (h : Estado m n ma na wild)
    (hma : ma.length ≤ oldMask.length)
    (hfuel : medida oldMask.length m na < fuel) :
    Responde (Checked.mmatchDesde oldMask fuel (terminated m) (terminated n) (terminated ma)
      (terminated na) wild) (Queda (extra oldMask) m n ma na wild) := by
  induction fuel generalizing m n ma na wild with
  | zero => exact absurd hfuel (Nat.not_lt_zero _)
  | succ fuel ih =>
      rw [Nat.lt_succ_iff] at hfuel
      by_cases hstar : ∃ r, m = '*' :: r
      · obtain ⟨r, rfl⟩ := hstar
        have hr : (r.dropWhile (· == '*')).length < ('*' :: r).length :=
          Nat.lt_succ_of_le (length_dropWhile_le r)
        have hrold := hr.le.trans (h.le_ma.trans hma)
        have hhead := dropWhile_ne_star r
        have hstate : Estado (r.dropWhile (· == '*')) n (r.dropWhile (· == '*')) n true :=
          .behindStar (not_mem_dropWhile h.nul_m) h.nul_n hhead
        have hlower : medida oldMask.length (r.dropWhile (· == '*')) n <
            medida oldMask.length ('*' :: r) na :=
          Nat.add_lt_add_of_le_of_lt (Nat.mul_le_mul_right _ h.le_na) hr
        have hsigue : Sigue (extra oldMask) oldMask.length
            (medida oldMask.length (r.dropWhile (· == '*')) n) (r.dropWhile (· == '*')) true
            fun m' n' na' ↦ Checked.mmatchDesde oldMask fuel m' n'
              (terminated (r.dropWhile (· == '*'))) na' true :=
          fun m' n' na' hs hlt ↦ ih hs hrold (hlt.trans (hlower.trans_le hfuel))
        rw [mmatchDesde_star]
        exact (ronda_spec hold hstate hhead hrold hsigue).congr (queda_star h)
      · have hhead : ∀ r, m ≠ '*' :: r := fun r hr ↦ hstar ⟨r, hr⟩
        have hsigue : Sigue (extra oldMask) oldMask.length (medida oldMask.length m na) ma wild
            fun m' n' na' ↦ Checked.mmatchDesde oldMask fuel m' n' (terminated ma) na' wild :=
          fun m' n' na' hs hlt ↦ ih hs hma (hlt.trans_le hfuel)
        rw [mmatchDesde_ne_star oldMask fuel hhead]
        exact ronda_spec hold h hhead hma hsigue

/-! ## The model without reads -/

/-- A character that stands for itself. -/
theorem escape_plain (hr : c = '\\' → AtLiteral r) : escape (c :: r) = (false, c :: r) := by
  by_cases hc : c = '\\'
  · subst hc
    cases r with
    | nil => rfl
    | cons d r => simp [escape, hr rfl d rfl]
  · simp [escape, hc]

/-- What is behind a character that stands for itself. -/
theorem tras_plain (hr : c = '\\' → AtLiteral r) : tras (c :: r) = r := by
  by_cases hc : c = '\\'
  · subst hc
    cases r with
    | nil => rfl
    | cons d r => simp [tras, hr rfl d rfl]
  · simp [tras, hc]

/-- What is read at a pointer. -/
theorem caracter_escape (hm : nul ∉ m) : Checked.caracter (terminated m) =
    some ((escape m).1, peek (escape m).2, terminated (escape m).2.tail) := by
  by_cases hne : m = []
  · subst hne
    rfl
  · obtain ⟨x, r, h⟩ := exists_cabeza hne
    rw [caracter_terminated hm h]
    cases h with
    | star => rfl
    | one => rfl
    | lit h =>
        cases h with
        | escape hc => simp [escape, hc, marca, peek]
        | plain hc hr => simp [escape_plain hr, hc, marca]

/-- What is behind the first token. -/
theorem Cabeza.tras_eq (h : Cabeza m x r) : tras m = r := by
  cases h with
  | star => rfl
  | one => rfl
  | lit h =>
      cases h with
      | escape hc => simp [tras, hc]
      | plain hc hr => exact tras_plain hr

/-- What is behind an escaped character has no terminator in it. -/
theorem escape_not_mem (hm : nul ∉ m) : nul ∉ (escape m).2.tail := by
  unfold escape
  split
  · split
    · exact fun h ↦ hm (by simp [List.mem_of_mem_tail h])
    · exact fun h ↦ hm (List.mem_of_mem_tail h)
  · exact fun h ↦ hm (List.mem_of_mem_tail h)

/-- A pointer behind the terminator is not read. -/
theorem mmatchDesde_behind (oldMask : CStr) (fuel : Nat) (m ma na : List Char) (wild : Bool) :
    Checked.mmatchDesde oldMask fuel m [] ma na wild = none := by
  cases fuel with
  | zero => rfl
  | succ fuel =>
      have hronda : ∀ sigue m ma na wild, Checked.ronda oldMask sigue m [] ma na wild = none :=
        fun sigue m ma na wild ↦ by cases m <;> rfl
      rw [Checked.mmatchDesde]
      cases hm : deref m with
      | none => rfl
      | some c =>
          simp only [bind, Option.bind_some, hronda]
          split
          · cases Checked.estrellas m <;> rfl
          · rfl

section Model

variable {fuel : Nat} {b : Bool}

/-- The model gives every answer of the comparison with its reads. -/
def Da (oldMask : CStr) (fuel : Nat) : Prop :=
  ∀ {m n ma na : CStr} {wild b : Bool}, nul ∉ m → nul ∉ n → nul ∉ ma → nul ∉ na →
    Checked.mmatchDesde oldMask fuel (terminated m) (terminated n) (terminated ma) (terminated na)
      wild = some b → mmatchDesde oldMask fuel m n ma na wild = b

/-- The comparison of two tokens does what the one on texts does. -/
theorem compara_model (hda : Da oldMask fuel) (hm : nul ∉ m) (hn : nul ∉ n) (hma : nul ∉ ma)
    (hna : nul ∉ na)
    (h : Checked.compara (fun m' n' na' ↦ Checked.mmatchDesde oldMask fuel m' n' (terminated ma) na'
      wild) wild (terminated m) (terminated n) (terminated ma) (terminated na) = some b) :
    (if parecidas (escape m).1 (escape n).1 (peek (escape m).2) (peek (escape n).2) then
        mmatchDesde oldMask fuel (escape m).2.tail (escape n).2.tail ma na wild
      else if wild then mmatchDesde oldMask fuel ma (tras na) ma (tras na) wild else false) = b := by
  rw [Checked.compara, caracter_escape hm, caracter_escape hn] at h
  simp only [bind, Option.bind_some] at h
  split
  · next hp =>
      rw [if_pos hp] at h
      exact hda (escape_not_mem hm) (escape_not_mem hn) hma hna h
  · next hp =>
      rw [if_neg hp] at h
      cases wild with
      | false => exact Option.some.inj h
      | true =>
          by_cases hne : na = []
          · subst hne
            exact absurd h (by simp [Checked.avanza, Checked.escapado, mmatchDesde_behind, nul])
          · obtain ⟨z, na', hz⟩ := exists_cabeza hne
            simp only [if_true, avanza_terminated hz, Option.bind_some] at h
            rw [hz.tras_eq]
            exact hda hma (hz.not_mem hna) hma (hz.not_mem hna) h

/-- A round without a star at the old mask. -/
theorem ronda_model (hold : oldMask ≠ []) (hda : Da oldMask fuel) (hstar : ∀ r, m ≠ '*' :: r)
    (hm : nul ∉ m) (hn : nul ∉ n) (hma : nul ∉ ma) (hna : nul ∉ na)
    (h : Checked.ronda oldMask (fun m' n' na' ↦ Checked.mmatchDesde oldMask fuel m' n'
      (terminated ma) na' wild) (terminated m) (terminated n) (terminated ma) (terminated na) wild =
        some b) : mmatchDesde oldMask (fuel + 1) m n ma na wild = b := by
  have hpeek : peek m ≠ '*' := by
    cases m with
    | nil => decide
    | cons c m => exact fun hc ↦ hstar m (by rw [show c = '*' from hc])
  rw [mmatchDesde.eq_def]
  simp only [if_neg hpeek]
  by_cases hmnil : m = []
  · subst hmnil
    by_cases hnnil : n = []
    · subst hnnil
      exact Option.some.inj h
    · obtain ⟨d, hd, hdnul⟩ := deref_terminated hn hnnil
      obtain ⟨d', n', rfl⟩ := List.exists_cons_of_ne_nil hnnil
      rw [Checked.ronda, hd, cola_eq hold] at h
      simp only [terminated_nil, deref_cons, bind, Option.bind_some, if_true, if_neg hdnul] at h
      cases hcola : colaEstrella oldMask with
      | true =>
          rw [hcola] at h
          exact Option.some.inj h
      | false =>
          rw [hcola] at h
          cases wild with
          | false => exact Option.some.inj h
          | true =>
              by_cases hne : na = []
              · subst hne
                cases ma <;> exact absurd h (by simp [Checked.avanza, Checked.escapado,
                  Checked.compara, Checked.caracter, deref, nul])
              · obtain ⟨z, na', hz⟩ := exists_cabeza hne
                simp only [Bool.false_eq_true, if_false, if_true, avanza_terminated hz,
                  Option.bind_some] at h
                have hnul := hz.not_mem hna
                have hmodel := compara_model hda hma hnul hma hnul h
                simp only [Bool.false_eq_true, if_false, if_true, hz.tras_eq]
                exact hmodel
  · obtain ⟨c, hc, hcnul⟩ := deref_terminated hm hmnil
    obtain ⟨c', m', rfl⟩ := List.exists_cons_of_ne_nil hmnil
    by_cases hnnil : n = []
    · subst hnnil
      have hstay : (c' :: m').dropWhile (· == '*') = c' :: m' := by
        have hcs : c' ≠ '*' := fun heq ↦ hstar m' (by rw [heq])
        simp [hcs]
      rw [Checked.ronda, hc, estrellas_terminated, hstay] at h
      simp only [terminated_nil, deref_cons, bind, Option.bind_some, hc, if_neg hcnul, if_true] at h
      show ((c' :: m').dropWhile (· == '*')).isEmpty = b
      rw [hstay, ← Option.some.inj h]
      simp [hcnul]
    · obtain ⟨d, hd, hdnul⟩ := deref_terminated hn hnnil
      obtain ⟨d', n', rfl⟩ := List.exists_cons_of_ne_nil hnnil
      rw [Checked.ronda, hc, hd] at h
      simp only [bind, Option.bind_some, if_neg hcnul, if_neg hdnul] at h
      exact compara_model hda hm hn hma hna h

/-- The model gives every answer of the comparison with its reads. -/
theorem mmatchDesde_model (hold : oldMask ≠ []) (fuel : Nat) : Da oldMask fuel := by
  induction fuel with
  | zero => exact fun _ _ _ _ h ↦ absurd h (by simp [Checked.mmatchDesde])
  | succ fuel ih =>
      intro m n ma na wild b hm hn hma hna h
      by_cases hstar : ∃ r, m = '*' :: r
      · obtain ⟨r, rfl⟩ := hstar
        rw [mmatchDesde_star] at h
        have hr := not_mem_dropWhile hm
        have hpeek : peek (r.dropWhile (· == '*')) ≠ '*' := by
          cases hdrop : r.dropWhile (· == '*') with
          | nil => decide
          | cons c u => exact fun hc ↦ dropWhile_ne_star r u (by rw [hdrop, show c = '*' from hc])
        have hskip : mmatchDesde oldMask (fuel + 1) ('*' :: r) n ma na wild =
            mmatchDesde oldMask (fuel + 1) (r.dropWhile (· == '*')) n (r.dropWhile (· == '*')) n
              true := by
          have hdrop : ('*' :: r).dropWhile (· == '*') = r.dropWhile (· == '*') := by simp
          rw [mmatchDesde.eq_def, mmatchDesde.eq_def]
          simp only [peek_cons, if_true, if_neg hpeek, hdrop]
        rw [hskip]
        exact ronda_model hold ih (dropWhile_ne_star r) hr hn hr hn h
      · have hhead : ∀ r, m ≠ '*' :: r := fun r hr ↦ hstar ⟨r, hr⟩
        rw [mmatchDesde_ne_star oldMask fuel hhead] at h
        exact ronda_model hold ih hhead hm hn hma hna h

end Model

/-! ## The masks -/

/-- The tokens of two parts of a mask. -/
theorem tokens_append {u : CStr} (hu : u.getLast? ≠ some '\\') (v : CStr) :
    tokens (u ++ v) = tokens u ++ tokens v := by
  induction u using mask_induction with
  | nil => rfl
  | star m ih =>
      have hm : m.getLast? ≠ some '\\' := fun h ↦ hu (by simp [List.getLast?_cons, h])
      exact congrArg _ (ih hm)
  | quest m ih =>
      have hm : m.getLast? ≠ some '\\' := fun h ↦ hu (by simp [List.getLast?_cons, h])
      exact congrArg _ (ih hm)
  | lit m c r hlit ih =>
      have hr : r.getLast? ≠ some '\\' := fun h ↦ hu (by
        cases hlit <;> simp [List.getLast?_cons, h])
      have happ : Literal (m ++ v) c (r ++ v) := by
        cases hlit with
        | escape hc => exact .escape hc
        | plain hc hat =>
            refine .plain hc fun heq ↦ ?_
            cases r with
            | nil => exact absurd (by rw [heq]; rfl) hu
            | cons d r => exact hat heq
      rw [happ.tokens_eq, hlit.tokens_eq, ih hr]
      rfl

/-- The end of a mask whose test for a last star succeeds. -/
theorem eq_of_colaEstrella (h : colaEstrella oldMask = true) : ∃ u k, u ≠ [] ∧
    u.getLast? ≠ some '\\' ∧ oldMask = u ++ '*' :: List.replicate k '?' := by
  have hsplit := List.takeWhile_append_dropWhile (p := (· == '?')) (l := oldMask.reverse)
  have hquest : oldMask.reverse.takeWhile (· == '?') =
      List.replicate (oldMask.reverse.takeWhile (· == '?')).length '?' :=
    List.eq_replicate_iff.mpr ⟨rfl, fun c hc ↦ by simpa using List.mem_takeWhile_imp hc⟩
  rw [colaEstrella] at h
  split at h
  · next c u hdrop =>
      refine ⟨(c :: u).reverse, (oldMask.reverse.takeWhile (· == '?')).length, by simp,
        by simpa using h, ?_⟩
      rw [hdrop, hquest] at hsplit
      have hrev := congrArg List.reverse hsplit
      simpa using hrev.symm
  · exact absurd h Bool.false_ne_true

/-- The tokens of question marks. -/
theorem tokens_replicate (k : Nat) : tokens (List.replicate k '?') = List.replicate k .one := by
  induction k with
  | zero => rfl
  | succ k ih => exact congrArg _ ih

/-- The tokens of a mask whose test for a last star succeeds. -/
theorem tokens_of_colaEstrella (h : colaEstrella oldMask = true) : ∃ p k,
    tokens oldMask = p ++ .star :: List.replicate k .one := by
  obtain ⟨u, k, -, hlast, rfl⟩ := eq_of_colaEstrella h
  refine ⟨tokens u, k, ?_⟩
  rw [tokens_append hlast, ← tokens_replicate]
  rfl

/-- A star behind a last star and letters changes nothing. -/
theorem mem_lang_extra (oldMask s : CStr) :
    s ∈ Wildcard.lang toLower (tokens oldMask ++ extra oldMask) ↔
      s ∈ Wildcard.lang toLower (tokens oldMask) := by
  rw [extra]
  split
  · next h =>
      obtain ⟨p, k, hp⟩ := tokens_of_colaEstrella h
      rw [hp, List.append_assoc]
      refine Wildcard.mem_append_congr fun z ↦ ⟨fun hz ↦ ?_, fun hz ↦ ?_⟩
      · cases k with
        | zero => exact Wildcard.mem_star_star.mp hz
        | succ k =>
            rw [List.replicate_succ'] at hz ⊢
            exact Wildcard.mem_star_replicate (by simpa using hz)
      · exact Wildcard.mem_append_star (by rwa [List.append_nil])
  · rw [List.append_nil]

/-- On masks the comparison comes to its end without a read outside of them, and its answer is
whether the old mask covers the new one. -/
theorem checked_mmatch_spec (hold : oldMask ≠ []) (hnul : nul ∉ oldMask) (hnew : nul ∉ newMask)
    {fuel : Nat} (hfuel : medida oldMask.length oldMask newMask < fuel) :
    Responde (Checked.mmatch fuel oldMask newMask)
      (Covers toLower (tokens oldMask ++ extra oldMask) (tokens newMask)) := by
  have hstate : Estado oldMask newMask oldMask newMask false :=
    ⟨hnul, hnew, hnul, hnew, Nat.le_refl _, Nat.le_refl _, fun h ↦ absurd h Bool.false_ne_true,
      fun h ↦ absurd h Bool.false_ne_true⟩
  exact mmatchDesde_spec hold hstate (Nat.le_refl _) hfuel

/-- An empty old mask is left by the test at its end. -/
theorem checked_mmatch_nil (fuel : Nat) (hnul : nul ∉ newMask) (hnew : newMask ≠ []) :
    Checked.mmatch fuel [] newMask = none := by
  obtain ⟨d, hd, hdnul⟩ := deref_terminated hnul hnew
  cases fuel with
  | zero => rfl
  | succ fuel =>
      rw [Checked.mmatch, mmatchDesde_ne_star [] fuel (fun _ h ↦ by cases h), Checked.ronda, hd]
      simp [Checked.cola, hdnul]

/-! ## Masks that cover masks that cover masks -/

/-- A character in front does not change the last one. -/
theorem getLast?_cons_ne {u : CStr} (hu : u.getLast? ≠ some d) (hc : u = [] → c ≠ d) :
    (c :: u).getLast? ≠ some d := by
  cases u with
  | nil => simpa using hc rfl
  | cons e u => simpa [List.getLast?_cons] using hu

/-- A mask is cut at a star. -/
theorem exists_of_tokens_eq {p q : List (Token Char)} (h : tokens m = p ++ .star :: q) :
    ∃ u v, m = u ++ '*' :: v ∧ tokens u = p ∧ tokens v = q ∧ u.getLast? ≠ some '\\' := by
  induction m using mask_induction generalizing p with
  | nil => simp [tokens] at h
  | star m ih =>
      cases p with
      | nil => exact ⟨[], m, rfl, rfl, (List.cons.inj h).2, by simp⟩
      | cons x p =>
          obtain ⟨rfl, hrest⟩ := List.cons.inj (show Token.star :: tokens m = _ from h)
          obtain ⟨u, v, rfl, rfl, hv, hu⟩ := ih hrest
          exact ⟨'*' :: u, v, rfl, rfl, hv, getLast?_cons_ne hu fun _ ↦ by decide⟩
  | quest m ih =>
      cases p with
      | nil => exact absurd (List.cons.inj (show Token.one :: tokens m = _ from h)).1 (by simp)
      | cons x p =>
          obtain ⟨rfl, hrest⟩ := List.cons.inj (show Token.one :: tokens m = _ from h)
          obtain ⟨u, v, rfl, rfl, hv, hu⟩ := ih hrest
          exact ⟨'?' :: u, v, rfl, rfl, hv, getLast?_cons_ne hu fun _ ↦ by decide⟩
  | lit m c r hlit ih =>
      rw [hlit.tokens_eq] at h
      cases p with
      | nil => exact absurd (List.cons.inj h).1 (by simp)
      | cons x p =>
          obtain ⟨rfl, hrest⟩ := List.cons.inj h
          obtain ⟨u, v, rfl, rfl, hv, hu⟩ := ih hrest
          cases hlit with
          | escape hc =>
              have hne : c ≠ '\\' := fun heq ↦ absurd hc (by rw [heq]; decide)
              refine ⟨'\\' :: c :: u, v, rfl, by simp [tokens, hc], hv, ?_⟩
              exact getLast?_cons_ne (getLast?_cons_ne hu fun _ ↦ hne) fun h ↦ by cases h
          | plain hc hat =>
              have hu' : c = '\\' → AtLiteral u := fun heq ↦ by
                cases u with
                | nil => exact fun d hd ↦ by cases hd
                | cons e u => exact hat heq
              refine ⟨c :: u, v, rfl, (Literal.plain hc hu').tokens_eq, hv, ?_⟩
              refine getLast?_cons_ne hu fun hnil heq ↦ ?_
              rw [hnil] at hat
              exact absurd (hat heq '*' rfl) (by decide)

/-- Letters stand for question marks. -/
theorem eq_replicate_of_tokens {k : Nat} (h : tokens m = List.replicate k .one) :
    m = List.replicate k '?' := by
  induction m using mask_induction generalizing k with
  | nil =>
      cases k with
      | zero => rfl
      | succ k => cases h
  | star m ih => cases k <;> cases h
  | quest m ih =>
      cases k with
      | zero => cases h
      | succ k => exact congrArg _ (ih (List.cons.inj h).2)
  | lit m c r hlit ih =>
      rw [hlit.tokens_eq] at h
      cases k <;> cases h

/-- Question marks behind a star are passed over. -/
theorem colaEstrella_replicate (u : CStr) (k : Nat) :
    colaEstrella (u ++ '*' :: List.replicate k '?') = colaEstrella (u ++ ['*']) := by
  induction k with
  | zero => rfl
  | succ k ih =>
      rw [List.replicate_succ', ← List.cons_append, ← List.append_assoc, colaEstrella_quest, ih]

/-- A mask with a literal before a last star and letters passes the test for a last star. -/
theorem colaEstrella_of_tokens {p : List (Token Char)} {k : Nat} (hp : p ≠ [])
    (h : tokens m = p ++ .star :: List.replicate k .one) : colaEstrella m = true := by
  obtain ⟨u, v, rfl, rfl, hv, hu⟩ := exists_of_tokens_eq h
  have hne : u ≠ [] := fun hnil ↦ hp (by rw [hnil]; rfl)
  obtain ⟨w, d, hw⟩ := (List.eq_nil_or_concat u).resolve_left hne
  rw [List.concat_eq_append] at hw
  rw [eq_replicate_of_tokens hv, colaEstrella_replicate, hw, colaEstrella_star]
  refine decide_eq_true fun hd ↦ hu ?_
  rw [hw, hd]
  simp

/-- A mask with a literal and a star that only letters and stars follow passes it, too. -/
theorem colaEstrella_of_star {p q : List (Token Char)} (h : tokens m = p ++ .star :: q)
    (hlit : ∃ d, .lit d ∈ tokens m) (hq : ∀ d, .lit d ∉ q) : colaEstrella m = true := by
  obtain ⟨d, hd⟩ := hlit
  obtain ⟨q₁, q₂, hsplit, hno⟩ := Wildcard.exists_last_star
    (show Token.star ∈ Token.star :: q from List.mem_cons_self)
  have hwild : ∀ x ∈ q₂, x = Token.one := fun x hx ↦ by
    have hmem : x ∈ Token.star :: q := by
      rw [hsplit]
      exact List.mem_append_right _ (List.mem_cons_of_mem _ hx)
    cases x with
    | one => rfl
    | star => exact absurd hx hno
    | lit e => exact absurd (by simpa using hmem) (hq e)
  have hlast : tokens m = (p ++ q₁) ++ .star :: List.replicate q₂.length .one := by
    rw [h, hsplit, ← List.eq_replicate_iff.mpr ⟨rfl, hwild⟩, List.append_assoc]
  refine colaEstrella_of_tokens (fun hnil ↦ ?_) hlast
  -- the literal stands in front of the last star
  rw [hlast, hnil] at hd
  simp at hd

/-- Covering is transitive through the test for a last star, for masks with a literal. -/
theorem covers_trans_extra {a b c : CStr} (ha : ∃ d, .lit d ∈ tokens a)
    (hab : Covers toLower (tokens a ++ extra a) (tokens b))
    (hbc : Covers toLower (tokens b ++ extra b) (tokens c)) :
    Covers toLower (tokens a ++ extra a) (tokens c) := by
  cases hb : colaEstrella b with
  | false =>
      have he : extra b = [] := by
        rw [extra, hb]
        rfl
      rw [he, List.append_nil] at hbc
      exact hab.trans hbc
  | true =>
      have hea : extra a = [.star] := by
        by_contra hno
        have he : extra a = [] := by
          rw [extra] at hno ⊢
          split at hno
          · exact absurd rfl hno
          · next h => rw [if_neg h]
        obtain ⟨p, k, hp⟩ := tokens_of_colaEstrella hb
        rw [he, List.append_nil, hp] at hab
        obtain ⟨p₁, p₂, hsplit, hcov⟩ := hab.star_split
        have hlit : ∀ d, Token.lit d ∉ p₂ := fun d hd ↦
          hcov.lit_not_mem (List.mem_cons_of_mem _ hd)
        have hcola := colaEstrella_of_star hsplit ha hlit
        rw [extra, if_pos hcola] at he
        cases he
      have heb : extra b = [.star] := by
        rw [extra, if_pos hb]
      rw [hea] at hab ⊢
      rw [heb] at hbc
      exact (hab.append_of_star [.star]).trans hbc

/-- `mmatch` comes to its end without a read outside of the masks, and where it returns 0 every
string of the language of the new mask is in that of the old one. -/
def MmatchSound (oldMask newMask : CStr) : Prop :=
  ∃ fuel b, Checked.mmatch fuel oldMask newMask = some b ∧
    (b = true → ∀ s, s ∈ Wildcard.lang toLower (tokens newMask) →
      s ∈ Wildcard.lang toLower (tokens oldMask))

end Match

open Match

/-- `mmatch` answers whether the old mask covers the new one, token by token. -/
theorem mmatch_iff_covers {oldMask newMask : CStr} (hold : nul ∉ oldMask) (hnew : nul ∉ newMask) :
    mmatch oldMask newMask = true ↔
      Covers toLower (tokens oldMask ++ extra oldMask) (tokens newMask) := by
  by_cases hnil : oldMask = []
  · subst hnil
    by_cases hne : newMask = []
    · subst hne
      exact iff_of_true (by decide) .nil
    · obtain ⟨y, n, hy⟩ := exists_cabeza hne
      obtain ⟨c, u, rfl⟩ := List.exists_cons_of_ne_nil hne
      refine iff_of_false ?_ fun hcov ↦ ?_
      · obtain ⟨fuel, hfuel⟩ := Nat.exists_eq_succ_of_ne_zero
          (show ((c :: u).length + 2) * ([].length + (c :: u).length + 3) ≠ 0 from
            Nat.mul_ne_zero (Nat.succ_ne_zero _) (Nat.succ_ne_zero _))
        rw [mmatch, hfuel]
        exact Bool.false_ne_true
      · rw [hy.tokens_eq] at hcov
        exact absurd (Wildcard.covers_nil_left.mp hcov) (List.cons_ne_nil _ _)
  · have hfuel : medida oldMask.length oldMask newMask <
        (newMask.length + 2) * (oldMask.length + newMask.length + 3) := by
      have hmul : (newMask.length + 2) * (oldMask.length + 2) ≤
          (newMask.length + 2) * (oldMask.length + newMask.length + 3) :=
        Nat.mul_le_mul_left _ (by omega)
      rw [Nat.add_mul] at hmul
      rw [medida]
      omega
    obtain ⟨b, hb, hiff⟩ := checked_mmatch_spec hnil hold hnew hfuel
    rw [← hiff, mmatch, mmatchDesde_model hnil _ hold hnew hold hnew hb]

/-- `mmatch` is transitive behind a mask with a literal. -/
theorem mmatch_trans {a b c : CStr} (ha : nul ∉ a) (hb : nul ∉ b) (hc : nul ∉ c)
    (hlit : ∃ d, .lit d ∈ tokens a) (hab : mmatch a b = true) (hbc : mmatch b c = true) :
    mmatch a c = true :=
  (mmatch_iff_covers ha hc).mpr
    (covers_trans_extra hlit ((mmatch_iff_covers ha hb).mp hab) ((mmatch_iff_covers hb hc).mp hbc))

/-- `mmatch` is sound unless the old mask is empty and the new one is not. -/
theorem mmatch_sound_iff (oldMask newMask : CStr) (hold : nul ∉ oldMask) (hnew : nul ∉ newMask) :
    MmatchSound oldMask newMask ↔ oldMask ≠ [] ∨ newMask = [] := by
  constructor
  · rintro ⟨fuel, b, hb, -⟩
    by_contra hno
    obtain ⟨hnil, hne⟩ := not_or.mp hno
    rw [not_not.mp hnil, checked_mmatch_nil fuel hnew hne] at hb
    cases hb
  · intro h
    by_cases hnil : oldMask = []
    · have hnil' : newMask = [] := h.resolve_left (not_not.mpr hnil)
      subst hnil
      subst hnil'
      exact ⟨1, true, rfl, fun _ _ hs ↦ hs⟩
    · obtain ⟨b, hb, hiff⟩ := checked_mmatch_spec hnil hold hnew (Nat.lt_succ_self _)
      refine ⟨_, b, hb, fun htrue s hs ↦ ?_⟩
      exact (mem_lang_extra oldMask s).mp ((hiff.mp htrue).mem hs)

/-- A host mask that covers another one. -/
theorem mmatch_sound_host : MmatchSound "*!*@*.es".toList "nick!*@ppp?.red.es".toList ↔
    "*!*@*.es".toList ≠ [] ∨ "nick!*@ppp?.red.es".toList = [] :=
  mmatch_sound_iff _ _ (by decide) (by decide)

/-- The comparison with an empty old mask reads the byte before it. -/
theorem mmatch_not_sound : ¬MmatchSound [] "a".toList := by
  rintro ⟨fuel, b, hb, -⟩
  rw [checked_mmatch_nil fuel (by decide) (by decide)] at hb
  cases hb

end Ircd
