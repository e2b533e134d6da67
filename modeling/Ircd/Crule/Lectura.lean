import Ircd.Lib.Reader
import Ircd.Crule.Grammar
import Ircd.Crule.Parse

/-!
# Reading a rule from left to right

The language that the parser of `Crule/Parse.lean` accepts needs no recursion: an operand or an
operator is due, the number of open parentheses is counted, and within a call the name and the
number of arguments are remembered. `paso` is that reader. `rompe`, `desborda` and `libertad` are
the places of a reading that matter: where a node that `crule_free` cannot free comes into the tree,
where an argument is stored behind its node, and where the reader takes what the grammar does not
have. `Tramo` and `Atasco` state what the parser does to the tree and to the blocks while it reads a
stretch of tokens, and `Tramo.trans` and `Tramo.atasco` compose them.
-/

namespace Ircd.Crule

open CString Reader

/-! ## The reader -/

/-- What is due: an operand at the start of an expression or after an operator, what follows an
operand, the parenthesis after a name, or what follows `n` arguments and, if `hay`, the words of one
more. -/
inductive Fase where
  | inicio | trasOr | trasAnd | trasNot | hecho
  | nombre (w : CStr)
  | argumentos (f : Funclistent) (n : Nat) (hay : Bool)
  | acabada
  deriving DecidableEq

/-- What is due and the number of open parentheses. -/
abbrev Estado := Fase × Nat

/-- An operand is due. An operator can stand there too: the operand before it is missing. -/
def pasoOperando (φ : Fase) (d : Nat) : Lexema → Option Estado
  | .palabra w => some (.nombre w, d)
  | .tok .crOpenparen => some (.inicio, d + 1)
  | .tok .crNot => some (.trasNot, d)
  | .tok .crAnd => if φ = .trasNot then none else some (.trasAnd, d)
  | .tok .crOr => if φ = .inicio ∨ φ = .trasOr then some (.trasOr, d) else none
  | .tok _ => none

/-- An operand is complete. -/
def pasoHecho (d : Nat) : Lexema → Option Estado
  | .tok .crAnd => some (.trasAnd, d)
  | .tok .crOr => some (.trasOr, d)
  | .tok .crCloseparen => if d = 0 then none else some (.hecho, d - 1)
  | .tok .crEnd => if d = 0 then some (.acabada, 0) else none
  | _ => none

/-- The arguments of a call of `f` are read; an empty one does not count. -/
def pasoArgumentos (f : Funclistent) (n : Nat) (hay : Bool) (d : Nat) : Lexema → Option Estado
  | .palabra _ => some (.argumentos f n true, d)
  | .tok .crComma => some (.argumentos f (n + hay.toNat) false, d)
  | .tok .crCloseparen =>
    if f.reqnumargs ≠ (n + hay.toNat : Nat) ∧ f.reqnumargs ≠ -1 then none else some (.hecho, d)
  | .tok _ => none

/-- One token is read. -/
def paso (e : Estado) (l : Lexema) : Option Estado :=
  match e.1 with
  | .hecho => pasoHecho e.2 l
  | .nombre w =>
    if l = .tok .crOpenparen then (busca w).map fun f ↦ (.argumentos f 0 false, e.2) else none
  | .argumentos f n hay => pasoArgumentos f n hay e.2 l
  | .acabada => none
  | φ => pasoOperando φ e.2 l

/-- Reading begins where an operand is due. -/
def comienzo : Estado :=
  (.inicio, 0)

/-- The first operand of an operator is missing: of `&&` and of `||` that begin an expression, or of
`&&` after `||`. -/
def sinIzquierdo (e : Estado) (l : Lexema) : Bool :=
  (e.1 = .inicio ∨ e.1 = .trasOr) ∧ l = .tok .crAnd ∨ e.1 = .inicio ∧ l = .tok .crOr

/-- An unknown token follows an operator. -/
def cortado (e : Estado) (l : Lexema) : Bool :=
  (e.1 = .trasOr ∨ e.1 = .trasAnd) ∧ l = .tok .crUnknown

/-- A node that `crule_free` cannot free comes into the tree. -/
def rompe (e : Estado) (l : Lexema) : Bool :=
  sinIzquierdo e l || cortado e l

/-- An argument is complete and has no room in the node. -/
def desborda (e : Estado) (l : Lexema) : Bool :=
  match e.1, l with
  | .argumentos _ n true, .tok t => CR_MAXARGS ≤ n ∧ t ≠ .crUnknown
  | _, _ => false

/-- An operator stands where an operand is due. -/
def sinOperando (e : Estado) (l : Lexema) : Bool :=
  (e.1 = .inicio ∨ e.1 = .trasOr ∨ e.1 = .trasAnd) ∧ (l = .tok .crAnd ∨ l = .tok .crOr)

/-- An argument has a second word. -/
def dosPalabras (e : Estado) (l : Lexema) : Bool :=
  match e.1, l with
  | .argumentos _ _ true, .palabra _ => true
  | _, _ => false

/-- An argument is empty, or nothing follows the last comma. -/
def argumentoVacio (e : Estado) (l : Lexema) : Bool :=
  match e.1, l with
  | .argumentos _ _ false, .tok .crComma => true
  | .argumentos _ n false, .tok .crCloseparen => 0 < n
  | _, _ => false

/-- The reader takes what the grammar does not have. -/
def libertad (e : Estado) (l : Lexema) : Bool :=
  sinOperando e l || dosPalabras e l || argumentoVacio e l

/-- An operand is due after the start of an expression or one of its operators. -/
def Fase.espera (φ : Fase) : Prop :=
  φ = .inicio ∨ φ = .trasOr ∨ φ = .trasAnd ∨ φ = .trasNot

theorem Fase.espera.paso {φ : Fase} (h : φ.espera) (d : Nat) (l : Lexema) :
    paso (φ, d) l = pasoOperando φ d l := by
  rcases h with rfl | rfl | rfl | rfl <;> rfl

/-- While an operand is due, no argument is stored. -/
theorem Fase.espera.desborda {φ : Fase} (h : φ.espera) (d : Nat) (l : Lexema) :
    desborda (φ, d) l = false := by
  rcases h with rfl | rfl | rfl | rfl <;> rfl

/-- No reading goes over an unknown token. -/
theorem paso_unknown (e : Estado) : paso e (.tok .crUnknown) = none := by
  obtain ⟨φ, d⟩ := e
  cases φ <;> rfl

/-- An unknown token after an operator leaves its node half done. -/
theorem rompe_unknown (e : Estado) :
    rompe e (.tok .crUnknown) = decide (e.1 = .trasOr ∨ e.1 = .trasAnd) := by
  simp [rompe, sinIzquierdo, cortado]

/-- No argument is stored when the scanner fails. -/
theorem desborda_unknown (e : Estado) : desborda e (.tok .crUnknown) = false := by
  obtain ⟨φ, d⟩ := e
  cases φ with
  | argumentos f n hay => cases hay <;> simp [desborda]
  | _ => rfl

/-- Only the operators of an expression can break it. -/
theorem rompe_eq_false {e : Estado} (hinicio : e.1 ≠ .inicio) (hor : e.1 ≠ .trasOr)
    (hand : e.1 ≠ .trasAnd) (a : Lexema) : rompe e a = false := by
  simp [rompe, sinIzquierdo, cortado, hinicio, hor, hand]

/-- Other tokens do not break an expression. -/
theorem rompe_tok {t : Token} (hand : t ≠ .crAnd) (hor : t ≠ .crOr) (hunknown : t ≠ .crUnknown)
    (e : Estado) : rompe e (.tok t) = false := by
  simp [rompe, sinIzquierdo, cortado, hand, hor, hunknown]

/-- A word does not break an expression. -/
theorem rompe_palabra (e : Estado) (w : CStr) : rompe e (.palabra w) = false := by
  simp [rompe, sinIzquierdo, cortado]

/-- No argument is stored at a word. -/
theorem desborda_palabra (e : Estado) (w : CStr) : desborda e (.palabra w) = false := by
  obtain ⟨φ, d⟩ := e
  cases φ with
  | argumentos f n hay => cases hay <;> rfl
  | _ => rfl

/-! ## What the tree holds -/

namespace Ptr

/-- The blocks of a tree, in the order of `crule_free`. -/
def bloques : Ptr → List Nat
  | .indef => []
  | .null => []
  | .not p arg0 => bloques arg0 ++ [p]
  | .andor p arg0 arg1 _ => bloques arg0 ++ bloques arg1 ++ [p]
  | .func p _ arg => arg.map Prod.fst ++ [p]

/-- `crule_free` goes wrong: it follows a field that was not initialised, or a null pointer as the
first operand of an operator. -/
def malo : Ptr → Bool
  | .indef => true
  | .null => false
  | .not _ arg0 => malo arg0
  | .andor _ arg0 arg1 _ => arg0 = .null || malo arg0 || malo arg1
  | .func _ _ _ => false

/-- Some function has more arguments than its node has room for. -/
def sobra : Ptr → Bool
  | .indef => false
  | .null => false
  | .not _ arg0 => sobra arg0
  | .andor _ arg0 arg1 _ => sobra arg0 || sobra arg1
  | .func _ _ arg => CR_MAXARGS < arg.length

end Ptr

/-- `crule_free` frees each block of a tree, unless it goes wrong. -/
theorem cruleFree_eq {t : Ptr} (ht : t ≠ .null) :
    cruleFree t = if t.malo then none else some t.bloques := by
  induction t with
  | indef => rfl
  | null => exact absurd rfl ht
  | not p arg0 ih =>
      by_cases h₀ : arg0 = .null
      · subst h₀
        rfl
      · rw [cruleFree, if_neg h₀, ih h₀, Ptr.malo, Ptr.bloques]
        cases arg0.malo <;> rfl
  | andor p arg0 arg1 arg2 ih₀ ih₁ =>
      by_cases h₀ : arg0 = .null
      · subst h₀
        rfl
      · rw [cruleFree, ih₀ h₀, Ptr.malo, Ptr.bloques, decide_eq_false h₀, Bool.false_or]
        cases arg0.malo with
        | true => rfl
        | false =>
            by_cases h₁ : arg1 = .null
            · subst h₁
              rfl
            · rw [if_neg h₁, ih₁ h₁]
              cases arg1.malo <;> rfl
  | func p f arg => rfl

/-- A place in a tree: the tree holds what the context holds and what stands in the place. -/
structure Contexto (c : Ptr → Ptr) : Prop where
  suma : ∃ (m s : Bool) (k : Nat → Nat), ∀ x, (c x).malo = (m || x.malo) ∧
    (c x).sobra = (s || x.sobra) ∧ ∀ a, (c x).bloques.count a = k a + x.bloques.count a

/-- The operand of the last `!`. -/
theorem contexto_cuelga (nots : List Nat) : Contexto (cuelga nots) := by
  induction nots with
  | nil => exact ⟨false, false, fun _ ↦ 0, fun x ↦ ⟨rfl, rfl, fun a ↦ (Nat.zero_add _).symm⟩⟩
  | cons p nots ih =>
      obtain ⟨m, s, k, h⟩ := ih.suma
      refine ⟨m, s, fun a ↦ k a + [p].count a, fun x ↦ ?_⟩
      obtain ⟨hm, hs, hk⟩ := h (.not p x)
      refine ⟨hm, hs, fun a ↦ (hk a).trans ?_⟩
      show k a + (x.bloques ++ [p]).count a = k a + [p].count a + x.bloques.count a
      rw [List.count_append]
      omega

/-- The second operand of the last operator, while nothing stands there. -/
theorem contexto_setArg1 (p : Nat) (arg0 : Ptr) (arg2 : Bool) :
    Contexto (Ptr.setArg1 (.andor p arg0 .indef arg2)) := by
  refine ⟨arg0 = .null || arg0.malo, arg0.sobra, fun a ↦ (arg0.bloques ++ [p]).count a,
    fun x ↦ ⟨rfl, rfl, fun a ↦ ?_⟩⟩
  show (arg0.bloques ++ x.bloques ++ [p]).count a = (arg0.bloques ++ [p]).count a + _
  rw [List.count_append, List.count_append, List.count_append]
  omega

/-! ## Tokens and the state of the parser -/

namespace Lector

/-- The tokens from the one ahead on. -/
def lexemas (l : Lector) : List Lexema :=
  lexemasDesde l.nextTok l.ruleptr

@[simp] theorem pedidos_malloc (l : Lector) : l.malloc.pedidos = l.nuevo :: l.pedidos := rfl

theorem gettoken_err (l : Lector) :
    l.gettoken.1 = .crNoerr ↔ l.gettoken.2.nextTok ≠ .crUnknown :=
  Crule.gettoken_err l.ruleptr

/-- The token ahead is known, and a word stands where one is announced. -/
structure Vale (l : Lector) : Prop where
  known : l.nextTok ≠ .crUnknown
  word : l.nextTok = .crWord → l.getword.1 ≠ []

theorem Vale.malloc {l : Lector} (h : l.Vale) : l.malloc.Vale :=
  ⟨h.known, h.word⟩

/-- The scanner succeeds or leaves an unknown token. -/
theorem gettoken_cases (l : Lector) :
    l.gettoken.1 = .crNoerr ∧ l.gettoken.2.Vale ∨
      l.gettoken.1 ≠ .crNoerr ∧ l.gettoken.2.nextTok = .crUnknown := by
  by_cases h : l.gettoken.2.nextTok = .crUnknown
  · exact .inr ⟨fun herr ↦ l.gettoken_err.mp herr h, h⟩
  · exact .inl ⟨l.gettoken_err.mpr h, h, leePalabra_ne_nil⟩

theorem lexemas_gettoken (l : Lector) : l.gettoken.2.lexemas = Crule.lexemas l.ruleptr :=
  (lexemas_eq l.ruleptr).symm

/-- A token that takes characters is followed by the next one. -/
theorem lexemas_tok {l : Lector} {t : Token} (h : l.nextTok = t) (ht : grafia t ≠ []) :
    l.lexemas = .tok t :: l.gettoken.2.lexemas := by
  have hword : t ≠ .crWord := by rintro rfl; exact ht rfl
  have hend : ¬(t = .crEnd ∨ t = .crUnknown) := by
    rintro (rfl | rfl)
    · exact ht rfl
    · exact ht rfl
  rw [lexemas, h, lexemasDesde, if_neg hword, if_neg hend, lexemas_gettoken]

theorem lexemas_word {l : Lector} (h : l.nextTok = .crWord) :
    l.lexemas = .palabra l.getword.1 :: l.getword.2.gettoken.2.lexemas := by
  rw [lexemas, h, lexemasDesde, if_pos rfl, lexemas_gettoken]
  rfl

theorem lexemas_unknown {l : Lector} (h : l.nextTok = .crUnknown) :
    l.lexemas = [.tok .crUnknown] := by
  rw [lexemas, h]
  rfl

/-- A token other than a word is at the head of what is read. -/
theorem exists_lexemas {l : Lector} (h : l.nextTok ≠ .crWord) :
    ∃ us, l.lexemas = .tok l.nextTok :: us := by
  rw [lexemas, lexemasDesde, if_neg h]
  split
  · exact ⟨[], rfl⟩
  · exact ⟨_, rfl⟩

/-- The token at the head of what is read is the one ahead. -/
theorem exists_lexemas_ne {l : Lector} {t : Token} (h : l.nextTok ≠ t) :
    ∃ a us, l.lexemas = a :: us ∧ a ≠ .tok t := by
  by_cases hword : l.nextTok = .crWord
  · exact ⟨_, _, lexemas_word hword, nofun⟩
  · obtain ⟨us, hus⟩ := exists_lexemas hword
    exact ⟨_, us, hus, fun heq ↦ h (Lexema.tok.inj heq)⟩

end Lector

/-! ## Stretches of a reading -/

/-- The blocks have been given out in order. -/
def Correlativos (pedidos : List Nat) : Prop :=
  pedidos = (List.range pedidos.length).reverse

theorem Correlativos.malloc {l : Lector} (h : Correlativos l.pedidos) :
    Correlativos l.malloc.pedidos := by
  show l.pedidos.length :: l.pedidos = (List.range (l.pedidos.length + 1)).reverse
  rw [List.range_succ, List.reverse_append, ← h]
  rfl

/-- What reading `us` from `e` on adds to the tree `r` and to the blocks of `l`. -/
structure Suma (e : Estado) (us : List Lexema) (r : Ptr) (l : Lector) (r' : Ptr)
    (l' : Lector) : Prop where
  malo : r'.malo = (r.malo || alguno paso rompe e us)
  sobra : r'.sobra = (r.sobra || alguno paso desborda e us)
  cuenta : ∀ a, r'.bloques.count a + l.pedidos.count a = r.bloques.count a + l'.pedidos.count a
  correlativos : Correlativos l.pedidos → Correlativos l'.pedidos

/-- From `e` with the tree `r` the parser reads `us` and is then in `e'` with the tree `r'`. -/
structure Tramo (e : Estado) (us : List Lexema) (r : Ptr) (l : Lector) (e' : Estado) (r' : Ptr)
    (l' : Lector) : Prop extends Suma e us r l r' l' where
  lexemas : l.lexemas = us ++ l'.lexemas
  lee : lee paso e us = some e'

/-- From `e` with the tree `r` the reading sticks, and the parser is left with the tree `r'`. -/
structure Atasco (e : Estado) (r : Ptr) (l : Lector) (r' : Ptr) (l' : Lector) : Prop
    extends Suma e l.lexemas r l r' l' where
  lee : lee paso e l.lexemas = none

section

variable {e e' e'' : Estado} {us vs : List Lexema} {r r' r'' : Ptr} {l l' l'' : Lector}

/-- Nothing is read. -/
theorem Tramo.nada (e : Estado) (r : Ptr) (l : Lector) : Tramo e [] r l e r l where
  malo := (Bool.or_false _).symm
  sobra := (Bool.or_false _).symm
  cuenta _ := rfl
  correlativos := id
  lexemas := rfl
  lee := rfl

theorem Tramo.trans (h : Tramo e us r l e' r' l') (h' : Tramo e' vs r' l' e'' r'' l'') :
    Tramo e (us ++ vs) r l e'' r'' l'' where
  malo := by rw [h'.malo, h.malo, alguno_append h.lee, Bool.or_assoc]
  sobra := by rw [h'.sobra, h.sobra, alguno_append h.lee, Bool.or_assoc]
  cuenta a := by
    have h₁ := h.cuenta a
    have h₂ := h'.cuenta a
    omega
  correlativos hl := h'.correlativos (h.correlativos hl)
  lexemas := by rw [h.lexemas, h'.lexemas, List.append_assoc]
  lee := by rw [lee_append, h.lee]; exact h'.lee

theorem Tramo.atasco (h : Tramo e us r l e' r' l') (h' : Atasco e' r' l' r'' l'') :
    Atasco e r l r'' l'' where
  malo := by rw [h'.malo, h.malo, h.lexemas, alguno_append h.lee, Bool.or_assoc]
  sobra := by rw [h'.sobra, h.sobra, h.lexemas, alguno_append h.lee, Bool.or_assoc]
  cuenta a := by
    have h₁ := h.cuenta a
    have h₂ := h'.cuenta a
    omega
  correlativos hl := h'.correlativos (h.correlativos hl)
  lee := by rw [h.lexemas, lee_append, h.lee]; exact h'.lee

/-- A place in a larger tree is filled. -/
theorem Suma.en {c : Ptr → Ptr} (hc : Contexto c) (h : Suma e us r l r' l') :
    Suma e us (c r) l (c r') l' := by
  obtain ⟨m, s, k, hsuma⟩ := hc.suma
  obtain ⟨hm, hs, hk⟩ := hsuma r
  obtain ⟨hm', hs', hk'⟩ := hsuma r'
  refine ⟨?_, ?_, fun a ↦ ?_, h.correlativos⟩
  · rw [hm, hm', h.malo, Bool.or_assoc]
  · rw [hs, hs', h.sobra, Bool.or_assoc]
  · rw [hk, hk']
    have := h.cuenta a
    omega

theorem Tramo.en {c : Ptr → Ptr} (hc : Contexto c) (h : Tramo e us r l e' r' l') :
    Tramo e us (c r) l e' (c r') l' :=
  ⟨h.toSuma.en hc, h.lexemas, h.lee⟩

theorem Atasco.en {c : Ptr → Ptr} (hc : Contexto c) (h : Atasco e r l r' l') :
    Atasco e (c r) l (c r') l' :=
  ⟨h.toSuma.en hc, h.lee⟩

/-- A node is allocated, which has no argument yet. -/
theorem Tramo.aloja (e : Estado) (l : Lector) :
    Tramo e [] .null l e (.func l.nuevo none []) l.malloc where
  malo := rfl
  sobra := rfl
  cuenta a := by
    show [l.nuevo].count a + l.pedidos.count a = 0 + (l.nuevo :: l.pedidos).count a
    rw [← List.count_append, Nat.zero_add]
    rfl
  correlativos := Correlativos.malloc
  lexemas := rfl
  lee := rfl

/-- The node of a `!` is allocated, whose operand is a null pointer. -/
theorem Tramo.negacion (e : Estado) (l : Lector) :
    Tramo e [] .null l e (.not l.nuevo .null) l.malloc where
  malo := rfl
  sobra := rfl
  cuenta a := by
    show [l.nuevo].count a + l.pedidos.count a = 0 + (l.nuevo :: l.pedidos).count a
    rw [← List.count_append, Nat.zero_add]
    rfl
  correlativos := Correlativos.malloc
  lexemas := rfl
  lee := rfl

section operador

variable {t : Token} {arg0 : Ptr} {arg2 : Bool}

/-- An operator is read and its node is allocated; its second operand is still missing. -/
theorem Tramo.nodo (ht : l.nextTok = t) (hgrafia : grafia t ≠ [])
    (hpaso : paso e (.tok t) = some e') (hrompe : rompe e (.tok t) = decide (arg0 = .null))
    (hdesborda : desborda e (.tok t) = false) :
    Tramo e [.tok t] arg0 l e' (.andor l.nuevo arg0 .null arg2) l.malloc.gettoken.2 where
  malo := by
    rw [alguno_uno, hrompe, Ptr.malo, Ptr.malo, Bool.or_false, Bool.or_comm]
  sobra := by
    rw [alguno_uno, hdesborda]
    rfl
  cuenta a := by
    show (arg0.bloques ++ [] ++ [l.nuevo]).count a + l.pedidos.count a =
      arg0.bloques.count a + (l.nuevo :: l.pedidos).count a
    rw [List.append_nil, List.count_append, Nat.add_assoc, ← List.count_append]
    rfl
  correlativos := Correlativos.malloc
  lexemas := Lector.lexemas_tok ht hgrafia
  lee := lee_cons hpaso

/-- The scanner fails after an operator, whose second operand is then not initialised. -/
theorem Atasco.nodo (ht : l.nextTok = t) (hgrafia : grafia t ≠ [])
    (hpaso : paso e (.tok t) = some e') (hphase : e'.1 = .trasOr ∨ e'.1 = .trasAnd)
    (hdesborda : desborda e (.tok t) = false) (h : l.gettoken.2.nextTok = .crUnknown) :
    Atasco e arg0 l (.andor l.nuevo arg0 .indef arg2) l.malloc.gettoken.2 := by
  have hlex : l.lexemas = [.tok t, .tok .crUnknown] := by
    rw [Lector.lexemas_tok ht hgrafia, Lector.lexemas_unknown h]
  refine ⟨⟨?_, ?_, fun a ↦ ?_, Correlativos.malloc⟩, ?_⟩
  · rw [hlex, alguno_cons hpaso, alguno_uno, rompe_unknown, decide_eq_true hphase, Bool.or_true,
      Bool.or_true]
    exact Bool.or_true _
  · rw [hlex, alguno_cons hpaso, alguno_uno, desborda_unknown, hdesborda]
    rfl
  · show (arg0.bloques ++ [] ++ [l.nuevo]).count a + l.pedidos.count a =
      arg0.bloques.count a + (l.nuevo :: l.pedidos).count a
    rw [List.append_nil, List.count_append, Nat.add_assoc, ← List.count_append]
    rfl
  · rw [hlex, lee_cons hpaso, lee_atascado (paso_unknown e')]

end operador

/-- One token is read and the tree stays as it is. -/
theorem Tramo.uno {a : Lexema} (hlex : l.lexemas = a :: l'.lexemas) (hpaso : paso e a = some e')
    (hrompe : rompe e a = false) (hdesborda : desborda e a = false)
    (hpedidos : l'.pedidos = l.pedidos) : Tramo e [a] r l e' r l' where
  malo := by rw [alguno_cons hpaso, hrompe, alguno_nil, Bool.or_false, Bool.or_false]
  sobra := by rw [alguno_cons hpaso, hdesborda, alguno_nil, Bool.or_false, Bool.or_false]
  cuenta _ := by rw [hpedidos]
  correlativos := by rw [hpedidos]; exact id
  lexemas := hlex
  lee := lee_cons hpaso

/-- The reading sticks at the next token and the tree stays as it is. -/
theorem Atasco.uno {a : Lexema} (hlex : l.lexemas = a :: us) (hpaso : paso e a = none)
    (hrompe : rompe e a = false) (hdesborda : desborda e a = false)
    (hpedidos : l'.pedidos = l.pedidos) : Atasco e r l r l' where
  malo := by rw [hlex, alguno_atascado hpaso, hrompe, Bool.or_false]
  sobra := by rw [hlex, alguno_atascado hpaso, hdesborda, Bool.or_false]
  cuenta _ := by rw [hpedidos]
  correlativos := by rw [hpedidos]; exact id
  lee := by rw [hlex, lee_atascado hpaso]

/-- The scanner fails, other than after an operator. -/
theorem Atasco.unknown (h : l.nextTok = .crUnknown) (hor : e.1 ≠ .trasOr) (hand : e.1 ≠ .trasAnd)
    (hpedidos : l'.pedidos = l.pedidos) : Atasco e r l r l' := by
  refine .uno (Lector.lexemas_unknown h) (paso_unknown e) ?_ (desborda_unknown e) hpedidos
  rw [rompe_unknown, decide_eq_false (not_or.mpr ⟨hor, hand⟩)]

end

end Ircd.Crule
