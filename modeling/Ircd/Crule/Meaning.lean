import Ircd.Collapse
import Ircd.Crule.Descenso

/-!
# What a connection rule means

An expression is written with blanks and parentheses as one likes, as long as `!` binds closer than
`&&` and `&&` closer than `||`: `Escribe`. `crule_parse` returns a tree for each such text and
`crule_eval` finds the value of the expression in it, whatever the conditions `connected`,
`directcon`, `via` and `directop` are, and in particular for those of the server: `cruleEval_expr`.
Words longer than `crule_getword` has room for are left out.
-/

namespace Ircd.Crule

open CString

/-! ## Expressions -/

/-- A connection rule. -/
inductive Expr where
  | connected (w : CStr)
  | directcon (w : CStr)
  | via (w v : CStr)
  | directop
  | not (e : Expr)
  | and (a b : Expr)
  | or (a b : Expr)

/-- The value of a rule when the conditions are what `prim` says. -/
def Expr.valor (prim : Funcion → List CStr → Bool) : Expr → Bool
  | .connected w => prim .connected [w]
  | .directcon w => prim .directcon [w]
  | .via w v => prim .via [w, v]
  | .directop => prim .directop []
  | .not e => !e.valor prim
  | .and a b => a.valor prim && b.valor prim
  | .or a b => a.valor prim || b.valor prim

/-- The name of a function in `crule_funclist`. -/
def Funcion.name : Funcion → CStr
  | .connected => ['c', 'o', 'n', 'n', 'e', 'c', 't', 'e', 'd']
  | .directcon => ['d', 'i', 'r', 'e', 'c', 't', 'c', 'o', 'n']
  | .via => ['v', 'i', 'a']
  | .directop => ['d', 'i', 'r', 'e', 'c', 't', 'o', 'p']

/-- Arguments with commas between them. -/
def comas : List CStr → List Lexema
  | [] => []
  | [w] => [.palabra w]
  | w :: v :: ws => .palabra w :: .tok .crComma :: comas (v :: ws)

/-- A call of `f` with the arguments `ws`. -/
def llama (f : Funcion) (ws : List CStr) : List Lexema :=
  .palabra f.name :: .tok .crOpenparen :: comas ws ++ [.tok .crCloseparen]

/-- The tokens write the expression where the grammar has the symbol. Operands of one operator are
grouped as one likes; any expression may stand in parentheses, and has to where it does not bind
close enough. -/
inductive Escribe : Simbolo → Expr → List Lexema → Prop
  | connected (w) : Escribe .function (.connected w) (llama .connected [w])
  | directcon (w) : Escribe .function (.directcon w) (llama .directcon [w])
  | via (w v) : Escribe .function (.via w v) (llama .via [w, v])
  | directop : Escribe .function .directop (llama .directop [])
  | function {e us} (h : Escribe .function e us) : Escribe .primary e us
  | not {e us} (h : Escribe .primary e us) : Escribe .primary (.not e) (.tok .crNot :: us)
  | paren {e us} (h : Escribe .orexpr e us) :
      Escribe .primary e (.tok .crOpenparen :: us ++ [.tok .crCloseparen])
  | primary {e us} (h : Escribe .primary e us) : Escribe .andexpr e us
  | and {a b us vs} (h : Escribe .andexpr a us) (h' : Escribe .andexpr b vs) :
      Escribe .andexpr (.and a b) (us ++ .tok .crAnd :: vs)
  | andexpr {e us} (h : Escribe .andexpr e us) : Escribe .orexpr e us
  | or {a b us vs} (h : Escribe .orexpr a us) (h' : Escribe .orexpr b vs) :
      Escribe .orexpr (.or a b) (us ++ .tok .crOr :: vs)

/-! ## The conditions of the server -/

/-- What the rule functions see of a client in the list `client`: whether it is a server or this
one, the memory at its name and at the name of the connection behind which it is. -/
structure Cliente where
  isServer : Bool
  isMe : Bool
  name : List Char
  fromName : List Char

/-- What they see of a client in `loc_clients`. -/
structure Local where
  isServer : Bool
  isAnOper : Bool
  name : List Char

/-- The lists that the rule functions go through; `loc_clients` up to `highest_fd`. -/
structure Red where
  client : List Cliente
  locClients : List (Option Local)

namespace Red

variable (red : Red)

/-- `crule_connected`. -/
def cruleConnected (crulearg : List CStr) : Bool :=
  red.client.any fun acptr ↦
    (acptr.isServer || acptr.isMe) && ircMatch (crulearg.getD 0 []) acptr.name

/-- `crule_directcon`. -/
def cruleDirectcon (crulearg : List CStr) : Bool :=
  red.locClients.any fun acptr ↦
    acptr.any fun acptr ↦ acptr.isServer && ircMatch (crulearg.getD 0 []) acptr.name

/-- `crule_via`. -/
def cruleVia (crulearg : List CStr) : Bool :=
  red.client.any fun acptr ↦
    (acptr.isServer || acptr.isMe) && ircMatch (crulearg.getD 1 []) acptr.name &&
      ircMatch (crulearg.getD 0 []) acptr.fromName

/-- `crule_directop`. -/
def cruleDirectop : Bool :=
  red.locClients.any fun acptr ↦ acptr.any fun acptr ↦ acptr.isAnOper

/-- What the functions of `crule_funclist` return. -/
def condicion : Funcion → List CStr → Bool
  | .connected, crulearg => red.cruleConnected crulearg
  | .directcon, crulearg => red.cruleDirectcon crulearg
  | .via, crulearg => red.cruleVia crulearg
  | .directop, _ => red.cruleDirectop

theorem getD_map_collapse (crulearg : List CStr) (i : Nat) :
    (crulearg.map collapse).getD i [] = collapse (crulearg.getD i []) := by
  rw [List.getD_eq_getElem?_getD, List.getD_eq_getElem?_getD, List.getElem?_map]
  cases crulearg[i]? <;> rfl

/-- The server does not tell a mask from the collapsed one. -/
theorem condicion_collapse (f : Funcion) (crulearg : List CStr) :
    red.condicion f (crulearg.map collapse) = red.condicion f crulearg := by
  cases f <;> simp only [condicion, cruleConnected, cruleDirectcon, cruleVia, getD_map_collapse,
    ircMatch_collapse]

end Red

/-- The value of an expression with collapsed masks is that of the expression, for the server. -/
theorem Expr.valor_collapse (red : Red) (e : Expr) :
    e.valor (fun f ws ↦ red.condicion f (ws.map collapse)) = e.valor red.condicion := by
  induction e with
  | connected w => exact red.condicion_collapse .connected [w]
  | directcon w => exact red.condicion_collapse .directcon [w]
  | via w v => exact red.condicion_collapse .via [w, v]
  | directop => rfl
  | not e ih => rw [valor, valor, ih]
  | and a b iha ihb => rw [valor, valor, iha, ihb]
  | or a b iha ihb => rw [valor, valor, iha, ihb]

/-! ## Tokens ahead -/

/-- All tokens are known and no word is empty. -/
def Sanos (us : List Lexema) : Prop :=
  ∀ a ∈ us, a ≠ .tok .crUnknown ∧ a ≠ .palabra []

theorem Sanos.tail {a : Lexema} {us : List Lexema} (h : Sanos (a :: us)) : Sanos us :=
  fun b hb ↦ h b (List.mem_cons_of_mem a hb)

namespace Lector

/-- Among known tokens the scanner succeeds. -/
theorem gettoken_sanos {l : Lector} (h : Sanos l.gettoken.2.lexemas) : l.gettoken.1 = .crNoerr := by
  rcases l.gettoken_cases with ⟨herr, -⟩ | ⟨-, hunknown⟩
  · exact herr
  · rw [lexemas_unknown hunknown] at h
    exact absurd rfl (h _ List.mem_cons_self).1

/-- The token at the head of what is read is ahead. -/
theorem nextTok_eq {l : Lector} {t : Token} {us : List Lexema} (h : l.lexemas = .tok t :: us) :
    l.nextTok = t := by
  by_cases hword : l.nextTok = .crWord
  · rw [lexemas_word hword] at h
    cases h
  · obtain ⟨vs, hvs⟩ := exists_lexemas hword
    exact Lexema.tok.inj (List.cons.inj (hvs.symm.trans h)).1

/-- The token at the head of what is read is ahead, and the next one is found. -/
theorem ahead_tok {l : Lector} {t : Token} {us : List Lexema} (h : l.lexemas = .tok t :: us)
    (ht : grafia t ≠ []) (hus : Sanos us) :
    l.nextTok = t ∧ l.gettoken.1 = .crNoerr ∧ l.gettoken.2.lexemas = us := by
  have htok := nextTok_eq h
  have hrest := (List.cons.inj ((lexemas_tok htok ht).symm.trans h)).2
  exact ⟨htok, gettoken_sanos (hrest ▸ hus), hrest⟩

/-- The same for a word. -/
theorem ahead_palabra {l : Lector} {w : CStr} {us : List Lexema} (h : l.lexemas = .palabra w :: us)
    (hus : Sanos us) : l.nextTok = .crWord ∧ l.getword.1 = w ∧
      l.getword.2.gettoken.1 = .crNoerr ∧ l.getword.2.gettoken.2.lexemas = us := by
  have hword : l.nextTok = .crWord := by
    by_contra hword
    obtain ⟨vs, hvs⟩ := exists_lexemas hword
    cases hvs.symm.trans h
  obtain ⟨hw, hrest⟩ := List.cons.inj ((lexemas_word hword).symm.trans h)
  exact ⟨hword, Lexema.palabra.inj hw, gettoken_sanos (hrest ▸ hus), hrest⟩

/-- A token that is not at the head of what is read is not ahead. -/
theorem nextTok_ne {l : Lector} {t : Token} (ht : grafia t ≠ [])
    (h : l.lexemas.head? ≠ some (.tok t)) : l.nextTok ≠ t := by
  intro htok
  rw [lexemas_tok htok ht] at h
  exact h rfl

end Lector

/-! ## Calls -/

theorem guarda_of_ne_nil {arg : List (Nat × CStr)} {w : CStr} {l : Lector} (hw : w ≠ []) :
    guarda arg w l = (arg ++ [(l.nuevo, collapse w)], l.malloc) :=
  if_pos (by rwa [ne_eq, collapse_eq_nil])

/-- Arguments with commas between them are stored one by one. -/
theorem parsearglist_comas (ws : List CStr) (n : Nat) (arg : List (Nat × CStr)) (arglen : Nat)
    (l : Lector) (vs : List Lexema) (hlex : l.lexemas = comas ws ++ .tok .crCloseparen :: vs)
    (hsanos : Sanos l.lexemas) (hn : l.lexemas.length < n) :
    ∃ arg' l', parsearglist n arg [] arglen l = some (.crNoerr, arg', l') ∧
      arg'.map Prod.snd = arg.map Prod.snd ++ ws.map collapse ∧
      l'.lexemas = .tok .crCloseparen :: vs := by
  induction ws generalizing n arg arglen l with
  | nil =>
      obtain ⟨n, rfl⟩ := Nat.exists_eq_add_one_of_ne_zero (Nat.ne_of_gt (Nat.zero_lt_of_lt hn))
      rw [comas, List.nil_append] at hlex
      have hsanos' : Sanos vs := (hlex ▸ hsanos).tail
      obtain ⟨htok, -, -⟩ := Lector.ahead_tok hlex (List.cons_ne_nil _ _) hsanos'
      rw [parsearglist_otro (by rw [htok]; exact nofun) (by rw [htok]; exact nofun)]
      exact ⟨arg, l, rfl, (List.append_nil _).symm, hlex⟩
  | cons w ws ih =>
      obtain ⟨n, rfl⟩ := Nat.exists_eq_add_one_of_ne_zero (Nat.ne_of_gt (Nat.zero_lt_of_lt hn))
      obtain ⟨us, hus⟩ : ∃ us, l.lexemas = .palabra w :: us := by
        cases ws <;> exact ⟨_, hlex⟩
      have hsanos' : Sanos us := (hus ▸ hsanos).tail
      have hw : w ≠ [] := by
        rintro rfl
        exact (hsanos _ (hus ▸ List.mem_cons_self)).2 rfl
      obtain ⟨hword, hgetword, herr, hrest⟩ := Lector.ahead_palabra hus hsanos'
      obtain ⟨l₁, hl₁⟩ : ∃ l₁, l₁ = l.getword.2.gettoken.2 := ⟨_, rfl⟩
      rw [parsearglist_word hword, if_pos herr, hgetword, ← hl₁]
      rw [← hl₁] at hrest
      rw [hus, List.length_cons] at hn
      show ∃ arg' l', parsearglist n arg w w.length l₁ = _ ∧ _ ∧ _
      obtain ⟨n, rfl⟩ := Nat.exists_eq_add_one_of_ne_zero (n := n) (by omega)
      cases ws with
      | nil =>
          obtain rfl : us = .tok .crCloseparen :: vs := (List.cons.inj (hus.symm.trans hlex)).2
          obtain ⟨htok, -, -⟩ := Lector.ahead_tok hrest (List.cons_ne_nil _ _) hsanos'.tail
          rw [parsearglist_otro (by rw [htok]; exact nofun) (by rw [htok]; exact nofun),
            guarda_of_ne_nil hw]
          exact ⟨_, _, rfl, List.map_append, hrest⟩
      | cons v ws =>
          obtain rfl : us = .tok .crComma :: (comas (v :: ws) ++ .tok .crCloseparen :: vs) :=
            (List.cons.inj (hus.symm.trans hlex)).2
          obtain ⟨htok, herr', hrest'⟩ := Lector.ahead_tok hrest (List.cons_ne_nil _ _) hsanos'.tail
          rw [parsearglist_comma htok, guarda_of_ne_nil hw]
          have hn' : l₁.malloc.gettoken.2.lexemas.length < n := by
            rw [List.length_cons] at hn
            show l₁.gettoken.2.lexemas.length < n
            rw [hrest']
            omega
          obtain ⟨arg', l', hparse, harg, hfin⟩ := ih n (arg ++ [(l₁.nuevo, collapse w)])
            w.length l₁.malloc.gettoken.2 hrest' (hrest'.symm ▸ hsanos'.tail) hn'
          refine ⟨arg', l', (if_pos herr').trans hparse, ?_, hfin⟩
          rw [harg, List.map_append, List.append_assoc]
          rfl

/-- `crule_parsefunction` on a call with the right number of arguments. -/
theorem parsefunction_llama {f : Funcion} {ws : List CStr}
    (hf : busca f.name = some ⟨f.name, ws.length, some f⟩) {n : Nat} {l : Lector}
    {vs : List Lexema} (hlex : l.lexemas = llama f ws ++ vs) (hsanos : Sanos l.lexemas)
    (hn : l.lexemas.length < n) :
    ∃ p arg l', parsefunction n l = some ⟨.crNoerr, .func p (some f) arg, l'⟩ ∧
      arg.map Prod.snd = ws.map collapse ∧ l'.lexemas = vs := by
  have hcons : llama f ws ++ vs = .palabra f.name :: .tok .crOpenparen :: (comas ws ++
      .tok .crCloseparen :: vs) := by
    rw [llama, List.cons_append, List.cons_append, List.cons_append, List.cons_append,
      List.append_assoc]
    rfl
  rw [hcons] at hlex
  have hsanos' := (hlex ▸ hsanos).tail
  obtain ⟨hword, hname, herr, hrest⟩ := Lector.ahead_palabra hlex hsanos'
  obtain ⟨l₁, hl₁⟩ : ∃ l₁, l₁ = l.getword.2.gettoken.2 := ⟨_, rfl⟩
  rw [← hl₁] at hrest
  obtain ⟨hopen, herr₁, hrest₁⟩ := Lector.ahead_tok hrest (List.cons_ne_nil _ _) hsanos'.tail
  have hn' : l₁.gettoken.2.malloc.lexemas.length < n := by
    rw [hlex, List.length_cons, List.length_cons] at hn
    show l₁.gettoken.2.lexemas.length < n
    rw [hrest₁]
    omega
  obtain ⟨arg, l₂, hparse, harg, hrest₂⟩ := parsearglist_comas ws n [] 0 l₁.gettoken.2.malloc vs
    hrest₁ (hrest₁.symm ▸ hsanos'.tail) hn'
  have hvs : Sanos vs := fun a ha ↦ hsanos'.tail a (List.mem_append_right _
    (List.mem_cons_of_mem _ ha))
  obtain ⟨hclose, herr₂, hrest₃⟩ := Lector.ahead_tok hrest₂ (List.cons_ne_nil _ _) hvs
  have hlength : arg.length = ws.length := by
    have h := congrArg List.length harg
    simpa using h
  refine ⟨l₁.gettoken.2.nuevo, arg, l₂.gettoken.2, ?_, harg, hrest₃⟩
  have hllamada : llamada n ⟨f.name, ws.length, some f⟩ l₁ =
      some ⟨.crNoerr, .func l₁.gettoken.2.nuevo (some f) arg, l₂.gettoken.2⟩ := by
    rw [llamada, if_neg (not_not.mpr herr₁), hparse, Option.map_some, if_neg (not_not.mpr rfl),
      cierraFuncion, if_neg (not_not.mpr hclose), if_neg (fun h ↦ h.1 (by rw [hlength])),
      if_neg (not_not.mpr herr₂)]
  rw [parsefunction, hname, ← hl₁]
  refine (if_neg (not_not.mpr herr)).trans ((if_pos hopen).trans ?_)
  rw [hf]
  exact hllamada

/-! ## Chains of operands -/

/-- The tree has the value of the expression, for masks that have been collapsed. -/
def Significa (t : Ptr) (e : Expr) : Prop :=
  t ≠ .null ∧ ∀ prim, cruleEval prim t = some (e.valor fun f ws ↦ prim f (ws.map collapse))

/-- The function reads the expression that `us` writes, where the grammar has `Y`, out of at most
`m` tokens. -/
def LeeExpr (Y : Simbolo) (operando : Lector → Option Salida) (m : Nat) (e : Expr)
    (us : List Lexema) : Prop :=
  ∀ l vs, l.lexemas = us ++ vs → Sanos l.lexemas → l.lexemas.length ≤ m →
    (∀ t, Y.sigue t → vs.head? ≠ some (.tok t)) →
    ∃ t l', operando l = some ⟨.crNoerr, t, l'⟩ ∧ l'.lexemas = vs ∧ Significa t e

/-- The tree that a loop has built when it is about to read an operand. -/
def Pendiente (arg2 : Bool) (root : Ptr) : Prop :=
  root = .null ∨ ∃ p arg0, root = .andor p arg0 .indef arg2

/-- Two operands with the operator whose nodes have `arg2`. -/
def Expr.junta (arg2 : Bool) (a b : Expr) : Expr :=
  if arg2 then .or a b else .and a b

/-- The operator on values. -/
def une (arg2 u v : Bool) : Bool :=
  if arg2 then u || v else u && v

theorem Expr.valor_junta (prim : Funcion → List CStr → Bool) (arg2 : Bool) (a b : Expr) :
    (Expr.junta arg2 a b).valor prim = une arg2 (a.valor prim) (b.valor prim) := by
  cases arg2 <;> rfl

theorem Pendiente.ne_null {arg2 : Bool} {root t : Ptr} (h : Pendiente arg2 root)
    (ht : t ≠ .null) : conOperando root t ≠ .null := by
  rcases h with rfl | ⟨p, arg0, rfl⟩
  · exact ht
  · exact nofun

/-- The value of the tree when the operand that is read next has the value `v`. -/
def conValor (prim : Funcion → List CStr → Bool) (arg2 : Bool) : Ptr → Bool → Option Bool
  | .andor _ arg0 _ _, v => (cruleEval prim arg0).map fun u ↦ une arg2 u v
  | _, v => some v

/-- The operand is read. -/
theorem Pendiente.cruleEval {arg2 : Bool} {root : Ptr} (h : Pendiente arg2 root)
    {prim : Funcion → List CStr → Bool} {x : Ptr} {v : Bool} (hx : cruleEval prim x = some v) :
    Crule.cruleEval prim (conOperando root x) = conValor prim arg2 root v := by
  rcases h with rfl | ⟨p, arg0, rfl⟩
  · exact hx
  · show Crule.cruleEval prim (.andor p arg0 x arg2) = (Crule.cruleEval prim arg0).map _
    cases harg0 : Crule.cruleEval prim arg0 with
    | none => rw [Crule.cruleEval, harg0]; rfl
    | some u =>
        rw [Crule.cruleEval, harg0, hx]
        cases arg2 <;> cases u <;> rfl

/-- An operand is joined to the tree as it is to the last operand of it. -/
theorem Pendiente.junta {arg2 : Bool} {root t : Ptr} (h : Pendiente arg2 root)
    {prim : Funcion → List CStr → Bool} {u : Bool} (p : Nat) (v : Bool)
    (ht : Crule.cruleEval prim t = conValor prim arg2 root u) :
    conValor prim arg2 (.andor p t .indef arg2) v = conValor prim arg2 root (une arg2 u v) := by
  show (Crule.cruleEval prim t).map _ = _
  rw [ht]
  rcases h with rfl | ⟨p, arg0, rfl⟩
  · rfl
  · show ((Crule.cruleEval prim arg0).map _).map _ = (Crule.cruleEval prim arg0).map _
    cases Crule.cruleEval prim arg0 with
    | none => rfl
    | some w =>
        cases arg2
        · exact congrArg some (Bool.and_assoc w u v)
        · exact congrArg some (Bool.or_assoc w u v)

/-- The loop over the operands that `us` writes, from any round on: it is left in the round that
reads the last one of them, with a tree that has the value of all. -/
def Encadena (Y : Simbolo) (operando : Lector → Option Salida) (op : Token) (arg2 : Bool)
    (falta : Errcode) (m : Nat) (e : Expr) (us : List Lexema) : Prop :=
  ∀ n root l vs, l.lexemas = us ++ vs → Sanos l.lexemas → l.lexemas.length ≤ m →
    l.lexemas.length ≤ n → (∀ t, Y.sigue t → vs.head? ≠ some (.tok t)) → Pendiente arg2 root →
    ∃ n' root' t l', vs.length ≤ n' ∧ operandos operando op arg2 falta (n + 1) root l =
        trasOperando (operandos operando op arg2 falta n') op arg2 falta root' ⟨.crNoerr, t, l'⟩ ∧
      l'.lexemas = vs ∧ t ≠ .null ∧ Pendiente arg2 root' ∧
      ∀ prim, cruleEval prim (conOperando root' t) =
        conValor prim arg2 root (e.valor fun f ws ↦ prim f (ws.map collapse))

section

variable {Y X : Simbolo} {operando : Lector → Option Salida} {op : Token} {arg2 : Bool}
  {falta : Errcode} {m : Nat} {e a b : Expr} {us vs : List Lexema}

/-- One operand. -/
theorem LeeExpr.encadena (h : LeeExpr Y operando m e us) :
    Encadena Y operando op arg2 falta m e us := by
  intro n root l vs hlex hsanos hm hn hvs hroot
  obtain ⟨t, l', hlee, hlex', ht, heval⟩ := h l vs hlex hsanos hm hvs
  refine ⟨n, root, t, l', ?_, by rw [operandos, hlee, Option.bind_some], hlex', ht, hroot,
    fun prim ↦ hroot.cruleEval (heval prim)⟩
  rw [hlex, List.length_append] at hn
  exact Nat.le_trans (Nat.le_add_left _ _) hn

/-- The operands before an operator and those after it. -/
theorem Encadena.junta (hgrafia : grafia op ≠ []) (hY : ¬Y.sigue op)
    (ha : Encadena Y operando op arg2 falta m a us)
    (hb : Encadena Y operando op arg2 falta m b vs) :
    Encadena Y operando op arg2 falta m (.junta arg2 a b) (us ++ .tok op :: vs) := by
  intro n root l rs hlex hsanos hm hn hrs hroot
  rw [List.append_assoc, List.cons_append] at hlex
  have hop (t) (ht : Y.sigue t) : (Lexema.tok op :: (vs ++ rs)).head? ≠ some (.tok t) := by
    rintro heq
    obtain rfl := Lexema.tok.inj (Option.some.inj heq)
    exact hY ht
  obtain ⟨n₁, root₁, t₁, l₁, hn₁, hlee₁, hlex₁, ht₁, hroot₁, heval₁⟩ :=
    ha n root l _ hlex hsanos hm hn hop hroot
  have hsanos₁ : Sanos l₁.lexemas := fun c hc ↦ hsanos c (by
    rw [hlex]
    exact List.mem_append_right _ (hlex₁ ▸ hc))
  obtain ⟨htok, herr, hlex'⟩ := Lector.ahead_tok hlex₁ hgrafia (hlex₁ ▸ hsanos₁).tail
  obtain ⟨n₁, rfl⟩ := Nat.exists_eq_add_one_of_ne_zero (Nat.ne_of_gt
    (Nat.lt_of_lt_of_le (Nat.succ_pos _) hn₁))
  obtain ⟨r, hr⟩ : ∃ r, r = Ptr.andor l₁.nuevo (conOperando root₁ t₁) .indef arg2 := ⟨_, rfl⟩
  have hlength : l₁.malloc.gettoken.2.lexemas.length ≤ n₁ := by
    rw [List.length_cons] at hn₁
    show l₁.gettoken.2.lexemas.length ≤ n₁
    rw [hlex']
    exact Nat.le_of_succ_le_succ hn₁
  have hlength' : l₁.malloc.gettoken.2.lexemas.length ≤ m := by
    rw [hlex, List.length_append, List.length_cons] at hm
    show l₁.gettoken.2.lexemas.length ≤ m
    rw [hlex']
    omega
  obtain ⟨n', root', t, l', hn', hlee, hlex'', ht, hroot', heval⟩ :=
    hb n₁ r l₁.malloc.gettoken.2 rs hlex' (hlex'.symm ▸ (hlex₁ ▸ hsanos₁).tail) hlength' hlength hrs
      (.inr ⟨_, _, hr⟩)
  refine ⟨n', root', t, l', hn', ?_, hlex'', ht, hroot', fun prim ↦ ?_⟩
  · rw [hlee₁, ← hlee, trasOperando, if_pos ⟨rfl, htok⟩, hr]
    exact if_neg (not_not.mpr herr)
  · rw [heval prim, hr, hroot.junta l₁.nuevo _ (heval₁ prim), Expr.valor_junta]

/-- The loop from its start. -/
theorem Encadena.lee (hgrafia : grafia op ≠ []) (hX : ∀ t, X.sigue t ↔ t = op ∨ Y.sigue t) {n : Nat}
    (hn : m ≤ n) (h : Encadena Y operando op arg2 falta m e us) :
    LeeExpr X (operandos operando op arg2 falta (n + 1) .null) m e us := by
  intro l vs hlex hsanos hm hvs
  obtain ⟨n', root, t, l', -, hlee, hlex', ht, hroot, heval⟩ := h n .null l vs hlex hsanos hm
    (Nat.le_trans hm hn) (fun t ht ↦ hvs t ((hX t).mpr (.inr ht))) (.inl rfl)
  have htok : l'.nextTok ≠ op := Lector.nextTok_ne hgrafia (hlex' ▸ hvs op ((hX op).mpr (.inl rfl)))
  refine ⟨conOperando root t, l', ?_, hlex', hroot.ne_null ht, heval⟩
  rw [hlee, trasOperando, if_neg fun h ↦ htok h.2, conOperando]
  by_cases hnull : root = .null
  · rw [if_neg (not_not.mpr hnull), if_neg (not_not.mpr hnull)]
  · rw [if_pos hnull, if_pos hnull, if_pos ht]

end

/-! ## The parser on what is written -/

/-- What the function for the symbol does on the tokens that write the expression. -/
def Corre : Simbolo → Expr → List Lexema → Prop
  | .function, e, us => ∀ n l vs, l.lexemas = us ++ vs → Sanos l.lexemas → l.lexemas.length < n →
    l.nextTok = .crWord ∧
      ∃ t l', parsefunction n l = some ⟨.crNoerr, t, l'⟩ ∧ l'.lexemas = vs ∧ Significa t e
  | .primary, e, us => ∀ n nots l vs, l.lexemas = us ++ vs → Sanos l.lexemas →
    3 * l.lexemas.length + 1 ≤ n → ∃ t l',
      parseprimary n nots l = some ⟨.crNoerr, cuelga nots t, l'⟩ ∧ l'.lexemas = vs ∧ Significa t e
  | .andexpr, e, us => ∀ n m, 3 * m + 1 ≤ n →
    Encadena .primary (parseprimary n []) .crAnd false .crExpctprim m e us
  | .orexpr, e, us => ∀ n m, 3 * m + 2 ≤ n →
    Encadena .andexpr (parseandexpr n) .crOr true .crExpctand m e us
  | .arglist, _, _ => True

theorem corre_llama {f : Funcion} {ws : List CStr} {e : Expr}
    (hf : busca f.name = some ⟨f.name, ws.length, some f⟩)
    (he : ∀ prim, e.valor prim = prim f ws) : Corre .function e (llama f ws) := by
  intro n l vs hlex hsanos hn
  obtain ⟨p, arg, l', hparse, harg, hlex'⟩ := parsefunction_llama hf hlex hsanos hn
  refine ⟨(Lector.ahead_palabra hlex (hlex ▸ hsanos).tail).1, _, l', hparse, hlex', nofun,
    fun prim ↦ ?_⟩
  rw [cruleEval, harg, he]
  rfl

/-- `crule_parseandexpr` from its loop. -/
theorem Corre.andexpr {e : Expr} {us : List Lexema} (h : Corre .andexpr e us) {n m : Nat}
    (hn : 3 * m + 2 ≤ n) : LeeExpr .andexpr (parseandexpr n) m e us := by
  obtain ⟨n, rfl⟩ : ∃ k, n = k + 2 := ⟨n - 2, by omega⟩
  have hlee : LeeExpr .andexpr
      (operandos (parseprimary (n + 1) []) .crAnd false .crExpctprim (n + 1) .null) m e us :=
    (h (n + 1) m (by omega)).lee (show grafia .crAnd ≠ [] from List.cons_ne_nil _ _)
      (by simp [Simbolo.sigue]) (by omega)
  intro l vs hlex hsanos hm hvs
  rw [parseandexpr]
  exact hlee l vs hlex hsanos hm hvs

/-- `crule_parseorexpr` from its loop. -/
theorem Corre.orexpr {e : Expr} {us : List Lexema} (h : Corre .orexpr e us) {n m : Nat}
    (hn : 3 * m + 3 ≤ n) : LeeExpr .orexpr (parseorexpr n) m e us := by
  obtain ⟨n, rfl⟩ : ∃ k, n = k + 2 := ⟨n - 2, by omega⟩
  have hlee : LeeExpr .orexpr
      (operandos (parseandexpr (n + 1)) .crOr true .crExpctand (n + 1) .null) m e us :=
    (h (n + 1) m (by omega)).lee (show grafia .crOr ≠ [] from List.cons_ne_nil _ _)
      (by simp [Simbolo.sigue]) (by omega)
  intro l vs hlex hsanos hm hvs
  rw [parseorexpr]
  exact hlee l vs hlex hsanos hm hvs

/-- `!` before an operand. -/
theorem Corre.not {e : Expr} {us : List Lexema} (h : Corre .primary e us) :
    Corre .primary (.not e) (.tok .crNot :: us) := by
  intro n nots l vs hlex hsanos hn
  obtain ⟨n, rfl⟩ : ∃ k, n = k + 1 := ⟨n - 1, by omega⟩
  rw [List.cons_append] at hlex
  obtain ⟨htok, herr, hrest⟩ := Lector.ahead_tok hlex (List.cons_ne_nil _ _) (hlex ▸ hsanos).tail
  have hn' : 3 * l.malloc.gettoken.2.lexemas.length + 1 ≤ n := by
    rw [hlex, List.length_cons] at hn
    show 3 * l.gettoken.2.lexemas.length + 1 ≤ n
    rw [hrest]
    omega
  obtain ⟨t, l', hparse, hlex', ht, heval⟩ := h n (l.nuevo :: nots) l.malloc.gettoken.2 vs hrest
    (hrest.symm ▸ (hlex ▸ hsanos).tail) hn'
  refine ⟨.not l.nuevo t, l', ?_, hlex', nofun, fun prim ↦ ?_⟩
  · rw [parseprimary, htok]
    exact (if_neg (not_not.mpr herr)).trans hparse
  · rw [cruleEval, heval]
    rfl

/-- Parentheses around an expression. -/
theorem Corre.paren {e : Expr} {us : List Lexema} (h : Corre .orexpr e us) :
    Corre .primary e (.tok .crOpenparen :: us ++ [.tok .crCloseparen]) := by
  intro n nots l vs hlex hsanos hn
  obtain ⟨n, rfl⟩ : ∃ k, n = k + 1 := ⟨n - 1, by omega⟩
  rw [List.append_assoc, List.cons_append] at hlex
  have hsanos' := (hlex ▸ hsanos).tail
  obtain ⟨htok, herr, hrest⟩ := Lector.ahead_tok hlex (List.cons_ne_nil _ _) hsanos'
  have hn' : 3 * l.gettoken.2.lexemas.length + 3 ≤ n := by
    rw [hlex, List.length_cons] at hn
    rw [hrest]
    omega
  obtain ⟨t, l', hparse, hlex', ht⟩ := h.orexpr hn' l.gettoken.2 _ hrest (hrest.symm ▸ hsanos')
    (Nat.le_refl _) (by rintro t (rfl | rfl) <;> exact nofun)
  have hvs : Sanos vs := fun a ha ↦ hsanos' a (List.mem_append_right _ (List.mem_cons_of_mem _ ha))
  obtain ⟨hclose, herr', hrest'⟩ := Lector.ahead_tok hlex' (List.cons_ne_nil _ _) hvs
  refine ⟨t, l'.gettoken.2, ?_, hrest', ht⟩
  rw [parseprimary, htok]
  refine (if_neg (not_not.mpr herr)).trans ?_
  rw [hparse, Option.map_some, cierraGrupo, if_neg (not_not.mpr rfl), if_neg ht.1,
    if_neg (not_not.mpr hclose), herr']

/-- The parser reads what is written, by induction on how it is written. -/
theorem Escribe.corre {X : Simbolo} {e : Expr} {us : List Lexema} (h : Escribe X e us) :
    Corre X e us := by
  induction h with
  | connected w => exact corre_llama rfl fun prim ↦ rfl
  | directcon w => exact corre_llama rfl fun prim ↦ rfl
  | via w v => exact corre_llama rfl fun prim ↦ rfl
  | directop => exact corre_llama rfl fun prim ↦ rfl
  | function h ih =>
      intro n nots l vs hlex hsanos hn
      obtain ⟨n, rfl⟩ : ∃ k, n = k + 1 := ⟨n - 1, by omega⟩
      have hpos : l.lexemas.length ≠ 0 := by
        rw [Lector.lexemas, ne_eq, List.length_eq_zero_iff, lexemasDesde]
        split
        · exact List.cons_ne_nil _ _
        · split <;> exact List.cons_ne_nil _ _
      obtain ⟨hword, t, l', hparse, hlex', ht⟩ := ih n l vs hlex hsanos (by omega)
      refine ⟨t, l', ?_, hlex', ht⟩
      rw [parseprimary, hword]
      show (parsefunction n l).map _ = _
      rw [hparse, Option.map_some]
  | not h ih => exact ih.not
  | paren h ih => exact ih.paren
  | primary h ih =>
      exact fun n m hn ↦ LeeExpr.encadena fun l vs hlex hsanos hm _ ↦
        ih n [] l vs hlex hsanos (by omega)
  | and h h' ih ih' =>
      exact fun n m hn ↦ (ih n m hn).junta (List.cons_ne_nil _ _) id (ih' n m hn)
  | andexpr h ih => exact fun n m hn ↦ (ih.andexpr hn).encadena
  | or h h' ih ih' =>
      refine fun n m hn ↦ (ih n m hn).junta (List.cons_ne_nil _ _) (fun hor ↦ ?_) (ih' n m hn)
      cases hor

/-! ## The rule -/

theorem Escrito.sanos {us : List Lexema} {r : CStr} (h : Escrito us r) : Sanos us := by
  induction h with
  | fin | dosPuntos r => exact nofun
  | blanco hc h ih => exact ih
  | @tok t us r ht h ih =>
      intro a ha
      rcases List.mem_cons.mp ha with rfl | ha
      · refine ⟨?_, nofun⟩
        rintro heq
        rw [Lexema.tok.inj heq] at ht
        exact ht rfl
      · exact ih a ha
  | @palabra w us r hw hr h ih =>
      intro a ha
      rcases List.mem_cons.mp ha with rfl | ha
      · refine ⟨nofun, ?_⟩
        rintro heq
        obtain ⟨-, c, u, hcons, -⟩ := hw
        rw [Lexema.palabra.inj heq] at hcons
        cases hcons
      · exact ih a ha

/-- `crule_parse` returns a tree for a text that writes an expression, and `crule_eval` finds the
value of the expression in it. -/
theorem cruleEval_expr {e : Expr} {us : List Lexema} {rule : CStr} (he : Escribe .orexpr e us)
    (hrule : Escrito us rule) (hcaben : Caben us) :
    ∃ a, cruleParse rule = some a ∧ a.valor ≠ .null ∧
      (∀ prim, cruleEval prim a.valor = some (e.valor fun f ws ↦ prim f (ws.map collapse))) ∧
      ∀ red : Red, cruleEval red.condicion a.valor = some (e.valor red.condicion) := by
  obtain ⟨hlex, -⟩ := hrule.lexemas hcaben
  have hlength := length_lexemas rule
  rw [lexemas_inicial] at hlex hlength
  obtain ⟨l, hl⟩ : ∃ l, l = (inicial rule).gettoken.2 := ⟨_, rfl⟩
  rw [← hl] at hlex hlength
  have hsanos : Sanos l.lexemas := by
    rw [hlex]
    intro a ha
    rcases List.mem_append.mp ha with ha | ha
    · exact hrule.sanos a ha
    · obtain rfl := List.mem_singleton.mp ha
      exact ⟨nofun, nofun⟩
  have herr := Lector.gettoken_sanos (hl ▸ hsanos)
  obtain ⟨t, l', hparse, hlex', ht, heval⟩ := he.corre.orexpr (n := 3 * (rule.length + 2))
    (m := l.lexemas.length) (by omega) l _ hlex hsanos (Nat.le_refl _)
    (by rintro t (rfl | rfl) <;> exact nofun)
  have hend : l'.nextTok = .crEnd := Lector.nextTok_eq hlex'
  refine ⟨concluye ⟨.crNoerr, t, l'⟩, ?_, ?_⟩
  · exact (if_neg (not_not.mpr herr)).trans (by rw [← hl, hparse, Option.map_some])
  · rw [concluye, if_neg (not_not.mpr rfl), if_neg ht, if_neg (not_not.mpr hend)]
    exact ⟨ht, heval, fun red ↦ (heval _).trans (congrArg some (e.valor_collapse red))⟩

/-- A call as it is written without blanks. -/
theorem escrito_llama (f : Funcion) {w : CStr} (hw : Palabra w) :
    Escrito (llama f [w]) (f.name ++ '(' :: (w ++ [')'])) := by
  have hfin : Escrito [.tok .crCloseparen] [')'] := .tok (List.cons_ne_nil _ _) .fin
  have harg : Escrito (.palabra w :: [.tok .crCloseparen]) (w ++ [')']) :=
    .palabra hw (fun c u hc hde ↦ by cases hc; cases hde) hfin
  have hopen : Escrito (.tok .crOpenparen :: .palabra w :: [.tok .crCloseparen])
      ('(' :: (w ++ [')'])) := .tok (List.cons_ne_nil _ _) harg
  refine .palabra ⟨?_, ?_⟩ (fun c u hc hde ↦ by cases hc; cases hde) hopen
  · cases f <;> rfl
  · cases f <;> exact ⟨_, _, rfl, rfl, nofun⟩

theorem caben_llama (f : Funcion) {w : CStr} (hw : w.length ≤ CR_MAXARGLEN - 1) :
    Caben (llama f [w]) := by
  intro v hv
  obtain rfl | rfl : v = f.name ∨ v = w := by simpa [llama, comas] using hv
  · cases f <;> decide
  · exact hw

/-- `!connected(*.es)` holds when no server of that domain is connected. -/
theorem cruleEval_expr_es :
    ∃ a, cruleParse ('!' :: (Funcion.connected.name ++ '(' :: (['*', '.', 'e', 's'] ++ [')']))) =
        some a ∧ a.valor ≠ .null ∧
      (∀ prim, cruleEval prim a.valor = some (!prim .connected [['*', '.', 'e', 's']])) ∧
      ∀ red : Red, cruleEval red.condicion a.valor =
        some (!red.condicion .connected [['*', '.', 'e', 's']]) :=
  have hw : Palabra ['*', '.', 'e', 's'] := ⟨rfl, _, _, rfl, rfl, nofun⟩
  cruleEval_expr (e := .not (.connected ['*', '.', 'e', 's']))
    (.andexpr (.primary (.not (.function (.connected _)))))
    (.tok (t := .crNot) (List.cons_ne_nil _ _) (escrito_llama .connected hw))
    fun v hv ↦ caben_llama .connected (w := ['*', '.', 'e', 's']) (by decide) v
      ((List.mem_cons.mp hv).resolve_left nofun)

/-- A word of 80 characters is cut, and `connected(**)` asks for `connected(*)`. -/
theorem not_cruleEval_expr :
    (¬∀ e us rule, Escribe .orexpr e us → Escrito us rule →
      ∃ a, cruleParse rule = some a ∧ a.valor ≠ .null) ∧
    ¬∀ e us rule, Escribe .orexpr e us → Escrito us rule → Caben us →
      ∃ a, cruleParse rule = some a ∧
        ∀ prim, cruleEval prim a.valor = some (e.valor prim) := by
  constructor
  · intro h
    have hw : Palabra (List.replicate 79 'a' ++ ['1']) := ⟨rfl, _, _, rfl, rfl, nofun⟩
    obtain ⟨a, ha, hvalor⟩ := h _ _ _ (.andexpr (.primary (.function (.connected _))))
      (escrito_llama .connected hw)
    have hnull : (cruleParse (Funcion.connected.name ++ '(' ::
        (List.replicate 79 'a' ++ ['1'] ++ [')']))).map Analisis.valor = some .null := by
      decide +kernel
    rw [ha] at hnull
    exact hvalor (Option.some.inj hnull)
  · intro h
    have hw : Palabra ['*', '*'] := ⟨rfl, _, _, rfl, rfl, nofun⟩
    obtain ⟨a, ha, heval⟩ := h _ _ _ (.andexpr (.primary (.function (.connected _))))
      (escrito_llama .connected hw) (caben_llama .connected (by decide))
    have hprim : (cruleParse (Funcion.connected.name ++ '(' :: (['*', '*'] ++ [')']))).map
        (fun a ↦ cruleEval (fun _ ws ↦ ws = [['*', '*']]) a.valor) = some (some false) := by
      decide +kernel
    rw [ha, Option.map_some, heval] at hprim
    exact absurd hprim (by decide)

end Ircd.Crule
