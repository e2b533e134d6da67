import Ircd.Crule.Lectura

/-!
# The parser reads from left to right

Each function of the recursive descent reads the stretch of tokens that the reader of
`Crule/Lectura.lean` goes over, from a state in which an operand is due to one in which it is
complete, and fails where that reader sticks: `parsearglist_spec`, `parsefunction_spec`,
`operandos_spec`, `descenso`. The main result is `cruleParse_spec`, which says of every rule what
`crule_parse` has built, stored and allocated.
-/

namespace Ircd.Crule

open CString Reader

/-! ## Functions and their arguments -/

theorem collapseFrom_true_ne_nil (m : CStr) : collapseFrom true m ≠ [] := by
  induction m with
  | nil => exact List.cons_ne_nil _ _
  | cons c m ih =>
      unfold collapseFrom
      split
      · exact List.cons_ne_nil _ _
      · next heq => cases heq; exact ih
      · exact List.cons_ne_nil _ _
      · split
        · exact List.cons_ne_nil _ _
        · exact List.cons_ne_nil _ _
      · exact List.cons_ne_nil _ _

/-- A mask is not empty when it is collapsed, unless it was. -/
theorem collapse_eq_nil {m : CStr} : collapse m = [] ↔ m = [] := by
  constructor
  · intro h
    unfold collapse at h
    split at h
    · rfl
    · split at h
      · exact absurd h (collapseFrom_true_ne_nil _)
      · cases h
    · split at h
      · cases h
      · cases h
    · cases h
  · rintro rfl
    rfl

/-- The state of the reader among the arguments `arg`, in the middle of `currarg`. -/
def enArgumentos (f : Funclistent) (d : Nat) (arg : List (Nat × CStr)) (currarg : CStr) : Estado :=
  (.argumentos f arg.length (currarg ≠ []), d)

theorem length_guarda (arg : List (Nat × CStr)) (currarg : CStr) (l : Lector) :
    (guarda arg currarg l).1.length = arg.length + (decide (currarg ≠ [])).toNat := by
  by_cases h : currarg = []
  · rw [guarda, if_neg (by rwa [not_not, collapse_eq_nil]), h]
    rfl
  · rw [guarda, if_pos (by rwa [ne_eq, collapse_eq_nil]), decide_eq_true h, List.length_append]
    rfl

theorem lexemas_guarda (arg : List (Nat × CStr)) (currarg : CStr) (l : Lector) :
    (guarda arg currarg l).2.nextTok = l.nextTok ∧
      (guarda arg currarg l).2.ruleptr = l.ruleptr := by
  rw [guarda]
  split
  · exact ⟨rfl, rfl⟩
  · exact ⟨rfl, rfl⟩

/-- The argument that the token `t` completes is stored. -/
theorem suma_guarda {f : Funclistent} {d p : Nat} {arg : List (Nat × CStr)} {currarg : CStr}
    {l l' : Lector} {t : Token} {us : List Lexema} (ht : t ≠ .crUnknown)
    (hpedidos : l'.pedidos = (guarda arg currarg l).2.pedidos)
    (hus : ∀ q, alguno paso q (enArgumentos f d arg currarg) us =
      q (enArgumentos f d arg currarg) (.tok t)) :
    Suma (enArgumentos f d arg currarg) us (.func p none arg) l
      (.func p none (guarda arg currarg l).1) l' where
  malo := by
    rw [hus]
    rfl
  sobra := by
    rw [hus, Ptr.sobra, Ptr.sobra, length_guarda]
    rw [Bool.eq_iff_iff]
    by_cases h : currarg = []
    · simp [enArgumentos, desborda, h]
    · simp [enArgumentos, desborda, h, ht]
      omega
  cuenta a := by
    rw [hpedidos, guarda]
    split
    · simp only [Ptr.bloques, List.map_append, List.map_cons, List.map_nil, List.count_append,
        Lector.pedidos_malloc, List.count_cons, List.count_nil]
      omega
    · rfl
  correlativos := by
    rw [hpedidos, guarda]
    split
    · exact Correlativos.malloc
    · exact id

theorem agrega_ne_nil {word : CStr} (hword : word ≠ []) (currarg : CStr) (arglen : Nat) :
    (agrega currarg arglen word).1 ≠ [] := by
  rw [agrega]
  split
  · next h =>
      split
      · exact List.append_ne_nil_of_left_ne_nil h _
      · exact h
  · exact hword

/-- What the arguments are that have been read as `us`, in the middle of `currarg`. -/
def SonArgumentos (currarg : CStr) (us : List Lexema) : Prop :=
  us = [] ∨ (currarg = [] ∧ Deriva .arglist us) ∨
    (currarg ≠ [] ∧ ∃ vs, us = .tok .crComma :: vs ∧ Deriva .arglist vs)

/-- `crule_parsearglist` has read the arguments up to a token that it leaves, or has failed. -/
def LeeArgumentos (f : Funclistent) (d p : Nat) (arg : List (Nat × CStr)) (currarg : CStr)
    (l : Lector) (a : Errcode × List (Nat × CStr) × Lector) : Prop :=
  (∃ us arg' currarg' l', a = (.crNoerr, guarda arg' currarg' l') ∧
    l'.nextTok ≠ .crWord ∧ l'.nextTok ≠ .crComma ∧ l'.Vale ∧
    Tramo (enArgumentos f d arg currarg) us (.func p none arg) l (enArgumentos f d arg' currarg')
      (.func p none arg') l' ∧
    (alguno paso libertad (enArgumentos f d arg currarg) us = false → currarg' ≠ [] ∨ arg' = [] →
      SonArgumentos currarg us)) ∨
  a.1 ≠ .crNoerr ∧
    Atasco (enArgumentos f d arg currarg) (.func p none arg) l (.func p none a.2.1) a.2.2

/-- One more stretch before the arguments. -/
theorem LeeArgumentos.tras {f : Funclistent} {d p : Nat} {arg arg₁ : List (Nat × CStr)}
    {currarg currarg₁ : CStr} {l l₁ : Lector} {b : Lexema}
    {a : Errcode × List (Nat × CStr) × Lector}
    (h : Tramo (enArgumentos f d arg currarg) [b] (.func p none arg) l
      (enArgumentos f d arg₁ currarg₁) (.func p none arg₁) l₁)
    (h' : LeeArgumentos f d p arg₁ currarg₁ l₁ a)
    (hson : libertad (enArgumentos f d arg currarg) b = false → ∀ us, SonArgumentos currarg₁ us →
      (us = [] → currarg₁ ≠ [] ∨ arg₁ = []) → SonArgumentos currarg (b :: us)) :
    LeeArgumentos f d p arg currarg l a := by
  rcases h' with ⟨us, arg', currarg', l', ha, hword, hcomma, hvale, htramo, hus⟩ | ⟨ha, hatasco⟩
  · refine .inl ⟨b :: us, arg', currarg', l', ha, hword, hcomma, hvale, h.trans htramo,
      fun hlibre hfin ↦ ?_⟩
    have hpaso : paso (enArgumentos f d arg currarg) b = some (enArgumentos f d arg₁ currarg₁) := by
      have hlee := h.lee
      rw [lee] at hlee
      cases hp : paso (enArgumentos f d arg currarg) b with
      | none => rw [hp] at hlee; cases hlee
      | some e => rw [hp] at hlee; exact hlee
    rw [alguno_cons hpaso, Bool.or_eq_false_iff] at hlibre
    refine hson hlibre.1 us (hus hlibre.2 hfin) ?_
    rintro rfl
    -- nothing more has been read, so that the arguments end as they are here
    have heq := Option.some.inj htramo.lee
    simp only [enArgumentos, Prod.mk.injEq, Fase.argumentos.injEq, true_and, and_true,
      decide_eq_decide] at heq
    rw [heq.2, ← List.length_eq_zero_iff, heq.1, List.length_eq_zero_iff]
    exact hfin
  · exact .inr ⟨ha, h.atasco hatasco⟩

/-- A word is an argument or the first of some, when it is not the second word of one. -/
theorem sonArgumentos_palabra {f : Funclistent} {d : Nat} {arg : List (Nat × CStr)}
    {currarg c : CStr} {w : CStr} {us : List Lexema} (hc : c ≠ [])
    (hlibre : libertad (enArgumentos f d arg currarg) (.palabra w) = false)
    (hus : SonArgumentos c us) : SonArgumentos currarg (.palabra w :: us) := by
  have hnil : currarg = [] := by
    by_contra hne
    simp [libertad, dosPalabras, enArgumentos, hne] at hlibre
  refine .inr (.inl ⟨hnil, ?_⟩)
  rcases hus with rfl | ⟨hc', _⟩ | ⟨_, vs, rfl, hvs⟩
  · exact .word w
  · exact absurd hc' hc
  · exact .coma w hvs

/-- A comma goes between arguments, when the one before it is not empty. -/
theorem sonArgumentos_comma {f : Funclistent} {d : Nat} {arg : List (Nat × CStr)}
    {currarg : CStr} {l : Lector} {us : List Lexema}
    (hlibre : libertad (enArgumentos f d arg currarg) (.tok .crComma) = false)
    (hus : SonArgumentos [] us) (hfin : us = [] → (guarda arg currarg l).1 = []) :
    SonArgumentos currarg (.tok .crComma :: us) := by
  have hne : currarg ≠ [] := by
    rintro rfl
    simp [libertad, argumentoVacio, enArgumentos] at hlibre
  refine .inr (.inr ⟨hne, us, rfl, ?_⟩)
  rcases hus with rfl | ⟨-, hus⟩ | ⟨h, _⟩
  · have hlength := length_guarda arg currarg l
    rw [hfin rfl, decide_eq_true hne] at hlength
    cases hlength
  · exact hus
  · exact absurd rfl h

/-- A word goes on with the argument that is being read. -/
theorem parsearglist_word {n : Nat} {arg : List (Nat × CStr)} {currarg : CStr} {arglen : Nat}
    {l : Lector} (h : l.nextTok = .crWord) :
    parsearglist (n + 1) arg currarg arglen l =
      if l.getword.2.gettoken.1 = .crNoerr then
        parsearglist n arg (agrega currarg arglen l.getword.1).1
          (agrega currarg arglen l.getword.1).2 l.getword.2.gettoken.2
      else some (l.getword.2.gettoken.1, arg, l.getword.2.gettoken.2) := by
  rw [parsearglist, if_pos h]

/-- A comma completes it. -/
theorem parsearglist_comma {n : Nat} {arg : List (Nat × CStr)} {currarg : CStr} {arglen : Nat}
    {l : Lector} (h : l.nextTok = .crComma) :
    parsearglist (n + 1) arg currarg arglen l =
      if (guarda arg currarg l).2.gettoken.1 = .crNoerr then
        parsearglist n (guarda arg currarg l).1 [] arglen (guarda arg currarg l).2.gettoken.2
      else some ((guarda arg currarg l).2.gettoken.1, (guarda arg currarg l).1,
        (guarda arg currarg l).2.gettoken.2) := by
  rw [parsearglist, if_neg (by rw [h]; exact nofun)]
  exact if_neg (not_not.mpr h)

/-- Any other token does, and is left to the caller. -/
theorem parsearglist_otro {n : Nat} {arg : List (Nat × CStr)} {currarg : CStr} {arglen : Nat}
    {l : Lector} (hword : l.nextTok ≠ .crWord) (hcomma : l.nextTok ≠ .crComma) :
    parsearglist (n + 1) arg currarg arglen l = some (.crNoerr, guarda arg currarg l) := by
  rw [parsearglist, if_neg hword]
  exact if_pos hcomma

/-- The loop of `crule_parsearglist`, by induction on the tokens that are left. -/
theorem parsearglist_spec (f : Funclistent) (d p : Nat) (n : Nat) (arg : List (Nat × CStr))
    (currarg : CStr) (arglen : Nat) (l : Lector) (hn : l.lexemas.length < n) (hl : l.Vale) :
    ∃ a, parsearglist n arg currarg arglen l = some a ∧ LeeArgumentos f d p arg currarg l a := by
  induction n generalizing arg currarg arglen l with
  | zero => exact absurd hn (Nat.not_lt_zero _)
  | succ n ih =>
      by_cases hword : l.nextTok = .crWord
      · obtain ⟨c, hc⟩ : ∃ c, c = agrega currarg arglen l.getword.1 := ⟨_, rfl⟩
        have hne : c.1 ≠ [] := hc ▸ agrega_ne_nil (hl.word hword) currarg arglen
        have hlex := Lector.lexemas_word hword
        have hpaso : paso (enArgumentos f d arg currarg) (.palabra l.getword.1) =
            some (enArgumentos f d arg c.1) := by
          rw [enArgumentos, enArgumentos, decide_eq_true hne]
          rfl
        have htramo : Tramo (enArgumentos f d arg currarg) [.palabra l.getword.1]
            (.func p none arg) l (enArgumentos f d arg c.1) (.func p none arg)
            l.getword.2.gettoken.2 := .uno hlex hpaso rfl (desborda_palabra _ _) rfl
        rw [parsearglist_word hword, ← hc]
        rcases l.getword.2.gettoken_cases with ⟨herr, hvale⟩ | ⟨herr, hunknown⟩
        · rw [hlex, List.length_cons] at hn
          obtain ⟨a, ha, hlee⟩ := ih arg c.1 c.2 _ (Nat.lt_of_succ_lt_succ hn) hvale
          refine ⟨a, by rw [if_pos herr, ha], .tras htramo hlee ?_⟩
          intro hlibre us hus _
          exact sonArgumentos_palabra hne hlibre hus
        · rw [if_neg herr]
          exact ⟨_, rfl, .inr ⟨herr, htramo.atasco (.unknown hunknown nofun nofun rfl)⟩⟩
      · by_cases hcomma : l.nextTok = .crComma
        · obtain ⟨x, hx⟩ : ∃ x, x = guarda arg currarg l := ⟨_, rfl⟩
          have hlex : l.lexemas = .tok .crComma :: x.2.gettoken.2.lexemas := by
            rw [Lector.lexemas_tok hcomma (List.cons_ne_nil _ _), Lector.lexemas_gettoken,
              Lector.lexemas_gettoken, hx, (lexemas_guarda arg currarg l).2]
          have hpaso : paso (enArgumentos f d arg currarg) (.tok .crComma) =
              some (enArgumentos f d x.1 []) := by
            rw [enArgumentos, enArgumentos, hx, length_guarda]
            rfl
          have htramo : Tramo (enArgumentos f d arg currarg) [.tok .crComma]
              (.func p none arg) l (enArgumentos f d x.1 []) (.func p none x.1)
              x.2.gettoken.2 := by
            refine ⟨?_, hlex, lee_cons hpaso⟩
            rw [hx]
            refine suma_guarda (t := .crComma) nofun rfl fun q ↦ ?_
            rw [alguno_cons hpaso, alguno_nil, Bool.or_false]
          rw [parsearglist_comma hcomma, ← hx]
          rcases x.2.gettoken_cases with ⟨herr, hvale⟩ | ⟨herr, hunknown⟩
          · rw [hlex, List.length_cons] at hn
            obtain ⟨a, ha, hlee⟩ := ih x.1 [] arglen _ (Nat.lt_of_succ_lt_succ hn) hvale
            refine ⟨a, by rw [if_pos herr, ha], .tras htramo hlee ?_⟩
            intro hlibre us hus hfin
            have hnil (h : us = []) : x.1 = [] := (hfin h).resolve_left (not_not.mpr rfl)
            exact sonArgumentos_comma hlibre hus (hx ▸ hnil)
          · rw [if_neg herr]
            exact ⟨_, rfl, .inr ⟨herr, htramo.atasco (.unknown hunknown nofun nofun rfl)⟩⟩
        · rw [parsearglist_otro hword hcomma]
          exact ⟨_, rfl, .inl ⟨[], arg, currarg, l, rfl, hword, hcomma, hl, .nada _ _ _,
            fun _ _ ↦ .inl rfl⟩⟩

/-- What derives from the symbol goes on after the operator, if one follows. -/
def Simbolo.sigue : Simbolo → Token → Prop
  | .orexpr, t => t = .crOr ∨ t = .crAnd
  | .andexpr, t => t = .crAnd
  | _, _ => False

/-- The parser has read an operand that derives from `X`, the tree `r` standing in its place before,
or it has failed. -/
def Leida (X : Simbolo) (φ : Fase) (d : Nat) (r : Ptr) (l : Lector) (s : Salida) : Prop :=
  (s.errcode = .crNoerr ∧ s.root ≠ .null ∧ s.lector.Vale ∧ ¬X.sigue s.lector.nextTok ∧
    ∃ us, Tramo (φ, d) us r l (.hecho, d) s.root s.lector ∧
      (alguno paso libertad (φ, d) us = false → Deriva X us)) ∨
  s.errcode ≠ .crNoerr ∧ Atasco (φ, d) r l s.root s.lector

/-- The arguments of a call are closed. -/
theorem cierraFuncion_spec {f : Funclistent} {d p : Nat} {arg : List (Nat × CStr)}
    {currarg : CStr} {l : Lector} (hword : l.nextTok ≠ .crWord) (hcomma : l.nextTok ≠ .crComma)
    (hl : l.Vale) {s : Salida}
    (hs : s = cierraFuncion f p (guarda arg currarg l).1 (guarda arg currarg l).2) :
    (s.errcode = .crNoerr ∧ s.root ≠ .null ∧ s.lector.Vale ∧
      Tramo (enArgumentos f d arg currarg) [.tok .crCloseparen] (.func p none arg) l (.hecho, d)
        s.root s.lector) ∨
    s.errcode ≠ .crNoerr ∧
      Atasco (enArgumentos f d arg currarg) (.func p none arg) l s.root s.lector := by
  obtain ⟨x, hx⟩ : ∃ x, x = guarda arg currarg l := ⟨_, rfl⟩
  have htok : x.2.nextTok = l.nextTok := hx ▸ (lexemas_guarda arg currarg l).1
  have hrule : x.2.ruleptr = l.ruleptr := hx ▸ (lexemas_guarda arg currarg l).2
  obtain ⟨us, hlex⟩ := Lector.exists_lexemas hword
  -- the argument is stored whatever the token is
  have hatasco (hpaso : paso (enArgumentos f d arg currarg) (.tok l.nextTok) = none) :
      Atasco (enArgumentos f d arg currarg) (.func p none arg) l (.func p none x.1) x.2 := by
    refine ⟨?_, by rw [hlex, lee_atascado hpaso]⟩
    rw [hx]
    refine suma_guarda hl.known rfl fun q ↦ ?_
    rw [hlex, alguno_atascado hpaso]
  have hpaso : paso (enArgumentos f d arg currarg) (.tok .crCloseparen) =
      if f.reqnumargs ≠ x.1.length ∧ f.reqnumargs ≠ -1 then none else some (.hecho, d) := by
    rw [hx, length_guarda]
    rfl
  rw [cierraFuncion, ← hx] at hs
  by_cases hclose : l.nextTok = .crCloseparen
  · rw [if_neg (by rw [htok]; exact not_not.mpr hclose)] at hs
    by_cases hnum : f.reqnumargs ≠ x.1.length ∧ f.reqnumargs ≠ -1
    · rw [if_pos hnum] at hs
      rw [hs]
      refine .inr ⟨nofun, hatasco ?_⟩
      rw [hclose, hpaso, if_pos hnum]
    · rw [if_neg hnum] at hs
      rw [if_neg hnum] at hpaso
      have htramo : Tramo (enArgumentos f d arg currarg) [.tok .crCloseparen] (.func p none arg) l
          (.hecho, d) (.func p none x.1) x.2.gettoken.2 := by
        refine ⟨?_, ?_, lee_cons hpaso⟩
        · rw [hx]
          refine suma_guarda (t := .crCloseparen) nofun rfl fun q ↦ ?_
          rw [alguno_cons hpaso, alguno_nil, Bool.or_false]
        · rw [Lector.lexemas_tok hclose (List.cons_ne_nil _ _), Lector.lexemas_gettoken,
            Lector.lexemas_gettoken, hrule]
          rfl
      rcases x.2.gettoken_cases with ⟨herr, hvale⟩ | ⟨herr, hunknown⟩
      · rw [if_neg (not_not.mpr herr)] at hs
        rw [hs]
        exact .inl ⟨rfl, nofun, hvale, ⟨htramo.malo, htramo.sobra, htramo.cuenta,
          htramo.correlativos⟩, htramo.lexemas, htramo.lee⟩
      · rw [if_pos herr] at hs
        rw [hs]
        exact .inr ⟨herr, htramo.atasco (.unknown hunknown nofun nofun rfl)⟩
  · rw [if_pos (by rwa [htok])] at hs
    rw [hs]
    refine .inr ⟨nofun, hatasco ?_⟩
    show pasoArgumentos f arg.length _ d (.tok l.nextTok) = none
    cases htok' : l.nextTok with
    | crComma => exact absurd htok' hcomma
    | crCloseparen => exact absurd htok' hclose
    | _ => rfl

/-- A failure is a failure after any stretch. -/
theorem Leida.atasco {X : Simbolo} {φ : Fase} {d : Nat} {r r' : Ptr} {l l' : Lector}
    {e : Estado} {us : List Lexema} {s : Salida} (h : Tramo (φ, d) us r l e r' l')
    (herr : s.errcode ≠ .crNoerr) (h' : Atasco e r' l' s.root s.lector) : Leida X φ d r l s :=
  .inr ⟨herr, h.atasco h'⟩

/-- The arguments of a function derive from its call. -/
theorem deriva_llamada {f : Funclistent} {d : Nat} {arg : List (Nat × CStr)} {currarg w : CStr}
    {us : List Lexema} (hus : currarg ≠ [] ∨ arg = [] → SonArgumentos [] us)
    (hlibre : libertad (enArgumentos f d arg currarg) (.tok .crCloseparen) = false) :
    Deriva .function (.palabra w :: .tok .crOpenparen :: us ++ [.tok .crCloseparen]) := by
  have hfin : currarg ≠ [] ∨ arg = [] := by
    by_contra h
    obtain ⟨hcurrarg, harg⟩ := not_or.mp h
    simp [libertad, argumentoVacio, enArgumentos, not_not.mp hcurrarg,
      List.length_pos_of_ne_nil harg] at hlibre
  rcases hus hfin with rfl | ⟨-, hus⟩ | ⟨h, -⟩
  · exact .vacia w
  · exact .llamada w hus
  · exact absurd rfl h

/-- `crule_parsefunction` from the parenthesis on. -/
theorem llamada_spec {f : Funclistent} {w : CStr} (hf : busca w = some f) (d : Nat) {n : Nat}
    {l : Lector} (hn : l.lexemas.length < n) (hopen : l.nextTok = .crOpenparen) :
    ∃ s, llamada n f l = some s ∧
      ((s.errcode = .crNoerr ∧ s.root ≠ .null ∧ s.lector.Vale ∧
        ∃ us, Tramo (.nombre w, d) us .null l (.hecho, d) s.root s.lector ∧
          (alguno paso libertad (.nombre w, d) us = false → Deriva .function (.palabra w :: us))) ∨
      s.errcode ≠ .crNoerr ∧ Atasco (.nombre w, d) .null l s.root s.lector) := by
  have hlex := Lector.lexemas_tok hopen (List.cons_ne_nil _ _)
  have hpaso : paso (.nombre w, d) (.tok .crOpenparen) = some (enArgumentos f d [] []) := by
    show (busca w).map _ = _
    rw [hf]
    rfl
  have habre : Tramo (.nombre w, d) [.tok .crOpenparen] .null l (enArgumentos f d [] []) .null
      l.gettoken.2 :=
    .uno hlex hpaso (rompe_eq_false (e := (.nombre w, d)) nofun nofun nofun _) rfl rfl
  rw [llamada]
  rcases l.gettoken_cases with ⟨herr, hvale⟩ | ⟨herr, hunknown⟩
  · rw [if_neg (not_not.mpr herr)]
    obtain ⟨p, hp⟩ : ∃ p, p = l.gettoken.2.nuevo := ⟨_, rfl⟩
    have haloja : Tramo (.nombre w, d) [.tok .crOpenparen] .null l (enArgumentos f d [] [])
        (.func p none []) l.gettoken.2.malloc := hp ▸ habre.trans (.aloja _ _)
    have hn' : l.gettoken.2.malloc.lexemas.length < n := by
      rw [hlex, List.length_cons] at hn
      exact Nat.lt_of_succ_lt hn
    obtain ⟨a, ha, hlee⟩ := parsearglist_spec f d p n [] [] 0 _ hn' hvale.malloc
    rw [ha, Option.map_some, ← hp]
    refine ⟨_, rfl, ?_⟩
    rcases hlee with ⟨us, arg, currarg, l', rfl, hword, hcomma, hvale', htramo, hus⟩ |
      ⟨herr, hatasco⟩
    · rw [if_neg (not_not.mpr rfl)]
      rcases cierraFuncion_spec (d := d) hword hcomma hvale' rfl with
        ⟨herr, hroot, hvale'', hcierra⟩ | ⟨herr, hatasco⟩
      · have htodo := (haloja.trans htramo).trans hcierra
        refine .inl ⟨herr, hroot, hvale'', _, htodo, fun hlibre ↦ ?_⟩
        rw [alguno_append (haloja.trans htramo).lee, alguno_append haloja.lee, alguno_uno,
          alguno_uno, Bool.or_eq_false_iff, Bool.or_eq_false_iff] at hlibre
        exact deriva_llamada (hus hlibre.1.2) hlibre.2
      · exact .inr ⟨herr, (haloja.trans htramo).atasco hatasco⟩
    · rw [if_pos herr]
      exact .inr ⟨herr, haloja.atasco hatasco⟩
  · rw [if_pos herr]
    exact ⟨_, rfl, .inr ⟨herr, habre.atasco (.unknown hunknown nofun nofun rfl)⟩⟩

/-- `crule_parsefunction`. -/
theorem parsefunction_spec {φ : Fase} (hφ : φ.espera) (d : Nat) {n : Nat} {l : Lector}
    (hn : l.lexemas.length < n) (hword : l.nextTok = .crWord) :
    ∃ s, parsefunction n l = some s ∧ Leida .function φ d .null l s := by
  obtain ⟨w, hw⟩ : ∃ w, w = l.getword.1 := ⟨_, rfl⟩
  obtain ⟨l₁, hl₁⟩ : ∃ l₁, l₁ = l.getword.2.gettoken.2 := ⟨_, rfl⟩
  have hlex : l.lexemas = .palabra w :: l₁.lexemas := by
    rw [hw, hl₁]
    exact Lector.lexemas_word hword
  have hpalabra : Tramo (φ, d) [.palabra w] .null l (.nombre w, d) .null l₁ :=
    .uno hlex (hφ.paso d _) (rompe_palabra _ _) (hφ.desborda d _) (by rw [hl₁]; rfl)
  rw [parsefunction, ← hw, ← hl₁]
  rcases l.getword.2.gettoken_cases with ⟨herr, hvale⟩ | ⟨herr, hunknown⟩
  · rw [← hl₁] at hvale
    by_cases hopen : l₁.nextTok = .crOpenparen
    · cases hf : busca w with
      | none =>
          refine ⟨_, (if_neg (not_not.mpr herr)).trans (if_pos hopen), .atasco hpalabra nofun ?_⟩
          have hpaso : paso (.nombre w, d) (.tok .crOpenparen) = none := by
            show (busca w).map _ = _
            rw [hf]
            rfl
          exact .uno (Lector.lexemas_tok hopen (List.cons_ne_nil _ _)) hpaso
            (rompe_eq_false (e := (.nombre w, d)) nofun nofun nofun _) rfl rfl
      | some f =>
          have hn' : l₁.lexemas.length < n := by
            rw [hlex, List.length_cons] at hn
            exact Nat.lt_of_succ_lt hn
          obtain ⟨s, hs, hlee⟩ := llamada_spec hf d hn' hopen
          refine ⟨s, ((if_neg (not_not.mpr herr)).trans (if_pos hopen)).trans hs, ?_⟩
          rcases hlee with ⟨herr, hroot, hvale, us, htramo, hus⟩ | ⟨herr, hatasco⟩
          · refine .inl ⟨herr, hroot, hvale, id, _, hpalabra.trans htramo, fun hlibre ↦ hus ?_⟩
            rw [alguno_append hpalabra.lee, Bool.or_eq_false_iff] at hlibre
            exact hlibre.2
          · exact .atasco hpalabra herr hatasco
    · refine ⟨_, (if_neg (not_not.mpr herr)).trans (if_neg hopen), .atasco hpalabra nofun ?_⟩
      obtain ⟨a, us, hlex', ha⟩ := Lector.exists_lexemas_ne hopen
      exact .uno hlex' (if_neg ha) (rompe_eq_false (e := (.nombre w, d)) nofun nofun nofun _) rfl
        rfl
  · exact ⟨_, if_pos herr, .atasco hpalabra herr (.unknown (hl₁ ▸ hunknown) nofun nofun rfl)⟩

/-! ## Expressions -/

/-- A function reads what derives from `Y` when it is called in a phase of `P`, on at most `m`
tokens; when the token ahead is one of `N`, it may read nothing. -/
def LeeOperando (Y : Simbolo) (P : Fase → Prop) (N : Token → Prop) (m : Nat)
    (operando : Lector → Option Salida) : Prop :=
  ∀ φ d l, P φ → l.Vale → l.lexemas.length ≤ m → ∃ s, operando l = some s ∧
    (Leida Y φ d .null l s ∨ s = ⟨.crNoerr, .null, l⟩ ∧ N l.nextTok)

/-- The operator `op` joins what derives from `Y` to what derives from `X`. Its first operand is
read in a phase of `P`, the others in the phase `tras`, and no token of `N` begins an operand. -/
structure Operador (op : Token) (tras : Fase) (P : Fase → Prop) (N : Token → Prop)
    (Y X : Simbolo) : Prop where
  grafia : grafia op ≠ []
  fase : tras = .trasOr ∨ tras = .trasAnd
  espera : ∀ φ, P φ → φ.espera
  hecho : ∀ d, paso (.hecho, d) (.tok op) = some (tras, d)
  falta : ∀ φ d, P φ ∨ φ = tras → paso (φ, d) (.tok op) = some (tras, d)
  primero : ∀ φ d, P φ → rompe (φ, d) (.tok op) = true
  otro : ∀ d, rompe (tras, d) (.tok op) = false
  libertad : ∀ φ d, P φ ∨ φ = tras → libertad (φ, d) (.tok op) = true
  fin : ∀ d t, N t → t ≠ op → t ≠ .crUnknown →
    t ≠ .crWord ∧ paso (tras, d) (.tok t) = none ∧ rompe (tras, d) (.tok t) = false
  sigue : ∀ t, X.sigue t ↔ t = op ∨ Y.sigue t
  base : ∀ us, Deriva Y us → Deriva X us
  junta : ∀ us vs, Deriva Y us → Deriva X vs → Deriva X (us ++ .tok op :: vs)

/-- The tree that a loop has built when it is about to read an operand: none yet, or the node of the
last operator with its second operand to come. -/
def Abierta (P : Fase → Prop) (tras : Fase) (arg2 : Bool) (root : Ptr) (φ : Fase) : Prop :=
  root = .null ∧ P φ ∨ (∃ p arg0, root = .andor p arg0 .indef arg2) ∧ φ = tras

/-- The tree with `x` for the operand that is read next. -/
def conOperando (root x : Ptr) : Ptr :=
  if root ≠ .null then root.setArg1 x else x

theorem Abierta.contexto {P : Fase → Prop} {tras φ : Fase} {arg2 : Bool} {root : Ptr}
    (h : Abierta P tras arg2 root φ) : Contexto (conOperando root) := by
  rcases h with ⟨rfl, -⟩ | ⟨⟨p, arg0, rfl⟩, -⟩
  · exact ⟨false, false, fun _ ↦ 0, fun x ↦ ⟨rfl, rfl, fun a ↦ (Nat.zero_add _).symm⟩⟩
  · exact contexto_setArg1 p arg0 arg2

theorem Abierta.setArg1_ne_null {P : Fase → Prop} {tras φ : Fase} {arg2 : Bool} {root : Ptr}
    (h : Abierta P tras arg2 root φ) (hroot : root ≠ .null) (x : Ptr) : root.setArg1 x ≠ .null := by
  rcases h with ⟨rfl, -⟩ | ⟨⟨p, arg0, rfl⟩, -⟩
  · exact absurd rfl hroot
  · exact nofun

theorem Abierta.conOperando_ne_null {P : Fase → Prop} {tras φ : Fase} {arg2 : Bool}
    {root x : Ptr} (h : Abierta P tras arg2 root φ) (hx : x ≠ .null) :
    conOperando root x ≠ .null := by
  rw [conOperando]
  split
  · next hroot => exact h.setArg1_ne_null hroot x
  · exact hx

section

variable {op : Token} {tras : Fase} {P : Fase → Prop} {N : Token → Prop} {Y X : Simbolo}

theorem Abierta.espera (hop : Operador op tras P N Y X) {arg2 : Bool} {root : Ptr} {φ : Fase}
    (h : Abierta P tras arg2 root φ) : φ.espera := by
  rcases h with ⟨-, hφ⟩ | ⟨-, rfl⟩
  · exact hop.espera φ hφ
  · rcases hop.fase with h | h
    · exact .inr (.inl h)
    · exact .inr (.inr (.inl h))

/-- The operator whose first operand is missing breaks the tree, a later one does not. -/
theorem Abierta.rompe (hop : Operador op tras P N Y X) {arg2 : Bool} {root : Ptr} {φ : Fase}
    (h : Abierta P tras arg2 root φ) (d : Nat) :
    rompe (φ, d) (.tok op) = decide (conOperando root .null = .null) := by
  rcases h with ⟨rfl, hφ⟩ | ⟨⟨p, arg0, rfl⟩, rfl⟩
  · exact hop.primero φ d hφ
  · exact hop.otro d

/-- The loop goes on after the operator at which `l` stands, and reads the rest of the chain. -/
def Prosigue (X : Simbolo) (tras : Fase) (d : Nat) (arg2 : Bool)
    (sigue : Ptr → Lector → Option Salida) (l : Lector) : Prop :=
  ∀ arg0 l', l'.lexemas.length < l.lexemas.length → l'.Vale →
    ∃ s, sigue (.andor l.nuevo arg0 .indef arg2) l' = some s ∧
      Leida X tras d (.andor l.nuevo arg0 .null arg2) l' s

/-- The operator is read, and the loop goes on. -/
theorem Operador.avanza (hop : Operador op tras P N Y X) {sigue : Ptr → Lector → Option Salida}
    {e : Estado} {d : Nat} {arg0 : Ptr} {arg2 : Bool} {l : Lector} (htok : l.nextTok = op)
    (hpaso : paso e (.tok op) = some (tras, d))
    (hrompe : rompe e (.tok op) = decide (arg0 = .null)) (hdesborda : desborda e (.tok op) = false)
    (hsigue : Prosigue X tras d arg2 sigue l) :
    ∃ s, (if l.malloc.gettoken.1 ≠ .crNoerr then
        some ⟨l.malloc.gettoken.1, .andor l.nuevo arg0 .indef arg2, l.malloc.gettoken.2⟩
      else sigue (.andor l.nuevo arg0 .indef arg2) l.malloc.gettoken.2) = some s ∧
      ((s.errcode = .crNoerr ∧ s.root ≠ .null ∧ s.lector.Vale ∧ ¬X.sigue s.lector.nextTok ∧
        ∃ us, Tramo e (.tok op :: us) arg0 l (.hecho, d) s.root s.lector ∧
          (alguno paso Crule.libertad (tras, d) us = false → Deriva X us)) ∨
      s.errcode ≠ .crNoerr ∧ Atasco e arg0 l s.root s.lector) := by
  have htramo : Tramo e [.tok op] arg0 l (tras, d) (.andor l.nuevo arg0 .null arg2)
      l.malloc.gettoken.2 := .nodo htok hop.grafia hpaso hrompe hdesborda
  rcases l.gettoken_cases with ⟨herr, hvale⟩ | ⟨herr, hunknown⟩
  · have hlength : l.malloc.gettoken.2.lexemas.length < l.lexemas.length := by
      rw [htramo.lexemas]
      exact Nat.lt_succ_self _
    obtain ⟨s, hs, hlee⟩ := hsigue arg0 _ hlength hvale.malloc
    refine ⟨s, (if_neg (not_not.mpr herr)).trans hs, ?_⟩
    rcases hlee with ⟨herr, hroot, hvale, hsig, us, htramo', hus⟩ | ⟨herr, hatasco⟩
    · exact .inl ⟨herr, hroot, hvale, hsig, us, htramo.trans htramo', hus⟩
    · exact .inr ⟨herr, htramo.atasco hatasco⟩
  · exact ⟨_, if_pos herr, .inr ⟨herr, .nodo htok hop.grafia hpaso hop.fase hdesborda hunknown⟩⟩

section

variable (hop : Operador op tras P N Y X) {sigue : Ptr → Lector → Option Salida} {root : Ptr}
  {φ : Fase} {d : Nat} {arg2 : Bool} {falta : Errcode} {l : Lector} {s : Salida}
  (habierta : Abierta P tras arg2 root φ)

include hop habierta

/-- The operator stands behind the operand that has been read. -/
theorem Operador.tras_leida (h : Leida Y φ d .null l s) (herr : s.errcode = .crNoerr)
    (htok : s.lector.nextTok = op) (hsigue : Prosigue X tras d arg2 sigue s.lector) :
    ∃ s', trasOperando sigue op arg2 falta root s = some s' ∧
      Leida X φ d (conOperando root .null) l s' := by
  rcases h with ⟨-, hroot, hvale, -, us, htramo, hus⟩ | ⟨hne, -⟩
  · have hcontexto := habierta.contexto
    have hrompe : rompe (.hecho, d) (.tok op) = decide (conOperando root s.root = .null) := by
      rw [decide_eq_false (habierta.conOperando_ne_null hroot)]
      exact rompe_eq_false (e := (.hecho, d)) nofun nofun nofun _
    obtain ⟨s', hs', hlee⟩ := hop.avanza htok (hop.hecho d) hrompe rfl hsigue
    refine ⟨s', (if_pos ⟨herr, htok⟩).trans hs', ?_⟩
    rcases hlee with ⟨herr, hroot', hvale', hX, vs, htramo', hvs⟩ | ⟨herr, hatasco⟩
    · refine .inl ⟨herr, hroot', hvale', hX, _, (htramo.en hcontexto).trans htramo',
        fun hlibre ↦ ?_⟩
      rw [alguno_append htramo.lee, alguno_cons (hop.hecho d), Bool.or_eq_false_iff,
        Bool.or_eq_false_iff] at hlibre
      exact hop.junta us vs (hus hlibre.1) (hvs hlibre.2.2)
    · exact .inr ⟨herr, (htramo.en hcontexto).atasco hatasco⟩
  · exact absurd herr hne

/-- The operator stands where an operand is due. -/
theorem Operador.tras_nada (htok : l.nextTok = op) (hsigue : Prosigue X tras d arg2 sigue l) :
    ∃ s', trasOperando sigue op arg2 falta root ⟨.crNoerr, .null, l⟩ = some s' ∧
      Leida X φ d (conOperando root .null) l s' := by
  have hφ : P φ ∨ φ = tras := habierta.imp And.right And.right
  have hpaso := hop.falta φ d hφ
  have hdesborda := (habierta.espera hop).desborda d (.tok op)
  obtain ⟨s', hs', hlee⟩ := hop.avanza htok hpaso (habierta.rompe hop d) hdesborda hsigue
  refine ⟨s', (if_pos ⟨rfl, htok⟩).trans hs', ?_⟩
  rcases hlee with ⟨herr, hroot, hvale, hX, vs, htramo, hvs⟩ | ⟨herr, hatasco⟩
  · refine .inl ⟨herr, hroot, hvale, hX, _, htramo, fun hlibre ↦ ?_⟩
    rw [alguno_cons hpaso, hop.libertad φ d hφ] at hlibre
    cases hlibre
  · exact .inr ⟨herr, hatasco⟩

/-- The last operand has been read, or reading it has failed. -/
theorem Operador.cierra (hfalta : falta ≠ .crNoerr) (h : Leida Y φ d .null l s)
    (hsig : ¬(s.errcode = .crNoerr ∧ s.lector.nextTok = op)) :
    ∃ s', trasOperando sigue op arg2 falta root s = some s' ∧
      Leida X φ d (conOperando root .null) l s' := by
  have hcontexto := habierta.contexto
  rw [trasOperando, if_neg hsig]
  by_cases hroot : root = .null
  · subst hroot
    refine ⟨s, rfl, ?_⟩
    rcases h with ⟨herr, hne, hvale, hY, us, htramo, hus⟩ | h
    · have hX := mt (hop.sigue _).mp (not_or.mpr ⟨fun htok ↦ hsig ⟨herr, htok⟩, hY⟩)
      exact .inl ⟨herr, hne, hvale, hX, us, htramo, fun hlibre ↦ hop.base us (hus hlibre)⟩
    · exact .inr h
  · have hcon (x : Ptr) : conOperando root x = root.setArg1 x := if_pos hroot
    rw [if_pos hroot]
    rcases h with ⟨herr, hne, hvale, hY, us, htramo, hus⟩ | ⟨herr, hatasco⟩
    · have hX := mt (hop.sigue _).mp (not_or.mpr ⟨fun htok ↦ hsig ⟨herr, htok⟩, hY⟩)
      have htramo' := htramo.en hcontexto
      rw [hcon s.root] at htramo'
      rw [if_pos hne]
      exact ⟨_, rfl, .inl ⟨herr, habierta.setArg1_ne_null hroot _, hvale, hX, us, htramo',
        fun hlibre ↦ hop.base us (hus hlibre)⟩⟩
    · have hatasco' := hatasco.en hcontexto
      rw [hcon s.root] at hatasco'
      by_cases hne : s.root = .null
      · rw [hne] at hatasco'
        rw [if_neg (not_not.mpr hne)]
        exact ⟨_, rfl, .inr ⟨hfalta, hatasco'⟩⟩
      · rw [if_pos hne]
        exact ⟨_, rfl, .inr ⟨herr, hatasco'⟩⟩

/-- The last operand is missing. -/
theorem Operador.termina (hfalta : falta ≠ .crNoerr) (hl : l.Vale) (hnada : N l.nextTok)
    (htok : l.nextTok ≠ op) (hroot : root ≠ .null) :
    ∃ s', trasOperando sigue op arg2 falta root ⟨.crNoerr, .null, l⟩ = some s' ∧
      Leida X φ d (conOperando root .null) l s' := by
  obtain ⟨hword, hpaso, hrompe⟩ := hop.fin d l.nextTok hnada htok hl.known
  obtain ⟨us, hlex⟩ := Lector.exists_lexemas hword
  have hdesborda := (habierta.espera hop).desborda d (.tok l.nextTok)
  rw [trasOperando, if_neg fun h ↦ htok h.2, if_pos hroot]
  rcases habierta with ⟨rfl, -⟩ | ⟨⟨p, arg0, rfl⟩, rfl⟩
  · exact absurd rfl hroot
  · exact ⟨_, rfl, .inr ⟨hfalta, .uno hlex hpaso hrompe hdesborda rfl⟩⟩

end

/-- The loop that reads operands, by induction on the tokens that are left. -/
theorem operandos_spec (hop : Operador op tras P N Y X) {m : Nat}
    {operando : Lector → Option Salida}
    (hoper : LeeOperando Y (fun φ ↦ P φ ∨ φ = tras) N m operando) (arg2 : Bool) {falta : Errcode}
    (hfalta : falta ≠ .crNoerr) (n : Nat) (root : Ptr) (φ : Fase) (d : Nat) (l : Lector)
    (hn : l.lexemas.length < n) (hm : l.lexemas.length ≤ m) (hl : l.Vale)
    (habierta : Abierta P tras arg2 root φ) :
    ∃ s, operandos operando op arg2 falta n root l = some s ∧
      (Leida X φ d (conOperando root .null) l s ∨
        root = .null ∧ s = ⟨.crNoerr, .null, l⟩ ∧ N l.nextTok ∧ l.nextTok ≠ op) := by
  induction n generalizing root φ l with
  | zero => exact absurd hn (Nat.not_lt_zero _)
  | succ n ih =>
      obtain ⟨s, hs, hlee⟩ := hoper φ d l (habierta.imp And.right And.right) hl hm
      -- the rest of the loop, once the operator has been read
      have hsigue (l₁ : Lector) (hle : l₁.lexemas.length ≤ l.lexemas.length) :
          Prosigue X tras d arg2 (operandos operando op arg2 falta n) l₁ := by
        intro arg0 l' hlt hl'
        have hlt' := Nat.lt_of_lt_of_le hlt hle
        obtain ⟨s, hs, hlee | ⟨hnull, -⟩⟩ := ih (.andor l₁.nuevo arg0 .indef arg2) tras l'
          (Nat.lt_of_lt_of_le hlt' (Nat.le_of_lt_succ hn))
          (Nat.le_trans (Nat.le_of_lt hlt') hm) hl' (.inr ⟨⟨_, _, rfl⟩, rfl⟩)
        · exact ⟨s, hs, hlee⟩
        · cases hnull
      rw [operandos, hs, Option.bind_some]
      rcases hlee with hlee | ⟨rfl, hnada⟩
      · by_cases hsig : s.errcode = .crNoerr ∧ s.lector.nextTok = op
        · have hle : s.lector.lexemas.length ≤ l.lexemas.length := by
            rcases hlee with ⟨-, -, -, -, us, htramo, -⟩ | ⟨herr, -⟩
            · rw [htramo.lexemas, List.length_append]
              exact Nat.le_add_left _ _
            · exact absurd hsig.1 herr
          obtain ⟨s', hs', hlee'⟩ :=
            hop.tras_leida habierta hlee hsig.1 hsig.2 (hsigue s.lector hle)
          exact ⟨s', hs', .inl hlee'⟩
        · obtain ⟨s', hs', hlee'⟩ := hop.cierra habierta hfalta hlee hsig
          exact ⟨s', hs', .inl hlee'⟩
      · by_cases htok : l.nextTok = op
        · obtain ⟨s', hs', hlee'⟩ := hop.tras_nada habierta htok (hsigue l (Nat.le_refl _))
          exact ⟨s', hs', .inl hlee'⟩
        · by_cases hroot : root = .null
          · subst hroot
            exact ⟨_, (if_neg fun h ↦ htok h.2).trans (if_neg (not_not.mpr rfl)),
              .inr ⟨rfl, rfl, hnada, htok⟩⟩
          · obtain ⟨s', hs', hlee'⟩ := hop.termina habierta hfalta hl hnada htok hroot
            exact ⟨s', hs', .inl hlee'⟩

end

/-- No operand begins with the token. -/
def noEmpieza (t : Token) : Prop :=
  t ≠ .crWord ∧ t ≠ .crOpenparen ∧ t ≠ .crNot

/-- `&&` in `crule_parseandexpr`. -/
theorem operador_and : Operador .crAnd .trasAnd (fun φ ↦ φ = .inicio ∨ φ = .trasOr) noEmpieza
    .primary .andexpr where
  grafia := List.cons_ne_nil _ _
  fase := .inr rfl
  sigue t := by simp [Simbolo.sigue]
  espera φ h := h.imp id .inl
  hecho d := rfl
  falta φ d h := by rcases h with (rfl | rfl) | rfl <;> rfl
  primero φ d h := by rcases h with rfl | rfl <;> rfl
  otro d := rfl
  libertad φ d h := by rcases h with (rfl | rfl) | rfl <;> rfl
  fin d t h ht hunknown := by
    cases t with
    | crWord => exact absurd rfl h.1
    | crOpenparen => exact absurd rfl h.2.1
    | crNot => exact absurd rfl h.2.2
    | crAnd => exact absurd rfl ht
    | crUnknown => exact absurd rfl hunknown
    | _ => exact ⟨nofun, rfl, rfl⟩
  base us h := .primary h
  junta us vs h h' := .and h h'

/-- `||` in `crule_parseorexpr`. -/
theorem operador_or : Operador .crOr .trasOr (fun φ ↦ φ = .inicio)
    (fun t ↦ noEmpieza t ∧ t ≠ .crAnd) .andexpr .orexpr where
  grafia := List.cons_ne_nil _ _
  fase := .inl rfl
  sigue t := by simp [Simbolo.sigue]
  espera φ h := .inl h
  hecho d := rfl
  falta φ d h := by rcases h with rfl | rfl <;> rfl
  primero φ d h := by subst h; rfl
  otro d := rfl
  libertad φ d h := by rcases h with rfl | rfl <;> rfl
  fin d t h ht hunknown := by
    cases t with
    | crWord => exact absurd rfl h.1.1
    | crOpenparen => exact absurd rfl h.1.2.1
    | crNot => exact absurd rfl h.1.2.2
    | crAnd => exact absurd rfl h.2
    | crOr => exact absurd rfl ht
    | crUnknown => exact absurd rfl hunknown
    | _ => exact ⟨nofun, rfl, rfl⟩
  base us h := .andexpr h
  junta us vs h h' := .or h h'

theorem cuelga_ne_null {x : Ptr} (hx : x ≠ .null) (nots : List Nat) : cuelga nots x ≠ .null := by
  induction nots generalizing x with
  | nil => exact hx
  | cons p nots ih => exact ih nofun

/-- The operand that has been read stands behind some `!`. -/
theorem Leida.cuelga {X Y : Simbolo} {φ : Fase} {d : Nat} {l : Lector} {s : Salida}
    (h : Leida X φ d .null l s) (hsigue : ∀ t, ¬Y.sigue t) (hbase : ∀ us, Deriva X us → Deriva Y us)
    (nots : List Nat) :
    Leida Y φ d (cuelga nots .null) l ⟨s.errcode, cuelga nots s.root, s.lector⟩ := by
  rcases h with ⟨herr, hroot, hvale, -, us, htramo, hus⟩ | ⟨herr, hatasco⟩
  · exact .inl ⟨herr, cuelga_ne_null hroot nots, hvale, hsigue _, us,
      htramo.en (contexto_cuelga nots), fun hlibre ↦ hbase us (hus hlibre)⟩
  · exact .inr ⟨herr, hatasco.en (contexto_cuelga nots)⟩

/-- A parenthesis is opened, and what `crule_parseorexpr` has read after it is closed. -/
theorem grupo_spec {φ : Fase} (hφ : φ.espera) (d : Nat) {nots : List Nat} {l : Lector} {s : Salida}
    (hopen : l.nextTok = .crOpenparen) (hvale : l.gettoken.2.Vale)
    (h : Leida .orexpr .inicio (d + 1) .null l.gettoken.2 s ∨
      s = ⟨.crNoerr, .null, l.gettoken.2⟩ ∧
        (noEmpieza l.gettoken.2.nextTok ∧ l.gettoken.2.nextTok ≠ .crAnd) ∧
        l.gettoken.2.nextTok ≠ .crOr) :
    Leida .primary φ d (cuelga nots .null) l (cierraGrupo nots s) := by
  have habre : Tramo (φ, d) [.tok .crOpenparen] (cuelga nots .null) l (.inicio, d + 1)
      (cuelga nots .null) l.gettoken.2 :=
    .uno (Lector.lexemas_tok hopen (List.cons_ne_nil _ _)) (hφ.paso d _)
      (rompe_tok (t := .crOpenparen) nofun nofun nofun _) (hφ.desborda d _) rfl
  rcases h with (⟨herr, hroot, hvale', hsigue, us, htramo, hus⟩ | ⟨herr, hatasco⟩) |
    ⟨rfl, hnada, hor⟩
  · have htodo := habre.trans (htramo.en (contexto_cuelga nots))
    rw [cierraGrupo, if_neg (not_not.mpr herr), if_neg hroot]
    by_cases hclose : s.lector.nextTok = .crCloseparen
    · rw [if_neg (not_not.mpr hclose)]
      have hcierra : Tramo (.hecho, d + 1) [.tok .crCloseparen] (cuelga nots s.root) s.lector
          (.hecho, d) (cuelga nots s.root) s.lector.gettoken.2 :=
        .uno (Lector.lexemas_tok hclose (List.cons_ne_nil _ _)) rfl
          (rompe_tok (t := .crCloseparen) nofun nofun nofun _) rfl rfl
      rcases s.lector.gettoken_cases with ⟨herr', hvale''⟩ | ⟨herr', hunknown⟩
      · refine .inl ⟨herr', cuelga_ne_null hroot nots, hvale'', id, _, htodo.trans hcierra,
          fun hlibre ↦ .paren (hus ?_)⟩
        rw [alguno_append htodo.lee, alguno_append habre.lee, Bool.or_eq_false_iff,
          Bool.or_eq_false_iff] at hlibre
        exact hlibre.1.2
      · exact .atasco (htodo.trans hcierra) herr' (.unknown hunknown nofun nofun rfl)
    · rw [if_pos hclose]
      refine .atasco htodo nofun ?_
      by_cases hword : s.lector.nextTok = .crWord
      · exact .uno (Lector.lexemas_word hword) rfl (rompe_palabra _ _) rfl rfl
      · obtain ⟨hor, hand⟩ := not_or.mp hsigue
        obtain ⟨vs, hlex⟩ := Lector.exists_lexemas hword
        refine .uno hlex ?_ (rompe_tok hand hor hvale'.known _) rfl rfl
        cases htok : s.lector.nextTok with
        | crAnd => exact absurd htok hand
        | crOr => exact absurd htok hor
        | crCloseparen => exact absurd htok hclose
        | _ => rfl
  · rw [cierraGrupo, if_pos herr]
    exact .atasco habre herr (hatasco.en (contexto_cuelga nots))
  · refine .atasco habre nofun ?_
    obtain ⟨⟨hword, hopen, hnot⟩, hand⟩ := hnada
    obtain ⟨us, hlex⟩ := Lector.exists_lexemas hword
    refine .uno hlex ?_ (rompe_tok hand hor hvale.known _) rfl rfl
    cases htok : l.gettoken.2.nextTok with
    | crOpenparen => exact absurd htok hopen
    | crNot => exact absurd htok hnot
    | crAnd => exact absurd htok hand
    | crOr => exact absurd htok hor
    | _ => rfl

/-- What the three functions of the recursion do when they have fuel for `n` calls, three for each
token that is left. -/
structure Desciende (n : Nat) : Prop where
  orexpr : ∀ d l, l.Vale → 3 * l.lexemas.length + 3 ≤ n → ∃ s, parseorexpr n l = some s ∧
    (Leida .orexpr .inicio d .null l s ∨
      s = ⟨.crNoerr, .null, l⟩ ∧ (noEmpieza l.nextTok ∧ l.nextTok ≠ .crAnd) ∧ l.nextTok ≠ .crOr)
  andexpr : ∀ m, 3 * m + 2 ≤ n → LeeOperando .andexpr (fun φ ↦ φ = .inicio ∨ φ = .trasOr)
    (fun t ↦ noEmpieza t ∧ t ≠ .crAnd) m (parseandexpr n)
  primary : ∀ nots φ d l, φ.espera → (nots ≠ [] → φ = .trasNot) → l.Vale →
    3 * l.lexemas.length + 1 ≤ n → ∃ s, parseprimary n nots l = some s ∧
      (Leida .primary φ d (cuelga nots .null) l s ∨
        nots = [] ∧ s = ⟨.crNoerr, .null, l⟩ ∧ noEmpieza l.nextTok)

theorem Desciende.sigue_orexpr {n : Nat} (h : Desciende n) (d : Nat) (l : Lector) (hl : l.Vale)
    (hn : 3 * l.lexemas.length + 3 ≤ n + 1) : ∃ s, parseorexpr (n + 1) l = some s ∧
    (Leida .orexpr .inicio d .null l s ∨
      s = ⟨.crNoerr, .null, l⟩ ∧ (noEmpieza l.nextTok ∧ l.nextTok ≠ .crAnd) ∧
        l.nextTok ≠ .crOr) := by
  have hoper := h.andexpr l.lexemas.length (by omega)
  have hfalta : Errcode.crExpctand ≠ .crNoerr := nofun
  obtain ⟨s, hs, hlee⟩ := operandos_spec operador_or hoper true hfalta n .null .inicio d l
    (by omega) (Nat.le_refl _) hl (.inl ⟨rfl, rfl⟩)
  exact ⟨s, by rw [parseorexpr]; exact hs, hlee.imp id fun h ↦ h.2⟩

theorem Desciende.sigue_andexpr {n : Nat} (h : Desciende n) (m : Nat) (hm : 3 * m + 2 ≤ n + 1) :
    LeeOperando .andexpr (fun φ ↦ φ = .inicio ∨ φ = .trasOr)
      (fun t ↦ noEmpieza t ∧ t ≠ .crAnd) m (parseandexpr (n + 1)) := by
  intro φ d l hφ hl hle
  have hoper : LeeOperando .primary (fun φ ↦ (φ = .inicio ∨ φ = .trasOr) ∨ φ = .trasAnd) noEmpieza
      m (parseprimary n []) := by
    intro φ d l hφ hl hle
    have hespera : φ.espera := by
      rcases hφ with (rfl | rfl) | rfl
      · exact .inl rfl
      · exact .inr (.inl rfl)
      · exact .inr (.inr (.inl rfl))
    obtain ⟨s, hs, hlee⟩ := h.primary [] φ d l hespera (fun h ↦ absurd rfl h) hl (by omega)
    exact ⟨s, hs, hlee.imp id And.right⟩
  have hfalta : Errcode.crExpctprim ≠ .crNoerr := nofun
  obtain ⟨s, hs, hlee⟩ := operandos_spec operador_and hoper false hfalta n .null φ d l (by omega)
    hle hl (.inl ⟨rfl, hφ⟩)
  exact ⟨s, by rw [parseandexpr]; exact hs, hlee.imp id fun h ↦ h.2⟩

theorem Desciende.sigue_primary {n : Nat} (h : Desciende n) (nots : List Nat) (φ : Fase) (d : Nat)
    (l : Lector) (hφ : φ.espera) (hnots : nots ≠ [] → φ = .trasNot) (hl : l.Vale)
    (hn : 3 * l.lexemas.length + 1 ≤ n + 1) : ∃ s, parseprimary (n + 1) nots l = some s ∧
      (Leida .primary φ d (cuelga nots .null) l s ∨
        nots = [] ∧ s = ⟨.crNoerr, .null, l⟩ ∧ noEmpieza l.nextTok) := by
  have hrompe {t : Token} (htok : l.nextTok = t) (hand : t ≠ .crAnd) (hor : t ≠ .crOr) :
      rompe (φ, d) (.tok t) = false := rompe_tok hand hor (htok ▸ hl.known) _
  rw [parseprimary]
  split
  · next hopen =>
      have hlex := Lector.lexemas_tok hopen (List.cons_ne_nil _ _)
      rcases l.gettoken_cases with ⟨herr, hvale⟩ | ⟨herr, hunknown⟩
      · rw [hlex, List.length_cons] at hn
        obtain ⟨s, hs, hlee⟩ := h.orexpr (d + 1) l.gettoken.2 hvale (by omega)
        refine ⟨cierraGrupo nots s, ?_, .inl (grupo_spec hφ d hopen hvale hlee)⟩
        exact (if_neg (not_not.mpr herr)).trans (by rw [hs, Option.map_some])
      · have htramo : Tramo (φ, d) [.tok .crOpenparen] (cuelga nots .null) l (.inicio, d + 1)
            (cuelga nots .null) l.gettoken.2 :=
          .uno hlex (hφ.paso d _) (hrompe hopen nofun nofun) (hφ.desborda d _) rfl
        exact ⟨_, if_pos herr, .inl (.atasco htramo herr (.unknown hunknown nofun nofun rfl))⟩
  · next hnot =>
      have hlex := Lector.lexemas_tok hnot (List.cons_ne_nil _ _)
      have htramo : Tramo (φ, d) [.tok .crNot] (cuelga nots .null) l (.trasNot, d)
          (cuelga (l.nuevo :: nots) .null) l.malloc.gettoken.2 := by
        have hnodo := (Tramo.negacion (φ, d) l).en (contexto_cuelga nots)
        exact hnodo.trans (.uno hlex (hφ.paso d _) (hrompe hnot nofun nofun) (hφ.desborda d _) rfl)
      rcases l.gettoken_cases with ⟨herr, hvale⟩ | ⟨herr, hunknown⟩
      · rw [hlex, List.length_cons] at hn
        obtain ⟨s, hs, hlee | ⟨hnil, -⟩⟩ := h.primary (l.nuevo :: nots) .trasNot d
          l.malloc.gettoken.2 (.inr (.inr (.inr rfl))) (fun _ ↦ rfl) hvale.malloc
          (show 3 * l.gettoken.2.lexemas.length + 1 ≤ n by omega)
        · refine ⟨s, (if_neg (not_not.mpr herr)).trans hs, .inl ?_⟩
          rcases hlee with ⟨herr, hroot, hvale, hsigue, us, htramo', hus⟩ | ⟨herr, hatasco⟩
          · refine .inl ⟨herr, hroot, hvale, hsigue, _, htramo.trans htramo', fun hlibre ↦
              .not (hus ?_)⟩
            rw [alguno_append htramo.lee, Bool.or_eq_false_iff] at hlibre
            exact hlibre.2
          · exact .atasco htramo herr hatasco
        · cases hnil
      · exact ⟨_, if_pos herr, .inl (.atasco htramo herr (.unknown hunknown nofun nofun rfl))⟩
  · next hword =>
      have hpos : 0 < l.lexemas.length := by
        rw [Lector.lexemas_word hword]
        exact Nat.succ_pos _
      obtain ⟨s, hs, hlee⟩ := parsefunction_spec hφ d (n := n) (l := l) (by omega) hword
      refine ⟨_, by rw [hs, Option.map_some], .inl ?_⟩
      exact hlee.cuelga (fun _ ↦ id) (fun _ ↦ .function) nots
  · next hopen hnot hword =>
      refine ⟨_, rfl, ?_⟩
      by_cases hnil : nots = []
      · subst hnil
        exact .inr ⟨rfl, rfl, hword, hopen, hnot⟩
      · obtain rfl := hnots hnil
        obtain ⟨us, hlex⟩ := Lector.exists_lexemas hword
        rw [if_neg hnil]
        refine .inl (.inr ⟨nofun, .uno hlex ?_ ?_ (hφ.desborda d _) rfl⟩)
        · cases htok : l.nextTok with
          | crWord => exact absurd htok hword
          | crOpenparen => exact absurd htok hopen
          | crNot => exact absurd htok hnot
          | _ => rfl
        · cases htok : l.nextTok with
          | crUnknown => exact absurd htok hl.known
          | _ => rfl

/-- The recursion, by induction on the fuel. -/
theorem descenso (n : Nat) : Desciende n := by
  induction n with
  | zero =>
      exact ⟨fun d l _ h ↦ absurd h (by omega), fun m h ↦ absurd h (by omega),
        fun nots φ d l _ _ _ h ↦ absurd h (by omega)⟩
  | succ n ih => exact ⟨ih.sigue_orexpr, ih.sigue_andexpr, ih.sigue_primary⟩

/-! ## The rule -/

/-- What `crule_parse` has built, allocated and returned, in terms of the reading of the rule. -/
structure Analizada (rule : CStr) (a : Analisis) : Prop where
  malo : a.ruleroot.malo = alguno paso rompe comienzo (lexemas rule)
  sobra : a.ruleroot.sobra = alguno paso desborda comienzo (lexemas rule)
  bloques : a.ruleroot.bloques.Perm a.pedidos
  nodup : a.pedidos.Nodup
  nulo : a.valor = .null ↔ lee paso comienzo (lexemas rule) = none
  deriva : a.valor ≠ .null → alguno paso libertad comienzo (lexemas rule) = false →
    ∃ us, lexemas rule = us ++ [.tok .crEnd] ∧ Deriva .orexpr us
  libres : a.valor = .null →
    a.libres = if a.ruleroot ≠ .null then cruleFree a.ruleroot else some []

/-- The blocks of a parse from the start are those of its tree, each given out once. -/
theorem Suma.bloques {us : List Lexema} {rule : CStr} {r : Ptr} {l : Lector}
    (h : Suma comienzo us .null (inicial rule).gettoken.2 r l) :
    r.bloques.Perm l.pedidos ∧ l.pedidos.Nodup := by
  constructor
  · rw [List.perm_iff_count]
    intro a
    have hcuenta := h.cuenta a
    exact hcuenta.trans (Nat.zero_add _)
  · rw [h.correlativos rfl, List.nodup_reverse]
    exact List.nodup_range

theorem lexemas_inicial (rule : CStr) : lexemas rule = (inicial rule).gettoken.2.lexemas :=
  ((inicial rule).lexemas_gettoken).symm

/-- The rule is wrong. -/
theorem analizada_rechaza {rule : CStr} {r : Ptr} {l : Lector} (errcode : Errcode)
    (h : Atasco comienzo .null (inicial rule).gettoken.2 r l) :
    Analizada rule (rechaza errcode r l) where
  malo := by rw [lexemas_inicial]; exact h.malo
  sobra := by rw [lexemas_inicial]; exact h.sobra
  bloques := h.toSuma.bloques.1
  nodup := h.toSuma.bloques.2
  nulo := by
    rw [lexemas_inicial]
    exact ⟨fun _ ↦ h.lee, fun _ ↦ rfl⟩
  deriva hne := absurd rfl hne
  libres _ := rfl

/-- The rule is right. -/
theorem analizada_acepta {rule : CStr} {us : List Lexema} {s : Salida}
    (h : Tramo comienzo us .null (inicial rule).gettoken.2 (.hecho, 0) s.root s.lector)
    (hend : s.lector.nextTok = .crEnd) (hroot : s.root ≠ .null)
    (hus : alguno paso libertad comienzo us = false → Deriva .orexpr us) :
    Analizada rule ⟨s.root, .crNoerr, s.root, s.lector.pedidos, some []⟩ := by
  have hlex : lexemas rule = us ++ [.tok .crEnd] := by
    rw [lexemas_inicial, h.lexemas, Lector.lexemas, hend]
    rfl
  have hlee : lee paso comienzo (lexemas rule) = some (.acabada, 0) := by
    rw [hlex, lee_append, h.lee]
    rfl
  refine ⟨?_, ?_, h.toSuma.bloques.1, h.toSuma.bloques.2, ?_, fun _ hlibre ↦ ?_, fun hnull ↦ ?_⟩
  · rw [hlex, alguno_append h.lee, alguno_uno]
    exact h.malo.trans (Bool.or_false _).symm
  · rw [hlex, alguno_append h.lee, alguno_uno]
    exact h.sobra.trans (Bool.or_false _).symm
  · rw [hlee]
    refine ⟨fun hnull ↦ absurd hnull hroot, fun hmala ↦ ?_⟩
    cases hmala
  · rw [hlex, alguno_append h.lee, Bool.or_eq_false_iff] at hlibre
    exact ⟨us, hlex, hus hlibre.1⟩
  · exact absurd hnull hroot

/-- `crule_parse` ends on every rule. -/
theorem cruleParse_spec (rule : CStr) : ∃ a, cruleParse rule = some a ∧ Analizada rule a := by
  obtain ⟨l, hl⟩ : ∃ l, l = (inicial rule).gettoken.2 := ⟨_, rfl⟩
  have hlexemas : lexemas rule = l.lexemas := by
    rw [hl, (inicial rule).lexemas_gettoken]
    rfl
  rcases (inicial rule).gettoken_cases with ⟨herr, hvale⟩ | ⟨herr, hunknown⟩
  · have hlength := length_lexemas rule
    rw [hlexemas] at hlength
    rw [← hl] at hvale
    obtain ⟨s, hs, hlee⟩ := (descenso (3 * (rule.length + 2))).orexpr 0 l hvale (by omega)
    refine ⟨concluye s, (if_neg (not_not.mpr herr)).trans (by rw [← hl, hs, Option.map_some]), ?_⟩
    rcases hlee with (⟨herr, hroot, hvale', hsigue, us, htramo, hus⟩ | ⟨herr, hatasco⟩) |
      ⟨rfl, hnada, hor⟩
    · rw [concluye, if_neg (not_not.mpr herr), if_neg hroot]
      by_cases hend : s.lector.nextTok = .crEnd
      · rw [if_neg (not_not.mpr hend)]
        exact analizada_acepta (hl ▸ htramo) hend hroot hus
      · rw [if_pos hend]
        refine analizada_rechaza _ (hl ▸ htramo.atasco ?_)
        obtain ⟨hor, hand⟩ := not_or.mp hsigue
        by_cases hword : s.lector.nextTok = .crWord
        · exact .uno (Lector.lexemas_word hword) rfl (rompe_palabra _ _) rfl rfl
        · obtain ⟨vs, hlex⟩ := Lector.exists_lexemas hword
          refine .uno hlex ?_ (rompe_tok hand hor hvale'.known _) rfl rfl
          cases htok : s.lector.nextTok with
          | crAnd => exact absurd htok hand
          | crOr => exact absurd htok hor
          | crEnd => exact absurd htok hend
          | _ => rfl
    · rw [concluye, if_pos herr]
      exact analizada_rechaza _ (hl ▸ hatasco)
    · obtain ⟨⟨hword, hopen, hnot⟩, hand⟩ := hnada
      obtain ⟨us, hlex⟩ := Lector.exists_lexemas hword
      refine analizada_rechaza _ (hl ▸ .uno hlex ?_ (rompe_tok hand hor hvale.known _) rfl rfl)
      cases htok : l.nextTok with
      | crOpenparen => exact absurd htok hopen
      | crNot => exact absurd htok hnot
      | crAnd => exact absurd htok hand
      | crOr => exact absurd htok hor
      | _ => rfl
  · exact ⟨_, if_pos herr, analizada_rechaza _ (.unknown hunknown nofun nofun rfl)⟩

end Ircd.Crule
