import Ircd.Crule.Descenso

/-!
# The rules that are accepted

A rule that `crule_parse` accepts derives from the grammar unless it is read with one of five
liberties: a `&` or `|` that is dropped or parted from its pair by blanks, an operator without its
operand, an argument of several words, an empty argument and a comma at the end of the arguments.
`Derivable.evita` is the one half, `aceptada_derivable` the other; `gramatica_iff` puts them
together.
-/

namespace Ircd.Crule

open CString Reader

/-- `crule_parse` returns a tree. -/
def Aceptada (rule : CStr) : Prop :=
  ∃ a, cruleParse rule = some a ∧ a.valor ≠ .null

/-- The tokens of the rule can be read one after the other up to its end. -/
def Legible (rule : CStr) : Prop :=
  lee paso comienzo (lexemas rule) ≠ none

/-- Reading the rule takes a liberty. -/
def ConLibertades (rule : CStr) : Prop :=
  limpia rule = false ∨ alguno paso libertad comienzo (lexemas rule) = true

theorem aceptada_iff (rule : CStr) : Aceptada rule ↔ Legible rule := by
  obtain ⟨a, ha, h⟩ := cruleParse_spec rule
  constructor
  · rintro ⟨a', ha', hvalor⟩
    obtain rfl := Option.some.inj (ha.symm.trans ha')
    exact mt h.nulo.mpr hvalor
  · intro hleible
    exact ⟨a, ha, mt h.nulo.mp hleible⟩

/-! ## What the grammar derives is read without liberties -/

/-- The phases in which the reader meets what derives from a symbol. -/
def Simbolo.desde : Simbolo → Fase → Prop
  | .orexpr, φ => φ = .inicio ∨ φ = .trasOr
  | .andexpr, φ => φ = .inicio ∨ φ = .trasOr ∨ φ = .trasAnd
  | .primary, φ | .function, φ => φ.espera
  | .arglist, φ => ∃ f n, φ = .argumentos f n false

/-- The states in which it leaves it. -/
def Simbolo.hasta (d : Nat) : Simbolo → Estado → Prop
  | .arglist, e => ∃ f n, e = (.argumentos f n true, d)
  | _, e => e = (.hecho, d)

/-- A token that is no operator takes no liberty where an operand is due. -/
theorem Fase.espera.libertad {φ : Fase} (h : φ.espera) (d : Nat) {a : Lexema}
    (hand : a ≠ .tok .crAnd) (hor : a ≠ .tok .crOr) : libertad (φ, d) a = false := by
  rcases h with rfl | rfl | rfl | rfl <;>
    simp [Crule.libertad, sinOperando, dosPalabras, argumentoVacio, hand, hor]

theorem Simbolo.espera_of_andexpr {φ : Fase} (h : Simbolo.andexpr.desde φ) : φ.espera := by
  rcases h with h | h | h
  · exact .inl h
  · exact .inr (.inl h)
  · exact .inr (.inr (.inl h))

/-- A parenthesis is closed. -/
theorem evita_cierra {e e' : Estado} (hlibre : libertad e (.tok .crCloseparen) = false)
    (hpaso : paso e (.tok .crCloseparen) = some e') :
    Evita paso libertad e [.tok .crCloseparen] fun t ↦ t = e' := by
  refine .cons hlibre fun t ht ↦ .nil ?_
  exact Option.some.inj (ht.symm.trans hpaso)

/-- The arguments are closed, if their number is right. -/
theorem evita_argumentos {f : Funclistent} {n d : Nat} {hay : Bool}
    (hlibre : libertad (.argumentos f n hay, d) (.tok .crCloseparen) = false) :
    Evita paso libertad (.argumentos f n hay, d) [.tok .crCloseparen] fun t ↦ t = (.hecho, d) := by
  refine .cons hlibre fun t ht ↦ .nil ?_
  replace ht : (if f.reqnumargs ≠ (n + hay.toNat : Nat) ∧ f.reqnumargs ≠ -1 then none
    else some (.hecho, d)) = some t := ht
  split at ht
  · cases ht
  · exact (Option.some.inj ht).symm

/-- A name and the parenthesis after it are read, if there is such a function. -/
theorem evita_nombre {φ : Fase} {d : Nat} {w : CStr} {us : List Lexema} {q : Estado → Prop}
    (hφ : φ.espera) (h : ∀ f, Evita paso libertad (.argumentos f 0 false, d) us q) :
    Evita paso libertad (φ, d) (.palabra w :: .tok .crOpenparen :: us) q := by
  refine .cons (hφ.libertad d nofun nofun) fun t ht ↦ ?_
  rw [hφ.paso] at ht
  cases ht
  refine .cons rfl fun t ht ↦ ?_
  replace ht : (busca w).map (fun f ↦ (Fase.argumentos f 0 false, d)) = some t := ht
  obtain ⟨f, -, rfl⟩ := Option.map_eq_some_iff.mp ht
  exact h f

/-- What derives from the grammar is read without liberties, as far as it can be read. -/
theorem Deriva.evita {X : Simbolo} {us : List Lexema} (h : Deriva X us) (φ : Fase) (d : Nat)
    (hφ : X.desde φ) : Evita paso libertad (φ, d) us (X.hasta d) := by
  induction h generalizing φ d with
  | andexpr h ih => exact ih φ d (hφ.imp id .inl)
  | or h h' ih ih' =>
      refine (ih φ d (hφ.imp id .inl)).append fun e he ↦ ?_
      obtain rfl : e = (.hecho, d) := he
      refine .cons rfl fun t ht ↦ ?_
      cases ht
      exact ih' .trasOr d (.inr rfl)
  | primary h ih => exact ih φ d (Simbolo.espera_of_andexpr hφ)
  | and h h' ih ih' =>
      refine (ih φ d (Simbolo.espera_of_andexpr hφ)).append fun e he ↦ ?_
      obtain rfl : e = (.hecho, d) := he
      refine .cons rfl fun t ht ↦ ?_
      cases ht
      exact ih' .trasAnd d (.inr (.inr rfl))
  | function h ih => exact ih φ d hφ
  | not h ih =>
      refine .cons (Fase.espera.libertad hφ d nofun nofun) fun t ht ↦ ?_
      rw [Fase.espera.paso hφ] at ht
      cases ht
      exact ih .trasNot d (.inr (.inr (.inr rfl)))
  | paren h ih =>
      refine .cons (Fase.espera.libertad hφ d nofun nofun) fun t ht ↦ ?_
      rw [Fase.espera.paso hφ] at ht
      cases ht
      refine (ih .inicio (d + 1) (.inl rfl)).append fun e he ↦ ?_
      obtain rfl : e = (.hecho, d + 1) := he
      exact evita_cierra rfl rfl
  | vacia w =>
      exact evita_nombre hφ fun f ↦ evita_argumentos rfl
  | llamada w h ih =>
      refine evita_nombre hφ fun f ↦ (ih (.argumentos f 0 false) d ⟨f, 0, rfl⟩).append fun e he ↦ ?_
      obtain ⟨f, n, rfl⟩ := he
      exact evita_argumentos rfl
  | word w =>
      obtain ⟨f, n, rfl⟩ := hφ
      refine .cons rfl fun t ht ↦ ?_
      cases ht
      exact .nil ⟨f, n, rfl⟩
  | coma w h ih =>
      obtain ⟨f, n, rfl⟩ := hφ
      refine .cons rfl fun t ht ↦ .cons ?_ fun u hu ↦ ?_
      · cases ht
        rfl
      · cases ht
        cases hu
        exact ih _ d ⟨f, n + 1, rfl⟩

/-- A derivable rule is read without liberties. -/
theorem Derivable.evita {rule : CStr} (h : Derivable rule) : ¬ConLibertades rule := by
  obtain ⟨us, hderiva, hcaben, hescrito⟩ := h
  obtain ⟨hlex, hlimpia⟩ := hescrito.lexemas hcaben
  have hevita : Evita paso libertad comienzo (us ++ [.tok .crEnd]) fun _ ↦ True := by
    refine (hderiva.evita .inicio 0 (.inl rfl)).append fun e he ↦ ?_
    obtain rfl : e = (.hecho, 0) := he
    exact .cons rfl fun t _ ↦ .nil trivial
  rintro (h | h)
  · rw [hlimpia] at h
    cases h
  · rw [hlex] at h
    exact Bool.false_ne_true (hevita.1.symm.trans h)

/-- An accepted rule that is read without liberties is derivable. -/
theorem aceptada_derivable {rule : CStr} (h : Aceptada rule) (hlibre : ¬ConLibertades rule) :
    Derivable rule := by
  obtain ⟨a, ha, hvalor⟩ := h
  obtain ⟨a', ha', hspec⟩ := cruleParse_spec rule
  obtain rfl := Option.some.inj (ha.symm.trans ha')
  obtain ⟨hlimpia, hlibertad⟩ := not_or.mp hlibre
  obtain ⟨us, hlex, hderiva⟩ := hspec.deriva hvalor (Bool.eq_false_iff.mpr hlibertad)
  obtain ⟨hcaben, hescrito⟩ := escrito_of_lexemas rule (Bool.not_eq_false _ ▸ hlimpia) us hlex
  exact ⟨us, hderiva, hcaben, hescrito⟩

/-- What `crule_parse` accepts derives from the grammar, except for the rules that can be read to
their end while a liberty is taken. -/
theorem gramatica_iff (rule : CStr) :
    (Aceptada rule → Derivable rule) ↔ ¬(Legible rule ∧ ConLibertades rule) := by
  constructor
  · rintro h ⟨hlegible, hlibertades⟩
    exact (h ((aceptada_iff rule).mpr hlegible)).evita hlibertades
  · intro h haceptada
    exact aceptada_derivable haceptada fun hlibertades ↦
      h ⟨(aceptada_iff rule).mp haceptada, hlibertades⟩

/-- `||directop()` is accepted, but `||` has no operand before it. -/
theorem not_gramatica : ¬∀ rule, Aceptada rule → Derivable rule := by
  intro h
  have haceptada : Aceptada ['|', '|', 'd', 'i', 'r', 'e', 'c', 't', 'o', 'p', '(', ')'] :=
    ⟨_, rfl, nofun⟩
  refine (h _ haceptada).evita (.inr ?_)
  rw [(lexemas_tok (t := .crOr) (List.cons_ne_nil _ _) rfl).1]
  rfl

end Ircd.Crule
