import Ircd.Bdd.Alta

/-!
# Record lines

A `Linea t` is a line of the file of the table `t`: serial, target, table and, behind a blank, the
rest of the line with the key and the value. `Linea.texto` is its text. The tokenizer of `db_alta`
finds the same record in it with and without the line end (`parteRegistro_texto`). In a well-formed
line the rest is one key and at most one value (`Linea.BienFormada`); lines made of messages can
have other rests.
-/

namespace Ircd.Bdd

open CString Match

/-- The parts of a line of the table `t`. Old lines of the table of nicks are marked `N`. -/
structure Linea (t : Char) where
  serie : Nat
  destino : CStr
  tabla : Char
  cola : CStr
  serie_lt : serie < 2 ^ 32
  destino_campo : Word destino
  tabla_eq : tabla = t ∨ tabla = 'N' ∧ t = 'n'
  tabla_campo : Word [tabla]
  cola_plain : Plain cola

variable {t : Char}

theorem word_estrella : Word ['*'] := by decide

/-- A line for all servers. -/
def Linea.paraTodos (t : Char) (ht : Word [t]) (serie : Nat) (hserie : serie < 2 ^ 32) (cola : CStr)
    (hcola : Plain cola) : Linea t where
  serie := serie
  destino := ['*']
  tabla := t
  cola := cola
  serie_lt := hserie
  destino_campo := word_estrella
  tabla_eq := .inl rfl
  tabla_campo := ht
  cola_plain := hcola

/-- The text of a line without its line end. -/
def Linea.texto (l : Linea t) : CStr :=
  decimal l.serie ++ ' ' :: (l.destino ++ ' ' :: (l.tabla :: ' ' :: l.cola))

/-- The record of a line, if it has a key. -/
def Linea.registro (l : Linea t) : Option Registro :=
  match strtok [' ', '\r', '\n'] l.cola with
  | (none, _) => none
  | (some clave, s) => some ⟨decimal l.serie, l.destino, clave, (strtok ['\r', '\n'] s).1⟩

/-- The text of a file of lines. -/
def textoFichero (ls : List (Linea t)) : CStr :=
  ls.flatMap fun l ↦ l.texto ++ ['\n']

@[simp] theorem textoFichero_nil : textoFichero ([] : List (Linea t)) = [] := rfl

@[simp] theorem textoFichero_cons (l : Linea t) (ls : List (Linea t)) :
    textoFichero (l :: ls) = l.texto ++ '\n' :: textoFichero ls := by
  simp [textoFichero]

theorem textoFichero_append (ls ms : List (Linea t)) :
    textoFichero (ls ++ ms) = textoFichero ls ++ textoFichero ms := by
  simp [textoFichero]

/-- There is no line end inside a line. -/
theorem Linea.plain (l : Linea t) : Plain l.texto := by
  have hblanco : Plain [' '] := by decide
  have htexto : l.texto = decimal l.serie ++ ([' '] ++ (l.destino ++ ([' '] ++ ([l.tabla] ++
      ([' '] ++ l.cola))))) := by
    simp [Linea.texto]
  rw [htexto]
  simp only [plain_append]
  exact ⟨(word_decimal l.serie).2.2, hblanco, l.destino_campo.2.2, hblanco, l.tabla_campo.2.2,
    hblanco, l.cola_plain⟩

/-- A line begins with a digit. -/
theorem Linea.texto_cons (l : Linea t) : ∃ c rest, c.isDigit = true ∧ l.texto = c :: rest := by
  obtain ⟨c, cs, hcs⟩ := List.exists_cons_of_ne_nil (decimal_ne_nil l.serie)
  have hmem : c ∈ decimal l.serie := by simp [hcs]
  refine ⟨c, cs ++ ' ' :: (l.destino ++ ' ' :: (l.tabla :: ' ' :: l.cola)),
    isDigit_of_mem_decimal hmem, ?_⟩
  simp [Linea.texto, hcs]

/-- The serial of a line is read back from its beginning. -/
theorem Linea.atol_texto (l : Linea t) (rest : CStr) :
    toUnsigned (atol (l.texto ++ rest)) = l.serie := by
  have hlt := l.serie_lt
  rw [Linea.texto, List.append_assoc, List.cons_append,
    atol_decimal_append (by omega) rfl, toUnsigned_of_lt hlt]

/-- The serial of a line as a token. -/
theorem Linea.atol_serie (l : Linea t) : toUnsigned (atol (decimal l.serie)) = l.serie := by
  have hlt := l.serie_lt
  have hatol : atol (decimal l.serie ++ []) = l.serie := atol_decimal_append (by omega) rfl
  rw [List.append_nil] at hatol
  rw [hatol, toUnsigned_of_lt hlt]

/-- The serial and the target of the record of a line. -/
theorem Linea.registro_eq {l : Linea t} {p : Registro} (h : l.registro = some p) :
    p.serie = decimal l.serie ∧ p.destino = l.destino := by
  unfold Linea.registro at h
  split at h
  · cases h
  · obtain rfl := Option.some.inj h
    exact ⟨rfl, rfl⟩

/-- The tokenizer finds the record of a line, whether the line end was cut off or not. -/
theorem parteRegistro_texto (l : Linea t) {fin : CStr} (hfin : ∀ c ∈ fin, c = '\r' ∨ c = '\n') :
    parteRegistro (l.texto ++ fin) = l.registro := by
  have hblanco : ∀ c ∈ [' '], c = ' ' ∨ c = '\r' ∨ c = '\n' := by simp
  have hserie := (word_decimal l.serie).field hblanco
  have hdestino := l.destino_campo.field hblanco
  have htabla := l.tabla_campo.field hblanco
  have htexto : l.texto ++ fin = decimal l.serie ++ ' ' :: (l.destino ++ ' ' ::
      ([l.tabla] ++ ' ' :: (l.cola ++ fin))) := by
    simp [Linea.texto]
  have hclave : ∀ c ∈ fin, c ∈ [' ', '\r', '\n'] := fun c hc ↦ by
    rcases hfin c hc with rfl | rfl <;> decide
  obtain ⟨fin', hfin', hcola⟩ := strtok_append_end l.cola hclave
  have hvalor : ∀ c ∈ fin', c ∈ ['\r', '\n'] := fun c hc ↦
    List.mem_pair.mpr (hfin c (hfin' c hc))
  obtain ⟨fin'', -, hresto⟩ := strtok_append_end (strtok [' ', '\r', '\n'] l.cola).2 hvalor
  simp only [parteRegistro, htexto, strtok_append _ hserie (List.mem_singleton_self ' '),
    strtok_append _ hdestino (List.mem_singleton_self ' '),
    strtok_append _ htabla (List.mem_singleton_self ' '), hcola, hresto, Linea.registro]
  rcases strtok [' ', '\r', '\n'] l.cola with ⟨_ | clave, s⟩ <;> rfl

/-! ## Well-formed lines -/

/-- The value at the end of a line, with the blank before it. -/
def textoValor : Option CStr → CStr
  | none => []
  | some v => ' ' :: v

/-- The rest of the line is a key and, behind one blank, at most one value. -/
def Linea.Tiene (l : Linea t) (clave : CStr) (valor : Option CStr) : Prop :=
  Word clave ∧ (∀ v ∈ valor, v ≠ [] ∧ Plain v) ∧ l.cola = clave ++ textoValor valor

/-- The line has the form `serial target table key[ value]`. -/
def Linea.BienFormada (l : Linea t) : Prop :=
  ∃ clave valor, l.Tiene clave valor

/-- The record of a well-formed line. -/
theorem Linea.Tiene.registro {l : Linea t} {clave : CStr} {valor : Option CStr}
    (h : l.Tiene clave valor) : l.registro = some ⟨decimal l.serie, l.destino, clave, valor⟩ := by
  obtain ⟨hclave, hvalor, hcola⟩ := h
  have hcampo := hclave.field (show ∀ c ∈ [' ', '\r', '\n'], c = ' ' ∨ c = '\r' ∨ c = '\n' by simp)
  rw [Linea.registro, hcola]
  cases valor with
  | none =>
      rw [textoValor, strtok_append_delims hcampo (by simp)]
      rfl
  | some v =>
      obtain ⟨hne, hplain⟩ := hvalor v rfl
      have hfield : Field ['\r', '\n'] v := by
        refine ⟨hne, fun c hc hmem ↦ ?_⟩
        rcases List.mem_pair.mp hmem with rfl | rfl
        exacts [hplain.2.1 hc, hplain.1 hc]
      have hself := strtok_append_delims hfield (show ∀ c ∈ [], c ∈ ['\r', '\n'] by simp)
      rw [List.append_nil] at hself
      rw [textoValor, strtok_append _ hcampo (List.mem_cons_self ..)]
      simp only [hself]

end Ircd.Bdd
