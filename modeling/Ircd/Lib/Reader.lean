/-!
# Readers

A reader takes a state and a symbol to the next state, or sticks. `lee` is the state after a word
and `alguno` tells whether some symbol of it, up to the one where the reader sticks, is met as `p`
asks. Both go over an appended word as `lee_append`, `alguno_append` and `alguno_append_atascado`
say. `Evita` is the triple of a reader that keeps clear of such a symbol.
-/

namespace Reader

universe u v

variable {σ : Type u} {α : Type v} (paso : σ → α → Option σ)

/-- The state after a word, unless the reader sticks in it. -/
def lee (s : σ) : List α → Option σ
  | [] => some s
  | a :: l => (paso s a).bind fun t ↦ lee t l

/-- Some symbol is met in a state that `p` holds of, the one where the reader sticks included. -/
def alguno (p : σ → α → Bool) (s : σ) : List α → Bool
  | [] => false
  | a :: l => p s a || (paso s a).any fun t ↦ alguno p t l

variable {paso} {p : σ → α → Bool} {s t : σ} {a : α} {l m : List α}

@[simp] theorem lee_nil : lee paso s [] = some s := rfl

@[simp] theorem alguno_nil : alguno paso p s [] = false := rfl

theorem lee_cons (h : paso s a = some t) : lee paso s (a :: l) = lee paso t l := by
  rw [lee, h]
  rfl

theorem alguno_cons (h : paso s a = some t) :
    alguno paso p s (a :: l) = (p s a || alguno paso p t l) := by
  rw [alguno, h]
  rfl

/-- The reader sticks at the first symbol. -/
theorem lee_atascado (h : paso s a = none) : lee paso s (a :: l) = none := by
  rw [lee, h]
  rfl

theorem alguno_atascado (h : paso s a = none) : alguno paso p s (a :: l) = p s a := by
  rw [alguno, h]
  exact Bool.or_false _

theorem alguno_uno : alguno paso p s [a] = p s a := by
  cases hs : paso s a with
  | none => exact alguno_atascado hs
  | some t => rw [alguno_cons hs, alguno_nil, Bool.or_false]

theorem lee_append : lee paso s (l ++ m) = (lee paso s l).bind fun t ↦ lee paso t m := by
  induction l generalizing s with
  | nil => rfl
  | cons a l ih =>
      show (paso s a).bind _ = ((paso s a).bind _).bind _
      cases paso s a with
      | none => rfl
      | some t => exact ih

/-- What is met in a word that is read and then in what follows it. -/
theorem alguno_append (h : lee paso s l = some t) :
    alguno paso p s (l ++ m) = (alguno paso p s l || alguno paso p t m) := by
  induction l generalizing s with
  | nil =>
      cases h
      rfl
  | cons a l ih =>
      cases hs : paso s a with
      | none => rw [lee_atascado hs] at h; cases h
      | some u =>
          rw [List.cons_append, alguno_cons hs, alguno_cons hs, ih (lee_cons hs ▸ h),
            Bool.or_assoc]

/-- What follows a word in which the reader sticks is not met. -/
theorem alguno_append_atascado (h : lee paso s l = none) :
    alguno paso p s (l ++ m) = alguno paso p s l := by
  induction l generalizing s with
  | nil => cases h
  | cons a l ih =>
      cases hs : paso s a with
      | none => rw [List.cons_append, alguno_atascado hs, alguno_atascado hs]
      | some u => rw [List.cons_append, alguno_cons hs, alguno_cons hs, ih (lee_cons hs ▸ h)]

/-! ## Words that keep clear of a place -/

/-- No symbol of the word is met as `p` asks, and the reader is in a state of `q` if it has come to
its end. -/
def Evita (paso : σ → α → Option σ) (p : σ → α → Bool) (s : σ) (l : List α) (q : σ → Prop) : Prop :=
  alguno paso p s l = false ∧ ∀ t, lee paso s l = some t → q t

variable {q q' : σ → Prop}

theorem Evita.nil (h : q s) : Evita paso p s [] q := by
  refine ⟨rfl, fun t ht ↦ ?_⟩
  cases ht
  exact h

theorem Evita.cons (hp : p s a = false) (h : ∀ t, paso s a = some t → Evita paso p t l q) :
    Evita paso p s (a :: l) q := by
  cases hs : paso s a with
  | none =>
      refine ⟨(alguno_atascado hs).trans hp, fun t ht ↦ ?_⟩
      rw [lee_atascado hs] at ht
      cases ht
  | some t =>
      refine ⟨?_, fun u hu ↦ (h t hs).2 u (lee_cons hs ▸ hu)⟩
      rw [alguno_cons hs, hp, (h t hs).1]
      rfl

theorem Evita.append (h : Evita paso p s l q) (h' : ∀ t, q t → Evita paso p t m q') :
    Evita paso p s (l ++ m) q' := by
  cases hs : lee paso s l with
  | none =>
      refine ⟨(alguno_append_atascado hs).trans h.1, fun t ht ↦ ?_⟩
      rw [lee_append, hs] at ht
      cases ht
  | some t =>
      have hm := h' t (h.2 t hs)
      refine ⟨?_, fun u hu ↦ hm.2 u ?_⟩
      · rw [alguno_append hs, h.1, hm.1]
        rfl
      · rw [lee_append, hs] at hu
        exact hu

end Reader
