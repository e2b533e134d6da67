/-!
# Runs of a state machine

A machine is a function that takes an input and a state to the next state, and a run is a list of
inputs. `EveryStep Q` states that each step of a run satisfies `Q`, a relation between its input and
the state before it. `everyStep_of_invariant` and `everyStep_iff` are the induction rules: what a
step from a good state preserves or decides, a run preserves or decides.
-/

namespace Run

universe u v

variable {σ : Type u} {α : Type v} (step : α → σ → σ)

/-- The state after a run. -/
def final (s : σ) : List α → σ
  | [] => s
  | a :: l => final (step a s) l

/-- Every step of a run satisfies `Q`. -/
def EveryStep (Q : α → σ → Prop) (s : σ) : List α → Prop
  | [] => True
  | a :: l => Q a s ∧ EveryStep Q (step a s) l

variable {step} {P : σ → Prop} {Q G : α → σ → Prop}

@[simp] theorem final_nil (s : σ) : final step s [] = s := rfl

@[simp] theorem final_cons (s : σ) (a : α) (l : List α) :
    final step s (a :: l) = final step (step a s) l := rfl

@[simp] theorem everyStep_nil (s : σ) : EveryStep step Q s [] := trivial

@[simp] theorem everyStep_cons (s : σ) (a : α) (l : List α) :
    EveryStep step Q s (a :: l) ↔ Q a s ∧ EveryStep step Q (step a s) l := .rfl

theorem final_append (s : σ) (l m : List α) :
    final step s (l ++ m) = final step (final step s l) m := by
  induction l generalizing s with
  | nil => rfl
  | cons a l ih => exact ih (step a s)

theorem everyStep_append (s : σ) (l m : List α) :
    EveryStep step Q s (l ++ m) ↔
      EveryStep step Q s l ∧ EveryStep step Q (final step s l) m := by
  induction l generalizing s with
  | nil => simp
  | cons a l ih => simp [ih, and_assoc]

instance everyStepDecidable [∀ a s, Decidable (Q a s)] :
    ∀ (s : σ) (l : List α), Decidable (EveryStep step Q s l)
  | _, [] => inferInstanceAs (Decidable True)
  | s, a :: l =>
      have := everyStepDecidable (step a s) l
      inferInstanceAs (Decidable (Q a s ∧ EveryStep step Q (step a s) l))

/-- A property of all steps. -/
theorem everyStep_of_forall (h : ∀ a s, Q a s) {s : σ} {l : List α} : EveryStep step Q s l := by
  induction l generalizing s with
  | nil => trivial
  | cons a l ih => exact ⟨h a s, ih⟩

/-- Two properties of every step. -/
theorem everyStep_and {Q' : α → σ → Prop} {s : σ} {l : List α} (h : EveryStep step Q s l)
    (h' : EveryStep step Q' s l) : EveryStep step (fun a s ↦ Q a s ∧ Q' a s) s l := by
  induction l generalizing s with
  | nil => trivial
  | cons a l ih => exact ⟨⟨h.1, h'.1⟩, ih h.2 h'.2⟩

/-- An invariant that guarded steps preserve holds at the end of a guarded run. -/
theorem invariant_final (hstep : ∀ a s, P s → G a s → P (step a s)) {s : σ} {l : List α}
    (hs : P s) (hl : EveryStep step G s l) : P (final step s l) := by
  induction l generalizing s with
  | nil => exact hs
  | cons a l ih => exact ih (hstep a s hs hl.1) hl.2

/-- What guarded steps from good states satisfy, every step of a guarded run satisfies. -/
theorem everyStep_of_invariant (hstep : ∀ a s, P s → G a s → P (step a s))
    (hQ : ∀ a s, P s → G a s → Q a s) {s : σ} {l : List α} (hs : P s)
    (hl : EveryStep step G s l) : EveryStep step Q s l := by
  induction l generalizing s with
  | nil => trivial
  | cons a l ih => exact ⟨hQ a s hs hl.1, ih (hstep a s hs hl.1) hl.2⟩

/-- A run is no longer than what its steps use up. -/
theorem length_le_of_measure {μ : σ → Nat} (hstep : ∀ a s, P s → G a s → P (step a s))
    (hμ : ∀ a s, P s → G a s → μ (step a s) < μ s) {s : σ} {l : List α} (hs : P s)
    (hl : EveryStep step G s l) : l.length ≤ μ s := by
  induction l generalizing s with
  | nil => exact Nat.zero_le _
  | cons a l ih =>
      have hnext := ih (hstep a s hs hl.1) hl.2
      have hless := hμ a s hs hl.1
      rw [List.length_cons]
      omega

/-- A property of steps that implies the invariant, and that in good states is equivalent to the
guard, holds along exactly the guarded runs. -/
theorem everyStep_iff (hP : ∀ a s, P s → Q a s → P (step a s))
    (hQG : ∀ a s, P s → (Q a s ↔ G a s)) {s : σ} {l : List α} (hs : P s) :
    EveryStep step Q s l ↔ EveryStep step G s l := by
  constructor
  · exact everyStep_of_invariant hP (fun a s hs hq ↦ (hQG a s hs).mp hq) hs
  · exact everyStep_of_invariant (fun a s hs hg ↦ hP a s hs ((hQG a s hs).mpr hg))
      (fun a s hs hg ↦ (hQG a s hs).mpr hg) hs

/-- `everyStep_iff` for the runs whose steps all satisfy another property. -/
theorem everyStep_iff_of_everyStep {L : α → σ → Prop}
    (hP : ∀ a s, P s → L a s → Q a s → P (step a s))
    (hQG : ∀ a s, P s → L a s → (Q a s ↔ G a s)) {s : σ} {l : List α} (hs : P s)
    (hl : EveryStep step L s l) : EveryStep step Q s l ↔ EveryStep step G s l := by
  induction l generalizing s with
  | nil => exact Iff.rfl
  | cons a l ih =>
      rw [everyStep_cons, everyStep_cons, hQG a s hs hl.1]
      refine and_congr_right fun hg ↦ ?_
      exact ih (hP a s hs hl.1 ((hQG a s hs hl.1).mpr hg)) hl.2

end Run
