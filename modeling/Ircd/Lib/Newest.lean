import Mathlib.Data.Int.Order.Basic
import Mathlib.Logic.Function.Basic

/-!
# Registers that keep the newest value

A register for each key holds a value with a time or nothing. `put` writes a value when it is newer
than the one that is there, so of two values of one time the first stays. `puts` writes a list of
values in order. What is as new as all that is written stays (`puts_of_atLeast`); what a register
holds in the end was there before or is one of the values for its key that were newer
(`puts_eq_or`), and it is at least as new as each of them (`atLeast_puts`).
-/

namespace Newest

universe u v

variable {κ : Type u} {ν : Type v} (time : ν → Int)

/-- What the register holds is at least as new as a value. -/
def AtLeast (x : Option ν) (v : ν) : Prop :=
  ∃ w ∈ x, time v ≤ time w

/-- The newer of two values. The second one stays when they have one time. -/
def newer (x y : Option ν) : Option ν :=
  match x, y with
  | none, y => y
  | x, none => x
  | some v, some w => if time v ≤ time w then some w else some v

section

variable {time} {x y : Option ν} {v w : ν}

@[simp] theorem newer_none (y : Option ν) : newer time none y = y := rfl

theorem newer_of_atLeast (h : AtLeast time y v) : newer time (some v) y = y := by
  obtain ⟨w, hw, hle⟩ := h
  rw [Option.mem_def] at hw
  rw [hw, newer, if_pos hle]

theorem newer_of_not_atLeast (h : ¬AtLeast time y v) : newer time (some v) y = some v := by
  cases y with
  | none => rfl
  | some w =>
      have hlt : ¬time v ≤ time w := fun hle ↦ h ⟨w, rfl, hle⟩
      rw [newer, if_neg hlt]

/-- The newer value is at least as new as the first one. -/
theorem atLeast_newer (y : Option ν) (v : ν) : AtLeast time (newer time (some v) y) v := by
  by_cases h : AtLeast time y v
  · rwa [newer_of_atLeast h]
  · rw [newer_of_not_atLeast h]
    exact ⟨v, rfl, le_refl _⟩

/-- A register does not lose what is new. -/
theorem AtLeast.newer (h : AtLeast time y w) (v : ν) :
    AtLeast time (Newest.newer time (some v) y) w := by
  by_cases hv : AtLeast time y v
  · rwa [newer_of_atLeast hv]
  · obtain ⟨u, hu, hle⟩ := h
    rw [newer_of_not_atLeast hv]
    refine ⟨v, rfl, le_trans hle ?_⟩
    by_contra hlt
    exact hv ⟨u, hu, le_of_lt (not_le.mp hlt)⟩

/-- A merge that keeps the second value. -/
theorem newer_eq_right (h : newer time x y = y) : ∀ v ∈ x, AtLeast time y v := by
  rintro v hv
  rw [Option.mem_def] at hv
  subst hv
  by_contra hno
  rw [newer_of_not_atLeast hno] at h
  exact hno ⟨v, h.symm, le_refl _⟩

/-- What a merge gives is one of the two. -/
theorem newer_eq_or (time : ν → Int) (x y : Option ν) : newer time x y = y ∨ newer time x y = x := by
  cases x with
  | none => exact Or.inl rfl
  | some v =>
      by_cases h : AtLeast time y v
      · exact Or.inl (newer_of_atLeast h)
      · exact Or.inr (newer_of_not_atLeast h)

end

variable [DecidableEq κ]

/-- A value is written when it is newer. -/
def put (k : κ) (v : ν) (m : κ → Option ν) : κ → Option ν :=
  Function.update m k (newer time (some v) (m k))

/-- Values are written in order. -/
def puts (l : List (κ × ν)) (m : κ → Option ν) : κ → Option ν :=
  l.foldl (fun m e ↦ put time e.1 e.2 m) m

variable {time} {m : κ → Option ν} {l : List (κ × ν)} {k : κ} {v w : ν}

@[simp] theorem puts_nil : puts time [] m = m := rfl

@[simp] theorem puts_cons (e : κ × ν) :
    puts time (e :: l) m = puts time l (put time e.1 e.2 m) := rfl

/-- A value that is not newer is not written. -/
theorem put_of_atLeast (h : AtLeast time (m k) v) : put time k v m = m := by
  rw [put, newer_of_atLeast h, Function.update_eq_self]

/-- What is new stays when a value is written. -/
theorem AtLeast.put (h : AtLeast time (m k) v) (j : κ) (w : ν) :
    AtLeast time (Newest.put time j w m k) v := by
  by_cases hk : k = j
  · subst hk
    rw [Newest.put, Function.update_self]
    exact h.newer w
  · rwa [Newest.put, Function.update_of_ne hk]

theorem AtLeast.puts (h : AtLeast time (m k) v) (l : List (κ × ν)) :
    AtLeast time (Newest.puts time l m k) v := by
  induction l generalizing m with
  | nil => exact h
  | cons e l ih => exact ih (h.put e.1 e.2)

/-- A register is at least as new as each value that was written to it. -/
theorem atLeast_puts (h : (k, v) ∈ l) : AtLeast time (puts time l m k) v := by
  induction l generalizing m with
  | nil => cases h
  | cons e l ih =>
      rcases List.mem_cons.mp h with rfl | h
      · refine AtLeast.puts ?_ l
        show AtLeast time (put time k v m k) v
        rw [put, Function.update_self]
        exact atLeast_newer (m k) v
      · exact ih h

/-- Registers that are as new as all that is written stay as they are. -/
theorem puts_of_atLeast (h : ∀ e ∈ l, AtLeast time (m e.1) e.2) : puts time l m = m := by
  induction l with
  | nil => rfl
  | cons e l ih =>
      rw [puts_cons, put_of_atLeast (h e (by simp))]
      exact ih fun e he ↦ h e (by simp [he])

/-- What a register holds in the end. -/
theorem puts_eq_or (time : ν → Int) (l : List (κ × ν)) (m : κ → Option ν) (k : κ) :
    puts time l m k = m k ∨
      ∃ v, (k, v) ∈ l ∧ ¬AtLeast time (m k) v ∧ puts time l m k = some v := by
  induction l generalizing m with
  | nil => exact Or.inl rfl
  | cons e l ih =>
      obtain ⟨j, w⟩ := e
      rw [puts_cons]
      by_cases hk : k = j
      · subst hk
        have hself : put time k w m k = newer time (some w) (m k) := Function.update_self ..
        by_cases hw : AtLeast time (m k) w
        · rw [put_of_atLeast hw]
          exact (ih m).imp id fun ⟨v, hv, hno, heq⟩ ↦ ⟨v, by simp [hv], hno, heq⟩
        · rw [newer_of_not_atLeast hw] at hself
          refine Or.inr ?_
          rcases ih (put time k w m) with heq | ⟨v, hv, hno, heq⟩
          · exact ⟨w, by simp, hw, heq.trans hself⟩
          · -- The last value is newer than the first, and so than what was there before.
            refine ⟨v, by simp [hv], fun hold ↦ hno (hold.put k w), heq⟩
      · have hother : put time j w m k = m k := Function.update_of_ne hk ..
        rcases ih (put time j w m) with heq | ⟨v, hv, hno, heq⟩
        · exact Or.inl (heq.trans hother)
        · exact Or.inr ⟨v, by simp [hv], by rwa [hother] at hno, heq⟩

end Newest
