import Mathlib.Data.List.Nodup
import Mathlib.Data.List.Count
import Mathlib.Tactic.Common

/-!
# Pins

A pin is a pair of a holder and an object that it holds. `weight` counts the pins of the objects
that a predicate selects and `holders` those of one object, which is what reference counts are
compared with. `weight_add` says what becomes of the first when one object changes its standing, and
`holders_le` bounds the second when no holder pins an object twice.
-/

namespace Pins

section

variable {ε : Type*} {l : List (Nat × ε)} {w w' : ε → Bool} {a : Nat × ε}

/-- The number of pins of the objects that `w` selects. -/
def weight (w : ε → Bool) (l : List (Nat × ε)) : Nat :=
  l.countP fun a ↦ w a.2

theorem weight_pos : 0 < weight w l ↔ ∃ a ∈ l, w a.2 = true :=
  List.countP_pos_iff

theorem weight_cons : weight w (a :: l) = weight w l + if w a.2 then 1 else 0 :=
  List.countP_cons

/-- Predicates that agree on the objects held have the same weight. -/
theorem weight_congr (h : ∀ a ∈ l, w a.2 = w' a.2) : weight w l = weight w' l :=
  List.countP_congr fun a ha ↦ by rw [h a ha]

/-- A predicate that selects more has more weight. -/
theorem weight_mono (h : ∀ a ∈ l, w a.2 = true → w' a.2 = true) : weight w l ≤ weight w' l :=
  List.countP_mono_left h

end

variable {ε : Type*} [DecidableEq ε] {l : List (Nat × ε)} {w w' : ε → Bool} {a : Nat × ε} {e : ε}

/-- The number of pins of an object. -/
def holders (l : List (Nat × ε)) (e : ε) : Nat :=
  weight (fun d ↦ d = e) l

theorem holders_pos : 0 < holders l e ↔ ∃ k, (k, e) ∈ l := by
  simp [holders, weight_pos]

theorem holders_cons : holders (a :: l) e = holders l e + if a.2 = e then 1 else 0 := by
  simp [holders, weight_cons]

/-- A pin that goes. -/
theorem weight_erase (ha : a ∈ l) :
    weight w l = weight w (l.erase a) + if w a.2 then 1 else 0 := by
  rw [← weight_cons]
  exact (List.perm_cons_erase ha).countP_eq _

/-- `weight_erase` for one object. -/
theorem holders_erase (ha : a ∈ l) :
    holders l e = holders (l.erase a) e + if a.2 = e then 1 else 0 := by
  rw [holders, weight_erase ha, ← holders]
  simp

/-- One object changes its standing: its pins leave one side and come to the other. -/
theorem weight_add (h : ∀ d ≠ e, w d = w' d) :
    weight w l + (if w' e then holders l e else 0) =
      weight w' l + if w e then holders l e else 0 := by
  induction l with
  | nil => simp [weight, holders]
  | cons a l ih =>
      rw [weight_cons, weight_cons, holders_cons]
      by_cases ha : a.2 = e
      · rw [if_pos ha, ha]
        cases hw : w e <;> cases hw' : w' e <;> simp only [hw, hw'] at ih ⊢ <;> simp at ih ⊢ <;>
          omega
      · rw [if_neg ha, h a.2 ha, Nat.add_zero]
        omega

/-- An object has at most as many pins as there are holders, when none pins it twice. -/
theorem holders_le {n : Nat} (hl : l.Nodup) (hn : ∀ a ∈ l, a.1 < n) : holders l e ≤ n := by
  have hmap : (l.filter fun a ↦ a.2 = e).map (·.1) ⊆ List.range n := by
    intro k hk
    obtain ⟨a, ha, rfl⟩ := List.mem_map.mp hk
    exact List.mem_range.mpr (hn a (List.mem_of_mem_filter ha))
  have hnodup : ((l.filter fun a ↦ a.2 = e).map (·.1)).Nodup := by
    refine (hl.filter _).map_on fun a ha b hb hab ↦ ?_
    have ha₂ : a.2 = e := by simpa using List.of_mem_filter ha
    have hb₂ : b.2 = e := by simpa using List.of_mem_filter hb
    exact Prod.ext hab (ha₂.trans hb₂.symm)
  have hlen := (List.subperm_of_subset hnodup hmap).length_le
  rwa [List.length_map, List.length_range, ← List.countP_eq_length_filter] at hlen

end Pins
