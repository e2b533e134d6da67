import Mathlib.Data.List.Nodup
import Mathlib.Data.List.Perm.Basic
import Mathlib.Logic.Function.Basic

/-!
# Lists of partners

Each element of two types keeps the list of its partners of the other type. `Incidence a b` says that
no list has a partner twice and that both sides agree on who is linked to whom. A link is made and
taken away on both sides.
-/

universe u v

variable {α : Type u} {β : Type v}

/-- The lists of both sides agree. -/
structure Incidence (a : α → List β) (b : β → List α) : Prop where
  nodup_left : ∀ x, (a x).Nodup
  nodup_right : ∀ y, (b y).Nodup
  mem_iff : ∀ x y, y ∈ a x ↔ x ∈ b y

namespace Incidence

variable {a : α → List β} {b : β → List α} {x : α} {y : β}

/-- Nobody is linked. -/
theorem empty : Incidence (fun _ : α ↦ ([] : List β)) fun _ ↦ [] :=
  ⟨fun _ ↦ List.nodup_nil, fun _ ↦ List.nodup_nil, fun _ _ ↦ by simp⟩

variable [DecidableEq α] [DecidableEq β]

omit [DecidableEq β] in
/-- The lists of one side after a change at one element. -/
theorem nodup_update (h : ∀ x, (a x).Nodup) {l : List β} (hl : l.Nodup) (x z : α) :
    (Function.update a x l z).Nodup := by
  by_cases hz : z = x
  · subst hz
    rwa [Function.update_self]
  · rw [Function.update_of_ne hz]
    exact h z

omit [DecidableEq β] in
theorem mem_update {l : List β} {z : α} {w : β} :
    w ∈ Function.update a x l z ↔ if z = x then w ∈ l else w ∈ a z := by
  by_cases hz : z = x
  · subst hz
    rw [Function.update_self, if_pos rfl]
  · rw [Function.update_of_ne hz, if_neg hz]

/-- A new link, at any place of the two lists. -/
theorem link (h : Incidence a b) (hy : y ∉ a x) {l : List β} {m : List α} (hl : l.Perm (y :: a x))
    (hm : m.Perm (x :: b y)) : Incidence (Function.update a x l) (Function.update b y m) where
  nodup_left := nodup_update h.nodup_left
    (hl.nodup_iff.mpr (List.nodup_cons.mpr ⟨hy, h.nodup_left x⟩)) x
  nodup_right := nodup_update h.nodup_right
    (hm.nodup_iff.mpr (List.nodup_cons.mpr ⟨mt (h.mem_iff x y).mpr hy, h.nodup_right y⟩)) y
  mem_iff z w := by
    rw [mem_update, mem_update, hl.mem_iff, hm.mem_iff, List.mem_cons, List.mem_cons]
    by_cases hz : z = x <;> by_cases hw : w = y <;> simp [hz, hw, h.mem_iff]

/-- A link is taken away on both sides. -/
theorem unlink (h : Incidence a b) (x : α) (y : β) :
    Incidence (Function.update a x ((a x).erase y)) (Function.update b y ((b y).erase x)) where
  nodup_left := nodup_update h.nodup_left ((h.nodup_left x).erase y) x
  nodup_right := nodup_update h.nodup_right ((h.nodup_right y).erase x) y
  mem_iff z w := by
    rw [mem_update, mem_update, (h.nodup_left x).mem_erase_iff, (h.nodup_right y).mem_erase_iff]
    by_cases hz : z = x <;> by_cases hw : w = y <;> simp [hz, hw, h.mem_iff]

end Incidence
