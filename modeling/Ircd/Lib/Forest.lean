import Mathlib.Data.Set.Insert
import Mathlib.Data.List.Basic

/-!
# Forests by parent pointers

A forest over a type is the function that gives a node its parent. `Below` is a node with everything
that hangs from it, a `Closed` set contains the children of its nodes, and `cut` takes the nodes of
a set out of a forest. Cutting what hangs from one node after the other is cutting the union
(`union_below_cut`). A list in which the parent of each node follows it (`Listed`) shows that there
are no cycles: the place in it grows from a node to its parent.
-/

namespace Forest

universe u

variable {ι : Type u} {parent : ι → Option ι} {S T : Set ι} {b c d x p : ι}

/-- A node and what hangs from it. -/
inductive Below (parent : ι → Option ι) (b : ι) : ι → Prop
  | refl : Below parent b b
  | step {x p : ι} (hx : parent x = some p) (hp : Below parent b p) : Below parent b x

/-- What is below something below is below. -/
theorem Below.trans (h : Below parent b c) (h' : Below parent c x) : Below parent b x := by
  induction h' with
  | refl => exact h
  | step hx _ ih => exact .step hx ih

/-- What is below a node is the node and what is below its children. -/
theorem below_iff : Below parent b x ↔ x = b ∨ ∃ c, parent c = some b ∧ Below parent c x := by
  constructor
  · intro h
    induction h with
    | refl => exact .inl rfl
    | @step x p hx hp ih =>
        rcases ih with rfl | ⟨c, hc, ih⟩
        · exact .inr ⟨x, hx, .refl⟩
        · exact .inr ⟨c, hc, .step hx ih⟩
  · rintro (rfl | ⟨c, hc, h⟩)
    · exact .refl
    · exact (Below.step hc .refl).trans h

/-! ## Closed sets -/

/-- With a node, its children are in the set. -/
def Closed (parent : ι → Option ι) (S : Set ι) : Prop :=
  ∀ x p, parent x = some p → p ∈ S → x ∈ S

/-- A closed set has all that is below its elements. -/
theorem Closed.below (hS : Closed parent S) (hb : b ∈ S) (h : Below parent b x) : x ∈ S := by
  induction h with
  | refl => exact hb
  | step hx _ ih => exact hS _ _ hx ih

/-- What is below an element is closed. -/
theorem closed_below (parent : ι → Option ι) (b : ι) : Closed parent {x | Below parent b x} :=
  fun _ _ hx hp ↦ Below.step hx hp

/-- Closed sets together are closed. -/
theorem Closed.union (hS : Closed parent S) (hT : Closed parent T) : Closed parent (S ∪ T) := by
  rintro x p hx (hp | hp)
  · exact .inl (hS x p hx hp)
  · exact .inr (hT x p hx hp)

/-- The empty set is closed. -/
theorem closed_empty (parent : ι → Option ι) : Closed parent ∅ :=
  fun _ _ _ hp ↦ hp

/-- A node without children. -/
theorem closed_singleton (h : ∀ x, parent x ≠ some b) : Closed parent {b} := by
  rintro x p hx rfl
  exact absurd hx (h x)

/-- Below a leaf there is the leaf alone. -/
theorem below_of_no_child (h : ∀ x, parent x ≠ some b) : {x | Below parent b x} = {b} := by
  ext x
  rw [Set.mem_ofPred_eq, below_iff, Set.mem_singleton_iff, or_iff_left]
  rintro ⟨c, hc, -⟩
  exact h c hc

/-! ## Cutting -/

open Classical in
/-- The forest without the nodes of a set. -/
noncomputable def cut (S : Set ι) (parent : ι → Option ι) (x : ι) : Option ι :=
  if x ∈ S then none else parent x

/-- What is cut off has no parent. -/
theorem cut_of_mem (h : x ∈ S) : cut S parent x = none := if_pos h

/-- The rest keeps its parent. -/
theorem cut_of_not_mem (h : x ∉ S) : cut S parent x = parent x := if_neg h

/-- The links that are left. -/
theorem cut_eq_some : cut S parent x = some p ↔ x ∉ S ∧ parent x = some p := by
  unfold cut
  split <;> simp_all

/-- What is below in the cut forest was below before. -/
theorem below_of_cut (h : Below (cut S parent) b x) : Below parent b x := by
  induction h with
  | refl => exact .refl
  | step hx _ ih => exact .step (cut_eq_some.mp hx).2 ih

/-- What is below a node after a cut is, with what was cut, what was below it before. -/
theorem union_below_cut (hS : Closed parent S) (b : ι) :
    S ∪ {x | Below (cut S parent) b x} = S ∪ {x | Below parent b x} := by
  ext x
  constructor
  · rintro (hx | hx)
    · exact .inl hx
    · exact .inr (below_of_cut hx)
  · rintro (hx | hx)
    · exact .inl hx
    · induction hx with
      | refl => exact .inr Below.refl
      | @step x p hx hp ih =>
          by_cases hS' : x ∈ S
          · exact .inl hS'
          · rcases ih with ih | ih
            · exact .inl (hS x p hx ih)
            · exact .inr (Below.step (cut_eq_some.mpr ⟨hS', hx⟩) ih)

/-- The same for what is below several nodes. -/
theorem union_exists_below_cut (hS : Closed parent S) (l : List ι) :
    S ∪ {x | ∃ b ∈ l, Below (cut S parent) b x} = S ∪ {x | ∃ b ∈ l, Below parent b x} := by
  ext x
  constructor
  · rintro (hx | ⟨b, hb, hx⟩)
    · exact .inl hx
    · exact .inr ⟨b, hb, below_of_cut hx⟩
  · rintro (hx | ⟨b, hb, hx⟩)
    · exact .inl hx
    · have hmem : x ∈ S ∪ {x | Below (cut S parent) b x} := by
        rw [union_below_cut hS]
        exact .inr hx
      exact hmem.imp_right fun hx ↦ ⟨b, hb, hx⟩

/-! ## No cycles -/

/-- A height that grows from a node to its parent. -/
def Ranked (parent : ι → Option ι) (rank : ι → ℕ) : Prop :=
  ∀ x p, parent x = some p → rank x < rank p

variable {rank : ι → ℕ}

/-- Ranks fall towards the leaves. -/
theorem Ranked.le_of_below (h : Ranked parent rank) (hx : Below parent b x) : rank x ≤ rank b := by
  induction hx with
  | refl => exact le_rfl
  | step hx _ ih => exact (h _ _ hx).le.trans ih

/-- A parent is not below its child. -/
theorem Ranked.not_below_child (h : Ranked parent rank) (hc : parent c = some b) :
    ¬ Below parent c b :=
  fun hb ↦ (h.le_of_below hb).not_gt (h c b hc)

/-- The children of a node hang side by side. -/
theorem Ranked.not_below_sibling (h : Ranked parent rank) (hc : parent c = some b)
    (hd : parent d = some b) (hne : d ≠ c) : ¬ Below parent c d := by
  intro hbelow
  cases hbelow with
  | refl => exact hne rfl
  | step hx hp =>
      obtain rfl := Option.some.inj (hd.symm.trans hx)
      exact h.not_below_child hc hp

/-! ## Lists of a forest -/

/-- A list in which the parent of each node follows it. -/
def Listed (parent : ι → Option ι) : List ι → Prop
  | [] => True
  | x :: l => (∀ p, parent x = some p → p ∈ l) ∧ Listed parent l

variable {l : List ι}

/-- Parents are in the list. -/
theorem Listed.parent_mem (h : Listed parent l) (hx : x ∈ l) (hp : parent x = some p) : p ∈ l := by
  induction l with
  | nil => cases hx
  | cons y l ih =>
      rcases List.mem_cons.mp hx with rfl | hx
      · exact List.mem_cons_of_mem _ (h.1 p hp)
      · exact List.mem_cons_of_mem _ (ih h.2 hx)

/-- The list depends on the parents of its nodes. -/
theorem Listed.congr {parent' : ι → Option ι} (h : Listed parent l)
    (hsame : ∀ x ∈ l, parent' x = parent x) : Listed parent' l := by
  induction l with
  | nil => trivial
  | cons x l ih =>
      refine ⟨fun p hp ↦ h.1 p ?_, ih h.2 fun y hy ↦ hsame y (List.mem_cons_of_mem _ hy)⟩
      rwa [← hsame x List.mem_cons_self]

/-- A node gets a parent that follows it. -/
theorem Listed.adopt {parent' : ι → Option ι} {a : List ι} (h : Listed parent (a ++ x :: l))
    (hx : parent' x = some p) (hp : p ∈ l) (hsame : ∀ y, y ≠ x → parent' y = parent y)
    (hnodup : (a ++ x :: l).Nodup) : Listed parent' (a ++ x :: l) := by
  induction a with
  | nil =>
      refine ⟨fun q hq ↦ ?_, h.2.congr fun y hy ↦ hsame y ?_⟩
      · rwa [← Option.some.inj (hx.symm.trans hq)]
      · rintro rfl
        exact (List.nodup_cons.mp hnodup).1 hy
  | cons y a ih =>
      obtain ⟨hy, hnodup⟩ := List.nodup_cons.mp hnodup
      refine ⟨fun q hq ↦ h.1 q ?_, ih h.2 hnodup⟩
      rwa [← hsame y ?_]
      rintro rfl
      exact hy (List.mem_append_right _ List.mem_cons_self)

/-- Nodes leave the list when what hangs from them leaves with them. -/
theorem Listed.filter_cut (h : Listed parent l) (hS : Closed parent S) {q : ι → Bool}
    (hq : ∀ x, q x = true ↔ x ∉ S) : Listed (Forest.cut S parent) (l.filter q) := by
  induction l with
  | nil => trivial
  | cons x l ih =>
      rw [List.filter_cons]
      split
      · next hx =>
          refine ⟨fun p hp ↦ ?_, ih h.2⟩
          obtain ⟨hxS, hp⟩ := cut_eq_some.mp hp
          exact List.mem_filter.mpr ⟨h.1 p hp, (hq p).mpr fun hpS ↦ hxS (hS x p hp hpS)⟩
      · exact ih h.2

variable [DecidableEq ι]

/-- A child stands before its parent. -/
theorem Listed.idxOf_lt (h : Listed parent l) (hnodup : l.Nodup) (hx : x ∈ l)
    (hp : parent x = some p) : l.idxOf x < l.idxOf p := by
  induction l with
  | nil => cases hx
  | cons y l ih =>
      obtain ⟨hy, hnodup⟩ := List.nodup_cons.mp hnodup
      have hne : p ∈ l → y ≠ p := by
        rintro hmem rfl
        exact hy hmem
      rcases List.mem_cons.mp hx with rfl | hx
      · rw [List.idxOf_cons_self, List.idxOf_cons_ne _ (hne (h.1 p hp))]
        exact Nat.succ_pos _
      · have hlt := ih h.2 hnodup hx
        have hxy : y ≠ x := by
          rintro rfl
          exact hy hx
        rw [List.idxOf_cons_ne _ hxy, List.idxOf_cons_ne _ (hne (h.2.parent_mem hx hp))]
        exact Nat.succ_lt_succ hlt

/-- The place in a list of all nodes that have parents. -/
theorem Listed.ranked (h : Listed parent l) (hnodup : l.Nodup)
    (hall : ∀ x, x ∉ l → parent x = none) : Ranked parent l.idxOf := by
  intro x p hp
  by_cases hx : x ∈ l
  · exact h.idxOf_lt hnodup hx hp
  · rw [hall x hx] at hp
    cases hp

end Forest
