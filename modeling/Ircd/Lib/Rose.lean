import Mathlib.Data.List.Basic

/-!
# Trees and their drawings

A tree has a list of trees below its root. `prune` keeps, down to a depth, what is reached through
children that satisfy a predicate, and `marks` lists a tree in preorder, each element with a mark for
every step of its path: whether the tree that the step goes to has a later sibling. `reaches_prune`
says which elements are reached in a pruned tree.
-/

/-- A tree: its root and the trees below it. -/
inductive Rose (α : Type*) where
  | node (a : α) (children : List (Rose α))

namespace Rose

variable {α : Type*} {p : α → Bool} {t u v : Rose α} {ts : List (Rose α)} {a : α} {n m : ℕ}

/-- The element at the root. -/
def root : Rose α → α
  | node a _ => a

/-- The trees below the root. -/
def children : Rose α → List (Rose α)
  | node _ ts => ts

mutual

/-- The elements of a tree. -/
def elems : Rose α → List α
  | node a ts => a :: elemsList ts

/-- The elements of trees. -/
def elemsList : List (Rose α) → List α
  | [] => []
  | t :: ts => elems t ++ elemsList ts

end

theorem root_mem_elems (t : Rose α) : t.root ∈ t.elems := by
  cases t
  exact List.mem_cons_self

theorem root_mem_elemsList (h : t ∈ ts) : t.root ∈ elemsList ts := by
  induction ts with
  | nil => cases h
  | cons u ts ih =>
      rw [elemsList, List.mem_append]
      rcases List.mem_cons.mp h with rfl | h
      · exact .inl t.root_mem_elems
      · exact .inr (ih h)

/-- The children that satisfy the predicate. -/
def kept (p : α → Bool) (ts : List (Rose α)) : List (Rose α) :=
  ts.filter fun t ↦ p t.root

@[simp] theorem kept_nil : kept p ([] : List (Rose α)) = [] := rfl

theorem kept_cons_of_pos (h : p t.root = true) : kept p (t :: ts) = t :: kept p ts :=
  List.filter_cons_of_pos h

theorem kept_cons_of_neg (h : p t.root = false) : kept p (t :: ts) = kept p ts :=
  List.filter_cons_of_neg (by simp [h])

/-- What is reached through children that satisfy the predicate, to a depth. -/
def prune (p : α → Bool) : ℕ → Rose α → Rose α
  | 0, node a _ => node a []
  | n + 1, node a ts => node a ((kept p ts).map (prune p n))

@[simp] theorem root_prune (n : ℕ) (t : Rose α) : (prune p n t).root = t.root := by
  cases n <;> cases t <;> rfl

theorem children_prune_succ (n : ℕ) (t : Rose α) :
    (prune p (n + 1) t).children = (kept p t.children).map (prune p n) := by
  cases t
  rfl

mutual

/-- The elements of a tree in preorder, with their marks behind those of the root. -/
def marks (bs : List Bool) : Rose α → List (List Bool × α)
  | node a ts => (bs, a) :: marksList bs ts

/-- The elements of the trees below a root with the marks `bs`. -/
def marksList (bs : List Bool) : List (Rose α) → List (List Bool × α)
  | [] => []
  | t :: ts => marks (bs ++ [!ts.isEmpty]) t ++ marksList bs ts

end

/-- `Reaches p t n u` says that `n` steps from `t`, each to a child that satisfies `p`, lead to
`u`. -/
inductive Reaches (p : α → Bool) : Rose α → ℕ → Rose α → Prop where
  | refl (t : Rose α) : Reaches p t 0 t
  | step {t c u : Rose α} {n : ℕ} (hc : c ∈ kept p t.children) (h : Reaches p c n u) :
      Reaches p t (n + 1) u

@[simp] theorem reaches_zero : Reaches p t 0 u ↔ u = t := by
  constructor
  · rintro ⟨⟩
    rfl
  · rintro rfl
    exact .refl u

theorem reaches_succ : Reaches p t (n + 1) u ↔ ∃ c ∈ kept p t.children, Reaches p c n u := by
  constructor
  · rintro (_ | ⟨hc, h⟩)
    exact ⟨_, hc, h⟩
  · rintro ⟨c, hc, h⟩
    exact .step hc h

/-- All children. -/
theorem kept_true (ts : List (Rose α)) : kept (fun _ ↦ true) ts = ts :=
  List.filter_true ts

/-- The paths of a pruned tree. -/
theorem reaches_prune : Reaches (fun _ ↦ true) (prune p (n + m) t) n v ↔
    ∃ u, Reaches p t n u ∧ v = prune p m u := by
  induction n generalizing t with
  | zero => simp
  | succ n ih =>
      rw [Nat.add_right_comm, reaches_succ, children_prune_succ, kept_true]
      simp only [List.mem_map, reaches_succ]
      constructor
      · rintro ⟨c, ⟨d, hd, rfl⟩, hc⟩
        obtain ⟨u, hu, rfl⟩ := ih.mp hc
        exact ⟨u, ⟨d, hd, hu⟩, rfl⟩
      · rintro ⟨u, ⟨d, hd, hu⟩, rfl⟩
        exact ⟨_, ⟨d, hd, rfl⟩, ih.mpr ⟨u, hu, rfl⟩⟩

mutual

theorem le_length_of_mem_marks {bs cs : List Bool} :
    ∀ t : Rose α, (cs, a) ∈ marks bs t → bs.length ≤ cs.length
  | node b ts => by
      rw [marks, List.mem_cons]
      rintro (h | h)
      · exact Nat.le_of_eq (congrArg List.length (Prod.mk.inj h).1.symm)
      · exact Nat.le_of_lt (lt_length_of_mem_marksList ts h)

theorem lt_length_of_mem_marksList {bs cs : List Bool} :
    ∀ ts : List (Rose α), (cs, a) ∈ marksList bs ts → bs.length < cs.length
  | [] => by simp [marksList]
  | t :: ts => by
      rw [marksList, List.mem_append]
      rintro (h | h)
      · have hle := le_length_of_mem_marks t h
        rw [List.length_append, List.length_singleton] at hle
        exact hle
      · exact lt_length_of_mem_marksList ts h

end

end Rose
