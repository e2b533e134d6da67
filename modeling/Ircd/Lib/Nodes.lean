import Ircd.Lib.Cells
import Mathlib.Data.List.Basic

/-!
# Lists of values

Singly linked lists of nodes with a value, each behind its first pointer. The nodes are named by the
number of nodes that were made before. `Holds m listas vals` says that the list of `i` has the nodes
`listas i` with the values `vals i`, and there is a lemma for each operation: a value is put in
front, looked for, or taken out where it is first.

`Adjacent vals` is about lists of neighbours: no list has a value twice, and the lists agree on who
is a neighbour of whom. Edges are added and taken away at both ends.
-/

universe u v

/-! ## Lists without a value -/

/-- The list without the first place of a value. -/
def strike {α : Type*} [DecidableEq α] (v : α) (l : List α) : List α :=
  l.erase v

section

variable {α : Type*} [DecidableEq α] {v w : α} {l : List α}

theorem strike_append_cons {as bs : List α} (h : v ∉ as) :
    strike v (as ++ v :: bs) = as ++ bs := by
  rw [strike, List.erase_append_right _ h, List.erase_cons_head]

theorem mem_strike (h : l.Nodup) : w ∈ strike v l ↔ w ≠ v ∧ w ∈ l :=
  h.mem_erase_iff

theorem nodup_strike (h : l.Nodup) : (strike v l).Nodup :=
  h.erase v

theorem length_strike (h : v ∈ l) : (strike v l).length = l.length - 1 :=
  List.length_erase_of_mem h

end

/-! ## Nodes -/

/-- Nodes, and the first pointer of each list. -/
structure Nodes (ι : Type u) (ν : Type v) where
  next : Nat → Option Nat
  value : Nat → ν
  count : Nat
  head : ι → Option Nat

namespace Nodes

variable {ι : Type u} {ν : Type v} [DecidableEq ι] [DecidableEq ν]

omit [DecidableEq ν] in
/-- A value is put in front of a list, in a new node. -/
def cons (i : ι) (v : ν) (m : Nodes ι ν) : Nodes ι ν where
  next := Function.update m.next m.count (m.head i)
  value := Function.update m.value m.count v
  count := m.count + 1
  head := Function.update m.head i (some m.count)

omit [DecidableEq ι] in
/-- The first node of a list with the value. -/
def find (i : ι) (v : ν) (m : Nodes ι ν) : Option Nat :=
  Cells.find m.next (fun p ↦ m.value p = v) m.count (m.head i)

/-- The first node with the value is taken out of the list, if there is one. -/
def remove (i : ι) (v : ν) (m : Nodes ι ν) : Bool × Nodes ι ν :=
  match Cells.locate m.next (fun p ↦ m.value p = v) m.count none (m.head i) with
  | (_, none) => (false, m)
  | (none, some p) => (true, { m with head := Function.update m.head i (m.next p) })
  | (some q, some p) => (true, { m with next := Function.update m.next q (m.next p) })

omit [DecidableEq ι] [DecidableEq ν] in
/-- The nodes of a list, in order. -/
def nodes (i : ι) (m : Nodes ι ν) : List Nat :=
  Cells.walk m.next m.count (m.head i)

omit [DecidableEq ν] in
/-- The list is forgotten. -/
def clear (i : ι) (m : Nodes ι ν) : Nodes ι ν :=
  { m with head := Function.update m.head i none }

omit [DecidableEq ι] [DecidableEq ν] in
/-- The nodes and the values of the lists. -/
structure Holds (m : Nodes ι ν) (listas : ι → List Nat) (vals : ι → List ν) : Prop where
  lists : LinkedLists m.next m.head listas
  lt : ∀ i, ∀ p ∈ listas i, p < m.count
  vals : ∀ i, (listas i).map m.value = vals i

variable {m : Nodes ι ν} {listas : ι → List Nat} {vals : ι → List ν} {i j : ι} {v : ν}

omit [DecidableEq ι] [DecidableEq ν] in
/-- A list is not longer than the number of nodes. -/
theorem Holds.length_le (h : Holds m listas vals) (i : ι) : (listas i).length ≤ m.count := by
  have hsub : listas i ⊆ List.range m.count := fun p hp ↦ List.mem_range.mpr (h.lt i p hp)
  have hle := ((h.lists.links i).nodup.subperm hsub).length_le
  rwa [List.length_range] at hle

omit [DecidableEq ι] [DecidableEq ν] in
theorem Holds.nodes_eq (h : Holds m listas vals) (i : ι) : m.nodes i = listas i :=
  Cells.walk_eq (h.lists.links i) (h.length_le i)

omit [DecidableEq ι] [DecidableEq ν] in
/-- An empty list has a null pointer. -/
theorem Holds.head_eq_none (h : Holds m listas vals) (i : ι) : m.head i = none ↔ vals i = [] := by
  rw [← (h.lists.links i).head?, List.head?_eq_none_iff, ← h.vals i, List.map_eq_nil_iff]

omit [DecidableEq ν] in
/-- A value is put in front. -/
theorem Holds.cons (h : Holds m listas vals) (i : ι) (v : ν) :
    Holds (m.cons i v) (Function.update listas i (m.count :: listas i))
      (Function.update vals i (v :: vals i)) where
  lists := h.lists.push (fun j hj ↦ absurd (h.lt j _ hj) (lt_irrefl _)) i
  lt j p hp := by
    show p < m.count + 1
    by_cases hji : j = i
    · subst hji
      rw [Function.update_self, List.mem_cons] at hp
      rcases hp with rfl | hp
      · exact Nat.lt_succ_self _
      · exact Nat.lt_succ_of_lt (h.lt j p hp)
    · rw [Function.update_of_ne hji] at hp
      exact Nat.lt_succ_of_lt (h.lt j p hp)
  vals j := by
    have hmap : ∀ k, (listas k).map (Function.update m.value m.count v) = vals k := by
      intro k
      rw [← h.vals k]
      exact List.map_congr_left fun p hp ↦ Function.update_of_ne (Nat.ne_of_lt (h.lt k p hp)) ..
    show (Function.update listas i (m.count :: listas i) j).map _ = _
    by_cases hji : j = i
    · subst hji
      have hself : (m.cons j v).value m.count = v := Function.update_self ..
      rw [Function.update_self, Function.update_self, List.map_cons, hself]
      exact congrArg _ (hmap j)
    · rw [Function.update_of_ne hji, Function.update_of_ne hji]
      exact hmap j

omit [DecidableEq ι] in
/-- The search finds a value that is in the list. -/
theorem Holds.find (h : Holds m listas vals) (i : ι) (v : ν) :
    (m.find i v).isSome = true ↔ v ∈ vals i := by
  rw [Nodes.find, Cells.find_eq _ (h.lists.links i) (h.length_le i), List.find?_isSome,
    ← h.vals i, List.mem_map]
  simp

omit [DecidableEq ι] in
/-- The first node with a value that is in the list. -/
theorem Holds.first (h : Holds m listas vals) (hv : v ∈ vals i) :
    ∃ as p bs, listas i = as ++ p :: bs ∧ m.value p = v ∧ ∀ a ∈ as, m.value a ≠ v := by
  have hsome : ((listas i).find? fun p ↦ m.value p = v).isSome = true := by
    rw [← h.vals i, List.mem_map] at hv
    rw [List.find?_isSome]
    simpa using hv
  obtain ⟨p, hp⟩ := Option.isSome_iff_exists.mp hsome
  obtain ⟨hgood, as, bs, hsplit, has⟩ := List.find?_eq_some_iff_append.mp hp
  exact ⟨as, p, bs, hsplit, by simpa using hgood, fun a ha ↦ by simpa using has a ha⟩

omit [DecidableEq ν] in
/-- The values after a node has been taken out. -/
theorem Holds.vals_update (h : Holds m listas vals) (xs : List Nat) (j : ι) :
    (Function.update listas i xs j).map m.value =
      Function.update vals i (xs.map m.value) j := by
  by_cases hji : j = i
  · subst hji
    rw [Function.update_self, Function.update_self]
  · rw [Function.update_of_ne hji, Function.update_of_ne hji, h.vals]

omit [DecidableEq ν] in
/-- The nodes after some have been taken out. -/
theorem Holds.lt_update (h : Holds m listas vals) {xs : List Nat} (hxs : xs ⊆ listas i) (j : ι)
    (p : Nat) (hp : p ∈ Function.update listas i xs j) : p < m.count := by
  by_cases hji : j = i
  · subst hji
    rw [Function.update_self] at hp
    exact h.lt j p (hxs hp)
  · rw [Function.update_of_ne hji] at hp
    exact h.lt j p hp

/-- The first node with the value is taken out. -/
theorem Holds.remove_first (h : Holds m listas vals) {as bs : List Nat} {p : Nat}
    (hsplit : listas i = as ++ p :: bs) (hp : m.value p = v) (has : ∀ a ∈ as, m.value a ≠ v) :
    ∃ m', m.remove i v = (true, m') ∧ m'.value = m.value ∧ m'.count = m.count ∧
      Holds m' (Function.update listas i (as ++ bs))
        (Function.update vals i (strike v (vals i))) := by
  have hlinks := h.lists.links i
  have hfuel := h.length_le i
  rw [hsplit] at hlinks hfuel
  have hlocate := Cells.locate_eq_some (fun p ↦ m.value p = v) none hlinks hfuel
    (fun a ha ↦ by simpa using has a ha) (by simpa using hp)
  rw [Option.or_none] at hlocate
  have hsub : as ++ bs ⊆ listas i := by
    intro q hq
    simp only [hsplit, List.mem_append, List.mem_cons] at hq ⊢
    tauto
  have herase : (as ++ bs).map m.value = strike v (vals i) := by
    have hnot : v ∉ as.map m.value := by
      rw [List.mem_map]
      rintro ⟨a, ha, heq⟩
      exact has a ha heq
    rw [← h.vals i, hsplit, List.map_append, List.map_append, List.map_cons, hp,
      strike_append_cons hnot]
  have hvals := fun j ↦ h.vals_update (i := i) (as ++ bs) j
  rw [herase] at hvals
  have hcut := h.lists.cut hsplit
  cases hlast : as.getLast? with
  | none =>
      rw [hlast] at hcut hlocate
      refine ⟨{ m with head := Function.update m.head i (m.next p) }, ?_, rfl, rfl,
        ⟨hcut, h.lt_update hsub, hvals⟩⟩
      simp only [Nodes.remove, hlocate]
  | some c =>
      rw [hlast] at hcut hlocate
      refine ⟨{ m with next := Function.update m.next c (m.next p) }, ?_, rfl, rfl,
        ⟨hcut, h.lt_update hsub, hvals⟩⟩
      simp only [Nodes.remove, hlocate]

/-- A value of the list is taken out. -/
theorem Holds.remove (h : Holds m listas vals) (hv : v ∈ vals i) :
    ∃ m' xs, m.remove i v = (true, m') ∧ m'.value = m.value ∧
      Holds m' (Function.update listas i xs) (Function.update vals i (strike v (vals i))) := by
  obtain ⟨as, p, bs, hsplit, hp, has⟩ := h.first hv
  obtain ⟨m', hremove, hvalue, -, hholds⟩ := h.remove_first hsplit hp has
  exact ⟨m', as ++ bs, hremove, hvalue, hholds⟩

/-- Nothing is taken out when the value is not in the list. -/
theorem Holds.remove_of_not_mem (h : Holds m listas vals) (hv : v ∉ vals i) :
    m.remove i v = (false, m) := by
  have hlocate : (Cells.locate m.next (fun p ↦ m.value p = v) m.count none (m.head i)).2 = none := by
    refine Cells.locate_eq_none _ (h.lists.links i) fun a ha ↦ decide_eq_false fun heq ↦ hv ?_
    rw [← h.vals i, ← heq]
    exact List.mem_map_of_mem ha
  rw [Nodes.remove]
  generalize Cells.locate m.next (fun p ↦ m.value p = v) m.count none (m.head i) = r at hlocate ⊢
  obtain ⟨prev, found⟩ := r
  have hnone : found = none := hlocate
  subst hnone
  cases prev <;> rfl

omit [DecidableEq ι] [DecidableEq ν] in
/-- Several lists are forgotten. -/
theorem Holds.forget (h : Holds m listas vals) (fuera : ι → Prop) [DecidablePred fuera] :
    Holds { m with head := fun i ↦ if fuera i then none else m.head i }
      (fun i ↦ if fuera i then [] else listas i) (fun i ↦ if fuera i then [] else vals i) where
  lists := by
    refine ⟨fun j ↦ ?_, fun j k ↦ ?_⟩
    · dsimp only
      split
      · rfl
      · exact h.lists.links j
    · intro p hj hk
      split at hj
      · cases hj
      · split at hk
        · cases hk
        · exact h.lists.disjoint j k p hj hk
  lt j p hp := by
    split at hp
    · cases hp
    · exact h.lt j p hp
  vals j := by
    dsimp only
    split
    · rfl
    · exact h.vals j

omit [DecidableEq ν] in
/-- A list is forgotten. -/
theorem Holds.clear (h : Holds m listas vals) (i : ι) :
    Holds (m.clear i) (Function.update listas i []) (Function.update vals i []) where
  lists := by
    refine ⟨fun j ↦ ?_, fun j k ↦ h.lists.disjoint_update (by simp) j k⟩
    show Links m.next (Function.update m.head i none j) _ none
    by_cases hji : j = i
    · subst hji
      rw [Function.update_self, Function.update_self]
      rfl
    · rw [Function.update_of_ne hji, Function.update_of_ne hji]
      exact h.lists.links j
  lt := h.lt_update (List.nil_subset _)
  vals j := h.vals_update [] j

end Nodes

/-! ## Lists of neighbours -/

/-- The lists of neighbours of a graph. -/
structure Adjacent {ι : Type u} (vals : ι → List ι) : Prop where
  nodup : ∀ i, (vals i).Nodup
  symm : ∀ i j, j ∈ vals i ↔ i ∈ vals j

namespace Adjacent

variable {ι : Type u} [DecidableEq ι] {vals : ι → List ι} {i j k l : ι}

/-- The lists with a new edge. -/
theorem mem_add (hij : i ≠ j) :
    l ∈ Function.update (Function.update vals i (j :: vals i)) j (i :: vals j) k ↔
      l ∈ vals k ∨ k = i ∧ l = j ∨ k = j ∧ l = i := by
  by_cases hkj : k = j
  · subst hkj
    rw [Function.update_self, List.mem_cons]
    simp only [Ne.symm hij, false_and, true_and, false_or]
    exact or_comm
  · rw [Function.update_of_ne hkj]
    by_cases hki : k = i
    · subst hki
      rw [Function.update_self, List.mem_cons]
      simp only [hij, false_and, true_and, or_false]
      exact or_comm
    · rw [Function.update_of_ne hki]
      simp [hki, hkj]

/-- A new edge. -/
theorem add (h : Adjacent vals) (hij : i ≠ j) (hj : j ∉ vals i) :
    Adjacent (Function.update (Function.update vals i (j :: vals i)) j (i :: vals j)) where
  nodup k := by
    have hi : i ∉ vals j := mt (h.symm i j).mpr hj
    by_cases hkj : k = j
    · subst hkj
      rw [Function.update_self]
      exact List.nodup_cons.mpr ⟨hi, h.nodup k⟩
    · rw [Function.update_of_ne hkj]
      by_cases hki : k = i
      · subst hki
        rw [Function.update_self]
        exact List.nodup_cons.mpr ⟨hj, h.nodup k⟩
      · rw [Function.update_of_ne hki]
        exact h.nodup k
  symm k l := by
    rw [mem_add hij, mem_add hij, h.symm k l]
    tauto

/-- The lists without an edge. -/
theorem mem_erase (h : Adjacent vals) (hij : i ≠ j) :
    l ∈ Function.update (Function.update vals i (strike j (vals i))) j (strike i (vals j)) k ↔
      l ∈ vals k ∧ ¬(k = i ∧ l = j) ∧ ¬(k = j ∧ l = i) := by
  by_cases hkj : k = j
  · subst hkj
    rw [Function.update_self, mem_strike (h.nodup k)]
    simp only [Ne.symm hij, false_and, true_and, not_false_eq_true]
    exact and_comm
  · rw [Function.update_of_ne hkj]
    by_cases hki : k = i
    · subst hki
      rw [Function.update_self, mem_strike (h.nodup k)]
      simp only [hij, false_and, true_and, not_false_eq_true, and_true]
      exact and_comm
    · rw [Function.update_of_ne hki]
      simp [hki, hkj]

/-- An edge is taken away. -/
theorem erase (h : Adjacent vals) (hij : i ≠ j) :
    Adjacent (Function.update (Function.update vals i (strike j (vals i))) j (strike i (vals j))) where
  nodup k := by
    by_cases hkj : k = j
    · subst hkj
      rw [Function.update_self]
      exact nodup_strike (h.nodup k)
    · rw [Function.update_of_ne hkj]
      by_cases hki : k = i
      · subst hki
        rw [Function.update_self]
        exact nodup_strike (h.nodup k)
      · rw [Function.update_of_ne hki]
        exact h.nodup k
  symm k l := by
    rw [h.mem_erase hij, h.mem_erase hij, h.symm k l]
    tauto

end Adjacent
