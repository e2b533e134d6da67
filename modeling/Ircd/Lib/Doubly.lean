import Ircd.Lib.Cells

/-!
# Doubly linked lists

A list of cells with a pointer to the next and to the previous cell, behind one first pointer. A
cell is put in front (`push`), and taken out where it stands (`drop`). `Holds d xs` says that the
pointers lead over `xs` in both directions.
-/

universe u

variable {ρ : Type u}

/-- The pointers of the cells, and the pointer to the first one. -/
structure Doubly (ρ : Type u) where
  next : ρ → Option ρ
  prev : ρ → Option ρ
  head : Option ρ

namespace Doubly

/-! ## Pointers back -/

/-- Each cell points back to the one before it, and the first one to `q`. -/
def Backs (prev : ρ → Option ρ) : Option ρ → List ρ → Prop
  | _, [] => True
  | q, a :: xs => prev a = q ∧ Backs prev (some a) xs

variable {prev prev' : ρ → Option ρ} {q : Option ρ} {xs ys : List ρ} {a b : ρ}

theorem Backs.congr (h : Backs prev q xs) (heq : ∀ a ∈ xs, prev' a = prev a) :
    Backs prev' q xs := by
  induction xs generalizing q with
  | nil => trivial
  | cons a xs ih =>
      exact ⟨(heq a (by simp)).trans h.1, ih h.2 fun b hb ↦ heq b (by simp [hb])⟩

theorem Backs.append : Backs prev q (xs ++ ys) ↔
    Backs prev q xs ∧ Backs prev (xs.getLast?.or q) ys := by
  induction xs generalizing q with
  | nil => simp [Backs]
  | cons a xs ih =>
      have hlast : (a :: xs).getLast?.or q = xs.getLast?.or (some a) := by
        rw [List.getLast?_cons]
        cases xs.getLast? <;> rfl
      rw [List.cons_append, Backs, Backs, ih, hlast, and_assoc]

/-! ## Lists -/

/-- The pointers lead over the cells in both directions. -/
structure Holds (d : Doubly ρ) (xs : List ρ) : Prop where
  links : Links d.next d.head xs none
  backs : Backs d.prev none xs

variable [DecidableEq ρ] {d : Doubly ρ} {as bs : List ρ}

/-- A cell is put in front. -/
def push (a : ρ) (d : Doubly ρ) : Doubly ρ where
  prev :=
    let prev := match d.head with
      | none => d.prev
      | some b => Function.update d.prev b (some a)
    Function.update prev a none
  next := Function.update d.next a d.head
  head := some a

/-- The write of the next pointer where a cell is taken out. -/
def skip (a : ρ) (d : Doubly ρ) : Doubly ρ :=
  match d.prev a with
  | some p => { d with next := Function.update d.next p (d.next a) }
  | none => { d with head := d.next a }

/-- A cell is taken out. -/
def drop (a : ρ) (d : Doubly ρ) : Doubly ρ :=
  let d := d.skip a
  match d.next a with
  | some n => { d with prev := Function.update d.prev n (d.prev a) }
  | none => d

/-- A new cell is the first one of the list. -/
theorem Holds.push (h : d.Holds xs) (ha : a ∉ xs) : (d.push a).Holds (a :: xs) where
  links := h.links.push ha
  backs := by
    refine ⟨Function.update_self .., ?_⟩
    cases xs with
    | nil => trivial
    | cons b xs =>
        have hhead : d.head = some b := h.links.1
        have hnodup := h.links.nodup
        simp only [List.mem_cons, not_or] at ha
        simp only [Doubly.push, hhead]
        refine ⟨?_, h.backs.2.congr fun c hc ↦ ?_⟩
        · rw [Function.update_of_ne (Ne.symm ha.1), Function.update_self]
        · rw [Function.update_of_ne (ne_of_mem_of_not_mem hc ha.2),
            Function.update_of_ne (ne_of_mem_of_not_mem hc (List.nodup_cons.mp hnodup).1)]

omit [DecidableEq ρ] in
/-- The cell after another one. -/
theorem Holds.next_eq (h : d.Holds (as ++ a :: bs)) : d.next a = bs.head? :=
  h.links.from_mem.2.head?.symm

omit [DecidableEq ρ] in
/-- The cell before another one. -/
theorem Holds.prev_eq (h : d.Holds (as ++ a :: bs)) : d.prev a = as.getLast? := by
  have hback := (Backs.append.mp h.backs).2.1
  rwa [Option.or_none] at hback

/-- The next pointers lead around a cell that is taken out. -/
theorem Holds.skip (h : d.Holds (as ++ a :: bs)) :
    Links (d.skip a).next (d.skip a).head (as ++ bs) none ∧ (d.skip a).prev = d.prev ∧
      (d.skip a).next a = d.next a := by
  have hprev := h.prev_eq
  rcases List.eq_nil_or_concat' as with rfl | ⟨as, c, rfl⟩
  · simp only [Doubly.skip, hprev, List.getLast?_nil, and_self, and_true]
    exact h.links.2
  · have hlinks := h.links
    have hnodup := hlinks.nodup
    rw [List.append_assoc, List.singleton_append] at hlinks hnodup ⊢
    have hne : a ≠ c := by
      rintro rfl
      simp [List.nodup_append] at hnodup
    rw [List.getLast?_append_cons, List.getLast?_singleton] at hprev
    simp only [Doubly.skip, hprev]
    exact ⟨hlinks.unlink, trivial, Function.update_of_ne hne ..⟩

/-- A cell is taken out of the list. -/
theorem Holds.drop (h : d.Holds (as ++ a :: bs)) : (d.drop a).Holds (as ++ bs) := by
  obtain ⟨hlinks, hprev, hnext⟩ := h.skip
  have hbacks := Backs.append.mp h.backs
  rw [Doubly.drop, hnext, h.next_eq]
  cases bs with
  | nil =>
      rw [List.append_nil] at hlinks ⊢
      refine ⟨hlinks, ?_⟩
      rw [List.head?_nil, hprev]
      exact hbacks.1
  | cons b bs =>
      have hnodup := h.links.nodup
      rw [List.nodup_append] at hnodup
      have hbas : b ∉ as := fun hb ↦ hnodup.2.2 b hb b (by simp) rfl
      have hbbs : b ∉ bs := (List.nodup_cons.mp (List.nodup_cons.mp hnodup.2.1).2).1
      refine ⟨hlinks, Backs.append.mpr ⟨?_, ?_, ?_⟩⟩
      · rw [hprev]
        exact hbacks.1.congr fun c hc ↦ Function.update_of_ne (ne_of_mem_of_not_mem hc hbas) ..
      · show Function.update _ b _ b = _
        rw [Function.update_self, hprev, h.prev_eq, Option.or_none]
      · rw [hprev]
        exact hbacks.2.2.2.congr fun c hc ↦ Function.update_of_ne (ne_of_mem_of_not_mem hc hbbs) ..

end Doubly
