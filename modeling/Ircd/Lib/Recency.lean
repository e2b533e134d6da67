import Mathlib.Data.Finset.Card
import Mathlib.Data.List.TakeWhile

/-!
# Recency lists

A list of fixed length that keeps what has been used last near its front. An entry comes to a place
of the list, and what is behind that place moves back as far as the old copy of the entry, or as far
as the end, where the last entry is dropped. `Tracked` follows one entry: what is in front of it has
been used since, up to `n` entries. The rules are `Tracked.moveUp` and `Tracked.enter`, and `Kept`
packs them for runs: an entry is dropped only after enough others.
-/

namespace Recency

variable {α : Type*} [DecidableEq α] {h g x : α} {n m : Nat} {u w : Finset α} {a b c t : List α}

/-- The entries in front of the first `h`. -/
def front (h : α) (t : List α) : List α :=
  t.takeWhile (· ≠ h)

theorem front_append_of_mem (ha : h ∈ a) (b : List α) : front h (a ++ b) = front h a := by
  induction a with
  | nil => cases ha
  | cons y a ih =>
      by_cases hy : y = h
      · simp [front, hy]
      · have htail : h ∈ a := (List.mem_cons.mp ha).resolve_left (Ne.symm hy)
        simpa [front, hy] using ih htail

theorem front_append_of_not_mem (ha : h ∉ a) (b : List α) : front h (a ++ b) = a ++ front h b := by
  refine List.takeWhile_append_of_pos fun y hy ↦ decide_eq_true fun heq ↦ ?_
  exact ha (heq ▸ hy)

theorem front_cons_self (h : α) (t : List α) : front h (h :: t) = [] := by
  simp [front]

theorem front_cons_of_ne (hg : g ≠ h) (t : List α) : front h (g :: t) = g :: front h t := by
  simp [front, hg]

/-- An entry `h` with all of `w` in front of it, and at most `n` entries more. -/
structure Tracked (h : α) (n : Nat) (w : Finset α) (t : List α) : Prop where
  mem : h ∈ t
  front_of_mem : ∀ x ∈ w, x ∈ front h t
  length_front_le : (front h t).length ≤ n + w.card

/-- An entry at the front has none in front of it. -/
theorem Tracked.head (h : α) (n : Nat) (t : List α) : Tracked h n ∅ (h :: t) where
  mem := List.mem_cons_self
  front_of_mem := by simp
  length_front_le := by simp [front_cons_self]

theorem mem_of_mem_front (hx : x ∈ front h t) : x ∈ t :=
  List.takeWhile_subset _ hx

/-- What is new in front of an entry has not been there before. -/
theorem Tracked.card_insert (ht : Tracked h n w t) (hg : g ∉ front h t) :
    (insert g w).card = w.card + 1 :=
  Finset.card_insert_of_notMem fun hmem ↦ hg (ht.front_of_mem g hmem)

/-- An entry comes to a place in front of `h`, from nowhere or from behind `h`. -/
theorem Tracked.cons (ht : Tracked h n w (a ++ t)) (ha : h ∉ a) (hg : g ≠ h)
    (hnew : g ∉ front h (a ++ t)) {t' : List α} (hmem : h ∈ t') (hfront : front h t' = front h t) :
    Tracked h n (insert g w) (a ++ g :: t') := by
  have hold := ht.length_front_le
  have hcard := ht.card_insert hnew
  rw [front_append_of_not_mem ha] at hold
  refine ⟨by simp [hmem], fun x hx ↦ ?_, ?_⟩
  · rw [front_append_of_not_mem ha, front_cons_of_ne hg, hfront]
    obtain rfl | hx := Finset.mem_insert.mp hx
    · simp
    · have hin := ht.front_of_mem x hx
      rw [front_append_of_not_mem ha] at hin
      rw [List.mem_append] at hin ⊢
      exact hin.imp_right fun hin ↦ List.mem_cons_of_mem _ hin
  · rw [front_append_of_not_mem ha, front_cons_of_ne hg, hfront, List.length_append,
      List.length_cons, hcard]
    rw [List.length_append] at hold
    omega

/-- The first copy of an entry moves up to a place in front of it. -/
theorem Tracked.moveUp (ht : Tracked h n w (a ++ (b ++ g :: c))) (hg : g ≠ h) (ha : g ∉ a)
    (hb : g ∉ b) : ∃ w' ⊆ insert g w, Tracked h n w' (a ++ g :: (b ++ c)) := by
  by_cases hina : h ∈ a
  · have hfront : front h (a ++ g :: (b ++ c)) = front h (a ++ (b ++ g :: c)) := by
      rw [front_append_of_mem hina, front_append_of_mem hina]
    exact ⟨w, Finset.subset_insert g w, by simp [hina], by rw [hfront]; exact ht.front_of_mem,
      by rw [hfront]; exact ht.length_front_le⟩
  · by_cases hinb : h ∈ b
    · have hnew : g ∉ front h (a ++ (b ++ g :: c)) := by
        rw [front_append_of_not_mem hina, front_append_of_mem hinb, List.mem_append, not_or]
        exact ⟨ha, fun hmem ↦ hb (mem_of_mem_front hmem)⟩
      refine ⟨_, subset_rfl, ht.cons hina hg hnew (List.mem_append_left _ hinb) ?_⟩
      rw [front_append_of_mem hinb, front_append_of_mem hinb]
    · have hmem : h ∈ c := by
        have hin := ht.mem
        simp only [List.mem_append, List.mem_cons, hina, hinb, hg.symm, false_or] at hin
        exact hin
      have hfront : front h (a ++ g :: (b ++ c)) = a ++ g :: (b ++ front h c) := by
        rw [front_append_of_not_mem hina, front_cons_of_ne hg, front_append_of_not_mem hinb]
      have hold : front h (a ++ (b ++ g :: c)) = a ++ (b ++ g :: front h c) := by
        rw [front_append_of_not_mem hina, front_append_of_not_mem hinb, front_cons_of_ne hg]
      have hlength := ht.length_front_le
      have hcard := Finset.card_le_card (Finset.subset_insert g w)
      refine ⟨insert g w, subset_rfl, by simp [hmem], fun x hx ↦ ?_, ?_⟩
      · rw [hfront]
        obtain rfl | hx := Finset.mem_insert.mp hx
        · simp
        · have hin := ht.front_of_mem x hx
          rw [hold] at hin
          simp only [List.mem_append, List.mem_cons] at hin ⊢
          tauto
      · rw [hold] at hlength
        rw [hfront]
        simp only [List.length_append, List.length_cons] at hlength ⊢
        omega

/-- A new entry comes to a place and drops the last one. -/
theorem Tracked.enter (ht : Tracked h n w (a ++ (b ++ [x]))) (hg : g ∉ a ++ (b ++ [x])) :
    (∃ w' ⊆ insert g w, Tracked h n w' (a ++ g :: b)) ∨
      (a ++ (b ++ [x])).length ≤ n + (insert g w).card := by
  have hne : g ≠ h := by
    rintro rfl
    exact hg ht.mem
  have hnew : g ∉ front h (a ++ (b ++ [x])) := fun hmem ↦ hg (mem_of_mem_front hmem)
  by_cases hina : h ∈ a
  · have hfront : front h (a ++ g :: b) = front h (a ++ (b ++ [x])) := by
      rw [front_append_of_mem hina, front_append_of_mem hina]
    exact .inl ⟨w, Finset.subset_insert g w, by simp [hina],
      by rw [hfront]; exact ht.front_of_mem, by rw [hfront]; exact ht.length_front_le⟩
  · by_cases hinb : h ∈ b
    · refine .inl ⟨_, subset_rfl, ht.cons hina hne hnew hinb ?_⟩
      rw [front_append_of_mem hinb]
    · have hlast : h = x := by
        have hin := ht.mem
        simp only [List.mem_append, List.mem_cons, hina, hinb, false_or, List.not_mem_nil,
          or_false] at hin
        exact hin
      have hlength := ht.length_front_le
      have hcard := ht.card_insert hnew
      rw [front_append_of_not_mem hina, front_append_of_not_mem hinb, hlast,
        front_cons_self] at hlength
      refine .inr ?_
      simp only [List.length_append, List.length_cons, List.length_nil] at hlength ⊢
      omega

/-! ## Runs -/

/-- While the entries `u` have been used, `h` has been kept in a list of `m` entries, or there have
been enough of them to drop it. -/
def Kept (h : α) (n m : Nat) (u : Finset α) (t : List α) : Prop :=
  m ≤ n + u.card ∨ ∃ w ⊆ u, Tracked h n w t

theorem Kept.mono (hk : Kept h n m u t) {u' : Finset α} (hu : u ⊆ u') : Kept h n m u' t := by
  obtain hm | ⟨w, hw, ht⟩ := hk
  · exact .inl (hm.trans (Nat.add_le_add_left (Finset.card_le_card hu) n))
  · exact .inr ⟨w, hw.trans hu, ht⟩

theorem Kept.head (h : α) (n m : Nat) (u : Finset α) (t : List α) : Kept h n m u (h :: t) :=
  .inr ⟨∅, Finset.empty_subset u, Tracked.head h n t⟩

theorem Kept.moveUp (hk : Kept h n m u (a ++ (b ++ g :: c))) (hg : g ≠ h) (ha : g ∉ a)
    (hb : g ∉ b) : Kept h n m (insert g u) (a ++ g :: (b ++ c)) := by
  obtain hm | ⟨w, hw, ht⟩ := hk
  · exact .inl (hm.trans (Nat.add_le_add_left (Finset.card_le_card (Finset.subset_insert g u)) n))
  · obtain ⟨w', hw', ht'⟩ := ht.moveUp hg ha hb
    exact .inr ⟨w', hw'.trans (Finset.insert_subset_insert g hw), ht'⟩

theorem Kept.enter (hk : Kept h n m u (a ++ (b ++ [x]))) (hg : g ∉ a ++ (b ++ [x]))
    (hm : (a ++ (b ++ [x])).length = m) : Kept h n m (insert g u) (a ++ g :: b) := by
  obtain hdrop | ⟨w, hw, ht⟩ := hk
  · exact .inl (hdrop.trans
      (Nat.add_le_add_left (Finset.card_le_card (Finset.subset_insert g u)) n))
  · have hcard := Finset.card_le_card (Finset.insert_subset_insert g hw)
    obtain ⟨w', hw', ht'⟩ | hfull := ht.enter hg
    · exact .inr ⟨w', hw'.trans (Finset.insert_subset_insert g hw), ht'⟩
    · exact .inl (by omega)

/-- An entry has been dropped after enough others. -/
theorem Kept.le_of_not_mem (hk : Kept h n m u t) (h' : h ∉ t) : m ≤ n + u.card := by
  obtain hm | ⟨w, -, ht⟩ := hk
  · exact hm
  · exact absurd ht.mem h'

end Recency
