import Mathlib.Data.List.Nodup
import Mathlib.Logic.Function.Basic

/-!
# Lists of counters

A list of entries counts a function `n` on keys when each key has at most one entry, every entry has
the count of its key, and every key that is counted has an entry. `Tally` survives a change of one
entry, a new entry, the removal of entries whose count is 0, and any change of order, which is what
a table that removes its entries by moving the last one makes of it.
-/

/-- The entries count `n`. -/
structure Tally {ε κ : Type*} (key : ε → κ) (count : ε → Nat) (n : κ → Nat) (es : List ε) : Prop where
  nodup : (es.map key).Nodup
  count_eq : ∀ e ∈ es, count e = n (key e)
  complete : ∀ k, n k ≠ 0 → ∃ e ∈ es, key e = k

namespace Tally

variable {ε κ : Type*} {key : ε → κ} {count : ε → Nat} {n : κ → Nat} {es : List ε}

/-- No entry is needed to count nothing. -/
theorem nil : Tally key count (fun _ ↦ 0) [] :=
  ⟨List.nodup_nil, by simp, by simp⟩

/-- The order of the entries does not matter. -/
theorem perm (h : Tally key count n es) {es' : List ε} (hperm : es'.Perm es) :
    Tally key count n es' where
  nodup := (hperm.map key).nodup_iff.mpr h.nodup
  count_eq e he := h.count_eq e (hperm.mem_iff.mp he)
  complete k hk := by
    obtain ⟨e, he, hkey⟩ := h.complete k hk
    exact ⟨e, hperm.mem_iff.mpr he, hkey⟩

/-- Entries can be rewritten in other respects. -/
theorem map (h : Tally key count n es) {f : ε → ε} (hkey : ∀ e ∈ es, key (f e) = key e)
    (hcount : ∀ e ∈ es, count (f e) = count e) : Tally key count n (es.map f) where
  nodup := by
    have hmap : (es.map f).map key = es.map key := by
      rw [List.map_map]
      exact List.map_congr_left hkey
    rw [hmap]
    exact h.nodup
  count_eq := by
    rw [List.forall_mem_map]
    intro e he
    rw [hcount e he, hkey e he]
    exact h.count_eq e he
  complete k hk := by
    obtain ⟨e, he, rfl⟩ := h.complete k hk
    exact ⟨f e, List.mem_map_of_mem he, hkey e he⟩

/-- Entries that count nothing can go. -/
theorem filter (h : Tally key count n es) {p : ε → Bool} (hp : ∀ e ∈ es, p e = false → count e = 0) :
    Tally key count n (es.filter p) where
  nodup := (List.filter_sublist.map key).nodup h.nodup
  count_eq e he := h.count_eq e (List.mem_of_mem_filter he)
  complete k hk := by
    obtain ⟨e, he, rfl⟩ := h.complete k hk
    refine ⟨e, List.mem_filter.mpr ⟨he, ?_⟩, rfl⟩
    cases hpe : p e with
    | true => rfl
    | false => exact absurd ((h.count_eq e he).symm.trans (hp e he hpe)) hk

variable [DecidableEq κ]

/-- One entry is replaced by one with the same key and another count. -/
theorem replace {front back : List ε} {e e' : ε} (h : Tally key count n (front ++ e :: back))
    (hkey : key e' = key e) :
    Tally key count (Function.update n (key e) (count e')) (front ++ e' :: back) := by
  have hkeys : (front ++ e' :: back).map key = (front ++ e :: back).map key := by simp [hkey]
  have hother : ∀ d ∈ front ++ back, d ∈ front ++ e :: back ∧ key d ≠ key e := by
    intro d hd
    have hperm : (front ++ e :: back).Perm (e :: (front ++ back)) := List.perm_middle
    have hnodup := (hperm.map key).nodup_iff.mp h.nodup
    rw [List.map_cons, List.nodup_cons] at hnodup
    refine ⟨hperm.mem_iff.mpr (List.mem_cons_of_mem e hd), fun hde ↦ hnodup.1 ?_⟩
    exact hde ▸ List.mem_map_of_mem hd
  refine ⟨hkeys ▸ h.nodup, fun d hd ↦ ?_, fun k hk ↦ ?_⟩
  · rcases List.mem_cons.mp (List.perm_middle.mem_iff.mp hd) with rfl | hd
    · rw [hkey, Function.update_self]
    · obtain ⟨hmem, hne⟩ := hother d hd
      rw [Function.update_of_ne hne]
      exact h.count_eq d hmem
  · by_cases hke : k = key e
    · exact ⟨e', by simp, hkey.trans hke.symm⟩
    · rw [Function.update_of_ne hke] at hk
      obtain ⟨d, hd, rfl⟩ := h.complete k hk
      rcases List.mem_cons.mp (List.perm_middle.mem_iff.mp hd) with rfl | hd
      · exact absurd rfl hke
      · exact ⟨d, List.perm_middle.mem_iff.mpr (List.mem_cons_of_mem e' hd), rfl⟩

/-- A new entry for a key that has none. -/
theorem append (h : Tally key count n es) {e : ε} (he : ∀ d ∈ es, key d ≠ key e) :
    Tally key count (Function.update n (key e) (count e)) (es ++ [e]) where
  nodup := by
    rw [List.map_append, List.map_singleton]
    refine List.Nodup.append h.nodup (List.nodup_singleton _) ?_
    simp only [List.disjoint_singleton, List.mem_map, not_exists, not_and]
    exact he
  count_eq d hd := by
    rcases List.mem_append.mp hd with hd | hd
    · rw [Function.update_of_ne (he d hd)]
      exact h.count_eq d hd
    · rw [List.mem_singleton.mp hd, Function.update_self]
  complete k hk := by
    by_cases hke : k = key e
    · exact ⟨e, by simp, hke.symm⟩
    · rw [Function.update_of_ne hke] at hk
      obtain ⟨d, hd, hdk⟩ := h.complete k hk
      exact ⟨d, List.mem_append_left _ hd, hdk⟩

end Tally
