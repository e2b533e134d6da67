import Mathlib.Logic.Function.Basic
import Mathlib.Data.List.Basic

/-!
# Replaying a log of assignments

An entry gives a key a new value or takes its value away, and a log is replayed entry by entry from
an old map. The last entry of a key decides. `replay_filter_kept` is the correctness of compaction:
a log of which only the entries that agree with the final map are kept replays to the same map.
-/

namespace Log

variable {κ ν : Type*} [DecidableEq κ]

/-- A key with its new value, or with `none` for a deletion. -/
abbrev Entry (κ ν : Type*) := κ × Option ν

/-- One entry applied to a map. -/
def apply (m : κ → Option ν) (e : Entry κ ν) : κ → Option ν :=
  Function.update m e.1 e.2

/-- The map after all entries of a log. -/
def replay (m : κ → Option ν) (log : List (Entry κ ν)) : κ → Option ν :=
  log.foldl apply m

@[simp] theorem replay_nil (m : κ → Option ν) : replay m [] = m := rfl

@[simp] theorem replay_cons (m : κ → Option ν) (e : Entry κ ν) (log : List (Entry κ ν)) :
    replay m (e :: log) = replay (apply m e) log := rfl

theorem replay_append (m : κ → Option ν) (log rest : List (Entry κ ν)) :
    replay m (log ++ rest) = replay (replay m log) rest :=
  List.foldl_append

/-- A key that no entry names keeps its old value. -/
theorem replay_of_not_mem {m : κ → Option ν} {k : κ} {log : List (Entry κ ν)}
    (h : ∀ e ∈ log, e.1 ≠ k) : replay m log k = m k := by
  induction log generalizing m with
  | nil => rfl
  | cons e log ih =>
      rw [List.forall_mem_cons] at h
      rw [replay_cons, ih h.2, apply, Function.update_of_ne h.1.symm]

/-- When all entries of a key give it one value and there is such an entry, that value stays. -/
theorem replay_of_forall {m : κ → Option ν} {k : κ} {v : Option ν} {log : List (Entry κ ν)}
    (h : ∀ e ∈ log, e.1 = k → e.2 = v) (hmem : (∃ e ∈ log, e.1 = k) ∨ m k = v) :
    replay m log k = v := by
  induction log generalizing m with
  | nil => simpa using hmem
  | cons e log ih =>
      rw [List.forall_mem_cons] at h
      rw [replay_cons]
      apply ih h.2
      by_cases he : e.1 = k
      · right
        subst he
        rw [apply, Function.update_self, h.1 rfl]
      · rcases hmem with ⟨d, hd, hk⟩ | hmem
        · rcases List.mem_cons.mp hd with rfl | hd
          · exact absurd hk he
          · exact .inl ⟨d, hd, hk⟩
        · right
          rw [apply, Function.update_of_ne (Ne.symm he), hmem]

/-- A key that an entry names ends with the same value, whatever the map was. -/
theorem replay_congr {m m' : κ → Option ν} {k : κ} {log : List (Entry κ ν)}
    (h : ∃ e ∈ log, e.1 = k) : replay m log k = replay m' log k := by
  induction log generalizing m m' with
  | nil => simp at h
  | cons e log ih =>
      rw [replay_cons, replay_cons]
      by_cases hlog : ∃ e ∈ log, e.1 = k
      · exact ih hlog
      · have hno : ∀ e ∈ log, e.1 ≠ k := fun e he hek ↦ hlog ⟨e, he, hek⟩
        have he : e.1 = k := by
          obtain ⟨d, hd, hdk⟩ := h
          rcases List.mem_cons.mp hd with rfl | hd
          · exact hdk
          · exact absurd hdk (hno d hd)
        rw [replay_of_not_mem hno, replay_of_not_mem hno, ← he, apply, apply, Function.update_self,
          Function.update_self]

/-- A key that an entry names ends with the value of one of its entries. -/
theorem exists_mem_replay {m : κ → Option ν} {k : κ} {log : List (Entry κ ν)}
    (h : ∃ e ∈ log, e.1 = k) : (k, replay m log k) ∈ log := by
  induction log generalizing m with
  | nil => simp at h
  | cons e log ih =>
      rw [replay_cons]
      by_cases hlog : ∃ e ∈ log, e.1 = k
      · exact List.mem_cons_of_mem e (ih hlog)
      · have hno : ∀ e ∈ log, e.1 ≠ k := fun e he hek ↦ hlog ⟨e, he, hek⟩
        have he : e.1 = k := by
          obtain ⟨d, hd, hdk⟩ := h
          rcases List.mem_cons.mp hd with rfl | hd
          · exact hdk
          · exact absurd hdk (hno d hd)
        subst he
        rw [replay_of_not_mem hno, apply, Function.update_self]
        exact List.mem_cons_self

/-- A value after a replay was there before or is an entry of the log. -/
theorem mem_of_replay {m : κ → Option ν} {k : κ} {v : ν} {log : List (Entry κ ν)}
    (h : replay m log k = some v) : m k = some v ∨ (k, some v) ∈ log := by
  induction log generalizing m with
  | nil => exact .inl h
  | cons e log ih =>
      rcases ih h with hm | hlog
      · by_cases he : k = e.1
        · subst he
          rw [apply, Function.update_self] at hm
          right
          rw [← hm]
          exact List.mem_cons_self
        · rw [apply, Function.update_of_ne he] at hm
          exact .inl hm
      · exact .inr (List.mem_cons_of_mem e hlog)

/-- The map with no key. -/
def empty : κ → Option ν := fun _ ↦ none

/-- The entries that a compaction keeps: insertions of the value the map still has. -/
def kept [DecidableEq ν] (m : κ → Option ν) (e : Entry κ ν) : Bool :=
  e.2.isSome ∧ m e.1 = e.2

/-- A log of which only the entries that agree with a map are kept replays to this map, if every
value of the map is there. -/
theorem replay_filter_kept [DecidableEq ν] {m : κ → Option ν} {log : List (Entry κ ν)}
    (hm : ∀ k v, m k = some v → (k, some v) ∈ log) :
    replay empty (log.filter (kept m)) = m := by
  funext k
  cases hk : m k with
  | none =>
      apply replay_of_not_mem
      rintro ⟨k', v'⟩ he rfl
      obtain ⟨-, hkept⟩ := List.mem_filter.mp he
      simp only [kept, hk, Bool.decide_and, Bool.and_eq_true, decide_eq_true_eq] at hkept
      obtain ⟨hsome, rfl⟩ := hkept
      simp at hsome
  | some v =>
      apply replay_of_forall
      · rintro ⟨k', v'⟩ he rfl
        obtain ⟨-, hkept⟩ := List.mem_filter.mp he
        simp only [kept, hk, Bool.decide_and, Bool.and_eq_true, decide_eq_true_eq] at hkept
        exact hkept.2.symm
      · left
        refine ⟨(k, some v), List.mem_filter.mpr ⟨hm k v hk, ?_⟩, rfl⟩
        simp [kept, hk]

/-- The values that a replay from the empty map leaves are entries of the log. -/
theorem mem_of_replay_empty {k : κ} {v : ν} {log : List (Entry κ ν)}
    (h : replay empty log k = some v) : (k, some v) ∈ log := by
  rcases mem_of_replay h with hempty | hlog
  · simp [empty] at hempty
  · exact hlog

end Log
