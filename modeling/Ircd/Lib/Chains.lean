import Mathlib.Algebra.BigOperators.Group.Finset.Basic
import Mathlib.Data.List.AList
import Mathlib.Data.Set.Basic
import Mathlib.Logic.Function.Basic

/-!
# Hash tables with chains

An array of buckets, each a list of entries with distinct keys, where every entry is in the bucket
of its key. `Chains.lookup` is the map such a table stands for: `lookup_insert` and `lookup_erase`
are updates of that map at one key, and `mem_entries_iff` says that the map has exactly the entries
found by walking over all buckets. `Chains.size` counts them.
-/

/-- The buckets of a table whose keys are placed by `hash`. -/
structure Chains {κ : Type*} (hash : κ → Nat) (ν : Type*) where
  bucket : Nat → AList (fun _ : κ ↦ ν)
  placed : ∀ i, ∀ e ∈ (bucket i).entries, hash e.1 = i

namespace Chains

variable {κ ν : Type*} [DecidableEq κ] {hash : κ → Nat}

/-- The table with no entry. -/
def empty : Chains hash ν where
  bucket _ := ∅
  placed i e he := by simp [AList.empty_entries] at he

/-- The value under a key, looked for in the bucket of the key only. -/
def lookup (s : Chains hash ν) (k : κ) : Option ν :=
  (s.bucket (hash k)).lookup k

/-- Removal of a key. -/
def erase (s : Chains hash ν) (k : κ) : Chains hash ν where
  bucket := Function.update s.bucket (hash k) ((s.bucket (hash k)).erase k)
  placed i e he := by
    by_cases hi : i = hash k
    · subst hi
      rw [Function.update_self] at he
      exact s.placed _ e ((List.kerase_sublist _ _).mem he)
    · rw [Function.update_of_ne hi] at he
      exact s.placed i e he

/-- A new entry at the head of its chain, in place of an older one of the same key. -/
def insert (s : Chains hash ν) (k : κ) (v : ν) : Chains hash ν where
  bucket := Function.update s.bucket (hash k) ((s.bucket (hash k)).insert k v)
  placed i e he := by
    by_cases hi : i = hash k
    · subst hi
      rw [Function.update_self, AList.entries_insert, List.mem_cons] at he
      rcases he with rfl | he
      · rfl
      · exact s.placed _ e ((List.kerase_sublist _ _).mem he)
    · rw [Function.update_of_ne hi] at he
      exact s.placed i e he

theorem bucket_erase_self (s : Chains hash ν) (k : κ) :
    (s.erase k).bucket (hash k) = (s.bucket (hash k)).erase k :=
  Function.update_self ..

theorem bucket_erase_of_ne (s : Chains hash ν) {k : κ} {i : Nat} (hi : i ≠ hash k) :
    (s.erase k).bucket i = s.bucket i :=
  Function.update_of_ne hi ..

theorem bucket_insert_self (s : Chains hash ν) (k : κ) (v : ν) :
    (s.insert k v).bucket (hash k) = (s.bucket (hash k)).insert k v :=
  Function.update_self ..

theorem bucket_insert_of_ne (s : Chains hash ν) {k : κ} (v : ν) {i : Nat} (hi : i ≠ hash k) :
    (s.insert k v).bucket i = s.bucket i :=
  Function.update_of_ne hi ..

/-- The entries of all buckets. -/
def entries (s : Chains hash ν) : Set (κ × ν) :=
  {e | ∃ i, ⟨e.1, e.2⟩ ∈ (s.bucket i).entries}

@[simp] theorem lookup_empty (k : κ) : (empty : Chains hash ν).lookup k = none := by
  simp [lookup, empty]

/-- Removing a key updates the map at that key only. -/
@[simp] theorem lookup_erase (s : Chains hash ν) (k : κ) :
    (s.erase k).lookup = Function.update s.lookup k none := by
  funext k'
  by_cases hk : k' = k
  · subst hk
    simp [lookup, erase]
  · by_cases hh : hash k' = hash k
    · simp [lookup, erase, hk, hh]
    · simp [lookup, erase, hk, Function.update_of_ne hh]

/-- Inserting a key updates the map at that key only. -/
@[simp] theorem lookup_insert (s : Chains hash ν) (k : κ) (v : ν) :
    (s.insert k v).lookup = Function.update s.lookup k (some v) := by
  funext k'
  by_cases hk : k' = k
  · subst hk
    simp [lookup, insert]
  · by_cases hh : hash k' = hash k
    · simp [lookup, insert, hk, hh]
    · simp [lookup, insert, hk, Function.update_of_ne hh]

/-- A walk over all buckets finds the entries that lookups find. -/
theorem mem_entries_iff {s : Chains hash ν} {k : κ} {v : ν} :
    (k, v) ∈ s.entries ↔ s.lookup k = some v := by
  rw [lookup, ← Option.mem_def, AList.mem_lookup_iff]
  constructor
  · rintro ⟨i, hi⟩
    have hplaced := s.placed i _ hi
    subst hplaced
    exact hi
  · intro h
    exact ⟨hash k, h⟩

/-- Tables with the same map have the same entries. -/
theorem entries_eq_iff {s t : Chains hash ν} : s.entries = t.entries ↔ s.lookup = t.lookup := by
  constructor
  · intro h
    funext k
    apply Option.ext
    intro v
    have hk := Set.ext_iff.mp h (k, v)
    rwa [mem_entries_iff, mem_entries_iff] at hk
  · intro h
    ext ⟨k, v⟩
    rw [mem_entries_iff, mem_entries_iff, h]

/-! ## The number of entries -/

/-- The number of entries in the first `n` buckets. -/
def size (n : Nat) (s : Chains hash ν) : Nat :=
  ∑ i ∈ Finset.range n, (s.bucket i).entries.length

omit [DecidableEq κ] in
@[simp] theorem size_empty (n : Nat) : (empty : Chains hash ν).size n = 0 := by
  simp [size, empty, AList.empty_entries]

omit [DecidableEq κ] in
/-- The size is the bucket of a key and the others. -/
theorem size_eq (s : Chains hash ν) {n : Nat} {k : κ} (hk : hash k < n) :
    s.size n = (s.bucket (hash k)).entries.length +
      ∑ i ∈ (Finset.range n).erase (hash k), (s.bucket i).entries.length :=
  (Finset.add_sum_erase _ (fun i ↦ (s.bucket i).entries.length) (Finset.mem_range.mpr hk)).symm

omit [DecidableEq κ] in
/-- The other buckets are not counted again when one is replaced. -/
theorem sum_erase_update (bucket : Nat → AList (fun _ : κ ↦ ν)) (n i : Nat)
    (b : AList (fun _ : κ ↦ ν)) :
    ∑ j ∈ (Finset.range n).erase i, (Function.update bucket i b j).entries.length =
      ∑ j ∈ (Finset.range n).erase i, (bucket j).entries.length := by
  refine Finset.sum_congr rfl fun j hj ↦ ?_
  rw [Function.update_of_ne (Finset.ne_of_mem_erase hj)]

/-- Removing a key that is there makes the table smaller by one. -/
theorem size_erase (s : Chains hash ν) {n : Nat} {k : κ} (hk : hash k < n)
    (hlookup : (s.lookup k).isSome = true) : (s.erase k).size n + 1 = s.size n := by
  have hmem : k ∈ (s.bucket (hash k)).entries.keys := AList.lookup_isSome.mp hlookup
  have hpos : 0 < (s.bucket (hash k)).entries.keys.length := List.length_pos_of_mem hmem
  have hlength : ((s.bucket (hash k)).erase k).entries.keys.length =
      (s.bucket (hash k)).entries.keys.length - 1 := by
    show ((s.bucket (hash k)).erase k).keys.length = _
    rw [AList.keys_erase]
    exact List.length_erase_of_mem hmem
  simp only [List.keys, List.length_map] at hpos hlength
  rw [size_eq _ hk, size_eq s hk]
  simp only [erase, Function.update_self, sum_erase_update]
  omega

/-- Inserting a key that is not there makes the table larger by one. -/
theorem size_insert (s : Chains hash ν) {n : Nat} {k : κ} (hk : hash k < n) (v : ν)
    (hlookup : s.lookup k = none) : (s.insert k v).size n = s.size n + 1 := by
  have hmem : k ∉ (s.bucket (hash k)).entries.keys := AList.lookup_eq_none.mp hlookup
  rw [size_eq _ hk, size_eq s hk]
  simp only [insert, Function.update_self, sum_erase_update, AList.entries_insert,
    List.kerase_of_notMem_keys hmem, List.length_cons]
  omega

end Chains
