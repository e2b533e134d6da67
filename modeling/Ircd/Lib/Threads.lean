import Ircd.Lib.Cells

/-!
# Threads with back pointers

Cells with a next pointer and a pointer to the place that points to them: the first pointer of a
thread or the next pointer of another cell. A cell is put in front of a thread (`push`), and taken
out through its back pointer alone (`drop`), so that only the last cell of a thread can be taken out
without a write to the cell behind it.

`Threaded t alive xs key` says of a list of cells, the newest first, that the thread of each key is
the part of the list with this key. Its lemmas are the life of a buffer that is filled in turn: the
oldest cell of the list is the last one of its thread (`Threaded.drop`), and a new cell goes in front
(`Threaded.push`).
-/

universe u v

variable {ι : Type u} {ρ : Type v}

/-- A place that keeps a pointer to a cell. -/
inductive Slot (ι : Type u) (ρ : Type v) where
  | head (i : ι)
  | next (a : ρ)

/-- The pointers of the cells, and the first pointers of the threads. -/
structure Threads (ι : Type u) (ρ : Type v) where
  head : ι → Option ρ
  next : ρ → Option ρ
  prevp : ρ → Option (Slot ι ρ)

namespace Threads

/-- Each cell points back to the place that points to it. -/
def Back (prevp : ρ → Option (Slot ι ρ)) : Slot ι ρ → List ρ → Prop
  | _, [] => True
  | s, a :: xs => prevp a = some s ∧ Back prevp (.next a) xs

/-- The thread of `i`. -/
structure Thread (t : Threads ι ρ) (i : ι) (xs : List ρ) : Prop where
  links : Links t.next (t.head i) xs none
  back : Back t.prevp (.head i) xs

variable {t t' : Threads ι ρ} {i j : ι} {a b : ρ} {xs : List ρ} {s : Slot ι ρ}
  {prevp prevp' : ρ → Option (Slot ι ρ)}

theorem Back.congr (h : Back prevp s xs) (heq : ∀ a ∈ xs, prevp' a = prevp a) :
    Back prevp' s xs := by
  induction xs generalizing s with
  | nil => trivial
  | cons a xs ih => exact ⟨(heq a (by simp)).trans h.1, ih h.2 fun b hb ↦ heq b (by simp [hb])⟩

theorem Back.append {ys : List ρ} (h : Back prevp s (xs ++ ys)) : Back prevp s xs := by
  induction xs generalizing s with
  | nil => trivial
  | cons a xs ih => exact ⟨h.1, ih h.2⟩

/-- The back pointer of the last cell. -/
theorem Back.last (h : Back prevp s (xs ++ [b, a])) : prevp a = some (.next b) := by
  induction xs generalizing s with
  | nil => exact h.2.1
  | cons c xs ih => exact ih h.2

/-- A thread depends on its first pointer and its cells only. -/
theorem Thread.congr (h : t.Thread i xs) (hhead : t'.head i = t.head i)
    (hnext : ∀ a ∈ xs, t'.next a = t.next a) (hprevp : ∀ a ∈ xs, t'.prevp a = t.prevp a) :
    t'.Thread i xs where
  links := by
    rw [hhead]
    exact (Links.congr hnext).mpr h.links
  back := h.back.congr hprevp

variable [DecidableEq ι] [DecidableEq ρ]

/-- A write to a place. -/
def write (t : Threads ι ρ) (s : Slot ι ρ) (v : Option ρ) : Threads ι ρ :=
  match s with
  | .head i => { t with head := Function.update t.head i v }
  | .next a => { t with next := Function.update t.next a v }

/-- A cell is taken out through its back pointer; there is none when it is null. -/
def drop (t : Threads ι ρ) (a : ρ) : Option (Threads ι ρ) :=
  (t.prevp a).map fun s ↦ t.write s (t.next a)

/-- A cell is put in front of a thread. -/
def push (t : Threads ι ρ) (i : ι) (a : ρ) : Threads ι ρ where
  next := Function.update t.next a (t.head i)
  prevp :=
    let prevp := match t.head i with
      | none => t.prevp
      | some b => Function.update t.prevp b (some (.next a))
    Function.update prevp a (some (.head i))
  head := Function.update t.head i (some a)

/-! ## One thread -/

theorem prevp_push_self : (t.push i a).prevp a = some (.head i) :=
  Function.update_self ..

/-- The back pointers that are written are those of the cell and of the one behind it. -/
theorem prevp_push_of_ne (hba : b ≠ a) (hb : t.head i ≠ some b) :
    (t.push i a).prevp b = t.prevp b := by
  refine (Function.update_of_ne hba _ _).trans ?_
  cases hhead : t.head i with
  | none => rfl
  | some c => exact Function.update_of_ne (fun heq ↦ hb (by rw [hhead, heq])) _ _

theorem prevp_push_next (hba : b ≠ a) (hb : t.head i = some b) :
    (t.push i a).prevp b = some (.next a) := by
  refine (Function.update_of_ne hba _ _).trans ?_
  rw [hb]
  exact Function.update_self ..

/-- A new first cell. -/
theorem Thread.push (h : t.Thread i xs) (ha : a ∉ xs) : (t.push i a).Thread i (a :: xs) where
  links := by
    show Links _ (Function.update t.head i (some a) i) _ _
    rw [Function.update_self]
    exact h.links.push ha
  back := by
    refine ⟨prevp_push_self, ?_⟩
    have hlinks := h.links
    have hback := h.back
    have hnodup := hlinks.nodup
    cases xs with
    | nil => trivial
    | cons b xs =>
        have hba : b ≠ a := fun heq ↦ ha (by simp [heq])
        refine ⟨prevp_push_next hba hlinks.1, hback.2.congr fun c hc ↦ ?_⟩
        refine prevp_push_of_ne (fun heq ↦ ha (by simp [← heq, hc])) fun heq ↦ ?_
        rw [hlinks.1] at heq
        exact (List.nodup_cons.mp hnodup).1 (Option.some.inj heq ▸ hc)

/-- A new first cell of another thread. -/
theorem Thread.push_of_ne {ys : List ρ} (h : t.Thread j ys) (hi : t.Thread i xs) (hij : j ≠ i)
    (ha : a ∉ ys) (hdisj : ∀ b ∈ xs, b ∉ ys) : (t.push i a).Thread j ys := by
  refine h.congr (Function.update_of_ne hij _ _) (fun b hb ↦ ?_) fun b hb ↦ ?_
  · exact Function.update_of_ne (ne_of_mem_of_not_mem hb ha) _ _
  · refine prevp_push_of_ne (ne_of_mem_of_not_mem hb ha) fun hhead ↦ ?_
    rw [← hi.links.head?, List.head?_eq_some_iff] at hhead
    obtain ⟨as, rfl⟩ := hhead
    exact hdisj b (by simp) hb

/-- The last cell is taken out. -/
theorem Thread.drop (h : t.Thread i (xs ++ [a])) :
    t.next a = none ∧ ∃ t', t.drop a = some t' ∧ t'.Thread i xs ∧ t'.prevp = t.prevp ∧
      (∀ j, j ≠ i → t'.head j = t.head j) ∧ ∀ b, b ∉ xs → t'.next b = t.next b := by
  have hlinks := h.links
  have hback := h.back
  have hnodup := hlinks.nodup
  have hlast : t.next a = none := hlinks.from_mem.2
  refine ⟨hlast, ?_⟩
  rcases List.eq_nil_or_concat' xs with rfl | ⟨ys, b, rfl⟩
  · have hprevp : t.prevp a = some (.head i) := hback.1
    refine ⟨{ t with head := Function.update t.head i none }, ?_, ⟨?_, trivial⟩, rfl,
      fun j hj ↦ Function.update_of_ne hj _ _, fun _ _ ↦ rfl⟩
    · rw [Threads.drop, hprevp, hlast]
      rfl
    · exact Function.update_self ..
  · rw [List.append_assoc, List.singleton_append] at hlinks hback
    have hprevp : t.prevp a = some (.next b) := hback.last
    refine ⟨{ t with next := Function.update t.next b none }, ?_, ⟨?_, h.back.append⟩, rfl,
      fun _ _ ↦ rfl, fun c hc ↦ ?_⟩
    · rw [Threads.drop, hprevp, hlast]
      rfl
    · have hunlink := hlinks.unlink
      rwa [hlast] at hunlink
    · exact Function.update_of_ne (fun heq ↦ hc (by simp [heq])) _ _

/-! ## The threads of a list -/

/-- The thread of each key in use is the part of the list with this key. -/
def Threaded (t : Threads ι ρ) (alive : ι → Prop) (xs : List ρ) (key : ρ → Option ι) : Prop :=
  ∀ i, alive i → t.Thread i (xs.filter fun a ↦ key a = some i)

variable {alive alive' : ι → Prop} {key key' : ρ → Option ι}

omit [DecidableEq ρ] in
/-- The threads do not have common cells. -/
theorem not_mem_filter (hij : j ≠ i) (ha : a ∈ xs.filter fun a ↦ key a = some i) :
    a ∉ xs.filter fun a ↦ key a = some j := by
  intro hmem
  simp only [List.mem_filter, decide_eq_true_eq] at ha hmem
  exact hij (Option.some.inj (hmem.2.symm.trans ha.2))

/-- The oldest cell is the last one of its thread, and is taken out. -/
theorem Threaded.drop (h : t.Threaded alive (xs ++ [a]) key) (hkey : key a = some i)
    (hi : alive i) (ha : a ∉ xs) :
    ∃ t', t.drop a = some t' ∧ t'.next a = none ∧ t'.Threaded alive xs key := by
  have hthread := h i hi
  have hfilter : (xs ++ [a]).filter (fun b ↦ key b = some i) =
      xs.filter (fun b ↦ key b = some i) ++ [a] := by
    rw [List.filter_append]
    simp [hkey]
  rw [hfilter] at hthread
  obtain ⟨hnext, t', hdrop, ht', hprevp, hhead, hframe⟩ := hthread.drop
  have ha' : a ∉ xs.filter fun b ↦ key b = some i := fun hmem ↦ ha (List.mem_filter.mp hmem).1
  refine ⟨t', hdrop, (hframe a ha').trans hnext, fun j hj ↦ ?_⟩
  by_cases hji : j = i
  · rw [hji]
    exact ht'
  · have hother := h j hj
    have hsame : (xs ++ [a]).filter (fun b ↦ key b = some j) =
        xs.filter (fun b ↦ key b = some j) := by
      rw [List.filter_append]
      simp [hkey, Ne.symm hji]
    rw [hsame] at hother
    refine hother.congr (hhead j hji) (fun b hb ↦ hframe b ?_) fun b _ ↦ by rw [hprevp]
    exact not_mem_filter (Ne.symm hji) hb

omit [DecidableEq ρ] in
/-- The oldest cell is in no thread. -/
theorem Threaded.skip (h : t.Threaded alive (xs ++ [a]) key) (hkey : key a = none) :
    t.Threaded alive xs key := by
  intro j hj
  have hthread := h j hj
  rw [List.filter_append] at hthread
  simpa [hkey] using hthread

/-- Another key for a cell that is not in the list. -/
theorem filter_update (ha : a ∉ xs) (k : Option ι) :
    xs.filter (fun b ↦ Function.update key a k b = some j) =
      xs.filter fun b ↦ key b = some j :=
  List.filter_congr fun b hb ↦ by rw [Function.update_of_ne (ne_of_mem_of_not_mem hb ha)]

/-- A new cell with a key. -/
theorem Threaded.push (h : t.Threaded alive xs key) (ha : a ∉ xs) (hi : alive i) :
    (t.push i a).Threaded alive (a :: xs) (Function.update key a (some i)) := by
  intro j hj
  have ha' : ∀ k, a ∉ xs.filter fun b ↦ key b = some k := fun k hmem ↦ ha (List.mem_filter.mp hmem).1
  by_cases hji : j = i
  · subst hji
    rw [List.filter_cons_of_pos (by simp), filter_update ha]
    exact (h j hj).push (ha' j)
  · rw [List.filter_cons_of_neg (by simpa using Ne.symm hji), filter_update ha]
    exact (h j hj).push_of_ne (h i hi) hji (ha' j) fun b hb ↦ not_mem_filter hji hb

/-- A new cell without a key. -/
theorem Threaded.pass (h : t.Threaded alive xs key) (ha : a ∉ xs) :
    t.Threaded alive (a :: xs) (Function.update key a none) := by
  intro j hj
  rw [List.filter_cons_of_neg (by simp), filter_update ha]
  exact h j hj

omit [DecidableEq ρ] in
/-- The cells with a key lose it, and the key is not in use any more. -/
theorem Threaded.clear (h : t.Threaded alive xs key)
    (hkey : ∀ a ∈ xs, key' a = if key a = some i then none else key a)
    (halive : ∀ j, alive' j → alive j ∧ j ≠ i) : t.Threaded alive' xs key' := by
  intro j hj
  obtain ⟨hj, hji⟩ := halive j hj
  have hfilter : xs.filter (fun a ↦ key' a = some j) = xs.filter fun a ↦ key a = some j := by
    refine List.filter_congr fun a ha ↦ ?_
    rw [hkey a ha]
    by_cases hai : key a = some i
    · simp [hai, Ne.symm hji]
    · rw [if_neg hai]
  rw [hfilter]
  exact h j hj

end Threads
