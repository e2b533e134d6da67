import Mathlib.Data.Fintype.Card
import Mathlib.Data.List.Nodup
import Mathlib.Logic.Function.Basic
import Mathlib.Tactic.Tauto

/-!
# Linked cells

A memory of cells that each point to the next one is a function `next`, and `Links next p xs q` says
that the pointers lead from `p` over the cells `xs`, in this order, to `q`. A list that ends in the
null pointer is determined by its first pointer (`Links.unique`) and has no cell twice
(`Links.nodup`). A write to a cell that is not in a list does not change the list (`Links.update`).
`LinkedLists next head lista` is a family of lists without common cells, each with its first pointer, and
its lemmas are the writes that such lists are built with: a cell put in front, the first cell or one
behind another taken out, and a cell put behind the last one. The loops over a list have fuel; the
number of all cells is enough (`Links.length_le`).
-/

universe u

variable {ρ : Type u}

/-- The pointers lead from `p` over the cells to `q`. -/
def Links (next : ρ → Option ρ) : Option ρ → List ρ → Option ρ → Prop
  | p, [], q => p = q
  | p, a :: xs, q => p = some a ∧ Links next (next a) xs q

namespace Links

variable {next next' : ρ → Option ρ} {p q r : Option ρ} {a b : ρ} {xs ys : List ρ}

@[simp] theorem nil : Links next p [] q ↔ p = q := .rfl

@[simp] theorem cons : Links next p (a :: xs) q ↔ p = some a ∧ Links next (next a) xs q := .rfl

/-- Two lists, the second of which begins where the first one ends. -/
theorem append : Links next p (xs ++ ys) q ↔ ∃ m, Links next p xs m ∧ Links next m ys q := by
  induction xs generalizing p with
  | nil => simp
  | cons a xs ih => simp [ih, and_assoc]

/-- The cells behind a null pointer. -/
theorem of_none (h : Links next none xs q) : xs = [] ∧ q = none := by
  cases xs with
  | nil => exact ⟨rfl, h.symm⟩
  | cons a xs => simp at h

/-- The first cell. -/
theorem head? (h : Links next p xs none) : xs.head? = p := by
  cases xs with
  | nil => exact h.symm
  | cons a xs => exact h.1.symm

/-- A list that ends in the null pointer is determined by its first pointer. -/
theorem unique (hx : Links next p xs none) (hy : Links next p ys none) : xs = ys := by
  induction xs generalizing p ys with
  | nil =>
      rw [nil] at hx
      subst hx
      exact hy.of_none.1.symm
  | cons a xs ih =>
      obtain ⟨rfl, hx⟩ := hx
      cases ys with
      | nil => simp at hy
      | cons b ys =>
          obtain ⟨hab, hy⟩ := hy
          obtain rfl := Option.some.inj hab
          rw [ih hx hy]

/-- The part of a list from a cell on. -/
theorem from_mem (h : Links next p (xs ++ a :: ys) q) : Links next (some a) (a :: ys) q := by
  obtain ⟨m, -, hm⟩ := append.mp h
  exact ⟨rfl, hm.2⟩

/-- No cell is twice in a list that ends in the null pointer. -/
theorem nodup (h : Links next p xs none) : xs.Nodup := by
  induction xs generalizing p with
  | nil => exact List.nodup_nil
  | cons a xs ih =>
      refine List.nodup_cons.mpr ⟨fun hmem ↦ ?_, ih h.2⟩
      -- The list from the second occurrence on would be as long as the whole one.
      obtain ⟨as, bs, rfl⟩ := List.append_of_mem hmem
      have htail : Links next (some a) (a :: bs) none := from_mem h.2
      have hwhole : Links next (some a) (a :: (as ++ a :: bs)) none := ⟨rfl, h.2⟩
      have hlen := congrArg List.length (unique htail hwhole)
      simp only [List.length_cons, List.length_append] at hlen
      omega

/-- A list is not longer than the memory. -/
theorem length_le [Fintype ρ] (h : Links next p xs none) : xs.length ≤ Fintype.card ρ :=
  h.nodup.length_le_card

/-- A list depends on its own cells only. -/
theorem congr (heq : ∀ a ∈ xs, next' a = next a) : Links next' p xs q ↔ Links next p xs q := by
  induction xs generalizing p with
  | nil => rfl
  | cons a xs ih =>
      rw [cons, cons, heq a (by simp), ih fun b hb ↦ heq b (by simp [hb])]

variable [DecidableEq ρ]

/-- A write to another cell. -/
theorem update (ha : a ∉ xs) : Links (Function.update next a r) p xs q ↔ Links next p xs q :=
  congr fun _ hb ↦ Function.update_of_ne (ne_of_mem_of_not_mem hb ha) r next

/-- A cell is put in front. -/
theorem push (h : Links next p xs q) (ha : a ∉ xs) :
    Links (Function.update next a p) (some a) (a :: xs) q := by
  refine ⟨rfl, ?_⟩
  rw [Function.update_self]
  exact (update ha).mpr h

/-- The cell behind another one is taken out. -/
theorem unlink (h : Links next p (xs ++ a :: b :: ys) none) :
    Links (Function.update next a (next b)) p (xs ++ a :: ys) none := by
  have hnodup := h.nodup
  obtain ⟨m, hxs, rfl, hab, hys⟩ := append.mp h
  rw [List.nodup_append] at hnodup
  obtain ⟨-, hays, hdisj⟩ := hnodup
  have haxs : a ∉ xs := fun hmem ↦ hdisj a hmem a (by simp) rfl
  have hays : a ∉ ys := fun hmem ↦ (List.nodup_cons.mp hays).1 (by simp [hmem])
  refine append.mpr ⟨some a, (update haxs).mpr hxs, rfl, ?_⟩
  rw [Function.update_self]
  exact (update hays).mpr hys

/-- A cell is put behind the last one. -/
theorem extend (h : Links next p (xs ++ [a]) none) (hb : b ∉ xs ++ [a]) (hnext : next b = none) :
    Links (Function.update next a (some b)) p (xs ++ [a, b]) none := by
  have hnodup := h.nodup
  obtain ⟨m, hxs, rfl, -⟩ := append.mp h
  rw [List.nodup_append] at hnodup
  have haxs : a ∉ xs := fun hmem ↦ hnodup.2.2 a hmem a (by simp) rfl
  have hba : b ≠ a := fun heq ↦ hb (by simp [heq])
  refine append.mpr ⟨some a, (update haxs).mpr hxs, rfl, ?_⟩
  rw [Function.update_self]
  refine ⟨rfl, ?_⟩
  rw [Function.update_of_ne hba]
  exact hnext

end Links

/-! ## Families of lists -/

/-- Lists without common cells, each behind its first pointer. -/
structure LinkedLists {ι : Type*} (next : ρ → Option ρ) (head : ι → Option ρ) (lista : ι → List ρ) :
    Prop where
  links : ∀ i, Links next (head i) (lista i) none
  disjoint : ∀ i j p, p ∈ lista i → p ∈ lista j → i = j

namespace LinkedLists

variable {ι : Type*} [DecidableEq ι] {next : ρ → Option ρ} {head : ι → Option ρ}
  {lista : ι → List ρ} {i : ι} {p c : ρ} {xs as bs : List ρ}

/-- A part of the list `i` in its place, possibly with a cell that was in no list. -/
theorem disjoint_update (h : LinkedLists next head lista)
    (hxs : ∀ q ∈ xs, q ∈ lista i ∨ ∀ j, q ∉ lista j) (j k : ι) (q : ρ)
    (hj : q ∈ Function.update lista i xs j) (hk : q ∈ Function.update lista i xs k) : j = k := by
  have hplace : ∀ l, q ∈ Function.update lista i xs l → l = i ∧ q ∈ xs ∨ l ≠ i ∧ q ∈ lista l := by
    intro l hl
    by_cases hli : l = i
    · rw [hli, Function.update_self] at hl
      exact Or.inl ⟨hli, hl⟩
    · rw [Function.update_of_ne hli] at hl
      exact Or.inr ⟨hli, hl⟩
  have hapart : ∀ l, l ≠ i → q ∈ lista l → q ∉ xs := by
    intro l hli hl hq
    rcases hxs q hq with hi | hno
    · exact hli (h.disjoint l i q hl hi)
    · exact hno l hl
  rcases hplace j hj with ⟨hji, hqj⟩ | ⟨hji, hqj⟩ <;> rcases hplace k hk with ⟨hki, hqk⟩ | ⟨hki, hqk⟩
  · rw [hji, hki]
  · exact absurd hqj (hapart k hki hqk)
  · exact absurd hqk (hapart j hji hqj)
  · exact h.disjoint j k q hqj hqk

/-- The first cell of a list is taken out. -/
theorem pop (h : LinkedLists next head lista) (hsplit : lista i = p :: xs) :
    LinkedLists next (Function.update head i (next p)) (Function.update lista i xs) where
  links j := by
    by_cases hj : j = i
    · subst hj
      simp only [Function.update_self]
      exact (hsplit ▸ h.links j).2
    · simp only [Function.update_of_ne hj]
      exact h.links j
  disjoint := h.disjoint_update fun q hq ↦ Or.inl (by rw [hsplit]; exact List.mem_cons_of_mem p hq)

/-- A first cell that is taken out is in no list. -/
theorem not_mem_pop (h : LinkedLists next head lista) (hsplit : lista i = p :: xs) (j : ι) :
    p ∉ Function.update lista i xs j := by
  intro hmem
  by_cases hj : j = i
  · subst hj
    have hnodup := (h.links j).nodup
    rw [hsplit, List.nodup_cons] at hnodup
    rw [Function.update_self] at hmem
    exact hnodup.1 hmem
  · rw [Function.update_of_ne hj] at hmem
    exact hj (h.disjoint j i p hmem (by rw [hsplit]; exact List.mem_cons_self))

variable [DecidableEq ρ]

omit [DecidableEq ι] in
/-- A write to a cell that is in no list. -/
theorem touch (h : LinkedLists next head lista) (hp : ∀ j, p ∉ lista j) (v : Option ρ) :
    LinkedLists (Function.update next p v) head lista where
  links j := (Links.update (hp j)).mpr (h.links j)
  disjoint := h.disjoint

/-- A cell that is in no list is put in front of one. -/
theorem push (h : LinkedLists next head lista) (hp : ∀ j, p ∉ lista j) (i : ι) :
    LinkedLists (Function.update next p (head i)) (Function.update head i (some p))
      (Function.update lista i (p :: lista i)) where
  links j := by
    by_cases hj : j = i
    · subst hj
      simp only [Function.update_self]
      exact (h.links j).push (hp j)
    · simp only [Function.update_of_ne hj]
      exact (Links.update (hp j)).mpr (h.links j)
  disjoint := h.disjoint_update fun q hq ↦ by
    rcases List.mem_cons.mp hq with rfl | hq
    · exact Or.inr hp
    · exact Or.inl hq

/-- The cell behind another one is taken out. -/
theorem unlink (h : LinkedLists next head lista) (hsplit : lista i = as ++ c :: p :: bs) :
    LinkedLists (Function.update next c (next p)) head (Function.update lista i (as ++ c :: bs)) where
  links j := by
    by_cases hj : j = i
    · subst hj
      rw [Function.update_self]
      exact (hsplit ▸ h.links j).unlink
    · have hc : c ∉ lista j := by
        intro hmem
        exact hj (h.disjoint j i c hmem (by simp [hsplit]))
      rw [Function.update_of_ne hj]
      exact (Links.update hc).mpr (h.links j)
  disjoint := h.disjoint_update fun q hq ↦ Or.inl (by
    rw [hsplit]
    simp only [List.mem_append, List.mem_cons] at hq ⊢
    tauto)

/-- A cell is taken out of a list, through the first pointer or through the cell before it. -/
theorem cut (h : LinkedLists next head lista) (hsplit : lista i = as ++ p :: bs) :
    match as.getLast? with
    | none => LinkedLists next (Function.update head i (next p)) (Function.update lista i (as ++ bs))
    | some c => LinkedLists (Function.update next c (next p)) head
        (Function.update lista i (as ++ bs)) := by
  rcases List.eq_nil_or_concat' as with rfl | ⟨as, c, rfl⟩
  · exact h.pop hsplit
  · rw [List.append_assoc, List.singleton_append] at hsplit
    have hunlink := h.unlink hsplit
    rw [List.getLast?_append_cons, List.getLast?_singleton, List.append_assoc,
      List.singleton_append]
    exact hunlink

/-- A cell that is in no list is put behind the last cell of one. -/
theorem extend (h : LinkedLists next head lista) (hp : ∀ j, p ∉ lista j) (hnext : next p = none)
    (hsplit : lista i = as ++ [c]) :
    LinkedLists (Function.update next c (some p)) head (Function.update lista i (as ++ [c, p])) where
  links j := by
    by_cases hj : j = i
    · subst hj
      have hpj := hp j
      rw [hsplit] at hpj
      rw [Function.update_self]
      exact (hsplit ▸ h.links j).extend hpj hnext
    · have hc : c ∉ lista j := by
        intro hmem
        exact hj (h.disjoint j i c hmem (by simp [hsplit]))
      rw [Function.update_of_ne hj]
      exact (Links.update hc).mpr (h.links j)
  disjoint := h.disjoint_update fun q hq ↦ by
    by_cases hqp : q = p
    · exact Or.inr (hqp ▸ hp)
    · refine Or.inl ?_
      rw [hsplit]
      simp only [List.mem_append, List.mem_cons, List.not_mem_nil, or_false] at hq ⊢
      tauto

end LinkedLists

/-! ## Loops over a list -/

namespace Cells

variable (next : ρ → Option ρ)

/-- The first cell that satisfies `good`. -/
def find (good : ρ → Bool) : Nat → Option ρ → Option ρ
  | 0, _ => none
  | _ + 1, none => none
  | fuel + 1, some a => if good a then some a else find good fuel (next a)

/-- The first cell whose next cell satisfies `good`. -/
def findPrev (good : ρ → Bool) : Nat → Option ρ → Option ρ
  | 0, _ => none
  | _ + 1, none => none
  | fuel + 1, some a =>
      match next a with
      | none => none
      | some b => if good b then some a else findPrev good fuel (some b)

/-- The first cell that satisfies `good`, with the cell that was visited before it. -/
def locate (good : ρ → Bool) : Nat → Option ρ → Option ρ → Option ρ × Option ρ
  | _, prev, none => (prev, none)
  | 0, prev, some _ => (prev, none)
  | fuel + 1, prev, some a =>
      if good a then (prev, some a) else locate good fuel (some a) (next a)

/-- The cells from a pointer on. -/
def walk : Nat → Option ρ → List ρ
  | 0, _ => []
  | _ + 1, none => []
  | fuel + 1, some a => a :: walk fuel (next a)

variable {next} (good : ρ → Bool) {p : Option ρ} {xs : List ρ} {fuel : Nat}

/-- The loop finds what is in the list. -/
theorem find_eq (h : Links next p xs none) (hfuel : xs.length ≤ fuel) :
    find next good fuel p = xs.find? good := by
  induction xs generalizing p fuel with
  | nil =>
      rw [Links.nil] at h
      subst h
      cases fuel <;> rfl
  | cons a xs ih =>
      obtain ⟨rfl, h⟩ := h
      cases fuel with
      | zero => simp at hfuel
      | succ fuel =>
          rw [find, List.find?_cons, ih h (Nat.le_of_succ_le_succ hfuel)]
          cases good a <;> rfl

/-- The loop stops at the first good cell. -/
theorem locate_eq_some {as bs : List ρ} {b : ρ} (prev : Option ρ)
    (h : Links next p (as ++ b :: bs) none) (hfuel : (as ++ b :: bs).length ≤ fuel)
    (has : ∀ a ∈ as, good a = false) (hb : good b = true) :
    locate next good fuel prev p = (as.getLast?.or prev, some b) := by
  induction as generalizing p fuel prev with
  | nil =>
      obtain ⟨rfl, -⟩ := h
      cases fuel with
      | zero => simp at hfuel
      | succ fuel => simp [locate, hb]
  | cons a as ih =>
      obtain ⟨rfl, h⟩ := h
      cases fuel with
      | zero => simp at hfuel
      | succ fuel =>
          have hrest := ih (some a) h (Nat.le_of_succ_le_succ hfuel)
            fun c hc ↦ has c (by simp [hc])
          rw [locate, has a (by simp), hrest, List.getLast?_cons]
          cases as.getLast? <;> simp

/-- The loop runs to the end when no cell is good. -/
theorem locate_eq_none {prev : Option ρ} (h : Links next p xs none)
    (hxs : ∀ a ∈ xs, good a = false) : (locate next good fuel prev p).2 = none := by
  induction xs generalizing p fuel prev with
  | nil =>
      rw [Links.nil] at h
      subst h
      rw [locate]
  | cons a xs ih =>
      obtain ⟨rfl, h⟩ := h
      cases fuel with
      | zero => rw [locate]
      | succ fuel =>
          rw [locate, hxs a (by simp)]
          exact ih h fun c hc ↦ hxs c (by simp [hc])

theorem walk_eq (h : Links next p xs none) (hfuel : xs.length ≤ fuel) :
    walk next fuel p = xs := by
  induction xs generalizing p fuel with
  | nil =>
      rw [Links.nil] at h
      subst h
      cases fuel <;> rfl
  | cons a xs ih =>
      obtain ⟨rfl, h⟩ := h
      cases fuel with
      | zero => simp at hfuel
      | succ fuel => rw [walk, ih h (Nat.le_of_succ_le_succ hfuel)]

/-- The loop stops in front of the first good cell behind the first cell. -/
theorem findPrev_eq_some {a b : ρ} (h : Links next (some a) (a :: xs) none)
    (hfuel : xs.length < fuel) (hfind : xs.find? good = some b) :
    ∃ as c bs, a :: xs = as ++ c :: b :: bs ∧ findPrev next good fuel (some a) = some c := by
  induction xs generalizing a fuel with
  | nil => simp at hfind
  | cons d xs ih =>
      obtain ⟨-, had, hd⟩ := h
      cases fuel with
      | zero => simp at hfuel
      | succ fuel =>
          rw [findPrev, had]
          rw [List.find?_cons] at hfind
          cases hgood : good d with
          | true =>
              rw [hgood] at hfind
              obtain rfl := Option.some.inj hfind
              exact ⟨[], a, xs, rfl, by simp [hgood]⟩
          | false =>
              rw [hgood] at hfind
              obtain ⟨as, c, bs, hsplit, hprev⟩ :=
                ih ⟨rfl, hd⟩ (Nat.lt_of_succ_lt_succ hfuel) hfind
              exact ⟨a :: as, c, bs, by rw [hsplit, List.cons_append], by simpa [hgood] using hprev⟩

/-- The loop runs to the end when no cell behind the first one is good. -/
theorem findPrev_eq_none {a : ρ} (h : Links next (some a) (a :: xs) none)
    (hfind : xs.find? good = none) : findPrev next good fuel (some a) = none := by
  induction fuel generalizing a xs with
  | zero => rfl
  | succ fuel ih =>
      obtain ⟨-, ha⟩ := h
      cases xs with
      | nil =>
          rw [Links.nil] at ha
          rw [findPrev, ha]
      | cons d xs =>
          obtain ⟨had, hd⟩ := ha
          rw [List.find?_cons] at hfind
          cases hgood : good d with
          | true => simp [hgood] at hfind
          | false =>
              rw [hgood] at hfind
              rw [findPrev, had]
              simpa [hgood] using ih ⟨rfl, hd⟩ hfind

/-- The loop that looks for a cell of the list stops in front of it. -/
theorem findPrev_cell [DecidableEq ρ] {a b : ρ} (h : Links next (some a) (a :: xs) none)
    (hfuel : xs.length < fuel) (hb : b ∈ xs) : ∃ as c bs, a :: xs = as ++ c :: b :: bs ∧
      findPrev next (· = b) fuel (some a) = some c := by
  obtain ⟨as, bs, hsplit, hnot⟩ := List.eq_append_cons_of_mem hb
  have hfind : xs.find? (· = b) = some b := by
    rw [List.find?_eq_some_iff_append]
    exact ⟨by simp, as, bs, hsplit, fun c hc ↦ by simpa using ne_of_mem_of_not_mem hc hnot⟩
  exact findPrev_eq_some _ h hfuel hfind

theorem erase_split [DecidableEq ρ] {as bs : List ρ} {c b : ρ} (h : (as ++ c :: b :: bs).Nodup) :
    (as ++ c :: b :: bs).erase b = as ++ c :: bs := by
  have hsplit : as ++ c :: b :: bs = as ++ [c] ++ b :: bs := by simp
  rw [hsplit] at h ⊢
  have hb : b ∉ as ++ [c] := fun hmem ↦ (List.nodup_append.mp h).2.2 b hmem b (by simp) rfl
  rw [List.erase_append_right _ hb, List.erase_cons_head, List.append_assoc, List.singleton_append]

end Cells
