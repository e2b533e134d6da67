import Ircd.Common
import Ircd.Lib.Cells

/-!
# A name table

The tables of clients, channels and watched nicks of `ircd/hash.c` are three copies of one table: an
array of first entries, and in each entry a pointer to the next one of its chain. `Tabla` is that
table over the addresses `ρ` of the entries, and its operations are the bodies of the functions of
`hash.c`; the loops have the number of all addresses as fuel. `Coherente` is the invariant, and each
operation has one lemma about it.
-/

namespace Ircd.Hash

open CString

/-! ## Names -/

/-- `strCasediff`: 0 when the names are equal up to case. -/
def strCasediff : CStr → CStr → Nat
  | [], [] => 0
  | a :: ra, b :: rb => if toLower a = toLower b then strCasediff ra rb else 1
  | _, _ => 1

theorem strCasediff_eq_zero {a b : CStr} : strCasediff a b = 0 ↔ fold a = fold b := by
  fun_induction strCasediff a b with
  | case1 => simp [fold]
  | case2 a ra b rb h ih => simpa [fold, h] using ih
  | case3 a ra b rb h => simp [fold, h]
  | case4 a b h h' =>
      cases a with
      | nil => cases b with
        | nil => exact absurd rfl (h rfl)
        | cons d b => simp [fold]
      | cons c a => cases b with
        | nil => simp [fold]
        | cons d b => exact absurd rfl (h' c a d b rfl)

/-- Characters that are equal up to case have the same weight. -/
theorem hashWeight_toLower (c : Char) : hashWeight (toLower c) = hashWeight c := by
  by_cases h : isUpperCode c.toNat = true
  · have hlow : toLower c = Char.ofNat (c.toNat + 32) := by rw [toLower, if_pos h]
    have hcode := toNat_ofNat_of_isUpperCode h
    have hdown : ¬(32 ≤ c.toNat ∧ isUpperCode (c.toNat - 32) = true) := by
      simp only [isUpperCode, decide_eq_true_eq] at h ⊢
      omega
    simp only [hashWeight, hlow, hcode]
    rw [if_neg hdown, if_pos ⟨by omega, by rwa [Nat.add_sub_cancel]⟩, Nat.add_sub_cancel]
  · rw [toLower, if_neg h]

theorem strhash_fold (s : CStr) : strhash (fold s) = strhash s := by
  cases s with
  | nil => rfl
  | cons c n =>
      have hstep : (fun h c ↦ hashMap h + hashWeight (toLower c)) =
          fun h c ↦ hashMap h + hashWeight c := by
        funext h c
        rw [hashWeight_toLower]
      rw [fold, List.map_cons, strhash, strhash, hashWeight_toLower, List.foldl_map, hstep]

/-- Names that are equal up to case are in the same chain. -/
theorem strhash_eq {a b : CStr} (h : fold a = fold b) : strhash a = strhash b := by
  rw [← strhash_fold a, h, strhash_fold]

/-! ## Operations -/

/-- A table: the first entry of each chain, the pointers of the entries, and their names. -/
structure Tabla (ρ : Type) where
  table : Nat → Option ρ
  hnext : ρ → Option ρ
  name : ρ → CStr

namespace Tabla

variable {ρ : Type} [DecidableEq ρ]

/-- The caller writes a name into an entry. -/
def conNombre (t : Tabla ρ) (p : ρ) (name : CStr) : Tabla ρ :=
  { t with name := Function.update t.name p name }

/-- The entry has the name, up to case, and is of the kind that is looked for. -/
def es (t : Tabla ρ) (name : CStr) (sirve : ρ → Bool) (p : ρ) : Bool :=
  sirve p && (strCasediff name (t.name p) = 0 : Bool)

/-- An entry is put at the head of a chain. -/
def empuja (t : Tabla ρ) (p : ρ) (hashv : Nat) : Tabla ρ :=
  { t with
    hnext := Function.update t.hnext p (t.table hashv)
    table := Function.update t.table hashv (some p) }

/-- `hAddClient`, `hAddChannel` and `hAddWatch`. -/
def add (t : Tabla ρ) (p : ρ) : Tabla ρ :=
  t.empuja p (strhash (t.name p))

variable [Fintype ρ]

/-- `hRemClient`, `hRemChannel` and `hRemWatch`, with the value they return. -/
def rem (t : Tabla ρ) (p : ρ) : Int × Tabla ρ :=
  let hashv := strhash (t.name p)
  if t.table hashv = some p then
    (0, { t with table := Function.update t.table hashv (t.hnext p) })
  else
    match Cells.findPrev t.hnext (· = p) (Fintype.card ρ) (t.table hashv) with
    | none => (-1, t)
    | some tmp =>
        (0, { t with hnext := Function.update t.hnext tmp ((t.hnext tmp).bind t.hnext) })

/-- `hChangeClient`. -/
def change (t : Tabla ρ) (p : ρ) (newname : CStr) : Tabla ρ :=
  (t.rem p).2.empuja p (strhash newname)

/-- `hSeekClient`, `hSeekChannel` and `hSeekWatch` for the entries that satisfy `sirve`. -/
def seek (t : Tabla ρ) (name : CStr) (sirve : ρ → Bool) : Option ρ × Tabla ρ :=
  let hashv := strhash name
  match t.table hashv with
  | none => (none, t)
  | some p =>
      if t.es name sirve p then (some p, t)
      else
        match Cells.findPrev t.hnext (t.es name sirve) (Fintype.card ρ) (some p) with
        | none => (none, t)
        | some prv =>
            match t.hnext prv with
            | none => (none, t)
            | some q =>
                (some q, { t with hnext := Function.update t.hnext prv (t.hnext q) }.empuja q hashv)

end Tabla

/-! ## Chains -/

variable {ρ : Type}

/-- The chains of a table, where each entry is in the chain of its name. -/
structure Cadenas (t : Tabla ρ) (cadena : Nat → List ρ) : Prop where
  listas : LinkedLists t.hnext t.table cadena
  lugar : ∀ i, ∀ p ∈ cadena i, strhash (t.name p) = i

variable {t : Tabla ρ} {cadena : Nat → List ρ} {p : ρ}

/-- The entries of the chains after a write to one of them. -/
theorem Cadenas.lugar_update (h : Cadenas t cadena) {i : Nat} {xs : List ρ}
    (hxs : ∀ q ∈ xs, strhash (t.name q) = i) (j : Nat) (q : ρ)
    (hq : q ∈ Function.update cadena i xs j) : strhash (t.name q) = j := by
  by_cases hj : j = i
  · subst hj
    rw [Function.update_self] at hq
    exact hxs q hq
  · rw [Function.update_of_ne hj] at hq
    exact h.lugar j q hq

/-- The first entry is taken out of its chain. -/
theorem Cadenas.primera (h : Cadenas t cadena) {i : Nat} {bs : List ρ}
    (hsplit : cadena i = p :: bs) :
    Cadenas { t with table := Function.update t.table i (t.hnext p) }
      (Function.update cadena i bs) where
  listas := h.listas.pop hsplit
  lugar := h.lugar_update fun q hq ↦
    h.lugar i q (by rw [hsplit]; exact List.mem_cons_of_mem p hq)

variable [DecidableEq ρ]

/-- Of an entry that is in no chain the pointer and the name do not matter. -/
theorem Cadenas.conNombre (h : Cadenas t cadena) (hp : ∀ i, p ∉ cadena i) (name : CStr) :
    Cadenas (t.conNombre p name) cadena where
  listas := h.listas
  lugar i q hq := by
    have hne : q ≠ p := ne_of_mem_of_not_mem hq (hp i)
    show strhash (Function.update t.name p name q) = i
    rw [Function.update_of_ne hne]
    exact h.lugar i q hq

/-- A new entry at the head of its chain. -/
theorem Cadenas.empuja (h : Cadenas t cadena) (hp : ∀ i, p ∉ cadena i) {hashv : Nat}
    (hhash : strhash (t.name p) = hashv) :
    Cadenas (t.empuja p hashv) (Function.update cadena hashv (p :: cadena hashv)) where
  listas := h.listas.push hp hashv
  lugar := h.lugar_update fun q hq ↦ by
    rcases List.mem_cons.mp hq with rfl | hq
    · exact hhash
    · exact h.lugar hashv q hq

/-- The entry behind another one is taken out of its chain. -/
theorem Cadenas.desengancha (h : Cadenas t cadena) {i : Nat} {as bs : List ρ} {c : ρ}
    (hsplit : cadena i = as ++ c :: p :: bs) :
    Cadenas { t with hnext := Function.update t.hnext c (t.hnext p) }
      (Function.update cadena i (as ++ c :: bs)) where
  listas := h.listas.unlink hsplit
  lugar := h.lugar_update fun q hq ↦ h.lugar i q (by
    rw [hsplit]
    simp only [List.mem_append, List.mem_cons] at hq ⊢
    tauto)

/-- Moving an entry to the head keeps the entries of every chain. -/
theorem Cadenas.mueve (h : Cadenas t cadena) {hashv : Nat} {as bs : List ρ} {b c : ρ}
    (hsplit : cadena hashv = as ++ c :: b :: bs) :
    Cadenas ({ t with hnext := Function.update t.hnext c (t.hnext b) }.empuja b hashv)
      (Function.update cadena hashv (b :: (as ++ c :: bs))) := by
  have hnodup := (h.listas.links hashv).nodup
  rw [hsplit] at hnodup
  have hplace := h.lugar hashv b (by simp [hsplit])
  have hnot : ∀ i, b ∉ Function.update cadena hashv (as ++ c :: bs) i := by
    intro i hmem
    by_cases hi : i = hashv
    · subst hi
      rw [Function.update_self, ← Cells.erase_split hnodup, hnodup.mem_erase_iff] at hmem
      exact hmem.1 rfl
    · rw [Function.update_of_ne hi] at hmem
      exact hi ((h.lugar i b hmem).symm.trans hplace)
  have hpush := (h.desengancha hsplit).empuja hnot hplace
  rwa [Function.update_self, Function.update_idem] at hpush

section

variable [Fintype ρ]

/-- Removal of an entry from its chain. -/
theorem Cadenas.rem (h : Cadenas t cadena) : Cadenas (t.rem p).2
    (Function.update cadena (strhash (t.name p)) ((cadena (strhash (t.name p))).erase p)) := by
  generalize hhash : strhash (t.name p) = hashv
  have hlinks := h.listas.links hashv
  cases hchain : cadena hashv with
  | nil =>
      have hnone : t.table hashv = none := by simpa [hchain] using hlinks
      have hsame : (t.rem p).2 = t := by
        cases hcard : Fintype.card ρ <;> simp [Tabla.rem, hhash, hnone, hcard, Cells.findPrev]
      rw [hsame, List.erase_nil, ← hchain, Function.update_eq_self]
      exact h
  | cons a xs =>
      rw [hchain] at hlinks
      have hhead : t.table hashv = some a := hlinks.1
      by_cases ha : a = p
      · subst ha
        have hrem : (t.rem a).2 =
            { t with table := Function.update t.table hashv (t.hnext a) } := by
          simp [Tabla.rem, hhash, hhead]
        rw [hrem, List.erase_cons_head]
        exact h.primera hchain
      · have hlist : Links t.hnext (some a) (a :: xs) none := hhead ▸ hlinks
        have hfuel : xs.length < Fintype.card ρ := hlist.length_le
        rw [List.erase_cons_tail (by simpa using ha)]
        have hne : ¬(some a = some p) := fun heq ↦ ha (Option.some.inj heq)
        by_cases hmem : p ∈ xs
        · obtain ⟨as, c, bs, hsplit, hprev⟩ := Cells.findPrev_cell hlist hfuel hmem
          have hnext : t.hnext c = some p := by
            have hc := (hsplit ▸ hlist).from_mem
            exact hc.2.1
          have hrem : (t.rem p).2 = { t with hnext := Function.update t.hnext c (t.hnext p) } := by
            simp only [Tabla.rem, hhash, hhead, if_neg hne, hprev, hnext, Option.bind_some]
          have herase := Cells.erase_split (hsplit ▸ hlist.nodup)
          rw [← hsplit, List.erase_cons_tail (by simpa using ha)] at herase
          rw [hrem, herase]
          exact h.desengancha (hchain.trans hsplit)
        · have hfind : xs.find? (· = p) = none := by
            rw [List.find?_eq_none]
            intro b hb
            simpa using ne_of_mem_of_not_mem hb hmem
          have hrem : (t.rem p).2 = t := by
            simp only [Tabla.rem, hhash, hhead, if_neg hne, Cells.findPrev_eq_none _ hlist hfind]
          rw [hrem, List.erase_of_not_mem hmem, ← hchain, Function.update_eq_self]
          exact h

/-- A search finds the first good entry of the chain of the name, and keeps the entries of every
chain. -/
theorem Cadenas.seek (h : Cadenas t cadena) (name : CStr) (sirve : ρ → Bool) :
    (t.seek name sirve).1 = (cadena (strhash name)).find? (t.es name sirve) ∧
      (t.seek name sirve).2.name = t.name ∧
      ∃ cadena', Cadenas (t.seek name sirve).2 cadena' ∧ ∀ i p, p ∈ cadena' i ↔ p ∈ cadena i := by
  have hlinks := h.listas.links (strhash name)
  cases hchain : cadena (strhash name) with
  | nil =>
      have hnone : t.table (strhash name) = none := by simpa [hchain] using hlinks
      have hseek : t.seek name sirve = (none, t) := by simp only [Tabla.seek, hnone]
      rw [hseek]
      exact ⟨rfl, rfl, cadena, h, fun _ _ ↦ Iff.rfl⟩
  | cons a xs =>
      rw [hchain] at hlinks
      have hhead : t.table (strhash name) = some a := hlinks.1
      have hlist : Links t.hnext (some a) (a :: xs) none := hhead ▸ hlinks
      have hfuel : xs.length < Fintype.card ρ := hlist.length_le
      rw [List.find?_cons]
      by_cases ha : t.es name sirve a = true
      · have hseek : t.seek name sirve = (some a, t) := by
          simp only [Tabla.seek, hhead, ha, if_true]
        rw [hseek, ha]
        exact ⟨rfl, rfl, cadena, h, fun _ _ ↦ Iff.rfl⟩
      · rw [Bool.not_eq_true] at ha
        rw [ha]
        cases hfind : xs.find? (t.es name sirve) with
        | none =>
            have hseek : t.seek name sirve = (none, t) := by
              simp only [Tabla.seek, hhead, ha, Bool.false_eq_true, if_false,
                Cells.findPrev_eq_none _ hlist hfind]
            rw [hseek]
            exact ⟨rfl, rfl, cadena, h, fun _ _ ↦ Iff.rfl⟩
        | some b =>
            obtain ⟨as, c, bs, hsplit, hprev⟩ := Cells.findPrev_eq_some _ hlist hfuel hfind
            have hnext : t.hnext c = some b := (hsplit ▸ hlist).from_mem.2.1
            have hseek : t.seek name sirve = (some b,
                { t with hnext := Function.update t.hnext c (t.hnext b) }.empuja b
                  (strhash name)) := by
              simp only [Tabla.seek, hhead, ha, Bool.false_eq_true, if_false, hprev, hnext]
            rw [hseek]
            refine ⟨rfl, rfl, _, h.mueve (hchain.trans hsplit), fun i p ↦ ?_⟩
            by_cases hi : i = strhash name
            · subst hi
              rw [Function.update_self, hchain, hsplit]
              simp only [List.mem_cons, List.mem_append]
              tauto
            · rw [Function.update_of_ne hi]

end

/-! ## The table as a map -/

/-- The entries of a table are the given ones: each is once in the chain of its name, and no two
have the same name up to case. -/
structure Coherente (t : Tabla ρ) (dentro : Finset ρ) : Prop where
  cadenas : ∃ cadena, Cadenas t cadena ∧ ∀ p, p ∈ dentro ↔ ∃ i, p ∈ cadena i
  unicos : ∀ p ∈ dentro, ∀ q ∈ dentro, fold (t.name p) = fold (t.name q) → p = q

variable {dentro : Finset ρ}

omit [DecidableEq ρ] in
/-- A table without entries. -/
theorem Coherente.vacia (t : Tabla ρ) : Coherente { t with table := fun _ ↦ none } ∅ := by
  refine ⟨⟨fun _ ↦ [], ⟨⟨fun _ ↦ rfl, by simp⟩, by simp⟩, by simp⟩, by simp⟩

/-- The chains have the given entries and no others, and every entry is in exactly one chain, and
there exactly once. -/
def UnaVez (t : Tabla ρ) (dentro : Finset ρ) : Prop :=
  ∃ cadena : Nat → List ρ, (∀ i, Links t.hnext (t.table i) (cadena i) none) ∧
    (∀ i, ∀ p ∈ cadena i, p ∈ dentro) ∧ ∀ p ∈ dentro, ∃ i, (cadena i).count p = 1 ∧
      ∀ j, p ∈ cadena j → j = i

theorem Coherente.unaVez (h : Coherente t dentro) : UnaVez t dentro := by
  obtain ⟨cadena, hcadena, hmem⟩ := h.cadenas
  refine ⟨cadena, hcadena.listas.links, fun i p hp ↦ (hmem p).mpr ⟨i, hp⟩, fun p hp ↦ ?_⟩
  obtain ⟨i, hi⟩ := (hmem p).mp hp
  refine ⟨i, List.count_eq_one_of_mem (hcadena.listas.links i).nodup hi, fun j hj ↦ ?_⟩
  rw [← hcadena.lugar i p hi, ← hcadena.lugar j p hj]

/-- A name that no entry has is added with a new entry. -/
theorem Coherente.add (h : Coherente t dentro) (hp : p ∉ dentro) {name : CStr}
    (hname : ∀ q ∈ dentro, fold (t.name q) ≠ fold name) :
    Coherente ((t.conNombre p name).add p) (insert p dentro) := by
  obtain ⟨cadena, hcadena, hmem⟩ := h.cadenas
  have hnot : ∀ i, p ∉ cadena i := fun i hi ↦ hp ((hmem p).mpr ⟨i, hi⟩)
  have hself : ((t.conNombre p name).add p).name p = name := Function.update_self ..
  have hother : ∀ q ∈ dentro, ((t.conNombre p name).add p).name q = t.name q := by
    intro q hq
    exact Function.update_of_ne (ne_of_mem_of_not_mem hq hp) ..
  refine ⟨⟨_, (hcadena.conNombre hnot name).empuja hnot rfl, fun q ↦ ?_⟩, ?_⟩
  · rw [Finset.mem_insert, hmem]
    constructor
    · rintro (rfl | ⟨i, hi⟩)
      · exact ⟨_, by rw [Function.update_self]; exact List.mem_cons_self⟩
      · refine ⟨i, ?_⟩
        rw [Function.update_apply]
        split
        · next heq => exact List.mem_cons_of_mem p (heq ▸ hi)
        · exact hi
    · rintro ⟨i, hi⟩
      rw [Function.update_apply] at hi
      split at hi
      · exact (List.mem_cons.mp hi).imp_right fun hi ↦ ⟨_, hi⟩
      · exact Or.inr ⟨i, hi⟩
  · intro q hq r hr heq
    by_cases hqp : q = p <;> by_cases hrp : r = p
    · rw [hqp, hrp]
    · have hr' := Finset.mem_of_mem_insert_of_ne hr hrp
      rw [hqp, hself, hother r hr'] at heq
      exact absurd heq.symm (hname r hr')
    · have hq' := Finset.mem_of_mem_insert_of_ne hq hqp
      rw [hrp, hself, hother q hq'] at heq
      exact absurd heq (hname q hq')
    · have hq' := Finset.mem_of_mem_insert_of_ne hq hqp
      have hr' := Finset.mem_of_mem_insert_of_ne hr hrp
      rw [hother q hq', hother r hr'] at heq
      exact h.unicos q hq' r hr' heq

variable [Fintype ρ]

theorem Tabla.name_rem (t : Tabla ρ) (p : ρ) : (t.rem p).2.name = t.name := by
  unfold Tabla.rem
  dsimp only
  split
  · rfl
  · split <;> rfl

theorem Tabla.name_seek (t : Tabla ρ) (name : CStr) (sirve : ρ → Bool) :
    (t.seek name sirve).2.name = t.name := by
  unfold Tabla.seek
  dsimp only
  split
  · rfl
  · split
    · rfl
    · split
      · rfl
      · split <;> rfl

/-- An entry is removed. -/
theorem Coherente.rem (h : Coherente t dentro) : Coherente (t.rem p).2 (dentro.erase p) := by
  obtain ⟨cadena, hcadena, hmem⟩ := h.cadenas
  refine ⟨⟨_, hcadena.rem, fun q ↦ ?_⟩, ?_⟩
  · rw [Finset.mem_erase, hmem]
    constructor
    · rintro ⟨hne, i, hi⟩
      refine ⟨i, ?_⟩
      rw [Function.update_apply]
      split
      · next heq => exact (List.mem_erase_of_ne hne).mpr (heq ▸ hi)
      · exact hi
    · rintro ⟨i, hi⟩
      rw [Function.update_apply] at hi
      split at hi
      · rw [(hcadena.listas.links _).nodup.mem_erase_iff] at hi
        exact ⟨hi.1, _, hi.2⟩
      · next hne =>
          refine ⟨fun heq ↦ ?_, i, hi⟩
          subst heq
          exact hne (hcadena.lugar i q hi).symm
  · intro q hq r hr heq
    rw [Tabla.name_rem] at heq
    exact h.unicos q (Finset.mem_of_mem_erase hq) r (Finset.mem_of_mem_erase hr) heq

/-- A change of name is a removal and an addition under the new name. -/
theorem Tabla.change_conNombre (t : Tabla ρ) (p : ρ) (newname : CStr) :
    (t.change p newname).conNombre p newname = ((t.rem p).2.conNombre p newname).add p := by
  simp only [Tabla.change, Tabla.conNombre, Tabla.add, Tabla.empuja, Function.update_self]

/-- An entry changes its name to one that no other entry has. -/
theorem Coherente.change (h : Coherente t dentro) {newname : CStr}
    (hname : ∀ q ∈ dentro, q ≠ p → fold (t.name q) ≠ fold newname) :
    Coherente ((t.change p newname).conNombre p newname) (insert p dentro) := by
  have hagain : insert p dentro = insert p (dentro.erase p) := by
    ext q
    simp only [Finset.mem_insert, Finset.mem_erase]
    tauto
  rw [Tabla.change_conNombre, hagain]
  refine h.rem.add (Finset.notMem_erase p dentro) fun q hq ↦ ?_
  rw [Tabla.name_rem]
  exact hname q (Finset.mem_of_mem_erase hq) (Finset.ne_of_mem_erase hq)

/-- A search finds the entry with the name and keeps the entries. -/
theorem Coherente.seek (h : Coherente t dentro) (name : CStr) (sirve : ρ → Bool) :
    Coherente (t.seek name sirve).2 dentro ∧ ∀ p, (t.seek name sirve).1 = some p ↔
      p ∈ dentro ∧ sirve p ∧ strCasediff name (t.name p) = 0 := by
  obtain ⟨cadena, hcadena, hmem⟩ := h.cadenas
  obtain ⟨hfind, hnames, cadena', hcadena', hsame⟩ := hcadena.seek name sirve
  have hes : ∀ p, t.es name sirve p = true ↔ sirve p ∧ strCasediff name (t.name p) = 0 := by
    simp [Tabla.es]
  refine ⟨⟨⟨cadena', hcadena', fun p ↦ ?_⟩, ?_⟩, fun p ↦ ⟨fun hp ↦ ?_, ?_⟩⟩
  · simp only [hmem, hsame]
  · rw [hnames]
    exact h.unicos
  · rw [hfind] at hp
    exact ⟨(hmem p).mpr ⟨_, List.mem_of_find?_eq_some hp⟩, (hes p).mp (List.find?_some hp)⟩
  · rintro ⟨hp, hsirve, hequal⟩
    obtain ⟨i, hi⟩ := (hmem p).mp hp
    have hfold := strCasediff_eq_zero.mp hequal
    -- The entry is in the chain that is searched, and no other one there has its name.
    have hplace : i = strhash name := (hcadena.lugar i p hi).symm.trans (strhash_eq hfold.symm)
    subst hplace
    rw [hfind]
    cases hsome : (cadena (strhash name)).find? (t.es name sirve) with
    | none =>
        have hno := List.find?_eq_none.mp hsome p hi
        exact absurd ((hes p).mpr ⟨hsirve, hequal⟩) hno
    | some q =>
        have hq := (hes q).mp (List.find?_some hsome)
        have hqfold := strCasediff_eq_zero.mp hq.2
        have hqin : q ∈ dentro := (hmem q).mpr ⟨_, List.mem_of_find?_eq_some hsome⟩
        rw [h.unicos q hqin p hp (hqfold.symm.trans hfold)]

end Ircd.Hash
