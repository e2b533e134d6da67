import Ircd.Dbuf.Memory

/-!
# The lists of blocks

`Nucleo` is what the operations keep of the blocks alone: every allocated block is in the chain of
one buffer or in the free list, except possibly one that an operation holds, and `DBufUsedCount`
counts the blocks that are not free. There is a lemma for each write to the lists.
-/

namespace Ircd.Dbuf

open CString

variable {β : Type}

/-- The first block of each list, `none` for the free list. -/
def Memoria.cabeza (m : Memoria β) : Option β → Option Nat
  | none => m.dbufFreeList
  | some b => (m.dbuf b).head

/-- The lists of blocks, and a block that is in none of them. -/
structure Nucleo (m : Memoria β) (lista : Option β → List Nat) (suelto : Option Nat) : Prop where
  listas : LinkedLists m.next m.cabeza lista
  asignado : ∀ i, ∀ p ∈ lista i, p < m.DBufAllocCount
  fuera : ∀ p ∈ suelto, p < m.DBufAllocCount ∧ ∀ i, p ∉ lista i
  usado : ∀ p < m.DBufAllocCount, suelto = some p ∨ ∃ i, p ∈ lista i
  cuenta : m.DBufUsedCount + (lista none).length = m.DBufAllocCount

variable [DecidableEq β] {m m' : Memoria β} {lista : Option β → List Nat} {suelto : Option Nat}
  {b : β} {db : Nat} {d : DBuf}

omit [DecidableEq β] in
/-- The other fields of the memory do not matter. -/
theorem Nucleo.congr (h : Nucleo m lista suelto) (hnext : m'.next = m.next)
    (hcabeza : m'.cabeza = m.cabeza) (halloc : m'.DBufAllocCount = m.DBufAllocCount)
    (hused : m'.DBufUsedCount = m.DBufUsedCount) : Nucleo m' lista suelto where
  listas := by
    rw [hnext, hcabeza]
    exact h.listas
  asignado := by
    rw [halloc]
    exact h.asignado
  fuera := by
    rw [halloc]
    exact h.fuera
  usado := by
    rw [halloc]
    exact h.usado
  cuenta := by
    rw [halloc, hused]
    exact h.cuenta

omit [DecidableEq β] in
/-- A list is not longer than the number of blocks. -/
theorem Nucleo.length_le (h : Nucleo m lista suelto) (i : Option β) :
    (lista i).length ≤ m.DBufAllocCount := by
  have hsub : lista i ⊆ List.range m.DBufAllocCount :=
    fun p hp ↦ List.mem_range.mpr (h.asignado i p hp)
  have hle := ((h.listas.links i).nodup.subperm hsub).length_le
  rwa [List.length_range] at hle

/-- A write to the header of a buffer moves its first block. -/
theorem cabeza_conDBuf : (m.conDBuf b d).cabeza = Function.update m.cabeza (some b) d.head := by
  funext i
  cases i with
  | none => rw [Function.update_of_ne (by simp)]; rfl
  | some b' =>
      show (Function.update m.dbuf b d b').head = Function.update m.cabeza (some b) d.head (some b')
      by_cases hb : b' = b
      · subst hb
        rw [Function.update_self, Function.update_self]
      · rw [Function.update_of_ne hb, Function.update_of_ne (by simpa using hb)]
        rfl

/-- A write to the header that keeps the first block. -/
theorem cabeza_conDBuf_of_head (hd : d.head = (m.dbuf b).head) :
    (m.conDBuf b d).cabeza = m.cabeza := by
  rw [cabeza_conDBuf, hd]
  exact Function.update_eq_self (some b) m.cabeza

/-- A write to the header that keeps the first block keeps the lists. -/
theorem Nucleo.conDBuf (h : Nucleo m lista suelto) (hd : d.head = (m.dbuf b).head) :
    Nucleo (m.conDBuf b d) lista suelto :=
  h.congr rfl (cabeza_conDBuf_of_head hd) rfl rfl

/-- The free list after it has been given another first block. -/
theorem cabeza_dbufFreeList (p : Option Nat) :
    ({ m with dbufFreeList := p } : Memoria β).cabeza = Function.update m.cabeza none p := by
  funext i
  cases i with
  | none => rw [Function.update_self]; rfl
  | some b => rw [Function.update_of_ne (by simp)]; rfl

/-- The first block of the list `i` is taken out. -/
theorem Nucleo.saca (h : Nucleo m lista none) {i : Option β} {ps : List Nat}
    (hsplit : lista i = db :: ps)
    (hcabeza : m'.cabeza = Function.update m.cabeza i (m.next db)) (hnext : m'.next = m.next)
    (halloc : m'.DBufAllocCount = m.DBufAllocCount)
    (hused : m'.DBufUsedCount = m.DBufUsedCount + if i = none then 1 else 0) :
    Nucleo m' (Function.update lista i ps) (some db) where
  listas := by
    rw [hcabeza, hnext]
    exact h.listas.pop hsplit
  asignado j p hp := by
    rw [halloc]
    by_cases hj : j = i
    · subst hj
      rw [Function.update_self] at hp
      exact h.asignado j p (by rw [hsplit]; exact List.mem_cons_of_mem db hp)
    · rw [Function.update_of_ne hj] at hp
      exact h.asignado j p hp
  fuera p hp := by
    obtain rfl := Option.some.inj hp
    rw [halloc]
    exact ⟨h.asignado i db (by simp [hsplit]), h.listas.not_mem_pop hsplit⟩
  usado p hp := by
    rw [halloc] at hp
    rcases h.usado p hp with hno | ⟨j, hj⟩
    · exact absurd hno (by simp)
    · by_cases hji : j = i
      · subst hji
        rw [hsplit, List.mem_cons] at hj
        rcases hj with rfl | hj
        · exact Or.inl rfl
        · exact Or.inr ⟨j, by rwa [Function.update_self]⟩
      · exact Or.inr ⟨j, by rwa [Function.update_of_ne hji]⟩
  cuenta := by
    have hcuenta := h.cuenta
    rw [halloc, hused]
    by_cases hi : i = none
    · subst hi
      rw [hsplit, List.length_cons] at hcuenta
      rw [Function.update_self, if_pos rfl]
      omega
    · rw [Function.update_of_ne (Ne.symm hi), if_neg hi]
      omega

/-- The first block of a buffer is taken out of its chain. -/
theorem Nucleo.quita (h : Nucleo m lista none) {ps : List Nat} (hsplit : lista (some b) = db :: ps)
    (hd : d.head = m.next db) :
    Nucleo (m.conDBuf b d) (Function.update lista (some b) ps) (some db) :=
  h.saca hsplit (by rw [cabeza_conDBuf, hd]) rfl rfl (by simp [Memoria.conDBuf])

/-- The block that an operation holds is given to the list `i`. -/
theorem Nucleo.pone (h : Nucleo m lista (some db)) {i : Option β} {xs : List Nat}
    (hxs : ∀ p, p ∈ xs ↔ p = db ∨ p ∈ lista i) (hlen : i = none → xs.length = (lista none).length + 1)
    (hlistas : LinkedLists m'.next m'.cabeza (Function.update lista i xs))
    (halloc : m'.DBufAllocCount = m.DBufAllocCount)
    (hused : m'.DBufUsedCount = m.DBufUsedCount - if i = none then 1 else 0) :
    Nucleo m' (Function.update lista i xs) none where
  listas := hlistas
  asignado j p hp := by
    rw [halloc]
    by_cases hj : j = i
    · subst hj
      rw [Function.update_self, hxs] at hp
      rcases hp with rfl | hp
      · exact (h.fuera p rfl).1
      · exact h.asignado j p hp
    · rw [Function.update_of_ne hj] at hp
      exact h.asignado j p hp
  fuera p hp := absurd hp (by simp)
  usado p hp := by
    rw [halloc] at hp
    refine Or.inr ?_
    rcases h.usado p hp with hdb | ⟨j, hj⟩
    · exact ⟨i, by rw [Function.update_self, hxs]; exact Or.inl (Option.some.inj hdb).symm⟩
    · by_cases hji : j = i
      · subst hji
        exact ⟨j, by rw [Function.update_self, hxs]; exact Or.inr hj⟩
      · exact ⟨j, by rwa [Function.update_of_ne hji]⟩
  cuenta := by
    have hcuenta := h.cuenta
    rw [halloc, hused]
    by_cases hi : i = none
    · subst hi
      have hlen' := hlen rfl
      rw [Function.update_self, if_pos rfl]
      omega
    · rw [Function.update_of_ne (Ne.symm hi), if_neg hi]
      omega

/-- `dbuf_free` gives the block to the free list. -/
theorem Nucleo.dbufFree (h : Nucleo m lista (some db)) :
    Nucleo (dbufFree db m) (Function.update lista none (db :: lista none)) none := by
  refine h.pone (fun p ↦ List.mem_cons) (fun _ ↦ List.length_cons) ?_ rfl rfl
  have hpush := h.listas.push (h.fuera db rfl).2 none
  rwa [← cabeza_dbufFreeList] at hpush

/-- The bytes of a block are the same. -/
def Igual (m m' : Memoria β) (p : Nat) : Prop :=
  m'.start p = m.start p ∧ m'.fin p = m.fin p ∧ m'.data p = m.data p

/-- `dbuf_alloc` with a block in the free list. -/
theorem Nucleo.deLista (h : Nucleo m lista none) (hfree : m.dbufFreeList = some db) :
    ∃ lista', Nucleo { m with
        DBufUsedCount := m.DBufUsedCount + 1
        dbufFreeList := m.next db } lista' (some db) ∧ ∀ b, lista' (some b) = lista (some b) := by
  classical
  obtain ⟨ps, hsplit⟩ : ∃ ps, lista none = db :: ps := by
    have hlinks := h.listas.links none
    rw [show m.cabeza none = some db from hfree] at hlinks
    cases hl : lista none with
    | nil => simp [hl] at hlinks
    | cons p ps =>
        rw [hl] at hlinks
        exact ⟨ps, by rw [Option.some.inj hlinks.1]⟩
  refine ⟨Function.update lista none ps, h.saca hsplit ?_ rfl rfl rfl, fun b ↦ ?_⟩
  · exact cabeza_dbufFreeList (m.next db)
  · rw [Function.update_of_ne (by simp)]

omit [DecidableEq β] in
/-- `dbuf_alloc` with a new block. -/
theorem Nucleo.nuevo (h : Nucleo m lista none) :
    Nucleo { m with
      DBufAllocCount := m.DBufAllocCount + 1
      DBufUsedCount := m.DBufUsedCount + 1 } lista (some m.DBufAllocCount) where
  listas := h.listas
  asignado i p hp := Nat.lt_succ_of_lt (h.asignado i p hp)
  fuera p hp := by
    obtain rfl := Option.some.inj hp
    exact ⟨Nat.lt_succ_self _, fun i hi ↦ absurd (h.asignado i _ hi) (lt_irrefl _)⟩
  usado p hp := by
    rcases Nat.lt_succ_iff_lt_or_eq.mp hp with hp | rfl
    · exact Or.inr ((h.usado p hp).resolve_left (by simp))
    · exact Or.inl rfl
  cuenta := by
    have hcuenta := h.cuenta
    show m.DBufUsedCount + 1 + ((lista none).length : Int) = (m.DBufAllocCount + 1 : Nat)
    push_cast
    omega

/-- `dbuf_alloc` gives a block that is in no list, and changes nothing when it gives none. -/
theorem Nucleo.dbufAlloc (h : Nucleo m lista none) (s : Sistema) :
    dbufAlloc s m = (none, m) ∨ ∃ db m' lista', dbufAlloc s m = (some db, m') ∧
      Nucleo m' lista' (some db) ∧ (∀ b, lista' (some b) = lista (some b)) ∧
      m'.dbuf = m.dbuf ∧ m'.next = m.next ∧ ∀ p, Igual m m' p := by
  cases hfree : m.dbufFreeList with
  | some db =>
      obtain ⟨lista', hn, hlista⟩ := h.deLista hfree
      have heq : Dbuf.dbufAlloc s m = (some db, { m with
          DBufUsedCount := m.DBufUsedCount + 1
          dbufFreeList := m.next db }) := by
        rw [Dbuf.dbufAlloc, hfree]
      exact Or.inr ⟨db, _, lista', heq, hn, hlista, rfl, rfl, fun _ ↦ ⟨rfl, rfl, rfl⟩⟩
  | none =>
      by_cases hpool : m.DBufAllocCount * DBUF_SIZE < s.BUFFERPOOL ∧ s.malloc m.DBufAllocCount
      · have heq : Dbuf.dbufAlloc s m = (some m.DBufAllocCount, { m with
            DBufAllocCount := m.DBufAllocCount + 1
            DBufUsedCount := m.DBufUsedCount + 1 }) := by
          simp [Dbuf.dbufAlloc, hfree, hpool]
        exact Or.inr ⟨_, _, lista, heq, h.nuevo, fun _ ↦ rfl, rfl, rfl, fun _ ↦ ⟨rfl, rfl, rfl⟩⟩
      · rw [Dbuf.dbufAlloc, hfree]
        exact Or.inl (if_neg hpool)

/-- The new block is put behind the last one, or in front of an empty chain. -/
theorem Nucleo.engancha (h : Nucleo m lista (some db)) {k : Enganche}
    (hk : k = .head ∧ lista (some b) = [] ∨ ∃ c as, k = .next c ∧ lista (some b) = as ++ [c]) :
    Nucleo (engancha k b db m) (Function.update lista (some b) (lista (some b) ++ [db])) none := by
  have hdb := (h.fuera db rfl).2
  have hfin : ∀ p, p ∈ lista (some b) ++ [db] ↔ p = db ∨ p ∈ lista (some b) := fun p ↦ by
    rw [List.mem_append, List.mem_singleton, or_comm]
  refine h.pone hfin (by simp) ?_ ?_ ?_
  · rcases hk with ⟨rfl, hnil⟩ | ⟨c, as, rfl, hsplit⟩
    · have hpush := h.listas.push hdb (some b)
      rw [hnil] at hpush ⊢
      have hhead : m.cabeza (some b) = none := (hnil ▸ h.listas.links (some b) : Links _ _ [] none)
      rw [hhead] at hpush
      have hcabeza : (Dbuf.engancha .head b db m).cabeza =
          Function.update m.cabeza (some b) (some db) := by
        show ((m.conDBuf b _).conDBuf b _).cabeza = _
        rw [cabeza_conDBuf, cabeza_conDBuf, Function.update_idem]
      rw [hcabeza]
      exact hpush
    · have hne : c ≠ db := fun heq ↦ hdb (some b) (by simp [hsplit, heq])
      have hextend := (h.listas.touch hdb none).extend hdb (Function.update_self db none m.next) hsplit
      rw [hsplit, List.append_assoc, List.singleton_append]
      have hcabeza : (Dbuf.engancha (.next c) b db m).cabeza = m.cabeza :=
        cabeza_conDBuf_of_head (m := m) rfl
      rw [hcabeza]
      show LinkedLists (Function.update (Function.update m.next c (some db)) db none) _ _
      rwa [Function.update_comm hne]
  · cases k <;> rfl
  · cases k <;> simp [Dbuf.engancha, Enganche.escribe, Memoria.conDBuf]

/-- The loop of `dbuf_malloc_error` gives the blocks of a chain to the free list. -/
theorem liberaDesde_nucleo {fuel : Nat} {xs : List Nat} (hxs : lista (some b) = xs)
    (h : Nucleo (m.conDBuf b d) lista none) (hfuel : xs.length ≤ fuel) :
    ∃ m' lista', liberaDesde fuel d.head m = some m' ∧
      Nucleo (m'.conDBuf b ⟨0, none, none⟩) lista' none ∧ lista' (some b) = [] ∧
      (∀ b', b' ≠ b → lista' (some b') = lista (some b')) ∧ m'.dbuf = m.dbuf ∧
      ∀ p, Igual m m' p := by
  have hlinks := h.listas.links (some b)
  rw [cabeza_conDBuf, Function.update_self, hxs] at hlinks
  induction xs generalizing m lista d fuel with
  | nil =>
      have hd : d.head = none := hlinks
      refine ⟨m, lista, by rw [hd, liberaDesde], ?_, hxs, fun _ _ ↦ rfl, rfl,
        fun _ ↦ ⟨rfl, rfl, rfl⟩⟩
      have hcon := h.conDBuf (b := b) (d := ⟨0, none, none⟩) (by simp [Memoria.conDBuf, hd])
      rwa [Memoria.conDBuf, Memoria.conDBuf, Function.update_idem] at hcon
  | cons db ps ih =>
      obtain ⟨hd, hps⟩ := hlinks
      have hps : Links m.next (m.next db) ps none := hps
      cases fuel with
      | zero => simp at hfuel
      | succ fuel =>
          -- The header is written after the loop, but the lists are those of a header that
          -- follows it block by block.
          have hfree := (h.quita hxs (d := ⟨0, m.next db, none⟩) rfl).dbufFree
          have hsame : Dbuf.dbufFree db ((m.conDBuf b d).conDBuf b ⟨0, m.next db, none⟩) =
              (Dbuf.dbufFree db m).conDBuf b ⟨0, m.next db, none⟩ := by
            simp only [Dbuf.dbufFree, Memoria.conDBuf, Function.update_idem]
          rw [hsame] at hfree
          have hdb : db ∉ ps := by
            have hnodup := (h.listas.links (some b)).nodup
            rw [hxs] at hnodup
            exact (List.nodup_cons.mp hnodup).1
          obtain ⟨m', lista', hlibera, hn, hnil, hotros, hdbuf, higual⟩ :=
            ih (by rw [Function.update_of_ne (by simp), Function.update_self]) hfree
              (Nat.le_of_succ_le_succ hfuel) ((Links.update hdb).mpr hps)
          refine ⟨m', lista', ?_, hn, hnil, fun b' hb' ↦ ?_, hdbuf, higual⟩
          · rw [hd, liberaDesde]
            exact hlibera
          · rw [hotros b' hb', Function.update_of_ne (by simp),
              Function.update_of_ne (by simpa using hb')]

end Ircd.Dbuf
