import Ircd.Map.Dump

/-!
# The drawing of `MAP`

`mapa` is the drawing of the tree of servers, pruned to the servers that match and to the depth of the
prompt. `dump_map` sends it if and only if no server at the last depth that is descended has two
downlinks that match: behind the first of them the prompt keeps a blank where `strcpy` had put a `-`
(`dumpMap_dibuja`).
-/

namespace Ircd.Map

open Buffer CString Match

variable {c : Red} {mask : CStr} {t : Rose Datos} {s : Estado}

/-! ## The drawing -/

/-- The servers of the drawing in preorder, each with a mark for every step to it: whether a later
sibling matches too. -/
def servidores (mask : CStr) (t : Rose Datos) : List (List Bool × Datos) :=
  Rose.marks [] (t.prune (coincide mask) 31)

/-- The drawing: `|-` in front of a server, and `` `- `` in front of the last one of its siblings. -/
def mapa (c : Red) (mask : CStr) (t : Rose Datos) : List Linea :=
  (servidores mask t).map fun e ↦ lineaDe c (e.1, '-', e.2)

/-- `dump_map` sends the drawing. -/
def Dibuja (c : Red) (mask : CStr) (t : Rose Datos) (s : Estado) : Prop :=
  ∃ s', dumpMap c mask t 0 s = some s' ∧ s'.salida = s.salida ++ mapa c mask t

/-! ## What is sent against the drawing -/

mutual

/-- What is sent, without the last characters of the prompts. -/
theorem map_trazos {α : Type*} (bs : List Bool) (x : Char) : ∀ t : Rose α,
    (trazos bs x t).map (fun e ↦ (e.1, e.2.2)) = Rose.marks bs t
  | .node a ts => by
      rw [trazos, Rose.marks, List.map_cons, map_trazosList bs '-' ts]

theorem map_trazosList {α : Type*} (bs : List Bool) (x : Char) : ∀ ts : List (Rose α),
    (trazosList bs x ts).map (fun e ↦ (e.1, e.2.2)) = Rose.marksList bs ts
  | [] => rfl
  | t :: ts => by
      rw [trazosList, Rose.marksList, List.map_append, map_trazos _ x t, map_trazosList bs _ ts]

end

/-- Two lines of a server below the root differ if their prompts do. -/
theorem lineaDe_inj {bs : List Bool} (hbs : bs ≠ []) {x y : Char} {server : Datos} :
    lineaDe c (bs, x, server) = lineaDe c (bs, y, server) ↔ x = y := by
  obtain ⟨as, b, rfl⟩ := (List.eq_nil_or_concat bs).resolve_left hbs
  rw [lineaDe, lineaDe, List.concat_eq_append, textoDe_concat, textoDe_concat, linea, linea]
  split <;> simp

/-- The drawing is sent if all prompts end with `-`. -/
theorem dibuja_iff_trazos (hnodup : (ids t).Nodup) (hlen : s.prompt.length = 64) :
    Dibuja c mask t s ↔ ∀ e ∈ trazos [] '-' (t.prune (coincide mask) 31), e.2.1 = '-' := by
  obtain ⟨s', hdump, hsalida⟩ := dumpMap_raiz c mask hnodup hlen
  have hmapa : Dibuja c mask t s ↔ ∀ e ∈ trazos [] '-' (t.prune (coincide mask) 31),
      lineaDe c e = lineaDe c (e.1, '-', e.2.2) := by
    rw [Dibuja, hdump, mapa, servidores, ← map_trazos [] '-', List.map_map, ← List.map_inj_left]
    constructor
    · rintro ⟨_, ⟨⟩, h⟩
      exact List.append_cancel_left (hsalida.symm.trans h)
    · intro h
      exact ⟨s', rfl, hsalida.trans (congrArg _ h)⟩
  rw [hmapa]
  obtain ⟨server, down⟩ := t.prune (coincide mask) 31
  rw [trazos, List.forall_mem_cons, List.forall_mem_cons]
  have hbelow : ∀ e ∈ trazosList [] '-' down, e.1 ≠ [] := by
    intro e he
    have hmem := List.mem_map_of_mem (f := fun e : List Bool × Char × Datos ↦ (e.1, e.2.2)) he
    rw [map_trazosList] at hmem
    exact List.ne_nil_of_length_pos (Rose.lt_length_of_mem_marksList down hmem)
  constructor
  · rintro ⟨-, h⟩
    exact ⟨rfl, fun e he ↦ (lineaDe_inj (hbelow e he)).mp (h e he)⟩
  · rintro ⟨-, h⟩
    exact ⟨rfl, fun e he ↦ (lineaDe_inj (hbelow e he)).mpr (h e he)⟩

/-! ## The last depth -/

mutual

/-- Below the depth where servers are descended there are no blanks. -/
theorem trazos_fondo {α : Type*} {bs : List Bool} (hbs : 30 < bs.length) : ∀ t : Rose α,
    ∀ e ∈ trazos bs '-' t, e.2.1 = '-'
  | .node a ts => by
      rw [trazos, List.forall_mem_cons]
      exact ⟨rfl, trazosList_fondo hbs ts⟩

theorem trazosList_fondo {α : Type*} {bs : List Bool} (hbs : 30 < bs.length) : ∀ ts : List (Rose α),
    ∀ e ∈ trazosList bs '-' ts, e.2.1 = '-'
  | [] => by simp [trazosList]
  | t :: ts => by
      rw [trazosList, List.forall_mem_append, if_neg (by omega)]
      exact ⟨trazos_fondo (by rw [List.length_append]; omega) t, trazosList_fondo hbs ts⟩

end

/-- At the last depth the second of the servers below a root has a blank. -/
theorem trazosList_ultimo {α : Type*} {bs : List Bool} (hbs : bs.length = 30) (ts : List (Rose α)) :
    (∀ e ∈ trazosList bs '-' ts, e.2.1 = '-') ↔ ts.length ≤ 1 := by
  match ts with
  | [] => simp [trazosList]
  | [t] =>
      simp only [trazosList, List.append_nil, List.length_singleton, le_refl, iff_true]
      exact trazos_fondo (by rw [List.length_append, hbs, List.length_singleton]; decide) t
  | t :: .node a us :: ts =>
      have hblank : (bs ++ [!ts.isEmpty], ' ', a) ∈ trazosList bs '-' (t :: .node a us :: ts) := by
        rw [trazosList, trazosList, if_pos hbs, trazos]
        simp
      constructor
      · intro h
        exact absurd (h _ hblank) (show ' ' ≠ '-' by decide)
      · intro h
        simp at h

mutual

/-- All prompts of a tree end with `-` if no server at depth 30 has two servers below it. -/
theorem trazos_rectos {α : Type*} {n : Nat} {bs : List Bool} (hbs : bs.length + n = 30) :
    ∀ t : Rose α, (∀ e ∈ trazos bs '-' t, e.2.1 = '-') ↔
      ∀ u, Rose.Reaches (fun _ ↦ true) t n u → u.children.length ≤ 1
  | .node a ts => by
      rw [trazos, List.forall_mem_cons]
      cases n with
      | zero =>
          simp only [true_and, Rose.reaches_zero, forall_eq]
          exact trazosList_ultimo hbs ts
      | succ n =>
          simp only [true_and, Rose.reaches_succ, Rose.kept_true]
          rw [trazosList_rectos hbs ts]
          constructor
          · rintro h u ⟨t, ht, hu⟩
            exact h t ht u hu
          · intro h t ht u hu
            exact h u ⟨t, ht, hu⟩

theorem trazosList_rectos {α : Type*} {n : Nat} {bs : List Bool} (hbs : bs.length + (n + 1) = 30) :
    ∀ ts : List (Rose α), (∀ e ∈ trazosList bs '-' ts, e.2.1 = '-') ↔
      ∀ t ∈ ts, ∀ u, Rose.Reaches (fun _ ↦ true) t n u → u.children.length ≤ 1
  | [] => by simp [trazosList]
  | t :: ts => by
      rw [trazosList, List.forall_mem_append, if_neg (by omega), List.forall_mem_cons,
        trazos_rectos (n := n) (by rw [List.length_append, List.length_singleton]; omega) t,
        trazosList_rectos hbs ts]

end

/-- All prompts of a pruned tree end with `-` if no server at depth 30 has two that match. -/
theorem trazos_prune {α : Type*} (p : α → Bool) (t : Rose α) :
    (∀ e ∈ trazos [] '-' (t.prune p 31), e.2.1 = '-') ↔
      ∀ u, Rose.Reaches p t 30 u → (Rose.kept p u.children).length ≤ 1 := by
  rw [trazos_rectos (n := 30) rfl]
  simp only [Rose.reaches_prune (n := 30) (m := 1)]
  constructor
  · intro h u hu
    have hlen := h _ ⟨u, hu, rfl⟩
    rwa [Rose.children_prune_succ, List.length_map] at hlen
  · rintro h v ⟨u, hu, rfl⟩
    rw [Rose.children_prune_succ, List.length_map]
    exact h u hu

/-- `dump_map` ends within its prompt, and draws the tree if and only if no server at depth 30 has two
downlinks that match. -/
theorem dumpMap_dibuja (c : Red) (mask : CStr) (t : Rose Datos) (s : Estado)
    (hnodup : (ids t).Nodup) (hlen : s.prompt.length = 64) :
    (∃ s', dumpMap c mask t 0 s = some s') ∧
      (Dibuja c mask t s ↔ ∀ u, Rose.Reaches (coincide mask) t 30 u →
        (Rose.kept (coincide mask) u.children).length ≤ 1) := by
  obtain ⟨s', hdump, -⟩ := dumpMap_raiz c mask hnodup hlen
  exact ⟨⟨s', hdump⟩, (dibuja_iff_trazos hnodup hlen).trans (trazos_prune _ t)⟩

/-- A server called `a`. -/
def servidor (id : Nat) : Datos :=
  { id := id, name := ['a'], tras := [], yxx := ['A', 'A'], burst := false, lag := 0, clients := 0 }

/-- A network of one client. -/
def red : Red :=
  { me := 0, clients := 1, localClients := 1, decimas := fun n m ↦ 1000 * n / m }

/-- A static `prompt` at start. -/
def inicial : Estado :=
  { prompt := List.replicate 64 nul, flags := fun _ ↦ false, salida := [] }

/-- A server with one downlink, drawn. -/
theorem dumpMap_dibuja_dos : Dibuja red ['*'] (.node (servidor 0) [.node (servidor 1) []]) inicial := by
  refine (dumpMap_dibuja red ['*'] _ inicial (by decide) rfl).2.mpr fun u hu ↦ ?_
  obtain ⟨v, hv, hu⟩ := Rose.reaches_succ.mp hu
  obtain ⟨w, hw, -⟩ := Rose.reaches_succ.mp hu
  have hleaf : v = .node (servidor 1) [] := List.mem_singleton.mp (List.mem_of_mem_filter hv)
  rw [hleaf] at hw
  cases hw

/-- A chain of `n` servers above a tree. -/
def fila : Nat → Rose Datos → Rose Datos
  | 0, t => t
  | n + 1, t => .node (servidor n) [fila n t]

theorem reaches_fila {p : Datos → Bool} (hp : ∀ i, p (servidor i) = true) {t : Rose Datos} {i : Nat}
    (ht : t.root = servidor i) (n : Nat) : Rose.Reaches p (fila n t) n t := by
  have hroot : ∀ n, ∃ j, (fila n t).root = servidor j
    | 0 => ⟨i, ht⟩
    | n + 1 => ⟨n, rfl⟩
  induction n with
  | zero => exact .refl t
  | succ n ih =>
      obtain ⟨j, hj⟩ := hroot n
      refine .step ?_ ih
      show fila n t ∈ Rose.kept p [fila n t]
      rw [Rose.kept_cons_of_pos (by rw [hj]; exact hp j)]
      exact List.mem_cons_self

/-- The second of two servers below the thirtieth server of a chain is not drawn. -/
theorem dumpMap_no_dibuja :
    ¬ Dibuja red ['*'] (fila 30 (.node (servidor 30)
      [.node (servidor 31) [], .node (servidor 32) []])) inicial := by
  rw [dibuja_iff_trazos (by decide) rfl, trazos_prune]
  intro h
  exact absurd (h _ (reaches_fila (fun _ ↦ rfl) rfl 30)) (by decide)

end Ircd.Map
