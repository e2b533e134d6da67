import Ircd.Watch.Graph

/-!
# Every run of the WATCH lists

Users send WATCH commands and leave, in any order. The main theorem, `watch_consistente`, says that
after every run the lists of the users and those of the entries agree, with the counters and with
the table, and that the reports of a missing link were never sent.
-/

namespace Ircd.Watch

open CString Hash

variable {κ ω : Type}

/-- What a user does: a command with its parameter, the length of nicks at that time and the system
behind the allocations, or the exit. -/
inductive Orden (κ ω : Type) where
  | watch (cptr : κ) (nicklen : Nat) (sys : Malloc ω) (parv1 : CStr)
  | sale (cptr : κ)

/-- The memory at the start of the program. -/
def Watches.inicio (w : Watches κ ω) : Watches κ ω where
  tabla := { w.tabla with table := fun _ ↦ none }
  enUso := ∅
  links := { w.links with
    count := 0
    head := fun _ ↦ none }
  cwatch _ := 0
  avisos := 0

variable [DecidableEq ω]

/-- The lists of users and entries, in terms of the links. -/
structure Consistente (MAXWATCH : Nat) (w : Watches κ ω) (usuarios : ω → List κ)
    (entradas : κ → List ω) : Prop where
  /-- The links of an entry lead to its users. -/
  listaEntrada : ∀ p, ∃ lps, Links w.links.next (w.links.head (.inr p)) lps none ∧
    lps.map w.links.value = (usuarios p).map .inl
  /-- The links of a user lead to its entries. -/
  listaUsuario : ∀ c, ∃ lps, Links w.links.next (w.links.head (.inl c)) lps none ∧
    lps.map w.links.value = (entradas c).map .inr
  usuariosNodup : ∀ p, (usuarios p).Nodup
  entradasNodup : ∀ c, (entradas c).Nodup
  /-- An entry lists a user when the user lists the entry. -/
  acuerdo : ∀ c p, c ∈ usuarios p ↔ p ∈ entradas c
  cwatch : ∀ c, w.cwatch c = (entradas c).length ∧ w.cwatch c ≤ MAXWATCH
  /-- The entries of the hash table are those with a watcher, each of them once. -/
  tabla : UnaVez w.tabla w.enUso
  vigilada : ∀ p, p ∈ w.enUso ↔ usuarios p ≠ []
  avisos : w.avisos = 0

omit [DecidableEq ω] in
/-- A list that is on one side. -/
theorem map_inl_filterMap {l : List (κ ⊕ ω)} (h : ∀ j ∈ l, j.isLeft = true) :
    (l.filterMap Sum.getLeft?).map .inl = l := by
  induction l with
  | nil => rfl
  | cons j l ih =>
      have hl := ih fun k hk ↦ h k (by simp [hk])
      cases j with
      | inl c =>
          show Sum.inl c :: (l.filterMap Sum.getLeft?).map Sum.inl = _
          rw [hl]
      | inr p => exact absurd (h (.inr p) (by simp)) (by simp)

omit [DecidableEq ω] in
/-- A list that is on the other side. -/
theorem map_inr_filterMap {l : List (κ ⊕ ω)} (h : ∀ j ∈ l, j.isLeft = false) :
    (l.filterMap Sum.getRight?).map .inr = l := by
  induction l with
  | nil => rfl
  | cons j l ih =>
      have hl := ih fun k hk ↦ h k (by simp [hk])
      cases j with
      | inl c => exact absurd (h (.inl c) (by simp)) (by simp)
      | inr p =>
          show Sum.inr p :: (l.filterMap Sum.getRight?).map Sum.inr = _
          rw [hl]

/-- The graph gives the lists of users and entries. -/
theorem Consta.consistente {MAXWATCH : Nat} {w : Watches κ ω} (h : Consta MAXWATCH w) :
    ∃ usuarios entradas, Consistente MAXWATCH w usuarios entradas := by
  obtain ⟨listas, vals, hlinks, hgrafo, hcwatch, hmaximo⟩ := h
  obtain ⟨usuarios, husuarios⟩ : ∃ u : ω → List κ, ∀ p, (u p).map .inl = vals (.inr p) :=
    ⟨fun p ↦ (vals (.inr p)).filterMap Sum.getLeft?, fun p ↦ map_inl_filterMap fun j hj ↦ by
      simpa using (hgrafo.lados _ j hj).symm⟩
  obtain ⟨entradas, hentradas⟩ : ∃ e : κ → List ω, ∀ c, (e c).map .inr = vals (.inl c) :=
    ⟨fun c ↦ (vals (.inl c)).filterMap Sum.getRight?, fun c ↦ map_inr_filterMap fun j hj ↦ by
      simpa using (hgrafo.lados _ j hj).symm⟩
  have hlen : ∀ c, w.cwatch c = (entradas c).length := by
    intro c
    rw [hcwatch, ← hentradas, List.length_map]
  refine ⟨usuarios, entradas, fun p ↦ ?_, fun c ↦ ?_, fun p ↦ ?_, fun c ↦ ?_, fun c p ↦ ?_,
    fun c ↦ ⟨hlen c, ?_⟩, hgrafo.tabla.unaVez, fun p ↦ ?_, hgrafo.avisos⟩
  · exact ⟨_, hlinks.lists.links _, by rw [hlinks.vals, husuarios]⟩
  · exact ⟨_, hlinks.lists.links _, by rw [hlinks.vals, hentradas]⟩
  · have hnodup := hgrafo.vecinos.nodup (.inr p)
    rw [← husuarios] at hnodup
    exact hnodup.of_map _
  · have hnodup := hgrafo.vecinos.nodup (.inl c)
    rw [← hentradas] at hnodup
    exact hnodup.of_map _
  · have hsymm := hgrafo.vecinos.symm (.inl c) (.inr p)
    rw [← husuarios, ← hentradas, List.mem_map_of_injective Sum.inr_injective,
      List.mem_map_of_injective Sum.inl_injective] at hsymm
    exact hsymm.symm
  · rw [hcwatch]
    exact_mod_cast hmaximo c
  · rw [hgrafo.enUso p, ← husuarios]
    simp

omit [DecidableEq ω] in
/-- At the start there are no links. -/
theorem consta_inicio (MAXWATCH : Nat) (w : Watches κ ω) : Consta MAXWATCH w.inicio := by
  refine ⟨fun _ ↦ [], fun _ ↦ [], ⟨⟨fun _ ↦ rfl, by simp⟩, by simp, fun _ ↦ rfl⟩,
    ⟨⟨fun _ ↦ List.nodup_nil, by simp⟩, by simp, Coherente.vacia w.tabla, fun p ↦ ?_, by simp, rfl⟩,
    fun _ ↦ rfl, fun _ ↦ Nat.zero_le _⟩
  simp [Watches.inicio]

variable [DecidableEq κ] [Fintype ω] {MAXWATCH : Nat} {w w' : Watches κ ω}

/-- One order. -/
def ejecuta (MAXWATCH : Nat) (o : Orden κ ω) (w : Watches κ ω) : Option (Watches κ ω) :=
  match o with
  | .watch cptr nicklen sys parv1 => mWatch MAXWATCH nicklen sys cptr parv1 w
  | .sale cptr => some (borraListaWatch cptr w)

/-- A run, which ends when the memory is out. -/
def corre (MAXWATCH : Nat) : List (Orden κ ω) → Watches κ ω → Watches κ ω
  | [], w => w
  | o :: os, w =>
      match ejecuta MAXWATCH o w with
      | none => w
      | some w => corre MAXWATCH os w

/-- One parameter of the command. -/
theorem Consta.watchParametro (h : Consta MAXWATCH w) {nicklen : Nat} {sys : Malloc ω} {c : κ}
    {s : CStr} (hw' : watchParametro MAXWATCH nicklen sys c s w = some w') :
    Consta MAXWATCH w' := by
  cases s with
  | nil => exact Option.some.inj hw' ▸ h
  | cons a s =>
      simp only [Watch.watchParametro] at hw'
      by_cases hsigno : a = '+' ∨ a = '-'
      · rw [if_pos hsigno] at hw'
        generalize nickDe s = nick at hw'
        by_cases hraro : '*' ∈ nick ∨ '.' ∈ nick ∨ '@' ∈ nick
        · rw [if_pos hraro] at hw'
          exact Option.some.inj hw' ▸ h
        · rw [if_neg hraro] at hw'
          by_cases hnil : nick.take nicklen = []
          · rw [if_pos hnil] at hw'
            exact Option.some.inj hw' ▸ h
          · rw [if_neg hnil] at hw'
            by_cases hmas : a = '+'
            · rw [if_pos hmas] at hw'
              by_cases hmax : w.cwatch c ≥ MAXWATCH
              · rw [if_pos hmax] at hw'
                exact Option.some.inj hw' ▸ h
              · rw [if_neg hmax] at hw'
                exact h.agregaNickWatch (lt_of_not_ge hmax) hw'
            · rw [if_neg hmas] at hw'
              exact Option.some.inj hw' ▸ h.borraNickWatch c _
      · rw [if_neg hsigno] at hw'
        by_cases hlista : a = 'C' ∨ a = 'c'
        · rw [if_pos hlista] at hw'
          exact Option.some.inj hw' ▸ h.borraListaWatch c
        · rw [if_neg hlista] at hw'
          exact Option.some.inj hw' ▸ h

/-- The parameters of the command. -/
theorem Consta.watchParametros {nicklen : Nat} {sys : Malloc ω} {c : κ} {ss : List CStr}
    (h : Consta MAXWATCH w) (hw' : watchParametros MAXWATCH nicklen sys c ss w = some w') :
    Consta MAXWATCH w' := by
  induction ss generalizing w with
  | nil => exact Option.some.inj hw' ▸ h
  | cons s ss ih =>
      obtain ⟨w₁, hw₁, hw'⟩ := Option.bind_eq_some_iff.mp hw'
      exact ih (h.watchParametro hw₁) hw'

/-- One order. -/
theorem Consta.ejecuta (h : Consta MAXWATCH w) {o : Orden κ ω}
    (hw' : ejecuta MAXWATCH o w = some w') : Consta MAXWATCH w' := by
  cases o with
  | watch c nicklen sys parv1 => exact h.watchParametros hw'
  | sale c => exact Option.some.inj hw' ▸ h.borraListaWatch c

/-- A run. -/
theorem Consta.corre (h : Consta MAXWATCH w) (os : List (Orden κ ω)) :
    Consta MAXWATCH (corre MAXWATCH os w) := by
  induction os generalizing w with
  | nil => exact h
  | cons o os ih =>
      rw [Watch.corre]
      cases hw' : Watch.ejecuta MAXWATCH o w with
      | none => exact h
      | some w' => exact ih (h.ejecuta hw')

/-- After every run from the start of the program the lists are consistent in both directions. -/
theorem watch_consistente (MAXWATCH : Nat) (w : Watches κ ω) (os : List (Orden κ ω)) :
    ∃ usuarios entradas, Consistente MAXWATCH (corre MAXWATCH os w.inicio) usuarios entradas :=
  ((consta_inicio MAXWATCH w).corre os).consistente

/-- The block is given out once. -/
theorem unBloque_libre (d : Finset (Fin 1)) (p : Fin 1)
    (h : (if 0 ∈ d then none else some 0) = some p) : p ∉ d := by
  split at h
  · cases h
  · next hno => exact Option.some.inj h ▸ hno

/-- A system with one block. -/
def unBloque : Malloc (Fin 1) where
  pide d := if 0 ∈ d then none else some 0
  libre := unBloque_libre

/-- Two users share an entry, which is freed when the last of them leaves. -/
example :
    let w : Watches (Fin 2) (Fin 1) :=
      ⟨⟨fun _ ↦ none, fun _ ↦ none, fun _ ↦ []⟩, ∅,
        ⟨fun _ ↦ none, fun _ ↦ .inl 0, 0, fun _ ↦ none⟩, fun _ ↦ 0, 0⟩
    let os : List (Orden (Fin 2) (Fin 1)) :=
      [.watch 0 30 unBloque "+Ana!x@y".toList, .watch 1 30 unBloque "l,+ANA +ana".toList, .sale 0]
    (corre 96 os w.inicio).enUso = {0} ∧ (corre 96 os w.inicio).cwatch 1 = 1 ∧
      (corre 96 (os ++ [.sale 1]) w.inicio).enUso = ∅ := by
  decide +kernel

end Ircd.Watch
