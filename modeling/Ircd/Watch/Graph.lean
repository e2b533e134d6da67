import Ircd.Watch.Lists

/-!
# Users and entries as a graph

The lists of links are lists of neighbours: `Bien` says that they agree in both directions, that the
table has the entries with a watcher and no others, and that the counters are the lengths of the
lists. Between two steps of an operation an entry may have no watcher yet or any more; this is the
argument `nuevo`. There is a lemma for each function.
-/

namespace Ircd.Watch

open CString Hash

variable {κ ω : Type}

/-- The lists of neighbours of users and entries, where `nuevo` is an entry without watchers. -/
structure Grafo (w : Watches κ ω) (vals : κ ⊕ ω → List (κ ⊕ ω)) (nuevo : Option ω) : Prop where
  vecinos : Adjacent vals
  lados : ∀ i j, j ∈ vals i → i.isLeft = !j.isLeft
  tabla : Coherente w.tabla w.enUso
  enUso : ∀ p, p ∈ w.enUso ↔ vals (.inr p) ≠ [] ∨ nuevo = some p
  vacio : ∀ p ∈ nuevo, vals (.inr p) = []
  avisos : w.avisos = 0

/-- The lists are consistent, an entry without watchers aside. -/
structure Bien (MAXWATCH : Nat) (w : Watches κ ω) (listas : κ ⊕ ω → List Nat)
    (vals : κ ⊕ ω → List (κ ⊕ ω)) (nuevo : Option ω) : Prop where
  links : w.links.Holds listas vals
  grafo : Grafo w vals nuevo
  cwatch : ∀ c, w.cwatch c = (vals (.inl c)).length
  maximo : ∀ c, (vals (.inl c)).length ≤ MAXWATCH

/-- The lists are consistent. -/
def Consta (MAXWATCH : Nat) (w : Watches κ ω) : Prop :=
  ∃ listas vals, Bien MAXWATCH w listas vals none

variable [DecidableEq κ] [DecidableEq ω] {MAXWATCH : Nat} {w w' : Watches κ ω}
  {listas : κ ⊕ ω → List Nat} {vals : κ ⊕ ω → List (κ ⊕ ω)} {nuevo : Option ω} {c : κ} {p : ω}

omit [DecidableEq κ] [DecidableEq ω] in
/-- A link of a user leads to an entry, and one of an entry to a user. -/
theorem Grafo.inr_of_mem (h : Grafo w vals nuevo) {j : κ ⊕ ω} (hj : j ∈ vals (.inl c)) :
    ∃ p, j = .inr p := by
  cases j with
  | inl d => exact absurd (h.lados _ _ hj) (by simp)
  | inr p => exact ⟨p, rfl⟩

omit [DecidableEq κ] [DecidableEq ω] in
/-! ## Entries -/

omit [DecidableEq κ] in
/-- A new entry has no watchers. -/
theorem Grafo.makeWatch (h : Grafo w vals none) (w' : Watches κ ω) {wptr : ω} {nick : CStr}
    (hlibre : wptr ∉ w.enUso)
    (hnick : ∀ q ∈ w.enUso, fold (w.tabla.name q) ≠ fold nick)
    (htabla : w'.tabla = (w.tabla.conNombre wptr nick).add wptr)
    (henUso : w'.enUso = insert wptr w.enUso) (havisos : w'.avisos = w.avisos) :
    vals (.inr wptr) = [] ∧ Grafo w' vals (some wptr) := by
  have hnil : vals (.inr wptr) = [] := by
    by_contra hne
    exact hlibre ((h.enUso wptr).mpr (Or.inl hne))
  refine ⟨hnil, h.vecinos, h.lados, ?_, fun q ↦ ?_, ?_, havisos.trans h.avisos⟩
  · rw [htabla, henUso]
    exact h.tabla.add hlibre hnick
  · rw [henUso, Finset.mem_insert, h.enUso q]
    constructor
    · rintro (rfl | hq | hq)
      · exact Or.inr rfl
      · exact Or.inl hq
      · exact absurd hq (by simp)
    · rintro (hq | hq)
      · exact Or.inr (Or.inl hq)
      · exact Or.inl (Option.some.inj hq).symm
  · intro q hq
    exact Option.some.inj hq ▸ hnil

variable [Fintype ω]

omit [DecidableEq κ] in
/-- An entry without watchers is freed. -/
theorem Grafo.freeWatch (h : Grafo w vals (some p)) : Grafo (freeWatch p w) vals none where
  vecinos := h.vecinos
  lados := h.lados
  tabla := h.tabla.rem
  enUso q := by
    show q ∈ w.enUso.erase p ↔ _
    have hnil := h.vacio p rfl
    rw [Finset.mem_erase, h.enUso q]
    constructor
    · rintro ⟨hne, hq | hq⟩
      · exact Or.inl hq
      · exact absurd (Option.some.inj hq).symm hne
    · rintro (hq | hq)
      · exact ⟨fun heq ↦ hq (heq ▸ hnil), Or.inl hq⟩
      · exact absurd hq (by simp)
  vacio q hq := absurd hq (by simp)
  avisos := h.avisos

omit [DecidableEq κ] in
/-- A search in the table finds an entry in use, or there is none with the nick. -/
theorem Grafo.findWatch (h : Grafo w vals nuevo) (nick : CStr) :
    ∃ r w', findWatch nick w = (r, w') ∧ Grafo w' vals nuevo ∧
      w'.links = w.links ∧ w'.cwatch = w.cwatch ∧
      (∀ q, r = some q → q ∈ w'.enUso) ∧
      (r = none → ∀ q ∈ w'.enUso, fold (w'.tabla.name q) ≠ fold nick) := by
  obtain ⟨htabla, hseek⟩ := h.tabla.seek nick fun _ ↦ true
  refine ⟨_, _, rfl, ⟨h.vecinos, h.lados, htabla, h.enUso, h.vacio, h.avisos⟩, rfl, rfl,
    fun q hq ↦ ((hseek q).mp hq).1, fun hnone q hq heq ↦ ?_⟩
  have hname : (w.tabla.seek nick fun _ ↦ true).2.name = w.tabla.name := Tabla.name_seek ..
  have heq : fold ((w.tabla.seek nick fun _ ↦ true).2.name q) = fold nick := heq
  rw [hname] at heq
  have hfound := (hseek q).mpr ⟨hq, rfl, strCasediff_eq_zero.mpr heq.symm⟩
  rw [hnone] at hfound
  exact absurd hfound (by simp)

/-! ## Links -/

omit [Fintype ω] in
/-- A user and an entry are linked. -/
theorem Bien.enlaza (h : Bien MAXWATCH w listas vals nuevo) (hp : p ∈ w.enUso)
    (hnuevo : nuevo = none ∨ nuevo = some p) (hc : (vals (.inl c)).length < MAXWATCH) :
    Consta MAXWATCH (enlaza c p w) := by
  have hfind := h.links.find (.inr p) (.inl c)
  rw [Watch.enlaza]
  cases hsome : w.links.find (.inr p) (.inl c) with
  | some lp =>
      rw [hsome] at hfind
      have hmem := hfind.mp rfl
      rcases hnuevo with rfl | rfl
      · exact ⟨listas, vals, h⟩
      · have hnil := h.grafo.vacio p rfl
        rw [hnil] at hmem
        exact absurd hmem (by simp)
  | none =>
      rw [hsome] at hfind
      have hnot : Sum.inl c ∉ vals (.inr p) := fun hmem ↦ absurd (hfind.mpr hmem) (by simp)
      have hne : (Sum.inr p : κ ⊕ ω) ≠ .inl c := by simp
      have hlinks := (h.links.cons (.inr p) (.inl c)).cons (.inl c) (.inr p)
      have hsame : Function.update vals (.inr p) (.inl c :: vals (.inr p)) (.inl c) =
          vals (.inl c) := Function.update_of_ne hne.symm ..
      rw [hsame] at hlinks
      have hvecinos := h.grafo.vecinos.add hne hnot
      refine ⟨_, _, hlinks, ⟨hvecinos, fun i j hij ↦ ?_, h.grafo.tabla, fun q ↦ ?_, by simp,
        h.grafo.avisos⟩, fun d ↦ ?_, fun d ↦ ?_⟩
      · rcases (Adjacent.mem_add hne).mp hij with hij | ⟨rfl, rfl⟩ | ⟨rfl, rfl⟩
        · exact h.grafo.lados i j hij
        · rfl
        · rfl
      · show q ∈ w.enUso ↔ _
        rw [Function.update_of_ne (by simp)]
        by_cases hqp : q = p
        · subst hqp
          rw [Function.update_self]
          exact iff_of_true hp (Or.inl (List.cons_ne_nil _ _))
        · rw [Function.update_of_ne (by simpa using hqp), h.grafo.enUso q]
          rcases hnuevo with rfl | rfl
          · rfl
          · simp [Ne.symm hqp]
      · show Function.update w.cwatch c (w.cwatch c + 1) d = _
        by_cases hdc : d = c
        · subst hdc
          rw [Function.update_self, Function.update_self, h.cwatch, List.length_cons]
          rfl
        · rw [Function.update_of_ne hdc, Function.update_of_ne (by simpa using hdc),
            Function.update_of_ne (by simp), h.cwatch]
      · by_cases hdc : d = c
        · subst hdc
          rw [Function.update_self, List.length_cons]
          exact hc
        · rw [Function.update_of_ne (by simpa using hdc), Function.update_of_ne (by simp)]
          exact h.maximo d

omit [Fintype ω] in
/-- The graph without the link of a user and an entry, which may have no watchers then. -/
theorem Grafo.corta (h : Grafo w vals none) (hmem : .inl c ∈ vals (.inr p))
    {vals' : κ ⊕ ω → List (κ ⊕ ω)}
    (hvals' : vals' = Function.update
      (Function.update vals (.inr p) (strike (.inl c) (vals (.inr p))))
      (.inl c) (strike (.inr p) (vals (.inl c)))) :
    Grafo w vals' (if vals' (.inr p) = [] then some p else none) := by
  have hne : (Sum.inr p : κ ⊕ ω) ≠ .inl c := by simp
  have hvecinos := h.vecinos.erase hne
  rw [← hvals'] at hvecinos
  refine ⟨hvecinos, fun i j hij ↦ ?_, h.tabla, fun q ↦ ?_, fun q hq ↦ ?_, h.avisos⟩
  · rw [hvals'] at hij
    exact h.lados i j ((h.vecinos.mem_erase hne).mp hij).1
  · rw [h.enUso q]
    by_cases hqp : q = p
    · subst hqp
      by_cases hnil : vals' (.inr q) = []
      · simp [hnil, List.ne_nil_of_mem hmem]
      · simp [hnil, List.ne_nil_of_mem hmem]
    · have hsame : vals' (.inr q) = vals (.inr q) := by
        rw [hvals', Function.update_of_ne (by simp), Function.update_of_ne (by simpa using hqp)]
      have hno : ¬(if vals' (.inr p) = [] then some p else none) = some q := by
        split
        · simpa using Ne.symm hqp
        · simp
      simp [hsame, hno]
  · by_cases hnil : vals' (.inr p) = []
    · rw [if_pos hnil] at hq
      exact Option.some.inj hq ▸ hnil
    · rw [if_neg hnil] at hq
      exact absurd hq (by simp)

omit [DecidableEq κ] in
/-- An entry that has no watchers any more is freed. -/
theorem Grafo.sueltaWatch (h : Grafo w vals (if vals (.inr p) = [] then some p else none))
    (hhead : w.links.head (.inr p) = none ↔ vals (.inr p) = []) :
    Grafo (sueltaWatch p w) vals none ∧ (sueltaWatch p w).links = w.links ∧
      (sueltaWatch p w).cwatch = w.cwatch := by
  rw [Watch.sueltaWatch]
  cases hp : w.links.head (.inr p) with
  | none =>
      rw [if_pos (hhead.mp hp)] at h
      exact ⟨h.freeWatch, rfl, rfl⟩
  | some lp =>
      rw [if_neg fun hnil ↦ absurd (hhead.mpr hnil) (by simp [hp])] at h
      exact ⟨h, rfl, rfl⟩

/-! ## The functions -/

/-- `borra_nick_watch`. -/
theorem Consta.borraNickWatch (h : Consta MAXWATCH w) (c : κ) (nick : CStr) :
    Consta MAXWATCH (borraNickWatch c nick w) := by
  obtain ⟨listas, vals, hlinks, hgrafo, hcwatch, hmaximo⟩ := h
  obtain ⟨r, w₁, hfind, hgrafo₁, hsame, hcsame, -⟩ := hgrafo.findWatch nick
  rw [← hsame] at hlinks
  rw [← hcsame] at hcwatch
  rw [Watch.borraNickWatch, hfind]
  cases r with
  | none => exact ⟨listas, vals, hlinks, hgrafo₁, hcwatch, hmaximo⟩
  | some p =>
      by_cases hmem : .inl c ∈ vals (.inr p)
      · have hne : (Sum.inr p : κ ⊕ ω) ≠ .inl c := by simp
        have hmem' : .inr p ∈ vals (.inl c) := (hgrafo₁.vecinos.symm _ _).mpr hmem
        obtain ⟨m, xs, hremove, -, hm⟩ := hlinks.remove hmem
        have hother : Function.update vals (.inr p) (strike (.inl c) (vals (.inr p))) (.inl c) =
            vals (.inl c) := Function.update_of_ne hne.symm ..
        obtain ⟨m', ys, hremove', -, hm'⟩ := hm.remove (i := .inl c) (v := .inr p)
          (by rwa [hother])
        rw [hother] at hm'
        generalize hvals' : Function.update
          (Function.update vals (.inr p) (strike (.inl c) (vals (.inr p))))
          (.inl c) (strike (.inr p) (vals (.inl c))) = vals' at hm'
        have hcorta := hgrafo₁.corta hmem hvals'.symm
        have hgrafo' : Grafo { w₁ with links := m' } vals'
            (if vals' (.inr p) = [] then some p else none) :=
          ⟨hcorta.vecinos, hcorta.lados, hcorta.tabla, hcorta.enUso, hcorta.vacio, hcorta.avisos⟩
        obtain ⟨hsuelta, hlinks', hcwatch'⟩ := hgrafo'.sueltaWatch (hm'.head_eq_none (.inr p))
        have hpropia : (vals' (.inl c)).length = (vals (.inl c)).length - 1 := by
          rw [← hvals', Function.update_self, length_strike hmem']
        have hajena : ∀ d, d ≠ c → vals' (.inl d) = vals (.inl d) := by
          intro d hdc
          rw [← hvals', Function.update_of_ne (by simpa using hdc), Function.update_of_ne (by simp)]
        have hpos := List.length_pos_of_mem hmem'
        simp only [hremove, hremove']
        refine ⟨_, vals', by rw [hlinks']; exact hm', ⟨hsuelta.vecinos, hsuelta.lados,
          hsuelta.tabla, hsuelta.enUso, hsuelta.vacio, hsuelta.avisos⟩, fun d ↦ ?_, fun d ↦ ?_⟩
        · rw [hcwatch']
          show Function.update w₁.cwatch c (w₁.cwatch c - 1) d = _
          by_cases hdc : d = c
          · subst hdc
            rw [Function.update_self, hpropia, hcwatch d]
            omega
          · rw [Function.update_of_ne hdc, hajena d hdc]
            exact hcwatch d
        · by_cases hdc : d = c
          · subst hdc
            rw [hpropia]
            exact Nat.le_trans (Nat.sub_le _ _) (hmaximo d)
          · rw [hajena d hdc]
            exact hmaximo d
      · simp only [hlinks.remove_of_not_mem hmem]
        exact ⟨listas, vals, hlinks, hgrafo₁, hcwatch, hmaximo⟩

/-- `agrega_nick_watch` for a user whose list is not full. -/
theorem Consta.agregaNickWatch (h : Consta MAXWATCH w) {sys : Malloc ω} {nick : CStr}
    (hc : w.cwatch c < MAXWATCH) (hw' : agregaNickWatch sys c nick w = some w') :
    Consta MAXWATCH w' := by
  obtain ⟨listas, vals, hlinks, hgrafo, hcwatch, hmaximo⟩ := h
  have hlen : (vals (.inl c)).length < MAXWATCH := by
    rw [hcwatch] at hc
    exact_mod_cast hc
  obtain ⟨r, w₁, hfind, hgrafo₁, hsame, hcsame, hsome, hnone⟩ := hgrafo.findWatch nick
  rw [← hsame] at hlinks
  rw [← hcsame] at hcwatch
  have hbien : Bien MAXWATCH w₁ listas vals none := ⟨hlinks, hgrafo₁, hcwatch, hmaximo⟩
  rw [Watch.agregaNickWatch, hfind] at hw'
  cases r with
  | some p =>
      obtain rfl := Option.some.inj hw'
      exact hbien.enlaza (hsome p rfl) (Or.inl rfl) hlen
  | none =>
      simp only [makeWatch] at hw'
      by_cases hnick : nick = []
      · simp only [hnick, if_true, Option.some.injEq] at hw'
        exact hw' ▸ ⟨listas, vals, hbien⟩
      · simp only [hnick, if_false] at hw'
        cases hpide : sys.pide w₁.enUso with
        | none => simp [hpide] at hw'
        | some p =>
            simp only [hpide, Option.some.injEq] at hw'
            subst hw'
            obtain ⟨w₂, hw₂⟩ : ∃ w₂ : Watches κ ω, w₂ = { w₁ with
              enUso := insert p w₁.enUso
              links := w₁.links.clear (.inr p)
              tabla := (w₁.tabla.conNombre p nick).add p } := ⟨_, rfl⟩
            obtain ⟨hnil, hgrafo₂⟩ := hgrafo₁.makeWatch w₂ (sys.libre _ _ hpide)
              (hnone rfl) (by rw [hw₂]) (by rw [hw₂]) (by rw [hw₂])
            have hclear := hlinks.clear (.inr p)
            have hsame₂ : Function.update vals (.inr p) [] = vals := by
              rw [← hnil, Function.update_eq_self]
            rw [hsame₂] at hclear
            have hbien₂ : Bien MAXWATCH w₂ _ vals (some p) :=
              ⟨by rw [hw₂]; exact hclear, hgrafo₂, by rw [hw₂]; exact hcwatch, hmaximo⟩
            rw [← hw₂]
            exact hbien₂.enlaza (by rw [hw₂]; exact Finset.mem_insert_self _ _) (Or.inr rfl) hlen

/-- A round of `borra_lista_watch`. -/
def borraUno (c : κ) (lp : Nat) (w : Watches κ ω) : Watches κ ω :=
  match w.links.value lp with
  | .inl _ => w
  | .inr wptr =>
      match w.links.remove (.inr wptr) (.inl c) with
      | (false, _) => { w with avisos := w.avisos + 1 }
      | (true, links) => sueltaWatch wptr { w with links := links }

/-- The lists while the links `rest` of the user `c` are still to be visited. The list of the user is
the old one until the end, and the graph has the links that have not been visited. -/
structure Parcial (w : Watches κ ω) (listas : κ ⊕ ω → List Nat) (vals : κ ⊕ ω → List (κ ⊕ ω))
    (c : κ) (todos rest : List Nat) : Prop where
  links : w.links.Holds listas (Function.update vals (.inl c) (todos.map w.links.value))
  grafo : Grafo w vals none
  lista : listas (.inl c) = todos
  sufijo : rest <:+ todos
  rest : rest.map w.links.value = vals (.inl c)

/-- A round takes the user out of the list of the entry. -/
theorem Parcial.borraUno {todos rest : List Nat} {lp : Nat}
    (h : Parcial w listas vals c todos (lp :: rest)) :
    ∃ listas' vals', Parcial (borraUno c lp w) listas' vals' c todos rest ∧
      (borraUno c lp w).cwatch = w.cwatch ∧ (∀ d, d ≠ c → vals' (.inl d) = vals (.inl d)) := by
  have hrest : w.links.value lp :: rest.map w.links.value = vals (.inl c) := h.rest
  have hmem' : w.links.value lp ∈ vals (.inl c) := by rw [← hrest]; exact List.mem_cons_self
  obtain ⟨p, hp⟩ := h.grafo.inr_of_mem hmem'
  rw [hp] at hrest hmem'
  have hmem : .inl c ∈ vals (.inr p) := (h.grafo.vecinos.symm _ _).mp hmem'
  have hne : (Sum.inr p : κ ⊕ ω) ≠ .inl c := by simp
  obtain ⟨todas, htodas⟩ : ∃ l, l = Function.update vals (.inl c) (todos.map w.links.value) := ⟨_, rfl⟩
  have hsame : todas (.inr p) = vals (.inr p) := by
    rw [htodas, Function.update_of_ne hne]
  have hlinks := h.links
  rw [← htodas] at hlinks
  obtain ⟨m, xs, hremove, hvalue, hm⟩ := hlinks.remove (i := .inr p) (v := .inl c)
    (by rwa [hsame])
  obtain ⟨vals', hvals'⟩ : ∃ v, v = Function.update
      (Function.update vals (.inr p) (strike (.inl c) (vals (.inr p))))
      (.inl c) (strike (.inr p) (vals (.inl c))) := ⟨_, rfl⟩
  have hcorta := h.grafo.corta hmem hvals'
  have hgrafo : Grafo { w with links := m } vals' (if vals' (.inr p) = [] then some p else none) :=
    ⟨hcorta.vecinos, hcorta.lados, hcorta.tabla, hcorta.enUso, hcorta.vacio, hcorta.avisos⟩
  -- The old list of the user stands in for the one without the visited links.
  have hvals : Function.update todas (.inr p) (strike (.inl c) (todas (.inr p))) =
      Function.update vals' (.inl c) (todos.map m.value) := by
    rw [hsame, hvalue, hvals', Function.update_idem, htodas, Function.update_comm hne]
  rw [hvals] at hm
  have hhead : m.head (.inr p) = none ↔ vals' (.inr p) = [] := by
    rw [hm.head_eq_none, Function.update_of_ne hne]
  obtain ⟨hsuelta, hlinks', hcwatch'⟩ := hgrafo.sueltaWatch hhead
  have huno : Watch.borraUno c lp w = sueltaWatch p { w with links := m } := by
    simp only [Watch.borraUno, hp, hremove]
  rw [huno]
  refine ⟨Function.update listas (.inr p) xs, vals',
    ⟨?_, hsuelta, ?_, (List.suffix_cons lp rest).trans h.sufijo, ?_⟩, hcwatch', fun d hdc ↦ ?_⟩
  · rw [hlinks']
    exact hm
  · rw [Function.update_of_ne hne.symm, h.lista]
  · rw [hlinks']
    show rest.map m.value = vals' (.inl c)
    rw [hvals', Function.update_self, ← hrest, hvalue]
    exact (strike_append_cons (List.not_mem_nil)).symm
  · rw [hvals', Function.update_of_ne (by simpa using hdc), Function.update_of_ne (by simp)]

/-- The loop of `borra_lista_watch`. -/
theorem Parcial.borraDesde {todos rest : List Nat} {fuel : Nat} {lp : Option Nat}
    (h : Parcial w listas vals c todos rest) (hlp : Links w.links.next lp rest none)
    (hfuel : rest.length ≤ fuel) :
    ∃ listas' vals', Parcial (borraDesde c fuel lp w) listas' vals' c todos [] ∧
      (borraDesde c fuel lp w).cwatch = w.cwatch ∧
        (∀ d, d ≠ c → vals' (.inl d) = vals (.inl d)) := by
  induction rest generalizing w listas vals lp fuel with
  | nil =>
      rw [Links.nil] at hlp
      subst hlp
      rw [Watch.borraDesde]
      exact ⟨listas, vals, h, rfl, fun _ _ ↦ rfl⟩
  | cons p rest ih =>
      obtain ⟨rfl, -⟩ := hlp
      cases fuel with
      | zero => simp at hfuel
      | succ fuel =>
          obtain ⟨listas₁, vals₁, h₁, hcwatch₁, hajena₁⟩ := h.borraUno
          have hlinks : Links (Watch.borraUno c p w).links.next
              ((Watch.borraUno c p w).links.next p) rest none := by
            obtain ⟨as, htodos⟩ := h.sufijo
            have hlista := h₁.links.lists.links (.inl c)
            rw [h₁.lista, ← htodos] at hlista
            exact hlista.from_mem.2
          obtain ⟨listas', vals', h', hcwatch', hajena'⟩ :=
            ih h₁ hlinks (Nat.le_of_succ_le_succ hfuel)
          refine ⟨listas', vals', h', hcwatch'.trans hcwatch₁, fun d hdc ↦ ?_⟩
          rw [hajena' d hdc, hajena₁ d hdc]

/-- `borra_lista_watch`. -/
theorem Consta.borraListaWatch (h : Consta MAXWATCH w) (c : κ) :
    Consta MAXWATCH (borraListaWatch c w) := by
  obtain ⟨listas, vals, hlinks, hgrafo, hcwatch, hmaximo⟩ := h
  rw [Watch.borraListaWatch]
  cases hhead : w.links.head (.inl c) with
  | none => exact ⟨listas, vals, hlinks, hgrafo, hcwatch, hmaximo⟩
  | some lp =>
      have hparcial : Parcial w listas vals c (listas (.inl c)) (listas (.inl c)) := by
        refine ⟨?_, hgrafo, rfl, List.suffix_rfl, hlinks.vals _⟩
        rwa [hlinks.vals, Function.update_eq_self]
      obtain ⟨listas', vals', h', hcwatch', hajena⟩ := hparcial.borraDesde
        (hhead ▸ hlinks.lists.links (.inl c)) (hlinks.length_le _)
      have hnil : vals' (.inl c) = [] := h'.rest.symm
      have hclear := h'.links.clear (.inl c)
      rw [Function.update_idem, ← hnil, Function.update_eq_self] at hclear
      have hg := h'.grafo
      refine ⟨_, vals', hclear, ⟨hg.vecinos, hg.lados, hg.tabla, hg.enUso, hg.vacio, hg.avisos⟩,
        fun d ↦ ?_, fun d ↦ ?_⟩
      · show Function.update (Watch.borraDesde c w.links.count (some lp) w).cwatch c 0 d = _
        rw [hcwatch']
        by_cases hdc : d = c
        · subst hdc
          rw [Function.update_self, hnil]
          rfl
        · rw [Function.update_of_ne hdc, hajena d hdc]
          exact hcwatch d
      · by_cases hdc : d = c
        · subst hdc
          rw [hnil]
          exact Nat.zero_le _
        · rw [hajena d hdc]
          exact hmaximo d

end Ircd.Watch
