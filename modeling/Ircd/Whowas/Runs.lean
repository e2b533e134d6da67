import Ircd.Whowas.Entries

/-!
# Every run of the history

Clients are made, change their nick or are removed, in any order and at any time of the clock. The
main theorem, `historia_consistente`, says that no run meets a null pointer or `MyCoreDump`, that
the threads of every state it reaches are those of the nicks and of the clients that are there, and
that `get_history` finds the newest record of a nick, except when that record is exactly as old as
the limit.
-/

namespace Ircd.Whowas

open CString Hash

variable {n : Nat} {κ : Type}

/-- A nick has a character. -/
abbrev Nick : Type := { name : CStr // name ≠ [] }

/-- What happens to a client. -/
inductive Orden (κ : Type) where
  /-- `make_client`. -/
  | alta (c : κ)
  /-- `add_history`, with the nick that the client has then. -/
  | history (c : κ) (nick : Nick) (stillOn : Bool) (now : Int)
  /-- `remove_client_from_list`. -/
  | baja (c : κ) (nick : Nick) (now : Int)

section

variable [DecidableEq κ]

/-- One order. The clients in the list are those with `vivo`; only they change their nick or go
away, and the memory of a new client is set to 0. -/
def ejecuta (o : Orden κ) (e : Historia n κ × (κ → Bool)) : Option (Historia n κ × (κ → Bool)) :=
  let (s, vivo) := e
  match o with
  | .alta c =>
      if vivo c then some (s, vivo)
      else some ({ s with clist := s.clist.write (.head c) none }, Function.update vivo c true)
  | .history c nick stillOn now =>
      if vivo c then (addHistory c nick.1 stillOn now s).map fun s ↦ (s, vivo)
      else some (s, vivo)
  | .baja c nick now =>
      if vivo c then do
        let s ← addHistory c nick.1 false now s
        let s ← offHistory c s
        some (s, Function.update vivo c false)
      else some (s, vivo)

/-- A run. -/
def corre : List (Orden κ) → Historia n κ × (κ → Bool) → Option (Historia n κ × (κ → Bool))
  | [], e => some e
  | o :: os, e => (ejecuta o e).bind (corre os)

/-- The same order on the records. -/
def anotaOrden (n : Nat) (o : Orden κ) (e : List (Ficha κ) × (κ → Bool)) :
    List (Ficha κ) × (κ → Bool) :=
  let (r, vivo) := e
  match o with
  | .alta c => (r, Function.update vivo c true)
  | .history c nick stillOn now =>
      if vivo c then (anota n ⟨nick.1, now, if stillOn then some c else none⟩ r, vivo)
      else (r, vivo)
  | .baja c nick now =>
      if vivo c then (olvida c (anota n ⟨nick.1, now, none⟩ r), Function.update vivo c false)
      else (r, vivo)

/-- The records after a run, and the clients in the list. -/
def registro (n : Nat) (os : List (Orden κ)) : List (Ficha κ) × (κ → Bool) :=
  os.foldl (fun e o ↦ anotaOrden n o e) ([], fun _ ↦ false)

end

/-- The start of the program. -/
def inicio (n : Nat) (κ : Type) : Historia n κ × (κ → Bool) :=
  (initwhowas (.cero n κ), fun _ ↦ false)

/-- What holds of the entries and their lists. -/
structure Consistente (s : Historia n κ) (vivo : κ → Bool) : Prop where
  /-- The entry to be reused is the last one of its hash list. -/
  ultimoHash : s.hashv s.whowasNext ≠ WHOWAS_UNUSED →
    ∃ xs, Links s.hlist.next (s.hlist.head (s.hashv s.whowasNext)) (xs ++ [s.whowasNext]) none
  /-- The entry to be reused is the last one of its online list. -/
  ultimoOnline : ∀ c, s.online s.whowasNext = some c →
    ∃ xs, Links s.clist.next (s.clist.head c) (xs ++ [s.whowasNext]) none
  /-- The entries in a hash list are the used ones whose nick has the hash value. -/
  listasHash : ∀ h, ∃ xs, Links s.hlist.next (s.hlist.head h) xs none ∧
    ∀ i, i ∈ xs ↔ s.hashv i ≠ WHOWAS_UNUSED ∧ hashWhowasName (s.name i) [] = h
  /-- The entries in an online list are those that point to the client. -/
  listasOnline : ∀ c, vivo c = true → ∃ xs, Links s.clist.next (s.clist.head c) xs none ∧
    ∀ i, i ∈ xs ↔ s.online i = some c
  /-- An online pointer is one to a client that has not been removed. -/
  vivos : ∀ i c, s.online i = some c → vivo c = true

variable {s : Historia n κ} {vivo : κ → Bool} {us : List (Fin (n + 1))} {c : κ}

variable [DecidableEq κ]

/-- The last cell of a thread. -/
theorem links_ultimo {ρ : Type} {next : ρ → Option ρ} {p : Option ρ} {as : List ρ} {a : ρ}
    {good : ρ → Prop} [DecidablePred good] (h : Links next p ((as ++ [a]).filter good) none)
    (ha : good a) : ∃ xs, Links next p (xs ++ [a]) none := by
  rw [List.filter_append, List.filter_singleton] at h
  exact ⟨as.filter good, by simpa [ha] using h⟩

/-- The entries in use are consistent. -/
theorem Bien.consistente (h : Bien s vivo us) : Consistente s vivo := by
  have hlast : s.hashv s.whowasNext ≠ WHOWAS_UNUSED → ∃ as, us = as ++ [s.whowasNext] := by
    intro hused
    rcases h.ultimo with ⟨hmem, -⟩ | ⟨as, hus, -⟩
    · exact absurd ((h.usados _).mpr hused) hmem
    · exact ⟨as, hus⟩
  refine ⟨fun hused ↦ ?_, fun c hc ↦ ?_, fun k ↦ ?_, fun c hc ↦ ?_, fun i c hi ↦ (h.vivos i c hi).2⟩
  · obtain ⟨as, hus⟩ := hlast hused
    have hlinks := (h.hlist (s.hashv s.whowasNext) trivial).links
    rw [hus] at hlinks
    exact links_ultimo hlinks rfl
  · obtain ⟨hmem, hvivo⟩ := h.vivos _ c hc
    obtain ⟨as, hus⟩ := hlast ((h.usados _).mp hmem)
    have hlinks := (h.clist c hvivo).links
    rw [hus] at hlinks
    exact links_ultimo hlinks hc
  · refine ⟨_, (h.hlist k trivial).links, fun i ↦ ?_⟩
    rw [List.mem_filter, h.usados]
    constructor
    · rintro ⟨hused, hk⟩
      have hi := (h.nombre i ((h.usados i).mpr hused)).2
      exact ⟨hused, hi ▸ (by simpa using hk)⟩
    · rintro ⟨hused, hk⟩
      have hi := (h.nombre i ((h.usados i).mpr hused)).2
      exact ⟨hused, by simpa [hi] using hk⟩
  · refine ⟨_, (h.clist c hc).links, fun i ↦ ?_⟩
    rw [List.mem_filter]
    simp only [decide_eq_true_eq]
    exact and_iff_right_of_imp fun hi ↦ (h.vivos i c hi).1

/-! ## Runs -/

/-- A new client has no entry. -/
theorem Bien.alta (h : Bien s vivo us) (hc : vivo c = false) :
    Bien { s with clist := s.clist.write (.head c) none } (Function.update vivo c true) us := by
  refine ⟨h.usados, h.nodup, h.orden, h.lleno, h.nombre, h.hlist, fun d hd ↦ ?_, fun i d hi ↦ ?_⟩
  · by_cases hdc : d = c
    · subst hdc
      have hnil : us.filter (fun i ↦ s.online i = some d) = [] := by
        rw [List.filter_eq_nil_iff]
        intro i _ hi
        have hvivo := (h.vivos i d (by simpa using hi)).2
        rw [hc] at hvivo
        exact absurd hvivo (by simp)
      rw [hnil]
      exact ⟨Function.update_self .., trivial⟩
    · have hd : Function.update vivo c true d = true := hd
      rw [Function.update_of_ne hdc] at hd
      exact (h.clist d hd).congr (Function.update_of_ne hdc _ _) (fun _ _ ↦ rfl) fun _ _ ↦ rfl
  · obtain ⟨hmem, hvivo⟩ := h.vivos i d hi
    refine ⟨hmem, ?_⟩
    by_cases hdc : d = c
    · rw [hdc, Function.update_self]
    · rwa [Function.update_of_ne hdc]

/-- The entries in use hold the records. -/
def Guarda (e : Historia n κ × (κ → Bool)) (r : List (Ficha κ) × (κ → Bool)) : Prop :=
  e.2 = r.2 ∧ ∃ us, Bien e.1 e.2 us ∧ us.map e.1.ficha = r.1

/-- One order. -/
theorem Guarda.ejecuta {e : Historia n κ × (κ → Bool)} {r : List (Ficha κ) × (κ → Bool)}
    (h : Guarda e r) (o : Orden κ) : ∃ e', ejecuta o e = some e' ∧ Guarda e' (anotaOrden n o r) := by
  obtain ⟨s, vivo⟩ := e
  obtain ⟨r, vivo'⟩ := r
  obtain ⟨hvivo, us, hbien, hr⟩ := h
  obtain rfl : vivo = vivo' := hvivo
  obtain rfl : us.map s.ficha = r := hr
  have hbien : Bien s vivo us := hbien
  cases o with
  | alta c =>
      cases hc : vivo c with
      | true =>
          refine ⟨(s, vivo), by simp [Whowas.ejecuta, hc], ?_, us, hbien, rfl⟩
          show vivo = Function.update vivo c true
          rw [← hc, Function.update_eq_self]
      | false =>
          have halta : Whowas.ejecuta (.alta c) (s, vivo) =
              some ({ s with clist := s.clist.write (.head c) none }, Function.update vivo c true) := by
            simp [Whowas.ejecuta, hc]
          exact ⟨_, halta, rfl, us, hbien.alta hc, rfl⟩
  | history c nick stillOn now =>
      cases hc : vivo c with
      | false =>
          exact ⟨(s, vivo), by simp [Whowas.ejecuta, hc], by simp [anotaOrden, hc], us, hbien,
            by simp [anotaOrden, hc]⟩
      | true =>
          obtain ⟨s', us', hadd, hbien', hfichas⟩ := hbien.addHistory hc nick.2 stillOn now
          exact ⟨(s', vivo), by simp [Whowas.ejecuta, hc, hadd], by simp [anotaOrden, hc], us',
            hbien', by simpa [anotaOrden, hc] using hfichas⟩
  | baja c nick now =>
      cases hc : vivo c with
      | false =>
          exact ⟨(s, vivo), by simp [Whowas.ejecuta, hc], by simp [anotaOrden, hc], us, hbien,
            by simp [anotaOrden, hc]⟩
      | true =>
          obtain ⟨s₁, us₁, hadd, hbien₁, hfichas₁⟩ := hbien.addHistory hc nick.2 false now
          obtain ⟨s', hoff, hbien', hfichas⟩ := hbien₁.offHistory hc
          refine ⟨(s', Function.update vivo c false), by simp [Whowas.ejecuta, hc, hadd, hoff],
            by simp [anotaOrden, hc], us₁, hbien', ?_⟩
          rw [hfichas, hfichas₁]
          simp [anotaOrden, hc]

/-- A run. -/
theorem Guarda.corre {e : Historia n κ × (κ → Bool)} {r : List (Ficha κ) × (κ → Bool)}
    (h : Guarda e r) (os : List (Orden κ)) :
    ∃ e', corre os e = some e' ∧ Guarda e' (os.foldl (fun e o ↦ anotaOrden n o e) r) := by
  induction os generalizing e r with
  | nil => exact ⟨e, rfl, h⟩
  | cons o os ih =>
      obtain ⟨e₁, hejecuta, h₁⟩ := h.ejecuta o
      obtain ⟨e', hcorre, h'⟩ := ih h₁
      exact ⟨e', by rw [Whowas.corre, hejecuta, Option.bind_some, hcorre], h'⟩

/-- At the start no entry is in use. -/
theorem guarda_inicio : Guarda (inicio n κ) ([], fun _ ↦ false) := by
  refine ⟨rfl, [], ⟨?_, List.nodup_nil, List.isChain_singleton _, Or.inr ⟨rfl, by simp⟩, by simp,
    fun _ _ ↦ ⟨rfl, trivial⟩, fun _ _ ↦ ⟨rfl, trivial⟩, ?_⟩, rfl⟩
  · intro i
    exact iff_of_false (by simp) (fun h ↦ h rfl)
  · intro i c hi
    exact absurd hi (by simp [inicio, initwhowas, Historia.cero])

/-- The newest record of a nick that is not older than `timelimit` seconds. -/
def reciente (nick : CStr) (timelimit now : Int) (r : List (Ficha κ)) : Option (Ficha κ) :=
  busca nick (fun t ↦ now - t ≤ timelimit) r

omit [DecidableEq κ] in
/-- It is the newest younger one when it is younger. -/
theorem busca_eq_reciente {nick : CStr} {timelimit now : Int} {r : List (Ficha κ)}
    (h : ∀ f, reciente nick timelimit now r = some f → now - f.logoff ≠ timelimit) :
    busca nick (fun t ↦ now - timelimit < t) r = reciente nick timelimit now r := by
  induction r with
  | nil => rfl
  | cons g r ih =>
      rw [reciente, busca, List.find?_cons] at h
      rw [reciente, busca, busca, List.find?_cons, List.find?_cons]
      by_cases hg : strCasediff nick g.name = 0 ∧ now - g.logoff ≤ timelimit
      · have hne := h g (by simp [hg])
        have hlt : now - timelimit < g.logoff := by omega
        simp [hg, hlt]
      · have hlt : ¬(strCasediff nick g.name = 0 ∧ now - timelimit < g.logoff) := by
          intro hg'
          exact hg ⟨hg'.1, by omega⟩
        simp only [hg, hlt, decide_false]
        refine ih fun f hf ↦ h f ?_
        simp only [hg, decide_false]
        exact hf

/-- Every run from the start of the program ends, and leaves the lists consistent; `get_history` then
gives the client of the newest record of the nick that is not older than the limit, when this
record is not exactly as old as the limit. -/
theorem historia_consistente (os : List (Orden κ)) :
    ∃ e, corre os (inicio n κ) = some e ∧ Consistente e.1 e.2 ∧
      ∀ nick detras timelimit now,
        (∀ f, reciente nick timelimit now (registro n os).1 = some f → now - f.logoff ≠ timelimit) →
          getHistory nick detras timelimit now e.1 =
            some ((reciente nick timelimit now (registro n os).1).bind Ficha.online) := by
  obtain ⟨e, hcorre, -, us, hbien, hr⟩ := (guarda_inicio (n := n) (κ := κ)).corre os
  refine ⟨e, hcorre, hbien.consistente, fun nick detras timelimit now hedad ↦ ?_⟩
  have hr : us.map e.1.ficha = (registro n os).1 := hr
  rw [hbien.getHistory, hr, busca_eq_reciente hedad]

/-- A record that is exactly as old as the limit is not found. -/
theorem getHistory_edad_exacta :
    let os : List (Orden (Fin 1)) := [.alta 0, .history 0 ⟨['A'], by decide⟩ true 100]
    ((corre os (inicio 799 (Fin 1))).bind fun e ↦ getHistory ['A'] [] 15 115 e.1) = some none ∧
      (reciente ['A'] 15 115 (registro 799 os).1).bind Ficha.online = some 0 := by
  decide +kernel

end Ircd.Whowas
