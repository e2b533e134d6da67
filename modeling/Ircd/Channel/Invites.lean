import Ircd.Channel.Census
import Ircd.Lib.Run

/-!
# Invitations

Runs of `add_invite`, `del_invite` and `sub1_from_channel`. The history of a run tells how long ago a
client was invited to a channel, and `invitaciones_run` says that the two lists of every invitation
agree, that a client has no more of them than it may have, and that the oldest one goes when
another one has no room.
-/

namespace Ircd.Channel

open Run

/-- A call. -/
inductive Invitacion (γ κ : Type) where
  | addInvite (cptr : κ) (chptr : γ)
  | delInvite (cptr : κ) (chptr : γ)
  | sub1FromChannel (chptr : γ)
deriving DecidableEq

section

variable {γ κ : Type} [DecidableEq γ] [DecidableEq κ]

/-- How many calls ago a client has been invited to a channel, or the number of all calls. -/
def edad (cptr : κ) (chptr : γ) (l : List (Invitacion γ κ)) : Nat :=
  l.reverse.findIdx (· = .addInvite cptr chptr)

variable {s : Red γ κ} {cptr u : κ} {chptr c d : γ} {maximo : Nat} {l : List (Invitacion γ κ)}
  {a : Invitacion γ κ}

/-- With each call the invitations are older by one. -/
theorem edad_concat_of_ne (h : a ≠ .addInvite cptr chptr) :
    edad cptr chptr (l ++ [a]) = edad cptr chptr l + 1 := by
  simp [edad, List.findIdx_cons, h]

/-- A new invitation. -/
theorem edad_concat_self : edad cptr chptr (l ++ [.addInvite cptr chptr]) = 0 := by
  simp [edad, List.findIdx_cons]

/-! ## The calls -/

/-- The invitations of a client after one of them has been taken back. -/
theorem invited_delInvite :
    (delInvite cptr chptr s).invited =
      Function.update s.invited cptr ((s.invited cptr).erase chptr) :=
  rfl

/-- Taking an invitation back keeps both lists of every invitation. -/
theorem enlaces_delInvite (h : Incidence s.invitados s.invited) (cptr : κ) (chptr : γ) :
    Incidence (delInvite cptr chptr s).invitados (delInvite cptr chptr s).invited := by
  have heq := campo_update s.canal chptr
    { s.canal chptr with invites := (s.canal chptr).invites.erase cptr } Canal.invites
  show Incidence (fun c ↦ (Function.update s.canal chptr _ c).invites) _
  rw [heq]
  exact h.unlink chptr cptr

/-- Taking an invitation back makes no new one. -/
theorem invited_delInvite_sublist (cptr : κ) (chptr : γ) (s : Red γ κ) (u : κ) :
    ((delInvite cptr chptr s).invited u).Sublist (s.invited u) := by
  rw [invited_delInvite]
  by_cases hu : u = cptr
  · subst hu
    rw [Function.update_self]
    exact List.erase_sublist
  · rw [Function.update_of_ne hu]

/-- The loop over the invitations to a channel keeps both lists, and makes no new ones. -/
theorem enlaces_delInvites (h : Incidence s.invitados s.invited) (chptr : γ) (fuel : Nat) :
    Incidence (delInvites chptr fuel s).invitados (delInvites chptr fuel s).invited ∧
      ∀ u, ((delInvites chptr fuel s).invited u).Sublist (s.invited u) := by
  induction fuel generalizing s with
  | zero => exact ⟨h, fun _ ↦ .refl _⟩
  | succ fuel ih =>
      rw [delInvites]
      cases (s.canal chptr).invites with
      | nil => exact ⟨h, fun _ ↦ .refl _⟩
      | cons cptr rest =>
          obtain ⟨henlaces, hsub⟩ := ih (enlaces_delInvite h cptr chptr)
          exact ⟨henlaces, fun u ↦ (hsub u).trans (invited_delInvite_sublist cptr chptr s u)⟩

omit [DecidableEq κ] in
/-- A change of a channel that leaves its invitations as they are. -/
theorem invitados_cambia {f : Canal κ → Canal κ} (hf : (f (s.canal chptr)).invites =
    (s.canal chptr).invites) : (s.cambia chptr f).invitados = s.invitados := by
  have heq := campo_update s.canal chptr (f (s.canal chptr)) Canal.invites
  show (fun c ↦ (Function.update s.canal chptr _ c).invites) = _
  rw [heq, hf]
  exact Function.update_eq_self _ _

/-- An invitation puts the channel behind the others, of which the first one goes if there is no
room. -/
theorem invited_addInvite (maximo : Nat) (cptr : κ) (chptr : γ) (s : Red γ κ) :
    (addInvite maximo cptr chptr s).invited =
      Function.update s.invited cptr
        ((if maximo ≤ ((s.invited cptr).erase chptr).length then
          ((s.invited cptr).erase chptr).tail else (s.invited cptr).erase chptr) ++ [chptr]) := by
  have hdel : (delInvite cptr chptr s).invited cptr = (s.invited cptr).erase chptr := by
    rw [invited_delInvite, Function.update_self]
  unfold addInvite
  dsimp only
  rw [hdel]
  split
  · cases hpend : (s.invited cptr).erase chptr with
    | nil =>
        show Function.update (delInvite cptr chptr s).invited cptr
          ((delInvite cptr chptr s).invited cptr ++ [chptr]) = _
        rw [hdel, hpend, invited_delInvite, Function.update_idem]
        rfl
    | cons viejo rest =>
        have hrest : (delInvite cptr viejo (delInvite cptr chptr s)).invited cptr = rest := by
          rw [invited_delInvite, Function.update_self, hdel, hpend, List.erase_cons_head]
        show Function.update (delInvite cptr viejo (delInvite cptr chptr s)).invited cptr
          ((delInvite cptr viejo (delInvite cptr chptr s)).invited cptr ++ [chptr]) = _
        rw [hrest, invited_delInvite, invited_delInvite, Function.update_idem, Function.update_idem]
        rfl
  · show Function.update (delInvite cptr chptr s).invited cptr
      ((delInvite cptr chptr s).invited cptr ++ [chptr]) = _
    rw [hdel, invited_delInvite, Function.update_idem]

/-- An invitation keeps both lists. -/
theorem enlaces_addInvite (h : Incidence s.invitados s.invited) (maximo : Nat) (cptr : κ)
    (chptr : γ) :
    Incidence (addInvite maximo cptr chptr s).invitados (addInvite maximo cptr chptr s).invited := by
  have hdel := enlaces_delInvite h cptr chptr
  have hnot : chptr ∉ (delInvite cptr chptr s).invited cptr := by
    rw [invited_delInvite, Function.update_self]
    exact (h.nodup_right cptr).not_mem_erase
  have hlink : ∀ s' : Red γ κ, Incidence s'.invitados s'.invited → chptr ∉ s'.invited cptr →
      Incidence (s'.cambia chptr fun c ↦ { c with invites := cptr :: c.invites }).invitados
        (Function.update s'.invited cptr (s'.invited cptr ++ [chptr])) := by
    intro s' h' hnot'
    have heq := campo_update s'.canal chptr
      { s'.canal chptr with invites := cptr :: (s'.canal chptr).invites } Canal.invites
    show Incidence (fun c ↦ (Function.update s'.canal chptr _ c).invites) _
    rw [heq]
    exact h'.link (mt (h'.mem_iff chptr cptr).mp hnot') (.refl _) (List.perm_append_singleton _ _)
  unfold addInvite
  dsimp only
  split
  · split
    · next c _ _ => exact hlink _ (enlaces_delInvite hdel cptr c) (not_invited_delInvite hnot c)
    · exact hlink _ hdel hnot
  · exact hlink _ hdel hnot

variable [Fintype γ]

/-- A channel that is taken away takes back its invitations. -/
theorem enlaces_sub1FromChannel (h : Incidence s.invitados s.invited) (chptr : γ) :
    Incidence (sub1FromChannel chptr s).invitados (sub1FromChannel chptr s).invited ∧
      ∀ u, ((sub1FromChannel chptr s).invited u).Sublist (s.invited u) := by
  obtain ⟨s₁, hs₁⟩ : ∃ s₁, s₁ = s.cambia chptr fun c ↦ { c with users := c.users - 1 } := ⟨_, rfl⟩
  have h₁ : Incidence s₁.invitados s₁.invited := by
    rw [hs₁, invitados_cambia rfl]
    exact h
  have hsame : s₁.invited = s.invited := by rw [hs₁]; rfl
  unfold sub1FromChannel
  dsimp only
  rw [← hs₁, ← hsame]
  split_ifs
  · exact ⟨h₁, fun _ ↦ .refl _⟩
  · exact ⟨h₁, fun _ ↦ .refl _⟩
  · obtain ⟨henlaces, hsub⟩ := enlaces_delInvites h₁ chptr (s₁.canal chptr).invites.length
    obtain ⟨s₂, hs₂⟩ : ∃ s₂, s₂ = delInvites chptr (s₁.canal chptr).invites.length s₁ := ⟨_, rfl⟩
    rw [← hs₂] at henlaces hsub
    unfold libera
    dsimp only
    rw [← hs₂]
    refine ⟨?_, hsub⟩
    have hbans : (s₂.cambia chptr fun c ↦ { c with banlist := [] }).invitados = s₂.invitados :=
      invitados_cambia rfl
    show Incidence (s₂.cambia chptr fun c ↦ { c with banlist := [] }).invitados s₂.invited
    rw [hbans]
    exact henlaces

/-! ## Runs -/

/-- The channels after a call. -/
def Invitacion.aplica (maximo : Nat) (a : Invitacion γ κ) (s : Red γ κ) : Red γ κ :=
  match a with
  | .addInvite cptr chptr => Channel.addInvite maximo cptr chptr s
  | .delInvite cptr chptr => Channel.delInvite cptr chptr s
  | .sub1FromChannel chptr => Channel.sub1FromChannel chptr s

/-- What holds after the calls `l`: the invitations of a client are in the order of their age. -/
structure Guarda (maximo : Nat) (l : List (Invitacion γ κ)) (s : Red γ κ) : Prop where
  enlaces : Incidence s.invitados s.invited
  pocas : ∀ u, (s.invited u).length ≤ maximo
  orden : ∀ u, (s.invited u).Pairwise fun c d ↦ edad u d l < edad u c l

omit [Fintype γ] in
/-- A call that makes no new invitation. -/
theorem Guarda.resta (h : Guarda maximo l s) {s' : Red γ κ}
    (henlaces : Incidence s'.invitados s'.invited)
    (hsub : ∀ u, (s'.invited u).Sublist (s.invited u)) (ha : ∀ u c, a ≠ .addInvite u c) :
    Guarda maximo (l ++ [a]) s' := by
  refine ⟨henlaces, fun u ↦ (hsub u).length_le.trans (h.pocas u), fun u ↦ ?_⟩
  refine ((h.orden u).sublist (hsub u)).imp fun {c d} hlt ↦ ?_
  rw [edad_concat_of_ne (ha u c), edad_concat_of_ne (ha u d)]
  exact Nat.succ_lt_succ hlt

omit [Fintype γ] in
/-- A new invitation. -/
theorem Guarda.addInvite (h : Guarda maximo l s) (hmax : 0 < maximo) (cptr : κ) (chptr : γ) :
    Guarda maximo (l ++ [.addInvite cptr chptr]) (addInvite maximo cptr chptr s) := by
  have hpocas := h.pocas cptr
  obtain ⟨pend, hpend, hlen, hsub⟩ : ∃ pend,
      (Channel.addInvite maximo cptr chptr s).invited =
        Function.update s.invited cptr (pend ++ [chptr]) ∧
      pend.length < maximo ∧ pend.Sublist ((s.invited cptr).erase chptr) := by
    refine ⟨_, invited_addInvite maximo cptr chptr s, ?_, ?_⟩
    · have herase := (List.erase_sublist (a := chptr) (l := s.invited cptr)).length_le
      split_ifs
      · rw [List.length_tail]
        omega
      · omega
    · split_ifs
      · exact List.tail_sublist _
      · exact .refl _
  refine ⟨enlaces_addInvite h.enlaces maximo cptr chptr, fun u ↦ ?_, fun u ↦ ?_⟩
  · rw [hpend]
    by_cases hu : u = cptr
    · subst hu
      rw [Function.update_self, List.length_append]
      exact hlen
    · rw [Function.update_of_ne hu]
      exact h.pocas u
  · rw [hpend]
    by_cases hu : u = cptr
    · subst hu
      -- The others are older than they were, and the new one comes last.
      have hnot : chptr ∉ pend := fun hmem ↦
        (h.enlaces.nodup_right u).not_mem_erase (hsub.mem hmem)
      have hne : ∀ c ∈ pend, Invitacion.addInvite u chptr ≠ .addInvite u c := by
        rintro c hc heq
        cases heq
        exact hnot hc
      rw [Function.update_self, List.pairwise_append]
      refine ⟨?_, List.pairwise_singleton _ _, fun c hc d hd ↦ ?_⟩
      · refine ((h.orden u).sublist (hsub.trans List.erase_sublist)).imp_of_mem
          fun {c d} hc hd hlt ↦ ?_
        rw [edad_concat_of_ne (hne c hc), edad_concat_of_ne (hne d hd)]
        exact Nat.succ_lt_succ hlt
      · rw [List.mem_singleton.mp hd, edad_concat_self, edad_concat_of_ne (hne c hc)]
        exact Nat.succ_pos _
    · rw [Function.update_of_ne hu]
      refine (h.orden u).imp fun {c d} hlt ↦ ?_
      have hne : ∀ c, Invitacion.addInvite cptr chptr ≠ .addInvite u c := by
        rintro c heq
        cases heq
        exact hu rfl
      rw [edad_concat_of_ne (hne c), edad_concat_of_ne (hne d)]
      exact Nat.succ_lt_succ hlt

/-- A call. -/
theorem Guarda.aplica (h : Guarda maximo l s) (hmax : 0 < maximo) (a : Invitacion γ κ) :
    Guarda maximo (l ++ [a]) (a.aplica maximo s) := by
  cases a with
  | addInvite cptr chptr => exact h.addInvite hmax cptr chptr
  | delInvite cptr chptr =>
      exact h.resta (enlaces_delInvite h.enlaces cptr chptr)
        (invited_delInvite_sublist cptr chptr s) (by rintro _ _ ⟨⟩)
  | sub1FromChannel chptr =>
      obtain ⟨henlaces, hsub⟩ := enlaces_sub1FromChannel h.enlaces chptr
      exact h.resta henlaces hsub (by rintro _ _ ⟨⟩)

/-- A run from channels without invitations. -/
theorem guarda_final (hmax : 0 < maximo) (hinvites : ∀ c, (s.canal c).invites = [])
    (hinvited : ∀ u, s.invited u = []) (l : List (Invitacion γ κ)) :
    Guarda maximo l (final (Invitacion.aplica maximo) s l) := by
  induction l using List.reverseRecOn with
  | nil =>
      have hleft : s.invitados = fun _ ↦ [] := funext hinvites
      have hright : s.invited = fun _ ↦ [] := funext hinvited
      refine ⟨?_, fun u ↦ ?_, fun u ↦ ?_⟩
      · show Incidence s.invitados s.invited
        rw [hleft, hright]
        exact Incidence.empty
      · show (s.invited u).length ≤ _
        rw [hinvited u]
        exact Nat.zero_le _
      · show (s.invited u).Pairwise _
        rw [hinvited u]
        exact List.Pairwise.nil
  | append_singleton l a ih =>
      rw [final_append]
      exact ih.aplica hmax a

/-! ## The invitations in the words of the program -/

/-- The lists of the invitations after the calls `l`. `llena` and `cabe` are about the next invitation
of a client that has no room for it, and of one that has. -/
structure Simetricas (maximo : Nat) (l : List (Invitacion γ κ)) (s : Red γ κ) : Prop where
  unaVez : ∀ c u, (s.canal c).invites.count u = 1 ↔ (s.invited u).count c = 1
  repetidas : ∀ c u, (s.canal c).invites.count u ≤ 1 ∧ (s.invited u).count c ≤ 1
  pocas : ∀ u, (s.invited u).length ≤ maximo
  llena : ∀ u c, (s.invited u).length = maximo → c ∉ s.invited u →
    ∃ viejo ∈ s.invited u, (∀ d ∈ s.invited u, d ≠ viejo → edad u d l < edad u viejo l) ∧
      ∀ d, d ∈ (addInvite maximo u c s).invited u ↔ d ∈ s.invited u ∧ d ≠ viejo ∨ d = c
  cabe : ∀ u c, (s.invited u).length < maximo ∨ c ∈ s.invited u →
    ∀ d, d ∈ (addInvite maximo u c s).invited u ↔ d ∈ s.invited u ∨ d = c

omit [Fintype γ] in
theorem Guarda.simetricas (h : Guarda maximo l s) (hmax : 0 < maximo) :
    Simetricas maximo l s where
  unaVez c u := by
    have hleft := List.nodup_iff_count_le_one.mp (h.enlaces.nodup_left c) u
    have hright := List.nodup_iff_count_le_one.mp (h.enlaces.nodup_right u) c
    have hmem := h.enlaces.mem_iff c u
    rw [← List.count_pos_iff, ← List.count_pos_iff] at hmem
    simp only [Red.invitados] at hleft hmem
    omega
  repetidas c u :=
    ⟨List.nodup_iff_count_le_one.mp (h.enlaces.nodup_left c) u,
      List.nodup_iff_count_le_one.mp (h.enlaces.nodup_right u) c⟩
  pocas := h.pocas
  llena u c hlen hc := by
    obtain ⟨viejo, rest, hcola⟩ := List.exists_cons_of_length_pos (hlen ▸ hmax)
    have horden := h.orden u
    have hnodup := h.enlaces.nodup_right u
    rw [hcola, List.pairwise_cons] at horden
    rw [hcola, List.nodup_cons] at hnodup
    refine ⟨viejo, hcola ▸ List.mem_cons_self, fun d hd hne ↦ ?_, fun d ↦ ?_⟩
    · rw [hcola] at hd
      exact horden.1 d ((List.mem_cons.mp hd).resolve_left hne)
    · rw [invited_addInvite, Function.update_self, List.erase_of_not_mem hc, if_pos hlen.ge, hcola,
        List.tail_cons, List.mem_append, List.mem_singleton, List.mem_cons]
      refine or_congr_left ⟨fun hd ↦ ⟨.inr hd, ?_⟩, fun hd ↦ hd.1.resolve_left hd.2⟩
      rintro rfl
      exact hnodup.1 hd
  cabe u c hcabe d := by
    have hpend : ((s.invited u).erase c).length < maximo := by
      rcases hcabe with hlt | hmem
      · exact Nat.lt_of_le_of_lt List.erase_sublist.length_le hlt
      · have hlen := h.pocas u
        have hpos := List.length_pos_of_mem hmem
        rw [List.length_erase_of_mem hmem]
        omega
    rw [invited_addInvite, Function.update_self, if_neg (Nat.not_le.mpr hpend), List.mem_append,
      List.mem_singleton, (h.enlaces.nodup_right u).mem_erase_iff]
    tauto

/-- In every run from channels without invitations the two lists of an invitation agree, nobody has
more invitations than `MAXCHANNELSPERUSER`, which is positive, and the oldest one makes room. -/
theorem invitaciones_run (MAXCHANNELSPERUSER : Nat) (hmax : 0 < MAXCHANNELSPERUSER) (s : Red γ κ)
    (hinvites : ∀ c, (s.canal c).invites = []) (hinvited : ∀ u, s.invited u = [])
    (l : List (Invitacion γ κ)) :
    Simetricas MAXCHANNELSPERUSER l (final (Invitacion.aplica MAXCHANNELSPERUSER) s l) :=
  (guarda_final hmax hinvites hinvited l).simetricas hmax

end

/-! ## Two channels -/

/-- Two channels without invitations. -/
def dosCanales : Red Bool Unit where
  canal _ := Canal.nuevo
  lista := ⟨fun _ ↦ none, fun _ ↦ none, none⟩
  tabla := ⟨fun _ ↦ none, fun _ ↦ none, fun _ ↦ []⟩
  enUso := {true, false}
  nrofChannels := 2
  user _ := true
  channel _ := []
  joined _ := 0
  invited _ := []

/-- With room for one invitation, the second one takes the place of the first one. -/
theorem invitaciones_run_dos :
    Simetricas 1 [.addInvite () true, .addInvite () false]
      (final (Invitacion.aplica 1) dosCanales [.addInvite () true, .addInvite () false]) :=
  invitaciones_run 1 Nat.one_pos dosCanales (fun _ ↦ rfl) (fun _ ↦ rfl) _

end Ircd.Channel
