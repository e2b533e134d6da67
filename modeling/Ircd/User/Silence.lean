import Ircd.Channel.Bans

/-!
# Silence lists

`add_silence` and `del_silence` of `ircd/s_user.c`. The pass of `add_silence` over the list takes
out the masks that the new one covers and gives up at the first entry that the new mask is equal to,
that covers it, or at which the list is full; what it has taken out before is not put back. The main
theorem, `silencios_run`, says that the list of a local user has no mask that covers another one and
keeps its limits in every run, and that the additions that fail leave it as it was in exactly the
runs in which none gives up behind an entry that it has taken out.
-/

namespace Ircd.User

open CString Hash

/-! ## The lists -/

/-- `MAXSILES`. -/
def MAXSILES : Nat := 25

/-- `AVBANLEN`. -/
def AVBANLEN : Nat := 40

/-- `MAXSILELENGTH`. -/
def MAXSILELENGTH : Nat := AVBANLEN * MAXSILES

/-- An entry of a silence list, with `CHFL_SILENCE_IPMASK`. -/
structure Silencio where
  cp : CStr
  ipmask : Bool
deriving DecidableEq

/-- `del_silence`. -/
def delSilence (mask : CStr) (silence : List Silencio) : Int × List Silencio :=
  (if silence.any fun lp ↦ mmatch mask lp.cp then 0 else -1,
    silence.filter fun lp ↦ !mmatch mask lp.cp)

/-- The loop of `add_silence`: whether it returns -1, and the list that it leaves. -/
def recorreSilence (myUser : Bool) (mask : CStr) : List Silencio → Nat → Nat → Bool × List Silencio
  | [], _, _ => (false, [])
  | lp :: resto, cnt, len =>
      if strCasediff mask lp.cp = 0 then (true, lp :: resto)
      else if mmatch mask lp.cp then recorreSilence myUser mask resto cnt len
      else if myUser then
        let len := len + lp.cp.length
        let cnt := cnt + 1
        if MAXSILELENGTH < len ∨ MAXSILES ≤ cnt then (true, lp :: resto)
        else if mmatch lp.cp mask then (true, lp :: resto)
        else
          let r := recorreSilence myUser mask resto cnt len
          (r.1, lp :: r.2)
      else
        let r := recorreSilence myUser mask resto cnt len
        (r.1, lp :: r.2)

/-- `add_silence`. -/
def addSilence (myUser : Bool) (mask : CStr) (silence : List Silencio) : Int × List Silencio :=
  let r := recorreSilence myUser mask silence 0 mask.length
  if r.1 then (-1, r.2)
  else (0, ⟨mask, (Channel.trasUltimo '@' mask).any Channel.checkIfIpmask⟩ :: r.2)

/-- A call for a local user. -/
inductive OrdenSilence where
  | add (mask : CStr)
  | del (mask : CStr)

/-- The list after a call. -/
def OrdenSilence.aplica : OrdenSilence → List Silencio → List Silencio
  | .add mask, silence => (addSilence true mask silence).2
  | .del mask, silence => (delSilence mask silence).2

/-! ## What is to be true of them -/

/-- The length of all the masks. -/
def largo (ss : List Silencio) : Nat :=
  (ss.map (·.cp.length)).sum

/-- No mask covers another one, there are at most `MAXSILES`, and together they are not longer than
`MAXSILELENGTH`, unless there is a single one. -/
structure Minima (ss : List Silencio) : Prop where
  sinSolapes : ss.Pairwise fun s s' ↦ mmatch s.cp s'.cp = false ∧ mmatch s'.cp s.cp = false
  length_le : ss.length ≤ MAXSILES
  largo_le : largo ss ≤ MAXSILELENGTH ∨ ss.length ≤ 1

/-- The entries that a new mask leaves. -/
def quedan (mask : CStr) (ss : List Silencio) : List Silencio :=
  ss.filter fun s ↦ !mmatch mask s.cp

/-- `add_silence` gives up at an entry with these before it: the mask is equal to the entry, or the
list is full, or the entry covers the mask. -/
def Rechaza (mask : CStr) (antes : List Silencio) (s : Silencio) : Prop :=
  strCasediff mask s.cp = 0 ∨ mmatch mask s.cp = false ∧
    (MAXSILELENGTH < mask.length + largo (quedan mask antes) + s.cp.length ∨
      MAXSILES ≤ (quedan mask antes).length + 1 ∨ mmatch s.cp mask = true)

instance (mask : CStr) (antes : List Silencio) (s : Silencio) : Decidable (Rechaza mask antes s) :=
  inferInstanceAs (Decidable (_ ∨ _))

/-- There is no entry among these at which `add_silence` gives up. -/
def SinRechazo (mask : CStr) (ss : List Silencio) : Prop :=
  ∀ antes s despues, ss = antes ++ s :: despues → ¬Rechaza mask antes s

/-- A call that returns -1 leaves the list. -/
def Atomica (orden : OrdenSilence) (silence : List Silencio) : Prop :=
  ∀ mask, orden = .add mask → (addSilence true mask silence).1 = -1 →
    (addSilence true mask silence).2 = silence

/-- The mask covers none of the entries before the first at which `add_silence` gives up. -/
def NoTropieza (orden : OrdenSilence) (silence : List Silencio) : Prop :=
  ∀ mask, orden = .add mask → ∀ antes s despues, silence = antes ++ s :: despues →
    SinRechazo mask antes → Rechaza mask antes s → ∀ x ∈ antes, mmatch mask x.cp = false

/-! ## The pass over the list -/

variable {mask : CStr} {ss antes despues : List Silencio} {s : Silencio}

theorem largo_append (a b : List Silencio) : largo (a ++ b) = largo a + largo b := by
  rw [largo, largo, largo, List.map_append, List.sum_append]

theorem largo_singleton (s : Silencio) : largo [s] = s.cp.length := by
  simp [largo]

theorem quedan_append (mask : CStr) (a b : List Silencio) :
    quedan mask (a ++ b) = quedan mask a ++ quedan mask b :=
  List.filter_append a b

/-- The loop for a local user behind the entries `antes`. -/
def sigue (mask : CStr) (antes resto : List Silencio) : Bool × List Silencio :=
  recorreSilence true mask resto (quedan mask antes).length
    (mask.length + largo (quedan mask antes))

/-- One turn: the loop gives up, takes the entry out, or keeps it. -/
theorem sigue_cons (mask : CStr) (antes resto : List Silencio) (s : Silencio) :
    sigue mask antes (s :: resto) =
      if Rechaza mask antes s then (true, s :: resto)
      else ((sigue mask (antes ++ [s]) resto).1,
        quedan mask [s] ++ (sigue mask (antes ++ [s]) resto).2) := by
  rw [sigue, recorreSilence, sigue, quedan_append]
  by_cases hequal : strCasediff mask s.cp = 0
  · rw [if_pos hequal, if_pos (show Rechaza mask antes s from Or.inl hequal)]
  · rw [if_neg hequal]
    cases hcubre : mmatch mask s.cp with
    | true =>
        have hlibre : ¬Rechaza mask antes s := by
          rintro (h | ⟨h, -⟩)
          · exact hequal h
          · rw [hcubre] at h
            cases h
        have hquita : quedan mask [s] = [] := by simp [quedan, hcubre]
        rw [if_pos rfl, if_neg hlibre, hquita, List.append_nil, List.nil_append]
    | false =>
        have hdeja : quedan mask [s] = [s] := by simp [quedan, hcubre]
        rw [if_neg Bool.false_ne_true, if_pos rfl, hdeja, largo_append, largo_singleton,
          List.length_append, List.length_singleton, ← Nat.add_assoc]
        dsimp only
        by_cases hfull : MAXSILELENGTH < mask.length + largo (quedan mask antes) + s.cp.length ∨
            MAXSILES ≤ (quedan mask antes).length + 1
        · have hrechaza : Rechaza mask antes s := Or.inr ⟨hcubre, by tauto⟩
          rw [if_pos hfull, if_pos hrechaza]
        · rw [if_neg hfull]
          cases hcubierta : mmatch s.cp mask with
          | true =>
              have hrechaza : Rechaza mask antes s := Or.inr ⟨hcubre, Or.inr (Or.inr hcubierta)⟩
              rw [if_pos rfl, if_pos hrechaza]
          | false =>
              have hlibre : ¬Rechaza mask antes s := by
                rintro (h | ⟨-, h⟩)
                · exact hequal h
                · rw [hcubierta] at h
                  exact hfull (by simpa [or_assoc] using h)
              rw [if_neg Bool.false_ne_true, if_neg hlibre]
              rfl

theorem SinRechazo.nil (mask : CStr) : SinRechazo mask [] := by
  intro antes s despues h
  cases antes <;> cases h

/-- One more entry at which `add_silence` does not give up. -/
theorem SinRechazo.concat (h : SinRechazo mask antes) (hs : ¬Rechaza mask antes s) :
    SinRechazo mask (antes ++ [s]) := by
  intro as x bs heq
  rcases List.append_eq_append_iff.mp heq with ⟨c, rfl, hc⟩ | ⟨c, rfl, hc⟩
  · cases c with
    | nil =>
        obtain ⟨rfl, -⟩ := List.cons.inj hc
        rwa [List.append_nil]
    | cons y c =>
        obtain ⟨-, hnil⟩ := List.cons.inj hc
        cases c <;> cases hnil
  · cases c with
    | nil =>
        obtain ⟨rfl, -⟩ := List.cons.inj hc
        rwa [List.append_nil] at hs
    | cons y c =>
        obtain ⟨rfl, -⟩ := List.cons.inj hc
        exact h as x c rfl

/-- At the first entry at which it gives up, `add_silence` has taken out what it covers before. -/
theorem sigue_rechaza (pre despues : List Silencio) (hlibre : SinRechazo mask (pre ++ antes))
    (hrechaza : Rechaza mask (pre ++ antes) s) :
    sigue mask pre (antes ++ s :: despues) = (true, quedan mask antes ++ s :: despues) := by
  induction antes generalizing pre with
  | nil =>
      rw [List.append_nil] at hrechaza
      rw [List.nil_append, sigue_cons, if_pos hrechaza]
      rfl
  | cons x antes ih =>
      have hassoc : pre ++ x :: antes = pre ++ [x] ++ antes := by simp
      have hx : ¬Rechaza mask pre x := hlibre pre x antes rfl
      rw [hassoc] at hlibre hrechaza
      rw [List.cons_append, sigue_cons, if_neg hx, ih _ hlibre hrechaza, ← List.append_assoc,
        ← quedan_append, List.singleton_append]

/-- Where `add_silence` gives up there is a first entry at which it does. -/
theorem rechaza_of_sigue {pre : List Silencio} (hlibre : SinRechazo mask pre)
    (h : (sigue mask pre ss).1 = true) :
    ∃ antes s despues, ss = antes ++ s :: despues ∧ SinRechazo mask (pre ++ antes) ∧
      Rechaza mask (pre ++ antes) s := by
  induction ss generalizing pre with
  | nil => cases h
  | cons x ss ih =>
      rw [sigue_cons] at h
      by_cases hx : Rechaza mask pre x
      · refine ⟨[], x, ss, rfl, ?_, ?_⟩
        · rwa [List.append_nil]
        · rwa [List.append_nil]
      · rw [if_neg hx] at h
        obtain ⟨antes, s, despues, rfl, hantes, hs⟩ := ih (hlibre.concat hx) h
        rw [List.append_assoc, List.singleton_append] at hantes hs
        exact ⟨x :: antes, s, despues, rfl, hantes, hs⟩

/-- The new mask and those that stay keep the limits. -/
def Cabe (mask : CStr) (ss : List Silencio) : Prop :=
  quedan mask ss = [] ∨ mask.length + largo (quedan mask ss) ≤ MAXSILELENGTH ∧
    (quedan mask ss).length < MAXSILES

theorem quedan_singleton (mask : CStr) (s : Silencio) :
    quedan mask [s] = if mmatch mask s.cp = true then [] else [s] := by
  cases h : mmatch mask s.cp <;> simp [quedan, h]

/-- What is known of an entry that stays. -/
theorem Rechaza.not (hcubre : mmatch mask s.cp = false) (h : ¬Rechaza mask antes s) :
    mask.length + largo (quedan mask antes) + s.cp.length ≤ MAXSILELENGTH ∧
      (quedan mask antes).length + 1 < MAXSILES ∧ mmatch s.cp mask = false := by
  obtain ⟨-, hresto⟩ := not_or.mp h
  obtain ⟨hlargo, hresto⟩ := not_or.mp fun hfull ↦ hresto ⟨hcubre, hfull⟩
  obtain ⟨hcuenta, hcubierta⟩ := not_or.mp hresto
  exact ⟨not_lt.mp hlargo, not_le.mp hcuenta, Bool.not_eq_true _ ▸ hcubierta⟩

/-- A pass that comes to the end of the list leaves what the mask does not cover. -/
theorem sigue_libre (pre : List Silencio) (hcabe : Cabe mask pre)
    (h : (sigue mask pre ss).1 = false) :
    (sigue mask pre ss).2 = quedan mask ss ∧ Cabe mask (pre ++ ss) ∧
      ∀ s ∈ quedan mask ss, mmatch s.cp mask = false := by
  induction ss generalizing pre with
  | nil =>
      refine ⟨rfl, ?_, fun s hs ↦ by cases hs⟩
      rwa [List.append_nil]
  | cons x ss ih =>
      have hassoc : pre ++ x :: ss = pre ++ [x] ++ ss := by simp
      rw [sigue_cons] at h ⊢
      by_cases hx : Rechaza mask pre x
      · rw [if_pos hx] at h
        cases h
      · rw [if_neg hx] at h ⊢
        have hcabe' : Cabe mask (pre ++ [x]) := by
          rw [Cabe, quedan_append, quedan_singleton]
          cases hcubre : mmatch mask x.cp with
          | true =>
              rw [if_pos rfl, List.append_nil]
              exact hcabe
          | false =>
              obtain ⟨hlargo, hcuenta, -⟩ := Rechaza.not hcubre hx
              rw [if_neg Bool.false_ne_true, largo_append, largo_singleton, List.length_append,
                ← Nat.add_assoc]
              exact Or.inr ⟨hlargo, hcuenta⟩
        obtain ⟨hquedan, hfin, hno⟩ := ih _ hcabe' h
        dsimp only
        rw [hquedan, hassoc, ← quedan_append, List.singleton_append]
        refine ⟨rfl, hfin, fun s hs ↦ ?_⟩
        obtain ⟨hmem, hcubre⟩ := List.mem_filter.mp hs
        rw [Bool.not_eq_true'] at hcubre
        rcases List.mem_cons.mp hmem with rfl | hmem
        · exact (Rechaza.not hcubre hx).2.2
        · exact hno s (List.mem_filter.mpr ⟨hmem, by rw [hcubre]; rfl⟩)

/-! ## The calls -/

theorem addSilence_eq (mask : CStr) (ss : List Silencio) :
    addSilence true mask ss =
      if (sigue mask [] ss).1 then (-1, (sigue mask [] ss).2)
      else (0, ⟨mask, (Channel.trasUltimo '@' mask).any Channel.checkIfIpmask⟩ ::
        (sigue mask [] ss).2) :=
  rfl

theorem largo_mono {ts : List Silencio} (h : ts.Sublist ss) : largo ts ≤ largo ss := by
  induction h with
  | slnil => exact le_rfl
  | cons s _ ih => exact ih.trans (Nat.le_add_left _ _)
  | cons_cons s _ ih => exact Nat.add_le_add_left ih _

theorem Minima.sublist {ts : List Silencio} (h : Minima ss) (hts : ts.Sublist ss) : Minima ts where
  sinSolapes := h.sinSolapes.sublist hts
  length_le := hts.length_le.trans h.length_le
  largo_le := by
    rcases h.largo_le with hlargo | hlen
    · exact Or.inl ((largo_mono hts).trans hlargo)
    · exact Or.inr (hts.length_le.trans hlen)

/-- A call keeps the list minimal. -/
theorem Minima.aplica (h : Minima ss) (orden : OrdenSilence) : Minima (orden.aplica ss) := by
  cases orden with
  | del mask => exact h.sublist List.filter_sublist
  | add mask =>
      show Minima (addSilence true mask ss).2
      rw [addSilence_eq]
      cases hsigue : (sigue mask [] ss).1 with
      | true =>
          obtain ⟨antes, s, despues, rfl, hlibre, hrechaza⟩ :=
            rechaza_of_sigue (SinRechazo.nil mask) hsigue
          rw [if_pos rfl, sigue_rechaza [] despues hlibre hrechaza]
          exact h.sublist (List.Sublist.append_right List.filter_sublist _)
      | false =>
          obtain ⟨hquedan, hcabe, hno⟩ := sigue_libre [] (Or.inl rfl) hsigue
          rw [if_neg Bool.false_ne_true, hquedan]
          have hqueda : Minima (quedan mask ss) := h.sublist List.filter_sublist
          refine ⟨List.pairwise_cons.mpr ⟨fun s hs ↦ ?_, hqueda.sinSolapes⟩, ?_, ?_⟩
          · have hcubre := (List.mem_filter.mp hs).2
            rw [Bool.not_eq_true'] at hcubre
            exact ⟨hcubre, hno s hs⟩
          · rcases hcabe with hnil | ⟨-, hcuenta⟩
            · rw [List.nil_append] at hnil
              rw [hnil]
              show 1 ≤ MAXSILES
              decide
            · exact hcuenta
          · rcases hcabe with hnil | ⟨hlargo, -⟩
            · rw [List.nil_append] at hnil
              rw [hnil]
              exact Or.inr le_rfl
            · exact Or.inl hlargo

/-- A call that fails leaves the list if and only if it does not give up behind an entry that it has
taken out. -/
theorem atomica_iff (orden : OrdenSilence) (ss : List Silencio) :
    Atomica orden ss ↔ NoTropieza orden ss := by
  constructor
  · rintro hatomica mask rfl antes s despues rfl hlibre hrechaza x hx
    have hsigue := sigue_rechaza [] despues hlibre hrechaza
    have hret := hatomica mask rfl
    rw [addSilence_eq, hsigue, if_pos rfl] at hret
    have hquedan : quedan mask antes = antes := List.append_cancel_right (hret rfl)
    have hcubre := List.filter_eq_self.mp hquedan x hx
    rwa [Bool.not_eq_true'] at hcubre
  · rintro hno mask rfl hret
    rw [addSilence_eq] at hret ⊢
    cases hsigue : (sigue mask [] ss).1 with
    | false =>
        rw [hsigue] at hret
        cases hret
    | true =>
        obtain ⟨antes, s, despues, rfl, hlibre, hrechaza⟩ :=
          rechaza_of_sigue (SinRechazo.nil mask) hsigue
        have hquedan : quedan mask antes = antes := by
          rw [quedan, List.filter_eq_self]
          intro x hx
          rw [hno mask rfl antes s despues rfl hlibre hrechaza x hx]
          rfl
        rw [if_pos rfl, sigue_rechaza [] despues hlibre hrechaza, hquedan]

/-- In every run of calls from an empty list the list stays minimal, and all the calls that fail
leave the list as it was if and only if none gives up behind an entry that it has taken out. -/
theorem silencios_run (ordenes : List OrdenSilence) :
    Minima (Run.final OrdenSilence.aplica [] ordenes) ∧
      (Run.EveryStep OrdenSilence.aplica Atomica [] ordenes ↔
        Run.EveryStep OrdenSilence.aplica NoTropieza [] ordenes) := by
  constructor
  · exact Run.invariant_final (P := Minima) (G := fun _ _ ↦ True) (fun orden _ h _ ↦ h.aplica orden)
      ⟨List.Pairwise.nil, Nat.zero_le _, Or.inr (Nat.zero_le _)⟩
      (Run.everyStep_of_forall fun _ _ ↦ trivial)
  · exact Run.everyStep_iff (P := fun _ ↦ True) (fun _ _ _ _ ↦ trivial)
      (fun orden ss _ ↦ atomica_iff orden ss) trivial

/-- The third mask covers the second, and is equal to the first but for the case of a character. -/
def tresSilencios : List OrdenSilence :=
  [.add "*!*@|*".toList, .add "a!*@\\*".toList, .add "*!*@\\*".toList]

/-- The third mask fails, and the second is gone. -/
theorem not_atomica :
    ¬ ∀ ordenes, Run.EveryStep OrdenSilence.aplica Atomica [] ordenes := by
  intro h
  obtain ⟨-, -, hultima, -⟩ := h tresSilencios
  have hret := hultima "*!*@\\*".toList rfl
  revert hret
  decide +kernel

end Ircd.User
