import Ircd.Mask.Subsume
import Ircd.User.Silence

/-!
# Silence lists at the exit of a client

`exit_one_client` of `ircd/s_misc.c` empties the silence list by calls of `del_silence` with the
text of the first entry, and `del_silence` frees this text before it compares it with the rest of
the list. A comparison with a text that is freed may have any answer here. `mmatch` is reflexive
(`mmatch_refl`), so that each call takes out the first entry, and the loop ends whatever these
answers are. The main theorem, `vacia_limpia_iff`, says that no comparison reads a text that is
freed in exactly the lists with at most one entry.
-/

namespace Ircd

open CString

namespace Match

/-- Every mask covers itself. -/
theorem mmatch_refl {m : CStr} (hm : nul ∉ m) : mmatch m m = true := by
  refine (mmatch_iff_covers hm hm).mpr ?_
  have hself := Wildcard.Covers.refl toLower (tokens m)
  cases hcola : colaEstrella m with
  | false =>
      rw [extra, hcola, if_neg Bool.false_ne_true, List.append_nil]
      exact hself
  | true =>
      rw [extra, hcola, if_pos rfl]
      exact hself.append_star

/-- The comparison of a mask with itself comes to its end without a read outside of it. -/
theorem checked_mmatch_refl {m : CStr} (hm : nul ∉ m) :
    ∃ fuel, Checked.mmatch fuel m m = some true := by
  by_cases hnil : m = []
  · subst hnil
    exact ⟨1, rfl⟩
  · obtain ⟨b, hb, hiff⟩ := checked_mmatch_spec hnil hm hm (Nat.lt_succ_self _)
    have htrue : b = true := hiff.mpr ((mmatch_iff_covers hm hm).mp (mmatch_refl hm))
    exact ⟨_, by rw [hb, htrue]⟩

end Match

namespace User

/-! ## Texts at addresses -/

/-- The texts of the entries at their addresses, none where one is freed, and how many comparisons
read a text that is freed. -/
structure Textos where
  texto : Nat → Option CStr
  perdidas : Nat

/-- `mmatch` on two texts; where one is freed the answer is what `basura` gives. -/
def Textos.mmatch (basura : Nat → Bool) (mask cp : Nat) (mem : Textos) : Bool × Textos :=
  match mem.texto mask, mem.texto cp with
  | some old, some new => (Ircd.mmatch old new, mem)
  | _, _ => (basura mem.perdidas, { mem with perdidas := mem.perdidas + 1 })

/-- `RunFree`. -/
def Textos.RunFree (cp : Nat) (mem : Textos) : Textos :=
  { mem with texto := Function.update mem.texto cp none }

/-- `del_silence` on a list of the addresses of its texts. -/
def delSilenceEn (basura : Nat → Bool) (mask : Nat) : List Nat → Textos → Int × List Nat × Textos
  | [], mem => (-1, [], mem)
  | lp :: resto, mem =>
      let (quita, mem) := mem.mmatch basura mask lp
      if quita then
        let (_, lista, mem) := delSilenceEn basura mask resto (mem.RunFree lp)
        (0, lista, mem)
      else
        let (ret, lista, mem) := delSilenceEn basura mask resto mem
        (ret, lp :: lista, mem)

/-- `while ((lp = bcptr->user->silence)) del_silence(bcptr, lp->value.cp);` in `exit_one_client`;
`none` when the rounds do not suffice. -/
def vaciaSilencios (basura : Nat → Bool) : Nat → List Nat → Textos → Option Textos
  | _, [], mem => some mem
  | 0, _ :: _, _ => none
  | rondas + 1, lp :: resto, mem =>
      let (_, lista, mem) := delSilenceEn basura lp (lp :: resto) mem
      vaciaSilencios basura rondas lista mem

/-- Every entry has a text of its own. -/
structure Vivos (silence : List Nat) (mem : Textos) : Prop where
  nodup : silence.Nodup
  vivo : ∀ lp ∈ silence, ∃ cp : CStr, mem.texto lp = some cp ∧ nul ∉ cp

/-- `mmatch` is reflexive, each call takes out the first entry at least, and the loop ends without a
comparison that reads a text that is freed. -/
structure Limpia (basura : Nat → Bool) (silence : List Nat) (mem : Textos) : Prop where
  refleja : ∀ m : CStr, nul ∉ m →
    Ircd.mmatch m m = true ∧ ∃ fuel, Match.Checked.mmatch fuel m m = some true
  quita : ∀ lp resto mem', Vivos (lp :: resto) mem' →
    (delSilenceEn basura lp (lp :: resto) mem').2.1.Sublist resto
  termina : ∃ rondas fin, vaciaSilencios basura rondas silence mem = some fin ∧
    fin.perdidas = mem.perdidas

/-! ## What a call does -/

variable {basura : Nat → Bool} {mask lp : Nat} {silence resto : List Nat} {mem : Textos}

theorem Textos.mmatch_vivo (basura : Nat → Bool) {old new : CStr}
    (hmask : mem.texto mask = some old) (hlp : mem.texto lp = some new) :
    mem.mmatch basura mask lp = (Ircd.mmatch old new, mem) := by
  rw [Textos.mmatch, hmask, hlp]

theorem Textos.mmatch_muerto (basura : Nat → Bool) (lp : Nat) (hmask : mem.texto mask = none) :
    mem.mmatch basura mask lp =
      (basura mem.perdidas, { mem with perdidas := mem.perdidas + 1 }) := by
  rw [Textos.mmatch, hmask]

/-- A comparison leaves the texts. -/
theorem Textos.mmatch_texto (basura : Nat → Bool) (mask lp : Nat) (mem : Textos) :
    (mem.mmatch basura mask lp).2.texto = mem.texto ∧
      mem.perdidas ≤ (mem.mmatch basura mask lp).2.perdidas := by
  rw [Textos.mmatch]
  split
  · exact ⟨rfl, le_rfl⟩
  · exact ⟨rfl, Nat.le_succ _⟩

/-- What a call does in every case: it takes entries out, and it frees none of the others. -/
structure Pasada (silence lista : List Nat) (mem mem' : Textos) : Prop where
  sublist : lista.Sublist silence
  perdidas_le : mem.perdidas ≤ mem'.perdidas
  texto : ∀ a, a ∉ silence ∨ a ∈ lista → mem'.texto a = mem.texto a

theorem delSilenceEn_quita {mem' : Textos} (h : mem.mmatch basura mask lp = (true, mem')) :
    delSilenceEn basura mask (lp :: resto) mem =
      (0, (delSilenceEn basura mask resto (mem'.RunFree lp)).2) := by
  rw [delSilenceEn, h]
  rfl

theorem delSilenceEn_deja {mem' : Textos} (h : mem.mmatch basura mask lp = (false, mem')) :
    delSilenceEn basura mask (lp :: resto) mem =
      ((delSilenceEn basura mask resto mem').1, lp :: (delSilenceEn basura mask resto mem').2.1,
        (delSilenceEn basura mask resto mem').2.2) := by
  rw [delSilenceEn, h]
  rfl

theorem delSilenceEn_pasada (basura : Nat → Bool) (mask : Nat) (hnodup : silence.Nodup)
    (mem : Textos) :
    Pasada silence (delSilenceEn basura mask silence mem).2.1 mem
      (delSilenceEn basura mask silence mem).2.2 := by
  induction silence generalizing mem with
  | nil => exact ⟨List.Sublist.refl _, le_rfl, fun _ _ ↦ rfl⟩
  | cons lp resto ih =>
      obtain ⟨hlp, hresto⟩ := List.nodup_cons.mp hnodup
      obtain ⟨htexto, hle⟩ := mem.mmatch_texto basura mask lp
      obtain ⟨mem', hmem'⟩ : ∃ mem', (mem.mmatch basura mask lp).2 = mem' := ⟨_, rfl⟩
      rw [hmem'] at htexto hle
      cases hquita : (mem.mmatch basura mask lp).1 with
      | true =>
          rw [delSilenceEn_quita (Prod.ext hquita hmem')]
          obtain ⟨hsub, hperdidas, hfuera⟩ := ih hresto (mem'.RunFree lp)
          refine ⟨hsub.cons lp, hle.trans hperdidas, fun a ha ↦ ?_⟩
          have hne : a ≠ lp := by
            intro heq
            subst heq
            rcases ha with ha | ha
            · exact ha List.mem_cons_self
            · exact hlp (hsub.subset ha)
          rw [hfuera a (ha.imp_left fun h hmem ↦ h (List.mem_cons_of_mem lp hmem)), ← htexto]
          exact Function.update_of_ne hne none mem'.texto
      | false =>
          rw [delSilenceEn_deja (Prod.ext hquita hmem')]
          obtain ⟨hsub, hperdidas, hfuera⟩ := ih hresto mem'
          refine ⟨hsub.cons_cons lp, hle.trans hperdidas, fun a ha ↦ ?_⟩
          rw [← htexto]
          refine hfuera a ?_
          rcases ha with ha | ha
          · exact Or.inl fun hmem ↦ ha (List.mem_cons_of_mem lp hmem)
          · rcases List.mem_cons.mp ha with rfl | ha
            · exact Or.inl hlp
            · exact Or.inr ha

/-- The entries that a call leaves keep their texts. -/
theorem Vivos.pasada {lista : List Nat} {mem' : Textos} (h : Vivos silence mem)
    (hpasada : Pasada silence lista mem mem') : Vivos lista mem' where
  nodup := h.nodup.sublist hpasada.sublist
  vivo lp hlp := by
    rw [hpasada.texto lp (Or.inr hlp)]
    exact h.vivo lp (hpasada.sublist.subset hlp)

/-- With a mask that is freed every comparison reads what is freed. -/
theorem delSilenceEn_muerto (hmask : mem.texto mask = none) :
    (delSilenceEn basura mask silence mem).2.2.perdidas = mem.perdidas + silence.length := by
  induction silence generalizing mem with
  | nil => rfl
  | cons lp resto ih =>
      have hcompara := Textos.mmatch_muerto basura lp hmask
      cases hquita : basura mem.perdidas with
      | true =>
          rw [hquita] at hcompara
          rw [delSilenceEn_quita hcompara, ih, List.length_cons]
          · show mem.perdidas + 1 + resto.length = _
            omega
          · show Function.update mem.texto lp none mask = none
            rw [Function.update_apply, hmask, ite_self]
      | false =>
          rw [hquita] at hcompara
          rw [delSilenceEn_deja hcompara, ih (by exact hmask), List.length_cons]
          show mem.perdidas + 1 + resto.length = _
          omega

/-- The first call of the loop frees the first entry, and reads its text for every other one. -/
theorem delSilenceEn_primera (h : Vivos (lp :: resto) mem) :
    delSilenceEn basura lp (lp :: resto) mem =
      (0, (delSilenceEn basura lp resto (mem.RunFree lp)).2) := by
  obtain ⟨cp, hcp, hnul⟩ := h.vivo lp List.mem_cons_self
  refine delSilenceEn_quita ?_
  rw [Textos.mmatch_vivo basura hcp hcp, Match.mmatch_refl hnul]

theorem delSilenceEn_primera_perdidas (basura : Nat → Bool) (h : Vivos (lp :: resto) mem) :
    (delSilenceEn basura lp (lp :: resto) mem).2.2.perdidas = mem.perdidas + resto.length := by
  rw [delSilenceEn_primera h, delSilenceEn_muerto]
  · rfl
  · exact Function.update_self lp none mem.texto

theorem delSilenceEn_primera_sublist (basura : Nat → Bool) (h : Vivos (lp :: resto) mem) :
    (delSilenceEn basura lp (lp :: resto) mem).2.1.Sublist resto := by
  rw [delSilenceEn_primera h]
  exact (delSilenceEn_pasada basura lp (List.nodup_cons.mp h.nodup).2 _).sublist

/-! ## The loop -/

/-- The loop ends after as many calls as there are entries at most, whatever the comparisons with
texts that are freed answer. -/
theorem vaciaSilencios_termina (basura : Nat → Bool) {rondas : Nat} (h : Vivos silence mem)
    (hrondas : silence.length ≤ rondas) :
    ∃ fin, vaciaSilencios basura rondas silence mem = some fin ∧ mem.perdidas ≤ fin.perdidas := by
  induction rondas generalizing silence mem with
  | zero =>
      obtain rfl := List.length_eq_zero_iff.mp (Nat.le_zero.mp hrondas)
      exact ⟨mem, rfl, le_rfl⟩
  | succ rondas ih =>
      cases silence with
      | nil => exact ⟨mem, rfl, le_rfl⟩
      | cons lp resto =>
          have hpasada := delSilenceEn_pasada basura lp h.nodup mem
          have hlen := (delSilenceEn_primera_sublist basura h).length_le
          obtain ⟨fin, hfin, hle⟩ :=
            ih (h.pasada hpasada) (hlen.trans (Nat.le_of_succ_le_succ hrondas))
          exact ⟨fin, hfin, hpasada.perdidas_le.trans hle⟩

theorem le_of_vaciaSilencios {rondas : Nat} {fin : Textos} (h : Vivos silence mem)
    (hfin : vaciaSilencios basura rondas silence mem = some fin) :
    mem.perdidas ≤ fin.perdidas := by
  induction rondas generalizing silence mem with
  | zero =>
      cases silence with
      | nil =>
          obtain rfl := Option.some.inj hfin
          exact le_rfl
      | cons lp resto => cases hfin
  | succ rondas ih =>
      cases silence with
      | nil =>
          obtain rfl := Option.some.inj hfin
          exact le_rfl
      | cons lp resto =>
          have hpasada := delSilenceEn_pasada basura lp h.nodup mem
          exact hpasada.perdidas_le.trans (ih (h.pasada hpasada) hfin)

/-- A loop that ends has read the text of the first entry for each of the others. -/
theorem perdidas_of_vaciaSilencios {rondas : Nat} {fin : Textos} (h : Vivos silence mem)
    (hfin : vaciaSilencios basura rondas silence mem = some fin) :
    mem.perdidas + (silence.length - 1) ≤ fin.perdidas := by
  cases silence with
  | nil => exact le_of_vaciaSilencios h hfin
  | cons lp resto =>
      cases rondas with
      | zero => cases hfin
      | succ rondas =>
          have hvivos := h.pasada (delSilenceEn_pasada basura lp h.nodup mem)
          have hle := le_of_vaciaSilencios hvivos hfin
          rwa [delSilenceEn_primera_perdidas basura h] at hle

/-- The loop of `exit_one_client` does what it is to do if and only if the list has at most one
entry. -/
theorem vacia_limpia_iff (basura : Nat → Bool) (silence : List Nat) (mem : Textos)
    (h : Vivos silence mem) : Limpia basura silence mem ↔ silence.length ≤ 1 := by
  constructor
  · intro hlimpia
    obtain ⟨rondas, fin, hfin, hperdidas⟩ := hlimpia.termina
    have hle := perdidas_of_vaciaSilencios h hfin
    omega
  · intro hlen
    refine ⟨fun m hm ↦ ⟨Match.mmatch_refl hm, Match.checked_mmatch_refl hm⟩,
      fun lp resto mem' h' ↦ delSilenceEn_primera_sublist basura h', ?_⟩
    cases silence with
    | nil => exact ⟨0, mem, rfl, rfl⟩
    | cons lp resto =>
        obtain rfl := List.length_eq_zero_iff.mp (Nat.le_zero.mp (Nat.le_of_succ_le_succ hlen))
        refine ⟨1, _, ?_, delSilenceEn_primera_perdidas basura h⟩
        show vaciaSilencios basura 0 (delSilenceEn basura lp [lp] mem).2.1 _ = _
        rw [List.sublist_nil.mp (delSilenceEn_primera_sublist basura h)]
        rfl

/-- The texts of some entries at the addresses from 0 on. -/
def textosDe (masks : List CStr) : Textos :=
  ⟨fun a ↦ masks[a]?, 0⟩

theorem vacia_limpia_una :
    Vivos [0] (textosDe ["*!*@\\*".toList]) ∧
      (Limpia (fun _ ↦ false) [0] (textosDe ["*!*@\\*".toList]) ↔ [0].length ≤ 1) := by
  have hvivos : Vivos [0] (textosDe ["*!*@\\*".toList]) :=
    ⟨by decide, fun lp hlp ↦ by
      obtain rfl := List.mem_singleton.mp hlp
      exact ⟨_, rfl, by decide⟩⟩
  exact ⟨hvivos, vacia_limpia_iff _ _ _ hvivos⟩

/-- With two entries the text of the first one is compared with the second one when it is freed. -/
theorem not_vacia_limpia :
    Vivos [0, 1] (textosDe ["*!*@a".toList, "*!*@b".toList]) ∧
      ¬Limpia (fun _ ↦ false) [0, 1] (textosDe ["*!*@a".toList, "*!*@b".toList]) := by
  have hvivos : Vivos [0, 1] (textosDe ["*!*@a".toList, "*!*@b".toList]) :=
    ⟨by decide, fun lp hlp ↦ by
      rcases List.mem_pair.mp hlp with rfl | rfl
      · exact ⟨_, rfl, by decide⟩
      · exact ⟨_, rfl, by decide⟩⟩
  refine ⟨hvivos, fun h ↦ ?_⟩
  obtain ⟨rondas, fin, hfin, hperdidas⟩ := h.termina
  have hle := perdidas_of_vaciaSilencios hvivos hfin
  rw [hperdidas] at hle
  exact absurd hle (by decide)

end User

end Ircd
