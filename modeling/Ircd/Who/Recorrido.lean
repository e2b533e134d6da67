import Ircd.Who.Lista

/-!
# The loops of WHO

The loops of `m_who` are one traversal, `recorre`, of different lists: of the users that are left of
them it marks those that were not, and it replies with those that are wanted while the counter
allows. `usuarios_recorre` says whom it replies with.
-/

namespace Ircd.Who

open CString Firsts

variable {υ κ : Type} [DecidableEq υ]

/-- The users of the replies. -/
def Estado.usuarios (st : Estado υ κ) : List υ :=
  st.salida.map (·.acptr)

/-- The users that were processed. -/
def visto (whoMarker : UInt32) (st : Estado υ κ) : υ → Bool :=
  fun u ↦ st.marker u = whoMarker

section

variable (s : Red υ κ) (sptr : υ) (q : Peticion) (whoMarker : UInt32)

/-- A traversal. `cuenta` says whether its replies are counted, and `quiere` whether it replies with
a user. -/
def recorre (cuenta : Bool) (quiere : υ → Bool) (repchan : Option κ) :
    List υ → Estado υ κ → Estado υ κ
  | [], st => st
  | acptr :: us, st =>
      match process whoMarker acptr st with
      | none => recorre cuenta quiere repchan us st
      | some st =>
          if !quiere acptr then recorre cuenta quiere repchan us st
          else if !cuenta then recorre cuenta quiere repchan us (doWho acptr repchan st)
          else
            match showMore s sptr st with
            | (false, st) => st
            | (true, st) => recorre cuenta quiere repchan us (doWho acptr repchan st)

/-! ## The loops are traversals -/

/-- What a link asks of a member before it is processed. -/
def muestra (isthere : Bool) (lp : Miembro υ) : Bool :=
  pasaOper s q lp.cptr && (lp.cptr = sptr || !lp.zombie) && (isthere || seeUser s sptr q lp.cptr)

/-- The tests of the loop together are `muestra`. -/
theorem listaCanal_cons (chptr : κ) (isthere : Bool) (lp : Miembro υ) (ls : List (Miembro υ))
    (st : Estado υ κ) : listaCanal s sptr q whoMarker chptr isthere (lp :: ls) st =
      if muestra s sptr q isthere lp then
        match process whoMarker lp.cptr st with
        | none => listaCanal s sptr q whoMarker chptr isthere ls st
        | some st =>
            if isthere then
              listaCanal s sptr q whoMarker chptr isthere ls (doWho lp.cptr (some chptr) st)
            else
              match showMore s sptr st with
              | (false, st) => st
              | (true, st) =>
                  listaCanal s sptr q whoMarker chptr isthere ls (doWho lp.cptr (some chptr) st)
      else listaCanal s sptr q whoMarker chptr isthere ls st := by
  have hzombie : (decide (lp.cptr = sptr) || !lp.zombie) =
      !(decide (lp.cptr ≠ sptr) && lp.zombie) := by
    rw [Bool.not_and, decide_not, Bool.not_not]
  rw [listaCanal, muestra, hzombie]
  cases pasaOper s q lp.cptr with
  | false => rfl
  | true =>
      cases decide (lp.cptr ≠ sptr) && lp.zombie with
      | true => rfl
      | false => cases isthere || seeUser s sptr q lp.cptr <;> rfl

/-- The loop over the members of a channel of the mask. -/
theorem listaCanal_eq (chptr : κ) (isthere : Bool) (ls : List (Miembro υ)) (st : Estado υ κ) :
    listaCanal s sptr q whoMarker chptr isthere ls st =
      recorre s sptr whoMarker (!isthere) (fun _ ↦ true) (some chptr)
        ((ls.filter (muestra s sptr q isthere)).map (·.cptr)) st := by
  induction ls generalizing st with
  | nil => rfl
  | cons lp ls ih =>
      rw [listaCanal_cons, List.filter_cons]
      split
      · rw [List.map_cons, recorre]
        cases process whoMarker lp.cptr st with
        | none => exact ih st
        | some st =>
            cases isthere with
            | true => exact ih _
            | false =>
                show (match showMore s sptr st with
                  | (false, st) => st
                  | (true, st) => _) = (match showMore s sptr st with
                  | (false, st) => st
                  | (true, st) => _)
                rcases showMore s sptr st with ⟨_ | _, st⟩
                · rfl
                · exact ih _
      · exact ih st

/-- The loop over the clients or the members that match. -/
theorem busca_eq (ve : υ → Bool) (p : Option Patron) (repchan : Option κ) (us : List υ)
    (st : Estado υ κ) :
    busca s sptr q whoMarker ve p repchan us st =
      recorre s sptr whoMarker true
        (fun u ↦ pasaOper s q u && ve u && p.all (casa s sptr · u)) repchan
        (us.filter fun u ↦ (s.cliente u).isUser) st := by
  induction us generalizing st with
  | nil => rfl
  | cons u us ih =>
      unfold busca
      cases huser : (s.cliente u).isUser with
      | false =>
          rw [List.filter_cons, huser]
          exact ih st
      | true =>
          rw [List.filter_cons, huser, if_pos rfl, recorre]
          cases process whoMarker u st with
          | none => exact ih st
          | some st =>
              cases hoper : pasaOper s q u with
              | false => exact ih st
              | true =>
                  cases hve : ve u with
                  | false => simpa using ih st
                  | true =>
                      cases hmask : p.all (casa s sptr · u) with
                      | false => simpa using ih st
                      | true =>
                          show (match showMore s sptr st with
                            | (false, st) => st
                            | (true, st) => _) = (match showMore s sptr st with
                            | (false, st) => st
                            | (true, st) => _)
                          rcases showMore s sptr st with ⟨_ | _, st⟩
                          · rfl
                          · exact ih _

/-! ## What a traversal does -/

/-- The mark that `Process` leaves. -/
def Estado.marca (st : Estado υ κ) (u : υ) : Estado υ κ :=
  { st with marker := Function.update st.marker u whoMarker }

/-- A mark is seen. -/
theorem visto_marca (st : Estado υ κ) (u : υ) :
    visto whoMarker (st.marca whoMarker u) = mark (visto whoMarker st) u := by
  funext y
  by_cases h : y = u
  · subst h
    simp [visto, Estado.marca, mark]
  · simp [visto, Estado.marca, mark, h]

variable {s sptr whoMarker}

/-- A user who has been processed is passed over. -/
theorem process_of_visto {u : υ} {st : Estado υ κ} (h : visto whoMarker st u = true) :
    process whoMarker u st = none :=
  if_pos (of_decide_eq_true h)

/-- Another user gets the mark. -/
theorem process_of_not_visto {u : υ} {st : Estado υ κ} (h : visto whoMarker st u = false) :
    process whoMarker u st = some (st.marca whoMarker u) :=
  if_neg (of_decide_eq_false h)

omit [DecidableEq υ] in
/-- `do_who` shows the user. -/
theorem usuarios_doWho (u : υ) (repchan : Option κ) (st : Estado υ κ) :
    (doWho u repchan st).usuarios = st.usuarios ++ [u] :=
  List.map_append

/-- `counter--`. -/
def Estado.gasta (st : Estado υ κ) : Estado υ κ :=
  { st with counter := st.counter - 1 }

section

variable {cuenta : Bool} {quiere : υ → Bool} {repchan : Option κ} {u : υ} {us : List υ}
  {st : Estado υ κ}

/-! ## One step -/

/-- A user who has the mark is passed over. -/
theorem recorre_visto (hu : visto whoMarker st u = true) :
    recorre s sptr whoMarker cuenta quiere repchan (u :: us) st =
      recorre s sptr whoMarker cuenta quiere repchan us st := by
  rw [recorre, process_of_visto hu]

/-- A user who is not asked for gets the mark. -/
theorem recorre_no (hu : visto whoMarker st u = false) (hquiere : quiere u = false) :
    recorre s sptr whoMarker cuenta quiere repchan (u :: us) st =
      recorre s sptr whoMarker cuenta quiere repchan us (st.marca whoMarker u) := by
  rw [recorre, process_of_not_visto hu]
  simp only [hquiere, Bool.not_false, if_true]

/-- A reply that is not counted. -/
theorem recorre_libre (hlibre : cuenta = false ∨ s.hasPriv sptr .unlimitQuery = true)
    (hu : visto whoMarker st u = false) (hquiere : quiere u = true) :
    recorre s sptr whoMarker cuenta quiere repchan (u :: us) st =
      recorre s sptr whoMarker cuenta quiere repchan us
        (doWho u repchan (st.marca whoMarker u)) := by
  rw [recorre, process_of_not_visto hu]
  cases cuenta with
  | false => simp only [hquiere, Bool.not_true, Bool.not_false, Bool.false_eq_true, if_false, if_true]
  | true =>
      have hpriv := hlibre.resolve_left (by decide)
      simp only [hquiere, Bool.not_true, Bool.false_eq_true, if_false, showMore, hpriv, if_true]

/-- A reply that is counted. -/
theorem recorre_cuenta (hpriv : s.hasPriv sptr .unlimitQuery = false)
    (hu : visto whoMarker st u = false) (hquiere : quiere u = true) :
    recorre s sptr whoMarker true quiere repchan (u :: us) st =
      if 0 ≤ st.counter then
        recorre s sptr whoMarker true quiere repchan us
          (doWho u repchan (st.marca whoMarker u).gasta)
      else (st.marca whoMarker u).gasta := by
  rw [recorre, process_of_not_visto hu]
  simp only [hquiere, Bool.not_true, Bool.false_eq_true, if_false, showMore, hpriv]
  by_cases h : 0 ≤ st.counter
  · have hcounter : decide (0 ≤ (st.marca whoMarker u).counter) = true := decide_eq_true h
    rw [hcounter, if_pos h]
    rfl
  · have hcounter : decide (0 ≤ (st.marca whoMarker u).counter) = false := decide_eq_false h
    rw [hcounter, if_neg h]
    rfl

end

/-! ## A whole traversal -/

/-- The users that a traversal wants, in its order. -/
def pedidos (seen quiere : υ → Bool) (us : List υ) : List υ :=
  (fresh seen us).filter quiere

section

variable {seen quiere : υ → Bool} {u : υ} {us : List υ}

/-- A user who has been seen is not asked for again. -/
theorem pedidos_visto (hu : seen u = true) :
    pedidos seen quiere (u :: us) = pedidos seen quiere us := by
  rw [pedidos, fresh_of_seen hu, pedidos]

/-- A user who is not asked for has been seen. -/
theorem pedidos_no (hu : seen u = false) (hquiere : quiere u = false) :
    pedidos seen quiere (u :: us) = pedidos (mark seen u) quiere us := by
  rw [pedidos, fresh_of_not_seen hu, List.filter_cons_of_neg (by simp [hquiere]), pedidos]

/-- A user who is asked for is shown. -/
theorem pedidos_si (hu : seen u = false) (hquiere : quiere u = true) :
    pedidos seen quiere (u :: us) = u :: pedidos (mark seen u) quiere us := by
  rw [pedidos, fresh_of_not_seen hu, List.filter_cons_of_pos hquiere, pedidos]

end

variable (whoMarker)

/-- A traversal replies with the wanted users, or with the first of them. -/
theorem usuarios_recorre (hpriv : s.hasPriv sptr .unlimitQuery = false) (cuenta : Bool)
    (quiere : υ → Bool) (repchan : Option κ) (us : List υ) (st : Estado υ κ) :
    (recorre s sptr whoMarker cuenta quiere repchan us st).usuarios =
      st.usuarios ++
        if cuenta then (pedidos (visto whoMarker st) quiere us).take (st.counter + 1).toNat
        else pedidos (visto whoMarker st) quiere us := by
  induction us generalizing st with
  | nil => cases cuenta <;> simp [recorre, pedidos, fresh]
  | cons u us ih =>
      cases hu : visto whoMarker st u with
      | true =>
          rw [recorre_visto hu, pedidos_visto hu]
          exact ih st
      | false =>
          cases hquiere : quiere u with
          | false =>
              rw [recorre_no hu hquiere, pedidos_no hu hquiere, ← visto_marca]
              exact ih _
          | true =>
              rw [pedidos_si hu hquiere, ← visto_marca]
              cases cuenta with
              | false =>
                  rw [recorre_libre (.inl rfl) hu hquiere]
                  refine (ih _).trans ?_
                  rw [usuarios_doWho, List.append_assoc]
                  rfl
              | true =>
                  rw [recorre_cuenta hpriv hu hquiere]
                  split
                  · have htake : (st.counter + 1).toNat = (st.counter - 1 + 1).toNat + 1 := by omega
                    rw [if_pos rfl, htake, List.take_succ_cons]
                    refine (ih _).trans ?_
                    rw [usuarios_doWho, List.append_assoc]
                    rfl
                  · have htake : (st.counter + 1).toNat = 0 := by omega
                    rw [if_pos rfl, htake, List.take_zero, List.append_nil]
                    rfl

/-- The counter and the marks behind a traversal that was not cut off, and the counter of one that
was. -/
theorem recorre_estado (hpriv : s.hasPriv sptr .unlimitQuery = false) (cuenta : Bool)
    (quiere : υ → Bool) (repchan : Option κ) (us : List υ) (st : Estado υ κ) (k : Int)
    (hk : k = if cuenta then
      ((pedidos (visto whoMarker st) quiere us).length : Int) else 0) :
    if cuenta = true → k ≤ st.counter + 1 then
      (recorre s sptr whoMarker cuenta quiere repchan us st).counter = st.counter - k ∧
        visto whoMarker (recorre s sptr whoMarker cuenta quiere repchan us st) =
          after (visto whoMarker st) us
    else (recorre s sptr whoMarker cuenta quiere repchan us st).counter < 0 := by
  induction us generalizing st k with
  | nil =>
      have hcero : k = 0 := by cases cuenta <;> simpa [pedidos, fresh] using hk
      subst hcero
      split
      · exact ⟨(Int.sub_zero _).symm, rfl⟩
      · next h =>
          obtain ⟨-, h⟩ := Classical.not_imp.mp h
          show st.counter < 0
          omega
  | cons u us ih =>
      rw [after_cons]
      cases hu : visto whoMarker st u with
      | true =>
          rw [pedidos_visto hu] at hk
          rw [recorre_visto hu, mark_of_seen hu]
          exact ih st k hk
      | false =>
          cases hquiere : quiere u with
          | false =>
              rw [pedidos_no hu hquiere, ← visto_marca] at hk
              rw [recorre_no hu hquiere, ← visto_marca]
              exact ih _ k hk
          | true =>
              rw [pedidos_si hu hquiere, ← visto_marca] at hk
              rw [← visto_marca]
              cases cuenta with
              | false =>
                  rw [recorre_libre (.inl rfl) hu hquiere]
                  exact ih (doWho u repchan (st.marca whoMarker u)) k hk
              | true =>
                  rw [if_pos rfl, List.length_cons] at hk
                  rw [recorre_cuenta hpriv hu hquiere]
                  by_cases hcounter : 0 ≤ st.counter
                  · have hrest := ih (doWho u repchan (st.marca whoMarker u).gasta) (k - 1)
                      (by rw [if_pos rfl, hk]; push_cast; exact Int.add_sub_cancel _ _)
                    have hmenos : (doWho u repchan (st.marca whoMarker u).gasta).counter =
                        st.counter - 1 := rfl
                    rw [hmenos] at hrest
                    rw [if_pos hcounter]
                    by_cases hcabe : k ≤ st.counter + 1
                    · rw [if_pos fun _ ↦ by omega] at hrest
                      rw [if_pos fun _ ↦ hcabe]
                      exact ⟨hrest.1.trans (by omega), hrest.2⟩
                    · rw [if_neg fun h ↦ hcabe (by have := h rfl; omega)] at hrest
                      rw [if_neg fun h ↦ hcabe (h rfl)]
                      exact hrest
                  · rw [if_neg hcounter, if_neg fun h ↦ by have := h rfl; omega]
                    show st.counter - 1 < 0
                    omega

variable {whoMarker}

/-- The replies are of different users, all of them processed. -/
def Estado.Cabal (whoMarker : UInt32) (st : Estado υ κ) : Prop :=
  st.usuarios.Nodup ∧ ∀ u ∈ st.usuarios, visto whoMarker st u = true

/-- Behind another mark the replies are still of users who are processed. -/
theorem Estado.Cabal.marca {st : Estado υ κ} (h : st.Cabal whoMarker) (u : υ) :
    (st.marca whoMarker u).Cabal whoMarker := by
  refine ⟨h.1, fun v hv ↦ ?_⟩
  rw [visto_marca, mark_eq_true]
  exact .inr (h.2 v hv)

/-- A user that was not processed is marked and replied with. -/
theorem Estado.Cabal.doWho {st : Estado υ κ} {u : υ} (h : (st.marca whoMarker u).Cabal whoMarker)
    (hu : u ∉ st.usuarios) (repchan : Option κ) :
    (doWho u repchan (st.marca whoMarker u)).Cabal whoMarker := by
  rw [Estado.Cabal, usuarios_doWho]
  refine ⟨List.nodup_append.mpr ⟨h.1, List.nodup_singleton u, ?_⟩, fun v hv ↦ ?_⟩
  · intro a ha b hb
    rw [List.mem_singleton.mp hb]
    rintro rfl
    exact hu ha
  · rcases List.mem_append.mp hv with hv | hv
    · exact h.2 v hv
    · rw [List.mem_singleton.mp hv]
      show visto whoMarker (st.marca whoMarker u) u = true
      rw [visto_marca, mark_eq_true]
      exact .inl rfl

/-- Nobody is replied with twice, whatever the privileges are. -/
theorem Estado.Cabal.recorre {st : Estado υ κ} (h : st.Cabal whoMarker) (cuenta : Bool)
    (quiere : υ → Bool) (repchan : Option κ) (us : List υ) :
    (recorre s sptr whoMarker cuenta quiere repchan us st).Cabal whoMarker := by
  induction us generalizing st with
  | nil => exact h
  | cons u us ih =>
      cases hu : visto whoMarker st u with
      | true =>
          rw [recorre_visto hu]
          exact ih h
      | false =>
          have hmarca := h.marca u
          have hnot : u ∉ st.usuarios := by
            intro hmem
            rw [h.2 u hmem] at hu
            cases hu
          cases hquiere : quiere u with
          | false =>
              rw [recorre_no hu hquiere]
              exact ih hmarca
          | true =>
              have hlibre := hmarca.doWho hnot repchan
              by_cases hcuenta : cuenta = false ∨ s.hasPriv sptr .unlimitQuery = true
              · rw [recorre_libre hcuenta hu hquiere]
                exact ih hlibre
              · obtain ⟨hcuenta, hpriv⟩ := not_or.mp hcuenta
                obtain rfl := Bool.eq_true_of_not_eq_false hcuenta
                rw [recorre_cuenta (Bool.eq_false_of_not_eq_true hpriv) hu hquiere]
                split
                · exact ih hlibre
                · exact hmarca

end

end Ircd.Who
