import Ircd.Who.Recorrido

/-!
# Whom WHO shows

`mWho_una` says that the replies never show a user twice. `mWho_oculto` says when a requester without
privileges is shown a user with mode `i` that it neither names nor meets on a channel: the lists
respect the zombies of a channel, and the search in the channels of the requester does not.
-/

namespace Ircd.Who

open CString Firsts

variable {υ κ : Type} [DecidableEq υ]

theorem isMember_iff {chptr : Canal υ} {u : υ} :
    isMember chptr u = true ↔ ∃ lp ∈ chptr.members, lp.cptr = u ∧ lp.zombie = false := by
  unfold isMember
  cases hfind : chptr.members.find? (·.cptr = u) with
  | none =>
      refine iff_of_false Bool.false_ne_true ?_
      rintro ⟨lp, hlp, hu, -⟩
      have hnot := List.find?_eq_none.mp hfind lp hlp
      exact hnot (decide_eq_true hu)
  | some lp =>
      have hlp := List.mem_of_find?_eq_some hfind
      have hu : lp.cptr = u := by simpa using List.find?_some hfind
      constructor
      · intro hzombie
        exact ⟨lp, hlp, hu, by simpa using hzombie⟩
      · rintro ⟨lp', hlp', hu', hzombie⟩
        -- a member has one link
        obtain rfl : lp' = lp := List.inj_on_of_nodup_map chptr.nodup hlp' hlp (hu'.trans hu.symm)
        simp [hzombie]

section

variable (s : Red υ κ) (sptr : υ) (q : Peticion) (whoMarker : UInt32)

/-! ## The list -/

/-- The channel that an element of the mask names. -/
def canalDe (nick : CStr) : Option κ :=
  if Channel.isChannelName (nick ++ [nul]) then s.findChannel nick else none

/-- The users that an element of the mask shows. -/
def nombrados (nick : CStr) : List υ :=
  match canalDe s nick with
  | some chptr =>
      let isthere := isMember (s.canal chptr) sptr
      if isthere || seeChannel s sptr q (s.canal chptr) then
        ((s.canal chptr).members.filter (muestra s sptr q isthere)).map (·.cptr)
      else []
  | none => (s.findUser nick).toList.filter (pasaOper s q)

/-- Whether the users that an element shows are counted. -/
def cuesta (nick : CStr) : Bool :=
  match canalDe s nick with
  | some chptr => !isMember (s.canal chptr) sptr
  | none => true

theorem elemento_eq (nick : CStr) (st : Estado υ κ) :
    elemento s sptr q whoMarker nick st =
      recorre s sptr whoMarker (cuesta s sptr nick) (fun _ ↦ true) (canalDe s nick)
        (nombrados s sptr q nick) st := by
  unfold elemento nombrados cuesta
  rw [← canalDe]
  cases canalDe s nick with
  | some chptr =>
      dsimp only
      split
      · exact listaCanal_eq s sptr q whoMarker chptr _ _ st
      · rfl
  | none =>
      cases s.findUser nick with
      | none => rfl
      | some acptr =>
          cases hoper : pasaOper s q acptr with
          | false => simp [hoper, recorre]
          | true =>
              have hfilter : (some acptr).toList.filter (pasaOper s q) = [acptr] := by simp [hoper]
              dsimp only
              rw [hfilter, recorre, if_pos hoper]
              cases process whoMarker acptr st with
              | none => rfl
              | some st =>
                  cases hmore : showMore s sptr st with
                  | mk more st' => cases more <;> simp [hmore, recorre]

/-! ## The search -/

/-- The users that the search wants in the channels of the requester. -/
def quiere (u : υ) : Bool :=
  pasaOper s q u && (compilada s q).all (casa s sptr · u)

/-- The users on a channel. -/
def enCanal (chptr : κ) : List υ :=
  ((s.canal chptr).members.map (·.cptr)).filter fun u ↦ (s.cliente u).isUser

/-- The users on the channels of the requester. -/
def enComun (cs : List κ) : List υ :=
  cs.flatMap (enCanal s)

theorem busca_comun (chptr : κ) (st : Estado υ κ) :
    busca s sptr q whoMarker (fun _ ↦ true) (compilada s q) (some chptr)
        ((s.canal chptr).members.map (·.cptr)) st =
      recorre s sptr whoMarker true (quiere s sptr q) (some chptr) (enCanal s chptr) st := by
  rw [busca_eq]
  simp only [Bool.and_true]
  rfl

variable {s sptr}

/-- The loop over the channels is one traversal. -/
theorem usuarios_comunes (hpriv : s.hasPriv sptr .unlimitQuery = false) (cs : List κ)
    (st : Estado υ κ) :
    (comunes s sptr q whoMarker (compilada s q) cs st).usuarios = st.usuarios ++
      (pedidos (visto whoMarker st) (quiere s sptr q) (enComun s cs)).take
        (st.counter + 1).toNat := by
  induction cs generalizing st with
  | nil => simp [comunes, enComun, pedidos, fresh]
  | cons chptr cs ih =>
      rw [comunes, busca_comun]
      have husuarios := usuarios_recorre whoMarker hpriv true (quiere s sptr q)
        (some chptr) (enCanal s chptr) st
      have hestado := recorre_estado whoMarker hpriv true (quiere s sptr q)
        (some chptr) (enCanal s chptr) st _ rfl
      have hsplit : pedidos (visto whoMarker st) (quiere s sptr q) (enComun s (chptr :: cs)) =
          pedidos (visto whoMarker st) (quiere s sptr q) (enCanal s chptr) ++
            pedidos (after (visto whoMarker st) (enCanal s chptr)) (quiere s sptr q)
              (enComun s cs) := by
        rw [pedidos, enComun, List.flatMap_cons, fresh_append, List.filter_append]
        rfl
      obtain ⟨k, hk⟩ : ∃ k, k = (pedidos (visto whoMarker st) (quiere s sptr q)
        (enCanal s chptr)).length := ⟨_, rfl⟩
      rw [if_pos rfl] at husuarios hestado
      rw [ih, husuarios, hsplit, List.take_append, List.append_assoc, ← hk]
      rw [← hk] at hestado
      split at hestado
      · next hcabe =>
          have hcabe := hcabe rfl
          have hresto : (st.counter + 1).toNat - k = (st.counter - k + 1).toNat := by omega
          rw [hestado.1, hestado.2, hresto]
      · next hcabe =>
          -- the traversal was cut off, and nothing follows it
          obtain ⟨-, hcabe⟩ := Classical.not_imp.mp hcabe
          have hresto : ((recorre s sptr whoMarker true (quiere s sptr q) (some chptr)
              (enCanal s chptr) st).counter + 1).toNat = 0 := by omega
          have hcero : (st.counter + 1).toNat - k = 0 := by omega
          rw [hresto, hcero, List.take_zero, List.take_zero]

variable {q whoMarker}

theorem mem_recorre (hpriv : s.hasPriv sptr .unlimitQuery = false) {cuenta : Bool} {f : υ → Bool}
    {repchan : Option κ} {us : List υ} {st : Estado υ κ} {u : υ}
    (hu : u ∈ (recorre s sptr whoMarker cuenta f repchan us st).usuarios) :
    u ∈ st.usuarios ∨ u ∈ us ∧ f u = true := by
  rw [usuarios_recorre _ hpriv, List.mem_append] at hu
  refine hu.imp_right fun hu ↦ ?_
  have hpedido : u ∈ pedidos (visto whoMarker st) f us := by
    split at hu
    · exact List.mem_of_mem_take hu
    · exact hu
  obtain ⟨hfresh, hf⟩ := List.mem_filter.mp hpedido
  exact ⟨(mem_fresh.mp hfresh).1, hf⟩

theorem mem_recorre_of_mem (hpriv : s.hasPriv sptr .unlimitQuery = false) {cuenta : Bool}
    {f : υ → Bool} {repchan : Option κ} {us : List υ} {st : Estado υ κ} {u : υ}
    (hu : u ∈ st.usuarios) :
    u ∈ (recorre s sptr whoMarker cuenta f repchan us st).usuarios := by
  rw [usuarios_recorre _ hpriv]
  exact List.mem_append_left _ hu

/-- What the list shows. -/
theorem mem_lista (hpriv : s.hasPriv sptr .unlimitQuery = false) {nicks : List CStr}
    {st : Estado υ κ} {u : υ}
    (hu : u ∈ (nicks.foldl (fun st nick ↦ elemento s sptr q whoMarker nick st) st).usuarios) :
    u ∈ st.usuarios ∨ ∃ nick ∈ nicks, u ∈ nombrados s sptr q nick := by
  induction nicks generalizing st with
  | nil => exact .inl hu
  | cons nick nicks ih =>
      rcases ih hu with hu | ⟨nick', hnick', hu⟩
      · change u ∈ (elemento s sptr q whoMarker nick st).usuarios at hu
        rw [elemento_eq] at hu
        exact (mem_recorre hpriv hu).imp_right fun h ↦ ⟨nick, List.mem_cons_self, h.1⟩
      · exact .inr ⟨nick', List.mem_cons_of_mem _ hnick', hu⟩

end

/-! ## Nobody twice -/

section

variable {s : Red υ κ} {sptr : υ} {q : Peticion} {whoMarker : UInt32}

theorem Estado.Cabal.elementos {st : Estado υ κ} (h : st.Cabal whoMarker) (nicks : List CStr) :
    (nicks.foldl (fun st nick ↦ elemento s sptr q whoMarker nick st) st).Cabal whoMarker := by
  induction nicks generalizing st with
  | nil => exact h
  | cons nick nicks ih =>
      apply ih
      show (elemento s sptr q whoMarker nick st).Cabal whoMarker
      rw [elemento_eq]
      exact h.recorre _ _ _ _

theorem Estado.Cabal.comunes {st : Estado υ κ} (h : st.Cabal whoMarker) (cs : List κ) :
    (comunes s sptr q whoMarker (compilada s q) cs st).Cabal whoMarker := by
  induction cs generalizing st with
  | nil => exact h
  | cons chptr cs ih =>
      rw [Who.comunes, busca_comun]
      exact ih (h.recorre _ _ _ _)

theorem Estado.Cabal.busqueda {st : Estado υ κ} (h : st.Cabal whoMarker) :
    (busqueda s sptr q whoMarker st).Cabal whoMarker := by
  obtain ⟨st', hst'⟩ : ∃ st', st' = if 1 ≤ st.counter ∧ matchsel s q ≠ ∅ then
      Who.comunes s sptr q whoMarker (compilada s q) (s.cliente sptr).channel st
    else st := ⟨_, rfl⟩
  have hcomunes : st'.Cabal whoMarker := by
    rw [hst']
    split
    · exact h.comunes _
    · exact h
  unfold Who.busqueda
  dsimp only
  rw [← hst']
  split
  · rw [busca_eq]
    exact hcomunes.recorre _ _ _ _
  · exact hcomunes

end

/-- **Nobody twice.** The replies to a request are of different users, whatever the privileges of
the requester and the marks of earlier requests are. -/
theorem mWho_una (s : Red υ κ) (sptr : υ) (parv : List CStr) :
    ((mWho s sptr parv).respuestas.map (·.acptr)).Nodup := by
  show (bucles s sptr (peticionDe s sptr parv)).usuarios.Nodup
  have hnada (marker : υ → UInt32) (counter : Int) (whoMarker : UInt32) :
      (⟨marker, counter, []⟩ : Estado υ κ).Cabal whoMarker :=
    ⟨List.nodup_nil, fun u hu ↦ absurd hu List.not_mem_nil⟩
  unfold bucles
  dsimp only
  split
  · exact ((hnada _ _ _).elementos _).busqueda.1
  · exact ((hnada _ _ _).elementos _).1

/-! ## Whom a requester without privileges sees -/

section

variable (s : Red υ κ) (sptr : υ) (q : Peticion)

/-- The users that a mask without commas names. -/
def previos : List υ :=
  match q.mask with
  | some mask => nombrados s sptr q mask
  | none => []

/-- The users that were processed before the request. -/
def marcados : υ → Bool :=
  fun u ↦ s.moveMarker.2 u = s.moveMarker.1

/-- What is left of the counter behind a mask without commas. -/
def tope : Int :=
  match q.mask with
  | some mask =>
      q.counter - if cuesta s sptr mask then
        ((pedidos (marcados s) (fun _ ↦ true) (nombrados s sptr q mask)).length : Int) else 0
  | none => q.counter

/-- The users that the search reaches in the channels of the requester: the ones that it wants and
that the mask has not named already, as far as the counter goes. -/
def alcanzados : List υ :=
  if commas q ∨ tope s sptr q < 1 ∨ matchsel s q = ∅ then []
  else
    (pedidos (after (marcados s) (previos s sptr q)) (quiere s sptr q)
      (enComun s (s.cliente sptr).channel)).take (tope s sptr q + 1).toNat

/-- A user is on a channel, and no zombie. -/
def Dentro (chptr : κ) (u : υ) : Prop :=
  ∃ lp ∈ (s.canal chptr).members, lp.cptr = u ∧ lp.zombie = false

/-- A user with mode `i` that the requester does not name and does not meet on a channel. -/
structure Oculto (u : υ) : Prop where
  invisible : (s.cliente u).invisible = true
  otro : u ≠ sptr
  anonimo : ∀ nick ∈ lista q, s.findUser nick ≠ some u
  aparte : ∀ chptr, ¬(Dentro s chptr sptr ∧ Dentro s chptr u)

variable {s sptr q}

theorem lista_of_not_commas (hmask : q.mask ≠ some []) (hcommas : commas q = false) :
    lista q = q.mask.toList := by
  unfold lista commas at *
  cases hm : q.mask with
  | none => rfl
  | some mask =>
      rw [hm] at hmask hcommas
      have hno : ',' ∉ mask := by simpa using hcommas
      cases mask with
      | nil => exact absurd rfl hmask
      | cons c mask =>
          have hall : ∀ x ∈ c :: mask, x ∉ [','] := by
            intro x hx hcoma
            rw [List.mem_singleton.mp hcoma] at hx
            exact hno hx
          have hdrop : (c :: mask).dropWhile (· ∈ [',']) = c :: mask :=
            List.dropWhile_cons_of_neg (by simpa using hall c List.mem_cons_self)
          have htake : (c :: mask).takeWhile (· ∉ [',']) = c :: mask :=
            List.takeWhile_eq_self_iff.mpr fun x hx ↦ decide_eq_true (hall x hx)
          have hresto : (c :: mask).dropWhile (· ∉ [',']) = [] :=
            List.dropWhile_eq_nil_iff.mpr fun x hx ↦ decide_eq_true (hall x hx)
          have htoken : Watch.strtoken [','] (c :: mask) = some (c :: mask, []) := by
            rw [Watch.strtoken, hdrop]
            dsimp only
            rw [htake, hresto, List.tail_nil]
          show Watch.tokens [','] (mask.length + 1) (c :: mask) = [c :: mask]
          rw [Watch.tokens, htoken]
          cases mask.length <;> rfl

/-- The state behind the list. -/
def trasLista (s : Red υ κ) (sptr : υ) (q : Peticion) : Estado υ κ :=
  (lista q).foldl (fun st nick ↦ elemento s sptr q s.moveMarker.1 nick st)
    ⟨s.moveMarker.2, q.counter, []⟩

theorem trasLista_counter (hpriv : s.hasPriv sptr .unlimitQuery = false) (hmask : q.mask ≠ some [])
    (hcommas : commas q = false) :
    (1 ≤ tope s sptr q → (trasLista s sptr q).counter = tope s sptr q ∧
      visto s.moveMarker.1 (trasLista s sptr q) = after (marcados s) (previos s sptr q)) ∧
    (tope s sptr q < 1 → (trasLista s sptr q).counter < 1) := by
  unfold trasLista
  rw [lista_of_not_commas hmask hcommas]
  cases hm : q.mask with
  | none =>
      have htope : tope s sptr q = q.counter := by rw [tope, hm]
      have hprevios : previos s sptr q = [] := by rw [previos, hm]
      rw [htope, hprevios]
      exact ⟨fun _ ↦ ⟨rfl, rfl⟩, id⟩
  | some mask =>
      obtain ⟨k, hk⟩ : ∃ k, k = if cuesta s sptr mask then
        ((pedidos (marcados s) (fun _ ↦ true) (nombrados s sptr q mask)).length : Int) else 0 :=
        ⟨_, rfl⟩
      have hestado := recorre_estado s.moveMarker.1 hpriv (cuesta s sptr mask)
        (fun _ ↦ true) (canalDe s mask) (nombrados s sptr q mask)
        ⟨s.moveMarker.2, q.counter, []⟩ k hk
      have htope : tope s sptr q = q.counter - k := by
        rw [tope, hm]
        dsimp only
        rw [hk]
      have hprevios : previos s sptr q = nombrados s sptr q mask := by rw [previos, hm]
      dsimp only [Option.toList_some, List.foldl_cons, List.foldl_nil]
      rw [elemento_eq, htope, hprevios]
      split at hestado
      · rw [hestado.1]
        exact ⟨fun _ ↦ ⟨rfl, hestado.2⟩, id⟩
      · next hcabe =>
          obtain ⟨-, hcabe⟩ := Classical.not_imp.mp hcabe
          dsimp only at hcabe
          exact ⟨fun _ ↦ by omega, fun _ ↦ by omega⟩

/-- The users of the replies: those of the list, those that the search reaches, and others that
anyone sees. -/
theorem mem_bucles (hpriv : s.hasPriv sptr .unlimitQuery = false) (hmask : q.mask ≠ some []) :
    (∀ u ∈ (bucles s sptr q).usuarios, (∃ nick ∈ lista q, u ∈ nombrados s sptr q nick) ∨
      u ∈ alcanzados s sptr q ∨ seeUser s sptr q u = true) ∧
    ∀ u ∈ alcanzados s sptr q, u ∈ (bucles s sptr q).usuarios := by
  have hlista : ∀ u ∈ (trasLista s sptr q).usuarios, ∃ nick ∈ lista q,
      u ∈ nombrados s sptr q nick := by
    intro u hu
    exact (mem_lista hpriv hu).resolve_left List.not_mem_nil
  have hbucles : bucles s sptr q =
      if !(commas q || (trasLista s sptr q).counter < 1) then
        busqueda s sptr q s.moveMarker.1 (trasLista s sptr q)
      else trasLista s sptr q := rfl
  rw [hbucles]
  cases hcommas : commas q with
  | true =>
      refine ⟨fun u hu ↦ .inl (hlista u hu), fun u hu ↦ ?_⟩
      rw [alcanzados, if_pos (.inl hcommas)] at hu
      exact absurd hu List.not_mem_nil
  | false =>
      have hcounter := trasLista_counter hpriv hmask hcommas
      by_cases htope : 1 ≤ tope s sptr q
      · replace hcounter := hcounter.1 htope
        have hsigue : (!(false || decide ((trasLista s sptr q).counter < 1))) = true := by
          rw [hcounter.1]
          simpa using htope
        rw [if_pos hsigue]
        by_cases hsel : matchsel s q = ∅
        · have hnada : ∀ st : Estado υ κ, ¬(1 ≤ st.counter ∧ matchsel s q ≠ ∅) := fun st h ↦ h.2 hsel
          have hbusca : busqueda s sptr q s.moveMarker.1 (trasLista s sptr q) =
              trasLista s sptr q := by
            unfold busqueda
            dsimp only
            rw [if_neg (hnada _), if_neg (hnada _)]
          rw [hbusca, alcanzados, if_pos (.inr (.inr hsel))]
          exact ⟨fun u hu ↦ .inl (hlista u hu), fun u hu ↦ absurd hu List.not_mem_nil⟩
        · have hcond : ¬(commas q = true ∨ tope s sptr q < 1 ∨ matchsel s q = ∅) := by
            rw [hcommas]
            rintro (h | h | h)
            · cases h
            · omega
            · exact hsel h
          have hcomun := usuarios_comunes q s.moveMarker.1 hpriv
            (s.cliente sptr).channel (trasLista s sptr q)
          rw [hcounter.1, hcounter.2] at hcomun
          have halcanzados : alcanzados s sptr q = _ := if_neg hcond
          rw [← halcanzados] at hcomun
          obtain ⟨st', hst'⟩ : ∃ st', st' = comunes s sptr q s.moveMarker.1 (compilada s q)
            (s.cliente sptr).channel (trasLista s sptr q) := ⟨_, rfl⟩
          have hbusca : busqueda s sptr q s.moveMarker.1 (trasLista s sptr q) =
              if 1 ≤ st'.counter ∧ matchsel s q ≠ ∅ then
                busca s sptr q s.moveMarker.1 (seeUser s sptr q) (compilada s q) none s.clientes st'
              else st' := by
            have hcomunes : (if 1 ≤ (trasLista s sptr q).counter ∧ matchsel s q ≠ ∅ then
                comunes s sptr q s.moveMarker.1 (compilada s q) (s.cliente sptr).channel
                  (trasLista s sptr q)
                else trasLista s sptr q) = st' := by
              rw [hst', if_pos ⟨hcounter.1 ▸ htope, hsel⟩]
            unfold busqueda
            dsimp only
            rw [hcomunes]
          rw [← hst'] at hcomun
          rw [hbusca]
          have hmem : ∀ u ∈ st'.usuarios, (∃ nick ∈ lista q, u ∈ nombrados s sptr q nick) ∨
              u ∈ alcanzados s sptr q := by
            intro u hu
            rw [hcomun] at hu
            exact (List.mem_append.mp hu).imp_left (hlista u)
          have hde : ∀ u ∈ alcanzados s sptr q, u ∈ st'.usuarios := by
            intro u hu
            rw [hcomun]
            exact List.mem_append_right _ hu
          split
          · rw [busca_eq]
            refine ⟨fun u hu ↦ ?_, fun u hu ↦ mem_recorre_of_mem hpriv (hde u hu)⟩
            rcases mem_recorre hpriv hu with hu | ⟨-, hve⟩
            · exact (hmem u hu).imp_right Or.inl
            · simp only [Bool.and_eq_true] at hve
              exact .inr (.inr hve.1.2)
          · exact ⟨fun u hu ↦ (hmem u hu).imp_right Or.inl, hde⟩
      · replace hcounter := hcounter.2 (Int.not_le.mp htope)
        have hfin : ¬(!(false || decide ((trasLista s sptr q).counter < 1))) = true := by
          simpa using hcounter
        rw [if_neg hfin, alcanzados, if_pos (.inr (.inl (Int.not_le.mp htope)))]
        exact ⟨fun u hu ↦ .inl (hlista u hu), fun u hu ↦ absurd hu List.not_mem_nil⟩

/-- The list shows no hidden user. -/
theorem not_oculto_of_nombrado (hextra : q.extra = false) {nick : CStr} (hnick : nick ∈ lista q)
    {u : υ} (hu : u ∈ nombrados s sptr q nick) : ¬Oculto s sptr q u := by
  intro h
  have hnove : seeUser s sptr q u = false := by
    simp [seeUser, hextra, h.invisible, h.otro.symm]
  unfold nombrados at hu
  split at hu
  · next chptr hcanal =>
      dsimp only at hu
      split at hu
      · obtain ⟨lp, hlp, rfl⟩ := List.mem_map.mp hu
        obtain ⟨hmem, hmuestra⟩ := List.mem_filter.mp hlp
        simp only [muestra, Bool.and_eq_true, Bool.or_eq_true, decide_eq_true_eq, Bool.not_eq_true',
          hnove, Bool.false_eq_true, or_false] at hmuestra
        have hzombie := hmuestra.1.2.resolve_left h.otro
        exact h.aparte chptr ⟨isMember_iff.mp hmuestra.2, lp, hmem, rfl, hzombie⟩
      · exact absurd hu List.not_mem_nil
  · have hfind := (List.mem_filter.mp hu).1
    exact h.anonimo nick hnick (Option.mem_toList.mp hfind)

end

/-- **What WHO gives away.** A requester without privileges is shown a hidden user if and only if
the search in its channels reaches that user. -/
theorem mWho_oculto {s : Red υ κ} {sptr : υ} (hpriv : ∀ p, s.hasPriv sptr p = false)
    (parv : List CStr) {u : υ} (h : Oculto s sptr (peticionDe s sptr parv) u) :
    u ∈ (mWho s sptr parv).respuestas.map (·.acptr) ↔
      u ∈ alcanzados s sptr (peticionDe s sptr parv) := by
  have hextra : (peticionDe s sptr parv).extra = false := by
    rw [peticionDe, hpriv .whox]
    exact extra_peticion _ _
  have hmask : (peticionDe s sptr parv).mask ≠ some [] := mask_peticion _ _ _
  obtain ⟨hsalen, hllegan⟩ := mem_bucles (hpriv .unlimitQuery) hmask
  constructor
  · intro hu
    rcases hsalen u hu with ⟨nick, hnick, hu⟩ | hu | hve
    · exact absurd h (not_oculto_of_nombrado hextra hnick hu)
    · exact hu
    · simp [seeUser, hextra, h.invisible, h.otro.symm] at hve
  · exact hllegan u

/-- A user of this server, or an invisible one of another server, on the only channel. -/
def usuario (name : String) (invisible : Bool) : Cliente Unit where
  isUser := true
  myConnect := !invisible
  name := name.toList
  username := name.toList
  host := "b.es".toList
  vhost := "c.virtual".toList
  info := []
  ip := ⟨#v[0, 0, 0, 0, 0, 0, 1, 1]⟩
  server := (if invisible then "hub.es" else "irc.es").toList
  invisible := invisible
  anOper := false
  admin := false
  coder := false
  hidden := false
  hiddenViewer := false
  channel := [()]

/-- Two users on a channel. The remote one, invisible, has been kicked, and the `PART` of its server
has not come yet. -/
def dosUsuarios : Red Bool Unit where
  cliente u := if u then usuario "eva" true else usuario "ana" false
  canal _ := ⟨false, [⟨false, false⟩, ⟨true, true⟩], by decide⟩
  clientes := [true, false]
  findUser _ := none
  findChannel _ := none
  serverList := ["irc.es".toList, "hub.es".toList]
  hasPriv _ _ := false
  ocultarServidores := false
  antes _ := []
  whoMarker := 0
  marker _ := 0

/-- The search shows the zombie. -/
theorem mWho_oculto_zombie : true ∈ (mWho dosUsuarios false [[]]).respuestas.map (·.acptr) := by
  refine (mWho_oculto (fun _ ↦ rfl) [[]] ⟨rfl, by decide, fun _ _ ↦ by simp [dosUsuarios], ?_⟩).mpr
    (by decide)
  rintro _ ⟨-, lp, hlp, hu, hzombie⟩
  rcases List.mem_cons.mp hlp with rfl | hlp
  · cases hu
  · rw [List.mem_singleton.mp hlp] at hzombie
    cases hzombie

end Ircd.Who
