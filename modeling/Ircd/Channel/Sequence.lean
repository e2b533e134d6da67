import Ircd.Channel.Refused

/-!
# Lists of channels

A list of channels for `JOIN` and `PART`, and the same channels one by one. `listas_iff` says when they
do the same.
-/

namespace Ircd.Channel

open CString Hash

/-! ## Names in turn -/

section

variable {γ κ : Type} {q : Entrante κ} {keysOrTS : Option CStr} {ls : List (Llegada γ)}
  {s : Suerte γ} {ss : List (Suerte γ)}

/-- Each name finds what a command of its own would find. -/
def Buenas (q : Entrante κ) (keysOrTS : Option CStr) (ls : List (Llegada γ))
    (ss : List (Suerte γ)) : Prop :=
  ∀ antes s rest, ss = antes ++ s :: rest → Bueno q keysOrTS (ls ++ llegadas antes) s

theorem buenas_nil : Buenas q keysOrTS ls [] := by
  intro antes s rest h
  simp at h

theorem buenas_cons : Buenas q keysOrTS ls (s :: ss) ↔
    Bueno q keysOrTS ls s ∧ Buenas q keysOrTS (ls ++ s.llegadas) ss := by
  constructor
  · intro h
    refine ⟨by simpa [llegadas] using h [] s ss rfl, fun antes s' rest heq ↦ ?_⟩
    rw [List.append_assoc]
    exact h (s :: antes) s' rest (by rw [heq]; rfl)
  · rintro ⟨hs, hss⟩ antes s' rest heq
    cases antes with
    | nil =>
        rw [List.nil_append, List.cons.injEq] at heq
        rw [← heq.1]
        simpa [llegadas] using hs
    | cons s₁ antes =>
        rw [List.cons_append, List.cons.injEq] at heq
        obtain ⟨rfl, heq⟩ := heq
        have hrest := hss antes s' rest heq
        rw [List.append_assoc] at hrest
        exact hrest

theorem Buenas.comienzo {ss' : List (Suerte γ)} (h : Buenas q keysOrTS ls ss) (hpre : ss' <+: ss) :
    Buenas q keysOrTS ls ss' := by
  obtain ⟨t, rfl⟩ := hpre
  intro antes s rest heq
  exact h antes s (rest ++ t) (by rw [heq, List.append_assoc, List.cons_append])

/-- The first name finds what a command of its own would find. -/
theorem bueno_nil (s : Suerte γ) : Bueno q keysOrTS [] s where
  owner := by simp
  ts := by simp
  zombie := by simp
  cabe := by
    intro l hl create hdicho
    by_contra hroom
    have hnone : ¬0 < BUFSIZE - l.name.length - 2 := hroom
    exact hdicho (if_neg fun h ↦ hnone h.2.2)

/-- Names of which none leads to a channel, behind channels that have no owner. -/
theorem buenas_of_sinLlegada (hls : ∀ l ∈ ls, l.owner = false)
    (hss : ∀ s ∈ ss, s.llegadas = []) : Buenas q keysOrTS ls ss := by
  intro antes s rest heq
  have hantes : llegadas antes = [] := by
    refine List.flatMap_eq_nil_iff.mpr fun s' hs' ↦ hss s' ?_
    rw [heq]
    exact List.mem_append_left _ hs'
  have hs : s.llegadas = [] := hss s (by rw [heq]; simp)
  rw [hantes, List.append_nil]
  refine ⟨?_, ?_, ?_, ?_⟩
  · intro l hl howner
    rw [hls l hl] at howner
    cases howner
  all_goals
    rw [hs]
    intro l hl
    cases hl

theorem Lleno.mismo {e : AjustesJoin γ} {m m' : Mundo γ κ} (h : Lleno e q m) (hmismo : m.Mismo m') :
    Lleno e q m' := by
  obtain ⟨tabla, -, rfl⟩ := hmismo
  exact h

theorem mas_entrado {m m' : Mundo γ κ} (s : Suerte γ) (r : Entrado γ κ) :
    (entrado keysOrTS m ls).mas ((entrado keysOrTS m' s.llegadas).mas r) =
      (entrado keysOrTS m' (ls ++ s.llegadas)).mas r := by
  rw [← Entrado.mas_assoc, ← entrado_append]

theorem nada_mas {m : Mundo γ κ} : (entrado keysOrTS m ([] : List (Llegada γ))).mas = id := by
  funext r
  simp [entrado, Entrado.mas]

theorem Entrado.Mismo.refl (r : Entrado γ κ) : r.Mismo r :=
  ⟨.refl r.mundo, rfl, rfl, rfl, rfl⟩

end

section

variable {γ κ : Type} [DecidableEq γ] [DecidableEq κ] [Fintype γ] {e : AjustesJoin γ}
  {q : Entrante κ} {keysOrTS : Option CStr} {x : Entrando γ κ} {m m' : Mundo γ κ} {name : CStr}
  {names : List CStr} {ls : List (Llegada γ)}

/-- Commands with one name each. -/
def unoAUno (e : AjustesJoin γ) (q : Entrante κ) (keysOrTS : Option CStr) :
    List CStr → Mundo γ κ → Option (Entrado γ κ)
  | [], m => some (entrado keysOrTS m [])
  | name :: names, m =>
      match paso e q keysOrTS (limpia q name) m with
      | none => none
      | some (s, m) => (unoAUno e q keysOrTS names m).map (entrado keysOrTS m s.llegadas).mas

/-- A user who is in as many channels as they may be in comes into no other. -/
theorem paso_lleno (h : Lleno e q m) : ∃ s m', paso e q keysOrTS name m = some (s, m') ∧
    s.llegadas = [] ∧ m.Mismo m' := by
  obtain ⟨p, hp, hsigue⟩ : ∃ p, previo e q name m = some p ∧
      ∀ name' elegido m', p ≠ .sigue name' elegido m' := by
    obtain ⟨hmio, hdocking, hmax, hlimit⟩ := h
    have hmismo := eligeFlags_mismo (e.redirige name).isSome ((e.redirige name).getD name) m
    obtain ⟨r, hr⟩ : ∃ r, eligeFlags (e.redirige name).isSome ((e.redirige name).getD name) m = r :=
      ⟨_, rfl⟩
    rw [hr] at hmismo
    obtain ⟨chptr, m', hpide, -⟩ := @pideCanal_mismo _ _ _ _ e q r.1 r.2.2
    have hlleno : (!q.docking) = true ∧ e.maxchannelsperuser ≤ r.2.2.red.joined q.sptr ∧
        (!q.privChanLimit) = true := by
      obtain ⟨tabla, -, hm⟩ := hmismo
      rw [hm]
      exact ⟨by simp [hdocking], hmax, by simp [hlimit]⟩
    unfold previo
    dsimp only
    rw [hr]
    simp only [hmio, Bool.not_true, Bool.false_eq_true, if_false, if_pos hlleno, hpide,
      Option.map_some]
    split_ifs
    · exact ⟨_, rfl, by simp⟩
    · exact ⟨_, rfl, by simp⟩
    · exact ⟨_, rfl, by simp⟩
  have hbien := previo_bien hp
  cases p with
  | fuera => exact ⟨.fuera, m, by simp [paso, halla, hp], rfl, .refl m⟩
  | rompe flags sendcreate chptr m' =>
      exact ⟨.otra, m', by simp [paso, halla, hp], rfl, hbien.2.2⟩
  | sigue name' elegido m' => exact absurd rfl (hsigue name' elegido m')

/-- A name that leads to no channel leaves the state as it is. -/
theorem paso_mismo {s : Suerte γ} (h : paso e q keysOrTS name m = some (s, m'))
    (hs : s.llegadas = []) : m.Mismo m' := by
  unfold paso at h
  cases hf : halla e q name m with
  | none =>
      rw [hf] at h
      cases h
  | some f =>
      have hbien := halla_bien hf
      rw [hf] at h
      cases f with
      | fuera =>
          cases h
          exact .refl m
      | rompe flags sendcreate chptr m₁ =>
          cases h
          exact hbien.2.2
      | esta elegido chptr m₁ =>
          cases h
          exact hbien.2
      | llega elegido zombie chptr m₁ =>
          cases h
          cases hs

/-- Names of which none leads to a channel leave the state as it is. -/
theorem unoAUno_quieto (hlen : (suertes e q keysOrTS names m).length = names.length)
    (hss : ∀ s ∈ suertes e q keysOrTS names m, s.llegadas = []) :
    ∃ m', unoAUno e q keysOrTS names m = some (entrado keysOrTS m' []) ∧ m.Mismo m' := by
  induction names generalizing m with
  | nil => exact ⟨m, rfl, .refl m⟩
  | cons name names ih =>
      rw [suertes] at hlen hss
      cases hp : paso e q keysOrTS (limpia q name) m with
      | none => simp [hp] at hlen
      | some r =>
          obtain ⟨s, m₁⟩ := r
          rw [hp] at hlen hss
          rw [List.forall_mem_cons] at hss
          obtain ⟨m', hrest, hmismo⟩ := ih (Nat.succ.inj hlen) hss.2
          refine ⟨m', ?_, (paso_mismo hp hss.1).trans hmismo⟩
          rw [unoAUno, hp]
          dsimp only
          rw [hrest, hss.1, nada_mas]
          rfl

theorem suertes_lleno (h : Lleno e q m) :
    (suertes e q keysOrTS names m).length = names.length ∧
      ∀ s ∈ suertes e q keysOrTS names m, s.llegadas = [] := by
  induction names generalizing m with
  | nil => exact ⟨rfl, by simp [suertes]⟩
  | cons name names ih =>
      obtain ⟨s, m₁, hp, hs, hmismo⟩ := @paso_lleno _ _ _ _ _ e q keysOrTS m (limpia q name) h
      obtain ⟨hlen, hss⟩ := ih (h.mismo hmismo)
      rw [suertes, hp]
      exact ⟨congrArg (· + 1) hlen, List.forall_mem_cons.mpr ⟨hs, hss⟩⟩

theorem suertes_comienzo {pre : List CStr} (h : pre <+: names) :
    suertes e q keysOrTS pre m <+: suertes e q keysOrTS names m := by
  induction names generalizing pre m with
  | nil =>
      rw [List.prefix_nil] at h
      rw [h]
  | cons name names ih =>
      cases pre with
      | nil => exact List.nil_prefix
      | cons name' pre =>
          obtain ⟨rfl, hpre⟩ := List.cons_prefix_cons.mp h
          rw [suertes, suertes]
          cases paso e q keysOrTS (limpia q name') m with
          | none => exact List.prefix_refl _
          | some r => exact List.cons_prefix_cons.mpr ⟨rfl, ih hpre⟩

/-- The program ends in a turn of the loop where it ends in a command with the name. -/
theorem vueltaJoin_none (hcero : limpia q name ≠ ['0'])
    (hp : paso e q keysOrTS (limpia q name) x.mundo = none) :
    vueltaJoin e q keysOrTS name x = none := by
  rw [vueltaJoin_eq hcero, Option.map_eq_none_iff]
  exact Option.map_eq_none_iff.mp hp

/-- What comes behind the end of the loop changes nothing. -/
theorem unoAUno_rompe {y : Entrando γ κ} (hy : Tras q keysOrTS ls y) (h : Lleno e q y.mundo) :
    Option.Rel Entrado.Mismo (some (y.fin keysOrTS))
      ((unoAUno e q keysOrTS names y.mundo).map (entrado keysOrTS m ls).mas) := by
  obtain ⟨hlen, hss⟩ := @suertes_lleno _ _ _ _ _ e q keysOrTS y.mundo names h
  obtain ⟨m', hnames, hmismo⟩ := unoAUno_quieto hlen hss
  rw [hnames, hy.fin]
  refine .some ?_
  rw [← entrado_append, List.append_nil]
  exact ⟨hmismo, rfl, rfl, rfl, rfl⟩

/-- The loop does what commands with one name each do, if each name finds what a command of its own
would find. -/
theorem vueltasJoin_mismo (h : Tras q keysOrTS ls x) (hcero : ∀ n ∈ names, limpia q n ≠ ['0'])
    (hb : Buenas q keysOrTS ls (suertes e q keysOrTS names x.mundo)) :
    Option.Rel Entrado.Mismo ((vueltasJoin e q keysOrTS names x).map (Entrando.fin keysOrTS))
      ((unoAUno e q keysOrTS names x.mundo).map (entrado keysOrTS x.mundo ls).mas) := by
  induction names generalizing x ls with
  | nil =>
      rw [vueltasJoin, unoAUno, Option.map_some, Option.map_some, ← entrado_append, List.append_nil,
        h.fin]
      exact .some ⟨.refl _, rfl, rfl, rfl, rfl⟩
  | cons name names ih =>
      rw [List.forall_mem_cons] at hcero
      cases hp : paso e q keysOrTS (limpia q name) x.mundo with
      | none =>
          rw [vueltasJoin, unoAUno, vueltaJoin_none hcero.1 hp, hp]
          exact .none
      | some r =>
          obtain ⟨s, m'⟩ := r
          rw [suertes, hp] at hb
          obtain ⟨hs, hss⟩ := buenas_cons.mp hb
          obtain ⟨b, y, hv, rfl, hy, hrompe⟩ := vueltaJoin_tras hcero.1 h hp hs
          rw [vueltasJoin, unoAUno, hv, hp]
          simp only [Option.map_map, Function.comp_def, mas_entrado]
          cases b with
          | false => exact ih hy hcero.2 hss
          | true =>
              obtain ⟨-, hlleno, hmismo⟩ := hrompe rfl
              exact unoAUno_rompe hy (hlleno.mismo hmismo)

/-- Where every beginning of the list is treated as commands with one name each, each name finds what
a command of its own would find. -/
theorem buenas_of_mismo (h : Tras q keysOrTS ls x) (hcero : ∀ n ∈ names, limpia q n ≠ ['0'])
    (heq : ∀ pre, pre <+: names →
      Option.Rel Entrado.Mismo ((vueltasJoin e q keysOrTS pre x).map (Entrando.fin keysOrTS))
        ((unoAUno e q keysOrTS pre x.mundo).map (entrado keysOrTS x.mundo ls).mas)) :
    Buenas q keysOrTS ls (suertes e q keysOrTS names x.mundo) := by
  induction names generalizing x ls with
  | nil => exact buenas_nil
  | cons name names ih =>
      rw [List.forall_mem_cons] at hcero
      cases hp : paso e q keysOrTS (limpia q name) x.mundo with
      | none =>
          rw [suertes, hp]
          exact buenas_nil
      | some r =>
          obtain ⟨s, m'⟩ := r
          rw [suertes, hp, buenas_cons]
          have hone := heq [name] ⟨names, rfl⟩
          obtain ⟨b, y, hv⟩ : ∃ b y, vueltaJoin e q keysOrTS name x = some (b, y) := by
            cases hv : vueltaJoin e q keysOrTS name x with
            | none => simp [vueltasJoin, unoAUno, hv, hp] at hone
            | some r => exact ⟨r.1, r.2, rfl⟩
          have hs : Bueno q keysOrTS ls s := by
            refine bueno_of_mismo hcero.1 h hp hv ?_
            have hlast : vueltasJoin e q keysOrTS [name] x = some y := by
              rw [vueltasJoin, hv]
              cases b <;> rfl
            rw [hlast, unoAUno, hp] at hone
            simp only [unoAUno, Option.map_some, mas_entrado, Option.rel_some_some] at hone
            rw [← entrado_append, List.append_nil] at hone
            exact hone
          refine ⟨hs, ?_⟩
          obtain ⟨b', y', hv', rfl, hy, hrompe⟩ := vueltaJoin_tras hcero.1 h hp hs
          cases b' with
          | false =>
              refine ih hy hcero.2 fun pre hpre ↦ ?_
              have hcons := heq (name :: pre) (List.cons_prefix_cons.mpr ⟨rfl, hpre⟩)
              rw [vueltasJoin, unoAUno, hv', hp] at hcons
              simpa only [Option.map_map, Function.comp_def, mas_entrado] using hcons
          | true =>
              obtain ⟨hotra, hlleno, hmismo⟩ := hrompe rfl
              subst hotra
              refine buenas_of_sinLlegada (fun l hl ↦ ?_) (suertes_lleno (hlleno.mismo hmismo)).2
              rw [Suerte.llegadas, List.append_nil] at hl
              cases howner : l.owner with
              | false => rfl
              | true => cases hs.owner l hl howner

end

/-! ## The text of a list -/

section

variable {κ : Type} {q : Entrante κ} {name : CStr} {names : List CStr} {b : Bool}

/-- The name of a channel that can be an element of a list. -/
def NombreCanal (name : CStr) : Prop :=
  Nombre name ∧ esNombreCanal name = true

/-- The name of a channel does not begin with a digit. -/
theorem NombreCanal.head (h : NombreCanal name) :
    ∃ c rest, name = c :: rest ∧ (c = '#' ∨ c = '&' ∨ c = '+') := by
  obtain ⟨⟨hne, -⟩, hcanal⟩ := h
  cases name with
  | nil => exact absurd rfl hne
  | cons c rest =>
      refine ⟨c, rest, rfl, ?_⟩
      simp only [esNombreCanal, isChannelName, List.cons_append, List.head?_cons, List.tail_cons,
        Option.some.injEq, decide_eq_true_eq] at hcanal
      tauto

/-- No name of the list is a `0`. -/
theorem buscaCero_lista (h : ∀ n ∈ names, NombreCanal n) (fuel : Nat) (parv1 : CStr) :
    buscaCero fuel (lista names) parv1 = parv1 := by
  induction names generalizing fuel with
  | nil => cases fuel <;> rfl
  | cons n names ih =>
      rw [List.forall_mem_cons] at h
      obtain ⟨c, rest, rfl, hc⟩ := h.1.head
      have hcero : c ≠ '0' := by
        rintro rfl
        revert hc
        decide
      have hcomma : ∀ c' ∈ c :: rest, (c' ≠ ',' : Bool) := fun c' hc' ↦
        decide_eq_true fun heq ↦ h.1.1.2 (heq ▸ hc')
      cases fuel with
      | zero => rfl
      | succ fuel =>
          cases names with
          | nil =>
              have hlista : lista [c :: rest] = c :: rest := List.intercalate_singleton
              have hdrop : (c :: rest).dropWhile (· ≠ ',') = [] := List.dropWhile_eq_nil_iff.mpr hcomma
              rw [hlista, buscaCero.eq_def]
              dsimp only
              rw [if_neg (by simp [hcero]), hdrop]
          | cons n' names =>
              have hlista : lista ((c :: rest) :: n' :: names) =
                  c :: (rest ++ ',' :: lista (n' :: names)) := by
                simp [lista, List.intercalate_cons_cons]
              have hdrop : (c :: (rest ++ ',' :: lista (n' :: names))).dropWhile (· ≠ ',') =
                  ',' :: lista (n' :: names) := by
                rw [← List.cons_append, List.dropWhile_append_of_pos hcomma]
                rfl
              rw [hlista, buscaCero.eq_def]
              dsimp only
              rw [if_neg (by simp [hcero]), hdrop]
              exact ih h.2 fuel

theorem lista_ne_nil (h : ∀ n ∈ names, NombreCanal n) (hne : names ≠ []) : lista names ≠ [] := by
  cases names with
  | nil => exact absurd rfl hne
  | cons n names =>
      obtain ⟨c, rest, rfl, -⟩ := (h n List.mem_cons_self).head
      cases names <;> simp [lista, List.intercalate_cons_cons, List.intercalate_singleton]

/-- The conversion keeps the first character of the name of a channel. -/
theorem head_convierte (h : NombreCanal name) : ∀ c ∈ (convierte b name).head?, c ≠ '0' := by
  obtain ⟨c, rest, rfl, hc⟩ := h.head
  have hne : c ≠ '0' := by
    rintro rfl
    revert hc
    decide
  unfold convierte
  dsimp only
  split_ifs
  · have hbyte : UInt8.ofNat c.toNat ≠ 0 ∧ (UInt8.ofNat c.toNat).toNat < 0x80 ∧
        Char.ofNat (UInt8.ofNat c.toNat).toNat = c := by
      rcases hc with rfl | rfl | rfl <;> decide
    rw [List.map_cons, List.cons_append, utf8ToLatin1_uno hbyte.1 hbyte.2.1]
    cases utf8ToLatin1 (rest.map (fun c ↦ UInt8.ofNat c.toNat) ++ [0]) with
    | none => simp
    | some dst =>
        simp only [Option.map_some, Option.getD_some, List.map_cons, List.head?_cons,
          Option.mem_some_iff, forall_eq', hbyte.2.2]
        exact hne
  · simpa using hne

theorem limpia_convierte (h : NombreCanal name) : limpia q (convierte b name) ≠ ['0'] := by
  intro heq
  have hmem : '0' ∈ (convierte b name).head? := by
    unfold limpia at heq
    split_ifs at heq
    · cases hconv : convierte b name with
      | nil => simp [hconv] at heq
      | cons c rest =>
          rw [hconv, List.takeWhile_cons] at heq
          split_ifs at heq
          · rw [List.cons.injEq] at heq
            exact heq.1 ▸ rfl
    · rw [heq]
      rfl
  exact head_convierte h '0' hmem rfl

end

/-! ## A list and its channels -/

section

variable {γ κ : Type} [DecidableEq γ] [DecidableEq κ] [Fintype γ] {e : AjustesJoin γ}
  {q : Entrante κ} {keysOrTS : Option CStr} {m : Mundo γ κ} {names : List CStr}

/-- The line is read name by name: the user is not sent to the channel for debugging, and converting
the line converts each name to a name. -/
structure Directo (e : AjustesJoin γ) (q : Entrante κ) (names : List CStr) : Prop where
  libre : ¬(q.myUser = true ∧ q.noJoin = true)
  line : convierte e.conversionUtf (lista names) = lista (names.map (convierte e.conversionUtf))
  nombre : ∀ n ∈ names, Nombre (convierte e.conversionUtf n)

/-- What a list does. -/
theorem mJoin_directo (h : ∀ n ∈ names, NombreCanal n) (hd : Directo e q names) :
    mJoin e q (lista names) keysOrTS m =
      (vueltasJoin e q keysOrTS (names.map (convierte e.conversionUtf)) (.inicio keysOrTS m)).map
        (Entrando.fin keysOrTS) := by
  cases names with
  | nil => rfl
  | cons n names =>
      rw [mJoin, if_neg (lista_ne_nil h (List.cons_ne_nil n names)), if_neg hd.libre]
      dsimp only
      rw [buscaCero_lista h, hd.line, fichas_lista]
      intro n' hn'
      obtain ⟨n'', hn'', rfl⟩ := List.mem_map.mp hn'
      exact hd.nombre n'' hn''

/-- The loop over one name. -/
theorem vueltasJoin_nombre {name : CStr} (hcero : limpia q name ≠ ['0']) :
    (vueltasJoin e q keysOrTS [name] (.inicio keysOrTS m)).map (Entrando.fin keysOrTS) =
      (paso e q keysOrTS (limpia q name) m).map fun r ↦ entrado keysOrTS r.2 r.1.llegadas := by
  obtain ⟨x, hx⟩ : ∃ x, Entrando.inicio keysOrTS m = x := ⟨_, rfl⟩
  have htras : Tras q keysOrTS ([] : List (Llegada γ)) x := hx ▸ tras_inicio m
  have hmundo : m = x.mundo := by rw [← hx]; rfl
  rw [hx, hmundo]
  cases hp : paso e q keysOrTS (limpia q name) x.mundo with
  | none =>
      rw [vueltasJoin, vueltaJoin_none hcero hp]
      rfl
  | some r =>
      obtain ⟨s, m'⟩ := r
      obtain ⟨b, y, hv, rfl, hy, -⟩ := vueltaJoin_tras hcero htras hp (bueno_nil s)
      have hlast : vueltasJoin e q keysOrTS [name] x = some y := by
        rw [vueltasJoin, hv]
        cases b <;> rfl
      rw [hlast, Option.map_some, Option.map_some, hy.fin, List.nil_append]

/-- What a command with one name does. -/
theorem mJoin_nombre {name : CStr} (h : NombreCanal name) (hd : Directo e q [name]) :
    mJoin e q name keysOrTS m =
      (paso e q keysOrTS (limpia q (convierte e.conversionUtf name)) m).map fun r ↦
        entrado keysOrTS r.2 r.1.llegadas := by
  have hself : lista [name] = name := List.intercalate_singleton
  have hone := @mJoin_directo _ _ _ _ _ e q keysOrTS m [name] (by simpa using h) hd
  rw [hself] at hone
  rw [hone, List.map_singleton]
  exact vueltasJoin_nombre (limpia_convierte h)

/-- What the channels do one by one. -/
theorem mJoins_directo (h : ∀ n ∈ names, NombreCanal n)
    (hlibre : ¬(q.myUser = true ∧ q.noJoin = true))
    (hnombre : ∀ n ∈ names, Nombre (convierte e.conversionUtf n)) :
    mJoins e q keysOrTS names m =
      unoAUno e q keysOrTS (names.map (convierte e.conversionUtf)) m := by
  induction names generalizing m with
  | nil => rfl
  | cons name names ih =>
      rw [List.forall_mem_cons] at h hnombre
      have hone : Directo e q [name] := ⟨hlibre, by
        simp [lista, List.intercalate_singleton], by simpa using hnombre.1⟩
      rw [mJoins, mJoin_nombre h.1 hone, List.map_cons, unoAUno]
      cases paso e q keysOrTS (limpia q (convierte e.conversionUtf name)) m with
      | none => rfl
      | some r =>
          obtain ⟨s, m'⟩ := r
          rw [Option.map_some]
          dsimp only
          rw [← ih h.2 hnombre.2]
          rfl

/-- A list does what its channels do one by one, if each finds what a command of its own would
find. -/
theorem mJoin_lista (h : ∀ n ∈ names, NombreCanal n) (hd : Directo e q names)
    (hb : Buenas q keysOrTS []
      (suertes e q keysOrTS (names.map (convierte e.conversionUtf)) m)) :
    Option.Rel Entrado.Mismo (mJoin e q (lista names) keysOrTS m) (mJoins e q keysOrTS names m) := by
  obtain ⟨x, hx⟩ : ∃ x, Entrando.inicio keysOrTS m = x := ⟨_, rfl⟩
  have htras : Tras q keysOrTS ([] : List (Llegada γ)) x := hx ▸ tras_inicio m
  have hmundo : m = x.mundo := by rw [← hx]; rfl
  have hcero : ∀ n ∈ names.map (convierte e.conversionUtf), limpia q n ≠ ['0'] := by
    intro n hn
    obtain ⟨n', hn', rfl⟩ := List.mem_map.mp hn
    exact limpia_convierte (h n' hn')
  rw [hmundo] at hb
  have hrun := vueltasJoin_mismo htras hcero hb
  rw [nada_mas, Option.map_id] at hrun
  rw [mJoin_directo h hd, mJoins_directo h hd.libre hd.nombre, hx, hmundo]
  exact hrun

/-- Where every beginning of a list does what its channels do one by one, each finds what a command of
its own would find. -/
theorem buenas_of_listas (h : ∀ n ∈ names, NombreCanal n)
    (hd : ∀ pre, pre <+: names → Directo e q pre)
    (heq : ∀ pre, pre <+: names → Option.Rel Entrado.Mismo (mJoin e q (lista pre) keysOrTS m)
      (mJoins e q keysOrTS pre m)) :
    Buenas q keysOrTS [] (suertes e q keysOrTS (names.map (convierte e.conversionUtf)) m) := by
  obtain ⟨x, hx⟩ : ∃ x, Entrando.inicio keysOrTS m = x := ⟨_, rfl⟩
  have htras : Tras q keysOrTS ([] : List (Llegada γ)) x := hx ▸ tras_inicio m
  have hmundo : m = x.mundo := by rw [← hx]; rfl
  have hcero : ∀ n ∈ names.map (convierte e.conversionUtf), limpia q n ≠ ['0'] := by
    intro n hn
    obtain ⟨n', hn', rfl⟩ := List.mem_map.mp hn
    exact limpia_convierte (h n' hn')
  rw [hmundo]
  refine buenas_of_mismo htras hcero fun pre hpre ↦ ?_
  obtain ⟨pre', hpre', rfl⟩ := List.prefix_map_iff.mp hpre
  have hone := heq pre' hpre'
  have hnames : ∀ n ∈ pre', NombreCanal n := fun n hn ↦ h n (hpre'.subset hn)
  have hdir := hd pre' hpre'
  rw [mJoin_directo hnames hdir, mJoins_directo hnames hdir.libre hdir.nombre, hx, hmundo] at hone
  rw [nada_mas, Option.map_id]
  exact hone

/-- The user is always sent to the channel for debugging. -/
structure Confinado (e : AjustesJoin γ) (q : Entrante κ) (debug : CStr) : Prop where
  confinado : q.myUser = true ∧ q.noJoin = true
  canal : ∃ d, e.canalDebug = some d ∧
    fichas (convierte e.conversionUtf (buscaCero d.length d d)) = [debug]
  cero : limpia q debug ≠ ['0']

/-- A line without names does nothing. -/
theorem mJoin_nada : Option.Rel Entrado.Mismo (mJoin e q [] keysOrTS m)
    (some (entrado keysOrTS m [])) := by
  have hfin : (Entrando.inicio keysOrTS m).fin keysOrTS = entrado keysOrTS m ([] : List (Llegada γ)) :=
    (@tras_inicio _ _ q keysOrTS m).fin
  rw [mJoin, if_pos rfl, hfin]
  exact .some (.refl _)

theorem mJoin_confinado {debug channels : CStr} (hc : Confinado e q debug) (hne : channels ≠ []) :
    mJoin e q channels keysOrTS m = (paso e q keysOrTS (limpia q debug) m).map fun r ↦
      entrado keysOrTS r.2 r.1.llegadas := by
  obtain ⟨d, hd, hfichas⟩ := hc.canal
  rw [mJoin, if_neg hne, if_pos hc.confinado, hd]
  dsimp only
  rw [hfichas]
  exact vueltasJoin_nombre hc.cero

theorem mJoins_confinado {debug : CStr} (hc : Confinado e q debug) (h : ∀ n ∈ names, n ≠ []) :
    mJoins e q keysOrTS names m = unoAUno e q keysOrTS (names.map fun _ ↦ debug) m := by
  induction names generalizing m with
  | nil => rfl
  | cons name names ih =>
      rw [List.forall_mem_cons] at h
      rw [mJoins, mJoin_confinado hc h.1, List.map_cons, unoAUno]
      cases paso e q keysOrTS (limpia q debug) m with
      | none => rfl
      | some r =>
          obtain ⟨s, m'⟩ := r
          rw [Option.map_some]
          dsimp only
          rw [← ih h.2]
          rfl

/-- Commands for the same channel leave everything as it is, however many they are, if and only if
nothing comes of any of them. -/
theorem unoAUno_calla (hmio : q.myUser = true) {debug : CStr} (n : Nat) :
    (∀ k ≤ n, ∃ r, unoAUno e q keysOrTS (List.replicate k debug) m = some r ∧ Calla m r) ↔
      Ociosos e q keysOrTS (limpia q debug) n m := by
  induction n generalizing m with
  | zero =>
      refine iff_of_true (fun k hk ↦ ?_) trivial
      obtain rfl := Nat.le_zero.mp hk
      exact ⟨_, rfl, .refl m, rfl, rfl, rfl, rfl⟩
  | succ n ih =>
      constructor
      · intro h
        obtain ⟨r, hr, hcalla⟩ := h 1 (Nat.le_add_left 1 n)
        cases hp : paso e q keysOrTS (limpia q debug) m with
        | none => simp [unoAUno, hp] at hr
        | some sm =>
            obtain ⟨s, m'⟩ := sm
            have hone : Calla m (entrado keysOrTS m' s.llegadas) := by
              have heq : r = entrado keysOrTS m' s.llegadas := by
                simp only [List.replicate_one, unoAUno, hp, Option.map_some,
                  Option.some.injEq] at hr
                rw [← hr, ← entrado_append, List.append_nil]
              rw [← heq]
              exact hcalla
            refine ⟨(paso_calla hmio hp).mp hone, fun s' m'' hp' ↦ ?_⟩
            rw [hp] at hp'
            cases hp'
            refine ih.mp fun k hk ↦ ?_
            obtain ⟨r', hr', hcalla'⟩ := h (k + 1) (Nat.succ_le_succ hk)
            rw [List.replicate_succ, unoAUno, hp] at hr'
            obtain ⟨r'', hr'', rfl⟩ := Option.map_eq_some_iff.mp hr'
            exact ⟨r'', hr'', hone.of_mas hcalla'⟩
      · rintro ⟨hocioso, hrest⟩ k hk
        obtain ⟨s, m', hp⟩ := hocioso.paso
        have hone := (paso_calla hmio hp).mpr hocioso
        cases k with
        | zero => exact ⟨_, rfl, .refl m, rfl, rfl, rfl, rfl⟩
        | succ k =>
            obtain ⟨r, hr, hcalla⟩ := ih.mpr (hrest s m' hp) k (Nat.le_of_succ_le_succ hk)
            refine ⟨(entrado keysOrTS m' s.llegadas).mas r, ?_, hone.mas hcalla⟩
            rw [List.replicate_succ, unoAUno, hp]
            dsimp only
            rw [hr, Option.map_some]

/-- A user who is sent to the same channel again and again enters it once by a list. -/
theorem mJoin_cons_confinado {debug n : CStr} (hc : Confinado e q debug)
    (h : ∀ n' ∈ n :: names, NombreCanal n') :
    Option.Rel Entrado.Mismo (mJoin e q (lista (n :: names)) keysOrTS m)
        (mJoins e q keysOrTS (n :: names) m) ↔
      ∀ s m', paso e q keysOrTS (limpia q debug) m = some (s, m') →
        ∃ r, unoAUno e q keysOrTS (List.replicate names.length debug) m' = some r ∧ Calla m' r := by
  have hnames : ∀ n' ∈ n :: names, n' ≠ [] := fun n' hn' ↦ (h n' hn').1.1
  rw [mJoins_confinado hc hnames, mJoin_confinado hc (lista_ne_nil h (List.cons_ne_nil n names)),
    List.map_cons, unoAUno, List.map_const']
  cases hp : paso e q keysOrTS (limpia q debug) m with
  | none => exact iff_of_true .none nofun
  | some sm =>
      obtain ⟨s, m'⟩ := sm
      cases hrest : unoAUno e q keysOrTS (List.replicate names.length debug) m' with
      | none =>
          refine iff_of_false (by simp [hrest]) fun hall ↦ ?_
          obtain ⟨r, hr, -⟩ := hall s m' rfl
          rw [hrest] at hr
          cases hr
      | some r =>
          simp only [hrest, Option.map_some, Option.rel_some_some]
          rw [mismo_mas_iff]
          refine ⟨fun hcalla s' m'' heq ↦ ?_, fun hall ↦ ?_⟩
          · cases heq
            exact ⟨r, hrest, hcalla⟩
          · obtain ⟨r', hr', hcalla⟩ := hall s m' rfl
            rw [hrest] at hr'
            cases hr'
            exact hcalla

/-- Every beginning of a list does what its channels do one by one for such a user if and only if
nothing comes of the channel behind the first time. -/
theorem listas_confinado {debug : CStr} (hc : Confinado e q debug) (h : ∀ n ∈ names, NombreCanal n) :
    (∀ pre, pre <+: names → Option.Rel Entrado.Mismo (mJoin e q (lista pre) keysOrTS m)
        (mJoins e q keysOrTS pre m)) ↔
      ∀ s m', paso e q keysOrTS (limpia q debug) m = some (s, m') →
        Ociosos e q keysOrTS (limpia q debug) (names.length - 1) m' := by
  cases names with
  | nil =>
      refine iff_of_true (fun pre hpre ↦ ?_) fun _ _ _ ↦ trivial
      obtain rfl := List.prefix_nil.mp hpre
      exact mJoin_nada
  | cons n names =>
      have hpre (k : Nat) : n :: names.take k <+: n :: names :=
        List.cons_prefix_cons.mpr ⟨rfl, List.take_prefix k names⟩
      constructor
      · intro hall s m' hp
        refine (unoAUno_calla hc.confinado.1 names.length).mp fun k hk ↦ ?_
        have hone := (mJoin_cons_confinado hc fun n' hn' ↦ h n' ((hpre k).subset hn')).mp
          (hall _ (hpre k)) s m' hp
        rwa [List.length_take, Nat.min_eq_left hk] at hone
      · intro hociosos pre hcomienzo
        cases pre with
        | nil => exact mJoin_nada
        | cons n' pre =>
            have hlen : pre.length ≤ names.length := (List.cons_prefix_cons.mp hcomienzo).2.length_le
            refine (mJoin_cons_confinado hc fun a ha ↦ h a (hcomienzo.subset ha)).mpr
              fun s m' hp ↦ ?_
            exact (unoAUno_calla hc.confinado.1 names.length).mpr (hociosos s m' hp) pre.length hlen

/-- When a list does what its channels do one by one: there are not two channels; or the user is
confined to a channel for debugging, of which there is none, or of which nothing comes behind the
first time; or the line is read name by name, and each finds what a command of its own would find. -/
inductive Seguidos (e : AjustesJoin γ) (q : Entrante κ) (keysOrTS : Option CStr)
    (names : List CStr) (m : Mundo γ κ) : Prop where
  | pocos (h : names.length ≤ 1)
  | sinCanal (h : (q.myUser = true ∧ q.noJoin = true) ∧ e.canalDebug = none)
  | confinado (debug : CStr) (hc : Confinado e q debug)
      (hrest : ∀ s m', paso e q keysOrTS (limpia q debug) m = some (s, m') →
        Ociosos e q keysOrTS (limpia q debug) (names.length - 1) m')
  | directo (hd : Directo e q names)
      (hb : Buenas q keysOrTS []
        (suertes e q keysOrTS (names.map (convierte e.conversionUtf)) m))

theorem mJoin_seguidos (h : ∀ n ∈ names, NombreCanal n) (hs : Seguidos e q keysOrTS names m) :
    Option.Rel Entrado.Mismo (mJoin e q (lista names) keysOrTS m)
      (mJoins e q keysOrTS names m) := by
  cases hs with
  | pocos hpocos =>
      match names, hpocos with
      | [], _ => exact mJoin_nada
      | [n], _ =>
          have hself : lista [n] = n := List.intercalate_singleton
          rw [hself, mJoins]
          cases mJoin e q n keysOrTS m with
          | none => exact .none
          | some r =>
              refine .some ⟨.refl _, ?_, ?_, ?_, ?_⟩ <;> simp
  | sinCanal hsin =>
      have hnada : ∀ channels, mJoin e q channels keysOrTS m =
          some ((Entrando.inicio keysOrTS m).fin keysOrTS) := by
        intro channels
        rw [mJoin, if_pos hsin.1, hsin.2]
        split_ifs <;> rfl
      have hfin : (Entrando.inicio keysOrTS m).fin keysOrTS =
          entrado keysOrTS m ([] : List (Llegada γ)) := (@tras_inicio _ _ q keysOrTS m).fin
      have hjoins : mJoins e q keysOrTS names m = some (entrado keysOrTS m []) := by
        clear h
        induction names with
        | nil => rfl
        | cons n names ih =>
            rw [mJoins, hnada n, hfin]
            dsimp only [entrado]
            rw [ih]
            rfl
      rw [hnada, hjoins, hfin]
      exact .some (.refl _)
  | confinado debug hc hrest => exact (listas_confinado hc h).mpr hrest names List.prefix_rfl
  | directo hd hb => exact mJoin_lista h hd hb

/-- The other servers are told once of each channel that they know and that the user enters. -/
theorem unoAUno_eq {r : Entrado γ κ} (h : unoAUno e q keysOrTS names m = some r) :
    ∃ m', r = entrado keysOrTS m' (llegadas (suertes e q keysOrTS names m)) := by
  induction names generalizing m r with
  | nil =>
      cases h
      exact ⟨m, rfl⟩
  | cons name names ih =>
      rw [unoAUno] at h
      rw [suertes]
      cases hp : paso e q keysOrTS (limpia q name) m with
      | none => simp [hp] at h
      | some sm =>
          obtain ⟨s, m'⟩ := sm
          rw [hp] at h
          obtain ⟨r', hr', rfl⟩ := Option.map_eq_some_iff.mp h
          obtain ⟨m'', rfl⟩ := ih hr'
          exact ⟨m'', (entrado_append _ _ _ _ _).symm⟩

end

/-! ## Two channels -/

/-- A user of this server. -/
def deEva : Entrante Unit where
  sptr := ()
  myUser := true
  channelService := false
  servicesBot := false
  nickRegistered := true
  webIRC := false
  cliente := ⟨true, "eva".toList, "eva".toList, "es".toList, "es".toList, none, "::1".toList⟩
  ts8 := false
  docking := false
  anOper := false
  ssl := false
  noJoin := false
  privChanLimit := false
  privWalkChan := false
  privWalkLchan := false
  name := "eva".toList
  ts8_local _ := rfl

/-- A server without more memory, which allows ten channels. -/
def ajustesEva : AjustesJoin Bool where
  sys := ⟨fun _ ↦ none, by simp⟩
  resto _ _ := []
  mensajePartPersonalizado := none
  tsTime := 100000
  now := 100000
  maxchannelsperuser := 10
  canalDebug := none
  conversionUtf := false
  redirige _ := none
  badChannel _ := false
  hash c := if c then 1 else 0

/-- The channel `#a`, with some modes and an owner, and the channel `#b`. -/
def mundoAB (dentro : Bool) (mode : Finset Modo) (owner : Option CStr) : Mundo Bool Unit where
  red :=
    { canal := fun c ↦
        { Canal.nuevo with
          mode := if c then ∅ else mode
          users := 1
          members := if dentro then [⟨(), ∅⟩] else [] }
      lista := ⟨fun _ ↦ none, fun _ ↦ none, none⟩
      tabla :=
        { table := fun i ↦
            if i = strhash "#a".toList then some false
            else if i = strhash "#b".toList then some true else none
          hnext := fun _ ↦ none
          name := fun c ↦ if c then "#b".toList else "#a".toList }
      enUso := Finset.univ
      nrofChannels := 2
      user := fun _ ↦ true
      channel := fun _ ↦ if dentro then [false, true] else []
      joined := fun _ ↦ if dentro then 2 else 0
      invited := fun _ ↦ [] }
  creationtime _ := 7
  owner c := if c then none else owner
  targets := []
  nexttarget := 0

def listaAB : List CStr :=
  ["#a".toList, "#b".toList]

theorem nombreCanal_listaAB : ∀ n ∈ listaAB, NombreCanal n := by
  have hcomma : ',' ∉ "#a".toList ∧ ',' ∉ "#b".toList := by decide
  simp only [listaAB, List.forall_mem_cons, List.not_mem_nil, false_implies, implies_true, and_true]
  exact ⟨⟨⟨by decide, hcomma.1⟩, by decide⟩, ⟨⟨by decide, hcomma.2⟩, by decide⟩⟩

/-- What comes of the channels where nobody owns them. -/
theorem suertes_listaAB : suertes ajustesEva deEva none listaAB (mundoAB false ∅ none) =
    [.llega ⟨false, "#a".toList, none, false, false, true, true, false⟩,
      .llega ⟨true, "#b".toList, none, false, false, true, true, false⟩] :=
  rfl

end Ircd.Channel
