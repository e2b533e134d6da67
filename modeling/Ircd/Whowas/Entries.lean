import Ircd.Whowas.History
import Mathlib.Data.List.Chain
import Mathlib.Data.List.Find

/-!
# The entries in use

`Bien` says that the entries in use, the newest first, follow one another around the table, and that
the two threads of an entry are made of the entries in use with its hash value and with its client.
The next entry to be reused is then the last one of its threads (`Bien.ultimo`). There is a lemma for
each function that changes the entries. `Registro` is the same history as a list of records, of
which the table keeps the last `n + 1`.
-/

namespace Ircd.Whowas

open CString Hash

variable {n : Nat} {κ : Type} [DecidableEq κ]

/-- The entries in use, the newest first. -/
structure Bien (s : Historia n κ) (vivo : κ → Bool) (us : List (Fin (n + 1))) : Prop where
  usados : ∀ i, i ∈ us ↔ s.hashv i ≠ WHOWAS_UNUSED
  nodup : us.Nodup
  orden : (s.whowasNext :: us).IsChain fun a b ↦ siguiente b = a
  lleno : us.length = n + 1 ∨ us.length = s.whowasNext.val ∧ ∀ i ∈ us, i.val < us.length
  nombre : ∀ i ∈ us, s.name i ≠ [] ∧ s.hashv i = hashWhowasName (s.name i) []
  hlist : s.hlist.Threaded (fun _ ↦ True) us fun i ↦ some (s.hashv i)
  clist : s.clist.Threaded (fun c ↦ vivo c = true) us s.online
  vivos : ∀ i c, s.online i = some c → i ∈ us ∧ vivo c = true

variable {s s' : Historia n κ} {vivo : κ → Bool} {us as : List (Fin (n + 1))} {c : κ}
  {name : CStr} {stillOn : Bool} {now : Int}

/-! ## The ring -/

theorem siguiente_injective : Function.Injective (siguiente : Fin (n + 1) → Fin (n + 1)) := by
  intro i j h
  have hval := congrArg Fin.val h
  have hi := i.isLt
  have hj := j.isLt
  apply Fin.ext
  rw [siguiente, siguiente] at hval
  split at hval <;> split at hval <;> simp only [Fin.val_zero] at hval <;> omega

/-- What is left of the entries in use when the next one is given up. -/
theorem Bien.ultimo (h : Bien s vivo us) :
    s.whowasNext ∉ us ∧ us.length < n + 1 ∧ us.length = s.whowasNext.val ∨
      ∃ as, us = as ++ [s.whowasNext] ∧ s.whowasNext ∉ as ∧ us.length = n + 1 := by
  by_cases hmem : s.whowasNext ∈ us
  · right
    obtain ⟨as, bs, hus⟩ := List.append_of_mem hmem
    have hnodup := h.nodup
    have horden := h.orden
    rw [hus] at hnodup horden
    have has : s.whowasNext ∉ as :=
      fun hr ↦ (List.nodup_append.mp hnodup).2.2 _ hr _ List.mem_cons_self rfl
    have hlleno : us.length = n + 1 := by
      rcases h.lleno with hlleno | ⟨hlen, hall⟩
      · exact hlleno
      · exact absurd (hall _ hmem) (by omega)
    cases bs with
    | nil => exact ⟨as, hus, has, hlleno⟩
    | cons b bs =>
        -- The entry behind it and the newest entry have the same successor.
        have hb : siguiente b = s.whowasNext := by
          rw [← List.cons_append] at horden
          exact ((List.isChain_append_cons_cons.mp horden).2.1 : siguiente b = _)
        cases as with
        | nil =>
            have ha : siguiente s.whowasNext = s.whowasNext :=
              (List.isChain_cons_cons.mp horden).1
            have hab := siguiente_injective (ha.trans hb.symm)
            exact absurd hab (fun heq ↦ (List.nodup_cons.mp hnodup).1 (by simp [heq]))
        | cons a as =>
            have ha : siguiente a = s.whowasNext := (List.isChain_cons_cons.mp horden).1
            have hab := siguiente_injective (ha.trans hb.symm)
            exact absurd hab (fun heq ↦ (List.nodup_cons.mp hnodup).1 (by simp [heq]))
  · left
    have hlt : us.length < n + 1 := by
      have hsub : (s.whowasNext :: us).Nodup := List.nodup_cons.mpr ⟨hmem, h.nodup⟩
      have hcard := hsub.length_le_card
      rw [List.length_cons, Fintype.card_fin] at hcard
      exact hcard
    rcases h.lleno with hlleno | ⟨hlen, -⟩
    · omega
    · exact ⟨hmem, hlt, hlen⟩

/-! ## A used entry is given up -/

/-- The lists without the next entry. -/
theorem Bien.retira (h : Bien s vivo us) :
    ∃ as s', s.retira s.whowasNext = some s' ∧ s.whowasNext ∉ as ∧
      (us = as ∧ us.length < n + 1 ∧ us.length = s.whowasNext.val ∨
        us = as ++ [s.whowasNext] ∧ us.length = n + 1) ∧
      s'.hlist.Threaded (fun _ ↦ True) as (fun i ↦ some (s.hashv i)) ∧
      s'.clist.Threaded (fun c ↦ vivo c = true) as s.online ∧
      s' = { s with
        hlist := s'.hlist
        clist := s'.clist } := by
  rcases h.ultimo with ⟨hmem, hlt, hlen⟩ | ⟨as, hus, has, hlen⟩
  · have hfree : s.hashv s.whowasNext = WHOWAS_UNUSED := by
      by_contra hne
      exact hmem ((h.usados _).mpr hne)
    exact ⟨us, s, if_pos hfree, hmem, Or.inl ⟨rfl, hlt, hlen⟩, h.hlist, h.clist, rfl⟩
  · have hused : s.hashv s.whowasNext ≠ WHOWAS_UNUSED :=
      (h.usados _).mp (by simp [hus])
    have hhlist := h.hlist
    have hclist := h.clist
    rw [hus] at hhlist hclist
    obtain ⟨hlist', hhdrop, hhnext, hhthreaded⟩ := hhlist.drop rfl trivial has
    cases honline : s.online s.whowasNext with
    | none =>
        refine ⟨as, { s with hlist := hlist' }, ?_, has, Or.inr ⟨hus, hlen⟩, hhthreaded,
          hclist.skip honline, rfl⟩
        rw [Historia.retira, if_neg hused]
        simp [honline, hhdrop, hhnext]
    | some c =>
        obtain ⟨clist', hcdrop, hcnext, hcthreaded⟩ :=
          hclist.drop honline (h.vivos _ c honline).2 has
        refine ⟨as, { s with
          hlist := hlist'
          clist := clist' }, ?_, has, Or.inr ⟨hus, hlen⟩, hhthreaded, hcthreaded, rfl⟩
        rw [Historia.retira, if_neg hused]
        simp [honline, hcdrop, hcnext, hhdrop, hhnext]

/-! ## A new entry -/

theorem val_siguiente {ww : Fin (n + 1)} (h : ww.val < n) : (siguiente ww).val = ww.val + 1 := by
  rw [siguiente, dif_pos (Nat.succ_lt_succ h)]

/-- The entries in use after a new one has been written. -/
theorem Bien.entrada (h : Bien s vivo us) (has : s.whowasNext ∉ as)
    (hus : us = as ∧ us.length < n + 1 ∧ us.length = s.whowasNext.val ∨
      us = as ++ [s.whowasNext] ∧ us.length = n + 1)
    (hname : name ≠ []) {o : Option κ}
    (ho : ∀ c, o = some c → vivo c = true)
    (hhashv : s'.hashv = Function.update s.hashv s.whowasNext (hashWhowasName name []))
    (hnom : s'.name = Function.update s.name s.whowasNext name)
    (honline : s'.online = Function.update s.online s.whowasNext o)
    (hnext : s'.whowasNext = siguiente s.whowasNext)
    (hhlist : s'.hlist.Threaded (fun _ ↦ True) (s.whowasNext :: as) fun i ↦ some (s'.hashv i))
    (hclist : s'.clist.Threaded (fun c ↦ vivo c = true) (s.whowasNext :: as) s'.online) :
    Bien s' vivo (s.whowasNext :: as) := by
  have hmem : ∀ i, i ≠ s.whowasNext → (i ∈ as ↔ i ∈ us) := by
    intro i hi
    rcases hus with ⟨rfl, -⟩ | ⟨rfl, -⟩
    · rfl
    · simp [hi]
  refine ⟨fun i ↦ ?_, ?_, ?_, ?_, fun i hi ↦ ?_, hhlist, hclist, fun i c hi ↦ ?_⟩
  · rw [hhashv]
    by_cases hi : i = s.whowasNext
    · subst hi
      rw [Function.update_self]
      exact iff_of_true List.mem_cons_self (hashWhowasName_ne name [])
    · rw [Function.update_of_ne hi, List.mem_cons, or_iff_right hi, hmem i hi, h.usados]
  · refine List.nodup_cons.mpr ⟨has, ?_⟩
    rcases hus with ⟨rfl, -⟩ | ⟨rfl, -⟩
    · exact h.nodup
    · exact (List.nodup_append.mp h.nodup).1
  · rw [hnext]
    refine List.isChain_cons_cons.mpr ⟨rfl, ?_⟩
    have horden := h.orden
    rcases hus with ⟨rfl, -⟩ | ⟨rfl, -⟩
    · exact horden
    · rw [← List.cons_append] at horden
      exact horden.left_of_append
  · rcases hus with ⟨rfl, hlt, hlen⟩ | ⟨rfl, hlen⟩
    · by_cases hfin : s.whowasNext.val < n
      · right
        rw [hnext, val_siguiente hfin, List.length_cons, hlen]
        refine ⟨rfl, fun i hi ↦ ?_⟩
        rcases List.mem_cons.mp hi with rfl | hi
        · exact Nat.lt_succ_self _
        · rcases h.lleno with hlleno | ⟨-, hall⟩
          · omega
          · exact Nat.lt_succ_of_lt (hlen ▸ hall i hi)
      · left
        rw [List.length_cons]
        omega
    · left
      rw [List.length_append, List.length_singleton] at hlen
      rw [List.length_cons, hlen]
  · rw [hhashv, hnom]
    by_cases hiw : i = s.whowasNext
    · subst hiw
      rw [Function.update_self, Function.update_self]
      exact ⟨hname, rfl⟩
    · rw [Function.update_of_ne hiw, Function.update_of_ne hiw]
      exact h.nombre i ((hmem i hiw).mp ((List.mem_cons.mp hi).resolve_left hiw))
  · rw [honline] at hi
    by_cases hiw : i = s.whowasNext
    · subst hiw
      rw [Function.update_self] at hi
      exact ⟨List.mem_cons_self, ho c hi⟩
    · rw [Function.update_of_ne hiw] at hi
      obtain ⟨hius, hc⟩ := h.vivos i c hi
      exact ⟨List.mem_cons_of_mem _ ((hmem i hiw).mpr hius), hc⟩

/-! ## Records -/

/-- What the history remembers of an entry. -/
structure Ficha (κ : Type) where
  name : CStr
  logoff : Int
  online : Option κ

omit [DecidableEq κ] in
/-- The record of an entry. -/
def Historia.ficha (s : Historia n κ) (i : Fin (n + 1)) : Ficha κ :=
  ⟨s.name i, s.logoff i, s.online i⟩

/-- Another record is kept; the oldest one is lost when there are too many. -/
def anota (n : Nat) (f : Ficha κ) (r : List (Ficha κ)) : List (Ficha κ) :=
  (f :: r).take (n + 1)

/-- A client is not online any more. -/
def olvida (c : κ) (r : List (Ficha κ)) : List (Ficha κ) :=
  r.map fun f ↦ if f.online = some c then { f with online := none } else f

omit [DecidableEq κ] in
/-- The records after a new entry has been written. -/
theorem fichas_entrada (has : s.whowasNext ∉ as)
    (hus : us = as ∧ us.length < n + 1 ∧ us.length = s.whowasNext.val ∨
      us = as ++ [s.whowasNext] ∧ us.length = n + 1)
    (hother : ∀ i, i ≠ s.whowasNext → s'.ficha i = s.ficha i) :
    (s.whowasNext :: as).map s'.ficha = anota n (s'.ficha s.whowasNext) (us.map s.ficha) := by
  have hmap : as.map s'.ficha = as.map s.ficha :=
    List.map_congr_left fun i hi ↦ hother i (ne_of_mem_of_not_mem hi has)
  rw [List.map_cons, hmap, anota, List.take_succ_cons]
  rcases hus with ⟨rfl, hlt, -⟩ | ⟨rfl, hlen⟩
  · rw [List.take_of_length_le (by rw [List.length_map]; omega)]
  · rw [List.length_append, List.length_singleton] at hlen
    rw [List.map_append, List.take_left' (by rw [List.length_map]; omega)]

/-- `add_history` writes the record of a new entry. -/
theorem Bien.addHistory (h : Bien s vivo us) (hc : vivo c = true) (hname : name ≠ [])
    (stillOn : Bool) (now : Int) :
    ∃ s' us', addHistory c name stillOn now s = some s' ∧ Bien s' vivo us' ∧
      us'.map s'.ficha =
        anota n ⟨name, now, if stillOn then some c else none⟩ (us.map s.ficha) := by
  obtain ⟨as, s₁, hretira, has, hus, hhlist, hclist, hs₁⟩ := h.retira
  have hkey : (fun i ↦ some (Function.update s.hashv s.whowasNext (hashWhowasName name []) i)) =
      Function.update (fun i ↦ some (s.hashv i)) s.whowasNext (some (hashWhowasName name [])) := by
    funext i
    by_cases hi : i = s.whowasNext
    · subst hi
      rw [Function.update_self, Function.update_self]
    · rw [Function.update_of_ne hi, Function.update_of_ne hi]
  have hhpush := hhlist.push (i := hashWhowasName name []) has trivial
  rw [← hkey] at hhpush
  obtain ⟨clist', hclist'⟩ :
      ∃ l, l = if stillOn then s₁.clist.push c s.whowasNext else s₁.clist := ⟨_, rfl⟩
  have hcpush : clist'.Threaded (fun c ↦ vivo c = true) (s.whowasNext :: as)
      (Function.update s.online s.whowasNext (if stillOn then some c else none)) := by
    rw [hclist']
    cases stillOn with
    | true => exact hclist.push has hc
    | false => exact hclist.pass has
  have honline : ∀ d, (if stillOn then some c else none) = some d → vivo d = true := by
    intro d hd
    cases stillOn with
    | true => exact Option.some.inj hd ▸ hc
    | false => exact absurd hd (by simp)
  obtain ⟨s', hs'⟩ : ∃ s' : Historia n κ, s' = { s with
      hashv := Function.update s.hashv s.whowasNext (hashWhowasName name [])
      logoff := Function.update s.logoff s.whowasNext now
      name := Function.update s.name s.whowasNext name
      online := Function.update s.online s.whowasNext (if stillOn then some c else none)
      hlist := s₁.hlist.push (hashWhowasName name []) s.whowasNext
      clist := clist'
      whowasNext := siguiente s.whowasNext } := ⟨_, rfl⟩
  have hadd : Whowas.addHistory c name stillOn now s = some s' := by
    simp only [Whowas.addHistory, hretira, Option.bind_eq_bind, Option.bind_some]
    rw [hs', hclist', hs₁]
    cases stillOn <;> rfl
  have hself : s'.ficha s.whowasNext = ⟨name, now, if stillOn then some c else none⟩ := by
    simp [Historia.ficha, hs']
  have hother : ∀ i, i ≠ s.whowasNext → s'.ficha i = s.ficha i := by
    intro i hi
    simp [Historia.ficha, hs', hi]
  refine ⟨s', s.whowasNext :: as, hadd, ?_, ?_⟩
  · subst hs'
    exact h.entrada has hus hname honline rfl rfl rfl rfl hhpush hcpush
  · rw [← hself]
    exact fichas_entrada has hus hother

/-! ## A client goes away -/

omit [DecidableEq κ] in
/-- The loop of `off_history` clears the pointers of the entries of a thread. -/
theorem offDesde_eq {fuel : Nat} {p : Option (Fin (n + 1))} {xs : List (Fin (n + 1))}
    (h : Links s.clist.next p xs none) (hfuel : xs.length ≤ fuel) :
    offDesde fuel p s = some { s with
      online := fun i ↦ if i ∈ xs then none else s.online i } := by
  induction xs generalizing p fuel s with
  | nil =>
      rw [Links.nil] at h
      subst h
      simp [offDesde]
  | cons a xs ih =>
      obtain ⟨rfl, hxs⟩ := h
      cases fuel with
      | zero => simp at hfuel
      | succ fuel =>
          have hrest := ih (s := { s with online := Function.update s.online a none }) hxs
            (Nat.le_of_succ_le_succ hfuel)
          rw [offDesde, hrest]
          congr 2
          funext i
          by_cases hi : i = a
          · simp [hi]
          · simp [hi]

/-- `off_history`, and the client is removed. -/
theorem Bien.offHistory (h : Bien s vivo us) (hc : vivo c = true) :
    ∃ s', offHistory c s = some s' ∧ Bien s' (Function.update vivo c false) us ∧
      us.map s'.ficha = olvida c (us.map s.ficha) := by
  have hthread := h.clist c hc
  have hlen : (us.filter fun i ↦ s.online i = some c).length ≤ n + 1 := by
    have hle := hthread.links.length_le
    rwa [Fintype.card_fin] at hle
  have hoff := offDesde_eq hthread.links hlen
  have honline : ∀ i, (if i ∈ us.filter (fun i ↦ s.online i = some c) then none else s.online i) =
      if s.online i = some c then none else s.online i := by
    intro i
    by_cases hi : s.online i = some c
    · simp [hi, (h.vivos i c hi).1]
    · simp [hi]
  simp only [honline] at hoff
  refine ⟨_, hoff, ⟨h.usados, h.nodup, h.orden, h.lleno, h.nombre, h.hlist, ?_, ?_⟩, ?_⟩
  · refine h.clist.clear (i := c) (fun _ _ ↦ rfl) fun d hd ↦ ?_
    by_cases hdc : d = c
    · rw [hdc, Function.update_self] at hd
      exact absurd hd (by simp)
    · rw [Function.update_of_ne hdc] at hd
      exact ⟨hd, hdc⟩
  · intro i d hd
    by_cases hi : s.online i = some c
    · simp [hi] at hd
    · have hd' : s.online i = some d := by simpa [hi] using hd
      have hdc : d ≠ c := fun heq ↦ hi (heq ▸ hd')
      obtain ⟨hius, hvivo⟩ := h.vivos i d hd'
      exact ⟨hius, by rwa [Function.update_of_ne hdc]⟩
  · rw [olvida, List.map_map]
    refine List.map_congr_left fun i _ ↦ ?_
    by_cases hi : s.online i = some c
    · simp [Historia.ficha, hi]
    · simp [Historia.ficha, hi]

/-! ## A search -/

omit [DecidableEq κ] in
/-- The loop of `get_history` finds the first entry of a thread with the nick. -/
theorem getDesde_eq {fuel : Nat} {p : Option (Fin (n + 1))} {xs : List (Fin (n + 1))}
    {timelimit : Int} (h : Links s.hlist.next p xs none) (hfuel : xs.length ≤ fuel) :
    getDesde name timelimit s fuel p = some ((xs.find? fun i ↦
      strCasediff name (s.name i) = 0 ∧ s.logoff i > timelimit).bind s.online) := by
  induction xs generalizing p fuel with
  | nil =>
      rw [Links.nil] at h
      subst h
      simp [getDesde]
  | cons a xs ih =>
      obtain ⟨rfl, hxs⟩ := h
      cases fuel with
      | zero => simp at hfuel
      | succ fuel =>
          rw [getDesde, ih hxs (Nat.le_of_succ_le_succ hfuel), List.find?_cons]
          by_cases ha : strCasediff name (s.name a) = 0 ∧ s.logoff a > timelimit
          · simp [ha]
          · simp only [ha, if_false, decide_false]

/-- The newest record of a nick with a time of the given kind. -/
def busca (nick : CStr) (en : Int → Prop) [DecidablePred en] (r : List (Ficha κ)) :
    Option (Ficha κ) :=
  r.find? fun f ↦ strCasediff nick f.name = 0 ∧ en f.logoff

/-- `get_history` finds the newest record of the nick that is younger than the limit. -/
theorem Bien.getHistory (h : Bien s vivo us) (nick detras : CStr) (timelimit now : Int) :
    getHistory nick detras timelimit now s = some
      ((busca nick (fun t ↦ now - timelimit < t) (us.map s.ficha)).bind Ficha.online) := by
  have hthread := h.hlist (hashWhowasName nick detras) trivial
  have hlen := hthread.links.length_le
  rw [Fintype.card_fin] at hlen
  have hmatch : ∀ i ∈ us, strCasediff nick (s.name i) = 0 →
      s.hashv i = hashWhowasName nick detras := by
    intro i hi heq
    obtain ⟨hne, hhash⟩ := h.nombre i hi
    rw [hhash]
    exact hashWhowasName_eq (strCasediff_eq_zero.mp heq).symm hne
  have hfind : (us.filter fun i ↦ some (s.hashv i) = some (hashWhowasName nick detras)).find?
        (fun i ↦ strCasediff nick (s.name i) = 0 ∧ s.logoff i > now - timelimit) =
      us.find? fun i ↦ strCasediff nick (s.name i) = 0 ∧ s.logoff i > now - timelimit := by
    rw [List.find?_filter]
    refine List.find?_congr fun i hi ↦ ?_
    by_cases heq : strCasediff nick (s.name i) = 0
    · simp [heq, hmatch i hi heq]
    · simp [heq]
  rw [Whowas.getHistory, getDesde_eq hthread.links hlen, hfind, busca, List.find?_map,
    Option.bind_map]
  have hsame : us.find? (fun i ↦ strCasediff nick (s.name i) = 0 ∧ s.logoff i > now - timelimit) =
      us.find? ((fun f : Ficha κ ↦ strCasediff nick f.name = 0 ∧ now - timelimit < f.logoff) ∘
        s.ficha) := List.find?_congr fun _ _ ↦ rfl
  rw [hsame]
  rfl

end Ircd.Whowas
