import Ircd.Net.Poda

/-!
# Leaving the network

`exit_one_client`, `exit_downlinks` and `exit_client` of `ircd/s_misc.c`, as far as they change the
network: the list of clients, the tree of servers and the numerics. In a network in order
`exit_client` comes to its end, and what it leaves is the network without the client and what hangs
from it (`Red.Bien.exitClient`).
-/

namespace Ircd.Net

variable {ι : Type} [DecidableEq ι]

namespace Red

/-- `exit_one_client`. -/
def exitOneClient (r : Red ι) (b : ι) : Red ι :=
  let c := r.ficha b
  let r := if c.serv.clientList.isSome then r.clearServerYXX b else r
  -- `return` of a server that tries to exit itself
  if c.status = .me then r
  else
    let r := match c.status, c.serv.up with
      | .server, some up => r.removeDlink up b
      | _, _ => r
    let r := match c.user with
      | some server => r.removeYXXClient server c.yxx
      | none => r
    r.removeClientFromList b

/-- The users at the given indices of the `client_list` of a server leave. -/
def exitUsers (s : ι) : List ℕ → Red ι → Red ι
  | [], r => r
  | i :: is, r =>
      exitUsers s is (match (r.ficha s).serv.hueco i with
        | some u => r.exitOneClient u
        | none => r)

/-- `exit_downlinks`, which goes down at most as many servers as the first number says. -/
def exitDownlinks : ℕ → ι → Red ι → Option (Red ι)
  | 0, _, _ => none
  | fuel + 1, b, r => do
      let r ← (r.ficha b).serv.down.foldlM
        (fun r c ↦ (exitDownlinks fuel c r).map fun r ↦ r.exitOneClient c) r
      some (exitUsers b (List.range ((r.ficha b).serv.nnMask + 1)) r)

/-- `exit_client`: the network it leaves, and whether it returns `CPTR_KILLED`. -/
def exitClient (r : Red ι) (cptr b : ι) : Option (Red ι × Bool) :=
  (if (r.ficha b).status = .server then exitDownlinks r.client.length b r else some r).map
    fun r ↦ (r.exitOneClient b, decide (cptr = b))

end Red

/-! ## One client -/

section

variable {r : Red ι} {s : Servidor ι} {b x : ι} {k : ℕ}

/-- One client is taken out. -/
theorem fuera_singleton : fuera {b} x = (x != b) := by
  cases h : x != b with
  | true => exact fuera_iff.mpr (bne_iff_ne.mp h)
  | false => exact fuera_eq_false.mpr (by simpa using h)

omit [DecidableEq ι] in
/-- An entry for another client stays. -/
theorem filter_fuera_of_ne {o : Option ι} (h : o ≠ some b) : o.filter (fuera {b}) = o := by
  cases o with
  | none => rfl
  | some u =>
      refine Option.filter_some_pos (fuera_iff.mpr ?_)
      rintro rfl
      exact h rfl

omit [DecidableEq ι] in
/-- A `client_list` that does not have the client stays. -/
theorem Servidor.clientList_podado (hueco : ∀ i, s.hueco i ≠ some b) :
    (s.podado {b}).clientList = s.clientList := by
  unfold podado
  unfold Servidor.hueco at hueco
  cases hlist : s.clientList with
  | none => rfl
  | some l =>
      rw [hlist] at hueco
      exact congrArg some (funext fun i ↦ filter_fuera_of_ne (hueco i))

/-- A server that has lost a down-link. -/
theorem Servidor.podado_down (h : s.down.Nodup) (hueco : ∀ i, s.hueco i ≠ some b) :
    s.podado {b} = { s with down := s.down.erase b } := by
  have hlist := clientList_podado hueco
  have hdown : s.down.filter (fuera {b}) = s.down.erase b := by
    rw [h.erase_eq_filter]
    exact List.filter_congr fun x _ ↦ fuera_singleton
  show ({ s with
    down := s.down.filter (fuera {b})
    clientList := (s.podado {b}).clientList } : Servidor ι) = _
  rw [hdown, hlist]

/-- A server that does not know the client stays. -/
theorem Servidor.podado_eq (h : b ∉ s.down) (hueco : ∀ i, s.hueco i ≠ some b) :
    s.podado {b} = s := by
  have hlist := clientList_podado hueco
  have hdown : s.down.filter (fuera {b}) = s.down := by
    rw [List.filter_eq_self]
    rintro x hx
    rw [fuera_singleton, bne_iff_ne]
    rintro rfl
    exact h hx
  show ({ s with
    down := s.down.filter (fuera {b})
    clientList := (s.podado {b}).clientList } : Servidor ι) = _
  rw [hdown, hlist]

/-- A server whose entry for the client is emptied. -/
theorem Servidor.podado_pon (h : b ∉ s.down) (hueco : ∀ i, s.hueco i = some b ↔ i = k) :
    s.podado {b} = s.pon k none := by
  -- behind the entry that goes there is no other one
  have hpon : ∀ i, (s.pon k none).hueco i ≠ some b := by
    unfold Servidor.hueco pon at *
    cases hlist : s.clientList with
    | none => simp
    | some l =>
        simp only [hlist, Option.bind_some, Option.map_some] at hueco ⊢
        intro i hi
        rw [Function.update_apply] at hi
        split at hi
        · cases hi
        · next hne => exact hne ((hueco i).mp hi)
  have hsame : s.podado {b} = (s.pon k none).podado {b} := by
    unfold podado pon
    cases hlist : s.clientList with
    | none => rfl
    | some l =>
        unfold Servidor.hueco at hueco
        simp only [hlist, Option.bind_some] at hueco
        simp only [Option.map_some]
        congr 2
        funext i
        rw [Function.update_apply]
        split
        · next hi =>
            rw [(hueco i).mpr hi]
            exact Option.filter_some_neg (fuera_eq_false.mpr rfl)
        · rfl
  rw [hsame]
  exact podado_eq h hpon

end

section

variable {r : Red ι} {b p s x : ι}

/-- The numerics of servers, also those of servers without `client_list`. -/
theorem Red.Bien.clearServerYXX (h : r.Bien) (b : ι) :
    (if (r.ficha b).serv.clientList.isSome then r.clearServerYXX b else r) =
      { r with serverList := fun i ↦ (r.serverList i).filter (fuera {b}) } := by
  have hotros (i : ℕ) (hi : r.serverList i ≠ some b) :
      (r.serverList i).filter (fuera {b}) = r.serverList i := filter_fuera_of_ne hi
  have hnada (hno : ∀ i, r.serverList i ≠ some b) :
      r = { r with serverList := fun i ↦ (r.serverList i).filter (fuera {b}) } :=
    Red.ext rfl rfl rfl (funext fun i ↦ (hotros i (hno i)).symm) rfl rfl rfl rfl
  split
  · unfold Red.clearServerYXX
    dsimp only
    split
    · next hindex =>
        refine Red.ext rfl rfl rfl (funext fun i ↦ ?_) rfl rfl rfl rfl
        dsimp only
        rw [Function.update_apply]
        split
        · next hi =>
            rw [hi, hindex]
            exact (Option.filter_some_neg (fuera_eq_false.mpr rfl)).symm
        · next hi => exact (hotros i fun hb ↦ hi (h.serverList i b hb).1).symm
    · next hindex =>
        refine hnada fun i hi ↦ hindex ?_
        rwa [← (h.serverList i b hi).1]
  · next hlist => exact hnada fun i hi ↦ hlist (h.clientList b (h.serverList i b hi).2.1)

/-- `remove_client_from_list` ends what has been undone in the tables before. -/
theorem Red.removeClientFromList_eq {f : ι → Cliente ι} (hnodup : r.client.Nodup)
    (hf : ∀ x, x ≠ b → f x = { r.ficha x with serv := (r.ficha x).serv.podado {b} }) :
    ({ r with
      ficha := f
      serverList := fun i ↦ (r.serverList i).filter (fuera {b}) } : Red ι).removeClientFromList b =
      r.podada {b} := by
  refine Red.ext rfl ?_ (funext fun x ↦ ?_) rfl rfl rfl rfl rfl
  · show r.client.erase b = r.client.filter _
    rw [hnodup.erase_eq_filter]
    exact List.filter_congr fun x _ ↦ fuera_singleton.symm
  · by_cases hx : x = b
    · rw [ficha_podada_of_mem (Set.mem_singleton_iff.mpr hx), hx]
      exact Function.update_self ..
    · rw [ficha_podada (Set.notMem_singleton_iff.mpr hx), ← hf x hx]
      exact Function.update_of_ne hx ..

/-- The block of a client that does not know `b`. -/
theorem Red.ficha_eq_podado (hdown : b ∉ (r.ficha x).serv.down)
    (hueco : ∀ i, (r.ficha x).serv.hueco i ≠ some b) :
    r.ficha x = { r.ficha x with serv := (r.ficha x).serv.podado {b} } := by
  rw [Servidor.podado_eq hdown hueco]

/-- A user leaves the `client_list` of its server. -/
theorem Red.Bien.quitaUser (h : r.Bien) (huser : (r.ficha b).user = some s) :
    (({ r with serverList := fun i ↦ (r.serverList i).filter (fuera {b}) } : Red ι).removeYXXClient
      s (r.ficha b).yxx).removeClientFromList b = r.podada {b} := by
  have hdown (x : ι) : b ∉ (r.ficha x).serv.down :=
    fun hb ↦ (h.user b s huser).1 ((h.mem_down x b).mp hb).1
  unfold removeYXXClient
  split
  · next hyxx =>
      refine removeClientFromList_eq h.nodup fun x _ ↦ ficha_eq_podado (hdown x) fun i hi ↦ ?_
      exact ((h.hueco x i b).mp hi).2.1 hyxx
  · next hyxx =>
      refine removeClientFromList_eq h.nodup fun x _ ↦ ?_
      dsimp only
      rw [Function.update_apply]
      split
      · next hx =>
          rw [hx, Servidor.podado_pon (hdown s) fun i ↦ ?_]
          rw [h.hueco s i b]
          exact ⟨fun hi ↦ hi.2.2, fun hi ↦ ⟨huser, hyxx, hi⟩⟩
      · next hx =>
          refine ficha_eq_podado (hdown x) fun i hi ↦ hx ?_
          exact Option.some.inj (((h.hueco x i b).mp hi).1.symm.trans huser)

/-- A server leaves the list of the server in front of it. -/
theorem Red.Bien.quitaServer (h : r.Bien) (hserver : (r.ficha b).status = .server)
    (hup : (r.ficha b).serv.up = some p) :
    (({ r with serverList := fun i ↦ (r.serverList i).filter (fuera {b}) } : Red ι).removeDlink
      p b).removeClientFromList b = r.podada {b} := by
  have hueco (x : ι) (i : ℕ) : (r.ficha x).serv.hueco i ≠ some b := fun hi ↦ by
    rw [h.hueco, h.user_eq_none hserver] at hi
    cases hi.1
  refine removeClientFromList_eq h.nodup fun x _ ↦ ?_
  dsimp only
  rw [Function.update_apply]
  split
  · next hx => rw [hx, Servidor.podado_down (h.down_nodup p) (hueco p)]
  · next hx =>
      refine ficha_eq_podado (fun hb ↦ hx ?_) (hueco x)
      exact Option.some.inj (((h.mem_down x b).mp hb).2.symm.trans hup)

/-- One client leaves. -/
theorem Red.Bien.exitOneClient (h : r.Bien) (hme : b ≠ r.me) : r.exitOneClient b = r.podada {b} := by
  have hstatus : (r.ficha b).status ≠ .me := fun hb ↦ hme ((h.status_me b).mp hb)
  unfold Red.exitOneClient
  dsimp only
  rw [h.clearServerYXX b, if_neg hstatus]
  cases huser : (r.ficha b).user with
  | some s =>
      dsimp only
      split
      · next hserver _ => exact absurd hserver (h.user b s huser).1
      · exact h.quitaUser huser
  | none =>
      dsimp only
      have hueco (x : ι) (i : ℕ) : (r.ficha x).serv.hueco i ≠ some b := fun hi ↦ by
        rw [h.hueco, huser] at hi
        cases hi.1
      split
      · next hserver hup => exact h.quitaServer hserver hup
      · next hno =>
          refine removeClientFromList_eq h.nodup fun x _ ↦ ficha_eq_podado (fun hb ↦ ?_) (hueco x)
          obtain ⟨hserver, hup⟩ := (h.mem_down x b).mp hb
          exact hno x hserver hup

/-! ## What hangs from a client -/

omit [DecidableEq ι] in
/-- This server hangs from nobody. -/
theorem Red.Bien.padre_me (h : r.Bien) : r.padre r.me = none := by
  have hme := (h.status_me r.me).mpr rfl
  unfold padre
  cases huser : (r.ficha r.me).user with
  | some s => exact absurd rfl (h.user _ s huser).2
  | none => simp [hme]

omit [DecidableEq ι] in
/-- Who hangs from a server is not this one. -/
theorem Red.Bien.ne_me (h : r.Bien) (hx : r.padre x = some p) : x ≠ r.me := by
  rintro rfl
  rw [h.padre_me] at hx
  cases hx

omit [DecidableEq ι] in
/-- This server is below no other one. -/
theorem Red.Bien.not_below_me (h : r.Bien) (hb : b ≠ r.me) : ¬ Forest.Below r.padre b r.me := by
  intro hbelow
  cases hbelow with
  | refl => exact hb rfl
  | step hx _ => exact h.ne_me hx rfl

omit [DecidableEq ι] in
/-- Nothing hangs from a user. -/
theorem Red.Bien.padre_ne_user (h : r.Bien) (hb : (r.ficha b).user = some s) (x : ι) :
    r.padre x ≠ some b := by
  intro hx
  obtain ⟨hserver, hme⟩ := h.user b s hb
  exact (h.padre_server x b hx).elim hserver hme

/-- Who hangs from a server stands before it in the list. -/
theorem Red.Bien.ranked (h : r.Bien) : Forest.Ranked r.padre r.client.idxOf :=
  h.listed.ranked h.nodup fun _ ↦ h.padre_eq_none

omit [DecidableEq ι] in
/-- What hangs from a client leaves. -/
theorem Red.Bien.podada_below (h : r.Bien) (hb : b ≠ r.me) :
    (r.podada {x | Forest.Below r.padre b x}).Bien :=
  h.podada (Forest.closed_below r.padre b) (h.not_below_me hb)

/-- The users at some indices leave. -/
theorem Red.Bien.exitUsers (h : r.Bien) (s : ι) (is : List ℕ) :
    exitUsers s is r = r.podada {u | ∃ i ∈ is, (r.ficha s).serv.hueco i = some u} := by
  induction is generalizing r with
  | nil =>
      have hempty : {u | ∃ i ∈ ([] : List ℕ), (r.ficha s).serv.hueco i = some u} = ∅ := by
        simp
      rw [hempty, podada_empty]
      rfl
  | cons i is ih =>
      rw [Red.exitUsers]
      cases hi : (r.ficha s).serv.hueco i with
      | none =>
          dsimp only
          rw [ih h]
          simp [hi]
      | some u =>
          have huser := ((h.hueco s i u).mp hi).1
          have hsolo := h.padre_ne_user huser
          have hs : s ∉ ({u} : Set ι) := by
            intro hs
            exact hsolo u ((padre_of_user huser).trans (congrArg some hs))
          dsimp only
          rw [h.exitOneClient (h.user u s huser).2]
          have hpoda := h.podada (Forest.closed_singleton hsolo) (h.user u s huser).2.symm
          rw [ih hpoda, podada_podada, ficha_podada hs]
          congr 1
          ext v
          simp only [Servidor.hueco_podado]
          by_cases hv : v = u
          · simp [hv, hi]
          · have hne : u ≠ v := fun huv ↦ hv huv.symm
            simp [hv, hne, hi]

/-- A client leaves with what hangs from it. -/
theorem Red.Bien.exit_below (h : r.Bien) (hb : b ≠ r.me) :
    (r.podada {x | x ≠ b ∧ Forest.Below r.padre b x}).exitOneClient b =
      r.podada {x | Forest.Below r.padre b x} := by
  have hclosed : Forest.Closed r.padre {x | x ≠ b ∧ Forest.Below r.padre b x} := by
    rintro x p hx ⟨_, hp⟩
    refine ⟨?_, Forest.Below.step hx hp⟩
    rintro rfl
    exact h.ranked.not_below_child hx hp
  have hpoda := h.podada hclosed fun hme ↦ h.not_below_me hb hme.2
  rw [hpoda.exitOneClient hb, podada_podada]
  congr 1
  ext x
  by_cases hx : x = b
  · simp [hx, Forest.Below.refl]
  · simp [hx]

omit [DecidableEq ι] in
/-- What hangs from a server is behind its downlinks or in its `client_list`. -/
theorem Red.Bien.hangs_iff (h : r.Bien) (hb : b ≠ r.me) :
    x ≠ b ∧ Forest.Below r.padre b x ↔
      (∃ c ∈ (r.ficha b).serv.down, Forest.Below r.padre c x) ∨
        ∃ i ∈ List.range ((r.ficha b).serv.nnMask + 1), (r.ficha b).serv.hueco i = some x := by
  classical
  have hchild {c : ι} (hc : r.padre c = some b) (hx : Forest.Below r.padre c x) :
      x ≠ b ∧ Forest.Below r.padre b x := by
    refine ⟨?_, (Forest.Below.step hc .refl).trans hx⟩
    rintro rfl
    exact h.ranked.not_below_child hc hx
  constructor
  · rintro ⟨hne, hx⟩
    obtain ⟨c, hc, hcx⟩ := (Forest.below_iff.mp hx).resolve_left hne
    cases huser : (r.ficha c).user with
    | some s =>
        obtain rfl : s = b := Option.some.inj ((padre_of_user huser).symm.trans hc)
        have hself : x ∈ ({c} : Set ι) := by
          rw [← Forest.below_of_no_child (h.padre_ne_user huser)]
          exact hcx
        have hindice := Nat.lt_succ_of_le
          (indice_le (r.ficha s).serv.nnMask (r.ficha c).yxx)
        rw [Set.mem_singleton_iff.mp hself]
        exact .inr ⟨_, List.mem_range.mpr hindice,
          (h.hueco s _ c).mpr ⟨huser, h.yxx c s huser hb, rfl⟩⟩
    | none =>
        refine .inl ⟨c, (h.mem_down b c).mpr ?_, hcx⟩
        unfold padre at hc
        rw [huser] at hc
        dsimp only at hc
        split at hc
        · next hserver => exact ⟨hserver, hc⟩
        · cases hc
  · rintro (⟨c, hc, hx⟩ | ⟨i, _, hi⟩)
    · obtain ⟨hserver, hup⟩ := (h.mem_down b c).mp hc
      exact hchild ((h.padre_of_up hserver).trans hup) hx
    · exact hchild (padre_of_user ((h.hueco b i x).mp hi).1) .refl

/-- The downlinks of a list leave, when the ones further down can be left. -/
theorem Red.Bien.foldlM_downlinks {fuel : ℕ} {l : List ι} (h : r.Bien)
    (hl : ∀ c ∈ l, r.padre c = some b) (hnodup : l.Nodup)
    (hfuel : ∀ c ∈ l, ∀ r' : Red ι, r'.Bien → (∀ x p, r'.padre x = some p → r.padre x = some p) →
      c ≠ r'.me →
      exitDownlinks fuel c r' = some (r'.podada {x | x ≠ c ∧ Forest.Below r'.padre c x})) :
    l.foldlM (fun r c ↦ (exitDownlinks fuel c r).map fun r ↦ r.exitOneClient c) r =
      some (r.podada {x | ∃ c ∈ l, Forest.Below r.padre c x}) := by
  induction l generalizing r with
  | nil =>
      have hempty : {x | ∃ c ∈ ([] : List ι), Forest.Below r.padre c x} = ∅ := by simp
      rw [hempty, podada_empty]
      rfl
  | cons c l ih =>
      obtain ⟨hc, hnodup⟩ := List.nodup_cons.mp hnodup
      have hpadre := hl c List.mem_cons_self
      have hme := h.ne_me hpadre
      have hdown := hfuel c List.mem_cons_self r h (fun _ _ ↦ id) hme
      rw [List.foldlM_cons, hdown]
      show l.foldlM _ ((r.podada {x | x ≠ c ∧ Forest.Below r.padre c x}).exitOneClient c) = _
      rw [h.exit_below hme]
      -- the other downlinks hang side by side with `c`
      have hl' : ∀ d ∈ l, (r.podada {x | Forest.Below r.padre c x}).padre d = some b := by
        intro d hd
        have hdpadre := hl d (List.mem_cons_of_mem _ hd)
        rw [padre_podada, Forest.cut_eq_some]
        refine ⟨h.ranked.not_below_sibling hpadre hdpadre ?_, hdpadre⟩
        rintro rfl
        exact hc hd
      rw [ih (h.podada_below hme) hl' hnodup ?_, podada_podada]
      · rw [padre_podada, Forest.union_exists_below_cut (Forest.closed_below _ _)]
        congr 2
        ext x
        simp
      · intro d hd r' hr' hsub
        refine hfuel d (List.mem_cons_of_mem _ hd) r' hr' fun x p hx ↦ ?_
        have hx := hsub x p hx
        rw [padre_podada] at hx
        exact (Forest.cut_eq_some.mp hx).2

/-- `exit_downlinks` comes to its end and takes out what hangs from a server. -/
theorem Red.Bien.exitDownlinks {rank : ι → ℕ} {fuel : ℕ} (h : r.Bien)
    (hrank : Forest.Ranked r.padre rank) (hfuel : rank b < fuel) (hme : b ≠ r.me) :
    exitDownlinks fuel b r = some (r.podada {x | x ≠ b ∧ Forest.Below r.padre b x}) := by
  induction fuel generalizing r b with
  | zero => cases hfuel
  | succ fuel ih =>
      have hpadre : ∀ c ∈ (r.ficha b).serv.down, r.padre c = some b := by
        intro c hc
        obtain ⟨hserver, hup⟩ := (h.mem_down b c).mp hc
        exact (h.padre_of_up hserver).trans hup
      have hfold := h.foldlM_downlinks hpadre (h.down_nodup b) fun c hc r' hr' hsub hc' ↦
        ih hr' (fun x p hx ↦ hrank x p (hsub x p hx))
          (Nat.lt_of_lt_of_le (hrank c b (hpadre c hc)) (Nat.lt_succ_iff.mp hfuel)) hc'
      have hclosed : Forest.Closed r.padre
          {x | ∃ c ∈ (r.ficha b).serv.down, Forest.Below r.padre c x} :=
        fun x p hx ⟨c, hc, hp⟩ ↦ ⟨c, hc, Forest.Below.step hx hp⟩
      have hb : b ∉ {x | ∃ c ∈ (r.ficha b).serv.down, Forest.Below r.padre c x} :=
        fun ⟨c, hc, hbelow⟩ ↦ hrank.not_below_child (hpadre c hc) hbelow
      have hpoda := h.podada hclosed fun ⟨c, hc, hbelow⟩ ↦
        h.not_below_me (h.ne_me (hpadre c hc)) hbelow
      rw [Red.exitDownlinks, hfold]
      show some (Red.exitUsers b _ _) = _
      rw [hpoda.exitUsers, podada_podada, ficha_podada hb]
      congr 2
      ext x
      rw [Set.mem_ofPred_eq, h.hangs_iff hme]
      show (∃ c ∈ _, _) ∨ (∃ i ∈ _, _) ↔ _
      by_cases hx : ∃ c ∈ (r.ficha b).serv.down, Forest.Below r.padre c x
      · exact iff_of_true (.inl hx) (.inl hx)
      · rw [or_iff_right hx, or_iff_right hx]
        simp only [Servidor.hueco_podado]
        exact exists_congr fun i ↦ and_congr_right' (and_iff_left hx)

/-- `exit_client` comes to its end and takes out the client and what hangs from it. -/
theorem Red.Bien.exitClient (h : r.Bien) (cptr : ι) (hb : b ∈ r.client) (hme : b ≠ r.me) :
    r.exitClient cptr b =
      some (r.podada {x | Forest.Below r.padre b x}, decide (cptr = b)) := by
  unfold Red.exitClient
  split
  · have hfuel : r.client.idxOf b < r.client.length := List.idxOf_lt_length_iff.mpr hb
    rw [h.exitDownlinks h.ranked hfuel hme, Option.map_some, h.exit_below hme]
  · next hserver =>
      have hsolo (x : ι) : r.padre x ≠ some b := fun hx ↦
        (h.padre_server x b hx).elim hserver hme
      rw [Option.map_some, h.exitOneClient hme, Forest.below_of_no_child hsolo]

end

end Ircd.Net
