import Ircd.Channel.Bans
import Ircd.Mask.Subsume

/-!
# Bans that do not overlap

`add_banid` and `del_banid` of `ircd/channel.c` on the masks that `pretty_mask` makes, with the list
`removed_bans_list` that the bans are moved to which a new one covers. The main theorem,
`vetos_run`, says that no ban of a list covers another one, and that a ban that is refused leaves
both lists as they were: the bans that a refused one covers would be covered by the one that refuses
it.
-/

namespace Ircd.Channel

open CString Hash Match
open Wildcard (Token)

/-! ## `pretty_mask` -/

/-- A user name or a host that is too long is cut off at its start. -/
def recorta (n : Nat) (s : CStr) : CStr :=
  if n < s.length then '*' :: s.drop (s.length - n + 1) else s

/-- The user name and the host, which is behind the last `@`. -/
def partesHost (s : CStr) : CStr × CStr :=
  match trasUltimo '@' s with
  | some host => (s.take (s.length - host.length - 1), host)
  | none => (s, ['*'])

/-- `pretty_mask`. -/
def prettyMask (mask : CStr) : CStr :=
  let nick := mask.takeWhile fun c ↦ c ≠ '!' ∧ c ≠ '@'
  match mask.dropWhile fun c ↦ c ≠ '!' ∧ c ≠ '@' with
  | '!' :: resto =>
      let (user, host) := partesHost resto
      makeNickUserHost (nick.take NICKLEN) (recorta USERLEN user) (recorta HOSTLEN host)
  | _ :: _ =>
      let (user, host) := partesHost mask
      makeNickUserHost ['*'] (recorta USERLEN user) (recorta HOSTLEN host)
  | [] =>
      if mask.any fun c ↦ c = '.' ∨ c = ':' then
        makeNickUserHost ['*'] ['*'] (recorta HOSTLEN mask)
      else makeNickUserHost (nick.take NICKLEN) ['*'] ['*']

example : prettyMask "ana@red@es".toList = "*!ana@red@es".toList := by decide

/-! ## The lists -/

variable {κ : Type}

/-- A channel, and the variables that `add_banid` shares with `next_removed_overlapped_ban`. -/
structure Vetos (κ : Type) where
  chptr : Canal κ
  removedBansList : List Ban
  prevBan : Option Ban

/-- `add_banid` with `change`: the return value and the lists. `none` is `MyCoreDump`, for bans that
an earlier order has left. -/
def Vetos.addBanid (v : Vetos κ) (now : Int) (cptr : Autor) (banid : CStr) (firsttime : Bool) :
    Option (Int × Vetos κ) :=
  if firsttime ∧ (v.prevBan ≠ none ∨ v.removedBansList ≠ []) then none
  else
    let (ret, chptr, removed) := Channel.addBanid now cptr banid true firsttime v.chptr
    some (ret, { v with chptr, removedBansList := removed ++ v.removedBansList })

/-- `next_removed_overlapped_ban`. -/
def Vetos.nextRemovedOverlappedBan (v : Vetos κ) : Vetos κ :=
  { v with removedBansList := v.removedBansList.tail, prevBan := v.removedBansList.head? }

/-- A call, with the mask of a `MODE` command. -/
inductive Vetos.Llamada where
  | addBanid (now : Int) (cptr : Autor) (mask : CStr) (firsttime : Bool)
  | delBanid (mask : CStr)
  | nextRemovedOverlappedBan

/-- The mask of a call. -/
def Vetos.Llamada.mask : Vetos.Llamada → CStr
  | .addBanid _ _ mask _ => mask
  | .delBanid mask => mask
  | .nextRemovedOverlappedBan => []

/-- The lists after a call. Behind `MyCoreDump` nothing changes any more. -/
def Vetos.Llamada.aplica (l : Vetos.Llamada) (v : Vetos κ) : Vetos κ :=
  match l with
  | .addBanid now cptr mask firsttime =>
      ((v.addBanid now cptr (prettyMask mask) firsttime).map (·.2)).getD v
  | .delBanid mask => { v with chptr := (Channel.delBanid (prettyMask mask) true v.chptr).2 }
  | .nextRemovedOverlappedBan => v.nextRemovedOverlappedBan

/-- No ban of a list covers another one. -/
def SinSolapes (bs : List Ban) : Prop :=
  bs.Pairwise fun b b' ↦ mmatch b.banstr b'.banstr = false ∧ mmatch b'.banstr b.banstr = false

/-- A ban as `add_banid` puts it on the list: a text with a literal, without the marks of other
calls. -/
structure Ban.Puesto (b : Ban) : Prop where
  nul : nul ∉ b.banstr
  lit : ∃ d, .lit d ∈ tokens b.banstr
  wipeout : .burstBanWipeout ∉ b.flags
  overlapped : .banOverlapped ∉ b.flags

/-! ## The masks of `pretty_mask` -/

variable {s : CStr} {mask : CStr} {cptr : Autor}

/-- A character that is not special is a literal of its mask. -/
theorem lit_mem_tokens {c : Char} (hwild : isWild c = false) (hslash : c ≠ '\\') (h : c ∈ s) :
    .lit c ∈ tokens s := by
  induction s using mask_induction with
  | nil => cases h
  | star m ih =>
      have hne : c ≠ '*' := fun heq ↦ absurd hwild (by rw [heq]; decide)
      exact List.mem_cons_of_mem _ (ih ((List.mem_cons.mp h).resolve_left hne))
  | quest m ih =>
      have hne : c ≠ '?' := fun heq ↦ absurd hwild (by rw [heq]; decide)
      exact List.mem_cons_of_mem _ (ih ((List.mem_cons.mp h).resolve_left hne))
  | lit m d r hlit ih =>
      rw [hlit.tokens_eq, List.mem_cons]
      cases hlit with
      | escape hd =>
          rcases List.mem_cons.mp ((List.mem_cons.mp h).resolve_left hslash) with rfl | h
          · exact .inl rfl
          · exact .inr (ih h)
      | plain hd hr =>
          rcases List.mem_cons.mp h with rfl | h
          · exact .inl rfl
          · exact .inr (ih h)

/-- Collapsing a mask moves and takes away only stars. -/
theorem mem_collapseFrom {c : Char} (hc : c ≠ '*') (star : Bool) :
    c ∈ collapseFrom star s ↔ c ∈ s := by
  induction s using mask_induction generalizing star with
  | nil => cases star <;> simp [collapseFrom, hc]
  | star m ih => simpa [collapseFrom, hc] using ih true
  | quest m ih => simp [collapseFrom, ih star]
  | lit m d r hlit ih =>
      have hfalse : c ∈ collapseFrom false m ↔ c ∈ m := by
        cases hlit with
        | escape hd => simp [collapseFrom, hd, ih false]
        | plain hd hr => simp [collapseFrom_plain hd hr, ih false]
      cases star with
      | false => exact hfalse
      | true =>
          rw [hlit.collapseFrom_true, List.mem_cons, or_iff_right hc]
          exact hfalse

/-- What is left of a ban of a local user. -/
theorem mem_preparado {c : Char} (hc : c ≠ '*') (hcontrol : 32 ≤ c.toNat) :
    c ∈ preparado cptr s ↔ c ∈ s := by
  rw [preparado]
  split
  · rw [collapse_eq, mem_collapseFrom hc, fixString, List.mem_filter]
    simp [hcontrol]
  · exact Iff.rfl

theorem nul_not_mem_preparado (h : nul ∉ s) : nul ∉ preparado cptr s := by
  rw [preparado]
  split
  · rw [collapse_eq, mem_collapseFrom (by decide), fixString, List.mem_filter]
    exact fun h ↦ absurd h.2 (by decide)
  · exact h

theorem mem_recorta {c : Char} {n : Nat} (h : c ∈ recorta n s) : c = '*' ∨ c ∈ s := by
  rw [recorta] at h
  split at h
  · exact (List.mem_cons.mp h).imp_right List.mem_of_mem_drop
  · exact .inr h

theorem mem_partesHost {c : Char} (h : c ∈ (partesHost s).1 ∨ c ∈ (partesHost s).2) :
    c = '*' ∨ c ∈ s := by
  have hlast : ∀ host, trasUltimo '@' s = some host → ∀ d ∈ host, d ∈ s := by
    intro host hhost d hd
    rw [trasUltimo] at hhost
    split at hhost
    · rw [← Option.some.inj hhost] at hd
      exact List.mem_reverse.mp ((List.takeWhile_prefix _).subset (List.mem_reverse.mp hd))
    · cases hhost
  rw [partesHost] at h
  split at h
  · next host hhost =>
      rcases h with h | h
      · exact .inr (List.mem_of_mem_take h)
      · exact .inr (hlast host hhost c h)
  · rcases h with h | h
    · exact .inr h
    · exact .inl (List.mem_singleton.mp h)

theorem mem_makeNickUserHost {c : Char} {nick name host : CStr}
    (h : c ∈ makeNickUserHost nick name host) :
    c = '!' ∨ c = '@' ∨ c ∈ nick ∨ c ∈ name ∨ c ∈ host := by
  simp only [makeNickUserHost, List.mem_append, List.mem_cons] at h
  tauto

/-- The user name and the host that are taken from a part of the mask. -/
theorem mem_recorta_partesHost {c : Char} {n n' : Nat}
    (h : c ∈ recorta n (partesHost s).1 ∨ c ∈ recorta n' (partesHost s).2) : c = '*' ∨ c ∈ s := by
  rcases h with h | h
  · exact (mem_recorta h).elim .inl fun h ↦ mem_partesHost (.inl h)
  · exact (mem_recorta h).elim .inl fun h ↦ mem_partesHost (.inr h)

/-- The characters of a ban are those of the mask and the signs between its parts. -/
theorem mem_prettyMask {c : Char} (h : c ∈ prettyMask mask) :
    c = '!' ∨ c = '@' ∨ c = '*' ∨ c ∈ mask := by
  have hnick : ∀ n, c ∈ (mask.takeWhile fun c ↦ c ≠ '!' ∧ c ≠ '@').take n → c ∈ mask :=
    fun n h ↦ (List.takeWhile_prefix _).subset (List.mem_of_mem_take h)
  rw [prettyMask] at h
  dsimp only at h
  split at h
  · next resto hresto =>
      have hsub : ∀ d ∈ resto, d ∈ mask := fun d hd ↦
        (List.dropWhile_suffix _).subset (by rw [hresto]; exact List.mem_cons_of_mem _ hd)
      rcases mem_makeNickUserHost h with h | h | h | h
      · exact .inl h
      · exact .inr (.inl h)
      · exact .inr (.inr (.inr (hnick _ h)))
      · exact .inr (.inr ((mem_recorta_partesHost h).imp_right (hsub c)))
  · rcases mem_makeNickUserHost h with h | h | h | h
    · exact .inl h
    · exact .inr (.inl h)
    · exact .inr (.inr (.inl (List.mem_singleton.mp h)))
    · exact .inr (.inr (mem_recorta_partesHost h))
  · split at h
    · rcases mem_makeNickUserHost h with h | h | h | h | h
      · exact .inl h
      · exact .inr (.inl h)
      · exact .inr (.inr (.inl (List.mem_singleton.mp h)))
      · exact .inr (.inr (.inl (List.mem_singleton.mp h)))
      · exact .inr (.inr (mem_recorta h))
    · rcases mem_makeNickUserHost h with h | h | h | h | h
      · exact .inl h
      · exact .inr (.inl h)
      · exact .inr (.inr (.inr (hnick _ h)))
      · exact .inr (.inr (.inl (List.mem_singleton.mp h)))
      · exact .inr (.inr (.inl (List.mem_singleton.mp h)))

theorem mark_mem_prettyMask (mask : CStr) : '!' ∈ prettyMask mask := by
  have hmake : ∀ a b c, '!' ∈ makeNickUserHost a b c := fun a b c ↦ by simp [makeNickUserHost]
  rw [prettyMask]
  dsimp only
  split
  · exact hmake _ _ _
  · exact hmake _ _ _
  · split <;> exact hmake _ _ _

/-- A ban of `pretty_mask` has no terminator inside, and a literal. -/
theorem preparado_prettyMask (cptr : Autor) (hmask : nul ∉ mask) :
    nul ∉ preparado cptr (prettyMask mask) ∧
      ∃ d, .lit d ∈ tokens (preparado cptr (prettyMask mask)) := by
  refine ⟨nul_not_mem_preparado fun h ↦ ?_, '!', lit_mem_tokens (by decide) (by decide) ?_⟩
  · rcases mem_prettyMask h with h | h | h | h
    · exact absurd h (by decide)
    · exact absurd h (by decide)
    · exact absurd h (by decide)
    · exact hmask h
  · exact (mem_preparado (by decide) (by decide)).mpr (mark_mem_prettyMask mask)

/-! ## The loop of `add_banid` -/

variable {banid : CStr} {myUser firsttime : Bool} {bs : List Ban} {cnt len : Nat}

/-- A ban without marks is kept as it is. -/
theorem Ban.Puesto.erase {b : Ban} (h : b.Puesto) :
    (if firsttime then { b with flags := b.flags.erase .banOverlapped } else b) = b := by
  rw [Finset.erase_eq_of_notMem h.overlapped]
  split <;> rfl

/-- One round of the loop, at a ban without marks. -/
theorem recorre_cons {b : Ban} (h : b.Puesto) :
    recorre myUser true firsttime banid (b :: bs) cnt len =
      if mmatch b.banstr banid then ⟨some (-1), b :: bs, [], cnt + 1, len + b.banstr.length⟩
      else if mmatch banid b.banstr then
        let r :=
          if myUser then recorre myUser true firsttime banid bs cnt len
          else recorre myUser true firsttime banid bs (cnt + 1) (len + b.banstr.length)
        { r with removed := b :: r.removed }
      else
        let r := recorre myUser true firsttime banid bs (cnt + 1) (len + b.banstr.length)
        { r with banlist := b :: r.banlist } := by
  rw [recorre]
  simp only [h.wipeout, false_and, if_false, not_false_eq_true, true_and, if_true, h.erase,
    Nat.add_sub_cancel]

/-- At a ban without marks the loop returns -1 or goes on. -/
theorem ret_recorre_of_puesto (hbs : ∀ b ∈ bs, b.Puesto) :
    (recorre myUser true firsttime banid bs cnt len).ret = none ∨
      (recorre myUser true firsttime banid bs cnt len).ret = some (-1) := by
  induction bs generalizing cnt len with
  | nil => exact .inl rfl
  | cons b bs ih =>
      have hrest : ∀ x ∈ bs, x.Puesto := fun x hx ↦ hbs x (List.mem_cons_of_mem _ hx)
      rw [recorre_cons (hbs b List.mem_cons_self)]
      split
      · exact .inr rfl
      split
      · cases myUser with
        | true => exact ih hrest
        | false => exact ih hrest
      · exact ih hrest

/-- On bans without marks the loop that comes to its end keeps those that the new one does not
cover. -/
theorem recorre_none (hbs : ∀ b ∈ bs, b.Puesto)
    (hret : (recorre myUser true firsttime banid bs cnt len).ret = none) :
    (recorre myUser true firsttime banid bs cnt len).banlist =
        bs.filter (fun b ↦ !mmatch banid b.banstr) ∧
      ∀ b ∈ bs, mmatch b.banstr banid = false := by
  induction bs generalizing cnt len with
  | nil => exact ⟨rfl, by simp⟩
  | cons b bs ih =>
      have hrest : ∀ x ∈ bs, x.Puesto := fun x hx ↦ hbs x (List.mem_cons_of_mem _ hx)
      rw [recorre_cons (hbs b List.mem_cons_self)] at hret ⊢
      cases hcubre : mmatch b.banstr banid with
      | true => simp [hcubre] at hret
      | false =>
          cases hcubierta : mmatch banid b.banstr with
          | true =>
              cases myUser with
              | true =>
                  simp only [hcubre, hcubierta, Bool.false_eq_true, if_false, if_true] at hret ⊢
                  obtain ⟨hlist, hall⟩ := ih hrest hret
                  exact ⟨by simp [hlist, hcubierta], by simpa [hcubre] using hall⟩
              | false =>
                  simp only [hcubre, hcubierta, Bool.false_eq_true, if_false, if_true] at hret ⊢
                  obtain ⟨hlist, hall⟩ := ih hrest hret
                  exact ⟨by simp [hlist, hcubierta], by simpa [hcubre] using hall⟩
          | false =>
              simp only [hcubre, hcubierta, Bool.false_eq_true, if_false] at hret ⊢
              obtain ⟨hlist, hall⟩ := ih hrest hret
              exact ⟨by simp [hlist, hcubierta], by simpa [hcubre] using hall⟩

/-- When no ban has been taken out, the loop leaves the list. -/
theorem recorre_removed (hbs : ∀ b ∈ bs, b.Puesto)
    (h : (recorre myUser true firsttime banid bs cnt len).removed = []) :
    (recorre myUser true firsttime banid bs cnt len).banlist = bs := by
  induction bs generalizing cnt len with
  | nil => rfl
  | cons b bs ih =>
      have hrest : ∀ x ∈ bs, x.Puesto := fun x hx ↦ hbs x (List.mem_cons_of_mem _ hx)
      rw [recorre_cons (hbs b List.mem_cons_self)] at h ⊢
      cases hcubre : mmatch b.banstr banid with
      | true => rfl
      | false =>
          cases hcubierta : mmatch banid b.banstr with
          | true => simp [hcubre, hcubierta] at h
          | false =>
              simp only [hcubre, hcubierta, Bool.false_eq_true, if_false] at h ⊢
              rw [ih hrest h]

/-! ## The calls -/

/-- What is true of the bans of a channel. -/
structure Ordenados (bs : List Ban) : Prop where
  puestos : ∀ b ∈ bs, b.Puesto
  sinSolapes : SinSolapes bs

variable {chptr : Canal κ} {now : Int} {v : Vetos κ}

/-- A ban that refuses a mask covers what the mask covers, and so nothing else in the list. -/
theorem Ordenados.removed_eq_nil (h : Ordenados bs) (hnul : nul ∉ banid)
    (hret : (recorre myUser true firsttime banid bs cnt len).ret ≠ none) :
    (recorre myUser true firsttime banid bs cnt len).removed = [] := by
  obtain ⟨pre, b, post, rfl, hb, hpre⟩ := ret_recorre hret
  refine removed_recorre hb fun x hx ↦ ?_
  have hbp := h.puestos b (List.mem_append_right _ List.mem_cons_self)
  have hxp := h.puestos x (List.mem_append_left _ hx)
  have hcubre : mmatch b.banstr banid = true :=
    (hb.resolve_left fun hwipe ↦ hbp.wipeout hwipe.1).2
  have hno : mmatch b.banstr x.banstr = false :=
    ((List.pairwise_append.mp h.sinSolapes).2.2 x hx b List.mem_cons_self).2
  by_contra hyes
  rw [Bool.not_eq_false] at hyes
  have htrans := mmatch_trans hbp.nul hnul hxp.nul hbp.lit hcubre hyes
  rw [hno] at htrans
  exact Bool.false_ne_true htrans

/-- What `add_banid` does: the list stays as it is, or the new ban is put in front of those that it
does not cover. -/
theorem Ordenados.addBanid_cases (h : Ordenados chptr.banlist) (now : Int) (cptr : Autor)
    (firsttime : Bool) (hmask : nul ∉ mask) :
    let r := Channel.addBanid now cptr (prettyMask mask) true firsttime chptr
    let banid := preparado cptr (prettyMask mask)
    (r.1 ≠ 0 ∧ r.2.1.banlist = chptr.banlist ∧ r.2.2 = []) ∨
      (r.1 = 0 ∧ (∀ b ∈ chptr.banlist, mmatch b.banstr banid = false) ∧
        r.2.1.banlist = ⟨banid, cptr.name, now, flagsBan banid⟩ ::
          chptr.banlist.filter fun b ↦ !mmatch banid b.banstr) := by
  obtain ⟨hnul, -⟩ := preparado_prettyMask cptr hmask
  simp only [Channel.addBanid]
  generalize hr : recorre cptr.myUser true firsttime (preparado cptr (prettyMask mask))
    chptr.banlist 0 (prettyMask mask).length = r
  have hkeep : r.removed = [] → r.banlist = chptr.banlist := fun hremoved ↦ by
    rw [← hr] at hremoved ⊢
    exact recorre_removed h.puestos hremoved
  cases hret : r.ret with
  | some ret =>
      have hsome : (recorre cptr.myUser true firsttime (preparado cptr (prettyMask mask))
          chptr.banlist 0 (prettyMask mask).length).ret ≠ none := by
        rw [hr, hret]
        simp
      have hremoved : r.removed = [] := hr ▸ h.removed_eq_nil hnul hsome
      have hnonzero : ret = -1 := by
        rcases ret_recorre_of_puesto h.puestos with hnone | hminus
        · exact absurd hnone hsome
        · rw [hr, hret] at hminus
          exact Option.some.inj hminus
      exact .inl ⟨fun hzero ↦ absurd (hnonzero.symm.trans hzero) (by decide), hkeep hremoved,
        by rw [hremoved]; rfl⟩
  | none =>
      dsimp only
      split
      · next hfull =>
          exact .inl ⟨Int.negSucc_ne_zero 0, hkeep hfull.2.2.1, by rw [hfull.2.2.1]; rfl⟩
      · obtain ⟨hlist, hall⟩ := recorre_none h.puestos (hr ▸ hret)
        rw [hr] at hlist
        exact .inr ⟨rfl, hall, by rw [← hlist]; rfl⟩

/-- A new ban. -/
theorem Ordenados.addBanid (h : Ordenados chptr.banlist) (hmask : nul ∉ mask) :
    Ordenados (Channel.addBanid now cptr (prettyMask mask) true firsttime chptr).2.1.banlist := by
  obtain ⟨-, hlist, -⟩ | ⟨-, hall, hlist⟩ := h.addBanid_cases now cptr firsttime hmask
  · rwa [hlist]
  · rw [hlist]
    obtain ⟨hnul, hlit⟩ := preparado_prettyMask cptr hmask
    constructor
    · intro b hb
      rcases List.mem_cons.mp hb with rfl | hb
      · refine ⟨hnul, hlit, ?_, ?_⟩
        · simp only [flagsBan]
          split <;> decide
        · simp only [flagsBan]
          split <;> decide
      · exact h.puestos b (List.mem_of_mem_filter hb)
    · refine List.pairwise_cons.mpr ⟨fun b hb ↦ ?_, h.sinSolapes.sublist List.filter_sublist⟩
      obtain ⟨hmem, hcubierta⟩ := List.mem_filter.mp hb
      exact ⟨by simpa using hcubierta, hall b hmem⟩

/-- A ban less. -/
theorem Ordenados.delBanid (h : Ordenados chptr.banlist) (banid : CStr) :
    Ordenados (Channel.delBanid banid true chptr).2.banlist := by
  rw [Channel.delBanid]
  split
  · exact ⟨fun b hb ↦ h.puestos b (List.mem_of_mem_eraseP hb),
      h.sinSolapes.sublist List.eraseP_sublist⟩
  · exact h

/-- A call. -/
theorem Ordenados.aplica (h : Ordenados v.chptr.banlist) {l : Vetos.Llamada} (hl : nul ∉ l.mask) :
    Ordenados (l.aplica v).chptr.banlist := by
  cases l with
  | addBanid now cptr mask firsttime =>
      rw [Vetos.Llamada.aplica, Vetos.addBanid]
      split
      · exact h
      · exact h.addBanid hl
  | delBanid mask => exact h.delBanid (prettyMask mask)
  | nextRemovedOverlappedBan => exact h

/-- A refusal leaves both lists. -/
theorem Ordenados.rechazo (h : Ordenados v.chptr.banlist) (hmask : nul ∉ mask) {ret : Int}
    {v' : Vetos κ} (hcall : v.addBanid now cptr (prettyMask mask) firsttime = some (ret, v'))
    (hret : ret ≠ 0) :
    v'.chptr.banlist = v.chptr.banlist ∧ v'.removedBansList = v.removedBansList := by
  have hcases := h.addBanid_cases now cptr firsttime hmask
  rw [Vetos.addBanid] at hcall
  generalize Channel.addBanid now cptr (prettyMask mask) true firsttime v.chptr = r at hcall hcases
  split at hcall
  · cases hcall
  · obtain ⟨rfl, rfl⟩ := Prod.mk.inj (Option.some.inj hcall)
    obtain ⟨-, hlist, hremoved⟩ | ⟨hzero, -⟩ := hcases
    · exact ⟨hlist, by rw [hremoved]; rfl⟩
    · exact absurd hzero hret

/-- In a channel that starts without bans no ban covers another one, and a ban that is refused
leaves the bans and the list of those that the command has removed so far. That list is empty in the
first call of a command. -/
theorem vetos_run (v : Vetos κ) (hempty : v.chptr.banlist = []) (ls : List Vetos.Llamada)
    (hls : ∀ l ∈ ls, nul ∉ l.mask) :
    let v' := Run.final Vetos.Llamada.aplica v ls
    SinSolapes v'.chptr.banlist ∧
      ∀ now cptr mask firsttime ret w, nul ∉ mask →
        v'.addBanid now cptr (prettyMask mask) firsttime = some (ret, w) → ret ≠ 0 →
        w.chptr.banlist = v'.chptr.banlist ∧ w.removedBansList = v'.removedBansList ∧
          (firsttime = true → w.removedBansList = []) := by
  have hsteps : Run.EveryStep Vetos.Llamada.aplica (fun l _ ↦ nul ∉ l.mask) v ls := by
    clear hempty
    induction ls generalizing v with
    | nil => trivial
    | cons l ls ih =>
        exact ⟨hls l List.mem_cons_self, ih _ fun x hx ↦ hls x (List.mem_cons_of_mem _ hx)⟩
  have hstart : Ordenados v.chptr.banlist := by
    rw [hempty]
    exact ⟨by simp, List.Pairwise.nil⟩
  have hfinal : Ordenados (Run.final Vetos.Llamada.aplica v ls).chptr.banlist :=
    Run.invariant_final (P := fun v ↦ Ordenados v.chptr.banlist)
      (fun l v h hl ↦ Ordenados.aplica h hl) hstart hsteps
  refine ⟨hfinal.sinSolapes, fun now cptr mask firsttime ret w hmask hcall hret ↦ ?_⟩
  obtain ⟨hlist, hremoved⟩ := hfinal.rechazo hmask hcall hret
  refine ⟨hlist, hremoved, fun hfirst ↦ ?_⟩
  rw [hremoved]
  rw [Vetos.addBanid] at hcall
  split at hcall
  · cases hcall
  · next hcore => exact not_not.mp fun hne ↦ hcore ⟨hfirst, .inr hne⟩

/-! ## Two commands -/

/-- A channel without bans. -/
def sinVetos : Vetos Unit :=
  ⟨unMiembro, [], none⟩

/-- One ban, and the masks of a command that sets two. -/
def dosMascaras : List Vetos.Llamada :=
  [.addBanid 0 hub "a!b@c.d".toList true, .addBanid 0 hub "*!*@c.d".toList true]

theorem vetos_run_dos :
    SinSolapes (Run.final Vetos.Llamada.aplica sinVetos dosMascaras).chptr.banlist :=
  (vetos_run sinVetos rfl dosMascaras (by decide)).1

/-- The second mask of a command is refused by the first one, which has removed a ban. -/
theorem removedBansList_ne_nil :
    ¬∀ (v : Vetos Unit) (ls : List Vetos.Llamada), v.chptr.banlist = [] → v.removedBansList = [] →
      (∀ l ∈ ls, nul ∉ l.mask) →
      ∀ now cptr mask firsttime ret w, nul ∉ mask →
        (Run.final Vetos.Llamada.aplica v ls).addBanid now cptr (prettyMask mask) firsttime =
          some (ret, w) →
        ret ≠ 0 → w.removedBansList = [] := by
  intro h
  have hrun := h sinVetos dosMascaras rfl rfl (by decide) 0 hub "x!*@c.d".toList false (-1)
  cases hcall : (Run.final Vetos.Llamada.aplica sinVetos dosMascaras).addBanid 0 hub
      (prettyMask "x!*@c.d".toList) false with
  | none => revert hcall; decide +kernel
  | some r =>
      have hret : ((Run.final Vetos.Llamada.aplica sinVetos dosMascaras).addBanid 0 hub
          (prettyMask "x!*@c.d".toList) false).map
            (fun r ↦ (r.1, r.2.removedBansList.length)) = some (-1, 1) := by decide +kernel
      rw [hcall] at hret
      obtain ⟨hminus, hlength⟩ := Prod.mk.inj (Option.some.inj hret)
      have hnil := hrun r.2 (by decide) (by rw [hcall, ← hminus]) (by decide)
      rw [hnil] at hlength
      cases hlength

end Ircd.Channel
