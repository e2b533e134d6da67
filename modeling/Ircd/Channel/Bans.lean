import Ircd.Channel.Canal
import Ircd.Hash.Table
import Ircd.Lib.Run
import Ircd.Mask.Cover
import Ircd.Mask.Plain

/-!
# Bans

`add_banid`, `del_banid` and `is_banned` of `ircd/channel.c`, with the verdict on a member that
`is_banned` leaves in `CHFL_BANVALID` and `CHFL_BANNED`. The main theorem, `vigente_run`, says that
the verdicts are right in every run whose steps are all `Correcto`: a ban that is refused has not
silently removed others before, no answer of `match` depends on what is behind a text in its
buffer, and no text with an address is longer than `make_nick_user_ip` has room for.
-/

namespace Ircd.Channel

open CString Hash Match

/-! ## Masks -/

/-- `fix_string`: control characters are left out. -/
def fixString (arg : CStr) : CStr :=
  arg.filter fun c ↦ 32 ≤ c.toNat

/-- `check_if_ipmask`. -/
def checkIfIpmask (mask : CStr) : Bool :=
  mask.all (fun c ↦ c = '*' ∨ c = '?' ∨ c = '.' ∨ c.isDigit) && mask.any (·.isDigit)

/-- `strrchr`: what is behind the last such character. -/
def trasUltimo (c : Char) (s : CStr) : Option CStr :=
  if c ∈ s then some (s.reverse.takeWhile (· ≠ c)).reverse else none

/-- The flags of a new ban. -/
def flagsBan (banid : CStr) : Finset Chfl :=
  if (trasUltimo '@' banid).any checkIfIpmask then {.ban, .banIpmask} else {.ban}

/-! ## The list of bans -/

/-- `MAXBANS`. -/
def MAXBANS : Nat := 200

/-- `MAXBANLENGTH`. -/
def MAXBANLENGTH : Nat := 7000

/-- The client that adds a ban. -/
structure Autor where
  name : CStr
  myUser : Bool
  channelService : Bool

/-- What the loop of `add_banid` leaves: the value that it returns, if it does, the list, the bans
that it has taken out, and its counters. -/
structure Recorrido where
  ret : Option Int
  banlist : List Ban
  removed : List Ban
  cnt : Nat
  len : Nat

/-- The loop of `add_banid`. -/
def recorre (myUser change firsttime : Bool) (banid : CStr) : List Ban → Nat → Nat → Recorrido
  | [], cnt, len => ⟨none, [], [], cnt, len⟩
  | b :: bs, cnt, len =>
      let len := len + b.banstr.length
      let cnt := cnt + 1
      if .burstBanWipeout ∈ b.flags ∧ b.banstr = banid then
        ⟨some (-2), { b with flags := b.flags.erase .burstBanWipeout } :: bs, [], cnt, len⟩
      else if .burstBanWipeout ∉ b.flags ∧ mmatch b.banstr banid then
        ⟨some (-1), b :: bs, [], cnt, len⟩
      else if mmatch banid b.banstr then
        if change then
          let r :=
            if myUser then recorre myUser change firsttime banid bs (cnt - 1) (len - b.banstr.length)
            else recorre myUser change firsttime banid bs cnt len
          { r with removed := b :: r.removed }
        else
          let r := recorre myUser change firsttime banid bs cnt len
          let b :=
            if .burstBanWipeout ∉ b.flags then { b with flags := insert .banOverlapped b.flags }
            else b
          { r with banlist := b :: r.banlist }
      else
        let r := recorre myUser change firsttime banid bs cnt len
        let b := if firsttime then { b with flags := b.flags.erase .banOverlapped } else b
        { r with banlist := b :: r.banlist }

/-- The ban as `add_banid` reads it: one of a local user is cleaned up first. -/
def preparado (cptr : Autor) (banid : CStr) : CStr :=
  if cptr.myUser then collapse (fixString banid) else banid

variable {κ : Type}

/-- A flag is taken off all members. -/
def sinFlag (f : Chfl) (members : List (Miembro κ)) : List (Miembro κ) :=
  members.map fun m ↦ { m with flags := m.flags.erase f }

/-- `add_banid`: the return value, the channel, and the bans that have been taken out, the last one
first. -/
def addBanid (now : Int) (cptr : Autor) (banid : CStr) (change firsttime : Bool)
    (chptr : Canal κ) : Int × Canal κ × List Ban :=
  -- the length is taken before the ban is cleaned up
  let len := banid.length
  let banid := preparado cptr banid
  let r := recorre cptr.myUser change firsttime banid chptr.banlist 0 len
  let chptr := { chptr with banlist := r.banlist }
  match r.ret with
  | some ret => (ret, chptr, r.removed.reverse)
  | none =>
      if cptr.myUser ∧ ¬cptr.channelService ∧ r.removed = [] ∧
          (MAXBANLENGTH < r.len ∨ MAXBANS ≤ r.cnt) then
        (-1, chptr, r.removed.reverse)
      else if change then
        (0, { chptr with
          banlist := ⟨banid, cptr.name, now, flagsBan banid⟩ :: chptr.banlist
          members := sinFlag .banvalid chptr.members }, r.removed.reverse)
      else (0, chptr, r.removed.reverse)

/-- The valid bit is taken off a member that is cached as banned. -/
def olvidaVetado (m : Miembro κ) : Miembro κ :=
  if .banned ∈ m.flags ∧ .banvalid ∈ m.flags then { m with flags := m.flags.erase .banvalid } else m

/-- `del_banid`, with 0 for a ban that was found. -/
def delBanid (banid : CStr) (change : Bool) (chptr : Canal κ) : Int × Canal κ :=
  if chptr.banlist.any fun b ↦ strCasediff banid b.banstr = 0 then
    if change then
      (0, { chptr with
        banlist := chptr.banlist.eraseP fun b ↦ strCasediff banid b.banstr = 0
        members := chptr.members.map olvidaVetado })
    else (0, chptr)
  else (-1, chptr)

/-! ## The verdict -/

/-- What `is_banned` reads of a client: the host, the two virtual hosts and the text of the address,
with `none` for a user that has no personal virtual host. -/
structure Cliente where
  isUser : Bool
  name : CStr
  username : CStr
  host : CStr
  vhost : CStr
  vhostperso : Option CStr
  ip : CStr

/-- `make_nick_user_host` and `make_nick_user_ip`. -/
def makeNickUserHost (nick name host : CStr) : CStr :=
  nick ++ '!' :: name ++ '@' :: host

/-- The size of `ipbuf`, which has room for an IPv4 address. -/
def IPBUFLEN : Nat :=
  NICKLEN + USERLEN + 16 + 3

/-- `make_nick_user_ip` writes the text of the address, with its terminator, into `ipbuf`. -/
def Cliente.cabeIp (cptr : Cliente) : Bool :=
  (makeNickUserHost cptr.name cptr.username cptr.ip).length < IPBUFLEN

/-- The comparison of a ban with the texts of a user. `resto` is what is behind a text in the static
buffer that it is written to. -/
def veta (resto : CStr → List Char) (cptr : Cliente) (b : Ban) : Bool :=
  let texto := makeNickUserHost cptr.name cptr.username
  if .banIpmask ∈ b.flags then ircMatch b.banstr (memory (texto cptr.ip) (resto (texto cptr.ip)))
  else
    ircMatch b.banstr (memory (texto cptr.host) (resto (texto cptr.host))) ||
      matchCase b.banstr (memory (texto cptr.vhost) (resto (texto cptr.vhost))) ||
      match cptr.vhostperso with
      | some v => ircMatch b.banstr (memory (texto v) (resto (texto v)))
      | none => false

/-- The loop of `is_banned`. The buffers are written to again for each ban. -/
def vetado (resto : Nat → CStr → List Char) (cptr : Cliente) : List Ban → Bool
  | [] => false
  | b :: bs => veta (resto bs.length) cptr b || vetado resto cptr bs

/-- The loop of `is_banned` writes behind `ipbuf`, when it gets to its first ban on an address. -/
def desborda (resto : Nat → CStr → List Char) (cptr : Cliente) : List Ban → Bool
  | [] => false
  | b :: bs =>
    if .banIpmask ∈ b.flags then !cptr.cabeIp
    else !veta (resto bs.length) cptr b && desborda resto cptr bs

/-- `is_banned` without a link to a member. -/
def isBannedSinCache (resto : Nat → CStr → List Char) (cptr : Cliente) (banlist : List Ban) : Bool :=
  cptr.isUser && vetado resto cptr banlist

/-- `is_banned` without a link, where nothing is known when it writes behind a buffer. -/
def isBannedDefinido (resto : Nat → CStr → List Char) (cptr : Cliente) (banlist : List Ban) :
    Option Bool :=
  if cptr.isUser ∧ desborda resto cptr banlist then none
  else some (isBannedSinCache resto cptr banlist)

/-- `is_banned` with the link to a member. -/
def isBanned (resto : Nat → CStr → List Char) (cptr : Cliente) (banlist : List Ban)
    (member : Miembro κ) : Bool × Miembro κ :=
  if cptr.isUser = false then (false, member)
  else if .banvalid ∈ member.flags then (.banned ∈ member.flags, member)
  else if vetado resto cptr banlist then
    (true, { member with flags := insert .banned (insert .banvalid member.flags) })
  else (false, { member with flags := (insert .banvalid member.flags).erase .banned })

/-! ## Steps -/

/-- A call on the channel: a change of its bans, or `is_banned` for the member at a place of the
list. -/
inductive Paso where
  | addBanid (now : Int) (cptr : Autor) (banid : CStr) (firsttime : Bool)
  | delBanid (banid : CStr)
  | isBanned (i : Nat) (resto : Nat → CStr → List Char)

variable (cliente : κ → Cliente)

/-- A call of `is_banned` for a member goes over the bans and writes behind a buffer. -/
def Rebosa (resto : Nat → CStr → List Char) (banlist : List Ban) (m : Miembro κ) : Bool :=
  (cliente m.cptr).isUser && .banvalid ∉ m.flags && desborda resto (cliente m.cptr) banlist

/-- The channel after a call; `none` when it has written behind a buffer. -/
def Paso.aplica (p : Paso) (chptr : Canal κ) : Option (Canal κ) :=
  match p with
  | .addBanid now cptr banid firsttime =>
      some (Channel.addBanid now cptr banid true firsttime chptr).2.1
  | .delBanid banid => some (Channel.delBanid banid true chptr).2
  | .isBanned i resto =>
      if chptr.members[i]?.any (Rebosa cliente resto chptr.banlist) then none
      else some { chptr with
        members := chptr.members.modify i fun m ↦
          (Channel.isBanned resto (cliente m.cptr) chptr.banlist m).2 }

/-- A call in a run. -/
def Paso.corre (p : Paso) (s : Option (Canal κ)) : Option (Canal κ) :=
  s.bind (p.aplica cliente)

/-- The verdicts that are marked as valid are those that `is_banned` would give without them. -/
def Vigente (chptr : Canal κ) : Prop :=
  ∀ m ∈ chptr.members, .banvalid ∈ m.flags → ∀ resto,
    isBannedDefinido resto (cliente m.cptr) chptr.banlist = some (decide (.banned ∈ m.flags))

/-! ## Steps that keep the verdicts right -/

/-- A ban in the list at which a call of `add_banid` returns. -/
def Rechaza (banid : CStr) (b : Ban) : Prop :=
  (.burstBanWipeout ∈ b.flags ∧ b.banstr = banid) ∨
    (.burstBanWipeout ∉ b.flags ∧ mmatch b.banstr banid = true)

/-- The answer of `match` does not depend on what is behind the string. -/
def Firme (mask s : CStr) : Prop :=
  ∀ after after', ircMatch mask (memory s after) = ircMatch mask (memory s after')

/-- The answer of `match_case` does not depend on what is behind the string. -/
def FirmeCase (mask s : CStr) : Prop :=
  ∀ after after', matchCase mask (memory s after) = matchCase mask (memory s after')

/-- A ban that is compared firmly with the texts of a user. -/
def Ban.Nitido (cptr : Cliente) (b : Ban) : Prop :=
  let texto := makeNickUserHost cptr.name cptr.username
  if .banIpmask ∈ b.flags then Firme b.banstr (texto cptr.ip)
  else Firme b.banstr (texto cptr.host) ∧ FirmeCase b.banstr (texto cptr.vhost) ∧
    ∀ v ∈ cptr.vhostperso, Firme b.banstr (texto v)

/-- A step that keeps the verdicts right. No ban that the new one covers stands in the list in front
of the one that refuses it, the bans that are compared with a user are compared firmly, and the text
with the address of the user fits if it is needed. -/
def Paso.Correcto (p : Paso) (chptr : Canal κ) : Prop :=
  match p with
  | .addBanid _ cptr banid _ => ∀ pre b post, chptr.banlist = pre ++ b :: post →
      Rechaza (preparado cptr banid) b → (∀ x ∈ pre, ¬Rechaza (preparado cptr banid) x) →
      ∀ x ∈ pre, mmatch (preparado cptr banid) x.banstr = false
  | .delBanid _ => True
  | .isBanned i resto => ∀ m, chptr.members[i]? = some m → .banvalid ∉ m.flags →
      (∀ b ∈ chptr.banlist, b.Nitido (cliente m.cptr)) ∧
        Rebosa cliente resto chptr.banlist m = false

/-! ## The verdict on a list -/

section

variable {cliente} {chptr : Canal κ} {cptr : Cliente}

/-- A firm comparison gives one verdict. -/
theorem Ban.Nitido.veta_eq {b : Ban} (h : b.Nitido cptr) (resto resto' : CStr → List Char) :
    veta resto cptr b = veta resto' cptr b := by
  unfold Ban.Nitido at h
  unfold veta
  by_cases hip : .banIpmask ∈ b.flags
  · simp only [if_pos hip] at h ⊢
    exact h _ _
  · simp only [if_neg hip] at h ⊢
    obtain ⟨hhost, hvhost, hperso⟩ := h
    rw [hhost _ (resto' _), hvhost _ (resto' _)]
    cases hv : cptr.vhostperso with
    | none => rfl
    | some v => exact congrArg (or _) (hperso v hv _ _)

/-- The verdict on a list of firm bans. -/
theorem vetado_eq {bs : List Ban} (h : ∀ b ∈ bs, b.Nitido cptr)
    (resto resto' : Nat → CStr → List Char) :
    vetado resto cptr bs = vetado resto' cptr bs := by
  induction bs with
  | nil => rfl
  | cons b bs ih =>
      rw [vetado, vetado, (h b List.mem_cons_self).veta_eq _ (resto' bs.length),
        ih fun x hx ↦ h x (List.mem_cons_of_mem _ hx)]

/-- What is written for a list of firm bans. -/
theorem desborda_eq {bs : List Ban} (h : ∀ b ∈ bs, b.Nitido cptr)
    (resto resto' : Nat → CStr → List Char) :
    desborda resto cptr bs = desborda resto' cptr bs := by
  induction bs with
  | nil => rfl
  | cons b bs ih =>
      rw [desborda, desborda, (h b List.mem_cons_self).veta_eq _ (resto' bs.length),
        ih fun x hx ↦ h x (List.mem_cons_of_mem _ hx)]

/-- Only a ban on an address needs the text with the address. -/
theorem not_cabeIp_of_desborda {bs : List Ban} {resto : Nat → CStr → List Char}
    (h : desborda resto cptr bs = true) :
    (∃ b ∈ bs, .banIpmask ∈ b.flags) ∧ cptr.cabeIp = false := by
  induction bs with
  | nil => cases h
  | cons b bs ih =>
      rw [desborda] at h
      split at h
      · next hip => exact ⟨⟨b, List.mem_cons_self, hip⟩, by simpa using h⟩
      · obtain ⟨⟨x, hx, hip⟩, hcabe⟩ := ih (Bool.and_eq_true_iff.mp h).2
        exact ⟨⟨x, List.mem_cons_of_mem _ hx, hip⟩, hcabe⟩

/-- A user that no ban matches gets to the first ban on an address. -/
theorem desborda_of_not_cabeIp {bs : List Ban} {resto : Nat → CStr → List Char}
    (h : ∀ b ∈ bs, ∀ r, veta r cptr b = false) (hip : ∃ b ∈ bs, .banIpmask ∈ b.flags)
    (hcabe : cptr.cabeIp = false) : desborda resto cptr bs = true := by
  induction bs with
  | nil => simp at hip
  | cons b bs ih =>
      rw [desborda]
      split
      · rw [hcabe]
        rfl
      · next hno =>
          obtain ⟨x, hx, hxip⟩ := hip
          have htail : x ∈ bs := (List.mem_cons.mp hx).resolve_left fun hxb ↦ hno (hxb ▸ hxip)
          rw [h b List.mem_cons_self, ih (fun y hy ↦ h y (List.mem_cons_of_mem _ hy)) ⟨x, htail, hxip⟩]
          rfl

/-- A user is not banned when no ban matches it. -/
theorem vetado_eq_false {bs : List Ban} {resto : Nat → CStr → List Char}
    (h : ∀ b ∈ bs, ∀ r, veta r cptr b = false) : vetado resto cptr bs = false := by
  induction bs with
  | nil => rfl
  | cons b bs ih =>
      rw [vetado, h b List.mem_cons_self, ih fun x hx ↦ h x (List.mem_cons_of_mem _ hx)]
      rfl

/-- No ban matches a user that is not banned, whatever is behind its texts. -/
theorem veta_eq_false {bs : List Ban} (h : ∀ resto, vetado resto cptr bs = false) :
    ∀ b ∈ bs, ∀ r, veta r cptr b = false := by
  induction bs with
  | nil => simp
  | cons b bs ih =>
      have hboth : ∀ resto, veta (resto bs.length) cptr b = false ∧ vetado resto cptr bs = false := by
        intro resto
        have hor := h resto
        rwa [vetado, Bool.or_eq_false_iff] at hor
      intro x hx r
      rcases List.mem_cons.mp hx with rfl | hx
      · exact (hboth fun _ ↦ r).1
      · exact ih (fun resto ↦ (hboth resto).2) x hx r

/-- What the verdict reads of a ban. -/
def Ban.leido (b : Ban) : CStr × Bool :=
  (b.banstr, .banIpmask ∈ b.flags)

/-- Flags other than `CHFL_BAN_IPMASK` are not read. -/
theorem vetado_congr {bs bs' : List Ban} (h : bs.map Ban.leido = bs'.map Ban.leido)
    (resto : Nat → CStr → List Char) : vetado resto cptr bs = vetado resto cptr bs' := by
  induction bs generalizing bs' with
  | nil => rw [List.map_eq_nil_iff.mp h.symm]
  | cons b bs ih =>
      obtain ⟨b', bs', rfl, hb, hbs⟩ := List.map_eq_cons_iff.mp h.symm
      have hlength : bs.length = bs'.length := by
        rw [← List.length_map Ban.leido, ← hbs, List.length_map]
      simp only [Ban.leido, Prod.mk.injEq, decide_eq_decide] at hb
      rw [vetado, vetado, ih hbs.symm, hlength, veta, veta, hb.1]
      simp only [hb.2]

/-- Nor are they read for what is written. -/
theorem desborda_congr {bs bs' : List Ban} (h : bs.map Ban.leido = bs'.map Ban.leido)
    (resto : Nat → CStr → List Char) : desborda resto cptr bs = desborda resto cptr bs' := by
  induction bs generalizing bs' with
  | nil => rw [List.map_eq_nil_iff.mp h.symm]
  | cons b bs ih =>
      obtain ⟨b', bs', rfl, hb, hbs⟩ := List.map_eq_cons_iff.mp h.symm
      have hlength : bs.length = bs'.length := by
        rw [← List.length_map Ban.leido, ← hbs, List.length_map]
      simp only [Ban.leido, Prod.mk.injEq, decide_eq_decide] at hb
      rw [desborda, desborda, ih hbs.symm, hlength, veta, veta, hb.1]
      simp only [hb.2]

/-- The uncached verdict is known where nothing is written behind a buffer. -/
theorem isBannedDefinido_eq_some {bs : List Ban} {resto : Nat → CStr → List Char} {v : Bool} :
    isBannedDefinido resto cptr bs = some v ↔
      (cptr.isUser = true → desborda resto cptr bs = false) ∧ isBannedSinCache resto cptr bs = v := by
  rw [isBannedDefinido]
  split
  · next h =>
      refine iff_of_false nofun fun hno ↦ ?_
      rw [hno.1 h.1] at h
      exact Bool.false_ne_true h.2
  · next h =>
      rw [Option.some_inj]
      refine (and_iff_right fun huser ↦ ?_).symm
      rw [← Bool.not_eq_true]
      exact fun hb ↦ h ⟨huser, hb⟩

/-! ## What one step preserves -/

section

variable {banid : CStr} {myUser change firsttime : Bool} {bs : List Ban}

/-- A mark that is not `CHFL_BAN_IPMASK` is not read. -/
theorem Ban.leido_erase (b : Ban) {f : Chfl} (hf : f ≠ .banIpmask) :
    Ban.leido { b with flags := b.flags.erase f } = b.leido := by
  simp [Ban.leido, hf.symm]

/-- The loop leaves the masks of the bans that it does not take out. -/
theorem leido_recorre {cnt len : Nat}
    (h : (recorre myUser change firsttime banid bs cnt len).removed = []) :
    (recorre myUser change firsttime banid bs cnt len).banlist.map Ban.leido =
      bs.map Ban.leido := by
  induction bs generalizing cnt len with
  | nil => rfl
  | cons b bs ih =>
      by_cases hwipe : .burstBanWipeout ∈ b.flags ∧ b.banstr = banid
      · simp only [recorre, if_pos hwipe, List.map_cons, b.leido_erase (f := .burstBanWipeout)
          (by decide)]
      by_cases hcubre : .burstBanWipeout ∉ b.flags ∧ mmatch b.banstr banid
      · simp only [recorre, if_neg hwipe, if_pos hcubre]
      by_cases hcubierta : mmatch banid b.banstr
      · cases change with
        | true => simp [recorre, if_neg hwipe, if_neg hcubre, hcubierta] at h
        | false =>
            simp only [recorre, if_neg hwipe, if_neg hcubre, if_pos hcubierta, Bool.false_eq_true,
              if_false] at h ⊢
            rw [List.map_cons, List.map_cons, ih h]
            split
            · simp [Ban.leido]
            · rfl
      · simp only [recorre, if_neg hwipe, if_neg hcubre, if_neg hcubierta] at h ⊢
        rw [List.map_cons, List.map_cons, ih h]
        split
        · rw [b.leido_erase (by decide)]
        · rfl

/-- The loop returns at the first ban that refuses the new one. -/
theorem ret_recorre {cnt len : Nat}
    (hret : (recorre myUser change firsttime banid bs cnt len).ret ≠ none) :
    ∃ pre b post, bs = pre ++ b :: post ∧ Rechaza banid b ∧ ∀ x ∈ pre, ¬Rechaza banid x := by
  induction bs generalizing cnt len with
  | nil => exact absurd rfl hret
  | cons b bs ih =>
      by_cases hpara : Rechaza banid b
      · exact ⟨[], b, bs, rfl, hpara, by simp⟩
      · obtain ⟨hwipe, hcubre⟩ := not_or.mp hpara
        have htail : ∃ cnt len, (recorre myUser change firsttime banid bs cnt len).ret ≠ none := by
          simp only [recorre, if_neg hwipe, if_neg hcubre] at hret
          split_ifs at hret <;> exact ⟨_, _, hret⟩
        obtain ⟨cnt', len', htail⟩ := htail
        obtain ⟨pre, x, post, hsplit, hx, hpre⟩ := ih htail
        refine ⟨b :: pre, x, post, by rw [hsplit, List.cons_append], hx, fun y hy ↦ ?_⟩
        rcases List.mem_cons.mp hy with rfl | hy
        · exact hpara
        · exact hpre y hy

/-- The loop takes out bans that the new one covers, all in front of the one that refuses it. -/
theorem removed_recorre {cnt len : Nat} {pre post : List Ban} {b : Ban} (hb : Rechaza banid b)
    (hpre : ∀ x ∈ pre, mmatch banid x.banstr = false) :
    (recorre myUser change firsttime banid (pre ++ b :: post) cnt len).removed = [] := by
  induction pre generalizing cnt len with
  | nil =>
      rcases hb with hwipe | hcubre
      · simp only [List.nil_append, recorre, if_pos hwipe]
      · have hwipe : ¬(.burstBanWipeout ∈ b.flags ∧ b.banstr = banid) := fun h ↦ hcubre.1 h.1
        simp only [List.nil_append, recorre, if_neg hwipe, if_pos hcubre]
  | cons x pre ih =>
      have hx : ¬mmatch banid x.banstr = true := by
        rw [hpre x List.mem_cons_self]
        decide
      have hrest : ∀ cnt len,
          (recorre myUser change firsttime banid (pre ++ b :: post) cnt len).removed = [] :=
        fun _ _ ↦ ih fun y hy ↦ hpre y (List.mem_cons_of_mem _ hy)
      rw [List.cons_append, recorre]
      dsimp only
      split_ifs
      · rfl
      · rfl
      all_goals exact hrest _ _

end

variable {chptr : Canal κ}

/-- Without valid bits there is nothing to keep right. -/
theorem vigente_sinFlag (bs : List Ban) :
    Vigente cliente { chptr with banlist := bs, members := sinFlag .banvalid chptr.members } := by
  intro m hm hvalid
  obtain ⟨m', -, rfl⟩ := List.mem_map.mp hm
  simp at hvalid

/-- The masks are all that the verdicts depend on. -/
theorem Vigente.leido (h : Vigente cliente chptr) {bs : List Ban}
    (hbs : bs.map Ban.leido = chptr.banlist.map Ban.leido) :
    Vigente cliente { chptr with banlist := bs } := by
  intro m hm hvalid resto
  rw [← h m hm hvalid resto, isBannedDefinido, isBannedDefinido, isBannedSinCache, isBannedSinCache,
    vetado_congr hbs, desborda_congr hbs]

/-- A new ban. -/
theorem Vigente.addBanid (h : Vigente cliente chptr) {now : Int} {cptr : Autor} {banid : CStr}
    {firsttime : Bool} (hpaso : (Paso.addBanid now cptr banid firsttime).Correcto cliente chptr) :
    Vigente cliente (Channel.addBanid now cptr banid true firsttime chptr).2.1 := by
  rw [Channel.addBanid]
  dsimp only
  generalize hr : recorre cptr.myUser true firsttime (preparado cptr banid) chptr.banlist 0
    banid.length = r
  cases hret : r.ret with
  | some ret =>
      have hsome : (recorre cptr.myUser true firsttime (preparado cptr banid) chptr.banlist 0
          banid.length).ret ≠ none := by
        rw [hr, hret]
        simp
      obtain ⟨pre, b, post, hsplit, hb, hpre⟩ := ret_recorre hsome
      refine h.leido ?_
      rw [← hr]
      refine leido_recorre ?_
      rw [hsplit]
      exact removed_recorre hb (hpaso pre b post hsplit hb hpre)
  | none =>
      dsimp only
      split
      · rename_i hllena
        refine h.leido ?_
        rw [← hr] at hllena ⊢
        exact leido_recorre hllena.2.2.1
      · exact vigente_sinFlag _

/-- A ban less. -/
theorem Vigente.delBanid (h : Vigente cliente chptr) (banid : CStr) :
    Vigente cliente (Channel.delBanid banid true chptr).2 := by
  rw [Channel.delBanid]
  split
  · rw [if_pos rfl]
    intro m hm hvalid resto
    obtain ⟨m', hm', rfl⟩ := List.mem_map.mp hm
    rw [olvidaVetado] at hvalid ⊢
    split at hvalid
    · simp at hvalid
    · rename_i hno
      rw [if_neg hno]
      have hbanned : .banned ∉ m'.flags := fun hb ↦ hno ⟨hb, hvalid⟩
      have hviejo : ∀ resto, isBannedDefinido resto (cliente m'.cptr) chptr.banlist = some false := by
        intro resto
        rw [h m' hm' hvalid resto, decide_eq_false hbanned]
      rw [decide_eq_false hbanned]
      refine isBannedDefinido_eq_some.mpr ?_
      cases huser : (cliente m'.cptr).isUser with
      | false => exact ⟨nofun, by simp [isBannedSinCache, huser]⟩
      | true =>
          have hvetado : ∀ resto, vetado resto (cliente m'.cptr) chptr.banlist = false := by
            intro resto
            simpa [isBannedSinCache, huser] using (isBannedDefinido_eq_some.mp (hviejo resto)).2
          have hninguno := veta_eq_false hvetado
          refine ⟨fun _ ↦ ?_, ?_⟩
          · -- what the shorter list needs, the longer one would have needed too
            rw [← Bool.not_eq_true]
            intro hfuera
            obtain ⟨⟨b, hb, hip⟩, hcabe⟩ := not_cabeIp_of_desborda hfuera
            have hdentro := (isBannedDefinido_eq_some.mp (hviejo resto)).1 huser
            rw [desborda_of_not_cabeIp hninguno ⟨b, List.mem_of_mem_eraseP hb, hip⟩ hcabe] at hdentro
            cases hdentro
          · rw [isBannedSinCache, vetado_eq_false fun b hb ↦
              hninguno b (List.mem_of_mem_eraseP hb)]
            simp
  · exact h

/-- A question. -/
theorem Vigente.isBanned (h : Vigente cliente chptr) {i : Nat} {resto : Nat → CStr → List Char}
    (hpaso : (Paso.isBanned i resto).Correcto cliente chptr) :
    ∃ chptr', (Paso.isBanned i resto).aplica cliente chptr = some chptr' ∧
      Vigente cliente chptr' := by
  have hcabe : ¬chptr.members[i]?.any (Rebosa cliente resto chptr.banlist) = true := by
    cases hm : chptr.members[i]? with
    | none => exact Bool.false_ne_true
    | some m =>
        rw [Option.any_some, Bool.not_eq_true]
        by_cases hcache : .banvalid ∈ m.flags
        · simp [Rebosa, hcache]
        · exact (hpaso m hm hcache).2
  refine ⟨_, if_neg hcabe, ?_⟩
  intro m hm hvalid resto'
  obtain ⟨j, hj⟩ := List.mem_iff_getElem?.mp hm
  simp only [List.getElem?_modify] at hj
  by_cases hij : i = j
  · subst hij
    simp only [if_true] at hj
    obtain ⟨m', hm', rfl⟩ := Option.map_eq_some_iff.mp hj
    have hmem : m' ∈ chptr.members := List.mem_of_getElem? hm'
    have hnitido := hpaso m' hm'
    -- with firm comparisons one verdict is all verdicts, also in what it needs
    have hnuevo (hcache : .banvalid ∉ m'.flags) (huser : ¬(cliente m'.cptr).isUser = false)
        {v : Bool} (hv : vetado resto (cliente m'.cptr) chptr.banlist = v) :
        isBannedDefinido resto' (cliente m'.cptr) chptr.banlist = some v := by
      obtain ⟨hfirme, hsitio⟩ := hnitido hcache
      refine isBannedDefinido_eq_some.mpr ⟨fun _ ↦ ?_, ?_⟩
      · rw [desborda_eq hfirme resto' resto]
        simpa [Rebosa, hcache, huser] using hsitio
      · rw [isBannedSinCache, ← vetado_eq hfirme resto resto', hv]
        simp [huser]
    show isBannedDefinido resto' (cliente _) chptr.banlist = _
    unfold Channel.isBanned at hvalid ⊢
    split_ifs at hvalid ⊢ with huser hcache hvetado
    · exact h m' hmem hvalid resto'
    · exact h m' hmem hvalid resto'
    · exact (hnuevo hcache huser hvetado).trans (by simp)
    · exact (hnuevo hcache huser (Bool.not_eq_true _ ▸ hvetado)).trans (by simp)
  · simp only [if_neg hij, Option.map_eq_map, Option.map_id'] at hj
    exact h m (List.mem_of_getElem? hj) hvalid resto'

/-- A call. -/
theorem Vigente.aplica (h : Vigente cliente chptr) {p : Paso} (hp : p.Correcto cliente chptr) :
    ∃ chptr', p.aplica cliente chptr = some chptr' ∧ Vigente cliente chptr' := by
  cases p with
  | addBanid now cptr banid firsttime => exact ⟨_, rfl, h.addBanid hp⟩
  | delBanid banid => exact ⟨_, rfl, h.delBanid banid⟩
  | isBanned i resto => exact h.isBanned hp

/-- The verdicts stay right in every run of correct steps, and nothing is written behind a buffer. -/
theorem vigente_run (cliente : κ → Cliente) (ps : List Paso) (chptr : Canal κ)
    (h : Vigente cliente chptr)
    (hps : Run.EveryStep (Paso.corre cliente)
      (fun p s ↦ ∀ c, s = some c → p.Correcto cliente c) (some chptr) ps) :
    ∃ chptr', Run.final (Paso.corre cliente) (some chptr) ps = some chptr' ∧
      Vigente cliente chptr' := by
  refine Run.invariant_final (P := fun s ↦ ∃ c, s = some c ∧ Vigente cliente c) ?_
    ⟨chptr, rfl, h⟩ hps
  rintro p _ ⟨c, rfl, hc⟩ hp
  exact hc.aplica (hp c rfl)

end

/-! ## Two runs -/

/-- A user with an address whose text is longer than its hosts. -/
def ana : Cliente where
  isUser := true
  name := "ana".toList
  username := "ana".toList
  host := "red.es".toList
  vhost := "aBcDeF.aBcDeF.v6".toList
  vhostperso := none
  ip := "2001:720:1111:2222:3333:4444:5555:6666".toList

/-- A channel with one member and without bans. -/
def unMiembro : Canal Unit :=
  { (Canal.nuevo : Canal Unit) with users := 1, members := [⟨(), ∅⟩] }

/-- A server as the author of bans. -/
def hub : Autor :=
  ⟨"hub.es".toList, false, false⟩

/-- A ban on the address. -/
def direccion : CStr :=
  "ana!ana@2001?720?1111?2222?3333?4444?5555?6666".toList

/-- The ban is set, asked for and taken away. -/
theorem vigente_run_ana :
    ∃ chptr', Run.final (Paso.corre fun _ ↦ ana) (some unMiembro)
        [.addBanid 0 hub direccion true, .isBanned 0 fun _ _ ↦ [], .delBanid direccion] =
          some chptr' ∧ Vigente (fun _ ↦ ana) chptr' := by
  refine vigente_run _ _ _ ?_ ⟨?_, ?_, fun _ _ ↦ trivial, trivial⟩
  · intro m hm hvalid
    have hflags : m.flags = ∅ := by
      rw [List.mem_singleton.mp hm]
    simp [hflags] at hvalid
  · rintro c hc pre b post hsplit
    obtain rfl : unMiembro = c := Option.some.inj hc
    simp [unMiembro, Canal.nuevo] at hsplit
  · rintro c hc m hm -
    obtain rfl : (addBanid 0 hub direccion true true unMiembro).2.1 = c := Option.some.inj hc
    have hlista : (addBanid 0 hub direccion true true unMiembro).2.1.banlist =
        [⟨direccion, hub.name, 0, {.ban, .banIpmask}⟩] := by decide +kernel
    rw [hlista]
    refine ⟨fun b hb ↦ ?_, ?_⟩
    · rw [List.mem_singleton.mp hb, Ban.Nitido, if_pos (by decide)]
      intro after after'
      rfl
    · have hcabe : ana.cabeIp = true := by decide
      simp [Rebosa, desborda, hcabe]

/-- A ban that covers the ban on a user and is refused by another one. -/
def banRechazado : List Paso :=
  [.addBanid 0 hub "*????????????????????????????".toList true,
    .addBanid 0 hub "ana!ana@2001?720?1111?2222?3333?4444*".toList true,
    .isBanned 0 fun _ _ ↦ [],
    .addBanid 0 hub "ana*????????????????????????????".toList true]

theorem banRechazado_isSome :
    (Run.final (Paso.corre fun _ ↦ ana) (some unMiembro) banRechazado).isSome = true := by
  decide +kernel

/-- The ban on the user is removed, and the user stays marked as banned. -/
theorem not_vigente_run :
    ¬∀ (ps : List Paso) (chptr : Canal Unit), (∀ m ∈ chptr.members, .banvalid ∉ m.flags) →
      ∀ chptr', Run.final (Paso.corre fun _ ↦ ana) (some chptr) ps = some chptr' →
        Vigente (fun _ ↦ ana) chptr' := by
  intro h
  have hrun := h banRechazado unMiembro (by decide) _ (Option.some_get banRechazado_isSome).symm
  have hbanned := hrun ⟨(), {.banned, .banvalid}⟩ (by decide +kernel) (by decide) fun _ _ ↦ []
  revert hbanned
  decide +kernel

end Ircd.Channel
