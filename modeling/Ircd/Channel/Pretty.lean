import Ircd.Channel.Antichain
import Ircd.Lib.Buffer

/-!
# `pretty_mask` in its buffer

`prettyMaskEn` is `pretty_mask` of `ircd/channel.c` as it works: one pass over the mask leaves the
places of its parts, the parts are cut in the buffer of the mask itself, and the result is printed
into a static buffer. `prettyMaskEn_eq` says that it stays inside both buffers and leaves the text
of `prettyMask`. The main theorem, `prettyMask_estable`, says that this text is
`nick!user@host` within the limits, that nothing changes the second time, and that nothing which
the mask matches is lost where its nick is short and has no `@`.
-/

namespace Ircd.Channel

open Buffer CString Match
open Wildcard (lang)

/-! ## The buffer of the mask -/

/-- What the pass over the mask leaves. A part is at a place of the mask, or it is `star`. -/
structure Partes where
  nick : Option Nat
  user : Option Nat
  host : Option Nat
  lastDot : Option Nat
  ptr : Nat

/-- The inner loop: `host` goes behind the last `@`. -/
def ultimaArroba (host : Option Nat) (ptr : Nat) : List Char → Option (Option Nat × Nat)
  | [] => none
  | c :: s =>
      if c = nul then some (host, ptr)
      else ultimaArroba (if c = '@' then some (ptr + 1) else host) (ptr + 1) s

/-- The pass over the characters of the mask. -/
def pasada (lastDot : Option Nat) (ptr : Nat) : List Char → Option Partes
  | [] => none
  | c :: s =>
      if c = nul then some ⟨some 0, none, none, lastDot, ptr⟩
      else if c = '!' then do
        let (host, fin) ← ultimaArroba none (ptr + 1) s
        some ⟨some 0, some (ptr + 1), host, lastDot, fin⟩
      else if c = '@' then do
        let (host, fin) ← ultimaArroba (some (ptr + 1)) (ptr + 1) s
        some ⟨none, some 0, host, lastDot, fin⟩
      else if c = '.' ∨ c = ':' then pasada (some ptr) (ptr + 1) s
      else pasada lastDot (ptr + 1) s

/-- `if (nick_end - nick > NICKLEN) nick[NICKLEN] = 0; *nick_end = 0`. -/
def cortaNick (nick nickEnd : Nat) (mem : List Char) : Option (List Char) := do
  let mem ← if NICKLEN < nickEnd - nick then poke mem (nick + NICKLEN) nul else some mem
  poke mem nickEnd nul

/-- A part with more than `n` characters begins `n` before its end, with a star. -/
def cortaInicio (n parte fin : Nat) (mem : List Char) : Option (Nat × List Char) :=
  if n < fin - parte then do
    let mem ← poke mem (fin - n) '*'
    some (fin - n, mem)
  else some (parte, mem)

/-- The text of a part. -/
def textoDe (mem : List Char) : Option Nat → Option CStr
  | none => some ['*']
  | some parte => cadena mem parte

/-- The size of `namebuf`. -/
def NAMEBUFLEN : Nat := NICKLEN + USERLEN + HOSTLEN + 3

/-- `make_nick_user_host` prints into `namebuf`, with a terminator behind the text. -/
def imprime (nick name host : CStr) : Option CStr :=
  if (makeNickUserHost nick name host).length < NAMEBUFLEN then
    some (makeNickUserHost nick name host)
  else none

/-- The lengths are checked part by part, and the result is printed. -/
def compon (mem : List Char) (p : Partes) : Option CStr := do
  let mem ← match p.nick with
    | none => some mem
    | some nick => cortaNick nick (p.user.elim p.ptr (· - 1)) mem
  let (user, mem) ← match p.user with
    | none => some (none, mem)
    | some user => do
        let userEnd := p.host.elim p.ptr (· - 1)
        let (user, mem) ← cortaInicio USERLEN user userEnd mem
        let mem ← poke mem userEnd nul
        some (some user, mem)
  let (host, mem) ← match p.host with
    | none => some (none, mem)
    | some host => do
        let (host, mem) ← cortaInicio HOSTLEN host p.ptr mem
        some (some host, mem)
  imprime (← textoDe mem p.nick) (← textoDe mem user) (← textoDe mem host)

/-- `pretty_mask`, in the memory at the mask. -/
def prettyMaskEn (mem : List Char) : Option CStr := do
  let p ← pasada none 0 mem
  if p.user = none ∧ p.lastDot ≠ none then
    compon mem { p with nick := none, user := none, host := some 0 }
  else compon mem p

/-! ## The pass -/

variable {s t u host nick user : CStr} {after mem : List Char} {c : Char} {ptr n : Nat}

theorem ultimaArroba_append {h : Option Nat} (hnul : nul ∉ s) (harroba : '@' ∉ s) :
    ultimaArroba h ptr (s ++ t) = ultimaArroba h (ptr + s.length) t := by
  induction s generalizing ptr with
  | nil => rfl
  | cons c s ih =>
      obtain ⟨hc, hnul⟩ := List.ne_and_not_mem_of_not_mem_cons hnul
      obtain ⟨ha, harroba⟩ := List.ne_and_not_mem_of_not_mem_cons harroba
      rw [List.cons_append, ultimaArroba, if_neg (Ne.symm hc), if_neg (Ne.symm ha),
        ih hnul harroba, List.length_cons, Nat.add_right_comm, Nat.add_assoc]

/-- Behind the last `@` of a text. -/
theorem ultimaArroba_arroba {h : Option Nat} (hu : nul ∉ u) (hhost : nul ∉ host)
    (harroba : '@' ∉ host) :
    ultimaArroba h ptr (u ++ '@' :: (host ++ nul :: after)) =
      some (some (ptr + u.length + 1), ptr + u.length + 1 + host.length) := by
  induction u generalizing ptr h with
  | nil =>
      rw [List.nil_append, ultimaArroba, if_neg (by decide), if_pos rfl,
        ultimaArroba_append hhost harroba, ultimaArroba, if_pos rfl]
      rfl
  | cons c u ih =>
      obtain ⟨hc, hu⟩ := List.ne_and_not_mem_of_not_mem_cons hu
      rw [List.cons_append, ultimaArroba, if_neg (Ne.symm hc), ih hu, List.length_cons,
        Nat.add_right_comm ptr 1, Nat.add_assoc ptr]

/-- A text without `@`. -/
theorem ultimaArroba_sin {h : Option Nat} (hs : nul ∉ s) (harroba : '@' ∉ s) :
    ultimaArroba h ptr (s ++ nul :: after) = some (h, ptr + s.length) := by
  rw [ultimaArroba_append hs harroba, ultimaArroba, if_pos rfl]

/-- A character of a nick. -/
def deNick (c : Char) : Bool :=
  c ≠ '!' ∧ c ≠ '@'

/-- The pass over a nick notes whether there is a dot or a colon. -/
theorem pasada_nick (hnul : nul ∉ nick) (hnick : ∀ c ∈ nick, deNick c = true) (d : Option Nat)
    (ptr : Nat) (t : List Char) :
    ∃ d', pasada d ptr (nick ++ t) = pasada d' (ptr + nick.length) t ∧
      (d' ≠ none ↔ d ≠ none ∨ nick.any fun c ↦ c = '.' ∨ c = ':') := by
  induction nick generalizing ptr d with
  | nil => exact ⟨d, rfl, by simp⟩
  | cons c nick ih =>
      obtain ⟨hc, hnul⟩ := List.ne_and_not_mem_of_not_mem_cons hnul
      have hparte := hnick c List.mem_cons_self
      simp only [deNick, decide_eq_true_eq] at hparte
      obtain ⟨hmark, harroba⟩ := hparte
      have hrest := fun d ↦ ih hnul (fun x hx ↦ hnick x (List.mem_cons_of_mem c hx)) d (ptr + 1)
      rw [List.cons_append, pasada, if_neg (Ne.symm hc), if_neg hmark, if_neg harroba,
        List.length_cons, ← Nat.add_assoc, Nat.add_right_comm ptr]
      split
      · next hdot =>
          obtain ⟨d', hpasada, hd'⟩ := hrest (some ptr)
          exact ⟨d', hpasada, by simp [hd', hdot]⟩
      · next hdot =>
          obtain ⟨d', hpasada, hd'⟩ := hrest d
          exact ⟨d', hpasada, by simp only [hd', List.any_cons, hdot]; simp⟩

/-! ## The cuts -/

/-- A nick in front of any character is cut in its buffer, and what is behind it stays. -/
theorem cortaNick_append (hnick : nul ∉ nick) : ∃ corto : List Char, corto.length = nick.length ∧
    cortaNick 0 nick.length (nick ++ c :: t) = some (corto ++ nul :: t) ∧
    ∀ t, cadena (corto ++ nul :: t) 0 = some (nick.take NICKLEN) := by
  by_cases hlen : NICKLEN < nick.length
  · obtain ⟨d, y, hd⟩ : ∃ d y, nick.drop NICKLEN = d :: y :=
      List.exists_cons_of_length_pos (by rw [List.length_drop]; omega)
    have hsplit : nick = nick.take NICKLEN ++ d :: y := by rw [← hd, List.take_append_drop]
    have htake : (nick.take NICKLEN).length = NICKLEN := List.length_take_of_le (Nat.le_of_lt hlen)
    refine ⟨nick.take NICKLEN ++ nul :: y, ?_, ?_, fun t ↦ ?_⟩
    · conv_rhs => rw [hsplit]
      simp
    · have hfirst : poke (nick ++ c :: t) NICKLEN nul =
          some ((nick.take NICKLEN ++ nul :: y) ++ c :: t) := by
        conv_lhs => rw [hsplit, List.append_assoc, List.cons_append]
        rw [poke_append htake, List.append_assoc, List.cons_append]
      rw [cortaNick, Nat.sub_zero, if_pos hlen, Nat.zero_add, hfirst]
      refine poke_append ?_
      conv_rhs => rw [hsplit]
      simp
    · rw [List.append_assoc, List.cons_append]
      exact cadena_zero fun h ↦ hnick (List.mem_of_mem_take h)
  · refine ⟨nick, rfl, ?_, fun t ↦ ?_⟩
    · rw [cortaNick, Nat.sub_zero, if_neg hlen]
      exact poke_append rfl
    · rw [List.take_of_length_le (Nat.le_of_not_lt hlen)]
      exact cadena_zero hnick

/-- A user name or a host between two other parts is cut in its buffer, and they stay. -/
theorem cortaInicio_append (hn : 0 < n) (hs : nul ∉ s) (a : List Char) :
    ∃ (place : Nat) (corta : List Char), corta.length = s.length ∧
      cortaInicio n a.length (a.length + s.length) (a ++ (s ++ t)) =
        some (place, a ++ (corta ++ t)) ∧
      ∀ a' t : List Char, a'.length = a.length →
        cadena (a' ++ (corta ++ nul :: t)) place = some (recorta n s) := by
  by_cases hlen : n < s.length
  · obtain ⟨x, hx⟩ : ∃ x, x = s.take (s.length - n) := ⟨_, rfl⟩
    obtain ⟨d, y, hd⟩ : ∃ d y, s.drop (s.length - n) = d :: y :=
      List.exists_cons_of_length_pos (by rw [List.length_drop]; omega)
    have hsplit : s = x ++ d :: y := by rw [hx, ← hd, List.take_append_drop]
    have hxlen : x.length = s.length - n := by rw [hx, List.length_take]; omega
    have hcorta : recorta n s = '*' :: y := by
      have hdrop : s.drop (s.length - n + 1) = y := by
        rw [← List.drop_drop, hd, List.drop_one, List.tail_cons]
      rw [recorta, if_pos hlen, hdrop]
    refine ⟨a.length + x.length, x ++ '*' :: y, ?_, ?_, fun a' t ha ↦ ?_⟩
    · conv_rhs => rw [hsplit]
      simp
    · have hplace : a.length + s.length - n = a.length + x.length := by omega
      have hpoke : poke (a ++ (s ++ t)) (a.length + x.length) '*' =
          some (a ++ ((x ++ '*' :: y) ++ t)) := by
        conv_lhs => rw [hsplit, List.append_assoc, List.cons_append, ← List.append_assoc]
        rw [poke_append List.length_append, List.append_assoc, List.append_assoc, List.cons_append]
      rw [cortaInicio, if_pos (by omega), hplace, hpoke]
      rfl
    · have hnul : nul ∉ '*' :: y := by
        refine List.not_mem_cons_of_ne_of_not_mem (by decide) fun h ↦ hs ?_
        rw [hsplit]
        exact List.mem_append_right x (List.mem_cons_of_mem d h)
      rw [hcorta, List.append_assoc, List.cons_append, ← List.append_assoc]
      exact cadena_append (by rw [List.length_append, ha]) hnul
  · refine ⟨a.length, s, rfl, ?_, fun a' t ha ↦ ?_⟩
    · rw [cortaInicio, if_neg (by omega)]
    · rw [recorta, if_neg hlen]
      exact cadena_append ha hs

/-- A part that has been cut is within its limit. -/
theorem length_recorta (hn : 0 < n) (s : CStr) : (recorta n s).length ≤ n := by
  rw [recorta]
  split
  · rw [List.length_cons, List.length_drop]
    omega
  · omega

/-- Parts within the limits fit into `namebuf`. -/
theorem imprime_eq (hnick : nick.length ≤ NICKLEN) (huser : user.length ≤ USERLEN)
    (hhost : host.length ≤ HOSTLEN) :
    imprime nick user host = some (makeNickUserHost nick user host) := by
  rw [imprime, if_pos]
  simp only [makeNickUserHost, NAMEBUFLEN, List.length_append, List.length_cons]
  omega

theorem length_take_nick (nick : CStr) : (nick.take NICKLEN).length ≤ NICKLEN :=
  List.length_take_le _ _

theorem length_estrella {n : Nat} (hn : 0 < n) : ['*'].length ≤ n := hn

/-! ## Each case of the comment of `pretty_mask` -/

/-- Case 5. -/
theorem compon_nickUserHost (d : Option Nat) (hnick : nul ∉ nick) (huser : nul ∉ user)
    (hhost : nul ∉ host) :
    compon (nick ++ '!' :: (user ++ '@' :: (host ++ nul :: after)))
      ⟨some 0, some (nick.length + 1), some (nick.length + 1 + user.length + 1), d,
        nick.length + 1 + user.length + 1 + host.length⟩ =
      some (makeNickUserHost (nick.take NICKLEN) (recorta USERLEN user) (recorta HOSTLEN host)) := by
  obtain ⟨corto, hclen, hcorta, htexto⟩ := cortaNick_append (c := '!')
    (t := user ++ '@' :: (host ++ nul :: after)) hnick
  obtain ⟨pu, cu, hulen, hu, hutexto⟩ := cortaInicio_append
    (t := '@' :: (host ++ nul :: after)) (n := USERLEN) (by decide) huser (corto ++ [nul])
  obtain ⟨ph, ch, hhlen, hh, hhtexto⟩ := cortaInicio_append
    (t := nul :: after) (n := HOSTLEN) (by decide) hhost (corto ++ nul :: (cu ++ [nul]))
  have hsize : (corto ++ [nul]).length = nick.length + 1 := by simp [hclen]
  have hsize' : (corto ++ nul :: (cu ++ [nul])).length = nick.length + 1 + user.length + 1 := by
    simp only [List.length_append, List.length_cons, List.length_nil, hclen, hulen]
    omega
  have hpoke : poke (corto ++ nul :: (cu ++ '@' :: (host ++ nul :: after)))
      (nick.length + 1 + user.length) nul =
        some (corto ++ nul :: (cu ++ nul :: (host ++ nul :: after))) := by
    have hplace : (corto ++ nul :: cu).length = nick.length + 1 + user.length := by
      simp only [List.length_append, List.length_cons, hclen, hulen]
      omega
    have hpoke := poke_append (c := '@') (b := host ++ nul :: after) (d := nul) hplace
    simpa only [List.append_assoc, List.cons_append] using hpoke
  have htextoUser := hutexto (corto ++ [nul]) (ch ++ nul :: after) rfl
  have htextoHost := hhtexto (corto ++ nul :: (cu ++ [nul])) after rfl
  rw [hsize] at hu
  rw [hsize'] at hh
  simp only [List.append_assoc, List.cons_append, List.nil_append] at hu hh htextoUser htextoHost
  simp only [compon, Option.elim_some, Nat.add_sub_cancel, hcorta, hu, hpoke, hh, textoDe, htexto,
    htextoUser, htextoHost, Option.bind_eq_bind, Option.bind_some]
  exact imprime_eq (length_take_nick nick) (length_recorta (by decide) user)
    (length_recorta (by decide) host)

/-- Case 3. -/
theorem compon_nickUser (d : Option Nat) (hnick : nul ∉ nick) (huser : nul ∉ user) :
    compon (nick ++ '!' :: (user ++ nul :: after))
      ⟨some 0, some (nick.length + 1), none, d, nick.length + 1 + user.length⟩ =
      some (makeNickUserHost (nick.take NICKLEN) (recorta USERLEN user) ['*']) := by
  obtain ⟨corto, hclen, hcorta, htexto⟩ := cortaNick_append (c := '!')
    (t := user ++ nul :: after) hnick
  obtain ⟨pu, cu, hulen, hu, hutexto⟩ := cortaInicio_append
    (t := nul :: after) (n := USERLEN) (by decide) huser (corto ++ [nul])
  have hsize : (corto ++ [nul]).length = nick.length + 1 := by simp [hclen]
  have hpoke : poke (corto ++ nul :: (cu ++ nul :: after)) (nick.length + 1 + user.length) nul =
      some (corto ++ nul :: (cu ++ nul :: after)) := by
    have hplace : (corto ++ nul :: cu).length = nick.length + 1 + user.length := by
      simp only [List.length_append, List.length_cons, hclen, hulen]
      omega
    have hpoke := poke_append (c := nul) (b := after) (d := nul) hplace
    simpa only [List.append_assoc, List.cons_append] using hpoke
  have htextoUser := hutexto (corto ++ [nul]) after rfl
  rw [hsize] at hu
  simp only [List.append_assoc, List.cons_append, List.nil_append] at hu htextoUser
  simp only [compon, Option.elim_some, Option.elim_none, Nat.add_sub_cancel, hcorta, hu, hpoke,
    textoDe, htexto, htextoUser, Option.bind_eq_bind, Option.bind_some]
  exact imprime_eq (length_take_nick nick) (length_recorta (by decide) user)
    (length_estrella (by decide))

/-- Case 4. -/
theorem compon_userHost (d : Option Nat) (after : List Char) (huser : nul ∉ user) (hhost : nul ∉ host) :
    compon (user ++ '@' :: (host ++ nul :: after))
      ⟨none, some 0, some (user.length + 1), d, user.length + 1 + host.length⟩ =
      some (makeNickUserHost ['*'] (recorta USERLEN user) (recorta HOSTLEN host)) := by
  obtain ⟨pu, cu, hulen, hu, hutexto⟩ := cortaInicio_append
    (t := '@' :: (host ++ nul :: after)) (n := USERLEN) (by decide) huser []
  obtain ⟨ph, ch, hhlen, hh, hhtexto⟩ := cortaInicio_append
    (t := nul :: after) (n := HOSTLEN) (by decide) hhost (cu ++ [nul])
  have hsize : (cu ++ [nul]).length = user.length + 1 := by simp [hulen]
  have hpoke : poke (cu ++ '@' :: (host ++ nul :: after)) user.length nul =
      some (cu ++ nul :: (host ++ nul :: after)) := poke_append hulen
  have htextoUser := hutexto [] (ch ++ nul :: after) rfl
  have htextoHost := hhtexto (cu ++ [nul]) after rfl
  rw [hsize] at hh
  simp only [List.append_assoc, List.cons_append, List.nil_append, List.length_nil, Nat.zero_add]
    at hu hh htextoUser htextoHost
  simp only [compon, Option.elim_some, Nat.add_sub_cancel, hu, hpoke, hh, textoDe, htextoUser,
    htextoHost, Option.bind_eq_bind, Option.bind_some]
  exact imprime_eq (length_estrella (by decide)) (length_recorta (by decide) user)
    (length_recorta (by decide) host)

/-- Case 2. -/
theorem compon_host (d : Option Nat) (hhost : nul ∉ host) :
    compon (host ++ nul :: after) ⟨none, none, some 0, d, host.length⟩ =
      some (makeNickUserHost ['*'] ['*'] (recorta HOSTLEN host)) := by
  obtain ⟨ph, ch, hhlen, hh, hhtexto⟩ := cortaInicio_append
    (t := nul :: after) (n := HOSTLEN) (by decide) hhost []
  have htextoHost := hhtexto [] after rfl
  simp only [List.nil_append, List.length_nil, Nat.zero_add] at hh htextoHost
  simp only [compon, hh, textoDe, htextoHost, Option.bind_eq_bind, Option.bind_some]
  exact imprime_eq (length_estrella (by decide)) (length_estrella (by decide))
    (length_recorta (by decide) host)

/-- Case 1. -/
theorem compon_nick (d : Option Nat) (hnick : nul ∉ nick) :
    compon (nick ++ nul :: after) ⟨some 0, none, none, d, nick.length⟩ =
      some (makeNickUserHost (nick.take NICKLEN) ['*'] ['*']) := by
  obtain ⟨corto, -, hcorta, htexto⟩ := cortaNick_append (c := nul) (t := after) hnick
  simp only [compon, Option.elim_none, hcorta, textoDe, htexto, Option.bind_eq_bind,
    Option.bind_some]
  exact imprime_eq (length_take_nick nick) (length_estrella (by decide))
    (length_estrella (by decide))

/-! ## The text -/

theorem exists_arroba (h : '@' ∈ s) : ∃ user host, s = user ++ '@' :: host ∧ '@' ∉ host := by
  obtain ⟨x, y, hsplit, hx⟩ := List.eq_append_cons_of_mem (List.mem_reverse.mpr h)
  refine ⟨y.reverse, x.reverse, ?_, fun hmem ↦ hx (List.mem_reverse.mp hmem)⟩
  have hrev := congrArg List.reverse hsplit
  simpa using hrev

/-- The host is behind the last `@`. -/
theorem partesHost_arroba (harroba : '@' ∉ host) :
    partesHost (user ++ '@' :: host) = (user, host) := by
  have htras : trasUltimo '@' (user ++ '@' :: host) = some host := by
    have hstop : (host.reverse ++ '@' :: user.reverse).takeWhile (· ≠ '@') = host.reverse :=
      takeWhile_stop _ (fun x hx ↦ decide_eq_true fun heq ↦
        harroba (heq ▸ List.mem_reverse.mp hx)) (by simp)
    rw [trasUltimo, if_pos (by simp), List.reverse_append, List.reverse_cons, List.append_assoc,
      List.singleton_append, hstop, List.reverse_reverse]
  have hlen : (user ++ '@' :: host).length - host.length - 1 = user.length := by
    rw [List.length_append, List.length_cons]
    omega
  rw [partesHost, htras]
  show ((user ++ '@' :: host).take ((user ++ '@' :: host).length - host.length - 1), host) = _
  rw [hlen, List.take_left]

theorem partesHost_sin (harroba : '@' ∉ s) : partesHost s = (s, ['*']) := by
  rw [partesHost, trasUltimo, if_neg harroba]

section

variable (hnick : ∀ c ∈ nick, deNick c = true)
include hnick

/-- A mask whose first separator is a `!`. -/
theorem prettyMask_marca (resto : CStr) :
    prettyMask (nick ++ '!' :: resto) =
      makeNickUserHost (nick.take NICKLEN) (recorta USERLEN (partesHost resto).1)
        (recorta HOSTLEN (partesHost resto).2) := by
  have htake := takeWhile_stop (p := deNick) (c := '!') resto hnick (by decide)
  have hdrop := dropWhile_stop (p := deNick) (c := '!') resto hnick (by decide)
  rw [prettyMask, show (fun c : Char ↦ decide (c ≠ '!' ∧ c ≠ '@')) = deNick from rfl, htake, hdrop]
  rfl

/-- A mask whose first separator is an `@`. -/
theorem prettyMask_arroba (resto : CStr) :
    prettyMask (nick ++ '@' :: resto) =
      makeNickUserHost ['*'] (recorta USERLEN (partesHost (nick ++ '@' :: resto)).1)
        (recorta HOSTLEN (partesHost (nick ++ '@' :: resto)).2) := by
  have hdrop := dropWhile_stop (p := deNick) (c := '@') resto hnick (by decide)
  rw [prettyMask, show (fun c : Char ↦ decide (c ≠ '!' ∧ c ≠ '@')) = deNick from rfl, hdrop]
  rfl

/-- A mask without separators. -/
theorem prettyMask_llana :
    prettyMask nick =
      if nick.any fun c ↦ c = '.' ∨ c = ':' then
        makeNickUserHost ['*'] ['*'] (recorta HOSTLEN nick)
      else makeNickUserHost (nick.take NICKLEN) ['*'] ['*'] := by
  have htake : nick.takeWhile deNick = nick := List.takeWhile_eq_self_iff.mpr hnick
  have hdrop : nick.dropWhile deNick = [] := List.dropWhile_eq_nil_iff.mpr hnick
  rw [prettyMask, show (fun c : Char ↦ decide (c ≠ '!' ∧ c ≠ '@')) = deNick from rfl, htake, hdrop]

end

/-- A mask has a first separator, or none. -/
theorem exists_deNick (s : CStr) : ∃ nick, (∀ c ∈ nick, deNick c = true) ∧
    (s = nick ∨ ∃ resto, s = nick ++ '!' :: resto ∨ s = nick ++ '@' :: resto) := by
  refine ⟨s.takeWhile deNick, fun c hc ↦ List.mem_takeWhile_imp hc, ?_⟩
  have hsplit := (List.takeWhile_append_dropWhile (p := deNick) (l := s)).symm
  cases hrest : s.dropWhile deNick with
  | nil => exact .inl (by rwa [hrest, List.append_nil] at hsplit)
  | cons c resto =>
      have hc : deNick c = false := by
        have hhead := List.head?_dropWhile_not deNick s
        simpa [hrest] using hhead
      rw [hrest] at hsplit
      rw [deNick, decide_eq_false_iff_not, not_and_or, not_not, not_not] at hc
      rcases hc with rfl | rfl
      · exact .inr ⟨resto, .inl hsplit⟩
      · exact .inr ⟨resto, .inr hsplit⟩

/-- `pretty_mask` stays inside the mask and inside `namebuf`, and the text is that of
`prettyMask`. -/
theorem prettyMaskEn_eq (hs : nul ∉ s) (after : List Char) :
    prettyMaskEn (memory s after) = some (prettyMask s) := by
  obtain ⟨nick, hnick, hcase⟩ := exists_deNick s
  rcases hcase with rfl | ⟨resto, rfl | rfl⟩
  · obtain ⟨d, hpasada, hd⟩ := pasada_nick hs hnick none 0 (nul :: after)
    have hfin : pasada d (0 + s.length) (nul :: after) = some ⟨some 0, none, none, d, s.length⟩ := by
      rw [pasada, if_pos rfl, Nat.zero_add]
    rw [hfin] at hpasada
    rw [prettyMaskEn, memory, hpasada, prettyMask_llana hnick]
    show (if none = none ∧ d ≠ none then compon _ _ else compon _ _) = _
    by_cases hdot : d ≠ none
    · rw [if_pos ⟨rfl, hdot⟩, if_pos ((hd.mp hdot).resolve_left (by simp))]
      exact compon_host d hs
    · rw [if_neg (fun h ↦ hdot h.2), if_neg fun h ↦ hdot (hd.mpr (.inr h))]
      exact compon_nick d hs
  · have hn : nul ∉ nick := fun h ↦ hs (List.mem_append_left _ h)
    have hr : nul ∉ resto := fun h ↦ hs (List.mem_append_right _ (List.mem_cons_of_mem _ h))
    obtain ⟨d, hpasada, -⟩ := pasada_nick hn hnick none 0 ('!' :: (resto ++ nul :: after))
    rw [prettyMaskEn, memory, prettyMask_marca hnick, List.append_assoc, List.cons_append, hpasada,
      pasada, if_neg (by decide), if_pos rfl, Nat.zero_add]
    by_cases harroba : '@' ∈ resto
    · obtain ⟨user, host, rfl, hno⟩ := exists_arroba harroba
      have hu : nul ∉ user := fun h ↦ hr (List.mem_append_left _ h)
      have hh : nul ∉ host := fun h ↦ hr (List.mem_append_right _ (List.mem_cons_of_mem _ h))
      rw [partesHost_arroba hno, List.append_assoc, List.cons_append, ultimaArroba_arroba hu hh hno]
      exact compon_nickUserHost d hn hu hh
    · rw [partesHost_sin harroba, ultimaArroba_sin hr harroba]
      exact compon_nickUser d hn hr
  · have hn : nul ∉ nick := fun h ↦ hs (List.mem_append_left _ h)
    have hr : nul ∉ resto := fun h ↦ hs (List.mem_append_right _ (List.mem_cons_of_mem _ h))
    obtain ⟨d, hpasada, -⟩ := pasada_nick hn hnick none 0 ('@' :: (resto ++ nul :: after))
    rw [prettyMaskEn, memory, prettyMask_arroba hnick, List.append_assoc, List.cons_append, hpasada,
      pasada, if_neg (by decide), if_neg (by decide), if_pos rfl, Nat.zero_add]
    by_cases harroba : '@' ∈ resto
    · obtain ⟨user, host, rfl, hno⟩ := exists_arroba harroba
      have hu : nul ∉ user := fun h ↦ hr (List.mem_append_left _ h)
      have hh : nul ∉ host := fun h ↦ hr (List.mem_append_right _ (List.mem_cons_of_mem _ h))
      have huser : nul ∉ nick ++ '@' :: user := fun h ↦ (List.mem_append.mp h).elim hn fun h ↦
        hu ((List.mem_cons.mp h).resolve_left (by decide))
      have hsplit : nick ++ '@' :: (user ++ '@' :: host) = (nick ++ '@' :: user) ++ '@' :: host := by
        simp
      have hlen : (nick ++ '@' :: user).length = nick.length + 1 + user.length := by
        rw [List.length_append, List.length_cons]
        omega
      have hcompon := compon_userHost d after huser hh
      rw [hlen] at hcompon
      rw [hsplit, partesHost_arroba hno, List.append_assoc, List.cons_append,
        ultimaArroba_arroba hu hh hno, ← hcompon]
      simp
    · rw [partesHost_arroba harroba, ultimaArroba_sin hr harroba]
      exact compon_userHost d after hn hr

/-! ## The form of the result -/

/-- The masks that `pretty_mask` makes. -/
structure Canonica (nick user host : CStr) : Prop where
  separado : ∀ c ∈ nick, deNick c = true
  ultimo : '@' ∉ host
  nickLen : nick.length ≤ NICKLEN
  userLen : user.length ≤ USERLEN
  hostLen : host.length ≤ HOSTLEN

/-- A mask whose separators are the first `!` and the last `@`. -/
theorem prettyMask_makeNickUserHost (hnick : ∀ c ∈ nick, deNick c = true) (hhost : '@' ∉ host) :
    prettyMask (makeNickUserHost nick user host) =
      makeNickUserHost (nick.take NICKLEN) (recorta USERLEN user) (recorta HOSTLEN host) := by
  have hassoc : makeNickUserHost nick user host = nick ++ '!' :: (user ++ '@' :: host) := by
    simp [makeNickUserHost]
  rw [hassoc, prettyMask_marca hnick, partesHost_arroba hhost]

theorem recorta_of_le (h : s.length ≤ n) : recorta n s = s :=
  if_neg (Nat.not_lt_of_le h)

theorem not_mem_recorta (h : '@' ∉ s) : '@' ∉ recorta n s := fun hmem ↦
  (mem_recorta hmem).elim (by decide) h

/-- Nothing of such a mask is cut. -/
theorem Canonica.prettyMask_eq (h : Canonica nick user host) :
    prettyMask (makeNickUserHost nick user host) = makeNickUserHost nick user host := by
  rw [prettyMask_makeNickUserHost h.separado h.ultimo, List.take_of_length_le h.nickLen,
    recorta_of_le h.userLen, recorta_of_le h.hostLen]

/-- The parts that have been cut are those of such a mask. -/
theorem canonica_recorta (user : CStr) (hnick : ∀ c ∈ nick, deNick c = true) (hhost : '@' ∉ host) :
    Canonica (nick.take NICKLEN) (recorta USERLEN user) (recorta HOSTLEN host) where
  separado := fun c hc ↦ hnick c (List.mem_of_mem_take hc)
  ultimo := not_mem_recorta hhost
  nickLen := length_take_nick nick
  userLen := length_recorta (n := USERLEN) (by decide) user
  hostLen := length_recorta (n := HOSTLEN) (by decide) host

theorem not_mem_partesHost (s : CStr) : '@' ∉ (partesHost s).2 := by
  by_cases h : '@' ∈ s
  · obtain ⟨user, host, rfl, hno⟩ := exists_arroba h
    rwa [partesHost_arroba hno]
  · rw [partesHost_sin h]
    show '@' ∉ ['*']
    decide

/-- Each result of `pretty_mask` has the form `nick!user@host`. -/
theorem exists_canonica (s : CStr) : ∃ nick user host, Canonica nick user host ∧
    prettyMask s = makeNickUserHost nick user host := by
  have hestrella : ∀ c ∈ ['*'], deNick c = true := by simp [deNick]
  obtain ⟨nick, hnick, hcase⟩ := exists_deNick s
  rcases hcase with rfl | ⟨resto, rfl | rfl⟩
  · rw [prettyMask_llana hnick]
    split
    · have hno : '@' ∉ s := fun h ↦ absurd (hnick '@' h) (by decide)
      exact ⟨_, _, _, canonica_recorta ['*'] hestrella hno, rfl⟩
    · exact ⟨_, _, _, canonica_recorta ['*'] hnick (show '@' ∉ ['*'] by decide), rfl⟩
  · exact ⟨_, _, _, canonica_recorta _ hnick (not_mem_partesHost resto), prettyMask_marca hnick resto⟩
  · exact ⟨_, _, _, canonica_recorta _ hestrella (not_mem_partesHost _), prettyMask_arroba hnick resto⟩

/-! ## What the masks match -/

variable {f : Char → Char} {t : List Char}

/-- What an escaped wildcard matches, the wildcard matches. -/
theorem mem_star_of_escape {w : Char} {y : CStr} (hw : isWild w = true)
    (h : t ∈ lang f (.lit w :: tokens y)) : t ∈ lang f (.star :: tokens (w :: y)) := by
  cases t with
  | nil => exact absurd h (by simp)
  | cons d t =>
      have ht := (Wildcard.cons_mem_lit.mp h).2
      rw [isWild, decide_eq_true_eq] at hw
      rcases hw with rfl | rfl
      · show d :: t ∈ lang f (.star :: .star :: tokens y)
        exact Wildcard.mem_star_star.mpr
          (Wildcard.mem_star_of_suffix (List.suffix_cons d t) (Wildcard.mem_star_of_mem ht))
      · show d :: t ∈ lang f (.star :: .one :: tokens y)
        exact Wildcard.mem_star_of_mem (Wildcard.cons_mem_one.mpr ht)

/-- What a mask matches, a star and the end of the mask match. -/
theorem mem_star_tokens {x y : CStr} (h : t ∈ lang f (tokens (x ++ y))) :
    t ∈ lang f (.star :: tokens y) := by
  induction x using mask_induction generalizing t with
  | nil => exact Wildcard.mem_star_of_mem h
  | star m ih =>
      obtain ⟨z, hz, hmem⟩ := Wildcard.mem_star.mp (show t ∈ lang f (.star :: tokens (m ++ y)) from h)
      exact Wildcard.mem_star_of_suffix hz (ih hmem)
  | quest m ih =>
      have hone : t ∈ lang f (.one :: tokens (m ++ y)) := h
      cases t with
      | nil => exact absurd hone (by simp)
      | cons d t =>
          exact Wildcard.mem_star_of_suffix (List.suffix_cons d t)
            (ih (Wildcard.cons_mem_one.mp hone))
  | lit m c r hlit ih =>
      have hstep : t ∈ lang f (.lit c :: tokens (r ++ y)) → t ∈ lang f (.star :: tokens y) := by
        intro hmem
        cases t with
        | nil => exact absurd hmem (by simp)
        | cons d t =>
            exact Wildcard.mem_star_of_suffix (List.suffix_cons d t)
              (ih (Wildcard.cons_mem_lit.mp hmem).2)
      cases hlit with
      | escape hc =>
          have heq : tokens ('\\' :: c :: r ++ y) = .lit c :: tokens (r ++ y) :=
            (Literal.escape hc : Literal ('\\' :: c :: (r ++ y)) c (r ++ y)).tokens_eq
          rw [heq] at h
          exact hstep h
      | plain hc hr =>
          by_cases hcut : c = '\\' → AtLiteral (r ++ y)
          · have heq : tokens (c :: r ++ y) = .lit c :: tokens (r ++ y) :=
              (Literal.plain hc hcut : Literal (c :: (r ++ y)) c (r ++ y)).tokens_eq
            rw [heq] at h
            exact hstep h
          · -- The cut separates a backslash from the wildcard that it escapes.
            obtain ⟨hslash, hat⟩ := Classical.not_imp.mp hcut
            cases r with
            | cons e r => exact absurd (hr hslash) hat
            | nil =>
                cases y with
                | nil => exact absurd (fun _ h ↦ by cases h) hat
                | cons w y =>
                    have hw : isWild w = true := by
                      by_contra hno
                      exact hat fun e he ↦ by cases he; simpa using hno
                    have heq : tokens ([c] ++ w :: y) = .lit w :: tokens y := by
                      rw [hslash]
                      exact (Literal.escape hw : Literal ('\\' :: w :: y) w y).tokens_eq
                    rw [heq] at h
                    exact mem_star_of_escape hw h

/-- A part that is cut matches more. -/
theorem mem_tokens_recorta {y : CStr} (h : t ∈ lang f (tokens (s ++ y))) :
    t ∈ lang f (tokens (recorta n s ++ y)) := by
  rw [recorta]
  split
  · have hsplit : s ++ y =
        s.take (s.length - n + 1) ++ (s.drop (s.length - n + 1) ++ y) := by
      rw [← List.append_assoc, List.take_append_drop]
    rw [hsplit] at h
    exact mem_star_tokens h
  · exact h

/-- The first `!` and the last `@` of a mask with both, where no `@` is in the nick. -/
theorem exists_separado (harroba : '@' ∉ nick) : ∃ nick' user' host',
    makeNickUserHost nick user host = makeNickUserHost nick' user' host' ∧
    (∀ c ∈ nick', deNick c = true) ∧ '@' ∉ host' ∧ nick'.length ≤ nick.length := by
  obtain ⟨resto, hresto⟩ : ∃ r, r = user ++ '@' :: host := ⟨_, rfl⟩
  have hassoc : ∀ n u h, makeNickUserHost n u h = n ++ '!' :: (u ++ '@' :: h) := fun n u h ↦ by
    simp [makeNickUserHost]
  obtain ⟨nick', hnick, hcase⟩ := exists_deNick nick
  obtain ⟨user', hsplit, hlen, hresto'⟩ : ∃ user', nick ++ '!' :: resto = nick' ++ '!' :: user' ∧
      nick'.length ≤ nick.length ∧ '@' ∈ user' := by
    rcases hcase with rfl | ⟨b, rfl | rfl⟩
    · exact ⟨resto, rfl, Nat.le_refl _, by simp [hresto]⟩
    · exact ⟨b ++ '!' :: resto, by simp, by simp, by simp [hresto]⟩
    · exact absurd (by simp) harroba
  obtain ⟨user'', host', rfl, hhost⟩ := exists_arroba hresto'
  refine ⟨nick', user'', host', ?_, hnick, hhost, hlen⟩
  rw [hassoc, hassoc, ← hresto, hsplit]

/-- What `nick!user@host` matches, its parts match behind their cuts. -/
theorem mem_tokens_makeNickUserHost
    (h : t ∈ lang f (tokens (makeNickUserHost nick user host))) :
    t ∈ lang f (tokens (makeNickUserHost nick (recorta USERLEN user) (recorta HOSTLEN host))) := by
  have hnick : ∀ u h, tokens (makeNickUserHost nick u h) =
      tokens (nick ++ ['!']) ++ tokens (u ++ '@' :: h) := by
    intro u h
    rw [← tokens_append (by simp)]
    simp [makeNickUserHost]
  have huser : ∀ u h, tokens (u ++ '@' :: h) = tokens (u ++ ['@']) ++ tokens h := by
    intro u h
    rw [← tokens_append (by simp)]
    simp
  rw [hnick] at h ⊢
  refine Wildcard.mem_append_mono (fun z hz ↦ ?_) h
  have hz := mem_tokens_recorta (n := USERLEN) hz
  rw [huser] at hz ⊢
  refine Wildcard.mem_append_mono (fun z hz ↦ ?_) hz
  rw [← List.append_nil host] at hz
  simpa using mem_tokens_recorta (n := HOSTLEN) hz

/-- `pretty_mask` is stable. On every mask it stays inside the buffers and makes `nick!user@host`
within the limits, which it leaves as it is the second time. Where the mask has that form already,
with a nick that is not too long and has no `@`, nothing that it matches is lost: neither for the
language of the masks nor for `match`. -/
theorem prettyMask_estable (m : CStr) (hm : nul ∉ m) (after : List Char) : ∃ r,
    prettyMaskEn (memory m after) = some r ∧
    (∃ nick user host, Canonica nick user host ∧ r = makeNickUserHost nick user host) ∧
    r.length < NAMEBUFLEN ∧
    (∀ after, prettyMaskEn (memory r after) = some r) ∧
    ∀ nick user host, m = makeNickUserHost nick user host → '@' ∉ nick → nick.length ≤ NICKLEN →
      ∀ t : List Char, nul ∉ t →
        (t ∈ lang toLower (tokens m) → t ∈ lang toLower (tokens r)) ∧
        (Exact m t → ∀ behind, ircMatch m (memory t behind) = true →
          ircMatch r (memory t behind) = true) := by
  obtain ⟨nick, user, host, hcanonica, hpretty⟩ := exists_canonica m
  have hnul : nul ∉ prettyMask m := by
    intro hmem
    rcases mem_prettyMask hmem with h | h | h | h
    · exact absurd h (by decide)
    · exact absurd h (by decide)
    · exact absurd h (by decide)
    · exact hm h
  refine ⟨prettyMask m, prettyMaskEn_eq hm after, ⟨nick, user, host, hcanonica, hpretty⟩, ?_, ?_, ?_⟩
  · have hnick := hcanonica.nickLen
    have huser := hcanonica.userLen
    have hhost := hcanonica.hostLen
    rw [hpretty]
    simp only [makeNickUserHost, NAMEBUFLEN, List.length_append, List.length_cons]
    omega
  · intro after
    rw [prettyMaskEn_eq hnul, hpretty, hcanonica.prettyMask_eq]
  · intro nick user host hform harroba hlen t ht
    have hmem : t ∈ lang toLower (tokens m) → t ∈ lang toLower (tokens (prettyMask m)) := by
      obtain ⟨nick', user', host', heq, hnick', hhost', hlen'⟩ := exists_separado harroba
      rw [hform, heq, prettyMask_makeNickUserHost hnick' hhost',
        List.take_of_length_le (Nat.le_trans hlen' hlen)]
      exact mem_tokens_makeNickUserHost
    refine ⟨hmem, ?_⟩
    rintro ⟨b, -, hb, hmatch⟩ behind hcasa
    rw [hmatch] at hcasa
    exact ircMatch_of_mem hnul ht (hmem (hb.mp hcasa)) behind

/-- A user name that is too long is cut, and the mask still matches its own text. -/
theorem prettyMask_estable_largo :
    "ana!usuario.largo@es".toList ∈ lang toLower (tokens "ana!*rio.largo@es".toList) := by
  obtain ⟨r, hr, -, -, -, hmas⟩ := prettyMask_estable "ana!usuario.largo@es".toList (by decide) []
  rw [show prettyMaskEn (memory "ana!usuario.largo@es".toList []) =
    some "ana!*rio.largo@es".toList by decide] at hr
  obtain rfl := Option.some.inj hr
  refine (hmas "ana".toList "usuario.largo".toList "es".toList (by decide) (by decide) (by decide)
    "ana!usuario.largo@es".toList (by decide)).1 ?_
  have htokens : tokens "ana!usuario.largo@es".toList =
      "ana!usuario.largo@es".toList.map .lit := by decide
  rw [htokens]
  simp

/-- An `@` before the `!` makes the nick a part of the user name, and what the mask matches is
lost. -/
theorem not_prettyMask_estable :
    prettyMaskEn (memory "a@b!c@d".toList []) = some "*!a@b!c@d".toList ∧
    "a@b!c@d".toList = makeNickUserHost "a@b".toList "c".toList "d".toList ∧
    "a@b".toList.length ≤ NICKLEN ∧
    "a@b!c@d".toList ∈ lang toLower (tokens "a@b!c@d".toList) ∧
    "a@b!c@d".toList ∉ lang toLower (tokens "*!a@b!c@d".toList) := by
  refine ⟨by decide, by decide, by decide, ?_, fun h ↦ ?_⟩
  · have htokens : tokens "a@b!c@d".toList = "a@b!c@d".toList.map .lit := by decide
    rw [htokens]
    simp
  · have hlen := Wildcard.minLength_le h
    exact absurd hlen (by decide)

end Ircd.Channel
