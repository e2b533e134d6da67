import Ircd.Addr.Printable
import Ircd.Addr.Range
import Ircd.Gline.Lists

/-!
# The GLINE command

`m_gline`, `ms_gline`, `mo_gline`, `add_gline`, `modifica_gline` and `spam_gline` of
`ircd/opercmds.c`. `Efecto` lists what an order does to the entries: it adds one with a new mask,
changes the times and the activation of one, or takes one out that has the mask of the order.
`Bien.orden` and `Bien.spamGline` say that the orders do nothing else; in particular an operator
without a U line adds and takes out no entry, because `add_gline` refuses what has no modification
time and no entry is ever local.
-/

namespace Ircd.Gline

open CString Hash Match Addr IPcheck

/-! ## What the orders read -/

/-- The clock of the machine, and its difference to that of the network. -/
structure Reloj where
  now : Int
  tsOffset : Int

/-- `TStime ()`. -/
def Reloj.tsTime (r : Reloj) : Int :=
  r.now + r.tsOffset

/-- What the functions read of `cptr` and `sptr`, which are one client unless `cptr` is a server.
`destino` says of `parv[1]` that it names this server, or a connection of it that is no server. -/
structure Origen where
  servidor : Bool
  user : Bool
  anOper : Bool
  hub : Bool
  uline : Bool
  burst : Bool
  privGline : Bool
  privLocalGline : Bool
  privLocalBadchan : Bool
  destino : Bool

/-- The user and the host of a mask. -/
def separa (mask : CStr) : CStr × CStr :=
  if '@' ∈ mask then (before mask '@', strchr mask '@') else (['*'], mask)

/-- The test of `ms_gline` and `spam_gline` for an entry with the user and the host. -/
def AGline.mismaMascara (agline : AGline) (user host : CStr) : Bool :=
  strCasediff agline.name user = 0 ∧
    (agline.realname ∧ agline.host = host ∨ ¬agline.realname ∧ strCasediff agline.host host = 0)

/-- The mode of a mask, which is a minus for a removal, and the rest of it. -/
def modo (mask : CStr) : Bool × CStr :=
  (peek mask ≠ '-', if peek mask = '+' ∨ peek mask = '-' then mask.tail else mask)

/-- The mask that `ms_gline` works with. A user may name a nick, which `ip` replaces by the address
of the client. -/
def mascara (ip : CStr → Option CStr) (e : Origen) (mask : CStr) : CStr × CStr :=
  let mask := (modo mask).2
  separa <|
    if e.uline ∧ e.user ∧ ¬('@' ∈ mask ∨ '.' ∈ mask ∨ ':' ∈ mask) then (ip mask).getD mask else mask

/-! ## The functions -/

namespace Glines

/-- Fields of an entry are written. -/
def escribe (agline : Nat) (f : AGline → AGline) (s : Glines) : Glines :=
  { s with dato := Function.update s.dato agline (f (s.dato agline)) }

/-- `add_gline`. -/
def addGline (e : Origen) (tsTime : Int) (host comment user : CStr) (expire lastmod lifetime : Int)
    (isLocal isSpamGline : Bool) (s : Glines) : Glines :=
  let lifetime := if lifetime = 0 then expire else lifetime
  if ¬isSpamGline ∧ ((¬e.hub ∨ ¬e.uline) ∧ lastmod = 0) then s
  else
    let lastmod := if lastmod = 0 then tsTime else lastmod
    let lifetime := if lifetime = 0 then expire else lifetime
    let (agline, s) := s.makeGline host comment user expire lastmod lifetime
    if isLocal then s.escribe agline fun g ↦ { g with isLocal := true } else s

/-- `modifica_gline`. -/
def modificaGline (uline : Bool) (tsTime : Int) (agline : Nat) (expire lastmod lifetime : Int)
    (s : Glines) : Glines :=
  if ¬uline ∧ lastmod ≤ (s.dato agline).lastmod then s
  else
    let lifetime := if lifetime = 0 then expire else lifetime
    let lastmod := if lastmod = 0 then tsTime else lastmod
    s.escribe agline fun g ↦ { g with expire := expire, lastmod := lastmod, lifetime := lifetime }

/-- The first entry of a list that passes a test, with the one before it. -/
def busca (i : Lista) (good : AGline → Bool) (s : Glines) : Option Nat × Option Nat :=
  Cells.locate s.next (fun p ↦ good (s.dato p)) s.count none (s.head i)

/-- `ms_gline`. -/
def msGline (ip : CStr → Option CStr) (e : Origen) (tsTime : Int) (parv : List CStr) (s : Glines) :
    Glines :=
  let parc := parv.length
  let arg n := parv.getD n []
  let lastmod := if parc > 5 then atoi (arg 4) else 0
  let lifetime := if parc > 6 then atoi (arg 5) else 0
  if parc < 3 ∨ peek (arg 2) ≠ '-' ∧ (parc < 5 ∨ peek (arg (parc - 1)) = nul) then s
  else
    let active := (modo (arg 2)).1
    if ¬e.uline ∧ (¬e.hub ∨ lastmod = 0 ∨ ¬e.burst) then s
    -- `propaga_gline` says whether the order is for this server too.
    else if e.uline ∧ strCasediff (arg 1) ['*'] ≠ 0 ∧ ¬e.destino then s
    else
      let (user, host) := mascara ip e (arg 2)
      match s.busca (Lista.de host) fun g ↦ g.mismaMascara user host with
      | (a2gline, some agline) =>
          if ¬active then
            if ¬e.uline then s else s.freeGline agline a2gline
          else s.modificaGline e.uline tsTime agline (atoi (arg 3) + tsTime) lastmod lifetime
      | (_, none) =>
          if active then
            s.addGline e tsTime host (arg (parc - 1)) user (atoi (arg 3) + tsTime) lastmod lifetime
              false false
          else s

/-- `mo_gline` behind its search. `active` is `none` where the mask has no mode, and `expire` is 0
where the order has no time. -/
def moAplica (e : Origen) (r : Reloj) (active : Option Bool) (expire : Int) (user host : CStr)
    (parv : List CStr) (s : Glines) : Glines :=
  match s.busca (Lista.de host) fun g ↦ mmatch g.name user && mmatch g.host host with
  | (_, none) =>
      if e.privLocalGline ∧ active ≠ some false ∧ expire > r.now then
        if parv.length < 4 ∨ ' ' ∉ parv.getD 3 [] then s
        else s.addGline e r.tsTime host (parv.getD 3 []) user expire 0 0 true false
      else s
  | (a2gline, some agline) =>
      let g := s.dato agline
      let expire := if expire ≤ g.expire then 0 else expire
      let prolonga (s : Glines) : Glines :=
        if expire ≠ 0 then s.escribe agline fun g ↦ { g with expire := expire } else s
      match active with
      | none => if expire = 0 then s else prolonga s
      | some active =>
          if active = g.active then if expire = 0 then s else prolonga s
          else if active then prolonga (s.escribe agline fun g ↦ { g with active := true })
          else if g.isLocal ∧ e.privLocalGline then s.freeGline agline a2gline
          else prolonga (s.escribe agline fun g ↦ { g with active := false })

/-- `mo_gline`. -/
def moGline (e : Origen) (r : Reloj) (parv : List CStr) (s : Glines) : Glines :=
  let parc := parv.length
  let arg n := parv.getD n []
  if parc < 2 ∨ peek (arg 1) = nul then s
  else
    let conModo := e.privLocalGline ∧ (peek (arg 1) = '-' ∨ peek (arg 1) = '+')
    let active := if conModo then some (modo (arg 1)).1 else none
    let expire := if e.privLocalGline ∧ parc > 2 then atoi (arg 2) + r.tsTime else 0
    if ¬e.privGline then s
    else
      let (user, host) := separa (if conModo then (modo (arg 1)).2 else arg 1)
      if esCanal host ∧ ¬e.privLocalBadchan then s
      else s.moAplica e r active expire user host parv

/-- `m_gline` behind its loops. -/
def orden (ip : CStr → Option CStr) (e : Origen) (r : Reloj) (parv : List CStr) (s : Glines) :
    Glines :=
  if e.servidor then s.msGline ip e r.tsTime parv
  else if e.user ∧ e.anOper then
    if e.uline then s.msGline ip e r.tsTime parv else s.moGline e r parv
  else s

/-- `m_gline`. -/
def mGline (ip : CStr → Option CStr) (e : Origen) (r : Reloj) (parv : List CStr) (s : Glines) :
    Glines :=
  ((s.barrido .gline r.tsTime).barrido .badchan r.tsTime).orden ip e r parv

end Glines

/-- `ipmask_range`: the first address of the block. -/
def ipmaskRange (ip : IrcInAddr) (bits : Nat) : IrcInAddr :=
  let bits := if isIpv4 ip then bits + 96 else bits
  let div := bits / 16
  conSegmentos ((segmentos ip).mapIdx fun i x ↦
    if i < div then x
    else
      -- The low bits of the segment, `jmin` of them left out, are cleared.
      let borra := 16 - if i = div then bits - div * 16 else 0
      htons ((htons x).toNat / 2 ^ borra * 2 ^ borra).toUInt16)

/-- The first address of the block of `Addr.ipmaskRange`. -/
theorem ipmaskRange_eq_fst (ip : IrcInAddr) (bits : Nat) :
    ipmaskRange ip bits = (Addr.ipmaskRange ip bits).1 := by
  simp only [ipmaskRange, Addr.ipmaskRange]
  generalize (if isIpv4 ip then bits + 96 else bits) = n
  refine congrArg conSegmentos (List.ext_getElem (by simp) fun i h h' ↦ ?_)
  rw [List.getElem_map, List.getElem_mapIdx, List.getElem_mapIdx]
  have hi : i < (segmentos ip).length := by simpa using h
  generalize (segmentos ip)[i] = x
  rw [rangoSegmento]
  by_cases hi : i < n / 16
  · simp [hi]
  · rw [if_neg hi, if_neg hi]
    have hj : (if i = n / 16 then n - n / 16 * 16 else 0) ≤ 16 := by split <;> omega
    have h := (rondas_toNat hj (htons x).toBitVec).1
    refine congrArg htons (UInt16.toNat_inj.mp (Eq.trans ?_ h.symm))
    rw [Nat.toUInt16, UInt16.toNat_ofNat']
    exact Nat.mod_eq_of_lt ((Nat.div_mul_le_self _ _).trans_lt (htons x).toNat_lt)

/-- `ircd_ntoa_cidr`. -/
def ircdNtoaCidr (ip : IrcInAddr) (bits : Nat) : CStr :=
  let bits :=
    if bits ≠ 0 then bits
    else if isIpv4 ip then 32
    else if segmento ip 0 = htons 0x2002 then 48
    else 64
  if isIpv4 ip ∧ bits = 32 ∨ ¬isIpv4 ip ∧ bits = 128 then ircdNtoa ip
  else ircdNtoa (ipmaskRange ip bits) ++ '/' :: decimal bits

/-- `spam_gline`. `uline` says whether the server has a U line for itself. -/
def Glines.spamGline (uline : Bool) (tsTime : Int) (ip : IrcInAddr) (gexpire : Int) (reason : CStr)
    (s : Glines) : Glines :=
  let host := ircdNtoaCidr ip 0
  match s.busca .gline fun g ↦ g.mismaMascara ['*'] host with
  | (_, some agline) => s.modificaGline uline tsTime agline (gexpire + tsTime) 0 0
  | (_, none) =>
      s.addGline
        { servidor := true, user := false, anOper := false, hub := false, uline := uline,
          burst := false, privGline := false, privLocalGline := false, privLocalBadchan := false,
          destino := false }
        tsTime host reason ['*'] (gexpire + tsTime) 0 0 false true

/-! ## Entries with the same mask -/

/-- The host is that of a real name. -/
def esRealname (host : CStr) : Bool :=
  peek host = '$' ∧ (peek host.tail = 'R' ∨ peek host.tail = 'r')

/-- The same user and host up to case. Real names are compared as they are, because they are regular
expressions. -/
def AGline.Misma (g g' : AGline) : Prop :=
  fold g.name = fold g'.name ∧ fold g.host = fold g'.host ∧ (esRealname g.host → g.host = g'.host)

theorem peek_fold (s : CStr) : peek (fold s) = toLower (peek s) := by
  cases s with
  | nil => decide
  | cons c s => rfl

/-- Hosts that are equal up to case are of the same kind. -/
theorem esRealname_fold (host : CStr) :
    esRealname host = (peek (fold host) = '$' ∧ peek (fold host.tail) = 'r' : Bool) := by
  have hr : ∀ c : Char, toLower c = 'r' ↔ c = 'R' ∨ c = 'r' := by
    intro c
    constructor
    · intro h
      by_cases hc : isUpperCode c.toNat = true
      · rw [toLower, if_pos hc] at h
        have hcode := congrArg Char.toNat h
        rw [toNat_ofNat_of_isUpperCode hc] at hcode
        have hR : c.toNat = 'R'.toNat := by
          have hnum : 'r'.toNat = 'R'.toNat + 32 := by decide
          omega
        exact Or.inl (Char.toNat_inj.mp hR)
      · rw [toLower, if_neg hc] at h
        exact Or.inr h
    · rintro (rfl | rfl) <;> decide
  rw [esRealname, peek_fold, peek_fold]
  simp only [hr, toLower_eq_iff (show toLower '$' = '$' by decide) (by decide)]

theorem esRealname_congr {host host' : CStr} (h : fold host = fold host') :
    esRealname host = esRealname host' := by
  have htail : fold host.tail = fold host'.tail := by
    have hmap := congrArg List.tail h
    rwa [fold, fold, ← List.map_tail, ← List.map_tail] at hmap
  rw [esRealname_fold, esRealname_fold, h, htail]

theorem Lista.de_congr {host host' : CStr} (h : fold host = fold host') :
    Lista.de host = Lista.de host' := by
  have hiff : ∀ s : CStr, esCanal s =
      (peek (fold s) = '#' ∨ peek (fold s) = '&' ∨ peek (fold s) = '+' : Bool) := by
    intro s
    rw [peek_fold, esCanal]
    simp only [toLower_eq_iff (show toLower '#' = '#' by decide) (by decide),
      toLower_eq_iff (show toLower '&' = '&' by decide) (by decide),
      toLower_eq_iff (show toLower '+' = '+' by decide) (by decide)]
  rw [Lista.de, Lista.de, hiff, hiff, h]

theorem AGline.Misma.symm {g g' : AGline} (h : g.Misma g') : g'.Misma g :=
  ⟨h.1.symm, h.2.1.symm, fun hreal ↦ (h.2.2 (by rwa [esRealname_congr h.2.1])).symm⟩

/-- The test of `ms_gline` is that for the same mask. -/
theorem AGline.mismaMascara_iff {g : AGline} (hreal : g.realname = esRealname g.host)
    (g' : AGline) : g.mismaMascara g'.name g'.host = true ↔ g.Misma g' := by
  rw [AGline.mismaMascara, decide_eq_true_eq, strCasediff_eq_zero, strCasediff_eq_zero, hreal,
    AGline.Misma]
  refine and_congr_right fun _ ↦ ?_
  cases h : esRealname g.host with
  | true =>
      simp only [true_and, not_true_eq_false, false_and, or_false, forall_const]
      exact ⟨fun heq ↦ ⟨congrArg fold heq, heq⟩, fun hboth ↦ hboth.2⟩
  | false => simp

/-! ## What holds of the entries -/

/-- The invariant of the lists: no two entries of one list have the same mask, every entry is in its
list or has been freed, and none was freed twice. -/
structure Bien (s : Glines) : Prop where
  forma : Forma s s.nodos
  locales : ∀ i, ∀ p ∈ s.nodos i, (s.dato p).isLocal = false
  reales : ∀ i, ∀ p ∈ s.nodos i, (s.dato p).realname = esRealname (s.dato p).host
  unicas : ∀ i, ∀ p ∈ s.nodos i, ∀ q ∈ s.nodos i, (s.dato p).Misma (s.dato q) → p = q
  libres : s.liberadas.Nodup ∧ ∀ p ∈ s.liberadas, p < s.count ∧ ∀ i, p ∉ s.nodos i
  todas : ∀ p < s.count, p ∈ s.nodos (Lista.de (s.dato p).host) ∨ p ∈ s.liberadas

/-- A change of an entry that keeps its mask and its kind. -/
def Conserva (f : AGline → AGline) : Prop :=
  ∀ g, (f g).host = g.host ∧ (f g).name = g.name ∧ (f g).realname = g.realname ∧
    (f g).isLocal = g.isLocal

/-- What an order does to the entries. `quita` tells the entries that it may take out. -/
inductive Efecto (quita : AGline → Prop) (s : Glines) : Glines → Prop where
  | nada : Efecto quita s s
  | alta (host reason user : CStr) (expire lastmod lifetime : Int)
      (hnueva : ∀ p ∈ s.nodos (Lista.de host), (s.dato p).mismaMascara user host = false) :
      Efecto quita s (s.makeGline host reason user expire lastmod lifetime).2
  | escribe (i : Lista) (p : Nat) (f : AGline → AGline) (hp : p ∈ s.nodos i) (hf : Conserva f) :
      Efecto quita s (s.escribe p f)
  | baja (i : Lista) (as bs : List Nat) (p : Nat) (hsplit : s.nodos i = as ++ p :: bs)
      (hquita : quita (s.dato p)) : Efecto quita s (s.freeGline p as.getLast?)

variable {s : Glines} {quita : AGline → Prop}

/-- The search finds the first entry that passes the test. -/
theorem Bien.busca (h : Bien s) (i : Lista) (good : AGline → Bool) :
    (∃ prev, s.busca i good = (prev, none) ∧ ∀ p ∈ s.nodos i, good (s.dato p) = false) ∨
      ∃ as p bs, s.nodos i = as ++ p :: bs ∧ good (s.dato p) = true ∧
        s.busca i good = (as.getLast?, some p) := by
  have hlinks := h.forma.lists.links i
  have hfuel := h.forma.length_le i
  cases hfind : (s.nodos i).find? fun p ↦ good (s.dato p) with
  | none =>
      have hno : ∀ p ∈ s.nodos i, good (s.dato p) = false := by
        simpa using List.find?_eq_none.mp hfind
      exact Or.inl ⟨_, Prod.ext rfl (Cells.locate_eq_none _ hlinks hno), hno⟩
  | some p =>
      obtain ⟨hgood, as, bs, hsplit, has⟩ := List.find?_eq_some_iff_append.mp hfind
      have hno : ∀ a ∈ as, good (s.dato a) = false := fun a ha ↦ by simpa using has a ha
      rw [hsplit] at hlinks hfuel
      have hlocate := Cells.locate_eq_some (fun p ↦ good (s.dato p)) none hlinks hfuel hno hgood
      rw [Option.or_none] at hlocate
      exact Or.inr ⟨as, p, bs, hsplit, hgood, hlocate⟩

/-- `add_gline` without a local entry. -/
theorem addGline_efecto (e : Origen) (tsTime : Int) (host comment user : CStr)
    (expire lastmod lifetime : Int) (isSpamGline : Bool)
    (hnueva : ∀ p ∈ s.nodos (Lista.de host), (s.dato p).mismaMascara user host = false) :
    Efecto quita s
      (s.addGline e tsTime host comment user expire lastmod lifetime false isSpamGline) := by
  unfold Glines.addGline
  dsimp only
  split
  · exact .nada
  · exact .alta host comment user _ _ _ hnueva

/-- `add_gline` makes no local entry for who has no U line. -/
theorem addGline_local (e : Origen) (tsTime : Int) (host comment user : CStr)
    (expire lifetime : Int) (huline : e.uline = false) :
    s.addGline e tsTime host comment user expire 0 lifetime true false = s := by
  unfold Glines.addGline
  simp only [huline, Bool.false_eq_true, not_false_eq_true, or_true, and_self, if_true]

/-- `modifica_gline` changes the times of an entry. -/
theorem modificaGline_efecto (uline : Bool) (tsTime : Int) {i : Lista} {p : Nat}
    (expire lastmod lifetime : Int) (hp : p ∈ s.nodos i) :
    Efecto quita s (s.modificaGline uline tsTime p expire lastmod lifetime) := by
  unfold Glines.modificaGline
  split
  · exact .nada
  · exact .escribe i p _ hp fun g ↦ ⟨rfl, rfl, rfl, rfl⟩

/-- The order is a removal with the mask of the entry, from who has a U line. -/
def Quita (ip : CStr → Option CStr) (e : Origen) (parv : List CStr) (g : AGline) : Prop :=
  e.uline = true ∧ peek (parv.getD 2 []) = '-' ∧
    g.mismaMascara (mascara ip e (parv.getD 2 [])).1 (mascara ip e (parv.getD 2 [])).2 = true

/-- `ms_gline`. -/
theorem Bien.msGline (h : Bien s) (ip : CStr → Option CStr) (e : Origen) (tsTime : Int)
    (parv : List CStr) : Efecto (Quita ip e parv) s (s.msGline ip e tsTime parv) := by
  unfold Glines.msGline
  dsimp only
  generalize (if parv.length > 5 then atoi (parv.getD 4 []) else 0) = lastmod
  generalize (if parv.length > 6 then atoi (parv.getD 5 []) else 0) = lifetime
  split
  · exact .nada
  split
  · exact .nada
  split
  · exact .nada
  generalize hmascara : mascara ip e (parv.getD 2 []) = m
  obtain ⟨user, host⟩ := m
  rcases h.busca (Lista.de host) fun g ↦ g.mismaMascara user host with
    ⟨prev, hbusca, hno⟩ | ⟨as, p, bs, hsplit, hgood, hbusca⟩
  · simp only [hbusca]
    split
    · exact addGline_efecto e tsTime host _ user _ _ _ false hno
    · exact .nada
  · have hp : p ∈ s.nodos (Lista.de host) := by simp [hsplit]
    simp only [hbusca]
    split
    · split
      · exact .nada
      · rename_i hmodo huline
        have hmenos : peek (parv.getD 2 []) = '-' := by simpa [modo] using hmodo
        exact .baja _ as bs p hsplit ⟨not_not.mp huline, hmenos, by rw [hmascara]; exact hgood⟩
    · exact modificaGline_efecto _ _ _ _ _ hp

/-- Two changes of an entry are one. -/
theorem escribe_escribe (p : Nat) (f f' : AGline → AGline) :
    (s.escribe p f).escribe p f' = s.escribe p (f' ∘ f) := by
  simp only [Glines.escribe, Function.update_self, Function.update_idem, Function.comp_apply]

/-- The end of `mo_gline`, after the activation of an entry was changed. -/
theorem prolonga_efecto {i : Lista} {p : Nat} (hp : p ∈ s.nodos i) (expire : Int)
    {f : AGline → AGline} (hf : Conserva f) :
    Efecto quita s
      (if expire ≠ 0 then (s.escribe p f).escribe p fun g ↦ { g with expire := expire }
      else s.escribe p f) := by
  split
  · rw [escribe_escribe]
    exact .escribe i p _ hp fun g ↦ hf g
  · exact .escribe i p f hp hf

/-- `mo_gline` of an operator without a U line, behind its search. -/
theorem Bien.moAplica (h : Bien s) (e : Origen) (r : Reloj) (active : Option Bool) (expire : Int)
    (user host : CStr) (parv : List CStr) (huline : e.uline = false) :
    Efecto quita s (s.moAplica e r active expire user host parv) := by
  unfold Glines.moAplica
  rcases h.busca (Lista.de host) fun g ↦ mmatch g.name user && mmatch g.host host with
    ⟨prev, hbusca, -⟩ | ⟨as, p, bs, hsplit, -, hbusca⟩
  · simp only [hbusca]
    split
    · split
      · exact .nada
      · rw [addGline_local _ _ _ _ _ _ _ huline]
        exact .nada
    · exact .nada
  · have hp : p ∈ s.nodos (Lista.de host) := by simp [hsplit]
    have hlocal := h.locales _ p hp
    simp only [hbusca]
    generalize (if expire ≤ (s.dato p).expire then (0 : Int) else expire) = expire
    have hprolonga : Efecto quita s
        (if expire = 0 then s
        else if expire ≠ 0 then s.escribe p fun g ↦ { g with expire := expire } else s) := by
      split
      · exact .nada
      · exact .escribe _ p _ hp fun g ↦ ⟨rfl, rfl, rfl, rfl⟩
    cases active with
    | none => exact hprolonga
    | some active =>
        dsimp only
        split
        · exact hprolonga
        split
        · exact prolonga_efecto hp expire fun g ↦ ⟨rfl, rfl, rfl, rfl⟩
        · rw [hlocal, if_neg (fun hno ↦ Bool.false_ne_true hno.1)]
          exact prolonga_efecto hp expire fun g ↦ ⟨rfl, rfl, rfl, rfl⟩

/-- `mo_gline` of an operator without a U line. -/
theorem Bien.moGline (h : Bien s) (e : Origen) (r : Reloj) (parv : List CStr)
    (huline : e.uline = false) : Efecto quita s (s.moGline e r parv) := by
  unfold Glines.moGline
  dsimp only
  generalize separa (if e.privLocalGline = true ∧
    (peek (parv.getD 1 []) = '-' ∨ peek (parv.getD 1 []) = '+') then (modo (parv.getD 1 [])).2
    else parv.getD 1 []) = m
  split
  · exact .nada
  split
  · exact .nada
  split
  · exact .nada
  · exact h.moAplica e r _ _ _ _ parv huline

/-- `m_gline` behind its loops. -/
theorem Bien.orden (h : Bien s) (ip : CStr → Option CStr) (e : Origen) (r : Reloj)
    (parv : List CStr) : Efecto (Quita ip e parv) s (s.orden ip e r parv) := by
  unfold Glines.orden
  split
  · exact h.msGline ip e r.tsTime parv
  split
  · split
    · exact h.msGline ip e r.tsTime parv
    · rename_i huline
      exact h.moGline e r parv (by simpa using huline)
  · exact .nada

/-- The text of an address begins with a digit or a colon. -/
theorem esCanal_ircdNtoa (ip : IrcInAddr) (resto : CStr) :
    esCanal (ircdNtoa ip ++ resto) = false := by
  have hdigit : ∀ c : Char, c.isDigit = true → ∀ cs, esCanal (c :: cs) = false := by
    intro c hc cs
    have hne : c ≠ '#' ∧ c ≠ '&' ∧ c ≠ '+' := by
      refine ⟨?_, ?_, ?_⟩ <;> rintro rfl <;> simp at hc
    simpa [esCanal, peek] using hne
  have hhex : ∀ n < 16, ∀ cs, esCanal (hexdigits n :: cs) = false := by
    intro n hn cs
    have hne : ∀ n < 16, hexdigits n ≠ '#' ∧ hexdigits n ≠ '&' ∧ hexdigits n ≠ '+' := by decide
    simpa [esCanal, peek] using hne n hn
  rw [ircdNtoa]
  split
  · -- The first number of the four.
    obtain ⟨c, cs, hcs⟩ := List.exists_cons_of_ne_nil (decimal_ne_nil ((segmento ip 6).toNat % 256))
    have hc : c.isDigit = true := isDigit_of_mem_decimal (by rw [hcs]; exact List.mem_cons_self)
    simp only [octetos, IpQuadTab, List.cons_append, List.nil_append, List.map_cons, List.map_nil,
      hcs, List.intercalate_cons_cons]
    exact hdigit c hc _
  · obtain ⟨x, xs, hxs⟩ : ∃ x xs, segmentos ip = x :: xs :=
      List.exists_cons_of_ne_nil fun hnil ↦ by
        have hlen := length_segmentos ip
        rw [hnil] at hlen
        cases hlen
    obtain ⟨n, hn, cs, hcs⟩ := parte_eq x
    rw [parte] at hcs
    dsimp only
    rw [hxs, imprimeSegmentos]
    split
    · rfl
    · rw [hcs]
      exact hhex n hn _

theorem esCanal_ircdNtoaCidr (ip : IrcInAddr) (bits : Nat) :
    esCanal (ircdNtoaCidr ip bits) = false := by
  unfold ircdNtoaCidr
  extract_lets n
  split
  · have h := esCanal_ircdNtoa ip []
    rwa [List.append_nil] at h
  · exact esCanal_ircdNtoa _ _

/-- `spam_gline`. -/
theorem Bien.spamGline (h : Bien s) (uline : Bool) (tsTime : Int) (ip : IrcInAddr) (gexpire : Int)
    (reason : CStr) : Efecto quita s (s.spamGline uline tsTime ip gexpire reason) := by
  have hlista : Lista.de (ircdNtoaCidr ip 0) = .gline := by
    rw [Lista.de, esCanal_ircdNtoaCidr]
    rfl
  unfold Glines.spamGline
  dsimp only
  rcases h.busca .gline fun g ↦ g.mismaMascara ['*'] (ircdNtoaCidr ip 0) with
    ⟨prev, hbusca, hno⟩ | ⟨as, p, bs, hsplit, -, hbusca⟩
  · simp only [hbusca]
    rw [← hlista] at hno
    exact addGline_efecto _ tsTime _ reason _ _ _ _ true hno
  · have hp : p ∈ s.nodos .gline := by simp [hsplit]
    simp only [hbusca]
    exact modificaGline_efecto _ _ _ _ _ hp

/-! ## The invariant is kept -/

/-- Entries of one list are taken out and freed. -/
theorem Bien.recorta (h : Bien s) {s' : Glines} {i : Lista} {xs caidas : List Nat}
    (hforma : Forma s' (Function.update s.nodos i xs)) (hsub : xs ⊆ s.nodos i)
    (hdato : s'.dato = s.dato) (hcount : s'.count = s.count)
    (hlib : s'.liberadas = s.liberadas ++ caidas) (hnodup : caidas.Nodup)
    (hcaidas : ∀ p, p ∈ caidas ↔ p ∈ s.nodos i ∧ p ∉ xs) : Bien s' := by
  have hnodos := hforma.nodos_eq
  have hmem : ∀ j p, p ∈ s'.nodos j → p ∈ s.nodos j := by
    intro j p hp
    rw [hnodos] at hp
    by_cases hj : j = i
    · subst hj
      rw [Function.update_self] at hp
      exact hsub hp
    · rwa [Function.update_of_ne hj] at hp
  refine ⟨hnodos ▸ hforma, fun j p hp ↦ ?_, fun j p hp ↦ ?_, fun j p hp q hq hpq ↦ ?_, ⟨?_, ?_⟩, ?_⟩
  · rw [hdato]
    exact h.locales j p (hmem j p hp)
  · rw [hdato]
    exact h.reales j p (hmem j p hp)
  · rw [hdato] at hpq
    exact h.unicas j p (hmem j p hp) q (hmem j q hq) hpq
  · rw [hlib]
    refine List.nodup_append.mpr ⟨h.libres.1, hnodup, ?_⟩
    rintro p hp _ hq rfl
    exact (h.libres.2 p hp).2 i ((hcaidas p).mp hq).1
  · intro p hp
    rw [hlib, List.mem_append] at hp
    rw [hcount]
    rcases hp with hp | hp
    · exact ⟨(h.libres.2 p hp).1, fun j hj ↦ (h.libres.2 p hp).2 j (hmem j p hj)⟩
    · obtain ⟨hi, hxs⟩ := (hcaidas p).mp hp
      refine ⟨h.forma.lt i p hi, fun j hj ↦ ?_⟩
      obtain rfl := h.forma.lists.disjoint j i p (hmem j p hj) hi
      rw [hnodos, Function.update_self] at hj
      exact hxs hj
  · intro p hp
    rw [hcount] at hp
    rw [hdato, hlib, hnodos, List.mem_append]
    rcases h.todas p hp with hlista | hfree
    · by_cases hj : Lista.de (s.dato p).host = i
      · rw [hj] at hlista ⊢
        rw [Function.update_self]
        by_cases hxs : p ∈ xs
        · exact Or.inl hxs
        · exact Or.inr (Or.inr ((hcaidas p).mpr ⟨hlista, hxs⟩))
      · rw [Function.update_of_ne hj]
        exact Or.inl hlista
    · exact Or.inr (Or.inl hfree)

/-- A new entry, with a mask that no entry has. -/
theorem Bien.alta (h : Bien s) (host reason user : CStr) (expire lastmod lifetime : Int)
    (hnueva : ∀ p ∈ s.nodos (Lista.de host), (s.dato p).mismaMascara user host = false) :
    Bien (s.makeGline host reason user expire lastmod lifetime).2 := by
  have hforma := h.forma.makeGline host reason user expire lastmod lifetime
  generalize hs' : (s.makeGline host reason user expire lastmod lifetime).2 = s' at hforma ⊢
  have hdato : s'.dato = Function.update s.dato s.count
      (AGline.nueva host reason user expire lastmod lifetime) := by rw [← hs']; rfl
  have hcount : s'.count = s.count + 1 := by rw [← hs']; rfl
  have hlib : s'.liberadas = s.liberadas := by rw [← hs']; rfl
  have hnodos := hforma.nodos_eq
  have hself : s'.dato s.count = AGline.nueva host reason user expire lastmod lifetime := by
    rw [hdato, Function.update_self]
  have hold : ∀ {j p}, p ∈ s.nodos j → s'.dato p = s.dato p := by
    intro j p hp
    rw [hdato, Function.update_of_ne (h.forma.lt j p hp).ne]
  have hmem : ∀ j p, p ∈ s'.nodos j → p ∈ s.nodos j ∨ p = s.count ∧ j = Lista.de host := by
    intro j p hp
    rw [hnodos] at hp
    by_cases hj : j = Lista.de host
    · subst hj
      rw [Function.update_self, List.mem_cons] at hp
      exact hp.elim (fun hp ↦ Or.inr ⟨hp, rfl⟩) Or.inl
    · rw [Function.update_of_ne hj] at hp
      exact Or.inl hp
  have hsub : ∀ j p, p ∈ s.nodos j → p ∈ s'.nodos j := by
    intro j p hp
    rw [hnodos]
    by_cases hj : j = Lista.de host
    · subst hj
      rw [Function.update_self]
      exact List.mem_cons_of_mem _ hp
    · rwa [Function.update_of_ne hj]
  have hdistinta : ∀ p ∈ s.nodos (Lista.de host),
      ¬(s.dato p).Misma (AGline.nueva host reason user expire lastmod lifetime) := by
    intro p hp hmisma
    have htest := (AGline.mismaMascara_iff (h.reales _ p hp) _).mpr hmisma
    exact Bool.false_ne_true ((hnueva p hp).symm.trans htest)
  refine ⟨hnodos ▸ hforma, fun j p hp ↦ ?_, fun j p hp ↦ ?_, fun j p hp q hq hpq ↦ ?_, ⟨?_, ?_⟩, ?_⟩
  · rcases hmem j p hp with hp | ⟨rfl, -⟩
    · rw [hold hp]
      exact h.locales j p hp
    · rw [hself]
      rfl
  · rcases hmem j p hp with hp | ⟨rfl, -⟩
    · rw [hold hp]
      exact h.reales j p hp
    · rw [hself]
      rfl
  · rcases hmem j p hp with hp | ⟨rfl, hj⟩ <;> rcases hmem j q hq with hq | ⟨rfl, hk⟩
    · rw [hold hp, hold hq] at hpq
      exact h.unicas j p hp q hq hpq
    · rw [hold hp, hself] at hpq
      exact absurd hpq (hdistinta p (hk ▸ hp))
    · rw [hold hq, hself] at hpq
      exact absurd hpq.symm (hdistinta q (hj ▸ hq))
    · rfl
  · rw [hlib]
    exact h.libres.1
  · intro p hp
    rw [hlib] at hp
    rw [hcount]
    obtain ⟨hlt, hno⟩ := h.libres.2 p hp
    refine ⟨Nat.lt_succ_of_lt hlt, fun j hj ↦ ?_⟩
    rcases hmem j p hj with hj | ⟨heq, -⟩
    · exact hno j hj
    · exact absurd heq hlt.ne
  · intro p hp
    rw [hcount] at hp
    rw [hlib]
    by_cases hpc : p = s.count
    · subst hpc
      rw [hself]
      show s.count ∈ s'.nodos (Lista.de host) ∨ _
      rw [hnodos, Function.update_self]
      exact Or.inl List.mem_cons_self
    · rw [hdato, Function.update_of_ne hpc]
      exact (h.todas p (by omega)).imp (hsub _ p) id

/-- A change of an entry that keeps its mask. -/
theorem Bien.escribe (h : Bien s) {f : AGline → AGline} (hf : Conserva f) (p : Nat) :
    Bien (s.escribe p f) := by
  have hcampos : ∀ q, ((s.escribe p f).dato q).host = (s.dato q).host ∧
      ((s.escribe p f).dato q).name = (s.dato q).name ∧
      ((s.escribe p f).dato q).realname = (s.dato q).realname ∧
      ((s.escribe p f).dato q).isLocal = (s.dato q).isLocal := by
    intro q
    by_cases hq : q = p
    · subst hq
      simp only [Glines.escribe, Function.update_self]
      exact hf (s.dato q)
    · simp only [Glines.escribe, Function.update_of_ne hq, and_self]
  have hmisma : ∀ q r, ((s.escribe p f).dato q).Misma ((s.escribe p f).dato r) ↔
      (s.dato q).Misma (s.dato r) := by
    intro q r
    rw [AGline.Misma, AGline.Misma, (hcampos q).1, (hcampos r).1, (hcampos q).2.1, (hcampos r).2.1]
  refine ⟨⟨h.forma.lists, h.forma.lt, fun i q hq ↦ ?_⟩, fun i q hq ↦ ?_, fun i q hq ↦ ?_,
    fun i q hq r hr hqr ↦ h.unicas i q hq r hr ((hmisma q r).mp hqr), h.libres, fun q hq ↦ ?_⟩
  · rw [(hcampos q).1]
    exact h.forma.suya i q hq
  · rw [(hcampos q).2.2.2]
    exact h.locales i q hq
  · rw [(hcampos q).2.2.1, (hcampos q).1]
    exact h.reales i q hq
  · rw [(hcampos q).1]
    exact h.todas q hq

/-- What an order does keeps the invariant. -/
theorem Efecto.bien {s' : Glines} (hefecto : Efecto quita s s') (h : Bien s) : Bien s' := by
  cases hefecto with
  | nada => exact h
  | alta host reason user expire lastmod lifetime hnueva => exact h.alta _ _ _ _ _ _ hnueva
  | escribe i p f hp hf => exact h.escribe hf p
  | baja i as bs p hsplit hquita =>
      obtain ⟨hforma, hlib, hdato, hcount⟩ := h.forma.freeGline hsplit
      have hnodup := (h.forma.lists.links i).nodup
      rw [hsplit, List.nodup_append, List.nodup_cons] at hnodup
      refine h.recorta hforma ?_ hdato hcount hlib (List.nodup_singleton p) fun q ↦ ?_
      · intro q hq
        rw [hsplit]
        simp only [List.mem_append, List.mem_cons] at hq ⊢
        tauto
      · rw [hsplit]
        simp only [List.mem_append, List.mem_cons, List.not_mem_nil, or_false]
        constructor
        · rintro rfl
          refine ⟨Or.inr (Or.inl rfl), ?_⟩
          rintro (hq | hq)
          · exact hnodup.2.2 q hq q List.mem_cons_self rfl
          · exact hnodup.2.1.1 hq
        · tauto

/-- What an order frees has its mask, and what was freed before is left alone. -/
theorem Efecto.liberada {s' : Glines} (hefecto : Efecto quita s s') (h : Bien s) {p : Nat}
    (hp : p ∈ s'.liberadas) :
    p ∈ s.liberadas ∧ s'.dato p = s.dato p ∨ p < s.count ∧ quita (s.dato p) := by
  cases hefecto with
  | nada => exact Or.inl ⟨hp, rfl⟩
  | alta host reason user expire lastmod lifetime hnueva =>
      exact Or.inl ⟨hp, Function.update_of_ne (h.libres.2 p hp).1.ne _ _⟩
  | escribe i q f hq hf =>
      have hne : p ≠ q := fun heq ↦ (h.libres.2 p hp).2 i (heq ▸ hq)
      exact Or.inl ⟨hp, Function.update_of_ne hne _ _⟩
  | baja i as bs q hsplit hquita =>
      obtain ⟨-, hlib, hdato, -⟩ := h.forma.freeGline hsplit
      rw [hlib, List.mem_append, List.mem_singleton] at hp
      rcases hp with hp | rfl
      · exact Or.inl ⟨hp, by rw [hdato]⟩
      · exact Or.inr ⟨h.forma.lt i p (by simp [hsplit]), hquita⟩

/-- A loop over a sound list takes out the expired entries and frees them. -/
theorem Bien.barrido (h : Bien s) {i : Lista} {ahora : Int}
    (hsano : Sano (s.viva ahora) (s.nodos i)) :
    let r := s.barrido i ahora
    Bien r ∧ r.nodos = Function.update s.nodos i ((s.nodos i).filter (s.viva ahora)) ∧
      r.liberadas = s.liberadas ++ (s.nodos i).filter (!s.viva ahora ·) ∧ r.dato = s.dato := by
  intro r
  obtain ⟨hforma, hlib, hdato, hcount⟩ := h.forma.barrido i ahora
  have hnodup := (h.forma.lists.links i).nodup
  obtain ⟨hquedan, hcaen⟩ := (quedan_iff hnodup).mpr hsano
  rw [hquedan] at hforma
  rw [hcaen] at hlib
  refine ⟨h.recorta hforma (List.filter_subset_self _) hdato hcount hlib (hnodup.filter _) ?_,
    hforma.nodos_eq, hlib, hdato⟩
  intro p
  simp only [List.mem_filter, Bool.not_eq_true']
  cases s.viva ahora p <;> simp

/-- `find_gline` takes out and frees the expired entries in front of the one that it finds. -/
theorem Bien.findGline (h : Bien s) (matchPcre : CStr → CStr → Bool) (ahora : Int)
    (cptr : Afectado) :
    let busca := fun p ↦ !(s.viva ahora p && (s.dato p).casa matchPcre cptr)
    let r := s.findGline matchPcre ahora cptr
    r.1 = ((s.nodos .gline).dropWhile busca).head? ∧ Bien r.2 ∧
      r.2.nodos = Function.update s.nodos .gline
        (((s.nodos .gline).takeWhile busca).filter (s.viva ahora) ++
          (s.nodos .gline).dropWhile busca) ∧
      r.2.liberadas =
        s.liberadas ++ ((s.nodos .gline).takeWhile busca).filter (!s.viva ahora ·) ∧
      r.2.dato = s.dato := by
  intro busca r
  have hhead : s.head .gline = (s.nodos .gline).head? :=
    (Links.head? (h.forma.lists.links .gline)).symm
  have hr : r = findDesde .gline ahora (AGline.casa matchPcre cptr) s.count
      (s.nodos .gline).head? ([] : List Nat).getLast? s := by
    show findDesde _ _ _ _ (s.head .gline) none s = _
    rw [hhead]
    rfl
  have hfind := h.forma.findDesde ahora (AGline.casa matchPcre cptr)
    (show s.nodos .gline = [] ++ s.nodos .gline from rfl) (h.forma.length_le .gline)
  rw [← hr] at hfind
  obtain ⟨hfound, hforma, hlib, hdato, hcount⟩ := hfind
  rw [List.nil_append] at hforma
  have hnodup := (h.forma.lists.links .gline).nodup
  have hpartes : ∀ q, q ∈ s.nodos .gline ↔ q ∈ (s.nodos .gline).takeWhile busca ∨
      q ∈ (s.nodos .gline).dropWhile busca := by
    intro q
    rw [← List.mem_append, List.takeWhile_append_dropWhile]
  have happend := hnodup
  rw [← @List.takeWhile_append_dropWhile _ busca (s.nodos .gline), List.nodup_append] at happend
  refine ⟨hfound, h.recorta hforma ?_ hdato hcount hlib (happend.1.filter _) fun q ↦ ?_,
    hforma.nodos_eq, hlib, hdato⟩
  · intro q hq
    rw [List.mem_append, List.mem_filter] at hq
    exact (hpartes q).mpr (hq.imp And.left id)
  · rw [hpartes q, List.mem_append, List.mem_filter, List.mem_filter, Bool.not_eq_true']
    constructor
    · rintro ⟨hq, hviva⟩
      refine ⟨Or.inl hq, ?_⟩
      rintro (⟨-, hq'⟩ | hq')
      · exact Bool.false_ne_true (hviva.symm.trans hq')
      · exact happend.2.2 q hq q hq' rfl
    · rintro ⟨hq | hq, hno⟩
      · refine ⟨hq, ?_⟩
        by_contra hviva
        exact hno (Or.inl ⟨hq, by simpa using hviva⟩)
      · exact absurd (Or.inr hq) hno

end Ircd.Gline
