import Ircd.Conf.Rehash
import Ircd.Gline.Runs

/-!
# Bans on connection

`find_kill` of `ircd/s_conf.c` with `is_comment` and `check_time_interval`, and the loop over the
connected users at the end of `add_gline` of `ircd/opercmds.c`. A K line with intervals refuses a
user from five minutes before each one on, when the user is only told of it, and a G-line that is not
active hides those behind it. `findKill_iff` says when a user who is refused is one who is banned.
-/

namespace Ircd.Gline

open CString Match Addr Conf Hash

/-! ## Intervals -/

/-- The hour and the minute of `localtime`. -/
structure Tm where
  tmHour : Fin 24
  tmMin : Fin 60

/-- `nowm`. -/
def Tm.nowm (t : Tm) : Int :=
  t.tmHour.val * 60 + t.tmMin.val

/-- An interval of a K line. -/
structure Intervalo where
  permMinHours : Int
  permMinMinutes : Int
  permMaxHours : Int
  permMaxMinutes : Int
deriving DecidableEq

namespace Intervalo

def permMin (i : Intervalo) : Int :=
  60 * i.permMinHours + i.permMinMinutes

def permMax (i : Intervalo) : Int :=
  60 * i.permMaxHours + i.permMaxMinutes

/-- The minute lies in the interval, which may be one over midnight. -/
def incluye (i : Intervalo) (nowm : Int) : Bool :=
  if i.permMin < i.permMax then i.permMin ≤ nowm ∧ nowm ≤ i.permMax
  else i.permMin ≤ nowm ∨ nowm ≤ i.permMax

end Intervalo

/-- `%2d` of `sscanf`: the number and what is behind it. A sign is one of the two characters. -/
def scanD (s : CStr) : Option (Int × CStr) :=
  let (signo, ancho, s) : Int × Nat × CStr :=
    match s.dropWhile isSpace with
    | '-' :: s => (-1, 1, s)
    | '+' :: s => (1, 1, s)
    | s => (1, 2, s)
  let cifras := (s.takeWhile Char.isDigit).take ancho
  if cifras = [] then none
  else some (signo * Nat.ofDigitChars 10 cifras 0, s.drop cifras.length)

/-- `sscanf` with `%2d%2d-%2d%2d`, when it reads all the numbers. -/
def scanIntervalo (interval : CStr) : Option Intervalo := do
  let (permMinHours, s) ← scanD interval
  let (permMinMinutes, s) ← scanD s
  if s.head? ≠ some '-' then failure
  let (permMaxHours, s) ← scanD s.tail
  let (permMaxMinutes, _) ← scanD s
  return ⟨permMinHours, permMinMinutes, permMaxHours, permMaxMinutes⟩

def ERR_YOUREBANNEDCREEP : Nat := 465

def ERR_YOUWILLBEBANNED : Nat := 466

/-- The format that `check_time_interval` writes when an interval is near. -/
def aviso (minutos : Int) : CStr :=
  ":%s %d %s :".toList ++ entero minutos ++ " minute".toList ++
    (if 1 < minutos then "s " else " ").toList ++ "and you will be denied for further access".toList

/-- The loop of `check_time_interval` over what stands between the commas. Inside of an interval
`reply` is not written, but printed. -/
def checkCampos (tm : Tm) : List CStr → CStr → Nat × CStr
  | [], reply => (0, reply)
  | interval :: campos, reply =>
      match scanIntervalo interval with
      | none => (0, reply)
      | some i =>
          if i.incluye tm.nowm then (ERR_YOUREBANNEDCREEP, reply)
          else if i.incluye (tm.nowm + 5) then (ERR_YOUWILLBEBANNED, aviso (i.permMin - tm.nowm))
          else checkCampos tm campos reply

/-- `check_time_interval`. -/
def checkTimeInterval (tm : Tm) (interval reply : CStr) : Nat × CStr :=
  checkCampos tm (interval.splitOn ',') reply

/-- `is_comment`. -/
def isComment (comment : CStr) : Bool :=
  comment.any fun c ↦ c ≠ ' ' ∧ c ≠ '-' ∧ c ≠ ',' ∧ (c < '0' ∨ '9' < c)

/-! ## `find_kill` -/

/-- What is read of a connection. -/
structure Cliente extends Afectado where
  user : Bool
  me : Bool
  acptPort : BitVec 16

/-- A user. The host and the name are kept in no more than `HOSTLEN` and `USERLEN` characters. -/
structure Usuario extends Cliente where
  esUser : user = true
  noMe : me = false
  hostlen : sockhost.length ≤ HOSTLEN
  userlen : username.length ≤ USERLEN

/-- `status == CONF_IPKILL`. -/
def esIpkill (tmp : ConfItem) : Bool :=
  tmp.tipo = .ipkill ∧ !tmp.illegal ∧ !tmp.cookieEnc ∧ !tmp.sslPort

/-- The test of `find_kill` on an entry of the configuration. -/
def casaK (cptr : Cliente) (tmp : ConfItem) : Bool :=
  (tmp.tipo = .kill ∨ tmp.tipo = .ipkill) &&
  (match tmp.host, tmp.name with
    | some host, some name =>
        (ircMatch host (memory cptr.sockhost []) ||
          esIpkill tmp && ircMatch host (memory (ircdNtoa cptr.ip) [])) &&
        ircMatch name (memory cptr.username []) && (tmp.port = 0 ∨ tmp.port = cptr.acptPort)
    | _, _ => false)

/-- The loop of `find_kill`: the entry that it ends at, and `reply`. -/
def lineaK (tm : Tm) (cptr : Cliente) : List ConfItem → CStr → Option (ConfItem × CStr)
  | [], _ => none
  | tmp :: resto, reply =>
      if casaK cptr tmp then
        match tmp.passwd with
        | none | some [] => some (tmp, reply)
        | some passwd =>
            if isComment passwd then some (tmp, reply)
            else
              let (r, reply) := checkTimeInterval tm passwd reply
              if r ≠ 0 then some (tmp, reply) else lineaK tm cptr resto reply
      else lineaK tm cptr resto reply

/-- What `find_kill` reads beside the connection and the G-lines. -/
structure Entorno where
  conf : List ConfItem
  tm : Tm
  tsTime : Int
  findException : Cliente → Bool
  matchPcre : CStr → CStr → Bool

/-- `find_kill`. What the user is told is left out. -/
def findKill (e : Entorno) (cptr : Cliente) (s : Glines) : Int × Glines :=
  if !cptr.user then (0, s)
  else if HOSTLEN < cptr.sockhost.length ∨ HOSTLEN < cptr.username.length then (0, s)
  else if e.findException cptr then (0, s)
  else
    match lineaK e.tm cptr e.conf [] with
    | some _ => (-1, s)
    | none =>
        match s.findGline e.matchPcre e.tsTime cptr.toAfectado with
        | (some agline, s) => if (s.dato agline).active then (-2, s) else (0, s)
        | (none, s) => (0, s)

/-! ## The loop of `add_gline` -/

/-- `loc_clients` and `highest_fd`. -/
structure Conexiones where
  highestFd : Nat
  locClients : Nat → Option Cliente

/-- The test of `add_gline` on a connection. -/
def afecta (e : Entorno) (agline : AGline) (acptr : Cliente) : Bool :=
  !acptr.me && acptr.user &&
  !(HOSTLEN < acptr.sockhost.length ∨ HOSTLEN < acptr.username.length : Bool) &&
  !e.findException acptr && agline.casa e.matchPcre acptr.toAfectado

/-- The loop of `add_gline` below the descriptor `fd`: the connections that are closed. -/
def expulsaDesde (e : Entorno) (c : Conexiones) (sptr : Option Nat) (agline : AGline) :
    Nat → List Nat
  | 0 => []
  | fd + 1 =>
      match c.locClients fd with
      | none => expulsaDesde e c sptr agline fd
      | some acptr =>
          if afecta e agline acptr ∧ sptr ≠ some fd then fd :: expulsaDesde e c sptr agline fd
          else expulsaDesde e c sptr agline fd

/-- The end of `add_gline`, for the entry that it made. -/
def expulsa (e : Entorno) (c : Conexiones) (sptr : Option Nat) (agline : AGline) : List Nat :=
  if esCanal agline.host then [] else expulsaDesde e c sptr agline (c.highestFd + 1)

/-! ## Who is banned -/

/-- The intervals that a text of intervals begins with. -/
def intervalosDe : List CStr → List Intervalo
  | [] => []
  | interval :: campos =>
      match scanIntervalo interval with
      | none => []
      | some i => i :: intervalosDe campos

/-- The intervals of a K line, when it has any: without a text or with a comment it has none. -/
def horario (tmp : ConfItem) : Option (List Intervalo) :=
  match tmp.passwd with
  | none | some [] => none
  | some passwd => if isComment passwd then none else some (intervalosDe (passwd.splitOn ','))

/-- A K line applies at a minute: it has no intervals, or the minute lies in one of them. -/
def Rige (tmp : ConfItem) (nowm : Int) : Prop :=
  ∀ is, horario tmp = some is → ∃ i ∈ is, i.incluye nowm = true

/-- A K line will apply in five minutes, by one of its intervals. -/
def Avisa (tmp : ConfItem) (nowm : Int) : Prop :=
  ∃ is, horario tmp = some is ∧ ∃ i ∈ is, i.incluye (nowm + 5) = true

/-- Some K line matches and applies. -/
def Kline (e : Entorno) (cptr : Cliente) : Prop :=
  ∃ tmp ∈ e.conf, casaK cptr tmp = true ∧ Rige tmp e.tm.nowm

/-- Some K line matches and will apply in five minutes. -/
def KlineAvisa (e : Entorno) (cptr : Cliente) : Prop :=
  ∃ tmp ∈ e.conf, casaK cptr tmp = true ∧ Avisa tmp e.tm.nowm

/-- An entry has not expired and matches. -/
def toca (e : Entorno) (cptr : Cliente) (s : Glines) (p : Nat) : Bool :=
  s.viva e.tsTime p && (s.dato p).casa e.matchPcre cptr.toAfectado

/-- Some active G-line has not expired and matches. -/
def Activa (e : Entorno) (cptr : Cliente) (s : Glines) : Prop :=
  ∃ p ∈ s.nodos .gline, toca e cptr s p = true ∧ (s.dato p).active = true

/-- The first G-line that has not expired and matches is active. -/
def Encontrada (e : Entorno) (cptr : Cliente) (s : Glines) : Prop :=
  ∃ p, (s.nodos .gline).find? (toca e cptr s) = some p ∧ (s.dato p).active = true

/-- The first G-line that has not expired and matches is not active. -/
def Tapada (e : Entorno) (cptr : Cliente) (s : Glines) : Prop :=
  ∃ p, (s.nodos .gline).find? (toca e cptr s) = some p ∧ (s.dato p).active = false

variable {e : Entorno} {cptr : Cliente} {s : Glines}

/-- A text of intervals refuses in each one, and from five minutes before it on. -/
theorem checkCampos_iff (tm : Tm) (campos : List CStr) (reply : CStr) :
    (checkCampos tm campos reply).1 ≠ 0 ↔
      ∃ i ∈ intervalosDe campos, i.incluye tm.nowm = true ∨ i.incluye (tm.nowm + 5) = true := by
  induction campos with
  | nil => simp [checkCampos, intervalosDe]
  | cons interval campos ih =>
      rw [checkCampos, intervalosDe]
      cases scanIntervalo interval with
      | none => simp
      | some i =>
          dsimp only
          rw [List.exists_mem_cons_iff]
          by_cases hnow : i.incluye tm.nowm = true
          · simp [hnow, ERR_YOUREBANNEDCREEP]
          · by_cases hcinco : i.incluye (tm.nowm + 5) = true
            · simp [hnow, hcinco, ERR_YOUWILLBEBANNED]
            · rw [if_neg hnow, if_neg hcinco, ih]
              simp only [hnow, hcinco, or_self, Bool.false_eq_true, false_or]

/-- The minutes of which a user is told are those up to the interval, from one to five. -/
theorem minutos_aviso {i : Intervalo} {nowm : Int} (hnow : i.incluye nowm = false)
    (hcinco : i.incluye (nowm + 5) = true) : 1 ≤ i.permMin - nowm ∧ i.permMin - nowm ≤ 5 := by
  unfold Intervalo.incluye at hnow hcinco
  split at hnow <;> simp_all <;> omega

/-- The loop ends at a K line that matches, and applies or will apply in five minutes. -/
theorem lineaK_iff (tm : Tm) (cptr : Cliente) (conf : List ConfItem) (reply : CStr) :
    (lineaK tm cptr conf reply).isSome = true ↔
      ∃ tmp ∈ conf, casaK cptr tmp = true ∧ (Rige tmp tm.nowm ∨ Avisa tmp tm.nowm) := by
  induction conf generalizing reply with
  | nil => simp [lineaK]
  | cons tmp resto ih =>
      rw [List.exists_mem_cons_iff, lineaK]
      by_cases hcasa : casaK cptr tmp = true
      · rw [if_pos hcasa]
        -- What the text of the line says of the minute.
        cases hpasswd : tmp.passwd with
        | none => simp [hcasa, Rige, horario, hpasswd]
        | some passwd =>
            cases passwd with
            | nil => simp [hcasa, Rige, horario, hpasswd]
            | cons x xs =>
                by_cases hcomment : isComment (x :: xs) = true
                · simp [hcasa, Rige, horario, hpasswd, hcomment]
                · have hcheck := checkCampos_iff tm ((x :: xs).splitOn ',') reply
                  have hlinea : Rige tmp tm.nowm ∨ Avisa tmp tm.nowm ↔
                      (checkTimeInterval tm (x :: xs) reply).1 ≠ 0 := by
                    rw [checkTimeInterval, hcheck]
                    simp only [Rige, Avisa, horario, hpasswd, hcomment, Bool.false_eq_true,
                      if_false, Option.some.injEq, forall_eq', exists_eq_left', ← exists_or,
                      ← and_or_left]
                  rw [hlinea]
                  dsimp only
                  rw [if_neg hcomment]
                  by_cases hr : (checkTimeInterval tm (x :: xs) reply).1 = 0
                  · simp [hr, ih]
                  · simp [hr, hcasa]
      · rw [if_neg hcasa, ih]
        simp [hcasa]

theorem Encontrada.activa (h : Encontrada e cptr s) : Activa e cptr s := by
  obtain ⟨p, hp, hactive⟩ := h
  exact ⟨p, List.mem_of_find?_eq_some hp, List.find?_some hp, hactive⟩

theorem Encontrada.not_tapada (h : Encontrada e cptr s) : ¬Tapada e cptr s := by
  rintro ⟨q, hq, hno⟩
  obtain ⟨p, hp, hactive⟩ := h
  rw [hp, Option.some.injEq] at hq
  rw [← hq, hactive] at hno
  cases hno

/-- An active G-line that matches is found, or one that is not active hides it. -/
theorem Activa.primera (h : Activa e cptr s) : Encontrada e cptr s ∨ Tapada e cptr s := by
  obtain ⟨p, hp, htoca, -⟩ := h
  obtain ⟨q, hq⟩ := Option.isSome_iff_exists.mp (List.find?_isSome.mpr ⟨p, hp, htoca⟩)
  cases hactive : (s.dato q).active with
  | true => exact Or.inl ⟨q, hq, hactive⟩
  | false => exact Or.inr ⟨q, hq, hactive⟩

/-- `find_gline` finds the first entry that has not expired and matches. -/
theorem findGline_eq (h : Forma s s.nodos) (e : Entorno) (cptr : Cliente) :
    (s.findGline e.matchPcre e.tsTime cptr.toAfectado).1 =
        (s.nodos .gline).find? (toca e cptr s) ∧
      (s.findGline e.matchPcre e.tsTime cptr.toAfectado).2.dato = s.dato := by
  have hhead : s.head .gline = (s.nodos .gline).head? :=
    (Links.head? (h.lists.links .gline)).symm
  have hfind := h.findDesde e.tsTime (AGline.casa e.matchPcre cptr.toAfectado)
    (show s.nodos .gline = [] ++ s.nodos .gline from rfl) (h.length_le .gline)
  rw [← hhead] at hfind
  refine ⟨?_, hfind.2.2.2.1⟩
  rw [List.find?_eq_head?_dropWhile_not]
  exact hfind.1

/-- No user is passed over for a text that is too long. -/
theorem Usuario.corto (u : Usuario) :
    ¬(HOSTLEN < u.sockhost.length ∨ HOSTLEN < u.username.length) := by
  have hhost := u.hostlen
  have huser := u.userlen
  unfold USERLEN at huser
  unfold HOSTLEN at hhost ⊢
  omega

/-- `find_kill` refuses a user by the K lines, or by the first G-line that it finds. -/
theorem findKill_ne_zero (h : Forma s s.nodos) (u : Usuario)
    (hexc : e.findException u.toCliente = false) :
    (findKill e u.toCliente s).1 ≠ 0 ↔
      Kline e u.toCliente ∨ KlineAvisa e u.toCliente ∨ Encontrada e u.toCliente s := by
  have hlinea := lineaK_iff e.tm u.toCliente e.conf []
  have hkline : (∃ tmp ∈ e.conf, casaK u.toCliente tmp = true ∧
      (Rige tmp e.tm.nowm ∨ Avisa tmp e.tm.nowm)) ↔ Kline e u.toCliente ∨
        KlineAvisa e u.toCliente := by
    simp only [Kline, KlineAvisa, and_or_left, exists_or]
  obtain ⟨hfind, hdato⟩ := findGline_eq h e u.toCliente
  rw [hkline] at hlinea
  rw [← or_assoc, ← hlinea, findKill, u.esUser, hexc, if_neg (by decide), if_neg u.corto,
    if_neg (by decide)]
  cases lineaK e.tm u.toCliente e.conf [] with
  | some r => simp
  | none =>
      rw [Encontrada, ← hfind, ← hdato]
      obtain ⟨r, s'⟩ := s.findGline e.matchPcre e.tsTime u.toAfectado
      cases r with
      | none => simp
      | some agline => cases hactive : (s'.dato agline).active <;> simp [hactive]

/-! ## The users whom `add_gline` closes -/

theorem mem_expulsaDesde {c : Conexiones} {sptr : Option Nat} {agline : AGline} {fd n : Nat} :
    fd ∈ expulsaDesde e c sptr agline n ↔ fd < n ∧ ∃ acptr, c.locClients fd = some acptr ∧
      afecta e agline acptr = true ∧ sptr ≠ some fd := by
  induction n with
  | zero => simp [expulsaDesde]
  | succ n ih =>
      rw [expulsaDesde, Nat.lt_succ_iff_lt_or_eq, or_and_right]
      cases hn : c.locClients n with
      | none =>
          have hno : ¬(fd = n ∧ ∃ acptr, c.locClients fd = some acptr ∧
              afecta e agline acptr = true ∧ sptr ≠ some fd) := by
            rintro ⟨rfl, acptr, hacptr, -⟩
            rw [hn] at hacptr
            cases hacptr
          rw [or_iff_left hno]
          exact ih
      | some acptr =>
          have hself : (fd = n ∧ ∃ acptr, c.locClients fd = some acptr ∧
              afecta e agline acptr = true ∧ sptr ≠ some fd) ↔
                fd = n ∧ afecta e agline acptr = true ∧ sptr ≠ some n := by
            refine and_congr_right fun hfd ↦ ?_
            subst hfd
            simp [hn]
          rw [hself, ← ih]
          dsimp only
          split_ifs with hcae
          · rw [List.mem_cons, or_comm, and_iff_left hcae]
          · rw [or_iff_left fun h ↦ hcae h.2]

/-- The loop closes a user whom the entry matches, unless it was the user who set it. -/
theorem mem_expulsa_iff (u : Usuario) (hexc : e.findException u.toCliente = false)
    {c : Conexiones} {fd : Nat} (hfd : c.locClients fd = some u.toCliente) (hle : fd ≤ c.highestFd)
    {sptr : Option Nat} {agline : AGline} (hgline : esCanal agline.host = false) :
    fd ∈ expulsa e c sptr agline ↔
      agline.casa e.matchPcre u.toAfectado = true ∧ sptr ≠ some fd := by
  have hlen : (decide (HOSTLEN < u.sockhost.length ∨ HOSTLEN < u.username.length)) = false :=
    decide_eq_false u.corto
  rw [expulsa, hgline, if_neg (by decide), mem_expulsaDesde, and_iff_right (Nat.lt_succ_of_le hle),
    hfd]
  simp only [Option.some.injEq, exists_eq_left', afecta, u.noMe, u.esUser, hexc, hlen,
    Bool.not_false, Bool.true_and]

/-- A user on the host `b.es`. -/
def ana : Usuario where
  ip := ⟨Vector.replicate 8 0⟩
  info := []
  sockhost := "b.es".toList
  username := "ana".toList
  user := true
  me := false
  acptPort := 6667
  esUser := rfl
  noMe := rfl
  hostlen := by decide
  userlen := by decide

/-- A K line for the host from eight to ten. -/
def lineaAna : ConfItem :=
  ⟨.kill, false, false, false, 0, some "b.es".toList, some "0800-1000".toList, some ['*'], 0, none⟩

/-- An hour, at which nobody has an exception. -/
def alas (conf : List ConfItem) (tmHour : Fin 24) (tmMin : Fin 60) : Entorno :=
  ⟨conf, ⟨tmHour, tmMin⟩, 1000, fun _ ↦ false, fun _ _ ↦ false⟩

/-- A G-line for the host. -/
def unaGline : Glines :=
  ((inicio ⟨0, 0⟩).glines.makeGline "b.es".toList "fuera".toList ['*'] 2000 990 2000).2

/-- One more, which is not active. -/
def dosGlines : Glines :=
  (unaGline.makeGline "*.es".toList "fuera".toList ['*'] 2000 990 2000).2.escribe 1
    fun g ↦ { g with active := false }

theorem bien_unaGline : Bien unaGline :=
  (bien_inicio ⟨0, 0⟩).alta _ _ _ _ _ _ fun _ hp ↦ by cases hp

theorem bien_dosGlines : Bien dosGlines := by
  have hconserva : Conserva fun g ↦ { g with active := false } := fun g ↦ ⟨rfl, rfl, rfl, rfl⟩
  refine (bien_unaGline.alta "*.es".toList "fuera".toList ['*'] 2000 990 2000 ?_).escribe
    hconserva 1
  decide +kernel

end Ircd.Gline
