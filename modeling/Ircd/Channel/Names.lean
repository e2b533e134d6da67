import Ircd.Channel.Antichain
import Ircd.Channel.Modes

/-!
# The names of a channel

What `m_names` of `ircd/channel.c` sends for a channel. A channel that is secret or private is passed
over for a requester who is not on it. Of another one the loop goes over the members, and `buf` is
sent as a reply 353 when the longest member that may follow would have no room in it. The main result
is `nombres_canal`: the replies list the members that the requester may see, each once, and they fit
in a message where the name of the channel leaves room for a member.
-/

namespace Ircd.Channel

open CString

/-- What is read of this server, of the requester and of the members. -/
structure Consulta (κ : Type) where
  me : CStr
  sptr : κ
  name : κ → CStr
  invisible : κ → Bool

/-- The variables of the loop, and the texts that have been sent. -/
structure Listado where
  buf : CStr
  idx : Nat
  flag : Bool
  enviado : List CStr

section

variable {κ : Type} [DecidableEq κ]

omit [DecidableEq κ] in
/-- `mlen`. -/
def Consulta.mlen (q : Consulta κ) : Nat :=
  q.me.length + 10 + (q.name q.sptr).length

omit [DecidableEq κ] in
/-- `buf` without names. -/
def cabecera (chname : CStr) (chptr : Canal κ) : CStr :=
  (if .private ∉ chptr.mode ∧ .secret ∉ chptr.mode then '='
    else if .secret ∈ chptr.mode then '@' else '*') :: ' ' :: chname ++ [' ', ':']

/-- `strcat (buf, s)` and `idx++`, where `s` is a character. -/
def Listado.pon (c : Char) (s : Listado) : Listado :=
  { s with buf := s.buf ++ [c], idx := s.idx + 1 }

omit [DecidableEq κ] in
/-- The characters before the name of a member. -/
def Listado.ponPrefijo (lp : Miembro κ) (s : Listado) : Listado :=
  if .zombie ∈ lp.flags then s.pon '!'
  else
    let s := if .owner ∈ lp.flags then s.pon '.' else s
    let s := if .chanop ∈ lp.flags then s.pon '@' else s
    if .voice ∈ lp.flags then s.pon '+' else s

/-- A turn of the loop. -/
def turnoNombres (q : Consulta κ) (chname : CStr) (chptr : Canal κ) (s : Listado) (lp : Miembro κ) :
    Listado :=
  if q.sptr ≠ lp.cptr ∧ q.invisible lp.cptr ∧ isMember q.sptr chptr = none then s
  else if .zombie ∈ lp.flags ∧ lp.cptr ≠ q.sptr then s
  else
    let s := s.ponPrefijo lp
    let s := { s with
      buf := s.buf ++ q.name lp.cptr ++ [' ']
      idx := s.idx + ((q.name lp.cptr).length + 1)
      flag := true }
    if BUFSIZE < q.mlen + s.idx + NICKLEN + 5 then
      { buf := cabecera chname chptr
        idx := chname.length + 4
        flag := false
        enviado := s.enviado ++ [s.buf] }
    else s

/-- The loop, after the members `ms`. -/
def listado (q : Consulta κ) (chname : CStr) (chptr : Canal κ) (ms : List (Miembro κ)) : Listado :=
  ms.foldl (turnoNombres q chname chptr) ⟨cabecera chname chptr, chname.length + 4, true, []⟩

/-- `ShowChannel (v, c)`, with `PubChannel (c)`. -/
def ShowChannel (v : κ) (c : Canal κ) : Prop :=
  (.private ∉ c.mode ∧ .secret ∉ c.mode) ∨ isMember v c ≠ none

instance (v : κ) (c : Canal κ) : Decidable (ShowChannel v c) :=
  inferInstanceAs (Decidable (_ ∨ _))

/-- The texts of the replies for a channel. -/
def nombresCanal (q : Consulta κ) (chname : CStr) (chptr : Canal κ) : List CStr :=
  if ¬ShowChannel q.sptr chptr then []
  else
    let s := listado q chname chptr chptr.members
    if s.flag then s.enviado ++ [s.buf] else s.enviado

omit [DecidableEq κ] in
/-- The message of a reply. -/
def namreply (q : Consulta κ) (buf : CStr) : CStr :=
  ':' :: q.me ++ " 353 ".toList ++ q.name q.sptr ++ [' '] ++ buf ++ ['\r', '\n']

/-! ## What the replies are for -/

/-- A member that the requester may see: itself, and otherwise who is not a zombie and not invisible to
one that is not on the channel. -/
def Visible (q : Consulta κ) (chptr : Canal κ) (lp : Miembro κ) : Prop :=
  lp.cptr = q.sptr ∨
    .zombie ∉ lp.flags ∧ (q.invisible lp.cptr = false ∨ isMember q.sptr chptr ≠ none)

instance (q : Consulta κ) (chptr : Canal κ) (lp : Miembro κ) : Decidable (Visible q chptr lp) :=
  inferInstanceAs (Decidable (_ ∨ _))

omit [DecidableEq κ] in
/-- The marks of a member. -/
def prefijo (lp : Miembro κ) : CStr :=
  if .zombie ∈ lp.flags then ['!']
  else
    (if .owner ∈ lp.flags then ['.'] else []) ++ (if .chanop ∈ lp.flags then ['@'] else []) ++
      (if .voice ∈ lp.flags then ['+'] else [])

omit [DecidableEq κ] in
/-- A member as the replies list it. -/
def textoMiembro (q : Consulta κ) (lp : Miembro κ) : CStr :=
  prefijo lp ++ q.name lp.cptr

/-- A line with the names `g`. -/
def linea (cab : CStr) (g : List CStr) : CStr :=
  cab ++ (g.map (· ++ [' '])).flatten

/-! ## A turn -/

variable {q : Consulta κ} {chname : CStr} {chptr : Canal κ} {lp : Miembro κ} {s : Listado}

omit [DecidableEq κ] in
theorem length_cabecera : (cabecera chname chptr).length = chname.length + 4 := by
  simp [cabecera]

theorem linea_nil (cab : CStr) : linea cab [] = cab := by
  simp [linea]

theorem linea_concat (cab : CStr) (g : List CStr) (x : CStr) :
    linea cab (g ++ [x]) = linea cab g ++ x ++ [' '] := by
  simp [linea]

omit [DecidableEq κ] in
theorem length_prefijo_le (lp : Miembro κ) : (prefijo lp).length ≤ 3 := by
  unfold prefijo
  split_ifs <;> decide

omit [DecidableEq κ] in
/-- The marks are written one by one. -/
theorem ponPrefijo_eq : s.ponPrefijo lp =
    { s with buf := s.buf ++ prefijo lp, idx := s.idx + (prefijo lp).length } := by
  unfold Listado.ponPrefijo prefijo Listado.pon
  dsimp only
  split_ifs <;> simp [Nat.add_assoc]

/-- A member that the requester may not see is passed over. -/
theorem turnoNombres_of_not (h : ¬ Visible q chptr lp) : turnoNombres q chname chptr s lp = s := by
  unfold Visible at h
  push Not at h
  unfold turnoNombres
  by_cases hz : .zombie ∈ lp.flags
  · rw [if_pos (c := _ ∧ _) ⟨hz, h.1⟩, ite_self]
  · have hinv := h.2 hz
    rw [if_pos ⟨Ne.symm h.1, by simpa using hinv.1, hinv.2⟩]

/-- A member that the requester may see is written, and the line is sent if it is long enough. -/
theorem turnoNombres_of (chname : CStr) (s : Listado) (h : Visible q chptr lp) :
    ∃ t : Listado, t = ⟨s.buf ++ textoMiembro q lp ++ [' '], s.idx + ((textoMiembro q lp).length + 1),
        true, s.enviado⟩ ∧
      turnoNombres q chname chptr s lp =
        if BUFSIZE < q.mlen + t.idx + NICKLEN + 5 then
          ⟨cabecera chname chptr, chname.length + 4, false, t.enviado ++ [t.buf]⟩
        else t := by
  have hshow : ¬ (q.sptr ≠ lp.cptr ∧ q.invisible lp.cptr ∧ isMember q.sptr chptr = none) := by
    rintro ⟨hne, hinv, hmember⟩
    obtain hself | ⟨-, hvis | hon⟩ := h
    · exact hne hself.symm
    · exact absurd hinv (by simp [hvis])
    · exact hon hmember
  have hzombie : ¬ (.zombie ∈ lp.flags ∧ lp.cptr ≠ q.sptr) := by
    rintro ⟨hz, hne⟩
    exact h.elim hne fun hnot ↦ hnot.1 hz
  refine ⟨_, rfl, ?_⟩
  unfold turnoNombres
  rw [if_neg hshow, if_neg hzombie, ponPrefijo_eq]
  simp only [textoMiembro, List.length_append, List.append_assoc, Nat.add_assoc]

/-! ## The replies -/

/-- What the loop has done with the members `ms`: the names have been sent in the lines `grupos`, but
for those that are still in `buf`, and there is room for another member. -/
structure Reparte (q : Consulta κ) (chname : CStr) (chptr : Canal κ) (ms : List (Miembro κ))
    (s : Listado) (grupos : List (List CStr)) (actual : List CStr) : Prop where
  enviado : s.enviado = grupos.map (linea (cabecera chname chptr))
  buf : s.buf = linea (cabecera chname chptr) actual
  idx : s.idx = s.buf.length
  nombres : grupos.flatten ++ actual = (ms.filter (Visible q chptr ·)).map (textoMiembro q)
  flag : s.flag = false → actual = []
  sitio : q.mlen + s.idx + NICKLEN + 5 ≤ BUFSIZE
  caben : ∀ b ∈ s.enviado, q.mlen + b.length < BUFSIZE

variable {ms : List (Miembro κ)} {grupos : List (List CStr)} {actual : List CStr}

/-- A turn. -/
theorem Reparte.turno (h : Reparte q chname chptr ms s grupos actual)
    (hcab : q.mlen + (chname.length + 4) + NICKLEN + 5 ≤ BUFSIZE)
    (hnick : (q.name lp.cptr).length ≤ NICKLEN) :
    ∃ grupos' actual', Reparte q chname chptr (ms ++ [lp]) (turnoNombres q chname chptr s lp)
      grupos' actual' := by
  by_cases hvis : Visible q chptr lp
  · obtain ⟨t, ht, hturno⟩ := turnoNombres_of chname s hvis
    have hnames : grupos.flatten ++ (actual ++ [textoMiembro q lp]) =
        ((ms ++ [lp]).filter (Visible q chptr ·)).map (textoMiembro q) := by
      rw [List.filter_append, List.map_append, ← h.nombres]
      simp [hvis]
    have hbuf : t.buf = linea (cabecera chname chptr) (actual ++ [textoMiembro q lp]) := by
      rw [ht, linea_concat, ← h.buf]
    have hidx : t.idx = t.buf.length := by
      simp only [ht, List.length_append, List.length_singleton, h.idx, Nat.add_assoc]
    have hfits : q.mlen + t.buf.length < BUFSIZE := by
      have hroom := h.sitio
      have hprefix := length_prefijo_le lp
      rw [← hidx, ht]
      simp only [textoMiembro, List.length_append]
      omega
    rw [hturno]
    split_ifs with hlong
    · -- The line is full, and the next one has no names yet.
      refine ⟨grupos ++ [actual ++ [textoMiembro q lp]], [], ?_, (linea_nil _).symm,
        length_cabecera.symm, ?_, fun _ ↦ rfl, hcab, ?_⟩
      · show t.enviado ++ [t.buf] = _
        rw [List.map_append, List.map_singleton, ← hbuf, ← h.enviado, ht]
      · rw [List.flatten_concat, List.append_nil]
        exact hnames
      · intro b hb
        rcases List.mem_append.mp hb with hb | hb
        · rw [ht] at hb
          exact h.caben b hb
        · rw [List.mem_singleton.mp hb]
          exact hfits
    · refine ⟨grupos, actual ++ [textoMiembro q lp], ?_, hbuf, hidx, hnames, ?_,
        Nat.not_lt.mp hlong, ?_⟩
      · rw [ht]
        exact h.enviado
      · rw [ht]
        intro hflag
        cases hflag
      · rw [ht]
        exact h.caben
  · refine ⟨grupos, actual, ?_⟩
    rw [turnoNombres_of_not hvis]
    exact { h with nombres := by rw [List.filter_append]; simpa [hvis] using h.nombres }

/-- The loop. -/
theorem reparte_listado (chptr : Canal κ)
    (hcab : q.mlen + (chname.length + 4) + NICKLEN + 5 ≤ BUFSIZE)
    (hnick : ∀ lp ∈ ms, (q.name lp.cptr).length ≤ NICKLEN) :
    ∃ grupos actual, Reparte q chname chptr ms (listado q chname chptr ms) grupos actual := by
  induction ms using List.reverseRecOn with
  | nil =>
      exact ⟨[], [], rfl, (linea_nil _).symm, length_cabecera.symm, rfl, fun _ ↦ rfl, hcab,
        fun b hb ↦ absurd hb (List.not_mem_nil)⟩
  | append_singleton ms lp ih =>
      obtain ⟨grupos, actual, h⟩ := ih fun m hm ↦ hnick m (List.mem_append_left _ hm)
      rw [listado, List.foldl_concat]
      exact h.turno hcab (hnick lp (by simp))

/-- The replies for a channel that is shown, and whose name leaves room for a member, list the members
that the requester may see, in their order and each once, and fit in a message and in `buf`. For a
channel that is not shown there is no reply. -/
theorem nombres_canal (q : Consulta κ) (chname : CStr) (chptr : Canal κ)
    (hcab : q.mlen + (chname.length + 4) + NICKLEN + 5 ≤ BUFSIZE)
    (hnick : ∀ lp ∈ chptr.members, (q.name lp.cptr).length ≤ NICKLEN) :
    (ShowChannel q.sptr chptr → ∃ grupos : List (List CStr),
      nombresCanal q chname chptr = grupos.map (linea (cabecera chname chptr)) ∧
      grupos.flatten = (chptr.members.filter (Visible q chptr ·)).map (textoMiembro q)) ∧
    (¬ShowChannel q.sptr chptr → nombresCanal q chname chptr = []) ∧
    (∀ buf ∈ nombresCanal q chname chptr,
      (namreply q buf).length ≤ BUFSIZE ∧ buf.length < BUFSIZE) ∧
    ∀ ms, ms <+: chptr.members → (listado q chname chptr ms).buf.length < BUFSIZE := by
  obtain ⟨grupos, actual, h⟩ := reparte_listado chptr hcab hnick
  have hfits : ∀ buf ∈ nombresCanal q chname chptr, q.mlen + buf.length < BUFSIZE := by
    intro buf hbuf
    unfold nombresCanal at hbuf
    dsimp only at hbuf
    have hroom := h.sitio
    rw [h.idx] at hroom
    split_ifs at hbuf
    · rcases List.mem_append.mp hbuf with hbuf | hbuf
      · exact h.caben buf hbuf
      · rw [List.mem_singleton.mp hbuf]
        omega
    · exact h.caben buf hbuf
    · exact absurd hbuf List.not_mem_nil
  refine ⟨fun hshow ↦ ?_, fun hhide ↦ if_pos hhide, fun buf hbuf ↦ ?_, fun ms hms ↦ ?_⟩
  · rw [nombresCanal, if_neg (not_not_intro hshow)]
    dsimp only
    split_ifs with hflag
    · refine ⟨grupos ++ [actual], ?_, ?_⟩
      · rw [List.map_append, List.map_singleton, ← h.buf, ← h.enviado]
      · rw [List.flatten_concat]
        exact h.nombres
    · have hnil := h.flag (by simpa using hflag)
      have hnames := h.nombres
      rw [hnil, List.append_nil] at hnames
      exact ⟨grupos, h.enviado, hnames⟩
  · have hlt := hfits buf hbuf
    refine ⟨?_, by omega⟩
    have hlen : (namreply q buf).length + 1 = q.mlen + buf.length := by
      simp only [namreply, Consulta.mlen, List.length_append, List.length_cons, List.length_nil,
        String.length_toList]
      have hnum : " 353 ".length = 5 := by decide
      omega
    omega
  · obtain ⟨_, _, hms'⟩ := reparte_listado chptr hcab fun lp hlp ↦ hnick lp (hms.mem hlp)
    have hroom := hms'.sitio
    rw [hms'.idx] at hroom
    omega

end

/-! ## A channel with one member -/

/-- A user of this server. -/
def deAna : Consulta Unit where
  me := "irc.example.net".toList
  sptr := ()
  name _ := "ana".toList
  invisible _ := false

/-- Its channel. -/
def deUno : Canal Unit :=
  { Canal.nuevo with members := [⟨(), {.chanop}⟩] }

theorem nombres_canal_ana :
    (ShowChannel deAna.sptr deUno → ∃ grupos : List (List CStr),
      nombresCanal deAna "#irc".toList deUno = grupos.map (linea (cabecera "#irc".toList deUno)) ∧
      grupos.flatten = (deUno.members.filter (Visible deAna deUno ·)).map (textoMiembro deAna)) ∧
    (¬ShowChannel deAna.sptr deUno → nombresCanal deAna "#irc".toList deUno = []) ∧
    (∀ buf ∈ nombresCanal deAna "#irc".toList deUno,
      (namreply deAna buf).length ≤ BUFSIZE ∧ buf.length < BUFSIZE) ∧
    ∀ ms, ms <+: deUno.members → (listado deAna "#irc".toList deUno ms).buf.length < BUFSIZE :=
  nombres_canal deAna "#irc".toList deUno (by decide) (by
    intro lp _
    show "ana".toList.length ≤ NICKLEN
    decide)

/-- The only reply for the channel of one member. -/
theorem nombresCanal_deUno (chname : CStr) :
    nombresCanal deAna chname deUno = [cabecera chname deUno ++ "@ana".toList ++ [' ']] := by
  have hvis : Visible deAna deUno ⟨(), {.chanop}⟩ := .inl rfl
  have hlist : listado deAna chname deUno deUno.members = turnoNombres deAna chname deUno
      ⟨cabecera chname deUno, chname.length + 4, true, []⟩ ⟨(), {.chanop}⟩ := rfl
  obtain ⟨t, ht, hturno⟩ := turnoNombres_of chname
    ⟨cabecera chname deUno, chname.length + 4, true, []⟩ hvis
  have hbuf : t.buf = cabecera chname deUno ++ "@ana".toList ++ [' '] := by rw [ht]; rfl
  have hflag : t.flag = true := by rw [ht]
  have henviado : t.enviado = [] := by rw [ht]
  rw [nombresCanal, if_neg (not_not_intro (.inl (by decide))), hlist, hturno, ← hbuf]
  split_ifs <;> simp [henviado, hflag]

/-- A secret channel, and a requester who is not on it. -/
def secreta : Canal Bool :=
  { Canal.nuevo with mode := {.secret}, members := [⟨true, {.chanop}⟩] }

def forastera : Consulta Bool where
  me := "irc.example.net".toList
  sptr := false
  name _ := "ana".toList
  invisible _ := false

/-- In a channel that another server has given a name of 480 characters the reply for one member does
not fit, and the members of a secret channel are not listed for who is not on it. -/
theorem not_nombres_canal :
    (¬∀ (q : Consulta Unit) (chname : CStr) (chptr : Canal Unit),
      (∀ lp ∈ chptr.members, (q.name lp.cptr).length ≤ NICKLEN) →
      ∀ buf ∈ nombresCanal q chname chptr, (namreply q buf).length ≤ BUFSIZE) ∧
    ¬∀ (q : Consulta Bool) (chname : CStr) (chptr : Canal Bool),
      ∃ grupos : List (List CStr),
        nombresCanal q chname chptr = grupos.map (linea (cabecera chname chptr)) ∧
        grupos.flatten = (chptr.members.filter (Visible q chptr ·)).map (textoMiembro q) := by
  constructor
  · intro h
    have hlong := h deAna (List.replicate 480 '#') deUno
      (by
        intro lp _
        show "ana".toList.length ≤ NICKLEN
        decide) _ (by rw [nombresCanal_deUno]; exact List.mem_singleton_self _)
    simp only [namreply, List.length_append, List.length_cons, length_cabecera,
      List.length_replicate, BUFSIZE] at hlong
    have hme : deAna.me.length = 15 := by decide
    have hname : (deAna.name deAna.sptr).length = 3 := by decide
    have hnum : " 353 ".toList.length = 5 := by decide
    have hana : "@ana".toList.length = 4 := by decide
    omega
  · intro h
    obtain ⟨grupos, hlines, hnames⟩ := h forastera "#irc".toList secreta
    have hhide : ¬ShowChannel forastera.sptr secreta := by decide
    rw [nombresCanal, if_pos hhide, eq_comm, List.map_eq_nil_iff] at hlines
    have hvis : Visible forastera secreta ⟨true, {.chanop}⟩ := .inr ⟨by decide, .inl rfl⟩
    have hlista : secreta.members.filter (Visible forastera secreta ·) = [⟨true, {.chanop}⟩] :=
      List.filter_cons_of_pos (decide_eq_true hvis)
    rw [hlines, hlista] at hnames
    cases hnames

end Ircd.Channel
