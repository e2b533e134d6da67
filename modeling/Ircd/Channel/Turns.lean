import Ircd.Channel.Arrivals

/-!
# The variables of `m_join`

What outlives a turn of the loop of `m_join`, and what a name finds of it. `vueltaJoin_tras` says that
a name which finds what a command of its own would find is treated as by that command, and
`bueno_of_mismo` that no other is.
-/

namespace Ircd.Channel

open CString Hash

section

variable {γ κ : Type} {e : AjustesJoin γ} {q : Entrante κ} {keysOrTS : Option CStr}
  {x y : Entrando γ κ} {m m' : Mundo γ κ} {name : CStr} {ls : List (Llegada γ)}

/-! ## The variables -/

/-- `parc` stays for a channel that another server has created. -/
theorem ponTS_snd (ts : CStr) (conTS : Bool) (ct : Int) :
    (ponTS (some ts) conTS ct).2 = (conTS && decide (EsMagic ct)) := by
  unfold ponTS EsMagic
  cases conTS with
  | false => rfl
  | true =>
      by_cases hzero : ct = 0
      · simp [hzero]
      · by_cases hmagic : ct = MAGIC_REMOTE_JOIN_TS
        · simp [hmagic]
        · simp [hzero, hmagic]

/-- The time stamp is that of a channel that another server has created, if it has not been cut
off. -/
theorem ponTS_fst (ts : CStr) (conTS : Bool) (ct : Int) : (ponTS (some ts) conTS ct).1 =
    if EsMagic ct then if conTS then atoi ts else MAGIC_REMOTE_JOIN_TS else ct := by
  unfold ponTS EsMagic
  by_cases hzero : ct = 0
  · cases conTS <;> simp [hzero]
  · by_cases hmagic : ct = MAGIC_REMOTE_JOIN_TS
    · cases conTS <;> simp [hmagic]
    · cases conTS <;> simp [hzero, hmagic]

theorem length_lista_append (buf : List CStr) (name : CStr) : (lista (buf ++ [name])).length =
    (lista buf).length + (if buf = [] then 0 else 1) + name.length := by
  induction buf with
  | nil => simp [lista, List.intercalate_singleton]
  | cons n buf ih =>
      cases buf with
      | nil =>
          simp [lista, List.intercalate_singleton, List.intercalate_cons_cons]
          omega
      | cons n' buf =>
          have hcons : ∀ ns, lista (n :: n' :: ns) = n ++ ',' :: lista (n' :: ns) := by
            intro ns
            simp [lista, List.intercalate_cons_cons]
          simp only [List.cons_append, hcons, List.length_append, List.length_cons, reduceCtorEq,
            if_false] at ih ⊢
          omega

/-- A buffer takes a name that it has room for. -/
theorem apuntaSi_eq {b : Bool} {buf : List CStr} {len : Nat}
    (h : b = true → 0 < BUFSIZE - name.length - 2 → len < BUFSIZE - name.length - 2) :
    (apuntaSi b name (buf, len)).1 =
      buf ++ if b ∧ 0 < BUFSIZE - name.length - 2 then [name] else [] := by
  unfold apuntaSi apunta
  cases b with
  | false => simp
  | true =>
      by_cases hroom : 0 < BUFSIZE - name.length - 2
      · simp [hroom, h rfl hroom]
      · have hfull : ¬ len < BUFSIZE - name.length - 2 := by omega
        simp [hroom, hfull]

/-- A buffer that is longer by a name has had room for it. -/
theorem lt_of_apuntaSi {b : Bool} {buf : List CStr} {len : Nat}
    (h : (apuntaSi b name (buf, len)).1.length =
      buf.length + (if b ∧ 0 < BUFSIZE - name.length - 2 then [name] else []).length) :
    b = true → 0 < BUFSIZE - name.length - 2 → len < BUFSIZE - name.length - 2 := by
  intro hb hroom
  by_contra hlen
  simp [apuntaSi, apunta, hb, hroom, hlen] at h

/-- The length of a buffer is kept. -/
theorem apuntaSi_snd (b : Bool) (name : CStr) (buf : List CStr) :
    (apuntaSi b name (buf, (lista buf).length)).2 =
      (lista (apuntaSi b name (buf, (lista buf).length)).1).length := by
  unfold apuntaSi apunta
  cases b with
  | false => rfl
  | true =>
      by_cases hroom : (lista buf).length < BUFSIZE - name.length - 2
      · simp [hroom, length_lista_append]
      · simp [hroom]

/-- A name finds what a command of its own would find behind the channels `ls`. None of them has been
given an owner; the time stamp is taken for this channel as for them; a user from another server does
not get the flags of a zombie; and the name fits into the buffer. -/
structure Bueno (q : Entrante κ) (keysOrTS : Option CStr) (ls : List (Llegada γ)) (s : Suerte γ) :
    Prop where
  owner : ∀ l ∈ ls, l.owner = true → s = .fuera
  ts : ∀ l ∈ s.llegadas, ∀ ts ∈ keysOrTS,
    if l.magic then
      (∀ l' ∈ ls, l'.magic = true) ∨ atoi ts = MAGIC_REMOTE_JOIN_TS ∧ l.dicho false = []
    else (∀ l' ∈ ls, l'.magic = true) → ∀ l' ∈ ls, l'.dicho false = []
  zombie : ∀ l ∈ s.llegadas, q.myUser = false → l.zombie = none → l.user = true →
    ∀ z ∈ (ls.filterMap Llegada.zombie).getLast?, z = deFuera q
  cabe : ∀ l ∈ s.llegadas, ∀ create, l.dicho create ≠ [] →
    (lista (ls.flatMap (Llegada.dicho create))).length < BUFSIZE - l.name.length - 2

/-- The variables behind the channels `ls`, which have all found what a command of their own would
find. -/
structure Tras (q : Entrante κ) (keysOrTS : Option CStr) (ls : List (Llegada γ))
    (x : Entrando γ κ) : Prop where
  fin : x.fin keysOrTS = entrado keysOrTS x.mundo ls
  conTS : x.conTS = (keysOrTS.isSome && ls.all Llegada.magic)
  owner : x.flags = {.owner} ↔ ∃ l ∈ ls, l.owner = true
  chptr : x.flags = {.owner} → x.chptr.isSome = true
  remoto : q.myUser = false → x.flags ≠ {.owner} ∧ x.sendcreate = false
  zombie : q.myUser = false → x.zombie = ((ls.filterMap Llegada.zombie).getLast?).isSome
  flags : q.myUser = false → ∀ z ∈ (ls.filterMap Llegada.zombie).getLast?, x.flags = z
  jbuf : x.jbuf = ls.flatMap (Llegada.dicho false)
  jlen : x.jlen = (lista x.jbuf).length
  mbuf : x.mbuf = ls.flatMap (Llegada.dicho true)
  mlen : x.mlen = (lista x.mbuf).length

theorem tras_inicio (m : Mundo γ κ) : Tras q keysOrTS ([] : List (Llegada γ)) (.inicio keysOrTS m) := by
  have hne : (∅ : Finset Chfl) ≠ {.owner} := by decide
  exact
    { fin := by simp [Entrando.fin, Entrando.inicio, entrado, hne]
      conTS := by simp [Entrando.inicio]
      owner := by simp [Entrando.inicio, hne]
      chptr := fun h ↦ absurd h hne
      remoto := fun _ ↦ ⟨hne, rfl⟩
      zombie := fun _ ↦ rfl
      flags := fun _ ↦ by simp
      jbuf := rfl
      jlen := rfl
      mbuf := rfl
      mlen := rfl }

/-- A channel that the user does not try to enter changes the flags alone. -/
theorem Tras.otra (h : Tras q keysOrTS ls x) (hx : x.flags ≠ {.owner}) {m : Mundo γ κ}
    {flags : Finset Chfl} {sendcreate : Bool} {chptr : Option γ} (hflags : flags ≠ {.owner})
    (hremoto : q.myUser = false → flags = x.flags ∧ sendcreate = false) :
    Tras q keysOrTS ls
      { x with mundo := m, flags := flags, sendcreate := sendcreate, chptr := chptr } where
  fin := by
    have howners : (x.fin keysOrTS).owners = [] := if_neg hx
    rw [h.fin] at howners
    have hanuncios : x.anuncios = (entrado keysOrTS x.mundo ls).anuncios :=
      congrArg Entrado.anuncios h.fin
    have hjoins : (x.fin keysOrTS).joins = (entrado keysOrTS x.mundo ls).joins :=
      congrArg Entrado.joins h.fin
    simp only [Entrando.fin, entrado, Entrado.mk.injEq, true_and, if_neg hflags]
    exact ⟨hanuncios, hjoins, h.mbuf, howners.symm⟩
  conTS := h.conTS
  owner := iff_of_false hflags (h.owner.not.mp hx)
  chptr := fun heq ↦ absurd heq hflags
  remoto := fun hmio ↦ ⟨hflags, (hremoto hmio).2⟩
  zombie := h.zombie
  flags := fun hmio z hz ↦ (hremoto hmio).1.trans (h.flags hmio z hz)
  jbuf := h.jbuf
  jlen := h.jlen
  mbuf := h.mbuf
  mlen := h.mlen

theorem Llegada.dicho_eq (l : Llegada γ) (create : Bool) : l.dicho create =
    if (l.esGlobal && (l.create == create)) ∧ 0 < BUFSIZE - l.name.length - 2 then [l.name]
    else [] := by
  simp [Llegada.dicho, and_assoc]

/-- A buffer that has room for the channel takes what is told of it. -/
theorem apuntaSi_dicho {l : Llegada γ} {create : Bool} (h : l.dicho create ≠ [] →
      (lista (ls.flatMap (Llegada.dicho create))).length < BUFSIZE - l.name.length - 2) :
    (apuntaSi (l.esGlobal && (l.create == create)) l.name
      (ls.flatMap (Llegada.dicho create), (lista (ls.flatMap (Llegada.dicho create))).length)).1 =
      (ls ++ [l]).flatMap (Llegada.dicho create) := by
  rw [List.flatMap_append, List.flatMap_singleton, l.dicho_eq create]
  refine apuntaSi_eq fun hglobal hroom ↦ h ?_
  rw [l.dicho_eq create, if_pos ⟨hglobal, hroom⟩]
  exact List.cons_ne_nil _ _

/-- The creation time is that which a command of its own sets. -/
theorem Bueno.creationtime {l : Llegada γ} (h : Tras q keysOrTS ls x)
    (hb : Bueno q keysOrTS ls (.llega l)) {ct : Int} (hmagic : l.magic = decide (EsMagic ct)) :
    (ponTS keysOrTS x.conTS ct).1 = (ponTS keysOrTS keysOrTS.isSome ct).1 := by
  have hconTS := h.conTS
  cases keysOrTS with
  | none => rw [hconTS]; rfl
  | some ts =>
      have hts := hb.ts l List.mem_cons_self ts rfl
      rw [Option.isSome_some, Bool.true_and] at hconTS
      rw [Option.isSome_some, ponTS_fst, ponTS_fst]
      by_cases hct : EsMagic ct
      · rw [hmagic, if_pos (decide_eq_true hct)] at hts
        rw [if_pos hct, if_pos hct, if_pos rfl]
        rcases hts with hall | ⟨hatoi, -⟩
        · rw [hconTS, List.all_eq_true.mpr hall, if_pos rfl]
        · rw [hatoi, ite_self]
      · rw [if_neg hct, if_neg hct]

theorem Tras.parc {l : Llegada γ} (h : Tras q keysOrTS ls x) {ct : Int}
    (hmagic : l.magic = decide (EsMagic ct)) :
    (ponTS keysOrTS x.conTS ct).2 = (keysOrTS.isSome && (ls ++ [l]).all Llegada.magic) := by
  have hconTS := h.conTS
  cases keysOrTS with
  | none => rw [hconTS]; rfl
  | some ts =>
      rw [Option.isSome_some, Bool.true_and] at hconTS ⊢
      rw [ponTS_snd, List.all_append, hconTS, ← hmagic]
      simp

/-- The other servers are told the time stamp that a command of its own tells. -/
theorem Tras.joins {l : Llegada γ} (h : Tras q keysOrTS ls x)
    (hb : Bueno q keysOrTS ls (.llega l)) :
    (((ls ++ [l]).flatMap (Llegada.dicho false)).map fun name ↦
        (name, if (keysOrTS.isSome && (ls ++ [l]).all Llegada.magic) = true then keysOrTS else none)) =
      (entrado keysOrTS m (ls ++ [l])).joins := by
  cases keysOrTS with
  | none => simp [entrado, List.map_flatMap]
  | some ts =>
      have hantes : (x.fin (some ts)).joins = (entrado (some ts) x.mundo ls).joins :=
        congrArg Entrado.joins h.fin
      have hts := hb.ts l List.mem_cons_self ts rfl
      rw [Entrando.fin, h.jbuf, h.conTS] at hantes
      simp only [Option.isSome_some, Bool.true_and] at hantes ⊢
      rw [entrado] at hantes ⊢
      dsimp only at hantes ⊢
      rw [List.flatMap_append, List.map_append, List.flatMap_append, List.flatMap_singleton,
        List.flatMap_singleton, ← hantes, List.all_append]
      cases hmagic : l.magic with
      | true =>
          rw [hmagic, if_pos rfl] at hts
          rcases hts with hall | ⟨-, hnada⟩
          · simp [List.all_eq_true.mpr hall, hmagic]
          · simp [hnada, hmagic]
      | false =>
          rw [hmagic, if_neg (by simp)] at hts
          cases hall : ls.all Llegada.magic with
          | false => simp [hmagic]
          | true =>
              have hnil : ls.flatMap (Llegada.dicho false) = [] :=
                List.flatMap_eq_nil_iff.mpr (hts (List.all_eq_true.mp hall))
              simp [hnil, hmagic]

/-- The flags are those of a command of its own, or there is no user to set them for. -/
theorem Bueno.flags {l : Llegada γ} (h : Tras q keysOrTS ls x)
    (hb : Bueno q keysOrTS ls (.llega l)) {elegido : Option (Finset Chfl × Bool)}
    (helegido : elegido.isSome = q.myUser) (huser : q.myUser = true ∨ l.user = true) :
    sinOwner q (x.zombie || l.zombie.isSome) (l.zombie.getD (elegido.elim x.flags Prod.fst)) =
      sinOwner q l.zombie.isSome (l.zombie.getD (elegido.elim ∅ Prod.fst)) := by
  cases hz : l.zombie with
  | some z => simp
  | none =>
      cases hxz : x.zombie with
      | false => 
          cases elegido with
          | some p => rfl
          | none =>
              have hmio : q.myUser = false := helegido.symm
              simp [sinOwner, hmio]
      | true =>
          cases elegido with
          | some p =>
              have hmio : q.myUser = true := helegido.symm
              simp [sinOwner, hmio, q.ts8_local hmio]
          | none =>
              have hmio : q.myUser = false := helegido.symm
              have hultimo := h.zombie hmio
              rw [hxz] at hultimo
              obtain ⟨z, hlast⟩ := Option.isSome_iff_exists.mp hultimo.symm
              have hfuera := hb.zombie l List.mem_cons_self hmio hz
                (huser.resolve_left (by simp [hmio])) z hlast
              have hflags : x.flags = deFuera q := (h.flags hmio z hlast).trans hfuera
              simp [sinOwner, hmio, hflags, deFuera]

theorem Llegada.banderas_iff (l : Llegada γ) {flags : Finset Chfl} (h : flags ≠ {.owner}) :
    l.banderas flags = {.owner} ↔ l.owner = true := by
  unfold Llegada.banderas
  cases l.owner <;> simp [h]

theorem Tras.sinOwner_ne (h : Tras q keysOrTS ls x) {elegido : Option (Finset Chfl × Bool)}
    (helegido : Elegido q elegido) {zombie : Option (Finset Chfl)}
    (hzombie : ∀ z ∈ zombie, z ≠ {.owner}) :
    sinOwner q (x.zombie || zombie.isSome) (zombie.getD (elegido.elim x.flags Prod.fst)) ≠
      {.owner} := by
  refine Channel.sinOwner_ne ?_ _
  cases zombie with
  | some z => exact hzombie z rfl
  | none =>
      cases elegido with
      | some p => exact helegido.2 p rfl
      | none => exact (h.remoto helegido.1.symm).1

theorem Tras.sendcreate (h : Tras q keysOrTS ls x) {elegido : Option (Finset Chfl × Bool)}
    (helegido : Elegido q elegido) :
    elegido.elim x.sendcreate Prod.snd = elegido.any Prod.snd := by
  cases elegido with
  | some p => rfl
  | none => exact (h.remoto helegido.1.symm).2

/-- What is seen of what two commands leave is the same. -/
def Entrado.Mismo (r r' : Entrado γ κ) : Prop :=
  r.mundo.Mismo r'.mundo ∧ r.anuncios = r'.anuncios ∧ r.joins = r'.joins ∧ r.creates = r'.creates ∧
    r.owners = r'.owners

/-- A buffer as long as what is told of the channels has had room for the last one. -/
theorem cabe_of_length {l : Llegada γ} {create : Bool}
    (h : (apuntaSi (l.esGlobal && (l.create == create)) l.name
      (ls.flatMap (Llegada.dicho create), (lista (ls.flatMap (Llegada.dicho create))).length)).1.length =
      ((ls ++ [l]).flatMap (Llegada.dicho create)).length) (hdicho : l.dicho create ≠ []) :
    (lista (ls.flatMap (Llegada.dicho create))).length < BUFSIZE - l.name.length - 2 := by
  rw [List.flatMap_append, List.flatMap_singleton, List.length_append, l.dicho_eq create] at h
  rw [l.dicho_eq create] at hdicho
  obtain ⟨hglobal, hroom⟩ : (l.esGlobal && (l.create == create)) = true ∧
      0 < BUFSIZE - l.name.length - 2 := by
    by_contra hnot
    exact hdicho (if_neg hnot)
  exact lt_of_apuntaSi h hglobal hroom

/-- The time stamps that are told are those that commands of their own tell, only if they are the
same or there is nothing to tell. -/
theorem conTS_of_joins {l : Llegada γ} {ts : CStr} (h : Tras q (some ts) ls x) {conTS : Bool}
    (hjoins : (((ls ++ [l]).flatMap (Llegada.dicho false)).map fun name ↦
        (name, if conTS = true then some ts else none)) =
      (entrado (some ts) m (ls ++ [l])).joins) :
    (ls.flatMap (Llegada.dicho false) = [] ∨ conTS = x.conTS) ∧
      (l.dicho false = [] ∨ conTS = l.magic) := by
  have higuales : ∀ {names : List CStr} {b b' : Bool},
      (names.map fun name ↦ (name, if b = true then some ts else none)) =
        (names.map fun name ↦ (name, if b' = true then some ts else none)) →
      names = [] ∨ b = b' := by
    intro names b b' heq
    cases names with
    | nil => exact Or.inl rfl
    | cons name names =>
        right
        cases b <;> cases b' <;> simp at heq <;> rfl
  have hantes : (x.fin (some ts)).joins = (entrado (some ts) x.mundo ls).joins :=
    congrArg Entrado.joins h.fin
  rw [Entrando.fin, h.jbuf] at hantes
  rw [entrado] at hantes hjoins
  dsimp only at hantes hjoins
  rw [List.flatMap_append, List.map_append, List.flatMap_append, List.flatMap_singleton,
    List.flatMap_singleton, ← hantes] at hjoins
  obtain ⟨hleft, hright⟩ := List.append_inj hjoins (by simp)
  exact ⟨higuales hleft, higuales hright⟩

/-- Where a channel is found, no channel before was given an owner. -/
theorem Tras.nadie (h : Tras q keysOrTS ls x) {s : Suerte γ} (hb : Bueno q keysOrTS ls s)
    (hs : s ≠ .fuera) : x.flags ≠ {.owner} ∧ ∀ l ∈ ls, l.owner = false := by
  have hnadie : ∀ l ∈ ls, l.owner = false := fun l hl ↦
    Bool.eq_false_iff.mpr fun howner ↦ hs (hb.owner l hl howner)
  refine ⟨fun heq ↦ ?_, hnadie⟩
  obtain ⟨l, hl, howner⟩ := h.owner.mp heq
  exact hs (hb.owner l hl howner)

/-- The last zombie that was found. -/
theorem getLast?_zombie (ls : List (Llegada γ)) (l : Llegada γ) :
    ((ls ++ [l]).filterMap Llegada.zombie).getLast? =
      l.zombie.or (ls.filterMap Llegada.zombie).getLast? := by
  rw [List.filterMap_append]
  cases hz : l.zombie <;> simp [hz]

/-- What is sent behind a channel is what is sent for all of them. -/
theorem Tras.fin_llega {l : Llegada γ} (h : Tras q keysOrTS ls x)
    (hb : Bueno q keysOrTS ls (.llega l)) (hanuncios : y.anuncios = x.anuncios ++ l.anuncios)
    (hconTS : y.conTS = (keysOrTS.isSome && (ls ++ [l]).all Llegada.magic))
    (hjbuf : y.jbuf = (ls ++ [l]).flatMap (Llegada.dicho false))
    (hmbuf : y.mbuf = (ls ++ [l]).flatMap (Llegada.dicho true))
    (howner : y.flags = {.owner} ↔ l.owner = true) (hchptr : y.chptr = some l.chptr) :
    y.fin keysOrTS = entrado keysOrTS y.mundo (ls ++ [l]) := by
  have hanuncios' : y.anuncios = (ls ++ [l]).flatMap Llegada.anuncios := by
    have hantes : x.anuncios = ls.flatMap Llegada.anuncios := congrArg Entrado.anuncios h.fin
    rw [List.flatMap_append, List.flatMap_singleton, ← hantes, hanuncios]
  have howners : (if y.flags = {.owner} then y.chptr.toList else []) =
      ((ls ++ [l]).filter Llegada.owner).map Llegada.chptr := by
    have hnone : ls.filter Llegada.owner = [] :=
      List.filter_eq_nil_iff.mpr fun l' hl' ↦ by simp [(h.nadie hb (by simp)).2 l' hl']
    rw [List.filter_append, hnone, List.nil_append, hchptr]
    simp only [howner]
    cases howner' : l.owner <;> simp [howner']
  have hjoins : (y.fin keysOrTS).joins = (entrado keysOrTS y.mundo (ls ++ [l])).joins := by
    rw [← h.joins hb, Entrando.fin, hjbuf, hconTS]
  rw [Entrando.fin, entrado, Entrado.mk.injEq]
  exact ⟨rfl, hanuncios', hjoins, hmbuf, howners⟩

/-- If the owners that are told are those of all channels, no channel before the last one was given
an owner. -/
theorem nadie_of_owners {l : Llegada γ} {c : γ} (hchptr : y.chptr = some c)
    (howner : y.flags = {.owner} ↔ l.owner = true)
    (howners : (y.fin keysOrTS).owners = (entrado keysOrTS m (ls ++ [l])).owners) :
    ∀ l' ∈ ls, l'.owner ≠ true := by
  intro l' hl' howner'
  -- the grant to the owner of the channel before is not made
  have hlength := congrArg List.length howners
  have hbefore : 0 < (ls.filter Llegada.owner).length :=
    List.length_pos_iff_exists_mem.mpr ⟨l', List.mem_filter.mpr ⟨hl', howner'⟩⟩
  simp only [Entrando.fin, entrado, List.length_map, List.filter_append, List.length_append,
    howner, hchptr] at hlength
  cases hlo : l.owner with
  | true =>
      have hone : [l].filter Llegada.owner = [l] := List.filter_cons_of_pos hlo
      rw [hone, if_pos hlo] at hlength
      simp only [Option.toList_some, List.length_singleton] at hlength
      omega
  | false =>
      rw [if_neg (by simp [hlo]), List.length_nil] at hlength
      omega

/-- If the time stamps that are told are those that commands of their own tell, the last channel is
as those before it, or there is nothing to tell. -/
theorem Tras.ts_of_joins {l : Llegada γ} {ts : CStr} (h : Tras q (some ts) ls x)
    (hjoins : (((ls ++ [l]).flatMap (Llegada.dicho false)).map fun name ↦
        (name, if (x.conTS && l.magic) = true then some ts else none)) =
      (entrado (some ts) m (ls ++ [l])).joins)
    (hatoi : l.magic = true → x.conTS = false → atoi ts = MAGIC_REMOTE_JOIN_TS) :
    if l.magic then
      (∀ l' ∈ ls, l'.magic = true) ∨ atoi ts = MAGIC_REMOTE_JOIN_TS ∧ l.dicho false = []
    else (∀ l' ∈ ls, l'.magic = true) → ∀ l' ∈ ls, l'.dicho false = [] := by
  obtain ⟨hleft, hright⟩ := conTS_of_joins h hjoins
  have hx := h.conTS
  rw [Option.isSome_some, Bool.true_and] at hx
  cases hmagic : l.magic with
  | true =>
      rw [if_pos rfl]
      cases hall : x.conTS with
      | true => exact Or.inl (List.all_eq_true.mp (hx.symm.trans hall))
      | false =>
          rw [hall, hmagic] at hright
          exact Or.inr ⟨hatoi hmagic hall, hright.resolve_right (by simp)⟩
  | false =>
      rw [if_neg (by simp)]
      intro hall
      have hxtrue : x.conTS = true := hx.trans (List.all_eq_true.mpr hall)
      rw [hmagic, Bool.and_false, hxtrue] at hleft
      exact List.flatMap_eq_nil_iff.mp (hleft.resolve_right (by simp))

theorem bueno_fuera : Bueno q keysOrTS ls .fuera where
  owner := fun _ _ _ ↦ rfl
  ts := fun _ hl ↦ by cases hl
  zombie := fun _ hl ↦ by cases hl
  cabe := fun _ hl ↦ by cases hl

/-- Where the flags are no owner's any more, no channel before was given an owner. -/
theorem bueno_otra (hflags : y.flags ≠ {.owner})
    (heq : (y.fin keysOrTS).Mismo (entrado keysOrTS m' ls)) : Bueno q keysOrTS ls .otra where
  owner := by
    intro l hl howner
    have howners := heq.2.2.2.2
    rw [Entrando.fin, if_neg hflags] at howners
    have hmem : l.chptr ∈ (entrado keysOrTS m' ls).owners :=
      List.mem_map_of_mem (List.mem_filter.mpr ⟨hl, howner⟩)
    rw [← howners] at hmem
    cases hmem
  ts := fun _ hl ↦ by cases hl
  zombie := fun _ hl ↦ by cases hl
  cabe := fun _ hl ↦ by cases hl

end

section

variable {γ κ : Type} [DecidableEq γ] [DecidableEq κ] [Fintype γ] {e : AjustesJoin γ}
  {q : Entrante κ} {keysOrTS : Option CStr} {x y : Entrando γ κ} {m m' : Mundo γ κ} {chptr : γ}
  {name : CStr} {ls : List (Llegada γ)} {s : Suerte γ} {b : Bool}

/-! ## A turn -/

/-- The flags of a member are set where there is a user. -/
theorem tras_congr {ct : Int} {flags flags' : Finset Chfl}
    (h : q.myUser = true ∨ m.red.user q.sptr = true → flags = flags') :
    tras e q keysOrTS chptr ct flags m = tras e q keysOrTS chptr ct flags' m := by
  cases hmio : q.myUser with
  | true => rw [h (Or.inl hmio)]
  | false =>
      cases huser : m.red.user q.sptr with
      | true => rw [h (Or.inr huser)]
      | false => simp [tras, hmio, addUserToChannel, huser]

/-- Behind a channel that the user tries to enter. -/
theorem Tras.llega {l : Llegada γ} (h : Tras q keysOrTS ls x) (hb : Bueno q keysOrTS ls (.llega l))
    {elegido : Option (Finset Chfl × Bool)} (helegido : Elegido q elegido) {zombie : Option (Finset Chfl)}
    (hzombie : ∀ z ∈ zombie, z ≠ {.owner})
    (hl : llegada e q keysOrTS chptr zombie (elegido.any Prod.snd) m = l)
    (hy : admite e q keysOrTS chptr { x with
      mundo := m
      zombie := x.zombie || zombie.isSome
      flags := zombie.getD (elegido.elim x.flags Prod.fst)
      sendcreate := elegido.elim x.sendcreate Prod.snd } = y) :
    y.mundo = tras e q keysOrTS chptr
        (ponTS keysOrTS keysOrTS.isSome (m.creationtime chptr)).1
        (l.banderas (sinOwner q zombie.isSome (zombie.getD (elegido.elim ∅ Prod.fst)))) m ∧
      Tras q keysOrTS (ls ++ [l]) y := by
  have hsome := helegido.1
  have hlz : l.zombie = zombie := by rw [← hl]; rfl
  have hlchptr : l.chptr = chptr := by rw [← hl]; rfl
  have hluser : l.user = m.red.user q.sptr := by rw [← hl]; rfl
  have hlmagic : l.magic = decide (EsMagic (m.creationtime chptr)) := by rw [← hl]; rfl
  have hlowner : q.myUser = false → l.owner = false := by
    intro hmio
    rw [← hl]
    simp [llegada, hmio]
  rw [admite_eq zombie (l := l) (by rw [h.sendcreate helegido]; exact hl)] at hy
  dsimp only at hy
  have hflagsy : y.flags = l.banderas (sinOwner q (x.zombie || zombie.isSome)
      (zombie.getD (elegido.elim x.flags Prod.fst))) := by rw [← hy]
  have hconTS : y.conTS = (keysOrTS.isSome && (ls ++ [l]).all Llegada.magic) := by
    rw [← hy]
    exact h.parc hlmagic
  have hjbuf : y.jbuf = (ls ++ [l]).flatMap (Llegada.dicho false) := by
    rw [← apuntaSi_dicho (hb.cabe l List.mem_cons_self false), ← h.jbuf, ← h.jlen, ← hy]
  have hmbuf : y.mbuf = (ls ++ [l]).flatMap (Llegada.dicho true) := by
    rw [← apuntaSi_dicho (hb.cabe l List.mem_cons_self true), ← h.mbuf, ← h.mlen, ← hy]
  have howner : y.flags = {.owner} ↔ l.owner = true := by
    rw [hflagsy]
    exact l.banderas_iff (h.sinOwner_ne helegido hzombie)
  have hremoto : q.myUser = false → elegido = none := by
    intro hmio
    rw [hmio] at hsome
    exact Option.isSome_eq_false_iff.mp hsome |> Option.isNone_iff_eq_none.mp
  have hnadie := (h.nadie hb (by simp)).2
  refine ⟨?_, ?_⟩
  · rw [← hy]
    dsimp only
    rw [hb.creationtime h hlmagic]
    refine tras_congr fun huser ↦ ?_
    rw [← hluser] at huser
    rw [← hlz, hb.flags h hsome huser]
  · refine ⟨?_, hconTS, ?_, fun _ ↦ by rw [← hy]; rfl, ?_, ?_, ?_, hjbuf, ?_, hmbuf, ?_⟩
    · exact h.fin_llega hb (by rw [← hy]) hconTS hjbuf hmbuf howner (by rw [← hy, hlchptr])
    · rw [howner]
      constructor
      · exact fun hl ↦ ⟨l, by simp, hl⟩
      · rintro ⟨l', hl', howner'⟩
        rcases List.mem_append.mp hl' with hold | hnew
        · rw [hnadie l' hold] at howner'
          cases howner'
        · rw [List.mem_singleton.mp hnew] at howner'
          exact howner'
    · intro hmio
      refine ⟨howner.not.mpr (by simp [hlowner hmio]), ?_⟩
      rw [← hy]
      simp [hremoto hmio, (h.remoto hmio).2]
    · intro hmio
      rw [getLast?_zombie, hlz, ← hy]
      dsimp only
      rw [h.zombie hmio]
      cases zombie <;> simp
    · intro hmio z hz
      rw [hflagsy, Llegada.banderas, hlowner hmio, if_neg (by simp)]
      rw [getLast?_zombie, hlz] at hz
      cases zombie with
      | some z' =>
          rw [Option.some_or, Option.mem_some_iff] at hz
          simp [sinOwner, hz]
      | none =>
          rw [Option.none_or] at hz
          have hzx := h.zombie hmio
          rw [Option.mem_def.mp hz] at hzx
          rw [← h.flags hmio z hz]
          simp [sinOwner, hzx, hremoto hmio]
    · rw [← hy]
      dsimp only
      rw [h.jlen]
      exact apuntaSi_snd _ _ _
    · rw [← hy]
      dsimp only
      rw [h.mlen]
      exact apuntaSi_snd _ _ _

/-- What the loop does with a name, if it does what a command of its own does. -/
theorem vueltaJoin_tras (hcero : limpia q name ≠ ['0']) (h : Tras q keysOrTS ls x)
    (hp : paso e q keysOrTS (limpia q name) x.mundo = some (s, m')) (hb : Bueno q keysOrTS ls s) :
    ∃ b y, vueltaJoin e q keysOrTS name x = some (b, y) ∧ y.mundo = m' ∧
      Tras q keysOrTS (ls ++ s.llegadas) y ∧
      (b = true → s = .otra ∧ Lleno e q x.mundo ∧ x.mundo.Mismo m') := by
  rw [vueltaJoin_eq hcero]
  unfold paso at hp
  have hsin : s ≠ .fuera → x.flags ≠ {.owner} := fun hs ↦ (h.nadie hb hs).1
  cases hf : halla e q (limpia q name) x.mundo with
  | none =>
      rw [hf] at hp
      cases hp
  | some f =>
      have hbien := halla_bien hf
      rw [hf] at hp
      cases f with
      | fuera =>
          cases hp
          refine ⟨false, x, rfl, rfl, ?_, by simp⟩
          rw [Suerte.llegadas, List.append_nil]
          exact h
      | rompe flags sendcreate chptr m =>
          cases hp
          obtain ⟨hflags, hlleno, hmismo⟩ := hbien
          refine ⟨true, _, rfl, rfl, ?_, fun _ ↦ ⟨rfl, hlleno, hmismo⟩⟩
          rw [Suerte.llegadas, List.append_nil]
          exact h.otra (hsin (by simp)) hflags fun hmio ↦ by simp [hlleno.1] at hmio
      | esta elegido chptr m =>
          cases hp
          refine ⟨false, _, rfl, rfl, ?_, by simp⟩
          rw [Suerte.llegadas, List.append_nil]
          obtain ⟨⟨hsome, hne⟩, -⟩ := hbien
          cases elegido with
          | none => exact h.otra (hsin (by simp)) (hsin (by simp)) fun hmio ↦ ⟨rfl, (h.remoto hmio).2⟩
          | some p => exact h.otra (hsin (by simp)) (hne p rfl) fun hmio ↦ by simp [hmio] at hsome
      | llega elegido zombie chptr m =>
          cases hp
          obtain ⟨hmundo, htras⟩ := h.llega hb hbien.1 hbien.2 rfl rfl
          exact ⟨false, _, rfl, hmundo, htras, by simp⟩

theorem tras_creationtime {ct : Int} {flags : Finset Chfl} :
    (tras e q keysOrTS chptr ct flags m).creationtime = Function.update m.creationtime chptr ct := by
  unfold tras
  dsimp only
  rw [rechaza_creationtime]
  split_ifs <;> rfl

/-- A user from another server is a member with the flags. -/
theorem tras_members {ct : Int} {flags : Finset Chfl} (hmio : q.myUser = false)
    (huser : m.red.user q.sptr = true) :
    ((tras e q keysOrTS chptr ct flags m).red.canal chptr).members =
      ⟨q.sptr, flags⟩ :: (m.red.canal chptr).members := by
  simp [tras, hmio, addUserToChannel, huser, Red.cambia]

/-- A channel with which the loop does what a command of its own does has found what the command
would find. -/
theorem Tras.bueno {l : Llegada γ} (h : Tras q keysOrTS ls x)
    {elegido : Option (Finset Chfl × Bool)} (helegido : Elegido q elegido)
    {zombie : Option (Finset Chfl)} (hzombie : ∀ z ∈ zombie, z ≠ {.owner})
    (hl : llegada e q keysOrTS chptr zombie (elegido.any Prod.snd) m = l)
    (hy : admite e q keysOrTS chptr { x with
      mundo := m
      zombie := x.zombie || zombie.isSome
      flags := zombie.getD (elegido.elim x.flags Prod.fst)
      sendcreate := elegido.elim x.sendcreate Prod.snd } = y)
    (heq : (y.fin keysOrTS).Mismo (entrado keysOrTS
      (tras e q keysOrTS chptr (ponTS keysOrTS keysOrTS.isSome (m.creationtime chptr)).1
        (l.banderas (sinOwner q zombie.isSome (zombie.getD (elegido.elim ∅ Prod.fst)))) m)
      (ls ++ [l]))) :
    Bueno q keysOrTS ls (.llega l) := by
  obtain ⟨⟨tabla, -, hmundo⟩, -, hjoins, hcreates, howners⟩ := heq
  have hlz : l.zombie = zombie := by rw [← hl]; rfl
  have hluser : l.user = m.red.user q.sptr := by rw [← hl]; rfl
  have hlmagic : l.magic = decide (EsMagic (m.creationtime chptr)) := by rw [← hl]; rfl
  have hlowner : q.myUser = false → l.owner = false := by
    intro hmio
    rw [← hl]
    simp [llegada, hmio]
  rw [admite_eq zombie (l := l) (by rw [h.sendcreate helegido]; exact hl)] at hy
  dsimp only at hy
  have howner : y.flags = {.owner} ↔ l.owner = true := by
    rw [← hy]
    exact l.banderas_iff (h.sinOwner_ne helegido hzombie)
  have hjbuf : (apuntaSi (l.esGlobal && (l.create == false)) l.name
      (ls.flatMap (Llegada.dicho false), (lista (ls.flatMap (Llegada.dicho false))).length)).1 =
      y.jbuf := by rw [← h.jbuf, ← h.jlen, ← hy]
  have hmbuf : (apuntaSi (l.esGlobal && (l.create == true)) l.name
      (ls.flatMap (Llegada.dicho true), (lista (ls.flatMap (Llegada.dicho true))).length)).1 =
      y.mbuf := by rw [← h.mbuf, ← h.mlen, ← hy]
  have hcabe : ∀ create, l.dicho create ≠ [] →
      (lista (ls.flatMap (Llegada.dicho create))).length < BUFSIZE - l.name.length - 2 := by
    intro create
    refine cabe_of_length ?_
    cases create with
    | false =>
        have hlength := congrArg List.length hjoins
        simp only [Entrando.fin, entrado, List.length_map, List.length_flatMap] at hlength
        rw [hjbuf, hlength, List.length_flatMap]
    | true => rw [hmbuf]; exact congrArg List.length hcreates
  refine ⟨?_, ?_, ?_, ?_⟩
  · intro l' hl' howner'
    have hchptr : y.chptr = some chptr := by rw [← hy]
    exact absurd howner' (nadie_of_owners hchptr howner howners l' hl')
  · intro l' hl' ts hts
    rw [Suerte.llegadas, List.mem_singleton] at hl'
    subst hl'
    cases hts
    have hconTS : y.conTS = (x.conTS && l'.magic) := by rw [hlmagic, ← ponTS_snd ts, ← hy]
    rw [Entrando.fin, ← hjbuf, apuntaSi_dicho (hcabe false), hconTS] at hjoins
    refine h.ts_of_joins hjoins fun hmagic hall ↦ ?_
    have hct : EsMagic (m.creationtime chptr) := of_decide_eq_true (hlmagic.symm.trans hmagic)
    have hatoi := congrFun (congrArg Mundo.creationtime hmundo) chptr
    rw [← hy] at hatoi
    simpa only [entrado, Entrando.fin, tras_creationtime, Function.update_self, ponTS_fst,
      Option.isSome_some, if_pos hct, hall, if_true, Bool.false_eq_true, if_false] using hatoi
  · intro l' hl' hmio hnuevo huser z hz
    rw [Suerte.llegadas, List.mem_singleton] at hl'
    subst hl'
    rw [hlz] at hnuevo
    subst hnuevo
    rw [hluser] at huser
    have hnone : elegido = none := by
      have hsome := helegido.1
      rw [hmio] at hsome
      exact Option.isNone_iff_eq_none.mp (Option.isSome_eq_false_iff.mp hsome)
    have hx := h.zombie hmio
    rw [Option.mem_def.mp hz] at hx
    have hmembers := congrArg (fun m ↦ (m.red.canal chptr).members) hmundo
    simp only [entrado, Entrando.fin, ← hy, tras_members hmio huser, Llegada.banderas,
      hlowner hmio, hnone, hx, sinOwner, hmio] at hmembers
    have hflags := h.flags hmio z hz
    simpa [deFuera, hflags] using hmembers.symm
  · intro l' hl'
    rw [Suerte.llegadas, List.mem_singleton] at hl'
    subst hl'
    exact hcabe

/-- A name for which the loop does what a command of its own does has found what the command would
find. -/
theorem bueno_of_mismo (hcero : limpia q name ≠ ['0']) (h : Tras q keysOrTS ls x)
    (hp : paso e q keysOrTS (limpia q name) x.mundo = some (s, m'))
    (hv : vueltaJoin e q keysOrTS name x = some (b, y))
    (heq : (y.fin keysOrTS).Mismo (entrado keysOrTS m' (ls ++ s.llegadas))) :
    Bueno q keysOrTS ls s := by
  rw [vueltaJoin_eq hcero] at hv
  unfold paso at hp
  cases hf : halla e q (limpia q name) x.mundo with
  | none =>
      rw [hf] at hp
      cases hp
  | some f =>
      have hbien := halla_bien hf
      rw [hf] at hp hv
      cases f with
      | fuera =>
          cases hp
          exact bueno_fuera
      | rompe flags sendcreate chptr m =>
          cases hp
          cases hv
          rw [Suerte.llegadas, List.append_nil] at heq
          exact bueno_otra hbien.1 heq
      | esta elegido chptr m =>
          cases hp
          cases hv
          rw [Suerte.llegadas, List.append_nil] at heq
          refine bueno_otra ?_ heq
          obtain ⟨⟨hsome, hne⟩, -⟩ := hbien
          cases elegido with
          | none => exact (h.remoto hsome.symm).1
          | some p => exact hne p rfl
      | llega elegido zombie chptr m =>
          cases hp
          cases hv
          exact h.bueno hbien.1 hbien.2 rfl rfl heq

end

end Ircd.Channel
