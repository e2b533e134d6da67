import Ircd.Dbuf.Runs

/-!
# The line that a caller gets

`dbuf_getmsg` with the buffer that it writes to. `dbufGetmsg` gives the line that is found; here
`getmsg` also writes each byte where the program does, into a buffer of the length that the caller
gives, and checks the assertions. `none` is a write outside of that buffer, an assertion that does
not hold, or a null pointer. The main result, `getmsg_linea`, says what is in the buffer and what is
left in the queue.
-/

namespace Ircd.Dbuf

open CString

variable {β : Type}

/-- `buf[i] = c`. -/
def pon (buf : List Char) (i : Nat) (c : Char) : Option (List Char) :=
  if i < buf.length then some (buf.set i c) else none

/-- `while (start < end && !isEol (*start)) *buf++ = *start++`, with `n` bytes from `start` to
`end`: the two pointers and the buffer. -/
def copiaHasta (m : Memoria β) (db : Nat) :
    Nat → Nat → Nat → List Char → Option (Nat × Nat × List Char)
  | 0, start, pos, buf => some (start, pos, buf)
  | n + 1, start, pos, buf =>
      if isEol (m.data db start) then some (start, pos, buf)
      else do
        let buf ← pon buf pos (m.data db start)
        copiaHasta m db n (start + 1) (pos + 1) buf

section

variable [DecidableEq β]

/-- `dbuf_flush` with its assertion: the first block is not empty. -/
def flush (b : β) (m : Memoria β) : Option (Nat × Memoria β) :=
  match (m.dbuf b).head with
  | none => some (0, m)
  | some db => if m.start db < m.fin db then dbufFlush b m else none

/-- The loop of `dbuf_getmsg` from the start of a block: the number that is returned and the
buffer. -/
def getmsgDesde (b : β) :
    Nat → Nat → Nat → Nat → Nat → List Char → Memoria β → Option (Nat × List Char × Memoria β)
  | _, _, 0, _, _, buf, m => some (0, buf, m)
  | 0, _, _ + 1, _, _, _, _ => none
  | fuel + 1, db, length + 1, copied, pos, buf, m => do
      let fin := min (m.fin db) (m.start db + (length + 1))
      let (start, pos, buf) ← copiaHasta m db (fin - m.start db) (m.start db) pos buf
      let count := start - m.start db
      if start < fin then
        let buf ← pon buf pos nul
        let m ← dbufDelete b (copied + count) m
        let (_, m) ← flush b m
        some (copied + count, buf, m)
      else
        match m.next db with
        | none => some (0, buf, m)
        | some db => getmsgDesde b fuel db (length + 1 - count) (copied + count) pos buf m

/-- `dbuf_getmsg`. -/
def getmsg (b : β) (length : Nat) (buf : List Char) (m : Memoria β) :
    Option (Nat × List Char × Memoria β) := do
  let (n, m) ← flush b m
  if n = 0 then some (0, buf, m)
  else
    let db ← (m.dbuf b).head
    if m.start db < m.fin db then
      getmsgDesde b (m.DBufAllocCount + 1) db (min length (m.dbuf b).length) 0 0 buf m
    else none

end

variable {m : Memoria β} {cola : β → List Char} {b : β} {db : Nat} {ps : List Nat}
  {buf : List Char} {pos n : Nat}

/-! ## The buffer -/

/-- A text is written to a buffer. -/
def escribe (buf : List Char) (pos : Nat) (s : List Char) : List Char :=
  buf.take pos ++ s ++ buf.drop (pos + s.length)

theorem length_escribe {s : List Char} (h : pos + s.length ≤ buf.length) :
    (escribe buf pos s).length = buf.length := by
  simp only [escribe, List.length_append, List.length_take, List.length_drop]
  omega

theorem take_escribe {s : List Char} (h : pos ≤ buf.length) :
    (escribe buf pos s).take (pos + s.length) = buf.take pos ++ s :=
  List.take_left' (by rw [List.length_append, List.length_take_of_le h])

@[simp] theorem escribe_nil : escribe buf pos [] = buf := by
  simp [escribe]

theorem escribe_cons {c : Char} {s : List Char} (h : pos < buf.length) :
    escribe (buf.set pos c) (pos + 1) s = escribe buf pos (c :: s) := by
  have htake : (buf.set pos c).take (pos + 1) = buf.take pos ++ [c] := by
    rw [List.take_add_one, List.getElem?_set_self h, List.take_set_of_le (Nat.le_refl _)]
    rfl
  have hdrop : (buf.set pos c).drop (pos + 1 + s.length) = buf.drop (pos + 1 + s.length) :=
    List.drop_set_of_lt (by omega)
  rw [escribe, htake, hdrop, escribe, List.length_cons, List.append_assoc, List.append_assoc,
    List.append_assoc, Nat.add_right_comm, Nat.add_assoc pos]
  rfl

/-- Texts written one behind the other. -/
theorem escribe_append {s t : List Char} (h : pos + s.length ≤ buf.length) :
    escribe (escribe buf pos s) (pos + s.length) t = escribe buf pos (s ++ t) := by
  have hdrop : (escribe buf pos s).drop (pos + s.length + t.length) =
      buf.drop (pos + (s ++ t).length) := by
    rw [escribe, List.drop_append, List.length_append, List.length_take_of_le (by omega),
      List.drop_of_length_le (by
        rw [List.length_append, List.length_take_of_le (by omega)]
        omega), List.nil_append, List.drop_drop, List.length_append]
    congr 1
    omega
  rw [escribe, take_escribe (by omega), hdrop, escribe, List.append_assoc (buf.take pos)]

/-- A byte behind a text that has been written. -/
theorem pon_escribe {s : List Char} {c : Char} (h : pos + s.length < buf.length) :
    pon (escribe buf pos s) (pos + s.length) c = some (escribe buf pos (s ++ [c])) := by
  have hlen : (escribe buf pos s).length = buf.length := length_escribe (Nat.le_of_lt h)
  have hone : (escribe buf pos s).set (pos + s.length) c =
      escribe (escribe buf pos s) (pos + s.length) [c] := by
    rw [← escribe_cons (by omega), escribe_nil]
  rw [pon, if_pos (by omega), hone, escribe_append (Nat.le_of_lt h)]

/-- The loop copies the bytes up to the first end of a line. -/
theorem copiaHasta_eq (m : Memoria β) (db start : Nat) (h : pos + n ≤ buf.length) :
    let linea := (m.lee (db, start) n).takeWhile (!isEol ·)
    copiaHasta m db n start pos buf =
      some (start + linea.length, pos + linea.length, escribe buf pos linea) := by
  intro linea
  induction n generalizing start pos buf with
  | zero => simp [copiaHasta, linea, Memoria.lee]
  | succ n ih =>
      have hlee : m.lee (db, start) (n + 1) = m.data db start :: m.lee (db, start + 1) n := by
        simp [Memoria.lee, List.range'_succ]
      cases heol : isEol (m.data db start) with
      | true => simp [copiaHasta, linea, hlee, heol]
      | false =>
          have hlinea : linea =
              m.data db start :: (m.lee (db, start + 1) n).takeWhile (!isEol ·) := by
            simp [linea, hlee, heol]
          have hpos : pos < buf.length := by omega
          have hrest := @ih (buf.set pos (m.data db start)) (pos + 1) (start + 1)
            (by rw [List.length_set]; omega)
          simp only [escribe_cons hpos] at hrest
          simp only [copiaHasta, heol, Bool.false_eq_true, if_false, pon, if_pos hpos,
            Option.bind_eq_bind, Option.bind_some, hrest, hlinea, List.length_cons]
          simp only [Option.some.injEq, Prod.mk.injEq, and_true]
          omega

/-! ## The loop -/

/-- A list that is taken up to no end is taken whole. -/
theorem takeWhile_eq_of_not_lt {l : List Char} {q : Char → Bool}
    (h : ¬(l.takeWhile q).length < l.length) : l.takeWhile q = l :=
  (List.takeWhile_prefix q).eq_of_length
    (Nat.le_antisymm (List.takeWhile_prefix q).length_le (Nat.le_of_not_lt h))

variable [DecidableEq β]

/-- How the loop ends when it has found a line. -/
def termina (b : β) (copied : Nat) (buf : List Char) (m : Memoria β) :
    Option (Nat × List Char × Memoria β) := do
  let m ← dbufDelete b copied m
  let (_, m) ← flush b m
  some (copied, buf, m)

/-- One round of the loop, over the first bytes of a block. -/
theorem getmsgDesde_paso {fuel copied : Nat} {bytes linea : List Char}
    (hlleno : m.start db < m.fin db) (hbuf : pos + (n + 1) ≤ buf.length)
    (hbytes : bytes = (m.bytes db).take (n + 1)) (hlinea : linea = bytes.takeWhile (!isEol ·)) :
    getmsgDesde b (fuel + 1) db (n + 1) copied pos buf m =
      if linea.length < bytes.length then
        termina b (copied + linea.length) (escribe buf pos (linea ++ [nul])) m
      else
        match m.next db with
        | none => some (0, escribe buf pos bytes, m)
        | some db => getmsgDesde b fuel db (n + 1 - bytes.length) (copied + bytes.length)
            (pos + bytes.length) (escribe buf pos bytes) m := by
  have hlen : bytes.length = min (m.fin db - m.start db) (n + 1) := by
    rw [hbytes, List.length_take, bytes_length, Nat.min_comm]
  have hle : linea.length ≤ bytes.length := by
    rw [hlinea]
    exact (List.takeWhile_prefix _).length_le
  obtain ⟨fin, hfin⟩ : ∃ k, k = min (m.fin db) (m.start db + (n + 1)) := ⟨_, rfl⟩
  have hfin' : fin = m.start db + bytes.length := by omega
  have hcopia := copiaHasta_eq m db (m.start db)
    (show pos + bytes.length ≤ buf.length by omega)
  have hlee : m.lee (db, m.start db) bytes.length = bytes := by rw [hlen, lee_min, ← hbytes]
  simp only [hlee, ← hlinea] at hcopia
  rw [getmsgDesde, ← hfin, hfin', Nat.add_sub_cancel_left, hcopia]
  simp only [Option.bind_eq_bind, Option.bind_some, Nat.add_sub_cancel_left, Nat.add_lt_add_iff_left]
  by_cases hmenos : linea.length < bytes.length
  · have hpon : pon (escribe buf pos linea) (pos + linea.length) nul =
        some (escribe buf pos (linea ++ [nul])) := pon_escribe (by omega)
    rw [if_pos hmenos, if_pos hmenos, hpon]
    rfl
  · have hwhole : linea = bytes := by
      rw [hlinea] at hmenos ⊢
      exact takeWhile_eq_of_not_lt hmenos
    rw [if_neg hmenos, if_neg hmenos, hwhole]

/-- The loop looks for the end of a line in the first `n` bytes of a chain, and copies what is before
it. -/
theorem getmsgDesde_eq {fuel copied : Nat} {bytes linea : List Char}
    (hlinks : Links m.next (some db) (db :: ps) none)
    (hlleno : ∀ p ∈ db :: ps, m.start p < m.fin p) (hfuel : (db :: ps).length ≤ fuel)
    (hbuf : pos + n ≤ buf.length) (hbytes : bytes = (m.contenido (db :: ps)).take n)
    (hlinea : linea = bytes.takeWhile (!isEol ·)) :
    getmsgDesde b fuel db n copied pos buf m =
      if linea.length < bytes.length then
        termina b (copied + linea.length) (escribe buf pos (linea ++ [nul])) m
      else some (0, escribe buf pos linea, m) := by
  induction ps generalizing db n fuel copied pos buf bytes linea with
  | nil =>
      have hnext : m.next db = none := hlinks.2
      cases n with
      | zero => simp [getmsgDesde, hbytes, hlinea]
      | succ n =>
          obtain ⟨fuel, rfl⟩ : ∃ k, fuel = k + 1 := ⟨fuel - 1, by simp at hfuel; omega⟩
          rw [contenido_cons, contenido_nil, List.append_nil] at hbytes
          rw [getmsgDesde_paso (hlleno db (by simp)) hbuf hbytes hlinea, hnext]
          split
          · rfl
          · next hfin =>
              have hwhole : linea = bytes := by
                rw [hlinea] at hfin ⊢
                exact takeWhile_eq_of_not_lt hfin
              rw [hwhole]
  | cons p ps ih =>
      obtain ⟨-, hnext, hps⟩ := hlinks
      cases n with
      | zero => simp [getmsgDesde, hbytes, hlinea]
      | succ n =>
          obtain ⟨fuel, rfl⟩ : ∃ k, fuel = k + 1 := ⟨fuel - 1, by simp at hfuel; omega⟩
          obtain ⟨bs, hbs⟩ : ∃ bs, bs = (m.bytes db).take (n + 1) := ⟨_, rfl⟩
          obtain ⟨resto, hresto⟩ :
              ∃ r, r = (m.contenido (p :: ps)).take (n + 1 - bs.length) := ⟨_, rfl⟩
          have hpartes : bytes = bs ++ resto := by
            rw [hbytes, hresto, contenido_cons, List.take_append, hbs, List.length_take]
            congr 2
            omega
          have hbs' : bs.length ≤ n + 1 := by
            rw [hbs]
            exact List.length_take_le _ _
          rw [getmsgDesde_paso (hlleno db (by simp)) hbuf hbs rfl, hnext]
          by_cases hmenos : (bs.takeWhile (!isEol ·)).length < bs.length
          · -- The end of the line is in this block.
            have hlinea' : linea = bs.takeWhile (!isEol ·) := by
              rw [hlinea, hpartes, List.takeWhile_append, if_neg (Nat.ne_of_lt hmenos)]
            rw [if_pos hmenos, hlinea', if_pos (by rw [hpartes, List.length_append]; omega)]
          · have hwhole : bs.takeWhile (!isEol ·) = bs := takeWhile_eq_of_not_lt hmenos
            have hlinea' : linea = bs ++ resto.takeWhile (!isEol ·) := by
              rw [hlinea, hpartes, List.takeWhile_append, hwhole, if_pos rfl]
            have hrest := @ih p (escribe buf pos bs) (pos + bs.length) (n + 1 - bs.length) fuel
              (copied + bs.length) _ _ ⟨rfl, hps⟩
              (fun q hq ↦ hlleno q (List.mem_cons_of_mem db hq)) (Nat.le_of_succ_le_succ hfuel)
              (by rw [length_escribe (by omega)]; omega) hresto rfl
            rw [if_neg hmenos]
            simp only [hrest]
            rw [hlinea', hpartes, escribe_append (by omega), escribe_append (by omega)]
            simp only [List.length_append, Nat.add_lt_add_iff_left, List.append_assoc,
              Nat.add_assoc]

/-! ## The queue -/

/-- The assertion of `dbuf_flush` holds. -/
theorem Refina.flush_eq (h : Refina m cola) (b : β) : flush b m = Dbuf.dbufFlush b m := by
  obtain ⟨lista, h⟩ := h
  rw [flush]
  cases hhead : (m.dbuf b).head with
  | none => rw [Dbuf.dbufFlush, hhead]
  | some db =>
      obtain ⟨ps, hsplit⟩ := h.nucleo.cons_of_head hhead
      exact if_pos ((h.guarda b).lleno db (by simp [hsplit])).1

/-- A line that has been found is taken from the queue with the ends of lines behind it. -/
theorem Refina.termina (h : Refina m cola) (b : β) (n : Nat) (buf : List Char) :
    ∃ m', termina b n buf m = some (n, buf, m') ∧
      Refina m' (Function.update cola b (((cola b).drop n).dropWhile isEol)) := by
  obtain ⟨m₁, hdelete, h₁⟩ := h.dbufDelete b n
  obtain ⟨m₂, hflush, h₂⟩ := h₁.dbufFlush b
  rw [Function.update_self, Function.update_idem] at h₂
  refine ⟨m₂, ?_, h₂⟩
  simp only [Dbuf.termina, hdelete, Option.bind_eq_bind, Option.bind_some, h₁.flush_eq b, hflush]

/-- `getmsg` on a queue: what the loop finds in the first bytes behind the ends of lines. -/
theorem Refina.getmsg_eq (h : Refina m cola) (b : β) (buf : List Char) {c bytes linea : List Char}
    (hc : c = (cola b).dropWhile isEol) (hbytes : bytes = c.take buf.length)
    (hlinea : linea = bytes.takeWhile (!isEol ·)) :
    if linea.length < bytes.length then
      ∃ m', getmsg b buf.length buf m =
          some (linea.length, escribe buf 0 (linea ++ [nul]), m') ∧
        Refina m' (Function.update cola b ((c.drop linea.length).dropWhile isEol))
    else
      ∃ m', getmsg b buf.length buf m = some (0, escribe buf 0 linea, m') ∧
        Refina m' (Function.update cola b c) := by
  obtain ⟨m₁, hflush, h₁⟩ := h.dbufFlush b
  rw [← hc] at hflush h₁
  rw [← h.flush_eq b] at hflush
  simp only [getmsg, hflush, Option.bind_eq_bind, Option.bind_some]
  by_cases hnil : c = []
  · subst hnil
    rw [List.take_nil] at hbytes
    subst hbytes
    rw [List.takeWhile_nil] at hlinea
    subst hlinea
    rw [if_neg (by simp)]
    exact ⟨m₁, by simp, h₁⟩
  · obtain ⟨lista, hbien⟩ := id h₁
    have hguarda := hbien.guarda b
    rw [Function.update_self] at hguarda
    obtain ⟨db, ps, hsplit, hhead⟩ := (hbien.parcial b).primero (by rwa [Function.update_self])
    have hlleno : ∀ p ∈ db :: ps, m₁.start p < m₁.fin p := by
      intro p hp
      rw [← hsplit] at hp
      exact (hguarda.lleno p hp).1
    have hlinks : Links m₁.next (some db) (db :: ps) none := by
      have hlinks := hbien.nucleo.listas.links (some b)
      rwa [hsplit, show m₁.cabeza (some b) = some db from hhead] at hlinks
    have hfuel := hbien.nucleo.length_le (some b)
    rw [hsplit] at hfuel
    have hlen : (m₁.dbuf b).length = c.length := hguarda.length
    have hcontenido : bytes = (m₁.contenido (db :: ps)).take (min buf.length (m₁.dbuf b).length) := by
      rw [← hsplit, hguarda.contenido, hbytes, hlen, ← List.take_eq_take_min]
    have hdesde := @getmsgDesde_eq _ m₁ b db ps buf 0 _ _ _ 0 _ _ hlinks hlleno
      (Nat.le_succ_of_le hfuel) (by rw [Nat.zero_add]; exact Nat.min_le_left _ _) hcontenido hlinea
    rw [if_neg (mt List.length_eq_zero_iff.mp hnil), hhead]
    simp only [Option.bind_some, if_pos (hlleno db (by simp)), hdesde, Nat.zero_add]
    split
    · obtain ⟨m₂, htermina, h₂⟩ := h₁.termina b linea.length (escribe buf 0 (linea ++ [nul]))
      rw [Function.update_self, Function.update_idem] at h₂
      exact ⟨m₂, htermina, h₂⟩
    · exact ⟨m₁, rfl, h₁⟩

/-- The first end of a line within the length ends the line that the loop finds. -/
theorem linea_of_eq {c bytes linea linea' rest : List Char} {g : Char} {n : Nat}
    (hbytes : bytes = c.take n) (hlinea : linea = bytes.takeWhile (!isEol ·))
    (hcola : c = linea' ++ g :: rest) (hlibre : ∀ x ∈ linea', isEol x = false)
    (hg : isEol g = true) (hlen : linea'.length < n) :
    linea = linea' ∧ linea'.length < bytes.length ∧ c.drop linea'.length = g :: rest := by
  have hpartes : bytes = linea' ++ g :: rest.take (n - linea'.length - 1) := by
    obtain ⟨k, hk⟩ : ∃ k, n - linea'.length = k + 1 := ⟨n - linea'.length - 1, by omega⟩
    rw [hbytes, hcola, List.take_append, List.take_of_length_le (Nat.le_of_lt hlen), hk]
    rfl
  refine ⟨?_, ?_, by rw [hcola, List.drop_left]⟩
  · rw [hlinea, hpartes]
    exact takeWhile_stop _ (by simpa using hlibre) (by simp [hg])
  · rw [hpartes, List.length_append, List.length_cons]
    omega

/-- `dbuf_getmsg` with a buffer of `n` bytes drops the ends of lines in front of the queue. A line
that ends in the first `n` bytes behind them is written to the buffer with a terminator and taken
from the queue with the ends of lines that follow it; otherwise nothing else is taken. -/
theorem getmsg_linea (h : Refina m cola) (b : β) (buf : List Char) :
    ∃ r buf' m', getmsg b buf.length buf m = some (r, buf', m') ∧ buf'.length = buf.length ∧
      (∀ linea g rest, (cola b).dropWhile isEol = linea ++ g :: rest →
        (∀ c ∈ linea, isEol c = false) → isEol g = true → linea.length < buf.length →
          r = linea.length ∧ buf'.take (r + 1) = linea ++ [nul] ∧
            Refina m' (Function.update cola b (rest.dropWhile isEol))) ∧
      ((∀ c ∈ ((cola b).dropWhile isEol).take buf.length, isEol c = false) →
        r = 0 ∧ Refina m' (Function.update cola b ((cola b).dropWhile isEol))) := by
  obtain ⟨c, hc⟩ : ∃ c, c = (cola b).dropWhile isEol := ⟨_, rfl⟩
  obtain ⟨bytes, hbytes⟩ : ∃ l, l = c.take buf.length := ⟨_, rfl⟩
  obtain ⟨linea, hlinea⟩ : ∃ l, l = bytes.takeWhile (!isEol ·) := ⟨_, rfl⟩
  have hgetmsg := h.getmsg_eq b buf hc hbytes hlinea
  have hle : bytes.length ≤ buf.length := by
    rw [hbytes]
    exact List.length_take_le _ _
  have hpre : linea.length ≤ bytes.length := by
    rw [hlinea]
    exact (List.takeWhile_prefix _).length_le
  rw [← hc, ← hbytes]
  split at hgetmsg
  · next hhay =>
      obtain ⟨m', hget, href⟩ := hgetmsg
      refine ⟨_, _, m', hget, length_escribe (by simp; omega), ?_, ?_⟩
      · intro linea' g rest hcola hlibre hg hlen
        obtain ⟨rfl, -, hdrop⟩ := linea_of_eq hbytes hlinea hcola hlibre hg hlen
        rw [hdrop, List.dropWhile_cons_of_pos hg] at href
        refine ⟨rfl, ?_, href⟩
        have htake := @take_escribe buf 0 (linea ++ [nul]) (Nat.zero_le _)
        rwa [List.length_append, Nat.zero_add, List.take_zero, List.nil_append] at htake
      · intro hlibre
        have hwhole : linea = bytes := by
          rw [hlinea]
          exact List.takeWhile_eq_self_iff.mpr (by simpa using hlibre)
        exact absurd (congrArg List.length hwhole) (Nat.ne_of_lt hhay)
  · next hno =>
      obtain ⟨m', hget, href⟩ := hgetmsg
      refine ⟨_, _, m', hget, length_escribe (by omega), ?_, ?_⟩
      · intro linea' g rest hcola hlibre hg hlen
        obtain ⟨rfl, hlt, -⟩ := linea_of_eq hbytes hlinea hcola hlibre hg hlen
        exact absurd hlt hno
      · exact fun _ ↦ ⟨rfl, href⟩

/-- A buffer that has received a line and the start of another one. -/
theorem getmsg_linea_hola :
    ∃ m : Memoria Unit, dbufPut2 ⟨1, fun _ ↦ true⟩ () "\nhola\r\nadios".toList
        (Memoria.arranque ⟨fun _ ↦ none, fun _ ↦ 0, fun _ ↦ 0, fun _ _ ↦ nul, none, 0, 0,
          fun _ ↦ ⟨0, none, none⟩⟩) = some (1, m) ∧
      ∃ buf' m', getmsg () 8 (List.replicate 8 ' ') m = some (4, buf', m') ∧
        buf'.take 5 = "hola".toList ++ [nul] ∧
          Refina m' (Function.update (fun _ ↦ "\nhola\r\nadios".toList) () "adios".toList) := by
  obtain ⟨r, m, hput, ⟨rfl, href⟩ | ⟨rfl, -⟩⟩ := (refina_arranque (β := Unit)
    ⟨fun _ ↦ none, fun _ ↦ 0, fun _ ↦ 0, fun _ _ ↦ nul, none, 0, 0, fun _ ↦ ⟨0, none, none⟩⟩).dbufPut2
      ⟨1, fun _ ↦ true⟩ () "\nhola\r\nadios".toList
  · obtain ⟨r, buf', m', hget, -, hlinea, -⟩ := getmsg_linea href () (List.replicate 8 ' ')
    obtain ⟨rfl, htake, href'⟩ := hlinea "hola".toList '\r' "\nadios".toList (by decide)
      (by simp [isEol]) (by decide) (by decide)
    exact ⟨m, hput, buf', m', hget, htake, href'⟩
  · have huno : (dbufPut2 ⟨1, fun _ ↦ true⟩ () "\nhola\r\nadios".toList
        (Memoria.arranque (β := Unit) ⟨fun _ ↦ none, fun _ ↦ 0, fun _ ↦ 0, fun _ _ ↦ nul, none, 0, 0,
          fun _ ↦ ⟨0, none, none⟩⟩)).map Prod.fst = some 1 := by decide
    rw [hput] at huno
    exact absurd huno (by simp)

end Ircd.Dbuf
