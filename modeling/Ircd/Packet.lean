import Ircd.Common

/-!
# The lines of a link

`dopacket` of `ircd/packet.c` for a server link that is not compressed. The bytes that have been
read are put in the buffer of the client, and a line that ends is handed to `parse_server`, which is
a parameter: it gets everything it works on, the buffer and the place of the terminator, and may
change all but the place. The main result, `recibe_lineas`, says that the lines do not depend on how
the bytes are cut into calls, and which they are.
-/

namespace Ircd.Packet

open CString

theorem zero_lt_BUFSIZE : 0 < BUFSIZE :=
  Nat.zero_lt_succ _

/-- `cptr->buffer`. -/
abbrev Buffer := Vector Char BUFSIZE

/-- What `dopacket` looks at after a line: nothing happened, `CPTR_KILLED` was returned, or the
socket is dead. -/
inductive Resultado where
  | sigue
  | killed
  | dead
deriving DecidableEq

/-- A link: what `parse_server` works on, the buffer and `cptr->count`. -/
structure Enlace (σ : Type) where
  mundo : σ
  buffer : Buffer
  count : Fin BUFSIZE

/-- A link after a call of `dopacket`. -/
inductive Estado (σ : Type) where
  | abierto (e : Enlace σ)
  | cerrado (mundo : σ)

/-- The lines that were handed to `parse_server`, each with what became of the link. -/
abbrev Traza := List (CStr × Resultado)

/-- A link that has not received anything yet. -/
def Enlace.nuevo {σ : Type} (mundo : σ) (buffer : Buffer) : Enlace σ :=
  ⟨mundo, buffer, ⟨0, zero_lt_BUFSIZE⟩⟩

/-- The text from the start of the buffer to `ch1`. -/
def linea (buffer : Buffer) (ch1 : Fin BUFSIZE) : CStr :=
  buffer.toList.take ch1

/-- `if (ch1 < cptrbuf + (sizeof (cptr->buffer) - 1)) ch1++`. -/
def avanza (ch1 : Fin BUFSIZE) : Fin BUFSIZE :=
  if h : ch1.val < 511 then ⟨ch1.val + 1, Nat.succ_lt_succ h⟩ else ch1

section

variable {σ : Type} (parseServer : σ → Buffer → Fin BUFSIZE → σ × Buffer × Resultado)

/-- The loop of `dopacket` over the bytes that are left. -/
def bucle (mundo : σ) (buffer : Buffer) (ch1 : Fin BUFSIZE) : List Char → Traza × Estado σ
  | [] => ([], .abierto ⟨mundo, buffer, ch1⟩)
  | g :: ch2 =>
      let buffer := buffer.set ch1.val g ch1.isLt
      if finLinea g then
        if ch1.val = 0 then bucle mundo buffer ch1 ch2
        else
          let buffer := buffer.set ch1.val nul ch1.isLt
          match parseServer mundo buffer ch1 with
          | (mundo', buffer', .sigue) =>
              let r := bucle mundo' buffer' ⟨0, zero_lt_BUFSIZE⟩ ch2
              ((linea buffer ch1, .sigue) :: r.1, r.2)
          | (mundo', _, resultado) => ([(linea buffer ch1, resultado)], .cerrado mundo')
      else bucle mundo buffer (avanza ch1) ch2

/-- `dopacket`. -/
def dopacket (e : Enlace σ) (buffer : List Char) : Traza × Estado σ :=
  bucle parseServer e.mundo e.buffer e.count buffer

/-- Successive calls of `dopacket`, which end when the link is closed. -/
def recibe : Estado σ → List (List Char) → Traza × Estado σ
  | .cerrado mundo, _ => ([], .cerrado mundo)
  | .abierto e, [] => ([], .abierto e)
  | .abierto e, datos :: resto =>
      let r := recibe (dopacket parseServer e datos).2 resto
      ((dopacket parseServer e datos).1 ++ r.1, r.2)

/-! ## The cuts between the calls do not matter -/

/-- What a call adds to the calls before it. -/
def conLlamada (r : Traza × Estado σ) (datos : List Char) : Traza × Estado σ :=
  match r.2 with
  | .cerrado mundo => (r.1, .cerrado mundo)
  | .abierto e => (r.1 ++ (dopacket parseServer e datos).1, (dopacket parseServer e datos).2)

theorem conLlamada_cons (x : CStr × Resultado) (r : Traza × Estado σ) (datos : List Char) :
    conLlamada parseServer (x :: r.1, r.2) datos =
      (x :: (conLlamada parseServer r datos).1, (conLlamada parseServer r datos).2) := by
  obtain ⟨traza, e | mundo⟩ := r <;> rfl

/-- The loop over two pieces is a call for the first one and another call for the second one. -/
theorem bucle_append (mundo : σ) (buffer : Buffer) (ch1 : Fin BUFSIZE) (s t : List Char) :
    bucle parseServer mundo buffer ch1 (s ++ t) =
      conLlamada parseServer (bucle parseServer mundo buffer ch1 s) t := by
  induction s generalizing mundo buffer ch1 with
  | nil => rfl
  | cons g s ih =>
      rw [List.cons_append, bucle, bucle]
      by_cases hg : finLinea g
      · by_cases hch : ch1.val = 0
        · simp only [hg, hch, if_true]
          exact ih ..
        · simp only [hg, hch, if_true, if_false]
          split
          · rw [ih, conLlamada_cons]
          · rfl
      · simp only [hg, if_false, Bool.false_eq_true]
        exact ih ..

/-- Successive calls hand over the lines of one call with all the bytes. -/
theorem recibe_eq (e : Enlace σ) (trozos : List (List Char)) :
    recibe parseServer (.abierto e) trozos = dopacket parseServer e trozos.flatten := by
  induction trozos generalizing e with
  | nil => rfl
  | cons datos resto ih =>
      rw [List.flatten_cons, dopacket, bucle_append, recibe, ← dopacket, conLlamada]
      cases (dopacket parseServer e datos).2 with
      | cerrado mundo => cases resto <;> simp [recibe]
      | abierto e' => rw [ih]

end

/-! ## Which lines they are -/

/-- The runs between the ends of lines. -/
def tramos (s : List Char) : List CStr :=
  s.splitOnP finLinea

theorem tramos_ne_nil (s : List Char) : tramos s ≠ [] :=
  List.splitOnP_ne_nil _ _

/-- The runs that have been ended, without the empty ones. -/
def completas (s : List Char) : List CStr :=
  (tramos s).dropLast.filter (· ≠ [])

/-- The run at the end, which has not been ended. -/
def pendiente (s : List Char) : CStr :=
  (tramos s).getLast (tramos_ne_nil s)

/-- What fits in the buffer with a terminator. -/
def corta (s : CStr) : CStr :=
  s.take (BUFSIZE - 1)

theorem corta_eq (s : CStr) : corta s = s.take 511 := rfl

/-- The buffer of a link has a text in front. -/
def Guarda {σ : Type} (e : Enlace σ) (s : CStr) : Prop :=
  e.count.val = s.length ∧ linea e.buffer e.count = s

/-- The lines of a stream have been handed over: all of them while the link is open, with the last
run in the buffer, and otherwise those up to the one that closed the link. -/
def Entregadas {σ : Type} (s : List Char) (r : Traza × Estado σ) : Prop :=
  match r.2 with
  | .abierto e => r.1.map Prod.fst = (completas s).map corta ∧ (∀ x ∈ r.1, x.2 = .sigue) ∧
      Guarda e (corta (pendiente s))
  | .cerrado _ => r.1.map Prod.fst <+: (completas s).map corta ∧
      ∃ traza x, r.1 = traza ++ [x] ∧ (∀ y ∈ traza, y.2 = .sigue) ∧ x.2 ≠ .sigue

theorem tramos_cons {p s : List Char} {g : Char} (hp : ∀ c ∈ p, finLinea c = false)
    (hg : finLinea g = true) : tramos (p ++ g :: s) = p :: tramos s :=
  List.splitOnP_append_cons_of_forall_mem hp g hg s

/-- The runs of a stream whose first run has been read. -/
theorem completas_cons {p s : List Char} {g : Char} (hp : ∀ c ∈ p, finLinea c = false)
    (hg : finLinea g = true) :
    completas (p ++ g :: s) = if p = [] then completas s else p :: completas s := by
  rw [completas, tramos_cons hp hg, List.dropLast_cons_of_ne_nil (tramos_ne_nil s),
    List.filter_cons, completas]
  by_cases hnil : p = [] <;> simp [hnil]

theorem pendiente_cons {p s : List Char} {g : Char} (hp : ∀ c ∈ p, finLinea c = false)
    (hg : finLinea g = true) : pendiente (p ++ g :: s) = pendiente s := by
  simp only [pendiente, tramos_cons hp hg, List.getLast_cons (tramos_ne_nil s)]

/-- An end of line behind an empty run changes nothing. -/
theorem entregadas_vacia {σ : Type} {s : List Char} {g : Char} {r : Traza × Estado σ}
    (hg : finLinea g = true) (h : Entregadas s r) : Entregadas (g :: s) r := by
  have hcompletas := @completas_cons [] s g (by simp) hg
  have hpendiente := @pendiente_cons [] s g (by simp) hg
  rw [List.nil_append] at hcompletas hpendiente
  simpa only [Entregadas, hcompletas, hpendiente, if_true] using h

/-- A line that leaves the link open comes before the lines behind it. -/
theorem entregadas_linea {σ : Type} {p s : List Char} {g : Char} {r : Traza × Estado σ}
    (hp : ∀ c ∈ p, finLinea c = false) (hg : finLinea g = true) (hne : p ≠ [])
    (h : Entregadas s r) : Entregadas (p ++ g :: s) ((corta p, .sigue) :: r.1, r.2) := by
  obtain ⟨traza, e | mundo⟩ := r
  · obtain ⟨hlines, hopen, hbuffer⟩ := h
    simp only [Entregadas, completas_cons hp hg, pendiente_cons hp hg, if_neg hne]
    refine ⟨by rw [List.map_cons, List.map_cons, hlines], ?_, hbuffer⟩
    exact List.forall_mem_cons.mpr ⟨rfl, hopen⟩
  · obtain ⟨hlines, traza', x, htraza, hopen, hlast⟩ := h
    simp only [Entregadas, completas_cons hp hg, if_neg hne, List.map_cons]
    refine ⟨List.cons_prefix_cons.mpr ⟨rfl, hlines⟩, (corta p, .sigue) :: traza', x, ?_, ?_, hlast⟩
    · exact congrArg (List.cons _) htraza
    · exact List.forall_mem_cons.mpr ⟨rfl, hopen⟩

/-- A line that closes the link is the last one. -/
theorem entregadas_fin {σ : Type} {p s : List Char} {g : Char} {mundo : σ} {resultado : Resultado}
    (hp : ∀ c ∈ p, finLinea c = false) (hg : finLinea g = true) (hne : p ≠ [])
    (h : resultado ≠ .sigue) :
    Entregadas (p ++ g :: s) ([(corta p, resultado)], .cerrado mundo) := by
  simp only [Entregadas, completas_cons hp hg, if_neg hne, List.map_cons, List.map_nil]
  refine ⟨?_, [], (corta p, resultado), rfl, by simp, h⟩
  exact List.cons_prefix_cons.mpr ⟨rfl, List.nil_prefix⟩

theorem linea_cero {buffer : Buffer} {ch1 : Fin BUFSIZE} (h : ch1.val = 0) :
    linea buffer ch1 = [] := by
  rw [linea, h, List.take_zero]

/-- A byte of a line goes to the buffer while there is room for it and for a terminator. -/
theorem guarda_byte {buffer : Buffer} {ch1 : Fin BUFSIZE} {p : CStr} {g : Char}
    (hlen : ch1.val = (corta p).length) (htext : linea buffer ch1 = corta p) :
    (avanza ch1).val = (corta (p ++ [g])).length ∧
      linea (buffer.set ch1.val g ch1.isLt) (avanza ch1) = corta (p ++ [g]) := by
  have hch : ch1.val < 512 := ch1.isLt
  simp only [linea, corta_eq, List.length_take, Vector.toList_set, List.length_append,
    List.length_singleton] at *
  by_cases hroom : ch1.val < 511
  · have hnext : (avanza ch1).val = ch1.val + 1 := by rw [avanza, dif_pos hroom]
    have htake : p.take 511 = p := List.take_of_length_le (by omega)
    have htake' : (p ++ [g]).take 511 = p ++ [g] :=
      List.take_of_length_le (by rw [List.length_append, List.length_singleton]; omega)
    have hget : (buffer.toList.set ch1.val g)[ch1.val]? = some g :=
      List.getElem?_set_self (by rw [Vector.length_toList]; exact hch)
    refine ⟨by omega, ?_⟩
    rw [hnext, List.take_add_one, hget, List.take_set_of_le (Nat.le_refl _), htext, htake, htake']
    rfl
  · have hstay : avanza ch1 = ch1 := by rw [avanza, dif_neg hroom]
    refine ⟨by rw [hstay]; omega, ?_⟩
    rw [hstay, List.take_set_of_le (Nat.le_refl _), htext,
      List.take_append_of_le_length (by omega)]

/-- The loop started behind an unfinished run hands over the lines of that run and its bytes. -/
theorem entregadas_bucle {σ : Type} (parseServer : σ → Buffer → Fin BUFSIZE → σ × Buffer × Resultado)
    {mundo : σ} {buffer : Buffer} {ch1 : Fin BUFSIZE} {p s : List Char}
    (hp : ∀ c ∈ p, finLinea c = false) (hlen : ch1.val = (corta p).length)
    (htext : linea buffer ch1 = corta p) :
    Entregadas (p ++ s) (bucle parseServer mundo buffer ch1 s) := by
  induction s generalizing mundo buffer ch1 p with
  | nil =>
      have htramos : tramos p = [p] := List.splitOnP_eq_singleton hp
      rw [List.append_nil, bucle]
      refine ⟨?_, by simp, ?_⟩
      · simp [completas, htramos]
      · simp only [pendiente, htramos, List.getLast_singleton]
        exact ⟨hlen, htext⟩
  | cons g s ih =>
      cases hg : finLinea g with
      | false =>
          obtain ⟨hlen', htext'⟩ := guarda_byte (g := g) hlen htext
          have hp' : ∀ c ∈ p ++ [g], finLinea c = false := by
            intro c hc
            rcases List.mem_append.mp hc with hc | hc
            · exact hp c hc
            · rw [List.mem_singleton.mp hc, hg]
          have hrest := @ih mundo _ _ _ hp' hlen' htext'
          rw [List.append_assoc, List.singleton_append] at hrest
          simpa only [bucle, hg, Bool.false_eq_true, if_false] using hrest
      | true =>
          by_cases hch : ch1.val = 0
          · have hempty : p = [] := by
              have hnil : (corta p).length = 0 := by omega
              rw [corta_eq, List.length_take] at hnil
              exact List.eq_nil_of_length_eq_zero (by omega)
            have hstep : bucle parseServer mundo buffer ch1 (g :: s) =
                bucle parseServer mundo (buffer.set ch1.val g ch1.isLt) ch1 s := by
              rw [bucle, if_pos hg, if_pos hch]
            subst hempty
            rw [hstep]
            exact entregadas_vacia hg (ih hp hlen (linea_cero hch))
          · have hne : p ≠ [] := by
              rintro rfl
              exact hch hlen
            have hline : linea ((buffer.set ch1.val g ch1.isLt).set ch1.val nul ch1.isLt) ch1 =
                corta p := by
              rw [← htext, linea, linea, Vector.toList_set, Vector.toList_set,
                List.take_set_of_le (Nat.le_refl _), List.take_set_of_le (Nat.le_refl _)]
            simp only [bucle, hg, if_true, if_neg hch, hline]
            generalize parseServer mundo ((buffer.set ch1.val g ch1.isLt).set ch1.val nul ch1.isLt)
              ch1 = fuera
            obtain ⟨mundo', buffer', resultado⟩ := fuera
            cases resultado with
            | sigue =>
                have hrest := @ih mundo' buffer' ⟨0, zero_lt_BUFSIZE⟩ [] (by simp) rfl
                  (linea_cero rfl)
                exact entregadas_linea hp hg hne hrest
            | killed => exact entregadas_fin hp hg hne (by simp)
            | dead => exact entregadas_fin hp hg hne (by simp)

end Ircd.Packet
