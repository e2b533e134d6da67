import Ircd.Gline.Orders
import Ircd.Lib.Run

/-!
# Every run of the G-lines

Orders, searches and the clock, in any order. The main theorem, `glines_no_se_pierden`, says that in
every run whose clock does not go back, and in which `m_gline` finds sound lists, an entry is in its
list until it expires or is removed by its own mask, that the loops take out the expired entries
which they are meant to, that nothing is freed twice, and that no two entries of a list have the
same mask. Real names are compared as they are, so two of them may differ in case only
(`not_glines_sin_caja`).
-/

namespace Ircd.Gline

open CString Hash Addr IPcheck

/-- The lists and the clock. -/
structure Estado where
  glines : Glines
  reloj : Reloj

/-- What happens. -/
inductive Paso where
  | reloj (r : Reloj)
  | mGline (e : Origen) (parv : List CStr)
  | findGline (cptr : Afectado)
  | spamGline (uline : Bool) (ip : IrcInAddr) (gexpire : Int) (reason : CStr)

/-- The start of the program. -/
def inicio (r : Reloj) : Estado where
  glines :=
    { next := fun _ ↦ none
      head := fun _ ↦ none
      dato := fun _ ↦ AGline.nueva [] [] [] 0 0 0
      count := 0
      liberadas := [] }
  reloj := r

section

variable (matchPcre : CStr → CStr → Bool) (ip : CStr → Option CStr)

/-- One step. -/
def paso (a : Paso) (s : Estado) : Estado :=
  match a with
  | .reloj r => { s with reloj := r }
  | .mGline e parv => { s with glines := s.glines.mGline ip e s.reloj parv }
  | .findGline cptr => { s with glines := (s.glines.findGline matchPcre s.reloj.tsTime cptr).2 }
  | .spamGline uline addr gexpire reason =>
      { s with glines := s.glines.spamGline uline s.reloj.tsTime addr gexpire reason }

/-- The clock does not go back. -/
def Avanza (a : Paso) (s : Estado) : Prop :=
  match a with
  | .reloj r => s.reloj.tsTime ≤ r.tsTime
  | _ => True

/-- `m_gline` finds lists that its loops are right for. -/
def Limpio (a : Paso) (s : Estado) : Prop :=
  match a with
  | .mGline _ _ => ∀ i, Sano (s.glines.viva s.reloj.tsTime) (s.glines.nodos i)
  | _ => True

/-- The step removes entries with the mask of the entry `p`. -/
def Retira (p : Nat) (a : Paso) (s : Estado) : Prop :=
  match a with
  | .mGline e parv => Quita ip e parv (s.glines.dato p)
  | _ => False

/-- The loops take out and free the expired entries: `m_gline` all of them, and `find_gline` those
in front of the entry that it finds. -/
def Barren (a : Paso) (s : Estado) : Prop :=
  let viva := s.glines.viva s.reloj.tsTime
  match a with
  | .mGline _ _ =>
      let r := (s.glines.barrido .gline s.reloj.tsTime).barrido .badchan s.reloj.tsTime
      (∀ i, r.nodos i = (s.glines.nodos i).filter viva) ∧
        r.liberadas = s.glines.liberadas ++ (s.glines.nodos .gline).filter (!viva ·) ++
          (s.glines.nodos .badchan).filter (!viva ·)
  | .findGline cptr =>
      let busca := fun p ↦ !(viva p && (s.glines.dato p).casa matchPcre cptr)
      let r := (s.glines.findGline matchPcre s.reloj.tsTime cptr).2
      r.nodos .gline = ((s.glines.nodos .gline).takeWhile busca).filter viva ++
          (s.glines.nodos .gline).dropWhile busca ∧
        r.nodos .badchan = s.glines.nodos .badchan ∧
        r.liberadas =
          s.glines.liberadas ++ ((s.glines.nodos .gline).takeWhile busca).filter (!viva ·)
  | _ => True

/-- What a run keeps, where `misma` tells the entries with one mask. -/
structure SinPerdida (misma : AGline → AGline → Prop) (r : Reloj) (l : List Paso) : Prop where
  quedan : ∀ p < (Run.final (paso matchPcre ip) (inicio r) l).glines.count,
    (Run.final (paso matchPcre ip) (inicio r) l).reloj.tsTime <
      ((Run.final (paso matchPcre ip) (inicio r) l).glines.dato p).expire →
    Run.EveryStep (paso matchPcre ip) (fun a s ↦ ¬Retira ip p a s) (inicio r) l →
    p ∈ (Run.final (paso matchPcre ip) (inicio r) l).glines.nodos
      (Lista.de ((Run.final (paso matchPcre ip) (inicio r) l).glines.dato p).host)
  barren : Run.EveryStep (paso matchPcre ip) (Barren matchPcre) (inicio r) l
  unaVez : (Run.final (paso matchPcre ip) (inicio r) l).glines.liberadas.Nodup
  distintas : ∀ i, ∀ p ∈ (Run.final (paso matchPcre ip) (inicio r) l).glines.nodos i,
    ∀ q ∈ (Run.final (paso matchPcre ip) (inicio r) l).glines.nodos i,
    misma ((Run.final (paso matchPcre ip) (inicio r) l).glines.dato p)
      ((Run.final (paso matchPcre ip) (inicio r) l).glines.dato q) → p = q

end

/-! ## Steps -/

variable {matchPcre : CStr → CStr → Bool} {ip : CStr → Option CStr}

theorem bien_inicio (r : Reloj) : Bien (inicio r).glines := by
  have hforma : Forma (inicio r).glines fun _ ↦ [] :=
    ⟨⟨fun _ ↦ rfl, by simp⟩, by simp, by simp⟩
  have hnodos : (inicio r).glines.nodos = fun _ ↦ [] := hforma.nodos_eq
  refine ⟨hnodos ▸ hforma, ?_, ?_, ?_, ⟨List.nodup_nil, fun _ hp ↦ by cases hp⟩,
    fun _ hp ↦ by cases hp⟩
  all_goals simp [hnodos]

/-- The loops at the start of `m_gline`, over sound lists. -/
theorem barridos {s : Glines} (h : Bien s) {ahora : Int}
    (hsano : ∀ i, Sano (s.viva ahora) (s.nodos i)) :
    let r := (s.barrido .gline ahora).barrido .badchan ahora
    Bien r ∧ (∀ i, r.nodos i = (s.nodos i).filter (s.viva ahora)) ∧
      r.liberadas = s.liberadas ++ (s.nodos .gline).filter (!s.viva ahora ·) ++
        (s.nodos .badchan).filter (!s.viva ahora ·) ∧ r.dato = s.dato := by
  intro r
  obtain ⟨h₁, hnodos₁, hlib₁, hdato₁⟩ := h.barrido (hsano .gline)
  have hviva : Glines.viva ahora (s.barrido .gline ahora) = Glines.viva ahora s := by
    funext p
    rw [Glines.viva, hdato₁, Glines.viva]
  have hbadchan : (s.barrido .gline ahora).nodos .badchan = s.nodos .badchan := by
    rw [hnodos₁, Function.update_of_ne (by decide)]
  have hsano₂ : Sano ((s.barrido .gline ahora).viva ahora)
      ((s.barrido .gline ahora).nodos .badchan) := by
    rw [hviva, hbadchan]
    exact hsano .badchan
  obtain ⟨h₂, hnodos₂, hlib₂, hdato₂⟩ := h₁.barrido hsano₂
  rw [hviva, hbadchan] at hnodos₂ hlib₂
  refine ⟨h₂, fun i ↦ ?_, by rw [hlib₂, hlib₁], hdato₂.trans hdato₁⟩
  rw [hnodos₂]
  cases i with
  | gline => rw [Function.update_of_ne (by decide), hnodos₁, Function.update_self]
  | badchan => rw [Function.update_self]

/-- The guard of the main theorem. -/
def Guarda (a : Paso) (s : Estado) : Prop :=
  Avanza a s ∧ Limpio a s

/-- One step keeps the invariant. -/
theorem paso_bien {a : Paso} {s : Estado} (h : Bien s.glines) (ha : Guarda a s) :
    Bien (paso matchPcre ip a s).glines := by
  cases a with
  | reloj r => exact h
  | mGline e parv =>
      have h₂ := (barridos h ha.2).1
      exact (h₂.orden ip e s.reloj parv).bien h₂
  | findGline cptr => exact (h.findGline matchPcre s.reloj.tsTime cptr).2.1
  | spamGline uline addr gexpire reason =>
      have hefecto : Efecto (fun _ ↦ False) s.glines _ :=
        h.spamGline uline s.reloj.tsTime addr gexpire reason
      exact hefecto.bien h

/-- The loops of one step. -/
theorem paso_barren {a : Paso} {s : Estado} (h : Bien s.glines) (ha : Guarda a s) :
    Barren matchPcre a s := by
  cases a with
  | reloj r => trivial
  | mGline e parv =>
      obtain ⟨-, hnodos, hlib, -⟩ := barridos h ha.2
      exact ⟨hnodos, hlib⟩
  | findGline cptr =>
      obtain ⟨-, -, hnodos, hlib, -⟩ := h.findGline matchPcre s.reloj.tsTime cptr
      refine ⟨?_, ?_, hlib⟩
      · rw [hnodos, Function.update_self]
      · rw [hnodos, Function.update_of_ne (by decide)]
  | spamGline uline addr gexpire reason => trivial

/-- An entry that was freed has expired. -/
def Caduca (p : Nat) (s : Estado) : Prop :=
  p ∈ s.glines.liberadas → (s.glines.dato p).expire ≤ s.reloj.tsTime

/-- One step that does not remove the entry. -/
theorem paso_caduca {a : Paso} {s : Estado} (h : Bien s.glines) (ha : Guarda a s) {p : Nat}
    (hcaduca : Caduca p s) (hno : ¬Retira ip p a s) : Caduca p (paso matchPcre ip a s) := by
  have hviva : Glines.viva s.reloj.tsTime s.glines p = false →
      (s.glines.dato p).expire ≤ s.reloj.tsTime := by
    intro hviva
    simpa [Glines.viva] using hviva
  intro hp
  cases a with
  | reloj r => exact (hcaduca hp).trans ha.1
  | mGline e parv =>
      obtain ⟨h₂, -, hlib, hdato⟩ := barridos h ha.2
      rcases (h₂.orden ip e s.reloj parv).liberada h₂ hp with ⟨hp, heq⟩ | ⟨-, hquita⟩
      · have hdato' : (paso matchPcre ip (.mGline e parv) s).glines.dato p = s.glines.dato p := by
          rw [← hdato]
          exact heq
        rw [hdato']
        rw [hlib, List.append_assoc, List.mem_append, List.mem_append, List.mem_filter,
          List.mem_filter, Bool.not_eq_true'] at hp
        rcases hp with hp | ⟨-, hp⟩ | ⟨-, hp⟩
        · exact hcaduca hp
        · exact hviva hp
        · exact hviva hp
      · rw [hdato] at hquita
        exact absurd hquita hno
  | findGline cptr =>
      obtain ⟨-, -, -, hlib, hdato⟩ := h.findGline matchPcre s.reloj.tsTime cptr
      have hdato' : (paso matchPcre ip (.findGline cptr) s).glines.dato p = s.glines.dato p :=
        congrFun hdato p
      have hp' : p ∈ (s.glines.findGline matchPcre s.reloj.tsTime cptr).2.liberadas := hp
      rw [hdato']
      rw [hlib, List.mem_append, List.mem_filter, Bool.not_eq_true'] at hp'
      rcases hp' with hp' | ⟨-, hp'⟩
      · exact hcaduca hp'
      · exact hviva hp'
  | spamGline uline addr gexpire reason =>
      have hefecto : Efecto (fun _ ↦ False) s.glines _ :=
        h.spamGline uline s.reloj.tsTime addr gexpire reason
      rcases hefecto.liberada h hp with ⟨hp, heq⟩ | ⟨-, hquita⟩
      · show ((s.glines.spamGline uline s.reloj.tsTime addr gexpire reason).dato p).expire ≤ _
        rw [heq]
        exact hcaduca hp
      · exact hquita.elim

/-! ## Runs -/

/-- No entry is lost in a run whose clock does not go back and in which `m_gline` finds sound
lists. -/
theorem glines_no_se_pierden (matchPcre : CStr → CStr → Bool) (ip : CStr → Option CStr) (r : Reloj)
    (l : List Paso) (hreloj : Run.EveryStep (paso matchPcre ip) Avanza (inicio r) l)
    (hlimpio : Run.EveryStep (paso matchPcre ip) Limpio (inicio r) l) :
    SinPerdida matchPcre ip AGline.Misma r l := by
  have hguarda := Run.everyStep_and hreloj hlimpio
  have hstep : ∀ a s, Bien s.glines → Guarda a s → Bien (paso matchPcre ip a s).glines :=
    fun _ _ ↦ paso_bien
  have hfinal : Bien (Run.final (paso matchPcre ip) (inicio r) l).glines :=
    Run.invariant_final hstep (bien_inicio r) hguarda
  refine ⟨fun p hp hviva hno ↦ ?_, ?_, hfinal.libres.1, hfinal.unicas⟩
  · have hcaduca : Bien (Run.final (paso matchPcre ip) (inicio r) l).glines ∧
        Caduca p (Run.final (paso matchPcre ip) (inicio r) l) := by
      refine Run.invariant_final (P := fun s ↦ Bien s.glines ∧ Caduca p s)
        (fun a s hs ha ↦ ⟨paso_bien hs.1 ha.1, paso_caduca hs.1 ha.1 hs.2 ha.2⟩)
        ⟨bien_inicio r, fun hp ↦ by cases hp⟩ (Run.everyStep_and hguarda hno)
    exact (hfinal.todas p hp).resolve_right fun hfree ↦ absurd (hcaduca.2 hfree) (not_le.mpr hviva)
  · exact Run.everyStep_of_invariant hstep (fun _ _ ↦ paso_barren) (bien_inicio r) hguarda

/-- A server with a U line. -/
def servicio : Origen where
  servidor := true
  user := false
  anOper := false
  hub := true
  uline := true
  burst := false
  privGline := false
  privLocalGline := false
  privLocalBadchan := false
  destino := false

/-- A G-line of the server with a mask. -/
def pone (mask : String) : Paso :=
  .mGline servicio ["s".toList, "*".toList, mask.toList, "60".toList, "fuera".toList]

/-- A G-line is put, found and removed. -/
theorem glines_no_se_pierden_uno :
    SinPerdida (fun _ _ ↦ true) (fun _ ↦ none) AGline.Misma ⟨1000, 0⟩
      [pone "+a@b.es", .reloj ⟨1010, 0⟩, .findGline ⟨⟨#v[0, 0, 0, 0, 0, 0, 0, 1]⟩, [], [], []⟩,
        pone "-A@B.es"] :=
  glines_no_se_pierden _ _ _ _
    ⟨trivial, show (1000 : Int) + 0 ≤ 1010 + 0 by decide, trivial, trivial, trivial⟩
    ⟨fun i ↦ by cases i <;> trivial, trivial, trivial, fun i ↦ by cases i <;> trivial, trivial⟩

/-- The same user and host up to case, whatever kind of mask it is. -/
def SinCaja (g g' : AGline) : Prop :=
  fold g.name = fold g'.name ∧ fold g.host = fold g'.host

/-- Two real names that differ in case are two entries. -/
theorem not_glines_sin_caja :
    ¬∀ (matchPcre : CStr → CStr → Bool) (ip : CStr → Option CStr) (r : Reloj) (l : List Paso),
      Run.EveryStep (paso matchPcre ip) Avanza (inicio r) l →
      SinPerdida matchPcre ip SinCaja r l := by
  intro h
  have hrun := (h (fun _ _ ↦ true) (fun _ ↦ none) ⟨1000, 0⟩ [pone "+$Rab", pone "+$RAB"]
    ⟨trivial, trivial, trivial⟩).distintas
  have hsame := hrun .gline 0 (by decide) 1 (by decide) ⟨by decide, by decide⟩
  cases hsame

end Ircd.Gline
