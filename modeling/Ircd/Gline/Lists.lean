import Ircd.Addr.Text
import Ircd.Hash.Table
import Ircd.Lib.Cells
import Ircd.Mask.Cover

/-!
# G-lines

The lists `gline` and `badchan` of `ircd/list.c`, with `make_gline`, `free_gline` and `find_gline`,
and the loop over expired entries at the start of `m_gline` of `ircd/opercmds.c`. An entry is named
by the number of entries that were made before, and its memory is written down when it is freed.

Both loops pass the entry before the one that they take out. `Forma.findDesde` says what the loop of
`find_gline` leaves. `Forma.barre` says what the loop of `m_gline` leaves: behind a first entry that
is expired it skips one, and what it skips it may cut off, so that it takes out the expired entries
and no others exactly when the list is `Sano` (`quedan_iff`).
-/

namespace Ircd.Gline

open CString Hash Match Addr IPcheck

/-! ## Entries and lists -/

/-- The lists of G-lines. -/
inductive Lista where
  | gline
  | badchan
deriving DecidableEq

/-- The test for a bad channel, on the first character of the host. -/
def esCanal (host : CStr) : Bool :=
  peek host = '#' ∨ peek host = '&' ∨ peek host = '+'

/-- The list that an entry is put into, and taken out of. -/
def Lista.de (host : CStr) : Lista :=
  if esCanal host then .badchan else .gline

/-- An entry. The address is there when `GLINE_IPMASK` is set. -/
structure AGline where
  host : CStr
  reason : CStr
  name : CStr
  expire : Int
  lastmod : Int
  lifetime : Int
  active : Bool
  ipmask : Option (IrcInAddr × Nat)
  isLocal : Bool
  realname : Bool
  realnameCI : Bool

/-- The entry that `make_gline` fills in. -/
def AGline.nueva (host reason name : CStr) (expire lastmod lifetime : Int) : AGline where
  host := host
  reason := reason
  name := name
  expire := expire
  lastmod := lastmod
  lifetime := lifetime
  active := true
  ipmask :=
    if peek host = '$' ∧ (peek host.tail = 'R' ∨ peek host.tail = 'r') then none
    else (ipmaskParse host true).map fun r ↦ (r.2.1, r.2.2.getD 0)
  isLocal := false
  realname := peek host = '$' ∧ (peek host.tail = 'R' ∨ peek host.tail = 'r')
  realnameCI := peek host = '$' ∧ peek host.tail = 'r'

/-- The memory of the entries, the first pointers, and the entries that were freed, in order. -/
structure Glines where
  next : Nat → Option Nat
  head : Lista → Option Nat
  dato : Nat → AGline
  count : Nat
  liberadas : List Nat

namespace Glines

/-- The entries of a list. -/
def nodos (s : Glines) (i : Lista) : List Nat :=
  Cells.walk s.next s.count (s.head i)

/-- `make_gline`. -/
def makeGline (host reason name : CStr) (expire lastmod lifetime : Int) (s : Glines) :
    Nat × Glines :=
  (s.count, { s with
    next := Function.update s.next s.count (s.head (Lista.de host))
    head := Function.update s.head (Lista.de host) (some s.count)
    dato := Function.update s.dato s.count
      (AGline.nueva host reason name expire lastmod lifetime)
    count := s.count + 1 })

/-- `free_gline`. -/
def freeGline (agline : Nat) (pgline : Option Nat) (s : Glines) : Glines :=
  match pgline with
  | some q => { s with
      next := Function.update s.next q (s.next agline)
      liberadas := s.liberadas ++ [agline] }
  | none => { s with
      head := Function.update s.head (Lista.de (s.dato agline).host) (s.next agline)
      liberadas := s.liberadas ++ [agline] }

end Glines

/-! ## The loops over expired entries -/

/-- The loop of `find_gline`, over the list `i`. The result is the entry that was found and the
list. -/
def findDesde (i : Lista) (ahora : Int) (casa : AGline → Bool) :
    Nat → Option Nat → Option Nat → Glines → Option Nat × Glines
  | 0, _, _, s => (none, s)
  | _ + 1, none, _, s => (none, s)
  | fuel + 1, some agline, a2gline, s =>
      if (s.dato agline).expire ≤ ahora then
        let s := s.freeGline agline a2gline
        findDesde i ahora casa fuel (a2gline.elim (s.head i) s.next) a2gline s
      else if casa (s.dato agline) then (some agline, s)
      else findDesde i ahora casa fuel (s.next agline) (some agline) s

/-- The loop of `m_gline` over the list `i`. After an entry is taken out, the next round begins
behind the entry before it or, when there is none, behind the new first entry. -/
def barre (i : Lista) (ahora : Int) : Nat → Option Nat → Option Nat → Glines → Glines
  | 0, _, _, s => s
  | _ + 1, none, _, s => s
  | fuel + 1, some agline, a2gline, s =>
      if (s.dato agline).expire ≤ ahora then
        let s := s.freeGline agline a2gline
        match a2gline.or (s.head i) with
        | none => s
        | some agline => barre i ahora fuel (s.next agline) a2gline s
      else barre i ahora fuel (s.next agline) (some agline) s

/-- What `find_gline` reads of a client. -/
structure Afectado where
  ip : IrcInAddr
  info : CStr
  sockhost : CStr
  username : CStr

/-- The test of `find_gline` on an entry that has not expired. `match_pcre` is the matching of a
regular expression. -/
def AGline.casa (matchPcre : CStr → CStr → Bool) (cptr : Afectado) (agline : AGline) : Bool :=
  (match agline.ipmask with
    | some (glAddr, glBits) => ipmaskCheck cptr.ip glAddr glBits ≠ 0
    | none =>
        if agline.realname then
          matchPcre (agline.host.drop 2)
            (if agline.realnameCI then (cptr.info.take REALLEN).map toLower else cptr.info)
        else ircMatch agline.host (memory cptr.sockhost [])) &&
  ircMatch agline.name (memory cptr.username [])

namespace Glines

/-- `find_gline`. -/
def findGline (matchPcre : CStr → CStr → Bool) (ahora : Int) (cptr : Afectado) (s : Glines) :
    Option Nat × Glines :=
  findDesde .gline ahora (AGline.casa matchPcre cptr) s.count (s.head .gline) none s

/-- The loop at the start of `m_gline` over one list. -/
def barrido (i : Lista) (ahora : Int) (s : Glines) : Glines :=
  barre i ahora s.count (s.head i) none s

end Glines

/-! ## The entries behind the pointers -/

/-- The entries of each list, and the list that each entry belongs to. -/
structure Forma (s : Glines) (l : Lista → List Nat) : Prop where
  lists : LinkedLists s.next s.head l
  lt : ∀ i, ∀ p ∈ l i, p < s.count
  suya : ∀ i, ∀ p ∈ l i, Lista.de (s.dato p).host = i

/-- The entry has not expired. -/
def Glines.viva (ahora : Int) (s : Glines) (p : Nat) : Bool :=
  ahora < (s.dato p).expire

namespace Forma

variable {s : Glines} {l : Lista → List Nat} {i : Lista} {p : Nat} {as bs : List Nat}
  {ahora : Int} {fuel : Nat}

theorem length_le (h : Forma s l) (i : Lista) : (l i).length ≤ s.count := by
  have hsub : l i ⊆ List.range s.count := fun p hp ↦ List.mem_range.mpr (h.lt i p hp)
  have hle := ((h.lists.links i).nodup.subperm hsub).length_le
  rwa [List.length_range] at hle

/-- The entries are those of the loop over the list. -/
theorem nodos_eq (h : Forma s l) : s.nodos = l :=
  funext fun i ↦ Cells.walk_eq (h.lists.links i) (h.length_le i)

/-- Entries are taken out of a list. -/
theorem of_sublist {s' : Glines} (h : Forma s l) {xs : List Nat} (hxs : xs ⊆ l i)
    (hlists : LinkedLists s'.next s'.head (Function.update l i xs)) (hdato : s'.dato = s.dato)
    (hcount : s'.count = s.count) : Forma s' (Function.update l i xs) := by
  have hmem : ∀ j p, p ∈ Function.update l i xs j → p ∈ l j := by
    intro j p hp
    by_cases hj : j = i
    · subst hj
      rw [Function.update_self] at hp
      exact hxs hp
    · rwa [Function.update_of_ne hj] at hp
  refine ⟨hlists, fun j p hp ↦ ?_, fun j p hp ↦ ?_⟩
  · rw [hcount]
    exact h.lt j p (hmem j p hp)
  · rw [hdato]
    exact h.suya j p (hmem j p hp)

/-- `free_gline` takes the entry out of its list and frees it. -/
theorem freeGline (h : Forma s l) (hsplit : l i = as ++ p :: bs) :
    Forma (s.freeGline p as.getLast?) (Function.update l i (as ++ bs)) ∧
      (s.freeGline p as.getLast?).liberadas = s.liberadas ++ [p] ∧
      (s.freeGline p as.getLast?).dato = s.dato ∧
      (s.freeGline p as.getLast?).count = s.count := by
  have hsub : as ++ bs ⊆ l i := by
    intro q hq
    rw [hsplit]
    simp only [List.mem_append, List.mem_cons] at hq ⊢
    tauto
  have hcut := h.lists.cut hsplit
  have hlista : Lista.de (s.dato p).host = i := h.suya i p (by simp [hsplit])
  cases hlast : as.getLast? with
  | none =>
      rw [hlast] at hcut
      refine ⟨h.of_sublist hsub ?_ rfl rfl, rfl, rfl, rfl⟩
      simp only [Glines.freeGline, hlista]
      exact hcut
  | some c =>
      rw [hlast] at hcut
      exact ⟨h.of_sublist hsub hcut rfl rfl, rfl, rfl, rfl⟩

/-- The pointer behind the part of a list that was visited. -/
theorem elim_head (h : Forma s l) (hsplit : l i = as ++ bs) :
    as.getLast?.elim (s.head i) s.next = bs.head? := by
  have hlinks := h.lists.links i
  rw [hsplit] at hlinks
  rcases List.eq_nil_or_concat' as with rfl | ⟨as, c, rfl⟩
  · exact (Links.head? hlinks).symm
  · rw [List.append_assoc, List.singleton_append] at hlinks
    rw [List.getLast?_append_cons, List.getLast?_singleton]
    exact (Links.head? (Links.from_mem hlinks).2).symm

/-- `make_gline` puts a new entry in front of its list. -/
theorem makeGline (h : Forma s l) (host reason name : CStr) (expire lastmod lifetime : Int) :
    Forma (s.makeGline host reason name expire lastmod lifetime).2
      (Function.update l (Lista.de host) (s.count :: l (Lista.de host))) where
  lists := h.lists.push (fun j hj ↦ absurd (h.lt j _ hj) (lt_irrefl _)) (Lista.de host)
  lt j p hp := by
    show p < s.count + 1
    by_cases hj : j = Lista.de host
    · subst hj
      rw [Function.update_self, List.mem_cons] at hp
      rcases hp with rfl | hp
      · omega
      · exact Nat.lt_succ_of_lt (h.lt _ p hp)
    · rw [Function.update_of_ne hj] at hp
      exact Nat.lt_succ_of_lt (h.lt j p hp)
  suya j p hp := by
    show Lista.de (Function.update s.dato s.count _ p).host = j
    by_cases hpc : p = s.count
    · subst hpc
      rw [Function.update_self]
      show Lista.de host = j
      by_contra hj
      rw [Function.update_of_ne (Ne.symm hj)] at hp
      exact absurd (h.lt j _ hp) (lt_irrefl _)
    · rw [Function.update_of_ne hpc]
      refine h.suya j p ?_
      by_cases hj : j = Lista.de host
      · subst hj
        rw [Function.update_self, List.mem_cons] at hp
        exact hp.resolve_left hpc
      · rwa [Function.update_of_ne hj] at hp

/-! ### The loop of `find_gline` -/

/-- The loop takes the expired entries out of the part of the list in front of the entry that it
finds, and frees them. -/
theorem findDesde (ahora : Int) (casa : AGline → Bool) (h : Forma s l) (hsplit : l i = as ++ bs)
    (hfuel : bs.length ≤ fuel) :
    let busca := fun p ↦ !(s.viva ahora p && casa (s.dato p))
    let r := Gline.findDesde i ahora casa fuel bs.head? as.getLast? s
    r.1 = (bs.dropWhile busca).head? ∧
      Forma r.2 (Function.update l i
        (as ++ ((bs.takeWhile busca).filter (s.viva ahora) ++ bs.dropWhile busca))) ∧
      r.2.liberadas = s.liberadas ++ (bs.takeWhile busca).filter (!s.viva ahora ·) ∧
      r.2.dato = s.dato ∧ r.2.count = s.count := by
  intro busca r
  induction bs generalizing as s l fuel with
  | nil =>
      have hr : r = (none, s) := by
        show Gline.findDesde i ahora casa fuel none _ s = _
        cases fuel <;> rfl
      have hl : Function.update l i as = l := by
        rw [← List.append_nil as, ← hsplit, Function.update_eq_self]
      rw [hr]
      exact ⟨rfl, by simpa [hl] using h, by simp, rfl, rfl⟩
  | cons p bs ih =>
      obtain ⟨fuel, rfl⟩ := Nat.exists_eq_succ_of_ne_zero (Nat.ne_zero_of_lt hfuel)
      have hfuel' : bs.length ≤ fuel := Nat.le_of_succ_le_succ hfuel
      by_cases hexp : (s.dato p).expire ≤ ahora
      · -- An expired entry: the entry before it stays, and the rest follows that one.
        have hviva : s.viva ahora p = false := by simp [Glines.viva, hexp]
        obtain ⟨hforma, hlib, hdato, hcount⟩ := h.freeGline hsplit
        have hsplit' : Function.update l i (as ++ bs) i = as ++ bs := Function.update_self ..
        have hr : r = Gline.findDesde i ahora casa fuel bs.head? as.getLast?
            (s.freeGline p as.getLast?) := by
          show Gline.findDesde i ahora casa (fuel + 1) (some p) _ s = _
          rw [← hforma.elim_head hsplit']
          simp only [Gline.findDesde, if_pos hexp]
        have hvivas : Glines.viva ahora (s.freeGline p as.getLast?) = Glines.viva ahora s := by
          funext q
          rw [Glines.viva, hdato, Glines.viva]
        have hih := ih hforma hsplit' hfuel'
        simp only [hvivas, hdato, hlib, hcount, Function.update_idem] at hih
        rw [← hr] at hih
        simpa [busca, hviva] using hih
      · have hviva : s.viva ahora p = true := by
          simpa [Glines.viva] using hexp
        by_cases hcasa : casa (s.dato p) = true
        · have hr : r = (some p, s) := by
            show Gline.findDesde i ahora casa (fuel + 1) (some p) _ s = _
            rw [Gline.findDesde, if_neg hexp, if_pos hcasa]
          have hl : Function.update l i (as ++ p :: bs) = l := by
            rw [← hsplit, Function.update_eq_self]
          rw [hr]
          simpa [busca, hviva, hcasa, hl] using h
        · have hsplit' : l i = (as ++ [p]) ++ bs := by simp [hsplit]
          have hr : r = Gline.findDesde i ahora casa fuel bs.head? (as ++ [p]).getLast? s := by
            have hnext : s.next p = bs.head? := by
              have helim := h.elim_head hsplit'
              rwa [List.getLast?_append_cons, List.getLast?_singleton] at helim
            show Gline.findDesde i ahora casa (fuel + 1) (some p) _ s = _
            rw [Gline.findDesde, if_neg hexp, if_neg hcasa, hnext, List.getLast?_append_cons,
              List.getLast?_singleton]
          have hih := ih h hsplit' hfuel'
          rw [← hr] at hih
          simpa [busca, hviva, hcasa] using hih

/-! ### The loop of `m_gline` -/

/-- Behind an entry that stays the loop is that of `find_gline`, without a search. -/
theorem barre_some (fuel : Nat) (a : Option Nat) (q : Nat) (s : Glines) :
    Gline.barre i ahora fuel a (some q) s =
      (Gline.findDesde i ahora (fun _ ↦ false) fuel a (some q) s).2 := by
  induction fuel generalizing a q s with
  | zero => rfl
  | succ fuel ih =>
      cases a with
      | none => rfl
      | some p =>
          rw [Gline.barre, Gline.findDesde]
          split
          · exact ih _ q _
          · exact ih _ p s

/-- The loop behind an entry that stays. -/
theorem barre_viva (h : Forma s l) (hsplit : l i = as ++ p :: bs) (hfuel : bs.length ≤ fuel) :
    let r := Gline.barre i ahora fuel bs.head? (some p) s
    Forma r (Function.update l i (as ++ p :: bs.filter (s.viva ahora))) ∧
      r.liberadas = s.liberadas ++ bs.filter (!s.viva ahora ·) ∧
      r.dato = s.dato ∧ r.count = s.count := by
  intro r
  have hsplit' : l i = (as ++ [p]) ++ bs := by simp [hsplit]
  have hlast : (as ++ [p]).getLast? = some p := by
    rw [List.getLast?_append_cons, List.getLast?_singleton]
  have htake : bs.takeWhile (fun _ ↦ true) = bs := List.takeWhile_eq_self_iff.mpr (by simp)
  have hdrop : bs.dropWhile (fun _ ↦ true) = [] := List.dropWhile_eq_nil_iff.mpr (by simp)
  have hfind := h.findDesde ahora (fun _ ↦ false) hsplit' hfuel
  simp only [Bool.and_false, Bool.not_false, htake, hdrop, List.append_nil, hlast,
    List.append_assoc, List.singleton_append] at hfind
  have hr : r = (Gline.findDesde i ahora (fun _ ↦ false) fuel bs.head? (some p) s).2 :=
    barre_some fuel bs.head? p s
  rw [hr]
  exact hfind.2

/-- An entry that is freed as if it was the first one takes those in front of it out of the list. -/
theorem freeGline_none (h : Forma s l) (hsplit : l i = as ++ p :: bs) :
    Forma (s.freeGline p none) (Function.update l i bs) := by
  have hsub : bs ⊆ l i := by
    intro q hq
    simp [hsplit, hq]
  have hlista : Lista.de (s.dato p).host = i := h.suya i p (by simp [hsplit])
  refine h.of_sublist hsub ⟨fun j ↦ ?_, h.lists.disjoint_update fun q hq ↦ Or.inl (hsub hq)⟩ rfl rfl
  show Links s.next (Function.update s.head (Lista.de (s.dato p).host) (s.next p) j) _ none
  rw [hlista]
  by_cases hj : j = i
  · subst hj
    rw [Function.update_self, Function.update_self]
    have hlinks := h.lists.links j
    rw [hsplit] at hlinks
    exact (Links.from_mem hlinks).2
  · rw [Function.update_of_ne hj, Function.update_of_ne hj]
    exact h.lists.links j

end Forma

section

variable (viva : Nat → Bool)

/-- What the loop of `m_gline` leaves of a list whose first entry it has passed over. -/
def quedanTras : List Nat → List Nat
  | p :: q :: l => if viva q then p :: q :: l.filter viva else quedanTras l
  | l => l

/-- What it frees behind that entry. -/
def caenTras : List Nat → List Nat
  | _ :: q :: l => if viva q then l.filter (!viva ·) else q :: caenTras l
  | _ => []

/-- What the loop of `m_gline` leaves of a list. -/
def quedan : List Nat → List Nat
  | [] => []
  | p :: l => if viva p then p :: l.filter viva else quedanTras viva l

/-- What the loop of `m_gline` frees of a list. -/
def caen : List Nat → List Nat
  | [] => []
  | p :: l => if viva p then l.filter (!viva ·) else p :: caenTras viva l

end

namespace Forma

variable {s : Glines} {l : Lista → List Nat} {i : Lista} {p : Nat} {as bs : List Nat}
  {ahora : Int} {fuel : Nat}

/-- The loop behind an entry that was passed over without being kept as the one before. -/
theorem barre_tras (ahora : Int) (h : Forma s l) (hsplit : l i = p :: bs)
    (hfuel : bs.length ≤ fuel) :
    let r := Gline.barre i ahora fuel bs.head? none s
    Forma r (Function.update l i (quedanTras (s.viva ahora) (p :: bs))) ∧
      r.liberadas = s.liberadas ++ caenTras (s.viva ahora) (p :: bs) ∧
      r.dato = s.dato ∧ r.count = s.count := by
  intro r
  induction hn : bs.length using Nat.strong_induction_on generalizing p bs s l fuel with
  | _ n ih =>
      cases bs with
      | nil =>
          have hr : r = s := by
            show Gline.barre i ahora fuel none none s = s
            cases fuel <;> rfl
          rw [hr, quedanTras, caenTras, ← hsplit, Function.update_eq_self, List.append_nil]
          · exact ⟨h, rfl, rfl, rfl⟩
          all_goals simp
      | cons q bs =>
          obtain ⟨fuel, rfl⟩ := Nat.exists_eq_succ_of_ne_zero (Nat.ne_zero_of_lt hfuel)
          have hfuel' : bs.length ≤ fuel := Nat.le_of_succ_le_succ hfuel
          have hsplit₂ : l i = [p] ++ q :: bs := hsplit
          by_cases hexp : (s.dato q).expire ≤ ahora
          · -- The entry is expired, and what is in front of it goes with it.
            have hviva : s.viva ahora q = false := by simp [Glines.viva, hexp]
            have hforma := h.freeGline_none hsplit₂
            have hhead : (s.freeGline q none).head i = bs.head? := by
              have hlinks := hforma.lists.links i
              rw [Function.update_self] at hlinks
              exact (Links.head? hlinks).symm
            rw [quedanTras, caenTras, hviva]
            cases bs with
            | nil =>
                have hr : r = s.freeGline q none := by
                  show Gline.barre i ahora (fuel + 1) (some q) none s = _
                  rw [Gline.barre, if_pos hexp]
                  simp only [hhead, Option.none_or, List.head?_nil]
                rw [hr]
                exact ⟨by simpa [quedanTras] using hforma, rfl, rfl, rfl⟩
            | cons w bs =>
                have hlista : Function.update l i (w :: bs) i = w :: bs := Function.update_self ..
                have hnext : (s.freeGline q none).next w = bs.head? := by
                  have hlinks := hforma.lists.links i
                  rw [hlista] at hlinks
                  exact (Links.head? hlinks.2).symm
                have hr : r = Gline.barre i ahora fuel bs.head? none (s.freeGline q none) := by
                  show Gline.barre i ahora (fuel + 1) (some q) none s = _
                  rw [Gline.barre, if_pos hexp]
                  simp only [hhead, Option.none_or, List.head?_cons, hnext]
                simp only [List.length_cons] at hn hfuel'
                have hih := ih bs.length (by omega) hforma hlista (Nat.le_of_succ_le hfuel') rfl
                rw [← hr, Function.update_idem] at hih
                refine ⟨hih.1, ?_, hih.2.2.1, hih.2.2.2⟩
                rw [hih.2.1]
                show s.liberadas ++ [q] ++ _ = _
                rw [List.append_assoc]
                rfl
          · have hviva : s.viva ahora q = true := by simpa [Glines.viva] using hexp
            have hr : r = Gline.barre i ahora fuel bs.head? (some q) s := by
              have helim := h.elim_head (show l i = [p, q] ++ bs from hsplit)
              show Gline.barre i ahora (fuel + 1) (some q) none s = _
              rw [Gline.barre, if_neg hexp, ← helim]
              rfl
            rw [quedanTras, caenTras, hviva, hr]
            exact h.barre_viva hsplit₂ hfuel'

/-- What the loop of `m_gline` leaves. -/
theorem barrido (h : Forma s l) (i : Lista) (ahora : Int) :
    let r := s.barrido i ahora
    Forma r (Function.update l i (quedan (s.viva ahora) (l i))) ∧
      r.liberadas = s.liberadas ++ caen (s.viva ahora) (l i) ∧
      r.dato = s.dato ∧ r.count = s.count := by
  intro r
  have hfuel := h.length_le i
  have hhead : s.head i = (l i).head? := (Links.head? (h.lists.links i)).symm
  cases hsplit : l i with
  | nil =>
      have hr : r = s := by
        show Gline.barre i ahora s.count (s.head i) none s = s
        rw [hhead, hsplit]
        cases s.count <;> rfl
      rw [hr, quedan, caen, List.append_nil, ← hsplit, Function.update_eq_self]
      exact ⟨h, rfl, rfl, rfl⟩
  | cons p bs =>
      rw [hsplit] at hfuel hhead
      obtain ⟨fuel, hcount⟩ := Nat.exists_eq_succ_of_ne_zero (Nat.ne_zero_of_lt hfuel)
      have hfuel' : bs.length ≤ fuel := by
        rw [hcount] at hfuel
        exact Nat.le_of_succ_le_succ hfuel
      have hr : r = Gline.barre i ahora (fuel + 1) (some p) none s := by
        show Gline.barre i ahora s.count (s.head i) none s = _
        rw [hhead, hcount]
        rfl
      by_cases hexp : (s.dato p).expire ≤ ahora
      · have hviva : s.viva ahora p = false := by simp [Glines.viva, hexp]
        have hforma := h.freeGline_none (show l i = [] ++ p :: bs from hsplit)
        have hhead' : (s.freeGline p none).head i = bs.head? := by
          have hlinks := hforma.lists.links i
          rw [Function.update_self] at hlinks
          exact (Links.head? hlinks).symm
        rw [Gline.barre, if_pos hexp] at hr
        simp only [hhead', Option.none_or] at hr
        rw [quedan, caen, hviva]
        cases bs with
        | nil =>
            rw [hr]
            exact ⟨hforma, rfl, rfl, rfl⟩
        | cons w bs =>
            have hlista : Function.update l i (w :: bs) i = w :: bs := Function.update_self ..
            have hnext : (s.freeGline p none).next w = bs.head? := by
              have hlinks := hforma.lists.links i
              rw [hlista] at hlinks
              exact (Links.head? hlinks.2).symm
            simp only [List.head?_cons, hnext] at hr
            simp only [List.length_cons] at hfuel'
            have htras := hforma.barre_tras ahora hlista (Nat.le_of_succ_le hfuel')
            rw [← hr, Function.update_idem] at htras
            refine ⟨htras.1, ?_, htras.2.2.1, htras.2.2.2⟩
            rw [htras.2.1]
            show s.liberadas ++ [p] ++ _ = _
            rw [List.append_assoc]
            rfl
      · have hviva : s.viva ahora p = true := by simpa [Glines.viva] using hexp
        have hnext : s.next p = bs.head? := by
          have hlinks := h.lists.links i
          rw [hsplit] at hlinks
          exact (Links.head? hlinks.2).symm
        rw [Gline.barre, if_neg hexp, hnext] at hr
        rw [quedan, caen, hviva, hr]
        exact h.barre_viva (show l i = [] ++ p :: bs from hsplit) hfuel'

end Forma

/-! ### When the loop of `m_gline` is right -/

/-- Behind an expired first entry the next two have not expired. -/
def Sano (viva : Nat → Bool) : List Nat → Prop
  | p :: q :: l => viva p = true ∨ viva q = true ∧ ∀ r ∈ l.head?, viva r = true
  | _ => True

variable {viva : Nat → Bool} {xs : List Nat}

theorem quedanTras_subset (xs : List Nat) : quedanTras viva xs ⊆ xs := by
  fun_induction quedanTras viva xs with
  | case1 p q l h => simp
  | case2 p q l h ih =>
      intro r hr
      simp [ih hr]
  | case3 l h => exact fun _ hr ↦ hr

/-- The loop of `m_gline` takes out and frees the expired entries, and no others, when the list is
sound, and only then. -/
theorem quedan_iff (h : xs.Nodup) :
    quedan viva xs = xs.filter viva ∧ caen viva xs = xs.filter (!viva ·) ↔ Sano viva xs := by
  rcases xs with _ | ⟨p, _ | ⟨q, _ | ⟨r, l⟩⟩⟩
  · simp [quedan, caen, Sano]
  · cases hp : viva p <;> simp [quedan, caen, Sano, quedanTras, caenTras, hp]
  · cases hp : viva p <;> cases hq : viva q <;>
      simp [quedan, caen, Sano, quedanTras, caenTras, hp, hq]
  cases hp : viva p with
  | true => simp [quedan, caen, Sano, hp]
  | false =>
      obtain ⟨hqr, hqmem⟩ : q ≠ r ∧ q ∉ l := by
        simp only [List.nodup_cons, List.mem_cons, not_or] at h
        exact h.2.1
      have hcaeP : (p :: q :: r :: l).filter (!viva ·) = p :: (q :: r :: l).filter (!viva ·) :=
        List.filter_cons_of_pos (by simp [hp])
      cases hr : viva r with
      | true =>
          have hquedan : quedan viva (p :: q :: r :: l) = q :: r :: l.filter viva := by
            simp [quedan, quedanTras, hp, hr]
          cases hq : viva q with
          | true => simp [quedan, caen, Sano, quedanTras, caenTras, hp, hq, hr]
          | false =>
              refine iff_of_false (fun h ↦ ?_) (by simp [Sano, hp, hq])
              -- The second entry would stay although it is expired.
              have hmem : q ∈ (p :: q :: r :: l).filter viva := by
                rw [← h.1, hquedan]
                exact List.mem_cons_self
              exact absurd (List.mem_filter.mp hmem).2 (by simp [hq])
      | false =>
          have hquedan : quedan viva (p :: q :: r :: l) = quedanTras viva l := by
            simp [quedan, quedanTras, hp, hr]
          have hcaen : caen viva (p :: q :: r :: l) = p :: r :: caenTras viva l := by
            simp [caen, caenTras, hp, hr]
          refine iff_of_false (fun h ↦ ?_) (by simp [Sano, hp, hr])
          cases hq : viva q with
          | false =>
              -- The second entry would be taken out without being freed.
              have heq := h.2
              rw [hcaen, hcaeP, List.filter_cons_of_pos (by simp [hq])] at heq
              exact hqr (List.cons.inj (List.cons.inj heq).2).1.symm
          | true =>
              -- The second entry would be cut off although it is not expired.
              have hmem : q ∈ quedanTras viva l := by
                rw [← hquedan, h.1]
                exact List.mem_filter.mpr ⟨by simp, hq⟩
              exact hqmem (quedanTras_subset l hmem)

end Ircd.Gline
