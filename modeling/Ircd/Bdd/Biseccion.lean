import Ircd.Bdd.Seek

/-!
# The bisection of `seek_db` on the bytes of a file

`seekDbEn` is `seek_db` of `ircd/s_bdd.c` with each byte that it reads: a read outside the file
gives `none`. Where it gives a position it is that of `seekDb`. The main theorem, `seekDbEn_lineas`,
says that in a file of lines with increasing serials, whatever else is in them, it always gives the
beginning of the first line that is not older than the record. The proof follows the beginnings of
lines: none of them is between the one that a round compares and the one behind the middle.
-/

namespace Ircd.Bdd

open CString

/-! ## The search -/

/-- `while ((p >= plo) && (*p != '\n')) p--; if (p < plo) p = plo;` with `k` bytes from `plo`
to `p`. -/
def retrocede (s : List Char) (plo : Nat) : Nat → Option Nat
  | 0 => some plo
  | k + 1 => do if (← s[plo + k]?) = '\n' then some (plo + k) else retrocede s plo k

/-- `while ((p2 < phi) && (*p2++ != '\n'));` with `k` bytes from `p2` to `phi`. -/
def avanza (s : List Char) (p2 : Nat) : Nat → Option Nat
  | 0 => some p2
  | k + 1 => do if (← s[p2]?) = '\n' then some (p2 + 1) else avanza s (p2 + 1) k

/-- The beginning of the record at the middle: `if (*p == '\n') p++`. -/
def principioDe (s : List Char) (plo k : Nat) : Option Nat := do
  let p ← retrocede s plo k
  if (← s[p]?) = '\n' then some (p + 1) else some p

/-- The sign of a number is left out. -/
def sinSigno : List Char → List Char
  | '-' :: s => s
  | '+' :: s => s
  | s => s

/-- `atol` reads up to the first byte that is not a digit. -/
def atolEn (s : List Char) (p : Nat) : Option Int :=
  if (sinSigno ((s.drop p).dropWhile isSpace)).dropWhile Char.isDigit = [] then none
  else some (atol (s.drop p))

/-- The loop. -/
def bisecciona (s : List Char) (registro : Nat) : Nat → Nat → Nat → Option Nat
  | 0, plo, phi => if plo = phi then some plo else none
  | fuel + 1, plo, phi =>
      if plo = phi then some plo
      else do
        let mitad := (phi - plo) / 2
        let p ← principioDe s plo (mitad + 1)
        let p2 ← avanza s (plo + mitad) (phi - (plo + mitad))
        let v := toUnsigned (← atolEn s p)
        if registro < v then bisecciona s registro fuel plo p
        else if v < registro then bisecciona s registro fuel p2 phi
        else some p

/-- `seek_db`: the read pointer that it leaves for `leer_db`. -/
def seekDbEn (s : List Char) (registro : Nat) : Option Nat :=
  if registro = 0 then some 0 else bisecciona s registro s.length 0 s.length

/-! ## Beginnings of lines -/

/-- A position where a line begins, or the end of a file whose last line is ended. -/
def Principio (s : List Char) (i : Nat) : Prop :=
  i ≤ s.length ∧ (i = 0 ∨ s[i - 1]? = some '\n')

variable {s : List Char} {plo phi k p i : Nat}

theorem principio_zero (s : List Char) : Principio s 0 :=
  ⟨Nat.zero_le _, .inl rfl⟩

/-- Behind a line end a line begins. -/
theorem principio_succ (h : s[p]? = some '\n') : Principio s (p + 1) :=
  ⟨(List.getElem?_eq_some_iff.mp h).1, .inr h⟩

/-- The way back ends at the last line end, or at `plo`. -/
theorem retrocede_spec (hk : plo + k ≤ s.length) : ∃ p, retrocede s plo k = some p ∧
    (s[p]? = some '\n' ∧ plo ≤ p ∧ p < plo + k ∨
      p = plo ∧ ∀ j, plo ≤ j → j < plo + k → s[j]? ≠ some '\n') ∧
    ∀ j, p < j → j < plo + k → s[j]? ≠ some '\n' := by
  induction k with
  | zero => exact ⟨plo, rfl, .inr ⟨rfl, fun j h h' ↦ by omega⟩, fun j h h' ↦ by omega⟩
  | succ k ih =>
      obtain ⟨c, hc⟩ : ∃ c, s[plo + k]? = some c :=
        ⟨_, List.getElem?_eq_getElem (show plo + k < s.length by omega)⟩
      simp only [retrocede, hc, Option.bind_eq_bind, Option.bind_some]
      by_cases hnl : c = '\n'
      · rw [if_pos hnl]
        exact ⟨plo + k, rfl, .inl ⟨by rw [hc, hnl], by omega, by omega⟩, fun j h h' ↦ by omega⟩
      · -- The byte is not a line end, and the ones before it are those of `k`.
        have hlast : ∀ j, j < plo + (k + 1) → ¬j < plo + k → s[j]? ≠ some '\n' := by
          intro j h h' heq
          rw [show j = plo + k by omega, hc] at heq
          exact hnl (Option.some.inj heq)
        obtain ⟨p, hp, hcase, hafter⟩ := ih (by omega)
        rw [if_neg hnl]
        refine ⟨p, hp, ?_, fun j h h' ↦ ?_⟩
        · rcases hcase with ⟨h, hle, hlt⟩ | ⟨rfl, hno⟩
          · exact .inl ⟨h, hle, by omega⟩
          · refine .inr ⟨rfl, fun j h h' ↦ ?_⟩
            by_cases hj : j < p + k
            · exact hno j h hj
            · exact hlast j h' hj
        · by_cases hj : j < plo + k
          · exact hafter j h hj
          · exact hlast j h' hj

/-- The record at the middle begins at the last beginning before the middle or, if the middle is a
line end, behind it. -/
theorem principioDe_spec (hplo : Principio s plo) (hk : plo + (k + 1) ≤ s.length) :
    ∃ p, principioDe s plo (k + 1) = some p ∧ Principio s p ∧ plo ≤ p ∧ p ≤ plo + k + 1 ∧
      ∀ i, Principio s i → i ≤ plo + k → i ≤ p := by
  obtain ⟨p, hp, hcase, hafter⟩ := retrocede_spec hk
  have hbefore : ∀ i, Principio s i → i ≤ plo + k → i ≤ p + 1 := by
    intro i hi hik
    by_contra hlt
    refine hafter (i - 1) (by omega) (by omega) ?_
    exact hi.2.resolve_left (by omega)
  simp only [principioDe, hp, Option.bind_eq_bind, Option.bind_some]
  rcases hcase with ⟨hnl, hle, hlt⟩ | ⟨rfl, hno⟩
  · rw [hnl]
    exact ⟨p + 1, rfl, principio_succ hnl, by omega, by omega, hbefore⟩
  · obtain ⟨c, hc⟩ : ∃ c, s[p]? = some c :=
      ⟨_, List.getElem?_eq_getElem (show p < s.length by omega)⟩
    have hne : c ≠ '\n' := fun heq ↦ hno p (Nat.le_refl p) (by omega) (by rw [hc, heq])
    simp only [hc, Option.bind_some, if_neg hne]
    refine ⟨p, rfl, hplo, Nat.le_refl p, by omega, fun i hi hik ↦ ?_⟩
    by_contra hlt
    exact hno (i - 1) (by omega) (by omega) (hi.2.resolve_left (by omega))

/-- The way forward ends at the first beginning behind the middle. -/
theorem avanza_spec (hphi : Principio s (p + (k + 1))) : ∃ p2, avanza s p (k + 1) = some p2 ∧
    Principio s p2 ∧ p < p2 ∧ p2 ≤ p + (k + 1) ∧ ∀ i, Principio s i → p < i → p2 ≤ i := by
  induction k generalizing p with
  | zero =>
      have hnl : s[p]? = some '\n' := hphi.2.resolve_left (by omega)
      simp only [avanza, hnl, Option.bind_eq_bind, Option.bind_some, if_true]
      exact ⟨p + 1, rfl, hphi, by omega, by omega, fun i _ h ↦ h⟩
  | succ k ih =>
      have hlen := hphi.1
      obtain ⟨c, hc⟩ : ∃ c, s[p]? = some c :=
        ⟨_, List.getElem?_eq_getElem (show p < s.length by omega)⟩
      rw [avanza]
      simp only [hc, Option.bind_eq_bind, Option.bind_some]
      by_cases hnl : c = '\n'
      · rw [if_pos hnl]
        exact ⟨p + 1, rfl, principio_succ (by rw [hc, hnl]), by omega, by omega, fun i _ h ↦ h⟩
      · rw [if_neg hnl]
        obtain ⟨p2, havanza, hp2, hlt, hle, hfirst⟩ :=
          ih (show Principio s (p + 1 + (k + 1)) by rwa [Nat.add_assoc p, Nat.add_comm 1])
        refine ⟨p2, havanza, hp2, by omega, by omega, fun i hi hpi ↦ hfirst i hi ?_⟩
        by_contra hno
        have hi' := hi.2.resolve_left (by omega)
        rw [show i - 1 = p by omega, hc] at hi'
        exact hnl (Option.some.inj hi')

/-! ## The search of the abstract model -/

/-- The bytes from `plo` on, cut at the last line end. -/
theorem inicioLinea_eq (hk : plo + (k + 1) ≤ s.length) (hp : principioDe s plo (k + 1) = some p) :
    inicioLinea s plo (plo + k) = p := by
  obtain ⟨q, hq, hcase, hafter⟩ := retrocede_spec hk
  obtain ⟨seg, hseg⟩ : ∃ seg, seg = (s.take (plo + k + 1)).drop plo := ⟨_, rfl⟩
  have hlen : seg.length = k + 1 := by
    rw [hseg, List.length_drop, List.length_take]
    omega
  have hget : ∀ j, j < k + 1 → seg[j]? = s[plo + j]? := by
    intro j hj
    rw [hseg, List.getElem?_drop, List.getElem?_take_of_lt (by omega)]
  have hscan : ∀ l : List Char, '\n' ∉ l → ∀ x ∈ l.reverse, (x != '\n') = true :=
    fun l hl ↦ bne_of_not_mem fun h ↦ hl (List.mem_reverse.mp h)
  rw [inicioLinea, ← hseg]
  rcases hcase with ⟨hnl, hle, hlt⟩ | ⟨rfl, hno⟩
  · obtain ⟨j, rfl⟩ := Nat.exists_eq_add_of_le hle
    have hsplit : seg = seg.take j ++ '\n' :: seg.drop (j + 1) := by
      have hj : seg[j]? = some '\n' := by rw [hget j (by omega), hnl]
      obtain ⟨hjlt, hj⟩ := List.getElem?_eq_some_iff.mp hj
      rw [← hj, ← List.drop_eq_getElem_cons hjlt, List.take_append_drop]
    have hdrop : '\n' ∉ seg.drop (j + 1) := by
      intro hmem
      obtain ⟨i, hi⟩ := List.mem_iff_getElem?.mp hmem
      rw [List.getElem?_drop] at hi
      have hilt : j + 1 + i < k + 1 := by
        have := (List.getElem?_eq_some_iff.mp hi).1
        omega
      rw [hget _ hilt] at hi
      exact hafter _ (by omega) (by omega) hi
    have htake : seg.reverse.takeWhile (· != '\n') = (seg.drop (j + 1)).reverse := by
      have hrev : seg.reverse = (seg.drop (j + 1)).reverse ++ '\n' :: (seg.take j).reverse := by
        conv_lhs => rw [hsplit]
        simp
      rw [hrev]
      exact takeWhile_stop _ (hscan _ hdrop) rfl
    simp only [principioDe, hq, hnl, Option.bind_eq_bind, Option.bind_some, if_true,
      Option.some.injEq] at hp
    rw [htake, List.length_reverse, List.length_drop, hlen]
    omega
  · have hall : '\n' ∉ seg := by
      intro hmem
      obtain ⟨i, hi⟩ := List.mem_iff_getElem?.mp hmem
      have hilt : i < k + 1 := by
        have := (List.getElem?_eq_some_iff.mp hi).1
        omega
      rw [hget i hilt] at hi
      exact hno _ (by omega) (by omega) hi
    obtain ⟨c, hc⟩ : ∃ c, s[q]? = some c :=
      ⟨_, List.getElem?_eq_getElem (show q < s.length by omega)⟩
    have hne : c ≠ '\n' := fun heq ↦ hno q (Nat.le_refl q) (by omega) (by rw [hc, heq])
    simp only [principioDe, hq, hc, Option.bind_eq_bind, Option.bind_some, if_neg hne,
      Option.some.injEq] at hp
    rw [List.takeWhile_eq_self_iff.mpr (hscan seg hall), List.length_reverse, hlen]
    omega

/-- The bytes from the middle on, cut behind the first line end. -/
theorem finDeLinea_eq (hk : p + k ≤ s.length) {p2 : Nat} (hp2 : avanza s p k = some p2) :
    finDeLinea s p (p + k) = p2 := by
  induction k generalizing p with
  | zero =>
      have hnil : (s.take (p + 0)).drop p = [] := List.drop_eq_nil_of_le (by simp)
      rw [finDeLinea, hnil]
      exact Option.some.inj hp2
  | succ k ih =>
      have hp : p < s.length := by omega
      have hcons : (s.take (p + (k + 1))).drop p = s[p] :: (s.take (p + 1 + k)).drop (p + 1) := by
        have hlt : p < (s.take (p + (k + 1))).length := by
          rw [List.length_take]
          omega
        rw [List.drop_eq_getElem_cons hlt, List.getElem_take, Nat.add_assoc p 1, Nat.add_comm 1]
      simp only [avanza, List.getElem?_eq_getElem hp, Option.bind_eq_bind, Option.bind_some] at hp2
      by_cases hnl : s[p] = '\n'
      · rw [if_pos hnl] at hp2
        rw [finDeLinea, hcons, hnl, List.dropWhile_cons_of_neg (by simp), List.tail_cons,
          List.length_drop, List.length_take]
        have := Option.some.inj hp2
        omega
      · rw [if_neg hnl] at hp2
        rw [← ih (by omega) hp2, finDeLinea, finDeLinea, hcons,
          List.dropWhile_cons_of_pos (by simp [hnl]), Nat.add_assoc p, Nat.add_comm 1]

/-- The record at the middle does not begin before `plo`, nor behind the byte after the middle. -/
theorem principioDe_bounds (hk : plo + (k + 1) ≤ s.length)
    (hp : principioDe s plo (k + 1) = some p) : plo ≤ p ∧ p ≤ plo + k + 1 := by
  obtain ⟨q, hq, hcase, -⟩ := retrocede_spec hk
  have hqp : p = q ∨ p = q + 1 := by
    simp only [principioDe, hq, Option.bind_eq_bind, Option.bind_some] at hp
    obtain ⟨c, -, hc⟩ := Option.bind_eq_some_iff.mp hp
    split at hc
    · exact .inr (Option.some.inj hc).symm
    · exact .inl (Option.some.inj hc).symm
  rcases hcase with ⟨-, hle, hlt⟩ | ⟨rfl, -⟩ <;> omega

/-- The way forward stays between the middle and `phi`. -/
theorem avanza_bounds {p2 : Nat} (hp2 : avanza s p k = some p2) : p ≤ p2 ∧ p2 ≤ p + k := by
  induction k generalizing p with
  | zero =>
      have := Option.some.inj hp2
      omega
  | succ k ih =>
      obtain ⟨c, -, hc⟩ := Option.bind_eq_some_iff.mp hp2
      split at hc
      · have := Option.some.inj hc
        omega
      · have := ih hc
        omega

/-- Where the loop stays inside the file it is the loop of the abstract search. -/
theorem buscaLinea_eq {registro fuel : Nat} (hle : plo ≤ phi) (hphi : phi ≤ s.length)
    (h : bisecciona s registro fuel plo phi = some i) :
    buscaLinea s registro fuel plo phi = i := by
  induction fuel generalizing plo phi with
  | zero =>
      rw [bisecciona] at h
      split at h
      · exact Option.some.inj h
      · cases h
  | succ fuel ih =>
      rw [bisecciona] at h
      rw [buscaLinea]
      split at h
      · next heq =>
          rw [if_pos heq]
          exact Option.some.inj h
      · next hne =>
          obtain ⟨mitad, hmitad⟩ : ∃ k, k = (phi - plo) / 2 := ⟨_, rfl⟩
          have hk : plo + (mitad + 1) ≤ s.length := by omega
          have hfin : plo + mitad + (phi - (plo + mitad)) = phi := by omega
          simp only [← hmitad] at h ⊢
          obtain ⟨p, hp, h⟩ := Option.bind_eq_some_iff.mp h
          obtain ⟨p2, hp2, h⟩ := Option.bind_eq_some_iff.mp h
          obtain ⟨v, hv, h⟩ := Option.bind_eq_some_iff.mp h
          have hbounds := principioDe_bounds hk hp
          have hbounds2 := avanza_bounds hp2
          have hfinDe := finDeLinea_eq (by omega) hp2
          rw [hfin] at hfinDe
          have hatol : atol (s.drop p) = v := by
            rw [atolEn] at hv
            split at hv
            · cases hv
            · exact Option.some.inj hv
          rw [if_neg hne]
          simp only [inicioLinea_eq hk hp, hfinDe, hatol]
          split at h
          · next hgt =>
              rw [if_pos hgt]
              exact ih hbounds.1 (by omega) h
          · next hgt =>
              rw [if_neg hgt]
              split at h
              · next hlt =>
                  rw [if_pos hlt]
                  exact ih (by omega) hphi h
              · next hlt =>
                  rw [if_neg hlt]
                  exact Option.some.inj h

/-- Where `seek_db` stays inside the file and ends, it leaves the position of `seekDb`. -/
theorem seekDb_eq {registro : Nat} (h : seekDbEn s registro = some i) : seekDb s registro = i := by
  rw [seekDbEn] at h
  rw [seekDb]
  split at h
  · next hcero =>
      rw [if_pos hcero]
      exact Option.some.inj h
  · next hcero =>
      rw [if_neg hcero]
      exact buscaLinea_eq (Nat.zero_le _) (Nat.le_refl _) h

/-! ## The search finds the line -/

/-- A file whose lines have at least three bytes and begin with serials that increase. -/
structure Ordenado (s : List Char) (serie : Nat → Nat) : Prop where
  final : Principio s s.length
  largo : ∀ i j, Principio s i → Principio s j → i < j → i + 3 ≤ j
  crece : ∀ i j, Principio s i → Principio s j → i < j → j < s.length → serie i < serie j
  lee : ∀ i, Principio s i → i < s.length → (atolEn s i).map toUnsigned = some (serie i)

/-- The interval that is left: before it are older lines, and behind it newer ones. -/
structure Acotado (s : List Char) (serie : Nat → Nat) (registro plo phi : Nat) : Prop where
  le : plo ≤ phi
  desde : Principio s plo
  hasta : Principio s phi
  antes : ∀ i, Principio s i → i < plo → serie i < registro
  despues : ∀ i, Principio s i → phi ≤ i → i < s.length → registro < serie i

section

variable {serie : Nat → Nat} {registro : Nat}

/-- The position is that of the first line that is not older than the record. -/
structure Primera (s : List Char) (serie : Nat → Nat) (registro i : Nat) : Prop where
  principio : Principio s i
  antes : ∀ j, Principio s j → j < i → serie j < registro
  despues : ∀ j, Principio s j → i ≤ j → j < s.length → registro ≤ serie j

/-- One round ends, or it leaves a smaller interval. -/
theorem Acotado.ronda (hs : Ordenado s serie) (h : Acotado s serie registro plo phi)
    (hne : plo ≠ phi) (fuel : Nat) : ∃ plo' phi',
      (bisecciona s registro (fuel + 1) plo phi = bisecciona s registro fuel plo' phi' ∧
        Acotado s serie registro plo' phi' ∧ phi' - plo' < phi - plo) ∨
      bisecciona s registro (fuel + 1) plo phi = some plo' ∧ Primera s serie registro plo' := by
  have hle := h.le
  have hphi := h.hasta.1
  obtain ⟨mitad, hmitad⟩ : ∃ k, k = (phi - plo) / 2 := ⟨_, rfl⟩
  obtain ⟨resto, hresto⟩ : ∃ k, k = phi - (plo + mitad) - 1 := ⟨_, rfl⟩
  obtain ⟨p, hp, hprincipio, hplop, hpm, hantes⟩ :=
    principioDe_spec (k := mitad) h.desde (by omega)
  obtain ⟨p2, hp2, hprincipio2, hmp2, hp2phi, hdespues⟩ :=
    avanza_spec (show Principio s (plo + mitad + (resto + 1)) by
      rw [show plo + mitad + (resto + 1) = phi by omega]
      exact h.hasta)
  have hlargo := hs.largo plo phi h.desde h.hasta (by omega)
  have hpphi : p < phi := by omega
  obtain ⟨a, ha, hserie⟩ := Option.map_eq_some_iff.mp (hs.lee p hprincipio (by omega))
  have hround : bisecciona s registro (fuel + 1) plo phi =
      if registro < serie p then bisecciona s registro fuel plo p
      else if serie p < registro then bisecciona s registro fuel p2 phi
      else some p := by
    rw [bisecciona, if_neg hne]
    simp only [← hmitad, show phi - (plo + mitad) = resto + 1 by omega, hp, hp2, ha, hserie,
      Option.bind_eq_bind, Option.bind_some]
  -- No beginning is between the two that the round has found.
  have hhueco : ∀ i, Principio s i → i < p2 → i ≤ p := by
    intro i hi hlt
    refine hantes i hi ?_
    by_contra hmi
    have := hdespues i hi (by omega)
    omega
  have hmenor : ∀ i, Principio s i → i < p → serie i < serie p := fun i hi hlt ↦
    hs.crece i p hi hprincipio hlt (by omega)
  have hmayor : ∀ i, Principio s i → p < i → i < s.length → serie p < serie i := fun i hi hlt ↦
    hs.crece p i hprincipio hi hlt
  rw [hround]
  by_cases hgt : registro < serie p
  · rw [if_pos hgt]
    refine ⟨plo, p, .inl ⟨rfl, ⟨hplop, h.desde, hprincipio, h.antes, fun i hi hpi hlen ↦ ?_⟩, by omega⟩⟩
    rcases Nat.eq_or_lt_of_le hpi with rfl | hlt
    · exact hgt
    · exact Nat.lt_trans hgt (hmayor i hi hlt hlen)
  · rw [if_neg hgt]
    by_cases hlt : serie p < registro
    · rw [if_pos hlt]
      refine ⟨p2, phi, .inl ⟨rfl, ⟨by omega, hprincipio2, h.hasta, fun i hi hip ↦ ?_, h.despues⟩,
        by omega⟩⟩
      rcases Nat.eq_or_lt_of_le (hhueco i hi hip) with rfl | hip
      · exact hlt
      · exact Nat.lt_trans (hmenor i hi hip) hlt
    · have heq : serie p = registro := by omega
      rw [if_neg hlt]
      refine ⟨p, 0, .inr ⟨rfl, hprincipio, fun i hi hip ↦ heq ▸ hmenor i hi hip, ?_⟩⟩
      intro i hi hpi hlen
      rcases Nat.eq_or_lt_of_le hpi with rfl | hlt
      · exact Nat.le_of_eq heq.symm
      · exact Nat.le_of_lt (heq ▸ hmayor i hi hlt hlen)

/-- The loop ends, at the first line that is not older. -/
theorem Acotado.bisecciona (hs : Ordenado s serie) {fuel : Nat}
    (h : Acotado s serie registro plo phi) (hfuel : phi - plo ≤ fuel) :
    ∃ i, bisecciona s registro fuel plo phi = some i ∧ Primera s serie registro i := by
  have hfin : plo = phi → Primera s serie registro plo := by
    rintro rfl
    exact ⟨h.desde, h.antes, fun i hi hpi hlen ↦ Nat.le_of_lt (h.despues i hi hpi hlen)⟩
  induction fuel generalizing plo phi with
  | zero =>
      have hle := h.le
      have heq : plo = phi := by omega
      exact ⟨plo, by rw [Bdd.bisecciona, if_pos heq], hfin heq⟩
  | succ fuel ih =>
      by_cases heq : plo = phi
      · exact ⟨plo, by rw [Bdd.bisecciona, if_pos heq], hfin heq⟩
      · obtain ⟨plo', phi', ⟨hround, h', hlt⟩ | ⟨hround, hprimera⟩⟩ := h.ronda hs heq fuel
        · rw [hround]
          refine ih h' (by omega) ?_
          rintro rfl
          exact ⟨h'.desde, h'.antes, fun i hi hpi hlen ↦ Nat.le_of_lt (h'.despues i hi hpi hlen)⟩
        · exact ⟨plo', hround, hprimera⟩

/-- `seek_db` reads inside the file and finds the first line that is not older. -/
theorem Ordenado.seekDbEn (hs : Ordenado s serie) (registro : Nat) :
    ∃ i, seekDbEn s registro = some i ∧ Primera s serie registro i := by
  rw [Bdd.seekDbEn]
  split
  · next hcero =>
      exact ⟨0, rfl, principio_zero s, fun j _ h ↦ by omega, fun j _ _ _ ↦ by omega⟩
  · refine Acotado.bisecciona hs ⟨Nat.zero_le _, principio_zero s, hs.final, ?_, ?_⟩ (by omega)
    · exact fun i _ h ↦ by omega
    · exact fun i _ h h' ↦ by omega

end

/-! ## Files of lines -/

/-- A line: a serial and whatever follows it, with at least three bytes in all. -/
structure Renglon where
  cifras : CStr
  resto : CStr
  cifras_ne : cifras ≠ []
  isDigit : ∀ c ∈ cifras, c.isDigit = true
  resto_head : resto.head?.all fun c ↦ !c.isDigit
  plain : '\n' ∉ resto
  largo : 3 ≤ cifras.length + resto.length + 1

namespace Renglon

/-- The serial. -/
def serie (l : Renglon) : Nat :=
  Nat.ofDigitChars 10 l.cifras 0

/-- The bytes of the line, with its end. -/
def texto (l : Renglon) : List Char :=
  l.cifras ++ l.resto ++ ['\n']

end Renglon

/-- The bytes of a file. -/
def bytesDe (ls : List Renglon) : List Char :=
  ls.flatMap Renglon.texto

theorem bytesDe_append (xs ys : List Renglon) : bytesDe (xs ++ ys) = bytesDe xs ++ bytesDe ys :=
  List.flatMap_append

theorem bytesDe_cons (l : Renglon) (ls : List Renglon) : bytesDe (l :: ls) = l.texto ++ bytesDe ls :=
  List.flatMap_cons

/-- A line ends with its only line end. -/
theorem Renglon.exists_texto (l : Renglon) :
    ∃ u, l.texto = u ++ ['\n'] ∧ '\n' ∉ u ∧ 2 ≤ u.length := by
  refine ⟨l.cifras ++ l.resto, rfl, fun h ↦ ?_, ?_⟩
  · rcases List.mem_append.mp h with h | h
    · exact absurd (l.isDigit '\n' h) (by decide)
    · exact l.plain h
  · have hlargo := l.largo
    rw [List.length_append]
    omega

/-- A line begins where lines end. -/
theorem principio_bytesDe {ls : List Renglon} {i : Nat} :
    Principio (bytesDe ls) i ↔ ∃ xs ys, ls = xs ++ ys ∧ i = (bytesDe xs).length := by
  induction ls generalizing i with
  | nil =>
      constructor
      · intro h
        exact ⟨[], [], rfl, Nat.le_zero.mp h.1⟩
      · rintro ⟨xs, ys, h, rfl⟩
        obtain ⟨rfl, rfl⟩ := List.nil_eq_append_iff.mp h
        exact principio_zero _
  | cons l ls ih =>
      obtain ⟨u, hu, hno, -⟩ := l.exists_texto
      have hbytes : bytesDe (l :: ls) = (u ++ ['\n']) ++ bytesDe ls := by rw [bytesDe_cons, hu]
      have hlen : (u ++ ['\n']).length = u.length + 1 := by simp
      -- Behind the line, the beginnings are those of the other lines.
      have hshift : ∀ j, Principio (bytesDe (l :: ls)) (u.length + 1 + j) ↔
          Principio (bytesDe ls) j := by
        intro j
        rw [Principio, Principio, hbytes, List.length_append, hlen]
        refine and_congr (by omega) ?_
        cases j with
        | zero => simp
        | succ j =>
            have hbehind : ((u ++ ['\n']) ++ bytesDe ls)[u.length + 1 + j]? = (bytesDe ls)[j]? := by
              rw [List.getElem?_append_right (by omega), hlen]
              congr 1
              omega
            rw [show u.length + 1 + (j + 1) - 1 = u.length + 1 + j by omega, hbehind,
              Nat.add_sub_cancel]
            exact or_congr (by omega) Iff.rfl
      constructor
      · intro h
        by_cases hcero : i = 0
        · exact ⟨[], l :: ls, rfl, hcero⟩
        · have hi : u.length + 1 ≤ i := by
            by_contra hlt
            have hnl := h.2.resolve_left hcero
            rw [hbytes, List.append_assoc, List.getElem?_append_left (by omega)] at hnl
            exact hno (List.mem_of_getElem? hnl)
          obtain ⟨j, rfl⟩ := Nat.exists_eq_add_of_le hi
          obtain ⟨xs, ys, rfl, rfl⟩ := ih.mp ((hshift j).mp h)
          refine ⟨l :: xs, ys, rfl, ?_⟩
          rw [bytesDe_cons, List.length_append, hu, hlen]
      · rintro ⟨xs, ys, hsplit, rfl⟩
        cases xs with
        | nil => exact principio_zero _
        | cons l' xs =>
            obtain ⟨rfl, hls⟩ := List.cons.inj hsplit
            rw [bytesDe_cons l xs, List.length_append, hu, hlen]
            exact (hshift _).mpr (ih.mpr ⟨xs, ys, hls, rfl⟩)

/-- The serial of a line is read inside the file. -/
theorem Renglon.atolEn_texto (l : Renglon) (a b : List Char) :
    atolEn (a ++ (l.texto ++ b)) a.length = some (min (2 ^ 63 - 1) (l.serie : Int)) := by
  obtain ⟨c, cs, hcs⟩ := List.exists_cons_of_ne_nil l.cifras_ne
  have hc : c.isDigit = true := l.isDigit c (by simp [hcs])
  have hdrop : (a ++ (l.texto ++ b)).drop a.length = l.cifras ++ (l.resto ++ '\n' :: b) := by
    rw [List.drop_left, Renglon.texto]
    simp
  have hhead : (l.resto ++ '\n' :: b).head?.all fun c ↦ !c.isDigit := by
    have hresto := l.resto_head
    cases hr : l.resto with
    | nil => rfl
    | cons r rs => simpa [hr] using hresto
  have hspace : (l.cifras ++ (l.resto ++ '\n' :: b)).dropWhile isSpace =
      l.cifras ++ (l.resto ++ '\n' :: b) := by
    simp [hcs, isSpace_of_isDigit hc]
  have hsigno : sinSigno (l.cifras ++ (l.resto ++ '\n' :: b)) =
      l.cifras ++ (l.resto ++ '\n' :: b) := by
    rw [hcs, List.cons_append]
    unfold sinSigno
    split
    · next heq => exact absurd hc (by rw [(List.cons.inj heq).1]; decide)
    · next heq => exact absurd hc (by rw [(List.cons.inj heq).1]; decide)
    · rfl
  have hfin : (l.cifras ++ (l.resto ++ '\n' :: b)).dropWhile Char.isDigit ≠ [] := by
    intro hnil
    have hall := List.dropWhile_eq_nil_iff.mp hnil '\n' (by simp)
    exact absurd hall (by decide)
  rw [atolEn, hdrop, hspace, hsigno, if_neg hfin, atol_cifras l.cifras_ne l.isDigit hhead]
  rfl

/-- A line is not empty. -/
theorem length_bytesDe_lt (xs : List Renglon) (l : Renglon) (ys : List Renglon) :
    (bytesDe xs).length < (bytesDe (xs ++ l :: ys)).length := by
  obtain ⟨u, hu, -, -⟩ := l.exists_texto
  rw [bytesDe_append, bytesDe_cons, hu, List.length_append, List.length_append, List.length_append,
    List.length_singleton]
  omega

/-- Two beginnings have a line between them. -/
theorem exists_entre {ls : List Renglon} {i j : Nat} (hi : Principio (bytesDe ls) i)
    (hj : Principio (bytesDe ls) j) (hij : i < j) : ∃ xs l ms ys, ls = xs ++ l :: (ms ++ ys) ∧
      i = (bytesDe xs).length ∧ j = (bytesDe (xs ++ l :: ms)).length := by
  obtain ⟨xs, ys, rfl, rfl⟩ := principio_bytesDe.mp hi
  obtain ⟨xs', ys', hsplit, rfl⟩ := principio_bytesDe.mp hj
  rcases List.append_eq_append_iff.mp hsplit with ⟨ms, rfl, rfl⟩ | ⟨ms, rfl, rfl⟩
  · cases ms with
    | nil =>
        rw [List.append_nil] at hij
        exact absurd hij (Nat.lt_irrefl _)
    | cons l ms => exact ⟨xs, l, ms, ys', rfl, rfl, rfl⟩
  · rw [bytesDe_append, List.length_append] at hij
    omega

/-- A file of lines whose serials increase and fit into an `unsigned int`. -/
theorem ordenado_bytesDe {ls : List Renglon} (hcrece : ls.Pairwise fun l l' ↦ l.serie < l'.serie)
    (hserie : ∀ l ∈ ls, l.serie < 2 ^ 32) : ∃ serie, Ordenado (bytesDe ls) serie ∧
      ∀ xs l ys, ls = xs ++ l :: ys → serie (bytesDe xs).length = l.serie := by
  have hlee : ∀ xs l ys, ls = xs ++ l :: ys →
      (atolEn (bytesDe ls) (bytesDe xs).length).map toUnsigned = some l.serie := by
    rintro xs l ys rfl
    have hl := hserie l (by simp)
    rw [bytesDe_append, bytesDe_cons, l.atolEn_texto, Int.min_eq_right (by omega), Option.map_some,
      toUnsigned_of_lt hl]
  refine ⟨fun i ↦ ((atolEn (bytesDe ls) i).map toUnsigned).getD 0, ⟨?_, ?_, ?_, ?_⟩, ?_⟩
  · exact principio_bytesDe.mpr ⟨ls, [], (List.append_nil ls).symm, rfl⟩
  · intro i j hi hj hij
    obtain ⟨xs, l, ms, ys, -, rfl, rfl⟩ := exists_entre hi hj hij
    obtain ⟨u, hu, -, hlen⟩ := l.exists_texto
    rw [bytesDe_append, bytesDe_cons, List.length_append, List.length_append, hu,
      List.length_append, List.length_singleton]
    omega
  · intro i j hi hj hij hfin
    obtain ⟨xs, l, ms, ys, rfl, rfl, rfl⟩ := exists_entre hi hj hij
    cases ys with
    | nil =>
        rw [List.append_nil] at hfin
        exact absurd hfin (Nat.lt_irrefl _)
    | cons l' ys =>
        have hl := hlee xs l (ms ++ l' :: ys) rfl
        have hl' := hlee (xs ++ l :: ms) l' ys (by simp)
        show Option.getD _ 0 < Option.getD _ 0
        rw [hl, hl']
        have htail := (List.pairwise_append.mp hcrece).2.1
        exact (List.pairwise_cons.mp htail).1 l' (by simp)
  · intro i hi hfin
    obtain ⟨xs, ys, hsplit, rfl⟩ := principio_bytesDe.mp hi
    cases ys with
    | nil =>
        rw [List.append_nil] at hsplit
        rw [hsplit] at hfin
        exact absurd hfin (Nat.lt_irrefl _)
    | cons l ys =>
        have hl := hlee xs l ys hsplit
        simp [hl]
  · intro xs l ys hsplit
    have hl := hlee xs l ys hsplit
    simp [hl]

/-- `seek_db` on a file of lines with at least three bytes, whose serials increase and are those of
an `unsigned int`: it ends, reads only inside the file, and leaves the pointer behind the lines that
are older than the record. -/
theorem seekDbEn_lineas (ls : List Renglon)
    (hcrece : ls.Pairwise fun l l' ↦ l.serie < l'.serie) (hserie : ∀ l ∈ ls, l.serie < 2 ^ 32)
    (registro : Nat) : ∃ xs ys, ls = xs ++ ys ∧
      seekDbEn (bytesDe ls) registro = some (bytesDe xs).length ∧
      (∀ l ∈ xs, l.serie < registro) ∧ ∀ l ∈ ys, registro ≤ l.serie := by
  obtain ⟨serie, hs, hlee⟩ := ordenado_bytesDe hcrece hserie
  obtain ⟨i, hi, hprimera⟩ := hs.seekDbEn registro
  obtain ⟨xs, ys, hsplit, rfl⟩ := principio_bytesDe.mp hprimera.principio
  refine ⟨xs, ys, hsplit, hi, fun l hl ↦ ?_, fun l hl ↦ ?_⟩
  · obtain ⟨a, b, rfl⟩ := List.append_of_mem hl
    have hprincipio : Principio (bytesDe ls) (bytesDe a).length :=
      principio_bytesDe.mpr ⟨a, l :: b ++ ys, by simp [hsplit], rfl⟩
    rw [← hlee a l (b ++ ys) (show ls = a ++ l :: (b ++ ys) by simp [hsplit])]
    exact hprimera.antes _ hprincipio (length_bytesDe_lt a l b)
  · obtain ⟨a, b, rfl⟩ := List.append_of_mem hl
    have hprincipio : Principio (bytesDe ls) (bytesDe (xs ++ a)).length :=
      principio_bytesDe.mpr ⟨xs ++ a, l :: b, by simp [hsplit], rfl⟩
    rw [← hlee (xs ++ a) l b (show ls = xs ++ a ++ l :: b by simp [hsplit])]
    refine hprimera.despues _ hprincipio ?_ ?_
    · rw [bytesDe_append, List.length_append]
      omega
    · rw [hsplit, ← List.append_assoc]
      exact length_bytesDe_lt (xs ++ a) l b

/-- Two lines, the second with a zero in front of its serial. -/
def renglonesDos : List Renglon :=
  [⟨"12".toList, " A x".toList, by decide, by simp, by decide, by decide, by decide⟩,
    ⟨"0345".toList, [], by decide, by simp, by decide, by decide, by decide⟩]

/-- The second of two lines is the first that is not older. -/
theorem seekDbEn_lineas_dos : bytesDe renglonesDos = "12 A x\n0345\n".toList ∧
    seekDbEn (bytesDe renglonesDos) 13 = some 7 ∧
    ∃ xs ys, renglonesDos = xs ++ ys ∧
      seekDbEn (bytesDe renglonesDos) 13 = some (bytesDe xs).length ∧
      (∀ l ∈ xs, l.serie < 13) ∧ ∀ l ∈ ys, 13 ≤ l.serie :=
  ⟨by decide, by decide, seekDbEn_lineas renglonesDos (by decide) (by decide) 13⟩

/-- A serial that does not fit into an `unsigned int`. -/
def renglonGrande : Renglon :=
  ⟨"4294967297".toList, " x".toList, by decide, by simp, by decide, by decide, by decide⟩

/-- A serial that does not fit is compared without its upper bits, and the line is passed over. -/
theorem not_seekDbEn_lineas :
    seekDbEn (bytesDe [renglonGrande]) 2 = some (bytesDe [renglonGrande]).length ∧
      2 ≤ renglonGrande.serie ∧
      ¬∃ xs ys, [renglonGrande] = xs ++ ys ∧
        seekDbEn (bytesDe [renglonGrande]) 2 = some (bytesDe xs).length ∧
        (∀ l ∈ xs, l.serie < 2) ∧ ∀ l ∈ ys, 2 ≤ l.serie := by
  have hseek : seekDbEn (bytesDe [renglonGrande]) 2 = some (bytesDe [renglonGrande]).length := by
    decide
  have hserie : 2 ≤ renglonGrande.serie := by decide
  refine ⟨hseek, hserie, ?_⟩
  rintro ⟨xs, ys, hsplit, hsome, hxs, -⟩
  cases xs with
  | nil =>
      rw [hseek] at hsome
      exact absurd hsome (by decide)
  | cons l xs =>
      obtain ⟨rfl, -⟩ := List.cons.inj hsplit
      have hmenos := hxs renglonGrande (by simp)
      omega

end Ircd.Bdd
