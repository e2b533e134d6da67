import Ircd.IPcheck.Registry
import Mathlib.Data.List.Nodup

/-!
# Searching and cleaning a vector

Two addresses are the same for the registry when their prefixes are (`IPregistry.es_iff`). The scan
that looks for an entry removes the expired entries on its way by moving the last entry to their
places. `recorre_perm` says which entries it leaves, and `recorre_some` that the index it returns is
still that of the entry that is looked for.
-/

namespace Ircd.IPcheck

/-! ## Prefixes -/

/-- The prefix that an entry is for. -/
def IPregistry.clave (e : IPregistry) : UInt16 × UInt16 × UInt16 × UInt16 :=
  prefijo e.ip

/-- The search compares prefixes. -/
theorem IPregistry.es_iff (e : IPregistry) (ip : IrcInAddr) :
    e.es ip = true ↔ e.clave = prefijo ip := by
  rw [es, decide_eq_true_eq, clave, prefijo, prefijo, bits]
  by_cases h : ip.in6_16[0] = htons 0x2002
  · rw [if_pos h, ipmaskCheck_48, if_pos h]
    constructor
    · rintro ⟨h₀, h₁, h₂⟩
      rw [← h₀, ← h₁, ← h₂, if_pos h]
    · intro heq
      simp only [Prod.mk.injEq] at heq
      exact ⟨heq.1.symm, heq.2.1.symm, heq.2.2.1.symm⟩
  · rw [if_neg h, ipmaskCheck_64, if_neg h]
    constructor
    · rintro ⟨h₀, h₁, h₂, h₃⟩
      rw [← h₀, ← h₁, ← h₂, ← h₃, if_neg h]
    · intro heq
      simp only [Prod.mk.injEq] at heq
      obtain ⟨h₀, h₁, h₂, h₃⟩ := heq
      rw [h₀, if_neg h] at h₃
      exact ⟨h₀.symm, h₁.symm, h₂.symm, h₃.symm⟩

/-! ## The search -/

/-- The change of an entry in its place. -/
theorem modify_length {α : Type*} (front back : List α) (e : α) (f : α → α) :
    (front ++ e :: back).modify front.length f = front ++ f e :: back := by
  induction front with
  | nil => rfl
  | cons a front ih => exact congrArg (a :: ·) ih

/-- The entry that the search finds. -/
theorem registryFind_some {iprv : IPregistryVector} {ip : IrcInAddr} {i : Nat}
    (h : registryFind iprv ip = some i) :
    ∃ (front back : List IPregistry) (e : IPregistry),
      iprv.vector = front ++ e :: back ∧ i = front.length ∧ e.clave = prefijo ip := by
  obtain ⟨hi, hes, -⟩ := List.findIdx?_eq_some_iff_getElem.mp h
  refine ⟨iprv.vector.take i, iprv.vector.drop (i + 1), iprv.vector[i], ?_, ?_,
    (IPregistry.es_iff _ _).mp hes⟩
  · rw [← List.drop_eq_getElem_cons hi, List.take_append_drop]
  · rw [List.length_take_of_le (Nat.le_of_lt hi)]

theorem registryFind_eq_none {iprv : IPregistryVector} {ip : IrcInAddr} :
    registryFind iprv ip = none ↔ ∀ e ∈ iprv.vector, e.clave ≠ prefijo ip := by
  rw [registryFind, List.findIdx?_eq_none_iff]
  refine forall₂_congr fun e _ ↦ ?_
  rw [← Bool.not_eq_true, IPregistry.es_iff]

/-! ## Expiry -/

/-- What the scan makes of an entry that stays. -/
def envejece (ip : IrcInAddr) (now : Nat) (e : IPregistry) : IPregistry :=
  if e.es ip then e else e.olvidaTargets now

/-- The entries that stay. -/
def queda (ip : IrcInAddr) (now : Nat) (e : IPregistry) : Bool :=
  e.es ip || !e.expirada now

theorem mueveUltima_perm (es : List IPregistry) : (mueveUltima es).Perm es := by
  rcases List.eq_nil_or_concat es with rfl | ⟨front, e, rfl⟩
  · rfl
  · rw [List.concat_eq_append, mueveUltima, List.getLast?_concat]
    simp only [List.dropLast_concat]
    exact (List.perm_append_singleton e front).symm

/-- The scan leaves the entries that are not expired, in some order. -/
theorem recorre_perm (ip : IrcInAddr) (now : Nat) {fuel : Nat} (i : Nat) {es : List IPregistry}
    (hfuel : es.length ≤ fuel) :
    (recorre ip now fuel i es).1.Perm ((es.filter (queda ip now)).map (envejece ip now)) := by
  induction fuel generalizing i es with
  | zero =>
      rw [List.length_eq_zero_iff.mp (Nat.le_zero.mp hfuel)]
      rfl
  | succ fuel ih =>
      cases es with
      | nil => rfl
      | cons curr rest =>
          have hrest : rest.length ≤ fuel := Nat.le_of_succ_le_succ hfuel
          rw [recorre]
          by_cases hes : curr.es ip = true
          · have hqueda : queda ip now curr = true := by simp [queda, hes]
            have henvejece : envejece ip now curr = curr := if_pos hes
            rw [if_pos hes, List.filter_cons_of_pos hqueda, List.map_cons, henvejece]
            exact (ih (i + 1) hrest).cons curr
          · by_cases hexp : curr.expirada now = true
            · have hqueda : ¬queda ip now curr = true := by simp [queda, hes, hexp]
              have hlen : (mueveUltima rest).length ≤ fuel :=
                Nat.le_trans (Nat.le_of_eq (mueveUltima_perm rest).length_eq) hrest
              rw [if_neg hes, if_pos hexp, List.filter_cons_of_neg hqueda]
              exact (ih i hlen).trans (((mueveUltima_perm rest).filter _).map _)
            · have hqueda : queda ip now curr = true := by simp [queda, hexp]
              have henvejece : envejece ip now curr = curr.olvidaTargets now := if_neg hes
              rw [if_neg hes, if_neg hexp, List.filter_cons_of_pos hqueda, List.map_cons, henvejece]
              exact (ih (i + 1) hrest).cons _

/-- No index is returned when the entry is not there. -/
theorem recorre_none {ip : IrcInAddr} {now fuel : Nat} (i : Nat) {es : List IPregistry}
    (h : ∀ e ∈ es, ¬e.es ip = true) : (recorre ip now fuel i es).2 = none := by
  induction fuel generalizing i es with
  | zero => rfl
  | succ fuel ih =>
      cases es with
      | nil => rfl
      | cons curr rest =>
          obtain ⟨hcurr, hrest⟩ := List.forall_mem_cons.mp h
          rw [recorre, if_neg hcurr]
          split
          · exact ih i fun e he ↦ hrest e ((mueveUltima_perm rest).mem_iff.mp he)
          · exact ih (i + 1) hrest

/-- The index that the scan returns is that of the entry that is looked for. -/
theorem recorre_some {ip : IrcInAddr} (now : Nat) {fuel : Nat} (i : Nat) {es : List IPregistry}
    (hfuel : es.length ≤ fuel) (h : ∃ e ∈ es, e.es ip = true) :
    ∃ (front back : List IPregistry) (e : IPregistry),
      (recorre ip now fuel i es).1 = front ++ e :: back ∧
        (recorre ip now fuel i es).2 = some (i + front.length) ∧ e.es ip = true := by
  induction fuel generalizing i es with
  | zero =>
      rw [List.length_eq_zero_iff.mp (Nat.le_zero.mp hfuel)] at h
      simp at h
  | succ fuel ih =>
      cases es with
      | nil => simp at h
      | cons curr rest =>
          have hrest : rest.length ≤ fuel := Nat.le_of_succ_le_succ hfuel
          have hotra (hcurr : ¬curr.es ip = true) : ∃ e ∈ rest, e.es ip = true := by
            obtain ⟨e, he, hes⟩ := h
            rcases List.mem_cons.mp he with rfl | he
            · exact absurd hes hcurr
            · exact ⟨e, he, hes⟩
          rw [recorre]
          by_cases hes : curr.es ip = true
          · rw [if_pos hes]
            by_cases hmas : ∃ e ∈ rest, e.es ip = true
            · obtain ⟨front, back, e, hvector, hindice, hese⟩ := ih (i + 1) hrest hmas
              refine ⟨curr :: front, back, e, by simp [hvector], ?_, hese⟩
              simp only [hindice, Option.some_or, List.length_cons]
              congr 1
              omega
            · have hno : ∀ e ∈ rest, ¬e.es ip = true := fun e he hese ↦ hmas ⟨e, he, hese⟩
              refine ⟨[], _, curr, rfl, ?_, hes⟩
              simp [recorre_none (i + 1) hno]
          · rw [if_neg hes]
            by_cases hexp : curr.expirada now = true
            · rw [if_pos hexp]
              have hlen : (mueveUltima rest).length ≤ fuel :=
                Nat.le_trans (Nat.le_of_eq (mueveUltima_perm rest).length_eq) hrest
              obtain ⟨e, he, hese⟩ := hotra hes
              exact ih i hlen ⟨e, (mueveUltima_perm rest).mem_iff.mpr he, hese⟩
            · rw [if_neg hexp]
              obtain ⟨front, back, e, hvector, hindice, hese⟩ := ih (i + 1) hrest (hotra hes)
              refine ⟨curr.olvidaTargets now :: front, back, e, by simp [hvector], ?_, hese⟩
              simp only [hindice, List.length_cons]
              congr 1
              omega

end Ircd.IPcheck
