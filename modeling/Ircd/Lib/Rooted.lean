import Ircd.Lib.Forest

/-!
# A tree with several roots

The nodes of a tree that see it from their own place are its hosts: each is the root of its own
view, a forest by parent pointers, and two views have the same edges (`Rooted`). Two neighbours
see the same parents, apart from their own (`Rooted.parent_eq`), so the same hangs for both from
any other node (`Rooted.below_iff`), and what hangs from one of them for the other is what does not
hang from the other for the one (`Rooted.below_iff_not`).
-/

namespace Forest

universe u

variable {ι : Type u}

/-- The views `up` of one tree that the hosts have. -/
structure Rooted (host node : Set ι) (up : ι → ι → Option ι) : Prop where
  root : ∀ v ∈ host, up v v = none
  reach : ∀ v ∈ host, ∀ x ∈ node, Below (up v) v x
  child_mem : ∀ v ∈ host, ∀ x p, up v x = some p → x ∈ node
  parent_mem : ∀ v ∈ host, ∀ x p, up v x = some p → p ∈ host
  host_node : ∀ v ∈ host, v ∈ node
  /-- An edge of one view is an edge of each. -/
  edge : ∀ v ∈ host, ∀ w ∈ host, ∀ x p, up v x = some p → up w x = some p ∨ up w p = some x

variable {host node : Set ι} {up : ι → ι → Option ι} {p q v x y z : ι}

/-- There is no way out of two nodes that point to each other. -/
theorem Below.eq_of_cycle {parent : ι → Option ι} (hxy : parent x = some y)
    (hyx : parent y = some x) (h : Below parent z x) : z = x ∨ z = y := by
  have hpair : ∀ {w}, Below parent z w → w = x ∨ w = y → z = x ∨ z = y := by
    intro w hw
    induction hw with
    | refl => exact id
    | step hp _ ih =>
        rintro (rfl | rfl)
        · exact ih (.inr (Option.some.inj (hp.symm.trans hxy)))
        · exact ih (.inl (Option.some.inj (hp.symm.trans hyx)))
  exact hpair h (.inl rfl)

namespace Rooted

variable (h : Rooted host node up)

include h

theorem not_below_root (hv : v ∈ host) (hz : z ≠ v) : ¬ Below (up v) z v := by
  intro hbelow
  cases hbelow with
  | refl => exact hz rfl
  | step hx _ =>
      rw [h.root v hv] at hx
      cases hx

theorem ne (hp : p ∈ host) (hpq : up p q = some p) : p ≠ q := by
  rintro rfl
  rw [h.root p hp] at hpq
  cases hpq

/-- A neighbour has one as its neighbour. -/
theorem back (hp : p ∈ host) (hq : q ∈ host) (hpq : up p q = some p) : up q p = some q := by
  rcases h.edge p hp q hq q p hpq with hqq | hback
  · rw [h.root q hq] at hqq
    cases hqq
  · exact hback

/-- An edge of any view is an edge between neighbours. -/
theorem neighbour (hv : v ∈ host) (hp : p ∈ host) (hx : up v x = some p) : up p x = some p := by
  rcases h.edge v hv p hp x p hx with hpx | hpp
  · exact hpx
  · rw [h.root p hp] at hpp
    cases hpp

theorem parent_of (hp : p ∈ host) (hq : q ∈ host) (hpq : up p q = some p) (hx : up p x = some y)
    (hxq : x ≠ q) : up q x = some y := by
  have hbelow : ∀ {x}, Below (up p) p x → ∀ {y}, up p x = some y → x ≠ q → up q x = some y := by
    intro x hbelow
    induction hbelow with
    | refl =>
        intro y hx
        rw [h.root p hp] at hx
        cases hx
    | @step x w hxw hw ih =>
        intro y hx hxq
        obtain rfl := Option.some.inj (hxw.symm.trans hx)
        rcases h.edge p hp q hq x w hx with hqx | hturned
        · exact hqx
        · -- the edge is turned in the view of `q`: only on the way from `p` to `q`
          by_cases hwp : w = p
          · rw [hwp, h.back hp hq hpq] at hturned
            exact absurd (Option.some.inj hturned).symm hxq
          · by_cases hwq : w = q
            · rw [hwq, h.root q hq] at hturned
              cases hturned
            · cases hpw : up p w with
              | none =>
                  cases hw with
                  | refl => exact absurd rfl hwp
                  | step hw' _ =>
                      rw [hpw] at hw'
                      cases hw'
              | some u =>
                  obtain rfl := Option.some.inj ((ih hpw hwq).symm.trans hturned)
                  rcases (h.reach p hp u (h.child_mem p hp u w hx)).eq_of_cycle hx hpw with rfl | rfl
                  · rw [h.root p hp] at hx
                    cases hx
                  · exact absurd rfl hwp
  exact hbelow (h.reach p hp x (h.child_mem p hp x y hx)) hx hxq

/-- Two neighbours see the same parents, apart from their own. -/
theorem parent_eq (hp : p ∈ host) (hq : q ∈ host) (hpq : up p q = some p) (hxp : x ≠ p)
    (hxq : x ≠ q) : up p x = up q x := by
  refine Option.ext fun y ↦ ⟨fun hx ↦ h.parent_of hp hq hpq hx hxq, fun hx ↦ ?_⟩
  exact h.parent_of hq hp (h.back hp hq hpq) hx hxp

theorem below_of (hp : p ∈ host) (hq : q ∈ host) (hpq : up p q = some p) (hzp : z ≠ p)
    (hx : Below (up p) z x) : Below (up q) z x := by
  induction hx with
  | refl => exact .refl
  | @step x y hxy hy ih =>
      have hyp : y ≠ p := by
        rintro rfl
        exact h.not_below_root hp hzp hy
      have hxq : x ≠ q := by
        rintro rfl
        exact hyp (Option.some.inj (hxy.symm.trans hpq))
      exact .step (h.parent_of hp hq hpq hxy hxq) ih

/-- For two neighbours the same hangs from any other node. -/
theorem below_iff (hp : p ∈ host) (hq : q ∈ host) (hpq : up p q = some p) (hzp : z ≠ p)
    (hzq : z ≠ q) : Below (up p) z x ↔ Below (up q) z x :=
  ⟨h.below_of hp hq hpq hzp, h.below_of hq hp (h.back hp hq hpq) hzq⟩

/-- The two sides of an edge. -/
theorem below_iff_not (hp : p ∈ host) (hq : q ∈ host) (hpq : up p q = some p) (hx : x ∈ node) :
    Below (up p) q x ↔ ¬ Below (up q) p x := by
  have hback := h.back hp hq hpq
  constructor
  · intro hqx hpx
    induction hqx with
    | refl => exact h.not_below_root hq (h.ne hp hpq) hpx
    | @step x y hxy hy ih =>
        have hyp : y ≠ p := by
          rintro rfl
          exact h.not_below_root hp (h.ne hq hback) hy
        have hxq : x ≠ q := by
          rintro rfl
          exact hyp (Option.some.inj (hxy.symm.trans hpq))
        cases hpx with
        | refl =>
            rw [h.root p hp] at hxy
            cases hxy
        | step hxy' hy' =>
            obtain rfl := Option.some.inj ((h.parent_of hp hq hpq hxy hxq).symm.trans hxy')
            exact ih (h.host_node _ (h.parent_mem p hp x y hxy)) hy'
  · have hside : ∀ {x}, Below (up p) p x → Below (up p) q x ∨ Below (up q) p x := by
      intro x hbelow
      induction hbelow with
      | refl => exact .inr .refl
      | @step x y hxy hy ih =>
          by_cases hxq : x = q
          · rw [hxq]
            exact .inl .refl
          · rcases ih with ih | ih
            · exact .inl (.step hxy ih)
            · exact .inr (.step (h.parent_of hp hq hpq hxy hxq) ih)
    exact fun hno ↦ (hside (h.reach p hp x hx)).resolve_right hno

/-- What is behind `p` for a neighbour is behind the neighbour for those on its other side. -/
theorem below_trans (hq : q ∈ host) (hv : v ∈ host) (hqp : up q p = some q)
    (hqv : up q v = some q) (hpv : p ≠ v) (hx : Below (up q) p x) : Below (up v) q x := by
  have hpq := h.ne hq hqp
  have hparent : up v p = some q := by
    rw [← h.parent_eq hq hv hqv (Ne.symm hpq) hpv]
    exact hqp
  exact (Below.step hparent .refl).trans (h.below_of hq hv hqv (Ne.symm hpq) hx)

end Rooted

end Forest
