import Ircd.IPcheck.Registry

/-!
# Runs of zero segments

Both texts of an IPv6 address write a run of zero segments as one mark, and `iptobase64` and
`ircd_ntoa_r` look for the longest run with the same loop. The loop forgets to reset its counter at
the end of a run that is no longer than the longest one, so that the zeros of several runs are added
up. `rachaOcho_spec` and `rachaSiete_spec` tell exactly when the run it finds is a run.
-/

namespace Ircd.Addr

open IPcheck

/-- The eight segments in the order of the address. -/
def segmentos (a : IrcInAddr) : List UInt16 :=
  a.in6_16.toList

/-- `in6_16[k]` of an address. -/
def segmento (a : IrcInAddr) (k : Nat) : UInt16 :=
  (segmentos a).getD k 0

/-- Which segments are zero. -/
def ceros (segs : List UInt16) : List Bool :=
  segs.map (· = 0)

theorem length_ceros (segs : List UInt16) : (ceros segs).length = segs.length :=
  List.length_map ..

/-- The loop that looks for the longest run of zeros from segment `ii` on, over the segments that
are left, true for a zero one. The result is `max_start` and `max_zeros`. -/
def buscaRacha (ii maxStart maxZeros currZeros : Nat) : List Bool → Nat × Nat
  | [] => if currZeros > maxZeros then (ii - currZeros, currZeros) else (maxStart, maxZeros)
  | true :: bs => buscaRacha (ii + 1) maxStart maxZeros (currZeros + 1) bs
  | false :: bs =>
      if currZeros > maxZeros then buscaRacha (ii + 1) (ii - currZeros) currZeros 0 bs
      else buscaRacha (ii + 1) maxStart maxZeros currZeros bs

/-- The lengths of the runs of zeros, in order. -/
def rachas (bs : List Bool) : List Nat :=
  ((bs.splitOn false).map List.length).filter (0 < ·)

/-- No run is followed by two that are added up to more than it because the first of them is no
longer than it. -/
def Sencilla : List Nat → Prop
  | p :: q :: r :: rs => ¬(q ≤ p ∧ p < q + r) ∧ Sencilla (q :: r :: rs)
  | _ => True

instance decidableSencilla : (rs : List Nat) → Decidable (Sencilla rs)
  | p :: q :: r :: rs =>
      have := decidableSencilla (q :: r :: rs)
      inferInstanceAs (Decidable (¬(q ≤ p ∧ p < q + r) ∧ Sencilla (q :: r :: rs)))
  | [] => isTrue trivial
  | [_] => isTrue trivial
  | [_, _] => isTrue trivial

/-- The segments from `r.1` on, as many as `r.2`, are zero. -/
def EsRacha (bs : List Bool) (r : Nat × Nat) : Prop :=
  (bs.drop r.1).take r.2 = List.replicate r.2 true

instance (bs : List Bool) (r : Nat × Nat) : Decidable (EsRacha bs r) :=
  inferInstanceAs (Decidable (_ = _))

/-! ## The patterns of zero segments -/

/-- All patterns of `n` segments. -/
def patrones : Nat → List (List Bool)
  | 0 => [[]]
  | n + 1 => (patrones n).map (true :: ·) ++ (patrones n).map (false :: ·)

theorem mem_patrones (bs : List Bool) : bs ∈ patrones bs.length := by
  induction bs with
  | nil => simp [patrones]
  | cons b bs ih => cases b <;> simp [patrones, ih]

/-- The number of segments before the first zero one. -/
def delante (bs : List Bool) : Nat :=
  (bs.takeWhile (!·)).length

/-- The search of `iptobase64`, which starts at the first zero segment. -/
def rachaOcho (bs : List Bool) : Nat × Nat :=
  buscaRacha (delante bs) (delante bs) 0 0 (bs.drop (delante bs))

/-- The search of `ircd_ntoa_r`, which starts at the second segment. -/
def rachaSiete (bs : List Bool) : Nat × Nat :=
  buscaRacha 1 1 0 0 (bs.drop 1)

/-- What `iptobase64` finds among eight segments one of which is zero. -/
theorem rachaOcho_spec {bs : List Bool} (hlen : bs.length = 8) (hcero : true ∈ bs) :
    0 < (rachaOcho bs).2 ∧ delante bs ≤ (rachaOcho bs).1 ∧
      (rachaOcho bs).1 + (rachaOcho bs).2 ≤ 8 ∧
      (EsRacha bs (rachaOcho bs) ↔ Sencilla (rachas bs)) := by
  have hall : ∀ bs ∈ patrones 8, true ∈ bs → 0 < (rachaOcho bs).2 ∧
      delante bs ≤ (rachaOcho bs).1 ∧ (rachaOcho bs).1 + (rachaOcho bs).2 ≤ 8 ∧
      (EsRacha bs (rachaOcho bs) ↔ Sencilla (rachas bs)) := by decide +kernel
  exact hall bs (hlen ▸ mem_patrones bs) hcero

/-- What `ircd_ntoa_r` finds behind the first of eight segments. -/
theorem rachaSiete_spec {bs : List Bool} (hlen : bs.length = 8) :
    1 ≤ (rachaSiete bs).1 ∧ (rachaSiete bs).1 + (rachaSiete bs).2 ≤ 8 ∧
      (EsRacha bs (rachaSiete bs) ↔ Sencilla (rachas (bs.drop 1))) := by
  have hall : ∀ bs ∈ patrones 8, 1 ≤ (rachaSiete bs).1 ∧
      (rachaSiete bs).1 + (rachaSiete bs).2 ≤ 8 ∧
      (EsRacha bs (rachaSiete bs) ↔ Sencilla (rachas (bs.drop 1))) := by decide +kernel
  exact hall bs (hlen ▸ mem_patrones bs)

end Ircd.Addr
