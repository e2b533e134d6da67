import Ircd.Lib.Run
import Mathlib.Algebra.BigOperators.Group.Finset.Basic
import Mathlib.Algebra.BigOperators.Intervals
import Mathlib.Algebra.Module.Pi
import Mathlib.Data.List.Chain
import Mathlib.Tactic.Abel

/-!
# The load of users

`update_load` of `ircd/userload.c`. Seconds are counted into the minute that goes on, minutes into a
ring of sixty, and hours into a ring of seventy-two. The minutes between two calls are taken from
the clock face, so that sixty of them are none. The main result, `exacta_final`, says that the ring
of the minutes is exact while fewer pass.
-/

namespace Ircd.User.Load

open Finset

/-! ## The counters -/

/-- The members of `struct current_load_st`. -/
inductive Campo
  | clientCount
  | localCount
  | connCount
deriving DecidableEq

/-- `struct current_load_st`. -/
abbrev Carga := Campo → Int

/-- The members of `struct tm` that are used. -/
structure Tm where
  tmSec : Int
  tmMin : Int
  tmHour : Int

/-- `localtime`, where the local time is `off` seconds ahead. -/
def localtime (off now : Int) : Tm :=
  ⟨(now + off) % 60, (now + off) / 60 % 60, (now + off) / 3600 % 24⟩

/-- What an `int` keeps of a value. -/
def entero (x : Int) : Int :=
  x.bmod (2 ^ 32)

theorem entero_eq {x : Int} (h : 0 ≤ x) (hlt : x < 2 ^ 31) : entero x = x := by
  simp only [entero, Int.bmod]
  omega

/-- The static variables of `ircd/userload.c`. -/
structure Userload where
  tmNow : Tm := ⟨0, 0, 0⟩
  lastSec : Int := 0
  lastMin : Int := 0
  last : Int := 0
  lastLoad : Carga := 0
  initialized : Bool := false
  cspmSum : Carga := 0
  csphSum : Carga := 0
  cspm : Nat → Carga := fun _ ↦ 0
  csph : Nat → Carga := fun _ ↦ 0
  mIndex : Nat := 0
  hIndex : Nat := 0

namespace Userload

/-- A minute goes to the sum of the hour and to its place. -/
def guarda (st : Userload) : Userload :=
  { st with
    csphSum := st.csphSum + (st.cspmSum - st.cspm st.mIndex)
    cspm := Function.update st.cspm st.mIndex st.cspmSum }

/-- The indexes go on by a minute. -/
def avanza (st : Userload) : Userload :=
  if st.mIndex + 1 = 60 then
    { st with
      mIndex := 0
      csph := Function.update st.csph st.hIndex st.csphSum
      hIndex := if st.hIndex + 1 = 72 then 0 else st.hIndex + 1 }
  else { st with mIndex := st.mIndex + 1 }

/-- The loop over the minutes, where the test is false `n` times. -/
def rellena (st : Userload) : Nat → Userload
  | 0 => st.avanza
  | n + 1 => st.avanza.guarda.rellena n

/-- `tm_now` when `tm_sec` is `sec`, over 59. -/
def acarrea (st : Userload) (off now sec : Int) : Userload :=
  let diffTime := sec / 60
  let tmSec := sec - 60 * diffTime
  let tmMin := st.tmNow.tmMin + diffTime
  if 59 < tmMin then
    let diffTime := tmMin / 60
    let tmMin := tmMin - 60 * diffTime
    let tmHour := st.tmNow.tmHour + diffTime
    if 23 < tmHour then
      let tmNow := localtime off now
      if st.initialized then { st with tmNow := tmNow }
      else { st with tmNow := tmNow, initialized := true, lastSec := 60, lastMin := tmNow.tmMin }
    else { st with tmNow := ⟨tmSec, tmMin, tmHour⟩ }
  else { st with tmNow := ⟨tmSec, tmMin, st.tmNow.tmHour⟩ }

/-- The minutes between two calls, from the clock face. -/
def minutos (st : Userload) : Int :=
  let diffTime := st.tmNow.tmMin - st.lastMin
  if diffTime < 0 then diffTime + 60 else diffTime

/-- A new minute. -/
def minuto (st : Userload) : Userload :=
  let diffTime := st.minutos
  let st := { st with cspmSum := st.cspmSum + (60 - st.lastSec) • st.lastLoad }.guarda
  let st := { st with
    lastMin := st.tmNow.tmMin
    cspmSum := if 1 < diffTime then (60 : Int) • st.lastLoad else st.cspmSum }
  let st := st.rellena (diffTime - 1).toNat
  { st with lastSec := st.tmNow.tmSec, cspmSum := st.tmNow.tmSec • st.lastLoad }

/-- A new second of the same minute, `tm_sec` being `sec`. -/
def segundo (st : Userload) (sec : Int) : Userload :=
  let diffTime := sec - st.lastSec
  { st with
    tmNow := { st.tmNow with tmSec := sec }
    lastSec := sec
    cspmSum := st.cspmSum + if diffTime = 1 then st.lastLoad else diffTime • st.lastLoad }

/-- `update_load`, with `current_load` as it is when the counts have been read. Both the seconds
since the last call and `tm_sec` are an `int`. -/
def updateLoad (st : Userload) (off now : Int) (currentLoad : Carga) : Userload :=
  let diffTime := entero (now - st.last)
  if diffTime = 0 then { st with lastLoad := currentLoad }
  else
    let sec := entero (st.tmNow.tmSec + diffTime)
    let st := if 59 < sec then (st.acarrea off now sec).minuto else st.segundo sec
    { st with lastLoad := currentLoad, last := now }

end Userload

/-! ## Runs -/

/-- A call of `update_load`: its time, and the counts in `nrof`. -/
structure Llamada where
  now : Int
  localClients : Nat
  localServers : Nat

/-- `current_load`, where nothing sets `local_count`. -/
def Llamada.carga (a : Llamada) : Carga
  | .clientCount => a.localClients
  | .localCount => 0
  | .connCount => a.localClients + a.localServers

def Llamada.paso (off : Int) (a : Llamada) (st : Userload) : Userload :=
  st.updateLoad off a.now a.carga

/-- Who is there at the end of a second: what the last call has found. -/
def presentes (l : List Llamada) (s : Int) : Carga :=
  ((l.filter fun a ↦ a.now ≤ s).getLast?.map Llamada.carga).getD 0

/-- The sum over the seconds of a minute. -/
def sumaMinuto (f : Int → Carga) (off m : Int) : Carga :=
  ∑ i ∈ range 60, f (60 * m - off + i)

/-- The minute that goes on. -/
def minutoActual (off : Int) (l : List Llamada) : Int :=
  ((l.getLast?.map Llamada.now).getD 0 + off) / 60

/-- The ring of the minutes is exact: the place `k` before the index has the minute `k` before the
one that goes on. -/
structure Exacta (f : Int → Carga) (off m : Int) (st : Userload) : Prop where
  mIndex_lt : st.mIndex < 60
  hIndex_lt : st.hIndex < 72
  csphSum_eq : st.csphSum = ∑ i ∈ range 60, st.cspm i
  cspm_eq : ∀ k, 1 ≤ k → k ≤ 60 → st.cspm ((st.mIndex + 60 - k) % 60) = sumaMinuto f off (m - k)

/-! ## The ring -/

section

variable {f g : Int → Carga} {off m : Int} {st : Userload}

/-- The seconds of the minutes that are over decide. -/
theorem sumaMinuto_congr (h : ∀ s, s < 60 * (m + 1) - off → f s = g s) :
    sumaMinuto f off m = sumaMinuto g off m := by
  refine sum_congr rfl fun i hi ↦ h _ ?_
  rw [mem_range] at hi
  omega

theorem Exacta.congr (hst : Exacta f off m st) (h : ∀ s, s < 60 * m - off → f s = g s) :
    Exacta g off m st where
  mIndex_lt := hst.mIndex_lt
  hIndex_lt := hst.hIndex_lt
  csphSum_eq := hst.csphSum_eq
  cspm_eq k hk hk' := by
    rw [hst.cspm_eq k hk hk']
    exact sumaMinuto_congr fun s hs ↦ h s (by omega)

theorem sumaMinuto_const {c : Carga} (h : ∀ i : Nat, i < 60 → f (60 * m - off + i) = c) :
    sumaMinuto f off m = (60 : Int) • c := by
  rw [sumaMinuto, sum_congr rfl fun i hi ↦ h i (mem_range.mp hi), sum_const, card_range]
  exact (natCast_zsmul c 60).symm

/-- Without clients all minutes are empty. -/
theorem exacta_inicial (off m : Int) : Exacta 0 off m {} where
  mIndex_lt := by decide
  hIndex_lt := by decide
  csphSum_eq := by
    show (0 : Carga) = ∑ i ∈ range 60, 0
    rw [sum_const_zero]
  cspm_eq k hk hk' := by
    rw [sumaMinuto_const fun i hi ↦ rfl]
    exact (smul_zero _).symm

theorem avanza_indices (st : Userload) (h : st.mIndex < 60) (hh : st.hIndex < 72) :
    st.avanza.mIndex = (st.mIndex + 1) % 60 ∧ st.avanza.hIndex < 72 := by
  rw [Userload.avanza]
  split
  · next hlast =>
      refine ⟨by rw [hlast], ?_⟩
      show (if st.hIndex + 1 = 72 then 0 else st.hIndex + 1) < 72
      split <;> omega
  · next hlast =>
      have hlt : st.mIndex + 1 < 60 := by omega
      exact ⟨(Nat.mod_eq_of_lt hlt).symm, hh⟩

theorem avanza_resto (st : Userload) : st.avanza.cspm = st.cspm ∧ st.avanza.csphSum = st.csphSum ∧
    st.avanza.cspmSum = st.cspmSum := by
  rw [Userload.avanza]
  split <;> exact ⟨rfl, rfl, rfl⟩

/-- A minute that is over goes into the ring. -/
theorem Exacta.cierra (hst : Exacta f off m st) (hsum : st.cspmSum = sumaMinuto f off m) :
    Exacta f off (m + 1) st.guarda.avanza := by
  obtain ⟨hindex, hhour⟩ := avanza_indices st.guarda hst.mIndex_lt hst.hIndex_lt
  obtain ⟨hcspm, hcsph, -⟩ := avanza_resto st.guarda
  have hm : st.guarda.mIndex = st.mIndex := rfl
  rw [hm] at hindex
  refine ⟨by rw [hindex]; exact Nat.mod_lt _ (by decide), hhour, ?_, fun k hk hk' ↦ ?_⟩
  · rw [hcspm, hcsph]
    show st.csphSum + (st.cspmSum - st.cspm st.mIndex) =
      ∑ i ∈ range 60, Function.update st.cspm st.mIndex st.cspmSum i
    rw [sum_update_of_mem (mem_range.mpr hst.mIndex_lt), hst.csphSum_eq,
      ← sum_sdiff (singleton_subset_iff.mpr (mem_range.mpr hst.mIndex_lt)), sum_singleton]
    abel
  · rw [hcspm, hindex]
    show Function.update st.cspm st.mIndex st.cspmSum (((st.mIndex + 1) % 60 + 60 - k) % 60) = _
    have hlt := hst.mIndex_lt
    by_cases hone : k = 1
    · have hplace : ((st.mIndex + 1) % 60 + 60 - k) % 60 = st.mIndex := by omega
      rw [hplace, Function.update_self, hsum, hone]
      congr 1
      omega
    · have hplace : ((st.mIndex + 1) % 60 + 60 - k) % 60 = (st.mIndex + 60 - (k - 1)) % 60 := by
        omega
      have hother : (st.mIndex + 60 - (k - 1)) % 60 ≠ st.mIndex := by omega
      rw [hplace, Function.update_of_ne hother, hst.cspm_eq (k - 1) (by omega) (by omega)]
      congr 1
      omega

/-- The loop puts minutes with the same load into the ring. -/
theorem Exacta.rellena (st : Userload) {n : Nat} (hst : Exacta f off m st.avanza)
    (hsum : ∀ j : Nat, j < n → sumaMinuto f off (m + j) = st.cspmSum) :
    Exacta f off (m + n) (st.rellena n) := by
  induction n generalizing st m with
  | zero => simpa [Userload.rellena] using hst
  | succ n ih =>
      obtain ⟨-, -, hcspmSum⟩ := avanza_resto st
      have hcierra : Exacta f off (m + 1) st.avanza.guarda.avanza := by
        refine hst.cierra (hcspmSum.trans ?_)
        simpa using (hsum 0 (Nat.succ_pos n)).symm
      have hrest := ih st.avanza.guarda hcierra fun j hj ↦ by
        have hnext := hsum (j + 1) (by omega)
        rw [show m + 1 + j = m + (j + 1 : Nat) by push_cast; omega, hnext]
        exact hcspmSum.symm
      rw [show m + (n + 1 : Nat) = m + 1 + n by push_cast; omega]
      exact hrest

/-! ## The clock face -/

variable {t u : Int}

/-- What is the case behind a call at `t`, up to the load and the time of the call. -/
structure Parcial (f : Int → Carga) (off t : Int) (st : Userload) : Prop where
  initialized : st.initialized = true
  tmSec : st.tmNow.tmSec = (t + off) % 60
  tmMin : st.tmNow.tmMin = (t + off) / 60 % 60
  lastSec : st.lastSec = (t + off) % 60
  lastMin : st.lastMin = (t + off) / 60 % 60
  cspmSum : st.cspmSum = ∑ i ∈ range ((t + off) % 60).toNat, f (60 * ((t + off) / 60) - off + i)
  exacta : Exacta f off ((t + off) / 60) st

/-- Seconds with one load are added at once. -/
theorem sum_desde {c : Carga} {b : Int} {x y : Int} (hx : 0 ≤ x) (hxy : x ≤ y)
    (h : ∀ i : Nat, x ≤ i → i < y → f (b + i) = c) :
    ∑ i ∈ range y.toNat, f (b + i) = ∑ i ∈ range x.toNat, f (b + i) + (y - x) • c := by
  have hle : x.toNat ≤ y.toNat := Int.toNat_le_toNat hxy
  have hlast : ∑ i ∈ Ico x.toNat y.toNat, f (b + i) = (y - x) • c := by
    rw [sum_congr rfl fun i hi ↦ h i (by rw [mem_Ico] at hi; omega) (by rw [mem_Ico] at hi; omega),
      sum_const, Nat.card_Ico, ← natCast_zsmul]
    congr 1
    omega
  rw [← sum_range_add_sum_Ico _ hle, hlast]

/-- A new second of the minute. -/
theorem parcial_segundo (hst : Parcial f off t st) (hload : ∀ s, t ≤ s → f s = st.lastLoad)
    (htu : t ≤ u) (hmin : (u + off) / 60 = (t + off) / 60) :
    Parcial f off u (st.segundo (st.tmNow.tmSec + (u - t))) := by
  have hsec : st.tmNow.tmSec + (u - t) = (u + off) % 60 := by
    rw [hst.tmSec]
    omega
  rw [hsec]
  refine ⟨hst.initialized, rfl, hst.tmMin.trans (by rw [hmin]), rfl,
    hst.lastMin.trans (by rw [hmin]), ?_, ?_⟩
  · have hsum := sum_desde (f := f) (c := st.lastLoad) (b := 60 * ((t + off) / 60) - off)
      (x := (t + off) % 60) (y := (u + off) % 60) (by omega) (by omega)
      fun i hi _ ↦ hload _ (by omega)
    show st.cspmSum + (if (u + off) % 60 - st.lastSec = 1 then st.lastLoad
      else ((u + off) % 60 - st.lastSec) • st.lastLoad) = _
    rw [hmin, hsum, hst.cspmSum, hst.lastSec]
    congr 1
    split
    · next hone => rw [hone, one_smul]
    · rfl
  · rw [hmin]
    exact ⟨hst.exacta.1, hst.exacta.2, hst.exacta.3, hst.exacta.4⟩

/-- The carries give the local time. -/
theorem acarrea_eq (hst : Parcial f off t st) (htu : t ≤ u) :
    ∃ tmHour, st.acarrea off u (st.tmNow.tmSec + (u - t)) =
      { st with tmNow := ⟨(u + off) % 60, (u + off) / 60 % 60, tmHour⟩ } := by
  simp only [Userload.acarrea, hst.initialized, hst.tmSec, hst.tmMin, if_true]
  have hsec : (t + off) % 60 + (u - t) - 60 * (((t + off) % 60 + (u - t)) / 60) =
      (u + off) % 60 := by omega
  rw [hsec]
  split
  · split
    · exact ⟨(u + off) / 3600 % 24, rfl⟩
    · have hmin : (t + off) / 60 % 60 + ((t + off) % 60 + (u - t)) / 60 -
          60 * (((t + off) / 60 % 60 + ((t + off) % 60 + (u - t)) / 60) / 60) =
          (u + off) / 60 % 60 := by omega
      rw [hmin]
      exact ⟨_, rfl⟩
  · next hless =>
      have hmin : (t + off) / 60 % 60 + ((t + off) % 60 + (u - t)) / 60 =
          (u + off) / 60 % 60 := by
        have hmins : ((t + off) % 60 + (u - t)) / 60 = (u + off) / 60 - (t + off) / 60 := by omega
        rw [hmins] at hless ⊢
        omega
      rw [hmin]
      exact ⟨_, rfl⟩

theorem rellena_resto (st : Userload) (n : Nat) : (st.rellena n).tmNow = st.tmNow ∧
    (st.rellena n).lastMin = st.lastMin ∧ (st.rellena n).lastLoad = st.lastLoad ∧
    (st.rellena n).initialized = st.initialized := by
  have havanza : ∀ st : Userload, st.avanza.tmNow = st.tmNow ∧ st.avanza.lastMin = st.lastMin ∧
      st.avanza.lastLoad = st.lastLoad ∧ st.avanza.initialized = st.initialized := by
    intro st
    rw [Userload.avanza]
    split <;> exact ⟨rfl, rfl, rfl, rfl⟩
  induction n generalizing st with
  | zero => exact havanza st
  | succ n ih =>
      obtain ⟨h1, h2, h3, h4⟩ := ih st.avanza.guarda
      obtain ⟨h1', h2', h3', h4'⟩ := havanza st
      exact ⟨h1.trans h1', h2.trans h2', h3.trans h3', h4.trans h4'⟩

/-- The ring does not depend on what is counted at the time. -/
theorem exacta_avanza (st : Userload) (x : Int) (c : Carga) :
    Exacta f off m { st with lastMin := x, cspmSum := c }.avanza ↔ Exacta f off m st.avanza := by
  have hparts : ∀ {a b : Userload}, a.mIndex = b.mIndex → a.hIndex = b.hIndex →
      a.csphSum = b.csphSum → a.cspm = b.cspm → (Exacta f off m a ↔ Exacta f off m b) := by
    intro a b h1 h2 h3 h4
    constructor
    · intro h
      exact ⟨h1 ▸ h.1, h2 ▸ h.2, h3 ▸ h4 ▸ h.3, h1 ▸ h4 ▸ h.4⟩
    · intro h
      exact ⟨h1 ▸ h.1, h2 ▸ h.2, h3 ▸ h4 ▸ h.3, h1 ▸ h4 ▸ h.4⟩
  by_cases hlast : st.mIndex + 1 = 60
  · simp only [Userload.avanza, if_pos hlast]
    exact hparts rfl rfl rfl rfl
  · simp only [Userload.avanza, if_neg hlast]
    exact hparts rfl rfl rfl rfl

/-- A new minute, when fewer than sixty have ended. -/
theorem parcial_minuto (hst : Parcial f off t st) (hload : ∀ s, t ≤ s → f s = st.lastLoad)
    (hlater : (t + off) / 60 < (u + off) / 60) (hhour : (u + off) / 60 < (t + off) / 60 + 60)
    (tmHour : Int) :
    Parcial f off u (Userload.minuto
      { st with tmNow := ⟨(u + off) % 60, (u + off) / 60 % 60, tmHour⟩ }) := by
  have hmins : Userload.minutos { st with tmNow := ⟨(u + off) % 60, (u + off) / 60 % 60, tmHour⟩ } =
      (u + off) / 60 - (t + off) / 60 := by
    show (if (u + off) / 60 % 60 - st.lastMin < 0 then (u + off) / 60 % 60 - st.lastMin + 60
      else (u + off) / 60 % 60 - st.lastMin) = _
    rw [hst.lastMin]
    split <;> omega
  rw [Userload.minuto, hmins]
  -- The minute of the last call ends.
  have hfin : st.cspmSum + (60 - st.lastSec) • st.lastLoad =
      sumaMinuto f off ((t + off) / 60) := by
    rw [hst.cspmSum, hst.lastSec]
    exact (sum_desde (by omega) (by omega) fun i hi _ ↦ hload _ (by omega)).symm
  have hcierra : Exacta f off ((t + off) / 60 + 1) (Userload.guarda { st with
      tmNow := ⟨(u + off) % 60, (u + off) / 60 % 60, tmHour⟩
      cspmSum := st.cspmSum + (60 - st.lastSec) • st.lastLoad }).avanza :=
    Exacta.cierra ⟨hst.exacta.1, hst.exacta.2, hst.exacta.3, hst.exacta.4⟩ hfin
  -- The minutes in between have the load of the last call.
  have hentre : ∀ j : Nat, sumaMinuto f off ((t + off) / 60 + 1 + j) = (60 : Int) • st.lastLoad :=
    fun j ↦ sumaMinuto_const fun i _ ↦ hload _ (by omega)
  obtain ⟨st₁, hst₁⟩ : ∃ st₁, st₁ = Userload.guarda { st with
      tmNow := ⟨(u + off) % 60, (u + off) / 60 % 60, tmHour⟩
      cspmSum := st.cspmSum + (60 - st.lastSec) • st.lastLoad } := ⟨_, rfl⟩
  have htm : st₁.tmNow = ⟨(u + off) % 60, (u + off) / 60 % 60, tmHour⟩ := by rw [hst₁]; rfl
  have hlast : st₁.lastLoad = st.lastLoad := by rw [hst₁]; rfl
  have hinit : st₁.initialized = true := by rw [hst₁]; exact hst.initialized
  rw [← hst₁] at hcierra
  simp only [← hst₁]
  obtain ⟨n, hn⟩ : ∃ n, n = ((u + off) / 60 - (t + off) / 60 - 1).toNat := ⟨_, rfl⟩
  rw [← hn]
  have hrellena : Exacta f off ((t + off) / 60 + 1 + n) (Userload.rellena { st₁ with
      lastMin := st₁.tmNow.tmMin
      cspmSum := if 1 < (u + off) / 60 - (t + off) / 60 then (60 : Int) • st₁.lastLoad
        else st₁.cspmSum } n) := by
    refine Exacta.rellena _ ((exacta_avanza st₁ _ _).mpr hcierra) fun j hj ↦ ?_
    show _ = if 1 < (u + off) / 60 - (t + off) / 60 then (60 : Int) • st₁.lastLoad else st₁.cspmSum
    rw [if_pos (by omega), hlast, hentre]
  have hminute : (t + off) / 60 + 1 + n = (u + off) / 60 := by omega
  rw [hminute] at hrellena
  obtain ⟨htm', hmin', hlast', hinit'⟩ := rellena_resto { st₁ with
    lastMin := st₁.tmNow.tmMin
    cspmSum := if 1 < (u + off) / 60 - (t + off) / 60 then (60 : Int) • st₁.lastLoad
      else st₁.cspmSum } n
  have hnueva : ∑ i ∈ range ((u + off) % 60).toNat, f (60 * ((u + off) / 60) - off + i) =
      ((u + off) % 60) • st.lastLoad := by
    rw [sum_desde le_rfl (Int.emod_nonneg _ (by decide)) fun i _ _ ↦ hload _ (by omega),
      Int.toNat_zero, range_zero, sum_empty, zero_add, sub_zero]
  refine ⟨hinit'.trans hinit, ?_, ?_, ?_, hmin'.trans (by rw [htm]), ?_, ?_⟩
  · rw [htm', htm]
  · rw [htm', htm]
  · rw [htm', htm]
  · rw [htm', hlast', htm, hlast, hnueva]
  · exact ⟨hrellena.1, hrellena.2, hrellena.3, hrellena.4⟩

theorem Parcial.congr (hst : Parcial f off t st) (h : ∀ s, s < t → f s = g s) :
    Parcial g off t st where
  initialized := hst.initialized
  tmSec := hst.tmSec
  tmMin := hst.tmMin
  lastSec := hst.lastSec
  lastMin := hst.lastMin
  cspmSum := hst.cspmSum.trans (sum_congr rfl fun i hi ↦ h _ (by rw [mem_range] at hi; omega))
  exacta := hst.exacta.congr fun s hs ↦ h s (by omega)

/-- What is the case behind a call at `t`. -/
structure Cuenta (f : Int → Carga) (off t : Int) (st : Userload) : Prop
    extends Parcial f off t st where
  last : st.last = t
  desde : ∀ s, t ≤ s → f s = st.lastLoad

/-- The end of a call. -/
theorem Parcial.cuenta {c : Carga} (hst : Parcial f off t st) (h : ∀ s, s < t → f s = g s)
    (hdesde : ∀ s, t ≤ s → g s = c) : Cuenta g off t { st with lastLoad := c, last := t } := by
  have hg := hst.congr h
  exact ⟨⟨hg.1, hg.2, hg.3, hg.4, hg.5, hg.6, hg.7.1, hg.7.2, hg.7.3, hg.7.4⟩, rfl, hdesde⟩

/-- A call, when fewer than sixty minutes have ended since the one before. -/
theorem Cuenta.updateLoad {c : Carga} (hst : Cuenta f off t st) (htu : t ≤ u)
    (hhour : (u + off) / 60 < (t + off) / 60 + 60) (h : ∀ s, s < u → f s = g s)
    (hdesde : ∀ s, u ≤ s → g s = c) : Cuenta g off u (st.updateLoad off u c) := by
  have hdiff : entero (u - t) = u - t := entero_eq (by omega) (by omega)
  have hsec : entero (st.tmNow.tmSec + (u - t)) = st.tmNow.tmSec + (u - t) :=
    entero_eq (by rw [hst.tmSec]; omega) (by rw [hst.tmSec]; omega)
  rw [Userload.updateLoad, hst.last, hdiff, hsec]
  obtain rfl | hlt := htu.eq_or_lt
  · have hend := hst.toParcial.cuenta h hdesde
    rw [sub_self, if_pos rfl]
    exact hend
  · have hne : u - t ≠ 0 := by omega
    rw [if_neg hne]
    refine Parcial.cuenta ?_ h hdesde
    split
    · next hsec =>
        obtain ⟨tmHour, hcarry⟩ := acarrea_eq hst.toParcial htu
        have hlater : (t + off) / 60 < (u + off) / 60 := by
          rw [hst.tmSec] at hsec
          omega
        rw [hcarry]
        exact parcial_minuto hst.toParcial hst.desde hlater hhour tmHour
    · next hsec =>
        have hmin : (u + off) / 60 = (t + off) / 60 := by
          rw [hst.tmSec] at hsec
          omega
        exact parcial_segundo hst.toParcial hst.desde htu hmin

theorem sumaMinuto_zero (off m : Int) : sumaMinuto 0 off m = 0 :=
  (sumaMinuto_const fun _ _ ↦ rfl).trans (smul_zero _)

/-- The first minute, which takes a place of the ring for the one before. -/
theorem parcial_inicial (off u : Int) : Parcial 0 off u (Userload.minuto { ({} : Userload) with
    tmNow := localtime off u
    initialized := true
    lastSec := 60
    lastMin := (localtime off u).tmMin }) := by
  obtain ⟨st₀, hst₀⟩ : ∃ st₀, st₀ = { ({} : Userload) with
    tmNow := localtime off u
    initialized := true
    lastSec := 60
    lastMin := (localtime off u).tmMin } := ⟨_, rfl⟩
  have hmins : st₀.minutos = 0 := by
    rw [hst₀]
    simp [Userload.minutos]
  have hnada : st₀.cspmSum + (60 - st₀.lastSec) • st₀.lastLoad = 0 := by
    rw [hst₀]
    simp
  have hcierra : Exacta 0 off ((u + off) / 60) (Userload.guarda { st₀ with
      cspmSum := st₀.cspmSum + (60 - st₀.lastSec) • st₀.lastLoad }).avanza := by
    have hini := exacta_inicial off ((u + off) / 60 - 1)
    have hantes : Exacta 0 off ((u + off) / 60 - 1) { st₀ with
        cspmSum := st₀.cspmSum + (60 - st₀.lastSec) • st₀.lastLoad } := by
      rw [hst₀]
      exact ⟨hini.1, hini.2, hini.3, hini.4⟩
    have hring := hantes.cierra (hnada.trans (sumaMinuto_zero _ _).symm)
    rwa [sub_add_cancel] at hring
  rw [← hst₀, Userload.minuto, hmins]
  obtain ⟨st₁, hst₁⟩ : ∃ st₁, st₁ = Userload.guarda { st₀ with
    cspmSum := st₀.cspmSum + (60 - st₀.lastSec) • st₀.lastLoad } := ⟨_, rfl⟩
  have htm : st₁.tmNow = localtime off u := by rw [hst₁, hst₀]; rfl
  have hlast : st₁.lastLoad = 0 := by rw [hst₁, hst₀]; rfl
  have hinit : st₁.initialized = true := by rw [hst₁, hst₀]; rfl
  rw [← hst₁] at hcierra
  simp only [← hst₁]
  have hring := (exacta_avanza st₁ st₁.tmNow.tmMin
    (if (1 : Int) < 0 then (60 : Int) • st₁.lastLoad else st₁.cspmSum)).mpr hcierra
  obtain ⟨htm', hmin', hlast', hinit'⟩ := rellena_resto { st₁ with
    lastMin := st₁.tmNow.tmMin
    cspmSum := if (1 : Int) < 0 then (60 : Int) • st₁.lastLoad else st₁.cspmSum } 0
  refine ⟨hinit'.trans hinit, ?_, ?_, ?_, hmin'.trans (by rw [htm]; rfl), ?_, ?_⟩
  · exact (congrArg Tm.tmSec (htm'.trans htm)).trans rfl
  · exact (congrArg Tm.tmMin (htm'.trans htm)).trans rfl
  · exact (congrArg Tm.tmSec (htm'.trans htm)).trans rfl
  · have hsum : ∑ i ∈ range ((u + off) % 60).toNat,
        (0 : Int → Carga) (60 * ((u + off) / 60) - off + i) = 0 := sum_eq_zero fun _ _ ↦ rfl
    rw [hsum]
    show _ • (Userload.rellena _ 0).lastLoad = 0
    rw [hlast', hlast, smul_zero]
  · exact ⟨hring.1, hring.2, hring.3, hring.4⟩

/-- The first call, which `initload` makes. -/
theorem cuenta_inicial {c : Carga} (hu : 86400 ≤ u) (hlt : u < 2 ^ 31) (h : ∀ s, s < u → g s = 0)
    (hdesde : ∀ s, u ≤ s → g s = c) : Cuenta g off u (Userload.updateLoad {} off u c) := by
  have hne : ¬u - 0 = 0 := by omega
  have hdiff : entero (u - 0) = u - 0 := entero_eq (by omega) (by omega)
  have hint : entero (0 + (u - 0)) = 0 + (u - 0) := entero_eq (by omega) (by omega)
  have hsec : 59 < 0 + (u - 0) := by omega
  have hmin : 59 < 0 + (0 + (u - 0)) / 60 := by omega
  have hhour : 23 < 0 + (0 + (0 + (u - 0)) / 60) / 60 := by omega
  have hface : Userload.acarrea {} off u (0 + (u - 0)) = { ({} : Userload) with
      tmNow := localtime off u
      initialized := true
      lastSec := 60
      lastMin := (localtime off u).tmMin } := by
    simp only [Userload.acarrea, if_pos hmin, if_pos hhour, if_neg Bool.false_ne_true]
  have hparcial : Parcial 0 off u (Userload.acarrea {} off u (0 + (u - 0))).minuto := by
    rw [hface]
    exact parcial_inicial off u
  rw [Userload.updateLoad, hdiff, if_neg hne]
  show Cuenta g off u { (if 59 < entero (0 + (u - 0)) then
    (Userload.acarrea {} off u (entero (0 + (u - 0)))).minuto
      else Userload.segundo {} (entero (0 + (u - 0)))) with lastLoad := c, last := u }
  rw [hint, if_pos hsec]
  exact hparcial.cuenta (fun s hs ↦ (h s hs).symm) hdesde

end

/-! ## Whole runs -/

/-- A call is what the seconds from its own on see. -/
theorem presentes_concat (l : List Llamada) (a : Llamada) (s : Int) :
    presentes (l ++ [a]) s = if a.now ≤ s then a.carga else presentes l s := by
  rw [presentes, List.filter_append]
  by_cases h : a.now ≤ s
  · simp [h]
  · simp [h, presentes]

/-- The clock of a run that begins behind the first day of the epoch and while its seconds fit into
an `int`, where fewer than sixty minutes end between two calls. -/
structure Puntual (off : Int) (l : List Llamada) : Prop where
  inicio : ∀ a ∈ l.head?, 86400 ≤ a.now ∧ a.now < 2 ^ 31
  paso : l.IsChain fun a b ↦ a.now ≤ b.now ∧ (b.now + off) / 60 < (a.now + off) / 60 + 60

theorem presentes_antes {l : List Llamada} {a : Llamada} {s : Int} (h : s < a.now) :
    presentes l s = presentes (l ++ [a]) s := by
  rw [presentes_concat, if_neg (not_le.mpr h)]

theorem presentes_desde {l : List Llamada} {a : Llamada} {s : Int} (h : a.now ≤ s) :
    presentes (l ++ [a]) s = a.carga := by
  rw [presentes_concat, if_pos h]

/-- The invariant behind the last call of a run. -/
theorem cuenta_final {off : Int} {l : List Llamada} {a : Llamada} (hl : Puntual off (l ++ [a])) :
    Cuenta (presentes (l ++ [a])) off a.now (Run.final (Llamada.paso off) {} (l ++ [a])) := by
  induction l using List.reverseRecOn generalizing a with
  | nil =>
      exact cuenta_inicial (hl.inicio a rfl).1 (hl.inicio a rfl).2 (fun s hs ↦ (presentes_antes (l := []) hs).symm)
        fun s hs ↦ presentes_desde (l := []) hs
  | append_singleton l b ih =>
      obtain ⟨hchain, -, hlast⟩ := List.isChain_append.mp hl.paso
      obtain ⟨hclock, hhour⟩ := hlast b (by simp) a rfl
      have hprev : Puntual off (l ++ [b]) := by
        refine ⟨fun c hc ↦ hl.inicio c ?_, hchain⟩
        rw [List.head?_append, Option.mem_def.mp hc]
        rfl
      rw [Run.final_append _ (l ++ [b])]
      exact (ih hprev).updateLoad hclock hhour (fun s hs ↦ presentes_antes hs)
        fun s hs ↦ presentes_desde hs

/-- Behind each call the ring of the minutes is exact. -/
theorem exacta_final {off : Int} {l : List Llamada} (hl : Puntual off l) :
    Exacta (presentes l) off (minutoActual off l) (Run.final (Llamada.paso off) {} l) := by
  cases l using List.reverseRecOn with
  | nil => exact exacta_inicial off _
  | append_singleton l a =>
      have hmin : minutoActual off (l ++ [a]) = (a.now + off) / 60 := by simp [minutoActual]
      rw [hmin]
      exact (cuenta_final hl).exacta

/-- A call at the end of a minute, and the last one that still may follow it. -/
theorem exacta_final_dia : Puntual 7200 [⟨86400, 1, 1⟩, ⟨86459, 2, 1⟩, ⟨89999, 2, 1⟩] ∧
    (Run.final (Llamada.paso 7200) {}
      [⟨86400, 1, 1⟩, ⟨86459, 2, 1⟩, ⟨89999, 2, 1⟩]).mIndex < 60 := by
  have hl : Puntual 7200 [⟨86400, 1, 1⟩, ⟨86459, 2, 1⟩, ⟨89999, 2, 1⟩] := by
    refine ⟨fun a ha ↦ ?_, ?_⟩
    · obtain rfl : (⟨86400, 1, 1⟩ : Llamada) = a := by simpa using ha
      decide
    · simp
  exact ⟨hl, (exacta_final hl).mIndex_lt⟩

/-- A call in the last second of a minute, and one 3541 seconds later, in the first second of a
minute. -/
theorem not_exacta : ¬∀ (off : Int) (l : List Llamada),
    (∀ a ∈ l.head?, 86400 ≤ a.now ∧ a.now < 2 ^ 31) →
    (l.IsChain fun a b ↦ a.now ≤ b.now ∧ b.now ≤ a.now + 3600) →
      Exacta (presentes l) off (minutoActual off l) (Run.final (Llamada.paso off) {} l) := by
  intro h
  have hmal := h 0 [⟨86459, 1, 0⟩, ⟨90000, 1, 0⟩] (by simp) (by simp)
  have hslot := congrFun (hmal.cspm_eq 1 le_rfl (by decide)) .clientCount
  exact absurd hslot (by decide +kernel)

end Ircd.User.Load
