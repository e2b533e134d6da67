import Ircd.Lib.Log

/-!
# A replica that lags behind a log

A primary keeps a log of stamped records, from which old records are dropped by compaction. A
replica that has everything up to a stamp is brought up to date by the newer records of the log:
`CatchesUp`. What is in flight to the replica can be lost, and then `Covers` says which keys still
come right: those that the primary has. `Follows` joins both, with one lemma for each step: a new
record, compaction, the transfer of a part of the log, the arrival of a record and the loss of those
in flight. `Follows.eq` says that a replica with the stamp of the primary has its map.
-/

namespace Replica

open Log

/-- A type of records, each with a stamp and at most one assignment. -/
structure Stamped (α κ ν : Type*) where
  stamp : α → Nat
  effect : α → Option (Entry κ ν)

namespace Stamped

variable {α κ ν : Type*} (r : Stamped α κ ν)

/-- The assignments of records. -/
def effects (log : List α) : List (Entry κ ν) :=
  log.filterMap r.effect

/-- The records behind a stamp. -/
def newer (s : Nat) (log : List α) : List α :=
  log.filter fun a ↦ decide (s < r.stamp a)

/-- The stamps increase. -/
def Sorted (log : List α) : Prop :=
  log.Pairwise fun a b ↦ r.stamp a < r.stamp b

@[simp] theorem effects_nil : r.effects [] = [] := rfl

theorem effects_append (log rest : List α) :
    r.effects (log ++ rest) = r.effects log ++ r.effects rest :=
  List.filterMap_append

theorem newer_append (s : Nat) (log rest : List α) :
    r.newer s (log ++ rest) = r.newer s log ++ r.newer s rest :=
  List.filter_append ..

theorem newer_singleton {s : Nat} {a : α} (h : s < r.stamp a) : r.newer s [a] = [a] := by
  simp [newer, h]

theorem newer_eq_nil {s : Nat} {log : List α} (h : ∀ a ∈ log, r.stamp a ≤ s) :
    r.newer s log = [] := by
  rw [newer, List.filter_eq_nil_iff]
  intro a ha
  have hle := h a ha
  simp only [decide_eq_true_eq]
  omega

/-- The newer records of a sorted log are its end. -/
theorem exists_newer {log : List α} (h : r.Sorted log) (s : Nat) :
    ∃ older, log = older ++ r.newer s log := by
  induction log with
  | nil => exact ⟨[], rfl⟩
  | cons a log ih =>
      obtain ⟨ha, hlog⟩ := List.pairwise_cons.mp h
      by_cases hs : s < r.stamp a
      · have hall : r.newer s (a :: log) = a :: log := by
          rw [newer, List.filter_eq_self, List.forall_mem_cons]
          exact ⟨by simpa using hs, fun b hb ↦ by simpa using Nat.lt_trans hs (ha b hb)⟩
        exact ⟨[], by rw [hall, List.nil_append]⟩
      · obtain ⟨older, holder⟩ := ih hlog
        refine ⟨a :: older, ?_⟩
        have hnewer : r.newer s (a :: log) = r.newer s log := by simp [newer, hs]
        rw [hnewer, List.cons_append, ← holder]

/-- Behind the first of the newer records are the rest of them. -/
theorem newer_of_cons {log rest : List α} {s : Nat} {a : α} (h : r.Sorted log)
    (hnewer : r.newer s log = a :: rest) : r.newer (r.stamp a) log = rest := by
  obtain ⟨older, hlog⟩ := r.exists_newer h s
  rw [hnewer] at hlog
  rw [hlog] at h
  obtain ⟨-, hrest, hbefore⟩ := List.pairwise_append.mp h
  have hbehind := (List.pairwise_cons.mp hrest).1
  have holder : r.newer (r.stamp a) older = [] :=
    r.newer_eq_nil fun b hb ↦ Nat.le_of_lt (hbefore b hb a (List.mem_cons_self ..))
  have hself : r.newer (r.stamp a) [a] = [] := r.newer_eq_nil (by simp)
  have hall : r.newer (r.stamp a) rest = rest := by
    rw [newer, List.filter_eq_self]
    exact fun b hb ↦ by simpa using hbehind b hb
  rw [hlog, newer_append, holder, List.nil_append, ← List.singleton_append, newer_append, hself, hall,
    List.nil_append]

/-- The last stamp of records, or `s`. -/
def lastStamp (s : Nat) (log : List α) : Nat :=
  log.foldl (fun _ a ↦ r.stamp a) s

@[simp] theorem lastStamp_nil (s : Nat) : r.lastStamp s [] = s := rfl

@[simp] theorem lastStamp_cons (s : Nat) (a : α) (log : List α) :
    r.lastStamp s (a :: log) = r.lastStamp (r.stamp a) log := rfl

theorem lastStamp_append_singleton (s : Nat) (log : List α) (a : α) :
    r.lastStamp s (log ++ [a]) = r.stamp a := by
  rw [lastStamp, List.foldl_append]
  rfl

theorem lastStamp_append (s : Nat) (log rest : List α) :
    r.lastStamp s (log ++ rest) = r.lastStamp (r.lastStamp s log) rest :=
  List.foldl_append

/-- A bound on the stamps is a bound on the last one. -/
theorem lastStamp_le {s b : Nat} {log : List α} (hs : s ≤ b) (hlog : ∀ a ∈ log, r.stamp a ≤ b) :
    r.lastStamp s log ≤ b := by
  induction log generalizing s with
  | nil => exact hs
  | cons a log ih =>
      rw [List.forall_mem_cons] at hlog
      exact ih hlog.1 hlog.2

/-- The stamps of a sorted log are at most the last one. -/
theorem le_lastStamp {log : List α} (h : r.Sorted log) (s : Nat) :
    ∀ a ∈ log, r.stamp a ≤ r.lastStamp s log := by
  rcases List.eq_nil_or_concat log with rfl | ⟨older, b, rfl⟩
  · simp
  · rw [List.concat_eq_append] at h ⊢
    rw [lastStamp_append_singleton]
    obtain ⟨-, -, hbefore⟩ := List.pairwise_append.mp h
    intro a ha
    rcases List.mem_append.mp ha with ha | ha
    · exact Nat.le_of_lt (hbefore a ha b (List.mem_singleton_self b))
    · exact Nat.le_of_eq (congrArg r.stamp (List.mem_singleton.mp ha))

/-- There are newer records up to the last stamp. -/
theorem newer_ne_nil {log : List α} {s b : Nat} (hb : b ≤ s) (hs : s < r.lastStamp b log) :
    r.newer s log ≠ [] := by
  intro hnil
  have hle : ∀ a ∈ log, r.stamp a ≤ s := by
    rw [newer, List.filter_eq_nil_iff] at hnil
    intro a ha
    have hno := hnil a ha
    simp only [decide_eq_true_eq] at hno
    omega
  have hlast := r.lastStamp_le hb hle
  omega

/-- The newer records end with the last record. -/
theorem lastStamp_newer {log : List α} (h : r.Sorted log) {s : Nat} (hnewer : r.newer s log ≠ [])
    (b : Nat) : r.lastStamp s (r.newer s log) = r.lastStamp b log := by
  obtain ⟨older, holder⟩ := r.exists_newer h s
  conv_rhs => rw [holder, lastStamp_append]
  obtain ⟨a, rest, hcons⟩ := List.exists_cons_of_ne_nil hnewer
  rw [hcons, lastStamp_cons, lastStamp_cons]

/-- A sorted log stays sorted with a new record. -/
theorem Sorted.append_singleton {r : Stamped α κ ν} {log : List α} (h : r.Sorted log) {a : α}
    (ha : ∀ b ∈ log, r.stamp b < r.stamp a) : r.Sorted (log ++ [a]) := by
  refine List.pairwise_append.mpr ⟨h, List.pairwise_singleton .., fun b hb c hc ↦ ?_⟩
  rw [List.mem_singleton.mp hc]
  exact ha b hb

/-- Behind a first part of the newer records is the second part. -/
theorem newer_lastStamp {log xs ys : List α} {s : Nat} (h : r.Sorted log)
    (hnewer : r.newer s log = xs ++ ys) : r.newer (r.lastStamp s xs) log = ys := by
  induction xs generalizing s with
  | nil => exact hnewer
  | cons a xs ih => exact ih (r.newer_of_cons h hnewer)

section Maps

variable [DecidableEq κ]

/-- A map after records. -/
def after (n : κ → Option ν) (log : List α) : κ → Option ν :=
  replay n (r.effects log)

@[simp] theorem after_nil (n : κ → Option ν) : r.after n [] = n := rfl

theorem after_append (n : κ → Option ν) (log rest : List α) :
    r.after n (log ++ rest) = r.after (r.after n log) rest := by
  rw [after, effects_append, replay_append]
  rfl

theorem after_cons (n : κ → Option ν) (a : α) (log : List α) :
    r.after n (a :: log) = r.after (r.after n [a]) log :=
  r.after_append n [a] log

/-- The log is a record of the map. -/
def Records (m : κ → Option ν) (log : List α) : Prop :=
  r.after empty log = m

/-- A replica with the map `n` that asks for the records behind `s` gets the map `m`. -/
def CatchesUp (m : κ → Option ν) (log : List α) (n : κ → Option ν) (s : Nat) : Prop :=
  r.after n (r.newer s log) = m

/-- The replica has the value of each key of `m` that no record behind `s` names. -/
def Covers (m : κ → Option ν) (log : List α) (n : κ → Option ν) (s : Nat) : Prop :=
  ∀ k v, m k = some v → (∀ e ∈ r.effects (r.newer s log), e.1 ≠ k) → n k = some v

/-- `Covers` holds now and after each of the records in flight. -/
def CoversAll (m : κ → Option ν) (log : List α) (n : κ → Option ν) (s : Nat) : List α → Prop
  | [] => r.Covers m log n s
  | a :: flight => r.Covers m log n s ∧ CoversAll m log (r.after n [a]) (r.stamp a) flight

variable {r} {m n : κ → Option ν} {log : List α} {s : Nat}

/-- What the newer records make of a map: they decide the keys they name. -/
theorem Records.after_newer (hm : r.Records m log) (hlog : r.Sorted log) {k : κ}
    (hk : ∃ e ∈ r.effects (r.newer s log), e.1 = k) : r.after n (r.newer s log) k = m k := by
  obtain ⟨older, holder⟩ := r.exists_newer hlog s
  rw [← hm]
  conv_rhs => rw [holder, after_append]
  exact replay_congr hk

/-- The newer records that name a key of the primary have its value among them. -/
theorem Records.mem_newer (hm : r.Records m log) (hlog : r.Sorted log) {k : κ} {v : ν}
    (hk : m k = some v) (hno : ∃ e ∈ r.effects (r.newer s log), e.1 = k) :
    (k, some v) ∈ r.effects (r.newer s log) := by
  have hafter := hm.after_newer (n := empty) hlog hno
  rw [hk] at hafter
  exact mem_of_replay_empty hafter

theorem Covers.catchesUp (h : r.Covers m log n s) (hm : r.Records m log) (hlog : r.Sorted log)
    (hn : ∀ k, m k = none → n k ≠ none → ∃ e ∈ r.effects (r.newer s log), e.1 = k) :
    r.CatchesUp m log n s := by
  funext k
  by_cases hk : ∃ e ∈ r.effects (r.newer s log), e.1 = k
  · exact hm.after_newer hlog hk
  · have hno : ∀ e ∈ r.effects (r.newer s log), e.1 ≠ k := fun e he hek ↦ hk ⟨e, he, hek⟩
    rw [after, replay_of_not_mem hno]
    cases hmk : m k with
    | none =>
        by_contra hnk
        exact hk (hn k hmk hnk)
    | some v => exact h k v hmk hno

/-! ### A new record -/

theorem CatchesUp.append (h : r.CatchesUp m log n s) {a : α} (ha : s < r.stamp a) :
    r.CatchesUp (r.after m [a]) (log ++ [a]) n s := by
  rw [CatchesUp, newer_append, r.newer_singleton ha, after_append, h]

theorem Covers.append (h : r.Covers m log n s) {a : α} (ha : s < r.stamp a) :
    r.Covers (r.after m [a]) (log ++ [a]) n s := by
  intro k v hk hno
  rw [newer_append, r.newer_singleton ha, effects_append, List.forall_mem_append] at hno
  rw [after, replay_of_not_mem hno.2] at hk
  exact h k v hk hno.1

theorem Records.append (h : r.Records m log) (a : α) : r.Records (r.after m [a]) (log ++ [a]) := by
  rw [Records, after_append, h]

/-- A record without an assignment changes no map. -/
theorem after_of_effect {a : α} (ha : r.effect a = none) (m : κ → Option ν) : r.after m [a] = m := by
  simp [after, effects, ha]

/-! ### Records in flight -/

theorem CoversAll.covers {flight : List α} (h : r.CoversAll m log n s flight) :
    r.Covers m log n s := by
  cases flight with
  | nil => exact h
  | cons a flight => exact h.1

/-- What a change of the primary keeps of `Covers` below a stamp, it keeps in flight. -/
theorem CoversAll.imp {m' : κ → Option ν} {log' flight : List α} {b : Nat}
    (hstep : ∀ n s, s ≤ b → r.Covers m log n s → r.Covers m' log' n s) (hs : s ≤ b)
    (hflight : ∀ a ∈ flight, r.stamp a ≤ b) (h : r.CoversAll m log n s flight) :
    r.CoversAll m' log' n s flight := by
  induction flight generalizing n s with
  | nil => exact hstep n s hs h
  | cons a flight ih =>
      rw [List.forall_mem_cons] at hflight
      exact ⟨hstep n s hs h.1, ih hflight.1 hflight.2 h.2⟩

/-- Sending a part of the newer records keeps `Covers` after each of them. -/
theorem Covers.transfer (h : r.Covers m log n s) (hm : r.Records m log) (hlog : r.Sorted log)
    {xs ys : List α} (hnewer : r.newer s log = xs ++ ys) : r.CoversAll m log n s xs := by
  induction xs generalizing n s with
  | nil => exact h
  | cons a xs ih =>
      have hrest : r.newer (r.stamp a) log = xs ++ ys := r.newer_of_cons hlog hnewer
      refine ⟨h, ih (fun k v hk hno ↦ ?_) hrest⟩
      rw [hrest] at hno
      have hall : r.after n (r.newer s log) k = r.after n [a] k := by
        rw [hnewer, List.cons_append, after_cons]
        exact replay_of_not_mem hno
      by_cases ha : ∃ e ∈ r.effects (r.newer s log), e.1 = k
      · rw [← hall, hm.after_newer hlog ha, hk]
      · have hnone : ∀ e ∈ r.effects (r.newer s log), e.1 ≠ k := fun e he hek ↦ ha ⟨e, he, hek⟩
        rw [← hall, after, replay_of_not_mem hnone]
        exact h k v hk hnone

/-- The same with records in flight before. -/
theorem CoversAll.transfer {flight : List α} (h : r.CoversAll m log n s flight)
    (hm : r.Records m log) (hlog : r.Sorted log) {xs ys : List α}
    (hnewer : r.newer (r.lastStamp s flight) log = xs ++ ys) :
    r.CoversAll m log n s (flight ++ xs) := by
  induction flight generalizing n s with
  | nil => exact Covers.transfer h hm hlog hnewer
  | cons a flight ih => exact ⟨h.1, ih h.2 hnewer⟩

/-- After a part of the newer records, the rest of them is what is missing. -/
theorem CatchesUp.transfer (h : r.CatchesUp m log n s) (hlog : r.Sorted log) {xs ys : List α}
    (hnewer : r.newer s log = xs ++ ys) : r.CatchesUp m log (r.after n xs) (r.lastStamp s xs) := by
  rw [CatchesUp, r.newer_lastStamp hlog hnewer, ← after_append, ← hnewer]
  exact h

/-! ### Compaction -/

section Compaction

variable [DecidableEq ν] (r)

/-- The records that a compaction keeps. -/
def compacted (m : κ → Option ν) (log : List α) : List α :=
  log.filter fun a ↦ (r.effect a).any (kept m)

omit [DecidableEq κ] in
theorem effects_compacted (m : κ → Option ν) (log : List α) :
    r.effects (r.compacted m log) = (r.effects log).filter (kept m) := by
  induction log with
  | nil => rfl
  | cons a log ih =>
      rw [compacted, effects] at ih ⊢
      cases ha : r.effect a with
      | none => simp [effects, ha, ih]
      | some e => by_cases he : kept m e = true <;> simp [effects, ha, he, ih]

omit [DecidableEq κ] in
theorem newer_compacted (m : κ → Option ν) (log : List α) (s : Nat) :
    r.newer s (r.compacted m log) = r.compacted m (r.newer s log) :=
  List.filter_comm ..

variable {r}

theorem Records.compacted (hm : r.Records m log) : r.Records m (r.compacted m log) := by
  rw [Records, after, effects_compacted]
  refine replay_filter_kept fun k v hk ↦ ?_
  rw [← hm] at hk
  exact mem_of_replay_empty hk

theorem Covers.compacted (h : r.Covers m log n s) (hm : r.Records m log) (hlog : r.Sorted log) :
    r.Covers m (r.compacted m log) n s := by
  intro k v hk hno
  refine h k v hk fun e he hek ↦ ?_
  have hmem := hm.mem_newer hlog hk ⟨e, he, hek⟩
  rw [newer_compacted, effects_compacted] at hno
  exact hno _ (List.mem_filter.mpr ⟨hmem, by simp [kept, hk]⟩) rfl

/-- Compaction loses deletions, so that the replica must hold no key that the primary lacks. -/
theorem CatchesUp.compacted (h : r.CatchesUp m log n s) (hm : r.Records m log) (hlog : r.Sorted log)
    (hn : ∀ k, m k = none → n k = none) : r.CatchesUp m (r.compacted m log) n s := by
  have hcovers : r.Covers m log n s := by
    intro k v hk hno
    rw [← hk, ← h, after, replay_of_not_mem hno]
  refine (hcovers.compacted hm hlog).catchesUp hm.compacted ?_ fun k hk hnk ↦ absurd (hn k hk) hnk
  exact List.Pairwise.filter _ hlog

end Compaction

/-! ### Primary, replica and what is in flight -/

/-- The log of a primary with the map `m` and the last stamp `b`. -/
structure Keeps (r : Stamped α κ ν) (m : κ → Option ν) (b : Nat) (log : List α) : Prop where
  sorted : r.Sorted log
  records : r.Records m log
  last : b = r.lastStamp 0 log

theorem Keeps.stamp_le {b : Nat} (h : r.Keeps m b log) : ∀ a ∈ log, r.stamp a ≤ b := by
  rw [h.last]
  exact r.le_lastStamp h.sorted 0

/-- A replica with the map `n` and the stamp `s` follows a primary, with records in flight. -/
structure Follows (r : Stamped α κ ν) (m : κ → Option ν) (b : Nat) (log flight : List α)
    (n : κ → Option ν) (s : Nat) : Prop where
  le : s ≤ b
  sorted : r.Sorted flight
  bounds : ∀ a ∈ flight, s < r.stamp a ∧ r.stamp a ≤ b
  covers : r.CoversAll m log n s flight
  catchesUp : r.CatchesUp m log (r.after n flight) (r.lastStamp s flight)

theorem Follows.lastStamp_le {b : Nat} {flight : List α} (h : r.Follows m b log flight n s) :
    r.lastStamp s flight ≤ b :=
  r.lastStamp_le h.le fun a ha ↦ (h.bounds a ha).2

/-- When everything is on its way, the replica will have the map of the primary. -/
theorem Follows.after_eq {b : Nat} {flight : List α} (h : r.Follows m b log flight n s)
    (hm : r.Keeps m b log) (hb : r.lastStamp s flight = b) : r.after n flight = m := by
  have hcatch := h.catchesUp
  rwa [hb, CatchesUp, r.newer_eq_nil hm.stamp_le] at hcatch

/-- A replica with the stamp of the primary has its map. -/
theorem Follows.eq {b : Nat} {flight : List α} (h : r.Follows m b log flight n s)
    (hm : r.Keeps m b log) (hb : s = b) : n = m := by
  cases flight with
  | nil => exact h.after_eq hm hb
  | cons a flight =>
      have ha := h.bounds a (List.mem_cons_self ..)
      omega

/-- The primary takes a new record. -/
theorem Follows.append {b : Nat} {flight : List α} (h : r.Follows m b log flight n s) {a : α}
    (ha : b < r.stamp a) :
    r.Follows (r.after m [a]) (r.stamp a) (log ++ [a]) flight n s where
  le := Nat.le_of_lt (Nat.lt_of_le_of_lt h.le ha)
  sorted := h.sorted
  bounds c hc := ⟨(h.bounds c hc).1, Nat.le_of_lt (Nat.lt_of_le_of_lt (h.bounds c hc).2 ha)⟩
  covers := h.covers.imp (fun _ _ hs hcov ↦ hcov.append (Nat.lt_of_le_of_lt hs ha)) h.le
    fun c hc ↦ (h.bounds c hc).2
  catchesUp := h.catchesUp.append (Nat.lt_of_le_of_lt h.lastStamp_le ha)

/-- The primary compacts its log, and has all keys that the replica will have. -/
theorem Follows.compacted [DecidableEq ν] {b : Nat} {flight : List α}
    (h : r.Follows m b log flight n s) (hm : r.Keeps m b log)
    (hn : ∀ k, m k = none → r.after n flight k = none) :
    r.Follows m b (r.compacted m log) flight n s where
  le := h.le
  sorted := h.sorted
  bounds := h.bounds
  covers := h.covers.imp (fun _ _ _ hcov ↦ hcov.compacted hm.records hm.sorted) h.le
    fun c hc ↦ (h.bounds c hc).2
  catchesUp := h.catchesUp.compacted hm.records hm.sorted hn

/-- The primary sends the next records of its log. -/
theorem Follows.send {b : Nat} {flight xs ys : List α} (h : r.Follows m b log flight n s)
    (hm : r.Keeps m b log) (hnewer : r.newer (r.lastStamp s flight) log = xs ++ ys) :
    r.Follows m b log (flight ++ xs) n s := by
  have hmem : ∀ a ∈ xs, a ∈ log ∧ r.lastStamp s flight < r.stamp a := by
    intro a ha
    have hnew : a ∈ r.newer (r.lastStamp s flight) log := by
      rw [hnewer]
      exact List.mem_append_left ys ha
    obtain ⟨hlog, hstamp⟩ := List.mem_filter.mp hnew
    exact ⟨hlog, of_decide_eq_true hstamp⟩
  have hflight : ∀ a ∈ flight, r.stamp a ≤ r.lastStamp s flight := r.le_lastStamp h.sorted s
  refine ⟨h.le, ?_, ?_, h.covers.transfer hm.records hm.sorted hnewer, ?_⟩
  · refine List.pairwise_append.mpr ⟨h.sorted, ?_, fun a ha c hc ↦ ?_⟩
    · have hsorted : r.Sorted (xs ++ ys) := hnewer ▸ List.Pairwise.filter _ hm.sorted
      exact (List.pairwise_append.mp hsorted).1
    · exact Nat.lt_of_le_of_lt (hflight a ha) (hmem c hc).2
  · intro a ha
    rcases List.mem_append.mp ha with ha | ha
    · exact h.bounds a ha
    · obtain ⟨hlog, hstamp⟩ := hmem a ha
      refine ⟨?_, hm.stamp_le a hlog⟩
      cases flight with
      | nil => exact hstamp
      | cons c flight =>
          have hc := (h.bounds c (List.mem_cons_self ..)).1
          have hlast := hflight c (List.mem_cons_self ..)
          omega
  · have htransfer := h.catchesUp.transfer hm.sorted hnewer
    rw [← after_append] at htransfer
    rw [lastStamp_append]
    exact htransfer

/-- The replica takes the first of the records in flight. -/
theorem Follows.deliver {b : Nat} {flight : List α} {a : α}
    (h : r.Follows m b log (a :: flight) n s) :
    r.Follows m b log flight (r.after n [a]) (r.stamp a) := by
  obtain ⟨ha, hflight⟩ := List.forall_mem_cons.mp h.bounds
  obtain ⟨hbehind, hsorted⟩ := List.pairwise_cons.mp h.sorted
  refine ⟨ha.2, hsorted, fun c hc ↦ ⟨hbehind c hc, (hflight c hc).2⟩, h.covers.2, ?_⟩
  have hcatch := h.catchesUp
  rwa [after_cons] at hcatch

/-- What is in flight is lost, and each key that only the replica has is named by newer records. -/
theorem Follows.drop {b : Nat} {flight : List α} (h : r.Follows m b log flight n s)
    (hm : r.Keeps m b log)
    (hn : ∀ k, m k = none → n k ≠ none → ∃ e ∈ r.effects (r.newer s log), e.1 = k) :
    r.Follows m b log [] n s where
  le := h.le
  sorted := List.Pairwise.nil
  bounds := by simp
  covers := h.covers.covers
  catchesUp := h.covers.covers.catchesUp hm.records hm.sorted hn

end Maps

end Stamped

end Replica
