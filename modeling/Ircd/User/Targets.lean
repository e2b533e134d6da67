import Ircd.IPcheck.Registry
import Ircd.Lib.Recency
import Ircd.Lib.Run
import Mathlib.Data.List.Pairwise

/-!
# Targets

`add_target` and `check_target_limit` of `ircd/s_user.c`. A client keeps the hashes of the last
targets it has sent to, and in `nexttarget` the time from which it may send to a new one; what it
has not used of that time counts up to the length of the table. `limite_run` says what the two give
over a run: a bound on the new targets of any interval, and an order of the table by use.
-/

namespace Ircd.User.Targets

open IPcheck Recency

/-! ## The table -/

def MAXTARGETS : Nat := 20

/-- The places at the front of the table that only `check_target_limit` fills. -/
def RESERVEDTARGETS : Nat := 12

/-- The hash of a target, of its address. -/
def hashTarget (target : Nat) : UInt8 :=
  let tmp := (target &&& 0xffff00) >>> 8
  UInt8.ofNat ((tmp * tmp) >>> 12)

/-- `memmove (&t[dst], &t[src], n)`. -/
def memmove (t : List UInt8) (dst src n : Nat) : List UInt8 :=
  t.take dst ++ (t.drop src).take n ++ t.drop (dst + n)

/-- The entries from `i` to `j` move back by one, over the one at `j`, and `hash` comes to `i`. -/
def desplaza (t : List UInt8) (i j : Nat) (hash : UInt8) : List UInt8 :=
  (memmove t (i + 1) i (j - i)).set i hash

theorem length_desplaza {t : List UInt8} {i j : Nat} (hij : i ≤ j) (hj : j < t.length)
    (hash : UInt8) : (desplaza t i j hash).length = t.length := by
  simp only [desplaza, memmove, List.length_set, List.length_append, List.length_take,
    List.length_drop]
  omega

theorem desplaza_append {a b c : List UInt8} (x hash : UInt8) :
    desplaza (a ++ (b ++ x :: c)) a.length (a.length + b.length) hash = a ++ hash :: (b ++ c) := by
  obtain ⟨y, d, hd⟩ : ∃ y d, b ++ x :: c = y :: d := by
    cases b <;> simp
  have htake : (a ++ (b ++ x :: c)).take (a.length + 1) = a ++ [y] := by
    simp [hd, List.take_append]
  have hmove : ((a ++ (b ++ x :: c)).drop a.length).take b.length = b := by
    rw [List.drop_left, List.take_left]
  have hdrop : (a ++ (b ++ x :: c)).drop (a.length + 1 + b.length) = c := by
    have hparts : a ++ (b ++ x :: c) = (a ++ (b ++ [x])) ++ c := by simp
    have hlength : (a ++ (b ++ [x])).length = a.length + 1 + b.length := by
      simp only [List.length_append, List.length_cons, List.length_nil]
      omega
    rw [hparts, ← hlength, List.drop_left]
  rw [desplaza, memmove, Nat.add_sub_cancel_left, htake, hmove, hdrop]
  simp

/-- What the two functions keep of a client. -/
structure Cliente where
  targets : List UInt8
  nexttarget : Int
  largo : targets.length = MAXTARGETS

namespace Cliente

/-- The table with `hash` at `i`, in the place of the entry at `j`. -/
def pon (sptr : Cliente) (i j : Nat) (hash : UInt8) (hij : i ≤ j) (hj : j < sptr.targets.length) :
    Cliente where
  targets := desplaza sptr.targets i j hash
  nexttarget := sptr.nexttarget
  largo := (length_desplaza hij hj hash).trans sptr.largo

theorem ultimo_lt (sptr : Cliente) : MAXTARGETS - 1 < sptr.targets.length := by
  rw [sptr.largo]
  decide

/-- `add_target` from the hash of the target on. -/
def anotaHash (sptr : Cliente) (hash : UInt8) : Cliente :=
  match sptr.targets.finIdxOf? hash with
  | some _ => sptr
  | none => sptr.pon RESERVEDTARGETS (MAXTARGETS - 1) hash (by decide) sptr.ultimo_lt

/-- What `check_target_limit` gives: whether there are too many targets, the seconds that the client
is told to wait, and the client. -/
structure Veredicto where
  limite : Bool
  aviso : Option Int
  sptr : Cliente

/-- `check_target_limit` from the hash of the target on. The argument `exento` says that the client
is a channel service, an operator or docking. -/
def revisaHash (sptr : Cliente) (exento : Bool) (now : Int) (hash : UInt8) (created : Bool) :
    Veredicto :=
  if exento then ⟨false, none, sptr⟩
  else
    match sptr.targets.finIdxOf? hash with
    | some p =>
        if p.val = 0 then ⟨false, none, sptr⟩
        else ⟨false, none, sptr.pon 0 p hash (Nat.zero_le p) p.isLt⟩
    | none =>
        let nuevo := sptr.pon 0 (MAXTARGETS - 1) hash (Nat.zero_le _) sptr.ultimo_lt
        if created then ⟨false, none, nuevo⟩
        else if now < sptr.nexttarget then
          if sptr.nexttarget - now < TARGET_DELAY + 8 then
            let next := sptr.nexttarget + 2
            ⟨true, some (next - now), { sptr with nexttarget := next }⟩
          else ⟨true, none, sptr⟩
        else
          let next := sptr.nexttarget + TARGET_DELAY
          let credito := now - TARGET_DELAY * (MAXTARGETS - 1)
          ⟨false, none, { nuevo with nexttarget := if next < credito then credito else next }⟩

/-- `check_target_limit`. -/
def checkTargetLimit (sptr : Cliente) (exento : Bool) (now : Int) (target : Nat) (created : Bool) :
    Veredicto :=
  sptr.revisaHash exento now (hashTarget target) created

end Cliente

/-! ## Runs -/

/-- A call of one of the two functions, with its time and the hash of the target. -/
inductive Llamada
  | check (now : Int) (hash : UInt8)
  | add (now : Int) (hash : UInt8)

namespace Llamada

def now : Llamada → Int
  | check now _ => now
  | add now _ => now

def hash : Llamada → UInt8
  | check _ hash => hash
  | add _ hash => hash

/-- The client behind a call. -/
def paso : Llamada → Cliente → Cliente
  | check now hash, s => (s.revisaHash false now hash false).sptr
  | add _ hash, s => s.anotaHash hash

/-- A call uses its target: it is not refused. -/
def usa : Llamada → Cliente → Bool
  | check now hash, s => !(s.revisaHash false now hash false).limite
  | add _ _, _ => true

/-- A call of `check_target_limit` that accepts a target which is not in the table. -/
def estrena : Llamada → Cliente → Bool
  | check now hash, s =>
      !(s.revisaHash false now hash false).limite && !s.targets.contains hash
  | add _ _, _ => false

end Llamada

/-- The new targets that a run accepts from `ini` to `fin`. -/
def estrenos (ini fin : Int) : Cliente → List Llamada → Nat
  | _, [] => 0
  | s, a :: l => (if a.estrena s ∧ ini ≤ a.now ∧ a.now ≤ fin then 1 else 0) +
      estrenos ini fin (a.paso s) l

/-- The hashes other than `h` that a run uses. -/
def usados (h : UInt8) : Cliente → List Llamada → Finset UInt8
  | _, [] => ∅
  | s, a :: l => if a.usa s ∧ a.hash ≠ h then insert a.hash (usados h (a.paso s) l)
      else usados h (a.paso s) l

/-- A client that connects at `now`, with the free targets of its address. -/
def Inicial (now : Int) (s : Cliente) : Prop :=
  ∃ libres : FreeTargets, s.nexttarget = now - TARGET_DELAY * ((libres.val : Int) - 1)

/-- The clock does not go back in a run that begins at `now`. -/
def Reloj (now : Int) (l : List Llamada) : Prop :=
  (now :: l.map Llamada.now).Pairwise (· ≤ ·)

/-! ## What a call does -/

namespace Cliente

variable {s : Cliente} {hash : UInt8} {now : Int}

/-- The entry that the loop finds. -/
theorem finIdxOf_parts {p : Fin s.targets.length} (h : s.targets.finIdxOf? hash = some p) :
    ∃ b c, s.targets = b ++ hash :: c ∧ hash ∉ b ∧ b.length = p.val := by
  obtain ⟨hget, hfirst⟩ := List.finIdxOf?_eq_some_iff.mp h
  refine ⟨s.targets.take p, s.targets.drop (p + 1), ?_, ?_, ?_⟩
  · rw [← hget, Fin.getElem_fin, List.getElem_cons_drop, List.take_append_drop]
  · intro hmem
    obtain ⟨k, hk, heq⟩ := List.mem_take_iff_getElem.mp hmem
    have hlt := Nat.lt_min.mp hk
    exact hfirst ⟨k, hlt.2⟩ hlt.1 heq
  · exact List.length_take_of_le (Nat.le_of_lt p.isLt)

/-- The table with its last entry, cut at `i`. -/
theorem targets_parts (s : Cliente) {i : Nat} (hi : i < MAXTARGETS) :
    ∃ a b x, s.targets = a ++ (b ++ [x]) ∧ a.length = i ∧ i + b.length = MAXTARGETS - 1 := by
  have hne : s.targets.drop i ≠ [] := by
    rw [ne_eq, List.drop_eq_nil_iff, s.largo]
    omega
  refine ⟨s.targets.take i, (s.targets.drop i).dropLast, (s.targets.drop i).getLast hne, ?_, ?_, ?_⟩
  · rw [List.dropLast_concat_getLast, List.take_append_drop]
  · rw [List.length_take, s.largo]
    omega
  · rw [List.length_dropLast, List.length_drop, s.largo]
    omega

/-- A target in the table comes to its front, at no cost. -/
theorem check_of_mem (hmem : hash ∈ s.targets) (now : Int) :
    ∃ b c, s.targets = b ++ hash :: c ∧ hash ∉ b ∧
      (s.revisaHash false now hash false).limite = false ∧
      (s.revisaHash false now hash false).sptr.targets = hash :: (b ++ c) ∧
      (s.revisaHash false now hash false).sptr.nexttarget = s.nexttarget := by
  cases hfind : s.targets.finIdxOf? hash with
  | none => exact absurd hmem (List.finIdxOf?_eq_none_iff.mp hfind)
  | some p =>
      obtain ⟨b, c, htargets, hb, hlength⟩ := finIdxOf_parts hfind
      refine ⟨b, c, htargets, hb, ?_⟩
      simp only [revisaHash, hfind, if_neg Bool.false_ne_true]
      by_cases hp : p.val = 0
      · obtain rfl : b = [] := List.length_eq_zero_iff.mp (hlength.trans hp)
        rw [if_pos hp]
        exact ⟨rfl, htargets, rfl⟩
      · rw [if_neg hp]
        refine ⟨rfl, ?_, rfl⟩
        have hmove := desplaza_append (a := []) (b := b) (c := c) hash hash
        rw [List.nil_append, ← htargets, List.length_nil, Nat.zero_add, hlength] at hmove
        exact hmove

/-- A target that comes too early. -/
theorem check_of_lt (hmem : hash ∉ s.targets) (hnow : now < s.nexttarget) :
    (s.revisaHash false now hash false).limite = true ∧
      (s.revisaHash false now hash false).sptr.targets = s.targets ∧
      (s.revisaHash false now hash false).sptr.nexttarget =
        if s.nexttarget - now < TARGET_DELAY + 8 then s.nexttarget + 2 else s.nexttarget := by
  have hfind := List.finIdxOf?_eq_none_iff.mpr hmem
  simp only [revisaHash, hfind, if_neg Bool.false_ne_true, if_pos hnow]
  split <;> exact ⟨rfl, rfl, rfl⟩

/-- A new target that is accepted. -/
theorem check_of_le (hmem : hash ∉ s.targets) (hnow : s.nexttarget ≤ now) :
    ∃ b x, s.targets = b ++ [x] ∧ (s.revisaHash false now hash false).limite = false ∧
      (s.revisaHash false now hash false).sptr.targets = hash :: b ∧
      (s.revisaHash false now hash false).sptr.nexttarget =
        max (s.nexttarget + TARGET_DELAY) (now - TARGET_DELAY * (MAXTARGETS - 1)) := by
  have hfind := List.finIdxOf?_eq_none_iff.mpr hmem
  obtain ⟨a, b, x, htargets, ha, hb⟩ := s.targets_parts (i := 0) (by decide)
  obtain rfl : a = [] := List.length_eq_zero_iff.mp ha
  simp only [revisaHash, hfind, if_neg Bool.false_ne_true, if_neg (not_lt.mpr hnow)]
  refine ⟨b, x, htargets, trivial, ?_, ?_⟩
  · have hmove := desplaza_append (a := []) (b := b) (c := []) x hash
    rw [← htargets, List.length_nil, hb, List.nil_append, List.append_nil] at hmove
    exact hmove
  · split <;> omega

/-- A new target of `add_target`. -/
theorem add_of_not_mem (hmem : hash ∉ s.targets) :
    ∃ a b x, s.targets = a ++ (b ++ [x]) ∧ a.length = RESERVEDTARGETS ∧
      (s.anotaHash hash).targets = a ++ hash :: b := by
  have hfind := List.finIdxOf?_eq_none_iff.mpr hmem
  obtain ⟨a, b, x, htargets, ha, hb⟩ := s.targets_parts (i := RESERVEDTARGETS) (by decide)
  refine ⟨a, b, x, htargets, ha, ?_⟩
  have hmove := desplaza_append (a := a) (b := b) (c := []) x hash
  rw [← htargets, ha, hb, List.append_nil] at hmove
  simp only [anotaHash, hfind]
  exact hmove

theorem add_of_mem (hmem : hash ∈ s.targets) : s.anotaHash hash = s := by
  cases hfind : s.targets.finIdxOf? hash with
  | none => exact absurd hmem (List.finIdxOf?_eq_none_iff.mp hfind)
  | some p => simp only [anotaHash, hfind]

theorem nexttarget_anotaHash (s : Cliente) (hash : UInt8) :
    (s.anotaHash hash).nexttarget = s.nexttarget := by
  rw [anotaHash]
  split <;> rfl

end Cliente

/-! ## The rate -/

variable {s : Cliente} {a : Llamada} {l : List Llamada} {ini fin : Int}

/-- Behind a call `nexttarget` is not earlier than before it. -/
theorem nexttarget_le_paso (a : Llamada) (s : Cliente) :
    s.nexttarget ≤ (a.paso s).nexttarget := by
  cases a with
  | add now hash => exact (s.nexttarget_anotaHash hash).ge
  | check now hash =>
      by_cases hmem : hash ∈ s.targets
      · obtain ⟨b, c, -, -, -, -, hnext⟩ := Cliente.check_of_mem hmem now
        exact hnext.ge
      · obtain hnow | hnow := lt_or_ge now s.nexttarget
        · obtain ⟨-, -, hnext⟩ := Cliente.check_of_lt hmem hnow
          refine le_of_le_of_eq ?_ hnext.symm
          split <;> omega
        · obtain ⟨b, x, -, -, -, hnext⟩ := Cliente.check_of_le hmem hnow
          refine le_of_le_of_eq ?_ hnext.symm
          have hdelay : (0 : Int) ≤ TARGET_DELAY := by decide
          omega

/-- A new target is accepted from `nexttarget` on, and takes a delay of it. -/
theorem estrena_paso (h : a.estrena s = true) : s.nexttarget ≤ a.now ∧
    (a.paso s).nexttarget =
      max (s.nexttarget + TARGET_DELAY) (a.now - TARGET_DELAY * (MAXTARGETS - 1)) := by
  cases a with
  | add now hash => cases h
  | check now hash =>
      have hparts : (s.revisaHash false now hash false).limite = false ∧
          hash ∉ s.targets := by
        simpa [Llamada.estrena] using h
      obtain ⟨hlimite, hmem⟩ := hparts
      obtain hnow | hnow := lt_or_ge now s.nexttarget
      · rw [(Cliente.check_of_lt hmem hnow).1] at hlimite
        cases hlimite
      · obtain ⟨b, x, -, -, -, hnext⟩ := Cliente.check_of_le hmem hnow
        exact ⟨hnow, hnext⟩

theorem delay_eq : ((TARGET_DELAY : Nat) : Int) = 128 := rfl

/-- Each new target of an interval takes a delay. -/
theorem estrenos_nexttarget (ini fin : Int) (s : Cliente) (l : List Llamada) :
    estrenos ini fin s l = 0 ∨
      s.nexttarget + TARGET_DELAY * ((estrenos ini fin s l : Int) - 1) ≤ fin := by
  induction l generalizing s with
  | nil => exact .inl rfl
  | cons a l ih =>
      have hmono := nexttarget_le_paso a s
      have hresto := ih (a.paso s)
      rw [estrenos]
      rw [delay_eq] at hresto ⊢
      split
      · next hcuenta =>
          obtain ⟨hestrena, -, hfin⟩ := hcuenta
          obtain ⟨hnow, hnext⟩ := estrena_paso hestrena
          rw [delay_eq] at hnext
          push_cast
          omega
      · rw [Nat.zero_add]
        omega

/-- The new targets of an interval of `T` seconds. -/
theorem estrenos_le (ini : Int) (T : Nat) (s : Cliente) (l : List Llamada) :
    estrenos ini (ini + T) s l ≤ MAXTARGETS + 1 + T / TARGET_DELAY := by
  induction l generalizing s with
  | nil => exact Nat.zero_le _
  | cons a l ih =>
      rw [estrenos]
      split
      · next hcuenta =>
          -- Behind the first one, what has not been used counts up to the length of the table.
          obtain ⟨hestrena, hini, -⟩ := hcuenta
          obtain ⟨-, hnext⟩ := estrena_paso hestrena
          have hresto := estrenos_nexttarget ini (ini + T) (a.paso s) l
          have hmax : ((MAXTARGETS : Nat) : Int) = 20 := rfl
          have hmax' : MAXTARGETS = 20 := rfl
          have hdelay : TARGET_DELAY = 128 := rfl
          rw [delay_eq] at hresto hnext
          rw [hmax] at hnext
          rw [hmax', hdelay]
          omega
      · rw [Nat.zero_add]
        exact ih (a.paso s)

/-! ## The clock -/

/-- `nexttarget` is not too far ahead of the clock. -/
theorem nexttarget_paso_le {now : Int} (ha : a.now ≤ now)
    (hs : s.nexttarget ≤ now + TARGET_DELAY + 9) :
    (a.paso s).nexttarget ≤ now + TARGET_DELAY + 9 := by
  rw [delay_eq] at hs ⊢
  cases a with
  | add t hash => exact (s.nexttarget_anotaHash hash).trans_le hs
  | check t hash =>
      have ht : t ≤ now := ha
      by_cases hmem : hash ∈ s.targets
      · obtain ⟨b, c, -, -, -, -, hnext⟩ := Cliente.check_of_mem hmem t
        exact hnext.trans_le hs
      · obtain hnow | hnow := lt_or_ge t s.nexttarget
        · obtain ⟨-, -, hnext⟩ := Cliente.check_of_lt hmem hnow
          rw [delay_eq] at hnext
          refine hnext.trans_le ?_
          split <;> omega
        · obtain ⟨b, x, -, -, -, hnext⟩ := Cliente.check_of_le hmem hnow
          rw [delay_eq] at hnext
          refine hnext.trans_le ?_
          have hmax : ((MAXTARGETS : Nat) : Int) = 20 := rfl
          omega

/-! ## The order of the table -/

variable {h : UInt8} {n : Nat} {u : Finset UInt8}

/-- A new entry that is not `h` itself. -/
theorem kept_enter (hk : Kept h n MAXTARGETS u s.targets) {hash x : UInt8} {a b : List UInt8}
    (hmem : hash ∉ s.targets) (htargets : s.targets = a ++ (b ++ [x])) :
    Kept h n MAXTARGETS (if hash ≠ h then insert hash u else u) (a ++ hash :: b) := by
  by_cases hne : hash = h
  · rw [if_neg (not_not.mpr hne)]
    exact .inl (hk.le_of_not_mem (hne ▸ hmem))
  · rw [if_pos hne]
    rw [htargets] at hk hmem
    exact hk.enter hmem (htargets ▸ s.largo)

/-- What a call does to an entry that is kept. -/
theorem kept_paso (hk : Kept h n MAXTARGETS u s.targets) (a : Llamada) :
    Kept h n MAXTARGETS (if a.usa s ∧ a.hash ≠ h then insert a.hash u else u)
      (a.paso s).targets := by
  have hmono : ∀ {p : Prop} [Decidable p] {hash : UInt8}, u ⊆ if p then insert hash u else u := by
    intro p _ hash
    split
    · exact Finset.subset_insert hash u
    · exact subset_rfl
  cases a with
  | add now hash =>
      show Kept h n MAXTARGETS (if true = true ∧ hash ≠ h then insert hash u else u)
        (s.anotaHash hash).targets
      by_cases hmem : hash ∈ s.targets
      · rw [Cliente.add_of_mem hmem]
        exact hk.mono hmono
      · obtain ⟨a, b, x, htargets, -, hadd⟩ := Cliente.add_of_not_mem hmem
        have hkept := kept_enter hk hmem htargets
        rw [hadd]
        simpa using hkept
  | check now hash =>
      show Kept h n MAXTARGETS
        (if (!(s.revisaHash false now hash false).limite) = true ∧ hash ≠ h then insert hash u
          else u) (s.revisaHash false now hash false).sptr.targets
      by_cases hmem : hash ∈ s.targets
      · obtain ⟨b, c, htargets, hb, hlimite, hcheck, -⟩ := Cliente.check_of_mem hmem now
        rw [hcheck]
        by_cases hne : hash = h
        · rw [hne]
          exact Kept.head h n MAXTARGETS _ (b ++ c)
        · rw [htargets] at hk
          have hmove := hk.moveUp (a := []) hne List.not_mem_nil hb
          simpa [hlimite, hne] using hmove
      · obtain hnow | hnow := lt_or_ge now s.nexttarget
        · rw [(Cliente.check_of_lt hmem hnow).2.1]
          exact hk.mono hmono
        · obtain ⟨b, x, htargets, hlimite, hcheck, -⟩ := Cliente.check_of_le hmem hnow
          have hkept := kept_enter (a := []) hk hmem htargets
          rw [hcheck]
          simpa [hlimite] using hkept

/-- What a run does to an entry that is kept. -/
theorem kept_final (l : List Llamada) (hk : Kept h n MAXTARGETS u s.targets) :
    Kept h n MAXTARGETS (u ∪ usados h s l) (Run.final Llamada.paso s l).targets := by
  induction l generalizing s u with
  | nil => exact hk.mono Finset.subset_union_left
  | cons a l ih =>
      refine (ih (kept_paso hk a)).mono ?_
      rw [usados]
      split
      · rw [Finset.insert_union, Finset.union_insert]
      · exact subset_rfl

/-- A call of `check_target_limit` that is not refused leaves its target at the front. -/
theorem head_check {now : Int} {hash : UInt8} (husa : (Llamada.check now hash).usa s = true) :
    ∃ t, ((Llamada.check now hash).paso s).targets = hash :: t := by
  have hlimite : (s.revisaHash false now hash false).limite = false := by
    simpa [Llamada.usa] using husa
  by_cases hmem : hash ∈ s.targets
  · obtain ⟨b, c, -, -, -, hcheck, -⟩ := Cliente.check_of_mem hmem now
    exact ⟨b ++ c, hcheck⟩
  · obtain hnow | hnow := lt_or_ge now s.nexttarget
    · rw [(Cliente.check_of_lt hmem hnow).1] at hlimite
      cases hlimite
    · obtain ⟨b, x, -, -, hcheck, -⟩ := Cliente.check_of_le hmem hnow
      exact ⟨b, hcheck⟩

/-- A target that `check_target_limit` has used is dropped after as many others as there are places
in the table. -/
theorem usados_check {now : Int} {hash : UInt8} (husa : (Llamada.check now hash).usa s = true)
    (l : List Llamada)
    (hdrop : hash ∉ (Run.final Llamada.paso ((Llamada.check now hash).paso s) l).targets) :
    MAXTARGETS ≤ (usados hash ((Llamada.check now hash).paso s) l).card := by
  obtain ⟨t, ht⟩ := head_check husa
  have hk : Kept hash 0 MAXTARGETS ∅ ((Llamada.check now hash).paso s).targets := by
    rw [ht]
    exact Kept.head hash 0 MAXTARGETS ∅ t
  have hle := (kept_final l hk).le_of_not_mem hdrop
  rwa [Finset.empty_union, Nat.zero_add] at hle

/-- A target that `add_target` has put into the table is dropped after as many others as there are
places that are not reserved. -/
theorem usados_add {hash : UInt8} (hmem : hash ∉ s.targets) (now : Int) (l : List Llamada)
    (hdrop : hash ∉ (Run.final Llamada.paso ((Llamada.add now hash).paso s) l).targets) :
    MAXTARGETS - RESERVEDTARGETS ≤ (usados hash ((Llamada.add now hash).paso s) l).card := by
  obtain ⟨a, b, x, htargets, ha, hadd⟩ := Cliente.add_of_not_mem hmem
  have hnot : hash ∉ a := by
    rw [htargets, List.mem_append, not_or] at hmem
    exact hmem.1
  have hk : Kept hash RESERVEDTARGETS MAXTARGETS ∅ ((Llamada.add now hash).paso s).targets := by
    refine .inr ⟨∅, subset_rfl, ?_⟩
    show Tracked hash RESERVEDTARGETS ∅ (s.anotaHash hash).targets
    rw [hadd]
    refine ⟨by simp, by simp, ?_⟩
    rw [front_append_of_not_mem hnot, front_cons_self, List.append_nil, ha]
    exact Nat.le_add_right _ _
  have hle := (kept_final l hk).le_of_not_mem hdrop
  rw [Finset.empty_union] at hle
  omega

/-! ## Whole runs -/

/-- The clock of the last call, and before the first one the time at which the client connects. -/
def ultimo (now : Int) (l : List Llamada) : Int :=
  (now :: l.map Llamada.now).getLast (List.cons_ne_nil _ _)

/-- No time of a run is later than its last one. -/
theorem le_ultimo {now t : Int} (hl : Reloj now l) (ht : t ∈ now :: l.map Llamada.now) :
    t ≤ ultimo now l :=
  List.Pairwise.rel_getLast hl ht

theorem nexttarget_final_le {t : Int} (hs : s.nexttarget ≤ t + TARGET_DELAY + 9)
    (hl : ∀ a ∈ l, a.now ≤ t) :
    (Run.final Llamada.paso s l).nexttarget ≤ t + TARGET_DELAY + 9 := by
  induction l generalizing s with
  | nil => exact hs
  | cons a l ih =>
      exact ih (nexttarget_paso_le (hl a List.mem_cons_self) hs) fun a' ha' ↦
        hl a' (List.mem_cons_of_mem a ha')

/-- In a run of an ordinary client, an interval of `T` seconds has at most
`MAXTARGETS + 1 + T / TARGET_DELAY` new targets, `nexttarget` is never more than `TARGET_DELAY + 9`
seconds ahead of the clock, a target in the table is accepted at no cost and comes to the front, and
a target is dropped only after enough others. -/
theorem limite_run {now : Int} (hs : Inicial now s) (hl : Reloj now l) :
    (∀ (ini : Int) (T : Nat),
      estrenos ini (ini + T) s l ≤ MAXTARGETS + 1 + T / TARGET_DELAY) ∧
    (Run.final Llamada.paso s l).nexttarget ≤ ultimo now l + TARGET_DELAY + 9 ∧
    ∀ l₁ a l₂, l = l₁ ++ a :: l₂ → ∀ s₁, s₁ = Run.final Llamada.paso s l₁ →
      (∀ t hash, a = .check t hash → hash ∈ s₁.targets →
        a.usa s₁ = true ∧ (a.paso s₁).nexttarget = s₁.nexttarget ∧
          (a.paso s₁).targets.head? = some hash) ∧
      (∀ t hash, a = .check t hash → a.usa s₁ = true →
        hash ∉ (Run.final Llamada.paso s l).targets →
          MAXTARGETS ≤ (usados hash (a.paso s₁) l₂).card) ∧
      ∀ t hash, a = .add t hash → hash ∉ s₁.targets →
        hash ∉ (Run.final Llamada.paso s l).targets →
          MAXTARGETS - RESERVEDTARGETS ≤ (usados hash (a.paso s₁) l₂).card := by
  refine ⟨fun ini T ↦ estrenos_le ini T s l, ?_, ?_⟩
  · have hinicio : s.nexttarget ≤ ultimo now l + TARGET_DELAY + 9 := by
      have hnow := le_ultimo hl List.mem_cons_self
      obtain ⟨libres, hnext⟩ := hs
      rw [delay_eq] at hnext ⊢
      omega
    exact nexttarget_final_le hinicio fun a ha ↦
      le_ultimo hl (List.mem_cons_of_mem now (List.mem_map_of_mem ha))
  · rintro l₁ a l₂ rfl s₁ rfl
    have hfinal : Run.final Llamada.paso s (l₁ ++ a :: l₂) =
        Run.final Llamada.paso (a.paso (Run.final Llamada.paso s l₁)) l₂ :=
      Run.final_append s l₁ (a :: l₂)
    refine ⟨?_, ?_, ?_⟩
    · rintro t hash rfl hmem
      obtain ⟨b, c, -, -, hlimite, hcheck, hnext⟩ := Cliente.check_of_mem hmem t
      refine ⟨by simp [Llamada.usa, hlimite], hnext, ?_⟩
      show (Cliente.revisaHash _ false t hash false).sptr.targets.head? = some hash
      rw [hcheck]
      rfl
    · rintro t hash rfl husa hdrop
      rw [hfinal] at hdrop
      exact usados_check husa l₂ hdrop
    · rintro t hash rfl hmem hdrop
      rw [hfinal] at hdrop
      exact usados_add hmem t l₂ hdrop

/-- A client without free targets that writes to somebody twice. -/
theorem limite_run_dos :
    Inicial 1000 ⟨List.replicate 20 0, 1128, rfl⟩ ∧
      Reloj 1000 [.check 1128 7, .check 1130 7] ∧
      (Run.final Llamada.paso ⟨List.replicate 20 0, 1128, rfl⟩
        [.check 1128 7, .check 1130 7]).nexttarget ≤ 1130 + TARGET_DELAY + 9 := by
  have hs : Inicial 1000 ⟨List.replicate 20 0, 1128, rfl⟩ := ⟨0, by decide⟩
  have hl : Reloj 1000 [.check 1128 7, .check 1130 7] := by
    simp [Reloj, Llamada.now]
  exact ⟨hs, hl, (limite_run hs hl).2.1⟩

end Ircd.User.Targets
