import Ircd.Hash.Table
import Ircd.Lib.Threads

/-!
# The nick history

`ircd/whowas.c`. The entries are a ring of `n + 1` cells (`NICKNAMEHISTORYLENGTH`), and each cell is
in two threads: one for its hash value and one for the client it is online as. The clients are named
by `κ`. A failed step is `none`: a null pointer that is followed, a loop that runs out of fuel, or
`MyCoreDump`.
-/

namespace Ircd.Whowas

open CString Hash

/-- `WHOWAS_UNUSED`. -/
def WHOWAS_UNUSED : Nat := 4294967295

/-- `WW_MAX_INITIAL_MASK`. -/
def WW_MAX_INITIAL_MASK : BitVec 32 := 15#32

/-- `BITS_PER_COL`. -/
def BITS_PER_COL : Nat := 3

/-- `BITS_PER_COL_MASK`. -/
def BITS_PER_COL_MASK : BitVec 32 := 7#32

/-- A round of `hash_whowas_name`. -/
def hashPaso (hash : BitVec 32 × BitVec 32) (c : Char) : BitVec 32 × BitVec 32 :=
  let lower := (BitVec.ofNat 8 (toLower c).toNat).signExtend 32
  (hash.1 <<< 1 + lower, hash.2 >>> 1 + lower)

/-- `hash_whowas_name`. The loop reads the terminator of an empty name and goes on with what is
behind it in memory. -/
def hashWhowasName (name detras : CStr) : Nat :=
  let leido := match name with
    | [] => nul :: detras
    | _ :: _ => name
  let hash := leido.foldl hashPaso (0, 0)
  ((hash.1 &&& WW_MAX_INITIAL_MASK) <<< BITS_PER_COL + (hash.2 &&& BITS_PER_COL_MASK)).toNat

/-- The entries (`struct Whowas`), with `whowashash` and the pointers `whowas` of the clients as the
first pointers of the threads. -/
structure Historia (n : Nat) (κ : Type) where
  hashv : Fin (n + 1) → Nat
  name : Fin (n + 1) → CStr
  logoff : Fin (n + 1) → Int
  online : Fin (n + 1) → Option κ
  /-- `whowashash`, `hnext` and `hprevnextp`. -/
  hlist : Threads Nat (Fin (n + 1))
  /-- `whowas` of the clients, `cnext` and `cprevnextp`. -/
  clist : Threads κ (Fin (n + 1))
  whowasNext : Fin (n + 1)

section

variable {n : Nat} {κ : Type}

/-- The variables at the start of the program. -/
def Historia.cero (n : Nat) (κ : Type) : Historia n κ where
  hashv _ := 0
  name _ := []
  logoff _ := 0
  online _ := none
  hlist := ⟨fun _ ↦ none, fun _ ↦ none, fun _ ↦ none⟩
  clist := ⟨fun _ ↦ none, fun _ ↦ none, fun _ ↦ none⟩
  whowasNext := 0

/-- `initwhowas`. -/
def initwhowas (s : Historia n κ) : Historia n κ :=
  { s with hashv := fun _ ↦ WHOWAS_UNUSED }

/-- The next entry of the table. -/
def siguiente (ww : Fin (n + 1)) : Fin (n + 1) :=
  if h : ww.val + 1 < n + 1 then ⟨ww.val + 1, h⟩ else 0

variable [DecidableEq κ]

/-- The part of `add_history` that takes a used entry out of its lists. -/
def Historia.retira (s : Historia n κ) (ww : Fin (n + 1)) : Option (Historia n κ) :=
  if s.hashv ww = WHOWAS_UNUSED then some s
  else do
    let s ←
      if (s.online ww).isSome then do
        let clist ← s.clist.drop ww
        if (clist.next ww).isSome then none else some { s with clist := clist }
      else some s
    let hlist ← s.hlist.drop ww
    if (hlist.next ww).isSome then none else some { s with hlist := hlist }

/-- `add_history` for the client `cptr` with the nick `name`. -/
def addHistory (cptr : κ) (name : CStr) (stillOn : Bool) (now : Int) (s : Historia n κ) :
    Option (Historia n κ) := do
  let ww := s.whowasNext
  let s ← s.retira ww
  let hashv := hashWhowasName name []
  let s := { s with
    hashv := Function.update s.hashv ww hashv
    logoff := Function.update s.logoff ww now
    name := Function.update s.name ww name }
  let s :=
    if stillOn then { s with
      online := Function.update s.online ww (some cptr)
      clist := s.clist.push cptr ww }
    else { s with online := Function.update s.online ww none }
  some { s with
    hlist := s.hlist.push hashv ww
    whowasNext := siguiente ww }

omit [DecidableEq κ] in
/-- The loop of `off_history`. -/
def offDesde : Nat → Option (Fin (n + 1)) → Historia n κ → Option (Historia n κ)
  | _, none, s => some s
  | 0, some _, _ => none
  | fuel + 1, some temp, s =>
      offDesde fuel (s.clist.next temp) { s with online := Function.update s.online temp none }

omit [DecidableEq κ] in
/-- `off_history`. -/
def offHistory (cptr : κ) (s : Historia n κ) : Option (Historia n κ) :=
  offDesde (n + 1) (s.clist.head cptr) s

omit [DecidableEq κ] in
/-- The loop of `get_history`. -/
def getDesde (nick : CStr) (timelimit : Int) (s : Historia n κ) :
    Nat → Option (Fin (n + 1)) → Option (Option κ)
  | _, none => some none
  | 0, some _ => none
  | fuel + 1, some temp =>
      if strCasediff nick (s.name temp) = 0 ∧ s.logoff temp > timelimit then some (s.online temp)
      else getDesde nick timelimit s fuel (s.hlist.next temp)

omit [DecidableEq κ] in
/-- `get_history`; `detras` is what is behind the terminator of the nick. -/
def getHistory (nick detras : CStr) (timelimit now : Int) (s : Historia n κ) : Option (Option κ) :=
  getDesde nick (now - timelimit) s (n + 1) (s.hlist.head (hashWhowasName nick detras))

end

/-! ## Hash values -/

theorem hashPaso_toLower (hash : BitVec 32 × BitVec 32) (c : Char) :
    hashPaso hash (toLower c) = hashPaso hash c := by
  rw [hashPaso, hashPaso, toLower_toLower]

/-- Nicks that are equal up to case have one hash value. -/
theorem hashWhowasName_eq {a b d e : CStr} (hab : fold a = fold b) (ha : a ≠ []) :
    hashWhowasName a d = hashWhowasName b e := by
  have hfold : ∀ (s : CStr) (h : BitVec 32 × BitVec 32),
      (fold s).foldl hashPaso h = s.foldl hashPaso h := by
    intro s h
    rw [fold, List.foldl_map]
    simp only [hashPaso_toLower]
  cases a with
  | nil => exact absurd rfl ha
  | cons x a =>
      cases b with
      | nil => simp [fold] at hab
      | cons y b =>
          simp only [hashWhowasName]
          rw [← hfold (x :: a), hab, hfold]

/-- A hash value is an index of `whowashash`, and is not `WHOWAS_UNUSED`. -/
theorem hashWhowasName_lt (name detras : CStr) : hashWhowasName name detras < 128 := by
  have hlt : ∀ a b : BitVec 32, ((a &&& 15#32) <<< 3 + (b &&& 7#32)).toNat < 128 := by
    intro a b
    have ha : (a &&& 15#32).toNat ≤ 15 := by
      rw [BitVec.toNat_and]
      exact Nat.and_le_right
    have hb : (b &&& 7#32).toNat ≤ 7 := by
      rw [BitVec.toNat_and]
      exact Nat.and_le_right
    rw [BitVec.toNat_add, BitVec.toNat_shiftLeft, Nat.shiftLeft_eq]
    omega
  exact hlt _ _

theorem hashWhowasName_ne (name detras : CStr) : hashWhowasName name detras ≠ WHOWAS_UNUSED := by
  have hlt := hashWhowasName_lt name detras
  rw [WHOWAS_UNUSED]
  omega

end Ircd.Whowas
