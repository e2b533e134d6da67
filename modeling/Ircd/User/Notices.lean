import Ircd.Lib.Nodes
import Ircd.Lib.Run
import Ircd.User.Umode

/-!
# Lists of server notices

`opsarray` of `ircd/send.c` with `set_snomask` and `delfrom_list` of `ircd/s_user.c`: for each bit
of a mask of notices there is a list of the clients that have it. The clients are named by `κ`. A
shift by the width of the mask or more and an index that `opsarray` does not have give `none`, and
`avisos_run` says that no run comes to one, and that after any run the lists mirror the masks.
-/

namespace Ircd.User

open Flags

variable {κ : Type} [DecidableEq κ]

/-! ## The lists -/

/-- The number of lists of `opsarray`. -/
def OPSARRAY : Nat := 32

/-- `opsarray` and the local clients. -/
structure Avisos (κ : Type) where
  opsarray : Nodes Nat κ
  cliente : κ → Option Cliente

/-- `mask >> i`. -/
def desplaza (mask : BitVec 32) (i : Nat) : Option (BitVec 32) :=
  if i < 32 then some (mask >>> i) else none

omit [DecidableEq κ] in
/-- A link to the client is put in front of `opsarray[i]`. -/
def ponLink (i : Nat) (cptr : κ) (m : Nodes Nat κ) : Option (Nodes Nat κ) :=
  if i < OPSARRAY then some (m.cons i cptr) else none

/-- `delfrom_list` on `opsarray[i]`. -/
def delfromList (i : Nat) (cptr : κ) (m : Nodes Nat κ) : Option (Nodes Nat κ) :=
  if i < OPSARRAY then some (m.remove i cptr).2 else none

/-- The body of the loop of `set_snomask` for the bit `i`, with `diffmask >> i`. -/
def unBit (cptr : κ) (diff newmask : BitVec 32) (i : Nat) (m : Nodes Nat κ) :
    Option (Nodes Nat κ) :=
  if diff &&& 1#32 ≠ 0#32 then do
    let new ← desplaza newmask i
    if new &&& 1#32 ≠ 0#32 then ponLink i cptr m else delfromList i cptr m
  else some m

/-- The loop of `set_snomask` from the bit `i` on. -/
def recorreMasks (cptr : κ) (diffmask newmask : BitVec 32) :
    Nat → Nat → Nodes Nat κ → Option (Nodes Nat κ)
  | 0, _, _ => none
  | fuel + 1, i, m => do
      let diff ← desplaza diffmask i
      if diff = 0#32 then return m
      let m ← unBit cptr diff newmask i m
      recorreMasks cptr diffmask newmask fuel (i + 1) m

/-- The numbers of `SNO_ADD`, `SNO_DEL` and `SNO_SET`. -/
def Sno.numero : Sno → Int
  | add => 1
  | del => 2
  | set => 3

/-- The mask that `set_snomask` gives to a client. Of an operation that it does not know it only
tells the operators. -/
def mascara (x : Cliente) (newmask : BitVec 32) (what : Int) : BitVec 32 :=
  let newmask :=
    if what = Sno.add.numero then newmask ||| x.snomask
    else if what = Sno.del.numero then x.snomask &&& ~~~newmask
    else newmask
  if x.isAnOper then newmask &&& SNO_ALL else 0#32

omit [DecidableEq κ] in
/-- The mask is the one that `m_umode` reads afterwards. -/
theorem snomask_setSnomask (x : Cliente) (newmask : BitVec 32) (what : Sno) :
    (x.setSnomask newmask what).snomask = mascara x newmask what.numero := by
  cases what <;> rfl

namespace Avisos

/-- `set_snomask` on a client. -/
def setSnomask (cptr : κ) (x : Cliente) (newmask : BitVec 32) (what : Int) (s : Avisos κ) :
    Option (Avisos κ) := do
  let newmask := mascara x newmask what
  let m ← recorreMasks cptr (x.snomask ^^^ newmask) newmask 33 0 s.opsarray
  return ⟨m, Function.update s.cliente cptr (some { x with snomask := newmask })⟩

end Avisos

/-- What happens to the local clients. -/
inductive Suceso (κ : Type) where
  /-- A connection is accepted: `make_client` clears the mask. -/
  | alta (cptr : κ) (x : Cliente)
  /-- The flags of a client change, those of an operator among them. -/
  | flags (cptr : κ) (flags : BitVec 32)
  /-- A call of `set_snomask`. -/
  | mask (cptr : κ) (newmask : BitVec 32) (what : Int)
  /-- `close_connection`, which clears the mask, and the client is freed. -/
  | baja (cptr : κ)

namespace Avisos

/-- One event. A client is made where there is none; the others are of clients that there are. -/
def paso (s : Avisos κ) : Suceso κ → Option (Avisos κ)
  | .alta cptr x =>
      match s.cliente cptr with
      | some _ => some s
      | none => some { s with
          cliente := Function.update s.cliente cptr (some { x with snomask := 0#32 }) }
  | .flags cptr flags =>
      match s.cliente cptr with
      | none => some s
      | some x => some { s with
          cliente := Function.update s.cliente cptr (some { x with flags := flags }) }
  | .mask cptr newmask what =>
      match s.cliente cptr with
      | none => some s
      | some x => s.setSnomask cptr x newmask what
  | .baja cptr =>
      match s.cliente cptr with
      | none => some s
      | some x => do
          let s ← s.setSnomask cptr x 0#32 Sno.set.numero
          return { s with cliente := Function.update s.cliente cptr none }

omit [DecidableEq κ] in
/-- The start, without clients and links. The memory that is in no link holds anything. -/
def inicio (value : Nat → κ) : Avisos κ where
  opsarray := ⟨fun _ ↦ none, value, 0, fun _ ↦ none⟩
  cliente _ := none

/-- A run of events. -/
def corre (s : Avisos κ) (sucesos : List (Suceso κ)) : Option (Avisos κ) :=
  sucesos.foldlM paso s

/-! ## Lists that mirror the masks -/

/-- A bit of the mask of a client, if there is such a client. -/
def bit (s : Avisos κ) (cptr : κ) (i : Nat) : Bool :=
  match s.cliente cptr with
  | some x => x.snomask.getLsbD i
  | none => false

/-- The lists have the values `vals`, and each client is once in the lists of the bits of their mask
and not in the others. -/
structure Espejo (s : Avisos κ) (vals : Nat → List κ) : Prop where
  listas : ∃ nodos, s.opsarray.Holds nodos vals
  count : ∀ i cptr, (vals i).count cptr = (s.bit cptr i).toNat
  /-- No mask has a bit beyond `SNO_ALL`. -/
  all : ∀ cptr x, s.cliente cptr = some x → x.snomask &&& ~~~SNO_ALL = 0#32

end Avisos

/-! ## The loop over the bits -/

section

/-- The lowest bit of a shifted mask. -/
theorem shift_and_one (mask : BitVec 32) (i : Nat) :
    (mask >>> i) &&& 1#32 ≠ 0#32 ↔ mask.getLsbD i = true := by
  rw [BitVec.and_one_eq_setWidth_ofBool_getLsbD, BitVec.getLsbD_ushiftRight, Nat.add_zero]
  cases mask.getLsbD i <;> simp

/-- A mask without a bit from `i` on is one that is shifted out. -/
theorem shift_eq_zero (mask : BitVec 32) (i : Nat) :
    mask >>> i = 0#32 ↔ ∀ j, i ≤ j → mask.getLsbD j = false := by
  constructor
  · intro h j hj
    have hbit := congrArg (fun v ↦ v.getLsbD (j - i)) h
    simp only [BitVec.getLsbD_ushiftRight, BitVec.getLsbD_zero] at hbit
    rwa [Nat.add_sub_cancel' hj] at hbit
  · intro h
    refine BitVec.eq_of_getLsbD_eq fun j _ ↦ ?_
    rw [BitVec.getLsbD_ushiftRight, h _ (Nat.le_add_right _ _), BitVec.getLsbD_zero]

end

variable {vals : Nat → List κ} {nodos : Nat → List Nat} {m : Nodes Nat κ} {cptr : κ} {i : Nat}
  {old new : BitVec 32}

/-- What one turn of the loop makes of the lists: that of its bit has the client as the new mask
says, and the other clients as before. -/
theorem vuelta (new : BitVec 32) (h : m.Holds nodos vals) (hi : i < OPSARRAY)
    (hcount : (vals i).count cptr = (old.getLsbD i).toNat) :
    ∃ m' nodos' l, unBit cptr ((old ^^^ new) >>> i) new i m = some m' ∧
      m'.Holds nodos' (Function.update vals i l) ∧
      l.count cptr = (new.getLsbD i).toNat ∧ ∀ c, c ≠ cptr → l.count c = (vals i).count c := by
  have hnew : desplaza new i = some (new >>> i) := if_pos hi
  simp only [unBit, hnew, Option.bind_eq_bind, Option.bind_some, shift_and_one, BitVec.getLsbD_xor]
  cases hold : old.getLsbD i with
  | false =>
      rw [hold] at hcount
      cases hnew : new.getLsbD i with
      | false =>
          refine ⟨m, nodos, vals i, rfl, ?_, hcount, fun _ _ ↦ rfl⟩
          rwa [Function.update_eq_self]
      | true =>
          refine ⟨m.cons i cptr, _, cptr :: vals i, if_pos hi, h.cons i cptr, ?_, fun c hc ↦ ?_⟩
          · rw [List.count_cons_self, hcount]
            rfl
          · exact List.count_cons_of_ne (Ne.symm hc)
  | true =>
      rw [hold] at hcount
      have hmem : cptr ∈ vals i := List.count_pos_iff.mp (by rw [hcount]; exact Nat.one_pos)
      cases hnew : new.getLsbD i with
      | false =>
          obtain ⟨m', xs, hremove, -, hholds⟩ := h.remove hmem
          refine ⟨m', _, strike cptr (vals i), ?_, hholds, ?_, fun c hc ↦ ?_⟩
          · show delfromList i cptr m = some m'
            rw [delfromList, if_pos hi, hremove]
          · rw [strike, List.count_erase_self, hcount]
            rfl
          · exact List.count_erase_of_ne hc
      | true =>
          refine ⟨m, nodos, vals i, rfl, ?_, hcount, fun _ _ ↦ rfl⟩
          rwa [Function.update_eq_self]

/-- The loop ends before the width of the mask, with the client in the lists of the new mask. -/
theorem recorreMasks_spec (hold : old.getLsbD 31 = false) (hnew : new.getLsbD 31 = false)
    {fuel : Nat} (h : m.Holds nodos vals) (hi : i ≤ 31) (hfuel : fuel + i = 33)
    (hcount : ∀ j, i ≤ j → (vals j).count cptr = (old.getLsbD j).toNat) :
    ∃ m' nodos' vals', recorreMasks cptr (old ^^^ new) new fuel i m = some m' ∧
      m'.Holds nodos' vals' ∧ (∀ j, i ≤ j → (vals' j).count cptr = (new.getLsbD j).toNat) ∧
      (∀ j < i, vals' j = vals j) ∧ ∀ j c, c ≠ cptr → (vals' j).count c = (vals j).count c := by
  induction fuel generalizing i m nodos vals with
  | zero => omega
  | succ fuel ih =>
      have hwidth : i < 32 := by omega
      have hdesplaza : ∀ mask, desplaza mask i = some (mask >>> i) := fun _ ↦ if_pos hwidth
      rw [recorreMasks, hdesplaza, Option.bind_eq_bind, Option.bind_some]
      by_cases hzero : (old ^^^ new) >>> i = 0#32
      · rw [if_pos hzero]
        refine ⟨m, nodos, vals, rfl, h, fun j hj ↦ ?_, fun _ _ ↦ rfl, fun _ _ _ ↦ rfl⟩
        have hsame := (shift_eq_zero _ i).mp hzero j hj
        rw [BitVec.getLsbD_xor, bne_eq_false_iff_eq] at hsame
        rw [hcount j hj, hsame]
      · have hnext : i + 1 ≤ 31 := by
          by_contra hlast
          refine hzero ((shift_eq_zero _ i).mpr fun j hj ↦ ?_)
          by_cases hj31 : j = 31
          · rw [hj31, BitVec.getLsbD_xor, hold, hnew]
            rfl
          · exact BitVec.getLsbD_of_ge _ _ (by omega)
        obtain ⟨m', nodos', l, hturn, hholds, hself, hother⟩ :=
          vuelta new h hwidth (hcount i le_rfl)
        have hafter : ∀ j, i + 1 ≤ j →
            (Function.update vals i l j).count cptr = (old.getLsbD j).toNat := by
          intro j hj
          rw [Function.update_of_ne (by omega)]
          exact hcount j (by omega)
        obtain ⟨m'', nodos'', vals'', hrun, hholds', hbits, hbefore, hothers⟩ :=
          ih hholds hnext (by omega) hafter
        refine ⟨m'', nodos'', vals'', ?_, hholds', fun j hj ↦ ?_, fun j hj ↦ ?_, fun j c hc ↦ ?_⟩
        · rw [if_neg hzero, hturn]
          exact hrun
        · rcases Nat.eq_or_lt_of_le hj with rfl | hj
          · rw [hbefore _ (Nat.lt_succ_self _), Function.update_self, hself]
          · exact hbits j hj
        · rw [hbefore j (Nat.lt_succ_of_lt hj), Function.update_of_ne (Nat.ne_of_lt hj)]
        · rw [hothers j c hc]
          by_cases hji : j = i
          · rw [hji, Function.update_self, hother c hc]
          · rw [Function.update_of_ne hji]

/-! ## Every run -/

namespace Avisos

variable {s : Avisos κ} {x : Cliente}

omit [DecidableEq κ] in
theorem bit_eq (h : s.cliente cptr = some x) (i : Nat) : s.bit cptr i = x.snomask.getLsbD i := by
  rw [bit, h]

omit [DecidableEq κ] in
theorem bit_none (h : s.cliente cptr = none) (i : Nat) : s.bit cptr i = false := by
  rw [bit, h]

/-- A mask within `SNO_ALL` does not have the highest bit. -/
theorem getLsbD_31 {mask : BitVec 32} (h : mask &&& ~~~SNO_ALL = 0#32) :
    mask.getLsbD 31 = false := by
  have hbit := congrArg (fun v ↦ v.getLsbD 31) h
  have hnot : (~~~SNO_ALL).getLsbD 31 = true := by decide
  simp only [BitVec.getLsbD_and, hnot, Bool.and_true, BitVec.getLsbD_zero] at hbit
  exact hbit

theorem mascara_all (x : Cliente) (newmask : BitVec 32) (what : Int) :
    mascara x newmask what &&& ~~~SNO_ALL = 0#32 := by
  unfold mascara
  dsimp only
  split
  · rw [BitVec.and_assoc, BitVec.and_not_self]
    exact BitVec.and_zero
  · exact BitVec.zero_and

/-- A call of `set_snomask` does not fail, and the lists go on mirroring the masks. -/
theorem Espejo.setSnomask (h : s.Espejo vals) (hx : s.cliente cptr = some x) (newmask : BitVec 32)
    (what : Int) : ∃ s' vals', s.setSnomask cptr x newmask what = some s' ∧ s'.Espejo vals' ∧
      s'.cliente = Function.update s.cliente cptr
        (some { x with snomask := mascara x newmask what }) := by
  obtain ⟨nodos, hholds⟩ := h.listas
  have hall := mascara_all x newmask what
  have hcount : ∀ j, 0 ≤ j → (vals j).count cptr = (x.snomask.getLsbD j).toNat := by
    intro j _
    rw [h.count, bit_eq hx]
  obtain ⟨m', nodos', vals', hrun, hholds', hbits, -, hothers⟩ := recorreMasks_spec
    (getLsbD_31 (h.all cptr x hx)) (getLsbD_31 hall) hholds (Nat.zero_le _) rfl hcount
  have hset : s.setSnomask cptr x newmask what = some ⟨m', Function.update s.cliente cptr
      (some { x with snomask := mascara x newmask what })⟩ := by
    rw [Avisos.setSnomask, hrun]
    rfl
  refine ⟨_, vals', hset, ⟨⟨nodos', hholds'⟩, fun i c ↦ ?_, fun c y hy ↦ ?_⟩, rfl⟩
  · by_cases hc : c = cptr
    · subst hc
      rw [hbits i (Nat.zero_le _), bit_eq (Function.update_self ..)]
    · rw [hothers i c hc, h.count, bit, bit]
      show _ = (match Function.update s.cliente cptr _ c with
        | some x => x.snomask.getLsbD i
        | none => false).toNat
      rw [Function.update_of_ne hc]
  · by_cases hc : c = cptr
    · subst hc
      dsimp only at hy
      rw [Function.update_self, Option.some.injEq] at hy
      rw [← hy]
      exact hall
    · dsimp only at hy
      rw [Function.update_of_ne hc] at hy
      exact h.all c y hy

theorem espejo_inicio (value : Nat → κ) : (inicio value).Espejo fun _ ↦ [] where
  listas := by
    refine ⟨fun _ ↦ [], ⟨⟨fun _ ↦ rfl, fun _ _ _ hp ↦ ?_⟩, fun _ _ hp ↦ ?_, fun _ ↦ rfl⟩⟩
    · cases hp
    · cases hp
  count _ _ := rfl
  all _ _ hx := by cases hx

/-- The lists mirror the masks still when a client changes but for the mask. -/
theorem Espejo.cliente (h : s.Espejo vals) (y : Option Cliente)
    (hbit : ∀ i, s.bit cptr i = match y with
      | some x => x.snomask.getLsbD i
      | none => false)
    (hall : ∀ x, y = some x → x.snomask &&& ~~~SNO_ALL = 0#32) :
    { s with cliente := Function.update s.cliente cptr y }.Espejo vals where
  listas := h.listas
  count i c := by
    rw [h.count]
    show _ = (match Function.update s.cliente cptr y c with
      | some x => x.snomask.getLsbD i
      | none => false).toNat
    by_cases hc : c = cptr
    · rw [hc, Function.update_self, hbit]
    · rw [Function.update_of_ne hc]
      rfl
  all c x hx := by
    dsimp only at hx
    by_cases hc : c = cptr
    · rw [hc, Function.update_self] at hx
      exact hall x hx
    · rw [Function.update_of_ne hc] at hx
      exact h.all c x hx

/-- No event fails, and the lists go on mirroring the masks. -/
theorem Espejo.paso (h : s.Espejo vals) (suceso : Suceso κ) :
    ∃ s' vals', s.paso suceso = some s' ∧ s'.Espejo vals' := by
  cases suceso with
  | alta cptr x =>
      cases hx : s.cliente cptr with
      | some y => exact ⟨s, vals, by rw [Avisos.paso, hx], h⟩
      | none =>
          refine ⟨_, vals, by rw [Avisos.paso, hx], h.cliente _ (fun i ↦ ?_) fun y hy ↦ ?_⟩
          · rw [bit_none hx]
            exact BitVec.getLsbD_zero.symm
          · rw [← Option.some.inj hy]
            exact BitVec.zero_and
  | flags cptr flags =>
      cases hx : s.cliente cptr with
      | none => exact ⟨s, vals, by rw [Avisos.paso, hx], h⟩
      | some x =>
          refine ⟨_, vals, by rw [Avisos.paso, hx], h.cliente _ (fun i ↦ bit_eq hx i) fun y hy ↦ ?_⟩
          rw [← Option.some.inj hy]
          exact h.all cptr x hx
  | mask cptr newmask what =>
      cases hx : s.cliente cptr with
      | none => exact ⟨s, vals, by rw [Avisos.paso, hx], h⟩
      | some x =>
          obtain ⟨s', vals', hset, hespejo, -⟩ := h.setSnomask hx newmask what
          exact ⟨s', vals', by rw [Avisos.paso, hx]; exact hset, hespejo⟩
  | baja cptr =>
      cases hx : s.cliente cptr with
      | none => exact ⟨s, vals, by rw [Avisos.paso, hx], h⟩
      | some x =>
          obtain ⟨s', vals', hset, hespejo, hcliente⟩ := h.setSnomask hx 0#32 Sno.set.numero
          have hzero : mascara x 0#32 Sno.set.numero = 0#32 := by
            show (if x.isAnOper then 0#32 &&& SNO_ALL else 0#32) = 0#32
            rw [BitVec.zero_and, ite_self]
          have hx' : s'.cliente cptr = some { x with snomask := 0#32 } := by
            rw [hcliente, Function.update_self, hzero]
          refine ⟨_, vals', by rw [Avisos.paso, hx]; dsimp only; rw [hset]; rfl,
            hespejo.cliente none (fun i ↦ ?_) fun y hy ↦ by cases hy⟩
          rw [bit_eq hx']
          exact BitVec.getLsbD_zero

/-- No run fails, and after it the lists mirror the masks. -/
theorem Espejo.corre (h : s.Espejo vals) (sucesos : List (Suceso κ)) :
    ∃ s' vals', s.corre sucesos = some s' ∧ s'.Espejo vals' := by
  induction sucesos generalizing s vals with
  | nil => exact ⟨s, vals, rfl, h⟩
  | cons suceso sucesos ih =>
      obtain ⟨s', vals', hpaso, hespejo⟩ := h.paso suceso
      obtain ⟨s'', vals'', hcorre, hespejo'⟩ := ih hespejo
      refine ⟨s'', vals'', ?_, hespejo'⟩
      rw [Avisos.corre, List.foldlM_cons, hpaso]
      exact hcorre

/-- A client that is not in a list of their mask is in no list. -/
theorem Espejo.not_mem (h : s.Espejo vals) (hbit : ∀ i, s.bit cptr i = false) (i : Nat) :
    cptr ∉ vals i := by
  rw [← List.count_eq_zero, h.count, hbit]
  rfl

end Avisos

/-- No run of events shifts by the width of the mask or more, or uses an index that `opsarray` does
not have. After it each client is once in the lists of the bits of their mask and in no other; one
who is not an operator after a call of `set_snomask` is in no list, and no more is one who is
gone. -/
theorem avisos_run (value : Nat → κ) (sucesos : List (Suceso κ)) :
    ∃ s vals, (Avisos.inicio value).corre sucesos = some s ∧
      (∃ nodos, s.opsarray.Holds nodos vals) ∧
      (∀ i cptr, (vals i).count cptr = (s.bit cptr i).toNat) ∧
      (∀ antes cptr newmask what x, sucesos = antes ++ [.mask cptr newmask what] →
        s.cliente cptr = some x → x.isAnOper = false → ∀ i, cptr ∉ vals i) ∧
      ∀ cptr, s.cliente cptr = none → ∀ i, cptr ∉ vals i := by
  obtain ⟨s, vals, hcorre, h⟩ := (Avisos.espejo_inicio value).corre sucesos
  refine ⟨s, vals, hcorre, h.listas, h.count, ?_,
    fun cptr hnone ↦ h.not_mem (Avisos.bit_none hnone)⟩
  intro antes cptr newmask what x hsucesos hx hoper
  refine h.not_mem fun i ↦ ?_
  -- The state before the call.
  obtain ⟨s', vals', hantes, h'⟩ := (Avisos.espejo_inicio value).corre antes
  have hpaso : s'.paso (.mask cptr newmask what) = some s := by
    rw [Avisos.corre] at hantes hcorre
    rw [hsucesos, List.foldlM_append, hantes] at hcorre
    simpa using hcorre
  cases hx' : s'.cliente cptr with
  | none =>
      rw [Avisos.paso, hx', Option.some.injEq] at hpaso
      rw [← hpaso, hx'] at hx
      cases hx
  | some y =>
      obtain ⟨t, _, hset, -, hcliente⟩ := h'.setSnomask hx' newmask what
      rw [Avisos.paso, hx'] at hpaso
      obtain rfl : t = s := Option.some.inj (hset.symm.trans hpaso)
      rw [hcliente, Function.update_self, Option.some.injEq] at hx
      have hy : y.isAnOper = false := by rw [← hoper, ← hx]; rfl
      rw [Avisos.bit_eq (by rw [hcliente, Function.update_self])]
      show (mascara y newmask what).getLsbD i = false
      rw [mascara, hy]
      exact BitVec.getLsbD_zero

end Ircd.User
