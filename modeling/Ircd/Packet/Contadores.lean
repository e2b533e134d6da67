import Ircd.Lib.Run
import Mathlib.Algebra.BigOperators.Group.List.Basic
import Mathlib.Algebra.GroupWithZero.Nat
import Mathlib.Logic.Function.Basic

/-!
# Bytes received

`actualiza_contadores` and the head of `client_dopacket` of `ircd/packet.c`. A client, the listener
that accepted it and the server itself count the bytes that they receive in a field of 16 bits, from
which whole kilobytes are carried to another one. The main result, `recibidos_iff`, says when the
counts are those of the calls: those of clients and listeners always, and that of the server as long
as its field does not overflow between two carries.
-/

namespace Ircd.Packet

/-- The size of the buffer for one read, `readbuf` of `ircd/s_bsd.c`. -/
def READBUF : Nat := 8192

/-- `receiveB` and `receiveK` of a `struct Client`. -/
structure Contador where
  receiveB : UInt16
  receiveK : Nat
deriving DecidableEq

/-- A new counter. -/
def Contador.cero : Contador :=
  ⟨0, 0⟩

/-- `receiveB += length`. -/
def Contador.suma (c : Contador) (length : Nat) : Contador :=
  { c with receiveB := c.receiveB + length.toUInt16 }

/-- `if (receiveB > 1023) { receiveK += (receiveB >> 10); receiveB &= 0x03ff; }`. -/
def Contador.acarrea (c : Contador) : Contador :=
  if c.receiveB > 1023 then ⟨c.receiveB &&& 0x3ff, c.receiveK + (c.receiveB >>> 10).toNat⟩ else c

/-- The bytes that a counter stands for. -/
def Contador.bytes (c : Contador) : Nat :=
  c.receiveK * 1024 + c.receiveB.toNat

/-- The counters of the server, of its clients and of its listeners. -/
structure Contadores (γ ω : Type) where
  me : Contador
  cliente : γ → Contador
  oyente : ω → Contador

/-- A call. The listener `acpt` of a client is `none` where it is `&me`. -/
inductive Llamada (γ ω : Type) where
  | dopacket (cptr : γ) (acpt : Option ω) (length : Nat)
  | clientDopacket (cptr : γ) (length : Nat)

/-- The bytes of a call. -/
def Llamada.length {γ ω : Type} : Llamada γ ω → Nat
  | .dopacket _ _ length => length
  | .clientDopacket _ length => length

section

variable {γ ω : Type} [DecidableEq γ] [DecidableEq ω]

/-- `actualiza_contadores`. -/
def actualizaContadores (cptr : γ) (acpt : Option ω) (length : Nat) (s : Contadores γ ω) :
    Contadores γ ω :=
  let s := { s with me := s.me.suma length }
  let s := { s with
    cliente := Function.update s.cliente cptr ((s.cliente cptr).suma length).acarrea }
  match acpt with
  | some acpt =>
      { s with oyente := Function.update s.oyente acpt ((s.oyente acpt).suma length).acarrea }
  | none => { s with me := s.me.acarrea }

/-- What `client_dopacket` does to the counters. -/
def cuentaCliente (cptr : γ) (length : Nat) (s : Contadores γ ω) : Contadores γ ω :=
  let s := { s with me := s.me.suma length }
  let s := { s with
    cliente := Function.update s.cliente cptr ((s.cliente cptr).suma length).acarrea }
  { s with me := s.me.acarrea }

/-- What a call does to the counters. -/
def Llamada.paso (x : Llamada γ ω) (s : Contadores γ ω) : Contadores γ ω :=
  match x with
  | .dopacket cptr acpt length => actualizaContadores cptr acpt length s
  | .clientDopacket cptr length => cuentaCliente cptr length s

/-- The counters at the start. -/
def Contadores.cero : Contadores γ ω :=
  ⟨.cero, fun _ ↦ .cero, fun _ ↦ .cero⟩

/-- The counters after calls. -/
def cuentas (xs : List (Llamada γ ω)) : Contadores γ ω :=
  Run.final Llamada.paso .cero xs

/-! ## What is accounted -/

/-- The bytes of a call that are those of the client `c`. -/
def Llamada.delCliente (c : γ) : Llamada γ ω → Nat
  | .dopacket cptr _ length => if cptr = c then length else 0
  | .clientDopacket cptr length => if cptr = c then length else 0

/-- The bytes of a call that are those of the listener `o`. -/
def Llamada.delOyente (o : ω) : Llamada γ ω → Nat
  | .dopacket _ acpt length => if acpt = some o then length else 0
  | .clientDopacket _ _ => 0

/-- The counters stand for the bytes of the calls. -/
def Recibidos (xs : List (Llamada γ ω)) : Prop :=
  (∀ c, ((cuentas xs).cliente c).bytes = (xs.map (·.delCliente c)).sum) ∧
    (∀ o, ((cuentas xs).oyente o).bytes = (xs.map (·.delOyente o)).sum) ∧
    (cuentas xs).me.bytes = (xs.map (·.length)).sum

/-- The calls read at most a whole buffer each. -/
def Leidas (xs : List (Llamada γ ω)) : Prop :=
  ∀ x ∈ xs, x.length ≤ READBUF

instance (xs : List (Llamada γ ω)) : Decidable (Leidas xs) :=
  inferInstanceAs (Decidable (∀ x ∈ xs, x.length ≤ READBUF))

/-- The call carries the kilobytes of the server: only a client of a listener leaves them. -/
def Llamada.acarrea : Llamada γ ω → Bool
  | .dopacket _ acpt _ => acpt.isNone
  | .clientDopacket _ _ => true

/-- The bytes of the server that are left without a carry after a call. -/
def Llamada.resto (x : Llamada γ ω) (antes : Nat) : Nat :=
  if x.acarrea then (antes + x.length) % 1024 else antes + x.length

/-- At each call the bytes without a carry fit in the 16 bits of the field. -/
def Cabe : Nat → List (Llamada γ ω) → Prop
  | _, [] => True
  | antes, x :: xs => antes + x.length < 65536 ∧ Cabe (x.resto antes) xs

/-! ## One counter -/

@[simp] theorem Contador.bytes_cero : Contador.cero.bytes = 0 := by
  simp [Contador.bytes, Contador.cero]

/-- A carry does not change what a counter stands for. -/
theorem Contador.bytes_acarrea (c : Contador) : c.acarrea.bytes = c.bytes := by
  unfold Contador.acarrea
  split
  · have hmod : (c.receiveB &&& 0x3ff).toNat = c.receiveB.toNat % 1024 :=
      Nat.and_two_pow_sub_one_eq_mod c.receiveB.toNat 10
    have hdiv : (c.receiveB >>> 10).toNat = c.receiveB.toNat / 1024 :=
      Nat.shiftRight_eq_div_pow c.receiveB.toNat 10
    simp only [Contador.bytes, hmod, hdiv]
    omega
  · rfl

/-- A carry leaves less than a kilobyte. -/
theorem Contador.receiveB_acarrea (c : Contador) :
    c.acarrea.receiveB.toNat = c.receiveB.toNat % 1024 := by
  unfold Contador.acarrea
  split
  · exact Nat.and_two_pow_sub_one_eq_mod c.receiveB.toNat 10
  · next h =>
      have hle : c.receiveB.toNat ≤ 1023 := UInt16.not_lt.mp h
      omega

/-- The field after an addition. -/
theorem Contador.receiveB_suma (c : Contador) (length : Nat) :
    (c.suma length).receiveB.toNat = (c.receiveB.toNat + length) % 65536 := by
  simp [Contador.suma]

/-- An addition that fits in the field counts the bytes. -/
theorem Contador.bytes_suma {c : Contador} {length : Nat}
    (h : c.receiveB.toNat + length < 65536) : (c.suma length).bytes = c.bytes + length := by
  have hB := c.receiveB_suma length
  have hK : (c.suma length).receiveK = c.receiveK := rfl
  rw [Nat.mod_eq_of_lt h] at hB
  simp only [Contador.bytes, hB, hK]
  omega

/-- An addition that does not fit loses bytes. -/
theorem Contador.bytes_suma_lt {c : Contador} {length : Nat}
    (h : 65536 ≤ c.receiveB.toNat + length) : (c.suma length).bytes < c.bytes + length := by
  have hB := c.receiveB_suma length
  have hK : (c.suma length).receiveK = c.receiveK := rfl
  simp only [Contador.bytes, hB, hK]
  omega

theorem Contador.bytes_suma_le (c : Contador) (length : Nat) :
    (c.suma length).bytes ≤ c.bytes + length := by
  rcases Nat.lt_or_ge (c.receiveB.toNat + length) 65536 with h | h
  · exact Nat.le_of_eq (Contador.bytes_suma h)
  · exact Nat.le_of_lt (Contador.bytes_suma_lt h)

/-- A counter that is carried at each addition never overflows. -/
theorem Contador.bytes_siempre {c : Contador} {length : Nat} (hB : c.receiveB.toNat < 1024)
    (hlength : length ≤ READBUF) :
    ((c.suma length).acarrea).bytes = c.bytes + length ∧
      ((c.suma length).acarrea).receiveB.toNat < 1024 := by
  have hfits : c.receiveB.toNat + length < 65536 := by
    unfold READBUF at hlength
    omega
  refine ⟨by rw [Contador.bytes_acarrea, Contador.bytes_suma hfits], ?_⟩
  rw [Contador.receiveB_acarrea]
  exact Nat.mod_lt _ (by omega)

/-! ## Runs -/

/-- A counter that is carried at each addition counts the bytes of a run. -/
theorem bytes_final (cuenta : Contadores γ ω → Contador) {suyos : Llamada γ ω → Nat}
    (hpaso : ∀ x s, cuenta (Llamada.paso x s) = ((cuenta s).suma (suyos x)).acarrea ∨
      suyos x = 0 ∧ cuenta (Llamada.paso x s) = cuenta s)
    (hsuyos : ∀ x, suyos x ≤ x.length) {xs : List (Llamada γ ω)} (hxs : Leidas xs)
    {s : Contadores γ ω} (hs : (cuenta s).receiveB.toNat < 1024) :
    (cuenta (Run.final Llamada.paso s xs)).bytes = (cuenta s).bytes + (xs.map suyos).sum := by
  induction xs generalizing s with
  | nil => simp
  | cons x xs ih =>
      obtain ⟨hx, hxs⟩ := List.forall_mem_cons.mp hxs
      obtain ⟨hbytes, hB⟩ : (cuenta (Llamada.paso x s)).bytes = (cuenta s).bytes + suyos x ∧
          (cuenta (Llamada.paso x s)).receiveB.toNat < 1024 := by
        rcases hpaso x s with h | ⟨hcero, h⟩
        · rw [h]
          exact Contador.bytes_siempre hs (Nat.le_trans (hsuyos x) hx)
        · rw [h, hcero]
          exact ⟨(Nat.add_zero _).symm, hs⟩
      rw [Run.final_cons, ih hxs hB, hbytes, List.map_cons, List.sum_cons, Nat.add_assoc]

/-- The counters of clients are right. -/
theorem bytes_cliente {xs : List (Llamada γ ω)} (hxs : Leidas xs) (c : γ) :
    ((cuentas xs).cliente c).bytes = (xs.map (·.delCliente c)).sum := by
  have hpaso (x : Llamada γ ω) (s : Contadores γ ω) :
      (x.paso s).cliente c = ((s.cliente c).suma (x.delCliente c)).acarrea ∨
        x.delCliente c = 0 ∧ (x.paso s).cliente c = s.cliente c := by
    cases x with
    | dopacket cptr acpt length =>
        by_cases hc : cptr = c
        · subst hc
          refine .inl ?_
          cases acpt <;>
            simp [Llamada.paso, actualizaContadores, Llamada.delCliente]
        · refine .inr ⟨if_neg hc, ?_⟩
          cases acpt <;>
            simp [Llamada.paso, actualizaContadores, Function.update_of_ne (Ne.symm hc)]
    | clientDopacket cptr length =>
        by_cases hc : cptr = c
        · subst hc
          exact .inl (by simp [Llamada.paso, cuentaCliente, Llamada.delCliente])
        · refine .inr ⟨if_neg hc, ?_⟩
          simp [Llamada.paso, cuentaCliente, Function.update_of_ne (Ne.symm hc)]
  have hsuyos (x : Llamada γ ω) : x.delCliente c ≤ x.length := by
    cases x <;> simp only [Llamada.delCliente, Llamada.length] <;> split <;> omega
  have hfinal := bytes_final (fun s ↦ s.cliente c) hpaso hsuyos hxs
    (s := .cero) (by simp [Contadores.cero, Contador.cero])
  simpa [cuentas, Contadores.cero] using hfinal

/-- The counters of listeners are right. -/
theorem bytes_oyente {xs : List (Llamada γ ω)} (hxs : Leidas xs) (o : ω) :
    ((cuentas xs).oyente o).bytes = (xs.map (·.delOyente o)).sum := by
  have hpaso (x : Llamada γ ω) (s : Contadores γ ω) :
      (x.paso s).oyente o = ((s.oyente o).suma (x.delOyente o)).acarrea ∨
        x.delOyente o = 0 ∧ (x.paso s).oyente o = s.oyente o := by
    cases x with
    | dopacket cptr acpt length =>
        cases acpt with
        | none => exact .inr ⟨rfl, rfl⟩
        | some acpt =>
            by_cases ho : acpt = o
            · subst ho
              exact .inl (by simp [Llamada.paso, actualizaContadores, Llamada.delOyente])
            · refine .inr ⟨by simp [Llamada.delOyente, ho], ?_⟩
              simp [Llamada.paso, actualizaContadores, Function.update_of_ne (Ne.symm ho)]
    | clientDopacket cptr length => exact .inr ⟨rfl, rfl⟩
  have hsuyos (x : Llamada γ ω) : x.delOyente o ≤ x.length := by
    cases x <;> simp only [Llamada.delOyente, Llamada.length]
    · split <;> omega
    · omega
  have hfinal := bytes_final (fun s ↦ s.oyente o) hpaso hsuyos hxs
    (s := .cero) (by simp [Contadores.cero, Contador.cero])
  simpa [cuentas, Contadores.cero] using hfinal

/-- Each call adds its bytes to the counter of the server, and some calls carry it. -/
theorem me_paso (x : Llamada γ ω) (s : Contadores γ ω) :
    (x.paso s).me = if x.acarrea then (s.me.suma x.length).acarrea else s.me.suma x.length := by
  cases x with
  | dopacket cptr acpt length => cases acpt <;> rfl
  | clientDopacket cptr length => rfl

theorem bytes_me_paso (x : Llamada γ ω) (s : Contadores γ ω) :
    (x.paso s).me.bytes = (s.me.suma x.length).bytes := by
  rw [me_paso]
  split
  · exact Contador.bytes_acarrea _
  · rfl

/-- The counter of the server never has more than the bytes of the calls. -/
theorem bytes_me_le (s : Contadores γ ω) (xs : List (Llamada γ ω)) :
    (Run.final Llamada.paso s xs).me.bytes ≤ s.me.bytes + (xs.map (·.length)).sum := by
  induction xs generalizing s with
  | nil => simp
  | cons x xs ih =>
      have hx := s.me.bytes_suma_le x.length
      have hxs := ih (x.paso s)
      rw [bytes_me_paso] at hxs
      rw [Run.final_cons, List.map_cons, List.sum_cons]
      omega

/-- The counter of the server is right exactly when its field never overflows. -/
theorem bytes_me_iff {s : Contadores γ ω} {antes : Nat} (hs : s.me.receiveB.toNat = antes)
    (xs : List (Llamada γ ω)) :
    (Run.final Llamada.paso s xs).me.bytes = s.me.bytes + (xs.map (·.length)).sum ↔
      Cabe antes xs := by
  induction xs generalizing s antes with
  | nil => simp [Cabe]
  | cons x xs ih =>
      have hpaso := bytes_me_paso x s
      rw [Run.final_cons, List.map_cons, List.sum_cons]
      by_cases hcabe : antes + x.length < 65536
      · have hB : (x.paso s).me.receiveB.toNat = x.resto antes := by
          have hsuma := s.me.receiveB_suma x.length
          rw [hs, Nat.mod_eq_of_lt hcabe] at hsuma
          rw [me_paso, Llamada.resto]
          split
          · rw [Contador.receiveB_acarrea, hsuma]
          · exact hsuma
        rw [Contador.bytes_suma (by omega)] at hpaso
        rw [← Nat.add_assoc, ← hpaso, ih hB, Cabe]
        exact (and_iff_right hcabe).symm
      · -- The bytes that are lost here are never counted again.
        have hlost : (s.me.suma x.length).bytes < s.me.bytes + x.length :=
          Contador.bytes_suma_lt (by omega)
        have hle := bytes_me_le (x.paso s) xs
        refine iff_of_false (by omega) fun h ↦ hcabe h.1

/-- The counts of a run are those of its calls exactly when, at each call, the bytes of the server
since its last carry fit in its field with what that carry left. -/
theorem recibidos_iff (xs : List (Llamada γ ω)) (hxs : Leidas xs) : Recibidos xs ↔ Cabe 0 xs := by
  have hme := bytes_me_iff (show (Contadores.cero : Contadores γ ω).me.receiveB.toNat = 0 by
    simp [Contadores.cero, Contador.cero]) xs
  rw [Contadores.cero, Contador.bytes_cero, Nat.zero_add] at hme
  rw [← hme]
  constructor
  · intro h
    exact h.2.2
  · intro h
    exact ⟨bytes_cliente hxs, bytes_oyente hxs, h⟩

/-- A server that reads a buffer from a client of its own and another one from a client of a
listener. -/
theorem recibidos_iff_dos :
    Leidas [Llamada.dopacket 0 none 8192, .dopacket 1 (some 0) 8192] ∧
      (Recibidos [(Llamada.dopacket 0 none 8192 : Llamada Nat Nat), .dopacket 1 (some 0) 8192] ↔
        Cabe 0 [(Llamada.dopacket 0 none 8192 : Llamada Nat Nat), .dopacket 1 (some 0) 8192]) :=
  ⟨by decide, recibidos_iff _ (by decide)⟩

/-- Eight buffers through a listener are lost for the server. -/
theorem not_recibidos :
    Leidas (List.replicate 8 (Llamada.dopacket 0 (some 0) 8192 : Llamada Nat Nat)) ∧
      ¬ Recibidos (List.replicate 8 (Llamada.dopacket 0 (some 0) 8192 : Llamada Nat Nat)) := by
  refine ⟨by decide, fun h ↦ ?_⟩
  have hme : (cuentas (List.replicate 8
      (Llamada.dopacket 0 (some 0) 8192 : Llamada Nat Nat))).me.bytes = 65536 := h.2.2
  exact absurd hme (by decide)

end

end Ircd.Packet
