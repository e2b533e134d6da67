import Mathlib.Data.List.Basic

/-!
# UTF-8

The encoding of the code points below U+10000, which takes one, two or three bytes. The encodings of
two different texts differ (`codificados_inj`), because no code point's encoding begins another's.
-/

namespace Utf8

/-- The bytes of a code point. -/
def codifica (w : Nat) : List UInt8 :=
  if w < 0x80 then [UInt8.ofNat w]
  else if w < 0x800 then [UInt8.ofNat (0xC0 + w / 64), UInt8.ofNat (0x80 + w % 64)]
  else [UInt8.ofNat (0xE0 + w / 4096), UInt8.ofNat (0x80 + w / 64 % 64),
    UInt8.ofNat (0x80 + w % 64)]

/-- The bytes of a text. -/
def codificados (ws : List Nat) : List UInt8 :=
  ws.flatMap codifica

variable {w w' : Nat} {ws ws' : List Nat} {r r' : List UInt8}

theorem codifica_uno (h : w < 0x80) : codifica w = [UInt8.ofNat w] := if_pos h

theorem codifica_dos (hlow : 0x80 ≤ w) (hhigh : w < 0x800) :
    codifica w = [UInt8.ofNat (0xC0 + w / 64), UInt8.ofNat (0x80 + w % 64)] := by
  rw [codifica, if_neg (Nat.not_lt.mpr hlow), if_pos hhigh]

theorem codifica_tres (hlow : 0x800 ≤ w) :
    codifica w = [UInt8.ofNat (0xE0 + w / 4096), UInt8.ofNat (0x80 + w / 64 % 64),
      UInt8.ofNat (0x80 + w % 64)] := by
  rw [codifica, if_neg (by omega), if_neg (Nat.not_lt.mpr hlow)]

@[simp] theorem codificados_nil : codificados [] = [] := rfl

@[simp] theorem codificados_cons : codificados (w :: ws) = codifica w ++ codificados ws := rfl

/-- A code point has at least one byte. -/
theorem length_codifica_pos (w : Nat) : 0 < (codifica w).length := by
  unfold codifica
  split_ifs <;> exact Nat.succ_pos _

/-- The encoding of a code point does not begin that of another one. -/
theorem codifica_append_inj (hw : w < 0x10000) (hw' : w' < 0x10000)
    (h : codifica w ++ r = codifica w' ++ r') : w = w' ∧ r = r' := by
  suffices hword : w = w' by
    subst hword
    exact ⟨rfl, List.append_cancel_left h⟩
  -- The first byte tells how many there are, and the bytes hold the digits of the number.
  unfold codifica at h
  split_ifs at h <;>
    simp only [List.cons_append, List.nil_append, List.cons.injEq, ← UInt8.toNat_inj,
      UInt8.toNat_ofNat'] at h <;>
    omega

/-- Different texts are encoded differently. -/
theorem codificados_inj (hws : ∀ w ∈ ws, w < 0x10000) (hws' : ∀ w ∈ ws', w < 0x10000)
    (h : codificados ws = codificados ws') : ws = ws' := by
  induction ws generalizing ws' with
  | nil =>
      cases ws' with
      | nil => rfl
      | cons w' ws' =>
          have hlen := congrArg List.length h
          have hpos := length_codifica_pos w'
          simp only [codificados_nil, codificados_cons, List.length_nil, List.length_append] at hlen
          omega
  | cons w ws ih =>
      cases ws' with
      | nil =>
          have hlen := congrArg List.length h
          have hpos := length_codifica_pos w
          simp only [codificados_nil, codificados_cons, List.length_nil, List.length_append] at hlen
          omega
      | cons w' ws' =>
          rw [List.forall_mem_cons] at hws hws'
          obtain ⟨rfl, hrest⟩ := codifica_append_inj hws.1 hws'.1 h
          rw [ih hws.2 hws'.2 hrest]

end Utf8
