import Ircd.Crule.Descenso

/-!
# Freeing a rejected rule

When `crule_parse` rejects a rule it calls `crule_free` on the tree that it has built so far, which
has all the blocks. `limpieza_iff` tells from the tokens of the rule when that is safe: no call is
given more arguments than its node has room for, and before the place where the rule is wrong no
operator of an expression lacks its first operand and none is followed by an unknown token.
-/

namespace Ircd.Crule

open CString Reader

/-- The parse was safe: every argument was stored within its node, and when the rule was rejected
`crule_free` has freed each block that was allocated, and each once. -/
def Segura (a : Analisis) : Prop :=
  a.ruleroot.sobra = false ∧
    (a.valor = .null → ∃ libres, a.libres = some libres ∧ libres.Perm a.pedidos ∧ libres.Nodup)

/-- No call is given an argument for which its node has no room. -/
def SinDesborde (rule : CStr) : Prop :=
  alguno paso desborda comienzo (lexemas rule) = false

/-- Up to the place where the rule is wrong no operator lacks its first operand, and no unknown
token follows an operator. -/
def SinRotura (rule : CStr) : Prop :=
  lee paso comienzo (lexemas rule) = none → alguno paso rompe comienzo (lexemas rule) = false

/-- A rejected rule is freed exactly when its tree is not broken. -/
theorem Analizada.libres_iff {rule : CStr} {a : Analisis} (h : Analizada rule a)
    (hnull : a.valor = .null) :
    (∃ libres, a.libres = some libres ∧ libres.Perm a.pedidos ∧ libres.Nodup) ↔
      alguno paso rompe comienzo (lexemas rule) = false := by
  rw [h.libres hnull, ← h.malo]
  by_cases hroot : a.ruleroot = .null
  · have hbloques := h.bloques
    rw [hroot] at hbloques ⊢
    exact ⟨fun _ ↦ rfl, fun _ ↦ ⟨[], rfl, hbloques, List.nodup_nil⟩⟩
  · rw [if_pos hroot, cruleFree_eq hroot]
    cases a.ruleroot.malo with
    | true =>
        refine ⟨?_, nofun⟩
        rintro ⟨libres, hlibres, -⟩
        cases hlibres
    | false => exact ⟨fun _ ↦ rfl, fun _ ↦ ⟨_, rfl, h.bloques, h.bloques.nodup_iff.mpr h.nodup⟩⟩

/-- When the parse of a rule is safe. -/
theorem limpieza_iff (rule : CStr) :
    ∃ a, cruleParse rule = some a ∧ (Segura a ↔ SinDesborde rule ∧ SinRotura rule) := by
  obtain ⟨a, ha, h⟩ := cruleParse_spec rule
  refine ⟨a, ha, ?_⟩
  rw [Segura, SinDesborde, SinRotura, h.sobra, ← h.nulo]
  exact and_congr_right fun _ ↦ forall_congr' fun hnull ↦ h.libres_iff hnull

/-- Of `||)` the node of `||` is left without a first operand, which `crule_free` follows. -/
theorem not_limpieza : ¬∀ rule, ∃ a, cruleParse rule = some a ∧ Segura a := by
  intro h
  obtain ⟨a, ha, -, hlibres⟩ := h ['|', '|', ')']
  have hparse : cruleParse ['|', '|', ')'] =
      some ⟨.null, .crExpctand, .andor 0 .null .null true, [0], none⟩ := rfl
  obtain rfl := Option.some.inj (hparse.symm.trans ha)
  obtain ⟨libres, hnone, -⟩ := hlibres rfl
  cases hnone

end Ircd.Crule
