import Ircd.Lib.CString

/-!
# Key rings

`compall` of `channel.c`, which tries the elements of a key ring on the key of a channel. A pointer
is the memory from it to the terminator of its string, and `none` stands for a read behind that.
The main result is `compall_iff`: the key of a channel is found if and only if it is one of the
elements of the ring.
-/

namespace Ircd.Channel

open CString

/-! ## The scan -/

/-- `while (*p1 && *p1 == *keyring)`: the pointers `p1` and `keyring` where they stop. -/
def compara : CStr → CStr → Option (CStr × CStr)
  | [], _ => none
  | p :: p1, keyring =>
      if p = nul then some (p :: p1, keyring)
      else
        match keyring with
        | [] => none
        | k :: keyring =>
            if p = k then compara p1 keyring else some (p :: p1, k :: keyring)

/-- `while (*keyring && *(keyring++) != ',')`. -/
def salta : CStr → Option CStr
  | [] => none
  | k :: keyring =>
      if k = nul then some (k :: keyring)
      else if k = ',' then some keyring
      else salta keyring

/-- `compall` from `top` on, where `fuel` bounds the jumps back to it. -/
def compallDesde (key : CStr) : Nat → CStr → Option Nat
  | 0, _ => none
  | fuel + 1, keyring => do
      let (p1, keyring) ← compara key keyring
      let p ← p1.head?
      let k ← keyring.head?
      if p = nul ∧ (k = nul ∨ k = ',') then return 0
      if k = nul then return 1
      compallDesde key fuel (← salta keyring)

/-- `compall`. -/
def compall (key keyring : CStr) : Option Nat :=
  compallDesde key keyring.length keyring

/-! ## One element -/

section

variable {key ring e : CStr} {c : Char}

/-- The comparison runs over what the key and an element have in common. -/
theorem exists_compara (rest : CStr) (hkey : nul ∉ key) (hcomma : ',' ∉ key)
    (hc : c = nul ∨ c = ',') :
    ∃ comun p e', key = comun ++ p ∧ e = comun ++ e' ∧ (p = e' → p = []) ∧
      compara (key ++ [nul]) (e ++ c :: rest) = some (p ++ [nul], e' ++ c :: rest) := by
  induction key generalizing e with
  | nil => exact ⟨[], [], e, rfl, rfl, fun _ ↦ rfl, by simp [compara]⟩
  | cons x key ih =>
      have hx : x ≠ nul := fun h ↦ hkey (h ▸ List.mem_cons_self)
      have hkey' : nul ∉ key := fun h ↦ hkey (List.mem_cons_of_mem _ h)
      have hcomma' : ',' ∉ key := fun h ↦ hcomma (List.mem_cons_of_mem _ h)
      cases e with
      | nil =>
          -- The key goes on where the element ends.
          have hxc : x ≠ c := by
            rintro rfl
            exact hc.elim hx fun h ↦ hcomma (h ▸ List.mem_cons_self)
          exact ⟨[], x :: key, [], rfl, rfl, fun h ↦ h, by simp [compara, hx, hxc]⟩
      | cons y e =>
          by_cases hxy : x = y
          · subst hxy
            obtain ⟨comun, p, e', hp, he, hmax, hrun⟩ := ih (e := e) hkey' hcomma'
            refine ⟨x :: comun, p, e', by rw [hp]; rfl, by rw [he]; rfl, hmax, ?_⟩
            simpa [compara, hx] using hrun
          · exact ⟨[], x :: key, y :: e, rfl, rfl, fun h ↦ absurd (List.cons.inj h).1 hxy,
              by simp [compara, hx, hxy]⟩

/-- The rest of an element is skipped together with the comma behind it. -/
theorem salta_coma (rest : CStr) (hnul : nul ∉ e) (hcomma : ',' ∉ e) : salta (e ++ ',' :: rest) = some rest := by
  induction e with
  | nil => rfl
  | cons y e ih =>
      simp only [List.mem_cons, not_or] at hnul hcomma
      rw [List.cons_append, salta, if_neg (Ne.symm hnul.1), if_neg (Ne.symm hcomma.1)]
      exact ih hnul.2 hcomma.2

/-- The rest of the last element is skipped up to the terminator. -/
theorem salta_nul (hnul : nul ∉ e) (hcomma : ',' ∉ e) : salta (e ++ [nul]) = some [nul] := by
  induction e with
  | nil => rfl
  | cons y e ih =>
      simp only [List.mem_cons, not_or] at hnul hcomma
      rw [List.cons_append, salta, if_neg (Ne.symm hnul.1), if_neg (Ne.symm hcomma.1)]
      exact ih hnul.2 hcomma.2

/-- One jump to `top`: the key is the element, or the scan goes on behind what it has skipped. -/
theorem compallDesde_paso (fuel : Nat) (rest : CStr) (hkey : nul ∉ key) (hcomma : ',' ∉ key)
    (hnul : nul ∉ e) (hsep : ',' ∉ e) (hc : c = nul ∨ c = ',') :
    (key = e ∧ compallDesde (key ++ [nul]) (fuel + 1) (e ++ c :: rest) = some 0) ∨
    (key ≠ e ∧ ∃ e', e' <:+ e ∧
      compallDesde (key ++ [nul]) (fuel + 1) (e ++ c :: rest) =
        if e' = [] ∧ c = nul then some 1
        else (salta (e' ++ c :: rest)).bind (compallDesde (key ++ [nul]) fuel)) := by
  obtain ⟨comun, p, e', hp, he, hmax, hrun⟩ := exists_compara rest hkey hcomma hc
  by_cases heq : key = e
  · have hpe : p = e' := List.append_cancel_left (hp.symm.trans (heq.trans he))
    have hpnil := hmax hpe
    subst hpe
    subst hpnil
    exact .inl ⟨heq, by simp [compallDesde, hrun, hc]⟩
  · refine .inr ⟨heq, e', ⟨comun, he.symm⟩, ?_⟩
    cases p with
    | nil =>
        have he' : e' ≠ [] := by
          rintro rfl
          exact heq (hp.trans he.symm)
        obtain ⟨y, e', rfl⟩ := List.exists_cons_of_ne_nil he'
        have hmem : y ∈ e := he ▸ by simp
        have hy : y ≠ nul := fun h ↦ hnul (h ▸ hmem)
        have hy' : y ≠ ',' := fun h ↦ hsep (h ▸ hmem)
        simp [compallDesde, hrun, hy, hy']
    | cons x p =>
        have hx : x ≠ nul := fun h ↦ hkey (h ▸ hp ▸ by simp)
        cases e' with
        | nil => simp [compallDesde, hrun, hx]
        | cons y e' =>
            have hy : y ≠ nul := fun h ↦ hnul (h ▸ he ▸ by simp)
            simp [compallDesde, hrun, hx, hy]

end

/-! ## The ring -/

section

variable {key ring : CStr} {fuel : Nat}

/-- At the terminator the scan is over. -/
theorem compallDesde_nul (hne : key ≠ []) (hkey : nul ∉ key) :
    compallDesde (key ++ [nul]) (fuel + 1) [nul] = some 1 := by
  obtain ⟨x, key, rfl⟩ := List.exists_cons_of_ne_nil hne
  have hx : x ≠ nul := fun h ↦ hkey (h ▸ List.mem_cons_self)
  simp [compallDesde, compara, hx]

/-- The scan of a ring, started with a jump for each of its bytes. -/
theorem compallDesde_iff (hne : key ≠ []) (hkey : nul ∉ key) (hcomma : ',' ∉ key)
    (hring : nul ∉ ring) (hfuel : ring.length < fuel) :
    ∃ r, compallDesde (key ++ [nul]) fuel (ring ++ [nul]) = some r ∧
      (r = 0 ↔ key ∈ ring.splitOn ',') := by
  induction fuel generalizing ring with
  | zero => exact absurd hfuel (Nat.not_lt_zero _)
  | succ fuel ih =>
      by_cases hmem : ',' ∈ ring
      · -- The first element is followed by another one.
        obtain ⟨e, rest, rfl, hsep⟩ := List.eq_append_cons_of_mem hmem
        have hnul : nul ∉ e := fun h ↦ hring (List.mem_append_left _ h)
        have hrest : nul ∉ rest := fun h ↦
          hring (List.mem_append_right _ (List.mem_cons_of_mem _ h))
        have hlen : rest.length < fuel := by
          simp only [List.length_append, List.length_cons] at hfuel
          omega
        obtain ⟨r, hr, hiff⟩ := ih hrest hlen
        rw [List.splitOn_append_cons_self_of_not_mem hsep, List.mem_cons, List.append_assoc,
          List.cons_append]
        rcases compallDesde_paso fuel (rest ++ [nul]) hkey hcomma hnul hsep (.inr rfl) with
          ⟨heq, hrun⟩ | ⟨heq, e', he', hrun⟩
        · exact ⟨0, hrun, by simp [heq]⟩
        · refine ⟨r, ?_, by simp [heq, hiff]⟩
          have hskip := salta_coma (rest ++ [nul])
            (fun h ↦ hnul (he'.mem h)) (fun h ↦ hsep (he'.mem h))
          rw [hrun, if_neg (by simp [nul]), hskip]
          exact hr
      · rw [List.splitOn_eq_singleton hmem, List.mem_singleton]
        rcases compallDesde_paso fuel [] hkey hcomma hring hmem (.inl rfl) with
          ⟨heq, hrun⟩ | ⟨heq, e', he', hrun⟩
        · exact ⟨0, hrun, by simp [heq]⟩
        · refine ⟨1, ?_, by simp [heq]⟩
          by_cases hend : e' = []
          · rw [hrun, if_pos ⟨hend, rfl⟩]
          · -- What is left of the last element takes one more jump, at the terminator.
            have hskip := salta_nul (fun h ↦ hring (he'.mem h)) (fun h ↦ hmem (he'.mem h))
            have hpos : 0 < ring.length :=
              Nat.lt_of_lt_of_le (List.length_pos_iff.mpr hend) he'.length_le
            obtain ⟨n, rfl⟩ : ∃ n, fuel = n + 1 := ⟨fuel - 1, by omega⟩
            rw [hrun, if_neg (fun h ↦ hend h.1), hskip]
            exact compallDesde_nul hne hkey

/-- A key without commas is found in a ring if and only if it is one of its elements; nothing is
read behind the two terminators. -/
theorem compall_iff (hne : key ≠ []) (hkey : nul ∉ key) (hcomma : ',' ∉ key)
    (hring : nul ∉ ring) :
    ∃ r, compall (key ++ [nul]) (ring ++ [nul]) = some r ∧ (r = 0 ↔ key ∈ ring.splitOn ',') := by
  exact compallDesde_iff hne hkey hcomma hring (by simp)

theorem compall_iff_owner :
    ∃ r, compall ("OWNER".toList ++ [nul]) ("OWN,OWNER".toList ++ [nul]) = some r ∧
      (r = 0 ↔ "OWNER".toList ∈ "OWN,OWNER".toList.splitOn ',') := by
  exact compall_iff (by decide) (by decide) (by decide) (by decide)

end

end Ircd.Channel
