import Ircd.Lib.CString

/-!
# Parameters of a server message

`params` is the loop at the end of `parse_server` that splits the text behind a command. Every
parameter but the last is a field without blanks (`word_params`), and no parameter contains a
character that the text does not have (`plain_params`). Parameters that were printed in a row are
split again as they were (`params_argumentos`).
-/

namespace Ircd

open CString

/-- `MAXPARA`: the last parameter that is split off takes the rest of the text. -/
def MAXPARA : Nat := 15

/-- The loop of `parse_server` with room for so many parameters. -/
def params : Nat → CStr → List CStr
  | 0, _ => []
  | n + 1, s =>
      match s.dropWhile (· == ' ') with
      | [] => []
      | c :: rest =>
          if c = ':' then [rest]
          else if n = 0 then [c :: rest]
          else (c :: rest).takeWhile (· != ' ') :: params n ((c :: rest).dropWhile (· != ' '))

/-- Parameters are parts of the text. -/
theorem mem_of_mem_params {n : Nat} {s p : CStr} (hp : p ∈ params n s) : ∀ c ∈ p, c ∈ s := by
  induction n generalizing s with
  | zero => cases hp
  | succ n ih =>
      have hsub (c : Char) (hc : c ∈ s.dropWhile (· == ' ')) : c ∈ s :=
        (List.dropWhile_sublist _).mem hc
      rw [params] at hp
      split at hp
      · cases hp
      · next c rest heq =>
          rw [heq] at hsub
          split at hp
          · obtain rfl := List.mem_singleton.mp hp
            exact fun d hd ↦ hsub d (List.mem_cons_of_mem _ hd)
          · split at hp
            · obtain rfl := List.mem_singleton.mp hp
              exact hsub
            · rcases List.mem_cons.mp hp with rfl | hp
              · exact fun d hd ↦ hsub d ((List.takeWhile_sublist _).mem hd)
              · exact fun d hd ↦ hsub d ((List.dropWhile_sublist _).mem (ih hp d hd))

/-- The parameters of a plain text are plain. -/
theorem plain_params {n : Nat} {s p : CStr} (hs : Plain s) (hp : p ∈ params n s) : Plain p :=
  hs.of_subset (mem_of_mem_params hp)

/-- A parameter that another one follows is a field. -/
theorem word_params {n : Nat} {s p q : CStr} {l r : List CStr} (hs : Plain s)
    (h : params n s = l ++ p :: q :: r) : Word p := by
  induction n generalizing s l with
  | zero => simp [params] at h
  | succ n ih =>
      have hplain (t : CStr) (ht : t.Sublist s) : Plain t := hs.of_subset fun _ ↦ ht.mem
      have hsub := List.dropWhile_sublist (· == ' ') (l := s)
      rw [params] at h
      split at h
      · simp at h
      · next c rest heq =>
          have hc : c ≠ ' ' := by
            have hnot := List.head_dropWhile_not (· == ' ') (l := s) (by simp [heq])
            simpa [heq] using hnot
          rw [heq] at hsub
          split at h
          · cases l <;> simp at h
          · split at h
            · cases l <;> simp at h
            · cases l with
              | nil =>
                  obtain ⟨rfl, -⟩ := List.cons.inj h
                  refine ⟨by simp [hc], fun hmem ↦ ?_,
                    hplain _ ((List.takeWhile_sublist _).trans hsub)⟩
                  simpa using List.mem_takeWhile_imp hmem
              | cons b l =>
                  rw [List.cons_append] at h
                  exact ih (hplain _ ((List.dropWhile_sublist _).trans hsub)) (List.cons.inj h).2

/-! ## Printed parameters -/

/-- A parameter that can stand before another one. -/
def Middle (p : CStr) : Prop :=
  p ≠ [] ∧ ' ' ∉ p ∧ p.head? ≠ some ':'

instance (p : CStr) : Decidable (Middle p) :=
  inferInstanceAs (Decidable (_ ∧ _))

/-- Parameters printed with a blank before each. -/
def argumentos (ps : List CStr) : CStr :=
  ps.flatMap (' ' :: ·)

@[simp] theorem argumentos_nil : argumentos [] = [] := rfl

@[simp] theorem argumentos_cons (p : CStr) (ps : List CStr) :
    argumentos (p :: ps) = ' ' :: (p ++ argumentos ps) := by
  simp [argumentos]

/-- The loop takes one parameter off a text that goes on with a blank or ends. -/
theorem params_middle {n : Nat} (hn : n ≠ 0) {p rest : CStr} (hp : Middle p)
    (hrest : rest = [] ∨ rest.head? = some ' ') :
    params (n + 1) (' ' :: (p ++ rest)) = p :: params n rest := by
  obtain ⟨hne, hblanco, hcolon⟩ := hp
  have hscan := bne_of_not_mem hblanco
  cases p with
  | nil => exact absurd rfl hne
  | cons c p =>
      have hc : c ≠ ' ' := by
        rintro rfl
        exact hblanco (List.mem_cons_self ..)
      have hc' : c ≠ ':' := fun h ↦ hcolon (h ▸ rfl)
      have hskip : (' ' :: (c :: p ++ rest)).dropWhile (· == ' ') = c :: (p ++ rest) := by
        rw [List.dropWhile_cons_of_pos (by simp)]
        exact List.dropWhile_cons_of_neg (by simpa using hc)
      have htoken : (c :: (p ++ rest)).takeWhile (· != ' ') = c :: p ∧
          (c :: (p ++ rest)).dropWhile (· != ' ') = rest := by
        rcases hrest with rfl | hrest
        · rw [List.append_nil]
          exact ⟨List.takeWhile_eq_self_iff.mpr hscan, List.dropWhile_eq_nil_iff.mpr hscan⟩
        · obtain ⟨rest, rfl⟩ := List.head?_eq_some_iff.mp hrest
          exact ⟨takeWhile_stop rest hscan rfl, dropWhile_stop rest hscan rfl⟩
      rw [params, hskip]
      simp only [if_neg hc', if_neg hn, htoken]

theorem params_argumentos_append {n : Nat} {ps : List CStr} (hps : ∀ p ∈ ps, Middle p)
    (hn : ps.length < n) {rest : CStr} (hrest : rest = [] ∨ rest.head? = some ' ') :
    params n (argumentos ps ++ rest) = ps ++ params (n - ps.length) rest := by
  induction ps generalizing n with
  | nil => rfl
  | cons p ps ih =>
      obtain ⟨hp, hps⟩ := List.forall_mem_cons.mp hps
      obtain ⟨n, rfl⟩ : ∃ k, n = k + 1 := ⟨n - 1, by simp at hn; omega⟩
      simp only [List.length_cons, Nat.add_lt_add_iff_right] at hn
      have hresto : argumentos ps ++ rest = [] ∨ (argumentos ps ++ rest).head? = some ' ' := by
        cases ps with
        | nil => exact hrest
        | cons q ps => exact .inr rfl
      rw [argumentos_cons, List.cons_append, List.append_assoc,
        params_middle (by omega) hp hresto, ih hps hn]
      simp

/-- Printed parameters are split again. -/
theorem params_argumentos {n : Nat} {ps : List CStr} (hps : ∀ p ∈ ps, Middle p)
    (hn : ps.length < n) : params n (argumentos ps) = ps := by
  have hsplit := params_argumentos_append hps hn (.inl rfl)
  have hnil (k : Nat) : params k [] = [] := by cases k <;> rfl
  rwa [List.append_nil, hnil, List.append_nil] at hsplit

/-- A last parameter behind a colon can be any text. -/
theorem params_argumentos_colon {n : Nat} {ps : List CStr} (hps : ∀ p ∈ ps, Middle p)
    (hn : ps.length < n) (q : CStr) : params n (argumentos ps ++ ' ' :: ':' :: q) = ps ++ [q] := by
  obtain ⟨k, hk⟩ : ∃ k, n - ps.length = k + 1 := ⟨n - ps.length - 1, by omega⟩
  rw [params_argumentos_append hps hn (.inr rfl), hk]
  rfl

end Ircd
