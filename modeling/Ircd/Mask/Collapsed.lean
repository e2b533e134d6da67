import Ircd.Mask.Reads
import Mathlib.Data.List.Chain
import Mathlib.Data.List.GetD

/-!
# Collapsed masks

`collapse` of `ircd/match.c` as it works, in place: `desplaza` reads the mask at one place of the
memory and writes it at another one that never overtakes the first. `collapseEn_spec` says that what
is left in the memory is the text of `collapse`. The main theorem, `collapse_sentido`, is that
collapsing a mask keeps its language, and leaves no star before another wildcard.
-/

namespace Ircd

open CString
open Wildcard

namespace Match

/-! ## In place -/

/-- The byte at a place of the memory. -/
def byte (mem : List Char) (i : Nat) : Char :=
  mem.getD i nul

/-- The inner loop of `collapse`, which reads at `m` and writes at `b`. -/
def desplaza : Nat → List Char → Nat → Nat → Bool → List Char
  | 0, mem, _, _, _ => mem
  | fuel + 1, mem, m, b, star =>
      if byte mem m = '*' then desplaza fuel mem (m + 1) b true
      else
        let espera := star && byte mem m != '?'
        let mem := if espera then mem.set b '*' else mem
        let b := if espera then b + 1 else b
        let star := star && !espera
        let mem := mem.set b (byte mem m)
        if byte mem m = '\\' ∧ isWild (byte mem (m + 1)) then
          desplaza fuel (mem.set (b + 1) (byte mem (m + 1))) (m + 2) (b + 2) star
        else if byte mem m = nul then mem
        else desplaza fuel mem (m + 1) (b + 1) star

/-- The outer loop of `collapse`, up to the first star before a wildcard. -/
def collapseDesde : Nat → List Char → Nat → List Char
  | 0, mem, _ => mem
  | fuel + 1, mem, m =>
      if byte mem m = '*' ∧ isWild (byte mem (m + 1)) then desplaza (mem.length + 1) mem m m false
      else
        let m := if byte mem m = '\\' ∧ isWild (byte mem (m + 1)) then m + 1 else m
        if byte mem m = nul then mem else collapseDesde fuel mem (m + 1)

/-- `collapse (mask)` for a mask at the beginning of a memory. -/
def collapseEn (mem : List Char) : List Char :=
  collapseDesde (mem.length + 1) mem 0

variable {m r : CStr} {c : Char} {w g after : List Char}

theorem byte_append (w x : List Char) (i : Nat) : byte (w ++ x) (w.length + i) = byte x i := by
  rw [byte, byte, List.getD_append_right _ _ _ _ (Nat.le_add_right _ _), Nat.add_sub_cancel_left]

theorem byte_cons (w g : List Char) (c : Char) (r : List Char) :
    byte (w ++ (g ++ c :: r)) (w.length + g.length) = c := by
  rw [byte_append, ← Nat.add_zero g.length, byte_append]
  rfl

/-- What is read is written behind what has been written: the gap between the two moves on. -/
theorem set_cons (w g : List Char) (c : Char) (r : List Char) :
    (w ++ (g ++ c :: r)).set w.length c = (w ++ [c]) ++ ((g ++ [c]).tail ++ r) := by
  rw [List.set_append_right _ _ le_rfl, Nat.sub_self, List.append_assoc]
  cases g <;> simp

theorem length_tail_append (g : List Char) (c : Char) : (g ++ [c]).tail.length = g.length := by
  simp

/-- The star that was held back is written into the gap. -/
theorem set_star (w : List Char) (a : Char) (g x : List Char) :
    (w ++ (a :: g ++ x)).set w.length '*' = (w ++ ['*']) ++ (g ++ x) := by
  rw [List.set_append_right _ _ le_rfl, Nat.sub_self]
  simp

/-- Where the memory has been left when the text `t` has been written into it. -/
def Deja (w g r t after final : List Char) : Prop :=
  ∃ basura, final = w ++ t ++ nul :: (basura ++ after) ∧
    basura.length + t.length = g.length + r.length

theorem Deja.cons {t final : List Char} (h : Deja (w ++ [c]) (g ++ [c]).tail r t after final) :
    Deja w g (c :: r) (c :: t) after final := by
  obtain ⟨basura, hfinal, hlen⟩ := h
  refine ⟨basura, by rw [hfinal]; simp, ?_⟩
  rw [length_tail_append] at hlen
  simp only [List.length_cons]
  omega

/-! ## What the loops leave -/

theorem byte_set_of_eq {mem : List Char} {i : Nat} (h : byte mem i = c) (b : Nat) :
    byte (mem.set b c) i = c := by
  rw [byte, List.getD_eq_getElem?_getD, List.getElem?_set]
  split
  · next hb =>
      by_cases hlt : b < mem.length
      · rw [if_pos hlt]
        rfl
      · subst hb
        rw [if_neg hlt, ← h, byte, List.getD_eq_default _ _ (not_lt.mp hlt)]
        rfl
  · rwa [← List.getD_eq_getElem?_getD]

theorem byte_set_of_lt {mem : List Char} {b i : Nat} (h : b < i) (c : Char) :
    byte (mem.set b c) i = byte mem i := by
  rw [byte, List.getD_eq_getElem?_getD, List.getElem?_set_ne h.ne, ← List.getD_eq_getElem?_getD]
  rfl

/-- A star that was held back is written before what is no wildcard. -/
theorem desplaza_true {fuel : Nat} {a : Char} {x : List Char} (hstar : c ≠ '*') (hquest : c ≠ '?') :
    desplaza (fuel + 1) (w ++ (a :: g ++ c :: x)) (w.length + (a :: g).length) w.length true =
      desplaza (fuel + 1) ((w ++ ['*']) ++ (g ++ c :: x)) ((w ++ ['*']).length + g.length)
        (w ++ ['*']).length false := by
  have hpos : w.length + (a :: g).length = (w ++ ['*']).length + g.length := by
    simp only [List.length_cons, List.length_append, List.length_nil]
    omega
  have hc := byte_cons w (a :: g) c x
  have hc' := byte_cons (w ++ ['*']) g c x
  rw [hpos] at hc
  rw [hpos]
  unfold desplaza
  simp only [hc, hc', if_neg hstar, bne_iff_ne.mpr hquest, Bool.and_self, if_true, set_star,
    Bool.not_true, Bool.and_false, Bool.false_and, Bool.false_eq_true, if_false]
  simp only [List.length_append, List.length_singleton]

/-- A character that is neither a star nor a terminator nor an escape is moved. -/
theorem desplaza_cons {fuel : Nat} {star : Bool} {x : List Char} (hstar : c ≠ '*')
    (hquest : star = true → c = '?') (hnul : c ≠ nul) (hesc : c = '\\' → isWild (peek x) = false) :
    desplaza (fuel + 1) (w ++ (g ++ c :: x)) (w.length + g.length) w.length star =
      desplaza fuel ((w ++ [c]) ++ ((g ++ [c]).tail ++ x))
        ((w ++ [c]).length + (g ++ [c]).tail.length) (w ++ [c]).length star := by
  have hc := byte_cons w g c x
  have hespera : (star && c != '?') = false := by
    cases star with
    | false => rfl
    | true => rw [hquest rfl]; rfl
  have hnext : byte (w ++ (g ++ c :: x)) (w.length + g.length + 1) = peek x := by
    rw [Nat.add_assoc, byte_append, byte_append]
    cases x <;> rfl
  have hno : ¬(c = '\\' ∧ isWild (peek x) = true) := fun h ↦ by
    rw [hesc h.1] at h
    exact absurd h.2 Bool.false_ne_true
  conv_lhs => unfold desplaza
  simp only [hc, if_neg hstar, hespera, Bool.false_eq_true, if_false, Bool.not_false, Bool.and_true,
    byte_set_of_eq hc, byte_set_of_lt (show w.length < w.length + g.length + 1 by omega), hnext,
    if_neg hno, if_neg hnul]
  rw [set_cons, length_tail_append, List.length_append, List.length_singleton,
    show w.length + g.length + 1 = w.length + 1 + g.length by omega]

/-- An escaped wildcard is moved with its backslash. -/
theorem desplaza_escape {fuel : Nat} {x : List Char} (hwild : isWild c = true) :
    desplaza (fuel + 1) (w ++ (g ++ '\\' :: c :: x)) (w.length + g.length) w.length false =
      desplaza fuel (((w ++ ['\\']) ++ [c]) ++ (((g ++ ['\\']).tail ++ [c]).tail ++ x))
        (((w ++ ['\\']) ++ [c]).length + ((g ++ ['\\']).tail ++ [c]).tail.length)
        ((w ++ ['\\']) ++ [c]).length false := by
  have hc := byte_cons w g '\\' (c :: x)
  have hnext : byte (w ++ (g ++ '\\' :: c :: x)) (w.length + g.length + 1) = c := by
    rw [Nat.add_assoc, byte_append, byte_append]
    rfl
  have hset := set_cons (w ++ ['\\']) (g ++ ['\\']).tail c x
  rw [List.length_append, List.length_singleton] at hset
  conv_lhs => unfold desplaza
  simp only [hc, Bool.false_and, Bool.false_eq_true, if_false, Bool.not_false, Bool.and_true,
    byte_set_of_eq hc, byte_set_of_lt (show w.length < w.length + g.length + 1 by omega), hnext,
    hwild, and_self, if_true, show ('\\' : Char) ≠ '*' by decide]
  rw [set_cons, hset, length_tail_append, length_tail_append, List.length_append, List.length_append,
    List.length_singleton, List.length_singleton,
    show w.length + g.length + 2 = w.length + 1 + 1 + g.length by omega]

/-- The terminator ends the loop. -/
theorem desplaza_nul (fuel : Nat) : Deja w g [] [] after
    (desplaza (fuel + 1) (w ++ (g ++ nul :: after)) (w.length + g.length) w.length false) := by
  have hc := byte_cons w g nul after
  have heq : desplaza (fuel + 1) (w ++ (g ++ nul :: after)) (w.length + g.length) w.length false =
      (w ++ [nul]) ++ ((g ++ [nul]).tail ++ after) := by
    conv_lhs => unfold desplaza
    simp only [hc, Bool.false_and, Bool.false_eq_true, if_false, byte_set_of_eq hc,
      show ¬nul = '*' by decide, show ¬nul = '\\' by decide, false_and, if_true]
    rw [set_cons]
  exact ⟨(g ++ [nul]).tail, by simp [heq], by simp⟩

theorem Deja.star {a : Char} {t final : List Char} (h : Deja (w ++ ['*']) g r t after final) :
    Deja w (a :: g) r ('*' :: t) after final := by
  obtain ⟨basura, hfinal, hlen⟩ := h
  refine ⟨basura, by rw [hfinal]; simp, ?_⟩
  simp only [List.length_cons]
  omega

/-- The inner loop leaves the collapsed mask. -/
theorem desplaza_spec {fuel : Nat} {star : Bool} (hr : nul ∉ r) (hgap : star = true → g ≠ [])
    (hfuel : r.length < fuel) :
    Deja w g r (collapseFrom star r) after
      (desplaza fuel (w ++ (g ++ (r ++ nul :: after))) (w.length + g.length) w.length star) := by
  induction r using mask_induction generalizing fuel star w g with
  | nil =>
      obtain ⟨fuel, rfl⟩ := Nat.exists_eq_succ_of_ne_zero hfuel.ne'
      cases star with
      | false => exact desplaza_nul fuel
      | true =>
          obtain ⟨a, g, rfl⟩ := List.exists_cons_of_ne_nil (hgap rfl)
          rw [List.nil_append, desplaza_true (by decide) (by decide)]
          exact (desplaza_nul fuel).star
  | star m ih =>
      obtain ⟨fuel, rfl⟩ := Nat.exists_eq_succ_of_ne_zero (Nat.zero_lt_of_lt hfuel).ne'
      have hc := byte_cons w g '*' (m ++ nul :: after)
      have hgap' : true = true → g ++ ['*'] ≠ [] := fun _ ↦ by simp
      have hrec := ih (w := w) (fun h ↦ hr (List.mem_cons_of_mem _ h)) hgap'
        (Nat.lt_of_succ_lt_succ hfuel)
      rw [List.cons_append, show collapseFrom star ('*' :: m) = collapseFrom true m from rfl]
      unfold desplaza
      rw [if_pos hc]
      simpa [Nat.add_assoc, Nat.add_comm 1, Deja] using hrec
  | quest m ih =>
      obtain ⟨fuel, rfl⟩ := Nat.exists_eq_succ_of_ne_zero (Nat.zero_lt_of_lt hfuel).ne'
      have hgap' : star = true → (g ++ ['?']).tail ≠ [] := fun h ↦ by
        obtain ⟨a, g, rfl⟩ := List.exists_cons_of_ne_nil (hgap h)
        simp
      rw [List.cons_append, desplaza_cons (by decide) (fun _ ↦ rfl) (by decide)
        fun h ↦ absurd h (by decide)]
      exact (ih (fun h ↦ hr (List.mem_cons_of_mem _ h)) hgap' (Nat.lt_of_succ_lt_succ hfuel)).cons
  | lit m c r hlit ih =>
      obtain ⟨fuel, rfl⟩ := Nat.exists_eq_succ_of_ne_zero (Nat.zero_lt_of_lt hfuel).ne'
      have hfalse : ∀ w g, Deja w g m (collapseFrom false m) after (desplaza (fuel + 1)
          (w ++ (g ++ (m ++ nul :: after))) (w.length + g.length) w.length false) := by
        intro w g
        cases hlit with
        | escape hc =>
            have hfuel' : r.length < fuel := by
              simp only [List.length_cons] at hfuel
              omega
            rw [List.cons_append, List.cons_append, desplaza_escape hc, collapseFrom, if_pos hc]
            exact (ih (fun h ↦ hr (by simp [h])) (fun h ↦ by cases h) hfuel').cons.cons
        | plain hc hesc =>
            have hwild : c ≠ '*' ∧ c ≠ '?' := by simpa [isWild] using hc
            have hpeek : c = '\\' → isWild (peek (r ++ nul :: after)) = false := fun h ↦ by
              cases r with
              | nil => rfl
              | cons d r => exact hesc h d rfl
            rw [List.cons_append, desplaza_cons hwild.1 (fun h ↦ by cases h)
              (fun h ↦ hr (by simp [h])) hpeek, collapseFrom_plain hc hesc]
            exact (ih (fun h ↦ hr (by simp [h])) (fun h ↦ by cases h)
              (Nat.lt_of_succ_lt_succ hfuel)).cons
      cases star with
      | false => exact hfalse w g
      | true =>
          obtain ⟨a, g, rfl⟩ := List.exists_cons_of_ne_nil (hgap rfl)
          rw [hlit.collapseFrom_true]
          have hlit' := hfalse (w ++ ['*']) g
          cases hlit with
          | escape hc =>
              show Deja _ _ _ _ after (desplaza (fuel + 1)
                (w ++ (a :: g ++ '\\' :: (c :: r ++ nul :: after))) _ _ true)
              rw [desplaza_true (by decide) (by decide)]
              exact hlit'.star
          | plain hc hesc =>
              have hwild : c ≠ '*' ∧ c ≠ '?' := by simpa [isWild] using hc
              show Deja _ _ _ _ after (desplaza (fuel + 1)
                (w ++ (a :: g ++ c :: (r ++ nul :: after))) _ _ true)
              rw [desplaza_true hwild.1 hwild.2]
              exact hlit'.star

theorem byte_here (w x : List Char) : byte (w ++ x) w.length = peek x := by
  have h := byte_append w x 0
  cases x <;> exact h

theorem byte_next (w : List Char) (c : Char) (x : List Char) :
    byte (w ++ c :: x) (w.length + 1) = peek x := by
  have h := byte_append w (c :: x) 1
  cases x <;> exact h

/-- The outer loop, behind a part that needs no change. -/
theorem collapseDesde_spec {fuel : Nat} (hr : nul ∉ r) (hfuel : r.length < fuel) :
    Deja w [] r (collapse r) after
      (collapseDesde fuel (w ++ (r ++ nul :: after)) w.length) := by
  induction fuel generalizing w r with
  | zero => exact absurd hfuel (Nat.not_lt_zero _)
  | succ fuel ih =>
      -- a character that stays where it is
      have hstay : ∀ (c : Char) (x : CStr), nul ∉ x → c ≠ nul → x.length < fuel →
          ¬(c = '*' ∧ isWild (peek (x ++ nul :: after)) = true) →
          ¬(c = '\\' ∧ isWild (peek (x ++ nul :: after)) = true) →
          Deja w [] (c :: x) (c :: collapse x) after
            (collapseDesde (fuel + 1) (w ++ (c :: x ++ nul :: after)) w.length) := by
        intro c x hx hc hlt hstar hesc
        have hrec := ih (w := w ++ [c]) hx hlt
        rw [List.append_assoc, List.length_append, List.length_singleton] at hrec
        unfold collapseDesde
        simp only [List.cons_append, byte_here, byte_next, peek_cons, if_neg hstar, if_neg hesc,
          if_neg hc]
        exact hrec.cons
      fun_cases collapse r with
      | case1 =>
          refine ⟨[], ?_, rfl⟩
          unfold collapseDesde
          simp [byte_here, peek_cons, show ¬nul = '*' by decide, show ¬nul = '\\' by decide]
      | case2 c m hc =>
          unfold collapseDesde
          rw [if_pos (by simpa [byte_here, byte_next, peek_cons] using hc)]
          have hgap : false = true → ([] : List Char) ≠ [] := fun h ↦ absurd h Bool.false_ne_true
          exact desplaza_spec hr hgap (by simp; omega)
      | case3 c m hc =>
          exact hstay '*' (c :: m) (fun h ↦ hr (List.mem_cons_of_mem _ h)) (by decide)
            (Nat.lt_of_succ_lt_succ hfuel) (fun h ↦ hc h.2) fun h ↦ absurd h.1 (by decide)
      | case4 c m hc =>
          have hnul : c ≠ nul := fun h ↦ hr (by simp [h])
          have hrec := ih (w := w ++ ['\\', c]) (r := m) (fun h ↦ hr (by simp [h]))
            (by simp only [List.length_cons] at hfuel; omega)
          have hnext : byte (w ++ '\\' :: c :: (m ++ nul :: after)) (w.length + 1) = c :=
            byte_next w '\\' _
          rw [List.append_assoc, List.length_append] at hrec
          unfold collapseDesde
          simp only [List.cons_append, byte_here, hnext, peek_cons, hc, and_true,
            show ('\\' : Char) ≠ '*' by decide, if_true, if_neg hnul]
          obtain ⟨basura, hfinal, hlen⟩ := hrec
          refine ⟨basura, by simpa using hfinal, ?_⟩
          simp only [List.length_cons]
          omega
      | case5 c m hc =>
          exact hstay '\\' (c :: m) (fun h ↦ hr (List.mem_cons_of_mem _ h)) (by decide)
            (Nat.lt_of_succ_lt_succ hfuel) (fun h ↦ absurd h.1 (by decide)) fun h ↦ hc h.2
      | case6 c m h₁ h₂ =>
          have hend : ∀ d, (∀ e x, d :: e :: x ≠ c :: m) →
              ¬(c = d ∧ isWild (peek (m ++ nul :: after)) = true) := fun d hd h ↦ by
              cases m with
              | nil => exact absurd (show isWild nul = true from h.2) (by decide)
              | cons e x => exact hd e x (by rw [h.1])
          refine hstay c m (fun h ↦ hr (List.mem_cons_of_mem _ h)) (fun h ↦ hr (by simp [h]))
            (Nat.lt_of_succ_lt_succ hfuel) (hend '*' fun e x h ↦ ?_) (hend '\\' fun e x h ↦ ?_)
          · obtain ⟨rfl, rfl⟩ := List.cons.inj h
            exact h₁ e x rfl rfl
          · obtain ⟨rfl, rfl⟩ := List.cons.inj h
            exact h₂ e x rfl rfl

/-- `collapse` in the memory of a mask: the text that is left, and the bytes behind it. -/
theorem collapseEn_spec (hm : nul ∉ m) : ∃ basura,
    collapseEn (memory m after) = memory (collapse m) (basura ++ after) ∧
      basura.length + (collapse m).length = m.length := by
  have hfuel : m.length < (memory m after).length + 1 := by
    simp only [memory, List.length_append, List.length_cons]
    omega
  have h : Deja [] [] m (collapse m) after (collapseEn (memory m after)) :=
    collapseDesde_spec hm hfuel
  obtain ⟨basura, hfinal, hlen⟩ := h
  refine ⟨basura, hfinal, by simpa using hlen⟩

/-! ## What a collapsed mask means -/

/-- No star stands before another wildcard. -/
def Reducida (t : List (Token Char)) : Prop :=
  t.IsChain fun x y ↦ x = .star → ∃ c, y = .lit c

variable {f : Char → Char}

/-- A collapsed part has the language of the part, with the star that was held back. -/
theorem mem_collapseFrom (m : CStr) (star : Bool) (s : List Char) :
    s ∈ lang f (tokens (collapseFrom star m)) ↔
      s ∈ lang f ((if star then [.star] else []) ++ tokens m) := by
  induction m using mask_induction generalizing star s with
  | nil => cases star <;> rfl
  | star m ih =>
      rw [show tokens ('*' :: m) = .star :: tokens m from rfl]
      refine (ih true s).trans ?_
      cases star with
      | false => rfl
      | true => exact mem_star_star.symm
  | quest m ih =>
      have hone : s ∈ lang f (tokens ('?' :: collapseFrom star m)) ↔
          s ∈ lang f ([.one] ++ ((if star then [.star] else []) ++ tokens m)) :=
        mem_append_congr (p := [Token.one]) fun z ↦ ih star z
      refine hone.trans ?_
      cases star with
      | false => rfl
      | true => exact mem_star_one.symm
  | lit m c r hlit ih =>
      have hfalse : ∀ z, z ∈ lang f (tokens (collapseFrom false m)) ↔ z ∈ lang f (tokens m) := by
        intro z
        rw [hlit.tokens_eq, hlit.collapseFrom.tokens_eq]
        exact mem_append_congr (p := [Token.lit c]) fun z ↦ ih false z
      cases star with
      | false => exact hfalse s
      | true =>
          rw [hlit.collapseFrom_true]
          exact mem_append_congr (p := [Token.star]) hfalse

/-- A literal stands behind a star that is written out. -/
theorem reducida_collapseFrom (m : CStr) (star : Bool) :
    Reducida (tokens (collapseFrom star m)) := by
  induction m using mask_induction generalizing star with
  | nil => cases star <;> simp [collapseFrom, tokens, Reducida]
  | star m ih => exact ih true
  | quest m ih =>
      exact List.isChain_cons.mpr ⟨fun _ _ h ↦ (by cases h), ih star⟩
  | lit m c r hlit ih =>
      have hfalse : tokens (collapseFrom false m) = .lit c :: tokens (collapseFrom false r) :=
        hlit.collapseFrom.tokens_eq
      have hred : Reducida (tokens (collapseFrom false m)) := by
        rw [hfalse]
        exact List.isChain_cons.mpr ⟨fun _ _ h ↦ (by cases h), ih false⟩
      cases star with
      | false => exact hred
      | true =>
          rw [hlit.collapseFrom_true]
          refine List.isChain_cons.mpr ⟨fun y hy _ ↦ ?_, hred⟩
          rw [hfalse] at hy
          exact ⟨c, (Option.some.inj hy).symm⟩

/-- Collapsing writes no more than it reads, but for the star that was held back. -/
theorem length_collapseFrom (m : CStr) (star : Bool) :
    (collapseFrom star m).length ≤ m.length + if star then 1 else 0 := by
  induction m using mask_induction generalizing star with
  | nil => cases star <;> simp [collapseFrom]
  | star m ih =>
      have h := ih true
      rw [if_pos rfl] at h
      exact h.trans (by simp)
  | quest m ih =>
      have h := ih star
      show (collapseFrom star m).length + 1 ≤ m.length + 1 + _
      omega
  | lit m c r hlit ih =>
      have h := ih false
      rw [if_neg Bool.false_ne_true, Nat.add_zero] at h
      have hfalse : (collapseFrom false m).length ≤ m.length := by
        cases hlit with
        | escape hc =>
            rw [collapseFrom, if_pos hc]
            exact Nat.succ_le_succ (Nat.succ_le_succ h)
        | plain hc hesc =>
            rw [collapseFrom_plain hc hesc]
            exact Nat.succ_le_succ h
      cases star with
      | false => simpa using hfalse
      | true =>
          rw [hlit.collapseFrom_true]
          exact Nat.succ_le_succ hfalse

end Match

open Match in
/-- Collapsing a mask keeps its language and what `match` and `match_case` say of any string, makes
it no longer, changes nothing the second time, and leaves no star before another wildcard. In the
memory of the mask the result is the same text. -/
theorem collapse_sentido (m : CStr) (hm : nul ∉ m) (after : List Char) :
    (∀ (f : Char → Char) (s : List Char),
      s ∈ lang f (tokens (collapse m)) ↔ s ∈ lang f (tokens m)) ∧
    (∀ s : List Char, ircMatch (collapse m) s = ircMatch m s ∧
      matchCase (collapse m) s = matchCase m s) ∧
    (collapse m).length ≤ m.length ∧ collapse (collapse m) = collapse m ∧
    Reducida (tokens (collapse m)) ∧
    ∃ basura, collapseEn (memory m after) = memory (collapse m) (basura ++ after) ∧
      basura.length + (collapse m).length = m.length := by
  refine ⟨fun f s ↦ ?_, fun s ↦ ⟨ircMatch_collapse m s, matchCase_collapse m s⟩, ?_, ?_, ?_,
    collapseEn_spec hm⟩
  · rw [collapse_eq]
    exact mem_collapseFrom m false s
  · rw [collapse_eq]
    exact length_collapseFrom m false
  · rw [collapse_eq, collapse_eq, collapseFrom_collapseFrom]
  · rw [collapse_eq]
    exact reducida_collapseFrom m false

/-- Runs of stars and question marks around an escaped star. -/
theorem collapse_sentido_estrellas :
    Match.Reducida (Match.tokens (collapse "a*?*\\**?".toList)) :=
  (collapse_sentido "a*?*\\**?".toList (by decide) []).2.2.2.2.1

example : Match.collapseEn (Match.memory "a*?*\\**?".toList ['x']) =
    Match.memory "a?*\\*?*".toList [nul, 'x'] := by decide +kernel

end Ircd
