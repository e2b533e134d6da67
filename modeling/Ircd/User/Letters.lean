import Ircd.User.Umode

/-!
# The letters of a request

`m_umode` reads a request letter by letter: `leeUmodes_eq` turns its two loops into one fold over
the letters, each with the parameter that follows. What the letters of `user_hmodes` ask for is the
sign that the letter is read under last (`has_lee_hmodes`).
-/

namespace Ircd.User

open CString Flags

/-! ## All but the modes stays -/

/-- All but the modes of a client stays. -/
structure Mismo (x y : Cliente) : Prop where
  name : y.name = x.name
  myConnect : y.myConnect = x.myConnect
  isUser : y.isUser = x.isUser
  privs : y.privs = x.privs

theorem Mismo.refl (x : Cliente) : Mismo x x :=
  ⟨rfl, rfl, rfl, rfl⟩

theorem Mismo.trans {x y z : Cliente} (h : Mismo x y) (h' : Mismo y z) : Mismo x z :=
  ⟨h'.name.trans h.name, h'.myConnect.trans h.myConnect, h'.isUser.trans h.isUser,
    h'.privs.trans h.privs⟩

/-- A local user stays one. -/
theorem Mismo.myUser {x y : Cliente} (h : Mismo x y) : y.myUser = x.myUser := by
  rw [Cliente.myUser, Cliente.myUser, h.myConnect, h.isUser]

/-! ## The letters in order -/

/-- A letter with the parameter that follows the one it stands in. -/
abbrev Letra : Type := Char × Option CStr

/-- The letters of a parameter, and the parameters that are left behind it. -/
def letrasPalabra : CStr → List CStr → List CStr × List Letra
  | [], p => (p, [])
  | c :: m, p =>
      let (q, xs) := letrasPalabra m (tras c p)
      (q, (c, p.head?) :: xs)

/-- The letters of a request. -/
def letrasUmodes : Nat → List CStr → List Letra
  | 0, _ => []
  | _ + 1, [] => []
  | fuel + 1, m :: p =>
      let (q, xs) := letrasPalabra m p
      xs ++ letrasUmodes fuel q

namespace Lectura

variable {l : Lectura}

/-- A letter of a request is read. -/
def lee (l : Lectura) (x : Letra) : Lectura :=
  l.letra x.1 x.2

end Lectura

theorem leePalabra_eq (m : CStr) (p : List CStr) (l : Lectura) : leePalabra m p l =
    ((letrasPalabra m p).1, (letrasPalabra m p).2.foldl Lectura.lee l) := by
  induction m generalizing p l with
  | nil => rfl
  | cons c m ih => exact ih _ _

/-- Reading a request is reading its letters. -/
theorem leeUmodes_eq (fuel : Nat) (p : List CStr) (l : Lectura) :
    leeUmodes fuel p l = (letrasUmodes fuel p).foldl Lectura.lee l := by
  induction fuel generalizing p l with
  | zero => rfl
  | succ fuel ih =>
      cases p with
      | nil => rfl
      | cons m p => rw [leeUmodes, letrasUmodes, leePalabra_eq, List.foldl_append, ← ih]

/-! ## What a letter changes -/

variable {l : Lectura} {c : Char} {sigue : Option CStr}

/-- The mask of the letter `s` is no mode. -/
theorem mascara_eq : (l.mascara sigue).what = l.what ∧ (l.mascara sigue).sptr = l.sptr := by
  unfold Lectura.mascara
  split <;> exact ⟨rfl, rfl⟩

/-- The letter `s` writes its flag. -/
theorem servnotice_eq : (l.servnotice sigue).what = l.what ∧ ∃ b : Bool,
    (l.servnotice sigue).sptr = { l.sptr with flags := put b FLAGS_SERVNOTICE l.sptr.flags } := by
  obtain ⟨hwhat, hsptr⟩ :=
    (mascara_eq : (l.mascara sigue).what = l.what ∧ (l.mascara sigue).sptr = l.sptr)
  refine ⟨hwhat, decide ((l.mascara sigue).tmpmask ≠ 0#32), ?_⟩
  rw [Lectura.servnotice, hsptr]
  by_cases hmask : (l.mascara sigue).tmpmask ≠ 0#32
  · rw [decide_eq_true hmask, if_pos hmask]
    rfl
  · rw [decide_eq_false hmask, if_neg hmask]
    rfl

/-- A letter of the first table writes the first word only. -/
theorem modo_of_userModes {a : BitVec 32 × Char}
    (ha : userModes.find? (fun flag ↦ flag.2 = c) = some a) : (l.modo c).what = l.what ∧
      (l.modo c).sptr = { l.sptr with
        flags :=
          if l.what then l.sptr.flags ||| a.1
          else if has a.1 (FLAGS_OPER ||| FLAGS_LOCOP) then
            l.sptr.flags &&& ~~~(FLAGS_OPER ||| FLAGS_LOCOP)
          else l.sptr.flags &&& ~~~a.1 } := by
  unfold Lectura.modo
  rw [ha]
  dsimp only
  split
  · exact ⟨rfl, rfl⟩
  · split
    · split
      · exact ⟨rfl, Cliente.clearOperCmd_eq _⟩
      · exact ⟨rfl, rfl⟩
    · exact ⟨rfl, rfl⟩

/-- A letter of the second table writes the second word only. -/
theorem modo_of_userHmodes {a : BitVec 32 × Char}
    (hno : userModes.find? (fun flag ↦ flag.2 = c) = none)
    (ha : userHmodes.find? (fun flag ↦ flag.2 = c) = some a) : (l.modo c).what = l.what ∧
      (l.modo c).sptr = { l.sptr with hmodes := put l.what a.1 l.sptr.hmodes } := by
  unfold Lectura.modo
  rw [hno, ha]
  dsimp only
  cases l.what with
  | false => exact ⟨rfl, rfl⟩
  | true => exact ⟨rfl, rfl⟩

/-- An unknown letter changes no mode. -/
theorem modo_of_none (hno : userModes.find? (fun flag ↦ flag.2 = c) = none)
    (hno' : userHmodes.find? (fun flag ↦ flag.2 = c) = none) :
    (l.modo c).what = l.what ∧ (l.modo c).sptr = l.sptr := by
  unfold Lectura.modo
  rw [hno, hno']
  dsimp only
  split <;> exact ⟨rfl, rfl⟩

/-- A letter of the tables changes the modes only. -/
theorem mismo_modo : Mismo l.sptr (l.modo c).sptr := by
  cases hfind : userModes.find? fun flag ↦ flag.2 = c with
  | some a =>
      rw [(modo_of_userModes hfind).2]
      exact ⟨rfl, rfl, rfl, rfl⟩
  | none =>
      cases hfind' : userHmodes.find? fun flag ↦ flag.2 = c with
      | some a =>
          rw [(modo_of_userHmodes hfind hfind').2]
          exact ⟨rfl, rfl, rfl, rfl⟩
      | none =>
          rw [(modo_of_none hfind hfind').2]
          exact .refl _

/-- A letter changes the modes only. -/
theorem mismo_letra : Mismo l.sptr (l.letra c sigue).sptr := by
  unfold Lectura.letra
  split
  · exact .refl _
  · exact .refl _
  · obtain ⟨-, b, heq⟩ := @servnotice_eq l sigue
    rw [heq]
    exact ⟨rfl, rfl, rfl, rfl⟩
  · exact .refl _
  · exact .refl _
  · exact .refl _
  · exact .refl _
  · exact mismo_modo

/-- A letter of the tables leaves the sign as it is. -/
theorem what_modo : (l.modo c).what = l.what := by
  cases hfind : userModes.find? fun flag ↦ flag.2 = c with
  | some a => exact (modo_of_userModes hfind).1
  | none =>
      cases hfind' : userHmodes.find? fun flag ↦ flag.2 = c with
      | some a => exact (modo_of_userHmodes hfind hfind').1
      | none => exact (modo_of_none hfind hfind').1

/-- The sign that a letter leaves. -/
theorem what_letra :
    (l.letra c sigue).what = if c = '+' then true else if c = '-' then false else l.what := by
  unfold Lectura.letra
  split
  · rfl
  · rfl
  · exact servnotice_eq.1
  · rfl
  · rfl
  · rfl
  · rfl
  · next hplus hminus _ _ _ _ _ => rw [if_neg hplus, if_neg hminus, what_modo]

/-- A request changes the modes only. -/
theorem mismo_lee (p : List CStr) (sptr : Cliente) : Mismo sptr (sptr.lee p).sptr := by
  rw [Cliente.lee, leeUmodes_eq]
  generalize letrasUmodes p.length p = xs
  have hfold : ∀ l : Lectura, Mismo l.sptr (xs.foldl Lectura.lee l).sptr := by
    induction xs with
    | nil => exact fun l ↦ .refl _
    | cons x xs ih => exact fun l ↦ mismo_letra.trans (ih _)
  exact hfold ⟨sptr, _, _, _, _⟩

/-! ## What is asked for -/

/-- What the letters ask for a mode: the sign that it is read under last, `on` if it is not read. -/
def pedido (letra : Char) (what on : Bool) : List Letra → Bool
  | [] => on
  | (c, _) :: xs =>
      if c = '+' then pedido letra true on xs
      else if c = '-' then pedido letra false on xs
      else if c = letra then pedido letra what what xs
      else pedido letra what on xs

/-- The letters of the second table are read as letters of this table. -/
theorem libre_userHmodes : ∀ a ∈ userHmodes,
    userModes.find? (fun flag ↦ flag.2 = a.2) = none ∧
      a.2 ∉ ['+', '-', 's', ' ', '\n', '\r', '\t'] := by
  decide +kernel

/-- What a letter does to a mode of the second word. -/
theorem has_letra_hmodes {a : BitVec 32 × Char} (ha : a ∈ userHmodes) :
    has (l.letra c sigue).sptr.hmodes a.1 =
      if c = a.2 then l.what else has l.sptr.hmodes a.1 := by
  obtain ⟨hno, hspecial⟩ := libre_userHmodes a ha
  simp only [List.mem_cons, List.not_mem_nil, or_false, not_or] at hspecial
  unfold Lectura.letra
  split
  · rw [if_neg (Ne.symm hspecial.1)]
  · rw [if_neg (Ne.symm hspecial.2.1)]
  · obtain ⟨-, b, heq⟩ := @servnotice_eq l sigue
    rw [if_neg (Ne.symm hspecial.2.2.1), heq]
  · rw [if_neg (Ne.symm hspecial.2.2.2.1)]
  · rw [if_neg (Ne.symm hspecial.2.2.2.2.1)]
  · rw [if_neg (Ne.symm hspecial.2.2.2.2.2.1)]
  · rw [if_neg (Ne.symm hspecial.2.2.2.2.2.2)]
  · by_cases hc : c = a.2
    · subst hc
      rw [(modo_of_userHmodes hno (separa_userHmodes.find? ha)).2, if_pos rfl]
      exact has_put_self (separa_userHmodes.ne_zero a ha) _
    · rw [if_neg hc]
      cases hfind : userModes.find? fun flag ↦ flag.2 = c with
      | some b => rw [(modo_of_userModes hfind).2]
      | none =>
          cases hfind' : userHmodes.find? fun flag ↦ flag.2 = c with
          | some b =>
              have hb := List.mem_of_find?_eq_some hfind'
              have hletra : b.2 = c := by simpa using List.find?_some hfind'
              have hne : a ≠ b := by
                rintro rfl
                exact hc hletra.symm
              rw [(modo_of_userHmodes hfind hfind').2]
              exact has_put_of_disjoint (separa_userHmodes.disjoint a ha b hb hne) _
          | none => rw [(modo_of_none hfind hfind').2]

/-- What a request asks for a mode of the second word. -/
theorem has_foldl_hmodes {a : BitVec 32 × Char} (ha : a ∈ userHmodes) (xs : List Letra)
    (l : Lectura) : has (xs.foldl Lectura.lee l).sptr.hmodes a.1 =
      pedido a.2 l.what (has l.sptr.hmodes a.1) xs := by
  induction xs generalizing l with
  | nil => rfl
  | cons x xs ih =>
      obtain ⟨c, sigue⟩ := x
      obtain ⟨-, hspecial⟩ := libre_userHmodes a ha
      simp only [List.mem_cons, List.not_mem_nil, or_false, not_or] at hspecial
      rw [List.foldl_cons, ih, pedido, Lectura.lee, what_letra, has_letra_hmodes ha]
      by_cases hplus : c = '+'
      · rw [if_pos hplus, if_pos hplus, if_neg fun h ↦ hspecial.1 (h.symm.trans hplus)]
      · rw [if_neg hplus, if_neg hplus]
        by_cases hminus : c = '-'
        · rw [if_pos hminus, if_pos hminus, if_neg fun h ↦ hspecial.2.1 (h.symm.trans hminus)]
        · rw [if_neg hminus, if_neg hminus]
          split <;> rfl

/-- The letters of a request and what they ask for a mode. -/
def pide (letra : Char) (on : Bool) (p : List CStr) : Bool :=
  pedido letra true on (letrasUmodes p.length p)

/-- What a mode of the second word is after a request has been read. -/
theorem has_lee_hmodes {a : BitVec 32 × Char} (ha : a ∈ userHmodes) (p : List CStr)
    (sptr : Cliente) :
    has (sptr.lee p).sptr.hmodes a.1 = pide a.2 (has sptr.hmodes a.1) p := by
  rw [Cliente.lee, leeUmodes_eq, has_foldl_hmodes ha, pide]

end Ircd.User
