import Ircd.Conf.Rehash

/-!
# Host names

The loop of `attach_Iline` in `ircd/s_conf.c` that looks at a resolved name before it is compared
with the masks of the configuration. It looks at the end of a label when it comes to a dot, so that
the end of the last label is not looked at, and a label without characters has no end to look at.
The main result, `nombreValido_iff`, tells exactly on which names the loop follows its rule.
-/

namespace Ircd.Conf

open CString

/-! ## The loop -/

/-- A letter or a hyphen. -/
def esLetra (c : Char) : Bool :=
  ('a' ≤ c ∧ c ≤ 'z') ∨ ('A' ≤ c ∧ c ≤ 'Z') ∨ c = '-'

/-- A digit. -/
def esCifra (c : Char) : Bool :=
  '0' ≤ c ∧ c ≤ '9'

/-- The loop, with the character before the rest of the name, `label_count` and `error`. The result
is `error` at the end, and `none` when the loop looks before the name. -/
def revisaNombre : Option Char → Nat → Bool → CStr → Option Bool
  | _, _, error, [] => some error
  | previo, labelCount, error, c :: resto =>
      if c = '.' then do
        let p ← previo
        if p = '-' ∨ resto = [] then some true else revisaNombre (some c) 0 false resto
      else if labelCount + 1 > 63 then some true
      else if esCifra c then revisaNombre (some c) (labelCount + 1) true resto
      else if esLetra c then revisaNombre (some c) (labelCount + 1) error resto
      else some true

/-- The check of a resolved name: whether it is let through. -/
def nombreValido (hname : CStr) : Option Bool :=
  if hname.head? = some '.' then some false
  else (revisaNombre none 0 false (hname.take HOSTLEN)).map (!·)

/-! ## The rule -/

/-- The labels of a name. -/
def etiquetas (name : CStr) : List CStr :=
  name.splitOn '.'

/-- The rule: labels that are separated by single dots. -/
structure Norma (name : CStr) : Prop where
  vacia : ∀ l ∈ etiquetas name, l ≠ []
  larga : ∀ l ∈ etiquetas name, l.length ≤ 63
  letras : ∀ l ∈ etiquetas name, ∀ c ∈ l, (esLetra c || esCifra c) = true
  guion : ∀ l ∈ etiquetas name, l.getLast? ≠ some '-'
  dominio : ∀ l, (etiquetas name).getLast? = some l → ∀ c ∈ l, esCifra c = false

/-- What the loop looks at: a label may be empty, but not at one of the ends of the name, and the
last label may end on a hyphen. -/
structure Laxa (name : CStr) : Prop where
  inicio : 1 < (etiquetas name).length → (etiquetas name).head? ≠ some []
  fin : 1 < (etiquetas name).length → (etiquetas name).getLast? ≠ some []
  larga : ∀ l ∈ etiquetas name, l.length ≤ 63
  letras : ∀ l ∈ etiquetas name, ∀ c ∈ l, (esLetra c || esCifra c) = true
  guion : ∀ l ∈ (etiquetas name).dropLast, l.getLast? ≠ some '-'
  dominio : ∀ l, (etiquetas name).getLast? = some l → ∀ c ∈ l, esCifra c = false

/-- The loop follows the rule: the name breaks a part of it that the loop looks at, or it has no
empty label and no hyphen at its end. -/
def SigueNorma (name : CStr) : Prop :=
  Laxa name → (∀ l ∈ etiquetas name, l ≠ []) ∧ name.getLast? ≠ some '-'

/-! ## Labels -/

theorem etiquetas_ultima {l : CStr} (h : '.' ∉ l) : etiquetas l = [l] :=
  List.splitOn_eq_singleton h

theorem etiquetas_append {l t : CStr} (h : '.' ∉ l) :
    etiquetas (l ++ '.' :: t) = l :: etiquetas t :=
  List.splitOn_append_cons_self_of_not_mem h t

/-- A name is a label, or a label, a dot and a name. -/
theorem nombre_induction {motive : CStr → Prop} (ultima : ∀ l, '.' ∉ l → motive l)
    (mas : ∀ l t, '.' ∉ l → motive t → motive (l ++ '.' :: t)) (name : CStr) : motive name := by
  induction hn : name.length using Nat.strong_induction_on generalizing name with
  | _ n ih =>
      by_cases hmem : '.' ∈ name
      · obtain ⟨l, t, rfl, hl⟩ := List.eq_append_cons_of_mem hmem
        refine mas l t hl (ih t.length ?_ t rfl)
        rw [← hn, List.length_append, List.length_cons]
        omega
      · exact ultima name hmem

theorem etiquetas_ne_nil (name : CStr) : etiquetas name ≠ [] :=
  List.splitOn_ne_nil '.' name

/-- The last label of a name with a dot is the last one behind it. -/
theorem getLast?_etiquetas_append {l t : CStr} (h : '.' ∉ l) :
    (etiquetas (l ++ '.' :: t)).getLast? = (etiquetas t).getLast? := by
  rw [etiquetas_append h, List.getLast?_cons]
  obtain ⟨u, hu⟩ := Option.isSome_iff_exists.mp
    (List.getLast?_isSome.mpr (etiquetas_ne_nil t))
  rw [hu]
  rfl

theorem dropLast_etiquetas_append {l t : CStr} (h : '.' ∉ l) :
    (etiquetas (l ++ '.' :: t)).dropLast = l :: (etiquetas t).dropLast := by
  rw [etiquetas_append h, List.dropLast_cons_of_ne_nil (etiquetas_ne_nil t)]

/-- A name ends as its last label does. -/
theorem getLast?_of_ultima (name : CStr) :
    ∀ l, (etiquetas name).getLast? = some l → l ≠ [] → name.getLast? = l.getLast? := by
  induction name using nombre_induction with
  | ultima l h =>
      intro l' hl' _
      rw [etiquetas_ultima h] at hl'
      exact congrArg List.getLast? (Option.some.inj hl')
  | mas l t h ih =>
      intro l' hl' hne
      rw [getLast?_etiquetas_append h] at hl'
      have ht : t.getLast? = l'.getLast? := ih l' hl' hne
      obtain ⟨c, hc⟩ := Option.isSome_iff_exists.mp (List.getLast?_isSome.mpr hne)
      rw [List.getLast?_append, List.getLast?_cons, ht, hc]
      rfl

/-! ## Runs of the loop -/

variable {previo : Option Char} {labelCount : Nat} {error : Bool} {l t : CStr}

/-- The loop does not look before the name when it begins with no dot. -/
theorem revisaNombre_ne_none (h : previo = none → t.head? ≠ some '.') :
    revisaNombre previo labelCount error t ≠ none := by
  induction t generalizing previo labelCount error with
  | nil => exact Option.some_ne_none _
  | cons c t ih =>
      rw [revisaNombre]
      by_cases hc : c = '.'
      · rw [if_pos hc]
        cases previo with
        | none => exact absurd (congrArg some hc) (h rfl)
        | some p =>
            show (if p = '-' ∨ t = [] then _ else _) ≠ _
            split
            · exact Option.some_ne_none _
            · exact ih fun hno ↦ by cases hno
      · rw [if_neg hc]
        split
        · exact Option.some_ne_none _
        · split
          · exact ih fun hno ↦ by cases hno
          · split
            · exact ih fun hno ↦ by cases hno
            · exact Option.some_ne_none _

/-- One character of a label. -/
theorem revisaNombre_cons {c : Char} (hc : c ≠ '.') :
    revisaNombre previo labelCount error (c :: t) = some false ↔
      labelCount + 1 ≤ 63 ∧ (esLetra c || esCifra c) = true ∧
        revisaNombre (some c) (labelCount + 1) (error || esCifra c) t = some false := by
  rw [revisaNombre, if_neg hc]
  by_cases hlen : labelCount + 1 > 63
  · rw [if_pos hlen]
    exact iff_of_false (by simp) fun h ↦ by omega
  · rw [if_neg hlen, and_iff_right (by omega)]
    cases hcifra : esCifra c with
    | true => simp
    | false =>
        cases hletra : esLetra c with
        | true => simp
        | false => simp

/-- The last label. -/
theorem revisaNombre_ultima (h : '.' ∉ l) (hlen : labelCount ≤ 63) :
    revisaNombre previo labelCount error l = some false ↔
      labelCount + l.length ≤ 63 ∧ (∀ c ∈ l, (esLetra c || esCifra c) = true) ∧
        error = false ∧ ∀ c ∈ l, esCifra c = false := by
  induction l generalizing previo labelCount error with
  | nil =>
      show some error = some false ↔ _
      simpa using fun _ ↦ hlen
  | cons c l ih =>
      rw [List.mem_cons, not_or] at h
      rw [revisaNombre_cons (Ne.symm h.1), List.length_cons, List.forall_mem_cons,
        List.forall_mem_cons]
      constructor
      · rintro ⟨hlc, hc, hl⟩
        obtain ⟨hl₁, hl₂, hl₃, hl₄⟩ := (ih h.2 hlc).mp hl
        rw [Bool.or_eq_false_iff] at hl₃
        exact ⟨by omega, ⟨hc, hl₂⟩, hl₃.1, hl₃.2, hl₄⟩
      · rintro ⟨hlc, ⟨hc, hl₂⟩, herror, hcifra, hl₄⟩
        refine ⟨by omega, hc, (ih h.2 (by omega)).mpr ⟨by omega, hl₂, ?_, hl₄⟩⟩
        rw [herror, hcifra]
        rfl

/-- A label with a dot behind it. -/
theorem revisaNombre_append (h : '.' ∉ l) (hlen : labelCount ≤ 63) :
    revisaNombre previo labelCount error (l ++ '.' :: t) = some false ↔
      labelCount + l.length ≤ 63 ∧ (∀ c ∈ l, (esLetra c || esCifra c) = true) ∧
        (∃ p, (previo.toList ++ l).getLast? = some p ∧ p ≠ '-') ∧ t ≠ [] ∧
          revisaNombre (some '.') 0 false t = some false := by
  induction l generalizing previo labelCount error with
  | nil =>
      rw [List.nil_append, revisaNombre, if_pos rfl]
      cases previo with
      | none => simp
      | some p =>
          show (if p = '-' ∨ t = [] then _ else _) = _ ↔ _
          by_cases hfalta : p = '-' ∨ t = []
          · rw [if_pos hfalta]
            refine iff_of_false (by simp) ?_
            rintro ⟨-, -, ⟨p', hp', hne⟩, ht, -⟩
            rcases hfalta with rfl | rfl
            · exact hne (Option.some.inj hp').symm
            · exact ht rfl
          · rw [if_neg hfalta]
            rw [not_or] at hfalta
            constructor
            · intro hl
              exact ⟨hlen, nofun, ⟨p, rfl, hfalta.1⟩, hfalta.2, hl⟩
            · rintro ⟨-, -, -, -, hl⟩
              exact hl
  | cons c l ih =>
      rw [List.mem_cons, not_or] at h
      rw [List.cons_append, revisaNombre_cons (Ne.symm h.1), List.length_cons,
        List.forall_mem_cons]
      have hultimo : (previo.toList ++ c :: l).getLast? = ((some c).toList ++ l).getLast? := by
        rw [List.getLast?_append, Option.toList_some, List.singleton_append]
        obtain ⟨p, hp⟩ := Option.isSome_iff_exists.mp
          (List.getLast?_isSome.mpr (List.cons_ne_nil c l))
        rw [hp]
        rfl
      rw [hultimo]
      constructor
      · rintro ⟨hlc, hc, hl⟩
        obtain ⟨hl₁, hl₂, hl₃⟩ := (ih h.2 hlc).mp hl
        exact ⟨by omega, ⟨hc, hl₂⟩, hl₃⟩
      · rintro ⟨hlc, ⟨hc, hl₂⟩, hl₃⟩
        exact ⟨by omega, hc, (ih h.2 (by omega)).mpr ⟨by omega, hl₂, hl₃⟩⟩

/-- What the loop looks at from a place on where a label begins. -/
structure Cola (name : CStr) : Prop where
  fin : 1 < (etiquetas name).length → (etiquetas name).getLast? ≠ some []
  larga : ∀ l ∈ etiquetas name, l.length ≤ 63
  letras : ∀ l ∈ etiquetas name, ∀ c ∈ l, (esLetra c || esCifra c) = true
  guion : ∀ l ∈ (etiquetas name).dropLast, l.getLast? ≠ some '-'
  dominio : ∀ l, (etiquetas name).getLast? = some l → ∀ c ∈ l, esCifra c = false

theorem cola_ultima (h : '.' ∉ l) : Cola l ↔ l.length ≤ 63 ∧
    (∀ c ∈ l, (esLetra c || esCifra c) = true) ∧ ∀ c ∈ l, esCifra c = false := by
  have hl := etiquetas_ultima h
  constructor
  · rintro ⟨-, hlarga, hletras, -, hdominio⟩
    rw [hl] at hlarga hletras hdominio
    exact ⟨hlarga l (List.mem_singleton_self l), hletras l (List.mem_singleton_self l),
      hdominio l rfl⟩
  · rintro ⟨hlarga, hletras, hdominio⟩
    constructor <;> rw [hl]
    · exact fun hno ↦ absurd hno (Nat.lt_irrefl 1)
    · exact fun l' hl' ↦ List.mem_singleton.mp hl' ▸ hlarga
    · exact fun l' hl' ↦ List.mem_singleton.mp hl' ▸ hletras
    · exact nofun
    · exact fun l' hl' ↦ Option.some.inj hl' ▸ hdominio

theorem cola_append (h : '.' ∉ l) : Cola (l ++ '.' :: t) ↔ l.length ≤ 63 ∧
    (∀ c ∈ l, (esLetra c || esCifra c) = true) ∧ l.getLast? ≠ some '-' ∧ t ≠ [] ∧ Cola t := by
  have hl := etiquetas_append (t := t) h
  have hultima := getLast?_etiquetas_append (t := t) h
  have hsin := dropLast_etiquetas_append (t := t) h
  have hpos : 1 < (etiquetas (l ++ '.' :: t)).length := by
    have := List.length_pos_iff.mpr (etiquetas_ne_nil t)
    rw [hl, List.length_cons]
    omega
  constructor
  · rintro ⟨hfin, hlarga, hletras, hguion, hdominio⟩
    rw [hultima] at hfin hdominio
    rw [hl, List.forall_mem_cons] at hlarga hletras
    rw [hsin, List.forall_mem_cons] at hguion
    refine ⟨hlarga.1, hletras.1, hguion.1, ?_, fun _ ↦ hfin hpos, hlarga.2, hletras.2, hguion.2,
      hdominio⟩
    rintro rfl
    exact hfin hpos rfl
  · rintro ⟨hlen, hchars, hultimo, hne, hfin, hlarga, hletras, hguion, hdominio⟩
    constructor
    · rw [hultima]
      intro _ hno
      by_cases hlen' : 1 < (etiquetas t).length
      · exact hfin hlen' hno
      · -- the rest is one label, which is the rest itself
        induction t using nombre_induction with
        | ultima u hu =>
            rw [etiquetas_ultima hu] at hno
            exact hne (Option.some.inj hno)
        | mas u v hu _ =>
            have := List.length_pos_iff.mpr (etiquetas_ne_nil v)
            rw [etiquetas_append hu, List.length_cons] at hlen'
            omega
    · rw [hl, List.forall_mem_cons]
      exact ⟨hlen, hlarga⟩
    · rw [hl, List.forall_mem_cons]
      exact ⟨hchars, hletras⟩
    · rw [hsin, List.forall_mem_cons]
      exact ⟨hultimo, hguion⟩
    · rw [hultima]
      exact hdominio

/-- The loop over a name that begins with no dot, or behind a dot. -/
theorem revisaNombre_iff (name : CStr) :
    ∀ previo : Option Char, (previo = none → name.head? ≠ some '.') → previo ≠ some '-' →
      (revisaNombre previo 0 false name = some false ↔ Cola name) := by
  induction name using nombre_induction with
  | ultima l h =>
      intro previo _ _
      rw [revisaNombre_ultima h (Nat.zero_le 63), cola_ultima h, Nat.zero_add]
      simp
  | mas l t h ih =>
      intro previo hinicio hguion
      have hfin : (∃ p, (previo.toList ++ l).getLast? = some p ∧ p ≠ '-') ↔
          l.getLast? ≠ some '-' := by
        cases hl : l.getLast? with
        | some q =>
            rw [List.getLast?_append, hl]
            simp
        | none =>
            obtain rfl := List.getLast?_eq_none_iff.mp hl
            cases previo with
            | none => exact absurd rfl (hinicio rfl)
            | some q => simpa using hguion
      rw [revisaNombre_append h (Nat.zero_le 63), cola_append h, Nat.zero_add, hfin,
        ih (some '.') (fun hno ↦ by cases hno) (by decide)]

theorem laxa_iff (name : CStr) : Laxa name ↔ name.head? ≠ some '.' ∧ Cola name := by
  constructor
  · rintro ⟨hinicio, hfin, hlarga, hletras, hguion, hdominio⟩
    refine ⟨fun hhead ↦ ?_, hfin, hlarga, hletras, hguion, hdominio⟩
    obtain ⟨t, rfl⟩ := List.head?_eq_some_iff.mp hhead
    have hl : etiquetas ('.' :: t) = [] :: etiquetas t := etiquetas_append (l := []) nofun
    have hpos := List.length_pos_iff.mpr (etiquetas_ne_nil t)
    rw [hl, List.length_cons] at hinicio
    exact hinicio (by omega) rfl
  · rintro ⟨hhead, hfin, hlarga, hletras, hguion, hdominio⟩
    refine ⟨fun hlen hno ↦ ?_, hfin, hlarga, hletras, hguion, hdominio⟩
    induction name using nombre_induction with
    | ultima l h =>
        rw [etiquetas_ultima h] at hlen
        exact absurd hlen (Nat.lt_irrefl 1)
    | mas l t h _ =>
        rw [etiquetas_append h] at hno
        cases Option.some.inj hno
        exact hhead rfl

/-- The loop lets a name through when it has the parts of the rule that the loop looks at. -/
theorem nombreValido_laxa {name : CStr} (hlen : name.length ≤ HOSTLEN) :
    nombreValido name ≠ none ∧ (nombreValido name = some true ↔ Laxa name) := by
  rw [laxa_iff, nombreValido, List.take_of_length_le hlen]
  by_cases hhead : name.head? = some '.'
  · rw [if_pos hhead]
    exact ⟨Option.some_ne_none _, iff_of_false (by simp) fun h ↦ h.1 hhead⟩
  · rw [if_neg hhead, and_iff_right hhead, ← revisaNombre_iff name none (fun _ ↦ hhead) nofun]
    have hne : revisaNombre none 0 false name ≠ none := revisaNombre_ne_none fun _ ↦ hhead
    obtain ⟨b, hb⟩ := Option.ne_none_iff_exists'.mp hne
    rw [hb]
    cases b <;> simp

/-- The rule asks for two things more than the loop. -/
theorem norma_iff (name : CStr) :
    Norma name ↔ Laxa name ∧ (∀ l ∈ etiquetas name, l ≠ []) ∧ name.getLast? ≠ some '-' := by
  obtain ⟨u, hu⟩ := Option.isSome_iff_exists.mp (List.getLast?_isSome.mpr (etiquetas_ne_nil name))
  have humem : u ∈ etiquetas name := List.mem_of_getLast? hu
  constructor
  · rintro ⟨hvacia, hlarga, hletras, hguion, hdominio⟩
    refine ⟨⟨fun _ hno ↦ hvacia [] (List.mem_of_head? hno) rfl,
      fun _ hno ↦ hvacia [] (List.mem_of_getLast? hno) rfl, hlarga, hletras,
      fun l hl ↦ hguion l (List.mem_of_mem_dropLast hl), hdominio⟩, hvacia, ?_⟩
    rw [getLast?_of_ultima name u hu (hvacia u humem)]
    exact hguion u humem
  · rintro ⟨⟨-, -, hlarga, hletras, hguion, hdominio⟩, hvacia, hfin⟩
    refine ⟨hvacia, hlarga, hletras, fun l hl ↦ ?_, hdominio⟩
    rw [getLast?_of_ultima name u hu (hvacia u humem)] at hfin
    have hsplit := List.dropLast_append_getLast? u hu
    rw [← hsplit, List.mem_append, List.mem_singleton] at hl
    rcases hl with hl | rfl
    · exact hguion l hl
    · exact hfin

/-- The loop follows the rule, and stays in the name, exactly under the condition. -/
theorem nombreValido_iff {name : CStr} (hlen : name.length ≤ HOSTLEN) :
    (∃ b, nombreValido name = some b ∧ (b = true ↔ Norma name)) ↔ SigueNorma name := by
  obtain ⟨hne, hlaxa⟩ := nombreValido_laxa hlen
  obtain ⟨b, hb⟩ := Option.ne_none_iff_exists'.mp hne
  rw [hb, Option.some.injEq] at hlaxa
  rw [SigueNorma, norma_iff, hb]
  constructor
  · rintro ⟨b', heq, hrule⟩ hl
    cases heq
    exact (hrule.mp (hlaxa.mpr hl)).2
  · intro h
    exact ⟨b, rfl, fun htrue ↦ ⟨hlaxa.mp htrue, h (hlaxa.mp htrue)⟩, fun hr ↦ hlaxa.mpr hr.1⟩

theorem nombreValido_iff_irc :
    (∃ b, nombreValido "irc.es".toList = some b ∧ (b = true ↔ Norma "irc.es".toList)) ↔
      SigueNorma "irc.es".toList :=
  nombreValido_iff (by decide)

/-- A name whose top domain ends on a hyphen is let through. -/
theorem not_norma : ¬∀ name : CStr, name.length ≤ HOSTLEN →
    ∃ b, nombreValido name = some b ∧ (b = true ↔ Norma name) := by
  intro h
  obtain ⟨b, hb, hrule⟩ := h "a.b-".toList (by decide)
  have hvalido : nombreValido "a.b-".toList = some true := by decide
  rw [hvalido] at hb
  exact (hrule.mp (Option.some.inj hb).symm).guion ['b', '-'] (by decide) rfl

end Ircd.Conf
