import Ircd.Channel.Members

/-!
# Constraints on a listing

`param_parse` of `ircd/channel.c` and the loop of `m_list` over its parameters. A pointer is the
memory from it to the terminator, and `none` stands for a read behind that. `is_time` counts the time
constraints of a parameter from its beginning on, and `restricciones_iff` says when each constraint
sets the bound that the usage text gives it.
-/

namespace Ircd.Channel

open CString

/-! ## The bounds -/

/-- `LISTARG_…`: the bits of `flags` that are set. -/
inductive Listarg where
  | showsecret
  | negatewildcard
  | showmodes
deriving DecidableEq

/-- `struct ListingArgs`. -/
structure ListingArgs where
  maxTime : Nat
  minTime : Nat
  maxUsers : Nat
  minUsers : Nat
  flags : Finset Listarg
  maxTopicTime : Nat
  minTopicTime : Nat
  wildcard : CStr
deriving DecidableEq

/-- `la_init`. -/
def laInit : ListingArgs :=
  ⟨2147483647, 0, 4294967295, 0, ∅, 2147483647, 0, []⟩

/-- `LPARAM_…`. -/
inductive Lparam where
  | error
  | success
  | channel
deriving DecidableEq

/-- An assignment to a bound, or to none. -/
inductive Ajuste where
  | maxUsers (val : Nat)
  | minUsers (val : Nat)
  | maxTime (val : Nat)
  | minTime (val : Nat)
  | maxTopicTime (val : Nat)
  | minTopicTime (val : Nat)
  | showsecret
  | showmodes
  | wildcard (negate : Bool) (w : CStr)
  | nada
deriving DecidableEq

/-- The bounds after it. -/
def Ajuste.aplica (args : ListingArgs) : Ajuste → ListingArgs
  | .maxUsers val => { args with maxUsers := val }
  | .minUsers val => { args with minUsers := val }
  | .maxTime val => { args with maxTime := val }
  | .minTime val => { args with minTime := val }
  | .maxTopicTime val => { args with maxTopicTime := val }
  | .minTopicTime val => { args with minTopicTime := val }
  | .showsecret => { args with flags := insert .showsecret args.flags }
  | .showmodes => { args with flags := insert .showmodes args.flags }
  | .wildcard negate w =>
      { args with
        flags := if negate then insert .negatewildcard args.flags else args.flags
        wildcard := w }
  | .nada => args

/-- The client that asks, and the time. -/
structure Lista where
  anOper : Bool
  privListChan : Bool
  tStime : Int

/-! ## `param_parse` -/

/-- `dir`. -/
inductive Sentido where
  | menos
  | mas
deriving DecidableEq

/-- The character of a direction. -/
def Sentido.letra : Sentido → Char
  | .menos => '<'
  | .mas => '>'

/-- The other direction. -/
def Sentido.vuelta : Sentido → Sentido
  | .menos => .mas
  | .mas => .menos

/-- `switch (is_time)`. -/
def ajuste (isTime : Nat) (dir : Sentido) (val : Nat) : Ajuste :=
  match isTime, dir with
  | 0, .menos => .maxUsers val
  | 0, .mas => .minUsers val
  | 1, .menos => .maxTime val
  | 1, .mas => .minTime val
  | 2, .menos => .maxTopicTime val
  | 2, .mas => .minTopicTime val
  | _, _ => .nada

/-- The age `val` is turned into a time. -/
def conTiempo (tStime : Int) (dir : Sentido) (val : Nat) : Sentido × Nat :=
  if val < 80000000 then (dir.vuelta, toUnsigned (tStime - toUnsigned (val * 60)))
  else (dir, val)

/-- The check of the syntax behind a constraint. -/
def esFin (c : Char) : Bool :=
  c = ',' ∨ c = ' ' ∨ c = nul

/-- `IsChannelName2`. -/
def isChannelName2 (name : CStr) : Bool :=
  name.head? = some '#' ∨ name.head? = some '&' ∨
    name.head? = some '+' ∧ name.tail.head? ≠ some '@'

/-- `IsChannelName`. -/
def isChannelName (name : CStr) : Bool :=
  name.head? = some '#' ∨ name.head? = some '&' ∨
    (name.head? = some '+' ∧ name.tail.head? ≠ some '@') ∧
      (name.tail.head? = some nul ∨ !isChannelName2 name.tail)

/-- A turn of the loop of `param_parse`: it returns, or it goes on at `param` after an assignment. -/
inductive Vuelta where
  | sale (r : Lparam)
  | acaba (a : Ajuste)
  | sigue (isTime : Nat) (param : CStr) (a : Ajuste)

/-- What follows a `break` out of the `switch`. -/
def trasSwitch (isTime : Nat) (param : CStr) (a : Ajuste) : Option Vuelta :=
  match param with
  | [] => none
  | c :: param => some (if c = nul then .acaba a else .sigue isTime param a)

/-- `case '<'` and `case '>'`. -/
def caseNumero (e : Lista) (isTime : Nat) (dir : Sentido) (param : CStr) : Option Vuelta := do
  let c ← param.head?
  if !c.isDigit then return .sale .error
  let val := toUnsigned (atol param)
  let param := param.dropWhile Char.isDigit
  let c ← param.head?
  if !esFin c then return .sale .error
  let (dir, val) := if isTime ≠ 0 then conTiempo e.tStime dir val else (dir, val)
  trasSwitch isTime param (ajuste isTime dir val)

/-- `case 'S'` and `case 'M'`, once they are allowed. -/
def caseLetra (isTime : Nat) (param : CStr) (a : Ajuste) : Option Vuelta := do
  let c ← param.head?
  if !esFin c then return .sale .error
  trasSwitch isTime param a

/-- The wildcard at `param`, which is cut off at a comma or a blank. -/
def caseWildcard (isTime : Nat) (param : CStr) (negate : Bool) (wildcard : CStr) :
    Option Vuelta := do
  if wildcard ≠ [] then return .sale .error
  let c ← param.head?
  if c ≠ '*' ∧ c ≠ '?' ∧ c ≠ '#' ∧ c ≠ '&' then return .sale .error
  let w := param.takeWhile fun c ↦ !esFin c
  let a := Ajuste.wildcard negate (w.take (CHANNELLEN - 1))
  match param.dropWhile fun c ↦ !esFin c with
  | [] => none
  | c :: param => some (if c = nul then .acaba a else .sigue isTime param a)

/-- `default`. -/
def caseDefault (isTime : Nat) (permitChan : Bool) (param wildcard : CStr) : Option Vuelta :=
  let resto := before param nul
  if '*' ∈ resto ∨ '?' ∈ resto then
    if param.head? = some '!' then caseWildcard isTime param.tail true wildcard
    else caseWildcard isTime param false wildcard
  else if !permitChan ∨ !isChannelName param then some (.sale .error)
  else some (.sale .channel)

/-- A turn of `while (1)`. -/
def vuelta (e : Lista) (permitChan : Bool) (isTime : Nat) (param wildcard : CStr) : Option Vuelta :=
  match param with
  | [] => none
  | c :: param' =>
      if c = 'T' ∨ c = 't' ∨ c = 'C' ∨ c = 'c' then
        match param' with
        | [] => none
        | '<' :: param' => caseNumero e (isTime + 1) .menos param'
        | '>' :: param' => caseNumero e (isTime + 1) .mas param'
        | _ => some (.sale .error)
      else if c = '<' then caseNumero e isTime .menos param'
      else if c = '>' then caseNumero e isTime .mas param'
      else if c = 'S' ∨ c = 's' then
        if !e.anOper ∨ !e.privListChan then some (.sale .error)
        else caseLetra isTime param' .showsecret
      else if c = 'M' ∨ c = 'm' then
        if !e.anOper then some (.sale .error) else caseLetra isTime param' .showmodes
      else caseDefault isTime permitChan (c :: param') wildcard

/-- `while (1)`: the return value, the assignments in their order, and `*args`. -/
def vueltas (e : Lista) (permitChan : Bool) :
    Nat → Nat → CStr → ListingArgs → Option (Lparam × List Ajuste × ListingArgs)
  | 0, _, _, _ => none
  | fuel + 1, isTime, param, args =>
      match vuelta e permitChan isTime param args.wildcard with
      | none => none
      | some (.sale r) => some (r, [], args)
      | some (.acaba a) => some (.success, [a], a.aplica args)
      | some (.sigue isTime param a) =>
          (vueltas e permitChan fuel isTime param (a.aplica args)).map fun (r, as, args) ↦
            (r, a :: as, args)

/-- `param_parse`. Each turn of the loop moves `param`. -/
def paramParse (e : Lista) (permitChan : Bool) (param : CStr) (args : ListingArgs) :
    Option (Lparam × List Ajuste × ListingArgs) :=
  vueltas e permitChan param.length 0 param args

/-- The loop of `m_list` over its parameters: `none` inside for an error, and else `show_channels`. -/
def parametros (e : Lista) (permitChan : Bool) :
    List CStr → ListingArgs → Option (Option (Nat × List Ajuste × ListingArgs))
  | [], args => some (some (0, [], args))
  | param :: parv, args =>
      match paramParse e permitChan param args with
      | none => none
      | some (.error, _, _) => some none
      | some (r, as, args) =>
          (parametros e permitChan parv args).map fun o ↦ o.map fun (showChannels, as', args) ↦
            (if r = .channel then showChannels + 1 else showChannels, as ++ as', args)

/-! ## Constraints -/

/-- A constraint of the usage text. `grande` tells a capital letter. -/
inductive Restriccion where
  | users (dir : Sentido) (cifras : CStr)
  | creation (grande : Bool) (dir : Sentido) (cifras : CStr)
  | topic (grande : Bool) (dir : Sentido) (cifras : CStr)
  | secret (grande : Bool)
  | modes (grande : Bool)
  | wildcard (negate : Bool) (w : CStr)
deriving DecidableEq

namespace Restriccion

/-- The text of a constraint. -/
def texto : Restriccion → CStr
  | users dir cifras => dir.letra :: cifras
  | creation grande dir cifras => (if grande then 'C' else 'c') :: dir.letra :: cifras
  | topic grande dir cifras => (if grande then 'T' else 't') :: dir.letra :: cifras
  | secret grande => [if grande then 'S' else 's']
  | modes grande => [if grande then 'M' else 'm']
  | wildcard negate w => if negate then '!' :: w else w

/-- Digits. -/
def Cifras (cifras : CStr) : Prop :=
  cifras ≠ [] ∧ ∀ c ∈ cifras, c.isDigit = true

/-- A constraint is well formed, and the usage text offers it to the client. -/
def Bien (e : Lista) : Restriccion → Prop
  | users _ cifras | creation _ _ cifras | topic _ _ cifras => Cifras cifras
  | secret _ => e.anOper = true ∧ e.privListChan = true
  | modes _ => e.anOper = true
  | wildcard _ w =>
      (w.head? = some '*' ∨ w.head? = some '?' ∨ w.head? = some '#' ∨ w.head? = some '&') ∧
        ('*' ∈ w ∨ '?' ∈ w) ∧ ∀ c ∈ w, esFin c = false

/-- A constraint is a wildcard. -/
def esComodin : Restriccion → Bool
  | wildcard _ _ => true
  | _ => false

/-- The number of a constraint. -/
def valor (cifras : CStr) : Nat :=
  toUnsigned (atol cifras)

/-- The bound that the usage text gives a constraint. An age is the time that long ago. -/
def uso (e : Lista) : Restriccion → Ajuste
  | users .menos cifras => .maxUsers (valor cifras)
  | users .mas cifras => .minUsers (valor cifras)
  | creation _ dir cifras =>
      match conTiempo e.tStime dir (valor cifras) with
      | (.menos, val) => .maxTime val
      | (.mas, val) => .minTime val
  | topic _ dir cifras =>
      match conTiempo e.tStime dir (valor cifras) with
      | (.menos, val) => .maxTopicTime val
      | (.mas, val) => .minTopicTime val
  | secret _ => .showsecret
  | modes _ => .showmodes
  | wildcard negate w => .wildcard negate (w.take (CHANNELLEN - 1))

/-- What `is_time` grows by. -/
def tiempos : Restriccion → Nat
  | creation _ _ _ | topic _ _ _ => 1
  | _ => 0

/-- The assignment that the loop makes when `is_time` was `isTime`. -/
def hecho (e : Lista) (isTime : Nat) : Restriccion → Ajuste
  | users dir cifras =>
      if isTime = 0 then ajuste 0 dir (valor cifras)
      else ajuste isTime (conTiempo e.tStime dir (valor cifras)).1
        (conTiempo e.tStime dir (valor cifras)).2
  | creation _ dir cifras | topic _ dir cifras =>
      ajuste (isTime + 1) (conTiempo e.tStime dir (valor cifras)).1
        (conTiempo e.tStime dir (valor cifras)).2
  | r => r.uso e

/-- `is_time` is as a constraint needs it. -/
def EnTurno (isTime : Nat) : Restriccion → Prop
  | users _ _ | creation _ _ _ => isTime = 0
  | topic _ _ _ => isTime = 1
  | _ => True

/-- The loop sets the bound of the usage text if and only if it is the turn of the constraint. -/
theorem hecho_iff (e : Lista) (isTime : Nat) (r : Restriccion) :
    r.hecho e isTime = r.uso e ↔ r.EnTurno isTime := by
  cases r with
  | users dir cifras =>
      rcases isTime with _ | _ | _ | isTime
      · cases dir <;> simp [hecho, uso, EnTurno, ajuste]
      all_goals
        unfold hecho EnTurno
        dsimp only
        generalize conTiempo e.tStime dir (valor cifras) = p
        obtain ⟨dir', val⟩ := p
        cases dir <;> cases dir' <;> simp [uso, ajuste]
  | creation grande dir cifras =>
      unfold hecho uso EnTurno
      dsimp only
      generalize conTiempo e.tStime dir (valor cifras) = p
      obtain ⟨dir', val⟩ := p
      rcases isTime with _ | _ | isTime <;> cases dir' <;> simp [ajuste]
  | topic grande dir cifras =>
      unfold hecho uso EnTurno
      dsimp only
      generalize conTiempo e.tStime dir (valor cifras) = p
      obtain ⟨dir', val⟩ := p
      rcases isTime with _ | _ | isTime <;> cases dir' <;> simp [ajuste]
  | secret => exact iff_of_true rfl trivial
  | modes => exact iff_of_true rfl trivial
  | wildcard => exact iff_of_true rfl trivial

/-! ## The turn of a constraint -/

variable {e : Lista} {permitChan : Bool} {isTime : Nat} {cifras rest w : CStr} {c : Char}
  {dir : Sentido}

/-- The character behind a constraint is no digit. -/
theorem not_isDigit_of_esFin (h : esFin c = true) : c.isDigit = false := by
  simp only [esFin, decide_eq_true_eq] at h
  obtain rfl | rfl | rfl := h <;> decide

/-- A number is read up to the character behind it. -/
theorem valor_append (hcifras : Cifras cifras) (hc : esFin c = true) :
    toUnsigned (atol (cifras ++ c :: rest)) = valor cifras := by
  have hself : atol cifras = min (2 ^ 63 - 1) (Nat.ofDigitChars 10 cifras 0 : Int) := by
    have hnil : ([] : CStr).head?.all (fun c ↦ !c.isDigit) = true := rfl
    have happend := atol_cifras hcifras.1 hcifras.2 hnil
    rwa [List.append_nil] at happend
  rw [valor, hself, atol_cifras hcifras.1 hcifras.2 (by simp [not_isDigit_of_esFin hc])]

/-- What the loop does after a constraint that is followed by `c`. -/
def tras (isTime : Nat) (c : Char) (rest : CStr) (a : Ajuste) : Vuelta :=
  if c = nul then .acaba a else .sigue isTime rest a

theorem caseNumero_eq (hcifras : Cifras cifras) (hc : esFin c = true) :
    caseNumero e isTime dir (cifras ++ c :: rest) =
      some (tras isTime c rest
        (if isTime = 0 then ajuste 0 dir (valor cifras)
        else ajuste isTime (conTiempo e.tStime dir (valor cifras)).1
          (conTiempo e.tStime dir (valor cifras)).2)) := by
  have hval : toUnsigned (atol (cifras ++ c :: rest)) = valor cifras := valor_append hcifras hc
  have hdrop : (cifras ++ c :: rest).dropWhile Char.isDigit = c :: rest :=
    dropWhile_stop rest hcifras.2 (not_isDigit_of_esFin hc)
  obtain ⟨d, cifras', hd⟩ := List.exists_cons_of_ne_nil hcifras.1
  have hdigit : d.isDigit = true := hcifras.2 d (hd ▸ List.mem_cons_self)
  have hhead : (cifras ++ c :: rest).head? = some d := by rw [hd]; rfl
  unfold caseNumero
  simp only [hhead, hval, hdrop, Option.bind_eq_bind, Option.bind_some, hdigit, hc,
    List.head?_cons, trasSwitch, tras]
  by_cases htime : isTime = 0
  · simp [htime]
  · simp [htime]

theorem caseLetra_eq (a : Ajuste) (hc : esFin c = true) :
    caseLetra isTime (c :: rest) a = some (tras isTime c rest a) := by
  simp [caseLetra, hc, trasSwitch, tras]

theorem caseWildcard_eq {negate : Bool} (hw : Bien e (.wildcard negate w)) (hc : esFin c = true) :
    caseWildcard isTime (w ++ c :: rest) negate [] =
      some (tras isTime c rest (.wildcard negate (w.take (CHANNELLEN - 1)))) := by
  obtain ⟨hhead, hstar, hfin⟩ := hw
  have hscan : ∀ x ∈ w, (!esFin x) = true := fun x hx ↦ by rw [hfin x hx]; rfl
  have hstop : (!esFin c) = false := by rw [hc]; rfl
  have htake := takeWhile_stop rest hscan hstop
  have hdrop := dropWhile_stop rest hscan hstop
  obtain ⟨x, w', rfl⟩ : ∃ x w', w = x :: w' := by
    cases w with
    | nil => simp at hhead
    | cons x w' => exact ⟨x, w', rfl⟩
  have hx : ¬ (x ≠ '*' ∧ x ≠ '?' ∧ x ≠ '#' ∧ x ≠ '&') := by
    simp only [List.head?_cons, Option.some_inj] at hhead
    tauto
  unfold caseWildcard
  simp only [htake, hdrop, tras]
  simp [hx]

/-- A wildcard is looked for up to the terminator. -/
theorem caseDefault_eq {negate : Bool} (hw : Bien e (.wildcard negate w)) (hc : esFin c = true) :
    caseDefault isTime permitChan ((wildcard negate w).texto ++ c :: rest) [] =
      some (tras isTime c rest (.wildcard negate (w.take (CHANNELLEN - 1)))) := by
  have hcase : caseWildcard isTime (w ++ c :: rest) negate [] = _ := caseWildcard_eq hw hc
  obtain ⟨hhead, hstar, hfin⟩ := hw
  have hw' : ∀ x ∈ w, (x != nul) = true := by
    intro x hx
    rw [bne_iff_ne]
    rintro rfl
    exact absurd (hfin _ hx) (by decide)
  have hmem : ∀ t : CStr, (∀ x ∈ t, (x != nul) = true) → ∀ x ∈ t,
      x ∈ before (t ++ c :: rest) nul := by
    intro t ht x hx
    rw [before, List.takeWhile_append_of_pos ht]
    exact List.mem_append_left _ hx
  rw [← hcase]
  cases negate with
  | true =>
      show caseDefault isTime permitChan ('!' :: w ++ c :: rest) [] = _
      have hmem' := hmem ('!' :: w) (by
        intro x hx
        rcases List.mem_cons.mp hx with rfl | hx
        · decide
        · exact hw' x hx)
      have hcond := hstar.imp (fun h ↦ hmem' _ (List.mem_cons_of_mem _ h))
        fun h ↦ hmem' _ (List.mem_cons_of_mem _ h)
      exact (if_pos hcond).trans (if_pos rfl)
  | false =>
      show caseDefault isTime permitChan (w ++ c :: rest) [] = _
      have hbang : (w ++ c :: rest).head? ≠ some '!' := by
        cases w with
        | nil => simp at hhead
        | cons x w =>
            simp only [List.head?_cons, Option.some_inj, List.cons_append, ne_eq] at hhead ⊢
            rintro rfl
            revert hhead
            decide
      exact (if_pos (hstar.imp (hmem w hw' _) (hmem w hw' _))).trans (if_neg hbang)

/-- The characters that a wildcard begins with. -/
theorem vuelta_default {x : Char} {antes : CStr}
    (hx : x = '!' ∨ x = '*' ∨ x = '?' ∨ x = '#' ∨ x = '&') :
    vuelta e permitChan isTime (x :: rest) antes =
      caseDefault isTime permitChan (x :: rest) antes := by
  obtain rfl | rfl | rfl | rfl | rfl := hx <;> rfl

/-- A turn of the loop at a constraint. -/
theorem vuelta_eq {antes : CStr} {r : Restriccion} (hr : r.Bien e) (hc : esFin c = true)
    (hantes : r.esComodin = true → antes = []) :
    vuelta e permitChan isTime (r.texto ++ c :: rest) antes =
      some (tras (isTime + r.tiempos) c rest (r.hecho e isTime)) := by
  cases r with
  | users dir cifras =>
      cases dir with
      | menos => exact caseNumero_eq hr hc
      | mas => exact caseNumero_eq hr hc
  | creation grande dir cifras =>
      have hnum : caseNumero e (isTime + 1) dir (cifras ++ c :: rest) = _ := caseNumero_eq hr hc
      rw [if_neg (Nat.succ_ne_zero _)] at hnum
      cases grande <;> cases dir <;> exact hnum
  | topic grande dir cifras =>
      have hnum : caseNumero e (isTime + 1) dir (cifras ++ c :: rest) = _ := caseNumero_eq hr hc
      rw [if_neg (Nat.succ_ne_zero _)] at hnum
      cases grande <;> cases dir <;> exact hnum
  | secret grande =>
      have hletra : caseLetra isTime (c :: rest) .showsecret = _ := caseLetra_eq .showsecret hc
      obtain ⟨hoper, hpriv⟩ := hr
      refine Eq.trans ?_ hletra
      cases grande <;> simp [vuelta, texto, hoper, hpriv]
  | modes grande =>
      have hletra : caseLetra isTime (c :: rest) .showmodes = _ := caseLetra_eq .showmodes hc
      have hoper : e.anOper = true := hr
      refine Eq.trans ?_ hletra
      cases grande <;> simp [vuelta, texto, hoper]
  | wildcard negate w =>
      rw [hantes rfl]
      have hdef : caseDefault isTime permitChan ((wildcard negate w).texto ++ c :: rest) [] = _ :=
        caseDefault_eq hr hc
      refine Eq.trans ?_ hdef
      cases negate with
      | true => exact vuelta_default (.inl rfl)
      | false =>
          cases w with
          | nil => simp [Bien] at hr
          | cons x w =>
              refine vuelta_default (.inr ?_)
              simpa using hr.1

/-! ## A parameter -/

/-- The wildcards of a list. -/
def comodines (rs : List Restriccion) : Nat :=
  rs.countP esComodin

/-- The assignments that a list leads to, from a value of `is_time` on. -/
def hechos (e : Lista) : Nat → List Restriccion → List Ajuste
  | _, [] => []
  | isTime, r :: rs => r.hecho e isTime :: hechos e (isTime + r.tiempos) rs

/-- Every constraint of a list has its turn. -/
def EnOrden : Nat → List Restriccion → Prop
  | _, [] => True
  | isTime, r :: rs => r.EnTurno isTime ∧ EnOrden (isTime + r.tiempos) rs

/-- The constraints of a list set the bounds of the usage text if and only if they are in order. -/
theorem hechos_iff (e : Lista) (isTime : Nat) (rs : List Restriccion) :
    hechos e isTime rs = rs.map (uso e) ↔ EnOrden isTime rs := by
  induction rs generalizing isTime with
  | nil => exact iff_of_true rfl trivial
  | cons r rs ih => rw [hechos, List.map_cons, List.cons.injEq, hecho_iff, ih, EnOrden]

theorem length_hechos (e : Lista) (isTime : Nat) (rs : List Restriccion) :
    (hechos e isTime rs).length = rs.length := by
  induction rs generalizing isTime with
  | nil => rfl
  | cons r rs ih => rw [hechos, List.length_cons, List.length_cons, ih]

end Restriccion

/-- A parameter of `m_list`: a constraint, and others with a comma or a blank in front. -/
structure Parametro where
  primera : Restriccion
  otras : List (Char × Restriccion)

namespace Parametro

/-- The constraints of a parameter. -/
def restricciones (p : Parametro) : List Restriccion :=
  p.primera :: p.otras.map Prod.snd

/-- The text of a parameter. -/
def texto (p : Parametro) : CStr :=
  p.primera.texto ++ p.otras.flatMap fun x ↦ x.1 :: x.2.texto

/-- The constraints are well formed. -/
def Bien (e : Lista) (p : Parametro) : Prop :=
  (∀ r ∈ p.restricciones, r.Bien e) ∧ ∀ x ∈ p.otras, x.1 = ',' ∨ x.1 = ' '

end Parametro

section

open Restriccion

variable {e : Lista} {permitChan : Bool} {isTime fuel : Nat} {args : ListingArgs}

/-- The wildcards that have been given. -/
def gastados (args : ListingArgs) : Nat :=
  if args.wildcard = [] then 0 else 1

/-- A bound that is set leaves the wildcard as it is. -/
theorem wildcard_ajuste (isTime : Nat) (dir : Sentido) (val : Nat) (args : ListingArgs) :
    ((ajuste isTime dir val).aplica args).wildcard = args.wildcard := by
  unfold ajuste
  split <;> rfl

/-- A constraint uses up the wildcard, if it is one. -/
theorem gastados_aplica (isTime : Nat) {r : Restriccion} (hr : r.Bien e)
    (h : r.esComodin = true → gastados args = 0) :
    gastados ((r.hecho e isTime).aplica args) = gastados args + comodines [r] := by
  cases r with
  | users dir cifras =>
      unfold gastados hecho
      dsimp only
      split_ifs <;> simp_all [wildcard_ajuste, comodines, esComodin]
  | creation grande dir cifras => simp [gastados, hecho, wildcard_ajuste, comodines, esComodin]
  | topic grande dir cifras => simp [gastados, hecho, wildcard_ajuste, comodines, esComodin]
  | secret grande => rfl
  | modes grande => rfl
  | wildcard negate w =>
      have hne : w.take (CHANNELLEN - 1) ≠ [] := by
        cases w with
        | nil => simp [Restriccion.Bien] at hr
        | cons x w => simp [CHANNELLEN]
      rw [h rfl]
      exact if_neg hne

theorem comodines_cons (r : Restriccion) (rs : List Restriccion) :
    comodines (r :: rs) = comodines [r] + comodines rs := by
  simp only [comodines, List.countP_cons, List.countP_nil]
  omega

/-- Where there is a wildcard, none has been given before. -/
theorem gastados_eq_zero {r : Restriccion} {rs : List Restriccion}
    (huno : gastados args + comodines (r :: rs) ≤ 1) (hr : r.esComodin = true) :
    gastados args = 0 := by
  simp only [comodines, List.countP_cons, hr, if_true] at huno
  omega

theorem wildcard_eq_nil (h : gastados args = 0) : args.wildcard = [] := by
  by_contra hne
  simp [gastados, hne] at h

/-- The loop over a list of constraints. -/
theorem vueltas_texto (r : Restriccion) (xs : List (Char × Restriccion))
    (hbien : ∀ r' ∈ r :: xs.map Prod.snd, r'.Bien e) (hsep : ∀ x ∈ xs, x.1 = ',' ∨ x.1 = ' ')
    (huno : gastados args + comodines (r :: xs.map Prod.snd) ≤ 1) (hfuel : xs.length < fuel) :
    vueltas e permitChan fuel isTime
        (r.texto ++ (xs.flatMap fun x ↦ x.1 :: x.2.texto) ++ [nul]) args =
      some (.success, hechos e isTime (r :: xs.map Prod.snd),
        (hechos e isTime (r :: xs.map Prod.snd)).foldl Ajuste.aplica args) := by
  induction xs generalizing r isTime args fuel with
  | nil =>
      obtain ⟨n, rfl⟩ : ∃ n, fuel = n + 1 := ⟨fuel - 1, by omega⟩
      have hr : r.Bien e := hbien r List.mem_cons_self
      have hvuelta : vuelta e permitChan isTime (r.texto ++ nul :: []) args.wildcard = _ :=
        vuelta_eq hr (by decide) fun h ↦ wildcard_eq_nil (gastados_eq_zero huno h)
      rw [List.flatMap_nil, List.append_nil, vueltas, hvuelta]
      rfl
  | cons x xs ih =>
      obtain ⟨sep, r'⟩ := x
      obtain ⟨n, rfl⟩ : ∃ n, fuel = n + 1 := ⟨fuel - 1, by omega⟩
      have hr : r.Bien e := hbien r List.mem_cons_self
      have hseparador : sep = ',' ∨ sep = ' ' := hsep _ List.mem_cons_self
      have hfin : esFin sep = true := by
        obtain rfl | rfl := hseparador <;> decide
      have hnul : sep ≠ nul := by
        obtain rfl | rfl := hseparador <;> decide
      obtain ⟨resto, hresto⟩ : ∃ resto, resto = r'.texto ++ (xs.flatMap fun x ↦
          x.1 :: x.2.texto) ++ [nul] := ⟨_, rfl⟩
      have hvuelta : vuelta e permitChan isTime (r.texto ++ sep :: resto) args.wildcard = _ :=
        vuelta_eq hr hfin fun h ↦ wildcard_eq_nil (gastados_eq_zero huno h)
      have htexto : r.texto ++ (((sep, r') :: xs).flatMap fun x ↦ x.1 :: x.2.texto) ++ [nul] =
          r.texto ++ sep :: resto := by
        rw [hresto, List.flatMap_cons, List.append_assoc, List.cons_append, List.cons_append]
      have huno' : gastados ((r.hecho e isTime).aplica args) +
          comodines (r' :: xs.map Prod.snd) ≤ 1 := by
        rw [gastados_aplica isTime hr (gastados_eq_zero huno), Nat.add_assoc, ← comodines_cons]
        exact huno
      have hrun : vueltas e permitChan n (isTime + r.tiempos) _ _ = _ := ih r'
        (fun q hq ↦ hbien q (List.mem_cons_of_mem _ hq))
        (fun y hy ↦ hsep y (List.mem_cons_of_mem _ hy)) huno' (Nat.lt_of_succ_lt_succ hfuel)
      rw [htexto, vueltas, hvuelta, tras, if_neg hnul]
      dsimp only
      rw [hresto, hrun]
      rfl

/-- A parameter is read to its end, and sets the bounds of its constraints. -/
theorem paramParse_texto {p : Parametro} (hp : p.Bien e)
    (huno : gastados args + comodines p.restricciones ≤ 1) :
    paramParse e permitChan (p.texto ++ [nul]) args =
      some (.success, hechos e 0 p.restricciones,
        (hechos e 0 p.restricciones).foldl Ajuste.aplica args) := by
  have hlen : ∀ xs : List (Char × Restriccion),
      xs.length ≤ (xs.flatMap fun x ↦ x.1 :: x.2.texto).length := by
    intro xs
    induction xs with
    | nil => exact Nat.le_refl _
    | cons x xs ih =>
        rw [List.flatMap_cons, List.length_append, List.length_cons, List.length_cons]
        omega
  refine vueltas_texto p.primera p.otras hp.1 hp.2 huno ?_
  have hotras := hlen p.otras
  simp only [Parametro.texto, List.length_append, List.length_singleton]
  omega

/-- The wildcards are counted along the assignments. -/
theorem gastados_hechos {rs : List Restriccion} (hrs : ∀ r ∈ rs, r.Bien e)
    (huno : gastados args + comodines rs ≤ 1) :
    gastados ((hechos e isTime rs).foldl Ajuste.aplica args) = gastados args + comodines rs := by
  induction rs generalizing isTime args with
  | nil => rfl
  | cons r rs ih =>
      have hr := gastados_aplica isTime (hrs r List.mem_cons_self)
        (gastados_eq_zero huno)
      rw [comodines_cons, ← Nat.add_assoc, ← hr] at huno ⊢
      exact ih (fun q hq ↦ hrs q (List.mem_cons_of_mem _ hq)) huno

/-- All the parameters are read to their ends. -/
theorem parametros_texto {ps : List Parametro} (hps : ∀ p ∈ ps, p.Bien e)
    (huno : gastados args + comodines (ps.flatMap Parametro.restricciones) ≤ 1) :
    parametros e permitChan (ps.map fun p ↦ p.texto ++ [nul]) args =
      some (some (0, ps.flatMap fun p ↦ hechos e 0 p.restricciones,
        (ps.flatMap fun p ↦ hechos e 0 p.restricciones).foldl Ajuste.aplica args)) := by
  induction ps generalizing args with
  | nil => rfl
  | cons p ps ih =>
      have hp := hps p List.mem_cons_self
      have hsplit : comodines ((p :: ps).flatMap Parametro.restricciones) =
          comodines p.restricciones + comodines (ps.flatMap Parametro.restricciones) := by
        rw [List.flatMap_cons, comodines, List.countP_append]
        rfl
      rw [hsplit, ← Nat.add_assoc] at huno
      have hfirst : gastados args + comodines p.restricciones ≤ 1 :=
        (Nat.le_add_right _ _).trans huno
      rw [← gastados_hechos hp.1 hfirst] at huno
      have hrest := ih (fun q hq ↦ hps q (List.mem_cons_of_mem _ hq)) huno
      rw [List.map_cons, parametros, paramParse_texto hp hfirst]
      dsimp only
      rw [hrest, List.flatMap_cons, List.foldl_append]
      rfl

/-- The parameters of constraints set the bounds of the usage text if and only if each one is in
order. -/
theorem flatMap_hechos_iff (e : Lista) (ps : List Parametro) :
    (ps.flatMap fun p ↦ hechos e 0 p.restricciones) =
        (ps.flatMap Parametro.restricciones).map (uso e) ↔
      ∀ p ∈ ps, EnOrden 0 p.restricciones := by
  induction ps with
  | nil => simp
  | cons p ps ih =>
      have hlen : (hechos e 0 p.restricciones).length = (p.restricciones.map (uso e)).length := by
        rw [length_hechos, List.length_map]
      rw [List.flatMap_cons, List.flatMap_cons, List.map_append, List.forall_mem_cons, ← ih,
        ← hechos_iff e]
      constructor
      · exact fun h ↦ List.append_inj h hlen
      · exact fun h ↦ congrArg₂ _ h.1 h.2

/-- Parameters of well-formed constraints are read to their ends and no further. The assignments that
are made are those of the usage text, constraint by constraint, if and only if in each parameter the
user counts come before any time, a `C` comes first among the times, and a `T` comes second. -/
theorem restricciones_iff (e : Lista) (permitChan : Bool) (ps : List Parametro) (args : ListingArgs)
    (hps : ∀ p ∈ ps, p.Bien e)
    (huno : comodines (ps.flatMap Parametro.restricciones) ≤ 1) (hargs : args.wildcard = []) :
    ∃ as : List Ajuste,
      parametros e permitChan (ps.map fun p ↦ p.texto ++ [nul]) args =
        some (some (0, as, as.foldl Ajuste.aplica args)) ∧
      (as = (ps.flatMap Parametro.restricciones).map (uso e) ↔
        ∀ p ∈ ps, EnOrden 0 p.restricciones) := by
  refine ⟨_, parametros_texto hps ?_, flatMap_hechos_iff e ps⟩
  rw [gastados, if_pos hargs, Nat.zero_add]
  exact huno

end

/-! ## The example of the usage text -/

open Restriccion

/-- A client without privileges, at the time 10000. -/
def alguien : Lista := ⟨false, false, 10000⟩

/-- `<3,>1,C<10,T>0,#a*`. -/
def ejemplo : Parametro where
  primera := .users .menos "3".toList
  otras := [(',', .users .mas "1".toList), (',', .creation true .menos "10".toList),
    (',', .topic true .mas "0".toList), (',', .wildcard false "#a*".toList)]

theorem restricciones_iff_ejemplo :
    ∃ as : List Ajuste,
      parametros alguien true ([ejemplo].map fun p ↦ p.texto ++ [nul]) laInit =
        some (some (0, as, as.foldl Ajuste.aplica laInit)) ∧
      (as = ([ejemplo].flatMap Parametro.restricciones).map (uso alguien) ↔
        ∀ p ∈ [ejemplo], EnOrden 0 p.restricciones) := by
  refine restricciones_iff alguien true [ejemplo] laInit ?_ (by decide) rfl
  intro p hp
  rw [List.mem_singleton.mp hp]
  refine ⟨?_, by simp [ejemplo]⟩
  simp only [ejemplo, Parametro.restricciones, List.map_cons, List.map_nil, List.forall_mem_cons]
  refine ⟨⟨by decide, by simp⟩, ⟨by decide, by simp⟩, ⟨by decide, by simp⟩,
    ⟨by decide, by simp⟩, ⟨by decide, by decide, by simp [esFin, nul]⟩, by simp⟩

/-- `T<5` sets a bound of the creation time. -/
theorem not_restricciones :
    ¬ ∀ (ps : List Parametro) (args args' : ListingArgs),
      (∀ p ∈ ps, p.Bien alguien) → comodines (ps.flatMap Parametro.restricciones) ≤ 1 →
      args.wildcard = [] →
      (∃ as, parametros alguien true (ps.map fun p ↦ p.texto ++ [nul]) args =
        some (some (0, as, args'))) →
      args' = ((ps.flatMap Parametro.restricciones).map (uso alguien)).foldl Ajuste.aplica args := by
  intro h
  have heq := h [⟨.topic true .menos "5".toList, []⟩] laInit { laInit with minTime := 9700 }
    (by
      intro p hp
      rw [List.mem_singleton.mp hp]
      refine ⟨?_, by simp⟩
      simp only [Parametro.restricciones, List.map_nil, List.forall_mem_cons]
      exact ⟨⟨by decide, by simp⟩, by simp⟩)
    (by decide) rfl ⟨[.minTime 9700], by decide +kernel⟩
  revert heq
  decide +kernel

end Ircd.Channel
