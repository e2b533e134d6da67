import Ircd.Watch.Lists
import Ircd.Hash.Table
import Ircd.Lib.Buffer

/-!
# Lists without duplicates

`canonize` of `ircd/s_user.c` with `strtoken` of `ircd/support.c`, which cuts the strings in their
blocks. The list that is given and the one that is built are cut at the same time, and the second
one is put together again after each comparison. The main result, `canonize_elementos`, says what is
left in `cbuf`.
-/

namespace Ircd.User.Canonize

open CString Buffer Hash

/-! ## The two tokenizers -/

/-- The loop over the separators before a token. It gives `none` when it leaves the block. -/
def saltaSep (fs : List Char) : List Char → Option Nat
  | [] => none
  | c :: mem => if c ≠ nul ∧ c ∈ fs then (saltaSep fs mem).map (· + 1) else some 0

/-- The loop over the characters of a token. -/
def saltaFicha (fs : List Char) : List Char → Option Nat
  | [] => none
  | c :: mem => if c ≠ nul ∧ c ∉ fs then (saltaFicha fs mem).map (· + 1) else some 0

/-- `strtoken`. The result is the block, `*save` and the token. -/
def strtoken (fs mem : List Char) (save str : Option Nat) :
    Option (List Char × Option Nat × Option Nat) :=
  match str.or save with
  | none => some (mem, none, none)
  | some pos => do
      let tmp := pos + (← saltaSep fs (mem.drop pos))
      if (← mem[tmp]?) = nul then some (mem, none, none)
      else
        let fin := tmp + (← saltaFicha fs (mem.drop tmp))
        if (← mem[fin]?) = nul then some (mem, none, some tmp)
        else some (← poke mem fin nul, some (fin + 1), some tmp)

/-- `strcpy`, of a string of another block. -/
def strcpy (mem : List Char) (cp : Nat) (s : CStr) : Option (List Char) :=
  if cp + s.length < mem.length then
    some (mem.take cp ++ (s ++ nul :: mem.drop (cp + s.length + 1)))
  else none

/-- `if (p2) p2[-1] = ','`. -/
def repone (cbuf : List Char) : Option Nat → Option (List Char)
  | none => some cbuf
  | some p2 => poke cbuf (p2 - 1) ','

/-- The inner loop, which looks for `s`. The result is the block, `p2` and `t`. -/
def busca (s : CStr) : Nat → List Char → Option Nat → Option Nat →
    Option (List Char × Option Nat × Option Nat)
  | 0, _, _, _ => none
  | fuel + 1, cbuf, p2, str => do
      let (cbuf, p2, t) ← strtoken [','] cbuf p2 str
      match t with
      | none => some (cbuf, p2, none)
      | some t =>
          if strCasediff s (← cadena cbuf t) = 0 then some (cbuf, p2, some t)
          else busca s fuel (← repone cbuf p2) p2 none

/-- The two blocks and the local variables of `canonize`. -/
structure Lista where
  buffer : List Char
  cbuf : List Char
  p : Option Nat
  cp : Nat
  l : Bool

namespace Lista

/-- The inner loop, once there is an element. -/
def hallado (st : Lista) (texto : CStr) : Option (List Char × Option Nat × Option Nat) :=
  if st.l then busca texto (st.cbuf.length + 1) st.cbuf none (some 0)
  else some (st.cbuf, none, none)

/-- `if (l) *(cp - 1) = ','`. -/
def separa (st : Lista) (cbuf : List Char) : Option (List Char) :=
  if st.l then poke cbuf (st.cp - 1) ',' else some cbuf

/-- The body of the outer loop for the element at `s`. -/
def turno (st : Lista) (s : Nat) : Option Lista := do
  let texto ← cadena st.buffer s
  let (cbuf, p2, t) ← st.hallado texto
  match t with
  | none =>
      let cbuf ← strcpy (← st.separa cbuf) st.cp texto
      let cp := match st.p with
        | some p => st.cp + (p - s)
        | none => st.cp
      some { st with cbuf := cbuf, l := true, cp := cp }
  | some _ => some { st with cbuf := ← repone cbuf p2 }

/-- The outer loop. -/
def recorre : Nat → Lista → Option Nat → Option Lista
  | 0, _, _ => none
  | fuel + 1, st, str => do
      let (buffer, p, s) ← strtoken [','] st.buffer st.p str
      match s with
      | none => some { st with buffer := buffer, p := p }
      | some s => recorre fuel (← { st with buffer := buffer, p := p }.turno s) none

end Lista

/-- `canonize`, on the block of its argument and the static one. -/
def canonize (buffer cbuf : List Char) : Option (List Char × List Char) := do
  let cbuf ← poke cbuf 0 nul
  let st ← Lista.recorre (buffer.length + 1) ⟨buffer, cbuf, none, 0, false⟩ (some 0)
  some (st.buffer, st.cbuf)

/-! ## Elements -/

/-- The elements of a list that is separated by commas. -/
def elementos (text : CStr) : List CStr :=
  (text.splitOn ',').filter (· ≠ [])

/-- The first occurrence of each element, where case does not matter. -/
def distintos (es : List CStr) : List CStr :=
  es.eraseDupsBy fun a b ↦ strCasediff a b = 0

/-- A list with commas between its elements. -/
def junta (es : List CStr) : CStr :=
  [','].intercalate es

/-- The list without duplicates. -/
def canonico (text : CStr) : CStr :=
  junta (distintos (elementos text))

/-- A text that the tokenizers take for one element. -/
def Ficha (b : CStr) : Prop :=
  b ≠ [] ∧ nul ∉ b ∧ ',' ∉ b

/-! ## The rules of `strtoken` -/

variable {a b r mem : List Char} {save str : Option Nat} {o : Nat}

theorem saltaFicha_append (h : Ficha b) {c : Char} (hc : c = nul ∨ c = ',') :
    saltaFicha [','] (b ++ c :: r) = some b.length := by
  obtain ⟨-, hnul, hcoma⟩ := h
  induction b with
  | nil =>
      obtain rfl | rfl := hc <;> rfl
  | cons x b ih =>
      rw [List.mem_cons, not_or] at hnul hcoma
      have hx : x ≠ nul ∧ x ∉ [','] :=
        ⟨Ne.symm hnul.1, fun hx ↦ hcoma.1 (List.mem_singleton.mp hx).symm⟩
      rw [List.cons_append, saltaFicha, if_pos hx, ih hnul.2 hcoma.2]
      rfl

/-- At an element no separator is skipped. -/
theorem saltaSep_append (h : Ficha b) : saltaSep [','] (b ++ r) = some 0 := by
  obtain ⟨hne, -, hcoma⟩ := h
  cases b with
  | nil => exact absurd rfl hne
  | cons x b =>
      have hx : ¬(x ≠ nul ∧ x ∈ [',']) := by
        intro hx
        exact hcoma (List.mem_cons.mpr (.inl (List.mem_singleton.mp hx.2).symm))
      rw [List.cons_append, saltaSep, if_neg hx]

theorem strtoken_none : strtoken [','] mem none none = some (mem, none, none) := rfl

/-- The end of the list. -/
theorem strtoken_fin (ha : a.length = o) (h : str.or save = some o) :
    strtoken [','] (a ++ nul :: r) save str = some (a ++ nul :: r, none, none) := by
  have hsep : saltaSep [','] (nul :: r) = some 0 := rfl
  rw [strtoken, h]
  simp [← ha, hsep]

/-- A separator before the token. -/
theorem strtoken_coma (ha : a.length = o) (h : str.or save = some o) :
    strtoken [','] (a ++ ',' :: r) save str =
      strtoken [','] (a ++ ',' :: r) (some (o + 1)) none := by
  have hsep : saltaSep [','] (',' :: r) = (saltaSep [','] r).map (· + 1) := rfl
  have hdrop' : (a ++ ',' :: r).drop o = ',' :: r := by rw [← ha, List.drop_left]
  have hdrop : (a ++ ',' :: r).drop (o + 1) = r := by
    rw [← List.drop_drop, hdrop']
    rfl
  have hpos : (none : Option Nat).or (some (o + 1)) = some (o + 1) := rfl
  rw [strtoken, h, strtoken, hpos]
  simp only [hdrop, hdrop', hsep]
  cases saltaSep [','] r with
  | none => rfl
  | some n =>
      have hplaces : o + (n + 1) = o + 1 + n := by omega
      simp only [Option.map_some, Option.bind_eq_bind, Option.bind_some, hplaces]

/-- An element with its end. -/
theorem strtoken_append (ha : a.length = o) (h : str.or save = some o) (hb : Ficha b) {c : Char}
    (hc : c = nul ∨ c = ',') : strtoken [','] (a ++ (b ++ c :: r)) save str =
      if c = nul then some (a ++ (b ++ c :: r), none, some o)
      else some (a ++ (b ++ nul :: r), some (o + b.length + 1), some o) := by
  have hdrop : (a ++ (b ++ c :: r)).drop o = b ++ c :: r := by rw [← ha, List.drop_left]
  have hini : ∃ x, (a ++ (b ++ c :: r))[o]? = some x ∧ x ≠ nul := by
    obtain ⟨x, b', rfl⟩ := List.exists_cons_of_ne_nil hb.1
    refine ⟨x, by simp [← ha], fun hx ↦ hb.2.1 ?_⟩
    rw [hx]
    exact List.mem_cons_self
  obtain ⟨x, hx, hne⟩ := hini
  have hfin : (a ++ (b ++ c :: r))[o + b.length]? = some c := by
    rw [← List.append_assoc]
    simp [← ha]
  have hpoke : poke (a ++ (b ++ c :: r)) (o + b.length) nul = some (a ++ (b ++ nul :: r)) := by
    rw [← List.append_assoc, poke_append (by rw [List.length_append, ha]), List.append_assoc]
  rw [strtoken, h]
  simp only [hdrop, saltaSep_append hb, saltaFicha_append hb hc, Option.bind_eq_bind,
    Option.bind_some, Nat.add_zero, hx, hfin, hpoke, if_neg hne]

/-- The last element of the list. -/
theorem strtoken_ultima (ha : a.length = o) (h : str.or save = some o) (hb : Ficha b) :
    strtoken [','] (a ++ (b ++ nul :: r)) save str =
      some (a ++ (b ++ nul :: r), none, some o) := by
  rw [strtoken_append ha h hb (.inl rfl), if_pos rfl]

/-- An element with a comma behind it. -/
theorem strtoken_ficha (ha : a.length = o) (h : str.or save = some o) (hb : Ficha b) :
    strtoken [','] (a ++ (b ++ ',' :: r)) save str =
      some (a ++ (b ++ nul :: r), some (o + b.length + 1), some o) := by
  rw [strtoken_append ha h hb (.inr rfl), if_neg (by decide)]

theorem strcpy_append {cp : Nat} (ha : a.length = cp) (hcabe : b.length < r.length) :
    strcpy (a ++ r) cp b = some (a ++ (b ++ nul :: r.drop (b.length + 1))) := by
  have hlt : cp + b.length < (a ++ r).length := by
    rw [List.length_append]
    omega
  rw [strcpy, if_pos hlt, ← ha, List.take_left, Nat.add_assoc, ← List.drop_drop, List.drop_left]

/-! ## `strtoken` on texts -/

/-- The loop over the separators ends where they do. -/
theorem saltaSep_eq {fs s : List Char} (hs : nul ∉ s) (r : List Char) :
    saltaSep fs (s ++ nul :: r) = some (s.takeWhile (· ∈ fs)).length := by
  induction s with
  | nil => simp [saltaSep]
  | cons c s ih =>
      obtain ⟨hc, hs⟩ := not_or.mp (List.mem_cons.not.mp hs)
      rw [List.cons_append, saltaSep, List.takeWhile_cons]
      by_cases hmem : c ∈ fs
      · rw [if_pos ⟨Ne.symm hc, hmem⟩, ih hs, if_pos (decide_eq_true hmem)]
        rfl
      · rw [if_neg fun h ↦ hmem h.2, if_neg (by simpa using hmem)]
        rfl

/-- The loop over the characters of a token ends where the token does. -/
theorem saltaFicha_eq {fs s : List Char} (hs : nul ∉ s) (r : List Char) :
    saltaFicha fs (s ++ nul :: r) = some (s.takeWhile (· ∉ fs)).length := by
  induction s with
  | nil => simp [saltaFicha]
  | cons c s ih =>
      obtain ⟨hc, hs⟩ := not_or.mp (List.mem_cons.not.mp hs)
      rw [List.cons_append, saltaFicha, List.takeWhile_cons]
      by_cases hmem : c ∈ fs
      · rw [if_neg fun h ↦ h.2 hmem, if_neg (by simpa using hmem)]
        rfl
      · rw [if_pos ⟨Ne.symm hc, hmem⟩, ih hs, if_pos (decide_eq_true hmem)]
        rfl

/-- The token that is cut off in the block, and what is left behind it, are those of the text. -/
theorem strtoken_watch {fs s : List Char} (ha : a.length = o) (h : str.or save = some o)
    (hs : nul ∉ s) :
    ∃ mem' save' t, strtoken fs (a ++ (s ++ nul :: r)) save str = some (mem', save', t) ∧
      t.bind (cadena mem') = (Watch.strtoken fs s).map Prod.fst ∧
      ∀ rest ∈ (Watch.strtoken fs s).map Prod.snd,
        save'.elim (some []) (cadena mem') = some rest := by
  have hdrop : (a ++ (s ++ nul :: r)).drop o = s ++ nul :: r := by rw [← ha, List.drop_left]
  have hsep := @saltaSep_eq fs s hs r
  have hparts := List.takeWhile_append_dropWhile (p := (· ∈ fs)) (l := s)
  generalize s.takeWhile (· ∈ fs) = p at hsep hparts
  generalize hresto : s.dropWhile (· ∈ fs) = u at hparts
  have hp : (a ++ p).length = o + p.length := by rw [List.length_append, ha]
  have hmem : a ++ (s ++ nul :: r) = a ++ p ++ (u ++ nul :: r) := by
    rw [← hparts]
    simp only [List.append_assoc]
  have hu : nul ∉ u := fun hu ↦ hs (hparts ▸ List.mem_append_right p hu)
  have hdrop' : (a ++ (s ++ nul :: r)).drop (o + p.length) = u ++ nul :: r := by
    rw [hmem, ← hp, List.drop_left]
  have hini : (a ++ (s ++ nul :: r))[o + p.length]? = (u ++ nul :: r).head? := by
    rw [← List.head?_drop, hdrop']
  rw [strtoken, h]
  simp only [hdrop, hsep, hini, hdrop', Option.bind_eq_bind, Option.bind_some]
  cases u with
  | nil =>
      rw [Watch.strtoken_eq_none hresto]
      exact ⟨a ++ (s ++ nul :: r), none, none, by simp, rfl, nofun⟩
  | cons c pos =>
      have hc : c ≠ nul := fun hc ↦ hu (hc ▸ List.mem_cons_self)
      have hficha := @saltaFicha_eq fs (c :: pos) hu r
      have hcorta := List.takeWhile_append_dropWhile (p := (· ∉ fs)) (l := c :: pos)
      rw [Watch.strtoken_eq_some hresto]
      generalize (c :: pos).takeWhile (· ∉ fs) = v at hficha hcorta ⊢
      generalize (c :: pos).dropWhile (· ∉ fs) = w at hcorta ⊢
      have hv : nul ∉ v := fun hv ↦ hu (hcorta ▸ List.mem_append_left w hv)
      have hmem' : a ++ (s ++ nul :: r) = a ++ p ++ v ++ (w ++ nul :: r) := by
        rw [hmem, ← hcorta]
        simp only [List.append_assoc]
      have hpv : (a ++ p ++ v).length = o + p.length + v.length := by rw [List.length_append, hp]
      have hfin : (a ++ (s ++ nul :: r))[o + p.length + v.length]? = (w ++ nul :: r).head? := by
        rw [← List.head?_drop, hmem', ← hpv, List.drop_left]
      have hhead : (c :: pos ++ nul :: r).head? = some c := rfl
      simp only [hhead, hficha, hfin, Option.bind_some, if_neg hc]
      cases w with
      | nil =>
          refine ⟨a ++ (s ++ nul :: r), none, some (o + p.length), by simp, ?_, ?_⟩
          · rw [hmem', List.nil_append, List.append_assoc (a ++ p)]
            exact cadena_append hp hv
          · intro rest hrest
            cases hrest
            rfl
      | cons d w =>
          have hw : nul ∉ w := fun hw ↦
            hu (hcorta ▸ List.mem_append_right v (List.mem_cons_of_mem d hw))
          have hd : d ≠ nul := fun hd ↦
            hu (hcorta ▸ List.mem_append_right v (hd ▸ List.mem_cons_self))
          have hpoke : poke (a ++ (s ++ nul :: r)) (o + p.length + v.length) nul =
              some (a ++ p ++ v ++ nul :: (w ++ nul :: r)) := by
            rw [hmem', List.cons_append]
            exact poke_append hpv
          refine ⟨a ++ p ++ v ++ nul :: (w ++ nul :: r), some (o + p.length + v.length + 1),
            some (o + p.length), ?_, ?_, ?_⟩
          · simp [hd, hpoke]
          · rw [List.append_assoc (a ++ p)]
            exact cadena_append hp hv
          · intro rest hrest
            cases hrest
            have hone : (a ++ p ++ v ++ [nul]).length = o + p.length + v.length + 1 := by
              rw [List.length_append, hpv]
              rfl
            have hblock : a ++ p ++ v ++ nul :: (w ++ nul :: r) =
                a ++ p ++ v ++ [nul] ++ (w ++ nul :: r) := by simp
            rw [hblock]
            exact cadena_append hone hw

/-! ## The list that is built -/

theorem junta_singleton (b : CStr) : junta [b] = b :=
  List.intercalate_singleton

theorem junta_cons {b : CStr} {es : List CStr} (h : es ≠ []) :
    junta (b :: es) = b ++ ',' :: junta es := by
  rw [junta, List.intercalate_cons_of_ne_nil h, List.append_assoc]
  rfl

theorem junta_concat {es : List CStr} (h : es ≠ []) (b : CStr) :
    junta (es ++ [b]) = junta es ++ ',' :: b := by
  induction es with
  | nil => exact absurd rfl h
  | cons e es ih =>
      cases es with
      | nil =>
          rw [List.singleton_append, junta_cons (List.cons_ne_nil _ _), junta_singleton,
            junta_singleton]
      | cons e' es =>
          rw [List.cons_append, junta_cons (by simp), ih (List.cons_ne_nil _ _),
            junta_cons (List.cons_ne_nil _ _), List.append_assoc, List.cons_append]

/-- The inner loop looks at each element and leaves the list as it has found it, up to the comma
behind the element it stops at. -/
theorem busca_junta (s : CStr) {es : List CStr} (hes : es ≠ []) (hficha : ∀ e ∈ es, Ficha e)
    {fuel : Nat} (hfuel : es.length < fuel) (ha : a.length = o) (h : str.or save = some o) :
    ∃ cbuf p2 t, busca s fuel (a ++ (junta es ++ nul :: r)) save str = some (cbuf, p2, t) ∧
      repone cbuf p2 = some (a ++ (junta es ++ nul :: r)) ∧ (t = none → p2 = none) ∧
      (t ≠ none ↔ ∃ e ∈ es, strCasediff s e = 0) := by
  induction es generalizing a o save str fuel with
  | nil => exact absurd rfl hes
  | cons e es ih =>
      obtain ⟨fuel, rfl⟩ : ∃ n, fuel = n + 1 := ⟨fuel - 1, by omega⟩
      have he := hficha e List.mem_cons_self
      cases es with
      | nil =>
          have hlee : cadena (a ++ (e ++ nul :: r)) o = some e := cadena_append ha he.2.1
          rw [junta_singleton, busca, strtoken_ultima ha h he]
          simp only [Option.bind_eq_bind, Option.bind_some, hlee]
          by_cases hcase : strCasediff s e = 0
          · rw [if_pos hcase]
            exact ⟨_, _, _, rfl, rfl, fun _ ↦ rfl, iff_of_true (by simp) ⟨e, by simp, hcase⟩⟩
          · obtain ⟨fuel, rfl⟩ : ∃ n, fuel = n + 1 :=
              ⟨fuel - 1, by rw [List.length_singleton] at hfuel; omega⟩
            rw [if_neg hcase]
            refine ⟨_, _, _, rfl, rfl, fun _ ↦ rfl, iff_of_false (by simp) ?_⟩
            simpa using hcase
      | cons e' es =>
          have hcons : a ++ (junta (e :: e' :: es) ++ nul :: r) =
              a ++ (e ++ ',' :: (junta (e' :: es) ++ nul :: r)) := by
            rw [junta_cons (List.cons_ne_nil _ _), List.append_assoc, List.cons_append]
          have hlee : cadena (a ++ (e ++ nul :: (junta (e' :: es) ++ nul :: r))) o = some e :=
            cadena_append ha he.2.1
          have hrepone : repone (a ++ (e ++ nul :: (junta (e' :: es) ++ nul :: r)))
              (some (o + e.length + 1)) =
              some (a ++ (e ++ ',' :: (junta (e' :: es) ++ nul :: r))) := by
            rw [repone, Nat.add_sub_cancel, ← List.append_assoc,
              poke_append (by rw [List.length_append, ha]), List.append_assoc]
          rw [hcons, busca, strtoken_ficha ha h he]
          simp only [Option.bind_eq_bind, Option.bind_some, hlee, hrepone]
          by_cases hcase : strCasediff s e = 0
          · rw [if_pos hcase]
            exact ⟨_, _, _, rfl, hrepone, fun ht ↦ absurd ht (by simp),
              iff_of_true (by simp) ⟨e, by simp, hcase⟩⟩
          · have hsig : a ++ (e ++ ',' :: (junta (e' :: es) ++ nul :: r)) =
                (a ++ (e ++ [','])) ++ (junta (e' :: es) ++ nul :: r) := by
              simp
            have hlargo : (a ++ (e ++ [','])).length = o + e.length + 1 := by
              simp [← ha, Nat.add_assoc]
            rw [if_neg hcase, hsig]
            have hpos : (none : Option Nat).or (some (o + e.length + 1)) =
                some (o + e.length + 1) := rfl
            obtain ⟨cbuf, p2, t, hbusca, hfin, hnone, hiff⟩ :=
              ih (List.cons_ne_nil _ _) (fun x hx ↦ hficha x (List.mem_cons_of_mem _ hx))
                (Nat.lt_of_succ_lt_succ hfuel) hlargo hpos
            refine ⟨cbuf, p2, t, hbusca, hfin, hnone, hiff.trans ?_⟩
            simp only [List.mem_cons, exists_eq_or_imp, hcase, false_or]

/-! ## The outer loop -/

/-- An element is put at the end of the list, unless it is there already. -/
def anota (es : List CStr) (e : CStr) : List CStr :=
  if ∃ x ∈ es, strCasediff e x = 0 then es else es ++ [e]

/-- The place where the next element of a list goes. -/
def sitio (es : List CStr) : Nat :=
  (es.map fun e ↦ e.length + 1).sum

theorem sitio_eq {es : List CStr} (h : es ≠ []) : sitio es = (junta es).length + 1 := by
  induction es with
  | nil => exact absurd rfl h
  | cons e es ih =>
      cases es with
      | nil => simp [sitio, junta_singleton]
      | cons e' es =>
          have hsitio : sitio (e :: e' :: es) = e.length + 1 + sitio (e' :: es) := rfl
          rw [hsitio, ih (List.cons_ne_nil _ _), junta_cons (List.cons_ne_nil _ _),
            List.length_append, List.length_cons]
          omega

theorem length_le_sitio (es : List CStr) : es.length ≤ sitio es := by
  induction es with
  | nil => exact Nat.le_refl 0
  | cons e es ih =>
      have hsitio : sitio (e :: es) = e.length + 1 + sitio es := rfl
      rw [hsitio, List.length_cons]
      omega

/-- What `cbuf` holds of the elements that have been met. -/
structure Vistos (es : List CStr) (cbuf : List Char) : Prop where
  fichas : ∀ e ∈ es, Ficha e
  texto : ∃ r, cbuf = junta es ++ nul :: r

theorem length_strcpy {mem' : List Char} {cp : Nat} (h : strcpy mem cp b = some mem') :
    mem'.length = mem.length := by
  rw [strcpy, Option.ite_none_right_eq_some] at h
  obtain ⟨hlt, hmem⟩ := h
  rw [← Option.some.inj hmem, List.length_append, List.length_append, List.length_cons,
    List.length_take, List.length_drop]
  omega

/-- A new element goes behind the last one, with a comma between them. -/
theorem copia_junta {st : Lista} {es : List CStr} {cbuf : List Char}
    (hr : cbuf = junta es ++ nul :: r) (hcp : st.cp = sitio es) (hl : st.l = decide (es ≠ []))
    (hcabe : st.cp + b.length < cbuf.length) :
    ∃ cbuf' r', st.separa cbuf = some cbuf' ∧
      strcpy cbuf' st.cp b = some (junta (es ++ [b]) ++ nul :: r') ∧
      cbuf'.length = cbuf.length := by
  subst hr
  rw [hcp] at hcabe
  rw [Lista.separa, hl, hcp]
  obtain rfl | hne := eq_or_ne es []
  · refine ⟨nul :: r, (nul :: r).drop (b.length + 1), rfl, ?_, rfl⟩
    rw [List.nil_append, junta_singleton]
    refine strcpy_append (a := []) rfl ?_
    simpa [sitio, junta] using hcabe
  · have hsitio := sitio_eq hne
    have hlibre : b.length < r.length := by
      rw [hsitio, List.length_append, List.length_cons] at hcabe
      omega
    have hcoma : junta es ++ ',' :: r = (junta es ++ [',']) ++ r := by simp
    refine ⟨junta es ++ ',' :: r, r.drop (b.length + 1), ?_, ?_, by simp⟩
    · rw [if_pos (decide_eq_true hne), hsitio, Nat.add_sub_cancel]
      exact poke_append rfl
    · rw [hcoma, strcpy_append (by rw [hsitio]; simp) hlibre, junta_concat hne]
      simp

/-- The search for an element among those of the list. -/
theorem busca_vistos {es : List CStr} {cbuf : List Char} (hes : es ≠ [])
    (hficha : ∀ e ∈ es, Ficha e) (hr : cbuf = junta es ++ nul :: r) :
    ∃ cbuf' p2 t, busca b (cbuf.length + 1) cbuf none (some 0) = some (cbuf', p2, t) ∧
      repone cbuf' p2 = some cbuf ∧ (t = none → p2 = none) ∧
      (t ≠ none ↔ ∃ e ∈ es, strCasediff b e = 0) := by
  have hfuel : es.length < cbuf.length + 1 := by
    have hle := length_le_sitio es
    have hsitio := sitio_eq hes
    rw [hr, List.length_append, List.length_cons]
    omega
  have hinicio : (some 0 : Option Nat).or none = some 0 := rfl
  have hbusca := busca_junta b hes hficha hfuel List.length_nil hinicio (r := r)
  rwa [List.nil_append, ← hr] at hbusca

theorem anota_ne_nil (es : List CStr) (e : CStr) : anota es e ≠ [] := by
  rw [anota]
  split
  · next h => exact List.ne_nil_of_mem h.choose_spec.1
  · simp

theorem sitio_anota (es : List CStr) (e : CStr) : sitio (anota es e) =
    if ∃ x ∈ es, strCasediff e x = 0 then sitio es else sitio es + (e.length + 1) := by
  rw [anota]
  split
  · rfl
  · simp [sitio]

/-- One element of the list. -/
theorem turno_anota (st : Lista) {es : List CStr} (hv : Vistos es st.cbuf) (hcp : st.cp = sitio es)
    (hl : st.l = decide (es ≠ [])) (hb : Ficha b) {s : Nat} (hs : cadena st.buffer s = some b)
    (hcabe : st.cp + b.length < st.cbuf.length) :
    ∃ st', st.turno s = some st' ∧ st'.buffer = st.buffer ∧ st'.p = st.p ∧ st'.l = true ∧
      st'.cbuf.length = st.cbuf.length ∧ Vistos (anota es b) st'.cbuf ∧
      (st.p = some (s + b.length + 1) → st'.cp = sitio (anota es b)) := by
  obtain ⟨hfichas, r, hr⟩ := hv
  by_cases hvisto : ∃ x ∈ es, strCasediff b x = 0
  · have hes : es ≠ [] := List.ne_nil_of_mem hvisto.choose_spec.1
    obtain ⟨cbuf', p2, t, hbusca, hrepone, -, hiff⟩ := busca_vistos hes hfichas hr
    obtain ⟨t, rfl⟩ := Option.ne_none_iff_exists'.mp (hiff.mpr hvisto)
    have hl' : st.l = true := hl.trans (decide_eq_true hes)
    refine ⟨{ st with cbuf := st.cbuf }, ?_, rfl, rfl, hl', rfl, ?_, fun _ ↦ ?_⟩
    · simp only [Lista.turno, Lista.hallado, hs, if_pos hl', hbusca, hrepone, Option.bind_eq_bind,
        Option.bind_some]
    · rw [anota, if_pos hvisto]
      exact ⟨hfichas, r, hr⟩
    · rw [sitio_anota, if_pos hvisto]
      exact hcp
  · obtain ⟨cbuf, r', hcoma, hcopia, hlargo⟩ := copia_junta hr hcp hl hcabe
    have hbusca : st.hallado b = some (st.cbuf, none, none) := by
      rw [Lista.hallado]
      split
      · next hl' =>
          have hes : es ≠ [] := of_decide_eq_true (hl.symm.trans hl')
          obtain ⟨cbuf', p2, t, hbusca, hrepone, hnone, hiff⟩ := busca_vistos hes hfichas hr
          obtain rfl : t = none := by
            by_contra ht
            exact hvisto (hiff.mp ht)
          rw [hnone rfl] at hbusca hrepone
          rw [hbusca, Option.some.inj hrepone]
      · rfl
    refine ⟨{ st with
      cbuf := junta (es ++ [b]) ++ nul :: r'
      l := true
      cp := match st.p with
        | some p => st.cp + (p - s)
        | none => st.cp }, ?_, rfl, rfl, rfl, (length_strcpy hcopia).trans hlargo, ?_, fun hp ↦ ?_⟩
    · simp only [Lista.turno, hs, hbusca, hcoma, hcopia, Option.bind_eq_bind, Option.bind_some]
    · rw [anota, if_neg hvisto]
      refine ⟨fun e he ↦ ?_, r', rfl⟩
      obtain he | rfl := (List.mem_append.mp he).imp_right List.mem_singleton.mp
      · exact hfichas e he
      · exact hb
    · rw [sitio_anota, if_neg hvisto, ← hcp]
      simp only [hp]
      omega

/-! ## The elements of a text -/

/-- A text is an element, or an element, a comma and a text; an element may be empty here. -/
theorem texto_induction {motive : CStr → Prop} (ultimo : ∀ b, ',' ∉ b → motive b)
    (mas : ∀ b t, ',' ∉ b → motive t → motive (b ++ ',' :: t)) (text : CStr) : motive text := by
  induction hn : text.length using Nat.strong_induction_on generalizing text with
  | _ n ih =>
      by_cases hmem : ',' ∈ text
      · obtain ⟨b, t, rfl, hb⟩ := List.eq_append_cons_of_mem hmem
        refine mas b t hb (ih t.length ?_ t rfl)
        rw [← hn, List.length_append, List.length_cons]
        omega
      · exact ultimo text hmem

theorem elementos_ultimo (hb : ',' ∉ b) : elementos b = if b = [] then [] else [b] := by
  rw [elementos, List.splitOn_eq_singleton hb]
  by_cases h : b = [] <;> simp [h]

theorem elementos_mas (hb : ',' ∉ b) (t : CStr) :
    elementos (b ++ ',' :: t) = (if b = [] then [] else [b]) ++ elementos t := by
  rw [elementos, List.splitOn_append_cons_self_of_not_mem hb]
  by_cases h : b = [] <;> simp [h, elementos]

/-- The outer loop notes the elements of the text it has still to cut. -/
theorem recorre_elementos (text : CStr) (fuel : Nat) (st : Lista) (str : Option Nat)
    {es : List CStr} (hfuel : text.length + 2 ≤ fuel) (htext : nul ∉ text) (ha : a.length = o)
    (hbuf : st.buffer = a ++ (text ++ nul :: r)) (hpos : str.or st.p = some o)
    (hv : Vistos es st.cbuf) (hcp : st.cp = sitio es) (hl : st.l = decide (es ≠ []))
    (hcabe : st.cp + text.length < st.cbuf.length) :
    ∃ st', Lista.recorre fuel st str = some st' ∧ st'.cbuf.length = st.cbuf.length ∧
      Vistos ((elementos text).foldl anota es) st'.cbuf := by
  induction text using texto_induction generalizing fuel st es a o str with
  | ultimo b hb =>
      obtain ⟨fuel, rfl⟩ : ∃ n, fuel = n + 1 := ⟨fuel - 1, by omega⟩
      by_cases hnil : b = []
      · subst hnil
        rw [List.nil_append] at hbuf
        refine ⟨{ st with buffer := a ++ nul :: r, p := none }, ?_, rfl, ?_⟩
        · rw [Lista.recorre, hbuf, strtoken_fin ha hpos]
          rfl
        · rwa [elementos_ultimo hb, if_pos rfl]
      · have hficha : Ficha b := ⟨hnil, htext, hb⟩
        obtain ⟨fuel, rfl⟩ : ∃ n, fuel = n + 1 := ⟨fuel - 1, by omega⟩
        have hlee : cadena (a ++ (b ++ nul :: r)) o = some b := cadena_append ha htext
        obtain ⟨st', hturno, -, hp, -, hlargo, hvistos, -⟩ := turno_anota
          { st with buffer := a ++ (b ++ nul :: r), p := none } hv hcp hl hficha hlee hcabe
        refine ⟨{ st' with buffer := st'.buffer, p := none }, ?_, hlargo, ?_⟩
        · rw [Lista.recorre, hbuf, strtoken_ultima ha hpos hficha]
          simp only [Option.bind_eq_bind, Option.bind_some, hturno, Lista.recorre, hp]
          rw [strtoken_none]
          rfl
        · rwa [elementos_ultimo hb, if_neg hnil, List.foldl_cons, List.foldl_nil]
  | mas b t hb ih =>
      obtain ⟨fuel, rfl⟩ : ∃ n, fuel = n + 1 := ⟨fuel - 1, by omega⟩
      rw [List.mem_append, List.mem_cons, not_or, not_or] at htext
      rw [List.length_append, List.length_cons] at hfuel hcabe
      by_cases hnil : b = []
      · subst hnil
        have hsalta : Lista.recorre (fuel + 1) st str =
            Lista.recorre (fuel + 1) { st with p := some (o + 1) } none := by
          rw [Lista.recorre, Lista.recorre, hbuf]
          exact congrArg (· >>= _) (strtoken_coma ha hpos)
        have hbuf' : st.buffer = (a ++ [',']) ++ (t ++ nul :: r) := by
          rw [hbuf]
          simp
        rw [hsalta, elementos_mas hb, if_pos rfl, List.nil_append]
        rw [List.length_nil] at hfuel hcabe
        have hcabe' : st.cp + t.length < st.cbuf.length := by omega
        exact ih _ _ _ (by omega) htext.2.2 (by simp [ha]) hbuf' rfl hv hcp hl hcabe'
      · have hficha : Ficha b := ⟨hnil, htext.1, hb⟩
        have hlee : cadena (a ++ (b ++ nul :: (t ++ nul :: r))) o = some b :=
          cadena_append ha htext.1
        obtain ⟨st', hturno, hbuf', hp, hl', hlargo, hvistos, hcp'⟩ := turno_anota
          { st with
            buffer := a ++ (b ++ nul :: (t ++ nul :: r))
            p := some (o + b.length + 1) } hv hcp hl hficha hlee (by simp only; omega)
        have hbuf'' : st'.buffer = (a ++ (b ++ [nul])) ++ (t ++ nul :: r) := by
          rw [hbuf']
          simp
        have hlargo' : (a ++ (b ++ [nul])).length = o + b.length + 1 := by
          simp [ha, Nat.add_assoc]
        have hcabe' : st'.cp + t.length < st'.cbuf.length := by
          have hsitio := sitio_anota es b
          rw [hcp' rfl, hlargo]
          simp only
          split at hsitio <;> omega
        have hpos' : (none : Option Nat).or st'.p = some (o + b.length + 1) := by
          rw [hp]
          rfl
        have hfuel' : t.length + 2 ≤ fuel := by omega
        obtain ⟨fin, hrecorre, hlargo'', hvistos'⟩ := ih _ _ _ hfuel' htext.2.2 hlargo' hbuf''
          hpos' hvistos (hcp' rfl) (by rw [hl', decide_eq_true (anota_ne_nil es b)]) hcabe'
        refine ⟨fin, ?_, hlargo''.trans hlargo, ?_⟩
        · have hcons : b ++ ',' :: t ++ nul :: r = b ++ ',' :: (t ++ nul :: r) := by simp
          rw [Lista.recorre, hbuf, hcons, strtoken_ficha ha hpos hficha]
          simp only [Option.bind_eq_bind, Option.bind_some, hturno]
          exact hrecorre
        · rwa [elementos_mas hb, if_neg hnil, List.singleton_append, List.foldl_cons]

/-! ## The list without duplicates -/

/-- The loop notes the first occurrence of each element. -/
theorem foldl_anota (es : List CStr) : es.foldl anota [] = distintos es := by
  have hloop : ∀ vistos, es.foldl anota vistos =
      List.eraseDupsBy.loop (fun a b ↦ decide (strCasediff a b = 0)) es vistos.reverse := by
    induction es with
    | nil => exact fun vistos ↦ (List.reverse_reverse vistos).symm
    | cons e es ih =>
        intro vistos
        have hany : (vistos.reverse.any fun x ↦ decide (strCasediff e x = 0)) = true ↔
            ∃ x ∈ vistos, strCasediff e x = 0 := by
          simp
        rw [List.foldl_cons, ih, List.eraseDupsBy.loop, anota]
        by_cases h : ∃ x ∈ vistos, strCasediff e x = 0
        · rw [if_pos h, hany.mpr h]
        · rw [if_neg h, Bool.eq_false_of_not_eq_true (mt hany.mp h), List.reverse_append]
          rfl
  exact hloop []

/-- No element is there twice. -/
def Sueltos (es : List CStr) : Prop :=
  es.Pairwise fun a b ↦ strCasediff b a ≠ 0

theorem sueltos_anota {es : List CStr} (h : Sueltos es) (e : CStr) : Sueltos (anota es e) := by
  rw [anota]
  split
  · exact h
  · next hno =>
      refine List.pairwise_append.mpr ⟨h, List.pairwise_singleton _ _, fun x hx y hy heq ↦ ?_⟩
      obtain rfl := List.mem_singleton.mp hy
      exact hno ⟨x, hx, heq⟩

theorem sueltos_foldl (es : List CStr) {vistos : List CStr} (h : Sueltos vistos) :
    Sueltos (es.foldl anota vistos) := by
  induction es generalizing vistos with
  | nil => exact h
  | cons e es ih => exact ih (sueltos_anota h e)

/-- Elements that are all different are all noted. -/
theorem foldl_of_sueltos {es vistos : List CStr} (h : Sueltos (vistos ++ es)) :
    es.foldl anota vistos = vistos ++ es := by
  induction es generalizing vistos with
  | nil => exact (List.append_nil _).symm
  | cons e es ih =>
      have hnuevo : ¬∃ x ∈ vistos, strCasediff e x = 0 := by
        intro hex
        obtain ⟨x, hx, heq⟩ := hex
        exact (List.pairwise_append.mp h).2.2 x hx e List.mem_cons_self heq
      rw [List.foldl_cons, anota, if_neg hnuevo, ih (by rwa [← List.append_cons]),
        ← List.append_cons]

theorem mem_foldl_anota {es vistos : List CStr} {e : CStr} (h : e ∈ es.foldl anota vistos) :
    e ∈ vistos ∨ e ∈ es := by
  induction es generalizing vistos with
  | nil => exact .inl h
  | cons x es ih =>
      obtain h | h := ih h
      · rw [anota] at h
        split at h
        · exact .inl h
        · rw [List.mem_append, List.mem_singleton] at h
          obtain h | rfl := h
          · exact .inl h
          · exact .inr List.mem_cons_self
      · exact .inr (List.mem_cons_of_mem _ h)

theorem ficha_of_mem_elementos {text : CStr} (htext : nul ∉ text) :
    ∀ e ∈ elementos text, Ficha e := by
  induction text using texto_induction with
  | ultimo b hb =>
      intro e he
      rw [elementos_ultimo hb] at he
      split at he
      · cases he
      · next hne =>
          rw [List.mem_singleton.mp he]
          exact ⟨hne, htext, hb⟩
  | mas b t hb ih =>
      rw [List.mem_append, List.mem_cons, not_or, not_or] at htext
      intro e he
      rw [elementos_mas hb, List.mem_append] at he
      obtain he | he := he
      · split at he
        · cases he
        · next hne =>
            rw [List.mem_singleton.mp he]
            exact ⟨hne, htext.1, hb⟩
      · exact ih htext.2.2 e he

theorem ficha_of_mem_distintos {text : CStr} (htext : nul ∉ text) :
    ∀ e ∈ distintos (elementos text), Ficha e := by
  intro e he
  rw [← foldl_anota] at he
  obtain hno | he := mem_foldl_anota he
  · cases hno
  · exact ficha_of_mem_elementos htext e he

/-- The elements of a list that has been put together. -/
theorem elementos_junta {es : List CStr} (h : ∀ e ∈ es, Ficha e) : elementos (junta es) = es := by
  obtain rfl | hne := eq_or_ne es []
  · rfl
  · rw [elementos, junta, List.splitOn_intercalate ',' (fun e he ↦ (h e he).2.2) hne]
    exact List.filter_eq_self.mpr fun e he ↦ decide_eq_true (h e he).1

/-- The list without duplicates has none. -/
theorem canonico_canonico {text : CStr} (htext : nul ∉ text) :
    canonico (canonico text) = canonico text := by
  have hsueltos : Sueltos (distintos (elementos text)) := by
    rw [← foldl_anota]
    exact sueltos_foldl _ List.Pairwise.nil
  rw [canonico, canonico, elementos_junta (ficha_of_mem_distintos htext),
    ← foldl_anota (distintos _), foldl_of_sueltos hsueltos, List.nil_append]

theorem nul_not_mem_junta {es : List CStr} (h : ∀ e ∈ es, Ficha e) : nul ∉ junta es := by
  induction es with
  | nil => simp [junta]
  | cons e es ih =>
      have hes := ih fun x hx ↦ h x (List.mem_cons_of_mem _ hx)
      have he := (h e List.mem_cons_self).2.1
      cases es with
      | nil => rwa [junta_singleton]
      | cons e' es =>
          rw [junta_cons (List.cons_ne_nil _ _), List.mem_append, List.mem_cons, not_or, not_or]
          exact ⟨he, by decide, hes⟩

/-- `canonize` leaves the list without duplicates in `cbuf`. -/
theorem canonize_spec {text : CStr} (resto : List Char) {cbuf : List Char} (htext : nul ∉ text)
    (hcabe : text.length < cbuf.length) :
    ∃ buffer' cbuf', canonize (text ++ nul :: resto) cbuf = some (buffer', cbuf') ∧
      cbuf'.length = cbuf.length ∧ ∃ r, cbuf' = canonico text ++ nul :: r := by
  obtain ⟨c, cs, rfl⟩ := List.exists_cons_of_length_pos (Nat.zero_lt_of_lt hcabe)
  have hpoke : poke (c :: cs) 0 nul = some (nul :: cs) := poke_append (a := []) rfl
  have hvistos : Vistos [] (nul :: cs) := ⟨fun e he ↦ (List.not_mem_nil he).elim, cs, rfl⟩
  obtain ⟨st, hrecorre, hlargo, -, r, hr⟩ := recorre_elementos text
    ((text ++ nul :: resto).length + 1) ⟨text ++ nul :: resto, nul :: cs, none, 0, false⟩ (some 0)
    (by simp) htext (a := []) rfl rfl rfl hvistos rfl rfl (by simpa using hcabe)
  refine ⟨st.buffer, st.cbuf, ?_, hlargo, r, ?_⟩
  · rw [canonize, hpoke]
    simp only [Option.bind_eq_bind, Option.bind_some, hrecorre]
  · rw [hr, foldl_anota]
    rfl

/-- `canonize` of a list that fits into `cbuf` gives its elements, each at its first occurrence up
to case, stays inside the blocks, and changes nothing in a list that it has given. -/
theorem canonize_elementos {text : CStr} (resto cbuf : List Char) (htext : nul ∉ text)
    (hcabe : text.length < cbuf.length) :
    (∃ buffer' cbuf', canonize (text ++ nul :: resto) cbuf = some (buffer', cbuf') ∧
      cbuf'.length = cbuf.length ∧ cadena cbuf' 0 = some (junta (distintos (elementos text)))) ∧
    ∀ resto₂ cbuf₂ : List Char, cbuf₂.length = cbuf.length →
      ∃ buffer' cbuf', canonize (canonico text ++ nul :: resto₂) cbuf₂ = some (buffer', cbuf') ∧
        cadena cbuf' 0 = some (canonico text) := by
  have hnul : nul ∉ canonico text := nul_not_mem_junta (ficha_of_mem_distintos htext)
  obtain ⟨buffer, cbuf', hcanonize, hlargo, r, hr⟩ := canonize_spec resto htext hcabe
  refine ⟨⟨buffer, cbuf', hcanonize, hlargo, ?_⟩, fun resto₂ cbuf₂ hlargo₂ ↦ ?_⟩
  · rw [hr]
    exact cadena_zero hnul
  · have hcabe₂ : (canonico text).length < cbuf₂.length := by
      rw [hr, List.length_append, List.length_cons] at hlargo
      omega
    obtain ⟨buffer₂, cbuf'', hcanonize₂, -, r₂, hr₂⟩ := canonize_spec resto₂ hnul hcabe₂
    refine ⟨buffer₂, cbuf'', hcanonize₂, ?_⟩
    rw [hr₂, canonico_canonico htext]
    exact cadena_zero hnul

/-- A channel that is given twice. -/
theorem canonize_elementos_canales :
    nul ∉ ['#', 'a', ',', '#', 'A'] ∧ ∃ buffer' cbuf',
      canonize ['#', 'a', ',', '#', 'A', nul] (List.replicate 8 nul) = some (buffer', cbuf') ∧
        cbuf'.length = 8 ∧ cadena cbuf' 0 = some ['#', 'a'] := by
  have hnul : nul ∉ ['#', 'a', ',', '#', 'A'] := by decide
  exact ⟨hnul, (canonize_elementos [] (List.replicate 8 nul) hnul (by decide)).1⟩

end Ircd.User.Canonize
