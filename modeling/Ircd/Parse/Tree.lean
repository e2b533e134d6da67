import Ircd.Hash.Table
import Mathlib.Tactic.SplitIfs

/-!
# The trees of commands and tokens

`doMsgTreeCmd` and `doMsgTreeTok` build the trees of `ircd/parse.c` from sorted tables, and
`msgTreeParse` and `msgTreeParseClient` look a command up in them. `none` stands for an access
outside of an array, or for `exit`. `construye_doMsgTree` says what is in the tree below a prefix. The
main theorem, `arboles_exactos`, says that the trees recognise the commands of their tables and
nothing else, up to letter case, when two commands at least are in the table and they differ early
enough for the array `newprefix`.
-/

namespace Ircd.Parse

open CString

/-- An entry of `msgtab`. -/
structure Message where
  cmd : CStr
  tok : CStr
  deriving DecidableEq

/-- `struct MessageTree`, over any kind of entry. `none` is `NULL`; `msg` is not set where `final`
is `NULL`. -/
inductive MessageTree (ε : Type) where
  | node (final : Option CStr) (msg : Option ε) (pointers : List (Option (MessageTree ε)))

/-! ## Looking up -/

/-- `strCasediff`, with the second text in memory. -/
def strCasediff : CStr → List Char → Option Bool
  | _, [] => none
  | [], c :: _ => some (toLower nul ≠ toLower c)
  | a :: as, c :: mem => if toLower a = toLower c then strCasediff as mem else some true

/-- It reads no further than the terminators. -/
theorem strCasediff_memory {as bs : CStr} (has : nul ∉ as) (hbs : nul ∉ bs) (rest : List Char) :
    strCasediff as (bs ++ nul :: rest) = some (decide (Hash.strCasediff as bs ≠ 0)) := by
  induction as generalizing bs with
  | nil =>
      cases bs with
      | nil => simp [strCasediff, Hash.strCasediff]
      | cons b bs =>
          have hb : toLower nul ≠ toLower b := by
            intro heq
            refine hbs (List.mem_cons.mpr (.inl ?_))
            exact (toLower_eq_nul.mp (heq.symm.trans (toLower_eq_nul.mpr rfl))).symm
          simp [strCasediff, Hash.strCasediff, hb]
  | cons a as ih =>
      obtain ⟨ha, has⟩ := not_or.mp (List.mem_cons.not.mp has)
      cases bs with
      | nil =>
          have hne : toLower a ≠ toLower nul := by
            intro heq
            exact ha (toLower_eq_nul.mp (heq.trans (toLower_eq_nul.mpr rfl))).symm
          simp [strCasediff, Hash.strCasediff, hne]
      | cons b bs =>
          obtain ⟨-, hbs⟩ := not_or.mp (List.mem_cons.not.mp hbs)
          rw [List.cons_append, strCasediff, Hash.strCasediff]
          split
          · exact ih has hbs
          · rfl

/-- `0xdf & (unsigned char) c`. -/
def sinCaja (c : Char) : Nat :=
  0xdf &&& c.toNat

/-- `(0xdf & (unsigned char) c) - 'A'` as an `unsigned char`. -/
def indice (c : Char) : Nat :=
  (sinCaja c + (256 - 'A'.toNat)) % 256

variable {ε : Type}

/-- `if ((r -= 'A') > 25 || !(mtree = mtree->pointers[r])) return NULL`. -/
def puntero (pointers : List (Option (MessageTree ε))) (c : Char) : Option (MessageTree ε) :=
  if 25 < indice c then none else (pointers[indice c]?).join

/-- The pointers of a tree. -/
def MessageTree.pointers : MessageTree ε → List (Option (MessageTree ε))
  | .node _ _ pointers => pointers

/-- The loop of `msg_tree_parse`, at the character behind the way to the tree. The inner `none` is
`NULL`. -/
def recorre : MessageTree ε → List Char → Option (Option ε)
  | _, [] => none
  | .node final msg pointers, c :: cmd =>
      if final.any fun f ↦ (f.headD nul).toNat = sinCaja c then some msg
      else
        match puntero pointers c with
        | none => some none
        | some mtree => recorre mtree cmd

/-- `msg_tree_parse`. -/
def msgTreeParse (root : MessageTree ε) : List Char → Option (Option ε)
  | [] => none
  | c :: cmd =>
      match puntero root.pointers c with
      | none => some none
      | some mtree => recorre mtree cmd

/-- The loop of `msg_tree_parse_client`. -/
def recorreClient : MessageTree ε → List Char → Option (Option ε)
  | _, [] => none
  | .node final msg pointers, c :: cmd => do
      if ← final.elim (some false) fun f ↦ (strCasediff f (c :: cmd)).map (!·) then some msg
      else
        match puntero pointers c with
        | none => some none
        | some mtree => recorreClient mtree cmd

/-- `msg_tree_parse_client`. -/
def msgTreeParseClient (root : MessageTree ε) : List Char → Option (Option ε)
  | [] => none
  | c :: cmd =>
      match puntero root.pointers c with
      | none => some none
      | some mtree => recorreClient mtree cmd

/-! ## Building -/

section

variable (campo : ε → CStr)

/-- The loop over the letters `c <= 'Z'`, where `build` makes the tree of a longer prefix. The
result is the pointers and the rest of the table. -/
def bucleLetras (build : CStr → List ε → Option (MessageTree ε × List ε)) (pref : CStr) :
    List Char → List ε → Option (List (Option (MessageTree ε)) × List ε)
  | [], mptr => some ([], mptr)
  | _ :: _, [] => none
  | c :: cs, e :: mptr => do
      if (← (campo e ++ [nul])[pref.length]?) = c then
        let (mtree1, mptr) ← build (pref ++ [c]) (e :: mptr)
        if mptr.head?.all fun e ↦ !pref.isPrefixOf (campo e) then
          some (some mtree1 :: List.replicate cs.length none, mptr)
        else
          let (pointers, mptr) ← bucleLetras build pref cs mptr
          some (some mtree1 :: pointers, mptr)
      else
        let (pointers, mptr) ← bucleLetras build pref cs (e :: mptr)
        some (none :: pointers, mptr)

/-- The letters from `'A'` to `'Z'`. -/
def letras : List Char :=
  "ABCDEFGHIJKLMNOPQRSTUVWXYZ".toList

/-- The body of the functions that build trees. -/
def nodo (build : CStr → List ε → Option (MessageTree ε × List ε)) (pref : CStr) :
    List ε → Option (MessageTree ε × List ε)
  | [] => none
  | e :: mptr =>
      if pref.isPrefixOf (campo e) then
        if mptr.head?.all fun e ↦ pref ≠ [] ∧ !pref.isPrefixOf (campo e) then
          -- last command in the message struct or last command in this prefix
          some (.node (some ((campo e).drop pref.length)) (some e) (List.replicate 26 none), mptr)
        else do
          let igual := !(← strCasediff (campo e) (pref ++ [nul]))
          let (pointers, resto) ←
            bucleLetras campo build pref letras (if igual then mptr else e :: mptr)
          some (.node (if igual then some [] else none) (if igual then some e else none) pointers,
            resto)
      else none

/-- The two functions that build trees, with so much room for letters in `newprefix`. -/
def doMsgTree : Nat → CStr → List ε → Option (MessageTree ε × List ε)
  | 0 => nodo campo fun _ _ ↦ none
  | libre + 1 => nodo campo (doMsgTree libre)

end

/-- `do_msg_tree_cmd` at the root. The last of the 64 bytes of `newprefix` is for the terminator. -/
def doMsgTreeCmd (msgtab : List Message) : Option (MessageTree Message × List Message) :=
  doMsgTree Message.cmd 63 [] msgtab

/-- `do_msg_tree_tok` at the root. -/
def doMsgTreeTok (msgtabTok : List Message) : Option (MessageTree Message × List Message) :=
  doMsgTree Message.tok 63 [] msgtabTok

/-! ## Letters -/

/-- A letter from `'A'` to `'Z'`. -/
def Letra (c : Char) : Prop :=
  65 ≤ c.toNat ∧ c.toNat ≤ 90

instance (c : Char) : Decidable (Letra c) :=
  inferInstanceAs (Decidable (_ ∧ _))

/-- A character of a command: only `_` is no letter. -/
def Signo (c : Char) : Prop :=
  Letra c ∨ c = '_'

variable {c d : Char}

theorem toNat_toUpper (c : Char) :
    c.toUpper.toNat = if 97 ≤ c.toNat ∧ c.toNat ≤ 122 then c.toNat - 32 else c.toNat := by
  have hle : ('a'.val ≤ c.val ∧ c.val ≤ 'z'.val) ↔ 97 ≤ c.toNat ∧ c.toNat ≤ 122 := by
    rw [UInt32.le_iff_toNat_le, UInt32.le_iff_toNat_le]
    exact Iff.rfl
  by_cases hc : 97 ≤ c.toNat ∧ c.toNat ≤ 122
  · have hupper : c.toUpper = _ := dif_pos (hle.mpr hc)
    rw [if_pos hc, hupper]
    show (c.val + ('A'.val - 'a'.val)).toNat = c.val.toNat - 32
    rw [UInt32.toNat_add, show ('A'.val - 'a'.val).toNat = 2 ^ 32 - 32 from rfl]
    have hval : c.val.toNat = c.toNat := rfl
    omega
  · have hupper : c.toUpper = c := dif_neg (mt hle.mp hc)
    rw [if_neg hc, hupper]

theorem toNat_toLower (c : Char) :
    (toLower c).toNat = if isUpperCode c.toNat then c.toNat + 32 else c.toNat := by
  rw [toLower]
  split
  · next h => exact toNat_ofNat_of_isUpperCode h
  · rfl

/-- The tables of the server fold the characters of commands as letter case does. -/
theorem toLower_eq_iff_toUpper (hd : Signo d) : toLower c = toLower d ↔ c.toUpper = d := by
  have hext : ∀ a b : Char, a = b ↔ a.toNat = b.toNat := fun a b ↦
    ⟨congrArg Char.toNat, fun h ↦ Char.ext (UInt32.toNat_inj.mp h)⟩
  rw [hext, hext, toNat_toLower, toNat_toLower, toNat_toUpper]
  have hcode : 65 ≤ d.toNat ∧ d.toNat ≤ 90 ∨ d.toNat = 95 := by
    rcases hd with h | rfl
    · exact .inl h
    · exact .inr rfl
  simp only [isUpperCode, decide_eq_true_eq]
  split_ifs <;> omega

/-- The index of a character is that of the letter that it is. -/
theorem indice_eq_iff (hc : c.toNat < 256) {k : Nat} (hk : k < 26) :
    indice c = k ↔ c.toUpper.toNat = 65 + k := by
  have hmask : ∀ n < 256, 0xdf &&& n = if n / 32 % 2 = 1 then n - 32 else n := by
    decide +kernel
  rw [indice, sinCaja, hmask _ hc, toNat_toUpper, show 'A'.toNat = 65 from rfl]
  split_ifs <;> omega

theorem Signo.ne_nul (h : Signo c) : c ≠ nul := by
  rintro rfl
  rcases h with h | h
  · exact absurd h.1 (by decide)
  · exact absurd h (by decide)

/-- Masking a character of a command changes nothing. -/
theorem Signo.sinCaja_eq (h : Signo c) : sinCaja c = c.toNat := by
  have hmask : ∀ n < 96, 65 ≤ n → 0xdf &&& n = n := by decide +kernel
  rcases h with h | rfl
  · exact hmask _ (Nat.lt_succ_of_le (Nat.le_trans h.2 (by decide))) h.1
  · rfl

theorem Letra.toUpper_eq (h : Letra c) : c.toUpper = c := by
  have hnat := toNat_toUpper c
  have h2 := h.2
  rw [if_neg (by omega)] at hnat
  exact Char.ext (UInt32.toNat_inj.mp hnat)

theorem Letra.lt (h : Letra c) : c.toNat < 256 :=
  Nat.lt_of_le_of_lt h.2 (by decide)

/-- A text is compared with a command up to letter case. -/
theorem strCasediff_eq {a s : CStr} (b : List Char) (ha : ∀ c ∈ a, Signo c) (hs : nul ∉ s) :
    strCasediff a (s ++ nul :: b) = some (decide (s.map Char.toUpper ≠ a)) := by
  induction a generalizing s with
  | nil =>
      cases s with
      | nil => simp [strCasediff]
      | cons c s =>
          have hc : nul ≠ c := (List.ne_and_not_mem_of_not_mem_cons hs).1
          have hlower : toLower nul ≠ toLower c := fun h ↦
            hc (toLower_eq_nul.mp (h.symm.trans (toLower_eq_nul.mpr rfl))).symm
          simp [strCasediff, hlower]
  | cons d a ih =>
      obtain ⟨hd, ha⟩ := List.forall_mem_cons.mp ha
      cases s with
      | nil =>
          have hlower : toLower d ≠ toLower nul := fun h ↦
            hd.ne_nul (toLower_eq_nul.mp (h.trans (toLower_eq_nul.mpr rfl)))
          simp [strCasediff, hlower]
      | cons c s =>
          obtain ⟨-, hs⟩ := List.ne_and_not_mem_of_not_mem_cons hs
          have hiff : toLower d = toLower c ↔ c.toUpper = d :=
            eq_comm.trans (toLower_eq_iff_toUpper hd)
          rw [List.cons_append, strCasediff]
          by_cases h : c.toUpper = d
          · rw [if_pos (hiff.mpr h), ih ha hs]
            simp [h]
          · rw [if_neg (mt hiff.mp h)]
            simp [h]

/-! ## Pointers -/

variable {ps : List (Option (MessageTree ε))}

/-- A letter leads to the pointer of its upper case. -/
theorem puntero_letra (hc : c.toNat < 256) (h : Letra c.toUpper) :
    puntero ps c = ps[c.toUpper.toNat - 65]?.join := by
  have hindice : indice c = c.toUpper.toNat - 65 :=
    (indice_eq_iff hc (by have := h.2; omega)).mpr (by have := h.1; omega)
  have h2 := h.2
  rw [puntero, hindice, if_neg (by omega)]

/-- Any other character leads nowhere. -/
theorem puntero_no_letra (hc : c.toNat < 256) (h : ¬Letra c.toUpper) : puntero ps c = none := by
  rw [puntero, if_pos]
  by_contra hle
  have hnat := (indice_eq_iff hc (show indice c < 26 by omega)).mp rfl
  exact h ⟨by omega, by omega⟩

theorem puntero_replicate (n : Nat) (c : Char) :
    puntero (List.replicate n (none : Option (MessageTree ε))) c = none := by
  rw [puntero]
  split
  · rfl
  · rw [List.getElem?_replicate]
    split <;> rfl

theorem puntero_nul : puntero ps nul = none := if_pos (by decide)

/-! ## The entries below a prefix -/

section

variable (campo : ε → CStr)

/-- The entries of a table with a common prefix. The characters are letters, at least where entries
differ, and the entries differ before `newprefix` is full. -/
structure Bajo (pref : CStr) (es : List ε) : Prop where
  pref : ∀ e ∈ es, pref <+: campo e
  orden : es.Pairwise fun e e' ↦ campo e < campo e'
  signos : ∀ e ∈ es, ∀ c ∈ campo e, Signo c
  letra : ∀ e ∈ es, ∀ e' ∈ es, campo e ≠ campo e' → ∀ q c s, campo e = q ++ c :: s →
    q <+: campo e' → Letra c
  corto : ∀ e ∈ es, ∀ e' ∈ es, campo e ≠ campo e' → (campo e).take 63 ≠ (campo e').take 63

/-- The loops find the entries of a tree below a prefix, and nothing else. -/
structure Arbol (t : MessageTree ε) (pref : CStr) (es : List ε) : Prop where
  client : ∀ cmd b, (∀ c ∈ cmd, c.toNat < 256) → nul ∉ cmd → recorreClient t (cmd ++ nul :: b) =
    some (es.find? fun e ↦ campo e = pref ++ cmd.map Char.toUpper)
  propio : ∀ e ∈ es, ∀ s b, campo e = pref ++ s → recorre t (s ++ nul :: b) = some (some e)

/-- The pointers at a prefix, one for each letter that goes on. -/
def Punteros (ps : List (Option (MessageTree ε))) (pref : CStr) (es : List ε) : Prop :=
  ∀ c, Letra c →
    (ps[c.toNat - 65]?.join = none ∧ ∀ e ∈ es, ¬pref ++ [c] <+: campo e) ∨
      ∃ t, ps[c.toNat - 65]?.join = some t ∧
        Arbol campo t (pref ++ [c]) (es.filter fun e ↦ (pref ++ [c]).isPrefixOf (campo e))

/-- Each entry goes on behind the prefix with a letter. -/
def Siguen (pref : CStr) (es : List ε) : Prop :=
  ∀ e ∈ es, ∃ c s, Letra c ∧ campo e = pref ++ c :: s

end

variable {campo : ε → CStr} {pref : CStr} {es rest : List ε} {e : ε} {t : MessageTree ε}

/-- The tree of a single entry. -/
theorem arbol_hoja {s : CStr} (he : campo e = pref ++ s) (hs : ∀ c ∈ s, Signo c) :
    Arbol campo (.node (some s) (some e) (List.replicate 26 none)) pref [e] := by
  constructor
  · intro cmd b _ hnul
    have hiff : campo e = pref ++ cmd.map Char.toUpper ↔ cmd.map Char.toUpper = s := by
      rw [he, List.append_cancel_left_eq]
      exact eq_comm
    obtain ⟨c, mem, hmem⟩ : ∃ c mem, cmd ++ nul :: b = c :: mem :=
      List.exists_cons_of_ne_nil (by simp)
    have hdiff := strCasediff_eq b hs hnul
    rw [hmem] at hdiff ⊢
    rw [recorreClient, puntero_replicate]
    by_cases h : cmd.map Char.toUpper = s
    · simp [hdiff, h, hiff.mpr h]
    · simp [hdiff, h, mt hiff.mp h]
  · intro e' he' s' b hs'
    obtain rfl := List.mem_singleton.mp he'
    obtain rfl := List.append_cancel_left (he.symm.trans hs')
    cases s with
    | nil =>
        show (if _ then _ else _) = _
        rw [if_pos (by decide)]
    | cons c s =>
        have hc := (hs c List.mem_cons_self).sinCaja_eq
        simp [recorre, hc]

/-- The way on from a tree with pointers. -/
theorem Punteros.client (h : Punteros campo ps pref es) (hsiguen : Siguen campo pref es)
    (hc : c.toNat < 256) {cmd : CStr} (hcmd : ∀ c ∈ cmd, c.toNat < 256) (hnul : nul ∉ cmd)
    (b : List Char) :
    (match puntero ps c with
      | none => some none
      | some t => recorreClient t (cmd ++ nul :: b)) =
      some (es.find? fun e ↦ campo e = pref ++ (c :: cmd).map Char.toUpper) := by
  by_cases hletra : Letra c.toUpper
  · rw [puntero_letra hc hletra]
    have hsplit : pref ++ (c :: cmd).map Char.toUpper =
        (pref ++ [c.toUpper]) ++ cmd.map Char.toUpper := by simp
    rcases h c.toUpper hletra with ⟨hnone, hno⟩ | ⟨t, hsome, ht⟩
    · rw [hnone]
      refine congrArg some (List.find?_eq_none.mpr fun e he heq ↦ hno e he ?_).symm
      rw [decide_eq_true_eq] at heq
      rw [heq, hsplit]
      exact List.prefix_append _ _
    · rw [hsome]
      refine (ht.client cmd b hcmd hnul).trans (congrArg some ?_)
      rw [List.find?_filter, hsplit]
      congr 1
      funext e
      refine decide_eq_decide.mpr ?_
      rw [decide_eq_true_eq]
      refine and_iff_right_of_imp fun heq ↦ ?_
      rw [List.isPrefixOf_iff_prefix, heq]
      exact List.prefix_append _ _
  · rw [puntero_no_letra hc hletra]
    refine congrArg some (List.find?_eq_none.mpr fun e he heq ↦ hletra ?_).symm
    obtain ⟨d, s, hd, hs⟩ := hsiguen e he
    rw [decide_eq_true_eq, hs] at heq
    obtain ⟨rfl, -⟩ := List.cons.inj (List.append_cancel_left heq)
    exact hd

theorem Punteros.propio (h : Punteros campo ps pref es) {c : Char} (hc : Letra c) {s : CStr}
    (he : e ∈ es) (hs : campo e = pref ++ c :: s) (b : List Char) :
    ∃ t, puntero ps c = some t ∧ recorre t (s ++ nul :: b) = some (some e) := by
  have hpref : pref ++ [c] <+: campo e := ⟨s, by rw [hs]; simp⟩
  have hpuntero : puntero ps c = ps[c.toNat - 65]?.join := by
    rw [puntero_letra hc.lt (by rwa [hc.toUpper_eq]), hc.toUpper_eq]
  rcases h c hc with ⟨-, hno⟩ | ⟨t, ht, harbol⟩
  · exact absurd hpref (hno e he)
  · refine ⟨t, hpuntero.trans ht, harbol.propio e ?_ s b (by rw [hs]; simp)⟩
    exact List.mem_filter.mpr ⟨he, List.isPrefixOf_iff_prefix.mpr hpref⟩

/-- The tree of several entries, none of which is the prefix itself. -/
theorem Punteros.arbol (h : Punteros campo ps pref es) (hsiguen : Siguen campo pref es) :
    Arbol campo (.node none none ps) pref es := by
  constructor
  · intro cmd b hcmd hnul
    cases cmd with
    | nil =>
        have hnone : es.find? (fun e ↦ campo e = pref ++ [].map Char.toUpper) = none := by
          refine List.find?_eq_none.mpr fun e he heq ↦ ?_
          obtain ⟨c, s, -, hs⟩ := hsiguen e he
          rw [decide_eq_true_eq, hs] at heq
          exact absurd (List.append_cancel_left heq) (by simp)
        rw [hnone, List.nil_append, recorreClient, puntero_nul]
        rfl
    | cons c cmd =>
        obtain ⟨hc, hcmd⟩ := List.forall_mem_cons.mp hcmd
        exact h.client hsiguen hc hcmd (List.not_mem_of_not_mem_cons hnul) b
  · intro e he s b hs
    obtain ⟨c, s', hc, hs'⟩ := hsiguen e he
    obtain rfl := List.append_cancel_left (hs.symm.trans hs')
    obtain ⟨t, ht, hrecorre⟩ := h.propio hc he hs' b
    rw [List.cons_append, recorre, ht]
    exact hrecorre

/-- The tree of several entries, the first of which is the prefix itself. -/
theorem Punteros.arbol_cons (h : Punteros campo ps pref es) (hsiguen : Siguen campo pref es)
    (he : campo e = pref) : Arbol campo (.node (some []) (some e) ps) pref (e :: es) := by
  constructor
  · intro cmd b hcmd hnul
    cases cmd with
    | nil => simp [recorreClient, strCasediff, he]
    | cons c cmd =>
        have hdiff := strCasediff_eq (a := []) b (by simp) hnul
        have hne : campo e ≠ pref ++ (c :: cmd).map Char.toUpper := by
          rw [he]
          simp
        rw [List.cons_append] at hdiff ⊢
        rw [recorreClient, List.find?_cons_of_neg (by simpa using hne)]
        obtain ⟨hc, hcmd⟩ := List.forall_mem_cons.mp hcmd
        simp only [Option.elim_some, hdiff]
        exact h.client hsiguen hc hcmd (List.not_mem_of_not_mem_cons hnul) b
  · intro e' he' s b hs
    rcases List.mem_cons.mp he' with rfl | he'
    · obtain rfl : s = [] := by
        rw [he] at hs
        simpa using hs
      rw [List.nil_append, recorre]
      exact if_pos (by decide)
    · obtain ⟨c, s', hc, hs'⟩ := hsiguen e' he'
      obtain rfl := List.append_cancel_left (hs.symm.trans hs')
      obtain ⟨t, ht, hrecorre⟩ := h.propio hc he' hs' b
      have hmask : ¬(nul.toNat = sinCaja c) := by
        rw [Signo.sinCaja_eq (.inl hc)]
        exact fun heq ↦ Signo.ne_nul (.inl hc) (Char.ext (UInt32.toNat_inj.mp heq.symm))
      rw [List.cons_append, recorre, ht]
      exact (if_neg (mt decide_eq_true_eq.mp hmask)).trans hrecorre

/-! ## Order -/

theorem Bajo.sublist {es' : List ε} (h : Bajo campo pref es) (hsub : es'.Sublist es) :
    Bajo campo pref es' where
  pref := fun e he ↦ h.pref e (hsub.mem he)
  orden := h.orden.sublist hsub
  signos := fun e he ↦ h.signos e (hsub.mem he)
  letra := fun e he e' he' ↦ h.letra e (hsub.mem he) e' (hsub.mem he')
  corto := fun e he e' he' ↦ h.corto e (hsub.mem he) e' (hsub.mem he')

/-- Entries that go on alike are below the longer prefix. -/
theorem Bajo.alarga {pref' : CStr} (h : Bajo campo pref es) (hpref : ∀ e ∈ es, pref' <+: campo e) :
    Bajo campo pref' es :=
  { h with pref := hpref }

/-- Behind a common part, texts are ordered by the next characters. -/
theorem lt_append_iff {q a b : List Char} : q ++ a < q ++ b ↔ a < b := by
  induction q with
  | nil => rfl
  | cons c q ih =>
      rw [List.cons_append, List.cons_append, List.cons_lt_cons_iff, ih]
      exact ⟨fun h ↦ (h.resolve_left (Char.lt_irrefl c)).2, fun h ↦ .inr ⟨rfl, h⟩⟩

/-- A list that is ordered so that a property holds first for some and then for no more. -/
theorem filter_append_filter_not {α : Type} {r : α → α → Prop} {q : α → Bool} {l : List α}
    (hl : l.Pairwise r) (hq : ∀ a ∈ l, ∀ b ∈ l, r a b → q b = true → q a = true) :
    l = l.filter q ++ l.filter (!q ·) := by
  induction l with
  | nil => rfl
  | cons a l ih =>
      obtain ⟨ha, hl⟩ := List.pairwise_cons.mp hl
      have hrest := ih hl fun x hx y hy ↦
        hq x (List.mem_cons_of_mem a hx) y (List.mem_cons_of_mem a hy)
      by_cases hqa : q a = true
      · rw [List.filter_cons_of_pos hqa, List.filter_cons_of_neg (by simp [hqa]), List.cons_append,
          ← hrest]
      · have hnone : ∀ b ∈ l, q b ≠ true := fun b hb hqb ↦
          hqa (hq a List.mem_cons_self b (List.mem_cons_of_mem a hb) (ha b hb) hqb)
        have hfilter : (a :: l).filter q = [] :=
          List.filter_eq_nil_iff.mpr (List.forall_mem_cons.mpr ⟨hqa, hnone⟩)
        rw [hfilter, List.nil_append, List.filter_eq_self.mpr]
        intro b hb
        rcases List.mem_cons.mp hb with rfl | hb
        · simpa using hqa
        · simpa using hnone b hb

/-! ## The loop over the letters -/

/-- What is at the place of a letter: nothing, or the tree of the entries that go on with it. -/
def Hueco (campo : ε → CStr) (pref : CStr) (es : List ε) (c : Char)
    (p : Option (Option (MessageTree ε))) : Prop :=
  (p = some none ∧ ∀ e ∈ es, ¬pref ++ [c] <+: campo e) ∨
    ∃ t, p = some (some t) ∧
      Arbol campo t (pref ++ [c]) (es.filter fun e ↦ (pref ++ [c]).isPrefixOf (campo e))

/-- A function makes the trees of the longer prefixes, and leaves the rest of the table. -/
def Construye (campo : ε → CStr) (pref : CStr)
    (build : CStr → List ε → Option (MessageTree ε × List ε)) : Prop :=
  ∀ c es rest, Letra c → es ≠ [] → Bajo campo (pref ++ [c]) es →
    (∀ e, rest.head? = some e → ¬pref ++ [c] <+: campo e) →
    ∃ t, build (pref ++ [c]) (es ++ rest) = some (t, rest) ∧ Arbol campo t (pref ++ [c]) es

/-- Two prefixes of one text that differ in their last letter are the same. -/
theorem eq_of_comienzo {a : CStr} (hc : pref ++ [c] <+: a) (hd : pref ++ [d] <+: a) : c = d := by
  obtain ⟨x, rfl⟩ := hc
  obtain ⟨y, hy⟩ := hd
  simp only [List.append_assoc, List.append_cancel_left_eq] at hy
  exact (List.cons.inj hy).1.symm

/-- Places of a letter among entries that do not go on with it do not matter. -/
theorem Hueco.append {es' : List ε} {p : Option (Option (MessageTree ε))}
    (h : Hueco campo pref es' c p) (hes : ∀ e ∈ es, ¬pref ++ [c] <+: campo e) :
    Hueco campo pref (es ++ es') c p := by
  have hfilter : es.filter (fun e ↦ (pref ++ [c]).isPrefixOf (campo e)) = [] :=
    List.filter_eq_nil_iff.mpr fun e he ↦ mt List.isPrefixOf_iff_prefix.mp (hes e he)
  rcases h with ⟨hp, hno⟩ | ⟨t, hp, harbol⟩
  · refine .inl ⟨hp, fun e he ↦ ?_⟩
    exact (List.mem_append.mp he).elim (hes e) (hno e)
  · refine .inr ⟨t, hp, ?_⟩
    rwa [List.filter_append, hfilter, List.nil_append]

/-- The entries that go on with the least letter come first. -/
theorem Bajo.parte {cs : List Char} (h : Bajo campo pref es) (hmin : ∀ d ∈ cs, c < d)
    (hsiguen : ∀ e ∈ es, ∃ d ∈ c :: cs, Letra d ∧ pref ++ [d] <+: campo e) :
    ∃ G R, es = G ++ R ∧ (∀ e ∈ G, pref ++ [c] <+: campo e) ∧
      ∀ e ∈ R, ¬pref ++ [c] <+: campo e := by
  obtain ⟨q, hq⟩ : ∃ q : ε → Bool, q = fun e ↦ (pref ++ [c]).isPrefixOf (campo e) := ⟨_, rfl⟩
  have hqiff : ∀ e, q e = true ↔ pref ++ [c] <+: campo e := fun e ↦ by
    rw [hq]
    exact List.isPrefixOf_iff_prefix
  have hdown : ∀ a ∈ es, ∀ b ∈ es, campo a < campo b → q b = true → q a = true := by
    intro a ha b hb hab hqb
    obtain ⟨x, hx⟩ := (hqiff b).mp hqb
    obtain ⟨d, hd, -, y, hy⟩ := hsiguen a ha
    rw [← hx, ← hy, List.append_assoc, List.append_assoc, lt_append_iff] at hab
    rcases List.cons_lt_cons_iff.mp hab with hlt | ⟨rfl, -⟩
    · rcases List.mem_cons.mp hd with rfl | hd
      · exact absurd hlt (Char.lt_irrefl d)
      · exact absurd (Char.lt_trans hlt (hmin d hd)) (Char.lt_irrefl d)
    · exact (hqiff a).mpr ⟨y, hy⟩
  refine ⟨es.filter q, es.filter (!q ·), filter_append_filter_not h.orden hdown,
    fun e he ↦ (hqiff e).mp (List.mem_filter.mp he).2, fun e he hpref ↦ ?_⟩
  have hno := (List.mem_filter.mp he).2
  simp [(hqiff e).mpr hpref] at hno

/-- The place of a letter with the tree of the entries that go on with it. -/
theorem Hueco.primero {G R : List ε} (hG : ∀ e ∈ G, pref ++ [c] <+: campo e)
    (hR : ∀ e ∈ R, ¬pref ++ [c] <+: campo e) (ht : Arbol campo t (pref ++ [c]) G) :
    Hueco campo pref (G ++ R) c (some (some t)) := by
  refine .inr ⟨t, rfl, ?_⟩
  have hfilterG : G.filter (fun e ↦ (pref ++ [c]).isPrefixOf (campo e)) = G :=
    List.filter_eq_self.mpr fun e he ↦ List.isPrefixOf_iff_prefix.mpr (hG e he)
  have hfilterR : R.filter (fun e ↦ (pref ++ [c]).isPrefixOf (campo e)) = [] :=
    List.filter_eq_nil_iff.mpr fun e he ↦ mt List.isPrefixOf_iff_prefix.mp (hR e he)
  rwa [List.filter_append, hfilterG, hfilterR, List.append_nil]

section

variable {build : CStr → List ε → Option (MessageTree ε × List ε)} {cs : List Char}
  {mptr : List ε}

theorem getElem?_comienzo {a : CStr} (h : pref ++ [c] <+: a) :
    (a ++ [nul])[pref.length]? = some c := by
  obtain ⟨s, rfl⟩ := h
  simp

/-- The loop at a letter that the next entry goes on with. -/
theorem bucleLetras_letra (h : pref ++ [c] <+: campo e)
    (hbuild : build (pref ++ [c]) (e :: mptr) = some (t, rest)) :
    bucleLetras campo build pref (c :: cs) (e :: mptr) =
      if rest.head?.all fun e ↦ !pref.isPrefixOf (campo e) then
        some (some t :: List.replicate cs.length none, rest)
      else (bucleLetras campo build pref cs rest).map fun r ↦ (some t :: r.1, r.2) := by
  rw [bucleLetras]
  simp only [getElem?_comienzo h, hbuild, Option.bind_eq_bind, Option.bind_some, if_true]
  refine if_congr Iff.rfl rfl ?_
  cases bucleLetras campo build pref cs rest <;> rfl

/-- The loop at any other letter. -/
theorem bucleLetras_otra (h : pref ++ [d] <+: campo e) (hdc : d ≠ c) :
    bucleLetras campo build pref (c :: cs) (e :: mptr) =
      (bucleLetras campo build pref cs (e :: mptr)).map fun r ↦ (none :: r.1, r.2) := by
  rw [bucleLetras]
  simp only [getElem?_comienzo h, Option.bind_eq_bind, Option.bind_some, if_neg hdc]
  cases bucleLetras campo build pref cs (e :: mptr) <;> rfl

/-- One more place in front. -/
theorem huecos_cons {p : Option (MessageTree ε)} (hp : Hueco campo pref es c (some p))
    (hps : ∀ (i : Nat) (d : Char), cs[i]? = some d → Hueco campo pref es d ps[i]?) :
    ∀ (i : Nat) (d : Char), (c :: cs)[i]? = some d → Hueco campo pref es d (p :: ps)[i]? := by
  intro i d hi
  cases i with
  | zero =>
      obtain rfl := Option.some.inj hi
      exact hp
  | succ i => exact hps i d hi

/-- The loop fills in a place for each letter, and leaves the rest of the table. -/
theorem bucleLetras_spec (hbuild : Construye campo pref build) (hcs : cs.Pairwise (· < ·))
    (hne : es ≠ []) (hbajo : Bajo campo pref es)
    (hsiguen : ∀ e ∈ es, ∃ c ∈ cs, Letra c ∧ pref ++ [c] <+: campo e)
    (hrest : ∀ e, rest.head? = some e → ¬pref <+: campo e) :
    ∃ ps, bucleLetras campo build pref cs (es ++ rest) = some (ps, rest) ∧
      ∀ (i : Nat) (c : Char), cs[i]? = some c → Hueco campo pref es c ps[i]? := by
  induction cs generalizing es with
  | nil =>
      obtain ⟨e, es, rfl⟩ := List.exists_cons_of_ne_nil hne
      obtain ⟨c, hc, -⟩ := hsiguen e List.mem_cons_self
      cases hc
  | cons c cs ih =>
      obtain ⟨hmin, hcs⟩ := List.pairwise_cons.mp hcs
      obtain ⟨G, R, rfl, hG, hR⟩ := hbajo.parte hmin hsiguen
      have hsubR : R.Sublist (G ++ R) := List.sublist_append_right G R
      have hsiguenR : ∀ e ∈ R, ∃ d ∈ cs, Letra d ∧ pref ++ [d] <+: campo e := by
        intro e he
        obtain ⟨d, hd, hletra, hpref⟩ := hsiguen e (hsubR.mem he)
        refine ⟨d, (List.mem_cons.mp hd).resolve_left ?_, hletra, hpref⟩
        rintro rfl
        exact hR e he hpref
      cases G with
      | nil =>
          -- No entry goes on with the first letter.
          obtain ⟨ps, hps, hspec⟩ := ih hcs hne hbajo hsiguenR
          obtain ⟨e, R, rfl⟩ := List.exists_cons_of_ne_nil hne
          obtain ⟨d, hd, -, hpref⟩ := hsiguenR e List.mem_cons_self
          have hdc : d ≠ c := by
            rintro rfl
            exact Char.lt_irrefl d (hmin d hd)
          rw [List.nil_append, List.cons_append] at hps ⊢
          rw [bucleLetras_otra hpref hdc, hps]
          exact ⟨none :: ps, rfl, huecos_cons (.inl ⟨rfl, hR⟩) hspec⟩
      | cons e G =>
          obtain ⟨d, -, hletra, hpref⟩ := hsiguen e List.mem_cons_self
          obtain rfl := eq_of_comienzo (hG e List.mem_cons_self) hpref
          have hGbajo : Bajo campo (pref ++ [c]) (e :: G) :=
            (hbajo.sublist (List.sublist_append_left _ R)).alarga hG
          have hrest' : ∀ e, (R ++ rest).head? = some e → ¬pref ++ [c] <+: campo e := by
            intro e he
            cases R with
            | nil => exact fun h ↦ hrest e he ((List.prefix_append _ _).trans h)
            | cons r R =>
                obtain rfl := Option.some.inj he
                exact hR r List.mem_cons_self
          obtain ⟨t, ht, harbol⟩ :=
            hbuild c (e :: G) (R ++ rest) hletra (List.cons_ne_nil e G) hGbajo hrest'
          have hprimero : Hueco campo pref (e :: G ++ R) c (some (some t)) := .primero hG hR harbol
          have hotra : ∀ (i : Nat) (c' : Char), cs[i]? = some c' →
              ∀ b ∈ e :: G, ¬pref ++ [c'] <+: campo b := by
            intro i c' hi b hb h
            have hlt := hmin c' (List.mem_of_getElem? hi)
            exact Char.lt_irrefl c' (eq_of_comienzo (hG b hb) h ▸ hlt)
          rw [List.cons_append] at ht
          rw [List.append_assoc, List.cons_append, bucleLetras_letra hpref ht]
          cases R with
          | nil =>
              have hall : (([] ++ rest).head?.all fun e ↦ !pref.isPrefixOf (campo e)) = true := by
                cases hhead : ([] ++ rest).head? with
                | none => rfl
                | some r =>
                    have hr := mt List.isPrefixOf_iff_prefix.mp (hrest r hhead)
                    simpa only [Option.all_some, Bool.not_eq_true', Bool.not_eq_true] using hr
              rw [if_pos hall]
              refine ⟨some t :: List.replicate cs.length none, rfl,
                huecos_cons hprimero fun i c' hi ↦ .inl ⟨?_, fun b hb ↦ ?_⟩⟩
              · rw [List.getElem?_replicate, if_pos (List.getElem?_eq_some_iff.mp hi).1]
              · rw [List.append_nil] at hb
                exact hotra i c' hi b hb
          | cons r R =>
              have hr : pref <+: campo r := hbajo.pref r (hsubR.mem List.mem_cons_self)
              have hall :
                  ¬((r :: R ++ rest).head?.all fun e ↦ !pref.isPrefixOf (campo e)) = true := by
                simp [List.isPrefixOf_iff_prefix.mpr hr]
              obtain ⟨ps, hps, hspec⟩ :=
                ih hcs (List.cons_ne_nil r R) (hbajo.sublist hsubR) hsiguenR
              rw [if_neg hall, hps]
              exact ⟨some t :: ps, rfl,
                huecos_cons hprimero fun i c' hi ↦ (hspec i c' hi).append (hotra i c' hi)⟩

end

/-! ## The trees -/

theorem getElem?_letras (hc : Letra c) : letras[c.toNat - 65]? = some c := by
  have hall : ∀ k < 26, letras[k]?.map Char.toNat = some (65 + k) := by decide
  obtain ⟨h1, h2⟩ := hc
  have hk := hall (c.toNat - 65) (by omega)
  obtain ⟨d, hd, hnat⟩ := Option.map_eq_some_iff.mp hk
  have heq : d.toNat = c.toNat := by omega
  rw [hd]
  exact congrArg some (Char.ext (UInt32.toNat_inj.mp heq))

/-- The places that the loop has filled in are the pointers. -/
theorem punteros_of_hueco
    (h : ∀ (i : Nat) (c : Char), letras[i]? = some c → Hueco campo pref es c ps[i]?) :
    Punteros campo ps pref es := by
  intro c hc
  rcases h _ c (getElem?_letras hc) with ⟨hp, hno⟩ | ⟨t, hp, harbol⟩
  · exact .inl ⟨by rw [hp]; rfl, hno⟩
  · exact .inr ⟨t, by rw [hp]; rfl, harbol⟩

theorem Signo.toUpper_eq (h : Signo c) : c.toUpper = c := by
  rcases h with h | rfl
  · exact h.toUpper_eq
  · decide

/-- A prefix is the whole entry exactly when `strCasediff` finds no difference. -/
theorem Bajo.strCasediff (h : Bajo campo pref es) (he : e ∈ es) :
    strCasediff (campo e) (pref ++ [nul]) = some (decide (pref ≠ campo e)) := by
  have hpref : ∀ c ∈ pref, Signo c := fun c hc ↦ h.signos e he c ((h.pref e he).subset hc)
  have hmap : pref.map Char.toUpper = pref :=
    (List.map_congr_left fun c hc ↦ (hpref c hc).toUpper_eq).trans (List.map_id' pref)
  have hdiff := strCasediff_eq [] (h.signos e he) (fun hnul ↦ (hpref nul hnul).ne_nul rfl)
  rwa [hmap] at hdiff

/-- Among several entries, each one that is not the prefix goes on with a letter. -/
theorem Bajo.siguen {es' : List ε} (h : Bajo campo pref es) (hsub : es'.Sublist es)
    (hne : ∀ e ∈ es', campo e ≠ pref) (hotro : ∀ e ∈ es', ∃ e' ∈ es, campo e ≠ campo e') :
    Siguen campo pref es' := by
  intro e he
  obtain ⟨x, hx⟩ := h.pref e (hsub.mem he)
  cases x with
  | nil => exact absurd (by rw [← hx, List.append_nil]) (hne e he)
  | cons c s =>
      obtain ⟨e', he', hdist⟩ := hotro e he
      exact ⟨c, s, h.letra e (hsub.mem he) e' he' hdist pref c s hx.symm (h.pref e' he'), hx.symm⟩

/-- The body on several entries. -/
theorem nodo_interior {build : CStr → List ε → Option (MessageTree ε × List ε)}
    (hbuild : Construye campo pref build) {e₁ e₂ : ε} (hbajo : Bajo campo pref (e₁ :: e₂ :: es))
    (hrest : ∀ e, rest.head? = some e → ¬pref <+: campo e) :
    ∃ t, nodo campo build pref (e₁ :: e₂ :: es ++ rest) = some (t, rest) ∧
      Arbol campo t pref (e₁ :: e₂ :: es) ∧
      (campo e₁ ≠ pref → Punteros campo t.pointers pref (e₁ :: e₂ :: es) ∧
        Siguen campo pref (e₁ :: e₂ :: es)) := by
  obtain ⟨horden₁, -⟩ := List.pairwise_cons.mp hbajo.orden
  have hdist : ∀ b ∈ e₂ :: es, campo e₁ ≠ campo b := by
    intro b hb heq
    have hlt := horden₁ b hb
    rw [heq] at hlt
    exact List.lt_irrefl _ hlt
  have hotro : ∀ e ∈ e₁ :: e₂ :: es, ∃ e' ∈ e₁ :: e₂ :: es, campo e ≠ campo e' := by
    intro e he
    rcases List.mem_cons.mp he with rfl | he
    · exact ⟨e₂, by simp, hdist e₂ List.mem_cons_self⟩
    · exact ⟨e₁, List.mem_cons_self, (hdist e he).symm⟩
  have hpref : pref.isPrefixOf (campo e₁) = true :=
    List.isPrefixOf_iff_prefix.mpr (hbajo.pref e₁ List.mem_cons_self)
  have hpref₂ : pref.isPrefixOf (campo e₂) = true :=
    List.isPrefixOf_iff_prefix.mpr (hbajo.pref e₂ (by simp))
  have hlast : ¬((e₂ :: es ++ rest).head?.all
      fun e ↦ pref ≠ [] ∧ !pref.isPrefixOf (campo e)) = true := by
    simp [hpref₂]
  have hdiff := hbajo.strCasediff List.mem_cons_self
  -- The loop on the entries that are not the prefix.
  have hbucle : ∀ es', es'.Sublist (e₁ :: e₂ :: es) → es' ≠ [] → (∀ e ∈ es', campo e ≠ pref) →
      Siguen campo pref es' ∧ ∃ ps, bucleLetras campo build pref letras (es' ++ rest) =
        some (ps, rest) ∧ Punteros campo ps pref es' := by
    intro es' hsub hne hes'
    have hsiguen := hbajo.siguen hsub hes' fun e he ↦ hotro e (hsub.mem he)
    obtain ⟨ps, hps, hhueco⟩ := bucleLetras_spec hbuild (show letras.Pairwise (· < ·) by decide) hne
      (hbajo.sublist hsub) (by
        intro e he
        obtain ⟨c, s, hc, hs⟩ := hsiguen e he
        exact ⟨c, List.mem_of_getElem? (getElem?_letras hc), hc, s, by rw [hs]; simp⟩) hrest
    exact ⟨hsiguen, ps, hps, punteros_of_hueco hhueco⟩
  rw [List.cons_append, nodo, if_pos hpref]
  rw [if_neg hlast]
  by_cases heq : pref = campo e₁
  · obtain ⟨hsiguen, ps, hps, hpunteros⟩ := hbucle (e₂ :: es) (List.sublist_cons_self _ _) (by simp)
      fun b hb h ↦ hdist b hb (heq.symm.trans h.symm)
    refine ⟨.node (some []) (some e₁) ps, ?_, hpunteros.arbol_cons hsiguen heq.symm,
      fun h ↦ absurd heq.symm h⟩
    rw [decide_eq_false (not_not.mpr heq)] at hdiff
    simp only [hdiff, Option.bind_eq_bind, Option.bind_some, Bool.not_false, if_true, hps]
  · have hdist₂ : ∀ b ∈ e₁ :: e₂ :: es, campo b ≠ pref := by
      intro b hb h
      rcases List.mem_cons.mp hb with rfl | hb
      · exact heq h.symm
      · -- What is before the prefix cannot begin with it.
        obtain ⟨x, hx⟩ := hbajo.pref e₁ List.mem_cons_self
        have hlt := horden₁ b hb
        rw [h, ← hx] at hlt
        have hnil : x < [] := lt_append_iff.mp (by rwa [List.append_nil])
        exact absurd hnil (List.not_lt_nil x)
    obtain ⟨hsiguen, ps, hps, hpunteros⟩ := hbucle _ (List.Sublist.refl _) (by simp) hdist₂
    refine ⟨.node none none ps, ?_, hpunteros.arbol hsiguen, fun _ ↦ ⟨hpunteros, hsiguen⟩⟩
    rw [decide_eq_true heq] at hdiff
    rw [List.cons_append] at hps
    simp only [hdiff, Option.bind_eq_bind, Option.bind_some, Bool.not_true, Bool.false_eq_true,
      if_false, hps]

/-- The body on a single entry. -/
theorem nodo_hoja (build : CStr → List ε → Option (MessageTree ε × List ε)) (hne : pref ≠ [])
    (hbajo : Bajo campo pref [e]) (hrest : ∀ e, rest.head? = some e → ¬pref <+: campo e) :
    ∃ t, nodo campo build pref ([e] ++ rest) = some (t, rest) ∧ Arbol campo t pref [e] := by
  obtain ⟨s, hs⟩ := hbajo.pref e List.mem_cons_self
  have hpref : pref.isPrefixOf (campo e) = true :=
    List.isPrefixOf_iff_prefix.mpr (hbajo.pref e List.mem_cons_self)
  have hlast : (rest.head?.all fun e ↦ pref ≠ [] ∧ !pref.isPrefixOf (campo e)) = true := by
    cases hhead : rest.head? with
    | none => rfl
    | some r =>
        have hr := mt List.isPrefixOf_iff_prefix.mp (hrest r hhead)
        simp [hne, hr]
  have hdrop : (campo e).drop pref.length = s := by rw [← hs, List.drop_left]
  have hsignos : ∀ c ∈ s, Signo c := fun c hc ↦
    hbajo.signos e List.mem_cons_self c (hs ▸ List.mem_append_right _ hc)
  refine ⟨_, ?_, arbol_hoja hs.symm hsignos⟩
  rw [List.singleton_append, nodo, if_pos hpref, if_pos hlast, hdrop]

/-- The trees below a letter are built, while there is room in `newprefix`. -/
theorem construye_doMsgTree {libre : Nat} (hlibre : pref.length + (libre + 1) = 63) :
    Construye campo pref (doMsgTree campo libre) := by
  have hhoja : ∀ (build : CStr → List ε → Option (MessageTree ε × List ε)) c e rest,
      Bajo campo (pref ++ [c]) [e] → (∀ e, rest.head? = some e → ¬pref ++ [c] <+: campo e) →
      ∃ t, nodo campo build (pref ++ [c]) ([e] ++ rest) = some (t, rest) ∧
        Arbol campo t (pref ++ [c]) [e] :=
    fun build c e rest hbajo hrest ↦ nodo_hoja build (by simp) hbajo hrest
  induction libre generalizing pref with
  | zero =>
      intro c es rest _ hne hbajo hrest
      obtain ⟨e₁, es, rfl⟩ := List.exists_cons_of_ne_nil hne
      cases es with
      | nil => exact hhoja _ c e₁ rest hbajo hrest
      | cons e₂ es =>
          -- Two entries would fill `newprefix` with a common prefix.
          have hlen : (pref ++ [c]).length = 63 := by simpa using hlibre
          have htake : ∀ e ∈ e₁ :: e₂ :: es, (campo e).take 63 = pref ++ [c] := by
            intro e he
            obtain ⟨s, hs⟩ := hbajo.pref e he
            rw [← hs, ← hlen, List.take_left]
          have hlt := (List.pairwise_cons.mp hbajo.orden).1 e₂ List.mem_cons_self
          have hdist : campo e₁ ≠ campo e₂ := fun heq ↦
            List.lt_irrefl _ (heq ▸ hlt)
          refine absurd ?_ (hbajo.corto e₁ List.mem_cons_self e₂ (by simp) hdist)
          rw [htake e₁ List.mem_cons_self, htake e₂ (by simp)]
  | succ libre ih =>
      intro c es rest _ hne hbajo hrest
      obtain ⟨e₁, es, rfl⟩ := List.exists_cons_of_ne_nil hne
      cases es with
      | nil => exact hhoja _ c e₁ rest hbajo hrest
      | cons e₂ es =>
          have hbuild : Construye campo (pref ++ [c]) (doMsgTree campo libre) :=
            ih (by simp; omega) fun build c e rest hbajo hrest ↦
              nodo_hoja build (by simp) hbajo hrest
          obtain ⟨t, hnodo, harbol, -⟩ := nodo_interior hbuild hbajo hrest
          exact ⟨t, hnodo, harbol⟩

/-! ## The tables -/

section

variable (campo : ε → CStr)

/-- A sorted table of at least two entries. The entries differ in letters, within the first 63
characters, and other characters than letters are `_`. -/
structure Tabla (es : List ε) : Prop where
  dos : 2 ≤ es.length
  ne : ∀ e ∈ es, campo e ≠ []
  orden : es.Pairwise fun e e' ↦ campo e < campo e'
  signos : ∀ e ∈ es, ∀ c ∈ campo e, Letra c ∨ c = '_'
  letra : ∀ e ∈ es, ∀ e' ∈ es, campo e ≠ campo e' → ∀ q c s, campo e = q ++ c :: s →
    q <+: campo e' → Letra c
  corto : ∀ e ∈ es, ∀ e' ∈ es, campo e ≠ campo e' → (campo e).take 63 ≠ (campo e').take 63

/-- A tree recognises exactly the entries of a table. -/
structure Reconoce (root : MessageTree ε) (es : List ε) : Prop where
  client : ∀ cmd b, (∀ c ∈ cmd, c.toNat < 256) → nul ∉ cmd →
    ∃ r, msgTreeParseClient root (cmd ++ nul :: b) = some r ∧
      ∀ e, r = some e ↔ e ∈ es ∧ campo e = cmd.map Char.toUpper
  termina : ∀ cmd b, nul ∉ cmd → ∃ r, msgTreeParse root (cmd ++ nul :: b) = some r
  propio : ∀ e ∈ es, ∀ b, msgTreeParse root (campo e ++ nul :: b) = some (some e)

end

/-- A sorted table of commands of letters. -/
theorem Tabla.of_letras (dos : 2 ≤ es.length) (ne : ∀ e ∈ es, campo e ≠ [])
    (orden : es.Pairwise fun e e' ↦ campo e < campo e')
    (letras : ∀ e ∈ es, ∀ c ∈ campo e, Letra c)
    (corto : ∀ e ∈ es, ∀ e' ∈ es, campo e ≠ campo e' → (campo e).take 63 ≠ (campo e').take 63) :
    Tabla campo es where
  dos := dos
  ne := ne
  orden := orden
  signos := fun e he c hc ↦ .inl (letras e he c hc)
  letra := fun e he _ _ _ _ c _ hs _ ↦ letras e he c (by rw [hs]; simp)
  corto := corto

/-- The loop of `msg_tree_parse` ends at the terminator, in any tree. -/
theorem exists_recorre (t : MessageTree ε) {cmd : CStr} (b : List Char) :
    ∃ r, recorre t (cmd ++ nul :: b) = some r := by
  induction cmd generalizing t with
  | nil =>
      obtain ⟨final, msg, ps⟩ := t
      rw [List.nil_append, recorre, puntero_nul]
      split <;> exact ⟨_, rfl⟩
  | cons c cmd ih =>
      obtain ⟨final, msg, ps⟩ := t
      rw [List.cons_append, recorre]
      split
      · exact ⟨_, rfl⟩
      · split
        · exact ⟨_, rfl⟩
        · exact ih _

/-- The entry that is found is the one with the text that is looked for. -/
theorem find?_eq_some_iff {k : CStr} (horden : es.Pairwise fun e e' ↦ campo e < campo e') :
    es.find? (fun e ↦ campo e = k) = some e ↔ e ∈ es ∧ campo e = k := by
  constructor
  · intro h
    exact ⟨List.mem_of_find?_eq_some h, by simpa using List.find?_some h⟩
  · rintro ⟨he, hk⟩
    induction es with
    | nil => cases he
    | cons x es ih =>
        obtain ⟨hx, horden⟩ := List.pairwise_cons.mp horden
        rcases List.mem_cons.mp he with rfl | he
        · exact List.find?_cons_of_pos (by simpa using hk)
        · have hne : campo x ≠ k := fun heq ↦ by
            have hlt := hx e he
            rw [heq, hk] at hlt
            exact List.lt_irrefl _ hlt
          rw [List.find?_cons_of_neg (by simpa using hne)]
          exact ih horden he

/-- The tree of a table recognises it. -/
theorem Tabla.reconoce (h : Tabla campo es) :
    ∃ root, doMsgTree campo 63 [] es = some (root, []) ∧ Reconoce campo root es := by
  have hbajo : Bajo campo [] es := ⟨fun e _ ↦ List.nil_prefix, h.orden, h.signos, h.letra, h.corto⟩
  obtain ⟨e₁, e₂, es, rfl⟩ : ∃ e₁ e₂ es', es = e₁ :: e₂ :: es' := by
    have hdos := h.dos
    match es, hdos with
    | e₁ :: e₂ :: es, _ => exact ⟨e₁, e₂, es, rfl⟩
  have hbuild : Construye campo [] (doMsgTree campo 62) := construye_doMsgTree rfl
  obtain ⟨root, hnodo, -, hroot⟩ := nodo_interior hbuild hbajo
    (show ∀ e, ([] : List ε).head? = some e → ¬[] <+: campo e by simp)
  obtain ⟨hpunteros, hsiguen⟩ := hroot (h.ne e₁ List.mem_cons_self)
  rw [List.append_nil] at hnodo
  refine ⟨root, hnodo, ?_, ?_, ?_⟩
  · intro cmd b hcmd hnul
    have hparse : msgTreeParseClient root (cmd ++ nul :: b) =
        some ((e₁ :: e₂ :: es).find? fun e ↦ campo e = cmd.map Char.toUpper) := by
      cases cmd with
      | nil =>
          have hnone : (e₁ :: e₂ :: es).find? (fun e ↦ campo e = [].map Char.toUpper) = none :=
            List.find?_eq_none.mpr fun e he heq ↦ h.ne e he (by simpa using heq)
          rw [hnone, List.nil_append, msgTreeParseClient, puntero_nul]
      | cons c cmd =>
          obtain ⟨hc, hcmd⟩ := List.forall_mem_cons.mp hcmd
          exact hpunteros.client hsiguen hc hcmd (List.not_mem_of_not_mem_cons hnul) b
    exact ⟨_, hparse, fun e ↦ find?_eq_some_iff h.orden⟩
  · intro cmd b _
    cases cmd with
    | nil =>
        rw [List.nil_append, msgTreeParse, puntero_nul]
        exact ⟨_, rfl⟩
    | cons c cmd =>
        rw [List.cons_append, msgTreeParse]
        split
        · exact ⟨_, rfl⟩
        · exact exists_recorre _ b
  · intro e he b
    obtain ⟨c, s, hc, hs⟩ := hsiguen e he
    obtain ⟨t, ht, hrecorre⟩ := hpunteros.propio hc he hs b
    rw [hs, List.nil_append, List.cons_append, msgTreeParse, ht]
    exact hrecorre

/-- The trees recognise exactly their tables. `msg_tree_parse_client` finds an entry exactly when the
command is that of the entry up to letter case, both functions end at the terminator of any command
at the latest, and `msg_tree_parse` finds each entry by its own command. -/
theorem arboles_exactos :
    (∀ msgtab : List Message, Tabla Message.cmd msgtab →
      ∃ root, doMsgTreeCmd msgtab = some (root, []) ∧ Reconoce Message.cmd root msgtab) ∧
    ∀ msgtabTok : List Message, Tabla Message.tok msgtabTok →
      ∃ root, doMsgTreeTok msgtabTok = some (root, []) ∧ Reconoce Message.tok root msgtabTok :=
  ⟨fun _ h ↦ h.reconoce, fun _ h ↦ h.reconoce⟩

/-- A table where a command is a part of another one. -/
def msgtabTres : List Message :=
  [⟨"MAP".toList, "MAP".toList⟩, ⟨"USER".toList, "USER".toList⟩, ⟨"USERHOST".toList, "UU".toList⟩]

/-- The tree of three commands finds one of them, in any case. -/
theorem arboles_exactos_tres : ∃ root, doMsgTreeCmd msgtabTres = some (root, []) ∧
    Reconoce Message.cmd root msgtabTres :=
  arboles_exactos.1 msgtabTres
    (.of_letras (by decide) (by decide) (by decide) (by simp [msgtabTres, Letra]) (by decide))

/-- The only command of a table is put where neither function looks. -/
theorem not_arboles_exactos :
    ¬∀ msgtab : List Message, msgtab.Pairwise (fun e e' ↦ e.cmd < e'.cmd) →
      (∀ e ∈ msgtab, e.cmd ≠ [] ∧ ∀ c ∈ e.cmd, Letra c) →
      ∃ root rest, doMsgTreeCmd msgtab = some (root, rest) ∧ Reconoce Message.cmd root msgtab := by
  intro h
  obtain ⟨root, rest, hroot, hreconoce⟩ := h [⟨"NICK".toList, "N".toList⟩] (by decide)
    (by simp [Letra])
  have hhoja : doMsgTreeCmd [⟨"NICK".toList, "N".toList⟩] =
      some (.node (some "NICK".toList) (some ⟨"NICK".toList, "N".toList⟩) (List.replicate 26 none),
        []) := rfl
  obtain ⟨rfl, -⟩ := Prod.mk.inj (Option.some.inj (hhoja.symm.trans hroot))
  obtain ⟨r, hr, hiff⟩ := hreconoce.client "NICK".toList [] (by simp) (by decide)
  have hsome := (hiff ⟨"NICK".toList, "N".toList⟩).mpr ⟨List.mem_cons_self, by decide⟩
  obtain rfl : none = r := Option.some.inj hr
  cases hsome

end Ircd.Parse
