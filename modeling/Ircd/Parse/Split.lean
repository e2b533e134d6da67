import Ircd.Lib.Buffer
import Ircd.Parse

/-!
# The parameters in the buffer of a message

`parseClient` and `parseServer` are the ends of the functions of that name in `ircd/parse.c`: the
command is cut off in the buffer of the message, its parameters are cut apart there, and `para` gets
pointers to them. `none` stands for an access outside the buffer or the array. `bucle_spec` says
that the loop leaves the parameters of `params`. The main theorem, `parametros_mensaje`, says that
both functions get the parameters back from which a message was made, and that no message writes
behind the end of `para`.
-/

namespace Ircd.Parse

open Buffer CString

/-! ## The functions -/

/-- `while (*s == ' ') *s++ = '\0';` with `k` bytes left at most. -/
def quitaBlancos : Nat → List Char → Nat → Option (List Char × Nat)
  | 0, _, _ => none
  | k + 1, mem, s => do
      if (← mem[s]?) = ' ' then quitaBlancos k (← poke mem s nul) (s + 1) else some (mem, s)

/-- `for (; *s != ' ' && *s; s++);` with `k` bytes left at most. -/
def finPalabra (mem : List Char) : Nat → Nat → Option Nat
  | 0, _ => none
  | k + 1, s => do
      let c ← mem[s]?
      if c ≠ ' ' ∧ c ≠ nul then finPalabra mem k (s + 1) else some s

/-- The buffer of a message, the array `para` of pointers into it, and the number `i` of the last one
that has been filled in. `none` is `NULL`. -/
structure Reparto where
  buffer : List Char
  para : List (Option Nat)
  i : Nat

/-- The loop over the parameters. -/
def bucle (paramcount : Nat) : Nat → List Char → List (Option Nat) → Nat → Nat → Option Reparto
  | 0, _, _, _, _ => none
  | fuel + 1, mem, para, i, s => do
      let (mem, s) ← quitaBlancos mem.length mem s
      let c ← mem[s]?
      if c = nul then some ⟨mem, para, i⟩
      else if c = ':' then some ⟨mem, ← poke para (i + 1) (some (s + 1)), i + 1⟩
      else do
        let para ← poke para (i + 1) (some s)
        if paramcount ≤ i + 1 then some ⟨mem, para, i + 1⟩
        else bucle paramcount fuel mem para (i + 1) (← finPalabra mem mem.length s)

/-- The parameters behind a command, when there is something behind it, and `para[++i] = NULL`. -/
def parte (paramcount : Nat) (mem : List Char) (para : List (Option Nat)) (s : Option Nat) :
    Option Reparto := do
  let r ← match s with
    | none => some ⟨mem, para, 0⟩
    | some s => bucle (min paramcount MAXPARA) mem.length mem para 0 s
  some { r with para := ← poke r.para (r.i + 1) none, i := r.i + 1 }

/-- `strchr (ch, ' ')`. -/
def buscaBlanco (mem : List Char) (ch : Nat) : Option (Option Nat) := do
  let s ← finPalabra mem mem.length ch
  some (if (← mem[s]?) = ' ' then some s else none)

section

variable (limite : CStr → Option Nat) (mem : List Char) (para : List (Option Nat)) (ch : Nat)

/-- A command that is looked up: `limite` gives the number of its parameters. The inner `none` is
`return -1`. -/
def parteOrden (s : Option Nat) : Option (Option Reparto) := do
  let mem ← s.elim (some mem) (poke mem · nul)
  match limite (← cadena mem ch) with
  | none => some none
  | some paramcount => (parte paramcount mem para (s.map (· + 1))).map some

/-- The end of `parse_client`, from the place of the command on. -/
def parseClient : Option (Option Reparto) := do
  if (← mem[ch]?) = nul then some none
  else parteOrden limite mem para ch (← buscaBlanco mem ch)

/-- The end of `parse_server`. A numeric is not looked up, and the blank behind it stays for the
loop. -/
def parseServer : Option (Option Reparto) := do
  let c ← mem[ch]?
  if c = nul then some none
  else
    let s ← buscaBlanco mem ch
    let len := s.elim 0 (· - ch)
    if len = 3 ∧ c.isDigit then (parte MAXPARA mem para s).map some
    else parteOrden limite mem para ch s

end

/-- The parameters that a handler finds at `para[1]` and behind it, up to `NULL`. -/
def Reparto.parametros (r : Reparto) : List (Option CStr) :=
  ((r.para.drop 1).take (r.i - 1)).map fun p ↦ p.bind (cadena r.buffer)

/-! ## Blanks and words -/

variable {a b t w mem : List Char} {k n i ch : Nat}

/-- A run of blanks is overwritten. -/
theorem quitaBlancos_replicate (hk : k < n) (ht : ∀ c, (t ++ nul :: b).head? = some c → c ≠ ' ') :
    quitaBlancos n (a ++ (List.replicate k ' ' ++ (t ++ nul :: b))) a.length =
      some (a ++ (List.replicate k nul ++ (t ++ nul :: b)), a.length + k) := by
  induction k generalizing a n with
  | zero =>
      obtain ⟨n, rfl⟩ : ∃ m, n = m + 1 := ⟨n - 1, by omega⟩
      obtain ⟨c, r, hc⟩ : ∃ c r, t ++ nul :: b = c :: r :=
        List.exists_cons_of_ne_nil (by simp)
      have hne : c ≠ ' ' := ht c (by rw [hc]; rfl)
      simp [quitaBlancos, hc, hne]
  | succ k ih =>
      obtain ⟨n, rfl⟩ : ∃ m, n = m + 1 := ⟨n - 1, by omega⟩
      have hget : (a ++ (List.replicate (k + 1) ' ' ++ (t ++ nul :: b)))[a.length]? = some ' ' := by
        simp [List.replicate_succ]
      have hpoke : poke (a ++ (List.replicate (k + 1) ' ' ++ (t ++ nul :: b))) a.length nul =
          some (a ++ nul :: (List.replicate k ' ' ++ (t ++ nul :: b))) :=
        poke_append rfl
      have hrest := ih (a := a ++ [nul]) (n := n) (by omega)
      rw [List.length_append, List.length_singleton, List.append_assoc, List.append_assoc] at hrest
      rw [quitaBlancos]
      simp only [hget, hpoke, Option.bind_eq_bind, Option.bind_some, if_true]
      rw [List.singleton_append] at hrest
      rw [hrest, List.replicate_succ, List.singleton_append, List.cons_append, Nat.add_assoc,
        Nat.add_comm 1]

/-- A word ends at a blank or at the end of the text. -/
theorem finPalabra_append (hw : ' ' ∉ w) (hnul : nul ∉ w) (hn : w.length < n)
    (ht : t = [] ∨ t.head? = some ' ') :
    finPalabra (a ++ (w ++ (t ++ nul :: b))) n a.length = some (a.length + w.length) := by
  induction w generalizing a n with
  | nil =>
      obtain ⟨n, rfl⟩ : ∃ m, n = m + 1 := ⟨n - 1, by omega⟩
      rcases ht with rfl | ht
      · simp [finPalabra]
      · obtain ⟨t, rfl⟩ := List.head?_eq_some_iff.mp ht
        simp [finPalabra]
  | cons c w ih =>
      obtain ⟨n, rfl⟩ : ∃ m, n = m + 1 := ⟨n - 1, by omega⟩
      obtain ⟨hc, hw⟩ := List.ne_and_not_mem_of_not_mem_cons hw
      obtain ⟨hcnul, hnul⟩ := List.ne_and_not_mem_of_not_mem_cons hnul
      have hget : (a ++ (c :: w ++ (t ++ nul :: b)))[a.length]? = some c := by simp
      have hrest := ih (a := a ++ [c]) (n := n) hw hnul (by simpa using hn)
      rw [List.length_append, List.length_singleton, List.append_assoc, List.singleton_append]
        at hrest
      rw [finPalabra]
      simp only [hget, Option.bind_eq_bind, Option.bind_some, if_pos (And.intro hc.symm hcnul.symm)]
      rw [List.cons_append, hrest, List.length_cons]
      congr 1
      omega

/-- A text begins with a run of blanks. -/
theorem exists_blancos (t : List Char) : ∃ k, t = List.replicate k ' ' ++ t.dropWhile (· == ' ') ∧
    ∀ c, (t.dropWhile (· == ' ')).head? = some c → c ≠ ' ' := by
  have hall : t.takeWhile (· == ' ') =
      List.replicate (t.takeWhile (· == ' ')).length ' ' :=
    List.eq_replicate_iff.mpr ⟨rfl, fun c hc ↦ by simpa using List.mem_takeWhile_imp hc⟩
  refine ⟨(t.takeWhile (· == ' ')).length, ?_, fun c hc ↦ ?_⟩
  · rw [← hall, List.takeWhile_append_dropWhile]
  · have hhead := List.head?_dropWhile_not (· == ' ') t
    rw [hc] at hhead
    simpa using hhead

/-- A text at a word is split behind it. -/
theorem exists_palabra {c : Char} (hc : c ≠ ' ') (resto : List Char) : ∃ w t,
    c :: resto = c :: w ++ t ∧ ' ' ∉ c :: w ∧ (t = [] ∨ t.head? = some ' ') := by
  have htake : (c :: resto).takeWhile (· != ' ') = c :: resto.takeWhile (· != ' ') :=
    List.takeWhile_cons_of_pos (by simpa using hc)
  refine ⟨resto.takeWhile (· != ' '), (c :: resto).dropWhile (· != ' '), ?_, fun h ↦ ?_, ?_⟩
  · rw [← htake, List.takeWhile_append_dropWhile]
  · rw [← htake] at h
    simpa using List.mem_takeWhile_imp h
  · have hno := List.head?_dropWhile_not (· != ' ') (c :: resto)
    cases ht : (c :: resto).dropWhile (· != ' ') with
    | nil => exact .inl rfl
    | cons d t => exact .inr (by simpa [ht] using hno)

/-- How a text begins, as the loop sees it. -/
inductive Comienzo : CStr → Prop
  | blancos (k : Nat) : Comienzo (List.replicate k ' ')
  | ultimo (k : Nat) (resto : CStr) : Comienzo (List.replicate k ' ' ++ ':' :: resto)
  | palabra (k : Nat) {w t : CStr} (hw : Middle w) (ht : t = [] ∨ t.head? = some ' ') :
      Comienzo (List.replicate k ' ' ++ (w ++ t))

theorem comienzo (t : CStr) : Comienzo t := by
  obtain ⟨k, hsplit, hhead⟩ := exists_blancos t
  rw [hsplit]
  cases hresto : t.dropWhile (· == ' ') with
  | nil =>
      rw [List.append_nil]
      exact .blancos k
  | cons c resto =>
      by_cases hc : c = ':'
      · rw [hc]
        exact .ultimo k resto
      · obtain ⟨w, u, hpalabra, hblanco, hu⟩ := exists_palabra (hhead c (by rw [hresto]; rfl)) resto
        rw [hpalabra]
        exact .palabra k ⟨List.cons_ne_nil _ _, hblanco, fun h ↦ hc (Option.some.inj h)⟩ hu

/-! ## The loop -/

/-- The loop does not take more parameters than there is room for. -/
theorem length_params_le (n : Nat) (t : CStr) : (params n t).length ≤ n := by
  induction n generalizing t with
  | zero => simp [params]
  | succ n ih =>
      rw [params]
      split
      · simp
      · split
        · simp
        · split
          · simp
          · rw [List.length_cons]
            exact Nat.succ_le_succ (ih _)

theorem params_nil (n : Nat) : params n [] = [] := by
  cases n <;> rfl

/-- The blanks in front of the parameters do not matter. -/
theorem params_blancos (n k : Nat) (t : CStr) :
    params n (List.replicate k ' ' ++ t) = params n t := by
  cases n with
  | zero => rfl
  | succ n =>
      have hdrop : (List.replicate k ' ' ++ t).dropWhile (· == ' ') = t.dropWhile (· == ' ') :=
        List.dropWhile_append_of_pos fun c hc ↦ by simp [List.eq_of_mem_replicate hc]
      rw [params, params, hdrop]

/-- The last parameter that there is room for takes the rest of the text. -/
theorem params_uno {c : Char} (hc : c ≠ ' ') (hcolon : c ≠ ':') (s : CStr) :
    params 1 (c :: s) = [c :: s] := by
  have hdrop : (c :: s).dropWhile (· == ' ') = c :: s :=
    List.dropWhile_cons_of_neg (by simpa using hc)
  rw [params, hdrop]
  simp only [if_neg hcolon, if_true]

/-- What the loop leaves behind a part `a` of the buffer that it has passed: the pointers `ps` are in
the next slots of `para`, and the strings there are the parameters. The text has been overwritten
by `t'`. -/
structure Bucle (a t b : List Char) (post : List (Option Nat)) (n : Nat) (t' : List Char)
    (ps : List Nat) (rest : List (Option Nat)) : Prop where
  length : t'.length = t.length
  head : t.head? = some ' ' → t'.head? = some nul
  slots : ps.length + rest.length = post.length
  cadenas : ps.map (cadena (a ++ (t' ++ nul :: b))) = (params n t).map some

/-- Where there was a blank in front of `s`, there is a terminator. -/
theorem head_blancos {s u : CStr} (hs : s.head? ≠ some ' ')
    (h : (List.replicate k ' ' ++ s).head? = some ' ') :
    (List.replicate k nul ++ u).head? = some nul := by
  cases k with
  | zero => exact absurd h hs
  | succ k => rfl

/-- Behind the last parameter only blanks are left. -/
theorem Bucle.nada (a b : List Char) (post : List (Option Nat)) (n k : Nat) :
    Bucle a (List.replicate k ' ') b post n (List.replicate k nul) [] post := by
  refine ⟨by simp, fun h ↦ ?_, by simp, ?_⟩
  · have hhead := head_blancos (s := []) (u := []) (k := k) (by simp) (by simpa using h)
    simpa using hhead
  · have hparams := params_blancos n k []
    rw [List.append_nil, params_nil] at hparams
    rw [hparams]
    rfl

/-- The parameter `q` is the rest of the text. -/
theorem Bucle.uno {s q : CStr} {p : Nat} (hs : s.head? ≠ some ' ') (hq : params n s = [q])
    (hp : cadena (a ++ (List.replicate k nul ++ s ++ nul :: b)) p = some q) (x : Option Nat)
    (post : List (Option Nat)) : Bucle a (List.replicate k ' ' ++ s) b (x :: post) n
      (List.replicate k nul ++ s) [p] post := by
  refine ⟨by simp, head_blancos hs, by simp; omega, ?_⟩
  rw [params_blancos, hq, List.map_singleton, hp]
  rfl

/-- One more parameter in front. -/
theorem Bucle.palabra {t' : List Char} {ps : List Nat} {post rest : List (Option Nat)}
    (hw : Middle w) (hnul : nul ∉ w) (ht : t = [] ∨ t.head? = some ' ')
    (h : Bucle (a ++ List.replicate k nul ++ w) t b post (n + 1) t' ps rest) (x : Option Nat) :
    Bucle a (List.replicate k ' ' ++ (w ++ t)) b (x :: post) (n + 2)
      (List.replicate k nul ++ (w ++ t')) ((a.length + k) :: ps) rest := by
  have hmem : a ++ List.replicate k nul ++ w ++ (t' ++ nul :: b) =
      a ++ (List.replicate k nul ++ (w ++ t') ++ nul :: b) := by simp
  -- The blank behind the word, or the terminator there, ends it.
  obtain ⟨u, hu⟩ : ∃ u, t' ++ nul :: b = nul :: u := by
    rcases ht with rfl | ht
    · exact ⟨b, by rw [List.length_eq_zero_iff.mp h.length, List.nil_append]⟩
    · obtain ⟨v, rfl⟩ := List.head?_eq_some_iff.mp (h.head ht)
      exact ⟨v ++ nul :: b, rfl⟩
  have hcadena : cadena (a ++ (List.replicate k nul ++ (w ++ t') ++ nul :: b)) (a.length + k) =
      some w := by
    rw [← hmem, hu, List.append_assoc (a ++ List.replicate k nul)]
    exact cadena_append (by simp) hnul
  have hhead : (w ++ t).head? ≠ some ' ' := by
    obtain ⟨c, w, rfl⟩ := List.exists_cons_of_ne_nil hw.1
    exact fun hc ↦ hw.2.1 (List.mem_of_head? hc)
  have hlength := h.length
  have hslots := h.slots
  have hcadenas := h.cadenas
  rw [hmem] at hcadenas
  refine ⟨by simp [hlength], head_blancos hhead, by simp; omega, ?_⟩
  have hparams : params (n + 2) (w ++ t) = w :: params (n + 1) t := by
    rw [← params_blancos _ 1]
    exact params_middle (Nat.succ_ne_zero n) hw ht
  rw [params_blancos, hparams, List.map_cons, List.map_cons, hcadena, hcadenas]

section

variable {pre post : List (Option Nat)} {x : Option Nat} (paramcount fuel : Nat)

/-- The loop at the end of the text. -/
theorem bucle_blancos (para : List (Option Nat)) :
    bucle paramcount (fuel + 1) (a ++ (List.replicate k ' ' ++ nul :: b)) para i a.length =
      some ⟨a ++ (List.replicate k nul ++ nul :: b), para, i⟩ := by
  have hquita := quitaBlancos_replicate (a := a) (b := b) (t := []) (k := k)
    (n := (a ++ (List.replicate k ' ' ++ nul :: b)).length) (by simp; omega)
    (by simp [nul])
  have hget : (a ++ (List.replicate k nul ++ nul :: b))[a.length + k]? = some nul := by
    rw [← List.append_assoc, List.getElem?_append_right (by simp)]
    simp
  rw [List.nil_append] at hquita
  rw [bucle]
  simp only [hquita, hget, Option.bind_eq_bind, Option.bind_some, if_true]

/-- The loop at a parameter. -/
theorem bucle_signo {q : List (Option Nat)} {c : Char} (hc : c ≠ ' ') (hnul : c ≠ nul) (s : List Char)
    (hpre : pre.length = i + 1) {mem : List Char}
    (hmem : mem = a ++ (List.replicate k nul ++ (c :: s ++ nul :: b))) :
    bucle paramcount (fuel + 1) (a ++ (List.replicate k ' ' ++ (c :: s ++ nul :: b)))
        (pre ++ x :: q) i a.length =
      if c = ':' then some ⟨mem, pre ++ some (a.length + k + 1) :: q, i + 1⟩
      else if paramcount ≤ i + 1 then some ⟨mem, pre ++ some (a.length + k) :: q, i + 1⟩
      else (finPalabra mem mem.length (a.length + k)).bind fun s ↦
        bucle paramcount fuel mem (pre ++ some (a.length + k) :: q) (i + 1) s := by
  have hquita := quitaBlancos_replicate (a := a) (b := b) (t := c :: s) (k := k)
    (n := (a ++ (List.replicate k ' ' ++ (c :: s ++ nul :: b))).length) (by simp; omega)
    (by rintro d hd rfl; exact hc (Option.some.inj hd))
  have hget : mem[a.length + k]? = some c := by
    rw [hmem, ← List.append_assoc, List.getElem?_append_right (by simp)]
    simp
  have hpoke : ∀ p, poke (pre ++ x :: q) (i + 1) p = some (pre ++ p :: q) :=
    fun p ↦ poke_append hpre
  rw [← hmem] at hquita
  rw [bucle]
  simp only [hquita, hget, hpoke, if_neg hnul, Option.bind_eq_bind, Option.bind_some]

/-- The loop at a parameter that is not the last one. -/
theorem bucle_palabra (hw : Middle w) (hnul : nul ∉ w) (ht : t = [] ∨ t.head? = some ' ')
    (hpre : pre.length = i + 1) (hi : i + 1 < paramcount) :
    bucle paramcount (fuel + 1) (a ++ (List.replicate k ' ' ++ (w ++ t) ++ nul :: b))
        (pre ++ x :: post) i a.length =
      bucle paramcount fuel (a ++ List.replicate k nul ++ w ++ (t ++ nul :: b))
        (pre ++ [some (a.length + k)] ++ post) (i + 1)
        (a ++ List.replicate k nul ++ w).length := by
  obtain ⟨hne, hblanco, hcolon⟩ := hw
  cases w with
  | nil => exact absurd rfl hne
  | cons c w =>
      have hmem : a ++ List.replicate k nul ++ (c :: w) ++ (t ++ nul :: b) =
          a ++ (List.replicate k nul ++ (c :: (w ++ t) ++ nul :: b)) := by simp
      have hfin := finPalabra_append (a := a ++ List.replicate k nul) (b := b)
        (n := (a ++ List.replicate k nul ++ (c :: w) ++ (t ++ nul :: b)).length)
        hblanco hnul (by simp; omega) ht
      have hplace : (a ++ List.replicate k nul).length = a.length + k := by simp
      rw [← List.append_assoc _ (c :: w), hplace] at hfin
      have hstep := bucle_signo (a := a) (k := k) (b := b) (x := x) (q := post)
        paramcount fuel (List.ne_of_not_mem_cons hblanco).symm (List.ne_of_not_mem_cons hnul).symm
        (w ++ t) hpre hmem
      have hcolon : c ≠ ':' := fun h ↦ hcolon (congrArg some h)
      rw [if_neg hcolon, if_neg (by omega), hfin, Option.bind_some] at hstep
      simpa [Nat.add_assoc] using hstep

/-- The loop on the text `t` at the place behind `a`, with `i` slots filled in. -/
theorem bucle_spec {a t b : List Char} {pre post : List (Option Nat)} {i fuel : Nat}
    (ht : nul ∉ t) (hpre : pre.length = i + 1) (hpost : paramcount - (i + 1) < post.length)
    (hfuel : t.length < fuel) :
    ∃ t' ps rest, bucle paramcount fuel (a ++ (t ++ nul :: b)) (pre ++ post) i a.length =
        some ⟨a ++ (t' ++ nul :: b), pre ++ (ps.map some ++ rest), i + ps.length⟩ ∧
      Bucle a t b post (paramcount - (i + 1) + 1) t' ps rest := by
  induction fuel generalizing a t pre post i with
  | zero => omega
  | succ fuel ih =>
      obtain ⟨x, post, rfl⟩ : ∃ x p, post = x :: p := List.exists_cons_of_length_pos (by omega)
      cases comienzo t with
      | blancos k => exact ⟨_, [], x :: post, bucle_blancos paramcount fuel _, .nada a b _ _ k⟩
      | ultimo k resto =>
          have hresto : nul ∉ resto := fun h ↦ ht (by simp [h])
          have hstep := bucle_signo (a := a) (k := k) (b := b) (x := x) (q := post)
            paramcount fuel (c := ':') (by decide) (by decide) resto hpre rfl
          rw [if_pos rfl, ← List.append_assoc (List.replicate k ' '),
            ← List.append_assoc (List.replicate k nul)] at hstep
          have hcadena : cadena (a ++ (List.replicate k nul ++ ':' :: resto ++ nul :: b))
              (a.length + k + 1) = some resto := by
            have happ : a ++ (List.replicate k nul ++ ':' :: resto ++ nul :: b) =
                (a ++ List.replicate k nul ++ [':']) ++ (resto ++ nul :: b) := by simp
            rw [happ]
            exact cadena_append (by simp; omega) hresto
          exact ⟨_, [a.length + k + 1], post, hstep, .uno (by simp) rfl hcadena x post⟩
      | palabra k hw htail =>
          rename_i w t
          have hnul : nul ∉ w ++ t := fun h ↦ ht (List.mem_append_right _ h)
          by_cases hlast : paramcount ≤ i + 1
          · -- There is no room for another one: the rest of the text is the last parameter.
            obtain ⟨hne, hblanco, hcolon⟩ := hw
            obtain ⟨c, w, rfl⟩ := List.exists_cons_of_ne_nil hne
            have hc := (List.ne_of_not_mem_cons hblanco).symm
            have hcolon : c ≠ ':' := fun h ↦ hcolon (congrArg some h)
            have hstep := bucle_signo (a := a) (k := k) (b := b) (x := x) (q := post)
              paramcount fuel hc (List.ne_of_not_mem_cons hnul).symm (w ++ t) hpre rfl
            rw [if_neg hcolon, if_pos hlast, ← List.append_assoc (List.replicate k ' '),
              ← List.append_assoc (List.replicate k nul)] at hstep
            have hcadena : cadena (a ++ (List.replicate k nul ++ (c :: w ++ t) ++ nul :: b))
                (a.length + k) = some (c :: w ++ t) := by
              rw [List.append_assoc, ← List.append_assoc a]
              exact cadena_append (by simp) hnul
            refine ⟨_, [a.length + k], post, hstep, .uno (by simpa using hc) ?_ hcadena x post⟩
            rw [Nat.sub_eq_zero_of_le hlast]
            exact params_uno hc hcolon (w ++ t)
          · have hlen : t.length < fuel := by
              simp only [List.length_append] at hfuel
              have hpos := List.length_pos_iff.mpr hw.1
              omega
            rw [List.length_cons] at hpost
            obtain ⟨t', ps, rest, hbucle, hspec⟩ := ih (a := a ++ List.replicate k nul ++ w)
              (fun h ↦ hnul (List.mem_append_right _ h))
              (show (pre ++ [some (a.length + k)]).length = i + 1 + 1 by simp [hpre])
              (show paramcount - (i + 1 + 1) < post.length by omega) hlen
            obtain ⟨n, hn⟩ : ∃ n, n = paramcount - (i + 1 + 1) := ⟨_, rfl⟩
            have hroom : paramcount - (i + 1) + 1 = n + 2 := by omega
            rw [← hn] at hspec
            rw [hroom, bucle_palabra paramcount fuel hw (fun h ↦ hnul (List.mem_append_left _ h)) htail
              hpre (by omega), hbucle]
            refine ⟨List.replicate k nul ++ (w ++ t'), (a.length + k) :: ps, rest, ?_,
              hspec.palabra hw (fun h ↦ hnul (List.mem_append_left _ h)) htail x⟩
            simp only [List.append_assoc, List.map_cons, List.cons_append, List.nil_append,
              List.length_cons, Option.some.injEq, Reparto.mk.injEq, true_and]
            omega

end

/-! ## Behind a command -/

/-- The room for parameters behind a command with this limit: the loop always takes one. -/
def sitio (paramcount : Nat) : Nat :=
  min paramcount MAXPARA - 1 + 1

theorem sitio_le (paramcount : Nat) : sitio paramcount ≤ MAXPARA := by
  unfold sitio MAXPARA
  omega

/-- The parameters `ps` have been stored, and `NULL` behind them. -/
structure Repartido (ps : List CStr) (r : Reparto) : Prop where
  parametros : r.parametros = ps.map some
  i : r.i = ps.length + 1
  para : r.para.length = MAXPARA + 2
  null : r.para[r.i]? = some none
  length : ps.length ≤ MAXPARA

variable {para : List (Option Nat)} {limite : CStr → Option Nat} {cmd resto : CStr}

/-- The end of a reparto: there is a slot for `NULL`. -/
theorem repartido_null (mem : List Char) (x : Option Nat) (ps : List Nat)
    (rest : List (Option Nat)) {qs : List CStr} (hlen : ps.length + rest.length = MAXPARA + 1)
    (hqs : qs.length ≤ MAXPARA)
    (hcadenas : ps.map (cadena mem) = qs.map some) : ∃ para,
      poke (x :: (ps.map some ++ rest)) (ps.length + 1) none = some para ∧
        Repartido qs ⟨mem, para, ps.length + 1⟩ := by
  have hsame : ps.length = qs.length := by simpa using congrArg List.length hcadenas
  obtain ⟨y, rest, rfl⟩ : ∃ y r, rest = y :: r := List.exists_cons_of_length_pos (by omega)
  have hplace : ([x] ++ ps.map some).length = ps.length + 1 := by simp
  refine ⟨[x] ++ (ps.map some ++ none :: rest), ?_, ?_⟩
  · rw [← List.singleton_append, ← List.append_assoc, poke_append hplace, List.append_assoc]
  · rw [List.length_cons] at hlen
    refine ⟨?_, by rw [hsame], ?_, ?_, hqs⟩
    · have htake : ((ps.map some ++ none :: rest).take ps.length) = ps.map some := by
        rw [List.take_append_of_le_length (by simp), List.take_of_length_le (by simp)]
      show (((ps.map some ++ none :: rest).take (ps.length + 1 - 1)).map fun p ↦
        p.bind (cadena mem)) = _
      rw [Nat.add_sub_cancel, htake, List.map_map, ← hcadenas]
      rfl
    · simp
      omega
    · show ([x] ++ (ps.map some ++ none :: rest))[ps.length + 1]? = some none
      rw [← List.append_assoc, ← hplace]
      simp

/-- The text behind a command is split into its parameters. -/
theorem parte_some (paramcount : Nat) (ht : nul ∉ t) (hpara : para.length = MAXPARA + 2) :
    ∃ r, parte paramcount (a ++ (t ++ nul :: b)) para (some a.length) = some r ∧
      Repartido (params (sitio paramcount) t) r := by
  obtain ⟨x, post, rfl⟩ : ∃ x p, para = x :: p := List.exists_cons_of_length_pos (by omega)
  rw [List.length_cons] at hpara
  obtain ⟨t', ps, rest, hbucle, hspec⟩ := bucle_spec (a := a) (b := b) (min paramcount MAXPARA) ht
    (show [x].length = 0 + 1 from rfl)
    (show min paramcount MAXPARA - (0 + 1) < post.length by unfold MAXPARA at hpara ⊢; omega)
    (show t.length < (a ++ (t ++ nul :: b)).length by simp; omega)
  have hle := Nat.le_trans (length_params_le (sitio paramcount) t) (sitio_le paramcount)
  have hslots := hspec.slots
  obtain ⟨para, hpoke, hrep⟩ := repartido_null _ x ps rest (by omega) hle hspec.cadenas
  rw [List.singleton_append, List.singleton_append, Nat.zero_add] at hbucle
  refine ⟨_, ?_, hrep⟩
  simp only [parte, hbucle, hpoke, Option.bind_eq_bind, Option.bind_some]

/-- A command without a blank behind it. -/
theorem parte_none (paramcount : Nat) (mem : List Char) (hpara : para.length = MAXPARA + 2) :
    ∃ r, parte paramcount mem para none = some r ∧ Repartido [] r := by
  obtain ⟨x, post, rfl⟩ : ∃ x p, para = x :: p := List.exists_cons_of_length_pos (by omega)
  rw [List.length_cons] at hpara
  obtain ⟨para, hpoke, hrep⟩ := repartido_null mem x [] post (by simpa using hpara)
    (Nat.zero_le _) (show [].map _ = [].map some from rfl)
  rw [List.map_nil, List.nil_append, List.length_nil, Nat.zero_add] at hpoke
  refine ⟨_, ?_, hrep⟩
  simp only [parte, Nat.zero_add, hpoke, Option.bind_eq_bind, Option.bind_some]
  rfl

/-- A command and what is behind it, at its place in the buffer. -/
structure Orden (cmd resto : CStr) : Prop where
  blanco : ' ' ∉ cmd
  nulCmd : nul ∉ cmd
  nulResto : nul ∉ resto
  detras : resto = [] ∨ resto.head? = some ' '

/-- What a function leaves behind a command with this limit, if it has one. -/
def Respuesta (limite : Option Nat) (resto : CStr) (o : Option (Option Reparto)) : Prop :=
  match limite with
  | none => o = some none
  | some paramcount => ∃ r, o = some (some r) ∧ Repartido (params (sitio paramcount) resto) r

/-- The limit behind a command of a server: numerics are not looked up. -/
def limiteServer (limite : CStr → Option Nat) (cmd resto : CStr) : Option Nat :=
  if cmd.length = 3 ∧ cmd.head?.any Char.isDigit ∧ resto ≠ [] then some MAXPARA else limite cmd

theorem Orden.ne_nul (h : Orden cmd resto) {c : Char} (hc : cmd ++ resto = c :: t) : c ≠ nul := by
  rintro rfl
  have hmem : nul ∈ cmd ++ resto := by simp [hc]
  exact (List.mem_append.mp hmem).elim h.nulCmd h.nulResto

section

variable (h : Orden cmd resto) (a b : List Char)
include h

/-- The blank behind a command is found. -/
theorem Orden.buscaBlanco : buscaBlanco (a ++ (cmd ++ (resto ++ nul :: b))) a.length =
    some (if resto = [] then none else some (a.length + cmd.length)) := by
  have hfin := finPalabra_append (a := a) (b := b) (t := resto)
    (n := (a ++ (cmd ++ (resto ++ nul :: b))).length) h.blanco h.nulCmd (by simp; omega) h.detras
  have hget : (a ++ (cmd ++ (resto ++ nul :: b)))[a.length + cmd.length]? =
      (resto ++ nul :: b)[0]? := by
    rw [← List.append_assoc, ← List.length_append, List.getElem?_append_right (Nat.le_refl _),
      Nat.sub_self]
  simp only [Parse.buscaBlanco, hfin, hget, Option.bind_eq_bind, Option.bind_some]
  rcases h.detras with rfl | hhead
  · simp [show nul ≠ ' ' by decide]
  · obtain ⟨t, rfl⟩ := List.head?_eq_some_iff.mp hhead
    simp

/-- The command is cut off and looked up. -/
theorem Orden.parteOrden (hpara : para.length = MAXPARA + 2) (limite : CStr → Option Nat) :
    Respuesta (limite cmd) resto
      (parteOrden limite (a ++ (cmd ++ (resto ++ nul :: b))) para a.length
        (if resto = [] then none else some (a.length + cmd.length))) := by
  rcases h.detras with rfl | hhead
  · have hcadena : cadena (a ++ (cmd ++ ([] ++ nul :: b))) a.length = some cmd :=
      cadena_append rfl h.nulCmd
    have hparams : ∀ n, params n [] = [] := params_nil
    rw [Parse.parteOrden, if_pos rfl]
    simp only [Option.elim_none, Option.bind_eq_bind, Option.bind_some, hcadena]
    cases hlimite : limite cmd with
    | none => rfl
    | some n =>
        obtain ⟨r, hr, hrep⟩ := parte_none n (a ++ (cmd ++ ([] ++ nul :: b))) hpara
        exact ⟨r, by simp only [Option.map_none, hr, Option.map_some], by rwa [hparams]⟩
  · obtain ⟨t, rfl⟩ := List.head?_eq_some_iff.mp hhead
    have hplace : (a ++ cmd).length = a.length + cmd.length := List.length_append
    have hpoke : poke (a ++ (cmd ++ (' ' :: t ++ nul :: b))) (a.length + cmd.length) nul =
        some (a ++ (cmd ++ nul :: (t ++ nul :: b))) := by
      rw [← List.append_assoc, List.cons_append, poke_append hplace, List.append_assoc]
    have hcadena : cadena (a ++ (cmd ++ nul :: (t ++ nul :: b))) a.length = some cmd :=
      cadena_append rfl h.nulCmd
    rw [Parse.parteOrden, if_neg (by simp)]
    simp only [Option.elim_some, Option.map_some, hpoke, Option.bind_eq_bind, Option.bind_some,
      hcadena]
    cases hlimite : limite cmd with
    | none => rfl
    | some n =>
        obtain ⟨r, hr, hrep⟩ := parte_some (a := a ++ (cmd ++ [nul])) (b := b) (t := t) n
          (List.not_mem_of_not_mem_cons h.nulResto) hpara
        have hmem : a ++ (cmd ++ [nul]) ++ (t ++ nul :: b) =
            a ++ (cmd ++ nul :: (t ++ nul :: b)) := by simp
        have hlen : (a ++ (cmd ++ [nul])).length = a.length + cmd.length + 1 := by
          simp [Nat.add_assoc]
        rw [hmem, hlen] at hr
        refine ⟨r, by simp only [hr, Option.map_some], ?_⟩
        rwa [← params_blancos _ 1] at hrep

/-- `parse_client` on a line. -/
theorem Orden.parseClient (hne : cmd ++ resto ≠ []) (hpara : para.length = MAXPARA + 2)
    (limite : CStr → Option Nat) :
    Respuesta (limite cmd) resto
      (parseClient limite (a ++ (cmd ++ (resto ++ nul :: b))) para a.length) := by
  obtain ⟨c, t, hc⟩ := List.exists_cons_of_ne_nil hne
  have hget : (a ++ (cmd ++ (resto ++ nul :: b)))[a.length]? = some c := by
    rw [← List.append_assoc cmd, hc]
    simp
  have hcnul : c ≠ nul := h.ne_nul hc
  have horden := h.parteOrden a b hpara limite
  simpa only [Parse.parseClient, hget, h.buscaBlanco a b, Option.bind_eq_bind, Option.bind_some,
    if_neg hcnul] using horden

/-- `parse_server` on a line. -/
theorem Orden.parseServer (hne : cmd ++ resto ≠ []) (hpara : para.length = MAXPARA + 2)
    (limite : CStr → Option Nat) :
    Respuesta (limiteServer limite cmd resto) resto
      (parseServer limite (a ++ (cmd ++ (resto ++ nul :: b))) para a.length) := by
  obtain ⟨c, t, hc⟩ := List.exists_cons_of_ne_nil hne
  have hget : (a ++ (cmd ++ (resto ++ nul :: b)))[a.length]? = some c := by
    rw [← List.append_assoc cmd, hc]
    simp
  have hcnul : c ≠ nul := h.ne_nul hc
  have horden := h.parteOrden a b hpara limite
  -- The length of the command counts only with a blank behind it.
  have hlen : (if resto = [] then none else some (a.length + cmd.length)).elim 0 (· - a.length) =
      if resto = [] then 0 else cmd.length := by
    split <;> simp
  have hnumeric : (if resto = [] then 0 else cmd.length) = 3 ∧ c.isDigit ↔
      cmd.length = 3 ∧ cmd.head?.any Char.isDigit ∧ resto ≠ [] := by
    by_cases hresto : resto = []
    · simp [hresto]
    · rw [if_neg hresto]
      cases cmd with
      | nil => simp
      | cons d cmd =>
          obtain ⟨rfl, -⟩ := List.cons.inj hc
          simp [hresto]
  rw [Parse.parseServer]
  simp only [hget, h.buscaBlanco a b, Option.bind_eq_bind, Option.bind_some, if_neg hcnul, hlen,
    hnumeric, limiteServer]
  split
  · next hnum =>
      have hplace : (a ++ cmd).length = a.length + cmd.length := List.length_append
      obtain ⟨r, hr, hrep⟩ := parte_some (a := a ++ cmd) (b := b) MAXPARA h.nulResto hpara
      rw [List.append_assoc, hplace] at hr
      rw [if_neg hnum.2.2]
      exact ⟨r, by simp only [hr, Option.map_some], hrep⟩
  · exact horden

end

/-! ## Messages -/

/-- Parameters with runs of blanks before them, one more than the number given, and a colon before
the last one. -/
def cuerpo : List (Nat × CStr) → CStr
  | [] => []
  | [(k, p)] => List.replicate (k + 1) ' ' ++ ':' :: p
  | (k, p) :: q :: ps => List.replicate (k + 1) ' ' ++ (p ++ cuerpo (q :: ps))

/-- Parameters that can be printed: only the last one is any text. -/
structure Imprimible (ps : List (Nat × CStr)) : Prop where
  middle : ∀ p ∈ ps.dropLast, Middle p.2
  limpio : ∀ p ∈ ps, nul ∉ p.2

theorem cuerpo_head (ps : List (Nat × CStr)) :
    cuerpo ps = [] ∨ (cuerpo ps).head? = some ' ' := by
  match ps with
  | [] => exact .inl rfl
  | [(k, p)] => exact .inr rfl
  | (k, p) :: q :: ps => exact .inr rfl

theorem Imprimible.sinNul {ps : List (Nat × CStr)} (h : Imprimible ps) :
    nul ∉ cuerpo ps := by
  have hblancos : ∀ k, nul ∉ List.replicate k ' ' := fun k hmem ↦
    absurd (List.eq_of_mem_replicate hmem) (by decide)
  induction ps with
  | nil => simp [cuerpo]
  | cons x ps ih =>
      obtain ⟨hx, hps⟩ := List.forall_mem_cons.mp h.limpio
      cases ps with
      | nil =>
          intro hmem
          rcases List.mem_append.mp hmem with hmem | hmem
          · exact hblancos _ hmem
          · exact hx ((List.mem_cons.mp hmem).resolve_left (by decide))
      | cons y ps =>
          have hmiddle : ∀ p ∈ (y :: ps).dropLast, Middle p.2 := fun p hp ↦
            h.middle p (List.mem_cons_of_mem _ hp)
          intro hmem
          rcases List.mem_append.mp hmem with hmem | hmem
          · exact hblancos _ hmem
          · exact (List.mem_append.mp hmem).elim hx (ih ⟨hmiddle, hps⟩)

/-- The loop gets the parameters back. -/
theorem Imprimible.params_cuerpo {ps : List (Nat × CStr)} (h : Imprimible ps) {n : Nat}
    (hn : ps.length ≤ n) : params n (cuerpo ps) = ps.map (·.2) := by
  induction ps generalizing n with
  | nil => exact params_nil n
  | cons x ps ih =>
      obtain ⟨n, rfl⟩ : ∃ m, n = m + 1 := ⟨n - 1, by rw [List.length_cons] at hn; omega⟩
      have hskip : ∀ u, params (n + 1) (List.replicate (x.1 + 1) ' ' ++ u) =
          params (n + 1) (' ' :: u) := by
        intro u
        rw [params_blancos, ← params_blancos (n + 1) 1 u]
        rfl
      cases ps with
      | nil =>
          show params (n + 1) (List.replicate (x.1 + 1) ' ' ++ ':' :: x.2) = [x.2]
          rw [hskip]
          rfl
      | cons y ps =>
          simp only [List.length_cons] at hn
          have hmiddle : ∀ p ∈ (y :: ps).dropLast, Middle p.2 := fun p hp ↦
            h.middle p (List.mem_cons_of_mem _ hp)
          have hx : Middle x.2 := h.middle x List.mem_cons_self
          show params (n + 1) (List.replicate (x.1 + 1) ' ' ++ (x.2 ++ cuerpo (y :: ps))) = _
          rw [hskip, params_middle (by omega) hx (cuerpo_head _),
            ih ⟨hmiddle, fun p hp ↦ h.limpio p (List.mem_cons_of_mem _ hp)⟩ (by simpa using hn)]
          rfl

/-- A command of a message. -/
structure Comando (cmd : CStr) : Prop where
  ne : cmd ≠ []
  blanco : ' ' ∉ cmd
  limpio : nul ∉ cmd

/-- The parameters of a message are its own, in `para` up to `NULL`. -/
def Recupera (ps : List (Nat × CStr)) (o : Option (Option Reparto)) : Prop :=
  ∃ r, o = some (some r) ∧ r.parametros = ps.map (some ·.2) ∧ r.i = ps.length + 1 ∧
    r.para[r.i]? = some none

/-- Nothing is written outside of the buffer and of `para`, and `NULL` is behind the parameters that
are stored. -/
def Cabe (o : Option (Option Reparto)) : Prop :=
  ∃ x, o = some x ∧ ∀ r, x = some r → r.i ≤ MAXPARA + 1 ∧ r.para.length = MAXPARA + 2 ∧
    r.para[r.i]? = some none

/-- A message is split into its parameters when they fit behind its command. -/
theorem Respuesta.recupera {ps : List (Nat × CStr)} {n : Nat} {o : Option (Option Reparto)}
    (h : Respuesta (some n) (cuerpo ps) o) (hps : Imprimible ps)
    (hn : ps.length ≤ min n MAXPARA) : Recupera ps o := by
  obtain ⟨r, ho, hrep⟩ := h
  have hparams := hps.params_cuerpo (show ps.length ≤ sitio n by unfold sitio; omega)
  rw [hparams] at hrep
  refine ⟨r, ho, ?_, ?_, hrep.null⟩
  · rw [hrep.parametros, List.map_map]
    rfl
  · rw [hrep.i, List.length_map]

theorem Respuesta.cabe {limite : Option Nat} {resto : CStr} {o : Option (Option Reparto)}
    (h : Respuesta limite resto o) : Cabe o := by
  cases limite with
  | none => exact ⟨none, h, fun r hr ↦ by cases hr⟩
  | some n =>
      obtain ⟨r, ho, hrep⟩ := h
      refine ⟨some r, ho, fun r' hr ↦ ?_⟩
      obtain rfl := Option.some.inj hr
      exact ⟨by rw [hrep.i]; have := hrep.length; omega, hrep.para, hrep.null⟩

/-- Each line is a command and what is behind it. -/
theorem exists_orden {t : CStr} (ht : nul ∉ t) : ∃ cmd resto, t = cmd ++ resto ∧ Orden cmd resto := by
  cases t with
  | nil => exact ⟨[], [], rfl, by simp, by simp, by simp, .inl rfl⟩
  | cons c t =>
      by_cases hc : c = ' '
      · exact ⟨[], c :: t, rfl, by simp, by simp, ht, .inr (by rw [hc]; rfl)⟩
      · obtain ⟨w, u, hsplit, hblanco, hhead⟩ := exists_palabra hc t
        rw [hsplit] at ht
        exact ⟨c :: w, u, hsplit, hblanco, fun h ↦ ht (List.mem_append_left _ h),
          fun h ↦ ht (List.mem_append_right _ h), hhead⟩

/-- Splitting undoes formatting. Behind a part `a` of a buffer, both functions get the parameters of
a message back when there are not more than the limit of its command, and on any line they store at
most `MAXPARA` of them, with `NULL` behind. -/
theorem parametros_mensaje (limite : CStr → Option Nat) (a b : List Char)
    (para : List (Option Nat)) (hpara : para.length = MAXPARA + 2) :
    (∀ cmd ps n, Comando cmd → Imprimible ps → ps.length ≤ min n MAXPARA →
      (limite cmd = some n →
        Recupera ps (parseClient limite (a ++ (cmd ++ (cuerpo ps ++ nul :: b))) para a.length)) ∧
      (limiteServer limite cmd (cuerpo ps) = some n →
        Recupera ps (parseServer limite (a ++ (cmd ++ (cuerpo ps ++ nul :: b))) para a.length))) ∧
    ∀ t, nul ∉ t → Cabe (parseClient limite (a ++ (t ++ nul :: b)) para a.length) ∧
      Cabe (parseServer limite (a ++ (t ++ nul :: b)) para a.length) := by
  constructor
  · intro cmd ps n hcmd hps hn
    have horden : Orden cmd (cuerpo ps) := ⟨hcmd.blanco, hcmd.limpio, hps.sinNul, cuerpo_head ps⟩
    have hne : cmd ++ cuerpo ps ≠ [] := by simp [hcmd.ne]
    refine ⟨fun hlimite ↦ ?_, fun hlimite ↦ ?_⟩
    · have hrespuesta := horden.parseClient a b hne hpara limite
      rw [hlimite] at hrespuesta
      exact hrespuesta.recupera hps hn
    · have hrespuesta := horden.parseServer a b hne hpara limite
      rw [hlimite] at hrespuesta
      exact hrespuesta.recupera hps hn
  · intro t ht
    obtain ⟨cmd, resto, rfl, horden⟩ := exists_orden ht
    by_cases hne : cmd ++ resto = []
    · have hget : (a ++ (cmd ++ resto ++ nul :: b))[a.length]? = some nul := by simp [hne]
      have hnone : ∀ o : Option (Option Reparto), o = some none → Cabe o :=
        fun o ho ↦ ⟨none, ho, fun r hr ↦ by cases hr⟩
      refine ⟨hnone _ ?_, hnone _ ?_⟩
      · simp only [parseClient, hget, Option.bind_eq_bind, Option.bind_some, if_true]
      · simp only [parseServer, hget, Option.bind_eq_bind, Option.bind_some, if_true]
    · rw [List.append_assoc]
      exact ⟨(horden.parseClient a b hne hpara limite).cabe,
        (horden.parseServer a b hne hpara limite).cabe⟩

/-- Two parameters behind three blanks and one, the second with blanks inside. -/
theorem parametros_mensaje_dos :
    Recupera [(2, "#irc".toList), (0, "hola  a todos".toList)]
      (parseClient (fun _ ↦ some 15) ("PRIVMSG   #irc :hola  a todos".toList ++ [nul])
        (List.replicate 17 none) 0) := by
  have hdos := (parametros_mensaje (fun _ ↦ some 15) [] [] (List.replicate 17 none) (by decide)).1
    "PRIVMSG".toList [(2, "#irc".toList), (0, "hola  a todos".toList)] 15
    ⟨by decide, by decide, by decide⟩ ⟨by decide, by decide⟩ (by decide)
  exact hdos.1 rfl

end Ircd.Parse
