import Ircd.Auth.Authports

/-!
# Replies of an ident server

`Forma` is the grammar of a reply, written without the scanner of the code. `readAuthports_correcta`
says for which replies `read_authports` keeps to its arrays and stores what the reply says: the last
colon has to be the third one, as far as the characters that are kept can tell, and behind it there is
room for ten of them.
-/

namespace Ircd.Auth

open Buffer CString Sscanf
open User.Canonize (strcpy)

/-! ## Replies -/

/-- A port of a connection. -/
structure Puerto where
  n : Nat
  pos : 0 < n
  lt : n < 2 ^ 16

/-- A text of blanks. -/
def Blancos (t : CStr) : Prop :=
  ∀ c ∈ t, isSpace c = true

/-- The digits of a number. -/
structure Cifras (n : Nat) (t : CStr) : Prop where
  ne_nil : t ≠ []
  digito : ∀ c ∈ t, c.isDigit = true
  valor : Nat.ofDigitChars 10 t 0 = n

/-- `port , port : USERID : system : user`, with blanks between any two of its parts. -/
structure Forma (p q : Puerto) (t sys user : CStr) : Prop where
  texto : ∃ b₀ n b₁ b₂ m b₃ b₄ b₅, Blancos b₀ ∧ Cifras p.n n ∧ Blancos b₁ ∧ Blancos b₂ ∧
    Cifras q.n m ∧ Blancos b₃ ∧ Blancos b₄ ∧ Blancos b₅ ∧
    t = b₀ ++ (n ++ (b₁ ++ ',' :: (b₂ ++ (m ++ (b₃ ++ ':' :: (b₄ ++ (['U', 'S', 'E', 'R', 'I', 'D'] ++
      (b₅ ++ ':' :: (sys ++ ':' :: user)))))))))
  colon : ':' ∉ sys
  sys : ∃ c ∈ sys, isSpace c = false
  user : user.filter guarda ≠ []

/-- The user name of a reply. -/
def nombre (user : CStr) : CStr :=
  (user.filter guarda).take USERLEN

/-- A system that begins with `OTHER`. -/
def esOther (sys : CStr) : Bool :=
  (sys.dropWhile isSpace).take 5 = ['O', 'T', 'H', 'E', 'R']

/-! ## The scanner on a reply -/

variable {a b s t u rest sys user : CStr} {p q : Puerto} {x c : Char}

theorem not_digit_of_isSpace (h : isSpace c = true) : c.isDigit = false := by
  by_contra hdigit
  rw [isSpace_of_isDigit (Bool.not_eq_false _ ▸ hdigit)] at h
  cases h

/-- What follows a number is not a digit. -/
theorem exists_cons_blancos (hb : Blancos b) (hx : x.isDigit = false) (rest : CStr) :
    ∃ c r, b ++ x :: rest = c :: r ∧ c.isDigit = false := by
  cases b with
  | nil => exact ⟨x, rest, rfl, hx⟩
  | cons c b => exact ⟨c, _, rfl, not_digit_of_isSpace (hb c List.mem_cons_self)⟩

theorem read_short_blancos {n : Nat} (ha : Blancos a) (ht : Cifras n t) (hn : n < 2 ^ 16)
    (hb : Blancos b) (hx : x.isDigit = false) :
    Directive.short.read (a ++ (t ++ (b ++ x :: rest))) = some ([.short n], b ++ x :: rest) := by
  obtain ⟨c, r, hcons, hc⟩ := exists_cons_blancos hb hx rest
  rw [hcons]
  exact read_short ha ht.ne_nil ht.digito ht.valor hn hc

/-- What is left of a text that is not blank behind its blanks. -/
theorem mem_dropWhile_isSpace (hx : x ∈ s) (hspace : isSpace x = false) : x ∈ s.dropWhile isSpace := by
  rw [← List.takeWhile_append_dropWhile (p := isSpace) (l := s), List.mem_append] at hx
  refine hx.resolve_left fun hmem ↦ ?_
  rw [List.mem_takeWhile_imp hmem] at hspace
  cases hspace

theorem read_blanks_sys (h : ∃ c ∈ sys, isSpace c = false) :
    Directive.blanks.read (sys ++ rest) = some ([], sys.dropWhile isSpace ++ rest) := by
  obtain ⟨c, hc, hspace⟩ := h
  have hne : sys.dropWhile isSpace ≠ [] := List.ne_nil_of_mem (mem_dropWhile_isSpace hc hspace)
  rw [Directive.read, List.dropWhile_append, if_neg (by rwa [List.isEmpty_iff])]

theorem isSpace_of_guarda (h : guarda c = true) : isSpace c = false := by
  simp only [guarda, Bool.and_eq_true, Bool.not_eq_true'] at h
  exact h.1.1

/-- The format matches a reply. -/
theorem sscanf_forma (h : Forma p q t sys user) :
    ∃ w, sscanf formato t = [.short p.n, .short q.n, .word w] := by
  obtain ⟨⟨b₀, n, b₁, b₂, m, b₃, b₄, b₅, hb₀, hn, hb₁, hb₂, hm, hb₃, hb₄, hb₅, rfl⟩, hcolon, hsys,
    huser⟩ := h
  have hskip : (Directive.skip ':').read (sys.dropWhile isSpace ++ ':' :: user) =
      some ([], ':' :: user) := by
    obtain ⟨c, hc, hspace⟩ := hsys
    exact read_skip (List.ne_nil_of_mem (mem_dropWhile_isSpace hc hspace))
      fun hmem ↦ hcolon (List.dropWhile_subset isSpace hmem)
  obtain ⟨c, hc, hguarda⟩ : ∃ c ∈ user, guarda c = true := by
    simpa only [ne_eq, List.filter_eq_nil_iff, not_forall, not_not, exists_prop] using huser
  obtain ⟨w, fin, hword⟩ := read_word (n := 10) (s := user.dropWhile isSpace) (by decide)
    ⟨c, mem_dropWhile_isSpace hc (isSpace_of_guarda hguarda), isSpace_of_guarda hguarda⟩
  have hchar : ∀ f c r, sscanf (.lit [c] :: f) (c :: r) = sscanf f r := fun f c r ↦ sscanf_lit [c] r
  have hlit : ∀ f r, sscanf (.lit ['U', 'S', 'E', 'R', 'I', 'D'] :: f)
      ('U' :: 'S' :: 'E' :: 'R' :: 'I' :: 'D' :: r) = sscanf f r := fun f r ↦ sscanf_lit _ r
  refine ⟨w, ?_⟩
  simp only [List.cons_append, List.nil_append]
  rw [formato, sscanf_cons (read_short_blancos hb₀ hn p.lt hb₁ (by decide)),
    sscanf_blanks hb₁ (by decide), hchar, sscanf_blanks_short,
    sscanf_cons (read_short_blancos hb₂ hm q.lt hb₃ (by decide)), sscanf_blanks hb₃ (by decide), hchar,
    sscanf_blanks hb₄ (by decide), hlit, sscanf_blanks hb₅ (by decide), hchar,
    sscanf_cons (read_blanks_sys hsys), sscanf_cons hskip, hchar,
    sscanf_cons (blanks_read user), sscanf_cons hword]
  rfl

/-- The fields of a reply of the form. -/
theorem forma_campos (h : Forma p q t sys user) : strchr (strchr t ':') ':' = sys ++ ':' :: user := by
  obtain ⟨⟨b₀, n, b₁, b₂, m, b₃, b₄, b₅, hb₀, hn, hb₁, hb₂, hm, hb₃, hb₄, hb₅, htexto⟩, -, -, -⟩ := h
  have hblancos : ∀ {b}, Blancos b → ':' ∉ b := fun hb hmem ↦ absurd (hb _ hmem) (by decide)
  have hcifras : ∀ {n t}, Cifras n t → ':' ∉ t := fun ht hmem ↦ absurd (ht.digito _ hmem) (by decide)
  have hcut : t = (b₀ ++ (n ++ (b₁ ++ ',' :: (b₂ ++ (m ++ b₃))))) ++ ':' ::
      ((b₄ ++ (['U', 'S', 'E', 'R', 'I', 'D'] ++ b₅)) ++ ':' :: (sys ++ ':' :: user)) := by
    rw [htexto]
    simp only [List.append_assoc, List.cons_append]
  rw [hcut, strchr_append, strchr_append]
  · simp [hblancos hb₄, hblancos hb₅]
  · simp [hblancos hb₀, hblancos hb₁, hblancos hb₂, hblancos hb₃, hcifras hn, hcifras hm]

/-- A reply that the format matches has two colons. -/
theorem exists_colons (h : (sscanf formato t).length = 3) :
    ∃ a b, t = a ++ ':' :: b ∧ ':' ∈ b := by
  have htwo : 2 < (sscanf formato t).length := by
    rw [h]
    decide
  have hrun : ∃ v rest, run (([.short, .blanks, .lit [','], .blanks, .short, .blanks] ++
      [.lit [':']]) ++ ([.blanks, .lit ['U', 'S', 'E', 'R', 'I', 'D'], .blanks] ++ [.lit [':']])) t =
      some (v, rest) :=
    exists_run_of_length (g := [.blanks, .skip ':', .lit [':'], .blanks, .word 10]) htwo
  obtain ⟨v, rest, hrun⟩ := hrun
  obtain ⟨w, mid, w', hfirst, hsecond⟩ := run_append hrun
  obtain ⟨a, rfl⟩ := exists_of_run_lit hfirst
  obtain ⟨b, rfl⟩ := exists_of_run_lit hsecond
  exact ⟨a, b ++ ':' :: rest, rfl, List.mem_append_right b List.mem_cons_self⟩

/-! ## The fields -/

/-- The loop that copies keeps the characters that there is room for. -/
theorem copia_append (s : CStr) {a b : List Char} (h : a.length + b.length = USERLEN + 1) :
    copia s a.length (a ++ b) = some (min (USERLEN + 1) (a.length + (s.filter guarda).length),
      a ++ ((s.filter guarda).take b.length ++ b.drop (s.filter guarda).length)) := by
  induction s generalizing a b with
  | nil =>
      have hmin : min (USERLEN + 1) (a.length + 0) = a.length := by omega
      rw [copia, List.filter_nil, List.length_nil, hmin, List.take_nil]
      rfl
  | cons c s ih =>
      rw [copia]
      cases b with
      | nil =>
          rw [List.length_nil, Nat.add_zero] at h
          rw [if_neg (by omega), h, Nat.min_eq_left (Nat.le_add_right _ _), List.length_nil,
            List.take_zero, List.drop_nil]
          rfl
      | cons x b =>
          rw [List.length_cons] at h
          rw [if_pos (by omega)]
          cases hc : guarda c with
          | false =>
              rw [if_neg Bool.false_ne_true, List.filter_cons_of_neg (by simp [hc]), ih h]
          | true =>
              have hlen : (a ++ [c]).length = a.length + 1 := by
                rw [List.length_append, List.length_singleton]
              have hstep := @ih (a ++ [c]) b (by rw [hlen]; omega)
              rw [hlen, List.append_assoc, List.append_assoc, Nat.add_right_comm] at hstep
              rw [if_pos rfl, poke_append rfl, List.filter_cons_of_pos hc, Option.bind_eq_bind,
                Option.bind_some]
              exact hstep

/-- `strncpy (system, t, sizeof (system) - 1)` and the terminator behind it. -/
theorem strncpy_system {system : List Char} (h : system.length = 8) :
    ∃ copia system', strncpy system s 7 = some copia ∧ poke copia 7 nul = some system' ∧
      (nul ∉ s → cadena system' 0 = some (s.take 7)) := by
  obtain ⟨x, hx⟩ : ∃ x, system.drop 7 = [x] := by
    rw [← List.length_eq_one_iff, List.length_drop, h]
  have hlen : (s.take 7 ++ List.replicate (7 - s.length) nul).length = 7 := by
    rw [List.length_append, List.length_take, List.length_replicate]
    omega
  refine ⟨_, s.take 7 ++ nul :: List.replicate (7 - s.length) nul, if_pos (by omega), ?_, fun hs ↦ ?_⟩
  · rw [hx, poke_append hlen, List.append_assoc, ← List.replicate_succ', List.replicate_succ]
  · exact cadena_zero fun hmem ↦ hs (List.mem_of_mem_take hmem)

/-- The buffer and the two arrays. -/
theorem campos_eq {buffer ruser system : List Char} (hbuffer : buffer = t ++ nul :: rest)
    (ht : nul ∉ t) (htwo : ∃ a b, t = a ++ ':' :: b ∧ ':' ∈ b) (hruser : ruser.length = USERLEN + 1)
    (hsystem : system.length = 8) :
    if ((afterLast ':' t).filter guarda).length ≤ USERLEN then
      ∃ buffer' ruser' system', campos buffer ruser system = some (buffer', ruser', system') ∧
        cadena ruser' 0 = some ((afterLast ':' t).filter guarda) ∧
        cadena system' 0 =
          some (((afterLast ':' (beforeLast ':' t)).dropWhile isSpace).take 7)
    else campos buffer ruser system = none := by
  obtain ⟨a, b, hab, hb⟩ := htwo
  obtain ⟨hcut, hlast⟩ := eq_beforeLast_append (s := t) (c := ':')
    (by rw [hab]; exact List.mem_append_right a List.mem_cons_self)
  obtain ⟨hcut', hlast'⟩ := eq_beforeLast_append (s := beforeLast ':' t) (c := ':')
    (by rw [hab, beforeLast_append a hb]; exact List.mem_append_right a List.mem_cons_self)
  generalize afterLast ':' t = u at *
  generalize beforeLast ':' t = w at *
  generalize afterLast ':' w = v at *
  generalize beforeLast ':' w = z at *
  have hnul : nul ∉ w ∧ nul ∉ u := by
    rw [hcut, List.mem_append, List.mem_cons, not_or, not_or] at ht
    exact ⟨ht.1, ht.2.2⟩
  have hnulv : nul ∉ v.dropWhile isSpace := fun hmem ↦ hnul.1 (by
    rw [hcut']
    exact List.mem_append_right z (List.mem_cons_of_mem _ (List.dropWhile_subset _ hmem)))
  have hsplit : buffer = w ++ ':' :: (u ++ nul :: rest) := by
    rw [hbuffer, hcut, List.append_assoc, List.cons_append]
  have htexto : cadena buffer 0 = some t := by rw [hbuffer, cadena_zero ht]
  have hs : strrchr ':' t = some w.length := by rw [hcut, strrchr_append hlast]
  have hpoke : poke buffer w.length nul = some (w ++ nul :: (u ++ nul :: rest)) := by
    rw [hsplit, poke_append rfl]
  have hw : cadena (w ++ nul :: (u ++ nul :: rest)) 0 = some w := cadena_zero hnul.1
  have ht : strrchr ':' w = some z.length := by rw [hcut', strrchr_append hlast']
  have hv : cadena (w ++ nul :: (u ++ nul :: rest)) (z.length + 1) = some v := by
    have hnulv : nul ∉ v := fun hmem ↦ hnul.1 (by
      rw [hcut']
      exact List.mem_append_right z (List.mem_cons_of_mem _ hmem))
    have hread := cadena_append (a := z ++ [':']) (b := u ++ nul :: rest) rfl hnulv
    rwa [List.append_assoc, List.singleton_append, List.length_append, List.length_singleton,
      ← List.cons_append, ← List.append_assoc, ← hcut'] at hread
  have hu : cadena (w ++ nul :: (u ++ nul :: rest)) (w.length + 1) = some u := by
    have hread := cadena_append (a := w ++ [nul]) (b := rest) rfl hnul.2
    rwa [List.append_assoc, List.singleton_append, List.length_append, List.length_singleton] at hread
  obtain ⟨m, system', hstrncpy, hsystem', hread⟩ := strncpy_system (s := v.dropWhile isSpace) hsystem
  have hcopia := copia_append u (a := []) (b := ruser) (by rw [List.length_nil, Nat.zero_add, hruser])
  rw [List.length_nil, List.nil_append, List.nil_append, Nat.zero_add, hruser] at hcopia
  simp only [campos, htexto, hs, hpoke, hw, ht, hv, hu, hstrncpy, hsystem', hcopia,
    Option.bind_eq_bind, Option.bind_some]
  split
  · next hle =>
      obtain ⟨x, r, hx⟩ : ∃ x r, ruser.drop (u.filter guarda).length = x :: r :=
        List.exists_cons_of_length_pos (by rw [List.length_drop, hruser]; omega)
      have hkeep : nul ∉ u.filter guarda := fun hmem ↦ hnul.2 (List.mem_of_mem_filter hmem)
      rw [Nat.min_eq_right (by omega), List.take_of_length_le (by omega), hx, poke_append rfl,
        Option.bind_some]
      exact ⟨_, _, _, rfl, cadena_zero hkeep, hread hnulv⟩
  · next hgt =>
      have hfull : ((u.filter guarda).take (USERLEN + 1) ++
          ruser.drop (u.filter guarda).length).length = USERLEN + 1 := by
        rw [List.length_append, List.length_take, List.length_drop, hruser]
        omega
      rw [Nat.min_eq_left (by omega), poke, if_neg (by rw [hfull]; exact Nat.lt_irrefl _)]
      rfl

/-! ## The end of the function -/

/-- A client that waits for the first part of a reply. -/
structure Espera (c : Cliente) : Prop where
  buffer : c.buffer.length = BUFSIZE
  count : c.count = 0
  gotid : c.gotid = false

/-- No name is stored. -/
def SinNombre (c c' : Cliente) : Prop :=
  c'.username = c.username ∧ c'.gotid = c.gotid ∧ c'.asuc = c.asuc

/-- A name is stored, with `FLAGS_GOTID` unless the system is `OTHER`. -/
def ConNombre (username : CStr) (other : Bool) (c c' : Cliente) : Prop :=
  c'.username = username ∧ c'.gotid = !other ∧ c'.asuc = c.asuc + 1

variable {cl : Cliente} {n : Nat × Nat} {ruser system : List Char} {k : CStr}

theorem head_eq_nul (h : cadena ruser 0 = some k) : ruser.head? = some nul ↔ k = [] := by
  rw [cadena, List.drop_zero] at h
  split at h
  · obtain rfl := Option.some.inj h
    cases ruser with
    | nil => simp at *
    | cons x r =>
        by_cases hx : x = nul
        · simp [hx]
        · simp [hx]
  · cases h

theorem acaba_sin (h : n.2 = 0 ∨ n.1 = 0 ∨ ruser.head? = some nul) :
    ∃ c', acaba n ruser system cl = some c' ∧ SinNombre cl c' := by
  rw [acaba, if_pos h]
  exact ⟨_, rfl, rfl, rfl, rfl⟩

theorem acaba_con (h : ¬ (n.2 = 0 ∨ n.1 = 0 ∨ ruser.head? = some nul)) (hgotid : cl.gotid = false)
    (hruser : cadena ruser 0 = some k) (hk : k.length ≤ USERLEN)
    (hsystem : cadena system 0 = some (s.take 7)) :
    ∃ c', acaba n ruser system cl = some c' ∧
      ConNombre k (s.take 5 = ['O', 'T', 'H', 'E', 'R']) cl c' := by
  rw [acaba, if_neg h]
  simp only [hruser, hsystem, Option.bind_eq_bind, Option.bind_some]
  refine ⟨_, rfl, List.take_of_length_le hk, ?_, rfl⟩
  simp only [hgotid, Bool.false_or, List.take_take]
  simp

/-! ## The reply in the buffer -/

/-- The bytes of a reply and the terminator behind them are a text and what follows it. -/
theorem exists_before (datos rest : List Char) :
    ∃ rest', datos ++ nul :: rest = before datos nul ++ nul :: rest' := by
  by_cases hnul : nul ∈ datos
  · obtain ⟨a, b, rfl, ha⟩ := List.eq_append_cons_of_mem hnul
    rw [before_append b ha, List.append_assoc]
    exact ⟨_, rfl⟩
  · rw [before_eq_self hnul]
    exact ⟨rest, rfl⟩

theorem nul_not_mem_before (datos : List Char) : nul ∉ before datos nul := by
  intro hmem
  have hne := List.mem_takeWhile_imp hmem
  exact absurd hne (by decide)

/-- What `sscanf` puts in `ruser` fits. -/
theorem length_palabra_le (s : CStr) : (palabra (sscanf formato s)).length ≤ USERLEN := by
  have hword : ∀ w, .word w ∈ sscanf formato s → w.length ≤ USERLEN := fun w ↦
    length_word_le (by decide)
  unfold palabra
  split
  · next w heq => exact hword w (by rw [heq]; simp)
  · exact Nat.zero_le _

variable {now : Int} {pila : Pila} {datos : List Char}

/-- What `sscanf` assigns from a reply; a reply that fills the buffer is not scanned. -/
def leido (datos : List Char) : List Value :=
  if 0 < datos.length ∧ datos.length ≠ BUFSIZE - 1 then sscanf formato (before datos nul) else []

/-- The start of the function: the buffer has the text of the reply. -/
theorem readAuthports_inicio (now : Int) (pila : Pila) (hc : Espera cl)
    (hlen : datos.length ≤ BUFSIZE - 1) :
    ∃ buffer rest ruser system, buffer = before datos nul ++ nul :: rest ∧
      ruser.head? = some nul ∧ ruser.length = USERLEN + 1 ∧ system.length = 8 ∧
      readAuthports now pila (some datos) cl =
        examina datos.length (before datos nul) (leido datos) ruser system
          { cl with buffer := buffer, count := datos.length, lasttime := now } := by
  obtain ⟨rest, hrest⟩ := exists_before datos (cl.buffer.drop (datos.length + 1))
  have hstrcpy : strcpy cl.buffer 0 datos = some (before datos nul ++ nul :: rest) := by
    rw [strcpy, Nat.zero_add, if_pos (by rw [hc.buffer]; unfold BUFSIZE at *; omega), List.take_zero,
      List.nil_append, hrest]
  have hsystem : poke pila.system 0 nul = some (pila.system.set 0 nul) := by
    rw [poke, if_pos (by rw [pila.length_system]; decide)]
  have hruser : poke pila.ruser 0 nul = some (pila.ruser.set 0 nul) := by
    rw [poke, if_pos (by rw [pila.length_ruser]; decide)]
  have htexto : cadena (before datos nul ++ nul :: rest) 0 = some (before datos nul) :=
    cadena_zero (nul_not_mem_before datos)
  refine ⟨_, rest, pila.ruser.set 0 nul, pila.system.set 0 nul, rfl, ?_, ?_, ?_, ?_⟩
  · obtain ⟨x, r, hx⟩ := List.exists_cons_of_length_pos (l := pila.ruser)
      (by rw [pila.length_ruser]; decide)
    rw [hx]
    rfl
  · rw [List.length_set, pila.length_ruser]
  · rw [List.length_set, pila.length_system]
  · simp only [readAuthports, hsystem, hruser, recibe, hstrcpy, htexto, hc.count, Nat.zero_add,
      Option.bind_eq_bind, Option.bind_some, Option.elim_some, Int.natCast_pos, leido]

/-- A reply that the format does not match. -/
theorem examina_sin {v : List Value} (hv : v.length ≠ 3) (hruser : ruser.head? = some nul)
    (len : Int) (texto : CStr) :
    ∃ c', examina len texto v ruser system cl = some c' ∧ SinNombre cl c' := by
  rw [examina, if_neg hv]
  split
  · split
    · exact ⟨cl, rfl, rfl, rfl, rfl⟩
    · exact acaba_sin (.inr (.inr hruser))
  · exact acaba_sin (.inr (.inr hruser))

/-- A reply that the format matches is taken apart. -/
theorem examina_tres {v : List Value} (hv : v.length = 3) {ruser₁ : List Char}
    (hstrcpy : strcpy ruser 0 (palabra v) = some ruser₁) (len : Int) (texto : CStr) :
    examina len texto v ruser system cl = (campos cl.buffer ruser₁ system).bind fun x ↦
      acaba (puertos v) x.2.1 x.2.2 { cl with buffer := x.1 } := by
  rw [examina, if_pos hv, hstrcpy]
  rfl

theorem readAuthports_sin (now : Int) (pila : Pila) (hc : Espera cl)
    (hlen : datos.length ≤ BUFSIZE - 1) (h : (leido datos).length ≠ 3) :
    ∃ c', readAuthports now pila (some datos) cl = some c' ∧ SinNombre cl c' := by
  obtain ⟨buffer, rest, ruser, system, -, hruser, -, -, hread⟩ := readAuthports_inicio now pila hc hlen
  rw [hread]
  exact examina_sin h hruser _ _

/-- What a reply that the format matches has behind its last colon and before it. -/
def ultimo (datos : List Char) : CStr :=
  (afterLast ':' (before datos nul)).filter guarda

def penultimo (datos : List Char) : CStr :=
  afterLast ':' (beforeLast ':' (before datos nul))

/-- A reply that the format matches. -/
theorem readAuthports_tres (now : Int) (pila : Pila) (hc : Espera cl)
    (hlen : datos.length ≤ BUFSIZE - 1) (h : (leido datos).length = 3) :
    if (ultimo datos).length ≤ USERLEN then
      ∃ c', readAuthports now pila (some datos) cl = some c' ∧
        (if (puertos (leido datos)).2 = 0 ∨ (puertos (leido datos)).1 = 0 ∨ ultimo datos = [] then
          SinNombre cl c'
        else ConNombre (ultimo datos) (esOther (penultimo datos)) cl c')
    else readAuthports now pila (some datos) cl = none := by
  obtain ⟨buffer, rest, ruser, system, hbuffer, -, hruser, hsystem, hread⟩ :=
    readAuthports_inicio now pila hc hlen
  have hleido : leido datos = sscanf formato (before datos nul) := by
    unfold leido at h ⊢
    split at h
    · next hcond => exact if_pos hcond
    · cases h
  have hword : (palabra (leido datos)).length ≤ USERLEN := by
    rw [hleido]
    exact length_palabra_le _
  obtain ⟨ruser₁, hruser₁⟩ : ∃ r, strcpy ruser 0 (palabra (leido datos)) = some r :=
    ⟨_, if_pos (by rw [hruser]; omega)⟩
  have hcampos := campos_eq hbuffer (nul_not_mem_before datos)
    (exists_colons (by rw [← hleido]; exact h))
    ((User.Canonize.length_strcpy hruser₁).trans hruser) hsystem
  rw [hread, examina_tres h hruser₁]
  unfold ultimo
  split
  · next hle =>
      rw [if_pos hle] at hcampos
      obtain ⟨buffer', ruser', system', hcampos, hk, hsys⟩ := hcampos
      have hhead := head_eq_nul hk
      rw [hcampos, Option.bind_some]
      split
      · next hcero => exact acaba_sin (hcero.imp_right (Or.imp_right hhead.mpr))
      · next hcero =>
          exact acaba_con (fun h ↦ hcero (h.imp_right (Or.imp_right hhead.mp))) hc.gotid hk hle hsys
  · next hgt =>
      rw [if_neg hgt] at hcampos
      rw [hcampos]
      rfl

/-! ## Which replies are read rightly -/

/-- The function keeps to its arrays, stores what a reply of the form says, and stores no name for any
other reply. -/
def Correcta (p q : Puerto) (now : Int) (pila : Pila) (datos : List Char) (cl : Cliente) : Prop :=
  ∃ c', readAuthports now pila (some datos) cl = some c' ∧
    (∀ sys user, Forma p q (before datos nul) sys user →
      ConNombre (nombre user) (esOther sys) cl c') ∧
    ((∀ sys user, ¬ Forma p q (before datos nul) sys user) → SinNombre cl c')

/-- The replies for which it does. -/
structure Condicion (p q : Puerto) (datos : List Char) : Prop where
  forma : ∀ sys user, Forma p q (before datos nul) sys user → datos.length < BUFSIZE - 1 ∧
    (afterLast ':' user).filter guarda = nombre user ∧
    esOther (afterLast ':' (beforeLast ':' (sys ++ ':' :: user))) = esOther sys
  otra : (∀ sys user, ¬ Forma p q (before datos nul) sys user) → (leido datos).length = 3 →
    (ultimo datos).length ≤ USERLEN ∧
      ((puertos (leido datos)).2 = 0 ∨ (puertos (leido datos)).1 = 0 ∨ ultimo datos = [])

theorem not_sinNombre {username : CStr} {other : Bool} {c' : Cliente}
    (h : ConNombre username other cl c') : ¬ SinNombre cl c' := by
  rintro ⟨-, -, hasuc⟩
  have hasuc' := h.2.2
  omega

/-- The last two colons of a reply of the form. -/
theorem ultimo_forma (h : Forma p q (before datos nul) sys user) :
    ultimo datos = (afterLast ':' user).filter guarda ∧
      penultimo datos = afterLast ':' (beforeLast ':' (sys ++ ':' :: user)) := by
  obtain ⟨⟨b₀, n, b₁, b₂, m, b₃, b₄, b₅, -, -, -, -, -, -, -, -, htexto⟩, -, -, -⟩ := h
  have hcut : before datos nul = (b₀ ++ (n ++ (b₁ ++ ',' :: (b₂ ++ (m ++ b₃))))) ++ ':' ::
      ((b₄ ++ (['U', 'S', 'E', 'R', 'I', 'D'] ++ b₅)) ++ ':' :: (sys ++ ':' :: user)) := by
    rw [htexto]
    simp only [List.append_assoc, List.cons_append]
  have hmem : ':' ∈ sys ++ ':' :: user := List.mem_append_right _ List.mem_cons_self
  rw [ultimo, penultimo, hcut, afterLast_append, afterLast_append, afterLast_append,
    beforeLast_append _ (List.mem_append_right _ List.mem_cons_self), beforeLast_append _ hmem,
    afterLast_append, afterLast_append]
  exact ⟨rfl, rfl⟩

/-- The values that a reply of the form gives, unless it fills the buffer. -/
theorem leido_forma (h : Forma p q (before datos nul) sys user)
    (hlen : datos.length < BUFSIZE - 1) :
    (leido datos).length = 3 ∧ puertos (leido datos) = (p.n, q.n) := by
  obtain ⟨w, hw⟩ := sscanf_forma h
  have hpos : 0 < datos.length := by
    rw [List.length_pos_iff]
    rintro rfl
    have hthree : (sscanf formato (before [] nul)).length = 3 := by
      rw [hw]
      rfl
    exact absurd hthree (by decide)
  rw [leido, if_pos ⟨hpos, Nat.ne_of_lt hlen⟩, hw]
  exact ⟨rfl, rfl⟩

/-- A reply of the form that is stored rightly. -/
theorem condicion_of_conNombre (hc : Espera cl) (hlen : datos.length ≤ BUFSIZE - 1)
    (h : Forma p q (before datos nul) sys user) {c' : Cliente}
    (hrun : readAuthports now pila (some datos) cl = some c')
    (hcon : ConNombre (nombre user) (esOther sys) cl c') :
    datos.length < BUFSIZE - 1 ∧ (afterLast ':' user).filter guarda = nombre user ∧
      esOther (afterLast ':' (beforeLast ':' (sys ++ ':' :: user))) = esOther sys := by
  obtain ⟨hultimo, hpenultimo⟩ := ultimo_forma h
  by_cases hfull : datos.length < BUFSIZE - 1
  · obtain ⟨hthree, hpuertos⟩ := leido_forma h hfull
    have htres := readAuthports_tres now pila hc hlen hthree
    rw [hpuertos, hultimo, hpenultimo, hrun] at htres
    split at htres
    · obtain ⟨c'', hsome, hif⟩ := htres
      obtain rfl := Option.some.inj hsome
      split at hif
      · exact absurd hif (not_sinNombre hcon)
      · have hgotid := hif.2.1.symm.trans hcon.2.1
        exact ⟨hfull, hif.1.symm.trans hcon.1, by simpa using hgotid⟩
    · cases htres
  · -- a full buffer is not scanned
    have hleido : (leido datos).length ≠ 3 := by
      rw [leido, if_neg fun hcond ↦ hfull (by omega)]
      decide
    obtain ⟨c'', hrun', hsin⟩ := readAuthports_sin now pila hc hlen hleido
    rw [hrun] at hrun'
    obtain rfl := Option.some.inj hrun'
    exact absurd hsin (not_sinNombre hcon)

theorem conNombre_of_condicion (now : Int) (pila : Pila) (hc : Espera cl)
    (h : Forma p q (before datos nul) sys user) (hfull : datos.length < BUFSIZE - 1)
    (hname : (afterLast ':' user).filter guarda = nombre user)
    (hother : esOther (afterLast ':' (beforeLast ':' (sys ++ ':' :: user))) = esOther sys) :
    ∃ c', readAuthports now pila (some datos) cl = some c' ∧
      ConNombre (nombre user) (esOther sys) cl c' := by
  obtain ⟨hultimo, hpenultimo⟩ := ultimo_forma h
  obtain ⟨hthree, hpuertos⟩ := leido_forma h hfull
  have htres := readAuthports_tres now pila hc (Nat.le_of_lt hfull) hthree
  have hle : (nombre user).length ≤ USERLEN := List.length_take_le _ _
  have hne : nombre user ≠ [] := by
    rw [nombre, ne_eq, List.take_eq_nil_iff, not_or]
    exact ⟨by decide, h.user⟩
  have hstored : ¬ (q.n = 0 ∨ p.n = 0 ∨ nombre user = []) := by
    rintro (h | h | h)
    · exact absurd h (Nat.ne_of_gt q.pos)
    · exact absurd h (Nat.ne_of_gt p.pos)
    · exact hne h
  rw [hpuertos, hultimo, hpenultimo, hname, hother, if_pos hle] at htres
  simpa only [if_neg hstored] using htres

/-- A reply that is not of the form. -/
theorem readAuthports_otra (now : Int) (pila : Pila) (hc : Espera cl)
    (hlen : datos.length ≤ BUFSIZE - 1) :
    (∃ c', readAuthports now pila (some datos) cl = some c' ∧ SinNombre cl c') ↔
      ((leido datos).length = 3 → (ultimo datos).length ≤ USERLEN ∧
        ((puertos (leido datos)).2 = 0 ∨ (puertos (leido datos)).1 = 0 ∨ ultimo datos = [])) := by
  by_cases hthree : (leido datos).length = 3
  · have htres := readAuthports_tres now pila hc hlen hthree
    constructor
    · rintro ⟨c', hrun, hsin⟩ -
      rw [hrun] at htres
      split at htres
      · next hle =>
          obtain ⟨c'', hsome, hif⟩ := htres
          obtain rfl := Option.some.inj hsome
          split at hif
          · next hcero => exact ⟨hle, hcero⟩
          · exact absurd hsin (not_sinNombre hif)
      · cases htres
    · intro h
      obtain ⟨hle, hcero⟩ := h hthree
      rw [if_pos hle] at htres
      simpa only [if_pos hcero] using htres
  · exact ⟨fun _ h ↦ absurd h hthree, fun _ ↦ readAuthports_sin now pila hc hlen hthree⟩

/-- The replies that `read_authports` reads within its arrays and rightly. -/
theorem readAuthports_correcta (p q : Puerto) (now : Int) (pila : Pila) (datos : List Char)
    (hlen : datos.length ≤ BUFSIZE - 1) (cl : Cliente) (hc : Espera cl) :
    Correcta p q now pila datos cl ↔ Condicion p q datos := by
  by_cases hform : ∃ sys user, Forma p q (before datos nul) sys user
  · constructor
    · rintro ⟨c', hrun, hcon, -⟩
      exact ⟨fun sys user h ↦ condicion_of_conNombre hc hlen h hrun (hcon sys user h),
        fun hno ↦ absurd hform (by simpa only [not_exists] using hno)⟩
    · intro hcond
      obtain ⟨sys, user, h⟩ := hform
      obtain ⟨hfull, hname, hother⟩ := hcond.forma sys user h
      obtain ⟨c', hrun, hcon⟩ := conNombre_of_condicion now pila hc h hfull hname hother
      refine ⟨c', hrun, fun sys' user' h' ↦ ?_, fun hno ↦ absurd h (hno sys user)⟩
      -- both readings of the reply have the same last two fields
      obtain ⟨-, hname', hother'⟩ := hcond.forma sys' user' h'
      obtain ⟨c'', hrun', hcon'⟩ := conNombre_of_condicion now pila hc h' hfull hname' hother'
      rw [hrun] at hrun'
      obtain rfl := Option.some.inj hrun'
      exact hcon'
  · have hno : ∀ sys user, ¬ Forma p q (before datos nul) sys user := fun sys user h ↦
      hform ⟨sys, user, h⟩
    have hotra := readAuthports_otra now pila hc hlen
    constructor
    · rintro ⟨c', hrun, -, hsin⟩
      exact ⟨fun sys user h ↦ absurd h (hno sys user), fun _ ↦ hotra.mp ⟨c', hrun, hsin hno⟩⟩
    · intro hcond
      obtain ⟨c', hrun, hsin⟩ := hotra.mpr (hcond.otra hno)
      exact ⟨c', hrun, fun sys user h ↦ absurd h (hno sys user), fun _ ↦ hsin⟩

/-- A stack of zeros. -/
def pilaCero : Pila :=
  { ruser := List.replicate 11 nul
    system := List.replicate 8 nul
    length_ruser := rfl
    length_system := rfl }

/-- A client whose ident server has been asked. -/
def preguntado : Cliente :=
  { buffer := List.replicate BUFSIZE nul
    count := 0
    lasttime := 0
    authfd := true
    auth := true
    dns := false
    access := false
    userPort := true
    gotid := false
    username := "unknown".toList
    abad := 0
    asuc := 0
    avisos := [] }

theorem espera_preguntado : Espera preguntado :=
  ⟨List.length_replicate, rfl, rfl⟩

/-- The user name `bob` is read rightly. -/
theorem readAuthports_correcta_bob : Correcta ⟨1, by decide, by decide⟩ ⟨2, by decide, by decide⟩ 0
    pilaCero "1 , 2 : USERID : UNIX : bob".toList preguntado := by
  have hblanco : Blancos [' '] := by
    intro c hc
    rw [List.mem_singleton.mp hc]
    rfl
  have hnada : Blancos [] := fun c hc ↦ absurd hc List.not_mem_nil
  have huno : Cifras 1 ['1'] := ⟨by simp, by simp, rfl⟩
  have hdos : Cifras 2 ['2'] := ⟨by simp, by simp, rfl⟩
  have hforma : Forma ⟨1, by decide, by decide⟩ ⟨2, by decide, by decide⟩
      "1 , 2 : USERID : UNIX : bob".toList " UNIX ".toList " bob".toList :=
    ⟨⟨[], ['1'], [' '], [' '], ['2'], [' '], [' '], [' '], hnada, huno, hblanco, hblanco, hdos,
      hblanco, hblanco, hblanco, rfl⟩, by decide, ⟨'U', by decide, by decide⟩, by decide⟩
  refine (readAuthports_correcta _ _ _ _ _ (by decide) _ espera_preguntado).mpr
    ⟨fun sys user h ↦ ?_, fun hno ↦ absurd hforma (hno " UNIX ".toList " bob".toList)⟩
  have hcampos := forma_campos h
  have hsys : sys = " UNIX ".toList := by
    rw [← before_append user h.colon, ← hcampos]
    decide
  have huser : user = " bob".toList := by
    rw [← strchr_append user h.colon, ← hcampos]
    decide
  subst hsys huser
  exact ⟨by decide, by decide, by decide⟩

/-- A user name of eleven characters is written past `ruser`. -/
theorem readAuthports_no_correcta : ¬ Correcta ⟨1, by decide, by decide⟩ ⟨2, by decide, by decide⟩ 0
    pilaCero "1 , 2 : USERID : UNIX : abcdefghijk".toList preguntado := by
  have hnone := readAuthports_tres 0 pilaCero espera_preguntado
    (show "1 , 2 : USERID : UNIX : abcdefghijk".toList.length ≤ BUFSIZE - 1 by decide) (by decide)
  rw [if_neg (by decide)] at hnone
  rintro ⟨c', hrun, -⟩
  rw [hrun] at hnone
  cases hnone

end Ircd.Auth
