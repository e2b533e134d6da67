import Ircd.Lib.Buffer
import Ircd.Lib.Rose
import Ircd.Match
import Ircd.Numnicks
import Mathlib.Logic.Function.Basic

/-!
# `dump_map`

The recursion of `ircd/map.c` over the tree of servers. All its levels write to one static `prompt`;
a write outside of it gives `none`. `trazos` lists a tree in preorder with the marks of its paths and
the last character of each prompt, and `dumpMap_raiz` says that this is what is sent: every server of
the pruned tree, in preorder, where the prompt of a server ends with the `-` of its place or, behind
a server that is not descended, with a blank.
-/

namespace Ircd.Map

open Buffer CString Match

/-! ## The program -/

/-- What `dump_map` reads of a server. `id` is its address, and `tras` what follows its name in
memory. -/
structure Datos where
  id : Nat
  name : CStr
  tras : List Char
  yxx : CStr
  burst : Bool
  lag : Int
  clients : Nat

/-- What else it reads: the address of `me`, `nrof`, and `(int)((1000.0 * x) / clientes + 0.5)`, which
is computed in floating point. -/
structure Red where
  me : Nat
  clients : Nat
  localClients : Nat
  decimas : Nat → Nat → Nat

/-- `RPL_MAP` and `RPL_MAPMORE`, with what is printed into them behind the nick. -/
inductive Linea where
  | map (prompt burst name buf lag : CStr) (clients decimas : Nat)
  | mapmore (prompt name : CStr)

/-- `lag`. -/
def lagDe (lag : Int) : CStr :=
  if 10000 < lag then []
  else if lag < 0 then "(0s)".toList
  else '(' :: (entero lag ++ ['s', ')'])

/-- What is sent of a server. -/
def linea (c : Red) (promptLength : Nat) (prompt : CStr) (server : Datos) : Linea :=
  if 60 < promptLength then .mapmore prompt server.name
  else
    let clientes := if c.clients = 0 then 1 else c.clients
    let suyos := if server.id = c.me then c.localClients else server.clients
    .map prompt (if server.burst then ['*'] else []) server.name
      (server.yxx ++ ':' :: decimal (base64toint server.yxx)) (lagDe server.lag) suyos
      (c.decimas suyos clientes)

/-- `prompt`, `FLAGS_MAP` of each server, and what is sent. -/
structure Estado where
  prompt : List Char
  flags : Nat → Bool
  salida : List Linea

namespace Estado

/-- `prompt[i] = c`. -/
def pon (s : Estado) (i : Nat) (c : Char) : Option Estado := do
  some { s with prompt := ← poke s.prompt i c }

/-- `sendto_one` with the prompt up to its terminator. -/
def manda (s : Estado) (c : Red) (promptLength : Nat) (server : Datos) : Option Estado := do
  some { s with salida := s.salida ++ [linea c promptLength (← cadena s.prompt 0) server] }

/-- `if (prompt_length > 0) { p[-1] = ' '; if (p[-2] == '`') p[-2] = ' '; }`. -/
def borra (s : Estado) : Nat → Option Estado
  | 0 => some s
  | 1 => none
  | n + 2 => do
      let s ← s.pon (n + 1) ' '
      if s.prompt[n]? = some '\x60' then s.pon n ' ' else some s

/-- `strcpy (p, "|-")`. -/
def traza (s : Estado) (promptLength : Nat) : Option Estado := do
  let s ← s.pon promptLength '|'
  let s ← s.pon (promptLength + 1) '-'
  s.pon (promptLength + 2) nul

/-- `if (--cnt == 0) *p = '`'`, behind the decrement. -/
def cierra (s : Estado) (promptLength : Nat) (cnt : Int) : Option Estado :=
  if cnt = 0 then s.pon promptLength '\x60' else some s

/-- `if (prompt_length > 0) p[-1] = '-'`. -/
def repone (s : Estado) : Nat → Option Estado
  | 0 => some s
  | n + 1 => s.pon n '-'

end Estado

/-- `!match (mask, server->name)`. -/
def coincide (mask : CStr) (server : Datos) : Bool :=
  ircMatch mask (memory server.name server.tras)

/-- The loop that sets `FLAGS_MAP` and counts. -/
def marca (mask : CStr) : List (Rose Datos) → Int → Estado → Int × Estado
  | [], cnt, s => (cnt, s)
  | lp :: down, cnt, s =>
      let b := coincide mask lp.root
      marca mask down (if b then cnt + 1 else cnt)
        { s with flags := Function.update s.flags lp.root.id b }

mutual

/-- `dump_map`. -/
def dumpMap (c : Red) (mask : CStr) : Rose Datos → Nat → Estado → Option Estado
  | .node server down, promptLength, s => do
      let s ← s.pon promptLength nul
      let s ← s.manda c promptLength server
      let s ← s.borra promptLength
      if 60 < promptLength then some s
      else
        let s ← s.traza promptLength
        let (cnt, s) := marca mask down 0 s
        let s ← dumpDown c mask promptLength down cnt s
        s.repone promptLength

/-- Its loop over the downlinks. -/
def dumpDown (c : Red) (mask : CStr) (promptLength : Nat) :
    List (Rose Datos) → Int → Estado → Option Estado
  | [], _, s => some s
  | lp :: down, cnt, s =>
      if s.flags lp.root.id = false then dumpDown c mask promptLength down cnt s
      else do
        let s ← s.cierra promptLength (cnt - 1)
        let s ← dumpMap c mask lp (promptLength + 2) s
        dumpDown c mask promptLength down (cnt - 1) s

end

/-! ## Prompts -/

/-- What a prompt has for an ancestor. -/
def rama (b : Bool) : CStr :=
  [if b then '|' else ' ', ' ']

/-- What a prompt has for its ancestors. -/
def prefijo (bs : List Bool) : CStr :=
  bs.flatMap rama

/-- The mark of a server in front of its name. -/
def marcaDe (b : Bool) : Char :=
  if b then '|' else '\x60'

/-- The prompt of a server with the marks `bs`, where `x` is its last character. -/
def textoDe (bs : List Bool) (x : Char) : CStr :=
  match bs.getLast? with
  | none => []
  | some b => prefijo bs.dropLast ++ [marcaDe b, x]

theorem prefijo_concat (bs : List Bool) (b : Bool) : prefijo (bs ++ [b]) = prefijo bs ++ rama b := by
  rw [prefijo, List.flatMap_append, List.flatMap_singleton]
  rfl

@[simp] theorem length_prefijo (bs : List Bool) : (prefijo bs).length = 2 * bs.length := by
  induction bs with
  | nil => rfl
  | cons b bs ih =>
      show (prefijo bs).length + 2 = 2 * (bs.length + 1)
      rw [ih, Nat.mul_succ]

theorem nul_not_mem_prefijo (bs : List Bool) : nul ∉ prefijo bs := by
  simp only [prefijo, List.mem_flatMap, not_exists, not_and]
  intro b _
  cases b <;> decide

theorem textoDe_concat (bs : List Bool) (b : Bool) (x : Char) :
    textoDe (bs ++ [b]) x = prefijo bs ++ [marcaDe b, x] := by
  rw [textoDe, List.getLast?_concat, List.dropLast_concat]

/-! ## What is sent -/

mutual

/-- A tree in preorder, with the marks of its paths and the last character of each prompt. In a list
of servers that are not descended only the first one has the character `-`. -/
def trazos {α : Type*} (bs : List Bool) (x : Char) : Rose α → List (List Bool × Char × α)
  | .node a ts => (bs, x, a) :: trazosList bs '-' ts

/-- The trees below a root. -/
def trazosList {α : Type*} (bs : List Bool) (x : Char) : List (Rose α) → List (List Bool × Char × α)
  | [] => []
  | t :: ts =>
      trazos (bs ++ [!ts.isEmpty]) x t ++ trazosList bs (if bs.length = 30 then ' ' else '-') ts

end

/-- The line of a server in such a list. -/
def lineaDe (c : Red) (e : List Bool × Char × Datos) : Linea :=
  linea c (2 * e.1.length) (textoDe e.1 e.2.1) e.2.2

/-! ## Single steps -/

variable {c : Red} {mask : CStr} {s : Estado} {a rest : List Char} {n : Nat} {x y z : Char}

theorem pon_append (h : s.prompt = a ++ x :: rest) (hn : a.length = n) :
    s.pon n y = some { s with prompt := a ++ y :: rest } := by
  rw [Estado.pon, h, poke_append hn]
  rfl

theorem manda_append {server : Datos} (h : s.prompt = a ++ nul :: rest) (ha : nul ∉ a) :
    s.manda c n server = some { s with salida := s.salida ++ [linea c n a server] } := by
  rw [Estado.manda, h, cadena_zero ha]
  rfl

/-- The mark of the last matching server is put behind `|-`. -/
theorem cierra_append {β : Type*} {l : List β} (h : s.prompt = a ++ '|' :: rest)
    (hn : a.length = n) :
    s.cierra n l.length = some { s with prompt := a ++ marcaDe (!l.isEmpty) :: rest } := by
  cases l with
  | nil => exact pon_append h hn
  | cons b l =>
      rw [Estado.cierra, if_neg (by rw [List.length_cons]; omega)]
      exact congrArg some (congrArg (Estado.mk · s.flags s.salida) h)

/-- Behind its line the mark of a server becomes what its descendants have for it. -/
theorem borra_append {b : Bool} (h : s.prompt = a ++ marcaDe b :: x :: rest) (hn : a.length = n) :
    s.borra (n + 2) = some { s with prompt := a ++ (rama b ++ rest) } := by
  have hsplit : s.prompt = (a ++ [marcaDe b]) ++ x :: rest := by
    rw [h, List.append_assoc]
    rfl
  have hread : (a ++ marcaDe b :: ' ' :: rest)[n]? = some (marcaDe b) := by
    rw [List.getElem?_append_right (by omega), hn, Nat.sub_self]
    rfl
  rw [Estado.borra, pon_append hsplit (by rw [List.length_append, hn]; rfl), List.append_assoc]
  show (if (a ++ marcaDe b :: ' ' :: rest)[n]? = some '\x60' then _ else _) = _
  rw [hread]
  cases b with
  | true => rfl
  | false => exact pon_append rfl hn

theorem traza_append {x₀ x₁ x₂ : Char} (h : s.prompt = a ++ x₀ :: x₁ :: x₂ :: rest)
    (hn : a.length = n) :
    s.traza n = some { s with prompt := a ++ '|' :: '-' :: nul :: rest } := by
  have hsnd : (a ++ ['|'] ++ x₁ :: x₂ :: rest) = a ++ '|' :: x₁ :: x₂ :: rest := by
    rw [List.append_assoc]
    rfl
  have hthd : (a ++ ['|', '-'] ++ x₂ :: rest) = a ++ '|' :: '-' :: x₂ :: rest := by
    rw [List.append_assoc]
    rfl
  rw [Estado.traza, pon_append h hn, Option.bind_eq_bind, Option.bind_some,
    pon_append (a := a ++ ['|']) (x := x₁) hsnd.symm (by rw [List.length_append, hn]; rfl),
    Option.bind_some,
    pon_append (a := a ++ ['|', '-']) (x := x₂) (by rw [hthd, List.append_assoc]; rfl)
      (by rw [List.length_append, hn]; rfl), List.append_assoc]
  rfl

/-- The addresses of the servers of a tree. -/
def ids (t : Rose Datos) : List Nat :=
  t.elems.map Datos.id

/-- The addresses of the servers of trees. -/
def idsList (ts : List (Rose Datos)) : List Nat :=
  (Rose.elemsList ts).map Datos.id

theorem idsList_cons (t : Rose Datos) (ts : List (Rose Datos)) :
    idsList (t :: ts) = ids t ++ idsList ts :=
  List.map_append

theorem root_mem_ids (t : Rose Datos) : t.root.id ∈ ids t :=
  List.mem_map_of_mem t.root_mem_elems

theorem root_mem_idsList {t : Rose Datos} {ts : List (Rose Datos)} (h : t ∈ ts) :
    t.root.id ∈ idsList ts :=
  List.mem_map_of_mem (Rose.root_mem_elemsList h)

/-- The loop that marks the downlinks, when they are different servers. -/
theorem marca_eq (mask : CStr) {down : List (Rose Datos)} (hdown : (idsList down).Nodup)
    (cnt : Int) (s : Estado) :
    ∃ flags, marca mask down cnt s =
        (cnt + (Rose.kept (coincide mask) down).length, { s with flags := flags }) ∧
      (∀ t ∈ down, flags t.root.id = coincide mask t.root) ∧
      ∀ i ∉ idsList down, flags i = s.flags i := by
  induction down generalizing cnt s with
  | nil => exact ⟨s.flags, by simp [marca], by simp, fun _ _ ↦ rfl⟩
  | cons lp down ih =>
      rw [idsList_cons, List.nodup_append] at hdown
      obtain ⟨-, hnodup, hne⟩ := hdown
      have hfresh : lp.root.id ∉ idsList down := fun h ↦ hne _ (root_mem_ids lp) _ h rfl
      obtain ⟨flags, hmarca, hflags, hframe⟩ := ih hnodup
        (if coincide mask lp.root then cnt + 1 else cnt)
        { s with flags := Function.update s.flags lp.root.id (coincide mask lp.root) }
      refine ⟨flags, ?_, ?_, fun i hi ↦ ?_⟩
      · rw [marca, hmarca]
        cases hb : coincide mask lp.root with
        | true =>
            rw [Rose.kept_cons_of_pos hb, List.length_cons, if_pos rfl, Int.add_assoc,
              Int.natCast_succ, Int.add_comm 1]
        | false => rw [Rose.kept_cons_of_neg hb, if_neg Bool.false_ne_true]
      · intro t ht
        rcases List.mem_cons.mp ht with rfl | ht
        · rw [hframe _ hfresh]
          exact Function.update_self _ _ _
        · exact hflags t ht
      · rw [idsList_cons, List.mem_append, not_or] at hi
        rw [hframe i hi.2]
        have hroot : i ≠ lp.root.id := by
          rintro rfl
          exact hi.1 (root_mem_ids lp)
        exact Function.update_of_ne hroot _ _

/-! ## The recursion -/

/-- What `dump_map` does with a server below the root whose mark is in the prompt, and hands back: the
prompt has for the server what its descendants had, and `-` again if the server was descended. -/
def Hijo (c : Red) (mask : CStr) (t : Rose Datos) : Prop :=
  ∀ (bs : List Bool) (b : Bool) (x : Char) (s : Estado) (rest : List Char),
    bs.length ≤ 30 → x ≠ nul → (ids t).Nodup →
    s.prompt = prefijo bs ++ marcaDe b :: x :: rest → 2 * bs.length + 2 + rest.length = 64 →
    ∃ s' rest', dumpMap c mask t (2 * bs.length + 2) s = some s' ∧
      s'.prompt = prefijo bs ++ (if b then '|' else ' ') ::
        (if bs.length = 30 then ' ' else '-') :: rest' ∧
      rest'.length = rest.length ∧
      s'.salida = s.salida ++
        (trazos (bs ++ [b]) x (t.prune (coincide mask) (30 - bs.length))).map (lineaDe c) ∧
      ∀ i ∉ ids t, s'.flags i = s.flags i

/-- What the loop over downlinks does when they are marked and `cnt` is the number of those that
match. -/
def Hijos (c : Red) (mask : CStr) (down : List (Rose Datos)) : Prop :=
  ∀ (bs : List Bool) (x z : Char) (s : Estado) (rest : List Char),
    bs.length ≤ 30 → x ≠ nul → (idsList down).Nodup →
    (∀ t ∈ down, s.flags t.root.id = coincide mask t.root) →
    s.prompt = prefijo bs ++ z :: x :: rest → 2 * bs.length + 2 + rest.length = 64 →
    (Rose.kept (coincide mask) down ≠ [] → z = '|') →
    ∃ s' rest', dumpDown c mask (2 * bs.length) down (Rose.kept (coincide mask) down).length s =
        some s' ∧
      s'.prompt = prefijo bs ++ rest' ∧ rest'.length = rest.length + 2 ∧
      s'.salida = s.salida ++ (trazosList bs x ((Rose.kept (coincide mask) down).map
        (Rose.prune (coincide mask) (30 - bs.length)))).map (lineaDe c) ∧
      ∀ i ∉ idsList down, s'.flags i = s.flags i

/-- From the line of a server that is descended to the end of its downlinks. -/
theorem cuerpo {down : List (Rose Datos)} (hdown : Hijos c mask down) (bs : List Bool) {n : Nat}
    {x₀ x₁ x₂ : Char} (hbs : bs.length ≤ 30) (hn : 2 * bs.length = n) (hnodup : (idsList down).Nodup)
    (h : s.prompt = prefijo bs ++ x₀ :: x₁ :: x₂ :: rest) (hlen : n + 3 + rest.length = 64) :
    ∃ s₁ s' rest', s.traza n = some s₁ ∧
      dumpDown c mask n down (marca mask down 0 s₁).1 (marca mask down 0 s₁).2 = some s' ∧
      s'.prompt = prefijo bs ++ rest' ∧ rest'.length = rest.length + 3 ∧
      s'.salida = s.salida ++ (trazosList bs '-' ((Rose.kept (coincide mask) down).map
        (Rose.prune (coincide mask) (30 - bs.length)))).map (lineaDe c) ∧
      ∀ i ∉ idsList down, s'.flags i = s.flags i := by
  subst hn
  have htraza := traza_append h (length_prefijo bs)
  obtain ⟨flags, hmarca, hflags, hframe⟩ := marca_eq mask hnodup 0
    { s with prompt := prefijo bs ++ '|' :: '-' :: nul :: rest }
  obtain ⟨s', rest', hdump, hprompt, hlen', hsalida, hframe'⟩ := hdown bs '-' '|'
    { s with prompt := prefijo bs ++ '|' :: '-' :: nul :: rest, flags := flags } (nul :: rest)
    hbs (by decide) hnodup hflags rfl (by rw [List.length_cons]; omega) (fun _ ↦ rfl)
  refine ⟨_, s', rest', htraza, ?_, hprompt, hlen', hsalida, fun i hi ↦ ?_⟩
  · rw [hmarca, Int.zero_add]
    exact hdump
  · rw [hframe' i hi]
    exact hframe i hi

mutual

theorem hijo (c : Red) (mask : CStr) : ∀ t : Rose Datos, Hijo c mask t
  | .node server down => by
      intro bs b x s rest hbs hx hnodup hprompt hlen
      obtain ⟨x₀, rest, rfl⟩ : ∃ x₀ r, rest = x₀ :: r := List.exists_cons_of_length_pos (by omega)
      have hsplit : s.prompt = (prefijo bs ++ [marcaDe b, x]) ++ x₀ :: rest := by
        rw [hprompt, List.append_assoc]
        rfl
      have hlen₂ : (prefijo bs ++ [marcaDe b, x]).length = 2 * bs.length + 2 := by
        rw [List.length_append, length_prefijo]
        rfl
      have hnul : nul ∉ prefijo bs ++ [marcaDe b, x] := by
        rw [List.mem_append, List.mem_pair]
        rintro (h | h | h)
        · exact nul_not_mem_prefijo bs h
        · cases b <;> exact absurd h (by decide)
        · exact hx h.symm
      have hpon : s.pon (2 * bs.length + 2) nul = some { s with
          prompt := prefijo bs ++ [marcaDe b, x] ++ nul :: rest } := pon_append hsplit hlen₂
      have hborra : ∀ salida, Estado.borra
          ⟨prefijo bs ++ [marcaDe b, x] ++ nul :: rest, s.flags, salida⟩ (2 * bs.length + 2) =
          some ⟨prefijo bs ++ (rama b ++ nul :: rest), s.flags, salida⟩ := fun salida ↦
        borra_append (by rw [List.append_assoc]; rfl) (length_prefijo bs)
      rw [dumpMap, hpon, Option.bind_eq_bind, Option.bind_some, manda_append rfl hnul,
        Option.bind_some, hborra, Option.bind_some]
      by_cases hfondo : bs.length = 30
      · -- at the depth limit `p[-1]` stays blank
        rw [hfondo, if_pos (by decide)]
        refine ⟨_, nul :: rest, rfl, rfl, rfl, ?_, fun _ _ ↦ rfl⟩
        rw [Nat.sub_self, Rose.prune, trazos, trazosList, List.map_singleton, lineaDe,
          textoDe_concat, List.length_append, hfondo]
        rfl
      · obtain ⟨x₁, rest, rfl⟩ : ∃ x₁ r, rest = x₁ :: r :=
          List.exists_cons_of_length_pos (by rw [List.length_cons] at hlen; omega)
        obtain ⟨x₂, rest, rfl⟩ : ∃ x₂ r, rest = x₂ :: r :=
          List.exists_cons_of_length_pos (by simp only [List.length_cons] at hlen; omega)
        simp only [List.length_cons] at hlen
        have hbs' : (bs ++ [b]).length = bs.length + 1 := by
          rw [List.length_append, List.length_singleton]
        have hids : ids (.node server down) = server.id :: idsList down := rfl
        rw [hids, List.nodup_cons] at hnodup
        obtain ⟨s₁, s', rest', htraza, hdown, hprompt', hlen', hsalida, hframe⟩ :=
          cuerpo (hijos c mask down) (bs ++ [b]) (n := 2 * bs.length + 2)
            (s := ⟨prefijo bs ++ (rama b ++ nul :: x₁ :: x₂ :: rest), s.flags, s.salida ++
              [linea c (2 * bs.length + 2) (prefijo bs ++ [marcaDe b, x]) server]⟩)
            (by omega) (by omega) hnodup.2
            (by rw [prefijo_concat, List.append_assoc]) (by omega)
        have hrepone : s'.repone (2 * bs.length + 2) = some { s' with
            prompt := prefijo bs ++ (if b then '|' else ' ') :: '-' :: rest' } := by
          rw [prefijo_concat] at hprompt'
          rw [Estado.repone, pon_append (a := prefijo bs ++ [if b then '|' else ' ']) (x := ' ')
            (by rw [hprompt', List.append_assoc, List.append_assoc]; rfl)
            (by rw [List.length_append, length_prefijo]; rfl), List.append_assoc]
          rfl
        rw [if_neg hfondo, if_neg (by omega), htraza, Option.bind_some]
        refine ⟨{ s' with prompt := prefijo bs ++ (if b then '|' else ' ') :: '-' :: rest' },
          rest', ?_, rfl, hlen', ?_, fun i hi ↦ ?_⟩
        · show (dumpDown c mask (2 * bs.length + 2) down (marca mask down 0 s₁).1
            (marca mask down 0 s₁).2).bind _ = _
          rw [hdown, Option.bind_some, hrepone]
        · rw [show 30 - bs.length = 30 - (bs ++ [b]).length + 1 by omega, Rose.prune, trazos,
            List.map_cons, lineaDe, textoDe_concat, hbs', Nat.mul_succ]
          rw [hbs'] at hsalida
          exact hsalida.trans (List.append_assoc _ _ _)
        · rw [hids, List.mem_cons, not_or] at hi
          exact hframe i hi.2

theorem hijos (c : Red) (mask : CStr) : ∀ ts : List (Rose Datos), Hijos c mask ts
  | [] => by
      intro bs x z s rest _ _ _ _ hprompt _ _
      exact ⟨s, z :: x :: rest, rfl, hprompt, rfl, (List.append_nil _).symm, fun _ _ ↦ rfl⟩
  | t :: ts => by
      intro bs x z s rest hbs hx hnodup hflags hprompt hlen hz
      have hfirst := hijo c mask t bs
      have hrest := hijos c mask ts bs
      rw [idsList_cons, List.nodup_append] at hnodup
      obtain ⟨hnodup, hnodups, hne⟩ := hnodup
      have hflag := hflags t List.mem_cons_self
      have hfresh : ∀ u ∈ ts, u.root.id ∉ ids t := fun u hu h ↦
        hne _ h _ (root_mem_idsList hu) rfl
      rw [dumpDown, hflag]
      cases hb : coincide mask t.root with
      | false =>
          obtain ⟨s', rest', hdump, hprompt', hlen', hsalida, hframe⟩ := hrest x z s rest hbs hx
            hnodups (fun u hu ↦ hflags u (List.mem_cons_of_mem t hu)) hprompt hlen
            (by rwa [Rose.kept_cons_of_neg hb] at hz)
          rw [if_pos rfl, Rose.kept_cons_of_neg hb]
          refine ⟨s', rest', hdump, hprompt', hlen', hsalida, fun i hi ↦ ?_⟩
          rw [idsList_cons, List.mem_append, not_or] at hi
          exact hframe i hi.2
      | true =>
          rw [Rose.kept_cons_of_pos hb] at hz ⊢
          set matching := Rose.kept (coincide mask) ts with hmatching
          -- the first `-` of the prompt is in place, and the mark says whether a sibling follows
          have hmark : s.cierra (2 * bs.length) matching.length =
              some { s with prompt := prefijo bs ++ marcaDe (!matching.isEmpty) :: x :: rest } := by
            rw [hz (List.cons_ne_nil _ _)] at hprompt
            exact cierra_append hprompt (length_prefijo bs)
          obtain ⟨s₁, rest₁, hdump₁, hprompt₁, hlen₁, hsalida₁, hframe₁⟩ :=
            hfirst (!matching.isEmpty) x
              { s with prompt := prefijo bs ++ marcaDe (!matching.isEmpty) :: x :: rest } rest hbs hx
              hnodup rfl hlen
          obtain ⟨s', rest', hdump, hprompt', hlen', hsalida, hframe⟩ :=
            hrest (if bs.length = 30 then ' ' else '-') (if !matching.isEmpty then '|' else ' ') s₁
              rest₁ hbs (by split <;> decide) hnodups
              (fun u hu ↦ (hframe₁ _ (hfresh u hu)).trans (hflags u (List.mem_cons_of_mem t hu)))
              hprompt₁ (by omega) (fun h ↦ if_pos (by simpa using h))
          refine ⟨s', rest', ?_, hprompt', by omega, ?_, fun i hi ↦ ?_⟩
          · rw [if_neg (by decide), List.length_cons, Int.natCast_succ, Int.add_sub_cancel, hmark,
              Option.bind_eq_bind, Option.bind_some, hdump₁]
            exact hdump
          · rw [hsalida, hsalida₁, List.map_cons, trazosList, List.isEmpty_map, List.map_append,
              List.append_assoc]
          · rw [idsList_cons, List.mem_append, not_or] at hi
            rw [hframe i hi.2]
            exact hframe₁ i hi.1

end

/-- What `dump_map` sends of a tree. -/
theorem dumpMap_raiz (c : Red) (mask : CStr) {t : Rose Datos} (hnodup : (ids t).Nodup) (hlen : s.prompt.length = 64) :
    ∃ s', dumpMap c mask t 0 s = some s' ∧
      s'.salida = s.salida ++ (trazos [] '-' (t.prune (coincide mask) 31)).map (lineaDe c) := by
  obtain ⟨server, down⟩ := t
  have hids : ids (.node server down) = server.id :: idsList down := rfl
  rw [hids, List.nodup_cons] at hnodup
  match hprompt : s.prompt, hlen with
  | x₀ :: x₁ :: x₂ :: rest, hlen =>
      simp only [List.length_cons] at hlen
      have hpon : s.pon 0 nul = some { s with prompt := nul :: x₁ :: x₂ :: rest } :=
        pon_append (a := []) hprompt rfl
      have hmanda : Estado.manda { s with prompt := nul :: x₁ :: x₂ :: rest } c 0 server =
          some { s with
            prompt := nul :: x₁ :: x₂ :: rest
            salida := s.salida ++ [linea c 0 [] server] } :=
        manda_append (a := []) rfl (by simp)
      obtain ⟨s₁, s', rest', htraza, hdown, -, -, hsalida, -⟩ := cuerpo (hijos c mask down) []
        (n := 0) (s := ⟨nul :: x₁ :: x₂ :: rest, s.flags, s.salida ++ [linea c 0 [] server]⟩)
        (Nat.zero_le _) rfl hnodup.2 rfl (by omega)
      rw [dumpMap, hpon, Option.bind_eq_bind, Option.bind_some, hmanda, Option.bind_some,
        Estado.borra, Option.bind_some, if_neg (by decide), htraza, Option.bind_some]
      refine ⟨s', ?_, ?_⟩
      · show (dumpDown c mask 0 down (marca mask down 0 s₁).1 (marca mask down 0 s₁).2).bind _ = _
        rw [hdown]
        rfl
      · rw [Rose.prune, trazos, List.map_cons]
        exact hsalida.trans (List.append_assoc _ _ _)

end Ircd.Map
