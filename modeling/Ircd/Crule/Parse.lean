import Ircd.Crule.Token
import Ircd.Hash.Table
import Ircd.Match

/-!
# The parser of connection rules

The recursive descent of `ircd/crule.c`. A node of the tree is written with the address that
`RunMalloc` gave it, and what a field points to stands in the field: `Ptr.indef` is a field nothing
has been written to. A function that the source hands a pointer to a root returns what it leaves
there, `Salida.root`, and its caller stores it. The recursion has a number of steps as fuel;
`cruleParse` gives enough of it for every rule (`cruleParse_spec` in `Crule/Descenso.lean`).
-/

namespace Ircd.Crule

open CString Hash

/-! ## Trees -/

/-- The functions that `crule_funclist` points to. -/
inductive Funcion where
  | connected | directcon | via | directop
  deriving DecidableEq

/-- `struct crule_funclistent`. -/
structure Funclistent where
  name : CStr
  reqnumargs : Int
  funcptr : Option Funcion
  deriving DecidableEq

/-- `crule_funclist`. -/
def cruleFunclist : List Funclistent :=
  [⟨['c', 'o', 'n', 'n', 'e', 'c', 't', 'e', 'd'], 1, some .connected⟩,
    ⟨['d', 'i', 'r', 'e', 'c', 't', 'c', 'o', 'n'], 1, some .directcon⟩,
    ⟨['v', 'i', 'a'], 2, some .via⟩,
    ⟨['d', 'i', 'r', 'e', 'c', 't', 'o', 'p'], 0, some .directop⟩,
    ⟨[], 0, none⟩]

/-- What a field of type `crule_treeptr` holds. An operand of `!`, `&&` and `||` is in the field of
its operator; the arguments of a function are texts of their own, each with its address. `numargs`
of a function is the length of `arg`: an argument from `CR_MAXARGS` on is stored behind the node. -/
inductive Ptr where
  | indef
  | null
  | not (p : Nat) (arg0 : Ptr)
  | andor (p : Nat) (arg0 arg1 : Ptr) (arg2 : Bool)
  | func (p : Nat) (funcptr : Option Funcion) (arg : List (Nat × CStr))
  deriving DecidableEq

/-- `(*root)->arg[1] = x`. -/
def Ptr.setArg1 : Ptr → Ptr → Ptr
  | .andor p arg0 _ arg2, x => .andor p arg0 x arg2
  | root, _ => root

/-- `*primrootp` when `*insertionp` is `x` and `nots` are the addresses of the `!` between them, the
innermost first. -/
def cuelga (nots : List Nat) (x : Ptr) : Ptr :=
  nots.foldl (fun t p ↦ .not p t) x

/-- `crule_free`: the blocks that `RunFree` is called on, in order; `none` when it follows a null
pointer or a field that was not initialised. -/
def cruleFree : Ptr → Option (List Nat)
  | .indef => none
  | .null => none
  | .not p arg0 => if arg0 = .null then some [p] else (cruleFree arg0).map (· ++ [p])
  | .andor p arg0 arg1 _ =>
    (cruleFree arg0).bind fun l₀ ↦
      (if arg1 = .null then some [] else cruleFree arg1).map fun l₁ ↦ l₀ ++ l₁ ++ [p]
  | .func p _ arg => some (arg.map Prod.fst ++ [p])

/-- `crule_eval`, with `crule__andor` and `crule__not`, when the functions of `crule_funclist`
return what `prim` says; `none` when it calls through a null pointer or one not initialised. -/
def cruleEval (prim : Funcion → List CStr → Bool) : Ptr → Option Bool
  | .indef => none
  | .null => none
  | .not _ arg0 => (cruleEval prim arg0).map Bool.not
  | .andor _ arg0 arg1 arg2 =>
    (cruleEval prim arg0).bind fun result1 ↦
      if arg2 then (if result1 then some true else cruleEval prim arg1)
      else (if result1 then cruleEval prim arg1 else some false)
  | .func _ funcptr arg => funcptr.map fun f ↦ prim f (arg.map Prod.snd)

/-! ## The state of the parser -/

/-- The token ahead, the text after it and the blocks that have been allocated, the last one
first. -/
structure Lector where
  nextTok : Token
  ruleptr : CStr
  pedidos : List Nat
  deriving DecidableEq

namespace Lector

/-- `crule_gettoken (next_tokp, ruleptr)`. -/
def gettoken (l : Lector) : Errcode × Lector :=
  ((Crule.gettoken l.ruleptr).1,
    { l with nextTok := (Crule.gettoken l.ruleptr).2.1, ruleptr := (Crule.gettoken l.ruleptr).2.2 })

/-- `crule_getword (word, &wordlen, CR_MAXARGLEN - 1, ruleptr)`. -/
def getword (l : Lector) : CStr × Lector :=
  ((leePalabra l.ruleptr).1, { l with ruleptr := (leePalabra l.ruleptr).2 })

/-- The address of the next block. -/
def nuevo (l : Lector) : Nat :=
  l.pedidos.length

/-- `RunMalloc`. -/
def malloc (l : Lector) : Lector :=
  { l with pedidos := l.nuevo :: l.pedidos }

end Lector

/-- What a function of the parser returns and what it leaves in the root and in the state. -/
structure Salida where
  errcode : Errcode
  root : Ptr
  lector : Lector
  deriving DecidableEq

/-! ## Functions and their arguments -/

/-- `currarg` and `arglen` after a word of an argument. -/
def agrega (currarg : CStr) (arglen : Nat) (word : CStr) : CStr × Nat :=
  if currarg ≠ [] then
    if arglen + word.length < CR_MAXARGLEN - 1 then
      (currarg ++ ' ' :: word, arglen + (word.length + 1))
    else (currarg, arglen)
  else (word, word.length)

/-- The argument that is complete is stored in the node, unless it is empty. -/
def guarda (arg : List (Nat × CStr)) (currarg : CStr) (l : Lector) : List (Nat × CStr) × Lector :=
  if collapse currarg ≠ [] then (arg ++ [(l.nuevo, collapse currarg)], l.malloc) else (arg, l)

/-- `crule_parsearglist` from the loop on; `arg` are the arguments stored so far. -/
def parsearglist : Nat → List (Nat × CStr) → CStr → Nat → Lector →
    Option (Errcode × List (Nat × CStr) × Lector)
  | 0, _, _, _, _ => none
  | n + 1, arg, currarg, arglen, l =>
    if l.nextTok = .crWord then
      let x := agrega currarg arglen l.getword.1
      let g := l.getword.2.gettoken
      if g.1 = .crNoerr then parsearglist n arg x.1 x.2 g.2 else some (g.1, arg, g.2)
    else
      let x := guarda arg currarg l
      if l.nextTok ≠ .crComma then some (.crNoerr, x.1, x.2)
      else
        let g := x.2.gettoken
        if g.1 = .crNoerr then parsearglist n x.1 [] arglen g.2 else some (g.1, x.1, g.2)

/-- The search of `crule_parsefunction` in `crule_funclist`. -/
def busca (funcname : CStr) : Option Funclistent :=
  cruleFunclist.find? fun f ↦ strCasediff f.name funcname = 0

/-- `crule_parsefunction` once its node `p` has its arguments. -/
def cierraFuncion (f : Funclistent) (p : Nat) (arg : List (Nat × CStr)) (l : Lector) : Salida :=
  if l.nextTok ≠ .crCloseparen then ⟨.crExpctclose, .func p none arg, l⟩
  else if f.reqnumargs ≠ arg.length ∧ f.reqnumargs ≠ -1 then ⟨.crArgmismat, .func p none arg, l⟩
  else if l.gettoken.1 ≠ .crNoerr then ⟨l.gettoken.1, .func p none arg, l.gettoken.2⟩
  else ⟨.crNoerr, .func p f.funcptr arg, l.gettoken.2⟩

/-- `crule_parsefunction` from the parenthesis on, when its name is that of `f`. -/
def llamada (n : Nat) (f : Funclistent) (l : Lector) : Option Salida :=
  if l.gettoken.1 ≠ .crNoerr then some ⟨l.gettoken.1, .null, l.gettoken.2⟩
  else
    (parsearglist n [] [] 0 l.gettoken.2.malloc).map fun a ↦
      if a.1 ≠ .crNoerr then ⟨a.1, .func l.gettoken.2.nuevo none a.2.1, a.2.2⟩
      else cierraFuncion f l.gettoken.2.nuevo a.2.1 a.2.2

/-- `crule_parsefunction`. -/
def parsefunction (n : Nat) (l : Lector) : Option Salida :=
  let funcname := l.getword.1
  let g := l.getword.2.gettoken
  if g.1 ≠ .crNoerr then some ⟨g.1, .null, g.2⟩
  else if g.2.nextTok = .crOpenparen then
    match busca funcname with
    | none => some ⟨.crUnknwfunc, .null, g.2⟩
    | some f => llamada n f g.2
  else some ⟨.crExpctopen, .null, g.2⟩

/-! ## Expressions -/

/-- The body of the loop of `crule_parseorexpr` and of `crule_parseandexpr` after an operand has
been read, with `root` in `*orrootp` or `*androotp` and the next round as `sigue`. -/
def trasOperando (sigue : Ptr → Lector → Option Salida) (op : Token) (arg2 : Bool)
    (falta : Errcode) (root : Ptr) (s : Salida) : Option Salida :=
  if s.errcode = .crNoerr ∧ s.lector.nextTok = op then
    let arg0 := if root ≠ .null then root.setArg1 s.root else s.root
    let root' := Ptr.andor s.lector.nuevo arg0 .indef arg2
    let g := s.lector.malloc.gettoken
    if g.1 ≠ .crNoerr then some ⟨g.1, root', g.2⟩ else sigue root' g.2
  else if root ≠ .null then
    if s.root ≠ .null then some ⟨s.errcode, root.setArg1 s.root, s.lector⟩
    else some ⟨falta, root.setArg1 .null, s.lector⟩
  else some s

/-- The loop of `crule_parseorexpr` and of `crule_parseandexpr`. The two differ in the function
`operando` that reads an operand, the token `op`, the field `arg[2]` of the node and the error
`falta` when the last operand is missing. -/
def operandos (operando : Lector → Option Salida) (op : Token) (arg2 : Bool) (falta : Errcode) :
    Nat → Ptr → Lector → Option Salida
  | 0, _, _ => none
  | n + 1, root, l =>
    (operando l).bind (trasOperando (operandos operando op arg2 falta n) op arg2 falta root)

/-- `crule_parseprimary` after the parenthesis that it opened has been read up to `s`. -/
def cierraGrupo (nots : List Nat) (s : Salida) : Salida :=
  if s.errcode ≠ .crNoerr then ⟨s.errcode, cuelga nots s.root, s.lector⟩
  else if s.root = .null then ⟨.crExpctand, cuelga nots .null, s.lector⟩
  else if s.lector.nextTok ≠ .crCloseparen then ⟨.crExpctclose, cuelga nots s.root, s.lector⟩
  else ⟨s.lector.gettoken.1, cuelga nots s.root, s.lector.gettoken.2⟩

mutual

/-- `crule_parseorexpr`. -/
def parseorexpr : Nat → Lector → Option Salida
  | 0, _ => none
  | n + 1, l => operandos (parseandexpr n) .crOr true .crExpctand n .null l

/-- `crule_parseandexpr`. -/
def parseandexpr : Nat → Lector → Option Salida
  | 0, _ => none
  | n + 1, l => operandos (parseprimary n []) .crAnd false .crExpctprim n .null l

/-- `crule_parseprimary` from the loop on, after the `!` whose nodes are `nots`. -/
def parseprimary : Nat → List Nat → Lector → Option Salida
  | 0, _, _ => none
  | n + 1, nots, l =>
    match l.nextTok with
    | .crOpenparen =>
      let g := l.gettoken
      if g.1 ≠ .crNoerr then some ⟨g.1, cuelga nots .null, g.2⟩
      else (parseorexpr n g.2).map (cierraGrupo nots)
    | .crNot =>
      let g := l.malloc.gettoken
      if g.1 ≠ .crNoerr then some ⟨g.1, cuelga (l.nuevo :: nots) .null, g.2⟩
      else parseprimary n (l.nuevo :: nots) g.2
    | .crWord => (parsefunction n l).map fun s ↦ ⟨s.errcode, cuelga nots s.root, s.lector⟩
    | _ => some ⟨if nots = [] then .crNoerr else .crExpctprim, cuelga nots .null, l⟩

end

/-! ## The rule -/

/-- What `crule_parse` returns, with the error it reports, the tree it has built, the blocks that
were allocated and the ones that `crule_free` has freed, `none` if it went wrong. -/
structure Analisis where
  valor : Ptr
  errcode : Errcode
  ruleroot : Ptr
  pedidos : List Nat
  libres : Option (List Nat)
  deriving DecidableEq

/-- The end of `crule_parse` when the rule is wrong. -/
def rechaza (errcode : Errcode) (ruleroot : Ptr) (l : Lector) : Analisis where
  valor := .null
  errcode := errcode
  ruleroot := ruleroot
  pedidos := l.pedidos
  libres := if ruleroot ≠ .null then cruleFree ruleroot else some []

/-- `crule_parse` with the result of `crule_parseorexpr`. -/
def concluye (s : Salida) : Analisis :=
  if s.errcode ≠ .crNoerr then rechaza s.errcode s.root s.lector
  else if s.root = .null then rechaza .crExpctor s.root s.lector
  else if s.lector.nextTok ≠ .crEnd then rechaza .crUnexpcttok s.root s.lector
  else ⟨s.root, .crNoerr, s.root, s.lector.pedidos, some []⟩

/-- The state of the parser before the first token. -/
def inicial (rule : CStr) : Lector :=
  ⟨.crUnknown, rule, []⟩

/-- `crule_parse`. -/
def cruleParse (rule : CStr) : Option Analisis :=
  let g := (inicial rule).gettoken
  if g.1 ≠ .crNoerr then some (rechaza g.1 .null g.2)
  else (parseorexpr (3 * (rule.length + 2)) g.2).map concluye

end Ircd.Crule
