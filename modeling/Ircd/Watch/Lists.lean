import Ircd.Hash.Table
import Ircd.Lib.Nodes

/-!
# WATCH lists

`ircd/m_watch.c`, with `make_watch` and `free_watch` of `ircd/list.c`. The users are named by `κ` and
the addresses of watch entries by `ω`; the list of links of a user and that of an entry are lists of
`Nodes`, whose values are the pointers `value.cptr` and `value.wptr`. The functions that allocate an
entry give `none` when the memory is out, which ends the program.
-/

namespace Ircd.Watch

open CString Hash

/-- `RunMalloc`: the address of a block that is not in use, if there is one. -/
structure Malloc (ω : Type) where
  pide : Finset ω → Option ω
  libre : ∀ d p, pide d = some p → p ∉ d

/-- The watch table with the entries in use, the links, the counters of the users, and the number of
times that an entry without a link to its client has been reported. -/
structure Watches (κ ω : Type) where
  tabla : Tabla ω
  enUso : Finset ω
  links : Nodes (κ ⊕ ω) (κ ⊕ ω)
  cwatch : κ → Int
  avisos : Nat

/-! ## Parameters -/

/-- `strtoken`: the first token, and the string behind its separator. -/
def strtoken (fs : List Char) (str : CStr) : Option (CStr × CStr) :=
  match str.dropWhile (· ∈ fs) with
  | [] => none
  | c :: pos =>
      some ((c :: pos).takeWhile (· ∉ fs), ((c :: pos).dropWhile (· ∉ fs)).tail)

/-- There is no token. -/
theorem strtoken_eq_none {fs : List Char} {str : CStr} (h : str.dropWhile (· ∈ fs) = []) :
    strtoken fs str = none := by
  rw [strtoken, h]

/-- The first token. -/
theorem strtoken_eq_some {fs : List Char} {str pos : CStr} {c : Char}
    (h : str.dropWhile (· ∈ fs) = c :: pos) : strtoken fs str =
      some ((c :: pos).takeWhile (· ∉ fs), ((c :: pos).dropWhile (· ∉ fs)).tail) := by
  rw [strtoken, h]

/-- The tokens of a string. -/
def tokens (fs : List Char) : Nat → CStr → List CStr
  | 0, _ => []
  | fuel + 1, str =>
      match strtoken fs str with
      | none => []
      | some (s, rest) => s :: tokens fs fuel rest

/-- The nick of a parameter: what is in front of the user and the host, unless there is nothing. -/
def nickDe (s : CStr) : CStr :=
  match strtoken ['!'] s with
  | some (nick, _) => nick
  | none => s

section

variable {κ ω : Type} [DecidableEq κ] [DecidableEq ω]

/-! ## Entries -/

/-- `make_watch`. -/
def makeWatch (sys : Malloc ω) (nick : CStr) (w : Watches κ ω) : Option (Option ω × Watches κ ω) :=
  if nick = [] then some (none, w)
  else
    match sys.pide w.enUso with
    | none => none
    | some wptr => some (some wptr, { w with
        enUso := insert wptr w.enUso
        links := w.links.clear (.inr wptr)
        tabla := (w.tabla.conNombre wptr nick).add wptr })

/-- The part of `agrega_nick_watch` that links a user and an entry. -/
def enlaza (sptr : κ) (wptr : ω) (w : Watches κ ω) : Watches κ ω :=
  match w.links.find (.inr wptr) (.inl sptr) with
  | some _ => w
  | none => { w with
      links := (w.links.cons (.inr wptr) (.inl sptr)).cons (.inl sptr) (.inr wptr)
      cwatch := Function.update w.cwatch sptr (w.cwatch sptr + 1) }

variable [Fintype ω]

omit [DecidableEq κ] in
/-- `free_watch`. -/
def freeWatch (wptr : ω) (w : Watches κ ω) : Watches κ ω :=
  { w with
    tabla := (w.tabla.rem wptr).2
    enUso := w.enUso.erase wptr }

omit [DecidableEq κ] in
/-- `FindWatch`. -/
def findWatch (nick : CStr) (w : Watches κ ω) : Option ω × Watches κ ω :=
  let r := w.tabla.seek nick fun _ ↦ true
  (r.1, { w with tabla := r.2 })

/-- `agrega_nick_watch`. -/
def agregaNickWatch (sys : Malloc ω) (sptr : κ) (nick : CStr) (w : Watches κ ω) :
    Option (Watches κ ω) :=
  match findWatch nick w with
  | (some wptr, w) => some (enlaza sptr wptr w)
  | (none, w) =>
      match makeWatch sys nick w with
      | none => none
      | some (none, w) => some w
      | some (some wptr, w) => some (enlaza sptr wptr w)

/-- `if (!wptr->watch) free_watch (wptr)`. -/
def sueltaWatch (wptr : ω) (w : Watches κ ω) : Watches κ ω :=
  match w.links.head (.inr wptr) with
  | none => freeWatch wptr w
  | some _ => w

/-- `borra_nick_watch`. -/
def borraNickWatch (sptr : κ) (nick : CStr) (w : Watches κ ω) : Watches κ ω :=
  match findWatch nick w with
  | (none, w) => w
  | (some wptr, w) =>
      match w.links.remove (.inr wptr) (.inl sptr) with
      | (false, _) => w
      | (true, links) =>
          let w := { w with links := links }
          let w := match w.links.remove (.inl sptr) (.inr wptr) with
            | (false, _) => { w with avisos := w.avisos + 1 }
            | (true, links) => { w with links := links }
          let w := sueltaWatch wptr w
          { w with cwatch := Function.update w.cwatch sptr (w.cwatch sptr - 1) }

/-- The loop of `borra_lista_watch` over the links of the user. -/
def borraDesde (sptr : κ) : Nat → Option Nat → Watches κ ω → Watches κ ω
  | _, none, w => w
  | 0, some _, w => w
  | fuel + 1, some lp, w =>
      let w := match w.links.value lp with
        | .inl _ => w
        | .inr wptr =>
            match w.links.remove (.inr wptr) (.inl sptr) with
            | (false, _) => { w with avisos := w.avisos + 1 }
            | (true, links) => sueltaWatch wptr { w with links := links }
      borraDesde sptr fuel (w.links.next lp) w

/-- `borra_lista_watch`. -/
def borraListaWatch (sptr : κ) (w : Watches κ ω) : Watches κ ω :=
  match w.links.head (.inl sptr) with
  | none => w
  | some lp =>
      let w := borraDesde sptr w.links.count (some lp) w
      { w with
        links := w.links.clear (.inl sptr)
        cwatch := Function.update w.cwatch sptr 0 }

/-! ## The command -/

/-- One parameter of `m_watch`. -/
def watchParametro (MAXWATCH nicklen : Nat) (sys : Malloc ω) (cptr : κ) (s : CStr)
    (w : Watches κ ω) : Option (Watches κ ω) :=
  match s with
  | [] => some w
  | c :: s =>
      if c = '+' ∨ c = '-' then
        let nick := nickDe s
        if '*' ∈ nick ∨ '.' ∈ nick ∨ '@' ∈ nick then some w
        else
          let nick := nick.take nicklen
          if nick = [] then some w
          else if c = '+' then
            if w.cwatch cptr ≥ MAXWATCH then some w else agregaNickWatch sys cptr nick w
          else some (borraNickWatch cptr nick w)
      else if c = 'C' ∨ c = 'c' then some (borraListaWatch cptr w)
      else some w

/-- The parameters of `m_watch`, one after another. -/
def watchParametros (MAXWATCH nicklen : Nat) (sys : Malloc ω) (cptr : κ) :
    List CStr → Watches κ ω → Option (Watches κ ω)
  | [], w => some w
  | s :: ss, w =>
      (watchParametro MAXWATCH nicklen sys cptr s w).bind
        (watchParametros MAXWATCH nicklen sys cptr ss)

/-- `m_watch`. -/
def mWatch (MAXWATCH nicklen : Nat) (sys : Malloc ω) (cptr : κ) (parv1 : CStr)
    (w : Watches κ ω) : Option (Watches κ ω) :=
  watchParametros MAXWATCH nicklen sys cptr (tokens [',', ' '] (parv1.length + 1) parv1) w

end

end Ircd.Watch
