import Ircd.Channel.Canal
import Ircd.Lib.Doubly
import Ircd.Lib.Incidence
import Ircd.Watch.Lists

/-!
# Members of channels

`get_channel`, `add_user_to_channel`, `remove_user_from_channel`, `sub1_from_channel`, `add_invite`
and `del_invite` of `ircd/channel.c`. The channels are named by `γ` and the clients by `κ`. A
function that reads a block after it has been freed gives `none`, and so does one that finds no
memory, which ends the program.
-/

namespace Ircd.Channel

open CString Hash

/-- The channels, the global list and the hash table of them, the blocks in use, `nrof.channels`, and
what the clients keep: whether they have a `user`, its channels and the number of them, and the
invitations. -/
structure Red (γ κ : Type) where
  canal : γ → Canal κ
  lista : Doubly γ
  tabla : Tabla γ
  enUso : Finset γ
  nrofChannels : Int
  user : κ → Bool
  channel : κ → List γ
  joined : κ → Int
  invited : κ → List γ

/-- `CHANNELLEN`. -/
def CHANNELLEN : Nat := 64

section

variable {γ κ : Type} [DecidableEq γ] [DecidableEq κ]

/-- A channel is changed. -/
def Red.cambia (s : Red γ κ) (chptr : γ) (f : Canal κ → Canal κ) : Red γ κ :=
  { s with canal := Function.update s.canal chptr (f (s.canal chptr)) }

/-! ## Invitations -/

/-- `del_invite`. -/
def delInvite (cptr : κ) (chptr : γ) (s : Red γ κ) : Red γ κ :=
  let s := s.cambia chptr fun c ↦ { c with invites := c.invites.erase cptr }
  { s with invited := Function.update s.invited cptr ((s.invited cptr).erase chptr) }

/-- `add_invite`. -/
def addInvite (MAXCHANNELSPERUSER : Nat) (cptr : κ) (chptr : γ) (s : Red γ κ) : Red γ κ :=
  let s := delInvite cptr chptr s
  let s :=
    if MAXCHANNELSPERUSER ≤ (s.invited cptr).length then
      match s.invited cptr with
      | c :: _ => delInvite cptr c s
      | [] => s
    else s
  let s := s.cambia chptr fun c ↦ { c with invites := cptr :: c.invites }
  { s with invited := Function.update s.invited cptr (s.invited cptr ++ [chptr]) }

/-- The loop of `sub1_from_channel` over the invitations. -/
def delInvites (chptr : γ) : Nat → Red γ κ → Red γ κ
  | 0, s => s
  | fuel + 1, s =>
      match (s.canal chptr).invites with
      | [] => s
      | cptr :: _ => delInvites chptr fuel (delInvite cptr chptr s)

variable {chptr : γ} {s : Red γ κ}

/-- The first invitation is taken back. -/
theorem canal_delInvite_cons {cptr : κ} {rest : List κ}
    (hinvites : (s.canal chptr).invites = cptr :: rest) :
    (delInvite cptr chptr s).canal chptr = { s.canal chptr with invites := rest } := by
  show Function.update s.canal chptr _ chptr = _
  rw [Function.update_self, hinvites, List.erase_cons_head]

/-- The loop does nothing where there are no invitations. -/
theorem delInvites_nil (hinvites : (s.canal chptr).invites = []) (fuel : Nat) :
    delInvites chptr fuel s = s := by
  cases fuel with
  | zero => rfl
  | succ fuel => rw [delInvites, hinvites]

/-- The loop takes all the invitations back. -/
theorem canal_delInvites {fuel : Nat} (hfuel : (s.canal chptr).invites.length ≤ fuel) :
    (delInvites chptr fuel s).canal chptr = { s.canal chptr with invites := [] } := by
  induction fuel generalizing s with
  | zero =>
      have hnil : (s.canal chptr).invites = [] := List.length_eq_zero_iff.mp (by omega)
      rw [delInvites, ← hnil]
  | succ fuel ih =>
      cases hinvites : (s.canal chptr).invites with
      | nil => rw [delInvites_nil hinvites, ← hinvites]
      | cons cptr rest =>
          have hcanal := canal_delInvite_cons hinvites
          rw [hinvites, List.length_cons] at hfuel
          have hrest := ih (s := delInvite cptr chptr s) (by
            rw [hcanal]
            exact Nat.le_of_succ_le_succ hfuel)
          rw [delInvites, hinvites]
          dsimp only
          rw [hrest, hcanal]

/-! ## Channels -/

variable [Fintype γ]

/-- The end of `sub1_from_channel`: the block is freed, with its links. -/
def libera (chptr : γ) (s : Red γ κ) : Red γ κ :=
  let s := delInvites chptr (s.canal chptr).invites.length s
  let s := s.cambia chptr fun c ↦ { c with banlist := [] }
  { s with
    lista := s.lista.drop chptr
    tabla := (s.tabla.rem chptr).2
    nrofChannels := s.nrofChannels - 1
    enUso := s.enUso.erase chptr }

/-- `sub1_from_channel`. -/
def sub1FromChannel (chptr : γ) (s : Red γ κ) : Red γ κ :=
  let s := s.cambia chptr fun c ↦ { c with users := c.users - 1 }
  if (s.canal chptr).users ≠ 0 then s
  else if .regchan ∈ (s.canal chptr).mode then s
  else libera chptr s

/-- `get_channel`. -/
def getChannel (sys : Watch.Malloc γ) (mio : Bool) (chname : CStr) (create : Bool) (s : Red γ κ) :
    Option (Option γ × Red γ κ) :=
  if chname = [] then some (none, s)
  else
    let chname := if mio ∧ CHANNELLEN < chname.length then chname.take CHANNELLEN else chname
    match s.tabla.seek chname fun _ ↦ true with
    | (some chptr, tabla) => some (some chptr, { s with tabla := tabla })
    | (none, tabla) =>
        if create then
          match sys.pide s.enUso with
          | none => none
          | some chptr => some (some chptr, { s with
              canal := Function.update s.canal chptr Canal.nuevo
              lista := s.lista.push chptr
              tabla := (tabla.conNombre chptr chname).add chptr
              nrofChannels := s.nrofChannels + 1
              enUso := insert chptr s.enUso })
        else some (none, { s with tabla := tabla })

/-! ## Members -/

omit [DecidableEq γ] [Fintype γ] in
/-- A member is looked for by its client. -/
def esDe (cptr : κ) (m : Miembro κ) : Bool :=
  m.cptr = cptr

omit [Fintype γ] in
/-- `add_user_to_channel`. -/
def addUserToChannel (chptr : γ) (who : κ) (flags : Finset Chfl) (s : Red γ κ) : Red γ κ :=
  if s.user who then
    let s := s.cambia chptr fun c ↦
      { c with members := ⟨who, flags⟩ :: c.members, users := c.users + 1 }
    { s with
      channel := Function.update s.channel who (chptr :: s.channel who)
      joined := Function.update s.joined who (s.joined who + 1) }
  else s

omit [Fintype γ] in
/-- The links between a channel and a user are taken out. -/
def desenlaza (chptr : γ) (sptr : κ) (s : Red γ κ) : Red γ κ :=
  let s := s.cambia chptr fun c ↦ { c with members := c.members.eraseP (esDe sptr) }
  { s with
    channel := Function.update s.channel sptr ((s.channel sptr).erase chptr)
    joined := Function.update s.joined sptr (s.joined sptr - 1) }

/-- The loop of `remove_user_from_channel`. `lp` tells whether a member stays who is not a zombie. -/
def saca (chptr : γ) (lp : Bool) : Nat → κ → Red γ κ → Option (Red γ κ)
  | 0, _, _ => none
  | fuel + 1, sptr, s =>
      if chptr ∈ s.enUso then
        let s := desenlaza chptr sptr s
        if lp then some s
        else
          match (s.canal chptr).members with
          | [] => some s
          | m :: _ => saca chptr lp fuel m.cptr (sub1FromChannel chptr s)
      else none

/-- `remove_user_from_channel`. -/
def removeUserFromChannel (sptr : κ) (chptr : γ) (s : Red γ κ) : Option (Red γ κ) :=
  let members := (s.canal chptr).members
  let lp := members.any fun m ↦ !(.zombie ∈ m.flags ∨ m.cptr = sptr)
  match saca chptr lp (members.length + 1) sptr s with
  | none => none
  | some s => if chptr ∈ s.enUso then some (sub1FromChannel chptr s) else none

omit [Fintype γ] in
/-- The link to a member is marked with `CHFL_ZOMBIE`. -/
def hazZombie (chptr : γ) (who : κ) (s : Red γ κ) : Red γ κ :=
  s.cambia chptr fun c ↦ { c with
    members := c.members.map fun m ↦
      if m.cptr = who then { m with flags := insert .zombie m.flags } else m }

end

end Ircd.Channel
