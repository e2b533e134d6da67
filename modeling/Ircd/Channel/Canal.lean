import Ircd.Lib.CString
import Mathlib.Data.Finset.Insert

/-!
# Channels

The data of a channel in `include/channel.h`. The flags of a link and the modes of a channel are the
sets of the bits that are on. The links of a channel to its members and to its bans are the lists
that the pointers `next` lead over.
-/

namespace Ircd.Channel

open CString

/-- `CHFL_…`: the flags of the link to a member or to a ban. -/
inductive Chfl where
  | chanop
  | voice
  | deopped
  | servopok
  | zombie
  | ban
  | banIpmask
  | banOverlapped
  | burstJoined
  | burstBan
  | burstBanWipeout
  | banvalid
  | banned
  | delayed
  | owner
deriving DecidableEq

/-- `MODE_…`: the bits of `mode.mode`, `modos_obligatorios` and `modos_prohibidos`. -/
inductive Modo where
  | voice
  | «private»
  | secret
  | moderated
  | topiclimit
  | inviteonly
  | noprivmsgs
  | key
  | limit
  | regchan
  | regnicks
  | msgnonreg
  | noctcp
  | nonotice
  | noquitparts
  | deljoins
  | nocolour
  | sslonly
  | msgnonweb
  | operonly
deriving DecidableEq

/-- A link of `banlist`. -/
structure Ban where
  banstr : CStr
  who : CStr
  when : Int
  flags : Finset Chfl
deriving DecidableEq

/-- A link of `members`. -/
structure Miembro (κ : Type) where
  cptr : κ
  flags : Finset Chfl
deriving DecidableEq

/-- `struct Channel`. A key that is `NULL` is `none`, and a limit of 0 is no limit. -/
structure Canal (κ : Type) where
  mode : Finset Modo
  limit : Nat
  key : Option CStr
  modosObligatorios : Finset Modo
  modosProhibidos : Finset Modo
  users : Nat
  members : List (Miembro κ)
  invites : List κ
  banlist : List Ban

/-- A block that has been zeroed. -/
def Canal.nuevo {κ : Type} : Canal κ :=
  ⟨∅, 0, none, ∅, ∅, 0, [], [], []⟩

/-- `find_user_link`. -/
def findUserLink {κ : Type} [DecidableEq κ] (lp : List (Miembro κ)) (ptr : κ) :
    Option (Miembro κ) :=
  lp.find? fun m ↦ m.cptr = ptr

end Ircd.Channel
