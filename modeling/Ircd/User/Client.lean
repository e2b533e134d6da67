import Ircd.Lib.CString
import Ircd.Lib.Flags

/-!
# Clients and their modes

What the commands about user modes read and write of an `aClient`, with the bits of its two words of
flags in `include/s_bsd.h` and the tables `user_modes` and `user_hmodes` of `ircd/s_user.c`. The two
words are numbered apart from one another: `FLAGS_LOCOP` and `HMODE_HELPOP` are the same number.
-/

namespace Ircd.User

open CString Flags

/-! ## Bits of `flags` -/

/-- `FLAGS_OPER`. -/
abbrev FLAGS_OPER : BitVec 32 := 0x0008#32

/-- `FLAGS_LOCOP`. -/
abbrev FLAGS_LOCOP : BitVec 32 := 0x0010#32

/-- `FLAGS_INVISIBLE`. -/
abbrev FLAGS_INVISIBLE : BitVec 32 := 0x0020#32

/-- `FLAGS_WALLOP`. -/
abbrev FLAGS_WALLOP : BitVec 32 := 0x0040#32

/-- `FLAGS_SERVNOTICE`. -/
abbrev FLAGS_SERVNOTICE : BitVec 32 := 0x0080#32

/-- `FLAGS_DEAF`. -/
abbrev FLAGS_DEAF : BitVec 32 := 0x02000000#32

/-- `FLAGS_CHSERV`. -/
abbrev FLAGS_CHSERV : BitVec 32 := 0x04000000#32

/-- `FLAGS_DEBUG`. -/
abbrev FLAGS_DEBUG : BitVec 32 := 0x20000000#32

/-- `MODE_ISWATCH`. -/
abbrev MODE_ISWATCH : BitVec 32 := 0x80000000#32

/-- `FLAGS_OPERCMD`, which is wider than the word. -/
abbrev FLAGS_OPERCMD : BitVec 64 := 0x100000000#64

/-! ## Bits of `hmodes` -/

/-- `HMODE_NICKREGISTERED`. -/
abbrev HMODE_NICKREGISTERED : BitVec 32 := 0x00000001#32

/-- `HMODE_HIDDENVIEWER`. -/
abbrev HMODE_HIDDENVIEWER : BitVec 32 := 0x00000002#32

/-- `HMODE_NICKSUSPENDED`. -/
abbrev HMODE_NICKSUSPENDED : BitVec 32 := 0x00000004#32

/-- `HMODE_MSGONLYREG`. -/
abbrev HMODE_MSGONLYREG : BitVec 32 := 0x00000008#32

/-- `HMODE_HELPOP`. -/
abbrev HMODE_HELPOP : BitVec 32 := 0x00000010#32

/-- `HMODE_SERVICESBOT`. -/
abbrev HMODE_SERVICESBOT : BitVec 32 := 0x00000020#32

/-- `HMODE_HIDDEN`. -/
abbrev HMODE_HIDDEN : BitVec 32 := 0x00000040#32

/-- `HMODE_VHOSTPERSO`. -/
abbrev HMODE_VHOSTPERSO : BitVec 32 := 0x00000080#32

/-- `HMODE_STRIPCOLOR`. -/
abbrev HMODE_STRIPCOLOR : BitVec 32 := 0x00000100#32

/-- `HMODE_NOCHAN`. -/
abbrev HMODE_NOCHAN : BitVec 32 := 0x00000200#32

/-- `HMODE_SSL`. -/
abbrev HMODE_SSL : BitVec 32 := 0x00000400#32

/-- `HMODE_ADMIN`. -/
abbrev HMODE_ADMIN : BitVec 32 := 0x00000800#32

/-- `HMODE_CODER`. -/
abbrev HMODE_CODER : BitVec 32 := 0x00001000#32

/-- `HMODE_NOIDLE`. -/
abbrev HMODE_NOIDLE : BitVec 32 := 0x00002000#32

/-- `HMODE_WHOIS`. -/
abbrev HMODE_WHOIS : BitVec 32 := 0x00004000#32

/-- `HMODE_USERDEAF`. -/
abbrev HMODE_USERDEAF : BitVec 32 := 0x00008000#32

/-- `HMODE_USERBITCH`. -/
abbrev HMODE_USERBITCH : BitVec 32 := 0x00010000#32

/-- `HMODE_USERNOJOIN`. -/
abbrev HMODE_USERNOJOIN : BitVec 32 := 0x00020000#32

/-- `HMODE_PENDVALIDATION`. -/
abbrev HMODE_PENDVALIDATION : BitVec 32 := 0x00040000#32

/-- `HMODE_DOCKING`. -/
abbrev HMODE_DOCKING : BitVec 32 := 0x00080000#32

/-- `HMODE_NOCTCP`. -/
abbrev HMODE_NOCTCP : BitVec 32 := 0x00100000#32

/-! ## Privileges and notices -/

/-- `PRIV_CHANSERV`. -/
abbrev PRIV_CHANSERV : BitVec 64 := 0x200000000#64

/-- `PRIV_HIDDEN_VIEWER`. -/
abbrev PRIV_HIDDEN_VIEWER : BitVec 64 := 0x400000000#64

/-- `PRIV_WHOIS_NOTICE`. -/
abbrev PRIV_WHOIS_NOTICE : BitVec 64 := 0x800000000#64

/-- `PRIV_HIDE_IDLE`. -/
abbrev PRIV_HIDE_IDLE : BitVec 64 := 0x1000000000#64

/-- `SNO_ALL`. -/
abbrev SNO_ALL : BitVec 32 := 0x1ffff#32

/-- `SNO_OPER`: `SNO_CONNEXIT|SNO_OLDREALOP|SNO_SERVICE`. -/
abbrev SNO_OPER : BitVec 32 := 0x4000#32 ||| 0x2000#32 ||| 0x8000#32

/-- `SNO_USER`. -/
abbrev SNO_USER : BitVec 32 := SNO_ALL &&& ~~~SNO_OPER

/-- `SNO_DEFAULT`: `SNO_NETWORK|SNO_OPERKILL|SNO_GLINE`. -/
abbrev SNO_DEFAULT : BitVec 32 := 0x400#32 ||| 0x4#32 ||| 0x200#32

/-- `SNO_OPERDEFAULT`: `SNO_DEFAULT|SNO_HACK2|SNO_HACK4|SNO_THROTTLE|SNO_OLDSNO`. -/
abbrev SNO_OPERDEFAULT : BitVec 32 := SNO_DEFAULT ||| 0x8#32 ||| 0x100#32 ||| 0x1000#32 ||| 0x1#32

/-! ## Tables -/

/-- `user_modes`. -/
def userModes : List (BitVec 32 × Char) :=
  [(FLAGS_OPER, 'o'), (FLAGS_LOCOP, 'O'), (FLAGS_INVISIBLE, 'i'), (FLAGS_WALLOP, 'w'),
    (FLAGS_SERVNOTICE, 's'), (FLAGS_DEAF, 'd'), (FLAGS_CHSERV, 'k'), (FLAGS_DEBUG, 'g')]

/-- `user_hmodes`. -/
def userHmodes : List (BitVec 32 × Char) :=
  [(HMODE_NICKREGISTERED, 'r'), (HMODE_NICKSUSPENDED, 'S'), (HMODE_ADMIN, 'a'), (HMODE_CODER, 'C'),
    (HMODE_HELPOP, 'h'), (HMODE_HIDDEN, 'x'), (HMODE_HIDDENVIEWER, 'X'), (HMODE_VHOSTPERSO, 'v'),
    (HMODE_SERVICESBOT, 'B'), (HMODE_MSGONLYREG, 'R'), (HMODE_STRIPCOLOR, 'c'),
    (HMODE_NOCHAN, 'n'), (HMODE_SSL, 'z'), (HMODE_DOCKING, 'K'), (HMODE_NOIDLE, 'I'),
    (HMODE_WHOIS, 'W'), (HMODE_NOCTCP, 'T'), (HMODE_USERDEAF, 'D'), (HMODE_USERBITCH, 'P'),
    (HMODE_USERNOJOIN, 'J'), (HMODE_PENDVALIDATION, 'V')]

/-- The flags of a table that are on in a word, as the loops over a table collect them. -/
def recoge (tabla : List (BitVec 32 × Char)) (word : BitVec 32) : BitVec 32 :=
  tabla.foldl (fun set flag ↦ if has word flag.1 then set ||| flag.1 else set) 0#32

/-! ## Clients -/

/-- What is kept of a client. -/
structure Cliente where
  name : CStr
  myConnect : Bool
  isUser : Bool
  flags : BitVec 32
  hmodes : BitVec 32
  snomask : BitVec 32
  privs : BitVec 64
deriving DecidableEq

/-- `nrof`: the counters that depend on modes. -/
structure Nrof where
  opers : Int
  helpers : Int
  invClients : Int
deriving DecidableEq

namespace Cliente

/-- `IsOper`. -/
def isOper (x : Cliente) : Bool :=
  has x.flags FLAGS_OPER

/-- `IsAnOper`. -/
def isAnOper (x : Cliente) : Bool :=
  has x.flags (FLAGS_OPER ||| FLAGS_LOCOP)

/-- `IsHelpOp`. -/
def isHelpOp (x : Cliente) : Bool :=
  has x.hmodes HMODE_HELPOP

/-- `MyUser`. -/
def myUser (x : Cliente) : Bool :=
  x.myConnect && x.isUser

/-- A bit of `flags` is set. -/
def setFlag (f : BitVec 32) (x : Cliente) : Cliente :=
  { x with flags := x.flags ||| f }

/-- A bit of `flags` is cleared. -/
def clearFlag (f : BitVec 32) (x : Cliente) : Cliente :=
  { x with flags := x.flags &&& ~~~f }

/-- A bit of `hmodes` is set. -/
def setHmode (f : BitVec 32) (x : Cliente) : Cliente :=
  { x with hmodes := x.hmodes ||| f }

/-- A bit of `hmodes` is cleared. -/
def clearHmode (f : BitVec 32) (x : Cliente) : Cliente :=
  { x with hmodes := x.hmodes &&& ~~~f }

/-- `IsOperCmd`: the word is widened to the width of the flag. -/
def isOperCmd (x : Cliente) : Bool :=
  has (x.flags.setWidth 64) FLAGS_OPERCMD

/-- `SetOperCmd`: what is set is cut back to the width of the word. -/
def setOperCmd (x : Cliente) : Cliente :=
  { x with flags := (x.flags.setWidth 64 ||| FLAGS_OPERCMD).setWidth 32 }

/-- `ClearOperCmd`. -/
def clearOperCmd (x : Cliente) : Cliente :=
  { x with flags := (x.flags.setWidth 64 &&& ~~~FLAGS_OPERCMD).setWidth 32 }

end Cliente

/-! ## Facts about the bits -/

/-- The flags and the letters of a table are apart from one another. -/
structure Separa (tabla : List (BitVec 32 × Char)) : Prop where
  disjoint : ∀ a ∈ tabla, ∀ b ∈ tabla, a ≠ b → a.1 &&& b.1 = 0
  letras : ∀ a ∈ tabla, ∀ b ∈ tabla, a.2 = b.2 → a = b
  ne_zero : ∀ a ∈ tabla, a.1 ≠ 0

theorem separa_userModes : Separa userModes where
  disjoint := by decide
  letras := by decide
  ne_zero := by decide

theorem separa_userHmodes : Separa userHmodes where
  disjoint := by decide +kernel
  letras := by decide +kernel
  ne_zero := by decide

/-- A flag of a table is found by its letter. -/
theorem Separa.find? {tabla : List (BitVec 32 × Char)} (h : Separa tabla) {a : BitVec 32 × Char}
    (ha : a ∈ tabla) : tabla.find? (fun flag ↦ flag.2 = a.2) = some a := by
  cases hfind : tabla.find? fun flag ↦ flag.2 = a.2 with
  | none =>
      have hnot := List.find?_eq_none.mp hfind a ha
      rw [decide_eq_true_eq] at hnot
      exact absurd rfl hnot
  | some b =>
      have hb := List.mem_of_find?_eq_some hfind
      have hletra : b.2 = a.2 := by simpa using List.find?_some hfind
      rw [h.letras b hb a ha hletra]

/-- A loop over a table finds the flags that are on. -/
theorem has_foldl {tabla : List (BitVec 32 × Char)} {word set f : BitVec 32} :
    has (tabla.foldl (fun set flag ↦ if has word flag.1 then set ||| flag.1 else set) set) f =
      (has set f || tabla.any fun flag ↦ has word flag.1 && has flag.1 f) := by
  induction tabla generalizing set with
  | nil => simp
  | cons flag tabla ih =>
      rw [List.foldl_cons, ih, List.any_cons, ← Bool.or_assoc]
      congr 1
      cases has word flag.1 <;> simp

/-- What a loop over a table collects of a flag of the table. -/
theorem Separa.has_recoge {tabla : List (BitVec 32 × Char)} (h : Separa tabla)
    {a : BitVec 32 × Char} (ha : a ∈ tabla) (word : BitVec 32) :
    has (recoge tabla word) a.1 = has word a.1 := by
  rw [recoge, has_foldl, Flags.has_zero, Bool.false_or, Bool.eq_iff_iff, List.any_eq_true]
  constructor
  · rintro ⟨b, hb, hon⟩
    obtain ⟨hword, hsame⟩ := Bool.and_eq_true_iff.mp hon
    have hab : b = a := by
      by_contra hne
      exact has_eq_true.mp hsame (h.disjoint b hb a ha hne)
    rwa [← hab]
  · intro hword
    exact ⟨a, ha, Bool.and_eq_true_iff.mpr ⟨hword, has_self (h.ne_zero a ha)⟩⟩

/-- The bit of `FLAGS_OPERCMD` is the first that does not fit in the word. -/
theorem FLAGS_OPERCMD_eq : FLAGS_OPERCMD = BitVec.twoPow 64 32 := by
  decide

namespace Cliente

/-- Clearing `FLAGS_OPERCMD` changes nothing. -/
@[simp] theorem clearOperCmd_eq (x : Cliente) : x.clearOperCmd = x := by
  have hflags : (x.flags.setWidth 64 &&& ~~~FLAGS_OPERCMD).setWidth 32 = x.flags := by
    rw [FLAGS_OPERCMD_eq]
    ext i hi
    have hlt : i < 64 := by omega
    have hne : ¬32 = i := by omega
    simp only [BitVec.getElem_setWidth, BitVec.getLsbD_and, BitVec.getLsbD_not,
      BitVec.getLsbD_twoPow, BitVec.getLsbD_setWidth, hlt, hne, decide_true, decide_false,
      Bool.and_false, Bool.not_false, Bool.and_true, Bool.true_and]
    exact BitVec.getLsbD_eq_getElem hi
  rw [clearOperCmd, hflags]

end Cliente

end Ircd.User
