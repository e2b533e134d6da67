import Ircd.Common
import Ircd.Lib.CString
import Ircd.Lib.Pins
import Mathlib.Data.BitVec
import Mathlib.Logic.Function.Basic

/-!
# Connection classes

The classes of `ircd/class.c` and the entries of the configuration, with `attach_conf` and
`detach_conf` of `ircd/s_conf.c`. Classes and entries are named by the number of those that were
made before, so a name is not used again after `free_class` or `free_conf`, and a write through a
pointer to freed memory does nothing.

`Cuentas` says that the counters of the entries and of the classes are the numbers of attachments.
`Cuentas.atado` and `Cuentas.suelto` are the steps of an attachment.
-/

namespace Ircd.Conf

open CString Pins

/-- Local connections are named by their descriptors. -/
def MAXCONNECTIONS : Nat := 252

def DEFAULTMAXSENDQLENGTH : BitVec 32 := 40000#32

/-! ## Entries and classes -/

/-- The kinds of entries, from the first letter of their lines. -/
inductive Tipo where
  | admin
  | connectServer
  | cruleall
  | cruleauto
  | exception
  | hub
  | client
  | kill
  | ipkill
  | leaf
  | me
  | negotiation
  | operator
  | locop
  | listenPort
  | tlines
  | uworld
  | webirc
  | conClass
deriving DecidableEq

/-- `CONF_CLIENT_MASK`. -/
def Tipo.clientMask : Tipo → Bool
  | .client | .operator | .locop | .connectServer => true
  | _ => false

/-- The kinds with a limit of connections. -/
def Tipo.limitado : Tipo → Bool
  | .client | .operator | .locop => true
  | _ => false

/-- `CONF_HUB | CONF_LEAF | CONF_UWORLD`. -/
def Tipo.deServidor : Tipo → Bool
  | .hub | .leaf | .uworld => true
  | _ => false

structure ConfClass where
  conClass : BitVec 32
  conFreq : BitVec 32
  pingFreq : BitVec 32
  maxLinks : BitVec 32
  maxSendq : BitVec 32
  links : BitVec 32

/-- `IsMarkedDelete`. -/
def ConfClass.isMarkedDelete (cl : ConfClass) : Bool :=
  cl.maxLinks = BitVec.allOnes 32

/-- The values of a line. -/
def ConfClass.con (conClass ping confreq : BitVec 32) (maxli : BitVec 16) (sendq : Int)
    (links : BitVec 32) : ConfClass where
  conClass := conClass
  conFreq := confreq
  pingFreq := ping
  maxLinks := maxli.setWidth 32
  maxSendq := if sendq = 0 then DEFAULTMAXSENDQLENGTH else BitVec.ofInt 32 sendq
  links := links

/-- A limit that was read is never the mark. -/
theorem ConfClass.isMarkedDelete_con (conClass ping confreq : BitVec 32) (maxli : BitVec 16)
    (sendq : Int) (links : BitVec 32) :
    (con conClass ping confreq maxli sendq links).isMarkedDelete = false := by
  rw [isMarkedDelete, decide_eq_false_iff_not]
  intro heq
  have hnat := congrArg BitVec.toNat heq
  have hlt := maxli.isLt
  rw [BitVec.toNat_allOnes, con, BitVec.toNat_setWidth_of_le (by decide)] at hnat
  omega

/-- An entry. Its status is its kind and the flags `CONF_ILLEGAL`, `CONF_COOKIE_ENC` and
`CONF_SSL_PORT`. -/
structure ConfItem where
  tipo : Tipo
  illegal : Bool
  cookieEnc : Bool
  sslPort : Bool
  clients : BitVec 32
  host : Option CStr
  passwd : Option CStr
  name : Option CStr
  port : BitVec 16
  confClass : Option Nat

/-- The memory of the configuration. `classes` is the first class, `siguientes` are those behind it
in the list, `confs` are the links of the local clients to their entries, the last one first, and
`oyentes` the entries of the sockets that listen. -/
structure Estado where
  clase : Nat → Option ConfClass
  classes : Nat
  siguientes : List Nat
  item : Nat → Option ConfItem
  conf : List Nat
  confs : List (Nat × Nat)
  oyentes : List Nat
  nextClase : Nat
  nextItem : Nat

namespace Estado

/-- A write to a class. -/
def modClase (c : Nat) (f : ConfClass → ConfClass) (s : Estado) : Estado :=
  { s with clase := Function.update s.clase c ((s.clase c).map f) }

/-- A write to an entry. -/
def modItem (e : Nat) (f : ConfItem → ConfItem) (s : Estado) : Estado :=
  { s with item := Function.update s.item e ((s.item e).map f) }

/-- `free_conf`. -/
def freeConf (e : Nat) (s : Estado) : Estado :=
  { s with item := Function.update s.item e none }

/-- A write to the counter of the class of an entry. -/
def modConfLinks (a : ConfItem) (f : BitVec 32 → BitVec 32) (s : Estado) : Estado :=
  a.confClass.elim s fun c ↦ s.modClase c fun cl ↦ { cl with links := f cl.links }

/-- `ConfLinks` is at `ConfMaxLinks`. -/
def lleno (s : Estado) (a : ConfItem) : Bool :=
  (a.confClass.bind s.clase).any fun cl ↦ cl.maxLinks ≤ cl.links ∧ cl.maxLinks ≠ 0#32

/-- `find_class`. -/
def findClass (s : Estado) (cclass : BitVec 32) : Nat :=
  ((s.classes :: s.siguientes).find? fun c ↦ (s.clase c).any (·.conClass = cclass)).getD s.classes

/-- `add_class`. The value of `MaxLinks` comes from the field `port`. -/
def addClass (conClass ping confreq : BitVec 32) (maxli : BitVec 16) (sendq : Int) (s : Estado) :
    Estado :=
  let t := s.findClass conClass
  if t = s.classes ∧ conClass ≠ 0#32 then
    { s with
      clase := Function.update s.clase s.nextClase
        (some (ConfClass.con conClass ping confreq maxli sendq 0#32))
      siguientes := s.nextClase :: s.siguientes
      nextClase := s.nextClase + 1 }
  else s.modClase t fun cl ↦ ConfClass.con conClass ping confreq maxli sendq cl.links

/-- `check_class`. The first class is never marked. -/
def checkClass (s : Estado) : Estado :=
  let marcada := fun c ↦ (s.clase c).any (·.isMarkedDelete)
  { s with
    clase := fun c ↦ if c ∈ s.siguientes ∧ marcada c ∧ (s.clase c).any (·.links = 0#32) then none
      else s.clase c
    siguientes := s.siguientes.filter fun c ↦ !marcada c }

end Estado

/-! ## Attachments -/

inductive AuthorizationCheckResult where
  | ok
  | noAuthorization
  | tooManyInClass
  | alreadyAuthorized
deriving DecidableEq

namespace Estado

/-- `attach_conf`. There is no entry in freed memory to attach. -/
def attachConf (cptr aconf : Nat) (s : Estado) : AuthorizationCheckResult × Estado :=
  (s.item aconf).elim (.noAuthorization, s) fun a ↦
    if (cptr, aconf) ∈ s.confs then (.alreadyAuthorized, s)
    else if a.illegal then (.noAuthorization, s)
    else if a.tipo.limitado ∧ s.lleno a then (.tooManyInClass, s)
    else
      let s := { s with confs := (cptr, aconf) :: s.confs }
      let s := s.modItem aconf fun a ↦ { a with clients := a.clients + 1#32 }
      (.ok, if a.tipo.clientMask then s.modConfLinks a (· + 1#32) else s)

/-- What `detach_conf` does to the entry. -/
def suelta (aconf : Nat) (s : Estado) : Estado :=
  (s.item aconf).elim s fun a ↦
    let s := if a.tipo.clientMask then
        s.modConfLinks a fun links ↦ if links = 0#32 then links else links - 1#32
      else s
    if a.clients - 1#32 = 0#32 ∧ a.illegal then s.freeConf aconf
    else s.modItem aconf fun a ↦ { a with clients := a.clients - 1#32 }

/-- `detach_conf`. -/
def detachConf (cptr aconf : Nat) (s : Estado) : Estado :=
  if (cptr, aconf) ∈ s.confs then
    let s := s.suelta aconf
    { s with confs := s.confs.erase (cptr, aconf) }
  else s

/-! ## Counters -/

@[simp] theorem modItem_item (e d : Nat) (f : ConfItem → ConfItem) (s : Estado) :
    (s.modItem e f).item d = if d = e then (s.item e).map f else s.item d := by
  simp [modItem, Function.update_apply]

@[simp] theorem modItem_nextItem (e : Nat) (f : ConfItem → ConfItem) (s : Estado) :
    (s.modItem e f).nextItem = s.nextItem := rfl

@[simp] theorem modClase_clase (c d : Nat) (f : ConfClass → ConfClass) (s : Estado) :
    (s.modClase c f).clase d = if d = c then (s.clase c).map f else s.clase d := by
  simp [modClase, Function.update_apply]

/-- Only the class of the entry is written. -/
theorem modConfLinks_eq (a : ConfItem) (f : BitVec 32 → BitVec 32) (s : Estado) :
    s.modConfLinks a f = { s with
      clase := fun c ↦
        if a.confClass = some c then (s.clase c).map fun cl ↦ { cl with links := f cl.links }
        else s.clase c } := by
  unfold modConfLinks
  cases a.confClass with
  | none => simp
  | some c =>
      have hclase : (s.modClase c fun cl ↦ { cl with links := f cl.links }).clase =
          fun d ↦ if some c = some d then (s.clase d).map fun cl ↦ { cl with links := f cl.links }
            else s.clase d := by
        funext d
        by_cases hd : d = c
        · simp [hd]
        · simp [hd, Ne.symm hd]
      rw [Option.elim_some, ← hclase]
      rfl

/-- The attachments of an entry count in the class. -/
def pesa (s : Estado) (c e : Nat) : Bool :=
  (s.item e).any fun a ↦ a.tipo.clientMask ∧ a.confClass = some c

/-- The attachments of an entry count in some class. -/
def enMascara (s : Estado) (e : Nat) : Bool :=
  (s.item e).any (·.tipo.clientMask)

theorem pesa_iff {s : Estado} {c e : Nat} : s.pesa c e = true ↔
    ∃ a, s.item e = some a ∧ a.tipo.clientMask = true ∧ a.confClass = some c := by
  simp [pesa, Option.any_eq_true]

theorem enMascara_iff {s : Estado} {e : Nat} : s.enMascara e = true ↔
    ∃ a, s.item e = some a ∧ a.tipo.clientMask = true := by
  simp [enMascara, Option.any_eq_true]

/-- The counters are the numbers of attachments, which fit in them. -/
structure Cuentas (s : Estado) : Prop where
  nodup : s.confs.Nodup
  locales : ∀ p ∈ s.confs, p.1 < MAXCONNECTIONS
  clientes : ∀ e a, s.item e = some a → a.clients = BitVec.ofNat 32 (holders s.confs e)
  enlaces : ∀ c cl, s.clase c = some cl → cl.links = BitVec.ofNat 32 (weight (s.pesa c) s.confs)
  pocos : weight s.enMascara s.confs < 2 ^ 32

/-- A number that fits in a word is zero when the word is. -/
theorem ofNat_eq_zero {n : Nat} (hn : n < 2 ^ 32) : BitVec.ofNat 32 n = 0#32 ↔ n = 0 := by
  rw [← BitVec.toNat_inj, BitVec.toNat_ofNat, BitVec.toNat_ofNat, Nat.mod_eq_of_lt hn]

namespace Cuentas

variable {s : Estado} {a : ConfItem} {cl : ConfClass} {c e k : Nat}

theorem holders_lt (h : Cuentas s) (e : Nat) : holders s.confs e < 2 ^ 32 :=
  (holders_le h.nodup h.locales).trans_lt (by decide)

theorem weight_lt (h : Cuentas s) (c : Nat) : weight (s.pesa c) s.confs < 2 ^ 32 := by
  refine (weight_mono fun p _ hp ↦ ?_).trans_lt h.pocos
  obtain ⟨a, ha, hmask, -⟩ := pesa_iff.mp hp
  exact enMascara_iff.mpr ⟨a, ha, hmask⟩

/-- The counter of an entry is zero when nobody has it. -/
theorem clients_eq_zero (h : Cuentas s) (ha : s.item e = some a) :
    a.clients = 0#32 ↔ ∀ k, (k, e) ∉ s.confs := by
  rw [h.clientes e a ha, ofNat_eq_zero (h.holders_lt e), ← not_iff_not, ← ne_eq,
    ← Nat.pos_iff_ne_zero, holders_pos, not_forall_not]

/-- The counter of a class is zero when nobody has an entry of it. -/
theorem links_eq_zero (h : Cuentas s) (hcl : s.clase c = some cl) :
    cl.links = 0#32 ↔ ∀ p ∈ s.confs, s.pesa c p.2 = false := by
  rw [h.enlaces c cl hcl, ofNat_eq_zero (h.weight_lt c), ← not_iff_not, ← ne_eq,
    ← Nat.pos_iff_ne_zero, weight_pos]
  simp

theorem links_toNat (h : Cuentas s) (hcl : s.clase c = some cl) :
    cl.links.toNat = weight (s.pesa c) s.confs := by
  rw [h.enlaces c cl hcl, BitVec.toNat_ofNat, Nat.mod_eq_of_lt (h.weight_lt c)]

end Cuentas

/-! ## Attaching and detaching -/

/-- What `attach_conf` leaves when it attaches. -/
def atado (cptr aconf : Nat) (a : ConfItem) (s : Estado) : Estado :=
  { s with
    confs := (cptr, aconf) :: s.confs
    item := fun d ↦ if d = aconf then some { a with clients := a.clients + 1#32 } else s.item d
    clase := fun c ↦
      if a.tipo.clientMask ∧ a.confClass = some c then
        (s.clase c).map fun cl ↦ { cl with links := cl.links + 1#32 }
      else s.clase c }

/-- `attach_conf` does nothing, or attaches an entry that is not illegal. -/
theorem attachConf_cases (cptr aconf : Nat) (s : Estado) :
    (s.attachConf cptr aconf).2 = s ∨ ∃ a, s.item aconf = some a ∧ (cptr, aconf) ∉ s.confs ∧
      a.illegal = false ∧ (s.attachConf cptr aconf).2 = s.atado cptr aconf a := by
  unfold attachConf
  cases ha : s.item aconf with
  | none => exact .inl rfl
  | some a =>
      rw [Option.elim_some]
      by_cases hmem : (cptr, aconf) ∈ s.confs
      · exact .inl (by rw [if_pos hmem])
      by_cases hill : a.illegal = true
      · exact .inl (by rw [if_neg hmem, if_pos hill])
      by_cases hlim : a.tipo.limitado ∧ s.lleno a
      · exact .inl (by rw [if_neg hmem, if_neg hill, if_pos hlim])
      refine .inr ⟨a, rfl, hmem, by simpa using hill, ?_⟩
      rw [if_neg hmem, if_neg hill, if_neg hlim]
      have hitem : (fun d ↦ if d = aconf then some { a with clients := a.clients + 1#32 }
          else s.item d) = Function.update s.item aconf
            ((s.item aconf).map fun a ↦ { a with clients := a.clients + 1#32 }) := by
        funext d
        rw [Function.update_apply, ha]
        rfl
      cases hmask : a.tipo.clientMask with
      | false => simp [atado, hmask, modItem, hitem]
      | true => simp [atado, hmask, modItem, hitem, modConfLinks_eq]

/-- What `detach_conf` leaves of an entry that is attached. -/
def suelto (cptr aconf : Nat) (a : ConfItem) (s : Estado) : Estado :=
  { s with
    confs := s.confs.erase (cptr, aconf)
    item := fun d ↦
      if d = aconf then
        if a.clients - 1#32 = 0#32 ∧ a.illegal then none
        else some { a with clients := a.clients - 1#32 }
      else s.item d
    clase := fun c ↦
      if a.tipo.clientMask ∧ a.confClass = some c then
        (s.clase c).map fun cl ↦
          { cl with links := if cl.links = 0#32 then cl.links else cl.links - 1#32 }
      else s.clase c }

theorem detachConf_eq {cptr aconf : Nat} {s : Estado} {a : ConfItem} (ha : s.item aconf = some a)
    (hmem : (cptr, aconf) ∈ s.confs) : s.detachConf cptr aconf = s.suelto cptr aconf a := by
  unfold detachConf suelta
  rw [if_pos hmem, ha, Option.elim_some]
  by_cases hfree : a.clients - 1#32 = 0#32 ∧ a.illegal
  · have hitem : (fun d ↦ if d = aconf then
        if a.clients - 1#32 = 0#32 ∧ a.illegal then none
        else some { a with clients := a.clients - 1#32 }
      else s.item d) = Function.update s.item aconf none := by
      funext d
      rw [Function.update_apply, if_pos hfree]
    rw [if_pos hfree, suelto, hitem]
    cases hmask : a.tipo.clientMask with
    | false => simp [freeConf]
    | true => simp [freeConf, modConfLinks_eq]
  · have hitem : (fun d ↦ if d = aconf then
        if a.clients - 1#32 = 0#32 ∧ a.illegal then none
        else some { a with clients := a.clients - 1#32 }
      else s.item d) = Function.update s.item aconf
        ((s.item aconf).map fun a ↦ { a with clients := a.clients - 1#32 }) := by
      funext d
      rw [Function.update_apply, if_neg hfree, ha]
      rfl
    rw [if_neg hfree, suelto, hitem]
    cases hmask : a.tipo.clientMask with
    | false => simp [modItem]
    | true => simp [modItem, modConfLinks_eq]

namespace Cuentas

variable {s : Estado} {a : ConfItem} {c d e k : Nat}

theorem atado (h : Cuentas s) (ha : s.item e = some a) (hmem : (k, e) ∉ s.confs)
    (hk : k < MAXCONNECTIONS)
    (hpocos : a.tipo.clientMask = true → weight s.enMascara s.confs + 1 < 2 ^ 32) :
    Cuentas (s.atado k e a) := by
  have hpesa : ∀ c, (s.atado k e a).pesa c = s.pesa c := by
    intro c
    funext d
    by_cases hd : d = e <;> simp [pesa, Estado.atado, hd, ha]
  have hmasc : (s.atado k e a).enMascara = s.enMascara := by
    funext d
    by_cases hd : d = e <;> simp [enMascara, Estado.atado, hd, ha]
  have hconfs : (s.atado k e a).confs = (k, e) :: s.confs := rfl
  refine ⟨List.nodup_cons.mpr ⟨hmem, h.nodup⟩, ?_, ?_, ?_, ?_⟩
  · intro p hp
    rcases List.mem_cons.mp hp with rfl | hp
    · exact hk
    · exact h.locales p hp
  · intro d b hb
    rw [hconfs, holders_cons]
    by_cases hd : d = e
    · subst hd
      simp only [Estado.atado, if_true, Option.some.injEq] at hb
      rw [if_pos rfl, BitVec.ofNat_add, ← h.clientes d a ha, ← hb]
    · simp only [Estado.atado, if_neg hd] at hb
      rw [if_neg (Ne.symm hd), h.clientes d b hb, Nat.add_zero]
  · intro c cl hcl
    rw [hpesa, hconfs, weight_cons]
    by_cases hc : a.tipo.clientMask = true ∧ a.confClass = some c
    · simp only [Estado.atado, if_pos hc, Option.map_eq_some_iff] at hcl
      obtain ⟨cl₀, hcl₀, rfl⟩ := hcl
      rw [if_pos (pesa_iff.mpr ⟨a, ha, hc⟩), BitVec.ofNat_add, ← h.enlaces c cl₀ hcl₀]
    · simp only [Estado.atado, if_neg hc] at hcl
      have hno : ¬s.pesa c e = true := by
        rw [pesa_iff]
        rintro ⟨b, hb, hpesa⟩
        exact hc (Option.some.inj (ha.symm.trans hb) ▸ hpesa)
      rw [if_neg hno, h.enlaces c cl hcl, Nat.add_zero]
  · rw [hmasc, hconfs, weight_cons]
    by_cases hmask : s.enMascara e = true
    · obtain ⟨b, hb, htipo⟩ := enMascara_iff.mp hmask
      rw [if_pos hmask]
      exact hpocos (Option.some.inj (ha.symm.trans hb) ▸ htipo)
    · rw [if_neg hmask]
      exact h.pocos

/-- The entry that is let go has one attachment less. -/
theorem clients_sub_one (h : Cuentas s) (ha : s.item e = some a) (hmem : (k, e) ∈ s.confs) :
    a.clients - 1#32 = BitVec.ofNat 32 (holders (s.confs.erase (k, e)) e) := by
  rw [h.clientes e a ha, holders_erase hmem, if_pos rfl, BitVec.ofNat_add, BitVec.add_sub_cancel]

/-- An entry is freed when nobody has it. -/
theorem no_erase (h : Cuentas s) (ha : s.item e = some a) (hmem : (k, e) ∈ s.confs)
    (hcero : a.clients - 1#32 = 0#32) {p : Nat × Nat} (hp : p ∈ s.confs.erase (k, e)) :
    p.2 ≠ e := by
  rintro rfl
  have hle : holders (s.confs.erase (k, p.2)) p.2 ≤ holders s.confs p.2 :=
    (holders_erase hmem).symm ▸ Nat.le_add_right _ _
  rw [h.clients_sub_one ha hmem, ofNat_eq_zero (hle.trans_lt (h.holders_lt _))] at hcero
  have hpos := holders_pos.mpr ⟨p.1, hp⟩
  omega

theorem suelto (h : Cuentas s) (ha : s.item e = some a) (hmem : (k, e) ∈ s.confs) :
    Cuentas (s.suelto k e a) := by
  have hconfs : (s.suelto k e a).confs = s.confs.erase (k, e) := rfl
  -- the entry may be freed, but then nobody has it
  have hitem : ∀ p ∈ s.confs.erase (k, e), ((s.suelto k e a).item p.2).map (·.tipo) =
      (s.item p.2).map (·.tipo) ∧ ((s.suelto k e a).item p.2).map (·.confClass) =
      (s.item p.2).map (·.confClass) := by
    intro p hp
    by_cases hd : p.2 = e
    · have hno : ¬(a.clients - 1#32 = 0#32 ∧ a.illegal = true) :=
        fun hcero ↦ h.no_erase ha hmem hcero.1 hp hd
      simp [Estado.suelto, hd, hno, ha]
    · simp [Estado.suelto, hd]
  have hpesa : ∀ c, ∀ p ∈ s.confs.erase (k, e), (s.suelto k e a).pesa c p.2 = s.pesa c p.2 := by
    intro c p hp
    obtain ⟨htipo, hclass⟩ := hitem p hp
    rw [pesa, pesa]
    cases h₁ : (s.suelto k e a).item p.2 <;> cases h₂ : s.item p.2 <;> simp_all
  have hmasc : ∀ p ∈ s.confs.erase (k, e), (s.suelto k e a).enMascara p.2 = s.enMascara p.2 := by
    intro p hp
    obtain ⟨htipo, -⟩ := hitem p hp
    rw [enMascara, enMascara]
    cases h₁ : (s.suelto k e a).item p.2 <;> cases h₂ : s.item p.2 <;> simp_all
  refine ⟨h.nodup.erase _, fun p hp ↦ h.locales p (List.mem_of_mem_erase hp), ?_, ?_, ?_⟩
  · intro d b hb
    have hd := holders_erase (e := d) hmem
    rw [hconfs]
    by_cases hde : d = e
    · subst hde
      simp only [Estado.suelto, if_true] at hb
      split at hb
      · cases hb
      · rw [← h.clients_sub_one ha hmem, ← Option.some.inj hb]
    · simp only [Estado.suelto, if_neg hde] at hb
      rw [if_neg (Ne.symm hde), Nat.add_zero] at hd
      rw [h.clientes d b hb, hd]
  · intro c cl hcl
    rw [hconfs, weight_congr (hpesa c)]
    have hw := weight_erase (w := s.pesa c) hmem
    by_cases hc : a.tipo.clientMask = true ∧ a.confClass = some c
    · simp only [Estado.suelto, if_pos hc, Option.map_eq_some_iff] at hcl
      obtain ⟨cl₀, hcl₀, rfl⟩ := hcl
      have hpes : s.pesa c e = true := pesa_iff.mpr ⟨a, ha, hc⟩
      have hne : cl₀.links ≠ 0#32 := by
        rw [Ne, h.links_eq_zero hcl₀]
        intro hno
        exact absurd (hno _ hmem) (by simp [hpes])
      rw [if_pos hpes] at hw
      rw [if_neg hne, h.enlaces c cl₀ hcl₀, hw, BitVec.ofNat_add, BitVec.add_sub_cancel]
    · simp only [Estado.suelto, if_neg hc] at hcl
      have hno : ¬s.pesa c e = true := by
        rw [pesa_iff]
        rintro ⟨b, hb, hpesa⟩
        exact hc (Option.some.inj (ha.symm.trans hb) ▸ hpesa)
      rw [if_neg hno, Nat.add_zero] at hw
      rw [h.enlaces c cl hcl, hw]
  · rw [hconfs, weight_congr hmasc]
    have hw := weight_erase (w := s.enMascara) hmem
    have hlt := h.pocos
    omega

end Cuentas

end Estado

end Ircd.Conf
