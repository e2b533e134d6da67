import Ircd.User.Client

/-!
# The operator table

`get_status` and `HasPriv` of `ircd/s_user.c`. The status mixes bits of `flags` and of `hmodes`.
`Registros.concede` is what a record of the table grants, letter by letter, and the main theorems
compare the two: `has_getStatus` for the letters that the status tells right, and
`has_getStatus_helpop` for the bit that the letters `h` and `O` share.
-/

namespace Ircd.User

open CString Flags

/-- The records of the tables that are read: operators and virtual hosts, by name. `modes` is the
text of the field `modes` of a record in the JSON format, `none` where the record does not parse and
`some none` where it has no such field. -/
structure Registros where
  operdb : CStr → Option CStr
  ipvirtualdb : CStr → Option CStr
  modes : CStr → Option (Option CStr)

/-! ## `get_status` -/

/-- What a letter of the field `modes` sets. -/
def bitStatus (c : Char) : BitVec 32 :=
  match c with
  | 'a' => HMODE_ADMIN
  | 'C' => HMODE_CODER
  | 'h' => HMODE_HELPOP
  | 'o' => FLAGS_OPER
  | 'O' => FLAGS_LOCOP
  | 'B' => HMODE_SERVICESBOT
  | _ => 0#32

/-- The loop over the field `modes`. -/
def leeStatus (add : Bool) (p : CStr) (status : BitVec 32) : BitVec 32 :=
  match p with
  | [] => status
  | c :: p =>
      if c = ' ' ∨ c = '\t' then status
      else if c = '+' then leeStatus true p status
      else if c = '-' then leeStatus false p status
      else leeStatus add p (if add then status ||| bitStatus c else status)

/-- The record of one letter. Where the source lacks a `break`, the next case is added. -/
def statusFlags (valor : CStr) : BitVec 32 :=
  match valor.head? with
  | some 'a' => HMODE_ADMIN ||| FLAGS_OPER
  | some 'c' => HMODE_CODER ||| FLAGS_OPER
  | some 'b' => HMODE_SERVICESBOT ||| FLAGS_OPER
  | some 'h' => FLAGS_OPER ||| FLAGS_OPER ||| HMODE_HELPOP
  | some 'o' => FLAGS_OPER ||| HMODE_HELPOP
  | some 'p' => HMODE_HELPOP
  | _ => 0#32

/-- `get_status`. -/
def getStatus (r : Registros) (sptr : Cliente) : BitVec 32 :=
  match r.operdb sptr.name with
  | none => 0#32
  | some valor =>
      if valor.head? = some '{' then
        match r.modes valor with
        | some (some modes) => leeStatus true modes 0#32
        | _ => 0#32
      else statusFlags valor

/-- `HasPriv`. -/
def Cliente.hasPriv (sptr : Cliente) (priv : BitVec 64) : BitVec 64 :=
  if !sptr.myUser ∨ !sptr.isAnOper then 0#64 else sptr.privs &&& priv

/-! ## What a record grants -/

/-- The letters of a field `modes` that stand under a plus sign. -/
def modosConcedidos (add : Bool) (p : CStr) : List Char :=
  match p with
  | [] => []
  | c :: p =>
      if c = ' ' ∨ c = '\t' then []
      else if c = '+' then modosConcedidos true p
      else if c = '-' then modosConcedidos false p
      else if add then c :: modosConcedidos add p
      else modosConcedidos add p

/-- The modes of a role. -/
def modosRol (rol : Option Char) : List Char :=
  match rol with
  | some 'a' => ['a', 'o']
  | some 'c' => ['C', 'o']
  | some 'b' => ['B', 'o']
  | some 'h' => ['o', 'h']
  | some 'o' => ['o', 'h']
  | some 'p' => ['h']
  | _ => []

/-- The modes that a record grants. -/
def Registros.modosValor (r : Registros) (valor : CStr) : List Char :=
  if valor.head? = some '{' then ((r.modes valor).join.map (modosConcedidos true)).getD []
  else modosRol valor.head?

/-- The modes that the table grants to a name. -/
def Registros.concede (r : Registros) (name : CStr) : List Char :=
  ((r.operdb name).map r.modosValor).getD []

/-! ## The status and what is granted -/

/-- The status has the bits of the letters that are granted. -/
theorem has_leeStatus {add : Bool} {p : CStr} {status f : BitVec 32} :
    has (leeStatus add p status) f =
      (has status f || (modosConcedidos add p).any fun c ↦ has (bitStatus c) f) := by
  induction p generalizing add status with
  | nil => simp [leeStatus, modosConcedidos]
  | cons c p ih =>
      rw [leeStatus, modosConcedidos]
      split_ifs with hblank hplus hminus hadd
      · simp
      · exact ih
      · exact ih
      · rw [ih, has_or, List.any_cons, Bool.or_assoc]
      · exact ih

/-- A bit of the status that is the bit of one letter. -/
theorem has_getStatus_of {r : Registros} {sptr : Cliente} {f : BitVec 32} {quien : Char → Bool}
    (hletra : ∀ c, has (bitStatus c) f = quien c)
    (hrol : ∀ valor : CStr, has (statusFlags valor) f = (modosRol valor.head?).any quien) :
    has (getStatus r sptr) f = (r.concede sptr.name).any quien := by
  rw [getStatus, Registros.concede]
  cases r.operdb sptr.name with
  | none => simp
  | some valor =>
      simp only [Option.map_some, Option.getD_some, Registros.modosValor]
      split_ifs
      · rcases r.modes valor with _ | _ | modes
        · simp
        · simp
        · simp only [has_leeStatus, has_zero, Bool.false_or, hletra]
          rfl
      · exact hrol valor

/-- The letters and the bits of the status that tell the same. -/
def letrasStatus : List (BitVec 32 × Char) :=
  [(FLAGS_OPER, 'o'), (HMODE_ADMIN, 'a'), (HMODE_CODER, 'C'), (HMODE_SERVICESBOT, 'B')]

/-- The bit of a letter. -/
theorem has_bitStatus {a : BitVec 32 × Char} (ha : a ∈ letrasStatus) (c : Char) :
    has (bitStatus c) a.1 = decide (c = a.2) := by
  simp only [letrasStatus, List.mem_cons, List.not_mem_nil, or_false] at ha
  unfold bitStatus
  rcases ha with rfl | rfl | rfl | rfl <;> split <;> first | rfl | simp_all

/-- The bits of a role. -/
theorem has_statusFlags {a : BitVec 32 × Char} (ha : a ∈ letrasStatus) (valor : CStr) :
    has (statusFlags valor) a.1 = (modosRol valor.head?).any fun c ↦ decide (c = a.2) := by
  simp only [letrasStatus, List.mem_cons, List.not_mem_nil, or_false] at ha
  unfold statusFlags
  generalize valor.head? = rol
  rcases ha with rfl | rfl | rfl | rfl <;> split <;> first | rfl | simp_all [modosRol]

/-- The status tells whether a letter is granted. -/
theorem has_getStatus (r : Registros) (sptr : Cliente) {a : BitVec 32 × Char}
    (ha : a ∈ letrasStatus) :
    has (getStatus r sptr) a.1 = true ↔ a.2 ∈ r.concede sptr.name := by
  rw [has_getStatus_of (has_bitStatus ha) (has_statusFlags ha), List.any_eq_true]
  simp

/-- The bit of the letter `h` is also the bit of the letter `O`. -/
theorem has_getStatus_helpop (r : Registros) (sptr : Cliente) :
    has (getStatus r sptr) HMODE_HELPOP = true ↔
      'h' ∈ r.concede sptr.name ∨ 'O' ∈ r.concede sptr.name := by
  have hletra : ∀ c, has (bitStatus c) HMODE_HELPOP = decide (c = 'h' ∨ c = 'O') := by
    intro c
    unfold bitStatus
    split <;> first | rfl | simp_all
  have hrol : ∀ valor : CStr, has (statusFlags valor) HMODE_HELPOP =
      (modosRol valor.head?).any fun c ↦ decide (c = 'h' ∨ c = 'O') := by
    intro valor
    unfold statusFlags
    generalize valor.head? = rol
    split <;> first | rfl | simp_all [modosRol]
  rw [has_getStatus_of hletra hrol, List.any_eq_true]
  constructor
  · rintro ⟨c, hc, heq⟩
    rcases of_decide_eq_true heq with rfl | rfl
    · exact .inl hc
    · exact .inr hc
  · rintro (hc | hc)
    · exact ⟨_, hc, rfl⟩
    · exact ⟨_, hc, rfl⟩

end Ircd.User
