import Ircd.Lib.Cells
import Ircd.Lib.CString

/-!
# Dynamic buffers

`ircd/dbuf.c`. The bytes of a buffer are in a chain of blocks, and the blocks that are not in use are
in a free list that all buffers share. A block is named by the value of `DBufAllocCount` at its
allocation, and a pointer into its data is an offset; the buffers are named by `β`. The loops have
fuel, and the result is `none` when it runs out or when a null pointer is followed.
-/

namespace Ircd.Dbuf

open CString

/-- The bytes of a block. -/
def DBUF_SIZE : Nat := 2048

/-- `struct DBuf`. -/
structure DBuf where
  length : Nat
  head : Option Nat
  tail : Option Nat

/-- The fields of the blocks (`struct DBufBuffer`), the globals of `dbuf.c` and the buffers. -/
structure Memoria (β : Type) where
  next : Nat → Option Nat
  start : Nat → Nat
  fin : Nat → Nat
  data : Nat → Nat → Char
  dbufFreeList : Option Nat
  DBufAllocCount : Nat
  DBufUsedCount : Int
  dbuf : β → DBuf

/-- What the system gives to `RunMalloc`, and the configured size of all blocks. -/
structure Sistema where
  BUFFERPOOL : Nat
  malloc : Nat → Bool

/-- `isEol`. -/
def isEol (c : Char) : Bool :=
  c = '\n' ∨ c = '\r'

section

variable {β : Type} [DecidableEq β]

/-- A write to the header of a buffer. -/
def Memoria.conDBuf (m : Memoria β) (b : β) (d : DBuf) : Memoria β :=
  { m with dbuf := Function.update m.dbuf b d }

omit [DecidableEq β] in
/-- `memcpy (db->end, buf, chunk)` and `db->end += chunk`. -/
def Memoria.copia (m : Memoria β) (db : Nat) (bytes : List Char) : Memoria β :=
  { m with
    data := Function.update m.data db fun i ↦
      if m.fin db ≤ i ∧ i < m.fin db + bytes.length then bytes.getD (i - m.fin db) nul
      else m.data db i
    fin := Function.update m.fin db (m.fin db + bytes.length) }

omit [DecidableEq β] in
/-- `dbuf_alloc`. -/
def dbufAlloc (s : Sistema) (m : Memoria β) : Option Nat × Memoria β :=
  match m.dbufFreeList with
  | some db => (some db, { m with
      DBufUsedCount := m.DBufUsedCount + 1
      dbufFreeList := m.next db })
  | none =>
      if m.DBufAllocCount * DBUF_SIZE < s.BUFFERPOOL ∧ s.malloc m.DBufAllocCount then
        (some m.DBufAllocCount, { m with
          DBufAllocCount := m.DBufAllocCount + 1
          DBufUsedCount := m.DBufUsedCount + 1 })
      else (none, m)

omit [DecidableEq β] in
/-- `dbuf_free`. -/
def dbufFree (db : Nat) (m : Memoria β) : Memoria β :=
  { m with
    DBufUsedCount := m.DBufUsedCount - 1
    next := Function.update m.next db m.dbufFreeList
    dbufFreeList := some db }

omit [DecidableEq β] in
/-- The loop of `dbuf_malloc_error`. -/
def liberaDesde : Nat → Option Nat → Memoria β → Option (Memoria β)
  | _, none, m => some m
  | 0, some _, _ => none
  | fuel + 1, some db, m => liberaDesde fuel (m.next db) (dbufFree db m)

/-- `dbuf_malloc_error`. -/
def dbufMallocError (b : β) (m : Memoria β) : Option (Int × Memoria β) :=
  (liberaDesde m.DBufAllocCount (m.dbuf b).head m).map fun m ↦ (0, m.conDBuf b ⟨0, none, none⟩)

/-- The pointer variable `h` of `dbuf_put2`. -/
inductive Enganche where
  | head
  | tail
  | next (db : Nat)

/-- `*h`. -/
def Enganche.lee (h : Enganche) (b : β) (m : Memoria β) : Option Nat :=
  match h with
  | .head => (m.dbuf b).head
  | .tail => (m.dbuf b).tail
  | .next db => m.next db

/-- `*h = db`. -/
def Enganche.escribe (h : Enganche) (b : β) (db : Nat) (m : Memoria β) : Memoria β :=
  match h with
  | .head => m.conDBuf b { m.dbuf b with head := some db }
  | .tail => m.conDBuf b { m.dbuf b with tail := some db }
  | .next c => { m with next := Function.update m.next c (some db) }

/-- The new block is put behind the others. -/
def engancha (h : Enganche) (b : β) (db : Nat) (m : Memoria β) : Memoria β :=
  let m := m.conDBuf b { m.dbuf b with tail := some db }
  let m := h.escribe b db m
  { m with
    next := Function.update m.next db none
    start := Function.update m.start db 0
    fin := Function.update m.fin db 0 }

/-- The loop of `dbuf_put2`. -/
def putDesde (s : Sistema) (b : β) :
    Nat → Enganche → List Char → Memoria β → Option (Int × Memoria β)
  | _, _, [], m => some (1, m)
  | 0, _, _ :: _, _ => none
  | fuel + 1, h, c :: buf, m =>
      match h.lee b m with
      | some db =>
          let chunk := (c :: buf).take (DBUF_SIZE - m.fin db)
          putDesde s b fuel (.next db) ((c :: buf).drop chunk.length) (m.copia db chunk)
      | none =>
          match dbufAlloc s m with
          | (none, m) => dbufMallocError b m
          | (some db, m) =>
              let m := engancha h b db m
              let chunk := (c :: buf).take (DBUF_SIZE - m.fin db)
              putDesde s b fuel (.next db) ((c :: buf).drop chunk.length) (m.copia db chunk)

/-- `dbuf_put2`. -/
def dbufPut2 (s : Sistema) (b : β) (buf : List Char) (m : Memoria β) : Option (Int × Memoria β) :=
  let h := if (m.dbuf b).length = 0 then Enganche.head else Enganche.tail
  let m := m.conDBuf b { m.dbuf b with length := (m.dbuf b).length + buf.length }
  putDesde s b (buf.length + 1) h buf m

omit [DecidableEq β] in
/-- `dbuf_map`: the block and the offset of the first byte, and the number of bytes there. -/
def dbufMap (b : β) (m : Memoria β) : Option (Option (Nat × Nat) × Nat) :=
  if (m.dbuf b).length = 0 then some (none, 0)
  else (m.dbuf b).head.map fun db ↦ (some (db, m.start db), m.fin db - m.start db)

/-- `dyn->length -= chunk; db->start += chunk`. -/
def consume (b : β) (db chunk : Nat) (m : Memoria β) : Memoria β :=
  let m := m.conDBuf b { m.dbuf b with length := (m.dbuf b).length - chunk }
  { m with start := Function.update m.start db (m.start db + chunk) }

/-- `dyn->head = db->next; dbuf_free (db)`. -/
def suelta (b : β) (db : Nat) (m : Memoria β) : Memoria β :=
  dbufFree db (m.conDBuf b { m.dbuf b with head := m.next db })

/-- The loop of `dbuf_delete`. -/
def deleteDesde (b : β) : Nat → Nat → Memoria β → Option (Memoria β)
  | _, 0, m => some m
  | 0, _ + 1, _ => none
  | fuel + 1, length + 1, m =>
      match (m.dbuf b).head with
      | none => some m
      | some db =>
          let chunk := min (m.fin db - m.start db) (length + 1)
          let m := consume b db chunk m
          deleteDesde b fuel (length + 1 - chunk)
            (if m.start db = m.fin db then suelta b db m else m)

/-- `dbuf_delete`. -/
def dbufDelete (b : β) (length : Nat) (m : Memoria β) : Option (Memoria β) :=
  let length := min length (m.dbuf b).length
  (deleteDesde b (length + 1) length m).map fun m ↦
    match (m.dbuf b).head with
    | none => m.conDBuf b ⟨0, none, none⟩
    | some _ => m

omit [DecidableEq β] in
/-- The bytes that a pointer leads to. -/
def Memoria.lee (m : Memoria β) (p : Nat × Nat) (n : Nat) : List Char :=
  (List.range' p.2 n).map (m.data p.1)

/-- The loop of `dbuf_get`; its value is the number of bytes of the list. -/
def getDesde (b : β) : Nat → Nat → Memoria β → Option (List Char × Memoria β)
  | _, 0, m => some ([], m)
  | 0, _ + 1, _ => none
  | fuel + 1, length + 1, m => do
      let (p, chunk) ← dbufMap b m
      match p with
      | none => some ([], m)
      | some p =>
          let chunk := min chunk (length + 1)
          let m' ← dbufDelete b chunk m
          let r ← getDesde b fuel (length + 1 - chunk) m'
          some (m.lee p chunk ++ r.1, r.2)

/-- `dbuf_get`. -/
def dbufGet (b : β) (length : Nat) (m : Memoria β) : Option (List Char × Memoria β) :=
  getDesde b (length + 1) length m

/-- The loop of `dbuf_flush` from a block on. -/
def flushDesde (b : β) : Nat → Nat → Memoria β → Option (Memoria β)
  | 0, _, _ => none
  | fuel + 1, db, m =>
      if !isEol (m.data db (m.start db)) then some m
      else
        let m := { m with start := Function.update m.start db (m.start db + 1) }
        if m.start db = m.fin db then
          let m := suelta b db m
          match (m.dbuf b).head with
          | none => some (m.conDBuf b ⟨0, none, none⟩)
          | some db =>
              flushDesde b fuel db
                (m.conDBuf b { m.dbuf b with length := (m.dbuf b).length - 1 })
        else
          flushDesde b fuel db (m.conDBuf b { m.dbuf b with length := (m.dbuf b).length - 1 })

/-- `dbuf_flush`, with the length that it returns. -/
def dbufFlush (b : β) (m : Memoria β) : Option (Nat × Memoria β) :=
  match (m.dbuf b).head with
  | none => some (0, m)
  | some db =>
      (flushDesde b ((m.dbuf b).length + 1) db m).map fun m ↦ ((m.dbuf b).length, m)

omit [DecidableEq β] in
/-- The search of `dbuf_getmsg` for the end of a line from a block on: the bytes that are copied, and
whether the end was found. -/
def buscaEol : Nat → Option Nat → Nat → Memoria β → Option (List Char × Bool)
  | _, none, _, _ => some ([], false)
  | _, some _, 0, _ => some ([], false)
  | 0, some _, _ + 1, _ => none
  | fuel + 1, some db, length + 1, m =>
      let bytes := m.lee (db, m.start db) (min (m.fin db - m.start db) (length + 1))
      let linea := bytes.takeWhile (!isEol ·)
      if linea.length < bytes.length then some (linea, true)
      else (buscaEol fuel (m.next db) (length + 1 - linea.length) m).map fun r ↦
        (linea ++ r.1, r.2)

/-- `dbuf_getmsg`: the line that is found, without its end. -/
def dbufGetmsg (b : β) (length : Nat) (m : Memoria β) :
    Option (Option (List Char) × Memoria β) := do
  let (n, m) ← dbufFlush b m
  if n = 0 then some (none, m)
  else
    let r ← buscaEol (m.DBufAllocCount + 1) (m.dbuf b).head (min length (m.dbuf b).length) m
    if r.2 then
      let m ← dbufDelete b r.1.length m
      let (_, m) ← dbufFlush b m
      some (some r.1, m)
    else some (none, m)

end

end Ircd.Dbuf
