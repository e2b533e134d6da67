import Ircd.Bdd.Hash
import Ircd.Bdd.Registros
import Ircd.Lib.Memory

/-!
# The persistent cache

Before the server ends, `dbPersistentCommit` writes the tables of the database into the mapped cache
file, behind a header and the file of hashes, and signs them with TEA. At the next start `mmapCache`
checks the header, the file of hashes, the signature and the state of the table files, and loads the
tables back. The writer goes over the header with a pointer to `uintptr_t` and the reader with one to
`unsigned int`.
-/

namespace Ircd.Bdd.Cache

open Memory

/-- The number of tables. -/
@[irreducible] def DB_MAX_TABLA : ℕ := 256

/-- The length of the file of hashes: a line of 15 bytes for each table from `a` to `z`. -/
def HASH_FILE_SIZE : ℕ := 390

/-- The width of a type that holds a word. -/
inductive Ancho
  | cuatro
  | ocho
deriving DecidableEq

/-- Its number of bytes. -/
def Ancho.bytes : Ancho → ℕ
  | .cuatro => 4
  | .ocho => 8

theorem Ancho.bytes_pos (a : Ancho) : 0 < a.bytes := by
  cases a <;> simp [bytes]

/-- What the program is compiled for. `unsigned int` has 4 bytes. -/
structure Plataforma where
  /-- The width of `uintptr_t`, which pointers and `size_t` have too. -/
  ancho : Ancho
  orden : Order
  /-- `sizeof (struct portable_stat)`. -/
  tamStat : ℕ
  /-- `BDD_MMAP_SIZE`, in megabytes; the bytes of it are an `int`. -/
  mmapSize : ℕ
  mmapSize_pos : 0 < mmapSize
  mmapSize_lt : mmapSize < 2048

namespace Plataforma

variable (P : Plataforma)

/-- `sizeof (uintptr_t)`. -/
def w : ℕ := P.ancho.bytes

/-- The length of the mapping. -/
def len : ℕ := P.mmapSize * 1024 * 1024

/-- `persistent_align` of an address. `MALLOC_ALIGNMENT` is `2 * sizeof (size_t)`, a power of 2, and
the mask clears the bits below it. -/
def persistentAlign (p : ℕ) : ℕ :=
  (p + 2 * P.w - 1) / (2 * P.w) * (2 * P.w)

/-- `*p` for a pointer to words of `n` bytes, assigned to an `unsigned int`. -/
def lee (m : Memory) (p n : ℕ) : UInt32 :=
  UInt32.ofNat (word P.orden m p n)

/-- `*p = v` for a pointer to words of `n` bytes. -/
def pon (m : Memory) (p n v : ℕ) : Memory :=
  setWord P.orden m p n v

/-- `tabla_residente_y_len[i]`. -/
def residenteYLen (i : ℕ) : UInt32 :=
  UInt32.ofNat (tablaResidenteYLen (Char.ofNat i))

/-- `mmap_cache_version`. A `struct db_reg` is three pointers, and `MMAP_CACHE_VERSION` is 4. -/
def mmapCacheVersion : UInt32 :=
  (List.range DB_MAX_TABLA).foldl
    (fun version i ↦ version * (1 + residenteYLen i * UInt32.ofNat (i + 1)))
    (UInt32.ofNat (3 * P.w * DB_MAX_TABLA)) * 4

/-- The loop of the signature over the words of width `a`, two at a time. -/
def firma (m : Memory) (a : Ancho) (limite p : ℕ) (x : Hash) : Hash :=
  if p < limite then
    firma m a limite (p + 2 * a.bytes)
      (tea (P.lee m p a.bytes, P.lee m (p + a.bytes) a.bytes) (23, 23) x)
  else x
termination_by limite - p
decreasing_by
  have := a.bytes_pos
  omega

end Plataforma

/-- The bytes of an object of `n` bytes. -/
@[ext] structure Objeto (n : ℕ) where
  bytes : List UInt8
  length_bytes : bytes.length = n
deriving DecidableEq

/-- An object that nothing was written to. -/
def Objeto.cero (n : ℕ) : Objeto n :=
  ⟨List.replicate n 0, List.length_replicate⟩

/-- The bytes of an array with an element of `n` bytes for each table. -/
@[ext] structure Arreglo (n : ℕ) where
  bytes : List UInt8
  length_bytes : bytes.length = n * DB_MAX_TABLA
deriving DecidableEq

variable {P : Plataforma}

/-- The tables that are kept in the cache. -/
@[ext] structure Tablas (P : Plataforma) where
  cuantos : Arreglo 4
  datos : Arreglo P.w
  serie : Arreglo 4
  hashHi : Arreglo 4
  hashLo : Arreglo 4

/-- The files next to the cache: the file of hashes, and what `get_stat` says of a table file. -/
structure Disco (P : Plataforma) where
  hashes : Option (List UInt8)
  stat : ℕ → Option (Objeto P.tamStat)

/-- The state of the database: its tables, `tabla_stats`, the mapped cache, and where it lies. -/
structure Estado (P : Plataforma) where
  tablas : Tablas P
  stats : ℕ → Objeto P.tamStat
  /-- The bytes of the cache. -/
  mem : Memory
  /-- `mmap_cache_pos`, 0 for `NULL`. -/
  pos : ℕ
  /-- `persistent_top ()`. -/
  top : ℕ
  pos_le : pos ≤ top
  top_lt : top < 256 ^ P.w

/-- The tables that have a file: `i >= ESNET_BDD && i <= ESNET_BDD_END`. -/
def enFichero (i : ℕ) : Bool :=
  'a'.toNat ≤ i && i ≤ 'z'.toNat

/-! ## The writer -/

/-- `len_used`. -/
def Estado.lenUsed (s : Estado P) : ℕ :=
  (s.top - s.pos) % 2 ^ 32

/-- The header but for the hash and the version. The address goes through `unsigned int`. -/
def ponCabecera (s : Estado P) : Memory :=
  let m := P.pon s.mem (3 * P.w) P.w P.len
  let m := P.pon m (4 * P.w) P.w s.lenUsed
  P.pon m (5 * P.w) P.w (s.pos % 2 ^ 32)

/-- The tables, from `p2` on. -/
def ponTablas (s : Estado P) (m : Memory) (p2 : ℕ) : Memory :=
  let residente := elems (fun i ↦ toBytes P.orden 4 (Plataforma.residenteYLen i).toNat) DB_MAX_TABLA
  let m := m.set p2 residente
  let p2 := p2 + residente.length
  let p2 := P.persistentAlign (s.pos + p2) - s.pos
  let stats := elems (fun i ↦ (s.stats i).bytes) DB_MAX_TABLA
  let m := m.set p2 stats
  let p2 := p2 + stats.length
  let m := m.set p2 s.tablas.cuantos.bytes
  let p2 := p2 + s.tablas.cuantos.bytes.length
  let m := m.set p2 s.tablas.datos.bytes
  let p2 := p2 + s.tablas.datos.bytes.length
  let m := m.set p2 s.tablas.serie.bytes
  let p2 := p2 + s.tablas.serie.bytes.length
  let m := m.set p2 s.tablas.hashHi.bytes
  let p2 := p2 + s.tablas.hashHi.bytes.length
  m.set p2 s.tablas.hashLo.bytes

/-- What the writer signs: the version, the word behind it, and the words up to `p_limite`. -/
def firmaEscrita (s : Estado P) (m : Memory) : Hash :=
  let limite := s.lenUsed / 4 * P.w
  let x := tea (P.mmapCacheVersion, P.lee m (3 * P.w) P.w) (23, 23) Hash.cero
  P.firma m P.ancho limite (4 * P.w) x

/-- The hash and the version, which are written last. -/
def ponFirma (s : Estado P) (m : Memory) : Memory :=
  let x := firmaEscrita s m
  let m := P.pon m 0 P.w x.hi.toNat
  let m := P.pon m P.w P.w x.lo.toNat
  P.pon m (2 * P.w) P.w P.mmapCacheVersion.toNat

/-- How the writer ends: by `db_die_persistent` or an assertion, by a `return` on the way, or at its
end. -/
inductive Final
  | muere
  | vuelve (m : Memory)
  | hecho (m : Memory)

/-- Every table file is there and was not changed. -/
def sinCambios (d : Disco P) (s : Estado P) : Bool :=
  (List.range DB_MAX_TABLA).all fun i ↦ !enFichero i || d.stat i = some (s.stats i)

/-- `db_persistent_commit`. -/
def dbPersistentCommit (d : Disco P) (s : Estado P) : Final :=
  if s.pos = 0 then .vuelve s.mem
  else if sinCambios d s = false then .muere
  -- `assert (!(len_used & 7))`
  else if s.lenUsed % 8 ≠ 0 then .muere
  else
    let m := ponCabecera s
    match d.hashes with
    | none => .vuelve m
    | some fichero =>
        let leido := fichero.take 65535
        if leido = [] then .vuelve m
        else
          let m := m.set (6 * P.w) leido
          let p2 := 6 * P.w + 4 * ((leido.length + 4 - 1) / 4)
          .hecho (ponFirma s (ponTablas s m p2))

/-! ## The reader -/

/-- `strcmp` of a text with the one at `p` says that they are equal. -/
def strcmpIgual (m : Memory) : List UInt8 → ℕ → Bool
  | [], _ => true
  | c :: cs, p => if c ≠ m p then false else if c = 0 then true else strcmpIgual m cs (p + 1)

/-- The file of hashes is the one that was copied to the cache. -/
def hashesIguales (d : Disco P) (m : Memory) : Bool :=
  match d.hashes with
  | none => false
  | some fichero =>
      let leido := fichero.take (16384 - 16)
      let hashesBuf := leido ++ List.replicate (16384 - leido.length) 0
      leido.length = HASH_FILE_SIZE && strcmpIgual m hashesBuf 24

/-- What the reader signs: the version as it was, the word behind it, and the words up to `len_used`. -/
def firmaLeida (P : Plataforma) (m : Memory) (lenUsed : ℕ) : Hash :=
  let x := tea (P.lee m 8 4 ^^^ 231231231, P.lee m 12 4) (23, 23) Hash.cero
  P.firma m .cuatro lenUsed 16 x

/-- The checks before the cache is mapped for good, with the version that was read. -/
def vale (d : Disco P) (m : Memory) (version : UInt32) : Bool :=
  let lenUsed := (P.lee m 16 4).toNat
  lenUsed % 8 = 0 && (P.lee m 12 4).toNat = P.len && version = P.mmapCacheVersion
    && hashesIguales d m && firmaLeida P m lenUsed = ⟨P.lee m 0 4, P.lee m 4 4⟩

/-- `hlen` after the file of hashes and its rounding. -/
def hlen : ℕ := 24 + HASH_FILE_SIZE + 1 + 4 - 1

/-- Where the reader expects `tabla_residente_y_len`. -/
def posResidente : ℕ := 4 * (hlen / 4)

/-- Where the reader expects `tabla_stats`, in a cache that lies at `pos`. -/
def posStats (P : Plataforma) (pos : ℕ) : ℕ :=
  P.persistentAlign (pos + (posResidente + 4 * DB_MAX_TABLA)) - pos

/-- Where the reader expects `tabla_cuantos`. -/
def posTablas (P : Plataforma) (pos : ℕ) : ℕ :=
  posStats P pos + P.tamStat * DB_MAX_TABLA

/-- The checks on the tables. -/
def valenTablas (d : Disco P) (pos : ℕ) (m : Memory) : Bool :=
  ((List.range DB_MAX_TABLA).all fun i ↦
    P.lee m (posResidente + 4 * i) 4 = Plataforma.residenteYLen i) &&
  (List.range DB_MAX_TABLA).all fun i ↦
    !enFichero i || (d.stat i).map Objeto.bytes = some (m.get (posStats P pos + P.tamStat * i) P.tamStat)

/-- `memcpy` to an array. -/
def copia (m : Memory) (p n : ℕ) : Arreglo n :=
  ⟨m.get p (n * DB_MAX_TABLA), length_get m p _⟩

/-- The tables, from `p` on. -/
def cargaTablas (P : Plataforma) (m : Memory) (p : ℕ) : Tablas P where
  cuantos := copia m p 4
  datos := copia m (p + 4 * DB_MAX_TABLA) P.w
  serie := copia m (p + 4 * DB_MAX_TABLA + P.w * DB_MAX_TABLA) 4
  hashHi := copia m (p + 8 * DB_MAX_TABLA + P.w * DB_MAX_TABLA) 4
  hashLo := copia m (p + 12 * DB_MAX_TABLA + P.w * DB_MAX_TABLA) 4

/-- What the reader leaves. -/
structure Lectura (P : Plataforma) where
  /-- `persistent_hit`. -/
  hit : Bool
  tablas : Tablas P
  stats : ℕ → Objeto P.tamStat
  mem : Memory
  /-- `mmap_cache_pos`. -/
  pos : ℕ
  /-- Where the memory of `persistent_init` begins, behind the tables. -/
  gestor : ℕ
  /-- The end of the used memory, when it is kept. -/
  top : Option ℕ

/-- The second mapping, at the address `pos` or where the kernel likes; it says too whether the
address was granted. -/
def segundoMmap (mmap : ℕ → Option ℕ) (pos : ℕ) : Option (ℕ × Bool) :=
  match mmap pos with
  | some a => some (a, pos = 0 || pos = a)
  | none => (mmap 0).map (·, false)

/-- `mmap_cache`. The kernel is `mmap`, from the address that is asked for to the one that is
granted; it ends the program when there is none, or when a table file is missing. -/
def mmapCache (d : Disco P) (mmap : ℕ → Option ℕ) (m : Memory) : Option (Lectura P) :=
  let version := P.lee m 8 4
  -- the version is changed, so that the cache is not read a second time
  let m := P.pon m 8 4 (version ^^^ 231231231).toNat
  let lenUsed := (P.lee m 16 4).toNat
  let v := vale d m version
  (segundoMmap mmap (if v then (P.lee m 20 4).toNat else 0)).bind fun (pos, concedida) ↦
    if (List.range DB_MAX_TABLA).any fun i ↦ enFichero i && d.stat i = none then none
    else
      let v := v && concedida && valenTablas d pos m
      let p := posTablas P pos
      let total := 16 * DB_MAX_TABLA + P.w * DB_MAX_TABLA
      let borrado := 4096 + hlen + 4 * DB_MAX_TABLA + P.tamStat * DB_MAX_TABLA + total
      let m := if v then m else m.set 0 (List.replicate borrado 0)
      some
        { hit := v
          tablas := cargaTablas P m p
          stats := fun i ↦
            if enFichero i then (d.stat i).getD (Objeto.cero P.tamStat)
            else Objeto.cero P.tamStat
          mem := m
          pos := pos
          gestor := p + total
          top := if v then some (pos + lenUsed) else none }

end Ircd.Bdd.Cache
