import Ircd.Bdd.Restaura
import Ircd.Lib.Run

/-!
# The lives of a server

One server after another maps the same cache file. Each reads the cache when it starts, works in the
memory behind the tables, and writes the cache when it ends, unless it crashes. The reader changes
the version of what it has read, and only a commit that comes to its end writes the version again:
`arranca_firmado` says that in no run does a server take a cache that no commit has finished since
the last start.
-/

namespace Ircd.Bdd.Cache

open Memory

variable {P : Plataforma}

/-- What happens to the cache file. -/
inductive Suceso (P : Plataforma) where
  | arranca (d : Disco P) (mmap : ℕ → Option ℕ)
  | trabaja (m : Memory)
  | commit (d : Disco P) (s : Estado P)
  | muere

/-- The cache file. A server that runs has its memory from `gestor` on, and `firmado` says that a
commit has come to its end since the last start. -/
structure Archivo where
  mem : Memory
  gestor : Option ℕ
  firmado : Bool

/-- The file that `mmap_cache` creates. -/
def Archivo.nuevo : Archivo := ⟨fun _ ↦ 0, none, false⟩

/-- The bytes of a server that starts, with the version changed also when the program ends on the
way. -/
def trasArranque (d : Disco P) (mmap : ℕ → Option ℕ) (m : Memory) : Archivo :=
  match mmapCache d mmap m with
  | some l => ⟨l.mem, some l.gestor, false⟩
  | none => ⟨cambiada P m, none, false⟩

/-- The bytes after `db_persistent_commit`, when the program has ended. The assertion on the used
length comes after the length of the mapping was written. -/
def trasCommit (d : Disco P) (s : Estado P) (f : Archivo) : Archivo :=
  match dbPersistentCommit d s with
  | .muere => ⟨if sinCambios d s then P.pon s.mem (3 * P.w) P.w P.len else s.mem, none, f.firmado⟩
  | .vuelve m => ⟨m, none, f.firmado⟩
  | .hecho m => ⟨m, none, true⟩

def paso : Suceso P → Archivo → Archivo
  | .arranca d mmap, f => trasArranque d mmap f.mem
  | .trabaja m, f => { f with mem := m }
  | .commit d s, f => trasCommit d s f
  | .muere, f => { f with gestor := none }

/-- What a server may do: its start comes to its end, it works in its own memory, and it commits the
cache that it has mapped. -/
def Puede : Suceso P → Archivo → Prop
  | .arranca d mmap, f => mmapCache d mmap f.mem ≠ none
  | .trabaja m, f => ∃ g, f.gestor = some g ∧ ∀ x < g, m x = f.mem x
  | .commit _ s, f => f.gestor ≠ none ∧ s.mem = f.mem
  | .muere, _ => True

/-! ## The version -/

/-- The lengths of the tables are even, whatever the width of a pointer is. -/
theorem version_ne_zero (P : Plataforma) : P.mmapCacheVersion ≠ 0 := by
  cases hancho : P.ancho with
  | cuatro =>
      unfold Plataforma.mmapCacheVersion DB_MAX_TABLA
      rw [w_of_cuatro hancho]
      decide +kernel
  | ocho =>
      refine mmapCacheVersion_ne_zero ?_
      rw [Plataforma.w, hancho]
      rfl

theorem version_cambiada (v : UInt32) : v ^^^ 231231231 ≠ v := by
  intro h
  have hcero : v ^^^ (v ^^^ 231231231) = v ^^^ v := congrArg (v ^^^ ·) h
  rw [← UInt32.xor_assoc, UInt32.xor_self, UInt32.zero_xor] at hcero
  cases hcero

/-- A cache with another version, which the reader does not take. -/
def Usada (P : Plataforma) (m : Memory) : Prop :=
  P.lee m 8 4 ≠ P.mmapCacheVersion

theorem usada_congr {m m' : Memory} (h : ∀ x < 12, m x = m' x) (hm : Usada P m') : Usada P m := by
  have hword : P.lee m 8 4 = P.lee m' 8 4 :=
    congrArg UInt32.ofNat (word_congr _ fun b _ hb ↦ h b (by omega))
  rw [Usada, hword]
  exact hm

theorem usada_cero {m : Memory} (h : ∀ x < 12, m x = 0) : Usada P m := by
  have hcero : P.lee m 8 4 = 0 := by
    have hget : m.get 8 4 = [0, 0, 0, 0] := by
      simp only [get_succ, h 8 (by omega), h (8 + 1) (by omega), h (8 + 1 + 1) (by omega),
        h (8 + 1 + 1 + 1) (by omega)]
      rfl
    rw [Plataforma.lee, word, hget]
    cases P.orden <;> rfl
  rw [Usada, hcero]
  exact (version_ne_zero P).symm

theorem usada_cambiada {m : Memory} (h : P.lee m 8 4 = P.mmapCacheVersion) :
    Usada P (cambiada P m) := by
  rw [Usada, cambiada, P.lee_pon, h]
  exact version_cambiada _

theorem four_le_w (P : Plataforma) : 4 ≤ P.w := by
  cases hancho : P.ancho <;> simp [Plataforma.w, hancho, Ancho.bytes]

/-! ## The steps -/

/-- A server that takes the cache has found the version in it. -/
theorem version_of_hit {d : Disco P} {mmap : ℕ → Option ℕ} {m : Memory} {l : Lectura P}
    (hl : mmapCache d mmap m = some l) (hhit : l.hit = true) :
    P.lee m 8 4 = P.mmapCacheVersion := by
  have hvale := vale_of_hit hl hhit
  simp only [vale, Bool.and_eq_true, decide_eq_true_eq] at hvale
  exact hvale.1.1.2

/-- `memset` of the first bytes. -/
theorem set_replicate_zero (m : Memory) {x n : ℕ} (hx : x < n) :
    m.set 0 (List.replicate n 0) x = 0 := by
  have hlong : x < (List.replicate n (0 : UInt8)).length := by rwa [List.length_replicate]
  have hset := set_add m 0 hlong
  rwa [Nat.zero_add, List.getElem_replicate] at hset

/-- What a start leaves: the version changed, or the first bytes cleared. -/
theorem mem_mmapCache {d : Disco P} {mmap : ℕ → Option ℕ} {m : Memory} {l : Lectura P}
    (hl : mmapCache d mmap m = some l) : 12 ≤ l.gestor ∧
      (l.hit = true ∧ l.mem = cambiada P m ∨ ∀ x < 12, l.mem x = 0) := by
  unfold mmapCache at hl
  obtain ⟨⟨pos, concedida⟩, _, hl⟩ := Option.bind_eq_some_iff.mp hl
  dsimp only at hl
  split at hl
  · cases hl
  · obtain rfl := Option.some.inj hl
    dsimp only
    constructor
    · have hresidente : posResidente = 416 := rfl
      have hstats := P.le_persistentAlign (pos + (posResidente + 4 * DB_MAX_TABLA))
      unfold posTablas posStats
      omega
    · split
      · next h => exact .inl ⟨h, rfl⟩
      · refine .inr fun x hx ↦ ?_
        exact set_replicate_zero _ (by omega)

/-- The first bytes of the cache are written only at the end of a commit. -/
theorem mem_trasCommit {d : Disco P} {s : Estado P} {f : Archivo}
    (h : (trasCommit d s f).firmado = false) :
    f.firmado = false ∧ ∀ x < 12, (trasCommit d s f).mem x = s.mem x := by
  have hw := four_le_w P
  have hpon (m : Memory) (p n v : ℕ) (hp : 12 ≤ p) : ∀ x < 12, P.pon m p n v x = m x :=
    fun x hx ↦ setWord_of_outside _ _ (.inl (by omega))
  have hcabecera : ∀ x < 12, ponCabecera s x = s.mem x := by
    intro x hx
    rw [ponCabecera, hpon _ _ _ _ (by omega) x hx, hpon _ _ _ _ (by omega) x hx,
      hpon _ _ _ _ (by omega) x hx]
  unfold trasCommit at h ⊢
  split at h
  · refine ⟨h, fun x hx ↦ ?_⟩
    dsimp only
    split
    · exact hpon _ _ _ _ (by omega) x hx
    · rfl
  · next m hvuelve =>
      refine ⟨h, fun x hx ↦ ?_⟩
      dsimp only
      unfold dbPersistentCommit at hvuelve
      split at hvuelve
      · rw [← Final.vuelve.inj hvuelve]
      · split at hvuelve
        · cases hvuelve
        · split at hvuelve
          · cases hvuelve
          · dsimp only at hvuelve
            split at hvuelve
            · rw [← Final.vuelve.inj hvuelve, hcabecera x hx]
            · split at hvuelve
              · rw [← Final.vuelve.inj hvuelve, hcabecera x hx]
              · cases hvuelve
  · cases h

/-! ## Every run -/

/-- While no commit has come to its end, the cache is used, and a server works behind the header. -/
structure Cuidado (P : Plataforma) (f : Archivo) : Prop where
  usada : f.firmado = false → Usada P f.mem
  gestor : ∀ g, f.gestor = some g → 12 ≤ g

theorem Cuidado.nuevo (P : Plataforma) : Cuidado P .nuevo :=
  ⟨fun _ ↦ usada_cero fun _ _ ↦ rfl, fun _ h ↦ by cases h⟩

theorem Cuidado.paso {f : Archivo} (h : Cuidado P f) (x : Suceso P) (hx : Puede x f) :
    Cuidado P (paso x f) := by
  cases x with
  | arranca d mmap =>
      show Cuidado P (trasArranque d mmap f.mem)
      unfold trasArranque
      split
      · next l hl =>
          obtain ⟨hgestor, hmem⟩ := mem_mmapCache hl
          refine ⟨fun _ ↦ ?_, fun g hg ↦ Option.some.inj hg ▸ hgestor⟩
          rcases hmem with ⟨hhit, hmem⟩ | hcero
          · show Usada P l.mem
            rw [hmem]
            exact usada_cambiada (version_of_hit hl hhit)
          · exact usada_cero hcero
      · next hnone => exact absurd hnone hx
  | trabaja m =>
      obtain ⟨g, hg, hm⟩ := hx
      have hgestor := h.gestor g hg
      exact ⟨fun hf ↦ usada_congr (fun x hx ↦ hm x (by omega)) (h.usada hf), h.gestor⟩
  | commit d s =>
      refine ⟨fun hf ↦ ?_, fun g hg ↦ ?_⟩
      · obtain ⟨hfirmado, hmem⟩ := mem_trasCommit hf
        exact usada_congr (fun x hx ↦ hmem x hx) (hx.2 ▸ h.usada hfirmado)
      · have hnone : (trasCommit d s f).gestor = none := by
          unfold trasCommit
          split <;> rfl
        cases hnone.symm.trans hg
  | muere => exact ⟨h.usada, fun _ hg ↦ by cases hg⟩

/-- **A cache serves once.** In every run over a new cache file whose starts come to their end, a
server takes the cache only if a commit has come to its end since the last start: what a server that
crashed has left in the cache is never taken. -/
theorem arranca_firmado {l : List (Suceso P)} (hl : Run.EveryStep paso Puede .nuevo l) :
    Run.EveryStep paso (fun x f ↦ ∀ d mmap r, x = .arranca d mmap →
      mmapCache d mmap f.mem = some r → r.hit = true → f.firmado = true) .nuevo l := by
  refine Run.everyStep_of_invariant (P := Cuidado P) (fun x f h hx ↦ h.paso x hx) ?_
    (.nuevo P) hl
  rintro x f h - d mmap r - hr hhit
  cases hfirmado : f.firmado with
  | true => rfl
  | false => exact absurd (version_of_hit hr hhit) (h.usada hfirmado)

theorem mmapCache_ne_none {d : Disco P} {mmap : ℕ → Option ℕ} (hmmap : ∀ a, mmap a ≠ none)
    (hstat : ∀ i < DB_MAX_TABLA, enFichero i = true → d.stat i ≠ none) (m : Memory) :
    mmapCache d mmap m ≠ none := by
  have hno : ((List.range DB_MAX_TABLA).any fun i ↦ enFichero i && d.stat i = none) = false := by
    simp only [List.any_eq_false, List.mem_range, Bool.and_eq_true, decide_eq_true_eq, not_and]
    exact hstat
  unfold mmapCache
  obtain ⟨r, hr⟩ : ∃ r, segundoMmap mmap (if vale d (P.pon m 8 4 (P.lee m 8 4 ^^^ 231231231).toNat)
      (P.lee m 8 4) then (P.lee (P.pon m 8 4 (P.lee m 8 4 ^^^ 231231231).toNat) 20 4).toNat
      else 0) = some r := by
    unfold segundoMmap
    split
    · exact ⟨_, rfl⟩
    · next hnone => exact absurd hnone (hmmap _)
  dsimp only
  rw [hr, Option.bind_some, hno]
  exact Option.some_ne_none _

/-- The state of a server that has started over a new file, with the tables of `lleno`. -/
def trasNuevo : Estado (maquina .cuatro) :=
  { lleno with mem := (trasArranque discoLleno some Archivo.nuevo.mem).mem }

/-- A server starts, commits its cache and ends; the next one crashes, and another one starts. -/
theorem arranca_firmado_dos : Run.EveryStep paso (fun x f ↦ ∀ d mmap r, x = .arranca d mmap →
      mmapCache d mmap f.mem = some r → r.hit = true → f.firmado = true) .nuevo
    [.arranca discoLleno some, .commit discoLleno trasNuevo, .muere, .arranca discoLleno some,
      .muere, .arranca discoLleno some] := by
  have harranca (m : Memory) : mmapCache discoLleno some m ≠ none :=
    mmapCache_ne_none (fun _ ↦ Option.some_ne_none _) (fun _ _ _ ↦ Option.some_ne_none _) m
  have hgestor : (trasArranque discoLleno some Archivo.nuevo.mem).gestor ≠ none := by
    obtain ⟨l, hl⟩ := Option.ne_none_iff_exists'.mp (harranca Archivo.nuevo.mem)
    rw [trasArranque, hl]
    exact Option.some_ne_none _
  exact arranca_firmado
    ⟨harranca _, ⟨hgestor, rfl⟩, trivial, harranca _, trivial, harranca _, trivial⟩

end Ircd.Bdd.Cache
