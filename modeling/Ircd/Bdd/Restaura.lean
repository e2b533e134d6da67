import Ircd.Bdd.Cache

/-!
# The cache is read as it was written

The writer and the reader each go over the layout of the cache on their own. `carga_ponTablas` loads
the tables that `ponTablas` wrote, `firmaLeida_eq` is the signature of both, and
`hashesIguales_escrita` the comparison of the file of hashes; with words of 4 bytes `vale_iff` and
`restaura_escrita` put them together. With words of 8 bytes `vale_ponFirma_ocho` finds a 0 where the
reader expects the length or the version. `mmapCache_restaura` is the result.
-/

namespace Ircd.Bdd.Cache

open Memory

variable {P : Plataforma}

/-! ## Words and the signature -/

namespace Plataforma

/-- A word that was written is read back. -/
theorem lee_pon (P : Plataforma) (m : Memory) (p : ℕ) (v : UInt32) :
    P.lee (P.pon m p 4 v.toNat) p 4 = v := by
  have hlt : v.toNat < 256 ^ 4 := v.toNat_lt
  rw [lee, pon, word_setWord, Nat.mod_eq_of_lt hlt, UInt32.ofNat_toNat]

theorem toNat_lee_pon (P : Plataforma) (m : Memory) (p : ℕ) {v : ℕ} (hv : v < 2 ^ 32) :
    (P.lee (P.pon m p 4 v) p 4).toNat = v := by
  have hlt : v < 256 ^ 4 := hv
  rw [lee, pon, word_setWord, Nat.mod_eq_of_lt hlt, UInt32.toNat_ofNat_of_lt' hv]

theorem lee_pon_of_disjoint (P : Plataforma) (m : Memory) {p n q k v : ℕ}
    (h : q + k ≤ p ∨ p + n ≤ q) : P.lee (P.pon m p n v) q k = P.lee m q k :=
  congrArg UInt32.ofNat (word_set_of_disjoint _ m (by rwa [length_toBytes]))

/-- The address that is aligned is not below. -/
theorem le_persistentAlign (P : Plataforma) (p : ℕ) : p ≤ P.persistentAlign p := by
  have hw : 0 < 2 * P.w := Nat.mul_pos Nat.two_pos P.ancho.bytes_pos
  have hdiv := Nat.div_add_mod (p + 2 * P.w - 1) (2 * P.w)
  have hmod := Nat.mod_lt (p + 2 * P.w - 1) hw
  rw [Nat.mul_comm] at hdiv
  unfold persistentAlign
  omega

/-- The signature depends on the bytes from its first word on. -/
theorem firma_congr (P : Plataforma) {m m' : Memory} (a : Ancho) (limite p : ℕ) (x : Hash)
    (h : ∀ b, p ≤ b → m b = m' b) : P.firma m a limite p x = P.firma m' a limite p x := by
  induction p, x using firma.induct P m a limite with
  | case1 p x hp ih =>
      have hleft : P.lee m p a.bytes = P.lee m' p a.bytes :=
        congrArg UInt32.ofNat (word_congr _ fun b hb _ ↦ h b hb)
      have hright : P.lee m (p + a.bytes) a.bytes = P.lee m' (p + a.bytes) a.bytes :=
        congrArg UInt32.ofNat (word_congr _ fun b hb _ ↦ h b (by omega))
      have hrest := ih fun b hb ↦ h b (by omega)
      unfold firma
      rw [if_pos hp, if_pos hp, hrest, hleft, hright]
  | case2 p x hp =>
      unfold firma
      rw [if_neg hp, if_neg hp]

end Plataforma

/-! ## The written tables -/

section Tablas

variable (s : Estado P) (m : Memory) (p2 : ℕ)

/-- Where the writer puts `tabla_stats`. -/
def posStatsEscrita : ℕ :=
  P.persistentAlign (s.pos + (p2 + 4 * DB_MAX_TABLA)) - s.pos

theorem le_posStatsEscrita : p2 + 4 * DB_MAX_TABLA ≤ posStatsEscrita s p2 := by
  have := P.le_persistentAlign (s.pos + (p2 + 4 * DB_MAX_TABLA))
  unfold posStatsEscrita
  omega

/-- The bytes of `tabla_residente_y_len`. -/
def bytesResidente (P : Plataforma) : List UInt8 :=
  elems (fun i ↦ toBytes P.orden 4 (Plataforma.residenteYLen i).toNat) DB_MAX_TABLA

/-- The bytes of `tabla_stats`. -/
def bytesStats : List UInt8 :=
  elems (fun i ↦ (s.stats i).bytes) DB_MAX_TABLA

theorem length_bytesResidente (P : Plataforma) : (bytesResidente P).length = 4 * DB_MAX_TABLA :=
  length_elems (fun _ ↦ length_toBytes _ _ _) _

theorem length_bytesStats : (bytesStats s).length = P.tamStat * DB_MAX_TABLA :=
  length_elems (fun i ↦ (s.stats i).length_bytes) _

/-- The writes of `ponTablas`, each with its place. -/
theorem ponTablas_eq :
    ponTablas s m p2 =
      ((((((m.set p2 (bytesResidente P)).set (posStatsEscrita s p2) (bytesStats s)).set
        (posStatsEscrita s p2 + P.tamStat * DB_MAX_TABLA) s.tablas.cuantos.bytes).set
        (posStatsEscrita s p2 + P.tamStat * DB_MAX_TABLA + 4 * DB_MAX_TABLA)
          s.tablas.datos.bytes).set
        (posStatsEscrita s p2 + P.tamStat * DB_MAX_TABLA + 4 * DB_MAX_TABLA + P.w * DB_MAX_TABLA)
          s.tablas.serie.bytes).set
        (posStatsEscrita s p2 + P.tamStat * DB_MAX_TABLA + 4 * DB_MAX_TABLA + P.w * DB_MAX_TABLA
          + 4 * DB_MAX_TABLA) s.tablas.hashHi.bytes).set
        (posStatsEscrita s p2 + P.tamStat * DB_MAX_TABLA + 4 * DB_MAX_TABLA + P.w * DB_MAX_TABLA
          + 4 * DB_MAX_TABLA + 4 * DB_MAX_TABLA) s.tablas.hashLo.bytes := by
  have hresidente := length_bytesResidente P
  have hstats := length_bytesStats s
  unfold bytesResidente at hresidente
  unfold bytesStats at hstats
  simp only [ponTablas, hresidente, hstats, Arreglo.length_bytes, posStatsEscrita, bytesResidente,
    bytesStats]

/-- The writes begin at `p2`. -/
theorem ponTablas_of_lt {x : ℕ} (hx : x < p2) : ponTablas s m p2 x = m x := by
  have hpos := le_posStatsEscrita s p2
  simp (disch := omega) only [ponTablas_eq, set_of_outside]

/-- Nothing is written behind the last table. -/
theorem ponTablas_of_ge {x : ℕ}
    (hx : posStatsEscrita s p2 + P.tamStat * DB_MAX_TABLA + 16 * DB_MAX_TABLA + P.w * DB_MAX_TABLA
      ≤ x) : ponTablas s m p2 x = m x := by
  have hpos := le_posStatsEscrita s p2
  have hresidente := length_bytesResidente P
  have hstats := length_bytesStats s
  have hcuantos := s.tablas.cuantos.length_bytes
  have hdatos := s.tablas.datos.length_bytes
  have hserie := s.tablas.serie.length_bytes
  have hhi := s.tablas.hashHi.length_bytes
  have hlo := s.tablas.hashLo.length_bytes
  simp (disch := omega) only [ponTablas_eq, set_of_outside]

/-- The residence of a table is read back. -/
theorem lee_residente {i : ℕ} (hi : i < DB_MAX_TABLA) :
    P.lee (ponTablas s m p2) (p2 + 4 * i) 4 = Plataforma.residenteYLen i := by
  have hpos := le_posStatsEscrita s p2
  have hword (j : ℕ) : (toBytes P.orden 4 (Plataforma.residenteYLen j).toNat).length = 4 :=
    length_toBytes _ _ _
  have hle : 4 * (i + 1) ≤ 4 * DB_MAX_TABLA := Nat.mul_le_mul_left 4 hi
  have hget : (ponTablas s m p2).get (p2 + 4 * i) 4 =
      toBytes P.orden 4 (Plataforma.residenteYLen i).toNat := by
    simp (disch := omega) only [ponTablas_eq, get_set_of_disjoint]
    exact get_set_elems hword m p2 hi
  have hlt : (Plataforma.residenteYLen i).toNat < 256 ^ 4 := UInt32.toNat_lt _
  rw [Plataforma.lee, word, hget, ofBytes_toBytes, Nat.mod_eq_of_lt hlt, UInt32.ofNat_toNat]

/-- The state of a table file is read back. -/
theorem get_stats {i : ℕ} (hi : i < DB_MAX_TABLA) :
    (ponTablas s m p2).get (posStatsEscrita s p2 + P.tamStat * i) P.tamStat =
      (s.stats i).bytes := by
  have hpos := le_posStatsEscrita s p2
  have hle : P.tamStat * (i + 1) ≤ P.tamStat * DB_MAX_TABLA := Nat.mul_le_mul_left _ hi
  rw [Nat.mul_succ] at hle
  simp (disch := omega) only [ponTablas_eq, get_set_of_disjoint]
  exact get_set_elems (fun j ↦ (s.stats j).length_bytes) _ _ hi

/-- The tables are loaded as they were. -/
theorem carga_ponTablas :
    cargaTablas P (ponTablas s m p2) (posStatsEscrita s p2 + P.tamStat * DB_MAX_TABLA) =
      s.tablas := by
  have hcuantos := s.tablas.cuantos.length_bytes
  have hdatos := s.tablas.datos.length_bytes
  have hserie := s.tablas.serie.length_bytes
  have hhi := s.tablas.hashHi.length_bytes
  have hlo := s.tablas.hashLo.length_bytes
  have hocho (p : ℕ) : p + 8 * DB_MAX_TABLA + P.w * DB_MAX_TABLA =
      p + 4 * DB_MAX_TABLA + P.w * DB_MAX_TABLA + 4 * DB_MAX_TABLA := by omega
  have hdoce (p : ℕ) : p + 12 * DB_MAX_TABLA + P.w * DB_MAX_TABLA =
      p + 4 * DB_MAX_TABLA + P.w * DB_MAX_TABLA + 4 * DB_MAX_TABLA + 4 * DB_MAX_TABLA := by omega
  apply Tablas.ext <;> apply Arreglo.ext <;>
    simp (disch := omega) only [cargaTablas, copia, ponTablas_eq, hocho, hdoce,
      get_set_of_disjoint, get_set_of_length]

end Tablas

/-! ## The file of hashes -/

/-- A text and its copy are equal if there is a terminator in it or behind the copy. -/
theorem strcmpIgual_iff {m : Memory} {f : List UInt8} {p : ℕ} (hget : m.get p f.length = f)
    (k : ℕ) :
    strcmpIgual m (f ++ List.replicate (k + 1) 0) p = true ↔ m (p + f.length) = 0 ∨ 0 ∈ f := by
  induction f generalizing p with
  | nil =>
      simp only [List.nil_append, List.replicate_succ, strcmpIgual, List.length_nil, Nat.add_zero,
        List.not_mem_nil, or_false, if_true, ne_eq, ite_not]
      split
      · rename_i h
        simp [← h]
      · rename_i h
        simp [Ne.symm h]
  | cons c f ih =>
      rw [List.length_cons, get_succ, List.cons.injEq] at hget
      obtain ⟨hc, hf⟩ := hget
      have hlen : p + (c :: f).length = p + 1 + f.length := by
        rw [List.length_cons]
        omega
      rw [List.cons_append, strcmpIgual, if_neg (by simp [hc]), List.mem_cons, hlen]
      split
      · rename_i h
        simp [h]
      · rename_i h
        rw [ih hf]
        simp [Ne.symm h]

/-- The reader takes a file of hashes for the copy that was made of it if it has the length that the
reader expects and a terminator stops the comparison. -/
theorem hashesIguales_iff {d : Disco P} {m : Memory}
    (hget : ∀ f, d.hashes = some f → f.length = HASH_FILE_SIZE → m.get 24 HASH_FILE_SIZE = f) :
    hashesIguales d m = true ↔
      ∃ f, d.hashes = some f ∧ f.length = HASH_FILE_SIZE ∧ (m 414 = 0 ∨ 0 ∈ f) := by
  unfold hashesIguales
  cases hf : d.hashes with
  | none => simp
  | some f =>
      simp only [Bool.and_eq_true, decide_eq_true_eq, Option.some.injEq, exists_eq_left']
      have hsize : HASH_FILE_SIZE = 390 := rfl
      by_cases hlen : f.length = HASH_FILE_SIZE
      · have htake : f.take (16384 - 16) = f := List.take_of_length_le (by omega)
        have hcopia := hget f hf hlen
        rw [← hlen] at hcopia
        obtain ⟨k, hk⟩ : ∃ k, 16384 - f.length = k + 1 := ⟨16384 - f.length - 1, by omega⟩
        rw [htake, hk, strcmpIgual_iff hcopia, hlen, hsize]
      · have htake : (f.take (16384 - 16)).length ≠ HASH_FILE_SIZE := by
          rw [List.length_take]
          omega
        simp only [htake, hlen, false_and]

/-! ## The writer -/

theorem sinCambios_iff {d : Disco P} {s : Estado P} :
    sinCambios d s = true ↔
      ∀ i < DB_MAX_TABLA, enFichero i = true → d.stat i = some (s.stats i) := by
  simp [sinCambios, ← Bool.not_eq_true, imp_iff_not_or]

/-- The writer comes to its end if the cache is mapped, the table files were not changed, a multiple
of 8 bytes is used, and there is something in the file of hashes. -/
theorem hecho_iff {d : Disco P} {s : Estado P} {m' : Memory} :
    dbPersistentCommit d s = .hecho m' ↔
      s.pos ≠ 0 ∧ sinCambios d s = true ∧ s.lenUsed % 8 = 0 ∧ ∃ f, d.hashes = some f ∧ f ≠ [] ∧
        ponFirma s (ponTablas s ((ponCabecera s).set (6 * P.w) (f.take 65535))
          (6 * P.w + 4 * (((f.take 65535).length + 4 - 1) / 4))) = m' := by
  unfold dbPersistentCommit
  by_cases hpos : s.pos = 0
  · simp [hpos]
  cases hficheros : sinCambios d s with
  | false => simp [hpos]
  | true =>
      by_cases hused : s.lenUsed % 8 = 0
      · cases hf : d.hashes with
        | none => simp [hpos, hused]
        | some f =>
            have htake : f.take 65535 = [] ↔ f = [] := by simp [List.take_eq_nil_iff]
            by_cases hnil : f = []
            · simp [hpos, hused, hnil]
            · simp only [hpos, hused, htake, hnil, if_false, ne_eq, not_true, not_false_iff,
                true_and, Option.some.injEq, exists_eq_left', Final.hecho.injEq, Bool.true_eq_false]
      · simp [hpos, hused]

/-! ## Words of 4 bytes -/

section Cuatro

variable {s : Estado P} {d : Disco P} {m : Memory} {x p2 : ℕ}

theorem w_of_cuatro (hancho : P.ancho = .cuatro) : P.w = 4 := by
  rw [Plataforma.w, hancho]
  rfl

/-- The hash and the version are below the length. -/
theorem ponFirma_of_ge (hancho : P.ancho = .cuatro) (hx : 12 ≤ x) : ponFirma s m x = m x := by
  simp only [ponFirma, Plataforma.pon, w_of_cuatro hancho]
  rw [setWord_of_outside _ _ (by omega), setWord_of_outside _ _ (by omega),
    setWord_of_outside _ _ (by omega)]

/-- The header is in the first 24 bytes. -/
theorem ponCabecera_of_ge (hancho : P.ancho = .cuatro) (hx : 24 ≤ x) :
    ponCabecera s x = s.mem x := by
  simp only [ponCabecera, Plataforma.pon, w_of_cuatro hancho]
  rw [setWord_of_outside _ _ (by omega), setWord_of_outside _ _ (by omega),
    setWord_of_outside _ _ (by omega)]

/-- The words of the header are read back. -/
theorem lee_ponCabecera (hancho : P.ancho = .cuatro) :
    (P.lee (ponCabecera s) 12 4).toNat = P.len ∧
      (P.lee (ponCabecera s) 16 4).toNat = s.lenUsed ∧
      (P.lee (ponCabecera s) 20 4).toNat = s.pos := by
  have hw := w_of_cuatro hancho
  have hlen : P.len < 2 ^ 32 := by
    have := P.mmapSize_lt
    unfold Plataforma.len
    omega
  have hused : s.lenUsed < 2 ^ 32 := Nat.mod_lt _ (by decide)
  have hpos : s.pos < 2 ^ 32 := by
    have := s.pos_le
    have htop := s.top_lt
    rw [hw] at htop
    omega
  have hmod : s.pos % 2 ^ 32 = s.pos := Nat.mod_eq_of_lt hpos
  simp only [ponCabecera, hw, hmod]
  refine ⟨?_, ?_, ?_⟩
  · rw [P.lee_pon_of_disjoint _ (by omega), P.lee_pon_of_disjoint _ (by omega)]
    exact P.toNat_lee_pon _ _ hlen
  · rw [P.lee_pon_of_disjoint _ (by omega)]
    exact P.toNat_lee_pon _ _ hused
  · exact P.toNat_lee_pon _ _ hpos

/-- The hash and the version are read back. -/
theorem lee_ponFirma (hancho : P.ancho = .cuatro) :
    P.lee (ponFirma s m) 0 4 = (firmaEscrita s m).hi ∧
      P.lee (ponFirma s m) 4 4 = (firmaEscrita s m).lo ∧
      P.lee (ponFirma s m) 8 4 = P.mmapCacheVersion := by
  simp only [ponFirma, w_of_cuatro hancho]
  refine ⟨?_, ?_, P.lee_pon _ _ _⟩
  · rw [P.lee_pon_of_disjoint _ (by omega), P.lee_pon_of_disjoint _ (by omega)]
    exact P.lee_pon _ _ _
  · rw [P.lee_pon_of_disjoint _ (by omega)]
    exact P.lee_pon _ _ _

/-- The reader signs what the writer signed, over a cache whose version it has changed. -/
theorem firmaLeida_eq (hancho : P.ancho = .cuatro) (hused : s.lenUsed % 8 = 0) {m' : Memory}
    (hversion : P.lee m' 8 4 = P.mmapCacheVersion ^^^ 231231231)
    (hresto : ∀ b, 12 ≤ b → m' b = m b) : firmaLeida P m' s.lenUsed = firmaEscrita s m := by
  have hword : P.lee m' 12 4 = P.lee m 12 4 :=
    congrArg UInt32.ofNat (word_congr _ fun b hb _ ↦ hresto b hb)
  have hlimite : s.lenUsed / 4 * 4 = s.lenUsed := by omega
  have hxor : P.mmapCacheVersion ^^^ 231231231 ^^^ 231231231 = P.mmapCacheVersion := by
    rw [UInt32.xor_assoc, UInt32.xor_self, UInt32.xor_zero]
  unfold firmaLeida firmaEscrita
  rw [hversion, hxor, hword, w_of_cuatro hancho, hlimite, hancho]
  exact P.firma_congr _ _ _ _ fun b hb ↦ hresto b (by omega)

/-- What the writer leaves below the tables, after a file of hashes `f`. -/
def copiada (s : Estado P) (f : List UInt8) : Memory :=
  (ponCabecera s).set 24 (f.take 65535)

/-- The cache of the reader, with the version changed. -/
def cambiada (P : Plataforma) (m : Memory) : Memory :=
  P.pon m 8 4 (P.lee m 8 4 ^^^ 231231231).toNat

theorem cambiada_of_ge (hx : 12 ≤ x) : cambiada P m x = m x :=
  setWord_of_outside _ _ (by omega)

/-- The checks of the reader come down to the one of the file of hashes. -/
theorem vale_iff {f : List UInt8} (hancho : P.ancho = .cuatro) (hused : s.lenUsed % 8 = 0)
    (hp2 : 24 ≤ p2)
    (hm : m = ponFirma s (ponTablas s (copiada s f) p2)) :
    (vale d (cambiada P m) (P.lee m 8 4) = true ↔ hashesIguales d (cambiada P m) = true) ∧
      (P.lee (cambiada P m) 20 4).toNat = s.pos := by
  obtain ⟨hhi, hlo, hversion⟩ := lee_ponFirma (s := s) (m := ponTablas s (copiada s f) p2) hancho
  rw [← hm] at hhi hlo hversion
  have hcabecera : ∀ b, 12 ≤ b → b < 24 → cambiada P m b = ponCabecera s b := by
    intro b hb hlt
    rw [cambiada_of_ge hb, hm, ponFirma_of_ge hancho hb, ponTablas_of_lt s _ p2 (by omega)]
    exact set_of_outside _ (.inl hlt)
  have hlee : ∀ p, 12 ≤ p → p + 4 ≤ 24 →
      P.lee (cambiada P m) p 4 = P.lee (ponCabecera s) p 4 := by
    intro p hp hlt
    exact congrArg UInt32.ofNat (word_congr _ fun b hb hb' ↦ hcabecera b (by omega) (by omega))
  obtain ⟨hlen, hlenUsed, hpos⟩ := lee_ponCabecera (s := s) hancho
  have hfirma : firmaLeida P (cambiada P m) s.lenUsed = ⟨P.lee m 0 4, P.lee m 4 4⟩ := by
    rw [hhi, hlo]
    refine firmaLeida_eq hancho hused ?_ fun b hb ↦ ?_
    · rw [cambiada, P.lee_pon, hversion]
    · rw [cambiada_of_ge hb, hm, ponFirma_of_ge hancho hb]
  have hbajo : P.lee (cambiada P m) 0 4 = P.lee m 0 4 ∧ P.lee (cambiada P m) 4 4 = P.lee m 4 4 :=
    ⟨P.lee_pon_of_disjoint _ (by omega), P.lee_pon_of_disjoint _ (by omega)⟩
  constructor
  · simp only [vale, hlee 16 (by omega) (by omega), hlee 12 (by omega) (by omega), hlen, hlenUsed,
      hused, hversion, hfirma, hbajo.1, hbajo.2, decide_true, Bool.true_and, Bool.and_true]
  · rw [hlee 20 (by omega) (by omega), hpos]

/-- The reader finds the copy of the file of hashes, and behind it what was there before. -/
theorem hashesIguales_escrita {f : List UInt8} (hancho : P.ancho = .cuatro) (hf : d.hashes = some f)
    (hp2 : p2 = 24 + 4 * (((f.take 65535).length + 4 - 1) / 4))
    (hm : m = ponFirma s (ponTablas s (copiada s f) p2)) :
    hashesIguales d (cambiada P m) = true ↔
      f.length = HASH_FILE_SIZE ∧ (s.mem 414 = 0 ∨ 0 ∈ f) := by
  have hsize : HASH_FILE_SIZE = 390 := rfl
  have hbajo (hlen : f.length = HASH_FILE_SIZE) :
      ∀ b, 24 ≤ b → b < 416 → cambiada P m b = (ponCabecera s).set 24 f b := by
    intro b hb hlt
    have htake : f.take 65535 = f := List.take_of_length_le (by omega)
    have hp2 : p2 = 416 := by rw [hp2, htake, hlen, hsize]
    rw [cambiada_of_ge (by omega), hm, ponFirma_of_ge hancho (by omega),
      ponTablas_of_lt s _ p2 (by omega), copiada, htake]
  have hget : ∀ g, d.hashes = some g → g.length = HASH_FILE_SIZE →
      (cambiada P m).get 24 HASH_FILE_SIZE = g := by
    intro g hg hlen
    obtain rfl : f = g := by simpa [hf] using hg
    rw [get_congr fun b hb hlt ↦ hbajo hlen b hb (by omega)]
    exact get_set_of_length _ _ hlen
  have hfin (hlen : f.length = HASH_FILE_SIZE) : cambiada P m 414 = s.mem 414 := by
    rw [hbajo hlen 414 (by omega) (by omega), set_of_outside _ (.inr (by omega)),
      ponCabecera_of_ge hancho (by omega)]
  rw [hashesIguales_iff hget]
  simp only [hf, Option.some.injEq, exists_eq_left']
  exact and_congr_right fun hlen ↦ by rw [hfin hlen]

/-! ## The reader -/

theorem valenTablas_congr {m' : Memory} {pos : ℕ} (h : ∀ b, posResidente ≤ b → m b = m' b) :
    valenTablas d pos m = valenTablas d pos m' := by
  have hpos := P.le_persistentAlign (pos + (posResidente + 4 * DB_MAX_TABLA))
  have hresidente (i : ℕ) :
      P.lee m (posResidente + 4 * i) 4 = P.lee m' (posResidente + 4 * i) 4 :=
    congrArg UInt32.ofNat (word_congr _ fun b hb _ ↦ h b (by omega))
  have hstats (i : ℕ) : m.get (posStats P pos + P.tamStat * i) P.tamStat =
      m'.get (posStats P pos + P.tamStat * i) P.tamStat := by
    apply get_congr
    intro b hb _
    apply h
    unfold posStats at hb
    omega
  simp only [valenTablas, hresidente, hstats]

theorem cargaTablas_congr {m' : Memory} {p : ℕ} (h : ∀ b, p ≤ b → m b = m' b) :
    cargaTablas P m p = cargaTablas P m' p := by
  have hcopia (q n : ℕ) (hq : p ≤ q) : copia m q n = copia m' q n :=
    Arreglo.ext (get_congr fun b hb _ ↦ h b (by omega))
  simp (disch := omega) only [cargaTablas, hcopia]

/-- The reader accepts nothing that does not pass the first checks. -/
theorem vale_of_hit {mmap : ℕ → Option ℕ} {l : Lectura P} (hl : mmapCache d mmap m = some l)
    (hhit : l.hit = true) : vale d (cambiada P m) (P.lee m 8 4) = true := by
  unfold mmapCache at hl
  obtain ⟨⟨pos, concedida⟩, _, hl⟩ := Option.bind_eq_some_iff.mp hl
  dsimp only at hl
  split at hl
  · cases hl
  · obtain rfl := Option.some.inj hl
    simp only [Bool.and_eq_true] at hhit
    exact hhit.1.1

/-- What the reader does when the first checks pass and the address is granted. -/
theorem mmapCache_of_vale {mmap : ℕ → Option ℕ} {pos : ℕ}
    (hvale : vale d (cambiada P m) (P.lee m 8 4) = true)
    (hpos : (P.lee (cambiada P m) 20 4).toNat = pos) (hmmap : mmap pos = some pos)
    (hstat : ∀ i < DB_MAX_TABLA, enFichero i = true → d.stat i ≠ none)
    (htablas : valenTablas d pos (cambiada P m) = true) :
    ∃ l, mmapCache d mmap m = some l ∧ l.hit = true ∧
      l.tablas = cargaTablas P (cambiada P m) (posTablas P pos) ∧
      l.gestor = posTablas P pos + (16 * DB_MAX_TABLA + P.w * DB_MAX_TABLA) := by
  have hno : ((List.range DB_MAX_TABLA).any fun i ↦ enFichero i && d.stat i = none) = false := by
    simp only [List.any_eq_false, List.mem_range, Bool.and_eq_true, decide_eq_true_eq, not_and]
    exact hstat
  subst hpos
  unfold mmapCache
  rw [cambiada] at *
  simp only [hvale, if_true, segundoMmap, hmmap, Option.bind_some, hno, Bool.false_eq_true,
    if_false, decide_true, Bool.or_true, Bool.true_and, htablas]
  exact ⟨_, rfl, rfl, rfl, rfl⟩

end Cuatro

/-! ## Words of 8 bytes -/

section Ocho

variable {s : Estado P} {d : Disco P} {m : Memory}

/-- The lengths of the tables are even, so that the version is a product of odd numbers and of a
small power of 2. -/
theorem mmapCacheVersion_ne_zero (hw : P.w = 8) : P.mmapCacheVersion ≠ 0 := by
  unfold Plataforma.mmapCacheVersion DB_MAX_TABLA
  rw [hw]
  decide +kernel

/-- The reader takes a half of a word of the writer for the length or for the version, and that half
is 0. -/
theorem vale_ponFirma_ocho (hancho : P.ancho = .ocho) :
    vale d (cambiada P (ponFirma s m)) (P.lee (ponFirma s m) 8 4) = false := by
  have hw : P.w = 8 := by
    rw [Plataforma.w, hancho]
    rfl
  have halto (v : UInt32) : v.toNat / 256 ^ 4 = 0 := Nat.div_eq_of_lt v.toNat_lt
  have hlen : P.len ≠ 0 := by
    have := P.mmapSize_pos
    unfold Plataforma.len
    omega
  cases horden : P.orden with
  | little =>
      have hcero : P.lee (cambiada P (ponFirma s m)) 12 4 = 0 := by
        rw [cambiada, P.lee_pon_of_disjoint _ (by omega), ponFirma, hw,
          P.lee_pon_of_disjoint _ (by omega), Plataforma.lee, Plataforma.pon, horden,
          word_little_setWord _ 8 4 4, halto]
        rfl
      have hne : ¬0 = P.len := hlen.symm
      simp [vale, hcero, hne]
  | big =>
      have hcero : P.lee (ponFirma s m) 8 4 = 0 := by
        rw [ponFirma, hw, P.lee_pon_of_disjoint _ (by omega), Plataforma.lee, Plataforma.pon,
          horden, word_big_setWord _ 8 4 4, halto]
        rfl
      have hne : ¬0 = P.mmapCacheVersion := (mmapCacheVersion_ne_zero hw).symm
      simp [vale, hcero, hne]

end Ocho

/-! ## The cache -/

section Restaura

variable {d : Disco P} {s : Estado P} {m : Memory} {mmap : ℕ → Option ℕ}

/-- The reader accepts the cache `m` and loads the tables of `s` from it, and behind the tables the
writer has left the cache as it was. -/
def Restaura (d : Disco P) (mmap : ℕ → Option ℕ) (s : Estado P) (m : Memory) : Prop :=
  ∃ l, mmapCache d mmap m = some l ∧ l.hit = true ∧ l.tablas = s.tablas ∧
    ∀ x, l.gestor ≤ x → m x = s.mem x

/-- The words of the writer are those of the reader, and its comparison of the file of hashes comes
to an end that is equal. -/
def Legible (d : Disco P) (s : Estado P) : Prop :=
  P.ancho = .cuatro ∧
    ∃ f, d.hashes = some f ∧ f.length = HASH_FILE_SIZE ∧ (s.mem 414 = 0 ∨ 0 ∈ f)

/-- What the writer leaves on a platform with words of 4 bytes. -/
theorem hecho_cuatro (hancho : P.ancho = .cuatro) (hm : dbPersistentCommit d s = .hecho m) :
    sinCambios d s = true ∧ s.lenUsed % 8 = 0 ∧ ∃ f, d.hashes = some f ∧
      m = ponFirma s (ponTablas s (copiada s f)
        (24 + 4 * (((f.take 65535).length + 4 - 1) / 4))) := by
  obtain ⟨_, hficheros, hused, f, hf, _, hm⟩ := hecho_iff.mp hm
  rw [w_of_cuatro hancho] at hm
  exact ⟨hficheros, hused, f, hf, hm.symm⟩

/-- The tables are where the reader expects them when the file of hashes has the length that it
expects. -/
theorem restaura_escrita {f : List UInt8} (hancho : P.ancho = .cuatro)
    (hficheros : sinCambios d s = true) (hlen : f.length = HASH_FILE_SIZE)
    (hm : m = ponFirma s (ponTablas s (copiada s f) posResidente)) :
    valenTablas d s.pos (cambiada P m) = true ∧
      cargaTablas P (cambiada P m) (posTablas P s.pos) = s.tablas ∧
      ∀ x, posTablas P s.pos + (16 * DB_MAX_TABLA + P.w * DB_MAX_TABLA) ≤ x → m x = s.mem x := by
  have hsize : HASH_FILE_SIZE = 390 := rfl
  have hresidente : posResidente = 416 := rfl
  have hstats := le_posStatsEscrita s posResidente
  have hpos : posTablas P s.pos = posStatsEscrita s posResidente + P.tamStat * DB_MAX_TABLA := rfl
  have hsame : ∀ b, posResidente ≤ b →
      cambiada P m b = ponTablas s (copiada s f) posResidente b := by
    intro b hb
    rw [cambiada_of_ge (by omega), hm, ponFirma_of_ge hancho (by omega)]
  refine ⟨?_, ?_, fun x hx ↦ ?_⟩
  · rw [valenTablas_congr hsame]
    simp only [valenTablas, Bool.and_eq_true, List.all_eq_true, List.mem_range, decide_eq_true_eq,
      Bool.or_eq_true, Bool.not_eq_true']
    refine ⟨fun i hi ↦ lee_residente s _ _ hi, fun i hi ↦ ?_⟩
    rw [or_iff_not_imp_left, Bool.not_eq_false]
    intro hfichero
    have hget := get_stats s (copiada s f) posResidente hi
    rw [sinCambios_iff.mp hficheros i hi hfichero, Option.map_some]
    exact congrArg some hget.symm
  · rw [cargaTablas_congr fun b hb ↦ hsame b (by omega), hpos, carga_ponTablas]
  · have htake : (f.take 65535).length ≤ 390 := by
      rw [List.length_take]
      omega
    rw [hm, ponFirma_of_ge hancho (by omega), ponTablas_of_ge s _ _ (by omega), copiada,
      set_of_outside _ (.inr (by omega)), ponCabecera_of_ge hancho (by omega)]

theorem not_restaura_ocho (hancho : P.ancho = .ocho) (hm : dbPersistentCommit d s = .hecho m) :
    ¬Restaura d mmap s m := by
  rintro ⟨l, hl, hhit, _⟩
  obtain ⟨_, _, _, _, _, _, rfl⟩ := hecho_iff.mp hm
  have hvale := vale_of_hit hl hhit
  rw [vale_ponFirma_ocho hancho] at hvale
  cases hvale

/-- **The persistent cache.** After a commit that came to its end, with the files as they were and
the address granted, the reader accepts the cache and restores the tables exactly when `uintptr_t`
has the 4 bytes of `unsigned int`, the file of hashes has 390 bytes, and a byte 0 is behind its copy
or in it. -/
theorem mmapCache_restaura (hm : dbPersistentCommit d s = .hecho m)
    (hmmap : mmap s.pos = some s.pos) : Restaura d mmap s m ↔ Legible d s := by
  cases hancho : P.ancho with
  | cuatro =>
      obtain ⟨hficheros, hused, f, hf, hm⟩ := hecho_cuatro hancho hm
      obtain ⟨hvale, hpos⟩ := vale_iff (d := d) hancho hused (Nat.le_add_right 24 _) hm
      rw [hashesIguales_escrita hancho hf rfl hm] at hvale
      have hlegible : Legible d s ↔ f.length = HASH_FILE_SIZE ∧ (s.mem 414 = 0 ∨ 0 ∈ f) := by
        simp only [Legible, hancho, hf, Option.some.injEq, exists_eq_left', true_and]
      rw [hlegible]
      constructor
      · rintro ⟨l, hl, hhit, _⟩
        exact hvale.mp (vale_of_hit hl hhit)
      · intro hcond
        have hsize : HASH_FILE_SIZE = 390 := rfl
        have htake : f.take 65535 = f := List.take_of_length_le (by omega)
        have hp2 : 24 + 4 * (((f.take 65535).length + 4 - 1) / 4) = posResidente := by
          rw [htake, hcond.1]
          rfl
        rw [hp2] at hm
        obtain ⟨htablas, hcarga, hdentro⟩ := restaura_escrita hancho hficheros hcond.1 hm
        have hstat : ∀ i < DB_MAX_TABLA, enFichero i = true → d.stat i ≠ none := by
          intro i hi hfichero
          rw [sinCambios_iff.mp hficheros i hi hfichero]
          exact Option.some_ne_none _
        obtain ⟨l, hl, hhit, hleidas, hgestor⟩ :=
          mmapCache_of_vale (hvale.mpr hcond) hpos hmmap hstat htablas
        refine ⟨l, hl, hhit, hleidas.trans hcarga, fun x hx ↦ hdentro x ?_⟩
        rwa [hgestor] at hx
  | ocho =>
      have hnot : ¬Legible d s := fun h ↦ by simp [Legible, hancho] at h
      exact iff_of_false (not_restaura_ocho hancho hm) hnot

/-- A little-endian machine with a cache of 1 MB. -/
def maquina (a : Ancho) : Plataforma where
  ancho := a
  orden := .little
  tamStat := 24
  mmapSize := 1
  mmapSize_pos := by decide
  mmapSize_lt := by decide

/-- Empty tables in a cache that lies at 1 MB and uses 64 KB. -/
def vacio (a : Ancho) : Estado (maquina a) where
  tablas := cargaTablas (maquina a) (fun _ ↦ 0) 0
  stats := fun _ ↦ Objeto.cero _
  mem := fun _ ↦ 0
  pos := 1024 * 1024
  top := 1024 * 1024 + 65536
  pos_le := by decide
  top_lt := by cases a <;> decide

/-- The line of a table in the file of hashes. -/
def lineaHash (i : ℕ) : List UInt8 :=
  UInt8.ofNat ('a'.toNat + i) :: 32 :: List.replicate 12 65 ++ [10]

/-- The files of the empty tables. -/
def discoVacio (a : Ancho) : Disco (maquina a) where
  hashes := some (elems lineaHash 26)
  stat := fun _ ↦ some (Objeto.cero _)

theorem length_hashes : (elems lineaHash 26).length = HASH_FILE_SIZE :=
  length_elems (fun i ↦ show (lineaHash i).length = 15 from rfl) 26

/-- The commit comes to its end. -/
theorem hecho_hashes {a : Ancho} {s : Estado (maquina a)} {d : Disco (maquina a)}
    (hhashes : d.hashes = some (elems lineaHash 26)) (hstat : ∀ i, d.stat i = some (s.stats i))
    (hpos : s.pos ≠ 0) (hused : s.lenUsed % 8 = 0) :
    ∃ m, dbPersistentCommit d s = .hecho m := by
  have hne : elems lineaHash 26 ≠ [] :=
    List.ne_nil_of_length_pos (by rw [length_hashes]; decide)
  have hficheros : sinCambios d s = true := sinCambios_iff.mpr fun i _ _ ↦ hstat i
  exact ⟨_, hecho_iff.mpr ⟨hpos, hficheros, hused, _, hhashes, hne, rfl⟩⟩

/-- The cache of a server with records: all bytes but those of the first 8 KB are in use. -/
def bytesLlenos : Memory :=
  fun x ↦ if x < 8192 then 0 else UInt8.ofNat (x / 8 + 1)

/-- Tables with records in such a cache. -/
def lleno : Estado (maquina .cuatro) where
  tablas := cargaTablas (maquina .cuatro) bytesLlenos 8192
  stats := fun i ↦ ⟨bytesLlenos.get (16384 + 24 * i) 24, length_get _ _ _⟩
  mem := bytesLlenos
  pos := 1024 * 1024
  top := 1024 * 1024 + 65536
  pos_le := by decide
  top_lt := by decide

/-- The files of the tables with records. -/
def discoLleno : Disco (maquina .cuatro) where
  hashes := some (elems lineaHash 26)
  stat := fun i ↦ some (lleno.stats i)

/-- A server with records is restored. -/
theorem mmapCache_restaura_lleno :
    ∃ m, dbPersistentCommit discoLleno lleno = .hecho m ∧ Restaura discoLleno some lleno m := by
  have hpos : lleno.pos ≠ 0 := by
    show 1024 * 1024 ≠ 0
    decide
  have hused : lleno.lenUsed % 8 = 0 := by
    show (1024 * 1024 + 65536 - 1024 * 1024) % 2 ^ 32 % 8 = 0
    decide
  have hcero : lleno.mem 414 = 0 := by
    show bytesLlenos 414 = 0
    decide
  obtain ⟨m, hm⟩ := hecho_hashes (d := discoLleno) rfl (fun _ ↦ rfl) hpos hused
  exact ⟨m, hm, (mmapCache_restaura hm rfl).mpr ⟨rfl, _, rfl, length_hashes, .inl hcero⟩⟩

/-- With a `uintptr_t` of 8 bytes, empty tables and an address below 4 GB, the reader does not take
the cache that was written. -/
theorem mmapCache_no_restaura :
    ∃ m, dbPersistentCommit (discoVacio .ocho) (vacio .ocho) = .hecho m ∧
      ¬Restaura (discoVacio .ocho) some (vacio .ocho) m := by
  have hpos : (vacio .ocho).pos ≠ 0 := by
    show 1024 * 1024 ≠ 0
    decide
  have hused : (vacio .ocho).lenUsed % 8 = 0 := by
    show (1024 * 1024 + 65536 - 1024 * 1024) % 2 ^ 32 % 8 = 0
    decide
  obtain ⟨m, hm⟩ := hecho_hashes (d := discoVacio .ocho) rfl (fun _ ↦ rfl) hpos hused
  exact ⟨m, hm, not_restaura_ocho rfl hm⟩

end Restaura

end Ircd.Bdd.Cache
