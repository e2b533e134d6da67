import Ircd.Mask.Address
import Ircd.Mask.Overrun

/-!
# Compiled masks of addresses and the texts of addresses

Whether `matchcompIP` accepts the addresses whose dotted texts `match` accepts. A text that matches
begins with the part of the mask in front of its first wildcard (`Encabeza`), from which the octets
of the mask are read. `conforme_iff` names the two kinds of masks for which the answers differ:
those that are compiled without the comparison of texts although a backslash is skipped or an octet
is empty, and those that are rejected although a search of `match` runs over the end of some text.
-/

namespace Ircd

open CString
open Wildcard

namespace Match.Ip

variable {mask m s : CStr} {c d : Char} {addr : BitVec 32}

/-! ## Masks without escapes -/

/-- The token of a character that is not escaped. -/
def ficha (c : Char) : Token Char :=
  if c = '*' then .star else if c = '?' then .one else .lit c

theorem ficha_lit (h : isWild c = false) : ficha c = .lit c := by
  rw [isWild, decide_eq_false_iff_not, not_or] at h
  rw [ficha, if_neg h.1, if_neg h.2]

/-- Each backslash that is skipped stands for itself. -/
theorem tokens_of_saltadas (h : Saltadas mask) : tokens mask = mask.map ficha := by
  induction mask with
  | nil => rfl
  | cons c m ih =>
      have htail := ih h.2
      by_cases hwild : isWild c = true
      · rw [isWild, decide_eq_true_iff] at hwild
        rcases hwild with rfl | rfl
        · exact congrArg (Token.star :: ·) htail
        · exact congrArg (Token.one :: ·) htail
      · have hlit : Literal (c :: m) c m := by
          refine .plain (Bool.eq_false_iff.mpr hwild) fun hc e he ↦ ?_
          obtain ⟨d, hd, -, hplain⟩ := h.1 hc
          obtain rfl : e = d := Option.some.inj (he.symm.trans hd)
          exact hplain
        rw [hlit.tokens_eq, List.map_cons, ficha_lit (Bool.eq_false_iff.mpr hwild), htail]

/-- A character that is neither a wildcard nor a backslash stands for itself. -/
theorem lit_mem_tokens (hmem : c ∈ mask) (hwild : isWild c = false) (hback : c ≠ '\\') :
    .lit c ∈ tokens mask := by
  induction mask using mask_induction with
  | nil => cases hmem
  | star m ih | quest m ih =>
      rcases List.mem_cons.mp hmem with rfl | hmem
      · cases hwild
      · exact List.mem_cons_of_mem _ (ih hmem)
  | lit m e r hlit ih =>
      rw [hlit.tokens_eq]
      cases hlit with
      | escape he =>
          rcases List.mem_cons.mp hmem with rfl | hmem
          · exact absurd rfl hback
          rcases List.mem_cons.mp hmem with rfl | hmem
          · exact List.mem_cons_self
          · exact List.mem_cons_of_mem _ (ih hmem)
      | plain _ _ =>
          rcases List.mem_cons.mp hmem with rfl | hmem
          · exact List.mem_cons_self
          · exact List.mem_cons_of_mem _ (ih hmem)

/-- A backslash stands for itself or for the wildcard behind it. -/
theorem exists_lit_of_backslash (hmem : '\\' ∈ mask) :
    ∃ c, .lit c ∈ tokens mask ∧ (c = '\\' ∨ isWild c = true) := by
  induction mask using mask_induction with
  | nil => cases hmem
  | star m ih | quest m ih =>
      obtain ⟨c, hc, hkind⟩ := ih (List.mem_of_ne_of_mem (by decide) hmem)
      exact ⟨c, List.mem_cons_of_mem _ hc, hkind⟩
  | lit m e r hlit ih =>
      rw [hlit.tokens_eq]
      cases hlit with
      | escape he => exact ⟨e, List.mem_cons_self, .inr he⟩
      | plain _ _ =>
          rcases List.mem_cons.mp hmem with rfl | hmem
          · exact ⟨'\\', List.mem_cons_self, .inl rfl⟩
          · obtain ⟨c, hc, hkind⟩ := ih hmem
            exact ⟨c, List.mem_cons_of_mem _ hc, hkind⟩

/-! ## Texts of digits and dots -/

/-- Digits and dots. -/
def Punteado (s : CStr) : Prop :=
  ∀ c ∈ s, c.isDigit = true ∨ c = '.'

/-- A digit or a dot is equal to no other character up to case. -/
theorem eq_of_toLower (hd : d.isDigit = true ∨ d = '.') (h : toLower d = toLower c) : d = c := by
  have hcode : d.toNat ≤ 57 := by
    rcases hd with hd | rfl
    · simp only [Char.isDigit, Bool.and_eq_true, decide_eq_true_eq, UInt32.le_iff_toNat_le] at hd
      exact hd.2
    · decide
  have hself : toLower d = d := by
    rw [toLower, if_neg]
    simp only [isUpperCode, decide_eq_true_eq]
    omega
  exact ((toLower_eq_iff hself (by omega)).mp (h.symm.trans hself)).symm

/-- Each literal of the mask is found in the text. -/
theorem mem_of_lit {t : List (Token Char)} (hs : Punteado s) (h : s ∈ lang toLower t)
    (hlit : .lit c ∈ t) : c.isDigit = true ∨ c = '.' := by
  obtain ⟨p, q, rfl⟩ := List.mem_iff_append.mp hlit
  obtain ⟨y, -, z, hz, rfl⟩ := mem_append.mp h
  cases z with
  | nil => exact absurd hz nil_mem_lit.mp
  | cons d z =>
      have hd := hs d (by simp)
      rwa [← eq_of_toLower hd (cons_mem_lit.mp hz).1]

/-- There is no backslash in a mask that a text of digits and dots matches. -/
theorem not_mem_backslash (hs : Punteado s) (h : s ∈ lang toLower (tokens mask)) :
    '\\' ∉ mask := by
  intro hmem
  obtain ⟨c, hlit, hkind⟩ := exists_lit_of_backslash hmem
  rcases mem_of_lit hs h hlit with hc | rfl
  · rcases hkind with rfl | hwild
    · exact absurd hc (by decide)
    · exact absurd (isWild_of_isDigit hc) (by rw [hwild]; decide)
  · exact absurd hkind (by decide)

/-- The mask has no more dots than the text. -/
theorem count_le (hs : Punteado s) (h : s ∈ lang toLower (mask.map ficha)) :
    mask.count '.' ≤ s.count '.' := by
  induction mask generalizing s with
  | nil => simp
  | cons c m ih =>
      by_cases hwild : isWild c = true
      · have hdot : c ≠ '.' := fun heq ↦ absurd hwild (by rw [heq]; decide)
        have hrest : ∃ z, z <:+ s ∧ z ∈ lang toLower (m.map ficha) := by
          rw [isWild, decide_eq_true_iff] at hwild
          rcases hwild with rfl | rfl
          · exact mem_star.mp h
          · cases s with
            | nil => exact absurd h nil_mem_one.mp
            | cons d s => exact ⟨s, List.suffix_cons d s, cons_mem_one.mp h⟩
        obtain ⟨z, hz, hmem⟩ := hrest
        rw [List.count_cons_of_ne hdot]
        exact (ih (fun d hd ↦ hs d (hz.subset hd)) hmem).trans (hz.sublist.count_le _)
      · rw [List.map_cons, ficha_lit (Bool.eq_false_iff.mpr hwild)] at h
        cases s with
        | nil => exact absurd h nil_mem_lit.mp
        | cons d s =>
            obtain ⟨hd, hmem⟩ := cons_mem_lit.mp h
            obtain rfl := eq_of_toLower (hs d List.mem_cons_self) hd
            have hle := ih (fun e he ↦ hs e (List.mem_cons_of_mem _ he)) hmem
            rw [List.count_cons, List.count_cons]
            omega

/-- The text begins with the part of the mask in front of its first wildcard, and ends there if the
mask does. -/
structure Encabeza (mask s : CStr) : Prop where
  front : cabeza mask <+: s
  eq : cola mask = [] → cabeza mask = s

/-- A text that matches the mask up to its first star begins like it. -/
theorem encabeza_of_mem (hs : Punteado s) (h : s ∈ lang toLower (upToStar (mask.map ficha))) :
    Encabeza mask s := by
  induction mask generalizing s with
  | nil => exact ⟨List.nil_prefix, fun _ ↦ (mem_nil.mp h).symm⟩
  | cons c m ih =>
      by_cases hwild : isWild c = true
      · refine ⟨by rw [cabeza_wild hwild]; exact List.nil_prefix, fun hcola ↦ ?_⟩
        rw [cola_wild hwild] at hcola
        cases hcola
      · have hplain := Bool.eq_false_iff.mpr hwild
        rw [List.map_cons, ficha_lit hplain] at h
        cases s with
        | nil => exact absurd h nil_mem_lit.mp
        | cons d s =>
            obtain ⟨hd, hmem⟩ := cons_mem_lit.mp h
            obtain rfl := eq_of_toLower (hs d List.mem_cons_self) hd
            obtain ⟨hfront, heq⟩ := ih (fun e he ↦ hs e (List.mem_cons_of_mem _ he)) hmem
            refine ⟨?_, fun hcola ↦ ?_⟩
            · rw [cabeza_cons hplain]
              exact (List.prefix_cons_inj d).mpr hfront
            · rw [cola_cons hplain] at hcola
              rw [cabeza_cons hplain, heq hcola]

/-! ## Texts of addresses -/

/-- The address begins with the octets in front of the first wildcard, an empty one being a zero. -/
def Empieza (mask : CStr) (addr : BitVec 32) : Prop :=
  (Addr.octetosIp addr).take ((completas [] mask).map valor).length = (completas [] mask).map valor

/-- The text of an address is digits and dots. -/
theorem punteado_textoIp (addr : BitVec 32) : Punteado (Addr.textoIp addr) :=
  fun _ hc ↦ Addr.mem_textoIp hc

/-- The text of an address has no terminator inside. -/
theorem nul_not_mem_textoIp (addr : BitVec 32) : nul ∉ Addr.textoIp addr :=
  fun hmem ↦ absurd (Addr.mem_textoIp hmem) (by decide)

theorem valor_decimal (n : Nat) : valor (decimal n) = n :=
  Nat.ofDigitChars_ten_toDigits

/-- The text of a number below 256 is read as an octet. -/
theorem octeto_decimal {n : Nat} (h : n < 256) : Octeto (decimal n) :=
  ⟨Fields.canonical_decimal n, by rw [valor_decimal]; omega⟩

/-- What `match` accepts begins like the mask, even where it reads behind the text. -/
theorem encabeza_of_ircMatch (hmask : nul ∉ mask) (hsalt : Saltadas mask) {after : List Char}
    (h : ircMatch mask (memory (Addr.textoIp addr) after) = true) :
    Encabeza mask (Addr.textoIp addr) := by
  refine encabeza_of_mem (punteado_textoIp addr) ?_
  rw [← tokens_of_saltadas hsalt]
  by_cases hover : Overruns toLower (tokens mask) (Addr.textoIp addr)
  · exact (mem_upToStar_of_overrunsFrom not_behindStar_nil (overruns_iff.mp hover)).1
  · obtain ⟨b, -, hb, hmemory⟩ :=
      exact_of_not_overruns hmask (nul_not_mem_textoIp addr) hover
    exact mem_upToStar (hb.mp ((hmemory after).symm.trans h))

/-- The fields of a mask without backslashes in front of its first wildcard. -/
theorem partes_of_not_mem (h : '\\' ∉ cabeza mask) :
    partes [] mask = (cabeza mask).splitOn '.' := by
  have hfilter : (cabeza mask).filter (· ≠ '\\') = cabeza mask :=
    List.filter_eq_self.mpr fun c hc ↦ decide_eq_true fun heq ↦ h (heq ▸ hc)
  rw [partes, hfilter, List.nil_append]

/-- The text of an address does not begin with a backslash of the mask. -/
theorem Encabeza.not_mem (h : Encabeza mask (Addr.textoIp addr)) : '\\' ∉ cabeza mask :=
  fun hmem ↦ absurd (Addr.mem_textoIp (h.front.subset hmem)) (by decide)

/-- The fields of a mask that the text of an address begins with are the first octets of the
address, the last one perhaps not to its end. -/
theorem Encabeza.partes_append (h : Encabeza mask (Addr.textoIp addr)) :
    ∃ ps p q qs, partes [] mask = ps ++ [p] ∧
      (Addr.octetosIp addr).map decimal = ps ++ (p ++ q) :: qs := by
  obtain ⟨rest, hrest⟩ := h.front
  obtain ⟨ps, p, hp⟩ := Fields.exists_splitOn '.' (cabeza mask)
  obtain ⟨q, qs, hq⟩ := List.exists_cons_of_ne_nil (List.splitOn_ne_nil '.' rest)
  refine ⟨ps, p, q, qs, (partes_of_not_mem h.not_mem).trans hp, ?_⟩
  rw [← Addr.splitOn_textoIp, ← hrest]
  exact Fields.splitOn_append hp hq

/-- Each of these fields is an octet as far as it goes. -/
theorem Encabeza.octeto (h : Encabeza mask (Addr.textoIp addr)) {d : CStr}
    (hd : d ∈ partes [] mask) : Octeto d := by
  obtain ⟨ps, p, q, qs, hp, hall⟩ := h.partes_append
  have hoct : ∀ d ∈ ps ++ (p ++ q) :: qs, Octeto d := by
    intro d hd
    rw [← hall] at hd
    obtain ⟨n, hn, rfl⟩ := List.mem_map.mp hd
    exact octeto_decimal (Addr.fits_octetosIp addr n hn)
  rw [hp] at hd
  rcases List.mem_append.mp hd with hd | hd
  · exact hoct d (List.mem_append_left _ hd)
  · rw [List.mem_singleton.mp hd]
    exact (hoct (p ++ q) (by simp)).of_isPrefix (List.prefix_append p q)

/-- The fields that end before a wildcard are octets of the address. -/
theorem Encabeza.completas_eq (h : Encabeza mask (Addr.textoIp addr)) :
    completas [] mask =
      ((Addr.octetosIp addr).take (completas [] mask).length).map decimal := by
  rw [List.map_take]
  by_cases hcola : cola mask = []
  · have hall : completas [] mask = (Addr.octetosIp addr).map decimal := by
      rw [completas, if_pos hcola, partes_of_not_mem h.not_mem, h.eq hcola, Addr.splitOn_textoIp]
    rw [hall, List.length_map, ← List.length_map decimal, List.take_length]
  · obtain ⟨ps, p, q, qs, hp, hall⟩ := h.partes_append
    rw [completas, if_neg hcola, hp, List.dropLast_concat, hall, List.take_left]

/-- The octets of the mask are the first ones of the address. -/
theorem Encabeza.empieza (h : Encabeza mask (Addr.textoIp addr)) : Empieza mask addr := by
  have hvalor : ∀ os : List Nat, (os.map decimal).map valor = os := by
    intro os
    rw [List.map_map]
    exact List.map_id'' valor_decimal os
  have heq := congrArg (List.map valor) h.completas_eq
  rw [hvalor] at heq
  rw [Empieza, List.length_map]
  exact heq.symm

/-- A mask that matches the text of an address is compiled. -/
theorem compila_of_mem (h : Addr.textoIp addr ∈ lang toLower (tokens mask)) :
    Compila 0 [] mask := by
  have hs := punteado_textoIp addr
  have hback := not_mem_backslash hs h
  have hsalt := saltadas_of_not_mem hback
  have hficha := h
  rw [tokens_of_saltadas hsalt] at hficha
  have henc := encabeza_of_mem hs (mem_upToStar hficha)
  refine ⟨fun c hc ↦ ?_, fun hmem ↦ hback ?_, hsalt, fun d hd ↦ henc.octeto hd, ?_, fun hcola ↦ ?_⟩
  · by_cases hwild : isWild c = true
    · exact .inr (.inr (.inl hwild))
    · have hne : c ≠ '\\' := fun heq ↦ hback (heq ▸ hc)
      have hlit := mem_of_lit hs h (lit_mem_tokens hc (Bool.eq_false_iff.mpr hwild) hne)
      exact hlit.imp_right .inl
  · exact (List.dropWhile_suffix _).subset hmem
  · rw [Nat.zero_add, ← Addr.count_textoIp addr]
    exact count_le hs hficha
  · have hall : mask = cabeza mask := by
      have happend := List.takeWhile_append_dropWhile (p := fun c ↦ !isWild c) (l := mask)
      rw [show mask.dropWhile (fun c ↦ !isWild c) = [] from hcola, List.append_nil] at happend
      exact happend.symm
    rw [Nat.zero_add, hall, henc.eq hcola, Addr.count_textoIp]

/-! ## Masks without the comparison of texts -/

/-- In front of its first wildcard a mask matches its own characters. -/
theorem cabeza_append_mem {z : CStr} (h : z ∈ lang toLower ((cola mask).map ficha)) :
    cabeza mask ++ z ∈ lang toLower (mask.map ficha) := by
  induction mask with
  | nil => exact h
  | cons c m ih =>
      by_cases hwild : isWild c = true
      · rwa [cabeza_wild hwild, List.nil_append, ← cola_wild hwild]
      · have hplain := Bool.eq_false_iff.mpr hwild
        rw [cola_cons hplain] at h
        rw [cabeza_cons hplain, List.map_cons, ficha_lit hplain, List.cons_append]
        exact cons_mem_lit.mpr ⟨rfl, ih h⟩

/-- Stars with dots in front of them match each text that has as many dots. -/
theorem mem_of_limpia (h : limpia m = true) (hcount : m.count '.' ≤ s.count '.') :
    s ∈ lang toLower (.star :: m.map ficha) := by
  induction m generalizing s with
  | nil => exact mem_singleton_star
  | cons c m ih =>
      rw [limpia] at h
      by_cases hdot : c = '.'
      · subst hdot
        rw [if_pos rfl] at h
        obtain ⟨hhead, hm⟩ := (Bool.and_eq_true _ _).mp h
        obtain ⟨m, rfl⟩ : ∃ m', m = '*' :: m' := by
          cases m with
          | nil => cases hhead
          | cons d m =>
              rw [decide_eq_true_iff] at hhead
              exact ⟨m, by rw [Option.some.inj hhead]⟩
        rw [List.count_cons_self] at hcount
        have hpos : 0 < s.count '.' := by omega
        obtain ⟨y, z, rfl, hy⟩ := List.eq_append_cons_of_mem (List.count_pos_iff.mp hpos)
        rw [List.count_append, List.count_eq_zero.mpr hy, List.count_cons_self] at hcount
        have hz : z ∈ lang toLower (('*' :: m).map ficha) :=
          mem_star_star.mp (ih hm (by omega))
        exact mem_star.mpr ⟨'.' :: z, List.suffix_append _ _, cons_mem_lit.mpr ⟨rfl, hz⟩⟩
      · rw [if_neg hdot] at h
        obtain ⟨hstar, hm⟩ := (Bool.and_eq_true _ _).mp h
        obtain rfl := of_decide_eq_true hstar
        rw [List.count_cons_of_ne (by decide)] at hcount
        exact mem_star_star.mpr (ih hm hcount)

/-- No backslash is skipped, and no octet in front of the first wildcard is empty. -/
structure Buena (mask : CStr) : Prop where
  backslash : '\\' ∉ mask
  nonempty : [] ∉ completas [] mask

theorem completas_sublist : (completas [] mask).Sublist (partes [] mask) := by
  rw [completas]
  split
  · exact List.Sublist.refl _
  · exact List.dropLast_sublist _

/-- There are at most four octets. -/
theorem Compila.length_le (h : Compila 0 [] mask) : (completas [] mask).length ≤ 4 := by
  have hfilter : ((cabeza mask).filter (· ≠ '\\')).Sublist mask :=
    List.filter_sublist.trans (List.takeWhile_sublist _)
  have hcount := hfilter.count_le '.'
  have hdots := h.dots
  calc (completas [] mask).length
      ≤ (partes [] mask).length := completas_sublist.length_le
    _ = ((cabeza mask).filter (· ≠ '\\')).count '.' + 1 := by
        rw [partes, List.nil_append, Fields.length_splitOn]
    _ ≤ 4 := by omega

/-- The octets take eight bits each. -/
theorem Compila.fits (h : Compila 0 [] mask) : Words.Fits 8 ((completas [] mask).map valor) := by
  intro x hx
  obtain ⟨d, hd, rfl⟩ := List.mem_map.mp hx
  exact Nat.lt_succ_of_le (h.octetos d (completas_sublist.subset hd)).valor

/-- Fields that are not empty are the texts of their octets. -/
theorem Compila.map_decimal (h : Compila 0 [] mask) (hne : [] ∉ completas [] mask) :
    ((completas [] mask).map valor).map decimal = completas [] mask := by
  have hfield : ∀ d ∈ completas [] mask, (decimal ∘ valor) d = id d := by
    intro d hd
    have hoct := h.octetos d (completas_sublist.subset hd)
    exact Fields.decimal_ofDigitChars hoct.canonical fun heq ↦ hne (heq ▸ hd)
  rw [List.map_map, List.map_congr_left hfield, List.map_id]

/-- The text of an address behind its first octets and their dots. -/
theorem exists_cola (addr : BitVec 32) {k : Nat} (hk : k ≤ 3) :
    ∃ t : CStr, t.splitOn '.' = ((Addr.octetosIp addr).drop k).map decimal := by
  refine ⟨['.'].intercalate (((Addr.octetosIp addr).drop k).map decimal),
    List.splitOn_intercalate '.' (fun d hd ↦ ?_) fun hnil ↦ ?_⟩
  · obtain ⟨n, -, rfl⟩ := List.mem_map.mp hd
    exact not_mem_decimal (by decide)
  · have hlen := congrArg List.length hnil
    rw [List.length_map, List.length_drop, Addr.length_octetosIp, List.length_nil] at hlen
    omega

/-- Stars with dots in front of them, from the first wildcard on. -/
theorem mem_of_cola (hne : cola mask ≠ []) (h : limpia (cola mask) = true)
    (hcount : (cola mask).count '.' ≤ s.count '.') : s ∈ lang toLower ((cola mask).map ficha) := by
  obtain ⟨c, m, hm⟩ := List.exists_cons_of_ne_nil hne
  have hwild : isWild c = true := by
    have hhead := List.head?_dropWhile_not (fun c ↦ !isWild c) mask
    rw [show mask.dropWhile (fun c ↦ !isWild c) = c :: m from hm] at hhead
    simpa using hhead
  have hdot : c ≠ '.' := fun heq ↦ absurd hwild (by rw [heq]; decide)
  rw [hm] at h hcount ⊢
  rw [limpia, if_neg hdot] at h
  obtain ⟨hstar, hlimpia⟩ := (Bool.and_eq_true _ _).mp h
  obtain rfl := of_decide_eq_true hstar
  rw [List.count_cons_of_ne (by decide)] at hcount
  exact mem_of_limpia hlimpia hcount

/-- A mask is its part in front of the first wildcard and what follows it. -/
theorem cabeza_append_cola (mask : CStr) : cabeza mask ++ cola mask = mask :=
  List.takeWhile_append_dropWhile

/-- Where no octet is empty and no backslash is skipped, the mask matches the texts of all addresses
that begin with its octets. -/
theorem mem_of_directa (h : Compila 0 [] mask) (hdirecta : Directa [] mask) (hbuena : Buena mask)
    (hempieza : Empieza mask addr) : Addr.textoIp addr ∈ lang toLower (tokens mask) := by
  have hmask := cabeza_append_cola mask
  have hback : '\\' ∉ cabeza mask := fun hmem ↦
    hbuena.backslash (hmask ▸ List.mem_append_left _ hmem)
  have hpartes := partes_of_not_mem hback
  have hcount : (cabeza mask).count '.' + (cola mask).count '.' = mask.count '.' := by
    rw [← List.count_append, hmask]
  have hlen : (partes [] mask).length = (cabeza mask).count '.' + 1 := by
    rw [hpartes, Fields.length_splitOn]
  have htexto := congrArg (List.map decimal) hempieza
  rw [h.map_decimal hbuena.nonempty, List.length_map] at htexto
  rw [tokens_of_saltadas h.saltadas]
  by_cases hcola : cola mask = []
  · -- the mask is the text of the address
    have hfull := h.full hcola
    rw [hcola, List.count_nil] at hcount
    have hfour : (Addr.octetosIp addr).length ≤ (partes [] mask).length := by
      rw [Addr.length_octetosIp, hlen]
      omega
    rw [completas, if_pos hcola, List.take_of_length_le hfour, hpartes,
      ← Addr.splitOn_textoIp] at htexto
    rw [Fields.eq_of_splitOn htexto, ← List.append_nil (cabeza mask)]
    exact cabeza_append_mem (by rw [hcola]; exact mem_nil.mpr rfl)
  · -- the text goes on behind the mask up to its first star
    obtain ⟨hlast, hlimpia⟩ := hdirecta.resolve_left hcola
    have hfields : (cabeza mask).splitOn '.' = completas [] mask ++ [[]] := by
      rw [completas, if_neg hcola, ← hpartes]
      exact (List.dropLast_append_getLast? [] hlast).symm
    have hdots := h.dots
    have hshort : (completas [] mask).length ≤ 3 := by
      have hall := congrArg List.length hfields
      rw [Fields.length_splitOn, List.length_append, List.length_singleton] at hall
      omega
    obtain ⟨t, ht⟩ := exists_cola addr hshort
    have htext : cabeza mask ++ t = Addr.textoIp addr := by
      obtain ⟨q, qs, hq⟩ := List.exists_cons_of_ne_nil (List.splitOn_ne_nil '.' t)
      refine Fields.eq_of_splitOn (a := '.') ?_
      rw [Fields.splitOn_append hfields hq, List.nil_append, ← hq, ht, Addr.splitOn_textoIp]
      nth_rewrite 1 [← htexto]
      rw [← List.map_append, List.take_append_drop]
    have hdot : (cola mask).count '.' ≤ t.count '.' := by
      have hthree := Addr.count_textoIp addr
      rw [← htext, List.count_append] at hthree
      omega
    rw [← htext]
    exact cabeza_append_mem (mem_of_cola hcola hlimpia hdot)

/-! ## Both answers -/

/-- The test with the compiled mask has the answer of `match`, whatever follows the text of the
address in memory. -/
def Conforme (mask : CStr) (addr : BitVec 32) : Prop :=
  ∀ after, (matchcompIP mask).acepta addr (ircMatch mask (memory (Addr.textoIp addr) after)) =
    ircMatch mask (memory (Addr.textoIp addr) after)

/-- In the beginning nothing is read. -/
theorem Vars.lee_init : Vars.init.Lee [] [] where
  bits := by decide
  unco := rfl
  digits := rfl
  shift := rfl
  tmp := rfl
  octeto := octeto_nil
  fits := by intro x hx; cases hx
  length := by decide

/-- The test with a mask that is compiled. -/
theorem acepta_iff (h : Compila 0 [] mask) (hslash : '/' ∉ mask) (texto : Bool) :
    (matchcompIP mask).acepta addr texto = true ↔
      Empieza mask addr ∧ (Directa [] mask ∨ texto = true) := by
  obtain ⟨-, heq⟩ | ⟨hno, -⟩ := desde_eq Vars.lee_init hslash
  · have hlen : ((completas [] mask).map valor).length ≤ 4 := by
      rw [List.length_map]
      exact h.length_le
    rw [matchcompIP, heq, InMask.acepta, decide_eq_true_iff, compilada, List.nil_append,
      Addr.and_mascara hlen h.fits, Empieza, Bool.not_eq_false', decide_eq_true_iff]
  · exact absurd h hno

/-- The test with a mask that is rejected. -/
theorem acepta_eq_false (h : ¬Compila 0 [] mask) (hslash : '/' ∉ mask) (texto : Bool) :
    (matchcompIP mask).acepta addr texto = false := by
  obtain ⟨hyes, -⟩ | ⟨-, heq⟩ := desde_eq Vars.lee_init hslash
  · exact absurd hyes h
  · rw [matchcompIP, heq, InMask.acepta, decide_eq_false_iff_not]
    rintro ⟨hbits, -⟩
    have hzero : (0 : BitVec 32) = BitVec.allOnes 32 := BitVec.and_zero.symm.trans hbits
    exact absurd hzero (by decide)

/-- The value that `matchcompIP` returns tells whether the mask was compiled. -/
theorem matchcompIPRet_eq (hslash : '/' ∉ mask) :
    (matchcompIPRet mask = 0 ∧ Compila 0 [] mask) ∨
      (matchcompIPRet mask = -1 ∧ ¬Compila 0 [] mask) := by
  obtain ⟨h, heq⟩ | ⟨h, heq⟩ := desde_eq Vars.lee_init hslash
  · refine .inl ⟨?_, h⟩
    have hlen : ((completas [] mask).map valor).length ≤ 4 := by
      rw [List.length_map]
      exact h.length_le
    have hin := Addr.junta_and_mascara hlen h.fits
    rw [matchcompIPRet, if_neg]
    rw [matchcompIP, heq, not_not]
    exact hin
  · refine .inr ⟨?_, h⟩
    rw [matchcompIPRet, matchcompIP, heq]
    decide

/-- A mask that is compiled agrees with `match` unless the comparison of texts is missing. -/
theorem conforme_of_compila (hmask : nul ∉ mask) (hslash : '/' ∉ mask) (h : Compila 0 [] mask) :
    Conforme mask addr ↔ (Directa [] mask → Empieza mask addr → Buena mask) := by
  constructor
  · intro hconf hdirecta hempieza
    have hacc := hconf []
    rw [(acepta_iff h hslash _).mpr ⟨hempieza, .inl hdirecta⟩] at hacc
    have henc := encabeza_of_ircMatch hmask h.saltadas hacc.symm
    refine ⟨fun hmem ↦ ?_, fun hmem ↦ ?_⟩
    · rw [← cabeza_append_cola mask] at hmem
      exact (List.mem_append.mp hmem).elim henc.not_mem h.cola
    · rw [henc.completas_eq] at hmem
      obtain ⟨n, -, hn⟩ := List.mem_map.mp hmem
      exact Nat.toDigits_ne_nil hn
  · intro hbuena after
    rw [Bool.eq_iff_iff, acepta_iff h hslash]
    constructor
    · rintro ⟨hempieza, hdirecta | htexto⟩
      · exact ircMatch_of_mem hmask (nul_not_mem_textoIp addr)
          (mem_of_directa h hdirecta (hbuena hdirecta hempieza) hempieza) after
      · exact htexto
    · intro htexto
      exact ⟨(encabeza_of_ircMatch hmask h.saltadas htexto).empieza, .inr htexto⟩

/-- A mask that is rejected agrees with `match` unless a search runs over the end of the text. -/
theorem conforme_of_not_compila (hmask : nul ∉ mask) (hslash : '/' ∉ mask)
    (h : ¬Compila 0 [] mask) :
    Conforme mask addr ↔ ¬Overruns toLower (tokens mask) (Addr.textoIp addr) := by
  have hno : Conforme mask addr ↔
      ∀ after, ircMatch mask (memory (Addr.textoIp addr) after) = false := by
    simp only [Conforme, acepta_eq_false h hslash, eq_comm]
  rw [hno]
  constructor
  · intro hall hover
    obtain ⟨after, hafter⟩ := exists_ircMatch_of_overruns hmask (nul_not_mem_textoIp addr) hover
    exact absurd hafter (by rw [hall after]; decide)
  · intro hover after
    obtain ⟨b, -, hb, hmemory⟩ := exact_of_not_overruns hmask (nul_not_mem_textoIp addr) hover
    rw [hmemory after, Bool.eq_false_iff]
    exact fun htrue ↦ h (compila_of_mem (hb.mp htrue))

end Match.Ip

open Match.Ip Match

/-- The test with a compiled mask has the answer of `match` just when the mask, if it is compiled
without the comparison of texts and the address begins with its octets, has no skipped backslash and
no empty octet, and, if it is rejected, has no search that runs over the end of the text. -/
theorem conforme_iff (mask : CStr) (addr : BitVec 32) (hmask : nul ∉ mask) (hslash : '/' ∉ mask) :
    Conforme mask addr ↔
      (Compila 0 [] mask → Directa [] mask → Empieza mask addr → Buena mask) ∧
        (Compila 0 [] mask ∨ ¬Overruns toLower (tokens mask) (Addr.textoIp addr)) := by
  by_cases h : Compila 0 [] mask
  · rw [conforme_of_compila hmask hslash h, imp_iff_right h, and_iff_left (.inl h)]
  · rw [conforme_of_not_compila hmask hslash h, or_iff_right h, and_iff_right (absurd · h)]

/-- The mask of a network and an address in it. -/
theorem conforme_iff_red :
    Conforme "10.1.*".toList 0x0A010203 ↔
      (Compila 0 [] "10.1.*".toList → Directa [] "10.1.*".toList →
          Empieza "10.1.*".toList 0x0A010203 → Buena "10.1.*".toList) ∧
        (Compila 0 [] "10.1.*".toList ∨
          ¬Overruns toLower (tokens "10.1.*".toList) (Addr.textoIp 0x0A010203)) :=
  conforme_iff _ _ (by decide) (by decide)

/-- An empty octet is compiled as a zero, which the mask does not match. -/
theorem not_conforme_vacio : ¬Conforme "10..*".toList 0x0A000001 := by
  intro h
  have hzero := h []
  revert hzero
  decide

end Ircd
