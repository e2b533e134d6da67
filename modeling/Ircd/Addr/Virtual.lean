import Ircd.Addr.Base64
import Ircd.Bdd.Hash
import Ircd.Conf.Rehash

/-!
# Virtual hosts

`make_vhost` of `ircd/s_user.c`, with the cipher `tea` of `ircd/s_bdd.c`, and the tool `ipreal` with
its `untea`. The block that is encrypted carries the address in its second word, or in both for an
IPv6 address, and a count of retries in the first one. The main result, `vhost_identifica`, says that
a virtual host gives its address back to who has the key, so that no two addresses share one.
-/

namespace Ircd.Addr

open CString IPcheck

/-! ## The cipher -/

/-- Two `unsigned int`: a block, or the key in binary. -/
structure Bloque where
  v0 : UInt32
  v1 : UInt32
deriving DecidableEq

/-- The variables of the loops of `tea` and `untea`. -/
structure Ronda where
  y : UInt32
  z : UInt32
  sum : UInt32

def delta : UInt32 := 0x9E3779B9

/-- What half a round adds to one of the words, from the other one. -/
def mezcla (a b sum w : UInt32) : UInt32 :=
  ((w <<< 4) + a) ^^^ ((w + sum) ^^^ ((w >>> 5) + b))

/-- A round of `tea`. The upper half of the key, `c` and `d`, is zero. -/
def teaRonda (k : Bloque) (r : Ronda) : Ronda :=
  let sum := r.sum + delta
  let y := r.y + mezcla k.v0 k.v1 sum r.z
  let z := r.z + mezcla 0 0 sum y
  ⟨y, z, sum⟩

/-- `tea`. -/
def tea (v k x : Bloque) : Bloque :=
  let r := (teaRonda k)^[32] ⟨v.v0 ^^^ x.v0, v.v1 ^^^ x.v1, 0⟩
  ⟨r.y, r.z⟩

/-- It is the cipher that the hash of a table is made with. -/
theorem tea_eq (v k x : Bloque) : Bdd.tea (v.v0, v.v1) (k.v0, k.v1) ⟨x.v0, x.v1⟩ =
    ⟨(tea v k x).v0, (tea v k x).v1⟩ := by
  have hronda : Function.Semiconj (fun r : Ronda ↦ (r.sum, r.y, r.z)) (teaRonda k)
      (Bdd.teaRonda k.v0 k.v1) := by
    intro r
    simp [teaRonda, Bdd.teaRonda, mezcla, delta]
  have hrondas := (hronda.iterate_right 32).eq ⟨v.v0 ^^^ x.v0, v.v1 ^^^ x.v1, 0⟩
  rw [Bdd.tea, tea]
  dsimp only at hrondas ⊢
  rw [← hrondas]

/-- A round of `untea`. -/
def unteaRonda (k : Bloque) (r : Ronda) : Ronda :=
  let z := r.z - mezcla 0 0 r.sum r.y
  let y := r.y - mezcla k.v0 k.v1 r.sum z
  ⟨y, z, r.sum - delta⟩

/-- `untea`. -/
def untea (v k : Bloque) : Bloque :=
  let r := (unteaRonda k)^[32] ⟨v.v0, v.v1, 0xC6EF3720⟩
  ⟨r.y, r.z⟩

/-- A round of `untea` undoes a round of `tea`. -/
theorem leftInverse_unteaRonda (k : Bloque) :
    Function.LeftInverse (unteaRonda k) (teaRonda k) := by
  intro r
  simp only [unteaRonda, teaRonda, UInt32.add_sub_cancel]

/-- Each round adds `delta` to the sum. -/
theorem sum_teaRonda (k : Bloque) (n : Nat) (r : Ronda) :
    ((teaRonda k)^[n] r).sum = r.sum + UInt32.ofNat n * delta := by
  induction n generalizing r with
  | zero => simp
  | succ n ih =>
      rw [Function.iterate_succ_apply, ih]
      show r.sum + delta + UInt32.ofNat n * delta = _
      rw [UInt32.ofNat_add, UInt32.add_mul, UInt32.add_assoc, UInt32.add_comm delta]
      simp

theorem sum_completa : 0 + UInt32.ofNat 32 * delta = 0xC6EF3720 := by
  decide

/-- The loop of `untea` begins with the sum that the loop of `tea` ends with. -/
theorem untea_tea (v k x : Bloque) : untea (tea v k x) k = ⟨v.v0 ^^^ x.v0, v.v1 ^^^ x.v1⟩ := by
  have hsum := sum_teaRonda k 32 ⟨v.v0 ^^^ x.v0, v.v1 ^^^ x.v1, 0⟩
  have hback := (leftInverse_unteaRonda k).iterate 32 ⟨v.v0 ^^^ x.v0, v.v1 ^^^ x.v1, 0⟩
  rw [sum_completa] at hsum
  rw [untea, tea, ← hsum]
  exact congrArg (fun r : Ronda ↦ (⟨r.y, r.z⟩ : Bloque)) hback

/-! ## The two programs -/

/-- `clave_de_cifrado_binaria`: the two words of a key. The copy of a short key is filled with
terminators. -/
def claveBinaria (clave : CStr) : Bloque :=
  ⟨(base64toint ((clave.take 12).take 6)).toUInt32, (base64toint ((clave.take 12).drop 6)).toUInt32⟩

/-- Twelve digits with a point in the middle, and what comes behind them. -/
def escribe (x : Bloque) (fin : CStr) : CStr :=
  inttobase64 x.v0.toNat 6 ++ '.' :: (inttobase64 x.v1.toNat 6 ++ fin)

/-- `ip_virtual_temporal` for an IPv4 address, at the retry `ts`. -/
def virtual4 (k : Bloque) (a : IrcInAddr) (ts : Nat) : CStr :=
  let v : Bloque := ⟨(k.v0 &&& 0xffff0000) + ts.toUInt32,
    (host (segmento a 6) (segmento a 7)).toUInt32⟩
  escribe (tea v k ⟨0, 0⟩) ".virtual".toList

/-- `ip_virtual_temporal` for an IPv6 address. -/
def virtual6 (k : Bloque) (a : IrcInAddr) : CStr :=
  let v : Bloque := ⟨(host (segmento a 0) (segmento a 1)).toUInt32,
    (host (segmento a 2) (segmento a 3)).toUInt32⟩
  escribe (tea v k ⟨0, 0⟩) ".v6".toList

/-- A host name with a bracket is not nice. -/
def corchetes (ip : CStr) : Bool :=
  '[' ∈ ip ∨ ']' ∈ ip

/-- The loop over the retries: those left and `ts`. -/
def reintenta (k : Bloque) (a : IrcInAddr) (realhost : CStr) : Nat → Nat → CStr
  | 0, _ => realhost
  | n + 1, ts =>
      if corchetes (virtual4 k a ts) then reintenta k a realhost n (ts + 1) else virtual4 k a ts

/-- `ip_virtual_temporal`, that is stored when there is a key. -/
def ipVirtualTemporal (k : Bloque) (a : IrcInAddr) (realhost : CStr) : CStr :=
  if isIpv4 a then reintenta k a realhost 65536 0 else virtual6 k a

/-- `make_vhost`: the `vhost` of a user with the address `a` and the host `realhost`. -/
def makeVhost (clave : Option CStr) (a : IrcInAddr) (realhost : CStr) : CStr :=
  match clave with
  | none => "no.hay.clave.de.cifrado".toList
  | some clave => (ipVirtualTemporal (claveBinaria clave) a realhost).take HOSTLEN

/-- The block that `ipreal` splits a virtual host into. -/
def bloqueDe (virt : CStr) : Bloque :=
  ⟨(base64toint (virt.take 6)).toUInt32, (base64toint ((virt.drop 7).take 6)).toUInt32⟩

/-- The IPv4 address in a block that is in clear. -/
def ip4De (x : Bloque) : IrcInAddr :=
  deHost (htons (x.v1 >>> 16).toUInt16) (htons (x.v1 &&& 65535).toUInt16)

/-- The IPv6 address in a block that is in clear. -/
def ip6De (x : Bloque) : IrcInAddr :=
  ⟨#v[htons (x.v0 >>> 16).toUInt16, htons (x.v0 &&& 65535).toUInt16,
    htons (x.v1 >>> 16).toUInt16, htons (x.v1 &&& 65535).toUInt16, 0, 0, 0, 0]⟩

/-- The address that `ipreal` prints; `none` when the format is wrong. -/
def ipreal (clave virt : CStr) : Option IrcInAddr :=
  if virt.length = 21 then
    if virt[6]? ≠ some '.' ∨ virt[13]? ≠ some '.' ∨ ¬".virtual".toList <:+: virt then none
    else some (ip4De (untea (bloqueDe virt) (claveBinaria clave)))
  else if virt.length = 16 then
    if virt[6]? ≠ some '.' ∨ virt[13]? ≠ some '.' ∨ ¬".v6".toList <:+: virt then none
    else some (ip6De (untea (bloqueDe virt) (claveBinaria clave)))
  else none

/-! ## What a virtual host tells -/

section Escribe

variable {x : Bloque} {fin : CStr}

theorem length_escribe : (escribe x fin).length = 13 + fin.length := by
  simp only [escribe, List.length_append, List.length_cons, length_inttobase64]
  omega

/-- The digits carry all of a word. -/
theorem toUInt32_base64toint (w : UInt32) :
    (base64toint (inttobase64 w.toNat 6)).toUInt32 = w := by
  have hw := w.toNat_lt
  rw [base64toint_inttobase64 (by omega) hw]
  exact UInt32.ofNat_toNat

/-- The block that was written is split out again. -/
theorem bloqueDe_escribe : bloqueDe (escribe x fin) = x := by
  have hlen0 := length_inttobase64 x.v0.toNat 6
  have hlen1 := length_inttobase64 x.v1.toNat 6
  have htake : (escribe x fin).take 6 = inttobase64 x.v0.toNat 6 := List.take_left' hlen0
  have hdrop : (escribe x fin).drop 7 = inttobase64 x.v1.toNat 6 ++ fin := by
    rw [show 7 = 6 + 1 from rfl, ← List.drop_drop]
    exact congrArg (List.drop 1) (List.drop_left' hlen0)
  rw [bloqueDe, htake, hdrop, List.take_left' hlen1, toUInt32_base64toint, toUInt32_base64toint]

/-- The points stand where `ipreal` looks for them. -/
theorem escribe_punto : (escribe x fin)[6]? = some '.' ∧ (escribe x fin)[13]? = fin[0]? := by
  have hlen0 := length_inttobase64 x.v0.toNat 6
  have hlen1 := length_inttobase64 x.v1.toNat 6
  constructor
  · rw [escribe, List.getElem?_append_right (by omega), hlen0]
    rfl
  · rw [escribe, List.getElem?_append_right (by omega), hlen0]
    show (inttobase64 x.v1.toNat 6 ++ fin)[6]? = _
    rw [List.getElem?_append_right (by omega), hlen1]

/-- The format is right when there is a point behind the digits. -/
theorem escribe_formato (hfin : fin[0]? = some '.') :
    ¬((escribe x fin)[6]? ≠ some '.' ∨ (escribe x fin)[13]? ≠ some '.' ∨
      ¬fin <:+: escribe x fin) := by
  have hinfix : fin <:+: escribe x fin :=
    ⟨inttobase64 x.v0.toNat 6 ++ '.' :: inttobase64 x.v1.toNat 6, [], by simp [escribe]⟩
  simp [escribe_punto, hfin, hinfix]

end Escribe

/-- The two segments are taken out of a word again. -/
theorem segmentos_host (x y : UInt16) :
    htons ((host x y).toUInt32 >>> 16).toUInt16 = x ∧
      htons ((host x y).toUInt32 &&& 65535).toUInt16 = y := by
  have hlt := host_lt x y
  have hword : (host x y).toUInt32.toNat = host x y := UInt32.toNat_ofNat_of_lt' hlt
  constructor
  · have hhigh : ((host x y).toUInt32 >>> 16).toUInt16 = (host x y >>> 16).toUInt16 := by
      apply UInt16.toNat_inj.mp
      simp [hword]
    rw [hhigh, toUInt16_host_shiftRight, htons_htons]
  · have hlow : ((host x y).toUInt32 &&& 65535).toUInt16 = (host x y &&& 65535).toUInt16 := by
      apply UInt16.toNat_inj.mp
      simp
    rw [hlow, toUInt16_host_and, htons_htons]

/-- An IPv4 address in its mapped form. -/
def forma4 (a : IrcInAddr) : IrcInAddr :=
  deHost (segmento a 6) (segmento a 7)

/-- The upper 64 bits of an address. -/
def superior (a : IrcInAddr) : IrcInAddr :=
  ⟨#v[segmento a 0, segmento a 1, segmento a 2, segmento a 3, 0, 0, 0, 0]⟩

variable {clave realhost : CStr} {a : IrcInAddr}

/-- The tool splits a text of 21 characters. -/
theorem ipreal_escribe4 (x : Bloque) :
    ipreal clave (escribe x ".virtual".toList) = some (ip4De (untea x (claveBinaria clave))) := by
  have hlen : (escribe x ".virtual".toList).length = 21 := length_escribe
  rw [ipreal, if_pos hlen, if_neg (escribe_formato rfl), bloqueDe_escribe]

/-- The tool splits a text of 16 characters. -/
theorem ipreal_escribe6 (x : Bloque) :
    ipreal clave (escribe x ".v6".toList) = some (ip6De (untea x (claveBinaria clave))) := by
  have hlen : (escribe x ".v6".toList).length = 16 := length_escribe
  rw [ipreal, if_neg (by omega), if_pos hlen, if_neg (escribe_formato rfl), bloqueDe_escribe]

/-- The tool undoes the cipher, at every retry. -/
theorem ipreal_virtual4 (ts : Nat) :
    ipreal clave (virtual4 (claveBinaria clave) a ts) = some (forma4 a) := by
  obtain ⟨hhigh, hlow⟩ := segmentos_host (segmento a 6) (segmento a 7)
  rw [virtual4, ipreal_escribe4, untea_tea]
  simp only [UInt32.xor_zero, ip4De, hhigh, hlow, forma4]

theorem ipreal_virtual6 :
    ipreal clave (virtual6 (claveBinaria clave) a) = some (superior a) := by
  obtain ⟨hhigh0, hlow0⟩ := segmentos_host (segmento a 0) (segmento a 1)
  obtain ⟨hhigh1, hlow1⟩ := segmentos_host (segmento a 2) (segmento a 3)
  rw [virtual6, ipreal_escribe6, untea_tea]
  simp only [UInt32.xor_zero, ip6De, hhigh0, hlow0, hhigh1, hlow1, superior]

/-- Every retry meets a bracket. -/
def Agotada (clave : CStr) (a : IrcInAddr) : Prop :=
  ∀ ts < 65536, corchetes (virtual4 (claveBinaria clave) a ts) = true

/-- The loop stops at a retry without a bracket, or it has used all of them. -/
theorem reintenta_cases (k : Bloque) (a : IrcInAddr) (realhost : CStr) (n ts : Nat) :
    (∃ ts', reintenta k a realhost n ts = virtual4 k a ts' ∧
        ts ≤ ts' ∧ ts' < ts + n ∧ corchetes (virtual4 k a ts') = false) ∨
      reintenta k a realhost n ts = realhost ∧
        ∀ ts', ts ≤ ts' → ts' < ts + n → corchetes (virtual4 k a ts') = true := by
  induction n generalizing ts with
  | zero => exact .inr ⟨rfl, fun ts' hle hlt ↦ by omega⟩
  | succ n ih =>
      rw [reintenta]
      cases hc : corchetes (virtual4 k a ts) with
      | false => exact .inl ⟨ts, if_neg Bool.false_ne_true, le_rfl, by omega, hc⟩
      | true =>
          rw [if_pos rfl]
          rcases ih (ts + 1) with ⟨ts', heq, hle, hlt, hno⟩ | ⟨heq, hall⟩
          · exact .inl ⟨ts', heq, by omega, by omega, hno⟩
          · refine .inr ⟨heq, fun ts' hle hlt ↦ ?_⟩
            rcases Nat.eq_or_lt_of_le hle with rfl | hlt'
            · exact hc
            · exact hall ts' hlt' (by omega)

@[simp]
theorem makeVhost_some : makeVhost (some clave) a realhost =
    (ipVirtualTemporal (claveBinaria clave) a realhost).take HOSTLEN :=
  rfl

/-- The virtual host of an IPv4 address is the one of some retry. -/
theorem makeVhost_ipv4 (hv4 : isIpv4 a = true) (h : ¬Agotada clave a) :
    ∃ ts, makeVhost (some clave) a realhost = virtual4 (claveBinaria clave) a ts := by
  rw [makeVhost_some, ipVirtualTemporal, if_pos hv4]
  rcases reintenta_cases (claveBinaria clave) a realhost 65536 0 with ⟨ts, heq, -⟩ | ⟨-, hall⟩
  · refine ⟨ts, ?_⟩
    rw [heq]
    refine List.take_of_length_le ?_
    show (escribe _ ".virtual".toList).length ≤ _
    rw [length_escribe]
    decide
  · exact absurd (fun ts hts ↦ hall ts (Nat.zero_le ts) (by omega)) h

/-- The real host is shown when the retries are used up. -/
theorem makeVhost_agotada (hv4 : isIpv4 a = true) (h : Agotada clave a) :
    makeVhost (some clave) a realhost = realhost.take HOSTLEN := by
  rw [makeVhost_some, ipVirtualTemporal, if_pos hv4]
  rcases reintenta_cases (claveBinaria clave) a realhost 65536 0 with
    ⟨ts, -, -, hlt, hno⟩ | ⟨heq, -⟩
  · rw [h ts (by omega)] at hno
    cases hno
  · rw [heq]

theorem makeVhost_ipv6 (hv6 : isIpv4 a = false) :
    makeVhost (some clave) a realhost = virtual6 (claveBinaria clave) a := by
  rw [makeVhost_some, ipVirtualTemporal, if_neg (Bool.eq_false_iff.mp hv6)]
  refine List.take_of_length_le ?_
  show (escribe _ ".v6".toList).length ≤ _
  rw [length_escribe]
  decide

theorem ipreal_ipv4 (hv4 : isIpv4 a = true) (h : ¬Agotada clave a) :
    ipreal clave (makeVhost (some clave) a realhost) = some (forma4 a) := by
  obtain ⟨ts, hts⟩ := makeVhost_ipv4 hv4 h
  rw [hts, ipreal_virtual4]

theorem ipreal_ipv6 (hv6 : isIpv4 a = false) :
    ipreal clave (makeVhost (some clave) a realhost) = some (superior a) := by
  rw [makeVhost_ipv6 hv6, ipreal_virtual6]

/-- The mapped form has a mark where the upper half of an address has none. -/
theorem forma4_ne_superior (a b : IrcInAddr) : forma4 a ≠ superior b := by
  intro h
  have hmark : (65535 : UInt16) = 0 := congrArg (segmento · 5) h
  cases hmark

/-- What the virtual hosts under a key tell about the addresses. -/
structure Identifica (clave : CStr) : Prop where
  inversa : ∀ v k, untea (tea v k ⟨0, 0⟩) k = v
  ipv4 : ∀ a b realA realB, isIpv4 a = true → isIpv4 b = true → forma4 a ≠ forma4 b →
    ¬Agotada clave a → ¬Agotada clave b →
      makeVhost (some clave) a realA ≠ makeVhost (some clave) b realB
  ipv6 : ∀ a b realA realB, isIpv4 a = false → isIpv4 b = false → superior a ≠ superior b →
    makeVhost (some clave) a realA ≠ makeVhost (some clave) b realB
  mezclados : ∀ a b realA realB, isIpv4 a = true → isIpv4 b = false → ¬Agotada clave a →
    makeVhost (some clave) a realA ≠ makeVhost (some clave) b realB
  deshace4 : ∀ a real, isIpv4 a = true → ¬Agotada clave a →
    ipreal clave (makeVhost (some clave) a real) = some (forma4 a)
  deshace6 : ∀ a real, isIpv4 a = false →
    ipreal clave (makeVhost (some clave) a real) = some (superior a)
  agotada : ∀ a real, isIpv4 a = true → Agotada clave a →
    makeVhost (some clave) a real = real.take HOSTLEN

/-- Virtual hosts identify addresses, whatever the key. -/
theorem vhost_identifica (clave : CStr) : Identifica clave where
  inversa v k := by
    rw [untea_tea, UInt32.xor_zero, UInt32.xor_zero]
  ipv4 a b realA realB ha hb hne hta htb heq := by
    have hreal := congrArg (ipreal clave) heq
    rw [ipreal_ipv4 ha hta, ipreal_ipv4 hb htb] at hreal
    exact hne (Option.some.inj hreal)
  ipv6 a b realA realB ha hb hne heq := by
    have hreal := congrArg (ipreal clave) heq
    rw [ipreal_ipv6 ha, ipreal_ipv6 hb] at hreal
    exact hne (Option.some.inj hreal)
  mezclados a b realA realB ha hb hta heq := by
    have hreal := congrArg (ipreal clave) heq
    rw [ipreal_ipv4 ha hta, ipreal_ipv6 hb] at hreal
    exact forma4_ne_superior a b (Option.some.inj hreal)
  deshace4 a real ha hta := ipreal_ipv4 ha hta
  deshace6 a real ha := ipreal_ipv6 ha
  agotada a real ha hta := makeVhost_agotada ha hta

end Ircd.Addr
