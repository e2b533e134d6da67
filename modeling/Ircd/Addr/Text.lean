import Ircd.Addr.Base64

/-!
# Printable addresses

`ircd_ntoa_r` and `ipmask_parse` of `ircd/support.c`. The loops of the parser run over the part of
the text that is left, and `none` is the return value 0. The address that is being parsed is the
list of the segments that have been written; the others are zero.
-/

namespace Ircd.Addr

open CString IPcheck

/-! ## Printing -/

/-- `IpQuadTab`. -/
def IpQuadTab (b : Nat) : CStr :=
  decimal b

/-- The two bytes of a segment in the order of the memory. -/
def octetos (x : UInt16) : List Nat :=
  [x.toNat % 256, x.toNat / 256]

/-- `hexdigits`. -/
def hexdigits (n : Nat) : Char :=
  "0123456789abcdef".toList.getD n '0'

/-- A segment in hexadecimal, without leading zeros. -/
def imprimeParte (part : Nat) : CStr :=
  (if part ≥ 0x1000 then [hexdigits (part >>> 12)] else []) ++
  (if part ≥ 0x100 then [hexdigits (part >>> 8 &&& 15)] else []) ++
  (if part ≥ 0x10 then [hexdigits (part >>> 4 &&& 15)] else []) ++ [hexdigits (part &&& 15)]

/-- The loop that prints the segments from `ii` on; `salta` segments of the run are left to skip. -/
def imprimeSegmentos (maxStart maxZeros : Nat) : Nat → Nat → List UInt16 → CStr
  | _, _, [] => []
  | ii, salta + 1, _ :: xs => imprimeSegmentos maxStart maxZeros (ii + 1) salta xs
  | ii, 0, x :: xs =>
      if maxZeros > 0 ∧ ii = maxStart then
        ':' :: imprimeSegmentos maxStart maxZeros (ii + 1) (maxZeros - 1) xs
      else
        imprimeParte (htons x).toNat ++ (if ii < 7 then [':'] else []) ++
          imprimeSegmentos maxStart maxZeros (ii + 1) 0 xs

/-- `ircd_ntoa_r`. -/
def ircdNtoa (addr : IrcInAddr) : CStr :=
  if isIpv4 addr then
    ".".toList.intercalate
      ((octetos (segmento addr 6) ++ octetos (segmento addr 7)).map IpQuadTab)
  else
    let racha := buscaRacha 1 1 0 0 (ceros ((segmentos addr).drop 1))
    imprimeSegmentos racha.1 racha.2 0 0 (segmentos addr)

/-! ## Parsing -/

/-- `isDigit`. -/
def isDigit (c : Char) : Bool :=
  '0' ≤ c ∧ c ≤ '9'

/-- `input[pos] - '0'`. -/
def cifra (c : Char) : Nat :=
  c.toNat - '0'.toNat

/-- The character a pointer reads. -/
def lee (input : CStr) : Char :=
  input.headD nul

/-- The number of bits behind a slash, computed in an `unsigned int`, and the text after it. -/
def leeBits (bits : Nat) : CStr → Nat × CStr
  | [] => (bits, [])
  | c :: input =>
      if isDigit c then leeBits ((bits * 10 + cifra c) % 2 ^ 32) input else (bits, c :: input)

/-- `24 - 8 * dots`, as the processor takes it for a shift. -/
def desplazamiento (dots : Nat) : Nat :=
  (24 + 2 ^ 32 - 8 * dots) % 32

/-- The loop of `ircd_aton_ip4`. The result is the text behind the address, the address as a number
and its bits, which are written only when `pbits` is not NULL. -/
def atonDesde (pbits : Bool) (dots part ip : Nat) : CStr → Option (CStr × Nat × Option Nat)
  | [] =>
      if dots < 3 then none
      else some ([], ip ||| part <<< desplazamiento dots, if pbits then some 32 else none)
  | '.' :: input =>
      if lee input = '.' then none
      else if lee input = '*' then
        match input.dropWhile (fun c ↦ c = '*' ∨ c = '.') with
        | [] =>
            some ([], ip ||| part <<< desplazamiento dots,
              if pbits then some ((dots + 1) * 8 % 256) else none)
        | _ :: _ => none
      else atonDesde pbits (dots + 1) 0 (ip ||| part <<< desplazamiento dots) input
  | '/' :: input =>
      if !pbits || !isDigit (lee input) then none
      else if (leeBits 0 input).1 > 32 then none
      else some ((leeBits 0 input).2, ip ||| part <<< desplazamiento dots,
        some (leeBits 0 input).1)
  | c :: input =>
      if !isDigit c then none
      else if part * 10 + cifra c > 255 then none
      else atonDesde pbits dots (part * 10 + cifra c) ip input

/-- `ircd_aton_ip4`. -/
def ircdAtonIp4 (pbits : Bool) (input : CStr) : Option (CStr × Nat × Option Nat) :=
  if lee input = '.' then none else atonDesde pbits 0 0 0 input

/-- The two segments of an IPv4 address. -/
def segmentosIp4 (addr : Nat) : List UInt16 :=
  [htons (addr >>> 16).toUInt16, htons (addr &&& 65535).toUInt16]

/-- The value of a hexadecimal digit. -/
def chval (c : Char) : Option Nat :=
  if isDigit c then some (cifra c)
  else if 'A' ≤ c ∧ c ≤ 'F' then some (c.toNat - 'A'.toNat + 10)
  else if 'a' ≤ c ∧ c ≤ 'f' then some (c.toNat - 'a'.toNat + 10)
  else none

/-- The eight words of the address when the given segments have been written. -/
def memoria (segs : List UInt16) : List UInt16 :=
  segs ++ List.replicate (8 - segs.length) 0

/-- `ip->in6_16[7 - jj] = ip->in6_16[ii - jj - 1]` for the first values of `jj`. -/
def sube (ip : List UInt16) (ii : Nat) : Nat → List UInt16
  | 0 => ip
  | jj + 1 => (sube ip ii jj).set (7 - jj) ((sube ip ii jj).getD (ii - jj - 1) 0)

/-- `ip->in6_16[colon + jj] = 0` for the first values of `jj`. -/
def rellena (ip : List UInt16) (colon : Nat) : Nat → List UInt16
  | 0 => ip
  | jj + 1 => (rellena ip colon jj).set (colon + jj) 0

/-- The label `finish`: the segments behind a double colon are moved up. -/
def finish (colon : Nat) (segs : List UInt16) : List UInt16 :=
  if colon < 8 then
    rellena (sube (memoria segs) segs.length (segs.length - colon)) colon (8 - segs.length)
  else memoria segs

/-- What `ipmask_parse` leaves: the text behind the address, the words of the address, and the bits
if it writes them. -/
abbrev Leida := CStr × List UInt16 × Option Nat

/-- The loop of `ipmask_parse` over an IPv6 address. -/
def parseSegmentos (pbits : Bool) (part colon : Nat) (partStart : Option CStr)
    (segs : List UInt16) : CStr → Option Leida
  | [] =>
      if colon = 8 ∧ segs.length + 1 < 8 then none
      else some ([], finish colon (segs ++ [htons part.toUInt16]),
        if pbits then some 128 else none)
  | ':' :: ':' :: input =>
      let segs' := segs ++ [htons part.toUInt16]
      if colon < 8 then none
      else if segs'.length < 8 then
        parseSegmentos pbits 0 segs'.length (some (':' :: input)) segs' input
      else some (input, finish segs'.length segs', none)
  | ':' :: input =>
      let segs' := segs ++ [htons part.toUInt16]
      if lee input = '.' then none
      else if segs'.length < 8 then parseSegmentos pbits 0 colon (some input) segs' input
      else some (input, finish colon segs', none)
  | '.' :: _ =>
      match partStart.bind (ircdAtonIp4 pbits) with
      | none => none
      | some (resto, ip4, bits) =>
          if segs.length > 6 then none
          else some (resto, finish colon (segs ++ segmentosIp4 ip4),
            bits.map fun b ↦ (b + 96) % 256)
  | '/' :: input =>
      if !pbits || !isDigit (lee input) then none
      else if (leeBits 0 input).1 > 128 then none
      else some ((leeBits 0 input).2, finish colon (segs ++ [htons part.toUInt16]),
        some (leeBits 0 input).1)
  | '*' :: input =>
      match input.dropWhile (fun c ↦ c = '*' ∨ c = ':') with
      | [] =>
          if colon < 8 then none
          else some ([], memoria segs, if pbits then some (segs.length * 16) else none)
      | _ :: _ => none
  | c :: input =>
      match chval c with
      | none => none
      | some v =>
          if part <<< 4 ||| v > 0xffff then none
          else parseSegmentos pbits (part <<< 4 ||| v) colon partStart segs input

/-- The three forms of an address. -/
def parseFormas (input : CStr) (pbits : Bool) : Option Leida :=
  if input.idxOf ':' < input.length ∧ input.idxOf ':' < input.idxOf '.' then
    match input with
    | ':' :: ':' :: resto =>
        if lee resto = ':' then none else parseSegmentos pbits 0 0 (some resto) [] resto
    | ':' :: _ => none
    | _ => parseSegmentos pbits 0 8 none [] input
  else if input.contains '.' ∨ input.contains '/' then
    (ircdAtonIp4 pbits input).map fun r ↦
      (r.1, [0, 0, 0, 0, 0, htons 65535] ++ segmentosIp4 r.2.1, r.2.2.map fun b ↦ (b + 96) % 256)
  else if lee input = '*' then
    match input.dropWhile (· = '*') with
    | [] => some ([], memoria [], if pbits then some 0 else none)
    | _ :: _ => none
  else none

/-- `ipmask_parse`: the number of characters used, the address and the bits. -/
def ipmaskParse (input : CStr) (pbits : Bool) : Option (Nat × IrcInAddr × Option Nat) :=
  (parseFormas input pbits).map fun r ↦ (input.length - r.1.length, conSegmentos r.2.1, r.2.2)

example : ipmaskParse "::127.0.0.1/8".toList true =
    some (13, ⟨#v[0, 0, 0, 0, 0, 0, htons 0x7f00, htons 1]⟩, some 104) := by decide

end Ircd.Addr
