/-
# `Octos.Lib.Addr` — internet addresses and their text

IPv4 and IPv6 addresses with the predicates of the standard library, and the
reader it has for their text: decimal octets without leading zeros, hexadecimal
groups, one `::`, and an IPv4 address in the last two groups.  A reader consumes
a part of the text and answers what is left; a text is an address when nothing
is left.
-/
import Mathlib

namespace Octos

/-! ## Addresses -/

/-- An IPv4 address by its octets. -/
structure Ipv4Addr where
  a : BitVec 8
  b : BitVec 8
  c : BitVec 8
  d : BitVec 8
  deriving DecidableEq

/-- An IPv6 address by its segments. -/
structure Ipv6Addr where
  s0 : BitVec 16
  s1 : BitVec 16
  s2 : BitVec 16
  s3 : BitVec 16
  s4 : BitVec 16
  s5 : BitVec 16
  s6 : BitVec 16
  s7 : BitVec 16
  deriving DecidableEq

inductive IpAddr where
  | v4 (addr : Ipv4Addr)
  | v6 (addr : Ipv6Addr)
  deriving DecidableEq

/-- An address with a port. -/
structure SocketAddr where
  ip : IpAddr
  port : BitVec 16
  deriving DecidableEq

namespace Ipv4Addr

/-- 127.0.0.0/8 -/
def isLoopback (x : Ipv4Addr) : Bool :=
  x.a == 127

/-- 10.0.0.0/8, 172.16.0.0/12 and 192.168.0.0/16 -/
def isPrivate (x : Ipv4Addr) : Bool :=
  x.a == 10 || x.a == 172 && 16 ≤ x.b.toNat && x.b.toNat ≤ 31 || x.a == 192 && x.b == 168

/-- 169.254.0.0/16 -/
def isLinkLocal (x : Ipv4Addr) : Bool :=
  x.a == 169 && x.b == 254

/-- 0.0.0.0 -/
def isUnspecified (x : Ipv4Addr) : Bool :=
  x == ⟨0, 0, 0, 0⟩

end Ipv4Addr

namespace Ipv6Addr

/-- The address `::1`. -/
def isLoopback (x : Ipv6Addr) : Bool :=
  x == ⟨0, 0, 0, 0, 0, 0, 0, 1⟩

/-- The address `::`. -/
def isUnspecified (x : Ipv6Addr) : Bool :=
  x == ⟨0, 0, 0, 0, 0, 0, 0, 0⟩

/-- ff00::/8 -/
def isMulticast (x : Ipv6Addr) : Bool :=
  x.s0 &&& 0xff00 == 0xff00

/-- The IPv4 address in the last two segments. -/
def lastV4 (x : Ipv6Addr) : Ipv4Addr where
  a := (x.s6 >>> 8).setWidth 8
  b := x.s6.setWidth 8
  c := (x.s7 >>> 8).setWidth 8
  d := x.s7.setWidth 8

/-- `to_ipv4_mapped`: `::ffff:a.b.c.d`. -/
def toIpv4Mapped (x : Ipv6Addr) : Option Ipv4Addr :=
  if x.s0 == 0 && x.s1 == 0 && x.s2 == 0 && x.s3 == 0 && x.s4 == 0 && x.s5 == 0xffff then
    some x.lastV4
  else none

/-- `to_ipv4`: also `::a.b.c.d`. -/
def toIpv4 (x : Ipv6Addr) : Option Ipv4Addr :=
  if x.s0 == 0 && x.s1 == 0 && x.s2 == 0 && x.s3 == 0 && x.s4 == 0 &&
      (x.s5 == 0 || x.s5 == 0xffff) then
    some x.lastV4
  else none

/-- The address of eight groups. -/
def ofGroups (l : List Nat) : Ipv6Addr :=
  let s := fun i => BitVec.ofNat 16 (l.getD i 0)
  ⟨s 0, s 1, s 2, s 3, s 4, s 5, s 6, s 7⟩

end Ipv6Addr

/-! ## Text -/

namespace AddrText

/-- What a reader read, and the rest of the text. -/
abbrev Reader (α : Type) := List Char → Option (α × List Char)

/-- The value of a digit in a radix. -/
def toDigit (radix : Nat) (ch : Char) : Option Nat :=
  let v :=
    if ch.isDigit then ch.toNat - '0'.toNat
    else if ch.isLower then ch.toNat - 'a'.toNat + 10
    else if ch.isUpper then ch.toNat - 'A'.toNat + 10
    else radix
  if v < radix then some v else none

/-- One given character. -/
def readGivenChar (ch : Char) : Reader Unit
  | [] => none
  | x :: rest => if x = ch then some ((), rest) else none

/-- A number of at most `maxDigits` digits below `bound`. -/
def readNumber (radix maxDigits bound : Nat) (allowZeroPrefix : Bool) : Reader Nat := fun text =>
  let digits := text.takeWhile (fun ch => (toDigit radix ch).isSome)
  let n := (digits.filterMap (toDigit radix)).foldl (fun n d => n * radix + d) 0
  if digits.isEmpty || maxDigits < digits.length || bound ≤ n ||
      (!allowZeroPrefix && digits.head? == some '0' && 1 < digits.length) then
    none
  else some (n, text.drop digits.length)

/-- All but the first item come after a separator. -/
def readSeparator {α : Type} (sep : Char) (index : Nat) (inner : Reader α) : Reader α := fun text =>
  if index = 0 then inner text
  else do
    let (_, text) ← readGivenChar sep text
    inner text

/-- Four octets between dots. -/
def readIpv4Addr : Reader Ipv4Addr := fun text => do
  let octet := readNumber 10 3 256 false
  let (a, text) ← octet text
  let (b, text) ← readSeparator '.' 1 octet text
  let (c, text) ← readSeparator '.' 2 octet text
  let (d, text) ← readSeparator '.' 3 octet text
  return (⟨BitVec.ofNat 8 a, BitVec.ofNat 8 b, BitVec.ofNat 8 c, BitVec.ofNat 8 d⟩, text)

/-- Up to `left` groups between colons; the last two may be an IPv4 address,
and then nothing follows. -/
def readGroups : (left index : Nat) → List Char → List Nat × Bool × List Char
  | 0, _, text => ([], false, text)
  | left + 1, index, text =>
      match if 0 < left then readSeparator ':' index readIpv4Addr text else none with
      | some (v4, text) =>
          ([v4.a.toNat * 256 + v4.b.toNat, v4.c.toNat * 256 + v4.d.toNat], true, text)
      | none =>
          match readSeparator ':' index (readNumber 16 4 65536 true) text with
          | some (group, text) =>
              let (groups, v4, text) := readGroups left (index + 1) text
              (group :: groups, v4, text)
          | none => ([], false, text)

/-- Eight groups, or fewer around one `::`. -/
def readIpv6Addr : Reader Ipv6Addr := fun text =>
  let (head, headV4, text) := readGroups 8 0 text
  if head.length = 8 then some (.ofGroups head, text)
  else if headV4 then none
  else do
    let (_, text) ← readGivenChar ':' text
    let (_, text) ← readGivenChar ':' text
    let (tail, _, text) := readGroups (8 - (head.length + 1)) 0 text
    return (.ofGroups (head ++ List.replicate (8 - head.length - tail.length) 0 ++ tail), text)

/-- The whole text. -/
def parseWith {α : Type} (reader : Reader α) (text : List Char) : Option α :=
  match reader text with
  | some (a, []) => some a
  | _ => none

/-- `str::parse::<IpAddr>`. -/
def parseIpAddr (text : List Char) : Option IpAddr :=
  parseWith (fun text =>
    match readIpv4Addr text with
    | some (v4, rest) => some (.v4 v4, rest)
    | none => (readIpv6Addr text).map (fun r => (.v6 r.1, r.2))) text

/-- An address in brackets is not an address. -/
theorem parseIpAddr_bracket (text : List Char) : parseIpAddr ('[' :: text) = none := rfl

example : parseIpAddr "192.168.0.1".toList = some (.v4 ⟨192, 168, 0, 1⟩) := by rfl
example : parseIpAddr "::ffff:10.0.0.1".toList =
    some (.v6 ⟨0, 0, 0, 0, 0, 0xffff, 0x0a00, 1⟩) := by rfl

end AddrText

end Octos
