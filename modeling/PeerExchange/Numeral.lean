import PeerExchange.Binary.Digits

namespace PeerExchange

inductive Floating where
  | finite (negative : Bool) (magnitude : Binary)
  | infinite (negative : Bool)
deriving DecidableEq

namespace Floating

def ofMagnitude (negative : Bool) (b : Binary) : Floating :=
  if Precision.double.holds b then finite negative b else infinite negative

def exactly (n : Int) : Floating := finite (n < 0) (.ofNat n.natAbs)

def ofInt (n : Int) : Floating := ofMagnitude (n < 0) (Precision.double.ofFraction n.natAbs 1)

def negated : Bool → Ordering → Ordering
  | true, o => o.swap
  | false, o => o

def order : Floating → Floating → Ordering
  | finite na a, finite nb b =>
    if a.mantissa = 0 && b.mantissa = 0 then .eq
    else if na = nb then negated na (a.order b)
    else if na then .lt else .gt
  | infinite na, infinite nb => if na = nb then .eq else if na then .lt else .gt
  | infinite negative, finite _ _ => if negative then .lt else .gt
  | finite _ _, infinite negative => if negative then .gt else .lt

def truncate : Floating → Int
  | finite true b => max (-(b.floor : Int)) (-9223372036854775808)
  | finite false b => min (b.floor : Int) 9223372036854775807
  | infinite true => -9223372036854775808
  | infinite false => 9223372036854775807

-- The integer that the number is, where that is one strictly inside the range of 64-bit integers.
def integer? : Floating → Option Int
  | finite negative b =>
    (b.natural?.filter (· < 9223372036854775808)).map fun m => if negative then -(m : Int) else m
  | infinite _ => none

def positional : Floating → String
  | finite negative b => (b.shortest negative).positional
  | infinite negative => Decimal.withSign negative "inf"

def significant : Floating → String
  | finite negative b => b.significant negative
  | infinite negative => Decimal.withSign negative "Inf"

end Floating

structure Numeral where
  negative : Bool
  whole : List Char
  fraction : Option (List Char)
  exponent : Option Int
deriving DecidableEq

namespace Numeral

def isBlank (c : Char) : Bool := c = ' ' || ('\t' ≤ c && c ≤ '\r')

def digit (c : Char) : Nat := c.toNat - '0'.toNat

def natural (digits : List Char) : Nat := digits.foldl (fun n c => 10 * n + digit c) 0

def boundedNatural (digits : List Char) : Nat :=
  digits.foldl (fun n c => if n < 10000 then 10 * n + digit c else 10000) 0

def spanDigits (cs : List Char) : List Char × List Char := cs.span Char.isDigit

def readSign : List Char → Bool × List Char
  | '-' :: rest => (true, rest)
  | '+' :: rest => (false, rest)
  | rest => (false, rest)

def readFraction : List Char → Option (List Char) × List Char
  | '.' :: rest =>
    let (digits, rest) := spanDigits rest
    (some digits, rest)
  | rest => (none, rest)

def readExponent? : List Char → Option (Option Int × List Char)
  | c :: rest =>
    if c = 'e' || c = 'E' then
      let (negative, rest) := readSign rest
      match spanDigits rest with
      | ([], _) => none
      | (digits, rest) =>
        let e : Int := boundedNatural digits
        some (some (if negative then -e else e), rest)
    else some (none, c :: rest)
  | [] => some (none, [])

-- A number has a digit before the point or after it, and nothing but blanks around it.
def parse? (text : String) : Option Numeral := do
  let (negative, rest) := readSign (text.toList.dropWhile isBlank)
  let (whole, rest) := spanDigits rest
  let (fraction, rest) := readFraction rest
  let (exponent, rest) ← readExponent? rest
  if (whole ++ fraction.getD []).isEmpty || !rest.all isBlank then none
  else some ⟨negative, whole, fraction, exponent⟩

def ofInt (n : Int) : Numeral := ⟨n < 0, Decimal.digitsOf n.natAbs, none, none⟩

def integer? (n : Numeral) : Option Int :=
  if n.fraction.isNone && n.exponent.isNone then
    some (if n.negative then -(natural n.whole : Int) else natural n.whole)
  else none

def room : Nat := 922337203685477579

def addWhole (s : Nat × Int) (c : Char) : Nat × Int :=
  if s.1 < room then (10 * s.1 + digit c, s.2) else (s.1, s.2 + 1)

def addFraction (s : Nat × Int) (c : Char) : Nat × Int :=
  if s.1 < room then (10 * s.1 + digit c, s.2 - 1) else s

def significand (n : Numeral) : Nat × Int :=
  let (s, e) := (n.fraction.getD []).foldl addFraction (n.whole.foldl addWhole (0, 0))
  (s, e + n.exponent.getD 0)

-- Multiplies by ten up to a number of times while there is room, and tells how often not.
def gather : Nat → Nat → Nat × Nat
  | 0, s => (s, 0)
  | places + 1, s => if s ≤ room then gather places (10 * s) else (s, places + 1)

-- Divides by ten up to a number of times while that is exact, and tells how often not.
def reduce : Nat → Nat → Nat × Nat
  | 0, s => (s, 0)
  | places + 1, s => if s % 10 = 0 then reduce places (s / 10) else (s, places + 1)

def multiplyPower : Nat → Nat → Binary → Binary → Binary
  | 0, _, _, product => product
  | steps + 1, n, square, product =>
    let product := if n % 2 = 1 then Precision.extended.mul product square else product
    multiplyPower steps (n / 2) (Precision.extended.mul square square) product

def powerOfTen (n : Nat) : Binary := multiplyPower (n.log2 + 1) n (.ofNat 10) (.ofNat 1)

def scaled (p : Precision) (up : Bool) (b power : Binary) : Binary :=
  if up then p.mul b power else p.div b power

-- A significand times `10 ^ places`, or divided by it. Powers that are out of range are taken in
-- two steps, and beyond that all is too large or zero.
def scale (negative up : Bool) (s places : Nat) : Floating :=
  let once (places : Nat) : Binary :=
    Precision.double.ofBinary (scaled .extended up (.ofNat s) (powerOfTen places))
  if places = 0 then .ofMagnitude negative (Precision.double.ofFraction s 1)
  else if places ≤ 307 then .ofMagnitude negative (once places)
  else if places < 342 then
    .ofMagnitude negative (scaled .double up (once (places - 308)) (Binary.power 308))
  else if up then .infinite negative
  else .finite negative .zero

def toFloating (n : Numeral) : Floating :=
  let (s, e) := n.significand
  if s = 0 then .finite n.negative .zero
  else if 0 ≤ e then
    let (s, places) := gather e.toNat s
    scale n.negative true s places
  else
    let (s, places) := reduce e.natAbs s
    scale n.negative false s places

end Numeral

end PeerExchange
