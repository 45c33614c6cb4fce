import PeerExchange.Binary
import PeerExchange.Decimal

namespace PeerExchange

namespace Binary

section Shortest

-- What rounds to a magnitude, in quarters of its last bit: the magnitude with the bounds below and
-- above, which count when the mantissa is even.
structure Interval where
  low : Nat
  middle : Nat
  high : Nat
  closed : Bool

def interval (b : Binary) : Interval where
  low := 4 * b.mantissa -
    (if b.mantissa = Nat.pow 2 52 && Precision.double.leastExponent < b.exponent then 1 else 2)
  middle := 4 * b.mantissa
  high := 4 * b.mantissa + 2
  closed := b.mantissa % 2 = 0

def Interval.holds (i : Interval) (num den : Nat) : Bool :=
  if i.closed then i.low * den ≤ num && num ≤ i.high * den
  else i.low * den < num && num < i.high * den

-- The multiple of `10 ^ k` that is nearest to the magnitude, of those that round to it. Of two that
-- are equally near it is the greater.
def onGrid? (b : Binary) (k : Int) : Option Nat :=
  let i := b.interval
  let (n, d) := shift 2 i.middle 1 (2 - b.exponent)
  let (n, d) := shift 10 n d k
  let below := n / d
  let rounds (digits : Nat) : Bool :=
    let (n, d) := shift 10 digits 1 (-k)
    let (n, d) := shift 2 n d (b.exponent - 2)
    0 < digits && i.holds n d
  let preferred := (2 * n + d) / (2 * d)
  let other := if preferred = below then below + 1 else below
  if rounds preferred then some preferred
  else if rounds other then some other
  else none

def search (b : Binary) : Nat → Int → Nat × Int
  | 0, k => (0, k)
  | steps + 1, k =>
    match b.onGrid? k with
    | some digits => (digits, k)
    | none => search b steps (k - 1)

def decimalBound (b : Binary) : Int :=
  let (n, d) := shift 2 b.mantissa 1 (-b.exponent)
  if d ≤ n then (Decimal.digitsOf (n / d)).length
  else 2 - (Decimal.digitsOf (d / n)).length

def shortest (negative : Bool) (b : Binary) : Decimal :=
  if b.mantissa = 0 then ⟨negative, 0, 0⟩
  else
    let (digits, exponent) := search b 20 b.decimalBound
    ⟨negative, digits, exponent⟩

end Shortest

section Significant

open Precision

structure Scaled where
  magnitude : Binary
  exponent : Int

def raise (b factor : Binary) (places : Int) : Nat → Scaled → Scaled
  | 0, scale => scale
  | steps + 1, scale =>
    let next := extended.mul factor scale.magnitude
    if b.isBelow next then scale
    else raise b factor places steps ⟨next, scale.exponent + places⟩

def lift (bound factor : Binary) (places : Int) : Nat → Scaled → Scaled
  | 0, b => b
  | steps + 1, b =>
    if b.magnitude.isBelow bound then
      lift bound factor places steps ⟨extended.mul b.magnitude factor, b.exponent - places⟩
    else b

def power (n : Nat) : Binary := double.ofFraction (Nat.pow 10 n) 1

def hundredMillionth : Binary := double.ofFraction 1 (Nat.pow 10 8)

def tenth : Binary := double.ofFraction 1 10

def halfUnit : Binary :=
  double.mul (double.ofFraction 5 (Nat.pow 10 5)) (double.ofFraction 1 (Nat.pow 10 10))

-- Brings a magnitude that is not zero between one and ten.
def unitScaled (b : Binary) : Scaled :=
  let scale := raise b (power 100) 100 4 ⟨ofNat 1, 0⟩
  let scale := raise b (power 10) 10 10 scale
  let scale := raise b (power 1) 1 10 scale
  let small := lift hundredMillionth (power 8) 8 50 ⟨extended.div b scale.magnitude, scale.exponent⟩
  lift (ofNat 1) (power 1) 1 10 small

def carried (b : Scaled) : Scaled :=
  let sum := extended.add b.magnitude halfUnit
  if sum.isBelow (ofNat 10) then ⟨sum, b.exponent⟩ else ⟨extended.mul sum tenth, b.exponent + 1⟩

def leadingDigits : Nat → Binary → List Char
  | 0, _ => []
  | count + 1, b =>
    Decimal.digitsOf b.floor ++ leadingDigits count (extended.mul b.fraction (ofNat 10))

def significant (negative : Bool) (b : Binary) : String :=
  if b.mantissa = 0 then Decimal.scientific false ['0'] 0
  else
    let scaled := carried (unitScaled b)
    Decimal.scientific negative
      (leadingDigits Decimal.significance scaled.magnitude) scaled.exponent

end Significant

end Binary

end PeerExchange
