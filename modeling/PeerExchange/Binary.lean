namespace PeerExchange

structure Binary where
  mantissa : Nat
  exponent : Int
deriving DecidableEq

-- How magnitudes are kept: with so many bits of the mantissa, from the least exponent to the
-- greatest.
structure Precision where
  bits : Nat
  leastExponent : Int
  greatestExponent : Int
deriving DecidableEq

namespace Binary

def zero : Binary := ⟨0, 0⟩

def ofNat (n : Nat) : Binary := ⟨n, 0⟩

-- The quotient rounded to the nearest number, a half to the even one.
def roundQuotient (num den : Nat) : Nat :=
  let below := num / den
  let rest := num % den
  if 2 * rest < den then below
  else if den < 2 * rest then below + 1
  else below + below % 2

def shift (base num den : Nat) (e : Int) : Nat × Nat :=
  if 0 ≤ e then (num, den * base.pow e.toNat) else (num * base.pow e.natAbs, den)

-- The magnitude as a multiple of `2 ^ e`, for an exponent that is not above its own.
def inUnits (b : Binary) (e : Int) : Nat := b.mantissa * Nat.pow 2 (b.exponent - e).toNat

def order (a b : Binary) : Ordering :=
  let finer := min a.exponent b.exponent
  compare (a.inUnits finer) (b.inUnits finer)

def isBelow (a b : Binary) : Bool := a.order b = .lt

-- The largest natural number that is not above the magnitude.
def floor (b : Binary) : Nat :=
  if 0 ≤ b.exponent then b.mantissa * Nat.pow 2 b.exponent.toNat
  else b.mantissa / Nat.pow 2 b.exponent.natAbs

def fraction (b : Binary) : Binary :=
  if 0 ≤ b.exponent then zero else ⟨b.mantissa % Nat.pow 2 b.exponent.natAbs, b.exponent⟩

def natural? (b : Binary) : Option Nat := if b.fraction.mantissa = 0 then some b.floor else none

end Binary

namespace Precision

def double : Precision := ⟨53, -1074, 971⟩

def extended : Precision := ⟨64, -16445, 16320⟩

def normalize (p : Precision) (b : Binary) : Binary :=
  if b.mantissa = Nat.pow 2 p.bits then ⟨Nat.pow 2 (p.bits - 1), b.exponent + 1⟩ else b

def leadingBit (num den : Nat) : Int :=
  let guess : Int := (num.log2 : Int) - den.log2
  let (n, d) := Binary.shift 2 num den guess
  if n < d then guess - 1 else guess

def round (p : Precision) (num den : Nat) (e : Int) : Binary :=
  if num = 0 then .zero
  else
    let unit := max (e + leadingBit num den - (p.bits - 1)) p.leastExponent
    let (n, d) := Binary.shift 2 num den (unit - e)
    p.normalize ⟨Binary.roundQuotient n d, unit⟩

-- Whether a rounded magnitude is not too large to be kept.
def holds (p : Precision) (b : Binary) : Bool := b.exponent ≤ p.greatestExponent

def ofBinary (p : Precision) (b : Binary) : Binary := p.round b.mantissa 1 b.exponent

def ofFraction (p : Precision) (num den : Nat) : Binary := p.round num den 0

def mul (p : Precision) (a b : Binary) : Binary :=
  p.round (a.mantissa * b.mantissa) 1 (a.exponent + b.exponent)

def div (p : Precision) (a b : Binary) : Binary :=
  p.round a.mantissa b.mantissa (a.exponent - b.exponent)

def add (p : Precision) (a b : Binary) : Binary :=
  let finer := min a.exponent b.exponent
  p.round (a.inUnits finer + b.inUnits finer) 1 finer

end Precision

end PeerExchange
