namespace PeerExchange

structure Decimal where
  negative : Bool
  digits : Nat
  exponent : Int
deriving DecidableEq

namespace Decimal

def zeros (n : Nat) : List Char := List.replicate n '0'

def digitsOf (n : Nat) : List Char := Nat.toDigits 10 n

def withSign (negative : Bool) (magnitude : String) : String :=
  if negative then "-" ++ magnitude else magnitude

-- All digits in their places, with a point only before a fraction.
def positional (d : Decimal) : String :=
  let ds := digitsOf d.digits
  withSign d.negative <| String.ofList <|
    if 0 ≤ d.exponent then ds ++ zeros d.exponent.toNat
    else
      let places := d.exponent.natAbs
      let padded := zeros (places + 1 - ds.length) ++ ds
      padded.take (padded.length - places) ++ '.' :: padded.drop (padded.length - places)

def dropTrailingZeros (ds : List Char) : List Char := (ds.reverse.dropWhile (· = '0')).reverse

def fractionText (ds : List Char) : List Char :=
  '.' :: (if (dropTrailingZeros ds).isEmpty then ['0'] else dropTrailingZeros ds)

def exponentText (e : Int) : List Char :=
  let ds := digitsOf e.natAbs
  'e' :: (if e < 0 then '-' else '+') :: (zeros (2 - ds.length) ++ ds)

def significance : Nat := 15

-- Digits whose first one counts in `10 ^ leading`. They stand in their places while that is between
-- the fourth place after the point and the last digit that there is room for.
def scientific (negative : Bool) (ds : List Char) (leading : Int) : String :=
  withSign negative <| String.ofList <|
    if leading < -4 || significance ≤ leading then
      ds.take 1 ++ fractionText (ds.drop 1) ++ exponentText leading
    else if leading < 0 then
      '0' :: fractionText (zeros (leading.natAbs - 1) ++ ds)
    else
      let whole := leading.toNat + 1
      ds.take whole ++ fractionText (ds.drop whole)

end Decimal

end PeerExchange
