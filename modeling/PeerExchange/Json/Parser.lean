import PeerExchange.Binary
import PeerExchange.Json.Basic

namespace PeerExchange.Json

abbrev Shorter (s : List Char) := { rest : List Char // rest.length < s.length }

abbrev Reader (α : Type) := (s : List Char) → Option (α × Shorter s)

def Shorter.widen {s t : List Char} (rest : Shorter s) (longer : s.length ≤ t.length) : Shorter t :=
  ⟨rest.1, Nat.lt_of_lt_of_le rest.2 longer⟩

def Shorter.tail (c : Char) (rest : List Char) : Shorter (c :: rest) :=
  ⟨rest, Nat.lt_succ_self _⟩

def Shorter.behind (c : Char) {s : List Char} (rest : Shorter s) : Shorter (c :: s) :=
  rest.widen (Nat.le_succ _)

def isBlank (c : Char) : Bool := c = ' ' || c = '\n' || c = '\t' || c = '\r'

def skipBlanks (s : List Char) : List Char := s.dropWhile isBlank

theorem length_skipBlanks_le (s : List Char) : (skipBlanks s).length ≤ s.length :=
  (List.dropWhile_sublist isBlank).length_le

def afterBlanks {α : Type} (read : Reader α) : Reader α := fun s =>
  (read (skipBlanks s)).map fun (a, rest) => (a, rest.widen (length_skipBlanks_le s))

def hexValue? (c : Char) : Option Nat :=
  if '0' ≤ c && c ≤ '9' then some (c.toNat - '0'.toNat)
  else if 'a' ≤ c && c ≤ 'f' then some (c.toNat - 'a'.toNat + 10)
  else if 'A' ≤ c && c ≤ 'F' then some (c.toNat - 'A'.toNat + 10)
  else none

def unit? : Reader Nat
  | a :: b :: c :: d :: rest => do
    let a ← hexValue? a
    let b ← hexValue? b
    let c ← hexValue? c
    let d ← hexValue? d
    some (((a * 16 + b) * 16 + c) * 16 + d, ⟨rest, by simp; omega⟩)
  | _ => none

def lowUnit? : Reader Nat
  | '\\' :: 'u' :: rest => do
    let (low, left) ← unit? rest
    if 0xdc00 ≤ low && low < 0xe000 then some (low, (left.behind 'u').behind '\\') else none
  | _ => none

-- The character of an escape in UTF-16 units: one unit, or a high and a low one. Half a pair is no
-- character.
def unitChar? : Reader (Option Char) := fun s => do
  let (high, rest) ← unit? s
  if 0xd800 ≤ high && high < 0xdc00 then
    match lowUnit? rest.1 with
    | some (low, left) =>
      some (some (Char.ofNat (0x10000 + (high - 0xd800) * 0x400 + (low - 0xdc00))),
        left.widen (Nat.le_of_lt rest.2))
    | none => some (none, rest)
  else if 0xdc00 ≤ high && high < 0xe000 then some (none, rest)
  else some (some (Char.ofNat high), rest)

def escapes : List (Char × Char) :=
  [('"', '"'), ('\\', '\\'), ('/', '/'), ('b', '\x08'), ('f', '\x0c'), ('n', '\n'), ('r', '\r'),
    ('t', '\t')]

def escaped? : Reader (Option Char)
  | [] => none
  | c :: rest =>
    if c = 'u' then (unitChar? rest).map fun (d, left) => (d, left.behind c)
    else (escapes.lookup c).map fun d => (some d, .tail c rest)

def stringChar? : Reader (Option Char)
  | [] => none
  | c :: rest =>
    if c = '\\' then (escaped? rest).map fun (d, left) => (d, left.behind c)
    else if c.toNat < 0x20 then none
    else some (some c, .tail c rest)

-- The characters of a string up to the closing quote, in reverse and before those that are given;
-- nothing, if one of them cannot be read.
def stringTail? (reversed : Option (List Char)) (s : List Char) :
    Option (Option (List Char) × Shorter s) :=
  match s with
  | [] => none
  | c :: rest =>
    if c = '"' then some (reversed, .tail c rest)
    else
      match stringChar? (c :: rest) with
      | some (d, after) =>
        (stringTail? (d.bind fun d => reversed.map (d :: ·)) after.1).map fun (cs, left) =>
          (cs, left.widen (Nat.le_of_lt after.2))
      | none => none
termination_by s.length
decreasing_by exact after.2

def string? : Reader (Option String)
  | [] => none
  | c :: rest =>
    if c = '"' then
      (stringTail? (some []) rest).map fun (cs, left) =>
        (cs.map fun cs => String.ofList cs.reverse, left.behind c)
    else none

def isDigit (c : Char) : Bool := '0' ≤ c && c ≤ '9'

def digitsValue (digits : List Char) : Nat :=
  digits.foldl (fun n d => 10 * n + (d.toNat - '0'.toNat)) 0

def digits? : Reader (List Char)
  | [] => none
  | c :: rest =>
    if isDigit c then
      some (c :: rest.takeWhile isDigit, ⟨rest.dropWhile isDigit,
        Nat.lt_succ_of_le (List.dropWhile_sublist isDigit).length_le⟩)
    else none

def whole? : Reader (List Char)
  | [] => none
  | c :: rest => if c = '0' then some (['0'], .tail c rest) else digits? (c :: rest)

abbrev NoLonger (s : List Char) := { rest : List Char // rest.length ≤ s.length }

def sign (s : List Char) : List Char × NoLonger s :=
  match s with
  | '-' :: rest => (['-'], ⟨rest, Nat.le_succ _⟩)
  | '+' :: rest => (['+'], ⟨rest, Nat.le_succ _⟩)
  | rest => ([], ⟨rest, Nat.le_refl _⟩)

def fraction? (s : List Char) : Option (List Char × NoLonger s) :=
  match s with
  | '.' :: rest =>
    (digits? rest).map fun (ds, left) =>
      ('.' :: ds, ⟨left.1, Nat.le_succ_of_le (Nat.le_of_lt left.2)⟩)
  | rest => some ([], ⟨rest, Nat.le_refl _⟩)

def exponent? (s : List Char) : Option (List Char × NoLonger s) :=
  match s with
  | [] => some ([], ⟨[], Nat.le_refl _⟩)
  | c :: rest =>
    if c = 'e' || c = 'E' then
      let (signText, after) := sign rest
      (digits? after.1).map fun (ds, left) => (c :: signText ++ ds,
        ⟨left.1, Nat.le_succ_of_le (Nat.le_trans (Nat.le_of_lt left.2) after.2)⟩)
    else some ([], ⟨c :: rest, Nat.le_refl _⟩)

def significandLimit : Nat := Nat.pow 2 64

-- Appends digits to a significand up to the first one that it has no room for, and gives the digits
-- that are left.
def appendDigits (significand : Nat) : List Char → Nat × List Char
  | [] => (significand, [])
  | d :: rest =>
    let next := 10 * significand + (d.toNat - '0'.toNat)
    if next < significandLimit then appendDigits next rest else (significand, d :: rest)

-- A written number as a significand and a power of ten. Digits that the significand has no room for
-- count as zeros before the point, and not at all behind it.
def scaled (whole places exponent : List Char) : Nat × Int :=
  let (leading, wholeRest) := appendDigits 0 whole
  let (significand, placesRest) := appendDigits leading places
  let size : Int := digitsValue (exponent.filter isDigit)
  let point : Int := wholeRest.length - (places.length - placesRest.length : Nat)
  (significand, if exponent.contains '-' then point - size else point + size)

def greatestPower : Int := 308

-- Whether the product of a significand and a power of ten is still a 64-bit number, when both
-- factors and the product are rounded. A quotient always is one.
def isBounded (significand : Nat) (power : Int) : Bool :=
  significand = 0 || power < 0 ||
    (power ≤ greatestPower && Precision.double.holds
      (Precision.double.mul (Precision.double.ofFraction significand 1)
        (Precision.double.ofFraction (Nat.pow 10 power.toNat) 1)))

-- A number that is written with a fraction, an exponent or as minus zero is not an integer.
def numberValue (negative : Bool) (whole fraction exponent : List Char) : Json :=
  let (significand, power) := scaled whole fraction.tail exponent
  if isBounded significand power then
    if fraction.isEmpty && exponent.isEmpty && !(negative && whole = ['0']) then
      let n : Int := digitsValue whole
      int (if negative then -n else n)
    else real (String.ofList ((if negative then ['-'] else []) ++ whole ++ fraction ++ exponent))
  else unreadable

def magnitude? (negative : Bool) : Reader Json := fun s => do
  let (whole, s₁) ← whole? s
  let (fraction, s₂) ← fraction? s₁.1
  let (exponent, s₃) ← exponent? s₂.1
  some (numberValue negative whole fraction exponent,
    ⟨s₃.1, Nat.lt_of_le_of_lt (Nat.le_trans s₃.2 s₂.2) s₁.2⟩)

def number? : Reader Json
  | '-' :: rest => (magnitude? true rest).map fun (j, left) => (j, left.behind '-')
  | s => magnitude? false s

def moreParts? {α : Type} (part : Reader α) (closing : Char) (s : List Char) :
    Option (List α × Shorter s) :=
  match found : skipBlanks s with
  | [] => none
  | c :: rest =>
    have shorter : rest.length < s.length := by
      have bound := length_skipBlanks_le s
      rw [found] at bound
      exact bound
    if c = closing then some ([], ⟨rest, shorter⟩)
    else if c = ',' then
      match part rest with
      | some (a, after) =>
        (moreParts? part closing after.1).map fun (as, left) =>
          (a :: as, left.widen (Nat.le_of_lt (Nat.lt_trans after.2 shorter)))
      | none => none
    else none
termination_by s.length
decreasing_by exact Nat.lt_trans after.2 shorter

def parts? {α : Type} (part : Reader α) (closing : Char) : Reader (List α) :=
  afterBlanks fun s =>
    match s with
    | [] => none
    | c :: rest =>
      if c = closing then some ([], .tail c rest)
      else
        match part (c :: rest) with
        | some (a, after) =>
          (moreParts? part closing after.1).map fun (as, left) =>
            (a :: as, left.widen (Nat.le_of_lt after.2))
        | none => none

def colon? : Reader Unit
  | ':' :: rest => some ((), .tail ':' rest)
  | _ => none

def memberName? : Reader (Option String) := fun s => do
  let (name, afterName) ← afterBlanks string? s
  let ((), rest) ← afterBlanks colon? afterName.1
  some (name, rest.widen (Nat.le_of_lt afterName.2))

def readMember (value : Reader Json) : Reader (Option (String × Json)) := fun s => do
  let (name, afterName) ← memberName? s
  let (j, rest) ← value afterName.1
  some (name.map (·, j), rest.widen (Nat.le_of_lt afterName.2))

def ofMembers (members : List (Option (String × Json))) : Json :=
  match members.mapM id with
  | some members => obj members
  | none => unreadable

def constant? : Reader Json
  | 'n' :: 'u' :: 'l' :: 'l' :: rest => some (null, ⟨rest, by simp; omega⟩)
  | 't' :: 'r' :: 'u' :: 'e' :: rest => some (bool true, ⟨rest, by simp; omega⟩)
  | 'f' :: 'a' :: 'l' :: 's' :: 'e' :: rest => some (bool false, ⟨rest, by simp; omega⟩)
  | _ => none

def scalar? : Reader Json := fun s =>
  match constant? s with
  | some found => some found
  | none =>
    match string? s with
    | some (some text, rest) => some (str text, rest)
    | some (none, rest) => some (unreadable, rest)
    | none => number? s

def nextSign? : Reader Char := afterBlanks fun s =>
  match s with
  | [] => none
  | c :: rest => some (c, .tail c rest)

-- What is left of a text after something that may be nothing.
def NoLonger.widen {s t : List Char} (rest : NoLonger s) (longer : s.length ≤ t.length) :
    NoLonger t :=
  ⟨rest.1, Nat.le_trans rest.2 longer⟩

def closing? (c : Char) : Option Char :=
  if c = '[' then some ']' else if c = '\x7b' then some '\x7d' else none

def partStart? (closing : Char) (s : List Char) : Option (NoLonger s) :=
  if closing = '\x7d' then (memberName? s).map fun (_, rest) => ⟨rest.1, Nat.le_of_lt rest.2⟩
  else some ⟨s, Nat.le_refl _⟩

inductive Passing where
  | value
  | opened
  | between

def Passing.weight : Passing → Nat
  | opened => 1
  | value | between => 0

-- Passes over a value and over what is left of the lists around it, which are given by their
-- closing brackets from the innermost on.
def pass? (next : Passing) (closings : List Char) (s : List Char) : Option (NoLonger s) :=
  match next, closings with
  | .value, closings =>
    match nextSign? s with
    | none => none
    | some (c, rest) =>
      match closing? c with
      | some closing =>
        (pass? .opened (closing :: closings) rest.1).map (·.widen (Nat.le_of_lt rest.2))
      | none =>
        match afterBlanks scalar? s with
        | some (_, after) => (pass? .between closings after.1).map (·.widen (Nat.le_of_lt after.2))
        | none => none
  | .opened, [] => none
  | .opened, closing :: outer =>
    match nextSign? s with
    | none => none
    | some (c, rest) =>
      if c = closing then (pass? .between outer rest.1).map (·.widen (Nat.le_of_lt rest.2))
      else
        match partStart? closing s with
        | some after => (pass? .value (closing :: outer) after.1).map (·.widen after.2)
        | none => none
  | .between, [] => some ⟨s, Nat.le_refl _⟩
  | .between, closing :: outer =>
    match nextSign? s with
    | none => none
    | some (c, rest) =>
      if c = closing then (pass? .between outer rest.1).map (·.widen (Nat.le_of_lt rest.2))
      else if c = ',' then
        match partStart? closing rest.1 with
        | some after =>
          (pass? .value (closing :: outer) after.1).map
            (·.widen (Nat.le_trans after.2 (Nat.le_of_lt rest.2)))
        | none => none
      else none
termination_by 2 * s.length + next.weight
decreasing_by
  all_goals simp only [Passing.weight]
  · have := rest.2
    omega
  · have := after.2
    omega
  · have := rest.2
    omega
  · have := after.2
    omega
  · have := rest.2
    omega
  · have := rest.2
    have := after.2
    omega

def passed? : Reader Json
  | [] => none
  | c :: rest =>
    match closing? c with
    | some closing =>
      (pass? .opened [closing] rest).map fun left =>
        (unreadable, ⟨left.1, Nat.lt_succ_of_le left.2⟩)
    | none => none

-- A value with at most so many arrays and objects inside each other. What stands deeper is passed
-- over.
def value? : Nat → Reader Json
  | 0 => afterBlanks fun s =>
    match passed? s with
    | some found => some found
    | none => scalar? s
  | depth + 1 => afterBlanks fun s =>
    match s with
    | '[' :: rest =>
      (parts? (value? depth) ']' rest).map fun (js, left) => (arr js, left.behind '[')
    | '\x7b' :: rest =>
      (parts? (readMember (value? depth)) '\x7d' rest).map fun (ms, left) =>
        (ofMembers ms, left.behind '\x7b')
    | s => scalar? s

def nestingLimit : Nat := 127

def parse? (text : String) : Option Json :=
  match value? nestingLimit text.toList with
  | some (j, rest) => if (skipBlanks rest.1).isEmpty then some j else none
  | none => none

mutual

-- Of members with one name only the last is kept, in every object.
def lastWins : Json → Json
  | arr items => arr (lastWinsAll items)
  | obj members => obj (lastWinsMembers members)
  | other => other

def lastWinsAll : List Json → List Json
  | [] => []
  | j :: rest => lastWins j :: lastWinsAll rest

def lastWinsMembers : List (String × Json) → List (String × Json)
  | [] => []
  | (name, j) :: rest =>
    let rest' := lastWinsMembers rest
    if rest'.any (·.1 = name) then rest' else (name, lastWins j) :: rest'

end

end PeerExchange.Json
