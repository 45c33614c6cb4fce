import PeerExchange.Grammar.Scan
import PeerExchange.Rule

namespace PeerExchange.Grammar

def digitsValue (digits : List Char) : Nat :=
  digits.foldl (fun n d => 10 * n + (d.toNat - '0'.toNat)) 0

structure IntegerText where
  negative : Bool
  digits : List Char

namespace IntegerText

def value (t : IntegerText) : Int :=
  if t.negative then -(digitsValue t.digits : Int) else digitsValue t.digits

def text (t : IntegerText) : String :=
  String.ofList (if t.negative then '-' :: t.digits else t.digits)

end IntegerText

def integerText : Scan IntegerText := token do
  let minus ← maybe (exactly "-")
  let first ← takeOne Char.isDigit
  let rest ← takeRun Char.isDigit
  return ⟨minus.isSome, first :: rest⟩

def stringLiteral : Scan Literal := token do
  exactly "\""
  let inside ← takeRun (· ≠ '"')
  exactly "\""
  return .string (String.ofList inside)

def labeledNull : Scan Literal := token do
  exactly "_:"
  let first ← takeOne isLetter
  let rest ← takeRun isWordChar
  return .labeledNull (String.ofList (first :: rest))

def literal : Scan Literal :=
  stringLiteral <|> labeledNull <|> ((Literal.integer ·.value) <$> integerText) <|>
    ((fun _ => Literal.null) <$> word "null")

def term : Scan Term := (Term.lit <$> literal) <|> (Term.var <$> identifier)

def atom : Scan Atom := do
  let name ← identifier
  sign "("
  let args ← commaList term <|> pure []
  sign ")"
  return .ofRelation name args

def negatedAtom : Scan Atom := do
  word "not"
  let a ← atom
  return a.negate

def functionName : Scan Builtin :=
  ((fun _ => Builtin.least) <$> word "least") <|>
    ((fun _ => Builtin.greatest) <$> word "greatest")

def functionCall : Scan Atom := do
  let output ← term
  sign "="
  let op ← functionName
  sign "("
  let first ← term
  sign ","
  let second ← term
  sign ")"
  return .ofBuiltin op [output, first, second]

def comparisonSign : Scan Builtin :=
  ((fun _ => Builtin.ne) <$> sign "!=") <|> ((fun _ => Builtin.ne) <$> sign "<>") <|>
    ((fun _ => Builtin.le) <$> sign "<=") <|> ((fun _ => Builtin.ge) <$> sign ">=") <|>
    ((fun _ => Builtin.eq) <$> sign "=") <|> ((fun _ => Builtin.lt) <$> sign "<") <|>
    ((fun _ => Builtin.gt) <$> sign ">")

def comparison : Scan Atom := do
  let left ← term
  let op ← comparisonSign
  let right ← term
  return .ofBuiltin op [left, right]

def bodyItem : Scan Atom := negatedAtom <|> functionCall <|> comparison <|> atom

def mapping : Scan Rule := do
  sign "mapping"
  let id ← identifier
  sign ":"
  let head ← commaList atom
  sign ":-"
  let body ← commaList bodyItem
  sign "."
  return .ofHeads id head body

end PeerExchange.Grammar
