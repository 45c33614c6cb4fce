import PeerExchange.Numeral

namespace PeerExchange.Sql

inductive Token where
  | word (text : String)
  | quotedName (text name : String)
  | string (text value : String)
  | integer (text : String)
  | constant (text : String)
  | parameter (text : String)
  | sign (text : String)
  | illegal (text : String)
  | finish
deriving DecidableEq

namespace Token

def text : Token → String
  | word text | quotedName text _ | string text _ | integer text | constant text
  | parameter text | sign text | illegal text => text
  | finish => ""

def reserved : List String :=
  ["ADD", "ALL", "ALTER", "AND", "AS", "AUTOINCREMENT", "BETWEEN", "CASE", "CHECK", "COLLATE",
    "COMMIT", "CONSTRAINT", "CREATE", "DEFAULT", "DEFERRABLE", "DELETE", "DISTINCT", "DROP",
    "ELSE", "ESCAPE", "EXCEPT", "EXISTS", "FOREIGN", "FROM", "GROUP", "HAVING", "IN", "INDEX",
    "INSERT", "INTERSECT", "INTO", "IS", "ISNULL", "JOIN", "LIMIT", "NOT", "NOTHING", "NOTNULL",
    "NULL", "ON", "OR", "ORDER", "PRIMARY", "REFERENCES", "RETURNING", "SELECT", "SET", "TABLE",
    "THEN", "TO", "TRANSACTION", "UNION", "UNIQUE", "UPDATE", "USING", "VALUES", "WHEN", "WHERE"]

def joinWords : List String := ["CROSS", "FULL", "INNER", "LEFT", "NATURAL", "OUTER", "RIGHT"]

def upper? : Token → Option String
  | word text => some text.toUpper
  | _ => none

def isKeyword (keyword : String) (t : Token) : Bool := t.upper? = some keyword

def isSign (text : String) (t : Token) : Bool := t = sign text

def name? : Token → Option String
  | word text => if reserved.contains text.toUpper then none else some text
  | quotedName _ name | string _ name => some name
  | _ => none

def identifier? : Token → Option String
  | string _ _ => none
  | t => t.name?

def label? (t : Token) : Option String :=
  match t.upper? with
  | some keyword => if joinWords.contains keyword || keyword = "INDEXED" then none else t.name?
  | none => t.name?

def isNameChar (c : Char) : Bool := c.isAlphanum || c = '_' || c = '$' || 128 ≤ c.toNat

def isNameStart (c : Char) : Bool := c.isAlpha || c = '_' || 128 ≤ c.toNat

def isBlank (c : Char) : Bool := [' ', '\t', '\n', '\r', '\x0c'].contains c

def isHexDigit (c : Char) : Bool :=
  c.isDigit || ('a' ≤ c && c ≤ 'f') || ('A' ≤ c && c ≤ 'F')

def span (p : Char → Bool) (cs : List Char) : List Char × List Char :=
  (cs.takeWhile p, cs.dropWhile p)

def afterComment : List Char → List Char
  | [] => []
  | '*' :: '/' :: rest => rest
  | _ :: rest => afterComment rest

-- The characters up to a closing quote, as written and as meant, where a quote written twice stands
-- for one.
def quoted (quote : Char) : List Char → Option (List Char × List Char × List Char)
  | [] => none
  | c :: rest =>
    if c = quote then
      match rest with
      | d :: more =>
        if d = quote then
          (quoted quote more).map fun (raw, value, rest) => (c :: d :: raw, c :: value, rest)
        else some ([c], [], rest)
      | [] => some ([c], [], [])
    else (quoted quote rest).map fun (raw, value, rest) => (c :: raw, c :: value, rest)

def readQuoted (quote : Char) (rest : List Char) : Token × List Char :=
  match quoted quote rest with
  | some (raw, value, rest) =>
    let text := String.ofList (quote :: raw)
    let value := String.ofList value
    (if quote = '\'' then string text value else quotedName text value, rest)
  | none => (illegal (String.ofList (quote :: rest)), [])

def readBracketed (rest : List Char) : Token × List Char :=
  match span (· ≠ ']') rest with
  | (name, _ :: rest) =>
    (quotedName (String.ofList ('[' :: name ++ [']'])) (String.ofList name), rest)
  | (name, []) => (illegal (String.ofList ('[' :: name)), [])

def readExponent : List Char → List Char × List Char
  | e :: rest =>
    if e = 'e' || e = 'E' then
      match rest with
      | c :: d :: more =>
        if c.isDigit then ((e :: (span Char.isDigit rest).1), (span Char.isDigit rest).2)
        else if (c = '+' || c = '-') && d.isDigit then
          (e :: c :: (span Char.isDigit (d :: more)).1, (span Char.isDigit (d :: more)).2)
        else ([], e :: rest)
      | [c] => if c.isDigit then ([e, c], []) else ([], e :: rest)
      | [] => ([], e :: rest)
    else ([], e :: rest)
  | [] => ([], [])

def readFraction : List Char → List Char × List Char
  | '.' :: rest => ('.' :: (span Char.isDigit rest).1, (span Char.isDigit rest).2)
  | rest => ([], rest)

-- A decimal number, which a name may not follow at once.
def readDecimal (cs : List Char) : Token × List Char :=
  let (whole, rest) := span Char.isDigit cs
  let (fraction, rest) := readFraction rest
  let (exponent, rest) := readExponent rest
  let (tail, rest) := span isNameChar rest
  let text := String.ofList (whole ++ fraction ++ exponent ++ tail)
  (if !tail.isEmpty then illegal text
    else if fraction.isEmpty && exponent.isEmpty then integer text
    else constant text, rest)

def readNumber : List Char → Token × List Char
  | '0' :: x :: d :: rest =>
    if (x = 'x' || x = 'X') && isHexDigit d then
      let (digits, rest) := span isHexDigit (d :: rest)
      (integer (String.ofList ('0' :: x :: digits)), rest)
    else readDecimal ('0' :: x :: d :: rest)
  | cs => readDecimal cs

def readBytes (x : Char) (rest : List Char) : Token × List Char :=
  let (digits, rest) := span isHexDigit rest
  match rest with
  | '\'' :: rest =>
    let text := String.ofList (x :: '\'' :: digits ++ ['\''])
    (if digits.length % 2 = 0 then constant text else illegal text, rest)
  | rest =>
    let (more, rest) := span (· ≠ '\'') rest
    (illegal (String.ofList (x :: '\'' :: digits ++ more ++ rest.take 1)), rest.drop 1)

def parameterName : List Char → List Char × List Char
  | [] => ([], [])
  | ':' :: ':' :: rest =>
    let (name, rest) := parameterName rest
    (':' :: ':' :: name, rest)
  | c :: rest =>
    if isNameChar c then
      let (name, rest) := parameterName rest
      (c :: name, rest)
    else ([], c :: rest)

def readParameter (c : Char) (rest : List Char) : Token × List Char :=
  let (name, rest) := parameterName rest
  let text := String.ofList (c :: name)
  if !name.any isNameChar then (illegal text, rest)
  else
    match rest with
    | '(' :: more =>
      let (index, rest) := span (fun d => d ≠ ')' && !Numeral.isBlank d) more
      match rest with
      | ')' :: rest => (parameter (text ++ "(" ++ String.ofList index ++ ")"), rest)
      | rest => (illegal (text ++ "(" ++ String.ofList index), rest)
    | rest => (parameter text, rest)

def signs : List String :=
  ["->>", "->", "<=", "<>", "<<", ">=", ">>", "==", "!=", "||", "(", ")", ";", "+", "-", "*",
    "/", "%", "=", "<", ">", "|", ",", "&", "~", "."]

def readSign (cs : List Char) : Token × List Char :=
  match signs.find? (·.toList.isPrefixOf cs) with
  | some text => (sign text, cs.drop text.length)
  | none => (illegal (String.ofList (cs.take 1)), cs.drop 1)

def read : List Char → Token × List Char
  | [] => (finish, [])
  | c :: rest =>
    if c = '\'' || c = '"' || c = Char.ofNat 96 then readQuoted c rest
    else if c = '[' then readBracketed rest
    else if c.isDigit || (c = '.' && rest.head?.any Char.isDigit) then readNumber (c :: rest)
    else if (c = 'x' || c = 'X') && rest.head? = some '\'' then readBytes c (rest.drop 1)
    else if c = '?' then
      let (digits, rest) := span Char.isDigit rest
      (parameter (String.ofList (c :: digits)), rest)
    else if ['$', '@', '#', ':'].contains c then readParameter c rest
    else if isNameStart c then
      let (name, rest) := span isNameChar rest
      (word (String.ofList (c :: name)), rest)
    else readSign (c :: rest)

def readAll : Nat → List Char → List Token
  | 0, _ | _, [] => [finish]
  | steps + 1, c :: rest =>
    if isBlank c then readAll steps (rest.dropWhile (· = '\x0b'))
    else if c = '\uFEFF' then readAll steps rest
    else if c = '-' && rest.head? = some '-' then
      readAll steps (rest.dropWhile (· ≠ '\n'))
    else if c = '/' && rest.head? = some '*' && !(rest.drop 1).isEmpty then
      readAll steps (afterComment (rest.drop 1))
    else
      let (token, rest) := read (c :: rest)
      token :: readAll steps rest

def ofText (s : String) : List Token :=
  let cs := s.toList.takeWhile (· ≠ '\x00')
  readAll cs.length cs

end Token

end PeerExchange.Sql
