namespace PeerExchange.Grammar

abbrev Scan := StateT (List Char) Option

def isLetter (c : Char) : Bool := c.isAlpha || c = '_'

def isWordChar (c : Char) : Bool := c.isAlphanum || c = '_'

def isLineEnd (c : Char) : Bool := c = '\n' || c = '\r'

def isBlank (c : Char) : Bool := c = ' ' || c = '\t' || isLineEnd c

-- Skips blanks and comments, inside a comment or not. A comment goes from two slashes to the end of
-- the line.
def skipTrivia (inComment : Bool) : List Char → List Char
  | [] => []
  | c :: rest =>
    if inComment then skipTrivia (!isLineEnd c) rest
    else if isBlank c then skipTrivia false rest
    else
      match c, rest with
      | '/', '/' :: rest => skipTrivia true rest
      | c, rest => c :: rest

def stripChars : List Char → List Char → Option (List Char)
  | [], s => some s
  | c :: cs, d :: s => if c = d then stripChars cs s else none
  | _ :: _, [] => none

def exactly (text : String) : Scan Unit := fun s => (stripChars text.toList s).map ((), ·)

def wordEnd : Scan Unit := fun s =>
  match s with
  | c :: _ => if isWordChar c then none else some ((), s)
  | [] => some ((), s)

def takeRun (p : Char → Bool) : Scan (List Char) := fun s => some (s.takeWhile p, s.dropWhile p)

def takeOne (p : Char → Bool) : Scan Char := fun s =>
  match s with
  | c :: rest => if p c then some (c, rest) else none
  | [] => none

def token {α : Type} (p : Scan α) : Scan α := fun s => p (skipTrivia false s)

def sign (text : String) : Scan Unit := token (exactly text)

def word (text : String) : Scan Unit := token do
  exactly text
  wordEnd

def identifier : Scan String := token do
  let first ← takeOne isLetter
  let rest ← takeRun isWordChar
  return String.ofList (first :: rest)

def finished : Scan Unit := token fun s => if s.isEmpty then some ((), []) else none

def many {α : Type} (p : Scan α) (s : List Char) : Option (List α × List Char) :=
  match p s with
  | none => some ([], s)
  | some (a, rest) =>
    if rest.length < s.length then (many p rest).map fun (as, left) => (a :: as, left)
    else some ([a], rest)
termination_by s.length

def maybe {α : Type} (p : Scan α) : Scan (Option α) := (some <$> p) <|> pure none

def commaList {α : Type} (p : Scan α) : Scan (List α) := do
  let first ← p
  let rest ← many do
    sign ","
    p
  return first :: rest

def whole? {α : Type} (p : Scan α) (s : List Char) : Option α :=
  (((do let a ← p; finished; return a) : Scan α) s).map Prod.fst

end PeerExchange.Grammar
