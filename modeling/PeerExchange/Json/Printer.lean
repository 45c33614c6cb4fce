import PeerExchange.Json.Basic
import PeerExchange.Text.Hidden

namespace PeerExchange.Json

def controlDigits (n : Nat) : List Char :=
  let digits := Text.hexDigits n
  List.replicate (4 - digits.length) '0' ++ digits

def escape (c : Char) : List Char :=
  if c = '"' then ['\\', '"']
  else if c = '\\' then ['\\', '\\']
  else if c = '\x08' then ['\\', 'b']
  else if c = '\t' then ['\\', 't']
  else if c = '\n' then ['\\', 'n']
  else if c = '\x0c' then ['\\', 'f']
  else if c = '\r' then ['\\', 'r']
  else if c.toNat < 0x20 then ['\\', 'u'] ++ controlDigits c.toNat
  else [c]

def quote (s : String) : List Char := '"' :: s.toList.flatMap escape ++ ['"']

def joined (separator : List Char) : List (List Char) → List Char
  | [] => []
  | [part] => part
  | part :: rest => part ++ separator ++ joined separator rest

mutual

def compactChars : Json → List Char
  | null => "null".toList
  | bool true => "true".toList
  | bool false => "false".toList
  | int n => (toString n).toList
  | real text => text.toList
  | str s => quote s
  | arr items => '[' :: joined [','] (compactItems items) ++ [']']
  | obj members => '\x7b' :: joined [','] (compactMembers members) ++ ['\x7d']
  | unreadable => "null".toList

def compactItems : List Json → List (List Char)
  | [] => []
  | j :: rest => compactChars j :: compactItems rest

def compactMembers : List (String × Json) → List (List Char)
  | [] => []
  | (name, j) :: rest => (quote name ++ ':' :: compactChars j) :: compactMembers rest

end

def compact (j : Json) : String := String.ofList j.compactChars

def lineBreak (depth : Nat) : List Char := '\n' :: List.replicate (2 * depth) ' '

-- A bracketed list with each part on its own line; nothing between the brackets of an empty one.
def block (depth : Nat) (opening closing : Char) : List (List Char) → List Char
  | [] => [opening, closing]
  | parts =>
    opening :: lineBreak (depth + 1) ++ joined (',' :: lineBreak (depth + 1)) parts ++
      lineBreak depth ++ [closing]

mutual

def prettyChars (depth : Nat) : Json → List Char
  | arr items => block depth '[' ']' (prettyItems (depth + 1) items)
  | obj members => block depth '\x7b' '\x7d' (prettyMembers (depth + 1) members)
  | null => compactChars null
  | bool b => compactChars (bool b)
  | int n => compactChars (int n)
  | real text => compactChars (real text)
  | str s => compactChars (str s)
  | unreadable => compactChars unreadable

def prettyItems (depth : Nat) : List Json → List (List Char)
  | [] => []
  | j :: rest => prettyChars depth j :: prettyItems depth rest

def prettyMembers (depth : Nat) : List (String × Json) → List (List Char)
  | [] => []
  | (name, j) :: rest =>
    (quote name ++ ':' :: ' ' :: prettyChars depth j) :: prettyMembers depth rest

end

def pretty (j : Json) : String := String.ofList (j.prettyChars 0)

end PeerExchange.Json
