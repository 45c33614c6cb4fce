import PeerExchange.Grammar.Catalog
import PeerExchange.Text.Hidden

namespace PeerExchange

inductive Command where
  | insert (relation : String) (tuple : List Literal)
  | delete (relation : String) (tuple : List Literal)
  | contents (relation : String)

namespace Grammar

inductive CommandText where
  | insert (a : Atom)
  | delete (a : Atom)
  | contents (relation : String)

def insertCommand : Scan CommandText := do
  sign "+"
  let a ← atom
  return .insert a

def deleteCommand : Scan CommandText := do
  sign "-"
  let a ← atom
  return .delete a

def contentsCommand : Scan CommandText := do
  sign "?"
  let name ← identifier
  return .contents name

def command : Scan CommandText := insertCommand <|> deleteCommand <|> contentsCommand

end Grammar

namespace Command

def literal : Term → Except ParseError Literal
  | .constant _ value => .ok value
  | other => .error (.notLiteral other.render)

def parse (text : String) : Except ParseError Command :=
  match Grammar.whole? Grammar.command (Text.trim text.toList) with
  | some (.insert a) => do return .insert a.relationName (← a.args.mapM literal)
  | some (.delete a) => do return .delete a.relationName (← a.args.mapM literal)
  | some (.contents name) => .ok (.contents name)
  | none => .error .commandSyntax

end Command

end PeerExchange
