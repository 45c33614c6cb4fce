import PeerExchange.Catalog
import PeerExchange.Grammar.Rule
import PeerExchange.Trust

namespace PeerExchange

inductive ParseError where
  | catalogSyntax
  | commandSyntax
  | badPriority (text : String)
  | notLiteral (text : String)
  | compile (cause : CompileError)

namespace ParseError

def message : ParseError → String
  | catalogSyntax => "Failed to parse catalog"
  | commandSyntax => "Failed to parse command"
  | badPriority text => "Bad trust priority " ++ text
  | notLiteral text => "Edit arguments must be literals, found " ++ text
  | compile cause => cause.message

end ParseError

structure Program where
  catalog : Catalog := {}
  trust : TrustPolicy := {}

namespace Grammar

inductive ColumnFlag where
  | key
  | nullable
deriving DecidableEq

structure ColumnText where
  name : String
  typeName : String
  flags : List ColumnFlag

structure RelationText where
  isVirtual : Bool
  name : String
  columns : List ColumnText
  labeledNulls : Bool

inductive Item where
  | peer (name : String) (relations : List RelationText)
  | relation (r : RelationText)
  | mapping (r : Rule)
  | trust (peer source : String) (priority : IntegerText)

def columnFlag : Scan ColumnFlag :=
  ((fun _ => ColumnFlag.key) <$> word "key") <|> ((fun _ => ColumnFlag.nullable) <$> word "null")

def column : Scan ColumnText := do
  let name ← identifier
  sign ":"
  let typeName ← identifier
  let flags ← many columnFlag
  return ⟨name, typeName, flags⟩

def withNulls : Scan Unit := do
  sign "with"
  sign "nulls"

def relation : Scan RelationText := do
  let isVirtual ← maybe (word "virtual")
  sign "relation"
  let name ← identifier
  sign "("
  let columns ← commaList column
  sign ")"
  let nulls ← maybe withNulls
  sign ";"
  return ⟨isVirtual.isSome, name, columns, nulls.isSome⟩

def peer : Scan Item := do
  sign "peer"
  let name ← identifier
  sign "\x7b"
  let relations ← many relation
  sign "\x7d"
  return .peer name relations

def trust : Scan Item := do
  sign "trust"
  let peer ← identifier
  let source ← identifier
  let priority ← integerText
  sign ";"
  return .trust peer source priority

def item : Scan Item :=
  peer <|> (Item.relation <$> relation) <|> (Item.mapping <$> mapping) <|> trust

def ColumnText.toColumn (c : ColumnText) : Compiled Column :=
  match ColumnType.ofName? c.typeName with
  | some type => .ok ⟨c.name, type, c.flags.contains .nullable⟩
  | none => .error (.malformedType c.typeName)

def keyPositions (columns : List ColumnText) : List Nat :=
  (columns.mapIdx fun i c => (c.flags.filter (· = .key)).map fun _ => i).flatten

def RelationText.toRelation (r : RelationText) (peer : Option String) : Compiled Relation := do
  let columns ← r.columns.mapM ColumnText.toColumn
  return {
    name := r.name
    peer := peer
    columns := columns
    key := keyPositions r.columns
    labeledNulls := r.labeledNulls
    materialized := !r.isVirtual }

end Grammar

namespace Program

def addRelation (peer : Option String) (p : Program) (r : Grammar.RelationText) :
    Except ParseError Program :=
  match r.toRelation peer with
  | .error cause => .error (.compile cause)
  | .ok relation =>
    match p.catalog.addRelation relation with
    | .error cause => .error (.compile cause)
    | .ok catalog => .ok { p with catalog := catalog }

def addItem (p : Program) : Grammar.Item → Except ParseError Program
  | .peer name relations => relations.foldlM (addRelation (some name)) p
  | .relation r => p.addRelation none r
  | .mapping r =>
    .ok { p with catalog := { p.catalog with mappings := p.catalog.mappings ++ [r] } }
  | .trust peer source priority =>
    if fitsWord priority.value then
      .ok { p with trust := p.trust.set peer source priority.value }
    else .error (.badPriority priority.text)

def parse (text : String) : Except ParseError Program :=
  match Grammar.whole? (Grammar.many Grammar.item) text.toList with
  | some items => items.foldlM addItem {}
  | none => .error .catalogSyntax

end Program

end PeerExchange
