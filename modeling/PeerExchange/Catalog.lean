import PeerExchange.Error
import PeerExchange.NameMap

namespace PeerExchange

structure Peer where
  name : String
  relations : List String
deriving DecidableEq

structure Catalog where
  peers : List Peer := []
  relations : NameMap Relation := .empty
  mappings : List Rule := []
deriving DecidableEq

namespace Catalog

def empty : Catalog := {}

def relation (c : Catalog) (name : String) : Compiled Relation :=
  match c.relations.get? name with
  | some relation => .ok relation
  | none => .error (.unknownRelation name)

def listUnder (peer relation : String) : List Peer → List Peer
  | [] => [⟨peer, [relation]⟩]
  | p :: rest =>
    if p.name = peer then { p with relations := p.relations ++ [relation] } :: rest
    else p :: listUnder peer relation rest

def addRelation (c : Catalog) (r : Relation) : Compiled Catalog :=
  if c.relations.contains r.name then .error (.schema (.relationTwice r.name))
  else
    let peers := match r.peer with
      | some peer => listUnder peer r.name c.peers
      | none => c.peers
    .ok { c with peers := peers, relations := c.relations.insert r.name r }

def isProvenance (c : Catalog) (name : String) : Bool :=
  match c.relations.get? name with
  | some r => r.role = .provenance
  | none => false

def peerOf? (c : Catalog) (a : Atom) : Option String := do
  (← c.relations.get? (← a.relation?)).peer

-- Relations that the catalog does not know count as materialized.
def isVirtual (c : Catalog) (name : String) : Bool :=
  match c.relations.get? name with
  | some r => !r.materialized
  | none => false

def reservedSuffixes : List String := ["_L", "_INS", "_DEL", "_LN"]

def hasSuffix (name suffix : String) : Bool := suffix.toList.isSuffixOf name.toList

def checkName (r : Relation) : Compiled Unit :=
  match reservedSuffixes.find? (hasSuffix r.name) with
  | some suffix => .error (.schema (.reservedSuffix r.name suffix))
  | none => .ok ()

def isReservedColumn (name : String) : Bool :=
  hasSuffix name Relation.markerSuffix || name = Relation.stratumColumn

def checkColumns (r : Relation) : Compiled Unit :=
  match r.columns.find? (isReservedColumn ·.name) with
  | some column => .error (.schema (.reservedColumn r.name column.name))
  | none =>
    if (r.columns.map Column.name).Nodup then .ok ()
    else .error (.schema (.repeatedColumn r.name))

def checkKeyPosition (r : Relation) (position : Nat) : Compiled Unit :=
  match r.columns[position]? with
  | some column =>
    if column.nullable then .error (.keys r.name (.nullableColumn column.name)) else .ok ()
  | none => .error (.keys r.name (.outOfRange position))

def checkRelation (r : Relation) : Compiled Unit :=
  if r.role = .peer then do
    checkName r
    checkColumns r
    r.key.forM (checkKeyPosition r)
  else .ok ()

def firstRepeat? : List String → List String → Option String
  | _, [] => none
  | seen, name :: rest =>
    if seen.contains name then some name else firstRepeat? (name :: seen) rest

structure Use where
  name : String
  place : String
  type : ColumnType

def checkIntegers (args : List Term) : Compiled Unit :=
  args.forM fun
    | .constant _ value =>
      match value.tooLarge? with
      | some n => .error (.integerOutOfRange n)
      | none => .ok ()
    | _ => .ok ()

-- One argument at a column: a constant has the column's type, and a variable has one type at all
-- its places.
def checkArg (mapping relation : String) (uses : List Use) (arg : Term) (column : Column) :
    Compiled (List Use) :=
  let place := relation ++ "." ++ column.name
  match arg with
  | .constant _ value =>
    match value.type? with
    | some type =>
      if type = column.type then .ok uses
      else .error (.types mapping (.constantAt value place column.type))
    | none => .ok uses
  | .variable v =>
    match uses.find? (·.name = v.name) with
    | some first =>
      if first.type = column.type then .ok uses
      else .error (.types mapping (.variableAt v.name first.place first.type place column.type))
    | none => .ok (⟨v.name, place, column.type⟩ :: uses)
  | .skolem _ _ => .ok uses

def checkAtom (c : Catalog) (mapping : String) (uses : List Use) (a : Atom) :
    Compiled (List Use) := do
  checkIntegers a.args
  match a.predicate with
  | .builtin op =>
    if a.args.length = op.arity then .ok uses
    else .error (.arity op.symbol op.arity a.args.length)
  | .relation name =>
    let r ← c.relation name
    if a.args.length = r.arity then
      (a.args.zip r.columns).foldlM (fun uses (arg, column) =>
        checkArg mapping r.name uses arg column) uses
    else .error (.arity r.name r.arity a.args.length)

def validateRule (c : Catalog) (rule : Rule) : Compiled Unit :=
  if rule.head.isEmpty then .error (.unsupported rule.id .noHead)
  else discard <| (rule.head ++ rule.body).foldlM (c.checkAtom rule.id) []

def validate (c : Catalog) : Compiled Unit := do
  c.relations.values.forM checkRelation
  match firstRepeat? [] (c.mappings.map Rule.id) with
  | some id => .error (.schema (.mappingTwice id))
  | none => c.mappings.forM c.validateRule

end Catalog

end PeerExchange
