import PeerExchange.Atom

namespace PeerExchange

structure Column where
  name : String
  type : ColumnType
  nullable : Bool := false
deriving DecidableEq

-- What a relation is for: declared by a peer, a peer's own contributions, the record of how tuples
-- were derived, or a view, which is computed on reading and never stored.
inductive Role where
  | peer
  | localEdits
  | provenance
  | view
deriving DecidableEq

structure Relation where
  name : String
  peer : Option String := none
  role : Role := .peer
  columns : List Column
  key : List Nat := []
  labeledNulls : Bool := false
  materialized : Bool := true
  stratified : Bool := false
deriving DecidableEq

namespace Relation

def localSuffix : String := "_L"

def markerSuffix : String := "_LN"

def stratumColumn : String := "STRATUM"

def arity (r : Relation) : Nat := r.columns.length

def tableName (r : Relation) (kind : TableKind) : String := r.name ++ kind.suffix

def localName (r : Relation) : String := r.name ++ localSuffix

def markerOf? (r : Relation) (c : Column) : Option String :=
  if r.labeledNulls && c.nullable then some (c.name ++ markerSuffix) else none

def markedColumns (r : Relation) : List (Column × Option String) :=
  r.columns.map fun c => (c, r.markerOf? c)

def hasStratum (r : Relation) (kind : TableKind) : Bool := r.stratified && kind ≠ .base

-- The columns of a stored table: each column with its companion after it, and the stratum last.
def physicalColumns (r : Relation) (kind : TableKind) : List (String × ColumnType) :=
  r.columns.flatMap (fun c =>
      (c.name, c.type) :: ((r.markerOf? c).map (·, ColumnType.integer)).toList) ++
    (if r.hasStratum kind then [(stratumColumn, .integer)] else [])

def isStored (r : Relation) : Bool := r.materialized && r.role ≠ .view

def localRelation (r : Relation) : Relation :=
  { r with name := r.localName, role := .localEdits, stratified := false }

end Relation

end PeerExchange
