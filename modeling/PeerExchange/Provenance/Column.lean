import PeerExchange.Catalog

namespace PeerExchange

structure ColumnRef where
  relation : String
  column : String
deriving DecidableEq

inductive ColumnKey where
  | target (relation column : String)
  -- A body variable that no head mentions, by the column it is read from. The ordinal tells apart
  -- several reads of one column in a rule.
  | source (relation column : String) (ordinal : Nat)
deriving DecidableEq

namespace ColumnKey

def baseName : ColumnKey → String
  | target relation column => relation ++ "_" ++ column
  | source relation column ordinal =>
    "SRC_" ++ relation ++ "_" ++ column ++
      if ordinal = 0 then "" else "_" ++ toString ordinal

end ColumnKey

inductive Contribution where
  | padding
  | explicitNull
  | source (sourceColumns targetColumns : List ColumnRef) (arg : Term)
deriving DecidableEq

namespace Contribution

def isSource : Contribution → Bool
  | source _ _ _ => true
  | _ => false

end Contribution

structure ProvenanceColumn where
  key : ColumnKey
  name : String
  type : ColumnType
  nullable : Bool
  contributions : List Contribution
deriving DecidableEq

namespace ProvenanceColumn

def mayBeNull (c : ProvenanceColumn) : Bool :=
  c.nullable || c.contributions.any (!·.isSource)

end ProvenanceColumn

namespace Provenance

structure AtomPlace where
  relation : String
  column : Column
  arg : Term

def AtomPlace.ref (p : AtomPlace) : ColumnRef := ⟨p.relation, p.column.name⟩

def placesOf (r : Relation) (a : Atom) : List AtomPlace :=
  (a.args.zip r.columns).map fun (arg, column) => ⟨r.name, column, arg⟩

def places (catalog : Catalog) : List Atom → Compiled (List AtomPlace)
  | [] => .ok []
  | a :: rest => do
    let r ← catalog.relation a.relationName
    let others ← places catalog rest
    .ok (placesOf r a ++ others)

def occurrences (read : List AtomPlace) (name : String) : List ColumnRef :=
  (read.filter fun p => p.arg.asVariable?.any (·.name = name)).map AtomPlace.ref

structure Entry where
  key : ColumnKey
  column : Column
  contribution : Contribution

def targetEntry (read : List AtomPlace) (p : AtomPlace) : Entry :=
  let contribution :=
    if p.arg.isNull then Contribution.explicitNull
    else
      let sources := match p.arg with
        | .variable v => occurrences read v.name
        | _ => []
      .source sources [p.ref] p.arg
  ⟨.target p.relation p.column.name, p.column, contribution⟩

-- The entries of variables that are read and not written, each at its first place.
def sourceEntries (read : List AtomPlace) :
    List String → List ColumnRef → List AtomPlace → List Entry
  | _, _, [] => []
  | passed, taken, p :: rest =>
    match p.arg with
    | .variable v =>
      if passed.contains v.name then sourceEntries read passed taken rest
      else
        ⟨.source p.relation p.column.name (taken.count p.ref), p.column,
            .source (occurrences read v.name) [] p.arg⟩ ::
          sourceEntries read (v.name :: passed) (p.ref :: taken) rest
    | _ => sourceEntries read passed taken rest

def entries (catalog : Catalog) (rule : Rule) : Compiled (List Entry) := do
  let read ← places catalog (rule.body.filter Atom.isPositive)
  let written ← places catalog rule.head
  let headNames := (written.flatMap (·.arg.vars)).map Variable.name
  .ok (written.map (targetEntry read) ++ sourceEntries read headNames [] read)

end Provenance

end PeerExchange
