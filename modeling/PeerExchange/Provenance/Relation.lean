import PeerExchange.Provenance.Column
import PeerExchange.Trust

namespace PeerExchange

inductive GroupKind where
  | single
  | innerJoin
  | outerUnion
deriving DecidableEq

structure ProvenanceRelation where
  name : String
  kind : GroupKind
  peer : Option String
  columns : List ProvenanceColumn := []
  rules : List String := []
  trust : NameSet := .empty
  labeledNulls : Bool := false
deriving DecidableEq

namespace Provenance

def sourcePeers (catalog : Catalog) (rule : Rule) : List String :=
  (rule.body.filter Atom.isPositive).filterMap catalog.peerOf?

def readsLabeledNulls (catalog : Catalog) (rule : Rule) : Bool :=
  ((rule.head ++ rule.body).filterMap Atom.relation?).any fun name =>
    match catalog.relations.get? name with
    | some r => r.labeledNulls
    | none => false

end Provenance

namespace ProvenanceRelation

def mappingColumn : String := "MID"

def hasMappingColumn (p : ProvenanceRelation) : Bool := p.kind = .outerUnion

def isAligned (p : ProvenanceRelation) : Bool :=
  p.columns.all fun c => c.contributions.length = p.rules.length

def columnName (p : ProvenanceRelation) (key : ColumnKey) : String :=
  let base := key.baseName
  let numbered := (List.range (p.columns.length + 1)).map fun n => base ++ "_" ++ toString (n + 1)
  ((base :: numbered).find? fun name => !p.columns.any (·.name = name)).getD base

-- Puts a contribution into the column of a key. Fails when the rule has filled it already or types
-- differ.
def fill (rule : Rule) (index : Nat) (e : Provenance.Entry) :
    List ProvenanceColumn → Compiled (List ProvenanceColumn)
  | [] => .ok []
  | c :: rest =>
    if c.key = e.key then
      if index < c.contributions.length then
        .error (.schema (.provenanceColumnTwice rule.id c.name))
      else if c.type = e.column.type then
        .ok ({ c with
          nullable := c.nullable || e.column.nullable
          contributions := c.contributions ++ [e.contribution] } :: rest)
      else .error (.types rule.id (.columnTypes c.name c.type e.column.type))
    else do .ok (c :: (← fill rule index e rest))

def withColumn (p : ProvenanceRelation) (e : Provenance.Entry) : ProvenanceRelation :=
  if p.columns.any (·.key = e.key) then p
  else { p with columns := p.columns ++
    [⟨e.key, p.columnName e.key, e.column.type, false,
      List.replicate p.rules.length .padding⟩] }

def addEntries (rule : Rule) : List Provenance.Entry → ProvenanceRelation →
    ProvenanceRelation × Compiled Unit
  | [], p => (p, .ok ())
  | e :: rest, p =>
    let p := p.withColumn e
    match fill rule p.rules.length e p.columns with
    | .ok columns => addEntries rule rest { p with columns := columns }
    | .error cause => (p, .error cause)

def padTo (length : Nat) (c : ProvenanceColumn) : ProvenanceColumn :=
  if c.contributions.length < length then
    { c with contributions := c.contributions ++ [.padding] }
  else c

def addRule (p : ProvenanceRelation) (catalog : Catalog) (rule : Rule) :
    ProvenanceRelation × Compiled Unit :=
  match Provenance.entries catalog rule with
  | .error cause => (p, .error cause)
  | .ok entries =>
    match addEntries rule entries p with
    | (p, .error cause) => (p, .error cause)
    | (p, .ok ()) =>
      ({ p with
        rules := p.rules ++ [rule.id]
        columns := p.columns.map (padTo (p.rules.length + 1))
        trust := (Provenance.sourcePeers catalog rule).foldl NameSet.add p.trust
        labeledNulls := p.labeledNulls || Provenance.readsLabeledNulls catalog rule }, .ok ())

def addRules (catalog : Catalog) : List Rule → ProvenanceRelation → Compiled ProvenanceRelation
  | [], p => .ok p
  | rule :: rest, p =>
    match p.addRule catalog rule with
    | (p, .ok ()) => addRules catalog rest p
    | (_, .error cause) => .error cause

def dataOffset (p : ProvenanceRelation) : Nat := if p.hasMappingColumn then 1 else 0

-- The columns that identify a row: the mapping where several share the relation, and the
-- contributed ones.
def dataColumns (p : ProvenanceRelation) : List Column :=
  (if p.hasMappingColumn then [⟨mappingColumn, .text, false⟩] else []) ++
    p.columns.map fun c => ⟨c.name, c.type, c.mayBeNull⟩

def relation (p : ProvenanceRelation) : Relation where
  name := p.name
  peer := p.peer
  role := .provenance
  columns := p.dataColumns ++ p.trust.toList.map fun peer => ⟨"TRUST_" ++ peer, .integer, true⟩
  key := List.range p.dataColumns.length
  labeledNulls := p.labeledNulls

def sourceArg (index : Nat) (c : ProvenanceColumn) : Term :=
  match c.contributions[index]? with
  | some (.source _ _ arg) => arg
  | _ => .typedNull c.type

def sourceRule (p : ProvenanceRelation) (catalog : Catalog) (trust : TrustPolicy) (index : Nat)
    (rule : Rule) : Rule :=
  let peers := Provenance.sourcePeers catalog rule
  let trustArgs := p.trust.toList.map fun peer =>
    if peers.contains peer then
      Term.constant (some .integer) (.integer (trust.priority (p.peer.getD "") peer))
    else .typedNull .integer
  let args := (if p.hasMappingColumn then [Term.lit (.string rule.id)] else []) ++
    p.columns.map (sourceArg index) ++ trustArgs
  { rule with head := [.ofRelation p.name args], provenance := some p.name }

def targets (p : ProvenanceRelation) : List String :=
  distinctNames (p.columns.filterMap fun c => match c.key with
    | .target relation _ => some relation
    | .source _ _ _ => none)

def bodyArgs (p : ProvenanceRelation) : List Term :=
  (List.range (p.dataOffset + p.columns.length + p.trust.toList.length)).map fun i =>
    .var ("c" ++ toString i)

def targetArg (p : ProvenanceRelation) (r : Relation) (c : Column) : Compiled Term :=
  match p.columns.findIdx? (·.key = .target r.name c.name) with
  | some position => .ok (.var ("c" ++ toString (p.dataOffset + position)))
  | none => .error (.schema (.uncovered p.name r.name c.name))

def targetRule (p : ProvenanceRelation) (catalog : Catalog) (target : String) : Compiled Rule := do
  let r ← catalog.relation target
  let args ← r.columns.mapM (p.targetArg r)
  .ok { Rule.ofHead (p.name ++ "_" ++ target) (.ofRelation target args)
      [.ofRelation p.name p.bodyArgs] with provenance := some p.name }

def targetRules (p : ProvenanceRelation) (catalog : Catalog) : Compiled (List Rule) :=
  p.targets.mapM (p.targetRule catalog)

end ProvenanceRelation

end PeerExchange
