import PeerExchange.Config
import PeerExchange.Exchange.Basic

namespace PeerExchange

structure Build where
  catalog : Catalog
  exchange : Exchange := {}

namespace Build

abbrev Step := Build → Build × Compiled Unit

def inOrder : List Step → Step
  | [], b => (b, .ok ())
  | step :: rest, b =>
    match step b with
    | (b, .ok ()) => inOrder rest b
    | failed => failed

def addRelation (r : Relation) (b : Build) : Build × Compiled Unit :=
  match b.catalog.addRelation r with
  | .ok catalog => ({ b with catalog := catalog }, .ok ())
  | .error cause => (b, .error cause)

def adjust (f : Exchange → Exchange) (b : Build) : Build × Compiled Unit :=
  ({ b with exchange := f b.exchange }, .ok ())

end Build

namespace Synthesis

structure Group where
  relation : ProvenanceRelation
  members : List Rule

def isNullableOnly (catalog : Catalog) (rule : Rule) (name : String) : Bool :=
  let nullable := (rule.body.filter Atom.isPositive).flatMap fun a =>
    match catalog.relations.get? a.relationName with
    | some r => (Provenance.placesOf r a).filterMap fun p =>
      if p.arg.asVariable?.any (·.name = name) then some p.column.nullable else none
    | none => []
  !nullable.isEmpty && nullable.all id

def keyMayBeNull (catalog : Catalog) (rule : Rule) : Term → Bool
  | .constant _ value => value = .null
  | .skolem _ _ => false
  | .variable v => v.skolem.isNone && isNullableOnly catalog rule v.name

-- Rows of several mappings are told apart by the target's key, so a rule has to fill it with
-- something that is never null.
def checkKeyBound (catalog : Catalog) (rule : Rule) : Compiled Unit :=
  match rule.head? with
  | none => .error (.malformed (.noHead rule.id))
  | some head => do
    let target ← catalog.relation head.relationName
    target.key.forM fun k =>
      match head.args[k]?, target.columns[k]? with
      | none, _ => .error (.malformed (.keyPosition target.name k))
      | some arg, column =>
        if keyMayBeNull catalog rule arg then
          match column with
          | some column => .error (.keys rule.render (.mayBeNull target.name column.name))
          | none => .error (.malformed (.keyPosition target.name k))
        else .ok ()

def provenanceName (name : String) : String := "P_" ++ name

def headPeer? (catalog : Catalog) (rule : Rule) : Option String :=
  rule.head?.bind catalog.peerOf?

def ownGroup (catalog : Catalog) (rule : Rule) : Group :=
  let kind := if 1 < rule.head.length then GroupKind.innerJoin else .single
  ⟨⟨provenanceName rule.id, kind, headPeer? catalog rule, [], [], .empty, false⟩, [rule]⟩

def joinGroup (catalog : Catalog) (rule : Rule) : List Group → List Group
  | [] =>
    [⟨⟨provenanceName rule.headRelation, .outerUnion, headPeer? catalog rule, [], [], .empty,
      false⟩, [rule]⟩]
  | g :: rest =>
    if g.relation.name = provenanceName rule.headRelation then
      { g with members := g.members ++ [rule] } :: rest
    else g :: joinGroup catalog rule rest

def groups (catalog : Catalog) (mode : ProvenanceMode) (rules : List Rule) :
    Compiled (List Group) :=
  match mode with
  | .union | .outerJoin => do
    rules.forM Rule.checkHead
    .ok (rules.map (ownGroup catalog))
  | .outerUnion => do
    rules.forM (checkKeyBound catalog)
    .ok (rules.foldl (fun groups rule => joinGroup catalog rule groups) [])

def addGroup (trust : TrustPolicy) (g : Group) : Build.Step := fun b =>
  match ProvenanceRelation.addRules b.catalog g.members g.relation with
  | .error cause => (b, .error cause)
  | .ok p =>
    match b.addRelation p.relation with
    | (b, .error cause) => (b, .error cause)
    | (b, .ok ()) =>
      let sources := g.members.mapIdx (p.sourceRule b.catalog trust)
      let b := { b with exchange := { b.exchange with
        sourceToProvenance := b.exchange.sourceToProvenance ++ sources } }
      match p.targetRules b.catalog with
      | .error cause => (b, .error cause)
      | .ok targets => b.adjust fun x => { x with
          provenanceToTarget := x.provenanceToTarget ++ targets
          idb := x.idb.add p.name
          provenance := x.provenance ++ [p] }

-- Adds the view of a target, unless the target is virtual.
def addView (members : List ProvenanceRelation) (target : String) : Build.Step := fun b =>
  match b.catalog.relation target with
  | .error cause => (b, .error cause)
  | .ok r =>
    if r.materialized then
      let (view, relation) := OuterJoinView.build r (members.filter (·.targets.contains target))
      match b.addRelation relation with
      | (b, .error cause) => (b, .error cause)
      | (b, .ok ()) => b.adjust fun x => { x with views := x.views ++ [view] }
    else (b, .ok ())

def addViews : Build.Step := fun b =>
  let members := b.exchange.provenance
  Build.inOrder ((distinctNames (members.flatMap ProvenanceRelation.targets)).map
    (addView members)) b

def synthesize (config : Config) (trust : TrustPolicy) (rules : List Rule) : Build.Step := fun b =>
  match groups b.catalog config.provenance rules with
  | .error cause => (b, .error cause)
  | .ok gs =>
    match Build.inOrder (gs.map (addGroup trust)) b with
    | (b, .ok ()) => if config.provenance = .outerJoin then addViews b else (b, .ok ())
    | failed => failed

def addLocal (r : Relation) : Build.Step := fun b =>
  let args := (List.range r.arity).map fun i => Term.var ("x" ++ toString i)
  let rule := Rule.ofHead (r.name ++ "_local") (.ofRelation r.name args)
    [.ofRelation r.localName args]
  let b := { b with exchange := { b.exchange with
    localRules := b.exchange.localRules ++ [rule]
    edb := b.exchange.edb.add r.localName
    idb := b.exchange.idb.add r.name } }
  b.addRelation r.localRelation

def addLocals : Build.Step := fun b =>
  let peers := b.catalog.relations.values.filter fun r => r.role = .peer && r.materialized
  Build.inOrder (peers.map addLocal) b

end Synthesis

end PeerExchange
