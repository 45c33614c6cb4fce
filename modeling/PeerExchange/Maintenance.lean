import PeerExchange.Exchange.Basic
import PeerExchange.Stratification

namespace PeerExchange

structure DeletionStratum where
  index : Nat
  relations : List String
  recursive : Bool
  seed : List Rule
  iterate : List Rule
  rederive : List Rule
deriving DecidableEq

structure InsertionStratum where
  index : Nat
  relations : List String
  recursive : Bool
  seed : List Rule
  iterate : List Rule
  merge : List Rule
deriving DecidableEq

structure Maintenance where
  deletion : List DeletionStratum
  apply : List Rule
  insertion : List InsertionStratum
  reset : List Rule
  relations : List String
deriving DecidableEq

namespace Maintenance

def rules (m : Maintenance) : List Rule :=
  m.deletion.flatMap (fun s => s.seed ++ s.iterate ++ s.rederive) ++ m.apply ++
    m.insertion.flatMap fun s => s.seed ++ s.iterate ++ s.merge

def derived (rule : Rule) (id : String) (head : Atom) (body : List Atom) : Rule :=
  { Rule.ofHead id head body with
    distinct := true
    stratified := rule.stratified
    provenance := rule.provenance
    parent := some (rule.parent.getD rule.id)
    inventions := rule.inventions }

-- How a kind of change is followed through a rule: the table that it is read from and written to,
-- the suffix of the ids, and how the iterations of what is read and written count.
structure Direction where
  kind : TableKind
  suffix : String
  guardOffset : Int
  stampOffset : Int

def deleting : Direction := ⟨.deletion, "_del", -1, 0⟩

def inserting : Direction := ⟨.insertion, "_ins", 0, 1⟩

-- The atom that keeps out head tuples: for deletions inside a stratum those deleted before, for
-- insertions those that are there.
def exclusion (d : Direction) (head : Atom) (inside : Bool) : List Atom :=
  match d.kind with
  | .deletion => if inside then [(head.withKind .deletion).negate] else []
  | _ => [head.negate]

-- The changes of the head that a change at one body position causes, and whether the position is
-- inside the stratum.
def changeRule (d : Direction) (rule : Rule) (head : Atom) (scc : List String) (recursive : Bool)
    (position : Nat) (a : Atom) : Rule × Bool :=
  let inside := recursive && scc.contains a.relationName
  let body := rule.body.set position (a.withKind d.kind) ++ exclusion d head inside
  let changed := derived rule (rule.id ++ d.suffix ++ toString position) (head.withKind d.kind) body
  let stamp := if inside then Stamp.iteration d.stampOffset else .fixed 0
  ({ changed with
    stamp := if recursive then some stamp else none
    guard := if inside then some ⟨position, d.guardOffset⟩ else none }, inside)

def changeRules (d : Direction) (scc : List String) (recursive : Bool) (rule : Rule) :
    List Rule × List Rule :=
  match rule.head? with
  | none => ([], [])
  | some head =>
    let changes := ((rule.body.mapIdx Prod.mk).filter (·.2.isPositive)).map fun (i, a) =>
      changeRule d rule head scc recursive i a
    ((changes.filter (!·.2)).map Prod.fst, (changes.filter (·.2)).map Prod.fst)

def rederiveRule (rule : Rule) : Rule :=
  let remaining := (rule.body.filter Atom.isPositive).map fun a => (a.withKind .deletion).negate
  let head := rule.head?.getD (.ofRelation "" [])
  { derived rule (rule.id ++ "_red") (head.withKind .deletion) (rule.body ++ remaining) with
    distinct := false
    action := .retract }

def tableRule (r : Relation) (name suffix : String) (action : Action) (head body : TableKind) :
    Rule :=
  let args := (List.range r.arity).map fun i => Term.var ("x" ++ toString i)
  { Rule.ofHead (name ++ suffix) ((Atom.ofRelation name args).withKind head)
      [(Atom.ofRelation name args).withKind body] with
    distinct := true
    action := action }

def pruneRule (r : Relation) (name : String) : Rule :=
  tableRule r name "_prune" .retract .insertion .base

def resetRule (r : Relation) (name : String) : Rule :=
  tableRule r name "_reset" .replace .insertion .base

def applyRule (r : Relation) (name : String) : Rule :=
  tableRule r name "_apply" .retract .base .deletion

def mergeRule (r : Relation) (name : String) (recursive : Bool) : Rule :=
  let rule := tableRule r name "_merge" .derive .base .insertion
  if recursive then { rule with stratified := true, guard := some ⟨0, 0⟩ } else rule

structure StratumProgram where
  deletion : DeletionStratum
  insertion : InsertionStratum
  apply : List Rule
  reset : List Rule

def deletionStratum (own : List Rule) (index : Nat) (s : Stratum) : DeletionStratum :=
  let changes := own.map (changeRules deleting s.relations s.recursive)
  { index := index
    relations := s.relations
    recursive := s.recursive
    seed := changes.flatMap Prod.fst
    iterate := changes.flatMap Prod.snd
    rederive := own.map rederiveRule }

def insertionStratum (own : List Rule) (relations edited : List (String × Relation)) (index : Nat)
    (s : Stratum) : InsertionStratum :=
  let changes := own.map (changeRules inserting s.relations s.recursive)
  { index := index
    relations := s.relations
    recursive := s.recursive
    seed := changes.flatMap Prod.fst ++ edited.map fun (name, r) => pruneRule r name
    iterate := changes.flatMap Prod.snd
    merge := relations.map fun (name, r) => mergeRule r name s.recursive }

def stratumProgram (catalog : Catalog) (edb : NameSet) (rules : List Rule) (index : Nat)
    (s : Stratum) : Compiled StratumProgram := do
  let relations ← s.relations.mapM fun name => do return (name, ← catalog.relation name)
  let own := rules.filter fun r => s.relations.contains r.headRelation
  let edited := relations.filter fun (name, _) => edb.has name
  return {
    deletion := deletionStratum own index s
    insertion := insertionStratum own relations edited index s
    apply := relations.map fun (name, r) => applyRule r name
    reset := edited.map fun (name, r) => resetRule r name }

-- Marks relations as those of recursive strata, up to the first that does not exist.
def markStratified : List String → Catalog → Catalog × Compiled Unit
  | [], catalog => (catalog, .ok ())
  | name :: rest, catalog =>
    match catalog.relation name with
    | .error cause => (catalog, .error cause)
    | .ok r => markStratified rest { catalog with
        relations := catalog.relations.insert name { r with stratified := true } }

def ofStrata (x : Exchange) (catalog : Catalog) (strata : List Stratum)
    (recursive : List String) : Compiled Maintenance := do
  x.rules.forM Rule.checkHead
  let rules := x.rules.map fun r =>
    { r with stratified := recursive.contains r.headRelation }
  let programs ← (strata.mapIdx Prod.mk).mapM fun (index, s) =>
    stratumProgram catalog x.edb rules index s
  return {
    deletion := programs.map StratumProgram.deletion
    apply := programs.flatMap StratumProgram.apply
    insertion := programs.map StratumProgram.insertion
    reset := programs.flatMap StratumProgram.reset
    relations := strata.flatMap Stratum.relations }

-- The maintenance program of an exchange program, and the catalog with the relations of recursive
-- strata marked. The marks stay when there is no program.
def build (x : Exchange) (catalog : Catalog) : Catalog × Compiled Maintenance :=
  match (x.rules.filter (·.body.any (·.relation?.isSome))).forM Rule.checkHead with
  | .error cause => (catalog, .error cause)
  | .ok () =>
    let strata := Stratification.stratify x.rules (x.edb.toList.foldl NameSet.add x.idb)
    let recursive := (strata.filter (·.recursive)).flatMap Stratum.relations
    match markStratified recursive catalog with
    | (catalog, .error cause) => (catalog, .error cause)
    | (catalog, .ok ()) => (catalog, ofStrata x catalog strata recursive)

end Maintenance

end PeerExchange
