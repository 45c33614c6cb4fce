import PeerExchange.Provenance.Relation

namespace PeerExchange

structure OuterJoinView where
  name : String
  target : String
  members : List String
  rule : Rule
deriving DecidableEq

namespace OuterJoinView

def targetVariable (i : Nat) : Term := .var ("t" ++ toString i)

def joinedPosition? (target : Relation) (member : ProvenanceRelation) (i : Nat) : Option Nat :=
  if i < member.dataOffset then none
  else
    match member.columns[i - member.dataOffset]? with
    | some c =>
      match c.key with
      | .target relation column =>
        if relation = target.name then target.columns.findIdx? (·.name = column) else none
      | .source _ _ _ => none
    | none => none

-- The argument of a member at a position, and the view column it adds when it is not joined.
def memberPlace (target : Relation) (m : Nat) (member : ProvenanceRelation) (i : Nat)
    (column : Column) : Term × Option (Column × Term) :=
  match joinedPosition? target member i with
  | some k => (targetVariable k, none)
  | none =>
    let arg := Term.var ("p" ++ toString m ++ "_" ++ toString i)
    (arg, some (⟨member.name ++ "_" ++ column.name, column.type, true⟩, arg))

def memberPlaces (target : Relation) (m : Nat) (member : ProvenanceRelation) :
    List (Term × Option (Column × Term)) :=
  member.relation.columns.mapIdx (memberPlace target m member)

def viewName (target : String) : String := "J_" ++ target

def build (target : Relation) (members : List ProvenanceRelation) : OuterJoinView × Relation :=
  let name := viewName target.name
  let targetArgs := (List.range target.arity).map targetVariable
  let places := members.mapIdx (memberPlaces target)
  let added := places.flatten.filterMap Prod.snd
  let body := .ofRelation target.name targetArgs ::
    (members.zip places).map fun (member, places) =>
      { Atom.ofRelation member.name (places.map Prod.fst) with optional := true }
  let head := Atom.ofRelation name (targetArgs ++ added.map Prod.snd)
  ({ name := name
     target := target.name
     members := members.map ProvenanceRelation.name
     rule := { Rule.ofHead (name ++ "_view") head body with action := .view } },
   { name := name, role := .view, columns := target.columns ++ added.map Prod.fst })

end OuterJoinView

end PeerExchange
