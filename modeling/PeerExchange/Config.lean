import PeerExchange.Error

namespace PeerExchange

inductive ProvenanceMode where
  | union
  | outerUnion
  -- As `union`, with a view for each target that outer joins it with the provenance rows of each
  -- mapping into it.
  | outerJoin
deriving DecidableEq

namespace ProvenanceMode

def render : ProvenanceMode → String
  | union => "Union"
  | outerUnion => "OuterUnion"
  | outerJoin => "OuterJoin"

end ProvenanceMode

structure Config where
  provenance : ProvenanceMode := .union
  bidirectional : Bool := false
  setSemantics : Bool := true
  inlineIteration : Bool := false
  mergeStatements : Bool := true
  mergeLimit : Nat := 8192
  maxIterations : Nat := 1000
  skolemWidth : Nat := 64
deriving DecidableEq

namespace Config

def validate (c : Config) : Compiled Unit :=
  if c.bidirectional && c.provenance ≠ .union then
    .error (.config (.bidirectional c.provenance.render))
  else if c.mergeStatements && c.mergeLimit = 0 then .error (.config .mergeLimit)
  else if c.maxIterations = 0 then .error (.config .maxIterations)
  else if c.skolemWidth = 0 then .error (.config .skolemWidth)
  else .ok ()

end Config

end PeerExchange
