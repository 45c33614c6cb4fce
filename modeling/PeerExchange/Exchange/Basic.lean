import PeerExchange.Minimization
import PeerExchange.Provenance.OuterJoin
import PeerExchange.Unfolding

namespace PeerExchange

structure DiscardedAtom where
  rule : String
  atom : Atom
deriving DecidableEq

namespace DiscardedAtom

def render (d : DiscardedAtom) : String := d.rule ++ ": " ++ d.atom.render

end DiscardedAtom

structure Exchange where
  localRules : List Rule := []
  sourceToProvenance : List Rule := []
  provenanceToTarget : List Rule := []
  provenance : List ProvenanceRelation := []
  edb : NameSet := .empty
  idb : NameSet := .empty
  discarded : List DiscardedAtom := []
  views : List OuterJoinView := []
deriving DecidableEq

namespace Exchange

def mappingRules (x : Exchange) : List Rule := x.sourceToProvenance ++ x.provenanceToTarget

def rules (x : Exchange) : List Rule := x.localRules ++ x.mappingRules

-- Reads virtual targets through the provenance behind them and drops the rules into them. When that
-- fails, the rules that were to be unfolded are gone.
def composeVirtual (x : Exchange) (catalog : Catalog) (fresh : FreshNames) :
    Exchange × Compiled Unit :=
  let (definitions, targets) :=
    x.provenanceToTarget.partition fun r => catalog.isVirtual r.headRelation
  let x := { x with provenanceToTarget := targets }
  if definitions.isEmpty then (x, .ok ())
  else
    match Unfolding.compose catalog (x.sourceToProvenance ++ definitions) fresh with
    | .ok (composed, _) => ({ x with sourceToProvenance := composed }, .ok ())
    | .error cause => ({ x with sourceToProvenance := [] }, .error cause)

-- The rules without the atoms that add nothing, and a note of each.
def minimizeRules (isProvenance : String → Bool) (rules : List Rule) :
    List Rule × List DiscardedAtom :=
  let minimized := rules.map (·.minimize isProvenance)
  (minimized.map Prod.fst, minimized.flatMap fun (r, dropped) => dropped.map (⟨r.id, ·⟩))

def minimize (x : Exchange) (catalog : Catalog) : Exchange :=
  let (sources, first) := minimizeRules catalog.isProvenance x.sourceToProvenance
  let (targets, second) := minimizeRules catalog.isProvenance x.provenanceToTarget
  { x with
    sourceToProvenance := sources
    provenanceToTarget := targets
    discarded := x.discarded ++ first ++ second }

end Exchange

end PeerExchange
