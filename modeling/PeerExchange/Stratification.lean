import PeerExchange.NameMap
import PeerExchange.Rule

namespace PeerExchange

structure Stratum where
  relations : List String
  recursive : Bool
deriving DecidableEq

namespace Stratification

abbrev Graph := NameMap NameSet

def addEdge (g : Graph) (source target : String) : Graph :=
  g.insert source (((g.get? source).getD .empty).add target)

def graph (rules : List Rule) : Graph :=
  rules.foldl (fun g r =>
    (r.body.filterMap Atom.relation?).foldl (fun g source => addEdge g source r.headRelation) g)
    .empty

def successors (g : Graph) (node : String) : List String :=
  ((g.get? node).map NameSet.toList).getD []

def nodes (g : Graph) (names : List String) : List String :=
  NameSet.toList (NameSet.ofNames (names ++ g.keys ++ g.values.flatMap NameSet.toList))

structure Search where
  index : NameMap Nat := .empty
  low : NameMap Nat := .empty
  stack : List String := []
  components : List (List String) := []

namespace Search

def isMet (s : Search) (node : String) : Bool := s.index.contains node

def indexOf (s : Search) (node : String) : Nat := (s.index.get? node).getD 0

def lowOf (s : Search) (node : String) : Nat := (s.low.get? node).getD 0

def enter (s : Search) (node : String) : Search :=
  let number := s.index.entries.length
  { s with
    index := s.index.insert node number
    low := s.low.insert node number
    stack := node :: s.stack }

def lower (s : Search) (node : String) (number : Nat) : Search :=
  { s with low := s.low.insert node (min number (s.lowOf node)) }

def popThrough (node : String) : List String → List String × List String
  | [] => ([], [])
  | top :: rest =>
    if top = node then ([top], rest)
    else
      let (popped, left) := popThrough node rest
      (top :: popped, left)

def close (s : Search) (node : String) : Search :=
  if s.lowOf node = s.indexOf node then
    let (component, left) := popThrough node s.stack
    { s with stack := left, components := component.mergeSort (· ≤ ·) :: s.components }
  else s

-- Follows an edge, by searching from its target unless that was met.
def follow (visit : Search → String → Search) (node : String) (s : Search) (next : String) :
    Search :=
  if s.isMet next then
    if s.stack.contains next then s.lower node (s.indexOf next) else s
  else
    let s := visit s next
    s.lower node (s.lowOf next)

-- Searches from a node that was not met. Every level below it has met one more node, so the number
-- of nodes bounds the depth.
def visit (g : Graph) : Nat → Search → String → Search
  | 0, s, _ => s
  | depth + 1, s, node =>
    ((successors g node).foldl (follow (visit g depth) node) (s.enter node)).close node

def visitAll (g : Graph) (depth : Nat) (s : Search) (names : List String) : Search :=
  names.foldl (fun s node => if s.isMet node then s else visit g depth s node) s

end Search

def isRecursive (g : Graph) : List String → Bool
  | [node] => (successors g node).contains node
  | component => 1 < component.length

def stratify (rules : List Rule) (relations : NameSet) : List Stratum :=
  let g := graph rules
  let depth := (nodes g relations.toList).length
  (Search.visitAll g depth {} relations.toList).components.map fun component =>
    ⟨component, isRecursive g component⟩

end Stratification

end PeerExchange
