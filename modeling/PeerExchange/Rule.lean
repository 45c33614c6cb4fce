import PeerExchange.Atom

namespace PeerExchange

inductive Action where
  | replace
  | retract
  | view
  | derive
deriving DecidableEq

-- The body atom at a position reads only the tuples stamped `iteration + offset`.
structure Guard where
  position : Nat
  offset : Int
deriving DecidableEq

inductive Stamp where
  | fixed (value : Int)
  | iteration (offset : Int)
deriving DecidableEq

structure Invention where
  variableName : String
  function : String
  args : List Term
deriving DecidableEq

namespace Invention

def term (i : Invention) : Term := .skolem i.function i.args

end Invention

structure Rule where
  id : String
  head : List Atom
  body : List Atom
  distinct : Bool := false
  stratified : Bool := false
  provenance : Option String := none
  parent : Option String := none
  action : Action := .derive
  blankAll : Bool := false
  blankNonKey : Bool := false
  guard : Option Guard := none
  stamp : Option Stamp := none
  inventions : List Invention := []
deriving DecidableEq

namespace Atom

def isShaped (a : Atom) : Bool :=
  match a.builtin? with
  | some op =>
    if op.isFunction then 1 ≤ a.args.length else op ≠ .eq || 2 ≤ a.args.length
  | none => true

def isBound (bound : List String) (t : Term) : Bool :=
  t.vars.all fun v => bound.contains v.name

def free? (bound : List String) : Term → Option String
  | .variable v => if bound.contains v.name then none else some v.name
  | _ => none

-- The variable that a built-in binds once the rest of its arguments are bound: the output of a
-- function, or the one free side of an equality.
def binding? (a : Atom) (bound : List String) : Option String :=
  match a.builtin? with
  | some .least | some .greatest =>
    match a.args with
    | output :: rest => if rest.all (isBound bound) then free? bound output else none
    | [] => none
  | some .eq =>
    match a.args with
    | left :: right :: _ =>
      match free? bound left, free? bound right with
      | some name, none => if isBound bound right then some name else none
      | none, some name => if isBound bound left then some name else none
      | _, _ => none
    | _ => none
  | _ => none

end Atom

namespace Rule

def ofHeads (id : String) (head body : List Atom) : Rule := { id, head, body }

def ofHead (id : String) (head : Atom) (body : List Atom) : Rule := ofHeads id [head] body

def head? (r : Rule) : Option Atom := r.head.head?

def headRelation (r : Rule) : String := (r.head?.map Atom.relationName).getD ""

theorem headRelation_of_head {r : Rule} {head : Atom} {name : String} (first : r.head? = some head)
    (named : head.relation? = some name) : r.headRelation = name := by
  rw [headRelation, first, Option.map_some, Option.getD_some, Atom.relationName_of_relation named]

def isFact (r : Rule) : Bool := r.body.isEmpty

def invention? (r : Rule) (position : Nat) : Option Term := (r.inventions[position]?).map (·.term)

def joinedNames (r : Rule) : List String :=
  distinctNames ((r.body.filter Atom.isPositive).flatMap Atom.variableNames)

def bindPass (atoms : List Atom) (bound : List String) : List String :=
  atoms.foldl (fun bound atom => bound ++ (atom.binding? bound).toList) bound

-- Passes until one binds nothing new. A pass binds names of the atoms only and each once, so their
-- number bounds the passes.
def bindPasses (atoms : List Atom) : Nat → List String → List String
  | 0, bound => bound
  | passes + 1, bound =>
    let next := bindPass atoms bound
    if next.length = bound.length then bound else bindPasses atoms passes next

-- Variables that the body binds, first by joined atoms and then by equalities and functions over
-- bound inputs.
def boundNames (r : Rule) : List String :=
  let atoms := r.body.filter (!·.negated)
  bindPasses atoms (atoms.flatMap Atom.variableNames).length r.joinedNames

def render (r : Rule) : String :=
  r.id ++ ": " ++ ", ".intercalate (r.head.map Atom.render) ++
    (if r.body.isEmpty then "" else " :- " ++ ", ".intercalate (r.body.map Atom.render)) ++ "."

end Rule

end PeerExchange
