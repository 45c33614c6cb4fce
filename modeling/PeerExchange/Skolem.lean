import PeerExchange.Error

namespace PeerExchange

namespace Variable

def distinct : List Variable → List Variable
  | [] => []
  | v :: rest => v :: (distinct rest).filter (·.name ≠ v.name)

end Variable

namespace Rule

def bodyNames (r : Rule) : List String := r.body.flatMap Atom.variableNames

def headVariables (r : Rule) : List Variable := Variable.distinct (r.head.flatMap Atom.vars)

def inventionInputs (r : Rule) : List Term :=
  let frontier := (r.headVariables.map Variable.name).filter r.bodyNames.contains
  (if frontier.isEmpty then r.joinedNames else frontier).map Term.var

def undefinedNames (r : Rule) : List String :=
  (r.headVariables.filter fun v => v.skolem.isNone && !r.bodyNames.contains v.name).map
    Variable.name

def markInvented (name : String) (position : Nat) : Term → Term
  | .variable v =>
    if v.name = name then .variable ⟨v.name, true, some position⟩ else .variable v
  | other => other

def invent (inputs : List Term) (r : Rule) (name : String) : Rule :=
  { r with
    head := r.head.map (Atom.mapArgs (markInvented name r.inventions.length))
    inventions := r.inventions ++ [⟨name, r.id ++ "_" ++ name, inputs⟩] }

def skolemize (r : Rule) : Rule := r.undefinedNames.foldl (invent r.inventionInputs) r

-- The variables that a safe rule needs values for: those of the heads, of built-ins and of the
-- inputs to inventions.
def neededVariables (r : Rule) : List Variable :=
  (r.head ++ r.body.filter (·.builtin?.isSome)).flatMap Atom.vars ++
    (r.inventions.flatMap Invention.args).flatMap Term.vars

def checkSafety (r : Rule) : Compiled Unit :=
  let bound := r.boundNames
  match r.neededVariables.find? fun v => !bound.contains v.name && v.skolem.isNone with
  | some v => .error (.unsafeVariable r.id v.name)
  | none => .ok ()

end Rule

end PeerExchange
