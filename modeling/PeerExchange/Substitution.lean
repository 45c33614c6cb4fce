import PeerExchange.NameMap
import PeerExchange.Rule

namespace PeerExchange

abbrev Substitution := NameMap Term

namespace Term

def substitute (σ : Substitution) (t : Term) : Term :=
  t.bind fun v => (σ.get? v.name).getD (.variable v)

end Term

namespace Atom

def substitute (σ : Substitution) (a : Atom) : Atom := a.mapArgs (Term.substitute σ)

end Atom

namespace Rule

def substitute (σ : Substitution) (r : Rule) : Rule :=
  { r with
    head := r.head.map (Atom.substitute σ)
    body := r.body.map (Atom.substitute σ)
    inventions := r.inventions.map fun i => { i with args := i.args.map (Term.substitute σ) } }

end Rule

-- A substitution of the variables met so far, and the pairs of terms that have to be equal besides.
structure Matching where
  sigma : Substitution := .empty
  equalities : List (Term × Term) := []
deriving DecidableEq

namespace Matching

def assume (m : Matching) (a b : Term) : Matching :=
  { m with equalities := m.equalities ++ [(a, b)] }

def typesAgree : Option ColumnType → Option ColumnType → Bool
  | some s, some t => s = t
  | _, _ => true

mutual

-- Extends a matching so that `a` is the image of `b`. What only an equality can repair is assumed;
-- the rest fails.
def fold (a : Term) : Term → Matching → Option Matching
  | .variable v, m =>
    match m.sigma.get? v.name with
    | none => some { m with sigma := m.sigma.insert v.name a }
    | some image => if image.same a then some m else some (m.assume a image)
  | .constant type value, m =>
    match a with
    | .constant type' value' =>
      if value = value' && typesAgree type type' then some m else none
    | .variable v => some (m.assume (.variable v) (.constant type value))
    | .skolem _ _ => none
  | .skolem function args, m =>
    match a with
    | .skolem function' args' => if function = function' then foldAll args' args m else none
    | .variable v => some (m.assume (.variable v) (.skolem function args))
    | .constant _ _ => none

def foldAll : List Term → List Term → Matching → Option Matching
  | [], [], m => some m
  | a :: as, b :: bs, m => (fold a b m).bind (foldAll as bs)
  | [], _ :: _, _ => none
  | _ :: _, [], _ => none

end

end Matching

namespace Atom

-- Folds `target` onto `head`: the same predicate, kind and arity, and each argument equal after
-- substitution or by an equality. The left side of an equality is from `head`, the right side from
-- `target` before substitution.
def foldOnto? (head target : Atom) : Option Matching :=
  if head.predicate = target.predicate && head.kind = target.kind then
    Matching.foldAll head.args target.args {}
  else none

def homomorphism? (head target : Atom) : Option Substitution :=
  match foldOnto? head target with
  | some m => if m.equalities.isEmpty then some m.sigma else none
  | none => none

end Atom

end PeerExchange
