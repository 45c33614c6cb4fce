import PeerExchange.NameMap
import PeerExchange.Rule

namespace PeerExchange

structure FreshNames where
  next : Nat := 0
deriving DecidableEq

namespace FreshNames

def baseOf (name : String) : String := String.ofList (name.toList.takeWhile (· ≠ '$'))

def fresh (f : FreshNames) (base : String) : String × FreshNames :=
  (baseOf base ++ "$" ++ toString f.next, ⟨f.next + 1⟩)

def freshAll (f : FreshNames) : List String → List String × FreshNames
  | [] => ([], f)
  | base :: rest =>
    let (name, f) := f.fresh base
    let (names, f) := f.freshAll rest
    (name :: names, f)

end FreshNames

abbrev Renaming := NameMap String

namespace Term

def rename (f : String → String) (t : Term) : Term :=
  t.bind fun v => .variable { v with name := f v.name }

end Term

namespace Rule

def allNames (r : Rule) : List String :=
  (r.head ++ r.body).flatMap Atom.variableNames ++
    r.inventions.flatMap fun i =>
      i.variableName :: (i.args.flatMap Term.vars).map Variable.name

def rename (f : String → String) (r : Rule) : Rule :=
  { r with
    head := r.head.map (Atom.mapArgs (Term.rename f))
    body := r.body.map (Atom.mapArgs (Term.rename f))
    inventions := r.inventions.map fun i =>
      { i with variableName := f i.variableName, args := i.args.map (Term.rename f) } }

end Rule

namespace Renaming

-- Gives a name a fresh one, unless it has one or is to be kept.
def extend (kept : List String) (state : Renaming × FreshNames) (name : String) :
    Renaming × FreshNames :=
  if kept.contains name || state.1.contains name then state
  else
    let (new, fresh) := state.2.fresh name
    (state.1.insert name new, fresh)

def apply (kept : List String) (names : Renaming) (name : String) : String :=
  if kept.contains name then name else (names.get? name).getD name

end Renaming

namespace Rule

-- Renames every variable through the given names, which are extended by fresh ones for the
-- variables they lack. A name that is itself a new name stays, so that freshening again with the
-- same names changes nothing.
def freshen (r : Rule) (names : Renaming) (fresh : FreshNames) :
    Rule × Renaming × FreshNames :=
  let kept := names.values
  let (names, fresh) := r.allNames.foldl (Renaming.extend kept) (names, fresh)
  (r.rename (names.apply kept), names, fresh)

def renamedApart (r : Rule) (fresh : FreshNames) : Rule × FreshNames :=
  let (r, _, fresh) := r.freshen .empty fresh
  (r, fresh)

end Rule

end PeerExchange
