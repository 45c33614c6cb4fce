import PeerExchange.Substitution

namespace PeerExchange.Rule

def dropRepeats (body : List Atom) : List Atom × List Atom :=
  body.foldl (fun (kept, dropped) a =>
    if kept.any (·.same a) then (kept, dropped ++ [a]) else (kept ++ [a], dropped)) ([], [])

def occursOutside (r : Rule) (position : Nat) (name : String) : Bool :=
  r.head.any (·.variableNames.contains name) ||
    (r.body.eraseIdx position).any (·.variableNames.contains name) ||
    ((r.inventions.flatMap Invention.args).flatMap Term.vars).any (·.name = name)

-- The atom at `j` adds nothing to the one at `i`: both read one provenance relation, and the
-- substitution that folds `j` onto `i` moves only variables of `j` alone.
def subsumes (r : Rule) (isProvenance : String → Bool) (i j : Nat) : Bool :=
  match r.body[i]?, r.body[j]? with
  | some a, some b =>
    a.isPositive && b.isPositive && isProvenance a.relationName &&
      match a.homomorphism? b with
      | some σ => σ.entries.all fun (name, image) =>
        image.same (.var name) || !r.occursOutside j name
      | none => false
  | _, _ => false

def positionPairs (n : Nat) : List (Nat × Nat) :=
  (List.range n).flatMap fun i => (List.range n).map fun j => (i, j)

def firstSubsumed? (r : Rule) (isProvenance : String → Bool) : Option Nat :=
  ((positionPairs r.body.length).find? fun (i, j) =>
    i ≠ j && r.subsumes isProvenance i j).map Prod.snd

-- Removes subsumed atoms one at a time. A rule has no more of them than body atoms.
def dropSubsumed (isProvenance : String → Bool) : Nat → Rule → List Atom → Rule × List Atom
  | 0, r, dropped => (r, dropped)
  | rounds + 1, r, dropped =>
    match r.firstSubsumed? isProvenance with
    | none => (r, dropped)
    | some j =>
      dropSubsumed isProvenance rounds { r with body := r.body.eraseIdx j }
        (dropped ++ r.body[j]?.toList)

-- The rule without the atoms that add nothing, and those atoms.
def minimize (r : Rule) (isProvenance : String → Bool) : Rule × List Atom :=
  let (kept, repeats) := dropRepeats r.body
  dropSubsumed isProvenance kept.length { r with body := kept } repeats

end PeerExchange.Rule
