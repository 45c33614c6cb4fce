import PeerExchange.Rule

namespace PeerExchange.Rule

-- One rule for each head, numbered and with the rule as parent. A rule with one head is left as it
-- is.
def split (r : Rule) : List Rule :=
  if r.head.length = 1 then [r]
  else r.head.mapIdx fun i head =>
    { r with id := r.id ++ "_" ++ toString i, head := [head], parent := some r.id }

def plainAtom (a : Atom) : Atom :=
  .ofRelation a.relationName (a.args.map fun t => .var t.render)

-- The inverse of a rule with one head and one joined atom, all of whose arguments are variables.
def inverse? (r : Rule) : Option Rule :=
  match r.head, r.body with
  | [head], [source] =>
    if source.isPositive && (head.args ++ source.args).all (·.asVariable?.isSome) then
      some (ofHead (r.id ++ "_inv") (plainAtom source) [plainAtom head])
    else none
  | _, _ => none

end PeerExchange.Rule
