import PeerExchange.Catalog
import PeerExchange.Renaming
import PeerExchange.Substitution

namespace PeerExchange

-- A definition's head made ready to match the atom it defines: Skolem terms opposite variables are
-- replaced by fresh variables, and `sigma` gives those variables the terms.
structure HeadFit where
  args : List Term := []
  sigma : Substitution := .empty
  clash : Bool := false
  fresh : FreshNames

namespace HeadFit

def step (fit : HeadFit) (arg : Term) (opposite : Option Term) : HeadFit :=
  match arg, opposite with
  | .skolem function args, some (.variable v) =>
    let term := Term.skolem function args
    let (name, fresh) := fit.fresh.fresh "sk"
    let differs := match fit.sigma.get? v.name with
      | some earlier => !earlier.same term
      | none => false
    { args := fit.args ++ [.var name], sigma := fit.sigma.insert v.name term,
      clash := fit.clash || differs, fresh := fresh }
  | .skolem function args, some (.skolem _ _) =>
    { fit with args := fit.args ++ [.skolem function args] }
  | .skolem function args, _ =>
    { fit with args := fit.args ++ [.skolem function args], clash := true }
  | other, _ => { fit with args := fit.args ++ [other] }

def steps (fit : HeadFit) : List Term → List Term → HeadFit
  | [], _ => fit
  | arg :: args, [] => (fit.step arg none).steps args []
  | arg :: args, opposite :: rest => (fit.step arg (some opposite)).steps args rest

end HeadFit

namespace Rule

def inventionTerms (r : Rule) : Substitution :=
  .ofList (r.inventions.map fun i => (i.variableName, i.term))

-- The rule with the atom at a position, `target`, replaced by the body of a definition through one
-- of its heads.
def unfoldThrough (r : Rule) (position : Nat) (target : Atom) (definition : Rule) (head : Atom)
    (fresh : FreshNames) : Option Rule × FreshNames :=
  let head := head.substitute definition.inventionTerms
  let fit := HeadFit.steps { fresh := fresh } head.args target.args
  let unfolded :=
    if fit.clash then none
    else
      match target.foldOnto? { head with args := fit.args } with
      | none => none
      | some m =>
        let equalities := m.equalities.map fun (a, b) =>
          Atom.ofBuiltin .eq [a, b.substitute m.sigma]
        let body := r.body.take position ++ definition.body.map (Atom.substitute m.sigma) ++
          equalities ++ r.body.drop (position + 1)
        let unfolded := { r with
          id := r.id ++ "_" ++ definition.id
          body := body
          parent := some (r.parent.getD r.id) }
        some (unfolded.substitute (fit.sigma.map (Term.substitute m.sigma)))
  (unfolded, fit.fresh)

def unfoldHeads (r : Rule) (position : Nat) (target : Atom) (definition : Rule) :
    List Atom → FreshNames → List Rule × FreshNames
  | [], fresh => ([], fresh)
  | head :: heads, fresh =>
    if head.relation? = target.relation? then
      let (unfolded, fresh) := r.unfoldThrough position target definition head fresh
      let (rest, fresh) := r.unfoldHeads position target definition heads fresh
      (unfolded.toList ++ rest, fresh)
    else r.unfoldHeads position target definition heads fresh

def unfoldDefinitions (r : Rule) (position : Nat) (target : Atom) :
    List Rule → FreshNames → List Rule × FreshNames
  | [], fresh => ([], fresh)
  | definition :: definitions, fresh =>
    let (definition, fresh) := definition.renamedApart fresh
    let (here, fresh) := r.unfoldHeads position target definition definition.head fresh
    let (rest, fresh) := r.unfoldDefinitions position target definitions fresh
    (here ++ rest, fresh)

-- No head that defines the relation of an atom has a Skolem term beyond the arguments of the atom.
def isCoveredBy (target : Atom) (definition : Rule) : Bool :=
  (definition.head.filter (·.relation? = target.relation?)).all fun head =>
    ((head.substitute definition.inventionTerms).args.drop target.args.length).all fun
      | .skolem _ _ => false
      | _ => true

def unfoldAt (r : Rule) (position : Nat) (target : Atom) (definitions : List Rule)
    (fresh : FreshNames) : Compiled (List Rule × FreshNames) :=
  if definitions.all (isCoveredBy target) then
    .ok (r.unfoldDefinitions position target definitions fresh)
  else .error (.malformed (.fewArguments target))

def checkHead (r : Rule) : Compiled Unit :=
  if r.head.isEmpty then .error (.malformed (.noHead r.id)) else .ok ()

end Rule

namespace Unfolding

abbrev Dependencies := NameMap NameSet

def dependencies (isVirtual : String → Bool) (definitions : List Rule) : Dependencies :=
  definitions.foldl (fun deps rule =>
    let reads := (rule.body.filterMap Atom.relation?).filter isVirtual
    let known := (deps.get? rule.headRelation).getD .empty
    deps.insert rule.headRelation (reads.foldl NameSet.add known)) .empty

-- Depth-first search below a relation. Fails with the first path that closes; otherwise the
-- relations found to be clear. Every step lengthens a path of different relations, so the number of
-- relations bounds the depth.
def clear (deps : Dependencies) :
    Nat → List String → List String → String → Except (List String) (List String)
  | 0, _, done, _ => .ok done
  | depth + 1, path, done, node =>
    if path.contains node then .error (path.dropWhile (· ≠ node))
    else if done.contains node then .ok done
    else
      let next := ((deps.get? node).map NameSet.toList).getD []
      next.foldlM (fun done n => clear deps depth (path ++ [node]) done n) (node :: done)

def checkCycles (deps : Dependencies) : Except (List String) (List String) :=
  deps.keys.foldlM (fun done node => clear deps (deps.keys.length + 2) [] done node) []

def definitionsOf (catalog : Catalog) (rules : List Rule) : List Rule :=
  rules.filter fun r => catalog.isVirtual r.headRelation

def check (catalog : Catalog) (rules : List Rule) : Compiled Unit := do
  rules.forM Rule.checkHead
  match checkCycles (dependencies catalog.isVirtual (definitionsOf catalog rules)) with
  | .ok _ => .ok ()
  | .error cycle => .error (.recursive cycle)

-- The first atom over a virtual relation, negated or not, with its position.
def virtualAtom? (catalog : Catalog) (r : Rule) : Option (Nat × Atom) :=
  (r.body.mapIdx Prod.mk).find? fun (_, a) => a.relation?.any catalog.isVirtual

def round (catalog : Catalog) (definitions : List Rule) :
    List Rule → FreshNames → Compiled (List Rule × FreshNames)
  | [], fresh => .ok ([], fresh)
  | r :: rest, fresh => do
    let (here, fresh) ← match virtualAtom? catalog r with
      | none => .ok ([r], fresh)
      | some (position, target) => r.unfoldAt position target definitions fresh
    let (others, fresh) ← round catalog definitions rest fresh
    .ok (here ++ others, fresh)

def rounds (catalog : Catalog) (definitions : List Rule) :
    Nat → List Rule → FreshNames → Compiled (List Rule × FreshNames)
  | 0, pending, fresh => .ok (pending, fresh)
  | n + 1, pending, fresh =>
    if pending.all fun r => (virtualAtom? catalog r).isNone then .ok (pending, fresh)
    else do
      let (pending, fresh) ← round catalog definitions pending fresh
      rounds catalog definitions n pending fresh

def bodyAtoms (rules : List Rule) : Nat := rules.foldr (·.body.length + ·) 0

-- Unfolding an atom brings at most as many new ones as the definitions have, each a step lower in a
-- hierarchy of at most as many levels as there are definitions.
def roundBound (definitions pending : List Rule) : Nat :=
  bodyAtoms pending * Nat.pow (bodyAtoms definitions + 1) (definitions.length + 1)

-- Reads virtual relations through their definitions and leaves the definitions out.
def compose (catalog : Catalog) (rules : List Rule) (fresh : FreshNames) :
    Compiled (List Rule × FreshNames) := do
  rules.forM Rule.checkHead
  let (definitions, pending) := rules.partition fun r => catalog.isVirtual r.headRelation
  if definitions.isEmpty then .ok (pending, fresh)
  else
    check catalog definitions
    rounds catalog definitions (roundBound definitions pending) pending fresh

end Unfolding

end PeerExchange
