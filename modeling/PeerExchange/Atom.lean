import PeerExchange.Term

namespace PeerExchange

inductive Builtin where
  | eq
  | ne
  | lt
  | le
  | gt
  | ge
  | least
  | greatest
deriving DecidableEq

namespace Builtin

def isFunction : Builtin → Bool
  | least | greatest => true
  | _ => false

def arity (op : Builtin) : Nat := if op.isFunction then 3 else 2

def symbol : Builtin → String
  | eq => "="
  | ne => "!="
  | lt => "<"
  | le => "<="
  | gt => ">"
  | ge => ">="
  | least => "least"
  | greatest => "greatest"

def ofSymbol? (s : String) : Option Builtin :=
  match s.toLower with
  | "=" => some eq
  | "!=" | "<>" => some ne
  | "<" => some lt
  | "<=" => some le
  | ">" => some gt
  | ">=" => some ge
  | "least" => some least
  | "greatest" => some greatest
  | _ => none

end Builtin

inductive Predicate where
  | relation (name : String)
  | builtin (op : Builtin)
deriving DecidableEq

inductive TableKind where
  | base
  | insertion
  | deletion
deriving DecidableEq

namespace TableKind

def suffix : TableKind → String
  | base => ""
  | insertion => "_INS"
  | deletion => "_DEL"

def all : List TableKind := [base, insertion, deletion]

end TableKind

structure Atom where
  predicate : Predicate
  kind : TableKind := .base
  args : List Term
  negated : Bool := false
  -- Outer joined: the rule still holds when nothing matches, with the atom's own variables null.
  optional : Bool := false
deriving DecidableEq

namespace Atom

def ofRelation (name : String) (args : List Term) : Atom :=
  ⟨.relation name, .base, args, false, false⟩

def ofBuiltin (op : Builtin) (args : List Term) : Atom :=
  ⟨.builtin op, .base, args, false, false⟩

def withKind (a : Atom) (kind : TableKind) : Atom := { a with kind := kind }

def negate (a : Atom) : Atom := { a with negated := true }

def relation? (a : Atom) : Option String :=
  match a.predicate with
  | .relation name => some name
  | .builtin _ => none

def builtin? (a : Atom) : Option Builtin :=
  match a.predicate with
  | .relation _ => none
  | .builtin op => some op

def relationName (a : Atom) : String := a.relation?.getD ""

theorem relationName_of_relation {a : Atom} {name : String} (named : a.relation? = some name) :
    a.relationName = name := by
  rw [relationName, named, Option.getD_some]

-- An atom that is joined: over a relation and not negated.
def isPositive (a : Atom) : Bool := !a.negated && a.relation?.isSome

theorem negated_of_isPositive {a : Atom} (positive : a.isPositive = true) : a.negated = false := by
  simpa using (Bool.and_eq_true_iff.mp positive).1

theorem builtin?_of_isPositive {a : Atom} (positive : a.isPositive = true) : a.builtin? = none := by
  have related := (Bool.and_eq_true_iff.mp positive).2
  unfold relation? at related
  unfold builtin?
  cases kind : a.predicate with
  | relation name => rfl
  | builtin op =>
    rw [kind] at related
    cases related

def tableName? (a : Atom) : Option String := a.relation?.map (· ++ a.kind.suffix)

def vars (a : Atom) : List Variable := a.args.flatMap Term.vars

def variableNames (a : Atom) : List String := a.vars.map Variable.name

def same (a b : Atom) : Bool :=
  a.predicate = b.predicate && a.kind = b.kind && Term.sameList a.args b.args &&
    a.negated = b.negated && a.optional = b.optional

def mapArgs (f : Term → Term) (a : Atom) : Atom := { a with args := a.args.map f }

def renderArgs (args : List Term) : String := ", ".intercalate (args.map Term.render)

def render (a : Atom) : String :=
  (if a.negated then "not " else "") ++ (if a.optional then "optional " else "") ++
    match a.predicate with
    | .relation name => name ++ a.kind.suffix ++ "(" ++ renderArgs a.args ++ ")"
    | .builtin op =>
      match op.isFunction, a.args with
      | true, output :: rest =>
        output.render ++ " = " ++ op.symbol ++ "(" ++ renderArgs rest ++ ")"
      | _, [left, right] => left.render ++ " " ++ op.symbol ++ " " ++ right.render
      | _, args => op.symbol ++ "(" ++ renderArgs args ++ ")"

end Atom

end PeerExchange
