import Mathlib.Data.List.Forall2
import PeerExchange.Lowering
import PeerExchange.Sql.Execution

namespace PeerExchange

def Iteration.number (parameter : Int) : Iteration → Int
  | .literal k => k
  | .prepared => parameter

namespace RowSemantics

open Sql (BinaryOp Database Item Row Typed Value)

-- What a term stands for: a value, and the marker where one is known.
structure Meaning where
  value : Typed
  marker : Option Typed := none

namespace Meaning

def mark (m : Meaning) : Typed :=
  m.marker.getD ⟨.integer (if m.value.value = .null then 0 else 1), none⟩

def ofLiteral (type : Option ColumnType) (value : Literal) : Meaning :=
  let typed : Typed := match value with
    | .string s => ⟨.text s, none⟩
    | .integer n => ⟨.ofInteger n, none⟩
    | .null => ⟨.null, type⟩
    | .labeledNull label => ⟨.text label, none⟩
  ⟨typed, some ⟨.integer value.marker, none⟩⟩

def invented (value : Value) : Meaning := ⟨⟨value, none⟩, some ⟨.integer 2, none⟩⟩

end Meaning

def inventedPart (width : Nat) (v : Value) : Value :=
  Sql.Function.coalesce.apply
    [Sql.Function.substr.apply
      [v.cast .text, .integer 1, .ofInteger (Lowering.signedWidth width)], .text "-"]

def inventedText (width : Nat) (function : String) (values : List Value) : Value :=
  Sql.concatenate ([.text (function ++ "(")] ++
    (values.map (inventedPart width)).intersperse (.text ",") ++ [.text ")"])

abbrev Env := NameMap Meaning

mutual

def denoteWith (width : Nat) (env : Env) (invention : Variable → Option Meaning) :
    Term → Option Meaning
  | .variable v =>
    match env.get? v.name with
    | some m => some m
    | none => invention v
  | .constant type value => some (.ofLiteral type value)
  | .skolem function args =>
    (denoteAll width env invention args).map fun values =>
      .invented (inventedText width function values)

def denoteAll (width : Nat) (env : Env) (invention : Variable → Option Meaning) :
    List Term → Option (List Value)
  | [] => some []
  | arg :: rest => do
    let m ← denoteWith width env invention arg
    let values ← denoteAll width env invention rest
    return m.value.value :: values

end

section Semantics

variable (ctx : Lowering.Context)

def inventedMeaning (env : Env) : Nat → Variable → Option Meaning
  | 0, _ => none
  | depth + 1, v =>
    (v.skolem.bind ctx.rule.invention?).bind
      (denoteWith ctx.config.skolemWidth env (inventedMeaning env depth))

def denote (env : Env) (t : Term) : Option Meaning :=
  denoteWith ctx.config.skolemWidth env
    (inventedMeaning ctx env (ctx.rule.inventions.length + 1)) t

def Holds (op : BinaryOp) (a b : Typed) : Prop := op.compare a b = some true

-- A place holds what the term at it stands for. A null only asks for null.
def Agrees (env : Env) (op : BinaryOp) (place : Meaning) (t : Term) : Prop :=
  if t.isNull then place.value.value = .null
  else ∃ m, denote ctx env t = some m ∧
    ((place.marker.isSome || m.marker.isSome) = true → Holds op place.mark m.mark) ∧
    Holds op place.value m.value

def binder? {β : Type} (known : NameMap β) : Term → Option String
  | .variable v => if v.skolem.isNone && !known.contains v.name then some v.name else none
  | _ => none

-- The first place of a variable gives it its value.
def bound (env : Env) : List (Meaning × Term) → Env
  | [] => env
  | (m, t) :: rest =>
    match binder? env t with
    | some x => bound (env.insert x m) rest
    | none => bound env rest

def Agree (final : Env) (op : BinaryOp) (env : Env) : List (Meaning × Term) → Prop
  | [] => True
  | (m, t) :: rest =>
    match binder? env t with
    | some x => Agree final op (env.insert x m) rest
    | none => Agrees ctx final op m t ∧ Agree final op env rest

-- A built-in when it is settled: it binds a variable or it is tested.
structure Step where
  atom : Atom
  op : Builtin
  binds : Option String

def pass : List Atom → List String → List Step × List Atom × List String
  | [], names => ([], [], names)
  | a :: rest, names =>
    match a.builtin? with
    | none => pass rest names
    | some op =>
      match a.binding? names with
      | some x =>
        let (steps, left, names') := pass rest (x :: names)
        (⟨a, op, some x⟩ :: steps, left, names')
      | none =>
        if a.args.all fun t => t.vars.all fun v => names.contains v.name || v.skolem.isSome then
          let (steps, left, names') := pass rest names
          (⟨a, op, none⟩ :: steps, left, names')
        else
          let (steps, left, names') := pass rest names
          (steps, a :: left, names')

def schedule : Nat → List Atom → List String → List Step
  | _, [], _ => []
  | 0, _, _ => []
  | passes + 1, atoms, names =>
    let (steps, left, names') := pass atoms names
    steps ++ schedule passes left names'

def functionMeaning (env : Env) (op : Builtin) (args : List Term) : Option Meaning :=
  (args.mapM (denote ctx env)).map fun ms =>
    ⟨⟨(Lowering.functionOf op).apply (ms.map (·.value.value)), none⟩, none⟩

def computed (env : Env) (s : Step) (x : String) : Option Meaning :=
  if s.op.isFunction then functionMeaning ctx env s.op s.atom.args.tail
  else
    match s.atom.args with
    | left :: right :: _ =>
      denote ctx env (if left.asVariable?.any (·.name = x) then right else left)
    | _ => none

def sides (env : Env) (s : Step) : Option (Meaning × Meaning) :=
  match s.atom.args with
  | [] => none
  | first :: rest => do
    let left ← denote ctx env first
    let right ←
      if s.op.isFunction then functionMeaning ctx env s.op rest
      else rest.head?.bind (denote ctx env)
    return (left, right)

def Tested (env : Env) (s : Step) : Prop :=
  ∃ left right, sides ctx env s = some (left, right) ∧
    Holds (Lowering.comparisonOf s.op) left.value right.value

def Settle (final : Env) : Env → List Step → Prop
  | env, [] => final = env
  | env, s :: rest =>
    match s.binds with
    | some x => ∃ m, computed ctx env s x = some m ∧ Settle final (env.insert x m) rest
    | none => Tested ctx env s ∧ Settle final env rest

end Semantics

def cell (db : Database) (table : String) (row : Row) (column : String) : Typed :=
  (Item.cell? column (db.columns table) row).getD ⟨.null, none⟩

def tableOf (c : Catalog) (a : Atom) : String :=
  ((c.relations.get? a.relationName).map (·.tableName a.kind)).getD ""

def places (c : Catalog) (db : Database) (a : Atom) (row : Row) : List (Meaning × Term) :=
  match c.relations.get? a.relationName with
  | some r =>
    (a.args.zip r.columns).map fun (arg, column) =>
      let read := cell db (r.tableName a.kind) row
      (⟨read column.name, (r.markerOf? column).map read⟩, arg)
  | none => []

def positives : Nat → List Atom → List (Nat × Atom)
  | _, [] => []
  | position, a :: rest =>
    if a.isPositive then (position, a) :: positives (position + 1) rest
    else positives (position + 1) rest

section Bodies

variable (ctx : Lowering.Context) (db : Database) (parameter : Int)

def Chosen (guard : Option Guard) (p : Nat × Atom) (row : Row) : Prop :=
  row ∈ db.rows (tableOf ctx.catalog p.2) ∧
    ∀ g, guard = some g → g.position = p.1 →
      Holds .eq (cell db (tableOf ctx.catalog p.2) row Relation.stratumColumn)
        ⟨BinaryOp.calculated (ctx.iteration.number parameter + g.offset), none⟩

def joinedPlaces (body : List Atom) (rows : List Row) : List (Meaning × Term) :=
  (List.zipWith (fun p row => places ctx.catalog db p.2 row) (positives 0 body) rows).flatten

def builtins (body : List Atom) : List Atom :=
  body.filter fun a => !a.negated && a.builtin?.isSome

-- A row of a negated atom's table that is identical to its arguments.
def Identical (env : Env) (a : Atom) (row : Row) : Prop :=
  Agree ctx (bound env (places ctx.catalog db a row)) .is env (places ctx.catalog db a row)

def Correlated (env : Env) (ps : List (Meaning × Term)) : Prop :=
  ∀ p ∈ ps, ∃ m, denote ctx env p.2 = some m ∧
    (p.1.marker.isSome = true → Holds .is p.1.mark m.mark) ∧ Holds .is p.1.value m.value

-- Rows for the joined atoms on which a body holds, and what its variables then stand for.
structure Match (guard : Option Guard) (body : List Atom) (rows : List Row) (env : Env) :
    Prop where
  chosen : List.Forall₂ (Chosen ctx db parameter guard) (positives 0 body) rows
  joined : Agree ctx env .eq .empty (joinedPlaces ctx db body rows)
  settled : Settle ctx env (bound .empty (joinedPlaces ctx db body rows))
    (schedule ((builtins body).length + 1) (builtins body)
      (bound .empty (joinedPlaces ctx db body rows)).keys)
  absent : ∀ a ∈ body, a.negated = true →
    ∀ row ∈ db.rows (tableOf ctx.catalog a), ¬ Identical ctx db env a row

end Bodies

end RowSemantics

end PeerExchange
