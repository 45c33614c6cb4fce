import PeerExchange.Json.Basic
import PeerExchange.Rule

namespace PeerExchange

open Json (need? needD? member?)

namespace Literal

def wordDigits (n : Nat) : List Nat :=
  if n = 0 then [] else n % 4294967296 :: wordDigits (n / 4294967296)
termination_by n

def ofWordDigits : List Nat → Nat
  | [] => 0
  | d :: rest => d + 4294967296 * ofWordDigits rest

def integerToJson (n : Int) : Json :=
  .arr [.int n.sign, .list Json.nat (wordDigits n.natAbs)]

def integerOfJson? : Json → Option Int
  | .arr [sign, digits] => do
    let sign ← sign.intIn? (-1) 1
    let digits ← digits.list? (·.intIn? 0 4294967295)
    return sign * ofWordDigits (digits.map Int.toNat)
  | _ => none

def toJson : Literal → Json
  | string s => .obj [("string", .str s)]
  | integer n => .obj [("integer", integerToJson n)]
  | null => .str "null"
  | labeledNull label => .obj [("labeled_null", .str label)]

def ofJson? (reading : Json.Reading) (j : Json) : Option Literal :=
  match j.variant? with
  | some ("string", some j) => j.str?.map string
  | some ("integer", some j) => (integerOfJson? j).map integer
  | some ("labeled_null", some j) => j.str?.map labeledNull
  | _ => if j.name? reading = some "null" then some null else none

end Literal

namespace ColumnType

def toJson : ColumnType → Json
  | integer => .str "integer"
  | text => .str "text"

def ofJson? (reading : Json.Reading) (j : Json) : Option ColumnType :=
  match j.name? reading with
  | some "integer" => some integer
  | some "text" => some text
  | _ => none

end ColumnType

namespace Term

mutual

def toJson : Term → Json
  | .variable v => .obj (
    [("type", .str "variable"), ("name", .str v.name)] ++
      member? v.existential "existential" (.bool true) ++
      member? v.skolem.isSome "skolem" (.ofOption .nat v.skolem))
  | .constant type value => .obj (
    [("type", .str "const")] ++ member? type.isSome "ty" (.ofOption ColumnType.toJson type) ++
      [("value", value.toJson)])
  | .skolem function args => .obj
    [("type", .str "skolem"), ("function", .str function), ("args", .arr (toJsonAll args))]

def toJsonAll : List Term → List Json
  | [] => []
  | a :: rest => toJson a :: toJsonAll rest

end

def variableOfJson? (j : Json) : Option Term := do
  let fields ← j.fields? ["name", "existential", "skolem"]
  let name ← need? fields "name" Json.str?
  let existential ← needD? fields "existential" false Json.bool?
  let skolem ← needD? fields "skolem" none (Json.option? Json.index?)
  return .variable ⟨name, existential, skolem⟩

def constantOfJson? (j : Json) : Option Term := do
  let fields ← j.fields? ["ty", "value"]
  let type ← needD? fields "ty" none (Json.option? (ColumnType.ofJson? .held))
  let value ← need? fields "value" (Literal.ofJson? .held)
  return .constant type value

def ofJsonWithin? (reading : Json.Reading) : Nat → Json → Option Term
  | 0, _ => none
  | depth + 1, j => do
    let (kind, j) ← j.tagged? reading "type" ["variable", "const", "skolem"]
    match kind with
    | "variable" => variableOfJson? j
    | "const" => constantOfJson? j
    | "skolem" =>
      let fields ← j.fields? ["function", "args"]
      let function ← need? fields "function" Json.str?
      let args ← need? fields "args" (Json.list? (ofJsonWithin? .held depth))
      return .skolem function args
    | _ => none

def ofJson? (reading : Json.Reading) (j : Json) : Option Term :=
  ofJsonWithin? reading (j.depth + 1) j

end Term

namespace Builtin

def toJson : Builtin → Json
  | eq => .str "eq"
  | ne => .str "ne"
  | lt => .str "lt"
  | le => .str "le"
  | gt => .str "gt"
  | ge => .str "ge"
  | least => .str "least"
  | greatest => .str "greatest"

def ofJson? (j : Json) : Option Builtin :=
  match j.name? .direct with
  | some "eq" => some eq
  | some "ne" => some ne
  | some "lt" => some lt
  | some "le" => some le
  | some "gt" => some gt
  | some "ge" => some ge
  | some "least" => some least
  | some "greatest" => some greatest
  | _ => none

end Builtin

namespace Predicate

def toJson : Predicate → Json
  | relation name => .obj [("relation", .str name)]
  | builtin op => .obj [("builtin", op.toJson)]

def ofJson? (j : Json) : Option Predicate :=
  match j.variant? with
  | some ("relation", some j) => j.str?.map relation
  | some ("builtin", some j) => (Builtin.ofJson? j).map builtin
  | _ => none

end Predicate

namespace TableKind

def toJson : TableKind → Json
  | base => .str "base"
  | insertion => .str "insert"
  | deletion => .str "delete"

def ofJson? (j : Json) : Option TableKind :=
  match j.name? .direct with
  | some "base" => some base
  | some "insert" => some insertion
  | some "delete" => some deletion
  | _ => none

end TableKind

namespace Atom

def toJson (a : Atom) : Json := .obj (
  [("predicate", a.predicate.toJson), ("kind", a.kind.toJson),
    ("args", .list Term.toJson a.args)] ++
    member? a.negated "negated" (.bool true) ++ member? a.optional "optional" (.bool true))

def ofJson? (j : Json) : Option Atom := do
  let fields ← j.fields? ["predicate", "kind", "args", "negated", "optional"]
  let predicate ← need? fields "predicate" Predicate.ofJson?
  let kind ← needD? fields "kind" .base TableKind.ofJson?
  let args ← need? fields "args" (Json.list? (Term.ofJson? .direct))
  let negated ← needD? fields "negated" false Json.bool?
  let optional ← needD? fields "optional" false Json.bool?
  return ⟨predicate, kind, args, negated, optional⟩

end Atom

namespace Action

def toJson : Action → Json
  | replace => .str "clear_and_copy"
  | retract => .str "delete_from_head"
  | view => .str "view"
  | derive => .str "other"

def ofJson? (j : Json) : Option Action :=
  match j.name? .direct with
  | some "clear_and_copy" => some replace
  | some "delete_from_head" => some retract
  | some "view" => some view
  | some "other" => some derive
  | _ => none

end Action

namespace Guard

def toJson (g : Guard) : Json := .obj [("atom", .nat g.position), ("offset", .int g.offset)]

def ofJson? (j : Json) : Option Guard := do
  let fields ← j.fields? ["atom", "offset"]
  let position ← need? fields "atom" Json.index?
  let offset ← need? fields "offset" Json.word?
  return ⟨position, offset⟩

end Guard

namespace Stamp

def toJson : Stamp → Json
  | fixed value => .obj [("fixed", .int value)]
  | iteration offset => .obj [("iteration", .int offset)]

def ofJson? (j : Json) : Option Stamp :=
  match j.variant? with
  | some ("fixed", some j) => j.word?.map fixed
  | some ("iteration", some j) => j.word?.map iteration
  | _ => none

end Stamp

namespace Invention

def toJson (i : Invention) : Json := .obj
  [("variable", .str i.variableName),
    ("term", .obj [("function", .str i.function), ("args", .list Term.toJson i.args)])]

def ofJson? (j : Json) : Option Invention := do
  let fields ← j.fields? ["variable", "term"]
  let name ← need? fields "variable" Json.str?
  let term ← need? fields "term" some
  let fields ← term.fields? ["function", "args"]
  let function ← need? fields "function" Json.str?
  let args ← need? fields "args" (Json.list? (Term.ofJson? .direct))
  return ⟨name, function, args⟩

end Invention

namespace Rule

def fieldNames : List String :=
  ["id", "head", "body", "distinct", "stratified", "provenance", "parent", "behavior",
    "replace_with_nulls", "key_and_nulls_only", "guard", "head_stratum", "skolems"]

def toJson (r : Rule) : Json := .obj (
  [("id", .str r.id), ("head", .list Atom.toJson r.head), ("body", .list Atom.toJson r.body)] ++
    member? r.distinct "distinct" (.bool true) ++
    member? r.stratified "stratified" (.bool true) ++
    member? r.provenance.isSome "provenance" (.ofOption .str r.provenance) ++
    member? r.parent.isSome "parent" (.ofOption .str r.parent) ++
    [("behavior", r.action.toJson)] ++
    member? r.blankAll "replace_with_nulls" (.bool true) ++
    member? r.blankNonKey "key_and_nulls_only" (.bool true) ++
    member? r.guard.isSome "guard" (.ofOption Guard.toJson r.guard) ++
    member? r.stamp.isSome "head_stratum" (.ofOption Stamp.toJson r.stamp) ++
    member? (!r.inventions.isEmpty) "skolems" (.list Invention.toJson r.inventions))

def ofJson? (j : Json) : Option Rule := do
  let fields ← j.fields? fieldNames
  let id ← need? fields "id" Json.str?
  let head ← need? fields "head" (Json.list? Atom.ofJson?)
  let body ← need? fields "body" (Json.list? Atom.ofJson?)
  let distinct ← needD? fields "distinct" false Json.bool?
  let stratified ← needD? fields "stratified" false Json.bool?
  let provenance ← needD? fields "provenance" none (Json.option? Json.str?)
  let parent ← needD? fields "parent" none (Json.option? Json.str?)
  let action ← needD? fields "behavior" .derive Action.ofJson?
  let blankAll ← needD? fields "replace_with_nulls" false Json.bool?
  let blankNonKey ← needD? fields "key_and_nulls_only" false Json.bool?
  let guard ← needD? fields "guard" none (Json.option? Guard.ofJson?)
  let stamp ← needD? fields "head_stratum" none (Json.option? Stamp.ofJson?)
  let inventions ← needD? fields "skolems" [] (Json.list? Invention.ofJson?)
  return ⟨id, head, body, distinct, stratified, provenance, parent, action, blankAll,
    blankNonKey, guard, stamp, inventions⟩

end Rule

end PeerExchange
