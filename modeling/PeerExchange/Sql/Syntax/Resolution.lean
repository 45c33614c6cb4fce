import PeerExchange.Sql.Resolution
import PeerExchange.Sql.Syntax

namespace PeerExchange.Sql.Syntax

def key (name : String) : String :=
  let folded := fold name
  if "main.".isPrefixOf folded then String.ofList (folded.toList.drop 5) else folded

abbrev Reading := String × Bool

mutual

def Expr.tables : Expr → List Reading
  | .binary _ left right | .concat left right => left.tables ++ right.tables
  | .call _ args | .other args => Expr.allTables args
  | .cast e _ => e.tables
  | .nullCase e onNull otherwise => e.tables ++ onNull.tables ++ otherwise.tables
  | .exists _ query => query.tables
  | .column _ _ | .name _ _ | .integer _ | .text _ | .null | .parameter => []

def Expr.allTables : List Expr → List Reading
  | [] => []
  | e :: rest => e.tables ++ Expr.allTables rest

def Source.tables : List Source → List Reading
  | [] => []
  | .mk table called _ _ _ :: rest => (table, called) :: Source.tables rest

def Source.conditionTables : List Source → List Reading
  | [] => []
  | .mk _ _ _ _ on :: rest => Expr.allTables on ++ Source.conditionTables rest

def Select.tables : Select → List Reading
  | .mk _ projection sources conditions =>
    Source.tables sources ++ Expr.allTables projection ++ Expr.allTables conditions ++
      Source.conditionTables sources

end

namespace Source

def qualifier : Source → String
  | mk table _ label _ _ => key (label.getD table)

def visible (db : Database) : Source → String × List String
  | mk table _ label _ _ => (key (label.getD table), (db.columns (key table)).map Prod.fst)

end Source

def ownersOf (around : List Visible) (column : String) : List String :=
  (around.findSome? fun v =>
    match v.filter (·.2.contains column) with
    | [] => none
    | owners => some (owners.map Prod.fst)).getD []

def truth? (name : String) : Option Int :=
  match name.toLower with
  | "true" => some 1
  | "false" => some 0
  | _ => none

mutual

def Expr.resolve (db : Database) (around : List Visible) : Expr → Except Fault Sql.Expr
  | .column qualifier name =>
    if around.any (·.has (key qualifier) (key name)) then
      .ok (.column (key qualifier) (key name))
    else .error (.noColumn (qualifier ++ "." ++ name))
  | .name quoted name =>
    match ownersOf around (key name) with
    | [owner] => .ok (.column owner (key name))
    | [] =>
      if quoted then .ok (.text name)
      else
        match truth? name with
        | some n => .ok (.integer n)
        | none => .error (.noColumn name)
    | _ => .error (.ambiguous name)
  | .integer n => .ok (.integer n)
  | .text s => .ok (.text s)
  | .null => .ok .null
  | .parameter => .ok (.param 1)
  | .binary op left right => do
    .ok (.binary op (← left.resolve db around) (← right.resolve db around))
  | .call f args => do .ok (.call f (← Expr.resolveAll db around args))
  | .cast e type => do .ok (.cast (← e.resolve db around) type)
  | .concat left right => do
    .ok (.concat [← left.resolve db around, ← right.resolve db around])
  | .nullCase e onNull otherwise => do
    .ok (.nullCase (← e.resolve db around) (← onNull.resolve db around)
      (← otherwise.resolve db around))
  | .exists negated query => do .ok (.exists negated (← query.resolve db around))
  | .other parts => do
    discard (Expr.resolveAll db around parts)
    .ok .null

def Expr.resolveAll (db : Database) (around : List Visible) :
    List Expr → Except Fault (List Sql.Expr)
  | [] => .ok []
  | e :: rest => do .ok ((← e.resolve db around) :: (← Expr.resolveAll db around rest))

def Source.resolveAll (db : Database) (around : List Visible) :
    List Source → Except Fault (List Sql.Source)
  | [] => .ok []
  | .mk table _ label outer on :: rest => do
    let on ← Expr.resolveAll db around on
    .ok (.mk (key table) (key (label.getD table)) outer on ::
      (← Source.resolveAll db around rest))

def Select.resolve (db : Database) (around : List Visible) : Select → Except Fault Sql.Select
  | .mk distinct projection sources conditions => do
    let around := sources.map (Source.visible db) :: around
    let projection ← Expr.resolveAll db around projection
    let conditions ← Expr.resolveAll db around conditions
    .ok (.mk distinct projection (← Source.resolveAll db around sources) conditions)

end

namespace Select

def width : Select → Nat
  | mk _ projection _ _ => projection.length

end Select

namespace Query

def tables (q : Query) : List Reading := q.selects.reverse.flatMap Select.tables

def resolveMore (db : Database) :
    List (Combination × Select) → Except Fault (List (Combination × Sql.Select))
  | [] => .ok []
  | (how, s) :: rest => do
    let more ← resolveMore db rest
    let resolved ← s.resolve db []
    match rest with
    | (next, t) :: _ =>
      if s.width = t.width then .ok ((how, resolved) :: more)
      else .error (.widths next.symbol)
    | [] => .ok ((how, resolved) :: more)

def resolve (db : Database) (q : Query) : Except Fault Sql.Query := do
  let selects ← resolveMore db ((.union, q.first) :: q.more)
  .ok {
    selects := (selects.filter (·.1 ≠ .except)).map Prod.snd
    all := q.more.any (·.1 = .unionAll)
    except := ((selects.filter (·.1 = .except)).map Prod.snd).head? }

end Query

namespace InsertSource

def tables : InsertSource → List Reading
  | values es => Expr.allTables es
  | query q => q.tables

def width : InsertSource → Nat
  | values es => es.length
  | query q => q.first.width

def resolve (db : Database) : InsertSource → Except Fault Sql.InsertSource
  | values es => do .ok (.values (← Expr.resolveAll db [] es))
  | query q => do .ok (.query (← q.resolve db))

end InsertSource

end PeerExchange.Sql.Syntax
