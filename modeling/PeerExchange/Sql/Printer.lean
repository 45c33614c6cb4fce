import PeerExchange.Sql.Basic

namespace PeerExchange.Sql

def quoteText (s : String) : String :=
  String.ofList ('\'' :: s.toList.flatMap (fun c => if c = '\'' then ['\'', '\''] else [c]) ++
    ['\''])

mutual

def Expr.render : Expr → String
  | .column qualifier name => qualifier ++ "." ++ name
  | .integer n => toString n
  | .text s => quoteText s
  | .null => "NULL"
  | .typedNull type => "CAST(NULL AS " ++ type.sqlName ++ ")"
  | .param n => "?" ++ toString n
  | .binary op left right => left.render ++ " " ++ op.symbol ++ " " ++ right.render
  | .call f args => f.name ++ "(" ++ ", ".intercalate (Expr.renderAll args) ++ ")"
  | .cast e type => "CAST(" ++ e.render ++ " AS " ++ type.sqlName ++ ")"
  | .concat parts => " || ".intercalate (Expr.renderAll parts)
  | .nullCase e onNull otherwise =>
    "CASE WHEN " ++ e.render ++ " IS NULL THEN " ++ onNull.render ++ " ELSE " ++
      otherwise.render ++ " END"
  | .exists negated query => (if negated then "NOT " else "") ++ "EXISTS (" ++ query.render ++ ")"

def Expr.renderAll : List Expr → List String
  | [] => []
  | e :: rest => e.render :: Expr.renderAll rest

def Source.renderRest : List Source → String
  | [] => ""
  | .mk table qualifier outer on :: rest =>
    (if outer then " LEFT OUTER JOIN " else ", ") ++ table ++ " " ++ qualifier ++
      (if outer then " ON " ++ Expr.renderConditions on else "") ++ Source.renderRest rest

def Expr.renderConditions : List Expr → String
  | [] => "1"
  | e :: rest => " AND ".intercalate (e.render :: Expr.renderAll rest)

def Source.renderAll : List Source → String
  | [] => ""
  | .mk table qualifier outer on :: rest =>
    " FROM " ++ table ++ " " ++ qualifier ++
      (if outer then " ON " ++ Expr.renderConditions on else "") ++ Source.renderRest rest

def Select.render : Select → String
  | .mk distinct projection sources conditions =>
    "SELECT " ++ (if distinct then "DISTINCT " else "") ++
      (if projection.isEmpty then "1" else ", ".intercalate (Expr.renderAll projection)) ++
      Source.renderAll sources ++
      (if conditions.isEmpty then "" else " WHERE " ++ Expr.renderConditions conditions)

end

@[simp] theorem Expr.renderAll_eq_map (es : List Expr) :
    Expr.renderAll es = es.map Expr.render := by
  induction es with
  | nil => simp [Expr.renderAll]
  | cons e rest ih => simp [Expr.renderAll, ih]

namespace Query

def render (q : Query) : String :=
  (if q.all then " UNION ALL " else " UNION ").intercalate (q.selects.map Select.render) ++
    match q.except with
    | some select => " EXCEPT " ++ select.render
    | none => ""

end Query

namespace Statement

def render : Statement → String
  | createTable name columns =>
    "CREATE TABLE IF NOT EXISTS " ++ name ++ " (" ++
      ", ".intercalate (columns.map fun (column, type) => column ++ " " ++ type.sqlName) ++ ")"
  | createView name columns query =>
    "CREATE VIEW IF NOT EXISTS " ++ name ++ " (" ++ ", ".intercalate columns ++ ") AS " ++
      query.render
  | insert table columns source =>
    "INSERT INTO " ++ table ++ " (" ++ ", ".intercalate columns ++ ") " ++
      match source with
      | .values values => "VALUES (" ++ ", ".intercalate (Expr.renderAll values) ++ ")"
      | .query query => query.render
  | delete table conditions =>
    "DELETE FROM " ++ table ++
      (if conditions.isEmpty then "" else " WHERE " ++ Expr.renderConditions conditions)

end Statement

end PeerExchange.Sql
