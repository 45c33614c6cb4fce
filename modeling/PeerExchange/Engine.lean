import PeerExchange.Cycle
import PeerExchange.Tuple

namespace PeerExchange

structure Engine (σ : Type) where
  compilation : Compilation
  state : σ

namespace Engine

variable {σ α : Type}

abbrev Act (σ : Type) := Run (Engine σ)

def call (r : Run σ α) : Act σ α := r.within state fun s e => { e with state := s }

-- Changes the compilation. What a failed step leaves is kept.
def recompile (f : Compilation → Compilation × Compiled Unit) : Act σ Compilation := do
  let (c, outcome) := f (← get).compilation
  modify fun e => { e with compilation := c }
  Run.ofCompiled outcome
  return c

def exchangeUnder (trust : TrustPolicy) : Act σ Compilation :=
  recompile fun c =>
    match c.exchangeUnder trust with
    | .ok c => (c, .ok ())
    | .error cause => (c, .error cause)

def maintained : Act σ Compilation := recompile Compilation.maintained

def ready : Act σ Compilation := recompile Compilation.ready

def programSql : Act σ (List (String × List Sql.Statement)) := do
  Run.ofCompiled (← ready).programSql

def createSchema (session : Session σ) : Act σ Unit := do
  let statements ← Run.ofCompiled (← ready).schema
  call (session.batch statements)

def editable (c : Compilation) (name : String) : Compiled Relation := do
  let r ← c.catalog.relation name
  if r.role = .peer && r.materialized then c.catalog.relation r.localName
  else .error (.schema (.noEdits name))

def fact (c : Compilation) (r : Relation) (id : String) (kind : TableKind)
    (tuple : List Literal) : Compiled Rule :=
  if tuple.length = r.arity then
    let args := (tuple.zip r.columns).map fun (literal, column) =>
      match literal with
      | .null => Term.typedNull column.type
      | literal => .lit literal
    let rule := Rule.ofHead id ((Atom.ofRelation r.name args).withKind kind) []
    match c.catalog.validateRule rule with
    | .ok () => .ok rule
    | .error cause => .error (cause.within rule)
  else .error (.arity r.name r.arity tuple.length)

def runRule (session : Session σ) (c : Compilation) (r : Rule) : Act σ Unit := do
  let statements ← Run.ofCompiled (c.lower (.literal 0) r)
  let changes ← statements.mapM fun s => call (session.evaluate s none)
  discard <| Run.counted (changes.foldl (· + ·) 0)

def insert (session : Session σ) (name : String) (tuple : List Literal) : Act σ Unit := do
  let c ← ready
  let r ← Run.ofCompiled (editable c name)
  runRule session c (← Run.ofCompiled (fact c r "insert" .insertion tuple))

def valueExpr : Sql.Value → Sql.Expr
  | .integer n => .integer n
  | .text s => .text s
  | .null | .real _ => .null

def cancelByValue (r : Relation) (row : Sql.Row) : Sql.Statement :=
  let table := r.tableName .insertion
  .delete table (((r.physicalColumns .insertion).zip row).map fun ((column, _), v) =>
    .binary .is (.column table column) (valueExpr v))

def cancel (session : Session σ) (c : Compilation) (r : Relation) (tuple : List Literal) :
    Act σ Unit := do
  if r.key.isEmpty then
    let row ← Run.ofCompiled (r.toRow tuple)
    discard <| call (session.evaluate (cancelByValue r row) none)
  else
    let rule ← Run.ofCompiled (fact c r "cancel" .insertion tuple)
    runRule session c { rule with action := .retract }

def delete (session : Session σ) (name : String) (tuple : List Literal) : Act σ Unit := do
  let c ← ready
  let r ← Run.ofCompiled (editable c name)
  runRule session c (← Run.ofCompiled (fact c r "delete" .deletion tuple))
  cancel session c r tuple

def importedRow (r : Relation) (tuple : List Literal) : Compiled Sql.Row :=
  if tuple.length = r.arity then r.toRow tuple
  else .error (.arity r.name r.arity tuple.length)

def load (session : Session σ) (name : String) (tuples : List (List Literal)) : Act σ Nat := do
  let r ← Run.ofCompiled (editable (← ready) name)
  let rows ← Run.ofCompiled (tuples.mapM (importedRow r))
  call (session.load (r.tableName .insertion) (Lowering.columnNames r .insertion) rows)

-- The outcome of an action, which does not fail itself.
def outcome (act : Act σ α) : Act σ (Except RunError α) :=
  ExceptT.lift act.run

def transaction (session : Session σ) (act : Act σ α) : Act σ α := do
  call session.start
  match ← outcome act with
  | .ok a =>
    call session.commit
    return a
  | .error cause =>
    call session.rollback
    throw cause

def update (session : Session σ) : Act σ Cycle := do
  let c ← ready
  transaction session (call (c.runCycle session))

def startOver (session : Session σ) (c : Compilation) (m : Maintenance) : Act σ Unit := do
  let relations ← Run.ofCompiled (m.relations.mapM c.catalog.relation)
  m.reset.forM (runRule session c)
  relations.forM fun r =>
    discard <| call (session.evaluate (.clearTable (r.tableName .base)) none)

def recompute (session : Session σ) : Act σ Cycle := do
  discard <| update session
  let c := (← get).compilation
  transaction session do
    match c.maintenance with
    | none => return {}
    | some m =>
      startOver session c m
      call (c.runCycle session)

def contents (session : Session σ) (name : String) : Act σ (List (List Literal)) := do
  let r ← Run.ofCompiled ((← get).compilation.catalog.relation name)
  if r.materialized then
    let rows ← call (session.query (Lowering.columnNames r .base) r.name)
    return rows.map r.ofRow
  else throw (.notFound (r.name ++ " is not stored"))

end Engine

end PeerExchange
