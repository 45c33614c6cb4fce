import PeerExchange.Document
import PeerExchange.Engine
import PeerExchange.Grammar.Command

namespace PeerExchange

inductive Request where
  | nothing
  | update
  | recompute
  | rules
  | sql
  | command (c : Command)

namespace Request

def parse (line : String) : Except ParseError Request :=
  match String.ofList (Text.trim line.toList) with
  | "" => .ok nothing
  | ".update" => .ok update
  | ".recompute" => .ok recompute
  | ".rules" => .ok rules
  | ".sql" => .ok sql
  | text => (Command.parse text).map command

end Request

inductive ShellError where
  | parse (cause : ParseError)
  | run (cause : RunError)

namespace ShellError

def message : ShellError → String
  | parse (.compile cause) => ": ".intercalate (cause.chain.map CompileError.message)
  | parse cause => cause.message
  | run cause => ": ".intercalate cause.chain

end ShellError

namespace Cycle

def render (c : Cycle) : String :=
  toString c.changes ++ " changes from " ++ toString c.statements ++ " statements"

end Cycle

namespace Compilation

def ruleLines (c : Compilation) : List String :=
  (match c.exchange with
    | some x =>
      "-- translation" :: (x.rules ++ x.views.map OuterJoinView.rule).map Rule.render
    | none => []) ++
  (match c.maintenance with
    | some m => "-- delta" :: (m.rules ++ m.reset).map Rule.render
    | none => [])

def sqlLines (groups : List (String × List Sql.Statement)) : List String :=
  groups.flatMap fun (label, statements) =>
    ("-- " ++ label) :: statements.map fun s => s.render ++ ";"

def document (c : Compilation) : Document := ⟨c.catalog, c.exchange, c.maintenance⟩

end Compilation

namespace Shell

variable {σ : Type}

def answer (session : Session σ) : Request → Engine.Act σ (List String)
  | .nothing => return []
  | .update => do return [(← Engine.update session).render]
  | .recompute => do return [(← Engine.recompute session).render]
  | .rules => do return (← Engine.maintained).ruleLines
  | .sql => do return Compilation.sqlLines (← Engine.programSql)
  | .command (.insert name tuple) => do
    Engine.insert session name tuple
    return []
  | .command (.delete name tuple) => do
    Engine.delete session name tuple
    return []
  | .command (.contents name) => do
    return (← Engine.contents session name).map Literal.renderRow

def errorLine (e : ShellError) : String := "Error: " ++ e.message

-- Answers one line. A failure is told, and the engine stays usable.
def feed (session : Session σ) (e : Engine σ) (line : String) : List String × Engine σ :=
  match Request.parse line with
  | .error cause => ([errorLine (.parse cause)], e)
  | .ok request =>
    match (answer session request).run e with
    | (.ok lines, e) => (lines, e)
    | (.error cause, e) => ([errorLine (.run cause)], e)

def isQuit (line : String) : Bool := Text.trim line.toList = ".quit".toList

def feedAll (session : Session σ) (e : Engine σ) : List String → List String × Engine σ
  | [] => ([], e)
  | line :: rest =>
    if isQuit line then ([], e)
    else
      let (lines, e) := feed session e line
      let (more, e) := feedAll session e rest
      (lines ++ more, e)

end Shell

end PeerExchange
