import PeerExchange.Disk
import PeerExchange.Shell

namespace PeerExchange

structure Options where
  catalog : String
  database : Option String := none
  config : Option String := none
  outerUnion : Bool := false
  outerJoin : Bool := false
  bidirectional : Bool := false
  inlineIteration : Bool := false
  dumpRules : Bool := false
  dumpJson : Bool := false
deriving DecidableEq

namespace Options

inductive Argument where
  | flag (name : String)
  | value (name text : String)
  | positional (text : String)
deriving DecidableEq

def flagNames : List String :=
  ["--outer-union", "--outer-join", "--bidirectional", "--inline-iteration", "--dump-rules",
    "--dump-json"]

def valueNames : List String := ["--database", "--config"]

def splitValue? (arg : String) : Option (String × String) :=
  valueNames.findSome? fun name =>
    if (name ++ "=").toList.isPrefixOf arg.toList then
      some (name, String.ofList (arg.toList.drop (name.length + 1)))
    else none

def isOption (arg : String) : Bool := "-".toList.isPrefixOf arg.toList && arg ≠ "-"

def split? : List String → Option (List Argument)
  | [] => some []
  | "--" :: rest => some (rest.map .positional)
  | arg :: rest =>
    if valueNames.contains arg then
      match rest with
      | text :: rest =>
        if isOption text then none else (split? rest).map (.value arg text :: ·)
      | [] => none
    else if flagNames.contains arg then (split? rest).map (.flag arg :: ·)
    else
      match splitValue? arg with
      | some (name, text) => (split? rest).map (.value name text :: ·)
      | none => if isOption arg then none else (split? rest).map (.positional arg :: ·)

def Argument.name? : Argument → Option String
  | flag name | value name _ => some name
  | positional _ => none

def valueOf (args : List Argument) (name : String) : Option String :=
  args.findSome? fun
    | .value other text => if other = name then some text else none
    | _ => none

-- Options with exactly one catalog, no option twice, and no two options that exclude each other.
def parse? (args : List String) : Option Options := do
  let args ← split? args
  let has (name : String) : Bool := args.contains (.flag name)
  let catalogs := args.filterMap fun
    | .positional text => some text
    | _ => none
  match catalogs with
  | [catalog] =>
    if (args.filterMap Argument.name?).Nodup && !(has "--outer-union" && has "--outer-join") then
      some {
        catalog := catalog
        database := valueOf args "--database"
        config := valueOf args "--config"
        outerUnion := has "--outer-union"
        outerJoin := has "--outer-join"
        bidirectional := has "--bidirectional"
        inlineIteration := has "--inline-iteration"
        dumpRules := has "--dump-rules"
        dumpJson := has "--dump-json" }
    else none
  | _ => none

def adjust (o : Options) (c : Config) : Config :=
  { c with
    provenance :=
      if o.outerJoin then .outerJoin else if o.outerUnion then .outerUnion else c.provenance
    bidirectional := c.bidirectional || o.bidirectional
    inlineIteration := c.inlineIteration || o.inlineIteration }

end Options

inductive LaunchError where
  | usage
  | unreadable (path : String)
  | badConfig (path : String)
  | parse (cause : ParseError)
  | unreachable
  | compile (cause : CompileError)
  | run (cause : RunError)

namespace LaunchError

def message : LaunchError → String
  | usage => "usage: CATALOG [--database FILE] [--config FILE] [--outer-union | --outer-join] " ++
      "[--bidirectional] [--inline-iteration] [--dump-rules] [--dump-json]"
  | unreadable path => "Failed to read " ++ path
  | badConfig path => "Failed to parse config " ++ path
  | parse cause => ShellError.message (.parse cause)
  | unreachable => RunError.message (.connectivity "unable to open database file")
  | compile cause => ShellError.message (.run (.compile cause))
  | run cause => ShellError.message (.run cause)

end LaunchError

inductive Launch where
  | print (lines : List String)
  | serve (engine : Engine Textual)

namespace CommandLine

def readConfig (o : Options) (read : String → Option String) : Except LaunchError Config :=
  match o.config with
  | none => .ok {}
  | some path =>
    match read path with
    | none => .error (.unreadable path)
    | some text =>
      match Config.ofText? text with
      | none => .error (.badConfig path)
      | some c => .ok c

def readProgram (o : Options) (read : String → Option String) : Except LaunchError Program :=
  match read o.catalog with
  | none => .error (.unreadable o.catalog)
  | some text => (Program.parse text).mapError .parse

def inputs (o : Options) (read : String → Option String) :
    Except LaunchError (Config × Program) := do
  let config ← readConfig o read
  let program ← readProgram o read
  return (o.adjust config, program)

def compile (config : Config) (program : Program) : Except LaunchError Compilation :=
  let result : Compiled Compilation := do
    (← Compilation.ofCatalog program.catalog config).exchangeUnder program.trust
  result.mapError .compile

def dump (o : Options) (c : Compilation) : Except LaunchError (List String) := do
  let (c, maintained) := c.maintained
  maintained.mapError .compile
  return if o.dumpRules then c.ruleLines else [c.document.toText]

def settle (o : Options) (config : Config) (program : Program) (database : Textual) :
    Except LaunchError Launch × Textual :=
  match compile config program with
  | .error cause => (.error cause, database)
  | .ok c =>
    if o.dumpRules || o.dumpJson then ((dump o c).map .print, database)
    else
      match (Engine.createSchema Textual.session).run ⟨c, database⟩ with
      | (.ok (), e) => (.ok (.serve e), e.state)
      | (.error cause, e) => (.error (.run cause), e.state)

-- Starts a run: texts are read by path, and after them the database is opened, if it can be. The
-- database comes back as it is left, unless the run ended before it was opened.
def launch (o : Options) (read : String → Option String) (database : Option Textual) :
    Except LaunchError Launch × Option Textual :=
  match inputs o read, database with
  | .error cause, _ => (.error cause, none)
  | .ok _, none => (.error .unreachable, none)
  | .ok (config, program), some database =>
    let (result, database) := settle o config program database
    (result, some database)

def place? (o : Options) : Option Location :=
  match o.database with
  | none => some .memory
  | some text => Location.parse? text

end CommandLine

structure Outcome where
  status : Nat
  output : List String

namespace CommandLine

def keep (d : Disk) (place : Option Location) (database : Option Textual) : Disk :=
  match place, database with
  | some place, some database => d.keep place database
  | _, _ => d

def run (d : Disk) (args input : List String) : Outcome × Disk :=
  match Options.parse? args with
  | none => (⟨1, []⟩, d)
  | some o =>
    let place := place? o
    match launch o d.read? (place.bind d.open?) with
    | (.error _, database) => (⟨1, []⟩, keep d place database)
    | (.ok (.print lines), database) => (⟨0, lines⟩, keep d place database)
    | (.ok (.serve e), _) =>
      let (lines, e) := Shell.feedAll Textual.session e input
      (⟨0, lines⟩, keep d place (some e.state))

end CommandLine

end PeerExchange
