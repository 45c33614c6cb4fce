import PeerExchange.CommandLine
import PeerExchange.Document.Archive

namespace PeerExchange

def readText? (path : String) : IO (Option String) := do
  try
    return some (← IO.FS.readFile path)
  catch _ =>
    return none

def readTexts (paths : List String) : IO (NameMap String) := do
  let texts ← paths.filterMapM fun path => do return (← readText? path).map (path, ·)
  return .ofList texts

-- A session with the database in a file. A new file is made by writing nothing to it.
def openFile (path : String) (access : Access) : IO (Option Textual) := do
  match ← readText? path with
  | some text =>
    match Sql.Archive.ofText? text with
    | some archive =>
      return some { archive := archive, access := if access = .readOnly then .readOnly else .full }
    | none => return some { access := .foreign }
  | none =>
    if access ≠ .create then return none
    try
      IO.FS.writeFile path ""
      return some {}
    catch _ => return none

def openPlace : Option Location → IO (Option Textual)
  | none => return none
  | some .memory => return some {}
  | some (.file path access) => openFile path access

def saveDatabase (place : Option Location) (t : Textual) : IO Unit := do
  match place with
  | some (.file path _) =>
    unless t.access ≠ .full || t.settled.isEmpty do IO.FS.writeFile path t.settled.toText
  | _ => return ()

partial def serve (input : IO.FS.Stream) (place : Option Location) (e : Engine Textual) :
    IO Unit := do
  let line ← input.getLine
  unless line.isEmpty || Shell.isQuit line do
    let (lines, e) := Shell.feed Textual.session e line
    lines.forM IO.println
    saveDatabase place e.state
    serve input place e

end PeerExchange

open PeerExchange in
def main (args : List String) : IO UInt32 := do
  match Options.parse? args with
  | none =>
    IO.eprintln LaunchError.usage.message
    return 1
  | some o =>
    let place := CommandLine.place? o
    let texts ← readTexts (o.catalog :: o.config.toList)
    let (result, database) := CommandLine.launch o texts.get? (← openPlace place)
    database.forM (saveDatabase place)
    match result with
    | .error cause =>
      IO.eprintln ("Error: " ++ cause.message)
      return 1
    | .ok (.print lines) =>
      lines.forM IO.println
      return 0
    | .ok (.serve e) =>
      serve (← IO.getStdin) place e
      return 0
