import PeerExchange.Location
import PeerExchange.Session.Textual

namespace PeerExchange

inductive File where
  | text (content : String)
  | database (archive : Sql.Archive)

structure Disk where
  files : NameMap File := .empty

namespace Disk

def nameOf (parts : List String) : String := "/".intercalate parts

def isDirectory (d : Disk) (parts : List String) : Bool :=
  parts.all (· = "..") ||
    d.files.entries.any fun (name, _) => (nameOf parts ++ "/").toList.isPrefixOf name.toList

def walk? (d : Disk) : List String → List String → Option (List String)
  | here, [] => some here
  | here, part :: rest =>
    if part = "" || part = "." then walk? d here rest
    else
      let next := if part = ".." && here.any (· ≠ "..") then here.dropLast else here ++ [part]
      if d.isDirectory next then walk? d next rest else none

-- The name of the file that a path leads to, which need not be there yet.
def locate? (d : Disk) (path : String) : Option String :=
  if "/".toList.isPrefixOf path.toList then none
  else
    let parts := path.splitOn "/"
    match parts.getLast? with
    | none | some "" | some "." | some ".." => none
    | some last =>
      match d.walk? [] parts.dropLast with
      | some here => if d.isDirectory (here ++ [last]) then none else some (nameOf (here ++ [last]))
      | none => none

def get? (d : Disk) (path : String) : Option File := (d.locate? path).bind d.files.get?

def read? (d : Disk) (path : String) : Option String :=
  match d.get? path with
  | some (.text content) => some content
  | _ => none

def put (d : Disk) (path : String) (f : File) : Disk :=
  match d.locate? path with
  | some name => ⟨d.files.insert name f⟩
  | none => d

def ofTexts (texts : List (String × String)) : Disk :=
  ⟨.ofList (texts.map fun (name, content) => (name, .text content))⟩

def opened (access : Textual.Access) : File → Textual
  | .database archive => { archive := archive, access := access }
  | .text content =>
    if content.utf8ByteSize ≤ 1 then { access := access } else { access := .foreign }

def open? (d : Disk) : Location → Option Textual
  | .memory => some {}
  | .file path access =>
    match d.locate? path, d.get? path, access with
    | none, _, _ => none
    | some _, some f, .readOnly => some (opened .readOnly f)
    | some _, some f, _ => some (opened .full f)
    | some _, none, .create => some {}
    | some _, none, _ => none

-- Keeps what a session leaves. Nothing is written to a file before there is a table.
def keep (d : Disk) (place : Location) (t : Textual) : Disk :=
  match place with
  | .memory => d
  | .file path _ =>
    if t.access ≠ .full then d
    else if t.settled.isEmpty then
      if (d.get? path).isSome then d else d.put path (.text "")
    else d.put path (.database t.settled)

end Disk

end PeerExchange
