namespace PeerExchange

inductive Access where
  | create
  | existing
  | readOnly
deriving DecidableEq

inductive Location where
  | memory
  | file (path : String) (access : Access)
deriving DecidableEq

namespace Location

-- An address without its scheme and authority: only the own machine is spoken to.
def withoutAuthority? : List Char → Option (List Char)
  | '/' :: '/' :: rest =>
    let authority := rest.takeWhile (· ≠ '/')
    if authority.isEmpty || authority = "localhost".toList then some (rest.dropWhile (· ≠ '/'))
    else none
  | rest => some rest

def hexDigit? (byte : UInt8) : Option Nat :=
  let n := byte.toNat
  if 48 ≤ n && n ≤ 57 then some (n - 48)
  else if 65 ≤ n && n ≤ 70 then some (n - 55)
  else if 97 ≤ n && n ≤ 102 then some (n - 87)
  else none

def decodeBytes : List UInt8 → List UInt8
  | [] => []
  | percent :: high :: low :: rest =>
    match percent.toNat, hexDigit? high, hexDigit? low with
    | 37, some h, some l =>
      if 16 * h + l = 0 then [] else UInt8.ofNat (16 * h + l) :: decodeBytes rest
    | _, _, _ => percent :: decodeBytes (high :: low :: rest)
  | byte :: rest => byte :: decodeBytes rest

def decode? (cs : List Char) : Option String :=
  String.fromUTF8? ⟨(decodeBytes (String.ofList cs).toUTF8.toList).toArray⟩

def cut (c : Char) (cs : List Char) : List Char × List Char :=
  (cs.takeWhile (· ≠ c), (cs.dropWhile (· ≠ c)).drop 1)

def parameters? (cs : List Char) : Option (List (String × String)) :=
  ((String.ofList cs).splitOn "&").mapM fun text => do
    let (name, value) := cut '=' text.toList
    return (← decode? name, ← decode? value)

def systems : List String := ["unix", "unix-none", "unix-dotfile", "unix-excl", "memdb"]

-- What a parameter makes of a place. Most say nothing about it.
def adjust? (place : Location) : String × String → Option Location
  | ("mode", mode) =>
    match mode, place with
    | "memory", _ => some memory
    | "ro", file path _ => some (file path .readOnly)
    | "rw", file path _ => some (file path .existing)
    | "rwc", file path _ => some (file path .create)
    | "ro", memory | "rw", memory | "rwc", memory => some memory
    | _, _ => none
  | ("cache", mode) => if ["shared", "private"].contains mode then some place else none
  | ("vfs", system) =>
    if systems.contains system then some (if system = "memdb" then memory else place) else none
  | _ => some place

def ofPath (path : String) : Location :=
  if path = "" || path = ":memory:" then memory else file path .create

def ofAddress? (address : List Char) : Option Location := do
  let (path, query) := cut '?' ((← withoutAuthority? address).takeWhile (· ≠ '#'))
  (← parameters? query).foldlM adjust? (ofPath (← decode? path))

def parse? (text : String) : Option Location :=
  if "file:".toList.isPrefixOf text.toList then ofAddress? (text.toList.drop 5)
  else some (ofPath text)

end Location

end PeerExchange
