namespace PeerExchange

inductive Json where
  | null
  | bool (b : Bool)
  | int (n : Int)
  | real (text : String)
  | str (s : String)
  | arr (items : List Json)
  | obj (members : List (String × Json))
  -- A text or a member's name with half a surrogate pair, a number beyond all bounds, or a value
  -- that stands too deep.
  | unreadable

namespace Json

-- How a value is read: straight from where it stands, or out of a tagged record, which is held as a
-- whole before its kind is known. A held value is read more loosely.
inductive Reading where
  | direct
  | held
deriving DecidableEq

instance : Inhabited Json := ⟨null⟩

def strs (items : List String) : Json := arr (items.map str)

def ofOption {α : Type} (encode : α → Json) : Option α → Json
  | some a => encode a
  | none => null

def list {α : Type} (encode : α → Json) (items : List α) : Json := arr (items.map encode)

def nat (n : Nat) : Json := int n

def member? (present : Bool) (name : String) (value : Json) : List (String × Json) :=
  if present then [(name, value)] else []

mutual

def depth : Json → Nat
  | .arr items => depthAll items + 1
  | .obj members => depthMembers members + 1
  | _ => 0

def depthAll : List Json → Nat
  | [] => 0
  | j :: rest => max (depth j) (depthAll rest)

def depthMembers : List (String × Json) → Nat
  | [] => 0
  | (_, j) :: rest => max (depth j) (depthMembers rest)

end

mutual

def isReadable : Json → Bool
  | .arr items => allReadable items
  | .obj members => membersReadable members
  | .unreadable => false
  | _ => true

def allReadable : List Json → Bool
  | [] => true
  | j :: rest => isReadable j && allReadable rest

def membersReadable : List (String × Json) → Bool
  | [] => true
  | (_, j) :: rest => isReadable j && membersReadable rest

end

def bool? : Json → Option Bool
  | bool b => some b
  | _ => none

def str? : Json → Option String
  | str s => some s
  | _ => none

def intIn? (low high : Int) : Json → Option Int
  | int n => if low ≤ n && n ≤ high then some n else none
  | _ => none

def word? (j : Json) : Option Int := j.intIn? (-9223372036854775808) 9223372036854775807

def index? (j : Json) : Option Nat := (j.intIn? 0 18446744073709551615).map Int.toNat

def list? {α : Type} (decode : Json → Option α) : Json → Option (List α)
  | arr items => items.mapM decode
  | _ => none

def option? {α : Type} (decode : Json → Option α) : Json → Option (Option α)
  | null => some none
  | j => (decode j).map some

def get? (j : Json) (name : String) : Option Json :=
  match j with
  | obj members => (members.reverse.find? (·.1 = name)).map Prod.snd
  | _ => none

-- The members of a record with the given fields: of an object, where a field may stand once and
-- other members are passed over, or the items of an array in the order of the fields.
def fields? (names : List String) : Json → Option (List (String × Json))
  | obj members =>
    if names.all fun name => (members.filter (·.1 = name)).length ≤ 1 then some members else none
  | arr items => if items.length ≤ names.length then some (names.zip items) else none
  | _ => none

def need? {α : Type} (members : List (String × Json)) (name : String)
    (decode : Json → Option α) : Option α :=
  match members.find? (·.1 = name) with
  | some (_, j) => decode j
  | none => none

def needD? {α : Type} (members : List (String × Json)) (name : String) (default : α)
    (decode : Json → Option α) : Option α :=
  match members.find? (·.1 = name) with
  | some (_, j) => decode j
  | none => some default

def variant? : Json → Option (String × Option Json)
  | str name => some (name, none)
  | obj [(name, j)] => some (name, some j)
  | _ => none

-- A choice that holds nothing. Null may stand beside its name, and in a held value an empty object
-- too.
def name? (reading : Reading) (j : Json) : Option String :=
  match j.variant? with
  | some (name, none) => some name
  | some (name, some null) => some name
  | some (name, some (obj [])) => if reading = .held then some name else none
  | _ => none

def kind? (reading : Reading) (kinds : List String) : Json → Option String
  | str kind => some kind
  | int n => if reading = .held && 0 ≤ n then kinds[n.toNat]? else none
  | _ => none

-- A record of one of some kinds: in an object the member of the tag's name tells the kind, in an
-- array the first item does. The record is what is left, and all of it has to be readable.
def tagged? (reading : Reading) (tag : String) (kinds : List String) (j : Json) :
    Option (String × Json) :=
  if reading = .held || j.isReadable then
    match j with
    | obj members =>
      match members.filter (·.1 = tag) with
      | [(_, k)] => (kind? reading kinds k).map (·, obj (members.filter (·.1 ≠ tag)))
      | _ => none
    | arr (k :: items) => (kind? reading kinds k).map (·, arr items)
    | _ => none
  else none

-- What a record of a kind without fields may be left with: members that are passed over, or no
-- items.
def isBare : Json → Bool
  | obj _ => true
  | arr [] => true
  | _ => false

end Json

end PeerExchange
