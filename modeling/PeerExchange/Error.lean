import PeerExchange.Rule
import PeerExchange.Relation

namespace PeerExchange

inductive SchemaFault where
  | relationTwice (relation : String)
  | mappingTwice (mapping : String)
  | reservedSuffix (relation suffix : String)
  | reservedColumn (relation column : String)
  | repeatedColumn (relation : String)
  | provenanceColumnTwice (rule column : String)
  | uncovered (provenance relation column : String)
  | noStratum (table : String)
  | notCompiled
  | noEdits (relation : String)
deriving DecidableEq

def SchemaFault.message : SchemaFault → String
  | relationTwice relation => "relation " ++ relation ++ " is defined twice"
  | mappingTwice mapping => "mapping " ++ mapping ++ " is defined twice"
  | reservedSuffix relation suffix =>
    "relation name " ++ relation ++ " ends in reserved suffix " ++ suffix
  | reservedColumn relation column =>
    "column " ++ relation ++ "." ++ column ++ " uses a reserved name"
  | repeatedColumn relation => "relation " ++ relation ++ " repeats a column name"
  | provenanceColumnTwice rule column =>
    "rule " ++ rule ++ " writes provenance column " ++ column ++ " twice"
  | uncovered provenance relation column =>
    "provenance relation " ++ provenance ++ " does not cover " ++ relation ++ "." ++ column
  | noStratum table => table ++ " has no " ++ Relation.stratumColumn ++ " column"
  | notCompiled => "no translation state"
  | noEdits relation => relation ++ " does not accept local edits"

inductive KeyFault where
  | nullableColumn (column : String)
  | outOfRange (position : Nat)
  | mayBeNull (relation column : String)
deriving DecidableEq

def KeyFault.message : KeyFault → String
  | nullableColumn column => "key column " ++ column ++ " is nullable"
  | outOfRange position => "key position " ++ toString position ++ " is out of range"
  | mayBeNull relation column => "key column " ++ relation ++ "." ++ column ++ " may be null"

inductive TypeFault where
  | constantAt (value : Literal) (place : String) (type : ColumnType)
  | variableAt (name firstPlace : String) (firstType : ColumnType) (place : String)
      (type : ColumnType)
  | columnTypes (column : String) (first second : ColumnType)
deriving DecidableEq

def TypeFault.message : TypeFault → String
  | constantAt value place type =>
    "constant " ++ value.render ++ " used at " ++ place ++ " of type " ++ type.render
  | variableAt name firstPlace firstType place type =>
    "variable " ++ name ++ " used at " ++ firstPlace ++ " (" ++ firstType.render ++ ") and " ++
      place ++ " (" ++ type.render ++ ")"
  | columnTypes column first second =>
    "provenance column " ++ column ++ " is " ++ first.render ++ " and " ++ second.render

inductive ConfigFault where
  | bidirectional (mode : String)
  | mergeLimit
  | maxIterations
  | skolemWidth
deriving DecidableEq

def ConfigFault.message : ConfigFault → String
  | bidirectional mode =>
    "bidirectional mappings cannot be combined with " ++ mode ++ " provenance"
  | mergeLimit => "statement merging needs a positive merge limit"
  | maxIterations => "max_iterations must be positive"
  | skolemWidth => "skolem_width must be positive"

inductive UnsupportedFault where
  | noHead
  | negation
  | optionalAtoms
  | afterOptional (atom : Atom)
  | negatedBuiltin (atom : Atom)
  | heads (count : Nat)
deriving DecidableEq

def UnsupportedFault.message : UnsupportedFault → String
  | noHead => "rule has no head"
  | negation => "negation in mapping bodies"
  | optionalAtoms => "optional atoms in mappings"
  | afterOptional atom => atom.render ++ " follows an optional atom"
  | negatedBuiltin atom => "negated built-in " ++ atom.render
  | heads count => toString count ++ " heads cannot be lowered to one statement"

-- Input that later steps take for granted. Text never gives rise to one of these, but rules and
-- relations that are decoded from a document can.
inductive ShapeFault where
  | noHead (rule : String)
  -- A built-in without the arguments that its meaning reads, or an atom with fewer than the heads
  -- that define its relation.
  | fewArguments (atom : Atom)
  | keyPosition (relation : String) (position : Nat)
  | overflow (value : Int)
deriving DecidableEq

def ShapeFault.message : ShapeFault → String
  | noHead rule => "rule " ++ rule ++ " has no head"
  | fewArguments atom => atom.render ++ " has too few arguments"
  | keyPosition relation position =>
    "relation " ++ relation ++ " has no column at key position " ++ toString position
  | overflow value => toString value ++ " is out of range"

inductive CompileError where
  | unsafeVariable (rule name : String)
  | types (mapping : String) (fault : TypeFault)
  | keys (mapping : String) (fault : KeyFault)
  | schema (fault : SchemaFault)
  | config (fault : ConfigFault)
  | malformedType (text : String)
  | integerOutOfRange (value : Int)
  | missingKey (relation : String)
  | unknownRelation (name : String)
  | arity (relation : String) (expected found : Nat)
  | unsupported (mapping : String) (fault : UnsupportedFault)
  -- Virtual relations, in order, each defined through the next and the last through the first.
  | recursive (cycle : List String)
  | malformed (fault : ShapeFault)
  | inRule (rule : Rule) (cause : CompileError)
  | group (first : CompileError) (more : List CompileError)

namespace CompileError

def message : CompileError → String
  | unsafeVariable rule name =>
    "unsafe rule " ++ rule ++ ": variable " ++ name ++ " is not bound by any positive body atom"
  | types mapping fault => "incompatible types in " ++ mapping ++ ": " ++ fault.message
  | keys mapping fault => "incompatible keys in " ++ mapping ++ ": " ++ fault.message
  | schema fault => "incompatible schema: " ++ fault.message
  | config fault => "unsupported configuration: " ++ fault.message
  | malformedType text => "malformed type descriptor " ++ Text.quoted text
  | integerOutOfRange value => "integer " ++ toString value ++ " does not fit in 64 bits"
  | missingKey relation => "relation " ++ relation ++ " has no primary key"
  | unknownRelation name => "unknown relation " ++ name
  | arity relation expected found =>
    relation ++ " expects " ++ toString expected ++ " arguments, found " ++ toString found
  | unsupported mapping fault => "unsupported mapping " ++ mapping ++ ": " ++ fault.message
  | recursive cycle =>
    "cannot compose away recursive virtual relations: " ++ " -> ".intercalate cycle
  | malformed fault => "malformed input: " ++ fault.message
  | inRule rule cause => "rule " ++ rule.id ++ " (" ++ rule.render ++ "): " ++ cause.message
  | group first more =>
    toString (more.length + 1) ++ " rules failed to compile; first: " ++ first.message

-- Names the rule of a failure, unless the failure has one already or is about the input as a whole.
def within (rule : Rule) : CompileError → CompileError
  | inRule inner cause => inRule inner cause
  | malformed fault => malformed fault
  | cause => inRule rule cause

def isMalformed : CompileError → Bool
  | malformed _ => true
  | _ => false

def chain : CompileError → List CompileError
  | inRule rule cause => inRule rule cause :: chain cause
  | other => [other]

end CompileError

abbrev Compiled := Except CompileError

inductive RunError where
  | connectivity (detail : String)
  | notFound (detail : String)
  | database (code : Int) (detail : String)
  | diverged (stratum iterations : Nat)
  | uncountable (changes : Nat)
  | compile (cause : CompileError)

namespace RunError

def message : RunError → String
  | connectivity detail => "connection failed: " ++ detail
  | notFound detail => "not found: " ++ detail
  | database _ detail => "database error: " ++ detail
  | diverged stratum iterations =>
    "stratum " ++ toString stratum ++ " did not converge after " ++ toString iterations ++
      " iterations"
  | uncountable changes => toString changes ++ " changes are too many to count"
  | compile cause => cause.message

def codeMeaning : Int → String
  | 8 => "Attempt to write a readonly database"
  | 11 => "The database disk image is malformed"
  | _ => "SQL error or missing database"

-- The texts of the error and of its causes, outermost first. Below what a database says stands the
-- meaning of its code.
def chain : RunError → List String
  | compile cause => cause.chain.map CompileError.message
  | database code detail =>
    ["database error: " ++ detail, detail,
      "Error code " ++ toString code ++ ": " ++ codeMeaning code]
  | other => [other.message]

end RunError

inductive DatabaseFailure where
  | failed (code : Int) (text : String)
  | noRows
  | notReadOnly

namespace RunError

-- The low byte of a code names the kind of failure. Codes 3, 14 and 26 are about reaching the
-- database at all; after that the text tells what is missing.
def ofFailure : DatabaseFailure → RunError
  | .failed code text =>
    if [3, 14, 26].contains (code % 256) then .connectivity text
    else if ["no such table", "no such column"].any (·.isPrefixOf text) then .notFound text
    else .database code text
  | .noRows => .notFound "Query returned no rows"
  | .notReadOnly => .database 1 "Query is not read-only"

end RunError

end PeerExchange
