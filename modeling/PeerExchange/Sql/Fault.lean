namespace PeerExchange.Sql

inductive Fault where
  | unexpected (token : String)
  | unrecognized (text : String)
  | incomplete
  | nesting
  | expressionDepth (limit : Nat)
  | sourceCount (limit : Nat)
  | joinCount (limit : Nat)
  | selectCount
  | columnCount (table : String)
  | reservedName (name : String)
  | noSchema (name : String)
  | tableOption (name : String)
  | unreadable (name : String)
  | notAFunction (name : String)
  | notModifiable (table : String)
  | noTable (name : String)
  | noColumn (name : String)
  | ambiguous (name : String)
  | noColumnIn (table column : String)
  | valueCount (values columns : Nat)
  | widths (operator : String)
  | notATable (view : String)
  | columnTwice (name : String)
  | afterColumn (column : String)
  | joinRequired
  | openTransaction
  | noTransaction
  | readOnly
  | notAnArchive
deriving DecidableEq

def Fault.message : Fault → String
  | unexpected token => "near \"" ++ token ++ "\": syntax error"
  | unrecognized text => "unrecognized token: \"" ++ text ++ "\""
  | incomplete => "incomplete input"
  | nesting => "parser stack overflow"
  | expressionDepth limit =>
    "Expression tree is too large (maximum depth " ++ toString limit ++ ")"
  | sourceCount limit => "too many FROM clause terms, max: " ++ toString limit
  | joinCount limit => "at most " ++ toString limit ++ " tables in a join"
  | selectCount => "too many terms in compound SELECT"
  | columnCount table => "too many columns on " ++ table
  | reservedName name => "object name reserved for internal use: " ++ name
  | noSchema name => "unknown database " ++ name
  | tableOption name => "unknown table option: " ++ name
  | unreadable name => "malformed database schema (" ++ name ++ ") - near \"(\": syntax error"
  | notAFunction name => "'" ++ name ++ "' is not a function"
  | notModifiable table => "table " ++ table ++ " may not be modified"
  | noTable name => "no such table: " ++ name
  | noColumn name => "no such column: " ++ name
  | ambiguous name => "ambiguous column name: " ++ name
  | noColumnIn table column => "table " ++ table ++ " has no column named " ++ column
  | valueCount values columns =>
    toString values ++ " values for " ++ toString columns ++ " columns"
  | widths operator => "SELECTs to the left and right of " ++ operator ++
      " do not have the same number of result columns"
  | notATable view => "cannot modify " ++ view ++ " because it is a view"
  | columnTwice name => "duplicate column name: " ++ name
  | afterColumn column => "syntax error after column name \"" ++ column ++ "\""
  | joinRequired => "a JOIN clause is required before ON"
  | openTransaction => "cannot start a transaction within a transaction"
  | noTransaction => "cannot commit - no transaction is active"
  | readOnly => "attempt to write a readonly database"
  | notAnArchive => "file is not a database"

def Fault.code : Fault → Int
  | readOnly => 8
  | unreadable _ => 11
  | notAnArchive => 26
  | _ => 1

end PeerExchange.Sql
