import PeerExchange.Catalog
import PeerExchange.Config
import PeerExchange.Sql.Printer

namespace PeerExchange.Sql

namespace Statement

-- One statement that stands for two in a row. The text of the result has fewer than `limit` bytes.
-- Without `all`, rows that both give are inserted once.
def merge? (limit : Nat) (all : Bool) : Statement → Statement → Option Statement
  | insert table columns (.query first), insert table' columns' (.query second) =>
    if table = table' && columns = columns' && first.except.isNone && second.except.isNone &&
        (first.selects.length = 1 || first.all = all) &&
        (insert table columns (.query first)).render.utf8ByteSize + 11 +
          second.render.utf8ByteSize < limit then
      some (insert table columns
        (.query { first with selects := first.selects ++ second.selects, all := all }))
    else none
  | _, _ => none

end Statement

structure Batch where
  reversed : List Statement := []

namespace Batch

def push (merging : Option (Nat × Bool)) (b : Batch) (s : Statement) : Batch :=
  match merging, b.reversed with
  | some (limit, all), last :: before =>
    match Statement.merge? limit all last s with
    | some merged => ⟨merged :: before⟩
    | none => ⟨s :: b.reversed⟩
  | _, _ => ⟨s :: b.reversed⟩

def statements (b : Batch) : List Statement := b.reversed.reverse

end Batch

end PeerExchange.Sql

namespace PeerExchange

open Sql (Expr Source Select Query Statement)

-- How the iteration of a loop gets into a statement: as a number, or as the parameter that is bound
-- when the statement runs.
inductive Iteration where
  | literal (k : Int)
  | prepared
deriving DecidableEq

namespace Iteration

def word (n : Int) : Compiled Expr :=
  if -9223372036854775808 ≤ n && n ≤ 9223372036854775807 then .ok (.integer n)
  else .error (.malformed (.overflow n))

def expr (i : Iteration) (offset : Int) : Compiled Expr :=
  match i with
  | literal k => word (k + offset)
  | prepared =>
    if offset = 0 then .ok (.param 1)
    else if 0 < offset then do .ok (.binary .plus (.param 1) (← word offset))
    else do .ok (.binary .minus (.param 1) (← word (-offset)))

end Iteration

namespace Lowering

structure Binding where
  value : Expr
  marker : Option Expr := none

namespace Binding

def markerExpr (b : Binding) : Expr :=
  b.marker.getD (.nullCase b.value (.integer 0) (.integer 1))

def invented (value : Expr) : Binding := ⟨value, some (.integer 2)⟩

def ofConstant (type : Option ColumnType) (value : Literal) : Binding :=
  let expr := match value with
    | .string s => Expr.text s
    | .integer n => .integer n
    | .null => (type.map Expr.typedNull).getD .null
    | .labeledNull label => .text label
  ⟨expr, some (.integer value.marker)⟩

end Binding

abbrev Bindings := NameMap Binding

structure Context where
  catalog : Catalog
  config : Config
  rule : Rule
  iteration : Iteration

def signedWidth (width : Nat) : Int := (width : Int).bmod 18446744073709551616

def skolemPart (width : Nat) (value : Expr) : Expr :=
  .call .coalesce
    [.call .substr [.cast value .text, .integer 1, .integer (signedWidth width)], .text "-"]

def skolemExpr (width : Nat) (function : String) (values : List Expr) : Expr :=
  let parts := values.map (skolemPart width)
  .concat ([.text (function ++ "(")] ++ parts.intersperse (.text ",") ++ [.text ")"])

mutual

def valueWith (ctx : Context) (bindings : Bindings) (invention : Variable → Compiled Binding) :
    Term → Compiled Binding
  | .variable v =>
    match bindings.get? v.name with
    | some binding => .ok binding
    | none => invention v
  | .constant type value => .ok (.ofConstant type value)
  | .skolem function args => do
    let values ← valuesWith ctx bindings invention args
    .ok (.invented (skolemExpr ctx.config.skolemWidth function values))

def valuesWith (ctx : Context) (bindings : Bindings) (invention : Variable → Compiled Binding) :
    List Term → Compiled (List Expr)
  | [] => .ok []
  | arg :: rest => do
    let binding ← valueWith ctx bindings invention arg
    let values ← valuesWith ctx bindings invention rest
    .ok (binding.value :: values)

end

def inventedValue (ctx : Context) (bindings : Bindings) : Nat → Variable → Compiled Binding
  | 0, v => .error (.unsafeVariable ctx.rule.id v.name)
  | depth + 1, v =>
    match v.skolem.bind ctx.rule.invention? with
    | some term => valueWith ctx bindings (inventedValue ctx bindings depth) term
    | none => .error (.unsafeVariable ctx.rule.id v.name)

-- The value of a term. An invention that does not lead back to itself goes through no more
-- inventions than the rule has.
def value (ctx : Context) (bindings : Bindings) (t : Term) : Compiled Binding :=
  valueWith ctx bindings (inventedValue ctx bindings (ctx.rule.inventions.length + 1)) t

def relationOf (ctx : Context) (a : Atom) : Compiled Relation := do
  let r ← ctx.catalog.relation a.relationName
  if a.args.length = r.arity then .ok r else .error (.arity r.name r.arity a.args.length)

def compare (nullSafe : Bool) (left right : Expr) : Expr :=
  .binary (if nullSafe then .is else .eq) left right

structure Place where
  column : Binding
  term : Term

-- The conditions that make the column at a place hold the term: on the markers where either side
-- has one, then on the values. A null only asks for null.
def conditions (ctx : Context) (bindings : Bindings) (nullSafe : Bool) (p : Place) :
    Compiled (List Expr) :=
  if p.term.isNull then .ok [.binary .is p.column.value .null]
  else do
    let bound ← value ctx bindings p.term
    let onMarkers :=
      if p.column.marker.isSome || bound.marker.isSome then
        [compare nullSafe p.column.markerExpr bound.markerExpr]
      else []
    .ok (onMarkers ++ [compare nullSafe p.column.value bound.value])

def allConditions (ctx : Context) (bindings : Bindings) (nullSafe : Bool) :
    List Place → Compiled (List Expr)
  | [] => .ok []
  | p :: rest => do
    let here ← conditions ctx bindings nullSafe p
    let others ← allConditions ctx bindings nullSafe rest
    .ok (here ++ others)

def placesOf (r : Relation) (qualifier : String) (args : List Term) : List Place :=
  (args.zip r.columns).map fun (arg, column) =>
    ⟨⟨.column qualifier column.name, (r.markerOf? column).map (.column qualifier)⟩, arg⟩

def bindPlaces (bindings : Bindings) : List Place → Bindings × List Place
  | [] => (bindings, [])
  | p :: rest =>
    match p.term with
    | .variable v =>
      if v.skolem.isNone && !bindings.contains v.name then
        bindPlaces (bindings.insert v.name p.column) rest
      else
        let (bindings', left) := bindPlaces bindings rest
        (bindings', p :: left)
    | _ =>
      let (bindings', left) := bindPlaces bindings rest
      (bindings', p :: left)

-- An optional atom settles each place as it comes, so that only places before it are bound.
def optionalPlaces (ctx : Context) (bindings : Bindings) :
    List Place → Compiled (Bindings × List Expr)
  | [] => .ok (bindings, [])
  | p :: rest =>
    match bindPlaces bindings [p] with
    | (bindings, []) => optionalPlaces ctx bindings rest
    | (bindings, _) => do
      let here ← conditions ctx bindings true p
      let (bindings, others) ← optionalPlaces ctx bindings rest
      .ok (bindings, here ++ others)

structure Scope where
  bindings : Bindings
  sources : List Source := []
  conditions : List Expr := []
  pending : List Place := []
  aliases : Nat
  outerJoined : Bool := false

def aliasName (n : Nat) : String := "R" ++ toString n

def guardConditions (ctx : Context) (guard : Option Guard) (position : Nat) (r : Relation)
    (kind : TableKind) (qualifier : String) : Compiled (List Expr) :=
  match guard with
  | some g =>
    if g.position = position then
      if r.hasStratum kind then do
        let stamp ← ctx.iteration.expr g.offset
        .ok [.binary .eq (.column qualifier Relation.stratumColumn) stamp]
      else .error (.schema (.noStratum (r.tableName kind)))
    else .ok []
  | none => .ok []

def joinAtom (ctx : Context) (guard : Option Guard) (scope : Scope) (position : Nat) (a : Atom) :
    Compiled Scope :=
  if scope.outerJoined && !a.optional then
    .error (.unsupported ctx.rule.id (.afterOptional a))
  else do
    let r ← relationOf ctx a
    let qualifier := aliasName scope.aliases
    let guarded ← guardConditions ctx guard position r a.kind qualifier
    let table := r.tableName a.kind
    let places := placesOf r qualifier a.args
    if a.optional then
      let (bindings, on) ← optionalPlaces ctx scope.bindings places
      .ok { scope with
        bindings := bindings
        sources := scope.sources ++ [.mk table qualifier true on]
        conditions := scope.conditions ++ guarded
        aliases := scope.aliases + 1
        outerJoined := true }
    else
      let (bindings, left) := bindPlaces scope.bindings places
      .ok { scope with
        bindings := bindings
        sources := scope.sources ++ [.joined table qualifier]
        conditions := scope.conditions ++ guarded
        pending := scope.pending ++ left
        aliases := scope.aliases + 1 }

def joinAtoms (ctx : Context) (guard : Option Guard) (scope : Scope) :
    Nat → List Atom → Compiled Scope
  | _, [] => .ok scope
  | position, a :: rest =>
    if a.isPositive then do
      joinAtoms ctx guard (← joinAtom ctx guard scope position a) (position + 1) rest
    else joinAtoms ctx guard scope (position + 1) rest

def functionOf : Builtin → Sql.Function
  | .least => .min
  | _ => .max

def comparisonOf : Builtin → Sql.BinaryOp
  | .ne => .ne
  | .lt => .lt
  | .le => .le
  | .gt => .gt
  | .ge => .ge
  | .eq | .least | .greatest => .eq

-- The result of a function, about whose marker nothing is known.
def functionValue (ctx : Context) (bindings : Bindings) (op : Builtin) (args : List Term) :
    Compiled Binding := do
  let values ← args.mapM (value ctx bindings)
  .ok ⟨.call (functionOf op) (values.map Binding.value), none⟩

def boundValue (ctx : Context) (bindings : Bindings) (a : Atom) (op : Builtin) (name : String) :
    Compiled Binding :=
  if op.isFunction then functionValue ctx bindings op a.args.tail
  else
    match a.args with
    | left :: right :: _ =>
      if left.asVariable?.any (·.name = name) then value ctx bindings right
      else value ctx bindings left
    | _ => .error (.malformed (.fewArguments a))

def builtinCondition (ctx : Context) (bindings : Bindings) (a : Atom) (op : Builtin) :
    Compiled Expr :=
  match a.args with
  | [] => .error (.malformed (.fewArguments a))
  | first :: rest => do
    let left ← value ctx bindings first
    if op.isFunction then
      let right ← functionValue ctx bindings op rest
      .ok (.binary .eq left.value right.value)
    else
      match rest with
      | [] => .error (.malformed (.fewArguments a))
      | second :: _ =>
        let right ← value ctx bindings second
        .ok (.binary (comparisonOf op) left.value right.value)

def isResolvable (bindings : Bindings) (t : Term) : Bool :=
  t.vars.all fun v => bindings.contains v.name || v.skolem.isSome

-- One pass over the built-ins that are left: one with a free output binds it, one with all its
-- values becomes a condition, and the rest stays.
def builtinPass (ctx : Context) : List Atom → Bindings → List Expr →
    Compiled (List Atom × Bindings × List Expr)
  | [], bindings, conditions => .ok ([], bindings, conditions)
  | a :: rest, bindings, conditions =>
    match a.builtin? with
    | none => builtinPass ctx rest bindings conditions
    | some op =>
      match a.binding? bindings.keys with
      | some name => do
        let binding ← boundValue ctx bindings a op name
        builtinPass ctx rest (bindings.insert name binding) conditions
      | none =>
        if !a.isShaped then .error (.malformed (.fewArguments a))
        else if a.args.all (isResolvable bindings) then do
          let condition ← builtinCondition ctx bindings a op
          builtinPass ctx rest bindings (conditions ++ [condition])
        else do
          let (left, bindings, conditions) ← builtinPass ctx rest bindings conditions
          .ok (a :: left, bindings, conditions)

-- Passes until no built-in is left. A pass that settles none shows a variable that nothing binds.
def builtinPasses (ctx : Context) : Nat → List Atom → Bindings → List Expr →
    Compiled (Bindings × List Expr)
  | _, [], bindings, conditions => .ok (bindings, conditions)
  | 0, atoms, bindings, _ => .error (unresolved atoms bindings)
  | passes + 1, atoms, bindings, conditions => do
    let (left, bindings, conditions) ← builtinPass ctx atoms bindings conditions
    if left.length = atoms.length then .error (unresolved left bindings)
    else builtinPasses ctx passes left bindings conditions
where
  unresolved (atoms : List Atom) (bindings : Bindings) : CompileError :=
    let name := (atoms.flatMap Atom.variableNames).find? (!bindings.contains ·)
    .unsafeVariable ctx.rule.id (name.getD "")

def negatedSelect (ctx : Context) (bindings : Bindings) (aliases : Nat) (a : Atom) :
    Compiled Select := do
  let scope ← joinAtom ctx none { bindings := bindings, aliases := aliases } 0
    { a with negated := false }
  let conditions ← allConditions ctx scope.bindings true scope.pending
  .ok (.mk false [] scope.sources conditions)

def negatedConditions (ctx : Context) (bindings : Bindings) :
    Nat → List Atom → Compiled (List Expr × Nat)
  | aliases, [] => .ok ([], aliases)
  | aliases, a :: rest =>
    match a.builtin? with
    | some _ => .error (.unsupported ctx.rule.id (.negatedBuiltin a))
    | none => do
      let query ← negatedSelect ctx bindings aliases a
      let (others, aliases) ← negatedConditions ctx bindings (aliases + 1) rest
      .ok (.exists true query :: others, aliases)

def lowerBody (ctx : Context) (guard : Option Guard) (body : List Atom) : Compiled Scope := do
  let scope ← joinAtoms ctx guard { bindings := .empty, aliases := 0 } 0 body
  let builtins := body.filter fun a => !a.negated && a.builtin?.isSome
  let (bindings, conditions) ←
    builtinPasses ctx (builtins.length + 1) builtins scope.bindings scope.conditions
  let joins ← allConditions ctx bindings false scope.pending
  let (negations, aliases) ← negatedConditions ctx bindings scope.aliases (body.filter (·.negated))
  .ok { scope with
    bindings := bindings
    conditions := conditions ++ joins ++ negations
    pending := []
    aliases := aliases }

-- What is written to one column: the value and, in a relation with markers, its marker. Blanked
-- columns get null outside the key.
def projectPlace (rule : Rule) (inKey hasMarker : Bool) (column : Column) (b : Binding) :
    List Expr :=
  if (rule.blankAll || rule.blankNonKey) && !inKey then
    .typedNull column.type ::
      (if hasMarker then [if rule.blankNonKey then b.markerExpr else .integer 0] else [])
  else b.value :: (if hasMarker then [b.markerExpr] else [])

def stampExpr (ctx : Context) : Compiled Expr :=
  match ctx.rule.stamp with
  | some (.fixed n) => .ok (.integer n)
  | some (.iteration offset) => ctx.iteration.expr offset
  | none => .ok (.integer 0)

def projectColumns (ctx : Context) (r : Relation) (bindings : Bindings) :
    Nat → List (Term × Column) → Compiled (List Expr)
  | _, [] => .ok []
  | i, (arg, column) :: rest => do
    let b ← value ctx bindings arg
    let others ← projectColumns ctx r bindings (i + 1) rest
    .ok (projectPlace ctx.rule (r.key.contains i) (r.markerOf? column).isSome column b ++ others)

def project (ctx : Context) (r : Relation) (head : Atom) (bindings : Bindings) :
    Compiled (List Expr) := do
  let values ← projectColumns ctx r bindings 0 (head.args.zip r.columns)
  if r.hasStratum head.kind then do .ok (values ++ [← stampExpr ctx])
  else .ok values

def correlate (ctx : Context) (table : String) (r : Relation) (bindings : Bindings) :
    List (Term × Column) → Compiled (List Expr)
  | [] => .ok []
  | (arg, column) :: rest => do
    let b ← value ctx bindings arg
    let onMarker := ((r.markerOf? column).map fun marker =>
      Expr.binary .is (.column table marker) b.markerExpr).toList
    let others ← correlate ctx table r bindings rest
    .ok (onMarker ++ [.binary .is (.column table column.name) b.value] ++ others)

def columnNames (r : Relation) (kind : TableKind) : List String :=
  (r.physicalColumns kind).map Prod.fst

def storedRows (r : Relation) (kind : TableKind) (qualifier : String) : Select :=
  .mk false ((columnNames r kind).map (.column qualifier)) [.joined (r.tableName kind) qualifier] []

-- The body with the negated head, which keeps out tuples that are there already, and whether that
-- atom can be left to EXCEPT: it stands last, and the table has no stratum column.
def insertionBody (setSemantics : Bool) (r : Relation) (head : Atom) (body : List Atom) :
    List Atom × Bool :=
  let own := head.negate
  let body := if setSemantics && !body.any (·.same own) then body ++ [own] else body
  if body.getLast?.any (·.same own) && !r.hasStratum head.kind then (body.dropLast, true)
  else (body, false)

def lowerInsert (ctx : Context) (head : Atom) (r : Relation) (setSemantics : Bool) :
    Compiled Statement := do
  let table := r.tableName head.kind
  let columns := columnNames r head.kind
  if ctx.rule.isFact then
    let values ← project ctx r head .empty
    .ok (.insert table columns (.values values))
  else
    let (body, withExcept) := insertionBody setSemantics r head ctx.rule.body
    let scope ← lowerBody ctx ctx.rule.guard body
    let projection ← project ctx r head scope.bindings
    let select := Select.mk ctx.rule.distinct projection scope.sources scope.conditions
    let except :=
      if withExcept then some (storedRows r head.kind (aliasName scope.aliases)) else none
    .ok (.insert table columns (.query { selects := [select], except := except }))

def keyConditions (ctx : Context) (table : String) (r : Relation) (head : Atom) :
    List Nat → Compiled (List Expr)
  | [] => .ok []
  | position :: rest =>
    match head.args[position]?, r.columns[position]? with
    | some arg, some column => do
      let b ← value ctx .empty arg
      let others ← keyConditions ctx table r head rest
      .ok (.binary .eq (.column table column.name) b.value :: others)
    | _, _ => .error (.malformed (.keyPosition r.name position))

def lowerDelete (ctx : Context) (head : Atom) (r : Relation) : Compiled Statement :=
  let table := r.tableName head.kind
  if ctx.rule.isFact then
    if r.key.isEmpty then .error (.missingKey r.name)
    else do .ok (.delete table (← keyConditions ctx table r head r.key))
  else do
    let scope ← lowerBody ctx ctx.rule.guard ctx.rule.body
    let own ← correlate ctx table r scope.bindings (head.args.zip r.columns)
    .ok (.delete table [.exists false (.mk false [] scope.sources (scope.conditions ++ own))])

def lowerView (ctx : Context) (head : Atom) (r : Relation) : Compiled Statement := do
  let scope ← lowerBody ctx none ctx.rule.body
  let projection ← project ctx r head scope.bindings
  .ok (.createView r.name (columnNames r .base)
    (.ofSelect (.mk ctx.rule.distinct projection scope.sources scope.conditions)))

def lowerRule (ctx : Context) : Compiled (List Statement) :=
  match ctx.rule.head with
  | [head] => do
    let r ← relationOf ctx head
    match ctx.rule.action with
    | .derive => do .ok [← lowerInsert ctx head r ctx.config.setSemantics]
    | .retract => do .ok [← lowerDelete ctx head r]
    | .view => do .ok [← lowerView ctx head r]
    | .replace => do .ok [.clearTable (r.tableName head.kind), ← lowerInsert ctx head r false]
  | heads => .error (.unsupported ctx.rule.id (.heads heads.length))

end Lowering

namespace Rule

def lower (catalog : Catalog) (config : Config) (iteration : Iteration) (r : Rule) :
    Compiled (List Statement) :=
  match Lowering.lowerRule ⟨catalog, config, r, iteration⟩ with
  | .ok statements => .ok statements
  | .error cause => .error (cause.within r)

end Rule

namespace Lowering

structure Group where
  batch : Sql.Batch := {}
  failures : List CompileError := []

def merging (config : Config) : Option (Nat × Bool) :=
  if config.mergeStatements then some (config.mergeLimit, !config.setSemantics) else none

-- Adds the statements of a rule. Each rule is tried, whatever happened to those before it.
def Group.add (catalog : Catalog) (config : Config) (iteration : Iteration) (g : Group)
    (r : Rule) : Group :=
  match r.lower catalog config iteration with
  | .ok statements => { g with batch := statements.foldl (Sql.Batch.push (merging config)) g.batch }
  | .error failure => { g with failures := g.failures ++ [failure] }

def lowerGroup (catalog : Catalog) (config : Config) (iteration : Iteration)
    (rules : List Rule) : Group :=
  rules.foldl (Group.add catalog config iteration) {}

def Group.statements (g : Group) : List Statement := g.batch.statements

def Group.result (g : Group) : Compiled (List Statement) :=
  match g.failures with
  | [] => .ok g.statements
  | first :: more =>
    .error (((first :: more).find? CompileError.isMalformed).getD (.group first more))

end Lowering

namespace Relation

def createTables (r : Relation) : List Statement :=
  TableKind.all.map fun kind => .createTable (r.tableName kind) (r.physicalColumns kind)

end Relation

end PeerExchange
