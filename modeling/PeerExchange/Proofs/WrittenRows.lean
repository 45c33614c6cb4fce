import PeerExchange.Proofs.TableMoves

namespace PeerExchange

open RowSemantics (Env Holds Match Meaning)
open Sql (Database Expr Query Row Select Source Statement Table Typed Value Visible World)

namespace RowSemantics

-- What the head of a rule writes for one of its terms.
def written (rule : Rule) (inKey hasMarker : Bool) (m : Meaning) : Row :=
  if (rule.blankAll || rule.blankNonKey) && !inKey then
    .null :: (if hasMarker then [if rule.blankNonKey then m.mark.value else .integer 0] else [])
  else m.value.value :: (if hasMarker then [m.mark.value] else [])

def writtenColumns (ctx : Lowering.Context) (r : Relation) (env : Env) :
    Nat → List (Term × Column) → Row
  | _, [] => []
  | i, (t, c) :: rest =>
    written ctx.rule (r.key.contains i) (r.markerOf? c).isSome
      ((denote ctx env t).getD ⟨⟨.null, none⟩, none⟩) ++ writtenColumns ctx r env (i + 1) rest

def writtenRow (ctx : Lowering.Context) (parameter : Int) (r : Relation) (head : Atom) (env : Env) :
    Row :=
  writtenColumns ctx r env 0 (head.args.zip r.columns) ++
    (if r.hasStratum head.kind then [stampValue ctx parameter] else [])

end RowSemantics

namespace Lowering

variable {ctx : Context} {db : Database} {w : World} {scope : Sql.Scope} {v : Visible}
  {bindings : Bindings} {r : Relation} {head : Atom} {parameter : Int} {es : List Expr}

section Projection

variable {places : List (Term × Column)} {i : Nat}

theorem eval_projectPlace {inKey hasMarker : Bool} {c : Column} {b : Binding} :
    (projectPlace ctx.rule inKey hasMarker c b).map (fun e => (e.eval w scope).value) =
      RowSemantics.written ctx.rule inKey hasMarker (b.meaning w scope) := by
  have zero : ((Expr.integer 0).eval w scope).value = .integer 0 := by
    rw [eval_integer rfl]
  have null : ((Expr.typedNull c.type).eval w scope).value = .null := by rw [Expr.eval]
  unfold projectPlace RowSemantics.written
  rw [← Binding.eval_markerExpr]
  split
  · cases hasMarker with
    | false => simp [null]
    | true => cases ctx.rule.blankNonKey <;> simp [null, zero]
  · cases hasMarker <;> simp [Binding.meaning]

theorem eval_projectColumns (lowered : projectColumns ctx r bindings i places = .ok es) :
    es.map (fun e => (e.eval w scope).value) =
      RowSemantics.writtenColumns ctx r (environment w scope bindings) i places := by
  induction places generalizing i es with
  | nil =>
    cases lowered
    rfl
  | cons place rest ih =>
    obtain ⟨t, c⟩ := place
    obtain ⟨b, found, lowered⟩ := Compiled.bind_ok.mp lowered
    obtain ⟨others, later, lowered⟩ := Compiled.bind_ok.mp lowered
    cases lowered
    rw [List.map_append, ih later, eval_projectPlace, RowSemantics.writtenColumns,
      denote_of_value found]
    rfl

theorem denotes_projectColumns (lowered : projectColumns ctx r bindings i places = .ok es) :
    ∀ place ∈ places, ∃ m, RowSemantics.denote ctx (environment w scope bindings) place.1 = some m := by
  induction places generalizing i es with
  | nil => exact List.forall_mem_nil _
  | cons place rest ih =>
    obtain ⟨t, c⟩ := place
    obtain ⟨b, found, lowered⟩ := Compiled.bind_ok.mp lowered
    obtain ⟨others, later, lowered⟩ := Compiled.bind_ok.mp lowered
    exact List.forall_mem_cons.mpr ⟨⟨_, denote_of_value found⟩, ih later⟩

theorem eval_project (fits : fitsWord w.parameter = true)
    (lowered : project ctx r head bindings = .ok es) :
    es.map (fun e => (e.eval w scope).value) =
      RowSemantics.writtenRow ctx w.parameter r head (environment w scope bindings) := by
  obtain ⟨values, each, lowered⟩ := Compiled.bind_ok.mp lowered
  unfold RowSemantics.writtenRow
  split at lowered
  · rename_i stratified
    obtain ⟨stamp, given, lowered⟩ := Compiled.bind_ok.mp lowered
    cases lowered
    rw [if_pos stratified, List.map_append, eval_projectColumns each, List.map_singleton,
      (@stampExpr_value _ w scope [] _ fits given).1]
  · rename_i unstratified
    cases lowered
    rw [if_neg unstratified, List.append_nil, eval_projectColumns each]

theorem denotes_project (lowered : project ctx r head bindings = .ok es) :
    ∀ place ∈ head.args.zip r.columns,
      ∃ m, RowSemantics.denote ctx (environment w scope bindings) place.1 = some m := by
  obtain ⟨values, each, -⟩ := Compiled.bind_ok.mp lowered
  exact denotes_projectColumns each

end Projection

section Columns

variable {places : List (Term × Column)} {i : Nat} {env : Env}

def laidOut (r : Relation) (places : List (Term × Column)) : List (String × ColumnType) :=
  places.flatMap fun place =>
    (place.2.name, place.2.type) ::
      ((r.markerOf? place.2).map (·, ColumnType.integer)).toList

theorem laidOut_cons {place : Term × Column} : laidOut r (place :: places) =
    ((place.2.name, place.2.type) ::
      ((r.markerOf? place.2).map (·, ColumnType.integer)).toList) ++ laidOut r places :=
  List.flatMap_cons

theorem length_written {rule : Rule} {inKey hasMarker : Bool} {m : Meaning} :
    (RowSemantics.written rule inKey hasMarker m).length = if hasMarker then 2 else 1 := by
  unfold RowSemantics.written
  cases hasMarker <;> split <;> rfl

theorem length_writtenColumns :
    (RowSemantics.writtenColumns ctx r env i places).length = (laidOut r places).length := by
  induction places generalizing i with
  | nil => rfl
  | cons place rest ih =>
    obtain ⟨t, c⟩ := place
    rw [RowSemantics.writtenColumns, List.length_append, length_written, ih, laidOut_cons,
      List.length_append]
    cases r.markerOf? c <;> rfl

theorem physicalColumns_eq (arity : head.args.length = r.arity) : r.physicalColumns head.kind =
    laidOut r (head.args.zip r.columns) ++
      (if r.hasStratum head.kind then [(Relation.stratumColumn, .integer)] else []) := by
  have columns : (head.args.zip r.columns).map Prod.snd = r.columns :=
    List.map_snd_zip (Nat.le_of_eq arity.symm)
  rw [Relation.physicalColumns, laidOut]
  conv_lhs => rw [← columns, List.flatMap_map]

theorem length_writtenRow (arity : head.args.length = r.arity) :
    (RowSemantics.writtenRow ctx parameter r head env).length = (r.physicalColumns head.kind).length := by
  rw [physicalColumns_eq arity, RowSemantics.writtenRow, List.length_append, List.length_append,
    length_writtenColumns]
  split <;> rfl

end Columns

section Selections

variable {sc : Scope} {joins : List Join} {guard : Option Guard} {body : List Atom}
  {projection : List Expr} {withExcept : Bool}

theorem mem_projected_match (lowered : Lowered ctx db guard body sc joins)
    (fits : fitsWord parameter = true) (columned : r.physicalColumns head.kind ≠ [])
    (arity : head.args.length = r.arity) (projected : project ctx r head sc.bindings = .ok projection)
    {row : Row} : row ∈ (selection ctx sc projection).projected ⟨db, parameter⟩ ↔
      ∃ rows env, Match ctx db parameter guard body rows env ∧
        row = RowSemantics.writtenRow ctx parameter r head env := by
  have nonempty : projection.isEmpty = false := by
    have length := congrArg List.length (@eval_project _ ⟨db, parameter⟩ [] _ _ _ _ fits projected)
    rw [List.length_map, length_writtenRow arity] at length
    rw [List.isEmpty_eq_false_iff, ← List.length_pos_iff, length]
    exact List.length_pos_iff.mpr columned
  have evaluates (f : Sql.Frame) : Select.project ⟨db, parameter⟩ projection f =
      RowSemantics.writtenRow ctx parameter r head (environment ⟨db, parameter⟩ [f] sc.bindings) := by
    rw [Select.project, nonempty, if_neg Bool.false_ne_true, Expr.evalAll_eq_map]
    exact eval_project fits projected
  rw [Select.projected, List.mem_map, selection, Select.frames, lowered.sources]
  constructor
  · rintro ⟨f, listed, rfl⟩
    obtain ⟨inside, holds⟩ := List.mem_filter.mp listed
    obtain ⟨rows, each, rfl⟩ := (mem_frames rfl).mp inside
    exact ⟨rows, _, (lowered.matches_iff ⟨db, parameter⟩ [] rows _ rfl fits each).mpr
      ⟨allHold_iff.mp holds, rfl⟩, evaluates _⟩
  · rintro ⟨rows, env, matched, rfl⟩
    have each := lowered.rows_of_match matched
    obtain ⟨conditions, rfl⟩ :=
      (lowered.matches_iff ⟨db, parameter⟩ [] rows env rfl fits each).mp matched
    exact ⟨frame db joins rows, List.mem_filter.mpr ⟨(mem_frames rfl).mpr ⟨rows, each, rfl⟩,
      allHold_iff.mpr conditions⟩, evaluates _⟩

theorem denotes_match (lowered : Lowered ctx db guard body sc joins)
    (fits : fitsWord parameter = true) (projected : project ctx r head sc.bindings = .ok projection)
    {rows : List Row} {env : Env} (matched : Match ctx db parameter guard body rows env) :
    ∀ place ∈ head.args.zip r.columns, ∃ m, RowSemantics.denote ctx env place.1 = some m := by
  obtain ⟨-, rfl⟩ := (lowered.matches_iff ⟨db, parameter⟩ [] rows env rfl fits
    (lowered.rows_of_match matched)).mp matched
  exact denotes_project projected

end Selections

section Insertions

variable {sc : Scope} {joins : List Join} {body : List Atom} {projection : List Expr}
  {withExcept : Bool} {added : List Row}

-- The rows that an insertion adds: written ones outside those that EXCEPT takes out, and one for
-- each match.
structure Adds (ctx : Context) (db : Database) (parameter : Int) (r : Relation) (head : Atom)
    (body : List Atom) (withExcept : Bool) (added : List Row) : Prop where
  source : ∀ row ∈ added, ∃ rows env, Match ctx db parameter ctx.rule.guard body rows env ∧
    row = RowSemantics.writtenRow ctx parameter r head env
  fresh : withExcept = true → ∀ row ∈ added, ∀ old ∈ db.rows (r.tableName head.kind),
    Row.same row old = false
  reached : ∀ rows env, Match ctx db parameter ctx.rule.guard body rows env →
    (withExcept = true ∧ ∃ old ∈ db.rows (r.tableName head.kind),
      Row.same (RowSemantics.writtenRow ctx parameter r head env) old = true) ∨
    ∃ row ∈ added, Row.same (RowSemantics.writtenRow ctx parameter r head env) row = true

section Queries

variable (lowered : Lowered ctx db ctx.rule.guard body sc joins) (target : r.StoredIn head.kind db)
  (columned : r.physicalColumns head.kind ≠ []) (arity : head.args.length = r.arity)
  (fits : fitsWord parameter = true) (projected : project ctx r head sc.bindings = .ok projection)
include lowered target columned arity fits projected

theorem adds_insertionQuery (withExcept : Bool) : Adds ctx db parameter r head body withExcept
    ((insertionQuery ctx r head sc projection withExcept).rows ⟨db, parameter⟩) := by
  have collects := @collects_insertionQuery ctx db r head parameter sc projection withExcept target columned
  have written (row : Row) : row ∈ (selection ctx sc projection).projected ⟨db, parameter⟩ ↔
      ∃ rows env, Match ctx db parameter ctx.rule.guard body rows env ∧
        row = RowSemantics.writtenRow ctx parameter r head env :=
    mem_projected_match lowered fits columned arity projected
  refine ⟨fun row inside => ?_, ?_, ?_⟩
  · exact (written row).mp (collects.source row inside).1
  · rintro rfl row inside
    exact (collects.source row inside).2
  · intro rows env matched
    rcases collects.reached _ ((written _).mpr ⟨rows, env, matched, rfl⟩) with ⟨old, listed, same⟩ | new
    · cases withExcept with
      | true => exact .inl ⟨rfl, old, listed, same⟩
      | false => cases listed
    · exact .inr new

theorem execute_given (withExcept : Bool) : ∃ t added count,
    db.tables.get? (r.tableName head.kind) = some t ∧
      db.execute parameter (.insert (r.tableName head.kind) (columnNames r head.kind)
        (.query (insertionQuery ctx r head sc projection withExcept))) =
        .ok (db.setRows (r.tableName head.kind)
          (db.rows (r.tableName head.kind) ++ added.map (t.fill t.columnNames)), count) ∧
      Adds ctx db parameter r head body withExcept added := by
  obtain ⟨t, found, executed⟩ := execute_query target columned
    (@check_insertionQuery _ _ _ _ _ _ _ _ _ _ withExcept lowered target fits projected)
  exact ⟨t, _, _, found, executed,
    adds_insertionQuery lowered target columned arity fits projected withExcept⟩

end Queries

-- A lowered rule that adds tuples is one statement, which gives its table what the matches write.
theorem runs_derive {statements : List Statement} (derives : ctx.rule.action = .derive)
    (heads : ctx.rule.head = [head]) (joined : ctx.rule.body ≠ [])
    (inner : ∀ a ∈ head :: ctx.rule.body, a.optional = false)
    (known : ctx.catalog.relations.get? head.relationName = some r)
    (columned : r.physicalColumns head.kind ≠ []) (target : r.StoredIn head.kind db)
    (stores : ∀ a ∈ ctx.rule.body, a.builtin? = none → StoresAtom ctx.catalog db a)
    (fits : fitsWord parameter = true) (lowered : lowerRule ctx = .ok statements) :
    ∃ sc joins statement t added count, statements = [statement] ∧
      lowerBody ctx ctx.rule.guard (insertionBody ctx.config.setSemantics r head ctx.rule.body).1 =
        .ok sc ∧
      Lowered ctx db ctx.rule.guard (insertionBody ctx.config.setSemantics r head ctx.rule.body).1 sc
        joins ∧
      db.tables.get? (r.tableName head.kind) = some t ∧
      db.execute parameter statement = .ok (db.setRows (r.tableName head.kind)
        (db.rows (r.tableName head.kind) ++ added.map (t.fill t.columnNames)), count) ∧
      Adds ctx db parameter r head (insertionBody ctx.config.setSemantics r head ctx.rule.body).1
        (insertionBody ctx.config.setSemantics r head ctx.rule.body).2 added := by
  obtain ⟨sc, projection, arity, bodied, projected, rfl⟩ :=
    lowerRule_derive derives heads joined known lowered
  obtain ⟨innerHead, innerBody⟩ := List.forall_mem_cons.mp inner
  obtain ⟨joins, shaped⟩ := lowerBody_lowered (forall_insertionBody innerBody innerHead)
    (stores_insertionBody known target stores) bodied
  obtain ⟨t, added, count, found, executed, adds⟩ := execute_given shaped target columned arity fits
    projected (insertionBody ctx.config.setSemantics r head ctx.rule.body).2
  exact ⟨sc, joins, _, t, added, count, rfl, bodied, shaped, found, executed, adds⟩

end Insertions

end Lowering

end PeerExchange
