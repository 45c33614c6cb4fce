import PeerExchange.Proofs.Retraction
import PeerExchange.Proofs.RowSatisfaction

namespace PeerExchange

open RowSemantics (Assignment Env Match Reads)
open Sql (BinaryOp Database Expr Query Row Select Source Statement Table Typed Value Visible World)

namespace Sql

section Duplicates

theorem Row.same_iff {a b : Row} :
    Row.same a b = true ↔ List.Forall₂ (fun v w => v.same w = true) a b := by
  rw [Row.same, Bool.and_eq_true, decide_eq_true_eq, List.all_eq_true, List.forall₂_iff_zip]
  exact and_congr_right fun _ => ⟨fun all v w inside => all (v, w) inside, fun all p inside => all inside⟩

theorem Row.same_self (row : Row) : Row.same row row = true :=
  Row.same_iff.mpr (List.forall₂_same.mpr fun v _ => v.same_self)

theorem mem_of_mem_eraseDupsBy : (rows : List Row) → {row : Row} →
    row ∈ rows.eraseDupsBy Row.same → row ∈ rows
  | [], _, inside => nomatch inside
  | first :: rest, row, inside => by
    rw [List.eraseDupsBy_cons] at inside
    rcases List.mem_cons.mp inside with rfl | later
    · exact List.mem_cons_self
    · exact List.mem_cons_of_mem _ (List.mem_of_mem_filter (mem_of_mem_eraseDupsBy _ later))
termination_by rows => rows.length
decreasing_by
  exact Nat.lt_succ_of_le (List.length_filter_le _ _)

theorem exists_mem_eraseDupsBy : (rows : List Row) → {row : Row} → row ∈ rows →
    ∃ kept ∈ rows.eraseDupsBy Row.same, Row.same row kept = true
  | [], _, inside => nomatch inside
  | first :: rest, row, inside => by
    rw [List.eraseDupsBy_cons]
    rcases List.mem_cons.mp inside with rfl | later
    · exact ⟨row, List.mem_cons_self, Row.same_self row⟩
    · by_cases covered : Row.same row first = true
      · exact ⟨first, List.mem_cons_self, covered⟩
      · have remaining : row ∈ rest.filter fun b => Row.same b first = false :=
          List.mem_filter.mpr ⟨later, by simpa using covered⟩
        obtain ⟨kept, left, same⟩ := exists_mem_eraseDupsBy _ remaining
        exact ⟨kept, List.mem_cons_of_mem _ left, same⟩
termination_by rows => rows.length
decreasing_by
  exact Nat.lt_succ_of_le (List.length_filter_le _ _)

-- The rows of a query are projected ones outside the excluded, and stand for all of these.
structure Collects (projected excluded rows : List Row) : Prop where
  source : ∀ row ∈ rows, row ∈ projected ∧ ∀ old ∈ excluded, Row.same row old = false
  reached : ∀ row ∈ projected,
    (∃ old ∈ excluded, Row.same row old = true) ∨ ∃ kept ∈ rows, Row.same row kept = true

theorem query_collects (w : World) (s : Select) (except : Option Select) :
    Collects (s.projected w) ((except.map (Select.projected w)).getD [])
      (Query.rows w { selects := [s], except := except }) := by
  cases except with
  | none =>
    have rows : Query.rows w { selects := [s] } = s.rows w := by
      simp [Query.rows]
    refine ⟨fun row inside => ⟨?_, fun _ old => nomatch old⟩, fun row inside => .inr ?_⟩
    · rw [rows, Select.rows] at inside
      split at inside
      · exact mem_of_mem_eraseDupsBy _ inside
      · exact inside
    · rw [rows, Select.rows]
      split
      · exact exists_mem_eraseDupsBy _ inside
      · exact ⟨row, inside, Row.same_self row⟩
  | some excluded =>
    have rows : Query.rows w { selects := [s], except := some excluded } =
        Query.united ((s.projected w).filter fun row => !(excluded.projected w).any row.same) := by
      simp [Query.rows]
    rw [rows, Query.united]
    simp only [Option.map_some, Option.getD_some]
    constructor
    · intro row inside
      have filtered := List.mem_reverse.mp (mem_of_mem_eraseDupsBy _ (List.mem_reverse.mp inside))
      obtain ⟨projected, fresh⟩ := List.mem_filter.mp filtered
      rw [Bool.not_eq_true', List.any_eq_false] at fresh
      exact ⟨projected, fun old listed => Bool.not_eq_true _ ▸ fresh old listed⟩
    · intro row inside
      by_cases stored : (excluded.projected w).any row.same = true
      · exact .inl (List.any_eq_true.mp stored)
      · refine .inr ?_
        have filtered : row ∈ (s.projected w).filter fun row => !(excluded.projected w).any row.same :=
          List.mem_filter.mpr ⟨inside, by simpa using stored⟩
        obtain ⟨kept, left, same⟩ := exists_mem_eraseDupsBy _ (List.mem_reverse.mpr filtered)
        exact ⟨kept, List.mem_reverse.mpr left, same⟩

end Duplicates

section Cells

variable {columns : List (String × Option ColumnType)} {row : Row}

theorem cell?_of_mem (distinct : Distinct (columns.map Prod.fst))
    {column : String × Option ColumnType} {v : Value} (inside : (column, v) ∈ columns.zip row) :
    Item.cell? column.1 columns row = some ⟨v, column.2⟩ := by
  induction columns generalizing row with
  | nil => cases inside
  | cons first rest ih =>
    rw [List.map_cons, distinct_cons] at distinct
    cases row with
    | nil => cases inside
    | cons u values =>
      rw [Item.cell?]
      rw [List.zip_cons_cons] at inside
      rcases List.mem_cons.mp inside with same | later
      · cases same
        rw [if_pos rfl]
      · have differs : fold first.1 ≠ fold column.1 := by
          intro same
          exact distinct.1 (same ▸ List.mem_map_of_mem (List.mem_map_of_mem (List.of_mem_zip later).1))
        rw [if_neg differs]
        exact ih distinct.2 later

theorem map_columns {f : String × Option ColumnType → Value} (full : row.length = columns.length)
    (each : ∀ column v, (column, v) ∈ columns.zip row → f column = v) : columns.map f = row := by
  induction columns generalizing row with
  | nil => exact (List.length_eq_zero_iff.mp full).symm
  | cons first rest ih =>
    cases row with
    | nil => cases full
    | cons v values =>
      rw [List.map_cons, each first v List.mem_cons_self]
      exact congrArg (v :: ·) (ih (by simpa using full) fun column w inside =>
        each column w (List.mem_cons_of_mem _ inside))

theorem lookup_zip (name : String) : lookup name ((columns.map Prod.fst).zip row) =
    (Item.cell? name columns row).map Typed.value := by
  induction columns generalizing row with
  | nil => rfl
  | cons first rest ih =>
    cases row with
    | nil => rfl
    | cons v values =>
      rw [List.map_cons, List.zip_cons_cons, lookup, Item.cell?]
      split
      · rfl
      · exact ih

theorem Table.fill_of_kept {t : Table} (distinct : Distinct t.columnNames)
    (kept : List.Forall₂ (fun (column : String × Option ColumnType) v => Value.keep column.2 v = v)
      t.columns row) : t.fill t.columnNames row = row := by
  refine map_columns kept.length_eq.symm fun column v inside => ?_
  dsimp only [columnNames]
  rw [lookup_zip, cell?_of_mem distinct inside]
  exact (List.forall₂_iff_zip.mp kept).2 inside

end Cells

end Sql

namespace Relation

variable {r : Relation} {kind : TableKind} {db : Database} {row : Row} {c : Column}

theorem StoredIn.cell_at (stored : r.StoredIn kind db) {i : Nat} (bound : i < (r.physicalColumns kind).length)
    (inRow : i < row.length) :
    RowSemantics.cell db (r.tableName kind) row (r.physicalColumns kind)[i].1 =
      ⟨row[i], some (r.physicalColumns kind)[i].2⟩ := by
  have zipped : ((((r.physicalColumns kind)[i].1, some (r.physicalColumns kind)[i].2), row[i]) :
      (String × Option ColumnType) × Value) ∈ (db.columns (r.tableName kind)).zip row := by
    rw [stored.columns, List.mem_iff_getElem]
    exact ⟨i, by simpa using Nat.lt_min.mpr ⟨bound, inRow⟩, by simp⟩
  rw [RowSemantics.cell, Sql.cell?_of_mem (stored.columnNames ▸ stored.distinct) zipped]
  rfl

theorem StoredIn.cell_fits (stored : r.StoredIn kind db) (inside : row ∈ db.rows (r.tableName kind))
    {column : String × ColumnType} (listed : column ∈ r.physicalColumns kind) :
    ∃ v, RowSemantics.cell db (r.tableName kind) row column.1 = ⟨v, some column.2⟩ ∧
      v.store column.2 = v := by
  obtain ⟨i, bound, rfl⟩ := List.mem_iff_getElem.mp listed
  have kept := stored.kept row inside
  have inRow : i < row.length := kept.length_eq ▸ bound
  exact ⟨row[i], stored.cell_at bound inRow, (List.forall₂_iff_get.mp kept).2 i bound inRow⟩

end Relation

namespace RowSemantics

def stampValue (ctx : Lowering.Context) (parameter : Int) : Value :=
  match ctx.rule.stamp with
  | some (.fixed n) => .ofInteger n
  | some (.iteration offset) => BinaryOp.calculated (ctx.iteration.number parameter + offset)
  | none => .integer 0

-- The head tuple of an assignment, with its stamp where the table has one.
def headRow (ctx : Lowering.Context) (parameter : Int) (r : Relation) (head : Atom)
    (σ : Assignment) : Row :=
  (head.args.map fun t => (σ.value t).value) ++
    (if r.hasStratum head.kind then [stampValue ctx parameter] else [])

theorem Reads.value_of_denote {ctx : Lowering.Context} {env : Env} {σ : Assignment}
    {names : List String} (reads : Reads env σ names) {t : Term} {m : Meaning}
    (plain : t.isPlain = true) (meant : RowSemantics.denote ctx env t = some m) :
    m.value = σ.value t ∧ ∀ v ∈ t.vars, v.name ∈ names := by
  cases t with
  | «variable» v =>
    rw [RowSemantics.denote, denoteWith] at meant
    cases found : env.get? v.name with
    | some own =>
      rw [found] at meant
      cases meant
      refine ⟨(reads.read v.name m found).1, List.forall_mem_singleton.mpr ?_⟩
      rw [← List.contains_iff_mem, reads.named]
      exact NameMap.contains_of_get? found
    | none =>
      rw [found] at meant
      have unmarked : v.skolem = none := Option.isNone_iff_eq_none.mp plain
      simp [inventedMeaning, unmarked] at meant
  | constant type literal =>
    cases meant
    exact ⟨rfl, List.forall_mem_nil _⟩
  | skolem function args => cases plain

end RowSemantics

namespace Lowering

variable {ctx : Context} {db : Database} {w : World} {scope : Sql.Scope} {v : Visible}
  {bindings : Bindings} {r : Relation} {head : Atom} {σ : Assignment} {names : List String}
  {parameter : Int}

section Projection

variable {es : List Expr}

theorem projectColumns_values {places : List (Term × Column)} {i : Nat}
    (unblanked : (ctx.rule.blankAll || ctx.rule.blankNonKey) = false) (bare : r.labeledNulls = false)
    (lowered : projectColumns ctx r bindings i places = .ok es) :
    List.Forall₂ (fun (place : Term × Column) e => ∃ b, value ctx bindings place.1 = .ok b ∧
      e = b.value) places es := by
  induction places generalizing i es with
  | nil =>
    cases lowered
    exact .nil
  | cons place rest ih =>
    obtain ⟨arg, column⟩ := place
    unfold projectColumns at lowered
    obtain ⟨b, found, lowered⟩ := Compiled.bind_ok.mp lowered
    obtain ⟨others, later, lowered⟩ := Compiled.bind_ok.mp lowered
    have unmarked : r.markerOf? column = none := by simp [Relation.markerOf?, bare]
    have one : projectPlace ctx.rule (r.key.contains i) (r.markerOf? column).isSome column b =
        [b.value] := by
      simp [projectPlace, unblanked, unmarked]
    rw [one] at lowered
    cases lowered
    exact .cons ⟨b, found, rfl⟩ (ih later)

theorem stampExpr_value {e : Expr} (fits : fitsWord w.parameter = true)
    (lowered : stampExpr ctx = .ok e) :
    (e.eval w scope).value = RowSemantics.stampValue ctx w.parameter ∧ e.Within v := by
  unfold stampExpr at lowered
  unfold RowSemantics.stampValue
  cases stamp : ctx.rule.stamp with
  | none =>
    rw [stamp] at lowered
    cases lowered
    exact ⟨by rw [Expr.eval]; rfl, trivial⟩
  | some stamped =>
    rw [stamp] at lowered
    cases stamped with
    | fixed n =>
      cases lowered
      exact ⟨by rw [Expr.eval], trivial⟩
    | iteration offset =>
      obtain ⟨evaluates, within⟩ := eval_iteration fits lowered
      exact ⟨by rw [evaluates], within⟩

theorem project_values (unblanked : (ctx.rule.blankAll || ctx.rule.blankNonKey) = false)
    (bare : r.labeledNulls = false) (arity : head.args.length = r.arity)
    (plain : ∀ t ∈ head.args, t.isPlain = true) (fits : fitsWord w.parameter = true)
    (reads : Reads (environment w scope bindings) σ names)
    (lowered : project ctx r head bindings = .ok es) :
    es.map (fun e => (e.eval w scope).value) = RowSemantics.headRow ctx w.parameter r head σ := by
  obtain ⟨values, each, lowered⟩ := Compiled.bind_ok.mp lowered
  have columns := projectColumns_values unblanked bare each
  have args : values.map (fun e => (e.eval w scope).value) =
      head.args.map fun t => (σ.value t).value := by
    have terms : (head.args.zip r.columns).map Prod.fst = head.args :=
      List.map_fst_zip (Nat.le_of_eq arity)
    rw [← terms, List.map_map]
    have plains : ∀ place ∈ head.args.zip r.columns, place.1.isPlain = true :=
      fun place inside => plain place.1 (List.of_mem_zip inside).1
    clear terms each lowered
    generalize head.args.zip r.columns = places at columns plains
    induction columns with
    | nil => rfl
    | @cons place e _ _ here _ ih =>
      obtain ⟨b, found, rfl⟩ := here
      obtain ⟨plainHere, plains⟩ := List.forall_mem_cons.mp plains
      have same := (reads.value_of_denote plainHere (denote_of_value found)).1
      rw [List.map_cons, List.map_cons, ih plains]
      exact congrArg (fun typed : Typed => typed.value :: _) same
  unfold RowSemantics.headRow
  split at lowered
  · rename_i stratified
    obtain ⟨stamp, given, lowered⟩ := Compiled.bind_ok.mp lowered
    cases lowered
    rw [if_pos stratified, List.map_append, args, List.map_singleton,
      (@stampExpr_value _ w scope [] _ fits given).1]
  · rename_i unstratified
    cases lowered
    rw [if_neg unstratified, List.append_nil, args]

theorem projectPlace_within {inKey hasMarker : Bool} {c : Column} {b : Binding} (within : b.Within v) :
    ∀ e ∈ projectPlace ctx.rule inKey hasMarker c b, e.Within v := by
  have marker := Binding.markerExpr_within within
  unfold projectPlace
  split
  · cases hasMarker with
    | false => simp [Expr.Within]
    | true => cases ctx.rule.blankNonKey <;> simp [Expr.Within, marker]
  · cases hasMarker <;> simp [within.1, marker]

theorem projectColumns_within {places : List (Term × Column)} {i : Nat} (all : AllWithin v bindings)
    (lowered : projectColumns ctx r bindings i places = .ok es) : ∀ e ∈ es, e.Within v := by
  induction places generalizing i es with
  | nil =>
    cases lowered
    exact List.forall_mem_nil _
  | cons place rest ih =>
    obtain ⟨t, c⟩ := place
    obtain ⟨b, found, lowered⟩ := Compiled.bind_ok.mp lowered
    obtain ⟨others, later, lowered⟩ := Compiled.bind_ok.mp lowered
    cases lowered
    exact List.forall_mem_append.mpr ⟨projectPlace_within (within_of_value all found), ih later⟩

theorem project_within (all : AllWithin v bindings) (fits : fitsWord parameter = true)
    (lowered : project ctx r head bindings = .ok es) : ∀ e ∈ es, e.Within v := by
  obtain ⟨values, each, lowered⟩ := Compiled.bind_ok.mp lowered
  have within := projectColumns_within all each
  split at lowered
  · obtain ⟨stamp, given, lowered⟩ := Compiled.bind_ok.mp lowered
    cases lowered
    refine List.forall_mem_append.mpr ⟨within, List.forall_mem_singleton.mpr ?_⟩
    exact (@stampExpr_value _ ⟨.empty, parameter⟩ [] _ _ fits given).2
  · cases lowered
    exact within

end Projection

section Statements

variable {s : Statement} {sc : Scope} {projection : List Expr} {guard : Option Guard}
  {body : List Atom} {joins : List Join} {typeOf : String → ColumnType}

def selection (ctx : Context) (sc : Scope) (projection : List Expr) : Select :=
  .mk ctx.rule.distinct projection sc.sources sc.conditions

def insertionQuery (ctx : Context) (r : Relation) (head : Atom) (sc : Scope) (projection : List Expr)
    (withExcept : Bool) : Query where
  selects := [selection ctx sc projection]
  except := if withExcept then some (storedRows r head.kind (aliasName sc.aliases)) else none

theorem lowerInsert_ok {setSemantics : Bool} (joined : ctx.rule.body ≠ [])
    (lowered : lowerInsert ctx head r setSemantics = .ok s) :
    ∃ sc projection,
      lowerBody ctx ctx.rule.guard (insertionBody setSemantics r head ctx.rule.body).1 = .ok sc ∧
      project ctx r head sc.bindings = .ok projection ∧
      s = .insert (r.tableName head.kind) (columnNames r head.kind) (.query
        (insertionQuery ctx r head sc projection (insertionBody setSemantics r head ctx.rule.body).2)) := by
  unfold lowerInsert at lowered
  have derives : ctx.rule.isFact = false := by simpa [Rule.isFact] using joined
  dsimp only at lowered
  rw [derives, if_neg Bool.false_ne_true] at lowered
  obtain ⟨sc, ran, lowered⟩ := Compiled.bind_ok.mp lowered
  obtain ⟨projection, projected, lowered⟩ := Compiled.bind_ok.mp lowered
  cases lowered
  exact ⟨sc, projection, ran, projected, rfl⟩

theorem mem_insertionBody {setSemantics : Bool} {a : Atom}
    (inside : a ∈ (insertionBody setSemantics r head body).1) : a ∈ body ∨ a = head.negate := by
  have wider : a ∈ body ++ [head.negate] := by
    unfold insertionBody at inside
    dsimp only at inside
    split at inside
    · split at inside
      · exact List.dropLast_subset _ inside
      · exact inside
    · split at inside
      · exact List.mem_append_left _ (List.dropLast_subset _ inside)
      · exact List.mem_append_left _ inside
  exact (List.mem_append.mp wider).imp_right List.mem_singleton.mp

theorem forall_insertionBody {setSemantics : Bool} {P : Atom → Prop} (inBody : ∀ a ∈ body, P a)
    (own : P head.negate) : ∀ a ∈ (insertionBody setSemantics r head body).1, P a := by
  intro a inside
  rcases mem_insertionBody inside with member | rfl
  · exact inBody a member
  · exact own

theorem stores_insertionBody {setSemantics : Bool}
    (known : ctx.catalog.relations.get? head.relationName = some r) (target : r.StoredIn head.kind db)
    (stores : ∀ a ∈ body, a.builtin? = none → StoresAtom ctx.catalog db a) :
    ∀ a ∈ (insertionBody setSemantics r head body).1, a.builtin? = none →
      StoresAtom ctx.catalog db a :=
  forall_insertionBody stores fun _ r' present => by
    cases known.symm.trans present
    exact target

theorem lowerRule_derive {statements : List Statement} (derives : ctx.rule.action = .derive)
    (heads : ctx.rule.head = [head]) (joined : ctx.rule.body ≠ [])
    (known : ctx.catalog.relations.get? head.relationName = some r)
    (lowered : lowerRule ctx = .ok statements) : ∃ sc projection, head.args.length = r.arity ∧
      lowerBody ctx ctx.rule.guard
        (insertionBody ctx.config.setSemantics r head ctx.rule.body).1 = .ok sc ∧
      project ctx r head sc.bindings = .ok projection ∧
      statements = [.insert (r.tableName head.kind) (columnNames r head.kind) (.query
        (insertionQuery ctx r head sc projection
          (insertionBody ctx.config.setSemantics r head ctx.rule.body).2))] := by
  unfold lowerRule at lowered
  simp only [heads, derives] at lowered
  obtain ⟨r', resolved, lowered⟩ := Compiled.bind_ok.mp lowered
  obtain ⟨known', arity⟩ := relationOf_ok resolved
  cases known.symm.trans known'
  obtain ⟨statement, inserted, lowered⟩ := Compiled.bind_ok.mp lowered
  cases lowered
  obtain ⟨sc, projection, bodied, projected, rfl⟩ := lowerInsert_ok joined inserted
  exact ⟨sc, projection, arity, bodied, projected, rfl⟩

theorem storedRows_projected {kind : TableKind} {qualifier : String} (stored : r.StoredIn kind db)
    (columned : r.physicalColumns kind ≠ []) :
    (storedRows r kind qualifier).projected ⟨db, parameter⟩ = db.rows (r.tableName kind) := by
  have named : columnNames r kind ≠ [] := by simpa [columnNames] using columned
  have frames : (storedRows r kind qualifier).frames ⟨db, parameter⟩ [] =
      (db.rows (r.tableName kind)).map fun row =>
        [⟨qualifier, db.columns (r.tableName kind), row⟩] := by
    simp [storedRows, Select.frames, Source.joined, Source.frames, List.flatMap_map,
      ← List.map_eq_flatMap]
  rw [Select.projected, frames, List.map_map]
  refine (List.map_congr_left fun row inside => ?_).trans (List.map_id _)
  have projects : (storedRows r kind qualifier).projection.isEmpty = false := by
    simpa [storedRows, Select.projection] using named
  rw [Function.comp_apply, Select.project, projects, if_neg Bool.false_ne_true, Expr.evalAll_eq_map]
  have columns : (storedRows r kind qualifier).projection =
      (db.columns (r.tableName kind)).map fun column => .column qualifier column.1 := by
    rw [storedRows, Select.projection, columnNames, ← stored.columnNames, List.map_map]
    rfl
  rw [columns, List.map_map]
  refine Sql.map_columns (stored.full inside) fun column v listed => ?_
  have cell : Sql.Item.cell? column.1 (db.columns (r.tableName kind)) row = some ⟨v, column.2⟩ :=
    Sql.cell?_of_mem (stored.columnNames ▸ stored.distinct) listed
  simp [Expr.eval, Sql.Scope.get?, Sql.Frame.get?, Sql.Item.get?, cell]

theorem physicalColumns_length {kind : TableKind} (bare : r.labeledNulls = false) :
    (r.physicalColumns kind).length = r.arity + (if r.hasStratum kind then 1 else 0) := by
  have single (c : Column) : ((c.name, c.type) :: ((r.markerOf? c).map (·, ColumnType.integer)).toList) =
      [(c.name, c.type)] := by simp [Relation.markerOf?, bare]
  unfold Relation.physicalColumns
  simp only [single, List.length_append, Relation.arity]
  split <;> simp

theorem headRow_length (bare : r.labeledNulls = false) (arity : head.args.length = r.arity) :
    (RowSemantics.headRow ctx parameter r head σ).length = (r.physicalColumns head.kind).length := by
  rw [physicalColumns_length bare, RowSemantics.headRow, List.length_append, List.length_map, arity]
  split <;> rfl

theorem mem_projected (lowered : Lowered ctx db guard body sc joins)
    (regular : RowSemantics.Regular ctx db typeOf body) (fits : fitsWord parameter = true)
    (columned : r.physicalColumns head.kind ≠ [])
    (unblanked : (ctx.rule.blankAll || ctx.rule.blankNonKey) = false) (bare : r.labeledNulls = false)
    (arity : head.args.length = r.arity) (plain : ∀ t ∈ head.args, t.isPlain = true)
    (projected : project ctx r head sc.bindings = .ok projection) {row : Row} :
    row ∈ (selection ctx sc projection).projected ⟨db, parameter⟩ ↔
      ∃ rows σ, RowSemantics.Satisfies ctx db parameter guard body rows σ ∧
        row = RowSemantics.headRow ctx parameter r head σ := by
  have evaluates {rows : List Row} {env : Env} {σ : Assignment} {names : List String}
      (same : env = environment ⟨db, parameter⟩ [frame db joins rows] sc.bindings)
      (reads : Reads env σ names) :
      Select.project ⟨db, parameter⟩ projection (frame db joins rows) =
        RowSemantics.headRow ctx parameter r head σ := by
    subst same
    have values := project_values unblanked bare arity plain fits reads projected
    have nonempty : projection.isEmpty = false := by
      have length := congrArg List.length values
      rw [List.length_map, headRow_length bare arity] at length
      rw [List.isEmpty_eq_false_iff, ← List.length_pos_iff, length]
      exact List.length_pos_iff.mpr columned
    rw [Select.project, nonempty, if_neg Bool.false_ne_true, Expr.evalAll_eq_map]
    exact values
  rw [Select.projected, List.mem_map, selection, Select.frames, lowered.sources]
  constructor
  · rintro ⟨f, listed, rfl⟩
    obtain ⟨inside, holds⟩ := List.mem_filter.mp listed
    obtain ⟨rows, each, rfl⟩ := (mem_frames rfl).mp inside
    have matched := (lowered.matches_iff ⟨db, parameter⟩ [] rows _ rfl fits each).mpr
      ⟨allHold_iff.mp holds, rfl⟩
    obtain ⟨σ, satisfies, reads⟩ := RowSemantics.satisfies_of_match regular matched
    exact ⟨rows, σ, satisfies, evaluates rfl reads⟩
  · rintro ⟨rows, σ, satisfies, rfl⟩
    obtain ⟨env, matched, reads⟩ := RowSemantics.match_of_satisfies regular satisfies
    have each := lowered.rows_of_match matched
    obtain ⟨conditions, same⟩ := (lowered.matches_iff ⟨db, parameter⟩ [] rows env rfl fits each).mp matched
    refine ⟨frame db joins rows, List.mem_filter.mpr ⟨(mem_frames rfl).mpr ⟨rows, each, rfl⟩, ?_⟩,
      evaluates same reads⟩
    exact allHold_iff.mpr conditions

theorem resolves_storedRows {kind : TableKind} {qualifier : String} (stored : r.StoredIn kind db) :
    (storedRows r kind qualifier).unresolved db [] = [] ∧
      ∀ table ∈ (storedRows r kind qualifier).tables, db.tables.contains table = true := by
  constructor
  · have seen (name : String) (listed : name ∈ columnNames r kind) :
        Visible.lists [(qualifier, (db.columns (r.tableName kind)).map Prod.fst)] qualifier name = true :=
      Visible.lists_iff.mpr ⟨_, List.mem_singleton.mpr rfl, stored.columnNames ▸ listed⟩
    simp only [storedRows, Select.unresolved, Source.visible, Source.joined, Source.unresolved,
      Expr.allUnresolved, List.append_nil, Expr.allUnresolved_eq_flatMap, List.flatMap_eq_nil_iff,
      List.forall_mem_map, List.map_cons, List.map_nil]
    intro name listed
    rw [Expr.unresolved, if_pos]
    exact List.any_eq_true.mpr ⟨_, List.mem_singleton.mpr rfl, Visible.has_of_lists (seen name listed)⟩
  · simp [storedRows, Select.tables, Source.joined, Source.tables, Source.conditionTables, Expr.allTables,
      Expr.tables, stored.present]

theorem check_insertionQuery {withExcept : Bool} (lowered : Lowered ctx db guard body sc joins)
    (stored : r.StoredIn head.kind db) (fits : fitsWord parameter = true) (projected : project ctx r head sc.bindings = .ok projection) :
    (insertionQuery ctx r head sc projection withExcept).check db = .ok () := by
  have own := @resolves_select _ db _ _ projection sc.conditions [] ctx.rule.distinct lowered.joinable
    (fun e inside => resolves_of_within Visible.shown_cons
      (project_within lowered.bindings fits projected e inside))
    (lowered.resolves [])
  rw [← lowered.sources] at own
  have other := @resolves_storedRows db r head.kind (aliasName sc.aliases) stored
  have each : ∀ q ∈ (insertionQuery ctx r head sc projection withExcept).checked,
      q.unresolved db [] = [] ∧ ∀ table ∈ q.tables, db.tables.contains table = true := by
    unfold insertionQuery Query.checked
    cases withExcept with
    | true => exact List.forall_mem_cons.mpr ⟨other, List.forall_mem_singleton.mpr own⟩
    | false => exact List.forall_mem_singleton.mpr own
  refine Sql.checkNames_ok (fun table inside => ?_) ?_
  · obtain ⟨q, listed, read⟩ := List.mem_flatMap.mp inside
    exact (each q listed).2 table read
  · exact List.flatMap_eq_nil_iff.mpr fun q listed => (each q listed).1

theorem execute_query {kind : TableKind} {q : Query} (stored : r.StoredIn kind db)
    (columned : r.physicalColumns kind ≠ []) (checked : q.check db = .ok ()) :
    ∃ t, db.tables.get? (r.tableName kind) = some t ∧
      db.execute parameter (.insert (r.tableName kind) (columnNames r kind) (.query q)) =
        .ok (db.setRows (r.tableName kind) (db.rows (r.tableName kind) ++
          (q.rows ⟨db, parameter⟩).map (t.fill t.columnNames)), (q.rows ⟨db, parameter⟩).length) := by
  obtain ⟨t, found, columns, rows⟩ := Database.found_of_contains stored.present
  have names : columnNames r kind = t.columnNames := by
    rw [columnNames, ← stored.columnNames, columns]
    rfl
  have named : (columnNames r kind).isEmpty = false := by
    simpa [columnNames] using columned
  have target : db.target (r.tableName kind) = .ok t := by rw [Database.target, found]
  have present : t.checkColumns (r.tableName kind) t.columnNames = .ok () := by
    have none : t.columnNames.find? (!Sql.listed t.columnNames ·) = none := by
      rw [List.find?_eq_none]
      intro name inside
      simp [Sql.listed_of_mem inside]
    rw [Table.checkColumns, none]
  refine ⟨t, found, ?_⟩
  rw [Database.execute, Database.insert, named, if_neg Bool.false_ne_true, target]
  simp only [bind, Except.bind, present, Sql.InsertSource.check, checked, Database.insertRows,
    Sql.InsertSource.rows, rows, names]

-- The rows of an insertion stand for the head tuples, outside the stored ones where there is an EXCEPT.
theorem collects_insertionQuery {withExcept : Bool} (stored : r.StoredIn head.kind db)
    (columned : r.physicalColumns head.kind ≠ []) :
    Sql.Collects ((selection ctx sc projection).projected ⟨db, parameter⟩)
      (if withExcept then db.rows (r.tableName head.kind) else [])
      ((insertionQuery ctx r head sc projection withExcept).rows ⟨db, parameter⟩) := by
  have collects := Sql.query_collects ⟨db, parameter⟩ (selection ctx sc projection)
    (if withExcept then some (storedRows r head.kind (aliasName sc.aliases)) else none)
  cases withExcept with
  | true =>
    rw [if_pos rfl, Option.map_some, Option.getD_some, storedRows_projected stored columned] at collects
    exact collects
  | false => exact collects

theorem execute_insertion {withExcept : Bool} (lowered : Lowered ctx db guard body sc joins)
    (stored : r.StoredIn head.kind db) (columned : r.physicalColumns head.kind ≠ [])
    (fits : fitsWord parameter = true) (projected : project ctx r head sc.bindings = .ok projection) :
    ∃ t added count, db.tables.get? (r.tableName head.kind) = some t ∧
      db.execute parameter (.insert (r.tableName head.kind) (columnNames r head.kind)
        (.query (insertionQuery ctx r head sc projection withExcept))) =
        .ok (db.setRows (r.tableName head.kind)
          (db.rows (r.tableName head.kind) ++ added.map (t.fill t.columnNames)), count) ∧
      Sql.Collects ((selection ctx sc projection).projected ⟨db, parameter⟩)
        (if withExcept then db.rows (r.tableName head.kind) else []) added := by
  obtain ⟨t, found, executed⟩ := execute_query stored columned
    (@check_insertionQuery _ _ _ _ _ _ _ _ _ _ withExcept lowered stored fits projected)
  exact ⟨t, _, _, found, executed, collects_insertionQuery stored columned⟩

end Statements

end Lowering

end PeerExchange
