import PeerExchange.Proofs.LoweredBodies
import PeerExchange.Proofs.RowBindings

namespace PeerExchange

open RowSemantics (Correlated Match Meaning Env)
open Sql (Database Expr Frame Item Row Select Source Statement Table Typed Value Visible World)

namespace Sql.Database

variable {db : Database} {table : String} {t : Table} {rows : List Row}

theorem found_of_contains (present : db.tables.contains table = true) :
    ∃ t, db.tables.get? table = some t ∧ db.columns table = t.columns ∧ db.rows table = t.rows := by
  obtain ⟨t, found⟩ := Sql.Names.get?_of_contains present
  exact ⟨t, found, by simp [columns, found], by simp [Database.rows, found]⟩

theorem rows_congr {other : String} (same : fold table = fold other) : db.rows table = db.rows other := by
  rw [Database.rows, Database.rows, Names.get?_congr same]

theorem columns_congr {other : String} (same : fold table = fold other) :
    db.columns table = db.columns other := by
  rw [columns, columns, Names.get?_congr same]

theorem tables_setRows (found : db.tables.get? table = some t) (other : String) :
    (db.setRows table rows).tables.get? other =
      if fold table = fold other then some { t with rows := rows } else db.tables.get? other := by
  rw [setRows, Names.get?_modify, found]
  rfl

theorem rows_setRows (found : db.tables.get? table = some t) :
    (db.setRows table rows).rows table = rows := by
  simp [Database.rows, tables_setRows found]

end Sql.Database

namespace Lowering

variable {ctx : Context} {db : Database} {w : World} {scope outer : Sql.Scope} {bindings : Bindings}

section Correlation

variable {r : Relation} {table : String} {es : List Expr} {a : Atom} {row : Row}

theorem correlate_iff {places : List (Term × Column)}
    (marked : ∀ place ∈ places, ∀ marker, r.markerOf? place.2 = some marker →
      marker ∈ (db.columns (r.tableName a.kind)).map Prod.fst)
    (named : ∀ place ∈ places, place.2.name ∈ (db.columns (r.tableName a.kind)).map Prod.fst)
    (shows : Shows db scope table (r.tableName a.kind) row)
    (lowered : correlate ctx table r bindings places = .ok es) :
    AllTrue w scope es ↔ Correlated ctx (environment w scope bindings)
      (places.map fun (arg, column) =>
        let read := RowSemantics.cell db (r.tableName a.kind) row
        (⟨read column.name, (r.markerOf? column).map read⟩, arg)) := by
  induction places generalizing es with
  | nil =>
    cases lowered
    simp [AllTrue, Correlated]
  | cons place rest ih =>
    obtain ⟨arg, column⟩ := place
    obtain ⟨markedHere, marked⟩ := List.forall_mem_cons.mp marked
    obtain ⟨namedHere, named⟩ := List.forall_mem_cons.mp named
    unfold correlate at lowered
    obtain ⟨b, found, lowered⟩ := Compiled.bind_ok.mp lowered
    obtain ⟨others, later, lowered⟩ := Compiled.bind_ok.mp lowered
    cases lowered
    have compares : IsComparison .is := ⟨by decide, by decide⟩
    have onValue : ((Expr.binary .is (.column table column.name) b.value).eval w scope).value.isTrue =
        true ↔ RowSemantics.Holds .is (RowSemantics.cell db (r.tableName a.kind) row column.name)
          (b.meaning w scope).value := by
      rw [holds_condition compares, eval_shown shows namedHere]
      rfl
    rw [allTrue_append, allTrue_append, ih marked named later, List.map_cons]
    unfold Correlated
    rw [List.forall_mem_cons]
    refine and_congr_left fun _ => ?_
    simp only [denote_of_value found, Option.some.injEq, exists_eq_left', AllTrue,
      List.mem_singleton, forall_eq, onValue]
    refine and_congr_left fun _ => ?_
    cases marker : r.markerOf? column with
    | none => simp
    | some name =>
      have onMarker : ((Expr.binary .is (.column table name) b.markerExpr).eval w scope).value.isTrue =
          true ↔ RowSemantics.Holds .is (RowSemantics.cell db (r.tableName a.kind) row name)
            (b.meaning w scope).mark := by
        rw [holds_condition compares, eval_shown shows (markedHere name marker),
          Binding.eval_markerExpr]
      simp [onMarker, Meaning.mark]

theorem correlated_iff (known : ctx.catalog.relations.get? a.relationName = some r)
    (stored : r.StoredIn a.kind db) (shows : Shows db scope table (r.tableName a.kind) row)
    (lowered : correlate ctx table r bindings (a.args.zip r.columns) = .ok es) :
    AllTrue w scope es ↔
      Correlated ctx (environment w scope bindings) (RowSemantics.places ctx.catalog db a row) := by
  rw [correlate_iff (fun place inside marker marked => ?_) (fun place inside => ?_) shows lowered,
    RowSemantics.places, known]
  · exact stored.marker_present (List.of_mem_zip inside).2 marked
  · exact stored.column_present (List.of_mem_zip inside).2

theorem correlate_within {v : Visible} {places : List (Term × Column)} (all : AllWithin v bindings)
    (marked : ∀ place ∈ places, ∀ marker, r.markerOf? place.2 = some marker →
      v.lists table marker = true)
    (named : ∀ place ∈ places, v.lists table place.2.name = true)
    (lowered : correlate ctx table r bindings places = .ok es) : ∀ e ∈ es, e.Within v := by
  induction places generalizing es with
  | nil =>
    cases lowered
    exact List.forall_mem_nil _
  | cons place rest ih =>
    obtain ⟨arg, column⟩ := place
    obtain ⟨markedHere, marked⟩ := List.forall_mem_cons.mp marked
    obtain ⟨namedHere, named⟩ := List.forall_mem_cons.mp named
    unfold correlate at lowered
    obtain ⟨b, found, lowered⟩ := Compiled.bind_ok.mp lowered
    obtain ⟨others, later, lowered⟩ := Compiled.bind_ok.mp lowered
    cases lowered
    have within := within_of_value all found
    rw [List.forall_mem_append, List.forall_mem_append]
    refine ⟨⟨fun e inside => ?_, fun e inside => ?_⟩, ih marked named later⟩
    · obtain ⟨marker, own, rfl⟩ := Option.map_eq_some_iff.mp (Option.mem_toList.mp inside)
      exact ⟨markedHere marker own, Binding.markerExpr_within within⟩
    · rw [List.mem_singleton.mp inside]
      exact ⟨namedHere, within.1⟩

end Correlation

section Statements

variable {head : Atom} {r : Relation} {s : Statement} {t : Table} {body : List Atom}
  {guard : Option Guard} {sc : Scope} {own : List Expr} {joins : List Join} {parameter : Int}
  {row : Row}

def deletion (table : String) (sc : Scope) (own : List Expr) : Statement :=
  .delete table [.exists false (.mk false [] sc.sources (sc.conditions ++ own))]

theorem lowerDelete_ok (joined : ctx.rule.body ≠ []) (lowered : lowerDelete ctx head r = .ok s) :
    ∃ sc own, lowerBody ctx ctx.rule.guard ctx.rule.body = .ok sc ∧
      correlate ctx (r.tableName head.kind) r sc.bindings (head.args.zip r.columns) = .ok own ∧
      s = deletion (r.tableName head.kind) sc own := by
  unfold lowerDelete at lowered
  have derives : ctx.rule.isFact = false := by simpa [Rule.isFact] using joined
  dsimp only at lowered
  rw [derives, if_neg Bool.false_ne_true] at lowered
  obtain ⟨sc, body, lowered⟩ := Compiled.bind_ok.mp lowered
  obtain ⟨own, correlated, lowered⟩ := Compiled.bind_ok.mp lowered
  cases lowered
  exact ⟨sc, own, body, correlated, rfl⟩

theorem exists_iff (lowered : Lowered ctx db guard body sc joins)
    (fits : fitsWord parameter = true) :
    Expr.allHold ⟨db, parameter⟩ outer
        [.exists false (.mk false [] sc.sources (sc.conditions ++ own))] = true ↔
      ∃ rows env, Match ctx db parameter guard body rows env ∧
        env = environment ⟨db, parameter⟩ (frame db joins rows :: outer) sc.bindings ∧
        AllTrue ⟨db, parameter⟩ (frame db joins rows :: outer) own := by
  rw [allHold_iff, AllTrue, List.forall_mem_singleton, isTrue_exists,
    Select.frames, List.isEmpty_eq_false_iff_exists_mem, lowered.sources]
  constructor
  · rintro ⟨f, listed⟩
    obtain ⟨inside, holds⟩ := List.mem_filter.mp listed
    obtain ⟨rows, each, rfl⟩ := (mem_frames rfl).mp inside
    rw [allHold_iff, allTrue_append] at holds
    exact ⟨rows, _, (lowered.matches_iff _ _ rows _ rfl fits each).mpr ⟨holds.1, rfl⟩, rfl, holds.2⟩
  · rintro ⟨rows, env, holds, same, correlated⟩
    have each := lowered.rows_of_match holds
    have conditions := (lowered.matches_iff ⟨db, parameter⟩ outer rows env rfl fits each).mp holds
    refine ⟨frame db joins rows, List.mem_filter.mpr ⟨(mem_frames rfl).mpr ⟨rows, each, rfl⟩, ?_⟩⟩
    rw [allHold_iff, allTrue_append]
    exact ⟨conditions.1, correlated⟩

theorem names_of_deletion (lowered : Lowered ctx db guard body sc joins)
    (stored : r.StoredIn head.kind db) (found : db.tables.get? (r.tableName head.kind) = some t)
    (correlated : correlate ctx (r.tableName head.kind) r sc.bindings (head.args.zip r.columns) =
      .ok own) :
    Sql.checkNames db
      (Expr.allTables [.exists false (.mk false [] sc.sources (sc.conditions ++ own))])
      (Expr.allUnresolved db [[(r.tableName head.kind, t.columnNames)]]
        [.exists false (.mk false [] sc.sources (sc.conditions ++ own))]) = .ok () := by
  have columns : (db.columns (r.tableName head.kind)).map Prod.fst = t.columnNames := by
    simp [Database.columns, found, Table.columnNames]
  have seen (column : String) (named : column ∈ t.columnNames) :
      Visible.lists (visible db joins ++ [(r.tableName head.kind, t.columnNames)])
        (r.tableName head.kind) column = true := by
    rw [Visible.lists_append, Bool.or_eq_true]
    exact .inr (Visible.lists_iff.mpr ⟨_, List.mem_singleton.mpr rfl, named⟩)
  have within := correlate_within (lowered.bindings.mono covers_left)
    (fun place inside marker marked => seen marker
      (columns ▸ stored.marker_present (List.of_mem_zip inside).2 marked))
    (fun place inside => seen _ (columns ▸ stored.column_present (List.of_mem_zip inside).2))
    correlated
  have shown : Visible.Shown (visible db joins ++ [(r.tableName head.kind, t.columnNames)])
      (visible db joins :: [[(r.tableName head.kind, t.columnNames)]]) :=
    Visible.shown_append Visible.shown_cons
  have resolved := @resolves_select _ _ _ _ [] _ [[(r.tableName head.kind, t.columnNames)]] false
    lowered.joinable (List.forall_mem_nil _)
    (List.forall_mem_append.mpr ⟨lowered.resolves [[(r.tableName head.kind, t.columnNames)]],
      fun e inside => resolves_of_within shown (within e inside)⟩)
  rw [← lowered.sources] at resolved
  refine Sql.checkNames_ok ?_ ?_
  · simp only [Expr.allTables, Expr.tables, List.append_nil]
    exact resolved.2
  · simp only [Expr.allUnresolved, Expr.unresolved, List.append_nil]
    exact resolved.1

-- The rows that a deletion leaves.
def kept (db : Database) (parameter : Int) (table : String) (sc : Scope) (own : List Expr) :
    List Row :=
  (db.rows table).filter fun row =>
    !Expr.allHold ⟨db, parameter⟩ [[⟨table, db.columns table, row⟩]]
      [.exists false (.mk false [] sc.sources (sc.conditions ++ own))]

theorem execute_deletion (lowered : Lowered ctx db guard body sc joins)
    (stored : r.StoredIn head.kind db)
    (correlated : correlate ctx (r.tableName head.kind) r sc.bindings (head.args.zip r.columns) =
      .ok own) :
    ∃ n, db.execute parameter (deletion (r.tableName head.kind) sc own) =
      .ok (db.setRows (r.tableName head.kind)
        (kept db parameter (r.tableName head.kind) sc own), n) := by
  obtain ⟨t, found, columns, rows⟩ := Database.found_of_contains stored.present
  have checked := names_of_deletion lowered stored found correlated
  have target : db.target (r.tableName head.kind) = .ok t := by rw [Database.target, found]
  refine ⟨t.rows.length - (kept db parameter (r.tableName head.kind) sc own).length, ?_⟩
  rw [kept, columns, rows, deletion, Database.execute, Database.delete, target]
  simp only [bind, Except.bind, checked]
  rfl

theorem shows_target {table : String} {rows : List Row} (each : RowsFor db joins rows)
    (uncalled : ∀ j ∈ joins, Sql.fold j.qualifier ≠ Sql.fold table) :
    Shows db (frame db joins rows :: [[⟨table, db.columns table, row⟩]]) table table row := by
  intro column _
  have absent : (frame db joins rows).get? table column = none := by
    refine Frame.get?_of_absent fun inside => ?_
    rw [frame, Source.frameOf_folds ((List.length_map _).trans each.length_eq), List.mem_reverse, List.map_map] at inside
    obtain ⟨j, joined, same⟩ := List.mem_map.mp inside
    exact uncalled j joined same
  rw [Sql.Scope.get?_of_outer absent]
  simp [Sql.Scope.get?, Frame.get?, Item.get?]

theorem taken_iff (lowered : Lowered ctx db guard body sc joins)
    (known : ctx.catalog.relations.get? head.relationName = some r)
    (stored : r.StoredIn head.kind db) (fits : fitsWord parameter = true)
    (correlated : correlate ctx (r.tableName head.kind) r sc.bindings (head.args.zip r.columns) =
      .ok own)
    (uncalled : ∀ j ∈ joins, Sql.fold j.qualifier ≠ Sql.fold (r.tableName head.kind)) :
    Expr.allHold ⟨db, parameter⟩ [[⟨r.tableName head.kind, db.columns (r.tableName head.kind), row⟩]]
        [.exists false (.mk false [] sc.sources (sc.conditions ++ own))] = true ↔
      ∃ rows env, Match ctx db parameter guard body rows env ∧
        Correlated ctx env (RowSemantics.places ctx.catalog db head row) := by
  rw [exists_iff lowered fits]
  refine exists_congr fun rows => exists_congr fun env => and_congr_right fun holds => ?_
  have each := lowered.rows_of_match holds
  have same := ((lowered.matches_iff ⟨db, parameter⟩
    [[⟨r.tableName head.kind, db.columns (r.tableName head.kind), row⟩]] rows env rfl fits each).mp
    holds).2
  rw [and_iff_right same, correlated_iff known stored (shows_target each uncalled) correlated,
    same]

end Statements

section Capture

variable {a : Atom} {r : Relation} {guard : Option Guard} {sc : Scope} {own : List Expr}
  {joins : List Join} {parameter : Int} {rows : List Row} {env : Env}

theorem match_single (relational : a.builtin? = none) (positive : a.isPositive = true)
    (holds : Match ctx db parameter guard [a] rows env) :
    ∃ row, rows = [row] ∧
      env = RowSemantics.bound .empty (RowSemantics.places ctx.catalog db a row) := by
  have chosen := holds.chosen
  have settled := holds.settled
  have only : RowSemantics.positives 0 [a] = [(0, a)] := by simp [RowSemantics.positives, positive]
  have none : RowSemantics.builtins [a] = [] := by simp [RowSemantics.builtins, relational]
  rw [only] at chosen
  obtain ⟨row, others, -, rest, rfl⟩ := List.forall₂_cons_left_iff.mp chosen
  cases rest
  rw [none, RowSemantics.joinedPlaces, only] at settled
  simp only [List.zipWith_cons_cons, List.zipWith_nil_left, List.flatten_cons, List.flatten_nil,
    List.append_nil, RowSemantics.schedule, RowSemantics.Settle] at settled
  exact ⟨row, rfl, settled⟩

-- A head table that goes by the first alias is hidden by the joined atom, whose row is then
-- compared with itself.
theorem captured_iff {table : String} (called : Sql.fold table = Sql.fold (aliasName 0))
    (lowered : Lowered ctx db guard [a] sc joins) (relational : a.builtin? = none)
    (positive : a.isPositive = true) (named : ∀ t ∈ a.args, (RowSemantics.name? t).isSome = true)
    (distinct : (a.args.map RowSemantics.name?).Nodup)
    (known : ctx.catalog.relations.get? a.relationName = some r) (fits : fitsWord parameter = true)
    (correlated : correlate ctx table r sc.bindings (a.args.zip r.columns) = .ok own) :
    Expr.allHold ⟨db, parameter⟩ outer
        [.exists false (.mk false [] sc.sources (sc.conditions ++ own))] = true ↔
      ∃ rows env, Match ctx db parameter guard [a] rows env := by
  rw [exists_iff lowered fits]
  refine exists_congr fun rows => exists_congr fun env =>
    ⟨fun holds => holds.1, fun holds => ⟨holds, ?_⟩⟩
  have each := lowered.rows_of_match holds
  have same := ((lowered.matches_iff ⟨db, parameter⟩ outer rows env rfl fits each).mp holds).2
  refine ⟨same, ?_⟩
  obtain ⟨row, rfl, bound⟩ := match_single relational positive holds
  have only := lowered.positives
  rw [RowSemantics.positives, if_pos positive] at only
  obtain ⟨j, rfl, entry⟩ := List.map_eq_singleton_iff.mp only
  obtain ⟨-, rfl⟩ := Prod.mk.inj entry
  have joinable := lowered.joinable
  have number : j.number = 0 := by simpa using joinable.numbers
  have found := joinable.relations j List.mem_cons_self
  have equal : j.relation = r := Option.some.inj ((relationOf_ok found).1.symm.trans known)
  subst equal
  have own : Shows db (frame db [j] [row] :: outer) j.qualifier j.table row :=
    (List.forall₂_cons.mp (joinable.shows each)).1
  rw [Join.qualifier, number] at own
  have shown : Shows db (frame db [j] [row] :: outer) table j.table row := fun column named =>
    (Sql.Scope.get?_congr called).trans (own column named)
  rw [correlated_iff known (joinable.stored j List.mem_cons_self) shown correlated, ← same, bound]
  have terms := @places_terms _ db _ _ row found
  refine RowSemantics.correlated_bound ?_ fun p inside => named p.2 ?_
  · have names := congrArg (List.map RowSemantics.name?) terms
    rw [List.map_map] at names
    exact names ▸ distinct
  · exact terms ▸ List.mem_map_of_mem inside

end Capture

end Lowering

end PeerExchange
