import PeerExchange.Proofs.OuterJoins
import PeerExchange.Proofs.WrittenRows

namespace PeerExchange

open RowSemantics (Env Identical Match)
open Sql (Database Query Row)

namespace Sql

def Database.AgreeOn (tables : List String) (db db' : Database) : Prop :=
  ∀ table ∈ tables, db'.columns table = db.columns table ∧ db'.rows table = db.rows table

theorem Database.agreeOn_append {tables more : List String} {db db' : Database} :
    AgreeOn (tables ++ more) db db' ↔ AgreeOn tables db db' ∧ AgreeOn more db db' :=
  List.forall_mem_append

section Tables

variable {db db' : Database} {k : Int}

mutual

theorem Expr.eval_agree : (e : Expr) → Database.AgreeOn e.tables db db' → ∀ scope,
    e.eval ⟨db', k⟩ scope = e.eval ⟨db, k⟩ scope
  | .column _ _, _, _ | .integer _, _, _ | .text _, _, _ | .null, _, _ | .typedNull _, _, _
  | .param _, _, _ => by simp only [Expr.eval]
  | .binary _ left right, agree, scope => by
    rw [Expr.tables, Database.agreeOn_append] at agree
    simp only [Expr.eval, Expr.eval_agree left agree.1 scope, Expr.eval_agree right agree.2 scope]
  | .call _ args, agree, scope => by
    rw [Expr.tables] at agree
    simp only [Expr.eval, Expr.evalAll_agree args agree scope]
  | .cast e _, agree, scope => by
    rw [Expr.tables] at agree
    have same := Expr.eval_agree e agree scope
    simp only [Expr.eval, same]
  | .concat parts, agree, scope => by
    rw [Expr.tables] at agree
    simp only [Expr.eval, Expr.evalAll_agree parts agree scope]
  | .nullCase e onNull otherwise, agree, scope => by
    rw [Expr.tables, Database.agreeOn_append, Database.agreeOn_append] at agree
    obtain ⟨⟨tested, null⟩, other⟩ := agree
    simp only [Expr.eval, Expr.eval_agree e tested scope, Expr.eval_agree onNull null scope,
      Expr.eval_agree otherwise other scope]
  | .exists _ query, agree, scope => by
    rw [Expr.tables] at agree
    simp only [Expr.eval, Select.frames_agree query agree scope]

theorem Expr.evalAll_agree : (es : List Expr) → Database.AgreeOn (Expr.allTables es) db db' → ∀ scope,
    Expr.evalAll ⟨db', k⟩ scope es = Expr.evalAll ⟨db, k⟩ scope es
  | [], _, _ => by simp only [Expr.evalAll]
  | e :: rest, agree, scope => by
    rw [Expr.allTables, Database.agreeOn_append] at agree
    simp only [Expr.evalAll, Expr.eval_agree e agree.1 scope, Expr.evalAll_agree rest agree.2 scope]

theorem Expr.allHold_agree : (es : List Expr) → Database.AgreeOn (Expr.allTables es) db db' → ∀ scope,
    Expr.allHold ⟨db', k⟩ scope es = Expr.allHold ⟨db, k⟩ scope es
  | [], _, _ => by simp only [Expr.allHold]
  | e :: rest, agree, scope => by
    rw [Expr.allTables, Database.agreeOn_append] at agree
    simp only [Expr.allHold, Expr.eval_agree e agree.1 scope, Expr.allHold_agree rest agree.2 scope]

theorem Source.frames_agree : (sources : List Source) →
    Database.AgreeOn (Source.tables sources) db db' →
    Database.AgreeOn (Source.conditionTables sources) db db' → ∀ scope frame,
    Source.frames ⟨db', k⟩ scope frame sources = Source.frames ⟨db, k⟩ scope frame sources
  | [], _, _, _, _ => by simp only [Source.frames]
  | .mk table qualifier outer on :: rest, agree, tested, scope, frame => by
    rw [Source.tables] at agree
    rw [Source.conditionTables, Database.agreeOn_append] at tested
    obtain ⟨⟨columns, rows⟩, others⟩ := List.forall_mem_cons.mp agree
    simp only [Source.frames, columns, rows, Expr.allHold_agree on tested.1,
      Source.frames_agree rest others tested.2]

theorem Select.frames_agree : (s : Select) → Database.AgreeOn s.tables db db' → ∀ scope,
    s.frames ⟨db', k⟩ scope = s.frames ⟨db, k⟩ scope
  | .mk _ _ sources conditions, agree, scope => by
    rw [Select.tables, Database.agreeOn_append, Database.agreeOn_append,
      Database.agreeOn_append] at agree
    obtain ⟨⟨⟨read, -⟩, tested⟩, joined⟩ := agree
    simp only [Select.frames, Source.frames_agree sources read joined,
      Expr.allHold_agree conditions tested]

end

theorem Select.projected_agree {s : Select} (agree : Database.AgreeOn s.tables db db') :
    s.projected ⟨db', k⟩ = s.projected ⟨db, k⟩ := by
  have frames := Select.frames_agree (k := k) s agree []
  obtain ⟨distinct, projection, sources, conditions⟩ := s
  rw [Select.tables, Database.agreeOn_append, Database.agreeOn_append,
    Database.agreeOn_append] at agree
  rw [projected, projected, frames]
  refine List.map_congr_left fun frame _ => ?_
  change project ⟨db', k⟩ projection frame = project ⟨db, k⟩ projection frame
  rw [project, project, Expr.evalAll_agree projection agree.1.1.2]

theorem Query.rows_agree {q : Query}
    (agree : ∀ s ∈ q.checked, Database.AgreeOn s.tables db db') :
    q.rows ⟨db', k⟩ = q.rows ⟨db, k⟩ := by
  have arms {f g : Select → List Row} (same : ∀ s ∈ q.selects, f s = g s) :
      q.selects.flatMap f = q.selects.flatMap g := List.flatMap_congr same
  have each : ∀ s ∈ q.selects, Select.projected ⟨db', k⟩ s = Select.projected ⟨db, k⟩ s :=
    fun s inside => Select.projected_agree
      (agree s (List.mem_append_right _ (List.mem_reverse.mpr inside)))
  have rows : ∀ s ∈ q.selects, Select.rows ⟨db', k⟩ s = Select.rows ⟨db, k⟩ s := fun s inside => by
    rw [Select.rows, Select.rows, each s inside]
  unfold Query.rows
  rw [arms each, arms rows]
  cases excepted : q.except with
  | none => rfl
  | some s =>
    have own : s ∈ q.checked := List.mem_append_left _ (by simp [excepted])
    simp only [Select.projected_agree (agree s own)]

mutual

theorem Expr.unresolved_columns (same : db'.columns = db.columns) : (e : Expr) → ∀ around,
    e.unresolved db' around = e.unresolved db around
  | .column _ _, _ | .integer _, _ | .text _, _ | .null, _ | .typedNull _, _ | .param _, _ => by
    simp only [Expr.unresolved]
  | .binary _ left right, around => by
    simp only [Expr.unresolved, Expr.unresolved_columns same left around,
      Expr.unresolved_columns same right around]
  | .call _ args, around => by simp only [Expr.unresolved, Expr.allUnresolved_columns same args around]
  | .cast e _, around => by
    have none := Expr.unresolved_columns same e around
    simp only [Expr.unresolved, none]
  | .concat parts, around => by simp only [Expr.unresolved, Expr.allUnresolved_columns same parts around]
  | .nullCase e onNull otherwise, around => by
    simp only [Expr.unresolved, Expr.unresolved_columns same e around,
      Expr.unresolved_columns same onNull around, Expr.unresolved_columns same otherwise around]
  | .exists _ query, around => by simp only [Expr.unresolved, Select.unresolved_columns same query around]

theorem Expr.allUnresolved_columns (same : db'.columns = db.columns) : (es : List Expr) → ∀ around,
    Expr.allUnresolved db' around es = Expr.allUnresolved db around es
  | [], _ => by simp only [Expr.allUnresolved]
  | e :: rest, around => by
    simp only [Expr.allUnresolved, Expr.unresolved_columns same e around,
      Expr.allUnresolved_columns same rest around]

theorem Source.unresolved_columns (same : db'.columns = db.columns) : (sources : List Source) → ∀ around,
    Source.unresolved db' around sources = Source.unresolved db around sources
  | [], _ => by simp only [Source.unresolved]
  | .mk _ _ _ on :: rest, around => by
    simp only [Source.unresolved, Expr.allUnresolved_columns same on around,
      Source.unresolved_columns same rest around]

theorem Select.unresolved_columns (same : db'.columns = db.columns) : (s : Select) → ∀ around,
    s.unresolved db' around = s.unresolved db around
  | .mk _ projection sources conditions, around => by
    have shown : Source.visible db' sources = Source.visible db sources := by
      rw [Source.visible, Source.visible, same]
    simp only [Select.unresolved, shown,
      Expr.allUnresolved_columns same projection, Expr.allUnresolved_columns same conditions,
      Source.unresolved_columns same sources]

end

theorem Query.check_columns {q : Query}
    (present : ∀ name, db'.tables.contains name = db.tables.contains name)
    (same : db'.columns = db.columns) : q.check db' = q.check db := by
  have resolved : q.checked.flatMap (Select.unresolved db' []) =
      q.checked.flatMap (Select.unresolved db []) :=
    List.flatMap_congr fun s _ => Select.unresolved_columns same s []
  have found : (fun name => !db'.tables.contains name) = fun name => !db.tables.contains name :=
    funext fun name => by rw [present]
  simp only [check, checkNames, resolved, found]

end Tables

end Sql

namespace Sql.Database

variable {table : String} {columns : List (String × ColumnType)} {db db' db'' : Database} {row : Row}

structure Grows (table : String) (columns : List (String × ColumnType)) (db db' : Database) : Prop where
  changes : ChangesIn (· = table) db db'
  added : ∃ added, db'.rows table = db.rows table ++ added ∧ ∀ row ∈ added,
    List.Forall₂ (fun (column : String × ColumnType) v => v.store column.2 = v) columns row

namespace Grows

theorem refl (table : String) (columns : List (String × ColumnType)) (db : Database) :
    Grows table columns db db :=
  ⟨.refl _ db, [], (List.append_nil _).symm, List.forall_mem_nil _⟩

theorem trans (first : Grows table columns db db') (second : Grows table columns db' db'') :
    Grows table columns db db'' := by
  obtain ⟨added, rows, keeps⟩ := first.added
  obtain ⟨more, rows', keeps'⟩ := second.added
  refine ⟨first.changes.trans second.changes, added ++ more, ?_, List.forall_mem_append.mpr ⟨keeps, keeps'⟩⟩
  rw [rows', rows, List.append_assoc]

theorem mem (grows : Grows table columns db db') {name : String} (inside : row ∈ db.rows name) :
    row ∈ db'.rows name := by
  by_cases own : fold table = fold name
  · obtain ⟨added, rows, -⟩ := grows.added
    rw [← rows_congr own] at inside ⊢
    rw [rows]
    exact List.mem_append_left _ inside
  · rwa [grows.changes.rows (elsewhere_singleton.mpr own)]

theorem columns_shared {columns' : List (String × ColumnType)}
    (known : db.columns table = columns.map fun (name, type) => (name, some type))
    (known' : db.columns table = columns'.map fun (name, type) => (name, some type)) :
    columns = columns' := by
  have typed : Function.Injective fun column : String × ColumnType => (column.1, some column.2) := by
    rintro ⟨name, type⟩ ⟨name', type'⟩ same
    simpa using same
  exact List.map_injective_iff.mpr typed (known.symm.trans known')

theorem stored {r : Relation} {kind : TableKind} (grows : Grows table columns db db')
    (known : db.columns table = columns.map fun (name, type) => (name, some type))
    (stored : r.StoredIn kind db) : r.StoredIn kind db' := by
  refine stored.changed grows.changes fun row inside => ?_
  by_cases shared : fold table = fold (r.tableName kind)
  · have same : r.physicalColumns kind = columns :=
      columns_shared ((columns_congr shared).trans stored.columns) known
    obtain ⟨added, rows, keeps⟩ := grows.added
    rw [← rows_congr shared, rows, rows_congr shared] at inside
    rcases List.mem_append.mp inside with old | new
    · exact stored.keeps old
    · rw [Relation.Keeps, same]
      exact keeps row new
  · rw [grows.changes.rows (elsewhere_singleton.mpr shared)] at inside
    exact stored.keeps inside

end Grows

end Sql.Database

namespace RowSemantics

variable {ctx : Lowering.Context} {db db' : Database} {parameter : Int} {guard : Option Guard}
  {body : List Atom} {rows : List Row} {env : Env} {a : Atom} {row : Row}

section Columns

variable (same : ∀ table, db'.columns table = db.columns table)
include same

theorem cell_columns (table : String) : cell db' table = cell db table := by
  funext row column
  rw [cell, cell, same]

theorem places_columns (c : Catalog) (a : Atom) : places c db' a = places c db a := by
  funext row
  simp only [places, cell_columns same]

theorem identical_columns : Identical ctx db' env a row ↔ Identical ctx db env a row := by
  rw [Identical, Identical, places_columns same]

end Columns

-- As a table grows that no joined atom reads, matches are lost to negated atoms and none is won.
theorem match_grown {table : String} {columns : List (String × ColumnType)}
    (grows : Database.Grows table columns db db')
    (unread : ∀ a ∈ body, a.isPositive = true → Sql.fold table ≠ Sql.fold (tableOf ctx.catalog a)) :
    Match ctx db' parameter guard body rows env ↔
      Match ctx db parameter guard body rows env ∧
        ∀ a ∈ body, a.negated = true → ∀ row ∈ db'.rows (tableOf ctx.catalog a),
          ¬ Identical ctx db' env a row := by
  have same := grows.changes.columns
  have joined : joinedPlaces ctx db' body rows = joinedPlaces ctx db body rows := by
    simp only [joinedPlaces, places_columns same]
  have chosen : List.Forall₂ (Chosen ctx db' parameter guard) (positives 0 body) rows ↔
      List.Forall₂ (Chosen ctx db parameter guard) (positives 0 body) rows := by
    refine forall₂_congr_mem fun p inside row => ?_
    obtain ⟨member, positive⟩ := Lowering.positives_mem inside
    have elsewhere := Database.elsewhere_singleton.mpr (unread p.2 member positive)
    rw [Chosen, Chosen, grows.changes.rows elsewhere, cell_columns same]
  constructor
  · rintro ⟨here, agree, settled, absent⟩
    rw [joined] at agree settled
    refine ⟨⟨chosen.mp here, agree, settled, fun a inside negative row stored => ?_⟩, absent⟩
    exact fun hit => absent a inside negative row (grows.mem stored) ((identical_columns same).mpr hit)
  · rintro ⟨⟨here, agree, settled, -⟩, absent⟩
    rw [← joined] at agree settled
    exact ⟨chosen.mpr here, agree, settled, absent⟩

end RowSemantics

namespace Lowering

variable {r : Relation} {kind : TableKind} {db : Database} {parameter : Int} {q : Query}

theorem execute_kept (stored : r.StoredIn kind db) (columned : r.physicalColumns kind ≠ [])
    (checked : q.check db = .ok ())
    (keeps : ∀ row ∈ q.rows ⟨db, parameter⟩, r.Keeps kind row) :
    ∃ db', db.execute parameter (.insert (r.tableName kind) (columnNames r kind) (.query q)) =
        .ok (db', (q.rows ⟨db, parameter⟩).length) ∧
      db'.rows (r.tableName kind) = db.rows (r.tableName kind) ++ q.rows ⟨db, parameter⟩ ∧
      Database.Grows (r.tableName kind) (r.physicalColumns kind) db db' := by
  obtain ⟨t, found, executed⟩ := @execute_query _ _ parameter _ _ stored columned checked
  have names : t.columnNames = columnNames r kind := by
    have shown : db.columns (r.tableName kind) = t.columns := by simp [Database.columns, found]
    rw [columnNames, ← stored.columnNames, shown]
    rfl
  rw [names, stored.map_fill found keeps] at executed
  have rows : (db.setRows (r.tableName kind)
      (db.rows (r.tableName kind) ++ q.rows ⟨db, parameter⟩)).rows (r.tableName kind) =
        db.rows (r.tableName kind) ++ q.rows ⟨db, parameter⟩ := by
    rw [Sql.Database.rows_setRows found]
  exact ⟨_, executed, rows, Database.changesIn_setRows rfl, _, rows, keeps⟩

end Lowering

end PeerExchange
