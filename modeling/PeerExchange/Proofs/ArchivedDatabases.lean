import Mathlib.Data.List.Find
import PeerExchange.Proofs.InsertStatements
import PeerExchange.Proofs.StatementTexts

namespace PeerExchange.Sql

open Syntax (key)

namespace Statement

-- What the text of a statement reads as.
def written : Statement → Syntax.Statement
  | createTable name columns => .createTable name true (columns.map fun (c, type) => (c, some type))
  | createView name columns query => .createView name columns query.written
  | insert table columns source => .insert table columns source.written
  | delete table conditions => .delete table (Expr.writtenAll conditions)

def reads : Statement → List String
  | createTable _ _ | createView _ _ _ => []
  | insert _ _ source => source.tables
  | delete _ conditions => Expr.allTables conditions

def name : Statement → String
  | createTable name _ | createView name _ _ | insert name _ _ | delete name _ => name

end Statement

-- A name of a table that an archive may have.
def plainTable (name : String) : Bool := plainName name && !Archive.schemaNames.contains (key name)

def View.isPlain (v : View) : Bool :=
  v.columns.all (fun c => plainName c && (Syntax.truth? c).isNone) && v.query.isPlain &&
    v.query.written.sourceCount ≤ Syntax.joinLimit &&
    (v.query.checked.flatMap Select.tables).all plainTable

namespace Statement

-- What a statement needs to be more than its text: plain names, columns that are told apart, as many
-- values as columns, and no more tables in a join than can be joined.
def isPlain : Statement → Bool
  | createTable name columns =>
    plainTable name && !columns.isEmpty && columns.all (plainName ·.1) &&
      (Database.repeated? [] (columns.map Prod.fst)).isNone
  | createView name columns query => plainTable name && (View.mk columns query).isPlain
  | insert table columns source =>
    plainTable table && !columns.isEmpty && columns.all plainName && source.isPlain &&
      source.written.width = columns.length
  | delete table conditions => plainTable table && Expr.allPlain conditions

end Statement

-- A statement that an archive carries out as it is meant. It reads no view, and is not too large.
structure Statement.IsSendable (called : String → Prop) (s : Statement) : Prop where
  plain : s.isPlain = true
  tables : s.reads.all plainTable = true
  apart : ∀ name ∈ s.reads, ¬ called (fold name)
  viewed : ∀ name columns query, s = createView name columns query → called (fold name)
  small : s.written.sizeFault? = none
  joins : s.written.sourceCount ≤ Syntax.joinLimit

namespace Statement

def viewName? : Statement → Option String
  | createView name _ _ => some name
  | _ => none

theorem isSendable_iff {called : String → Prop} {s : Statement} : s.IsSendable called ↔
    s.isPlain = true ∧ s.reads.all plainTable = true ∧ (∀ name ∈ s.reads, ¬ called (fold name)) ∧
      (∀ name ∈ s.viewName?, called (fold name)) ∧ s.written.sizeFault? = none ∧
      s.written.sourceCount ≤ Syntax.joinLimit := by
  have views : (∀ name ∈ s.viewName?, called (fold name)) ↔
      ∀ name columns query, s = createView name columns query → called (fold name) := by
    cases s <;> simp [viewName?]
  rw [views]
  exact ⟨fun sendable => ⟨sendable.1, sendable.2, sendable.3, sendable.4, sendable.5, sendable.6⟩,
    fun ⟨plain, tables, apart, viewed, small, joins⟩ => ⟨plain, tables, apart, viewed, small, joins⟩⟩

instance (called : String → Prop) [DecidablePred called] (s : Statement) : Decidable (s.IsSendable called) :=
  decidable_of_iff _ isSendable_iff.symm

end Statement

-- Tables under the names that an archive keeps, and views that are read as they are meant. Views go
-- by names of their own.
structure Archive.Mirrors (called : String → Prop) (db : Database) (a : Archive) : Prop where
  tables : a.database = db.folded
  views : ∀ name, (a.views.get? name).map (fun v => (v.columns, v.query)) =
    (db.views.byFold.get? name).map fun v => (v.columns, v.query.written)
  plain : ∀ name v, db.views.get? name = some v → v.isPlain = true ∧ called (fold name)

theorem plainName_iff {name : String} : plainName name = true ↔ key name = fold name := by
  rw [plainName, decide_eq_true_eq]

theorem NameMap.map_modify {α β : Type} {f : α → β} {g : α → α} {g' : β → β}
    (same : ∀ a, f (g a) = g' (f a)) (m : NameMap α) (name : String) :
    (m.modify name g).map f = (m.map f).modify name g' := by
  unfold NameMap.modify
  rw [NameMap.get?_map]
  cases m.get? name with
  | none => rfl
  | some a => simp only [Option.map_some, NameMap.map_insert, same]

namespace Archive

variable {called : String → Prop} {db : Database} {a : Archive}

namespace Mirrors

section Names

variable (mirrors : Mirrors called db a) {name : String}

include mirrors

theorem get?_tables (plain : plainName name = true) :
    a.tables.get? (key name) = (db.tables.get? name).map Table.folded := by
  have own := congrArg (fun d : Database => d.tables.byFold.get? (fold name)) mirrors.tables
  rw [plainName_iff.mp plain]
  exact own.trans (NameMap.get?_map _ _ _)

theorem contains_tables (plain : plainName name = true) :
    a.tables.contains (key name) = db.tables.contains name := by
  rw [NameMap.contains, mirrors.get?_tables plain, Names.contains, Option.isSome_map]

theorem contains_views (plain : plainName name = true) :
    a.views.contains (key name) = db.views.contains name := by
  have own := congrArg Option.isSome (mirrors.views (fold name))
  rw [Option.isSome_map, Option.isSome_map] at own
  rw [plainName_iff.mp plain]
  exact own

theorem hasName (plain : plainName name = true) : a.hasName name = db.hasName name := by
  rw [Archive.hasName, Database.hasName, mirrors.contains_tables plain, mirrors.contains_views plain]

theorem target (plain : plainTable name = true) :
    a.target name = (db.target name).map Table.folded := by
  simp only [plainTable, Bool.and_eq_true, Bool.not_eq_true'] at plain
  rw [Archive.target, plain.2, if_neg Bool.false_ne_true, mirrors.get?_tables plain.1,
    mirrors.contains_views plain.1, Database.target]
  cases db.tables.get? name <;> rfl

-- Reading a table adds nothing to those that there are.
theorem readingOne_table {t : Table} (plain : plainTable name = true)
    (found : db.tables.get? name = some t) :
    a.readingOne db.folded (Sql.reading name) = .ok db.folded := by
  simp only [plainTable, Bool.and_eq_true, Bool.not_eq_true'] at plain
  have stored : a.table? name = some t.folded := by
    rw [Archive.table?, plain.2, if_neg Bool.false_ne_true, mirrors.get?_tables plain.1, found]
    rfl
  have own : db.folded.tables.byFold.get? (fold (key name)) = some t.folded := by
    rw [plainName_iff.mp plain.1, fold_fold]
    exact (NameMap.get?_map _ _ _).trans (congrArg (Option.map _) found)
  have again : db.folded.tables.insert (key name) t.folded = db.folded.tables :=
    congrArg Names.mk (NameMap.insert_same own)
  unfold Sql.reading Archive.readingOne
  simp only [stored, Bool.false_eq_true, ↓reduceIte, again]

theorem table?_none (plain : plainTable name = true) (missing : db.tables.get? name = none) :
    a.table? name = none := by
  simp only [plainTable, Bool.and_eq_true, Bool.not_eq_true'] at plain
  rw [Archive.table?, plain.2, if_neg Bool.false_ne_true, mirrors.get?_tables plain.1, missing]
  rfl

theorem readingOne_none (plain : plainTable name = true) (missing : db.tables.get? name = none)
    (apart : db.views.contains name = false) :
    a.readingOne db.folded (Sql.reading name) = .error (.noTable name) := by
  have viewless : a.views.get? (key name) = none := by
    rw [← Option.isNone_iff_eq_none, ← Option.isSome_eq_false_iff]
    exact (mirrors.contains_views (Bool.and_eq_true_iff.mp plain).1).trans apart
  unfold Sql.reading Archive.readingOne
  simp only [mirrors.table?_none plain missing, viewless]

theorem reading {names : List String} (plain : names.all plainTable = true)
    (apart : ∀ name ∈ names, db.views.contains name = false) :
    a.reading (names.map Sql.reading) = match names.find? (!db.tables.contains ·) with
      | some name => .error (.noTable name)
      | none => .ok db.folded := by
  rw [Archive.reading, mirrors.tables]
  induction names with
  | nil => rfl
  | cons name rest ih =>
    rw [List.all_cons, Bool.and_eq_true] at plain
    obtain ⟨own, others⟩ := List.forall_mem_cons.mp apart
    rw [List.map_cons, List.foldlM_cons, List.find?_cons, Names.contains]
    cases found : db.tables.get? name with
    | none =>
      rw [mirrors.readingOne_none plain.1 found own]
      rfl
    | some t =>
      rw [mirrors.readingOne_table plain.1 found]
      exact ih plain.2 others

end Names

end Mirrors

-- Reading tables and settling names are refused alike, or nothing is refused.
theorem reading_settles (mirrors : Mirrors called db a) {α : Type} {names unresolved : List String}
    {P : α → Prop} {f : Database → Except Fault α} (plain : names.all plainTable = true)
    (apart : ∀ name ∈ names, db.views.contains name = false)
    (settles : Settles unresolved P (f db.folded)) :
    (∃ fault, fault.code = 1 ∧ checkNames db names unresolved = .error fault ∧
      ∀ {β : Type} (g : Database → α → Except Fault β),
        (a.reading (names.map Sql.reading) >>= fun db => f db >>= g db) = .error fault) ∨
    ∃ r, P r ∧ (∀ name ∈ names, db.tables.contains name = true) ∧
      checkNames db names unresolved = .ok () ∧
      a.reading (names.map Sql.reading) = .ok db.folded ∧ f db.folded = .ok r := by
  rw [mirrors.reading plain apart]
  unfold checkNames
  cases missing : names.find? (!db.tables.contains ·) with
  | some name => exact .inl ⟨.noTable name, rfl, rfl, fun _ => rfl⟩
  | none =>
    have stored : ∀ name ∈ names, db.tables.contains name = true := by
      simpa using List.find?_eq_none.mp missing
    cases unresolved with
    | nil =>
      obtain ⟨r, ran, holds⟩ := settles
      exact .inr ⟨r, holds, stored, rfl, rfl, ran⟩
    | cons name _ =>
      refine .inl ⟨.noColumn name, rfl, rfl, fun g => ?_⟩
      change (f db.folded >>= g db.folded) = _
      rw [show f db.folded = .error (.noColumn name) from settles]
      rfl

-- Both refuse, for the same reason, or both go on alike.
inductive Alike (called : String → Prop) :
    Except Fault (Database × Nat) → Except Fault (Archive × Nat) → Prop
  | refused {fault : Fault} (code : fault.code = 1) : Alike called (.error fault) (.error fault)
  | done {db : Database} {a : Archive} {n : Nat} (mirrors : Mirrors called db a) :
    Alike called (.ok (db, n)) (.ok (a, n))

theorem lookup_fold {α : Type} (name : String) (names : List String) (values : List α) :
    lookup (fold name) ((names.map fold).zip values) = lookup name (names.zip values) := by
  induction names generalizing values with
  | nil => rfl
  | cons first rest ih =>
    cases values with
    | nil => rfl
    | cons v values => simp only [List.map_cons, List.zip_cons_cons, lookup, fold_fold, ih]

theorem fill_folded (t : Table) (names : List String) (values : Row) :
    t.folded.fill (names.map fold) values = t.fill names values := by
  simp only [Table.fill, Table.folded, foldColumns, List.map_map, Function.comp_def, lookup_fold]

theorem map_key {names : List String} (plain : names.all plainName = true) :
    names.map key = names.map fold :=
  List.map_congr_left fun name inside => plainName_iff.mp (List.all_eq_true.mp plain name inside)

theorem mirrors_settle (mirrors : Mirrors called db a) {table : String} {rows : List Row} {t : Table}
    (plain : plainName table = true) (found : db.tables.get? table = some t) :
    Mirrors called (db.setRows table rows) (a.settle table (db.folded.setRows (key table) rows)) := by
  have own : (db.folded.setRows (key table) rows).rows (key table) = rows := by
    have there : db.folded.tables.get? (key table) = some t.folded := by
      rw [Database.get?_folded, plainName_iff.mp plain, Names.get?_congr (fold_fold table), found]
      rfl
    rw [Database.rows, Database.setRows, Names.get?_modify, if_pos rfl, there]
    rfl
  refine ⟨?_, mirrors.views, mirrors.plain⟩
  have tables := congrArg (fun d : Database => d.tables.byFold) mirrors.tables
  rw [settle, own]
  refine congrArg (fun m => (⟨⟨m⟩, .empty⟩ : Database)) ?_
  rw [show a.tables = db.tables.byFold.map Table.folded from tables, plainName_iff.mp plain]
  exact (NameMap.map_modify (f := Table.folded) (g := fun t => { t with rows := rows })
    (fun _ => rfl) _ _).symm

theorem target_cases (db : Database) (name : String) :
    (∃ fault, fault.code = 1 ∧ db.target name = .error fault) ∨
      ∃ t, db.tables.get? name = some t ∧ db.target name = .ok t := by
  unfold Database.target
  cases db.tables.get? name with
  | some t => exact .inr ⟨t, rfl, rfl⟩
  | none =>
    refine .inl ⟨_, ?_, rfl⟩
    split <;> rfl

section Statements

variable {k : Int}

theorem filled_eq (mirrors : Mirrors called db a) {table : String} {columns : List String}
    (tabled : plainTable table = true) (named : columns.all plainName = true) :
    a.filled table columns = (do
      let t ← db.target table
      t.checkColumns table columns
      .ok t.folded) := by
  rw [Archive.filled, mirrors.target tabled]
  cases db.target table with
  | error fault => rfl
  | ok t =>
    have same : columns.find? (fun name => !t.folded.columnNames.contains (key name)) =
        columns.find? (!listed t.columnNames ·) := by
      have own : t.folded.columnNames = t.columnNames.map fold := map_fst_foldColumns t.columns
      refine List.find?_congr fun name inside => ?_
      rw [own, plainName_iff.mp (List.all_eq_true.mp named name inside), listed]
    change (match columns.find? (fun name => !t.folded.columnNames.contains (key name)) with
      | some column => Except.error (Fault.noColumnIn table column)
      | none => .ok t.folded) = _
    rw [same]
    change _ = (t.checkColumns table columns >>= fun _ => Except.ok t.folded)
    unfold Table.checkColumns
    cases columns.find? (!listed t.columnNames ·) <;> rfl

theorem checkColumns_cases (t : Table) (table : String) (columns : List String) :
    (∃ fault, fault.code = 1 ∧ t.checkColumns table columns = .error fault) ∨
      t.checkColumns table columns = .ok () := by
  unfold Table.checkColumns
  cases columns.find? (!listed t.columnNames ·) with
  | some column => exact .inl ⟨_, rfl, rfl⟩
  | none => exact .inr rfl

-- Rows that are added to a table are added to the one that an archive has for it.
theorem done_insertRows (mirrors : Mirrors called db a) {table : String} {columns : List String}
    {t : Table} (plain : plainName table = true) (named : columns.all plainName = true)
    (found : db.tables.get? table = some t) (rows : List Row) :
    Alike called (.ok (db.insertRows table columns t rows))
      (.ok (a.settle table (db.folded.insertRows (key table) (columns.map key) t.folded rows).1,
        (db.folded.insertRows (key table) (columns.map key) t.folded rows).2)) := by
  have filled : rows.map (t.folded.fill (columns.map key)) = rows.map (t.fill columns) := by
    rw [map_key named]
    exact List.map_congr_left fun row _ => fill_folded t columns row
  simp only [Database.insertRows, filled]
  exact .done (mirrors_settle mirrors plain found)

theorem insert_alike (mirrors : Mirrors called db a) {table : String} {columns : List String}
    {source : InsertSource} (plain : (Statement.insert table columns source).isPlain = true)
    (bounded : (Statement.insert table columns source).written.sourceCount ≤ Syntax.joinLimit)
    (read : source.tables.all plainTable = true)
    (apart : ∀ name ∈ source.tables, db.views.contains name = false) :
    Alike called (db.insert k table columns source) (a.insert k table columns source.written) := by
  simp only [Statement.isPlain, Bool.and_eq_true, decide_eq_true_eq, Bool.not_eq_true'] at plain
  obtain ⟨⟨⟨⟨tabled, some_⟩, named⟩, sourcePlain⟩, wide⟩ := plain
  have tableName : plainName table = true := (Bool.and_eq_true_iff.mp tabled).1
  have joins : ¬ Syntax.joinLimit < (Syntax.Statement.insert table columns source.written).sourceCount :=
    Nat.not_lt.mpr bounded
  rw [Database.insert, some_, if_neg Bool.false_ne_true, Archive.insert, filled_eq mirrors tabled named]
  rcases target_cases db table with ⟨fault, code, target⟩ | ⟨t, found, target⟩
  · rw [target]
    exact .refused code
  rcases checkColumns_cases t table columns with ⟨fault, code, checked⟩ | checked
  · simp only [target, checked, bind, Except.bind]
    exact .refused code
  have tables := InsertSource.tables_written sourcePlain
  rw [target]
  change Alike called (t.checkColumns table columns >>= _)
    ((t.checkColumns table columns >>= fun _ => .ok t.folded) >>= _)
  rw [checked]
  change Alike called (source.check db >>= fun _ => _) (a.reading source.written.tables >>= fun db =>
    source.written.resolve db >>= _)
  rw [tables, InsertSource.check_eq]
  rcases reading_settles mirrors (f := fun db => source.written.resolve db) read apart
      (InsertSource.resolve_written sourcePlain) with
    ⟨fault, code, refused, alike⟩ | ⟨source', rows, -, accepted, reading, resolved⟩
  · rw [refused, alike]
    exact .refused code
  · rw [accepted, reading]
    change Alike called _ (source.written.resolve db.folded >>= _)
    rw [resolved]
    simp only [checkWidth, wide, ↓reduceIte, Syntax.checkJoins, joins]
    change Alike called (.ok (db.insertRows table columns t (source.rows ⟨db, k⟩)))
      (.ok (a.settle table (db.folded.insertRows (key table) (columns.map key) t.folded
        (source'.rows ⟨db.folded, k⟩)).1, _))
    rw [rows k]
    exact done_insertRows mirrors tableName named found _

-- What was settled is not refused again.
theorem delete_settled {table : String} {t : Table} {conditions conditions' : List Expr}
    {written : List Syntax.Expr} (plain : plainName table = true) (found : db.tables.get? table = some t)
    (resolved : Syntax.Expr.resolveAll db.folded ([[(table, t.columnNames)]].map Visible.folded) written =
      .ok conditions')
    (present : ∀ reading ∈ Syntax.Expr.allTables written, db.folded.tables.contains (key reading.1) = true)
    (held : Expr.AllRead db conditions conditions') :
    db.folded.delete k (key table) conditions' =
      let kept := t.rows.filter fun row => !db.isSelected k table t conditions row
      .ok (db.folded.setRows (key table) kept, t.rows.length - kept.length) := by
  have there : db.folded.tables.get? (key table) = some t.folded := by
    rw [Database.get?_folded, plainName_iff.mp plain, Names.get?_congr (fold_fold table), found]
    rfl
  have target : db.folded.target (key table) = .ok t.folded := by rw [Database.target, there]
  have around : [[(key table, t.folded.columnNames)]] = [[(table, t.columnNames)]].map Visible.folded := by
    rw [plainName_iff.mp plain, show t.folded.columnNames = t.columnNames.map fold from
      map_fst_foldColumns t.columns]
    rfl
  obtain ⟨settled, among⟩ := Expr.of_resolveAll written resolved
  have checked : checkNames db.folded (Expr.allTables conditions')
      (Expr.allUnresolved db.folded [[(key table, t.folded.columnNames)]] conditions') = .ok () := by
    have stored : (Expr.allTables conditions').find? (!db.folded.tables.contains ·) = none := by
      refine List.find?_eq_none.mpr fun name inside => ?_
      obtain ⟨reading, own, rfl⟩ := among name inside
      simp [present reading own]
    unfold checkNames
    rw [around, settled, stored]
  have selected (row : Row) : db.folded.isSelected k (key table) t.folded conditions' row =
      db.isSelected k table t conditions row := by
    rw [Database.isSelected, Database.isSelected, plainName_iff.mp plain]
    exact held.holding k [[⟨table, t.columns, row⟩]]
  rw [Database.delete, target]
  change (checkNames db.folded (Expr.allTables conditions')
    (Expr.allUnresolved db.folded [[(key table, t.folded.columnNames)]] conditions') >>= _) = _
  rw [checked]
  simp only [selected]
  rfl

theorem delete_alike (mirrors : Mirrors called db a) {table : String} {conditions : List Expr}
    (plain : (Statement.delete table conditions).isPlain = true)
    (bounded : (Statement.delete table conditions).written.sourceCount ≤ Syntax.joinLimit)
    (read : (Expr.allTables conditions).all plainTable = true)
    (apart : ∀ name ∈ Expr.allTables conditions, db.views.contains name = false) :
    Alike called (db.delete k table conditions)
      (a.delete k table (Expr.writtenAll conditions)) := by
  simp only [Statement.isPlain, Bool.and_eq_true] at plain
  obtain ⟨tabled, conditionsPlain⟩ := plain
  have tableName : plainName table = true := (Bool.and_eq_true_iff.mp tabled).1
  have joins : ¬ Syntax.joinLimit < Syntax.Expr.sourceCounts (Expr.writtenAll conditions) :=
    Nat.not_lt.mpr ((Nat.le_max_right _ _).trans bounded)
  rw [Database.delete, Archive.delete, mirrors.target tabled]
  rcases target_cases db table with ⟨fault, code, target⟩ | ⟨t, found, target⟩
  · rw [target]
    exact .refused code
  have tables := Expr.allTables_written conditions conditionsPlain
  have shown : [[(key table, t.folded.columnNames)]] =
      [[(table, t.columnNames)]].map Visible.folded := by
    rw [plainName_iff.mp tableName, show t.folded.columnNames = t.columnNames.map fold from
      map_fst_foldColumns t.columns]
    rfl
  rw [target]
  change Alike called (checkNames db (Expr.allTables conditions) _ >>= _)
    (a.reading (Syntax.Expr.allTables (Expr.writtenAll conditions)) >>= fun db =>
      Syntax.Expr.resolveAll db [[(key table, t.folded.columnNames)]] (Expr.writtenAll conditions) >>= _)
  rw [tables, shown]
  rcases reading_settles mirrors
      (f := fun db => Syntax.Expr.resolveAll db ([[(table, t.columnNames)]].map Visible.folded)
        (Expr.writtenAll conditions)) read apart
      (Expr.resolveAll_written conditions conditionsPlain [[(table, t.columnNames)]]) with
    ⟨fault, code, refused, alike⟩ | ⟨conditions', held, stored, accepted, reading, resolved⟩
  · rw [refused, alike]
    exact .refused code
  · rw [accepted, reading]
    change Alike called _ (Syntax.Expr.resolveAll db.folded _ (Expr.writtenAll conditions) >>= _)
    rw [resolved]
    simp only [Syntax.checkJoins, joins, ↓reduceIte]
    have present : ∀ reading ∈ Syntax.Expr.allTables (Expr.writtenAll conditions),
        db.folded.tables.contains (key reading.1) = true := by
      rw [tables]
      rintro _ inside
      obtain ⟨name, own, rfl⟩ := List.mem_map.mp inside
      have plain := List.all_eq_true.mp read name own
      rw [plainTable, Bool.and_eq_true, plainName_iff] at plain
      rw [Sql.reading, plain.1, Names.contains, Database.get?_folded, Names.get?_congr (fold_fold name),
        Option.isSome_map]
      exact stored name own
    change Alike called _ (db.folded.delete k (key table) conditions' >>= _)
    rw [delete_settled tableName found resolved present held]
    exact .done (mirrors_settle mirrors tableName found)

theorem keyed_columns {columns : List (String × ColumnType)}
    (named : columns.all (plainName ·.1) = true) :
    (columns.map fun (c, type) => (c, some type)).map (fun (c, type) => (key c, type)) =
      foldColumns (columns.map fun (c, type) => (c, some type)) := by
  rw [foldColumns, List.map_map, List.map_map]
  refine List.map_congr_left fun column inside => ?_
  have here := plainName_iff.mp (List.all_eq_true.mp named column inside)
  exact congrArg (·, some column.2) here

theorem createTable_alike (mirrors : Mirrors called db a) {name : String}
    {columns : List (String × ColumnType)} (plain : (Statement.createTable name columns).isPlain = true) :
    Alike called (do .ok (← db.createTable name columns, 0))
      (do .ok (← a.createTable name true (columns.map fun (c, type) => (c, some type)), 0)) := by
  simp only [Statement.isPlain, Bool.and_eq_true, Bool.not_eq_true', Option.isNone_iff_eq_none] at plain
  obtain ⟨⟨⟨tabled, some_⟩, named⟩, distinct⟩ := plain
  have own : plainName name = true := (Bool.and_eq_true_iff.mp tabled).1
  rw [Database.createTable, some_, if_neg Bool.false_ne_true, Archive.createTable, mirrors.hasName own]
  cases taken : db.hasName name with
  | true => exact .done mirrors
  | false =>
    rw [distinct]
    refine .done ⟨?_, mirrors.views, mirrors.plain⟩
    have tables := congrArg (fun d : Database => d.tables.byFold) mirrors.tables
    refine congrArg (fun m => (⟨⟨m⟩, .empty⟩ : Database)) ?_
    rw [keyed_columns named, show a.tables = db.tables.byFold.map Table.folded from tables, plainName_iff.mp own]
    exact (NameMap.map_insert Table.folded db.tables.byFold (fold name) ⟨_, []⟩).symm

theorem createView_alike (mirrors : Mirrors called db a) {name text : String} {columns : List String}
    {query : Query} (plain : (Statement.createView name columns query).isPlain = true)
    (viewed : called (fold name)) :
    Alike called (.ok (db.createView name columns query, 0))
      (.ok (a.createView name ⟨columns, query.written, text⟩, 0)) := by
  simp only [Statement.isPlain, Bool.and_eq_true] at plain
  obtain ⟨tabled, view⟩ := plain
  have own : plainName name = true := (Bool.and_eq_true_iff.mp tabled).1
  rw [Database.createView, Archive.createView, mirrors.hasName own]
  cases taken : db.hasName name with
  | true => exact .done mirrors
  | false =>
    rw [if_neg Bool.false_ne_true, if_neg Bool.false_ne_true]
    refine .done ⟨mirrors.tables, fun other => ?_, fun other v found => ?_⟩
    · rw [NameMap.get?_insert, plainName_iff.mp own]
      refine Eq.trans ?_ (congrArg _ (NameMap.get?_insert _ _ _ _).symm)
      split
      · rfl
      · exact mirrors.views other
    · rw [Names.get?_insert] at found
      split at found
      · rename_i same
        cases found
        exact ⟨view, same ▸ viewed⟩
      · exact mirrors.plain other v found

-- What a statement does to a database, its text does to an archive.
theorem execute_alike (mirrors : Mirrors called db a) {s : Statement} (text : String)
    (sendable : s.IsSendable called) : Alike called (db.execute k s) (a.execute k s.written text) := by
  have apart : ∀ name ∈ s.reads, db.views.contains name = false := fun name inside => by
    rw [← Bool.not_eq_true]
    intro viewed
    obtain ⟨v, found⟩ := Names.get?_of_contains viewed
    exact sendable.apart name inside (mirrors.plain name v found).2
  unfold Archive.execute
  rw [sendable.small]
  cases s with
  | createTable name columns => exact createTable_alike mirrors sendable.plain
  | createView name columns query =>
    exact createView_alike mirrors sendable.plain (sendable.viewed name columns query rfl)
  | insert table columns source =>
    exact insert_alike mirrors sendable.plain sendable.joins sendable.tables apart
  | delete table conditions =>
    exact delete_alike mirrors sendable.plain sendable.joins sendable.tables apart

end Statements

section Contents

-- What the text that reads columns of a table reads as.
def reader (columns : List String) (name : String) : Syntax.Query where
  first := .mk false (columns.map (.name false)) [.mk name false none false []] []

theorem ownersOf_one (qualifier column : String) (names : List String) :
    Syntax.ownersOf [[(qualifier, names)]] column = if names.contains column then [qualifier] else [] := by
  simp only [Syntax.ownersOf, List.findSome?_cons, List.filter_cons, List.filter_nil, List.findSome?_nil]
  cases names.contains column <;> rfl

theorem resolveAll_reader {db : Database} {qualifier : String} {names columns : List String}
    (plain : columns.all (fun c => plainName c && (Syntax.truth? c).isNone) = true) :
    Syntax.Expr.resolveAll db [[(qualifier, names.map fold)]] (columns.map (.name false)) =
      match columns.find? (!listed names ·) with
      | some column => .error (.noColumn column)
      | none => .ok (columns.map fun column => .column qualifier (fold column)) := by
  induction columns with
  | nil => rfl
  | cons c rest ih =>
    rw [List.all_cons, Bool.and_eq_true] at plain
    obtain ⟨own, others⟩ := plain
    rw [Bool.and_eq_true, plainName_iff, Option.isNone_iff_eq_none] at own
    rw [List.map_cons, Syntax.Expr.resolveAll, Syntax.Expr.resolve, own.1, ownersOf_one, List.find?_cons]
    have here : listed names c = (names.map fold).contains (fold c) := rfl
    rw [here]
    cases (names.map fold).contains (fold c) with
    | false =>
      simp only [Bool.false_eq_true, ↓reduceIte, own.2]
      rfl
    | true =>
      simp only [↓reduceIte, ih others]
      cases rest.find? (!listed names ·) <;> rfl

-- Columns that are read by name from rows that have names.
def shownRows (columns names : List String) (rows : List Row) : Except Fault (List Row) :=
  match columns.find? (!listed names ·) with
  | some column => .error (.noColumn column)
  | none => .ok (rows.map fun row => columns.map fun column => (lookup column (names.zip row)).getD .null)

theorem rows_reader {db : Database} {name : String} {names columns : List String} {t : Table}
    (found : db.tables.get? name = some t) (own : t.columnNames = names.map fold)
    (some_ : columns.isEmpty = false) :
    (Query.ofSelect (.mk false (columns.map fun column => .column name (fold column))
      [.mk name name false []] [])).rows ⟨db, 0⟩ =
      t.rows.map fun row => columns.map fun column => (lookup column (names.zip row)).getD .null := by
  have rows : db.rows name = t.rows := by rw [Database.rows, found]; rfl
  have heads : db.columns name = t.columns := by rw [Database.columns, found]; rfl
  have frames : (Select.mk false (columns.map fun column => .column name (fold column))
      [.mk name name false []] []).frames ⟨db, 0⟩ [] = t.rows.map fun row => [⟨name, t.columns, row⟩] := by
    simp only [Select.frames, Source.frames, rows, heads, Bool.false_eq_true, ↓reduceIte, List.flatMap_map,
      Expr.allHold, List.filter_true]
    exact List.map_eq_flatMap.symm
  have cell (row : Row) (column : String) :
      ((Expr.column name (fold column)).eval ⟨db, 0⟩ [[⟨name, t.columns, row⟩]]).value =
        (lookup column (names.zip row)).getD .null := by
    have value := @lookup_zip t.columns row (fold column)
    rw [show t.columns.map Prod.fst = names.map fold from own, lookup_fold] at value
    rw [value]
    simp only [Expr.eval, Scope.get?, Frame.get?, List.findSome?_cons, List.findSome?_nil, ↓reduceIte,
      Item.get?]
    cases Item.cell? (fold column) t.columns row <;> rfl
  have shown : (columns.map fun column => Expr.column name (fold column)).isEmpty = false := by
    rw [List.isEmpty_map, some_]
  simp only [Query.ofSelect, Query.rows, Bool.false_or, List.length_singleton, Nat.le_refl, decide_true,
    ↓reduceIte, List.flatMap_cons, List.flatMap_nil, List.append_nil, Select.rows, Select.distinct,
    Bool.false_eq_true, Select.projected, frames, List.map_map]
  refine List.map_congr_left fun row _ => ?_
  simp only [Function.comp_apply, Select.projection, Select.project, shown, Bool.false_eq_true, ↓reduceIte,
    Expr.evalAll_eq_map, List.map_map]
  exact List.map_congr_left fun column _ => cell row column

theorem resolve_reader {db : Database} {name : String} {names columns : List String} {t : Table}
    (plain : columns.all (fun c => plainName c && (Syntax.truth? c).isNone) = true)
    (some_ : columns.isEmpty = false) (found : db.tables.get? (key name) = some t)
    (own : t.columnNames = names.map fold) :
    ((reader columns name).resolve db >>= fun q => .ok (q.rows ⟨db, 0⟩)) =
      shownRows columns names t.rows := by
  have visible : Syntax.Source.visible db (.mk name false none false []) = (key name, names.map fold) := by
    have heads : db.columns (key name) = t.columns := by rw [Database.columns, found]; rfl
    rw [Syntax.Source.visible, Option.getD_none, heads]
    exact congrArg _ own
  have results := @resolveAll_reader db (key name) names columns plain
  have whole : (reader columns name).resolve db =
      Syntax.Expr.resolveAll db [[(key name, names.map fold)]] (columns.map (.name false)) >>= fun results =>
        .ok (Query.ofSelect (.mk false results [.mk (key name) (key name) false []] [])) := by
    have around : [Syntax.Source.mk name false none false []].map (Syntax.Source.visible db) =
        [(key name, names.map fold)] := congrArg (· :: []) visible
    simp only [reader, Syntax.Query.resolve, Syntax.Query.resolveMore, Syntax.Select.resolve, around,
      Syntax.Expr.resolveAll, Syntax.Source.resolveAll, Option.getD_none]
    cases Syntax.Expr.resolveAll db [[(key name, names.map fold)]] (columns.map (.name false)) <;> rfl
  rw [whole, results, shownRows]
  cases columns.find? (!listed names ·) with
  | some column => rfl
  | none => exact congrArg Except.ok (rows_reader found own some_)

section Reader

variable (columns : List String) (name : String)

theorem allTables_names : Syntax.Expr.allTables (columns.map (.name false)) = [] := by
  induction columns with
  | nil => rfl
  | cons c rest ih =>
    simp only [List.map_cons, Syntax.Expr.allTables, Syntax.Expr.tables, ih, List.append_nil]

theorem sourceCounts_names : Syntax.Expr.sourceCounts (columns.map (.name false)) = 0 := by
  induction columns with
  | nil => rfl
  | cons c rest ih =>
    simp only [List.map_cons, Syntax.Expr.sourceCounts, Syntax.Expr.sourceCount, ih, Nat.max_self]

theorem anyTooHigh_names : Syntax.Expr.anyTooHigh 0 (columns.map (.name false)) = false := by
  induction columns with
  | nil => rfl
  | cons c rest ih =>
    simp only [List.map_cons, Syntax.Expr.anyTooHigh, Syntax.Expr.height, Syntax.Expr.goesTooDeep, ih]
    rfl

theorem tables_reader : (reader columns name).tables = [Sql.reading name] := by
  simp [reader, Syntax.Query.tables, Syntax.Query.selects, Syntax.Select.tables, Syntax.Source.tables,
    Syntax.Source.conditionTables, allTables_names, Syntax.Expr.allTables, Sql.reading]

theorem sourceCount_reader : (reader columns name).sourceCount = 1 := by
  simp [reader, Syntax.Query.sourceCount, Syntax.Query.selects, Syntax.Select.sourceCount,
    sourceCounts_names, Syntax.Expr.sourceCounts, Syntax.Source.sourceCounts]

theorem sizeFault_reader : (Syntax.Statement.select (reader columns name)).sizeFault? = none := by
  have sources : (Syntax.Statement.select (reader columns name)).sourceCount = 1 := by
    rw [Syntax.Statement.sourceCount, Syntax.Statement.query?, Option.map_some, sourceCount_reader]
    rfl
  have shallow : (Syntax.Statement.select (reader columns name)).isTooDeep = false := by
    simp [Syntax.Statement.isTooDeep, Syntax.Statement.query?, Syntax.Query.isTooDeep, reader,
      Syntax.Query.selects, Syntax.Select.isTooDeep, anyTooHigh_names, Syntax.Expr.joined,
      Syntax.Expr.anyTooDeep, Syntax.Source.anyTooDeep, Syntax.heightLimit]
  have few : ((Syntax.Statement.select (reader columns name)).query?.any
      (500 < ·.selects.length)) = false := by
    simp [Syntax.Statement.query?, reader, Syntax.Query.selects]
  simp only [Syntax.Statement.sizeFault?, sources, few, shallow]
  rfl

end Reader

theorem viewColumns {columns : List String}
    (plain : columns.all (fun c => plainName c && (Syntax.truth? c).isNone) = true) :
    (columns.zipIdx.map fun (name, position) => (viewColumn name position, (none : Option ColumnType))) =
      columns.map fun c => (fold c, none) := by
  have each : ∀ entry ∈ columns.zipIdx, ((viewColumn entry.1 entry.2, none) : String × Option ColumnType) =
      (fold entry.1, none) := fun entry inside => by
    have own := List.all_eq_true.mp plain entry.1 (List.fst_mem_of_mem_zipIdx inside)
    rw [Bool.and_eq_true, plainName_iff, Option.isNone_iff_eq_none] at own
    rw [viewColumn, own.2, own.1]
    rfl
  rw [List.map_congr_left each]
  calc columns.zipIdx.map (fun entry => (fold entry.1, (none : Option ColumnType)))
      = (columns.zipIdx.map Prod.fst).map fun c => (fold c, none) := by rw [List.map_map]; rfl
    _ = columns.map fun c => (fold c, none) := by rw [List.zipIdx_map_fst]

variable (mirrors : Mirrors called db a) {name : String}

include mirrors

theorem Mirrors.find_missing {names : List String} (tabled : names.all plainTable = true) :
    (names.map Sql.reading).find? (fun (name, _) => !a.tables.contains (key name)) =
      (names.find? (!db.tables.contains ·)).map Sql.reading := by
  rw [List.find?_map]
  refine congrArg _ (List.find?_congr fun name inside => ?_)
  have own := Bool.and_eq_true_iff.mp (List.all_eq_true.mp tabled name inside)
  exact congrArg (!·) (mirrors.contains_tables own.1)

theorem viewTable_eq {v : View} {va : Syntax.View} (plain : v.isPlain = true)
    (same : va.columns = v.columns ∧ va.query = v.query.written) :
    a.viewTable va = match v.query.check db with
      | .ok () => .ok ⟨v.columns.map fun c => (fold c, none), v.query.rows ⟨db, 0⟩⟩
      | .error (.noTable table) => .error (.noTable ("main." ++ table))
      | .error fault => .error fault := by
  simp only [View.isPlain, Bool.and_eq_true, decide_eq_true_eq] at plain
  obtain ⟨⟨⟨named, query⟩, joins⟩, tabled⟩ := plain
  have settles := @Query.resolve_written db _ query
  have few : Syntax.checkJoins v.query.written.sourceCount = .ok () := if_neg (Nat.not_lt.mpr joins)
  have check : v.query.check db = checkNames db (v.query.checked.flatMap Select.tables)
    (v.query.checked.flatMap (Select.unresolved db [])) := rfl
  rw [viewTable, same.1, same.2, Query.tables_written query, mirrors.find_missing tabled, mirrors.tables, viewColumns named,
    few, check]
  unfold checkNames
  cases (v.query.checked.flatMap Select.tables).find? (!db.tables.contains ·) with
  | some table => rfl
  | none =>
    cases unresolved : v.query.checked.flatMap (Select.unresolved db []) with
    | nil =>
      rw [unresolved] at settles
      obtain ⟨query', ran, rows⟩ := settles
      change (v.query.written.resolve db.folded >>= _) = _
      rw [ran, ← rows 0]
      rfl
    | cons column _ =>
      rw [unresolved] at settles
      have refused : v.query.written.resolve db.folded = .error (.noColumn column) := settles
      change (v.query.written.resolve db.folded >>= _) = _
      rw [refused]
      rfl

theorem select_ok {columns : List String} {db' : Database}
    (ran : a.readingOne db.folded (Sql.reading name) = .ok db') :
    a.select (reader columns name) =
      (reader columns name).resolve db' >>= fun q => .ok (q.rows ⟨db', 0⟩) := by
  have few : Syntax.checkJoins (reader columns name).sourceCount = .ok () := by
    rw [sourceCount_reader]
    rfl
  rw [select, tables_reader, Archive.reading, mirrors.tables, List.foldlM_cons, ran, few]
  rfl

theorem select_refused {columns : List String} {fault : Fault}
    (ran : a.readingOne db.folded (Sql.reading name) = .error fault) :
    a.select (reader columns name) = .error fault := by
  rw [select, tables_reader, Archive.reading, mirrors.tables, List.foldlM_cons, ran]
  rfl

omit mirrors in
theorem shownRows_code {columns names : List String} {rows : List Row} {fault : Fault}
    (refused : shownRows columns names rows = .error fault) : fault.code = 1 := by
  unfold shownRows at refused
  split at refused
  · cases refused
    rfl
  · cases refused

omit mirrors in
theorem checkNames_code {names unresolved : List String} {fault : Fault}
    (refused : checkNames db names unresolved = .error fault) : fault.code = 1 := by
  unfold checkNames at refused
  split at refused
  · cases refused
    rfl
  · split at refused
    · cases refused
      rfl
    · cases refused

theorem select_table {columns : List String} {t : Table} (tabled : plainTable name = true)
    (plain : columns.all (fun c => plainName c && (Syntax.truth? c).isNone) = true)
    (some_ : columns.isEmpty = false) (found : db.tables.get? name = some t) :
    a.select (reader columns name) = shownRows columns t.columnNames t.rows := by
  have own := plainName_iff.mp (Bool.and_eq_true_iff.mp tabled).1
  have there : db.folded.tables.get? (key name) = some t.folded := by
    rw [Database.get?_folded, own, Names.get?_congr (fold_fold name), found]
    rfl
  rw [select_ok mirrors (mirrors.readingOne_table tabled found)]
  exact resolve_reader (t := t.folded) plain some_ there (map_fst_foldColumns t.columns)

theorem select_view {columns : List String} {v : View} (tabled : plainTable name = true)
    (plain : columns.all (fun c => plainName c && (Syntax.truth? c).isNone) = true)
    (some_ : columns.isEmpty = false) (missing : db.tables.get? name = none)
    (found : db.views.get? name = some v) :
    a.select (reader columns name) = match v.query.check db with
      | .ok () => shownRows columns v.columns (v.query.rows ⟨db, 0⟩)
      | .error (.noTable table) => .error (.noTable ("main." ++ table))
      | .error fault => .error fault := by
  have own := plainName_iff.mp (Bool.and_eq_true_iff.mp tabled).1
  have viewed := mirrors.views (fold name)
  rw [show db.views.byFold.get? (fold name) = some v from found] at viewed
  cases kept : a.views.get? (fold name) with
  | none => simp [kept] at viewed
  | some va =>
    rw [kept] at viewed
    have same := Prod.ext_iff.mp (Option.some.inj viewed)
    have table := viewTable_eq mirrors (mirrors.plain name v found).1 same
    have opened : a.readingOne db.folded (Sql.reading name) = a.viewTable va >>= fun t =>
        .ok { db.folded with tables := db.folded.tables.insert (key name) t } := by
      unfold Sql.reading readingOne
      simp only [mirrors.table?_none tabled missing, own, kept]
      rfl
    rw [table] at opened
    cases checked : v.query.check db with
    | error fault =>
      rw [checked] at opened
      cases fault <;> exact select_refused mirrors opened
    | ok =>
      rw [checked] at opened
      rw [select_ok mirrors opened]
      refine resolve_reader (t := ⟨v.columns.map fun c => (fold c, none), v.query.rows ⟨db, 0⟩⟩) plain some_
        ?_ ?_
      · rw [Names.get?_insert, if_pos rfl]
      · simp [Table.columnNames, Function.comp_def]

-- Columns that are read by name are those of the table or the view.
theorem select_alike {columns : List String} (tabled : plainTable name = true)
    (plain : columns.all (fun c => plainName c && (Syntax.truth? c).isNone) = true)
    (some_ : columns.isEmpty = false) :
    a.select (reader columns name) = db.read columns name ∧
      ∀ fault, db.read columns name = .error fault → fault.code = 1 := by
  have read : db.read columns name =
      db.contents name >>= fun contents => shownRows columns contents.1 contents.2 := by
    rw [Database.read, some_, if_neg Bool.false_ne_true]
    rfl
  rw [read]
  cases stored : db.tables.get? name with
  | some t =>
    rw [Database.contents, stored]
    exact ⟨select_table mirrors tabled plain some_ stored, fun _ refused => shownRows_code refused⟩
  | none =>
    cases viewed : db.views.get? name with
    | none =>
      have apart : db.views.contains name = false := by rw [Names.contains, viewed]; rfl
      rw [Database.contents, stored, viewed]
      refine ⟨select_refused mirrors (mirrors.readingOne_none tabled stored apart), fun fault refused => ?_⟩
      cases refused
      rfl
    | some v =>
      have contents : db.contents name = match v.query.check db with
          | .ok () => .ok (v.columns, v.query.rows ⟨db, 0⟩)
          | .error (.noTable table) => .error (.noTable ("main." ++ table))
          | .error fault => .error fault := by
        cases checked : v.query.check db with
        | ok => simp only [Database.contents, stored, viewed, checked]
        | error fault => cases fault <;> simp only [Database.contents, stored, viewed, checked]
      rw [select_view mirrors tabled plain some_ stored viewed, contents]
      cases checked : v.query.check db with
      | ok => exact ⟨rfl, fun _ refused => shownRows_code refused⟩
      | error fault =>
        have code := @checkNames_code db _ _ _ checked
        cases fault <;> exact ⟨rfl, fun _ refused => by cases refused; exact code⟩

end Contents

end Archive

end PeerExchange.Sql
