import PeerExchange.Proofs.StatedTuples
import PeerExchange.Proofs.TableMoves

namespace PeerExchange

open Compiled (bind_ok)
open RowSemantics (Holds cell)
open Sql (Database Expr Row Statement Table Value World)

namespace Sql

theorem Value.store_ofFloating (x : Floating) :
    (Value.ofFloating x).store .integer = Value.ofFloating x := by
  cases whole : x.integer? with
  | none =>
    have own : Value.ofFloating x = .real x := by rw [Value.ofFloating, whole]; rfl
    rw [own]
    exact own
  | some n =>
    rw [Value.ofFloating, whole]
    rfl

theorem Value.store_store (type : ColumnType) (v : Value) : (v.store type).store type = v.store type := by
  cases type with
  | text => cases v <;> rfl
  | integer =>
    cases v with
    | null => rfl
    | integer n => rfl
    | real x => exact Value.store_ofFloating x
    | text s =>
      change Value.store .integer ((Value.ofNumericText? s).getD (.text s)) =
        (Value.ofNumericText? s).getD (.text s)
      cases number : Value.ofNumericText? s with
      | none =>
        change (Value.ofNumericText? s).getD (.text s) = .text s
        rw [number]
        rfl
      | some v =>
        rw [Option.getD_some]
        obtain ⟨n, -, rfl⟩ := Option.map_eq_some_iff.mp number
        unfold Value.ofNumeral
        split
        · rfl
        · exact Value.store_ofFloating _

theorem Value.null_of_same {v w : Value} (same : v.same w = true) : v = .null ↔ w = .null := by
  have weights := (Value.same_iff v w).mp same
  cases v <;> cases w <;> simp_all [Value.weight]

theorem Table.fill_zip {t : Table} {row : Row} (distinct : Distinct t.columnNames)
    (full : row.length = t.columns.length) :
    t.fill t.columnNames row = (t.columns.zip row).map fun place => place.2.keep place.1.2 := by
  have wide : (t.columns.zip row).length = t.columns.length := by
    rw [List.length_zip, full, Nat.min_self]
  refine map_columns (by rw [List.length_map, wide]) fun column v inside => ?_
  obtain ⟨i, bound, at_⟩ := List.mem_iff_getElem.mp inside
  rw [List.getElem_zip] at at_
  obtain ⟨rfl, rfl⟩ := Prod.mk.inj at_
  have inColumns : i < t.columns.length := by simpa [wide] using bound
  have listed : (t.columns[i], row[i]) ∈ t.columns.zip row :=
    List.mem_iff_getElem.mpr ⟨i, wide ▸ inColumns, List.getElem_zip⟩
  dsimp only [columnNames]
  rw [lookup_zip, cell?_of_mem distinct listed]
  simp

end Sql

namespace Relation

variable {r : Relation} {into kind : TableKind} {db db' : Database} {row other : Row} {rows : List Row}
  {n : Nat} {parameter : Int} {tuple : List Literal}

-- A row as the tables of the relation keep it.
def kept (r : Relation) (row : Row) : Row :=
  ((r.physicalColumns .base).zip row).map fun place => place.2.store place.1.2

def Fills (r : Relation) (row : Row) : Prop := row.length = (r.physicalColumns .base).length

theorem keeps_kept (flat : r.stratified = false) (full : r.Fills row) : r.Keeps into (r.kept row) := by
  rw [Keeps, physicalColumns_flat flat into .base, kept, List.forall₂_map_right_iff]
  refine List.forall₂_iff_get.mpr ⟨?_, fun i bound inside => ?_⟩
  · rw [List.length_zip, full, Nat.min_self]
  · simp only [List.get_eq_getElem, List.getElem_zip]
    exact Value.store_store _ _

theorem StoredIn.names_eq (stored : r.StoredIn kind db) {t : Table}
    (found : db.tables.get? (r.tableName kind) = some t) :
    t.columns = (r.physicalColumns kind).map (fun (name, type) => (name, some type)) ∧
      t.columnNames = Lowering.columnNames r kind ∧ Sql.Distinct t.columnNames := by
  have shown : db.columns (r.tableName kind) = t.columns := by simp [Database.columns, found]
  have columns := shown.symm.trans stored.columns
  have names : t.columnNames = Lowering.columnNames r kind := by
    rw [Table.columnNames, columns, List.map_map]
    rfl
  exact ⟨columns, names, names ▸ stored.distinct⟩

theorem becomes_load (flat : r.stratified = false) (stored : ∀ kind, r.StoredIn kind db)
    (full : ∀ row ∈ rows, r.Fills row)
    (ran : db.load (r.tableName into) (Lowering.columnNames r into) rows = .ok (db', n)) :
    r.Becomes db db' into fun row => r.Contains db into row ∨ Row.HeldIn (rows.map r.kept) row := by
  obtain ⟨t, found, changes, after⟩ := Database.load_ok ran
  obtain ⟨columns, names, distinct⟩ := (stored into).names_eq found
  have filled : rows.map (t.fill (Lowering.columnNames r into)) = rows.map r.kept := by
    refine List.map_congr_left fun row inside => ?_
    have wide : row.length = t.columns.length := by
      rw [columns, List.length_map, physicalColumns_flat flat into .base]
      exact full row inside
    rw [← names, Table.fill_zip distinct wide, columns, physicalColumns_flat flat into .base,
      List.zip_map_left, List.map_map]
    rfl
  rw [filled] at after
  refine becomes_of_rows stored changes (fun row inside => ?_) fun row => ?_
  · rw [after, List.mem_append] at inside
    rcases inside with before | added
    · exact (stored into).keeps before
    · obtain ⟨laid, listed, rfl⟩ := List.mem_map.mp added
      exact keeps_kept flat (full laid listed)
  · rw [after, Row.heldIn_append]
    rfl

section Tuples

theorem eval_valueExpr {w : World} {scope : Sql.Scope} (stored : r.toRow tuple = .ok row) :
    ∀ v ∈ row, (Engine.valueExpr v).eval w scope = ⟨v, none⟩ := by
  have single (literal : Literal) (v : Value) (stored : literal.toValue = .ok v) :
      (Engine.valueExpr v).eval w scope = ⟨v, none⟩ := by
    cases literal with
    | integer n =>
      rw [Literal.toValue] at stored
      split at stored
      · rename_i fits
        cases stored
        exact congrArg (Sql.Typed.mk · none) (if_pos fits)
      · cases stored
    | string | null | labeledNull =>
      cases stored
      rfl
  have along (columns : List (Column × Option String)) (tuple : List Literal) (row : Row)
      (stored : rowOf columns tuple = .ok row) :
      ∀ v ∈ row, (Engine.valueExpr v).eval w scope = ⟨v, none⟩ := by
    induction tuple generalizing columns row with
    | nil =>
      cases stored
      exact List.forall_mem_nil _
    | cons literal rest ih =>
      obtain ⟨v, first, stored⟩ := bind_ok.mp stored
      obtain ⟨values, later, stored⟩ := bind_ok.mp stored
      cases stored
      refine List.forall_mem_cons.mpr ⟨single literal v first, ?_⟩
      refine List.forall_mem_append.mpr ⟨?_, ih _ _ later⟩
      split
      · refine List.forall_mem_singleton.mpr ?_
        cases literal <;> rfl
      · exact List.forall_mem_nil _
  exact along _ _ _ stored

def Stores (r : Relation) (tuple : List Literal) (row : Row) : Prop :=
  ∃ laid, Engine.importedRow r tuple = .ok laid ∧ row.same (r.kept laid) = true

theorem steady_stores : Row.Steady (r.Stores tuple) := fun a b same =>
  exists_congr fun _ => and_congr_right fun _ =>
    ⟨fun held => Row.same_trans (Row.same_comm a b ▸ same) held, Row.same_trans same⟩

theorem stores_iff (laid : Engine.importedRow r tuple = .ok row) :
    r.Stores tuple other ↔ other.same (r.kept row) = true := by
  constructor
  · rintro ⟨made, same, held⟩
    cases laid.symm.trans same
    exact held
  · exact fun held => ⟨row, laid, held⟩

def valueAt (r : Relation) (row : Row) (name : String) : Value :=
  (Sql.lookup name ((Lowering.columnNames r .base).zip row)).getD .null

def HasKey (r : Relation) (tuple : List Literal) (row : Row) : Prop :=
  ∀ i ∈ r.key, ∃ c literal v, r.columns[i]? = some c ∧ tuple[i]? = some literal ∧
    literal.toValue = .ok v ∧ v ≠ .null ∧ (r.valueAt row c.name).same (v.store c.type) = true

def TakesBack (r : Relation) (tuple : List Literal) (row : Row) : Prop :=
  if r.key = [] then r.Stores tuple row else r.HasKey tuple row

theorem valueAt_same (same : row.same other = true) (name : String) :
    (r.valueAt row name).same (r.valueAt other name) = true := by
  have along (names : List String) (a b : Row)
      (each : List.Forall₂ (fun v w : Value => v.same w = true) a b) :
      ((Sql.lookup name (names.zip a)).getD .null).same
        ((Sql.lookup name (names.zip b)).getD .null) = true := by
    induction each generalizing names with
    | nil =>
      rw [List.zip_nil_right]
      exact Value.same_self _
    | cons here _ ih =>
      cases names with
      | nil => exact Value.same_self _
      | cons first names =>
        rw [List.zip_cons_cons, List.zip_cons_cons, Sql.lookup, Sql.lookup]
        split
        · exact here
        · exact ih names
  exact along _ _ _ (Row.same_iff.mp same)

theorem valueAt_cell (flat : r.stratified = false) (stored : r.StoredIn kind db) {name : String} :
    (cell db (r.tableName kind) row name).value = r.valueAt row name := by
  have names : (Lowering.columnNames r .base) =
      ((r.physicalColumns kind).map fun (name, type) => (name, some type)).map Prod.fst := by
    rw [List.map_map, physicalColumns_flat flat kind .base]
    rfl
  rw [valueAt, names, Sql.lookup_zip, cell, stored.columns]
  cases Sql.Item.cell? name ((r.physicalColumns kind).map fun (name, type) => (name, some type)) row <;> rfl

theorem steady_hasKey : Row.Steady (r.HasKey tuple) := by
  have forwards (a b : Row) (same : a.same b = true) (has : r.HasKey tuple a) : r.HasKey tuple b := by
    intro i inside
    obtain ⟨c, literal, v, column, at_, stored, some, equal⟩ := has i inside
    exact ⟨c, literal, v, column, at_, stored, some,
      Value.same_trans (valueAt_same (Row.same_comm a b ▸ same) c.name) equal⟩
  exact fun a b same => ⟨forwards a b same, forwards b a (Row.same_comm a b ▸ same)⟩

theorem mem_zip_rowOf {columns : List (Column × Option String)} {i : Nat}
    {column : Column × Option String} {literal : Literal} {v : Value}
    (stored : rowOf columns tuple = .ok row) (listed : columns[i]? = some column)
    (at_ : tuple[i]? = some literal) (value : literal.toValue = .ok v) :
    ((column.1.name, column.1.type), v) ∈ (columns.flatMap columnsFor).zip row := by
  induction tuple generalizing columns row i with
  | nil => cases at_
  | cons first rest ih =>
    obtain _ | ⟨own, columns⟩ := columns
    · cases listed
    · obtain ⟨w, here, stored⟩ := bind_ok.mp stored
      obtain ⟨values, later, stored⟩ := bind_ok.mp stored
      cases stored
      rw [List.flatMap_cons, columnsFor]
      cases i with
      | zero =>
        cases listed
        cases at_
        cases here.symm.trans value
        exact List.mem_cons_self
      | succ i =>
        have inside := ih later listed at_
        obtain ⟨c, _ | companion⟩ := own
        · exact List.mem_cons_of_mem _ inside
        · exact List.mem_cons_of_mem _ (List.mem_cons_of_mem _ inside)

theorem valueAt_kept {i : Nat} {c : Column} {literal : Literal} {v : Value}
    (distinct : Sql.Distinct (Lowering.columnNames r .base)) (laid : r.toRow tuple = .ok row)
    (listed : r.columns[i]? = some c) (at_ : tuple[i]? = some literal)
    (value : literal.toValue = .ok v) : r.valueAt (r.kept row) c.name = v.store c.type := by
  have marked : r.markedColumns[i]? = some (c, r.markerOf? c) := by
    rw [markedColumns, List.getElem?_map, listed]
    rfl
  have inside := mem_zip_rowOf laid marked at_ value
  rw [← physicalColumns_base] at inside
  have placed : ((c.name, some c.type), v.store c.type) ∈
      ((r.physicalColumns .base).map fun (name, type) => (name, some type)).zip (r.kept row) := by
    obtain ⟨j, bound, same⟩ := List.mem_iff_getElem.mp inside
    rw [List.getElem_zip] at same
    obtain ⟨column, own⟩ := Prod.mk.inj same
    have first : j < (r.physicalColumns .base).length := by
      rw [List.length_zip] at bound
      omega
    refine List.mem_iff_getElem.mpr ⟨j, ?_, ?_⟩
    · simpa [kept] using bound
    · simp [kept, column, own]
  have names : (Lowering.columnNames r .base) =
      ((r.physicalColumns .base).map fun (name, type) => (name, some type)).map Prod.fst := by
    rw [List.map_map]
    rfl
  rw [names] at distinct
  rw [valueAt, names, Sql.lookup_zip, Sql.cell?_of_mem distinct placed]
  rfl

theorem takesBack_own {own : List Literal} (distinct : Sql.Distinct (Lowering.columnNames r .base))
    (stores : r.Stores own row) (taken : r.TakesBack tuple row) : r.TakesBack own row := by
  unfold TakesBack at taken ⊢
  split at taken
  · rename_i unkeyed
    rwa [if_pos unkeyed]
  · rename_i keyed
    rw [if_neg keyed]
    intro i inside
    obtain ⟨laid, imported, same⟩ := stores
    obtain ⟨arity, laid⟩ := Engine.importedRow_ok.mp imported
    obtain ⟨c, -, w, listed, -, -, some, equal⟩ := taken i inside
    have bound : i < own.length := by
      rw [arity]
      exact (List.getElem?_eq_some_iff.mp listed).1
    obtain ⟨v, value⟩ := toRow_ok_iff.mp ⟨_, laid⟩ own[i] (List.getElem_mem bound)
    have here := valueAt_same (r := r) same c.name
    rw [valueAt_kept distinct laid listed (List.getElem?_eq_getElem bound) value] at here
    refine ⟨c, own[i], v, listed, List.getElem?_eq_getElem bound, value, ?_, here⟩
    rintro rfl
    have none : r.valueAt row c.name = .null :=
      (Value.null_of_same here).mpr (Lowering.store_eq_null_iff.mpr rfl)
    exact some (Lowering.store_eq_null_iff.mp ((Value.null_of_same equal).mp none))

end Tuples

section Cancelling

theorem becomes_delete (stored : ∀ kind, r.StoredIn kind db) {conditions : List Expr} {P : Row → Prop}
    (steady : Row.Steady P)
    (selects : ∀ row ∈ db.rows (r.tableName into), Expr.allHold ⟨db, parameter⟩
      [[⟨r.tableName into, db.columns (r.tableName into), row⟩]] conditions = true ↔ P row)
    (ran : db.execute parameter (.delete (r.tableName into) conditions) = .ok (db', n)) :
    r.Becomes db db' into fun row => r.Contains db into row ∧ ¬ P row := by
  obtain ⟨changes, rows⟩ := Database.execute_delete_ok ran
  refine becomes_of_rows stored changes (fun row inside => ?_) fun row => ?_
  · rw [rows] at inside
    exact (stored into).keeps (List.mem_of_mem_filter inside)
  · rw [rows]
    refine Row.heldIn_filter (fun a b same => not_congr (steady a b same)) fun found inside => ?_
    rw [Bool.not_eq_true', ← Bool.not_eq_true, selects found inside]

theorem eval_own {table column : String} : (Expr.column table column).eval ⟨db, parameter⟩
    [[⟨table, db.columns table, row⟩]] = cell db table row column := by
  simp only [Expr.eval, Sql.Scope.get?, Sql.Frame.get?, Sql.Item.get?, List.findSome?_cons,
    List.findSome?_nil, if_true, cell]
  cases Sql.Item.cell? column (db.columns table) row <;> rfl

theorem holds_is_stored {type : ColumnType} {v w : Value} (own : v.store type = v) :
    Holds .is ⟨v, some type⟩ ⟨w, none⟩ ↔ v.same (w.store type) = true := by
  have order : Sql.Typed.order ⟨v, some type⟩ ⟨w, none⟩ = (v.store type).order (w.store type) := by
    cases type <;> rfl
  rw [RowSemantics.holds_is_iff, order, own, Value.same, decide_eq_true_eq]

theorem becomes_cancelByValue (flat : r.stratified = false) (stored : ∀ kind, r.StoredIn kind db)
    (imported : Engine.importedRow r tuple = .ok row)
    (ran : db.execute parameter (Engine.cancelByValue r row) = .ok (db', n)) :
    r.Becomes db db' .insertion fun row => r.Contains db .insertion row ∧ ¬ r.Stores tuple row := by
  refine becomes_delete stored steady_stores (fun found inside => ?_) ran
  obtain ⟨arity, laid⟩ := Engine.importedRow_ok.mp imported
  have full := length_toRow arity laid
  have keeps := (stored .insertion).keeps inside
  have first := List.forall₂_iff_get.mp keeps
  have wide : row.length = (r.physicalColumns .insertion).length := by
    rw [physicalColumns_flat flat .insertion .base]
    exact full
  rw [Lowering.allHold_iff, stores_iff imported, Row.same_iff, List.forall₂_iff_get]
  have compared (i : Nat) (bound : i < (r.physicalColumns .insertion).length) (inFound : i < found.length)
      (inRow : i < row.length) (inKept : i < (r.kept row).length) :
      ((Expr.binary .is (.column (r.tableName .insertion) (r.physicalColumns .insertion)[i].1)
        (Engine.valueExpr row[i])).eval ⟨db, parameter⟩
          [[⟨r.tableName .insertion, db.columns (r.tableName .insertion), found⟩]]).value.isTrue = true ↔
        found[i].same (r.kept row)[i] = true := by
    have compares : Lowering.IsComparison .is := ⟨by decide, by decide⟩
    rw [Lowering.holds_condition compares, eval_own, eval_valueExpr laid _ (List.getElem_mem inRow),
      (stored .insertion).cell_at bound inFound]
    refine (holds_is_stored (first.2 i bound inFound)).trans ?_
    simp [kept, physicalColumns_flat flat .insertion .base]
  constructor
  · intro each
    refine ⟨?_, fun i inFound inKept => ?_⟩
    · rw [kept, List.length_map, List.length_zip, full, Nat.min_self,
        ← physicalColumns_flat flat .insertion .base]
      exact first.1.symm
    · have bound : i < (r.physicalColumns .insertion).length := first.1 ▸ inFound
      have inRow : i < row.length := wide ▸ bound
      refine (compared i bound inFound inRow inKept).mp (each _ (List.mem_map.mpr
        ⟨((r.physicalColumns .insertion)[i], row[i]), ?_, rfl⟩))
      exact List.mem_iff_getElem.mpr ⟨i, by simpa using ⟨bound, inRow⟩, List.getElem_zip⟩
  · rintro ⟨length, each⟩ e listed
    obtain ⟨place, zipped, rfl⟩ := List.mem_map.mp listed
    obtain ⟨i, bound, rfl⟩ := List.mem_iff_getElem.mp zipped
    rw [List.length_zip, wide, Nat.min_self] at bound
    have inFound : i < found.length := first.1 ▸ bound
    have inRow : i < row.length := wide ▸ bound
    simp only [List.getElem_zip]
    exact (compared i bound inFound inRow (length ▸ inFound)).mpr (each i inFound (length ▸ inFound))

theorem keyConditions_ok {ctx : Lowering.Context} {table : String} {head : Atom} {positions : List Nat}
    {conditions : List Expr} (args : head.args = r.statedArgs tuple)
    (lowered : Lowering.keyConditions ctx table r head positions = .ok conditions) :
    List.Forall₂ (fun i e => ∃ c literal, r.columns[i]? = some c ∧ tuple[i]? = some literal ∧
      e = .binary .eq (.column table c.name) (literal.expr c)) positions conditions := by
  induction positions generalizing conditions with
  | nil =>
    cases lowered
    exact .nil
  | cons i rest ih =>
    unfold Lowering.keyConditions at lowered
    split at lowered
    · rename_i arg c stated listed
      obtain ⟨b, bound, lowered⟩ := bind_ok.mp lowered
      obtain ⟨others, later, lowered⟩ := bind_ok.mp lowered
      cases lowered
      refine .cons ⟨c, ?_⟩ (ih later)
      rw [args, statedArgs, List.getElem?_map] at stated
      obtain ⟨place, zipped, rfl⟩ := Option.map_eq_some_iff.mp stated
      obtain ⟨at_, own⟩ := List.getElem?_zip_eq_some.mp zipped
      cases listed.symm.trans own
      refine ⟨place.1, listed, at_, ?_⟩
      obtain ⟨literal, column⟩ := place
      cases literal <;> cases bound <;> rfl
    · cases lowered

theorem lower_cancellation {c : Compilation} {ss : List Statement} {id : String}
    (found : c.catalog.relations.get? r.name = some r)
    (lowered : c.lower (.literal 0) { r.statement id .insertion tuple with action := .retract } = .ok ss) :
    ∃ conditions, ss = [.delete (r.tableName .insertion) conditions] ∧
      List.Forall₂ (fun i e => ∃ c literal, r.columns[i]? = some c ∧ tuple[i]? = some literal ∧
        e = .binary .eq (.column (r.tableName .insertion) c.name) (literal.expr c)) r.key conditions := by
  obtain ⟨known, related, lowered⟩ := bind_ok.mp (Lowering.lower_ok lowered)
  obtain rfl : known = r := Option.some.inj ((Lowering.relationOf_ok related).1.symm.trans found)
  obtain ⟨s, deletes, lowered⟩ := bind_ok.mp lowered
  cases lowered
  unfold Lowering.lowerDelete at deletes
  dsimp only at deletes
  split at deletes
  · split at deletes
    · cases deletes
    · obtain ⟨conditions, keyed, deletes⟩ := bind_ok.mp deletes
      cases deletes
      exact ⟨conditions, rfl, keyConditions_ok rfl keyed⟩
  · rename_i stated
    exact absurd rfl stated

theorem eval_literal {w : World} {scope : Sql.Scope} {literal : Literal} {c : Column} {v : Value}
    (value : literal.toValue = .ok v) : ((literal.expr c).eval w scope).value = v ∧
      (v ≠ .null → (literal.expr c).eval w scope = ⟨v, none⟩) := by
  cases literal with
  | integer n =>
    rw [Literal.toValue] at value
    split at value
    · rename_i fits
      cases value
      exact ⟨if_pos fits, fun _ => congrArg (Sql.Typed.mk · none) (if_pos fits)⟩
    · cases value
  | null =>
    cases value
    exact ⟨rfl, fun some => absurd rfl some⟩
  | string | labeledNull =>
    cases value
    exact ⟨rfl, fun _ => rfl⟩

theorem becomes_cancelByKey (flat : r.stratified = false) (stored : ∀ kind, r.StoredIn kind db)
    (imported : Engine.importedRow r tuple = .ok row) {conditions : List Expr}
    (compares : List.Forall₂ (fun i e => ∃ c literal, r.columns[i]? = some c ∧ tuple[i]? = some literal ∧
      e = .binary .eq (.column (r.tableName .insertion) c.name) (literal.expr c)) r.key conditions)
    (ran : db.execute parameter (.delete (r.tableName .insertion) conditions) = .ok (db', n)) :
    r.Becomes db db' .insertion fun row => r.Contains db .insertion row ∧ ¬ r.HasKey tuple row := by
  refine becomes_delete stored steady_hasKey (fun found inside => ?_) ran
  obtain ⟨-, laid⟩ := Engine.importedRow_ok.mp imported
  have selects (c : Column) (literal : Literal) (v : Value) (listed : c ∈ r.columns)
      (value : literal.toValue = .ok v) :
      ((Expr.binary .eq (.column (r.tableName .insertion) c.name) (literal.expr c)).eval ⟨db, parameter⟩
        [[⟨r.tableName .insertion, db.columns (r.tableName .insertion), found⟩]]).value.isTrue = true ↔
        v ≠ .null ∧ (r.valueAt found c.name).same (v.store c.type) = true := by
    have holds : Lowering.IsComparison .eq := ⟨by decide, by decide⟩
    have column : (c.name, c.type) ∈ r.physicalColumns .insertion :=
      List.mem_append_left _ (List.mem_flatMap.mpr ⟨c, listed, List.mem_cons_self⟩)
    obtain ⟨w, shown, own⟩ := (stored .insertion).cell_fits inside column
    have same : r.valueAt found c.name = w := by
      rw [← valueAt_cell flat (stored .insertion), shown]
    rw [Lowering.holds_condition holds, eval_own, shown, same, RowSemantics.holds_eq_iff]
    obtain ⟨first, whole⟩ := @eval_literal ⟨db, parameter⟩
      [[⟨r.tableName .insertion, db.columns (r.tableName .insertion), found⟩]] literal c v value
    rw [first]
    constructor
    · rintro ⟨-, some, order⟩
      rw [whole some] at order
      exact ⟨some, (holds_is_stored own).mp (RowSemantics.holds_is_iff.mpr order)⟩
    · rintro ⟨some, equal⟩
      rw [whole some]
      refine ⟨?_, some, RowSemantics.holds_is_iff.mp ((holds_is_stored own).mpr equal)⟩
      exact fun null => some (Lowering.store_eq_null_iff.mp ((Value.null_of_same equal).mp null))
  rw [Lowering.allHold_iff]
  constructor
  · intro each i inKey
    obtain ⟨e, listed, c, literal, column, at_, rfl⟩ := Compiled.forall₂_result compares inKey
    obtain ⟨v, value⟩ := toRow_ok_iff.mp ⟨_, laid⟩ literal (List.mem_of_getElem? at_)
    obtain ⟨some, equal⟩ := (selects c literal v (List.mem_of_getElem? column) value).mp (each _ listed)
    exact ⟨c, literal, v, column, at_, value, some, equal⟩
  · intro has e listed
    obtain ⟨i, inKey, c, literal, column, at_, rfl⟩ := Compiled.forall₂_source compares listed
    obtain ⟨c', literal', v, column', at', value, some, equal⟩ := has i inKey
    cases column.symm.trans column'
    cases at_.symm.trans at'
    exact (selects c literal v (List.mem_of_getElem? column) value).mpr ⟨some, equal⟩

end Cancelling

end Relation

end PeerExchange
