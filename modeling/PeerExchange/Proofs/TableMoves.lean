import PeerExchange.Proofs.GroupEffects
import PeerExchange.Proofs.HeldRows
import PeerExchange.Proofs.MaintenanceRules
import PeerExchange.Proofs.RetractionExactness

namespace PeerExchange

open RowSemantics (Holds cell name?)
open Sql (Database Expr InsertSource Row Select Source Statement Table Value World)

namespace Lowering

variable {ctx : Context} {r : Relation} {kind into source : TableKind} {db : Database}
  {parameter : Int} {row other : Row} {bindings : Bindings}

section Variables

variable {ps : List Place}

theorem bindPlaces_distinct
    (fresh : ∀ p ∈ ps, ∃ x, name? p.term = some x ∧ bindings.contains x = false)
    (distinct : (ps.map fun p => name? p.term).Nodup) :
    (bindPlaces bindings ps).2 = [] ∧
      (∀ x, bindings.contains x = true → (bindPlaces bindings ps).1.get? x = bindings.get? x) ∧
      ∀ p ∈ ps, ∀ x, name? p.term = some x → (bindPlaces bindings ps).1.get? x = some p.column := by
  induction ps generalizing bindings with
  | nil => exact ⟨rfl, fun _ _ => rfl, List.forall_mem_nil _⟩
  | cons p rest ih =>
    obtain ⟨⟨x, named, free⟩, others⟩ := List.forall_mem_cons.mp fresh
    obtain ⟨apart, distinct⟩ := List.nodup_cons.mp distinct
    have binds : RowSemantics.binder? bindings p.term = some x := by
      obtain ⟨v, same, rfl, plain⟩ := RowSemantics.name?_eq named
      simp [RowSemantics.binder?, same, plain, free]
    rw [bindPlaces_cons, binds]
    have stillFree : ∀ q ∈ rest, ∃ y, name? q.term = some y ∧
        (bindings.insert x p.column).contains y = false := by
      intro q inside
      obtain ⟨y, called, unbound⟩ := others q inside
      refine ⟨y, called, ?_⟩
      have differ : x ≠ y := by
        rintro rfl
        exact apart (List.mem_map.mpr ⟨q, inside, called.trans named.symm⟩)
      rw [NameMap.contains, NameMap.get?_insert, if_neg differ]
      exact unbound
    obtain ⟨none, kept, each⟩ := ih stillFree distinct
    refine ⟨none, fun y bound => ?_, List.forall_mem_cons.mpr ⟨fun y called => ?_, each⟩⟩
    · rw [kept y (by rw [NameMap.contains_insert]; simp [bound]), NameMap.get?_insert, if_neg]
      rintro rfl
      rw [free] at bound
      cases bound
    · cases named.symm.trans called
      rw [kept x (by rw [NameMap.contains_insert]; simp), NameMap.get?_insert, if_pos rfl]

def columnVariables (r : Relation) : List Term :=
  (List.range r.arity).map fun i => Term.var ("x" ++ toString i)

def wholeAtom (r : Relation) (kind : TableKind) : Atom :=
  (Atom.ofRelation r.name (columnVariables r)).withKind kind

theorem length_columnVariables : (columnVariables r).length = r.columns.length := by
  simp [columnVariables, Relation.arity]

theorem map_snd_zip : ((columnVariables r).zip r.columns).map Prod.snd = r.columns :=
  List.map_snd_zip length_columnVariables.ge

def columnBinding (r : Relation) (c : Column) : Binding :=
  ⟨.column (aliasName 0) c.name, (r.markerOf? c).map (.column (aliasName 0))⟩

-- The SELECT over a whole table, with a variable for each column.
structure Scans (ctx : Context) (r : Relation) (kind : TableKind) (sc : Scope) : Prop where
  sources : sc.sources = [.joined (r.tableName kind) (aliasName 0)]
  conditions : sc.conditions = []
  values : ∀ p ∈ (columnVariables r).zip r.columns,
    value ctx sc.bindings p.1 = .ok (columnBinding r p.2)

theorem lowerBody_scans (known : ctx.catalog.relations.get? r.name = some r) {sc : Scope}
    (lowered : lowerBody ctx none [wholeAtom r kind] = .ok sc) : Scans ctx r kind sc := by
  have places : ∀ p ∈ placesOf r (aliasName 0) (columnVariables r), ∃ x, name? p.term = some x ∧
      (.empty : Bindings).contains x = false := by
    intro p inside
    obtain ⟨⟨arg, column⟩, zipped, rfl⟩ := List.mem_map.mp inside
    obtain ⟨i, -, rfl⟩ := List.mem_map.mp (List.of_mem_zip zipped).1
    exact ⟨_, rfl, rfl⟩
  have distinct : ((placesOf r (aliasName 0) (columnVariables r)).map fun p => name? p.term).Nodup := by
    have names : (placesOf r (aliasName 0) (columnVariables r)).map (fun p => name? p.term) =
        (List.range r.arity).map fun i => some ("x" ++ toString i) := by
      rw [placesOf, List.map_map]
      have terms : ((columnVariables r).zip r.columns).map (fun p => name? p.1) =
          (columnVariables r).map name? := by
        rw [show (fun p : Term × Column => name? p.1) = name? ∘ Prod.fst from rfl, ← List.map_map,
          List.map_fst_zip length_columnVariables.le]
      refine terms.trans ?_
      rw [columnVariables, List.map_map]
      rfl
    rw [names]
    exact List.Nodup.map ((Option.some_injective _).comp (Maintenance.placeName_injective "x")) List.nodup_range
  obtain ⟨none, -, each⟩ := bindPlaces_distinct places distinct
  have found : relationOf ctx (wholeAtom r kind) = .ok r := by
    have relation : ctx.catalog.relation (wholeAtom r kind).relationName = .ok r := by
      change ctx.catalog.relation r.name = .ok r
      rw [Catalog.relation, known]
    rw [relationOf, relation]
    exact if_pos length_columnVariables
  have joined : joinAtom ctx .none { bindings := .empty, aliases := 0 } 0 (wholeAtom r kind) = .ok {
      bindings := (bindPlaces .empty (placesOf r (aliasName 0) (columnVariables r))).1
      sources := [.joined (r.tableName kind) (aliasName 0)]
      aliases := 1 } := by
    unfold joinAtom
    rw [found]
    simp only [bind, Except.bind, guardConditions]
    have left : (bindPlaces .empty (placesOf r (aliasName 0) (wholeAtom r kind).args)).2 = [] := none
    simp only [left]
    rfl
  have built : lowerBody ctx .none [wholeAtom r kind] = .ok {
      bindings := (bindPlaces .empty (placesOf r (aliasName 0) (columnVariables r))).1
      sources := [.joined (r.tableName kind) (aliasName 0)]
      aliases := 1 } := by
    unfold lowerBody joinAtoms
    rw [show (wholeAtom r kind).isPositive = true from rfl, if_pos rfl, joined]
    rfl
  cases lowered.symm.trans built
  refine ⟨rfl, rfl, fun p inside => ?_⟩
  obtain ⟨i, -, variable_⟩ := List.mem_map.mp (List.of_mem_zip inside).1
  have place : (⟨columnBinding r p.2, p.1⟩ : Place) ∈ placesOf r (aliasName 0) (columnVariables r) :=
    List.mem_map.mpr ⟨p, inside, rfl⟩
  have bound := each _ place ("x" ++ toString i) (by rw [← variable_]; rfl)
  rw [← variable_, value, Term.var, valueWith, bound]

end Variables

section Written

variable {sc : Scope} {es : List Expr}

theorem project_scans (scans : Scans ctx r source sc) (flat : r.stratified = false)
    (unblanked : (ctx.rule.blankAll || ctx.rule.blankNonKey) = false)
    (lowered : project ctx r (wholeAtom r into) sc.bindings = .ok es) :
    es = (columnNames r source).map (.column (aliasName 0)) := by
  have along (i : Nat) (places : List (Term × Column))
      (each : ∀ p ∈ places, value ctx sc.bindings p.1 = .ok (columnBinding r p.2)) :
      projectColumns ctx r sc.bindings i places = .ok (places.flatMap fun p =>
        .column (aliasName 0) p.2.name :: ((r.markerOf? p.2).map (.column (aliasName 0))).toList) := by
    induction places generalizing i with
    | nil => rfl
    | cons p rest ih =>
      obtain ⟨here, later⟩ := List.forall_mem_cons.mp each
      obtain ⟨arg, column⟩ := p
      unfold projectColumns
      dsimp only at here ⊢
      rw [here, ih (i + 1) later]
      simp only [bind, Except.bind, projectPlace, unblanked, Bool.false_and, Bool.false_eq_true,
        if_false, List.flatMap_cons, columnBinding, Binding.markerExpr]
      cases r.markerOf? column <;> rfl
  have unstamped (kind : TableKind) : r.hasStratum kind = false := by
    simp [Relation.hasStratum, flat]
  unfold project at lowered
  rw [show (wholeAtom r into).args = columnVariables r from rfl, along 0 _ scans.values] at lowered
  simp only [bind, Except.bind, unstamped, Bool.false_eq_true, if_false, Except.ok.injEq] at lowered
  rw [← lowered, columnNames, Relation.physicalColumns, unstamped, if_neg Bool.false_ne_true,
    List.append_nil]
  conv_rhs => rw [← @map_snd_zip r, List.flatMap_map, List.map_flatMap, List.map_flatMap]
  refine List.flatMap_congr fun p _ => ?_
  cases r.markerOf? p.2 <;> rfl

theorem correlate_scans {table : String} (scans : Scans ctx r source sc)
    (flat : r.stratified = false)
    (lowered : correlate ctx table r sc.bindings ((wholeAtom r into).args.zip r.columns) = .ok es) :
    ∀ e, e ∈ es ↔ ∃ column ∈ r.physicalColumns source,
      e = .binary .is (.column table column.1) (.column (aliasName 0) column.1) := by
  have along (places : List (Term × Column)) (es : List Expr)
      (each : ∀ p ∈ places, value ctx sc.bindings p.1 = .ok (columnBinding r p.2))
      (lowered : correlate ctx table r sc.bindings places = .ok es) (e : Expr) :
      e ∈ es ↔ ∃ column ∈ places.flatMap fun p =>
          p.2.name :: (r.markerOf? p.2).toList,
        e = .binary .is (.column table column) (.column (aliasName 0) column) := by
    induction places generalizing es with
    | nil =>
      cases lowered
      simp
    | cons p rest ih =>
      obtain ⟨here, later⟩ := List.forall_mem_cons.mp each
      obtain ⟨arg, column⟩ := p
      unfold correlate at lowered
      dsimp only at here
      obtain ⟨b, valued, lowered⟩ := Compiled.bind_ok.mp lowered
      cases here.symm.trans valued
      obtain ⟨others, more, lowered⟩ := Compiled.bind_ok.mp lowered
      cases lowered
      rw [List.mem_append, List.mem_append, ih others later more, List.mem_singleton]
      simp only [columnBinding, Binding.markerExpr, List.flatMap_cons, List.mem_append,
        List.mem_cons, or_and_right, exists_or, exists_eq_left, Option.mem_toList]
      cases r.markerOf? column with
      | none => simp
      | some marker => simp [or_comm, eq_comm (a := e)]
  intro e
  rw [along _ _ scans.values lowered e, Relation.physicalColumns]
  have unstamped : r.hasStratum source = false := by simp [Relation.hasStratum, flat]
  rw [unstamped, if_neg Bool.false_ne_true, List.append_nil]
  conv_rhs => rw [← @map_snd_zip r, List.flatMap_map]
  simp only [List.mem_flatMap, List.mem_cons, Option.mem_toList, Option.map_eq_some_iff]
  constructor
  · rintro ⟨column, ⟨p, inside, rfl | marked⟩, rfl⟩
    · exact ⟨_, ⟨p, inside, .inl rfl⟩, rfl⟩
    · exact ⟨_, ⟨p, inside, .inr ⟨column, marked, rfl⟩⟩, rfl⟩
  · rintro ⟨column, ⟨p, inside, rfl | ⟨marker, marked, rfl⟩⟩, rfl⟩
    · exact ⟨_, ⟨p, inside, .inl rfl⟩, rfl⟩
    · exact ⟨_, ⟨p, inside, .inr marked⟩, rfl⟩

end Written

end Lowering

namespace Relation

variable {r : Relation} {kind into source : TableKind} {db db' : Database} {row other : Row}

def Keeps (r : Relation) (kind : TableKind) (row : Row) : Prop :=
  List.Forall₂ (fun (column : String × ColumnType) v => v.store column.2 = v)
    (r.physicalColumns kind) row

theorem StoredIn.keeps (stored : r.StoredIn kind db) (inside : row ∈ db.rows (r.tableName kind)) :
    r.Keeps kind row := stored.kept row inside

theorem StoredIn.changed {tables : String → Prop} (stored : r.StoredIn kind db)
    (changes : Database.ChangesIn tables db db')
    (keeps : ∀ row ∈ db'.rows (r.tableName kind), r.Keeps kind row) : r.StoredIn kind db' where
  present := (changes.present _).trans stored.present
  columns := (changes.columns _).trans stored.columns
  distinct := stored.distinct
  kept := keeps

theorem physicalColumns_ne (r : Relation) (columned : r.columns ≠ []) :
    r.physicalColumns kind ≠ [] := by
  obtain ⟨c, rest, same⟩ := List.exists_cons_of_ne_nil columned
  simp [physicalColumns, same]

theorem StoredIn.map_fill (stored : r.StoredIn kind db) {t : Table} {rows : List Row}
    (found : db.tables.get? (r.tableName kind) = some t) (keeps : ∀ row ∈ rows, r.Keeps kind row) :
    rows.map (t.fill (Lowering.columnNames r kind)) = rows := by
  have shown : db.columns (r.tableName kind) = t.columns := by
    simp [Database.columns, found]
  have columns := stored.columns
  rw [shown] at columns
  have names : t.columnNames = Lowering.columnNames r kind := by
    rw [Table.columnNames, columns, List.map_map]
    rfl
  refine (List.map_congr_left fun row inside => ?_).trans (List.map_id _)
  rw [← names]
  refine Table.fill_of_kept (by rw [names]; exact stored.distinct) ?_
  rw [columns, List.forall₂_map_left_iff]
  exact keeps row inside

theorem physicalColumns_flat (flat : r.stratified = false) (kind into : TableKind) :
    r.physicalColumns kind = r.physicalColumns into := by
  simp [physicalColumns, hasStratum, flat]

theorem Keeps.flat (flat : r.stratified = false) (keeps : r.Keeps kind row) : r.Keeps into row := by
  rw [Keeps, physicalColumns_flat flat into kind]
  exact keeps

theorem holds_is_kept {type : ColumnType} {v w : Value} (left : v.store type = v)
    (right : w.store type = w) :
    Holds .is ⟨v, some type⟩ ⟨w, some type⟩ ↔ v.same w = true := by
  rw [RowSemantics.holds_is_iff,
    RowSemantics.order_of_fits rfl ⟨.inl rfl, left⟩ ⟨.inl rfl, right⟩, Value.same, decide_eq_true_eq]

theorem same_iff_cells (flat : r.stratified = false) (here : r.StoredIn into db)
    (there : r.StoredIn source db) (left : r.Keeps into row) (right : r.Keeps source other) :
    row.same other = true ↔ ∀ column ∈ r.physicalColumns source,
      Holds .is (cell db (r.tableName into) row column.1)
        (cell db (r.tableName source) other column.1) := by
  have first := List.forall₂_iff_get.mp (left.flat flat : r.Keeps source row)
  have second := List.forall₂_iff_get.mp right
  have compared (i : Nat) (bound : i < (r.physicalColumns source).length) (inRow : i < row.length)
      (inOther : i < other.length) :
      Holds .is (cell db (r.tableName into) row (r.physicalColumns source)[i].1)
        (cell db (r.tableName source) other (r.physicalColumns source)[i].1) ↔
        row[i].same other[i] = true := by
    have own := here.cell_at (physicalColumns_flat flat into source ▸ bound) inRow
    simp only [physicalColumns_flat flat into source] at own
    rw [own, there.cell_at bound inOther]
    exact holds_is_kept (first.2 i bound inRow) (second.2 i bound inOther)
  rw [Row.same_iff, List.forall₂_iff_get]
  constructor
  · rintro ⟨-, each⟩ column inside
    obtain ⟨i, bound, rfl⟩ := List.getElem_of_mem inside
    exact (compared i bound (first.1 ▸ bound) (second.1 ▸ bound)).mpr (each i _ _)
  · intro each
    refine ⟨first.1.symm.trans second.1, fun i inRow inOther => ?_⟩
    have bound : i < (r.physicalColumns source).length := first.1 ▸ inRow
    exact (compared i bound inRow inOther).mp (each _ (List.getElem_mem bound))

-- Some row of one of the relation's tables counts as the given one.
def Contains (r : Relation) (db : Database) (kind : TableKind) (row : Row) : Prop :=
  Row.HeldIn (db.rows (r.tableName kind)) row

theorem steady_contains : Row.Steady (r.Contains db kind) := fun _ _ same => Row.heldIn_congr same

theorem steady_lacks : Row.Steady fun row => ¬ r.Contains db kind row :=
  fun a b same => not_congr (steady_contains a b same)

theorem fold_tableName_injective : Function.Injective fun kind => Sql.fold (r.tableName kind) := by
  intro kind kind' same
  have texts := congrArg String.toList same
  simp only [Sql.fold_toList, tableName, String.toList_append, List.map_append] at texts
  have suffixes := List.append_cancel_left texts
  revert suffixes
  cases kind <;> cases kind' <;> decide

-- One of the tables holds other rows than before, and the others what they held.
structure Becomes (r : Relation) (db db' : Database) (into : TableKind) (holds : Row → Prop) :
    Prop where
  stored : ∀ kind, r.StoredIn kind db'
  contains : r.Contains db' = Function.update (r.Contains db) into holds

theorem becomes_of_rows {holds : Row → Prop} (stored : ∀ kind, r.StoredIn kind db)
    (changes : Database.ChangesIn (· = r.tableName into) db db')
    (keeps : ∀ row ∈ db'.rows (r.tableName into), r.Keeps into row)
    (exactly : ∀ row, Row.HeldIn (db'.rows (r.tableName into)) row ↔ holds row) :
    r.Becomes db db' into holds := by
  have same (kind : TableKind) (differ : kind ≠ into) :
      db'.rows (r.tableName kind) = db.rows (r.tableName kind) :=
    changes.rows (Database.elsewhere_singleton.mpr fun equal => differ (fold_tableName_injective equal).symm)
  constructor
  · intro kind
    by_cases own : kind = into
    · subst own
      exact (stored kind).changed changes keeps
    · exact (stored kind).changed changes fun row inside => (stored kind).keeps (same kind own ▸ inside)
  · funext kind row
    by_cases own : kind = into
    · subst own
      rw [Function.update_self]
      exact propext (exactly row)
    · rw [Function.update_of_ne own, Contains, Contains, same kind own]

end Relation

namespace Lowering

variable {ctx : Context} {r : Relation} {into source : TableKind} {db db' : Database}
  {parameter : Int} {row : Row} {sc : Scope} {own : List Expr} {n : Nat} {suffix : String}
  {ss : List Statement}

theorem selected_iff (scans : Scans ctx r source sc) (flat : r.stratified = false)
    (uncalled : Sql.fold (aliasName 0) ≠ Sql.fold (r.tableName into))
    (correlated : correlate ctx (r.tableName into) r sc.bindings
      ((wholeAtom r into).args.zip r.columns) = .ok own)
    (here : r.StoredIn into db) (there : r.StoredIn source db)
    (inside : row ∈ db.rows (r.tableName into)) :
    Expr.allHold ⟨db, parameter⟩ [[⟨r.tableName into, db.columns (r.tableName into), row⟩]]
        [.exists false (.mk false [] sc.sources (sc.conditions ++ own))] = true ↔
      r.Contains db source row := by
  let w : World := ⟨db, parameter⟩
  let outer : Sql.Frame := [⟨r.tableName into, db.columns (r.tableName into), row⟩]
  let item (found : Row) : Sql.Item := ⟨aliasName 0, db.columns (r.tableName source), found⟩
  have frames : Source.frames w [outer] [] sc.sources =
      (db.rows (r.tableName source)).map fun found => [item found] := by
    rw [scans.sources]
    simp [Source.joined, Source.frames, List.flatMap_map, ← List.map_eq_flatMap, w, item]
  -- In the scope of a row of the other table, either name shows its own row.
  have shown (found : Row) (column : String) :
      (Expr.column (r.tableName into) column).eval w [[item found], outer] =
          cell db (r.tableName into) row column ∧
        (Expr.column (aliasName 0) column).eval w [[item found], outer] =
          cell db (r.tableName source) found column := by
    constructor
    · simp [Expr.eval, Sql.Scope.get?, Sql.Frame.get?, Sql.Item.get?, cell, outer, item, uncalled]
    · simp [Expr.eval, Sql.Scope.get?, Sql.Frame.get?, Sql.Item.get?, cell, outer, item,
        Ne.symm uncalled, List.findSome?_cons]
      cases Sql.Item.cell? column (db.columns (r.tableName source)) found <;> rfl
  have matched (found : Row) (stored : found ∈ db.rows (r.tableName source)) :
      AllTrue w [[item found], outer] (sc.conditions ++ own) ↔ row.same found = true := by
    rw [Relation.same_iff_cells flat here there (here.kept row inside) (there.kept found stored),
      scans.conditions, List.nil_append]
    have compares : IsComparison .is := ⟨by decide, by decide⟩
    unfold AllTrue
    simp only [correlate_scans scans flat correlated]
    constructor
    · intro each column listed
      have holds := each _ ⟨column, listed, rfl⟩
      rwa [holds_condition compares, (shown found _).1, (shown found _).2] at holds
    · rintro each e ⟨column, listed, rfl⟩
      rw [holds_condition compares, (shown found _).1, (shown found _).2]
      exact each column listed
  rw [allHold_iff, AllTrue, List.forall_mem_singleton, isTrue_exists, Select.frames,
    List.isEmpty_eq_false_iff_exists_mem]
  constructor
  · rintro ⟨f, listed⟩
    obtain ⟨listed, holds⟩ := List.mem_filter.mp listed
    rw [frames] at listed
    obtain ⟨found, stored, rfl⟩ := List.mem_map.mp listed
    exact ⟨found, stored, (matched found stored).mp (allHold_iff.mp holds)⟩
  · rintro ⟨found, stored, same⟩
    refine ⟨[item found], List.mem_filter.mpr ⟨?_, allHold_iff.mpr ((matched found stored).mpr same)⟩⟩
    rw [frames]
    exact List.mem_map.mpr ⟨found, stored, rfl⟩

theorem removal_ok (known : ctx.catalog.relations.get? r.name = some r)
    (rule : ctx.rule = Maintenance.tableRule r r.name suffix .retract into source)
    (lowered : lowerRule ctx = .ok ss) :
    ∃ sc own, Scans ctx r source sc ∧
      correlate ctx (r.tableName into) r sc.bindings ((wholeAtom r into).args.zip r.columns) =
        .ok own ∧ ss = [deletion (r.tableName into) sc own] := by
  have heads : ctx.rule.head = [wholeAtom r into] := by rw [rule]; rfl
  have body : ctx.rule.body = [wholeAtom r source] := by rw [rule]; rfl
  have guard : ctx.rule.guard = none := by rw [rule]; rfl
  have action : ctx.rule.action = .retract := by rw [rule]; rfl
  unfold lowerRule at lowered
  rw [heads] at lowered
  obtain ⟨r', found, lowered⟩ := Compiled.bind_ok.mp lowered
  cases Option.some.inj (known.symm.trans (relationOf_ok found).1)
  rw [action] at lowered
  obtain ⟨s, deletes, lowered⟩ := Compiled.bind_ok.mp lowered
  cases lowered
  obtain ⟨sc, own, lowers, correlated, rfl⟩ := lowerDelete_ok (by rw [body]; exact nofun) deletes
  rw [guard, body] at lowers
  exact ⟨sc, own, lowerBody_scans known lowers, correlated, rfl⟩

theorem execute_removal (known : ctx.catalog.relations.get? r.name = some r)
    (rule : ctx.rule = Maintenance.tableRule r r.name suffix .retract into source)
    (flat : r.stratified = false) (uncalled : Sql.fold (aliasName 0) ≠ Sql.fold (r.tableName into))
    (lowered : lowerRule ctx = .ok ss) :
    ∃ conditions, ss = [.delete (r.tableName into) conditions] ∧
      ∀ db db' parameter n, (∀ kind, r.StoredIn kind db) →
        db.execute parameter (.delete (r.tableName into) conditions) = .ok (db', n) →
        r.Becomes db db' into fun row => r.Contains db into row ∧ ¬ r.Contains db source row := by
  obtain ⟨sc, own, scans, correlated, rfl⟩ := removal_ok known rule lowered
  refine ⟨_, rfl, fun db db' parameter n stored ran => ?_⟩
  obtain ⟨changes, rows⟩ := Database.execute_delete_ok ran
  refine Relation.becomes_of_rows stored changes (fun row inside => ?_) fun row => ?_
  · rw [rows] at inside
    exact (stored into).keeps (List.mem_of_mem_filter inside)
  · rw [rows]
    refine Row.heldIn_filter Relation.steady_lacks fun found inside => ?_
    rw [← selected_iff scans flat uncalled correlated (stored into) (stored source) inside,
      Bool.not_eq_true', Bool.not_eq_true]

theorem addition_ok (known : ctx.catalog.relations.get? r.name = some r)
    (rule : ctx.rule = Maintenance.mergeRule r r.name false) (flat : r.stratified = false)
    (lowered : lowerRule ctx = .ok ss) :
    ∃ except, (∀ s, except = some s → ∃ qualifier, s = storedRows r .base qualifier) ∧
      ss = [.insert (r.tableName .base) (columnNames r .base) (.query {
        selects := [.mk true ((columnNames r .insertion).map (.column (aliasName 0)))
          [.joined (r.tableName .insertion) (aliasName 0)] []]
        except := except })] := by
  have heads : ctx.rule.head = [wholeAtom r .base] := by rw [rule]; rfl
  have body : ctx.rule.body = [wholeAtom r .insertion] := by rw [rule]; rfl
  have guard : ctx.rule.guard = none := by rw [rule]; rfl
  have action : ctx.rule.action = .derive := by rw [rule]; rfl
  have distinct : ctx.rule.distinct = true := by rw [rule]; rfl
  have unblanked : (ctx.rule.blankAll || ctx.rule.blankNonKey) = false := by rw [rule]; rfl
  unfold lowerRule at lowered
  rw [heads] at lowered
  obtain ⟨r', found, lowered⟩ := Compiled.bind_ok.mp lowered
  cases Option.some.inj (known.symm.trans (relationOf_ok found).1)
  rw [action] at lowered
  obtain ⟨s, inserts, lowered⟩ := Compiled.bind_ok.mp lowered
  cases lowered
  obtain ⟨sc, projection, lowers, projected, rfl⟩ :=
    lowerInsert_ok (by rw [body]; exact nofun) inserts
  -- The head keeps out what is there through EXCEPT alone.
  have joined : (insertionBody ctx.config.setSemantics r (wholeAtom r .base) ctx.rule.body).1 =
      [wholeAtom r .insertion] := by
    have other : (wholeAtom r .insertion).same (wholeAtom r .base).negate = false := by
      simp [Atom.same, wholeAtom, Atom.withKind, Atom.negate]
    have own : (wholeAtom r .base).negate.same (wholeAtom r .base).negate = true := by
      simp [Atom.same, Term.sameList]
    rw [body, insertionBody]
    cases ctx.config.setSemantics <;> simp [other, own, Relation.hasStratum, flat]
  rw [guard, joined] at lowers
  have scans := lowerBody_scans known lowers
  have columns := project_scans scans flat unblanked projected
  refine ⟨if (insertionBody ctx.config.setSemantics r (wholeAtom r .base) ctx.rule.body).2 then
    some (storedRows r .base (aliasName sc.aliases)) else none, fun s shown => ?_, ?_⟩
  · split at shown
    · cases shown
      exact ⟨_, rfl⟩
    · cases shown
  · rw [insertionQuery, selection, distinct, scans.sources, scans.conditions, columns]
    rfl

theorem execute_addition (known : ctx.catalog.relations.get? r.name = some r)
    (rule : ctx.rule = Maintenance.mergeRule r r.name false) (flat : r.stratified = false)
    (columned : r.columns ≠ []) (lowered : lowerRule ctx = .ok ss) :
    ∃ s, ss = [s] ∧
      ∀ db db' parameter n, (∀ kind, r.StoredIn kind db) →
        db.execute parameter s = .ok (db', n) →
        r.Becomes db db' .base fun row => r.Contains db .base row ∨ r.Contains db .insertion row := by
  obtain ⟨except, excluded, rfl⟩ := addition_ok known rule flat lowered
  refine ⟨_, rfl, fun db db' parameter n stored ran => ?_⟩
  have here := stored .base
  have there := stored .insertion
  obtain ⟨t, found, changes, rows⟩ := Database.execute_insert_ok ran
  have pending : (Select.mk true ((columnNames r .insertion).map (.column (aliasName 0)))
      [.joined (r.tableName .insertion) (aliasName 0)] []).projected ⟨db, parameter⟩ =
        db.rows (r.tableName .insertion) := storedRows_projected there (r.physicalColumns_ne columned)
  have collects := Sql.query_collects ⟨db, parameter⟩ (.mk true ((columnNames r .insertion).map
    (.column (aliasName 0))) [.joined (r.tableName .insertion) (aliasName 0)] []) except
  rw [pending] at collects
  have old : ∀ row ∈ (except.map (Select.projected ⟨db, parameter⟩)).getD [],
      row ∈ db.rows (r.tableName .base) := by
    intro row inside
    cases except with
    | none => cases inside
    | some s =>
      obtain ⟨qualifier, rfl⟩ := excluded s rfl
      rwa [Option.map_some, Option.getD_some,
        storedRows_projected here (r.physicalColumns_ne columned)] at inside
  -- What the pending table keeps, the other keeps as it is.
  have filled := here.map_fill found fun row inside =>
    (there.keeps (collects.source row inside).1).flat flat
  rw [InsertSource.rows, filled] at rows
  refine Relation.becomes_of_rows stored changes (fun row inside => ?_) fun row => ?_
  · rw [rows, List.mem_append] at inside
    rcases inside with before | added
    · exact here.keeps before
    · exact (there.keeps (collects.source row added).1).flat flat
  · rw [rows, Row.heldIn_append]
    constructor
    · rintro (before | ⟨added, inside, same⟩)
      · exact .inl before
      · exact .inr ⟨added, (collects.source added inside).1, same⟩
    · rintro (before | ⟨waiting, inside, same⟩)
      · exact .inl before
      · rcases collects.reached waiting inside with ⟨kept, listed, equal⟩ | ⟨kept, listed, equal⟩
        · exact .inl ⟨kept, old kept listed, Row.same_trans same equal⟩
        · exact .inr ⟨kept, listed, Row.same_trans same equal⟩

end Lowering

end PeerExchange
